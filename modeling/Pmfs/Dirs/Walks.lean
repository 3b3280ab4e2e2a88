import Pmfs.Dirs.Readdir
import Mathlib.Logic.Relation

/-! # Walks over blocks with any bytes

The lengths of records are read from the medium. `pmfs_add_dirent_to_buf` and `kernelfs_add_dirent`
follow them without a check: they end in the block if and only if no record without room has the
length 0, and the record that is split leaves the new one in the block (`insert_walk_iff`).
`pmfs_readdir` checks them, and skips the rest of a block after a bad one by rounding `ctx->pos` up.
It ends if and only if it never starts a block at a bad record, and the records in use that it comes
to have inodes (`readdir_ends_iff`). -/

namespace Pmfs.Dirs.Walks

open Lib.Bytes Dirs.Model Dirs.Records Dirs.Readdir

variable {b : Blk} {d : Dir} {o n reclen fuel : ℕ}

instance (r : Rec) (reclen : ℕ) : Decidable (r.Fits reclen) := inferInstanceAs (Decidable (_ ∨ _))

/-! ### Room for an entry -/

/-- The places that the search for room comes to. -/
inductive Reached (b : Blk) (reclen : ℕ) : ℕ → Prop
  | start : Reached b reclen 0
  | next {o : ℕ} (h : Reached b reclen o) (hin : o + reclen ≤ 4096)
      (hno : ¬ (recAt b o).Fits reclen) : Reached b reclen (o + deLen b o)

/-- A search for room that ends, and leaves the new record in the block. -/
def RoomInside (b : Blk) (reclen : ℕ) (r : Option ℕ) : Prop := ∀ o ∈ r, place b o + reclen ≤ 4096

theorem findRoom_round (b : Blk) (reclen fuel o : ℕ) : findRoom b reclen (fuel + 1) o =
    if o + reclen ≤ 4096 then
      if (recAt b o).Fits reclen then some (some o) else findRoom b reclen fuel (o + deLen b o)
    else some none := by
  rw [findRoom]
  by_cases hin : o + reclen ≤ 4096
  · rw [if_pos hin, if_pos hin]
    by_cases hfit : (recAt b o).Fits reclen
    · rw [if_pos hfit, if_pos (fits_iff.mp hfit)]
    · rw [if_neg hfit, if_neg (mt fits_iff.mpr hfit)]
  · rw [if_neg hin, if_neg hin]

/-- A record of length 0 without room is read for ever. -/
theorem findRoom_zero (hin : o + reclen ≤ 4096) (hno : ¬ (recAt b o).Fits reclen)
    (hzero : deLen b o = 0) : ∀ fuel : ℕ, findRoom b reclen fuel o = none
  | 0 => rfl
  | fuel + 1 => by
    rw [findRoom_round, if_pos hin, if_neg hno, hzero]
    exact findRoom_zero hin hno hzero fuel

/-- The search from a place that it comes to has the same result. -/
theorem Reached.findRoom_eq {r : Option ℕ} (hrun : findRoom b reclen fuel 0 = some r)
    (h : Reached b reclen o) : ∃ fuel', findRoom b reclen fuel' o = some r := by
  induction h with
  | start => exact ⟨fuel, hrun⟩
  | @next o _ hin hno ih =>
    obtain ⟨fuel', hrun'⟩ := ih
    cases fuel' with
    | zero => exact absurd hrun' (by simp [findRoom])
    | succ fuel' =>
      rw [findRoom_round, if_pos hin, if_neg hno] at hrun'
      exact ⟨fuel', hrun'⟩

theorem core_eq : core b o = o + pmfsDirRecLen (deNameLen b o) := by
  rw [core, show (recAt b o).name.length = deNameLen b o from length_deName]

/-- What the bytes of a block have to be: a record that the search comes to leads on or has room, in
the block. -/
structure RoomOk (b : Blk) (reclen : ℕ) : Prop where
  leads : ∀ o, Reached b reclen o → o + reclen ≤ 4096 → ¬ (recAt b o).Fits reclen → deLen b o ≠ 0
  room : ∀ o, Reached b reclen o → o + reclen ≤ 4096 → (recAt b o).Fits reclen → deIno b o ≠ 0 →
    o + pmfsDirRecLen (deNameLen b o) + reclen ≤ 4096

theorem RoomOk.findRoom (h : RoomOk b reclen) (hpos : 0 < reclen) :
    ∀ {fuel o : ℕ}, Reached b reclen o → 0 < fuel → 4096 < o + fuel →
    ∃ r, findRoom b reclen fuel o = some r ∧ RoomInside b reclen r
  | 0, _, _, hfuel, _ => absurd hfuel (lt_irrefl 0)
  | fuel + 1, o, ho, _, hfuel => by
    rw [findRoom_round]
    by_cases hin : o + reclen ≤ 4096
    swap
    · rw [if_neg hin]
      exact ⟨none, rfl, fun o ho => absurd ho (by simp)⟩
    rw [if_pos hin]
    by_cases hfit : (recAt b o).Fits reclen
    · rw [if_pos hfit]
      refine ⟨some o, rfl, fun o' ho' => ?_⟩
      cases ho'
      rcases place_cases b o with ⟨hused, hplace⟩ | ⟨-, hplace⟩
      · rw [hplace, core_eq]
        exact h.room o ho hin hfit hused
      · rw [hplace]
        exact hin
    · rw [if_neg hfit]
      have hlen := h.leads o ho hin hfit
      exact h.findRoom hpos (ho.next hin hfit) (by omega) (by omega)

/-- The walk of `pmfs_add_dirent_to_buf` and of `kernelfs_add_dirent` for a name: both end, and the
record that they write, unless they return `-ENOSPC`, is in the block. -/
structure InsertsInside (b : Blk) (name : Name) : Prop where
  ends : ∀ ino, ∃ r, pmfsAddDirentToBuf b name ino none = some r
  ends' : ∀ log newBlock, log.name = name → ∃ r, kernelfsAddDirent log b none newBlock = some r
  inside : ∀ o, findRoom b (pmfsDirRecLen name.length) 4097 0 = some (some o) →
    place b o + pmfsDirRecLen name.length ≤ 4096

theorem insertsInside_of_room {name : Name} {r : Option ℕ}
    (hrun : findRoom b (pmfsDirRecLen name.length) 4097 0 = some r)
    (hr : RoomInside b (pmfsDirRecLen name.length) r) : InsertsInside b name := by
  refine ⟨fun ino => ?_, fun log newBlock hlog => ?_, fun o ho => ?_⟩
  · unfold pmfsAddDirentToBuf
    rw [hrun]
    exact ⟨_, rfl⟩
  · unfold kernelfsAddDirent
    rw [hlog, hrun]
    exact ⟨_, rfl⟩
  · rw [hrun, Option.some.injEq] at ho
    exact hr o ho

theorem InsertsInside.room {name : Name} (h : InsertsInside b name) :
    ∃ r, findRoom b (pmfsDirRecLen name.length) 4097 0 = some r ∧
    RoomInside b (pmfsDirRecLen name.length) r := by
  obtain ⟨r, hrun⟩ := h.ends 0
  obtain ⟨r', hroom, -⟩ := Option.map_eq_some_iff.mp hrun
  refine ⟨r', hroom, fun o ho => h.inside o ?_⟩
  rw [hroom, ho]

/-- **Main result.** Whatever the bytes of the block are, the walks end with a place in the block or
with `-ENOSPC` if and only if each record that they come to leads on, or has room that is in the
block. -/
theorem insert_walk_iff (name : Name) : InsertsInside b name ↔
    RoomOk b (pmfsDirRecLen name.length) := by
  constructor
  · intro h
    obtain ⟨r, hrun, hr⟩ := h.room
    refine ⟨fun o ho hin hno hzero => ?_, fun o ho hin hfit hused => ?_⟩
    · obtain ⟨fuel, hrun'⟩ := ho.findRoom_eq hrun
      rw [findRoom_zero hin hno hzero] at hrun'
      exact absurd hrun' (by simp)
    · obtain ⟨fuel, hrun'⟩ := ho.findRoom_eq hrun
      cases fuel with
      | zero => exact absurd hrun' (by simp [findRoom])
      | succ fuel =>
        rw [findRoom_round, if_pos hin, if_pos hfit, Option.some.injEq] at hrun'
        have hplace := hr o hrun'.symm
        rcases place_cases b o with ⟨-, heq⟩ | ⟨hfree, -⟩
        · rwa [heq, core_eq] at hplace
        · exact absurd hfree hused
  · intro h
    obtain ⟨r, hrun, hr⟩ := h.findRoom recLen_pos .start (show 0 < 4097 by omega) (by omega)
    exact insertsInside_of_room hrun hr

/-- Fifteen records in use of 272 bytes with long names, and at 4080 one with a length of 65535. -/
def spilling : Blk := fun i =>
  if i = 4088 ∨ i = 4089 then 255
  else if i = 4090 then 1
  else if i % 272 = 0 then 1
  else if i % 272 = 8 then 16
  else if i % 272 = 9 then 1
  else if i % 272 = 10 then 255
  else 0

/-- In a block of zeros both walks go on for ever, and `spilling` has room for `a` behind its end.
-/
theorem insert_walk_fails :
    (∀ ino, pmfsAddDirentToBuf (fun _ => 0) [0x61] ino none = none) ∧
    (∀ newBlock, kernelfsAddDirent ⟨7, 9, 0, [0x61]⟩ (fun _ => 0) none newBlock = none) ∧
    findRoom spilling (pmfsDirRecLen 1) 4097 0 = some (some 4080) ∧ place spilling 4080 = 4096 := by
  have hend : findRoom (fun _ => 0) (pmfsDirRecLen [(0x61 : UInt8)].length) 4097 0 = none :=
    findRoom_zero (by decide) (by decide) (by decide) 4097
  refine ⟨fun ino => ?_, fun newBlock => ?_, by decide +kernel, by decide +kernel⟩
  · unfold pmfsAddDirentToBuf
    rw [hend]
    rfl
  · unfold kernelfsAddDirent
    rw [hend]
    rfl

/-! ### Listing -/

/-- Where the loops of `pmfs_readdir` stand: the block that is read, if one is, `ctx->pos` and
`offset`. -/
structure Place where
  blk : Option Blk
  pos : ℕ
  offset : ℕ

/-- The place that the bytes of the directory lead to, when `dir_emit` takes every entry. -/
inductive Next (d : Dir) : Place → Place → Prop
  | hole {p o : ℕ} : p < d.iSize → d.blk (p >>> 12) = none →
      Next d ⟨none, p, o⟩ ⟨none, p + (4096 - o), o⟩
  | block {p o : ℕ} {b : Blk} : p < d.iSize → d.blk (p >>> 12) = some b →
      Next d ⟨none, p, o⟩ ⟨some b, p, o⟩
  | record {p o : ℕ} {b : Blk} : p < d.iSize ∧ o < 4096 → pmfsCheckDirEntry b o = none →
      Next d ⟨some b, p, o⟩ ⟨some b, p + deLen b o, o + deLen b o⟩
  | skip {p o : ℕ} {b : Blk} : p < d.iSize ∧ o < 4096 → (pmfsCheckDirEntry b o).isSome →
      Next d ⟨some b, p, o⟩ ⟨none, (p + 4095) / 4096 * 4096, 0⟩
  | leave {p o : ℕ} {b : Blk} : ¬ (p < d.iSize ∧ o < 4096) → Next d ⟨some b, p, o⟩ ⟨none, p, 0⟩

/-- The places that a listing from `ctx->pos` on comes to. -/
def Comes (d : Dir) (pos : ℕ) : Place → Prop :=
  Relation.ReflTransGen (Next d) ⟨none, pos, pos % 4096⟩

/-- What the directory has to be: a block that is begun at `ctx->pos` has a good first record, and
the good records in use have inodes. -/
structure ListOk (mode : ℕ → Option ℕ) (d : Dir) (pos : ℕ) : Prop where
  first : ∀ p b, Comes d pos ⟨none, p, 0⟩ → p < d.iSize → p % 4096 = 0 → d.blk (p >>> 12) = some b →
    pmfsCheckDirEntry b 0 = none
  inode : ∀ b p o, Comes d pos ⟨some b, p, o⟩ → p < d.iSize ∧ o < 4096 →
    pmfsCheckDirEntry b o = none → deIno b o ≠ 0 → (mode (deIno b o)).isSome

variable {mode : ℕ → Option ℕ} {x y : Place} {p pos offset room : ℕ} {es : List (Entry × ℕ)}

theorem check_len (h : pmfsCheckDirEntry b o = none) : 16 ≤ deLen b o ∧ o + deLen b o ≤ 4096 := by
  have hone : pmfsDirRecLen 1 = 16 := rfl
  unfold pmfsCheckDirEntry at h
  dsimp only at h
  split_ifs at h
  omega

theorem Next.pos_le (h : Next d x y) : x.pos ≤ y.pos := by
  cases h with
  | hole | record => exact Nat.le_add_right _ _
  | block | leave => exact le_rfl
  | skip => dsimp only; omega

/-- The listing from a place on. -/
def listFrom (mode : ℕ → Option ℕ) (d : Dir) (fuel fuel' room : ℕ) (es : List (Entry × ℕ)) :
    Place → Option (ℕ × List (Entry × ℕ))
  | ⟨none, p, o⟩ => readBlocks mode d fuel p o room es
  | ⟨some b, p, o⟩ =>
    match readBlock mode d b fuel' p o room es with
    | some (.refused pos es) => some (pos, es)
    | some (.done pos room es) => readBlocks mode d fuel pos 0 room es
    | none => none

/-- The listing from the place on ends, for every number of entries that `dir_emit` takes. -/
def Ends (mode : ℕ → Option ℕ) (d : Dir) (x : Place) : Prop :=
  ∀ room, ∃ fuel fuel' es, listFrom mode d fuel fuel' room es x ≠ none

/-- A listing that ends from a record on finds its inode, and ends from the next record on. -/
theorem Ends.record (h : Ends mode d ⟨some b, p, o⟩) (hin : p < d.iSize ∧ o < 4096)
    (hok : pmfsCheckDirEntry b o = none) : (deIno b o ≠ 0 → (mode (deIno b o)).isSome) ∧
      Ends mode d ⟨some b, p + deLen b o, o + deLen b o⟩ := by
  have hcases : ∀ room, ∃ fuel fuel' es, listFrom mode d fuel (fuel' + 1) room es ⟨some b, p, o⟩ ≠
    none := by
    intro room
    obtain ⟨fuel, fuel', es, hrun⟩ := h room
    cases fuel' with
    | zero => exact absurd rfl hrun
    | succ fuel' => exact ⟨fuel, fuel', es, hrun⟩
  simp only [listFrom, readBlock, if_pos hin, hok, Option.isSome_none, Bool.false_eq_true,
    if_false] at hcases
  by_cases hfree : deIno b o = 0
  · simp only [if_pos hfree] at hcases
    refine ⟨fun hne => absurd hfree hne, fun room => ?_⟩
    obtain ⟨fuel, fuel', es, hrun⟩ := hcases room
    exact ⟨fuel, fuel', es, hrun⟩
  · simp only [if_neg hfree] at hcases
    cases hmode : mode (deIno b o) with
    | none => simp [hmode] at hcases
    | some m =>
      refine ⟨fun _ => rfl, fun room => ?_⟩
      -- `dir_emit` takes this entry besides
      obtain ⟨fuel, fuel', es, hrun⟩ := hcases (room + 1)
      simp only [hmode, Nat.add_one_ne_zero, if_false, Nat.add_sub_cancel] at hrun
      exact ⟨fuel, fuel', _, hrun⟩

theorem Ends.next (h : Ends mode d x) (hxy : Next d x y) : Ends mode d y := by
  cases hxy with
  | record hin hok => exact (h.record hin hok).2
  | hole hlt hb =>
    intro room
    obtain ⟨fuel, fuel', es, hrun⟩ := h room
    cases fuel with
    | zero => exact absurd rfl hrun
    | succ fuel =>
      rw [listFrom, readBlocks, if_pos hlt, hb] at hrun
      exact ⟨fuel, fuel', es, hrun⟩
  | block hlt hb =>
    intro room
    obtain ⟨fuel, fuel', es, hrun⟩ := h room
    cases fuel with
    | zero => exact absurd rfl hrun
    | succ fuel =>
      rw [listFrom, readBlocks, if_pos hlt, hb] at hrun
      exact ⟨fuel, 257, es, hrun⟩
  | skip hin hbad =>
    intro room
    obtain ⟨fuel, fuel', es, hrun⟩ := h room
    cases fuel' with
    | zero => exact absurd rfl hrun
    | succ fuel' =>
      rw [listFrom, readBlock, if_pos hin, if_pos hbad] at hrun
      exact ⟨fuel, fuel', es, hrun⟩
  | leave hout =>
    intro room
    obtain ⟨fuel, fuel', es, hrun⟩ := h room
    cases fuel' with
    | zero => exact absurd rfl hrun
    | succ fuel' =>
      rw [listFrom, readBlock, if_neg hout] at hrun
      exact ⟨fuel, fuel', es, hrun⟩

/-- A block that is begun at a bad record is begun again and again. -/
theorem readBlocks_stuck (hlt : p < d.iSize) (halign : p % 4096 = 0)
    (hb : d.blk (p >>> 12) = some b) (hbad : (pmfsCheckDirEntry b 0).isSome) : ∀ fuel :
    ℕ, readBlocks mode d fuel p 0 room es = none
  | 0 => rfl
  | fuel + 1 => by
    have hsame : (p + 4095) / 4096 * 4096 = p := by omega
    rw [readBlocks, if_pos hlt, hb]
    dsimp only
    rw [readBlock, if_pos ⟨hlt, by norm_num⟩, if_pos hbad]
    dsimp only
    rw [hsame]
    exact readBlocks_stuck hlt halign hb hbad fuel

theorem Ends.listOk (h : Ends mode d ⟨none, pos, pos % 4096⟩) : ListOk mode d pos := by
  have hends : ∀ x, Comes d pos x → Ends mode d x := by
    intro x hx
    induction hx with
    | refl => exact h
    | tail _ hnext ih => exact ih.next hnext
  refine ⟨fun p b hp hlt halign hb => ?_, fun b p o hp hin hok => ((hends _ hp).record hin hok).1⟩
  by_contra hbad
  obtain ⟨fuel, fuel', es, hrun⟩ := hends _ hp 0
  exact hrun (readBlocks_stuck hlt halign hb (Option.ne_none_iff_isSome.mp hbad) fuel)

/-- The loop over a block ends: `dir_emit` refuses an entry, or `ctx->pos` has been moved, over a
record at least or to the next boundary. -/
theorem ListOk.read_block (h : ListOk mode d pos) : ∀ (fuel : ℕ) {p o : ℕ} (room : ℕ)
    (es : List (Entry × ℕ)), Comes d pos ⟨some b, p, o⟩ → o ≤ 4096 → 4096 < o + 16 * fuel →
    (∃ p' es', readBlock mode d b fuel p o room es = some (.refused p' es') ∧ p ≤ p') ∨
    ∃ p' room' es', readBlock mode d b fuel p o room es = some (.done p' room' es') ∧
    Comes d pos ⟨none, p', 0⟩ ∧
      p ≤ p' ∧ (p < d.iSize ∧ o < 4096 → pmfsCheckDirEntry b o = none → p < p') ∧
      ((pmfsCheckDirEntry b o).isSome → p % 4096 ≠ 0 → p < d.iSize ∧ o < 4096 → p < p')
  | 0, _, _, _, _, _, hle, hfuel => absurd hfuel (by omega)
  | fuel + 1, p, o, room, es, hp, hle, hfuel => by
    rw [readBlock]
    by_cases hin : p < d.iSize ∧ o < 4096
    swap
    · rw [if_neg hin]
      exact Or.inr ⟨p, room, es, rfl, hp.tail (.leave hin), le_rfl, fun hcon => absurd hcon hin,
        fun _ _ hcon => absurd hcon hin⟩
    rw [if_pos hin]
    by_cases hbad : (pmfsCheckDirEntry b o).isSome = true
    · rw [if_pos hbad]
      refine Or.inr ⟨_, room, es, rfl, hp.tail (.skip hin hbad), by omega, fun _ hok => ?_,
        fun _ hne _ => by omega⟩
      rw [hok] at hbad
      exact absurd hbad (by simp)
    have hok : pmfsCheckDirEntry b o = none := Option.not_isSome_iff_eq_none.mp hbad
    obtain ⟨hlen, hend⟩ := check_len hok
    rw [if_neg hbad]
    have hnext : ∀ (room1 : ℕ) (es1 : List (Entry × ℕ)), _ := fun room1 es1 =>
      h.read_block fuel room1 es1 (hp.tail (.record hin hok)) hend (by omega)
    have hdone : ∀ (room1 : ℕ) (es1 : List (Entry × ℕ)),
        (∃ p' es', readBlock mode d b fuel (p + deLen b o) (o + deLen b o) room1 es1 =
          some (.refused p' es') ∧ p ≤ p') ∨
        ∃ p' room' es', readBlock mode d b fuel (p + deLen b o) (o + deLen b o) room1 es1 =
            some (.done p' room' es') ∧ Comes d pos ⟨none, p', 0⟩ ∧ p ≤ p' ∧
          (p < d.iSize ∧ o < 4096 → pmfsCheckDirEntry b o = none → p < p') ∧
          ((pmfsCheckDirEntry b o).isSome → p % 4096 ≠ 0 → p < d.iSize ∧ o < 4096 → p < p') := by
      intro room1 es1
      rcases hnext room1 es1 with ⟨p', es', hrun, hle'⟩ | ⟨p', room', es', hrun, hcomes, hle', -⟩
      · exact Or.inl ⟨p', es', hrun, by omega⟩
      · exact Or.inr ⟨p', room', es', hrun, hcomes, by omega, fun _ _ => by omega,
          fun _ _ _ => by omega⟩
    by_cases hfree : deIno b o = 0
    · rw [if_pos hfree]
      exact hdone room es
    rw [if_neg hfree]
    obtain ⟨m, hmode⟩ := Option.isSome_iff_exists.mp (h.inode b p o hp hin hok hfree)
    rw [hmode]
    dsimp only
    by_cases hroom : room = 0
    · rw [if_pos hroom]
      exact Or.inl ⟨p, es, rfl, le_rfl⟩
    · rw [if_neg hroom]
      exact hdone _ _

/-- How far the listing has to go; a stale offset takes one round more. -/
def rest (d : Dir) (p o : ℕ) : ℕ := d.iSize - p + if o = 0 then 0 else 1

theorem ListOk.read_blocks (h : ListOk mode d pos) : ∀ (fuel : ℕ) {p o : ℕ} (room : ℕ)
    (es : List (Entry × ℕ)), Comes d pos ⟨none, p, o⟩ → o < 4096 → rest d p o < fuel →
    ∃ r, readBlocks mode d fuel p o room es = some r ∧ p ≤ r.1
  | 0, _, _, _, _, _, _, hfuel => absurd hfuel (by omega)
  | fuel + 1, p, o, room, es, hp, ho, hfuel => by
    rw [readBlocks]
    by_cases hlt : p < d.iSize
    swap
    · rw [if_neg hlt]
      exact ⟨_, rfl, le_rfl⟩
    rw [if_pos hlt]
    unfold rest at hfuel
    cases hb : d.blk (p >>> 12) with
    | none =>
      obtain ⟨r, hrun, hr⟩ := h.read_blocks fuel room es (hp.tail (.hole hlt hb)) ho (by
        unfold rest
        omega)
      exact ⟨r, hrun, by omega⟩
    | some b =>
      dsimp only
      rcases h.read_block 257 room es (hp.tail (.block hlt hb)) ho.le (by omega) with
        ⟨p', es', hrun, hle⟩ | ⟨p', room', es', hrun, hcomes, hle, hgood, hskip⟩
      · rw [hrun]
        exact ⟨_, rfl, hle⟩
      · -- a bad record at the boundary is not the first one, so that the offset was stale
        have hmoves : p < p' ∨ o ≠ 0 := by
          by_contra hcon
          obtain ⟨hstay, rfl⟩ : ¬ p < p' ∧ o = 0 := by simpa [not_or] using hcon
          have hbad : ¬ pmfsCheckDirEntry b 0 = none := fun hok => hstay (hgood ⟨hlt, ho⟩ hok)
          refine hbad (h.first p b hp hlt ?_ hb)
          by_contra halign
          exact hstay (hskip (Option.ne_none_iff_isSome.mp hbad) halign ⟨hlt, ho⟩)
        obtain ⟨r, hrest, hr⟩ := h.read_blocks fuel room' es' hcomes (by norm_num) (by
          unfold rest
          rw [if_pos rfl]
          split_ifs at hfuel <;> omega)
        rw [hrun]
        exact ⟨r, hrest, hle.trans hr⟩

/-- **Main result.** Whatever a directory holds, `ctx->pos` never goes back, and `pmfs_readdir`
ends, for every number of entries that `dir_emit` takes, if and only if it begins no block at a bad
record when `ctx->pos` is at a boundary, and every good record in use that it comes to has an inode.
-/
theorem readdir_ends_iff (mode : ℕ → Option ℕ) (d : Dir) (pos : ℕ) :
    (∀ x y, Next d x y → x.pos ≤ y.pos) ∧
    ((∀ room, ∃ r, pmfsReaddir mode d pos room = some r ∧ pos ≤ r.1) ↔ ListOk mode d pos) := by
  refine ⟨fun x y => Next.pos_le, fun h => ?_, fun h room => ?_⟩
  · refine Ends.listOk fun room => ?_
    obtain ⟨r, hrun, -⟩ := h room
    exact ⟨d.iSize + 2, 0, [], by rw [listFrom, ← pmfsReaddir, hrun]; simp⟩
  · refine h.read_blocks _ room [] .refl (Nat.mod_lt pos (by norm_num)) ?_
    unfold rest
    split_ifs <;> omega

/-- A directory of one block of zeros, whose first record is bad, is listed for ever. -/
theorem readdir_endless : pmfsReaddir some ⟨4096, fun _ => some fun _ => 0, 0⟩ 0 1 = none :=
  readBlocks_stuck (by decide) (by decide) rfl (by decide) _

end Pmfs.Dirs.Walks
