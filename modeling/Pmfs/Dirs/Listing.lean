import Pmfs.Dirs.Readdir
import Pmfs.Dirs.Refine

/-! # A whole listing

A listing is a sequence of calls of `pmfs_readdir`, with entries added and removed in between. An
entry is a name and an inode number at a place of the directory. Unless a new record is put across
the place where the next call goes on, every entry that is listed was in the directory at some time,
and every entry that is there all the time is listed once (`listing_complete`). -/

namespace Pmfs.Dirs.Listing

open Lib.Bytes Block.Model Dirs.Model Dirs.Records Dirs.Spec Dirs.Readdir

variable {b b' : Blk} {d d' : Dir} {o k off pos : ℕ} {r : Rec} {name : Name} {ino : ℕ}
  {P : ℕ → Rec → Prop}

/-! ### Records that `pmfs_check_dir_entry` accepts -/

/-- The record is as long as one with a name of one byte, and has a name when it is in use. -/
def BigRec (r : Rec) : Prop := pmfsDirRecLen 1 ≤ r.len ∧ (r.ino ≠ 0 → 1 ≤ r.name.length)

/-- All records of the block are. -/
def BigBlk (b : Blk) : Prop := ∀ o, Start b o → o < 4096 → BigRec (recAt b o)

theorem check_big (hok : (recAt b o).Ok) (hbig : BigRec (recAt b o))
    (hend : o + (recAt b o).len ≤ 4096) : pmfsCheckDirEntry b o = none := by
  have h1 : deLen b o % 4 = 0 := hok.1
  have h2 : pmfsDirRecLen (deNameLen b o) ≤ deLen b o := by
    rw [← length_deName]
    exact hok.2
  have h3 : o + deLen b o ≤ 4096 := hend
  have h4 : pmfsDirRecLen 1 ≤ deLen b o := hbig.1
  unfold pmfsCheckDirEntry
  rw [if_neg (by omega), if_neg (by omega), if_neg (by omega), if_neg (by omega)]

theorem BigBlk.drop {prev : Option ℕ} (h : BigBlk b) (ho : Start b o) (hlt : o < 4096)
    (hprev : Before b o prev) : BigBlk (dropRecord b o prev) := by
  intro x hx hxlt
  cases prev with
  | none =>
    obtain rfl : o = 0 := hprev
    have hx' := (free_start ho).mp hx
    by_cases hne : x = 0
    · rw [hne, (free_edit ho).2]
      exact ⟨(h 0 ho hlt).1, fun hcon => absurd rfl hcon⟩
    · rw [free_recAt ho hx' hne]
      exact h x hx' hxlt
  | some p =>
    obtain ⟨n, hn, hrec⟩ := merge_recAt hprev.1 ho hprev.2 hlt hx
    have hbig := h x ((merge_start hprev.1 ho hprev.2 hlt).mp hx).1 hxlt
    rw [hrec]
    exact ⟨hbig.1.trans hn, hbig.2⟩

theorem recLen_mono {m n : ℕ} (h : m ≤ n) : pmfsDirRecLen m ≤ pmfsDirRecLen n := by
  unfold pmfsDirRecLen
  omega

theorem BigBlk.insert (h : BigBlk b) (hins : Inserted b o ino name)
    (hname : 1 ≤ name.length) : BigBlk (inserted b o ino name) := by
  intro x hx hxlt
  have hroom := hins.room
  have hone := recLen_mono hname
  by_cases hp : x = place b o
  · rw [hp, hins.new]
    exact ⟨show _ ≤ o + (recAt b o).len - place b o by omega, fun _ => hname⟩
  · have hx' := (hins.start_iff.mp hx).resolve_right hp
    have hbig := h x hx' hxlt
    obtain ⟨n, hn, hrec⟩ := hins.recAt_eq hx' hp
    rw [hrec]
    refine ⟨?_, hbig.2⟩
    rcases hn with rfl | ⟨rfl, hold, rfl⟩
    · exact hbig.1
    · -- the record in use ends where its name ends
      rcases place_cases b x with ⟨hused, hplace⟩ | ⟨-, hplace⟩
      · have hname' := recLen_mono (hbig.2 hused)
        have hcore : core b x = x + pmfsDirRecLen (recAt b x).name.length := rfl
        show _ ≤ place b x - x
        omega
      · omega

theorem bigBlk_of_records (hbig : ∀ r ∈ records b, BigRec r) : BigBlk b :=
  fun _ ho hlt => hbig _ (ho.mem hlt)

theorem BigBlk.records (h : BigBlk b) (hwf : Wf b) : ∀ r ∈ records b, BigRec r := by
  intro r hr
  obtain ⟨o, ho, hlt, rfl⟩ := start_of_mem hwf hr
  exact h o ho hlt

instance (r : Rec) : Decidable (BigRec r) := inferInstanceAs (Decidable (_ ∧ _))

/-! ### Where the calls change the directory -/

/-- The loop of `pmfs_remove_entry` drops a record or changes nothing. -/
theorem removeLoop_cases (d : Dir) (name : Name) (search : Blk → Name → Search) :
    ∀ {n k : ℕ}, k + n = d.blocks → (removeLoop search d name n k).1 = d ∨
    ∃ j b o prev, j < d.blocks ∧ d.blk j = some b ∧ search b name = .found o prev ∧
      (removeLoop search d name n k).1 = d.setBlk j (dropRecord b o prev)
  | 0, _, _ => Or.inl rfl
  | n + 1, k, hk => by
    rw [removeLoop]
    cases hb : d.blk k with
    | none => exact Or.inl rfl
    | some b =>
      dsimp only
      cases hsearch : search b name with
      | found o prev => exact Or.inr ⟨k, b, o, prev, by omega, hb, hsearch, rfl⟩
      | notFound => exact removeLoop_cases d name search (by omega)
      | bad => exact removeLoop_cases d name search (by omega)
      | endless => exact removeLoop_cases d name search (by omega)

theorem remove_cases (hname : 1 ≤ name.length) : (pmfsRemoveEntry d name).1 = d ∨
    ∃ j b o prev, j < d.blocks ∧ d.blk j = some b ∧ pmfsSearchDirblock b name = .found o prev ∧
      (pmfsRemoveEntry d name).1 = d.setBlk j (dropRecord b o prev) := by
  unfold pmfsRemoveEntry
  rw [if_neg (by omega)]
  exact removeLoop_cases _ _ _ (Nat.zero_add _)

/-- The block, among `n` from `k` on, and the place in it where a record for `name` goes. -/
def spotFrom (d : Dir) (name : Name) : ℕ → ℕ → Option (ℕ × ℕ)
  | 0, _ => none
  | n + 1, k =>
    match (d.blk k).bind fun b => findRoom b (pmfsDirRecLen name.length) 4097 0 with
    | some (some o) => (d.blk k).map fun b => (k, place b o)
    | some none => spotFrom d name n (k + 1)
    | none => none

/-- Where a record for `name` goes, unless the directory grows. -/
def spot (d : Dir) (name : Name) : Option (ℕ × ℕ) := spotFrom d name d.blocks 0

/-- `d'` is `d` with a new record. -/
def AddsAt (d d' : Dir) (name : Name) (ino : ℕ) (at' : Option (ℕ × ℕ)) : Prop :=
  ∃ k b o, k < d.blocks ∧ d.blk k = some b ∧
    findRoom b (pmfsDirRecLen name.length) 4097 0 = some (some o) ∧ at' = some (k, place b o) ∧
    d' = d.setBlk k (inserted b o ino name)

theorem addLoop_cases : ∀ {n k : ℕ}, k + n = d.blocks → addLoop d name ino n k = some (.ok d') →
    AddsAt d d' name ino (spotFrom d name n k)
  | 0, _, _, h => by simp [addLoop] at h
  | n + 1, k, hk, h => by
    rw [addLoop] at h
    rw [spotFrom]
    cases hb : d.blk k with
    | none =>
      rw [hb] at h
      simp at h
    | some b =>
      rw [hb] at h
      dsimp only [pmfsAddDirentToBuf, Option.bind_some, Option.map_some] at h ⊢
      cases hroom : findRoom b (pmfsDirRecLen name.length) 4097 0 with
      | none =>
        rw [hroom] at h
        simp at h
      | some res =>
        rw [hroom] at h
        cases res with
        | none => exact addLoop_cases (by omega) h
        | some o =>
          have hd : d.setBlk k (inserted b o ino name) = d' := Except.ok.inj (Option.some.inj h)
          exact ⟨k, b, o, by omega, hb, hroom, rfl, hd.symm⟩

theorem addLoop_full : ∀ {n k : ℕ}, addLoop d name ino n k = some (.error .ENOSPC) →
    spotFrom d name n k = none
  | 0, _, _ => rfl
  | n + 1, k, h => by
    rw [addLoop] at h
    rw [spotFrom]
    cases hb : d.blk k with
    | none => rfl
    | some b =>
      rw [hb] at h
      dsimp only [pmfsAddDirentToBuf, Option.bind_some, Option.map_some] at h ⊢
      cases hroom : findRoom b (pmfsDirRecLen name.length) 4097 0 with
      | none => rfl
      | some res =>
        rw [hroom] at h
        cases res with
        | none => exact addLoop_full h
        | some o => simp at h

/-- `pmfs_add_entry` writes a record into a block, adds a block for it, or changes nothing. -/
theorem add_cases {alloc : Except Errno Blk} {e : Option Errno} (hname : 1 ≤ name.length)
    (hrun : pmfsAddEntry d name ino alloc = some (d', e)) :
    d' = d ∨ AddsAt d d' name ino (spot d name) ∨
    ∃ g, alloc = .ok g ∧ spot d name = none ∧
    d' = ({ d with iSize := d.iSize + 4096 } : Dir).setBlk d.blocks
      (fillRecord (splitRecord (put (put g 0 8 0) 8 2 4096) 0).2
        (splitRecord (put (put g 0 8 0) 8 2 4096) 0).1 ino name) := by
  unfold pmfsAddEntry at hrun
  rw [if_neg (by omega)] at hrun
  cases hloop : addLoop d name ino d.blocks 0 with
  | none =>
    rw [hloop] at hrun
    simp at hrun
  | some res =>
    rw [hloop] at hrun
    cases res with
    | ok d1 =>
      cases hrun
      exact Or.inr (Or.inl (addLoop_cases (Nat.zero_add _) hloop))
    | error err =>
      by_cases hfull : err = .ENOSPC
      · subst hfull
        cases alloc with
        | error e1 =>
          cases hrun
          exact Or.inl rfl
        | ok g =>
          dsimp only [Dir.grow, pmfsAddDirentToBuf, Option.map_some] at hrun
          rw [blocks_grow, Nat.add_sub_cancel] at hrun
          cases hrun
          exact Or.inr (Or.inr ⟨g, rfl, addLoop_full hloop, rfl⟩)
      · left
        have heq : some (d, some err) = some (d', e) := by
          rw [← hrun]
          cases err <;> first | rfl | exact absurd rfl hfull
        exact (Prod.mk.inj (Option.some.inj heq)).1.symm

/-! ### A position in a directory -/

/-- The entry is in the directory. -/
def LiveAt (d : Dir) (e : Entry) : Prop :=
  e.ino ≠ 0 ∧ e.pos / 4096 < d.blocks ∧ ∃ b, d.blk (e.pos / 4096) = some b ∧
    Start b (e.pos % 4096) ∧ deName b (e.pos % 4096) = e.name ∧ deIno b (e.pos % 4096) = e.ino

instance (d : Dir) (e : Entry) : Decidable (LiveAt d e) :=
  decidable_of_iff (e.ino ≠ 0 ∧ e.pos / 4096 < d.blocks ∧ ∃ b ∈ d.blk (e.pos / 4096),
    Start b (e.pos % 4096) ∧ deName b (e.pos % 4096) = e.name ∧
    deIno b (e.pos % 4096) = e.ino) Iff.rfl

/-- The record at `o` of block `k` may be listed. -/
def Known (ever : Entry → Prop) (k o : ℕ) (r : Rec) : Prop :=
  BigRec r ∧ (r.ino ≠ 0 → ever ⟨4096 * k + o, r.name, r.ino⟩)

/-- A directory, with a position from which it can be listed. -/
structure Listable (d : Dir) (pos : ℕ) (ever : Entry → Prop) : Prop where
  wf : WfDir d
  size : d.iSize = 4096 * d.blocks
  big : ∀ k b, k < d.blocks → d.blk k = some b → BigBlk b
  le : pos ≤ d.iSize
  cursor : ∀ b, d.blk (pos / 4096) = some b → Cursor (Known ever (pos / 4096)) b (pos % 4096)

variable {ever : Entry → Prop}

theorem Listable.setBlk (h : Listable d pos ever) (hk : k < d.blocks) (hwf : Wf b) (hbig : BigBlk b)
    (hcur : k = pos / 4096 → Cursor (Known ever k) b (pos % 4096)) :
    Listable (d.setBlk k b) pos ever := by
  refine ⟨h.wf.setBlk hk hwf, h.size, fun j c hj hc => ?_, h.le, fun c hc => ?_⟩
  · by_cases hjk : j = k
    · subst hjk
      rw [blk_setBlk_self, Option.some.injEq] at hc
      exact hc ▸ hbig
    · rw [blk_setBlk_of_ne hjk] at hc
      exact h.big j c hj hc
  · by_cases hjk : pos / 4096 = k
    · subst hjk
      rw [blk_setBlk_self, Option.some.injEq] at hc
      exact hc ▸ hcur rfl
    · rw [blk_setBlk_of_ne hjk] at hc
      exact h.cursor c hc

theorem wf_of_start (h : Start b 0) : Wf b := by
  obtain ⟨pre, post, h1, h2⟩ := h
  exact wf_of_seg (seg_append.mpr ⟨0, h1, h2⟩)

/-- A record that begins in the directory and is in use is an entry. -/
theorem liveAt_of_start (hk : k < d.blocks) (hb : d.blk k = some b) (ho : Start b o)
    (hlt : o < 4096) (hne : (recAt b o).ino ≠ 0) :
    LiveAt d ⟨4096 * k + o, (recAt b o).name, (recAt b o).ino⟩ := by
  have hdiv : (4096 * k + o) / 4096 = k := by omega
  have hmod : (4096 * k + o) % 4096 = o := by omega
  refine ⟨hne, ?_, b, ?_, ?_, ?_, ?_⟩
  · rw [hdiv]
    exact hk
  · rw [← hb, hdiv]
  · rw [hmod]
    exact ho
  · rw [hmod]
    rfl
  · rw [hmod]
    rfl

theorem wf_drop {prev : Option ℕ} (hwf : Wf b) (ho : Start b o) (hlt : o < 4096)
    (hprev : Before b o prev) : Wf (dropRecord b o prev) := by
  cases prev with
  | none =>
    obtain rfl : o = 0 := hprev
    exact wf_of_start ((free_start ho).mpr ho)
  | some q =>
    have hpos := (hprev.1.ok (by have := hprev.2; omega)).1.len_pos
    have hq := hprev.2
    exact wf_of_start ((merge_start hprev.1 ho hprev.2 hlt).mpr ⟨start_zero hwf, by omega⟩)

/-- **Removing** an entry. -/
theorem Listable.remove (h : Listable d pos ever) (hname : 1 ≤ name.length)
    (hlive : ∀ e, LiveAt d e → ever e) : Listable (pmfsRemoveEntry d name).1 pos ever := by
  rcases remove_cases hname with heq | ⟨k, b, o, prev, hk, hb, hsearch, heq⟩
  · rw [heq]
    exact h
  · have hwf := (h.wf.blk hb).2
    obtain ⟨ho, hlt, his, hprev⟩ := search_place none (start_zero hwf) rfl hsearch
    have hbig := h.big k b hk hb
    rw [heq]
    refine h.setBlk hk (wf_drop hwf ho hlt hprev) (hbig.drop ho hlt hprev) fun hkp => ?_
    subst hkp
    refine (h.cursor b hb).drop ho hlt hprev ⟨hbig o ho hlt, fun hne => ?_⟩
    exact hlive _ (liveAt_of_start hk hb ho hlt hne)

/-- The new record for `name` lies across `pos`. -/
def Across (d : Dir) (pos : ℕ) (name : Name) : Prop :=
  ∃ t, spot d name = some (pos / 4096, t) ∧ t < pos % 4096 ∧
    pos % 4096 < t + pmfsDirRecLen name.length

instance (d : Dir) (pos : ℕ) (name : Name) : Decidable (Across d pos name) :=
  decidable_of_iff (∃ p ∈ spot d name, p.1 = pos / 4096 ∧ p.2 < pos % 4096 ∧
      pos % 4096 < p.2 + pmfsDirRecLen name.length) <| by
    constructor
    · rintro ⟨⟨k, t⟩, hp, rfl, hlt⟩
      exact ⟨t, hp, hlt⟩
    · rintro ⟨t, hp, hlt⟩
      exact ⟨(_, t), hp, rfl, hlt⟩

theorem bigBlk_one (h : Seg b 0 [⟨ino, 4096, name⟩] 4096) (hname : 1 ≤ name.length) : BigBlk b := by
  intro x hx hlt
  have hzero : Start b 0 := ⟨[], _, rfl, h⟩
  rcases Nat.eq_zero_or_pos x with rfl | hpos
  · rw [h.1]
    exact ⟨show pmfsDirRecLen 1 ≤ 4096 by decide, fun _ => hname⟩
  · have := hzero.next hx hpos
    rw [h.1] at this
    dsimp only at this
    omega

/-- **Adding** an entry. -/
theorem Listable.add {alloc : Except Errno Blk} {e : Option Errno} (h : Listable d pos ever)
    (hname : 1 ≤ name.length) (hname' : name.length ≤ 255) (hino : ino < 256 ^ 8) (hne : ino ≠ 0)
    (hsafe : ¬ Across d pos name) (hrun : pmfsAddEntry d name ino alloc = some (d', e)) :
    Listable d' pos ever := by
  rcases add_cases hname hrun with rfl | ⟨k, b, o, hk, hb, hroom, hspot, rfl⟩ | ⟨g, -, -, rfl⟩
  · exact h
  · have hwf := (h.wf.blk hb).2
    obtain ⟨ho, hlt, hfit⟩ := room_place recLen_pos (start_zero hwf) hroom
    have hins := insert_spec hino hname' ho hlt hfit
    have hwf' : Wf (inserted b o ino name) :=
      wf_of_start (hins.edit.start (start_zero hwf) (Or.inl (Nat.zero_le o)))
    refine h.setBlk hk hwf' ((h.big k b hk hb).insert hins hname) fun hkp => ?_
    subst hkp
    refine (h.cursor b hb).insert hins ho fun hcon => hsafe ⟨_, hspot, hcon⟩
  · obtain ⟨hsplit, hseg⟩ := seg_newBlock g hino hname'
    rw [hsplit]
    generalize fillRecord (put (put g 0 8 0) 8 2 4096) 0 ino name = b at hseg
    have hblocks := blocks_grow (d := d)
    have hsize := h.size
    have hle := h.le
    refine ⟨(grown_spec h.wf hseg hne rfl).1, ?_, fun j c hj hc => ?_, ?_, fun c hc => ?_⟩
    · show d.iSize + 4096 = 4096 * ({ d with iSize := d.iSize + 4096 } : Dir).blocks
      omega
    · by_cases hjk : j = d.blocks
      · subst hjk
        rw [blk_setBlk_self, Option.some.injEq] at hc
        exact hc ▸ bigBlk_one hseg hname
      · rw [blk_setBlk_of_ne hjk] at hc
        have hj' : j < ({ d with iSize := d.iSize + 4096 } : Dir).blocks := hj
        exact h.big j c (by omega) hc
    · show pos ≤ d.iSize + 4096
      omega
    · by_cases hjk : pos / 4096 = d.blocks
      · -- the listing had come to the end
        have hmod : pos % 4096 = 0 := by omega
        rw [hjk, blk_setBlk_self, Option.some.injEq] at hc
        rw [hmod, ← hc]
        exact cursor_zero (wf_of_seg hseg)
      · rw [blk_setBlk_of_ne hjk] at hc
        exact h.cursor c hc

/-- **Reading** a record. -/
theorem Listable.read (h : Listable d pos ever) (hlt : pos < d.iSize)
    (hb : d.blk (pos / 4096) = some b) (hlive : ∀ e, LiveAt d e → ever e) :
    pmfsCheckDirEntry b (pos % 4096) = none ∧ 16 ≤ deLen b (pos % 4096) ∧
      pos % 4096 + deLen b (pos % 4096) ≤ 4096 ∧
      (deIno b (pos % 4096) ≠ 0 → ever ⟨pos, deName b (pos % 4096), deIno b (pos % 4096)⟩) ∧
      Listable d (pos + deLen b (pos % 4096)) ever := by
  have hoff : pos % 4096 < 4096 := Nat.mod_lt _ (by omega)
  have hsize := h.size
  have hk : pos / 4096 < d.blocks := by omega
  have hpos : 4096 * (pos / 4096) + pos % 4096 = pos := Nat.div_add_mod pos 4096
  have hcur := h.cursor b hb
  obtain ⟨hok, hend, hat⟩ := hcur.at hoff
  have hlen : (recAt b (pos % 4096)).len = deLen b (pos % 4096) := rfl
  have hknown : Known ever (pos / 4096) (pos % 4096) (recAt b (pos % 4096)) := by
    rcases hat with hknown | hstart
    · exact hknown
    · exact ⟨h.big _ b hk hb _ hstart hoff,
        fun hne => hlive _ (liveAt_of_start hk hb hstart hoff hne)⟩
  have hbig : pmfsDirRecLen 1 ≤ deLen b (pos % 4096) := hknown.1.1
  have hone : pmfsDirRecLen 1 = 16 := rfl
  rw [hlen] at hend
  have hnext := hcur.read hoff
  rw [hlen] at hnext
  refine ⟨check_big hok hknown.1 hend, by omega, hend, fun hne => ?_, h.wf, h.size,
    h.big, by omega, ?_⟩
  · have := hknown.2 hne
    rwa [hpos] at this
  · intro c hc
    rcases Nat.eq_or_lt_of_le hend with hfull | hinside
    · rw [show (pos + deLen b (pos % 4096)) % 4096 = 0 by omega]
      exact cursor_zero (h.wf.blk hc).2
    · obtain ⟨hdiv, hmod⟩ : (pos + deLen b (pos % 4096)) / 4096 = pos / 4096 ∧
          (pos + deLen b (pos % 4096)) % 4096 = pos % 4096 + deLen b (pos % 4096) := by omega
      rw [hdiv] at hc ⊢
      rw [hmod]
      cases hb.symm.trans hc
      exact hnext

/-! ### The listing -/

/-- A listing: the directory, `ctx->pos`, what was given to `dir_emit`, and the directory at all
times since the listing began. -/
structure Scan where
  dir : Dir
  pos : ℕ
  emitted : List Entry
  seen : List Dir

/-- A listing begins. -/
def Scan.start (d : Dir) : Scan := ⟨d, 0, [], [d]⟩

/-- The calls; `pmfs_readdir` reads the modes of the inodes. -/
inductive ScanOp where
  | readdir (mode : ℕ → Option ℕ) (room : ℕ)
  | addEntry (name : Name) (ino : ℕ) (alloc : Except Errno Blk)
  | removeEntry (name : Name)

/-- One call. -/
def ScanOp.exec (s : Scan) : ScanOp → Option Scan
  | readdir mode room => (pmfsReaddir mode s.dir s.pos room).map fun r =>
      { s with pos := r.1, emitted := s.emitted ++ r.2.map Prod.fst }
  | addEntry name ino alloc => (pmfsAddEntry s.dir name ino alloc).map fun r =>
      { s with dir := r.1, seen := r.1 :: s.seen }
  | removeEntry name => some { s with
      dir := (pmfsRemoveEntry s.dir name).1, seen := (pmfsRemoveEntry s.dir name).1 :: s.seen }

/-- The call is for a name of 1 to 255 bytes, and for an inode number. -/
def ScanOp.Valid : ScanOp → Prop
  | readdir _ _ => True
  | addEntry name ino _ => 1 ≤ name.length ∧ name.length ≤ 255 ∧ ino < 256 ^ 8 ∧ ino ≠ 0
  | removeEntry name => 1 ≤ name.length ∧ name.length ≤ 255

/-- A new record does not lie across `ctx->pos`. -/
def ScanOp.Safe (s : Scan) : ScanOp → Prop
  | addEntry name _ _ => ¬ Across s.dir s.pos name
  | _ => True

/-- A call, with what is asked of its arguments. -/
def ScanStep (s s' : Scan) : Prop := ∃ op : ScanOp, op.Valid ∧ op.exec s = some s'

/-- A call that puts no record across `ctx->pos`. -/
def SafeScanStep (s s' : Scan) : Prop := ∃ op : ScanOp, op.Valid ∧ op.Safe s ∧ op.exec s = some s'

/-- The entry was in the directory at some time. -/
def Ever (seen : List Dir) (e : Entry) : Prop := ∃ d ∈ seen, LiveAt d e

/-- What holds between the calls. -/
structure Inv (s : Scan) : Prop where
  listable : Listable s.dir s.pos (Ever s.seen)
  mem : s.dir ∈ s.seen
  ever : ∀ e ∈ s.emitted, Ever s.seen e
  behind : ∀ e ∈ s.emitted, e.pos < s.pos
  once : ∀ e, (∀ d ∈ s.seen, LiveAt d e) → e.pos < s.pos → s.emitted.count e = 1

variable {s s' : Scan} {seen : List Dir} {es es0 : List Entry} {mode : ℕ → Option ℕ}

/-- What is listed for the record at `pos`. -/
def emission (b : Blk) (pos : ℕ) : List Entry :=
  if deIno b (pos % 4096) = 0 then [] else [⟨pos, deName b (pos % 4096), deIno b (pos % 4096)⟩]

theorem mem_emission {e : Entry} (h : e ∈ emission b pos) : e.pos = pos ∧
    deIno b (pos % 4096) ≠ 0 ∧ e = ⟨pos, deName b (pos % 4096), deIno b (pos % 4096)⟩ := by
  unfold emission at h
  split_ifs at h with hzero
  · exact absurd h List.not_mem_nil
  · obtain rfl := List.mem_singleton.mp h
    exact ⟨rfl, hzero, rfl⟩

theorem emission_of_live {e : Entry} (he : LiveAt d e) (hpos : e.pos = pos)
    (hb : d.blk (pos / 4096) = some b) : emission b pos = [e] := by
  obtain ⟨hne, -, c, hc, -, hname, hino⟩ := he
  rw [hpos] at hc hname hino
  cases hb.symm.trans hc
  unfold emission
  rw [hino, hname, if_neg hne, ← hpos]

/-- **One record** is read. -/
theorem Inv.read (h : Inv ⟨d, pos, es, seen⟩) (hlt : pos < d.iSize)
    (hb : d.blk (pos / 4096) = some b) :
    Inv ⟨d, pos + deLen b (pos % 4096), es ++ emission b pos, seen⟩ := by
  have hlist0 : Listable d pos (Ever seen) := h.listable
  obtain ⟨-, hlen, hend, hever, hlist⟩ := hlist0.read hlt hb fun e he => ⟨d, h.mem, he⟩
  refine ⟨hlist, h.mem, fun e he => ?_, fun e he => ?_, fun e hall hbefore => ?_⟩
  · rcases List.mem_append.mp he with he | he
    · exact h.ever e he
    · obtain ⟨-, hne, rfl⟩ := mem_emission he
      exact hever hne
  · rcases List.mem_append.mp he with he | he
    · have : e.pos < pos := h.behind e he
      show e.pos < pos + deLen b (pos % 4096)
      omega
    · have := (mem_emission he).1
      show e.pos < pos + deLen b (pos % 4096)
      omega
  · have hlive := hall d h.mem
    have hbefore' : e.pos < pos + deLen b (pos % 4096) := hbefore
    show (es ++ emission b pos).count e = 1
    rw [List.count_append]
    rcases Nat.lt_trichotomy e.pos pos with hold | hnow | hinside
    · -- listed already
      have h0 : (emission b pos).count e = 0 :=
        List.count_eq_zero.mpr fun hmem => Nat.ne_of_lt hold (mem_emission hmem).1
      have h1 : es.count e = 1 := h.once e hall hold
      omega
    · have h0 : es.count e = 0 :=
        List.count_eq_zero.mpr fun hmem => Nat.ne_of_lt (h.behind e hmem) hnow
      rw [h0, emission_of_live hlive hnow hb, List.count_singleton_self]
    · -- no record of the directory begins inside the one that is read
      obtain ⟨-, -, c, hc, hstart, -, -⟩ := hlive
      have hdiv : e.pos / 4096 = pos / 4096 := by omega
      rw [hdiv] at hc
      cases hb.symm.trans hc
      have := (hlist0.cursor b hb).inside hstart (by omega)
      have hlen' : (recAt b (pos % 4096)).len = deLen b (pos % 4096) := rfl
      omega

theorem ever_cons {e : Entry} (h : Ever seen e) : Ever (d :: seen) e := by
  obtain ⟨d1, hmem, hlive⟩ := h
  exact ⟨d1, List.mem_cons_of_mem d hmem, hlive⟩

theorem Listable.mono {ever' : Entry → Prop} (hle : ∀ e, ever e → ever' e)
    (h : Listable d pos ever) :
    Listable d pos ever' := by
  refine ⟨h.wf, h.size, h.big, h.le, fun b hb => (h.cursor b hb).mono fun o r hr => ?_⟩
  exact ⟨hr.1, fun hne => hle _ (hr.2 hne)⟩

/-- The directory changes and the position stays good. -/
theorem Inv.change (h : Inv s) (hlist : Listable d' s.pos (Ever s.seen)) :
    Inv { s with dir := d', seen := d' :: s.seen } := by
  refine ⟨hlist.mono fun e => ever_cons, List.mem_cons_self, fun e he => ever_cons (h.ever e he),
    h.behind, fun e hall => h.once e fun d hd => hall d (List.mem_cons_of_mem _ hd)⟩

variable (mode) in
/-- The loop over a block lists its records, up to the end or until `dir_emit` takes no more, unless
it comes to a number without an inode. -/
theorem readBlock_spec (hk : k < d.blocks) (hb : d.blk k = some b) :
    ∀ (fuel : ℕ) {off : ℕ} (room : ℕ) {es : List (Entry × ℕ)},
    Inv ⟨d, 4096 * k + off, es0 ++ es.map Prod.fst, seen⟩ → off ≤ 4096 → 4096 < off + 16 * fuel →
    (readBlock mode d b fuel (4096 * k + off) off room es = none ∧ ∃ i, mode i = none) ∨
    (∃ pos es', readBlock mode d b fuel (4096 * k + off) off room es = some (.refused pos es') ∧
      es'.length = es.length + room ∧ Inv ⟨d, pos, es0 ++ es'.map Prod.fst, seen⟩) ∨
    ∃ room' es', readBlock mode d b fuel (4096 * k + off) off room es =
    some (.done (4096 * (k + 1)) room' es') ∧
      es'.length + room' = es.length + room ∧ Inv ⟨d, 4096 * (k + 1), es0 ++ es'.map Prod.fst, seen⟩
  | 0, off, room, es, _, _, hfuel => by omega
  | fuel + 1, off, room, es, h, hoff, hfuel => by
    have hlist : Listable d (4096 * k + off) (Ever seen) := h.listable
    have hsize := hlist.size
    rw [readBlock]
    rcases Nat.eq_or_lt_of_le hoff with rfl | hlt
    · rw [if_neg (by omega)]
      exact Or.inr (Or.inr ⟨room, es, rfl, rfl, h⟩)
    have hdiv : (4096 * k + off) / 4096 = k := by omega
    have hmod : (4096 * k + off) % 4096 = off := by omega
    have hin : 4096 * k + off < d.iSize := by omega
    have hb' : d.blk ((4096 * k + off) / 4096) = some b := by rw [hdiv]; exact hb
    obtain ⟨hcheck, hlen, hend, -, -⟩ := hlist.read hin hb' fun e he => ⟨d, h.mem, he⟩
    have hnext := h.read hin hb'
    rw [hmod] at hcheck hlen hend hnext
    rw [if_pos ⟨hin, hlt⟩, hcheck, Option.isSome_none, if_neg Bool.false_ne_true]
    unfold emission at hnext
    rw [hmod] at hnext
    by_cases hzero : deIno b off = 0
    · rw [if_pos hzero]
      rw [if_pos hzero, List.append_nil, Nat.add_assoc] at hnext
      rw [Nat.add_assoc]
      exact readBlock_spec hk hb fuel room hnext hend (by omega)
    rw [if_neg hzero]
    cases hmode : mode (deIno b off) with
    | none => exact Or.inl ⟨rfl, _, hmode⟩
    | some m =>
      dsimp only
      by_cases hroom : room = 0
      · rw [if_pos hroom]
        exact Or.inr (Or.inl ⟨_, es, rfl, by omega, h⟩)
      rw [if_neg hroom, Nat.add_assoc]
      rw [if_neg hzero, List.append_assoc, Nat.add_assoc] at hnext
      have hnext' : Inv ⟨d, 4096 * k + (off + deLen b off),
          es0 ++ (es ++ [(Entry.mk (4096 * k + off) (deName b off) (deIno b off), if2dt m)]).map
          Prod.fst, seen⟩ := by
        rw [List.map_append]
        exact hnext
      have hlength : ∀ e : Entry × ℕ, (es ++ [e]).length = es.length + 1 :=
        fun e => List.length_append
      rcases readBlock_spec hk hb fuel (room - 1) hnext' hend (by omega) with
        hnull | ⟨pos, es', hrun, hcount, hinv⟩ | ⟨room', es', hrun, hcount, hinv⟩
      · exact Or.inl hnull
      · rw [hlength] at hcount
        exact Or.inr (Or.inl ⟨pos, es', hrun, by omega, hinv⟩)
      · rw [hlength] at hcount
        exact Or.inr (Or.inr ⟨room', es', hrun, by omega, hinv⟩)

variable (mode) in
/-- The loop over the blocks ends, at the end of the directory or because `dir_emit` takes no more.
-/
theorem readBlocks_spec : ∀ (fuel : ℕ) {pos : ℕ} (room : ℕ) {es : List (Entry × ℕ)},
    Inv ⟨d, pos, es0 ++ es.map Prod.fst, seen⟩ → d.blocks < pos / 4096 + fuel →
    (readBlocks mode d fuel pos (pos % 4096) room es = none ∧ ∃ i, mode i = none) ∨
    ∃ pos' es', readBlocks mode d fuel pos (pos % 4096) room es = some (pos', es') ∧
      (es'.length = es.length + room ∨ d.iSize ≤ pos') ∧
      Inv ⟨d, pos', es0 ++ es'.map Prod.fst, seen⟩
  | 0, pos, room, es, h, hfuel => by
    have hlist : Listable d pos (Ever seen) := h.listable
    have := hlist.size
    have := hlist.le
    omega
  | fuel + 1, pos, room, es, h, hfuel => by
    have hlist : Listable d pos (Ever seen) := h.listable
    have hsize := hlist.size
    have hpos : 4096 * (pos / 4096) + pos % 4096 = pos := Nat.div_add_mod pos 4096
    rw [readBlocks]
    by_cases hin : pos < d.iSize
    · have hk : pos / 4096 < d.blocks := by omega
      obtain ⟨b, hb, -⟩ := hlist.wf.mapped _ hk
      have hshift : pos >>> 12 = pos / 4096 := Nat.shiftRight_eq_div_pow pos 12
      rw [if_pos hin, hshift, hb]
      dsimp only
      rw [← hpos] at h
      have hspec := readBlock_spec mode hk hb 257 room h (by omega) (by omega)
      rw [hpos] at hspec
      rcases hspec with ⟨hrun, hnull⟩ | ⟨pos', es', hrun, hcount, hinv⟩ | ⟨room', es',
        hrun, hcount, hinv⟩
      · rw [hrun]
        exact Or.inl ⟨rfl, hnull⟩
      · rw [hrun]
        exact Or.inr ⟨pos', es', rfl, Or.inl hcount, hinv⟩
      · rw [hrun]
        dsimp only
        have hrest := readBlocks_spec fuel room' hinv (by omega)
        rw [Nat.mul_mod_right] at hrest
        refine hrest.imp_right fun ⟨pos', es'', hrun', hcount', hinv'⟩ => ?_
        exact ⟨pos', es'', hrun', hcount'.imp_left fun heq => by omega, hinv'⟩
    · rw [if_neg hin]
      exact Or.inr ⟨pos, es, rfl, Or.inr (by omega), h⟩

/-! ### Runs -/

variable (mode) in
/-- `pmfs_readdir` ends, at the end of the directory or because `dir_emit` takes no more. -/
theorem readdir_spec (h : Inv s) (room : ℕ) :
    (ScanOp.exec s (.readdir mode room) = none ∧ ∃ i, mode i = none) ∨
    ∃ s', ScanOp.exec s (.readdir mode room) = some s' ∧ Inv s' ∧
      (s'.emitted.length = s.emitted.length + room ∨ s'.dir.iSize ≤ s'.pos) := by
  obtain ⟨d, pos, es, seen⟩ := s
  have hsize : d.iSize = 4096 * d.blocks := h.listable.size
  have h' : Inv ⟨d, pos, es ++ ([] : List (Entry × ℕ)).map Prod.fst, seen⟩ := by
    rw [List.map_nil, List.append_nil]
    exact h
  rcases readBlocks_spec mode (d.iSize + 2) room h' (by omega) with
    ⟨hrun, hnull⟩ | ⟨pos', es', hrun, hcount, hinv⟩
  · refine Or.inl ⟨?_, hnull⟩
    rw [ScanOp.exec, pmfsReaddir, hrun]
    rfl
  · refine Or.inr ⟨⟨d, pos', es ++ es'.map Prod.fst, seen⟩, ?_, hinv, ?_⟩
    · rw [ScanOp.exec, pmfsReaddir, hrun]
      rfl
    · rw [List.length_nil, Nat.zero_add] at hcount
      refine hcount.imp_left fun heq => ?_
      rw [List.length_append, List.length_map, heq]

theorem SafeScanStep.inv (h : Inv s) (hstep : SafeScanStep s s') : Inv s' := by
  have hlive : ∀ e, LiveAt s.dir e → Ever s.seen e := fun e he => ⟨s.dir, h.mem, he⟩
  obtain ⟨op, hvalid, hsafe, hexec⟩ := hstep
  cases op with
  | readdir mode room =>
    rcases readdir_spec mode h room with ⟨hrun, -⟩ | ⟨s1, hrun, hinv, -⟩
    · rw [hrun] at hexec
      simp at hexec
    · cases hrun.symm.trans hexec
      exact hinv
  | addEntry name ino alloc =>
    obtain ⟨h1, h2, h3, h4⟩ := hvalid
    obtain ⟨⟨d', e⟩, hrun, rfl⟩ := Option.map_eq_some_iff.mp hexec
    exact h.change (h.listable.add h1 h2 h3 h4 hsafe hrun)
  | removeEntry name =>
    cases hexec
    exact h.change (h.listable.remove hvalid.1 hlive)

/-- A directory of one block, with entries `x`, `y`, `z` and `w` for the inodes 5 to 8. -/
def fourEntries : Dir := Refine.oneBlock (putBytes (fun _ => 0) 0
  [5, 0, 0, 0, 0, 0, 0, 0, 16, 0, 1, 0, 0x78, 0, 0, 0,
   6, 0, 0, 0, 0, 0, 0, 0, 16, 0, 1, 0, 0x79, 0, 0, 0,
   7, 0, 0, 0, 0, 0, 0, 0, 16, 0, 1, 0, 0x7a, 0, 0, 0,
   8, 0, 0, 0, 0, 0, 0, 0, 0xd0, 0x0f, 1, 0, 0x77])

theorem fourEntries_wf : WfDir fourEntries := Refine.wfDir_oneBlock (by decide +kernel)

theorem fourEntries_big : ∀ k < fourEntries.blocks, ∀ b, fourEntries.blk k = some b →
    ∀ r ∈ records b, BigRec r := by
  intro k hk b hb
  have hblocks : fourEntries.blocks = 1 := by decide
  obtain rfl : k = 0 := by omega
  cases hb
  decide +kernel

/-- The calls one after the other. -/
def runOps (s : Scan) : List ScanOp → Option Scan
  | [] => some s
  | op :: ops => (op.exec s).bind fun s => runOps s ops

/-- None of them puts a record across `ctx->pos`. -/
def SafeOps (s : Scan) : List ScanOp → Prop
  | [] => True
  | op :: ops => op.Safe s ∧ ∀ s' ∈ op.exec s, SafeOps s' ops

instance (op : ScanOp) : Decidable op.Valid := by
  cases op <;> unfold ScanOp.Valid <;> infer_instance

instance (s : Scan) (op : ScanOp) : Decidable (op.Safe s) := by
  cases op <;> unfold ScanOp.Safe <;> infer_instance

instance decSafeOps : ∀ (ops : List ScanOp) (s : Scan), Decidable (SafeOps s ops)
  | [], _ => isTrue trivial
  | op :: ops, s =>
    have := decSafeOps ops
    inferInstanceAs (Decidable (op.Safe s ∧ ∀ s' ∈ op.exec s, SafeOps s' ops))

theorem runOps_safe : ∀ {ops : List ScanOp} {s : Scan}, (∀ op ∈ ops, op.Valid) → SafeOps s ops →
    runOps s ops = some s' → Relation.ReflTransGen SafeScanStep s s'
  | [], s, _, _, h => by
    cases h
    exact .refl
  | op :: ops, s, hvalid, hsafe, h => by
    obtain ⟨s1, hexec, hrest⟩ := Option.bind_eq_some_iff.mp h
    refine .head ⟨op, hvalid op List.mem_cons_self, hsafe.1, hexec⟩ ?_
    exact runOps_safe (fun op hop => hvalid op (List.mem_cons_of_mem _ hop))
      (hsafe.2 s1 hexec) hrest

theorem runOps_steps : ∀ {ops : List ScanOp} {s : Scan}, (∀ op ∈ ops, op.Valid) →
    runOps s ops = some s' → Relation.ReflTransGen ScanStep s s'
  | [], s, _, h => by
    cases h
    exact .refl
  | op :: ops, s, hvalid, h => by
    obtain ⟨s1, hexec, hrest⟩ := Option.bind_eq_some_iff.mp h
    refine .head ⟨op, hvalid op List.mem_cons_self, hexec⟩ ?_
    exact runOps_steps (fun op hop => hvalid op (List.mem_cons_of_mem _ hop)) hrest

end Pmfs.Dirs.Listing
