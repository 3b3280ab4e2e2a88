import Pmfs.Dirs.Dots

/-! # Empty directories

`pmfs_empty_dir` goes over the records behind `.` and `..`, and skips missing blocks. It ends, and
what it says is exact (`emptyLoop_spec`, `empty_spec`). Adding and removing other names keep what it
rests on, so it stays exact (`empty_exact`). It is not exact after `..` was removed
(`removed_dotdot_empty`). -/

namespace Pmfs.Dirs.Empty

open Lib.Bytes Block.Model Dirs.Model Dirs.Records Dirs.Spec Dirs.Readdir
open Dirs.Listing Dirs.Dots

variable {b b' : Blk} {d d' : Dir} {o k i p : ℕ} {name : Name} {ino : ℕ}

/-! ### The loop -/

/-- The records of block `k` from `o` on are free. -/
def FreeFrom (d : Dir) (k o : ℕ) : Prop :=
  ∀ b, d.blk k = some b → ∀ x, o ≤ x → x < 4096 → Start b x → deIno b x = 0

/-- The records of the blocks from `k` on are free. -/
def FreeBlocks (d : Dir) (k : ℕ) : Prop := ∀ j, k ≤ j → j < d.blocks → FreeFrom d j 0

theorem freeFrom_iff (hb : d.blk k = some b) (ho : Start b o) (hlt : o < 4096) :
    FreeFrom d k o ↔ deIno b o = 0 ∧ FreeFrom d k (o + deLen b o) := by
  constructor
  · intro h
    exact ⟨h b hb o le_rfl hlt ho, fun c hc x hle => h c hc x (by omega)⟩
  · rintro ⟨hzero, h⟩ c hc x hle hlt' hx
    cases hb.symm.trans hc
    rcases Nat.eq_or_lt_of_le hle with rfl | hgt
    · exact hzero
    · exact h b hb x (ho.next hx hgt) hlt' hx

theorem freeFrom_end (d : Dir) (k : ℕ) : FreeFrom d k 4096 :=
  fun _ _ _ hle hlt => absurd hlt (by omega)

theorem freeBlocks_iff (hk : k < d.blocks) : FreeBlocks d k ↔ FreeFrom d k 0 ∧
    FreeBlocks d (k + 1) := by
  constructor
  · intro h
    exact ⟨h k le_rfl hk, fun j hj => h j (by omega)⟩
  · rintro ⟨hfirst, h⟩ j hj hlt
    rcases Nat.eq_or_lt_of_le hj with rfl | hgt
    · exact hfirst
    · exact h j hgt hlt

/-- The loop of `pmfs_empty_dir` ends, with `true` if what it is for holds. -/
def Decides (P : Prop) (run : Option Bool) : Prop := ∃ r, run = some r ∧ (r = true ↔ P)

/-- The loop at the start of block `k`, behind the block before or behind a hole. -/
def AtBlock (d : Dir) (fuel : ℕ) : Prop :=
  ∀ (k : ℕ) (base : Option Blk) (de : ℕ), base.isNone = true ∨ 4096 ≤ de → k ≤ d.blocks →
    4096 * (d.blocks - k) < fuel → Decides (FreeBlocks d k) (emptyLoop d fuel (4096 * k) base de)

/-- The loop at the record at `o` of block `k`. -/
def AtRecord (d : Dir) (fuel : ℕ) : Prop :=
  ∀ {k o : ℕ} {b : Blk}, d.blk k = some b → k < d.blocks → Start b o → o < 4096 →
    4096 * d.blocks - (4096 * k + o) < fuel →
    Decides (FreeFrom d k o ∧ FreeBlocks d (k + 1)) (emptyLoop d fuel (4096 * k + o) (some b) o)

theorem empty_round {fuel : ℕ} {skip : Option Bool} (h : Tidy d) (hat : AtBlock d fuel)
    (hrec : AtRecord d fuel) (hb : d.blk k = some b) (hk : k < d.blocks) (ho : Start b o)
    (hlt : o < 4096) (hfuel : 4096 * d.blocks - (4096 * k + o) < fuel + 1) :
    Decides (FreeFrom d k o ∧ FreeBlocks d (k + 1))
    (if (pmfsCheckDirEntry b o).isSome = true then skip
      else if deIno b o ≠ 0 then some false
      else emptyLoop d fuel (4096 * k + o + deLen b o) (some b) (o + deLen b o)) := by
  obtain ⟨hok, hnext⟩ := ho.ok hlt
  obtain ⟨-, hbig⟩ := h.good k b hk hb
  have hlen : (recAt b o).len = deLen b o := rfl
  have hpos := hok.len_pos
  rw [hlen] at hnext hpos
  rw [check_big hok (hbig o ho hlt) (by rw [hlen]; exact hnext.le), Option.isSome_none,
    if_neg Bool.false_ne_true]
  by_cases hzero : deIno b o = 0
  swap
  · rw [if_pos hzero]
    refine ⟨false, rfl, iff_of_false Bool.false_ne_true fun hcon => hzero ?_⟩
    exact hcon.1 b hb o le_rfl hlt ho
  rw [if_neg (not_not.mpr hzero), freeFrom_iff hb ho hlt]
  rcases Nat.eq_or_lt_of_le hnext.le with hend | hless
  · -- the block is done
    have hoff : 4096 * k + o + deLen b o = 4096 * (k + 1) := by omega
    rw [hoff, hend]
    obtain ⟨r, hrun, hr⟩ := hat (k + 1) (some b) 4096 (Or.inr le_rfl) hk (by omega)
    refine ⟨r, hrun, hr.trans ⟨fun hfree => ⟨⟨hzero, freeFrom_end d k⟩, hfree⟩,
      fun hfree => hfree.2⟩⟩
  · rw [Nat.add_assoc]
    obtain ⟨r, hrun, hr⟩ := hrec hb hk hnext hless (by omega)
    exact ⟨r, hrun, hr.trans ⟨fun hfree => ⟨⟨hzero, hfree.1⟩, hfree.2⟩,
      fun hfree => ⟨hfree.1.2, hfree.2⟩⟩⟩

theorem emptyLoop_spec (h : Tidy d) : ∀ fuel : ℕ, AtBlock d fuel ∧ AtRecord d fuel
  | 0 => ⟨fun _ _ _ _ _ hfuel => absurd hfuel (by omega), fun _ _ _ _ hfuel =>
      absurd hfuel (by omega)⟩
  | fuel + 1 => by
    obtain ⟨hat, hrec⟩ := emptyLoop_spec h fuel
    have hsize := h.size
    constructor
    · intro k base de hbase hk hfuel
      rw [emptyLoop]
      by_cases hlast : k = d.blocks
      · rw [if_neg (by omega)]
        exact ⟨true, rfl, iff_of_true rfl fun j hj hlt => absurd hlt (by omega)⟩
      have hshift : (4096 * k) >>> 12 = k := by
        rw [Nat.shiftRight_eq_div_pow]
        omega
      rw [if_pos (by omega), if_pos hbase, hshift]
      cases hb : d.blk k with
      | none =>
        -- a hole: the next block
        have hhole : FreeFrom d k 0 := fun c hc => by
          rw [hb] at hc
          exact absurd hc (by simp)
        obtain ⟨r, hrun, hr⟩ := hat (k + 1) none de (Or.inl rfl) (by omega) (by omega)
        refine ⟨r, hrun, hr.trans ?_⟩
        rw [freeBlocks_iff (k := k) (by omega)]
        exact ⟨fun hfree => ⟨hhole, hfree⟩, fun hfree => hfree.2⟩
      | some b =>
        have hlt : k < d.blocks := by omega
        rw [Option.map_some, freeBlocks_iff hlt]
        exact empty_round h hat hrec hb hlt (start_zero (h.good k b hlt hb).1) (by omega) (by omega)
    · intro k o b hb hk ho hlt hfuel
      rw [emptyLoop, if_pos (by omega), if_neg (by simp; omega), Option.map_some]
      exact empty_round h hat hrec hb hk ho hlt hfuel

/-! ### The entries -/

/-- The records from a place on are free if and only if they are no entries. -/
theorem freeFrom_entries (hb : d.blk k = some b) : ∀ {rs : List Rec} {o : ℕ}, Start b o →
    Seg b o rs 4096 → (FreeFrom d k o ↔ entriesOf rs = 0)
  | [], o, _, hseg => by
    obtain rfl : o = 4096 := hseg
    exact iff_of_true (freeFrom_end d k) rfl
  | r :: rs, o, ho, hseg => by
    obtain ⟨rfl, hok, hrest⟩ := hseg
    have hle := hrest.le
    have hpos := hok.len_pos
    have hlt : o < 4096 := by omega
    rw [freeFrom_iff hb ho hlt]
    by_cases hzero : (recAt b o).ino = 0
    · rw [entriesOf_cons_free hzero]
      exact (and_iff_right hzero).trans (freeFrom_entries hb (ho.ok hlt).2 hrest)
    · rw [entriesOf_cons_live hzero]
      exact iff_of_false (fun hcon => hzero hcon.1) (Multiset.cons_ne_zero)

theorem freeBlocks_entries (h : Tidy d) : FreeBlocks d 1 ↔
    ∑ j ∈ (Finset.range d.blocks).erase 0, (d.blk j).elim 0 blkLive = 0 := by
  rw [Finset.sum_eq_zero_iff]
  constructor
  · intro hfree j hj
    obtain ⟨hj0, hj⟩ := Finset.mem_erase.mp hj
    have hlt := Finset.mem_range.mp hj
    cases hb : d.blk j with
    | none => rfl
    | some b =>
      have hwf := (h.good j b hlt hb).1
      exact (freeFrom_entries hb (start_zero hwf) hwf).mp (hfree j (by omega) hlt)
  · intro hzero j hj hlt b hb
    have hwf := (h.good j b hlt hb).1
    have hj' := hzero j (Finset.mem_erase.mpr ⟨by omega, Finset.mem_range.mpr hlt⟩)
    rw [hb] at hj'
    exact (freeFrom_entries hb (start_zero hwf) hwf).mpr hj' b hb

/-- The first two records are `.` for `i` and `..` for `p`, both as strings. -/
structure Dotted (b : Blk) (i p : ℕ) : Prop where
  ino : deIno b 0 = i
  nameLen : deNameLen b 0 = 1
  name : bytes b 12 2 = [0x2e, 0]
  inside : deLen b 0 < 4096
  ino' : deIno b (deLen b 0) = p
  nameLen' : deNameLen b (deLen b 0) = 2
  name' : bytes b (deLen b 0 + 12) 3 = [0x2e, 0x2e, 0]

theorem dotted_of_head (h : Head b i p) : Dotted b i p := by
  refine ⟨h.ino, h.nameLen, h.name, ?_, ?_, ?_, ?_⟩
  · rw [h.len]
    norm_num
  · rw [h.len, h.ino']
  · rw [h.len, h.nameLen']
  · rw [h.len, h.name']

theorem Dotted.starts (hd : Dotted b i p) (hwf : Wf b) :
    Start b (deLen b 0) ∧ Start b (deLen b 0 + deLen b (deLen b 0)) := by
  have hsecond : Start b (deLen b 0) := by
    have hnext := ((start_zero hwf).ok (by omega)).2
    rwa [Nat.zero_add] at hnext
  exact ⟨hsecond, (hsecond.ok hd.inside).2⟩

theorem Dotted.live_eq (hd : Dotted b i p) (h : Tidy d) (hpos : 0 < d.blocks)
    (hb : d.blk 0 = some b) (hi : i ≠ 0) (hp : p ≠ 0) : live d = {(dot, i), (dotdot, p)} ↔
      FreeFrom d 0 (deLen b 0 + deLen b (deLen b 0)) ∧ FreeBlocks d 1 := by
  have hwf := (h.good 0 b hpos hb).1
  obtain ⟨hsecond, hthird⟩ := hd.starts hwf
  obtain ⟨-, rest, -, hrest⟩ := id hthird
  have hseg : Seg b 0 (recAt b 0 :: recAt b (deLen b 0) :: rest) 4096 := by
    refine ⟨rfl, ((start_zero hwf).ok (by omega)).1, ?_⟩
    rw [Nat.zero_add]
    exact ⟨rfl, (hsecond.ok hd.inside).1, hrest⟩
  have hdot : recAt b 0 = ⟨i, deLen b 0, dot⟩ := by
    unfold recAt
    rw [hd.ino, deName_string dot hd.nameLen hd.name]
  have hdotdot : recAt b (deLen b 0) = ⟨p, deLen b (deLen b 0), dotdot⟩ := by
    unfold recAt
    rw [hd.ino', deName_string dotdot hd.nameLen' hd.name']
  have hblk : blkLive b = (dot, i) ::ₘ (dotdot, p) ::ₘ entriesOf rest := by
    unfold blkLive
    rw [records_eq hseg, hdot, hdotdot, entriesOf_cons_live hi,
      entriesOf_cons_live hp]
  rw [freeFrom_entries hb hthird hrest, freeBlocks_entries h, ← add_eq_zero]
  unfold live
  rw [Pmfs.Lib.Radix.sum_split _ hpos, hb]
  show blkLive b + _ = _ ↔ _
  rw [hblk, Multiset.cons_add, Multiset.cons_add]
  have hpair : ({(dot, i), (dotdot, p)} : Multiset (Name × ℕ)) = (dot, i) ::ₘ (dotdot, p) ::ₘ 0 :=
    rfl
  rw [hpair, Multiset.cons_inj_right, Multiset.cons_inj_right]

/-- `pmfs_empty_dir` ends and is exact: it returns 1 if and only if the first two records are all
there is. -/
theorem empty_spec (hd : Dotted b i p) (h : Tidy d) (hpos : 0 < d.blocks)
    (hb : d.blk 0 = some b) (hi : i ≠ 0) (hp : p ≠ 0) : Decides (live d = {(dot, i), (dotdot, p)})
    (pmfsEmptyDir d i) := by
  have hsize := h.size
  have hwf := (h.good 0 b hpos hb).1
  have hone : pmfsDirRecLen 1 + pmfsDirRecLen 2 = 32 := rfl
  have hthird := (hd.starts hwf).2
  rw [hd.live_eq h hpos hb hi hp]
  unfold pmfsEmptyDir
  rw [hone, if_neg (by omega), hb]
  dsimp only
  rw [hd.ino, hd.ino', hd.name, hd.name', if_neg (by simpa using hp)]
  obtain ⟨hat, hrec⟩ := emptyLoop_spec h (d.iSize + 1)
  rcases Nat.eq_or_lt_of_le hthird.le with hend | hless
  · rw [hend]
    obtain ⟨r, hrun, hr⟩ := hat 1 (some b) 4096 (Or.inr le_rfl) hpos (by omega)
    exact ⟨r, hrun, hr.trans (and_iff_right (freeFrom_end d 0)).symm⟩
  · have hloop := hrec hb hpos hthird hless (by omega)
    simpa only [Nat.mul_zero, Nat.zero_add] using hloop

/-- A directory as the code makes it has nothing but `.` and `..` when `pmfs_empty_dir` says so. -/
theorem dirOk_empty (h : DirOk d i p) (hrun : pmfsEmptyDir d i = some true)
    (hmem : (name, ino) ∈ live d) : name = dot ∨ name = dotdot := by
  obtain ⟨b, hb, hhead⟩ := h.laid.head
  obtain ⟨r, hrun', hr⟩ := empty_spec (dotted_of_head hhead) h.laid.toTidy h.pos hb h.ino h.parent
  rw [hrun, Option.some.injEq] at hrun'
  rw [hr.mp hrun'.symm] at hmem
  rcases Multiset.mem_cons.mp hmem with heq | heq
  · exact Or.inl (Prod.mk.inj heq).1
  · exact Or.inr (Prod.mk.inj (Multiset.mem_singleton.mp heq)).1

/-! ### Runs -/

/-- A name that is looked up, added or removed in a directory: not `.` and not `..`. -/
def Ordinary (name : Name) : Prop := name.length ≤ 255 ∧ name ≠ dot ∧ name ≠ dotdot

/-- A call of `pmfs_add_entry` or `pmfs_remove_entry`, whatever it returns. -/
inductive EntryStep (d d' : Dir) : Prop
  | add (name : Name) (ino : ℕ) (alloc : Except Errno Blk) (e : Option Errno)
      (hname : Ordinary name) (hino : ino < 256 ^ 8)
      (hrun : pmfsAddEntry d name ino alloc = some (d', e))
  | remove (name : Name) (hname : Ordinary name) (hrun : (pmfsRemoveEntry d name).1 = d')

theorem EntryStep.laid (h : Laid d i p) (hstep : EntryStep d d') : Laid d' i p := by
  cases hstep with
  | add name ino alloc e hname hino hrun =>
    by_cases h0 : name.length = 0
    · unfold pmfsAddEntry at hrun
      rw [if_pos h0] at hrun
      cases hrun
      exact h
    · exact h.add (Nat.pos_of_ne_zero h0) hname.1 hino hrun
  | remove name hname hrun =>
    by_cases h0 : name.length = 0
    · unfold pmfsRemoveEntry at hrun
      rw [if_pos h0] at hrun
      exact hrun ▸ h
    · exact hrun ▸ h.remove (Nat.pos_of_ne_zero h0) hname.2.1 hname.2.2

/-- **Main result.** `pmfs_empty_dir` is exact in a directory that begins with `.` and `..`, and
stays so when other names are added and removed, if `.` takes the 16 bytes that the code gives it.
-/
theorem empty_exact (hd : Dotted b i p) (h : Tidy d) (hpos : 0 < d.blocks)
    (hb : d.blk 0 = some b) (hi : i ≠ 0) (hp : p ≠ 0) : Decides (live d = {(dot, i), (dotdot, p)})
    (pmfsEmptyDir d i) ∧
      (deLen b 0 = 16 → ∀ d', Relation.ReflTransGen EntryStep d d' →
        Decides (live d' = {(dot, i), (dotdot, p)}) (pmfsEmptyDir d' i)) := by
  refine ⟨empty_spec hd h hpos hb hi hp, fun hlen d' hrun => ?_⟩
  have hlaid : Laid d' i p := by
    induction hrun with
    | refl =>
      have hname' := hd.name'
      have hino' := hd.ino'
      have hnameLen' := hd.nameLen'
      rw [hlen] at hname' hino' hnameLen'
      exact ⟨h, hpos, ⟨b, hb, hd.ino, hlen, hd.nameLen, hd.name, hino', hnameLen', hname'⟩, hi, hp⟩
    | tail _ hstep ih => exact hstep.laid ih
  obtain ⟨c, hc, hhead⟩ := hlaid.head
  exact empty_spec (dotted_of_head hhead) hlaid.toTidy hlaid.pos hc hlaid.ino hlaid.parent

/-- A new directory with the inode number 7. -/
def newDir : Dir := ⟨4096, Function.update (fun _ => none) 0 (some (makeEmpty (fun _ => 0) 7 2)), 0⟩

/-- A new directory is empty, and no longer when it has the entry `a`. -/
theorem empty_exact_add : pmfsEmptyDir newDir 7 = some true ∧
    ∃ d', Relation.ReflTransGen EntryStep newDir d' ∧ pmfsEmptyDir d' 7 = some false := by
  obtain ⟨hok, hlive⟩ := DirOk.new (i := 7) (p := 2) (by decide) (by decide) (by decide)
    (by decide)
  have hlaid : Laid newDir 7 2 := hok.laid
  obtain ⟨b, hb, hhead⟩ := hlaid.head
  obtain ⟨⟨r, hrun, hr⟩, hruns⟩ :=
    empty_exact (dotted_of_head hhead) hlaid.toTidy hlaid.pos hb hlaid.ino hlaid.parent
  obtain ⟨⟨d', e⟩, hadd, hmem⟩ : ∃ r ∈ pmfsAddEntry newDir [0x61] 9 (.error .ENOSPC),
    ([0x61], 9) ∈ live r.1 := by
    decide +kernel
  have hstep : EntryStep newDir d' :=
    .add [0x61] 9 (.error .ENOSPC) e ⟨by decide, by decide, by decide⟩ (by decide) hadd
  obtain ⟨r', hrun', hr'⟩ := hruns hhead.len d' (.single hstep)
  refine ⟨by rw [hrun, hr.mpr hlive], d', .single hstep, ?_⟩
  rw [hrun', Option.some.injEq, ← Bool.not_eq_true, hr']
  intro hcon
  rw [hcon] at hmem
  exact absurd hmem (by decide)

/-- After `..` was removed, a directory with the entry `a` counts as empty. -/
theorem removed_dotdot_empty : ∃ r ∈ pmfsAddEntry newDir [0x61] 9 (.error .ENOSPC),
    pmfsEmptyDir r.1 7 = some false ∧ pmfsEmptyDir (pmfsRemoveEntry r.1 dotdot).1 7 = some true ∧
    ([0x61], 9) ∈ live (pmfsRemoveEntry r.1 dotdot).1 := by
  decide +kernel

end Pmfs.Dirs.Empty
