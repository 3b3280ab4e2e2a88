import Pmfs.Itable.Account

/-! # The search for a free inode

`pmfs_new_inode` starts its search at a hint, which frees move back, allocations move on and a
growth of the table moves to the new block. Along runs of creations and deletions, one at a time,
the slots before the hint are in use, so that the search finds the lowest free slot, and the table
grows only when there is none (`search_run`). The inode number of a slot is computed by a shift of
an `int`: the search cannot look at slots from `2 ^ 24` on (`search_overflows`). -/

namespace Pmfs.Itable.Search

open Lib.Run Block.Model Tree.Model Itable.Model Itable.Select Itable.Account Function
open Inodes.Model (initInodeTable pmfsMaskFlags)

variable {t t' : Table} {p : ℕ → PmfsInode} {i j k m n fuel mode now : ℕ} {flags : UInt32}
variable {grow : List (Option Errno)}

/-! ### The scan of used slots -/

/-- The slots from `i` up to `m` are in use. -/
def Used (p : ℕ → PmfsInode) (i m : ℕ) : Prop := ∀ k, i ≤ k → k < m → freeTest (p k) = false

theorem Used.mono (h : Used p i m) (hij : i ≤ j) (hnm : n ≤ m) : Used p j n :=
  fun k h1 h2 => h k (hij.trans h1) (h2.trans_le hnm)

theorem scanBlock_used (h : Used p i (i + n)) : scanBlock p i n = i + n := by
  induction n generalizing i with
  | zero => rfl
  | succ n ih =>
    have hi : freeTest (p i) = false := h i le_rfl (by omega)
    have hrest : Used p (i + 1) (i + 1 + n) := h.mono (by omega) (by omega)
    simp only [scanBlock, hi, Bool.false_eq_true, if_false, ih hrest]
    omega

theorem scanBlock_free (hle : i ≤ m) (hlt : m < i + n) (hused : Used p i m)
    (hfree : freeTest (p m) = true) : scanBlock p i n = m := by
  induction n generalizing i with
  | zero => omega
  | succ n ih =>
    rcases Nat.lt_or_eq_of_le hle with him | rfl
    · have hi : freeTest (p i) = false := hused i le_rfl him
      simp only [scanBlock, hi, Bool.false_eq_true, if_false]
      exact ih him (by omega) (hused.mono (by omega) le_rfl)
    · simp [scanBlock, hfree]

/-- One round of the scan looks at the `n` slots that are left in the block of `i`. -/
theorem scanTable_step (h0 : 0 < i) (hlt : i < t.count) (hsmall : i < 2 ^ 24) :
    ∃ n, 0 < n ∧ (∀ m, inodesPerBlock t.iBlkType ∣ m → i < m → i + n ≤ m) ∧
    ∀ fuel, scanTable t (fuel + 1) i =
      if scanBlock t.pi i n < i + n then some (scanBlock t.pi i n)
      else scanTable t fuel (scanBlock t.pi i n) := by
  have hpos := inodesPerBlock_pos t.iBlkType
  refine ⟨inodesPerBlock t.iBlkType - i % inodesPerBlock t.iBlkType,
    Nat.sub_pos_of_lt (Nat.mod_lt i hpos), fun m hdvd him => block_end_le hpos hdvd him, fun fuel =>
    ?_⟩
  rw [scanTable, if_pos hlt, if_pos ⟨h0, hsmall⟩]
  dsimp only
  rw [Nat.add_sub_cancel_left]

theorem scanTable_skip (h0 : 0 < i) (hle : i ≤ m) (hdvd : inodesPerBlock t.iBlkType ∣ m)
    (hm : m ≤ t.count) (hsmall : m ≤ 2 ^ 24) (hused : Used t.pi i m) (hfuel : t.count ≤ i + fuel) :
    ∃ fuel', t.count ≤ m + fuel' ∧ scanTable t fuel i = scanTable t fuel' m := by
  induction fuel generalizing i with
  | zero =>
    obtain rfl : i = m := by omega
    exact ⟨0, hfuel, rfl⟩
  | succ fuel ih =>
    rcases Nat.lt_or_eq_of_le hle with hlt | rfl
    · obtain ⟨n, hn, hend, hstep⟩ := scanTable_step h0 (hlt.trans_le hm) (hlt.trans_le hsmall)
      have hblock := hend m hdvd hlt
      rw [hstep, scanBlock_used (hused.mono le_rfl hblock), if_neg (Nat.lt_irrefl _)]
      exact ih (by omega) hblock (hused.mono (by omega) le_rfl) (by omega)
    · exact ⟨fuel + 1, hfuel, rfl⟩

theorem scanTable_free (h0 : 0 < i) (hle : i ≤ m) (hm : m < t.count) (hsmall : m < 2 ^ 24)
    (hused : Used t.pi i m) (hfree : freeTest (t.pi m) = true) (hfuel : t.count ≤ i + fuel) :
    scanTable t fuel i = some m := by
  induction fuel generalizing i with
  | zero => omega
  | succ fuel ih =>
    obtain ⟨n, hn, -, hstep⟩ := scanTable_step h0 (hle.trans_lt hm) (hle.trans_lt hsmall)
    rw [hstep]
    by_cases hin : m < i + n
    · rw [scanBlock_free hle hin hused hfree, if_pos hin]
    · rw [scanBlock_used (hused.mono le_rfl (by omega)), if_neg (Nat.lt_irrefl _)]
      exact ih (by omega) (by omega) (hused.mono (by omega) le_rfl) (by omega)

theorem scanTable_full (hwf : Wf t) (h0 : 0 < i) (hle : i ≤ t.count) (hsmall : t.count ≤ 2 ^ 24)
    (hused : Used t.pi i t.count) (hfuel : t.count ≤ i + fuel) :
    scanTable t fuel i = some t.count := by
  obtain ⟨fuel', -, hskip⟩ := scanTable_skip h0 hle hwf.blocks le_rfl hsmall hused hfuel
  rw [hskip]
  cases fuel' with
  | zero => rfl
  | succ fuel' => simp [scanTable]

/-- When no slot before `2 ^ 24` is free and the table is longer, the scan comes to a number that
does not fit. -/
theorem scanTable_overflows (h0 : 0 < i) (hle : i ≤ 2 ^ 24) (hcount : 2 ^ 24 < t.count)
    (hused : Used t.pi i (2 ^ 24)) (hdvd : inodesPerBlock t.iBlkType ∣ 2 ^ 24)
    (hfuel : t.count ≤ i + fuel) : scanTable t fuel i = none := by
  obtain ⟨fuel', hfuel', hskip⟩ := scanTable_skip h0 hle hdvd hcount.le le_rfl hused hfuel
  rw [hskip]
  cases fuel' with
  | zero => omega
  | succ fuel' => rw [scanTable, if_pos hcount, if_neg (by simp)]

/-! ### The lowest free slot -/

/-- The lowest slot from `PMFS_FREE_INODE_HINT_START` on that is free. -/
structure Lowest (t : Table) (i : ℕ) : Prop where
  three_le : PMFS_FREE_INODE_HINT_START ≤ i
  lt : i < t.count
  free : freeTest (t.pi i) = true
  before : Used t.pi PMFS_FREE_INODE_HINT_START i

/-- No slot from `PMFS_FREE_INODE_HINT_START` on is free. -/
def NoneFree (t : Table) : Prop := Used t.pi PMFS_FREE_INODE_HINT_START t.count

theorem lowest_or_none (t : Table) : (∃ i, Lowest t i) ∨ NoneFree t := by
  by_cases h : ∃ i, 3 ≤ i ∧ i < t.count ∧ freeTest (t.pi i) = true
  · left
    obtain ⟨h1, h2, h3⟩ := Nat.find_spec h
    refine ⟨Nat.find h, h1, h2, h3, fun k hk hlt => ?_⟩
    have hmin := Nat.find_min h hlt
    rw [Bool.eq_false_iff]
    exact fun hcon => hmin ⟨hk, hlt.trans h2, hcon⟩
  · right
    intro k hk hlt
    rw [Bool.eq_false_iff]
    exact fun hcon => h ⟨k, hk, hlt, hcon⟩

/-- What holds along a run: the table has whole blocks, and the slots before the hint are in use. -/
structure Inv (t : Table) : Prop where
  count : t.count = t.iSize >>> 7 % 2 ^ 32
  blocks : inodesPerBlock t.iBlkType ∣ t.iSize >>> 7
  three_le : PMFS_FREE_INODE_HINT_START ≤ t.hint
  hint_le : t.hint ≤ t.iSize >>> 7
  used : Used t.pi PMFS_FREE_INODE_HINT_START t.hint

/-- The search stays in the slots whose numbers fit: the table has less than `2 ^ 32` slots, and one
of the first `2 ^ 24` is free, or it has less than `2 ^ 24`. -/
def Fits (t : Table) : Prop :=
  t.iSize >>> 7 < 2 ^ 32 ∧
    ((∃ k < 2 ^ 24, 3 ≤ k ∧ k < t.count ∧ freeTest (t.pi k) = true) ∨ t.iSize >>> 7 < 2 ^ 24)

theorem Inv.wf (h : Inv t) (hlt : t.iSize >>> 7 < 2 ^ 32) : Wf t := by
  have hcount : t.count = t.iSize >>> 7 := h.count.trans (Nat.mod_eq_of_lt hlt)
  exact ⟨hcount, hcount ▸ h.blocks, h.three_le, hcount ▸ h.hint_le⟩

theorem perBlock_dvd (b : BlkType) : inodesPerBlock b ∣ 2 ^ 24 := by
  cases b <;> decide

/-- The new block of a table of less than `2 ^ 24` slots does not reach behind them. -/
theorem grown_le (h : Wf t) (hlt : t.count < 2 ^ 24) :
    t.count + inodesPerBlock t.iBlkType ≤ 2 ^ 24 := by
  obtain ⟨a, ha⟩ := h.blocks
  obtain ⟨b, hb⟩ := perBlock_dvd t.iBlkType
  have hpos := inodesPerBlock_pos t.iBlkType
  rw [ha, hb] at hlt ⊢
  have hab : a + 1 ≤ b := Nat.lt_of_mul_lt_mul_left hlt
  calc inodesPerBlock t.iBlkType * a + inodesPerBlock t.iBlkType =
    inodesPerBlock t.iBlkType * (a + 1) := by
        rw [Nat.mul_add, Nat.mul_one]
    _ ≤ inodesPerBlock t.iBlkType * b := Nat.mul_le_mul_left _ hab

/-- What `pmfs_new_inode` does under the lock: it takes the lowest free slot, and when there is none
it fails, or takes the first slot of a new block. -/
structure Searched (t : Table) (mode : ℕ) (flags : UInt32) (grow : List (Option Errno)) : Prop where
  lowest : ∀ i, Lowest t i → selectInode t mode flags grow =
    some (takeSlot t i (pmfsMaskFlags mode flags), .ok i)
  full : NoneFree t → (∃ e, selectInode t mode flags grow = some (t, .error e)) ∨
    Lowest (pmfsIncreaseInodeTableSize t none).1 t.count ∧ selectInode t mode flags grow =
      some (takeSlot (pmfsIncreaseInodeTableSize t none).1 t.count (pmfsMaskFlags mode flags),
        .ok t.count)

theorem find_of_scan (hscan : scanTable t t.count i = some j) (hlt : j < t.count)
    (grow : List (Option Errno)) : findInode t grow i = some (t, .ok j) := by
  unfold findInode
  rw [hscan]
  dsimp only
  rw [if_pos hlt]

theorem select_of_overflow (hscan : scanTable t t.count t.hint = none) (mode : ℕ) (flags : UInt32)
    (grow : List (Option Errno)) : selectInode t mode flags grow = none := by
  unfold selectInode findInode
  rw [hscan]
  rfl

theorem find_lowest (h : Inv t) (hi : Lowest t i) (hsmall : i < 2 ^ 24)
    (grow : List (Option Errno)) : findInode t grow t.hint = some (t, .ok i) := by
  have hhint : t.hint ≤ i := by
    by_contra hcon
    have hused := h.used i hi.three_le (by omega)
    rw [hi.free] at hused
    simp at hused
  have h0 : 0 < t.hint := Nat.lt_of_lt_of_le (by decide) h.three_le
  have hused : Used t.pi t.hint i := hi.before.mono h.three_le le_rfl
  exact find_of_scan (scanTable_free h0 hhint hi.lt hsmall hused hi.free (Nat.le_add_left _ _))
    hi.lt grow

/-- A full table that grows has its lowest free slot where the new block starts. -/
theorem grown_lowest (hwf : Wf t) (hroom : Room t) (hfull : NoneFree t) :
    Lowest (pmfsIncreaseInodeTableSize t none).1 t.count := by
  have hpos := inodesPerBlock_pos t.iBlkType
  refine ⟨hwf.three_le.trans hwf.hint_le, ?_, ?_, fun k h1 h2 => ?_⟩
  · rw [increase_count hroom, ← hwf.count]
    omega
  · have hzero : (pmfsIncreaseInodeTableSize t none).1.pi t.count = zeroInode := by
      refine if_pos ⟨Nat.le_of_eq hwf.count.symm, ?_⟩
      rw [grown_slots, hwf.count]
      omega
    rw [hzero]
    rfl
  · rw [(increase_extends t).slots k (hwf.count ▸ h2)]
    exact hfull k h1 h2

theorem find_full (h : Inv t) (hlt : t.iSize >>> 7 < 2 ^ 24) (hfull : NoneFree t)
    (grow : List (Option Errno)) : (∃ e, findInode t grow t.hint = some (t, .error e)) ∨
    Lowest (pmfsIncreaseInodeTableSize t none).1 t.count ∧
      findInode t grow t.hint = some ((pmfsIncreaseInodeTableSize t none).1, .ok t.count) := by
  have hwf := h.wf (by omega)
  have hcount : t.count < 2 ^ 24 := hwf.count ▸ hlt
  have hgrown := grown_le hwf hcount
  have hroom : Room t := by
    unfold Room
    rw [← hwf.count]
    omega
  have hlow := grown_lowest hwf hroom hfull
  have h0 : 0 < t.hint := Nat.lt_of_lt_of_le (by decide) h.three_le
  have hscan : scanTable t t.count t.hint = some t.count :=
    scanTable_full hwf h0 hwf.hint_le hcount.le (hfull.mono h.three_le le_rfl) (Nat.le_add_left _ _)
  have hscan' : scanTable (pmfsIncreaseInodeTableSize t none).1
    (pmfsIncreaseInodeTableSize t none).1.count t.count =
      some t.count :=
    scanTable_free (h0.trans_le hwf.hint_le) le_rfl hlow.lt hcount
      (hlow.before.mono hlow.three_le le_rfl) hlow.free (Nat.le_add_left _ _)
  unfold findInode
  rw [hscan]
  dsimp only
  rw [if_neg (Nat.lt_irrefl _)]
  rcases grow with - | ⟨- | e, rest⟩
  · exact Or.inl ⟨_, rfl⟩
  · exact Or.inr ⟨hlow, find_of_scan hscan' hlow.lt rest⟩
  · exact Or.inl ⟨e, rfl⟩

/-- The search is right in every state of a run in which it stays in the slots whose numbers fit. -/
theorem Inv.searched (h : Inv t) (hfits : Fits t) (mode : ℕ) (flags : UInt32)
    (grow : List (Option Errno)) :
    Searched t mode flags grow := by
  obtain ⟨hsize, hfits⟩ := hfits
  have hwf := h.wf hsize
  constructor
  · intro i hi
    have hsmall : i < 2 ^ 24 := by
      rcases hfits with ⟨k, hk, h3, -, hfree⟩ | hlt
      · refine Nat.lt_of_le_of_lt ?_ hk
        by_contra hcon
        have hused := hi.before k h3 (by omega)
        rw [hfree] at hused
        simp at hused
      · exact hi.lt.trans (hwf.count ▸ hlt)
    unfold selectInode
    rw [find_lowest h hi hsmall]
    rfl
  · intro hfull
    have hlt : t.iSize >>> 7 < 2 ^ 24 := by
      refine hfits.resolve_left ?_
      rintro ⟨k, -, h3, hk, hfree⟩
      rw [hfull k h3 hk] at hfree
      simp at hfree
    unfold selectInode
    rcases find_full h hlt hfull grow with ⟨e, hfind⟩ | ⟨hlow, hfind⟩
    · rw [hfind]
      exact Or.inl ⟨e, rfl⟩
    · rw [hfind]
      exact Or.inr ⟨hlow, rfl⟩

/-! ### Runs -/

/-- The calls of a run: creation, a change of a link count, and deletion. -/
inductive Op where
  | new (inode : Inode) (flags : UInt32) (env : Env)
  | nlink (i nlink : ℕ)
  | free (i : ℕ) (err : Option Errno) (now : ℕ)

def Op.exec (t : Table) : Op → Option Table
  | new inode flags env => (pmfsNewInode t inode flags env).map fun r => r.1
  | nlink i n => some (pmfsUpdateNlink t i n)
  | free i err now => some (pmfsFreeInode t i err now).1

/-- How the calls are made: a new VFS inode has one link, links are counted for inodes that are not
deleted, and the inodes that are deleted are those of files, not those below
`PMFS_FREE_INODE_HINT_START`. -/
def Op.Valid (t : Table) : Op → Prop
  | new inode _ _ => inode.iNlink = 1
  | nlink i _ => (t.pi i).iMode ≠ 0 ∧ (t.pi i).iDtime = 0
  | free i _ _ => PMFS_FREE_INODE_HINT_START ≤ i ∧ i < t.count

/-- The search of a creation stays in the slots whose numbers fit. -/
def Op.Fits (t : Table) : Op → Prop
  | new _ _ _ => Search.Fits t
  | nlink _ _ => True
  | free _ _ _ => True

def Step (P : Table → Op → Prop) (t t' : Table) : Prop :=
  ∃ op : Op, op.Valid t ∧ P t op ∧ op.exec t = some t'

/-- A table that has been formatted. -/
def Formatted (t : Table) : Prop := ∃ initsize numInodes root, t = newTable initsize numInodes root

/-- A table that has been scanned when the file system was mounted: the slots of its blocks are
counted, and the hint is `PMFS_FREE_INODE_HINT_START`. -/
structure Scanned (t : Table) : Prop where
  count : t.sbi.sInodesCount = UInt32.ofNat (t.iSize >>> 7)
  blocks : inodesPerBlock t.iBlkType ∣ t.iSize >>> 7
  root : 1 < t.iSize >>> 7
  hint : t.hint = PMFS_FREE_INODE_HINT_START

theorem three_le_slots (hdvd : inodesPerBlock t.iBlkType ∣ t.iSize >>> 7)
    (hpos : 0 < t.iSize >>> 7) : PMFS_FREE_INODE_HINT_START ≤ t.iSize >>> 7 := by
  have hper : 3 ≤ inodesPerBlock t.iBlkType := by
    cases t.iBlkType <;> decide
  exact hper.trans (Nat.le_of_dvd hpos hdvd)

theorem Scanned.inv (h : Scanned t) : Inv t where
  count := by
    unfold Table.count
    rw [h.count]
    exact UInt32.toNat_ofNat'
  blocks := h.blocks
  three_le := h.hint.ge
  hint_le := by
    rw [h.hint]
    exact three_le_slots h.blocks (Nat.zero_lt_of_lt h.root)
  used k h1 h2 := by
    rw [h.hint] at h2
    omega

/-- `pmfs_init_inode_table` gives the table whole blocks, one at least. -/
theorem initInodeTable_size (initsize numInodes : ℕ) : ∃ q, 0 < q ∧
    (initInodeTable initsize numInodes).iSize =
      q * 2 ^ blkTypeToShift (initInodeTable initsize numInodes).iBlkType := by
  unfold initInodeTable
  dsimp only
  generalize hsize : (if numInodes = 0 then (if initsize ≥ 0x20000000 then 0x200000 else 4096)
    else numInodes <<< 7) = size
  have hpos : 0 < size := by
    rw [← hsize, Nat.shiftLeft_eq]
    split_ifs <;> omega
  generalize (if size ≥ 0x200000 then BlkType.b2M else .b4K) = b
  refine ⟨(size + 2 ^ blkTypeToShift b - 1) >>> blkTypeToShift b, ?_, Nat.shiftLeft_eq _ _⟩
  rw [Nat.shiftRight_eq_div_pow]
  exact Nat.div_pos (by omega) (by positivity)

theorem slots_eq (q : ℕ) (b : BlkType) : (q * 2 ^ blkTypeToShift b) >>> 7 =
    q * inodesPerBlock b := by
  have hshift : 2 ^ blkTypeToShift b = inodesPerBlock b * 2 ^ 7 := by
    cases b <;> rfl
  rw [hshift, Nat.shiftRight_eq_div_pow _ 7, ← Nat.mul_assoc, Nat.mul_div_cancel _ (by norm_num)]

theorem Formatted.scanned (h : Formatted t) : Scanned t := by
  obtain ⟨initsize, numInodes, root, rfl⟩ := h
  obtain ⟨q, hq, hsize⟩ := initInodeTable_size initsize numInodes
  have hslots := slots_eq q (initInodeTable initsize numInodes).iBlkType
  rw [← hsize] at hslots
  have hdvd : inodesPerBlock (initInodeTable initsize numInodes).iBlkType ∣
      (initInodeTable initsize numInodes).iSize >>> 7 := by
    rw [hslots]
    exact Nat.dvd_mul_left _ _
  have hpos : 0 < (initInodeTable initsize numInodes).iSize >>> 7 := by
    rw [hslots]
    exact Nat.mul_pos hq (inodesPerBlock_pos _)
  have hthree := three_le_slots (t := newTable initsize numInodes root) hdvd hpos
  exact ⟨rfl, hdvd, Nat.lt_of_lt_of_le (by decide) hthree, rfl⟩

theorem Inv.take {inode : Inode} (hcount : t.count = t.iSize >>> 7 % 2 ^ 32)
    (hblocks : inodesPerBlock t.iBlkType ∣ t.iSize >>> 7) (hi : Lowest t i)
    (hnlink : inode.iNlink = 1) : Inv (publishInode (takeSlot t i flags) i inode) := by
  have hle : t.count ≤ t.iSize >>> 7 := hcount ▸ Nat.mod_le _ _
  have hlt := hi.lt
  have h3 : 3 ≤ i := hi.three_le
  have hhint : (publishInode (takeSlot t i flags) i inode).hint = if i <
    t.count - 1 then i + 1 else 3 :=
    takeSlot_hint flags hlt
  refine ⟨hcount, hblocks, ?_, ?_, fun k h1 h2 => ?_⟩
  · rw [hhint]
    show 3 ≤ _
    split_ifs <;> omega
  · rw [hhint]
    show _ ≤ t.iSize >>> 7
    split_ifs <;> omega
  · show freeTest (update (update t.pi i _) i _ k) = false
    rw [update_idem]
    by_cases hk : k = i
    · rw [hk, update_self]
      simp [freeTest, pmfsUpdateInode, hnlink]
    · rw [update_of_ne hk]
      have hki : k < i := by
        rw [hhint] at h2
        have h3' : 3 ≤ k := h1
        split_ifs at h2 <;> omega
      exact hi.before k h1 hki

theorem Inv.new {inode : Inode} {env : Env} {r : Except Errno ℕ} (h : Inv t) (hfits : Fits t)
    (hnlink : inode.iNlink = 1) (hnew : pmfsNewInode t inode flags env = some (t', r)) :
    Inv t' := by
  unfold pmfsNewInode at hnew
  cases hstart : env.start with
  | some e =>
    rw [hstart] at hnew
    cases hnew
    exact h
  | none =>
    rw [hstart] at hnew
    obtain ⟨hlowest, hnone⟩ := h.searched hfits inode.iMode flags env.grow
    rcases lowest_or_none t with ⟨i, hi⟩ | hfull
    · rw [hlowest i hi] at hnew
      cases hnew
      exact Inv.take h.count h.blocks hi hnlink
    · rcases hnone hfull with ⟨e, hsel⟩ | ⟨hlow, hsel⟩
      · rw [hsel] at hnew
        cases hnew
        exact h
      · rw [hsel] at hnew
        cases hnew
        refine Inv.take UInt32.toNat_ofNat' ?_ hlow hnlink
        show inodesPerBlock t.iBlkType ∣ (t.iSize + 2 ^ blkTypeToShift t.iBlkType) >>> 7
        rw [grown_slots]
        exact Nat.dvd_add h.blocks (Nat.dvd_refl _)

theorem Inv.free (h : Inv t) (h3 : PMFS_FREE_INODE_HINT_START ≤ i) (hlt : i < t.count)
    (err : Option Errno) (now : ℕ) : Inv (pmfsFreeInode t i err now).1 := by
  cases err with
  | some e => exact h
  | none =>
    have hle : t.count ≤ t.iSize >>> 7 := h.count ▸ Nat.mod_le _ _
    have hthree := h.three_le
    have hhigh := h.hint_le
    -- the hint is at the start or not behind the freed slot
    have hhint : (pmfsFreeInode t i none now).1.hint = PMFS_FREE_INODE_HINT_START ∨
        (pmfsFreeInode t i none now).1.hint = min i t.hint := by
      refine (freeInode_hint now hlt).imp_right fun heq => heq.trans ?_
      split_ifs <;> omega
    refine ⟨h.count, h.blocks, by omega, ?_, fun k h1 h2 => ?_⟩
    · show _ ≤ t.iSize >>> 7
      omega
    · show freeTest (update t.pi i _ k) = false
      rw [update_of_ne (by omega)]
      exact h.used k h1 (by omega)

theorem Inv.nlink (h : Inv t) (hmode : (t.pi i).iMode ≠ 0) (hdtime : (t.pi i).iDtime = 0) (n : ℕ) :
    Inv (pmfsUpdateNlink t i n) := by
  refine ⟨h.count, h.blocks, h.three_le, h.hint_le, fun k h1 h2 => ?_⟩
  show freeTest (update t.pi i _ k) = false
  by_cases hk : k = i
  · rw [hk, update_self]
    exact freeTest_used hmode hdtime
  · rw [update_of_ne hk]
    exact h.used k h1 h2

theorem Inv.step (h : Inv t) (hstep : Step (fun t op => op.Fits t) t t') : Inv t' := by
  obtain ⟨op, hvalid, hfits, hexec⟩ := hstep
  cases op with
  | new inode flags env =>
    obtain ⟨⟨t1, r⟩, hnew, rfl⟩ := Option.map_eq_some_iff.mp hexec
    exact h.new hfits hvalid hnew
  | nlink i n =>
    cases hexec
    exact h.nlink hvalid.1 hvalid.2 n
  | free i err now =>
    cases hexec
    exact h.free hvalid.1 hvalid.2 err now

/-- **Main result.** In every run from a formatted or scanned table whose searches stay in the slots
with numbers that fit, every slot from `PMFS_FREE_INODE_HINT_START` up to the hint is in use, and
`pmfs_new_inode` takes the lowest free slot from `PMFS_FREE_INODE_HINT_START` on, or when there is
none, fails or takes the first slot of a new block. -/
theorem search_run (hstart : Formatted t ∨ Scanned t)
    (hrun : Relation.ReflTransGen (Step fun t op => op.Fits t) t t') :
    (∀ k, PMFS_FREE_INODE_HINT_START ≤ k → k < t'.hint → freeTest (t'.pi k) = false) ∧
      (Fits t' → ∀ mode flags grow, Searched t' mode flags grow) := by
  have hinv : Inv t' := by
    induction hrun with
    | refl => exact (hstart.elim Formatted.scanned id).inv
    | tail _ hstep ih => exact ih.step hstep
  exact ⟨hinv.used, fun hfits mode flags grow => hinv.searched hfits mode flags grow⟩

/-! ### Two tables -/

instance (t : Table) (op : Op) : Decidable (op.Valid t) := by
  cases op <;> unfold Op.Valid <;> infer_instance

/-- In a table of less than `2 ^ 24` slots every number fits. -/
theorem fits_of_lt (h : t.iSize >>> 7 < 2 ^ 24) : Fits t := ⟨h.trans (by norm_num), Or.inr h⟩

/-- The creation of a file in a table that does not grow. -/
def create : Op := .new (newInode 0o100644 0 0 0 0) 0 plainEnv

/-- Three files are made in a new table of 32 slots and the first one is deleted: the hint is 3
again, and the next file gets the slot 3. -/
theorem search_run_three : ∃ t', Relation.ReflTransGen (Step fun t op => op.Fits t) smallTable t' ∧
    t'.hint = 3 ∧ selectInode t' 0o100644 0 [] = some (takeSlot t' 3 0, .ok 3) := by
  obtain ⟨t', hrun, hhint, hcount, hsize, hfree⟩ : ∃ t' ∈ run Op.exec (fun t op => op.Valid t ∧
    t.iSize >>> 7 < 2 ^ 24) smallTable
      [create, create, create, .nlink 3 0, .free 3 none 1],
      t'.hint = 3 ∧ t'.count = 32 ∧ t'.iSize >>> 7 < 2 ^ 24 ∧ freeTest (t'.pi 3) = true := by
      decide +kernel
  have hsteps : Relation.ReflTransGen (Step fun t op => op.Fits t) smallTable t' := by
    refine run_rel (fun t op t1 hP hexec => ⟨op, hP.1, ?_, hexec⟩) hrun
    cases op with
    | new inode flags env => exact fits_of_lt hP.2
    | nlink i n => trivial
    | free i err now => trivial
  have hsearch := (search_run (Or.inl ⟨_, _, _, rfl⟩) hsteps).2 (fits_of_lt hsize) 0o100644 0 []
  have hlowest : Lowest t' 3 :=
    ⟨le_rfl, by omega, hfree, fun k h1 h2 => absurd h2 (Nat.not_lt.mpr h1)⟩
  exact ⟨t', hsteps, hhint, hsearch.lowest 3 hlowest⟩

/-- A file that is there. -/
def file : PmfsInode := { zeroInode with iMode := 0o100644, iLinksCount := 1 }

/-- A table of 2M blocks whose slots below `2 ^ 24` are in use, as it is after a mount. -/
def crowded : Table where
  pi i := if i = 1 ∨ 3 ≤ i ∧ i < 2 ^ 24 then file else zeroInode
  sbi := ⟨16793600, 16384, 3⟩
  iSize := 16793600 * 128
  iBlkType := .b2M

/-- The number of the lowest free slot does not fit, and the search does not find it. -/
theorem search_overflows : Scanned crowded ∧ Lowest crowded (2 ^ 24) ∧
    selectInode crowded 0o100644 0 [] = none := by
  have hcount : crowded.count = 16793600 := rfl
  have hhint : crowded.hint = 3 := rfl
  have hslots : crowded.iSize >>> 7 = 16793600 := by
    show 16793600 * 128 >>> 7 = 16793600
    norm_num [Nat.shiftRight_eq_div_pow]
  have hper : inodesPerBlock crowded.iBlkType = 16384 := rfl
  have hused : Used crowded.pi 3 (2 ^ 24) := by
    intro k h1 h2
    have hfile : crowded.pi k = file := if_pos (Or.inr ⟨h1, h2⟩)
    rw [hfile]
    rfl
  have hfree : freeTest (crowded.pi (2 ^ 24)) = true := by
    have hzero : crowded.pi (2 ^ 24) = zeroInode := by
      show (if 2 ^ 24 = 1 ∨ 3 ≤ 2 ^ 24 ∧ 2 ^ 24 < 2 ^ 24 then file else zeroInode) = zeroInode
      rw [if_neg (by omega)]
    rw [hzero]
    rfl
  have hscan : scanTable crowded crowded.count crowded.hint = none := by
    rw [hcount, hhint]
    exact scanTable_overflows (by norm_num) (by norm_num) (by rw [hcount]; norm_num) hused
      (perBlock_dvd _) (by rw [hcount]; norm_num)
  have hlowest : Lowest crowded (2 ^ 24) := by
    refine ⟨by norm_num [PMFS_FREE_INODE_HINT_START], ?_, hfree, hused⟩
    rw [hcount]
    norm_num
  refine ⟨⟨?_, ?_, ?_, hhint⟩, hlowest, ?_⟩
  · rw [hslots]
    rfl
  · rw [hslots, hper]
    norm_num
  · rw [hslots]
    norm_num
  · exact select_of_overflow hscan 0o100644 0 []

end Pmfs.Itable.Search
