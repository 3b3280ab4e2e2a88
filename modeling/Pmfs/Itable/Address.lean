import Pmfs.Inodes.Blocks
import Pmfs.Inodes.Writes
import Pmfs.Itable.Search
import Pmfs.Tree.Offsets

/-! # Inode numbers and the records in the inode table

An inode number is the byte offset of a slot in the inode table. `pmfs_new_inode` computes it by a
shift of an `int`, which is right for the slots below `2 ^ 24` (`numbers_exact_iff`).
`pmfs_get_inode` looks the number up in the tree of the table without comparing it with the size of
the table. Different slots have records that do not meet; but beyond the table it returns an address
too, or reads behind a metadata block, unless the tree has an empty way there, and
`pmfs_nfs_get_inode` lets the first number beyond the table through (`get_inode_bounded_iff`). -/

namespace Pmfs.Itable.Address

open Block.Model Tree.Model Tree.Own Tree.Inode Tree.Extend Tree.Offsets
open Itable.Model Itable.Search Lib.Radix Lib.RadixMap
open Inodes.Model (Fs SbInfo initInodeTable pmfsInitInodeTable pmfsCheckSize rootInode)
open Inodes.Writes (reached reached_of_lt findLoop32_eq)

/-! ### Numbers -/

/-- `ino = i << PMFS_INODE_BITS` in `pmfs_new_inode`: the shift is that of an `int`, and the result
becomes an `ino_t`. -/
def inoOf (i : ℕ) : ℕ := ((BitVec.ofNat 32 i <<< 7).signExtend 64).toNat

/-- `inode_nr = inode->i_ino >> PMFS_INODE_BITS` in `pmfs_free_inode`. -/
def inodeNr (ino : ℕ) : ℕ := ino >>> 7

theorem inoOf_eq (i : ℕ) : inoOf i = 128 * i % 2 ^ 32 + if 2 ^ 31 ≤
    128 * i % 2 ^ 32 then 2 ^ 64 - 2 ^ 32 else 0 := by
  have hval : (BitVec.ofNat 32 i <<< 7).toNat = 128 * i % 2 ^ 32 := by
    rw [BitVec.toNat_shiftLeft, BitVec.toNat_ofNat, Nat.shiftLeft_eq]
    omega
  unfold inoOf
  have hlt : 128 * i % 2 ^ 32 < 2 ^ 64 := (Nat.mod_lt _ (by norm_num)).trans (by norm_num)
  rw [BitVec.toNat_signExtend, BitVec.msb_eq_decide, BitVec.toNat_setWidth, hval,
    Nat.mod_eq_of_lt hlt]
  simp only [decide_eq_true_eq, Nat.add_one_sub_one]

theorem inoOf_of_lt {i : ℕ} (h : i < 2 ^ 24) : inoOf i = 128 * i := by
  rw [inoOf_eq]
  split_ifs <;> omega

theorem inodeNr_ne {i : ℕ} (h : 2 ^ 24 ≤ i) (hlt : i < 2 ^ 32) : inodeNr (inoOf i) ≠ i := by
  unfold inodeNr
  rw [inoOf_eq, Nat.shiftRight_eq_div_pow]
  split_ifs <;> omega

/-- **Main result.** The numbers of the slots of a table are right, and lead back to the slots,
exactly when the table has at most `2 ^ 24` slots. -/
theorem numbers_exact_iff (t : Table) :
    (∀ i < t.count, inoOf i = 128 * i ∧ inodeNr (inoOf i) = i) ↔ t.count ≤ 2 ^ 24 := by
  constructor
  · intro h
    by_contra hcon
    have hlt : 2 ^ 24 < t.count := Nat.lt_of_not_le hcon
    exact inodeNr_ne le_rfl (by norm_num) (h (2 ^ 24) hlt).2
  · intro hle i hi
    rw [inoOf_of_lt (hi.trans_le hle)]
    refine ⟨rfl, ?_⟩
    unfold inodeNr
    rw [Nat.shiftRight_eq_div_pow]
    omega

/-- A table for `2 ^ 24 + 1` inodes has the slot `2 ^ 24`, whose number becomes negative as an
`int`. -/
theorem number_overflows : ∃ t : Table, t = newTable (2 ^ 36) (2 ^ 24 + 1)
    (rootInode 0o755 0 0 0 0) ∧ 2 ^ 24 < t.count ∧ inoOf (2 ^ 24) = 2 ^ 64 - 2 ^ 31 ∧
    inodeNr (inoOf (2 ^ 24)) = 2 ^ 57 - 2 ^ 24 := by
  refine ⟨_, rfl, ?_, ?_, ?_⟩
  · decide +kernel
  · rw [inoOf_eq]
    norm_num
  · unfold inodeNr
    rw [inoOf_eq]
    norm_num [Nat.shiftRight_eq_div_pow]

/-! ### Lookup -/

/-- `pmfs_get_inode`: the byte offset of the record, 0 for the null pointer. -/
def pmfsGetInode (d : Dev) (inodeTable : PmfsInode) (ino : ℕ) : Option ℕ :=
  if ino = 0 then some 0
  else
    let block := ino >>> pmfsInodeBlkShift inodeTable
    (findLoop32 d.node inodeTable.height inodeTable.root block).map fun bp =>
      if bp = 0 then 0
      else
        let inoOffset := ino &&& (pmfsInodeBlkSize inodeTable - 1)
        bp + inoOffset

/-- What `iget_locked` returns: the null pointer, an inode in the cache with its generation, or a
new one. -/
inductive IgetLocked where
  | null
  | cached (generation : ℕ)
  | new

/-- `pmfs_iget`: the generation of the inode, or an error. `record` reads the record at a byte
offset. -/
def pmfsIget (d : Dev) (inodeTable : PmfsInode) (record : ℕ → PmfsInode)
    (found : IgetLocked) (ino : ℕ) : Option (Except Errno ℕ) :=
  match found with
  | .null => some (.error .ENOMEM)
  | .cached generation => some (.ok generation)
  | .new => (pmfsGetInode d inodeTable ino).map fun pi =>
    if pi = 0 then .error .EACCES
    -- `pmfs_read_inode` tests whether the inode is active
    else if freeTest (record pi) then .error .ESTALE
    else .ok (record pi).iGeneration

/-- `pmfs_nfs_get_inode`. -/
def pmfsNfsGetInode (d : Dev) (inodeTable : PmfsInode) (sInodesCount : UInt32)
    (record : ℕ → PmfsInode) (found : IgetLocked) (ino generation : ℕ) : Option (Except Errno ℕ) :=
  if ino < PMFS_ROOT_INO then some (.error .ESTALE)
  else if ino >>> 7 > sInodesCount.toNat then some (.error .ESTALE)
  else (pmfsIget d inodeTable record found ino).map fun r =>
    r.bind fun iGeneration =>
      if generation ≠ 0 ∧ iGeneration ≠ generation then .error .ESTALE else .ok iGeneration

/-! ### Tables -/

/-- The tables that `pmfs_init_inode_table` and growths lead to, on the device `d` where others own
`R`. `num_inodes` is an `int`. In between others may use the device, but do not write to the blocks
of the table. -/
inductive Reachable : Multiset ℕ → Dev → PmfsInode → UInt32 → Prop
  | init {R : Multiset ℕ} {d0 d : Dev} {table : PmfsInode} {sbi : SbInfo} {initsize numInodes : ℕ} :
      Owns d0 R → numInodes < 2 ^ 31 → pmfsInitInodeTable d0 initsize numInodes =
      some (d, table, sbi, none) → Reachable R d table sbi.sInodesCount
  | grow {R : Multiset ℕ} {fs fs' : Fs} {err o : Option Errno} :
      Reachable R fs.dev fs.inodeTable fs.sbi.sInodesCount →
      Inodes.Model.pmfsIncreaseInodeTableSize fs err = some (fs', o) →
      Reachable R fs'.dev fs'.inodeTable fs'.sbi.sInodesCount
  | others {R R' : Multiset ℕ} {d d' : Dev} {table : PmfsInode} {count : UInt32} :
      Reachable R d table count → (∀ x ∈ inodeBlocks d table, ∀ i, d'.node x i = d.node x i) →
      Owns d' (inodeBlocks d' table + R') → Reachable R' d' table count

/-- What holds of the table: it owns its blocks, and has a block at every index below its size. -/
structure Full (R : Multiset ℕ) (d : Dev) (table : PmfsInode) : Prop where
  wf : WellFormed R d table
  aligned : Aligned d table
  size : pmfsInodeBlkSize table ∣ table.iSize
  blocks : ∀ n < table.iSize / pmfsInodeBlkSize table, mapped d table n ≠ 0

variable {R R' : Multiset ℕ} {d d' : Dev} {table : PmfsInode} {count : UInt32} {i j n ino : ℕ}

theorem Full.le (h : Full R d table) : table.iSize / pmfsInodeBlkSize table ≤
    512 ^ table.height := by
  by_contra hcon
  exact h.blocks _ (Nat.lt_of_not_le hcon) (lookup_of_le le_rfl)

theorem Full.size_eq (h : Full R d table) :
    table.iSize = table.iSize / pmfsInodeBlkSize table * pmfsInodeBlkSize table :=
    (Nat.div_mul_cancel h.size).symm

theorem Full.lt (h : Full R d table) : table.iSize >>> 12 < 2 ^ 64 := by
  have hle := h.le
  have hpow : 512 ^ table.height ≤ 512 ^ 3 := Nat.pow_le_pow_right (by norm_num) h.wf.height
  have hblk : pmfsInodeBlkSize table ≤ 2 ^ 30 := by
    unfold pmfsInodeBlkSize
    rcases table.iBlkType with - | - | - <;> norm_num [blkTypeToShift]
  have hsize : table.iSize ≤ 512 ^ 3 * 2 ^ 30 := by
    rw [h.size_eq]
    exact Nat.mul_le_mul (hle.trans hpow) hblk
  rw [Nat.shiftRight_eq_div_pow]
  omega

theorem indexOf_end (table : PmfsInode) (q : ℕ) :
    indexOf table ((q * pmfsInodeBlkSize table) >>> 12) = q := by
  unfold indexOf pmfsInodeBlkShift pmfsInodeBlkSize
  rw [← Nat.shiftRight_add, Nat.shiftRight_eq_div_pow]
  rcases table.iBlkType with - | - | -
  · exact Nat.mul_div_cancel q (by norm_num [blkTypeToShift])
  · exact Nat.mul_div_cancel q (by norm_num [blkTypeToShift])
  · exact Nat.mul_div_cancel q (by norm_num [blkTypeToShift])

theorem Full.others (h : Full R d table) (hnode : ∀ x ∈ inodeBlocks d table, ∀ i,
    d'.node x i = d.node x i) (hown : Owns d' (inodeBlocks d' table + R')) : Full R' d' table := by
  have htree : treeOf d' table = treeOf d table := tree_congr hnode
  have hblocks : inodeBlocks d' table = inodeBlocks d table := by
    unfold inodeBlocks
    rw [htree]
  have hmapped : ∀ n, mapped d' table n = mapped d table n := by
    intro n
    unfold mapped
    rw [htree]
  refine ⟨⟨hown, h.wf.root, h.wf.height⟩, ⟨h.aligned.root, fun x hx i => ?_⟩,
    h.size, fun n hn => ?_⟩
  · rw [hblocks] at hx
    rw [hnode x hx i]
    exact h.aligned.blocks x hx i
  · rw [hmapped]
    exact h.blocks n hn

theorem unit_mul (table : PmfsInode) (q : ℕ) :
    (q * pmfsInodeBlkSize table) >>> 12 = q * unit table := by
  unfold pmfsInodeBlkSize unit pmfsInodeBlkShift
  rw [Nat.shiftRight_eq_div_pow]
  rcases table.iBlkType with - | - | - <;> simp only [blkTypeToShift] <;> omega

theorem lastIndex_blocks (table : PmfsInode) {q : ℕ} (hq : 0 < q)
    (hlt : q * pmfsInodeBlkSize table < 2 ^ 64) :
    lastIndex table 0 ((q * pmfsInodeBlkSize table) >>> 12) = q - 1 := by
  have hunit := unit_pos table
  have hle : (q * pmfsInodeBlkSize table) >>> 12 ≤ q * pmfsInodeBlkSize table :=
    Nat.shiftRight_le _ _
  rw [lastIndex_eq _ (by omega), unit_mul, indexOf, Nat.shiftRight_eq_div_pow, Nat.zero_add, ← unit]
  · obtain ⟨k, rfl⟩ := Nat.exists_eq_succ_of_ne_zero (Nat.pos_iff_ne_zero.mp hq)
    rw [Nat.succ_mul, Nat.add_sub_assoc hunit, Nat.mul_comm, Nat.mul_add_div hunit,
      Nat.div_eq_of_lt (Nat.sub_lt hunit (by norm_num)), Nat.add_zero, Nat.succ_sub_one]
  · rw [unit_mul]
    exact Nat.mul_pos hq hunit

theorem initInodeTable_lt (initsize : ℕ) {numInodes : ℕ} (h : numInodes < 2 ^ 31) :
    (initInodeTable initsize numInodes).iSize < 2 ^ 64 := by
  unfold initInodeTable
  dsimp only
  generalize hsize : (if numInodes = 0 then (if initsize ≥ 0x20000000 then 0x200000 else 4096)
    else numInodes <<< 7) = size
  have hle : size ≤ 2 ^ 38 := by
    rw [← hsize, Nat.shiftLeft_eq]
    split_ifs <;> omega
  generalize (if size ≥ 0x200000 then BlkType.b2M else .b4K) = b
  have hb : 2 ^ blkTypeToShift b ≤ 2 ^ 30 := by
    cases b <;> norm_num [blkTypeToShift]
  rw [Nat.shiftLeft_eq, Nat.shiftRight_eq_div_pow]
  have hdiv := Nat.div_mul_le_self (size + 2 ^ blkTypeToShift b - 1) (2 ^ blkTypeToShift b)
  omega

theorem full_init {d0 : Dev} {sbi : SbInfo} {initsize numInodes : ℕ} (hown : Owns d0 R)
    (hnum : numInodes < 2 ^ 31) (h : pmfsInitInodeTable d0 initsize numInodes = some (d, table, sbi,
    none)) : Full R d table := by
  obtain ⟨⟨d1, pi1, o1⟩, hrun, heq⟩ := Option.map_eq_some_iff.mp h
  simp only [Prod.mk.injEq] at heq
  obtain ⟨rfl, rfl, -, rfl⟩ := heq
  obtain ⟨q, hq, hsize⟩ := initInodeTable_size initsize numInodes
  have hlt := initInodeTable_lt initsize hnum
  have hroot : (initInodeTable initsize numInodes).root = 0 := rfl
  have hheight : (initInodeTable initsize numInodes).height = 0 := rfl
  generalize initInodeTable initsize numInodes = pi at hrun hsize hlt hroot hheight
  have hnone : inodeBlocks d0 pi = 0 := inodeBlocks_of_root hroot
  have hwf : WellFormed R d0 pi := wellFormed_of_root hown hroot hheight
  have haligned : Aligned d0 pi := by
    refine ⟨hroot ▸ Nat.dvd_zero _, fun x hx => ?_⟩
    rw [hnone] at hx
    exact absurd hx (Multiset.notMem_zero x)
  obtain ⟨hadd, hfill⟩ := alloc_run hwf hrun
  obtain ⟨hfilled, hlast⟩ := hfill rfl
  have hblk : pmfsInodeBlkSize pi1 = pmfsInodeBlkSize pi := by
    unfold pmfsInodeBlkSize
    rw [hadd.blkType]
  have hsize' : pi.iSize = q * pmfsInodeBlkSize pi := hsize
  rw [hsize', lastIndex_blocks pi hq (hsize' ▸ hlt)] at hfilled hlast
  have hindex : indexOf pi 0 = 0 := by
    exact Nat.zero_shiftRight _
  rw [hindex] at hfilled
  refine ⟨hadd.wellFormed, alloc_aligned hwf haligned hrun hadd.wellFormed, ?_, fun n hn => ?_⟩
  · rw [hadd.size, hblk, hsize']
    exact Nat.dvd_mul_left _ _
  · rw [hadd.size, hblk, hsize', Nat.mul_div_cancel _ (blkSize_pos pi)] at hn
    rw [mapped, lookup_of_lt (by omega)]
    exact hfilled.find_ne_zero (by norm_num) uniform_tree (Nat.zero_le _) (by omega)

theorem Full.grow {fs fs' : Fs} {err o : Option Errno} (h : Full R fs.dev fs.inodeTable)
    (he : Inodes.Model.pmfsIncreaseInodeTableSize fs err = some (fs', o)) :
    Full R fs'.dev fs'.inodeTable := by
  unfold Inodes.Model.pmfsIncreaseInodeTableSize at he
  cases err with
  | some e =>
    cases he
    exact h
  | none =>
    obtain ⟨d1, pi1, o1, hrun, hadd, hfill⟩ := alloc_added (fs.inodeTable.iSize >>> 12) 1 true h.wf
    have haligned := alloc_aligned h.wf h.aligned hrun hadd.wellFormed
    have hblk : pmfsInodeBlkSize pi1 = pmfsInodeBlkSize fs.inodeTable := by
      unfold pmfsInodeBlkSize
      rw [hadd.blkType]
    have hkept : ∀ n < fs.inodeTable.iSize / pmfsInodeBlkSize fs.inodeTable,
      mapped d1 pi1 n ≠ 0 := by
      intro n hn
      have hold := h.blocks n hn
      have heq : mapped d1 pi1 n = mapped fs.dev fs.inodeTable n := hadd.ext.keeps n hold
      rwa [heq]
    rw [hrun] at he
    cases o1 with
    | some e =>
      cases he
      refine ⟨hadd.wellFormed, haligned, ?_, ?_⟩
      · rw [hblk, hadd.size]
        exact h.size
      · rw [hblk, hadd.size]
        exact hkept
    | none =>
      cases he
      obtain ⟨hfilled, hlast⟩ := hfill rfl
      -- the new block is the one behind the table
      generalize hq : fs.inodeTable.iSize / pmfsInodeBlkSize fs.inodeTable = q at hkept
      have hsize : fs.inodeTable.iSize = q * pmfsInodeBlkSize fs.inodeTable := hq ▸ h.size_eq
      have hindex : indexOf fs.inodeTable (fs.inodeTable.iSize >>> 12) = q := by
        rw [hsize, indexOf_end]
      rw [lastIndex_one _ h.lt, hindex] at hfilled hlast
      have hnew : mapped d1 pi1 q ≠ 0 := by
        rw [mapped, lookup_of_lt hlast]
        exact hfilled.find_ne_zero (by norm_num) uniform_tree le_rfl le_rfl
      have hpi1 : pi1.iSize = q * pmfsInodeBlkSize pi1 := by
        rw [hadd.size, hblk, hsize]
      refine ⟨⟨hadd.wellFormed.owns, hadd.root, hadd.height⟩, ⟨haligned.root, haligned.blocks⟩, ?_,
        ?_⟩
      · show pmfsInodeBlkSize pi1 ∣ pi1.iSize + pmfsInodeBlkSize pi1
        rw [hpi1]
        exact Nat.dvd_add (Nat.dvd_mul_left _ _) (Nat.dvd_refl _)
      · show ∀ n < (pi1.iSize + pmfsInodeBlkSize pi1) / pmfsInodeBlkSize pi1, mapped d1 pi1 n ≠ 0
        rw [hpi1, ← Nat.succ_mul, Nat.mul_div_cancel _ (blkSize_pos pi1)]
        intro n hn
        rcases Nat.lt_or_eq_of_le (Nat.le_of_lt_succ hn) with hlt | rfl
        · exact hkept n hlt
        · exact hnew

/-- **Tables keep their blocks.** -/
theorem Reachable.full (h : Reachable R d table count) : Full R d table := by
  induction h with
  | init hown hnum hinit => exact full_init hown hnum hinit
  | grow _ hgrow ih => exact ih.grow hgrow
  | others _ hnode hown ih => exact ih.others hnode hown

/-! ### Addresses -/

/-- The block of the table that a number leads to. -/
def blockOf (table : PmfsInode) (ino : ℕ) : ℕ := reached table.height (ino / pmfsInodeBlkSize table)

theorem getInode_eq (h : Full R d table) (hino : ino ≠ 0) : pmfsGetInode d table ino =
    if blockOf table ino < 512 ^ table.height then
      some (if mapped d table (blockOf table ino) = 0 then 0
        else mapped d table (blockOf table ino) + ino % pmfsInodeBlkSize table)
    else none := by
  have hroot : table.root ≠ 0 ∨ table.height = 0 := by
    by_cases h0 : table.root = 0
    · exact Or.inr (h.wf.root h0)
    · exact Or.inl h0
  have hoff : ino &&& (pmfsInodeBlkSize table - 1) = ino % pmfsInodeBlkSize table :=
    Nat.and_two_pow_sub_one_eq_mod _ _
  unfold pmfsGetInode
  rw [if_neg hino]
  dsimp only
  rw [Nat.shiftRight_eq_div_pow, findLoop32_eq hroot, hoff]
  by_cases hin : blockOf table ino < 512 ^ table.height
  · rw [if_pos hin]
    exact congrArg (Option.map _) (if_pos hin)
  · rw [if_neg hin]
    exact congrArg (Option.map _) (if_neg hin)

/-- A number inside the table leads to its own record. -/
theorem getInode_inside (h : Full R d table) (hino : ino ≠ 0) (hlt : ino < table.iSize) :
    mapped d table (ino / pmfsInodeBlkSize table) ≠ 0 ∧ pmfsGetInode d table ino =
      some (mapped d table (ino / pmfsInodeBlkSize table) + ino % pmfsInodeBlkSize table) := by
  have hblock : ino / pmfsInodeBlkSize table < table.iSize / pmfsInodeBlkSize table := by
    refine Nat.div_lt_of_lt_mul ?_
    rwa [Nat.mul_comm, Nat.div_mul_cancel h.size]
  have hin := hblock.trans_le h.le
  have hmapped := h.blocks _ hblock
  have heq : blockOf table ino = ino / pmfsInodeBlkSize table := reached_of_lt hin
  refine ⟨hmapped, ?_⟩
  rw [getInode_eq h hino, heq, if_pos hin, if_neg hmapped]

theorem blocks_apart {m : ℕ} (h : Full R d table) (hnm : n ≠ m) (hn : mapped d table n ≠ 0)
    (hm : mapped d table m ≠ 0) : mapped d table n + pmfsInodeBlkSize table ≤ mapped d table m ∨
      mapped d table m + pmfsInodeBlkSize table ≤ mapped d table n := by
  have hdis := h.wf.disjoint hnm hn hm
  obtain ⟨a, ha⟩ := h.aligned.mapped n
  obtain ⟨b, hb⟩ := h.aligned.mapped m
  have hblk : pmfsInodeBlkSize table = 4096 * pmfsGetNumblocks table.iBlkType := by
    unfold pmfsInodeBlkSize
    rcases table.iBlkType with - | - | - <;> rfl
  have hblocknr : ∀ x, pmfsGetBlocknr (4096 * x) = x := by
    intro x
    unfold pmfsGetBlocknr
    rw [Nat.shiftRight_eq_div_pow]
    omega
  rw [ha, hb, hblocknr, hblocknr] at hdis
  rw [ha, hb, hblk]
  by_contra hcon
  have hpos := numblocks_pos table.iBlkType
  -- the later one of the two first pages is in both
  have h1 : max a b ∈ runBlocks table.iBlkType a := mem_runBlocks.mpr (by omega)
  have h2 : max a b ∈ runBlocks table.iBlkType b := mem_runBlocks.mpr (by omega)
  exact Multiset.disjoint_left.mp hdis h1 h2

theorem records_apart (h : Full R d table) (hi : 0 < i) (hij : i < j) (hj : 128 * j < table.iSize) :
    ∃ a b, pmfsGetInode d table (128 * i) = some a ∧ pmfsGetInode d table (128 * j) = some b ∧
    a ≠ 0 ∧ b ≠ 0 ∧
      (a + 128 ≤ b ∨ b + 128 ≤ a) := by
  obtain ⟨hmi, hgi⟩ := getInode_inside h (show 128 * i ≠ 0 by omega) (by omega)
  obtain ⟨hmj, hgj⟩ := getInode_inside h (show 128 * j ≠ 0 by omega) hj
  refine ⟨_, _, hgi, hgj, by omega, by omega, ?_⟩
  have hdvd : 128 ∣ pmfsInodeBlkSize table := by
    unfold pmfsInodeBlkSize
    rcases table.iBlkType with - | - | - <;> norm_num [blkTypeToShift]
  have hdi := Nat.div_add_mod (128 * i) (pmfsInodeBlkSize table)
  have hdj := Nat.div_add_mod (128 * j) (pmfsInodeBlkSize table)
  have hmodi := Nat.mod_lt (128 * i) (blkSize_pos table)
  have hmodj := Nat.mod_lt (128 * j) (blkSize_pos table)
  obtain ⟨oi, hoi⟩ : 128 ∣ 128 * i % pmfsInodeBlkSize table :=
    (Nat.dvd_mod_iff hdvd).mpr (Nat.dvd_mul_right _ _)
  obtain ⟨oj, hoj⟩ : 128 ∣ 128 * j % pmfsInodeBlkSize table :=
    (Nat.dvd_mod_iff hdvd).mpr (Nat.dvd_mul_right _ _)
  by_cases heq : 128 * i / pmfsInodeBlkSize table = 128 * j / pmfsInodeBlkSize table
  · -- two slots of one block
    rw [heq] at hdi ⊢
    omega
  · have hapart := blocks_apart h heq hmi hmj
    obtain ⟨s, hs⟩ := hdvd
    omega

/-! ### Handles -/

/-- The inode that `pmfs_iget` returns is refused: it is not active, or has another generation. -/
def Stale (d : Dev) (table : PmfsInode) (record : ℕ → PmfsInode) (found : IgetLocked)
    (ino generation : ℕ) : Prop :=
  match found with
  | .null => False
  | .cached iGeneration => generation ≠ 0 ∧ iGeneration ≠ generation
  | .new =>
    let pi := mapped d table (blockOf table ino) + ino % pmfsInodeBlkSize table
    blockOf table ino < 512 ^ table.height ∧ mapped d table (blockOf table ino) ≠ 0 ∧
      (freeTest (record pi) = true ∨ generation ≠ 0 ∧ (record pi).iGeneration ≠ generation)

theorem nfs_stale_iff {record : ℕ → PmfsInode} {found : IgetLocked} {generation : ℕ}
    (h : Full R d table) (hino : PMFS_ROOT_INO ≤ ino) (hcount : ino >>> 7 ≤ count.toNat) :
    pmfsNfsGetInode d table count record found ino generation = some (.error .ESTALE) ↔
      Stale d table record found ino generation := by
  have hne : ino ≠ 0 := by
    unfold PMFS_ROOT_INO at hino
    omega
  unfold pmfsNfsGetInode
  rw [if_neg (Nat.not_lt.mpr hino), if_neg (Nat.not_lt.mpr hcount)]
  cases found with
  | null => simp [pmfsIget, Stale, Except.bind]
  | cached g => simp [pmfsIget, Stale, Except.bind]
  | new =>
    unfold pmfsIget Stale
    rw [getInode_eq h hne]
    by_cases hin : blockOf table ino < 512 ^ table.height
    · rw [if_pos hin]
      by_cases hm : mapped d table (blockOf table ino) = 0
      · simp [hin, hm, Except.bind]
      · have hpi : mapped d table (blockOf table ino) + ino % pmfsInodeBlkSize table ≠ 0 := by omega
        rw [if_neg hm]
        generalize mapped d table (blockOf table ino) + ino % pmfsInodeBlkSize table = pi at hpi
        by_cases hfree : freeTest (record pi) = true
        · simp [hin, hm, hpi, hfree, Except.bind]
        · simp [hin, hm, hpi, hfree, Except.bind]
    · simp [hin]

/-- What the addresses of inodes should keep to: a number beyond the table has no record, the
records of different slots do not meet, and a handle beyond the table is stale. -/
structure Bounded (d : Dev) (table : PmfsInode) (count : UInt32) (record : ℕ → PmfsInode)
    (found : IgetLocked) (ino generation : ℕ) : Prop where
  null : ino = 0 ∨ table.iSize ≤ ino → pmfsGetInode d table ino = some 0
  distinct : ∀ i j, 0 < i → i < j → 128 * j < table.iSize →
    ∃ a b, pmfsGetInode d table (128 * i) = some a ∧ pmfsGetInode d table (128 * j) = some b ∧
    a ≠ 0 ∧ b ≠ 0 ∧ (a + 128 ≤ b ∨ b + 128 ≤ a)
  stale : count.toNat ≤ ino >>> 7 →
    pmfsNfsGetInode d table count record found ino generation = some (.error .ESTALE)

/-- A number beyond the table leads to a place in the tree where there is no block. -/
def LeadsNowhere (d : Dev) (table : PmfsInode) (ino : ℕ) : Prop :=
  blockOf table ino < 512 ^ table.height ∧ mapped d table (blockOf table ino) = 0

theorem getInode_null_iff (h : Full R d table) (hino : ino ≠ 0) :
    pmfsGetInode d table ino = some 0 ↔ LeadsNowhere d table ino := by
  unfold LeadsNowhere
  rw [getInode_eq h hino]
  by_cases hin : blockOf table ino < 512 ^ table.height
  · by_cases hm : mapped d table (blockOf table ino) = 0
    · simp [hin, hm]
    · simp [hin, hm]
  · simp [hin]

/-- **Main result.** The addresses keep to the table exactly when a number beyond the table leads to
a place in the tree without a block, and the handle is not that of the first slot beyond the count,
or the inode it leads to is stale. -/
theorem get_inode_bounded_iff (h : Reachable R d table count) (record : ℕ → PmfsInode)
    (found : IgetLocked) (ino generation : ℕ) : Bounded d table count record found ino generation ↔
      (ino ≠ 0 → table.iSize ≤ ino → LeadsNowhere d table ino) ∧
        (PMFS_ROOT_INO ≤ ino → ino >>> 7 = count.toNat →
        Stale d table record found ino generation) := by
  have hfull := h.full
  constructor
  · rintro ⟨hnull, -, hstale⟩
    refine ⟨fun hino hle => (getInode_null_iff hfull hino).mp (hnull (Or.inr hle)),
      fun hroot hcount => ?_⟩
    exact (nfs_stale_iff hfull hroot hcount.le).mp (hstale hcount.ge)
  · rintro ⟨hnowhere, hstale⟩
    refine ⟨fun hout => ?_, fun i j hi hij hj => records_apart hfull hi hij hj, fun hcount => ?_⟩
    · by_cases hino : ino = 0
      · unfold pmfsGetInode
        rw [if_pos hino]
      · exact (getInode_null_iff hfull hino).mpr (hnowhere hino (hout.resolve_left hino))
    · by_cases hroot : ino < PMFS_ROOT_INO
      · unfold pmfsNfsGetInode
        rw [if_pos hroot]
      · rcases Nat.lt_or_eq_of_le hcount with hlt | heq
        · unfold pmfsNfsGetInode
          rw [if_neg hroot, if_pos hlt]
        · exact (nfs_stale_iff hfull (Nat.le_of_not_lt hroot) heq.ge).mpr
            (hstale (Nat.le_of_not_lt hroot) heq.symm)

/-! ### A small table -/

/-- A device of 1 MB with a journal of 64 KB, before the inode table is made. -/
def tableDev : Dev :=
  ⟨pmfsInitBlockmap (Balloc.fresh (0x100000 >>> 12)) (4096 + 0x10000), [], fun _ _ => 0, [], false⟩

theorem owns_tableDev : ∃ R, Owns tableDev R := by
  have hsize : pmfsCheckSize 0x100000 0x10000 0 = true := by decide
  exact ⟨_, Inodes.Blocks.owns_init [] (fun _ _ => 0) hsize⟩

/-- In a table of two blocks the number of slot 70 lies beyond the table, and leads to a place
without a block. -/
theorem get_inode_bounded_beyond : ∃ R d table count, Reachable R d table count ∧
    table.iSize ≤ 8960 ∧ Bounded d table count (fun _ => zeroInode) .new 8960 0 := by
  obtain ⟨R, hown⟩ := owns_tableDev
  obtain ⟨⟨d, table, sbi, o⟩, hrun, rfl, ⟨fs, o'⟩, hgrow, hsize, hcount, hnowhere⟩ :
      ∃ r ∈ pmfsInitInodeTable tableDev 0x100000 0, r.2.2.2 = none ∧
        ∃ g ∈ Inodes.Model.pmfsIncreaseInodeTableSize
          ⟨r.1, r.2.2.1, r.2.1, fun _ => zeroInode, fun n => newInode 33188 0 0 0 n, ∅⟩ none,
        g.1.inodeTable.iSize = 8192 ∧ g.1.sbi.sInodesCount = 64 ∧
          blockOf g.1.inodeTable 8960 < 512 ^ g.1.inodeTable.height ∧
          mapped g.1.dev g.1.inodeTable (blockOf g.1.inodeTable 8960) = 0 := by
    decide +kernel
  have hreach : Reachable R fs.dev fs.inodeTable fs.sbi.sInodesCount :=
    .grow (.init hown (by norm_num) hrun) hgrow
  dsimp only at hsize hcount
  refine ⟨R, fs.dev, fs.inodeTable, _, hreach, by omega,
    (get_inode_bounded_iff hreach _ _ _ _).mpr ⟨fun _ _ => hnowhere, fun _ heq => ?_⟩⟩
  rw [hcount] at heq
  exact absurd heq (by decide)

/-- The number of slot 33 in a table of 32 slots leads to the record of slot 1, and the handle of
slot 32 is let through. -/
theorem get_inode_aliases : ∃ R d table count, Reachable R d table count ∧
    table.iSize = 4096 ∧ count = 32 ∧ (∃ a, a ≠ 0 ∧ pmfsGetInode d table 4224 = some a ∧
    pmfsGetInode d table 128 = some a) ∧
    pmfsNfsGetInode d table count (fun _ => file) .new 4096 0 = some (.ok 0) := by
  obtain ⟨R, hown⟩ := owns_tableDev
  obtain ⟨⟨d, table, sbi, o⟩, hrun, rfl, hsize, hcount, ⟨a, ha, hne, hroot⟩, hnfs⟩ :
      ∃ r ∈ pmfsInitInodeTable tableDev 0x100000 0,
      r.2.2.2 = none ∧ r.2.1.iSize = 4096 ∧ r.2.2.1.sInodesCount = 32 ∧
        (∃ a ∈ pmfsGetInode r.1 r.2.1 4224, a ≠ 0 ∧ pmfsGetInode r.1 r.2.1 128 = some a) ∧
        (∃ g ∈ pmfsNfsGetInode r.1 r.2.1 r.2.2.1.sInodesCount (fun _ => file) .new 4096 0,
        g.toOption = some 0) := by
    decide +kernel
  obtain ⟨g, hg, hok⟩ := hnfs
  have hgood : g = .ok 0 := by
    cases g with
    | error e => simp [Except.toOption] at hok
    | ok n =>
      rw [Except.toOption, Option.some.injEq] at hok
      rw [hok]
  exact ⟨R, d, table, _, .init hown (by norm_num) hrun, hsize, hcount,
    ⟨a, hne, ha, hroot⟩, hgood ▸ hg⟩

end Pmfs.Itable.Address
