import Pmfs.Tree.Region
import Pmfs.Tree.Cut
import Pmfs.Inodes.Blocks
import Pmfs.Inodes.Regular

/-! # Seeking data and holes

`pmfs_llseek` with `SEEK_DATA` and `SEEK_HOLE` returns what `pmfs_find_region` finds. `dataPos` and
`holePos` are the positions that a caller asks for. `seek_data` and `seek_hole` say what the code
returns in a file with a tree: a search for data goes too far when it begins in the middle of a
missing subtree, a search for a hole goes to the end of the file when there is no data behind the
offset, and both read beyond a metadata block when the file is longer than its tree.
`seek_exact_iff` says for which files and offsets the answers are right. -/

namespace Pmfs.Inodes.Seek

open Lib.First Lib.Radix Lib.RadixMap
open Tree.Model Tree.Own Tree.Inode Tree.Extend Tree.Region
open Inodes.Blocks
open Tree.Cut (newDev plainFile)
open Inodes.Regular (File)

/-- The origins that `pmfs_llseek` handles itself. -/
inductive Origin where
  | SEEK_DATA
  | SEEK_HOLE
deriving DecidableEq, Repr

/-- `s_maxbytes`, as `pmfs_max_size` gives it. -/
def sMaxbytes : ℕ := 1 <<< (3 * 9 + 12) - 1

/-- An `unsigned long` assigned to an `int`. -/
def toInt (x : ℕ) : ℤ := if x % 2 ^ 32 < 2 ^ 31 then (x % 2 ^ 32 : ℕ) else (x % 2 ^ 32 : ℕ) - 2 ^ 32

/-- `pmfs_llseek`: the new `f_pos` and the value that is returned. -/
def pmfsLlseek (f : File) (fPos offset : ℕ) (origin : Origin) : Option (ℕ × ℤ) :=
  (pmfsFindRegion f.d f.inode f.pi offset (origin == .SEEK_HOLE)).map fun r =>
    let retval := toInt r.1
    if retval ≠ 0 then (fPos, retval)
    else if r.2 ≥ 2 ^ 63 ∨ r.2 > sMaxbytes then (fPos, -22)
    else (r.2, r.2)

/-- What `pmfs_llseek` returns. -/
def seeks (f : File) (fPos offset : ℕ) (origin : Origin) : Option ℤ :=
  (pmfsLlseek f fPos offset origin).map Prod.snd

/-- The position lies in a mapped block. -/
def InData (f : File) (x : ℕ) : Prop := mapped f.d f.pi (x / pmfsInodeBlkSize f.pi) ≠ 0

/-- The first position from `offset` on that lies in a mapped block, `-ENXIO` when there is none. -/
noncomputable def dataPos (f : File) (offset : ℕ) : ℤ :=
  if first (InData f) offset f.inode.iSize < f.inode.iSize then
    first (InData f) offset f.inode.iSize
  else -6

/-- The first position from `offset` on that lies in an unmapped block, the size when there is none.
-/
noncomputable def holePos (f : File) (offset : ℕ) : ℤ := first (¬ InData f ·) offset f.inode.iSize

variable {f : File} {fPos offset a b g x blocks : ℕ} {d : Dev} {pi : PmfsInode}

/-! ### Words and blocks -/

@[simp] theorem toInt_zero : toInt 0 = 0 := by decide

@[simp] theorem toInt_enxio : toInt enxioResult = -6 := by decide

theorem blkSize_le (pi : PmfsInode) : pmfsInodeBlkSize pi ≤ 2 ^ 30 := by
  unfold pmfsInodeBlkSize
  cases pi.iBlkType <;> decide

theorem le_blkSize (pi : PmfsInode) : 2 ^ 12 ≤ pmfsInodeBlkSize pi := by
  unfold pmfsInodeBlkSize
  cases pi.iBlkType <;> decide

theorem shiftRight_blk (pi : PmfsInode) (x : ℕ) :
    x >>> pmfsInodeBlkShift pi = x / pmfsInodeBlkSize pi :=
  Nat.shiftRight_eq_div_pow x _

/-- Passing over `blocks` blocks leads to the beginning of a block. -/
theorem passBlocks_eq (hpos : 0 < blocks) (hb : blocks < 2 ^ 32)
    (ho : offset < 2 ^ 39) : passBlocks (pmfsInodeBlkShift pi) offset blocks =
      (offset / pmfsInodeBlkSize pi + blocks) * pmfsInodeBlkSize pi := by
  have hB := blkSize_le pi
  have hmod := Nat.mod_lt offset (blkSize_pos pi)
  have hdm := Nat.div_add_mod' offset (pmfsInodeBlkSize pi)
  have hmul : blocks * pmfsInodeBlkSize pi ≤ 2 ^ 32 * 2 ^ 30 := Nat.mul_le_mul hb.le hB
  have hpred : (blocks - 1) * pmfsInodeBlkSize pi + pmfsInodeBlkSize pi =
    blocks * pmfsInodeBlkSize pi := by
    rw [← Nat.succ_mul, Nat.succ_eq_add_one, Nat.sub_add_cancel hpos]
  have hone : 1 <<< pmfsInodeBlkShift pi = pmfsInodeBlkSize pi := Nat.one_shiftLeft _
  have hmask : offset &&& pmfsInodeBlkSize pi - 1 = offset % pmfsInodeBlkSize pi :=
    Nat.and_two_pow_sub_one_eq_mod offset _
  have hshift : ∀ n, n <<< pmfsInodeBlkShift pi = n * pmfsInodeBlkSize pi :=
    fun n => Nat.shiftLeft_eq n _
  unfold passBlocks
  simp only [hone, hmask, hshift]
  rw [show (blocks + (2 ^ 64 - 1)) % 2 ^ 64 = blocks - 1 by omega, Nat.add_mul]
  split_ifs with h <;> omega

/-! ### What the code returns -/

theorem seeks_eq {r : ℕ × ℕ} {origin : Origin}
    (h : pmfsFindRegion f.d f.inode f.pi offset (origin == .SEEK_HOLE) = some r) :
    seeks f fPos offset origin = some (if toInt r.1 ≠ 0 then toInt r.1
      else if r.2 > sMaxbytes then -22 else r.2) := by
  unfold seeks pmfsLlseek
  rw [h, Option.map_some, Option.map_some, Option.some.injEq]
  have hmax : sMaxbytes < 2 ^ 63 := by decide
  by_cases hret : toInt r.1 ≠ 0
  · simp only [if_pos hret]
  · rw [if_neg hret]
    by_cases hbig : r.2 > sMaxbytes
    · simp only [if_neg hret, if_pos hbig, if_pos (Or.inr hbig : r.2 ≥ 2 ^ 63 ∨ r.2 > sMaxbytes)]
    · simp only [if_neg hret, if_neg hbig,
        if_neg (show ¬ (r.2 ≥ 2 ^ 63 ∨ r.2 > sMaxbytes) by omega)]

theorem seeks_offset {origin : Origin} {x : ℕ}
    (h : pmfsFindRegion f.d f.inode f.pi offset (origin == .SEEK_HOLE) = some (0, x)) :
    seeks f fPos offset origin = some (if x > sMaxbytes then -22 else (x : ℤ)) := by
  rw [seeks_eq h]
  simp

/-! ### The answers that are asked for -/

section Answers

variable (hoff : offset < f.inode.iSize)
include hoff

/-- The first mapped index from the block of the offset on, up to the block of the size. -/
theorem first_inData : first (InData f) offset f.inode.iSize = min f.inode.iSize (max offset
    (first (mapped f.d f.pi · ≠ 0) (offset / pmfsInodeBlkSize f.pi)
      (f.inode.iSize / pmfsInodeBlkSize f.pi + 1) * pmfsInodeBlkSize f.pi)) :=
  first_div (P := (mapped f.d f.pi · ≠ 0)) (blkSize_pos f.pi) hoff

theorem first_notData : first (¬ InData f ·) offset f.inode.iSize = min f.inode.iSize (max offset
    (first (mapped f.d f.pi · = 0) (offset / pmfsInodeBlkSize f.pi)
      (f.inode.iSize / pmfsInodeBlkSize f.pi + 1) * pmfsInodeBlkSize f.pi)) := by
  rw [← first_div (blkSize_pos f.pi) hoff]
  exact first_congr hoff.le fun n _ _ => not_not

end Answers

/-! ### Files with a tree -/

/-- The search from the offset walks through the tree. -/
structure Walks (f : File) (offset : ℕ) : Prop where
  offset : offset < f.inode.iSize
  size : f.inode.iSize ≤ sMaxbytes
  iBlocks : f.inode.iBlocks ≠ 0
  root : f.pi.root ≠ 0
  height_ne : f.pi.height ≠ 0
  height : f.pi.height ≤ 3

/-- The index of the block of an offset. -/
def blockOf (f : File) (x : ℕ) : ℕ := x / pmfsInodeBlkSize f.pi

/-- The first mapped index from the block of the offset on, one more than the block of the size when
there is none up to it. -/
noncomputable def firstData (f : File) (offset : ℕ) : ℕ :=
  first (mapped f.d f.pi · ≠ 0) (blockOf f offset) (blockOf f f.inode.iSize + 1)

/-- The first unmapped index from the block of the offset on, one more than the block of the size
when there is none up to it. -/
noncomputable def firstHole (f : File) (offset : ℕ) : ℕ :=
  first (mapped f.d f.pi · = 0) (blockOf f offset) (blockOf f f.inode.iSize + 1)

/-- How far the block of the offset lies inside a missing subtree. -/
def gapOf (f : File) (offset : ℕ) : ℕ := inGap 512 f.pi.height (treeOf f.d f.pi) (blockOf f offset)

section Walk

variable (hw : Walks f offset)
include hw

theorem Walks.blockOf_le : blockOf f offset ≤ blockOf f f.inode.iSize :=
  Nat.div_le_div_right hw.offset.le

theorem Walks.blockOf_lt : blockOf f f.inode.iSize < 2 ^ 27 := by
  have hsize := hw.size
  have hmax : sMaxbytes < 2 ^ 39 := by decide
  have hB := le_blkSize f.pi
  unfold blockOf
  rw [Nat.div_lt_iff_lt_mul (blkSize_pos f.pi)]
  calc f.inode.iSize < 2 ^ 27 * 2 ^ 12 := by omega
    _ ≤ 2 ^ 27 * pmfsInodeBlkSize f.pi := Nat.mul_le_mul_left _ hB

theorem Walks.region (hole : Bool) : pmfsFindRegion f.d f.inode f.pi offset hole =
    (recursiveFindRegion f.d.node hole f.pi.height f.pi.root (blockOf f offset)
    (blockOf f f.inode.iSize)
      false false).map (regionResult (pmfsInodeBlkShift f.pi) f.inode.iSize offset hole) := by
  unfold pmfsFindRegion blockOf
  simp only [if_neg (not_le.mpr hw.offset), if_neg (not_or.mpr ⟨hw.iBlocks, hw.root⟩),
    if_neg hw.height_ne, ge_iff_le, shiftRight_blk]

theorem seek_data (h : firstData f offset ≤ blockOf f f.inode.iSize) :
    seeks f fPos offset .SEEK_DATA =
    some (if firstData f offset = blockOf f offset then (offset : ℤ)
      else if (firstData f offset + gapOf f offset) * pmfsInodeBlkSize f.pi > sMaxbytes then -22
      else ((firstData f offset + gapOf f offset) * pmfsInodeBlkSize f.pi : ℕ)) := by
  have hlt := hw.blockOf_lt
  have hmax : sMaxbytes < 2 ^ 39 := by decide
  have hsize := hw.size
  have hoff := hw.offset
  have hD : blockOf f offset ≤ firstData f offset := le_first (Nat.le_succ_of_le hw.blockOf_le)
  have hgap : gapOf f offset < 2 ^ 27 :=
    (inGap_lt (by omega)).trans_le (Nat.pow_le_pow_right (by omega) hw.height)
  obtain ⟨r, hr, hreg⟩ := inode_data hw.height_ne false hw.root hw.blockOf_le (by omega) (Or.inl h)
  have hdata : r.dataFound = true := hreg.data.trans (decide_eq_true (Nat.lt_succ_of_le h))
  have hblocks : r.blocks = firstData f offset - blockOf f offset + gapOf f offset :=
    hreg.blocks (Or.inl (Nat.lt_succ_of_le h))
  have hhole : r.holeFound = decide (blockOf f offset < firstData f offset) := hreg.hole
  have hregion := hw.region false
  rw [hr, Option.map_some] at hregion
  by_cases heq : firstData f offset = blockOf f offset
  · rw [heq, decide_eq_false (lt_irrefl _)] at hhole
    have hres : regionResult (pmfsInodeBlkShift f.pi) f.inode.iSize offset false r =
      (0, offset) := by
      simp [regionResult, hdata, hhole]
    rw [hres] at hregion
    rw [seeks_offset hregion, if_neg (by omega), if_pos heq]
  · rw [decide_eq_true (by omega)] at hhole
    have hres : regionResult (pmfsInodeBlkShift f.pi) f.inode.iSize offset false r =
        (0, (firstData f offset + gapOf f offset) * pmfsInodeBlkSize f.pi) := by
      simp only [regionResult, hdata, hhole, hblocks, Bool.not_true, Bool.and_false, Bool.false_and,
        Bool.false_eq_true, if_false, Prod.mk.injEq, true_and]
      rw [passBlocks_eq (by omega) (by omega) (by omega), show offset / pmfsInodeBlkSize f.pi =
        blockOf f offset from rfl, ← Nat.add_assoc, Nat.add_sub_cancel' hD]
    rw [hres] at hregion
    rw [seeks_offset hregion, if_neg heq]

/-- A search for data that finds none up to the size of the file. -/
theorem seek_data_none (h : ¬ firstData f offset ≤ blockOf f f.inode.iSize) :
    seeks f fPos offset .SEEK_DATA = if blockOf f f.inode.iSize <
    512 ^ f.pi.height then some (-6) else none := by
  have hlt := hw.blockOf_lt
  have hregion := hw.region false
  have hend : firstData f offset = blockOf f f.inode.iSize + 1 :=
    le_antisymm (first_le (Nat.le_succ_of_le hw.blockOf_le)) (by omega)
  split_ifs with hin
  · obtain ⟨r, hr, hreg⟩ := inode_data hw.height_ne false hw.root hw.blockOf_le (by omega)
      (Or.inr hin)
    have hdata : r.dataFound = false :=
      hreg.data.trans (decide_eq_false (not_lt.mpr (Nat.succ_le_of_lt (not_le.mp h))))
    have hhole : r.holeFound = true := by
      have hle := hw.blockOf_le
      exact hreg.hole.trans
        (by rw [Bool.false_or]; exact decide_eq_true (by unfold firstData at hend; omega))
    have hres : regionResult (pmfsInodeBlkShift f.pi) f.inode.iSize offset false r =
      (enxioResult, offset) := by
      simp [regionResult, hdata, hhole]
    rw [hr, Option.map_some, hres] at hregion
    rw [seeks_eq hregion, toInt_enxio]
    simp
  · rw [inode_data_none hw.height_ne hw.blockOf_le (by omega) hend (not_lt.mp hin)] at hregion
    unfold seeks pmfsLlseek
    rw [show (Origin.SEEK_DATA == Origin.SEEK_HOLE) = false from rfl, hregion]
    rfl

theorem holePos_eq : holePos f offset =
    (min f.inode.iSize (max offset (firstHole f offset * pmfsInodeBlkSize f.pi)) : ℕ) :=
  congrArg Nat.cast (first_notData hw.offset)

/-- Where the walk for a hole goes when there is data. -/
theorem holeOffset (hdata : firstData f offset ≤ blockOf f f.inode.iSize) :
    regionResult (pmfsInodeBlkShift f.pi) f.inode.iSize offset true
      (holeRegion (mapped f.d f.pi) (blockOf f offset) (blockOf f f.inode.iSize + 1) false false) =
    (0, min f.inode.iSize (max offset (firstHole f offset * pmfsInodeBlkSize f.pi))) := by
  have hB := blkSize_pos f.pi
  have hle := hw.blockOf_le
  have hlt := hw.blockOf_lt
  have hoff := hw.offset
  have hsize := hw.size
  have hmax : sMaxbytes < 2 ^ 39 := by decide
  have hH : blockOf f offset ≤ firstHole f offset := le_first (Nat.le_succ_of_le hle)
  have hHle : firstHole f offset ≤ blockOf f f.inode.iSize + 1 := first_le (Nat.le_succ_of_le hle)
  have hfirst : blockOf f offset * pmfsInodeBlkSize f.pi ≤ offset := Nat.div_mul_le_self _ _
  have hreg : holeRegion (mapped f.d f.pi) (blockOf f offset) (blockOf f f.inode.iSize +
    1) false false =
      ⟨firstHole f offset - blockOf f offset, true,
        decide (firstHole f offset < blockOf f f.inode.iSize + 1)⟩ := by
    unfold firstData at hdata
    simp [holeRegion, firstHole, Nat.lt_succ_of_le hdata]
  rw [hreg]
  by_cases hend : firstHole f offset = blockOf f f.inode.iSize + 1
  · have hlast : f.inode.iSize < (blockOf f f.inode.iSize + 1) * pmfsInodeBlkSize f.pi :=
      (Nat.div_lt_iff_lt_mul hB).mp (Nat.lt_succ_self _)
    simp only [regionResult, hend, lt_irrefl, decide_false, Bool.not_true, Bool.not_false,
      Bool.and_self, if_true, Bool.false_eq_true, if_false, Prod.mk.injEq, true_and]
    omega
  have hhole : firstHole f offset < blockOf f f.inode.iSize + 1 := by omega
  by_cases hself : firstHole f offset = blockOf f offset
  · have hself' : decide (blockOf f offset < blockOf f f.inode.iSize + 1) = true :=
      decide_eq_true (by omega)
    simp only [regionResult, hself, hself', Nat.sub_self, Bool.not_true,
      Bool.and_false, Bool.false_and, Bool.true_and, BEq.rfl, if_true, Bool.false_eq_true, if_false,
      Prod.mk.injEq, true_and]
    omega
  · -- the first hole lies in a later block
    have hnext : offset < firstHole f offset * pmfsInodeBlkSize f.pi :=
      (Nat.div_lt_iff_lt_mul hB).mp (show blockOf f offset < firstHole f offset by omega)
    have hlast : firstHole f offset * pmfsInodeBlkSize f.pi ≤ f.inode.iSize :=
      (Nat.le_div_iff_mul_le hB).mp (show firstHole f offset ≤ blockOf f f.inode.iSize by omega)
    have hne : (firstHole f offset - blockOf f offset == 0) = false := by
      rw [beq_eq_false_iff_ne]
      omega
    simp only [regionResult, decide_eq_true hhole, hne, Bool.not_true,
      Bool.and_false, Bool.false_and, Bool.false_eq_true, if_false, Prod.mk.injEq, true_and]
    rw [passBlocks_eq (by omega) (by omega) (by omega), show offset / pmfsInodeBlkSize f.pi =
      blockOf f offset from rfl, Nat.add_sub_cancel' hH]
    omega

/-- A search for a hole: without data up to the size of the file it goes there. -/
theorem seek_hole (hin : blockOf f f.inode.iSize < 512 ^ f.pi.height) :
    seeks f fPos offset .SEEK_HOLE = some (if firstData f offset ≤ blockOf f f.inode.iSize
      then holePos f offset else f.inode.iSize) := by
  have hle := hw.blockOf_le
  have hsize := hw.size
  have hregion := hw.region true
  rw [inode_hole hw.height_ne hw.root hle hin, Option.map_some] at hregion
  split_ifs with hdata
  · rw [holeOffset hw hdata] at hregion
    rw [seeks_offset hregion, if_neg (by omega), holePos_eq hw]
  · -- the block of the offset is itself a hole
    have hend : firstData f offset = blockOf f f.inode.iSize + 1 :=
      le_antisymm (first_le (Nat.le_succ_of_le hle)) (by omega)
    have hreg : holeRegion (mapped f.d f.pi) (blockOf f offset) (blockOf f f.inode.iSize +
      1) false false =
        ⟨0, false, true⟩ :=
      holeRegion_hole (by omega) fun n ha hb => not_not.mp
        ((first_eq_end_iff (Nat.le_succ_of_le hle)).mp hend n ha hb)
    have hres : regionResult (pmfsInodeBlkShift f.pi) f.inode.iSize offset true ⟨0, false, true⟩ =
        (0, f.inode.iSize) := rfl
    rw [hreg, hres] at hregion
    rw [seeks_offset hregion, if_neg (by omega)]

theorem seek_hole_outside (hin : ¬ blockOf f f.inode.iSize < 512 ^ f.pi.height) :
    seeks f fPos offset .SEEK_HOLE = none := by
  have hlt := hw.blockOf_lt
  have hregion := hw.region true
  rw [inode_hole_outside hw.height_ne hw.blockOf_le (by omega) (not_lt.mp hin)] at hregion
  unfold seeks pmfsLlseek
  rw [show (Origin.SEEK_HOLE == Origin.SEEK_HOLE) = true from rfl, hregion]
  rfl

theorem dataPos_eq : dataPos f offset =
    if max offset (firstData f offset * pmfsInodeBlkSize f.pi) < f.inode.iSize
    then ((max offset (firstData f offset * pmfsInodeBlkSize f.pi) : ℕ) : ℤ) else -6 := by
  have hfirst : first (InData f) offset f.inode.iSize =
      min f.inode.iSize (max offset (firstData f offset * pmfsInodeBlkSize f.pi)) :=
      first_inData hw.offset
  unfold dataPos
  rw [hfirst]
  by_cases hlt : max offset (firstData f offset * pmfsInodeBlkSize f.pi) < f.inode.iSize
  · rw [if_pos hlt, if_pos (by omega), min_eq_right hlt.le]
  · rw [if_neg hlt, if_neg (by omega)]

theorem data_exact_found (hdata : firstData f offset ≤ blockOf f f.inode.iSize) :
    seeks f fPos offset .SEEK_DATA = some (dataPos f offset) ↔
      firstData f offset * pmfsInodeBlkSize f.pi < f.inode.iSize ∧
        (firstData f offset = blockOf f offset ∨ gapOf f offset = 0) := by
  have hB := blkSize_pos f.pi
  have hoff := hw.offset
  have hsize := hw.size
  have hD : blockOf f offset ≤ firstData f offset := le_first (Nat.le_succ_of_le hw.blockOf_le)
  have hself : blockOf f offset * pmfsInodeBlkSize f.pi ≤ offset := Nat.div_mul_le_self _ _
  rw [dataPos_eq hw, seek_data hw hdata, Option.some.injEq]
  by_cases heq : firstData f offset = blockOf f offset
  · rw [if_pos heq, heq, max_eq_left hself, if_pos hoff]
    simp only [true_or, and_true, hself.trans_lt hoff]
  -- the data lies in a later block
  have hnext : offset < firstData f offset * pmfsInodeBlkSize f.pi :=
    (Nat.div_lt_iff_lt_mul hB).mp (show blockOf f offset < firstData f offset by omega)
  rw [if_neg heq, max_eq_right hnext.le, Nat.add_mul]
  by_cases hright : firstData f offset * pmfsInodeBlkSize f.pi < f.inode.iSize ∧ gapOf f offset = 0
  · rw [hright.2, Nat.zero_mul, Nat.add_zero, if_neg (show ¬ _ > sMaxbytes by omega),
      if_pos hright.1]
    exact iff_of_true rfl ⟨hright.1, Or.inr rfl⟩
  · refine iff_of_false (fun hcon => ?_) fun hcon => hright ⟨hcon.1, hcon.2.resolve_left heq⟩
    have hpos : gapOf f offset ≠ 0 → 0 < gapOf f offset * pmfsInodeBlkSize f.pi :=
      fun hne => Nat.mul_pos (Nat.pos_of_ne_zero hne) hB
    split_ifs at hcon <;> omega

theorem data_exact_none (hdata : ¬ firstData f offset ≤ blockOf f f.inode.iSize) :
    seeks f fPos offset .SEEK_DATA = some (dataPos f offset) ↔
      blockOf f f.inode.iSize < 512 ^ f.pi.height := by
  have hlast : f.inode.iSize < (blockOf f f.inode.iSize + 1) * pmfsInodeBlkSize f.pi :=
    (Nat.div_lt_iff_lt_mul (blkSize_pos f.pi)).mp (Nat.lt_succ_self _)
  have hmul : (blockOf f f.inode.iSize + 1) * pmfsInodeBlkSize f.pi ≤
      firstData f offset * pmfsInodeBlkSize f.pi := Nat.mul_le_mul_right _ (by omega)
  rw [dataPos_eq hw, seek_data_none hw hdata, if_neg (show ¬ max offset _ < _ by omega)]
  split_ifs with hin <;> simp [hin]

theorem hole_exact : seeks f fPos offset .SEEK_HOLE = some (holePos f offset) ↔
    blockOf f f.inode.iSize < 512 ^ f.pi.height ∧ firstData f offset ≤ blockOf f f.inode.iSize := by
  have hoff := hw.offset
  by_cases hin : blockOf f f.inode.iSize < 512 ^ f.pi.height
  · rw [seek_hole hw hin, Option.some.injEq]
    split_ifs with hdata
    · simp only [hin, hdata, and_self]
    · -- the offset itself lies in a hole
      have hle := hw.blockOf_le
      have hself : firstHole f offset = blockOf f offset := by
        refine first_of_holds (by omega) (not_not.mp fun hcon => hdata ?_)
        exact (first_of_holds (by omega) hcon).le.trans hle
      have hmul : blockOf f offset * pmfsInodeBlkSize f.pi ≤ offset := Nat.div_mul_le_self _ _
      rw [holePos_eq hw, hself]
      simp only [hdata, and_false, iff_false]
      omega
  · rw [seek_hole_outside hw hin]
    simp [hin]

end Walk

/-! ### Files without a tree -/

/-- A file whose count of blocks is zero has no mapped block. -/
theorem mapped_eq_zero (hok : InodeOk f.d f.pi f.inode) (h : f.inode.iBlocks = 0 ∨ f.pi.root = 0)
    (n : ℕ) : mapped f.d f.pi n = 0 := by
  rcases h with h | h
  · have hleaves : leaves 512 (treeOf f.d f.pi) = 0 := by
      have hcount := hok.toNat_iBlocks
      rw [← hok.vfs, h] at hcount
      exact (Nat.mul_eq_zero.mp hcount.symm).resolve_right (unit_pos f.pi).ne'
    have huniform : Uniform 512 f.pi.height (treeOf f.d f.pi) := uniform_tree
    rw [leaves_eq_card_lookup huniform (le_max_left _ _),
      Finset.card_eq_zero, Finset.filter_eq_empty_iff] at hleaves
    exact not_not.mp (hleaves (Finset.mem_range.mpr (lt_max_of_lt_right (Nat.lt_succ_self n))))
  · exact mapped_of_root h n

section NoTree

variable (hoff : offset < f.inode.iSize)
include hoff

theorem empty_data_exact (hok : InodeOk f.d f.pi f.inode) (h : f.inode.iBlocks = 0 ∨
    f.pi.root = 0) : seeks f fPos offset .SEEK_DATA = some (dataPos f offset) := by
  have hregion : pmfsFindRegion f.d f.inode f.pi offset (Origin.SEEK_DATA == Origin.SEEK_HOLE) =
      some (enxioResult, offset) := by
    unfold pmfsFindRegion
    simp only [if_neg (not_le.mpr hoff), if_pos h, ge_iff_le]
    rfl
  have hend : first (InData f) offset f.inode.iSize = f.inode.iSize :=
    (first_eq_end_iff hoff.le).mpr fun n _ _ => not_not.mpr (mapped_eq_zero hok h _)
  rw [seeks_eq hregion, toInt_enxio]
  simp [dataPos, hend]

/-- In a file without a block the size is returned as an `int`. -/
theorem empty_hole_exact (hok : InodeOk f.d f.pi f.inode) (h : f.inode.iBlocks = 0 ∨ f.pi.root = 0)
    (hsize : f.inode.iSize ≤ sMaxbytes) :
    seeks f fPos offset .SEEK_HOLE = some (holePos f offset) ↔
      f.inode.iSize % 2 ^ 32 = 0 ∨ f.inode.iSize % 2 ^ 32 = offset ∧ offset < 2 ^ 31 := by
  have hregion : pmfsFindRegion f.d f.inode f.pi offset (Origin.SEEK_HOLE == Origin.SEEK_HOLE) =
      some (f.inode.iSize, offset) := by
    unfold pmfsFindRegion
    simp only [if_neg (not_le.mpr hoff), if_pos h, ge_iff_le]
    rfl
  have hfirst : first (¬ InData f ·) offset f.inode.iSize = offset :=
    first_of_holds hoff (not_not.mpr (mapped_eq_zero hok h _))
  rw [seeks_eq hregion, Option.some.injEq, holePos, hfirst]
  unfold toInt
  split_ifs <;> omega

theorem single_region (h : ¬ (f.inode.iBlocks = 0 ∨ f.pi.root = 0))
    (hh : f.pi.height = 0) (hole : Bool) : pmfsFindRegion f.d f.inode f.pi offset hole =
    some (0, if hole then f.inode.iSize else offset) := by
  unfold pmfsFindRegion
  simp only [if_neg (not_le.mpr hoff), if_neg h, if_pos hh, ge_iff_le, Option.map_some]
  cases hole <;> rfl

omit hoff in
theorem single_inData (h : f.pi.root ≠ 0) (hh : f.pi.height = 0) (x : ℕ) :
    InData f x ↔ x < pmfsInodeBlkSize f.pi := by
  have hB := blkSize_pos f.pi
  unfold InData mapped treeOf
  rw [hh, tree_leaf h]
  by_cases hx : x < pmfsInodeBlkSize f.pi
  · rw [Nat.div_eq_of_lt hx, lookup_of_lt (by decide)]
    exact iff_of_true h hx
  · rw [lookup_of_le (by rw [pow_zero]; exact Nat.div_pos (not_lt.mp hx) hB)]
    exact iff_of_false (not_not.mpr rfl) hx

theorem single_data_exact (h : ¬ (f.inode.iBlocks = 0 ∨ f.pi.root = 0)) (hh : f.pi.height = 0)
    (hsize : f.inode.iSize ≤ sMaxbytes) :
    seeks f fPos offset .SEEK_DATA = some (dataPos f offset) ↔ offset < pmfsInodeBlkSize f.pi := by
  have hin := single_inData (not_or.mp h).2 hh
  rw [seeks_offset (single_region hoff h hh _), Option.some.injEq]
  simp only [show (Origin.SEEK_DATA == Origin.SEEK_HOLE) = false from rfl,
    Bool.false_eq_true, if_false, dataPos, if_neg (show ¬ offset > sMaxbytes by omega)]
  by_cases hlt : offset < pmfsInodeBlkSize f.pi
  · rw [first_of_holds hoff ((hin offset).mpr hlt), if_pos hoff]
    simp only [hlt]
  · have hend : first (InData f) offset f.inode.iSize = f.inode.iSize :=
      (first_eq_end_iff hoff.le).mpr fun n hn _ hcon => by
        have := (hin n).mp hcon
        omega
    rw [hend, if_neg (lt_irrefl _)]
    omega

theorem single_hole_exact (h : ¬ (f.inode.iBlocks = 0 ∨ f.pi.root = 0)) (hh : f.pi.height = 0)
    (hsize : f.inode.iSize ≤ sMaxbytes) :
    seeks f fPos offset .SEEK_HOLE = some (holePos f offset) ↔
    f.inode.iSize ≤ pmfsInodeBlkSize f.pi := by
  have hin := single_inData (not_or.mp h).2 hh
  rw [seeks_offset (single_region hoff h hh _), Option.some.injEq]
  simp only [show (Origin.SEEK_HOLE == Origin.SEEK_HOLE) = true from rfl, if_true, holePos,
    if_neg (show ¬ f.inode.iSize > sMaxbytes by omega), Nat.cast_inj]
  rw [eq_comm, first_eq_end_iff hoff.le]
  constructor
  · intro hall
    by_contra hcon
    exact hall (max offset (pmfsInodeBlkSize f.pi)) (le_max_left _ _) (by omega)
      fun hdata => by have := (hin _).mp hdata; omega
  · intro hle n _ hn
    exact not_not.mpr ((hin n).mpr (by omega))

end NoTree

/-! ### Exact answers -/

/-- The search for data from the offset on has the right answer: there is no block at all, the only
block is that of the offset, the first data block lies in the file and the search does not begin in
the middle of a missing subtree, or there is no data and the tree is large enough for the file. -/
def DataExact (f : File) (offset : ℕ) : Prop :=
  if f.inode.iBlocks = 0 ∨ f.pi.root = 0 then True
  else if f.pi.height = 0 then offset < pmfsInodeBlkSize f.pi
  else if firstData f offset ≤ blockOf f f.inode.iSize then
    firstData f offset * pmfsInodeBlkSize f.pi < f.inode.iSize ∧
      (firstData f offset = blockOf f offset ∨ gapOf f offset = 0)
  else blockOf f f.inode.iSize < 512 ^ f.pi.height

/-- The search for a hole from the offset on has the right answer: the file has no block and its
size happens to do as a return value, the file has no more than its only block, or the tree is large
enough for the file and has data from the offset on. -/
def HoleExact (f : File) (offset : ℕ) : Prop :=
  if f.inode.iBlocks = 0 ∨ f.pi.root = 0 then
    f.inode.iSize % 2 ^ 32 = 0 ∨ f.inode.iSize % 2 ^ 32 = offset ∧ offset < 2 ^ 31
  else if f.pi.height = 0 then f.inode.iSize ≤ pmfsInodeBlkSize f.pi
  else blockOf f f.inode.iSize < 512 ^ f.pi.height ∧ firstData f offset ≤ blockOf f f.inode.iSize

/-- **Main result.** When `pmfs_llseek` returns the first position in data, and the first one in a
hole. -/
theorem seek_exact_iff (hok : InodeOk f.d f.pi f.inode) (hsize : f.inode.iSize ≤ sMaxbytes)
    (hoff : offset < f.inode.iSize) :
    (seeks f fPos offset .SEEK_DATA = some (dataPos f offset) ↔ DataExact f offset) ∧
      (seeks f fPos offset .SEEK_HOLE = some (holePos f offset) ↔ HoleExact f offset) := by
  unfold DataExact HoleExact
  by_cases hempty : f.inode.iBlocks = 0 ∨ f.pi.root = 0
  · simp only [if_pos hempty, iff_true]
    exact ⟨empty_data_exact hoff hok hempty, empty_hole_exact hoff hok hempty hsize⟩
  by_cases hh : f.pi.height = 0
  · simp only [if_neg hempty, if_pos hh]
    exact ⟨single_data_exact hoff hempty hh hsize, single_hole_exact hoff hempty hh hsize⟩
  have hw : Walks f offset :=
    ⟨hoff, hsize, (not_or.mp hempty).1, (not_or.mp hempty).2, hh, hok.height⟩
  simp only [if_neg hempty, if_neg hh]
  refine ⟨?_, hole_exact hw⟩
  split_ifs with hdata
  · exact data_exact_found hw hdata
  · exact data_exact_none hw hdata

/-- The metadata of a tree of two levels with the only data block at the index 512. -/
def sparseNode (page i : ℕ) : ℕ :=
  if page = 1 ∧ i = 1 then 2 <<< 12 else if page = 2 ∧ i = 0 then 3 <<< 12 else 0

/-- A file as long as 600 blocks, with this tree. -/
def sparse : File :=
  ⟨{ newDev 18 with node := sparseNode }, { plainFile with iSize := 600 * 4096, iBlocks := 1 },
    { zeroInode with iSize := 600 * 4096, root := 1 <<< 12, height := 2, iBlocks := 1 }⟩

/-- A file of ten bytes without a block. -/
def noBlock : File := ⟨newDev 18, { plainFile with iSize := 10 }, { zeroInode with iSize := 10 }⟩

theorem sparse_tree : treeOf sparse.d sparse.pi = RTree.node (1 <<< 12)
    (kidsOf sparse.d 1 (1 <<< 12)) :=
  tree_kids (by decide)

theorem sparse_kids {i : ℕ} (hi : i < 512) : kidsOf sparse.d 1 (1 <<< 12) i =
    if i = 1 then RTree.node (2 <<< 12) (kidsOf sparse.d 0 (2 <<< 12)) else RTree.empty := by
  rw [kidsOf_eq i hi]
  split_ifs with h
  · rw [h]
    exact tree_kids (by decide)
  · rw [show sparse.d.node (pmfsGetBlocknr (1 <<< 12)) i = 0 from by
      simp [sparse, sparseNode, pmfsGetBlocknr, h]]
    exact tree_null 1

theorem sparse_leaf {i : ℕ} (hi : i < 512) : kidsOf sparse.d 0 (2 <<< 12) i =
    if i = 0 then RTree.leaf (3 <<< 12) else RTree.empty := by
  rw [kidsOf_eq i hi]
  split_ifs with h
  · rw [h]
    exact tree_leaf (by decide)
  · rw [show sparse.d.node (pmfsGetBlocknr (2 <<< 12)) i = 0 from by
      simp [sparse, sparseNode, pmfsGetBlocknr, h]]
    exact tree_null 0

theorem inodeOk_sparse : InodeOk sparse.d sparse.pi sparse.inode := by
  have hone : leaves 512 (RTree.node (2 <<< 12) (kidsOf sparse.d 0 (2 <<< 12))) = 1 := by
    rw [leaves, Finset.sum_eq_single_of_mem 0 (Finset.mem_range.mpr (by decide)) fun i hi hne => by
      rw [sparse_leaf (Finset.mem_range.mp hi), if_neg hne, leaves], sparse_leaf (by decide),
        if_pos rfl, leaves]
  have hleaves : leaves 512 (treeOf sparse.d sparse.pi) = 1 := by
    rw [sparse_tree, leaves, Finset.sum_eq_single_of_mem 1 (Finset.mem_range.mpr (by decide))
      fun i hi hne => by
      rw [sparse_kids (Finset.mem_range.mp hi), if_neg hne, leaves], sparse_kids (by decide),
        if_pos rfl, hone]
  exact ⟨⟨by rw [hleaves]; decide, by decide, by decide⟩, rfl⟩

theorem sparse_mapped : mapped sparse.d sparse.pi 512 ≠ 0 := by
  unfold mapped
  rw [sparse_tree, lookup_of_lt (by decide)]
  show find 512 2 _ 512 ≠ 0
  rw [find, sparse_kids (by decide), if_pos (by decide), find, sparse_leaf (by decide),
    if_pos (by decide)]
  decide

/-- From the data block on, there is data at once and a hole in the next block. -/
theorem seek_exact_sparse : InodeOk sparse.d sparse.pi sparse.inode ∧
    seeks sparse 0 (512 * 4096) .SEEK_DATA = some (dataPos sparse (512 * 4096)) ∧
    seeks sparse 0 (512 * 4096) .SEEK_HOLE = some (holePos sparse (512 * 4096)) := by
  obtain ⟨hdata, hhole⟩ :=
    @seek_exact_iff sparse 0 (512 * 4096) inodeOk_sparse (by decide) (by decide)
  have hblock : ¬ (sparse.inode.iBlocks = 0 ∨ sparse.pi.root = 0) := by decide
  have hfirst : firstData sparse (512 * 4096) = 512 := first_of_holds (by decide) sparse_mapped
  refine ⟨inodeOk_sparse, hdata.mpr ?_, hhole.mpr ?_⟩
  · rw [DataExact, if_neg hblock, if_neg (by decide), hfirst, if_pos (by decide)]
    exact ⟨by decide, Or.inl (by decide)⟩
  · rw [HoleExact, if_neg hblock, if_neg (by decide), hfirst]
    decide

/-- A search for data from the second block on passes by the only data block, and a search for a
hole in a file without a block returns its size. -/
theorem seek_fails : InodeOk sparse.d sparse.pi sparse.inode ∧
    seeks sparse 0 4096 .SEEK_DATA = some (513 * 4096) ∧ dataPos sparse 4096 = 512 * 4096 ∧
    seeks noBlock 0 0 .SEEK_HOLE = some 10 ∧ holePos noBlock 0 = 0 := by
  have hB : pmfsInodeBlkSize sparse.pi = 4096 := by decide
  have hfirst : first (InData sparse) 4096 (600 * 4096) = 512 * 4096 := by
    refine first_eq (by decide) (by decide) (fun _ => ?_) fun n _ hn => ?_
    · unfold InData
      rw [hB, Nat.mul_div_cancel _ (by decide)]
      exact sparse_mapped
    · have hdiv : n / 4096 < 512 := by omega
      unfold InData mapped
      rw [hB, sparse_tree, lookup_of_lt (hdiv.trans_le (by decide))]
      show ¬ find 512 2 _ _ ≠ 0
      rw [find, sparse_kids (by omega), if_neg (by omega), find_empty]
      simp
  have hempty : ¬ InData noBlock 0 := not_not.mpr (mapped_of_root rfl _)
  refine ⟨inodeOk_sparse, by decide +kernel, ?_, by decide +kernel, ?_⟩
  · unfold dataPos
    rw [show sparse.inode.iSize = 600 * 4096 from rfl, hfirst]
    decide
  · unfold holePos
    rw [first_of_holds (by decide) hempty]
    rfl

end Pmfs.Inodes.Seek
