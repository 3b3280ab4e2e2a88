import Pmfs.Tree.Region
import Pmfs.Tree.Cut
import Pmfs.Inodes.Regular

/-! # Slots of metadata blocks

A metadata block has 512 slots. The walks for a lookup and for a region do not read a slot beyond
them in the model, and end with `none` instead. For truncation and allocation `truncateWith beyond`
and `allocWith beyond` are the walks in which `beyond` takes over at a slot index of 512 or more:
when they compute the same for every `beyond`, no such index comes up (`truncateWith_eq`,
`allocWith_eq`). The recursions check nothing themselves, but hand their children ranges that fit
(`lastBlk_lt`), so that only the range of the first call matters. `pmfs_find_region` is the only
caller that does not clamp it (`region_inside_iff`). -/

namespace Pmfs.Inodes.Slots

open Lib.Loop Lib.Radix Lib.RadixMap Block.Model
open Tree.Model Tree.Own Tree.Truncate Tree.Inode Tree.Extend Tree.Region
open Tree.Cut (plainFile)
open Inodes.Model
open Inodes.Regular (File)

/-- The body of a loop over slots, with `beyond` for the slots that a metadata block does not have.
-/
def within {σ : Type} (beyond : ℕ → σ → Option (σ × Option Errno))
    (body : ℕ → σ → Option (σ × Option Errno)) (i : ℕ) (s : σ) : Option (σ × Option Errno) :=
  if i < 512 then body i s else beyond i s

/-- `recursive_truncate_blocks` with `beyond` for the slots that a metadata block does not have. -/
def truncateWith (beyond : ℕ → TruncLoop → Option (TruncLoop × Option Errno)) (btype : BlkType) :
    ℕ → ℕ → ℕ → ℕ → Dev → Option (Dev × ℕ × Bool)
  | 0, _, _, _, _ => none
  | h + 1, block, first, last, d =>
    if block = 0 then none
    else
      let page := pmfsGetBlocknr block
      let nodeBits := h * 9
      let firstIndex := first >>> nodeBits
      let lastIndex := last >>> nodeBits
      let body := if h = 0 then truncLeafBody btype page
        else truncMetaBody (truncateWith beyond btype h) nodeBits first last page
      (forLoop (within beyond body) firstIndex (lastIndex + 1 - firstIndex)
        ⟨d, none, 0, firstIndex, lastIndex, true⟩).map fun r =>
        truncFinish page firstIndex lastIndex r.1

/-- `recursive_alloc_blocks` with `beyond` for the slots that a metadata block does not have. -/
def recursiveAllocWith (beyond : ℕ → AllocLoop → Option (AllocLoop × Option Errno)) (zero : Bool) :
    ℕ → ℕ → ℕ → ℕ → Bool → Dev → PmfsInode → Option (Dev × PmfsInode × Option Errno)
  | 0, _, _, _, _, _, _ => none
  | h + 1, block, first, last, newNode, d, pi =>
    if block = 0 then none
    else
      let page := pmfsGetBlocknr block
      let nodeBits := h * 9
      let firstIndex := first >>> nodeBits
      let lastIndex := last >>> nodeBits
      let body := if h = 0 then allocLeafBody zero page lastIndex
        else allocMetaBody (recursiveAllocWith beyond zero h) nodeBits first last page
      (forLoop (within beyond body) firstIndex (lastIndex + 1 - firstIndex)
        ⟨d, pi, newNode, false⟩).map fun r => (r.1.d, r.1.pi, r.2)

/-- `__pmfs_alloc_blocks` with `beyond` for the slots that a metadata block does not have. -/
def allocWith (beyond : ℕ → AllocLoop → Option (AllocLoop × Option Errno)) (d : Dev)
    (pi : PmfsInode) (fileBlocknr num : ℕ) (zero : Bool) :
    Option (Dev × PmfsInode × Option Errno) :=
  allocVia (pmfsNewDataBlock · · zero) (recursiveAllocWith beyond zero) d pi fileBlocknr num

variable {d : Dev} {inode : Inode} {pi : PmfsInode} {btype : BlkType} {zero newNode : Bool}
  {h k p f l i first last : ℕ}

/-! ### Ranges that fit -/

/-- The range that a child gets fits into the child. -/
theorem lastBlk_lt (k l i : ℕ) : lastBlk (k * 9) l i < 512 ^ k := by
  rw [lastBlk_eq_hi]
  exact hi_lt (by omega) i

/-- A loop over the slots of a range that fits does not leave the node. -/
theorem forLoop_within {σ : Type} {beyond body : ℕ → σ → Option (σ × Option Errno)} {s : σ}
    (hl : l < 512 ^ (k + 1)) :
    forLoop (within beyond body) (f >>> (k * 9)) (l >>> (k * 9) + 1 - f >>> (k * 9)) s =
      forLoop body (f >>> (k * 9)) (l >>> (k * 9) + 1 - f >>> (k * 9)) s := by
  have hlast : l >>> (k * 9) < 512 := by
    rw [shiftRight_9]
    exact child_lt hl
  refine forLoop_congr fun j s h1 h2 => ?_
  exact if_pos (by omega)

/-! ### Truncation -/

theorem truncateWith_eq {beyond : ℕ → TruncLoop → Option (TruncLoop × Option Errno)} :
    ∀ {k p f l : ℕ} {d : Dev}, l < 512 ^ k →
      truncateWith beyond btype k p f l d = recursiveTruncateBlocks btype k p f l d
  | 0, _, _, _, _, _ => rfl
  | k + 1, p, f, l, d, hl => by
    have hbody : ∀ i s, truncMetaBody (truncateWith beyond btype k)
      (k * 9) f l (pmfsGetBlocknr p) i s =
        truncMetaBody (recursiveTruncateBlocks btype k) (k * 9) f l (pmfsGetBlocknr p) i s := by
      intro i s
      simp only [truncMetaBody, truncateWith_eq (lastBlk_lt k l i)]
    simp only [truncateWith, recursiveTruncateBlocks, forLoop_within hl,
      funext fun i => funext (hbody i)]

theorem sparseLast_lt (height last : ℕ) : pmfsSparseLastBlocknr height last < 512 ^ height := by
  have hpos : 0 < 512 ^ height := Nat.pow_pos (by omega)
  unfold pmfsSparseLastBlocknr
  rw [one_shiftLeft_9]
  split_ifs <;> omega

theorem full_lt (height : ℕ) : 1 <<< (height * 9) - 1 < 512 ^ height := by
  rw [one_shiftLeft_9]
  exact Nat.sub_lt (Nat.pow_pos (by omega)) one_pos

/-- `__pmfs_truncate_blocks` clamps the range to the tree. -/
theorem truncRange_lt {start stop : ℕ} (h : truncRange pi start stop = some (first, last)) :
    last < 512 ^ pi.height := by
  have hfull := full_lt pi.height
  have hsparse := sparseLast_lt pi.height ((stop - 1) >>> pmfsInodeBlkShift pi)
  unfold truncRange at h
  dsimp only at h
  split_ifs at h
  · cases h
    exact hfull
  · cases h
    exact hsparse

/-- `pmfs_evict_inode` clamps the range to the tree. -/
theorem evictLast_lt (pi : PmfsInode) (inode : Inode) : evictLast pi inode < 512 ^ pi.height := by
  unfold evictLast
  split_ifs
  · exact full_lt pi.height
  · exact sparseLast_lt _ _
  · exact sparseLast_lt _ _

/-! ### Allocation -/

theorem recursiveAllocWith_eq {beyond : ℕ → AllocLoop → Option (AllocLoop × Option Errno)} :
    ∀ {k p f l : ℕ} {newNode : Bool} {d : Dev} {pi : PmfsInode}, l < 512 ^ k →
      recursiveAllocWith beyond zero k p f l newNode d pi =
      recursiveAllocBlocks zero k p f l newNode d pi
  | 0, _, _, _, _, _, _, _ => rfl
  | k + 1, p, f, l, newNode, d, pi, hl => by
    have hbody : ∀ i s, allocMetaBody (recursiveAllocWith beyond zero k)
      (k * 9) f l (pmfsGetBlocknr p) i s =
        allocMetaBody (recursiveAllocBlocks zero k) (k * 9) f l (pmfsGetBlocknr p) i s := by
      intro i s
      simp only [allocMetaBody, recursiveAllocWith_eq (lastBlk_lt k l i)]
    simp only [recursiveAllocWith, recursiveAllocBlocks, forLoop_within hl,
      funext fun i => funext (hbody i)]

/-- `__pmfs_alloc_blocks` raises the tree until the range fits. -/
theorem allocVia_congr
    {rec rec' : ℕ → ℕ → ℕ → ℕ → Bool → Dev → PmfsInode → Option (Dev × PmfsInode × Option Errno)}
    (h : ∀ k p f l newNode d pi, l < 512 ^ k → rec k p f l newNode d pi = rec' k p f l newNode d pi)
    (new : Dev → PmfsInode → Except Errno ℕ × Dev × PmfsInode) (fileBlocknr num : ℕ) :
    allocVia new rec d pi fileBlocknr num = allocVia new rec' d pi fileBlocknr num := by
  have hlast := lastIndex_lt pi fileBlocknr num
  unfold lastIndex at hlast
  unfold allocVia
  dsimp only
  generalize lastFileBlock fileBlocknr num >>> (pmfsInodeBlkShift pi - 12) = last at hlast ⊢
  generalize hheight : (if last > 1 <<< (pi.height * 9) - 1 then
    pi.height + shiftsToZero 8 (last >>> (pi.height * 9)) else pi.height) = height
  obtain ⟨hle, hlt, -, -⟩ := allocHeight_spec hlast hheight.symm
  rcases hinc : pmfsIncreaseBtreeHeight d pi height with ⟨d1, pi1, _ | e⟩
  · have hh := increase_height hle hinc
    simp only [h height _ _ _ _ _ _ hlt, hh]
  · simp only [h height _ _ _ _ _ _ hlt]

theorem allocWith_eq {beyond : ℕ → AllocLoop → Option (AllocLoop × Option Errno)}
    (fileBlocknr num : ℕ) : allocWith beyond d pi fileBlocknr num zero =
    __pmfsAllocBlocks d pi fileBlocknr num zero :=
  allocVia_congr (fun _ _ _ _ _ _ _ => recursiveAllocWith_eq) _ fileBlocknr num

/-! ### Regions -/

theorem regionLast_lt (k l i : ℕ) : regionLast (k * 9) l i < 512 ^ k := by
  have hpos : 0 < 512 ^ k := Nat.pow_pos (by omega)
  unfold regionLast
  rw [and_mask_9, one_shiftLeft_9]
  split_ifs
  · exact Nat.mod_lt _ hpos
  · omega

theorem body_ne_none {rec : ℕ → ℕ → ℕ → Bool → Bool → Option Found} {search : Bool}
    {page : ℕ} {s : Found} (hi : i < 512) (hrec : k ≠ 0 → d.node page i ≠ 0 → ∀ f data hole,
      rec (d.node page i) f (regionLast (k * 9) l i) data hole ≠ none) :
    regionBody d.node search rec k f l page i s ≠ none := by
  unfold regionBody
  rw [if_neg (not_le.mpr hi)]
  by_cases hleaf : k = 0 ∨ d.node page i = 0
  · rw [if_pos hleaf]
    split_ifs <;> exact Option.some_ne_none _
  · obtain ⟨hk, hv⟩ := not_or.mp hleaf
    rw [if_neg hleaf, Ne, Option.map_eq_none_iff]
    exact hrec hk hv _ _ _

/-- The walk for a region stays inside of the nodes when its last slot does. -/
theorem region_inside {search : Bool} (hp : p ≠ 0) (hl : slotIndex l (k * 9) < 512) (f : ℕ)
    (data hole : Bool) : recursiveFindRegion d.node search (k + 1) p f l data hole ≠ none := by
  induction k generalizing p f l data hole with
  | zero =>
    rw [region_loop hp, Ne, Option.map_eq_none_iff]
    exact forLoop_ne_none fun j s h1 h2 => body_ne_none (by omega) fun hcon => absurd rfl hcon
  | succ k ih =>
    rw [region_loop hp, Ne, Option.map_eq_none_iff]
    refine forLoop_ne_none fun j s h1 h2 => body_ne_none (by omega) fun _ hv f data hole => ?_
    have hlt := regionLast_lt (k + 1) l j
    exact ih hv (by rw [slotIndex_eq hlt]; exact child_lt hlt) f data hole

/-- `pmfs_find_region` has no tree to walk through, or the last slot that it comes to is one of the
root. -/
def RegionFits (inode : Inode) (pi : PmfsInode) : Prop :=
  inode.iBlocks = 0 ∨ pi.root = 0 ∨ pi.height = 0 ∨
    slotIndex (inode.iSize >>> pmfsInodeBlkShift pi) ((pi.height - 1) * 9) < 512

theorem region_of_fits (h : RegionFits inode pi) (offset : ℕ) (hole : Bool) :
    pmfsFindRegion d inode pi offset hole ≠ none := by
  unfold pmfsFindRegion
  by_cases hoff : offset ≥ inode.iSize
  · rw [if_pos hoff]
    exact Option.some_ne_none _
  by_cases hempty : inode.iBlocks = 0 ∨ pi.root = 0
  · rw [if_neg hoff, if_pos hempty]
    exact Option.some_ne_none _
  rw [if_neg hoff, if_neg hempty, Ne, Option.map_eq_none_iff]
  by_cases hh : pi.height = 0
  · rw [if_pos hh]
    exact Option.some_ne_none _
  obtain ⟨hblocks, hroot⟩ := not_or.mp hempty
  have hfits := ((h.resolve_left hblocks).resolve_left hroot).resolve_left hh
  rw [if_neg hh]
  obtain ⟨k, hk⟩ := Nat.exists_eq_succ_of_ne_zero hh
  rw [hk] at hfits ⊢
  exact region_inside hroot hfits _ _ _

/-- Searching a hole from the last byte of the file, the walk comes to the last slot. -/
theorem region_leaves (h : ¬ RegionFits inode pi) :
    pmfsFindRegion d inode pi (inode.iSize - 1) true = none := by
  unfold RegionFits at h
  push Not at h
  obtain ⟨hblocks, hroot, hh, hlast⟩ := h
  obtain ⟨k, hk⟩ := Nat.exists_eq_succ_of_ne_zero hh
  rw [hk, Nat.succ_sub_one] at hlast
  have hB : 0 < 2 ^ pmfsInodeBlkShift pi := Nat.two_pow_pos _
  have hq : 0 < 512 ^ k := Nat.pow_pos (by omega)
  have hsize : inode.iSize ≠ 0 := by
    intro hcon
    rw [hcon, Nat.zero_shiftRight, slotIndex, Nat.zero_shiftRight] at hlast
    omega
  -- the slot of the last byte is the last one or the one before it
  have hslot : slotIndex ((inode.iSize - 1) >>> pmfsInodeBlkShift pi) (k * 9) ≤
      slotIndex (inode.iSize >>> pmfsInodeBlkShift pi) (k * 9) := by
    unfold slotIndex at hlast ⊢
    rw [shiftRight_9, Nat.shiftRight_eq_div_pow, Nat.div_div_eq_div_mul] at hlast ⊢
    rw [shiftRight_9, Nat.shiftRight_eq_div_pow, Nat.div_div_eq_div_mul]
    have h1 : (inode.iSize - 1) / (2 ^ pmfsInodeBlkShift pi * 512 ^ k) ≤
        inode.iSize / (2 ^ pmfsInodeBlkShift pi * 512 ^ k) := Nat.div_le_div_right (Nat.sub_le _ _)
    have h2 : inode.iSize / (2 ^ pmfsInodeBlkShift pi * 512 ^ k) ≤
        (inode.iSize - 1) / (2 ^ pmfsInodeBlkShift pi * 512 ^ k) + 1 := by
      rw [← Nat.add_div_right _ (Nat.mul_pos hB hq)]
      exact Nat.div_le_div_right (by have := Nat.mul_pos hB hq; omega)
    omega
  unfold pmfsFindRegion
  rw [if_neg (by omega), if_neg (not_or.mpr ⟨hblocks, hroot⟩), if_neg hh, hk,
    region_hole_outside hslot hlast]
  rfl

/-! ### All walks -/

/-- No walk through the tree of the inode comes to a slot beyond a metadata block: not
`pmfs_find_data_block`, `pmfs_find_region`, `__pmfs_truncate_blocks`, `pmfs_free_inode_subtree` in
`pmfs_evict_inode`, or `__pmfs_alloc_blocks`. -/
structure StaysInside (d : Dev) (inode : Inode) (pi : PmfsInode) : Prop where
  find : ∀ fileBlocknr, pmfsFindDataBlock d pi fileBlocknr ≠ none
  region : ∀ offset hole, pmfsFindRegion d inode pi offset hole ≠ none
  truncate : ∀ beyond start stop first last, truncRange pi start stop = some (first, last) →
    truncateWith beyond pi.iBlkType pi.height pi.root first last d =
      recursiveTruncateBlocks pi.iBlkType pi.height pi.root first last d
  evict : ∀ beyond, truncateWith beyond pi.iBlkType pi.height pi.root 0 (evictLast pi inode) d =
    recursiveTruncateBlocks pi.iBlkType pi.height pi.root 0 (evictLast pi inode) d
  alloc : ∀ beyond fileBlocknr num zero, allocWith beyond d pi fileBlocknr num zero =
    __pmfsAllocBlocks d pi fileBlocknr num zero

/-- **Main result.** The walks stay inside of the metadata blocks exactly when `pmfs_find_region`
does. -/
theorem stays_inside_iff (hroot : pi.root = 0 → pi.height = 0) :
    StaysInside d inode pi ↔ RegionFits inode pi := by
  constructor
  · intro h
    by_contra hcon
    exact h.region _ _ (region_leaves hcon)
  · intro h
    refine ⟨fun b => ?_, region_of_fits h, fun beyond start stop first last hrange => ?_,
      fun beyond => ?_, fun beyond b num zero => allocWith_eq b num⟩
    · rw [findDataBlock_mapped hroot]
      exact Option.some_ne_none _
    · exact truncateWith_eq (truncRange_lt hrange)
    · exact truncateWith_eq (evictLast_lt pi inode)

/-- A file as long as `n` blocks with one data block, the first one, under a tree of height 1. -/
def oneLeaf (n : ℕ) : File :=
  ⟨{ freshDev with node := fun _ i => if i = 0 then 3 <<< 12 else 0 },
    { plainFile with iSize := n * 4096, iBlocks := 1 },
    { zeroInode with iSize := n * 4096, iBlocks := 1, height := 1, root := 2 <<< 12 }⟩

/-- A data block with a hole behind it. -/
theorem stays_inside_hole : StaysInside (oneLeaf 3).d (oneLeaf 3).inode (oneLeaf 3).pi ∧
    pmfsFindRegion (oneLeaf 3).d (oneLeaf 3).inode (oneLeaf 3).pi 0 true = some (0, 4096) :=
  ⟨(stays_inside_iff fun hcon => absurd hcon (by decide)).mpr
    (Or.inr (Or.inr (Or.inr (by decide)))), by decide +kernel⟩

theorem region_fails : pmfsFindRegion (oneLeaf 513).d (oneLeaf 513).inode (oneLeaf 513).pi 0 true =
    none ∧ ¬ StaysInside (oneLeaf 513).d (oneLeaf 513).inode (oneLeaf 513).pi := by
  have hnone : pmfsFindRegion (oneLeaf 513).d (oneLeaf 513).inode (oneLeaf 513).pi 0 true =
    none := by
    decide +kernel
  exact ⟨hnone, fun h => h.region 0 true hnone⟩

end Pmfs.Inodes.Slots
