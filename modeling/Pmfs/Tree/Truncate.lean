import Pmfs.Tree.Own

/-! # Truncating a tree

`recursive_truncate_blocks` prunes the tree it is called on: `truncate_prunes` says that it frees
the data blocks of the range, the metadata blocks that become empty and nothing else, and that it
reports an empty tree exactly when nothing is left of it. `Inv` is the invariant of its loop over
the slots of one metadata block: the children before slot `j` are pruned, the others as they were.
-/

namespace Pmfs.Tree.Truncate

open Lib.Intervals Lib.Radix Lib.Loop Function
open Block.Model Block.Spec Tree.Model Tree.Own
open RTree

/-! ### Indices -/

theorem pow_512 (k : ℕ) : 512 ^ k = 2 ^ (k * 9) := by
  rw [show (512 : ℕ) = 2 ^ 9 by norm_num, ← Nat.pow_mul, Nat.mul_comm]

theorem shiftRight_9 (x k : ℕ) : x >>> (k * 9) = x / 512 ^ k := by
  rw [Nat.shiftRight_eq_div_pow, pow_512]

theorem one_shiftLeft_9 (k : ℕ) : 1 <<< (k * 9) = 512 ^ k := by
  rw [Nat.shiftLeft_eq, Nat.one_mul, pow_512]

theorem and_mask_9 (x k : ℕ) : x &&& 1 <<< (k * 9) - 1 = x % 512 ^ k := by
  rw [Nat.shiftLeft_eq, Nat.one_mul, Nat.and_two_pow_sub_one_eq_mod, pow_512]

theorem firstBlk_eq_lo (k f i : ℕ) : firstBlk (k * 9) f i = lo 512 k f i := by
  rw [firstBlk, shiftRight_9, and_mask_9, lo]

theorem lastBlk_eq_hi (k l i : ℕ) : lastBlk (k * 9) l i = hi 512 k l i := by
  rw [lastBlk, shiftRight_9, and_mask_9, one_shiftLeft_9, hi]

theorem isEmptyMetaBlock_iff {node : ℕ → ℕ} {s e : ℕ} (he : e < 512) (hs : s ≤ 512) :
    isEmptyMetaBlock node s e = true ↔ ∀ i < 512, i < s ∨ e < i → node i = 0 := by
  simp only [isEmptyMetaBlock, Bool.and_eq_true, List.all_eq_true, List.mem_range,
    List.mem_range'_1, beq_iff_eq]
  constructor
  · rintro ⟨h1, h2⟩ i hi (h | h)
    · exact h1 i h
    · exact h2 i ⟨by omega, by omega⟩
  · intro h
    exact ⟨fun i hi => h i (by omega) (Or.inl hi), fun i hi => h i (by omega) (Or.inr (by omega))⟩

section Loop

variable (t : BlkType) (k page f l : ℕ) (c : ℕ → RTree) (d0 : Dev) (R : Multiset ℕ)

/-- The child at slot `i` without the blocks of the range. -/
def pruned (i : ℕ) : RTree := prune 512 k (lo 512 k f i) (hi 512 k l i) (c i)

/-- The children when the loop has reached slot `j`. -/
def mid (j i : ℕ) : RTree :=
  if f / 512 ^ k ≤ i ∧ i < j ∧ i ≤ l / 512 ^ k then pruned k f l c i else c i

/-- The invariant of the loop. -/
structure Inv (j : ℕ) (s : TruncLoop) : Prop where
  kids : Kids t s.d k page (mid k f l c j) R
  slots : ∀ i, s.d.node page i = d0.node page i
  frame : Frame R d0 s.d
  slab : SlabOk s.d
  hint : HintOk s.d.ba s.hint
  hint_none : k ≠ 0 → s.hint = none
  freed : s.freed + ∑ i ∈ Finset.range 512, leaves 512 (mid k f l c j i) =
    ∑ i ∈ Finset.range 512, leaves 512 (c i)
  start : s.start = if f / 512 ^ k < j ∧ mid k f l c j (f / 512 ^ k) ≠ empty
    then f / 512 ^ k + 1 else f / 512 ^ k
  last : s.last = if f / 512 ^ k < l / 512 ^ k ∧ l / 512 ^ k < j ∧
    mid k f l c j (l / 512 ^ k) ≠ empty then l / 512 ^ k - 1 else l / 512 ^ k
  all : s.allRangeFreed = true ↔
    ∀ i, f / 512 ^ k ≤ i → i < j → i ≤ l / 512 ^ k → mid k f l c j i = empty

variable {t k page f l c d0 R} {j p : ℕ} {s s' : TruncLoop}

theorem mid_self : mid k f l c j j = c j := by
  simp [mid]

theorem mid_succ (hf : f / 512 ^ k ≤ j) (hl : j ≤ l / 512 ^ k) :
    mid k f l c (j + 1) = update (mid k f l c j) j (pruned k f l c j) := by
  funext i
  by_cases hij : i = j
  · subst hij
    simp [mid, hf, hl]
  · rw [update_of_ne hij]
    have : i < j + 1 ↔ i < j := by omega
    simp only [mid, this]

theorem mid_succ_of_ne {i : ℕ} (hij : i ≠ j) : mid k f l c (j + 1) i = mid k f l c j i := by
  have : i < j + 1 ↔ i < j := by omega
  simp only [mid, this]

/-- One slot of the loop: child `j` becomes its pruned version. -/
theorem Inv.step (h : Inv t k page f l c d0 R j s) (hf : f / 512 ^ k ≤ j) (hl : j ≤ l / 512 ^ k)
    (hj : j < 512)
    (hown : Owns s'.d (blocks t (pruned k f l c j) + others t page (mid k f l c j) R j))
    (hframe : Frame (others t page (mid k f l c j) R j) s.d s'.d)
    (htree : pruned k f l c j ≠ empty → tree s'.d k (s.d.node page j) = pruned k f l c j)
    (hslab : SlabOk s'.d) (hhint : HintOk s'.d.ba s'.hint) (hnone : k ≠ 0 → s'.hint = none)
    (hfreed : s'.freed + leaves 512 (pruned k f l c j) = s.freed + leaves 512 (c j))
    (hstart : s'.start = if j = f / 512 ^ k ∧
    pruned k f l c j ≠ empty then s.start + 1 else s.start) (hlast : s'.last = if j ≠ f / 512 ^ k ∧
    j = l / 512 ^ k ∧ pruned k f l c j ≠ empty
      then s.last - 1 else s.last)
    (hall : s'.allRangeFreed = true ↔ s.allRangeFreed = true ∧ pruned k f l c j = empty) :
    Inv t k page f l c d0 R (j + 1) s' := by
  have hself : mid k f l c (j + 1) j = pruned k f l c j := by
    rw [mid_succ hf hl, update_self]
  have hpage : ∀ i, s'.d.node page i = s.d.node page i :=
    hframe.node page (page_mem_others t page _ R j)
  constructor
  case kids =>
    rw [mid_succ hf hl]
    refine h.kids.update hj hown (fun i _ _ => hpage i) (fun i hi hij y hy => ?_) ?_
    · exact hframe.node y (Multiset.mem_of_le (blocks_le_others hi hij) hy)
    · rw [hpage]; exact htree
  case slots => exact fun i => (hpage i).trans (h.slots i)
  case frame => exact h.frame.trans (hframe.mono (le_others t page _ R j))
  case slab => exact hslab
  case hint => exact hhint
  case hint_none => exact hnone
  case freed =>
    have h1 := sum_split (fun i => leaves 512 (mid k f l c (j + 1) i)) hj
    have h2 := sum_split (fun i => leaves 512 (mid k f l c j i)) hj
    have h3 : ∑ i ∈ (Finset.range 512).erase j, leaves 512 (mid k f l c (j + 1) i) =
        ∑ i ∈ (Finset.range 512).erase j, leaves 512 (mid k f l c j i) :=
      Finset.sum_congr rfl fun i hi => by rw [mid_succ_of_ne (Finset.ne_of_mem_erase hi)]
    have h4 := h.freed
    simp only [hself, mid_self] at h1 h2
    omega
  case start =>
    rw [hstart, h.start]
    by_cases hjf : j = f / 512 ^ k
    · rw [← hjf, hself]
      by_cases hx : pruned k f l c j = empty <;> simp [hx]
    · rw [mid_succ_of_ne (Ne.symm hjf)]
      have : f / 512 ^ k < j + 1 ↔ f / 512 ^ k < j := by omega
      simp [hjf, this]
  case last =>
    rw [hlast, h.last]
    by_cases hjl : j = l / 512 ^ k
    · rw [← hjl, hself]
      by_cases hx : pruned k f l c j = empty
      · simp [hx]
      · by_cases hjf : j = f / 512 ^ k
        · simp [← hjf]
        · have : f / 512 ^ k < j := by omega
          simp [hjf, this, hx]
    · rw [mid_succ_of_ne (Ne.symm hjl)]
      have : l / 512 ^ k < j + 1 ↔ l / 512 ^ k < j := by omega
      simp [hjl, this]
  case all =>
    rw [hall, h.all]
    constructor
    · rintro ⟨h1, h2⟩ i hi1 hi2 hi3
      by_cases hij : i = j
      · rw [hij, hself, h2]
      · rw [mid_succ_of_ne hij]
        exact h1 i hi1 (by omega) hi3
    · intro h1
      refine ⟨fun i hi1 hi2 hi3 => ?_, by rw [← hself]; exact h1 j hf (by omega) hl⟩
      rw [← mid_succ_of_ne (by omega : i ≠ j)]
      exact h1 i hi1 (by omega) hi3

theorem Inv.skip (h : Inv t k page f l c d0 R j s) (hf : f / 512 ^ k ≤ j) (hl : j ≤ l / 512 ^ k)
    (hj : j < 512) (hc : c j = empty) : Inv t k page f l c d0 R (j + 1) s := by
  have hp : pruned k f l c j = empty := by simp [pruned, hc]
  have hown := h.kids.split hj
  rw [mid_self, hc, ← hp] at hown
  refine h.step hf hl hj hown .refl (fun hne => absurd hp hne) h.slab h.hint h.hint_none ?_ ?_ ?_ ?_
  · rw [hp, hc]
  · simp [hp]
  · simp [hp]
  · simp [hp]

theorem leaf_step (h : Inv t 0 page f l c d0 R j s)
    (hc : ∀ i < 512, c i = tree d0 0 (d0.node page i)) (h0 : 0 ∈ R) (hf : f / 512 ^ 0 ≤ j)
    (hl : j ≤ l / 512 ^ 0) (hj : j < 512) :
    ∃ s', truncLeafBody t page j s = some (s', none) ∧ Inv t 0 page f l c d0 R (j + 1) s' := by
  have hslot := h.slots j
  unfold truncLeafBody
  by_cases hv : s.d.node page j = 0
  · refine ⟨s, by simp [hv], h.skip hf hl hj ?_⟩
    rw [hc j hj, ← hslot, hv, tree_null]
  · have hleaf : c j = leaf (s.d.node page j) := by rw [hc j hj, ← hslot, tree_leaf hv]
    have hp : pruned 0 f l c j = empty := by rw [pruned, hleaf]; rfl
    have hown := h.kids.split hj
    rw [mid_self, hleaf, blocks_leaf] at hown
    obtain ⟨d', hint', hfree, h1, h2, h3, -, h5⟩ := freeBlockHint_owns hown
      (Multiset.mem_of_le (le_others t page _ R j) h0) h.slab h.hint
    simp only [hv, if_false, hfree, Option.map_some]
    refine ⟨_, rfl, h.step hf hl hj ?_ h5 (fun hne => absurd hp hne) h2 h3 (by simp) ?_ ?_ ?_ ?_⟩
    · rw [hp, blocks_empty, zero_add]; exact h1
    · rw [hp, hleaf]; rfl
    · simp [hp]
    · simp [hp]
    · simp [hp]

/-- What `recursive_truncate_blocks` at height `k` does to the tree under a pointer. -/
def Prunes (t : BlkType) (k : ℕ) (run : ℕ → ℕ → ℕ → Dev → Option (Dev × ℕ × Bool)) : Prop :=
  ∀ {d : Dev} {R : Multiset ℕ} {block f l : ℕ}, block ≠ 0 → f < 512 ^ k → l < 512 ^ k →
    Owns d (blocks t (tree d k block) + R) → 0 ∈ R → SlabOk d →
    ∃ d' freed, run block f l d = some (d', freed, (prune 512 k f l (tree d k block)).isEmpty) ∧
      freed + leaves 512 (prune 512 k f l (tree d k block)) = leaves 512 (tree d k block) ∧
      Frame R d d' ∧ SlabOk d' ∧
      (prune 512 k f l (tree d k block) = empty → Owns d' ({pmfsGetBlocknr block} + R)) ∧
      (prune 512 k f l (tree d k block) ≠ empty →
        tree d' k block = prune 512 k f l (tree d k block) ∧
        Owns d' (blocks t (prune 512 k f l (tree d k block)) + R))

theorem meta_step {rec : ℕ → ℕ → ℕ → Dev → Option (Dev × ℕ × Bool)} (hk : k ≠ 0)
    (hrec : Prunes t k rec) (h : Inv t k page f l c d0 R j s)
    (hc : ∀ i < 512, c i = tree d0 k (d0.node page i)) (h0 : 0 ∈ R) (hf : f / 512 ^ k ≤ j)
    (hl : j ≤ l / 512 ^ k) (hj : j < 512) :
    ∃ s', truncMetaBody rec (k * 9) f l page j s = some (s', none) ∧
      Inv t k page f l c d0 R (j + 1) s' := by
  have hslot := h.slots j
  unfold truncMetaBody
  rw [firstBlk_eq_lo, lastBlk_eq_hi, shiftRight_9, shiftRight_9]
  by_cases hv : s.d.node page j = 0
  · refine ⟨s, by simp [hv], h.skip hf hl hj ?_⟩
    rw [hc j hj, ← hslot, hv, tree_null]
  · have hne : c j ≠ empty := by
      rw [hc j hj, ← hslot]
      exact fun he => hv (tree_eq_empty_iff.mp he)
    have htree : tree s.d k (s.d.node page j) = c j := by
      rw [h.kids.kid j hj (by rwa [mid_self]), mid_self]
    have h0' : 0 ∈ others t page (mid k f l c j) R j :=
      Multiset.mem_of_le (le_others t page _ R j) h0
    have hown := h.kids.split hj
    rw [mid_self, ← htree] at hown
    obtain ⟨d', freed, hrun, hfreed, hframe, hslab, hempty, hfull⟩ :=
      hrec hv (lo_lt (by norm_num) j) (hi_lt (by norm_num) j) hown h0' h.slab
    rw [htree] at hrun hfreed hempty hfull
    change rec _ _ _ _ = some (d', freed, (pruned k f l c j).isEmpty) at hrun
    change freed + leaves 512 (pruned k f l c j) = _ at hfreed
    simp only [hv, if_false, hrun]
    by_cases hp : pruned k f l c j = empty
    · -- the child is empty and its metadata block is freed
      have hown' := hempty hp
      rw [← runBlocks_b4K] at hown'
      obtain ⟨d'', hfree, h1, h2, h3, h4⟩ := freeBlock_owns hown' h0' hslab
      simp only [hp, isEmpty, hfree, Option.map_some]
      refine ⟨_, rfl, h.step hf hl hj ?_ (hframe.trans h4) (fun hne => absurd hp hne) h2 ?_
        h.hint_none ?_ ?_ ?_ ?_⟩
      · rw [hp, blocks_empty, zero_add]; exact h1
      · simp only [h.hint_none hk]; simp [HintOk]
      · rw [← hfreed, add_assoc]
      · simp [hp]
      · simp [hp]
      · simp [hp]
    · obtain ⟨h1, h2⟩ := hfull hp
      have hb : (pruned k f l c j).isEmpty = false := by
        rw [← Bool.not_eq_true, RTree.isEmpty_iff]; exact hp
      simp only [hb]
      refine ⟨_, rfl, h.step hf hl hj h2 hframe (fun _ => h1) hslab ?_ h.hint_none ?_ ?_ ?_ ?_⟩
      · simp only [h.hint_none hk]; simp [HintOk]
      · rw [← hfreed, add_assoc]
      · simp [hp]
      · simp [hp]
      · simp [hp]

/-- Where the loop ends. -/
def stop (k f l : ℕ) : ℕ := f / 512 ^ k + (l / 512 ^ k + 1 - f / 512 ^ k)

theorem mid_stop (i : ℕ) : mid k f l c (stop k f l) i =
    if f / 512 ^ k ≤ i ∧ i ≤ l / 512 ^ k then pruned k f l c i else c i := by
  have : (f / 512 ^ k ≤ i ∧ i < stop k f l ∧ i ≤ l / 512 ^ k) ↔
      (f / 512 ^ k ≤ i ∧ i ≤ l / 512 ^ k) := by
    unfold stop
    omega
  simp only [mid, this]

/-- The children strictly between the first and the last one are pruned away. -/
theorem mid_between (hu : ∀ i, Uniform 512 k (c i)) {i : ℕ} (hf : f / 512 ^ k < i)
    (hl : i < l / 512 ^ k) : mid k f l c (stop k f l) i = empty := by
  have hlo : lo 512 k f i = 0 := if_neg (by omega)
  have hhi : hi 512 k l i = 512 ^ k - 1 := if_neg (by omega)
  rw [mid_stop, if_pos ⟨by omega, by omega⟩, pruned, hlo, hhi]
  exact prune_zero_of_below (by norm_num) (hu i) (below_top (by norm_num) (hu i))

/-- A slot of the range is zeroed at the end exactly when its child is gone. -/
theorem Inv.zeroed_iff (h : Inv t k page f l c d0 R (stop k f l) s)
    (hu : ∀ i, Uniform 512 k (c i)) {i : ℕ} (hf : f / 512 ^ k ≤ i) (hl : i ≤ l / 512 ^ k) :
    (s.start ≤ i ∧ i ≤ s.last) ↔ mid k f l c (stop k f l) i = empty := by
  have hstart := h.start
  have hlast := h.last
  have h1 : f / 512 ^ k < stop k f l := by unfold stop; omega
  have h2 : l / 512 ^ k < stop k f l := by unfold stop; omega
  have hbetween := mid_between (l := l) (f := f) hu (i := i)
  simp only [h1, h2, true_and] at hstart hlast
  generalize f / 512 ^ k = fi at *
  generalize l / 512 ^ k = li at *
  constructor
  · rintro ⟨hs, he⟩
    by_contra hne
    rcases Nat.lt_or_ge fi i with hfi | hfi
    · rcases Nat.lt_or_ge i li with hil | hil
      · exact hne (hbetween hfi hil)
      · obtain rfl : i = li := by omega
        rw [if_pos ⟨hfi, hne⟩] at hlast
        omega
    · obtain rfl : i = fi := by omega
      rw [if_pos hne] at hstart
      omega
  · intro he
    constructor
    · by_contra hcon
      obtain rfl : i = fi := by split_ifs at hstart <;> omega
      rw [if_neg (by simp [he])] at hstart
      omega
    · by_contra hcon
      obtain rfl : i = li := by split_ifs at hlast <;> omega
      rw [if_neg (by simp [he])] at hlast
      omega

/-- The loop found everything gone exactly when all children are. -/
theorem Inv.empty_iff (h : Inv t k page f l c d0 R (stop k f l) s)
    (hc : ∀ i < 512, c i = tree d0 k (d0.node page i)) (hf : f / 512 ^ k < 512)
    (hl : l / 512 ^ k < 512) :
    (s.allRangeFreed && isEmptyMetaBlock (s.d.node page) (f / 512 ^ k) (l / 512 ^ k)) = true ↔
      ∀ i < 512, mid k f l c (stop k f l) i = empty := by
  have hslot : ∀ i < 512, s.d.node page i = 0 ↔ c i = empty := fun i hi => by
    rw [hc i hi, h.slots, tree_eq_empty_iff]
  rw [Bool.and_eq_true, h.all, isEmptyMetaBlock_iff hl hf.le]
  constructor
  · rintro ⟨h1, h2⟩ i hi
    by_cases hin : f / 512 ^ k ≤ i ∧ i ≤ l / 512 ^ k
    · exact h1 i hin.1 (by unfold stop; omega) hin.2
    · rw [mid_stop, if_neg hin]
      exact (hslot i hi).mp (h2 i hi (by omega))
  · intro h1
    refine ⟨fun i hi1 hi2 hi3 => h1 i (by omega), fun i hi hout => (hslot i hi).mpr ?_⟩
    have := h1 i hi
    rwa [mid_stop, if_neg (by omega)] at this

/-- After the slots of the children that are gone have been zeroed, the tree is the pruned one. -/
theorem Inv.tree_eq (h : Inv t k (pmfsGetBlocknr p) f l c d0 R (stop k f l) s) (hp : p ≠ 0)
    (hc : ∀ i < 512, c i = tree d0 k (d0.node (pmfsGetBlocknr p) i))
    (hc' : ∀ i, 512 ≤ i → c i = empty) (hl : l / 512 ^ k < 512) {d' : Dev}
    (hd : ∀ x i, d'.node x i =
      if x = pmfsGetBlocknr p ∧ s.start ≤ i ∧ i ≤ s.last then 0 else s.d.node x i) :
    tree d' (k + 1) p = node p (mid k f l c (stop k f l)) := by
  have hu : ∀ i, Uniform 512 k (c i) := fun i => by
    by_cases hi : i < 512
    · rw [hc i hi]; exact uniform_tree
    · rw [hc' i (by omega)]; cases k <;> trivial
  have hbounds : f / 512 ^ k ≤ s.start ∧ s.last ≤ l / 512 ^ k := by
    have h1 := h.start
    have h2 := h.last
    generalize f / 512 ^ k = fi at *
    generalize l / 512 ^ k = li at *
    split_ifs at h1 h2 <;> omega
  rw [tree_node hp]
  congr 1
  funext i
  by_cases hi : i < 512
  · rw [if_pos hi, hd]
    by_cases hz : s.start ≤ i ∧ i ≤ s.last
    · rw [if_pos ⟨rfl, hz⟩, tree_null, (h.zeroed_iff hu (by omega) (by omega)).mp hz]
    · rw [if_neg (by tauto)]
      by_cases hm : mid k f l c (stop k f l) i = empty
      · have hout : ¬ (f / 512 ^ k ≤ i ∧ i ≤ l / 512 ^ k) := fun hin =>
          hz ((h.zeroed_iff hu hin.1 hin.2).mpr hm)
        rw [hm, tree_eq_empty_iff, h.slots, ← tree_eq_empty_iff, ← hc i hi]
        rwa [mid_stop, if_neg hout] at hm
      · rw [← h.kids.kid i hi hm]
        refine tree_congr (t := t) fun x hx j => ?_
        rw [h.kids.kid i hi hm] at hx
        -- the node itself is not among the blocks of its children
        have hne : x ≠ pmfsGetBlocknr p := by
          rintro rfl
          have hnd := (h.kids.split hi).nodup
          exact Multiset.disjoint_left.mp (Multiset.nodup_add.mp hnd).2.2 hx
            (page_mem_others t _ _ R i)
        rw [hd, if_neg (by tauto)]
  · rw [if_neg hi, mid_stop, if_neg (by omega), hc' i (by omega)]

theorem Inv.finish (h : Inv t k (pmfsGetBlocknr p) f l c d0 R (stop k f l) s) (hp : p ≠ 0)
    (hc : ∀ i < 512, c i = tree d0 k (d0.node (pmfsGetBlocknr p) i))
    (hc' : ∀ i, 512 ≤ i → c i = empty) (hf : f / 512 ^ k < 512) (hl : l / 512 ^ k < 512) :
    ∃ d', truncFinish (pmfsGetBlocknr p) (f / 512 ^ k) (l / 512 ^ k) s =
        (d', s.freed, (prune 512 (k + 1) f l (node p c)).isEmpty) ∧
      s.freed + leaves 512 (prune 512 (k + 1) f l (node p c)) = leaves 512 (node p c) ∧
      Frame R d0 d' ∧ SlabOk d' ∧
      (prune 512 (k + 1) f l (node p c) = empty → Owns d' ({pmfsGetBlocknr p} + R)) ∧
      (prune 512 (k + 1) f l (node p c) ≠ empty →
        tree d' (k + 1) p = prune 512 (k + 1) f l (node p c) ∧
        Owns d' (blocks t (prune 512 (k + 1) f l (node p c)) + R)) := by
  have hempty := h.empty_iff hc hf hl
  have hown := h.kids.owns
  have hfreed := h.freed
  unfold truncFinish
  rcases prune_cases (fun i => mid_stop i) with ⟨hall, hpr⟩ | ⟨hall, hpr⟩
  · rw [if_pos (hempty.mpr hall), hpr]
    have hz' : ∀ i ∈ Finset.range 512, leaves 512 (mid k f l c (stop k f l) i) = 0 := fun i hi => by
      rw [hall i (Finset.mem_range.mp hi)]; rfl
    rw [kidBlocks_eq_zero hall, add_zero] at hown
    rw [Finset.sum_eq_zero hz'] at hfreed
    exact ⟨s.d, rfl, hfreed, h.frame, h.slab, fun _ => hown, fun hne => absurd rfl hne⟩
  · rw [if_neg (fun hcon => hall (hempty.mp hcon)), hpr]
    have hne : node p (mid k f l c (stop k f l)) ≠ empty := by simp
    rw [← blocks_node] at hown
    have hR : ∀ x ∈ R, x ≠ pmfsGetBlocknr p := fun x hx => ne_of_nodup_add h.kids.owns.nodup hx
    by_cases hse : s.start ≤ s.last
    · rw [if_pos hse]
      refine ⟨_, rfl, hfreed, h.frame.trans ⟨fun x hx i => ?_, rfl, rfl, le_rfl⟩, h.slab,
        fun he => absurd he hne, fun _ => ⟨h.tree_eq hp hc hc' hl fun x i => rfl, ?_⟩⟩
      · simp [Dev.zeroSlots, hR x hx]
      · exact hown.congr rfl
    · rw [if_neg hse]
      refine ⟨_, rfl, hfreed, h.frame, h.slab, fun he => absurd he hne, fun _ =>
        ⟨h.tree_eq hp hc hc' hl fun x i => ?_, hown⟩⟩
      rw [if_neg (by omega)]

theorem mid_start : mid k f l c (f / 512 ^ k) = c := by
  funext i
  rw [mid, if_neg (by omega)]

theorem inv_start {d : Dev} (hown : Owns d ({page} + kidBlocks t c + R))
    (hc : ∀ i < 512, c i = tree d k (d.node page i)) (hs : SlabOk d) :
    Inv t k page f l c d R (f / 512 ^ k) ⟨d, none, 0, f / 512 ^ k, l / 512 ^ k, true⟩ := by
  constructor
  case kids =>
    rw [mid_start]
    exact ⟨hown, fun i hi _ => (hc i hi).symm⟩
  case slots => exact fun i => rfl
  case frame => exact .refl
  case slab => exact hs
  case hint => simp [HintOk]
  case hint_none => exact fun _ => rfl
  case freed => simp only [mid_start, zero_add]
  case start => simp
  case last => rw [if_neg (by omega)]
  case all => simp only [true_iff]; omega

/-- The loop followed by the end of the function, when the loop takes one step after the other. -/
theorem loop_prunes {d : Dev} {body : ℕ → TruncLoop → Option (TruncLoop × Option Errno)}
    (hp : p ≠ 0) (hf : f / 512 ^ k < 512) (hl : l / 512 ^ k < 512)
    (hown : Owns d (blocks t (tree d (k + 1) p) + R)) (hs : SlabOk d)
    (hstep : ∀ j s, f / 512 ^ k ≤ j → j ≤ l / 512 ^ k → j < 512 →
      Inv t k (pmfsGetBlocknr p) f l (kidsOf d k p) d R j s →
      ∃ s', body j s = some (s', none) ∧
        Inv t k (pmfsGetBlocknr p) f l (kidsOf d k p) d R (j + 1) s') :
    ∃ d' freed, (forLoop body (f / 512 ^ k) (l / 512 ^ k + 1 - f / 512 ^ k)
        ⟨d, none, 0, f / 512 ^ k, l / 512 ^ k, true⟩).map
          (fun r => truncFinish (pmfsGetBlocknr p) (f / 512 ^ k) (l / 512 ^ k) r.1) =
        some (d', freed, (prune 512 (k + 1) f l (tree d (k + 1) p)).isEmpty) ∧
      freed + leaves 512 (prune 512 (k + 1) f l (tree d (k + 1) p)) =
        leaves 512 (tree d (k + 1) p) ∧
      Frame R d d' ∧ SlabOk d' ∧
      (prune 512 (k + 1) f l (tree d (k + 1) p) = empty → Owns d' ({pmfsGetBlocknr p} + R)) ∧
      (prune 512 (k + 1) f l (tree d (k + 1) p) ≠ empty →
        tree d' (k + 1) p = prune 512 (k + 1) f l (tree d (k + 1) p) ∧
        Owns d' (blocks t (prune 512 (k + 1) f l (tree d (k + 1) p)) + R)) := by
  rw [tree_kids hp] at hown ⊢
  rw [blocks_node] at hown
  obtain ⟨s, hloop, hinv⟩ := forLoop_total (n := l / 512 ^ k + 1 - f / 512 ^ k)
    (fun j s h1 h2 hj => hstep j s h1 (by omega) (by omega) hj) (inv_start hown kidsOf_eq hs)
  obtain ⟨d', hfin, hrest⟩ := Inv.finish hinv hp kidsOf_eq (fun i hi => if_neg (by omega)) hf hl
  exact ⟨d', s.freed, by rw [hloop, Option.map_some, hfin], hrest⟩

end Loop

/-- **Truncation prunes.** `recursive_truncate_blocks` frees what pruning takes out of the tree, and
its answer says whether the pruned tree is empty. -/
theorem truncate_prunes (t : BlkType) (k : ℕ) :
    Prunes t (k + 1) (recursiveTruncateBlocks t (k + 1)) := by
  induction k with
  | zero =>
    intro d R block f l hb hf hl hown h0 hs
    rw [zero_add, pow_one] at hf hl
    rw [recursiveTruncateBlocks, if_neg hb]
    simp only [shiftRight_9, if_true]
    refine loop_prunes hb (by simpa using hf) (by simpa using hl) hown hs
      fun j s h1 h2 h3 hinv => ?_
    exact leaf_step hinv kidsOf_eq h0 h1 h2 h3
  | succ k ih =>
    intro d R block f l hb hf hl hown h0 hs
    rw [pow_succ'] at hf hl
    rw [recursiveTruncateBlocks, if_neg hb]
    simp only [shiftRight_9, if_neg (Nat.succ_ne_zero k)]
    refine loop_prunes hb (Nat.div_lt_of_lt_mul (Nat.mul_comm _ _ ▸ hf))
      (Nat.div_lt_of_lt_mul (Nat.mul_comm _ _ ▸ hl)) hown hs fun j s h1 h2 h3 hinv => ?_
    exact meta_step (Nat.succ_ne_zero k) ih hinv kidsOf_eq h0 h1 h2 h3

end Pmfs.Tree.Truncate
