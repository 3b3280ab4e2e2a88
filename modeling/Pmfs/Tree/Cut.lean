import Pmfs.Tree.Extend

/-! # What a truncation takes away

`__pmfs_truncate_blocks` prunes the tree of an inode, corrects `i_blocks` and lowers the tree to the
height of the new size. `CutAt` says what this is for: the blocks from the new end on are given up,
with the metadata blocks that lead to no data any more, and nothing else changes.

The last step follows slot 0 of the upper metadata blocks, whatever hangs under the others is lost
(`decreaseLoop_lost`), and it expects that no metadata block is left when no data block is. Both are
right when every metadata block that the range leaves leads to data, and only then (`decrease_iff`).
An allocation that fails leaves metadata blocks that do not (`barren_bugs`). The number of freed
blocks is multiplied in 32 bits (`truncIblocks_iff`). -/

namespace Pmfs.Tree.Cut

open Lib.Radix Lib.RadixMap Block.Model Block.Spec
open Tree.Model Tree.Own Tree.Truncate Tree.Inode Tree.Extend
open RTree

/-- The first index that a truncation at `start` gives up. -/
def firstOf (pi : PmfsInode) (start : ℕ) : ℕ :=
  (start + 2 ^ pmfsInodeBlkShift pi - 1) >>> pmfsInodeBlkShift pi

/-- The number of data blocks from an index on. -/
def dropped (d : Dev) (pi : PmfsInode) (first : ℕ) : ℕ :=
  ((Finset.range (512 ^ 3)).filter fun n => first ≤ n ∧ mapped d pi n ≠ 0).card

/-- The tree without the range that the truncation frees. -/
def remaining (d : Dev) (pi : PmfsInode) (start stop : ℕ) : RTree :=
  match truncRange pi start stop with
  | none => treeOf d pi
  | some (first, last) => prune 512 pi.height first last (treeOf d pi)

variable {d d' : Dev} {pi pi' : PmfsInode} {R : Multiset ℕ} {t : BlkType} {T : RTree}
  {m p root start : ℕ}

/-- A metadata block with one child at most, in its first slot. -/
theorem fruitful_first (hp : p ≠ 0) (hkids : ∀ i, i ≠ 0 → kidsOf d m p i = empty) :
    Fruitful 512 (tree d (m + 1) p) ↔ tree d m (d.node (pmfsGetBlocknr p) 0) ≠ empty ∧
      Fruitful 512 (tree d m (d.node (pmfsGetBlocknr p) 0)) := by
  have h0 : kidsOf d m p 0 = tree d m (d.node (pmfsGetBlocknr p) 0) := kidsOf_eq 0 (by norm_num)
  rw [tree_kids hp, Fruitful, ← h0]
  constructor
  · rintro ⟨⟨i, hi, hne⟩, hall⟩
    refine ⟨?_, hall 0 (by norm_num)⟩
    by_cases hi0 : i = 0
    · exact hi0 ▸ hne
    · exact absurd (hkids i hi0) hne
  · rintro ⟨hne, hf⟩
    refine ⟨⟨0, by norm_num, hne⟩, fun i _ => ?_⟩
    by_cases hi0 : i = 0
    · exact hi0 ▸ hf
    · rw [hkids i hi0]
      trivial

theorem lookup_first (hp : p ≠ 0) (hkids : ∀ i, i ≠ 0 → kidsOf d m p i = empty) (n : ℕ) :
    lookup 512 (m + 1) (tree d (m + 1) p) n =
      lookup 512 m (tree d m (d.node (pmfsGetBlocknr p) 0)) n := by
  rw [tree_kids hp, lookup_single (by norm_num) hkids, kidsOf_eq 0 (by norm_num)]

theorem ne_empty_of_lookup {k n : ℕ} (h : lookup 512 k T n ≠ 0) : T ≠ empty := by
  rintro rfl
  exact h lookup_empty

/-- Below the first child, the lookup goes on there. -/
theorem lookup_zero (hp : p ≠ 0) {i : ℕ} (hi : i < 512 ^ m) :
    lookup 512 (m + 1) (tree d (m + 1) p) i =
    lookup 512 m (tree d m (d.node (pmfsGetBlocknr p) 0)) i := by
  have hle : 512 ^ m ≤ 512 ^ (m + 1) := Nat.pow_le_pow_right (by norm_num) (Nat.le_succ m)
  rw [lookup_of_lt (hi.trans_le hle), lookup_of_lt hi, tree_kids hp, find, Nat.div_eq_of_lt hi,
    Nat.mod_eq_of_lt hi, kidsOf_eq 0 (by norm_num)]

/-- The loop of `pmfs_decrease_btree_height` frees one metadata block per level. What hangs under
the other slots stays in use and no tree leads to it; if there is nothing, the tree maps what it
did. -/
theorem decreaseLoop_lost : ∀ {n : ℕ} {d d' : Dev} {p p' : ℕ} {R : Multiset ℕ}, 0 ∈ R → SlabOk d →
    Owns d (blocks t (tree d (m + n) p) + R) → decreaseLoop n d p = some (d', p') →
    ∃ lost, Owns d' (blocks t (tree d' m p') + lost + R) ∧ Frame R d d' ∧ SlabOk d' ∧
      (∀ i < 512 ^ m, lookup 512 m (tree d' m p') i = lookup 512 (m + n) (tree d (m + n) p) i) ∧
      (Below 512 (m + n) (512 ^ m - 1) (tree d (m + n) p) → lost = 0) ∧
      (lost = 0 → (∀ i, lookup 512 m (tree d' m p') i = lookup 512 (m + n) (tree d (m + n) p) i) ∧
        (Fruitful 512 (tree d (m + n) p) → Fruitful 512 (tree d' m p')) ∧
        (tree d' m p' ≠ empty → Fruitful 512 (tree d' m p') → Fruitful 512 (tree d (m + n) p)))
  | 0, d, d', p, p', R, _, hs, hown, h => by
    simp only [decreaseLoop] at h
    cases h
    exact ⟨0, by rwa [add_zero], .refl, hs, fun _ _ => rfl, fun _ => rfl,
      fun _ => ⟨fun _ => rfl, id, fun _ => id⟩⟩
  | n + 1, d, d', p, p', R, h0, hs, hown, h => by
    by_cases hp : p = 0
    · simp [decreaseLoop, hp] at h
    rw [← Nat.add_assoc] at hown ⊢
    obtain ⟨d1, hstep, hs1, htree, hframe, hown1⟩ := decreaseLoop_step n h0 hs hp hown
    rw [hstep] at h
    obtain ⟨lost, hown', hframe', hs', hlow, hbelow, hsame⟩ :=
      decreaseLoop_lost (Multiset.mem_add.mpr (Or.inr h0)) hs1 hown1 h
    rw [htree] at hlow hbelow hsame
    have hle : 512 ^ m ≤ 512 ^ (m + n) := Nat.pow_le_pow_right (by norm_num) (Nat.le_add_right m n)
    refine ⟨lost + sideBlocks t d (m + n) p, ?_,
      (hframe.trans hframe').mono (Multiset.le_add_left _ _), hs', fun i hi => ?_, fun hb => ?_,
      fun hlost => ?_⟩
    · rw [← add_assoc, add_assoc _ _ R]
      exact hown'
    · rw [hlow i hi, lookup_zero hp (hi.trans_le hle)]
    · have hlt : 512 ^ m - 1 < 512 ^ (m + n) := by
        have h2 : 0 < 512 ^ m := by positivity
        omega
      rw [hbelow (below_child hp hb), zero_add, sideBlocks_eq_zero_iff]
      rw [tree_kids hp] at hb
      exact fun i hi => hb.eq_empty hlt hi
    · obtain ⟨hlost1, hrest⟩ := add_eq_zero.mp hlost
      have hkids := sideBlocks_eq_zero_iff.mp hrest
      obtain ⟨hl, hf, hb⟩ := hsame hlost1
      refine ⟨fun i => by rw [hl, lookup_first hp hkids],
        fun hT => hf ((fruitful_first hp hkids).mp hT).2, fun hne hT =>
        (fruitful_first hp hkids).mpr ⟨?_, hb hne hT⟩⟩
      -- the child maps what the lowered tree maps, and that is not empty
      obtain ⟨i, hi, hfind⟩ := fruitful_exists_find hT uniform_tree hne
      rw [← lookup_of_lt hi, hl] at hfind
      exact ne_empty_of_lookup hfind

/-- The loop meets no null pointer on the way to a data block. -/
theorem decreaseLoop_some : ∀ {n : ℕ} {d : Dev} {p : ℕ} {R : Multiset ℕ}, 0 ∈ R → SlabOk d →
    Owns d (blocks t (tree d (m + n) p) + R) →
    (∃ i < 512 ^ m, lookup 512 (m + n) (tree d (m + n) p) i ≠ 0) →
    ∃ d' p', decreaseLoop n d p = some (d', p')
  | 0, d, p, R, _, _, _, _ => ⟨d, p, rfl⟩
  | n + 1, d, p, R, h0, hs, hown, ⟨i, hi, hfind⟩ => by
    have hp : p ≠ 0 := fun hp => ne_empty_of_lookup hfind (by rw [hp, tree_null])
    rw [← Nat.add_assoc] at hown hfind
    obtain ⟨d1, hstep, hs1, htree, -, hown1⟩ := decreaseLoop_step n h0 hs hp hown
    have hlt : i < 512 ^ (m + n) :=
      hi.trans_le (Nat.pow_le_pow_right (by norm_num) (Nat.le_add_right m n))
    have hkid : lookup 512 (m + n) (tree d1 (m + n) (d.node (pmfsGetBlocknr p) 0)) i ≠ 0 := by
      rwa [htree, ← lookup_zero hp hlt]
    obtain ⟨d', p', hrun⟩ :=
      decreaseLoop_some (Multiset.mem_add.mpr (Or.inr h0)) hs1 hown1 ⟨i, hi, hkid⟩
    exact ⟨d', p', hstep.trans hrun⟩

/-! ### Lowering the tree -/

/-- The inode describes the tree `T` of height `h`, in which every metadata block leads to data. -/
structure Describes (R : Multiset ℕ) (h : ℕ) (T : RTree) (d : Dev) (pi : PmfsInode) : Prop where
  wf : WellFormed R d pi
  mapped : ∀ n, mapped d pi n = lookup 512 h T n
  leads : Fruitful 512 (treeOf d pi)

/-- When `pmfs_decrease_btree_height` is called: the tree under `root` owns its blocks, `i_blocks`
counts its data blocks, and nothing is mapped from the new end on. -/
structure Ready (R : Multiset ℕ) (d : Dev) (pi : PmfsInode) (start root : ℕ) : Prop where
  zero : 0 ∈ R
  slab : SlabOk d
  owns : Owns d (blocks pi.iBlkType (tree d pi.height root) + R)
  height : pi.height ≤ 3
  kept : root = 0 ∨ root = pi.root
  count : pi.iBlocks = UInt64.ofNat (leaves 512 (tree d pi.height root) * unit pi)
  first : firstOf pi start ≤ 512 ^ pi.height
  unmapped : ∀ n, firstOf pi start ≤ n → lookup 512 pi.height (tree d pi.height root) n = 0

theorem leaves_eq_zero {k : ℕ} (h : ∀ n, lookup 512 k (tree d k p) n = 0) :
    leaves 512 (tree d k p) = 0 := by
  rw [leaves_eq_card uniform_tree, Finset.card_eq_zero, Finset.filter_eq_empty_iff]
  intro n hn hne
  exact hne (by rw [← lookup_of_lt (Finset.mem_range.mp hn), h])

/-- The inode is cleared when there is no data block left. -/
theorem Ready.no_leaves (g : Ready R d pi start root) (hz : pi.iBlocks = 0 ∨ start = 0) :
    leaves 512 (tree d pi.height root) = 0 := by
  rcases hz with hz | hz
  · rw [g.count] at hz
    have hzero := congrArg UInt64.toNat hz
    rw [UInt64.toNat_ofNat', Nat.mod_eq_of_lt (count_lt g.height)] at hzero
    exact (Nat.mul_eq_zero.mp hzero).resolve_right (unit_pos pi).ne'
  · refine leaves_eq_zero fun n => g.unmapped n ?_
    have hpow : 0 < 2 ^ pmfsInodeBlkShift pi := by positivity
    rw [hz, firstOf, Nat.shiftRight_eq_div_pow, Nat.div_eq_of_lt (by omega)]
    exact Nat.zero_le n

theorem Ready.ne_empty (g : Ready R d pi start root) (hz : ¬ (pi.iBlocks = 0 ∨ start = 0)) :
    tree d pi.height root ≠ empty := by
  intro he
  have hcount := g.count
  rw [he, leaves, Nat.zero_mul] at hcount
  exact hz (Or.inl hcount)

theorem Ready.root_eq (g : Ready R d pi start root) (hz : ¬ (pi.iBlocks = 0 ∨ start = 0)) :
    root = pi.root :=
  g.kept.resolve_left fun hcon => g.ne_empty hz (by rw [hcon, tree_null])

theorem Ready.first_le_iff (g : Ready R d pi start root) {n : ℕ} :
    heightForSize pi start ≤ n ↔ firstOf pi start ≤ 512 ^ n :=
  heightForSize_le_iff (g.first.trans (Nat.pow_le_pow_right (by norm_num) g.height)) rfl

/-- Where every metadata block leads to data, the inode describes the tree afterwards. -/
theorem Ready.describes (g : Ready R d pi start root) (hf : Fruitful 512 (tree d pi.height root)) :
    ∃ d' pi', pmfsDecreaseBtreeHeight d pi start root = some (d', pi') ∧
      Describes R pi.height (tree d pi.height root) d' pi' ∧ Frame R d d' := by
  unfold pmfsDecreaseBtreeHeight
  by_cases hz : pi.iBlocks = 0 ∨ start = 0
  · have hroot : root = 0 := tree_eq_empty_iff.mp (hf.eq_empty (g.no_leaves hz))
    have hown := g.owns
    subst hroot
    rw [tree_null] at hown ⊢
    rw [if_pos hz]
    refine ⟨d, { pi with height := 0, root := 0 }, rfl,
      ⟨⟨?_, fun _ => rfl, Nat.zero_le _⟩, fun n => ?_, ?_⟩, .refl⟩
    · rwa [inodeBlocks_of_root rfl, ← blocks_empty]
    · rw [mapped_of_root rfl, lookup_empty]
    · rw [treeOf_of_root rfl]
      trivial
  have hne := g.ne_empty hz
  have hr := g.root_eq hz
  subst hr
  rw [if_neg hz]
  by_cases heq : pi.height = heightForSize pi start
  · rw [if_pos heq]
    exact ⟨d, pi, rfl, ⟨⟨g.owns, fun hcon => absurd (by rw [hcon, tree_null]) hne, g.height⟩,
      fun _ => rfl, hf⟩, .refl⟩
  rw [if_neg heq]
  have hnew : heightForSize pi start ≤ pi.height := g.first_le_iff.mpr g.first
  have hle : firstOf pi start ≤ 512 ^ heightForSize pi start := g.first_le_iff.mp le_rfl
  have hsum : heightForSize pi start + (pi.height - heightForSize pi start) = pi.height := by omega
  have hown0 : Owns d (blocks pi.iBlkType (tree d (heightForSize pi start +
      (pi.height - heightForSize pi start)) pi.root) + R) := by rw [hsum]; exact g.owns
  have hbelow : Below 512 pi.height (512 ^ heightForSize pi start - 1)
    (tree d pi.height pi.root) := by
    refine fruitful_below hf uniform_tree fun n hn hlt => ?_
    rw [← lookup_of_lt hn]
    exact g.unmapped n (by omega)
  obtain ⟨i, hi, hfind⟩ := fruitful_exists_find hf uniform_tree hne
  have hi' : i < 512 ^ heightForSize pi start := by
    by_contra hcon
    refine hfind ?_
    rw [← lookup_of_lt hi]
    exact g.unmapped i (by omega)
  obtain ⟨d', p', hloop⟩ := decreaseLoop_some g.zero g.slab hown0
    ⟨i, hi', by rwa [hsum, lookup_of_lt hi]⟩
  obtain ⟨lost, hown', hframe, -, -, hzero, hsame⟩ := decreaseLoop_lost g.zero g.slab hown0 hloop
  rw [hsum] at hzero hsame
  have hlost := hzero hbelow
  subst hlost
  obtain ⟨hl, hf', -⟩ := hsame rfl
  rw [add_zero] at hown'
  refine ⟨d', { pi with height := heightForSize pi start, root := p' }, by rw [hloop]; rfl,
    ⟨⟨hown', fun hcon => absurd ?_ hfind, hnew.trans g.height⟩, fun n => hl n, hf' hf⟩, hframe⟩
  have hcon : p' = 0 := hcon
  rw [← lookup_of_lt hi, ← hl, hcon, tree_null, lookup_empty]

theorem owns_lost_eq_zero {M lost : Multiset ℕ} (h : Owns d (M + lost + R)) (h' : Owns d (M + R)) :
    lost = 0 := by
  refine Multiset.eq_zero_of_forall_notMem fun x hx => ?_
  have hmem := (h'.mem x).mpr ((h.mem x).mp (by simp [hx]))
  have hnodup := h.nodup
  rw [add_right_comm] at hnodup
  exact Multiset.disjoint_left.mp (Multiset.nodup_add.mp hnodup).2.2 hmem hx

/-- Conversely, the inode describes the tree only if every metadata block of it leads to data. -/
theorem Ready.fruitful (g : Ready R d pi start root)
    (hrun : pmfsDecreaseBtreeHeight d pi start root = some (d', pi'))
    (hdesc : Describes R pi.height (tree d pi.height root) d' pi') :
    Fruitful 512 (tree d pi.height root) := by
  unfold pmfsDecreaseBtreeHeight at hrun
  by_cases hz : pi.iBlocks = 0 ∨ start = 0
  · rw [if_pos hz] at hrun
    by_cases hroot : root = 0
    · rw [hroot, tree_null]
      trivial
    · simp [hroot] at hrun
  have hr := g.root_eq hz
  subst hr
  rw [if_neg hz] at hrun
  by_cases heq : pi.height = heightForSize pi start
  · rw [if_pos heq] at hrun
    cases hrun
    exact hdesc.leads
  rw [if_neg heq] at hrun
  have hnew : heightForSize pi start ≤ pi.height := g.first_le_iff.mpr g.first
  have hsum : heightForSize pi start + (pi.height - heightForSize pi start) = pi.height := by omega
  obtain ⟨⟨d1, p1⟩, hloop, hr⟩ := Option.map_eq_some_iff.mp hrun
  cases hr
  obtain ⟨lost, hown', -, -, -, -, hsame⟩ :=
    decreaseLoop_lost g.zero g.slab (by rw [hsum]; exact g.owns) hloop
  obtain ⟨hl, -, hback⟩ := hsame (owns_lost_eq_zero hown' hdesc.wf.owns)
  rw [hsum] at hback
  refine hback (fun he => hz (Or.inl ?_)) hdesc.leads
  -- an empty tree maps nothing, and `i_blocks` says that something is mapped
  have hleaves : leaves 512 (tree d pi.height pi.root) = 0 := leaves_eq_zero fun n => by
    have hmap := hdesc.mapped n
    unfold mapped treeOf at hmap
    rw [← hmap, he, lookup_empty]
  rw [g.count, hleaves, Nat.zero_mul]
  rfl

/-! ### Counting -/

theorem sum_list_range (f : ℕ → ℕ) : ∀ n, ((List.range n).map f).sum = ∑ i ∈ Finset.range n, f i
  | 0 => rfl
  | n + 1 => by
    rw [List.range_succ, List.map_append, List.sum_append, sum_list_range f n,
      Finset.sum_range_succ]
    simp

theorem countRecursive_eq : ∀ {h p : ℕ}, p ≠ 0 →
    pmfsInodeCountIblocksRecursive d.node h p = leaves 512 (tree d h p)
  | 0, p, hp => by
    rw [tree_leaf hp]
    rfl
  | h + 1, p, hp => by
    rw [pmfsInodeCountIblocksRecursive, tree_kids hp, leaves, sum_list_range]
    refine Finset.sum_congr rfl fun i hi => ?_
    rw [kidsOf_eq i (Finset.mem_range.mp hi)]
    by_cases hv : d.node (pmfsGetBlocknr p) i = 0
    · simp [hv, leaves]
    · simp [hv, countRecursive_eq hv]

theorem countIblocks_eq : pmfsInodeCountIblocks d pi root =
    leaves 512 (tree d pi.height root) * unit pi := by
  unfold pmfsInodeCountIblocks
  by_cases hroot : root = 0
  · rw [if_pos hroot, hroot, tree_null, leaves, Nat.zero_mul]
  · rw [if_neg hroot, countRecursive_eq hroot, Nat.shiftLeft_eq, unit]

/-- `i_blocks` goes down by the freed blocks when these fit into 32 bits, or when it is counted. -/
theorem truncIblocks_iff {iBlocks : UInt64} {freed : ℕ}
    (hib : iBlocks = UInt64.ofNat ((freed + leaves 512 (tree d pi.height root)) * unit pi))
    (hlt : (freed + leaves 512 (tree d pi.height root)) * unit pi < 2 ^ 64) :
    truncIblocks d pi iBlocks root freed + UInt64.ofNat (freed * unit pi) = iBlocks ↔
      d.mounting = true ∨ freed * unit pi < 2 ^ 32 := by
  rw [Nat.add_mul] at hib hlt
  unfold truncIblocks
  cases hm : d.mounting with
  | true =>
    rw [if_pos rfl, countIblocks_eq, hib, UInt64.ofNat_add, add_comm]
    simp
  | false =>
    simp only [Bool.false_eq_true, if_false, false_or]
    rw [← unit]
    have hmod : freed * unit pi % 2 ^ 32 < 2 ^ 64 := by omega
    constructor
    · intro h
      have hsub : UInt64.ofNat (freed * unit pi) = UInt64.ofNat (freed * unit pi % 2 ^ 32) := by
        generalize UInt64.ofNat (freed * unit pi) = a at h ⊢
        generalize UInt64.ofNat (freed * unit pi % 2 ^ 32) = b at h ⊢
        grind
      have hnat := congrArg UInt64.toNat hsub
      rw [UInt64.toNat_ofNat', UInt64.toNat_ofNat', Nat.mod_eq_of_lt (by omega),
        Nat.mod_eq_of_lt hmod] at hnat
      omega
    · intro h
      rw [Nat.mod_eq_of_lt h]
      grind

/-! ### The whole truncation -/

/-- What a truncation that gives up the indices from `first` on is for: the data blocks from there
on are given up and the others are found as before, the inode owns exactly the blocks of its tree,
in which every metadata block leads to data, and `i_blocks` goes down by the blocks given up. -/
structure CutAt (R : Multiset ℕ) (first : ℕ) (d : Dev) (pi : PmfsInode) (d' : Dev) (inode' : Inode)
    (pi' : PmfsInode) : Prop where
  wf : WellFormed R d' pi'
  frame : Frame R d d'
  lower : ∀ b, indexOf pi b < first → pmfsFindDataBlock d' pi' b = pmfsFindDataBlock d pi b
  upper : ∀ b, first ≤ indexOf pi b → pmfsFindDataBlock d' pi' b = some 0
  leads : Fruitful 512 (treeOf d' pi')
  iBlocks : pi'.iBlocks + UInt64.ofNat (dropped d pi first * unit pi) = pi.iBlocks
  inode : inode'.iBlocks = pi'.iBlocks

variable {inode inode' : Inode} {first last stop now : ℕ}

theorem findDataBlock_first (hroot : pi.root = 0 → pi.height = 0) (n : ℕ) :
    pmfsFindDataBlock d pi (n <<< (pmfsInodeBlkShift pi - 12)) = some (mapped d pi n) := by
  have hidx : indexOf pi (n <<< (pmfsInodeBlkShift pi - 12)) = n := Nat.shiftLeft_shiftRight _ _
  have hoff : n <<< (pmfsInodeBlkShift pi - 12) &&& (1 <<< (pmfsInodeBlkShift pi - 12)) - 1 =
    0 := by
    rw [Nat.one_shiftLeft, Nat.and_two_pow_sub_one_eq_mod, Nat.shiftLeft_eq, Nat.mul_mod_left]
  rw [findDataBlock_mapped hroot, hidx, hoff, Nat.zero_shiftLeft, add_zero]
  split_ifs with h
  · rw [h]
  · rfl

theorem lookups_iff (hroot : pi.root = 0 → pi.height = 0) (hroot' : pi'.root = 0 → pi'.height = 0)
    (ht : pi'.iBlkType = pi.iBlkType) :
    (∀ b, indexOf pi b < first → pmfsFindDataBlock d' pi' b = pmfsFindDataBlock d pi b) ∧
      (∀ b, first ≤ indexOf pi b → pmfsFindDataBlock d' pi' b = some 0) ↔
      ∀ n, mapped d' pi' n = if n < first then mapped d pi n else 0 := by
  have hshift : pmfsInodeBlkShift pi' = pmfsInodeBlkShift pi := by unfold pmfsInodeBlkShift; rw [ht]
  have hidx : ∀ b, indexOf pi' b = indexOf pi b := fun b => by unfold indexOf; rw [hshift]
  constructor
  · rintro ⟨hlow, hup⟩ n
    have hn : indexOf pi (n <<< (pmfsInodeBlkShift pi - 12)) = n := Nat.shiftLeft_shiftRight _ _
    have hfind : pmfsFindDataBlock d' pi' (n <<< (pmfsInodeBlkShift pi - 12)) =
      some (mapped d' pi' n) := by
      rw [← hshift]
      exact findDataBlock_first hroot' n
    by_cases hlt : n < first
    · rw [if_pos hlt]
      have := hlow _ (by rwa [hn])
      rw [hfind, findDataBlock_first hroot, Option.some.injEq] at this
      exact this
    · rw [if_neg hlt]
      have := hup _ (by rw [hn]; omega)
      rw [hfind, Option.some.injEq] at this
      exact this
  · intro h
    refine ⟨fun b hb => findDataBlock_congr hroot hroot' ht (by rw [h, if_pos hb]), fun b hb => ?_⟩
    rw [findDataBlock_mapped hroot', hidx, h, if_neg (not_lt.mpr hb), if_pos rfl]

/-- The range of a truncation goes up to the last data block. -/
theorem truncRange_of_mapped {n : ℕ} (hend : pi.eofblocks = false →
      ∀ n, stop ≤ n * 2 ^ pmfsInodeBlkShift pi → mapped d pi n = 0)
    (hn : firstOf pi start ≤ n) (hm : mapped d pi n ≠ 0) :
    ∃ last, truncRange pi start stop = some (firstOf pi start, last) ∧ n ≤ last := by
  have hlt : n < 512 ^ pi.height := lt_of_lookup_ne hm
  have hroot := root_of_mapped hm
  unfold truncRange pmfsSparseLastBlocknr
  rw [if_neg hroot, one_shiftLeft_9]
  unfold firstOf at hn ⊢
  cases hflag : pi.eofblocks with
  | true =>
    simp only [if_true]
    exact ⟨_, if_neg (by omega), by omega⟩
  | false =>
    have hstop : n * 2 ^ pmfsInodeBlkShift pi < stop := not_le.mp fun hle => hm (hend hflag n hle)
    have hle : n ≤ (stop - 1) >>> pmfsInodeBlkShift pi := by
      rw [Nat.shiftRight_eq_div_pow]
      exact (Nat.le_div_iff_mul_le (by positivity)).mpr (by omega)
    simp only [Bool.false_eq_true, if_false]
    rw [if_neg (by omega)]
    refine ⟨_, if_neg ?_, ?_⟩ <;> split_ifs <;> omega

/-- The tree without the range maps what is below its first index. -/
theorem lookup_remaining (hend : pi.eofblocks = false →
      ∀ n, stop ≤ n * 2 ^ pmfsInodeBlkShift pi → mapped d pi n = 0)
    (hr : truncRange pi start stop = some (firstOf pi start, last)) (n : ℕ) :
    lookup 512 pi.height (prune 512 pi.height (firstOf pi start) last (treeOf d pi)) n =
      if n < firstOf pi start then mapped d pi n else 0 := by
  obtain ⟨-, -, hfl, hl, -⟩ := truncRange_some hr
  have hu : Uniform 512 pi.height (treeOf d pi) := uniform_tree
  rw [lookup_prune (by norm_num) hu (hfl.trans_lt hl) hl]
  by_cases hn : n < firstOf pi start
  · rw [if_pos hn, if_neg (by omega)]
    rfl
  · rw [if_neg hn]
    split_ifs with hin
    · rfl
    by_contra hm
    obtain ⟨last', hr', hle⟩ := truncRange_of_mapped hend (not_lt.mp hn) hm
    rw [hr, Option.some.injEq, Prod.mk.injEq] at hr'
    omega

/-- The data blocks below an index, and those from it on. -/
theorem leaves_split {h : ℕ} (hwf : WellFormed R d pi) (hu : Uniform 512 h T) (hh : h ≤ 3)
    (hT : ∀ n, lookup 512 h T n = if n < first then mapped d pi n else 0) :
    dropped d pi first + leaves 512 T = leaves 512 (treeOf d pi) := by
  have hN : ∀ {j}, j ≤ 3 → 512 ^ j ≤ 512 ^ 3 := fun hj => Nat.pow_le_pow_right (by norm_num) hj
  rw [leaves_eq_card_lookup hu (hN hh), leaves_eq d (hN hwf.height)]
  unfold dropped
  generalize 512 ^ 3 = N
  rw [← Finset.card_union_of_disjoint, ← Finset.filter_or]
  · refine congrArg Finset.card (Finset.filter_congr fun n _ => ?_)
    rw [hT]
    by_cases hn : n < first
    · simp [hn, not_le.mpr hn]
    · simp [hn, not_lt.mp hn]
  · refine Finset.disjoint_filter.mpr fun n _ h1 h2 => h2 ?_
    rw [hT, if_neg (not_lt.mpr h1.1)]

theorem dropped_le (hwf : WellFormed R d pi) (first : ℕ) :
    dropped d pi first ≤ leaves 512 (treeOf d pi) := by
  rw [leaves_eq d (Nat.pow_le_pow_right (by norm_num) hwf.height : _ ≤ 512 ^ 3)]
  exact Finset.card_le_card (Finset.monotone_filter_right _ fun n _ h => h.2)

theorem fruitful_remaining (hf : Fruitful 512 (treeOf d pi)) :
    Fruitful 512 (remaining d pi start stop) := by
  unfold remaining
  rcases truncRange pi start stop with - | ⟨first, last⟩
  · exact hf
  · exact hf.prune

theorem dropped_eq_zero (h : ∀ n, first ≤ n → mapped d pi n = 0) : dropped d pi first = 0 :=
  Finset.card_eq_zero.mpr (Finset.filter_eq_empty_iff.mpr fun n _ hn => hn.2 (h n hn.1))

/-- The inode afterwards describes the tree `T` that is left. -/
theorem cutAt_iff (hwf : WellFormed R d pi) (ht : pi'.iBlkType = pi.iBlkType)
    (hT : ∀ n, lookup 512 pi.height T n = if n < first then mapped d pi n else 0)
    (hib : inode'.iBlocks = pi'.iBlocks) :
    CutAt R first d pi d' inode' pi' ↔ Describes R pi.height T d' pi' ∧ Frame R d d' ∧
      pi'.iBlocks + UInt64.ofNat (dropped d pi first * unit pi) = pi.iBlocks := by
  constructor
  · intro h
    have hmap := (lookups_iff hwf.root h.wf.root ht).mp ⟨h.lower, h.upper⟩
    exact ⟨⟨h.wf, fun n => by rw [hmap, hT], h.leads⟩, h.frame, h.iBlocks⟩
  · rintro ⟨h, hframe, hsum⟩
    obtain ⟨hlow, hup⟩ := (lookups_iff hwf.root h.wf.root ht).mpr fun n => by rw [h.mapped, hT]
    exact ⟨h.wf, hframe, hlow, hup, h.leads, hsum, hib⟩

/-- **Main result.** The truncation does what it is for exactly when every metadata block that the
freed range leaves leads to data, and the freed blocks, in 4K blocks, fit into 32 bits or the file
system is being mounted. -/
theorem truncate_cuts_iff (h0 : 0 ∈ R) (hs : SlabOk d) (hwf : WellFormed R d pi)
    (hcount : pi.iBlocks = UInt64.ofNat (leaves 512 (treeOf d pi) * unit pi))
    (hib : inode.iBlocks = pi.iBlocks)
    (hend : pi.eofblocks = false → ∀ n, stop ≤ n * 2 ^ pmfsInodeBlkShift pi → mapped d pi n = 0) :
    (∃ d' inode' pi', __pmfsTruncateBlocks d inode pi start stop now = some (d', inode', pi') ∧
      CutAt R (firstOf pi start) d pi d' inode' pi') ↔
      Fruitful 512 (remaining d pi start stop) ∧
        (d.mounting = true ∨ dropped d pi (firstOf pi start) * unit pi < 2 ^ 32) := by
  unfold __pmfsTruncateBlocks remaining
  rcases hr : truncRange pi start stop with - | ⟨first, last⟩
  · have hun : ∀ n, firstOf pi start ≤ n → mapped d pi n = 0 := by
      intro n hn
      by_contra hm
      obtain ⟨last, hr', -⟩ := truncRange_of_mapped hend hn hm
      simp [hr] at hr'
    have hzero := dropped_eq_zero hun
    constructor
    · rintro ⟨d', inode', pi', hrun, hcut⟩
      cases hrun
      exact ⟨hcut.leads, Or.inr (by rw [hzero, Nat.zero_mul]; norm_num)⟩
    · rintro ⟨hf, -⟩
      refine ⟨d, _, _, rfl, ?_⟩
      refine (cutAt_iff hwf (by rfl) (fun n => ?_) (by exact hib)).mpr
        ⟨⟨hwf.congr rfl rfl rfl, fun _ => rfl, hf⟩, .refl, ?_⟩
      · split_ifs with hn
        · rfl
        · exact hun n (not_lt.mp hn)
      · rw [hzero, Nat.zero_mul]
        exact add_zero _
  obtain ⟨hroot, hf, hfl, hl, -⟩ := truncRange_some hr
  obtain rfl : first = firstOf pi start := hf
  obtain ⟨d1, root, freed, hrun1, htree, hkept, hown1, hframe1, hs1, hfreed⟩ :=
    truncTree_spec hwf.owns h0 hs hroot hfl hl
  have hmap : ∀ n, lookup 512 pi.height (tree d1 pi.height root) n =
      if n < firstOf pi start then mapped d pi n else 0 := by
    rw [htree]
    exact lookup_remaining hend hr
  have hsplit := leaves_split hwf uniform_tree hwf.height hmap
  have hfd : dropped d pi (firstOf pi start) = freed := by omega
  have hiff : truncIblocks d1 pi inode.iBlocks root freed + UInt64.ofNat (freed * unit pi) =
      inode.iBlocks ↔ d1.mounting = true ∨ freed * unit pi < 2 ^ 32 :=
    truncIblocks_iff (by rw [hib, hcount, hfreed]) (by rw [hfreed]; exact count_lt hwf.height)
  rw [hframe1.mounting] at hiff
  dsimp only
  rw [hrun1, ← htree, hfd]
  dsimp only
  generalize hX : truncIblocks d1 pi inode.iBlocks root freed = X at hiff ⊢
  have hready : X + UInt64.ofNat (freed * unit pi) = inode.iBlocks →
      Ready R d1 { pi with iBlocks := X, iMtime := now % 2 ^ 32, iCtime := now % 2 ^ 32 } start
      root := by
    intro hsum
    refine ⟨h0, hs1, hown1, hwf.height, hkept, ?_, (hfl.trans_lt hl).le, fun n hn => ?_⟩
    · rw [hib, hcount, ← hfreed, Nat.add_mul, UInt64.ofNat_add] at hsum
      change X = UInt64.ofNat (leaves 512 (tree d1 pi.height root) * unit pi)
      grind
    · exact (hmap n).trans (if_neg (not_lt.mpr hn))
  constructor
  · rintro ⟨d', inode', pi', hrun, hcut⟩
    obtain ⟨⟨d2, pi2⟩, hdec, heq⟩ := Option.map_eq_some_iff.mp hrun
    cases heq
    have hsame := decrease_same hdec
    have hX2 : X = pi2.iBlocks := by rw [hsame]
    obtain ⟨fl, hfl⟩ := checkEofBlocks_eq pi2 inode.iSize
    rw [hfl] at hcut
    obtain ⟨hdesc, -, hsum⟩ := (cutAt_iff hwf (by rw [hsame]) hmap hX2).mp hcut
    rw [← hX2, ← hib, hfd] at hsum
    exact ⟨(hready hsum).fruitful hdec ⟨hdesc.wf.congr rfl rfl rfl, hdesc.mapped, hdesc.leads⟩,
      hiff.mp hsum⟩
  · rintro ⟨hfruit, hfit⟩
    have hsum := hiff.mpr hfit
    obtain ⟨d2, pi2, hdec, hdesc, hframe2⟩ := (hready hsum).describes hfruit
    have hsame := decrease_same hdec
    have hX2 : X = pi2.iBlocks := by rw [hsame]
    obtain ⟨fl, hfl⟩ := checkEofBlocks_eq pi2 inode.iSize
    refine ⟨d2, _, _, by rw [hdec]; rfl, ?_⟩
    rw [hfl]
    refine (cutAt_iff hwf (by rw [hsame]) hmap hX2).mpr ⟨⟨hdesc.wf.congr rfl rfl rfl,
      hdesc.mapped, hdesc.leads⟩, hframe1.trans hframe2, ?_⟩
    rw [← hX2, ← hib, hfd]
    exact hsum

/-- The VFS inode of a file without a block. -/
def plainFile : Inode := ⟨1, 33188, 1, 0, 0, 0, 0, 0, 0, 0, 0, false, false, false⟩

/-- A device of `n` blocks with 17 in use. -/
def newDev (n : ℕ) : Dev := ⟨pmfsInitBlockmap (Balloc.fresh n) 0x11000, [], fun _ _ => 0, [], false⟩

theorem zeroInode_on {n : ℕ} (hn : 17 ≤ n) : ∃ R, 0 ∈ R ∧ WellFormed R (newDev n) zeroInode := by
  obtain ⟨R, hR⟩ := exists_owns (d := newDev n) (wf_init (by decide) hn)
  exact ⟨R, hR.zero_mem, wellFormed_of_root hR rfl rfl⟩

/-- Blocks allocated in an empty file are counted. -/
theorem count_of_added {S : ℕ → Prop} (h : Added R S d zeroInode d' pi') :
    pi'.iBlocks = UInt64.ofNat (leaves 512 (treeOf d' pi') * unit pi') := by
  obtain ⟨added, hib, hleaves⟩ := h.count
  have h0 : treeOf d zeroInode = empty := tree_null _
  rw [h0, leaves, zero_add] at hleaves
  rw [hleaves, unit_congr h.blkType, hib]
  exact zero_add _

/-- A file of three blocks is cut behind the first one. -/
theorem truncate_cuts_iff_three : ∃ R d pi, WellFormed R d pi ∧ mapped d pi 2 ≠ 0 ∧ ∃ d' inode' pi',
    __pmfsTruncateBlocks d { plainFile with iBlocks := 3 } pi 4096 12288 1 =
    some (d', inode', pi') ∧
      CutAt R 1 d pi d' inode' pi' := by
  obtain ⟨R, h0, hwf⟩ := zeroInode_on (n := 64) (by decide)
  obtain ⟨d, pi, o, hrun, hadd, -⟩ := alloc_added 0 3 false hwf
  obtain ⟨r, hr, hslab, htype, hthree, hheight, hroot, hslot, hmount, htwo⟩ :
      ∃ r ∈ __pmfsAllocBlocks (newDev 64) zeroInode 0 3 false, r.1.slab = [] ∧
      r.2.1.iBlkType = .b4K ∧
        r.2.1.iBlocks = 3 ∧ r.2.1.height = 1 ∧ r.2.1.root ≠ 0 ∧
        r.1.node (pmfsGetBlocknr r.2.1.root) 0 ≠ 0 ∧ r.1.mounting = false ∧
        pmfsFindDataBlock r.1 r.2.1 2 ≠ some 0 := by
    decide +kernel
  rw [hrun, Option.mem_some_iff] at hr
  subst hr
  have hshift : pmfsInodeBlkShift pi = 12 := by
    unfold pmfsInodeBlkShift
    rw [htype]
    rfl
  have hfirst : firstOf pi 4096 = 1 := by
    unfold firstOf
    rw [hshift]
    rfl
  have hend : ∀ n, 12288 ≤ n * 2 ^ pmfsInodeBlkShift pi → mapped d pi n = 0 := by
    intro n hn
    rw [hshift] at hn
    refine (hadd.ext.outside n fun hcon => ?_).trans lookup_empty
    have : n ≤ 2 := hcon.2.1
    omega
  have hfruit : Fruitful 512 (treeOf d pi) := by
    unfold treeOf
    rw [hheight, tree_kids hroot]
    refine ⟨⟨0, by norm_num, fun he => hslot ?_⟩, fun i hi => ?_⟩
    · rw [kidsOf_eq 0 (by norm_num)] at he
      exact tree_eq_empty_iff.mp he
    · rw [kidsOf_eq i hi]
      by_cases hv : d.node (pmfsGetBlocknr pi.root) i = 0
      · rw [hv, tree_null]
        trivial
      · rw [tree_leaf hv]
        trivial
  have hsmall : dropped d pi (firstOf pi 4096) * unit pi < 2 ^ 32 := by
    have hle := Nat.mul_le_mul_right (unit pi) (dropped_le hadd.wellFormed (firstOf pi 4096))
    have hcount := congrArg UInt64.toNat ((count_of_added hadd).symm.trans hthree)
    rw [UInt64.toNat_ofNat', Nat.mod_eq_of_lt (show leaves 512 (treeOf d pi) * unit pi < 2 ^ 64 from
      count_lt hadd.height)] at hcount
    exact (hle.trans_eq hcount).trans_lt (by decide)
  have hmapped : mapped d pi 2 ≠ 0 := by
    intro hz
    have hfind := findDataBlock_first (d := d) hadd.root 2
    rw [hshift, hz] at hfind
    exact htwo hfind
  have hok : SlabOk d := by
    intro b hb
    rw [hslab] at hb
    exact absurd hb List.not_mem_nil
  have hcut : ∃ d' inode' pi',
    __pmfsTruncateBlocks d { plainFile with iBlocks := 3 } pi 4096 12288 1 =
      some (d', inode', pi') ∧ CutAt R (firstOf pi 4096) d pi d' inode' pi' :=
    (truncate_cuts_iff h0 hok hadd.wellFormed (count_of_added hadd) hthree.symm fun _ => hend).mpr
      ⟨fruitful_remaining hfruit, Or.inr hsmall⟩
  rw [hfirst] at hcut
  exact ⟨R, d, pi, hadd.wellFormed, hmapped, hcut⟩

/-- An allocation that finds no data block leaves metadata blocks without data. Cutting the file
behind the first of them ends in `BUG_ON(newroot != 0)`. -/
theorem barren_bugs : ∃ R d pi, 0 ∈ R ∧ SlabOk d ∧ WellFormed R d pi ∧
    pi.iBlocks = UInt64.ofNat (leaves 512 (treeOf d pi) * unit pi) ∧ pi.iBlocks = 0 ∧
    pi.eofblocks = true ∧ __pmfsAllocBlocks (newDev 19) zeroInode 0 513 true =
    some (d, pi, some .ENOSPC) ∧ __pmfsTruncateBlocks d plainFile pi (512 * 4096) 0 1 = none := by
  obtain ⟨R, h0, hwf⟩ := zeroInode_on (n := 19) (by decide)
  obtain ⟨d, pi, o, hrun, hadd, -⟩ := alloc_added 0 513 true hwf
  obtain ⟨r, hr, herr, hslab, hib, hflag, hnone⟩ : ∃ r ∈
    __pmfsAllocBlocks (newDev 19) zeroInode 0 513 true,
      r.2.2 = some .ENOSPC ∧ r.1.slab = [] ∧ r.2.1.iBlocks = 0 ∧ r.2.1.eofblocks = true ∧
        (__pmfsTruncateBlocks r.1 plainFile r.2.1 (512 * 4096) 0 1).isNone = true := by
    decide +kernel
  rw [hrun, Option.mem_some_iff] at hr
  subst hr
  refine ⟨R, d, pi, h0, fun b hb => ?_, hadd.wellFormed, count_of_added hadd, hib,
    hflag, herr ▸ hrun, Option.isNone_iff_eq_none.mp hnone⟩
  rw [hslab] at hb
  exact absurd hb List.not_mem_nil

end Pmfs.Tree.Cut
