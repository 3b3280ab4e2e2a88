import Pmfs.Tree.Grow

/-! # The tree of an inode

What the operations on one inode do to its tree and to the allocator: `truncTree_spec`,
`decrease_spec` and `truncate_spec` for `__pmfs_truncate_blocks`, `freeSubtree_spec` for the end of
an inode, `alloc_spec` for `__pmfs_alloc_blocks`. In each the inode owns the blocks of its tree and
`R` is everything else.

`__pmfs_truncate_blocks` lowers the tree to the height of the new size. What is mapped above the
range and does not fit into that height is lost, so `truncate_spec` asks for `TruncSafe`. -/

namespace Pmfs.Tree.Inode

open Lib.Radix Block.Model Tree.Model Tree.Own Tree.Truncate Tree.Grow
open RTree

/-- The tree of an inode. -/
def treeOf (d : Dev) (pi : PmfsInode) : RTree := tree d pi.height pi.root

/-- The blocks of an inode, data and metadata. -/
def inodeBlocks (d : Dev) (pi : PmfsInode) : Multiset ℕ := blocks pi.iBlkType (treeOf d pi)

/-- The number of 4K blocks in a data block of the inode. -/
def unit (pi : PmfsInode) : ℕ := 2 ^ (pmfsInodeBlkShift pi - 12)

/-- `i_blocks` is the number of data blocks in the tree, in 4K blocks, and a tree without a root or
higher than 3 does not occur. -/
structure Counts (d : Dev) (pi : PmfsInode) : Prop where
  iBlocks : pi.iBlocks = UInt64.ofNat (leaves 512 (treeOf d pi) * unit pi)
  root : pi.root = 0 → pi.height = 0
  height : pi.height ≤ 3

variable {d d' : Dev} {pi pi' : PmfsInode} {R : Multiset ℕ} {t : BlkType} {k n m p : ℕ}

theorem treeOf_of_root (h : pi.root = 0) : treeOf d pi = empty := by
  rw [treeOf, h, tree_null]

theorem inodeBlocks_of_root (h : pi.root = 0) : inodeBlocks d pi = 0 := by
  rw [inodeBlocks, treeOf_of_root h, blocks_empty]

theorem unit_pos (pi : PmfsInode) : 0 < unit pi := by
  unfold unit; positivity

theorem count_lt (h : k ≤ 3) : leaves 512 (tree d k p) * unit pi < 2 ^ 64 := by
  have hleaves : leaves 512 (tree d k p) ≤ 512 ^ 3 :=
    (leaves_le uniform_tree).trans (Nat.pow_le_pow_right (by norm_num) h)
  have hunit : unit pi ≤ 2 ^ 18 := by
    unfold unit pmfsInodeBlkShift
    cases pi.iBlkType <;> simp [blkTypeToShift]
  calc leaves 512 (tree d k p) * unit pi ≤ 512 ^ 3 * 2 ^ 18 := Nat.mul_le_mul hleaves hunit
    _ < 2 ^ 64 := by norm_num

theorem Counts.toNat_iBlocks (h : Counts d pi) :
    pi.iBlocks.toNat = leaves 512 (treeOf d pi) * unit pi := by
  rw [h.iBlocks, UInt64.toNat_ofNat']
  exact Nat.mod_eq_of_lt (count_lt h.height)

/-! ### Lookup -/

theorem findLoop_eq : ∀ {h p n : ℕ}, p ≠ 0 ∨ h = 0 → n < 512 ^ h →
    findLoop d.node h p n = some (find 512 h (tree d h p) n)
  | 0, p, n, _, _ => by
    by_cases hp : p = 0
    · rw [hp, tree_null]; rfl
    · rw [tree_leaf hp]; rfl
  | h + 1, p, n, hp, hn => by
    have hp : p ≠ 0 := hp.resolve_right (Nat.succ_ne_zero h)
    have hidx : n / 512 ^ h < 512 := Nat.div_lt_of_lt_mul (by rw [pow_succ] at hn; exact hn)
    rw [tree_kids hp, findLoop]
    simp only [shiftRight_9, and_mask_9]
    rw [if_neg (by omega), find, kidsOf_eq _ hidx]
    by_cases hv : d.node (pmfsGetBlocknr p) (n / 512 ^ h) = 0
    · rw [if_pos hv, hv, tree_null, find]
    · rw [if_neg hv, findLoop_eq (Or.inl hv) (Nat.mod_lt _ (by positivity))]

/-- `pmfs_find_data_block` in the tree of the inode. -/
theorem findDataBlock_eq {b : ℕ} (hcounts : Counts d pi) :
    ∃ bp, pmfsFindDataBlock d pi b = some bp ∧ (bp ≠ 0 ↔
      b >>> (pmfsInodeBlkShift pi - 12) < 512 ^ pi.height ∧
      find 512 pi.height (treeOf d pi) (b >>> (pmfsInodeBlkShift pi - 12)) ≠ 0) := by
  unfold pmfsFindDataBlock __pmfsFindDataBlock
  simp only [one_shiftLeft_9]
  by_cases hlt : b >>> (pmfsInodeBlkShift pi - 12) ≥ 512 ^ pi.height
  · rw [if_pos hlt]
    exact ⟨0, rfl, by simp; omega⟩
  · have hroot : pi.root ≠ 0 ∨ pi.height = 0 := by
      by_cases h0 : pi.root = 0
      · exact Or.inr (hcounts.root h0)
      · exact Or.inl h0
    rw [if_neg hlt, findLoop_eq hroot (by omega), ← treeOf]
    refine ⟨_, rfl, ?_⟩
    dsimp only
    split_ifs with hz
    · simp [hz]
    · constructor
      · exact fun _ => ⟨by omega, hz⟩
      · intro _
        omega

/-! ### One more or one less level -/

/-- A metadata block with one child at most, in slot 0. -/
theorem tree_single (hp : p ≠ 0) (h : ∀ i < 512, i ≠ 0 → d.node (pmfsGetBlocknr p) i = 0) :
    blocks t (tree d (k + 1) p) =
      {pmfsGetBlocknr p} + blocks t (tree d k (d.node (pmfsGetBlocknr p) 0)) ∧
    leaves 512 (tree d (k + 1) p) = leaves 512 (tree d k (d.node (pmfsGetBlocknr p) 0)) := by
  have hempty : ∀ i ∈ Finset.range 512, i ≠ 0 → kidsOf d k p i = empty := by
    intro i hi hi0
    rw [kidsOf_eq i (Finset.mem_range.mp hi), h i (Finset.mem_range.mp hi) hi0, tree_null]
  have h0 : kidsOf d k p 0 = tree d k (d.node (pmfsGetBlocknr p) 0) := kidsOf_eq 0 (by norm_num)
  rw [tree_kids hp, blocks_node, leaves, ← h0]
  constructor
  · congr 1
    unfold kidBlocks
    refine Finset.sum_eq_single_of_mem 0 (by simp) fun i hi hi0 => ?_
    rw [hempty i hi hi0, blocks_empty]
  · refine Finset.sum_eq_single_of_mem 0 (by simp) fun i hi hi0 => ?_
    rw [hempty i hi hi0, leaves]

theorem below_single {L : ℕ} (hp : p ≠ 0) (h : ∀ i < 512, i ≠ 0 → d.node (pmfsGetBlocknr p) i = 0)
    (hb : Below 512 k L (tree d k (d.node (pmfsGetBlocknr p) 0))) :
    Below 512 (k + 1) L (tree d (k + 1) p) := by
  rw [tree_kids hp]
  intro i hi
  by_cases hi0 : i = 0
  · subst hi0
    rw [kidsOf_eq 0 (by norm_num)]
    simpa using hb
  · refine absurd ?_ hi
    unfold kidsOf
    split_ifs with hlt
    · rw [h i hlt hi0, tree_null]
    · rfl

/-- What stays true of a tree that is moved to another height. -/
structure Moved (t : BlkType) (R : Multiset ℕ) (d d' : Dev) (h h' p p' : ℕ) : Prop where
  owns : Owns d' (blocks t (tree d' h' p') + R)
  frame : Frame R d d'
  leaves : leaves 512 (tree d' h' p') = leaves 512 (tree d h p)
  below : ∀ L, Below 512 h L (tree d h p) → Below 512 h' L (tree d' h' p')

theorem Moved.trans {d'' : Dev} {h h' h'' p' p'' : ℕ} (g : Moved t R d d' h h' p p')
    (g' : Moved t R d' d'' h' h'' p' p'') : Moved t R d d'' h h'' p p'' :=
  ⟨g'.owns, g.frame.trans g'.frame, g'.leaves.trans g.leaves, fun L h => g'.below L (g.below L h)⟩

theorem blocks_eq_zero {T : RTree} (h : blocks t T = 0) : T = empty := by
  cases T with
  | empty => rfl
  | leaf p =>
    have hmem : pmfsGetBlocknr p ∈ runBlocks t (pmfsGetBlocknr p) :=
      mem_runBlocks.mpr ⟨le_rfl, Nat.lt_add_of_pos_right (numblocks_pos t)⟩
    rw [blocks_leaf] at h
    rw [h] at hmem
    exact absurd hmem (Multiset.notMem_zero _)
  | node p c =>
    have hmem : pmfsGetBlocknr p ∈ blocks t (node p c) := by
      rw [blocks_node]
      exact Multiset.mem_add.mpr (Or.inl (Multiset.mem_singleton_self _))
    rw [h] at hmem
    exact absurd hmem (Multiset.notMem_zero _)

/-- What hangs under the slots of a metadata block other than the first. -/
def sideBlocks (t : BlkType) (d : Dev) (k p : ℕ) : Multiset ℕ :=
  ∑ i ∈ (Finset.range 512).erase 0, blocks t (kidsOf d k p i)

theorem blocks_first (hp : p ≠ 0) :
    blocks t (tree d (k + 1) p) = runBlocks .b4K (pmfsGetBlocknr p) +
    (blocks t (tree d k (d.node (pmfsGetBlocknr p) 0)) + sideBlocks t d k p) := by
  have h0 : 0 < 512 := by norm_num
  rw [tree_kids hp, blocks_node, kidBlocks, sum_split (fun i => blocks t (kidsOf d k p i)) h0,
    kidsOf_eq 0 h0, runBlocks_b4K, sideBlocks]

theorem sideBlocks_eq_zero_iff : sideBlocks t d k p = 0 ↔ ∀ i, i ≠ 0 → kidsOf d k p i = empty := by
  constructor
  · intro h i hi
    by_cases hlt : i < 512
    · exact blocks_eq_zero (Finset.sum_eq_zero_iff.mp h i
        (Finset.mem_erase.mpr ⟨hi, Finset.mem_range.mpr hlt⟩))
    · exact if_neg hlt
  · intro h
    refine Finset.sum_eq_zero fun i hi => ?_
    rw [h i (Finset.ne_of_mem_erase hi), blocks_empty]

attribute [irreducible] sideBlocks

theorem below_child {L : ℕ} (hp : p ≠ 0) (hb : Below 512 (k + 1) L (tree d (k + 1) p)) :
    Below 512 k L (tree d k (d.node (pmfsGetBlocknr p) 0)) := by
  by_cases hz : d.node (pmfsGetBlocknr p) 0 = 0
  · rw [hz, tree_null]
    cases k <;> exact trivial
  · rw [tree_kids hp] at hb
    have h0 := hb 0
    rw [kidsOf_eq 0 (by norm_num)] at h0
    simpa using (h0 fun he => hz (tree_eq_empty_iff.mp he)).2

/-- One round of the loop of `pmfs_decrease_btree_height` frees the upper metadata block. What hangs
under its slots other than the first stays in use. -/
theorem decreaseLoop_step (n : ℕ) (h0 : 0 ∈ R) (hs : SlabOk d) (hp : p ≠ 0)
    (hown : Owns d (blocks t (tree d (k + 1) p) + R)) :
    ∃ d1, decreaseLoop (n + 1) d p = decreaseLoop n d1 (d.node (pmfsGetBlocknr p) 0) ∧ SlabOk d1 ∧
      (∀ h q, tree d1 h q = tree d h q) ∧ Frame (sideBlocks t d k p + R) d d1 ∧
      Owns d1 (blocks t (tree d1 k (d.node (pmfsGetBlocknr p) 0)) + (sideBlocks t d k p + R)) := by
  rw [blocks_first hp, add_assoc, add_assoc (blocks t _) _ R] at hown
  obtain ⟨d1, hfree, hown1, hs1, hnode, hframe⟩ := freeBlock_owns hown
    (Multiset.mem_add.mpr (Or.inr (Multiset.mem_add.mpr (Or.inr h0)))) hs
  have htree : ∀ h q, tree d1 h q = tree d h q := by
    intro h q
    unfold tree slotOf
    rw [hnode]
  refine ⟨d1, ?_, hs1, htree, hframe.mono (Multiset.le_add_left _ _), by rwa [htree]⟩
  rw [decreaseLoop, if_neg hp]
  simp only [hfree]

/-- The loop of `pmfs_decrease_btree_height`, when the tree fits into the new height. -/
theorem decreaseLoop_moved (h0 : 0 ∈ R) : ∀ {n : ℕ} {d d' : Dev} {p p' : ℕ}, SlabOk d →
    Owns d (blocks t (tree d (m + n) p) + R) → Below 512 (m + n) (512 ^ m - 1) (tree d (m + n) p) →
    decreaseLoop n d p = some (d', p') → Moved t R d d' (m + n) m p p' ∧ SlabOk d'
  | 0, d, d', p, p', hs, hown, _, h => by
    simp only [decreaseLoop] at h
    cases h
    exact ⟨⟨hown, .refl, rfl, fun _ => id⟩, hs⟩
  | n + 1, d, d', p, p', hs, hown, hb, h => by
    by_cases hp : p = 0
    · simp [decreaseLoop, hp] at h
    rw [← Nat.add_assoc] at hown hb
    have hle : 512 ^ m ≤ 512 ^ (m + n) := Nat.pow_le_pow_right (by norm_num) (Nat.le_add_right m n)
    have hpos : 0 < 512 ^ m := by positivity
    have hkids : ∀ i, i ≠ 0 → kidsOf d (m + n) p i = empty := by
      have hnode := hb
      rw [tree_kids hp] at hnode
      exact fun i hi => hnode.eq_empty (show 512 ^ m - 1 < 512 ^ (m + n) by omega) hi
    obtain ⟨d1, hstep, hs1, htree, hframe, hown1⟩ := decreaseLoop_step n h0 hs hp hown
    rw [sideBlocks_eq_zero_iff.mpr hkids, zero_add] at hframe hown1
    rw [hstep] at h
    have hrec := decreaseLoop_moved h0 hs1 hown1 (by rw [htree]; exact below_child hp hb) h
    have hmoved : Moved t R d d1 (m + n + 1) (m + n) p (d.node (pmfsGetBlocknr p) 0) := by
      refine ⟨hown1, hframe, ?_, fun L hL => ?_⟩
      · rw [htree, (tree_single (t := t) hp fun i hi hi0 => tree_eq_empty_iff.mp
          (by rw [← kidsOf_eq i hi, hkids i hi0])).2]
      · rw [htree]; exact below_child hp hL
    exact ⟨hmoved.trans hrec.1, hrec.2⟩

/-- A new root has the tree in its first slot, and the blocks owned before are not written. -/
theorem newRoot_slots {b h : ℕ} {d1 : Dev}
    (hnew : NewOwned d .b4K true (blocks t (tree d h p) + R) b d1) :
    (∀ x ∈ blocks t (tree d h p) + R, ∀ i, (d1.setSlot b 0 p).node x i = d.node x i) ∧
      tree (d1.setSlot b 0 p) h p = tree d h p ∧
      (d1.setSlot b 0 p).node (pmfsGetBlocknr (pmfsGetBlockOff b)) 0 = p ∧
      ∀ i < 512, i ≠ 0 → (d1.setSlot b 0 p).node (pmfsGetBlocknr (pmfsGetBlockOff b)) i = 0 := by
  have hnode : ∀ y i, (d1.setSlot b 0 p).node y i = if y = b ∧ i = 0 then p else d1.node y i :=
    fun _ _ => rfl
  have hfresh : ∀ x ∈ blocks t (tree d h p) + R, x ≠ b := by
    rintro x hx rfl
    have hdis := (Multiset.nodup_add.mp hnew.owns.nodup).2.2
    exact Multiset.disjoint_left.mp hdis (by simp [pmfsGetNumblocks]) hx
  have hsame : ∀ x ∈ blocks t (tree d h p) + R, ∀ i, (d1.setSlot b 0 p).node x i = d.node x i := by
    intro x hx i
    rw [hnode, if_neg (fun hc => hfresh x hx hc.1), hnew.frame.node x hx i]
  refine ⟨hsame, tree_congr fun x hx i => hsame x (Multiset.mem_add.mpr (Or.inl hx)) i, ?_, ?_⟩
  · rw [blocknr_off, hnode, if_pos ⟨rfl, rfl⟩]
  · intro i _ hi
    rw [blocknr_off, hnode, if_neg (fun hc => hi hc.2)]
    exact hnew.zeroed rfl b (by simp [pmfsGetNumblocks]) i

theorem newRoot_moved {b h : ℕ} {d1 : Dev}
    (hnew : NewOwned d .b4K true (blocks t (tree d h p) + R) b d1) :
    Moved t R d (d1.setSlot b 0 p) h (h + 1) p (pmfsGetBlockOff b) := by
  have hb := blockOff_ne_zero hnew.pos
  obtain ⟨hsame, htree, hslot0, hslots⟩ := newRoot_slots hnew
  obtain ⟨h1, h2⟩ := tree_single hb hslots
  rw [hslot0, htree] at h1 h2
  refine ⟨?_, ⟨fun x hx i => hsame x (Multiset.mem_add.mpr (Or.inr hx)) i, hnew.frame.blockEnd,
    hnew.frame.mounting, by simpa using hnew.frame.failures⟩, h2,
    fun L hL => below_single hb hslots (by rwa [hslot0, htree])⟩
  rw [h1, blocknr_off, ← runBlocks_b4K, add_assoc]
  exact hnew.owns.congr rfl

theorem increaseLoop_moved : ∀ {n h p : ℕ} {d : Dev}, Owns d (blocks t (tree d h p) + R) →
    ∃ d' h' p' o, increaseLoop n d h p = (d', h', p', o) ∧ Moved t R d d' h h' p p' ∧
      h' ≤ h + n ∧ (o = none → h' = h + n) ∧ (h' = h → p' = p) ∧ (h' ≠ h → p' ≠ 0) ∧ h ≤ h' ∧
      (o ≠ none → d.failures < d'.failures)
  | 0, h, p, d, hown => ⟨d, h, p, none, rfl, ⟨hown, .refl, rfl, fun _ => id⟩, le_rfl, fun _ => rfl,
      fun _ => rfl, fun hne => absurd rfl hne, le_rfl, absurd rfl⟩
  | n + 1, h, p, d, hown => by
    unfold increaseLoop
    rcases hr : d.newBlock .b4K true with ⟨r, d1⟩
    cases r with
    | error e =>
      obtain ⟨-, rfl⟩ := newBlock_error_eq hr
      refine ⟨_, h, p, some e, rfl, ⟨hown.congr rfl, frame_noteNoMeta, rfl, fun _ => id⟩,
        by omega, fun hcon => by simp at hcon, fun _ => rfl, fun hne => absurd rfl hne, le_rfl,
        fun _ => ?_⟩
      rw [failures_noteNoMeta]
      exact Nat.lt_succ_self _
    | ok b =>
      have hnew := newBlock_owns hown hr
      have hmoved := newRoot_moved hnew
      obtain ⟨d', h', p', o, hrun, hm, h1, h2, h3, h4, h5, h6⟩ :=
        increaseLoop_moved hmoved.owns
      refine ⟨d', h', p', o, hrun, hmoved.trans hm, by omega, fun ho => by have := h2 ho; omega,
        fun hcon => by omega, fun _ => ?_, by
        omega, fun ho => hmoved.frame.failures.trans_lt (h6 ho)⟩
      by_cases heq : h' = h + 1
      · rw [h3 heq]; exact blockOff_ne_zero hnew.pos
      · exact h4 heq

/-! ### Truncation -/

theorem truncTree_spec {first last : ℕ} (hown : Owns d (inodeBlocks d pi + R)) (h0 : 0 ∈ R)
    (hs : SlabOk d) (hroot : pi.root ≠ 0) (hfl : first ≤ last) (hl : last < 512 ^ pi.height) :
    ∃ d' root freed, truncTree d pi first last = some (d', root, freed) ∧
      tree d' pi.height root = prune 512 pi.height first last (treeOf d pi) ∧
      (root = 0 ∨ root = pi.root) ∧
      Owns d' (blocks pi.iBlkType (tree d' pi.height root) + R) ∧ Frame R d d' ∧ SlabOk d' ∧
      freed + leaves 512 (tree d' pi.height root) = leaves 512 (treeOf d pi) := by
  unfold truncTree inodeBlocks treeOf at *
  cases hh : pi.height with
  | zero =>
    rw [hh, tree_leaf hroot, blocks_leaf] at hown
    obtain ⟨d', hfree, h1, h2, h3, h4⟩ := freeBlock_owns hown h0 hs
    refine ⟨d', 0, 1, ?_, ?_, Or.inl rfl, ?_, h4, h2, ?_⟩
    · simp [hfree]
    · rw [tree_leaf hroot, tree_null]; rfl
    · rw [tree_null, blocks_empty, zero_add]; exact h1
    · rw [tree_leaf hroot, tree_null]; rfl
  | succ k =>
    rw [hh] at hown hl
    obtain ⟨d', freed, hrun, hfreed, hframe, hslab, hempty, hfull⟩ :=
      truncate_prunes pi.iBlkType k hroot (f := first) (by omega) hl hown h0 hs
    by_cases hp : prune 512 (k + 1) first last (tree d (k + 1) pi.root) = empty
    · have hown' := hempty hp
      rw [← runBlocks_b4K] at hown'
      obtain ⟨d'', hfree, h1, h2, h3, h4⟩ := freeBlock_owns hown' h0 hslab
      refine ⟨d'', 0, freed, ?_, ?_, Or.inl rfl, ?_, hframe.trans h4, h2, ?_⟩
      · rw [if_neg (Nat.succ_ne_zero k), hrun]
        simp only [hp, isEmpty, hfree, Option.map_some]
      · rw [tree_null, hp]
      · rw [tree_null, blocks_empty, zero_add]; exact h1
      · rw [tree_null, ← hfreed, hp]
    · obtain ⟨h1, h2⟩ := hfull hp
      have hb : (prune 512 (k + 1) first last (tree d (k + 1) pi.root)).isEmpty = false := by
        rw [← Bool.not_eq_true, RTree.isEmpty_iff]; exact hp
      refine ⟨d', pi.root, freed, ?_, h1, Or.inr rfl, by rw [h1]; exact h2, hframe, hslab,
        by rw [h1]; exact hfreed⟩
      rw [if_neg (Nat.succ_ne_zero k), hrun]
      simp only [hb]

/-- The end of an inode is a truncation of its whole tree that leaves no root. -/
theorem freeSubtree_eq (hroot : pi.root ≠ 0) (last : ℕ) :
    pmfsFreeInodeSubtree d pi.root pi.height pi.iBlkType last =
      (truncTree d pi 0 last).bind fun r => if r.2.1 = 0 then some (r.1, r.2.2) else none := by
  unfold pmfsFreeInodeSubtree truncTree
  rw [if_neg hroot]
  split_ifs
  · cases d.freeBlock (pmfsGetBlocknr pi.root) pi.iBlkType <;> rfl
  · rcases recursiveTruncateBlocks pi.iBlkType pi.height pi.root 0 last d with _ | ⟨d1, n, _ | _⟩
    · rfl
    · simp [hroot]
    · dsimp only
      cases d1.freeBlock (pmfsGetBlocknr pi.root) .b4K <;> rfl

/-- The end of an inode: when `BUG_ON(!mpty)` does not fire, its blocks are free. -/
theorem freeSubtree_spec {last freed : ℕ} (hown : Owns d (inodeBlocks d pi + R))
    (h0 : 0 ∈ R) (hs : SlabOk d) (hl : last < 512 ^ pi.height)
    (h : pmfsFreeInodeSubtree d pi.root pi.height pi.iBlkType last = some (d', freed)) :
    Owns d' R ∧ Frame R d d' ∧ SlabOk d' := by
  by_cases hroot : pi.root = 0
  · rw [pmfsFreeInodeSubtree, if_pos hroot] at h
    cases h
    rw [inodeBlocks_of_root hroot, zero_add] at hown
    exact ⟨hown, .refl, hs⟩
  obtain ⟨d1, root, n, hrun, -, -, hown1, hframe, hslab, -⟩ :=
    truncTree_spec hown h0 hs hroot (Nat.zero_le last) hl
  rw [freeSubtree_eq hroot, hrun, Option.bind_some] at h
  split_ifs at h with hgone
  cases h
  dsimp only at hgone
  rw [hgone, tree_null, blocks_empty, zero_add] at hown1
  exact ⟨hown1, hframe, hslab⟩

/-- `BUG_ON(!mpty)` does not fire when no slot lies above the last block. -/
theorem freeSubtree_total {last : ℕ} (hown : Owns d (inodeBlocks d pi + R))
    (h0 : 0 ∈ R) (hs : SlabOk d) (hl : last < 512 ^ pi.height)
    (hb : Below 512 pi.height last (treeOf d pi)) :
    (pmfsFreeInodeSubtree d pi.root pi.height pi.iBlkType last).isSome = true := by
  by_cases hroot : pi.root = 0
  · rw [pmfsFreeInodeSubtree, if_pos hroot]
    rfl
  obtain ⟨d1, root, n, hrun, htree, -⟩ := truncTree_spec hown h0 hs hroot (Nat.zero_le last) hl
  rw [treeOf, prune_zero_of_below (by norm_num) uniform_tree hb] at htree
  rw [freeSubtree_eq hroot, hrun, Option.bind_some, if_pos (tree_eq_empty_iff.mp htree)]
  rfl

/-- The height is the least one that holds the index. -/
theorem shiftsToZero_le_iff : ∀ {fuel i n : ℕ}, i < 512 ^ fuel →
    (shiftsToZero fuel i ≤ n ↔ i < 512 ^ n)
  | 0, i, n, h => by
    have hi : i = 0 := by simpa using h
    simp [shiftsToZero, hi]
  | fuel + 1, i, n, h => by
    rw [pow_succ'] at h
    unfold shiftsToZero
    by_cases hi : i = 0
    · simp [hi]
    rw [if_pos (by omega)]
    have hshift : i >>> 9 = i / 512 := Nat.shiftRight_eq_div_pow i 9
    cases n with
    | zero => simp [hi]
    | succ n =>
      rw [hshift, Nat.add_le_add_iff_right, shiftsToZero_le_iff (Nat.div_lt_of_lt_mul h), pow_succ',
        Nat.div_lt_iff_lt_mul (by norm_num), Nat.mul_comm]

/-- Truncating at `start` loses no block: the flag sends the range to the end of the tree, or the
inode gives up its whole tree, or nothing is mapped above both the range and the new height. -/
def TruncSafe (d : Dev) (pi : PmfsInode) (start stop : ℕ) : Prop :=
  pi.eofblocks = true ∨ start = 0 ∨ ∀ first last, truncRange pi start stop = some (first, last) →
    Below 512 pi.height (max last (512 ^ heightForSize pi start - 1)) (treeOf d pi)

theorem truncRange_some {start stop first last : ℕ}
    (h : truncRange pi start stop = some (first, last)) : pi.root ≠ 0 ∧
    first = (start + 2 ^ pmfsInodeBlkShift pi - 1) >>> pmfsInodeBlkShift pi ∧
      first ≤ last ∧ last < 512 ^ pi.height ∧
      (pi.eofblocks = true → last = 512 ^ pi.height - 1) ∧
      (pi.eofblocks = false →
      last = min ((stop - 1) >>> pmfsInodeBlkShift pi) (512 ^ pi.height - 1)) := by
  have hpos : 0 < 512 ^ pi.height := by positivity
  unfold truncRange pmfsSparseLastBlocknr at h
  rw [one_shiftLeft_9] at h
  by_cases hroot : pi.root = 0
  · simp [hroot] at h
  rw [if_neg hroot] at h
  refine ⟨hroot, ?_⟩
  cases hflag : pi.eofblocks with
  | true =>
    simp only [hflag, if_true] at h
    split_ifs at h with h1
    cases h
    exact ⟨rfl, by omega, by omega, fun _ => rfl, fun hcon => by simp at hcon⟩
  | false =>
    simp only [hflag, Bool.false_eq_true, if_false] at h
    by_cases hstop : stop = 0
    · simp [hstop] at h
    rw [if_neg hstop] at h
    generalize hx : (stop - 1) >>> pmfsInodeBlkShift pi = x at h ⊢
    split_ifs at h with h1 h2 h2 <;> simp only [Option.some.injEq, Prod.mk.injEq] at h <;>
      obtain ⟨rfl, rfl⟩ := h
    · exact ⟨rfl, by omega, by omega, fun hcon => by simp at hcon, fun _ => by omega⟩
    · exact ⟨rfl, by omega, by omega, fun hcon => by simp at hcon, fun _ => by omega⟩

/-- The height for a size, in terms of the first index beyond it. -/
theorem heightForSize_le_iff {start first : ℕ} (hn : first ≤ 512 ^ 3)
    (hf : first = (start + 2 ^ pmfsInodeBlkShift pi - 1) >>> pmfsInodeBlkShift pi) :
    heightForSize pi start ≤ n ↔ first ≤ 512 ^ n := by
  have hlt : first - 1 < 512 ^ 8 := by
    have : (512 : ℕ) ^ 3 < 512 ^ 8 := by norm_num
    omega
  have hpos : 0 < 512 ^ n := by positivity
  unfold heightForSize pmfsInodeBlkSize
  rw [← pmfsInodeBlkShift, ← hf, shiftsToZero_le_iff hlt]
  omega

/-- What `pmfs_decrease_btree_height` does with the tree that the truncation leaves. -/
theorem decrease_spec {root start first : ℕ}
    (h : pmfsDecreaseBtreeHeight d pi start root = some (d', pi')) (h0 : 0 ∈ R) (hs : SlabOk d)
    (hown : Owns d (blocks pi.iBlkType (tree d pi.height root) + R)) (hh : pi.height ≤ 3)
    (hroot : root = 0 ∨ root = pi.root)
    (hcount : pi.iBlocks = UInt64.ofNat (leaves 512 (tree d pi.height root) * unit pi))
    (hf : first = (start + 2 ^ pmfsInodeBlkShift pi - 1) >>> pmfsInodeBlkShift pi)
    (hfirst : first ≤ 512 ^ pi.height)
    (hbelow : start ≠ 0 →
      Below 512 pi.height (512 ^ heightForSize pi start - 1) (tree d pi.height root)) :
    Owns d' (inodeBlocks d' pi' + R) ∧ Frame R d d' ∧ SlabOk d' ∧ Counts d' pi' ∧
      ∀ L, Below 512 pi.height L (tree d pi.height root) →
      Below 512 pi'.height L (treeOf d' pi') := by
  have hlt : leaves 512 (tree d pi.height root) * unit pi < 2 ^ 64 := count_lt hh
  unfold pmfsDecreaseBtreeHeight at h
  by_cases hz : pi.iBlocks = 0 ∨ start = 0
  · rw [if_pos hz] at h
    by_cases hr : root = 0
    · subst hr
      simp only [ne_eq, not_true_eq_false, if_false] at h
      cases h
      rw [tree_null] at hown hcount
      refine ⟨?_, .refl, hs, ⟨?_, fun _ => rfl, Nat.zero_le _⟩, fun _ _ => trivial⟩
      · unfold inodeBlocks treeOf
        rwa [tree_null]
      · unfold treeOf
        rw [tree_null]
        exact hcount
    · simp [hr] at h
  · rw [if_neg hz] at h
    obtain ⟨hz1, hz2⟩ := not_or.mp hz
    have hleaves : leaves 512 (tree d pi.height root) ≠ 0 := by
      intro hcon
      rw [hcon, Nat.zero_mul] at hcount
      exact hz1 hcount
    have hnew : heightForSize pi start ≤ pi.height :=
      (heightForSize_le_iff (hfirst.trans (Nat.pow_le_pow_right (by norm_num) hh)) hf).mpr hfirst
    have hne : ∀ {d1 : Dev} {k1 p1 : ℕ}, leaves 512 (tree d1 k1 p1) =
        leaves 512 (tree d pi.height root) → p1 ≠ 0 := by
      rintro d1 k1 p1 heq rfl
      rw [tree_null] at heq
      exact hleaves heq.symm
    have hr : root = pi.root := hroot.resolve_left (hne rfl)
    subst hr
    by_cases heq : pi.height = heightForSize pi start
    · rw [if_pos heq] at h
      cases h
      exact ⟨hown, .refl, hs, ⟨hcount, fun hcon => absurd hcon (hne rfl), hh⟩, fun _ => id⟩
    · rw [if_neg heq] at h
      rcases hloop : decreaseLoop (pi.height - heightForSize pi start) d pi.root with - | ⟨d1, p1⟩
      · simp [hloop] at h
      rw [hloop, Option.map_some] at h
      cases h
      have hsum : heightForSize pi start + (pi.height - heightForSize pi start) = pi.height := by
        omega
      obtain ⟨hm, hs'⟩ := decreaseLoop_moved h0 hs (by rw [hsum]; exact hown)
        (by rw [hsum]; exact hbelow hz2) hloop
      rw [hsum] at hm
      refine ⟨hm.owns, hm.frame, hs', ⟨?_, fun hcon => absurd hcon (hne hm.leaves),
        hnew.trans hh⟩, hm.below⟩
      unfold treeOf
      rw [hm.leaves]
      exact hcount

/-- What `__pmfs_truncate_blocks` did. -/
structure Truncated (R : Multiset ℕ) (start stop : ℕ) (d : Dev) (pi : PmfsInode) (d' : Dev)
    (inode' : Inode) (pi' : PmfsInode) : Prop where
  owns : Owns d' (inodeBlocks d' pi' + R)
  frame : Frame R d d'
  counts : Counts d' pi'
  iBlocks : inode'.iBlocks = pi'.iBlocks
  same : pi' = { pi with
    height := pi'.height
    root := pi'.root
    iBlocks := pi'.iBlocks
    iFlags := pi'.iFlags
    iMtime := pi'.iMtime
    iCtime := pi'.iCtime }
  none : truncRange pi start stop = none → d' = d ∧ pi'.height = pi.height ∧ pi'.root = pi.root ∧
    pi'.iFlags = pi.iFlags
  below : ∀ {first last m}, truncRange pi start stop = some (first, last) → first ≤ m + 1 →
    Below 512 pi.height (max last m) (treeOf d pi) → Below 512 pi'.height m (treeOf d' pi')

theorem truncIblocks_eq {inode : Inode} {root freed : ℕ} (hm : d.mounting = false)
    (hiblocks : inode.iBlocks = UInt64.ofNat ((freed + n) * unit pi))
    (hlt : (freed + n) * unit pi < 2 ^ 32) :
    truncIblocks d pi inode.iBlocks root freed = UInt64.ofNat (n * unit pi) := by
  unfold truncIblocks
  rw [hm, hiblocks]
  rw [Nat.add_mul] at hlt ⊢
  simp only [Bool.false_eq_true, if_false]
  rw [← unit, Nat.mod_eq_of_lt (by omega), UInt64.ofNat_add]
  simp

theorem decrease_same {start root : ℕ}
    (h : pmfsDecreaseBtreeHeight d pi start root = some (d', pi')) :
    pi' = { pi with height := pi'.height, root := pi'.root } := by
  unfold pmfsDecreaseBtreeHeight at h
  dsimp only at h
  split_ifs at h
  · cases h
    rfl
  · cases h
    rfl
  · obtain ⟨r, -, hr⟩ := Option.map_eq_some_iff.mp h
    cases hr
    rfl

theorem checkEofBlocks_eq (pi : PmfsInode) (size : ℕ) :
    ∃ fl, checkEofBlocks pi size = { pi with iFlags := fl } := by
  unfold checkEofBlocks
  split_ifs
  · exact ⟨_, rfl⟩
  · exact ⟨_, rfl⟩

/-- A truncation that has nothing to free sets the times. Any other frees the range, corrects
`i_blocks`, lowers the tree and looks at the flag. -/
theorem truncate_cases {inode inode' : Inode} {start stop now : ℕ}
    (h : __pmfsTruncateBlocks d inode pi start stop now = some (d', inode', pi')) :
    (truncRange pi start stop = none ∧ d' = d ∧
    inode' = { inode with iMtime := now, iCtime := now } ∧
      pi' = { pi with iMtime := now % 2 ^ 32, iCtime := now % 2 ^ 32 }) ∨
    ∃ first last d1 root freed b pi2 fl, truncRange pi start stop = some (first, last) ∧
      truncTree d pi first last = some (d1, root, freed) ∧
      truncIblocks d1 pi inode.iBlocks root freed = b ∧
      pmfsDecreaseBtreeHeight d1
      { pi with iBlocks := b, iMtime := now % 2 ^ 32, iCtime := now % 2 ^ 32 } start
        root = some (d', pi2) ∧
      inode' = { inode with iBlocks := b, iMtime := now, iCtime := now } ∧
      pi' = { pi2 with iFlags := fl } := by
  unfold __pmfsTruncateBlocks at h
  rcases hr : truncRange pi start stop with - | ⟨first, last⟩
  · rw [hr] at h
    cases h
    exact Or.inl ⟨rfl, rfl, rfl, rfl⟩
  rcases ht : truncTree d pi first last with - | ⟨d1, root, freed⟩
  · simp [hr, ht] at h
  simp only [hr, ht] at h
  obtain ⟨⟨d2, pi2⟩, hdec, heq⟩ := Option.map_eq_some_iff.mp h
  cases heq
  obtain ⟨fl, hfl⟩ := checkEofBlocks_eq pi2 inode.iSize
  exact Or.inr ⟨first, last, d1, root, freed, _, pi2, fl, rfl, ht, rfl, hdec, rfl, hfl⟩

/-- **Truncation of an inode.** The inode keeps owning exactly the blocks of its tree. -/
theorem truncate_spec {inode inode' : Inode} {start stop now : ℕ} (h0 : 0 ∈ R) (hs : SlabOk d)
    (hm : d.mounting = false) (hown : Owns d (inodeBlocks d pi + R)) (hcounts : Counts d pi)
    (hib : inode.iBlocks = pi.iBlocks) (hlt : pi.iBlocks.toNat < 2 ^ 32)
    (hsafe : TruncSafe d pi start stop)
    (h : __pmfsTruncateBlocks d inode pi start stop now = some (d', inode', pi')) :
    Truncated R start stop d pi d' inode' pi' := by
  rcases truncate_cases h with ⟨hr, rfl, rfl, rfl⟩ |
    ⟨first, last, d1, root, freed, -, pi2, fl, hr, hrun, rfl, hdec, rfl, rfl⟩
  · exact ⟨hown, .refl, ⟨hcounts.iBlocks, hcounts.root, hcounts.height⟩, hib, rfl,
      fun _ => ⟨rfl, rfl, rfl, rfl⟩, fun hcon => by simp [hr] at hcon⟩
  obtain ⟨hroot, hf, hfl, hl, hflag, -⟩ := truncRange_some hr
  obtain ⟨d0, root0, freed0, hrun0, htree, hroot1, hown1, hframe1, hs1, hfreed⟩ :=
    truncTree_spec hown h0 hs hroot hfl hl
  rw [hrun] at hrun0
  cases hrun0
  have hiblocks : truncIblocks d1 pi inode.iBlocks root freed =
      UInt64.ofNat (leaves 512 (tree d1 pi.height root) * unit pi) := by
    refine truncIblocks_eq (hframe1.mounting.trans hm) ?_ ?_
    · rw [hfreed, hib]; exact hcounts.iBlocks
    · rw [hfreed, ← hcounts.toNat_iBlocks]; exact hlt
  rw [hiblocks] at hdec ⊢
  have hfirst : first ≤ 512 ^ pi.height := by omega
  have hprune : ∀ {m}, first ≤ m + 1 → Below 512 pi.height (max last m) (treeOf d pi) →
      Below 512 pi.height m (tree d1 pi.height root) := by
    intro m hm hb
    rw [htree]
    exact below_prune (by norm_num) uniform_tree hm hb
  have hheight : start ≠ 0 → Below 512 pi.height (512 ^ heightForSize pi start - 1)
      (tree d1 pi.height root) := by
    intro hstart
    have hle := (heightForSize_le_iff
      (hfirst.trans (Nat.pow_le_pow_right (by norm_num) hcounts.height)) hf).mp le_rfl
    have hpos : 0 < 512 ^ heightForSize pi start := by positivity
    refine hprune (by omega) ?_
    rcases hsafe with hsafe | hsafe | hsafe
    · rw [hflag hsafe]
      exact (below_top (by norm_num) uniform_tree).mono (le_max_left _ _)
    · exact absurd hsafe hstart
    · exact hsafe first last hr
  obtain ⟨hown2, hframe2, hs2, hcounts2, hbelow2⟩ := decrease_spec hdec h0 hs1 hown1
    hcounts.height hroot1 rfl hf hfirst hheight
  have hsame := decrease_same hdec
  refine ⟨hown2, hframe1.trans hframe2, ⟨hcounts2.iBlocks, hcounts2.root, hcounts2.height⟩, ?_, ?_,
    fun hcon => by simp [hr] at hcon, fun hr' hm hb => ?_⟩
  · rw [hsame]
  · rw [hsame]
  · rw [hr] at hr'
    cases hr'
    exact hbelow2 _ (hprune hm hb)

/-! ### Allocation -/

/-- What an allocation for indices up to `last` did. -/
structure Allocated (R : Multiset ℕ) (last : ℕ) (d : Dev) (pi : PmfsInode) (d' : Dev)
    (pi' : PmfsInode) (o : Option Errno) : Prop where
  owns : Owns d' (inodeBlocks d' pi' + R)
  frame : Frame R d d'
  counts : Counts d' pi'
  same : pi' = { pi with
    height := pi'.height
    root := pi'.root
    iBlocks := pi'.iBlocks
    iFlags := pi'.iFlags }
  flags : pi'.iFlags = pi.iFlags ∨ o ≠ none ∧ pi'.iFlags = pi.setEofblocks.iFlags
  below : ∀ {L}, last ≤ L → Below 512 pi.height L (treeOf d pi) →
    Below 512 pi'.height L (treeOf d' pi')

variable {last : ℕ} {o : Option Errno}

theorem allocated_refl (hown : Owns d (inodeBlocks d pi + R)) (hcounts : Counts d pi) :
    Allocated R last d pi d pi o :=
  ⟨hown, .refl, hcounts, rfl, Or.inl rfl, fun _ => id⟩

theorem Allocated.trans {d'' : Dev} {pi'' : PmfsInode} (h : Allocated R last d pi d' pi' none)
    (h' : Allocated R last d' pi' d'' pi'' o) : Allocated R last d pi d'' pi'' o := by
  have hflags : pi'.iFlags = pi.iFlags := h.flags.resolve_right fun hcon => hcon.1 rfl
  refine ⟨h'.owns, h.frame.trans h'.frame, h'.counts, ?_, ?_,
    fun hL hb => h'.below hL (h.below hL hb)⟩
  · rw [h'.same, h.same]
  · unfold PmfsInode.setEofblocks at *
    rw [← hflags]
    exact h'.flags

variable (last) in
theorem increase_spec {newHeight : ℕ} (hown : Owns d (inodeBlocks d pi + R)) (hcounts : Counts d pi)
    (hle : pi.height ≤ newHeight) (hnew : newHeight ≤ 3) :
    ∃ d' pi' o, pmfsIncreaseBtreeHeight d pi newHeight = (d', pi', o) ∧
      Allocated R last d pi d' pi' o ∧ (o = none → pi'.height = newHeight) ∧
      (pi'.height ≠ pi.height → pi'.root ≠ 0) ∧ (o ≠ none → d.failures < d'.failures) := by
  obtain ⟨d', h', p', o, hrun, hm, h1, h2, h3, h4, h5, h6⟩ :=
    increaseLoop_moved hown
  unfold pmfsIncreaseBtreeHeight
  rw [hrun]
  refine ⟨d', _, o, rfl, ⟨hm.owns, hm.frame, ⟨?_, fun hp => ?_, ?_⟩, rfl, Or.inl rfl,
    fun _ hb => hm.below _ hb⟩, fun ho => ?_, h4, h6⟩
  · unfold treeOf
    rw [hm.leaves]
    exact hcounts.iBlocks
  · by_cases heq : h' = pi.height
    · exact heq.trans (hcounts.root ((h3 heq).symm.trans hp))
    · exact absurd hp (h4 heq)
  · change h' ≤ 3
    omega
  · have := h2 ho
    change h' = newHeight
    omega

/-- `recursive_alloc_blocks` on the tree of an inode. -/
theorem recursiveAlloc_spec (zero : Bool) (first : ℕ) (newNode : Bool)
    (hown : Owns d (inodeBlocks d pi + R)) (hcounts : Counts d pi) (hroot : pi.root ≠ 0)
    (hh : pi.height ≠ 0) (hl : last < 512 ^ pi.height) :
    ∃ d' pi' o, recursiveAllocBlocks zero pi.height pi.root first last newNode d pi =
        some (d', pi', o) ∧ Allocated R last d pi d' pi' o ∧
      (o = none → Filled 512 pi'.height first last (treeOf d' pi')) ∧
      (o ≠ none → pi'.eofblocks = true ∨ d.failures < d'.failures) ∧ pi'.height = pi.height := by
  obtain ⟨k, hk⟩ := Nat.exists_eq_succ_of_ne_zero hh
  have hgrows : Grows pi.iBlkType pi.height (recursiveAllocBlocks zero pi.height) := by
    rw [hk]
    exact alloc_grows pi.iBlkType zero k
  obtain ⟨d', pi', o, added, hrun, hown', hframe, hgrown, hfill, hcount, hleaves, hfails⟩ :=
    hgrows newNode hroot rfl hl hown
  have hpi := hcount.eq
  have hheight : pi'.height = pi.height := by rw [hpi]
  have hroot' : pi'.root = pi.root := by rw [hpi]
  have hunit : unit pi' = unit pi := by
    unfold unit pmfsInodeBlkShift
    rw [hcount.blkType]
  have htree : treeOf d' pi' = tree d' pi.height pi.root := by rw [treeOf, hheight, hroot']
  refine ⟨d', pi', o, hrun, ⟨?_, hframe, ⟨?_, ?_, hheight ▸ hcounts.height⟩, ?_, hcount.flags, ?_⟩,
    ?_, hfails, hheight⟩
  · unfold inodeBlocks
    rw [htree, hcount.blkType]
    exact hown'
  · rw [htree, hleaves, hunit, Nat.add_mul, UInt64.ofNat_add, hpi, hcounts.iBlocks]
    rfl
  · exact fun hcon => absurd (hroot'.symm.trans hcon) hroot
  · rw [hpi]
  · intro L hL hb
    rw [htree, hheight]
    exact hgrown.below (by norm_num) hL hb
  · intro ho
    rw [htree, hheight]
    exact hfill ho

/-- The index in the tree of the last block asked for. -/
def lastIndex (pi : PmfsInode) (fileBlocknr num : ℕ) : ℕ :=
  lastFileBlock fileBlocknr num >>> (pmfsInodeBlkShift pi - 12)

/-- The height that an allocation brings the tree to. -/
theorem allocHeight_spec {height : ℕ} (hlast : last < 512 ^ 8)
    (hh : height = if last > 1 <<< (pi.height * 9) - 1 then
      pi.height + shiftsToZero 8 (last >>> (pi.height * 9)) else pi.height) :
    pi.height ≤ height ∧ last < 512 ^ height ∧ (∀ k, pi.height ≤ k → last < 512 ^ k → height ≤ k) ∧
      (¬ (last > 1 <<< (pi.height * 9) - 1 ∧ height > 3) → pi.height ≤ 3 → height ≤ 3) := by
  rw [one_shiftLeft_9, shiftRight_9] at hh
  rw [one_shiftLeft_9]
  have hpos : 0 < 512 ^ pi.height := by positivity
  by_cases hgrow : last > 512 ^ pi.height - 1
  · rw [if_pos hgrow] at hh
    have hiff : ∀ {m}, shiftsToZero 8 (last / 512 ^ pi.height) ≤ m ↔
      last < 512 ^ (pi.height + m) := by
      intro m
      rw [shiftsToZero_le_iff ((Nat.div_le_self last (512 ^ pi.height)).trans_lt hlast),
        Nat.div_lt_iff_lt_mul hpos, ← pow_add, Nat.add_comm m]
    have hlt := hiff.mp le_rfl
    rw [← hh] at hlt
    refine ⟨by omega, hlt, fun k hk hlk => ?_, by omega⟩
    have := hiff.mpr (show last <
      512 ^ (pi.height + (k - pi.height)) by rwa [Nat.add_sub_cancel' hk])
    omega
  · rw [if_neg hgrow] at hh
    subst hh
    exact ⟨le_rfl, by omega, fun k hk _ => hk, by omega⟩

theorem firstBlock_spec {b : ℕ} {zero : Bool} {d1 : Dev} (hcounts : Counts d pi)
    (hroot : pi.root = 0) (hnew : NewOwned d pi.iBlkType zero (inodeBlocks d pi + R) b d1) :
    Allocated R last d pi d1 { pi with
      iBlocks := pi.iBlocks + UInt64.ofNat (1 <<< (pmfsInodeBlkShift pi - 12))
      root := pmfsGetBlockOff b
      height := 0 } o := by
  have hb := blockOff_ne_zero hnew.pos
  have hown := hnew.owns
  have hib := hcounts.iBlocks
  rw [inodeBlocks_of_root hroot, zero_add] at hown
  rw [treeOf_of_root hroot, leaves, Nat.zero_mul] at hib
  refine ⟨?_, hnew.frame.mono (Multiset.le_add_left _ _), ⟨?_, fun hcon => absurd hcon hb,
    Nat.zero_le _⟩, rfl, Or.inl rfl, fun _ _ => ?_⟩
  · unfold inodeBlocks treeOf
    rw [tree_leaf hb, blocks_leaf, blocknr_off]
    exact hown
  · unfold treeOf
    rw [tree_leaf hb, leaves, Nat.one_mul, hib, Nat.shiftLeft_eq, Nat.one_mul]
    exact zero_add _
  · unfold treeOf
    rw [tree_leaf hb]
    trivial

/-- How an allocation ended: every index of the range has its block, or the flag is set, or there
was no block for metadata, or nothing was allocated. -/
def Ended (first last : ℕ) (d : Dev) (pi : PmfsInode) (d' : Dev) (pi' : PmfsInode) :
    Option Errno → Prop
  | none => Filled 512 pi'.height first last (treeOf d' pi') ∧ last < 512 ^ pi'.height
  | some _ =>
    pi'.eofblocks = true ∨ d.failures < d'.failures ∨ pi' = pi ∧ treeOf d' pi = treeOf d pi

theorem ended_of {first : ℕ} (hf : o = none → Filled 512 pi'.height first last (treeOf d' pi'))
    (hl : last < 512 ^ pi'.height) (hfail : o ≠ none → pi'.eofblocks = true ∨
    d.failures < d'.failures) :
    Ended first last d pi d' pi' o := by
  cases o with
  | none => exact ⟨hf rfl, hl⟩
  | some e => exact (hfail (by simp)).imp_right Or.inl

/-- The first block of a file becomes its root. -/
def firstBlock (d : Dev) (pi : PmfsInode) (zero : Bool) : Option (Dev × PmfsInode × Option Errno) :=
  match pmfsNewDataBlock d pi zero with
  | (.error e, d, pi) => some (d, pi, some e)
  | (.ok b, d, pi) => some (d, { pi with root := pmfsGetBlockOff b, height := 0 }, none)

/-- The tree is brought to a height and the range is filled. -/
def raiseFill (zero : Bool) (height first last : ℕ) (newNode : Bool) (d : Dev) (pi : PmfsInode) :
    Option (Dev × PmfsInode × Option Errno) :=
  match pmfsIncreaseBtreeHeight d pi height with
  | (d, pi, some e) => some (d, pi, some e)
  | (d, pi, none) => recursiveAllocBlocks zero height pi.root first last newNode d pi

theorem increaseLoop_height : ∀ {n h h' p p' : ℕ} {d d' : Dev},
    increaseLoop n d h p = (d', h', p', none) → h' = h + n
  | 0, _, _, _, _, _, _, hrun => by
    simp only [increaseLoop, Prod.mk.injEq] at hrun
    exact hrun.2.1.symm
  | n + 1, h, h', p, p', d, d', hrun => by
    unfold increaseLoop at hrun
    rcases hr : d.newBlock .b4K true with ⟨r, d1⟩
    rw [hr] at hrun
    cases r with
    | error e => simp at hrun
    | ok b =>
      have := increaseLoop_height hrun
      omega

/-- `pmfs_increase_btree_height` brings the tree to the height that it is asked for. -/
theorem increase_height {newHeight : ℕ} (hle : pi.height ≤ newHeight)
    (h : pmfsIncreaseBtreeHeight d pi newHeight = (d', pi', none)) : pi'.height = newHeight := by
  unfold pmfsIncreaseBtreeHeight at h
  rcases hloop : increaseLoop (newHeight - pi.height) d pi.height pi.root with ⟨d2, h₂, p2, o2⟩
  simp only [hloop] at h
  cases h
  have := increaseLoop_height hloop
  dsimp only
  omega

theorem lastIndex_lt (pi : PmfsInode) (fileBlocknr num : ℕ) :
    lastIndex pi fileBlocknr num < 512 ^ 8 := by
  have h1 : lastFileBlock fileBlocknr num < 2 ^ 64 := Nat.mod_lt _ (by norm_num)
  have h2 : (2 : ℕ) ^ 64 < 512 ^ 8 := by norm_num
  unfold lastIndex
  rw [Nat.shiftRight_eq_div_pow]
  exact (Nat.div_le_self _ _).trans_lt (h1.trans h2)

/-- What `__pmfs_alloc_blocks` is, by the height that the range needs. -/
theorem alloc_cases (d : Dev) (pi : PmfsInode) (fileBlocknr num : ℕ) (zero : Bool) :
    ∃ height, pi.height ≤ height ∧ lastIndex pi fileBlocknr num < 512 ^ height ∧
      (∀ k, pi.height ≤ k → lastIndex pi fileBlocknr num < 512 ^ k → height ≤ k) ∧
      (3 < height ∧ __pmfsAllocBlocks d pi fileBlocknr num zero = some (d, pi, some .ENOSPC) ∨
        (pi.height ≤ 3 → height ≤ 3) ∧
        (height = 0 ∧ pi.root = 0 ∧
            __pmfsAllocBlocks d pi fileBlocknr num zero = firstBlock d pi zero ∨
          height = 0 ∧ pi.root ≠ 0 ∧
            __pmfsAllocBlocks d pi fileBlocknr num zero = some (d, pi, none) ∨
          height ≠ 0 ∧ __pmfsAllocBlocks d pi fileBlocknr num zero =
            raiseFill zero height (fileBlocknr >>> (pmfsInodeBlkShift pi - 12))
              (lastIndex pi fileBlocknr num) (decide (pi.root = 0)) d pi)) := by
  have hlast := lastIndex_lt pi fileBlocknr num
  unfold __pmfsAllocBlocks allocVia
  unfold lastIndex at hlast ⊢
  dsimp only
  generalize lastFileBlock fileBlocknr num >>> (pmfsInodeBlkShift pi - 12) = last at hlast ⊢
  generalize fileBlocknr >>> (pmfsInodeBlkShift pi - 12) = first
  generalize hheight : (if last > 1 <<< (pi.height * 9) - 1 then
    pi.height + shiftsToZero 8 (last >>> (pi.height * 9)) else pi.height) = height
  obtain ⟨h1, h2, hmin, h3⟩ := allocHeight_spec hlast hheight.symm
  refine ⟨height, h1, h2, hmin, ?_⟩
  by_cases hmax : last > 1 <<< (pi.height * 9) - 1 ∧ height > 3
  · exact Or.inl ⟨hmax.2, if_pos hmax⟩
  refine Or.inr ⟨h3 hmax, ?_⟩
  rw [if_neg hmax]
  by_cases hz : height = 0
  · subst hz
    by_cases hr : pi.root = 0
    · refine Or.inl ⟨rfl, hr, ?_⟩
      rcases hnew : pmfsNewDataBlock d pi zero with ⟨r, d1, pi1⟩
      cases r <;> rw [if_pos hr, if_pos rfl, firstBlock, hnew]
    · exact Or.inr (Or.inl ⟨rfl, hr, by rw [if_neg hr, if_pos rfl]⟩)
  refine Or.inr (Or.inr ⟨hz, ?_⟩)
  rw [if_neg hz, if_neg hz]
  rcases hinc : pmfsIncreaseBtreeHeight d pi height with ⟨d1, pi1, o1⟩
  by_cases hr : pi.root = 0
  · rw [if_pos hr, raiseFill, hinc, decide_eq_true hr]
    cases o1 with
    | some e => rfl
    | none =>
      -- the new root is as high as asked for
      dsimp only
      rw [increase_height h1 hinc]
  · rw [if_neg hr, decide_eq_false hr]
    by_cases hgrow : height > pi.height
    · cases o1 <;> rw [if_pos hgrow, raiseFill, hinc]
    · have heq : height = pi.height := by omega
      subst heq
      simp only [pmfsIncreaseBtreeHeight, Nat.sub_self, increaseLoop] at hinc
      cases hinc
      rw [if_neg (lt_irrefl _), raiseFill]
      simp only [pmfsIncreaseBtreeHeight, Nat.sub_self, increaseLoop]

/-- **Allocation in an inode.** The inode keeps owning exactly the blocks of its tree, whether or
not the allocation fails; when it does not, every block of the range is mapped. -/
theorem alloc_spec (fileBlocknr num : ℕ) (zero : Bool) (hown : Owns d (inodeBlocks d pi + R))
    (hcounts : Counts d pi) :
    ∃ d' pi' o, __pmfsAllocBlocks d pi fileBlocknr num zero = some (d', pi', o) ∧
      Allocated R (lastIndex pi fileBlocknr num) d pi d' pi' o ∧
      Ended (fileBlocknr >>> (pmfsInodeBlkShift pi - 12)) (lastIndex pi fileBlocknr num) d pi d' pi'
        o := by
  obtain ⟨height, h1, h2, -, ⟨-, hrun⟩ |
      ⟨h3, ⟨hz, hroot, hrun⟩ | ⟨hz, hroot, hrun⟩ | ⟨hz, hrun⟩⟩⟩ :=
    alloc_cases d pi fileBlocknr num zero
  · exact ⟨d, pi, _, hrun, allocated_refl hown hcounts, Or.inr (Or.inr ⟨rfl, rfl⟩)⟩
  · subst hz
    rw [hrun]
    unfold firstBlock pmfsNewDataBlock
    rcases hr : d.newBlock pi.iBlkType zero with ⟨r, d2⟩
    cases r with
    | error e =>
      obtain ⟨-, rfl⟩ := newBlock_error_eq hr
      exact ⟨_, pi, some e, rfl, ⟨hown.congr rfl, ⟨fun _ _ _ => rfl, rfl, rfl, le_rfl⟩,
        ⟨hcounts.iBlocks, hcounts.root, hcounts.height⟩, rfl, Or.inl rfl, fun _ => id⟩,
        Or.inr (Or.inr ⟨rfl, rfl⟩)⟩
    | ok b =>
      have hnew := newBlock_owns hown hr
      refine ⟨d2, _, none, rfl, firstBlock_spec hcounts hroot hnew, ?_, h2⟩
      unfold treeOf
      rw [tree_leaf (blockOff_ne_zero hnew.pos)]
      trivial
  · have hp : pi.height = 0 := by omega
    refine ⟨d, pi, none, hrun, allocated_refl hown hcounts, ?_, by rwa [hp, ← hz]⟩
    unfold treeOf
    rw [hp, tree_leaf hroot]
    trivial
  · obtain ⟨d1, pi1, o1, hinc, halloc, hnone, hne, hfails⟩ :=
      increase_spec (lastIndex pi fileBlocknr num) hown hcounts h1 (h3 hcounts.height)
    rw [hrun]
    unfold raiseFill
    rw [hinc]
    cases o1 with
    | some e => exact ⟨d1, pi1, some e, rfl, halloc, Or.inr (Or.inl (hfails (by simp)))⟩
    | none =>
      have hh := hnone rfl
      have hr : pi1.root ≠ 0 := fun hcon => by
        have := halloc.counts.root hcon
        omega
      obtain ⟨d', pi', o, hrec, ha, hf, hfail, hsame⟩ := recursiveAlloc_spec zero
        (fileBlocknr >>> (pmfsInodeBlkShift pi - 12)) (decide (pi.root = 0)) halloc.owns
        halloc.counts hr (hh ▸ hz) (hh ▸ h2)
      rw [hh] at hrec
      exact ⟨d', pi', o, hrec, halloc.trans ha, ended_of hf (by rwa [hsame, hh]) fun ho =>
        (hfail ho).imp_right fun h => halloc.frame.failures.trans_lt h⟩

end Pmfs.Tree.Inode
