import Pmfs.Lib.RadixMap
import Pmfs.Tree.Inode

/-! # What an allocation adds to the map of a file

The tree of an inode maps indices to data blocks (`mapped`), and `pmfs_find_data_block` reads this
map (`findDataBlock_mapped`). `Extends` compares two trees: the second maps what the first maps and
more only at indices of a set, and each new data block comes on top of the blocks that the first one
owned. More levels extend a tree by nothing (`increaseLoop_extends`), and `recursive_alloc_blocks`
extends it inside the range (`grown_extends`), so that `alloc_added` holds of `__pmfs_alloc_blocks`
for any value of `i_blocks` before. -/

namespace Pmfs.Tree.Extend

open Lib.Radix Lib.RadixMap Block.Model Block.Spec
open Tree.Model Tree.Own Tree.Truncate Tree.Grow Tree.Inode
open RTree

/-- The data block at an index of the tree, `0` when there is none. -/
def mapped (d : Dev) (pi : PmfsInode) (n : ℕ) : ℕ := lookup 512 pi.height (treeOf d pi) n

/-- An inode whose tree is at most three levels high and owns its blocks, `R` being what else is in
use. -/
structure WellFormed (R : Multiset ℕ) (d : Dev) (pi : PmfsInode) : Prop where
  owns : Owns d (inodeBlocks d pi + R)
  root : pi.root = 0 → pi.height = 0
  height : pi.height ≤ 3

/-- The tree `p'` of height `h'` in `d'` maps what `p` maps in `d`, and more only in `S`. -/
structure Extends (t : BlkType) (R : Multiset ℕ) (S : ℕ → Prop) (d d' : Dev) (h h' p p' : ℕ) :
    Prop where
  owns : Owns d' (blocks t (tree d' h' p') + R)
  frame : Frame R d d'
  keeps : ∀ n, lookup 512 h (tree d h p) n ≠ 0 →
    lookup 512 h' (tree d' h' p') n = lookup 512 h (tree d h p) n
  outside : ∀ n, ¬ S n → lookup 512 h' (tree d' h' p') n = lookup 512 h (tree d h p) n
  le : blocks t (tree d h p) ≤ blocks t (tree d' h' p')
  fresh : ∀ n, lookup 512 h (tree d h p) n = 0 → lookup 512 h' (tree d' h' p') n ≠ 0 →
    blocks t (tree d h p) + runBlocks t (pmfsGetBlocknr (lookup 512 h' (tree d' h' p') n)) ≤
      blocks t (tree d' h' p')

variable {d d' d'' : Dev} {pi pi' pi'' : PmfsInode} {R : Multiset ℕ} {S : ℕ → Prop} {t : BlkType}
  {o : Option Errno} {zero : Bool} {b h h' h'' p p' p'' first last n m : ℕ}

/-! ### Lookup -/

/-- `pmfs_find_data_block` reads the map of the tree. -/
theorem findDataBlock_mapped (hroot : pi.root = 0 → pi.height = 0) (b : ℕ) :
    pmfsFindDataBlock d pi b = some (if mapped d pi (indexOf pi b) = 0 then 0
      else mapped d pi (indexOf pi b) +
      (b &&& (1 <<< (pmfsInodeBlkShift pi - 12)) - 1) <<< 12) := by
  unfold pmfsFindDataBlock __pmfsFindDataBlock mapped indexOf lookup treeOf
  simp only [one_shiftLeft_9, ge_iff_le]
  by_cases hlt : b >>> (pmfsInodeBlkShift pi - 12) < 512 ^ pi.height
  · have hr : pi.root ≠ 0 ∨ pi.height = 0 := by
      by_cases h0 : pi.root = 0
      · exact Or.inr (hroot h0)
      · exact Or.inl h0
    rw [if_neg (not_le.mpr hlt), if_pos hlt, findLoop_eq hr hlt]
    rfl
  · rw [if_pos (not_lt.mp hlt), if_neg hlt, if_pos rfl]

theorem findDataBlock_congr (hroot : pi.root = 0 → pi.height = 0)
    (hroot' : pi'.root = 0 → pi'.height = 0) (ht : pi'.iBlkType = pi.iBlkType)
    (h : mapped d' pi' (indexOf pi b) = mapped d pi (indexOf pi b)) :
    pmfsFindDataBlock d' pi' b = pmfsFindDataBlock d pi b := by
  have hshift : pmfsInodeBlkShift pi' = pmfsInodeBlkShift pi := by unfold pmfsInodeBlkShift; rw [ht]
  have hidx : indexOf pi' b = indexOf pi b := by unfold indexOf; rw [hshift]
  rw [findDataBlock_mapped hroot, findDataBlock_mapped hroot', hidx, hshift, h]

/-- Height, root and block type are all that a well-formed inode is about. -/
theorem WellFormed.congr (hwf : WellFormed R d pi) (hh : pi'.height = pi.height)
    (hr : pi'.root = pi.root) (ht : pi'.iBlkType = pi.iBlkType) : WellFormed R d pi' := by
  refine ⟨?_, fun h0 => ?_, hh ▸ hwf.height⟩
  · unfold inodeBlocks treeOf
    rw [hh, hr, ht]
    exact hwf.owns
  · rw [hh]
    exact hwf.root (hr ▸ h0)

theorem treeOf_congr (hh : pi'.height = pi.height) (hr : pi'.root = pi.root) :
    treeOf d pi' = treeOf d pi := by
  unfold treeOf
  rw [hh, hr]

theorem mapped_congr (hh : pi'.height = pi.height) (hr : pi'.root = pi.root) (n : ℕ) :
    mapped d pi' n = mapped d pi n := by
  unfold mapped
  rw [treeOf_congr hh hr, hh]

theorem mapped_of_root (h : pi.root = 0) (n : ℕ) : mapped d pi n = 0 := by
  rw [mapped, treeOf_of_root h, lookup_empty]

theorem root_of_mapped (h : mapped d pi n ≠ 0) : pi.root ≠ 0 :=
  fun hroot => h (mapped_of_root hroot n)

theorem wellFormed_of_root (hown : Owns d R) (hroot : pi.root = 0) (hheight : pi.height = 0) :
    WellFormed R d pi :=
  ⟨by rwa [inodeBlocks_of_root hroot, zero_add], fun _ => hheight, by omega⟩

/-- The number of data blocks is the number of mapped indices. -/
theorem leaves_eq {N : ℕ} (d : Dev) (hN : 512 ^ pi.height ≤ N) : leaves 512 (treeOf d pi) =
    ((Finset.range N).filter fun n => mapped d pi n ≠ 0).card :=
  leaves_eq_card_lookup uniform_tree hN

/-- Different data blocks of a file have no page in common. -/
theorem WellFormed.disjoint (hwf : WellFormed R d pi) (hnm : n ≠ m) (hn : mapped d pi n ≠ 0)
    (hm : mapped d pi m ≠ 0) : Disjoint (runBlocks pi.iBlkType (pmfsGetBlocknr (mapped d pi n)))
      (runBlocks pi.iBlkType (pmfsGetBlocknr (mapped d pi m))) := by
  have hln := lt_of_lookup_ne hn
  have hlm := lt_of_lookup_ne hm
  have hnodup := (Multiset.nodup_add.mp hwf.owns.nodup).1
  unfold inodeBlocks blocks at hnodup
  unfold mapped treeOf at hn hm ⊢
  rw [lookup_of_lt hln] at hn ⊢
  rw [lookup_of_lt hlm] at hm ⊢
  exact (Multiset.nodup_add.mp (Multiset.nodup_of_le
    (wl_add_wl_le_pages (by norm_num) uniform_tree hln hlm hnm hn hm) hnodup)).2.2

/-! ### Trees that extend each other -/

theorem Extends.refl (hown : Owns d (blocks t (tree d h p) + R)) : Extends t R S d d h h p p :=
  ⟨hown, .refl, fun _ _ => rfl, fun _ _ => rfl, le_rfl, fun _ h0 h1 => absurd h0 h1⟩

theorem Extends.trans (g : Extends t R S d d' h h' p p') (g' : Extends t R S d' d'' h' h'' p' p'') :
    Extends t R S d d'' h h'' p p'' := by
  refine ⟨g'.owns, g.frame.trans g'.frame, fun n hn => ?_, fun n hn => ?_, g.le.trans g'.le,
    fun n h0 h2 => ?_⟩
  · rw [g'.keeps n (by rwa [g.keeps n hn]), g.keeps n hn]
  · rw [g'.outside n hn, g.outside n hn]
  · by_cases h1 : lookup 512 h' (tree d' h' p') n = 0
    · exact (Multiset.add_le_add_right g.le).trans (g'.fresh n h1 h2)
    · rw [g'.keeps n h1]
      exact (g.fresh n h0 h1).trans g'.le

theorem Extends.mono {S' : ℕ → Prop} (g : Extends t R S d d' h h' p p') (hS : ∀ n, S n → S' n) :
    Extends t R S' d d' h h' p p' :=
  ⟨g.owns, g.frame, g.keeps, fun n hn => g.outside n fun hcon => hn (hS n hcon), g.le, g.fresh⟩

theorem newRoot_extends {d1 : Dev} (hnew : NewOwned d .b4K true (blocks t (tree d h p) + R) b d1) :
    Extends t R S d (d1.setSlot b 0 p) h (h + 1) p (pmfsGetBlockOff b) := by
  have hmoved := newRoot_moved hnew
  have hb := blockOff_ne_zero hnew.pos
  obtain ⟨-, htree, hslot0, hslots⟩ := newRoot_slots hnew
  have hlookup : ∀ n, lookup 512 (h + 1) (tree (d1.setSlot b 0 p) (h + 1) (pmfsGetBlockOff b)) n =
      lookup 512 h (tree d h p) n := by
    intro n
    rw [tree_kids hb, lookup_single (by norm_num), kidsOf_eq 0 (by norm_num), hslot0, htree]
    intro i hi
    unfold kidsOf
    split_ifs with hlt
    · rw [hslots i hlt hi, tree_null]
    · rfl
  refine ⟨hmoved.owns, hmoved.frame, fun n _ => hlookup n, fun n _ => hlookup n, ?_,
    fun n h0 h1 => ?_⟩
  · rw [(tree_single hb hslots).1, hslot0, htree]
    exact Multiset.le_add_left _ _
  · rw [hlookup] at h1
    exact absurd h0 h1

theorem increaseLoop_extends : ∀ {n h p h' p' : ℕ} {d d' : Dev} {o : Option Errno},
    Owns d (blocks t (tree d h p) + R) → increaseLoop n d h p = (d', h', p', o) →
    Extends t R S d d' h h' p p'
  | 0, h, p, h', p', d, d', o, hown, hrun => by
    simp only [increaseLoop] at hrun
    cases hrun
    exact .refl hown
  | n + 1, h, p, h', p', d, d', o, hown, hrun => by
    unfold increaseLoop at hrun
    rcases hr : d.newBlock .b4K true with ⟨r, d1⟩
    rw [hr] at hrun
    cases r with
    | error e =>
      obtain ⟨-, rfl⟩ := newBlock_error_eq hr
      cases hrun
      exact ⟨hown.congr rfl, frame_noteNoMeta, fun _ _ => rfl, fun _ _ => rfl, le_rfl,
        fun _ h0 h1 => absurd h0 h1⟩
    | ok b =>
      have hext := newRoot_extends (S := S) (newBlock_owns hown hr)
      exact hext.trans (increaseLoop_extends hext.owns hrun)

theorem grown_extends (hown : Owns d' (blocks t (tree d' h p) + R)) (hframe : Frame R d d')
    (hg : Grown 512 h first last (tree d h p) (tree d' h p)) (hh : h ≠ 0)
    (hS : ∀ n, first ≤ n → n ≤ last → S n) : Extends t R S d d' h h p p := by
  refine ⟨hown, hframe, fun n hne => ?_, fun n hout => ?_, ?_, fun n h0 h1 => ?_⟩
  · have hn := lt_of_lookup_ne hne
    rw [lookup_of_lt hn] at hne ⊢
    rw [lookup_of_lt hn]
    exact grown_find_of_ne hg hne
  · by_cases hn : n < 512 ^ h
    · rw [lookup_of_lt hn, lookup_of_lt hn]
      exact grown_find_outside (by norm_num) hg (absurd · hh) hn fun hin => hout (hS n hin.1 hin.2)
    · rw [lookup_of_le (not_lt.mp hn), lookup_of_le (not_lt.mp hn)]
  · unfold blocks
    exact grown_pages_le hg
  · have hn := lt_of_lookup_ne h1
    rw [lookup_of_lt hn] at h0 h1 ⊢
    unfold blocks
    exact grown_pages_fresh (by norm_num) hg hn h0 h1

/-! ### Allocation -/

/-- What an allocation for indices in `S` did. -/
structure Added (R : Multiset ℕ) (S : ℕ → Prop) (d : Dev) (pi : PmfsInode) (d' : Dev)
    (pi' : PmfsInode) : Prop where
  ext : Extends pi.iBlkType R S d d' pi.height pi'.height pi.root pi'.root
  blkType : pi'.iBlkType = pi.iBlkType
  size : pi'.iSize = pi.iSize
  root : pi'.root = 0 → pi'.height = 0
  height : pi'.height ≤ 3
  count : ∃ added, pi'.iBlocks = pi.iBlocks + UInt64.ofNat (added * unit pi) ∧
    leaves 512 (treeOf d' pi') = leaves 512 (treeOf d pi) + added

theorem unit_congr (h : pi'.iBlkType = pi.iBlkType) : unit pi' = unit pi := by
  unfold unit pmfsInodeBlkShift
  rw [h]

theorem Added.refl (hwf : WellFormed R d pi) : Added R S d pi d pi :=
  ⟨.refl hwf.owns, rfl, rfl, hwf.root, hwf.height, 0, by simp, rfl⟩

theorem Added.trans (g : Added R S d pi d' pi') (g' : Added R S d' pi' d'' pi'') :
    Added R S d pi d'' pi'' := by
  obtain ⟨a, ha1, ha2⟩ := g.count
  obtain ⟨a', ha1', ha2'⟩ := g'.count
  refine ⟨g.ext.trans (g.blkType ▸ g'.ext), g'.blkType.trans g.blkType,
    g'.size.trans g.size, g'.root, g'.height, a + a', ?_, ?_⟩
  · rw [ha1', ha1, unit_congr g.blkType, Nat.add_mul, UInt64.ofNat_add, add_assoc]
  · rw [ha2', ha2, add_assoc]

theorem Added.mono {S' : ℕ → Prop} (g : Added R S d pi d' pi') (hS : ∀ n, S n → S' n) :
    Added R S' d pi d' pi' :=
  ⟨g.ext.mono hS, g.blkType, g.size, g.root, g.height, g.count⟩

theorem Added.wellFormed (g : Added R S d pi d' pi') : WellFormed R d' pi' := by
  refine ⟨?_, g.root, g.height⟩
  unfold inodeBlocks
  rw [g.blkType]
  exact g.ext.owns

theorem increase_added {newHeight : ℕ} (hwf : WellFormed R d pi) (hle : pi.height ≤ newHeight)
    (hnew : newHeight ≤ 3) (hrun : pmfsIncreaseBtreeHeight d pi newHeight = (d', pi', o)) :
    Added R S d pi d' pi' ∧ (o = none → pi'.height = newHeight) := by
  obtain ⟨d1, h₁, p1, o1, hloop, hm, h1, h2, h3, h4, h5, -⟩ :=
    increaseLoop_moved (n := newHeight - pi.height) hwf.owns
  have hext := increaseLoop_extends (S := S) hwf.owns hloop
  unfold pmfsIncreaseBtreeHeight at hrun
  simp only [hloop] at hrun
  cases hrun
  refine ⟨⟨hext, rfl, rfl, fun hp => ?_, ?_, 0, by simp, hm.leaves⟩, fun ho => ?_⟩
  · by_cases heq : h₁ = pi.height
    · exact heq.trans (hwf.root ((h3 heq).symm.trans hp))
    · exact absurd hp (h4 heq)
  · have : h₁ ≤ 3 := by omega
    exact this
  · have := h2 ho
    have : h₁ = newHeight := by omega
    exact this

theorem recursiveAlloc_added (zero newNode : Bool) (hwf : WellFormed R d pi) (hroot : pi.root ≠ 0)
    (hh : pi.height ≠ 0) (hS : ∀ n, first ≤ n → n ≤ last → S n) (hl : last < 512 ^ pi.height) :
    ∃ d' pi' o, recursiveAllocBlocks zero pi.height pi.root first last newNode d pi =
        some (d', pi', o) ∧ Added R S d pi d' pi' ∧ pi'.height = pi.height ∧
      (o = none → Filled 512 pi'.height first last (treeOf d' pi') ∧ last < 512 ^ pi'.height) := by
  obtain ⟨k, hk⟩ := Nat.exists_eq_succ_of_ne_zero hh
  have hgrows : Grows pi.iBlkType pi.height (recursiveAllocBlocks zero pi.height) := by
    rw [hk]
    exact alloc_grows pi.iBlkType zero k
  obtain ⟨d', pi', o, added, hrun, hown', hframe, hgrown, hfill, hcount, hleaves, -⟩ :=
    hgrows newNode hroot rfl hl hwf.owns
  have hpi := hcount.eq
  have hheight : pi'.height = pi.height := by rw [hpi]
  have hroot' : pi'.root = pi.root := by rw [hpi]
  have htree : treeOf d' pi' = tree d' pi.height pi.root := by rw [treeOf, hheight, hroot']
  refine ⟨d', pi', o, hrun, ⟨?_, hcount.blkType, by rw [hpi], ?_, hheight ▸ hwf.height, added,
    by rw [hpi]; rfl, ?_⟩, hheight, fun ho => ?_⟩
  · rw [hheight, hroot']
    exact grown_extends hown' hframe hgrown hh hS
  · exact fun hcon => absurd (hroot'.symm.trans hcon) hroot
  · rw [htree]
    exact hleaves
  · rw [htree, hheight]
    exact ⟨hfill ho, hl⟩

theorem leaf_extends (hnew : NewOwned d t zero R b d') (hS : S 0) :
    Extends t R S d d' h 0 0 (pmfsGetBlockOff b) := by
  have htree : tree d' 0 (pmfsGetBlockOff b) = leaf (pmfsGetBlockOff b) :=
    tree_leaf (blockOff_ne_zero hnew.pos)
  rw [← zero_add R, ← blocks_empty (t := t), ← tree_null (d := d) h] at hnew
  refine ⟨?_, hnew.frame.mono (Multiset.le_add_left _ _), fun n hn => ?_, fun n hn => ?_, ?_,
    fun n _ h1 => ?_⟩
  · have hown := hnew.owns
    rw [tree_null, blocks_empty, zero_add] at hown
    rw [htree, blocks_leaf, blocknr_off]
    exact hown
  · rw [tree_null] at hn
    exact absurd lookup_empty hn
  · rw [htree, tree_null, lookup_empty]
    refine lookup_of_le (Nat.one_le_iff_ne_zero.mpr ?_)
    rintro rfl
    exact hn hS
  · rw [tree_null, blocks_empty]
    exact Multiset.zero_le _
  · rw [tree_null, blocks_empty, zero_add, lookup_of_lt (lt_of_lookup_ne h1), htree, blocks_leaf]
    exact le_rfl

/-- The first block of a file, when it is asked for. -/
theorem firstBlock_added (first : ℕ) (zero : Bool) (hwf : WellFormed R d pi)
    (hroot : pi.root = 0) (hl : last = 0) (hS : S 0) : ∃ d' pi' o, firstBlock d pi zero =
    some (d', pi', o) ∧
      Added R S d pi d' pi' ∧
      (o = none → Filled 512 pi'.height first last (treeOf d' pi') ∧ last < 512 ^ pi'.height) := by
  unfold firstBlock pmfsNewDataBlock
  rcases hr : d.newBlock pi.iBlkType zero with ⟨r, d1⟩
  cases r with
  | error e =>
    obtain ⟨-, rfl⟩ := newBlock_error_eq hr
    refine ⟨_, pi, some e, rfl, ⟨⟨hwf.owns.congr rfl, ⟨fun _ _ _ => rfl, rfl, rfl, le_rfl⟩,
      fun _ _ => rfl, fun _ _ => rfl, le_rfl, fun _ h0 h1 => absurd h0 h1⟩, rfl, rfl,
      hwf.root, hwf.height, 0, by simp, rfl⟩, fun hcon => by simp at hcon⟩
  | ok b =>
    have hown := hwf.owns
    rw [inodeBlocks_of_root hroot, zero_add] at hown
    have hnew := newBlock_owns hown hr
    have hb := blockOff_ne_zero hnew.pos
    have hext : Extends pi.iBlkType R S d d1 pi.height 0 pi.root (pmfsGetBlockOff b) := by
      rw [hroot]
      exact leaf_extends hnew hS
    refine ⟨d1, _, none, rfl, ⟨hext, rfl, rfl, fun hcon => absurd hcon hb,
      Nat.zero_le _, 1, ?_, ?_⟩, fun _ => ⟨?_, by rw [hl, pow_zero]; exact one_pos⟩⟩
    · rw [one_mul, Nat.shiftLeft_eq, one_mul]
      rfl
    · rw [treeOf_of_root hroot, treeOf, tree_leaf hb]
      rfl
    · unfold treeOf
      rw [tree_leaf hb]
      trivial

/-- The indices that `__pmfs_alloc_blocks` has blocks for: those of the range, if three levels hold
it. A file without a block gets block 0 whenever that is the last one. -/
def Asked (pi : PmfsInode) (fileBlocknr num n : ℕ) : Prop :=
  lastIndex pi fileBlocknr num < 512 ^ 3 ∧ n ≤ lastIndex pi fileBlocknr num ∧
    (indexOf pi fileBlocknr ≤ n ∨ pi.root = 0 ∧ lastIndex pi fileBlocknr num = 0)

/-- `__pmfs_alloc_blocks` adds data blocks where they are asked for. -/
theorem alloc_added (fileBlocknr num : ℕ) (zero : Bool) (hwf : WellFormed R d pi) :
    ∃ d' pi' o, __pmfsAllocBlocks d pi fileBlocknr num zero = some (d', pi', o) ∧
      Added R (Asked pi fileBlocknr num) d pi d' pi' ∧
      (o = none → Filled 512 pi'.height (indexOf pi fileBlocknr) (lastIndex pi fileBlocknr num)
        (treeOf d' pi') ∧ lastIndex pi fileBlocknr num < 512 ^ pi'.height) := by
  obtain ⟨height, h1, h2, -, ⟨-, hrun⟩ |
      ⟨h3, ⟨hz, hroot, hrun⟩ | ⟨hz, hroot, hrun⟩ | ⟨hz, hrun⟩⟩⟩ :=
    alloc_cases d pi fileBlocknr num zero
  · exact ⟨d, pi, _, hrun, .refl hwf, fun hcon => by simp at hcon⟩
  · rw [hz, pow_zero, Nat.lt_one_iff] at h2
    rw [hrun]
    exact firstBlock_added _ zero hwf hroot h2 ⟨by rw [h2]; norm_num, Nat.zero_le _,
      Or.inr ⟨hroot, h2⟩⟩
  · have hp : pi.height = 0 := by omega
    refine ⟨d, pi, none, hrun, .refl hwf, fun _ => ⟨?_, by rwa [hp, ← hz]⟩⟩
    unfold treeOf
    rw [hp, tree_leaf hroot]
    trivial
  · have h3 := h3 hwf.height
    rcases hinc : pmfsIncreaseBtreeHeight d pi height with ⟨d1, pi1, o1⟩
    obtain ⟨hadd, hnone⟩ := increase_added hwf h1 h3 hinc
    rw [hrun, raiseFill, hinc]
    cases o1 with
    | some e => exact ⟨d1, pi1, some e, rfl, hadd, fun hcon => by simp at hcon⟩
    | none =>
      have hh := hnone rfl
      have hr : pi1.root ≠ 0 := fun hcon => by
        have := hadd.root hcon
        omega
      have hlt : lastIndex pi fileBlocknr num < 512 ^ 3 :=
        h2.trans_le (Nat.pow_le_pow_right (by norm_num) h3)
      rw [← hh] at h2 hz
      obtain ⟨d', pi', o, hrec, hadd', -, hfill⟩ :=
        recursiveAlloc_added (S := Asked pi fileBlocknr num) zero (decide (pi.root = 0))
          hadd.wellFormed hr hz (fun n hn hn' => ⟨hlt, hn', Or.inl hn⟩) h2
      rw [hh] at hrec
      exact ⟨d', pi', o, hrec, hadd.trans hadd', hfill⟩

theorem alloc_run {fileBlocknr num : ℕ} (hwf : WellFormed R d pi)
    (hrun : __pmfsAllocBlocks d pi fileBlocknr num zero = some (d', pi', o)) :
    Added R (Asked pi fileBlocknr num) d pi d' pi' ∧
      (o = none → Filled 512 pi'.height (indexOf pi fileBlocknr) (lastIndex pi fileBlocknr num)
        (treeOf d' pi') ∧ lastIndex pi fileBlocknr num < 512 ^ pi'.height) := by
  obtain ⟨d1, pi1, o1, hrun1, hadd⟩ := alloc_added fileBlocknr num zero hwf
  rw [hrun] at hrun1
  cases hrun1
  exact hadd

/-- The indices that became mapped. -/
def newIndices (d : Dev) (pi : PmfsInode) (d' : Dev) (pi' : PmfsInode) : Finset ℕ :=
  (Finset.range (512 ^ 3)).filter fun n => mapped d pi n = 0 ∧ mapped d' pi' n ≠ 0

/-- The data blocks of the file are those from before and new ones in the range: each new one was
free and is no part of another, and `i_blocks` counts them in 4K blocks. -/
structure Exact (first last : ℕ) (d : Dev) (pi : PmfsInode) (d' : Dev) (pi' : PmfsInode) :
    Prop where
  keeps : ∀ b bp, pmfsFindDataBlock d pi b = some bp → bp ≠ 0 → pmfsFindDataBlock d' pi' b = some bp
  outside : ∀ b, ¬ (first ≤ indexOf pi b ∧ indexOf pi b ≤ last) →
    pmfsFindDataBlock d' pi' b = pmfsFindDataBlock d pi b
  iBlocks : pi'.iBlocks = pi.iBlocks + UInt64.ofNat ((newIndices d pi d' pi').card * unit pi)
  free : ∀ n ∈ newIndices d pi d' pi',
    ∀ x ∈ runBlocks pi.iBlkType (pmfsGetBlocknr (mapped d' pi' n)), x ∉ inUse d.ba ∧ x ∈ inUse d'.ba
  distinct : ∀ n ∈ newIndices d pi d' pi', ∀ m ∈ newIndices d pi d' pi', n ≠ m →
    Disjoint (runBlocks pi.iBlkType (pmfsGetBlocknr (mapped d' pi' n)))
      (runBlocks pi.iBlkType (pmfsGetBlocknr (mapped d' pi' m)))

theorem mem_newIndices : n ∈ newIndices d pi d' pi' ↔
    n < 512 ^ 3 ∧ mapped d pi n = 0 ∧ mapped d' pi' n ≠ 0 := by
  rw [newIndices, Finset.mem_filter, Finset.mem_range]

theorem Added.card_newIndices {added : ℕ} (hwf : WellFormed R d pi) (g : Added R S d pi d' pi')
    (h : leaves 512 (treeOf d' pi') = leaves 512 (treeOf d pi) + added) :
    (newIndices d pi d' pi').card = added := by
  have hN : ∀ {j}, j ≤ 3 → 512 ^ j ≤ 512 ^ 3 := fun hj => Nat.pow_le_pow_right (by norm_num) hj
  rw [leaves_eq d' (hN g.height), leaves_eq d (hN hwf.height)] at h
  unfold newIndices
  generalize 512 ^ 3 = N at h ⊢
  have hunion : (Finset.range N).filter (fun n => mapped d' pi' n ≠ 0) =
      (Finset.range N).filter (fun n => mapped d pi n ≠ 0) ∪
        (Finset.range N).filter (fun n => mapped d pi n = 0 ∧ mapped d' pi' n ≠ 0) := by
    rw [← Finset.filter_or]
    refine Finset.filter_congr fun n _ => ?_
    have hkeep : mapped d pi n ≠ 0 → mapped d' pi' n = mapped d pi n := g.ext.keeps n
    by_cases h0 : mapped d pi n = 0
    · simp [h0]
    · simp [h0, hkeep h0]
  have hdis : Disjoint ((Finset.range N).filter (fun n => mapped d pi n ≠ 0))
      ((Finset.range N).filter (fun n => mapped d pi n = 0 ∧ mapped d' pi' n ≠ 0)) :=
    Finset.disjoint_filter.mpr fun n _ h1 h2 => h1 h2.1
  rw [hunion, Finset.card_union_of_disjoint hdis] at h
  omega

theorem Added.exact (hwf : WellFormed R d pi)
    (g : Added R (fun n => first ≤ n ∧ n ≤ last) d pi d' pi') : Exact first last d pi d' pi' := by
  obtain ⟨added, hib, hleaves⟩ := g.count
  have hown' := g.ext.owns
  refine ⟨fun b bp hb hne => ?_, fun b hout => ?_, ?_, fun n hn x hx => ?_, fun n hn m hm hnm => ?_⟩
  · rw [← hb]
    refine findDataBlock_congr hwf.root g.root g.blkType (g.ext.keeps _ fun h0 => hne ?_)
    rw [findDataBlock_mapped hwf.root, mapped, treeOf, h0, if_pos rfl, Option.some.injEq] at hb
    exact hb.symm
  · exact findDataBlock_congr hwf.root g.root g.blkType (g.ext.outside _ hout)
  · rw [g.card_newIndices hwf hleaves]
    exact hib
  · obtain ⟨-, h0, h1⟩ := mem_newIndices.mp hn
    have hle := g.ext.fresh n h0 h1
    have hmem : x ∈ blocks pi.iBlkType (tree d' pi'.height pi'.root) :=
      Multiset.mem_of_le hle (Multiset.mem_add.mpr (Or.inr hx))
    have hnodup := Multiset.nodup_of_le (Multiset.add_le_add_right hle) hown'.nodup
    refine ⟨fun hin => ?_, (hown'.mem x).mp (Multiset.mem_add.mpr (Or.inl hmem))⟩
    -- the blocks in use before are those of the old tree and of `R`
    rw [add_right_comm] at hnodup
    exact Multiset.disjoint_left.mp (Multiset.nodup_add.mp hnodup).2.2 ((hwf.owns.mem x).mpr hin) hx
  · rw [← g.blkType]
    exact g.wellFormed.disjoint hnm (mem_newIndices.mp hn).2.2 (mem_newIndices.mp hm).2.2

theorem indexOf_mono {a b : ℕ} (h : a ≤ b) : indexOf pi a ≤ indexOf pi b := by
  unfold indexOf
  rw [Nat.shiftRight_eq_div_pow, Nat.shiftRight_eq_div_pow]
  exact Nat.div_le_div_right h

theorem lastIndex_eq {fileBlocknr num : ℕ} (hnum : 1 ≤ num) (hrange : fileBlocknr + num ≤ 2 ^ 64) :
    lastIndex pi fileBlocknr num = indexOf pi (fileBlocknr + num - 1) := by
  have hlast : lastFileBlock fileBlocknr num = fileBlocknr + num - 1 := by
    unfold lastFileBlock
    omega
  rw [lastIndex, indexOf, hlast]

theorem lastIndex_one (pi : PmfsInode) (hb : b < 2 ^ 64) : lastIndex pi b 1 = indexOf pi b := by
  rw [lastIndex_eq le_rfl (by omega), Nat.add_sub_cancel]

theorem asked_one (hb : b < 2 ^ 64) (hn : Asked pi b 1 n) : n = indexOf pi b := by
  obtain ⟨-, h1, h2⟩ := hn
  rw [lastIndex_one pi hb] at h1 h2
  omega

/-- **Main result.** `__pmfs_alloc_blocks` adds new data blocks in the range to the file and keeps
the others, whether or not it fails on the way. When it does not, every block of the range is found.
-/
theorem alloc_exact (fileBlocknr num : ℕ) (zero : Bool) (hwf : WellFormed R d pi) (hnum : 1 ≤ num)
    (hrange : fileBlocknr + num ≤ 2 ^ 64) :
    ∃ d' pi' o, __pmfsAllocBlocks d pi fileBlocknr num zero = some (d', pi', o) ∧
    WellFormed R d' pi' ∧
      Exact (indexOf pi fileBlocknr) (indexOf pi (fileBlocknr + num - 1)) d pi d' pi' ∧
      (o = none → ∀ b, fileBlocknr ≤ b → b < fileBlocknr + num →
        ∃ bp, bp ≠ 0 ∧ pmfsFindDataBlock d' pi' b = some bp) := by
  have hlast : lastIndex pi fileBlocknr num = indexOf pi (fileBlocknr + num - 1) :=
    lastIndex_eq hnum hrange
  have hle : indexOf pi fileBlocknr ≤ indexOf pi (fileBlocknr + num - 1) := indexOf_mono (by omega)
  obtain ⟨d', pi', o, hrun, hadd, hfill⟩ := alloc_added fileBlocknr num zero hwf
  have hexact : Exact (indexOf pi fileBlocknr) (indexOf pi (fileBlocknr + num - 1)) d pi d'
    pi' := by
    refine Added.exact hwf (hadd.mono fun n hn => ?_)
    obtain ⟨-, h1, h2⟩ := hn
    omega
  rw [hlast] at hfill
  refine ⟨d', pi', o, hrun, hadd.wellFormed, hexact, fun ho b hb hb' => ?_⟩
  obtain ⟨hfilled, hlt⟩ := hfill ho
  have hidx : indexOf pi' b = indexOf pi b := by
    unfold indexOf pmfsInodeBlkShift
    rw [hadd.blkType]
  have h1 : indexOf pi fileBlocknr ≤ indexOf pi b := indexOf_mono hb
  have h2 : indexOf pi b ≤ indexOf pi (fileBlocknr + num - 1) := indexOf_mono (by omega)
  have hne : mapped d' pi' (indexOf pi' b) ≠ 0 := by
    rw [hidx, mapped, lookup_of_lt (h2.trans_lt hlt)]
    exact hfilled.find_ne_zero (by norm_num) uniform_tree h1 h2
  refine ⟨_, ?_, findDataBlock_mapped hadd.root b⟩
  rw [if_neg hne]
  omega

/-- A device of 64 blocks with 17 in use. -/
def freshDev : Dev := ⟨pmfsInitBlockmap (Balloc.fresh 64) 0x11000, [], fun _ _ => 0, [], false⟩

theorem wellFormed_zeroInode : ∃ R, WellFormed R freshDev zeroInode := by
  obtain ⟨R, hR⟩ := exists_owns (d := freshDev) (wf_init (by decide) (by decide))
  exact ⟨R, wellFormed_of_root hR rfl rfl⟩

/-- Three blocks around the end of the first metadata block. -/
theorem alloc_exact_three : ∃ R, WellFormed R freshDev zeroInode ∧ 1 ≤ 3 ∧ 511 + 3 ≤ 2 ^ 64 ∧
    ∃ d' pi' o, __pmfsAllocBlocks freshDev zeroInode 511 3 false = some (d', pi', o) ∧
      WellFormed R d' pi' ∧ Exact 511 513 freshDev zeroInode d' pi' := by
  obtain ⟨R, hwf⟩ := wellFormed_zeroInode
  obtain ⟨d', pi', o, hrun, hwf', hexact, -⟩ := alloc_exact 511 3 false hwf (by decide) (by decide)
  exact ⟨R, hwf, by decide, by decide, d', pi', o, hrun, hwf', hexact⟩

/-- The end of the range is computed in 64 bits: two blocks from the last one on end at block 0,
which the file has. Nothing is allocated and no error is returned. -/
theorem range_wraps : ∃ R d pi, WellFormed R d pi ∧ ∃ d' pi',
    __pmfsAllocBlocks d pi (2 ^ 64 - 1) 2 false = some (d', pi', none) ∧
      pmfsFindDataBlock d' pi' (2 ^ 64 - 1) = some 0 := by
  obtain ⟨R, hwf⟩ := wellFormed_zeroInode
  obtain ⟨d, pi, o, hrun, hadd, -⟩ := alloc_added 0 1 false hwf
  obtain ⟨r, hr, ⟨d', pi', o'⟩, hrun', ho', hfind⟩ :
      ∃ r ∈ __pmfsAllocBlocks freshDev zeroInode 0 1 false,
        ∃ r' ∈ __pmfsAllocBlocks r.1 r.2.1 (2 ^ 64 - 1) 2 false, r'.2.2 = none ∧
          pmfsFindDataBlock r'.1 r'.2.1 (2 ^ 64 - 1) = some 0 := by
    decide +kernel
  rw [hrun, Option.mem_some_iff] at hr
  subst hr ho'
  exact ⟨R, d, pi, hadd.wellFormed, d', pi', hrun', hfind⟩

end Pmfs.Tree.Extend
