import Pmfs.Tree.Truncate

/-! # Allocating into a tree

`recursive_alloc_blocks` grows the tree it is called on: `alloc_grows` says that it adds data blocks
at indices of the range and metadata blocks on the way to them, that these are the blocks it takes
from the allocator, and that `i_blocks` counts the new data blocks, whether or not it runs out of
blocks on the way. When it does not, every index of the range has its block. -/

namespace Pmfs.Tree.Grow

open Lib.Radix Lib.Loop Function
open Block.Model Tree.Model Tree.Own Tree.Truncate
open RTree

/-- The inode after `added` data blocks were allocated; only an error may set the flag. -/
structure Counted (pi pi' : PmfsInode) (added : ℕ) (o : Option Errno) : Prop where
  eq : pi' = { pi with
    iBlocks := pi.iBlocks + UInt64.ofNat (added * 2 ^ (pmfsInodeBlkShift pi - 12))
    iFlags := pi'.iFlags }
  flags : pi'.iFlags = pi.iFlags ∨ o ≠ none ∧ pi'.iFlags = pi.setEofblocks.iFlags

variable {d d' : Dev} {pi pi' pi'' : PmfsInode} {R : Multiset ℕ} {t : BlkType} {o : Option Errno}
  {a b k p f l j : ℕ} {T : RTree}

theorem counted_refl (pi : PmfsInode) (o : Option Errno) : Counted pi pi 0 o :=
  ⟨by simp, Or.inl rfl⟩

theorem Counted.blkType (h : Counted pi pi' a o) : pi'.iBlkType = pi.iBlkType := by
  rw [h.eq]

theorem Counted.trans (h : Counted pi pi' a none) (h' : Counted pi' pi'' b o) :
    Counted pi pi'' (a + b) o := by
  have hflags : pi'.iFlags = pi.iFlags := h.flags.resolve_right fun hcon => hcon.1 rfl
  have hshift : pmfsInodeBlkShift pi' = pmfsInodeBlkShift pi := by
    rw [pmfsInodeBlkShift, h.blkType, pmfsInodeBlkShift]
  have hpi := h.eq
  refine ⟨?_, ?_⟩
  · rw [h'.eq, hshift, hpi]
    simp only [Nat.add_mul, UInt64.ofNat_add, add_assoc]
  · rcases h'.flags with h1 | ⟨h1, h2⟩
    · exact Or.inl (h1.trans hflags)
    · refine Or.inr ⟨h1, h2.trans ?_⟩
      simp only [PmfsInode.setEofblocks, hflags]

/-! ### One child -/

/-- Child `j` of the block at `p` changed, the others kept their slots and their blocks. -/
theorem kids_update (hp : p ≠ 0) (hown : Owns d (blocks t (tree d (k + 1) p) + R)) (hj : j < 512)
    (hown' : Owns d' (blocks t (tree d' k (d'.node (pmfsGetBlocknr p) j)) +
      others t (pmfsGetBlocknr p) (kidsOf d k p) R j))
    (hslots : ∀ i, i ≠ j → d'.node (pmfsGetBlocknr p) i = d.node (pmfsGetBlocknr p) i)
    (hframe : ∀ y ∈ others t (pmfsGetBlocknr p) (kidsOf d k p) R j, y ≠ pmfsGetBlocknr p →
      ∀ i, d'.node y i = d.node y i) :
    kidsOf d' k p = update (kidsOf d k p) j (tree d' k (d'.node (pmfsGetBlocknr p) j)) ∧
      Owns d' (blocks t (tree d' (k + 1) p) + R) := by
  rw [tree_kids hp, blocks_node] at hown
  have hkids : Kids t d k (pmfsGetBlocknr p) (kidsOf d k p) R :=
    ⟨hown, fun i hi _ => (kidsOf_eq i hi).symm⟩
  have hpage : ∀ i < 512, ∀ y ∈ blocks t (kidsOf d k p i), y ≠ pmfsGetBlocknr p := by
    rintro i hi y hy rfl
    exact Multiset.disjoint_left.mp (Multiset.nodup_add.mp (hkids.split hi).nodup).2.2 hy
      (page_mem_others t _ _ R i)
  have heq : kidsOf d' k p =
      update (kidsOf d k p) j (tree d' k (d'.node (pmfsGetBlocknr p) j)) := by
    funext i
    by_cases hij : i = j
    · subst hij
      rw [update_self, kidsOf_eq i hj]
    · rw [update_of_ne hij, kidsOf, kidsOf]
      by_cases hi : i < 512
      · rw [if_pos hi, if_pos hi, hslots i hij]
        refine tree_congr (t := t) fun y hy => ?_
        rw [← kidsOf_eq i hi] at hy
        exact hframe y (Multiset.mem_of_le (blocks_le_others hi hij) hy) (hpage i hi y hy)
      · rw [if_neg hi, if_neg hi]
  refine ⟨heq, ?_⟩
  rw [tree_kids hp, blocks_node, heq, sum_blocks_update hj]
  exact hown'

/-- A new block of type `t'` is stored in the empty slot `j`. -/
theorem store_owns {b : ℕ} {t' : BlkType} {zero : Bool} {s : AllocLoop} (last : ℕ) (hp : p ≠ 0)
    (hown : Owns d (blocks t (tree d (k + 1) p) + R)) (hj : j < 512)
    (hslot : d.node (pmfsGetBlocknr p) j = 0)
    (hnew : NewOwned d t' zero (blocks t (tree d (k + 1) p) + R) b s.d) :
    let d' := (s.store (pmfsGetBlocknr p) j last b).d
    Owns d' (runBlocks t' b + others t (pmfsGetBlocknr p) (kidsOf d k p) R j) ∧
      d'.node (pmfsGetBlocknr p) j = pmfsGetBlockOff b ∧
      (∀ i, i ≠ j → d'.node (pmfsGetBlocknr p) i = d.node (pmfsGetBlocknr p) i) ∧
      (∀ y ∈ others t (pmfsGetBlocknr p) (kidsOf d k p) R j, y ≠ pmfsGetBlocknr p →
        ∀ i, d'.node y i = d.node y i) ∧
      (∀ i, d'.node b i = s.d.node b i) ∧ Frame R d d' := by
  intro d'
  have hM : blocks t (tree d (k + 1) p) + R =
      others t (pmfsGetBlocknr p) (kidsOf d k p) R j := by
    have h0 : kidsOf d k p j = empty := by rw [kidsOf_eq j hj, hslot, tree_null]
    rw [tree_kids hp, blocks_node, ← update_eq_self j (kidsOf d k p),
      sum_blocks_update hj, h0, blocks_empty, zero_add, ← h0, update_eq_self]
  have hRp : pmfsGetBlocknr p ∉ R := by
    rw [tree_kids hp, blocks_node] at hown
    exact fun hmem => ne_of_nodup_add hown.nodup hmem rfl
  rw [hM] at hnew
  refine hnew.put (page_mem_others ..) (le_others ..) hRp (fun y i => ?_) ?_ ?_ ?_
  · simp only [d', AllocLoop.store, Dev.setSlot]
    split_ifs <;> rfl
  · simp only [d', AllocLoop.store, Dev.setSlot]
    split_ifs <;> rfl
  · simp only [d', AllocLoop.store, Dev.setSlot]
    split_ifs <;> rfl
  · simp only [d', AllocLoop.store, failures_setSlot]
    split_ifs
    · rw [failures_logSlots]
    · rfl

/-! ### The loop -/

section Loop

variable (t : BlkType) (k p f l : ℕ) (d0 : Dev) (pi0 : PmfsInode) (R : Multiset ℕ)

/-- The tree has grown from what it was in `d0`, and nothing else happened. -/
structure GrownFrom (o : Option Errno) (d : Dev) (pi : PmfsInode) : Prop where
  owns : Owns d (blocks t (tree d (k + 1) p) + R)
  frame : Frame R d0 d
  grown : ∀ i, if f / 512 ^ k ≤ i ∧ i ≤ l / 512 ^ k then
    Grown 512 k (lo 512 k f i) (hi 512 k l i) (kidsOf d0 k p i) (kidsOf d k p i)
    else kidsOf d k p i = kidsOf d0 k p i
  count : ∃ added, Counted pi0 pi added o ∧
    leaves 512 (tree d (k + 1) p) = leaves 512 (tree d0 (k + 1) p) + added
  fails : o ≠ none → pi.eofblocks = true ∨ d0.failures < d.failures

/-- The invariant of the loop: it has filled the children before slot `j`. -/
structure Inv (j : ℕ) (s : AllocLoop) : Prop
    extends GrownFrom t k p f l d0 pi0 R none s.d s.pi where
  same : ∀ i, j ≤ i → kidsOf s.d k p i = kidsOf d0 k p i
  filled : ∀ i, f / 512 ^ k ≤ i → i < j → i ≤ l / 512 ^ k →
    Filled 512 k (lo 512 k f i) (hi 512 k l i) (kidsOf s.d k p i)

variable {t k p f l d0 pi0 R} {s : AllocLoop}

theorem leaves_update (hp : p ≠ 0) (hj : j < 512) {x : RTree}
    (h : kidsOf d' k p = update (kidsOf d k p) j x) :
    leaves 512 (tree d' (k + 1) p) + leaves 512 (kidsOf d k p j) =
      leaves 512 (tree d (k + 1) p) + leaves 512 x := by
  rw [tree_kids hp, tree_kids hp]
  have h1 := sum_split (fun i => leaves 512 (kidsOf d' k p i)) hj
  have h2 := sum_split (fun i => leaves 512 (kidsOf d k p i)) hj
  have h3 : ∑ i ∈ (Finset.range 512).erase j, leaves 512 (kidsOf d' k p i) =
      ∑ i ∈ (Finset.range 512).erase j, leaves 512 (kidsOf d k p i) :=
    Finset.sum_congr rfl fun i hi => by rw [h, update_of_ne (Finset.ne_of_mem_erase hi)]
  have h4 : kidsOf d' k p j = x := by rw [h, update_self]
  simp only [h3, h4] at h1
  simp only [leaves, h1, h2]
  omega

/-- One slot of the loop: child `j` becomes the tree `x`. -/
theorem Inv.grow (h : Inv t k p f l d0 pi0 R j s) (hp : p ≠ 0) (hf : f / 512 ^ k ≤ j)
    (hl : j ≤ l / 512 ^ k) (hj : j < 512) {x : RTree}
    (hkids : kidsOf d' k p = update (kidsOf s.d k p) j x)
    (hown : Owns d' (blocks t (tree d' (k + 1) p) + R)) (hframe : Frame R s.d d')
    (hgrown : Grown 512 k (lo 512 k f j) (hi 512 k l j) (kidsOf d0 k p j) x)
    (hcount : Counted s.pi pi' a o) (hleaves : leaves 512 x = leaves 512 (kidsOf d0 k p j) + a)
    (hfails : o ≠ none → pi'.eofblocks = true ∨ s.d.failures < d'.failures) :
    GrownFrom t k p f l d0 pi0 R o d' pi' := by
  refine ⟨hown, h.frame.trans hframe, fun i => ?_, ?_, fun ho => ?_⟩
  · rw [hkids]
    by_cases hij : i = j
    · subst hij
      rw [if_pos ⟨hf, hl⟩, update_self]
      exact hgrown
    · rw [update_of_ne hij]
      exact h.grown i
  · obtain ⟨added, hadd, hsum⟩ := h.count
    refine ⟨added + a, hadd.trans hcount, ?_⟩
    have h1 := leaves_update hp hj hkids
    rw [h.same j le_rfl] at h1
    omega
  · exact (hfails ho).imp_right fun hlt => h.frame.failures.trans_lt hlt

theorem Inv.next (h : Inv t k p f l d0 pi0 R j s) (hp : p ≠ 0) (hf : f / 512 ^ k ≤ j)
    (hl : j ≤ l / 512 ^ k) (hj : j < 512) {x : RTree} {s' : AllocLoop}
    (hkids : kidsOf s'.d k p = update (kidsOf s.d k p) j x)
    (hown : Owns s'.d (blocks t (tree s'.d (k + 1) p) + R)) (hframe : Frame R s.d s'.d)
    (hgrown : Grown 512 k (lo 512 k f j) (hi 512 k l j) (kidsOf d0 k p j) x)
    (hcount : Counted s.pi s'.pi a none)
    (hleaves : leaves 512 x = leaves 512 (kidsOf d0 k p j) + a)
    (hfilled : Filled 512 k (lo 512 k f j) (hi 512 k l j) x) :
    Inv t k p f l d0 pi0 R (j + 1) s' := by
  refine ⟨h.grow hp hf hl hj hkids hown hframe hgrown hcount hleaves (absurd rfl), fun i hi => ?_,
    fun i h1 h2 h3 => ?_⟩
  · rw [hkids, update_of_ne (by omega)]
    exact h.same i (by omega)
  · rw [hkids]
    by_cases hij : i = j
    · subst hij
      rw [update_self]
      exact hfilled
    · rw [update_of_ne hij]
      exact h.filled i h1 (by omega) h3

/-- What the body of the loop does at slot `j`. -/
def Steps (t : BlkType) (k p f l : ℕ) (d0 : Dev) (pi0 : PmfsInode) (R : Multiset ℕ) (j : ℕ)
    (r : Option (AllocLoop × Option Errno)) : Prop :=
  Ends r (Inv t k p f l d0 pi0 R (j + 1)) fun e s => GrownFrom t k p f l d0 pi0 R (some e) s.d s.pi

theorem leaf_step {zero : Bool} (ht : pi0.iBlkType = t) (h : Inv t 0 p f l d0 pi0 R j s)
    (hp : p ≠ 0) (hf : f / 512 ^ 0 ≤ j) (hl : j ≤ l / 512 ^ 0) (hj : j < 512) :
    Steps t 0 p f l d0 pi0 R j (allocLeafBody zero (pmfsGetBlocknr p) (l / 512 ^ 0) j s) := by
  have hkid := h.same j le_rfl
  have hty : s.pi.iBlkType = t := by
    obtain ⟨added, hc, -⟩ := h.count
    rw [hc.blkType, ht]
  unfold allocLeafBody pmfsNewDataBlock
  by_cases hslot : s.d.node (pmfsGetBlocknr p) j = 0
  · rw [if_pos hslot, hty]
    have hempty : kidsOf d0 0 p j = empty := by rw [← hkid, kidsOf_eq j hj, hslot, tree_null]
    rcases hr : s.d.newBlock t zero with ⟨r, d'⟩
    cases r with
    | error e =>
      obtain ⟨-, rfl⟩ := newBlock_error_eq hr
      refine Or.inr ⟨_, e, rfl, h.grow (x := kidsOf s.d 0 p j) (a := 0) hp hf hl hj ?_ ?_
        ⟨fun _ _ _ => rfl, rfl, rfl, le_rfl⟩ ?_ ?_ ?_ fun _ => Or.inl (eofblocks_set _)⟩
      · rw [update_eq_self]; rfl
      · exact h.owns.congr rfl
      · rw [hkid]; exact Grown.refl
      · exact ⟨by simp [PmfsInode.setEofblocks], Or.inr ⟨by simp, rfl⟩⟩
      · rw [hkid]; rfl
    | ok b =>
      have hnew := newBlock_owns h.owns hr
      obtain ⟨h1, h2, h3, h4, -, h6⟩ := store_owns (s := { s with d := d', pi := { s.pi with
        iBlocks := s.pi.iBlocks + UInt64.ofNat (1 <<< (pmfsInodeBlkShift s.pi - 12)) } })
        (l / 512 ^ 0) hp h.owns hj hslot hnew
      have hleaf : ∀ d : Dev, tree d 0 (pmfsGetBlockOff b) = leaf (pmfsGetBlockOff b) := fun d =>
        tree_leaf (blockOff_ne_zero hnew.pos)
      obtain ⟨h7, h8⟩ := kids_update hp h.owns hj (by
        rw [h2, hleaf, blocks_leaf, blocknr_off]; exact h1) h3 h4
      rw [h2, hleaf] at h7
      refine Or.inl ⟨_, rfl, h.next (a := 1) hp hf hl hj h7 h8 h6 ?_ ?_ ?_ trivial⟩
      · rw [hempty]
        exact Or.inr ⟨rfl, _, blockOff_ne_zero hnew.pos, rfl⟩
      · exact ⟨by simp [AllocLoop.store, Nat.shiftLeft_eq, hty], Or.inl rfl⟩
      · rw [hempty]; rfl
  · rw [if_neg hslot]
    have hleaf : kidsOf s.d 0 p j = leaf (s.d.node (pmfsGetBlocknr p) j) := by
      rw [kidsOf_eq j hj, tree_leaf hslot]
    refine Or.inl ⟨s, rfl, h.next (x := kidsOf s.d 0 p j) (a := 0) hp hf hl hj ?_ h.owns .refl ?_
      (counted_refl _ _) ?_ ?_⟩
    · rw [update_eq_self]
    · rw [hkid]; exact Grown.refl
    · rw [hkid]; rfl
    · rw [hleaf]; trivial

/-- What `recursive_alloc_blocks` does on a tree of height `k`, given as `run`. -/
def Grows (t : BlkType) (k : ℕ)
    (run : ℕ → ℕ → ℕ → Bool → Dev → PmfsInode → Option (Dev × PmfsInode × Option Errno)) : Prop :=
  ∀ {d : Dev} {pi : PmfsInode} {R : Multiset ℕ} {block f l : ℕ} (newNode : Bool), block ≠ 0 →
    pi.iBlkType = t → l < 512 ^ k → Owns d (blocks t (tree d k block) + R) →
    ∃ d' pi' o added, run block f l newNode d pi = some (d', pi', o) ∧
      Owns d' (blocks t (tree d' k block) + R) ∧ Frame R d d' ∧
      Grown 512 k f l (tree d k block) (tree d' k block) ∧
      (o = none → Filled 512 k f l (tree d' k block)) ∧
      Counted pi pi' added o ∧
      leaves 512 (tree d' k block) = leaves 512 (tree d k block) + added ∧
      (o ≠ none → pi'.eofblocks = true ∨ d.failures < d'.failures)

/-- The children after a change of the child in slot `j`, from a device `d1` where it may be new. -/
theorem Inv.kids_after (h : Inv t k p f l d0 pi0 R j s) (hp : p ≠ 0) (hj : j < 512) {d1 : Dev}
    (hslots : ∀ i, i ≠ j → d1.node (pmfsGetBlocknr p) i = s.d.node (pmfsGetBlocknr p) i)
    (hframe : ∀ y ∈ others t (pmfsGetBlocknr p) (kidsOf s.d k p) R j, y ≠ pmfsGetBlocknr p →
      ∀ i, d1.node y i = s.d.node y i)
    (hown : Owns d' (blocks t (tree d' k (d1.node (pmfsGetBlocknr p) j)) +
      others t (pmfsGetBlocknr p) (kidsOf s.d k p) R j))
    (hfr : Frame (others t (pmfsGetBlocknr p) (kidsOf s.d k p) R j) d1 d') :
    kidsOf d' k p = update (kidsOf s.d k p) j (tree d' k (d1.node (pmfsGetBlocknr p) j)) ∧
      Owns d' (blocks t (tree d' (k + 1) p) + R) := by
  have hpage : ∀ i, d'.node (pmfsGetBlocknr p) i = d1.node (pmfsGetBlocknr p) i :=
    hfr.node _ (page_mem_others t _ _ R j)
  rw [← hpage j] at hown ⊢
  exact kids_update hp h.owns hj hown (fun i hi => (hpage i).trans (hslots i hi))
    (fun y hy hne i => (hfr.node y hy i).trans (hframe y hy hne i))

/-- The child in slot `j` is filled, in a device `d` where it may be new. -/
theorem Inv.fill
    {rec : ℕ → ℕ → ℕ → Bool → Dev → PmfsInode → Option (Dev × PmfsInode × Option Errno)}
    (hrec : Grows t k rec) (ht : s.pi.iBlkType = t) (h : Inv t k p f l d0 pi0 R j s) (hp : p ≠ 0)
    (hf : f / 512 ^ k ≤ j) (hl : j ≤ l / 512 ^ k) (hj : j < 512) {s1 : AllocLoop}
    (hpi : s1.pi = s.pi) (hslot : s1.d.node (pmfsGetBlocknr p) j ≠ 0)
    (hown : Owns s1.d (blocks t (tree s1.d k (s1.d.node (pmfsGetBlocknr p) j)) +
      others t (pmfsGetBlocknr p) (kidsOf s.d k p) R j))
    (hslots : ∀ i, i ≠ j → s1.d.node (pmfsGetBlocknr p) i = s.d.node (pmfsGetBlocknr p) i)
    (hframe : ∀ y ∈ others t (pmfsGetBlocknr p) (kidsOf s.d k p) R j, y ≠ pmfsGetBlocknr p →
      ∀ i, s1.d.node y i = s.d.node y i)
    (hR : Frame R s.d s1.d)
    (hgrown : ∀ {x}, Grown 512 k (lo 512 k f j) (hi 512 k l j)
      (tree s1.d k (s1.d.node (pmfsGetBlocknr p) j)) x →
      Grown 512 k (lo 512 k f j) (hi 512 k l j) (kidsOf d0 k p j) x)
    (hleaves : leaves 512 (tree s1.d k (s1.d.node (pmfsGetBlocknr p) j)) =
      leaves 512 (kidsOf d0 k p j)) :
    Steps t k p f l d0 pi0 R j ((rec (s1.d.node (pmfsGetBlocknr p) j) (lo 512 k f j) (hi 512 k l j)
      s1.newNode s1.d s1.pi).map fun r => ({ s1 with d := r.1, pi := r.2.1 }, r.2.2)) := by
  obtain ⟨d', pi', o, a, hrun, hown', hfr, hgr, hfill, hcount, hlv, hfails⟩ := hrec s1.newNode hslot
    (hpi ▸ ht) (hi_lt (by norm_num) j) hown
  have hRframe : Frame R s.d d' := hR.trans (hfr.mono (le_others t _ _ R j))
  obtain ⟨h1, h2⟩ := h.kids_after hp hj hslots hframe hown' hfr
  rw [hpi] at hcount
  rw [hrun]
  cases o with
  | none =>
    exact Or.inl ⟨_, rfl, h.next hp hf hl hj h1 h2 hRframe (hgrown hgr) hcount (hleaves ▸ hlv)
      (hfill rfl)⟩
  | some e =>
    exact Or.inr ⟨_, e, rfl, h.grow hp hf hl hj h1 h2 hRframe (hgrown hgr) hcount (hleaves ▸ hlv)
      fun ho => (hfails ho).imp_right fun hlt => hR.failures.trans_lt hlt⟩

theorem Inv.child (h : Inv t k p f l d0 pi0 R j s) (hp : p ≠ 0) (hj : j < 512) :
    Owns s.d (blocks t (tree s.d k (s.d.node (pmfsGetBlocknr p) j)) +
      others t (pmfsGetBlocknr p) (kidsOf s.d k p) R j) := by
  have hkids : Kids t s.d k (pmfsGetBlocknr p) (kidsOf s.d k p) R :=
    ⟨by rw [← blocks_node, ← tree_kids hp]; exact h.owns, fun i hi _ => (kidsOf_eq i hi).symm⟩
  rw [← kidsOf_eq j hj]
  exact hkids.split hj

theorem tree_fresh (hb : 0 < b) (h : ∀ i, d.node b i = 0) (k : ℕ) :
    tree d (k + 1) (pmfsGetBlockOff b) = node (pmfsGetBlockOff b) fun _ => empty := by
  rw [tree_node (blockOff_ne_zero hb)]
  congr 1
  funext i
  rw [blocknr_off, h, tree_null, ite_self]

/-- A new metadata block in slot `j`, apart from the rest. -/
theorem Inv.new_child (h : Inv t (k + 1) p f l d0 pi0 R j s) (hp : p ≠ 0) (hj : j < 512)
    (hslot : s.d.node (pmfsGetBlocknr p) j = 0) (hr : s.d.newBlock .b4K true = (.ok b, d'))
    (last : ℕ) :
    let d1 := (({ s with d := d' } : AllocLoop).store (pmfsGetBlocknr p) j last b).d
    d1.node (pmfsGetBlocknr p) j = pmfsGetBlockOff b ∧ pmfsGetBlockOff b ≠ 0 ∧
      tree d1 (k + 1) (pmfsGetBlockOff b) = node (pmfsGetBlockOff b) (fun _ => empty) ∧
      Owns d1 (blocks t (tree d1 (k + 1) (d1.node (pmfsGetBlocknr p) j)) +
        others t (pmfsGetBlocknr p) (kidsOf s.d (k + 1) p) R j) ∧
      (∀ i, i ≠ j → d1.node (pmfsGetBlocknr p) i = s.d.node (pmfsGetBlocknr p) i) ∧
      (∀ y ∈ others t (pmfsGetBlocknr p) (kidsOf s.d (k + 1) p) R j, y ≠ pmfsGetBlocknr p →
        ∀ i, d1.node y i = s.d.node y i) ∧ Frame R s.d d1 := by
  intro d1
  have hnew := newBlock_owns h.owns hr
  obtain ⟨h1, h2, h3, h4, h5, h6⟩ :=
    store_owns (s := { s with d := d' }) last hp h.owns hj hslot hnew
  have hfresh : ∀ i, d'.node b i = 0 := hnew.zeroed rfl b (by simp [pmfsGetNumblocks])
  have hnode : tree d1 (k + 1) (pmfsGetBlockOff b) = node (pmfsGetBlockOff b) fun _ => empty :=
    tree_fresh hnew.pos (fun i => (h5 i).trans (hfresh i)) k
  refine ⟨h2, blockOff_ne_zero hnew.pos, hnode, ?_, h3, h4, h6⟩
  rw [h2, hnode, blocks_node, blocknr_off, kidBlocks_eq_zero fun _ _ => rfl, add_zero,
    ← runBlocks_b4K]
  exact h1

theorem meta_step
    {rec : ℕ → ℕ → ℕ → Bool → Dev → PmfsInode → Option (Dev × PmfsInode × Option Errno)}
    (hrec : Grows t (k + 1) rec) (ht : pi0.iBlkType = t) (h : Inv t (k + 1) p f l d0 pi0 R j s)
    (hp : p ≠ 0) (hf : f / 512 ^ (k + 1) ≤ j) (hl : j ≤ l / 512 ^ (k + 1)) (hj : j < 512) :
    Steps t (k + 1) p f l d0 pi0 R j
      (allocMetaBody rec ((k + 1) * 9) f l (pmfsGetBlocknr p) j s) := by
  have hkid := h.same j le_rfl
  have hty : s.pi.iBlkType = t := by
    obtain ⟨added, hc, -⟩ := h.count
    rw [hc.blkType, ht]
  unfold allocMetaBody
  rw [firstBlk_eq_lo, lastBlk_eq_hi]
  by_cases hslot : s.d.node (pmfsGetBlocknr p) j = 0
  · rw [if_pos hslot]
    have hempty : kidsOf d0 (k + 1) p j = empty := by rw [← hkid, kidsOf_eq j hj, hslot, tree_null]
    rcases hr : s.d.newBlock .b4K true with ⟨r, d'⟩
    cases r with
    | error e =>
      obtain ⟨-, rfl⟩ := newBlock_error_eq hr
      refine Or.inr ⟨_, e, rfl, h.grow (x := kidsOf s.d (k + 1) p j) (a := 0) hp hf hl hj ?_ ?_
        frame_noteNoMeta ?_ (counted_refl _ _) ?_ fun _ => Or.inr ?_⟩
      · rw [update_eq_self]; rfl
      · exact h.owns.congr rfl
      · rw [hkid]; exact Grown.refl
      · rw [hkid]; rfl
      · rw [failures_noteNoMeta]; exact Nat.lt_succ_self _
    | ok b =>
      obtain ⟨h2, hb, hnode, h1, h3, h4, h6⟩ := h.new_child hp hj hslot hr (l >>> ((k + 1) * 9))
      refine h.fill hrec hty hp hf hl hj rfl (h2 ▸ hb) h1 h3 h4 h6 (fun hg => ?_) ?_
      · simp only [h2] at hg
        rw [hnode] at hg
        rw [hempty]
        exact hg.of_fresh hb
      · simp only [h2]
        rw [hnode, hempty]
        simp [leaves]
  · rw [if_neg hslot]
    rw [kidsOf_eq j hj] at hkid
    refine h.fill hrec hty hp hf hl hj rfl hslot (h.child hp hj) (fun _ _ =>
      rfl) (fun _ _ _ _ => rfl) .refl (fun hg => ?_) ?_
    · rwa [hkid] at hg
    · rw [hkid]

theorem inv_start (newNode : Bool) (hown : Owns d0 (blocks t (tree d0 (k + 1) p) + R)) :
    Inv t k p f l d0 pi0 R (f / 512 ^ k) ⟨d0, pi0, newNode, false⟩ := by
  refine ⟨⟨hown, .refl, fun i => ?_, ⟨0, counted_refl _ _, rfl⟩, absurd rfl⟩, fun i _ => rfl,
    fun i h1 h2 _ => ?_⟩
  · split_ifs
    · exact Grown.refl
    · rfl
  · omega

theorem GrownFrom.tree_grown {d : Dev} {pi : PmfsInode} (h : GrownFrom t k p f l d0 pi0 R o d pi)
    (hp : p ≠ 0) : Grown 512 (k + 1) f l (tree d0 (k + 1) p) (tree d (k + 1) p) := by
  rw [tree_kids hp, tree_kids hp]
  exact grown_node hp h.grown

/-- The loop, when its body takes one step after the other. -/
theorem loop_grows {body : ℕ → AllocLoop → Option (AllocLoop × Option Errno)} (newNode : Bool)
    (hp : p ≠ 0) (hl : l / 512 ^ k < 512) (hown : Owns d0 (blocks t (tree d0 (k + 1) p) + R))
    (hstep : ∀ j s, f / 512 ^ k ≤ j → j ≤ l / 512 ^ k → j < 512 → Inv t k p f l d0 pi0 R j s →
      Steps t k p f l d0 pi0 R j (body j s)) :
    ∃ d' pi' o added, (forLoop body (f / 512 ^ k) (l / 512 ^ k + 1 - f / 512 ^ k)
        ⟨d0, pi0, newNode, false⟩).map (fun r => (r.1.d, r.1.pi, r.2)) = some (d', pi', o) ∧
      Owns d' (blocks t (tree d' (k + 1) p) + R) ∧ Frame R d0 d' ∧
      Grown 512 (k + 1) f l (tree d0 (k + 1) p) (tree d' (k + 1) p) ∧
      (o = none → Filled 512 (k + 1) f l (tree d' (k + 1) p)) ∧
      Counted pi0 pi' added o ∧
      leaves 512 (tree d' (k + 1) p) = leaves 512 (tree d0 (k + 1) p) + added ∧
      (o ≠ none → pi'.eofblocks = true ∨ d0.failures < d'.failures) := by
  rcases forLoop_rule (n := l / 512 ^ k + 1 - f / 512 ^ k)
    (fun j s h1 h2 hj => hstep j s h1 (by omega) (by omega) hj) (inv_start newNode hown) with
    ⟨s, hloop, hinv⟩ | ⟨s, e, hloop, hinv⟩
  · obtain ⟨added, hcount, hsum⟩ := hinv.count
    refine ⟨_, _, none, added, by rw [hloop]; rfl, hinv.owns, hinv.frame, hinv.tree_grown hp,
      fun _ => ?_, hcount, hsum, hinv.fails⟩
    rw [tree_kids hp]
    exact fun i h1 h2 => hinv.filled i h1 (by omega) h2
  · obtain ⟨added, hcount, hsum⟩ := hinv.count
    exact ⟨_, _, some e, added, by rw [hloop]; rfl, hinv.owns, hinv.frame, hinv.tree_grown hp,
      fun h => by simp at h, hcount, hsum, hinv.fails⟩

end Loop

/-- **Allocation grows.** `recursive_alloc_blocks` adds blocks to the tree in the range, and gives
every index of the range its block unless it fails. -/
theorem alloc_grows (t : BlkType) (zero : Bool) (k : ℕ) :
    Grows t (k + 1) (recursiveAllocBlocks zero (k + 1)) := by
  induction k with
  | zero =>
    intro d pi R block f l newNode hb ht hl hown
    rw [zero_add, pow_one] at hl
    rw [recursiveAllocBlocks, if_neg hb]
    simp only [shiftRight_9, if_true]
    exact loop_grows newNode hb (by simpa using hl) hown fun j s h1 h2 h3 hinv =>
      leaf_step ht hinv hb h1 h2 h3
  | succ k ih =>
    intro d pi R block f l newNode hb ht hl hown
    rw [pow_succ'] at hl
    rw [recursiveAllocBlocks, if_neg hb]
    simp only [shiftRight_9, if_neg (Nat.succ_ne_zero k)]
    exact loop_grows newNode hb (Nat.div_lt_of_lt_mul (Nat.mul_comm _ _ ▸ hl)) hown
      fun j s h1 h2 h3 hinv => meta_step ih ht hinv hb h1 h2 h3

end Pmfs.Tree.Grow
