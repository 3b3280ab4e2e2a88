import Pmfs.Block.Spec
import Pmfs.Lib.Radix
import Pmfs.Tree.Model
import Mathlib.Tactic.Abel

/-! # Who owns which block

`Owns d M` says that the blocks in use are exactly those of the multiset `M` and that `M` counts
none twice. The tree code is described by what it does to the part of `M` it was given, the rest `R`
staying owned and its metadata blocks unwritten: `newBlock_owns` and `freeBlockHint_owns` for the
allocator. `Kids` is the state of the children of one metadata block while a loop works on them, and
`Kids.update` its step. -/

namespace Pmfs.Tree.Own

open Lib.Intervals Lib.Radix Block.Model Block.Spec Tree.Model Function
open RTree

/-- The slots of the block at a byte offset. -/
def slotOf (d : Dev) (p i : ℕ) : ℕ := d.node (pmfsGetBlocknr p) i

/-- The tree of the given height under a pointer. -/
def tree (d : Dev) (height root : ℕ) : RTree := ofHeap 512 (slotOf d) height root

/-- The 4K blocks of the block of type `t` at `a`. -/
def runBlocks (t : BlkType) (a : ℕ) : Multiset ℕ := (Finset.Ico a (a + pmfsGetNumblocks t)).val

/-- The 4K blocks of a tree with data blocks of type `t`. -/
def blocks (t : BlkType) (T : RTree) : Multiset ℕ :=
  pages 512 (fun p => {pmfsGetBlocknr p}) (fun p => runBlocks t (pmfsGetBlocknr p)) T

/-- The 4K blocks of the children of a metadata block. -/
def kidBlocks (t : BlkType) (c : ℕ → RTree) : Multiset ℕ := ∑ i ∈ Finset.range 512, blocks t (c i)

/-- The blocks in use are those of `M`, each once. -/
structure Owns (d : Dev) (M : Multiset ℕ) : Prop where
  wf : Wf d.ba
  nodup : M.Nodup
  mem : ∀ x, x ∈ M ↔ x ∈ inUse d.ba

/-- From `d` to `d'`, the metadata blocks of `R` are not written and the device stays the same. -/
structure Frame (R : Multiset ℕ) (d d' : Dev) : Prop where
  node : ∀ x ∈ R, ∀ i, d'.node x i = d.node x i
  blockEnd : d'.ba.blockEnd = d.ba.blockEnd
  mounting : d'.mounting = d.mounting
  failures : d.failures ≤ d'.failures

/-- No coming allocation of a blocknode fails. -/
def SlabOk (d : Dev) : Prop := ∀ b ∈ d.slab, b = true

variable {d d' d'' : Dev} {M R R' : Multiset ℕ} {t : BlkType} {a b h block i page : ℕ} {T : RTree}

@[simp] theorem blocknr_off (b : ℕ) : pmfsGetBlocknr (pmfsGetBlockOff b) = b := by
  simp [pmfsGetBlocknr, pmfsGetBlockOff, Nat.shiftLeft_shiftRight]

theorem blockOff_ne_zero (hb : 0 < b) : pmfsGetBlockOff b ≠ 0 := by
  simp only [pmfsGetBlockOff, Nat.shiftLeft_eq]
  positivity

@[simp] theorem mem_runBlocks {x : ℕ} : x ∈ runBlocks t a ↔ a ≤ x ∧ x < a + pmfsGetNumblocks t := by
  simp [runBlocks]

theorem runBlocks_b4K (a : ℕ) : runBlocks .b4K a = {a} := by
  simp [runBlocks, pmfsGetNumblocks]

theorem nodup_runBlocks (t : BlkType) (a : ℕ) : (runBlocks t a).Nodup := Finset.nodup _

@[simp] theorem blocks_empty : blocks t empty = 0 := rfl

@[simp] theorem blocks_leaf (p : ℕ) : blocks t (leaf p) = runBlocks t (pmfsGetBlocknr p) := rfl

theorem blocks_node (p : ℕ) (c : ℕ → RTree) :
    blocks t (node p c) = {pmfsGetBlocknr p} + kidBlocks t c := rfl

theorem kidBlocks_eq_zero {c : ℕ → RTree} (h : ∀ i < 512, c i = empty) : kidBlocks t c = 0 :=
  Finset.sum_eq_zero fun i hi => by rw [h i (Finset.mem_range.mp hi), blocks_empty]

attribute [irreducible] blocks kidBlocks

@[simp] theorem tree_null (h : ℕ) : tree d h 0 = empty := ofHeap_null

theorem tree_node (hp : block ≠ 0) : tree d (h + 1) block = node block fun i =>
    if i < 512 then tree d h (d.node (pmfsGetBlocknr block) i) else empty := ofHeap_node hp

/-- The children of the block at `p`. -/
def kidsOf (d : Dev) (k p i : ℕ) : RTree :=
  if i < 512 then tree d k (d.node (pmfsGetBlocknr p) i) else empty

theorem kidsOf_eq {k p : ℕ} : ∀ i < 512, kidsOf d k p i = tree d k (d.node (pmfsGetBlocknr p) i) :=
  fun _ hi => if_pos hi

theorem tree_kids (hp : block ≠ 0) : tree d (h + 1) block = node block (kidsOf d h block) :=
  tree_node hp

theorem tree_leaf (hp : block ≠ 0) : tree d 0 block = leaf block := ofHeap_leaf hp

theorem tree_eq_empty_iff : tree d h block = empty ↔ block = 0 := ofHeap_eq_empty_iff

theorem uniform_tree : Uniform 512 h (tree d h block) := uniform_ofHeap

/-- A tree stays what it is when its own metadata blocks are not written. -/
theorem tree_congr (hd : ∀ x ∈ blocks t (tree d h block), ∀ i, d'.node x i = d.node x i) :
    tree d' h block = tree d h block := by
  refine ofHeap_congr fun q i hq => hd _ ?_ i
  unfold blocks
  exact Multiset.singleton_le.mp (wn_le_pages hq)

/-- A tree stays what it is when none of its metadata blocks is written. -/
theorem tree_congr_node (hd : ∀ q, HasNode 512 q (tree d h block) →
    ∀ i, d'.node (pmfsGetBlocknr q) i = d.node (pmfsGetBlocknr q) i) :
    tree d' h block = tree d h block :=
  ofHeap_congr fun q i hq => hd q hq i

/-- The page of the data block at the index `n` of a tree. -/
def dataPageOf (h n : ℕ) (T : RTree) : ℕ := pmfsGetBlocknr (find 512 h T n)

/-- A data block is none of the metadata blocks of its tree. -/
theorem node_page_ne {n q : ℕ} (hnodup : (blocks t (tree d h block)).Nodup) (hn : n < 512 ^ h)
    (hfind : find 512 h (tree d h block) n ≠ 0) (hq : HasNode 512 q (tree d h block)) :
    pmfsGetBlocknr q ≠ dataPageOf h n (tree d h block) := by
  unfold blocks at hnodup
  have hle := Multiset.nodup_of_le (wn_add_wl_le_pages (by norm_num) uniform_tree hn hfind hq)
    hnodup
  intro heq
  have hdis := (Multiset.nodup_add.mp hle).2.2
  refine Multiset.disjoint_left.mp hdis (Multiset.mem_singleton_self _) (mem_runBlocks.mpr ?_)
  have := numblocks_pos t
  unfold dataPageOf at heq
  omega

/-- Different data blocks of a tree have different pages. -/
theorem dataPageOf_ne {m n : ℕ} (hnodup : (blocks t (tree d h block)).Nodup) (hm : m < 512 ^ h)
    (hn : n < 512 ^ h) (hmn : m ≠ n) (hfm : find 512 h (tree d h block) m ≠ 0)
    (hfn : find 512 h (tree d h block) n ≠ 0) :
    dataPageOf h m (tree d h block) ≠ dataPageOf h n (tree d h block) := by
  unfold blocks at hnodup
  have hle := Multiset.nodup_of_le (wl_add_wl_le_pages (by norm_num) uniform_tree hm hn hmn hfm hfn)
    hnodup
  intro heq
  have hdis := (Multiset.nodup_add.mp hle).2.2
  have := numblocks_pos t
  unfold dataPageOf at heq
  exact Multiset.disjoint_left.mp hdis (mem_runBlocks.mpr ⟨le_rfl, by omega⟩)
    (mem_runBlocks.mpr ⟨by omega, by omega⟩)

@[simp] theorem failures_setSlot {v : ℕ} : (d.setSlot page i v).failures = d.failures := by
  simp [Dev.setSlot, Dev.failures]

@[simp] theorem failures_logSlots {n : ℕ} : (d.logSlots page i n).failures = d.failures := by
  simp [Dev.logSlots, Dev.failures]

@[simp] theorem failures_noteNoMeta : d.noteNoMeta.failures = d.failures + 1 := by
  simp [Dev.noteNoMeta, Dev.failures]

theorem frame_noteNoMeta {l : List Bool} : Frame R d ({ d with slab := l } : Dev).noteNoMeta :=
  ⟨fun _ _ _ => rfl, rfl, rfl, by rw [failures_noteNoMeta]; exact Nat.le_succ _⟩

theorem Frame.refl : Frame R d d := ⟨fun _ _ _ => rfl, rfl, rfl, le_rfl⟩

theorem Frame.trans (h : Frame R d d') (h' : Frame R d' d'') : Frame R d d'' :=
  ⟨fun x hx i => (h'.node x hx i).trans (h.node x hx i), h'.blockEnd.trans h.blockEnd,
    h'.mounting.trans h.mounting, h.failures.trans h'.failures⟩

theorem Frame.mono (h : Frame R d d') (hR : R' ≤ R) : Frame R' d d' :=
  ⟨fun x hx => h.node x (Multiset.mem_of_le hR hx), h.blockEnd, h.mounting, h.failures⟩

theorem SlabOk.headD (hs : SlabOk d) : d.slab.headD true = true := by
  cases hl : d.slab with
  | nil => rfl
  | cons b l => exact hs b (by simp [hl])

theorem SlabOk.tail (hs : SlabOk d) : ∀ b ∈ d.slab.tail, b = true :=
  fun b hb => hs b (List.mem_of_mem_tail hb)

/-! ### The allocator -/

theorem Owns.zero_mem (h : Owns d M) : 0 ∈ M := (h.mem 0).mpr h.wf.zero_mem

theorem exists_owns (h : Wf d.ba) : ∃ M, Owns d M := by
  have hfin : (inUse d.ba).Finite := (Set.finite_Iio d.ba.blockEnd).subset fun x hx =>
    h.lt_blockEnd hx
  exact ⟨hfin.toFinset.val, h, hfin.toFinset.nodup, fun x => by simp⟩

theorem Owns.congr (h : Owns d M) (hba : d'.ba = d.ba) : Owns d' M :=
  ⟨hba ▸ h.wf, h.nodup, fun x => hba ▸ h.mem x⟩

/-- What a successful `pmfs_new_block` did. -/
structure NewOwned (d : Dev) (t : BlkType) (zero : Bool) (M : Multiset ℕ) (b : ℕ) (d' : Dev) :
    Prop where
  owns : Owns d' (runBlocks t b + M)
  pos : 0 < b
  frame : Frame M d d'
  zeroed : zero = true → ∀ x ∈ runBlocks t b, ∀ i, d'.node x i = 0

theorem newBlock_owns {zero : Bool} (hM : Owns d M) (h : d.newBlock t zero = (.ok b, d')) :
    NewOwned d t zero M b d' := by
  unfold Dev.newBlock at h
  rcases hr : pmfsNewBlock d.ba t (d.slab.headD true) with ⟨r, ba⟩
  rw [hr] at h
  cases r with
  | error e => simp at h
  | ok b' =>
    simp only [Prod.mk.injEq, Except.ok.injEq] at h
    obtain ⟨rfl, rfl⟩ := h
    have g := newBlock_ok hM.wf hr
    have hfree : ∀ x ∈ M, ¬ (b' ≤ x ∧ x < b' + pmfsGetNumblocks t) := fun x hx hx' =>
      Set.disjoint_left.mp g.free (show x ∈ blockRun b' t from hx') ((hM.mem x).mp hx)
    have hpos : 0 < b' := by
      by_contra hcon
      exact hfree 0 hM.zero_mem ⟨by omega, by have := numblocks_pos t; omega⟩
    refine ⟨⟨?_, ?_, fun x => ?_⟩, hpos, ⟨fun x hx i => ?_, ?_, ?_, ?_⟩, fun hz x hx i => ?_⟩
    · split_ifs <;> exact g.wf
    · refine Multiset.nodup_add.mpr ⟨nodup_runBlocks t b', hM.nodup, ?_⟩
      exact Multiset.disjoint_left.mpr fun hx hx' => hfree _ hx' (mem_runBlocks.mp hx)
    · have hin : x ∈ inUse ba ↔ x ∈ inUse d.ba ∨ (b' ≤ x ∧ x < b' + pmfsGetNumblocks t) := by
        rw [g.inUse]; rfl
      rw [Multiset.mem_add, mem_runBlocks, hM.mem x]
      split_ifs <;> rw [hin] <;> exact or_comm
    · split_ifs
      · simp only [Dev.zeroPages, if_neg (hfree x hx)]
      · rfl
    · split_ifs <;> exact g.blockEnd
    · split_ifs <;> rfl
    · split_ifs <;> exact le_rfl
    · simp only [hz, if_true, Dev.zeroPages, if_pos (mem_runBlocks.mp hx)]

/-- A new block is put into slot `i` of the block `page`. -/
theorem NewOwned.put {zero : Bool} {d1 : Dev} (hnew : NewOwned d t zero M b d1)
    (hpage : page ∈ M) (hR : R ≤ M) (hRp : page ∉ R)
    (hnode : ∀ y j, d'.node y j = if y = page ∧ j = i then pmfsGetBlockOff b else d1.node y j)
    (hba : d'.ba = d1.ba) (hm : d'.mounting = d1.mounting) (hf : d'.failures = d1.failures) :
    Owns d' (runBlocks t b + M) ∧ d'.node page i = pmfsGetBlockOff b ∧
      (∀ j, j ≠ i → d'.node page j = d.node page j) ∧
      (∀ y ∈ M, y ≠ page → ∀ j, d'.node y j = d.node y j) ∧
      (∀ j, d'.node b j = d1.node b j) ∧ Frame R d d' := by
  have hb : page ≠ b := by
    rintro rfl
    refine Multiset.disjoint_left.mp (Multiset.nodup_add.mp hnew.owns.nodup).2.2 ?_ hpage
    exact mem_runBlocks.mpr ⟨le_rfl, Nat.lt_add_of_pos_right (numblocks_pos t)⟩
  have hother : ∀ y ∈ M, y ≠ page → ∀ j, d'.node y j = d.node y j := by
    intro y hy hne j
    rw [hnode, if_neg fun h => hne h.1]
    exact hnew.frame.node y hy j
  refine ⟨hnew.owns.congr hba, by rw [hnode, if_pos ⟨rfl, rfl⟩], fun j hj => ?_,
    hother, fun j => ?_, ⟨fun y hy => hother y (Multiset.mem_of_le hR hy) fun h =>
    hRp (h ▸ hy), by rw [hba]; exact hnew.frame.blockEnd,
      hm.trans hnew.frame.mounting, hf ▸ hnew.frame.failures⟩⟩
  · rw [hnode, if_neg fun h => hj h.2]
    exact hnew.frame.node page hpage j
  · rw [hnode, if_neg fun h => hb h.1.symm]

/-- A failing `pmfs_new_block` only uses up the outcome of a blocknode allocation. -/
theorem newBlock_error_eq {zero : Bool} {e : Errno} (h : d.newBlock t zero = (.error e, d')) :
    e = .ENOSPC ∧ d' = { d with slab := d.slab.tail } := by
  unfold Dev.newBlock at h
  rcases hr : pmfsNewBlock d.ba t (d.slab.headD true) with ⟨r, ba⟩
  rw [hr] at h
  cases r with
  | ok b' => simp at h
  | error e' =>
    obtain ⟨rfl, rfl⟩ := newBlock_error hr
    simp only [Prod.mk.injEq, Except.error.injEq] at h
    exact ⟨h.1.symm, h.2.symm⟩

theorem freeBlockHint_owns {hint : Option ℕ} (hM : Owns d (runBlocks t a + M)) (h0 : 0 ∈ M)
    (hs : SlabOk d) (hh : HintOk d.ba hint) :
    ∃ d' hint', d.freeBlockHint a t hint = some (d', hint') ∧ Owns d' M ∧ SlabOk d' ∧
      HintOk d'.ba hint' ∧ d'.node = d.node ∧ Frame M d d' := by
  have hdis := (Multiset.nodup_add.mp hM.nodup).2.2
  have hpos : 0 < a := by
    by_contra hcon
    have := numblocks_pos t
    exact Multiset.disjoint_left.mp hdis (mem_runBlocks.mpr ⟨by omega, by omega⟩) h0
  have hin : blockRun a t ⊆ inUse d.ba := fun x hx =>
    (hM.mem x).mp (Multiset.mem_add.mpr (Or.inl (mem_runBlocks.mpr (mem_run.mp hx))))
  obtain ⟨ba, hint', hf, g, hh'⟩ := freeBlock_spec hM.wf hh hpos hin
  unfold Dev.freeBlockHint
  rw [hs.headD, hf]
  refine ⟨_, _, rfl, ⟨g.wf, (Multiset.nodup_add.mp hM.nodup).2.1, fun x => ?_⟩, hs.tail, hh', rfl,
    fun _ _ _ => rfl, g.blockEnd, rfl, le_rfl⟩
  have hx := hM.mem x
  rw [Multiset.mem_add] at hx
  simp only [g.inUse, Set.mem_sdiff, ← hx]
  constructor
  · exact fun h => ⟨Or.inr h, fun h' => Multiset.disjoint_left.mp hdis (mem_runBlocks.mpr h') h⟩
  · rintro ⟨h | h, h'⟩
    · exact absurd (mem_runBlocks.mp h) h'
    · exact h

theorem freeBlock_owns (hM : Owns d (runBlocks t a + M)) (h0 : 0 ∈ M) (hs : SlabOk d) :
    ∃ d', d.freeBlock a t = some d' ∧ Owns d' M ∧ SlabOk d' ∧ d'.node = d.node ∧ Frame M d d' := by
  obtain ⟨d', hint', hf, h1, h2, -, h3⟩ :=
    freeBlockHint_owns hM h0 hs (by simp [HintOk] : HintOk d.ba none)
  exact ⟨d', by rw [Dev.freeBlock, hf]; rfl, h1, h2, h3⟩

/-! ### The children of a metadata block -/

theorem ne_of_nodup_add {S : Multiset ℕ} (h : ({a} + S + R).Nodup) {x : ℕ} (hx : x ∈ R) :
    x ≠ a := by
  rintro rfl
  rw [add_assoc] at h
  exact Multiset.disjoint_left.mp (Multiset.nodup_add.mp h).2.2 (Multiset.mem_singleton_self x)
    (Multiset.mem_add.mpr (Or.inr hx))

/-- The children of the metadata block `page` are the trees `cur`. A child that is empty may still
have a pointer in its slot, to blocks that were freed. -/
structure Kids (t : BlkType) (d : Dev) (h page : ℕ) (cur : ℕ → RTree) (R : Multiset ℕ) : Prop where
  owns : Owns d ({page} + kidBlocks t cur + R)
  kid : ∀ i < 512, cur i ≠ empty → tree d h (d.node page i) = cur i

/-- What is owned apart from child `i`. -/
def others (t : BlkType) (page : ℕ) (cur : ℕ → RTree) (R : Multiset ℕ) (i : ℕ) : Multiset ℕ :=
  {page} + ∑ j ∈ (Finset.range 512).erase i, blocks t (cur j) + R

variable {cur : ℕ → RTree}

theorem page_mem_others (t : BlkType) (page : ℕ) (cur : ℕ → RTree) (R : Multiset ℕ) (i : ℕ) :
    page ∈ others t page cur R i := by
  simp [others]

theorem le_others (t : BlkType) (page : ℕ) (cur : ℕ → RTree) (R : Multiset ℕ) (i : ℕ) :
    R ≤ others t page cur R i := Multiset.le_add_left _ _

theorem blocks_le_others {j : ℕ} (hj : j < 512) (hij : j ≠ i) :
    blocks t (cur j) ≤ others t page cur R i := by
  have h1 : blocks t (cur j) ≤ ∑ k ∈ (Finset.range 512).erase i, blocks t (cur k) :=
    Finset.single_le_sum (f := fun k => blocks t (cur k)) (fun _ _ => Multiset.zero_le _)
      (Finset.mem_erase.mpr ⟨hij, Finset.mem_range.mpr hj⟩)
  unfold others
  generalize ∑ k ∈ (Finset.range 512).erase i, blocks t (cur k) = S at h1 ⊢
  exact le_trans h1 (le_trans (Multiset.le_add_left S {page}) (Multiset.le_add_right _ R))

theorem sum_blocks_update (hi : i < 512) (x : RTree) :
    {page} + kidBlocks t (update cur i x) + R = blocks t x + others t page cur R i := by
  have hsum : ∑ j ∈ (Finset.range 512).erase i, blocks t (update cur i x j) =
      ∑ j ∈ (Finset.range 512).erase i, blocks t (cur j) :=
    Finset.sum_congr rfl fun j hj => by rw [update_of_ne (Finset.ne_of_mem_erase hj)]
  rw [kidBlocks, sum_split (fun j => blocks t (update cur i x j)) hi, hsum,
    update_self, others]
  abel

attribute [irreducible] others

theorem Kids.split (hk : Kids t d h page cur R) (hi : i < 512) :
    Owns d (blocks t (cur i) + others t page cur R i) := by
  rw [← sum_blocks_update hi (cur i), update_eq_self]
  exact hk.owns

/-- Child `i` becomes the tree `x`; the other children keep their slots and their blocks. -/
theorem Kids.update (hk : Kids t d h page cur R) (hi : i < 512) {x : RTree}
    (hown : Owns d' (blocks t x + others t page cur R i))
    (hslots : ∀ j < 512, j ≠ i → d'.node page j = d.node page j)
    (hframe : ∀ j < 512, j ≠ i → ∀ y ∈ blocks t (cur j), ∀ k, d'.node y k = d.node y k)
    (hx : x ≠ empty → tree d' h (d'.node page i) = x) :
    Kids t d' h page (update cur i x) R := by
  refine ⟨by rw [sum_blocks_update hi]; exact hown, fun j hj hne => ?_⟩
  by_cases hij : j = i
  · subst hij
    rw [update_self] at hne ⊢
    exact hx hne
  · rw [update_of_ne hij] at hne ⊢
    have hkid := hk.kid j hj hne
    rw [hslots j hj hij, ← hkid]
    refine tree_congr (t := t) fun y hy k => hframe j hj hij y ?_ k
    rwa [hkid] at hy

end Pmfs.Tree.Own
