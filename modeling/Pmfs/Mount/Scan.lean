import Pmfs.Mount.Build
import Pmfs.Mount.SaveLoad

/-! # The full scan

`reachable` is the multiset of the blocks that the inode table leads to. The walk notes each of them
in the bitmap of its block size: `crawl_marks` for the tree of an inode, `tableCrawl_marks` for the
inode table, both by `Marked`, which splits the blocks by the size they were noted with. Since no
block is referenced twice, the three bitmaps do not overlap, and `build_map` puts them into the list
one after the other (`full_scan_rebuilds`). -/

namespace Pmfs.Mount.Scan

open Lib.Intervals Lib.Loop Lib.Radix Block.Model Block.Spec Block.Balance Function
open Tree.Model Tree.Own Tree.Inode Mount.Model Mount.Build
open RTree

variable {d : Dev} {n : ℕ} {t : BlkType} {bm : ScanBitmap} {M : BlkType → Multiset ℕ}

/-! ### The bitmaps -/

/-- The bitmap for the blocks of a type. -/
def get (bm : ScanBitmap) : BlkType → Bitmap
  | .b4K => bm.bitmap4k
  | .b2M => bm.bitmap2M
  | .b1G => bm.bitmap1G

/-- The bitmaps of a device of `n` blocks hold the blocks `M t` of each type `t`. -/
structure Marked (n : ℕ) (bm : ScanBitmap) (M : BlkType → Multiset ℕ) : Prop where
  size : ∀ t, n / pmfsGetNumblocks t < (get bm t).size * 8
  mem : ∀ t x, x ∈ M t ↔ (get bm t).bit (x / pmfsGetNumblocks t) = true

theorem shiftRight_blkType (block : ℕ) (t : BlkType) :
    block >>> blkTypeToShift t = pmfsGetBlocknr block / pmfsGetNumblocks t := by
  rw [pmfsGetBlocknr, numblocks_eq_two_pow, ← Nat.shiftRight_eq_div_pow, ← Nat.shiftRight_add]
  cases t <;> rfl

/-- The bit of a block is set in the bitmap of its type. -/
theorem set_get {block : ℕ} (h : block >>> blkTypeToShift t < (get bm t).size * 8) :
    ∃ bm', bm.set t block = some bm' ∧ ∀ t', get bm' t' = if t' = t then
      { get bm t with bit := update (get bm t).bit (block >>> blkTypeToShift t) true }
      else get bm t' := by
  cases t <;>
  · simp only [get, blkTypeToShift] at h ⊢
    simp only [ScanBitmap.set, Bitmap.setBit, if_pos h, Option.map_some]
    refine ⟨_, rfl, fun t' => ?_⟩
    cases t' <;> rfl

theorem div_eq_iff_mem_run {a x : ℕ} (ha : pmfsGetNumblocks t ∣ a) :
    x / pmfsGetNumblocks t = a / pmfsGetNumblocks t ↔ x ∈ runBlocks t a := by
  have hu := numblocks_pos t
  obtain ⟨k, rfl⟩ := ha
  rw [Nat.mul_div_cancel_left _ hu, mem_runBlocks, Nat.div_eq_iff hu, Nat.mul_comm k]
  generalize pmfsGetNumblocks t * k = a
  omega

theorem Marked.set {block : ℕ} (h : Marked n bm M) (hlt : pmfsGetBlocknr block < n)
    (ha : pmfsGetNumblocks t ∣ pmfsGetBlocknr block) :
    ∃ bm', bm.set t block = some bm' ∧
      Marked n bm' (M + Pi.single t (runBlocks t (pmfsGetBlocknr block))) := by
  have hidx : block >>> blkTypeToShift t < (get bm t).size * 8 := by
    rw [shiftRight_blkType]
    exact (Nat.div_le_div_right hlt.le).trans_lt (h.size t)
  obtain ⟨bm', hset, hget⟩ := set_get hidx
  refine ⟨bm', hset, fun t' => ?_, fun t' x => ?_⟩
  · rw [hget t']
    split_ifs with heq
    · exact heq ▸ h.size t
    · exact h.size t'
  · rw [hget t', Pi.add_apply, Multiset.mem_add, h.mem t' x]
    by_cases heq : t' = t
    · subst heq
      rw [if_pos rfl, Pi.single_eq_same, ← div_eq_iff_mem_run ha, shiftRight_blkType]
      simp only [update_apply]
      split_ifs with hx
      · simp [hx]
      · simp [hx]
    · rw [if_neg heq, Pi.single_eq_of_ne heq]
      simp

/-! ### The tree of an inode -/

/-- The blocks of a tree lie on the device, the data blocks on multiples of their size. -/
structure TreeOk (n : ℕ) (t : BlkType) (T : RTree) : Prop where
  node : ∀ q, HasNode 512 q T → pmfsGetBlocknr q < n
  leaf : ∀ p, HasLeaf 512 p T → pmfsGetBlocknr p < n ∧ pmfsGetNumblocks t ∣ pmfsGetBlocknr p

/-- The blocks of a tree by the size they are noted with: its metadata blocks are 4K blocks. -/
def share (t : BlkType) : RTree → BlkType → Multiset ℕ :=
  weight 512 (fun q => Pi.single .b4K {pmfsGetBlocknr q})
    (fun p => Pi.single t (runBlocks t (pmfsGetBlocknr p)))

theorem TreeOk.child {T : RTree} {c : ℕ → RTree} {p i : ℕ} (h : TreeOk n t T)
    (hT : T = RTree.node p c)
    (hi : i < 512) : TreeOk n t (c i) := by
  subst hT
  exact ⟨fun q hq => h.node q (Or.inr ⟨i, hi, hq⟩), fun p hp => h.leaf p ⟨i, hi, hp⟩⟩

/-- The loop of a crawl over the slots of a metadata block adds up what its turns add. -/
theorem crawlSlots {σ : Type} (node : ℕ → ℕ) (rec : ℕ → σ → Option σ)
    {I : (BlkType → Multiset ℕ) → σ → Prop} {f : ℕ → BlkType → Multiset ℕ}
    (hzero : ∀ i < 512, node i = 0 → f i = 0)
    (hrec : ∀ i < 512, node i ≠ 0 → ∀ M s, I M s → ∃ s', rec (node i) s = some s' ∧ I (M + f i) s')
    {s : σ} (h : I M s) :
    ∃ s', forLoop (crawlSlot node rec) 0 512 s = some (s', none) ∧
      I (M + ∑ i ∈ Finset.range 512, f i) s' := by
  have hstart : I (M + ∑ i ∈ Finset.range 0, f i) s := by simpa using h
  refine forLoop_total (I := fun j s => I (M + ∑ i ∈ Finset.range j, f i) s)
    (fun j s _ hj hs => ?_) hstart
  unfold crawlSlot
  rw [Finset.sum_range_succ, ← add_assoc]
  by_cases hv : node j = 0
  · rw [if_pos hv, hzero j (by omega) hv, add_zero]
    exact ⟨s, rfl, hs⟩
  · obtain ⟨s', hr, hs'⟩ := hrec j (by omega) hv _ s hs
    rw [if_neg hv, hr]
    exact ⟨s', rfl, hs'⟩

/-- **The walk over the tree of an inode** notes its blocks. -/
theorem crawl_marks : ∀ {h block : ℕ} {bm : ScanBitmap} {M : BlkType → Multiset ℕ}, block ≠ 0 →
    TreeOk n t (tree d h block) → Marked n bm M →
      ∃ bm', pmfsInodeCrawlRecursive d.node t h block bm = some bm' ∧
        Marked n bm' (M + share t (tree d h block))
  | 0, block, bm, M, hb, hT, hM => by
    rw [tree_leaf hb] at hT ⊢
    obtain ⟨h1, h2⟩ := hT.leaf block rfl
    exact hM.set h1 h2
  | h + 1, block, bm, M, hb, hT, hM => by
    have hkids := tree_kids (d := d) (h := h) hb
    have hlt : pmfsGetBlocknr block < n := hT.node block (by rw [hkids]; exact Or.inl rfl)
    obtain ⟨bm1, hset, hM1⟩ := hM.set (t := .b4K) hlt (one_dvd _)
    rw [runBlocks_b4K] at hM1
    obtain ⟨bm2, hloop, hM2⟩ := crawlSlots (d.node (pmfsGetBlocknr block))
      (pmfsInodeCrawlRecursive d.node t h) (I := fun M bm => Marked n bm M)
      (f := fun i => share t (kidsOf d h block i))
      (fun i hi hv => by rw [kidsOf_eq i hi, hv, tree_null]; rfl)
      (fun i hi hv M s hs => by
        have hchild := hT.child hkids hi
        rw [kidsOf_eq i hi] at hchild ⊢
        exact crawl_marks hv hchild hs) hM1
    refine ⟨bm2, ?_, ?_⟩
    · rw [pmfsInodeCrawlRecursive, hset]
      simp only [hloop, Option.map_some]
    · rw [hkids]
      rwa [add_assoc] at hM2

/-! ### The inode table -/

/-- What an inode contributes. -/
def inodeShare (d : Dev) (pi : PmfsInode) : BlkType → Multiset ℕ :=
  if emptyInode pi then 0 else share pi.iBlkType (treeOf d pi)

/-- What the tree of the inode table contributes, with the inodes in its blocks. -/
def tableShare (d : Dev) (inode : ℕ → PmfsInode) (t : BlkType) : RTree → BlkType → Multiset ℕ :=
  weight 512 (fun q => Pi.single .b4K {pmfsGetBlocknr q})
    (fun p => Pi.single t (runBlocks t (pmfsGetBlocknr p)) +
      ∑ i ∈ Finset.range (inodesPerBlock t), inodeShare d (inode (p + 128 * i)))

/-- The inodes in the block of the table at `p`. -/
def InodesOk (n : ℕ) (d : Dev) (inode : ℕ → PmfsInode) (t : BlkType) (p : ℕ) : Prop :=
  ∀ i < inodesPerBlock t, emptyInode (inode (p + 128 * i)) = false →
    TreeOk n (inode (p + 128 * i)).iBlkType (treeOf d (inode (p + 128 * i)))

theorem inodeCrawl_marks {pi : PmfsInode} (hT : TreeOk n pi.iBlkType (treeOf d pi))
    (hM : Marked n bm M) :
    ∃ bm', pmfsInodeCrawl d.node bm pi = some bm' ∧
      Marked n bm' (M + share pi.iBlkType (treeOf d pi)) := by
  unfold pmfsInodeCrawl
  by_cases hroot : pi.root = 0
  · refine ⟨bm, if_pos hroot, ?_⟩
    rw [treeOf_of_root hroot]
    exact (add_zero M).symm ▸ hM
  · rw [if_neg hroot]
    exact crawl_marks hroot hT hM

theorem inodes_mark {inode : ℕ → PmfsInode} {p : ℕ} {s : Crawl} (hin : InodesOk n d inode t p)
    (hM : Marked n s.bm M) :
    ∃ s', forLoop (crawlInode d.node inode p) 0 (inodesPerBlock t) s = some (s', none) ∧
      Marked n s'.bm (M + ∑ i ∈ Finset.range (inodesPerBlock t),
      inodeShare d (inode (p + 128 * i))) := by
  have hstart : Marked n s.bm (M + ∑ i ∈ Finset.range 0, inodeShare d (inode (p + 128 * i))) := by
    simpa using hM
  have hrange : Finset.range (inodesPerBlock t) = Finset.range (0 + inodesPerBlock t) := by
    rw [Nat.zero_add]
  rw [hrange]
  refine forLoop_total (I := fun j (s : Crawl) => Marked n s.bm
    (M + ∑ i ∈ Finset.range j, inodeShare d (inode (p + 128 * i)))) (fun j s _ hj hs => ?_) hstart
  unfold crawlInode
  rw [Finset.sum_range_succ, ← add_assoc, inodeShare]
  dsimp only
  cases he : emptyInode (inode (p + 128 * j)) with
  | true =>
    rw [if_pos rfl, if_pos rfl, add_zero]
    exact ⟨s, rfl, hs⟩
  | false =>
    obtain ⟨bm', hrun, hM'⟩ := inodeCrawl_marks (hin j (by omega) he) hs
    rw [if_neg (by simp), if_neg (by simp), hrun]
    exact ⟨_, rfl, hM'⟩

/-- **The walk over the inode table** notes its blocks and those of the inodes in it. -/
theorem tableCrawl_marks {inode : ℕ → PmfsInode} (ht : t ≠ .b1G) : ∀ {h block : ℕ} {s : Crawl}
    {M : BlkType → Multiset ℕ}, block ≠ 0 → TreeOk n t (tree d h block) →
      (∀ p, HasLeaf 512 p (tree d h block) → InodesOk n d inode t p) → Marked n s.bm M →
      ∃ s', pmfsInodeTableCrawlRecursive d.node inode t h block s = some s' ∧
        Marked n s'.bm (M + tableShare d inode t (tree d h block))
  | 0, block, s, M, hb, hT, hin, hM => by
    rw [tree_leaf hb] at hT hin ⊢
    obtain ⟨h1, h2⟩ := hT.leaf block rfl
    obtain ⟨bm1, hset, hM1⟩ := hM.set h1 h2
    have htype : (if t = .b2M then BlkType.b2M else .b4K) = t := by
      cases t <;> first | rfl | exact absurd rfl ht
    obtain ⟨s', hloop, hM'⟩ := inodes_mark (s := ⟨bm1, s.sInodesCount +
      UInt32.ofNat (inodesPerBlock t), s.sInodesUsedCount⟩) (hin block rfl) hM1
    refine ⟨s', ?_, ?_⟩
    · rw [pmfsInodeTableCrawlRecursive, htype, hset]
      simp only [hloop, Option.map_some]
    · rwa [add_assoc] at hM'
  | h + 1, block, s, M, hb, hT, hin, hM => by
    have hkids := tree_kids (d := d) (h := h) hb
    have hlt : pmfsGetBlocknr block < n := hT.node block (by rw [hkids]; exact Or.inl rfl)
    obtain ⟨bm1, hset, hM1⟩ := hM.set (t := .b4K) hlt (one_dvd _)
    rw [runBlocks_b4K] at hM1
    obtain ⟨s2, hloop, hM2⟩ := crawlSlots (d.node (pmfsGetBlocknr block))
      (pmfsInodeTableCrawlRecursive d.node inode t h) (I := fun M s => Marked n s.bm M)
      (f := fun i => tableShare d inode t (kidsOf d h block i)) (s := { s with bm := bm1 })
      (fun i hi hv => by rw [kidsOf_eq i hi, hv, tree_null]; rfl)
      (fun i hi hv M s hs => by
        have hchild := hT.child hkids hi
        have hleaf : ∀ p, HasLeaf 512 p (kidsOf d h block i) → InodesOk n d inode t p :=
          fun p hp => hin p (by rw [hkids]; exact ⟨i, hi, hp⟩)
        rw [kidsOf_eq i hi] at hchild hleaf ⊢
        exact tableCrawl_marks ht hv hchild hleaf hs) hM1
    refine ⟨s2, ?_, ?_⟩
    · rw [pmfsInodeTableCrawlRecursive, hset]
      simp only [hloop, Option.map_some]
    · rw [hkids]
      rwa [add_assoc] at hM2

/-! ### What is reachable -/

/-- The blocks of an inode that is not empty. -/
def liveBlocks (d : Dev) (pi : PmfsInode) : Multiset ℕ :=
  if emptyInode pi then 0 else inodeBlocks d pi

/-- The blocks reachable from the inode table: its metadata blocks, and with each of its blocks the
blocks of the inodes in it. -/
def reachable (d : Dev) (table : PmfsInode) (inode : ℕ → PmfsInode) : Multiset ℕ :=
  pages 512 (fun q => {pmfsGetBlocknr q})
    (fun p => runBlocks table.iBlkType (pmfsGetBlocknr p) +
      ∑ i ∈ Finset.range (inodesPerBlock table.iBlkType), liveBlocks d (inode (p + 128 * i)))
    (treeOf d table)

/-- The blocks of all sizes together. -/
def sumTypes : (BlkType → Multiset ℕ) →+ Multiset ℕ where
  toFun M := M .b4K + M .b2M + M .b1G
  map_zero' := rfl
  map_add' M N := by
    simp only [Pi.add_apply]
    abel

theorem sumTypes_apply (M : BlkType → Multiset ℕ) : sumTypes M = M .b4K + M .b2M + M .b1G := rfl

theorem sumTypes_single (t : BlkType) (X : Multiset ℕ) : sumTypes (Pi.single t X) = X := by
  cases t <;> simp [sumTypes_apply]

theorem sumTypes_share (t : BlkType) (T : RTree) : sumTypes (share t T) = blocks t T := by
  unfold share blocks
  rw [map_weight, pages_eq_weight]
  simp only [sumTypes_single]

theorem sumTypes_inodeShare (pi : PmfsInode) : sumTypes (inodeShare d pi) = liveBlocks d pi := by
  unfold inodeShare liveBlocks inodeBlocks
  split_ifs
  · exact map_zero _
  · exact sumTypes_share _ _

theorem sumTypes_tableShare (table : PmfsInode) (inode : ℕ → PmfsInode) :
    sumTypes (tableShare d inode table.iBlkType (treeOf d table)) = reachable d table inode := by
  unfold tableShare reachable
  rw [map_weight, pages_eq_weight]
  simp only [map_add, map_sum, sumTypes_single, sumTypes_inodeShare]

/-- An image built by the allocation of the kernel: the inode table has blocks of 4K or 2M, no block
is referenced twice or lies in the blocks up to the end of the journal, all lie on the device, and
the data blocks lie on multiples of their size. -/
structure Image (sb : Sb) (initsize journalEnd : ℕ) : Prop where
  in0 : sb.FindsIn0
  root : sb.table.root ≠ 0
  blkType : sb.table.iBlkType ≠ .b1G
  reserved : 0 < journalEnd ∧ numUsedBlock journalEnd ≤ initsize >>> 12
  nodup : (Multiset.range (numUsedBlock journalEnd) + reachable sb.d sb.table sb.inode).Nodup
  inside : ∀ x ∈ reachable sb.d sb.table sb.inode, x < initsize >>> 12
  table : ∀ p, HasLeaf 512 p (treeOf sb.d sb.table) →
    pmfsGetNumblocks sb.table.iBlkType ∣ pmfsGetBlocknr p
  inode : ∀ p, HasLeaf 512 p (treeOf sb.d sb.table) → ∀ i < inodesPerBlock sb.table.iBlkType,
    emptyInode (sb.inode (p + 128 * i)) = false →
    ∀ q, HasLeaf 512 q (treeOf sb.d (sb.inode (p + 128 * i))) →
      pmfsGetNumblocks (sb.inode (p + 128 * i)).iBlkType ∣ pmfsGetBlocknr q

variable {sb : Sb} {initsize journalEnd : ℕ}

theorem mem_runBlocks_self (t : BlkType) (a : ℕ) : a ∈ runBlocks t a := by
  have := numblocks_pos t
  exact mem_runBlocks.mpr ⟨le_rfl, by omega⟩

theorem Image.tableOk (h : Image sb initsize journalEnd) :
    TreeOk (initsize >>> 12) sb.table.iBlkType (treeOf sb.d sb.table) := by
  refine ⟨fun q hq => h.inside _ ?_, fun p hp => ⟨h.inside _ ?_, h.table p hp⟩⟩
  · exact Multiset.mem_of_le (wn_le_pages hq) (Multiset.mem_singleton_self _)
  · exact Multiset.mem_of_le (wl_le_pages_of_hasLeaf hp)
      (Multiset.mem_add.mpr (Or.inl (mem_runBlocks_self _ _)))

theorem Image.inodesOk (h : Image sb initsize journalEnd) {p : ℕ}
    (hp : HasLeaf 512 p (treeOf sb.d sb.table)) :
    InodesOk (initsize >>> 12) sb.d sb.inode sb.table.iBlkType p := by
  intro i hi he
  have hle : inodeBlocks sb.d (sb.inode (p + 128 * i)) ≤ reachable sb.d sb.table sb.inode := by
    refine le_trans ?_ (wl_le_pages_of_hasLeaf hp)
    refine le_trans ?_ (Multiset.le_add_left _ _)
    refine le_trans (le_of_eq ?_) (Finset.single_le_sum
      (fun _ _ => Multiset.zero_le _)
      (Finset.mem_range.mpr hi))
    rw [liveBlocks, he, if_neg (by simp)]
  unfold inodeBlocks blocks at hle
  refine ⟨fun q hq => h.inside _ ?_, fun q hq => ⟨h.inside _ ?_, h.inode p hp i hi he q hq⟩⟩
  · exact Multiset.mem_of_le ((wn_le_pages hq).trans hle) (Multiset.mem_singleton_self _)
  · exact Multiset.mem_of_le ((wl_le_pages_of_hasLeaf hq).trans hle) (mem_runBlocks_self _ _)

theorem marked_new (initsize : ℕ) : Marked (initsize >>> 12) (newBitmaps initsize) 0 := by
  refine ⟨fun t => ?_, fun t x => ?_⟩
  · cases t <;> simp only [get, newBitmaps, Bitmap.zero, pmfsGetNumblocks,
      Nat.shiftRight_eq_div_pow] <;>
      omega
  · cases t <;> simp [get, newBitmaps, Bitmap.zero]

/-! ### The list -/

theorem Marked.ones_eq (h : Marked n bm M) (t : BlkType) :
    ones (get bm t).bit (pmfsGetNumblocks t) = {x | x ∈ M t} := by
  ext x
  exact (h.mem t x).symm

theorem build_type {sum : UInt64} {S : Set ℕ} (failed : List (ℕ × ℕ)) (scale : ℕ)
    (hM : Marked n bm M) (h : MapOk sum n S d) (t : BlkType)
    (hscale : pmfsGetNumblocks t = 2 ^ scale) (hlt : ∀ x ∈ M t, x < n) (hfree : ∀ x ∈ M t, x ∉ S) :
    ∃ d', __pmfsBuildBlocknodeMap (get bm t) scale d failed = some (d', failed) ∧
      MapOk sum n (S ∪ {x | x ∈ M t}) d' := by
  have hu := numblocks_pos t
  have hsize := hM.size t
  have hpos : 0 < (get bm t).size := by
    generalize n / pmfsGetNumblocks t = q at hsize
    omega
  have hin : ∀ k x, (get bm t).bit k = true → x / pmfsGetNumblocks t = k → x < n :=
    fun k x hk hx => hlt x ((hM.mem t x).mpr (hx ▸ hk))
  rw [← hM.ones_eq t, hscale]
  refine build_map h (Set.disjoint_left.mpr fun x hx hx' => ?_) (fun k hk =>
    ?_) (fun k hk => ?_) hpos
  · rw [← hscale, hM.ones_eq t] at hx'
    exact hfree x hx' hx
  · have hlast := hin k (k * pmfsGetNumblocks t + (pmfsGetNumblocks t - 1)) hk (by
      rw [Nat.mul_comm, Nat.mul_add_div hu, Nat.div_eq_of_lt (by omega), Nat.add_zero])
    rw [← hscale, Nat.add_mul]
    omega
  · have hfirst := hin k (k * pmfsGetNumblocks t) hk (Nat.mul_div_cancel _ hu)
    exact ((Nat.le_div_iff_mul_le hu).mpr hfirst.le).trans_lt hsize

theorem build_all {sum : UInt64} {S : Set ℕ} (hM : Marked n bm M) (h : MapOk sum n S d)
    (hnodup : (sumTypes M).Nodup) (hlt : ∀ x ∈ sumTypes M, x < n)
    (hfree : ∀ x ∈ sumTypes M, x ∉ S) : ∃ d', pmfsBuildBlocknodeMap d bm = some (d', []) ∧
    MapOk sum n (S ∪ {x | x ∈ sumTypes M}) d' := by
  have hmem : ∀ x, x ∈ sumTypes M ↔ (x ∈ M .b4K ∨ x ∈ M .b2M) ∨ x ∈ M .b1G := by
    intro x
    simp [sumTypes_apply]
  obtain ⟨h12, -, hdis3⟩ := Multiset.nodup_add.mp hnodup
  obtain ⟨-, -, hdis2⟩ := Multiset.nodup_add.mp h12
  obtain ⟨d1, hb1, h₁⟩ := build_type [] 0 hM h .b4K rfl
    (fun x hx => hlt x ((hmem x).mpr (Or.inl (Or.inl hx))))
    (fun x hx => hfree x ((hmem x).mpr (Or.inl (Or.inl hx))))
  have hfree2 : ∀ x ∈ M .b2M, x ∉ S ∪ {x | x ∈ M .b4K} := by
    rintro x hx (hx' | hx')
    · exact hfree x ((hmem x).mpr (Or.inl (Or.inr hx))) hx'
    · exact Multiset.disjoint_left.mp hdis2 hx' hx
  obtain ⟨d2, hb2, h₂⟩ := build_type [] 9 hM h₁ .b2M rfl
    (fun x hx => hlt x ((hmem x).mpr (Or.inl (Or.inr hx)))) hfree2
  have hfree3 : ∀ x ∈ M .b1G, x ∉ S ∪ {x | x ∈ M .b4K} ∪ {x | x ∈ M .b2M} := by
    rintro x hx ((hx' | hx') | hx')
    · exact hfree x ((hmem x).mpr (Or.inr hx)) hx'
    · exact Multiset.disjoint_left.mp hdis3 (Multiset.mem_add.mpr (Or.inl hx')) hx
    · exact Multiset.disjoint_left.mp hdis3 (Multiset.mem_add.mpr (Or.inr hx')) hx
  obtain ⟨d3, hb3, h3⟩ := build_type [] 18 hM h₂ .b1G rfl
    (fun x hx => hlt x ((hmem x).mpr (Or.inr hx))) hfree3
  refine ⟨d3, ?_, ?_⟩
  · unfold pmfsBuildBlocknodeMap
    simp only [get] at hb1 hb2 hb3
    simp only [hb1, hb2, hb3]
  · convert h3 using 1
    ext x
    simp only [Set.mem_union, Set.mem_ofPred_eq, hmem x]
    tauto

/-! ### The whole scan -/

/-- The image with the inode `PMFS_BLOCKNODE_IN0` cleared. -/
def cleared (sb : Sb) (transOk : Bool) : Sb := sb.setPi (pmfsClearDatablockInode sb.pi transOk)

theorem cleared_inode (hroot : sb.pi.root = 0) (transOk : Bool) (off : ℕ) :
    (cleared sb transOk).inode off = sb.inode off ∨
      ((cleared sb transOk).inode off).root = 0 ∧ (sb.inode off).root = 0 := by
  by_cases hoff : off = sb.in0
  · subst hoff
    refine Or.inr ⟨?_, hroot⟩
    simp only [cleared, Sb.setPi, update_self, pmfsClearDatablockInode]
    split_ifs
    · rfl
    · exact hroot
  · left
    simp only [cleared, Sb.setPi, update_of_ne hoff]

theorem liveBlocks_of_root {pi : PmfsInode} (h : pi.root = 0) : liveBlocks d pi = 0 := by
  rw [liveBlocks, inodeBlocks_of_root h, ite_self]

theorem reachable_cleared (hroot : sb.pi.root = 0) (transOk : Bool) :
    reachable sb.d sb.table (cleared sb transOk).inode = reachable sb.d sb.table sb.inode := by
  have hlive : ∀ off, liveBlocks sb.d ((cleared sb transOk).inode off) =
      liveBlocks sb.d (sb.inode off) := by
    intro off
    rcases cleared_inode hroot transOk off with h | ⟨h, h'⟩
    · rw [h]
    · rw [liveBlocks_of_root h, liveBlocks_of_root h']
  unfold reachable
  simp only [hlive]

/-- Clearing the inode, which has no blocks, leaves the image as it was. -/
theorem Image.cleared (h : Image sb initsize journalEnd) (hroot : sb.pi.root = 0) (transOk : Bool) :
    Image (cleared sb transOk) initsize journalEnd := by
  have hreach := reachable_cleared hroot transOk
  refine ⟨h.in0, h.root, h.blkType, h.reserved, ?_, ?_, h.table, fun p hp i hi he q hq => ?_⟩
  · change (_ + reachable sb.d sb.table _).Nodup
    rw [hreach]
    exact h.nodup
  · change ∀ x ∈ reachable sb.d sb.table _, _
    rw [hreach]
    exact h.inside
  · rcases cleared_inode hroot transOk (p + 128 * i) with heq | ⟨heq, -⟩
    · rw [heq] at he hq ⊢
      exact h.inode p hp i hi he q hq
    · rw [treeOf_of_root heq] at hq
      exact hq.elim

theorem mapOk_init {l : List Bool} {ba : Balloc} (h : Image sb initsize journalEnd)
    (hs : ∀ b ∈ l, b = true) (hba : ba = Balloc.fresh (initsize >>> 12)) :
    MapOk (UInt64.ofNat (initsize >>> 12) - 25 * 1024 * 1024) (initsize >>> 12)
      (run 0 (numUsedBlock journalEnd))
      { sb.d with ba := pmfsInitBlockmap ba journalEnd, slab := l } := by
  subst hba
  have hwf := wf_init h.reserved.1 h.reserved.2
  refine ⟨hwf, inUse_init h.reserved.1, ⟨(balanced_of_wf hwf).nonempty, ?_⟩, rfl, hs⟩
  have hused : 0 < numUsedBlock journalEnd := by
    have := h.reserved.1
    simp only [numUsedBlock, Nat.shiftRight_eq_div_pow]
    omega
  have htotal : total [(⟨0, numUsedBlock journalEnd - 1⟩ : PmfsBlocknode)] =
    numUsedBlock journalEnd := by
    simp only [total_cons, total_nil]
    omega
  simp only [pmfsInitBlockmap, Balloc.fresh, Nat.zero_add, htotal]
  grind

theorem total_eq_card {l : List PmfsBlocknode} {X : Multiset ℕ} (hc : Canon 0 n l) (hX : X.Nodup)
    (hmem : ∀ x, x ∈ covered l ↔ x ∈ X) : total l = X.card := by
  classical
  have hset : covered l = (X.toFinset : Set ℕ) := by
    ext x
    simp [hmem x]
  rw [← hc.ncard_covered, hset, Set.ncard_coe_finset, Multiset.toFinset_card_of_nodup hX]

/-- **The full scan rebuilds the list.** When nothing is saved, the mount of an image built by the
kernel inserts every run, and ends with the canonical list of the reserved blocks and of all blocks
reachable from the inode table. The count of free blocks is that of the device less the blocks of
the list, and less the 100GB that `pmfs_init_blockmap` takes off. -/
theorem full_scan_rebuilds {transOk : Bool} (himage : Image sb initsize journalEnd)
    (hroot : sb.pi.root = 0) (hnil : sb.d.ba.blockInuseHead = [])
    (hcount : sb.d.ba.numBlocknodeAllocated = 0) (hslab : SlabOk sb.d) :
    ∃ sb', pmfsSetupBlocknodeMap sb initsize journalEnd transOk true = some (sb', []) ∧
      Canon 0 (initsize >>> 12) sb'.d.ba.blockInuseHead ∧
      (∀ x, x ∈ covered sb'.d.ba.blockInuseHead ↔
        x < numUsedBlock journalEnd ∨ x ∈ reachable sb.d sb.table sb.inode) ∧
      sb'.d.ba.numFreeBlocks = UInt64.ofNat (initsize >>> 12) -
        UInt64.ofNat (Multiset.range (numUsedBlock journalEnd) +
        reachable sb.d sb.table sb.inode).card - 25 * 1024 * 1024 := by
  have hcl := himage.cleared hroot transOk
  have htable : TreeOk (initsize >>> 12) sb.table.iBlkType
    (tree sb.d sb.table.height sb.table.root) :=
    hcl.tableOk
  have hinodes : ∀ p, HasLeaf 512 p (tree sb.d sb.table.height sb.table.root) →
      InodesOk (initsize >>> 12) sb.d (cleared sb transOk).inode sb.table.iBlkType p :=
    fun p hp => hcl.inodesOk hp
  obtain ⟨s, hcrawl, hM⟩ := tableCrawl_marks
    (s := ⟨newBitmaps initsize, sb.counters.sInodesCount, sb.counters.sInodesUsedCount⟩)
    himage.blkType himage.root htable hinodes (marked_new initsize)
  rw [zero_add] at hM
  have hsum : sumTypes (tableShare sb.d (cleared sb transOk).inode sb.table.iBlkType
      (tree sb.d sb.table.height sb.table.root)) = reachable sb.d sb.table sb.inode :=
    (sumTypes_tableShare _ _).trans (reachable_cleared hroot transOk)
  obtain ⟨-, hnodup, hdis⟩ := Multiset.nodup_add.mp himage.nodup
  have hfresh : (⟨0, initsize >>> 12, sb.d.ba.blockInuseHead, UInt64.ofNat (initsize >>> 12),
      sb.d.ba.numBlocknodeAllocated⟩ : Balloc) = Balloc.fresh (initsize >>> 12) := by
    rw [hnil, hcount]
    rfl
  obtain ⟨d', hbuild, hd'⟩ := build_all hM (mapOk_init himage hslab.tail hfresh)
    (by rw [hsum]; exact hnodup) (by rw [hsum]; exact himage.inside)
    (by
      rw [hsum]
      exact fun x hx hx' =>
        Multiset.disjoint_left.mp hdis (Multiset.mem_range.mpr (by simpa using hx')) hx)
  rw [hsum] at hd'
  have hcov : ∀ x, x ∈ covered d'.ba.blockInuseHead ↔
      x < numUsedBlock journalEnd ∨ x ∈ reachable sb.d sb.table sb.inode := by
    intro x
    rw [show covered d'.ba.blockInuseHead = inUse d'.ba from rfl, hd'.inUse]
    simp
  have hcanon := hd'.wf.canon
  rw [hd'.blockEnd] at hcanon
  refine ⟨{ cleared sb transOk with
    d := d'
    counters := ⟨s.sInodesCount, s.sInodesCount - (s.sInodesUsedCount + 2),
      s.sInodesUsedCount, 3⟩ },
    ?_, hcanon, hcov, ?_⟩
  · have hskip : ∀ d1, pmfsCanSkipFullScan { sb with d := d1 } transOk =
      some ({ sb with d := d1 }, false) :=
      fun d1 => if_pos hroot
    have hhead : sb.d.slab.headD true = true := hslab.headD
    unfold pmfsSetupBlocknodeMap
    simp only [hskip, if_true]
    unfold fullScan
    dsimp only [Sb.setPi, Sb.pi]
    dsimp only [cleared, Sb.setPi, Sb.pi] at hcrawl
    rw [hcrawl]
    dsimp only
    rw [hhead, if_pos rfl, hbuild]
    rfl
  · have hb := hd'.balanced.total
    rw [total_eq_card hcanon himage.nodup fun x => by rw [hcov x]; simp] at hb
    grind

/-- A device of 16 blocks with two reserved ones: the inode table is block 3, and its inode 384 is a
file whose block is block 5. -/
def oneFile : Sb where
  d := ⟨⟨0, 0, [], 0, 0⟩, [], fun _ _ => 0, [], false⟩
  table := { zeroInode with root := 12288 }
  inode := fun off => if off = 12672 then
    { zeroInode with root := 20480, iMode := 33188, iLinksCount := 1 } else zeroInode
  in0 := 12544
  counters := ⟨0, 0, 0, 0⟩
  super := ⟨0, 0, 0, 0, 0, 0⟩

theorem image_oneFile : Image oneFile 65536 8192 where
  in0 := by decide
  root := by decide
  blkType := by decide
  reserved := by decide
  nodup := by decide +kernel
  inside := by decide +kernel
  table := by
    rintro p -
    exact one_dvd _
  inode := by
    rintro p - i - - q -
    have htype : (oneFile.inode (p + 128 * i)).iBlkType = .b4K := by
      simp only [oneFile]
      split_ifs <;> rfl
    rw [htype]
    exact one_dvd _

theorem full_scan_rebuilds_one_file :
    ∃ sb', pmfsSetupBlocknodeMap oneFile 65536 8192 true true = some (sb', []) ∧
      Canon 0 16 sb'.d.ba.blockInuseHead ∧ 5 ∈ covered sb'.d.ba.blockInuseHead := by
  obtain ⟨sb', hrun, hcanon, hcov, -⟩ : ∃ sb', pmfsSetupBlocknodeMap oneFile 65536 8192 true true =
      some (sb', []) ∧ _ :=
    full_scan_rebuilds image_oneFile rfl rfl rfl (by simp [SlabOk, oneFile])
  exact ⟨sb', hrun, hcanon, (hcov 5).mpr (Or.inr (by decide +kernel))⟩

/-- The four blocks of the list are not all that the count of free blocks is reduced by. -/
theorem scan_takes_more : Image oneFile 65536 8192 ∧
    (pmfsSetupBlocknodeMap oneFile 65536 8192 true true).map
      (fun r => (r.1.d.ba.blockInuseHead, r.1.d.ba.numFreeBlocks, r.2)) =
      some ([⟨0, 1⟩, ⟨3, 3⟩, ⟨5, 5⟩], 12 - 25 * 1024 * 1024, []) :=
  ⟨image_oneFile, by decide +kernel⟩

end Pmfs.Mount.Scan
