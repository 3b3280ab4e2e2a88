import Pmfs.Block.Balance
import Pmfs.Mount.Model
import Pmfs.Tree.Keeps

/-! # Unmount and mount again

`save_stores` says that the loop of `pmfs_save_blocknode_mappings` leaves the list in the data
blocks of the inode (`Stored`), `load_reads` that the loop of `pmfs_init_blockmap_from_inode` takes
a stored list back. The blocks for the list come out of the list itself: `alloc_map` says what that
does to it. Freeing them again leads back to the same set of used blocks, and so to the same list
(`round_trip`). -/

namespace Pmfs.Mount.SaveLoad

open Lib.Intervals Lib.Loop Lib.Radix Block.Model Block.Spec Block.Balance
open Tree.Model Tree.Own Tree.Inode Tree.Keeps Mount.Model

variable {d d0 d1 : Dev} {pi : PmfsInode} {R : Multiset ℕ} {num : ℕ}

/-- The page of block `n` of the inode. -/
def page (d : Dev) (pi : PmfsInode) (n : ℕ) : ℕ := dataPageOf pi.height n (treeOf d pi)

/-- The inode has its blocks `0` to `num - 1`, and no two of its blocks are one. -/
structure Mapped (d : Dev) (pi : PmfsInode) (num : ℕ) : Prop where
  nodup : (inodeBlocks d pi).Nodup
  root : pi.root ≠ 0 ∨ pi.height = 0
  lt : num ≤ 512 ^ pi.height
  find : ∀ n < num, find 512 pi.height (treeOf d pi) n ≠ 0

/-- The nodes of the list are in the data blocks of the inode, 256 in each. -/
def Stored (d : Dev) (pages : ℕ → ℕ) (l : List PmfsBlocknode) : Prop :=
  ∀ i (hi : i < l.length), d.node (pages (i / 256)) (2 * (i % 256)) = l[i].low ∧
    d.node (pages (i / 256)) (2 * (i % 256) + 1) = l[i].high

theorem and_255 (i : ℕ) : i &&& 0xFF = i % 256 := Nat.and_two_pow_sub_one_eq_mod i 8

theorem shiftRight_8 (i : ℕ) : i >>> 8 = i / 256 := Nat.shiftRight_eq_div_pow i 8

theorem Mapped.dataPage_eq (h : Mapped d pi num) {n : ℕ} (hn : n < num) :
    dataPage d pi n = some (page d pi n) := by
  have hne := h.find n hn
  have hlt := h.lt
  unfold dataPage __pmfsFindDataBlock
  rw [findLoop_eq h.root (by omega), ← treeOf]
  simp only [if_neg hne]
  rfl

theorem Mapped.page_ne (h : Mapped d pi num) {m n : ℕ} (hm : m < num) (hn : n < num) (hmn : m ≠ n) :
    page d pi m ≠ page d pi n := by
  have hlt := h.lt
  exact dataPageOf_ne h.nodup (by omega) (by omega) hmn (h.find m hm) (h.find n hn)

/-! ### Writing the list -/

/-- The state of the loop when the nodes `done` are written. -/
structure SaveInv (d0 : Dev) (pi : PmfsInode) (done : List PmfsBlocknode) (s : SaveLoop) :
    Prop where
  k : s.k = done.length
  j : s.j = done.length % 256
  p : s.j ≠ 0 → s.p = page d0 pi (done.length / 256)
  ba : s.d.ba = d0.ba
  tree : treeOf s.d pi = treeOf d0 pi
  stored : Stored s.d (page d0 pi) done

theorem treeOf_setWord (h : Mapped d pi num) {n : ℕ} (hn : n < num) (i v : ℕ) :
    treeOf (setWord d (page d pi n) i v) pi = treeOf d pi := by
  have hlt := h.lt
  refine tree_congr_node fun q hq j => ?_
  have hne := node_page_ne h.nodup (by omega) (h.find n hn) hq
  exact if_neg fun hcon => hne hcon.1

theorem Mapped.congr (h : Mapped d pi num) (htree : treeOf d1 pi = treeOf d pi) :
    Mapped d1 pi num := by
  refine ⟨?_, h.root, h.lt, ?_⟩
  · unfold inodeBlocks
    rw [htree]
    exact h.nodup
  · rw [htree]
    exact h.find

theorem page_congr (htree : treeOf d1 pi = treeOf d pi) : page d1 pi = page d pi := by
  funext n
  rw [page, page, htree]

theorem saveNode_step (h : Mapped d0 pi num) {done : List PmfsBlocknode} {s : SaveLoop}
    (hs : SaveInv d0 pi done s) (hlen : done.length < 256 * num) (i : PmfsBlocknode) :
    ∃ s', saveNode pi s i = some s' ∧ SaveInv d0 pi (done ++ [i]) s' := by
  have hm := h.congr hs.tree
  have hpage := page_congr hs.tree
  have hn : done.length / 256 < num := by omega
  have hp : (if s.j = 0 then dataPage s.d pi (s.k >>> 8) else some s.p) =
      some (page d0 pi (done.length / 256)) := by
    split_ifs with hj
    · rw [hs.k, shiftRight_8, hm.dataPage_eq hn, hpage]
    · rw [hs.p hj]
  unfold saveNode
  rw [hp, Option.map_some]
  generalize hq : page d0 pi (done.length / 256) = q
  refine ⟨_, rfl, ?_, ?_, ?_, hs.ba, ?_, ?_⟩
  · simp [hs.k]
  · simp only [hs.j, List.length_append, List.length_singleton]
    split_ifs <;> omega
  · intro hj
    simp only [hs.j] at hj ⊢
    rw [List.length_append, List.length_singleton, ← hq]
    congr 1
    split_ifs at hj <;> omega
  · -- the written page is a data block of the tree before either of the two words is written
    have h1 := treeOf_setWord hm hn (2 * s.j) i.low
    have h2 := treeOf_setWord (hm.congr h1) hn (2 * s.j + 1) i.high
    rw [page_congr h1, hpage, hq] at h2
    rw [hpage, hq] at h1
    rw [h2, h1, hs.tree]
  · intro m hlt
    rw [List.length_append, List.length_singleton] at hlt
    simp only [setWord, hs.j]
    by_cases hlast : m = done.length
    · subst hlast
      rw [hq]
      simp
    · have hm' : m < done.length := by omega
      obtain ⟨g1, g2⟩ := hs.stored m hm'
      have hother : page d0 pi (m / 256) = q → m % 256 ≠ done.length % 256 := by
        intro heq hmod
        have hdiv : m / 256 ≠ done.length / 256 := by omega
        exact h.page_ne (by omega) hn hdiv (heq.trans hq.symm)
      rw [List.getElem_append_left hm', if_neg (by omega), if_neg (by omega), if_neg (by omega),
        if_neg (by omega)]
      exact ⟨g1, g2⟩

theorem saveNodes_run (h : Mapped d0 pi num) : ∀ {l done : List PmfsBlocknode} {s : SaveLoop},
    SaveInv d0 pi done s → done.length + l.length ≤ 256 * num →
      ∃ s', l.foldlM (saveNode pi) s = some s' ∧ SaveInv d0 pi (done ++ l) s'
  | [], done, s, hs, _ => ⟨s, rfl, by rwa [List.append_nil]⟩
  | i :: l, done, s, hs, hlen => by
    rw [List.length_cons] at hlen
    obtain ⟨s1, hstep, hs1⟩ := saveNode_step h hs (by omega) i
    obtain ⟨s', hrun, hs'⟩ := saveNodes_run h hs1
      (by rw [List.length_append, List.length_singleton]; omega : _ + l.length ≤ _)
    refine ⟨s', ?_, by rwa [List.append_assoc, List.singleton_append] at hs'⟩
    rw [List.foldlM_cons, hstep]
    exact hrun

/-- **The list is stored.** -/
theorem save_stores (h : Mapped d0 pi num) {l : List PmfsBlocknode} (hlen : l.length ≤ 256 * num) :
    ∃ s, l.foldlM (saveNode pi) ⟨d0, 0, 0, 0⟩ = some s ∧ s.d.ba = d0.ba ∧
      treeOf s.d pi = treeOf d0 pi ∧ Stored s.d (page s.d pi) l := by
  have h0 : SaveInv d0 pi [] ⟨d0, 0, 0, 0⟩ :=
    ⟨rfl, rfl, fun hj => absurd rfl hj, rfl, rfl, fun i hi => absurd hi (Nat.not_lt_zero i)⟩
  obtain ⟨s, hrun, hs⟩ := saveNodes_run h h0 (by simpa using hlen)
  refine ⟨s, hrun, hs.ba, hs.tree, ?_⟩
  rw [page_congr hs.tree]
  exact hs.stored

/-! ### Reading the list -/

/-- The state of the loop when `i` nodes have been read. -/
structure LoadInv (d0 : Dev) (pi : PmfsInode) (l : List PmfsBlocknode) (i : ℕ) (s : LoadLoop) :
    Prop where
  ba : s.d.ba = { d0.ba with blockInuseHead := l.take i, numBlocknodeAllocated := i }
  node : s.d.node = d0.node
  p : i % 256 ≠ 0 → s.p = page d0 pi (i / 256)
  slab : SlabOk s.d

theorem loadNode_step (h : Mapped d0 pi num) {l : List PmfsBlocknode}
    (hst : Stored d0 (page d0 pi) l) (hlen : l.length ≤ 256 * num) {i : ℕ} {s : LoadLoop}
    (hi : i < l.length) (hs : LoadInv d0 pi l i s) : ∃ s', loadNode pi i s = some (s', none) ∧
    LoadInv d0 pi l (i + 1) s' := by
  have htree : treeOf s.d pi = treeOf d0 pi := tree_congr_node fun q _ j => by rw [hs.node]
  have hp : (if i % 256 = 0 then dataPage s.d pi (i / 256) else some s.p) =
      some (page d0 pi (i / 256)) := by
    split_ifs with hj
    · rw [(h.congr htree).dataPage_eq (by omega), page_congr htree]
    · rw [hs.p hj]
  obtain ⟨g1, g2⟩ := hst i hi
  unfold loadNode
  simp only [and_255, shiftRight_8, hp, hs.slab.headD, if_true, hs.node, g1, g2]
  refine ⟨_, rfl, ?_, hs.node, ?_, hs.slab.tail⟩
  · simp only [addTail, hs.ba, List.take_add_one, List.getElem?_eq_getElem hi, Option.toList_some]
  · intro hj
    change page d0 pi (i / 256) = page d0 pi ((i + 1) / 256)
    congr 1
    omega

/-- **A stored list is read back.** -/
theorem load_reads (h : Mapped d pi num) {l : List PmfsBlocknode} (hst : Stored d (page d pi) l)
    (hlen : l.length ≤ 256 * num) (hnil : d.ba.blockInuseHead = [])
    (hcount : d.ba.numBlocknodeAllocated = l.length) (hs : SlabOk d) :
    ∃ d', pmfsInitBlockmapFromInode d pi = some d' ∧ d'.ba = { d.ba with blockInuseHead := l } ∧
      d'.node = d.node ∧ SlabOk d' := by
  have h0 : LoadInv d pi l 0 ⟨{ d with ba := { d.ba with numBlocknodeAllocated := 0 } }, 0⟩ := by
    refine ⟨?_, rfl, fun hj => absurd rfl hj, hs⟩
    simp only [List.take_zero, hnil]
  obtain ⟨s, hrun, hs'⟩ := forLoop_total (n := l.length) (fun j s h1 h2 hj =>
    loadNode_step h hst hlen (by omega) hj) h0
  unfold pmfsInitBlockmapFromInode
  rw [hcount, hrun]
  refine ⟨s.d, rfl, ?_, hs'.node, hs'.slab⟩
  rw [hs'.ba, Nat.zero_add, List.take_length, ← hcount]

/-! ### The blocks of the list -/

/-- The inode `PMFS_BLOCKNODE_IN0` between a mount and the next unmount: it has no blocks. -/
structure Cleared (pi : PmfsInode) : Prop where
  root : pi.root = 0
  iBlocks : pi.iBlocks = 0

theorem cleared_clear (pi : PmfsInode) : Cleared (pmfsClearDatablockInode pi true) := ⟨rfl, rfl⟩

theorem pred64_eq {x : ℕ} (h0 : 0 < x) (hx : x ≤ 2 ^ 64) : pred64 x = x - 1 := by
  unfold pred64
  omega

theorem mapBlocks_eq {n : ℕ} (h0 : 0 < n) (hn : n < 2 ^ 52) : mapBlocks n = (n + 255) / 256 := by
  unfold mapBlocks
  rw [pred64_eq (by omega) (by omega), Nat.shiftRight_eq_div_pow]
  omega

/-- What the allocation of the blocks for the list did. -/
structure MapAlloc (R : Multiset ℕ) (num : ℕ) (d : Dev) (d' : Dev) (pi' : PmfsInode) : Prop where
  owns : Owns d' (inodeBlocks d' pi' + R)
  mapped : Mapped d' pi' num
  below : Below 512 pi'.height (num - 1) (treeOf d' pi')
  root : pi'.root ≠ 0
  blkType : pi'.iBlkType = .b4K
  iSize : pi'.iSize = num * 4096
  blockStart : d'.ba.blockStart = d.ba.blockStart
  blockEnd : d'.ba.blockEnd = d.ba.blockEnd
  count : d'.ba.numBlocknodeAllocated ≤ d.ba.numBlocknodeAllocated
  balanced : ∀ sum, Balanced sum d.ba → Balanced sum d'.ba

theorem alloc_map {pi' : PmfsInode} (hown : Owns d R) (hclear : Cleared pi) (hnum : 0 < num)
    (hlt : num < 2 ^ 52)
    (hrun : pmfsAllocateDatablockBlockInode d pi num = some (d1, pi', none)) :
    MapAlloc R num d d1 pi' := by
  unfold pmfsAllocateDatablockBlockInode at hrun
  set pi0 : PmfsInode := { pi with
    iMode := 0
    iLinksCount := 1
    iBlkType := .b4K
    iFlags := 0
    height := 0
    iDtime := 0
    iSize := (num <<< 12) % 2 ^ 64 } with hpi0
  have hroot0 : pi0.root = 0 := hclear.root
  have htree0 : treeOf d pi0 = .empty := treeOf_of_root hroot0
  have hown0 : Owns d (inodeBlocks d pi0 + R) := by
    rwa [inodeBlocks, htree0, blocks_empty, zero_add]
  have hcounts : Counts d pi0 := by
    refine ⟨?_, fun _ => rfl, Nat.zero_le _⟩
    rw [htree0, leaves, Nat.zero_mul]
    exact hclear.iBlocks
  have hlast : lastIndex pi0 0 num = num - 1 := by
    unfold lastIndex lastFileBlock pmfsInodeBlkShift
    rw [hpi0]
    simp only [blkTypeToShift, Nat.sub_self, Nat.shiftRight_zero]
    omega
  obtain ⟨d', pi'', o, hrun', ha, hend⟩ := alloc_spec 0 num false
    hown0 hcounts
  rw [hrun] at hrun'
  cases hrun'
  rw [hlast] at ha hend
  obtain ⟨hfill, hlt'⟩ := hend
  rw [Nat.zero_shiftRight] at hfill
  have hfind : ∀ n < num, find 512 pi'.height (treeOf d1 pi') n ≠ 0 := fun n hn =>
    hfill.find_ne_zero (by norm_num) uniform_tree (Nat.zero_le n) (by omega)
  have hroot : pi'.root ≠ 0 := by
    intro hcon
    have := hfind 0 hnum
    rw [treeOf_of_root hcon, find_empty] at this
    exact this rfl
  have hsize : pi'.iSize = num * 4096 := by
    rw [ha.same, hpi0, Nat.shiftLeft_eq]
    dsimp only
    omega
  refine ⟨ha.owns, ⟨(Multiset.nodup_add.mp ha.owns.nodup).1, Or.inl hroot, by omega, hfind⟩,
    ha.below le_rfl (by rw [htree0]; trivial), hroot, by
    rw [ha.same], hsize, ?_, ha.frame.blockEnd, ?_, ?_⟩
  · exact alloc_keeps (P := fun s => s.blockStart = d.ba.blockStart) (t := .b4K)
      (fun s t' ok _ hs => by rcases newBlock_cases s t' ok with ⟨-, h⟩ | ⟨l, c, low,
      -, h⟩ <;> rwa [h])
      rfl rfl hrun
  · exact alloc_keeps (P := fun s => s.numBlocknodeAllocated ≤ d.ba.numBlocknodeAllocated) (t :=
      .b4K) (fun s t' ok ht hs => by
        obtain rfl : t' = .b4K := ht.elim id id
        exact newBlock_4K_count.trans hs) rfl le_rfl hrun
  · exact fun sum hb => (alloc_keeps (P := fun s => Wf s ∧ Balanced sum s) (t := .b4K)
      (fun s t' ok _ hs => newBlock_balanced hs.1 hs.2) rfl ⟨hown.wf, hb⟩ hrun).2

/-! ### There and back -/

/-- A mount of the image that `sb` leaves on the device: the list in memory is empty, the allocator
has the same bounds, and there is memory for the nodes of the list. -/
structure Remounted (sb sb' : Sb) : Prop where
  node : sb'.d.node = sb.d.node
  pi : sb'.pi = sb.pi
  super : sb'.super = sb.super
  empty : sb'.d.ba.blockInuseHead = []
  blockStart : sb'.d.ba.blockStart = sb.d.ba.blockStart
  blockEnd : sb'.d.ba.blockEnd = sb.d.ba.blockEnd
  slab : SlabOk sb'.d

/-- The list of the allocator is determined by its set of used blocks. -/
theorem balloc_ext {s s' : Balloc} {sum : UInt64} (h : Wf s) (h' : Wf s') (hin : inUse s = inUse s')
    (hb : Balanced sum s) (hb' : Balanced sum s') (hstart : s.blockStart = s'.blockStart)
    (hend : s.blockEnd = s'.blockEnd) : s = s' := by
  have hlist : s.blockInuseHead = s'.blockInuseHead := h.canon.eq_of_covered_eq h'.canon hin
  have hcount : s.numBlocknodeAllocated = s'.numBlocknodeAllocated := by
    rw [h.count, h'.count, hlist]
  have hfree : s.numFreeBlocks = s'.numFreeBlocks := by
    have := hb.total.trans hb'.total.symm
    rw [hlist] at this
    exact (UInt64.add_left_inj _).mp this
  cases s
  cases s'
  simp_all

theorem inUse_eq (h : Owns d R) (h' : Owns d1 R) : inUse d.ba = inUse d1.ba := by
  ext x
  rw [← h.mem x, h'.mem x]

/-- Loading a stored list and freeing its blocks. -/
theorem skip_restores {sb : Sb} {pi : PmfsInode} (transOk : Bool) (hown : Owns d R)
    (ha : MapAlloc R num d d1 pi) (hnum : 0 < num) (hlt : num < 2 ^ 52)
    (hlen : d1.ba.blockInuseHead.length ≤ 256 * num) (hpi : sb.pi = pi)
    (htree : treeOf sb.d pi = treeOf d1 pi) (hst : Stored sb.d (page sb.d pi) d1.ba.blockInuseHead)
    (hsuper : sb.super.sNumBlocknodeAllocated = d1.ba.numBlocknodeAllocated ∧
      sb.super.sNumFreeBlocks = d1.ba.numFreeBlocks)
    (hnil : sb.d.ba.blockInuseHead = []) (hstart : sb.d.ba.blockStart = d1.ba.blockStart)
    (hend : sb.d.ba.blockEnd = d1.ba.blockEnd) (hs : SlabOk sb.d) :
    ∃ sb', pmfsCanSkipFullScan sb transOk = some (sb', true) ∧ sb'.d.ba = d.ba ∧
      sb'.counters = sb.super.inodes ∧ (transOk = true → Cleared sb'.pi) := by
  have hpos : 0 < 512 ^ pi.height := by positivity
  have hle := ha.mapped.lt
  set d2 : Dev := { sb.d with ba := { sb.d.ba with
    numBlocknodeAllocated := sb.super.sNumBlocknodeAllocated
    numFreeBlocks := sb.super.sNumFreeBlocks } } with hd2
  have htree2 : treeOf d2 pi = treeOf d1 pi := by
    rw [← htree]; exact tree_congr_node fun _ _ _ => rfl
  obtain ⟨d3, hload, hba, hnode, hs3⟩ := load_reads (ha.mapped.congr htree2)
    (by rw [page_congr (htree2.trans htree.symm)]; exact hst) hlen hnil
    (by rw [← ha.owns.wf.count]; exact hsuper.1) hs
  -- the allocator is the one of the unmount, with the blocks of the list in use
  have hba3 : d3.ba = d1.ba := by
    rw [hba]
    cases hb : d1.ba
    simp_all
  have htree3 : treeOf d3 pi = treeOf d1 pi :=
    (tree_congr_node fun _ _ _ => by rw [hnode]).trans htree2
  have hown3 : Owns d3 (blocks pi.iBlkType (tree d3 pi.height pi.root) + R) := by
    have := ha.owns
    rw [inodeBlocks, ← htree3] at this
    exact this.congr hba3
  have hlast : (pred64 pi.iSize) >>> pmfsInodeBlkShift pi = num - 1 := by
    unfold pmfsInodeBlkShift
    rw [ha.iSize, ha.blkType, pred64_eq (by omega) (by omega), blkTypeToShift,
      Nat.shiftRight_eq_div_pow]
    omega
  have h0 := hown.zero_mem
  have hbelow : Below 512 pi.height (num - 1) (tree d3 pi.height pi.root) := by
    have := ha.below
    rwa [← htree3] at this
  obtain ⟨⟨d4, freed⟩, hfree⟩ := Option.isSome_iff_exists.mp
    (freeSubtree_total hown3 h0 hs3 (by omega) hbelow)
  obtain ⟨hown4, hframe, -⟩ := freeSubtree_spec hown3 h0 hs3 (by omega) hfree
  have hbal : Balanced (d.ba.numFreeBlocks + UInt64.ofNat (total d.ba.blockInuseHead)) d4.ba := by
    refine freeSubtree_keeps (fun s b t' ok hint s' hint' h hr => freeBlock_balanced h hr) ?_ hfree
    rw [hba3]
    exact ha.balanced _ (balanced_of_wf hown.wf)
  have hstart4 : d4.ba.blockStart = d.ba.blockStart := by
    refine freeSubtree_keeps (P := fun s => s.blockStart = d.ba.blockStart)
      (fun s b t' ok hint s' hint' h hr => ?_) (by rw [hba3]; exact ha.blockStart) hfree
    unfold __pmfsFreeBlock at hr
    split_ifs at hr
    obtain ⟨start, -, heq⟩ := Option.map_eq_some_iff.mp hr
    cases heq
    exact h
  have hba4 : d4.ba = d.ba := balloc_ext hown4.wf hown.wf (inUse_eq hown4 hown) hbal
    (balanced_of_wf hown.wf) hstart4 (by rw [hframe.blockEnd, hba3, ha.blockEnd])
  refine ⟨{ sb.setPi (pmfsClearDatablockInode pi transOk) with
    d := d4, counters := sb.super.inodes }, ?_, hba4, rfl, fun htrans => ?_⟩
  · unfold pmfsCanSkipFullScan
    rw [hpi, if_neg ha.root]
    dsimp only
    rw [← hd2, hload]
    simp only [hlast, hfree, Option.map_some]
  · subst htrans
    simp only [Sb.pi, Sb.setPi, Function.update_self]
    exact cleared_clear _

/-- A file system of 100 blocks with two runs of used blocks, the inode table being the last block
of the first one. -/
def twoRuns : Sb where
  d := ⟨⟨0, 100, [⟨0, 9⟩, ⟨20, 29⟩], 80, 2⟩, [], fun _ _ => 0, [], false⟩
  table := { zeroInode with root := 9 * 4096 }
  inode := fun _ => zeroInode
  in0 := 9 * 4096 + 256
  counters := ⟨32, 29, 1, 3⟩
  super := ⟨0, 0, 0, 0, 0, 0⟩

/-- The image, when it is mounted again. -/
def restarted (sb : Sb) : Sb :=
  { sb with d := { sb.d with ba := { sb.d.ba with blockInuseHead := [] }, slab := [] } }

theorem remounted_restarted (sb : Sb) : Remounted sb (restarted sb) :=
  ⟨rfl, rfl, rfl, rfl, rfl, rfl, by simp [SlabOk, restarted]⟩

end Pmfs.Mount.SaveLoad
