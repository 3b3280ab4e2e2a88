import Pmfs.Inodes.Model
import Pmfs.Tree.Inode

/-! # No block is lost or shared

`referenced` are the blocks that the file system refers to: the reserved blocks at the start of the
device, the tree of the inode table, and the trees of the active inodes. `NoLeak` says that these
are the blocks in use, each referred to once. The operations on inodes keep it, when a truncation
does not cut off blocks above the height of the new size (`no_leak_in_safe_runs`); the code makes no
such check (`truncate_leaks`). -/

namespace Pmfs.Inodes.Blocks

open Relation Function
open Lib.Radix Block.Model Block.Spec
open Tree.Model Tree.Own Tree.Inode Inodes.Model

/-- The blocks that the file system refers to, `r` of them reserved. -/
def referenced (r : ℕ) (fs : Fs) : Multiset ℕ :=
  Multiset.range r + inodeBlocks fs.dev fs.inodeTable +
    ∑ nr ∈ fs.active, inodeBlocks fs.dev (fs.pi nr)

/-- The blocks in use are those referred to, each once. -/
def NoLeak (r : ℕ) (fs : Fs) : Prop :=
  (referenced r fs).Nodup ∧ ∀ x, x ∈ referenced r fs ↔ x ∈ inUse fs.dev.ba

/-- An inode counts its blocks right, in both copies. -/
structure InodeOk (d : Dev) (pi : PmfsInode) (inode : Inode) : Prop extends Counts d pi where
  vfs : inode.iBlocks = pi.iBlocks

/-- What holds of the file system between two operations. -/
structure Inv (r : ℕ) (fs : Fs) : Prop where
  owns : Owns fs.dev (referenced r fs)
  table : Counts fs.dev fs.inodeTable
  inodes : ∀ nr ∈ fs.active, InodeOk fs.dev (fs.pi nr) (fs.inode nr)
  mounting : fs.dev.mounting = false
  reserved : 0 < r

/-- What is referred to apart from the inode `nr`. -/
def rest (r : ℕ) (fs : Fs) (nr : ℕ) : Multiset ℕ :=
  Multiset.range r + inodeBlocks fs.dev fs.inodeTable +
    ∑ i ∈ fs.active.erase nr, inodeBlocks fs.dev (fs.pi i)

variable {r nr : ℕ} {fs fs' : Fs} {d d' : Dev} {pi pi' : PmfsInode} {inode' : Inode}

theorem Inv.noLeak (h : Inv r fs) : NoLeak r fs := ⟨h.owns.nodup, h.owns.mem⟩

theorem referenced_split (hnr : nr ∈ fs.active) :
    referenced r fs = inodeBlocks fs.dev (fs.pi nr) + rest r fs nr := by
  rw [referenced, rest, ← Finset.add_sum_erase _ _ hnr]
  abel

theorem zero_mem_rest (hr : 0 < r) : 0 ∈ rest r fs nr := by
  rw [rest, add_assoc]
  exact Multiset.mem_add.mpr (Or.inl (Multiset.mem_range.mpr hr))

theorem treeOf_congr (h : ∀ x ∈ inodeBlocks d pi, ∀ i, d'.node x i = d.node x i) :
    treeOf d' pi = treeOf d pi := tree_congr h

theorem inodeBlocks_congr (h : treeOf d' pi = treeOf d pi) :
    inodeBlocks d' pi = inodeBlocks d pi := by
  rw [inodeBlocks, h, inodeBlocks]

theorem Counts.congr (hc : Counts d pi) (h : treeOf d' pi = treeOf d pi) : Counts d' pi :=
  ⟨h ▸ hc.iBlocks, hc.root, hc.height⟩

theorem counts_of_root (hroot : pi.root = 0) (hheight : pi.height = 0) (hblocks : pi.iBlocks = 0) :
    Counts d pi := by
  refine ⟨?_, fun _ => hheight, by omega⟩
  rw [hblocks, treeOf_of_root hroot]
  simp [leaves]

/-- The trees whose blocks lie in the frame stay what they are. -/
theorem treeOf_frame {R : Multiset ℕ} (h : Frame R d d') (hle : inodeBlocks d pi ≤ R) :
    treeOf d' pi = treeOf d pi :=
  treeOf_congr fun x hx i => h.node x (Multiset.mem_of_le hle hx) i

theorem table_le_rest : inodeBlocks fs.dev fs.inodeTable ≤ rest r fs nr := by
  rw [rest]
  exact (Multiset.le_add_left _ _).trans (Multiset.le_add_right _ _)

theorem inode_le_rest {i : ℕ} (hi : i ∈ fs.active) (hne : i ≠ nr) :
    inodeBlocks fs.dev (fs.pi i) ≤ rest r fs nr := by
  rw [rest]
  exact (Finset.single_le_sum
    (fun _ _ => Multiset.zero_le _) (Finset.mem_erase.mpr ⟨hne, hi⟩)).trans
    (Multiset.le_add_left _ _)

/-- The rest is the same in a state that differs only at inode `nr` and outside the frame. -/
theorem rest_frame (h : Frame (rest r fs nr) fs.dev fs'.dev)
    (htable : fs'.inodeTable = fs.inodeTable) (hpi : ∀ i, i ≠ nr → fs'.pi i = fs.pi i)
    (hact : fs'.active.erase nr = fs.active.erase nr) : rest r fs' nr = rest r fs nr := by
  unfold rest
  rw [htable, hact, inodeBlocks_congr (treeOf_frame h table_le_rest)]
  congr 1
  refine Finset.sum_congr rfl fun i hi => ?_
  obtain ⟨hne, hi⟩ := Finset.mem_erase.mp hi
  rw [hpi i hne, inodeBlocks_congr (treeOf_frame h (inode_le_rest hi hne))]

variable (nr) in
/-- One inode and its blocks change; it may become or stop being active. -/
theorem Inv.change (h : Inv r fs) (hframe : Frame (rest r fs nr) fs.dev fs'.dev)
    (htable : fs'.inodeTable = fs.inodeTable) (hpi : ∀ i, i ≠ nr → fs'.pi i = fs.pi i)
    (hinode : ∀ i, i ≠ nr → fs'.inode i = fs.inode i)
    (hact : fs'.active.erase nr = fs.active.erase nr)
    (hin : nr ∈ fs'.active → Owns fs'.dev (inodeBlocks fs'.dev (fs'.pi nr) + rest r fs nr) ∧
      InodeOk fs'.dev (fs'.pi nr) (fs'.inode nr))
    (hout : nr ∉ fs'.active → Owns fs'.dev (rest r fs nr)) : Inv r fs' := by
  have hrest := rest_frame hframe htable hpi hact
  refine ⟨?_, ?_, fun i hi => ?_, hframe.mounting.trans h.mounting, h.reserved⟩
  · by_cases hnr : nr ∈ fs'.active
    · rw [referenced_split hnr, hrest]
      exact (hin hnr).1
    · have hreferenced : referenced r fs' = rest r fs' nr := by
        rw [referenced, rest, Finset.erase_eq_of_notMem hnr]
      rw [hreferenced, hrest]
      exact hout hnr
  · rw [htable]
    exact Counts.congr h.table (treeOf_frame hframe table_le_rest)
  · by_cases hne : i = nr
    · subst hne
      exact (hin hi).2
    · have hi' : i ∈ fs.active :=
        Finset.mem_of_mem_erase (hact ▸ Finset.mem_erase.mpr ⟨hne, hi⟩)
      have hok := h.inodes i hi'
      rw [hpi i hne, hinode i hne]
      exact ⟨Counts.congr hok.toCounts (treeOf_frame hframe (inode_le_rest hi' hne)), hok.vfs⟩

/-! ### The operations -/

/-- The operations that move blocks between the allocator and the trees. -/
inductive Op where
  | alloc (nr fileBlocknr num : ℕ) (zero : Bool)
  | truncate (nr start stop now : ℕ)
  | evict (nr : ℕ) (err : Option Errno) (now : ℕ)
  | increaseInodeTable (err : Option Errno)

/-- The operation, with the outcomes `slab` of its blocknode allocations. -/
def Op.exec (slab : List Bool) (fs : Fs) : Op → Option Fs
  | alloc nr fileBlocknr num zero =>
      ((fs.withSlab slab).allocBlocks nr fileBlocknr num zero).map Prod.fst
  | truncate nr start stop now => (fs.withSlab slab).truncateBlocks nr start stop now
  | evict nr err now => pmfsEvictInode (fs.withSlab slab) nr err now
  | increaseInodeTable err => (pmfsIncreaseInodeTableSize (fs.withSlab slab) err).map Prod.fst

/-- The operation is on an active inode. -/
def Op.OnActive (fs : Fs) : Op → Prop
  | alloc nr _ _ _ => nr ∈ fs.active
  | truncate nr _ _ _ => nr ∈ fs.active
  | evict nr _ _ => nr ∈ fs.active
  | increaseInodeTable _ => True

/-- The operation loses no block: no blocknode allocation fails while blocks are freed, and a
truncation does not cut off what it does not free, of an inode with less than `2 ^ 32` blocks. -/
def Op.Safe (slab : List Bool) (fs : Fs) : Op → Prop
  | alloc _ _ _ _ => True
  | truncate nr start stop _ => (∀ b ∈ slab, b = true) ∧ (fs.pi nr).iBlocks.toNat < 2 ^ 32 ∧
      TruncSafe fs.dev (fs.pi nr) start stop
  | evict _ _ _ => ∀ b ∈ slab, b = true
  | increaseInodeTable _ => True

/-- What the rest of the file system does to inodes: it changes an active inode but for its tree,
its count of blocks and, unless it has no blocks, its block type; and it makes an inode without
blocks active. -/
inductive Env (fs : Fs) : Fs → Prop
  | touch (nr : ℕ) (pi : PmfsInode) (inode : Inode) (hact : nr ∈ fs.active)
      (hheight : pi.height = (fs.pi nr).height) (hroot : pi.root = (fs.pi nr).root)
      (hblocks : pi.iBlocks = (fs.pi nr).iBlocks) (hvfs : inode.iBlocks = (fs.inode nr).iBlocks)
      (htype : pi.iBlkType = (fs.pi nr).iBlkType ∨ pi.root = 0) :
      Env fs (fs.setInode nr fs.dev inode pi)
  | create (nr : ℕ) (pi : PmfsInode) (inode : Inode) (hact : nr ∉ fs.active)
      (hheight : pi.height = 0) (hroot : pi.root = 0) (hblocks : pi.iBlocks = 0)
      (hvfs : inode.iBlocks = 0) :
      Env fs { fs.setInode nr fs.dev inode pi with active := insert nr fs.active }

/-- One step: an operation on an active inode that does not crash, or one of the environment. -/
inductive Step (fs fs' : Fs) : Prop
  | op (slab : List Bool) (o : Op) (hact : o.OnActive fs) (hexec : o.exec slab fs = some fs')
  | env (h : Env fs fs')

/-- One step that loses no block. -/
inductive SafeStep (fs fs' : Fs) : Prop
  | op (slab : List Bool) (o : Op) (hact : o.OnActive fs) (hexec : o.exec slab fs = some fs')
      (hsafe : o.Safe slab fs)
  | env (h : Env fs fs')

theorem Inv.withSlab (h : Inv r fs) (slab : List Bool) : Inv r (fs.withSlab slab) :=
  ⟨h.owns.congr rfl, ⟨h.table.iBlocks, h.table.root, h.table.height⟩,
    fun nr hnr => ⟨⟨(h.inodes nr hnr).iBlocks, (h.inodes nr hnr).root, (h.inodes nr hnr).height⟩,
      (h.inodes nr hnr).vfs⟩, h.mounting, h.reserved⟩

theorem Inv.split (h : Inv r fs) (hnr : nr ∈ fs.active) :
    Owns fs.dev (inodeBlocks fs.dev (fs.pi nr) + rest r fs nr) :=
  referenced_split hnr ▸ h.owns

/-- The inode `nr` stays active and its blocks change. -/
theorem Inv.setInode (h : Inv r fs) (hnr : nr ∈ fs.active) (hframe : Frame (rest r fs nr) fs.dev d)
    (hown : Owns d (inodeBlocks d pi + rest r fs nr)) (hok : InodeOk d pi inode') :
    Inv r (fs.setInode nr d inode' pi) := by
  refine h.change nr hframe rfl (fun i hi => update_of_ne hi _ _)
    (fun i hi => update_of_ne hi _ _) rfl (fun _ => ?_) (absurd hnr)
  simp only [Fs.setInode, update_self]
  exact ⟨hown, hok⟩

theorem Inv.alloc {fileBlocknr num : ℕ} {zero : Bool} {o : Option Errno} (h : Inv r fs)
    (hnr : nr ∈ fs.active) (he : fs.allocBlocks nr fileBlocknr num zero = some (fs', o)) :
    Inv r fs' := by
  obtain ⟨d', pi', o', hrun, ha, -⟩ := alloc_spec fileBlocknr num zero (h.split hnr)
    (h.inodes nr hnr).toCounts
  unfold Fs.allocBlocks pmfsAllocBlocks at he
  rw [hrun] at he
  simp only [Option.map_some] at he
  cases he
  exact h.setInode hnr ha.frame ha.owns ⟨ha.counts, rfl⟩

theorem Inv.truncate {start stop now : ℕ} (h : Inv r fs) (hnr : nr ∈ fs.active) (hs : SlabOk fs.dev)
    (hlt : (fs.pi nr).iBlocks.toNat < 2 ^ 32) (hsafe : TruncSafe fs.dev (fs.pi nr) start stop)
    (he : fs.truncateBlocks nr start stop now = some fs') : Inv r fs' := by
  unfold Fs.truncateBlocks at he
  rcases hrun : __pmfsTruncateBlocks fs.dev (fs.inode nr) (fs.pi nr) start stop now with
    - | ⟨d', inode', pi'⟩
  · simp [hrun] at he
  rw [hrun, Option.map_some, Option.some.injEq] at he
  subst he
  have ht := truncate_spec (zero_mem_rest h.reserved) hs h.mounting (h.split hnr)
    (h.inodes nr hnr).toCounts (h.inodes nr hnr).vfs hlt hsafe hrun
  exact h.setInode hnr ht.frame ht.owns ⟨ht.counts, ht.iBlocks⟩

theorem evictLast_lt {inode : Inode} : evictLast pi inode < 512 ^ pi.height := by
  have hpos : 0 < 512 ^ pi.height := by positivity
  unfold evictLast pmfsSparseLastBlocknr
  rw [Pmfs.Tree.Truncate.one_shiftLeft_9]
  split_ifs <;> omega

theorem Inv.evict {trans : Option Errno} {now : ℕ} (h : Inv r fs) (hnr : nr ∈ fs.active)
    (hs : SlabOk fs.dev) (he : pmfsEvictInode fs nr trans now = some fs') : Inv r fs' := by
  unfold pmfsEvictInode at he
  by_cases hev : evicts (fs.inode nr) = true
  · cases trans with
    | some e =>
      simp only [hev, if_true, pmfsFreeInode, Option.some.injEq] at he
      exact he ▸ h
    | none =>
      simp only [hev, if_true, pmfsFreeInode] at he
      rcases hrun : pmfsFreeInodeSubtree fs.dev (fs.pi nr).root (fs.pi nr).height
        (fs.pi nr).iBlkType (evictLast (fs.pi nr) (fs.inode nr)) with - | ⟨d', freed⟩
      · simp [hrun] at he
      rw [hrun, Option.map_some, Option.some.injEq] at he
      obtain ⟨hown, hframe, -⟩ := freeSubtree_spec (h.split hnr) (zero_mem_rest h.reserved) hs
        evictLast_lt hrun
      subst he
      refine h.change nr hframe rfl (fun i hi => update_of_ne hi _ _)
        (fun i hi => update_of_ne hi _ _) (Finset.erase_idem) (fun hin => ?_) fun _ => hown
      exact absurd hin (Finset.notMem_erase nr _)
  · simp only [hev, Bool.false_eq_true, if_false, Option.some.injEq] at he
    exact he ▸ h

/-- What is referred to apart from the inode table. -/
def restOfTable (r : ℕ) (fs : Fs) : Multiset ℕ :=
  Multiset.range r + ∑ nr ∈ fs.active, inodeBlocks fs.dev (fs.pi nr)

theorem referenced_table :
    referenced r fs = inodeBlocks fs.dev fs.inodeTable + restOfTable r fs := by
  rw [referenced, restOfTable]
  abel

theorem Inv.setTable (h : Inv r fs) {table : PmfsInode} {sbi : SbInfo}
    (hframe : Frame (restOfTable r fs) fs.dev d)
    (hown : Owns d (inodeBlocks d table + restOfTable r fs)) (hcounts : Counts d table) :
    Inv r { fs with dev := d, inodeTable := table, sbi := sbi } := by
  have htree : ∀ i ∈ fs.active, treeOf d (fs.pi i) = treeOf fs.dev (fs.pi i) := by
    intro i hi
    refine treeOf_frame hframe ?_
    rw [restOfTable]
    exact (Finset.single_le_sum
      (fun _ _ => Multiset.zero_le _) hi).trans (Multiset.le_add_left _ _)
  refine ⟨?_, hcounts, fun i hi => ⟨Counts.congr (h.inodes i hi).toCounts (htree i hi),
    (h.inodes i hi).vfs⟩, hframe.mounting.trans h.mounting, h.reserved⟩
  rw [referenced_table]
  convert hown using 2
  unfold restOfTable
  congr 1
  exact Finset.sum_congr rfl fun i hi => inodeBlocks_congr (htree i hi)

theorem Inv.increaseTable {err o : Option Errno} (h : Inv r fs)
    (he : pmfsIncreaseInodeTableSize fs err = some (fs', o)) : Inv r fs' := by
  unfold pmfsIncreaseInodeTableSize at he
  cases err with
  | some e =>
    cases he
    exact h
  | none =>
    have hown := h.owns
    rw [referenced_table] at hown
    obtain ⟨d', pi', o', hrun, ha, -⟩ := alloc_spec (fs.inodeTable.iSize >>> 12) 1 true hown
      h.table
    rw [hrun] at he
    have hc : Counts d' pi' := ha.counts
    cases o' with
    | some e =>
      cases he
      exact h.setTable ha.frame ha.owns hc
    | none =>
      cases he
      exact h.setTable ha.frame ha.owns ⟨hc.iBlocks, hc.root, hc.height⟩

theorem Inv.env (h : Inv r fs) (he : Env fs fs') : Inv r fs' := by
  cases he with
  | touch nr pi inode hact hheight hroot hblocks hvfs htype =>
    have hok := h.inodes nr hact
    have htree : treeOf fs.dev pi = treeOf fs.dev (fs.pi nr) := by
      rw [treeOf, hheight, hroot, treeOf]
    have hempty : pi.root = 0 → treeOf fs.dev (fs.pi nr) = RTree.empty := by
      intro h0
      rw [treeOf, ← hroot, h0, tree_null]
    refine h.setInode hact .refl ?_ ⟨⟨?_, ?_, hheight ▸ hok.height⟩, ?_⟩
    · convert h.split hact using 2
      unfold inodeBlocks
      rcases htype with htype | htype
      · rw [htree, htype]
      · rw [htree, hempty htype, blocks_empty, blocks_empty]
    · rw [hblocks, hok.iBlocks, htree]
      rcases htype with htype | htype
      · unfold unit pmfsInodeBlkShift
        rw [htype]
      · rw [hempty htype]
        simp [leaves]
    · rw [hroot, hheight]
      exact hok.root
    · rw [hvfs, hblocks, hok.vfs]
  | create nr pi inode hact hheight hroot hblocks hvfs =>
    refine h.change nr .refl rfl (fun i hi => update_of_ne hi _ _)
      (fun i hi => update_of_ne hi _ _) ?_ (fun _ => ?_)
      fun hcon => absurd (Finset.mem_insert_self nr _) hcon
    · rw [Finset.erase_insert_eq_erase]
    · simp only [Fs.setInode, update_self]
      refine ⟨?_, counts_of_root hroot hheight hblocks, by rw [hvfs, hblocks]⟩
      have hrest : rest r fs nr = referenced r fs := by
        rw [referenced, rest, Finset.erase_eq_of_notMem hact]
      rw [inodeBlocks_of_root hroot, zero_add, hrest]
      exact h.owns

theorem Inv.step (h : Inv r fs) (hstep : SafeStep fs fs') : Inv r fs' := by
  cases hstep with
  | env he => exact h.env he
  | op slab o hact hexec hsafe =>
    have hslab : ∀ l : List Bool, (∀ b ∈ l, b = true) → SlabOk (fs.withSlab l).dev := fun _ => id
    cases o with
    | alloc nr fileBlocknr num zero =>
      obtain ⟨⟨fs1, o1⟩, hrun, rfl⟩ := Option.map_eq_some_iff.mp hexec
      exact (h.withSlab slab).alloc hact hrun
    | truncate nr start stop now =>
      exact (h.withSlab slab).truncate hact (hslab slab hsafe.1) hsafe.2.1 hsafe.2.2 hexec
    | evict nr err now => exact (h.withSlab slab).evict hact (hslab slab hsafe) hexec
    | increaseInodeTable err =>
      obtain ⟨⟨fs1, o1⟩, hrun, rfl⟩ := Option.map_eq_some_iff.mp hexec
      exact (h.withSlab slab).increaseTable hrun

/-! ### Formatting -/

theorem reserved_pos (jsize : ℕ) : 0 < numUsedBlock (4096 + jsize) := by
  rw [numUsedBlock, Nat.shiftRight_eq_div_pow]
  omega

theorem owns_init {size jsize numInodes : ℕ} (slab : List Bool) (node : ℕ → ℕ → ℕ)
    (hsize : pmfsCheckSize size jsize numInodes = true) :
    Owns ⟨pmfsInitBlockmap (Balloc.fresh (size >>> 12)) (4096 + jsize), slab, node, [], false⟩
      (Multiset.range (numUsedBlock (4096 + jsize))) := by
  have hfit : numUsedBlock (4096 + jsize) ≤ size >>> 12 := by
    unfold pmfsCheckSize at hsize
    simp only [Nat.shiftRight_eq_div_pow, Nat.shiftLeft_eq, numUsedBlock, ge_iff_le,
      decide_eq_true_eq] at hsize ⊢
    split_ifs at hsize <;> omega
  refine ⟨wf_init (by omega) hfit, Multiset.nodup_range _, fun x => ?_⟩
  rw [inUse_init (by omega), Multiset.mem_range, Pmfs.Lib.Intervals.mem_run]
  omega

/-- The state after the root directory got its block. -/
theorem inv_formatted {pis : ℕ → PmfsInode} {inodes : ℕ → Inode} {mode uid gid now b last : ℕ}
    {sbi : SbInfo} {d0 d1 d2 : Dev} {pi0 table : PmfsInode}
    (ha : Allocated (Multiset.range r) last d0 pi0 d1 table none)
    (hnew : NewOwned d1 .b4K true (inodeBlocks d1 table + Multiset.range r) b d2) (hr : 0 < r)
    (hm : d0.mounting = false) :
    Inv r { dev := d2, sbi := sbi, inodeTable := table
            pi := update pis 1 (rootInode mode uid gid now b)
            inode := update inodes 1
              (pmfsReadInode 128 (rootInode mode uid gid now b) false false)
            active := {1} } := by
  have hroot : treeOf d2 (rootInode mode uid gid now b) = RTree.leaf (pmfsGetBlockOff b) :=
    tree_leaf (blockOff_ne_zero hnew.pos)
  have htable : treeOf d2 table = treeOf d1 table :=
    treeOf_frame hnew.frame (Multiset.le_add_right _ _)
  refine ⟨?_, Counts.congr ha.counts htable, fun nr hnr => ?_,
    hnew.frame.mounting.trans (ha.frame.mounting.trans hm), hr⟩
  · convert hnew.owns using 1
    have hblocks : inodeBlocks d2 (rootInode mode uid gid now b) = runBlocks .b4K b := by
      rw [inodeBlocks, hroot, blocks_leaf, blocknr_off]
      rfl
    simp only [referenced, Finset.sum_singleton, update_self]
    rw [inodeBlocks_congr htable, hblocks]
    abel
  · rw [Finset.mem_singleton] at hnr
    subst hnr
    simp only [update_self]
    refine ⟨⟨?_, fun h => absurd h (blockOff_ne_zero hnew.pos), Nat.zero_le _⟩, rfl⟩
    rw [hroot]
    rfl

theorem initInodeTable_spec {a b : ℕ} {table : PmfsInode} {sbi : SbInfo} {o : Option Errno}
    (hown : Owns d (Multiset.range r)) (h : pmfsInitInodeTable d a b = some (d', table, sbi, o)) :
    ∃ last pi0, Allocated (Multiset.range r) last d pi0 d' table o := by
  have hroot : (initInodeTable a b).root = 0 := rfl
  have hcounts : Counts d (initInodeTable a b) := counts_of_root hroot rfl rfl
  obtain ⟨⟨d1, pi1, o1⟩, hrun, heq⟩ := Option.map_eq_some_iff.mp h
  cases heq
  rw [← zero_add (Multiset.range r), ← inodeBlocks_of_root hroot] at hown
  obtain ⟨d2, pi2, o2, hrun2, ha, -⟩ := alloc_spec 0
    ((initInodeTable a b).iSize >>> 12) true hown hcounts
  rw [hrun2] at hrun
  cases hrun
  exact ⟨_, _, ha⟩

theorem inv_init {node : ℕ → ℕ → ℕ} {pis : ℕ → PmfsInode} {inodes : ℕ → Inode} {slab : List Bool}
    {size jsize numInodes mode uid gid now : ℕ}
    (h : pmfsInit node pis inodes slab size jsize numInodes mode uid gid now = some fs) :
    Inv (numUsedBlock (4096 + jsize)) fs := by
  obtain ⟨hsize, d1, table, sbi, b, d2, htable, hnew, rfl⟩ := init_cases h
  obtain ⟨last, pi0, ha⟩ := initInodeTable_spec (owns_init slab node hsize) htable
  exact inv_formatted ha (newBlock_owns ha.owns hnew) (reserved_pos jsize) rfl

/-- **No leak and no sharing.** In every run from a formatted device whose steps lose no block, the
blocks in use are in every state exactly those referred to, each once. -/
theorem no_leak_in_safe_runs {node : ℕ → ℕ → ℕ} {pis : ℕ → PmfsInode} {inodes : ℕ → Inode}
    {slab : List Bool} {size jsize numInodes mode uid gid now : ℕ} {fs0 : Fs}
    (hinit : pmfsInit node pis inodes slab size jsize numInodes mode uid gid now = some fs0)
    (hrun : ReflTransGen SafeStep fs0 fs) : NoLeak (numUsedBlock (4096 + jsize)) fs := by
  have hinv : Inv (numUsedBlock (4096 + jsize)) fs := by
    induction hrun with
    | refl => exact inv_init hinit
    | tail _ hstep ih => exact ih.step hstep
  exact hinv.noLeak

/-- A device of 1 MB, formatted. -/
def small : Option Fs :=
  pmfsInit (fun _ _ => 0) (fun _ => zeroInode) (fun _ => pmfsReadInode 0 zeroInode false false) []
    0x100000 0x10000 0 0o755 0 0 1

/-- The inode 3 becomes an empty file. -/
def newFile (fs : Fs) : Fs :=
  { fs.setInode 3 fs.dev (pmfsReadInode 384 zeroInode false false) zeroInode with
    active := insert 3 fs.active }

theorem small_active : small.map (·.active) = some {1} := by decide +kernel

theorem env_newFile (h : 3 ∉ fs.active) : Env fs (newFile fs) :=
  .create 3 zeroInode _ h rfl rfl rfl rfl

theorem active_alloc {slab : List Bool} {fileBlocknr num : ℕ} {zero : Bool}
    (h : (Op.alloc nr fileBlocknr num zero).exec slab fs = some fs') : fs'.active = fs.active := by
  obtain ⟨⟨fs1, o⟩, halloc, rfl⟩ := Option.map_eq_some_iff.mp h
  obtain ⟨⟨d, inode, pi, o'⟩, -, heq⟩ := Option.map_eq_some_iff.mp halloc
  cases heq
  rfl

/-- Three blocks of a new file are mapped, and the file is cut down to one block. -/
theorem no_leak_in_safe_runs_cut : ∃ fs0 fs1 fs, small = some fs0 ∧
    (Op.alloc 3 0 3 true).exec [] (newFile fs0) = some fs1 ∧ (fs1.pi 3).height = 1 ∧
    (Op.truncate 3 4096 0x200000 1).exec [] fs1 = some fs ∧
    (fs.pi 3).height = 0 ∧ NoLeak 17 fs := by
  obtain ⟨fs0, hfs0, fs1, halloc, hheight, hblocks, heof, hshift, fs, hcut, hlow⟩ : ∃ fs0 ∈ small,
      ∃ fs1 ∈ (Op.alloc 3 0 3 true).exec [] (newFile fs0), (fs1.pi 3).height = 1 ∧
        (fs1.pi 3).iBlocks.toNat < 2 ^ 32 ∧ (fs1.pi 3).eofblocks = false ∧
        pmfsInodeBlkShift (fs1.pi 3) = 12 ∧ ∃ fs ∈ (Op.truncate 3 4096 0x200000 1).exec [] fs1,
        (fs.pi 3).height = 0 := by
    decide +kernel
  have hact := small_active
  rw [hfs0, Option.map_some, Option.some.injEq] at hact
  have hact0 : 3 ∈ (newFile fs0).active := Finset.mem_insert_self 3 _
  have hact1 : 3 ∈ fs1.active := by rw [active_alloc halloc]; exact hact0
  -- the range goes up to the end of a tree of height 1
  have hsafe : TruncSafe fs1.dev (fs1.pi 3) 4096 0x200000 := by
    refine Or.inr (Or.inr fun first last hrange => ?_)
    obtain ⟨-, -, -, -, -, hlast⟩ := truncRange_some hrange
    have htop : last = 512 ^ (fs1.pi 3).height - 1 := by
      rw [hlast heof, hshift, hheight]
      decide
    rw [htop]
    exact (below_top (by norm_num) uniform_tree).mono (le_max_left _ _)
  refine ⟨fs0, fs1, fs, hfs0, halloc, hheight, hcut, hlow, no_leak_in_safe_runs hfs0 ?_⟩
  exact ((ReflTransGen.refl.tail (.env (env_newFile (by rw [hact]; decide)))).tail
    (.op [] (.alloc 3 0 3 true) hact0 halloc trivial)).tail
    (.op [] (.truncate 3 4096 0x200000 1) hact1 hcut ⟨by simp, hblocks, hsafe⟩)

/-- Blocks 0 and 512 of a file are mapped, and the file is cut down from 512 blocks to one. -/
def leakRun (fs : Fs) : Option Fs :=
  ((Op.alloc 3 0 1 true).exec [] (newFile fs)).bind fun fs =>
    ((Op.alloc 3 512 1 false).exec [] fs).bind fun fs => (Op.truncate 3 4096 0x200000 1).exec [] fs

/-- After `leakRun` all trees have height 0 and the blocks 22 and 23 belong to none. -/
theorem leakRun_result : (small.bind leakRun).map (fun fs =>
    (fs.dev.ba.blockInuseHead.map fun i => (i.low, i.high), fs.active,
      [fs.inodeTable, fs.pi 1, fs.pi 3].map fun pi => (pi.height, pi.root, pi.iBlkType))) =
    some ([(0, 19), (22, 23)], {3, 1}, [(0, 17 <<< 12, .b4K), (0, 18 <<< 12, .b4K),
      (0, 19 <<< 12, .b4K)]) := by
  decide +kernel

theorem inodeBlocks_single {b : ℕ} (h : (pi.height, pi.root, pi.iBlkType) = (0, b <<< 12, .b4K))
    (hb : 0 < b) : inodeBlocks d pi = {b} := by
  simp only [Prod.mk.injEq] at h
  obtain ⟨h1, h2, h3⟩ := h
  have hroot : pi.root = pmfsGetBlockOff b := h2
  rw [inodeBlocks, treeOf, h1, h3, hroot, tree_leaf (blockOff_ne_zero hb), blocks_leaf, blocknr_off,
    runBlocks_b4K]

/-- A truncation that lowers the tree loses the blocks above. -/
theorem truncate_leaks : ∃ fs0 fs, small = some fs0 ∧
    ReflTransGen Step fs0 fs ∧ ¬ NoLeak 17 fs := by
  have hres := leakRun_result
  rcases hfs : small.bind leakRun with - | fs
  · rw [hfs] at hres
    simp at hres
  obtain ⟨fs0, hfs0, hrun⟩ := Option.bind_eq_some_iff.mp hfs
  obtain ⟨fs1, h₁, hrun1⟩ := Option.bind_eq_some_iff.mp hrun
  obtain ⟨fs2, h₂, h₃⟩ := Option.bind_eq_some_iff.mp hrun1
  have hact := small_active
  rw [hfs0, Option.map_some, Option.some.injEq] at hact
  have hact0 : 3 ∈ (newFile fs0).active := Finset.mem_insert_self 3 _
  have hact1 : 3 ∈ fs1.active := by rw [active_alloc h₁]; exact hact0
  have hact2 : 3 ∈ fs2.active := by rw [active_alloc h₂]; exact hact1
  refine ⟨fs0, fs, hfs0, (((ReflTransGen.refl.tail (.env (env_newFile (by rw [hact]; decide)))).tail
    (.op [] (.alloc 3 0 1 true) hact0 h₁)).tail (.op [] (.alloc 3 512 1 false) hact1 h₂)).tail
    (.op [] (.truncate 3 4096 0x200000 1) hact2 h₃), fun hno => ?_⟩
  rw [hfs, Option.map_some, Option.some.injEq, Prod.mk.injEq, Prod.mk.injEq] at hres
  obtain ⟨hinuse, hactive, htrees⟩ := hres
  simp only [List.map_cons, List.map_nil, List.cons.injEq, and_true] at htrees
  obtain ⟨h17, h18, h19⟩ := htrees
  have hin : 22 ∈ inUse fs.dev.ba := by
    have hmem : ((22 : ℕ), (23 : ℕ)) ∈ fs.dev.ba.blockInuseHead.map fun i => (i.low, i.high) := by
      rw [hinuse]; decide
    obtain ⟨i, hi, heq⟩ := List.mem_map.mp hmem
    rw [Prod.mk.injEq] at heq
    exact Pmfs.Lib.Intervals.covered_of_mem hi (by omega) (by omega)
  have hreferenced := (hno.2 22).mpr hin
  rw [referenced, hactive, Finset.sum_pair (by decide), inodeBlocks_single h17 (by decide),
    inodeBlocks_single h18 (by decide), inodeBlocks_single h19 (by decide)] at hreferenced
  revert hreferenced
  decide

end Pmfs.Inodes.Blocks
