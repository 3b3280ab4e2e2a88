import Pmfs.Inodes.Regular
import Pmfs.Replay.Rerun

/-! # The count of blocks of an inode

`__pmfs_alloc_blocks` counts data blocks in `i_blocks`, and `__pmfs_truncate_blocks` takes away
those it frees. When the count is 0 after a truncation, `pmfs_decrease_btree_height` is sure that
there is no root (`BUG_ON(newroot != 0)`). That is so in every run whose steps count what they enter
into the tree and in which no truncation to another size than 0 finds a metadata block without a
child (`counted_in_safe_runs`). The replay of a log enters blocks without counting them
(`extent_not_counted`). -/

namespace Pmfs.Replay.Counter

open Relation
open Lib.Radix Block.Model Tree.Model Tree.Own Tree.Inode
open Inodes.Regular Inodes.Blocks Replay.Model Replay.Rerun
open RTree

/-! ### The steps -/

/-- The steps on an inode: those of the kernel, and those of the replay of a log. -/
inductive Op where
  | alloc (fileBlocknr num : ℕ) (zero : Bool)
  | truncate (start stop now : ℕ)
  | index (e : KernelfsExtent)
  | direntry (flags : UInt32) (mtime : ℕ) (isDir placed : Bool)
  | allocBlock (fileBlocknr num : ℕ) (zero : Bool)

/-- The outcomes of the coming blocknode allocations. -/
def withSlab (slab : List Bool) (f : File) : File := { f with d := { f.d with slab := slab } }

/-- The step. The replay knows nothing of the VFS inode. -/
def Op.exec (junk : ℕ → ℤ) (slab : List Bool) (f : File) : Op → Option File
  | .alloc b n zero => ((withSlab slab f).alloc b n zero).map Prod.fst
  | .truncate start stop now =>
    (__pmfsTruncateBlocks (withSlab slab f).d f.inode f.pi start stop now).map fun r =>
      ⟨r.1, r.2.1, r.2.2⟩
  | .index e =>
    (addInodeIndex e junk (withSlab slab f).d f.pi).map fun r => { f with d := r.d, pi := r.pi }
  | .direntry flags mtime isDir placed =>
    let r := addDirentryInode flags mtime isDir placed (withSlab slab f).d f.pi
    some { f with d := r.1, pi := r.2 }
  | .allocBlock b n zero => (pmfsAllocBlock (withSlab slab f).d f.pi b n zero).map fun r =>
      { f with d := r.1, pi := r.2.1 }

/-- What the rest of the file system does: it leaves the blocks of the inode alone, and the fields
that tell about them, but may change the other fields, the VFS inode and all other blocks. -/
structure Env (f f' : File) : Prop where
  height : f'.pi.height = f.pi.height
  root : f'.pi.root = f.pi.root
  iBlkType : f'.pi.iBlkType = f.pi.iBlkType
  iBlocks : f'.pi.iBlocks = f.pi.iBlocks
  mounting : f'.d.mounting = f.d.mounting
  node : ∀ x ∈ inodeBlocks f.d f.pi, ∀ i, f'.d.node x i = f.d.node x i
  owns : ∃ R, 0 ∈ R ∧ Owns f'.d (inodeBlocks f.d f.pi + R)

/-- One step with the property `P`, or one of the rest of the file system. -/
inductive Step (P : List Bool → File → Op → Prop) (f f' : File) : Prop
  | op (o : Op) (junk : ℕ → ℤ) (slab : List Bool) (hP : P slab f o)
      (hexec : o.exec junk slab f = some f')
  | env (h : Env f f')

/-- A truncation loses no block and counts what it frees: no blocknode allocation fails, the count
is that of the VFS inode and has 32 bits, nothing is cut off above the new height; and unless all is
given up, every metadata block has a child. -/
structure TruncOk (slab : List Bool) (f : File) (start stop : ℕ) : Prop where
  slab : ∀ b ∈ slab, b = true
  vfs : f.inode.iBlocks = f.pi.iBlocks
  small : f.pi.iBlocks.toNat < 2 ^ 32
  safe : TruncSafe f.d f.pi start stop
  fruitful : start ≠ 0 → Fruitful 512 (treeOf f.d f.pi)

/-- The step counts what it enters into the tree. Extents are never counted, nor is the first block
of a directory. -/
def Op.Counted (slab : List Bool) (f : File) : Op → Prop
  | .alloc _ _ _ => True
  | .truncate start stop _ => TruncOk slab f start stop
  | .index _ => False
  | .direntry _ _ isDir placed => f.pi.root = 0 ∧ (isDir && placed) = false
  | .allocBlock b n _ => f.pi.root ≠ 0 ∨ lastIndex f.pi b n ≠ 0

/-- `BUG_ON(newroot != 0)` for a truncation to a size that is not 0: the count is 0 when the blocks
are freed, and there is a root. -/
def BugOn (slab : List Bool) (f : File) (start stop : ℕ) : Prop :=
  ∃ first last, truncRange f.pi start stop = some (first, last) ∧ ∃ d root freed,
    truncTree (withSlab slab f).d f.pi first last = some (d, root, freed) ∧
      truncIblocks d f.pi f.inode.iBlocks root freed = 0 ∧ root ≠ 0

/-- The inode owns its blocks, and counts them right. -/
structure Consistent (f : File) : Prop where
  owns : ∃ R, 0 ∈ R ∧ Owns f.d (inodeBlocks f.d f.pi + R)
  counts : Counts f.d f.pi
  mounting : f.d.mounting = false

variable {slab : List Bool} {f f' f0 : File} {d d' : Dev} {pi pi' : PmfsInode} {start stop now : ℕ}

/-- The truncation does not get past the `BUG_ON`. -/
theorem bugOn_stops (junk : ℕ → ℤ) (h : BugOn slab f start stop) :
    (Op.truncate start stop now).exec junk slab f = none := by
  obtain ⟨first, last, hrange, d, root, freed, htree, hzero, hroot⟩ := h
  have htree' : truncTree (withSlab slab f).d f.pi first last = some (d, root, freed) := htree
  simp only [Op.exec, __pmfsTruncateBlocks, hrange, htree', Option.map_eq_none_iff]
  rw [pmfsDecreaseBtreeHeight, if_pos (Or.inl hzero), if_pos hroot]

/-! ### One step -/

theorem consistent_of_root {R : Multiset ℕ} (hR : 0 ∈ R) (hown : Owns f.d R) (hroot : f.pi.root = 0)
    (hheight : f.pi.height = 0) (hblocks : f.pi.iBlocks = 0) (hm : f.d.mounting = false) :
    Consistent f := by
  refine ⟨⟨R, hR, ?_⟩, counts_of_root hroot hheight hblocks, hm⟩
  rw [inodeBlocks_of_root hroot, zero_add]
  exact hown

theorem Consistent.withSlab (slab : List Bool) (h : Consistent f) :
    Consistent (withSlab slab f) := by
  obtain ⟨R, hR, hown⟩ := h.owns
  exact ⟨⟨R, hR, hown.congr rfl⟩, ⟨h.counts.iBlocks, h.counts.root, h.counts.height⟩, h.mounting⟩

theorem Consistent.env (h : Consistent f) (he : Env f f') : Consistent f' := by
  have htree : treeOf f'.d f'.pi = treeOf f.d f.pi := by
    rw [treeOf, he.height, he.root]
    exact treeOf_congr he.node
  have hblocks : inodeBlocks f'.d f'.pi = inodeBlocks f.d f.pi := by
    rw [inodeBlocks, htree, he.iBlkType, inodeBlocks]
  refine ⟨?_, ⟨?_, ?_, he.height ▸ h.counts.height⟩, he.mounting.trans h.mounting⟩
  · rw [hblocks]
    exact he.owns
  · have hunit : unit f'.pi = unit f.pi := by
      rw [unit, unit, pmfsInodeBlkShift, pmfsInodeBlkShift, he.iBlkType]
    rw [he.iBlocks, htree, hunit]
    exact h.counts.iBlocks
  · rw [he.root, he.height]
    exact h.counts.root

theorem Consistent.alloc {b n : ℕ} {zero : Bool} {o : Option Errno} {inode : Inode}
    (h : Consistent f) (hrun : __pmfsAllocBlocks f.d f.pi b n zero = some (d', pi', o)) :
    Consistent ⟨d', inode, pi'⟩ := by
  obtain ⟨R, hR, hown⟩ := h.owns
  obtain ⟨d1, pi1, o1, hrun1, ha, -⟩ := alloc_spec b n zero hown h.counts
  rw [hrun] at hrun1
  cases hrun1
  exact ⟨⟨R, hR, ha.owns⟩, ha.counts, ha.frame.mounting.trans h.mounting⟩

/-- Where the first block is not at stake, the two allocations are one. -/
theorem pmfsAllocBlock_eq {b n : ℕ} (zero : Bool) (hcounts : Counts d pi)
    (h : pi.root ≠ 0 ∨ lastIndex pi b n ≠ 0) :
    pmfsAllocBlock d pi b n zero = __pmfsAllocBlocks d pi b n zero := by
  unfold pmfsAllocBlock __pmfsAllocBlocks allocVia
  by_cases hroot : pi.root = 0
  · have hlast : lastFileBlock b n >>> (pmfsInodeBlkShift pi - 12) ≠ 0 :=
      h.resolve_left (not_not.mpr hroot)
    have hheight := hcounts.root hroot
    have hgrow : lastFileBlock b n >>> (pmfsInodeBlkShift pi - 12) > 1 <<< (0 * 9) - 1 :=
      Nat.pos_of_ne_zero hlast
    have hne : 0 + shiftsToZero 8 (lastFileBlock b n >>> (pmfsInodeBlkShift pi - 12) >>> (0 * 9)) ≠
      0 := by
      rw [Nat.zero_mul, Nat.shiftRight_zero, shiftsToZero, if_pos (Nat.pos_of_ne_zero hlast)]
      omega
    simp only [hheight, hgrow, if_true, if_neg hne]
  · simp only [if_neg hroot]

theorem Consistent.truncate {inode' : Inode} (h : Consistent f) (hok : TruncOk slab f start stop)
    (hrun : __pmfsTruncateBlocks (Counter.withSlab slab f).d f.inode f.pi start stop now =
    some (d', inode', pi')) : Consistent ⟨d', inode', pi'⟩ := by
  have hs := h.withSlab slab
  obtain ⟨R, hR, hown⟩ := hs.owns
  have hslab : SlabOk (Counter.withSlab slab f).d := hok.slab
  have ht := truncate_spec hR hslab hs.mounting hown hs.counts hok.vfs hok.small hok.safe hrun
  exact ⟨⟨R, hR, ht.owns⟩, ht.counts, ht.frame.mounting.trans h.mounting⟩

/-- An inode without a tree for an entry that is not a directory. -/
theorem Consistent.direntry {flags : UInt32} {mtime : ℕ} {isDir placed : Bool} (h : Consistent f)
    (hroot : f.pi.root = 0) (hdir : (isDir && placed) = false) :
    Consistent { f with
      d := (addDirentryInode flags mtime isDir placed f.d f.pi).1
      pi := (addDirentryInode flags mtime isDir placed f.d f.pi).2 } := by
  obtain ⟨R, hR, hown⟩ := h.owns
  rw [inodeBlocks_of_root hroot, zero_add] at hown
  cases placed with
  | false => exact consistent_of_root hR hown hroot rfl rfl h.mounting
  | true =>
    rw [Bool.and_true] at hdir
    subst hdir
    exact consistent_of_root hR hown hroot rfl rfl h.mounting

theorem Consistent.step (h : Consistent f) (hstep : Step Op.Counted f f') : Consistent f' := by
  rcases hstep with ⟨o, junk, slab, hP, hexec⟩ | henv
  · have hs := h.withSlab slab
    cases o with
    | alloc b n zero =>
      obtain ⟨⟨f1, o1⟩, halloc, rfl⟩ := Option.map_eq_some_iff.mp hexec
      obtain ⟨⟨d', inode', pi', o'⟩, hrun, heq⟩ := Option.map_eq_some_iff.mp halloc
      obtain ⟨⟨d1, pi1, o2⟩, hrun1, heq1⟩ := Option.map_eq_some_iff.mp hrun
      simp only [Prod.mk.injEq] at heq heq1
      obtain ⟨rfl, rfl, rfl, -⟩ := heq1
      rw [← heq.1]
      exact hs.alloc hrun1
    | truncate start stop now =>
      obtain ⟨⟨d', inode', pi'⟩, hrun, rfl⟩ := Option.map_eq_some_iff.mp hexec
      exact h.truncate hP hrun
    | index e => exact hP.elim
    | direntry flags mtime isDir placed =>
      cases hexec
      exact hs.direntry hP.1 hP.2
    | allocBlock b n zero =>
      obtain ⟨⟨d', pi', o'⟩, hrun, rfl⟩ := Option.map_eq_some_iff.mp hexec
      exact hs.alloc ((pmfsAllocBlock_eq zero hs.counts hP).symm.trans hrun)
  · exact h.env henv

/-! ### Runs -/

theorem Consistent.leaves_eq_zero (h : Consistent f) (hzero : f.pi.iBlocks = 0) :
    leaves 512 (treeOf f.d f.pi) = 0 := by
  have hcount := h.counts.toNat_iBlocks
  rw [hzero] at hcount
  exact (Nat.mul_eq_zero.mp hcount.symm).resolve_right (unit_pos f.pi).ne'

/-- What is left after a truncation has a leaf when it has a root, and leaves are counted. -/
theorem Consistent.not_bugOn (h : Consistent f) (hstart : start ≠ 0)
    (hok : TruncOk slab f start stop) : ¬ BugOn slab f start stop := by
  rintro ⟨first, last, hrange, d', root, freed, htrunc, hzero, hroot'⟩
  have hs := h.withSlab slab
  obtain ⟨R, hR, hown⟩ : ∃ R, 0 ∈ R ∧ Owns (Counter.withSlab slab f).d (inodeBlocks f.d f.pi + R) :=
    hs.owns
  obtain ⟨hroot, -, hfl, hl, -, -⟩ := truncRange_some hrange
  obtain ⟨d1, root1, freed1, hrun, htree, -, -, hframe, -, hfreed⟩ :=
    truncTree_spec hown hR hok.slab hroot hfl hl
  obtain ⟨rfl, rfl, rfl⟩ : d1 = d' ∧ root1 = root ∧ freed1 = freed := by
    simpa using hrun.symm.trans htrunc
  have hsum : freed1 + leaves 512 (tree d1 f.pi.height root1) = leaves 512 (treeOf f.d f.pi) :=
    hfreed
  have hcount : truncIblocks d1 f.pi f.inode.iBlocks root1 freed1 =
      UInt64.ofNat (leaves 512 (tree d1 f.pi.height root1) * unit f.pi) := by
    refine truncIblocks_eq (hframe.mounting.trans h.mounting) ?_ ?_
    · rw [hsum, hok.vfs]
      exact h.counts.iBlocks
    · rw [hsum, ← h.counts.toNat_iBlocks]
      exact hok.small
  have hleaves : leaves 512 (tree d1 f.pi.height root1) = 0 := by
    have hnat := congrArg UInt64.toNat (hcount.symm.trans hzero)
    rw [UInt64.toNat_ofNat', Nat.mod_eq_of_lt (count_lt h.counts.height)] at hnat
    exact (Nat.mul_eq_zero.mp hnat).resolve_right (unit_pos f.pi).ne'
  have hfruit : Fruitful 512 (tree d1 f.pi.height root1) := by
    have htree' : tree d1 f.pi.height root1 = prune 512 f.pi.height first last (treeOf f.d f.pi) :=
      htree
    rw [htree']
    exact (hok.fruitful hstart).prune
  exact hroot' (tree_eq_empty_iff.mp (hfruit.eq_empty hleaves))

/-- **Main result.** In every state of every run whose steps count what they enter into the tree,
the count is 0 only without data blocks, and no truncation to a size that is not 0 gets to the
`BUG_ON`. -/
theorem counted_in_safe_runs (hstart : Consistent f0) (hrun : ReflTransGen (Step Op.Counted) f0 f) :
    (f.pi.iBlocks = 0 → leaves 512 (treeOf f.d f.pi) = 0) ∧
      ∀ slab start stop, start ≠ 0 → TruncOk slab f start stop → ¬ BugOn slab f start stop := by
  have hinv : Consistent f := by
    induction hrun with
    | refl => exact hstart
    | tail _ hstep ih => exact ih.step hstep
  exact ⟨hinv.leaves_eq_zero, fun slab start stop hne hok => hinv.not_bugOn hne hok⟩

/-- An inode without a tree on a small device. -/
def freshFile : File :=
  ⟨smallDev, ⟨1, 33188, 1, 0, 0, 0, 0, 0, 0, 0, 0, false, false, false⟩, zeroInode⟩

theorem consistent_freshFile : Consistent freshFile := by
  obtain ⟨R, hR⟩ := exists_owns (d := smallDev) (Block.Spec.wf_init (by decide) (by decide))
  exact consistent_of_root ((hR.mem 0).mpr ⟨_, List.mem_cons_self, by decide, by decide⟩)
    hR rfl rfl rfl rfl

theorem env_iBlocks (h : Consistent f) (n : UInt64) :
    Env f { f with inode := { f.inode with iBlocks := n } } :=
  ⟨rfl, rfl, rfl, rfl, rfl, fun _ _ _ => rfl, h.owns⟩

/-- The log gives a file of one block two more, and the VFS inode gets to know of them. Cutting them
off leaves a root. -/
theorem counted_in_safe_runs_three : ∃ f, ReflTransGen (Step Op.Counted) freshFile f ∧
    f.pi.iBlocks = 3 ∧ f.pi.height = 1 ∧ truncRange f.pi 4096 12288 = some (1, 2) ∧
    ¬ BugOn [] f 4096 12288 := by
  obtain ⟨f1, hexec1, f2, hexec2, hroot1, hthree, hheight, hroot, hrange, hmapped, habove⟩ :
      ∃ f1 ∈ (Op.alloc 0 1 true).exec (fun _ => 0) [] freshFile,
        ∃ f2 ∈ (Op.allocBlock 1 2 true).exec (fun _ => 0) [] f1, f1.pi.root ≠ 0 ∧
        f2.pi.iBlocks = 3 ∧ f2.pi.height = 1 ∧ f2.pi.root ≠ 0 ∧
        truncRange f2.pi 4096 12288 = some (1, 2) ∧ f2.d.node (pmfsGetBlocknr f2.pi.root) 0 ≠ 0 ∧
        ∀ i < 512, 2 < i → f2.d.node (pmfsGetBlocknr f2.pi.root) i = 0 := by decide +kernel
  have hstep1 : Step Op.Counted freshFile f1 := .op (.alloc 0 1 true) _ _ trivial hexec1
  have hstep2 : Step Op.Counted f1 f2 := .op (.allocBlock 1 2 true) _ _ (Or.inl hroot1) hexec2
  have hrun := (ReflTransGen.single hstep1).tail hstep2 |>.tail
    (.env (env_iBlocks ((consistent_freshFile.step hstep1).step hstep2) f2.pi.iBlocks))
  refine ⟨_, hrun, hthree, hheight, hrange,
    (counted_in_safe_runs consistent_freshFile hrun).2 [] 4096 12288 (by decide)
      ⟨by simp, rfl, by rw [hthree]; decide, Or.inr (Or.inr fun first last hfl => ?_), fun _ => ?_⟩⟩
  · obtain ⟨-, rfl⟩ : 1 = first ∧ 2 = last := by simpa using hrange.symm.trans hfl
    show Below 512 f2.pi.height _ (tree f2.d f2.pi.height f2.pi.root)
    rw [hheight, tree_kids hroot]
    refine fun i hne => ⟨?_, trivial⟩
    have hi : i < 512 := by
      by_contra hge
      exact hne (if_neg hge)
    rw [kidsOf_eq i hi, ne_eq, tree_eq_empty_iff] at hne
    rw [pow_zero, mul_one]
    exact le_max_of_le_left (not_lt.mp fun hlt => hne (habove i hi hlt))
  · show Fruitful 512 (tree f2.d f2.pi.height f2.pi.root)
    rw [hheight, tree_kids hroot]
    refine ⟨⟨0, by norm_num, ?_⟩, fun i hi => ?_⟩
    · rw [kidsOf_eq 0 (by norm_num), tree_leaf hmapped]
      simp
    · rw [kidsOf_eq i hi]
      cases f2.d.node (pmfsGetBlocknr f2.pi.root) i <;> trivial
/-- An extent from block 512 on is not counted, and cutting the file behind its third block ends in
the `BUG_ON`. -/
theorem extent_not_counted : Consistent freshFile ∧
    ∃ f, ReflTransGen (Step fun _ _ _ => True) freshFile f ∧ f.pi.iBlocks = 0 ∧
    leaves 512 (treeOf f.d f.pi) ≠ 0 ∧ BugOn [] f 12288 f.pi.iSize ∧
    (Op.truncate 12288 f.pi.iSize 1).exec (fun _ => 0) [] f = none := by
  obtain ⟨f, hexec, hzero, hheight, hroot, hslot, hrange, ⟨d', root, freed⟩, htrunc, hcount, hne⟩ :
      ∃ f ∈ (Op.index (ssdPair 512)).exec (fun _ => 0) [] freshFile, f.pi.iBlocks = 0 ∧
      f.pi.height = 1 ∧
        f.pi.root ≠ 0 ∧ f.d.node (pmfsGetBlocknr f.pi.root) 1 ≠ 0 ∧
        truncRange f.pi 12288 f.pi.iSize = some (3, 511) ∧
        ∃ r ∈ truncTree (withSlab [] f).d f.pi 3 511,
          truncIblocks r.1 f.pi f.inode.iBlocks r.2.1 r.2.2 = 0 ∧ r.2.1 ≠ 0 := by
    decide +kernel
  have hbug : BugOn [] f 12288 f.pi.iSize := ⟨3, 511, hrange, d', root, freed, htrunc, hcount, hne⟩
  refine ⟨consistent_freshFile, f, .single (.op _ _ _ trivial hexec), hzero,
    fun hleaves => ?_, hbug, bugOn_stops _ hbug⟩
  rw [treeOf, hheight, tree_kids hroot] at hleaves
  have hone := Finset.sum_eq_zero_iff.mp hleaves 1 (by simp)
  rw [kidsOf_eq 1 (by norm_num), tree_leaf hslot] at hone
  exact absurd hone one_ne_zero

end Pmfs.Replay.Counter
