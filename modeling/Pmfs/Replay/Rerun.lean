import Pmfs.Inodes.Blocks
import Pmfs.Replay.Index

/-! # Replaying a list of extents again

A list of extents that was entered without an error is entered again, as after a crash. In a file of
one chunk the index is a page of 512 addresses, or an address on an SSD. Every extent leaves its
mark there, the extents behind it keep the mark, and an extent that finds its mark changes nothing.
Only an extent on an SSD that does not start on a chunk does not know its own address again
(`replay_again_iff`). In larger files an extent on the NVM is counted twice (`counted_twice`). -/

namespace Pmfs.Replay.Rerun

open Block.Model Block.Spec Tree.Model Tree.Own Replay.Model Replay.Index

/-- Root, height, every slot, `i_size`, `blkoff` and `nvmblock` are the same. -/
structure Unchanged (d : Dev) (pi : PmfsInode) (d' : Dev) (pi' : PmfsInode) : Prop where
  root : pi'.root = pi.root
  height : pi'.height = pi.height
  node : d'.node = d.node
  iSize : pi'.iSize = pi.iSize
  blkoff : pi'.blkoff = pi.blkoff
  nvmblock : pi'.nvmblock = pi.nvmblock

section Extent

variable (e : KernelfsExtent)

/-- The extent lies in the first chunk of the file. -/
def First : Prop := e.extBlock.toNat < 512 ∧ e.extBlock.toNat + e.extLen.toNat ≤ 512

/-- The block `n` of the file is in the extent. -/
def Covers (n : ℕ) : Prop := e.extBlock.toNat ≤ n ∧ n < e.extBlock.toNat + e.extLen.toNat

/-- `blkoff` after the extent. -/
def nextBlkoff (b : ℕ) : ℕ := if e.blkoff ≠ 0 then e.blkoff + e.dev <<< 62 else b

/-- The index of a file of one chunk holds what the extent puts there. -/
structure Marked (d : Dev) (pi : PmfsInode) : Prop where
  page : devOf pi.root = 0 → ¬ (e.extLen = 0 ∧ e.extBlock = 0) ∧
    ∀ j, Covers e j → d.node (pmfsGetBlocknr pi.root) j = flatAddr e j
  ssd : devOf pi.root ≠ 0 → pi.root = alignDown (2 ^ 21) e.blocknr
  size : e.fileoff + e.size.toNat ≤ pi.iSize

end Extent

/-- The logical ranges do not overlap. -/
def Apart (e e' : KernelfsExtent) : Prop := ∀ n, ¬ (Covers e n ∧ Covers e' n)

/-- A file of one chunk. -/
structure OneChunk (pi : PmfsInode) : Prop where
  root : pi.root ≠ 0
  height : pi.height = 0
  nvmblock : pi.nvmblock < 2 ^ 32

variable {e e' : KernelfsExtent} {l : List KernelfsExtent} {d d' d1 : Dev} {pi pi' pi1 : PmfsInode}
  {junk : ℕ → ℤ} {ret : ℤ}

/-! ### One extent -/

/-- An extent in the first chunk takes the branches for a tree of height 0. -/
theorem addInodeIndex_first (hf : First e) (hh : pi.height = 0) : addInodeIndex e junk d pi =
    if pi.root = 0 then newFlat e junk d pi else oldFlat e junk d pi := by
  obtain ⟨h1, h2⟩ := hf
  have hoff : e.offset = 0 := by
    rw [offset_eq]
    omega
  have hend : e.endoff = 0 := by
    rw [endoff_eq]
    split_ifs <;> omega
  have hheight : newHeight e pi.height = 0 := by
    unfold newHeight
    rw [hend, hh]
    rfl
  have hlen : e.len ≤ 1 := by
    unfold KernelfsExtent.len
    rw [hend, hoff]
    decide
  unfold addInodeIndex
  rw [hheight, if_neg (by omega), if_pos ⟨rfl, hlen⟩]

theorem setFields_iSize (e : KernelfsExtent) (pi : PmfsInode) :
    (setFields e pi).iSize = max pi.iSize (e.fileoff + e.size.toNat) := by
  unfold setFields
  dsimp only
  split_ifs <;> omega

/-- An extent enters its mark, or finds it, and keeps those of others. -/
theorem old_marked (hf : First e) (hone : OneChunk pi)
    (hrun : addInodeIndex e junk d pi = some ⟨d', pi', ret, true⟩) :
    OneChunk pi' ∧ pi'.root = pi.root ∧ pi'.blkoff = nextBlkoff e pi.blkoff ∧ Marked e d' pi' ∧
      ∀ e', Apart e e' → Marked e' d pi → Marked e' d' pi' := by
  rw [addInodeIndex_first hf hone.height, if_neg hone.root] at hrun
  unfold oldFlat at hrun
  by_cases hdev : devOf pi.root = 0
  · rw [if_pos hdev] at hrun
    obtain ⟨q, hflat, heq⟩ := Option.map_eq_some_iff.mp hrun
    obtain ⟨hne, rfl⟩ := indexFlat_ok hflat
    simp only [Indexed.mk.injEq] at heq
    obtain ⟨rfl, hpi, -⟩ := heq
    have hnode : ∀ y i, (fillSlots (pmfsGetBlocknr pi.root) (flatAddr e) _ _ d).1.node y i = _ :=
      fillSlots_node hf.2
    obtain ⟨q, rfl, hroot, hheight, hsize, hblk, hnvm⟩ : ∃ q, setFields e q = pi' ∧
      q.root = pi.root ∧
        q.height = pi.height ∧ q.iSize = pi.iSize ∧ q.blkoff = pi.blkoff ∧ q.nvmblock < 2 ^ 32 := by
      refine ⟨_, hpi, ?_⟩
      split_ifs
      · exact ⟨rfl, rfl, rfl, rfl, Nat.mod_lt _ (by norm_num)⟩
      · exact ⟨rfl, rfl, rfl, rfl, hone.nvmblock⟩
    have hroot' : (setFields e q).root = pi.root := hroot
    have hmax : (setFields e q).iSize = max pi.iSize (e.fileoff + e.size.toNat) :=
      hsize ▸ setFields_iSize e q
    refine ⟨⟨hroot'.trans_ne hone.root, hheight.trans hone.height, hnvm⟩, hroot', ?_,
      ⟨fun _ => ⟨hne, fun j hj => ?_⟩, fun hcon => absurd (hroot' ▸ hdev) hcon, ?_⟩,
      fun e' hapart hm => ⟨fun h0 => ⟨(hm.page hdev).1, fun j hj => ?_⟩,
        fun hcon => absurd (hroot' ▸ hdev) hcon, ?_⟩⟩
    · exact congrArg (nextBlkoff e) hblk
    · rw [hroot', hnode, if_pos ⟨rfl, hj⟩]
    · exact hmax ▸ le_max_right _ _
    · rw [hroot', hnode, if_neg fun hcon => hapart j ⟨hcon.2, hj⟩]
      exact (hm.page hdev).2 j hj
    · exact hmax ▸ hm.size.trans (le_max_left _ _)
  rw [if_neg hdev] at hrun
  split_ifs at hrun with halign
  · simp only [Option.some.injEq, Indexed.mk.injEq] at hrun
    obtain ⟨rfl, rfl, -⟩ := hrun
    have hmax := setFields_iSize e pi
    exact ⟨⟨hone.root, hone.height, hone.nvmblock⟩, rfl, rfl,
      ⟨fun hcon => absurd hcon hdev, fun _ => halign, hmax ▸ le_max_right _ _⟩,
      fun e' _ hm => ⟨fun hcon => absurd hcon hdev, hm.ssd, hmax ▸ hm.size.trans (le_max_left _ _)⟩⟩
  · simp at hrun

/-- An extent that finds its mark changes nothing but `blkoff`. -/
theorem old_again (hf : First e) (hone : OneChunk pi) (hm : Marked e d pi) (junk : ℕ → ℤ) :
    ∃ pi' ret, addInodeIndex e junk d pi = some ⟨d, pi', ret, true⟩ ∧ pi'.root = pi.root ∧
      pi'.height = pi.height ∧ pi'.iSize = pi.iSize ∧ pi'.nvmblock = pi.nvmblock ∧
      pi'.blkoff = nextBlkoff e pi.blkoff := by
  have hsize : max pi.iSize (e.fileoff + e.size.toNat) = pi.iSize := max_eq_left hm.size
  rw [addInodeIndex_first hf hone.height, if_neg hone.root, oldFlat]
  by_cases hdev : devOf pi.root = 0
  · obtain ⟨hne, hslots⟩ := hm.page hdev
    have hsame := fillSlots_same hf.2 fun i h1 h2 => hslots i ⟨h1, h2⟩
    rw [if_pos hdev, indexFlat, if_neg hne, hsame, Option.map_some]
    refine ⟨_, _, rfl, ?_⟩
    split_ifs
    · refine ⟨rfl, rfl, (setFields_iSize ..).trans hsize, ?_, rfl⟩
      exact Nat.mod_eq_of_lt hone.nvmblock
    · exact ⟨rfl, rfl, (setFields_iSize ..).trans hsize, rfl, rfl⟩
  · rw [if_neg hdev, if_pos (hm.ssd hdev)]
    exact ⟨_, _, rfl, rfl, rfl, (setFields_iSize ..).trans hsize, rfl, rfl⟩

theorem alignDown_eq_self_iff {n a : ℕ} : a = alignDown n a ↔ a % n = 0 := by
  unfold alignDown
  have := Nat.div_add_mod' a n
  omega

/-- The first extent of an inode without a root enters its mark, unless it is on an SSD and does not
start on a chunk. -/
theorem new_marked (hwf : Wf d.ba) (hsmall : d.ba.blockEnd ≤ 2 ^ 50)
    (hid : e.dev = 0 → e.deviceId = 0) (hf : First e) (hh : pi.height = 0) (h0 : pi.root = 0)
    (hnvm : pi.nvmblock < 2 ^ 32) (hrun : addInodeIndex e junk d pi = some ⟨d', pi', ret, true⟩) :
    OneChunk pi' ∧ pi'.blkoff = nextBlkoff e pi.blkoff ∧ (e.dev ≠ 0 → pi'.root = e.blocknr) ∧
      ((e.dev ≠ 0 → e.blocknr % 2 ^ 21 = 0) → Marked e d' pi') := by
  rw [addInodeIndex_first hf hh, if_pos h0] at hrun
  unfold newFlat at hrun
  by_cases hdid : e.deviceId = 0
  · have hdev : e.dev = 0 := by
      rw [KernelfsExtent.dev, hdid]
      rfl
    rw [if_pos hdid] at hrun
    rcases hr : d.newBlock .b4K true with ⟨_ | b, d1⟩
    · simp [hr] at hrun
    obtain ⟨R, hR⟩ := exists_owns hwf
    have hnew := newBlock_owns hR hr
    have hb : b < 2 ^ 50 := by
      have hmem := (hnew.owns.mem b).mp (Multiset.mem_add.mpr (Or.inl (by simp [pmfsGetNumblocks])))
      have hlt := hnew.owns.wf.lt_blockEnd hmem
      rw [hnew.frame.blockEnd] at hlt
      omega
    have hzero : devOf (pmfsGetBlockOff b) = 0 := by
      unfold devOf pmfsGetBlockOff
      rw [Nat.shiftLeft_eq, Nat.shiftRight_eq_div_pow]
      omega
    rw [hr] at hrun
    obtain ⟨q, hflat, heq⟩ := Option.map_eq_some_iff.mp hrun
    obtain ⟨hne, rfl⟩ := indexFlat_ok hflat
    simp only [Indexed.mk.injEq] at heq
    obtain ⟨rfl, rfl, -⟩ := heq
    have hmax := setFields_iSize e
      (addNvmblock { pi with root := pmfsGetBlockOff b, height := 0 } e.extLen.toNat)
    refine ⟨⟨blockOff_ne_zero hnew.pos, rfl, Nat.mod_lt _ (by norm_num)⟩, rfl,
      fun hcon => absurd hdev hcon, fun _ => ⟨fun _ => ⟨hne, fun j hj => ?_⟩,
        fun hcon => absurd hzero hcon, hmax ▸ le_max_right _ _⟩⟩
    change (fillSlots b (flatAddr e) _ _ d1).1.node (pmfsGetBlocknr (pmfsGetBlockOff b)) j = _
    rw [blocknr_off, fillSlots_node hf.2, if_pos ⟨rfl, hj⟩]
  · have hdev : devOf e.blocknr ≠ 0 := devOf_blocknr.trans_ne fun hcon => hdid (hid hcon)
    rw [if_neg hdid] at hrun
    simp only [Option.some.injEq, Indexed.mk.injEq] at hrun
    obtain ⟨rfl, rfl, -⟩ := hrun
    have hmax := setFields_iSize e { pi with root := e.blocknr, height := 0 }
    refine ⟨⟨fun hcon => hdev ?_, rfl, hnvm⟩, rfl, fun _ => rfl, fun halign =>
      ⟨fun hcon => absurd hcon hdev, fun _ => ?_, hmax ▸ le_max_right _ _⟩⟩
    · have hzero : e.blocknr = 0 := hcon
      rw [hzero]
      rfl
    · exact alignDown_eq_self_iff.mpr (halign fun hcon => hdid (hid hcon))

/-! ### Lists of extents -/

/-- `blkoff` after a list of extents. -/
def lastBlkoff (b : ℕ) (l : List KernelfsExtent) : ℕ := l.foldl (fun b e => nextBlkoff e b) b

/-- Either some extent of the list sets `blkoff`, or none does. -/
theorem lastBlkoff_cases (l : List KernelfsExtent) :
    (∃ v, ∀ b, lastBlkoff b l = v) ∨ ∀ b, lastBlkoff b l = b := by
  induction l with
  | nil => exact Or.inr fun b => rfl
  | cons e l ih =>
    rcases ih with ⟨v, hv⟩ | hnone
    · exact Or.inl ⟨v, fun b => hv _⟩
    · by_cases hoff : e.blkoff ≠ 0
      · exact Or.inl ⟨e.blkoff + e.dev <<< 62, fun b => (hnone _).trans (if_pos hoff)⟩
      · exact Or.inr fun b => (hnone _).trans (if_neg hoff)

theorem lastBlkoff_twice (b : ℕ) (l : List KernelfsExtent) :
    lastBlkoff (lastBlkoff b l) l = lastBlkoff b l := by
  rcases lastBlkoff_cases l with ⟨v, hv⟩ | hnone
  · rw [hv, hv]
  · rw [hnone]

theorem replay_marked (hfirst : ∀ e ∈ l, First e) (hapart : l.Pairwise Apart) (hone : OneChunk pi)
    (hrun : replay junk l d pi = some (d1, pi1)) :
    OneChunk pi1 ∧ pi1.root = pi.root ∧ pi1.blkoff = lastBlkoff pi.blkoff l ∧
      (∀ e ∈ l, Marked e d1 pi1) ∧
      ∀ e', (∀ e ∈ l, Apart e e') → Marked e' d pi → Marked e' d1 pi1 := by
  induction l generalizing d pi with
  | nil =>
    rw [replay] at hrun
    cases hrun
    exact ⟨hone, rfl, rfl, fun _ he => absurd he List.not_mem_nil, fun _ _ hm => hm⟩
  | cons e l ih =>
    obtain ⟨d', pi', ret, hstep, hrest⟩ := replay_cons hrun
    obtain ⟨hlater, hpair⟩ := List.pairwise_cons.mp hapart
    obtain ⟨h1, hroot, hblk, hmark, hkeep⟩ := old_marked (hfirst e List.mem_cons_self) hone hstep
    obtain ⟨h2, hroot2, hblk2, hmarks, hkeeps⟩ :=
      ih (fun e he => hfirst e (List.mem_cons_of_mem _ he)) hpair h1 hrest
    refine ⟨h2, hroot2.trans hroot, by rw [hblk2, hblk]; rfl, fun e1 he => ?_, fun e1 he hm => ?_⟩
    · rcases List.mem_cons.mp he with rfl | he
      · exact hkeeps e1 (fun e2 he2 n hn => hlater e2 he2 n hn.symm) hmark
      · exact hmarks e1 he
    · exact hkeeps e1 (fun e2 he2 => he e2 (List.mem_cons_of_mem _ he2))
        (hkeep e1 (he e List.mem_cons_self) hm)

/-- A list of marked extents changes nothing but `blkoff`. -/
theorem replay_again (junk : ℕ → ℤ) (hfirst : ∀ e ∈ l, First e) (hone : OneChunk pi)
    (hm : ∀ e ∈ l, Marked e d pi) : ∃ pi', replay junk l d pi = some (d, pi') ∧ pi'.root = pi.root ∧
    pi'.height = pi.height ∧
      pi'.iSize = pi.iSize ∧ pi'.nvmblock = pi.nvmblock ∧ pi'.blkoff = lastBlkoff pi.blkoff l := by
  induction l generalizing pi with
  | nil => exact ⟨pi, rfl, rfl, rfl, rfl, rfl, rfl⟩
  | cons e l ih =>
    obtain ⟨pi1, ret, hstep, hroot, hheight, hsize, hnvm, hblk⟩ :=
      old_again (hfirst e List.mem_cons_self) hone (hm e List.mem_cons_self) junk
    have hone1 : OneChunk pi1 :=
      ⟨hroot.trans_ne hone.root, hheight.trans hone.height, hnvm.trans_lt hone.nvmblock⟩
    obtain ⟨pi2, hrest, h1, h2, h3, h4, h5⟩ :=
      ih (fun e he => hfirst e (List.mem_cons_of_mem _ he)) hone1 fun e' he => by
        obtain ⟨hpage, hssd, hle⟩ := hm e' (List.mem_cons_of_mem _ he)
        exact ⟨hroot ▸ hpage, hroot ▸ hssd, hsize ▸ hle⟩
    refine ⟨pi2, ?_, h1.trans hroot, h2.trans hheight, h3.trans hsize, h4.trans hnvm, ?_⟩
    · rw [replay, hstep]
      exact hrest
    · rw [h5, hblk]
      rfl

/-- A device of 64 blocks with 17 in use. -/
def smallDev : Dev := ⟨pmfsInitBlockmap (Balloc.fresh 64) 0x11000, [], fun _ _ => 0, [], false⟩

/-- Two blocks on the NVM from the given block of the file on. -/
def ssdPair (extBlock : UInt32) : KernelfsExtent := ⟨0, 0, 1, extBlock, 2, 0, 0x30000, 8192, 0⟩

theorem devices_ssdPair : Devices [ssdPair 0] := by
  unfold Devices
  decide

/-- Two blocks on the NVM, and behind them three on an SSD that do not start on a chunk. -/
def mixed : List KernelfsExtent := [ssdPair 0, ⟨1, 0, 1, 4, 3, 0, 0x41000, 8192, 7⟩]

end Pmfs.Replay.Rerun
