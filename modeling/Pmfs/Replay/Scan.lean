import Pmfs.Lib.Run
import Pmfs.Mount.Scan
import Pmfs.Replay.Typing

/-! # The full scan after a replay

The full scan of a mount takes every pointer in a tree for the offset of a block and notes the block
in a bitmap. When the trees were built by `__pmfs_alloc_blocks` and by `add_inode_index` for extents
on the NVM, their pages are typed, so they lie on the device and the bits in the bitmaps
(`scan_inside`). An address on an SSD lies far behind the bitmap (`ssd_outside`). -/

namespace Pmfs.Replay.Scan

open Relation Function
open Lib.Loop Lib.Run Block.Model Block.Spec Tree.Model Tree.Own Mount.Model
open Mount.Scan Mount.SaveLoad Replay.Model Replay.Typing

variable {lvl : ℕ → Option ℕ} {d : Dev} {bm : ScanBitmap} {t : BlkType} {n h block : ℕ}

/-! ### The bits -/

/-- The bitmaps have bits for the blocks of a device of `n` blocks. -/
def Sized (n : ℕ) (bm : ScanBitmap) : Prop := ∀ t, n / pmfsGetNumblocks t < (get bm t).size * 8

theorem Sized.set (hbm : Sized n bm) (t : BlkType) (hlt : pmfsGetBlocknr block < n) :
    ∃ bm', bm.set t block = some bm' ∧ Sized n bm' := by
  have hidx : block >>> blkTypeToShift t < (get bm t).size * 8 := by
    rw [shiftRight_blkType]
    exact (Nat.div_le_div_right hlt.le).trans_lt (hbm t)
  obtain ⟨bm', hset, hget⟩ := set_get hidx
  refine ⟨bm', hset, fun t' => ?_⟩
  rw [hget t']
  split_ifs with heq
  · exact heq ▸ hbm t
  · exact hbm t'

theorem typed_lt (ht : Typed False lvl d) (hb : lvl (pmfsGetBlocknr block) = some h) :
    pmfsGetBlocknr block < d.ba.blockEnd :=
  ht.wf.lt_blockEnd (ht.used _ h hb)

theorem slot_page {page k i : ℕ} (ht : Typed False lvl d) (hpage : lvl page = some (k + 1))
    (h0 : d.node page i ≠ 0) : lvl (pmfsGetBlocknr (d.node page i)) = some k :=
  ((ht.slot page k i hpage).resolve_left h0).resolve_right fun hcon => hcon.2.2

/-- The loop of a crawl over the slots of a page. -/
theorem crawlSlots_inside {σ : Type} {rec : ℕ → σ → Option σ} {I : σ → Prop} {page k : ℕ} {s : σ}
    (ht : Typed False lvl d) (hpage : lvl page = some (k + 1))
    (hrec : ∀ v s, lvl (pmfsGetBlocknr v) = some k → I s → ∃ s', rec v s = some s' ∧
    I s') (hs : I s) : ∃ s', forLoop (crawlSlot (d.node page) rec) 0 512 s = some (s', none) ∧
    I s' := by
  refine forLoop_total (I := fun _ s => I s) (fun j s _ _ hs => ?_) hs
  unfold crawlSlot
  by_cases h0 : d.node page j = 0
  · rw [if_pos h0]
    exact ⟨s, rfl, hs⟩
  · obtain ⟨s', hrun, hs'⟩ := hrec _ s (slot_page ht hpage h0) hs
    rw [if_neg h0, hrun]
    exact ⟨s', rfl, hs'⟩

theorem crawl_inside (ht : Typed False lvl d) (hb : lvl (pmfsGetBlocknr block) = some h)
    (hbm : Sized d.ba.blockEnd bm) :
    ∃ bm', pmfsInodeCrawlRecursive d.node t h block bm = some bm' ∧ Sized d.ba.blockEnd bm' := by
  induction h generalizing block bm with
  | zero => exact hbm.set t (typed_lt ht hb)
  | succ k ih =>
    obtain ⟨bm1, hset, hbm1⟩ := hbm.set .b4K (typed_lt ht hb)
    obtain ⟨bm2, hloop, hbm2⟩ := crawlSlots_inside ht hb (fun v bm hv hbm => ih hv hbm) hbm1
    refine ⟨bm2, ?_, hbm2⟩
    rw [pmfsInodeCrawlRecursive, hset]
    simp only [hloop, Option.map_some]

theorem inodeCrawl_inside {pi : PmfsInode} (ht : Typed False lvl d)
    (hroot : Ptr False lvl pi.height pi.root) (hbm : Sized d.ba.blockEnd bm) :
    ∃ bm', pmfsInodeCrawl d.node bm pi = some bm' ∧ Sized d.ba.blockEnd bm' := by
  unfold pmfsInodeCrawl
  by_cases h0 : pi.root = 0
  · exact ⟨bm, if_pos h0, hbm⟩
  · rw [if_neg h0]
    exact crawl_inside ht ((hroot.resolve_left h0).resolve_right fun hcon => hcon.2.2) hbm

theorem inodes_inside {inode : ℕ → PmfsInode} {s : Crawl} (block n : ℕ) (ht : Typed False lvl d)
    (hin : ∀ off, Ptr False lvl (inode off).height (inode off).root)
    (hs : Sized d.ba.blockEnd s.bm) : ∃ s', forLoop (crawlInode d.node inode block) 0 n s =
    some (s', none) ∧ Sized d.ba.blockEnd s'.bm := by
  refine forLoop_total (I := fun _ (s : Crawl) => Sized d.ba.blockEnd s.bm)
    (fun j s _ _ hs => ?_) hs
  unfold crawlInode
  dsimp only
  cases emptyInode (inode (block + 128 * j)) with
  | true => exact ⟨s, rfl, hs⟩
  | false =>
    obtain ⟨bm', hrun, hbm'⟩ := inodeCrawl_inside ht (hin (block + 128 * j)) hs
    rw [hrun]
    exact ⟨_, rfl, hbm'⟩

theorem tableCrawl_inside {inode : ℕ → PmfsInode} {s : Crawl} (ht : Typed False lvl d)
    (hin : ∀ off, Ptr False lvl (inode off).height (inode off).root)
    (hb : lvl (pmfsGetBlocknr block) = some h) (hs : Sized d.ba.blockEnd s.bm) :
    ∃ s', pmfsInodeTableCrawlRecursive d.node inode t h block s = some s' ∧
    Sized d.ba.blockEnd s'.bm := by
  induction h generalizing block s with
  | zero =>
    obtain ⟨bm1, hset, hbm1⟩ := hs.set (if t = .b2M then .b2M else .b4K) (typed_lt ht hb)
    obtain ⟨s', hloop, hs'⟩ := inodes_inside block (inodesPerBlock t)
      (s := { s with bm := bm1, sInodesCount := s.sInodesCount + UInt32.ofNat (inodesPerBlock t) })
      ht hin hbm1
    refine ⟨s', ?_, hs'⟩
    rw [pmfsInodeTableCrawlRecursive, hset]
    simp only [hloop, Option.map_some]
  | succ k ih =>
    obtain ⟨bm1, hset, hbm1⟩ := hs.set .b4K (typed_lt ht hb)
    obtain ⟨s2, hloop, hs2⟩ := crawlSlots_inside
      (s := { s with bm := bm1 }) ht hb (fun v s hv hs => ih hv hs) hbm1
    refine ⟨s2, ?_, hs2⟩
    rw [pmfsInodeTableCrawlRecursive, hset]
    simp only [hloop, Option.map_some]

/-! ### Runs -/

/-- A step of a run: allocation for the inode table or for the inode at `off`, or an extent for it.
-/
inductive Op where
  | table (n m : ℕ) (zero : Bool)
  | alloc (off n m : ℕ) (zero : Bool)
  | index (off : ℕ) (e : KernelfsExtent)

/-- The step, with the outcomes of the coming blocknode allocations. -/
def Op.exec (junk : ℕ → ℤ) (slab : List Bool) (sb : Sb) : Op → Option Sb
  | .table n m zero => (__pmfsAllocBlocks { sb.d with slab := slab } sb.table n m zero).map fun r =>
      { sb with d := r.1, table := r.2.1 }
  | .alloc off n m zero =>
      (__pmfsAllocBlocks { sb.d with slab := slab } (sb.inode off) n m zero).map fun r =>
      { sb with d := r.1, inode := update sb.inode off r.2.1 }
  | .index off e => (addInodeIndex e junk { sb.d with slab := slab } (sb.inode off)).map fun r =>
      { sb with d := r.d, inode := update sb.inode off r.pi }

/-- One step with the property `P`. -/
def Step (P : Op → Prop) (sb sb' : Sb) : Prop :=
  ∃ op, P op ∧ ∃ junk slab, op.exec junk slab sb = some sb'

/-- Extents are on the NVM, and in one index page. -/
def Op.Nvm : Op → Prop
  | .index _ e => e.deviceId = 0 ∧ e.findex + e.extLen.toNat ≤ 512
  | _ => True

/-- No inode has a block yet, on a device of `initsize` bytes. -/
structure Fresh (initsize : ℕ) (sb : Sb) : Prop where
  wf : Wf sb.d.ba
  blockEnd : sb.d.ba.blockEnd = initsize >>> 12
  table : sb.table.root = 0
  inode : ∀ off, (sb.inode off).root = 0

/-- The bits that the full scan sets lie in its bitmaps. -/
def Inside (initsize : ℕ) (sb : Sb) : Prop := ∀ transOk,
  (pmfsInodeTableCrawlRecursive sb.d.node (cleared sb transOk).inode sb.table.iBlkType
    sb.table.height sb.table.root
    ⟨newBitmaps initsize, sb.counters.sInodesCount, sb.counters.sInodesUsedCount⟩).isSome = true

/-- The trees of all inodes are typed. -/
structure Inv (initsize : ℕ) (lvl : ℕ → Option ℕ) (sb : Sb) : Prop where
  typed : Typed False lvl sb.d
  blockEnd : sb.d.ba.blockEnd = initsize >>> 12
  table : Ptr False lvl sb.table.height sb.table.root
  inode : ∀ off, Ptr False lvl (sb.inode off).height (sb.inode off).root

variable {initsize : ℕ} {sb sb' : Sb}

theorem Fresh.inv (h : Fresh initsize sb) : Inv initsize (fun _ => none) sb :=
  ⟨⟨h.wf, fun _ _ hcon => by simp at hcon, fun _ _ _ hcon => by simp at hcon⟩,
    h.blockEnd, Or.inl h.table, fun off => Or.inl (h.inode off)⟩

theorem Inv.update {off : ℕ} {d' : Dev} {pi : PmfsInode} {slab : List Bool}
    (h : Inv initsize lvl sb) (hk : Keeps False lvl { sb.d with slab := slab } d' pi) :
    ∃ lvl', Inv initsize lvl' { sb with d := d', inode := update sb.inode off pi } := by
  obtain ⟨lvl', hg, hptr⟩ := hk
  refine ⟨lvl', hg.typed, hg.blockEnd.trans h.blockEnd, h.table.ext hg.ext, fun o => ?_⟩
  by_cases ho : o = off
  · subst ho
    simp only [update_self]
    exact hptr
  · simp only [update_of_ne ho]
    exact (h.inode o).ext hg.ext

theorem Typed.slab (slab : List Bool) (ht : Typed False lvl d) :
    Typed False lvl { d with slab := slab } :=
  ht.congr rfl fun _ _ _ _ => rfl

theorem Inv.step (h : Inv initsize lvl sb) (hstep : Step Op.Nvm sb sb') :
    ∃ lvl', Inv initsize lvl' sb' := by
  obtain ⟨op, hP, junk, slab, hexec⟩ := hstep
  have ht := Typed.slab slab h.typed
  cases op with
  | table n m zero =>
    obtain ⟨⟨d', pi, o⟩, hrun, rfl⟩ := Option.map_eq_some_iff.mp hexec
    obtain ⟨lvl', hg, hptr⟩ := alloc_typed ht h.table hrun
    exact ⟨lvl', hg.typed, hg.blockEnd.trans h.blockEnd, hptr, fun off => (h.inode off).ext hg.ext⟩
  | alloc off n m zero =>
    obtain ⟨⟨d', pi, o⟩, hrun, rfl⟩ := Option.map_eq_some_iff.mp hexec
    exact h.update (alloc_typed ht (h.inode off) hrun)
  | index off e =>
    obtain ⟨r, hrun, rfl⟩ := Option.map_eq_some_iff.mp hexec
    have hdev : e.dev = 0 := by
      rw [KernelfsExtent.dev, hP.1]
      rfl
    exact h.update (addInodeIndex_typed (fun _ => hP.1) (fun hcon => absurd hdev hcon) ht
      (h.inode off) hrun (Or.inl hP.2)).1

theorem Inv.inside (h : Inv initsize lvl sb) (htable : sb.table.root ≠ 0) : Inside initsize sb := by
  intro transOk
  have hin : ∀ off, Ptr False lvl ((cleared sb transOk).inode off).height
    ((cleared sb transOk).inode off).root := by
    intro off
    by_cases hoff : off = sb.in0
    · subst hoff
      simp only [cleared, Sb.setPi, update_self, pmfsClearDatablockInode]
      split_ifs
      · exact Or.inl rfl
      · exact h.inode _
    · simp only [cleared, Sb.setPi, update_of_ne hoff]
      exact h.inode off
  have hsized : Sized sb.d.ba.blockEnd (newBitmaps initsize) := by
    rw [h.blockEnd]
    exact (marked_new initsize).size
  have hroot := (h.table.resolve_left htable).resolve_right fun hcon => hcon.2.2
  obtain ⟨s', hrun, -⟩ := tableCrawl_inside (t := sb.table.iBlkType)
    (s := ⟨newBitmaps initsize, sb.counters.sInodesCount, sb.counters.sInodesUsedCount⟩) h.typed
    hin hroot hsized
  rw [hrun]
  rfl

theorem inv_run (hstart : Fresh initsize sb) (hrun : ReflTransGen (Step Op.Nvm) sb sb') :
    ∃ lvl, Inv initsize lvl sb' := by
  induction hrun with
  | refl => exact ⟨_, hstart.inv⟩
  | tail _ hstep ih =>
    obtain ⟨lvl, hinv⟩ := ih
    exact hinv.step hstep

/-- **Main result.** When all extents are on the NVM, the full scan stays in its bitmaps, in every
state with an inode table of every run. -/
theorem scan_inside (hstart : Fresh initsize sb) (hrun : ReflTransGen (Step Op.Nvm) sb sb')
    (htable : sb'.table.root ≠ 0) : Inside initsize sb' := by
  obtain ⟨lvl, hinv⟩ := inv_run hstart hrun
  exact hinv.inside htable

/-- A device of 64 blocks on which no inode has a block. The inode 384 of a table at block 17 is a
file. -/
def noBlocks : Sb where
  d := ⟨pmfsInitBlockmap (Balloc.fresh 64) 0x11000, [], fun _ _ => 0, [], false⟩
  table := zeroInode
  inode := fun off => if off = 17 * 4096 + 384 then
    { zeroInode with iMode := 33188, iLinksCount := 1 } else zeroInode
  in0 := 17 * 4096 + 256
  counters := ⟨0, 0, 0, 0⟩
  super := ⟨0, 0, 0, 0, 0, 0⟩

theorem fresh_noBlocks : Fresh 0x40000 noBlocks := by
  refine ⟨wf_init (by decide) (by decide), by decide, rfl, fun off => ?_⟩
  simp only [noBlocks]
  split_ifs <;> rfl

/-- Two blocks of the device with the given number, from block 512 of the file on. -/
def chunkOne (deviceId : UInt8) : KernelfsExtent := ⟨deviceId, 0, 1, 512, 2, 0, 0x30000, 8192, 0⟩

/-- The inode table gets a block, and the file an extent. -/
def steps (deviceId : UInt8) : List Op :=
  [.table 0 1 true, .index (17 * 4096 + 384) (chunkOne deviceId)]

instance : DecidablePred Op.Nvm
  | .table .. => inferInstanceAs (Decidable True)
  | .alloc .. => inferInstanceAs (Decidable True)
  | .index _ e => inferInstanceAs (Decidable (e.deviceId = 0 ∧ _))

theorem scan_inside_nvm : ∃ sb, ReflTransGen (Step Op.Nvm) noBlocks sb ∧ sb.FindsIn0 ∧
    (sb.inode (17 * 4096 + 384)).height = 1 ∧ Inside 0x40000 sb := by
  obtain ⟨sb, hrun, htable, hprops⟩ : ∃ sb ∈ run (fun sb op => Op.exec (fun _ => 0) [] sb op)
      (fun _ op => op.Nvm) noBlocks (steps 0), sb.table.root ≠ 0 ∧ sb.FindsIn0 ∧
        (sb.inode (17 * 4096 + 384)).height = 1 := by decide +kernel
  have hsteps : ReflTransGen (Step Op.Nvm) noBlocks sb :=
    run_rel (fun _ op _ hP hexec => ⟨op, hP, _, _, hexec⟩) hrun
  exact ⟨sb, hsteps, hprops.1, hprops.2, scan_inside fresh_noBlocks hsteps htable⟩

/-- The address of an extent on an SSD is taken for a block. -/
theorem ssd_outside : Fresh 0x40000 noBlocks ∧ ∃ sb r, Step (fun _ => True) noBlocks sb ∧
    addInodeIndex (chunkOne 1) (fun _ => 0) { sb.d with slab := [] }
    (sb.inode (17 * 4096 + 384)) = some r ∧ r.whole = true ∧ sb.table.root ≠ 0 ∧ sb.FindsIn0 ∧
    ¬ Inside 0x40000 { sb with d := r.d, inode := update sb.inode (17 * 4096 + 384) r.pi } := by
  obtain ⟨sb, hstep, htable, hin0, r, hr, hwhole, hnone⟩ :
      ∃ sb ∈ (Op.table 0 1 true).exec (fun _ => 0) [] noBlocks, sb.table.root ≠ 0 ∧ sb.FindsIn0 ∧
      ∃ r ∈ addInodeIndex (chunkOne 1) (fun _ => 0) { sb.d with slab := [] }
      (sb.inode (17 * 4096 + 384)),
        r.whole = true ∧ (pmfsInodeTableCrawlRecursive r.d.node
          (cleared { sb with d := r.d, inode := update sb.inode (17 * 4096 + 384) r.pi } true).inode
          sb.table.iBlkType sb.table.height sb.table.root
          ⟨newBitmaps 0x40000, sb.counters.sInodesCount, sb.counters.sInodesUsedCount⟩).isSome ≠
          true := by
    decide +kernel
  exact ⟨fresh_noBlocks, sb, r, ⟨_, trivial, _, _, hstep⟩, hr, hwhole, htable, hin0,
    fun hcon => hnone (hcon true)⟩

end Pmfs.Replay.Scan
