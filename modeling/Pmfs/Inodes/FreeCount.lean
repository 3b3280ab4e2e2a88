import Pmfs.Block.Balance
import Pmfs.Inodes.Model
import Pmfs.Tree.Keeps

/-! # What the count of free blocks means

`pmfs_init_blockmap` takes 100GB off `num_free_blocks` for the user-space file system, whatever the
size of the device, and leaves the blocks themselves to the allocator. In every state of every run
the count is the number of blocks that are not in use less these 100GB, as a machine word
(`inv_run`). So it means something exactly as long as that is not negative (`meaningful_iff`), which
it is at once on a device of 100GB or less (`small_device_wraps`). -/

namespace Pmfs.Inodes.FreeCount

open Relation
open Lib.Intervals Block.Model Block.Spec Block.Balance Tree.Model Tree.Keeps
open Inodes.Model

/-- The 4K blocks that `pmfs_init_blockmap` takes off the count: 100GB. -/
def ufsBlocks : ℕ := 25 * 1024 * 1024

/-- The count has not wrapped, is at most the size of the device, and when it is not 0 there is a
block. -/
structure Meaningful (s : Balloc) : Prop where
  unwrapped : (s.numFreeBlocks.toNat : ℤ) = s.blockEnd - ufsBlocks - (inUse s).ncard
  le : s.numFreeBlocks.toNat ≤ s.blockEnd
  succeeds : 0 < s.numFreeBlocks → ∀ ok, ∃ a s', pmfsNewBlock s .b4K ok = (.ok a, s')

/-- A call of the allocator: `pmfs_new_block`, or `pmfs_free_block` for blocks in use. Blocknodes
may run out. -/
inductive Step : Balloc → Balloc → Prop
  | new (s : Balloc) (t : BlkType) (ok : Bool) : Step s (pmfsNewBlock s t ok).2
  | free {s s' : Balloc} {blocknr : ℕ} {t : BlkType} {ok : Bool} (hpos : 0 < blocknr)
      (hin : blockRun blocknr t ⊆ inUse s) (h : pmfsFreeBlock s blocknr t ok = some s') : Step s s'

/-- What holds between the calls on a device of `e` blocks. -/
structure Inv (e : ℕ) (s : Balloc) : Prop where
  wf : Wf s
  balanced : Balanced (UInt64.ofNat e - UInt64.ofNat ufsBlocks) s
  blockEnd : s.blockEnd = e

variable {e : ℕ} {ok : Bool} {s s' : Balloc} {t : BlkType}

/-! ### Blocknodes that run out -/

theorem freeBlock_wf {blocknr : ℕ} (hs : Wf s) (hpos : 0 < blocknr)
    (hin : blockRun blocknr t ⊆ inUse s) (h : pmfsFreeBlock s blocknr t ok = some s') : Wf s' ∧
    s'.blockEnd = s.blockEnd := by
  have hnil : HintOk s none := fun p hp => absurd hp (by simp)
  have htrue : ∀ {s'}, pmfsFreeBlock s blocknr t true = some s' → Wf s' ∧
    s'.blockEnd = s.blockEnd := by
    intro s' h
    obtain ⟨s1, hint, hrun, hf, -⟩ := freeBlock_spec hs hnil hpos hin
    rw [pmfsFreeBlock, hrun] at h
    exact Option.some.inj h ▸ ⟨hf.wf, hf.blockEnd⟩
  cases ok with
  | true => exact htrue h
  | false =>
    rw [pmfsFreeBlock, freeBlock_eq hs.canon hs.ne_nil hnil, Option.map_some,
      Option.some.injEq] at h
    have hslab : freeLoop s blocknr t false = freeLoop s blocknr t true ∨
        freeLoop s blocknr t false = ⟨s.blockInuseHead, s.numBlocknodeAllocated, false, none⟩ :=
      Block.Free.freeBlockLoop_noNode _ _ _
    rcases hslab with hloop | hloop
    · refine htrue ?_
      rw [pmfsFreeBlock, freeBlock_eq hs.canon hs.ne_nil hnil, ← h, hloop]
      rfl
    · rw [hloop] at h
      rw [← h]
      exact ⟨⟨hs.canon, hs.first, hs.count⟩, rfl⟩

/-! ### Runs -/

theorem Inv.new (h : Inv e s) (t : BlkType) (ok : Bool) : Inv e (pmfsNewBlock s t ok).2 := by
  obtain ⟨hwf, hbal⟩ : Wf (pmfsNewBlock s t ok).2 ∧ Balanced _ (pmfsNewBlock s t ok).2 :=
    newBlock_balanced h.wf h.balanced
  refine ⟨hwf, hbal, ?_⟩
  rcases newBlock_cases s t ok with ⟨-, heq⟩ | ⟨l, c, low, -, heq⟩ <;> rw [heq] <;> exact h.blockEnd

theorem Inv.step (h : Inv e s) (hstep : Step s s') : Inv e s' := by
  cases hstep with
  | new t ok => exact h.new t ok
  | free hpos hin hrun =>
    obtain ⟨hwf, hend⟩ := freeBlock_wf h.wf hpos hin hrun
    obtain ⟨⟨s1, hint⟩, hfree, rfl⟩ := Option.map_eq_some_iff.mp hrun
    exact ⟨hwf, freeBlock_balanced h.balanced hfree, hend.trans h.blockEnd⟩

theorem inv_init {size jsize numInodes : ℕ} (hsize : pmfsCheckSize size jsize numInodes = true) :
    Inv (size >>> 12) (pmfsInitBlockmap (Balloc.fresh (size >>> 12)) (4096 + jsize)) := by
  have hfit : numUsedBlock (4096 + jsize) ≤ size >>> 12 := by
    unfold pmfsCheckSize at hsize
    simp only [Nat.shiftRight_eq_div_pow, Nat.shiftLeft_eq, numUsedBlock, ge_iff_le,
      decide_eq_true_eq] at hsize ⊢
    split_ifs at hsize <;> omega
  have hpos : 0 < numUsedBlock (4096 + jsize) := by
    rw [numUsedBlock, Nat.shiftRight_eq_div_pow]
    omega
  have hwf : Wf (pmfsInitBlockmap (Balloc.fresh (size >>> 12)) (4096 + jsize)) :=
    wf_init (by omega) hfit
  refine ⟨hwf, ⟨fun i hi => (hwf.canon.inside i hi).2.1, ?_⟩, rfl⟩
  have htotal : total (pmfsInitBlockmap (Balloc.fresh (size >>> 12))
    (4096 + jsize)).blockInuseHead =
      numUsedBlock (4096 + jsize) := by
    simp only [pmfsInitBlockmap, Balloc.fresh, total_cons, total_nil]
    omega
  rw [htotal]
  simp only [pmfsInitBlockmap, Balloc.fresh]
  rw [show (25 * 1024 * 1024 : UInt64) = UInt64.ofNat ufsBlocks from rfl]
  grind

theorem inv_pmfsInit {node : ℕ → ℕ → ℕ} {pis : ℕ → PmfsInode} {inodes : ℕ → Inode}
    {slab : List Bool} {size jsize numInodes mode uid gid now : ℕ} {fs : Fs}
    (h : pmfsInit node pis inodes slab size jsize numInodes mode uid gid now = some fs) :
    Inv (size >>> 12) fs.dev.ba := by
  obtain ⟨hsize, d1, table, sbi, b, d2, htable, hnew, rfl⟩ := init_cases h
  obtain ⟨⟨d, pi, o⟩, hrun, heq⟩ := Option.map_eq_some_iff.mp htable
  cases heq
  have h1 : Inv (size >>> 12) d.ba :=
    alloc_keeps (fun s t ok _ hs => hs.new t ok) rfl (inv_init hsize) hrun
  have h2 : Inv (size >>> 12) (d.newBlock .b4K true).2.ba :=
    newBlock_keeps (t := .b4K) (fun s t ok _ hs => hs.new t ok) true (Or.inl rfl) h1
  rwa [hnew] at h2

theorem inv_run {s0 : Balloc} (h : Inv e s0) (hrun : ReflTransGen Step s0 s) : Inv e s := by
  induction hrun with
  | refl => exact h
  | tail _ hstep ih => exact ih.step hstep

/-! ### The meaning -/

theorem Inv.numFreeBlocks (h : Inv e s) :
    s.numFreeBlocks = UInt64.ofNat e - UInt64.ofNat ufsBlocks - UInt64.ofNat (inUse s).ncard := by
  have htotal := h.balanced.total
  rw [← h.wf.canon.ncard_covered] at htotal
  rw [← htotal, inUse]
  grind

theorem Inv.toNat_numFreeBlocks (h : Inv e s) (he : e < 2 ^ 64)
    (hle : (inUse s).ncard + ufsBlocks ≤ e) :
    s.numFreeBlocks.toNat = e - ufsBlocks - (inUse s).ncard := by
  have hofNat : ∀ {a b : ℕ}, b ≤ a → UInt64.ofNat a - UInt64.ofNat b = UInt64.ofNat (a - b) := by
    intro a b hab
    rw [sub_eq_iff_eq_add, ← UInt64.ofNat_add, Nat.sub_add_cancel hab]
  rw [h.numFreeBlocks, hofNat (by omega), hofNat (by omega), UInt64.toNat_ofNat',
    Nat.mod_eq_of_lt (by omega)]

/-- **Main result.** In every state of every run from a formatted device the count means something
exactly when the blocks in use and the 100GB taken off are not more than the device has. -/
theorem meaningful_iff {node : ℕ → ℕ → ℕ} {pis : ℕ → PmfsInode} {inodes : ℕ → Inode}
    {slab : List Bool} {size jsize numInodes mode uid gid now : ℕ} {fs : Fs} (hword : size < 2 ^ 64)
    (hinit : pmfsInit node pis inodes slab size jsize numInodes mode uid gid now = some fs)
    (hrun : ReflTransGen Step fs.dev.ba s) :
    Meaningful s ↔ (inUse s).ncard + ufsBlocks ≤ s.blockEnd := by
  have hinv := inv_run (inv_pmfsInit hinit) hrun
  constructor
  · intro hm
    have := hm.unwrapped
    omega
  · intro hle
    have hlt : size >>> 12 < 2 ^ 64 := by
      rw [Nat.shiftRight_eq_div_pow]
      omega
    have hcount := hinv.toNat_numFreeBlocks hlt (hinv.blockEnd ▸ hle)
    rw [← hinv.blockEnd] at hcount
    refine ⟨by omega, by omega, fun hpos ok => newBlock_4K_of_lt hinv.wf ?_⟩
    have hpos' : 0 < s.numFreeBlocks.toNat := UInt64.lt_iff_toNat_lt.mp hpos
    omega

/-- A device of `size` bytes, formatted. -/
def formatted (size : ℕ) : Option Fs :=
  pmfsInit (fun _ _ => 0) (fun _ => initInodeTable 0 0)
    (fun _ => ⟨0, 0, 0, 0, 0, 0, 0, 0, 0, 0, 0, false, false, false⟩) [] size 0x10000 0 0o755 0 0 1

/-- A device of 256GB. -/
theorem meaningful_iff_large : ∃ fs, formatted 0x4000000000 = some fs ∧ Meaningful fs.dev.ba := by
  obtain ⟨fs, hfs, hle⟩ : ∃ fs ∈ formatted 0x4000000000,
      total fs.dev.ba.blockInuseHead + ufsBlocks ≤ fs.dev.ba.blockEnd := by decide +kernel
  refine ⟨fs, hfs, (meaningful_iff (by norm_num) hfs .refl).mpr ?_⟩
  rw [inUse, (inv_pmfsInit hfs).wf.canon.ncard_covered]
  exact hle

/-- On a device of 1MB the count has wrapped when the device is formatted. -/
theorem small_device_wraps : ∃ fs, formatted 0x100000 = some fs ∧ fs.dev.ba.blockEnd = 256 ∧
    fs.dev.ba.numFreeBlocks.toNat > 2 ^ 63 ∧ ¬ Meaningful fs.dev.ba := by
  obtain ⟨fs, hfs, hend, hwrap⟩ : ∃ fs ∈ formatted 0x100000, fs.dev.ba.blockEnd = 256 ∧
      fs.dev.ba.numFreeBlocks.toNat > 2 ^ 63 := by decide +kernel
  refine ⟨fs, hfs, hend, hwrap, fun hm => ?_⟩
  have := hm.le
  omega

end Pmfs.Inodes.FreeCount
