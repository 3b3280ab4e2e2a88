import Pmfs.Inodes.Reserve
import Pmfs.Inodes.Seek
import Pmfs.Tree.Coverage

/-! # What a preallocation leaves

`pmfs_fallocate` with the bytes of the device: the blocks that it allocates are zeroed, so that what
was readable reads as before (`news_content`). When it returns 0 the range has its blocks and the
size is the right one. When it returns an error the size should be the old one, but it is set behind
a failed allocation as well. As for a write, how far an allocation gets depends on the device, and
`FallocSound` asks for every device with this file. `falloc_sound_iff` says for which files and
ranges it holds. -/

namespace Pmfs.Inodes.Falloc

open Lib.Bytes Lib.Radix Block.Model Tree.Model Tree.Own
open Tree.Inode Tree.Extend Tree.Supply Tree.Coverage
open Inodes.Model Inodes.Data Inodes.Content
open Inodes.Regular (File FallocArgs pmfsSetBlocksizeHint fallocFinish Refused
  falloc_refused falloc_ran)
open Inodes.Reserve (hint_wf fallocFinish_d)
open Inodes.Seek (sMaxbytes)
open Tree.Cut (newDev plainFile zeroInode_on)

/-! ### The bytes -/

/-- The bytes after the pages from `b` on got their blocks with `zero`: every new block is zeroed.
-/
def zeroNews (f f' : File) (b num : ℕ) (m : ℕ → UInt8) : ℕ → UInt8 :=
  (List.range num).foldl (fun m k => zeroNew f f' (b + k) m) m

/-- `pmfs_fallocate`. A call that is refused has no new blocks. -/
def pmfsFallocate (s : Image) (a : FallocArgs) : Option (Image × Option Errno) :=
  (Regular.pmfsFallocate s.f a).map fun r =>
    (⟨r.1, zeroNews { s.f with pi := pmfsSetBlocksizeHint s.f.pi (a.len + a.offset) } r.1
      (a.offset >>> 12) a.numBlocks s.m⟩, r.2)

variable {R : Multiset ℕ} {S : ℕ → Prop} {f f' : File} {d d' : Dev} {pi pi' : PmfsInode}
  {a : FallocArgs} {m : ℕ → UInt8} {o : Option Errno} {b n num x y : ℕ}

theorem page_of (b : ℕ) : (b * 4096) >>> 12 = b := by
  rw [page_eq, Nat.mul_div_cancel _ (by norm_num)]

/-- Zeroing the new blocks of some pages zeroes what the file has at these pages and had not before.
-/
theorem zeroNews_byteAt (g : Added R S f.d f.pi f'.d f'.pi)
    (hwf : WellFormed R f.d f.pi) (b y : ℕ) : byteAt f'.d f'.pi (zeroNews f f' b num m) y =
      if (mapped f.d f.pi (y / pmfsInodeBlkSize f.pi) = 0 ∧
      mapped f'.d f'.pi (y / pmfsInodeBlkSize f.pi) ≠ 0) ∧
        ∃ k < num, y / pmfsInodeBlkSize f.pi = indexOf f.pi (b + k) then 0
        else byteAt f'.d f'.pi m y := by
  induction num with
  | zero => simp [zeroNews]
  | succ num ih =>
    have hsucc : zeroNews f f' b (num + 1) m =
      zeroNew f f' (((b + num) * 4096) >>> 12) (zeroNews f f' b num m) := by
      unfold zeroNews
      rw [List.range_succ, List.foldl_append, page_of]
      rfl
    have hex : (∃ k < num + 1, y / pmfsInodeBlkSize f.pi = indexOf f.pi (b + k)) ↔
        y / pmfsInodeBlkSize f.pi = indexOf f.pi (b + num) ∨ ∃ k < num, y / pmfsInodeBlkSize f.pi =
        indexOf f.pi (b + k) := by
      simp only [Nat.lt_succ_iff_lt_or_eq, or_and_right, exists_or, exists_eq_left, or_comm]
    rw [hsucc, zeroNew_byteAt g hwf, ih, ← indexOf_page f.pi ((b + num) * 4096), page_of]
    simp only [hex, and_or_left, ite_or]

/-- The new blocks of a range read as the holes did. -/
theorem news_byteAt (g : Added R S f.d f.pi f'.d f'.pi) (hwf : WellFormed R f.d f.pi)
    (hS : ∀ n, S n → ∃ k < num, n = indexOf f.pi (b + k)) (y : ℕ) :
    byteAt f'.d f'.pi (zeroNews f f' b num m) y = byteAt f.d f.pi m y := by
  rw [zeroNews_byteAt g hwf]
  split_ifs with hnew
  · rw [byteAt, if_pos hnew.1.1]
  · refine added_byteAt g ?_
    by_cases h0 : mapped f.d f.pi (y / pmfsInodeBlkSize f.pi) = 0
    · refine Or.inr ?_
      by_contra h1
      refine hnew ⟨⟨h0, h1⟩, hS _ ?_⟩
      by_contra hcon
      exact h1 ((g.ext.outside _ hcon).trans h0)
    · exact Or.inl h0

/-! ### The call -/

theorem grows_iff : a.grows f = true ↔ a.keepSize = false ∧ f.inode.iSize < a.offset + a.len := by
  unfold Regular.FallocArgs.grows
  rw [Bool.and_eq_true_iff, Bool.not_eq_true', decide_eq_true_iff, Nat.add_comm a.len]

/-- `i_size` of both copies after the end of `pmfs_fallocate`. -/
theorem finish_iSize (f : File) (a : FallocArgs) (o : Option Errno) :
    (fallocFinish f a o).inode.iSize = (if a.grows f then a.len + a.offset else f.inode.iSize) ∧
      (fallocFinish f a o).pi.iSize = if a.grows f then a.len + a.offset else f.pi.iSize := by
  have hgrow : ∀ g : File, g.inode = f.inode → g.pi.iSize = f.pi.iSize →
      (((if a.grows g then g.extend (a.len + a.offset) else g).setTime a.now).inode.iSize =
        (if a.grows f then a.len + a.offset else f.inode.iSize) ∧
      ((if a.grows g then g.extend (a.len + a.offset) else g).setTime a.now).pi.iSize =
        if a.grows f then a.len + a.offset else f.pi.iSize) := by
    intro g hinode hpi
    have hsame : a.grows g = a.grows f := by
      unfold Regular.FallocArgs.grows
      rw [hinode]
    rw [hsame]
    by_cases hg : a.grows f = true
    · have hlt : a.len + a.offset > g.inode.iSize := by
        have := (grows_iff.mp hg).2
        rw [hinode]
        omega
      simp only [if_pos hg, Regular.File.extend, if_pos hlt, Regular.File.setTime, and_self]
    · simp only [if_neg hg, Regular.File.setTime]
      exact ⟨congrArg _ hinode, hpi⟩
  unfold fallocFinish
  by_cases hflag : (o.isSome || a.keepSize) = true
  · rw [if_pos hflag]
    exact hgrow _ rfl rfl
  · rw [if_neg hflag]
    exact hgrow f rfl rfl

/-- The end of `pmfs_fallocate` does not touch the tree. -/
theorem finish_tree (f : File) (a : FallocArgs) (o : Option Errno) :
    (fallocFinish f a o).pi.height = f.pi.height ∧ (fallocFinish f a o).pi.root = f.pi.root ∧
    (fallocFinish f a o).pi.iBlkType = f.pi.iBlkType := by
  unfold fallocFinish Regular.File.extend Regular.File.setTime
  dsimp only
  split_ifs <;> exact ⟨rfl, rfl, rfl⟩

theorem hint_byteAt (f : File) (size : ℕ) (x : ℕ) :
    byteAt f.d (pmfsSetBlocksizeHint f.pi size) m x = byteAt f.d f.pi m x := by
  unfold pmfsSetBlocksizeHint
  by_cases hroot : f.pi.root = 0
  · rw [if_neg (not_not.mpr hroot)]
    unfold byteAt
    rw [mapped_of_root hroot, mapped_of_root (by exact hroot), if_pos rfl, if_pos rfl]
  · rw [if_pos hroot]

theorem finish_find (f : File) (a : FallocArgs) (o : Option Errno) (p : ℕ) :
    pmfsFindDataBlock (fallocFinish f a o).d (fallocFinish f a o).pi p =
    pmfsFindDataBlock f.d f.pi p := by
  obtain ⟨hh, hr, ht⟩ := finish_tree f a o
  unfold pmfsFindDataBlock __pmfsFindDataBlock pmfsInodeBlkShift
  rw [fallocFinish_d, hh, hr, ht]

theorem finish_zeroNews (f g : File) (a : FallocArgs) (o : Option Errno) (b num : ℕ)
    (m : ℕ → UInt8) : zeroNews f (fallocFinish g a o) b num m = zeroNews f g b num m := by
  unfold zeroNews zeroNew
  simp only [finish_find]

theorem finish_byteAt (f : File) (a : FallocArgs) (o : Option Errno) (x : ℕ) :
    byteAt (fallocFinish f a o).d (fallocFinish f a o).pi m x = byteAt f.d f.pi m x := by
  obtain ⟨hh, hr, ht⟩ := finish_tree f a o
  rw [fallocFinish_d]
  exact byteAt_congr ht (mapped_congr hh hr _)

theorem find_of_root (hroot : pi.root = 0 → pi.height = 0) (h : pi.root = 0) (p : ℕ) :
    pmfsFindDataBlock d pi p = some 0 := by
  rw [findDataBlock_mapped hroot, mapped_of_root h, if_pos rfl]

theorem hint_find (hwf : WellFormed R f.d f.pi) (size p : ℕ) :
    pmfsFindDataBlock f.d f.pi p = pmfsFindDataBlock f.d (pmfsSetBlocksizeHint f.pi size) p := by
  by_cases hr : f.pi.root = 0
  · have hr' : (pmfsSetBlocksizeHint f.pi size).root = 0 := by
      unfold pmfsSetBlocksizeHint
      rwa [if_neg (not_not.mpr hr)]
    rw [find_of_root hwf.root hr, find_of_root (hint_wf size hwf).root hr']
  · unfold pmfsSetBlocksizeHint
    rw [if_pos hr]

theorem refused_content (hwf : WellFormed R f.d f.pi) (size b num : ℕ) (m : ℕ → UInt8) (x : ℕ) :
    content ⟨f, zeroNews { f with pi := pmfsSetBlocksizeHint f.pi size } f b num m⟩ x =
    content ⟨f, m⟩ x := by
  have hsame : zeroNews { f with pi := pmfsSetBlocksizeHint f.pi size } f b num m =
      zeroNews { f with pi := pmfsSetBlocksizeHint f.pi size }
      { f with pi := pmfsSetBlocksizeHint f.pi size } b num m := by
    unfold zeroNews zeroNew
    simp only [hint_find hwf size]
  unfold content
  rw [hsame, ← hint_byteAt f size, ← hint_byteAt f size]
  -- no block is new when the file is the same
  have hnone : ∀ g : File, WellFormed R g.d g.pi →
      byteAt g.d g.pi (zeroNews g g b num m) x = byteAt g.d g.pi m x := by
    intro g hg
    exact news_byteAt (S := fun _ => False) (.refl hg) hg (fun _ hcon => hcon.elim) x
  exact hnone { f with pi := pmfsSetBlocksizeHint f.pi size } (hint_wf size hwf)

/-- The pages of the range. -/
def InPages (a : FallocArgs) (p : ℕ) : Prop :=
  a.offset / 4096 ≤ p ∧ p ≤ (a.offset + a.len - 1) / 4096

/-- What `pmfs_fallocate` should leave. -/
structure Outcome (s s' : Image) (a : FallocArgs) (o : Option Errno) : Prop where
  mapped : o = none → ∀ p, InPages a p → ∃ bp, pmfsFindDataBlock s'.f.d s'.f.pi p = some bp ∧ bp ≠ 0
  size : o = none → s'.f.inode.iSize = if a.keepSize then s.f.inode.iSize
    else max s.f.inode.iSize (a.offset + a.len)
  sizeError : o ≠ none → s'.f.inode.iSize = s.f.inode.iSize
  clean : s.f.pi.iSize = s.f.inode.iSize → s'.f.pi.iSize = s'.f.inode.iSize
  bytes : ∀ x < s.f.inode.iSize, content s' x = content s x

/-- On every device with this file and whatever else fails, the outcome is as it should be. -/
def FallocSound (f : File) (a : FallocArgs) : Prop :=
  ∀ (R : Multiset ℕ) (d : Dev), WellFormed R d f.pi → treeOf d f.pi = treeOf f.d f.pi →
    ∀ (m : ℕ → UInt8) (newsizeOk trans : Option Errno), ∃ s' o,
      pmfsFallocate ⟨{ f with d := d }, m⟩ { a with newsizeOk := newsizeOk, trans := trans } =
          some (s', o) ∧
        Outcome ⟨{ f with d := d }, m⟩ s' { a with newsizeOk := newsizeOk, trans := trans } o

/-- Every page of the range has its block. -/
def Allocated (f : File) (a : FallocArgs) : Prop :=
  ∀ p, InPages a p → mapped f.d f.pi (indexOf f.pi p) ≠ 0

/-- Every index between those of two pages is that of a page between them. -/
theorem exists_page {p q : ℕ} (hpq : p ≤ q) (h1 : indexOf pi p ≤ n) (h2 : n ≤ indexOf pi q) :
    ∃ r, p ≤ r ∧ r ≤ q ∧ n = indexOf pi r := by
  have hpos := unit_pos pi
  have hindex : ∀ r, indexOf pi r = r / unit pi := fun r => Nat.shiftRight_eq_div_pow _ _
  rw [hindex] at h1 h2
  have hle : n * unit pi ≤ q := (Nat.le_div_iff_mul_le hpos).mp h2
  refine ⟨max p (n * unit pi), le_max_left _ _, max_le hpq hle, ?_⟩
  rw [hindex]
  rcases le_total p (n * unit pi) with h | h
  · rw [max_eq_right h, Nat.mul_div_cancel _ hpos]
  · rw [max_eq_left h]
    exact le_antisymm ((Nat.le_div_iff_mul_le hpos).mpr h) h1

/-! ### A call that gets its blocks, and one that does not -/

section Range

variable (hlen : 1 ≤ a.len) (hmax : a.offset + a.len ≤ sMaxbytes)
include hlen hmax

theorem numBlocks_eq : a.numBlocks % 2 ^ 32 = a.numBlocks ∧ 1 ≤ a.numBlocks ∧
    a.offset >>> 12 + a.numBlocks - 1 = (a.offset + a.len - 1) / 4096 ∧
    a.offset >>> 12 + a.numBlocks ≤ 2 ^ 64 := by
  have hbound : sMaxbytes = 2 ^ 39 - 1 := by decide
  have hnum : a.numBlocks = (a.offset % 4096 + a.len + 4095) / 4096 := page_eq _
  rw [page_eq, hnum]
  rw [hbound] at hmax
  refine ⟨Nat.mod_eq_of_lt (by omega), by omega, by omega, by omega⟩

theorem lastIndex_falloc (pi : PmfsInode) :
    lastIndex pi (a.offset >>> 12) (a.numBlocks % 2 ^ 32) =
    indexOf pi ((a.offset + a.len - 1) / 4096) := by
  obtain ⟨h1, h2, h3, h4⟩ := numBlocks_eq hlen hmax
  rw [h1, lastIndex_eq h2 h4, h3]

/-- The indices that are asked for are those of the pages. -/
theorem asked_page (h : Asked pi (a.offset >>> 12) (a.numBlocks % 2 ^ 32) n) :
    ∃ k < a.numBlocks, n = indexOf pi (a.offset >>> 12 + k) := by
  obtain ⟨h1, h2, h3, h4⟩ := numBlocks_eq hlen hmax
  obtain ⟨-, hle, hfirst⟩ := h
  have hpages : a.offset >>> 12 ≤ (a.offset + a.len - 1) / 4096 := by omega
  have hmono : indexOf pi (a.offset >>> 12) ≤ indexOf pi ((a.offset + a.len - 1) / 4096) :=
    indexOf_mono hpages
  rw [lastIndex_falloc hlen hmax] at hle hfirst
  obtain ⟨r, hr1, hr2, rfl⟩ :=
    exists_page hpages (show indexOf pi (a.offset >>> 12) ≤ n by omega) hle
  exact ⟨r - a.offset >>> 12, by omega, by rw [Nat.add_sub_cancel' hr1]⟩

theorem falloc_run (hwf : WellFormed R f.d f.pi) (hrun : ¬ Refused f a) (m : ℕ → UInt8) : ∃ f1 o,
    __pmfsAllocBlocks f.d (pmfsSetBlocksizeHint f.pi (a.len + a.offset)) (a.offset >>> 12)
    (a.numBlocks % 2 ^ 32)
      true = some (f1.d, f1.pi, o) ∧
    f1.inode.iSize = f.inode.iSize ∧ f1.pi.iSize = f.pi.iSize ∧ ∃ m',
      pmfsFallocate ⟨f, m⟩ a = some (⟨fallocFinish f1 a o, m'⟩, o) ∧
      ∀ x, content ⟨fallocFinish f1 a o, m'⟩ x = content ⟨f, m⟩ x := by
  have hhint := hint_wf (a.len + a.offset) hwf
  obtain ⟨f1, o, halloc, hallocs, hadd, hsize⟩ := fileAlloc_added
    (f := { f with pi := pmfsSetBlocksizeHint f.pi (a.len + a.offset) }) (a.offset >>> 12)
    a.numBlocks true hhint
  have hpiSize : f1.pi.iSize = f.pi.iSize := by
    rw [hadd.size]
    unfold pmfsSetBlocksizeHint
    split_ifs <;> rfl
  refine ⟨f1, o, hallocs, hsize, hpiSize,
    zeroNews { f with pi := pmfsSetBlocksizeHint f.pi (a.len + a.offset) } (fallocFinish f1 a o)
    (a.offset >>> 12) a.numBlocks m, ?_, ?_⟩
  · unfold pmfsFallocate
    rw [falloc_ran hrun, halloc]
    rfl
  · intro x
    unfold content
    rw [finish_zeroNews, finish_byteAt]
    exact (news_byteAt hadd hhint (fun n => asked_page hlen hmax) x).trans (hint_byteAt f _ x)

/-- With all its blocks there, the range gets no error. -/
theorem alloc_allocated (hwf : WellFormed R f.d f.pi) (h : Allocated f a)
    (hrun : __pmfsAllocBlocks f.d (pmfsSetBlocksizeHint f.pi (a.len + a.offset)) (a.offset >>> 12)
      (a.numBlocks % 2 ^ 32) true = some (d', pi', o)) : o = none := by
  have hfirst : InPages a (a.offset / 4096) := ⟨le_rfl, by omega⟩
  have hroot := root_of_mapped (h _ hfirst)
  have hhint : pmfsSetBlocksizeHint f.pi (a.len + a.offset) = f.pi := if_pos hroot
  have hpages : a.offset >>> 12 ≤ (a.offset + a.len - 1) / 4096 := by
    rw [page_eq]
    exact hfirst.2
  rw [hhint] at hrun
  refine alloc_filled hwf ?_ ?_ hrun
  · rw [lastIndex_falloc hlen hmax]
    exact indexOf_mono hpages
  · intro n h1 h2
    rw [lastIndex_falloc hlen hmax] at h2
    obtain ⟨r, hr1, hr2, rfl⟩ := exists_page hpages h1 h2
    exact h r ⟨by rwa [page_eq] at hr1, hr2⟩

/-- The outcome is right unless the size is set behind a failed allocation. -/
theorem outcome_of (hwf : WellFormed R f.d f.pi) (m : ℕ → UInt8) (h : a.grows f = true →
    a.mode / 2 = 0 → Allocated f a) : ∃ s' o, pmfsFallocate ⟨f, m⟩ a = some (s', o) ∧
    Outcome ⟨f, m⟩ s' a o := by
  by_cases hrefused : Refused f a
  · obtain ⟨e, he⟩ := falloc_refused hrefused
    refine ⟨⟨f, zeroNews { f with pi := pmfsSetBlocksizeHint f.pi (a.len + a.offset) } f
      (a.offset >>> 12) a.numBlocks m⟩, some e, by
      rw [pmfsFallocate, he]; rfl, ?_, ?_, fun _ => rfl, id, ?_⟩
    · intro hcon
      exact absurd hcon (by simp)
    · intro hcon
      exact absurd hcon (by simp)
    · intro x _
      exact refused_content hwf _ _ _ m x
  obtain ⟨f1, o, hallocs, hsize, hpiSize, m', hrun, hcontent⟩ := falloc_run hlen hmax hwf hrefused m
  obtain ⟨h1, h2, h3, h4⟩ := numBlocks_eq hlen hmax
  obtain ⟨hs1, hs2⟩ := finish_iSize f1 a o
  have hgrows : a.grows f1 = a.grows f := by
    unfold Regular.FallocArgs.grows
    rw [hsize]
  rw [hgrows, hsize] at hs1
  rw [hgrows, hpiSize] at hs2
  refine ⟨_, o, hrun, ?_, ?_, ?_, ?_, fun x _ => hcontent x⟩
  · intro ho p hp
    obtain ⟨d', pi', o', hrun', -, -, hfound⟩ :=
      alloc_exact (a.offset >>> 12) (a.numBlocks % 2 ^ 32) true (hint_wf (a.len + a.offset) hwf)
        (by omega) (by omega)
    rw [hallocs] at hrun'
    cases hrun'
    obtain ⟨hp1, hp2⟩ := hp
    obtain ⟨bp, hbp, hfind⟩ := hfound ho p (by rw [page_eq]; exact hp1) (by omega)
    exact ⟨bp, (finish_find f1 a o p).trans hfind, hbp⟩
  · intro _
    refine hs1.trans ?_
    dsimp only
    by_cases hkeep : a.keepSize = true
    · rw [if_pos hkeep, if_neg fun hg => absurd (grows_iff.mp hg).1 (by simp [hkeep])]
    · rw [if_neg hkeep]
      split_ifs with hg
      · have := (grows_iff.mp hg).2
        omega
      · have : ¬ f.inode.iSize < a.offset + a.len :=
          fun hlt => hg (grows_iff.mpr ⟨by simpa using hkeep, hlt⟩)
        omega
  · intro ho
    refine hs1.trans (if_neg fun hg => ho ?_)
    have hmode : a.mode / 2 = 0 := by
      by_contra hcon
      exact hrefused (Or.inl hcon)
    exact alloc_allocated hlen hmax hwf (h hg hmode) hallocs
  · intro hclean
    rw [hs1, hs2, hclean]

end Range

/-- When an allocation on a device without a free block succeeds, the range had its blocks. -/
theorem allocated_of_full (hwf : WellFormed R f.d f.pi) (hroom : room f.d = 0)
    (hrun : __pmfsAllocBlocks f.d (pmfsSetBlocksizeHint f.pi (a.len + a.offset)) (a.offset >>> 12)
      (a.numBlocks % 2 ^ 32) true = some (d', pi', o))
    (hfound : ∀ p, InPages a p → ∃ bp, pmfsFindDataBlock d' pi' p = some bp ∧ bp ≠ 0) :
    Allocated f a := by
  intro p hp
  have hhint := hint_wf (a.len + a.offset) hwf
  obtain ⟨hadd, -⟩ := alloc_run hhint hrun
  obtain ⟨bp, hfind, hbp⟩ := hfound p hp
  have hmapped : mapped d' pi' (indexOf pi' p) ≠ 0 := by
    intro h0
    rw [findDataBlock_mapped hadd.root, if_pos h0, Option.some.injEq] at hfind
    exact hbp hfind.symm
  rw [added_full hhint hadd hroom] at hmapped
  have hroot : f.pi.root ≠ 0 := by
    intro hcon
    refine root_of_mapped hmapped ?_
    rw [pmfsSetBlocksizeHint, if_neg (not_not.mpr hcon)]
    exact hcon
  have hkeep : pmfsSetBlocksizeHint f.pi (a.len + a.offset) = f.pi := if_pos hroot
  have hindex : indexOf pi' p = indexOf f.pi p := by
    unfold indexOf pmfsInodeBlkShift
    rw [hadd.blkType, hkeep]
  rwa [hindex, hkeep] at hmapped

theorem not_isDir {mode : ℕ} (h : sIsReg mode = true) : sIsDir mode = false := by
  unfold sIsDir
  rw [of_decide_eq_true h]
  decide

/-- **Main result.** On every device, whatever fails, `pmfs_fallocate` leaves what it should,
exactly when the mode is not supported, the size is kept or does not grow, or the range has all its
blocks before. -/
theorem falloc_sound_iff (R : Multiset ℕ) (f : File) (a : FallocArgs) (hwf : WellFormed R f.d f.pi)
    (hreg : sIsReg f.inode.iMode = true) (hlen : 1 ≤ a.len) (hmax : a.offset + a.len ≤ sMaxbytes) :
    FallocSound f a ↔
      a.mode / 2 ≠ 0 ∨ a.keepSize = true ∨ a.offset + a.len ≤ f.inode.iSize ∨ Allocated f a := by
  constructor
  · intro hsound
    by_contra hcon
    simp only [not_or, not_not, not_le, Bool.not_eq_true] at hcon
    obtain ⟨hmode, hkeep, hlt, hnot⟩ := hcon
    -- on a device without a free block the range keeps its holes
    obtain ⟨R', hspare, hroom, -⟩ := wellFormed_spare 0 hwf
    obtain ⟨s', o, hrun, hout⟩ := hsound R' (spare f.d 0) hspare rfl (fun _ => 0) none none
    have hgo : ¬ Refused { f with d := spare f.d 0 }
      { a with newsizeOk := none, trans := none } := by
      rintro (h | h | ⟨-, h⟩ | h)
      · exact h hmode
      · rw [not_isDir hreg] at h
        exact absurd h (by simp)
      · exact h rfl
      · exact h rfl
    obtain ⟨f1, o1, hallocs, hsize, -, m', hrun1, -⟩ :=
      falloc_run (a := { a with newsizeOk := none, trans := none }) hlen hmax hspare hgo fun _ => 0
    rw [hrun] at hrun1
    cases hrun1
    by_cases ho : o = none
    · refine hnot (allocated_of_full (f := { f with d := spare f.d 0 }) hspare hroom hallocs ?_)
      intro p hp
      obtain ⟨bp, hfind, hbp⟩ := hout.mapped ho p hp
      exact ⟨bp, (finish_find f1 _ o p).symm.trans hfind, hbp⟩
    · have hsame := hout.sizeError ho
      have hg : FallocArgs.grows { a with newsizeOk := none, trans := none } f1 = true :=
        grows_iff.mpr ⟨hkeep, by rw [hsize]; exact hlt⟩
      rw [(finish_iSize f1 _ o).1, if_pos hg] at hsame
      dsimp only at hsame
      omega
  · intro h R' d hwf' htree m newsizeOk trans
    refine outcome_of (a := { a with newsizeOk := newsizeOk, trans := trans }) hlen hmax hwf' m ?_
    intro hg hmode p hp
    obtain ⟨hkeep, hlt⟩ := grows_iff.mp hg
    have hmapped : mapped d f.pi (indexOf f.pi p) = mapped f.d f.pi (indexOf f.pi p) := by
      unfold mapped
      rw [htree]
    rcases h with h | h | h | h
    · exact absurd hmode h
    · rw [show a.keepSize = false from hkeep] at h
      exact absurd h (by simp)
    · dsimp only at hlt
      omega
    · exact hmapped.trans_ne (h p hp)

/-- A range behind the end of a file without blocks, with the size kept. -/
theorem falloc_sound_keep : ∃ R, WellFormed R (newDev 18) zeroInode ∧
    FallocSound ⟨newDev 18, plainFile, zeroInode⟩ ⟨1, 0, 4096, none, none, 0⟩ := by
  obtain ⟨R, -, hwf⟩ := zeroInode_on (n := 18) (by decide)
  exact ⟨R, hwf, (falloc_sound_iff R ⟨newDev 18, plainFile, zeroInode⟩ ⟨1, 0, 4096, none, none,
    0⟩ hwf (by decide) (by decide) (by decide)).mpr (Or.inr (Or.inl rfl))⟩

/-- A page for an empty file on a device without a free block: there is an error, and the size is
4096. -/
theorem failed_falloc_grows : ∃ R f', WellFormed R (newDev 17) zeroInode ∧
    Regular.pmfsFallocate ⟨newDev 17, plainFile, zeroInode⟩ ⟨0, 0, 4096, none, none, 0⟩ =
    some (f', some .ENOSPC) ∧
      plainFile.iSize = 0 ∧ f'.inode.iSize = 4096 := by
  obtain ⟨R, -, hwf⟩ := zeroInode_on (n := 17) (by decide)
  obtain ⟨f', hrun, hsize⟩ : ∃ f' ∈ Regular.pmfsFallocate ⟨newDev 17, plainFile, zeroInode⟩ ⟨0, 0,
    4096, none, none, 0⟩,
      f'.2 = some .ENOSPC ∧ f'.1.inode.iSize = 4096 := by
    decide +kernel
  exact ⟨R, f'.1, hwf, by rw [Option.mem_def.mp hrun, ← hsize.1], rfl, hsize.2⟩

end Pmfs.Inodes.Falloc
