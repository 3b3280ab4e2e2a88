import Pmfs.Inodes.Writes
import Pmfs.Tree.Cut
import Pmfs.Tree.Supply

/-! # Whether a write leaves the other bytes alone

`pmfs_xip_file_write` ignores the result of `pmfs_alloc_blocks`, does not zero the blocks that it
allocates and clears the edge blocks it finds by a lookup without a check. So what a short write
does to the bytes around it depends on how far the allocation got, which the file does not
determine: `KeepsOthers` asks for every device with the file on it, and for every end of the user
copy. `write_keeps_iff` says for which files and writes that holds. It needs two things. At every
height that the tree can have after the allocation, the edge blocks that are cleared are in the tree
and hold no byte of the file. And every readable byte of a hole that is given a block is cleared. -/

namespace Pmfs.Inodes.WriteSafe

open Lib.RadixMap Block.Model Tree.Model Tree.Own Tree.Inode Tree.Extend
open Tree.Supply Tree.Cut Inodes.Data Inodes.Content Inodes.Writes
open Inodes.Regular (File WriteArgs)

/-- On every device with this file, and wherever the user copy stops, every readable byte of the
file outside of what was written is the same after the write. -/
def KeepsOthers (f : File) (w : WriteArgs) : Prop :=
  ∀ (R : Multiset ℕ) (d : Dev), WellFormed R d f.pi → treeOf d f.pi = treeOf f.d f.pi →
    ∀ (m buf : ℕ → UInt8) (avail : ℕ), ∃ s' r,
      pmfsXipFileWrite ⟨{ f with d := d }, m⟩ { w with avail := avail } buf = some (s', r) ∧
      ∀ x < f.inode.iSize, ¬ (w.pos ≤ x ∧ x < w.pos + returned r) →
        x < s'.f.inode.iSize ∧ content s' x = content ⟨{ f with d := d }, m⟩ x

/-- The number of blocks that is asked for. -/
def asks (w : WriteArgs) : ℕ := w.numBlocks % 2 ^ 32

/-- The height that the allocation brings the tree to. -/
def topOf (f : File) (w : WriteArgs) : ℕ := topHeight f.pi (lastIndex f.pi (w.pos >>> 12) (asks w))

/-- What a write with an allocation must not meet. -/
structure Harmless (f : File) (w : WriteArgs) : Prop where
  inside : ∀ k, f.pi.height ≤ k → k ≤ topOf f w →
    EdgesInside { f.pi with height := k } w (startNew f w) (endNew f w)
  spared : ∀ k, f.pi.height ≤ k → k ≤ topOf f w → ∀ x < f.inode.iSize,
    mapped f.d f.pi (x / pmfsInodeBlkSize f.pi) ≠ 0 →
      ¬ Cleared { f.pi with height := k } w (startNew f w) (endNew f w) x
  zeroed : ∀ x < f.inode.iSize, mapped f.d f.pi (x / pmfsInodeBlkSize f.pi) = 0 →
    Asked f.pi (w.pos >>> 12) (asks w) (x / pmfsInodeBlkSize f.pi) →
      Cleared { f.pi with height := topOf f w } w (startNew f w) (endNew f w) x

variable {R : Multiset ℕ} {f f1 : File} {d : Dev} {pi pi' : PmfsInode} {w : WriteArgs}
  {a b : Bool} {x k : ℕ}

theorem edgesInside_congr (hh : pi'.height = k) (ht : pi'.iBlkType = pi.iBlkType) :
    EdgesInside pi' w a b ↔ EdgesInside { pi with height := k } w a b := by
  unfold EdgesInside EdgeInside indexOf pmfsInodeBlkShift
  rw [hh, ht]

theorem cleared_congr (hh : pi'.height = k) (ht : pi'.iBlkType = pi.iBlkType) :
    Cleared pi' w a b x ↔ Cleared { pi with height := k } w a b x := by
  unfold Cleared EdgeHits edgeRange indexOf pmfsInodeBlkShift pmfsInodeBlkSize
  rw [hh, ht]

/-! ### The file on another device -/

section Device

variable (hmap : ∀ n, mapped d f.pi n = mapped f.d f.pi n)
include hmap

theorem inPlace_on : InPlace { f with d := d } w ↔ InPlace f w := by
  unfold InPlace
  rw [hmap]

theorem startNew_on : startNew { f with d := d } w = startNew f w := by
  unfold startNew
  rw [hmap]

theorem endNew_on : endNew { f with d := d } w = endNew f w := by
  unfold endNew
  rw [hmap]

theorem refused_on : Refused { f with d := d } w ↔ Refused f w := by
  unfold Refused
  rw [inPlace_on hmap]

end Device

/-- `pmfs_alloc_blocks` in a write, on the device `d`. -/
theorem alloc_on (hwf : WellFormed R d f.pi) : ∃ f1 o,
    (({ f with d := d } : File).setTime w.now).alloc (w.pos >>> 12) w.numBlocks false =
    some (f1, o) ∧
      __pmfsAllocBlocks d (f.setTime w.now).pi (w.pos >>> 12) (asks w) false =
      some (f1.d, f1.pi, o) ∧
      Added R (Asked f.pi (w.pos >>> 12) (asks w)) d (f.setTime w.now).pi f1.d f1.pi ∧
      f1.inode.iSize = f.inode.iSize := by
  have hwf' : WellFormed R d (f.setTime w.now).pi := hwf.congr rfl rfl rfl
  exact fileAlloc_added (f := ({ f with d := d } : File).setTime w.now) (w.pos >>> 12)
    w.numBlocks false hwf'

/-! ### A harmless write -/

theorem keeps_slow {m buf : ℕ → UInt8} {avail : ℕ} (hpos : w.pos + w.len < 2 ^ 63)
    (hwf : WellFormed R d f.pi) (hmap : ∀ n, mapped d f.pi n = mapped f.d f.pi n)
    (h : Harmless f w) : ∃ s' r,
      writeTrans ⟨({ f with d := d } : File).setTime w.now,
      m⟩ { w with avail := avail } buf (startNew f w)
        (endNew f w) = some (s', r) ∧
      ∀ x < f.inode.iSize, ¬ (w.pos ≤ x ∧ x < w.pos + returned r) →
        x < s'.f.inode.iSize ∧ content s' x = content ⟨{ f with d := d }, m⟩ x := by
  obtain ⟨f1, o, halloc, hrun, hadd, hsize⟩ := alloc_on (w := w) hwf
  have hwf' : WellFormed R d (f.setTime w.now).pi := hwf.congr rfl rfl rfl
  obtain ⟨hle, htop, hnew⟩ := alloc_height _ _ _ hwf' hrun
  have hin : EdgesInside f1.pi w (startNew f w) (endNew f w) :=
    (edgesInside_congr rfl hadd.blkType).mpr (h.inside _ hle htop)
  obtain ⟨s', r, k, hwrite, hw⟩ :=
    writeTrans_spec (s := ⟨({ f with d := d } : File).setTime w.now, m⟩) (w :=
      { w with avail := avail }) buf halloc hadd.wellFormed hin (by dsimp only; omega)
  refine ⟨s', r, hwrite, fun x hx hout => ?_⟩
  have hret := hw.returned
  have hcontent := hw.content x
  dsimp only at hcontent
  rw [if_neg (by omega)] at hcontent
  have hbs : pmfsInodeBlkSize (f.setTime w.now).pi = pmfsInodeBlkSize f.pi := rfl
  have hcl : Cleared f1.pi { w with avail := avail } (startNew f w) (endNew f w) x ↔
      Cleared { f.pi with height := f1.pi.height } w (startNew f w) (endNew f w) x :=
    cleared_congr rfl hadd.blkType
  have hkeep : ∀ n, mapped d (f.setTime w.now).pi n = mapped f.d f.pi n := hmap
  refine ⟨?_, ?_⟩
  · rw [hw.size, hsize]
    exact lt_max_of_lt_left hx
  · rw [hcontent]
    unfold content
    by_cases h0 : mapped f.d f.pi (x / pmfsInodeBlkSize f.pi) = 0
    · have hbefore : byteAt d f.pi m x = 0 := by
        unfold byteAt
        rw [hmap, if_pos h0]
      rw [hbefore]
      by_cases h1 : mapped f1.d f1.pi (x / pmfsInodeBlkSize f.pi) = 0
      · -- the hole is still there
        have hafter : byteAt f1.d f1.pi m x = 0 := by
          unfold byteAt
          rw [blkSize_congr hadd.blkType, hbs, if_pos h1]
        rw [hafter, ite_self]
      · -- the hole got a block
        have hasked : Asked f.pi (w.pos >>> 12) (asks w) (x / pmfsInodeBlkSize f.pi) := by
          by_contra hcon
          exact h1 ((hadd.ext.outside _ hcon).trans ((hkeep _).trans h0))
        have hheight : f1.pi.height = topOf f w := hnew (x / pmfsInodeBlkSize f.pi) fun hcon =>
          h1 (hcon.trans ((hkeep _).trans h0))
        have hzero := h.zeroed x hx h0 hasked
        rw [← hheight] at hzero
        rw [if_pos (hcl.mpr hzero)]
    · have hspare := h.spared _ hle htop x hx h0
      rw [if_neg (mt hcl.mp hspare)]
      exact (added_byteAt hadd (Or.inl (by rw [hbs, hkeep]; exact h0))).trans rfl

theorem keeps_of_harmless (hpos : w.pos + w.len < 2 ^ 63) (h : ¬ Refused f w →
    ¬ InPlace f w → Harmless f w) :
    KeepsOthers f w := by
  intro R d hwf htree m buf avail
  have hmap : ∀ n, mapped d f.pi n = mapped f.d f.pi n := by
    intro n
    unfold mapped
    rw [htree]
  rcases write_cases (s := ⟨{ f with d := d }, m⟩) (w := { w with avail := avail }) buf hwf with
    ⟨-, r, hrun, -⟩ | ⟨-, -, s', r, hrun, -, hw⟩ | ⟨hr, hin, hrun⟩
  · exact ⟨_, r, hrun, fun x hx _ => ⟨hx, rfl⟩⟩
  · refine ⟨s', r, hrun, fun x hx hout => ⟨?_, ?_⟩⟩
    · rw [hw.size]
      exact lt_max_of_lt_left hx
    · have hret := hw.returned
      rw [hw.content, if_neg (by dsimp only at hret ⊢; omega)]
  · rw [hrun, startNew_on hmap, endNew_on hmap]
    exact keeps_slow (w := w) hpos hwf hmap
      (h (mt (refused_on hmap).mpr hr) (mt (inPlace_on hmap).mpr hin))

/-! ### What is needed -/

/-- When nothing can be copied, what the allocation and the clearing did is all that happened. -/
theorem effect_of_keeps {d' : Dev} {o : Option Errno} (h : KeepsOthers f w) (hr : ¬ Refused f w)
    (hin : ¬ InPlace f w) (hpos : w.pos + w.len < 2 ^ 63) (hwf : WellFormed R d f.pi)
    (htree : treeOf d f.pi = treeOf f.d f.pi) (m : ℕ → UInt8)
    (hrun : __pmfsAllocBlocks d (f.setTime w.now).pi (w.pos >>> 12) (asks w) false =
    some (d', pi', o)) : EdgesInside pi' w (startNew f w) (endNew f w) ∧ ∀ x < f.inode.iSize,
      (if Cleared pi' w (startNew f w) (endNew f w) x then 0 else byteAt d' pi' m x) =
      byteAt d f.pi m x := by
  have hmap : ∀ n, mapped d f.pi n = mapped f.d f.pi n := by
    intro n
    unfold mapped
    rw [htree]
  obtain ⟨f1, o1, halloc, hrun1, hadd, -⟩ := alloc_on (w := w) hwf
  rw [hrun] at hrun1
  cases hrun1
  obtain ⟨s', r, hwrite, hkeep⟩ := h R d hwf htree m m 0
  rcases write_cases (s := ⟨{ f with d := d }, m⟩) (w := { w with avail := 0 }) m hwf with
    ⟨hcon, -⟩ | ⟨-, hcon, -⟩ | ⟨-, -, hslow⟩
  · exact absurd ((refused_on hmap).mp hcon) hr
  · exact absurd ((inPlace_on hmap).mp hcon) hin
  rw [startNew_on hmap, endNew_on hmap] at hslow
  have hside : EdgesInside f1.pi w (startNew f w) (endNew f w) := by
    by_contra hout
    have hnone := writeTrans_outside (s := ⟨({ f with d := d } : File).setTime w.now, m⟩)
      (w := { w with avail := 0 }) m halloc hadd.wellFormed hout
    rw [hslow] at hwrite
    exact Option.some_ne_none _ (hwrite.symm.trans hnone)
  refine ⟨hside, fun x hx => ?_⟩
  obtain ⟨s'', r'', k, hwrite', hw⟩ :=
    writeTrans_spec (s := ⟨({ f with d := d } : File).setTime w.now, m⟩) (w :=
      { w with avail := 0 }) m halloc hadd.wellFormed hside (by dsimp only; omega)
  have heq := (hwrite.symm.trans hslow).trans hwrite'
  cases heq
  have hk : k = 0 := Nat.le_zero.mp hw.le_avail
  have hret := hw.returned
  obtain ⟨-, hsame⟩ := hkeep x hx (by omega)
  rw [hw.content, if_neg (by dsimp only; omega)] at hsame
  exact hsame

theorem byteAt_one (h : mapped d pi (x / pmfsInodeBlkSize pi) ≠ 0) :
    byteAt d pi (fun _ => 1) x = 1 := by
  unfold byteAt
  rw [if_neg h]

theorem byteAt_hole {m : ℕ → UInt8} (h : mapped d pi (x / pmfsInodeBlkSize pi) = 0) :
    byteAt d pi m x = 0 := by
  unfold byteAt
  rw [if_pos h]

theorem harmless_of_keeps (hwf : WellFormed R f.d f.pi) (hpos : w.pos + w.len < 2 ^ 63)
    (hr : ¬ Refused f w) (hin : ¬ InPlace f w) (h : KeepsOthers f w) : Harmless f w := by
  have hwf' : WellFormed R f.d (f.setTime w.now).pi := hwf.congr rfl rfl rfl
  -- a device on which the tree stops at the height `k`
  have hstop : ∀ k, f.pi.height ≤ k → k ≤ topOf f w →
      EdgesInside { f.pi with height := k } w (startNew f w) (endNew f w) ∧ ∀ x < f.inode.iSize,
        mapped f.d f.pi (x / pmfsInodeBlkSize f.pi) ≠ 0 →
          ¬ Cleared { f.pi with height := k } w (startNew f w) (endNew f w) x := by
    intro k hk htop
    obtain ⟨R', hspare, hroom, -⟩ := wellFormed_spare (k - f.pi.height) hwf
    have hspare' : WellFormed R' (spare f.d (k - f.pi.height)) (f.setTime w.now).pi :=
      hspare.congr rfl rfl rfl
    obtain ⟨d', pi', o, hrun, hheight, -⟩ :=
      alloc_scarce (w.pos >>> 12) (asks w) false hspare' hk htop hroom
    obtain ⟨hside, heffect⟩ := effect_of_keeps h hr hin hpos hspare rfl (fun _ => 1) hrun
    have ht : pi'.iBlkType = f.pi.iBlkType := (alloc_run hspare' hrun).1.blkType
    refine ⟨(edgesInside_congr hheight ht).mp hside, fun x hx h0 hcl => ?_⟩
    have hx' := heffect x hx
    rw [if_pos ((cleared_congr hheight ht).mpr hcl)] at hx'
    have hone : byteAt (spare f.d (k - f.pi.height)) f.pi (fun _ => 1) x = 1 := byteAt_one h0
    rw [hone] at hx'
    exact absurd hx' (by decide)
  refine ⟨fun k hk htop => (hstop k hk htop).1, fun k hk htop => (hstop k hk htop).2, ?_⟩
  intro x hx h0 hasked
  obtain ⟨R', j, d', pi', o, hspare', hrun, hgets⟩ := alloc_ample (w.pos >>> 12) (asks w) false hwf'
  have hspare : WellFormed R' (spare f.d j) f.pi := hspare'.congr rfl rfl rfl
  obtain ⟨-, heffect⟩ := effect_of_keeps h hr hin hpos hspare rfl (fun _ => 1) hrun
  obtain ⟨hadd, -⟩ := alloc_run hspare' hrun
  have h1 : mapped d' pi' (x / pmfsInodeBlkSize f.pi) ≠ 0 := hgets _ hasked
  have hheight : pi'.height = topOf f w := by
    obtain ⟨-, -, hnew⟩ := alloc_height _ _ _ hspare' hrun
    refine hnew (x / pmfsInodeBlkSize f.pi) fun hcon => h1 (hcon.trans ?_)
    exact h0
  by_contra hcl
  have hx' := heffect x hx
  have hhole : byteAt (spare f.d j) f.pi (fun _ => 1) x = 0 := byteAt_hole h0
  have hbs : pmfsInodeBlkSize pi' = pmfsInodeBlkSize f.pi := blkSize_congr hadd.blkType
  rw [if_neg (mt (cleared_congr hheight hadd.blkType).mp hcl), hhole,
    byteAt_one (by rw [hbs]; exact h1)] at hx'
  exact absurd hx' (by decide)

/-- **Main result.** A write leaves the other bytes of the file alone exactly when it is refused,
stays in one block that the file has, or is harmless. -/
theorem write_keeps_iff (hwf : WellFormed R f.d f.pi) (hpos : w.pos + w.len < 2 ^ 63) :
    KeepsOthers f w ↔ Refused f w ∨ InPlace f w ∨ Harmless f w := by
  constructor
  · intro h
    by_cases hr : Refused f w
    · exact Or.inl hr
    · by_cases hin : InPlace f w
      · exact Or.inr (Or.inl hin)
      · exact Or.inr (Or.inr (harmless_of_keeps hwf hpos hr hin h))
  · rintro (h | h | h)
    · exact keeps_of_harmless hpos fun hr => absurd h hr
    · exact keeps_of_harmless hpos fun _ hin => absurd h hin
    · exact keeps_of_harmless hpos fun _ _ => h

/-- A file of 4K with the tree of `pi`. -/
def fullPage (d : Dev) (pi : PmfsInode) : File :=
  ⟨d, { plainFile with iSize := 4096 }, { pi with iSize := 4096 }⟩

/-- Eight bytes in block 2, behind a file with the blocks 0 and 1: both edges of the new block are
cleared. -/
theorem write_keeps_iff_behind : ∃ R d pi, WellFormed R (fullPage d pi).d (fullPage d pi).pi ∧
    KeepsOthers (fullPage d pi) ⟨8292, 8, 8, true, none, none, 0⟩ := by
  obtain ⟨R, -, hwf⟩ := zeroInode_on (n := 24) (by decide)
  obtain ⟨d, pi, o, hrun, hadd, -⟩ := alloc_added 0 2 true hwf
  obtain ⟨r, hr, hmapped, hheight, hshift⟩ : ∃ r ∈ __pmfsAllocBlocks (newDev 24) zeroInode 0 2 true,
      mapped r.1 r.2.1 0 ≠ 0 ∧ r.2.1.height = 1 ∧ pmfsInodeBlkShift r.2.1 = 12 := by
    decide +kernel
  rw [hrun, Option.mem_some_iff] at hr
  subst hr
  dsimp only at hmapped hheight hshift
  have hfile : WellFormed R (fullPage d pi).d (fullPage d pi).pi :=
    hadd.wellFormed.congr rfl rfl rfl
  have hsize : pmfsInodeBlkSize pi = 4096 := congrArg (2 ^ ·) hshift
  have htop : topOf (fullPage d pi) ⟨8292, 8, 8, true, none, none, 0⟩ = 1 := by
    change (if 2 >>> (pmfsInodeBlkShift pi - 12) < 512 ^ 3 then
      max pi.height (shiftsToZero 8 (2 >>> (pmfsInodeBlkShift pi - 12))) else pi.height) = 1
    rw [hheight, hshift]
    decide
  have hreached : ∀ k, pi.height ≤ k → k ≤ 1 → reached k (indexOf pi 2) = 2 := by
    intro k hk hk'
    obtain rfl : k = 1 := by omega
    rw [indexOf, hshift]
    decide
  refine ⟨R, d, pi, hfile, (write_keeps_iff hfile (by decide)).mpr (Or.inr (Or.inr ⟨?_, ?_, ?_⟩))⟩
  · rw [htop]
    intro k hk hk'
    have hin : reached k (indexOf pi 2) < 512 ^ k := by
      rw [hreached k hk hk']
      exact (by decide : 2 < 512 ^ 1).trans_le (Nat.pow_le_pow_right (by decide) (hheight ▸ hk))
    exact ⟨fun _ => hin, fun _ => hin⟩
  · rw [htop]
    rintro k hk hk' x hx - (⟨-, hidx, -⟩ | ⟨-, hidx, -⟩)
    all_goals
      have hblock : x / pmfsInodeBlkSize pi = 2 := hidx.trans (hreached k hk hk')
      rw [hsize] at hblock
      change x < 4096 at hx
      omega
  · intro x hx h0
    have hzero : x / pmfsInodeBlkSize pi = 0 := by
      rw [hsize]
      exact Nat.div_eq_of_lt hx
    exact absurd (hzero ▸ h0) hmapped

/-- A write behind the only block of a file, on a device without a free block: the write fails, and
the edge that it clears is the start of the file. -/
theorem failed_write_clears_start : ∃ R d pi, WellFormed R (fullPage d pi).d (fullPage d pi).pi ∧
    ∃ s' r, pmfsXipFileWrite ⟨fullPage d pi, fun _ => 1⟩ ⟨4097, 1, 1, true, none, none,
    0⟩ (fun _ => 2) = some (s', r) ∧
      returned r = 0 ∧ content ⟨fullPage d pi, fun _ => 1⟩ 0 = 1 ∧ content s' 0 = 0 := by
  obtain ⟨R, -, hwf⟩ := zeroInode_on (n := 18) (by decide)
  obtain ⟨d, pi, o, hrun, hadd, -⟩ := alloc_added 0 1 true hwf
  obtain ⟨r, hr, ⟨s', r'⟩, hwrite, hret, hbefore, hafter⟩ :
      ∃ r ∈ __pmfsAllocBlocks (newDev 18) zeroInode 0 1 true,
        ∃ r' ∈ pmfsXipFileWrite ⟨fullPage r.1 r.2.1, fun _ => 1⟩ ⟨4097, 1, 1, true, none,
        none, 0⟩ fun _ => 2,
          returned r'.2 = 0 ∧ content ⟨fullPage r.1 r.2.1, fun _ => 1⟩ 0 = 1 ∧
          content r'.1 0 = 0 := by
    decide +kernel
  rw [hrun, Option.mem_some_iff] at hr
  subst hr
  exact ⟨R, d, pi, hadd.wellFormed.congr rfl rfl rfl, s', r', hwrite, hret, hbefore, hafter⟩

end Pmfs.Inodes.WriteSafe
