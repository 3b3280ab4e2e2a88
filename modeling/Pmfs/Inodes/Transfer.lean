import Pmfs.Inodes.Writes
import Pmfs.Tree.Cut

/-! # Whole reads and writes in place

A read returns the bytes of the file up to its size (`read_exact_iff`), except that a read of no
bytes in a hole returns the error of the hole. A write inside one data block of the file is one
copy, whether it is done page by page (`writeLoop_inPlace`) or at once, so the two paths of
`pmfs_xip_file_write` agree (`fast_write_agrees`). -/

namespace Pmfs.Inodes.Transfer

open Lib.Bytes Block.Model Tree.Model Tree.Extend Inodes.Data Inodes.Content
open Inodes.Writes
open Tree.Cut (newDev plainFile)
open Inodes.Regular (File WriteArgs)

variable {s : Image} {pos len avail : ℕ} {buf : ℕ → UInt8}

/-! ### Reads -/

/-- A read that returns what the file holds up to its size, and moves the position behind it. -/
def ReadsAll (s : Image) (pos len avail : ℕ) : Prop :=
  ∃ r, doXipMappingRead s pos len avail = some r ∧
    readResult r = .ok (min len (s.f.inode.iSize - pos)) ∧
    r.1 = bytes (content s) pos (min len (s.f.inode.iSize - pos)) ∧
    readPos pos r = pos + min len (s.f.inode.iSize - pos)

theorem readResult_of_length {r : List UInt8 × Option Errno} (h : r.1.length ≠ 0) :
    readResult r = .ok r.1.length := if_pos h

theorem readsAll_of_read {e : Option Errno} (h : doXipMappingRead s pos len avail =
    some (bytes (content s) pos (min len (s.f.inode.iSize - pos)), e))
    (he : min len (s.f.inode.iSize - pos) = 0 → e = none) : ReadsAll s pos len avail := by
  refine ⟨_, h, ?_, rfl, ?_⟩
  · by_cases h0 : min len (s.f.inode.iSize - pos) = 0
    · rw [he h0, h0]
      rfl
    · rw [readResult_of_length (by rwa [length_bytes]), length_bytes]
  · rw [readPos, length_bytes]

theorem not_readsAll {e : Errno} (h : doXipMappingRead s pos len avail = some ([], some e)) :
    ¬ ReadsAll s pos len avail := by
  rintro ⟨r, hr, hres, -⟩
  rw [h, Option.some.injEq] at hr
  subst hr
  exact absurd hres (by simp [readResult])

theorem read_behind (h : s.f.inode.iSize ≤ pos) :
    doXipMappingRead s pos len avail = some ([], none) := by
  unfold doXipMappingRead
  by_cases hsize : s.f.inode.iSize = 0
  · rw [if_pos hsize]
  · unfold xipReadLoop
    rw [if_neg hsize]
    rw [pageBytes_eq hsize, if_pos h]
    rfl

/-- A read of no bytes takes one round, which leaves the error of a hole. -/
theorem read_nothing (pos avail : ℕ) (hroot : s.f.pi.root = 0 → s.f.pi.height = 0)
    (h : pos < s.f.inode.iSize) : doXipMappingRead s pos 0 avail = some ([],
      if mapped s.f.d s.f.pi (pos / pmfsInodeBlkSize s.f.pi) = 0 then some .ENODATA else none) := by
  unfold doXipMappingRead xipReadLoop
  rw [if_neg (by omega)]
  rw [pageBytes_eq (by omega), if_neg (by omega)]
  dsimp only
  rw [List.length_nil, Nat.sub_zero, Nat.min_zero]
  by_cases h0 : mapped s.f.d s.f.pi (pos / pmfsInodeBlkSize s.f.pi) = 0
  · obtain ⟨s', hget⟩ := getXipMem_hole none rfl hroot h0
    rw [hget, if_pos h0]
    rfl
  · rw [getXipMem_mapped hroot h0, if_neg h0]
    rfl

/-- **Main result.** A read is exact unless it reads no bytes in a hole of the file. -/
theorem read_exact_iff (hroot : s.f.pi.root = 0 → s.f.pi.height = 0) (havail : len ≤ avail) :
    ReadsAll s pos len avail ↔ ¬ (len = 0 ∧ pos < s.f.inode.iSize ∧
      mapped s.f.d s.f.pi (pos / pmfsInodeBlkSize s.f.pi) = 0) := by
  by_cases hend : s.f.inode.iSize ≤ pos
  · refine iff_of_true (readsAll_of_read ?_ fun _ => rfl) fun hcon => absurd hcon.2.1 (by omega)
    rw [read_behind hend, Nat.sub_eq_zero_of_le hend, Nat.min_zero]
    rfl
  by_cases hlen : len = 0
  · subst hlen
    have hread := read_nothing pos avail hroot (Nat.lt_of_not_le hend)
    by_cases h0 : mapped s.f.d s.f.pi (pos / pmfsInodeBlkSize s.f.pi) = 0
    · rw [if_pos h0] at hread
      exact iff_of_false (not_readsAll hread) (not_not.mpr ⟨rfl, Nat.lt_of_not_le hend, h0⟩)
    · rw [if_neg h0] at hread
      refine iff_of_true (readsAll_of_read ?_ fun _ => rfl) fun hcon => h0 hcon.2.2
      rw [hread, Nat.zero_min]
      rfl
  · obtain ⟨e, hread⟩ := read_eq pos hroot (Nat.pos_of_ne_zero hlen) havail
    refine iff_of_true (readsAll_of_read hread fun hcon => ?_) fun hcon => hlen hcon.1
    omega

/-- A file of the size 10 with a root but no other metadata. -/
def smallFile (root : ℕ) : Image :=
  ⟨⟨newDev 18, { plainFile with iSize := 10 }, { zeroInode with iSize := 10, root := root }⟩,
    fun _ => 1⟩

theorem read_exact_hole : ReadsAll (smallFile 0) 3 20 20 :=
  (read_exact_iff (fun _ => rfl) le_rfl).mpr (by decide)

/-- A read of no bytes in a hole returns an error. -/
theorem read_nothing_fails : ¬ ReadsAll (smallFile 0) 3 0 20 ∧
    (doXipMappingRead (smallFile 0) 3 0 20).map readResult = some (.error .ENODATA) := by
  have hread := read_nothing (s := smallFile 0) 3 20 (fun _ => rfl) (by decide)
  rw [if_pos (by decide)] at hread
  exact ⟨not_readsAll hread, by rw [hread]; rfl⟩

/-! ### Writes in place -/

/-- The loop of `__pmfs_xip_file_write` in a data block that the file has. -/
theorem writeLoop_inPlace (buf : ℕ → UInt8) : ∀ {n : ℕ} {l : WriteLoop}, l.count ≤ n → 0 < l.count →
    (l.s.f.pi.root = 0 → l.s.f.pi.height = 0) →
    mapped l.s.f.d l.s.f.pi (l.pos / pmfsInodeBlkSize l.s.f.pi) ≠ 0 →
    l.pos % pmfsInodeBlkSize l.s.f.pi + l.count ≤ pmfsInodeBlkSize l.s.f.pi → ∃ st,
      xipWriteLoop buf n l = some
        { s :=
            { l.s with
              m := copy l.s.m
                (addrOf (mapped l.s.f.d l.s.f.pi (l.pos / pmfsInodeBlkSize l.s.f.pi)) +
                  l.pos % pmfsInodeBlkSize l.s.f.pi)
                (fun i => buf (l.written + i)) (min l.count l.avail) }
          pos := l.pos + min l.count l.avail
          count := l.count - min l.count l.avail
          avail := l.avail - min l.count l.avail
          written := l.written + min l.count l.avail
          status := st } ∧ (l.avail = 0 → st = some .EFAULT)
  | 0, l, hn, hc, _, _, _ => absurd hc (by omega)
  | n + 1, l, hn, hc, hroot, hmap, hin => by
    unfold xipWriteLoop
    rw [getXipMem_mapped hroot hmap]
    dsimp only
    rw [addr_page]
    generalize hb : min (4096 - l.pos % 4096) l.count = b
    by_cases hshort : min b l.avail ≠ b
    · have hk : min b l.avail = min l.count l.avail := by omega
      rw [if_pos hshort, hk]
      exact ⟨_, rfl, fun _ => rfl⟩
    rw [if_neg hshort, not_not.mp hshort]
    by_cases hdone : l.count - b = 0
    · have hk : b = min l.count l.avail := by omega
      rw [if_pos hdone, hk]
      exact ⟨_, rfl, fun h0 => absurd h0 (by omega)⟩
    rw [if_neg hdone]
    -- the next page is in the same data block
    obtain ⟨hdiv, hmod⟩ : (l.pos + b) / pmfsInodeBlkSize l.s.f.pi =
      l.pos / pmfsInodeBlkSize l.s.f.pi ∧
        (l.pos + b) % pmfsInodeBlkSize l.s.f.pi = l.pos % pmfsInodeBlkSize l.s.f.pi + b := by
      have hpos := Nat.div_add_mod' l.pos (pmfsInodeBlkSize l.s.f.pi)
      obtain ⟨hdiv, -, -⟩ :=
        (mem_block_iff (x := l.pos + b) (n := l.pos / pmfsInodeBlkSize l.s.f.pi) (a :=
          l.pos % pmfsInodeBlkSize l.s.f.pi) (k := l.count) l.s.f.pi hin).mpr ⟨by omega, by omega⟩
      have hpos' := Nat.div_add_mod' (l.pos + b) (pmfsInodeBlkSize l.s.f.pi)
      rw [hdiv] at hpos'
      exact ⟨hdiv, by omega⟩
    obtain ⟨st, hrun, hst⟩ := writeLoop_inPlace buf (n := n)
      (l := ⟨⟨l.s.f,
      copy l.s.m (addrOf (mapped l.s.f.d l.s.f.pi (l.pos / pmfsInodeBlkSize l.s.f.pi)) +
        l.pos % pmfsInodeBlkSize l.s.f.pi) (fun i => buf (l.written + i)) b⟩,
        l.pos + b, l.count - b, l.avail - b, l.written + b,
        l.status⟩) (by dsimp only; omega) (by dsimp only; omega) hroot
      (by dsimp only; rwa [hdiv]) (by dsimp only; omega)
    have hsum : b + min (l.count - b) (l.avail - b) = min l.count l.avail := by omega
    refine ⟨st, ?_, fun h0 => absurd h0 (by omega)⟩
    rw [hrun]
    rw [hdiv, hmod, ← Nat.add_assoc]
    simp only [Nat.add_assoc l.written]
    rw [copy_copy l.s.m fun i => buf (l.written + i)]
    rw [hsum, Nat.add_assoc, hsum, Nat.sub_sub, Nat.sub_sub, hsum]

theorem extend_setTime (f : File) (now p : ℕ) :
    (f.setTime now).extend p = (f.extend p).setTime now := by
  unfold Regular.File.extend
  by_cases h : p > f.inode.iSize
  · rw [if_pos h, if_pos (show p > (f.setTime now).inode.iSize from h)]
    rfl
  · rw [if_neg h, if_neg (show ¬ p > (f.setTime now).inode.iSize from h)]

/-- **Main result.** Where `pmfs_xip_file_write` takes `pmfs_file_write_fast`, this leaves the file
that `__pmfs_xip_file_write` leaves, except for the times that it sets itself, and gives the same
result and position. -/
theorem fast_write_agrees {w : WriteArgs} {block : ℕ} (hroot : s.f.pi.root = 0 → s.f.pi.height = 0)
    (hlen : 1 ≤ w.len) (hblock : pmfsFindDataBlock s.f.d s.f.pi (w.pos >>> 12) = some block)
    (hne : block ≠ 0) (hsame : w.sameBlock s.f.pi = true) : ∃ s' r,
      __pmfsXipFileWrite s buf w.pos w.len w.avail = some (s', r) ∧
      pmfsFileWriteFast s buf w.pos w.len w.avail w.now block =
      ({ s' with f := s'.f.setTime w.now }, r) ∧ xipFileWritePos s buf w.pos w.len w.avail =
      some (fileWriteFastPos w.pos w.len w.avail) := by
  have hmap : mapped s.f.d s.f.pi (w.pos / pmfsInodeBlkSize s.f.pi) ≠ 0 :=
    mt (find_eq_zero_iff hroot hblock).mpr hne
  have haddr : addrOf block + w.pos % 4096 =
    addrOf (mapped s.f.d s.f.pi (w.pos / pmfsInodeBlkSize s.f.pi)) +
      w.pos % pmfsInodeBlkSize s.f.pi := by
    rw [findPage hroot, if_neg hmap, Option.some.injEq] at hblock
    rw [← hblock, addr_page]
  obtain ⟨st, hrun, hst⟩ := writeLoop_inPlace buf
    (l := ⟨s, w.pos, w.len, w.avail, 0, none⟩) le_rfl hlen hroot hmap
    ((sameBlock_iff w s.f.pi).mp hsame)
  unfold __pmfsXipFileWrite xipFileWritePos pmfsFileWriteFast
  rw [hrun, Option.map_some, Option.map_some]
  refine ⟨_, _, rfl, ?_, rfl⟩
  simp only [Nat.zero_add]
  rw [extend_setTime, haddr, Prod.mk.injEq]
  refine ⟨rfl, ?_⟩
  by_cases h0 : min w.len w.avail = 0
  · rw [if_pos h0, h0, hst (by dsimp only; omega)]
    rfl
  · rw [if_neg h0]
    obtain ⟨k, hk⟩ := Nat.exists_eq_succ_of_ne_zero h0
    rw [hk]
    rfl

/-- The user copy faults after three of five bytes. -/
theorem fast_write_agrees_partial : ∃ s' r,
    __pmfsXipFileWrite (smallFile 0x11000) (fun _ => 2) 8 5 3 = some (s', r) ∧
    pmfsFileWriteFast (smallFile 0x11000) (fun _ => 2) 8 5 3 7 0x11000 =
    ({ s' with f := s'.f.setTime 7 }, r) ∧ xipFileWritePos (smallFile 0x11000) (fun _ => 2) 8 5 3 =
    some (fileWriteFastPos 8 5 3) :=
  fast_write_agrees (w := ⟨8, 5, 3, true, none, none, 7⟩) (by decide) (by decide)
    (by decide) (by decide) (by decide)

end Pmfs.Inodes.Transfer
