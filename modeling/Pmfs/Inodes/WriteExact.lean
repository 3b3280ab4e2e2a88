import Pmfs.Inodes.Writes
import Pmfs.Tree.Cut

/-! # Complete writes

A write whose allocation succeeds and whose user copy does not stop treats the file as an array of
bytes (`write_exact`). The allocation gives every block of the range to the file without zeroing it,
so three facts carry the proof. The loop then finds every page and copies everything
(`writeLoop_full`). A byte outside of the range is in a new block only at the two ends, where the
clearing of the edges reaches it (`new_cleared`). And the clearing reaches no block that the file
had (`cleared_new`).

The number of pages is passed as an `unsigned int`, which 2^44 bytes do not fit:
`truncated_count_clears` is a write for which the allocation succeeds and the clearing reaches the
bytes before it. -/

namespace Pmfs.Inodes.WriteExact

open Lib.Bytes Lib.Radix Lib.RadixMap Block.Model Tree.Model Tree.Own
open Tree.Truncate Tree.Inode Tree.Extend Tree.Cut Inodes.Data Inodes.Content
open Inodes.Writes
open Inodes.Regular (File WriteArgs writeResult)
open RTree

/-- The mapped blocks hold zeros behind the end of the file. -/
def Clean (s : Image) : Prop := ∀ x, s.f.inode.iSize ≤ x → content s x = 0

/-- What a complete write leaves: the buffer in its place, and the other bytes up to the old size.
-/
structure Stored (s : Image) (w : WriteArgs) (buf : ℕ → UInt8) (s' : Image) : Prop where
  size : s'.f.inode.iSize = max s.f.inode.iSize (w.pos + w.len)
  data : ∀ i < w.len, content s' (w.pos + i) = buf i
  others : ∀ x, ¬ (w.pos ≤ x ∧ x < w.pos + w.len) →
    content s' x = if x < s.f.inode.iSize then content s x else 0
  clean : Clean s'

variable {R : Multiset ℕ} {s s' : Image} {f f1 : File} {w : WriteArgs} {buf c : ℕ → UInt8}
  {r : Except Errno ℕ} {x : ℕ}

theorem stored_of_wrote (hclean : Clean s) (hw : Wrote R buf f c w s' r w.len)
    (hsize : f.inode.iSize = s.f.inode.iSize)
    (hc : ∀ x, ¬ (w.pos ≤ x ∧ x < w.pos + w.len) → c x = content s x) : Stored s w buf s' := by
  have hsize' : s'.f.inode.iSize = max s.f.inode.iSize (w.pos + w.len) := by rw [hw.size, hsize]
  have hout : ∀ x, ¬ (w.pos ≤ x ∧ x < w.pos + w.len) → content s' x = content s x := by
    intro x hx
    rw [hw.content, if_neg hx, hc x hx]
  refine ⟨hsize', fun i hi => ?_, fun x hx => ?_, fun x hx => ?_⟩
  · rw [hw.content, if_pos (by omega), Nat.add_sub_cancel_left]
  · rw [hout x hx]
    split_ifs with h
    · rfl
    · exact hclean x (by omega)
  · rw [hout x (by omega)]
    exact hclean x (by omega)

/-! ### The loop -/

/-- On mapped pages the loop of `__pmfs_xip_file_write` copies everything. -/
theorem writeLoop_full (buf : ℕ → UInt8) : ∀ {n : ℕ} {l : WriteLoop},
    (l.s.f.pi.root = 0 → l.s.f.pi.height = 0) →
    (∀ x, l.pos ≤ x → x < l.pos + l.count →
    mapped l.s.f.d l.s.f.pi (x / pmfsInodeBlkSize l.s.f.pi) ≠ 0) → l.count ≤ l.avail →
    0 < l.count → l.count ≤ n → ∃ l', xipWriteLoop buf n l = some l' ∧
    l'.written = l.written + l.count
  | 0, l, _, _, _, h0, hn => absurd h0 (by omega)
  | n + 1, l, hroot, hmap, havail, h0, hn => by
    unfold xipWriteLoop
    rw [getXipMem_mapped hroot (hmap l.pos le_rfl (by omega))]
    dsimp only
    have hbytes : min (min (4096 - l.pos % 4096) l.count) l.avail =
      min (4096 - l.pos % 4096) l.count := by
      omega
    rw [hbytes, if_neg (not_not.mpr rfl)]
    generalize hk : min (4096 - l.pos % 4096) l.count = k
    generalize copy l.s.m _ _ k = m
    by_cases hdone : l.count - k = 0
    · rw [if_pos hdone]
      refine ⟨_, rfl, ?_⟩
      dsimp only
      omega
    · rw [if_neg hdone]
      obtain ⟨l', hrun, hwritten⟩ := writeLoop_full buf (n := n)
        (l := ⟨{ l.s with m := m }, l.pos + k, l.count - k, l.avail - k, l.written + k, l.status⟩)
        hroot (fun x hx hx' => hmap x (by dsimp only at hx; omega) (by dsimp only at hx'; omega))
        (by dsimp only; omega) (by dsimp only; omega) (by dsimp only; omega)
      refine ⟨l', hrun, hwritten.trans ?_⟩
      dsimp only
      omega

theorem writeResult_ok {n : ℕ} {st : Option Errno} (h : 0 < n) : writeResult n st = .ok n := by
  obtain ⟨j, rfl⟩ := Nat.exists_eq_succ_of_ne_zero h.ne'
  rfl

theorem eq_ok_of_returned {n : ℕ} (h : 0 < n) (hr : returned r = n) : r = .ok n := by
  cases r with
  | ok k => rw [← hr, returned]
  | error e => exact absurd (hr.symm.trans rfl) h.ne'

theorem writePages_full (buf : ℕ → UInt8) (hroot : s.f.pi.root = 0 → s.f.pi.height = 0)
    (hlen : 0 < w.len) (havail : w.len ≤ w.avail)
    (hmap : ∀ x, w.pos ≤ x → x < w.pos + w.len →
    mapped s.f.d s.f.pi (x / pmfsInodeBlkSize s.f.pi) ≠ 0) :
    ∃ s', __pmfsXipFileWrite s buf w.pos w.len w.avail = some (s', .ok w.len) := by
  obtain ⟨l, hrun, hwritten⟩ := writeLoop_full buf
    (l := ⟨s, w.pos, w.len, w.avail, 0, none⟩) hroot hmap havail hlen le_rfl
  unfold __pmfsXipFileWrite
  rw [hrun, Option.map_some, hwritten, Nat.zero_add, writeResult_ok hlen]
  exact ⟨_, rfl⟩

theorem writeTrans_full {o : Option Errno} {newSblk newEblk : Bool} (buf : ℕ → UInt8)
    (halloc : s.f.alloc (w.pos >>> 12) w.numBlocks false = some (f1, o))
    (hwf : WellFormed R f1.d f1.pi) (hin : EdgesInside f1.pi w newSblk newEblk)
    (hpos : w.pos + w.len < 2 ^ 64) (hlen : 0 < w.len) (havail : w.len ≤ w.avail)
    (hmap : ∀ x, w.pos ≤ x → x < w.pos + w.len →
    mapped f1.d f1.pi (x / pmfsInodeBlkSize f1.pi) ≠ 0) : ∃ s', writeTrans s w buf newSblk newEblk =
    some (s', .ok w.len) ∧
      Wrote R buf f1 (fun x => if Cleared f1.pi w newSblk newEblk x then 0
      else byteAt f1.d f1.pi s.m x) w
        s' (.ok w.len) w.len := by
  obtain ⟨s', r, k, hrun, hw⟩ := writeTrans_spec buf halloc hwf hin hpos
  obtain ⟨⟨f2, m2⟩, hclear, hf, -⟩ := clearEdges_spec (s := { s with f := f1 }) hwf hin
  subst hf
  obtain ⟨s'', hfull⟩ := writePages_full (s := ⟨f2, m2⟩) buf hwf.root hlen havail hmap
  have hrun' := hrun
  unfold writeTrans at hrun'
  rw [halloc, Option.bind_some, hclear, Option.bind_some, hfull] at hrun'
  cases hrun'
  have hk : w.len = k := hw.returned
  subst hk
  exact ⟨s', hrun, hw⟩

/-! ### The edges -/

theorem indexOf_pos (w : WriteArgs) : indexOf f.pi (w.pos >>> 12) = w.pos / pmfsInodeBlkSize f.pi :=
  indexOf_page f.pi w.pos

theorem indexOf_endBlk (hlen : 0 < w.len) :
    indexOf f.pi w.endBlk = (w.pos + w.len - 1) / pmfsInodeBlkSize f.pi := by
  rw [endBlk_eq hlen.ne', indexOf_page]

theorem startNew_iff : startNew f w = true ↔ w.pos % pmfsInodeBlkSize f.pi ≠ 0 ∧
    mapped f.d f.pi (w.pos / pmfsInodeBlkSize f.pi) = 0 := by
  unfold startNew
  rw [Bool.and_eq_true, bne_iff_ne, beq_iff_eq]

theorem endNew_iff : endNew f w = true ↔ (w.pos + w.len) % pmfsInodeBlkSize f.pi ≠ 0 ∧
    mapped f.d f.pi ((w.pos + w.len - 1) / pmfsInodeBlkSize f.pi) = 0 := by
  unfold endNew
  rw [Bool.and_eq_true, bne_iff_ne, beq_iff_eq]

section Edges

variable (ht : f1.pi.iBlkType = f.pi.iBlkType) (hlen : 0 < w.len)
  (hlast : (w.pos + w.len - 1) / pmfsInodeBlkSize f.pi < 512 ^ f1.pi.height)
include ht hlen hlast

theorem reached_start : reached f1.pi.height (indexOf f1.pi (w.pos >>> 12)) =
    w.pos / pmfsInodeBlkSize f.pi := by
  have hle : w.pos / pmfsInodeBlkSize f.pi ≤ (w.pos + w.len - 1) / pmfsInodeBlkSize f.pi :=
    Nat.div_le_div_right (by omega)
  rw [indexOf_pos, blkSize_congr ht]
  exact reached_of_lt (hle.trans_lt hlast)

theorem reached_end : reached f1.pi.height (indexOf f1.pi w.endBlk) =
    (w.pos + w.len - 1) / pmfsInodeBlkSize f.pi := by
  rw [indexOf_endBlk hlen, blkSize_congr ht]
  exact reached_of_lt hlast

theorem edgesInside_of_lt (a b : Bool) : EdgesInside f1.pi w a b := by
  have hle : w.pos / pmfsInodeBlkSize f.pi ≤ (w.pos + w.len - 1) / pmfsInodeBlkSize f.pi :=
    Nat.div_le_div_right (by omega)
  refine ⟨fun _ => ?_, fun _ => ?_⟩
  · rw [reached_start ht hlen hlast]
    exact hle.trans_lt hlast
  · rw [reached_end ht hlen hlast]
    exact hlast

/-- Only blocks that the file did not have are cleared. -/
theorem cleared_new (h : Cleared f1.pi w (startNew f w) (endNew f w) x) :
    mapped f.d f.pi (x / pmfsInodeBlkSize f.pi) = 0 := by
  have hbs := blkSize_congr ht
  rcases h with ⟨hnew, hidx, -⟩ | ⟨hnew, hidx, -⟩
  · rw [hbs, reached_start ht hlen hlast] at hidx
    rw [hidx]
    exact (startNew_iff.mp hnew).2
  · rw [hbs, reached_end ht hlen hlast] at hidx
    rw [hidx]
    exact (endNew_iff.mp hnew).2

/-- A byte of a new block outside of the range is cleared. -/
theorem new_cleared (hn : mapped f.d f.pi (x / pmfsInodeBlkSize f.pi) = 0)
    (hfirst : w.pos / pmfsInodeBlkSize f.pi ≤ x / pmfsInodeBlkSize f.pi)
    (hle : x / pmfsInodeBlkSize f.pi ≤ (w.pos + w.len - 1) / pmfsInodeBlkSize f.pi)
    (hx : ¬ (w.pos ≤ x ∧ x < w.pos + w.len)) : Cleared f1.pi w (startNew f w) (endNew f w) x := by
  have hbs := blkSize_congr ht
  have hpos := blkSize_pos f.pi
  have hdiv := Nat.div_add_mod' x (pmfsInodeBlkSize f.pi)
  have hmod := Nat.mod_lt x hpos
  by_cases hbefore : x < w.pos
  · -- the byte is in the first block, before the write
    have hidx : x / pmfsInodeBlkSize f.pi = w.pos / pmfsInodeBlkSize f.pi :=
      le_antisymm (Nat.div_le_div_right hbefore.le) hfirst
    have hdiv' := Nat.div_add_mod' w.pos (pmfsInodeBlkSize f.pi)
    rw [hidx] at hdiv hn
    refine Or.inl ⟨startNew_iff.mpr ⟨by omega, hn⟩, ?_, Nat.zero_le _, ?_⟩
    · rw [hbs, reached_start ht hlen hlast, hidx]
    · unfold edgeRange
      rw [hbs, if_neg (by decide)]
      omega
  · -- the byte is in the last block, behind the write
    have hidx : x / pmfsInodeBlkSize f.pi = (w.pos + w.len - 1) / pmfsInodeBlkSize f.pi :=
      le_antisymm hle (Nat.div_le_div_right (by omega))
    have hidx' : (w.pos + w.len) / pmfsInodeBlkSize f.pi =
      (w.pos + w.len - 1) / pmfsInodeBlkSize f.pi :=
      le_antisymm ((Nat.div_le_div_right (by omega)).trans hidx.le)
        (Nat.div_le_div_right (by omega))
    have hdiv' := Nat.div_add_mod' (w.pos + w.len) (pmfsInodeBlkSize f.pi)
    have hlast' := Nat.div_add_mod' (w.pos + w.len - 1) (pmfsInodeBlkSize f.pi)
    rw [hidx] at hdiv hn
    rw [hidx'] at hdiv'
    refine Or.inr ⟨endNew_iff.mpr ⟨by omega, hn⟩, ?_, ?_, ?_⟩
    · rw [hbs, reached_end ht hlen hlast, hidx]
    · unfold edgeRange
      rw [hbs, if_pos rfl]
      omega
    · have hlt := Nat.mod_lt (w.pos + w.len) hpos
      unfold edgeRange
      rw [hbs, if_pos rfl]
      omega

end Edges

/-! ### The write -/

/-- The allocation of a write that fits an `unsigned int` gives a block to every byte. -/
theorem alloc_full (hwf : WellFormed R f.d f.pi) (hlen : 0 < w.len) (hpos : w.pos + w.len < 2 ^ 63)
    (hnum : w.numBlocks < 2 ^ 32)
    (halloc : f.alloc (w.pos >>> 12) w.numBlocks false = some (f1, none)) :
    Added R (fun n => w.pos / pmfsInodeBlkSize f.pi ≤ n ∧
    n ≤ (w.pos + w.len - 1) / pmfsInodeBlkSize f.pi)
        f.d f.pi f1.d f1.pi ∧
      f1.inode.iSize = f.inode.iSize ∧
      (w.pos + w.len - 1) / pmfsInodeBlkSize f.pi < 512 ^ f1.pi.height ∧
      ∀ x, w.pos ≤ x → x < w.pos + w.len → mapped f1.d f1.pi (x / pmfsInodeBlkSize f.pi) ≠ 0 := by
  obtain ⟨d', pi', o, hrun, hadd, hfill⟩ :=
    alloc_added (w.pos >>> 12) (w.numBlocks % 2 ^ 32) false hwf
  unfold Regular.File.alloc pmfsAllocBlocks at halloc
  rw [hrun, Option.map_some, Option.map_some, Option.some.injEq, Prod.mk.injEq] at halloc
  obtain ⟨rfl, ho⟩ := halloc
  have hnum1 : 1 ≤ w.numBlocks := Nat.le_add_left 1 _
  have hfirst := indexOf_pos (f := f) w
  have hend : indexOf f.pi w.endBlk = (w.pos + w.len - 1) / pmfsInodeBlkSize f.pi :=
    indexOf_endBlk hlen
  have hlast : lastIndex f.pi (w.pos >>> 12) (w.numBlocks % 2 ^ 32) =
      (w.pos + w.len - 1) / pmfsInodeBlkSize f.pi := by
    rw [Nat.mod_eq_of_lt hnum, lastIndex_eq hnum1 (by rw [page_eq]; omega)]
    exact hend
  have hle : w.pos / pmfsInodeBlkSize f.pi ≤ (w.pos + w.len - 1) / pmfsInodeBlkSize f.pi :=
    Nat.div_le_div_right (by omega)
  obtain ⟨hfilled, hlt⟩ := hfill ho
  rw [hlast] at hlt hfilled
  rw [hfirst] at hfilled
  refine ⟨hadd.mono fun n hn => ?_, rfl, hlt, fun x hx hx' => ?_⟩
  · obtain ⟨-, h1, h2⟩ := hn
    rw [hlast] at h1 h2
    rw [hfirst] at h2
    omega
  · have h1 : w.pos / pmfsInodeBlkSize f.pi ≤ x / pmfsInodeBlkSize f.pi := Nat.div_le_div_right hx
    have h2 : x / pmfsInodeBlkSize f.pi ≤ (w.pos + w.len - 1) / pmfsInodeBlkSize f.pi :=
      Nat.div_le_div_right (by omega)
    rw [mapped, lookup_of_lt (h2.trans_lt hlt)]
    exact hfilled.find_ne_zero (by norm_num) uniform_tree h1 h2

/-- What the allocation and the clearing leave outside of the range. -/
theorem outside_same {m : ℕ → UInt8} (hlen : 0 < w.len)
    (hadd : Added R (fun n => w.pos / pmfsInodeBlkSize f.pi ≤ n ∧
      n ≤ (w.pos + w.len - 1) / pmfsInodeBlkSize f.pi) f.d f.pi f1.d f1.pi)
    (hlast : (w.pos + w.len - 1) / pmfsInodeBlkSize f.pi < 512 ^ f1.pi.height)
    (hx : ¬ (w.pos ≤ x ∧ x < w.pos + w.len)) :
    (if Cleared f1.pi w (startNew f w) (endNew f w) x then 0 else byteAt f1.d f1.pi m x) =
      byteAt f.d f.pi m x := by
  by_cases hcl : Cleared f1.pi w (startNew f w) (endNew f w) x
  · have hn := cleared_new hadd.blkType hlen hlast hcl
    rw [if_pos hcl, byteAt, if_pos hn]
  · rw [if_neg hcl]
    refine added_byteAt hadd ?_
    by_cases hn : mapped f.d f.pi (x / pmfsInodeBlkSize f.pi) = 0
    · refine Or.inr ((hadd.ext.outside _ fun hin => hcl ?_).trans hn)
      exact new_cleared hadd.blkType hlen hlast hn hin.1 hin.2 hx
    · exact Or.inl hn

/-- **Main result.** A write to a clean file whose allocation succeeds and whose user copy does not
stop has the effect of a store in an array of bytes, and the file is clean again. -/
theorem write_exact (buf : ℕ → UInt8) (hwf : WellFormed R s.f.d s.f.pi) (hclean : Clean s)
    (hr : ¬ Refused s.f w) (hpos : w.pos + w.len < 2 ^ 63) (hnum : w.numBlocks < 2 ^ 32)
    (havail : w.len ≤ w.avail)
    (halloc : ¬ InPlace s.f w → ∃ f1,
      (s.f.setTime w.now).alloc (w.pos >>> 12) w.numBlocks false = some (f1, none)) :
    ∃ s', pmfsXipFileWrite s w buf = some (s', .ok w.len) ∧ Stored s w buf s' := by
  have hlen : 0 < w.len := Nat.pos_of_ne_zero fun hcon => hr (Or.inr (Or.inl hcon))
  rcases write_cases buf hwf with ⟨hcon, -⟩ | ⟨-, -, s', r, hrun, -, hw⟩ | ⟨-, hin, hrun⟩
  · exact absurd hcon hr
  · rw [min_eq_left havail] at hw
    obtain rfl := eq_ok_of_returned hlen hw.returned
    exact ⟨s', hrun, stored_of_wrote hclean hw rfl fun _ _ => rfl⟩
  · obtain ⟨f1, hf1⟩ := halloc hin
    have hwf' : WellFormed R (s.f.setTime w.now).d (s.f.setTime w.now).pi := hwf.congr rfl rfl rfl
    obtain ⟨hadd, hsize, hlast, hmap⟩ := alloc_full hwf' hlen hpos hnum hf1
    have hedges := edgesInside_of_lt hadd.blkType hlen hlast (startNew s.f w) (endNew s.f w)
    have hbs := blkSize_congr hadd.blkType
    obtain ⟨s', hwrite, hw⟩ := writeTrans_full (s := { s with f := s.f.setTime w.now }) buf hf1
      hadd.wellFormed hedges (by omega) hlen havail (by rw [hbs]; exact hmap)
    refine ⟨s', hrun.trans hwrite, stored_of_wrote hclean hw hsize fun x hx => ?_⟩
    exact (outside_same hlen hadd hlast hx).trans (congrFun (content_setTime s.f w.now s.m) x)

/-- Three bytes inside the first block of an empty file. -/
theorem write_exact_three : ∃ R, WellFormed R (newDev 64) zeroInode ∧ ∃ s',
    pmfsXipFileWrite ⟨⟨newDev 64, plainFile, zeroInode⟩, fun _ => 1⟩ ⟨5, 3, 3, true, none, none, 0⟩
      (fun _ => 2) = some (s', .ok 3) ∧
    Stored ⟨⟨newDev 64, plainFile, zeroInode⟩, fun _ => 1⟩ ⟨5, 3, 3, true, none, none,
    0⟩ (fun _ => 2) s' := by
  obtain ⟨R, -, hwf⟩ := zeroInode_on (n := 64) (by decide)
  have hhole : ∀ n, mapped (newDev 64) zeroInode n = 0 := by
    intro n
    rw [mapped_of_root rfl]
  obtain ⟨r, hr, hnone⟩ : ∃ r ∈
    ((⟨newDev 64, plainFile, zeroInode⟩ : File).setTime 0).alloc 0 1 false,
      r.2 = none := by
    decide +kernel
  obtain ⟨f1, o⟩ := r
  subst hnone
  refine ⟨R, hwf, write_exact _ hwf (fun x _ => ?_) ?_ (by decide)
    (by decide) (by decide) fun _ => ⟨f1, hr⟩⟩
  · exact if_pos (hhole _)
  · simp [Refused]

/-- A file of one block of 2M. -/
def hugePage (d : Dev) (pi : PmfsInode) : File :=
  ⟨d, { plainFile with iSize := 2 ^ 21 }, { pi with iSize := 2 ^ 21 }⟩

theorem emptyHuge_on : ∃ R, WellFormed R (newDev (2 ^ 34)) { zeroInode with iBlkType := .b2M } := by
  obtain ⟨R, -, hwf⟩ := zeroInode_on (n := 2 ^ 34) (by norm_num)
  have hown := hwf.owns
  rw [inodeBlocks_of_root rfl, zero_add] at hown
  exact ⟨R, wellFormed_of_root hown rfl rfl⟩

/-- A write of 2^32 + 1 pages from the byte 100 on. -/
def hugeWrite : WriteArgs := ⟨100, 2 ^ 44 - 50, 2 ^ 44 - 50, true, none, none, 0⟩

/-- A write of 2^32 + 1 pages asks for one block. The file has it and the allocation succeeds, on a
device with room for every page. The edge behind the last page is looked up in a tree of height 0,
so that the bytes before the write are cleared. -/
theorem truncated_count_clears : ∃ R d pi, WellFormed R (hugePage d pi).d (hugePage d pi).pi ∧
    2 ^ 33 ≤ d.ba.numFreeBlocks.toNat ∧ Clean ⟨hugePage d pi, fun _ => 1⟩ ∧
    ¬ Refused (hugePage d pi) hugeWrite ∧
    (∃ f1, ((hugePage d pi).setTime 0).alloc (hugeWrite.pos >>> 12) hugeWrite.numBlocks false =
      some (f1, none)) ∧
    ∃ s' r, pmfsXipFileWrite ⟨hugePage d pi, fun _ => 1⟩ hugeWrite (fun _ => 2) = some (s', r) ∧
      content ⟨hugePage d pi, fun _ => 1⟩ 48 = 1 ∧ content s' 48 = 0 := by
  obtain ⟨R, hwf⟩ := emptyHuge_on
  obtain ⟨d, pi, o, hrun, hadd, -⟩ := alloc_added 0 1 true hwf
  obtain ⟨r, hr, hroom, hroot, hheight, htype, ⟨f1, o1⟩, halloc, rfl, hheight1, htype1⟩ :
      ∃ r ∈ __pmfsAllocBlocks (newDev (2 ^ 34)) { zeroInode with iBlkType := .b2M } 0 1 true,
        2 ^ 33 ≤ r.1.ba.numFreeBlocks.toNat ∧ mapped r.1 r.2.1 0 ≠ 0 ∧ r.2.1.height = 0 ∧
        r.2.1.iBlkType = .b2M ∧
        ∃ r' ∈ ((hugePage r.1 r.2.1).setTime 0).alloc (hugeWrite.pos >>> 12)
        hugeWrite.numBlocks false,
          r'.2 = none ∧ r'.1.pi.height = 0 ∧ r'.1.pi.iBlkType = .b2M := by
    decide +kernel
  rw [hrun, Option.mem_some_iff] at hr
  subst hr
  have hfile : WellFormed R (hugePage d pi).d (hugePage d pi).pi :=
    hadd.wellFormed.congr rfl rfl rfl
  have hbs : pmfsInodeBlkSize (hugePage d pi).pi = 2 ^ 21 := by
    rw [blkSize_eq, show (hugePage d pi).pi.iBlkType = .b2M from htype]
    rfl
  have hbs1 : pmfsInodeBlkSize f1.pi = 2 ^ 21 := by
    rw [blkSize_eq, htype1]
    rfl
  have hhole : ∀ n, 1 ≤ n → mapped (hugePage d pi).d (hugePage d pi).pi n = 0 := by
    intro n hn
    refine lookup_of_le ?_
    rw [show (hugePage d pi).pi.height = 0 from hheight]
    exact hn
  have hrefused : ¬ Refused (hugePage d pi) hugeWrite := by
    simp [Refused, hugeWrite]
  have hplace : ¬ InPlace (hugePage d pi) hugeWrite := by
    intro hcon
    have hle := hcon.2
    rw [hbs] at hle
    exact absurd hle (by decide)
  have hend : endNew (hugePage d pi) hugeWrite = true := by
    rw [endNew_iff, hbs]
    exact ⟨by decide, hhole _ (by decide)⟩
  have hreached : ∀ n, reached f1.pi.height n = 0 := fun n => if_pos hheight1
  have hin : ∀ a b, EdgesInside f1.pi hugeWrite a b := by
    intro a b
    refine ⟨fun _ => ?_, fun _ => ?_⟩ <;> rw [hreached] <;> positivity
  have hwf1 : WellFormed R f1.d f1.pi := by
    obtain ⟨f2, o2, halloc2, -, hadd2, -⟩ := fileAlloc_added (f := (hugePage d pi).setTime 0)
      (hugeWrite.pos >>> 12) hugeWrite.numBlocks false (hfile.congr rfl rfl rfl)
    rw [halloc2, Option.mem_some_iff] at halloc
    cases halloc
    exact hadd2.wellFormed
  refine ⟨R, d, pi, hfile, hroom, fun x hx => ?_, hrefused, ⟨f1, halloc⟩, ?_⟩
  · have hx' : 2 ^ 21 ≤ x := hx
    exact if_pos (hhole _ (by rw [hbs]; omega))
  rcases write_cases (s := ⟨hugePage d pi, fun _ => 1⟩) (w := hugeWrite) (fun _ => 2) hfile with
    ⟨hcon, -⟩ | ⟨-, hcon, -⟩ | ⟨-, -, hslow⟩
  · exact absurd hcon hrefused
  · exact absurd hcon hplace
  obtain ⟨s', r, k, hwrite, hw⟩ := writeTrans_spec (s := ⟨(hugePage d pi).setTime 0, fun _ => 1⟩)
    (w := hugeWrite) (fun _ => 2) halloc hwf1 (hin _ _) (by decide)
  have hcl : Cleared f1.pi hugeWrite (startNew (hugePage d pi) hugeWrite)
    (endNew (hugePage d pi) hugeWrite)
      48 := by
    refine Or.inr ⟨hend, ?_, ?_, ?_⟩
    · rw [hreached, hbs1]
      norm_num
    · rw [hbs1, edgeRange, if_pos rfl]
      dsimp only
      decide
    · rw [hbs1, edgeRange, if_pos rfl, hbs1]
      decide
  refine ⟨s', r, hslow.trans hwrite, ?_, ?_⟩
  · unfold content byteAt
    rw [hbs]
    exact if_neg hroot
  · have hx := hw.content 48
    rw [if_neg fun hcon => absurd hcon.1 (by decide), if_pos hcl] at hx
    exact hx

/-! ### Reading back -/

/-- **Main result.** A read after a write returns the bytes that the write says it has copied, also
when it stopped early or could not get all blocks. -/
theorem written_bytes_read {k : ℕ} (hwf : WellFormed R s.f.d s.f.pi)
    (hpos : w.pos + w.len < 2 ^ 64) (hk : 0 < k)
    (hrun : pmfsXipFileWrite s w buf = some (s', .ok k)) : ∃ e, doXipMappingRead s' w.pos k k =
    some (bytes buf 0 k, e) := by
  obtain ⟨f, c, hw⟩ : ∃ f c, Wrote R buf f c w s' (.ok k) k := by
    rcases write_cases buf hwf with ⟨-, r, hr, h0⟩ | ⟨-, -, s1, r, hr, -, hw⟩ | ⟨-, -, hr⟩
    · cases hr.symm.trans hrun
      exact absurd h0 hk.ne'
    · cases hr.symm.trans hrun
      obtain rfl : k = _ := hw.returned
      exact ⟨_, _, hw⟩
    · obtain ⟨f1, o, halloc, -, hadd, -⟩ :=
        fileAlloc_added (f := s.f.setTime w.now) (w.pos >>> 12) w.numBlocks false
          (hwf.congr rfl rfl rfl)
      rw [hr] at hrun
      have hin : EdgesInside f1.pi w (startNew s.f w) (endNew s.f w) := by
        by_contra hcon
        rw [writeTrans_outside (s := { s with f := s.f.setTime w.now }) buf halloc
          hadd.wellFormed hcon] at hrun
        cases hrun
      obtain ⟨s1, r, k', hrun', hw⟩ :=
        writeTrans_spec (s := { s with f := _ }) buf halloc hadd.wellFormed hin hpos
      cases hrun'.symm.trans hrun
      obtain rfl : k = k' := hw.returned
      exact ⟨_, _, hw⟩
  obtain ⟨e, hread⟩ := read_eq w.pos hw.wf.root hk le_rfl
  rw [hw.size, min_eq_left (by omega)] at hread
  refine ⟨e, hread.trans (congrArg (fun l => some (l, e)) (List.map_congr_left fun i hi => ?_))⟩
  have := List.mem_range.mp hi
  rw [hw.content, if_pos (by omega)]
  congr 1
  omega

theorem written_bytes_read_three : ∃ s s' e, pmfsXipFileWrite s ⟨5, 3, 3, true, none, none,
    0⟩ (fun _ => 2) = some (s', .ok 3) ∧
    doXipMappingRead s' 5 3 3 = some (bytes (fun _ => 2) 0 3, e) := by
  obtain ⟨R, -, hwf⟩ := zeroInode_on (n := 64) (by decide)
  let s : Image := ⟨⟨newDev 64, plainFile, zeroInode⟩, fun _ => 1⟩
  obtain ⟨⟨s', _⟩, hrun, rfl⟩ : ∃ r ∈ pmfsXipFileWrite s ⟨5, 3, 3, true, none, none, 0⟩ fun _ => 2,
    .ok 3 = r.2 := by
    decide +kernel
  obtain ⟨e, hread⟩ := written_bytes_read hwf (by decide) (by decide) hrun
  exact ⟨s, s', e, hrun, hread⟩

end Pmfs.Inodes.WriteExact
