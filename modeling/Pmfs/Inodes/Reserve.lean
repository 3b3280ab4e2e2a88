import Pmfs.Inodes.PageLogs
import Pmfs.Inodes.WriteExact
import Pmfs.Inodes.WriteSafe
import Pmfs.Inodes.EofRuns

/-! # Whether a transaction reserves enough log entries

`pmfs_xip_file_write` and `pmfs_fallocate` tell `pmfs_new_transaction` how many log entries they
will need before they know the tree. `WriteFits` and `FallocFits` say that this is enough on every
device with the file. What they ask for is one entry for the inode, what the allocations log, and
one to commit. The allocations log `treeNeed` at most, and a write beyond the largest file one entry
for each hole before that (`write_logs`). Both are reached on a device with enough free blocks
(`write_reaches`), so that they decide the question: `log_fits_iff`. -/

namespace Pmfs.Inodes.Reserve

open Lib.First Lib.Radix Lib.RadixMap Block.Model Tree.Model Tree.Own Tree.Inode Tree.Extend
open Tree.Supply Tree.Cut Tree.Demand Tree.Retry Tree.Holes
open Inodes.Model Inodes.Data Inodes.Content Inodes.Writes Inodes.WriteSafe
open Inodes.PageLogs
open Inodes.Regular (File WriteArgs FallocArgs pmfsFallocate pmfsSetBlocksizeHint)
open Inodes.Eof (ValidWrite)

/-! ### Entries -/

/-- `MAX_INODE_LENTRIES`. -/
def maxInodeLentries : ℕ := 2

/-- `MAX_DATA_PER_LENTRY`. -/
def maxDataPerLentry : ℕ := 48

/-- `MAX_METABLOCK_LENTRIES`. -/
def maxMetablockLentries : ℕ := 4096 * 3 / maxDataPerLentry

/-- `MAX_PTRS_PER_LENTRY`. -/
def maxPtrsPerLentry : ℕ := maxDataPerLentry / 8

/-- `num_entries` of the transaction that `pmfs_new_transaction` returns; an undo log has one more
for the commit record. -/
def numEntries (redoLog : Bool) (maxLogEntries : ℕ) : ℕ :=
  if !redoLog then maxLogEntries + 1 else maxLogEntries

/-- What `pmfs_xip_file_write` reserves. -/
def writeReserve (redoLog : Bool) (w : WriteArgs) : ℕ :=
  let maxLogentries := w.numBlocks / maxPtrsPerLentry + 2
  numEntries redoLog (maxInodeLentries +
    if maxLogentries > maxMetablockLentries then maxMetablockLentries else maxLogentries)

/-- What `pmfs_fallocate` reserves. -/
def fallocReserve (redoLog : Bool) : ℕ :=
  numEntries redoLog (maxInodeLentries + maxMetablockLentries)

/-- What a transaction asks for when its allocations ask for `n`: the inode is logged before and a
record to commit or to abort after. -/
def transEntries (n : ℕ) : ℕ := numLes maxDataPerLentry + n + 1

/-- On every device with this file where no blocknode is missing, a write at this position and of
this length asks for no more entries than it reserves. A write that opens no transaction logs
nothing. -/
def WriteFits (redoLog : Bool) (f : File) (w : WriteArgs) : Prop :=
  ∀ (R : Multiset ℕ) (d : Dev), WellFormed R d f.pi → treeOf d f.pi = treeOf f.d f.pi →
    Calm f.pi.iBlkType d → ∀ (m buf : ℕ → UInt8) (w' : WriteArgs), w'.pos = w.pos →
    w'.len = w.len → ∀ s' r n,
      pmfsXipFileWrite ⟨{ f with d := d }, m⟩ w' buf = some (s', r) → Logs d s'.f.d n →
      transEntries n ≤ writeReserve redoLog w

/-- The same of `pmfs_fallocate`, on every device with this file. -/
def FallocFits (redoLog : Bool) (f : File) (a : FallocArgs) : Prop :=
  ∀ (R : Multiset ℕ) (d : Dev), WellFormed R d f.pi → treeOf d f.pi = treeOf f.d f.pi →
    ∀ a' : FallocArgs, a'.mode = a.mode → a'.offset = a.offset → a'.len = a.len → ∀ f' o n,
      pmfsFallocate { f with d := d } a' = some (f', o) → Logs d f'.d n →
      transEntries n ≤ fallocReserve redoLog

open Classical in
/-- What the allocations of a write ask for: those of the whole range if three levels hold it, or
else those of the pages below the largest index, if the clearing of the edges comes back. -/
noncomputable def writeNeed (f : File) (w : WriteArgs) : ℕ :=
  if lastIndex f.pi (w.pos >>> 12) (asks w) < 512 ^ 3 then treeNeed f.d f.pi (w.pos >>> 12) (asks w)
  else if EdgesInside f.pi w (startNew f w) (endNew f w) then
    holes f.d f.pi (w.pos / pmfsInodeBlkSize f.pi)
  else 0

variable {R : Multiset ℕ} {f f1 : File} {d d' : Dev} {pi pi' : PmfsInode}
  {s s' : Image} {w : WriteArgs} {a : FallocArgs} {buf : ℕ → UInt8} {r : Except Errno ℕ}
  {o : Option Errno} {redoLog : Bool} {n : ℕ}

/-! ### The range of a write -/

theorem asks_eq (hv : ValidWrite w) : asks w = w.numBlocks ∧ 1 ≤ asks w ∧
    w.pos >>> 12 + asks w ≤ 2 ^ 64 := by
  have h1 := hv.1
  have h2 := hv.2
  have hnum : w.numBlocks = (w.len + w.pos % 4096 - 1) / 4096 + 1 := by
    unfold Regular.WriteArgs.numBlocks
    rw [page_eq]
  have hlt : w.numBlocks < 2 ^ 32 := by omega
  unfold asks
  rw [Nat.mod_eq_of_lt hlt, page_eq]
  exact ⟨rfl, by omega, by omega⟩

theorem lastIndex_write (pi : PmfsInode) (hv : ValidWrite w) (hlen : w.len ≠ 0) :
    lastIndex pi (w.pos >>> 12) (asks w) = (w.pos + w.len - 1) / pmfsInodeBlkSize pi := by
  obtain ⟨heq, h1, h2⟩ := asks_eq hv
  have hend := endBlk_eq hlen
  unfold Regular.WriteArgs.endBlk at hend
  rw [lastIndex_eq h1 h2, heq, hend, indexOf_page]

theorem lastIndex_same (hv : ValidWrite w)
    (hin : w.pos % pmfsInodeBlkSize pi + w.len ≤ pmfsInodeBlkSize pi) : lastIndex pi (w.pos >>> 12)
    (asks w) = w.pos / pmfsInodeBlkSize pi := by
  by_cases hlen : w.len = 0
  · have hone : asks w = 1 := by
      rw [(asks_eq hv).1, Regular.WriteArgs.numBlocks, hlen, page_eq]
      omega
    have hpos := hv.2
    rw [hone, lastIndex_one pi (page_lt (by omega)), indexOf_page]
  · rw [lastIndex_write pi hv hlen]
    have hpos := blkSize_pos pi
    have hx := Nat.div_add_mod' w.pos (pmfsInodeBlkSize pi)
    refine Nat.div_eq_of_lt_le (by omega) ?_
    rw [Nat.succ_mul]
    omega

theorem writeNeed_same (hv : ValidWrite w)
    (hin : w.pos % pmfsInodeBlkSize f.pi + w.len ≤ pmfsInodeBlkSize f.pi) : writeNeed f w ≤ 1 := by
  have hlast := lastIndex_same hv hin
  unfold writeNeed treeNeed
  dsimp only
  rw [hlast, indexOf_page]
  split_ifs with hlt hnone hedge
  · exact Nat.zero_le 1
  · exact need_one_le
  · rw [holes_of_le (not_lt.mp hlt)]
    exact Nat.zero_le 1
  · exact Nat.zero_le 1

theorem treeNeed_on (htree : treeOf d pi = treeOf d' pi) (b n : ℕ) :
    treeNeed d pi b n = treeNeed d' pi b n := by
  unfold treeNeed
  rw [htree]

/-- What a write needs does not depend on the rest of the device. -/
theorem writeNeed_on (htree : treeOf d f.pi = treeOf f.d f.pi) :
    writeNeed { f with d := d } w = writeNeed f w := by
  have hmap : ∀ n, mapped d f.pi n = mapped f.d f.pi n := by
    intro n
    unfold mapped
    rw [htree]
  unfold writeNeed holes
  rw [startNew_on hmap, endNew_on hmap, treeNeed_on htree]
  simp only [hmap]

/-! ### What a write logs -/

/-- A write in a transaction, from the allocation on. -/
theorem writeTrans_loop {newSblk newEblk : Bool} (hwf : WellFormed R f1.d f1.pi)
    (halloc : s.f.alloc (w.pos >>> 12) w.numBlocks false = some (f1, o))
    (hrun : writeTrans s w buf newSblk newEblk = some (s', r)) :
    EdgesInside f1.pi w newSblk newEblk ∧
      ∃ m l, xipWriteLoop buf w.len ⟨⟨f1, m⟩, w.pos, w.len, w.avail, 0, none⟩ = some l ∧
      s'.f.d = l.s.f.d := by
  have hin : EdgesInside f1.pi w newSblk newEblk := by
    by_contra hcon
    rw [writeTrans_outside buf halloc hwf hcon] at hrun
    simp at hrun
  obtain ⟨⟨f2, m⟩, hclear, hf, -⟩ := clearEdges_spec (s := { s with f := f1 }) hwf hin
  subst hf
  unfold writeTrans at hrun
  rw [halloc, Option.bind_some, hclear, Option.bind_some] at hrun
  unfold __pmfsXipFileWrite at hrun
  obtain ⟨l, hloop, heq⟩ := Option.map_eq_some_iff.mp hrun
  rw [Prod.mk.injEq] at heq
  refine ⟨hin, m, l, hloop, ?_⟩
  rw [← heq.1]
  exact extend_d _ _

/-- The pages of a range that was allocated, as far as there were blocks, ask for nothing. -/
theorem quiet_alloc (hwf : WellFormed R d pi) (hcalm : Calm pi.iBlkType d) (hv : ValidWrite w)
    (hlen : w.len ≠ 0) (hlast : lastIndex pi (w.pos >>> 12) (asks w) < 512 ^ 3)
    (hrun : __pmfsAllocBlocks d pi (w.pos >>> 12) (asks w) false = some (f1.d, f1.pi, o)) :
    Quiet f1 (w.pos / pmfsInodeBlkSize pi) ((w.pos + w.len - 1) / pmfsInodeBlkSize pi) := by
  obtain ⟨hadd, hfill⟩ := alloc_run hwf hrun
  intro y hy h1 h2 hhole hbefore
  rw [← indexOf_page] at h1 hbefore
  rw [← lastIndex_write pi hv hlen] at h2
  by_cases ho : o = none
  · obtain ⟨hfilled, hlt⟩ := hfill ho
    refine absurd hhole ?_
    rw [mapped, lookup_of_lt (h2.trans_lt hlt)]
    exact hfilled.find_ne_zero (by norm_num) uniform_tree h1 h2
  · obtain ⟨e, rfl⟩ := Option.ne_none_iff_exists'.mp ho
    exact retry_silent hadd.wellFormed hy (alloc_halts hwf hcalm (h1.trans h2) hlast hrun) h1
      h2 hhole hbefore

theorem slow_logs (hwf : WellFormed R s.f.d s.f.pi) (hcalm : Calm s.f.pi.iBlkType s.f.d)
    (hv : ValidWrite w) (hlen : w.len ≠ 0)
    (hrun : writeTrans { s with f := s.f.setTime w.now } w buf (startNew s.f w)
      (endNew s.f w) = some (s', r)) : ∃ n, Logs s.f.d s'.f.d n ∧ n ≤ writeNeed s.f w ∧
        (Ample R s.f.d → w.len ≤ w.avail → n = writeNeed s.f w) := by
  have hpos := hv.2
  have hwf' : WellFormed R s.f.d (s.f.setTime w.now).pi := hwf.congr rfl rfl rfl
  obtain ⟨f1, o, halloc, hallocs, hadd, -⟩ := alloc_on (f := s.f) (w := w) hwf
  obtain ⟨hin, m, l, hloop, hd⟩ := writeTrans_loop hadd.wellFormed halloc hrun
  have hbs : pmfsInodeBlkSize f1.pi = pmfsInodeBlkSize s.f.pi := blkSize_congr hadd.blkType
  rw [hd]
  by_cases hlast : lastIndex s.f.pi (w.pos >>> 12) (asks w) < 512 ^ 3
  · have hneed : writeNeed s.f w = treeNeed s.f.d s.f.pi (w.pos >>> 12) (asks w) := if_pos hlast
    obtain ⟨n, hlogs, hle, hexact⟩ := alloc_demand hwf' hallocs
    have hquiet := quiet_alloc hwf' hcalm hv hlen hlast hallocs
    have hpages : Logs f1.d l.s.f.d 0 := by
      refine loop_quiet hadd.wellFormed hquiet rfl ?_ ?_ (Nat.pos_of_ne_zero hlen)
        (by dsimp only; omega) ?_ hloop
      · rw [hbs]
        exact le_rfl
      · intro n h1 h2
        rw [hbs] at h2
        exact absurd h2 (not_lt.mpr h1)
      · rw [hbs]
        exact le_rfl
    rw [hneed]
    refine ⟨n + 0, hlogs.trans hpages, hle, fun hample _ => hexact ?_⟩
    exact (alloc_of_ample hwf' hample hlast hallocs).1
  · -- the range is refused, and the pages are allocated one by one
    have hsame := hallocs
    rw [alloc_beyond hwf'.height (not_lt.mp hlast), Option.some.injEq, Prod.mk.injEq,
      Prod.mk.injEq] at hsame
    have hinside : EdgesInside s.f.pi w (startNew s.f w) (endNew s.f w) :=
      (edgesInside_congr (k := s.f.pi.height) (by rw [← hsame.2.1]; rfl) hadd.blkType).mp hin
    have hneed : writeNeed s.f w = holes s.f.d s.f.pi (w.pos / pmfsInodeBlkSize s.f.pi) := by
      rw [writeNeed, if_neg hlast, if_pos hinside]
    have hbeyond : 512 ^ 3 * pmfsInodeBlkSize s.f.pi < w.pos + w.len := by
      rw [lastIndex_write _ hv hlen, Nat.not_lt, Nat.le_div_iff_mul_le (blkSize_pos _)] at hlast
      omega
    have hholes : holes f1.d f1.pi (w.pos / pmfsInodeBlkSize f1.pi) =
        holes s.f.d s.f.pi (w.pos / pmfsInodeBlkSize s.f.pi) := by
      rw [hbs, ← hsame.1, ← hsame.2.1]
      rfl
    obtain ⟨n, hlogs, hle, hexact⟩ := loop_holes hadd.wellFormed (by dsimp only; omega)
      (by dsimp only; rw [hbs]; exact hbeyond) hloop
    rw [hholes] at hle hexact
    rw [← hsame.1] at hlogs hexact
    rw [hneed]
    exact ⟨n, hlogs, hle, fun hample havail => hexact hample havail le_rfl⟩

/-- **The upper bound.** -/
theorem write_logs (hwf : WellFormed R s.f.d s.f.pi) (hcalm : Calm s.f.pi.iBlkType s.f.d)
    (hv : ValidWrite w) (hrun : pmfsXipFileWrite s w buf = some (s', r)) :
    ∃ n, Logs s.f.d s'.f.d n ∧ n ≤ writeNeed s.f w := by
  rcases write_cases (w := w) buf hwf with ⟨-, r', hrun', -⟩ | ⟨-, -, s1, r', hrun', hd,
    -⟩ | ⟨hrefused, -, hrun'⟩
  · rw [hrun, Option.some.injEq, Prod.mk.injEq] at hrun'
    rw [hrun'.1]
    exact ⟨0, logs_zero _, Nat.zero_le _⟩
  · rw [hrun, Option.some.injEq, Prod.mk.injEq] at hrun'
    rw [hrun'.1, hd]
    exact ⟨0, logs_zero _, Nat.zero_le _⟩
  · have hlen : w.len ≠ 0 := fun hcon => hrefused (Or.inr (Or.inl hcon))
    rw [hrun] at hrun'
    obtain ⟨n, hlogs, hle, -⟩ := slow_logs hwf hcalm hv hlen hrun'.symm
    exact ⟨n, hlogs, hle⟩

/-- The write with a buffer that can be read to its end, and without errors of other calls. -/
def smooth (w : WriteArgs) : WriteArgs :=
  { w with avail := w.len, accessOk := true, trans := none, privs := none }

/-- With enough free blocks a write in a transaction comes back, if the clearing of the edges does.
-/
theorem slow_returns (m buf : ℕ → UInt8) (newSblk newEblk : Bool) (hwf : WellFormed R d f.pi)
    (hample : Ample R d) (hv : ValidWrite w) (hlen : w.len ≠ 0)
    (hin : lastIndex f.pi (w.pos >>> 12) (asks w) < 512 ^ 3 ∨
      EdgesInside f.pi w newSblk newEblk) :
    ∃ s' r, writeTrans ⟨({ f with d := d } : File).setTime w.now, m⟩ w buf newSblk newEblk =
    some (s', r) := by
  have hpos := hv.2
  have hwf' : WellFormed R d (f.setTime w.now).pi := hwf.congr rfl rfl rfl
  obtain ⟨f1, o, halloc, hallocs, hadd, -⟩ := alloc_on (f := f) (w := w) hwf
  suffices hedges : EdgesInside f1.pi w newSblk newEblk by
    obtain ⟨s', r, -, hrun, -⟩ :=
      writeTrans_spec (s := ⟨({ f with d := d } : File).setTime w.now, m⟩) buf halloc
        hadd.wellFormed hedges (by omega)
    exact ⟨s', r, hrun⟩
  by_cases hlast : lastIndex f.pi (w.pos >>> 12) (asks w) < 512 ^ 3
  · -- the tree has the whole range
    obtain ⟨ho, -⟩ := alloc_of_ample hwf' hample hlast hallocs
    obtain ⟨-, hlt⟩ := (alloc_run hwf' hallocs).2 ho
    rw [lastIndex_write _ hv hlen] at hlt
    exact WriteExact.edgesInside_of_lt (f := f.setTime w.now) hadd.blkType
      (Nat.pos_of_ne_zero hlen) hlt _ _
  · have hsame := hallocs
    rw [alloc_beyond hwf'.height (not_lt.mp hlast), Option.some.injEq, Prod.mk.injEq,
      Prod.mk.injEq] at hsame
    rw [← hsame.2.1]
    exact hin.resolve_left hlast

/-- **The bound is reached**, on a device with enough free blocks. -/
theorem write_reaches (m buf : ℕ → UInt8) (hwf : WellFormed R f.d f.pi) (hv : ValidWrite w) :
    writeNeed f w ≤ 1 ∨ ∃ R' d s' r, WellFormed R' d f.pi ∧ treeOf d f.pi = treeOf f.d f.pi ∧
    SlabOk d ∧
      pmfsXipFileWrite ⟨{ f with d := d }, m⟩ (smooth w) buf = some (s', r) ∧
      Logs d s'.f.d (writeNeed f w) := by
  by_cases hsame : w.pos % pmfsInodeBlkSize f.pi + w.len ≤ pmfsInodeBlkSize f.pi
  · exact Or.inl (writeNeed_same hv hsame)
  have hlen : w.len ≠ 0 := by
    have := Nat.mod_lt w.pos (blkSize_pos f.pi)
    omega
  by_cases hin : lastIndex f.pi (w.pos >>> 12) (asks w) < 512 ^ 3 ∨
    EdgesInside f.pi w (startNew f w) (endNew f w)
  swap
  · refine Or.inl ?_
    rw [not_or] at hin
    rw [writeNeed, if_neg hin.1, if_neg hin.2]
    exact Nat.zero_le 1
  obtain ⟨R', j, hspare, hample⟩ := ample_spare hwf
  refine Or.inr ⟨R', spare f.d j, ?_⟩
  have hmap : ∀ n, mapped (spare f.d j) f.pi n = mapped f.d f.pi n := fun _ => rfl
  rcases write_cases (s := ⟨{ f with d := spare f.d j }, m⟩) (w := smooth w) buf hspare with
    ⟨hcon, -⟩ | ⟨-, hcon, -⟩ | ⟨-, -, hrun⟩
  · rcases hcon with hcon | hcon | ⟨-, hcon | hcon⟩
    · simp [smooth] at hcon
    · exact absurd hcon hlen
    · exact absurd rfl hcon
    · exact absurd rfl hcon
  · exact absurd hcon.2 hsame
  obtain ⟨s', r, hslow⟩ :=
    slow_returns (w := smooth w) m buf (startNew f w) (endNew f w) hspare hample hv hlen hin
  have hback := hrun.trans hslow
  obtain ⟨n, hlogs, -, hexact⟩ :=
    slow_logs (s := ⟨{ f with d := spare f.d j }, m⟩) (w := smooth w) hspare
      (Or.inr hample.slab) hv hlen hslow
  have hneed : n = writeNeed f w := by
    rw [hexact hample le_rfl, ← writeNeed_on (d := spare f.d j) rfl]
    rfl
  rw [hneed] at hlogs
  exact ⟨s', r, hspare, rfl, hample.slab, hback, hlogs⟩

/-! ### What a preallocation logs -/

theorem hint_wf (size : ℕ) (hwf : WellFormed R d pi) :
    WellFormed R d (pmfsSetBlocksizeHint pi size) := by
  unfold pmfsSetBlocksizeHint
  by_cases hroot : pi.root = 0
  · have hown := hwf.owns
    rw [inodeBlocks_of_root hroot] at hown
    rw [if_neg (not_not.mpr hroot)]
    refine ⟨?_, fun _ => hwf.root hroot, hwf.height⟩
    rw [inodeBlocks_of_root (by exact hroot)]
    exact hown
  · rw [if_pos hroot]
    exact hwf

/-- The hint changes nothing for a file with blocks, and the first blocks of a file ask for nothing.
-/
theorem treeNeed_hint (size b n : ℕ) : treeNeed d (pmfsSetBlocksizeHint pi size) b n =
    treeNeed d pi b n := by
  unfold pmfsSetBlocksizeHint
  by_cases hroot : pi.root = 0
  · rw [if_neg (not_not.mpr hroot), treeNeed_of_root hroot]
    exact treeNeed_of_root hroot
  · rw [if_pos hroot]

theorem fallocFinish_d (f : File) (a : FallocArgs) (o : Option Errno) :
    (Regular.fallocFinish f a o).d = f.d := by
  unfold Regular.fallocFinish
  dsimp only
  split_ifs
  all_goals first | rfl | exact extend_d _ _

theorem falloc_logs {f' : File} (hwf : WellFormed R f.d f.pi)
    (hrun : pmfsFallocate f a = some (f', o)) : ∃ n, Logs f.d f'.d n ∧
    (n = 0 ∨ a.mode / 2 = 0 ∧ sIsDir f.inode.iMode = false ∧
      n ≤ treeNeed f.d f.pi (a.offset >>> 12) (a.numBlocks % 2 ^ 32)) := by
  by_cases href : Regular.Refused f a
  · obtain ⟨e, heq⟩ := Regular.falloc_refused href
    rw [heq] at hrun
    cases hrun
    exact ⟨0, logs_zero _, Or.inl rfl⟩
  have hhint := hint_wf (a.len + a.offset) hwf
  obtain ⟨f1, o1, halloc, hallocs, -⟩ := fileAlloc_added
    (f := { f with pi := pmfsSetBlocksizeHint f.pi (a.len + a.offset) }) (a.offset >>> 12)
    a.numBlocks true hhint
  obtain ⟨n, hlogs, hle, -⟩ := alloc_demand hhint hallocs
  rw [treeNeed_hint] at hle
  rw [Regular.falloc_ran href, halloc, Option.map_some] at hrun
  cases hrun
  rw [fallocFinish_d]
  obtain ⟨hmode, hdir, -⟩ := not_or.mp href |>.imp_right not_or.mp
  exact ⟨n, hlogs, Or.inr ⟨not_not.mp hmode, Bool.eq_false_iff.mpr hdir, hle⟩⟩

/-- The bound is reached, on a device with enough free blocks. -/
theorem falloc_reaches (a : FallocArgs) (hwf : WellFormed R f.d f.pi) (hmode : a.mode / 2 = 0)
    (hdir : sIsDir f.inode.iMode = false) : treeNeed f.d f.pi (a.offset >>> 12)
    (a.numBlocks % 2 ^ 32) = 0 ∨ ∃ R' d f' o, WellFormed R' d f.pi ∧
    treeOf d f.pi = treeOf f.d f.pi ∧
      pmfsFallocate { f with d := d } { a with newsizeOk := none, trans := none } = some (f', o) ∧
      Logs d f'.d (treeNeed f.d f.pi (a.offset >>> 12) (a.numBlocks % 2 ^ 32)) := by
  by_cases hnone : f.pi.root = 0 ∨ 512 ^ 3 ≤ lastIndex f.pi (a.offset >>> 12) (a.numBlocks % 2 ^ 32)
  · exact Or.inl (if_pos hnone)
  rw [not_or, not_le] at hnone
  obtain ⟨R', j, hspare, hample⟩ := ample_spare hwf
  obtain ⟨f1, o, halloc, hallocs, -⟩ :=
    fileAlloc_added (f := { f with d := spare f.d j }) (a.offset >>> 12) a.numBlocks true hspare
  have hhint : pmfsSetBlocksizeHint f.pi (a.len + a.offset) = f.pi := if_pos hnone.1
  obtain ⟨rfl, -⟩ := alloc_of_ample hspare hample hnone.2 hallocs
  obtain ⟨n, hlogs, -, hexact⟩ := alloc_demand hspare hallocs
  rw [hexact rfl] at hlogs
  refine Or.inr ⟨R', spare f.d j,
    Regular.fallocFinish f1 { a with newsizeOk := none, trans := none } none, none,
    hspare, rfl, ?_, ?_⟩
  · rw [Regular.falloc_ran (by simp [Regular.Refused, hmode, hdir]), hhint,
      show FallocArgs.numBlocks { a with newsizeOk := none, trans := none } =
        a.numBlocks from rfl, halloc]
    rfl
  · rw [fallocFinish_d]
    exact hlogs

/-! ### The reservation -/

theorem le_writeReserve (redoLog : Bool) (w : WriteArgs) : 4 ≤ writeReserve redoLog w := by
  have hmeta : maxMetablockLentries = 256 := rfl
  have hinode : maxInodeLentries = 2 := rfl
  have hptrs : maxPtrsPerLentry = 6 := rfl
  unfold writeReserve numEntries
  dsimp only
  rw [hptrs]
  split_ifs <;> omega

theorem transEntries_mono {m n : ℕ} (h : m ≤ n) : transEntries m ≤ transEntries n := by
  unfold transEntries
  omega

theorem writeFits_iff (redoLog : Bool) (hwf : WellFormed R f.d f.pi) (hv : ValidWrite w) :
    WriteFits redoLog f w ↔ transEntries (writeNeed f w) ≤ writeReserve redoLog w := by
  constructor
  · intro h
    rcases write_reaches (fun _ => 0) (fun _ => 0) hwf hv with hle | ⟨R', d, s', r, hwf', htree,
      hslab, hrun, hlogs⟩
    · have hthree : transEntries 1 = 3 := rfl
      have hmono := transEntries_mono hle
      have hfour := le_writeReserve redoLog w
      omega
    · exact h R' d hwf' htree (Or.inr hslab) _ _ (smooth w) rfl rfl s' r _ hrun hlogs
  · intro h R' d hwf' htree hcalm m buf w' hpos hlen s' r n hrun hlogs
    have hv' : ValidWrite w' := by
      unfold Eof.ValidWrite
      rw [hpos, hlen]
      exact hv
    obtain ⟨n', hlogs', hle⟩ := write_logs (s := ⟨{ f with d := d }, m⟩) hwf' hcalm hv' hrun
    have hneed : writeNeed { f with d := d } w' = writeNeed f w := by
      rw [← writeNeed_on (w := w) htree]
      obtain ⟨pos, len, avail, accessOk, trans, privs, now⟩ := w'
      obtain ⟨pos', len', avail', accessOk', trans', privs', now'⟩ := w
      subst hpos hlen
      rfl
    rw [hneed] at hle
    rw [hlogs.unique hlogs']
    exact (transEntries_mono hle).trans h

theorem fallocFits_iff (redoLog : Bool) (a : FallocArgs) (hwf : WellFormed R f.d f.pi) :
    FallocFits redoLog f a ↔ (a.mode / 2 = 0 → sIsDir f.inode.iMode = false →
      transEntries (treeNeed f.d f.pi (a.offset >>> 12) (a.numBlocks % 2 ^ 32)) ≤
      fallocReserve redoLog) := by
  have hzero : transEntries 0 ≤ fallocReserve redoLog := by
    cases redoLog <;> decide
  constructor
  · intro h hmode hdir
    rcases falloc_reaches a hwf hmode hdir with h0 | ⟨R', d, f', o, hwf', htree, hrun, hlogs⟩
    · rw [h0]
      exact hzero
    · exact h R' d hwf' htree { a with newsizeOk := none, trans := none } rfl rfl rfl
        f' o _ hrun hlogs
  · intro h R' d hwf' htree a' hmode hoffset hlen f' o n hrun hlogs
    obtain ⟨n', hlogs', hcase⟩ := falloc_logs (f := { f with d := d }) hwf' hrun
    rw [hlogs.unique hlogs']
    rcases hcase with rfl | ⟨hmode', hdir, hle⟩
    · exact hzero
    · have hnum : a'.numBlocks = a.numBlocks := by
        unfold Regular.FallocArgs.numBlocks
        rw [hoffset, hlen]
      rw [treeNeed_on htree, hnum, hoffset] at hle
      rw [hmode] at hmode'
      exact (transEntries_mono hle).trans (h hmode' hdir)

/-- **Main result.** The log entries that a write or a preallocation reserves are enough exactly
when what the tree needs for the range, together with the inode and the commit record, is no more.
-/
theorem log_fits_iff (redoLog : Bool) (hwf : WellFormed R f.d f.pi) (hv : ValidWrite w)
    (a : FallocArgs) :
    (WriteFits redoLog f w ↔ transEntries (writeNeed f w) ≤ writeReserve redoLog w) ∧
    (FallocFits redoLog f a ↔ (a.mode / 2 = 0 → sIsDir f.inode.iMode = false →
      transEntries (treeNeed f.d f.pi (a.offset >>> 12) (a.numBlocks % 2 ^ 32)) ≤
      fallocReserve redoLog)) :=
  ⟨writeFits_iff redoLog hwf hv, fallocFits_iff redoLog a hwf⟩

/-- A node whose first missing slot of the range is slot `i`. -/
theorem need_slots {p f l i : ℕ} (hp : p ≠ 0) (hf : f ≤ i) (hl : i ≤ l) (h512 : i < 512)
    (hbefore : ∀ j, f ≤ j → j < i → d.node (pmfsGetBlocknr p) j ≠ 0)
    (hslot : d.node (pmfsGetBlocknr p) i = 0) :
    need 1 f l (tree d 1 p) = numLes ((l - i + 1) <<< 3) := by
  have hmiss : miss (kidsOf d 0 p) 0 f l = i := by
    unfold miss
    rw [pow_zero, Nat.div_one, Nat.div_one]
    refine first_eq hf (by omega) (fun _ => ?_) fun j h1 h2 hcon => ?_
    · rw [kidsOf_eq i h512, hslot, tree_null]
    · rw [kidsOf_eq j (by omega)] at hcon
      exact hbefore j h1 h2 (tree_eq_empty_iff.mp hcon)
  have hbelow : ∀ j, below (kidsOf d 0 p) 0 f l j = 0 := by
    intro j
    unfold below
    simp
  rw [tree_kids hp, need_node, hbelow, own, hmiss, pow_zero, Nat.div_one, if_pos hl, Nat.add_zero]

/-- Single blocks are allocated one after the other. -/
def allocEach : List ℕ → Dev × PmfsInode → Option (Dev × PmfsInode)
  | [], r => some r
  | b :: bs, r => (__pmfsAllocBlocks r.1 r.2 b 1 true).bind fun r => allocEach bs (r.1, r.2.1)

theorem allocEach_wf : ∀ {bs : List ℕ} {x y : Dev × PmfsInode}, WellFormed R x.1 x.2 →
    allocEach bs x = some y → WellFormed R y.1 y.2
  | [], x, y, hwf, hrun => by
    rw [allocEach, Option.some.injEq] at hrun
    rw [← hrun]
    exact hwf
  | b :: bs, x, y, hwf, hrun => by
    obtain ⟨d', pi', o, halloc, hadd, -⟩ := alloc_added b 1 true hwf
    rw [allocEach, halloc, Option.bind_some] at hrun
    exact allocEach_wf hadd.wellFormed hrun

/-- What a range of 4K blocks below an old root needs. -/
theorem treeNeed_4K {b n l : ℕ} (htype : pi.iBlkType = .b4K) (hroot : pi.root ≠ 0)
    (hl : lastFileBlock b n = l) (hlt : l < 512 ^ 3) (htop : topHeight pi l = pi.height) :
    lastIndex pi b n = l ∧ treeNeed d pi b n = need pi.height b l (tree d pi.height pi.root) := by
  have hlast : lastIndex pi b n = l := by
    rw [lastIndex, pmfsInodeBlkShift, htype]
    exact hl
  have hindex : indexOf pi b = b := by
    rw [indexOf, pmfsInodeBlkShift, htype]
    rfl
  refine ⟨hlast, ?_⟩
  unfold treeNeed
  rw [hlast, if_neg (not_or.mpr ⟨hroot, not_le.mpr hlt⟩), hindex, htop, Nat.sub_self]
  rfl

/-- Three pages behind the first one of a file that has the pages 0 and 2: slots of an old node are
logged. -/
theorem log_fits_iff_hole : ∃ R d pi, WellFormed R d pi ∧
    pmfsFindDataBlock d pi 1 = some 0 ∧ pmfsFindDataBlock d pi 2 ≠ some 0 ∧
    WriteFits false ⟨d, plainFile, pi⟩ ⟨4096, 3 * 4096, 3 * 4096, true, none, none, 0⟩ ∧
    FallocFits false ⟨d, plainFile, pi⟩ ⟨0, 4096, 3 * 4096, none, none, 0⟩ := by
  obtain ⟨R, hwf⟩ := wellFormed_zeroInode
  obtain ⟨⟨d, pi⟩, hrun, hheight, htype, hroot, hhole, hdata⟩ :
      ∃ r ∈ allocEach [0, 2] (freshDev, zeroInode), r.2.height = 1 ∧
      r.2.iBlkType = .b4K ∧ r.2.root ≠ 0 ∧
        r.1.node (pmfsGetBlocknr r.2.root) 1 = 0 ∧ pmfsFindDataBlock r.1 r.2 1 = some 0 ∧
        pmfsFindDataBlock r.1 r.2 2 ≠ some 0 := by
    decide +kernel
  have hfile : WellFormed R d pi := allocEach_wf (x := (freshDev, zeroInode)) hwf hrun
  have hv : ValidWrite ⟨4096, 3 * 4096, 3 * 4096, true, none, none, 0⟩ := ⟨by decide, by decide⟩
  obtain ⟨hlast, hneed⟩ :=
    treeNeed_4K (d := d) (b := 1) (n := 3) (l := 3) htype hroot (by decide) (by decide)
      (by rw [topHeight, if_pos (by decide), hheight]; decide)
  rw [hheight, need_slots hroot le_rfl (by decide) (by decide) (by omega) hhole] at hneed
  obtain ⟨hwrite, hfalloc⟩ := log_fits_iff (f := ⟨d, plainFile, pi⟩) false hfile hv ⟨0, 4096,
    3 * 4096, none, none, 0⟩
  refine ⟨R, d, pi, hfile, hdata.1, hdata.2, hwrite.mpr ?_, hfalloc.mpr fun _ _ => ?_⟩
  · have hasks : asks ⟨4096, 3 * 4096, 3 * 4096, true, none, none, 0⟩ = 3 := by decide
    rw [writeNeed, hasks]
    rw [show 4096 >>> 12 = 1 from rfl, hlast, if_pos (by decide), hneed]
    decide
  · have hnum : FallocArgs.numBlocks ⟨0, 4096, 3 * 4096, none, none, 0⟩ % 2 ^ 32 = 3 := by decide
    rw [hnum, show 4096 >>> 12 = 1 from rfl, hneed]
    decide

/-! ### A file with many old nodes -/

/-- A node that has all its children of the range. -/
theorem need_present {p f l k : ℕ} (hp : p ≠ 0) (hfl : f / 512 ^ k ≤ l / 512 ^ k)
    (hl : l / 512 ^ k < 512) (h : ∀ i, f / 512 ^ k ≤ i → i ≤ l / 512 ^ k →
    d.node (pmfsGetBlocknr p) i ≠ 0) : need (k + 1) f l (tree d (k + 1) p) =
    ∑ i ∈ Finset.Ico (f / 512 ^ k) (l / 512 ^ k + 1),
      need k (lo 512 k f i) (hi 512 k l i) (tree d k (d.node (pmfsGetBlocknr p) i)) := by
  have hmiss : miss (kidsOf d k p) k f l = l / 512 ^ k + 1 := by
    refine (first_eq_end_iff (by omega)).mpr fun i h1 h2 hcon => ?_
    rw [kidsOf_eq i (by omega)] at hcon
    exact h i h1 (by omega) (tree_eq_empty_iff.mp hcon)
  rw [tree_kids hp, need_node, own, hmiss, if_neg (by omega), Nat.zero_add, below]
  refine Finset.sum_congr rfl fun i hi => ?_
  rw [Finset.mem_Ico] at hi
  rw [kidsOf_eq i (by omega)]

/-- The write of 1538 pages from page 511 on. -/
def longWrite : WriteArgs := ⟨511 * 4096, 1538 * 4096, 1538 * 4096, true, none, none, 0⟩

/-- Five old nodes, of which three have 511 missing slots and the others one. -/
theorem need_long {p : ℕ} (hp : p ≠ 0) (hnodes : ∀ i < 5, d.node (pmfsGetBlocknr p) i ≠ 0)
    (hfirst : d.node (pmfsGetBlocknr (d.node (pmfsGetBlocknr p) 0)) 511 = 0)
    (hmid : ∀ i < 3, d.node (pmfsGetBlocknr (d.node (pmfsGetBlocknr p) (i + 1))) 0 ≠ 0 ∧
      d.node (pmfsGetBlocknr (d.node (pmfsGetBlocknr p) (i + 1))) 1 = 0)
    (hlast : d.node (pmfsGetBlocknr (d.node (pmfsGetBlocknr p) 4)) 0 = 0) :
    need 2 511 2048 (tree d 2 p) = 260 := by
  have h0 : need 1 511 511 (tree d 1 (d.node (pmfsGetBlocknr p) 0)) = 1 :=
    need_slots (hnodes 0 (by norm_num)) le_rfl le_rfl (by norm_num) (by omega) hfirst
  have hthree : ∀ i < 3, need 1 0 511 (tree d 1 (d.node (pmfsGetBlocknr p) (i + 1))) = 86 := by
    intro i hi
    refine need_slots (i := 1) (hnodes _ (by omega)) (by norm_num) (by norm_num) (by norm_num)
      ?_ (hmid i hi).2
    intro j _ hj
    rw [Nat.lt_one_iff.mp hj]
    exact (hmid i hi).1
  have h4 : need 1 0 0 (tree d 1 (d.node (pmfsGetBlocknr p) 4)) = 1 :=
    need_slots (hnodes 4 (by norm_num)) le_rfl le_rfl (by norm_num) (by omega) hlast
  have hsum := need_present (d := d) (k := 1) (f := 511) (l := 2048) hp (by norm_num) (by norm_num)
    fun i _ hi => hnodes i (by omega)
  have hrange : Finset.Ico (511 / 512 ^ 1) (2048 / 512 ^ 1 + 1) = Finset.range 5 := by decide
  have hterm : ∀ i ∈ Finset.range 5, need 1 (lo 512 1 511 i) (hi 512 1 2048 i)
      (tree d 1 (d.node (pmfsGetBlocknr p) i)) = if i = 0 ∨ i = 4 then 1 else 86 := by
    intro i hmem
    rw [Finset.mem_range] at hmem
    by_cases hfst : i = 0
    · subst hfst
      exact h0
    by_cases hlst : i = 4
    · subst hlst
      exact h4
    have hlo : lo 512 1 511 i = 0 := if_neg (by omega)
    have hhi : hi 512 1 2048 i = 511 := if_neg (by omega)
    obtain ⟨j, rfl⟩ := Nat.exists_eq_succ_of_ne_zero hfst
    rw [if_neg (by omega), hlo, hhi]
    exact hthree j (by omega)
  rw [hsum, hrange, Finset.sum_congr rfl hterm]
  decide

/-- A file with the pages 0, 512, 1024, 1536 and 2049 has five old nodes in this range, and the log
of three of them takes 86 entries each. -/
theorem long_write_overflows : ∃ R d pi, WellFormed R d pi ∧ ValidWrite longWrite ∧
    ¬ WriteFits false ⟨d, plainFile, pi⟩ longWrite ∧
    ¬ FallocFits false ⟨d, plainFile, pi⟩ ⟨0, 511 * 4096, 1538 * 4096, none, none, 0⟩ := by
  obtain ⟨R, hwf⟩ := wellFormed_zeroInode
  obtain ⟨⟨d, pi⟩, hrun, hheight, htype, hroot, hnodes, hfirst, hmid, hlast⟩ :
      ∃ r ∈ allocEach [0, 512, 1024, 1536, 2049] (freshDev, zeroInode), r.2.height = 2 ∧
      r.2.iBlkType = .b4K ∧
        r.2.root ≠ 0 ∧ (∀ i < 5, r.1.node (pmfsGetBlocknr r.2.root) i ≠ 0) ∧
        r.1.node (pmfsGetBlocknr (r.1.node (pmfsGetBlocknr r.2.root) 0)) 511 = 0 ∧
        (∀ i < 3, r.1.node (pmfsGetBlocknr (r.1.node (pmfsGetBlocknr r.2.root) (i + 1))) 0 ≠ 0 ∧
          r.1.node (pmfsGetBlocknr (r.1.node (pmfsGetBlocknr r.2.root) (i + 1))) 1 = 0) ∧
        r.1.node (pmfsGetBlocknr (r.1.node (pmfsGetBlocknr r.2.root) 4)) 0 = 0 := by
    decide +kernel
  have hfile : WellFormed R d pi := allocEach_wf (x := (freshDev, zeroInode)) hwf hrun
  have hv : ValidWrite longWrite := ⟨by decide, by decide⟩
  obtain ⟨hend, hneed⟩ :=
    treeNeed_4K (d := d) (b := 511) (n := 1538) (l := 2048) htype hroot (by decide) (by decide)
      (by rw [topHeight, if_pos (by norm_num), hheight]; decide)
  rw [hheight, need_long hroot hnodes hfirst hmid hlast] at hneed
  have hasks : asks longWrite = 1538 := by decide
  have hwrite : writeNeed ⟨d, plainFile, pi⟩ longWrite = 260 := by
    have hstart : longWrite.pos >>> 12 = 511 := by decide
    rw [writeNeed, hasks, hstart, if_pos (by rw [hend]; norm_num), hneed]
  refine ⟨R, d, pi, hfile, hv, fun hcon => ?_, fun hcon => ?_⟩
  · have hle := (writeFits_iff false hfile hv).mp hcon
    rw [hwrite] at hle
    exact absurd hle (by decide)
  · have hdir : sIsDir plainFile.iMode = false := by decide
    have hle := (fallocFits_iff false _ hfile).mp hcon rfl hdir
    have hstart : (511 * 4096) >>> 12 = 511 := by decide
    have hnum : FallocArgs.numBlocks ⟨0, 511 * 4096, 1538 * 4096, none, none, 0⟩ % 2 ^ 32 =
      1538 := by decide
    rw [hnum, hstart, hneed] at hle
    exact absurd hle (by decide)

end Pmfs.Inodes.Reserve
