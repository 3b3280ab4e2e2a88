import Pmfs.Inodes.Eof

/-! # Runs of operations on a regular file

The other operations on a regular file keep `EofOk` (`fault_spec`, `fallocate_spec`,
`notifyChange_spec`), and a file with `EofOk` can be evicted (`evict_total`). The file is within its
size, or flagged, in every run whose writes copy as much as they allocate
(`eof_flagged_in_safe_runs`); the code does not make sure of that (`short_write_unflagged`). -/

namespace Pmfs.Inodes.EofRuns

open Relation
open Lib.Radix Block.Model Tree.Model Tree.Own Tree.Truncate Tree.Inode
open Inodes.Model Inodes.Blocks Inodes.Regular Inodes.Eof

variable {R : Multiset ℕ} {f f' : File} {d d' : Dev} {pi pi' : PmfsInode} {size : ℕ}

/-! ### Page faults -/

theorem fault_spec {pgoff : ℕ} {trans : Option Errno} {r : Option ℕ} (h : FileOk R f)
    (hrun : __pmfsXipFileFault f pgoff trans = some (f', r)) : Ran R True f f' := by
  unfold __pmfsXipFileFault at hrun
  split_ifs at hrun with hoff
  · cases hrun
    exact ran_refl h
  obtain ⟨⟨f1, r1⟩, hget, heq⟩ := Option.map_eq_some_iff.mp hrun
  cases heq
  obtain ⟨hk, hsize, hgrow, -⟩ := findAlloc_spec h hget
  have hne : f.inode.iSize ≠ 0 := by
    intro h0
    rw [h0, Nat.shiftRight_eq_div_pow] at hoff
    omega
  have hlast : indexOf f.pi pgoff ≤ lastOf f.pi f.inode.iSize := by
    rw [lastOf, ← indexOf_page]
    refine shift_le _ ?_
    rw [Nat.shiftRight_eq_div_pow] at hoff ⊢
    omega
  refine ⟨hk, fun _ heof hflag => ?_⟩
  have hflag0 : f.pi.eofblocks = false := by
    by_contra hcon
    rw [Bool.not_eq_false] at hcon
    exact absurd (hk.flag hcon) (by rw [hflag]; decide)
  rw [hsize]
  exact hgrow (heof hflag0) le_rfl hlast hne

/-! ### The block size hint -/

variable (pi size) in
/-- The hint only changes the type of an inode without blocks. -/
theorem hint_cases : pmfsSetBlocksizeHint pi size = pi ∨
    pi.root = 0 ∧ pmfsSetBlocksizeHint pi size =
      { pi with iBlkType := (pmfsSetBlocksizeHint pi size).iBlkType } := by
  unfold pmfsSetBlocksizeHint
  by_cases h : pi.root = 0
  · exact Or.inr ⟨h, by rw [if_neg (not_not.mpr h)]⟩
  · exact Or.inl (if_pos h)

/-- The file with the hint set. -/
def hinted (f : File) (size : ℕ) : File := { f with pi := pmfsSetBlocksizeHint f.pi size }

variable (size) in
theorem hinted_ok (h : FileOk R f) : FileOk R (hinted f size) := by
  rcases hint_cases f.pi size with heq | ⟨hroot, heq⟩
  · unfold hinted
    rw [heq]
    exact h
  · have hown := h.owns
    rw [inodeBlocks_of_root hroot] at hown
    have hroot' : (hinted f size).pi.root = 0 := by rw [hinted, heq]; exact hroot
    refine ⟨?_, ⟨counts_of_root hroot' ?_ ?_, ?_⟩, h.mounting⟩
    · rw [inodeBlocks_of_root hroot']
      exact hown
    · rw [hinted, heq]
      exact h.ok.root hroot
    · have hib := h.ok.iBlocks
      rw [treeOf_of_root hroot, leaves, Nat.zero_mul] at hib
      rw [hinted, heq]
      exact hib
    · have hvfs := h.ok.vfs
      rw [hinted, heq]
      exact hvfs

theorem hinted_eofblocks : (hinted f size).pi.eofblocks = f.pi.eofblocks := by
  rcases hint_cases f.pi size with heq | ⟨-, heq⟩ <;> rw [hinted, heq]
  rfl

theorem hinted_eof (h : EofOk f) : EofOk (hinted f size) := by
  intro hflag
  rw [hinted_eofblocks] at hflag
  rcases hint_cases f.pi size with heq | ⟨hroot, heq⟩
  · rw [hinted, heq]
    exact h hflag
  · refine fits_of_root ?_
    rw [hinted, heq]
    exact hroot

/-! ### Preallocation -/

/-- A request for no blocks at the start of the file is one for the last index there is. -/
theorem le_lastIndex_of_zero {b n : ℕ} (hz : b + n = 0) : 512 ^ 3 ≤ lastIndex pi b n := by
  have hwrap : lastFileBlock b n = 2 ^ 64 - 1 := by
    unfold lastFileBlock
    rw [hz]
    rfl
  have hshift : pmfsInodeBlkShift pi - 12 ≤ 18 := by
    unfold pmfsInodeBlkShift
    cases pi.iBlkType <;> decide
  rw [lastIndex, hwrap, Nat.shiftRight_eq_div_pow]
  calc 512 ^ 3 ≤ (2 ^ 64 - 1) / 2 ^ 18 := by norm_num
    _ ≤ (2 ^ 64 - 1) / 2 ^ (pmfsInodeBlkShift pi - 12) :=
      Nat.div_le_div_left (Nat.pow_le_pow_right (by norm_num) hshift) (by positivity)

variable (size) in
theorem fallocate_last {b num : ℕ} (hlt : lastIndex pi b (num % 2 ^ 32) < 512 ^ 3)
    (h : b + num - 1 = (size - 1) >>> 12) : lastIndex pi b (num % 2 ^ 32) ≤ lastOf pi size := by
  rw [lastOf, ← indexOf_page, ← h]
  refine shift_le _ ?_
  have hz : b + num % 2 ^ 32 ≠ 0 := fun hz => absurd (le_lastIndex_of_zero hz) (not_le.mpr hlt)
  have hle := lastFileBlock_le (Nat.pos_of_ne_zero hz)
  have hmod := Nat.mod_le num (2 ^ 32)
  omega

/-- The file with `PMFS_EOFBLOCKS_FL` set when the allocation fails or the size is kept. -/
def flagged (f : File) (a : FallocArgs) (o : Option Errno) : File :=
  if o.isSome || a.keepSize then { f with pi := f.pi.setEofblocks } else f

theorem fallocFinish_eq {a : FallocArgs} {o : Option Errno} : fallocFinish f a o =
    (if a.grows (flagged f a o) then (flagged f a o).extend (a.len + a.offset)
      else flagged f a o).setTime a.now := rfl

theorem flagged_ok {a : FallocArgs} {o : Option Errno} (h : FileOk R f) :
    FileOk R (flagged f a o) := by
  unfold flagged
  split_ifs
  · exact h.congr rfl rfl rfl rfl rfl rfl
  · exact h

theorem fallocFinish_ok {a : FallocArgs} {o : Option Errno} (h : FileOk R f) :
    FileOk R (fallocFinish f a o) := by
  rw [fallocFinish_eq]
  refine (kept_setTime ?_).ok
  split_ifs
  · exact (kept_extend (flagged_ok h)).ok
  · exact flagged_ok h

theorem eofblocks_setTime {now : ℕ} : (f.setTime now).pi.eofblocks = f.pi.eofblocks := rfl

theorem fallocFinish_flag {a : FallocArgs} {o : Option Errno}
    (hflag : (fallocFinish f a o).pi.eofblocks = false) :
    f.pi.eofblocks = false ∧ o = none ∧ a.keepSize = false := by
  have hflag1 : (flagged f a o).pi.eofblocks = false := by
    rw [fallocFinish_eq, eofblocks_setTime] at hflag
    split_ifs at hflag
    · rwa [eofblocks_extend] at hflag
    · exact hflag
  unfold flagged at hflag1
  split_ifs at hflag1 with hset
  · rw [eofblocks_set] at hflag1
    exact absurd hflag1 (by decide)
  · rw [Bool.or_eq_true, not_or, Bool.not_eq_true, Option.isSome_eq_false_iff,
      Option.isNone_iff_eq_none, Bool.not_eq_true] at hset
    exact ⟨hflag1, hset⟩

theorem fallocFinish_grown {a : FallocArgs} (hkeep : a.keepSize = false) :
    fallocFinish f a none = (f.extend (a.len + a.offset)).setTime a.now := by
  have heq : flagged f a none = f := by
    unfold flagged
    rw [hkeep]
    rfl
  rw [fallocFinish_eq, heq]
  congr 1
  unfold FallocArgs.grows
  rw [hkeep]
  by_cases hlt : a.len + a.offset > f.inode.iSize
  · rw [if_pos (by simpa using hlt)]
  · rw [if_neg (by simpa using hlt), File.extend, if_neg hlt]

theorem fallocate_blocks {a : FallocArgs} :
    a.offset >>> 12 + a.numBlocks - 1 = (a.len + a.offset - 1) >>> 12 := by
  unfold FallocArgs.numBlocks
  simp only [Nat.shiftRight_eq_div_pow]
  omega

/-- What any operation keeps of a file: it owns its blocks, and under the condition `C` it stays
within its size. -/
structure Stays (R : Multiset ℕ) (C : Prop) (f f' : File) : Prop where
  ok : FileOk R f'
  eof : C → EofOk f → EofOk f'

theorem stays_refl {C : Prop} (h : FileOk R f) : Stays R C f f := ⟨h, fun _ => id⟩

/-- **Preallocation.** -/
theorem fallocate_spec {a : FallocArgs} {r : Option Errno} (h : FileOk R f)
    (hrun : pmfsFallocate f a = some (f', r)) : Stays R True f f' := by
  by_cases href : Refused f a
  · obtain ⟨e, heq⟩ := falloc_refused href
    rw [heq] at hrun
    cases hrun
    exact stays_refl h
  rw [falloc_ran href] at hrun
  obtain ⟨⟨f1, o⟩, halloc, heq⟩ := Option.map_eq_some_iff.mp hrun
  cases heq
  have hh := hinted_ok (a.len + a.offset) h
  obtain ⟨f2, o2, halloc2, hk, hsize, ha, he⟩ := file_alloc (a.offset >>> 12)
    a.numBlocks true hh
  rw [hinted, halloc] at halloc2
  cases halloc2
  refine ⟨fallocFinish_ok hk.ok, fun _ heof hflag => ?_⟩
  obtain ⟨hflag1, rfl, hkeep⟩ := fallocFinish_flag hflag
  have hflag0 : (hinted f (a.len + a.offset)).pi.eofblocks = false := by
    by_contra hcon
    rw [Bool.not_eq_false] at hcon
    exact absurd (hk.flag hcon) (by rw [hflag1]; decide)
  have hlt := he.2.trans_le (Nat.pow_le_pow_right (by norm_num) hk.ok.ok.height)
  have hlast := fallocate_last (a.len + a.offset) hlt fallocate_blocks
  have hne : a.len + a.offset ≠ 0 := by
    intro hz
    refine absurd (le_lastIndex_of_zero ?_) (not_le.mpr hlt)
    unfold FallocArgs.numBlocks
    simp only [Nat.shiftRight_eq_div_pow]
    omega
  rw [fallocFinish_grown hkeep, fits_setTime, fits_extend]
  change Fits f1.d f1.pi (f1.extend (a.len + a.offset)).inode.iSize
  rw [(file_extend _ _).2.1, hsize]
  exact (hinted_eof heof hflag0).alloc ha (le_max_left _ _)
    (hlast.trans (lastOf_mono (le_max_right _ _))) (by omega)

/-! ### Truncation -/

theorem truncate_zero {inode inode' : Inode} {stop now first last : ℕ}
    (hr : truncRange pi 0 stop = some (first, last))
    (h : __pmfsTruncateBlocks d inode pi 0 stop now = some (d', inode', pi')) : pi'.root = 0 := by
  rcases truncate_cases h with ⟨hnone, -⟩ | ⟨-, -, d1, root, freed, b, pi2, fl, -, -,
    -, hdec, -, rfl⟩
  · simp [hr] at hnone
  unfold pmfsDecreaseBtreeHeight at hdec
  rw [if_pos (Or.inr rfl)] at hdec
  split_ifs at hdec with hne
  rw [Option.some.injEq, Prod.mk.injEq] at hdec
  rw [← hdec.2]
  exact not_not.mp hne

/-- Nothing lies above the smaller of the last block and the last index. -/
theorem below_min (h : Fits d pi size) :
    Below 512 pi.height (min (lastOf pi size) (512 ^ pi.height - 1)) (treeOf d pi) := by
  rcases min_choice (lastOf pi size) (512 ^ pi.height - 1) with hm | hm <;> rw [hm]
  · exact h.below
  · exact below_top (by norm_num) uniform_tree

/-- Nothing lies above the range of a truncation that ends at the size of the file. -/
theorem below_range {start stop first last : ℕ} (h : pi.eofblocks = false → Fits d pi stop)
    (hr : truncRange pi start stop = some (first, last)) :
    Below 512 pi.height last (treeOf d pi) := by
  obtain ⟨-, -, -, -, hset, hclear⟩ := truncRange_some hr
  cases hflag : pi.eofblocks with
  | true =>
    rw [hset hflag]
    exact below_top (by norm_num) uniform_tree
  | false =>
    rw [hclear hflag]
    exact below_min (h hflag)

theorem truncRange_none {start stop : ℕ} (hr : truncRange pi start stop = none)
    (hflag : pi.eofblocks = false) : pi.root = 0 ∨ stop = 0 ∨
      min (lastOf pi stop) (512 ^ pi.height - 1) <
        (start + 2 ^ pmfsInodeBlkShift pi - 1) >>> pmfsInodeBlkShift pi := by
  have hpos : 0 < 512 ^ pi.height := by positivity
  unfold truncRange pmfsSparseLastBlocknr at hr
  rw [one_shiftLeft_9] at hr
  by_cases hroot : pi.root = 0
  · exact Or.inl hroot
  by_cases hstop : stop = 0
  · exact Or.inr (Or.inl hstop)
  refine Or.inr (Or.inr ?_)
  simp only [hroot, hflag, hstop, if_false, Bool.false_eq_true] at hr
  rw [lastOf]
  generalize (stop - 1) >>> pmfsInodeBlkShift pi = x at hr ⊢
  generalize (start + 2 ^ pmfsInodeBlkShift pi - 1) >>> pmfsInodeBlkShift pi = y at hr ⊢
  split_ifs at hr with h1 h2 h2 <;> omega

theorem truncate_iSize {inode inode' : Inode} {start stop now : ℕ}
    (h : __pmfsTruncateBlocks d inode pi start stop now = some (d', inode', pi')) :
    inode'.iSize = inode.iSize := by
  rcases truncate_cases h with ⟨-, -, rfl, -⟩ | ⟨-, -, -, -, -, -, -, -, -, -, -, -, rfl, -⟩ <;> rfl

theorem lastOf_succ {first : ℕ} (hsize : size ≠ 0)
    (hf : first = (size + 2 ^ pmfsInodeBlkShift pi - 1) >>> pmfsInodeBlkShift pi) :
    first = lastOf pi size + 1 := by
  have hpos : 0 < 2 ^ pmfsInodeBlkShift pi := by positivity
  rw [hf, lastOf, Nat.shiftRight_eq_div_pow, Nat.shiftRight_eq_div_pow,
    show size + 2 ^ pmfsInodeBlkShift pi - 1 = (size - 1) + 2 ^ pmfsInodeBlkShift pi by omega,
    Nat.add_div_right _ hpos]

/-- After a truncation the tree has nothing beyond the new size, unless the flag stays set. -/
theorem truncated_fits {inode inode' : Inode} {start stop now : ℕ}
    (ht : Truncated R start stop d pi d' inode' pi') (hflag' : pi'.eofblocks = false)
    (h : pi.eofblocks = false → Fits d pi stop)
    (hrun : __pmfsTruncateBlocks d inode pi start stop now = some (d', inode', pi')) :
    Fits d' pi' start := by
  have htype : pi'.iBlkType = pi.iBlkType := by rw [ht.same]
  rcases hr : truncRange pi start stop with - | ⟨first, last⟩
  · obtain ⟨rfl, hh, hroot, hfl⟩ := ht.none hr
    rw [fits_congr hh hroot htype]
    have hflag : pi.eofblocks = false := by
      unfold PmfsInode.eofblocks at hflag' ⊢
      rwa [← hfl]
    have hempty : treeOf d' pi = RTree.empty → Fits d' pi start := by
      intro he
      refine ⟨?_, fun _ => he⟩
      rw [he]
      cases pi.height <;> trivial
    rcases truncRange_none hr hflag with h0 | h0 | hlt
    · exact fits_of_root h0
    · exact hempty ((h hflag).empty h0)
    · by_cases hz : start = 0
      · rw [hz, Nat.zero_add, Nat.shiftRight_eq_div_pow, Nat.div_eq_of_lt (by
          have : 0 < 2 ^ pmfsInodeBlkShift pi := by positivity
          omega)] at hlt
        omega
      · rw [lastOf_succ hz rfl] at hlt
        exact ⟨(below_min (h hflag)).mono (by omega), fun h0 => absurd h0 hz⟩
  · by_cases hz : start = 0
    · subst hz
      exact fits_of_root (truncate_zero hr hrun)
    · obtain ⟨-, hf, -⟩ := truncRange_some hr
      refine ⟨?_, fun h0 => absurd h0 hz⟩
      rw [lastOf_congr htype]
      exact ht.below hr (lastOf_succ hz hf).le ((below_range h hr).mono (le_max_left _ _))

/-- **Changing the size.** -/
theorem setsize_spec {newsize now : ℕ} (h : FileOk R f) (h0 : 0 ∈ R) (hs : SlabOk f.d)
    (hlt : f.pi.iBlocks.toNat < 2 ^ 32) (heof : EofOk f)
    (hrun : pmfsSetsize f newsize now = some f') : FileOk R f' ∧ EofOk f' := by
  unfold pmfsSetsize at hrun
  split_ifs at hrun with hmode
  · obtain ⟨⟨d', inode', pi'⟩, htrunc, rfl⟩ := Option.map_eq_some_iff.mp hrun
    have hsafe : TruncSafe f.d f.pi newsize f.inode.iSize :=
      Or.inr (Or.inr fun first last hr => (below_range heof hr).mono (le_max_left _ _))
    have hvfs : ({ f.inode with iSize := newsize } : Inode).iBlocks = f.pi.iBlocks := h.ok.vfs
    have ht := truncate_spec h0 hs h.mounting h.owns
      h.ok.toCounts hvfs hlt hsafe htrunc
    refine ⟨⟨ht.owns, ⟨ht.counts, ht.iBlocks⟩, ht.frame.mounting.trans h.mounting⟩, fun hflag => ?_⟩
    have hsize : inode'.iSize = newsize := truncate_iSize htrunc
    rw [hsize]
    exact truncated_fits ht hflag heof htrunc
  · rw [Option.some.injEq] at hrun
    exact hrun ▸ ⟨h, heof⟩

/-- **`pmfs_notify_change`.** -/
theorem notifyChange_spec {iaSize now : ℕ} {ok r : Option Errno} (h : FileOk R f) (h0 : 0 ∈ R)
    (hs : SlabOk f.d) (hlt : f.pi.iBlocks.toNat < 2 ^ 32) (heof : EofOk f)
    (hrun : pmfsNotifyChange f iaSize now ok = some (f', r)) : FileOk R f' ∧ EofOk f' := by
  unfold pmfsNotifyChange at hrun
  cases ok with
  | some e =>
    cases hrun
    exact ⟨h, heof⟩
  | none =>
    split_ifs at hrun with hchange
    · obtain ⟨f1, hset, heq⟩ := Option.map_eq_some_iff.mp hrun
      cases heq
      have hib : (hinted f iaSize).pi.iBlocks = f.pi.iBlocks := by
        rcases hint_cases f.pi iaSize with heq | ⟨-, heq⟩ <;> rw [hinted, heq]
      obtain ⟨hok, heof1⟩ := setsize_spec (hinted_ok iaSize h) h0 hs (hib ▸ hlt)
        (hinted_eof heof) hset
      refine ⟨hok.congr rfl rfl rfl rfl rfl rfl, fun hflag => ?_⟩
      have hfits : Fits f1.d { f1.pi with iSize := f1.inode.iSize } f1.inode.iSize ↔
        Fits f1.d f1.pi f1.inode.iSize := fits_congr rfl rfl rfl
      exact hfits.mpr (heof1 hflag)
    · cases hrun
      exact ⟨h, heof⟩

/-! ### Eviction -/

theorem below_evictLast (heof : EofOk f) :
    Below 512 f.pi.height (evictLast f.pi f.inode) (treeOf f.d f.pi) := by
  unfold evictLast pmfsSparseLastBlocknr
  rw [one_shiftLeft_9]
  cases hflag : f.pi.eofblocks with
  | true => exact below_top (by norm_num) uniform_tree
  | false =>
    have hmin := below_min (heof hflag)
    have hlast : (if f.inode.iSize ≠ 0 then (f.inode.iSize - 1) >>> pmfsInodeBlkShift f.pi else 0) =
        lastOf f.pi f.inode.iSize := by
      unfold lastOf
      split_ifs with hne
      · rfl
      · rw [not_not.mp hne, Nat.shiftRight_eq_div_pow, Nat.zero_sub, Nat.zero_div]
    rw [hlast, if_neg (by decide)]
    refine hmin.mono ?_
    split_ifs <;> omega

/-- A file that is within its size or flagged can be evicted. -/
theorem evict_total {fs : Fs} {nr now : ℕ} {trans : Option Errno} (h : FileOk R f) (h0 : 0 ∈ R)
    (hs : SlabOk f.d) (heof : EofOk f) (hd : fs.dev = f.d) (hpi : fs.pi nr = f.pi)
    (hinode : fs.inode nr = f.inode) : (pmfsEvictInode fs nr trans now).isSome = true := by
  have htotal := freeSubtree_total h.owns h0 hs evictLast_lt (below_evictLast heof)
  unfold pmfsEvictInode
  rw [hpi, hinode]
  dsimp only
  split_ifs
  · cases trans with
    | some e => rfl
    | none =>
      unfold pmfsFreeInode
      rw [Option.isSome_map, hd]
      exact htotal
  · rfl

/-! ### Runs -/

/-- The operations on a regular file that map blocks or change its size. -/
inductive FileOp where
  | write (w : WriteArgs)
  | fallocate (a : FallocArgs)
  | notifyChange (iaSize now : ℕ) (ok : Option Errno)
  | fault (pgoff : ℕ) (err : Option Errno)

/-- The file after the operation. -/
def FileOp.exec (f : File) : FileOp → Option File
  | write w => (pmfsXipFileWrite f w).map Prod.fst
  | fallocate a => (pmfsFallocate f a).map Prod.fst
  | notifyChange iaSize now ok => (pmfsNotifyChange f iaSize now ok).map Prod.fst
  | fault pgoff err => (__pmfsXipFileFault f pgoff err).map Prod.fst

/-- What the VFS makes sure of. -/
def FileOp.Valid : FileOp → Prop
  | write w => ValidWrite w
  | _ => True

/-- The operation leaves no block beyond the end without the flag: a write copies into the last
block that it allocates and finds its blocks for metadata, or the flag is set already; a truncation
is of less than `2 ^ 32` blocks, and no blocknode allocation fails in it. -/
def FileOp.Safe (f f' : File) : FileOp → Prop
  | write w => f.pi.eofblocks = true ∨ CopyReaches f w ∧ f'.d.failures = f.d.failures
  | notifyChange _ _ _ => SlabOk f.d ∧ f.pi.iBlocks.toNat < 2 ^ 32
  | _ => True

/-- The file owns the blocks of its tree, and others own other blocks. -/
def Between (f : File) : Prop := ∃ R, 0 ∈ R ∧ FileOk R f

/-- What happens on the device between two operations on the file. -/
structure Others (f f' : File) : Prop where
  inode : f'.inode = f.inode
  pi : f'.pi = f.pi
  tree : treeOf f'.d f.pi = treeOf f.d f.pi
  between : Between f'

/-- One operation on the file, or others at work on the device. -/
inductive FileStep (f f' : File) : Prop
  | op (o : FileOp) (hvalid : o.Valid) (hexec : o.exec f = some f')
  | others (h : Others f f')

/-- One step that leaves no block beyond the end without the flag. -/
inductive SafeFileStep (f f' : File) : Prop
  | op (o : FileOp) (hvalid : o.Valid) (hexec : o.exec f = some f') (hsafe : o.Safe f f')
  | others (h : Others f f')

theorem op_keeps {o : FileOp} (h : Between f) (heof : EofOk f) (hvalid : o.Valid)
    (hexec : o.exec f = some f') (hsafe : o.Safe f f') : Between f' ∧ EofOk f' := by
  obtain ⟨R, h0, hok⟩ := h
  cases o with
  | write w =>
    obtain ⟨⟨f1, r⟩, hrun, rfl⟩ := Option.map_eq_some_iff.mp hexec
    have hw := write_spec hok hvalid hrun
    refine ⟨⟨R, h0, hw.ok⟩, ?_⟩
    rcases hsafe with hflag | hsafe
    · intro hclear
      exact absurd (hw.flag hflag) (by rw [hclear]; decide)
    · exact hw.eof hsafe heof
  | fallocate a =>
    obtain ⟨⟨f1, r⟩, hrun, rfl⟩ := Option.map_eq_some_iff.mp hexec
    have ha := fallocate_spec hok hrun
    exact ⟨⟨R, h0, ha.ok⟩, ha.eof trivial heof⟩
  | notifyChange iaSize now ok =>
    obtain ⟨⟨f1, r⟩, hrun, rfl⟩ := Option.map_eq_some_iff.mp hexec
    obtain ⟨hok', heof'⟩ := notifyChange_spec hok h0 hsafe.1 hsafe.2 heof hrun
    exact ⟨⟨R, h0, hok'⟩, heof'⟩
  | fault pgoff err =>
    obtain ⟨⟨f1, r⟩, hrun, rfl⟩ := Option.map_eq_some_iff.mp hexec
    have hf := fault_spec hok hrun
    exact ⟨⟨R, h0, hf.ok⟩, hf.eof trivial heof⟩

theorem step_keeps (h : Between f) (heof : EofOk f) (hstep : SafeFileStep f f') :
    Between f' ∧ EofOk f' := by
  cases hstep with
  | op o hvalid hexec hsafe => exact op_keeps h heof hvalid hexec hsafe
  | others ho =>
    refine ⟨ho.between, fun hflag => ?_⟩
    rw [ho.pi] at hflag ⊢
    rw [ho.inode]
    have hfit := heof hflag
    exact ⟨ho.tree ▸ hfit.below, fun hz => ho.tree.trans (hfit.empty hz)⟩

theorem run_keeps {f0 : File} (h : Between f0) (hroot : f0.pi.root = 0)
    (hrun : ReflTransGen SafeFileStep f0 f) : Between f ∧ EofOk f := by
  induction hrun with
  | refl => exact ⟨h, fun _ => fits_of_root hroot⟩
  | tail _ hstep ih => exact step_keeps ih.1 ih.2 hstep

/-- **Blocks beyond the end of a file are flagged.** In every run of operations on a new regular
file that copy as much as they allocate, when `PMFS_EOFBLOCKS_FL` is clear no block is mapped above
the last one of `i_size` bytes; and the file can be evicted. -/
theorem eof_flagged_in_safe_runs {f0 : File} (h : Between f0) (hroot : f0.pi.root = 0)
    (hrun : ReflTransGen SafeFileStep f0 f) :
    (f.pi.eofblocks = false → ∀ b bp, pmfsFindDataBlock f.d f.pi b = some bp → bp ≠ 0 →
      f.inode.iSize ≠ 0 ∧
        b >>> (pmfsInodeBlkShift f.pi - 12) ≤ (f.inode.iSize - 1) / pmfsInodeBlkSize f.pi) ∧
    (SlabOk f.d → ∀ (fs : Fs) (nr now : ℕ) (trans : Option Errno), fs.dev = f.d → fs.pi nr = f.pi →
      fs.inode nr = f.inode → (pmfsEvictInode fs nr trans now).isSome = true) := by
  obtain ⟨⟨R, h0, hok⟩, heof⟩ := run_keeps h hroot hrun
  refine ⟨fun hflag b bp hfind hbp => ?_, fun hs fs nr now trans hd hpi hinode =>
    evict_total hok h0 hs heof hd hpi hinode⟩
  have hfit := heof hflag
  obtain ⟨bp', hfind', hiff⟩ := findDataBlock_eq hok.ok.toCounts
  rw [hfind, Option.some.injEq] at hfind'
  obtain ⟨hlt, hmapped⟩ := hiff.mp (hfind' ▸ hbp)
  refine ⟨fun hz => hmapped ?_, ?_⟩
  · rw [hfit.empty hz]
    cases f.pi.height <;> rfl
  · by_contra hcon
    refine hmapped (find_eq_zero_of_below (by norm_num) uniform_tree hfit.below hlt ?_)
    rw [lastOf, Nat.shiftRight_eq_div_pow]
    exact not_le.mp hcon

/-- A new regular file. -/
def regFile : PmfsInode := { zeroInode with iMode := 0o100644 }

/-- The inode 3 as a new regular file. -/
def fileOn (fs : Fs) : File := ⟨fs.dev, pmfsReadInode 384 regFile false false, regFile⟩

theorem between_fileOn {fs : Fs} (h : small = some fs) : Between (fileOn fs) := by
  have hact := small_active
  rw [h, Option.map_some, Option.some.injEq] at hact
  have hinv := (inv_init h).env (.create 3 regFile (pmfsReadInode 384 regFile false false)
    (by rw [hact]; decide) rfl rfl rfl rfl)
  have h3 : 3 ∈ insert 3 fs.active := Finset.mem_insert_self 3 _
  have hown := hinv.split h3
  have hok := hinv.inodes 3 h3
  simp only [Fs.setInode, Function.update_self] at hown hok
  exact ⟨_, zero_mem_rest hinv.reserved, hown, hok, hinv.mounting⟩

/-- A write of `len` bytes at the start of the file, of which `avail` can be copied. -/
def writeAtStart (len avail : ℕ) : WriteArgs :=
  { pos := 0, len := len, avail := avail, accessOk := true, trans := none, privs := none, now := 1 }

theorem write_two_blocks : (small.map fun fs =>
    (((FileOp.write (writeAtStart 8192 5000)).exec (fileOn fs)).map (·.d.failures),
      fs.dev.failures)) =
    some (some 0, 0) := by
  decide +kernel

theorem eof_flagged_in_safe_runs_write : ∃ fs f, small = some fs ∧
    (FileOp.write (writeAtStart 8192 5000)).exec (fileOn fs) = some f ∧
    (f.pi.eofblocks = false → ∀ b bp, pmfsFindDataBlock f.d f.pi b = some bp → bp ≠ 0 →
      f.inode.iSize ≠ 0 ∧
        b >>> (pmfsInodeBlkShift f.pi - 12) ≤ (f.inode.iSize - 1) / pmfsInodeBlkSize f.pi) := by
  have hres := write_two_blocks
  rcases hfs : small with - | fs
  · rw [hfs] at hres
    simp at hres
  rw [hfs, Option.map_some, Option.some.injEq, Prod.mk.injEq, Option.map_eq_some_iff] at hres
  obtain ⟨⟨f, hexec, hfail⟩, hfail0⟩ := hres
  have hvalid : (FileOp.write (writeAtStart 8192 5000)).Valid := ⟨by decide, by decide⟩
  have hreach : CopyReaches (fileOn fs) (writeAtStart 8192 5000) := by
    change 1 * 4096 < max 0 (0 + min 5000 8192)
    decide
  exact ⟨fs, f, rfl, hexec, (eof_flagged_in_safe_runs (between_fileOn hfs) rfl
    (.single (.op _ hvalid hexec (Or.inr ⟨hreach, hfail.trans hfail0.symm⟩)))).1⟩

theorem short_write : (small.bind fun fs =>
    ((FileOp.write (writeAtStart 8192 0)).exec (fileOn fs)).map fun f =>
      (f.pi.eofblocks, f.inode.iSize, (pmfsFindDataBlock f.d f.pi 1).map (· != 0),
        (pmfsEvictInode (fs.setInode 3 f.d f.inode f.pi) 3 none 1).isNone)) =
    some (false, 0, some true, true) := by
  decide +kernel

/-- A write of two blocks whose copy faults at once leaves a block beyond the end without the flag,
and the eviction of the file runs into `BUG_ON(!mpty)`. -/
theorem short_write_unflagged : ∃ fs f, small = some fs ∧ ReflTransGen FileStep (fileOn fs) f ∧
    f.pi.eofblocks = false ∧ f.inode.iSize = 0 ∧
    (∃ bp, pmfsFindDataBlock f.d f.pi 1 = some bp ∧ bp ≠ 0) ∧
    pmfsEvictInode (fs.setInode 3 f.d f.inode f.pi) 3 none 1 = none := by
  obtain ⟨fs, hfs, hres⟩ := Option.bind_eq_some_iff.mp short_write
  obtain ⟨f, hexec, hres⟩ := Option.map_eq_some_iff.mp hres
  simp only [Prod.mk.injEq, Option.map_eq_some_iff, bne_iff_ne, Option.isNone_iff_eq_none] at hres
  obtain ⟨hflag, hsize, ⟨bp, hbp, hne⟩, hevict⟩ := hres
  exact ⟨fs, f, hfs,
    .single (.op _ (show FileOp.Valid (.write _) from ⟨by decide, by decide⟩) hexec), hflag, hsize,
    ⟨bp, hbp, hne⟩, hevict⟩

end Pmfs.Inodes.EofRuns
