import Pmfs.Inodes.Model

/-! # Regular files

The operations that map blocks of a regular file or change its size: `pmfs_xip_file_write`
(`xip.c`), `pmfs_fallocate` (`file.c`), `pmfs_notify_change` with `ATTR_SIZE` (`inode.c`) and page
faults. What is written into data blocks is left out; a copy from the user is given by the number
`avail` of bytes after which it faults. The list of pending truncations is left out, and as in `Fs`
so is the journal. -/

namespace Pmfs.Inodes.Regular

open Block.Model Tree.Model Inodes.Model

/-- A file on its device. -/
structure File where
  d : Dev
  inode : Inode
  pi : PmfsInode

/-- `pmfs_alloc_blocks`; the number of blocks is an `unsigned int`. -/
def File.alloc (f : File) (fileBlocknr num : ℕ) (zero : Bool) : Option (File × Option Errno) :=
  (pmfsAllocBlocks f.d f.inode f.pi fileBlocknr (num % 2 ^ 32) zero).map fun r =>
    (⟨r.1, r.2.1, r.2.2.1⟩, r.2.2.2)

/-- `pmfs_find_and_alloc_blocks`, and `pmfs_get_xip_mem`. Without a current transaction a new one is
opened, with the outcome `trans`. -/
def pmfsFindAndAllocBlocks (f : File) (iblock : ℕ) (trans : Option Errno) (create : Bool) :
    Option (File × Except Errno ℕ) :=
  match pmfsFindDataBlock f.d f.pi iblock with
  | none => none
  | some block =>
    if block ≠ 0 then some (f, .ok block)
    else if !create then some (f, .error .ENODATA)
    else
      match trans with
      | some e => some (f, .error e)
      | none =>
        match f.alloc iblock 1 true with
        | none => none
        | some (f, some e) => some (f, .error e)
        | some (f, none) => (pmfsFindDataBlock f.d f.pi iblock).map fun block =>
            (f, if block = 0 then .error .ENODATA else .ok block)

/-! ### Writing -/

/-- `i_size` grows to `pos`, in both copies. -/
def File.extend (f : File) (pos : ℕ) : File :=
  if pos > f.inode.iSize then
    { f with inode := { f.inode with iSize := pos }, pi := { f.pi with iSize := pos } }
  else f

/-- The times of both copies. -/
def File.setTime (f : File) (now : ℕ) : File :=
  { f with
    inode := { f.inode with iCtime := now, iMtime := now }
    pi := { f.pi with iCtime := now, iMtime := now } }

/-- The local variables of `__pmfs_xip_file_write`, with what the user copy can still give. -/
structure WriteLoop where
  f : File
  pos : ℕ
  count : ℕ
  avail : ℕ
  written : ℕ
  status : Option Errno

/-- The loop of `__pmfs_xip_file_write`, one page at a time; every page but the last takes a byte.
-/
def xipWriteLoop : ℕ → WriteLoop → Option WriteLoop
  | 0, s => some s
  | fuel + 1, s =>
    let bytes := min (4096 - s.pos % 4096) s.count
    match pmfsFindAndAllocBlocks s.f (s.pos >>> 12) none true with
    | none => none
    | some (f, .error e) => some { s with f := f, status := some e }
    | some (f, .ok _) =>
      let copied := min bytes s.avail
      let s := { s with
        f := f
        pos := s.pos + copied
        count := s.count - copied
        avail := s.avail - copied
        written := s.written + copied }
      if copied ≠ bytes then some { s with status := some .EFAULT }
      else if s.count = 0 then some s
      else xipWriteLoop fuel s

/-- The result of a write: the number of bytes, or the error if there is none. -/
def writeResult (written : ℕ) (status : Option Errno) : Except Errno ℕ :=
  match written, status with
  | 0, some e => .error e
  | n, _ => .ok n

/-- `__pmfs_xip_file_write`. -/
def __pmfsXipFileWrite (f : File) (pos count avail : ℕ) : Option (File × Except Errno ℕ) :=
  (xipWriteLoop count ⟨f, pos, count, avail, 0, none⟩).map fun s =>
    (s.f.extend s.pos, writeResult s.written s.status)

/-- `pmfs_file_write_fast`. -/
def pmfsFileWriteFast (f : File) (pos count avail now : ℕ) : File × Except Errno ℕ :=
  let copied := min count avail
  ((f.setTime now).extend (pos + copied), if copied = 0 then .error .EFAULT else .ok copied)

/-- `pmfs_clear_edge_blk`: a new edge block is looked up, to be zeroed. -/
def pmfsClearEdgeBlk (f : File) (newBlk : Bool) (block : ℕ) : Option Unit :=
  if newBlk then
    (findLoop32 f.d.node f.pi.height f.pi.root (block >>> (pmfsInodeBlkShift f.pi - 12))).map
      fun _ => ()
  else some ()

/-- The arguments of a write and what it meets: whether the buffer is a user address, how many bytes
can be copied from it, and the errors of `pmfs_new_transaction` and `file_remove_privs`. -/
structure WriteArgs where
  pos : ℕ
  len : ℕ
  avail : ℕ
  accessOk : Bool
  trans : Option Errno
  privs : Option Errno
  now : ℕ

/-- The number of 4K pages of a write. -/
def WriteArgs.numBlocks (w : WriteArgs) : ℕ := (w.len + w.pos % 4096 - 1) >>> 12 + 1

/-- The last page of a write. -/
def WriteArgs.endBlk (w : WriteArgs) : ℕ := w.pos >>> 12 + w.numBlocks - 1

/-- Whether the write stays in one block of the inode. -/
def WriteArgs.sameBlock (w : WriteArgs) (pi : PmfsInode) : Bool :=
  (w.len + w.pos % pmfsInodeBlkSize pi - 1) >>> pmfsInodeBlkShift pi == 0

/-- The first block is new and not written from its start. -/
def WriteArgs.newSblk (w : WriteArgs) (pi : PmfsInode) (block : ℕ) : Bool :=
  w.pos % pmfsInodeBlkSize pi != 0 && block == 0

/-- The last block is new and not written to its end. -/
def WriteArgs.newEblk (w : WriteArgs) (pi : PmfsInode) (block : ℕ) : Bool :=
  (w.pos + w.len) % pmfsInodeBlkSize pi != 0 && block == 0

/-- The edge blocks are cleared, and the pages are written. -/
def writePages (f : File) (w : WriteArgs) (newSblk newEblk : Bool) :
    Option (File × Except Errno ℕ) :=
  (pmfsClearEdgeBlk f newSblk (w.pos >>> 12)).bind fun _ =>
    (pmfsClearEdgeBlk f newEblk w.endBlk).bind fun _ => __pmfsXipFileWrite f w.pos w.len w.avail

/-- A write inside a transaction: the blocks are allocated, with the result ignored, before the
pages are written. -/
def writeTrans (f : File) (w : WriteArgs) (newSblk newEblk : Bool) :
    Option (File × Except Errno ℕ) :=
  (f.alloc (w.pos >>> 12) w.numBlocks false).bind fun r => writePages r.1 w newSblk newEblk

/-- `pmfs_xip_file_write`, on the blocks found for the first and the last page. -/
def writeFound (f : File) (w : WriteArgs) (block blockE : ℕ) : Option (File × Except Errno ℕ) :=
  if block ≠ 0 ∧ w.sameBlock f.pi then some (pmfsFileWriteFast f w.pos w.len w.avail w.now)
  else
    match w.trans, w.privs with
    | some e, _ => some (f, .error e)
    | none, some e => some (f, .error e)
    | none, none => writeTrans (f.setTime w.now) w (w.newSblk f.pi block) (w.newEblk f.pi blockE)

/-- `pmfs_xip_file_write`. -/
def pmfsXipFileWrite (f : File) (w : WriteArgs) : Option (File × Except Errno ℕ) :=
  if !w.accessOk then some (f, .error .EFAULT)
  else if w.len = 0 then some (f, .ok 0)
  else (pmfsFindDataBlock f.d f.pi (w.pos >>> 12)).bind fun block =>
    (pmfsFindDataBlock f.d f.pi w.endBlk).bind fun blockE => writeFound f w block blockE

/-! ### The other operations -/

/-- `pmfs_set_blocksize_hint`. -/
def pmfsSetBlocksizeHint (pi : PmfsInode) (newSize : ℕ) : PmfsInode :=
  if pi.root ≠ 0 then pi
  else { pi with iBlkType :=
    if newSize ≥ 0x40000000 then .b1G else if newSize ≥ 0x200000 then .b2M else .b4K }

/-- The arguments of `pmfs_fallocate` and what it meets: the errors of `inode_newsize_ok` and of
`pmfs_new_transaction`. -/
structure FallocArgs where
  mode : ℕ
  offset : ℕ
  len : ℕ
  newsizeOk : Option Errno
  trans : Option Errno
  now : ℕ

/-- Whether `FALLOC_FL_KEEP_SIZE` is set. -/
def FallocArgs.keepSize (a : FallocArgs) : Bool := a.mode % 2 == 1

/-- The number of blocks asked for. -/
def FallocArgs.numBlocks (a : FallocArgs) : ℕ := (a.offset % 4096 + a.len + 4095) >>> 12

/-- Whether the file grows. -/
def FallocArgs.grows (a : FallocArgs) (f : File) : Bool :=
  !a.keepSize && a.len + a.offset > f.inode.iSize

/-- The end of `pmfs_fallocate`, after an allocation with the result `ret`. -/
def fallocFinish (f : File) (a : FallocArgs) (ret : Option Errno) : File :=
  let f := if ret.isSome || a.keepSize then { f with pi := f.pi.setEofblocks } else f
  (if a.grows f then f.extend (a.len + a.offset) else f).setTime a.now

/-- `pmfs_fallocate`. -/
def pmfsFallocate (f : File) (a : FallocArgs) : Option (File × Option Errno) :=
  if a.mode / 2 ≠ 0 then some (f, some .EOPNOTSUPP)
  else if sIsDir f.inode.iMode then some (f, some .ENODEV)
  else
    match if a.grows f then a.newsizeOk else none, a.trans with
    | some e, _ => some (f, some e)
    | none, some e => some (f, some e)
    | none, none =>
      (({ f with pi := pmfsSetBlocksizeHint f.pi (a.len + a.offset) } : File).alloc
        (a.offset >>> 12) a.numBlocks true).map fun r => (fallocFinish r.1 a r.2, r.2)

/-- `pmfs_fallocate` is refused without a look at the blocks. -/
def Refused (f : File) (a : FallocArgs) : Prop :=
  a.mode / 2 ≠ 0 ∨ sIsDir f.inode.iMode = true ∨ (a.grows f = true ∧ a.newsizeOk ≠ none) ∨
    a.trans ≠ none

theorem falloc_refused {f : File} {a : FallocArgs} (h : Refused f a) :
    ∃ e, pmfsFallocate f a = some (f, some e) := by
  unfold pmfsFallocate
  by_cases hmode : a.mode / 2 ≠ 0
  · exact ⟨_, if_pos hmode⟩
  by_cases hdir : sIsDir f.inode.iMode = true
  · exact ⟨_, by rw [if_neg hmode, if_pos hdir]⟩
  rw [if_neg hmode, if_neg hdir]
  rcases hok : (if a.grows f then a.newsizeOk else none) with - | e
  · rcases htrans : a.trans with - | e
    · rcases h with h | h | ⟨hg, h⟩ | h
      · exact absurd h hmode
      · exact absurd h hdir
      · rw [if_pos hg] at hok
        exact absurd hok h
      · exact absurd htrans h
    · exact ⟨e, rfl⟩
  · exact ⟨e, rfl⟩

theorem falloc_ran {f : File} {a : FallocArgs} (h : ¬ Refused f a) : pmfsFallocate f a =
    (({ f with pi := pmfsSetBlocksizeHint f.pi (a.len + a.offset) } : File).alloc
    (a.offset >>> 12) a.numBlocks
      true).map fun r => (fallocFinish r.1 a r.2, r.2) := by
  simp only [Refused, not_or, not_and, not_not] at h
  obtain ⟨hmode, hdir, hok, htrans⟩ := h
  have hnone : (if a.grows f then a.newsizeOk else none) = none := by
    split_ifs with hg
    · exact hok hg
    · rfl
  unfold pmfsFallocate
  rw [if_neg (not_not.mpr hmode), if_neg hdir, hnone, htrans]

/-- `pmfs_setsize`. -/
def pmfsSetsize (f : File) (newsize now : ℕ) : Option File :=
  if sIsReg f.inode.iMode || sIsDir f.inode.iMode || sIsLnk f.inode.iMode then
    let oldsize := f.inode.iSize
    (__pmfsTruncateBlocks f.d { f.inode with iSize := newsize } f.pi newsize oldsize now).map
      fun r => ⟨r.1, r.2.1, r.2.2⟩
  else some f

/-- `pmfs_notify_change` with `ATTR_SIZE` alone, after `inode_change_ok` with the result `ok`. -/
def pmfsNotifyChange (f : File) (iaSize now : ℕ) (ok : Option Errno) :
    Option (File × Option Errno) :=
  match ok with
  | some e => some (f, some e)
  | none =>
    if iaSize ≠ f.inode.iSize ∨ f.pi.eofblocks then
      (pmfsSetsize { f with pi := pmfsSetBlocksizeHint f.pi iaSize } iaSize now).map fun f =>
        ({ f with pi := { f.pi with iSize := f.inode.iSize } }, none)
    else some (f, none)

/-- `__pmfs_xip_file_fault`: the block of the page, `none` for `VM_FAULT_SIGBUS`. -/
def __pmfsXipFileFault (f : File) (pgoff : ℕ) (trans : Option Errno) : Option (File × Option ℕ) :=
  if pgoff ≥ (f.inode.iSize + 4096 - 1) >>> 12 then some (f, none)
  else (pmfsFindAndAllocBlocks f pgoff trans true).map fun r => (r.1, r.2.toOption)

end Pmfs.Inodes.Regular
