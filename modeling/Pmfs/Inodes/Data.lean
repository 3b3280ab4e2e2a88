import Pmfs.Inodes.Regular
import Pmfs.Lib.Bytes

/-! # The bytes of regular files

The operations of `Regular` with what they store in data blocks: `pmfs_xip_file_write` with the
clearing of edge blocks and the copy from the user, and `do_xip_mapping_read`. To the file they do
what those of `Regular` do (`xipFileWrite_file`). The bytes of the device are a function of the
offset from the superblock. Metadata blocks stay with the device `Dev`, so the two share no store. A
block that is allocated without `zero` keeps the bytes that were there. -/

namespace Pmfs.Inodes.Data

open Lib.Bytes Block.Model Tree.Model Inodes.Regular

/-- A file with the bytes of the device. -/
structure Image where
  f : File
  m : ℕ → UInt8

/-- Where a block starts. -/
def addrOf (block : ℕ) : ℕ := pmfsGetBlockOff (pmfsGetBlocknr block)

/-- `pmfs_get_block`, with the null pointer as `none`. -/
def pmfsGetBlock (block : ℕ) : Option ℕ := if block = 0 then none else some (addrOf block)

/-- The first 4K block of the inode's block that the page is in. -/
def firstPage (pi : PmfsInode) (pgoff : ℕ) : ℕ :=
  pgoff >>> (pmfsInodeBlkShift pi - 12) <<< (pmfsInodeBlkShift pi - 12)

/-- The bytes after a page of `f` got its block in `f'`: a new block is zeroed. -/
def zeroNew (f f' : File) (pgoff : ℕ) (m : ℕ → UInt8) : ℕ → UInt8 :=
  if pmfsFindDataBlock f.d f.pi (firstPage f.pi pgoff) = some 0 then
    match (pmfsFindDataBlock f'.d f'.pi (firstPage f.pi pgoff)).bind pmfsGetBlock with
    | none => m
    | some bp => clear m bp (pmfsInodeBlkSize f.pi)
  else m

/-- `pmfs_get_xip_mem`: the block of the page. -/
def pmfsGetXipMem (s : Image) (pgoff : ℕ) (trans : Option Errno) (create : Bool) :
    Option (Image × Except Errno ℕ) :=
  (pmfsFindAndAllocBlocks s.f pgoff trans create).map fun r =>
    (⟨r.1, zeroNew s.f r.1 pgoff s.m⟩, r.2)

/-! ### Reading -/

/-- The local variables of `do_xip_mapping_read`, with the bytes copied so far. -/
structure ReadLoop where
  index : ℕ
  offset : ℕ
  copied : List UInt8
  error : Option Errno

/-- How many bytes of the page are in the file, `none` behind its end. -/
def pageBytes (isize index offset : ℕ) : Option ℕ :=
  let endIndex := (isize - 1) >>> 12
  if index > endIndex then none
  else if index = endIndex then
    let nr := (isize - 1) % 4096 + 1
    if nr ≤ offset then none else some (nr - offset)
  else some (4096 - offset)

/-- The loop of `do_xip_mapping_read`; the user's buffer takes `avail` bytes. It has not ended when
there are no rounds left. -/
def xipReadLoop (s : Image) (len avail : ℕ) : ℕ → ReadLoop → Option ReadLoop
  | 0, _ => none
  | fuel + 1, r =>
    match pageBytes s.f.inode.iSize r.index r.offset with
    | none => some r
    | some nr =>
      let nr := min nr (len - r.copied.length)
      let next (data : List UInt8) (error : Option Errno) : Option ReadLoop :=
        if r.copied.length + nr > avail then some { r with error := some .EFAULT }
        else
          let r := ⟨r.index + (r.offset + nr) >>> 12, (r.offset + nr) % 4096,
            r.copied ++ data, error⟩
          if r.copied.length < len then xipReadLoop s len avail fuel r else some r
      match pmfsGetXipMem s r.index none false with
      | none => none
      | some (_, .ok block) => next (bytes s.m (addrOf block + r.offset) nr) none
      | some (_, .error e) =>
        if e = .ENODATA then next (List.replicate nr 0) (some e)
          else some { r with error := some e }

/-- `do_xip_mapping_read`: the bytes, and the error that is returned when there is none. -/
def doXipMappingRead (s : Image) (pos len avail : ℕ) : Option (List UInt8 × Option Errno) :=
  if s.f.inode.iSize = 0 then some ([], none)
  else (xipReadLoop s len avail (len + 1) ⟨pos >>> 12, pos % 4096, [], none⟩).map fun r =>
    (r.copied, r.error)

/-- What `do_xip_mapping_read` returns. -/
def readResult (r : List UInt8 × Option Errno) : Except Errno ℕ :=
  if r.1.length ≠ 0 then .ok r.1.length
  else
    match r.2 with
    | some e => .error e
    | none => .ok 0

/-- `*ppos` after `do_xip_mapping_read`. -/
def readPos (pos : ℕ) (r : List UInt8 × Option Errno) : ℕ := pos + r.1.length

/-! ### Writing -/

/-- The local variables of `__pmfs_xip_file_write`, with what the user copy can still give. -/
structure WriteLoop where
  s : Image
  pos : ℕ
  count : ℕ
  avail : ℕ
  written : ℕ
  status : Option Errno

/-- The loop of `__pmfs_xip_file_write`, one page at a time. -/
def xipWriteLoop (buf : ℕ → UInt8) : ℕ → WriteLoop → Option WriteLoop
  | 0, l => some l
  | fuel + 1, l =>
    let offset := l.pos % 4096
    let bytes := min (4096 - offset) l.count
    match pmfsGetXipMem l.s (l.pos >>> 12) none true with
    | none => none
    | some (s, .error e) => some { l with s := s, status := some e }
    | some (s, .ok block) =>
      let copied := min bytes l.avail
      let l := { l with
        s := { s with m := copy s.m (addrOf block + offset) (fun i => buf (l.written + i)) copied }
        pos := l.pos + copied
        count := l.count - copied
        avail := l.avail - copied
        written := l.written + copied }
      if copied ≠ bytes then some { l with status := some .EFAULT }
      else if l.count = 0 then some l
      else xipWriteLoop buf fuel l

/-- `__pmfs_xip_file_write`. -/
def __pmfsXipFileWrite (s : Image) (buf : ℕ → UInt8) (pos count avail : ℕ) :
    Option (Image × Except Errno ℕ) :=
  (xipWriteLoop buf count ⟨s, pos, count, avail, 0, none⟩).map fun l =>
    ({ l.s with f := l.s.f.extend l.pos }, writeResult l.written l.status)

/-- `*ppos` after `__pmfs_xip_file_write`. -/
def xipFileWritePos (s : Image) (buf : ℕ → UInt8) (pos count avail : ℕ) : Option ℕ :=
  (xipWriteLoop buf count ⟨s, pos, count, avail, 0, none⟩).map fun l => l.pos

/-- `pmfs_file_write_fast`. -/
def pmfsFileWriteFast (s : Image) (buf : ℕ → UInt8) (pos count avail now block : ℕ) :
    Image × Except Errno ℕ :=
  let copied := min count avail
  (⟨(s.f.setTime now).extend (pos + copied), copy s.m (addrOf block + pos % 4096) buf copied⟩,
    if copied = 0 then .error .EFAULT else .ok copied)

/-- `*ppos` after `pmfs_file_write_fast`. -/
def fileWriteFastPos (pos count avail : ℕ) : ℕ := pos + min count avail

/-- The part of a block that `pmfs_clear_edge_blk` zeroes, as an offset and a number of bytes: up to
`blkOff`, or from it on, rounded to 8 bytes. -/
def edgeRange (pi : PmfsInode) (blkOff : ℕ) (isEndBlk : Bool) : ℕ × ℕ :=
  if isEndBlk then (blkOff - blkOff % 8, pmfsInodeBlkSize pi - blkOff + blkOff % 8)
  else (0, blkOff + (8 - blkOff % 8))

/-- `pmfs_clear_edge_blk`. -/
def pmfsClearEdgeBlk (f : File) (m : ℕ → UInt8) (newBlk : Bool) (block blkOff : ℕ)
    (isEndBlk : Bool) : Option (ℕ → UInt8) :=
  if newBlk then
    (findLoop32 f.d.node f.pi.height f.pi.root
        (block >>> (pmfsInodeBlkShift f.pi - 12))).map fun bp =>
      match pmfsGetBlock bp with
      | none => m
      | some ptr =>
        clear m (ptr + (edgeRange f.pi blkOff isEndBlk).1) (edgeRange f.pi blkOff isEndBlk).2
  else some m

/-- The edge blocks are cleared. -/
def clearEdges (s : Image) (w : WriteArgs) (newSblk newEblk : Bool) : Option Image :=
  (pmfsClearEdgeBlk s.f s.m newSblk (w.pos >>> 12) (w.pos % pmfsInodeBlkSize s.f.pi)
      false).bind fun m =>
    (pmfsClearEdgeBlk s.f m newEblk w.endBlk ((w.pos + w.len) % pmfsInodeBlkSize s.f.pi)
      true).map fun m => { s with m := m }

/-- A write inside a transaction: the blocks are allocated, with the result ignored and without
zeroing, then the edge blocks are cleared and the pages are written. -/
def writeTrans (s : Image) (w : WriteArgs) (buf : ℕ → UInt8) (newSblk newEblk : Bool) :
    Option (Image × Except Errno ℕ) :=
  (s.f.alloc (w.pos >>> 12) w.numBlocks false).bind fun r =>
    (clearEdges { s with f := r.1 } w newSblk newEblk).bind fun s =>
      __pmfsXipFileWrite s buf w.pos w.len w.avail

/-- `pmfs_xip_file_write`, on the blocks found for the first and the last page. -/
def writeFound (s : Image) (w : WriteArgs) (buf : ℕ → UInt8) (block blockE : ℕ) :
    Option (Image × Except Errno ℕ) :=
  if block ≠ 0 ∧ w.sameBlock s.f.pi then
    some (pmfsFileWriteFast s buf w.pos w.len w.avail w.now block)
  else
    match w.trans, w.privs with
    | some e, _ => some (s, .error e)
    | none, some e => some (s, .error e)
    | none, none => writeTrans { s with f := s.f.setTime w.now } w buf (w.newSblk s.f.pi block)
        (w.newEblk s.f.pi blockE)

/-- `pmfs_xip_file_write`. -/
def pmfsXipFileWrite (s : Image) (w : WriteArgs) (buf : ℕ → UInt8) :
    Option (Image × Except Errno ℕ) :=
  if !w.accessOk then some (s, .error .EFAULT)
  else if w.len = 0 then some (s, .ok 0)
  else (pmfsFindDataBlock s.f.d s.f.pi (w.pos >>> 12)).bind fun block =>
    (pmfsFindDataBlock s.f.d s.f.pi w.endBlk).bind fun blockE => writeFound s w buf block blockE

/-! ### What the operations do to the file -/

theorem xipWriteLoop_file (buf : ℕ → UInt8) (fuel : ℕ) (l : WriteLoop) :
    (xipWriteLoop buf fuel l).map (fun l => ⟨l.s.f, l.pos, l.count, l.avail, l.written, l.status⟩) =
      Regular.xipWriteLoop fuel ⟨l.s.f, l.pos, l.count, l.avail, l.written, l.status⟩ := by
  induction fuel generalizing l with
  | zero => rfl
  | succ fuel ih =>
    rw [xipWriteLoop, Regular.xipWriteLoop, pmfsGetXipMem]
    rcases pmfsFindAndAllocBlocks l.s.f (l.pos >>> 12) none true with _ | ⟨f, _ | block⟩
    · rfl
    · rfl
    · dsimp only [Option.map_some]
      split_ifs
      · rfl
      · rfl
      · exact ih _

theorem clearEdgeBlk_file (f : File) (m : ℕ → UInt8) (newBlk : Bool) (block blkOff : ℕ)
    (isEndBlk : Bool) : Regular.pmfsClearEdgeBlk f newBlk block =
      (pmfsClearEdgeBlk f m newBlk block blkOff isEndBlk).map fun _ => () := by
  unfold pmfsClearEdgeBlk Regular.pmfsClearEdgeBlk
  split_ifs
  · rw [Option.map_map]
  · rfl

theorem writePages_file (s : Image) (w : WriteArgs) (buf : ℕ → UInt8) (a b : Bool) :
    ((clearEdges s w a b).bind fun s => __pmfsXipFileWrite s buf w.pos w.len w.avail).map
      (fun r => (r.1.f, r.2)) = writePages s.f w a b := by
  unfold clearEdges writePages
  rw [clearEdgeBlk_file s.f s.m a _ (w.pos % pmfsInodeBlkSize s.f.pi) false]
  rcases pmfsClearEdgeBlk s.f s.m a (w.pos >>> 12) (w.pos % pmfsInodeBlkSize s.f.pi) false
    with _ | m
  · rfl
  rw [clearEdgeBlk_file s.f m b _ ((w.pos + w.len) % pmfsInodeBlkSize s.f.pi) true, Option.map_some,
    Option.bind_some, Option.bind_some]
  rcases pmfsClearEdgeBlk s.f m b w.endBlk ((w.pos + w.len) % pmfsInodeBlkSize s.f.pi) true
    with _ | m'
  · rfl
  · have hloop := xipWriteLoop_file buf w.len ⟨⟨s.f, m'⟩, w.pos, w.len, w.avail, 0, none⟩
    rw [Option.map_some, Option.map_some, Option.bind_some, Option.bind_some, __pmfsXipFileWrite,
      Regular.__pmfsXipFileWrite, ← hloop, Option.map_map, Option.map_map]
    rfl

/-- Without the bytes a write is that of `Regular`. -/
theorem xipFileWrite_file (s : Image) (w : WriteArgs) (buf : ℕ → UInt8) :
    (pmfsXipFileWrite s w buf).map (fun r => (r.1.f, r.2)) = Regular.pmfsXipFileWrite s.f w := by
  have htrans : ∀ {s : Image} {a b : Bool}, (writeTrans s w buf a b).map (fun r => (r.1.f, r.2)) =
      Regular.writeTrans s.f w a b := by
    intro s a b
    unfold writeTrans Regular.writeTrans
    rw [Option.map_bind]
    exact congrArg _ (funext fun r => writePages_file ..)
  have hfound : ∀ block blockE, (writeFound s w buf block blockE).map (fun r => (r.1.f, r.2)) =
      Regular.writeFound s.f w block blockE := by
    intro block blockE
    unfold writeFound Regular.writeFound
    split_ifs
    · rfl
    · rcases w.trans with _ | e <;> rcases w.privs with _ | e'
      · exact htrans
      all_goals rfl
  unfold pmfsXipFileWrite Regular.pmfsXipFileWrite
  split_ifs
  · rfl
  · rfl
  · rw [Option.map_bind]
    refine congrArg _ (funext fun block => (Option.map_bind ..).trans ?_)
    exact congrArg _ (funext fun blockE => hfound block blockE)

end Pmfs.Inodes.Data
