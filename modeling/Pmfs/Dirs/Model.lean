import Pmfs.Lib.Bytes
import Pmfs.Block.Model
import Mathlib.Logic.Function.Basic

/-! # Directories

The blocks of a directory as bytes, with the functions of `dir.c`, `namei.c` and `sync_meta.c` that
read and change them. A block holds records (`struct pmfs_direntry`): `ino` in 8 bytes, `de_len` in
2, `name_len` and `file_type` in 1 each, and the name; `de_len` leads to the next record.

A loop of the source that may never end returns `none` then. Times are left out, and what the calls
of `pmfs_add_logentry` do is left to the journal. -/

namespace Pmfs.Dirs.Model

open Lib.Bytes Block.Model Block.Model.Errno

/-- The bytes of a block. -/
abbrev Blk := ℕ → UInt8

/-- A name, without the terminating zero. -/
abbrev Name := List UInt8

/-! ### Records -/

/-- `PMFS_DIR_REC_LEN`. -/
def pmfsDirRecLen (nameLen : ℕ) : ℕ := (nameLen + 12 + 3) / 4 * 4

/-- `de->ino`. -/
def deIno (b : Blk) (de : ℕ) : ℕ := le b de 8

/-- `de->de_len`. -/
def deLen (b : Blk) (de : ℕ) : ℕ := le b (de + 8) 2

/-- `de->name_len`. -/
def deNameLen (b : Blk) (de : ℕ) : ℕ := le b (de + 10) 1

/-- The name of a record. -/
def deName (b : Blk) (de : ℕ) : Name := bytes b (de + 12) (deNameLen b de)

/-- `pmfs_match`. -/
def pmfsMatch (name : Name) (b : Blk) (de : ℕ) : Bool :=
  name.length == deNameLen b de && deIno b de != 0 && bytes b (de + 12) name.length == name

/-- `pmfs_check_dir_entry`: the error message, if any. -/
def pmfsCheckDirEntry (b : Blk) (de : ℕ) : Option String :=
  let rlen := deLen b de
  if rlen < pmfsDirRecLen 1 then some "de_len is smaller than minimal"
  else if rlen % 4 ≠ 0 then some "de_len % 4 != 0"
  else if rlen < pmfsDirRecLen (deNameLen b de) then some "de_len is too small for name_len"
  else if de + rlen > 4096 then some "directory entry across blocks"
  else none

/-- What `pmfs_search_dirblock` returns: 1 with the record and the one before it, 0, or -1;
`endless` if it has not ended. -/
inductive Search where
  | found (res : ℕ) (prev : Option ℕ)
  | notFound
  | bad
  | endless
deriving DecidableEq

/-- The loop of `pmfs_search_dirblock`; every round but the last moves by a byte at least. -/
def searchLoop (name : Name) (b : Blk) (check : Bool) : ℕ → ℕ → Option ℕ → Search
  | 0, _, _ => .endless
  | fuel + 1, de, pde =>
    if de < 4096 then
      if de + name.length ≤ 4096 ∧ pmfsMatch name b de then
        if check && (pmfsCheckDirEntry b de).isSome then .bad else .found de pde
      else if deLen b de = 0 then .bad
      else searchLoop name b check fuel (de + deLen b de) (some de)
    else .notFound

/-- `pmfs_search_dirblock`. -/
def pmfsSearchDirblock (b : Blk) (name : Name) : Search := searchLoop name b true 4097 0 none

/-- `pmfs_search_dir_block` of `sync_meta.c`, which makes no check of the record it finds. -/
def pmfsSearchDirBlock (b : Blk) (name : Name) : Search := searchLoop name b false 4097 0 none

/-! ### Adding to a block -/

/-- The loop of `pmfs_add_dirent_to_buf` and `kernelfs_add_dirent`: the first record with room for
`reclen` bytes, `some none` if there is none. -/
def findRoom (b : Blk) (reclen : ℕ) : ℕ → ℕ → Option (Option ℕ)
  | 0, _ => none
  | fuel + 1, de =>
    if de + reclen ≤ 4096 then
      if (deIno b de ≠ 0 ∧ pmfsDirRecLen (deNameLen b de) + reclen ≤ deLen b de) ∨
          (deIno b de = 0 ∧ reclen ≤ deLen b de) then some (some de)
      else findRoom b reclen fuel (de + deLen b de)
    else some none

/-- The record `de` is split when it is in use: the new place and the block. -/
def splitRecord (b : Blk) (de : ℕ) : ℕ × Blk :=
  if deIno b de ≠ 0 then
    let nlen := pmfsDirRecLen (deNameLen b de)
    (de + nlen, put (put b (de + nlen + 8) 2 (deLen b de - nlen)) (de + 8) 2 nlen)
  else (de, b)

/-- The fields of a record but for its length. -/
def fillRecord (b : Blk) (de ino : ℕ) (name : Name) : Blk :=
  putBytes (put (put b de 8 ino) (de + 10) 1 name.length) (de + 12) name

/-- `pmfs_add_dirent_to_buf`, into the record `de` if there is one. -/
def pmfsAddDirentToBuf (b : Blk) (name : Name) (ino : ℕ) (de : Option ℕ) :
    Option (Except Errno Blk) :=
  match de with
  | some de => some (.ok (fillRecord (splitRecord b de).2 (splitRecord b de).1 ino name))
  | none => (findRoom b (pmfsDirRecLen name.length) 4097 0).map fun
    | none => .error .ENOSPC
    | some de => .ok (fillRecord (splitRecord b de).2 (splitRecord b de).1 ino name)

/-- The first block of a directory `ino` in `parent`: `.` and `..`, over what the block held. -/
def makeEmpty (b : Blk) (ino parent : ℕ) : Blk :=
  let b := put (put (put (putBytes b 12 [0x2e, 0]) 0 8 ino) 10 1 1) 8 2 (pmfsDirRecLen 1)
  let b := put b 11 1 1
  let de := pmfsDirRecLen 1
  let b := put (put (put (putBytes b (de + 12) [0x2e, 0x2e, 0]) de 8 parent) (de + 8) 2
    (4096 - pmfsDirRecLen 1)) (de + 10) 1 2
  put b (de + 11) 1 1

/-- `T_DIR`. -/
def T_DIR : ℕ := 1

/-- The fields of `struct kernelfs_dentry` that the directory functions read. -/
structure KernelfsDentry where
  ino : ℕ
  fino : ℕ
  fileType : ℕ
  name : Name

/-- `kernelfs_add_dirent`: the block, and the first block of the new directory if it is one.
`newBlock` is the outcome of `pmfs_new_block`; the entry is in its block when that fails. -/
def kernelfsAddDirent (log : KernelfsDentry) (b : Blk) (de : Option ℕ)
    (newBlock : Except Errno Blk) : Option (Option Errno × Blk × Option Blk) :=
  let fill (de : ℕ) : Option Errno × Blk × Option Blk :=
    let b := put (fillRecord (splitRecord b de).2 (splitRecord b de).1 log.fino log.name)
      ((splitRecord b de).1 + 11) 1 log.fileType
    if log.fileType = T_DIR then
      match newBlock with
      | .error _ => (some .EPERM, b, none)
      | .ok g => (none, b, some (makeEmpty g log.fino log.ino))
    else (none, b, none)
  match de with
  | some de => some (fill de)
  | none => (findRoom b (pmfsDirRecLen log.name.length) 4097 0).map fun
    | none => (some .ENOSPC, b, none)
    | some de => fill de

/-! ### The directory -/

/-- A directory: `i_size`, the blocks that `pmfs_find_data_block` finds, and `i_dir_start_lookup`.
-/
structure Dir where
  iSize : ℕ
  blk : ℕ → Option Blk
  startLookup : ℕ

/-- The number of blocks. -/
def Dir.blocks (d : Dir) : ℕ := d.iSize >>> 12

/-- One block changes. -/
def Dir.setBlk (d : Dir) (k : ℕ) (b : Blk) : Dir :=
  { d with blk := Function.update d.blk k (some b) }

/-- The loop of `pmfs_add_entry` over `n` blocks from `k` on. -/
def addLoop (d : Dir) (name : Name) (ino : ℕ) : ℕ → ℕ → Option (Except Errno Dir)
  | 0, _ => some (.error .ENOSPC)
  | n + 1, k =>
    match d.blk k with
    | none => some (.error EIO)
    | some b =>
      match pmfsAddDirentToBuf b name ino none with
      | none => none
      | some (.ok b) => some (.ok (d.setBlk k b))
      | some (.error .ENOSPC) => addLoop d name ino n (k + 1)
      | some (.error e) => some (.error e)

/-- A new block at the end, with the contents `g` so far. -/
def Dir.grow (d : Dir) (g : Blk) (name : Name) (ino : ℕ) : Option (Dir × Option Errno) :=
  let b := put (put g 0 8 0) 8 2 4096
  let d := { d with iSize := d.iSize + 4096 }
  (pmfsAddDirentToBuf b name ino (some 0)).map fun
    | .ok b => (d.setBlk (d.blocks - 1) b, none)
    | .error e => (d.setBlk (d.blocks - 1) b, some e)

/-- `pmfs_add_entry`. `alloc` is the outcome of `pmfs_alloc_blocks` for a new block, with the
contents that the block has then. -/
def pmfsAddEntry (d : Dir) (name : Name) (ino : ℕ) (alloc : Except Errno Blk) :
    Option (Dir × Option Errno) :=
  if name.length = 0 then some (d, some .EINVAL)
  else
    match addLoop d name ino d.blocks 0 with
    | none => none
    | some (.ok d) => some (d, none)
    | some (.error .ENOSPC) =>
      match alloc with
      | .error e => some (d, some e)
      | .ok g => d.grow g name ino
    | some (.error e) => some (d, some e)

/-- A record is taken out: it goes to the one before it, or is marked free. -/
def dropRecord (b : Blk) (res : ℕ) (prev : Option ℕ) : Blk :=
  match prev with
  | some pde => put b (pde + 8) 2 (deLen b pde + deLen b res)
  | none => put b res 8 0

/-- The loop of `pmfs_remove_entry` over `n` blocks from `k` on, with the search in a block. -/
def removeLoop (search : Blk → Name → Search) (d : Dir) (name : Name) : ℕ → ℕ → Dir × Option Errno
  | 0, _ => (d, some .EINVAL)
  | n + 1, k =>
    match d.blk k with
    | none => (d, some .EINVAL)
    | some b =>
      match search b name with
      | .found res prev => (d.setBlk k (dropRecord b res prev), none)
      | _ => removeLoop search d name n (k + 1)

/-- `pmfs_remove_entry`. -/
def pmfsRemoveEntry (d : Dir) (name : Name) : Dir × Option Errno :=
  if name.length = 0 then (d, some .EINVAL) else removeLoop pmfsSearchDirblock d name d.blocks 0

/-! ### Lookup -/

/-- What a pass of `pmfs_inode_by_name` over the blocks ends with: a record, `goto done`, or
nothing; `endless` if it has not ended. -/
inductive Lookup where
  | found (block de : ℕ)
  | stop
  | nothing
  | endless
deriving DecidableEq

/-- The loop of `pmfs_inode_by_name`, from `block` round to `start`. -/
def lookupLoop (d : Dir) (name : Name) (nblocks start : ℕ) : ℕ → ℕ → Lookup
  | 0, _ => .endless
  | fuel + 1, block =>
    match d.blk block with
    | none => .stop
    | some b =>
      match pmfsSearchDirblock b name with
      | .found res _ => .found block res
      | .bad => .stop
      | .endless => .endless
      | .notFound =>
        let next := if block + 1 ≥ nblocks then 0 else block + 1
        if next = start then .nothing else lookupLoop d name nblocks start fuel next

/-- `.` or `..`, as `pmfs_inode_by_name` tells them; the byte after a name is zero. -/
def isDots (name : Name) : Bool :=
  name.length ≤ 2 && name.getD 0 0 == 0x2e && (name.getD 1 0 == 0x2e || name.getD 1 0 == 0)

/-- `pmfs_inode_by_name` up to the record it finds. For `.` and `..` the first block comes first,
and then the rest as if the directory had grown. -/
def findEntry (d : Dir) (name : Name) : Lookup :=
  if name.length > 255 then .stop
  else
    let nblocks := if isDots name then 1 else d.blocks
    let start := if isDots name ∨ d.startLookup ≥ d.blocks then 0 else d.startLookup
    match lookupLoop d name nblocks start (nblocks + 1) start with
    | .nothing =>
      if nblocks < d.blocks then lookupLoop d name d.blocks 0 (d.blocks + 1) nblocks else .stop
    | r => r

/-- `pmfs_inode_by_name`: the inode number, 0 when the name is not found. -/
def pmfsInodeByName (d : Dir) (name : Name) : ℕ :=
  match findEntry d name with
  | .found block de => ((d.blk block).map fun b => deIno b de).getD 0
  | _ => 0

/-- The hint that `pmfs_inode_by_name` leaves for the next lookup. -/
def lookedUp (d : Dir) (name : Name) : Dir :=
  match findEntry d name with
  | .found block _ => { d with startLookup := block }
  | _ => d

/-! ### Listing -/

/-- What `dir_emit` is given: `ctx->pos`, the name and the inode number. -/
structure Entry where
  pos : ℕ
  name : Name
  ino : ℕ
deriving DecidableEq

/-- `IF2DT`. -/
def if2dt (mode : ℕ) : ℕ := (mode &&& 0o170000) >>> 12

/-- How the loop over one block ends: `dir_emit` takes no more, or the block is done. The entries
are listed with their types. -/
inductive Batch where
  | refused (pos : ℕ) (es : List (Entry × ℕ))
  | done (pos room : ℕ) (es : List (Entry × ℕ))

/-- The loop of `pmfs_readdir` over a block. `mode` is the mode of the inode with a number, `none`
where `pmfs_get_inode` returns NULL, which is used without a check. `room` is how many entries
`dir_emit` still takes; every round but the last moves by 16 bytes at least. -/
def readBlock (mode : ℕ → Option ℕ) (d : Dir) (b : Blk) : ℕ → ℕ → ℕ → ℕ →
    List (Entry × ℕ) → Option Batch
  | 0, _, _, _, _ => none
  | fuel + 1, pos, offset, room, es =>
    if pos < d.iSize ∧ offset < 4096 then
      if (pmfsCheckDirEntry b offset).isSome then some (.done ((pos + 4095) / 4096 * 4096) room es)
      else if deIno b offset = 0 then
        readBlock mode d b fuel (pos + deLen b offset) (offset + deLen b offset) room es
      else
        match mode (deIno b offset) with
        | none => none
        | some m =>
          if room = 0 then some (.refused pos es)
          else readBlock mode d b fuel (pos + deLen b offset) (offset + deLen b offset) (room - 1)
            (es ++ [(⟨pos, deName b offset, deIno b offset⟩, if2dt m)])
    else some (.done pos room es)

/-- The loop of `pmfs_readdir` over the blocks. -/
def readBlocks (mode : ℕ → Option ℕ) (d : Dir) :
    ℕ → ℕ → ℕ → ℕ → List (Entry × ℕ) → Option (ℕ × List (Entry × ℕ))
  | 0, _, _, _, _ => none
  | fuel + 1, pos, offset, room, es =>
    if pos < d.iSize then
      match d.blk (pos >>> 12) with
      | none => readBlocks mode d fuel (pos + (4096 - offset)) offset room es
      | some b =>
        match readBlock mode d b 257 pos offset room es with
        | some (.refused pos es) => some (pos, es)
        | some (.done pos room es) => readBlocks mode d fuel pos 0 room es
        | none => none
    else some (pos, es)

/-- `pmfs_readdir` from `ctx->pos` on, for a `dir_emit` that takes `room` entries: the new
`ctx->pos` and the entries. A round that does not move `ctx->pos` is repeated for ever; this is
`none`, as is the use of NULL. -/
def pmfsReaddir (mode : ℕ → Option ℕ) (d : Dir) (pos room : ℕ) : Option (ℕ × List (Entry × ℕ)) :=
  readBlocks mode d (d.iSize + 2) pos (pos % 4096) room []

/-! ### Empty directories -/

/-- The loop of `pmfs_empty_dir`: the offset in the directory, the block, if there is one, and the
place in it. Every round moves the offset. -/
def emptyLoop (d : Dir) : ℕ → ℕ → Option Blk → ℕ → Option Bool
  | 0, _, _, _ => none
  | fuel + 1, offset, base, de =>
    if offset < d.iSize then
      match if base.isNone ∨ 4096 ≤ de then (d.blk (offset >>> 12)).map fun b => (b, 0)
          else base.map fun b => (b, de) with
      | none => emptyLoop d fuel (offset + 4096) none de
      | some (b, de) =>
        if (pmfsCheckDirEntry b de).isSome then
          emptyLoop d fuel (offset / 4096 * 4096 + 4096) (some b) 4096
        else if deIno b de ≠ 0 then some false
        else emptyLoop d fuel (offset + deLen b de) (some b) (de + deLen b de)
    else some true

/-- `pmfs_empty_dir` for the directory `ino`. -/
def pmfsEmptyDir (d : Dir) (ino : ℕ) : Option Bool :=
  if d.iSize < pmfsDirRecLen 1 + pmfsDirRecLen 2 then some true
  else
    match d.blk 0 with
    | none => some true
    | some b =>
      if deIno b 0 ≠ ino ∨ deIno b (deLen b 0) = 0 ∨ bytes b 12 2 ≠ [0x2e, 0] ∨
          bytes b (deLen b 0 + 12) 3 ≠ [0x2e, 0x2e, 0] then some true
      else emptyLoop d (d.iSize + 1) (deLen b 0 + deLen b (deLen b 0)) (some b)
        (deLen b 0 + deLen b (deLen b 0))

/-! ### The functions of the log replay -/

/-- The loop of `add_direntry` over `n` blocks from `k` on. -/
def kernelAddLoop (d : Dir) (log : KernelfsDentry) (newBlock : Except Errno Blk) :
    ℕ → ℕ → Option (Option Errno × Dir × Option Blk)
  | 0, _ => some (some .ENOSPC, d, none)
  | n + 1, k =>
    match d.blk k with
    | none => some (some EIO, d, none)
    | some b =>
      match kernelfsAddDirent log b none newBlock with
      | none => none
      | some (some .ENOSPC, _, _) => kernelAddLoop d log newBlock n (k + 1)
      | some (e, b, child) => some (e, d.setBlk k b, child)

/-- `add_direntry`, as far as it concerns the directory. -/
def addDirentry (d : Dir) (log : KernelfsDentry) (alloc newBlock : Except Errno Blk) :
    Option (Option Errno × Dir × Option Blk) :=
  match kernelAddLoop d log newBlock d.blocks 0 with
  | some (some .ENOSPC, _, _) =>
    match alloc with
    | .error e => some (some e, d, none)
    | .ok g =>
      let d := { d with iSize := d.iSize + 4096 }
      (kernelfsAddDirent log (put (put g 0 8 0) 8 2 4096) (some 0) newBlock).map fun r =>
        (r.1, d.setBlk (d.blocks - 1) r.2.1, r.2.2)
  | r => r

/-- `remove_direntry`, as far as it concerns the directory. -/
def removeDirentry (d : Dir) (name : Name) : Dir × Option Errno :=
  removeLoop pmfsSearchDirBlock d name d.blocks 0

end Pmfs.Dirs.Model
