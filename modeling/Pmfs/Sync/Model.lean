import Pmfs.Itable.Model
import Pmfs.Replay.Model
import Pmfs.Dirs.Model

/-! # The replay loop

`syscall_sync_inodelog` goes through the log of a user process, a ring of 1024 pages of 4K, from
one address to another. There are two copies of its loop, one for the last page and one for the
pages before it. The loops are the same for every `Replayer`, which says what is done for an entry;
`syncEntry` is the one of the source, with its two `switch` statements. They differ in the field
that tells whether a `DIR_LOG` entry adds a name. At the end the cursors for further grants are
taken from the log.

`none` is the use of a record that `pmfs_get_inode` does not find. What `add_inode_index`,
`add_direntry` and `remove_direntry` do is an argument, `Calls`: those are the subject of
`Replay.Model` and `Dirs.Model`. -/

namespace Pmfs.Sync.Model

open Lib.Bytes Tree.Model Inodes.Model Itable.Model Replay.Model Dirs.Model

/-- The pages of the log, by page and offset. -/
abbrev Log := ℕ → ℕ → UInt8

def logblock : ℕ := 1024

/-- `enum nova_entry_type`. -/
inductive EntryType where
  | PADDING
  | FILE_WRITE
  | DIR_LOG
  | SET_ATTR
  | LINK_CHANGE
deriving DecidableEq, Repr

/-- `entry_type` of the entry at an offset, the byte behind the inode number. -/
def entryType (log : Log) (page offset : ℕ) : Option EntryType :=
  match (log page (offset + 4)).toNat with
  | 0 => some .PADDING
  | 1 => some .FILE_WRITE
  | 2 => some .DIR_LOG
  | 3 => some .SET_ATTR
  | 4 => some .LINK_CHANGE
  | _ => none

/-- The size of the structure for the type. -/
def EntryType.size : EntryType → ℕ
  | .DIR_LOG => 64
  | _ => 32

/-! ### The loops -/

/-- What is done for an entry, with `true` in the last page: the new state, and what is assigned
to `error`, if it is. -/
abbrev Replayer (σ : Type) := Bool → EntryType → ℕ → ℕ → σ → Option (σ × Option ℤ)

section Loops

variable {σ : Type} (r : Replayer σ) (log : Log)

/-- The loop over the entries of a page up to `limit`, 129 times at most. The flag is false when an
unknown type makes the function return. -/
def pageLoop (last : Bool) (page limit : ℕ) : ℕ → ℕ → σ → ℤ → Option (σ × ℤ × Bool)
  | 0, _, _, _ => none
  | fuel + 1, offset, s, error =>
    if offset < limit then
      match entryType log page offset with
      | none => some (s, -1, false)
      | some t => (r last t page offset s).bind fun q =>
          pageLoop last page limit fuel (offset + t.size) q.1 (q.2.getD error)
    else some (s, error, true)

/-- The loop over the pages; `pmfs_get_xip_mem` finds those with `mapped`. -/
def pagesLoop (mapped : ℕ → Bool) (endIndex eoffset : ℕ) :
    ℕ → ℕ → ℕ → σ → ℤ → Option (σ × ℤ × Bool)
  | 0, _, _, _, _ => none
  | fuel + 1, index, offset, s, error =>
    if index ≤ endIndex then
      let page := index % logblock
      if mapped page then
        let loop := if index < endIndex then pageLoop r log false page 4096 129 offset s 0
          else pageLoop r log true page eoffset 129 offset s 0
        loop.bind fun q =>
          if q.2.2 then pagesLoop mapped endIndex eoffset fuel (index + 1) 0 q.1 q.2.1 else some q
      else some (s, -1, false)
    else some (s, error, true)

/-- `end_index` for two addresses. -/
def endIndexOf (startaddr endaddr : ℕ) : ℕ :=
  if endaddr >>> 12 < startaddr >>> 12 then endaddr >>> 12 + logblock else endaddr >>> 12

/-- The `struct kernelfs_addr_info` at an offset. -/
def addrInfoAt (page offset : ℕ) : AddrInfo where
  nvmBlockAddr := le (log page) offset 8
  ssd1BlockAddr := le (log page) (offset + 8) 8
  ssd2BlockAddr := le (log page) (offset + 16) 8
  ssd3BlockAddr := le (log page) (offset + 24) 8
  uFreeInodeBase := le (log page) (offset + 32) 8

/-- What a replay leaves: the state, what it returns, and the cursors that it stores in the super
block, if it comes so far. -/
structure Replayed (σ : Type) where
  state : σ
  error : ℤ
  cursors : Option AddrInfo

/-- `syscall_sync_inodelog`. -/
def syscallSyncInodelog (mapped : ℕ → Bool) (startaddr endaddr : ℕ) (s : σ) :
    Option (Replayed σ) :=
  let index := startaddr >>> 12
  let endIndex := endIndexOf startaddr endaddr
  let eoffset := endaddr % 4096
  (pagesLoop r log mapped endIndex eoffset (endIndex - index + 2) index (startaddr % 4096) s 0).map
    fun q =>
      if q.2.2 then
        if eoffset > 4096 - 40 then
          let page := (endIndex + 1) % logblock
          if mapped page then ⟨q.1, 0, some (addrInfoAt log page 0)⟩ else ⟨q.1, -1, none⟩
        else ⟨q.1, q.2.1, some (addrInfoAt log (endIndex % logblock) eoffset)⟩
      else ⟨q.1, q.2.1, none⟩

end Loops

/-! ### The cases -/

/-- The records of the inodes, by slot, with the counters of the super block; only the functions
that the cases call see the rest. -/
structure State (ρ : Type) where
  pi : ℕ → PmfsInode
  sbi : SbInfo
  rest : ρ

variable {ρ : Type}

/-- A record changes. -/
def State.setPi (s : State ρ) (i : ℕ) (pi : PmfsInode) : State ρ :=
  { s with pi := Function.update s.pi i pi }

/-- `struct kernelfs_dentry`, with its time. -/
structure DentryEntry extends KernelfsDentry where
  mtime : ℕ

/-- What the cases call, with the slots of the records that are used: that of the inode for
`add_inode_index`, those of the directory and of the inode for `add_direntry`, and that of the
directory for `remove_direntry`. -/
structure Calls (ρ : Type) where
  addInodeIndex : KernelfsExtent → ℕ → State ρ → State ρ × ℤ
  addDirentry : DentryEntry → ℕ → ℕ → State ρ → State ρ × ℤ
  removeDirentry : DentryEntry → ℕ → State ρ → State ρ × ℤ

section Cases

variable (log : Log) (page offset : ℕ)

/-- A field of the entry. -/
def field (a n : ℕ) : ℕ := le (log page) (offset + a) n

/-- The `struct kernelfs_extent` at an offset. -/
def extentAt : KernelfsExtent where
  deviceId := log page (offset + 5)
  blkoffHi := log page (offset + 6)
  mtime := UInt32.ofNat (field log page offset 8 4)
  extBlock := UInt32.ofNat (field log page offset 12 4)
  extLen := UInt16.ofNat (field log page offset 16 2)
  extStartHi := UInt16.ofNat (field log page offset 18 2)
  extStartLo := UInt32.ofNat (field log page offset 20 4)
  size := UInt32.ofNat (field log page offset 24 4)
  blkoffLo := UInt32.ofNat (field log page offset 28 4)

/-- The `struct kernelfs_dentry` at an offset. -/
def dentryAt : DentryEntry where
  ino := field log page offset 0 4
  fino := field log page offset 16 8
  fileType := field log page offset 6 1
  name := bytes (log page) (offset + 32) (field log page offset 5 1)
  mtime := field log page offset 8 4

/-- Whether a `DIR_LOG` entry adds a name: `addordel` is `Addden`, or in the last page `invalid` is
not 0. -/
def adds (last : Bool) : Bool :=
  if last then field log page offset 12 1 != 0 else field log page offset 7 1 == 1

/-- A `SET_ATTR` entry without `isdel`. -/
def setAttr (pi : PmfsInode) : PmfsInode :=
  { pi with
    iMode := field log page offset 6 2
    iUid := field log page offset 20 4
    iGid := field log page offset 24 4
    iAtime := field log page offset 8 4
    iMtime := field log page offset 8 4
    iCtime := field log page offset 16 4
    iSize := field log page offset 28 4 }

/-- A `SET_ATTR` entry with `isdel`, for the inode `ino` in slot `i`. -/
def setAttrDel (s : State ρ) (ino i now : ℕ) : State ρ :=
  let nr := UInt32.ofNat (ino >>> 7)
  let hint := if nr < s.sbi.sFreeInodeHint then nr else s.sbi.sFreeInodeHint
  let free := s.sbi.sFreeInodesCount + 1
  { s.setPi i { s.pi i with root := 0, iLinksCount := 0, iSize := 0, iDtime := now % 2 ^ 32 } with
    sbi := { s.sbi with
      sFreeInodesCount := free
      sFreeInodeHint := if free = s.sbi.sInodesCount - 3 then 3 else hint } }

/-- A `LINK_CHANGE` entry. -/
def linkChange (pi : PmfsInode) : PmfsInode :=
  { pi with
    iLinksCount := field log page offset 6 2
    iFlags := UInt32.ofNat (field log page offset 16 4)
    iGeneration := field log page offset 20 4 }

end Cases

/-- The cases of the two `switch` statements. `pmfs_get_inode` finds a record in the slot that
`slot` tells, and `now` is the time. -/
def syncEntry (calls : Calls ρ) (slot : ℕ → Option ℕ) (now : ℕ) (log : Log) : Replayer (State ρ) :=
  fun last t page offset s =>
    let pi := slot (field log page offset 0 4)
    match t with
    | .FILE_WRITE =>
      if field log page offset 7 1 = 1 then
        pi.map fun i => (calls.addInodeIndex (extentAt log page offset) i s).map id some
      else some (s, none)
    | .DIR_LOG =>
      if adds log page offset last then
        pi.bind fun dir => (slot (field log page offset 16 8)).map fun i =>
          (calls.addDirentry (dentryAt log page offset) dir i s).map id some
      else pi.map fun dir => (calls.removeDirentry (dentryAt log page offset) dir s).map id some
    | .SET_ATTR =>
      pi.map fun i =>
        (if field log page offset 12 2 = 0 then s.setPi i (setAttr log page offset (s.pi i))
          else setAttrDel s (field log page offset 0 4) i now, none)
    | .LINK_CHANGE => pi.map fun i => (s.setPi i (linkChange log page offset (s.pi i)), none)
    | .PADDING => some (s, none)

end Pmfs.Sync.Model
