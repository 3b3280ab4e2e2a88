import Pmfs.Inodes.Model

/-! # The inode table

The slots of the inode table with the counters of the super block (`inode.c`), and what creation,
eviction and log replay do to them. A slot is found by its index, which is the inode number shifted
by `PMFS_INODE_BITS`; an inode number that is no multiple of 128 is not modelled. What other parts
do (open a transaction, allocate a block, make a directory entry) is an argument. `none` is the use
of a null pointer or a shift that overflows. -/

namespace Pmfs.Itable.Model

open Block.Model Tree.Model Inodes.Model

/-- The inode table: its slots, the counters, and the size and block type of its own inode. -/
structure Table where
  pi : ℕ → PmfsInode
  sbi : SbInfo
  iSize : ℕ
  iBlkType : BlkType

/-- `sbi->s_inodes_count`. -/
def Table.count (t : Table) : ℕ := t.sbi.sInodesCount.toNat

/-- `sbi->s_free_inode_hint`. -/
def Table.hint (t : Table) : ℕ := t.sbi.sFreeInodeHint.toNat

/-- A slot changes. -/
def Table.setPi (t : Table) (i : ℕ) (pi : PmfsInode) : Table :=
  { t with pi := Function.update t.pi i pi }

/-- `PMFS_FREE_INODE_HINT_START`. -/
def PMFS_FREE_INODE_HINT_START : ℕ := 3

/-- The test of `pmfs_new_inode` for a free inode. -/
def freeTest (pi : PmfsInode) : Bool := pi.iLinksCount == 0 && (pi.iMode == 0 || pi.iDtime != 0)

/-- The table that `pmfs_init_inode_table` makes, with the root directory in its slot. -/
def newTable (initsize numInodes : ℕ) (root : PmfsInode) : Table :=
  let pi := initInodeTable initsize numInodes
  let count := UInt32.ofNat (pi.iSize >>> 7)
  { pi := Function.update (fun _ => zeroInode) 1 root
    sbi := ⟨count, count - 3, 3⟩
    iSize := pi.iSize
    iBlkType := pi.iBlkType }

/-! ### Growth -/

/-- `pmfs_increase_inode_table_size`. The argument is the error of `pmfs_new_transaction` or of
`__pmfs_alloc_blocks`; the new block is set to zero. -/
def pmfsIncreaseInodeTableSize (t : Table) : Option Errno → Table × Option Errno
  | some e => (t, some e)
  | none =>
    let iSize := t.iSize + 2 ^ blkTypeToShift t.iBlkType
    ({ t with
      pi := fun i => if t.iSize >>> 7 ≤ i ∧ i < iSize >>> 7 then zeroInode else t.pi i
      iSize := iSize
      sbi :=
        { sFreeInodeHint := UInt32.ofNat (t.iSize >>> 7)
          sFreeInodesCount := t.sbi.sFreeInodesCount + UInt32.ofNat (inodesPerBlock t.iBlkType)
          sInodesCount := UInt32.ofNat (iSize >>> 7) } }, none)

/-! ### Creation -/

/-- The loop over the rest of a block: the first of `n` slots from `i` on that is free, or else the
slot after them. -/
def scanBlock (pi : ℕ → PmfsInode) : ℕ → ℕ → ℕ
  | i, 0 => i
  | i, n + 1 => if freeTest (pi i) then i else scanBlock pi (i + 1) n

/-- The loop over the blocks of the table, `fuel` times at most. `i << PMFS_INODE_BITS` is a shift
of a signed integer, and inode 0 does not exist. -/
def scanTable (t : Table) : ℕ → ℕ → Option ℕ
  | 0, i => some i
  | fuel + 1, i =>
    if i < t.count then
      if 0 < i ∧ i < 2 ^ 24 then
        let endIno := i + (inodesPerBlock t.iBlkType - i % inodesPerBlock t.iBlkType)
        let j := scanBlock t.pi i (endIno - i)
        if j < endIno then some j else scanTable t fuel j
      else none
    else some i

/-- `retry` in `pmfs_new_inode`: the table grows as long as there is no free inode from `i` on. The
list has the outcomes of the growths; a growth beyond them fails. -/
def findInode (t : Table) : List (Option Errno) → ℕ → Option (Table × Except Errno ℕ)
  | grow, i =>
    match scanTable t t.count i with
    | none => none
    | some j =>
      if j < t.count then some (t, .ok j)
      else
        match grow with
        | [] => some (t, .error .ENOSPC)
        | some e :: _ => some (t, .error e)
        | none :: grow => findInode (pmfsIncreaseInodeTableSize t none).1 grow j

/-- What `pmfs_new_inode` does to the slot it has found before it unlocks the table. -/
def chosen (pi : PmfsInode) (flags : UInt32) : PmfsInode :=
  { pi with iBlkType := .b4K, iFlags := flags, height := 0, iDtime := 0 }

/-- The slot `i` is taken: one free inode less, and a new hint. -/
def takeSlot (t : Table) (i : ℕ) (flags : UInt32) : Table :=
  { t.setPi i (chosen (t.pi i) flags) with
    sbi := { t.sbi with
      sFreeInodesCount := t.sbi.sFreeInodesCount - 1
      sFreeInodeHint :=
        if UInt32.ofNat i < t.sbi.sInodesCount - 1 then UInt32.ofNat i + 1 else 3 } }

/-- The part of `pmfs_new_inode` under `inode_table_mutex`. `flags` are those of the directory. -/
def selectInode (t : Table) (mode : ℕ) (flags : UInt32) (grow : List (Option Errno)) :
    Option (Table × Except Errno ℕ) :=
  (findInode t grow t.hint).map fun r =>
    match r.2 with
    | .ok i => (takeSlot r.1 i (pmfsMaskFlags mode flags), .ok i)
    | .error e => (r.1, .error e)

/-- `pmfs_get_inode_flags` for an inode without `S_SYNC`, `S_NOATIME` and `S_DIRSYNC`. -/
def pmfsGetInodeFlags (inode : Inode) (flags : UInt32) : UInt32 :=
  (flags &&& ~~~0x100b8) ||| (if inode.isAppend then 0x20 else 0) |||
    (if inode.isImmutable then 0x10 else 0)

/-- `pmfs_update_inode`; the inode on the device has 32 bits for a time. -/
def pmfsUpdateInode (inode : Inode) (pi : PmfsInode) : PmfsInode :=
  { pi with
    iMode := inode.iMode
    iUid := inode.iUid
    iGid := inode.iGid
    iLinksCount := inode.iNlink % 65536
    iSize := inode.iSize
    iBlocks := inode.iBlocks
    iAtime := inode.iAtime % 2 ^ 32
    iCtime := inode.iCtime % 2 ^ 32
    iMtime := inode.iMtime % 2 ^ 32
    iGeneration := inode.iGeneration
    iFlags := pmfsGetInodeFlags inode pi.iFlags }

/-- The part of `pmfs_new_inode` after the unlock. -/
def publishInode (t : Table) (i : ℕ) (inode : Inode) : Table :=
  t.setPi i (pmfsUpdateInode inode (t.pi i))

/-- The VFS inode that `pmfs_new_inode` fills in. -/
def newInode (mode uid gid generation now : ℕ) : Inode :=
  { iIno := 0, iMode := mode, iNlink := 1, iSize := 0, iBlocks := 0, iCtime := now, iMtime := now
    iAtime := now, iUid := uid, iGid := gid, iGeneration := generation, isAppend := false
    isImmutable := false, isBad := false }

/-- What happens during a creation: whether it fails before a slot is looked for (a transaction,
`new_inode`, the inode of the directory), the growths of the table, whether `insert_inode_locked`
refuses the inode, whether the first block of a directory or symbolic link can be allocated, whether
the entry can be made, and whether `pmfs_free_inode` can open its transaction, and at what time. -/
structure Env where
  start : Option Errno
  grow : List (Option Errno)
  taken : Bool
  block : Option Errno
  entry : Option Errno
  free : Option Errno
  now : ℕ

/-- `pmfs_new_inode`. -/
def pmfsNewInode (t : Table) (inode : Inode) (flags : UInt32) (env : Env) :
    Option (Table × Except Errno ℕ) :=
  match env.start with
  | some e => some (t, .error e)
  | none => (selectInode t inode.iMode flags env.grow).map fun r =>
      match r.2 with
      | .ok i => (publishInode r.1 i inode, if env.taken then .error .EINVAL else .ok i)
      | .error e => (r.1, .error e)

/-! ### The end of an inode -/

/-- `pmfs_free_inode`; the deletion time has 32 bits. -/
def pmfsFreeInode (t : Table) (i : ℕ) (trans : Option Errno) (now : ℕ) : Table × Option Errno :=
  match trans with
  | some e => (t, some e)
  | none =>
    let hint := if UInt32.ofNat i < t.sbi.sFreeInodeHint then UInt32.ofNat i
      else t.sbi.sFreeInodeHint
    let free := t.sbi.sFreeInodesCount + 1
    ({ t.setPi i { t.pi i with root := 0, iSize := 0, iDtime := now % 2 ^ 32 } with
      sbi := { t.sbi with
        sFreeInodesCount := free
        sFreeInodeHint := if free = t.sbi.sInodesCount - 3 then 3 else hint } }, none)

/-- `pmfs_evict_inode`. -/
def pmfsEvictInode (t : Table) (i : ℕ) (inode : Inode) (trans : Option Errno) (now : ℕ) : Table :=
  if evicts inode then (pmfsFreeInode t i trans now).1 else t

/-- `pmfs_update_nlink`. -/
def pmfsUpdateNlink (t : Table) (i nlink : ℕ) : Table :=
  t.setPi i { t.pi i with iLinksCount := nlink % 65536 }

/-! ### Calls -/

/-- What `pmfs_create`, `pmfs_mknod` and `pmfs_symlink` do to the table; the `block` of `env` is for
the text of a symbolic link. Without an entry the new inode loses its link and goes. The aborted
transaction has recorded nothing. -/
def createNode (t : Table) (inode : Inode) (flags : UInt32) (env : Env) : Option Table :=
  (pmfsNewInode t inode flags env).map fun r =>
    match r.2 with
    | .error _ => r.1
    | .ok i =>
      if env.block = none ∧ env.entry = none then r.1
      else pmfsEvictInode (pmfsUpdateNlink r.1 i (inode.iNlink - 1)) i
        { inode with iNlink := inode.iNlink - 1 } env.free env.now

/-- What `pmfs_mkdir` does to the table. Without an entry `clear_nlink` is for the VFS inode only.
-/
def pmfsMkdir (t : Table) (inode : Inode) (flags : UInt32) (env : Env) : Option Table :=
  (pmfsNewInode t inode flags env).map fun r =>
    match r.2 with
    | .error _ => r.1
    | .ok i =>
      if env.block = none ∧ env.entry = none then pmfsUpdateNlink r.1 i 2
      else pmfsEvictInode r.1 i { inode with iNlink := 0 } env.free env.now

/-! ### Log replay -/

/-- There is a slot with the index: `pmfs_get_inode` does not return NULL. -/
def Table.Mapped (t : Table) (i : ℕ) : Prop := 0 < i ∧ i < t.iSize >>> 7

instance (t : Table) (i : ℕ) : Decidable (t.Mapped i) := inferInstanceAs (Decidable (_ ∧ _))

/-- How `add_direntry` goes on: it returns early, or comes to `update_inode`, for a directory with
its first block. -/
inductive Added where
  | early
  | done (block : Option ℕ) (mtime : ℕ)

/-- What `add_direntry` does to the slot of the inode that the entry is for. -/
def addDirentry (t : Table) (i : ℕ) (flags : UInt32) (added : Added) : Option Table :=
  if t.Mapped i then
    match added with
    | .early => some (t.setPi i (resetInode flags (t.pi i)))
    | .done block mtime =>
      let pi := resetInode flags (t.pi i)
      some (t.setPi i (touchInode mtime (block.elim pi (dirInode flags · pi))))
  else none

/-- A `SET_ATTR` entry with `isdel`: what `pmfs_free_inode` does, and the link count becomes 0. -/
def setAttrDelete (t : Table) (i now : ℕ) : Option Table :=
  if t.Mapped i then
    let t' := (pmfsFreeInode t i none now).1
    some (t'.setPi i { t'.pi i with iLinksCount := 0 })
  else none

/-! ### Grants -/

/-- `struct kernelfs_addr_info`, also the fields of the super block of the same names. -/
structure AddrInfo where
  nvmBlockAddr : ℕ
  ssd1BlockAddr : ℕ
  ssd2BlockAddr : ℕ
  ssd3BlockAddr : ℕ
  uFreeInodeBase : ℕ
deriving DecidableEq

/-- The loop of `alloc_addr_info` that makes the table large enough. It goes on after failed
growths, and does not end if there are not enough others among the outcomes. -/
def growFor (num : UInt32) : Table → List (Option Errno) → Option Table
  | t, grow =>
    if t.sbi.sFreeInodesCount < num then
      match grow with
      | [] => none
      | e :: grow => growFor num (pmfsIncreaseInodeTableSize t e).1 grow
    else some t

/-- The inode part of `alloc_addr_info`: the first call grants the inodes from the hint on. -/
def firstBase (t : Table) (base : ℕ) (num : UInt32) (grow : List (Option Errno)) :
    Option (Table × ℕ) :=
  if base = 0 then
    (growFor num t grow).map fun t =>
      ({ t with sbi := { t.sbi with sFreeInodeHint := num + 1 } }, t.hint * 128 % 2 ^ 32)
  else some (t, base)

/-- `alloc_addr_info`, with the fields of the super block: the table, the new fields, and what the
caller gets. -/
def allocAddrInfo (t : Table) (ps : AddrInfo) (num : UInt32) (grow : List (Option Errno)) :
    Option (Table × AddrInfo × AddrInfo) :=
  let nvm := if ps.nvmBlockAddr = 0 then 1024 * 1024 else ps.nvmBlockAddr
  (firstBase t ps.uFreeInodeBase num grow).map fun r =>
    (r.1,
      { nvmBlockAddr := (nvm + 524288) % 2 ^ 64
        ssd1BlockAddr := (ps.ssd1BlockAddr + 1048576) % 2 ^ 64
        ssd2BlockAddr := (ps.ssd2BlockAddr + 1048576) % 2 ^ 64
        ssd3BlockAddr := (ps.ssd3BlockAddr + 1048576) % 2 ^ 64
        uFreeInodeBase := (r.2 + 100) % 2 ^ 64 },
      { nvmBlockAddr := nvm
        ssd1BlockAddr := ps.ssd1BlockAddr
        ssd2BlockAddr := ps.ssd2BlockAddr
        ssd3BlockAddr := ps.ssd3BlockAddr
        uFreeInodeBase := r.2 })

end Pmfs.Itable.Model
