import Pmfs.Inodes.Model

/-! # Replaying the extents of a log

`add_inode_index` of `sync_meta.c` enters an extent that a user process has written into the tree of
an inode. Here the slots of the lowest metadata blocks are for chunks of 2M. A slot holds the
address of the chunk on one of three SSDs, with the number of the SSD in its two highest bits, or
points to an index page with 512 addresses of 4K blocks.

The code leaves `errval` unset on some ways to `return errval`. What it holds then is the argument
`junk`, by the metadata block of the frame of `recursive_index_blocks`, and at 0 for
`add_inode_index`. The field `whole` of the results is no variable of the source: it tells whether
no error exit was taken, and no slot was stored behind the last one of an index page. Such a slot is
one of the next page.

As before, `none` is the use of a null pointer, or of an address on an SSD as a pointer. -/

namespace Pmfs.Replay.Model

open Block.Model Tree.Model Inodes.Model Lib.Loop

/-- What the functions return for an error. -/
def errno : Errno → ℤ
  | .EPERM => -1
  | .ENOENT => -2
  | Errno.EIO => -5
  | .EAGAIN => -11
  | .ENOMEM => -12
  | .EACCES => -13
  | .EFAULT => -14
  | .EEXIST => -17
  | .ENODEV => -19
  | .EINVAL => -22
  | .EFBIG => -27
  | .ENOSPC => -28
  | .EMLINK => -31
  | .ENAMETOOLONG => -36
  | .ENOTEMPTY => -39
  | .ENODATA => -61
  | .EOPNOTSUPP => -95
  | .ESTALE => -116

/-! ### Extents -/

/-- The fields of `struct kernelfs_extent` that `add_inode_index` reads. -/
structure KernelfsExtent where
  deviceId : UInt8
  blkoffHi : UInt8
  mtime : UInt32
  extBlock : UInt32
  extLen : UInt16
  extStartHi : UInt16
  extStartLo : UInt32
  size : UInt32
  blkoffLo : UInt32
deriving DecidableEq

/-- The device of an address, 0 for the NVM. -/
def devOf (v : ℕ) : ℕ := v >>> 62

namespace KernelfsExtent

variable (e : KernelfsExtent)

/-- `devid` in `recursive_index_blocks`: the two bits that are left of `device_id`. -/
def dev : ℕ := e.deviceId.toNat % 4

/-- `blocknr`: the address of the first block, without the bits below 4096 and with the device. The
parts have no bit in common. -/
def blocknr : ℕ :=
  (e.extStartHi.toNat <<< 32 + e.extStartLo.toNat) >>> 12 <<< 12 + e.dev <<< 62

/-- The first chunk. -/
def offset : ℕ := e.extBlock.toNat >>> 9

/-- The last chunk. -/
def endoff : ℕ :=
  if e.extLen > 0 then ((e.extBlock.toNat + e.extLen.toNat - 1) % 2 ^ 32) >>> 9
    else e.extBlock.toNat >>> 9

/-- The number of chunks, as an `unsigned int`. -/
def len : ℕ := (e.endoff + 2 ^ 32 - e.offset + 1) % 2 ^ 32

/-- The first slot in an index page. -/
def findex : ℕ := e.extBlock.toNat % 512

/-- `fileoff`; `ext_block << PAGE_SHIFT` has 32 bits. -/
def fileoff : ℕ := e.extBlock.toNat <<< 12 % 2 ^ 32 + e.extStartLo.toNat % 4096

/-- `blkoff`, without the device. -/
def blkoff : ℕ := e.blkoffHi.toNat <<< 32 + e.blkoffLo.toNat

end KernelfsExtent

variable (e : KernelfsExtent)

/-- The end of `add_inode_index`. -/
def setFields (pi : PmfsInode) : PmfsInode :=
  { pi with
    iSize := if e.fileoff + e.size.toNat > pi.iSize then e.fileoff + e.size.toNat else pi.iSize
    iMtime := e.mtime.toNat
    blkoff := if e.blkoff ≠ 0 then e.blkoff + e.dev <<< 62 else pi.blkoff }

/-- `pi->nvmblock += n`. -/
def addNvmblock (pi : PmfsInode) (n : ℕ) : PmfsInode :=
  { pi with nvmblock := (pi.nvmblock + n) % 2 ^ 32 }

/-- The loop over `n` slots of an index page from `j` on, and the number of slots that it changes.
-/
def fillSlots (page : ℕ) (addr : ℕ → ℕ) : ℕ → ℕ → Dev → Dev × ℕ
  | 0, _, d => (d, 0)
  | n + 1, j, d =>
    if d.node (page + j / 512) (j % 512) ≠ addr j then
      let r := fillSlots page addr n (j + 1) (d.setSlot (page + j / 512) (j % 512) (addr j))
      (r.1, r.2 + 1)
    else fillSlots page addr n (j + 1) d

/-! ### The tree -/

/-- The local variables of `recursive_index_blocks`. -/
structure IndexLoop where
  d : Dev
  pi : PmfsInode
  errval : ℤ
  whole : Bool

/-- The address for the slot `j` of an index page in a tree. -/
def treeAddr (j : ℕ) : ℕ := e.blocknr + j <<< 12

/-- The extent is entered into the index page at `v`. -/
def indexLeaf (s : IndexLoop) (v : ℕ) : Option (IndexLoop × Option Unit) :=
  if devOf v ≠ 0 then none
  else some ({ s with
    d := (fillSlots (pmfsGetBlocknr v) (treeAddr e) e.extLen.toNat e.findex s.d).1
    pi := if e.dev = 0 then addNvmblock s.pi (e.extLen.toNat + 1) else s.pi
    whole := s.whole && e.findex + e.extLen.toNat ≤ 512 }, none)

/-- The loop of `recursive_index_blocks` at height 1: one chunk. -/
def indexLeafBody (page i : ℕ) (s : IndexLoop) : Option (IndexLoop × Option Unit) :=
  let v := s.d.node page i
  if e.dev = 0 ∨ v ≠ 0 ∧ devOf v = 0 then
    if v = 0 then
      match s.d.newBlock .b4K true with
      | (.error err, d) => some ({ s with d := d, errval := errno err, whole := false }, some ())
      | (.ok b, d) =>
        indexLeaf e { s with d := d.setSlot page i (pmfsGetBlockOff b), errval := 0 }
          (pmfsGetBlockOff b)
    else indexLeaf e s v
  else if v = 0 then some ({ s with d := s.d.setSlot page i e.blocknr }, none)
  else if v = alignDown (2 ^ 21) e.blocknr then some (s, none)
  else some ({ s with whole := false }, some ())

/-- The loop of `recursive_index_blocks` above height 1: one child, indexed by `rec`. -/
def indexMetaBody (rec : ℕ → ℕ → ℕ → Dev → PmfsInode → Option (Dev × PmfsInode × ℤ × Bool))
    (nodeBits first last page i : ℕ) (s : IndexLoop) : Option (IndexLoop × Option Unit) :=
  let fill (s : IndexLoop) : Option (IndexLoop × Option Unit) :=
    (rec (s.d.node page i) (firstBlk nodeBits first i) (lastBlk nodeBits last i) s.d
        s.pi).map fun r =>
      ({ d := r.1, pi := r.2.1, errval := r.2.2.1, whole := s.whole && r.2.2.2 },
        if r.2.2.1 < 0 then some () else none)
  if s.d.node page i = 0 then
    match s.d.newBlock .b4K true with
    | (.error err, d) => some ({ s with d := d, errval := errno err, whole := false }, some ())
    | (.ok b, d) => fill { s with d := d.setSlot page i (pmfsGetBlockOff b), errval := 0 }
  else fill s

/-- `recursive_index_blocks`: the device and the inode, what is returned, and whether no error exit
was taken. -/
def recursiveIndexBlocks (junk : ℕ → ℤ) :
    ℕ → ℕ → ℕ → ℕ → Dev → PmfsInode → Option (Dev × PmfsInode × ℤ × Bool)
  | 0, _, _, _, _, _ => none
  | h + 1, block, first, last, d, pi =>
    if block = 0 ∨ devOf block ≠ 0 then none
    else
      let page := pmfsGetBlocknr block
      let nodeBits := h * 9
      let firstIndex := first >>> nodeBits
      let lastIndex := last >>> nodeBits
      let body := if h = 0 then indexLeafBody e page
        else indexMetaBody (recursiveIndexBlocks junk h) nodeBits first last page
      (forLoop body firstIndex (lastIndex + 1 - firstIndex) ⟨d, pi, junk page, true⟩).map fun r =>
        (r.1.d, r.1.pi, if r.2.isNone then 0 else r.1.errval, r.1.whole)

/-! ### The inode -/

/-- What `add_inode_index` leaves and returns. -/
structure Indexed where
  d : Dev
  pi : PmfsInode
  ret : ℤ
  whole : Bool

/-- The address for the block `i` in the index page of a tree of height 0. -/
def flatAddr (i : ℕ) : ℕ := e.blocknr + (i - e.extBlock.toNat) <<< 12

/-- The blocks of the extent in the index page of a tree of height 0. When there are none from block
0 on, `last_index` is the largest `unsigned int`. -/
def indexFlat (page : ℕ) (d : Dev) : Option (Dev × ℕ) :=
  if e.extLen = 0 ∧ e.extBlock = 0 then none
  else some (fillSlots page (flatAddr e) e.extLen.toNat e.extBlock.toNat d)

/-- The chunk of a tree of height 0 when there is none yet. -/
def newFlat (junk : ℕ → ℤ) (d : Dev) (pi : PmfsInode) : Option Indexed :=
  if e.deviceId = 0 then
    match d.newBlock .b4K true with
    | (.error err, d) => some ⟨d, pi, errno err, false⟩
    | (.ok b, d) => (indexFlat e b d).map fun r =>
        ⟨r.1, setFields e (addNvmblock { pi with root := pmfsGetBlockOff b, height := 0 }
          e.extLen.toNat), 0, true⟩
  else some ⟨d, setFields e { pi with root := e.blocknr, height := 0 }, junk 0, true⟩

/-- The chunk of a tree of height 0 when there is one. -/
def oldFlat (junk : ℕ → ℤ) (d : Dev) (pi : PmfsInode) : Option Indexed :=
  if devOf pi.root = 0 then
    (indexFlat e (pmfsGetBlocknr pi.root) d).map fun r =>
      ⟨r.1, setFields e (if e.deviceId = 0 then addNvmblock pi r.2 else pi), junk 0, true⟩
  else if pi.root = alignDown (2 ^ 21) e.blocknr then some ⟨d, setFields e pi, junk 0, true⟩
  else some ⟨d, pi, -1, false⟩

/-- The call of `recursive_index_blocks` and what follows it. -/
def indexTree (junk : ℕ → ℤ) (height : ℕ) (d : Dev) (pi : PmfsInode) : Option Indexed :=
  (recursiveIndexBlocks e junk height pi.root e.offset e.endoff d pi).map fun r =>
    if r.2.2.1 < 0 then ⟨r.1, r.2.1, r.2.2.1, false⟩ else ⟨r.1, setFields e r.2.1, r.2.2.1, r.2.2.2⟩

/-- The height that a tree gets. -/
def newHeight (height : ℕ) : ℕ :=
  if e.endoff > 1 <<< (height * 9) - 1 then height + shiftsToZero 8 (e.endoff >>> (height * 9))
    else height

/-- `add_inode_index`. -/
def addInodeIndex (junk : ℕ → ℤ) (d : Dev) (pi : PmfsInode) : Option Indexed :=
  let height := newHeight e pi.height
  if e.endoff > 1 <<< (pi.height * 9) - 1 ∧ height > 3 then some ⟨d, pi, errno .ENOSPC, false⟩
  else if height = 0 ∧ e.len ≤ 1 then
    if pi.root = 0 then newFlat e junk d pi else oldFlat e junk d pi
  else if pi.root = 0 ∨ height > pi.height then
    match pmfsIncreaseBtreeHeight d pi height with
    | (d, pi, some err) => some ⟨d, pi, errno err, false⟩
    | (d, pi, none) => indexTree e junk height d pi
  else indexTree e junk height d pi

/-- The extents one after the other, as long as they are entered without an error. -/
def replay (junk : ℕ → ℤ) : List KernelfsExtent → Dev → PmfsInode → Option (Dev × PmfsInode)
  | [], d, pi => some (d, pi)
  | e :: l, d, pi =>
    match addInodeIndex e junk d pi with
    | some ⟨d, pi, _, true⟩ => replay junk l d pi
    | _ => none

/-! ### Directory entries -/

/-- `pmfs_alloc_block`, for the blocks of a directory: `__pmfs_alloc_blocks` but for the first block
of an inode without a tree, which is always of 4K and not counted. -/
def pmfsAllocBlock (d : Dev) (pi : PmfsInode) (fileBlocknr num : ℕ) (zero : Bool) :
    Option (Dev × PmfsInode × Option Errno) :=
  allocVia (fun d pi => let r := d.newBlock .b4K zero; (r.1, r.2, pi)) (recursiveAllocBlocks zero)
    d pi fileBlocknr num

/-- What `add_direntry` does to the inode of the entry. The entry is for a directory or not, and
finds a place in a block of its directory or not. -/
def addDirentryInode (flags : UInt32) (mtime : ℕ) (isDir placed : Bool) (d : Dev) (pi : PmfsInode) :
    Dev × PmfsInode :=
  let pi := resetInode flags pi
  if placed then
    if isDir then
      match d.newBlock .b4K true with
      | (.error _, d) => (d, touchInode mtime pi)
      | (.ok b, d) => (d, touchInode mtime (dirInode flags b pi))
    else (d, touchInode mtime pi)
  else (d, pi)

end Pmfs.Replay.Model
