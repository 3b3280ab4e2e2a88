import Pmfs.Block.Model
import Pmfs.Lib.Loop

/-! # The block trees of inodes

An inode maps its file blocks by a tree of 4K metadata blocks with 512 slots each (`inode.c`). The
device `Dev` holds the allocator and the metadata blocks as words, by block number and slot; a slot
holds the byte offset of a block, `0` for none. Offsets of blocks are multiples of 4096, so an
offset stands for the page it lies in.

The outcomes of the coming `kmem_cache_alloc` calls for blocknodes are a list, one outcome per call
of the allocator. The device also keeps, in `events` and the latest first, the calls of
`pmfs_add_logentry` and the slot stores of the tree code, and where it found no block for metadata.
As before, `none` is a `BUG_ON`, the use of a null pointer, or a read outside of the block that is
read. -/

namespace Pmfs.Tree.Model

open Block.Model Lib.Loop

/-- The fields of `struct pmfs_inode`. -/
structure PmfsInode where
  height : ℕ
  iBlkType : BlkType
  iFlags : UInt32
  root : ℕ
  iSize : ℕ
  iCtime : ℕ
  iMtime : ℕ
  iDtime : ℕ
  iMode : ℕ
  iLinksCount : ℕ
  iBlocks : UInt64
  iUid : ℕ
  iGid : ℕ
  iGeneration : ℕ
  iAtime : ℕ
  nvmblock : ℕ
  blkoff : ℕ
deriving DecidableEq, Repr

/-- The fields of the VFS `struct inode` that the file system reads and writes. -/
structure Inode where
  iIno : ℕ
  iMode : ℕ
  iNlink : ℕ
  iSize : ℕ
  iBlocks : UInt64
  iCtime : ℕ
  iMtime : ℕ
  iAtime : ℕ
  iUid : ℕ
  iGid : ℕ
  iGeneration : ℕ
  isAppend : Bool
  isImmutable : Bool
  isBad : Bool
deriving DecidableEq, Repr

/-- `PMFS_EOFBLOCKS_FL`: there are blocks allocated beyond the end of the file. -/
def PMFS_EOFBLOCKS_FL : UInt32 := 0x20000000

/-- Whether `PMFS_EOFBLOCKS_FL` is set. -/
def PmfsInode.eofblocks (pi : PmfsInode) : Bool := pi.iFlags &&& PMFS_EOFBLOCKS_FL != 0

/-- `pi->i_flags |= PMFS_EOFBLOCKS_FL`. -/
def PmfsInode.setEofblocks (pi : PmfsInode) : PmfsInode :=
  { pi with iFlags := pi.iFlags ||| PMFS_EOFBLOCKS_FL }

@[simp] theorem eofblocks_set (pi : PmfsInode) : pi.setEofblocks.eofblocks = true := by
  have hmask : (pi.iFlags ||| PMFS_EOFBLOCKS_FL) &&& PMFS_EOFBLOCKS_FL = PMFS_EOFBLOCKS_FL := by
    rw [← UInt32.toBitVec_inj]
    ext i hi
    simp only [UInt32.toBitVec_and, UInt32.toBitVec_or, BitVec.getElem_and, BitVec.getElem_or]
    cases pi.iFlags.toBitVec[i] <;> cases PMFS_EOFBLOCKS_FL.toBitVec[i] <;> rfl
  simp only [PmfsInode.eofblocks, PmfsInode.setEofblocks, hmask]
  decide

/-- `pmfs_inode_blk_shift`. -/
def pmfsInodeBlkShift (pi : PmfsInode) : ℕ := blkTypeToShift pi.iBlkType

/-- `pmfs_inode_blk_size`. -/
def pmfsInodeBlkSize (pi : PmfsInode) : ℕ := 2 ^ blkTypeToShift pi.iBlkType

theorem blkSize_pos (pi : PmfsInode) : 0 < pmfsInodeBlkSize pi := Nat.two_pow_pos _

/-- The index in the tree of a 4K block of the file. -/
def indexOf (pi : PmfsInode) (b : ℕ) : ℕ := b >>> (pmfsInodeBlkShift pi - 12)

/-- `INODES_PER_BLOCK`. -/
def inodesPerBlock (btype : BlkType) : ℕ := 1 <<< (blkTypeToShift btype - 7)

/-- An inode in a block that has been set to zero. -/
def zeroInode : PmfsInode :=
  { height := 0, iBlkType := .b4K, iFlags := 0, root := 0, iSize := 0, iCtime := 0, iMtime := 0
    iDtime := 0, iMode := 0, iLinksCount := 0, iBlocks := 0, iUid := 0, iGid := 0, iGeneration := 0
    iAtime := 0, nvmblock := 0, blkoff := 0 }

/-- A call of `pmfs_add_logentry` for some slots of a metadata block, a store to a slot, or a failed
allocation of a metadata block. -/
inductive Event where
  | log (page slot count : ℕ)
  | store (page slot : ℕ)
  | noMeta
deriving DecidableEq, Repr

/-- The device with its allocator. -/
structure Dev where
  ba : Balloc
  slab : List Bool
  node : ℕ → ℕ → ℕ
  events : List Event
  mounting : Bool

/-- `pmfs_get_block_off`. -/
def pmfsGetBlockOff (blocknr : ℕ) : ℕ := blocknr <<< 12

/-- `pmfs_get_blocknr`, and the page of an offset. -/
def pmfsGetBlocknr (block : ℕ) : ℕ := block >>> 12

namespace Dev

/-- The metadata blocks with `n` pages from page `a` on set to zero. -/
def zeroPages (node : ℕ → ℕ → ℕ) (a n : ℕ) : ℕ → ℕ → ℕ :=
  fun page i => if a ≤ page ∧ page < a + n then 0 else node page i

/-- `pmfs_new_block`. -/
def newBlock (d : Dev) (btype : BlkType) (zero : Bool) : Except Errno ℕ × Dev :=
  let r := pmfsNewBlock d.ba btype (d.slab.headD true)
  let d := { d with ba := r.2, slab := d.slab.tail }
  match r.1 with
  | .error e => (.error e, d)
  | .ok b =>
    (.ok b, if zero then { d with node := zeroPages d.node b (pmfsGetNumblocks btype) } else d)

/-- `__pmfs_free_block`. -/
def freeBlockHint (d : Dev) (blocknr : ℕ) (btype : BlkType) (hint : Option ℕ) :
    Option (Dev × Option ℕ) :=
  (__pmfsFreeBlock d.ba blocknr btype (d.slab.headD true) hint).map fun r =>
    ({ d with ba := r.1, slab := d.slab.tail }, r.2)

/-- `pmfs_free_block`. -/
def freeBlock (d : Dev) (blocknr : ℕ) (btype : BlkType) : Option Dev :=
  (d.freeBlockHint blocknr btype none).map Prod.fst

/-- `node[i] = v` in the metadata block of a page. -/
def setSlot (d : Dev) (page i v : ℕ) : Dev :=
  { d with
    node := fun p j => if p = page ∧ j = i then v else d.node p j
    events := .store page i :: d.events }

/-- `memset(&node[start], 0, ...)` up to the slot `last`. -/
def zeroSlots (d : Dev) (page start last : ℕ) : Dev :=
  { d with node := fun p j => if p = page ∧ start ≤ j ∧ j ≤ last then 0 else d.node p j }

/-- The call of `pmfs_add_logentry` for `count` slots. -/
def logSlots (d : Dev) (page slot count : ℕ) : Dev :=
  { d with events := .log page slot count :: d.events }

/-- No block was left for metadata. -/
def noteNoMeta (d : Dev) : Dev := { d with events := .noMeta :: d.events }

/-- How often no block was left for metadata. -/
def failures (d : Dev) : ℕ := d.events.count .noMeta

end Dev

/-! ### Lookup -/

/-- The loop of `__pmfs_find_data_block`; a slot beyond the metadata block is not read. -/
def findLoop (node : ℕ → ℕ → ℕ) : ℕ → ℕ → ℕ → Option ℕ
  | 0, bp, _ => some bp
  | h + 1, bp, blocknr =>
    let bitShift := h * 9
    if bp = 0 ∨ blocknr >>> bitShift ≥ 512 then none
    else
      let bp' := node (pmfsGetBlocknr bp) (blocknr >>> bitShift)
      if bp' = 0 then some 0 else findLoop node h bp' (blocknr &&& (1 <<< bitShift) - 1)

/-- The loop of `__pmfs_find_data_block`, with a slot number of 32 bits: `pmfs_clear_edge_blk` calls
it without a check, so that a block number beyond the tree can come back into it. -/
def findLoop32 (node : ℕ → ℕ → ℕ) : ℕ → ℕ → ℕ → Option ℕ
  | 0, bp, _ => some bp
  | h + 1, bp, blocknr =>
    let bitShift := h * 9
    let idx := blocknr >>> bitShift % 2 ^ 32
    if bp = 0 ∨ idx ≥ 512 then none
    else
      let bp' := node (pmfsGetBlocknr bp) idx
      if bp' = 0 then some 0 else findLoop32 node h bp' (blocknr &&& (1 <<< bitShift) - 1)

/-- `__pmfs_find_data_block`. -/
def __pmfsFindDataBlock (d : Dev) (pi : PmfsInode) (blocknr : ℕ) : Option ℕ :=
  findLoop d.node pi.height pi.root blocknr

/-- `pmfs_find_data_block`, for a 4K block of the file. -/
def pmfsFindDataBlock (d : Dev) (pi : PmfsInode) (fileBlocknr : ℕ) : Option ℕ :=
  let blkShift := pmfsInodeBlkShift pi - 12
  let blkOffset := fileBlocknr &&& (1 <<< blkShift) - 1
  let blocknr := fileBlocknr >>> blkShift
  if blocknr ≥ 1 <<< (pi.height * 9) then some 0
  else (__pmfsFindDataBlock d pi blocknr).map fun bp => if bp = 0 then 0 else bp + blkOffset <<< 12

/-! ### Truncation -/

/-- `is_empty_meta_block`. -/
def isEmptyMetaBlock (node : ℕ → ℕ) (startIdx endIdx : ℕ) : Bool :=
  ((List.range startIdx).all fun i => node i == 0) &&
    (List.range' (endIdx + 1) (511 - endIdx)).all fun i => node i == 0

/-- The first block of the range inside the child at slot `i`. -/
def firstBlk (nodeBits first i : ℕ) : ℕ :=
  if i = first >>> nodeBits then first &&& (1 <<< nodeBits) - 1 else 0

/-- The last block of the range inside the child at slot `i`. -/
def lastBlk (nodeBits last i : ℕ) : ℕ :=
  if i = last >>> nodeBits then last &&& (1 <<< nodeBits) - 1 else 1 <<< nodeBits - 1

/-- The local variables of `recursive_truncate_blocks`. -/
structure TruncLoop where
  d : Dev
  hint : Option ℕ
  freed : ℕ
  start : ℕ
  last : ℕ
  allRangeFreed : Bool

/-- The loop of `recursive_truncate_blocks` at height 1: one data block. -/
def truncLeafBody (btype : BlkType) (page i : ℕ) (s : TruncLoop) :
    Option (TruncLoop × Option Errno) :=
  let v := s.d.node page i
  if v = 0 then some (s, none)
  else (s.d.freeBlockHint (pmfsGetBlocknr v) btype s.hint).map fun r =>
    ({ s with d := r.1, hint := r.2, freed := s.freed + 1 }, none)

/-- The loop of `recursive_truncate_blocks` above height 1: one child, truncated by `rec`. -/
def truncMetaBody (rec : ℕ → ℕ → ℕ → Dev → Option (Dev × ℕ × Bool)) (nodeBits first last page i : ℕ)
    (s : TruncLoop) : Option (TruncLoop × Option Errno) :=
  let v := s.d.node page i
  if v = 0 then some (s, none)
  else
    match rec v (firstBlk nodeBits first i) (lastBlk nodeBits last i) s.d with
    | none => none
    | some (d, freed, true) =>
      (d.freeBlock (pmfsGetBlocknr v) .b4K).map fun d =>
        ({ s with d := d, freed := s.freed + freed }, none)
    | some (d, freed, false) =>
      some ({ s with
        d := d
        freed := s.freed + freed
        start := if i = first >>> nodeBits then s.start + 1 else s.start
        last := if i ≠ first >>> nodeBits ∧ i = last >>> nodeBits then s.last - 1 else s.last
        allRangeFreed := false }, none)

/-- The end of `recursive_truncate_blocks`: the number of freed blocks and `*meta_empty`. -/
def truncFinish (page firstIndex lastIndex : ℕ) (s : TruncLoop) : Dev × ℕ × Bool :=
  if s.allRangeFreed && isEmptyMetaBlock (s.d.node page) firstIndex lastIndex then
    (s.d, s.freed, true)
  else if s.start ≤ s.last then
    (s.d.zeroSlots page s.start s.last, s.freed, false)
  else
    (s.d, s.freed, false)

/-- `recursive_truncate_blocks`. -/
def recursiveTruncateBlocks (btype : BlkType) : ℕ → ℕ → ℕ → ℕ → Dev → Option (Dev × ℕ × Bool)
  | 0, _, _, _, _ => none
  | h + 1, block, first, last, d =>
    if block = 0 then none
    else
      let page := pmfsGetBlocknr block
      let nodeBits := h * 9
      let firstIndex := first >>> nodeBits
      let lastIndex := last >>> nodeBits
      let body := if h = 0 then truncLeafBody btype page
        else truncMetaBody (recursiveTruncateBlocks btype h) nodeBits first last page
      (forLoop body firstIndex (lastIndex + 1 - firstIndex)
        ⟨d, none, 0, firstIndex, lastIndex, true⟩).map fun r =>
        truncFinish page firstIndex lastIndex r.1

/-- `pmfs_free_inode_subtree`. -/
def pmfsFreeInodeSubtree (d : Dev) (root height : ℕ) (btype : BlkType) (last : ℕ) :
    Option (Dev × ℕ) :=
  if root = 0 then some (d, 0)
  else if height = 0 then (d.freeBlock (pmfsGetBlocknr root) btype).map fun d => (d, 1)
  else
    match recursiveTruncateBlocks btype height root 0 last d with
    | some (d, freed, true) => (d.freeBlock (pmfsGetBlocknr root) .b4K).map fun d => (d, freed)
    | _ => none

/-- The number of shifts by `META_BLK_SHIFT` that take a word to zero; eight do for 64 bits. -/
def shiftsToZero : ℕ → ℕ → ℕ
  | 0, _ => 0
  | fuel + 1, n => if n > 0 then shiftsToZero fuel (n >>> 9) + 1 else 0

/-- The height of the smallest tree for a file of `size` bytes, `size > 0`. -/
def heightForSize (pi : PmfsInode) (size : ℕ) : ℕ :=
  shiftsToZero 8 ((size + pmfsInodeBlkSize pi - 1) >>> pmfsInodeBlkShift pi - 1)

/-- The loop of `pmfs_decrease_btree_height`: `n` levels of metadata are freed. -/
def decreaseLoop : ℕ → Dev → ℕ → Option (Dev × ℕ)
  | 0, d, newroot => some (d, newroot)
  | n + 1, d, newroot =>
    if newroot = 0 then none
    else
      let next := d.node (pmfsGetBlocknr newroot) 0
      match d.freeBlock (pmfsGetBlocknr newroot) .b4K with
      | none => none
      | some d => decreaseLoop n d next

/-- `pmfs_decrease_btree_height`. -/
def pmfsDecreaseBtreeHeight (d : Dev) (pi : PmfsInode) (newsize newroot : ℕ) :
    Option (Dev × PmfsInode) :=
  if pi.iBlocks = 0 ∨ newsize = 0 then
    if newroot ≠ 0 then none else some (d, { pi with height := 0, root := newroot })
  else
    let newHeight := heightForSize pi newsize
    if pi.height = newHeight then some (d, pi)
    else (decreaseLoop (pi.height - newHeight) d newroot).map fun r =>
      (r.1, { pi with height := newHeight, root := r.2 })

/-- `pmfs_inode_count_iblocks_recursive`. -/
def pmfsInodeCountIblocksRecursive (node : ℕ → ℕ → ℕ) : ℕ → ℕ → ℕ
  | 0, _ => 1
  | h + 1, block => ((List.range 512).map fun i =>
      let v := node (pmfsGetBlocknr block) i
      if v = 0 then 0 else pmfsInodeCountIblocksRecursive node h v).sum

/-- `pmfs_inode_count_iblocks`. -/
def pmfsInodeCountIblocks (d : Dev) (pi : PmfsInode) (root : ℕ) : ℕ :=
  if root = 0 then 0
  else pmfsInodeCountIblocksRecursive d.node pi.height root <<< (pmfsInodeBlkShift pi - 12)

/-- `pmfs_sparse_last_blocknr`. -/
def pmfsSparseLastBlocknr (height last : ℕ) : ℕ :=
  if last ≥ 1 <<< (height * 9) then 1 <<< (height * 9) - 1 else last

/-- `check_eof_blocks`. -/
def checkEofBlocks (pi : PmfsInode) (size : ℕ) : PmfsInode :=
  if pi.eofblocks ∧ size + 4096 > (pi.iBlocks <<< 12).toNat then
    { pi with iFlags := pi.iFlags &&& ~~~PMFS_EOFBLOCKS_FL }
  else pi

/-- The range of blocks that `__pmfs_truncate_blocks` frees, if it frees any. -/
def truncRange (pi : PmfsInode) (start stop : ℕ) : Option (ℕ × ℕ) :=
  let first := (start + 2 ^ pmfsInodeBlkShift pi - 1) >>> pmfsInodeBlkShift pi
  if pi.root = 0 then none
  else if pi.eofblocks then
    let last := 1 <<< (pi.height * 9) - 1
    if first > last then none else some (first, last)
  else if stop = 0 then none
  else
    let last := pmfsSparseLastBlocknr pi.height ((stop - 1) >>> pmfsInodeBlkShift pi)
    if first > last then none else some (first, last)

/-- The blocks of the range are freed: the new root and the number of freed data blocks. -/
def truncTree (d : Dev) (pi : PmfsInode) (first last : ℕ) : Option (Dev × ℕ × ℕ) :=
  if pi.height = 0 then (d.freeBlock (pmfsGetBlocknr pi.root) pi.iBlkType).map fun d => (d, 0, 1)
  else
    match recursiveTruncateBlocks pi.iBlkType pi.height pi.root first last d with
    | none => none
    | some (d, freed, true) =>
      (d.freeBlock (pmfsGetBlocknr pi.root) .b4K).map fun d => (d, 0, freed)
    | some (d, freed, false) => some (d, pi.root, freed)

/-- The new value of `inode->i_blocks`. The number of freed blocks is an `unsigned int`, in 4K
units, and during a mount the blocks are counted again. -/
def truncIblocks (d : Dev) (pi : PmfsInode) (iBlocks : UInt64) (root freed : ℕ) : UInt64 :=
  if d.mounting then UInt64.ofNat (pmfsInodeCountIblocks d pi root)
  else iBlocks - UInt64.ofNat (freed * 2 ^ (pmfsInodeBlkShift pi - 12) % 2 ^ 32)

/-- `__pmfs_truncate_blocks`, at the time `now`; the inode on the device has 32 bits for a time. -/
def __pmfsTruncateBlocks (d : Dev) (inode : Inode) (pi : PmfsInode) (start stop now : ℕ) :
    Option (Dev × Inode × PmfsInode) :=
  let inode := { inode with iMtime := now, iCtime := now }
  match truncRange pi start stop with
  | none => some (d, inode, { pi with iMtime := now % 2 ^ 32, iCtime := now % 2 ^ 32 })
  | some (first, last) =>
    match truncTree d pi first last with
    | none => none
    | some (d, root, freed) =>
      let inode := { inode with iBlocks := truncIblocks d pi inode.iBlocks root freed }
      let pi := { pi with iBlocks := inode.iBlocks, iMtime := now % 2 ^ 32, iCtime := now % 2 ^ 32 }
      (pmfsDecreaseBtreeHeight d pi start root).map fun r =>
        (r.1, inode, checkEofBlocks r.2 inode.iSize)

/-! ### Allocation -/

/-- `pmfs_new_data_block`. -/
def pmfsNewDataBlock (d : Dev) (pi : PmfsInode) (zero : Bool) : Except Errno ℕ × Dev × PmfsInode :=
  match d.newBlock pi.iBlkType zero with
  | (.error e, d) => (.error e, d, pi)
  | (.ok b, d) => (.ok b, d, { pi with
      iBlocks := pi.iBlocks + UInt64.ofNat (1 <<< (pmfsInodeBlkShift pi - 12)) })

/-- The loop of `pmfs_increase_btree_height`: `n` levels of metadata on top of the root. -/
def increaseLoop : ℕ → Dev → ℕ → ℕ → Dev × ℕ × ℕ × Option Errno
  | 0, d, height, root => (d, height, root, none)
  | n + 1, d, height, root =>
    match d.newBlock .b4K true with
    | (.error e, d) => (d.noteNoMeta, height, root, some e)
    | (.ok b, d) => increaseLoop n (d.setSlot b 0 root) (height + 1) (pmfsGetBlockOff b)

/-- `pmfs_increase_btree_height`. -/
def pmfsIncreaseBtreeHeight (d : Dev) (pi : PmfsInode) (newHeight : ℕ) :
    Dev × PmfsInode × Option Errno :=
  let r := increaseLoop (newHeight - pi.height) d pi.height pi.root
  (r.1, { pi with root := r.2.2.1, height := r.2.1 }, r.2.2.2)

/-- The local variables of `recursive_alloc_blocks`. -/
structure AllocLoop where
  d : Dev
  pi : PmfsInode
  newNode : Bool
  journalSaved : Bool

/-- The new block goes into its slot, after a call of `pmfs_add_logentry` for the rest of the range
if the metadata block is an old one and was not logged yet. -/
def AllocLoop.store (s : AllocLoop) (page i lastIndex blocknr : ℕ) : AllocLoop :=
  let log := !s.newNode && !s.journalSaved
  let d := if log then s.d.logSlots page i (lastIndex - i + 1) else s.d
  { s with
    d := d.setSlot page i (pmfsGetBlockOff blocknr)
    journalSaved := s.journalSaved || log }

/-- The loop of `recursive_alloc_blocks` at height 1: one data block. -/
def allocLeafBody (zero : Bool) (page lastIndex i : ℕ) (s : AllocLoop) :
    Option (AllocLoop × Option Errno) :=
  if s.d.node page i = 0 then
    match pmfsNewDataBlock s.d s.pi zero with
    | (.error e, d, pi) => some ({ s with d := d, pi := pi.setEofblocks }, some e)
    | (.ok b, d, pi) =>
      some (({ s with d := d, pi := pi } : AllocLoop).store page i lastIndex b, none)
  else some (s, none)

/-- The loop of `recursive_alloc_blocks` above height 1: one child, filled by `rec`. -/
def allocMetaBody (rec : ℕ → ℕ → ℕ → Bool → Dev → PmfsInode →
    Option (Dev × PmfsInode × Option Errno)) (nodeBits first last page i : ℕ) (s : AllocLoop) :
    Option (AllocLoop × Option Errno) :=
  let fill (s : AllocLoop) : Option (AllocLoop × Option Errno) :=
    (rec (s.d.node page i) (firstBlk nodeBits first i) (lastBlk nodeBits last i) s.newNode s.d
      s.pi).map fun r => ({ s with d := r.1, pi := r.2.1 }, r.2.2)
  if s.d.node page i = 0 then
    match s.d.newBlock .b4K true with
    | (.error e, d) => some ({ s with d := d.noteNoMeta }, some e)
    | (.ok b, d) =>
      fill
        { ({ s with d := d } : AllocLoop).store page i (last >>> nodeBits) b with newNode := true }
  else fill s

/-- `recursive_alloc_blocks`. -/
def recursiveAllocBlocks (zero : Bool) :
    ℕ → ℕ → ℕ → ℕ → Bool → Dev → PmfsInode → Option (Dev × PmfsInode × Option Errno)
  | 0, _, _, _, _, _, _ => none
  | h + 1, block, first, last, newNode, d, pi =>
    if block = 0 then none
    else
      let page := pmfsGetBlocknr block
      let nodeBits := h * 9
      let firstIndex := first >>> nodeBits
      let lastIndex := last >>> nodeBits
      let body := if h = 0 then allocLeafBody zero page lastIndex
        else allocMetaBody (recursiveAllocBlocks zero h) nodeBits first last page
      (forLoop body firstIndex (lastIndex + 1 - firstIndex) ⟨d, pi, newNode, false⟩).map fun r =>
        (r.1.d, r.1.pi, r.2)

/-- `file_blocknr + num - 1`, in machine words. -/
def lastFileBlock (fileBlocknr num : ℕ) : ℕ := (fileBlocknr + num + (2 ^ 64 - 1)) % 2 ^ 64

/-- `__pmfs_alloc_blocks` and `pmfs_alloc_block`: `new` gets the first block of an inode without a
tree, and `rec` is `recursive_alloc_blocks`. -/
def allocVia (new : Dev → PmfsInode → Except Errno ℕ × Dev × PmfsInode)
    (rec : ℕ → ℕ → ℕ → ℕ → Bool → Dev → PmfsInode → Option (Dev × PmfsInode × Option Errno))
    (d : Dev) (pi : PmfsInode) (fileBlocknr num : ℕ) : Option (Dev × PmfsInode × Option Errno) :=
  let blkShift := pmfsInodeBlkShift pi - 12
  let first := fileBlocknr >>> blkShift
  let last := lastFileBlock fileBlocknr num >>> blkShift
  let grow := last > 1 <<< (pi.height * 9) - 1
  let height := if grow then pi.height + shiftsToZero 8 (last >>> (pi.height * 9)) else pi.height
  if grow ∧ height > 3 then some (d, pi, some .ENOSPC)
  else if pi.root = 0 then
    if height = 0 then
      match new d pi with
      | (.error e, d, pi) => some (d, pi, some e)
      | (.ok b, d, pi) => some (d, { pi with root := pmfsGetBlockOff b, height := height }, none)
    else
      match pmfsIncreaseBtreeHeight d pi height with
      | (d, pi, some e) => some (d, pi, some e)
      | (d, pi, none) => rec pi.height pi.root first last true d pi
  else if height = 0 then some (d, pi, none)
  else if height > pi.height then
    match pmfsIncreaseBtreeHeight d pi height with
    | (d, pi, some e) => some (d, pi, some e)
    | (d, pi, none) => rec height pi.root first last false d pi
  else rec height pi.root first last false d pi

/-- `__pmfs_alloc_blocks`. -/
def __pmfsAllocBlocks (d : Dev) (pi : PmfsInode) (fileBlocknr num : ℕ) (zero : Bool) :
    Option (Dev × PmfsInode × Option Errno) :=
  allocVia (pmfsNewDataBlock · · zero) (recursiveAllocBlocks zero) d pi fileBlocknr num

/-- `pmfs_alloc_blocks`. -/
def pmfsAllocBlocks (d : Dev) (inode : Inode) (pi : PmfsInode) (fileBlocknr num : ℕ) (zero : Bool) :
    Option (Dev × Inode × PmfsInode × Option Errno) :=
  (__pmfsAllocBlocks d pi fileBlocknr num zero).map fun r =>
    (r.1, { inode with iBlocks := r.2.1.iBlocks }, r.2.1, r.2.2)

end Pmfs.Tree.Model
