import Pmfs.Tree.Model
import Mathlib.Logic.Function.Basic

/-! # Saving and rebuilding the block map

The list of used blocks lives in memory (`bbuild.c`). A clean unmount writes it into the blocks of
the inode `PMFS_BLOCKNODE_IN0`, 256 nodes a block; the next mount reads it back and frees these
blocks again. When there is no saved list, the mount walks the inode table and the trees of all
inodes, notes the blocks it meets in three bitmaps, one per block size, and inserts the runs of ones
into the list.

The blocks of the list are written as words of the same heap as the metadata blocks. An inode is
given by its byte offset; `in0` is the offset at which `pmfs_get_inode` finds `PMFS_BLOCKNODE_IN0`,
which does not move since the inode table never shrinks. Whether a transaction can be opened and
whether `kzalloc` finds memory are arguments. As before, `none` is the use of a null pointer or of
memory out of bounds. -/

namespace Pmfs.Mount.Model

open Lib.Loop Block.Model Tree.Model Function

/-- The inode counters, in `pmfs_sb_info` and in the super block. -/
structure InodeCounters where
  sInodesCount : UInt32
  sFreeInodesCount : UInt32
  sInodesUsedCount : UInt32
  sFreeInodeHint : UInt32
deriving DecidableEq, Repr

/-- The fields of `struct pmfs_super_block` for a fast mount. -/
structure PmfsSuperBlock where
  sNumBlocknodeAllocated : ℕ
  sNumFreeBlocks : UInt64
  inodes : InodeCounters
deriving DecidableEq, Repr

/-- A file system: the device with its allocator, the inode of the inode table and the inodes in it,
the counters in memory and the super block. -/
structure Sb where
  d : Dev
  table : PmfsInode
  inode : ℕ → PmfsInode
  in0 : ℕ
  counters : InodeCounters
  super : PmfsSuperBlock

/-- `PMFS_BLOCKNODE_IN0`. -/
def PMFS_BLOCKNODE_IN0 : ℕ := 256

/-- `in0` is what `pmfs_get_inode` finds for `PMFS_BLOCKNODE_IN0`. -/
def Sb.FindsIn0 (sb : Sb) : Prop :=
  (__pmfsFindDataBlock sb.d sb.table (PMFS_BLOCKNODE_IN0 >>> pmfsInodeBlkShift sb.table)).map
    (· + PMFS_BLOCKNODE_IN0 % pmfsInodeBlkSize sb.table) = some sb.in0

instance (sb : Sb) : Decidable sb.FindsIn0 := inferInstanceAs (Decidable (_ = _))

/-- The inode `PMFS_BLOCKNODE_IN0`. -/
def Sb.pi (sb : Sb) : PmfsInode := sb.inode sb.in0

/-- A write to the inode `PMFS_BLOCKNODE_IN0`. -/
def Sb.setPi (sb : Sb) (pi : PmfsInode) : Sb :=
  { sb with inode := update sb.inode sb.in0 pi }

/-- `x - 1`, in machine words. -/
def pred64 (x : ℕ) : ℕ := (x + (2 ^ 64 - 1)) % 2 ^ 64

/-- A word of a block that holds part of the list. -/
def setWord (d : Dev) (page i v : ℕ) : Dev :=
  { d with node := fun p j => if p = page ∧ j = i then v else d.node p j }

/-- `pmfs_get_block` of `__pmfs_find_data_block`: the page of the block, `none` for a null pointer.
-/
def dataPage (d : Dev) (pi : PmfsInode) (blocknr : ℕ) : Option ℕ :=
  match __pmfsFindDataBlock d pi blocknr with
  | none => none
  | some bp => if bp = 0 then none else some (pmfsGetBlocknr bp)

/-- `pmfs_clear_datablock_inode`: the first 48 bytes of the inode become zero. -/
def pmfsClearDatablockInode (pi : PmfsInode) (transOk : Bool) : PmfsInode :=
  if transOk then
    { pi with
      height := 0
      iBlkType := .b4K
      iFlags := 0
      root := 0
      iSize := 0
      iCtime := 0
      iMtime := 0
      iDtime := 0
      iMode := 0
      iLinksCount := 0
      iBlocks := 0 }
  else pi

/-! ### Unmount -/

/-- `num_blocks` of `pmfs_save_blocknode_mappings`: 16 bytes a node. -/
def mapBlocks (numBlocknodeAllocated : ℕ) : ℕ := (pred64 (numBlocknodeAllocated * 16)) >>> 12 + 1

/-- `pmfs_allocate_datablock_block_inode`. -/
def pmfsAllocateDatablockBlockInode (d : Dev) (pi : PmfsInode) (numBlocks : ℕ) :
    Option (Dev × PmfsInode × Option Errno) :=
  __pmfsAllocBlocks d { pi with
    iMode := 0
    iLinksCount := 1
    iBlkType := .b4K
    iFlags := 0
    height := 0
    iDtime := 0
    iSize := (numBlocks <<< 12) % 2 ^ 64 } 0 numBlocks false

/-- The local variables of the loop that writes the list; `p` is the page of the block. -/
structure SaveLoop where
  d : Dev
  j : ℕ
  k : ℕ
  p : ℕ

/-- One node of the list is written. -/
def saveNode (pi : PmfsInode) (s : SaveLoop) (i : PmfsBlocknode) : Option SaveLoop :=
  (if s.j = 0 then dataPage s.d pi (s.k >>> 8) else some s.p).map fun p =>
    { d := setWord (setWord s.d p (2 * s.j) i.low) p (2 * s.j + 1) i.high
      j := if s.j + 1 = 256 then 0 else s.j + 1
      k := s.k + 1
      p := p }

/-- `pmfs_save_blocknode_mappings`, and whether it reaches its commit. When it does not, nothing has
been logged and the abort restores nothing. -/
def pmfsSaveBlocknodeMappings (sb : Sb) (transOk : Bool) : Option (Sb × Bool) :=
  if transOk then
    match pmfsAllocateDatablockBlockInode sb.d sb.pi (mapBlocks sb.d.ba.numBlocknodeAllocated) with
    | none => none
    | some (d, pi, some _) => some ({ sb.setPi pi with d := d }, false)
    | some (d, pi, none) =>
      (d.ba.blockInuseHead.foldlM (saveNode pi) ⟨d, 0, 0, 0⟩).map fun s =>
        ({ sb.setPi pi with
          d := s.d
          super := {
            sNumBlocknodeAllocated := d.ba.numBlocknodeAllocated
            sNumFreeBlocks := d.ba.numFreeBlocks
            inodes := sb.counters } }, true)
  else some (sb, false)

/-! ### Mount with a saved list -/

/-- The local variables of `pmfs_init_blockmap_from_inode`. -/
structure LoadLoop where
  d : Dev
  p : ℕ

/-- `list_add_tail` of a new blocknode. -/
def addTail (d : Dev) (i : PmfsBlocknode) : Dev :=
  { d with
    slab := d.slab.tail
    ba := { d.ba with
      blockInuseHead := d.ba.blockInuseHead ++ [i]
      numBlocknodeAllocated := d.ba.numBlocknodeAllocated + 1 } }

/-- One node of the list is read. -/
def loadNode (pi : PmfsInode) (i : ℕ) (s : LoadLoop) : Option (LoadLoop × Option Errno) :=
  let index := i &&& 0xFF
  match if index = 0 then dataPage s.d pi (i >>> 8) else some s.p with
  | none => none
  | some p =>
    if s.d.slab.headD true then
      some (⟨addTail s.d ⟨s.d.node p (2 * index), s.d.node p (2 * index + 1)⟩, p⟩, none)
    else none

/-- `pmfs_init_blockmap_from_inode`. -/
def pmfsInitBlockmapFromInode (d : Dev) (pi : PmfsInode) : Option Dev :=
  (forLoop (loadNode pi) 0 d.ba.numBlocknodeAllocated
    ⟨{ d with ba := { d.ba with numBlocknodeAllocated := 0 } }, 0⟩).map fun r => r.1.d

/-- `pmfs_can_skip_full_scan`. -/
def pmfsCanSkipFullScan (sb : Sb) (transOk : Bool) : Option (Sb × Bool) :=
  if sb.pi.root = 0 then some (sb, false)
  else
    let ba := { sb.d.ba with
      numBlocknodeAllocated := sb.super.sNumBlocknodeAllocated
      numFreeBlocks := sb.super.sNumFreeBlocks }
    match pmfsInitBlockmapFromInode { sb.d with ba := ba } sb.pi with
    | none => none
    | some d =>
      let lastBlocknr := (pred64 sb.pi.iSize) >>> pmfsInodeBlkShift sb.pi
      (pmfsFreeInodeSubtree d sb.pi.root sb.pi.height sb.pi.iBlkType lastBlocknr).map fun r =>
        ({ sb.setPi (pmfsClearDatablockInode sb.pi transOk) with
          d := r.1
          counters := sb.super.inodes }, true)

/-! ### The walk over the inodes -/

/-- A bitmap of `size` bytes. -/
structure Bitmap where
  size : ℕ
  bit : ℕ → Bool

/-- `kzalloc`. -/
def Bitmap.zero (size : ℕ) : Bitmap := ⟨size, fun _ => false⟩

/-- `set_bit`; `none` is a write behind the bitmap. -/
def Bitmap.setBit (b : Bitmap) (n : ℕ) : Option Bitmap :=
  if n < b.size * 8 then some { b with bit := update b.bit n true } else none

/-- `struct scan_bitmap`. -/
structure ScanBitmap where
  bitmap4k : Bitmap
  bitmap2M : Bitmap
  bitmap1G : Bitmap

namespace ScanBitmap

/-- The bit of a block of the type at a byte offset is set. -/
def set (bm : ScanBitmap) (btype : BlkType) (block : ℕ) : Option ScanBitmap :=
  match btype with
  | .b4K => (bm.bitmap4k.setBit (block >>> 12)).map fun b => { bm with bitmap4k := b }
  | .b2M => (bm.bitmap2M.setBit (block >>> 21)).map fun b => { bm with bitmap2M := b }
  | .b1G => (bm.bitmap1G.setBit (block >>> 30)).map fun b => { bm with bitmap1G := b }

end ScanBitmap

/-- The loop of the two crawls over the slots of a metadata block, with the recursive call `rec`. -/
def crawlSlot {σ : Type} (node : ℕ → ℕ) (rec : ℕ → σ → Option σ) (i : ℕ) (s : σ) :
    Option (σ × Option Errno) :=
  if node i = 0 then some (s, none) else (rec (node i) s).map fun s => (s, none)

/-- `pmfs_inode_crawl_recursive`. -/
def pmfsInodeCrawlRecursive (node : ℕ → ℕ → ℕ) (btype : BlkType) :
    ℕ → ℕ → ScanBitmap → Option ScanBitmap
  | 0, block, bm => bm.set btype block
  | h + 1, block, bm =>
    match bm.set .b4K block with
    | none => none
    | some bm => (forLoop (crawlSlot (node (pmfsGetBlocknr block))
        (pmfsInodeCrawlRecursive node btype h)) 0 512 bm).map Prod.fst

/-- `pmfs_inode_crawl`. -/
def pmfsInodeCrawl (node : ℕ → ℕ → ℕ) (bm : ScanBitmap) (pi : PmfsInode) : Option ScanBitmap :=
  if pi.root = 0 then some bm
  else pmfsInodeCrawlRecursive node pi.iBlkType pi.height pi.root bm

/-- What `pmfs_inode_table_crawl_recursive` works on. -/
structure Crawl where
  bm : ScanBitmap
  sInodesCount : UInt32
  sInodesUsedCount : UInt32

/-- An empty inode, which the walk passes over. -/
def emptyInode (pi : PmfsInode) : Bool :=
  pi.iLinksCount == 0 && (pi.iMode == 0 || pi.iDtime != 0)

/-- One inode of a block of the inode table. -/
def crawlInode (node : ℕ → ℕ → ℕ) (inode : ℕ → PmfsInode) (block i : ℕ) (s : Crawl) :
    Option (Crawl × Option Errno) :=
  let pi := inode (block + 128 * i)
  if emptyInode pi then some (s, none)
  else (pmfsInodeCrawl node s.bm pi).map fun bm =>
    ({ s with bm := bm, sInodesUsedCount := s.sInodesUsedCount + 1 }, none)

/-- `pmfs_inode_table_crawl_recursive`. A block of the table that is not a 2M block is taken for a
4K block. -/
def pmfsInodeTableCrawlRecursive (node : ℕ → ℕ → ℕ) (inode : ℕ → PmfsInode) (btype : BlkType) :
    ℕ → ℕ → Crawl → Option Crawl
  | 0, block, s =>
    match s.bm.set (if btype = .b2M then .b2M else .b4K) block with
    | none => none
    | some bm => (forLoop (crawlInode node inode block) 0 (inodesPerBlock btype)
        { s with
          bm := bm
          sInodesCount := s.sInodesCount + UInt32.ofNat (inodesPerBlock btype) }).map Prod.fst
  | h + 1, block, s =>
    match s.bm.set .b4K block with
    | none => none
    | some bm => (forLoop (crawlSlot (node (pmfsGetBlocknr block))
        (pmfsInodeTableCrawlRecursive node inode btype h)) 0 512 { s with bm := bm }).map Prod.fst

/-! ### From the bitmaps to the list -/

/-- The search loop of `pmfs_alloc_insert_blocknode_map`: the new list and
`num_blocknode_allocated`. The answer `none` is `found == 0`. -/
def insertLoop (newLow newHigh blockEnd : ℕ) (nodeOk : Bool) (allocated : ℕ) :
    List PmfsBlocknode → Option (List PmfsBlocknode × ℕ)
  | [] => none
  | i :: rest =>
    let nextLow := nextBlockLow blockEnd rest
    let skip :=
      (insertLoop newLow newHigh blockEnd nodeOk allocated rest).map fun (l, c) => (i :: l, c)
    if newHigh ≥ nextLow then
      skip
    else if newLow = i.high + 1 ∧ newHigh = nextLow - 1 then
      -- fills the gap completely
      match rest with
      | next :: rest' => some ({ i with high := next.high } :: rest', allocated - 1)
      | [] => some ([{ i with high := newHigh }], allocated)
    else if newLow = i.high + 1 ∧ newHigh < nextLow - 1 then
      -- aligns to the left
      some ({ i with high := newHigh } :: rest, allocated)
    else if newLow > i.high + 1 ∧ newHigh = nextLow - 1 then
      -- aligns to the right
      match rest with
      | next :: rest' => some (i :: { next with low := newLow } :: rest', allocated)
      | [] => if nodeOk then some ([i, ⟨newLow, newHigh⟩], allocated + 1) else none
    else if newLow > i.high + 1 ∧ newHigh < nextLow - 1 then
      -- aligns somewhere in the middle
      if nodeOk then some (i :: ⟨newLow, newHigh⟩ :: rest, allocated + 1) else none
    else
      skip

/-- `pmfs_alloc_insert_blocknode_map`. -/
def pmfsAllocInsertBlocknodeMap (d : Dev) (low high : ℕ) : Dev × Option Errno :=
  match insertLoop low high d.ba.blockEnd (d.slab.headD true) d.ba.numBlocknodeAllocated
      d.ba.blockInuseHead with
  | none => ({ d with slab := d.slab.tail }, some .ENOSPC)
  | some (l, c) =>
    ({ d with
      slab := d.slab.tail
      ba := { d.ba with
        blockInuseHead := l
        numFreeBlocks := d.ba.numFreeBlocks - UInt64.ofNat (high - low + 1)
        numBlocknodeAllocated := c } }, none)

/-- The first of the `n` numbers from `i` on whose bit is set, or the number after them. -/
def findFrom (bit : ℕ → Bool) : ℕ → ℕ → ℕ
  | 0, i => i
  | n + 1, i => if bit i then i else findFrom bit n (i + 1)

/-- `find_next_bit`. -/
def findNextBit (bit : ℕ → Bool) (size offset : ℕ) : ℕ :=
  if offset ≥ size then size else findFrom bit (size - offset) offset

/-- `find_next_zero_bit`. -/
def findNextZeroBit (bit : ℕ → Bool) (size offset : ℕ) : ℕ :=
  findNextBit (fun i => !bit i) size offset

/-- The loop of `__pmfs_build_blocknode_map`, with the runs it could not insert. Each turn passes a
bit at least, so `bsize` turns do. -/
def buildLoop (bit : ℕ → Bool) (bsize scale : ℕ) : ℕ → ℕ → Dev → List (ℕ × ℕ) →
    Option (Dev × List (ℕ × ℕ))
  | 0, _, _, _ => none
  | fuel + 1, next, d, failed =>
    let low := findNextBit bit bsize next
    if low = bsize then some (d, failed)
    else
      let next := findNextZeroBit bit bsize low
      let r := pmfsAllocInsertBlocknodeMap d (low <<< scale) (next <<< scale - 1)
      let failed := if r.2.isSome then (low <<< scale, next <<< scale - 1) :: failed else failed
      if next = bsize then some (r.1, failed) else buildLoop bit bsize scale fuel next r.1 failed

/-- `__pmfs_build_blocknode_map`. -/
def __pmfsBuildBlocknodeMap (b : Bitmap) (scale : ℕ) (d : Dev) (failed : List (ℕ × ℕ)) :
    Option (Dev × List (ℕ × ℕ)) :=
  buildLoop b.bit (b.size * 8) scale (b.size * 8 + 1) 1 d failed

/-- `pmfs_build_blocknode_map`. -/
def pmfsBuildBlocknodeMap (d : Dev) (bm : ScanBitmap) : Option (Dev × List (ℕ × ℕ)) :=
  match __pmfsBuildBlocknodeMap bm.bitmap4k 0 d [] with
  | none => none
  | some (d, failed) =>
    match __pmfsBuildBlocknodeMap bm.bitmap2M 9 d failed with
    | none => none
    | some (d, failed) => __pmfsBuildBlocknodeMap bm.bitmap1G 18 d failed

/-! ### Mount -/

/-- The bitmaps for a device of `initsize` bytes. -/
def newBitmaps (initsize : ℕ) : ScanBitmap where
  bitmap4k := .zero (initsize >>> (12 + 3) + 1)
  bitmap2M := .zero (initsize >>> (21 + 3) + 1)
  bitmap1G := .zero (initsize >>> (30 + 3) + 1)

/-- The full scan of `pmfs_setup_blocknode_map`, with the runs it could not insert; `journalEnd` is
`journal->base + jsize`. -/
def fullScan (sb : Sb) (initsize journalEnd : ℕ) (transOk : Bool) : Option (Sb × List (ℕ × ℕ)) :=
  let sb := sb.setPi (pmfsClearDatablockInode sb.pi transOk)
  match pmfsInodeTableCrawlRecursive sb.d.node sb.inode sb.table.iBlkType
    sb.table.height sb.table.root
      ⟨newBitmaps initsize, sb.counters.sInodesCount, sb.counters.sInodesUsedCount⟩ with
  | none => none
  | some s =>
    let counters : InodeCounters := {
      sInodesCount := s.sInodesCount
      sFreeInodesCount := s.sInodesCount - (s.sInodesUsedCount + 2)
      sInodesUsedCount := s.sInodesUsedCount
      sFreeInodeHint := 3 }
    let ba := { sb.d.ba with numFreeBlocks := UInt64.ofNat (initsize >>> 12) }
    if sb.d.slab.headD true then
      (pmfsBuildBlocknodeMap
        { sb.d with ba := pmfsInitBlockmap ba journalEnd, slab := sb.d.slab.tail }
        s.bm).map fun r => ({ sb with d := r.1, counters := counters }, r.2)
    else none

/-- `pmfs_setup_blocknode_map`. -/
def pmfsSetupBlocknodeMap (sb : Sb) (initsize journalEnd : ℕ) (transOk kzallocOk : Bool) :
    Option (Sb × List (ℕ × ℕ)) :=
  let sb := { sb with d := { sb.d with ba := { sb.d.ba with
    blockStart := 0
    blockEnd := initsize >>> 12 } } }
  match pmfsCanSkipFullScan sb transOk with
  | none => none
  | some (sb, true) => some (sb, [])
  | some (sb, false) => if kzallocOk then fullScan sb initsize journalEnd transOk else some (sb, [])

end Pmfs.Mount.Model
