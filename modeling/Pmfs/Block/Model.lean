import Pmfs.Lib.Intervals
import Mathlib.Data.UInt

/-! # The block allocator

The allocator of `balloc.c` keeps the blocks in use as a sorted list of `pmfs_blocknode`s and a
count of free blocks. A block number is a natural number, since all of them stay below `block_end ≤
2 ^ 52`; `num_free_blocks` is a machine word, since `pmfs_init_blockmap` may take it below zero.

`pmfs_alloc_blocknode` may fail, and does so in the runs where the argument `nodeOk` is `false`. A
`BUG_ON` and a pointer to a node that is no longer in the list end a function with `none`. -/

namespace Pmfs.Block.Model

open Lib.Intervals

/-- The block types `PMFS_BLOCK_TYPE_4K`, `PMFS_BLOCK_TYPE_2M` and `PMFS_BLOCK_TYPE_1G`. -/
inductive BlkType where
  | b4K
  | b2M
  | b1G
deriving DecidableEq, Repr

/-- The error numbers of the modelled functions. -/
inductive Errno where
  | EPERM
  | ENOENT
  | EIO
  | EAGAIN
  | ENOMEM
  | EEXIST
  | EINVAL
  | EFBIG
  | ENOSPC
  | EMLINK
  | ENAMETOOLONG
  | ENOTEMPTY
  | ESTALE
  | ENODATA
  | EFAULT
  | ENODEV
  | EOPNOTSUPP
  | EACCES
deriving DecidableEq, Repr

/-- The number of the root directory. -/
def PMFS_ROOT_INO : ℕ := 128

/-- The number of 4K blocks of one block of the type. -/
def pmfsGetNumblocks : BlkType → ℕ
  | .b4K => 1
  | .b2M => 512
  | .b1G => 0x40000

/-- The table `blk_type_to_shift`. -/
def blkTypeToShift : BlkType → ℕ
  | .b4K => 12
  | .b2M => 21
  | .b1G => 30

theorem numblocks_eq_two_pow (t : BlkType) : pmfsGetNumblocks t = 2 ^ (blkTypeToShift t - 12) := by
  cases t <;> rfl

theorem numblocks_pos (t : BlkType) : 0 < pmfsGetNumblocks t := by
  cases t <;> decide

/-- A node of the list of used blocks. -/
abbrev PmfsBlocknode := Lib.Intervals.Interval

/-- The part of `pmfs_sb_info` the allocator works on. -/
structure Balloc where
  blockStart : ℕ
  blockEnd : ℕ
  blockInuseHead : List PmfsBlocknode
  numFreeBlocks : UInt64
  numBlocknodeAllocated : ℕ
deriving DecidableEq, Repr

/-- The blocks that `pmfs_init_blockmap` marks used for a size in bytes. -/
def numUsedBlock (initUsedSize : ℕ) : ℕ := (initUsedSize + 4096 - 1) >>> 12

/-- `pmfs_init_blockmap`: the first blocks are in use, 100GB are taken off the count. -/
def pmfsInitBlockmap (s : Balloc) (initUsedSize : ℕ) : Balloc :=
  let used := numUsedBlock initUsedSize
  { s with
    blockInuseHead := ⟨s.blockStart, s.blockStart + used - 1⟩ :: s.blockInuseHead
    numFreeBlocks := s.numFreeBlocks - UInt64.ofNat used - 25 * 1024 * 1024
    numBlocknodeAllocated := s.numBlocknodeAllocated + 1 }

/-- The state in which `pmfs_init` calls `pmfs_init_blockmap` on a device of `blockEnd` blocks. -/
def Balloc.fresh (blockEnd : ℕ) : Balloc where
  blockStart := 0
  blockEnd := blockEnd
  blockInuseHead := []
  numFreeBlocks := UInt64.ofNat blockEnd
  numBlocknodeAllocated := 0

/-! ### Allocation -/

/-- `x & ~(n - 1)` for a power of two `n`. -/
def alignDown (n x : ℕ) : ℕ := x / n * n

/-- Where the gap behind a node ends: at the next node, or at the end of the device. -/
def nextBlockLow (blockEnd : ℕ) : List PmfsBlocknode → ℕ
  | [] => blockEnd
  | next :: _ => next.low

/-- The search loop of `pmfs_new_block`, on the nodes from `i` on: the new list, the new value of
`num_blocknode_allocated` and `new_block_low`. The answer `none` is `found == 0`. -/
def newBlockLoop (numBlocks blockEnd : ℕ) (nodeOk : Bool) (allocated : ℕ) :
    List PmfsBlocknode → Option (List PmfsBlocknode × ℕ × ℕ)
  | [] => none
  | i :: rest =>
    let nextLow := nextBlockLow blockEnd rest
    let newLow := alignDown numBlocks (i.high + numBlocks)
    let newHigh := newLow + numBlocks - 1
    let skip := (newBlockLoop numBlocks blockEnd nodeOk allocated rest).map
      fun (l, c, low) => (i :: l, c, low)
    if newHigh ≥ nextLow then
      skip
    else if newLow = i.high + 1 ∧ newHigh = nextLow - 1 then
      -- fills the gap completely
      match rest with
      | next :: rest' => some ({ i with high := next.high } :: rest', allocated - 1, newLow)
      | [] => some ([{ i with high := newHigh }], allocated, newLow)
    else if newLow = i.high + 1 ∧ newHigh < nextLow - 1 then
      -- aligns to the left
      some ({ i with high := newHigh } :: rest, allocated, newLow)
    else if newLow > i.high + 1 ∧ newHigh = nextLow - 1 then
      -- aligns to the right
      match rest with
      | next :: rest' => some (i :: { next with low := newLow } :: rest', allocated, newLow)
      | [] => if nodeOk then some ([i, ⟨newLow, newHigh⟩], allocated + 1, newLow) else none
    else if newLow > i.high + 1 ∧ newHigh < nextLow - 1 then
      -- aligns somewhere in the middle
      if nodeOk then some (i :: ⟨newLow, newHigh⟩ :: rest, allocated + 1, newLow) else none
    else
      skip

/-- `pmfs_new_block`: the number of the first block of the new run, or `-ENOSPC`. The zeroing of the
block is left to the callers, which own its contents. -/
def pmfsNewBlock (s : Balloc) (btype : BlkType) (nodeOk : Bool) : Except Errno ℕ × Balloc :=
  let numBlocks := pmfsGetNumblocks btype
  match newBlockLoop numBlocks s.blockEnd nodeOk s.numBlocknodeAllocated s.blockInuseHead with
  | none => (.error .ENOSPC, s)
  | some (l, c, newLow) =>
    (.ok newLow,
      { s with
        blockInuseHead := l
        numFreeBlocks := s.numFreeBlocks - UInt64.ofNat numBlocks
        numBlocknodeAllocated := c })

/-! ### Freeing -/

/-- What the search loop of `__pmfs_free_block` leaves: the list, `num_blocknode_allocated`, whether
`num_free_blocks` was raised, and the value stored in `*start_hint`, if one was. A hint is the
position of a node in the list. -/
structure FreeLoop where
  inuse : List PmfsBlocknode
  allocated : ℕ
  freed : Bool
  hint : Option (Option ℕ)
deriving DecidableEq, Repr

/-- The same outcome with one more node in front. -/
def FreeLoop.cons (i : PmfsBlocknode) (r : FreeLoop) : FreeLoop := { r with inuse := i :: r.inuse }

/-- `pmfs_next_blocknode` of the node at `pos - 1`, when `rest` follows it. -/
def pmfsNextBlocknode (rest : List PmfsBlocknode) (pos : ℕ) : Option ℕ :=
  if rest.isEmpty then none else some pos

/-- The search loop of `__pmfs_free_block` on the nodes from position `pos` on. -/
def freeBlockLoop (newLow newHigh : ℕ) (nodeOk : Bool) (allocated : ℕ) :
    ℕ → List PmfsBlocknode → FreeLoop
  | _, [] => ⟨[], allocated, false, none⟩
  | pos, i :: rest =>
    if newLow > i.high then
      (freeBlockLoop newLow newHigh nodeOk allocated (pos + 1) rest).cons i
    else if newLow = i.low ∧ newHigh = i.high then
      -- fits entire datablock
      ⟨rest, allocated - 1, true, some (pmfsNextBlocknode rest pos)⟩
    else if newLow = i.low ∧ newHigh < i.high then
      -- aligns left
      ⟨{ i with low := newHigh + 1 } :: rest, allocated, true, some (some pos)⟩
    else if newLow > i.low ∧ newHigh = i.high then
      -- aligns right
      ⟨{ i with high := newLow - 1 } :: rest, allocated, true,
        some (pmfsNextBlocknode rest (pos + 1))⟩
    else if newLow > i.low ∧ newHigh < i.high then
      -- aligns somewhere in the middle
      if nodeOk then
        ⟨{ i with high := newLow - 1 } :: ⟨newHigh + 1, i.high⟩ :: rest, allocated + 1, true,
          some (some (pos + 1))⟩
      else
        ⟨i :: rest, allocated, false, none⟩
    else
      (freeBlockLoop newLow newHigh nodeOk allocated (pos + 1) rest).cons i

/-- The position of the node at which `__pmfs_free_block` starts its search. -/
def startNode (l : List PmfsBlocknode) (newLow : ℕ) : Option ℕ → Option ℕ
  | none => some 0
  | some h => l[h]?.map fun i => if newLow ≥ i.low then h else 0

/-- The allocator once the loop of `__pmfs_free_block` has run on the nodes from `start` on. -/
def Balloc.afterFree (s : Balloc) (btype : BlkType) (start : ℕ) (r : FreeLoop) : Balloc :=
  { s with
    blockInuseHead := s.blockInuseHead.take start ++ r.inuse
    numFreeBlocks := s.numFreeBlocks + UInt64.ofNat (if r.freed then pmfsGetNumblocks btype else 0)
    numBlocknodeAllocated := r.allocated }

/-- `__pmfs_free_block`, with the hint after the call. The answer `none` is the `BUG_ON` of an empty
list, or a hint that points to no node of the list. -/
def __pmfsFreeBlock (s : Balloc) (blocknr : ℕ) (btype : BlkType) (nodeOk : Bool)
    (startHint : Option ℕ) : Option (Balloc × Option ℕ) :=
  if s.blockInuseHead.isEmpty then
    none
  else
    (startNode s.blockInuseHead blocknr startHint).map fun start =>
      let r := freeBlockLoop blocknr (blocknr + pmfsGetNumblocks btype - 1) nodeOk
        s.numBlocknodeAllocated start (s.blockInuseHead.drop start)
      (s.afterFree btype start r, r.hint.getD startHint)

/-- `pmfs_free_block`. -/
def pmfsFreeBlock (s : Balloc) (blocknr : ℕ) (btype : BlkType) (nodeOk : Bool) : Option Balloc :=
  (__pmfsFreeBlock s blocknr btype nodeOk none).map Prod.fst

end Pmfs.Block.Model
