import Pmfs.Inodes.Regular

/-! # Cache lines

What the file system passes to `clflush` or `clwb`: `pmfs_flush_buffer` (`pmfs_def.h`), the loop of
`pmfs_fsync` (`file.c`) over the pages of a mapped file, and `pmfs_flush_edge_cachelines` (`xip.c`)
after a copy with non-temporal stores. Addresses are byte offsets on the device, which is mapped at
a page boundary. -/

namespace Pmfs.Flush.Model

open Block.Model Tree.Model Inodes.Model Inodes.Regular

def CACHELINE_SIZE : ℕ := 64

/-- `CACHELINE_ALIGN`. -/
def cachelineAlign (addr : ℕ) : ℕ := (addr + CACHELINE_SIZE - 1) / CACHELINE_SIZE * CACHELINE_SIZE

/-- The cache line of an address. -/
def line (addr : ℕ) : ℕ := addr / CACHELINE_SIZE

/-- `pmfs_flush_buffer`: the addresses that it passes to `_mm_clwb`, or to `_mm_clflush`. The length
is a `uint32_t`. -/
def pmfsFlushBuffer (buf len : ℕ) : List ℕ :=
  let len := (len + buf % CACHELINE_SIZE) % 2 ^ 32
  (List.range ((len + CACHELINE_SIZE - 1) / CACHELINE_SIZE)).map fun i => buf + i * CACHELINE_SIZE

/-- The loop of `pmfs_fsync` up to `stop`, with the addresses flushed so far. -/
def fsyncLoop (d : Dev) (pi : PmfsInode) (stop : ℕ) : ℕ → ℕ → List ℕ → Option (List ℕ)
  | 0, _, _ => none
  | fuel + 1, start, flushed =>
    let offset := start % 4096
    let nrFlushBytes := min (4096 - offset) (stop - start)
    (pmfsFindDataBlock d pi (start >>> 12)).bind fun block =>
      if block ≠ 0 then
        let flushed := flushed ++ pmfsFlushBuffer (block + offset) nrFlushBytes
        if start + nrFlushBytes < stop then fsyncLoop d pi stop fuel (start + nrFlushBytes) flushed
        else some flushed
      else some flushed

/-- `pmfs_fsync` from `start` to `last`, on a file that is mapped into memory or not: the addresses
that it flushes. There are no more rounds than pages up to the end. -/
def pmfsFsync (f : File) (mappingMapped : Bool) (start last : ℕ) : Option (Except Errno (List ℕ)) :=
  if mappingMapped then
    let isize := f.inode.iSize
    let stop := if last + 1 > isize then isize else last + 1
    if isize = 0 ∨ start ≥ stop then some (.error .ENODATA)
    else (fsyncLoop f.d f.pi (cachelineAlign stop) (cachelineAlign stop / 4096 + 1)
      (start / CACHELINE_SIZE * CACHELINE_SIZE) []).map .ok
  else some (.ok [])

/-- `pmfs_flush_edge_cachelines`: the addresses that it flushes. -/
def pmfsFlushEdgeCachelines (pos len startAddr : ℕ) : List ℕ :=
  (if pos % 8 ≠ 0 then pmfsFlushBuffer startAddr 1 else []) ++
    if (pos + len) % 8 ≠ 0 ∧ pos % CACHELINE_SIZE ≠ (pos + len) % CACHELINE_SIZE then
      pmfsFlushBuffer (startAddr + len) 1
    else []

/-- `__copy_from_user_inatomic_nocache` writes the byte at a position of a copy with a cached store:
it is in an 8-byte word at an edge of the copy that is not copied as a whole. -/
def CachedStore (pos len x : ℕ) : Prop :=
  pos ≤ x ∧ x < pos + len ∧ (x / 8 * 8 < pos ∨ pos + len < x / 8 * 8 + 8)

end Pmfs.Flush.Model
