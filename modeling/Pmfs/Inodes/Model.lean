import Pmfs.Tree.Model

/-! # The inodes of the file system

`Fs` is the device with the inode table, the inodes on media and their VFS copies, by inode number.
An inode is active from `pmfs_new_inode` to `pmfs_free_inode`. The journal is left out here: a
transaction either can be opened, or `pmfs_new_transaction` fails with the error given. -/

namespace Pmfs.Inodes.Model

open Block.Model Tree.Model Function

/-- `S_ISREG`. -/
def sIsReg (mode : ℕ) : Bool := mode &&& 0o170000 = 0o100000

/-- `S_ISDIR`. -/
def sIsDir (mode : ℕ) : Bool := mode &&& 0o170000 = 0o040000

/-- `S_ISLNK`. -/
def sIsLnk (mode : ℕ) : Bool := mode &&& 0o170000 = 0o120000

/-- `pmfs_mask_flags`: `PMFS_FL_INHERITED`, without `FS_DIRSYNC_FL` for a regular file, and only
`FS_NODUMP_FL` and `FS_NOATIME_FL` for what is neither a directory nor one. -/
def pmfsMaskFlags (mode : ℕ) (flags : UInt32) : UInt32 :=
  let flags := flags &&& 0x1c6cf
  if sIsDir mode then flags
  else if sIsReg mode then flags &&& ~~~0x30000
  else flags &&& 0xc0

/-- The counters of `struct pmfs_sb_info` for inodes. -/
structure SbInfo where
  sInodesCount : UInt32
  sFreeInodesCount : UInt32
  sFreeInodeHint : UInt32

/-- The file system. -/
structure Fs where
  dev : Dev
  sbi : SbInfo
  inodeTable : PmfsInode
  pi : ℕ → PmfsInode
  inode : ℕ → Inode
  active : Finset ℕ

/-- The outcomes of the coming blocknode allocations. -/
def Fs.withSlab (fs : Fs) (slab : List Bool) : Fs := { fs with dev := { fs.dev with slab := slab } }

/-- The two copies of an inode change, and the device. -/
def Fs.setInode (fs : Fs) (nr : ℕ) (d : Dev) (inode : Inode) (pi : PmfsInode) : Fs :=
  { fs with
    dev := d
    pi := update fs.pi nr pi
    inode := update fs.inode nr inode }

/-- `pmfs_alloc_blocks`. -/
def Fs.allocBlocks (fs : Fs) (nr fileBlocknr num : ℕ) (zero : Bool) : Option (Fs × Option Errno) :=
  (pmfsAllocBlocks fs.dev (fs.inode nr) (fs.pi nr) fileBlocknr num zero).map fun r =>
    (fs.setInode nr r.1 r.2.1 r.2.2.1, r.2.2.2)

/-- `pmfs_truncate_blocks`. -/
def Fs.truncateBlocks (fs : Fs) (nr start stop now : ℕ) : Option Fs :=
  (__pmfsTruncateBlocks fs.dev (fs.inode nr) (fs.pi nr) start stop now).map fun r =>
    fs.setInode nr r.1 r.2.1 r.2.2

/-! ### The inode table -/

/-- `pmfs_increase_inode_table_size`. -/
def pmfsIncreaseInodeTableSize (fs : Fs) (trans : Option Errno) : Option (Fs × Option Errno) :=
  match trans with
  | some e => some (fs, some e)
  | none =>
    match __pmfsAllocBlocks fs.dev fs.inodeTable (fs.inodeTable.iSize >>> 12) 1 true with
    | none => none
    | some (d, pi, some e) => some ({ fs with dev := d, inodeTable := pi }, some e)
    | some (d, pi, none) =>
      let iSize := pi.iSize + pmfsInodeBlkSize pi
      some ({ fs with
        dev := d
        inodeTable := { pi with iSize := iSize }
        sbi :=
          { sFreeInodeHint := UInt32.ofNat (pi.iSize >>> 7)
            sFreeInodesCount :=
              fs.sbi.sFreeInodesCount + UInt32.ofNat (inodesPerBlock pi.iBlkType)
            sInodesCount := UInt32.ofNat (iSize >>> 7) } }, none)

/-- The inode of the inode table as `pmfs_init_inode_table` fills it in. -/
def initInodeTable (initsize numInodes : ℕ) : PmfsInode :=
  let size := if numInodes = 0 then (if initsize ≥ 0x20000000 then 0x200000 else 4096)
    else numInodes <<< 7
  let t := if size ≥ 0x200000 then BlkType.b2M else .b4K
  { height := 0, iBlkType := t, iFlags := 0, root := 0
    iSize := ((size + 2 ^ blkTypeToShift t - 1) >>> blkTypeToShift t) <<< blkTypeToShift t
    iCtime := 0, iMtime := 0, iDtime := 0, iMode := 0, iLinksCount := 1, iBlocks := 0, iUid := 0
    iGid := 0, iGeneration := 0, iAtime := 0, nvmblock := 0, blkoff := 0 }

/-- `pmfs_init_inode_table`. -/
def pmfsInitInodeTable (d : Dev) (initsize numInodes : ℕ) :
    Option (Dev × PmfsInode × SbInfo × Option Errno) :=
  let pi := initInodeTable initsize numInodes
  let count := UInt32.ofNat (pi.iSize >>> 7)
  (__pmfsAllocBlocks d pi 0 (pi.iSize >>> 12) true).map fun r =>
    (r.1, r.2.1, ⟨count, count - 3, 3⟩, r.2.2)

/-! ### The end of an inode -/

/-- `pmfs_free_inode`, at the time `now`. -/
def pmfsFreeInode (fs : Fs) (nr : ℕ) (trans : Option Errno) (now : ℕ) : Fs × Option Errno :=
  match trans with
  | some e => (fs, some e)
  | none =>
    let hint := if UInt32.ofNat nr < fs.sbi.sFreeInodeHint then UInt32.ofNat nr
      else fs.sbi.sFreeInodeHint
    let free := fs.sbi.sFreeInodesCount + 1
    ({ fs with
      pi := update fs.pi nr { fs.pi nr with root := 0, iSize := 0, iDtime := now % 2 ^ 32 }
      active := fs.active.erase nr
      sbi := { fs.sbi with
        sFreeInodesCount := free
        sFreeInodeHint := if free = fs.sbi.sInodesCount - 3 then 3 else hint } }, none)

/-- The last index of the tree that `pmfs_evict_inode` frees. -/
def evictLast (pi : PmfsInode) (inode : Inode) : ℕ :=
  if pi.eofblocks then 1 <<< (pi.height * 9) - 1
  else pmfsSparseLastBlocknr pi.height
    (if inode.iSize ≠ 0 then (inode.iSize - 1) >>> pmfsInodeBlkShift pi else 0)

/-- Whether `pmfs_evict_inode` frees the inode. -/
def evicts (inode : Inode) : Bool :=
  inode.iNlink == 0 && !inode.isBad &&
    (sIsReg inode.iMode || sIsDir inode.iMode || sIsLnk inode.iMode) &&
    !inode.isAppend && !inode.isImmutable

/-- `pmfs_evict_inode`. -/
def pmfsEvictInode (fs : Fs) (nr : ℕ) (trans : Option Errno) (now : ℕ) : Option Fs :=
  let pi := fs.pi nr
  let inode := fs.inode nr
  if evicts inode then
    match pmfsFreeInode fs nr trans now with
    | (fs, some _) => some fs
    | (fs, none) =>
      (pmfsFreeInodeSubtree fs.dev pi.root pi.height pi.iBlkType (evictLast pi inode)).map fun r =>
        { fs with
          dev := r.1
          inode := update fs.inode nr
            { inode with iMtime := now, iCtime := now, iSize := 0 } }
  else some fs

/-! ### Entries of a log -/

/-- The inode of an entry as `add_direntry` fills it in first, for a directory with the flags given.
-/
def resetInode (flags : UInt32) (pi : PmfsInode) : PmfsInode :=
  { pi with
    iBlkType := .b4K
    iFlags := pmfsMaskFlags 33188 flags
    iMode := 33188
    height := 0
    iDtime := 0
    iBlocks := 0
    nvmblock := 0
    blkoff := 0 }

/-- The inode of a directory as `kernelfs_add_dirent` fills it in, with its first block. -/
def dirInode (flags : UInt32) (b : ℕ) (pi : PmfsInode) : PmfsInode :=
  { pi with
    iBlkType := .b4K
    iFlags := pmfsMaskFlags 16877 flags
    iMode := 16877
    root := pmfsGetBlockOff b
    iSize := (pi.iSize + 4096) % 2 ^ 64 }

/-- The end of `add_direntry`. -/
def touchInode (mtime : ℕ) (pi : PmfsInode) : PmfsInode :=
  { pi with iAtime := mtime, iCtime := mtime, iMtime := mtime, iLinksCount := 1 }

/-! ### Formatting -/

/-- `pmfs_check_size`. -/
def pmfsCheckSize (size jsize numInodes : ℕ) : Bool :=
  let numBlocks := if numInodes > 0 then numInodes >>> 5 + 1 else 1
  size ≥ 2 <<< 12 + numBlocks <<< 12 + jsize

/-- The root directory of `pmfs_init`, its block at `blocknr`. -/
def rootInode (mode uid gid now blocknr : ℕ) : PmfsInode :=
  { height := 0, iBlkType := .b4K, iFlags := 0, root := pmfsGetBlockOff blocknr, iSize := 4096
    iCtime := now, iMtime := now, iDtime := 0, iMode := mode ||| 0o040000, iLinksCount := 2
    iBlocks := 1, iUid := uid, iGid := gid, iGeneration := 0, iAtime := now, nvmblock := 0
    blkoff := 0 }

/-- The VFS copy that `pmfs_iget` makes of an inode. -/
def pmfsReadInode (ino : ℕ) (pi : PmfsInode) (isAppend isImmutable : Bool) : Inode :=
  { iIno := ino, iMode := pi.iMode, iNlink := pi.iLinksCount, iSize := pi.iSize
    iBlocks := pi.iBlocks, iCtime := pi.iCtime, iMtime := pi.iMtime, iAtime := pi.iAtime
    iUid := pi.iUid, iGid := pi.iGid, iGeneration := pi.iGeneration, isAppend := isAppend
    isImmutable := isImmutable, isBad := false }

/-- `pmfs_init` on a device of `size` bytes with the contents `node`; `none` where it fails. The
inode with number 1 is the root directory, the others are zero. -/
def pmfsInit (node : ℕ → ℕ → ℕ) (pis : ℕ → PmfsInode) (inodes : ℕ → Inode) (slab : List Bool)
    (size jsize numInodes mode uid gid now : ℕ) : Option Fs :=
  let d : Dev :=
    ⟨pmfsInitBlockmap (Balloc.fresh (size >>> 12)) (4096 + jsize), slab, node, [], false⟩
  if pmfsCheckSize size jsize numInodes then
    match pmfsInitInodeTable d size numInodes with
    | some (d, inodeTable, sbi, none) =>
      match d.newBlock .b4K true with
      | (.ok b, d) =>
        let root := rootInode mode uid gid now b
        some { dev := d, sbi := sbi, inodeTable := inodeTable, pi := update pis 1 root
               inode := update inodes 1 (pmfsReadInode 128 root false false), active := {1} }
      | _ => none
    | _ => none
  else none

/-- What a successful `pmfs_init` has done. -/
theorem init_cases {node : ℕ → ℕ → ℕ} {pis : ℕ → PmfsInode} {inodes : ℕ → Inode} {slab : List Bool}
    {size jsize numInodes mode uid gid now : ℕ} {fs : Fs}
    (h : pmfsInit node pis inodes slab size jsize numInodes mode uid gid now = some fs) :
    pmfsCheckSize size jsize numInodes = true ∧ ∃ d table sbi b d', pmfsInitInodeTable
        ⟨pmfsInitBlockmap (Balloc.fresh (size >>> 12)) (4096 + jsize), slab, node, [],
        false⟩ size numInodes =
          some (d, table, sbi, none) ∧ d.newBlock .b4K true = (.ok b, d') ∧
      fs = ⟨d', sbi, table, update pis 1 (rootInode mode uid gid now b), update inodes 1
        (pmfsReadInode 128 (rootInode mode uid gid now b) false false), {1}⟩ := by
  unfold pmfsInit at h
  -- the device stays closed, so that nothing is computed on it
  generalize (⟨pmfsInitBlockmap (Balloc.fresh (size >>> 12)) (4096 + jsize), slab, node, [],
    false⟩ : Dev) = d0 at h ⊢
  cases hsize : pmfsCheckSize size jsize numInodes with
  | false => simp [hsize] at h
  | true =>
    rw [hsize, if_pos rfl] at h
    rcases htable : pmfsInitInodeTable d0 size numInodes with - | ⟨d, table, sbi, _ | e⟩
    · simp [htable] at h
    · rw [htable] at h
      rcases hnew : d.newBlock .b4K true with ⟨_ | b, d'⟩
      · simp [hnew] at h
      · simp only [hnew, Option.some.injEq] at h
        exact ⟨rfl, d, table, sbi, b, d', rfl, hnew, h.symm⟩
    · simp [htable] at h

end Pmfs.Inodes.Model
