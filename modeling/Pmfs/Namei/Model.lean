import Pmfs.Dirs.Model

/-! # The namespace operations

The functions of `namei.c` on directories as bytes, with the link counts in memory and on the
medium, the truncate list, and `pmfs_evict_inode` and `pmfs_notify_change` as far as they concern
these. What other parts do (open a transaction, find a free inode, allocate a block) is an argument:
see `Env`. Times are left out. -/

namespace Pmfs.Namei.Model

open Block.Model Dirs.Model Lib.Bytes Function

/-- The file type in `i_mode`; `special` is for devices, pipes and sockets. -/
inductive Kind where
  | reg
  | dir
  | lnk
  | special
deriving DecidableEq

/-- An inode, in memory and on the medium. -/
structure Inode where
  /-- The file type, none if `i_mode` is 0. -/
  kind : Option Kind
  /-- `inode->i_nlink`. -/
  nlink : ℕ
  /-- `pi->i_links_count`. -/
  links : ℕ
  /-- `i_dtime` is set. -/
  dtime : Bool
  /-- `IS_APPEND` or `IS_IMMUTABLE`. -/
  fixed : Bool
  /-- `PMFS_EOFBLOCKS_FL`. -/
  eof : Bool

/-- The file system. `data` holds `i_size` and, for a directory, its blocks; `truncated` is
`s_truncate`, and `head`, `next` and `truncateSize` are the list on the medium. -/
structure Fs where
  inode : ℕ → Inode
  data : ℕ → Dir
  truncated : List ℕ
  head : ℕ
  next : ℕ → ℕ
  truncateSize : ℕ → ℕ

def Fs.setInode (fs : Fs) (i : ℕ) (x : Inode) : Fs := { fs with inode := update fs.inode i x }

def Fs.setData (fs : Fs) (i : ℕ) (d : Dir) : Fs := { fs with data := update fs.data i d }

/-- What the other parts do during a call: whether a transaction can be opened, the number of a new
inode, a block for the directory to grow by, the first block of a new directory, whether the text of
a symbolic link can be stored, and whether `pmfs_free_inode` can open its transaction. -/
structure Env where
  trans : Option Errno
  new : Except Errno ℕ
  grow : Except Errno Blk
  first : Except Errno Blk
  symlink : Option Errno
  free : Option Errno

/-- The result of a call: the state, and the error if it is not 0. None if it does not return. -/
abbrev Result := Option (Fs × Option Errno)

/-! ### Transactions -/

/-- `pmfs_add_logentry`, for an entry that would restore what is about to be overwritten. Because of
the misplaced brace, `return -EINVAL` comes before anything is recorded. -/
def pmfsAddLogentry (log : List (Fs → Fs)) (_restore : Fs → Fs) : List (Fs → Fs) := log

/-- `pmfs_abort_transaction`: the recorded entries are undone. -/
def pmfsAbortTransaction (fs : Fs) (log : List (Fs → Fs)) : Fs :=
  log.foldl (fun fs undo => undo fs) fs

/-- The entry for the first bytes of an inode. -/
def restoreInode (fs : Fs) (i : ℕ) (fs' : Fs) : Fs := fs'.setInode i (fs.inode i)

/-- The entry for bytes of a directory. -/
def restoreData (fs : Fs) (i : ℕ) (fs' : Fs) : Fs := fs'.setData i (fs.data i)

/-! ### Link counts -/

/-- `set_nlink`, and `inc_nlink`, `drop_nlink` and `clear_nlink` through it. -/
def Fs.setNlink (fs : Fs) (i n : ℕ) : Fs := fs.setInode i { fs.inode i with nlink := n }

/-- `pmfs_update_nlink`. -/
def pmfsUpdateNlink (fs : Fs) (i : ℕ) : Fs :=
  fs.setInode i { fs.inode i with links := (fs.inode i).nlink % 65536 }

/-- `pmfs_inc_count`. -/
def pmfsIncCount (fs : Fs) (i : ℕ) : Fs :=
  pmfsUpdateNlink (fs.setNlink i ((fs.inode i).nlink + 1)) i

/-- `pmfs_dec_count`. -/
def pmfsDecCount (fs : Fs) (i : ℕ) : Fs :=
  if (fs.inode i).nlink ≠ 0 then pmfsUpdateNlink (fs.setNlink i ((fs.inode i).nlink - 1)) i else fs

/-! ### The truncate list -/

/-- `pmfs_truncate_add`. -/
def pmfsTruncateAdd (fs : Fs) (i size : ℕ) : Fs :=
  if i ∈ fs.truncated then fs
  else { fs with
    next := update fs.next i fs.head
    truncateSize := update fs.truncateSize i size
    head := i
    truncated := i :: fs.truncated }

/-- The inode before `i` on the list, none for the first. -/
def prevIn : List ℕ → ℕ → Option ℕ
  | a :: b :: l, i => if b = i then some a else prevIn (b :: l) i
  | _, _ => none

/-- `pmfs_truncate_del`. -/
def pmfsTruncateDel (fs : Fs) (i : ℕ) : Fs :=
  if i ∈ fs.truncated then
    match prevIn fs.truncated i with
    | none => { fs with truncated := fs.truncated.erase i, head := fs.next i }
    | some p => { fs with
        truncated := fs.truncated.erase i
        next := update fs.next p (fs.next i) }
  else fs

/-! ### Inodes -/

/-- `pmfs_new_inode`, with the number of the free inode that it finds. -/
def pmfsNewInode (fs : Fs) (kind : Kind) : Except Errno ℕ → Except Errno (Fs × ℕ)
  | .error e => .error e
  | .ok i =>
    .ok ((fs.setInode i ⟨some kind, 1, 1, false, false, false⟩).setData i ⟨0, fun _ => none, 0⟩, i)

/-- `pmfs_free_inode`. The deletion time is that of `get_seconds`, taken not to be 0 modulo `2 ^
32`: then `i_dtime` marks the slot as free. -/
def pmfsFreeInode (fs : Fs) (i : ℕ) : Option Errno → Fs × Option Errno
  | some e => (fs, some e)
  | none =>
    ((fs.setInode i { fs.inode i with dtime := true }).setData i ⟨0, fun _ => none, 0⟩, none)

/-- `pmfs_evict_inode`. -/
def pmfsEvictInode (fs : Fs) (i : ℕ) (free : Option Errno) : Fs :=
  if (fs.inode i).nlink = 0 ∧ ((fs.inode i).kind = some .reg ∨ (fs.inode i).kind = some .dir ∨
      (fs.inode i).kind = some .lnk) ∧ (fs.inode i).fixed = false then
    pmfsTruncateDel (pmfsFreeInode fs i free).1 i
  else pmfsTruncateDel fs i

/-- What `pmfs_notify_change` is asked to change: whether `inode_change_ok` refuses, the size, and
how many of the other fields there are, without and with the times that a change of size sets as
well. `eof` is `PMFS_EOFBLOCKS_FL` after `pmfs_setsize`. -/
structure Iattr where
  refuse : Option Errno
  size : Option ℕ
  fields : ℕ
  times : ℕ
  eof : Bool

/-- The change of size in `pmfs_notify_change`. -/
def changeSize (fs : Fs) (i size : ℕ) (eof : Bool) : Fs :=
  let fs := pmfsTruncateAdd fs i size
  let fs := if (fs.inode i).kind = some .special then fs
    else (fs.setInode i { fs.inode i with eof := eof }).setData i { fs.data i with iSize := size }
  pmfsTruncateDel fs i

/-- `pmfs_update_inode`, as far as it concerns the link count. -/
def pmfsUpdateInode (fs : Fs) (i : ℕ) : Fs := pmfsUpdateNlink fs i

/-- `pmfs_notify_change` after the change of size, for `n` fields. -/
def notifyFields (fs : Fs) (i n : ℕ) (trans : Option Errno) : Fs × Option Errno :=
  if n ≤ 1 then (fs, none)
  else
    match trans with
    | some e => (fs, some e)
    | none => (pmfsUpdateInode fs i, none)

/-- The size is to be changed. -/
def Iattr.resizes (attr : Iattr) (fs : Fs) (i : ℕ) : Prop :=
  ∃ size ∈ attr.size, size ≠ (fs.data i).iSize ∨ (fs.inode i).eof = true

instance (attr : Iattr) (fs : Fs) (i : ℕ) : Decidable (attr.resizes fs i) :=
  inferInstanceAs (Decidable (∃ size ∈ attr.size, _))

/-- `pmfs_notify_change`. -/
def pmfsNotifyChange (fs : Fs) (i : ℕ) (attr : Iattr) (trans : Option Errno) : Fs × Option Errno :=
  match attr.refuse with
  | some e => (fs, some e)
  | none =>
    if attr.resizes fs i then
      notifyFields (changeSize fs i (attr.size.getD 0) attr.eof) i attr.fields trans
    else notifyFields fs i (attr.fields + attr.times) trans

/-! ### A new file system -/

/-- The block of the root directory, as `pmfs_init` writes it. -/
def rootBlock : Blk :=
  let b := putBytes
    (put (put (put (fun _ => 0) 0 8 PMFS_ROOT_INO) 10 1 1) 8 2 (pmfsDirRecLen 1)) 12 [0x2e, 0]
  let de := pmfsDirRecLen 1
  putBytes
    (put (put (put b de 8 PMFS_ROOT_INO) (de + 8) 2 (4096 - pmfsDirRecLen 1)) (de + 10) 1 2)
    (de + 12) [0x2e, 0x2e, 0]

/-- What `pmfs_init` leaves: free inodes and the root directory. -/
def pmfsInit : Fs where
  inode := update (fun _ => ⟨none, 0, 0, false, false, false⟩) PMFS_ROOT_INO
    ⟨some .dir, 2, 2, false, false, false⟩
  data := update (fun _ => ⟨0, fun _ => none, 0⟩) PMFS_ROOT_INO
    ⟨4096, update (fun _ => none) 0 (some rootBlock), 0⟩
  truncated := []
  head := 0
  next := fun _ => 0
  truncateSize := fun _ => 0

/-! ### Names -/

/-- `PMFS_LINK_MAX`. -/
def PMFS_LINK_MAX : ℕ := 32000

/-- `pmfs_add_entry` in the directory `dir`. -/
def addEntry (fs : Fs) (dir : ℕ) (name : Name) (i : ℕ) (grow : Except Errno Blk) : Result :=
  (pmfsAddEntry (fs.data dir) name i grow).map fun r => (fs.setData dir r.1, r.2)

/-- `pmfs_remove_entry` in the directory `dir`. -/
def removeEntry (fs : Fs) (dir : ℕ) (name : Name) : Fs × Option Errno :=
  (fs.setData dir (pmfsRemoveEntry (fs.data dir) name).1, (pmfsRemoveEntry (fs.data dir) name).2)

/-- `pmfs_inode_by_name`, for the hint that it leaves. -/
def lookUp (fs : Fs) (dir : ℕ) (name : Name) : Fs := fs.setData dir (lookedUp (fs.data dir) name)

/-- What follows a failed call: the transaction is aborted. -/
def abortOnError (log : List (Fs → Fs)) (r : Fs × Option Errno) : Fs × Option Errno :=
  match r.2 with
  | none => r
  | some e => (pmfsAbortTransaction r.1 log, some e)

/-- `pmfs_add_nondir`. If there is no entry for it, the new inode goes with its last reference. -/
def pmfsAddNondir (fs : Fs) (dir : ℕ) (name : Name) (i : ℕ) (env : Env) : Result :=
  (addEntry fs dir name i env.grow).map fun r =>
    match r.2 with
    | none => r
    | some e => (pmfsEvictInode (pmfsDecCount r.1 i) i env.free, some e)

/-- `pmfs_create` and `pmfs_mknod`. When `pmfs_new_inode` fails, `err` is still `PTR_ERR(NULL)`. -/
def createNode (fs : Fs) (kind : Kind) (dir : ℕ) (name : Name) (env : Env) : Result :=
  match env.trans with
  | some e => some (fs, some e)
  | none =>
    match pmfsNewInode fs kind env.new with
    | .error _ => some (pmfsAbortTransaction fs [], none)
    | .ok (fs', i) => (pmfsAddNondir fs' dir name i env).map
        (abortOnError (pmfsAddLogentry [] (restoreInode fs i)))

/-- `pmfs_create`. -/
def pmfsCreate (fs : Fs) (dir : ℕ) (name : Name) (env : Env) : Result :=
  createNode fs .reg dir name env

/-- `pmfs_mknod`. -/
def pmfsMknod (fs : Fs) (dir : ℕ) (name : Name) (env : Env) : Result :=
  createNode fs .special dir name env

/-- `pmfs_symlink` for a text of `len` bytes. -/
def pmfsSymlink (fs : Fs) (dir : ℕ) (name : Name) (len : ℕ) (env : Env) : Result :=
  if len + 1 > 4096 then some (fs, some .ENAMETOOLONG)
  else
    match env.trans with
    | some e => some (fs, some e)
    | none =>
      match pmfsNewInode fs .lnk env.new with
      | .error e => some (pmfsAbortTransaction fs [], some e)
      | .ok (fs', i) =>
        match env.symlink with
        | some e => some (pmfsAbortTransaction (pmfsEvictInode (pmfsDecCount fs' i) i env.free)
            (pmfsAddLogentry [] (restoreInode fs i)), some e)
        | none =>
          (pmfsAddNondir (fs'.setData i { fs'.data i with iSize := len }) dir name i env).map
            (abortOnError (pmfsAddLogentry [] (restoreInode fs i)))

/-- What `pmfs_link` does after `pmfs_add_entry`. -/
def linked (i : ℕ) (log : List (Fs → Fs)) (r : Fs × Option Errno) : Fs × Option Errno :=
  match r.2 with
  | none => (pmfsIncCount r.1 i, none)
  | some e => (pmfsAbortTransaction r.1 log, some e)

/-- `pmfs_link`. -/
def pmfsLink (fs : Fs) (i dir : ℕ) (name : Name) (env : Env) : Result :=
  if (fs.inode i).nlink ≥ PMFS_LINK_MAX then some (fs, some .EMLINK)
  else
    match env.trans with
    | some e => some (fs, some e)
    | none =>
      (addEntry fs dir name i env.grow).map (linked i (pmfsAddLogentry [] (restoreInode fs i)))

/-- What `pmfs_unlink` does after `pmfs_remove_entry`. -/
def unlinked (i : ℕ) (fs : Fs) : Fs :=
  pmfsDecCount (if (fs.inode i).nlink = 1 then pmfsTruncateAdd fs i (fs.data i).iSize else fs) i

/-- `pmfs_unlink`. -/
def pmfsUnlink (fs : Fs) (dir : ℕ) (name : Name) (i : ℕ) (env : Env) : Fs × Option Errno :=
  match env.trans with
  | some e => (fs, some e)
  | none =>
    match removeEntry fs dir name with
    | (fs', some e) => (pmfsAbortTransaction fs' (pmfsAddLogentry [] (restoreInode fs i)), some e)
    | (fs', none) => (unlinked i fs', none)

/-- A new directory gives up its inode: `out_clear_inode` in `pmfs_mkdir`. -/
def clearInode (fs : Fs) (i : ℕ) (env : Env) : Fs := pmfsEvictInode (fs.setNlink i 0) i env.free

/-- `pmfs_mkdir` from the first block of the new directory on. -/
def mkdirFrom (fs : Fs) (dir : ℕ) (name : Name) (i : ℕ) (b : Blk) (env : Env) : Result :=
  (addEntry ((fs.setData i ⟨4096, update (fun _ => none) 0 (some (makeEmpty b i dir)), 0⟩).setNlink
      i 2) dir name i env.grow).map fun r =>
    match r.2 with
    | none => (pmfsIncCount (pmfsUpdateNlink r.1 i) dir, none)
    | some e => (clearInode r.1 i env, some e)

/-- `pmfs_mkdir`. -/
def pmfsMkdir (fs : Fs) (dir : ℕ) (name : Name) (env : Env) : Result :=
  if (fs.inode dir).nlink ≥ PMFS_LINK_MAX then some (fs, some .EMLINK)
  else
    match env.trans with
    | some e => some (fs, some e)
    | none =>
      match pmfsNewInode fs .dir env.new with
      | .error e => some (pmfsAbortTransaction fs [], some e)
      | .ok (fs', i) =>
        match env.first with
        | .error e => some (pmfsAbortTransaction (clearInode fs' i env)
            (pmfsAddLogentry [] (restoreInode fs i)), some e)
        | .ok b => (mkdirFrom fs' dir name i b env).map
            (abortOnError (pmfsAddLogentry [] (restoreInode fs i)))

/-- What `pmfs_rmdir` does after `pmfs_remove_entry`. -/
def rmdirDone (dir i : ℕ) (fs : Fs) : Fs :=
  pmfsDecCount (pmfsTruncateAdd (pmfsUpdateNlink (fs.setNlink i 0) i) i (fs.data i).iSize) dir

/-- `pmfs_rmdir` when the directory is empty. -/
def rmdirEmpty (fs : Fs) (dir : ℕ) (name : Name) (i : ℕ) (env : Env) : Fs × Option Errno :=
  match env.trans with
  | some e => (fs, some e)
  | none =>
    match removeEntry fs dir name with
    | (fs', some e) => (pmfsAbortTransaction fs' (pmfsAddLogentry [] (restoreInode fs i)), some e)
    | (fs', none) => (rmdirDone dir i fs', none)

/-- `pmfs_rmdir`. -/
def pmfsRmdir (fs : Fs) (dir : ℕ) (name : Name) (i : ℕ) (env : Env) : Result :=
  if pmfsInodeByName (fs.data dir) name = 0 then some (lookUp fs dir name, some .ENOENT)
  else (pmfsEmptyDir ((lookUp fs dir name).data i) i).map fun empty =>
    if empty then rmdirEmpty (lookUp fs dir name) dir name i env
    else (lookUp fs dir name, some .ENOTEMPTY)

/-! ### Rename -/

/-- The arguments of `pmfs_rename`; `newIno` is the inode that the new name is for, if any. -/
structure RenameArgs where
  oldDir : ℕ
  oldName : Name
  oldIno : ℕ
  newDir : ℕ
  newName : Name
  newIno : Option ℕ

/-- The old inode is a directory. -/
def RenameArgs.isDir (a : RenameArgs) (fs : Fs) : Prop := (fs.inode a.oldIno).kind = some .dir

instance (a : RenameArgs) (fs : Fs) : Decidable (a.isDir fs) := inferInstanceAs (Decidable (_ = _))

/-- The checks of `pmfs_rename`. -/
def renameCheck (fs : Fs) (a : RenameArgs) : Option (Option Errno) :=
  match a.newIno with
  | some j =>
    if a.isDir fs then (pmfsEmptyDir (fs.data j) j).map fun empty =>
      if empty then none else some .ENOTEMPTY
    else some none
  | none =>
    some (if a.isDir fs ∧ (fs.inode a.newDir).nlink ≥ PMFS_LINK_MAX then some .EMLINK else none)

/-- `new_de->ino` becomes the old inode. -/
def overwrite (d : Dir) (de : Lookup) (i : ℕ) : Dir :=
  match de with
  | .found k o => (d.blk k).elim d fun b => d.setBlk k (put b o 8 i)
  | _ => d

/-- The new name is bound to the old inode: in its record `new_de`, or by a new one. -/
def renameBind (fs : Fs) (a : RenameArgs) (newDe : Lookup) (env : Env) : Result :=
  match newDe with
  | .found _ _ => some (fs.setData a.newDir (overwrite (fs.data a.newDir) newDe a.oldIno), none)
  | _ => addEntry fs a.newDir a.newName a.oldIno env.grow

/-- `drop_nlink`, unless the count is 0. -/
def dropNlink (fs : Fs) (i : ℕ) : Fs :=
  if (fs.inode i).nlink ≠ 0 then fs.setNlink i ((fs.inode i).nlink - 1) else fs

/-- The inode that the new name was for loses it. -/
def renameLose (fs : Fs) (a : RenameArgs) (j : ℕ) : Fs :=
  let fs := pmfsUpdateNlink (dropNlink (if a.isDir fs then dropNlink fs j else fs) j) j
  if (fs.inode j).nlink = 0 then pmfsTruncateAdd fs j (fs.data j).iSize else fs

/-- The link counts after the names have changed. -/
def renameCount (fs : Fs) (a : RenameArgs) : Fs :=
  match a.newIno with
  | some j => renameLose fs a j
  | none => if a.isDir fs then pmfsDecCount (pmfsIncCount fs a.newDir) a.oldDir else fs

/-- The log of `pmfs_rename`: the old inode, the record of the new name and the new directory. -/
def renameLog (fs : Fs) (a : RenameArgs) : List (Fs → Fs) :=
  pmfsAddLogentry (pmfsAddLogentry (pmfsAddLogentry [] (restoreInode fs a.oldIno))
    (restoreData fs a.newDir)) (restoreInode fs a.newDir)

/-- `pmfs_rename` once the new name is bound. -/
def renameUnbind (fs : Fs) (a : RenameArgs) (log : List (Fs → Fs)) : Fs × Option Errno :=
  match removeEntry fs a.oldDir a.oldName with
  | (fs', some e) => (pmfsAbortTransaction fs' log, some e)
  | (fs', none) => (renameCount fs' a, none)

/-- `pmfs_rename` after the two lookups. -/
def renameFrom (fs : Fs) (a : RenameArgs) (newDe : Lookup) (env : Env) : Result :=
  match env.trans with
  | some e => some (fs, some e)
  | none =>
    (renameCheck fs a).bind fun
      | some e => some (pmfsAbortTransaction fs [], some e)
      | none => (renameBind fs a newDe env).map fun
          | (fs', some e) => (pmfsAbortTransaction fs' (renameLog fs a), some e)
          | (fs', none) => renameUnbind fs' a (renameLog fs a)

/-- `pmfs_rename`. -/
def pmfsRename (fs : Fs) (a : RenameArgs) (env : Env) : Result :=
  renameFrom (lookUp (lookUp fs a.newDir a.newName) a.oldDir a.oldName) a
    (findEntry (fs.data a.newDir) a.newName) env

/-- `pmfs_get_parent`: the inode number of the parent, 0 for `-ENOENT`. -/
def pmfsGetParent (fs : Fs) (i : ℕ) : ℕ := pmfsInodeByName (fs.data i) [0x2e, 0x2e]

end Pmfs.Namei.Model
