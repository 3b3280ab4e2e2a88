import Pmfs.Namei.Runs

/-! # Results of failing calls

A call that makes a name returns 0 if and only if the name is then bound to its inode, but for
`pmfs_create` and `pmfs_mknod` when `pmfs_new_inode` fails (`honest_iff`). A call that fails leaves
all names and link counts, but for `pmfs_rename` when the old name is not there (`unchanged_iff`).
-/

namespace Pmfs.Namei.Failures

open Lib.Bytes Block.Model Dirs.Model Dirs.Spec Dirs.Dots Function
open Dirs.Refine (Rebound rebound_of_add rebound_of_overwrite lookedUp_spec)
open Namei.Model Namei.Binding Namei.Refine Namei.Runs

variable {fs fs' fs1 : Fs} {d i e : ℕ} {n : Name} {env : Env} {k : Kind}

/-! ### Making names -/

/-- The calls that make a name. -/
inductive Make where
  | create
  | mknod
  | symlink (len : ℕ)
  | mkdir
  | link (i : ℕ)

def Make.exec (fs : Fs) (d : ℕ) (n : Name) (env : Env) : Make → Result
  | create => pmfsCreate fs d n env
  | mknod => pmfsMknod fs d n env
  | symlink len => pmfsSymlink fs d n len env
  | mkdir => pmfsMkdir fs d n env
  | link i => pmfsLink fs i d n env

/-- The inode that the name is to be for: the new one, or the one that gets a link. -/
def Make.ino (env : Env) : Make → Except Errno ℕ
  | link i => .ok i
  | _ => env.new

/-- The type of the new inode. -/
def Make.kind : Make → Option Kind
  | create => some .reg
  | mknod => some .special
  | symlink _ => some .lnk
  | mkdir => some .dir
  | link _ => none

/-- The name is bound to the inode that it is to be for. -/
def Make.Bound (fs : Fs) (d : ℕ) (n : Name) (env : Env) (m : Make) : Prop :=
  ∃ i, m.ino env = .ok i ∧ pmfsInodeByName (fs.data d) n = i ∧
    ∀ k ∈ m.kind, (fs.inode i).kind = some k

/-- A transaction is open and there is no inode to be had, in `pmfs_create` or `pmfs_mknod`. -/
def Make.Swallows (env : Env) : Make → Prop
  | create | mknod => env.trans = none ∧ ∃ e, env.new = .error e
  | _ => False

/-- What a call that makes the name `n` for `i` can come to. -/
def Tells (r : Result) (d : ℕ) (n : Name) (i : ℕ) (kind : Option Kind) : Prop :=
  ∃ fs err, r = some (fs, err) ∧
    (err = none → pmfsInodeByName (fs.data d) n = i ∧ ∀ k ∈ kind, (fs.inode i).kind = some k) ∧
    (err ≠ none → pmfsInodeByName (fs.data d) n = 0)

theorem tells_error {err : Errno} {kind : Option Kind} (h : pmfsInodeByName (fs.data d) n = 0) :
    Tells (some (fs, some err)) d n i kind := ⟨fs, some err, rfl, by simp, fun _ => h⟩

theorem setData_self : fs.setData d (fs.data d) = fs := by
  unfold Fs.setData
  rw [update_eq_self]

theorem evict_data_of_ne {free : Option Errno} (h : e ≠ i) :
    (pmfsEvictInode fs i free).data e = fs.data e := by
  unfold pmfsEvictInode
  split_ifs
  · rw [truncateDel_data]
    cases free with
    | some err => rfl
    | none => exact setData_data_of_ne h
  · rw [truncateDel_data]

theorem setInode_kind {x : Inode} (h : x.kind = (fs.inode i).kind) :
    ((fs.setInode i x).inode e).kind = (fs.inode e).kind := by
  unfold Fs.setInode
  by_cases he : e = i
  · subst he
    simpa using h
  · simp [update_of_ne he]

theorem setNlink_kind {l : ℕ} : ((fs.setNlink i l).inode e).kind = (fs.inode e).kind :=
  setInode_kind rfl

theorem updateNlink_kind : ((pmfsUpdateNlink fs i).inode e).kind = (fs.inode e).kind :=
  setInode_kind rfl

theorem incCount_kind : ((pmfsIncCount fs i).inode e).kind = (fs.inode e).kind :=
  updateNlink_kind.trans setNlink_kind

section
variable {D : Dir} (h : WfDir D) (hn : 1 ≤ n.length) (hn' : n.length ≤ 255)
  (hno : pmfsInodeByName D n = 0) (hi : i ≠ 0) (hi' : i < 256 ^ 8) (hdi : d ≠ i)
include h hn hn' hno hi hi' hdi

omit hdi in
/-- `pmfs_add_entry` for a name that is not there, and what follows it. -/
theorem add_tells {kind : Option Kind} {after : Fs × Option Errno → Fs × Option Errno}
    (hdata : fs.data d = D) (hok : ∀ D', ∃ F, after (fs.setData d D', none) = (F, none) ∧
    F.data d = D' ∧
      ∀ k ∈ kind, (F.inode i).kind = some k)
    (hfail : ∀ err, ∃ F, after (fs, some err) = (F, some err) ∧ F.data d = D) :
    Tells ((addEntry fs d n i env.grow).map after) d n i kind := by
  subst hdata
  unfold addEntry
  rcases addEntry_spec env.grow h hn hn' hi' hi with ⟨D', hrun, hwf, hlive, -⟩ | ⟨err, -, hrun, -⟩
  · obtain ⟨F, heq, rfl, hk⟩ := hok D'
    rw [hrun]
    refine ⟨F, none, congrArg some heq, fun _ => ⟨?_, hk⟩, by simp⟩
    rcases lookup_spec hwf hn hn' with ⟨-, hmem⟩ | ⟨-, hmiss⟩
    · rw [hlive, Multiset.mem_cons] at hmem
      rcases hmem with heq | hmem
      · exact (Prod.mk.inj heq).2
      · exact absurd hmem ((lookup_eq_zero_iff h hn hn').mp hno _)
    · exact absurd (hlive ▸ Multiset.mem_cons_self _ _) (hmiss i)
  · obtain ⟨F, heq, hF⟩ := hfail err
    rw [hrun, Option.map_some, Option.map_some, setData_self, heq]
    exact ⟨F, some err, rfl, by simp, fun _ => hF ▸ hno⟩

theorem addNondir_tells (hdata : fs.data d = D) (hk : (fs.inode i).kind = some k) :
    Tells (pmfsAddNondir fs d n i env) d n i (some k) := by
  refine add_tells h hn hn' hno hi hi' hdata (fun D' => ⟨_, rfl, setData_data_self, ?_⟩) fun err =>
    ⟨_, rfl, ?_⟩
  · rintro _ ⟨⟩
    exact hk
  · rw [evict_data_of_ne hdi, pmfsDecCount_data, hdata]

theorem create_tells (hdata : fs.data d = D) (hino : env.new = .ok i) :
    Tells (createNode fs k d n env) d n i (some k) := by
  unfold createNode
  cases env.trans with
  | some err => exact tells_error (hdata ▸ hno)
  | none =>
    rw [hino]
    simp only [pmfsNewInode, abort_eq]
    refine addNondir_tells h hn hn' hno hi hi' hdi ?_ ?_
    · rw [setData_data_of_ne hdi]
      exact hdata
    · simp [Fs.setInode, Fs.setData]

theorem symlink_tells {len : ℕ} (hdata : fs.data d = D) (hino : env.new = .ok i) :
    Tells (pmfsSymlink fs d n len env) d n i (some .lnk) := by
  unfold pmfsSymlink
  split_ifs
  · exact tells_error (hdata ▸ hno)
  cases env.trans with
  | some err => exact tells_error (hdata ▸ hno)
  | none =>
    rw [hino]
    have hnew : ∀ D' : Dir,
      ((fs.setInode i ⟨some .lnk, 1, 1, false, false, false⟩).setData i D').data d = D := by
      intro D'
      rw [setData_data_of_ne hdi]
      exact hdata
    cases env.symlink with
    | some err =>
      refine tells_error ?_
      show pmfsInodeByName ((pmfsEvictInode _ i env.free).data d) n = 0
      rw [evict_data_of_ne hdi, pmfsDecCount_data, hnew]
      exact hno
    | none =>
      simp only [pmfsNewInode, abort_eq]
      refine addNondir_tells h hn hn' hno hi hi' hdi ?_ ?_
      · rw [setData_data_of_ne hdi]
        exact hnew _
      · simp [Fs.setInode, Fs.setData]

theorem mkdir_tells (hdata : fs.data d = D) (hino : env.new = .ok i) :
    Tells (pmfsMkdir fs d n env) d n i (some .dir) := by
  unfold pmfsMkdir
  split_ifs
  · exact tells_error (hdata ▸ hno)
  cases env.trans with
  | some err => exact tells_error (hdata ▸ hno)
  | none =>
    rw [hino]
    cases env.first with
    | error err =>
      refine tells_error ?_
      show pmfsInodeByName ((pmfsEvictInode _ i env.free).data d) n = 0
      rw [evict_data_of_ne hdi]
      show pmfsInodeByName (update fs.data i _ d) n = 0
      rw [update_of_ne hdi, hdata]
      exact hno
    | ok b =>
      simp only [pmfsNewInode, abort_eq]
      refine add_tells h hn hn' hno hi hi' ?_ (fun D' => ⟨_, rfl, ?_, ?_⟩) fun err => ⟨_, rfl, ?_⟩
      · show update (update fs.data i _) i _ d = D
        rw [update_idem, update_of_ne hdi, hdata]
      · exact setData_data_self
      · rintro _ ⟨⟩
        rw [incCount_kind, updateNlink_kind]
        simp [Fs.setNlink, Fs.setInode, Fs.setData]
      · rw [clearInode, evict_data_of_ne hdi]
        show update (update fs.data i _) i _ d = D
        rw [update_idem, update_of_ne hdi, hdata]

omit hdi in
theorem link_tells (hdata : fs.data d = D) : Tells (pmfsLink fs i d n env) d n i none := by
  unfold pmfsLink
  split_ifs
  · exact tells_error (hdata ▸ hno)
  cases env.trans with
  | some err => exact tells_error (hdata ▸ hno)
  | none =>
    exact add_tells h hn hn' hno hi hi' hdata (fun D' => ⟨_, rfl, setData_data_self, by simp⟩)
      fun err => ⟨_, rfl, hdata⟩

end

theorem Tells.honest {m : Make} {r : Result} (h : Tells r d n i m.kind) (hi : i ≠ 0)
    (hino : m.ino env = .ok i) : ∃ fs' err, r = some (fs', err) ∧
    (err = none ↔ m.Bound fs' d n env) := by
  obtain ⟨fs', err, hr, hok, hfail⟩ := h
  refine ⟨fs', err, hr, fun heq => ⟨i, hino, hok heq⟩, ?_⟩
  rintro ⟨j, hj, hlook, -⟩
  obtain rfl : i = j := Except.ok.inj (hino.symm.trans hj)
  by_contra hne
  exact hi (hlook.symm.trans (hfail hne))

theorem not_bound {m : Make} {err : Errno} (h : m.ino env = .error err) : ¬ m.Bound fs d n env := by
  rintro ⟨i, hi, -⟩
  rw [h] at hi
  simp at hi

/-- `pmfs_create` and `pmfs_mknod` when there is no inode to be had. -/
theorem createNode_new_error {err : Errno} (hnew : env.new = .error err) : createNode fs k d n env =
    some (fs, env.trans) := by
  unfold createNode
  cases env.trans with
  | some err' => rfl
  | none =>
    rw [hnew]
    rfl

/-- The two cases: there is an inode to be had, or there is none. -/
theorem honest_of_tells {m : Make} (hswallow : m.Swallows env → ∃ e, m.ino env = .error e)
    (htells : ∀ i, m.ino env = .ok i → i ≠ 0 ∧ Tells (m.exec fs d n env) d n i m.kind)
    (herror : ∀ e, m.ino env = .error e →
      ∃ fs' err, m.exec fs d n env = some (fs', err) ∧ (err = none ↔ m.Swallows env)) :
    ∃ fs' err, m.exec fs d n env = some (fs', err) ∧
      ((err = none ↔ m.Bound fs' d n env) ↔ ¬ m.Swallows env) := by
  cases hino : m.ino env with
  | ok i =>
    obtain ⟨hi, htell⟩ := htells i hino
    obtain ⟨fs', err, hr, hiff⟩ := htell.honest hi hino
    exact ⟨fs', err, hr,
      iff_of_true hiff fun hcon => by simp [hino] at hswallow; exact hswallow hcon⟩
  | error e =>
    obtain ⟨fs', err, hr, hiff⟩ := herror e hino
    refine ⟨fs', err, hr, ?_⟩
    rw [hiff, iff_false_right (not_bound hino)]

/-- **Honest results.** In a well-formed directory that does not have the name, whatever fails on
the way, a call that makes a name returns 0 if and only if the name is then bound to its inode; but
`pmfs_create` and `pmfs_mknod` return 0 when `pmfs_new_inode` fails. -/
theorem honest_iff (m : Make) (hdir : FsDir fs d) (h : WfDir (fs.data d)) (hn : 1 ≤ n.length)
    (hn' : n.length ≤ 255) (hno : pmfsInodeByName (fs.data d) n = 0)
    (hnew : ∀ i, env.new = .ok i → FreeInode fs i) (hlink : ∀ i, m = .link i →
    i ≠ 0 ∧ i < 256 ^ 8) : ∃ fs' err, m.exec fs d n env = some (fs', err) ∧
      ((err = none ↔ m.Bound fs' d n env) ↔ ¬ m.Swallows env) := by
  have hne : ∀ i, env.new = .ok i → d ≠ i := by
    rintro i hi rfl
    exact hdir.2 (hnew d hi).2.2.1
  refine honest_of_tells ?_ (fun i hino => ?_) fun e hino => ?_
  · cases m with
    | create | mknod => exact And.right
    | symlink | mkdir | link => exact False.elim
  · cases m with
    | create | mknod =>
      obtain ⟨hi, hi', -⟩ := hnew i hino
      exact ⟨hi, create_tells h hn hn' hno hi hi' (hne i hino) rfl hino⟩
    | symlink len =>
      obtain ⟨hi, hi', -⟩ := hnew i hino
      exact ⟨hi, symlink_tells h hn hn' hno hi hi' (hne i hino) rfl hino⟩
    | mkdir =>
      obtain ⟨hi, hi', -⟩ := hnew i hino
      exact ⟨hi, mkdir_tells h hn hn' hno hi hi' (hne i hino) rfl hino⟩
    | link j =>
      obtain rfl : j = i := Except.ok.inj hino
      exact ⟨(hlink j rfl).1, link_tells h hn hn' hno (hlink j rfl).1 (hlink j rfl).2 rfl⟩
  · cases m with
    | create | mknod => exact ⟨fs, env.trans, createNode_new_error hino,
        (and_iff_left ⟨e, hino⟩).symm⟩
    | symlink len =>
      simp only [Make.exec, Make.Swallows, pmfsSymlink, show env.new = .error e from hino]
      split_ifs
      · exact ⟨_, _, rfl, by simp⟩
      · cases env.trans <;> exact ⟨_, _, rfl, by simp⟩
    | mkdir =>
      simp only [Make.exec, Make.Swallows, pmfsMkdir, show env.new = .error e from hino]
      split_ifs
      · exact ⟨_, _, rfl, by simp⟩
      · cases env.trans <;> exact ⟨_, _, rfl, by simp⟩
    | link i => exact absurd hino (by simp [Make.ino])

theorem wf_init : WfDir (pmfsInit.data PMFS_ROOT_INO) := by
  obtain ⟨hok, -⟩ := DirOk.one head_rootBlock (by decide) (by decide) (by decide)
  exact hok.wf

/-- A file in the root of a new file system. -/
theorem honest_iff_init : ∃ fs' err, Make.create.exec pmfsInit 128 [0x61] (plainEnv 384) =
    some (fs', err) ∧ ((err = none ↔ Make.create.Bound fs' 128 [0x61] (plainEnv 384)) ↔
    ¬ Make.create.Swallows (plainEnv 384)) :=
  honest_iff .create (by decide) wf_init (by decide) (by decide) (by decide +kernel)
    (by decide +kernel) (by simp)

/-- There is no inode to be had: `pmfs_create` returns 0, and the name is not there. -/
theorem zero_without_inode : ∃ fs', Make.create.exec pmfsInit 128 [0x61]
      ⟨none, .error .ENOSPC, .error .ENOSPC, .error .ENOSPC, none, none⟩ = some (fs', none) ∧
    pmfsInodeByName (fs'.data 128) [0x61] = 0 :=
  ⟨pmfsInit, rfl, by decide +kernel⟩

/-! ### Changing names -/

/-- The calls that fail after their transaction was opened. -/
inductive Change where
  | link (i d : ℕ) (n : Name)
  | unlink (d : ℕ) (n : Name) (i : ℕ)
  | rmdir (d : ℕ) (n : Name) (i : ℕ)
  | rename (a : RenameArgs)

def Change.exec (fs : Fs) (env : Env) : Change → Result
  | link i d n => pmfsLink fs i d n env
  | unlink d n i => some (pmfsUnlink fs d n i env)
  | rmdir d n i => pmfsRmdir fs d n i env
  | rename a => pmfsRename fs a env

/-- The directories whose entries are to change. -/
def Change.dirs : Change → List ℕ
  | link _ d _ => [d]
  | unlink d _ _ => [d]
  | rmdir d _ _ => [d]
  | rename a => [a.newDir, a.oldDir]

/-- Names have 1 to 255 bytes, and the inode that is to get a name has a number that fits. -/
def Change.Args : Change → Prop
  | link i _ n => 1 ≤ n.length ∧ n.length ≤ 255 ∧ i ≠ 0 ∧ i < 256 ^ 8
  | unlink _ n _ => 1 ≤ n.length ∧ n.length ≤ 255
  | rmdir _ n _ => 1 ≤ n.length ∧ n.length ≤ 255
  | rename a => (1 ≤ a.oldName.length ∧ a.oldName.length ≤ 255) ∧
      (1 ≤ a.newName.length ∧ a.newName.length ≤ 255) ∧ a.oldIno ≠ 0 ∧ a.oldIno < 256 ^ 8

/-- Well-formed, and no name twice. -/
def DirWf (fs : Fs) (d : ℕ) : Prop := WfDir (fs.data d) ∧ UniqueNames (fs.data d)

/-- Every name in every directory looks up as before, and the link counts on the medium are as
before. -/
def Unchanged (fs fs' : Fs) : Prop :=
  (∀ (d : ℕ) (n : Name), 1 ≤ n.length → n.length ≤ 255 →
    pmfsInodeByName (fs'.data d) n = pmfsInodeByName (fs.data d) n) ∧
  ∀ i, (fs'.inode i).links = (fs.inode i).links

/-- The checks of `pmfs_rename` pass. -/
def Passes (fs : Fs) (a : RenameArgs) : Prop :=
  a.isDir fs → match a.newIno with
    | some j => pmfsEmptyDir (fs.data j) j = some true
    | none => (fs.inode a.newDir).nlink < PMFS_LINK_MAX

/-- The new name can be bound: it has a record, or there is room for one, or a block. -/
def CanBind (fs : Fs) (a : RenameArgs) (env : Env) : Prop :=
  pmfsInodeByName (fs.data a.newDir) a.newName ≠ 0 ∨ HasRoom (fs.data a.newDir) a.newName ∨
    ∃ g, env.grow = .ok g

/-- `pmfs_rename` gets as far as to bind the new name to another inode, and the old name is not
there. -/
def Change.HalfDone (fs : Fs) (env : Env) : Change → Prop
  | rename a => env.trans = none ∧ Passes fs a ∧ CanBind fs a env ∧
      pmfsInodeByName (fs.data a.newDir) a.newName ≠ a.oldIno ∧
      pmfsInodeByName (fs.data a.oldDir) a.oldName = 0 ∧
      ¬ (a.oldDir = a.newDir ∧ a.oldName = a.newName)
  | _ => False

theorem Unchanged.refl : Unchanged fs fs := ⟨fun _ _ _ _ => rfl, fun _ => rfl⟩

theorem Unchanged.trans {fs2 : Fs} (h : Unchanged fs fs1) (h' : Unchanged fs1 fs2) :
    Unchanged fs fs2 :=
  ⟨fun d n h1 h2 => (h'.1 d n h1 h2).trans (h.1 d n h1 h2), fun i => (h'.2 i).trans (h.2 i)⟩

/-- The entries of a directory are written again, or its hint. -/
theorem unchanged_setData {D : Dir} (h : ∀ n : Name, 1 ≤ n.length → n.length ≤ 255 →
    pmfsInodeByName D n = pmfsInodeByName (fs.data d) n) : Unchanged fs (fs.setData d D) := by
  refine ⟨fun e n h1 h2 => ?_, fun _ => rfl⟩
  by_cases he : e = d
  · subst he
    rw [setData_data_self, h n h1 h2]
  · rw [setData_data_of_ne he]

/-! ### Lookups -/

theorem lookUp_dirWf (h : DirWf fs e) (n : Name) : DirWf (lookUp fs d n) e := by
  unfold DirWf lookUp
  by_cases he : e = d
  · subst he
    rw [setData_data_self]
    obtain ⟨hwf, hlive⟩ := lookedUp_spec n h.1
    exact ⟨hwf, by unfold UniqueNames; rw [hlive]; exact h.2⟩
  · rw [setData_data_of_ne he]
    exact h

theorem lookUp_unchanged (h : DirWf fs d) (n : Name) : Unchanged fs (lookUp fs d n) := by
  refine unchanged_setData fun m h1 h2 => ?_
  obtain ⟨hwf, hlive⟩ := lookedUp_spec n h.1
  refine lookup_congr h.1 hwf h.2 h1 h2 fun i => ?_
  rw [hlive]

theorem lookUp_iSize : ((lookUp fs d n).data e).iSize = (fs.data e).iSize := by
  unfold lookUp
  by_cases he : e = d
  · subst he
    rw [setData_data_self]
    unfold lookedUp
    cases findEntry (fs.data e) n <;> rfl
  · rw [setData_data_of_ne he]

theorem emptyLoop_congr {D D' : Dir} (hblk : D'.blk = D.blk) (hsize : D'.iSize = D.iSize) :
    ∀ (fuel offset : ℕ) (base : Option Blk) (de : ℕ),
      emptyLoop D' fuel offset base de = emptyLoop D fuel offset base de
  | 0, _, _, _ => rfl
  | fuel + 1, offset, base, de => by
    rw [emptyLoop, emptyLoop, hblk, hsize]
    simp only [emptyLoop_congr hblk hsize fuel]

theorem emptyDir_congr {D D' : Dir} (hblk : D'.blk = D.blk) (hsize : D'.iSize = D.iSize) :
    pmfsEmptyDir D' i = pmfsEmptyDir D i := by
  unfold pmfsEmptyDir
  rw [hblk, hsize]
  simp only [emptyLoop_congr hblk hsize]

/-! ### Rename -/

section
variable {a : RenameArgs}

theorem start_data (a : RenameArgs) (e : ℕ) : ((renameStart fs a).data e).blk = (fs.data e).blk ∧
    ((renameStart fs a).data e).iSize = (fs.data e).iSize := by
  exact ⟨lookUp_blk.trans lookUp_blk, lookUp_iSize.trans lookUp_iSize⟩

theorem start_dirWf (a : RenameArgs) (h : DirWf fs e) : DirWf (renameStart fs a) e :=
  lookUp_dirWf (lookUp_dirWf h _) _

theorem start_unchanged (hnew : DirWf fs a.newDir) (hold : DirWf fs a.oldDir) :
    Unchanged fs (renameStart fs a) :=
  (lookUp_unchanged hnew _).trans (lookUp_unchanged (lookUp_dirWf hold _) _)

theorem start_room : HasRoom ((renameStart fs a).data e) n ↔ HasRoom (fs.data e) n := by
  unfold HasRoom Dir.blocks
  rw [(start_data a e).1, (start_data a e).2]

theorem check_iff {check : Option Errno} (h : renameCheck (renameStart fs a) a = some check) :
    check = none ↔ Passes fs a := by
  unfold renameCheck at h
  unfold Passes
  cases hnew : a.newIno with
  | none =>
    rw [hnew] at h
    cases h
    have hstart : (renameStart fs a).inode = fs.inode := rfl
    simp [RenameArgs.isDir, hstart]
  | some j =>
    rw [hnew] at h
    dsimp only at h
    rw [emptyDir_congr (start_data a j).1 (start_data a j).2] at h
    by_cases hdir : a.isDir fs
    · rw [if_pos (show a.isDir (renameStart fs a) from hdir)] at h
      obtain ⟨empty, hempty, rfl⟩ := Option.map_eq_some_iff.mp h
      cases empty <;> simp [hempty, hdir]
    · rw [if_neg (show ¬ a.isDir (renameStart fs a) from hdir)] at h
      cases h
      simp [hdir]

theorem bind_new (hnew : DirWf fs a.newDir) (hold : DirWf fs a.oldDir) (hn : 1 ≤ a.newName.length)
    (hn' : a.newName.length ≤ 255) (hi : a.oldIno ≠ 0) (hi' : a.oldIno < 256 ^ 8)
    (hzero : pmfsInodeByName (fs.data a.newDir) a.newName = 0) :
    (CanBind fs a env ∧ ∃ D', Rebound a.newName a.oldIno ((renameStart fs a).data a.newDir) D' ∧
      addEntry (renameStart fs a) a.newDir a.newName a.oldIno env.grow =
        some ((renameStart fs a).setData a.newDir D', none)) ∨
    (¬ CanBind fs a env ∧ ∃ err, addEntry (renameStart fs a) a.newDir a.newName a.oldIno env.grow =
      some (renameStart fs a, some err)) := by
  have hwf := start_dirWf a hnew
  have hzero' := ((start_unchanged hnew hold).1 a.newDir a.newName hn hn').trans hzero
  have hcan : CanBind fs a env ↔ HasRoom ((renameStart fs a).data a.newDir) a.newName ∨
      ∃ g, env.grow = .ok g := by
    rw [start_room]
    exact or_iff_right fun hne => hne hzero
  unfold addEntry
  rcases addEntry_spec env.grow hwf.1 hn hn' hi' hi with
    ⟨D', hrun, hwf', hlive, hroom⟩ | ⟨err, hgrow, hrun, hfull⟩
  · left
    rw [hrun]
    have hno := (lookup_eq_zero_iff hwf.1 hn hn').mp hzero'
    exact ⟨hcan.mpr hroom, D', rebound_of_add hwf.1 hwf.2 hno hi hwf' hlive, rfl⟩
  · right
    rw [hrun]
    refine ⟨fun hcon => (hcan.mp hcon).elim hfull fun ⟨g, hg⟩ => ?_, err, ?_⟩
    · simp [hgrow] at hg
    dsimp only [Option.map_some]
    rw [setData_self]

variable (env) in
theorem bind_spec (hnew : DirWf fs a.newDir) (hold : DirWf fs a.oldDir) (hn : 1 ≤ a.newName.length)
    (hn' : a.newName.length ≤ 255) (hi : a.oldIno ≠ 0) (hi' : a.oldIno < 256 ^ 8) :
    (CanBind fs a env ∧ ∃ D', Rebound a.newName a.oldIno ((renameStart fs a).data a.newDir) D' ∧
      renameBind (renameStart fs a) a (findEntry (fs.data a.newDir) a.newName) env =
        some ((renameStart fs a).setData a.newDir D', none)) ∨
    (¬ CanBind fs a env ∧ ∃ err,
      renameBind (renameStart fs a) a (findEntry (fs.data a.newDir) a.newName) env =
        some (renameStart fs a, some err)) := by
  have hwf := start_dirWf a hnew
  cases hfind : findEntry (fs.data a.newDir) a.newName with
  | found k o =>
    left
    obtain ⟨b, prev, hb, hsearch⟩ := findEntry_found hfind
    have hb' : ((renameStart fs a).data a.newDir).blk k = some b :=
      (congrFun (start_data a _).1 k).trans hb
    obtain ⟨M, j, hlive, hlive', hwf'⟩ := overwrite_live hwf.1 hb' hsearch hi' hi
    have hover : overwrite ((renameStart fs a).data a.newDir) (.found k o) a.oldIno =
        ((renameStart fs a).data a.newDir).setBlk k (put b o 8 a.oldIno) := by
      unfold overwrite
      dsimp only
      rw [hb']
      rfl
    refine ⟨Or.inl ?_, _, rebound_of_overwrite hwf.1 hwf.2 hi hwf' hlive hlive', ?_⟩
    · obtain ⟨-, -, -, -, his, -⟩ := search_live hnew.1 hb hsearch
      unfold pmfsInodeByName
      rw [hfind]
      dsimp only
      rw [hb]
      exact his.1
    · unfold renameBind
      rw [hover]
  | stop | nothing | endless =>
    refine bind_new hnew hold hn hn' hi hi' ?_
    unfold pmfsInodeByName
    rw [hfind]

/-- The old name cannot be removed once the new one is bound: then neither is it there before. -/
theorem unbind_spec {D' : Dir} (hold : DirWf fs a.oldDir) (hnew : DirWf fs a.newDir)
    (ho : 1 ≤ a.oldName.length) (ho' : a.oldName.length ≤ 255) (hi : a.oldIno ≠ 0)
    (hD : Rebound a.newName a.oldIno ((renameStart fs a).data a.newDir) D') {fs2 : Fs} {err : Errno}
    (hrun : removeEntry ((renameStart fs a).setData a.newDir D') a.oldDir a.oldName =
    (fs2, some err)) : fs2 = (renameStart fs a).setData a.newDir D' ∧
    pmfsInodeByName (fs.data a.oldDir) a.oldName = 0 ∧
      ¬ (a.oldDir = a.newDir ∧ a.oldName = a.newName) := by
  generalize hF : (renameStart fs a).setData a.newDir D' = F at hrun
  have hwf : WfDir (F.data a.oldDir) := by
    rw [← hF]
    by_cases heq : a.oldDir = a.newDir
    · rw [heq, setData_data_self]
      exact hD.wf
    · rw [setData_data_of_ne heq]
      exact (start_dirWf a hold).1
  unfold removeEntry at hrun
  rcases removeEntry_spec hwf ho with ⟨hfail, hno⟩ | ⟨D2, j, hok, -⟩
  · rw [hfail] at hrun
    have hlook : pmfsInodeByName (F.data a.oldDir) a.oldName = 0 :=
      (lookup_eq_zero_iff hwf ho ho').mpr hno
    have hbefore : ∀ {e : ℕ}, e = a.oldDir → pmfsInodeByName ((renameStart fs a).data e) a.oldName =
        pmfsInodeByName (fs.data e) a.oldName :=
      fun _ => (start_unchanged hnew hold).1 _ a.oldName ho ho'
    refine ⟨?_, ?_⟩
    · cases hrun
      exact setData_self
    rw [← hF] at hlook
    by_cases heq : a.oldDir = a.newDir
    · rw [heq, setData_data_self, hD.lookup a.oldName ho ho'] at hlook
      have hname : a.oldName ≠ a.newName := by
        intro hname
        rw [hname, update_self] at hlook
        exact hi hlook
      rw [update_of_ne hname, hbefore heq.symm] at hlook
      exact ⟨heq ▸ hlook, fun hcon => hname hcon.2⟩
    · rw [setData_data_of_ne heq, hbefore rfl] at hlook
      exact ⟨hlook, fun hcon => heq hcon.1⟩
  · rw [hok] at hrun
    simp at hrun

/-- Binding the new name changes nothing if it was for the old inode already. -/
theorem bound_unchanged_iff {D' : Dir} (hstart : Unchanged fs (renameStart fs a))
    (hn : 1 ≤ a.newName.length) (hn' : a.newName.length ≤ 255)
    (hD : Rebound a.newName a.oldIno ((renameStart fs a).data a.newDir) D') :
    Unchanged fs ((renameStart fs a).setData a.newDir D') ↔
      pmfsInodeByName (fs.data a.newDir) a.newName = a.oldIno := by
  have hbefore := hstart.1 a.newDir a.newName hn hn'
  constructor
  · intro hsame
    have hafter := hsame.1 a.newDir a.newName hn hn'
    rw [setData_data_self, hD.lookup a.newName hn hn', update_self] at hafter
    exact hafter.symm
  · intro heq
    refine hstart.trans (unchanged_setData fun n h1 h2 => ?_)
    rw [hD.lookup n h1 h2]
    by_cases hname : n = a.newName
    · rw [hname, update_self, hbefore, heq]
    · rw [update_of_ne hname]

/-- Where a rename can fail: before anything but hints has changed, or at the old name. -/
theorem rename_fails {err : Errno} (hold : DirWf fs a.oldDir) (hnew : DirWf fs a.newDir)
    (hargs : (Change.rename a).Args) (hrun : pmfsRename fs a env = some (fs', some err)) :
    (fs' = renameStart fs a ∧ ¬ (env.trans = none ∧ Passes fs a ∧ CanBind fs a env)) ∨
    (env.trans = none ∧ Passes fs a ∧ CanBind fs a env ∧
      (∃ D', Rebound a.newName a.oldIno ((renameStart fs a).data a.newDir) D' ∧
        fs' = (renameStart fs a).setData a.newDir D') ∧
      pmfsInodeByName (fs.data a.oldDir) a.oldName = 0 ∧
      ¬ (a.oldDir = a.newDir ∧ a.oldName = a.newName)) := by
  obtain ⟨⟨ho, ho'⟩, ⟨hn, hn'⟩, hi, hi'⟩ := hargs
  rcases rename_cases hrun with ⟨-, rfl, htrans | ⟨e, hcheck⟩⟩ | ⟨htrans, hcheck, fs1,
    e, hrun', hrest⟩
  · exact Or.inl ⟨rfl, fun hcon => htrans hcon.1⟩
  · exact Or.inl ⟨rfl, fun hcon => absurd ((check_iff hcheck).mpr hcon.2.1) (by simp)⟩
  have hpass := (check_iff hcheck).mp rfl
  rcases bind_spec env hnew hold hn hn' hi hi' with ⟨hcan, D', hD, hbind⟩ | ⟨hcan, err', hbind⟩
  · cases hbind.symm.trans hrun'
    rcases hrest with ⟨hne, -⟩ | ⟨-, ⟨-, hremove⟩ | ⟨hnone, -⟩⟩
    · exact absurd rfl hne
    · obtain ⟨rfl, hgone, hother⟩ := unbind_spec hold hnew ho ho' hi hD hremove
      exact Or.inr ⟨htrans, hpass, hcan, ⟨D', hD, rfl⟩, hgone, hother⟩
    · simp at hnone
  · cases hbind.symm.trans hrun'
    rcases hrest with ⟨-, -, rfl⟩ | ⟨hnone, -⟩
    · exact Or.inl ⟨rfl, fun hcon => hcan hcon.2.2⟩
    · simp at hnone

theorem rename_unchanged_iff {err : Errno} (hold : DirWf fs a.oldDir) (hnew : DirWf fs a.newDir)
    (hargs : (Change.rename a).Args) (hrun : pmfsRename fs a env = some (fs', some err)) :
    Unchanged fs fs' ↔ ¬ (Change.rename a).HalfDone fs env := by
  have hstart := start_unchanged hnew hold
  rcases rename_fails hold hnew hargs hrun with ⟨rfl, hnot⟩ | ⟨htrans, hpass, hcan,
    ⟨D', hD, rfl⟩, hgone⟩
  · exact iff_of_true hstart fun hhalf => hnot ⟨hhalf.1, hhalf.2.1, hhalf.2.2.1⟩
  · rw [bound_unchanged_iff hstart hargs.2.1.1 hargs.2.1.2 hD]
    constructor
    · intro heq hhalf
      exact hhalf.2.2.2.1 heq
    · intro hsafe
      by_contra hne
      exact hsafe ⟨htrans, hpass, hcan, hne, hgone⟩

end

/-! ### The other calls -/

theorem link_unchanged {err : Errno} (h : WfDir (fs.data d)) (hn : 1 ≤ n.length)
    (hn' : n.length ≤ 255) (hi : i ≠ 0) (hi' : i < 256 ^ 8)
    (hrun : pmfsLink fs i d n env = some (fs', some err)) : fs' = fs := by
  rcases link_cases hrun with ⟨-, heq⟩ | ⟨-, fs1, hadd, rfl⟩
  · exact heq
  unfold addEntry at hadd
  rcases addEntry_spec env.grow h hn hn' hi' hi with ⟨D', hrun', -⟩ | ⟨err', -, hrun', -⟩
  · rw [hrun'] at hadd
    simp at hadd
  · rw [hrun'] at hadd
    cases hadd
    exact setData_self

/-- `pmfs_remove_entry` fails in a well-formed directory. -/
theorem remove_fails {err : Errno} (h : WfDir (fs.data d)) (hn : 1 ≤ n.length)
    (hrun : removeEntry fs d n = (fs', some err)) : fs' = fs := by
  unfold removeEntry at hrun
  rcases removeEntry_spec h hn with ⟨hfail, -⟩ | ⟨D', j, hok, -⟩
  · rw [hfail] at hrun
    cases hrun
    exact setData_self
  · rw [hok] at hrun
    simp at hrun

theorem unlink_unchanged {err : Errno} (h : WfDir (fs.data d)) (hn : 1 ≤ n.length)
    (hrun : pmfsUnlink fs d n i env = (fs', some err)) : fs' = fs := by
  rcases unlink_cases hrun with ⟨-, heq | hremove⟩ | ⟨hnone, -⟩
  · exact heq
  · exact remove_fails h hn hremove
  · simp at hnone

theorem rmdir_fails {err : Errno} (h : DirWf fs d) (hn : 1 ≤ n.length)
    (hrun : pmfsRmdir fs d n i env = some (fs', some err)) : fs' = lookUp fs d n := by
  rcases rmdir_cases hrun with ⟨-, heq | hremove⟩ | ⟨hnone, -⟩
  · exact heq
  · exact remove_fails (lookUp_dirWf h n).1 hn hremove
  · simp at hnone

/-- **Failed calls change nothing**, but for `pmfs_rename` when it has bound the new name and the
old name is not there. -/
theorem unchanged_iff (c : Change) {err : Errno} (hdirs : ∀ d ∈ c.dirs, DirWf fs d) (hargs : c.Args)
    (hrun : c.exec fs env = some (fs', some err)) : Unchanged fs fs' ↔ ¬ c.HalfDone fs env := by
  cases c with
  | link i d n =>
    have hwf := hdirs d List.mem_cons_self
    obtain rfl := link_unchanged hwf.1 hargs.1 hargs.2.1 hargs.2.2.1 hargs.2.2.2 hrun
    exact iff_of_true Unchanged.refl not_false
  | unlink d n i =>
    have hwf := hdirs d List.mem_cons_self
    obtain rfl := unlink_unchanged hwf.1 hargs.1 (Option.some.inj hrun)
    exact iff_of_true Unchanged.refl not_false
  | rmdir d n i =>
    have hwf := hdirs d List.mem_cons_self
    obtain rfl := rmdir_fails hwf hargs.1 hrun
    exact iff_of_true (lookUp_unchanged hwf n) not_false
  | rename a =>
    have hnew := hdirs a.newDir List.mem_cons_self
    have hold := hdirs a.oldDir (List.mem_cons_of_mem _ List.mem_cons_self)
    exact rename_unchanged_iff hold hnew hargs hrun

theorem dirWf_of_rep (h : Rep fs t) (hd : FsDir fs d) : DirWf fs d :=
  ⟨(h.names d (h.isDir.mp hd)).ok.wf, (h.names d (h.isDir.mp hd)).ok.unique⟩

/-- The directories `a`, `a/b` and `c`, and a file in `c`. -/
def nested : List Op :=
  [.mkdir 128 [0x61] (plainEnv 384), .mkdir 384 [0x62] (plainEnv 512),
    .mkdir 128 [0x63] (plainEnv 640), .create 640 [0x64] (plainEnv 768)]

/-- The directory `a/b` cannot replace `c`, which is not empty. -/
theorem unchanged_iff_rename : ∃ fs ∈ runOps (fun _ _ => True) pmfsInit nested,
    ∃ fs', Change.exec fs (plainEnv 0) (.rename ⟨384, [0x62], 512, 128, [0x63], some 640⟩) =
      some (fs', some .ENOTEMPTY) ∧ Unchanged fs fs' := by
  obtain ⟨fs, hops, ⟨fs', err⟩, hrun, rfl, hroot, hsub, hold⟩ : ∃ fs ∈
    runOps (fun _ _ => True) pmfsInit nested,
      ∃ r ∈ Change.exec fs (plainEnv 0) (.rename ⟨384, [0x62], 512, 128, [0x63], some 640⟩),
        r.2 = some .ENOTEMPTY ∧ ((fs.inode 128).kind = some .dir ∧ (fs.inode 128).links ≠ 0) ∧
          ((fs.inode 384).kind = some .dir ∧ (fs.inode 384).links ≠ 0) ∧
          pmfsInodeByName (fs.data 384) [0x62] ≠ 0 := by decide +kernel
  obtain ⟨t, hrep, -⟩ := runOps_acts rep_init hops
  refine ⟨fs, hops, fs', hrun, (unchanged_iff (.rename _) (fun d hd => ?_)
    ⟨by decide, by decide, by decide, by decide⟩ hrun).mpr fun hhalf => ?_⟩
  · obtain rfl | rfl : d = 128 ∨ d = 384 := by simpa [Change.dirs] using hd
    · exact dirWf_of_rep hrep hroot
    · exact dirWf_of_rep hrep hsub
  · exact hold hhalf.2.2.2.2.1

/-- The old name is not there: `pmfs_rename` fails, and the inode has one name more. -/
theorem name_left : ∃ fs ∈ runOps (fun _ _ => True) pmfsInit [.create 128 [0x61] (plainEnv 384)],
    ∃ r ∈ Change.exec fs (plainEnv 0) (.rename ⟨128, [0x62], 384, 128, [0x63], none⟩),
      r.2 = some .EINVAL ∧ pmfsInodeByName (fs.data 128) [0x63] = 0 ∧
        pmfsInodeByName (r.1.data 128) [0x63] = 384 := by
  decide +kernel

end Pmfs.Namei.Failures
