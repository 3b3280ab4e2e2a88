import Pmfs.Namei.Refine

/-! # Link counts and parents along runs

A run is a sequence of calls that return 0, with inodes evicted in between. Link counts stay exact
along a run in which no directory replaces another (`links_match`): `pmfs_rename` does not take the
link of the old parent then (`link_kept`). `..` stays right along a run in which no directory moves
to another parent (`parents_match`): `pmfs_rename` leaves `..` as it was (`parent_stale`). -/

namespace Pmfs.Namei.Runs

open Block.Model Dirs.Model Dirs.Spec Dirs.Dots Function
open Namei.Model Namei.Entries Namei.Binding Namei.Refine

/-! ### Calls -/

/-- The calls, and the eviction of an inode. -/
inductive Op where
  | create (d : ℕ) (n : Name) (env : Env)
  | mknod (d : ℕ) (n : Name) (env : Env)
  | symlink (d : ℕ) (n : Name) (len : ℕ) (env : Env)
  | link (i d : ℕ) (n : Name) (env : Env)
  | unlink (d : ℕ) (n : Name) (i : ℕ) (env : Env)
  | mkdir (d : ℕ) (n : Name) (env : Env)
  | rmdir (d : ℕ) (n : Name) (i : ℕ) (env : Env)
  | rename (a : RenameArgs) (env : Env)
  | evict (i : ℕ) (free : Option Errno)

def Op.exec (fs : Fs) : Op → Result
  | create d n env => pmfsCreate fs d n env
  | mknod d n env => pmfsMknod fs d n env
  | symlink d n len env => pmfsSymlink fs d n len env
  | link i d n env => pmfsLink fs i d n env
  | unlink d n i env => some (pmfsUnlink fs d n i env)
  | mkdir d n env => pmfsMkdir fs d n env
  | rmdir d n i env => pmfsRmdir fs d n i env
  | rename a env => pmfsRename fs a env
  | evict i free => some (pmfsEvictInode fs i free, none)

/-- What the VFS sees to before a call: names are there, or not, as the dentries say, and the inodes
are of the right sort. The inode that `pmfs_new_inode` finds is free. -/
def Op.Valid (fs : Fs) : Op → Prop
  | create d n env | mknod d n env | symlink d n _ env | mkdir d n env =>
    Absent fs d n ∧ ∀ i, env.new = .ok i → FreeInode fs i
  | link i d n _ => Absent fs d n ∧ (fs.inode i).kind ≠ some .dir ∧ (fs.inode i).links ≠ 0
  | unlink d n i _ => Present fs d n i ∧ (fs.inode i).kind ≠ some .dir
  | rmdir d n i _ => Present fs d n i ∧ (fs.inode i).kind = some .dir
  | rename a _ => RenameOk fs a
  | evict _ _ => True

/-- A call with the property `P` that returns 0. -/
def Step (P : Fs → Op → Prop) (fs fs' : Fs) : Prop :=
  ∃ op : Op, op.Valid fs ∧ P fs op ∧ op.exec fs = some (fs', none)

/-- A directory takes the place of another. -/
def Op.ReplacesDir (fs : Fs) : Op → Prop
  | rename a _ => a.isDir fs ∧ a.newIno ≠ none
  | _ => False

/-- A directory moves to another parent. -/
def Op.MovesDir (fs : Fs) : Op → Prop
  | rename a _ => a.isDir fs ∧ a.oldDir ≠ a.newDir
  | _ => False

variable {fs fs' : Fs} {t : Tree} {op : Op}

/-- The action that a call which returns 0 is for. `pmfs_create` and `pmfs_mknod` return 0 as well
when there is no inode. -/
def Op.action : Op → Option Action
  | create d n env => env.new.toOption.map (.create d n · .reg)
  | mknod d n env => env.new.toOption.map (.create d n · .special)
  | symlink d n _ env => env.new.toOption.map (.create d n · .lnk)
  | link i d n _ => some (.link d n i)
  | unlink d n i _ => some (.unlink d n i)
  | mkdir d n env => env.new.toOption.map (.mkdir d n ·)
  | rmdir d n i _ => some (.rmdir d n i)
  | rename a _ => some <| match a.newIno with
    | none => .rename a.oldDir a.oldName a.oldIno a.newDir a.newName
    | some j => .replace a.oldDir a.oldName a.oldIno a.newDir a.newName j
  | evict _ _ => none

theorem op_sim (h : Rep fs t) (hv : op.Valid fs) (hrun : op.exec fs = some (fs', none)) :
    op.action = none ∧ Rep fs' t ∨ ∃ a : Action, op.action = some a ∧ a.Ok t ∧ Rep fs' (a.apply t) ∧
      (¬ op.ReplacesDir fs → ∀ d n i d' n' j, a = .replace d n i d' n' j → t.kind i ≠ some .dir) ∧
      (¬ op.MovesDir fs → a.Stays t) := by
  cases op with
  | create d n env | mknod d n env =>
    rcases create_sim h hv.1 hv.2 (by decide) hrun with ⟨rfl, hno⟩ | ⟨i, hi, hok, hrep⟩
    · exact Or.inl ⟨by rw [Op.action, hno]; rfl, h⟩
    · exact Or.inr ⟨_, by rw [Op.action, hi]; rfl, hok, hrep, fun _ => by simp, fun _ => trivial⟩
  | symlink d n len env =>
    obtain ⟨i, hi, hok, hrep⟩ := symlink_sim h hv.1 hv.2 hrun
    exact Or.inr ⟨_, by rw [Op.action, hi]; rfl, hok, hrep, fun _ => by simp, fun _ => trivial⟩
  | link i d n env =>
    obtain ⟨hok, hrep⟩ := link_sim h hv.1 hv.2.1 hv.2.2 hrun
    exact Or.inr ⟨_, rfl, hok, hrep, fun _ => by simp, fun _ => trivial⟩
  | unlink d n i env =>
    obtain ⟨hok, hrep⟩ := unlink_sim h hv.1 hv.2 (Option.some.inj hrun)
    exact Or.inr ⟨_, rfl, hok, hrep, fun _ => by simp, fun _ => trivial⟩
  | mkdir d n env =>
    obtain ⟨i, hi, hok, hrep⟩ := mkdir_sim h hv.1 hv.2 hrun
    exact Or.inr ⟨_, by rw [Op.action, hi]; rfl, hok, hrep, fun _ => by simp, fun _ => trivial⟩
  | rmdir d n i env =>
    obtain ⟨hok, hrep⟩ := rmdir_sim h hv.1 hv.2 hrun
    exact Or.inr ⟨_, rfl, hok, hrep, fun _ => by simp, fun _ => trivial⟩
  | rename a env =>
    have hstay : ¬ (Op.rename a env).MovesDir fs → t.kind a.oldIno = some .dir →
        a.oldDir = a.newDir := by
      intro hsafe hk
      by_contra hne
      exact hsafe ⟨(isDir_iff h.counts).mpr hk, hne⟩
    cases hnew : a.newIno with
    | none =>
      obtain ⟨hok, hrep⟩ := rename_sim h hv hnew hrun
      exact Or.inr ⟨_, by rw [Op.action, hnew], hok, hrep, fun _ => by simp, hstay⟩
    | some j =>
      obtain ⟨hok, hrep⟩ := replace_sim h hv hnew hrun
      refine Or.inr ⟨_, by rw [Op.action, hnew], hok, hrep,
        fun hsafe d n i d' n' j' heq hk => hsafe ⟨?_, by simp [hnew]⟩, hstay⟩
      obtain ⟨-, -, rfl, -⟩ := Action.replace.inj heq
      exact (isDir_iff h.counts).mpr hk
  | evict i free =>
    cases hrun
    exact Or.inl ⟨rfl, evict_sim _ h⟩

/-! ### Runs that can be evaluated -/

instance (fs : Fs) (d : ℕ) : Decidable (FsDir fs d) := inferInstanceAs (Decidable (_ ∧ _))

instance (n : Name) : Decidable (NameOk n) := inferInstanceAs (Decidable (_ ∧ _ ∧ _ ∧ _))

instance (fs : Fs) (d : ℕ) (n : Name) : Decidable (Absent fs d n) :=
  inferInstanceAs (Decidable (_ ∧ _ ∧ _))

instance (fs : Fs) (d : ℕ) (n : Name) (i : ℕ) : Decidable (Present fs d n i) :=
  inferInstanceAs (Decidable (_ ∧ _ ∧ _ ∧ _))

instance (fs : Fs) (i : ℕ) : Decidable (FreeInode fs i) :=
  inferInstanceAs (Decidable (_ ∧ _ ∧ _ ∧ _))

instance (fs : Fs) (a : RenameArgs) : Decidable (RenameOk fs a) := by
  unfold RenameOk
  cases a.newIno <;> infer_instance

instance (fs : Fs) (env : Env) : Decidable (∀ i, env.new = .ok i → FreeInode fs i) :=
  match h : env.new with
  | .ok i => decidable_of_iff (FreeInode fs i)
      ⟨fun hi j hj => Except.ok.inj hj ▸ hi, fun hall => hall i rfl⟩
  | .error _ => isTrue fun _ hj => by simp at hj

instance (fs : Fs) (op : Op) : Decidable (op.Valid fs) := by
  cases op <;> unfold Op.Valid <;> infer_instance

instance (fs : Fs) (op : Op) : Decidable (op.ReplacesDir fs) := by
  cases op <;> unfold Op.ReplacesDir <;> infer_instance

instance (fs : Fs) (op : Op) : Decidable (op.MovesDir fs) := by
  cases op <;> unfold Op.MovesDir <;> infer_instance

/-- The calls one after the other, as long as they are valid, have the property and return 0. -/
def runOps (P : Fs → Op → Prop) [∀ fs op, Decidable (P fs op)] (fs : Fs) : List Op → Option Fs
  | [] => some fs
  | op :: ops =>
    if op.Valid fs ∧ P fs op then
      match op.exec fs with
      | some (fs', none) => runOps P fs' ops
      | _ => none
    else none

theorem runOps_steps {P : Fs → Op → Prop} [∀ fs op, Decidable (P fs op)] {ops : List Op}
    (h : runOps P fs ops = some fs') : Relation.ReflTransGen (Step P) fs fs' := by
  induction ops generalizing fs with
  | nil =>
    cases h
    exact .refl
  | cons op ops ih =>
    rw [runOps] at h
    split_ifs at h with hv
    split at h
    · rename_i fs1 hexec
      exact .head ⟨op, hv.1, hv.2, hexec⟩ (ih h)
    · simp at h

/-! ### A new file system -/

/-- The tree of a new file system. -/
def emptyTree : Tree where
  entries := ∅
  kind := update (fun _ => none) PMFS_ROOT_INO (some .dir)
  links := update (fun _ => 0) PMFS_ROOT_INO 2
  parent := fun _ => PMFS_ROOT_INO

theorem emptyTree_links {d : ℕ} (h : d ≠ PMFS_ROOT_INO) : emptyTree.links d = 0 := by
  simp [emptyTree, h]

theorem emptyTree_isDir {d : ℕ} (h : emptyTree.IsDir d) : d = PMFS_ROOT_INO := by
  by_contra hne
  exact h.2 (emptyTree_links hne)

theorem good_emptyTree : Good emptyTree := by
  constructor
  · intro d n i j hmem
    exact absurd hmem (Finset.notMem_empty _)
  · intro x hmem
    exact absurd hmem (Finset.notMem_empty _)
  · intro x hmem
    exact absurd hmem (Finset.notMem_empty _)
  · intro x hmem
    exact absurd hmem (Finset.notMem_empty _)
  · intro i hk
    have hne : i ≠ PMFS_ROOT_INO := by
      rintro rfl
      exact hk rfl
    exact emptyTree_links hne
  · intro d hd
    obtain rfl := emptyTree_isDir hd
    show 0 < 2
    omega

theorem exact_emptyTree : Exact emptyTree := by
  intro d hd
  obtain rfl := emptyTree_isDir hd
  rfl

theorem head_rootBlock : Head rootBlock PMFS_ROOT_INO PMFS_ROOT_INO := by
  constructor <;> decide

/-- **A new file system** holds a tree without entries. -/
theorem rep_init : Rep pmfsInit emptyTree := by
  have hfree : Counts (fun _ => ⟨none, 0, 0, false, false, false⟩) (fun _ => none) (fun _ => 0) :=
    ⟨fun _ => rfl, fun _ => rfl, fun _ => rfl, fun _ => Nat.zero_le _⟩
  refine ⟨hfree.set rfl (by decide), fun d hd => ?_, good_emptyTree⟩
  · obtain rfl := emptyTree_isDir hd
    obtain ⟨hok, hlive⟩ := DirOk.one head_rootBlock (by decide) (by decide) (by decide)
    refine ⟨hok, fun n i => ⟨fun hmem => absurd hmem (Finset.notMem_empty _), ?_⟩⟩
    rintro ⟨hmem, h1, h2⟩
    change (n, i) ∈ live ⟨4096, update (fun _ => none) 0 (some rootBlock), 0⟩ at hmem
    rw [hlive] at hmem
    simp only [Multiset.insert_eq_cons, Multiset.mem_cons, Multiset.mem_singleton,
      Prod.mk.injEq] at hmem
    rcases hmem with ⟨rfl, -⟩ | ⟨rfl, -⟩
    · exact absurd rfl h1
    · exact absurd rfl h2

theorem rep_run {P : Fs → Op → Prop} (h : ∃ t, Rep fs t)
    (hrun : Relation.ReflTransGen (Step P) fs fs') : ∃ t, Rep fs' t := by
  induction hrun with
  | refl => exact h
  | tail _ hstep ih =>
    obtain ⟨t, hrep⟩ := ih
    obtain ⟨op, hv, -, hop⟩ := hstep
    rcases op_sim hrep hv hop with ⟨-, hrep'⟩ | ⟨a, -, -, hrep', -⟩
    · exact ⟨t, hrep'⟩
    · exact ⟨_, hrep'⟩

/-! ### Link counts -/

/-- The directory `d`, which is in use, has an entry for `i` other than `.` and `..`. -/
def IsEntry (fs : Fs) (d : ℕ) (n : Name) (i : ℕ) : Prop :=
  FsDir fs d ∧ (n, i) ∈ live (fs.data d) ∧ n ≠ dot ∧ n ≠ dotdot

/-- The link counts on the medium are those of the entries: for an inode that is no directory the
number of its names, for a directory in use 2 plus the number of its subdirectories. -/
def Linked (fs : Fs) : Prop :=
  ∃ E : Finset Ent, (∀ x : Ent, x ∈ E ↔ IsEntry fs x.1 x.2.1 x.2.2) ∧
    (∀ i, (fs.inode i).kind ≠ some .dir → (fs.inode i).links = namesOf E i) ∧
    ∀ d, FsDir fs d → (fs.inode d).links = 2 + subsOf (fun i => (fs.inode i).kind) E d

/-- The file system holds a tree with exact link counts. -/
def Consistent (fs : Fs) : Prop := ∃ t, Rep fs t ∧ Exact t

theorem consistent_init : Consistent pmfsInit := ⟨emptyTree, rep_init, exact_emptyTree⟩

theorem isEntry_iff (h : Rep fs t) {d : ℕ} {n : Name} {i : ℕ} : IsEntry fs d n i ↔
    (d, n, i) ∈ t.entries := by
  constructor
  · rintro ⟨hd, hmem⟩
    exact ((h.names d (h.isDir.mp hd)).iff n i).mpr hmem
  · intro hmem
    have hd := h.good.home _ hmem
    exact ⟨h.isDir.mpr hd, ((h.names d hd).iff n i).mp hmem⟩

theorem Consistent.linked (h : Consistent fs) : Linked fs := by
  obtain ⟨t, hrep, hexact⟩ := h
  have hkind : (fun i => (fs.inode i).kind) = t.kind := funext hrep.counts.kind
  refine ⟨t.entries, fun x => (isEntry_iff hrep).symm, fun i hi => ?_, fun d hd => ?_⟩
  · rw [hrep.counts.links]
    rw [hrep.counts.kind] at hi
    exact hrep.good.file i hi
  · rw [hrep.counts.links, hkind]
    exact hexact d (hrep.isDir.mp hd)

theorem Consistent.step (h : Consistent fs)
    (hstep : Step (fun fs op => ¬ op.ReplacesDir fs) fs fs') :
    Consistent fs' := by
  obtain ⟨t, hrep, hexact⟩ := h
  obtain ⟨op, hv, hsafe, hrun⟩ := hstep
  rcases op_sim hrep hv hrun with ⟨-, hrep'⟩ | ⟨a, -, hok, hrep', hreplace, -⟩
  · exact ⟨t, hrep', hexact⟩
  · exact ⟨_, hrep', exact_apply hrep.good hexact hok (hreplace hsafe)⟩

/-- **Link counts match the names** along every run of successful calls from a consistent state,
such as a new file system, in which no directory replaces another. -/
theorem links_match (h : Consistent fs)
    (hrun : Relation.ReflTransGen (Step fun fs op => ¬ op.ReplacesDir fs) fs fs') : Linked fs' := by
  refine Consistent.linked ?_
  induction hrun with
  | refl => exact h
  | tail _ hstep ih => exact ih.step hstep

/-- What the other parts do in the runs below. -/
def plainEnv (i : ℕ) : Env := ⟨none, .ok i, .error .ENOSPC, .ok fun _ => 0, none, none⟩

/-- A directory and a file are made, the file gets a second name and the directory another name. -/
theorem links_match_four :
    ∃ fs, Relation.ReflTransGen (Step fun fs op => ¬ op.ReplacesDir fs) pmfsInit fs ∧
    (fs.inode 128).links = 3 ∧ (fs.inode 512).links = 2 ∧ Linked fs := by
  obtain ⟨fs, hrun, hroot, hfile⟩ : ∃ fs ∈ runOps (fun fs op => ¬ op.ReplacesDir fs) pmfsInit
      [.mkdir 128 [0x61] (plainEnv 384), .create 128 [0x62] (plainEnv 512),
        .link 512 384 [0x63] (plainEnv 0), .rename ⟨128, [0x61], 384, 128, [0x64],
        none⟩ (plainEnv 0)],
      (fs.inode 128).links = 3 ∧ (fs.inode 512).links = 2 := by decide +kernel
  have hsteps := runOps_steps hrun
  exact ⟨fs, hsteps, hroot, hfile, links_match consistent_init hsteps⟩

/-- A directory with matching links has an entry for each link over 2. -/
theorem Linked.links_le {d : ℕ} (h : Linked fs) (hd : FsDir fs d) : (fs.inode d).links ≤
    2 + ((live (fs.data d)).toFinset.filter fun e => e.1 ≠ dot ∧ e.1 ≠ dotdot).card := by
  obtain ⟨E, hE, -, hdir⟩ := h
  rw [hdir d hd]
  refine Nat.add_le_add_left ?_ 2
  refine Finset.card_le_card_of_injOn (fun x => x.2) ?_ ?_
  · intro x hx
    obtain ⟨hmem, rfl, -⟩ := Finset.mem_filter.mp hx
    obtain ⟨-, hlive, hname⟩ := (hE x).mp hmem
    exact Finset.mem_coe.mpr (Finset.mem_filter.mpr ⟨Multiset.mem_toFinset.mpr hlive, hname⟩)
  · intro x hx y hy heq
    obtain ⟨-, rfl, -⟩ := Finset.mem_filter.mp hx
    obtain ⟨-, hy', -⟩ := Finset.mem_filter.mp hy
    exact Prod.ext hy'.symm heq

/-- Two directories are made, and the first is renamed to the second. The root has one subdirectory,
but its link count is still 4. -/
theorem link_kept : ∃ fs, Relation.ReflTransGen (Step fun _ _ => True) pmfsInit fs ∧
    ¬ Linked fs := by
  obtain ⟨fs, hrun, hd, hlinks, hcard⟩ : ∃ fs ∈ runOps (fun _ _ => True) pmfsInit
      [.mkdir 128 [0x61] (plainEnv 384), .mkdir 128 [0x62] (plainEnv 512),
        .rename ⟨128, [0x61], 384, 128, [0x62], some 512⟩ (plainEnv 0)],
      FsDir fs 128 ∧ (fs.inode 128).links = 4 ∧
        ((live (fs.data 128)).toFinset.filter fun e => e.1 ≠ dot ∧ e.1 ≠ dotdot).card = 1 := by
        decide +kernel
  refine ⟨fs, runOps_steps hrun, fun hlinked => ?_⟩
  have := hlinked.links_le hd
  omega

/-! ### Parents -/

/-- The directory that has the name of a directory in use is what `..` is for in it. -/
def ParentsMatch (fs : Fs) : Prop := ∀ d n i, IsEntry fs d n i → (fs.inode i).kind = some .dir →
  (dotdot, d) ∈ live (fs.data i) ∧ pmfsGetParent fs i = d

theorem parentsMatch_of_rep (h : Rep fs t) (hparents : Parents t) : ParentsMatch fs := by
  intro d n i hentry hk
  rw [h.counts.kind] at hk
  have hmem := (isEntry_iff h).mp hentry
  have hok := (h.names i ⟨hk, h.good.target _ hmem hk⟩).ok
  have hparent : t.parent i = d := hparents _ hmem hk
  have hlook := hok.lookup_parent
  refine ⟨?_, hlook.trans hparent⟩
  rw [← hparent]
  exact (lookup_eq_iff hok.wf hok.unique (by decide) (by decide) hok.parent).mp hlook

/-- **`..` is for the parent** along every run of successful calls on a new file system in which no
directory moves to another parent. -/
theorem parents_match (hrun : Relation.ReflTransGen (Step fun fs op =>
    ¬ op.MovesDir fs) pmfsInit fs) :
    ParentsMatch fs := by
  have hinv : ∃ t, Rep fs t ∧ Parents t := by
    induction hrun with
    | refl => exact ⟨emptyTree, rep_init, fun x hx => absurd hx (Finset.notMem_empty x)⟩
    | tail _ hstep ih =>
      obtain ⟨t, hrep, hparents⟩ := ih
      obtain ⟨op, hv, hsafe, hop⟩ := hstep
      rcases op_sim hrep hv hop with ⟨-, hrep'⟩ | ⟨a, -, hok, hrep', -, hstay⟩
      · exact ⟨t, hrep', hparents⟩
      · exact ⟨_, hrep', parents_apply hrep.good hparents hok (hstay hsafe)⟩
  obtain ⟨t, hrep, hparents⟩ := hinv
  exact parentsMatch_of_rep hrep hparents

/-- A directory in another, with a new name. -/
theorem parents_match_two :
    ∃ fs, Relation.ReflTransGen (Step fun fs op => ¬ op.MovesDir fs) pmfsInit fs ∧
    (fs.inode 512).kind = some .dir ∧ ParentsMatch fs := by
  obtain ⟨fs, hrun, hk⟩ : ∃ fs ∈ runOps (fun fs op => ¬ op.MovesDir fs) pmfsInit
      [.mkdir 128 [0x61] (plainEnv 384), .mkdir 384 [0x62] (plainEnv 512),
        .rename ⟨384, [0x62], 512, 384, [0x63], none⟩ (plainEnv 0)],
      (fs.inode 512).kind = some .dir := by decide +kernel
  have hsteps := runOps_steps hrun
  exact ⟨fs, hsteps, hk, parents_match hsteps⟩

/-- Two directories are made, and the second is moved into the first. Its parent is still the root.
-/
theorem parent_stale : ∃ fs, Relation.ReflTransGen (Step fun _ _ => True) pmfsInit fs ∧
    IsEntry fs 384 [0x62] 512 ∧ (fs.inode 512).kind = some .dir ∧ pmfsGetParent fs 512 = 128 := by
  obtain ⟨fs, hrun, hprops⟩ : ∃ fs ∈ runOps (fun _ _ => True) pmfsInit
      [.mkdir 128 [0x61] (plainEnv 384), .mkdir 128 [0x62] (plainEnv 512),
        .rename ⟨128, [0x62], 512, 384, [0x62], none⟩ (plainEnv 0)],
      (FsDir fs 384 ∧ ([0x62], 512) ∈ live (fs.data 384) ∧ [(0x62 : UInt8)] ≠ dot ∧
      [0x62] ≠ dotdot) ∧
        (fs.inode 512).kind = some .dir ∧ pmfsGetParent fs 512 = 128 := by decide +kernel
  exact ⟨fs, runOps_steps hrun, hprops⟩

/-! ### The names of a run -/

/-- What an action is for, in terms of names alone. -/
def Action.names (E : Finset Ent) : Action → Finset Ent
  | .create d n i _ | .link d n i | .mkdir d n i => insert (d, n, i) E
  | .unlink d n i | .rmdir d n i => E.erase (d, n, i)
  | .rename d n i d' n' => insert (d', n', i) (E.erase (d, n, i))
  | .replace d n i d' n' j => insert (d', n', i) ((E.erase (d, n, i)).erase (d', n', j))

/-- The types of inodes after an action. -/
def Action.kinds (κ : ℕ → Option Kind) : Action → ℕ → Option Kind
  | .create _ _ i k => update κ i (some k)
  | .mkdir _ _ i => update κ i (some .dir)
  | _ => κ

/-- A run does the actions that its calls are for, one after the other. -/
theorem runOps_acts {P : Fs → Op → Prop} [∀ fs op, Decidable (P fs op)]
    {ops : List Op} (h : Rep fs t) (hrun : runOps P fs ops = some fs') : ∃ t', Rep fs' t' ∧
      t'.entries = (ops.filterMap Op.action).foldl Action.names t.entries ∧
      t'.kind = (ops.filterMap Op.action).foldl Action.kinds t.kind := by
  induction ops generalizing fs t with
  | nil =>
    cases hrun
    exact ⟨t, h, rfl, rfl⟩
  | cons op ops ih =>
    rw [runOps] at hrun
    split_ifs at hrun with hv
    split at hrun
    · rename_i fs1 hexec
      rcases op_sim h hv.1 hexec with ⟨hnone, hrep⟩ | ⟨a, hsome, -, hrep, -⟩
      · rw [List.filterMap_cons_none hnone]
        exact ih hrep hrun
      · rw [List.filterMap_cons_some hsome]
        obtain ⟨t', hrep', hentries, hkind⟩ := ih hrep hrun
        refine ⟨t', hrep', hentries.trans ?_, hkind.trans ?_⟩ <;> cases a <;> rfl
    · simp at hrun

/-- **Main result.** After a run on a new file system, the directories have just the names that the
actions of its calls, one after the other, leave of none, and the inodes the types. -/
theorem names_of_calls {ops : List Op} (hrun : runOps (fun _ _ => True) pmfsInit ops = some fs) :
    (∀ d n i, IsEntry fs d n i ↔ (d, n, i) ∈ (ops.filterMap Op.action).foldl Action.names ∅) ∧
      ∀ i, (fs.inode i).kind = (ops.filterMap Op.action).foldl Action.kinds emptyTree.kind i := by
  obtain ⟨t, hrep, hentries, hkind⟩ := runOps_acts rep_init hrun
  exact ⟨fun d n i => by rw [isEntry_iff hrep, hentries]; rfl,
    fun i => by rw [hrep.counts.kind, hkind]⟩

/-- A file is made in a new directory, gets a second name and loses the first one. -/
theorem names_of_calls_four : ∃ fs, IsEntry fs 128 [0x63] 512 ∧ ¬ IsEntry fs 384 [0x62] 512 ∧
    (fs.inode 384).kind = some .dir := by
  obtain ⟨fs, hrun⟩ := Option.isSome_iff_exists.mp (show (runOps (fun _ _ => True) pmfsInit
    [.mkdir 128 [0x61] (plainEnv 384), .create 384 [0x62] (plainEnv 512),
    .link 512 128 [0x63] (plainEnv 0),
      .unlink 384 [0x62] 512 (plainEnv 0)]).isSome = true by decide +kernel)
  obtain ⟨hnames, hkind⟩ := names_of_calls hrun
  exact ⟨fs, (hnames _ _ _).mpr (by decide),
    fun hcon => absurd ((hnames _ _ _).mp hcon) (by decide), (hkind 384).trans (by decide)⟩

end Pmfs.Namei.Runs
