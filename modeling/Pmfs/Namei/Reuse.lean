import Pmfs.Namei.Runs

/-! # Inodes become free again

`pmfs_evict_inode` makes the slot of an inode that has lost its last link free, so that
`pmfs_new_inode` takes it again, unless the inode is a device, a pipe or a socket, or a directory
that `pmfs_rename` has replaced and whose link count was over 2 (`reusable_iff`). What a call does
to inodes that it does not name is said once (`exec_changes`), for calls that fail as well. -/

namespace Pmfs.Namei.Reuse

open Block.Model Dirs.Model Function
open Namei.Model Namei.Binding Namei.Refine Namei.Runs

/-! ### What a call does to inodes -/

/-- The inode is not append-only or immutable, and if it has links, it has a type and has not been
freed. -/
def Sound (x : Inode) : Prop := x.fixed = false ∧ (x.nlink ≠ 0 → x.kind ≠ none ∧ x.dtime = false)

/-- Inodes that are not in `S` stay as they are, and all stay sound. -/
structure Changes (S : Set ℕ) (fs fs' : Fs) : Prop where
  frame : ∀ i ∉ S, fs'.inode i = fs.inode i
  sound : (∀ i, Sound (fs.inode i)) → ∀ i, Sound (fs'.inode i)

variable {S : Set ℕ} {fs fs' fs1 fs2 : Fs} {d i j l : ℕ} {n : Name} {k : Kind} {env : Env}
  {a : RenameArgs}
variable {err : Option Errno} {op : Op}

theorem Changes.of_eq (h : fs'.inode = fs.inode) : Changes S fs fs' :=
  ⟨fun i _ => congrFun h i, fun hall i => h ▸ hall i⟩

theorem Changes.trans (h : Changes S fs fs1) (h' : Changes S fs1 fs2) : Changes S fs fs2 :=
  ⟨fun i hi => (h'.frame i hi).trans (h.frame i hi), fun hall => h'.sound (h.sound hall)⟩

theorem Changes.set {x : Inode} (hi : i ∈ S) (h : fs'.inode = update fs.inode i x)
    (hx : Sound (fs.inode i) → Sound x) : Changes S fs fs' := by
  constructor
  · intro e he
    have hne : e ≠ i := fun heq => he (heq ▸ hi)
    rw [h, update_of_ne hne]
  · intro hall e
    rw [h]
    by_cases he : e = i
    · subst he
      rw [update_self]
      exact hx (hall e)
    · rw [update_of_ne he]
      exact hall e

theorem setNlink_changes (hi : i ∈ S) (hl : l ≠ 0 → (fs.inode i).nlink ≠ 0) :
    Changes S fs (fs.setNlink i l) :=
  Changes.set hi rfl fun hs => ⟨hs.1, fun hne => hs.2 (hl hne)⟩

theorem updateNlink_changes (hi : i ∈ S) : Changes S fs (pmfsUpdateNlink fs i) :=
  Changes.set hi rfl id

theorem incCount_changes (hi : i ∈ S) (hl : (fs.inode i).nlink ≠ 0) :
    Changes S fs (pmfsIncCount fs i) :=
  (setNlink_changes hi fun _ => hl).trans (updateNlink_changes hi)

theorem decCount_changes (hi : i ∈ S) : Changes S fs (pmfsDecCount fs i) := by
  unfold pmfsDecCount
  split_ifs with hl
  · exact (setNlink_changes hi fun _ => hl).trans (updateNlink_changes hi)
  · exact Changes.of_eq rfl

theorem dropNlink_changes (hi : i ∈ S) : Changes S fs (dropNlink fs i) := by
  unfold dropNlink
  split_ifs with hl
  · exact setNlink_changes hi fun _ => hl
  · exact Changes.of_eq rfl

/-- Eviction frees an inode only if it has no links. -/
theorem evict_changes (hi : i ∈ S) (free : Option Errno) :
    Changes S fs (pmfsEvictInode fs i free) := by
  unfold pmfsEvictInode
  split_ifs with hcond
  · refine Changes.trans ?_ (Changes.of_eq truncateDel_inode)
    cases free with
    | some e => exact Changes.of_eq rfl
    | none => exact Changes.set hi rfl fun hs => ⟨hs.1, fun hne => absurd hcond.1 hne⟩
  · exact Changes.of_eq truncateDel_inode

/-! ### New inodes -/

theorem newFile_changes (hi : i ∈ S) {D : Dir} : Changes S fs (newFile fs k i D) :=
  Changes.set hi rfl fun _ => ⟨rfl, fun _ => ⟨by simp, rfl⟩⟩

theorem addNondir_changes (hi : i ∈ S) (h : pmfsAddNondir fs d n i env = some (fs', err)) :
    Changes S fs fs' := by
  obtain ⟨⟨fs1, e⟩, hadd, heq⟩ := Option.map_eq_some_iff.mp h
  have hsame : Changes S fs fs1 := Changes.of_eq (addEntry_inode hadd)
  cases e with
  | none =>
    cases heq
    exact hsame
  | some e =>
    cases heq
    exact hsame.trans ((decCount_changes hi).trans (evict_changes hi env.free))

theorem createNode_changes (hS : ∀ i, env.new = .ok i → i ∈ S)
    (h : createNode fs k d n env = some (fs', err)) : Changes S fs fs' := by
  rcases createNode_cases h with ⟨rfl, -⟩ | ⟨i, hino, hnondir⟩
  · exact Changes.of_eq rfl
  · exact (newFile_changes (hS i hino)).trans (addNondir_changes (hS i hino) hnondir)

theorem symlink_changes {len : ℕ} (hS : ∀ i, env.new = .ok i → i ∈ S)
    (h : pmfsSymlink fs d n len env = some (fs', err)) : Changes S fs fs' := by
  rcases symlink_cases h with ⟨-, rfl⟩ | ⟨i, hino, ⟨-, rfl⟩ | hnondir⟩
  · exact Changes.of_eq rfl
  · have hi := hS i hino
    exact (newFile_changes hi).trans ((decCount_changes hi).trans (evict_changes hi env.free))
  · exact (newFile_changes (hS i hino)).trans (addNondir_changes (hS i hino) hnondir)

/-- The new directory gives up its inode if there is no entry for it. -/
theorem clearInode_changes (hi : i ∈ S) : Changes S fs (clearInode fs i env) :=
  (setNlink_changes hi fun hne => absurd rfl hne).trans (evict_changes hi env.free)

theorem mkdir_changes (hd : d ∈ S) (hlive : (fs.inode d).nlink ≠ 0)
    (hS : ∀ i, env.new = .ok i → i ∈ S) (h : pmfsMkdir fs d n env = some (fs', err)) :
    Changes S fs fs' := by
  rcases mkdir_cases h with ⟨-, rfl⟩ | ⟨-, i, hino, ⟨-, rfl⟩ | ⟨b, fs1, hadd, rfl⟩⟩
  · exact Changes.of_eq rfl
  · exact (newFile_changes (hS i hino)).trans (clearInode_changes (hS i hino))
  have hi := hS i hino
  have hinode : fs1.inode = update fs.inode i ⟨some .dir, 2, 1, false, false, false⟩ := by
    rw [addEntry_inode hadd]
    simp [newFile, Fs.setNlink, Fs.setInode, Fs.setData]
  have hnew : Changes S fs fs1 := Changes.set hi hinode fun _ => ⟨rfl, fun _ => ⟨by simp, rfl⟩⟩
  split_ifs
  · refine hnew.trans ((updateNlink_changes hi).trans (incCount_changes hd ?_))
    by_cases hdi : d = i
    · subst hdi
      simp [pmfsUpdateNlink, Fs.setInode, hinode]
    · simpa [pmfsUpdateNlink, Fs.setInode, hinode, update_of_ne hdi] using hlive
  · exact hnew.trans (clearInode_changes hi)

/-! ### Names of other inodes -/

theorem link_changes (hi : i ∈ S) (hlive : (fs.inode i).nlink ≠ 0)
    (h : pmfsLink fs i d n env = some (fs', err)) : Changes S fs fs' := by
  rcases link_cases h with ⟨-, rfl⟩ | ⟨-, fs1, hadd, rfl⟩
  · exact Changes.of_eq rfl
  have hinode := addEntry_inode hadd
  split_ifs
  · refine (Changes.of_eq hinode).trans (incCount_changes hi ?_)
    rwa [hinode]
  · exact Changes.of_eq hinode

theorem removeEntry_inode (h : removeEntry fs d n = (fs', err)) : fs'.inode = fs.inode := by
  cases h
  rfl

theorem unlink_changes (hi : i ∈ S) (h : pmfsUnlink fs d n i env = (fs', err)) :
    Changes S fs fs' := by
  rcases unlink_cases h with ⟨-, rfl | hfail⟩ | ⟨-, rfl⟩
  · exact Changes.of_eq rfl
  · exact Changes.of_eq (removeEntry_inode hfail)
  · have hremove : Changes S fs (removeEntry fs d n).1 := Changes.of_eq rfl
    refine hremove.trans (Changes.trans (Changes.of_eq ?_) (decCount_changes hi))
    split_ifs
    · exact truncateAdd_inode
    · rfl

theorem rmdirDone_changes (hi : i ∈ S) (hd : d ∈ S) : Changes S fs (rmdirDone d i fs) := by
  refine Changes.trans ?_ (decCount_changes hd)
  refine Changes.trans ?_ (Changes.of_eq truncateAdd_inode)
  exact (setNlink_changes hi fun hne => absurd rfl hne).trans (updateNlink_changes hi)

theorem rmdir_changes (hi : i ∈ S) (hd : d ∈ S) (h : pmfsRmdir fs d n i env = some (fs', err)) :
    Changes S fs fs' := by
  have hlook : Changes S fs (lookUp fs d n) := Changes.of_eq rfl
  rcases rmdir_cases h with ⟨-, rfl | hfail⟩ | ⟨-, -, rfl⟩
  · exact hlook
  · exact hlook.trans (Changes.of_eq (removeEntry_inode hfail))
  · have hremove : Changes S fs (removeEntry (lookUp fs d n) d n).1 := Changes.of_eq rfl
    exact hremove.trans (rmdirDone_changes hi hd)

theorem renameBind_inode {newDe : Lookup} (h : renameBind fs a newDe env = some (fs', err)) :
    fs'.inode = fs.inode := by
  unfold renameBind at h
  split at h
  · cases h
    rfl
  · exact addEntry_inode h

theorem renameCount_changes (hnew : a.newDir ∈ S) (hold : a.oldDir ∈ S)
    (hino : ∀ j ∈ a.newIno, j ∈ S) (hlive : (fs.inode a.newDir).nlink ≠ 0) :
    Changes S fs (renameCount fs a) := by
  unfold renameCount
  cases hj : a.newIno with
  | none =>
    split_ifs
    · exact (incCount_changes hnew hlive).trans (decCount_changes hold)
    · exact Changes.of_eq rfl
  | some j =>
    have hjS := hino j hj
    have hlost : Changes S fs (lost fs a j) := by
      refine Changes.trans ?_ (updateNlink_changes hjS)
      refine Changes.trans ?_ (dropNlink_changes hjS)
      split_ifs
      · exact dropNlink_changes hjS
      · exact Changes.of_eq rfl
    exact hlost.trans (Changes.of_eq renameLose_inode)

theorem rename_changes (hnew : a.newDir ∈ S) (hold : a.oldDir ∈ S) (hino : ∀ j ∈ a.newIno, j ∈ S)
    (hlive : (fs.inode a.newDir).nlink ≠ 0) (h : pmfsRename fs a env = some (fs', err)) :
    Changes S fs fs' := by
  rcases rename_cases h with ⟨-, rfl, -⟩ | ⟨-, -, fs1, e, hbind, hrest⟩
  · exact Changes.of_eq rfl
  have hbound : fs1.inode = (renameStart fs a).inode := renameBind_inode hbind
  rcases hrest with ⟨-, -, rfl⟩ | ⟨-, ⟨-, hfail⟩ | ⟨-, -, rfl⟩⟩
  · exact Changes.of_eq hbound
  · exact Changes.of_eq ((removeEntry_inode hfail).trans hbound)
  · have hinode : (removeEntry fs1 a.oldDir a.oldName).1.inode = fs.inode := hbound
    refine (Changes.of_eq hinode).trans (renameCount_changes hnew hold hino ?_)
    rwa [hinode]

/-! ### Runs -/

/-- The inodes of the dentries that a call is given. -/
def named : Op → List ℕ
  | .create d _ _ | .mknod d _ _ | .symlink d _ _ _ | .mkdir d _ _ => [d]
  | .link i d _ _ | .unlink d _ i _ | .rmdir d _ i _ => [i, d]
  | .rename a _ => a.oldDir :: a.oldIno :: a.newDir :: a.newIno.toList
  | .evict _ _ => []

/-- The call is made on inodes that have links. -/
def OnLive (fs : Fs) (op : Op) : Prop := ∀ i ∈ named op, (fs.inode i).nlink ≠ 0

instance (fs : Fs) (op : Op) : Decidable (OnLive fs op) :=
  inferInstanceAs (Decidable (∀ i ∈ named op, (fs.inode i).nlink ≠ 0))

/-- A call as the VFS makes it. It may fail. -/
def Calls (fs : Fs) (op : Op) (fs' : Fs) (err : Option Errno) : Prop :=
  op.Valid fs ∧ OnLive fs op ∧ op.exec fs = some (fs', err)

/-- The inodes that a call can change. -/
def touched (fs : Fs) (op : Op) : Set ℕ :=
  {i | i ∈ named op ∨ FreeInode fs i ∨ ∃ free, op = .evict i free}

theorem exec_changes (h : Calls fs op fs' err) : Changes (touched fs op) fs fs' := by
  obtain ⟨hv, hlive, hexec⟩ := h
  cases op with
  | create d n env | mknod d n env =>
    exact createNode_changes (fun i hi => Or.inr (Or.inl (hv.2 i hi))) hexec
  | symlink d n len env =>
    exact symlink_changes (fun i hi => Or.inr (Or.inl (hv.2 i hi))) hexec
  | link i d n env =>
    have hi : i ∈ named (.link i d n env) := by simp [named]
    exact link_changes (Or.inl hi) (hlive i hi) hexec
  | unlink d n i env =>
    have hi : i ∈ named (.unlink d n i env) := by simp [named]
    exact unlink_changes (Or.inl hi) (Option.some.inj hexec)
  | mkdir d n env =>
    have hd : d ∈ named (.mkdir d n env) := by simp [named]
    exact mkdir_changes (Or.inl hd) (hlive d hd) (fun i hi => Or.inr (Or.inl (hv.2 i hi))) hexec
  | rmdir d n i env =>
    have hi : i ∈ named (.rmdir d n i env) := by simp [named]
    have hd : d ∈ named (.rmdir d n i env) := by simp [named]
    exact rmdir_changes (Or.inl hi) (Or.inl hd) hexec
  | rename a env =>
    have hnew : a.newDir ∈ named (.rename a env) := by simp [named]
    have hold : a.oldDir ∈ named (.rename a env) := by simp [named]
    refine rename_changes (Or.inl hnew) (Or.inl hold) (fun j hj => Or.inl ?_) (hlive _ hnew) hexec
    have hsome : a.newIno = some j := hj
    simp [named, hsome]
  | evict i free =>
    cases hexec
    exact evict_changes (Or.inr (Or.inr ⟨free, rfl⟩)) free

/-- Some call, successful or not. -/
def Runs (fs fs' : Fs) : Prop := ∃ op err, Calls fs op fs' err

/-- Some call that has nothing to do with the inode, which the VFS still holds. -/
def RunsWithout (i : ℕ) (fs fs' : Fs) : Prop :=
  ∃ op err, Calls fs op fs' err ∧ i ∉ named op ∧ ∀ free, op ≠ .evict i free

theorem sound_run (h : Relation.ReflTransGen Runs pmfsInit fs) (i : ℕ) : Sound (fs.inode i) := by
  induction h generalizing i with
  | refl =>
    by_cases hi : i = PMFS_ROOT_INO
    · subst hi
      exact ⟨rfl, fun _ => ⟨by decide, rfl⟩⟩
    · simp [Sound, pmfsInit, update_of_ne hi]
  | tail _ hstep ih =>
    obtain ⟨op, err, hcall⟩ := hstep
    exact (exec_changes hcall).sound ih i

/-- An inode that is not free stays as it is as long as no call has to do with it. -/
theorem kept_run (h : Relation.ReflTransGen (RunsWithout i) fs fs') (hi : ¬ FreeInode fs i) :
    fs'.inode i = fs.inode i := by
  induction h with
  | refl => rfl
  | @tail fs1 fs2 _ hstep ih =>
    obtain ⟨op, err, hcall, hnamed, hevict⟩ := hstep
    rw [← ih]
    refine (exec_changes hcall).frame i ?_
    rintro (hmem | hfree | ⟨free, heq⟩)
    · exact hnamed hmem
    · refine hi ?_
      unfold FreeInode at hfree ⊢
      rwa [ih] at hfree
    · exact hevict free heq

/-! ### The last link -/

/-- The test of `pmfs_new_inode` for a slot that can be taken. -/
def FreeTest (x : Inode) : Prop := x.links = 0 ∧ (x.kind = none ∨ x.dtime = true)

/-- The call removes the last link of the inode: of a directory its name, of another inode the only
one. -/
def TakesLast (fs : Fs) (i : ℕ) : Op → Prop
  | .unlink _ _ j _ => j = i ∧ (fs.inode i).nlink = 1
  | .rmdir _ _ j _ => j = i
  | .rename a _ => a.newIno = some i ∧ (a.isDir fs ∨ (fs.inode i).nlink = 1)
  | _ => False

/-- What the inode is after the call that removes its last link. -/
theorem takesLast_inode (hlast : TakesLast fs i op) (hcall : Calls fs op fs' none) :
    fs'.inode i = { fs.inode i with
      nlink := if op.ReplacesDir fs then (fs.inode i).nlink - 2 else 0
      links := (if op.ReplacesDir fs then (fs.inode i).nlink - 2 else 0) % 65536 } := by
  obtain ⟨-, -, hexec⟩ := hcall
  cases op with
  | unlink d n j env =>
    obtain ⟨rfl, hone⟩ := hlast
    obtain ⟨-, rfl⟩ := (unlink_cases (Option.some.inj hexec)).resolve_left fun hcon => hcon.1 rfl
    have hone' : ((removeEntry fs d n).1.inode j).nlink = 1 := hone
    unfold unlinked pmfsDecCount
    rw [if_pos hone', truncateAdd_inode, if_pos (by omega)]
    simp [pmfsUpdateNlink, Fs.setNlink, Fs.setInode, Op.ReplacesDir, removeEntry, Fs.setData, hone]
  | rmdir d n j env =>
    obtain rfl : j = i := hlast
    obtain ⟨-, -, rfl⟩ := (rmdir_cases hexec).resolve_left fun hcon => hcon.1 rfl
    generalize hfs1 : (removeEntry (lookUp fs d n) d n).1 = fs1
    have hinode : fs1.inode = fs.inode := by
      rw [← hfs1]
      rfl
    have hdone : (rmdirDone d j fs1).inode j = { fs1.inode j with nlink := 0, links := 0 } := by
      unfold rmdirDone pmfsDecCount
      rw [truncateAdd_inode]
      by_cases hjd : j = d
      · subst hjd
        simp [pmfsUpdateNlink, Fs.setNlink, Fs.setInode]
      · split_ifs
        · simp [pmfsUpdateNlink, Fs.setNlink, Fs.setInode, update_of_ne hjd]
        · simp [pmfsUpdateNlink, Fs.setNlink, Fs.setInode]
    rw [hdone, hinode]
    simp [Op.ReplacesDir]
  | rename a env =>
    obtain ⟨hnew, hlast⟩ := hlast
    obtain ⟨-, fs1, hbind, rfl⟩ := rename_ok hexec
    have hbound : fs1.inode = (renameStart fs a).inode := renameBind_inode hbind
    have hinode : (removeEntry fs1 a.oldDir a.oldName).1.inode = fs.inode := hbound
    have hdir : a.isDir (removeEntry fs1 a.oldDir a.oldName).1 ↔ a.isDir fs := by
      unfold RenameArgs.isDir
      rw [hinode]
    have hreplaces : (Op.rename a env).ReplacesDir fs ↔ a.isDir fs := by simp [Op.ReplacesDir, hnew]
    unfold renameCount
    rw [hnew]
    rw [renameLose_inode, lost_inode, update_self, hinode]
    by_cases hk : a.isDir fs
    · simp only [hdir, hreplaces, hk, if_true]
    · have hone := hlast.resolve_left hk
      simp only [hdir, hreplaces, hk, if_false, hone]
  | create | mknod | symlink | link | mkdir | evict => exact absurd hlast id

/-- What an eviction does that can open its transaction. -/
theorem evict_test (hs : (fs.inode i).kind ≠ none) (hd : (fs.inode i).dtime = false)
    (hf : (fs.inode i).fixed = false) : FreeTest ((pmfsEvictInode fs i none).inode i) ↔
      (fs.inode i).links = 0 ∧ (fs.inode i).nlink = 0 ∧ (fs.inode i).kind ≠ some .special := by
  have hkind : ((fs.inode i).kind = some .reg ∨ (fs.inode i).kind = some .dir ∨
      (fs.inode i).kind = some .lnk) ↔ (fs.inode i).kind ≠ some .special := by
    cases hk : (fs.inode i).kind with
    | none => exact absurd hk hs
    | some k => cases k <;> simp
  unfold pmfsEvictInode
  split_ifs with hcond
  · rw [truncateDel_inode]
    have htest : FreeTest ((pmfsFreeInode fs i none).1.inode i) ↔ (fs.inode i).links = 0 := by
      simp [FreeTest, pmfsFreeInode, Fs.setInode, Fs.setData]
    rw [htest]
    exact ⟨fun h => ⟨h, hcond.1, hkind.mp hcond.2.1⟩, fun h => h.1⟩
  · rw [truncateDel_inode]
    constructor
    · rintro ⟨-, hnone | htrue⟩
      · exact absurd hnone hs
      · simp [hd] at htrue
    · rintro ⟨-, hzero, hspecial⟩
      exact absurd ⟨hzero, hkind.mpr hspecial, hf⟩ hcond

/-- **Deleted inodes become free again**: a call removes the last link of an inode, and later, with
no call that has to do with the inode in between, it is evicted. Its slot can be taken again if and
only if it is no device, pipe or socket and, if it is a directory that another one replaces, its
link count was 2 at most. -/
theorem reusable_iff (hrun : Relation.ReflTransGen Runs pmfsInit fs) (hlast : TakesLast fs i op)
    (hcall : Calls fs op fs1 none) (hlater : Relation.ReflTransGen (RunsWithout i) fs1 fs2) :
    FreeTest ((pmfsEvictInode fs2 i none).inode i) ↔
      (fs.inode i).kind ≠ some .special ∧ (op.ReplacesDir fs → (fs.inode i).nlink ≤ 2) := by
  have hnamed : i ∈ named op := by
    cases op with
    | unlink d n j env => simp [named, hlast.1]
    | rmdir d n j env => simp [named, show j = i from hlast]
    | rename a env => simp [named, hlast.1]
    | create | mknod | symlink | link | mkdir | evict => exact absurd hlast id
  obtain ⟨hfixed, hsome⟩ := sound_run hrun i
  obtain ⟨hkind, hdtime⟩ := hsome (hcall.2.1 i hnamed)
  have hinode := takesLast_inode hlast hcall
  have hnot : ¬ FreeInode fs1 i := by
    rintro ⟨-, -, -, hnone | htrue⟩
    · rw [hinode] at hnone
      exact hkind hnone
    · rw [hinode] at htrue
      simp [hdtime] at htrue
  have hkept := (kept_run hlater hnot).trans hinode
  rw [evict_test (by rwa [hkept]) (by rwa [hkept]) (by rwa [hkept]), hkept]
  by_cases hdir : op.ReplacesDir fs
  · simp only [hdir, if_true, forall_const]
    constructor
    · rintro ⟨-, hzero, hspecial⟩
      exact ⟨hspecial, by omega⟩
    · rintro ⟨hspecial, hle⟩
      exact ⟨by omega, by omega, hspecial⟩
  · simp [hdir]

theorem runOps_one (h : runOps OnLive fs [op] = some fs') : Calls fs op fs' none := by
  unfold runOps at h
  split_ifs at h with hv
  split at h
  · rename_i fs1 hexec
    cases h
    exact ⟨hv.1, hv.2, hexec⟩
  · simp at h

theorem runOps_runs (h : runOps OnLive fs [op] = some fs') : Relation.ReflTransGen Runs fs fs' :=
  .single ⟨op, none, runOps_one h⟩

instance (x : Inode) : Decidable (FreeTest x) := inferInstanceAs (Decidable (_ ∧ (_ ∨ _)))

/-- A regular file loses its only name, and is evicted after another one has been made. -/
theorem reusable_iff_file : ∃ fs fs1 fs2, Relation.ReflTransGen Runs pmfsInit fs ∧
    Calls fs (.unlink 128 [0x61] 384 (plainEnv 0)) fs1 none ∧
    Relation.ReflTransGen (RunsWithout 384) fs1 fs2 ∧
    FreeTest ((pmfsEvictInode fs2 384 none).inode 384) := by
  obtain ⟨fs, hmake, fs1, hunlink, fs2, hother, hone, hkind⟩ :
      ∃ fs ∈ runOps OnLive pmfsInit [.create 128 [0x61] (plainEnv 384)],
      ∃ fs1 ∈ runOps OnLive fs [.unlink 128 [0x61] 384 (plainEnv 0)],
      ∃ fs2 ∈ runOps OnLive fs1 [.create 128 [0x62] (plainEnv 512)],
      (fs.inode 384).nlink = 1 ∧ (fs.inode 384).kind ≠ some .special := by decide +kernel
  have hrun := runOps_runs hmake
  have hcall := runOps_one hunlink
  have hlater : Relation.ReflTransGen (RunsWithout 384) fs1 fs2 :=
    .single ⟨_, none, runOps_one hother, by simp [named], fun free => by simp⟩
  have hlast : TakesLast fs 384 (.unlink 128 [0x61] 384 (plainEnv 0)) := ⟨rfl, hone⟩
  refine ⟨fs, fs1, fs2, hrun, hcall, hlater, ?_⟩
  exact (reusable_iff hrun hlast hcall hlater).mpr ⟨hkind, fun hdir => absurd hdir id⟩

/-- A device is made, loses its only name and is evicted: its slot is not free. -/
theorem device_never_free : ∃ fs fs1, Relation.ReflTransGen Runs pmfsInit fs ∧
    TakesLast fs 384 (.unlink 128 [0x61] 384 (plainEnv 0)) ∧
    Calls fs (.unlink 128 [0x61] 384 (plainEnv 0)) fs1 none ∧
    ¬ FreeTest ((pmfsEvictInode fs1 384 none).inode 384) := by
  obtain ⟨fs, hmake, fs1, hunlink, hone, htest⟩ :
      ∃ fs ∈ runOps OnLive pmfsInit [.mknod 128 [0x61] (plainEnv 384)],
      ∃ fs1 ∈ runOps OnLive fs [.unlink 128 [0x61] 384 (plainEnv 0)],
      (fs.inode 384).nlink = 1 ∧ ¬ FreeTest ((pmfsEvictInode fs1 384 none).inode 384) := by
      decide +kernel
  exact ⟨fs, fs1, runOps_runs hmake, ⟨rfl, hone⟩, runOps_one hunlink, htest⟩

end Pmfs.Namei.Reuse
