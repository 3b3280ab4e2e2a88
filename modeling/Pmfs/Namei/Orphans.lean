import Pmfs.Lib.Chain
import Pmfs.Namei.Failures

/-! # Orphans stay on the truncate list

An inode whose link count on the medium became 0 has to stay on the truncate list until
`pmfs_free_inode` has freed it. It does along runs in which no such inode is resized, and each one
that is evicted can be freed (`orphans_listed`). `pmfs_notify_change` takes a resized inode off the
list, whatever it is on it for (`orphan_resized`), and `pmfs_evict_inode` takes it off even when it
is not freed. -/

namespace Pmfs.Namei.Orphans

open Lib.Chain Block.Model Dirs.Model Function
open Namei.Model Namei.Entries Namei.Binding Namei.Refine Namei.Failures

/-! ### Runs -/

/-- The calls that concern the truncate list. -/
inductive Op where
  | unlink (d : ℕ) (n : Name) (i : ℕ) (env : Env)
  | rmdir (d : ℕ) (n : Name) (i : ℕ) (env : Env)
  | rename (a : RenameArgs) (env : Env)
  | notifyChange (i : ℕ) (attr : Iattr) (fail : Option Errno)
  | evict (i : ℕ) (free : Option Errno)

def Op.exec (fs : Fs) : Op → Result
  | unlink d n i env => some (pmfsUnlink fs d n i env)
  | rmdir d n i env => pmfsRmdir fs d n i env
  | rename a env => pmfsRename fs a env
  | notifyChange i attr fail => some (pmfsNotifyChange fs i attr fail)
  | evict i free => some (pmfsEvictInode fs i free, none)

/-- What the VFS sees to. The size of a directory is not changed. -/
def Op.Valid (fs : Fs) : Op → Prop
  | unlink d n i _ => Present fs d n i ∧ (fs.inode i).kind ≠ some .dir
  | rmdir d n i _ => Present fs d n i ∧ (fs.inode i).kind = some .dir
  | rename a _ => RenameOk fs a
  | notifyChange i attr _ => i ≠ 0 ∧ (attr.size ≠ none → (fs.inode i).kind ≠ some .dir)
  | evict _ _ => True

/-- `pmfs_free_inode` frees the inode `i` in this call. -/
def Op.Frees (fs : Fs) (i : ℕ) : Op → Prop
  | evict j free => i = j ∧ (fs.inode i).nlink = 0 ∧ ((fs.inode i).kind = some .reg ∨
      (fs.inode i).kind = some .dir ∨ (fs.inode i).kind = some .lnk) ∧
      (fs.inode i).fixed = false ∧ free = none
  | _ => False

/-- No inode without links is resized, and those that are evicted can be freed. -/
def Op.Safe (fs : Fs) : Op → Prop
  | notifyChange i attr _ => attr.refuse = none → attr.resizes fs i → (fs.inode i).links ≠ 0
  | evict i free => (fs.inode i).links = 0 → (Op.evict i free).Frees fs i
  | _ => True

/-- Calls one after the other, whether they fail or not, with the inodes whose link count became 0
on the way and that have not been freed since. -/
inductive Run (P : Fs → Op → Prop) (fs0 : Fs) : Fs → Set ℕ → Prop
  | refl : Run P fs0 fs0 ∅
  | step {fs fs' : Fs} {W : Set ℕ} {op : Op} {err : Option Errno} : Run P fs0 fs W →
      op.Valid fs → P fs op → op.exec fs = some (fs', err) →
      Run P fs0 fs'
        {i | (i ∈ W ∨ (fs.inode i).links ≠ 0) ∧ (fs'.inode i).links = 0 ∧ ¬ op.Frees fs i}

variable {fs fs' : Fs} {t : Tree} {d i j e : ℕ} {n : Name} {env : Env} {a : RenameArgs}

/-! ### The list -/

/-- The truncate list, in memory and on the medium. -/
def lists (fs : Fs) : List ℕ × ℕ × (ℕ → ℕ) := (fs.truncated, fs.head, fs.next)

/-- What is on the medium is the list in memory. -/
def ListOk (L : List ℕ × ℕ × (ℕ → ℕ)) : Prop := Chain 0 L.2.2 L.2.1 L.1 ∧ L.1.Nodup

/-- The list stays in order and loses nothing. -/
def Kept (fs fs' : Fs) : Prop :=
  (ListOk (lists fs) → ListOk (lists fs')) ∧ ∀ i ∈ fs.truncated, i ∈ fs'.truncated

theorem Kept.of_eq (h : lists fs' = lists fs) : Kept fs fs' := by
  refine ⟨fun hok => h ▸ hok, fun i hi => ?_⟩
  have htrunc : fs'.truncated = fs.truncated := congrArg Prod.fst h
  rwa [htrunc]

theorem Kept.trans {fs1 : Fs} (h : Kept fs fs1) (h' : Kept fs1 fs') : Kept fs fs' :=
  ⟨fun hok => h'.1 (h.1 hok), fun i hi => h'.2 i (h.2 i hi)⟩

theorem decCount_lists : lists (pmfsDecCount fs i) = lists fs := by
  unfold pmfsDecCount
  split_ifs <;> rfl

theorem dropNlink_lists : lists (dropNlink fs i) = lists fs := by
  unfold dropNlink
  split_ifs <;> rfl

variable (fs) in
theorem truncateAdd_kept (size : ℕ) (hi : i ≠ 0) :
    Kept fs (pmfsTruncateAdd fs i size) ∧ i ∈ (pmfsTruncateAdd fs i size).truncated := by
  unfold pmfsTruncateAdd
  split_ifs with hmem
  · exact ⟨Kept.of_eq rfl, hmem⟩
  · refine ⟨⟨fun hok => ⟨hok.1.push hmem hi, List.nodup_cons.mpr ⟨hmem, hok.2⟩⟩, fun j hj => ?_⟩,
      ?_⟩
    · exact List.mem_cons_of_mem _ hj
    · exact List.mem_cons_self

theorem prevIn_of_notMem {p : ℕ} {l : List ℕ} (hi : i ∉ l) : prevIn (p :: l) i = none := by
  induction l generalizing p with
  | nil => rfl
  | cons q l ih =>
    rw [prevIn, if_neg fun heq : q = i => hi (heq ▸ List.mem_cons_self)]
    exact ih fun hmem => hi (List.mem_cons_of_mem _ hmem)

theorem prevIn_cases {l : List ℕ} (hi : i ∈ l) (hnd : l.Nodup) :
    (prevIn l i = none ∧ ∃ post, l = i :: post) ∨
    ∃ p pre post, prevIn l i = some p ∧ l = pre ++ p :: i :: post := by
  induction l with
  | nil => exact absurd hi List.not_mem_nil
  | cons p l ih =>
    obtain ⟨hp, hnd⟩ := List.nodup_cons.mp hnd
    rcases List.mem_cons.mp hi with rfl | hi
    · exact Or.inl ⟨prevIn_of_notMem hp, l, rfl⟩
    · right
      cases l with
      | nil => exact absurd hi List.not_mem_nil
      | cons q l =>
        by_cases hq : q = i
        · subst hq
          exact ⟨p, [], l, by rw [prevIn, if_pos rfl], rfl⟩
        · rw [prevIn, if_neg hq]
          rcases ih hi hnd with ⟨-, post, heq⟩ | ⟨p', pre, post, hprev, heq⟩
          · exact absurd (List.cons.inj heq).1 hq
          · exact ⟨p', p :: pre, post, hprev, by rw [heq]; rfl⟩

/-- `pmfs_truncate_del` takes the inode off the list, in memory and on the medium. -/
theorem truncateDel_spec (h : ListOk (lists fs)) :
    ListOk (lists (pmfsTruncateDel fs i)) ∧ (pmfsTruncateDel fs i).truncated =
    fs.truncated.erase i := by
  have hchain : Chain 0 fs.next fs.head fs.truncated := h.1
  have hnd : fs.truncated.Nodup := h.2
  unfold pmfsTruncateDel
  by_cases hmem : i ∈ fs.truncated
  · rw [if_pos hmem]
    rcases prevIn_cases hmem hnd with ⟨hprev, post, heq⟩ | ⟨p, pre, post, hprev, heq⟩
    · rw [hprev]
      refine ⟨⟨?_, hnd.erase i⟩, rfl⟩
      show Chain 0 fs.next (fs.next i) (fs.truncated.erase i)
      rw [heq] at hchain ⊢
      rw [List.erase_cons_head]
      exact hchain.2.2
    · rw [hprev]
      refine ⟨⟨?_, hnd.erase i⟩, rfl⟩
      show Chain 0 (update fs.next p (fs.next i)) fs.head (fs.truncated.erase i)
      rw [heq] at hchain hnd ⊢
      have herase : (pre ++ p :: i :: post).erase i = pre ++ p :: post := by
        have hpre : i ∉ pre := fun hin =>
          (List.nodup_append.mp hnd).2.2 i hin i (List.mem_cons_of_mem _ List.mem_cons_self) rfl
        have hp : p ≠ i := fun heq =>
          (List.nodup_cons.mp (List.nodup_append.mp hnd).2.1).1 (heq ▸ List.mem_cons_self)
        rw [List.erase_append_right _ hpre, List.erase_cons_tail (by simpa using hp),
          List.erase_cons_head]
      rw [herase]
      exact hchain.drop hnd
  · rw [if_neg hmem]
    exact ⟨h, (List.erase_of_not_mem hmem).symm⟩

/-! ### What the calls do to the list -/

theorem unlink_lists (hi : i ≠ 0) (hrun : pmfsUnlink fs d n i env = (fs', none)) :
    Kept fs fs' ∧ ((fs.inode i).nlink = 1 → i ∈ fs'.truncated) := by
  obtain ⟨-, rfl⟩ := (unlink_cases hrun).resolve_left fun hcon => hcon.1 rfl
  have hlists : Kept fs (removeEntry fs d n).1 := Kept.of_eq rfl
  unfold unlinked
  split_ifs with hone
  · obtain ⟨hkept, hmem⟩ :=
      truncateAdd_kept (removeEntry fs d n).1 ((removeEntry fs d n).1.data i).iSize hi
    refine ⟨hlists.trans (hkept.trans (Kept.of_eq decCount_lists)), fun _ => ?_⟩
    exact (Kept.of_eq decCount_lists).2 i hmem
  · exact ⟨hlists.trans (Kept.of_eq decCount_lists), fun hcon => absurd hcon hone⟩

theorem rmdir_lists (hi : i ≠ 0) (hrun : pmfsRmdir fs d n i env = some (fs', none)) :
    Kept fs fs' ∧ i ∈ fs'.truncated := by
  obtain ⟨-, -, rfl⟩ := (rmdir_cases hrun).resolve_left fun hcon => hcon.1 rfl
  generalize hfs1 : (removeEntry (lookUp fs d n) d n).1 = fs1
  have hlists : lists fs1 = lists fs := by
    rw [← hfs1]
    rfl
  obtain ⟨hkept, hmem⟩ :=
    truncateAdd_kept (pmfsUpdateNlink (fs1.setNlink i 0) i) (fs1.data i).iSize hi
  refine ⟨(Kept.of_eq hlists).trans
    ((Kept.of_eq rfl).trans (hkept.trans (Kept.of_eq decCount_lists))), ?_⟩
  exact (Kept.of_eq decCount_lists).2 i hmem

variable (fs a) in
theorem renameLose_lists (hj : j ≠ 0) : Kept fs (renameLose fs a j) ∧
    (((renameLose fs a j).inode j).nlink = 0 → j ∈ (renameLose fs a j).truncated) := by
  have hlists : lists (lost fs a j) = lists fs := by
    show lists (dropNlink (if a.isDir fs then dropNlink fs j else fs) j) = lists fs
    rw [dropNlink_lists]
    split_ifs
    · exact dropNlink_lists
    · rfl
  rw [renameLose_inode, renameLose_eq]
  split_ifs with hzero
  · obtain ⟨hkept, hmem⟩ := truncateAdd_kept (lost fs a j) ((lost fs a j).data j).iSize hj
    exact ⟨(Kept.of_eq hlists).trans hkept, fun _ => hmem⟩
  · exact ⟨Kept.of_eq hlists, fun hcon => absurd hcon hzero⟩

theorem rename_lists (hrun : pmfsRename fs a env = some (fs', none)) (hj : a.newIno ≠ some 0) :
    Kept fs fs' ∧ ∀ j, a.newIno = some j → (fs'.inode j).nlink = 0 → j ∈ fs'.truncated := by
  obtain ⟨-, fs1, hbind, rfl⟩ := rename_ok hrun
  have hlists : lists (removeEntry fs1 a.oldDir a.oldName).1 = lists fs := by
    show lists fs1 = lists fs
    unfold renameBind at hbind
    split at hbind
    · cases hbind
      rfl
    · obtain ⟨r, -, hr⟩ := Option.map_eq_some_iff.mp hbind
      obtain rfl := (Prod.mk.inj hr).1
      rfl
  unfold renameCount
  cases hnew : a.newIno with
  | none =>
    refine ⟨(Kept.of_eq hlists).trans (Kept.of_eq ?_), by simp⟩
    split_ifs
    · exact decCount_lists
    · rfl
  | some j =>
    obtain ⟨hkept, hmem⟩ := renameLose_lists (removeEntry fs1 a.oldDir a.oldName).1 a
      fun heq => hj (heq ▸ hnew)
    refine ⟨(Kept.of_eq hlists).trans hkept, ?_⟩
    rintro _ ⟨⟩
    exact hmem

theorem evict_lists (free : Option Errno) (h : ListOk (lists fs)) :
    ListOk (lists (pmfsEvictInode fs i free)) ∧ (pmfsEvictInode fs i free).truncated =
    fs.truncated.erase i := by
  unfold pmfsEvictInode
  split_ifs
  · cases free with
    | some err => exact truncateDel_spec h
    | none =>
      have hlists : ListOk (lists ((fs.setInode i { fs.inode i with dtime := true }).setData i
        ⟨0, fun _ => none, 0⟩)) := h
      exact truncateDel_spec hlists
  · exact truncateDel_spec h

/-- `pmfs_notify_change` changes the size. -/
def Resized (fs : Fs) (i : ℕ) (attr : Iattr) : Prop := attr.refuse = none ∧ attr.resizes fs i

theorem notifyFields_lists {m : ℕ} {fail : Option Errno} :
    lists (notifyFields fs i m fail).1 = lists fs := by
  unfold notifyFields
  split_ifs
  · rfl
  · cases fail <;> rfl

/-- A resized inode is taken off the list, and no other. -/
theorem notify_lists (attr : Iattr) (fail : Option Errno) (hi : i ≠ 0) (h : ListOk (lists fs)) :
    ListOk (lists (pmfsNotifyChange fs i attr fail).1) ∧ ∀ j ∈ fs.truncated,
      (j = i → ¬ Resized fs i attr) → j ∈ (pmfsNotifyChange fs i attr fail).1.truncated := by
  unfold pmfsNotifyChange
  cases hrefuse : attr.refuse with
  | some err => exact ⟨h, fun j hj _ => hj⟩
  | none =>
    split_ifs with hsize
    · unfold changeSize
      dsimp only
      generalize hF : (if ((pmfsTruncateAdd fs i (attr.size.getD 0)).inode i).kind =
        some .special then pmfsTruncateAdd fs i (attr.size.getD 0) else _) = F
      have hlists : lists F = lists (pmfsTruncateAdd fs i (attr.size.getD 0)) := by
        rw [← hF]
        split_ifs <;> rfl
      obtain ⟨hkept, -⟩ := truncateAdd_kept fs (attr.size.getD 0) hi
      have hok : ListOk (lists F) := hlists ▸ hkept.1 h
      obtain ⟨hdel, herase⟩ := truncateDel_spec hok
      have hfields : lists (notifyFields (pmfsTruncateDel F i) i attr.fields fail).1 =
          lists (pmfsTruncateDel F i) := notifyFields_lists
      refine ⟨hfields ▸ hdel, fun j hj hsafe => ?_⟩
      have hne : j ≠ i := fun heq => hsafe heq ⟨hrefuse, hsize⟩
      refine (Kept.of_eq hfields).2 j ?_
      rw [herase, List.mem_erase_of_ne hne, show F.truncated = _ from congrArg Prod.fst hlists]
      exact hkept.2 j hj
    · refine ⟨?_, fun j hj _ => (Kept.of_eq notifyFields_lists).2 j hj⟩
      rw [notifyFields_lists]
      exact h

/-! ### What the calls do to the tree -/

theorem updateNlink_counts {kinds : ℕ → Option Kind} {count : ℕ → ℕ}
    (h : Counts fs.inode kinds count) : Counts (pmfsUpdateNlink fs i).inode kinds count := by
  have hlink : PMFS_LINK_MAX = 32000 := rfl
  have hn := h.nlink i
  have hmax := h.max i
  have hset := h.setLinks (x := { fs.inode i with links := (fs.inode i).nlink % 65536 }) (h.kind i)
    (show (fs.inode i).nlink % 65536 = count i by omega) hn hmax
  rwa [update_eq_self] at hset

theorem notifyFields_rep {m : ℕ} {fail : Option Errno} (h : Rep fs t) :
    Rep (notifyFields fs i m fail).1 t := by
  unfold notifyFields
  split_ifs
  · exact h
  · cases fail with
    | some err => exact h
    | none => exact h.of_same (updateNlink_counts h.counts) fun _ _ => rfl

theorem notify_rep {attr : Iattr} (fail : Option Errno) (h : Rep fs t)
    (hdir : attr.size ≠ none → (fs.inode i).kind ≠ some .dir) :
    Rep (pmfsNotifyChange fs i attr fail).1 t := by
  unfold pmfsNotifyChange
  cases attr.refuse with
  | some err => exact h
  | none =>
    split_ifs with hsize
    · refine notifyFields_rep ?_
      obtain ⟨size, hsome, -⟩ := hsize
      have hk : t.kind i ≠ some .dir := by
        rw [← h.counts.kind]
        exact hdir (by rw [Option.mem_def.mp hsome]; simp)
      unfold changeSize
      refine h.of_same ?_ fun e he => ?_
      · rw [truncateDel_inode]
        split_ifs
        · rw [truncateAdd_inode]
          exact h.counts
        · have hset :=
            h.counts.setLinks (x := { fs.inode i with eof := attr.eof }) (h.counts.kind i)
              (h.counts.links i) (h.counts.nlink i) (h.counts.max i)
          rw [update_eq_self] at hset
          simpa [Fs.setInode] using hset
      · have hei : e ≠ i := fun heq => hk (heq ▸ he.1)
        rw [truncateDel_data]
        split_ifs
        · rw [truncateAdd_data]
        · rw [setData_data_of_ne hei]
          exact congrFun truncateAdd_data e
    · exact notifyFields_rep h

/-- With dentries that are right, a failing rename leaves hints. -/
theorem rename_fails_rep {err : Errno} (h : Rep fs t) (ha : RenameOk fs a)
    (hrun : pmfsRename fs a env = some (fs', some err)) : fs' = renameStart fs a := by
  obtain ⟨hold, hrest⟩ := ha
  have hnew : FsDir fs a.newDir ∧ NameOk a.newName := by
    cases hino : a.newIno with
    | none =>
      rw [hino] at hrest
      exact ⟨hrest.1, hrest.2.1⟩
    | some j =>
      rw [hino] at hrest
      exact ⟨hrest.1.1, hrest.1.2.1⟩
  obtain ⟨hlt, hzero⟩ := h.ino_lt (h.present hold).2
  have hargs : (Change.rename a).Args :=
    ⟨⟨hold.2.1.1, hold.2.1.2.1⟩, ⟨hnew.2.1, hnew.2.2.1⟩, hzero, hlt⟩
  rcases rename_fails (dirWf_of_rep h hold.1) (dirWf_of_rep h hnew.1) hargs hrun with
    ⟨heq, -⟩ | ⟨-, -, -, -, hgone, -⟩
  · exact heq
  · exact absurd (hold.2.2.1.symm.trans hgone) hold.2.2.2

/-- After a call the file system holds a tree, and the inodes that have lost their last link are on
the list. -/
def Listed (fs : Fs) (t : Tree) (fs' : Fs) : Prop :=
  ∃ t', Rep fs' t' ∧ Kept fs fs' ∧ ∀ i, t.links i ≠ 0 → t'.links i = 0 → i ∈ fs'.truncated

theorem Listed.of_same (h : Rep fs' t) (hlists : lists fs' = lists fs) : Listed fs t fs' :=
  ⟨t, h, Kept.of_eq hlists, fun _ hne hzero => absurd hzero hne⟩

theorem unlink_listed {err : Option Errno} (h : Rep fs t) (hp : Present fs d n i)
    (hk : (fs.inode i).kind ≠ some .dir) (hrun : pmfsUnlink fs d n i env = (fs', err)) :
    Listed fs t fs' := by
  cases err with
  | some err =>
    obtain rfl := unlink_unchanged (dirWf_of_rep h hp.1).1 hp.2.1.1 hrun
    exact Listed.of_same h rfl
  | none =>
    obtain ⟨-, hrep⟩ := unlink_sim h hp hk hrun
    obtain ⟨hkept, hmem⟩ := unlink_lists hp.2.2.2 hrun
    refine ⟨_, hrep, hkept, fun j hne hzero => ?_⟩
    change update t.links i (t.links i - 1) j = 0 at hzero
    by_cases hj : j = i
    · subst hj
      rw [update_self] at hzero
      refine hmem ?_
      rw [h.counts.nlink]
      omega
    · rw [update_of_ne hj] at hzero
      exact absurd hzero hne

theorem rmdir_listed {err : Option Errno} (h : Rep fs t) (hp : Present fs d n i)
    (hk : (fs.inode i).kind = some .dir) (hrun : pmfsRmdir fs d n i env = some (fs', err)) :
    Listed fs t fs' := by
  cases err with
  | some err =>
    obtain rfl := rmdir_fails (dirWf_of_rep h hp.1) hp.2.1.1 hrun
    exact Listed.of_same (h.lookUp d n) rfl
  | none =>
    obtain ⟨hok, hrep⟩ := rmdir_sim h hp hk hrun
    obtain ⟨hkept, hmem⟩ := rmdir_lists hp.2.2.2 hrun
    refine ⟨_, hrep, hkept, fun j hne hzero => ?_⟩
    -- the parent keeps a link
    have hparent := h.good.parent_links hok.1 hok.2.1
    change update (update t.links i 0) d (t.links d - 1) j = 0 at hzero
    by_cases hjd : j = d
    · subst hjd
      rw [update_self] at hzero
      omega
    · rw [update_of_ne hjd] at hzero
      by_cases hj : j = i
      · exact hj ▸ hmem
      · rw [update_of_ne hj] at hzero
        exact absurd hzero hne

theorem moved_ne_zero {d' : ℕ} (h : Good t) (hmem : (d, n, i) ∈ t.entries) (hne : t.links j ≠ 0) :
    moved t d i d' j ≠ 0 := by
  unfold moved
  split_ifs with hk
  · have hparent := h.parent_links hmem hk
    by_cases hjd : j = d
    · subst hjd
      rw [update_self, update_apply]
      split_ifs with heq
      · rw [← heq]
        omega
      · omega
    · rw [update_of_ne hjd, update_apply]
      split_ifs
      · omega
      · exact hne
  · exact hne

theorem rename_listed {err : Option Errno} (h : Rep fs t) (ha : RenameOk fs a)
    (hrun : pmfsRename fs a env = some (fs', err)) : Listed fs t fs' := by
  cases err with
  | some err =>
    obtain rfl := rename_fails_rep h ha hrun
    exact Listed.of_same (h.start a) rfl
  | none =>
    cases hnew : a.newIno with
    | none =>
      obtain ⟨hkept, -⟩ := rename_lists hrun (by simp [hnew])
      obtain ⟨hok, hrep⟩ := rename_sim h ha hnew hrun
      refine ⟨_, hrep, hkept, fun j hne hzero => ?_⟩
      exact absurd hzero (moved_ne_zero h.good hok.1 hne)
    | some j =>
      have hj : j ≠ 0 := by
        have hrest := ha.2
        rw [hnew] at hrest
        exact hrest.1.2.2.2
      obtain ⟨hkept, hmem⟩ := rename_lists hrun (by simpa [hnew] using hj)
      obtain ⟨hok, hrep⟩ := replace_sim h ha hnew hrun
      refine ⟨_, hrep, hkept, fun j' hne hzero => ?_⟩
      by_cases hj' : j' = j
      · subst hj'
        exact hmem j' hnew ((hrep.counts.nlink j').trans hzero)
      · change update t.links j _ j' = 0 at hzero
        rw [update_of_ne hj'] at hzero
        exact absurd hzero hne

/-! ### The invariant -/

/-- The file system holds a tree, and its truncate list is in order. -/
def Ready (fs : Fs) : Prop := (∃ t, Rep fs t) ∧ ListOk (lists fs)

theorem step_listed {W : Set ℕ} {op : Op} {err : Option Errno} (h : Ready fs)
    (hW : ∀ i ∈ W, i ∈ fs.truncated) (hv : op.Valid fs) (hsafe : op.Safe fs)
    (hrun : op.exec fs = some (fs', err)) : Ready fs' ∧ ∀ i, (i ∈ W ∨ (fs.inode i).links ≠ 0) →
      (fs'.inode i).links = 0 → ¬ op.Frees fs i → i ∈ fs'.truncated := by
  obtain ⟨⟨t, hrep⟩, hlist⟩ := h
  have hnames : Listed fs t fs' → Ready fs' ∧ ∀ i, (i ∈ W ∨ (fs.inode i).links ≠ 0) →
      (fs'.inode i).links = 0 → ¬ op.Frees fs i → i ∈ fs'.truncated := by
    rintro ⟨t', hrep', hkept, hzero⟩
    refine ⟨⟨⟨t', hrep'⟩, hkept.1 hlist⟩, fun i hi hnone _ => ?_⟩
    rcases hi with hi | hne
    · exact hkept.2 i (hW i hi)
    · exact hzero i (hrep.counts.links i ▸ hne) (hrep'.counts.links i ▸ hnone)
  cases op with
  | unlink d n i env => exact hnames (unlink_listed hrep hv.1 hv.2 (Option.some.inj hrun))
  | rmdir d n i env => exact hnames (rmdir_listed hrep hv.1 hv.2 hrun)
  | rename a env => exact hnames (rename_listed hrep hv hrun)
  | notifyChange i attr fail =>
    have hfs' : (pmfsNotifyChange fs i attr fail).1 = fs' :=
      congrArg Prod.fst (Option.some.inj hrun)
    obtain ⟨hok, hmem⟩ := notify_lists attr fail hv.1 hlist
    have hrep' := notify_rep fail hrep hv.2
    rw [hfs'] at hok hmem hrep'
    refine ⟨⟨⟨t, hrep'⟩, hok⟩, fun j hj hnone _ => ?_⟩
    have hzero : (fs.inode j).links = 0 := by
      rw [hrep.counts.links, ← hrep'.counts.links]
      exact hnone
    refine hmem j (hW j (hj.resolve_right fun hne => hne hzero)) ?_
    rintro rfl ⟨hrefuse, hsize⟩
    exact hsafe hrefuse hsize hzero
  | evict i free =>
    have hfs' : pmfsEvictInode fs i free = fs' := congrArg Prod.fst (Option.some.inj hrun)
    obtain ⟨hok, herase⟩ := evict_lists free hlist
    have hrep' := evict_sim (i := i) free hrep
    rw [hfs'] at hok herase hrep'
    refine ⟨⟨⟨t, hrep'⟩, hok⟩, fun j hj hnone hfree => ?_⟩
    have hzero : (fs.inode j).links = 0 := by
      rw [hrep.counts.links, ← hrep'.counts.links]
      exact hnone
    have hne : j ≠ i := by
      rintro rfl
      exact hfree (hsafe hzero)
    rw [herase, List.mem_erase_of_ne hne]
    exact hW j (hj.resolve_right fun hne => hne hzero)

/-- **Orphans stay on the list.** Along every run of calls, failing or not, in which no inode
without links is resized and those that are evicted can be freed, an inode whose link count became 0
and that has not been freed is reached from the head of the list on the medium. -/
theorem orphans_listed {W : Set ℕ} {fs0 : Fs} (h : Ready fs0)
    (hrun : Run (fun fs op => op.Safe fs) fs0 fs W) : ∀ i ∈ W, Reach 0 fs.next fs.head i := by
  have hinv : Ready fs ∧ ∀ i ∈ W, i ∈ fs.truncated := by
    induction hrun with
    | refl => exact ⟨h, fun i hi => absurd hi (Set.notMem_empty i)⟩
    | step _ hv hsafe hexec ih =>
      obtain ⟨hready, hmem⟩ := step_listed ih.1 ih.2 hv hsafe hexec
      exact ⟨hready, fun i hi => hmem i hi.1 hi.2.1 hi.2.2⟩
  intro i hi
  exact hinv.1.2.1.reach (hinv.2 i hi)

/-! ### A file that is unlinked while it is open -/

instance (fs : Fs) (op : Op) : Decidable (op.Valid fs) := by
  cases op <;> unfold Op.Valid <;> infer_instance

/-- A new file system with one file, made by `op`. -/
theorem ready_new {op : Runs.Op} (hrun : Runs.runOps (fun _ _ => True) pmfsInit [op] = some fs)
    (hlist : fs.truncated = [] ∧ fs.head = 0) : Ready fs := by
  refine ⟨Runs.rep_run ⟨_, Runs.rep_init⟩ (Runs.runOps_steps hrun), ?_⟩
  unfold ListOk lists
  rw [hlist.1, hlist.2]
  exact ⟨rfl, List.nodup_nil⟩

/-- The unlinked file is on the list. -/
theorem orphans_listed_one : ∃ fs0 fs W, Ready fs0 ∧ Run (fun fs op => op.Safe fs) fs0 fs W ∧
    384 ∈ W ∧ Reach 0 fs.next fs.head 384 := by
  obtain ⟨fs0, hfs0, hlist, hlinks, ⟨fs1, err⟩, hrun, hv, hzero⟩ :
      ∃ fs0 ∈ Runs.runOps (fun _ _ => True) pmfsInit [.create 128 [0x61] (Runs.plainEnv 384)],
        (fs0.truncated = [] ∧ fs0.head = 0) ∧ (fs0.inode 384).links ≠ 0 ∧
        ∃ r ∈ (Op.unlink 128 [0x61] 384 (Runs.plainEnv 0)).exec fs0,
          (Op.unlink 128 [0x61] 384 (Runs.plainEnv 0)).Valid fs0 ∧ (r.1.inode 384).links = 0 := by
    decide +kernel
  have hready := ready_new hfs0 hlist
  have hsteps := Run.step (P := fun fs op => op.Safe fs) .refl hv trivial hrun
  have hmem : 384 ∈ {i | (i ∈ (∅ : Set ℕ) ∨ (fs0.inode i).links ≠ 0) ∧ (fs1.inode i).links = 0 ∧
      ¬ (Op.unlink 128 [0x61] 384 (Runs.plainEnv 0)).Frees fs0 i} :=
      ⟨Or.inr hlinks, hzero, not_false⟩
  exact ⟨fs0, fs1, _, hready, hsteps, hmem, orphans_listed hready hsteps 384 hmem⟩

instance (fs : Fs) (i : ℕ) (op : Op) : Decidable (op.Frees fs i) := by
  cases op <;> unfold Op.Frees <;> infer_instance

/-- The inode 384 that `make` makes in a new file system is unlinked, and `op` follows: the inode
has no links, is not freed, and is not reached from the head of the list. -/
def LostBy (make : Runs.Op) (op : Op) : Prop :=
  ∃ fs0 fs1 fs2 W, Ready fs0 ∧
    (∃ err, (Op.unlink 128 [0x61] 384 (Runs.plainEnv 0)).exec fs0 = some (fs1, err)) ∧
    (∃ err, op.exec fs1 = some (fs2, err)) ∧
    Runs.runOps (fun _ _ => True) pmfsInit [make] = some fs0 ∧
    Run (fun _ _ => True) fs0 fs2 W ∧ 384 ∈ W ∧ ¬ Reach 0 fs2.next fs2.head 384

theorem lostBy_of_run {make : Runs.Op} {op : Op}
    (h : ∃ fs0 ∈ Runs.runOps (fun _ _ => True) pmfsInit [make],
      (fs0.truncated = [] ∧ fs0.head = 0) ∧ (fs0.inode 384).links ≠ 0 ∧
      (Op.unlink 128 [0x61] 384 (Runs.plainEnv 0)).Valid fs0 ∧
      ∃ r ∈ (Op.unlink 128 [0x61] 384 (Runs.plainEnv 0)).exec fs0, (r.1.inode 384).links = 0 ∧
      op.Valid r.1 ∧
        ¬ op.Frees r.1 384 ∧ ∃ r' ∈ op.exec r.1, (r'.1.inode 384).links = 0 ∧ r'.1.head = 0) :
    LostBy make op := by
  obtain ⟨fs0, hfs0, hlist, hlinks, hv, ⟨fs1, err⟩, hrun, hzero, hv', hfree, ⟨fs2, err'⟩, hrun',
    hzero', hhead⟩ := h
  refine ⟨fs0, fs1, fs2, _, ready_new hfs0 hlist, ⟨err, hrun⟩, ⟨err', hrun'⟩, hfs0,
    (Run.refl.step hv trivial hrun).step hv' trivial hrun', ?_, ?_⟩
  · exact ⟨Or.inl ⟨Or.inr hlinks, hzero, not_false⟩, hzero', hfree⟩
  · rw [show fs2.head = 0 from hhead]
    exact not_reach_nil

/-- The unlinked file is resized. -/
theorem orphan_resized : LostBy (.create 128 [0x61] (Runs.plainEnv 384))
    (.notifyChange 384 ⟨none, some 5, 0, 0, false⟩ none) := lostBy_of_run (by decide +kernel)

/-- The unlinked file is evicted, and `pmfs_free_inode` cannot open its transaction. -/
theorem orphan_not_freed : LostBy (.create 128 [0x61] (Runs.plainEnv 384))
    (.evict 384 (some .ENOMEM)) :=
  lostBy_of_run (by decide +kernel)

theorem device_not_freed : LostBy (.mknod 128 [0x61] (Runs.plainEnv 384)) (.evict 384 none) :=
  lostBy_of_run (by decide +kernel)

end Pmfs.Namei.Orphans
