import Pmfs.Namei.Binding
import Pmfs.Dirs.Empty

/-! # The operations as actions on the tree

`Rep fs t`: the file system `fs` holds the tree `t`. A call that returns 0 keeps it or does an
action of the tree (`create_sim`, ..., `rename_sim`). -/

namespace Pmfs.Namei.Refine

open Lib.Bytes Block.Model Dirs.Model Dirs.Dots Function
open Dirs.Empty (dirOk_empty)
open Namei.Model Namei.Entries Namei.Binding

/-- The inodes, in memory and on the medium, have the given types and link counts. -/
structure Counts (inode : ℕ → Inode) (kinds : ℕ → Option Kind) (count : ℕ → ℕ) : Prop where
  kind : ∀ i, (inode i).kind = kinds i
  links : ∀ i, (inode i).links = count i
  nlink : ∀ i, (inode i).nlink = count i
  max : ∀ i, count i ≤ PMFS_LINK_MAX

/-- The file system holds the tree. -/
structure Rep (fs : Fs) (t : Tree) : Prop where
  counts : Counts fs.inode t.kind t.links
  names : Names fs t
  good : Good t

variable {fs fs' : Fs} {t : Tree} {inode : ℕ → Inode} {kinds : ℕ → Option Kind} {count : ℕ → ℕ}
variable {d i j : ℕ} {n : Name} {k : Kind} {env : Env} {err : Option Errno}

/-! ### Link counts -/

theorem Counts.set (h : Counts inode kinds count) {x : Inode} (hx : x.nlink = x.links)
    (hmax : x.links ≤ PMFS_LINK_MAX) : Counts (update inode i x)
      (update kinds i x.kind) (update count i x.links) := by
  constructor
  all_goals
    intro j
    by_cases hj : j = i
  · subst hj
    simp
  · simpa [update_of_ne hj] using h.kind j
  · subst hj
    simp
  · simpa [update_of_ne hj] using h.links j
  · subst hj
    simpa using hx
  · simpa [update_of_ne hj] using h.nlink j
  · subst hj
    simpa using hmax
  · simpa [update_of_ne hj] using h.max j

theorem Counts.setLinks (h : Counts inode kinds count) {x : Inode} {l : ℕ} (hk : x.kind = kinds i)
    (hl : x.links = l) (hn : x.nlink = l) (hmax : l ≤ PMFS_LINK_MAX) :
    Counts (update inode i x) kinds (update count i l) := by
  have := h.set (i := i) (hn.trans hl.symm) (hl ▸ hmax)
  rwa [hk, hl, update_eq_self] at this

theorem pmfsIncCount_inode : (pmfsIncCount fs i).inode = update fs.inode i
    { fs.inode i with
      nlink := (fs.inode i).nlink + 1, links := ((fs.inode i).nlink + 1) % 65536 } := by
  simp [pmfsIncCount, pmfsUpdateNlink, Fs.setNlink, Fs.setInode]

theorem Counts.inc (h : Counts fs.inode kinds count) (hmax : count i < PMFS_LINK_MAX) :
    Counts (pmfsIncCount fs i).inode kinds (update count i (count i + 1)) := by
  have hn := h.nlink i
  have hlink : PMFS_LINK_MAX = 32000 := rfl
  rw [pmfsIncCount_inode]
  exact h.setLinks (h.kind i) (by dsimp only; omega) (by dsimp only; omega) (by omega)

theorem pmfsDecCount_data : (pmfsDecCount fs i).data = fs.data := by
  unfold pmfsDecCount
  split_ifs <;> rfl

theorem Counts.dec (h : Counts fs.inode kinds count) :
    Counts (pmfsDecCount fs i).inode kinds (update count i (count i - 1)) := by
  have hn := h.nlink i
  have hmax := h.max i
  have hlink : PMFS_LINK_MAX = 32000 := rfl
  unfold pmfsDecCount
  split_ifs with hzero
  · have hinode : (pmfsUpdateNlink (fs.setNlink i ((fs.inode i).nlink - 1)) i).inode =
        update fs.inode i { fs.inode i with
          nlink := (fs.inode i).nlink - 1, links := ((fs.inode i).nlink - 1) % 65536 } := by
      simp [pmfsUpdateNlink, Fs.setNlink, Fs.setInode]
    rw [hinode]
    exact h.setLinks (h.kind i) (by dsimp only; omega) (by dsimp only; omega) (by omega)
  · rw [show count i - 1 = count i by omega, update_eq_self]
    exact h

@[simp] theorem truncateAdd_inode {s : ℕ} : (pmfsTruncateAdd fs i s).inode = fs.inode := by
  unfold pmfsTruncateAdd
  split_ifs <;> rfl

@[simp] theorem truncateAdd_data {s : ℕ} : (pmfsTruncateAdd fs i s).data = fs.data := by
  unfold pmfsTruncateAdd
  split_ifs <;> rfl

@[simp] theorem truncateDel_inode : (pmfsTruncateDel fs i).inode = fs.inode := by
  unfold pmfsTruncateDel
  split_ifs
  · split <;> rfl
  · rfl

@[simp] theorem truncateDel_data : (pmfsTruncateDel fs i).data = fs.data := by
  unfold pmfsTruncateDel
  split_ifs
  · split <;> rfl
  · rfl

/-! ### What a call comes to -/

/-- An inode as `pmfs_new_inode` leaves it, with the data `D`. -/
def newFile (fs : Fs) (k : Kind) (i : ℕ) (D : Dir) : Fs :=
  (fs.setInode i ⟨some k, 1, 1, false, false, false⟩).setData i D

theorem abort_eq {restore : Fs → Fs} {r : Result} :
    r.map (abortOnError (pmfsAddLogentry [] restore)) = r := by
  rcases r with _ | ⟨fs1, _ | e⟩ <;> rfl

theorem fails_at {F : Fs} {e : Errno} (h : some (F, some e) = some (fs', err)) :
    err ≠ none ∧ fs' = F := by
  cases h
  exact ⟨by simp, rfl⟩

theorem createNode_cases (h : createNode fs k d n env = some (fs', err)) :
    fs' = fs ∧ (err = none → env.new.toOption = none) ∨ ∃ i, env.new = .ok i ∧
    pmfsAddNondir (newFile fs k i ⟨0, fun _ => none, 0⟩) d n i env = some (fs', err) := by
  unfold createNode at h
  split at h
  · exact Or.inl ⟨(fails_at h).2, fun hnone => absurd hnone (fails_at h).1⟩
  cases hino : env.new with
  | error e =>
    rw [hino] at h
    exact Or.inl ⟨(Prod.mk.inj (Option.some.inj h)).1.symm, fun _ => rfl⟩
  | ok i =>
    rw [hino] at h
    exact Or.inr ⟨i, rfl, abort_eq.symm.trans h⟩

theorem symlink_cases {len : ℕ} (h : pmfsSymlink fs d n len env = some (fs', err)) :
    (err ≠ none ∧ fs' = fs) ∨ ∃ i, env.new = .ok i ∧
      ((err ≠ none ∧
      fs' = pmfsEvictInode (pmfsDecCount (newFile fs .lnk i ⟨0, fun _ => none, 0⟩) i) i env.free) ∨
        pmfsAddNondir (newFile fs .lnk i ⟨len, fun _ => none, 0⟩) d n i env = some (fs', err)) := by
  unfold pmfsSymlink at h
  split_ifs at h
  · exact Or.inl (fails_at h)
  split at h
  · exact Or.inl (fails_at h)
  cases hino : env.new with
  | error e =>
    rw [hino] at h
    exact Or.inl (fails_at h)
  | ok i =>
    refine Or.inr ⟨i, rfl, ?_⟩
    rw [hino] at h
    simp only [pmfsNewInode, abort_eq] at h
    split at h
    · exact Or.inl (fails_at h)
    · rw [setData_data_self, setData_setData] at h
      exact Or.inr h

theorem link_cases (h : pmfsLink fs i d n env = some (fs', err)) :
    (err ≠ none ∧ fs' = fs) ∨ (fs.inode i).nlink < PMFS_LINK_MAX ∧ ∃ fs1,
      addEntry fs d n i env.grow = some (fs1, err) ∧
      fs' = if err = none then pmfsIncCount fs1 i else fs1 := by
  unfold pmfsLink at h
  split_ifs at h with hmax
  · exact Or.inl (fails_at h)
  split at h
  · exact Or.inl (fails_at h)
  · obtain ⟨⟨fs1, e⟩, hadd, heq⟩ := Option.map_eq_some_iff.mp h
    refine Or.inr ⟨not_le.mp hmax, fs1, ?_⟩
    cases e <;> cases heq <;> exact ⟨hadd, rfl⟩

theorem addEntry_inode {grow : Except Errno Blk} (h : addEntry fs d n i grow = some (fs', err)) :
    fs'.inode = fs.inode := by
  obtain ⟨r, -, hr⟩ := Option.map_eq_some_iff.mp h
  cases hr
  rfl

theorem mkdir_cases (h : pmfsMkdir fs d n env = some (fs', err)) :
    (err ≠ none ∧ fs' = fs) ∨ (fs.inode d).nlink < PMFS_LINK_MAX ∧ ∃ i, env.new = .ok i ∧
      ((err ≠ none ∧ fs' = clearInode (newFile fs .dir i ⟨0, fun _ => none, 0⟩) i env) ∨ ∃ b fs1,
        addEntry ((newFile fs .dir i ⟨4096, update (fun _ => none) 0 (some (makeEmpty b i d)),
        0⟩).setNlink i 2)
          d n i env.grow = some (fs1, err) ∧
        fs' = if err = none then pmfsIncCount (pmfsUpdateNlink fs1 i) d
        else clearInode fs1 i env) := by
  unfold pmfsMkdir at h
  split_ifs at h with hmax
  · exact Or.inl (fails_at h)
  split at h
  · exact Or.inl (fails_at h)
  cases hino : env.new with
  | error e =>
    rw [hino] at h
    exact Or.inl (fails_at h)
  | ok i =>
    refine Or.inr ⟨not_le.mp hmax, i, rfl, ?_⟩
    rw [hino] at h
    simp only [pmfsNewInode, abort_eq] at h
    split at h
    · exact Or.inl (fails_at h)
    · rename_i b _
      obtain ⟨⟨fs1, e⟩, hadd, heq⟩ := Option.map_eq_some_iff.mp h
      rw [setData_setData] at hadd
      refine Or.inr ⟨b, fs1, ?_⟩
      cases e <;> cases heq <;> exact ⟨hadd, rfl⟩

/-- What follows `pmfs_remove_entry` in a call that then does `done`. -/
theorem remove_cases (done : Fs → Fs) {r : Fs × Option Errno}
    (h : (match r with | (F, some e) => (F, some e) | (F, none) => (done F, none)) = (fs', err)) :
    (err ≠ none ∧ r = (fs', err)) ∨ err = none ∧ r.2 = none ∧ fs' = done r.1 := by
  obtain ⟨fs1, _ | e⟩ := r <;> cases h
  · exact Or.inr ⟨rfl, rfl, rfl⟩
  · exact Or.inl ⟨by simp, rfl⟩

theorem unlink_cases (h : pmfsUnlink fs d n i env = (fs', err)) :
    (err ≠ none ∧ (fs' = fs ∨ removeEntry fs d n = (fs', err))) ∨
      err = none ∧ fs' = unlinked i (removeEntry fs d n).1 := by
  unfold pmfsUnlink at h
  split at h
  · exact Or.inl ((fails_at (congrArg some h)).imp_right Or.inl)
  · exact (remove_cases (unlinked i) h).imp (And.imp_right Or.inr) (And.imp_right And.right)

theorem rmdir_cases (h : pmfsRmdir fs d n i env = some (fs', err)) :
    (err ≠ none ∧ (fs' = lookUp fs d n ∨ removeEntry (lookUp fs d n) d n = (fs', err))) ∨
      err = none ∧ pmfsEmptyDir ((lookUp fs d n).data i) i = some true ∧
        fs' = rmdirDone d i (removeEntry (lookUp fs d n) d n).1 := by
  unfold pmfsRmdir at h
  split_ifs at h
  · exact Or.inl ((fails_at h).imp_right Or.inl)
  obtain ⟨empty, hempty, heq⟩ := Option.map_eq_some_iff.mp h
  split_ifs at heq with htrue
  · rw [htrue] at hempty
    unfold rmdirEmpty at heq
    split at heq
    · exact Or.inl ((fails_at (congrArg some heq)).imp_right Or.inl)
    · exact (remove_cases (rmdirDone d i) heq).imp (And.imp_right Or.inr) fun h =>
        ⟨h.1, hempty, h.2.2⟩
  · exact Or.inl ((fails_at (congrArg some heq)).imp_right Or.inl)

/-- The state of `pmfs_rename` after the two lookups. -/
def renameStart (fs : Fs) (a : RenameArgs) : Fs :=
  lookUp (lookUp fs a.newDir a.newName) a.oldDir a.oldName

theorem rename_cases {a : RenameArgs} (h : pmfsRename fs a env = some (fs', err)) :
    (err ≠ none ∧ fs' = renameStart fs a ∧
      (env.trans ≠ none ∨ ∃ e, renameCheck (renameStart fs a) a = some (some e))) ∨
    env.trans = none ∧ renameCheck (renameStart fs a) a = some none ∧ ∃ fs1 e,
      renameBind (renameStart fs a) a (findEntry (fs.data a.newDir) a.newName) env = some (fs1, e) ∧
        (e ≠ none ∧ e = err ∧ fs' = fs1 ∨ e = none ∧
          (err ≠ none ∧ removeEntry fs1 a.oldDir a.oldName = (fs', err) ∨ err = none ∧
            (removeEntry fs1 a.oldDir a.oldName).2 = none ∧
              fs' = renameCount (removeEntry fs1 a.oldDir a.oldName).1 a)) := by
  change renameFrom (renameStart fs a) a _ env = _ at h
  unfold renameFrom at h
  cases htrans : env.trans with
  | some e =>
    rw [htrans] at h
    exact Or.inl ⟨(fails_at h).1, (fails_at h).2, Or.inl (by simp)⟩
  | none =>
    rw [htrans] at h
    obtain ⟨check, hcheck, hrest⟩ := Option.bind_eq_some_iff.mp h
    cases check with
    | some e => exact Or.inl ⟨(fails_at hrest).1, (fails_at hrest).2, Or.inr ⟨e, hcheck⟩⟩
    | none =>
      obtain ⟨⟨fs1, e⟩, hbind, heq⟩ := Option.map_eq_some_iff.mp hrest
      refine Or.inr ⟨rfl, hcheck, fs1, e, hbind, ?_⟩
      cases e with
      | some e =>
        cases heq
        exact Or.inl ⟨by simp, rfl, rfl⟩
      | none => exact Or.inr ⟨rfl, remove_cases (renameCount · a) heq⟩

/-! ### New files -/

/-- The directory is in use. -/
def FsDir (fs : Fs) (d : ℕ) : Prop := (fs.inode d).kind = some .dir ∧ (fs.inode d).links ≠ 0

/-- The file system changes, but not the link counts and not the blocks of directories. -/
theorem Rep.of_same (h : Rep fs t) (hcounts : Counts fs'.inode t.kind t.links)
    (hdata : ∀ e, t.IsDir e → fs'.data e = fs.data e) : Rep fs' t :=
  ⟨hcounts, h.names.mono fun e he => ⟨he, hdata e he, rfl, fun _ _ => Iff.rfl⟩, h.good⟩

theorem Rep.isDir (h : Rep fs t) : FsDir fs d ↔ t.IsDir d := by
  unfold FsDir Tree.IsDir
  rw [h.counts.kind, h.counts.links]

/-- What `pmfs_new_inode` returns is an inode that is not in use. -/
def FreeInode (fs : Fs) (i : ℕ) : Prop :=
  i ≠ 0 ∧ i < 256 ^ 8 ∧ (fs.inode i).links = 0 ∧
    ((fs.inode i).kind = none ∨ (fs.inode i).dtime = true)

/-- The directory is in use and has no entry for the name, as the negative dentry says. -/
def Absent (fs : Fs) (d : ℕ) (n : Name) : Prop :=
  FsDir fs d ∧ NameOk n ∧ pmfsInodeByName (fs.data d) n = 0

/-- The directory is in use and has an entry for the name, as the dentry says. -/
def Present (fs : Fs) (d : ℕ) (n : Name) (i : ℕ) : Prop :=
  FsDir fs d ∧ NameOk n ∧ pmfsInodeByName (fs.data d) n = i ∧ i ≠ 0

theorem Rep.absent (h : Rep fs t) (ha : Absent fs d n) : t.IsDir d ∧
    ∀ j, (d, n, j) ∉ t.entries := by
  obtain ⟨hd, hn, hzero⟩ := ha
  have hdir := h.isDir.mp hd
  exact ⟨hdir, ((h.names d hdir).lookup_zero hn).mp hzero⟩

theorem Rep.present (h : Rep fs t) (hp : Present fs d n i) : t.IsDir d ∧ (d, n, i) ∈ t.entries := by
  obtain ⟨hd, hn, hlook, hi⟩ := hp
  have hdir := h.isDir.mp hd
  exact ⟨hdir, ((h.names d hdir).lookup_iff hn hi).mp hlook⟩

/-- The number of an inode that has a name fits in a record. -/
theorem Rep.ino_lt (h : Rep fs t) (hmem : (d, n, i) ∈ t.entries) : i < 256 ^ 8 ∧ i ≠ 0 := by
  have hrep := h.names d (h.good.home _ hmem)
  obtain ⟨k, b, x, -, -, -, -, his, hino⟩ :=
    mem_live_start hrep.ok.laid.toTidy ((hrep.iff n i).mp hmem).1
  rw [← hino]
  exact ⟨le_lt, his.1⟩

theorem addNondir_ok (h : pmfsAddNondir fs d n i env = some (fs', none)) :
    addEntry fs d n i env.grow = some (fs', none) := by
  obtain ⟨⟨fs1, e⟩, hadd, heq⟩ := Option.map_eq_some_iff.mp h
  cases e with
  | none =>
    rw [hadd]
    exact congrArg some heq
  | some e => simp at heq

theorem isDir_update (hd : t.IsDir d) (hdi : d ≠ i) {E : Finset Ent} {x : Option Kind} {l : ℕ}
    {parent : ℕ → ℕ} :
    Tree.IsDir ⟨E, update t.kind i x, update t.links i l, parent⟩ d := by
  unfold Tree.IsDir
  dsimp only
  rw [update_of_ne hdi, update_of_ne hdi]
  exact hd

/-- A new inode that is no directory and has no name yet. -/
theorem Rep.newInode (h : Rep fs t) (hi : FreeInode fs i) (hk : k ≠ .dir) (D : Dir) :
    Names ((fs.setInode i ⟨some k, 1, 1, false, false, false⟩).setData i D)
      { t with kind := update t.kind i (some k), links := update t.links i 1 } := by
  refine h.names.mono fun e he => ?_
  have hei : e ≠ i := by
    rintro rfl
    exact hk (Option.some.inj ((update_self e (some k) t.kind).symm.trans he.1))
  refine ⟨⟨?_, ?_⟩, setData_data_of_ne hei, rfl, fun _ _ => Iff.rfl⟩
  · have := he.1
    simpa [update_of_ne hei] using this
  · have := he.2
    simpa [update_of_ne hei] using this

theorem Rep.create (h : Rep fs t) (ha : Absent fs d n) (hi : FreeInode fs i)
    (hk : k ≠ .dir) {D : Dir} {grow : Except Errno Blk}
    (hadd : addEntry ((fs.setInode i ⟨some k, 1, 1, false, false, false⟩).setData i D) d n i grow =
      some (fs', none)) :
    (Action.create d n i k).Ok t ∧ Rep fs' ((Action.create d n i k).apply t) := by
  obtain ⟨hd, hno⟩ := h.absent ha
  have hlinks : t.links i = 0 := (h.counts.links i).symm.trans hi.2.2.1
  have hok : (Action.create d n i k).Ok t := ⟨hd, hno, hlinks, hk⟩
  have hdi : d ≠ i := fun heq => hd.2 (heq ▸ hlinks)
  obtain ⟨⟨D', rfl⟩, hnames⟩ :=
    (h.newInode hi hk D).bind (isDir_update hd hdi) ha.2.1 hno hi.1 hi.2.1 hadd
  refine ⟨hok, ?_, hnames, good_apply h.good hok⟩
  exact h.counts.set rfl (show 1 ≤ 32000 by omega)

theorem create_sim (h : Rep fs t) (ha : Absent fs d n)
    (hnew : ∀ i, env.new = .ok i → FreeInode fs i) (hk : k ≠ .dir)
    (hrun : createNode fs k d n env = some (fs', none)) : fs' = fs ∧ env.new.toOption = none ∨
      ∃ i, env.new = .ok i ∧ (Action.create d n i k).Ok t ∧
      Rep fs' ((Action.create d n i k).apply t) := by
  rcases createNode_cases hrun with ⟨heq, hno⟩ | ⟨i, hino, hnondir⟩
  · exact Or.inl ⟨heq, hno rfl⟩
  · exact Or.inr ⟨i, hino, h.create ha (hnew i hino) hk (addNondir_ok hnondir)⟩

theorem symlink_sim {len : ℕ} (h : Rep fs t) (ha : Absent fs d n)
    (hnew : ∀ i, env.new = .ok i → FreeInode fs i)
    (hrun : pmfsSymlink fs d n len env = some (fs', none)) : ∃ i, env.new = .ok i ∧
    (Action.create d n i .lnk).Ok t ∧
      Rep fs' ((Action.create d n i .lnk).apply t) := by
  rcases symlink_cases hrun with ⟨hne, -⟩ | ⟨i, hino, ⟨hne, -⟩ | hnondir⟩
  · exact absurd rfl hne
  · exact absurd rfl hne
  · exact ⟨i, hino, h.create ha (hnew i hino) (by decide) (addNondir_ok hnondir)⟩

/-! ### Links -/

/-- An inode in use that is no directory has a name. -/
theorem Rep.named (h : Rep fs t) (hk : t.kind i ≠ some .dir) (hi : t.links i ≠ 0) :
    ∃ d n, (d, n, i) ∈ t.entries := by
  by_contra hno
  rw [h.good.file i hk] at hi
  refine hi (cnt_eq_zero.mpr ?_)
  rintro ⟨d, n, j⟩ hx rfl
  exact hno ⟨d, n, hx⟩

/-- Link counts change, and no directory comes into use. -/
theorem names_counts {links : ℕ → ℕ} (h : Names fs t) (hdata : fs'.data = fs.data)
    (hlinks : ∀ e, t.kind e = some .dir → links e ≠ 0 → t.links e ≠ 0) :
    Names fs' { t with links := links } :=
  h.mono fun e he => ⟨⟨he.1, hlinks e he.1 he.2⟩, congrFun hdata e, rfl, fun _ _ => Iff.rfl⟩

theorem link_sim (h : Rep fs t) (ha : Absent fs d n) (hk : (fs.inode i).kind ≠ some .dir)
    (hi : (fs.inode i).links ≠ 0) (hrun : pmfsLink fs i d n env = some (fs', none)) :
    (Action.link d n i).Ok t ∧ Rep fs' ((Action.link d n i).apply t) := by
  obtain ⟨hd, hno⟩ := h.absent ha
  rw [h.counts.kind] at hk
  rw [h.counts.links] at hi
  have hok : (Action.link d n i).Ok t := ⟨hd, hno, hk⟩
  obtain ⟨_, _, hmem⟩ := h.named hk hi
  obtain ⟨hlt, hzero⟩ := h.ino_lt hmem
  obtain ⟨hmax, fs1, hadd, rfl⟩ := (link_cases hrun).resolve_left fun hcon => hcon.1 rfl
  obtain ⟨⟨D, rfl⟩, hnames⟩ := h.names.bind hd ha.2.1 hno hzero hlt hadd
  rw [h.counts.nlink] at hmax
  have hcounts : Counts (fs.setData d D).inode t.kind t.links := h.counts
  refine ⟨hok, hcounts.inc hmax, ?_, good_apply h.good hok⟩
  refine names_counts hnames rfl fun e he hne hzero' => ?_
  have hei : e ≠ i := fun heq => hk (heq ▸ he)
  rw [update_of_ne hei] at hne
  exact hne hzero'

theorem unlink_sim (h : Rep fs t) (hp : Present fs d n i) (hk : (fs.inode i).kind ≠ some .dir)
    (hrun : pmfsUnlink fs d n i env = (fs', none)) :
    (Action.unlink d n i).Ok t ∧ Rep fs' ((Action.unlink d n i).apply t) := by
  obtain ⟨hd, hmem⟩ := h.present hp
  rw [h.counts.kind] at hk
  have hok : (Action.unlink d n i).Ok t := ⟨hmem, hk⟩
  obtain ⟨-, ⟨D, hD⟩, hnames⟩ := h.names.unbind hd hp.2.1 hmem
  obtain ⟨-, rfl⟩ := (unlink_cases hrun).resolve_left fun hcon => hcon.1 rfl
  rw [hD] at hnames ⊢
  have hcounts : Counts (if ((fs.setData d D).inode i).nlink = 1 then
      pmfsTruncateAdd (fs.setData d D) i ((fs.setData d D).data i).iSize else fs.setData d D).inode
      t.kind t.links := by
    split_ifs
    · rw [truncateAdd_inode]
      exact h.counts
    · exact h.counts
  have hdata : (unlinked i (fs.setData d D)).data = (fs.setData d D).data := by
    unfold unlinked
    rw [pmfsDecCount_data]
    split_ifs
    · exact truncateAdd_data
    · rfl
  refine ⟨hok, hcounts.dec, ?_, good_apply h.good hok⟩
  refine names_counts hnames hdata fun e he hne hzero => ?_
  have hei : e ≠ i := fun heq => hk (heq ▸ he)
  rw [update_of_ne hei] at hne
  exact hne hzero

/-! ### Directories -/

theorem Rep.dir_lt (h : Rep fs t) (hd : t.IsDir d) : d < 256 ^ 8 ∧ d ≠ 0 := by
  have hok := (h.names d hd).ok
  obtain ⟨b, hb, -⟩ := hok.wf.mapped 0 hok.pos
  refine ⟨?_, hok.ino⟩
  rw [← (hok.head b hb).ino]
  exact le_lt

theorem Rep.newDir (h : Rep fs t) (hi : FreeInode fs i) (hd : t.IsDir d) (b : Blk) (l : ℕ) :
    Names ((newFile fs .dir i ⟨4096, update (fun _ => none) 0 (some (makeEmpty b i d)),
    0⟩).setNlink i l)
      { t with
        kind := update t.kind i (some .dir)
        links := update t.links i l
        parent := update t.parent i d } := by
  have hlinks : t.links i = 0 := (h.counts.links i).symm.trans hi.2.2.1
  intro e he
  by_cases hei : e = i
  · subst hei
    obtain ⟨hok, hlive⟩ := DirOk.new hi.2.1 (h.dir_lt hd).1 hi.1 (h.dir_lt hd).2
    have hself : ∀ D, ((newFile fs .dir e D).setNlink e l).data e = D := fun _ => setData_data_self
    rw [← hself ⟨4096, _, 0⟩] at hok hlive
    refine ⟨by simpa using hok, fun n j => ⟨fun hmem => ?_, ?_⟩⟩
    · exact absurd rfl (h.good.fresh hlinks _ hmem).1
    · rintro ⟨hmem, h1, h2⟩
      rw [hlive] at hmem
      simp only [Multiset.insert_eq_cons, Multiset.mem_cons, Multiset.mem_singleton,
        Prod.mk.injEq] at hmem
      rcases hmem with ⟨rfl, -⟩ | ⟨rfl, -⟩
      · exact absurd rfl h1
      · exact absurd rfl h2
  · have hold : t.IsDir e := by
      have h1 := he.1
      have h2 := he.2
      dsimp only at h1 h2
      rw [update_of_ne hei] at h1 h2
      exact ⟨h1, h2⟩
    obtain ⟨hok, hiff⟩ := h.names e hold
    have hother : ∀ D, ((newFile fs .dir i D).setNlink i l).data e = fs.data e :=
      fun _ => setData_data_of_ne hei
    exact ⟨by simpa [hother, update_of_ne hei] using hok, by rwa [hother]⟩

/-- A new directory gets its name, and its parent a link. -/
theorem Rep.mkdir (h : Rep fs t) (ha : Absent fs d n) (hi : FreeInode fs i)
    (hmax : t.links d < PMFS_LINK_MAX) {b : Blk} {grow : Except Errno Blk}
    (hadd : addEntry ((newFile fs .dir i ⟨4096, update (fun _ => none) 0 (some (makeEmpty b i d)),
    0⟩).setNlink i 2)
      d n i grow = some (fs', none)) :
    Rep (pmfsIncCount (pmfsUpdateNlink fs' i) d) ((Action.mkdir d n i).apply t) := by
  obtain ⟨hd, hno⟩ := h.absent ha
  have hlinks : t.links i = 0 := (h.counts.links i).symm.trans hi.2.2.1
  have hok : (Action.mkdir d n i).Ok t := ⟨hd, hno, hlinks⟩
  have hdi : d ≠ i := fun heq => hd.2 (heq ▸ hlinks)
  obtain ⟨⟨D', rfl⟩, hnames⟩ :=
    (h.newDir hi hd b 2).bind (isDir_update hd hdi) ha.2.1 hno hi.1 hi.2.1 hadd
  have hone : (1 : ℕ) < PMFS_LINK_MAX := show 1 < 32000 by omega
  have hinode : (pmfsUpdateNlink
    (((newFile fs .dir i ⟨4096, update (fun _ => none) 0 (some (makeEmpty b i d)),
      0⟩).setNlink i 2).setData d D') i).inode = update fs.inode i ⟨some .dir, 2, 2,
      false, false, false⟩ := by
    simp [newFile, pmfsUpdateNlink, Fs.setNlink, Fs.setInode, Fs.setData]
  have hcounts := h.counts.set (i := i) (x := ⟨some .dir, 2, 2, false, false, false⟩) rfl hone
  rw [← hinode] at hcounts
  have hinc := hcounts.inc (by rwa [update_of_ne hdi])
  have hlinks' : update t.links i 2 d + 1 = t.links d + 1 := by rw [update_of_ne hdi]
  refine ⟨?_, ?_, good_apply h.good hok⟩
  · rw [hlinks'] at hinc
    exact hinc
  · refine names_counts hnames rfl fun e _ hne hzero => ?_
    by_cases hed : e = d
    · subst hed
      exact (isDir_update hd hdi).2 hzero
    · rw [update_of_ne hed] at hne
      exact hne hzero

theorem mkdir_sim (h : Rep fs t) (ha : Absent fs d n) (hnew : ∀ i, env.new = .ok i → FreeInode fs i)
    (hrun : pmfsMkdir fs d n env = some (fs', none)) :
    ∃ i, env.new = .ok i ∧ (Action.mkdir d n i).Ok t ∧ Rep fs' ((Action.mkdir d n i).apply t) := by
  obtain ⟨hd, hno⟩ := h.absent ha
  rcases mkdir_cases hrun with ⟨hne, -⟩ | ⟨hmax, i, hino, ⟨hne, -⟩ | ⟨b, fs1, hadd, rfl⟩⟩
  · exact absurd rfl hne
  · exact absurd rfl hne
  · rw [h.counts.nlink] at hmax
    have hi := hnew i hino
    exact ⟨i, hino, ⟨hd, hno, (h.counts.links i).symm.trans hi.2.2.1⟩, h.mkdir ha hi hmax hadd⟩

theorem Rep.lookUp (h : Rep fs t) (d : ℕ) (n : Name) : Rep (lookUp fs d n) t :=
  ⟨h.counts, h.names.lookUp d n, h.good⟩

theorem Rep.empty (h : Rep fs t) (hi : t.IsDir i) (hrun : pmfsEmptyDir (fs.data i) i = some true) :
    ∀ x ∈ t.entries, x.1 ≠ i := by
  rintro ⟨d, n, j⟩ hx rfl
  have hrep := h.names d hi
  obtain ⟨hlive, h1, h2⟩ := (hrep.iff n j).mp hx
  rcases dirOk_empty hrep.ok hrun hlive with rfl | rfl
  · exact h1 rfl
  · exact h2 rfl

/-- A directory loses its name, and its parent a link. -/
theorem Rep.rmdir (h : Rep fs t) (hn : NameOk n) (hok : (Action.rmdir d n i).Ok t) :
    Rep (rmdirDone d i (removeEntry fs d n).1) ((Action.rmdir d n i).apply t) := by
  obtain ⟨hmem, hk, hempty⟩ := id hok
  obtain ⟨-, ⟨D, hD⟩, hnames⟩ := h.names.unbind (h.good.home _ hmem) hn hmem
  rw [hD] at hnames ⊢
  have hdi : d ≠ i := hempty _ hmem
  have hinode : (pmfsTruncateAdd (pmfsUpdateNlink ((fs.setData d D).setNlink i 0) i) i
      ((fs.setData d D).data i).iSize).inode =
      update fs.inode i { fs.inode i with nlink := 0, links := 0 } := by
    rw [truncateAdd_inode]
    simp [pmfsUpdateNlink, Fs.setNlink, Fs.setInode, Fs.setData]
  have hcounts := h.counts.setLinks (i := i) (x := { fs.inode i with nlink := 0, links := 0 })
    (h.counts.kind i) rfl rfl (Nat.zero_le _)
  rw [← hinode] at hcounts
  have hdec := hcounts.dec (i := d)
  rw [show update t.links i 0 d = t.links d from update_of_ne hdi _ _] at hdec
  refine ⟨hdec, names_counts hnames ?_ fun e _ hne hzero => ?_, good_apply h.good hok⟩
  · unfold rmdirDone
    rw [pmfsDecCount_data, truncateAdd_data]
    rfl
  · by_cases hed : e = d
    · subst hed
      exact (h.good.home _ hmem).2 hzero
    · rw [update_of_ne hed] at hne
      by_cases hei : e = i
      · subst hei
        exact hne (update_self _ _ _)
      · rw [update_of_ne hei] at hne
        exact hne hzero

theorem rmdir_sim (h : Rep fs t) (hp : Present fs d n i) (hk : (fs.inode i).kind = some .dir)
    (hrun : pmfsRmdir fs d n i env = some (fs', none)) :
    (Action.rmdir d n i).Ok t ∧ Rep fs' ((Action.rmdir d n i).apply t) := by
  obtain ⟨-, hmem⟩ := h.present hp
  rw [h.counts.kind] at hk
  obtain ⟨-, hempty, rfl⟩ := (rmdir_cases hrun).resolve_left fun hcon => hcon.1 rfl
  have hlook := h.lookUp d n
  have hok : (Action.rmdir d n i).Ok t :=
    ⟨hmem, hk, hlook.empty ⟨hk, h.good.target _ hmem hk⟩ hempty⟩
  exact ⟨hok, hlook.rmdir hp.2.1 hok⟩

/-! ### Rename -/

/-- What the VFS asks of the arguments: both names are as the dentries say, and if there is an inode
to be replaced, it is another one and of the same sort. -/
def RenameOk (fs : Fs) (a : RenameArgs) : Prop :=
  Present fs a.oldDir a.oldName a.oldIno ∧
    match a.newIno with
    | none => Absent fs a.newDir a.newName
    | some j => Present fs a.newDir a.newName j ∧ a.oldIno ≠ j ∧
        ((fs.inode a.oldIno).kind = some .dir ↔ (fs.inode j).kind = some .dir)

variable {a : RenameArgs}

theorem Rep.start (h : Rep fs t) (a : RenameArgs) : Rep (renameStart fs a) t :=
  (h.lookUp _ _).lookUp _ _

theorem lookUp_blk {e : ℕ} : ((lookUp fs d n).data e).blk = (fs.data e).blk := by
  unfold lookUp
  by_cases he : e = d
  · subst he
    rw [setData_data_self]
    unfold lookedUp
    cases findEntry (fs.data e) n <;> rfl
  · rw [setData_data_of_ne he]

theorem rename_ok (hrun : pmfsRename fs a env = some (fs', none)) :
    renameCheck (renameStart fs a) a = some none ∧ ∃ fs1,
      renameBind (renameStart fs a) a (findEntry (fs.data a.newDir) a.newName) env =
      some (fs1, none) ∧ fs' = renameCount (removeEntry fs1 a.oldDir a.oldName).1 a := by
  rcases rename_cases hrun with ⟨hne, -⟩ | ⟨-, hcheck, fs1, e, hbind,
    ⟨hne, rfl, -⟩ | ⟨rfl, ⟨hne, -⟩ | ⟨-, -, heq⟩⟩⟩
  · exact absurd rfl hne
  · exact absurd rfl hne
  · exact absurd rfl hne
  · exact ⟨hcheck, fs1, hbind, heq⟩

theorem Rep.bind_absent (h : Rep fs t) (ha : Absent fs a.newDir a.newName) (F : Fs) :
    renameBind F a (findEntry (fs.data a.newDir) a.newName) env =
      addEntry F a.newDir a.newName a.oldIno env.grow := by
  obtain ⟨hd, hno⟩ := h.absent ha
  have hrep := h.names a.newDir hd
  cases hfind : findEntry (fs.data a.newDir) a.newName with
  | found k o =>
    obtain ⟨b, prev, hb, hsearch⟩ := findEntry_found hfind
    exact absurd (search_live hrep.ok.wf hb hsearch).2.2.2.2.2 (hrep.absent ha.2.1 hno _)
  | stop | nothing | endless => rfl

/-- The new name is there, and its record is found. -/
theorem found_of_present (hp : Present fs d n i) :
    ∃ k o b prev, findEntry (fs.data d) n = .found k o ∧ (fs.data d).blk k = some b ∧
    pmfsSearchDirblock b n = .found o prev := by
  obtain ⟨-, -, hlook, hi⟩ := hp
  cases hfind : findEntry (fs.data d) n with
  | found k o =>
    obtain ⟨b, prev, hb, hsearch⟩ := findEntry_found hfind
    exact ⟨k, o, b, prev, rfl, hb, hsearch⟩
  | stop | nothing | endless =>
    simp only [pmfsInodeByName, hfind] at hlook
    exact absurd hlook.symm hi

theorem isDir_iff (h : Counts fs.inode kinds count) : a.isDir fs ↔ kinds a.oldIno = some .dir := by
  unfold RenameArgs.isDir
  rw [h.kind]

theorem moved_of_ne {d' e : ℕ} (h : e ≠ d) (h' : e ≠ d') : moved t d i d' e = t.links e := by
  unfold moved
  split_ifs
  · rw [update_of_ne h, update_of_ne h']
  · rfl

theorem Rep.count_moved {d' : ℕ} {n' : Name} (h : Rep fs t) (hok : (Action.rename d n i d' n').Ok t)
    (ha : a = ⟨d, n, i, d', n', none⟩) (hinode : fs'.inode = fs.inode)
    (hmax : t.kind i = some .dir → t.links d' < PMFS_LINK_MAX)
    (hnames : Names fs' { t with entries := insert (d', n', i) (t.entries.erase (d, n, i)) }) :
    Rep (renameCount fs' a) ((Action.rename d n i d' n').apply t) := by
  subst ha
  have hcounts : Counts fs'.inode t.kind t.links := hinode ▸ h.counts
  have hlinks : ∀ e, t.kind e = some .dir → moved t d i d' e ≠ 0 → t.links e ≠ 0 := by
    intro e _ hne
    by_cases hed : e = d
    · exact hed ▸ (h.good.home _ hok.1).2
    by_cases hed' : e = d'
    · exact hed' ▸ hok.2.1.2
    rwa [moved_of_ne hed hed'] at hne
  unfold renameCount
  by_cases hk : t.kind i = some .dir
  · rw [if_pos ((isDir_iff hcounts).mpr hk)]
    have hmoved : moved t d i d' = update (update t.links d' (t.links d' + 1)) d
        (update t.links d' (t.links d' + 1) d - 1) := if_pos hk
    refine ⟨?_, names_counts hnames pmfsDecCount_data hlinks, good_apply h.good hok⟩
    have hmove := (hcounts.inc (hmax hk)).dec (i := d)
    rwa [← hmoved] at hmove
  · rw [if_neg fun hcon => hk ((isDir_iff hcounts).mp hcon)]
    have hmoved : moved t d i d' = t.links := if_neg hk
    refine ⟨?_, names_counts hnames rfl hlinks, good_apply h.good hok⟩
    show Counts _ t.kind (moved t d i d')
    rwa [hmoved]

theorem rename_sim (h : Rep fs t) (ha : RenameOk fs a) (hnew : a.newIno = none)
    (hrun : pmfsRename fs a env = some (fs', none)) :
    (Action.rename a.oldDir a.oldName a.oldIno a.newDir a.newName).Ok t ∧
      Rep fs' ((Action.rename a.oldDir a.oldName a.oldIno a.newDir a.newName).apply t) := by
  obtain ⟨hold, habs⟩ := ha
  rw [hnew] at habs
  obtain ⟨hdir, hmem⟩ := h.present hold
  obtain ⟨hdir', hno⟩ := h.absent habs
  have hok : (Action.rename a.oldDir a.oldName a.oldIno a.newDir a.newName).Ok t :=
    ⟨hmem, hdir', hno⟩
  obtain ⟨hcheck, fs1, hbind, rfl⟩ := rename_ok hrun
  rw [h.bind_absent habs] at hbind
  obtain ⟨hlt, hzero⟩ := h.ino_lt hmem
  obtain ⟨⟨D, rfl⟩, hnames⟩ := (h.start a).names.bind hdir' habs.2.1 hno hzero hlt hbind
  obtain ⟨-, ⟨D', hD⟩, hnames'⟩ := hnames.unbind hdir hold.2.1 (Finset.mem_insert_of_mem hmem)
  have hne : (a.newDir, a.newName, a.oldIno) ≠ (a.oldDir, a.oldName, a.oldIno) :=
    fun heq => hno _ (heq ▸ hmem)
  rw [hD] at hnames' ⊢
  rw [Finset.erase_insert_of_ne hne] at hnames'
  refine ⟨hok, h.count_moved hok ?_ rfl (fun hk => ?_) hnames'⟩
  · rw [← hnew]
  · by_contra hcon
    unfold renameCheck at hcheck
    rw [hnew, (h.start a).counts.nlink] at hcheck
    rw [if_pos ⟨(isDir_iff (h.start a).counts).mpr hk, Nat.le_of_not_lt hcon⟩] at hcheck
    simp at hcheck

/-- Dropping links in memory, as `renameLose` does it. -/
theorem dropNlink_inode : (dropNlink fs i).inode =
    update fs.inode i { fs.inode i with nlink := (fs.inode i).nlink - 1 } := by
  unfold dropNlink
  split_ifs with hzero
  · rfl
  · rw [not_not] at hzero
    rw [hzero, show 0 - 1 = (fs.inode i).nlink by omega, update_eq_self]

theorem dropNlink_data : (dropNlink fs i).data = fs.data := by
  unfold dropNlink
  split_ifs <;> rfl

/-- `renameLose` without the truncate list. -/
def lost (fs : Fs) (a : RenameArgs) (j : ℕ) : Fs :=
  pmfsUpdateNlink (dropNlink (if a.isDir fs then dropNlink fs j else fs) j) j

theorem renameLose_eq : renameLose fs a j = if ((lost fs a j).inode j).nlink = 0 then
    pmfsTruncateAdd (lost fs a j) j ((lost fs a j).data j).iSize else lost fs a j := rfl

theorem renameLose_data : (renameLose fs a j).data = fs.data := by
  have hdata : (lost fs a j).data = fs.data := by
    show (dropNlink (if a.isDir fs then dropNlink fs j else fs) j).data = fs.data
    rw [dropNlink_data]
    split_ifs
    · exact dropNlink_data
    · rfl
  rw [renameLose_eq]
  split_ifs
  · rw [truncateAdd_data, hdata]
  · exact hdata

theorem renameLose_inode : (renameLose fs a j).inode = (lost fs a j).inode := by
  rw [renameLose_eq]
  split_ifs
  · exact truncateAdd_inode
  · rfl

theorem lost_inode : (lost fs a j).inode = update fs.inode j
    { fs.inode j with
      nlink := (fs.inode j).nlink - if a.isDir fs then 2 else 1
      links := ((fs.inode j).nlink - if a.isDir fs then 2 else 1) % 65536 } := by
  unfold lost pmfsUpdateNlink Fs.setInode
  rw [dropNlink_inode]
  split_ifs
  · rw [dropNlink_inode]
    simp [Nat.sub_sub]
  · simp

/-- The inode that had the new name loses its links. -/
theorem Counts.lose (h : Counts fs.inode kinds count) : Counts (renameLose fs a j).inode kinds
    (update count j (count j - if kinds a.oldIno = some .dir then 2 else 1)) := by
  have hn := h.nlink j
  have hmax := h.max j
  have hlink : PMFS_LINK_MAX = 32000 := rfl
  have hdir : (if a.isDir fs then 2 else 1) = if kinds a.oldIno = some .dir then 2 else 1 :=
    if_congr (isDir_iff h) rfl rfl
  rw [renameLose_inode, lost_inode, hdir]
  exact h.setLinks (h.kind j) (by dsimp only; omega) (by dsimp only; omega) (by omega)

theorem replace_sim (h : Rep fs t) (ha : RenameOk fs a) (hnew : a.newIno = some j)
    (hrun : pmfsRename fs a env = some (fs', none)) :
    (Action.replace a.oldDir a.oldName a.oldIno a.newDir a.newName j).Ok t ∧
      Rep fs' ((Action.replace a.oldDir a.oldName a.oldIno a.newDir a.newName j).apply t) := by
  obtain ⟨hold, hrest⟩ := ha
  rw [hnew] at hrest
  obtain ⟨hpres, hij, hsame⟩ := hrest
  rw [h.counts.kind, h.counts.kind] at hsame
  obtain ⟨hdir, hmem⟩ := h.present hold
  obtain ⟨hdir', hmem'⟩ := h.present hpres
  obtain ⟨hcheck, fs1, hbind, rfl⟩ := rename_ok hrun
  have hempty : t.kind j = some .dir → ∀ x ∈ t.entries, x.1 ≠ j := by
    intro hk
    unfold renameCheck at hcheck
    rw [hnew] at hcheck
    dsimp only at hcheck
    rw [if_pos ((isDir_iff (h.start a).counts).mpr (hsame.mpr hk))] at hcheck
    obtain ⟨empty, hrun', hempty⟩ := Option.map_eq_some_iff.mp hcheck
    cases empty with
    | false => simp at hempty
    | true => exact (h.start a).empty ⟨hk, h.good.target _ hmem' hk⟩ hrun'
  have hok : (Action.replace a.oldDir a.oldName a.oldIno a.newDir a.newName j).Ok t :=
    ⟨hmem, hmem', hij, hsame, hempty⟩
  refine ⟨hok, ?_⟩
  obtain ⟨k, o, b, prev, hfind, hb, hsearch⟩ := found_of_present hpres
  rw [hfind] at hbind
  cases hbind
  obtain ⟨hlt, hzero⟩ := h.ino_lt hmem
  have hblk : ((renameStart fs a).data a.newDir).blk k = some b := by
    unfold renameStart
    rw [lookUp_blk, lookUp_blk, hb]
  have hnames := (h.start a).names.rebind hdir' hpres.2.1 hmem' hzero hlt ⟨k, o, b, prev,
    rfl, hblk, hsearch⟩
  have hmem1 : (a.oldDir, a.oldName, a.oldIno) ∈ insert (a.newDir, a.newName, a.oldIno)
      (t.entries.erase (a.newDir, a.newName, j)) := by
    refine Finset.mem_insert_of_mem (Finset.mem_erase.mpr ⟨fun heq => hij ?_, hmem⟩)
    exact congrArg (fun x => x.2.2) heq
  obtain ⟨-, ⟨D, hD⟩, hnames'⟩ := hnames.unbind hdir hold.2.1 hmem1
  have hne : (a.newDir, a.newName, a.oldIno) ≠ (a.oldDir, a.oldName, a.oldIno) :=
    fun heq => hij (h.good.func _ _ _ _ (heq ▸ hmem) hmem')
  rw [hD] at hnames' ⊢
  rw [Finset.erase_insert_of_ne hne, Finset.erase_right_comm] at hnames'
  unfold renameCount
  rw [hnew]
  have hcounts : Counts (((renameStart fs a).setData a.newDir (overwrite
      ((renameStart fs a).data a.newDir) (.found k o) a.oldIno)).setData a.oldDir
      D).inode t.kind t.links :=
    h.counts
  refine ⟨hcounts.lose, ?_, good_apply h.good hok⟩
  refine names_counts hnames' renameLose_data fun e he hne' hzero' => ?_
  by_cases hej : e = j
  · exact h.good.target _ hmem' (hej ▸ he) (hej ▸ hzero')
  · rw [update_of_ne hej] at hne'
    exact hne' hzero'

/-! ### Eviction -/

theorem evict_sim (free : Option Errno) (h : Rep fs t) : Rep (pmfsEvictInode fs i free) t := by
  unfold pmfsEvictInode
  split_ifs with hcond
  · have hzero : t.links i = 0 := (h.counts.nlink i).symm.trans hcond.1
    cases free with
    | some e => exact h.of_same (by
        simpa [pmfsFreeInode] using h.counts) fun e _ => by simp [pmfsFreeInode]
    | none =>
      refine h.of_same ?_ fun e he => ?_
      · rw [truncateDel_inode]
        have hset := h.counts.setLinks (x := { fs.inode i with dtime := true })
          (h.counts.kind i) (h.counts.links i) (h.counts.nlink i) (h.counts.max i)
        rwa [update_eq_self] at hset
      · have hei : e ≠ i := fun heq => he.2 (heq ▸ hzero)
        rw [truncateDel_data]
        exact setData_data_of_ne hei
  · exact h.of_same (by simpa using h.counts) fun e _ => by simp

end Pmfs.Namei.Refine
