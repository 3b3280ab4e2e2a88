import Pmfs.Namei.Model
import Mathlib.Data.Finset.Card
import Mathlib.Data.Finset.Prod

/-! # The namespace as a set of entries

What the operations of `namei.c` do, without blocks and bytes: a tree is a finite set of entries (a
directory, a name, an inode), with the type, the link count and the parent of each inode. `Good`
holds along all actions. The link counts of directories are exact as long as no directory replaces
another (`Exact`), and the parents as long as no directory moves (`Parents`). -/

namespace Pmfs.Namei.Entries

open Dirs.Model Namei.Model Function

/-- A directory, a name in it and the inode it is for. -/
abbrev Ent := ℕ × Name × ℕ

/-- How many entries have a property. -/
def cnt (p : Ent → Prop) [DecidablePred p] (E : Finset Ent) : ℕ := (E.filter p).card

section cnt
variable {p q : Ent → Prop} [DecidablePred p] [DecidablePred q] {E : Finset Ent} {x y : Ent}

theorem cnt_insert (h : x ∉ E) : cnt p (insert x E) = cnt p E + if p x then 1 else 0 := by
  unfold cnt
  rw [Finset.filter_insert]
  split_ifs with hp
  · exact Finset.card_insert_of_notMem fun hmem => h (Finset.mem_of_mem_filter x hmem)
  · rfl

theorem cnt_erase (h : x ∈ E) : cnt p (E.erase x) + (if p x then 1 else 0) = cnt p E := by
  conv_rhs => rw [← Finset.insert_erase h]
  exact (cnt_insert (Finset.notMem_erase x E)).symm

theorem cnt_congr (h : ∀ x ∈ E, p x ↔ q x) : cnt p E = cnt q E := by
  unfold cnt
  rw [Finset.filter_congr h]

theorem cnt_eq_zero : cnt p E = 0 ↔ ∀ x ∈ E, ¬ p x := by
  unfold cnt
  rw [Finset.card_eq_zero, Finset.filter_eq_empty_iff]

theorem cnt_pos (hx : x ∈ E) (hp : p x) : 0 < cnt p E := by
  refine Nat.pos_of_ne_zero fun h => ?_
  exact cnt_eq_zero.mp h x hx hp

end cnt

/-- A tree. `parent` is what `..` is for. -/
structure Tree where
  entries : Finset Ent
  kind : ℕ → Option Kind
  links : ℕ → ℕ
  parent : ℕ → ℕ

/-- A directory that is in use. -/
def Tree.IsDir (t : Tree) (d : ℕ) : Prop := t.kind d = some .dir ∧ t.links d ≠ 0

/-- The number of names of an inode. -/
def namesOf (E : Finset Ent) (i : ℕ) : ℕ := cnt (fun x => x.2.2 = i) E

/-- The number of subdirectories of a directory, for given types of inodes. -/
def subsOf (kind : ℕ → Option Kind) (E : Finset Ent) (d : ℕ) : ℕ :=
  cnt (fun x => x.1 = d ∧ kind x.2.2 = some .dir) E

def Tree.names (t : Tree) (i : ℕ) : ℕ := namesOf t.entries i

def Tree.subs (t : Tree) (d : ℕ) : ℕ := subsOf t.kind t.entries d

/-- The actions: `rename` to a name that is not there, `replace` where it is. -/
inductive Action where
  | create (d : ℕ) (n : Name) (i : ℕ) (k : Kind)
  | link (d : ℕ) (n : Name) (i : ℕ)
  | unlink (d : ℕ) (n : Name) (i : ℕ)
  | mkdir (d : ℕ) (n : Name) (i : ℕ)
  | rmdir (d : ℕ) (n : Name) (i : ℕ)
  | rename (d : ℕ) (n : Name) (i : ℕ) (d' : ℕ) (n' : Name)
  | replace (d : ℕ) (n : Name) (i : ℕ) (d' : ℕ) (n' : Name) (j : ℕ)

/-- What a directory gains or loses when `i` moves from `d` to `d'`. -/
def moved (t : Tree) (d i d' : ℕ) : ℕ → ℕ :=
  if t.kind i = some .dir then
    update (update t.links d' (t.links d' + 1)) d
      (update t.links d' (t.links d' + 1) d - 1)
  else t.links

/-- What an action does. -/
def Action.apply (t : Tree) : Action → Tree
  | create d n i k => { t with
      entries := insert (d, n, i) t.entries
      kind := update t.kind i (some k)
      links := update t.links i 1 }
  | link d n i => { t with
      entries := insert (d, n, i) t.entries
      links := update t.links i (t.links i + 1) }
  | unlink d n i => { t with
      entries := t.entries.erase (d, n, i)
      links := update t.links i (t.links i - 1) }
  | mkdir d n i =>
    { entries := insert (d, n, i) t.entries
      kind := update t.kind i (some .dir)
      links := update (update t.links i 2) d (t.links d + 1)
      parent := update t.parent i d }
  | rmdir d n i => { t with
      entries := t.entries.erase (d, n, i)
      links := update (update t.links i 0) d (t.links d - 1) }
  | rename d n i d' n' => { t with
      entries := insert (d', n', i) (t.entries.erase (d, n, i))
      links := moved t d i d' }
  | replace d n i d' n' j => { t with
      entries := insert (d', n', i) ((t.entries.erase (d, n, i)).erase (d', n', j))
      links := update t.links j (t.links j - if t.kind i = some .dir then 2 else 1) }

/-- When an action is possible. A new inode is one that has no links. -/
def Action.Ok (t : Tree) : Action → Prop
  | create d n i k => t.IsDir d ∧ (∀ j, (d, n, j) ∉ t.entries) ∧ t.links i = 0 ∧ k ≠ .dir
  | link d n i => t.IsDir d ∧ (∀ j, (d, n, j) ∉ t.entries) ∧ t.kind i ≠ some .dir
  | unlink d n i => (d, n, i) ∈ t.entries ∧ t.kind i ≠ some .dir
  | mkdir d n i => t.IsDir d ∧ (∀ j, (d, n, j) ∉ t.entries) ∧ t.links i = 0
  | rmdir d n i => (d, n, i) ∈ t.entries ∧ t.kind i = some .dir ∧ ∀ x ∈ t.entries, x.1 ≠ i
  | rename d n i d' n' => (d, n, i) ∈ t.entries ∧ t.IsDir d' ∧ ∀ j, (d', n', j) ∉ t.entries
  | replace d n i d' n' j => (d, n, i) ∈ t.entries ∧ (d', n', j) ∈ t.entries ∧ i ≠ j ∧
      (t.kind i = some .dir ↔ t.kind j = some .dir) ∧
      (t.kind j = some .dir → ∀ x ∈ t.entries, x.1 ≠ j)

/-- What holds along all actions: a name in a directory is for one inode, entries are in directories
in use and lead to inodes in use, a directory has one name at most, the link count of any other
inode is the number of its names, and that of a directory is more than the number of its
subdirectories. -/
structure Good (t : Tree) : Prop where
  func : ∀ d n i j, (d, n, i) ∈ t.entries → (d, n, j) ∈ t.entries → i = j
  home : ∀ x ∈ t.entries, t.IsDir x.1
  target : ∀ x ∈ t.entries, t.kind x.2.2 = some .dir → t.links x.2.2 ≠ 0
  once : ∀ x ∈ t.entries, ∀ y ∈ t.entries, x.2.2 = y.2.2 → t.kind x.2.2 = some .dir → x = y
  file : ∀ i, t.kind i ≠ some .dir → t.links i = t.names i
  dir : ∀ d, t.IsDir d → t.subs d < t.links d

/-- The link count of a directory is 2 more than the number of its subdirectories. -/
def Exact (t : Tree) : Prop := ∀ d, t.IsDir d → t.links d = 2 + t.subs d

/-- Each directory has as its parent the directory that its name is in. -/
def Parents (t : Tree) : Prop := ∀ x ∈ t.entries, t.kind x.2.2 = some .dir → t.parent x.2.2 = x.1

variable {t : Tree} {d d' i j : ℕ} {n n' : Name} {k : Kind} {a : Action}

/-- An inode without links is not mentioned in the tree. -/
theorem Good.fresh (h : Good t) (hi : t.links i = 0) : ∀ x ∈ t.entries, x.1 ≠ i ∧ x.2.2 ≠ i := by
  intro x hx
  refine ⟨fun heq => (h.home x hx).2 (heq ▸ hi), fun heq => ?_⟩
  by_cases hk : t.kind i = some .dir
  · exact h.target x hx (heq ▸ hk) (heq ▸ hi)
  · have hzero : t.names i = 0 := (h.file i hk).symm.trans hi
    exact cnt_eq_zero.mp hzero x hx heq

/-- The type of an inode without links does not matter. -/
theorem Good.subs_update (h : Good t) (hi : t.links i = 0) (k : Option Kind) (d : ℕ) :
    subsOf (update t.kind i k) t.entries d = subsOf t.kind t.entries d := by
  refine cnt_congr fun x hx => ?_
  rw [update_of_ne (h.fresh hi x hx).2]

/-- A directory with a subdirectory has two links at least. -/
theorem Good.parent_links (h : Good t) (hx : (d, n, i) ∈ t.entries) (hk : t.kind i = some .dir) :
    2 ≤ t.links d := by
  have hdir := h.dir d (h.home _ hx)
  have hpos : 0 < t.subs d := cnt_pos hx ⟨rfl, hk⟩
  omega

theorem replace_mem (hy : (d', n', j) ∈ t.entries) (hij : i ≠ j) :
    (d', n', j) ∈ t.entries.erase (d, n, i) := by
  refine Finset.mem_erase.mpr ⟨?_, hy⟩
  simp only [ne_eq, Prod.mk.injEq, not_and]
  exact fun _ _ heq => hij heq.symm

theorem Good.replace_notMem (h : Good t) (hy : (d', n', j) ∈ t.entries) (hij : i ≠ j) :
    (d', n', i) ∉ (t.entries.erase (d, n, i)).erase (d', n', j) := fun hmem =>
  hij (h.func d' n' i j (Finset.mem_of_mem_erase (Finset.mem_of_mem_erase hmem)) hy)

/-! ### Where entries are and lead to -/

theorem entries_apply (h : Good t) (hok : a.Ok t) :
    (∀ d n i j, (d, n, i) ∈ (a.apply t).entries → (d, n, j) ∈ (a.apply t).entries → i = j) ∧
    (∀ x ∈ (a.apply t).entries, (a.apply t).IsDir x.1) ∧
    (∀ x ∈ (a.apply t).entries, (a.apply t).kind x.2.2 = some .dir → (a.apply t).links x.2.2 ≠ 0) ∧
    ∀ x ∈ (a.apply t).entries, ∀ y ∈ (a.apply t).entries, x.2.2 = y.2.2 →
      (a.apply t).kind x.2.2 = some .dir → x = y := by
  obtain ⟨hfunc, hhome, htarget, honce, -, -⟩ := id h
  unfold Tree.IsDir at *
  cases a with
  | create d n i k =>
    obtain ⟨⟨hdk, hdl⟩, hno, hi, hk⟩ := hok
    have hfresh := h.fresh hi
    simp only [Action.apply, update_apply, Finset.mem_insert]
    refine ⟨?_, ?_, ?_, ?_⟩ <;> grind
  | link d n i =>
    obtain ⟨⟨hdk, hdl⟩, hno, hi⟩ := hok
    simp only [Action.apply, update_apply, Finset.mem_insert]
    refine ⟨?_, ?_, ?_, ?_⟩ <;> grind
  | unlink d n i =>
    obtain ⟨hx, hi⟩ := hok
    simp only [Action.apply, update_apply, Finset.mem_erase]
    refine ⟨?_, ?_, ?_, ?_⟩ <;> grind
  | mkdir d n i =>
    obtain ⟨⟨hdk, hdl⟩, hno, hi⟩ := hok
    have hfresh := h.fresh hi
    simp only [Action.apply, update_apply, Finset.mem_insert]
    refine ⟨?_, ?_, ?_, ?_⟩ <;> grind
  | rmdir d n i =>
    obtain ⟨hx, hk, hempty⟩ := hok
    have hlinks := h.parent_links hx hk
    simp only [Action.apply, update_apply, Finset.mem_erase]
    refine ⟨?_, ?_, ?_, ?_⟩ <;> grind
  | rename d n i d' n' =>
    obtain ⟨hx, ⟨hdk, hdl⟩, hno⟩ := hok
    have hlinks := h.parent_links hx
    simp only [Action.apply, moved, Finset.mem_insert, Finset.mem_erase]
    split_ifs with hk
    · simp only [update_apply]
      refine ⟨?_, ?_, ?_, ?_⟩ <;> grind
    · refine ⟨?_, ?_, ?_, ?_⟩ <;> grind
  | replace d n i d' n' j =>
    obtain ⟨hx, hy, hij, hkind, hempty⟩ := hok
    simp only [Action.apply, update_apply, Finset.mem_insert, Finset.mem_erase]
    refine ⟨?_, ?_, ?_, ?_⟩ <;> grind

/-! ### Counting names -/

theorem namesOf_insert {E : Finset Ent} (h : (d, n, i) ∉ E) (m : ℕ) :
    namesOf (insert (d, n, i) E) m = namesOf E m + if i = m then 1 else 0 := cnt_insert h

theorem namesOf_erase {E : Finset Ent} (h : (d, n, i) ∈ E) (m : ℕ) :
    namesOf (E.erase (d, n, i)) m + (if i = m then 1 else 0) = namesOf E m := cnt_erase h

theorem Good.names_zero (h : Good t) (hi : t.links i = 0) : namesOf t.entries i = 0 :=
  cnt_eq_zero.mpr fun x hx => (h.fresh hi x hx).2

theorem file_apply (h : Good t) (hok : a.Ok t) : ∀ m, (a.apply t).kind m ≠ some .dir →
    (a.apply t).links m = (a.apply t).names m := by
  intro m
  have hfile := h.file m
  unfold Tree.names at *
  cases a with
  | create d n i k =>
    obtain ⟨hd, hno, hi, hk⟩ := hok
    have hzero := h.names_zero hi
    simp only [Action.apply, update_apply, namesOf_insert (hno i)]
    grind
  | link d n i =>
    obtain ⟨hd, hno, hi⟩ := hok
    simp only [Action.apply, update_apply, namesOf_insert (hno i)]
    grind
  | unlink d n i =>
    obtain ⟨hx, hi⟩ := hok
    have herase := namesOf_erase hx m
    simp only [Action.apply, update_apply]
    grind
  | mkdir d n i =>
    obtain ⟨hd, hno, hi⟩ := hok
    have hdk := hd.1
    simp only [Action.apply, update_apply, namesOf_insert (hno i)]
    grind
  | rmdir d n i =>
    obtain ⟨hx, hk, -⟩ := hok
    have hdk := (h.home _ hx).1
    have herase := namesOf_erase hx m
    simp only [Action.apply, update_apply]
    grind
  | rename d n i d' n' =>
    obtain ⟨hx, hd', hno⟩ := hok
    have hdk := (h.home _ hx).1
    have hdk' := hd'.1
    have herase := namesOf_erase hx m
    have hnew : (d', n', i) ∉ t.entries.erase (d, n, i) :=
      fun hmem => hno i (Finset.mem_of_mem_erase hmem)
    by_cases hk : t.kind i = some .dir
    · simp only [Action.apply, moved, if_pos hk, namesOf_insert hnew, update_apply]
      grind
    · simp only [Action.apply, moved, if_neg hk, namesOf_insert hnew]
      grind
  | replace d n i d' n' j =>
    obtain ⟨hx, hy, hij, hkind, hempty⟩ := hok
    have herase := namesOf_erase hx m
    have herase' := namesOf_erase (replace_mem (d := d) (n := n) hy hij) m
    simp only [Action.apply, update_apply, namesOf_insert (h.replace_notMem hy hij)]
    grind

/-! ### Counting subdirectories -/

section subs
variable {κ : ℕ → Option Kind}

theorem subsOf_insert {E : Finset Ent} (h : (d, n, i) ∉ E) (e : ℕ) :
    subsOf κ (insert (d, n, i) E) e = subsOf κ E e + if d = e ∧ κ i = some .dir then 1 else 0 :=
  cnt_insert h

theorem subsOf_erase {E : Finset Ent} (h : (d, n, i) ∈ E) (e : ℕ) :
    subsOf κ (E.erase (d, n, i)) e + (if d = e ∧ κ i = some .dir then 1 else 0) = subsOf κ E e :=
  cnt_erase h

end subs

theorem Good.subs_zero (h : Good t) (hi : t.links i = 0) : subsOf t.kind t.entries i = 0 :=
  cnt_eq_zero.mpr fun x hx hcon => (h.fresh hi x hx).1 hcon.1

/-- For a directory that was there before, the link count and the number of subdirectories change
together, unless a directory replaces another. A new directory has two links. -/
theorem balance_apply (h : Good t) (hok : a.Ok t)
    (hsafe : ∀ d n i d' n' j, a = .replace d n i d' n' j → t.kind i ≠ some .dir) :
    ∀ e, (a.apply t).IsDir e → (t.IsDir e ∧ (a.apply t).links e + t.subs e =
      t.links e + (a.apply t).subs e) ∨ ((a.apply t).links e = 2 ∧ (a.apply t).subs e = 0) := by
  intro e
  unfold Tree.IsDir Tree.subs
  cases a with
  | create d n i k =>
    obtain ⟨hd, hno, hi, hk⟩ := hok
    have hsubs := h.subs_update hi (some k) e
    simp only [Action.apply, subsOf_insert (hno i), hsubs, update_apply]
    grind
  | link d n i =>
    obtain ⟨hd, hno, hi⟩ := hok
    simp only [Action.apply, subsOf_insert (hno i), update_apply]
    grind
  | unlink d n i =>
    obtain ⟨hx, hi⟩ := hok
    have herase := subsOf_erase (κ := t.kind) hx e
    simp only [Action.apply, update_apply]
    grind
  | mkdir d n i =>
    obtain ⟨hd, hno, hi⟩ := hok
    obtain ⟨hdk, hdl⟩ := hd
    have hsubs := h.subs_update hi (some .dir) e
    have hzero := h.subs_zero hi
    simp only [Action.apply, subsOf_insert (hno i), hsubs, update_apply]
    grind
  | rmdir d n i =>
    obtain ⟨hx, hk, hempty⟩ := hok
    have hlinks := h.parent_links hx hk
    have herase := subsOf_erase (κ := t.kind) hx e
    simp only [Action.apply, update_apply]
    grind
  | rename d n i d' n' =>
    obtain ⟨hx, hd', hno⟩ := hok
    obtain ⟨hdk', hdl'⟩ := hd'
    obtain ⟨hdk, hdl⟩ := h.home _ hx
    have hlinks := h.parent_links hx
    have herase := subsOf_erase (κ := t.kind) hx e
    have hnew : (d', n', i) ∉ t.entries.erase (d, n, i) :=
      fun hmem => hno i (Finset.mem_of_mem_erase hmem)
    by_cases hk : t.kind i = some .dir
    · simp only [Action.apply, moved, if_pos hk, subsOf_insert hnew, update_apply]
      grind
    · simp only [Action.apply, moved, if_neg hk, subsOf_insert hnew]
      grind
  | replace d n i d' n' j =>
    obtain ⟨hx, hy, hij, hkind, hempty⟩ := hok
    have hi := hsafe _ _ _ _ _ _ rfl
    have herase := subsOf_erase (κ := t.kind) hx e
    have herase' := subsOf_erase (κ := t.kind) (replace_mem (d := d) (n := n) hy hij) e
    simp only [Action.apply, subsOf_insert (h.replace_notMem hy hij), update_apply]
    grind

theorem dir_replace (h : Good t) (hok : (Action.replace d n i d' n' j).Ok t)
    (hk : t.kind i = some .dir) : ∀ e, ((Action.replace d n i d' n' j).apply t).IsDir e →
      ((Action.replace d n i d' n' j).apply t).subs e <
      ((Action.replace d n i d' n' j).apply t).links e := by
  intro e
  obtain ⟨hx, hy, hij, hkind, hempty⟩ := hok
  have hdir := h.dir e
  have hzero : t.subs j = 0 := cnt_eq_zero.mpr fun x hx hcon => hempty (hkind.mp hk) x hx hcon.1
  have hd' : d' ≠ j := hempty (hkind.mp hk) _ hy
  have herase := subsOf_erase (κ := t.kind) hx e
  have herase' := subsOf_erase (κ := t.kind) (replace_mem (d := d) (n := n) hy hij) e
  unfold Tree.IsDir Tree.subs at *
  simp only [Action.apply, subsOf_insert (h.replace_notMem hy hij), update_apply]
  grind

theorem dir_apply (h : Good t) (hok : a.Ok t) : ∀ e, (a.apply t).IsDir e →
    (a.apply t).subs e < (a.apply t).links e := by
  intro e he
  by_cases hsafe : ∀ d n i d' n' j, a = .replace d n i d' n' j → t.kind i ≠ some .dir
  · rcases balance_apply h hok hsafe e he with ⟨hold, hbal⟩ | ⟨htwo, hzero⟩
    · have := h.dir e hold
      omega
    · omega
  · push Not at hsafe
    obtain ⟨d, n, i, d', n', j, rfl, hk⟩ := hsafe
    exact dir_replace h hok hk e he

/-! ### Runs of actions -/

/-- **Every action** keeps the tree good. -/
theorem good_apply (h : Good t) (hok : a.Ok t) : Good (a.apply t) := by
  obtain ⟨hfunc, hhome, htarget, honce⟩ := entries_apply h hok
  exact ⟨hfunc, hhome, htarget, honce, file_apply h hok, dir_apply h hok⟩

/-- The link counts stay exact, unless a directory replaces another. -/
theorem exact_apply (h : Good t) (hexact : Exact t) (hok : a.Ok t)
    (hsafe : ∀ d n i d' n' j, a = .replace d n i d' n' j → t.kind i ≠ some .dir) :
    Exact (a.apply t) := by
  intro e he
  rcases balance_apply h hok hsafe e he with ⟨hold, hbal⟩ | ⟨htwo, hzero⟩
  · have := hexact e hold
    omega
  · omega

/-- The directory that an entry of an action is moved to is the one it comes from. -/
def Action.Stays (t : Tree) : Action → Prop
  | rename d _ i d' _ => t.kind i = some .dir → d = d'
  | replace d _ i d' _ _ => t.kind i = some .dir → d = d'
  | _ => True

/-- The parents stay right, unless a directory moves to another. -/
theorem parents_apply (h : Good t) (hparents : Parents t) (hok : a.Ok t) (hstay : a.Stays t) :
    Parents (a.apply t) := by
  unfold Parents at *
  cases a with
  | create d n i k =>
    obtain ⟨hd, hno, hi, hk⟩ := hok
    simp only [Action.apply, update_apply, Finset.mem_insert]
    grind
  | link d n i =>
    obtain ⟨hd, hno, hi⟩ := hok
    simp only [Action.apply, Finset.mem_insert]
    grind
  | unlink d n i | rmdir d n i =>
    simp only [Action.apply, Finset.mem_erase]
    grind
  | mkdir d n i =>
    obtain ⟨hd, hno, hi⟩ := hok
    have hfresh := h.fresh hi
    simp only [Action.apply, update_apply, Finset.mem_insert]
    grind
  | rename d n i d' n' | replace d n i d' n' j =>
    obtain ⟨hx, -, -⟩ := hok
    unfold Action.Stays at hstay
    simp only [Action.apply, Finset.mem_insert, Finset.mem_erase]
    grind

end Pmfs.Namei.Entries
