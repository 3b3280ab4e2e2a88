import Pmfs.Namei.Entries
import Pmfs.Dirs.Dots

/-! # Directories as parts of the tree

`Names fs t` says that the blocks of every directory hold exactly its entries in the tree `t`.
Binding and unbinding a name in a directory are insertion and erasure in the set of entries
(`Names.bind`, `Names.unbind`, `Names.rebind`). -/

namespace Pmfs.Namei.Binding

open Lib.Bytes Block.Model Dirs.Model Dirs.Spec Dirs.Refine Dirs.Dots
open Namei.Model Namei.Entries

/-- A name that an entry may have: 1 to 255 bytes, and not `.` or `..`. -/
def NameOk (n : Name) : Prop := 1 ≤ n.length ∧ n.length ≤ 255 ∧ n ≠ dot ∧ n ≠ dotdot

/-- The blocks of `d` hold its entries. -/
structure DirRep (fs : Fs) (t : Tree) (d : ℕ) : Prop where
  ok : DirOk (fs.data d) d (t.parent d)
  iff : ∀ n i, (d, n, i) ∈ t.entries ↔ (n, i) ∈ live (fs.data d) ∧ n ≠ dot ∧ n ≠ dotdot

/-- All directories do. -/
def Names (fs : Fs) (t : Tree) : Prop := ∀ d, t.IsDir d → DirRep fs t d

variable {fs fs' : Fs} {t t' : Tree} {d i j : ℕ} {n : Name} {D : Dir} {E : Finset Ent}

@[simp] theorem setData_inode : (fs.setData d D).inode = fs.inode := rfl

theorem setData_data_self : (fs.setData d D).data d = D := Function.update_self _ _ _

theorem setData_data_of_ne {e : ℕ} (h : e ≠ d) : (fs.setData d D).data e = fs.data e :=
  Function.update_of_ne h _ _

theorem setData_setData {D' : Dir} : (fs.setData d D).setData d D' = fs.setData d D' :=
  congrArg (fun x => { fs with data := x }) (Function.update_idem _ _ _)

/-- Only the link counts change, or inodes that are no directories. -/
theorem Names.mono (h : Names fs t) (hdir : ∀ e, t'.IsDir e → t.IsDir e ∧ fs'.data e = fs.data e ∧
    t'.parent e = t.parent e ∧ ∀ n i, (e, n, i) ∈ t'.entries ↔
    (e, n, i) ∈ t.entries) : Names fs' t' := by
  intro e he
  obtain ⟨hold, hdata, hparent, hentries⟩ := hdir e he
  obtain ⟨hok, hiff⟩ := h e hold
  refine ⟨by rwa [hdata, hparent], fun n i => ?_⟩
  rw [hentries, hdata]
  exact hiff n i

theorem Names.setData (h : Names fs t) (hd : t.IsDir d → DirOk D d (t.parent d) ∧
      ∀ n i, (d, n, i) ∈ E ↔ (n, i) ∈ live D ∧ n ≠ dot ∧ n ≠ dotdot)
    (hother : ∀ e n i, e ≠ d → ((e, n, i) ∈ E ↔ (e, n, i) ∈ t.entries)) :
    Names (fs.setData d D) { t with entries := E } := by
  intro e he
  by_cases hed : e = d
  · subst hed
    obtain ⟨hok, hiff⟩ := hd he
    refine ⟨?_, fun n i => ?_⟩
    · rw [setData_data_self]
      exact hok
    · rw [setData_data_self]
      exact hiff n i
  · obtain ⟨hok, hiff⟩ := h e he
    refine ⟨?_, fun n i => ?_⟩
    · rw [setData_data_of_ne hed]
      exact hok
    · rw [setData_data_of_ne hed]
      exact (hother e n i hed).trans (hiff n i)

theorem DirRep.absent (h : DirRep fs t d) (hn : NameOk n) (hno : ∀ j, (d, n, j) ∉ t.entries) :
    ∀ j, (n, j) ∉ live (fs.data d) := fun j hmem => hno j ((h.iff n j).mpr ⟨hmem, hn.2.2⟩)

/-- A name of the tree is found in the directory. -/
theorem DirRep.lookup_iff (h : DirRep fs t d) (hn : NameOk n) (hi : i ≠ 0) :
    pmfsInodeByName (fs.data d) n = i ↔ (d, n, i) ∈ t.entries := by
  rw [lookup_eq_iff h.ok.wf h.ok.unique hn.1 hn.2.1 hi, h.iff]
  exact ⟨fun hmem => ⟨hmem, hn.2.2⟩, fun hmem => hmem.1⟩

theorem DirRep.lookup_zero (h : DirRep fs t d) (hn : NameOk n) :
    pmfsInodeByName (fs.data d) n = 0 ↔ ∀ j, (d, n, j) ∉ t.entries := by
  rw [lookup_eq_zero_iff h.ok.wf hn.1 hn.2.1]
  exact ⟨fun hno j hmem => hno j ((h.iff n j).mp hmem).1, h.absent hn⟩

/-- **Binding** a new name. -/
theorem Names.bind {grow : Except Errno Blk} (h : Names fs t) (hd : t.IsDir d) (hn : NameOk n)
    (hno : ∀ j, (d, n, j) ∉ t.entries) (hi : i ≠ 0) (hi' : i < 256 ^ 8)
    (hrun : addEntry fs d n i grow = some (fs', none)) :
    (∃ D, fs' = fs.setData d D) ∧ Names fs' { t with entries := insert (d, n, i) t.entries } := by
  have hrep := h d hd
  obtain ⟨⟨D, e⟩, hadd, heq⟩ := Option.map_eq_some_iff.mp hrun
  cases heq
  obtain ⟨hok, hlive⟩ := hrep.ok.add hn.1 hn.2.1 hi' hi (hrep.absent hn hno) hadd
  refine ⟨⟨D, rfl⟩, h.setData (fun _ => ⟨hok, fun m j => ?_⟩) fun e m j hed => ?_⟩
  · rw [Finset.mem_insert, hrep.iff, hlive, Multiset.mem_cons, Prod.mk.injEq, Prod.mk.injEq]
    constructor
    · rintro (⟨-, rfl, rfl⟩ | ⟨hmem, hm⟩)
      · exact ⟨Or.inl ⟨rfl, rfl⟩, hn.2.2⟩
      · exact ⟨Or.inr hmem, hm⟩
    · rintro ⟨⟨rfl, rfl⟩ | hmem, hm⟩
      · exact Or.inl ⟨rfl, rfl, rfl⟩
      · exact Or.inr ⟨hmem, hm⟩
  · rw [Finset.mem_insert, Prod.mk.injEq]
    exact or_iff_right fun hcon => hed hcon.1

/-- **Unbinding** a name. -/
theorem Names.unbind (h : Names fs t) (hd : t.IsDir d) (hn : NameOk n)
    (hmem : (d, n, i) ∈ t.entries) : (removeEntry fs d n).2 = none ∧
    (∃ D, (removeEntry fs d n).1 = fs.setData d D) ∧
      Names (removeEntry fs d n).1 { t with entries := t.entries.erase (d, n, i) } := by
  have hrep := h d hd
  obtain ⟨hret, hok, hlive⟩ := hrep.ok.remove hn.1 hn.2.2.1 hn.2.2.2 ((hrep.iff n i).mp hmem).1
  have hgone := (unique_tail hrep.ok.unique hlive).2
  refine ⟨hret, ⟨_, rfl⟩, h.setData (fun _ => ⟨hok, fun m j => ?_⟩) fun e m j hed => ?_⟩
  · rw [Finset.mem_erase, hrep.iff, hlive, Multiset.mem_cons, ne_eq, Prod.mk.injEq, Prod.mk.injEq]
    constructor
    · rintro ⟨hne, ⟨rfl, rfl⟩ | hin, hm⟩
      · exact absurd ⟨rfl, rfl, rfl⟩ hne
      · exact ⟨hin, hm⟩
    · rintro ⟨hin, hm⟩
      refine ⟨?_, Or.inr hin, hm⟩
      rintro ⟨-, rfl, rfl⟩
      exact hgone j hin
  · rw [Finset.mem_erase, ne_eq, Prod.mk.injEq]
    exact and_iff_right fun hcon => hed hcon.1

theorem dirOk_lookedUp {p : ℕ} (h : DirOk D d p) (n : Name) :
    DirOk (lookedUp D n) d p ∧ live (lookedUp D n) = live D := by
  unfold lookedUp
  cases findEntry D n with
  | found k o => exact ⟨⟨⟨h.wf.mapped, h.wf.beyond⟩, h.unique, h.size, h.big, h.pos, h.head,
      h.ino, h.parent⟩, rfl⟩
  | stop | nothing | endless => exact ⟨h, rfl⟩

theorem Names.lookUp (h : Names fs t) (d : ℕ) (n : Name) : Names (lookUp fs d n) t := by
  refine h.setData (fun hd => ?_) fun e m j _ => Iff.rfl
  obtain ⟨hok, hlive⟩ := dirOk_lookedUp (h d hd).ok n
  refine ⟨hok, fun m j => ?_⟩
  rw [hlive]
  exact (h d hd).iff m j

/-- **Rebinding** a name, in its record. -/
theorem Names.rebind {de : Lookup} (h : Names fs t) (hd : t.IsDir d) (hn : NameOk n)
    (hmem : (d, n, j) ∈ t.entries) (hi : i ≠ 0) (hi' : i < 256 ^ 8)
    (hde : ∃ k o b prev, de = .found k o ∧ (fs.data d).blk k = some b ∧
      pmfsSearchDirblock b n = .found o prev) :
    Names (fs.setData d (overwrite (fs.data d) de i))
      { t with entries := insert (d, n, i) (t.entries.erase (d, n, j)) } := by
  have hrep := h d hd
  obtain ⟨k, o, b, prev, rfl, hb, hsearch⟩ := hde
  obtain ⟨M, j', hold, hnew, hok⟩ := hrep.ok.overwrite hb hsearch hn.2.2.1 hn.2.2.2 hi' hi
  have hover : Model.overwrite (fs.data d) (.found k o) i = (fs.data d).setBlk k (put b o 8 i) := by
    rw [Model.overwrite, hb, Option.elim_some]
  have hgone : ∀ x, (n, x) ∉ M := by
    intro x hx
    have hunique := hrep.ok.unique
    unfold UniqueNames at hunique
    rw [hold, Multiset.map_cons, Multiset.nodup_cons] at hunique
    exact hunique.1 (Multiset.mem_map.mpr ⟨(n, x), hx, rfl⟩)
  obtain rfl : j = j' := by
    have := ((hrep.iff n j).mp hmem).1
    rw [hold, Multiset.mem_cons, Prod.mk.injEq] at this
    rcases this with ⟨-, heq⟩ | hin
    · exact heq
    · exact absurd hin (hgone j)
  rw [hover]
  refine h.setData (fun _ => ⟨hok, fun m x => ?_⟩) fun e m x hed => ?_
  · simp only [Finset.mem_insert, Finset.mem_erase, hrep.iff, hold, hnew,
      Multiset.mem_cons, Prod.mk.injEq, ne_eq, true_and]
    constructor
    · rintro (⟨rfl, rfl⟩ | ⟨hne, ⟨rfl, rfl⟩ | hin, hm⟩)
      · exact ⟨Or.inl ⟨rfl, rfl⟩, hn.2.2⟩
      · exact absurd ⟨rfl, rfl⟩ hne
      · exact ⟨Or.inr hin, hm⟩
    · rintro ⟨⟨rfl, rfl⟩ | hin, hm⟩
      · exact Or.inl ⟨rfl, rfl⟩
      · refine Or.inr ⟨?_, Or.inr hin, hm⟩
        rintro ⟨rfl, rfl⟩
        exact hgone x hin
  · rw [Finset.mem_insert, Finset.mem_erase]
    constructor
    · rintro (heq | ⟨-, hin⟩)
      · exact absurd (congrArg Prod.fst heq) hed
      · exact hin
    · exact fun hin => Or.inr ⟨fun heq => hed (congrArg Prod.fst heq), hin⟩

end Pmfs.Namei.Binding
