import Pmfs.Itable.Model
import Pmfs.Lib.Run

/-! # Who gets which inode

`pmfs_new_inode` finds the first free inode from the hint on, in the table or in a block that it
adds to it (`find_spec`). Creators select an inode under the lock of the table and publish it later.
An inode that has been used before does not look free in between, because its deletion time is
reset; one that has never been used does. So creators get different inodes as long as the inodes of
the latter kind lie below the hint whenever an inode is selected (`creators_differ`), and a deletion
that moves the hint back lets a second creator get the same inode (`selected_twice`). -/

namespace Pmfs.Itable.Select

open Lib.Run Block.Model Tree.Model Itable.Model Function
open Inodes.Model (rootInode pmfsMaskFlags)

variable {t t' : Table} {p : ℕ → PmfsInode} {i j n fuel mode now : ℕ} {flags : UInt32}
variable {grow : List (Option Errno)}

/-! ### The scan -/

theorem scanBlock_spec : i ≤ scanBlock p i n ∧ scanBlock p i n ≤ i + n ∧
    (scanBlock p i n < i + n → freeTest (p (scanBlock p i n)) = true) := by
  induction n generalizing i with
  | zero => exact ⟨Nat.le_refl i, Nat.le_refl i, fun h => absurd h (Nat.lt_irrefl i)⟩
  | succ n ih =>
    unfold scanBlock
    split_ifs with hfree
    · exact ⟨Nat.le_refl i, by omega, fun _ => hfree⟩
    · obtain ⟨h1, h2, h3⟩ := ih
      exact ⟨by omega, by omega, fun h => h3 (by omega)⟩

theorem inodesPerBlock_pos (b : BlkType) : 0 < inodesPerBlock b := by
  cases b <;> decide

/-- What the scan returns is not before the start, and free if it is in the table. -/
theorem scanTable_spec (hfuel : t.count ≤ i + fuel) (h : scanTable t fuel i = some j) :
    i ≤ j ∧ (j < t.count → freeTest (t.pi j) = true) := by
  induction fuel generalizing i with
  | zero =>
    obtain rfl := Option.some.inj h
    exact ⟨Nat.le_refl i, fun hlt => absurd hlt (by omega)⟩
  | succ fuel ih =>
    unfold scanTable at h
    split_ifs at h with hlt hi
    · dsimp only at h
      have hpos := inodesPerBlock_pos t.iBlkType
      have hn : 0 < inodesPerBlock t.iBlkType - i % inodesPerBlock t.iBlkType :=
        Nat.sub_pos_of_lt (Nat.mod_lt i hpos)
      generalize inodesPerBlock t.iBlkType - i % inodesPerBlock t.iBlkType = n at h hn
      rw [Nat.add_sub_cancel_left] at h
      obtain ⟨h1, h2, h3⟩ := scanBlock_spec
      split_ifs at h with hfound
      · cases h
        exact ⟨h1, fun _ => h3 hfound⟩
      · obtain ⟨hle, hfree⟩ := ih (by omega) h
        exact ⟨by omega, hfree⟩
    · obtain rfl := Option.some.inj h
      exact ⟨Nat.le_refl i, fun hcon => absurd hcon hlt⟩

/-! ### Growth -/

/-- The table `t'` is the table `t` with some blocks more. -/
structure Extends (t t' : Table) : Prop where
  size : t.iSize >>> 7 ≤ t'.iSize >>> 7
  slots : ∀ k < t.iSize >>> 7, t'.pi k = t.pi k
  blank : ∀ k, t.iSize >>> 7 ≤ k → k < t'.iSize >>> 7 → t'.pi k = zeroInode
  count : t.count ≤ t.iSize >>> 7 → t'.count ≤ t'.iSize >>> 7

theorem Extends.refl (t : Table) : Extends t t :=
  ⟨Nat.le_refl _, fun _ _ => rfl, fun _ hle hlt => absurd hlt (Nat.not_lt.mpr hle), id⟩

theorem Extends.trans {t1 t2 : Table} (h : Extends t t1) (h' : Extends t1 t2) : Extends t t2 where
  size := h.size.trans h'.size
  slots k hk := (h'.slots k (hk.trans_le h.size)).trans (h.slots k hk)
  blank k hle hlt := by
    by_cases hk : k < t1.iSize >>> 7
    · rw [h'.slots k hk, h.blank k hle hk]
    · exact h'.blank k (Nat.le_of_not_lt hk) hlt
  count hle := h'.count (h.count hle)

theorem increase_extends (t : Table) : Extends t (pmfsIncreaseInodeTableSize t none).1 where
  size := by
    show t.iSize >>> 7 ≤ (t.iSize + 2 ^ blkTypeToShift t.iBlkType) >>> 7
    rw [Nat.shiftRight_eq_div_pow, Nat.shiftRight_eq_div_pow]
    exact Nat.div_le_div_right (Nat.le_add_right _ _)
  slots k hk := if_neg fun hcon => absurd hcon.1 (Nat.not_le.mpr hk)
  blank k hle hlt := if_pos ⟨hle, hlt⟩
  count _ := by
    show (UInt32.ofNat _).toNat ≤ _
    rw [UInt32.toNat_ofNat']
    exact Nat.mod_le _ _

/-- How the search ends: with a free inode, with an error, or in a table that has grown. -/
theorem find_cases {r : Except Errno ℕ} (h : findInode t grow i = some (t', r)) :
    ∃ j, scanTable t t.count i = some j ∧ i ≤ j ∧
    ((t' = t ∧ r = .ok j ∧ j < t.count ∧ freeTest (t.pi j) = true) ∨
      (t' = t ∧ t.count ≤ j ∧ ∃ e, r = .error e) ∨
      (t.count ≤ j ∧ ∃ rest, grow = none :: rest ∧
        findInode (pmfsIncreaseInodeTableSize t none).1 rest j = some (t', r))) := by
  unfold findInode at h
  cases hscan : scanTable t t.count i with
  | none => simp [hscan] at h
  | some j =>
    obtain ⟨hle, hfree⟩ := scanTable_spec (Nat.le_add_left _ _) hscan
    refine ⟨j, rfl, hle, ?_⟩
    rw [hscan] at h
    dsimp only at h
    split_ifs at h with hlt
    · cases h
      exact Or.inl ⟨rfl, rfl, hlt, hfree hlt⟩
    · right
      rcases grow with _ | ⟨_ | e, rest⟩
      · cases h
        exact Or.inl ⟨rfl, Nat.le_of_not_lt hlt, _, rfl⟩
      · exact Or.inr ⟨Nat.le_of_not_lt hlt, rest, rfl, h⟩
      · cases h
        exact Or.inl ⟨rfl, Nat.le_of_not_lt hlt, _, rfl⟩

/-- The first free inode from `i` on, in the table or in a longer one. -/
theorem find_spec {r : Except Errno ℕ} (h : findInode t grow i = some (t', r)) :
    Extends t t' ∧ ∀ j, r = .ok j → i ≤ j ∧ j < t'.count ∧ freeTest (t'.pi j) = true := by
  induction grow generalizing t i with
  | nil =>
    obtain ⟨j, -, hle, ⟨rfl, rfl, hlt, hfree⟩ | ⟨rfl, -, e, rfl⟩ | ⟨-, rest, hcon, -⟩⟩ :=
      find_cases h
    · refine ⟨Extends.refl t', ?_⟩
      rintro _ ⟨⟩
      exact ⟨hle, hlt, hfree⟩
    · exact ⟨Extends.refl t', fun _ hcon => by simp at hcon⟩
    · simp at hcon
  | cons e grow ih =>
    obtain ⟨j, -, hle, ⟨rfl, rfl, hlt, hfree⟩ | ⟨rfl, -, e, rfl⟩ | ⟨-, rest, heq, hrest⟩⟩ :=
      find_cases h
    · refine ⟨Extends.refl t', ?_⟩
      rintro _ ⟨⟩
      exact ⟨hle, hlt, hfree⟩
    · exact ⟨Extends.refl t', fun _ hcon => by simp at hcon⟩
    · obtain ⟨-, rfl⟩ := List.cons.inj heq
      obtain ⟨hext, hfound⟩ := ih hrest
      refine ⟨(increase_extends t).trans hext, fun k hk => ?_⟩
      obtain ⟨h1, h2, h3⟩ := hfound k hk
      exact ⟨hle.trans h1, h2, h3⟩

/-! ### Creators and deleters -/

/-- The table, the slots that have been selected and not freed since, and those of them whose
creators have not published them yet. -/
structure Race where
  t : Table
  held : Finset ℕ
  pending : Finset ℕ

/-- The steps of creators and deleters in any order: a creator selects a slot, where `P` holds, or
fails to; a creator publishes its inode; the link count of an inode changes that is not to be
published yet, be it older than the run or not; and a deleter frees such an inode. -/
inductive Step (P : Race → Prop) : Race → Race → Prop
  | select {s : Race} {t' : Table} {i mode : ℕ} {flags : UInt32} {grow : List (Option Errno)} :
      P s → selectInode s.t mode flags grow = some (t', .ok i) →
      Step P s ⟨t', insert i s.held, insert i s.pending⟩
  | fail {s : Race} {t' : Table} {e : Errno} {mode : ℕ} {flags : UInt32}
      {grow : List (Option Errno)} : selectInode s.t mode flags grow = some (t', .error e) →
      Step P s { s with t := t' }
  | publish {s : Race} {i : ℕ} {inode : Inode} : i ∈ s.pending → inode.iMode ≠ 0 →
      Step P s ⟨publishInode s.t i inode, s.held, s.pending.erase i⟩
  | nlink {s : Race} {i nlink : ℕ} : i ∉ s.pending →
      Step P s { s with t := pmfsUpdateNlink s.t i nlink }
  | free {s : Race} {i now : ℕ} : i ∉ s.pending →
      Step P s ⟨(pmfsFreeInode s.t i none now).1, s.held.erase i, s.pending⟩

/-- The slots that are selected, not published and have never been used lie below the hint. -/
def BelowHint (s : Race) : Prop := ∀ i ∈ s.pending, (s.t.pi i).iMode = 0 → i < s.t.hint

/-- What holds along a run: slots that are held have no deletion time, and have a type once they are
published. -/
structure Held (s : Race) : Prop where
  count : s.t.count ≤ s.t.iSize >>> 7
  slot : ∀ i ∈ s.held, i < s.t.iSize >>> 7
  dtime : ∀ i ∈ s.held, (s.t.pi i).iDtime = 0
  mode : ∀ i ∈ s.held, i ∉ s.pending → (s.t.pi i).iMode ≠ 0

variable {s s' : Race}

/-- A selected slot was free, not before the hint. -/
theorem select_spec (h : selectInode t mode flags grow = some (t', .ok i)) : ∃ t1, Extends t t1 ∧
    t.hint ≤ i ∧ i < t1.count ∧ freeTest (t1.pi i) = true ∧
    t' = takeSlot t1 i (pmfsMaskFlags mode flags) := by
  obtain ⟨⟨t1, r⟩, hfind, heq⟩ := Option.map_eq_some_iff.mp h
  obtain ⟨hext, hfound⟩ := find_spec hfind
  cases r with
  | error e => simp at heq
  | ok j =>
    obtain ⟨rfl, hj⟩ := Prod.mk.inj heq
    obtain rfl := Except.ok.inj hj
    obtain ⟨hle, hlt, hfree⟩ := hfound j rfl
    exact ⟨t1, hext, hle, hlt, hfree, rfl⟩

theorem new_select {inode : Inode} {env : Env}
    (h : pmfsNewInode t inode flags env = some (t', .ok i)) :
    ∃ t1, selectInode t inode.iMode flags env.grow = some (t1, .ok i) ∧
    t' = publishInode t1 i inode := by
  unfold pmfsNewInode at h
  cases hstart : env.start with
  | some e => simp [hstart] at h
  | none =>
    rw [hstart] at h
    obtain ⟨⟨t1, _ | j⟩, hsel, heq⟩ := Option.map_eq_some_iff.mp h
    · simp at heq
    obtain ⟨rfl, hok⟩ := Prod.mk.inj heq
    split_ifs at hok
    cases hok
    exact ⟨t1, hsel, rfl⟩

theorem Held.notMem (h : Held s) (hsafe : BelowHint s)
    (hsel : selectInode s.t mode flags grow = some (t', .ok i)) : i ∉ s.held := by
  intro hi
  obtain ⟨t1, hext, hle, -, hfree, -⟩ := select_spec hsel
  rw [hext.slots i (h.slot i hi)] at hfree
  have hdtime := h.dtime i hi
  have hmode : (s.t.pi i).iMode = 0 := by
    by_contra hne
    simp [freeTest, hdtime, hne] at hfree
  have hpending : i ∈ s.pending := by
    by_contra hnot
    exact h.mode i hi hnot hmode
  exact absurd (hsafe i hpending hmode) (Nat.not_lt.mpr hle)

theorem Held.extends (h : Held s) (hext : Extends s.t t') : Held { s with t := t' } where
  count := hext.count h.count
  slot i hi := (h.slot i hi).trans_le hext.size
  dtime i hi := by
    rw [hext.slots i (h.slot i hi)]
    exact h.dtime i hi
  mode i hi hnot := by
    rw [hext.slots i (h.slot i hi)]
    exact h.mode i hi hnot

/-- A field that a slot keeps is the same in all slots. -/
theorem update_field {α : Type} (f : PmfsInode → α) {x : PmfsInode} {k : ℕ} (h : f x = f (p i)) :
    f (update p i x k) = f (p k) := by
  by_cases hki : k = i
  · rw [hki, update_self, h]
  · rw [update_of_ne hki]

theorem Held.step (h : Held s) (hstep : Step BelowHint s s') : Held s' := by
  cases hstep with
  | @select t' i mode flags grow hsafe hsel =>
    obtain ⟨t1, hext, -, hlt, -, rfl⟩ := select_spec hsel
    obtain ⟨hcount, hslot, hdtime, hmode⟩ := h.extends hext
    refine ⟨hcount, fun k hk => ?_, fun k hk => ?_, fun k hk hnot => ?_⟩
    · rcases Finset.mem_insert.mp hk with rfl | hk
      · exact hlt.trans_le hcount
      · exact hslot k hk
    · show (update t1.pi i _ k).iDtime = 0
      by_cases hki : k = i
      · rw [hki, update_self]
        rfl
      · rw [update_of_ne hki]
        exact hdtime k ((Finset.mem_insert.mp hk).resolve_left hki)
    · show (update t1.pi i _ k).iMode ≠ 0
      have hki : k ≠ i := by
        rintro rfl
        exact hnot (Finset.mem_insert_self k _)
      rw [update_of_ne hki]
      refine hmode k ((Finset.mem_insert.mp hk).resolve_left hki) fun hin => ?_
      exact hnot (Finset.mem_insert_of_mem hin)
  | @fail t' e mode flags grow hsel =>
    obtain ⟨⟨t1, r⟩, hfind, heq⟩ := Option.map_eq_some_iff.mp hsel
    obtain ⟨hext, -⟩ := find_spec hfind
    cases r with
    | ok j => simp at heq
    | error e =>
      cases heq
      exact h.extends hext
  | @publish i inode hi hne =>
    refine ⟨h.count, h.slot, fun k hk => ?_, fun k hk hnot => ?_⟩
    · refine Eq.trans ?_ (h.dtime k hk)
      exact update_field PmfsInode.iDtime rfl
    · show (update s.t.pi i _ k).iMode ≠ 0
      by_cases hki : k = i
      · rw [hki, update_self]
        exact hne
      · rw [update_of_ne hki]
        exact h.mode k hk fun hin => hnot (Finset.mem_erase.mpr ⟨hki, hin⟩)
  | @nlink i nlink hnot =>
    refine ⟨h.count, h.slot, fun k hk => ?_, fun k hk hknot => ?_⟩
    · refine Eq.trans ?_ (h.dtime k hk)
      exact update_field PmfsInode.iDtime rfl
    · refine ne_of_eq_of_ne ?_ (h.mode k hk hknot)
      exact update_field PmfsInode.iMode rfl
  | @free i now hnot =>
    refine ⟨h.count, fun k hk => h.slot k (Finset.mem_of_mem_erase hk), fun k hk => ?_,
      fun k hk hknot => ?_⟩
    · obtain ⟨hki, hk⟩ := Finset.mem_erase.mp hk
      show (update s.t.pi i _ k).iDtime = 0
      rw [update_of_ne hki]
      exact h.dtime k hk
    · obtain ⟨hki, hk⟩ := Finset.mem_erase.mp hk
      show (update s.t.pi i _ k).iMode ≠ 0
      rw [update_of_ne hki]
      exact h.mode k hk hknot

theorem held_run (hcount : t.count ≤ t.iSize >>> 7)
    (hrun : Relation.ReflTransGen (Step BelowHint) ⟨t, ∅, ∅⟩ s) : Held s := by
  induction hrun with
  | refl =>
    refine ⟨hcount, fun i hi => ?_, fun i hi => ?_, fun i hi => ?_⟩
    · exact absurd hi (Finset.notMem_empty i)
    · exact absurd hi (Finset.notMem_empty i)
    · exact absurd hi (Finset.notMem_empty i)
  | tail _ hstep ih => exact ih.step hstep

/-- **Creators get different inodes**: no slot is selected again before it is freed, in any
interleaving of creators and deleters in which, whenever a slot is selected, the slots that are
selected, not yet published and have never been used lie below the hint. -/
theorem creators_differ (hcount : t.count ≤ t.iSize >>> 7)
    (hrun : Relation.ReflTransGen (Step BelowHint) ⟨t, ∅, ∅⟩ s) (hsafe : BelowHint s)
    (hsel : selectInode s.t mode flags grow = some (t', .ok i)) : i ∉ s.held :=
  (held_run hcount hrun).notMem hsafe hsel

/-! ### Two runs -/

/-- Steps that can be evaluated, for regular files and a table that does not grow. -/
inductive Move where
  | select
  | publish (i : ℕ)
  | nlink (i nlink : ℕ)
  | free (i : ℕ)

def Move.exec (s : Race) : Move → Option Race
  | select =>
    match selectInode s.t 0o100644 0 [] with
    | some (t', .ok i) => some ⟨t', insert i s.held, insert i s.pending⟩
    | _ => none
  | publish i =>
    if i ∈ s.pending then
      some ⟨publishInode s.t i (newInode 0o100644 0 0 0 0), s.held, s.pending.erase i⟩
    else none
  | nlink i l =>
    if i ∉ s.pending then some { s with t := pmfsUpdateNlink s.t i l } else none
  | free i =>
    if i ∉ s.pending then
      some ⟨(pmfsFreeInode s.t i none 1).1, s.held.erase i, s.pending⟩
    else none

theorem exec_step {P : Race → Prop} {m : Move} (hP : P s) (h : m.exec s = some s') :
    Step P s s' := by
  cases m with
  | select =>
    unfold Move.exec at h
    cases hsel : selectInode s.t 0o100644 0 [] with
    | none => simp [hsel] at h
    | some r =>
      obtain ⟨t', r⟩ := r
      rw [hsel] at h
      cases r with
      | error e => simp at h
      | ok i =>
        cases h
        exact .select hP hsel
  | publish i =>
    unfold Move.exec at h
    dsimp only at h
    split_ifs at h with hi
    cases h
    exact .publish hi (by decide)
  | nlink i l =>
    unfold Move.exec at h
    dsimp only at h
    split_ifs at h with hi
    cases h
    exact .nlink hi
  | free i =>
    unfold Move.exec at h
    dsimp only at h
    split_ifs at h with hi
    cases h
    exact .free hi

instance : DecidablePred BelowHint := fun s =>
  inferInstanceAs (Decidable (∀ i ∈ s.pending, (s.t.pi i).iMode = 0 → i < s.t.hint))

/-- A table of 32 inodes on a new file system. -/
def newRace : Race := ⟨newTable 0x1000000 0 (rootInode 0o755 0 0 0 0), ∅, ∅⟩

theorem exists_select {p : Table → ℕ → Prop} (h : ∃ r ∈ selectInode t mode flags grow,
    ∃ i ∈ r.2.toOption, p r.1 i) : ∃ t' i, selectInode t mode flags grow = some (t', .ok i) ∧
    p t' i := by
  obtain ⟨⟨t', r⟩, hsel, i, hi, hp⟩ := h
  cases r with
  | error e => simp [Except.toOption] at hi
  | ok j =>
    obtain rfl : j = i := by simpa [Except.toOption] using hi
    exact ⟨t', j, hsel, hp⟩

/-- One file has been made and another one is still to be published when a third one is made. -/
theorem creators_differ_three : ∃ s t' i, Relation.ReflTransGen (Step BelowHint) newRace s ∧
    s.held = {4, 3} ∧ selectInode s.t 0o100644 0 [] = some (t', .ok i) ∧ i ∉ s.held := by
  obtain ⟨s, hrun, hheld, hsafe, hsel⟩ : ∃ s ∈ run Move.exec (fun s _ => BelowHint s) newRace
    [.select, .publish 3, .select],
      s.held = {4, 3} ∧ BelowHint s ∧ ∃ r ∈ selectInode s.t 0o100644 0 [],
      ∃ i ∈ r.2.toOption, True := by
    decide +kernel
  obtain ⟨t', i, hsel, -⟩ := exists_select (p := fun _ _ => True) hsel
  have hsteps : Relation.ReflTransGen (Step BelowHint) newRace s :=
    run_rel (fun _ _ _ => exec_step) hrun
  exact ⟨s, t', i, hsteps, hheld, hsel, creators_differ (by decide) hsteps hsafe hsel⟩

/-- The slot 4 is selected and not published when the inode in slot 3 is deleted, which moves the
hint back. Of the next two creators the second one selects the slot 4 again. -/
theorem selected_twice : ∃ s t' i, Relation.ReflTransGen (Step fun _ => True) newRace s ∧
    selectInode s.t 0o100644 0 [] = some (t', .ok i) ∧ i ∈ s.held := by
  obtain ⟨s, hrun, hsel⟩ : ∃ s ∈ run Move.exec (fun _ _ => True) newRace
      [.select, .publish 3, .select, .nlink 3 0, .free 3, .select],
      ∃ r ∈ selectInode s.t 0o100644 0 [], ∃ i ∈ r.2.toOption, i ∈ s.held := by decide +kernel
  obtain ⟨t', i, hsel, hi⟩ := exists_select (p := fun _ i => i ∈ s.held) hsel
  exact ⟨s, t', i, run_rel (fun _ _ _ => exec_step) hrun, hsel, hi⟩

end Pmfs.Itable.Select
