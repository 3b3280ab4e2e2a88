import Mathlib.Data.Set.Card
import Mathlib.Data.Set.Lattice
import Mathlib.Order.CompletePartialOrder
import Mathlib.Order.Interval.Finset.Nat
import Mathlib.Data.List.Pairwise
import Mathlib.Tactic.Ring
import Mathlib.Tactic.Linarith

/-! # Canonical lists of intervals

A set of natural numbers below a bound is kept as a list of closed intervals. `Canon b e l` says
that the list is the canonical one for its set: the intervals are nonempty, lie in `[b, e)`, are
sorted and any two leave a gap of at least one number. `covered l` is the set a list stands for,
`run a n` the `n` consecutive numbers from `a` on. `canon_cons` and `mem_covered_cons` follow the
recursion of the programs that scan such lists. A set has one canonical list
(`Canon.eq_of_covered_eq`). -/

namespace Pmfs.Lib.Intervals

/-- A closed interval of natural numbers. -/
@[ext] structure Interval where
  low : ℕ
  high : ℕ
deriving DecidableEq, Repr

/-- The numbers of an interval. -/
def Interval.toSet (i : Interval) : Set ℕ := {x | i.low ≤ x ∧ x ≤ i.high}

/-- The `n` consecutive numbers from `a` on. -/
def run (a n : ℕ) : Set ℕ := {x | a ≤ x ∧ x < a + n}

/-- The set a list of intervals stands for. -/
def covered (l : List Interval) : Set ℕ := {x | ∃ i ∈ l, x ∈ i.toSet}

/-- How many numbers a list of disjoint intervals covers. -/
def total (l : List Interval) : ℕ := (l.map fun i => i.high + 1 - i.low).sum

/-- The sorted list of nonempty, pairwise disjoint and non-adjacent intervals of `[b, e)`. -/
structure Canon (b e : ℕ) (l : List Interval) : Prop where
  inside : ∀ i ∈ l, b ≤ i.low ∧ i.low ≤ i.high ∧ i.high < e
  apart : l.Pairwise fun i j => i.high + 1 < j.low

theorem mem_toSet {i : Interval} {x : ℕ} : x ∈ i.toSet ↔ i.low ≤ x ∧ x ≤ i.high := Iff.rfl

@[simp] theorem mem_run {a n x : ℕ} : x ∈ run a n ↔ a ≤ x ∧ x < a + n := Iff.rfl

@[simp] theorem covered_nil : covered [] = ∅ := by
  ext x; simp [covered]

theorem mem_covered_cons {i : Interval} {l : List Interval} {x : ℕ} :
    x ∈ covered (i :: l) ↔ (i.low ≤ x ∧ x ≤ i.high) ∨ x ∈ covered l := by
  simp [covered, mem_toSet]

@[simp] theorem canon_nil (b e : ℕ) : Canon b e [] :=
  ⟨by simp, List.Pairwise.nil⟩

theorem canon_cons {b e : ℕ} {i : Interval} {l : List Interval} :
    Canon b e (i :: l) ↔
      b ≤ i.low ∧ i.low ≤ i.high ∧ i.high < e ∧ Canon (i.high + 2) e l := by
  constructor
  · rintro ⟨hin, hap⟩
    obtain ⟨h1, h2, h3⟩ := hin i (by simp)
    rw [List.pairwise_cons] at hap
    refine ⟨h1, h2, h3, fun j hj => ?_, hap.2⟩
    have hj' := hin j (by simp [hj])
    exact ⟨hap.1 j hj, hj'.2⟩
  · rintro ⟨h1, h2, h3, hin, hap⟩
    refine ⟨fun j hj => ?_, List.pairwise_cons.mpr ⟨fun j hj => (hin j hj).1, hap⟩⟩
    rcases List.mem_cons.mp hj with rfl | hj
    · exact ⟨h1, h2, h3⟩
    · have hj' := hin j hj
      exact ⟨by omega, hj'.2⟩

theorem Canon.mono {b b' e : ℕ} {l : List Interval} (h : Canon b e l) (hb : b' ≤ b) :
    Canon b' e l :=
  ⟨fun i hi => ⟨le_trans hb (h.inside i hi).1, (h.inside i hi).2⟩, h.apart⟩

theorem Canon.mem_bounds {b e : ℕ} {l : List Interval} (h : Canon b e l) {x : ℕ}
    (hx : x ∈ covered l) : b ≤ x ∧ x < e := by
  obtain ⟨i, hi, hx⟩ := hx
  have := h.inside i hi
  rw [mem_toSet] at hx
  omega

theorem Canon.not_mem_of_lt {b e : ℕ} {l : List Interval} (h : Canon b e l) {x : ℕ}
    (hx : x < b) : x ∉ covered l := fun hm => by
  have := h.mem_bounds hm
  omega

theorem covered_of_mem {i : Interval} {l : List Interval} (hi : i ∈ l) {x : ℕ}
    (h1 : i.low ≤ x) (h2 : x ≤ i.high) : x ∈ covered l := ⟨i, hi, h1, h2⟩

theorem Canon.length_le {e : ℕ} : ∀ {b : ℕ} {l : List Interval}, Canon b e l → l.length ≤ e - b
  | _, [], _ => Nat.zero_le _
  | b, i :: l, h => by
    obtain ⟨h1, h2, h3, h4⟩ := canon_cons.mp h
    have := h4.length_le
    rw [List.length_cons]
    omega

/-- A run of consecutive covered numbers lies inside one interval. -/
theorem Canon.run_inside {e : ℕ} : ∀ {b : ℕ} {l : List Interval}, Canon b e l → ∀ {a n : ℕ},
    0 < n → run a n ⊆ covered l → ∃ i ∈ l, i.low ≤ a ∧ a + n - 1 ≤ i.high
  | _, [], _, a, n, hn, hr => by
    have := hr (show a ∈ run a n by simp [hn])
    simp at this
  | b, i :: l, hc, a, n, hn, hr => by
    obtain ⟨h1, h2, h3, h4⟩ := canon_cons.mp hc
    have ha : a ∈ covered (i :: l) := hr (by simp [hn])
    rcases mem_covered_cons.mp ha with ha | ha
    · refine ⟨i, by simp, ha.1, ?_⟩
      -- otherwise the number right after the interval is in the run and in no interval
      by_contra hcon
      have hx : i.high + 1 ∈ covered (i :: l) := hr (by simp only [mem_run]; omega)
      rcases mem_covered_cons.mp hx with hx | hx
      · omega
      · exact h4.not_mem_of_lt (by omega) hx
    · have hlow := h4.mem_bounds ha
      have hsub : run a n ⊆ covered l := by
        intro x hx
        rcases mem_covered_cons.mp (hr hx) with h | h
        · rw [mem_run] at hx; omega
        · exact h
      obtain ⟨j, hj, h⟩ := h4.run_inside hn hsub
      exact ⟨j, by simp [hj], h⟩

theorem Canon.ext_head {b b' e e' : ℕ} {i j : Interval} {l l' : List Interval}
    (h : Canon b e (i :: l)) (h' : Canon b' e' (j :: l'))
    (hcov : covered (i :: l) = covered (j :: l')) : j.low ≤ i.low ∧
    (j.low = i.low → j.high ≤ i.high) := by
  obtain ⟨-, h2, -, h4⟩ := canon_cons.mp h
  obtain ⟨-, g2, -, g4⟩ := canon_cons.mp h'
  constructor
  · have hmem : i.low ∈ covered (j :: l') := hcov ▸ mem_covered_cons.mpr (Or.inl ⟨le_rfl, h2⟩)
    rcases mem_covered_cons.mp hmem with hm | hm
    · exact hm.1
    · have := (g4.mem_bounds hm).1
      omega
  · intro heq
    by_contra hlt
    -- the number after `i` lies in `j`, but in no interval of the other list
    have hmem : i.high + 1 ∈ covered (i :: l) :=
      hcov ▸ mem_covered_cons.mpr (Or.inl ⟨by omega, by omega⟩)
    rcases mem_covered_cons.mp hmem with hm | hm
    · omega
    · exact h4.not_mem_of_lt (by omega) hm

/-- **A set has one canonical list.** -/
theorem Canon.eq_of_covered_eq {e e' : ℕ} : ∀ {b b' : ℕ} {l l' : List Interval}, Canon b e l →
    Canon b' e' l' → covered l = covered l' → l = l'
  | _, _, [], [], _, _, _ => rfl
  | _, _, [], j :: l', _, h', hcov => by
    have hmem : j.low ∈ covered (j :: l') :=
      mem_covered_cons.mpr (Or.inl ⟨le_rfl, (canon_cons.mp h').2.1⟩)
    simp [← hcov] at hmem
  | _, _, i :: l, [], h, _, hcov => by
    have hmem : i.low ∈ covered (i :: l) :=
      mem_covered_cons.mpr (Or.inl ⟨le_rfl, (canon_cons.mp h).2.1⟩)
    simp [hcov] at hmem
  | _, _, i :: l, j :: l', h, h', hcov => by
    have h1 := h.ext_head h' hcov
    have h2 := h'.ext_head h hcov.symm
    have hij : i = j := Interval.ext (by omega) (by omega)
    subst hij
    obtain ⟨-, -, -, h4⟩ := canon_cons.mp h
    obtain ⟨-, -, -, g4⟩ := canon_cons.mp h'
    have htail : covered l = covered l' := by
      ext x
      have hx := Set.ext_iff.mp hcov x
      rw [mem_covered_cons, mem_covered_cons] at hx
      constructor
      · intro hm
        have := (h4.mem_bounds hm).1
        exact (hx.mp (Or.inr hm)).resolve_left (by omega)
      · intro hm
        have := (g4.mem_bounds hm).1
        exact (hx.mpr (Or.inr hm)).resolve_left (by omega)
    rw [h4.eq_of_covered_eq g4 htail]

/-! ### Totals -/

@[simp] theorem total_nil : total [] = 0 := rfl

@[simp] theorem total_cons {i : Interval} {l : List Interval} :
    total (i :: l) = i.high + 1 - i.low + total l := by
  simp [total]

@[simp] theorem total_append {l l' : List Interval} : total (l ++ l') = total l + total l' := by
  simp [total]

theorem covered_cons {i : Interval} {l : List Interval} :
    covered (i :: l) = Set.Icc i.low i.high ∪ covered l := by
  ext x
  exact mem_covered_cons

/-- A canonical list covers as many numbers as its total says. -/
theorem Canon.ncard_covered {e : ℕ} : ∀ {b : ℕ} {l : List Interval}, Canon b e l →
    (covered l).ncard = total l
  | _, [], _ => by rw [covered_nil, Set.ncard_empty, total_nil]
  | b, i :: l, h => by
    obtain ⟨h1, h2, h3, h4⟩ := canon_cons.mp h
    have hfin : (covered l).Finite := (Set.finite_Iio e).subset fun x hx => (h4.mem_bounds hx).2
    have hdis : Disjoint (Set.Icc i.low i.high) (covered l) := by
      refine Set.disjoint_left.mpr fun x hx hx' => ?_
      have := (h4.mem_bounds hx').1
      have := hx.2
      omega
    rw [covered_cons, Set.ncard_union_eq hdis (Set.finite_Icc _ _) hfin,
      h4.ncard_covered, total_cons, ← Finset.coe_Icc, Set.ncard_coe_finset, Nat.card_Icc]

end Pmfs.Lib.Intervals
