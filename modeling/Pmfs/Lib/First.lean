import Mathlib.Order.Lattice.Nat
import Mathlib.Tactic.Common

/-! # The first index with a property

`first P a b` is the first index of `[a, b)` at which `P` holds, and `b` when there is none:
`first_eq` pins it down, `first_lt_iff` says when there is one, `first_append` takes a range apart,
`first_shift` moves it and `first_div` scales it. -/

namespace Pmfs.Lib.First

variable {P Q : ℕ → Prop} {a b c n x : ℕ}

/-- The first index of `[a, b)` at which `P` holds, `b` when there is none. -/
noncomputable def first (P : ℕ → Prop) (a b : ℕ) : ℕ := sInf {n | a ≤ n ∧ (P n ∨ b ≤ n)}

theorem first_mem (hab : a ≤ b) : a ≤ first P a b ∧ (P (first P a b) ∨ b ≤ first P a b) :=
  Nat.sInf_mem (s := {n | a ≤ n ∧ (P n ∨ b ≤ n)}) ⟨b, hab, Or.inr le_rfl⟩

theorem le_first (hab : a ≤ b) : a ≤ first P a b := (first_mem hab).1

theorem first_le (hab : a ≤ b) : first P a b ≤ b := Nat.sInf_le ⟨hab, Or.inr le_rfl⟩

/-- A first index below the end has the property. -/
theorem first_holds (hab : a ≤ b) (h : first P a b < b) : P (first P a b) :=
  (first_mem hab).2.resolve_right (not_le.mpr h)

/-- No index before the first one has the property. -/
theorem not_of_lt_first (ha : a ≤ n) (hn : n < first P a b) : ¬ P n := by
  intro hP
  exact absurd (Nat.sInf_le (s := {n | a ≤ n ∧ (P n ∨ b ≤ n)}) ⟨ha, Or.inl hP⟩) (not_le.mpr hn)

theorem first_eq (ha : a ≤ x) (hb : x ≤ b) (hx : x < b → P x) (hmin : ∀ n, a ≤ n → n < x → ¬ P n) :
    first P a b = x := by
  have hab := ha.trans hb
  refine le_antisymm ?_ ?_
  · by_contra hcon
    rw [not_le] at hcon
    exact not_of_lt_first ha hcon (hx (hcon.trans_le (first_le hab)))
  · by_contra hcon
    rw [not_le] at hcon
    exact hmin _ (le_first hab) hcon (first_holds hab (hcon.trans_le hb))

theorem first_lt_iff (hab : a ≤ b) : first P a b < b ↔ ∃ n, a ≤ n ∧ n < b ∧ P n := by
  constructor
  · intro h
    exact ⟨_, le_first hab, h, first_holds hab h⟩
  · rintro ⟨n, ha, hb, hP⟩
    by_contra hcon
    exact not_of_lt_first (b := b) ha (by omega) hP

theorem first_eq_end_iff (hab : a ≤ b) : first P a b = b ↔ ∀ n, a ≤ n → n < b → ¬ P n := by
  constructor
  · intro h n ha hb
    exact not_of_lt_first ha (h.symm ▸ hb)
  · intro h
    exact first_eq hab le_rfl (fun hcon => absurd hcon (lt_irrefl b)) h

theorem first_of_le (hba : b ≤ a) : first P a b = a :=
  le_antisymm (Nat.sInf_le ⟨le_rfl, Or.inr hba⟩)
    (Nat.sInf_mem (s := {n | a ≤ n ∧ (P n ∨ b ≤ n)}) ⟨a, le_rfl, Or.inr hba⟩).1

@[simp] theorem first_self : first P a a = a := first_of_le le_rfl

theorem first_of_holds (hab : a < b) (h : P a) : first P a b = a :=
  first_eq le_rfl hab.le (fun _ => h) fun _ _ _ => by omega

/-- A first index is the first one of the first part that has any. -/
theorem first_append (hac : a ≤ c) (hcb : c ≤ b) :
    first P a b = if first P a c < c then first P a c else first P c b := by
  split_ifs with h
  · exact first_eq (le_first hac) (h.le.trans hcb) (fun _ => first_holds hac h) fun n =>
      not_of_lt_first
  · have hend : first P a c = c := le_antisymm (first_le hac) (not_lt.mp h)
    refine first_eq (hac.trans (le_first hcb)) (first_le hcb) (first_holds hcb) fun n ha hn => ?_
    by_cases hnc : n < c
    · exact (first_eq_end_iff hac).mp hend n ha hnc
    · exact not_of_lt_first (not_lt.mp hnc) hn

theorem first_shift (hab : a ≤ b) (h : ∀ n, a ≤ n → n < b → (P (c + n) ↔ Q n)) :
    first P (c + a) (c + b) = c + first Q a b := by
  have h1 := le_first (P := Q) hab
  have h2 := first_le (P := Q) hab
  refine first_eq (by omega) (by omega) (fun hlt => ?_) fun n ha hn => ?_
  · exact (h _ h1 (by omega)).mpr (first_holds hab (by omega))
  · obtain ⟨k, rfl⟩ : ∃ k, n = c + k := ⟨n - c, by omega⟩
    rw [h k (by omega) (by omega)]
    exact not_of_lt_first (a := a) (b := b) (by omega) (by omega)

theorem first_congr (hab : a ≤ b) (h : ∀ n, a ≤ n → n < b → (P n ↔ Q n)) :
    first P a b = first Q a b := by
  have := first_shift (c := 0) hab (Q := Q) (by simpa using h)
  simpa using this

/-- A property of the quotient by `B`, from that of the quotients. -/
theorem first_div {B : ℕ} (hB : 0 < B) (hab : a < b) : first (fun x => P (x / B)) a b =
    min b (max a (first P (a / B) (b / B + 1) * B)) := by
  have hdiv : a / B ≤ b / B + 1 := (Nat.div_le_div_right hab.le).trans (Nat.le_succ _)
  have hle := le_first (P := P) hdiv
  have hlast := first_le (P := P) hdiv
  have hend : b < (b / B + 1) * B := (Nat.div_lt_iff_lt_mul hB).mp (Nat.lt_succ_self _)
  generalize hD : first P (a / B) (b / B + 1) = D at hle hlast
  refine first_eq (by omega) (by omega) (fun hlt => ?_) fun n ha hn => ?_
  · -- below the end the quotient is the first one
    have hDB : D * B < b := by omega
    have hquot : max a (D * B) / B = D := by
      rcases le_total a (D * B) with h | h
      · rw [max_eq_right h, Nat.mul_div_cancel _ hB]
      · rw [max_eq_left h]
        exact le_antisymm hle ((Nat.le_div_iff_mul_le hB).mpr h)
    have hDlt : D < b / B + 1 := by
      by_contra hcon
      have : (b / B + 1) * B ≤ D * B := Nat.mul_le_mul_right B (not_lt.mp hcon)
      omega
    rw [min_eq_right (by omega), hquot, ← hD]
    exact first_holds hdiv (by rw [hD]; exact hDlt)
  · have hnD : n < D * B := by omega
    exact not_of_lt_first (Nat.div_le_div_right ha)
      (by rw [hD]; exact (Nat.div_lt_iff_lt_mul hB).mpr hnD)

end Pmfs.Lib.First
