import Mathlib.Tactic.Common

/-! # Counting loops

`forLoop body i n s` is the loop `for (j = i; j < i + n; j++)` of a C function, run from the state
`s`. The body may crash, which is `none`, or leave the loop with an error. `forLoop_rule` is the
rule of the loop invariant, for total correctness: when the body keeps the invariant from one index
to the next, or leaves with an error in a state that is allowed to, the loop ends, and ends so. -/

namespace Pmfs.Lib.Loop

variable {σ ε : Type*} {body : ℕ → σ → Option (σ × Option ε)} {i n : ℕ} {s s' : σ} {e : ε}

/-- The loop over the `n` indices from `i` on. -/
def forLoop (body : ℕ → σ → Option (σ × Option ε)) : ℕ → ℕ → σ → Option (σ × Option ε)
  | _, 0, s => some (s, none)
  | i, n + 1, s =>
    match body i s with
    | none => none
    | some (s', some e) => some (s', some e)
    | some (s', none) => forLoop body (i + 1) n s'

@[simp] theorem forLoop_zero : forLoop body i 0 s = some (s, none) := rfl

theorem forLoop_next (h : body i s = some (s', none)) :
    forLoop body i (n + 1) s = forLoop body (i + 1) n s' := by
  rw [forLoop, h]

theorem forLoop_error (h : body i s = some (s', some e)) :
    forLoop body i (n + 1) s = some (s', some e) := by
  rw [forLoop, h]

theorem forLoop_crash (h : body i s = none) : forLoop body i (n + 1) s = none := by
  rw [forLoop, h]

theorem forLoop_congr {body' : ℕ → σ → Option (σ × Option ε)} : ∀ {n i : ℕ} {s : σ},
    (∀ j s, i ≤ j → j < i + n → body j s = body' j s) → forLoop body i n s = forLoop body' i n s
  | 0, _, _, _ => rfl
  | n + 1, i, s, h => by
    have hrest := fun t => forLoop_congr (n := n) (i := i + 1) (s := t) fun j t h1 h2 =>
      h j t (by omega) (by omega)
    rw [forLoop, forLoop, h i s (Nat.le_refl i) (by omega)]
    simp only [hrest]

/-- A loop in two parts: the second one runs when the first one was not left. -/
theorem forLoop_append {n' : ℕ} {o : Option ε} :
    ∀ {n i : ℕ} {s : σ}, forLoop body i n s = some (s', o) →
    forLoop body i (n + n') s = o.elim (forLoop body (i + n) n' s') fun e => some (s', some e)
  | 0, i, s, h => by
    rw [forLoop_zero] at h
    cases h
    rw [Nat.zero_add]
    rfl
  | n + 1, i, s, h => by
    rw [show n + 1 + n' = n + n' + 1 by omega]
    rcases hb : body i s with _ | ⟨t, _ | e⟩
    · rw [forLoop_crash hb] at h
      exact absurd h (by simp)
    · rw [forLoop_next hb] at h ⊢
      rw [forLoop_append h, show i + 1 + n = i + (n + 1) by omega]
    · rw [forLoop_error hb] at h ⊢
      cases h
      rfl

/-- A loop that is never left crashes when it comes to an index where the body does. -/
theorem forLoop_crash_from {N : ℕ} (hexit : ∀ j s s' e, body j s ≠ some (s', some e))
    (hcrash : ∀ j s, N ≤ j → body j s = none) : ∀ {n i : ℕ} {s : σ}, N ≤ i + n →
      forLoop body i (n + 1) s = none
  | 0, i, s, h => forLoop_crash (hcrash i s (by omega))
  | n + 1, i, s, h => by
    rcases hb : body i s with _ | ⟨t, _ | e⟩
    · exact forLoop_crash hb
    · rw [forLoop_next hb]
      exact forLoop_crash_from hexit hcrash (by omega)
    · exact absurd hb (hexit i s t e)

/-- A computation that does not crash, ends in `I` without an error and in `E` with one. -/
def Ends (r : Option (σ × Option ε)) (I : σ → Prop) (E : ε → σ → Prop) : Prop :=
  (∃ s, r = some (s, none) ∧ I s) ∨ ∃ s e, r = some (s, some e) ∧ E e s

/-- The rule of the loop invariant `I`; `E` says how the loop may be left with an error. -/
theorem forLoop_rule {I : ℕ → σ → Prop} {E : ε → σ → Prop} : ∀ {n i : ℕ} {s : σ},
    (∀ j s, i ≤ j → j < i + n → I j s → Ends (body j s) (I (j + 1)) E) →
    I i s → Ends (forLoop body i n s) (I (i + n)) E
  | 0, _, s, _, hs => Or.inl ⟨s, rfl, hs⟩
  | n + 1, i, s, h, hs => by
    rcases h i s (Nat.le_refl i) (by omega) hs with ⟨s', hb, ho⟩ | ⟨s', e, hb, ho⟩
    · rw [forLoop_next hb, show i + (n + 1) = i + 1 + n by omega]
      exact forLoop_rule (fun j t h1 h2 hj => h j t (by omega) (by omega) hj) ho
    · exact Or.inr ⟨s', e, forLoop_error hb, ho⟩

theorem forLoop_ne_none : ∀ {n i : ℕ} {s : σ}, (∀ j s, i ≤ j → j < i + n → body j s ≠ none) →
    forLoop body i n s ≠ none
  | 0, _, _, _ => by simp
  | n + 1, i, s, h => by
    rcases hb : body i s with _ | ⟨t, _ | e⟩
    · exact absurd hb (h i s (Nat.le_refl i) (by omega))
    · rw [forLoop_next hb]
      exact forLoop_ne_none fun j t h1 h2 => h j t (by omega) (by omega)
    · rw [forLoop_error hb]
      exact Option.some_ne_none _

/-- The rule for a body that never leaves the loop with an error. -/
theorem forLoop_total {I : ℕ → σ → Prop} {s : σ}
    (h : ∀ j s, i ≤ j → j < i + n → I j s → ∃ s', body j s = some (s', none) ∧ I (j + 1) s')
    (hs : I i s) : ∃ s', forLoop body i n s = some (s', none) ∧ I (i + n) s' :=
  (forLoop_rule (fun j t h1 h2 hj => Or.inl (h j t h1 h2 hj)) hs).resolve_right
    fun ⟨_, _, _, hcon⟩ => hcon

/-- The rule for partial correctness: what the body keeps, the loop keeps. -/
theorem forLoop_keeps {I : σ → Prop} {o : Option ε}
    (h : ∀ j s s' o, I s → body j s = some (s', o) → I s') : ∀ {n i : ℕ} {s s' : σ}, I s →
      forLoop body i n s = some (s', o) → I s'
  | 0, _, _, _, hs, hrun => by
    rw [forLoop_zero] at hrun
    cases hrun
    exact hs
  | n + 1, i, s, s', hs, hrun => by
    cases hb : body i s with
    | none => simp [forLoop_crash hb] at hrun
    | some r =>
      obtain ⟨s1, o1⟩ := r
      have hs1 := h i s s1 o1 hs hb
      cases o1 with
      | none =>
        rw [forLoop_next hb] at hrun
        exact forLoop_keeps h hs1 hrun
      | some e =>
        rw [forLoop_error hb] at hrun
        cases hrun
        exact hs1

/-- The rule for partial correctness with an invariant `I` for every index; `E` holds when the loop
is left with an error. -/
theorem forLoop_partial {I : ℕ → σ → Prop} {E : σ → Prop} : ∀ {n i : ℕ} {s s' : σ} {o : Option ε},
    (∀ j s s' o, i ≤ j → j < i + n → I j s → body j s = some (s', o) →
      (o = none → I (j + 1) s') ∧ (o ≠ none → E s')) →
    I i s → forLoop body i n s = some (s', o) → (o = none → I (i + n) s') ∧ (o ≠ none → E s')
  | 0, _, _, _, _, _, hs, hrun => by
    rw [forLoop_zero] at hrun
    cases hrun
    exact ⟨fun _ => hs, fun hcon => absurd rfl hcon⟩
  | n + 1, i, s, s', o, hstep, hs, hrun => by
    cases hb : body i s with
    | none => simp [forLoop_crash hb] at hrun
    | some r =>
      obtain ⟨s1, o1⟩ := r
      have hone := hstep i s s1 o1 (Nat.le_refl i) (by omega) hs hb
      cases o1 with
      | none =>
        rw [forLoop_next hb] at hrun
        rw [show i + (n + 1) = i + 1 + n by omega]
        exact forLoop_partial (fun j t t' o h1 h2 => hstep j t t' o (by omega) (by omega))
          (hone.1 rfl) hrun
      | some e =>
        rw [forLoop_error hb] at hrun
        cases hrun
        exact ⟨fun hcon => absurd hcon (by simp), fun _ => hone.2 (by simp)⟩

end Pmfs.Lib.Loop
