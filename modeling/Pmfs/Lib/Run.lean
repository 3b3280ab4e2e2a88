import Mathlib.Logic.Relation
import Mathlib.Tactic.Common

/-! # Runs that can be evaluated

`run exec P s l` makes the steps of the list `l` from the state `s`, as long as each of them has the
property `P` and does not fail. A result is a run in the sense of the reflexive transitive closure
(`run_rel`), so that a run on fixed steps is found by evaluation. -/

namespace Pmfs.Lib.Run

variable {σ ο : Type*} {exec : σ → ο → Option σ} {P : σ → ο → Prop} {R : σ → σ → Prop} {s s' : σ}

/-- The steps one after the other. -/
def run (exec : σ → ο → Option σ) (P : σ → ο → Prop) [∀ s o, Decidable (P s o)] (s : σ) :
    List ο → Option σ
  | [] => some s
  | o :: l => if P s o then (exec s o).bind fun s' => run exec P s' l else none

theorem run_rel [∀ s o, Decidable (P s o)] {l : List ο} (hstep : ∀ s o s', P s o →
    exec s o = some s' → R s s') (h : run exec P s l = some s') : Relation.ReflTransGen R s s' := by
  induction l generalizing s with
  | nil =>
    cases h
    exact .refl
  | cons o l ih =>
    unfold run at h
    split_ifs at h with hP
    obtain ⟨s1, hexec, hrest⟩ := Option.bind_eq_some_iff.mp h
    exact .head (hstep s o s1 hP hexec) (ih hrest)

end Pmfs.Lib.Run
