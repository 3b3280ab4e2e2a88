import Mathlib.Logic.Function.Basic
import Mathlib.Data.List.Nodup

/-! # Chains of pointers

`Chain nil next h l`: from `h` on, the pointers `next` lead through the places of `l` and then to
`nil`. A place is put in front (`Chain.push`), the first one is taken out by moving the head on, any
other one by a new pointer in the place before it (`Chain.drop`). -/

namespace Pmfs.Lib.Chain

variable {α : Type*} {nil h p i : α} {next next' : α → α} {l pre post : List α}

/-- The places from `h` on. -/
def Chain (nil : α) (next : α → α) : α → List α → Prop
  | h, [] => h = nil
  | h, i :: l => h = i ∧ i ≠ nil ∧ Chain nil next (next i) l

/-- Following the pointers from `h` one comes to `i`. -/
inductive Reach (nil : α) (next : α → α) : α → α → Prop
  | here {i : α} : i ≠ nil → Reach nil next i i
  | step {h i : α} : h ≠ nil → Reach nil next (next h) i → Reach nil next h i

theorem Chain.reach (hc : Chain nil next h l) (hi : i ∈ l) : Reach nil next h i := by
  induction l generalizing h with
  | nil => exact absurd hi List.not_mem_nil
  | cons j l ih =>
    obtain ⟨rfl, hne, hrest⟩ := hc
    rcases List.mem_cons.mp hi with rfl | hi
    · exact .here hne
    · exact .step hne (ih hrest hi)

theorem not_reach_nil : ¬ Reach nil next nil i := by
  intro hreach
  cases hreach with
  | here hne => exact hne rfl
  | step hne _ => exact hne rfl

theorem Chain.congr (hc : Chain nil next h l) (heq : ∀ i ∈ l, next' i = next i) :
    Chain nil next' h l := by
  induction l generalizing h with
  | nil => exact hc
  | cons j l ih =>
    obtain ⟨rfl, hne, hrest⟩ := hc
    refine ⟨rfl, hne, ?_⟩
    rw [heq h List.mem_cons_self]
    exact ih hrest fun i hi => heq i (List.mem_cons_of_mem _ hi)

variable [DecidableEq α]

theorem Chain.push (hc : Chain nil next h l) (hi : i ∉ l) (hne : i ≠ nil) :
    Chain nil (Function.update next i h) i (i :: l) := by
  refine ⟨rfl, hne, ?_⟩
  rw [Function.update_self]
  refine hc.congr fun j hj => Function.update_of_ne ?_ _ _
  rintro rfl
  exact hi hj

theorem Chain.drop (hc : Chain nil next h (pre ++ p :: i :: post))
    (hnd : (pre ++ p :: i :: post).Nodup) :
    Chain nil (Function.update next p (next i)) h (pre ++ p :: post) := by
  induction pre generalizing h with
  | nil =>
    obtain ⟨rfl, hne, rfl, -, hrest⟩ := hc
    refine ⟨rfl, hne, ?_⟩
    rw [Function.update_self]
    refine hrest.congr fun j hj => Function.update_of_ne ?_ _ _
    rintro rfl
    exact (List.nodup_cons.mp hnd).1 (List.mem_cons_of_mem _ hj)
  | cons q pre ih =>
    obtain ⟨rfl, hne, hrest⟩ := hc
    obtain ⟨hq, hnd⟩ := List.nodup_cons.mp hnd
    refine ⟨rfl, hne, ?_⟩
    rw [Function.update_of_ne]
    · exact ih hrest hnd
    · rintro rfl
      exact hq (List.mem_append_right _ List.mem_cons_self)

end Pmfs.Lib.Chain
