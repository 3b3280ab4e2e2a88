import Pmfs.Block.Model

/-! # Freeing

`freeBlockLoop_shrunk` says what the search loop of `__pmfs_free_block` does with a run of used
blocks: the run leaves the set, the list stays canonical. `freeBlockLoop_keep` is the other case: a
run that is not wholly in use changes nothing. `freeBlockLoop_skip` is the reason why a hint makes
no difference: the nodes before it end below the run. -/

namespace Pmfs.Block.Free

open Lib.Intervals Block.Model

variable {n b e c low pos : ℕ} {ok : Bool} {i : PmfsBlocknode} {l rest : List PmfsBlocknode}

/-- What the loop leaves of the list `l` when it frees the run at `low`. -/
structure Shrunk (n b e c low pos : ℕ) (l : List PmfsBlocknode) (r : FreeLoop) : Prop where
  freed : r.freed = true
  canon : Canon b e r.inuse
  covered : ∀ x, x ∈ covered r.inuse ↔ x ∈ covered l ∧ x ∉ run low n
  count : l.length ≤ c → r.allocated + l.length = c + r.inuse.length
  first : ∀ f < low, l.head?.map Interval.low = some f → r.inuse.head?.map Interval.low = some f
  hint : ∀ p ∈ r.hint.getD none, p < pos + r.inuse.length
  hint_some : r.hint.isSome

@[simp] theorem cons_inuse (r : FreeLoop) : (r.cons i).inuse = i :: r.inuse := rfl
@[simp] theorem cons_allocated (r : FreeLoop) : (r.cons i).allocated = r.allocated := rfl
@[simp] theorem cons_freed (r : FreeLoop) : (r.cons i).freed = r.freed := rfl
@[simp] theorem cons_hint (r : FreeLoop) : (r.cons i).hint = r.hint := rfl

theorem Shrunk.cons {r : FreeLoop} (hc : Canon b e (i :: rest)) (hlow : i.high < low)
    (h : Shrunk n (i.high + 2) e c low (pos + 1) rest r) :
    Shrunk n b e c low pos (i :: rest) (r.cons i) := by
  obtain ⟨h1, h2, h3, h4⟩ := canon_cons.mp hc
  refine ⟨h.freed, canon_cons.mpr ⟨h1, h2, h3, h.canon⟩, fun x => ?_, fun hl => ?_,
    fun f _ hf => hf, fun p hp => ?_, h.hint_some⟩
  · simp only [cons_inuse, mem_covered_cons, h.covered x, mem_run]
    by_cases hx : x ∈ Pmfs.Lib.Intervals.covered rest
    · have := (h4.mem_bounds hx).1
      simp only [hx, true_and, or_true]; omega
    · simp only [hx, false_and, or_false]; omega
  · have := h.count (by simp only [List.length_cons] at hl; omega)
    simp only [cons_inuse, cons_allocated, List.length_cons]; omega
  · have := h.hint p hp
    simp only [cons_inuse, List.length_cons]; omega

theorem next_lt {p : ℕ} (h : p ∈ pmfsNextBlocknode rest pos) : p < pos + rest.length := by
  cases rest with
  | nil => simp [pmfsNextBlocknode] at h
  | cons j rest =>
    simp only [pmfsNextBlocknode, List.isEmpty_cons, Bool.false_eq_true, if_false,
      Option.mem_def, Option.some.injEq] at h
    simp only [List.length_cons]
    omega

/-- **A run of used blocks is freed.** The first node may not be the run alone. -/
theorem freeBlockLoop_shrunk (hn : 0 < n) : ∀ {b pos : ℕ} {l : List PmfsBlocknode}, Canon b e l →
    (∃ i ∈ l, i.low ≤ low ∧ low + n - 1 ≤ i.high) →
      Shrunk n b e c low pos l (freeBlockLoop low (low + n - 1) true c pos l)
  | _, _, [], _, h => by simp at h
  | b, pos, i :: rest, hc, ⟨j, hj, hjl, hjh⟩ => by
    obtain ⟨h1, h2, h3, h4⟩ := canon_cons.mp hc
    have hout : ∀ x ∈ covered rest, i.high + 2 ≤ x := fun x hx => (h4.mem_bounds hx).1
    rw [freeBlockLoop]
    rcases List.mem_cons.mp hj with rfl | hj
    · rw [if_neg (by omega)]
      split_ifs with hall hleft hright hmid hok
      · refine ⟨rfl, h4.mono (by omega), fun x => ?_, fun hl => ?_, fun f hf hl => ?_,
          fun p hp => ?_, rfl⟩
        · have := hout x
          grind [mem_covered_cons, mem_run]
        · simp only [List.length_cons] at hl ⊢; omega
        · simp at hl; omega
        · exact next_lt hp
      · refine ⟨rfl, canon_cons.mpr ⟨by simp only; omega, by simp only; omega, h3, h4⟩, fun x => ?_,
          fun hl => by simp, fun f hf hl => ?_, fun p hp => ?_, rfl⟩
        · have := hout x
          grind [mem_covered_cons, mem_run]
        · simp at hl; omega
        · simp at hp; simp; omega
      · refine ⟨rfl, canon_cons.mpr ⟨h1, by simp only; omega, by simp only; omega,
          h4.mono (by simp only; omega)⟩, fun x => ?_, fun hl => by simp, fun f hf hl => hl,
          fun p hp => ?_, rfl⟩
        · have := hout x
          grind [mem_covered_cons, mem_run]
        · have := next_lt hp
          simp only [List.length_cons]; omega
      · refine ⟨rfl, canon_cons.mpr ⟨h1, by simp only; omega, by simp only; omega,
          canon_cons.mpr ⟨by simp only; omega, by simp only; omega, h3, h4⟩⟩, fun x => ?_,
          fun hl => by simp; omega, fun f hf hl => hl, fun p hp => ?_, rfl⟩
        · have := hout x
          grind [mem_covered_cons, mem_run]
        · simp at hp; simp; omega
      · exact absurd rfl hok
      · omega
    · have hj' := (h4.inside j hj).1
      rw [if_pos (by omega)]
      exact (freeBlockLoop_shrunk hn h4 ⟨j, hj, hjl, hjh⟩).cons hc (by omega)

/-- **A run that is not wholly in use changes nothing**, and neither does a run that needs a new
node when there is none. -/
theorem freeBlockLoop_keep (hn : 0 < n) : ∀ {b pos : ℕ} {l : List PmfsBlocknode}, Canon b e l →
    (∀ i ∈ l, ¬ (i.low ≤ low ∧ low + n - 1 ≤ i.high)) →
      freeBlockLoop low (low + n - 1) ok c pos l = ⟨l, c, false, none⟩
  | _, _, [], _, _ => rfl
  | b, pos, i :: rest, hc, h => by
    obtain ⟨h1, h2, h3, h4⟩ := canon_cons.mp hc
    have hi := h i (by simp)
    rw [freeBlockLoop, freeBlockLoop_keep hn h4 fun j hj => h j (by simp [hj])]
    split_ifs <;> first | rfl | omega

/-- Without a node for the second half of a split, the loop does the same or nothing. -/
theorem freeBlockLoop_noNode (high : ℕ) : ∀ (pos : ℕ) (l : List PmfsBlocknode),
    freeBlockLoop low high false c pos l = freeBlockLoop low high true c pos l ∨
      freeBlockLoop low high false c pos l = ⟨l, c, false, none⟩
  | _, [] => Or.inl rfl
  | pos, i :: rest => by
    have hnext : (freeBlockLoop low high false c (pos + 1) rest).cons i =
          (freeBlockLoop low high true c (pos + 1) rest).cons i ∨
        (freeBlockLoop low high false c (pos + 1) rest).cons i = ⟨i :: rest, c, false, none⟩ := by
      rcases freeBlockLoop_noNode high (pos + 1) rest with heq | heq
      · exact Or.inl (by rw [heq])
      · exact Or.inr (by rw [heq]; rfl)
    simp only [freeBlockLoop, Bool.false_eq_true, if_false, if_true]
    split_ifs
    · exact hnext
    · exact Or.inl rfl
    · exact Or.inl rfl
    · exact Or.inl rfl
    · exact Or.inr rfl
    · exact hnext

/-- The loop frees the run or leaves everything as it is. -/
theorem freeBlockLoop_outcome (hn : 0 < n) (hc : Canon b e l) :
    freeBlockLoop low (low + n - 1) ok c pos l = ⟨l, c, false, none⟩ ∨
      Shrunk n b e c low pos l (freeBlockLoop low (low + n - 1) ok c pos l) := by
  by_cases hin : ∃ i ∈ l, i.low ≤ low ∧ low + n - 1 ≤ i.high
  · have hshrunk : Shrunk n b e c low pos l _ := freeBlockLoop_shrunk hn hc hin
    cases ok with
    | true => exact Or.inr hshrunk
    | false =>
      rcases freeBlockLoop_noNode (low + n - 1) pos l with heq | heq
      · exact Or.inr (heq ▸ hshrunk)
      · exact Or.inl heq
  · exact Or.inl (freeBlockLoop_keep hn hc fun i hi hcon => hin ⟨i, hi, hcon⟩)

/-- The nodes that end below the run are passed over. -/
theorem freeBlockLoop_skip (high : ℕ) (ok : Bool) (c : ℕ) :
    ∀ (pos : ℕ) (l rest : List PmfsBlocknode), (∀ i ∈ l, i.high < low) →
      freeBlockLoop low high ok c pos (l ++ rest) =
        { freeBlockLoop low high ok c (pos + l.length) rest with
          inuse := l ++ (freeBlockLoop low high ok c (pos + l.length) rest).inuse }
  | _, [], _, _ => rfl
  | pos, i :: l, rest, h => by
    have hi := h i (by simp)
    rw [List.cons_append, freeBlockLoop, if_pos hi,
      freeBlockLoop_skip high ok c (pos + 1) l rest fun j hj => h j (by simp [hj]),
      List.length_cons,
      show pos + 1 + l.length = pos + (l.length + 1) by omega]
    rfl

/-- In a canonical list, every node before one that starts at or below `low` ends below `low`. -/
theorem high_lt_of_take (hc : Canon b e l) {h : ℕ} (hh : l[h]? = some i) (hlow : i.low ≤ low) :
    ∀ j ∈ l.take h, j.high < low := by
  intro j hj
  obtain ⟨k, hk, rfl⟩ := List.mem_iff_getElem.mp hj
  obtain ⟨hlt, rfl⟩ := List.getElem?_eq_some_iff.mp hh
  have hkh : k < h := by simp at hk; omega
  have := List.pairwise_iff_getElem.mp hc.apart k h (by omega) hlt hkh
  rw [List.getElem_take]
  omega

end Pmfs.Block.Free
