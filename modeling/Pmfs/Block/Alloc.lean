import Pmfs.Block.Model

/-! # Allocation

`Placed` says that one more run of free blocks is in a canonical list, and that the list is
canonical again; there is a lemma for each place the run may have in its gap. `newBlockLoop_some`
says what the search loop of `pmfs_new_block` returns: the next list, with one aligned run more.
`newBlockLoop_none` is the other half: when blocknodes can be allocated, the loop misses no aligned
run of free blocks. -/

namespace Pmfs.Block.Alloc

open Lib.Intervals Block.Model

variable {n e c : ℕ}

theorem alignDown_dvd (n x : ℕ) : n ∣ alignDown n x := Dvd.intro_left _ rfl

theorem lt_alignDown_add (hn : 0 < n) (h : ℕ) : h < alignDown n (h + n) := by
  have h1 : (h + n) / n * n + (h + n) % n = h + n := Nat.div_add_mod' _ _
  have h2 : (h + n) % n < n := Nat.mod_lt _ hn
  unfold alignDown
  omega

theorem alignDown_add_le {a h : ℕ} (hd : n ∣ a) (ha : h < a) : alignDown n (h + n) ≤ a := by
  obtain ⟨k, rfl⟩ := hd
  have hn : 0 < n := Nat.pos_of_ne_zero (by rintro rfl; simp at ha)
  have hk : (h + n) / n ≤ k := by
    rw [Nat.add_div_right h hn]
    exact (Nat.div_lt_iff_lt_mul hn).mpr (by rw [mul_comm]; exact ha)
  calc alignDown n (h + n) = n * ((h + n) / n) := mul_comm _ _
    _ ≤ n * k := Nat.mul_le_mul_left n hk

/-- A run of `n` blocks at `low` is added to the list `l`: the list `l'`, the node count `c'`. -/
structure Placed (n b e c : ℕ) (l l' : List PmfsBlocknode) (c' low : ℕ) : Prop where
  canon : Canon b e l'
  covered : ∀ x, x ∈ covered l' ↔ x ∈ covered l ∨ x ∈ run low n
  free : ∀ x ∈ run low n, x ∉ Pmfs.Lib.Intervals.covered l
  above : b < low
  fits : low + n ≤ e
  count : l.length ≤ c → c' + l.length = c + l'.length
  first : l'.head?.map Interval.low = l.head?.map Interval.low
  total : total l' = total l + n

/-- What the loop may return on the list `l`: the list `l'`, the node count `c'`, the run at `low`.
-/
structure Grown (n b e c : ℕ) (l l' : List PmfsBlocknode) (c' low : ℕ) : Prop where
  canon : Canon b e l'
  covered : ∀ x, x ∈ covered l' ↔ x ∈ covered l ∨ x ∈ run low n
  free : ∀ x ∈ run low n, x ∉ Pmfs.Lib.Intervals.covered l
  above : b < low
  aligned : n ∣ low
  fits : low + n ≤ e
  count : l.length ≤ c → c' + l.length = c + l'.length
  first : l'.head?.map Interval.low = l.head?.map Interval.low

theorem Placed.grown {b : ℕ} {l l' : List PmfsBlocknode} {c' low : ℕ}
    (h : Placed n b e c l l' c' low) (hd : n ∣ low) : Grown n b e c l l' c' low :=
  ⟨h.canon, h.covered, h.free, h.above, hd, h.fits, h.count, h.first⟩

/-- A run placed in the gap behind the first node. -/
theorem placed_here {b : ℕ} {i : PmfsBlocknode} {rest l' : List PmfsBlocknode} {c' low : ℕ}
    (hc : Canon b e (i :: rest)) (hlow : i.high < low)
    (hfit : low + n ≤ nextBlockLow e rest) (hcanon : Canon b e l')
    (hcov : ∀ x, x ∈ covered l' ↔ x ∈ covered (i :: rest) ∨ x ∈ run low n)
    (hcount : (i :: rest).length ≤ c → c' + (i :: rest).length = c + l'.length)
    (hfirst : l'.head?.map Interval.low = some i.low) (htotal : total l' = total (i :: rest) + n) :
    Placed n b e c (i :: rest) l' c' low := by
  obtain ⟨h1, h2, h3, h4⟩ := canon_cons.mp hc
  -- the gap ends at the next node or at the end of the device
  have hgap : nextBlockLow e rest ≤ e ∧ ∀ x ∈ covered rest, nextBlockLow e rest ≤ x := by
    cases rest with
    | nil => simp [nextBlockLow]
    | cons j rest =>
      obtain ⟨-, g2, g3, g4⟩ := canon_cons.mp h4
      refine ⟨by simp only [nextBlockLow]; omega, fun x hx => ?_⟩
      rcases mem_covered_cons.mp hx with hx | hx
      · exact hx.1
      · have := (g4.mem_bounds hx).1
        simp only [nextBlockLow]; omega
  refine ⟨hcanon, hcov, fun x hx hx' => ?_, by omega, by omega, hcount, hfirst, htotal⟩
  rw [mem_run] at hx
  rcases mem_covered_cons.mp hx' with h | h
  · omega
  · have := hgap.2 x h
    omega

/-- The run fills the gap between two nodes, which become one. -/
theorem placed_fill {b low : ℕ} {i j : PmfsBlocknode} {rest : List PmfsBlocknode}
    (hn : 0 < n) (hc : Canon b e (i :: j :: rest)) (hlow : low = i.high + 1)
    (hhigh : low + n = j.low) :
    Placed n b e c (i :: j :: rest) ({ i with high := j.high } :: rest) (c - 1) low := by
  obtain ⟨h1, h2, h3, h4⟩ := canon_cons.mp hc
  obtain ⟨g1, g2, g3, g4⟩ := canon_cons.mp h4
  refine placed_here hc (by omega) (by simp only [nextBlockLow]; omega) ?_ (fun x => ?_)
    (fun hl => ?_) rfl (by simp only [total_cons]; omega)
  · exact canon_cons.mpr ⟨h1, by simp only; omega, g3, g4⟩
  · grind [mem_covered_cons, mem_run]
  · simp only [List.length_cons] at hl ⊢; omega

section Apart

variable {b low : ℕ} {rest : List PmfsBlocknode} (hnext : ∀ j ∈ rest.head?, low + n < j.low)
include hnext

theorem le_nextBlockLow (hend : low + n ≤ e) : low + n ≤ nextBlockLow e rest := by
  cases rest with
  | nil => exact hend
  | cons j rest => exact (hnext j rfl).le

theorem canon_apart (hn : 0 < n) (hc : Canon b e rest) : Canon (low + n - 1 + 2) e rest := by
  cases rest with
  | nil => simp
  | cons j rest =>
    have := hnext j rfl
    exact canon_cons.mpr ⟨by omega, (canon_cons.mp hc).2⟩

end Apart

/-- The run lengthens the node on its left and leaves it apart from the next one. -/
theorem placed_left {b low : ℕ} {i : PmfsBlocknode} {rest : List PmfsBlocknode}
    (hn : 0 < n) (hc : Canon b e (i :: rest)) (hlow : low = i.high + 1)
    (hend : low + n ≤ e) (hnext : ∀ j ∈ rest.head?, low + n < j.low) :
    Placed n b e c (i :: rest) ({ i with high := low + n - 1 } :: rest) c low := by
  obtain ⟨h1, h2, h3, h4⟩ := canon_cons.mp hc
  refine placed_here hc (by omega) (le_nextBlockLow hnext hend) ?_ (fun x => ?_) (by simp) rfl
    (by simp only [total_cons]; omega)
  · exact canon_cons.mpr ⟨h1, by simp only; omega, by simp only; omega, canon_apart hnext hn h4⟩
  · grind [mem_covered_cons, mem_run]

theorem placed_right {b low : ℕ} {i j : PmfsBlocknode} {rest : List PmfsBlocknode}
    (hc : Canon b e (i :: j :: rest)) (hlow : i.high + 1 < low)
    (hhigh : low + n = j.low) :
    Placed n b e c (i :: j :: rest) (i :: { j with low := low } :: rest) c low := by
  obtain ⟨h1, h2, h3, h4⟩ := canon_cons.mp hc
  obtain ⟨g1, g2, g3, g4⟩ := canon_cons.mp h4
  refine placed_here hc (by omega) (by simp only [nextBlockLow]; omega) ?_ (fun x => ?_)
    (by simp) rfl (by simp only [total_cons]; omega)
  · exact canon_cons.mpr ⟨h1, h2, h3, canon_cons.mpr ⟨hlow, by simp only; omega, g3, g4⟩⟩
  · grind [mem_covered_cons, mem_run]

/-- The run touches no node and gets one of its own. -/
theorem placed_new {b low : ℕ} {i : PmfsBlocknode} {rest : List PmfsBlocknode}
    (hn : 0 < n) (hc : Canon b e (i :: rest)) (hlow : i.high + 1 < low)
    (hend : low + n ≤ e) (hnext : ∀ j ∈ rest.head?, low + n < j.low) :
    Placed n b e c (i :: rest) (i :: ⟨low, low + n - 1⟩ :: rest) (c + 1) low := by
  obtain ⟨h1, h2, h3, h4⟩ := canon_cons.mp hc
  refine placed_here hc (by omega) (le_nextBlockLow hnext hend) ?_ (fun x => ?_) (fun _ => ?_) rfl
    (by simp only [total_cons]; omega)
  · exact canon_cons.mpr ⟨h1, h2, h3,
      canon_cons.mpr ⟨hlow, by simp only; omega, by simp only; omega, canon_apart hnext hn h4⟩⟩
  · grind [mem_covered_cons, mem_run]
  · simp only [List.length_cons]; omega

theorem Placed.cons {b : ℕ} {i : PmfsBlocknode} {rest l' : List PmfsBlocknode} {c' low : ℕ}
    (hc : Canon b e (i :: rest)) (h : Placed n (i.high + 2) e c rest l' c' low) :
    Placed n b e c (i :: rest) (i :: l') c' low := by
  obtain ⟨h1, h2, h3, h4⟩ := canon_cons.mp hc
  have habove := h.above
  refine ⟨canon_cons.mpr ⟨h1, h2, h3, h.canon⟩, fun x => ?_, fun x hx hx' => ?_, by omega,
    h.fits, fun hl => ?_, rfl, ?_⟩
  · rw [mem_covered_cons, mem_covered_cons, h.covered x, or_assoc]
  · rcases mem_covered_cons.mp hx' with hx' | hx'
    · rw [mem_run] at hx; omega
    · exact h.free x hx hx'
  · have := h.count (by simp at hl; omega)
    simp only [List.length_cons]; omega
  · rw [total_cons, total_cons, h.total, Nat.add_assoc]

/-- When the loop finds a place, it places one aligned run there. -/
theorem newBlockLoop_placed {ok : Bool} (hn : 0 < n) : ∀ {b : ℕ} {l l' : List PmfsBlocknode}
    {c' low : ℕ}, Canon b e l → newBlockLoop n e ok c l = some (l', c', low) →
      Placed n b e c l l' c' low ∧ n ∣ low
  | _, [], _, _, _, _, h => by simp [newBlockLoop] at h
  | b, i :: rest, l', c', low, hc, h => by
    obtain ⟨h1, h2, h3, h4⟩ := canon_cons.mp hc
    have hskip : ∀ {o} {g : List PmfsBlocknode × ℕ × ℕ → List PmfsBlocknode × ℕ × ℕ},
        o = newBlockLoop n e ok c rest → (∀ l c low, g (l, c, low) = (i :: l, c, low)) →
          o.map g = some (l', c', low) → Placed n b e c (i :: rest) l' c' low ∧ n ∣ low := by
      rintro _ g rfl hg ho
      obtain ⟨⟨l'', c'', low''⟩, hrec, heq⟩ := Option.map_eq_some_iff.mp ho
      simp only [hg] at heq
      cases heq
      have hrest := newBlockLoop_placed hn h4 hrec
      exact ⟨hrest.1.cons hc, hrest.2⟩
    have hlt := lt_alignDown_add hn i.high
    have hdvd := alignDown_dvd n (i.high + n)
    simp only [newBlockLoop] at h
    set a := alignDown n (i.high + n) with ha
    by_cases hfit : a + n - 1 ≥ nextBlockLow e rest
    · rw [if_pos hfit] at h
      exact hskip rfl (fun _ _ _ => rfl) h
    rw [if_neg hfit] at h
    cases rest with
    | nil =>
      split_ifs at h with hfill hleft hright hok hmid hok
      all_goals simp only [nextBlockLow, Option.some.injEq, Prod.mk.injEq] at *
      · obtain ⟨rfl, rfl, rfl⟩ := h
        exact ⟨placed_left hn hc hfill.1 (by omega) (by simp), hdvd⟩
      · obtain ⟨rfl, rfl, rfl⟩ := h
        exact ⟨placed_left hn hc hleft.1 (by omega) (by simp), hdvd⟩
      · obtain ⟨rfl, rfl, rfl⟩ := h
        exact ⟨placed_new hn hc hright.1 (by omega) (by simp), hdvd⟩
      · obtain ⟨rfl, rfl, rfl⟩ := h
        exact ⟨placed_new hn hc hmid.1 (by omega) (by simp), hdvd⟩
      · exact hskip rfl (fun _ _ _ => rfl) h
    | cons j rest =>
      obtain ⟨g1, g2, g3, g4⟩ := canon_cons.mp h4
      dsimp only at h
      split_ifs at h with hfill hleft hright hmid hok
      all_goals simp only [nextBlockLow, Option.some.injEq, Prod.mk.injEq] at *
      · obtain ⟨rfl, rfl, rfl⟩ := h
        exact ⟨placed_fill hn hc hfill.1 (by omega), hdvd⟩
      · obtain ⟨rfl, rfl, rfl⟩ := h
        refine ⟨placed_left hn hc hleft.1 (by omega) fun k hk => ?_, hdvd⟩
        obtain rfl : j = k := by simpa using hk
        omega
      · obtain ⟨rfl, rfl, rfl⟩ := h
        exact ⟨placed_right hc hright.1 (by omega), hdvd⟩
      · obtain ⟨rfl, rfl, rfl⟩ := h
        refine ⟨placed_new hn hc hmid.1 (by omega) fun k hk => ?_, hdvd⟩
        obtain rfl : j = k := by simpa using hk
        omega
      · exact hskip rfl (fun _ _ _ => rfl) h

/-- **The loop keeps the list canonical.** When it finds a place, the list grows by one aligned run
of free blocks. -/
theorem newBlockLoop_some {ok : Bool} (hn : 0 < n) {b : ℕ} {l l' : List PmfsBlocknode} {c' low : ℕ}
    (hc : Canon b e l) (h : newBlockLoop n e ok c l = some (l', c', low)) :
    Grown n b e c l l' c' low :=
  (newBlockLoop_placed hn hc h).1.grown (newBlockLoop_placed hn hc h).2

/-- **The loop misses no run.** When blocknodes can be allocated and the loop finds nothing, every
aligned run behind the start of the list meets a used block. -/
theorem newBlockLoop_none (hn : 0 < n) : ∀ {b : ℕ} {i : PmfsBlocknode} {rest : List PmfsBlocknode},
    Canon b e (i :: rest) → newBlockLoop n e true c (i :: rest) = none → ∀ {a : ℕ}, n ∣ a →
      i.low ≤ a → a + n ≤ e → ∃ x ∈ run a n, x ∈ covered (i :: rest)
  | b, i, rest, hc, h, a, hd, hlow, hfit => by
    obtain ⟨h1, h2, h3, h4⟩ := canon_cons.mp hc
    by_cases hin : a ≤ i.high
    · exact ⟨a, by simp [hn], mem_covered_cons.mpr (Or.inl ⟨hlow, hin⟩)⟩
    have hmin := alignDown_add_le hd (not_le.mp hin)
    have hlt := lt_alignDown_add hn i.high
    simp only [newBlockLoop] at h
    set a0 := alignDown n (i.high + n) with ha0
    -- in every other branch the loop returns a run
    have hskip : a0 + n - 1 ≥ nextBlockLow e rest ∧ newBlockLoop n e true c rest = none := by
      cases rest with
      | nil => split_ifs at h with g <;> simp_all [nextBlockLow, newBlockLoop]; omega
      | cons j rest => split_ifs at h with g <;> simp_all [nextBlockLow]; omega
    cases rest with
    | nil =>
      simp only [nextBlockLow] at hskip
      omega
    | cons j rest =>
      simp only [nextBlockLow] at hskip
      obtain ⟨g1, g2, -, -⟩ := canon_cons.mp h4
      by_cases hj : j.low ≤ a
      · obtain ⟨x, hx, hx'⟩ := newBlockLoop_none hn h4 hskip.2 hd hj hfit
        exact ⟨x, hx, mem_covered_cons.mpr (Or.inr hx')⟩
      · refine ⟨j.low, by simp only [mem_run]; omega, ?_⟩
        exact mem_covered_cons.mpr (Or.inr (mem_covered_cons.mpr (Or.inl ⟨le_rfl, g2⟩)))

end Pmfs.Block.Alloc
