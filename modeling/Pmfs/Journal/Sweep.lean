import Pmfs.Journal.Cleaner

/-! # One pass of the cleaner

`pass` says what a pass of `pmfs_clean_journal` does to the ring: by how many slots the head moves,
how many entries are reported, and what becomes of the log. The two numbers differ: slots without a
transaction are passed over and not reported, and the entries of the open transaction that stops the
cleaner are reported although the head stays before them. `sweep_eq` connects it with the code. -/

namespace Pmfs.Journal.Sweep

open Journal.Model Journal.Transaction Journal.Cleaner Lib.Ring

variable {L : Log} {c : Cleaning} {j : PmfsJournal} {g : UInt16} {N x t k n f : ℕ}

/-- What a pass leaves. -/
structure Pass where
  moved : ℕ
  reported : ℕ
  log : Log

/-- A pass that begins with `k` more slots, of which `n` are reported. -/
def Pass.add (k n : ℕ) (p : Pass) : Pass := ⟨k + p.moved, n + p.reported, p.log⟩

/-- The generation of the slots from `y` on. -/
def turn (g : UInt16) (y : ℕ) : UInt16 := if y = 0 then nextGenId g else g

/-- A pass from slot `x` to the tail in slot `t`. -/
noncomputable def pass (N t : ℕ) : ℕ → ℕ → UInt16 → Log → Pass
  | 0, _, _, L => ⟨0, 0, L⟩
  | f + 1, x, g, L =>
    if x = t then ⟨0, 0, L⟩
    else if Starts L g (64 * x) then
      let e := firstEnd L g (64 * x) (gap N x t)
      let b := nextStart L g (64 * x) (gap N x t)
      if e < b then
        (pass N t f (ahead N x (e + 1)) (turn g (ahead N x (e + 1)))
          (wiped L g (64 * x) (e + 1))).add (e + 1) (e + 1)
      else ⟨0, b, L⟩
    else (pass N t f (ahead N x 1) (turn g (ahead N x 1)) (skipped L g x)).add 1 0

/-- A pass over the journal, with the generation that `pmfs_clean_journal` begins with. -/
noncomputable def passOf (j : PmfsJournal) : Pass :=
  pass (j.jsize / 64) (j.tail / 64) (j.jsize / 64 + 1) (j.head / 64)
    (if j.tail < j.head then prevGenId j.genId else j.genId) j.log

/-- The journal after a pass. -/
noncomputable def swept (j : PmfsJournal) : PmfsJournal :=
  { j with head := 64 * ahead (j.jsize / 64) (j.head / 64) (passOf j).moved, log := (passOf j).log }

/-! ### The steps of a pass -/

theorem pass_done (f : ℕ) : pass N t f t g L = ⟨0, 0, L⟩ := by
  rcases f with _ | f
  · rfl
  · rw [pass, if_pos rfl]

theorem pass_skip (hx : x ≠ t) (h : ¬ Starts L g (64 * x)) :
    pass N t (f + 1) x g L =
    (pass N t f (ahead N x 1) (turn g (ahead N x 1)) (skipped L g x)).add 1 0 := by
  rw [pass, if_neg hx, if_neg h]

theorem pass_ended (hx : x ≠ t) (h : Starts L g (64 * x))
    (hend : firstEnd L g (64 * x) (gap N x t) < nextStart L g (64 * x) (gap N x t)) :
    pass N t (f + 1) x g L =
      (pass N t f (ahead N x (firstEnd L g (64 * x) (gap N x t) + 1))
        (turn g (ahead N x (firstEnd L g (64 * x) (gap N x t) + 1)))
        (wiped L g (64 * x) (firstEnd L g (64 * x) (gap N x t) + 1))).add
        (firstEnd L g (64 * x) (gap N x t) + 1) (firstEnd L g (64 * x) (gap N x t) + 1) := by
  rw [pass, if_neg hx, if_pos h]
  exact if_pos hend

theorem pass_open (hx : x ≠ t) (h : Starts L g (64 * x))
    (hend : nextStart L g (64 * x) (gap N x t) ≤ firstEnd L g (64 * x) (gap N x t)) :
    pass N t (f + 1) x g L = ⟨0, nextStart L g (64 * x) (gap N x t), L⟩ := by
  rw [pass, if_neg hx, if_pos h]
  exact if_neg (not_lt.mpr hend)

/-- How a pass goes on from a slot before the tail: the head moves, or an open transaction stops it.
-/
theorem pass_cases (hx : x < N) (hne : x ≠ t) :
    (∃ k n M, 1 ≤ k ∧ k ≤ gap N x t ∧ n ≤ k ∧ ∀ f,
      pass N t (f + 1) x g L = (pass N t f (ahead N x k) (turn g (ahead N x k)) M).add k n) ∨
    (Starts L g (64 * x) ∧ ∃ n, n ≤ gap N x t ∧ ∀ f, pass N t (f + 1) x g L = ⟨0, n, L⟩) := by
  have hpos : gap N x t ≠ 0 := fun h0 => hne ((gap_eq_zero_iff hx).mp h0)
  have hle := nextStart_le (L := L) (g := g) (o := 64 * x) (r := gap N x t) (by omega)
  by_cases h : Starts L g (64 * x)
  · by_cases hend : firstEnd L g (64 * x) (gap N x t) < nextStart L g (64 * x) (gap N x t)
    · exact Or.inl ⟨_, _, _, by omega, by omega, le_rfl, fun f => pass_ended hne h hend⟩
    · exact Or.inr ⟨h, _, hle, fun f => pass_open hne h (not_lt.mp hend)⟩
  · exact Or.inl ⟨1, 0, _, le_rfl, by omega, by omega, fun f => pass_skip hne h⟩

theorem pass_le (hx : x < N) (ht : t < N) : (pass N t f x g L).moved ≤ gap N x t := by
  induction f generalizing x g L with
  | zero => exact Nat.zero_le _
  | succ f ih =>
    by_cases hne : x = t
    · rw [hne, pass_done]
      exact Nat.zero_le _
    have hlt := gap_le hx ht
    rcases pass_cases hx hne with ⟨k, n, M, h1, h2, -, h⟩ | ⟨-, n, -, h⟩
    · have hrest := ih (g := turn g (ahead N x k)) (L := M) (ahead_lt hx (show k ≤ N by omega))
      rw [gap_ahead hx ht h2] at hrest
      rw [h]
      dsimp only [Pass.add]
      omega
    · rw [h]
      exact Nat.zero_le _

/-! ### The code -/

theorem after_genId {l : List (ℕ × ℕ)} : (Cleaning.after c L n l k).genId = turn c.genId k := by
  unfold Cleaning.after Cleaning.move turn
  by_cases hk : k = 0
  · rw [if_pos hk, if_pos (by omega)]
  · rw [if_neg hk, if_neg (by omega)]

theorem cleanLoop_pass : ∀ {f x : ℕ} {c : Cleaning}, InSlots N x t c.j → gap N x t < f →
    ∃ g' l, cleanLoop f c = some
      ⟨{ c.j with head := 64 * ahead N x (pass N t f x c.genId c.j.log).moved
                  log := (pass N t f x c.genId c.j.log).log },
        g', c.total + (pass N t f x c.genId c.j.log).reported, l⟩
  | 0, x, c, _, hf => by omega
  | f + 1, x, c, hj, hf => by
    have hlt := gap_le hj.head_lt hj.tail_lt
    by_cases hx : x = t
    · refine ⟨c.genId, c.examined, ?_⟩
      rw [cleanLoop_done hj hx, hx, pass_done, ahead_zero hj.tail_lt, ← hx, ← hj.head]
      rfl
    have hpos : gap N x t ≠ 0 := fun h0 => hx ((gap_eq_zero_iff hj.head_lt).mp h0)
    -- what a round that moves the head gives, by the induction hypothesis
    have hmoved : ∀ {k n : ℕ} {M : Log} {l : List (ℕ × ℕ)}, 1 ≤ k → k ≤ gap N x t →
        cleanLoop (f + 1) c = cleanLoop f (Cleaning.after c M n l (ahead N x k)) →
        pass N t (f + 1) x c.genId c.j.log =
          (pass N t f (ahead N x k) (turn c.genId (ahead N x k)) M).add k n →
        ∃ g' l, cleanLoop (f + 1) c = some
          ⟨{ c.j with head := 64 * ahead N x (pass N t (f + 1) x c.genId c.j.log).moved
                      log := (pass N t (f + 1) x c.genId c.j.log).log },
            g', c.total + (pass N t (f + 1) x c.genId c.j.log).reported, l⟩ := by
      intro k n M l h1 h2 hrun hpass
      have hk := ahead_lt hj.head_lt (show k ≤ N by omega)
      obtain ⟨g', l', hrest⟩ :=
        cleanLoop_pass (f := f) (InSlots.after (L := M) (n := n) (l := l) hj hk)
          (by rw [gap_ahead hj.head_lt hj.tail_lt h2]; omega)
      have hle := pass_le (f := f) (g := turn c.genId (ahead N x k)) (L := M) hk hj.tail_lt
      rw [gap_ahead hj.head_lt hj.tail_lt h2] at hle
      refine ⟨g', l', ?_⟩
      rw [hrun, hrest, after_genId, hpass]
      dsimp only [Pass.add, Cleaning.after, Cleaning.move]
      rw [ahead_ahead hj.head_lt (by omega), Nat.add_assoc c.total]
    by_cases hs : Starts c.j.log c.genId (64 * x)
    · rcases Nat.lt_or_ge (firstEnd c.j.log c.genId (64 * x) (gap N x t))
          (nextStart c.j.log c.genId (64 * x) (gap N x t)) with hend | hend
      · obtain ⟨l, -, hrun⟩ := cleanLoop_ended (f := f) hj hx hs rfl hend
        exact hmoved (by omega) (hend.trans_le (nextStart_le (by omega))) hrun
          (pass_ended hx hs hend)
      · obtain ⟨l, -, hrun⟩ := cleanLoop_open (f := f) hj hx hs rfl hend
        refine ⟨c.genId, c.examined ++ l, ?_⟩
        rw [hrun, pass_open hx hs hend, ahead_zero hj.head_lt, ← hj.head]
    · obtain ⟨l, -, hrun⟩ := cleanLoop_skip hj hx hs
      exact hmoved le_rfl (by omega) hrun (pass_skip hx hs)

theorem sweep_eq (hj : InRing j) :
    ∃ l, pmfsCleanJournal j = some (swept j, (passOf j).reported, l) := by
  have hslots := hj.slots
  have hlt := gap_le hslots.head_lt hslots.tail_lt
  obtain ⟨g', l, hrun⟩ := cleanLoop_pass (f := j.jsize / 64 + 1)
    (c := ⟨j, if j.tail < j.head then prevGenId j.genId else j.genId, 0, []⟩) hslots (by omega)
  refine ⟨l, ?_⟩
  rw [pmfsCleanJournal]
  dsimp only [LOGENTRY_SIZE]
  rw [hrun, Option.map_some]
  rw [Nat.zero_add]
  rfl

theorem inRing_swept (hj : InRing j) : InRing (swept j) := by
  have hslots := hj.slots
  have hlt := gap_le hslots.head_lt hslots.tail_lt
  have hle : (passOf j).moved ≤ gap (j.jsize / 64) (j.head / 64) (j.tail / 64) :=
    pass_le hslots.head_lt hslots.tail_lt
  have hhead := ahead_lt hslots.head_lt (show (passOf j).moved ≤ j.jsize / 64 by omega)
  have hsize := hslots.size
  refine ⟨hj.size, ?_, Dvd.intro _ rfl, hj.tail_lt, hj.tail_dvd⟩
  show 64 * ahead (j.jsize / 64) (j.head / 64) (passOf j).moved < j.jsize
  omega

end Pmfs.Journal.Sweep
