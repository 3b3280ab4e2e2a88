import Pmfs.Journal.Transaction

/-! # The cleaner stays inside the ring

`pmfs_process_transaction` advances an offset in the ring and a pointer to an entry side by side,
and only the offset wraps. The two part when a transaction before the end of the ring is open and
the tail lies in the next round: `scan_inside_iff` is the exact condition. The rounds of
`pmfs_clean_journal` are `cleanLoop_done`, `cleanLoop_skip`, `cleanLoop_ended` and `cleanLoop_open`.
-/

namespace Pmfs.Journal.Cleaner

open Journal.Model Journal.Transaction Lib.First Lib.Ring

variable {L M : Log} {c : Cleaning} {j : PmfsJournal} {g : UInt16} {N x t r k n o f e b : ℕ}

/-- A journal as `pmfs_journal_hard_init` sets it up: the size is a power of two, from 64K on, and
the head and the tail are at entries of the ring. -/
structure InRing (j : PmfsJournal) : Prop where
  size : ∃ k, 16 ≤ k ∧ k < 32 ∧ j.jsize = 2 ^ k
  head_lt : j.head < j.jsize
  head_dvd : 64 ∣ j.head
  tail_lt : j.tail < j.jsize
  tail_dvd : 64 ∣ j.tail

theorem InRing.slots (h : InRing j) : InSlots (j.jsize / 64) (j.head / 64) (j.tail / 64) j := by
  obtain ⟨k, h1, -, hk⟩ := h.size
  have hsize : 64 ∣ j.jsize := hk ▸ pow_dvd_pow 2 (show 6 ≤ k by omega)
  have hhead := h.head_lt
  have htail := h.tail_lt
  obtain ⟨a, ha⟩ := hsize
  obtain ⟨b, hb⟩ := h.head_dvd
  obtain ⟨d, hd⟩ := h.tail_dvd
  constructor <;> omega

/-! ### Entries that are wiped -/

theorem invalidateGenId_of_ne {o' : ℕ} (h : o' ≠ o) : invalidateGenId L o o' = L o' :=
  Function.update_of_ne h _ _

/-- Entries behind those that are invalidated stay. -/
theorem invalidate_of_le {o' : ℕ} : ∀ {n o : ℕ} {L : Log}, o + 64 * n ≤ o' →
    pmfsInvalidateLogentries n o L o' = L o'
  | 0, _, _, _ => rfl
  | n + 1, o, L, h => by
    rw [pmfsInvalidateLogentries, invalidate_of_le (by rw [LOGENTRY_SIZE]; omega),
      invalidateGenId_of_ne (by omega)]

theorem wiped_of_le {o' : ℕ} (h : o + 64 * n ≤ o') : wiped L g o n o' = L o' := by
  unfold wiped
  split_ifs
  · have hle : 64 * (n % 2 ^ 16) ≤ 64 * n := Nat.mul_le_mul_left 64 (Nat.mod_le n _)
    exact invalidate_of_le ((Nat.add_le_add_left hle o).trans h)
  · rfl

/-- The log behind a slot without a transaction. -/
def skipped (L : Log) (g : UInt16) (x : ℕ) : Log :=
  if (L (64 * x)).genId ≠ g ∧ g = MAX_GEN_ID then invalidateGenId L (64 * x) else L

theorem skipped_of_ne {i : ℕ} (h : i ≠ x) : skipped L g x (64 * i) = L (64 * i) := by
  unfold skipped
  split_ifs
  · exact invalidateGenId_of_ne (by omega)
  · rfl

/-! ### Rounds of the cleaner -/

/-- The cleaner after a round that has brought the head to slot `y`: the log, the number of entries
handled and the pairs examined. -/
def Cleaning.after (c : Cleaning) (L : Log) (n : ℕ) (l : List (ℕ × ℕ)) (y : ℕ) : Cleaning :=
  Cleaning.move { c with
    j := { c.j with log := L }
    total := c.total + n
    examined := c.examined ++ l } (64 * y)

section Rounds

variable (hj : InSlots N x t c.j)
include hj

theorem InSlots.after {l : List (ℕ × ℕ)} (hk : k < N) :
    InSlots N k t (Cleaning.after c L n l k).j :=
  ⟨hj.size, rfl, hj.tail, hk, hj.tail_lt⟩

theorem cleanLoop_done (hx : x = t) : cleanLoop (f + 1) c = some c := by
  rw [cleanLoop, if_pos (by rw [hj.head, hj.tail, hx])]

/-- An entry that starts no transaction of the generation. -/
theorem cleanLoop_skip (hx : x ≠ t) (h : ¬ Starts c.j.log c.genId (64 * x)) :
    ∃ l, (∀ p ∈ l, p = (64 * x, 64 * x)) ∧ cleanLoop (f + 1) c =
      cleanLoop f (Cleaning.after c (skipped c.j.log c.genId x) 0 l (ahead N x 1)) := by
  by_cases hgen : (c.j.log (64 * x)).genId = c.genId
  · have hne : ¬ 64 * next N x = 64 * x := by
      intro hcon
      have hgap := gap_next hj.head_lt hj.tail_lt hx
      rw [show next N x = x by omega] at hgap
      omega
    have hlog : skipped c.j.log c.genId x = c.j.log := by simp [skipped, hgen]
    refine ⟨[(64 * x, 64 * x)], by simp, ?_⟩
    rw [cleanLoop, process_unused hj (by rw [hj.head]; exact fun hs => h ⟨hgen, hs⟩)]
    dsimp only
    rw [hj.head, hj.tail, if_neg (by omega), if_pos hgen, if_neg hne, ahead_one hj.head_lt,
      ← hj.tail, hlog]
    rfl
  · have hlog : skipped c.j.log c.genId x =
        if c.genId = MAX_GEN_ID then invalidateGenId c.j.log (64 * x) else c.j.log := by
        simp [skipped, hgen]
    refine ⟨[], by simp, ?_⟩
    rw [cleanLoop, hj.head, hj.tail, if_neg (by omega), if_neg hgen, hj.size, nextLogEntry_slot,
      ahead_one hj.head_lt, hlog]
    unfold Cleaning.after
    rw [List.append_nil]
    rfl

theorem cleanLoop_ended (hx : x ≠ t) (h : Starts c.j.log c.genId (64 * x))
    (he : firstEnd c.j.log c.genId (64 * x) (gap N x t) = e)
    (hend : e < nextStart c.j.log c.genId (64 * x) (gap N x t)) :
    ∃ l, Examined N (64 * x) x (gap N x t) e l ∧ cleanLoop (f + 1) c = cleanLoop f (Cleaning.after c
      (wiped c.j.log c.genId (64 * x) (e + 1)) (e + 1) l (ahead N x (e + 1))) := by
  subst he
  obtain ⟨l, hl, hrun⟩ := process_started hj (by rwa [hj.head]) hx
  rw [if_pos hend] at hrun
  rw [Nat.min_eq_left hend.le] at hl
  have hpos : gap N x t ≠ 0 := fun h0 => hx ((gap_eq_zero_iff hj.head_lt).mp h0)
  have hle := hend.trans_le (nextStart_le (by omega))
  refine ⟨l, hl, ?_⟩
  rw [cleanLoop, hrun]
  generalize firstEnd c.j.log c.genId (64 * x) (gap N x t) = e at *
  have hne : ¬ 64 * ahead N x (e + 1) = 64 * x := by
    intro hcon
    have hgap := gap_ahead hj.head_lt hj.tail_lt hle
    rw [show ahead N x (e + 1) = x by omega] at hgap
    omega
  dsimp only
  rw [hj.head, hj.tail, if_neg (by omega), if_pos h.1, if_neg hne, ← hj.tail]
  rfl

theorem cleanLoop_open (hx : x ≠ t) (h : Starts c.j.log c.genId (64 * x))
    (hb : nextStart c.j.log c.genId (64 * x) (gap N x t) = b)
    (hend : b ≤ firstEnd c.j.log c.genId (64 * x) (gap N x t)) :
    ∃ l, Examined N (64 * x) x (gap N x t) b l ∧
      cleanLoop (f + 1) c = some { c with total := c.total + b, examined := c.examined ++ l } := by
  subst hb
  obtain ⟨l, hl, hrun⟩ := process_started hj (by rwa [hj.head]) hx
  rw [if_neg (by omega)] at hrun
  rw [Nat.min_eq_right hend] at hl
  refine ⟨l, hl, ?_⟩
  rw [cleanLoop, hrun]
  dsimp only
  rw [hj.head, hj.tail, if_neg (by omega), if_pos h.1, if_pos rfl, ← hj.head, ← hj.tail]

end Rounds

/-! ### Open transactions before the end of the ring -/

/-- The transaction that starts in slot `s` has its end before slot `h`, and no other one starts up
to there. -/
def ClosedBefore (L : Log) (g : UInt16) (h s : ℕ) : Prop :=
  ∃ e, s ≤ e ∧ e < h ∧ Ends L g (64 * e) ∧ ∀ i, s < i → i ≤ e → ¬ Starts L g (64 * i)

/-- From slot `x` on every transaction of the generation is closed before the next one, but for the
last one, which is open at the end of the ring. -/
def OpenAtEnd (L : Log) (g : UInt16) (N x : ℕ) : Prop :=
  ∃ h, x ≤ h ∧ h < N ∧ Starts L g (64 * h) ∧ (∀ i, h < i → i < N → ¬ Starts L g (64 * i)) ∧
    (∀ i, h ≤ i → i < N → ¬ Ends L g (64 * i)) ∧
    ∀ s, x ≤ s → s < h → Starts L g (64 * s) → ClosedBefore L g h s

theorem OpenAtEnd.congr (heq : ∀ i, x ≤ i → i < N → M (64 * i) = L (64 * i))
    (h : OpenAtEnd L g N x) :
    OpenAtEnd M g N x := by
  obtain ⟨h, h1, h2, hstart, hlast, hopen, hclosed⟩ := h
  have hS : ∀ i, x ≤ i → i < N → (Starts M g (64 * i) ↔ Starts L g (64 * i)) := by
    intro i hi hN
    unfold Starts
    rw [heq i hi hN]
  have hE : ∀ i, x ≤ i → i < N → (Ends M g (64 * i) ↔ Ends L g (64 * i)) := by
    intro i hi hN
    unfold Ends
    rw [heq i hi hN]
  refine ⟨h, h1, h2, (hS h h1 h2).mpr hstart, fun i hi hN => ?_, fun i hi hN => ?_,
    fun s hs hh hcon => ?_⟩
  · rw [hS i (by omega) hN]
    exact hlast i hi hN
  · rw [hE i (by omega) hN]
    exact hopen i hi hN
  · obtain ⟨e, he1, he2, hend, hbetween⟩ := hclosed s hs hh ((hS s hs (by omega)).mp hcon)
    refine ⟨e, he1, he2, (hE e (by omega) (by omega)).mpr hend, fun i hi hie => ?_⟩
    rw [hS i (by omega) (by omega)]
    exact hbetween i hi hie

theorem openAtEnd_congr (heq : ∀ i, x ≤ i → i < N → M (64 * i) = L (64 * i)) :
    OpenAtEnd M g N x ↔ OpenAtEnd L g N x :=
  ⟨OpenAtEnd.congr fun i h1 h2 => (heq i h1 h2).symm, OpenAtEnd.congr heq⟩

theorem not_openAtEnd_of_le (h : N ≤ x) : ¬ OpenAtEnd L g N x := by
  rintro ⟨h, h1, h2, -⟩
  omega

theorem openAtEnd_skip (h : ¬ Starts L g (64 * x)) : OpenAtEnd L g N x ↔
    OpenAtEnd L g N (x + 1) := by
  constructor
  · rintro ⟨a, h1, h2, hstart, hlast, hopen, hclosed⟩
    have hne : x ≠ a := by
      rintro rfl
      exact h hstart
    exact ⟨a, by omega, h2, hstart, hlast, hopen, fun s hs => hclosed s (by omega)⟩
  · rintro ⟨a, h1, h2, hstart, hlast, hopen, hclosed⟩
    refine ⟨a, by omega, h2, hstart, hlast, hopen, fun s hs hsa hcon => ?_⟩
    have hne : x ≠ s := by
      rintro rfl
      exact h hcon
    exact hclosed s (by omega) hsa hcon

/-- A transaction that ends in the ring is passed over. -/
theorem openAtEnd_ended {e : ℕ} (hend : Ends L g (64 * (x + e)))
    (hnone : ∀ i, 1 ≤ i → i ≤ e → ¬ Starts L g (64 * (x + i))) (hN : x + e < N) :
    OpenAtEnd L g N x ↔ OpenAtEnd L g N (x + e + 1) := by
  have hinside : ∀ i, x < i → i ≤ x + e → ¬ Starts L g (64 * i) := by
    intro i h1 h2
    have := hnone (i - x) (by omega) (by omega)
    rwa [show x + (i - x) = i by omega] at this
  constructor
  · rintro ⟨a, h1, h2, hstart, hlast, hopen, hclosed⟩
    have ha : x + e < a := by
      by_contra hcon
      exact hopen (x + e) (by omega) hN hend
    exact ⟨a, by omega, h2, hstart, hlast, hopen, fun s hs => hclosed s (by omega)⟩
  · rintro ⟨a, h1, h2, hstart, hlast, hopen, hclosed⟩
    refine ⟨a, by omega, h2, hstart, hlast, hopen, fun s hs hsa hcon => ?_⟩
    by_cases hse : s ≤ x + e
    · refine ⟨x + e, hse, by omega, hend, fun i hi => hinside i (by omega)⟩
    · exact hclosed s (by omega) hsa hcon

/-- An open transaction with another one behind it in the ring. -/
theorem not_openAtEnd_of_stuck {b : ℕ} (hs : Starts L g (64 * x)) (hb : 1 ≤ b)
    (hstart : Starts L g (64 * (x + b))) (hN : x + b < N)
    (hnone : ∀ i, i < b → ¬ Ends L g (64 * (x + i))) : ¬ OpenAtEnd L g N x := by
  rintro ⟨a, h1, h2, -, hlast, -, hclosed⟩
  rcases Nat.lt_or_ge x a with hxa | hxa
  · obtain ⟨e, he1, he2, hend, hbetween⟩ := hclosed x le_rfl hxa hs
    rcases Nat.lt_or_ge e (x + b) with heb | heb
    · have := hnone (e - x) (by omega)
      rw [show x + (e - x) = e by omega] at this
      exact this hend
    · exact hbetween (x + b) (by omega) heb hstart
  · exact hlast (x + b) (by omega) hN hstart

/-- An open transaction without any mark up to the end of the ring. -/
theorem openAtEnd_here (hs : Starts L g (64 * x)) (hN : x < N)
    (hstart : ∀ i, 1 ≤ i → x + i < N → ¬ Starts L g (64 * (x + i)))
    (hend : ∀ i, x + i < N → ¬ Ends L g (64 * (x + i))) : OpenAtEnd L g N x := by
  refine ⟨x, le_rfl, hN, hs, fun i h1 h2 => ?_, fun i h1 h2 => ?_, fun s h1 h2 => by omega⟩
  · have := hstart (i - x) (by omega) (by omega)
    rwa [show x + (i - x) = i by omega] at this
  · have := hend (i - x) (by omega)
    rwa [show x + (i - x) = i by omega] at this

/-! ### The condition -/

/-- The pair is for one entry of the ring. -/
def Inside (jsize : ℕ) (p : ℕ × ℕ) : Prop := p.1 < jsize ∧ p.1 = p.2

/-- The tail is in the next round, behind its first slot, and there is an open transaction at the
end of this round. -/
def Passes (L : Log) (g : UInt16) (N t x : ℕ) : Prop := 0 < t ∧ t < x ∧ OpenAtEnd L g N x

theorem examined_inside {l : List (ℕ × ℕ)} {e : ℕ} (hl : Examined N (64 * x) x r e l) :
    (∀ p ∈ l, Inside (64 * N) p) ↔ ∀ i, i ≤ e → i < r → x + i < N := by
  constructor
  · intro h i hi hr
    have hp := (h _ ((hl _).mpr ⟨i, hi, hr, rfl⟩)).1
    omega
  · intro h p hp
    obtain ⟨i, hi, hr, rfl⟩ := (hl p).mp hp
    have hlt := h i hi hr
    refine ⟨by dsimp only; omega, ?_⟩
    rw [ahead, if_pos hlt, Nat.mul_add]

/-- The head moves on inside the ring, over entries that do not matter for the end of it. -/
theorem passes_move (hk : 1 ≤ k) (hgap : k ≤ gap N x t) (hN : x + k ≤ N)
    (hopen : OpenAtEnd L g N x ↔ OpenAtEnd L g N (x + k))
    (hlog : ∀ i, x + k ≤ i → i < N → M (64 * i) = L (64 * i)) :
    Passes M (if 64 * ahead N x k = 0 then nextGenId g else g) N t (ahead N x k) ↔
    Passes L g N t x := by
  unfold Passes
  rcases Nat.lt_or_ge (x + k) N with hlt | hge
  · have htail : t < x + k ↔ t < x := by
      unfold gap at hgap
      split_ifs at hgap <;> omega
    rw [ahead, if_pos hlt, if_neg (by omega), htail, openAtEnd_congr hlog, ← hopen]
  · have hno : ¬ OpenAtEnd L g N x := fun h => not_openAtEnd_of_le hge (hopen.mp h)
    rw [ahead, if_neg (by omega), show x + k - N = 0 by omega]
    constructor
    · rintro ⟨-, h, -⟩
      omega
    · rintro ⟨-, -, h⟩
      exact absurd h hno

section Steps

variable {l : List (ℕ × ℕ)} (hN : x < N) (ht : t < N) (hx : x ≠ t) (hs : Starts L g (64 * x))
include hN ht hx hs

/-- A transaction that ends: what is examined stays inside unless the cleaner passes the end of the
ring. -/
theorem ended_inside (he : firstEnd L g (64 * x) (gap N x t) = e)
    (hend : e < nextStart L g (64 * x) (gap N x t)) (hl : Examined N (64 * x) x (gap N x t) e l) :
    ((∀ p ∈ l, Inside (64 * N) p) ∧ (Passes (wiped L g (64 * x) (e + 1))
        (if 64 * ahead N x (e + 1) = 0 then nextGenId g else g) N t (ahead N x (e + 1)) ↔
        Passes L g N t x)) ∨
    (¬ (∀ p ∈ l, Inside (64 * N) p) ∧ Passes L g N t x) := by
  have hpos : gap N x t ≠ 0 := fun h0 => hx ((gap_eq_zero_iff hN).mp h0)
  have hgap : e + 1 ≤ gap N x t := hend.trans_le (nextStart_le (by omega))
  have hnone : ∀ i, 1 ≤ i → i ≤ e → ¬ Starts L g (64 * (x + i)) := fun i h1 h2 =>
    not_starts_of_lt h1 (h2.trans_lt hend)
  rw [examined_inside hl]
  rcases Nat.lt_or_ge (x + e) N with hlt | hge
  · left
    refine ⟨fun i hi _ => by omega, passes_move (by omega) hgap hlt ?_ fun i h1 _ =>
      wiped_of_le (by omega)⟩
    exact openAtEnd_ended (he ▸ firstEnd_ends (by omega)) hnone hlt
  · right
    have htail : 0 < t ∧ t < x := by
      unfold gap at hgap
      split_ifs at hgap <;> omega
    refine ⟨fun hcon => ?_, htail.1, htail.2, openAtEnd_here hs hN ?_ ?_⟩
    · exact absurd (hcon e le_rfl (by omega)) (by omega)
    · exact fun i h1 h2 => hnone i h1 (by omega)
    · exact fun i h => not_ends_of_lt (show i < firstEnd L g (64 * x) (gap N x t) by omega)

/-- An open transaction: what is examined stays inside unless the cleaner passes the end of the
ring. -/
theorem open_inside (hb : nextStart L g (64 * x) (gap N x t) = b)
    (hend : b ≤ firstEnd L g (64 * x) (gap N x t)) (hl : Examined N (64 * x) x (gap N x t) b l) :
    (∀ p ∈ l, Inside (64 * N) p) ↔ ¬ Passes L g N t x := by
  have hpos : gap N x t ≠ 0 := fun h0 => hx ((gap_eq_zero_iff hN).mp h0)
  have hone : 1 ≤ b := hb ▸ one_le_nextStart (by omega)
  have hbefore : ∀ i, i < b → ¬ Ends L g (64 * (x + i)) :=
    fun i h => not_ends_of_lt (h.trans_le hend)
  rw [examined_inside hl]
  constructor
  · rintro hin ⟨h0, htx, hopen⟩
    have hgap : gap N x t = N - x + t := by rw [gap, if_neg (by omega)]
    have hbN : x + b < N := by
      by_contra hcon
      exact absurd (hin (N - x) (by omega) (by omega)) (by omega)
    exact not_openAtEnd_of_stuck hs hone (hb ▸ nextStart_starts (by omega) (by omega))
      hbN hbefore hopen
  · intro hno i hi hr
    by_contra hcon
    have htail : 0 < t ∧ t < x := by
      unfold gap at hr
      split_ifs at hr <;> omega
    refine hno ⟨htail.1, htail.2, openAtEnd_here hs hN ?_ ?_⟩
    · exact fun i h1 h2 =>
        not_starts_of_lt h1 (show i < nextStart L g (64 * x) (gap N x t) by omega)
    · exact fun i h => hbefore i (by omega)

end Steps

theorem forall_append {l l' : List (ℕ × ℕ)} {P : ℕ × ℕ → Prop} :
    (∀ p ∈ l ++ l', P p) ↔ (∀ p ∈ l, P p) ∧ ∀ p ∈ l', P p := by
  simp only [List.mem_append, or_imp, forall_and]

/-- The cleaner ends, and all that is examined is inside exactly if it does not pass the end of the
ring in an open transaction. -/
theorem cleanLoop_inside : ∀ {f x : ℕ} {c : Cleaning}, InSlots N x t c.j → gap N x t < f →
    ∃ c', cleanLoop f c = some c' ∧ ((∀ p ∈ c'.examined, Inside (64 * N) p) ↔
      (∀ p ∈ c.examined, Inside (64 * N) p) ∧ ¬ Passes c.j.log c.genId N t x)
  | 0, x, c, _, hfuel => by omega
  | f + 1, x, c, hj, hfuel => by
    by_cases hx : x = t
    · refine ⟨c, cleanLoop_done hj hx, ?_⟩
      have hno : ¬ Passes c.j.log c.genId N t x := by
        rintro ⟨-, h, -⟩
        omega
      simp [hno]
    have hpos : gap N x t ≠ 0 := fun h0 => hx ((gap_eq_zero_iff hj.head_lt).mp h0)
    have hlt := gap_le hj.head_lt hj.tail_lt
    -- what a round that moves the head gives, by the induction hypothesis
    have hmoved : ∀ {k n : ℕ} {L : Log} {l : List (ℕ × ℕ)}, 1 ≤ k → k ≤ gap N x t →
        cleanLoop (f + 1) c = cleanLoop f (Cleaning.after c L n l (ahead N x k)) →
        ∃ c', cleanLoop (f + 1) c = some c' ∧ ((∀ p ∈ c'.examined, Inside (64 * N) p) ↔
          ((∀ p ∈ c.examined, Inside (64 * N) p) ∧ ∀ p ∈ l, Inside (64 * N) p) ∧
          ¬ Passes L (if 64 * ahead N x k = 0 then nextGenId c.genId else c.genId) N
          t (ahead N x k)) := by
      intro k n L l h1 h2 hrun
      rw [hrun]
      obtain ⟨c', hc', hiff⟩ := cleanLoop_inside (f := f)
        (InSlots.after (L := L) (n := n) (l := l) hj (ahead_lt hj.head_lt (show k ≤ N by omega)))
        (by rw [gap_ahead hj.head_lt hj.tail_lt h2]; omega)
      exact ⟨c', hc', hiff.trans (by rw [← forall_append]; rfl)⟩
    by_cases hs : Starts c.j.log c.genId (64 * x)
    · rcases Nat.lt_or_ge (firstEnd c.j.log c.genId (64 * x) (gap N x t))
          (nextStart c.j.log c.genId (64 * x) (gap N x t)) with hend | hend
      · -- the transaction has ended
        obtain ⟨l, hl, hrun⟩ := cleanLoop_ended (f := f) hj hx hs rfl hend
        have hstep := ended_inside hj.head_lt hj.tail_lt hx hs rfl hend hl
        obtain ⟨c', hc', hiff⟩ := hmoved (by omega) (hend.trans_le (nextStart_le (by omega))) hrun
        refine ⟨c', hc', hiff.trans ?_⟩
        tauto
      · -- the transaction is open
        obtain ⟨l, hl, hrun⟩ := cleanLoop_open (f := f) hj hx hs rfl hend
        refine ⟨_, hrun, ?_⟩
        rw [forall_append, open_inside hj.head_lt hj.tail_lt hx hs rfl hend hl]
    · obtain ⟨l, hl, hrun⟩ := cleanLoop_skip (f := f) hj hx hs
      have hmove := passes_move le_rfl (show 1 ≤ gap N x t by omega) hj.head_lt (openAtEnd_skip hs)
        fun i h1 _ =>
        skipped_of_ne (g := c.genId) (show i ≠ x by omega)
      have hin : ∀ p ∈ l, Inside (64 * N) p := fun p hp =>
        hl p hp ▸ ⟨Nat.mul_lt_mul_of_pos_left hj.head_lt (by decide), rfl⟩
      obtain ⟨c', hc', hiff⟩ := hmoved le_rfl (by omega) hrun
      refine ⟨c', hc', hiff.trans ?_⟩
      rw [hmove, and_iff_left hin]

/-! ### The result -/

/-- The tail has wrapped and is not at the start of the ring, and a transaction that the cleaner
comes to is open at the end of the ring. -/
def Overruns (j : PmfsJournal) : Prop :=
  0 < j.tail ∧ j.tail < j.head ∧
    OpenAtEnd j.log (prevGenId j.genId) (j.jsize / LOGENTRY_SIZE) (j.head / LOGENTRY_SIZE)

/-- **Main result.** The cleaner ends, and every entry that `pmfs_process_transaction` examines for
it is in the ring and the one that it stands for, exactly when there is no open transaction at the
end of the ring with the tail behind it. -/
theorem scan_inside_iff (hj : InRing j) : ∃ j' total examined, pmfsCleanJournal j =
    some (j', total, examined) ∧ ((∀ p ∈ examined, p.1 < j.jsize ∧ p.1 = p.2) ↔ ¬ Overruns j) := by
  have hslots := hj.slots
  have hlt := gap_le hslots.head_lt hslots.tail_lt
  obtain ⟨c, hc, hiff⟩ := cleanLoop_inside (f := j.jsize / LOGENTRY_SIZE + 1)
    (c := ⟨j, if j.tail < j.head then prevGenId j.genId else j.genId, 0, []⟩) hslots
    (by rw [LOGENTRY_SIZE]; omega)
  refine ⟨c.j, c.total, c.examined, by rw [pmfsCleanJournal, hc]; rfl, ?_⟩
  have hsize := hslots.size
  have hhead := hslots.head
  have htail := hslots.tail
  rw [← hsize] at hiff
  refine hiff.trans ?_
  simp only [List.not_mem_nil, false_imp_iff, implies_true, true_and, not_iff_not]
  constructor
  · rintro ⟨h0, hlt, hopen⟩
    rw [if_pos (by omega)] at hopen
    exact ⟨by omega, by omega, hopen⟩
  · rintro ⟨h0, hlt, hopen⟩
    rw [if_pos hlt]
    exact ⟨by omega, by omega, hopen⟩

/-- An entry that has never been written. -/
def blankEntry : LogEntry := ⟨0, 0, 0, 0, 0, Vector.replicate 48 0⟩

/-- A journal of 64K with one START entry, in the last slot and of the generation 1, in the round
after it. -/
def wrappedJournal (tail : ℕ) : PmfsJournal where
  jsize := 65536
  head := 65472
  tail := tail
  genId := 2
  redoLog := false
  nextTransactionId := 0
  log o := if o = 65472 then { blankEntry with genId := 1, type := 1 } else blankEntry
  mem _ := 0

theorem scan_inside_iff_wrapped : InRing (wrappedJournal 0) ∧
    ∃ j' total examined, pmfsCleanJournal (wrappedJournal 0) = some (j', total, examined) ∧
      ((∀ p ∈ examined, p.1 < 65536 ∧ p.1 = p.2) ↔ ¬ Overruns (wrappedJournal 0)) := by
  have hring : InRing (wrappedJournal 0) :=
    ⟨⟨16, by decide, by decide, rfl⟩, by decide, by decide, by decide, by decide⟩
  exact ⟨hring, scan_inside_iff hring⟩

/-- With the tail in slot 1, the entry behind the end of the ring is examined for that in slot 0. -/
theorem wrapped_scan_leaves_ring : InRing (wrappedJournal 64) ∧
    (pmfsCleanJournal (wrappedJournal 64)).map (fun r => r.2.2) =
      some [(65472, 65472), (65536, 0), (65536, 0)] := by
  refine ⟨⟨⟨16, by decide, by decide, rfl⟩, by decide, by decide, by decide, by decide⟩, ?_⟩
  decide +kernel

end Pmfs.Journal.Cleaner
