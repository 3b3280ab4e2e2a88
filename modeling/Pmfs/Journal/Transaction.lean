import Pmfs.Journal.Model
import Pmfs.Lib.First
import Pmfs.Lib.Ring

/-! # One transaction in the log

`pmfs_process_transaction` follows the log entries behind a START entry. It compares two of them:
the first one that ends the transaction, and the first one that starts another. `process_closed` and
`process_open` give what it returns, and which entries it has examined. Slots of the ring stand for
offsets: the entry in slot `x` is at `64 * x`. -/

namespace Pmfs.Journal.Transaction

open Journal.Model Lib.First Lib.Ring

variable {L : Log} {j : PmfsJournal} {g : UInt16} {N x t y r n o s f : ℕ}

/-! ### Marks -/

/-- The entry at `o` starts a transaction of the generation. -/
def Starts (L : Log) (g : UInt16) (o : ℕ) : Prop := (L o).genId = g ∧ (L o).isStart

/-- The entry at `o` ends a transaction of the generation. -/
def Ends (L : Log) (g : UInt16) (o : ℕ) : Prop := (L o).genId = g ∧ ((L o).isCommit ∨ (L o).isAbort)

instance (L : Log) (g : UInt16) (o : ℕ) : Decidable (Starts L g o) :=
  inferInstanceAs (Decidable (_ ∧ _))

instance (L : Log) (g : UInt16) (o : ℕ) : Decidable (Ends L g o) :=
  inferInstanceAs (Decidable (_ ∧ _))

/-- Which of the `r` entries from `o` on is the first to end a transaction; `r` if there is none. -/
noncomputable def firstEnd (L : Log) (g : UInt16) (o r : ℕ) : ℕ :=
  first (fun i => Ends L g (o + 64 * i)) 0 r

/-- Which of the `r` entries from `o` on, but for that at `o`, is the first to start a transaction;
`r` if there is none. -/
noncomputable def nextStart (L : Log) (g : UInt16) (o r : ℕ) : ℕ :=
  first (fun i => Starts L g (o + 64 * i)) 1 r

theorem nextStart_le (hr : 1 ≤ r) : nextStart L g o r ≤ r := first_le hr

theorem one_le_nextStart (hr : 1 ≤ r) : 1 ≤ nextStart L g o r := le_first hr

theorem firstEnd_of_ends (h : Ends L g o) : firstEnd L g o (r + 1) = 0 :=
  first_of_holds (Nat.succ_pos r) h

theorem firstEnd_succ (h : ¬ Ends L g o) :
    firstEnd L g o (r + 1) = firstEnd L g (o + 64) r + 1 := by
  unfold firstEnd
  rw [first_append (Nat.zero_le 1) (Nat.le_add_left 1 r)]
  have hone : first (fun i => Ends L g (o + 64 * i)) 0 1 = 1 := by
    refine (first_eq_end_iff (Nat.zero_le 1)).mpr fun n _ hn => ?_
    obtain rfl : n = 0 := by omega
    exact h
  rw [hone, if_neg (lt_irrefl 1), Nat.add_comm r 1, Nat.add_comm _ 1]
  refine first_shift (Nat.zero_le r) fun n _ _ => ?_
  rw [show o + 64 * (1 + n) = o + 64 + 64 * n by omega]

@[simp] theorem nextStart_one : nextStart L g o 1 = 1 := first_self

theorem nextStart_of_starts (h : Starts L g (o + 64)) : nextStart L g o (r + 2) = 1 :=
  first_of_holds (by omega) h

theorem nextStart_succ (h : ¬ Starts L g (o + 64)) :
    nextStart L g o (r + 2) = nextStart L g (o + 64) (r + 1) + 1 := by
  unfold nextStart
  rw [first_append (c := 2) (by omega) (by omega)]
  have hone : first (fun i => Starts L g (o + 64 * i)) 1 2 = 2 := by
    refine (first_eq_end_iff (by omega)).mpr fun n h1 h2 => ?_
    obtain rfl : n = 1 := by omega
    exact h
  have hshift : first (fun i => Starts L g (o + 64 * i)) (1 + 1) (1 + (r + 1)) =
      1 + first (fun i => Starts L g (o + 64 + 64 * i)) 1 (r + 1) := by
    refine first_shift (Nat.le_add_left 1 r) fun n _ _ => ?_
    rw [show o + 64 * (1 + n) = o + 64 + 64 * n by omega]
  rw [hone, if_neg (lt_irrefl 2), show r + 2 = 1 + (r + 1) by omega]
  exact hshift.trans (Nat.add_comm 1 _)

theorem firstEnd_ends (h : firstEnd L g (64 * x) r < r) :
    Ends L g (64 * (x + firstEnd L g (64 * x) r)) := by
  rw [Nat.mul_add]
  exact first_holds (Nat.zero_le r) h

theorem not_ends_of_lt {i : ℕ} (h : i < firstEnd L g (64 * x) r) : ¬ Ends L g (64 * (x + i)) := by
  rw [Nat.mul_add]
  exact not_of_lt_first (P := fun i => Ends L g (64 * x + 64 * i)) (Nat.zero_le i) h

theorem nextStart_starts (hr : 1 ≤ r) (h : nextStart L g (64 * x) r < r) :
    Starts L g (64 * (x + nextStart L g (64 * x) r)) := by
  rw [Nat.mul_add]
  exact first_holds hr h

theorem not_starts_of_lt {i : ℕ} (hi : 1 ≤ i) (h : i < nextStart L g (64 * x) r) :
    ¬ Starts L g (64 * (x + i)) := by
  rw [Nat.mul_add]
  exact not_of_lt_first (P := fun i => Starts L g (64 * x + 64 * i)) hi h

/-! ### The loop -/

theorem nextLogEntry_slot : nextLogEntry (64 * N) (64 * x) = 64 * next N x := by
  unfold nextLogEntry next LOGENTRY_SIZE
  split_ifs <;> omega

/-- Without `recover`, `pmfs_redo_transaction` changes nothing. -/
theorem redo_flushes {mem : Mem} : ∀ {n o : ℕ}, pmfsRedoTransaction L g false n o mem = some mem
  | 0, _ => rfl
  | n + 1, o => by
    rw [pmfsRedoTransaction, if_neg (by simp)]
    exact redo_flushes

/-- The entries of `n` slots lose their generation if it is the last one. -/
def wiped (L : Log) (g : UInt16) (s n : ℕ) : Log :=
  if g = MAX_GEN_ID then pmfsInvalidateLogentries (n % 2 ^ 16) s L else L

/-- The journal has `N` slots, its head is at slot `x` and its tail at `t`. -/
structure InSlots (N x t : ℕ) (j : PmfsJournal) : Prop where
  size : j.jsize = 64 * N
  head : j.head = 64 * x
  tail : j.tail = 64 * t
  head_lt : x < N
  tail_lt : t < N

/-- The pairs that the loop has examined, when it has come to the entry with the number `e` of the
`r` up to the tail. -/
def Examined (N o y r e : ℕ) (l : List (ℕ × ℕ)) : Prop :=
  ∀ p, p ∈ l ↔ ∃ i, i ≤ e ∧ i < r ∧ p = (o + 64 * i, 64 * ahead N y i)

theorem examined_one (hy : y < N) (hr : 1 ≤ r) : Examined N o y r 0 [(o, 64 * y)] := by
  intro p
  simp only [List.mem_singleton]
  constructor
  · intro h
    exact ⟨0, le_rfl, hr, by rw [h, ahead_zero hy]; rfl⟩
  · rintro ⟨i, hi, -, rfl⟩
    obtain rfl : i = 0 := by omega
    rw [ahead_zero hy]
    rfl

theorem examined_last (hy : y < N) : Examined N o y 1 1 [(o, 64 * y)] := by
  intro p
  rw [examined_one hy le_rfl p]
  constructor
  · rintro ⟨i, h1, h2, hp⟩
    exact ⟨i, by omega, h2, hp⟩
  · rintro ⟨i, h1, h2, hp⟩
    exact ⟨i, by omega, h2, hp⟩

theorem examined_cons {l : List (ℕ × ℕ)} {e : ℕ} (hy : y < N) (hr : r + 1 ≤ N) (hpos : 1 ≤ r)
    (h : Examined N (o + 64) (next N y) r e l) :
    Examined N o y (r + 1) (e + 1) ((o, 64 * y) :: (o + 64, 64 * next N y) :: l) := by
  have hshift : ∀ i, i < r → (o + 64 + 64 * i, 64 * ahead N (next N y) i) =
      (o + 64 * (i + 1), 64 * ahead N y (i + 1)) := by
    intro i hi
    rw [ahead_next hy (by omega), show o + 64 + 64 * i = o + 64 * (i + 1) by omega]
  intro p
  simp only [List.mem_cons]
  rw [h p]
  constructor
  · rintro (rfl | rfl | ⟨i, h1, h2, rfl⟩)
    · exact ⟨0, by omega, by omega, by rw [ahead_zero hy]; rfl⟩
    · exact ⟨1, by omega, by omega, by rw [ahead_one hy]⟩
    · exact ⟨i + 1, by omega, by omega, hshift i h2⟩
  · rintro ⟨i, h1, h2, rfl⟩
    rcases i with _ | i
    · left
      rw [ahead_zero hy]
      rfl
    · right
      right
      exact ⟨i, by omega, by omega, (hshift i (by omega)).symm⟩

theorem examined_two (hy : y < N) (hr : 2 ≤ r) :
    Examined N o y r 1 [(o, 64 * y), (o + 64, 64 * next N y)] := by
  intro p
  simp only [List.mem_cons, List.not_mem_nil, or_false]
  constructor
  · rintro (rfl | rfl)
    · exact ⟨0, by omega, by omega, by rw [ahead_zero hy]; rfl⟩
    · exact ⟨1, by omega, by omega, by rw [ahead_one hy]⟩
  · rintro ⟨i, h1, h2, rfl⟩
    rcases i with _ | _ | i
    · left
      rw [ahead_zero hy]
      rfl
    · right
      rw [ahead_one hy]
    · omega

section Rounds

variable (hj : InSlots N x t j)
include hj

/-- A round that finds the end of the transaction. -/
theorem processLoop_end (h : Ends j.log g o) : processLoop j false g s (f + 1) o (64 * y) n =
    some ⟨64 * next N y, n + 1, wiped j.log g s (n + 1), j.mem, [(o, 64 * y)]⟩ := by
  unfold processLoop
  rw [hj.size, nextLogEntry_slot, if_pos (show _ ∧ _ from h)]
  simp only [redo_flushes, ite_self, Option.map_some]
  rfl

theorem processLoop_tail (h : ¬ Ends j.log g o) (htail : next N y = t) :
    processLoop j false g s (f + 1) o (64 * y) n = some ⟨j.head, n + 1, j.log,
    j.mem, [(o, 64 * y)]⟩ := by
  unfold processLoop
  rw [hj.size, nextLogEntry_slot, hj.tail, htail]
  rw [if_neg (show ¬ (_ ∧ _) from h), if_pos rfl]
  rfl

theorem processLoop_start (h : ¬ Ends j.log g o) (htail : next N y ≠ t)
    (hstart : Starts j.log g (o + 64)) : processLoop j false g s (f + 1) o (64 * y) n =
      some ⟨j.head, n + 1, j.log, j.mem, [(o, 64 * y), (o + 64, 64 * next N y)]⟩ := by
  unfold processLoop
  rw [hj.size, nextLogEntry_slot, hj.tail]
  rw [if_neg (show ¬ (_ ∧ _) from h), if_neg (by omega)]
  exact (if_pos hstart).trans rfl

theorem processLoop_next (h : ¬ Ends j.log g o) (htail : next N y ≠ t)
    (hstart : ¬ Starts j.log g (o + 64)) : processLoop j false g s (f + 1) o (64 * y) n =
      (processLoop j false g s f (o + 64) (64 * next N y) (n + 1)).map fun r =>
        { r with examined := (o, 64 * y) :: (o + 64, 64 * next N y) :: r.examined } := by
  rw [processLoop, hj.size, nextLogEntry_slot, hj.tail]
  rw [if_neg (show ¬ (_ ∧ _) from h), if_neg (by omega)]
  exact if_neg hstart

/-- The loop in closed form: the transaction has ended, or it is still open. -/
theorem processLoop_eq : ∀ {r f o y n : ℕ}, y < N → gap N y t = r + 1 → r + 1 ≤ f →
    ∃ l, Examined N o y (r + 1) (min (firstEnd j.log g o (r + 1)) (nextStart j.log g o (r + 1))) l ∧
      processLoop j false g s f o (64 * y) n = some
        (if firstEnd j.log g o (r + 1) < nextStart j.log g o (r + 1) then
          ⟨64 * ahead N y (firstEnd j.log g o (r + 1) + 1), n + (firstEnd j.log g o (r + 1) + 1),
            wiped j.log g s (n + (firstEnd j.log g o (r + 1) + 1)), j.mem, l⟩
        else ⟨j.head, n + nextStart j.log g o (r + 1), j.log, j.mem, l⟩)
  | r, 0, o, y, n, _, _, hfuel => by omega
  | r, f + 1, o, y, n, hy, hgap, hfuel => by
    have hne : y ≠ t := by
      rintro rfl
      rw [gap_self] at hgap
      omega
    have hlen := gap_le hy hj.tail_lt
    have hgap' : gap N (next N y) t = r := by
      have := gap_next hy hj.tail_lt hne
      omega
    by_cases hend : Ends j.log g o
    · have hpos := one_le_nextStart (L := j.log) (g := g) (o := o) (r := r + 1) (by omega)
      refine ⟨[(o, 64 * y)], ?_, ?_⟩
      · rw [firstEnd_of_ends hend, Nat.zero_min]
        exact examined_one hy (by omega)
      · rw [processLoop_end hj hend, firstEnd_of_ends hend, if_pos (by omega),
          Nat.zero_add, ahead_one hy]
    rw [firstEnd_succ hend]
    rcases r with _ | r
    · have htail : next N y = t := (gap_eq_zero_iff (next_lt hy)).mp hgap'
      refine ⟨[(o, 64 * y)], ?_, ?_⟩
      · rw [nextStart_one, show firstEnd j.log g (o + 64) 0 = 0 from first_self]
        exact examined_last hy
      · rw [processLoop_tail hj hend htail, if_neg (by rw [nextStart_one]; omega), nextStart_one]
    have htail : next N y ≠ t := by
      rintro hcon
      rw [hcon, gap_self] at hgap'
      omega
    by_cases hstart : Starts j.log g (o + 64)
    · refine ⟨[(o, 64 * y), (o + 64, 64 * next N y)], ?_, ?_⟩
      · rw [nextStart_of_starts hstart, Nat.min_eq_right (by omega)]
        exact examined_two hy (by omega)
      · rw [processLoop_start hj hend htail hstart, nextStart_of_starts hstart, if_neg (by omega)]
    · obtain ⟨l, hl, hrun⟩ :=
        processLoop_eq (f := f) (o := o + 64) (n := n + 1) (next_lt hy) hgap' (by omega)
      have hle := nextStart_le (L := j.log) (g := g) (o := o + 64) (r := r + 1) (by omega)
      refine ⟨(o, 64 * y) :: (o + 64, 64 * next N y) :: l, ?_, ?_⟩
      · rw [nextStart_succ hstart, Nat.add_min_add_right]
        exact examined_cons hy (by omega) (by omega) hl
      · rw [processLoop_next hj hend htail hstart, hrun, nextStart_succ hstart, Option.map_some]
        simp only [Nat.add_lt_add_iff_right]
        split_ifs with hlt
        · rw [ahead_next hy (by omega)]
          simp only [Nat.add_assoc, Nat.add_comm 1]
        · simp only [Nat.add_assoc, Nat.add_comm 1]

/-! ### The function -/

/-- An entry of the generation that starts no transaction is passed over. -/
theorem process_unused (h : ¬ (j.log j.head).isStart) :
    pmfsProcessTransaction j false = some ⟨64 * next N x, 0, j.log, j.mem, [(64 * x, 64 * x)]⟩ := by
  unfold pmfsProcessTransaction
  rw [if_neg h, hj.size, hj.head, nextLogEntry_slot]

theorem process_started (h : Starts j.log g j.head) (hne : x ≠ t) :
    ∃ l, Examined N (64 * x) x (gap N x t)
        (min (firstEnd j.log g (64 * x) (gap N x t)) (nextStart j.log g (64 * x) (gap N x t))) l ∧
      pmfsProcessTransaction j false = some
        (if firstEnd j.log g (64 * x) (gap N x t) < nextStart j.log g (64 * x) (gap N x t) then
          ⟨64 * ahead N x (firstEnd j.log g (64 * x) (gap N x t) + 1),
            firstEnd j.log g (64 * x) (gap N x t) + 1,
            wiped j.log g (64 * x) (firstEnd j.log g (64 * x) (gap N x t) + 1), j.mem, l⟩
        else ⟨64 * x, nextStart j.log g (64 * x) (gap N x t), j.log, j.mem, l⟩) := by
  have hpos : gap N x t ≠ 0 := fun h0 => hne ((gap_eq_zero_iff hj.head_lt).mp h0)
  have hlen := gap_le hj.head_lt hj.tail_lt
  obtain ⟨r, hr⟩ : ∃ r, gap N x t = r + 1 := ⟨gap N x t - 1, by omega⟩
  obtain ⟨l, hl, hrun⟩ := processLoop_eq (f := N) (o := 64 * x) (n := 0) hj hj.head_lt hr
    (by omega)
  rw [hr]
  refine ⟨l, hl, ?_⟩
  unfold pmfsProcessTransaction
  rw [if_pos h.2, h.1, hj.size, LOGENTRY_SIZE, Nat.mul_div_cancel_left N (by decide), hj.head, hrun]
  simp only [Nat.zero_add, hj.head]

end Rounds

end Pmfs.Journal.Transaction
