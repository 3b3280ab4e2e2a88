import Mathlib.Tactic.Common

/-! # Rings of slots

A ring has the slots `0, …, N - 1`, and the slot after the last one is the first. `ahead N x k` is
the slot `k` steps behind `x`, for at most one round, and `gap N x t` the number of steps from `x`
to `t`. `gap_next` makes a step, `gap_ahead` several, and `ahead_gap` goes all the way. -/

namespace Pmfs.Lib.Ring

variable {N x t k n : ℕ}

/-- The slot after `x`. -/
def next (N x : ℕ) : ℕ := if x + 1 ≥ N then 0 else x + 1

/-- The slot `k` steps from `x` on. -/
def ahead (N x k : ℕ) : ℕ := if x + k < N then x + k else x + k - N

/-- The slot before `x`. -/
def prev (N x : ℕ) : ℕ := if x = 0 then N - 1 else x - 1

/-- The number of steps from `x` to `t`. -/
def gap (N x t : ℕ) : ℕ := if x ≤ t then t - x else N - x + t

theorem ahead_zero (hx : x < N) : ahead N x 0 = x := by
  simp [ahead, hx]

theorem ahead_one (hx : x < N) : ahead N x 1 = next N x := by
  unfold ahead next
  split_ifs <;> omega

theorem ahead_lt (hx : x < N) (hk : k ≤ N) : ahead N x k < N := by
  unfold ahead
  split_ifs <;> omega

theorem next_lt (hx : x < N) : next N x < N := by
  unfold next
  split_ifs <;> omega

theorem gap_le (hx : x < N) (ht : t < N) : gap N x t < N := by
  unfold gap
  split_ifs <;> omega

@[simp] theorem gap_self : gap N x x = 0 := by
  simp [gap]

theorem gap_eq_zero_iff (hx : x < N) : gap N x t = 0 ↔ x = t := by
  unfold gap
  split_ifs <;> omega

theorem gap_next (hx : x < N) (ht : t < N) (hne : x ≠ t) : gap N x t = gap N (next N x) t + 1 := by
  unfold gap next
  split_ifs <;> omega

theorem prev_lt (hx : x < N) : prev N x < N := by
  unfold prev
  split_ifs <;> omega

theorem gap_prev (hx : x < N) (ht : t < N) (hne : t ≠ x) : gap N x t = gap N x (prev N t) + 1 := by
  unfold gap prev
  split_ifs <;> omega

theorem gap_ahead (hx : x < N) (ht : t < N) (hk : k ≤ gap N x t) :
    gap N (ahead N x k) t = gap N x t - k := by
  unfold gap ahead at *
  split_ifs at * <;> omega

theorem ahead_ahead (hx : x < N) (h : k + n ≤ N) : ahead N (ahead N x k) n = ahead N x (k + n) := by
  unfold ahead
  split_ifs <;> omega

theorem ahead_next (hx : x < N) (hk : k + 1 ≤ N) : ahead N (next N x) k = ahead N x (k + 1) := by
  rw [← ahead_one hx, ahead_ahead hx (by omega), Nat.add_comm]

end Pmfs.Lib.Ring
