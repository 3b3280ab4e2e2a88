import Pmfs.Journal.Sweep
import Mathlib.Logic.Function.Iterate

/-! # The rounds of `pmfs_new_transaction`

A round compares the request with the free space and, when that is too small, runs up to three
passes of the cleaner. It believes what they report. `round_eq` says what a round does, and
`again_refused`, `again_turn` and `again_granted` how the function goes on after it: it returns
`-EAGAIN`, sets the tail to the start of the ring for another round, or grants the request. -/

namespace Pmfs.Journal.Request

open Journal.Model Journal.Cleaner Journal.Sweep Lib.Ring

variable {j : PmfsJournal} {a r k n m h t f : ℕ} {i : UInt32}

/-! ### Several passes -/

/-- The journal after `k` passes. -/
noncomputable def sweeps (j : PmfsJournal) (k : ℕ) : PmfsJournal := swept^[k] j

/-- The number of entries that `k` passes report. -/
noncomputable def reports (j : PmfsJournal) : ℕ → ℕ
  | 0 => 0
  | k + 1 => reports j k + (passOf (sweeps j k)).reported

theorem sweeps_succ (j : PmfsJournal) (k : ℕ) : sweeps j (k + 1) = swept (sweeps j k) :=
  Function.iterate_succ_apply' swept k j

theorem inRing_sweeps (hj : InRing j) : ∀ k, InRing (sweeps j k)
  | 0 => hj
  | k + 1 => by
    rw [sweeps_succ]
    exact inRing_swept (inRing_sweeps hj k)

@[simp] theorem sweeps_jsize (j : PmfsJournal) : ∀ k, (sweeps j k).jsize = j.jsize
  | 0 => rfl
  | k + 1 => by
    rw [sweeps_succ]
    exact sweeps_jsize j k

/-! ### One round -/

/-- With what `k` passes report, the space is enough for a request of `r` bytes. -/
def Enough (a r : ℕ) (j : PmfsJournal) (k : ℕ) : Prop := r ≤ (a + 64 * reports j k) % 2 ^ 32

/-- A round with `a` bytes of space refuses a request of `r` bytes. -/
def Refused (a r : ℕ) (j : PmfsJournal) : Prop := a < r ∧ ∀ k, 1 ≤ k → k ≤ 3 → ¬ Enough a r j k

open Classical in
/-- The number of passes in a round. -/
noncomputable def tries (a r : ℕ) (j : PmfsJournal) : ℕ :=
  if r ≤ a then 0 else if Enough a r j 1 then 1 else if Enough a r j 2 then 2 else 3

theorem freeLogentries_eq (hj : InRing j) :
    pmfsFreeLogentries j = some (swept j, 64 * (passOf j).reported % 2 ^ 32) := by
  obtain ⟨l, hl⟩ := sweep_eq hj
  rw [pmfsFreeLogentries, hl]
  rfl

/-- One pass of the cleaner in the loop, after `k` passes. -/
theorem retryLoop_succ (hj : InRing j) :
    retryLoop r a (n + 1) (64 * reports j k % 2 ^ 32) (sweeps j k) = if r ≤
    (a + 64 * reports j (k + 1)) % 2 ^ 32 then
      some (sweeps j (k + 1), 64 * reports j (k + 1) % 2 ^ 32)
    else retryLoop r a n (64 * reports j (k + 1) % 2 ^ 32) (sweeps j (k + 1)) := by
  have hfreed : (64 * reports j k % 2 ^ 32 + 64 * (passOf (sweeps j k)).reported % 2 ^ 32) %
    2 ^ 32 =
      64 * reports j (k + 1) % 2 ^ 32 := by
    rw [reports, Nat.mul_add, ← Nat.add_mod]
  rw [retryLoop, freeLogentries_eq (inRing_sweeps hj k), Option.bind_some]
  dsimp only
  rw [hfreed, Nat.add_mod_mod, sweeps_succ]

theorem retryLoop_eq (hj : InRing j) (h : a < r) : retryLoop r a 3 0 j =
    some (sweeps j (tries a r j), 64 * reports j (tries a r j) % 2 ^ 32) := by
  have hloop := retryLoop_succ (r := r) (a := a) (n := 2) (k := 0) hj
  unfold tries
  rw [if_neg (not_le.mpr h)]
  by_cases h1 : Enough a r j 1
  · rw [if_pos h1]
    exact hloop.trans (if_pos h1)
  rw [if_neg h1]
  refine hloop.trans ((if_neg h1).trans ?_)
  by_cases h2 : Enough a r j 2
  · rw [if_pos h2]
    exact (retryLoop_succ hj).trans (if_pos h2)
  rw [if_neg h2]
  refine (retryLoop_succ hj).trans ((if_neg h2).trans ?_)
  refine (retryLoop_succ hj).trans ?_
  rw [retryLoop, ite_self]

theorem round_eq (hj : InRing j) :
    ∃ d, (if a < r then retryLoop r a 3 0 j else some (j, 0)) = some (sweeps j (tries a r j), d) ∧
      ((a < r ∧ (a + d) % 2 ^ 32 < r) ↔ Refused a r j) := by
  by_cases h : a < r
  · refine ⟨64 * reports j (tries a r j) % 2 ^ 32, by rw [if_pos h, retryLoop_eq hj h], ?_⟩
    rw [Nat.add_mod_mod]
    refine and_congr_right fun _ => ?_
    have hlast : ∀ {k}, ¬ Enough a r j k ↔ (a + 64 * reports j k) % 2 ^ 32 < r := fun {k} => not_le
    unfold tries
    rw [if_neg (not_le.mpr h)]
    by_cases h1 : Enough a r j 1
    · rw [if_pos h1, ← hlast]
      exact ⟨fun hcon => absurd h1 hcon, fun hcon => absurd h1 (hcon 1 (by omega) (by omega))⟩
    rw [if_neg h1]
    by_cases h2 : Enough a r j 2
    · rw [if_pos h2, ← hlast]
      exact ⟨fun hcon => absurd h2 hcon, fun hcon => absurd h2 (hcon 2 (by omega) (by omega))⟩
    rw [if_neg h2, ← hlast]
    constructor
    · intro h3 k hk1 hk3
      obtain rfl | rfl | rfl : k = 1 ∨ k = 2 ∨ k = 3 := by omega
      · exact h1
      · exact h2
      · exact h3
    · intro hcon
      exact hcon 3 (by omega) (by omega)
  · refine ⟨0, ?_, ?_⟩
    · rw [if_neg h, tries, if_pos (not_lt.mp h)]
      rfl
    · simp [Refused, h]

theorem tries_of_refused (h : Refused a r j) : tries a r j = 3 := by
  unfold tries
  rw [if_neg (not_le.mpr h.1), if_neg (h.2 1 (by omega) (by omega)),
    if_neg (h.2 2 (by omega) (by omega))]

/-! ### After a round -/

/-- `req_size` for a number of entries. -/
def reqSize (m : ℕ) : ℕ := m <<< 6 % 2 ^ 32

/-- The journal with its tail set to the start of the ring, in the next generation. -/
def turned (j : PmfsJournal) : PmfsJournal := { j with tail := 0, genId := nextGenId j.genId }

theorem again_refused (hj : InRing j) (h : Refused (availSize j.jsize a t) (reqSize m) j) :
    againLoop a m i (f + 1) t j = some (sweeps j 3, .eagain) := by
  obtain ⟨d, hd, hiff⟩ := round_eq hj
  rw [tries_of_refused h] at hd
  rw [againLoop]
  rw [show m <<< 6 % 2 ^ 32 = reqSize m from rfl, hd, Option.bind_some, if_pos (hiff.mpr h)]

theorem again_turn (hj : InRing j) (h : ¬ Refused (availSize j.jsize a t) (reqSize m) j)
    (hend : j.jsize ≤ (t + reqSize m) % 2 ^ 32) :
    againLoop a m i (f + 1) t j =
      againLoop a m i f 0 (turned (sweeps j (tries (availSize j.jsize a t) (reqSize m) j))) := by
  obtain ⟨d, hd, hiff⟩ := round_eq hj
  rw [againLoop]
  rw [show m <<< 6 % 2 ^ 32 = reqSize m from rfl, hd, Option.bind_some,
    if_neg (fun hcon => h (hiff.mp hcon)), if_pos hend]
  rfl

theorem again_granted (hj : InRing j) (h : ¬ Refused (availSize j.jsize a t) (reqSize m) j)
    (hend : (t + reqSize m) % 2 ^ 32 < j.jsize) :
    againLoop a m i (f + 1) t j =
      some ({ sweeps j (tries (availSize j.jsize a t) (reqSize m) j) with
        tail := (t + reqSize m) % 2 ^ 32 },
        .granted ⟨i, m % 2 ^ 16, 0, j.genId, t⟩) := by
  obtain ⟨d, hd, hiff⟩ := round_eq hj
  rw [againLoop]
  rw [show m <<< 6 % 2 ^ 32 = reqSize m from rfl, hd, Option.bind_some,
    if_neg (fun hcon => h (hiff.mp hcon)), if_neg (not_le.mpr hend)]

theorem inRing_turned (hj : InRing j) : InRing (turned j) := by
  refine ⟨hj.size, hj.head_lt, hj.head_dvd, ?_, Dvd.intro 0 rfl⟩
  exact lt_of_le_of_lt (Nat.zero_le _) hj.head_lt

/-- `avail_size` for offsets in the ring: the slots from the tail on to the head, but for one. -/
theorem availSize_eq (hj : InRing j) (ha : a < j.jsize) (hd : 64 ∣ a) (ht : t < j.jsize)
    (hd' : 64 ∣ t) : availSize j.jsize a t + 64 = (if a ≤ t then j.jsize - (t - a) else a - t) := by
  obtain ⟨k, h1, h2, hk⟩ := hj.size
  have hpow : 2 ^ k ≤ 2 ^ 31 := Nat.pow_le_pow_right (by decide) (by omega)
  have hsize : 64 ∣ j.jsize := hk ▸ pow_dvd_pow 2 (show 6 ≤ k by omega)
  obtain ⟨b, hb⟩ := hsize
  obtain ⟨c, hc⟩ := hd
  obtain ⟨d, hd⟩ := hd'
  unfold availSize LOGENTRY_SIZE
  by_cases hle : a ≤ t
  · rw [if_pos hle]
    omega
  · rw [if_neg hle]
    omega

theorem availSize_lt (hj : InRing j) (ha : a < j.jsize) (hd : 64 ∣ a) (ht : t < j.jsize)
    (hd' : 64 ∣ t) : availSize j.jsize a t < j.jsize := by
  have h := availSize_eq hj ha hd ht hd'
  split_ifs at h <;> omega

end Pmfs.Journal.Request
