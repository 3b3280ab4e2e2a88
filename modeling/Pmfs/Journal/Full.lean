import Pmfs.Journal.Request

/-! # When the journal is reported full

`pmfs_new_transaction` returns `-EAGAIN` on the strength of what the cleaner reports, and that is
not what the cleaner frees. `Runs` reads the slots between the head and the tail: those of closed
transactions are freed and reported, those without a transaction are freed and not reported, and
those of the first open transaction are reported by every pass and not freed (`Runs.passed`). So a
round with its three passes is known from the slots (`refused_iff`), and `full_when` says for which
slots and which requests `-EAGAIN` means that there is no room, and that nothing but cleaning has
changed the journal. -/

namespace Pmfs.Journal.Full

open Journal.Model Journal.Transaction Journal.Cleaner Journal.Sweep Journal.Request
open Lib.First Lib.Ring

variable {L M : Log} {j : PmfsJournal} {g : UInt16} {N x t a r c w o k n m f e i : ℕ}

/-! ### The slots between the head and the tail -/

/-- The slots from `x` to the tail in slot `t`, from the generation `g` on: `c` slots of closed
transactions, `w` slots where no transaction starts, and then the open transaction of `o` slots, up
to the next start, at which the cleaner stops. A closed transaction does not pass the end of the
ring. -/
inductive Runs (L : Log) (N t : ℕ) : ℕ → UInt16 → ℕ → ℕ → ℕ → Prop
  | done {g : UInt16} : Runs L N t t g 0 0 0
  | foreign {x c w o : ℕ} {g : UInt16} (hx : x ≠ t) (h : ¬ Starts L g (64 * x))
      (hrest : Runs L N t (ahead N x 1) (turn g (ahead N x 1)) c w o) : Runs L N t x g c (w + 1) o
  | closed {x c w o e : ℕ} {g : UInt16} (hx : x ≠ t) (h : Starts L g (64 * x)) (he : e < gap N x t)
      (hN : x + e < N) (hend : Ends L g (64 * (x + e)))
      (hend' : ∀ i < e, ¬ Ends L g (64 * (x + i)))
      (hnext : ∀ i, 1 ≤ i → i ≤ e → ¬ Starts L g (64 * (x + i)))
      (hrest : Runs L N t (ahead N x (e + 1)) (turn g (ahead N x (e + 1))) c w o) :
      Runs L N t x g (e + 1 + c) w o
  | opened {x o : ℕ} {g : UInt16} (hx : x ≠ t) (h : Starts L g (64 * x)) (ho : 1 ≤ o)
      (hgap : o ≤ gap N x t) (hnext : o < gap N x t → Starts L g (64 * (x + o)))
      (hnext' : ∀ i, 1 ≤ i → i < o → ¬ Starts L g (64 * (x + i)))
      (hend : ∀ i < o, ¬ Ends L g (64 * (x + i))) : Runs L N t x g 0 0 o

/-- The slots that a pass from `x` to `t` may read. -/
def Ahead (x t i : ℕ) : Prop := if x ≤ t then x ≤ i ∧ i < t else x ≤ i ∨ i < t

theorem ahead_add (hi : i < gap N x t) : Ahead x t (x + i) := by
  unfold Ahead
  unfold gap at hi
  split_ifs at * <;> omega

theorem Ahead.move (hx : x < N) (ht : t < N) (hk : k ≤ gap N x t) (h : Ahead (ahead N x k) t i) :
    Ahead x t i ∧ (i < x ∨ x + k ≤ i) := by
  unfold Ahead ahead at *
  unfold gap at hk
  split_ifs at * <;> omega

theorem invalidate_of_lt {o' : ℕ} : ∀ {n o : ℕ} {L : Log}, o' < o →
    pmfsInvalidateLogentries n o L o' = L o'
  | 0, _, _, _ => rfl
  | n + 1, o, L, h => by
    rw [pmfsInvalidateLogentries, invalidate_of_lt (by rw [LOGENTRY_SIZE]; omega),
      invalidateGenId_of_ne (by omega)]

theorem wiped_of_not (h : i < x ∨ x + k ≤ i) : wiped L g (64 * x) k (64 * i) = L (64 * i) := by
  rcases h with h | h
  · unfold wiped
    split_ifs
    · exact invalidate_of_lt (by omega)
    · rfl
  · exact wiped_of_le (by omega)

theorem starts_congr (h : M (64 * i) = L (64 * i)) :
    Starts M g (64 * i) ↔ Starts L g (64 * i) := by
  unfold Starts
  rw [h]

theorem ends_congr (h : M (64 * i) = L (64 * i)) : Ends M g (64 * i) ↔ Ends L g (64 * i) := by
  unfold Ends
  rw [h]

theorem firstEnd_eq (he : e ≤ r) (hend : e < r → Ends L g (64 * (x + e)))
    (hnone : ∀ i < e, ¬ Ends L g (64 * (x + i))) : firstEnd L g (64 * x) r = e := by
  refine first_eq (Nat.zero_le _) he (fun h => ?_) fun i _ hi => ?_
  · rw [← Nat.mul_add]
    exact hend h
  · rw [← Nat.mul_add]
    exact hnone i hi

theorem lt_nextStart (he : e < r) (hnone : ∀ i, 1 ≤ i → i ≤ e → ¬ Starts L g (64 * (x + i))) :
    e < nextStart L g (64 * x) r := by
  by_contra hcon
  exact hnone _ (one_le_nextStart (by omega)) (not_lt.mp hcon)
    (nextStart_starts (by omega) (by omega))

theorem nextStart_eq (ho : 1 ≤ o) (hr : o ≤ r) (hstart : o < r → Starts L g (64 * (x + o)))
    (hnone : ∀ i, 1 ≤ i → i < o → ¬ Starts L g (64 * (x + i))) : nextStart L g (64 * x) r = o := by
  refine first_eq ho hr (fun h => ?_) fun i h1 hi => ?_
  · rw [← Nat.mul_add]
    exact hstart h
  · rw [← Nat.mul_add]
    exact hnone i h1 hi

theorem le_firstEnd (hr : o ≤ r) (hnone : ∀ i < o, ¬ Ends L g (64 * (x + i))) :
    o ≤ firstEnd L g (64 * x) r := by
  by_contra hcon
  exact hnone _ (not_le.mp hcon) (firstEnd_ends (by omega))

/-! ### Passes -/

/-- The generation `k` slots behind `x`. -/
def genAfter (N x k : ℕ) (g : UInt16) : UInt16 := if x + k < N then g else nextGenId g

theorem genAfter_turn (hk : x + k ≤ N) (h1 : 1 ≤ k) (hn : x + k = N → n < N) :
    genAfter N (ahead N x k) n (turn g (ahead N x k)) = genAfter N x (k + n) g := by
  unfold genAfter turn
  rcases Nat.lt_or_eq_of_le hk with hlt | heq
  · have hahead : ahead N x k = x + k := if_pos hlt
    rw [hahead, if_neg (show x + k ≠ 0 by omega), Nat.add_assoc]
  · have hahead : ahead N x k = 0 := by
      unfold ahead
      rw [if_neg (by omega), heq, Nat.sub_self]
    rw [hahead, if_pos rfl, Nat.zero_add, if_pos (hn heq), if_neg (by omega)]

/-- What a pass over the slots does: the head moves over what is closed or no transaction, what is
closed and the open transaction are reported, and the next pass reports the open one again. -/
structure Passed (N t x : ℕ) (g : UInt16) (c w o : ℕ) (p : Pass) : Prop where
  moved : p.moved = c + w
  reported : p.reported = c + o
  again : ∀ f, pass N t (f + 1) (ahead N x (c + w)) (genAfter N x (c + w) g) p.log = ⟨0, o, p.log⟩

theorem Passed.add {p : Pass} (hx : x < N) (ht : t < N) (h1 : 1 ≤ k) (hk : k ≤ gap N x t)
    (hN : x + k ≤ N) (hle : c + w + o ≤ gap N (ahead N x k) t)
    (h : Passed N t (ahead N x k) (turn g (ahead N x k)) c w o p) (hn : n = 0 ∨ n = k) :
    Passed N t x g (n + c) (k - n + w) o (p.add k n) := by
  have hgap := gap_ahead hx ht hk
  have hlt := gap_le hx ht
  have htotal : n + c + (k - n + w) = k + (c + w) := by omega
  refine ⟨?_, ?_, fun f => ?_⟩
  · rw [htotal, ← h.moved]
    rfl
  · rw [Nat.add_assoc, ← h.reported]
    rfl
  · rw [htotal, ← ahead_ahead hx (by omega), ← genAfter_turn hN h1 (by omega)]
    exact h.again f

/-- A pass over the slots, in a log that is the same from the head on. -/
theorem Runs.passed (h : Runs L N t x g c w o) (ht : t < N) : ∀ {M : Log} {f : ℕ}, x < N →
    gap N x t < f → (∀ i, Ahead x t i → M (64 * i) = L (64 * i)) →
    c + w + o ≤ gap N x t ∧ Passed N t x g c w o (pass N t f x g M) := by
  induction h with
  | done =>
    intro M f _ _ _
    refine ⟨Nat.zero_le _, by rw [pass_done], by rw [pass_done], fun f' => ?_⟩
    rw [Nat.add_zero, ahead_zero ht, pass_done, pass_done]
  | @foreign x c w o g hx hstart _ ih =>
    intro M f hxN hf hM
    obtain ⟨f, rfl⟩ : ∃ f', f = f' + 1 := ⟨f - 1, by omega⟩
    have hpos : gap N x t ≠ 0 := fun h0 => hx ((gap_eq_zero_iff hxN).mp h0)
    have hgap := gap_ahead hxN ht (show 1 ≤ gap N x t by omega)
    have hlt := gap_le hxN ht
    have hself := hM x (by simpa using ahead_add (Nat.pos_of_ne_zero hpos))
    obtain ⟨hle, hpass⟩ := ih (M := skipped M g x) (f := f) (ahead_lt hxN (by omega)) (by omega)
      fun i hi => by
        obtain ⟨hold, hne⟩ := hi.move hxN ht (by omega)
        rw [skipped_of_ne (by omega), hM i hold]
    rw [pass_skip hx (by rwa [starts_congr hself])]
    refine ⟨by omega, ?_⟩
    simpa [Nat.add_comm 1 w] using
      hpass.add hxN ht le_rfl (by omega) (by omega) hle (Or.inl rfl)
  | @closed x c w o e g hx hstart he hN hend hend' hnext _ ih =>
    intro M f hxN hf hM
    obtain ⟨f, rfl⟩ : ∃ f', f = f' + 1 := ⟨f - 1, by omega⟩
    have hgap := gap_ahead hxN ht (show e + 1 ≤ gap N x t from he)
    have hlt := gap_le hxN ht
    have hsame := fun i (hi : i ≤ e) => hM (x + i) (ahead_add (hi.trans_lt he))
    have hfirst : firstEnd M g (64 * x) (gap N x t) = e :=
      firstEnd_eq he.le (fun _ => (ends_congr (hsame e le_rfl)).mpr hend) fun i hi => by
        rw [ends_congr (hsame i hi.le)]
        exact hend' i hi
    have hbefore : e < nextStart M g (64 * x) (gap N x t) := lt_nextStart he fun i h1 hi => by
      rw [starts_congr (hsame i hi)]
      exact hnext i h1 hi
    obtain ⟨hle, hpass⟩ := ih (M := wiped M g (64 * x) (e + 1)) (f := f) (ahead_lt hxN (by omega))
      (by omega) fun i hi => by
        obtain ⟨hold, hne⟩ := hi.move hxN ht he
        rw [wiped_of_not hne, hM i hold]
    rw [pass_ended hx ((starts_congr (hsame 0 (Nat.zero_le _))).mpr hstart) (by rwa [hfirst]),
      hfirst]
    refine ⟨by omega, ?_⟩
    simpa using hpass.add hxN ht (by omega) he hN hle (Or.inr rfl)
  | @opened x o g hx hstart ho hgap hnext hnext' hend =>
    intro M f hxN hf hM
    obtain ⟨f, rfl⟩ : ∃ f', f = f' + 1 := ⟨f - 1, by omega⟩
    have hsame := fun i (hi : i < gap N x t) => hM (x + i) (ahead_add hi)
    have hstart' : Starts M g (64 * x) := (starts_congr (hsame 0 (by omega))).mpr hstart
    have hopen : nextStart M g (64 * x) (gap N x t) = o :=
      nextStart_eq ho hgap (fun h => (starts_congr (hsame o h)).mpr (hnext h)) fun i h1 hi => by
        rw [starts_congr (hsame i (by omega))]
        exact hnext' i h1 hi
    have hlast : o ≤ firstEnd M g (64 * x) (gap N x t) := le_firstEnd hgap fun i hi => by
      rw [ends_congr (hsame i (by omega))]
      exact hend i hi
    have hstop : ∀ f, pass N t (f + 1) x g M = ⟨0, o, M⟩ := fun f => by
      rw [pass_open hx hstart' (by rwa [hopen]), hopen]
    rw [hstop]
    refine ⟨by omega, rfl, (Nat.zero_add o).symm, fun f' => ?_⟩
    have hgen : genAfter N x (0 + 0) g = g := if_pos hxN
    rw [hgen, Nat.add_zero, ahead_zero hxN]
    exact hstop f'

/-! ### Generations -/

theorem nextGenId_ne_zero (g : UInt16) : nextGenId g ≠ 0 := by
  unfold nextGenId
  split_ifs with h
  · decide
  · exact h

theorem nextGenId_prevGenId (hg : g ≠ 0) : nextGenId (prevGenId g) = g := by
  unfold nextGenId prevGenId
  by_cases h : g - 1 = 0
  · rw [if_pos h, if_pos (by decide), sub_eq_zero.mp h]
  · rw [if_neg h, sub_add_cancel, if_neg hg]

/-- The generation that a pass begins with. -/
def firstGen (j : PmfsJournal) : UInt16 := if j.tail < j.head then prevGenId j.genId else j.genId

/-! ### The journal -/

/-- The slots between the head and the tail of a journal. -/
abbrev JournalRuns (j : PmfsJournal) (c w o : ℕ) : Prop :=
  Runs j.log (j.jsize / 64) (j.tail / 64) (j.head / 64) (firstGen j) c w o

section Slots

variable (hj : InRing j) (hg : j.genId ≠ 0) (hruns : JournalRuns j c w o)
include hj hruns

theorem runs_pass : c + w + o ≤ gap (j.jsize / 64) (j.head / 64) (j.tail / 64) ∧
    Passed (j.jsize / 64) (j.tail / 64) (j.head / 64) (firstGen j) c w o (passOf j) := by
  have hslots := hj.slots
  have hlt := gap_le hslots.head_lt hslots.tail_lt
  exact hruns.passed hslots.tail_lt hslots.head_lt (by omega) fun _ _ => rfl

theorem swept_head : (swept j).head / 64 = ahead (j.jsize / 64) (j.head / 64) (c + w) := by
  rw [← (runs_pass hj hruns).2.moved]
  exact Nat.mul_div_cancel_left _ (by decide)

include hg

/-- The generation where the head has come to is the one that the next pass begins with. -/
theorem firstGen_swept :
    firstGen (swept j) = genAfter (j.jsize / 64) (j.head / 64) (c + w) (firstGen j) := by
  have hslots := hj.slots
  have hhead := swept_head hj hruns
  have hle := (runs_pass hj hruns).1
  have hback : j.tail < (swept j).head ↔ j.tail / 64 < (swept j).head / 64 := by
    have := hslots.tail
    have : 64 ∣ (swept j).head := Dvd.intro _ rfl
    omega
  have hback' : j.tail < j.head ↔ j.tail / 64 < j.head / 64 := by
    have := hslots.tail
    have := hslots.head
    omega
  unfold firstGen genAfter
  rw [show (swept j).tail = j.tail from rfl, show (swept j).genId = j.genId from rfl]
  simp only [hback, hback', hhead]
  unfold gap at hle
  unfold ahead
  have := hslots.head_lt
  have := hslots.tail_lt
  by_cases hwrap : j.head / 64 + (c + w) < j.jsize / 64
  · have hsame : j.tail / 64 < j.head / 64 + (c + w) ↔ j.tail / 64 < j.head / 64 := by
      split_ifs at hle <;> omega
    simp only [if_pos hwrap, hsame]
  · have hlt : j.tail / 64 < j.head / 64 := by
      split_ifs at hle <;> omega
    have hstop : ¬ j.tail / 64 < j.head / 64 + (c + w) - j.jsize / 64 := by
      split_ifs at hle <;> omega
    rw [if_neg hwrap, if_neg hstop, if_neg hwrap, if_pos hlt, nextGenId_prevGenId hg]

/-- The next pass reports the open transaction again, and leaves the journal as it is. -/
theorem passOf_swept : passOf (swept j) = ⟨0, o, (swept j).log⟩ := by
  have hagain := (runs_pass hj hruns).2.again (j.jsize / 64)
  rw [← swept_head hj hruns, ← firstGen_swept hj hg hruns] at hagain
  exact hagain

theorem sweeps_swept : ∀ k, sweeps j (k + 1) = swept j
  | 0 => rfl
  | k + 1 => by
    have hslots := (inRing_swept hj).slots
    rw [sweeps_succ, sweeps_swept k]
    have hswept : swept (swept j) = { swept j with
        head := 64 * ahead (j.jsize / 64) ((swept j).head / 64) (passOf (swept j)).moved
        log := (passOf (swept j)).log } := rfl
    have hhead : 64 * ahead (j.jsize / 64) ((swept j).head / 64) 0 = (swept j).head :=
      (congrArg (64 * ·) (ahead_zero hslots.head_lt)).trans hslots.head.symm
    rw [hswept, passOf_swept hj hg hruns]
    rw [hhead]

theorem reports_eq : ∀ k, reports j (k + 1) = c + (k + 1) * o
  | 0 => by
    rw [reports, reports, Nat.zero_add, Nat.zero_add, Nat.one_mul]
    exact (runs_pass hj hruns).2.reported
  | k + 1 => by
    rw [reports, reports_eq k, sweeps_swept hj hg hruns k, passOf_swept hj hg hruns,
      Nat.add_assoc, ← Nat.succ_mul]

end Slots

/-! ### Rounds -/

theorem reqSize_lt (m : ℕ) : reqSize m < 2 ^ 32 := Nat.mod_lt _ (by decide)

theorem availSize_gap (hj : InRing j) :
    availSize j.jsize j.head j.tail + 64 + 64 * gap (j.jsize / 64) (j.head / 64) (j.tail / 64) =
      j.jsize := by
  have hslots := hj.slots
  have havail := availSize_eq hj hj.head_lt hj.head_dvd hj.tail_lt hj.tail_dvd
  have := hslots.size
  have := hslots.head
  have := hslots.tail
  have := hslots.head_lt
  have := hslots.tail_lt
  unfold gap
  split_ifs at havail ⊢ <;> omega

/-- A round refuses the request when three passes do not report enough. -/
theorem refused_iff (hj : InRing j) (hsize : j.jsize ≤ 2 ^ 30) (hg : j.genId ≠ 0)
    (hruns : JournalRuns j c w o) : Refused (availSize j.jsize j.head j.tail) r j ↔
      availSize j.jsize j.head j.tail + 64 * (c + 3 * o) < r := by
  have havail := availSize_gap hj
  have hle := (runs_pass hj hruns).1
  have henough : ∀ k, k < 3 → (Enough (availSize j.jsize j.head j.tail) r j (k + 1) ↔
      r ≤ availSize j.jsize j.head j.tail + 64 * (c + (k + 1) * o)) := by
    intro k hk
    have hko : (k + 1) * o ≤ 3 * o := Nat.mul_le_mul_right o hk
    unfold Enough
    rw [reports_eq hj hg hruns, Nat.mod_eq_of_lt (by omega)]
  constructor
  · rintro ⟨-, h⟩
    exact not_le.mp fun hcon => h 3 (by omega) le_rfl ((henough 2 (by omega)).mpr hcon)
  · intro h
    refine ⟨by omega, fun k h1 h3 => ?_⟩
    obtain ⟨k, rfl⟩ : ∃ k', k = k' + 1 := ⟨k - 1, by omega⟩
    have hko : (k + 1) * o ≤ 3 * o := Nat.mul_le_mul_right o h3
    rw [henough k (by omega)]
    omega

theorem availSize_swept (hj : InRing j) (hruns : JournalRuns j c w o) :
    availSize j.jsize (swept j).head j.tail = availSize j.jsize j.head j.tail + 64 * (c + w) := by
  have hslots := hj.slots
  have hbefore := availSize_gap hj
  have hafter := availSize_gap (inRing_swept hj)
  have hle := (runs_pass hj hruns).1
  rw [show (swept j).tail = j.tail from rfl, show (swept j).jsize = j.jsize from rfl,
    swept_head hj hruns, gap_ahead hslots.head_lt hslots.tail_lt (by omega)] at hafter
  omega

/-! ### The result -/

/-- The number of entries that a transaction is to have, with one for the commit record in an undo
log. -/
def entries (j : PmfsJournal) (n : ℕ) : ℕ := if j.redoLog then n else (n + 1) % 2 ^ 32

/-- `k` calls of `pmfs_clean_journal`. -/
def cleanings : ℕ → PmfsJournal → Option PmfsJournal
  | 0, j => some j
  | k + 1, j => (cleanings k j).bind fun j => (pmfsCleanJournal j).map fun r => r.1

theorem cleanings_eq (hj : InRing j) : ∀ k, cleanings k j = some (sweeps j k)
  | 0 => rfl
  | k + 1 => by
    obtain ⟨l, hl⟩ := sweep_eq (inRing_sweeps hj k)
    rw [cleanings, cleanings_eq hj k, Option.bind_some, hl, sweeps_succ]
    rfl

/-- The journal `j'` has no room for `m` entries beside a spare one, and comes from `j` by cleaning
alone. -/
def NoRoom (j : PmfsJournal) (m : ℕ) (j' : PmfsJournal) : Prop :=
  availSize j'.jsize j'.head j'.tail < 64 * m ∧ j'.tail = j.tail ∧ j'.genId = j.genId ∧
    ∃ k, cleanings k { j with nextTransactionId := j.nextTransactionId + 1 } = some j'

/-- The slots that a request lacks are not among those that are freed and not reported. -/
def Counted (j : PmfsJournal) (c w o m : ℕ) : Prop :=
  availSize j.jsize j.head j.tail + 64 * (c + 3 * o) < reqSize m →
    availSize j.jsize j.head j.tail + 64 * (c + w) < 64 * m

/-- A request that is not refused does not reach the end of the ring, or fits between the start of
the ring and the head. -/
def Fits (j : PmfsJournal) (c o m : ℕ) : Prop :=
  reqSize m ≤ availSize j.jsize j.head j.tail + 64 * (c + 3 * o) → j.jsize ≤ j.tail + reqSize m →
    reqSize m ≤ availSize j.jsize j.head 0

theorem inRing_nextTransactionId (hj : InRing j) (i : UInt32) :
    InRing { j with nextTransactionId := i } :=
  ⟨hj.size, hj.head_lt, hj.head_dvd, hj.tail_lt, hj.tail_dvd⟩

/-- A request that is not refused, and fits where it is to go, is granted. -/
theorem again_fits {i : UInt32} (hj : InRing j) (hsize : j.jsize ≤ 2 ^ 30) (hg : j.genId ≠ 0)
    (hruns : JournalRuns j c w o) (hfits : Fits j c o m)
    (href : ¬ Refused (availSize j.jsize j.head j.tail) (reqSize m) j) :
    ∃ j' trans, againLoop j.head m i (f + 2) j.tail j = some (j', .granted trans) := by
  have htail := hj.tail_lt
  rw [refused_iff hj hsize hg hruns, not_lt] at href
  have href' : ¬ Refused (availSize j.jsize j.head j.tail) (reqSize m) j := by
    rwa [refused_iff hj hsize hg hruns, not_lt]
  rcases Nat.lt_or_ge (j.tail + reqSize m) j.jsize with hlt | hge
  · have hmod : (j.tail + reqSize m) % 2 ^ 32 = j.tail + reqSize m := Nat.mod_eq_of_lt (by omega)
    exact ⟨_, _, again_granted hj href' (by rwa [hmod])⟩
  · have hroom := hfits href hge
    have havail :=
      availSize_lt hj hj.head_lt hj.head_dvd (Nat.zero_lt_of_lt htail) (Dvd.intro 0 rfl)
    have hmod : (j.tail + reqSize m) % 2 ^ 32 = j.tail + reqSize m := Nat.mod_eq_of_lt (by omega)
    rw [again_turn hj href' (by rwa [hmod])]
    generalize hk : tries (availSize j.jsize j.head j.tail) (reqSize m) j = k
    have hsize' : (turned (sweeps j k)).jsize = j.jsize := sweeps_jsize j k
    refine ⟨_, _, again_granted (inRing_turned (inRing_sweeps hj k)) ?_ ?_⟩
    · rw [hsize']
      exact fun hcon => absurd hcon.1 (not_lt.mpr hroom)
    · rw [hsize', Nat.zero_add, Nat.mod_eq_of_lt (reqSize_lt m)]
      omega

/-- An entry with marks. -/
def marked (genId : UInt16) (type : UInt8) : LogEntry :=
  { blankEntry with genId := genId, type := type }

/-- A journal of 64K that is all but full: a closed transaction of ten slots, a slot that was never
written, and open transactions from slot 11 and from slot 12 on. -/
def crowdedJournal : PmfsJournal where
  jsize := 65536
  head := 0
  tail := 64000
  genId := 2
  redoLog := false
  nextTransactionId := 0
  log o := if o = 640 then blankEntry
    else marked 2 (if o = 0 ∨ o = 704 ∨ o = 768 then 1 else if o = 576 then 2 else 0)
  mem _ := 0

theorem crowded_inRing : InRing crowdedJournal :=
  ⟨⟨16, by decide, by decide, rfl⟩, by decide, by decide, by decide, by decide⟩

theorem crowded_runs : JournalRuns crowdedJournal 10 1 1 :=
  .closed (by decide) (by decide) (by decide) (by decide) (by decide) (by decide) (by decide)
    (.foreign (by decide) (by decide)
      (.opened (by decide) (by decide) le_rfl (by decide) (by decide) (by decide) (by decide)))

/-- A journal of 64K with thirty slots between head and tail, none of which was written. -/
def unwrittenJournal : PmfsJournal where
  jsize := 65536
  head := 0
  tail := 1920
  genId := 2
  redoLog := false
  nextTransactionId := 0
  log _ := blankEntry
  mem _ := 0

end Pmfs.Journal.Full
