import Pmfs.Journal.Full

/-! # Recovery from the undo log

`pmfs_recover_undo_journal` walks the ring from the tail back to the head and puts back what the
transactions without an end have logged, the latest first. `recovery_restores` says what becomes of
a journal of whole transactions.

`le` is the entry at `tail` throughout `pmfs_recover_transaction`, as the two move together and
`tail` is not 0 then. `none` is also a failing `BUG_ON`. -/

namespace Pmfs.Journal.Recovery

open Journal.Model Journal.Transaction Journal.Cleaner Lib.Bytes Lib.Ring

variable {L M : Log} {j : PmfsJournal} {e : LogEntry} {m : Mem} {l : List LogEntry} {g : UInt16}
  {N h t s n k f : ℕ}

/-! ### The code -/

/-- `prev_log_entry`. -/
def prevLogEntry (jsize leOff : ℕ) : ℕ := (if leOff = 0 then jsize else leOff) - LOGENTRY_SIZE

/-- `pmfs_undo_logentry`. -/
def pmfsUndoLogentry (le : LogEntry) (mem : Mem) : Option Mem :=
  if le.size > 0 then copyData le mem else some mem

/-- `pmfs_undo_transaction`, for the number of entries used from `start` on. -/
def pmfsUndoTransaction (log : Log) (genId : UInt16) (start : ℕ) : ℕ → Mem → Option Mem
  | 0, mem => some mem
  | n + 1, mem =>
    let le := log (start + LOGENTRY_SIZE * n)
    (if genId = le.genId then pmfsUndoLogentry le mem else some mem).bind
      (pmfsUndoTransaction log genId start n)

/-- `le->type & LE_COMMIT || le->type & LE_ABORT`. -/
def isEnd (le : LogEntry) : Bool := le.isCommit || le.isAbort

/-- The local variables of `pmfs_recover_transaction` after its loop. -/
structure Walk where
  tail : ℕ
  numEntries : ℕ
  startFound : Bool
  cmtOrAbrtFound : Bool

/-- The loop of `pmfs_recover_transaction`, which has counted `n` entries. -/
def recoverLoop (j : PmfsJournal) (genId : UInt16) (transactionId : UInt32) : ℕ → ℕ → ℕ →
    Bool → Option Walk
  | 0, _, _, _ => none
  | fuel + 1, tail, n, found =>
    let le := j.log tail
    let found := found || genId = le.genId && isEnd le
    if genId = le.genId ∧ le.isStart then some ⟨tail, n + 1, true, found⟩
    else if tail = 0 ∨ tail = j.head then some ⟨tail, n + 1, false, found⟩
    else
      let prev := j.log (tail - LOGENTRY_SIZE)
      if genId = prev.genId ∧ isEnd prev then
        if transactionId = prev.transactionId then none else some ⟨tail, n + 1, false, found⟩
      else recoverLoop j genId transactionId fuel (prevLogEntry j.jsize tail) (n + 1) found

/-- `pmfs_recover_transaction` for the entry at `tail`: the new tail, and the journal. The entries
are counted in 16 bits. -/
def pmfsRecoverTransaction (j : PmfsJournal) (tail : ℕ) : Option (ℕ × PmfsJournal) :=
  let genId := (j.log tail).genId
  (recoverLoop j genId (j.log tail).transactionId (j.jsize / LOGENTRY_SIZE) tail 0
    false).bind fun w =>
    (if w.startFound ∧ ¬ w.cmtOrAbrtFound then
      pmfsUndoTransaction j.log genId w.tail (w.numEntries % 2 ^ 16) j.mem
    else some j.mem).map fun mem =>
      (w.tail, { j with log := wiped j.log genId w.tail w.numEntries, mem := mem })

/-- The loop of `pmfs_recover_undo_journal`. -/
def recoverUndoLoop : ℕ → ℕ → UInt16 → PmfsJournal → Option PmfsJournal
  | 0, _, _, _ => none
  | fuel + 1, tail, genId, j =>
    if j.head = tail then some j
    else
      let genId := if tail = 0 then prevGenId genId else genId
      let tail := prevLogEntry j.jsize tail
      if genId = (j.log tail).genId then
        (pmfsRecoverTransaction j tail).bind fun r => recoverUndoLoop fuel r.1 genId r.2
      else recoverUndoLoop fuel tail genId
        { j with log := if genId = MAX_GEN_ID then invalidateGenId j.log tail else j.log }

/-- `pmfs_forward_journal`, with `invalidate_remaining_journal`. -/
def pmfsForwardJournal (j : PmfsJournal) : PmfsJournal :=
  { j with
    log := if j.genId = MAX_GEN_ID then
        pmfsInvalidateLogentries ((j.jsize - j.tail + 63) / LOGENTRY_SIZE) j.tail j.log
      else j.log
    genId := nextGenId j.genId
    head := j.tail }

/-- `pmfs_recover_undo_journal`. -/
def pmfsRecoverUndoJournal (j : PmfsJournal) : Option PmfsJournal :=
  (recoverUndoLoop (j.jsize / LOGENTRY_SIZE + 1) j.tail j.genId j).map pmfsForwardJournal

/-! ### Bytes that are put back -/

/-- The byte that an entry has for an address. -/
def logged (e : LogEntry) (a : ℕ) : Option UInt8 :=
  if e.addrOffset ≤ a then (e.data.toList.take e.size.toNat)[a - e.addrOffset]? else none

/-- The memory with the bytes of the entries put back. Where several entries have a byte, the first
one decides. -/
def restored (l : List LogEntry) (m : Mem) : Mem := fun a => (l.findSome? (logged · a)).getD (m a)

theorem restored_append (l l' : List LogEntry) (m : Mem) :
    restored (l ++ l') m = restored l (restored l' m) := by
  funext a
  simp only [restored, List.findSome?_append]
  cases l.findSome? (logged · a) <;> rfl

/-- The entry has no bytes, or not more than fit in it, for a place in the file system. -/
abbrev Sound (e : LogEntry) : Prop := e.size = 0 ∨ e.addrOffset ≠ 0 ∧ e.size.toNat ≤ 48

theorem undoLogentry_eq (he : Sound e) : pmfsUndoLogentry e m = some (restored [e] m) := by
  unfold pmfsUndoLogentry
  by_cases h0 : e.size = 0
  · rw [if_neg (by simp [h0])]
    congr 1
    funext a
    simp [restored, logged, h0]
  · obtain ⟨hoff, hsize⟩ := he.resolve_left h0
    rw [if_pos (UInt8.pos_iff_ne_zero.mpr h0), copyData, if_neg (by omega)]
    congr 1
    funext a
    simp only [restored, logged, putBytes, List.findSome?_singleton]
    split_ifs <;> rfl

theorem undoTransaction_eq : ∀ {n : ℕ} {m : Mem}, (∀ i < n, (L (64 * (s + i))).genId = g ∧
    Sound (L (64 * (s + i)))) → pmfsUndoTransaction L g (64 * s) n m =
    some (restored ((List.range n).map fun i => L (64 * (s + i))) m)
  | 0, _, _ => rfl
  | n + 1, m, hl => by
    obtain ⟨hgen, hsound⟩ := hl n (by omega)
    rw [pmfsUndoTransaction, LOGENTRY_SIZE, ← Nat.mul_add, if_pos hgen.symm, undoLogentry_eq hsound,
      Option.bind_some, undoTransaction_eq fun i hi => hl i (by omega), List.range_succ,
      List.map_append, restored_append]
    rfl

/-! ### Journals of whole transactions -/

/-- The slots from `s` to `s + n` hold a transaction of the generation `g`: it begins in the first
one, no other begins and none ends before the last, and it lies on one side of the head in slot `h`.
-/
structure Region (L : Log) (g : UInt16) (h s n : ℕ) : Prop where
  starts : (L (64 * s)).isStart
  valid : ∀ i ≤ n, (L (64 * (s + i))).genId = g ∧ Sound (L (64 * (s + i)))
  goes_on : ∀ i < n, ¬ (L (64 * (s + (i + 1)))).isStart ∧ ¬ isEnd (L (64 * (s + i)))
  inside : h ≤ s ∨ s + n < h
  few : n + 1 < 2 ^ 16

/-- What has to be put back of such a transaction. -/
def opened (L : Log) (s n : ℕ) : List LogEntry :=
  if isEnd (L (64 * (s + n))) then [] else (List.range (n + 1)).map fun i => L (64 * (s + i))

/-- The generation of the slot before `t`. -/
def back (g : UInt16) (t : ℕ) : UInt16 := if t = 0 then prevGenId g else g

/-- The slots from the head `h` up to `t` hold whole transactions of the generation of their round,
and between them slots that are not in use. `l` are the entries of the transactions without an end,
in the order of the log. -/
inductive Whole (L : Log) (N h : ℕ) : ℕ → UInt16 → List LogEntry → Prop
  | empty {g : UInt16} : Whole L N h h g []
  | unused {t : ℕ} {g : UInt16} {l : List LogEntry} (ht : t ≠ h)
      (hgen : (L (64 * prev N t)).genId ≠ back g t) (rest : Whole L N h (prev N t) (back g t) l) :
      Whole L N h t g l
  | region {t s n : ℕ} {g : UInt16} {l : List LogEntry} (ht : t ≠ h) (hlast : prev N t = s + n)
      (hr : Region L (back g t) h s n) (rest : Whole L N h s (back g t) l) :
      Whole L N h t g (l ++ opened L s n)

section Congr

variable (hcongr : ∀ i ≤ n, M (64 * (s + i)) = L (64 * (s + i)))
include hcongr

theorem Region.congr (hr : Region L g h s n) : Region M g h s n := by
  refine ⟨?_, fun i hi => ?_, fun i hi => ?_, hr.inside, hr.few⟩
  · rw [← Nat.add_zero s, hcongr 0 (Nat.zero_le n)]
    exact hr.starts
  · rw [hcongr i hi]
    exact hr.valid i hi
  · rw [hcongr _ hi, hcongr i hi.le]
    exact hr.goes_on i hi

theorem opened_congr : opened M s n = opened L s n := by
  unfold opened
  rw [hcongr n le_rfl]
  congr 1
  exact List.map_congr_left fun i hi => hcongr i (Nat.lt_succ_iff.mp (List.mem_range.mp hi))

end Congr

theorem invalidate_of_lt {o' : ℕ} : ∀ {n o : ℕ} {L : Log}, o' < o →
    pmfsInvalidateLogentries n o L o' = L o'
  | 0, _, _, _ => rfl
  | n + 1, o, L, ho => by
    rw [pmfsInvalidateLogentries, invalidate_of_lt (by rw [LOGENTRY_SIZE]; omega),
      invalidateGenId_of_ne (by omega)]

theorem wiped_of_lt {o : ℕ} (ho : o < s) : wiped L g s n o = L o := by
  unfold wiped
  split_ifs
  exacts [invalidate_of_lt ho, rfl]

/-! ### The walk back -/

section Walk

variable (hj : InSlots N h k j)
include hj

theorem recoverLoop_eq (hr : Region j.log g h s n) (i : UInt32) :
    ∀ {d f c : ℕ} {b : Bool}, d ≤ n → d < f → recoverLoop j g i f (64 * (s + d)) c b =
    some ⟨64 * s, c + (d + 1), true, b || isEnd (j.log (64 * (s + d)))⟩
  | d, f + 1, c, b, hd, hf => by
    rw [recoverLoop]
    simp only [(hr.valid d hd).1, true_and, decide_true, Bool.true_and]
    rcases d with - | d
    · rw [Nat.add_zero, if_pos hr.starts]
    · obtain ⟨hstart, hend⟩ := hr.goes_on d hd
      have hinside := hr.inside
      have hprev : prevLogEntry j.jsize (64 * (s + (d + 1))) = 64 * (s + d) := by
        rw [prevLogEntry, if_neg (by omega), LOGENTRY_SIZE]
        omega
      rw [if_neg hstart, if_neg (by rw [hj.head]; omega), LOGENTRY_SIZE,
        show 64 * (s + (d + 1)) - 64 = 64 * (s + d) by
          omega, if_neg (fun hcon => hend hcon.2), hprev,
        recoverLoop_eq hr i (by omega) (by omega), Bool.eq_false_of_not_eq_true hend, Bool.or_false,
        Nat.add_assoc, Nat.add_comm 1]

theorem recoverTransaction_eq (hr : Region j.log g h s n) (hlt : s + n < N) :
    pmfsRecoverTransaction j (64 * (s + n)) = some (64 * s,
      { j with
        log := wiped j.log g (64 * s) (n + 1), mem := restored (opened j.log s n) j.mem }) := by
  have hsize : j.jsize / 64 = N := by rw [hj.size]; omega
  rw [pmfsRecoverTransaction]
  simp only [(hr.valid n le_rfl).1, LOGENTRY_SIZE, hsize]
  rw [recoverLoop_eq hj hr _ le_rfl (by omega), Option.bind_some, Nat.zero_add, Bool.false_or,
    Nat.mod_eq_of_lt hr.few]
  unfold opened
  by_cases hend : isEnd (j.log (64 * (s + n)))
  · rw [if_pos hend, if_neg (by simp [hend])]
    rfl
  · rw [if_neg hend, if_pos ⟨rfl, hend⟩, undoTransaction_eq fun i hi => hr.valid i (by omega)]
    rfl

theorem recoverUndoLoop_succ (ht : t ≠ h) : recoverUndoLoop (f + 1) (64 * t) g j =
    if back g t = (j.log (64 * prev N t)).genId then
      (pmfsRecoverTransaction j (64 * prev N t)).bind fun r => recoverUndoLoop f r.1 (back g t) r.2
    else recoverUndoLoop f (64 * prev N t) (back g t)
      { j with log :=
          if back g t = MAX_GEN_ID then invalidateGenId j.log (64 * prev N t) else j.log } := by
  have hprev : prevLogEntry j.jsize (64 * t) = 64 * prev N t := by
    rw [hj.size]
    unfold prevLogEntry prev LOGENTRY_SIZE
    split_ifs <;> omega
  have hback : (if 64 * t = 0 then prevGenId g else g) = back g t := if_congr (by omega) rfl rfl
  rw [recoverUndoLoop, if_neg (by rw [hj.head]; omega)]
  simp only [hprev, hback]

end Walk

/-- The loop puts back what is open. The entries that it has not come to are as they were. -/
theorem recoverUndoLoop_eq (hw : Whole L N h t g l) : ∀ {f : ℕ} {j : PmfsJournal}, InSlots N h k j →
    t < N → gap N h t < f → (∀ x < N, gap N h x < gap N h t → j.log (64 * x) = L (64 * x)) →
    ∃ M, recoverUndoLoop f (64 * t) g j = some { j with log := M, mem := restored l j.mem } := by
  induction hw with
  | empty =>
    intro f j hj _ hf _
    obtain - | f := f
    · omega
    exact ⟨j.log, by rw [recoverUndoLoop, if_pos hj.head]; rfl⟩
  | @unused t g l ht hgen _ ih =>
    intro f j hj hlt hf hlog
    obtain - | f := f
    · omega
    have hgap := gap_prev hj.head_lt hlt ht
    rw [recoverUndoLoop_succ hj ht, hlog _ (prev_lt hlt) (by omega), if_neg hgen.symm]
    refine ih ⟨hj.1, hj.2, hj.3, hj.4, hj.5⟩ (prev_lt hlt) (by omega) fun x hx hlt' => ?_
    have hne : x ≠ prev N t := by rintro rfl; omega
    rw [← hlog x hx (by omega)]
    split_ifs
    exacts [invalidateGenId_of_ne (by omega), rfl]
  | @region t s n g l ht hlast hr _ ih =>
    intro f j hj hlt hf hlog
    obtain - | f := f
    · omega
    have hgap := gap_prev hj.head_lt hlt ht
    have hin := prev_lt hlt
    have hinside := hr.inside
    rw [hlast] at hgap hin
    have hslot : ∀ i ≤ n, gap N h (s + i) = gap N h s + i := fun i hi => by
      unfold gap
      split_ifs <;> omega
    rw [hslot n le_rfl] at hgap
    have hcongr : ∀ i ≤ n, j.log (64 * (s + i)) = L (64 * (s + i)) := fun i hi =>
      hlog _ (by omega) (by rw [hslot i hi]; omega)
    have hr' := hr.congr hcongr
    rw [recoverUndoLoop_succ hj ht, hlast, if_pos (hr'.valid n le_rfl).1.symm,
      recoverTransaction_eq hj hr' hin, Option.bind_some, opened_congr hcongr, restored_append]
    refine ih ⟨hj.1, hj.2, hj.3, hj.4, hj.5⟩ (by omega) (by omega)
      fun x hx hlt' => ?_
    rw [← hlog x hx (by omega)]
    -- What is still to be read is not in the transaction.
    rcases lt_or_ge x s with hxs | hxs
    · exact wiped_of_lt (by omega)
    · refine wiped_of_le ?_
      by_contra hcon
      obtain ⟨i, rfl⟩ := Nat.exists_eq_add_of_le hxs
      have := hslot i (by omega)
      omega

/-- **Main result.** Recovery of a journal of whole transactions ends. Each byte that a transaction
without an end has logged gets the value in the earliest entry for it, the other bytes stay, and the
journal is empty in the next generation. -/
theorem recovery_restores (hj : InRing j)
    (hw : Whole j.log (j.jsize / 64) (j.head / 64) (j.tail / 64) j.genId l) :
    ∃ M, pmfsRecoverUndoJournal j = some
      { j with log := M, mem := restored l j.mem, head := j.tail, genId := nextGenId j.genId } := by
  have hslots := hj.slots
  have hlt := gap_le hslots.head_lt hslots.tail_lt
  obtain ⟨M, hrun⟩ :=
    recoverUndoLoop_eq hw hslots hslots.tail_lt (show _ < j.jsize / 64 + 1 by omega) fun _ _ _ =>
      rfl
  rw [← hslots.tail] at hrun
  rw [pmfsRecoverUndoJournal, LOGENTRY_SIZE, hrun]
  exact ⟨_, rfl⟩

/-- A journal of 64K whose last four slots hold a committed transaction and an open one of the last
generation, of two entries each. -/
def crashedJournal : PmfsJournal :=
  ⟨65536, 64 * 1020, 0, 1, false, 0, fun o =>
    ⟨o, 5, 65535, if o = 64 * 1021 then 2 else if o % 128 = 0 then 1 else 0, 1,
      Vector.replicate 48 7⟩, 0⟩

theorem recovery_restores_crashed : ∃ M, pmfsRecoverUndoJournal crashedJournal =
    some { crashedJournal with
    log := M, mem := restored [crashedJournal.log (64 * 1022), crashedJournal.log (64 * 1023)] 0,
    head := 0, genId := 2 } :=
  recovery_restores ⟨⟨16, by decide, by decide, rfl⟩, by decide, by decide, by decide, by decide⟩
    (.region (s := 1022) (n := 1) (l := []) (by decide) rfl (by constructor <;> decide)
      (.region (s := 1020) (n := 1) (l := []) (by decide) rfl (by constructor <;> decide) .empty))

end Pmfs.Journal.Recovery
