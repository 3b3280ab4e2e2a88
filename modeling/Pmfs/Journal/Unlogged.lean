import Pmfs.Journal.Recovery

/-! # Transactions that are never logged

The `return` for a null transaction in `pmfs_add_logentry` stands behind its braces, so that the
function fails before it writes an entry. However tasks open, commit and abort transactions and
store bytes, the cleaner runs and the machine goes down, the file system has just the bytes that
were stored (`nothing_restored`): no abort and no recovery takes one back. -/

namespace Pmfs.Journal.Unlogged

open Journal.Model Journal.Transaction Journal.Cleaner Journal.Sweep Journal.Request Journal.Full
  Journal.Recovery
open Lib.Bytes Lib.Ring

/-! ### The code -/

/-- `pmfs_add_logentry`: nothing stands before its `return -EINVAL` that could avoid it. -/
def pmfsAddLogentry (j : PmfsJournal) (_trans : Transaction) (_addr : ℕ) (_size : UInt16)
    (_type : UInt8) : PmfsJournal × ℤ := (j, -22)

/-- `pmfs_commit_transaction`. -/
def pmfsCommitTransaction (j : PmfsJournal) (trans : Transaction) : PmfsJournal :=
  (pmfsAddLogentry j trans 0 0 2).1

/-- `pmfs_abort_transaction`. -/
def pmfsAbortTransaction (j : PmfsJournal) (trans : Transaction) : Option PmfsJournal :=
  (if j.redoLog then some j.mem
    else pmfsUndoTransaction j.log trans.genId trans.start trans.numUsed j.mem).map fun mem =>
    (pmfsAddLogentry { j with mem := mem } trans 0 0 4).1

/-- `pmfs_journal_hard_init`, with what the device held before. -/
def pmfsJournalHardInit (log : Log) (mem : Mem) (size : ℕ) : PmfsJournal :=
  ⟨size, 0, 0, 1, false, 0, fun o => if o < size then blankEntry else log o, mem⟩

/-- `pmfs_recover_journal` for an undo log. -/
def pmfsRecoverJournal (j : PmfsJournal) : Option PmfsJournal :=
  if j.head = j.tail then some j else pmfsRecoverUndoJournal j

/-- What any order of calls, stores and crashes leads to from a new journal: the journal, the
transactions that are running, and the bytes of the file system by the stores alone. -/
inductive Reached : PmfsJournal → List Transaction → Mem → Prop
  | init {k : ℕ} (hk : 16 ≤ k ∧ k < 32) (log : Log) (m : Mem) :
      Reached (pmfsJournalHardInit log m (2 ^ k)) [] m
  | start {j j' l l' m n alloc r} (h : Reached j l m)
      (hrun : pmfsNewTransaction j n alloc = some (j', r)) (hl : ∀ trans ∈ l', r = .granted trans ∨
      trans ∈ l) : Reached j' l' m
  | log {j l m} (h : Reached j l m) (trans : Transaction) (addr : ℕ) (size : UInt16)
      (type : UInt8) : Reached (pmfsAddLogentry j trans addr size type).1 l m
  | store {j l m} (h : Reached j l m) (addr : ℕ) (data : List UInt8) :
      Reached { j with mem := putBytes j.mem addr data } l (putBytes m addr data)
  | commit {j l m trans} (h : Reached j l m) (hl : trans ∈ l) :
      Reached (pmfsCommitTransaction j trans) (l.erase trans) m
  | abort {j j' l m trans} (h : Reached j l m) (hl : trans ∈ l)
      (hrun : pmfsAbortTransaction j trans = some j') : Reached j' (l.erase trans) m
  | clean {j l m r} (h : Reached j l m) (hrun : pmfsCleanJournal j = some r) : Reached r.1 l m
  | crash {j j' l m} (h : Reached j l m)
      (hrun : pmfsRecoverJournal { j with nextTransactionId := 0 } = some j') : Reached j' [] m

/-! ### A log without entries -/

variable {L : Log} {j j' : PmfsJournal} {m : Mem} {r : NewTransaction}
  {l : List Transaction} {N h t k n : ℕ}

/-- No slot of the ring has a generation. -/
def Blank (N : ℕ) (L : Log) : Prop := ∀ x < N, (L (64 * x)).genId = 0

theorem Blank.invalidate (hb : Blank N L) (o : ℕ) : Blank N (invalidateGenId L o) := fun x hx => by
  by_cases ho : 64 * x = o
  · rw [ho, invalidateGenId, Function.update_self]
  · rw [invalidateGenId_of_ne ho, hb x hx]

theorem Blank.skip (hb : Blank N L) (o : ℕ) (c : Prop) [Decidable c] :
    Blank N (if c then invalidateGenId L o else L) := by
  split_ifs
  exacts [hb.invalidate o, hb]

theorem Blank.invalidates : ∀ {n o : ℕ} {L : Log}, Blank N L →
    Blank N (pmfsInvalidateLogentries n o L)
  | 0, _, _, hb => hb
  | n + 1, o, _, hb => Blank.invalidates (n := n) (hb.invalidate o)

theorem Blank.pass : ∀ {f x : ℕ} {g : UInt16} {L : Log}, x < N → g ≠ 0 → Blank N L →
    Blank N (Sweep.pass N t f x g L).log
  | 0, _, _, _, _, _, hb => hb
  | f + 1, x, g, L, hx, hg, hb => by
    by_cases hne : x = t
    · rw [hne, pass_done]
      exact hb
    rw [pass_skip hne fun hs => hg (hs.1.symm.trans (hb x hx))]
    refine Blank.pass (ahead_lt hx (by omega)) ?_ (hb.skip _ _)
    unfold turn
    split_ifs
    exacts [nextGenId_ne_zero g, hg]

theorem prevGenId_ne_zero (g : UInt16) : prevGenId g ≠ 0 := by
  unfold prevGenId
  split_ifs with h
  exacts [by decide, h]

theorem Blank.recover : ∀ {f t : ℕ} {g : UInt16} {j : PmfsJournal}, InSlots N h k j → t < N →
    gap N h t < f → g ≠ 0 → Blank N j.log → ∃ L, recoverUndoLoop f (64 * t) g j =
    some { j with log := L } ∧ Blank N L
  | f + 1, t, g, j, hj, hlt, hf, hg, hb => by
    by_cases ht : t = h
    · exact ⟨j.log, by rw [recoverUndoLoop, if_pos (by rw [hj.head, ht])], hb⟩
    have hgap := gap_prev hj.head_lt hlt ht
    have hback : back g t ≠ 0 := by
      unfold back
      split_ifs
      exacts [prevGenId_ne_zero g, hg]
    rw [recoverUndoLoop_succ hj ht, hb _ (prev_lt hlt), if_neg hback]
    exact Blank.recover ⟨hj.1, hj.2, hj.3, hj.4, hj.5⟩ (prev_lt hlt) (by omega) hback
      (hb.skip _ _)

/-! ### Runs -/

/-- A journal without entries, of a file system with the bytes `m`. -/
structure Quiet (m : Mem) (j : PmfsJournal) : Prop where
  inRing : InRing j
  blank : Blank (j.jsize / 64) j.log
  gen : j.genId ≠ 0
  mem : j.mem = m

theorem Quiet.swept (hq : Quiet m j) : Quiet m (swept j) := by
  refine ⟨inRing_swept hq.inRing, hq.blank.pass hq.inRing.slots.head_lt ?_, hq.gen, hq.mem⟩
  split_ifs
  exacts [prevGenId_ne_zero _, hq.gen]

theorem Quiet.sweeps (hq : Quiet m j) : ∀ k, Quiet m (sweeps j k)
  | 0 => hq
  | k + 1 => by
    rw [sweeps_succ]
    exact (hq.sweeps k).swept

theorem Quiet.numbered (hq : Quiet m j) (i : UInt32) : Quiet m { j with nextTransactionId := i } :=
  ⟨inRing_nextTransactionId hq.inRing i, hq.blank, hq.gen, hq.mem⟩

theorem Quiet.again {a i} : ∀ {f t : ℕ} {j : PmfsJournal}, Quiet m j → 64 ∣ t →
    againLoop a n i f t j = some (j', r) → Quiet m j' ∧ ∀ trans, r = .granted trans →
    trans.numUsed = 0
  | f + 1, t, j, hq, ht, hrun => by
    by_cases href : Refused (availSize j.jsize a t) (reqSize n) j
    · rw [again_refused hq.inRing href] at hrun
      cases hrun
      exact ⟨hq.sweeps 3, by simp⟩
    have hs := hq.sweeps (tries (availSize j.jsize a t) (reqSize n) j)
    rcases le_or_gt j.jsize ((t + reqSize n) % 2 ^ 32) with hend | hend
    · rw [again_turn hq.inRing href hend] at hrun
      exact Quiet.again ⟨inRing_turned hs.inRing, hs.blank, nextGenId_ne_zero _,
        hs.mem⟩ (Nat.dvd_zero _) hrun
    · rw [again_granted hq.inRing href hend] at hrun
      cases hrun
      refine ⟨⟨⟨hs.1.1, hs.1.2, hs.1.3, ?_, ?_⟩, hs.blank, hs.gen, hs.mem⟩,
        fun trans ht => by cases ht; rfl⟩
      · simpa using hend
      · have hreq : 64 ∣ reqSize n := by
          rw [reqSize, Nat.shiftLeft_eq]
          omega
        show 64 ∣ (t + reqSize n) % 2 ^ 32
        omega

theorem Quiet.recovered (hq : Quiet m j) : ∃ j', pmfsRecoverJournal j = some j' ∧ Quiet m j' := by
  unfold pmfsRecoverJournal
  split_ifs with hne
  · exact ⟨j, rfl, hq⟩
  have hslots := hq.inRing.slots
  have hlt := gap_le hslots.head_lt hslots.tail_lt
  obtain ⟨L, hrun, hb⟩ :=
    hq.blank.recover hslots hslots.tail_lt (show _ < j.jsize / 64 + 1 by omega) hq.gen
  rw [← hslots.tail] at hrun
  refine ⟨_, by rw [pmfsRecoverUndoJournal, LOGENTRY_SIZE, hrun]; rfl, ?_⟩
  have hp := hq.inRing
  refine ⟨⟨hp.1, hp.4, hp.5, hp.4, hp.5⟩, ?_, nextGenId_ne_zero _, hq.mem⟩
  dsimp only [pmfsForwardJournal]
  split_ifs
  exacts [hb.invalidates, hb]

theorem abort_unused {trans : Transaction} (h : trans.numUsed = 0) :
    pmfsAbortTransaction j trans = some j := by
  rw [pmfsAbortTransaction, h, pmfsUndoTransaction, ite_self]
  rfl

theorem Reached.quiet (h : Reached j l m) : Quiet m j ∧ ∀ trans ∈ l, trans.numUsed = 0 := by
  induction h with
  | @init k hk log m =>
    have hpos := Nat.two_pow_pos k
    refine ⟨⟨⟨⟨k, hk.1, hk.2, rfl⟩, hpos, Nat.dvd_zero _, hpos, Nat.dvd_zero _⟩, fun x hx => ?_,
      show (1 : UInt16) ≠ 0 by decide, rfl⟩, by simp⟩
    change x < 2 ^ k / 64 at hx
    exact congrArg _ (if_pos (show 64 * x < 2 ^ k by omega))
  | @start j _ _ _ _ _ alloc _ _ hrun hl ih =>
    rcases alloc with - | -
    · cases hrun
      exact ⟨ih.1, fun trans htrans => (hl trans htrans).elim (by simp) (ih.2 trans)⟩
    · obtain ⟨hq, hr⟩ := (ih.1.numbered (j.nextTransactionId + 1)).again ih.1.inRing.tail_dvd hrun
      exact ⟨hq, fun trans htrans => (hl trans htrans).elim (hr trans) (ih.2 trans)⟩
  | log _ _ _ _ _ ih => exact ih
  | store _ addr data ih =>
    obtain ⟨⟨h1, h2, h3, rfl⟩, hl⟩ := ih
    exact ⟨⟨⟨h1.1, h1.2, h1.3, h1.4, h1.5⟩, h2, h3, rfl⟩, hl⟩
  | commit _ _ ih => exact ⟨ih.1, fun t ht => ih.2 t (List.mem_of_mem_erase ht)⟩
  | @abort j j' l m trans _ hl hrun ih =>
    cases (abort_unused (ih.2 trans hl)).symm.trans hrun
    exact ⟨ih.1, fun t ht => ih.2 t (List.mem_of_mem_erase ht)⟩
  | clean _ hrun ih =>
    obtain ⟨_, hsweep⟩ := sweep_eq ih.1.inRing
    cases hsweep.symm.trans hrun
    exact ⟨ih.1.swept, ih.2⟩
  | crash _ hrun ih =>
    obtain ⟨_, hrec, hq⟩ := (ih.1.numbered 0).recovered
    cases hrec.symm.trans hrun
    exact ⟨hq, by simp⟩

/-- **Main result.** The bytes are those that were stored, and recovery ends and leaves them. -/
theorem nothing_restored (h : Reached j l m) : j.mem = m ∧ ∃ j', pmfsRecoverJournal j = some j' ∧
    j'.mem = m := by
  obtain ⟨j', hrec, hq⟩ := h.quiet.1.recovered
  exact ⟨h.quiet.1.mem, j', hrec, hq.mem⟩

/-- The byte stored in a transaction stays when the transaction is aborted and the machine goes
down. -/
theorem nothing_restored_abort : ∃ trans j j' j'' m, Reached j [trans] m ∧ m 4096 = 7 ∧
    pmfsAbortTransaction j trans = some j' ∧
    pmfsRecoverJournal { j' with nextTransactionId := 0 } = some j'' ∧ j''.mem = m := by
  have hinit := Reached.init (k := 16) (by decide) (fun _ => blankEntry) 0
  obtain ⟨⟨j1, r⟩, hgrant, hr⟩ : ∃ r ∈ pmfsNewTransaction
      (pmfsJournalHardInit (fun _ => blankEntry) 0 (2 ^ 16)) 5 true, r.2 matches .granted _ := by
    decide +kernel
  cases r with
  | granted trans =>
    have hopen : Reached j1 [trans] _ := hinit.start hgrant (by simp)
    have hstored := hopen.store 4096 [7]
    have habort := abort_unused (j := { j1 with mem := putBytes j1.mem 4096 [7] })
      (hstored.quiet.2 trans (by simp))
    have hclosed := hstored.abort (by simp) habort
    obtain ⟨j'', hrec, -⟩ := (hclosed.quiet.1.numbered 0).recovered
    exact ⟨trans, _, _, j'', _, hstored, rfl, habort, hrec,
      (nothing_restored (hclosed.crash hrec)).1⟩
  | _ => simp at hr

end Pmfs.Journal.Unlogged
