import Pmfs.Lib.Bytes
import Mathlib.Data.UInt
import Mathlib.Logic.Function.Basic

/-! # The journal

The journal of `journal.c` is a ring of log entries of 64 bytes. `journal->head` and `journal->tail`
are byte offsets in it, and so are the pointers to log entries here: `log` has the entry at each
offset from `journal_base_addr` on, also behind the end of the ring, where other data of the device
lie. `mem` are the bytes of the file system that entries are copied to.

A log entry is valid when its generation is that of the current pass over the ring. The cleaner
takes the transactions at the head that have ended; a transaction that is still open stops it.

Loops run on fuel, and `none` is a loop that does not end, a store through a null pointer, or a copy
of more bytes than an entry has. Flushes and barriers are left out. `examined` is no variable of the
source: it lists the entries that `pmfs_process_transaction` reads, by the offset that is read and
the offset in the ring that it stands for. -/

namespace Pmfs.Journal.Model

open Lib.Bytes

/-! ### Log entries -/

/-- `LOGENTRY_SIZE`. -/
def LOGENTRY_SIZE : ℕ := 64

/-- `MAX_GEN_ID`. -/
def MAX_GEN_ID : UInt16 := 65535

/-- `pmfs_logentry_t`. -/
structure LogEntry where
  addrOffset : ℕ
  transactionId : UInt32
  genId : UInt16
  type : UInt8
  size : UInt8
  data : Vector UInt8 48
deriving DecidableEq

/-- `le->type & LE_START`. -/
def LogEntry.isStart (le : LogEntry) : Bool := le.type &&& 1 != 0

/-- `le->type & LE_COMMIT`. -/
def LogEntry.isCommit (le : LogEntry) : Bool := le.type &&& 2 != 0

/-- `le->type & LE_ABORT`. -/
def LogEntry.isAbort (le : LogEntry) : Bool := le.type &&& 4 != 0

/-- The log entries, by their offsets. -/
abbrev Log := ℕ → LogEntry

/-- The bytes of the file system. -/
abbrev Mem := ℕ → UInt8

/-- `memcpy(data, le->data, le->size)`, `data` being `pmfs_get_block` of `addr_offset`. -/
def copyData (le : LogEntry) (mem : Mem) : Option Mem :=
  if le.addrOffset = 0 ∨ 48 < le.size.toNat then none
  else some (putBytes mem le.addrOffset (le.data.toList.take le.size.toNat))

/-- `next_log_entry`. -/
def nextLogEntry (jsize leOff : ℕ) : ℕ :=
  if leOff + LOGENTRY_SIZE ≥ jsize then 0 else leOff + LOGENTRY_SIZE

/-- `next_gen_id`. -/
def nextGenId (genId : UInt16) : UInt16 := if genId + 1 = 0 then 1 else genId + 1

/-- `prev_gen_id`. -/
def prevGenId (genId : UInt16) : UInt16 := if genId - 1 = 0 then MAX_GEN_ID else genId - 1

/-- `invalidate_gen_id`. -/
def invalidateGenId (log : Log) (le : ℕ) : Log := Function.update log le { log le with genId := 0 }

/-- `pmfs_invalidate_logentries`, for the number of entries given from `le` on. -/
def pmfsInvalidateLogentries : ℕ → ℕ → Log → Log
  | 0, _, log => log
  | n + 1, le, log => pmfsInvalidateLogentries n (le + LOGENTRY_SIZE) (invalidateGenId log le)

/-- The journal: the fields of `pmfs_journal_t`, and those of `pmfs_sb_info` that belong to it. -/
structure PmfsJournal where
  jsize : ℕ
  head : ℕ
  tail : ℕ
  genId : UInt16
  redoLog : Bool
  nextTransactionId : UInt32
  log : Log
  mem : Mem

/-! ### Cleaning -/

/-- `pmfs_redo_transaction` for the number of entries given from `le` on. Without `recover` it only
flushes. -/
def pmfsRedoTransaction (log : Log) (genId : UInt16) (recover : Bool) : ℕ → ℕ → Mem → Option Mem
  | 0, _, mem => some mem
  | n + 1, le, mem =>
    if recover ∧ (log le).genId = genId ∧ (log le).size > 0 then
      (copyData (log le) mem).bind (pmfsRedoTransaction log genId recover n (le + LOGENTRY_SIZE))
    else pmfsRedoTransaction log genId recover n (le + LOGENTRY_SIZE) mem

/-- What `pmfs_process_transaction` returns and leaves. -/
structure Processed where
  head : ℕ
  processed : ℕ
  log : Log
  mem : Mem
  examined : List (ℕ × ℕ)

/-- The loop of `pmfs_process_transaction` for the transaction at `start`. `n` entries have been
handled; the transaction counts them in 16 bits. -/
def processLoop (j : PmfsJournal) (recover : Bool) (genId : UInt16) (start : ℕ) :
    ℕ → ℕ → ℕ → ℕ → Option Processed
  | 0, _, _, _ => none
  | fuel + 1, le, newHead, n =>
    let next := nextLogEntry j.jsize newHead
    let wiped : Log :=
      if genId = MAX_GEN_ID then pmfsInvalidateLogentries ((n + 1) % 2 ^ 16) start j.log else j.log
    let opened (examined : List (ℕ × ℕ)) : Processed :=
      if recover then ⟨next, n + 1, wiped, j.mem, examined⟩
      else ⟨j.head, n + 1, j.log, j.mem, examined⟩
    if (j.log le).genId = genId ∧ ((j.log le).isCommit ∨ (j.log le).isAbort) then
      (if (j.log le).isCommit ∧ j.redoLog then
        pmfsRedoTransaction j.log genId recover ((n + 1) % 2 ^ 16) start j.mem
      else some j.mem).map fun mem => ⟨next, n + 1, wiped, mem, [(le, newHead)]⟩
    else if next = j.tail then some (opened [(le, newHead)])
    else if (j.log (le + LOGENTRY_SIZE)).genId = genId ∧ (j.log (le + LOGENTRY_SIZE)).isStart then
      some (opened [(le, newHead), (le + LOGENTRY_SIZE, next)])
    else
      (processLoop j recover genId start fuel (le + LOGENTRY_SIZE) next (n + 1)).map fun r =>
        { r with examined := (le, newHead) :: (le + LOGENTRY_SIZE, next) :: r.examined }

/-- `pmfs_process_transaction` for the entry at `head` of `j`, which is the argument `head` of the
function. -/
def pmfsProcessTransaction (j : PmfsJournal) (recover : Bool) : Option Processed :=
  if (j.log j.head).isStart then
    processLoop j recover (j.log j.head).genId j.head (j.jsize / LOGENTRY_SIZE) j.head j.head 0
  else some ⟨nextLogEntry j.jsize j.head, 0, j.log, j.mem, [(j.head, j.head)]⟩

/-- The local variables of `pmfs_clean_journal`, with `head` as the head of `j`. -/
structure Cleaning where
  j : PmfsJournal
  genId : UInt16
  total : ℕ
  examined : List (ℕ × ℕ)

/-- The head moves; at the start of the ring the next generation begins. -/
def Cleaning.move (c : Cleaning) (head : ℕ) : Cleaning :=
  { c with
    j := { c.j with head := head }
    genId := if head = 0 then nextGenId c.genId else c.genId }

/-- The loop of `pmfs_clean_journal`. -/
def cleanLoop : ℕ → Cleaning → Option Cleaning
  | 0, _ => none
  | fuel + 1, c =>
    if c.j.head = c.j.tail then some c
    else if (c.j.log c.j.head).genId = c.genId then
      match pmfsProcessTransaction c.j false with
      | none => none
      | some r =>
        let c' : Cleaning := { c with
          j := { c.j with log := r.log }
          total := c.total + r.processed
          examined := c.examined ++ r.examined }
        if r.head = c.j.head then some c' else cleanLoop fuel (c'.move r.head)
    else
      let log := if c.genId = MAX_GEN_ID then invalidateGenId c.j.log c.j.head else c.j.log
      cleanLoop fuel
        ({ c with j := { c.j with log := log } }.move (nextLogEntry c.j.jsize c.j.head))

/-- `pmfs_clean_journal`: the journal, the number of entries handled, and those examined. -/
def pmfsCleanJournal (j : PmfsJournal) : Option (PmfsJournal × ℕ × List (ℕ × ℕ)) :=
  let genId := if j.tail < j.head then prevGenId j.genId else j.genId
  (cleanLoop (j.jsize / LOGENTRY_SIZE + 1) ⟨j, genId, 0, []⟩).map fun c =>
    (c.j, c.total, c.examined)

/-! ### New transactions -/

/-- `pmfs_transaction_t`, with the offset of its first entry for `start_addr`. -/
structure Transaction where
  transactionId : UInt32
  numEntries : ℕ
  numUsed : ℕ
  genId : UInt16
  start : ℕ
deriving DecidableEq

/-- The outcome of `pmfs_new_transaction`. -/
inductive NewTransaction where
  | granted (trans : Transaction)
  | enomem
  | eagain
deriving DecidableEq

/-- `pmfs_free_logentries`, as the `uint32_t` that it is added to. -/
def pmfsFreeLogentries (j : PmfsJournal) : Option (PmfsJournal × ℕ) :=
  (pmfsCleanJournal j).map fun r => (r.1, LOGENTRY_SIZE * r.2.1 % 2 ^ 32)

/-- The loop of `pmfs_new_transaction` that runs the cleaner, `n` times at most: the journal and
`freed_size`. -/
def retryLoop (reqSize availSize : ℕ) : ℕ → ℕ → PmfsJournal → Option (PmfsJournal × ℕ)
  | 0, freedSize, j => some (j, freedSize)
  | n + 1, freedSize, j =>
    (pmfsFreeLogentries j).bind fun r =>
      let freedSize := (freedSize + r.2) % 2 ^ 32
      if (availSize + freedSize) % 2 ^ 32 ≥ reqSize then some (r.1, freedSize)
      else retryLoop reqSize availSize n freedSize r.1

/-- `avail_size`, for offsets in the ring. -/
def availSize (jsize head tail : ℕ) : ℕ :=
  ((if tail ≥ head then jsize - (tail - head) else head - tail) + 2 ^ 32 - LOGENTRY_SIZE) % 2 ^ 32

/-- `pmfs_new_transaction` from `again` on, with its local variables `head` and `tail`. -/
def againLoop (head maxLogEntries : ℕ) (transactionId : UInt32) :
    ℕ → ℕ → PmfsJournal → Option (PmfsJournal × NewTransaction)
  | 0, _, _ => none
  | fuel + 1, tail, j =>
    let reqSize := maxLogEntries <<< 6 % 2 ^ 32
    let avail := availSize j.jsize head tail
    (if avail < reqSize then retryLoop reqSize avail 3 0 j else some (j, 0)).bind fun r =>
      if avail < reqSize ∧ (avail + r.2) % 2 ^ 32 < reqSize then some (r.1, .eagain)
      else if (tail + reqSize) % 2 ^ 32 ≥ j.jsize then
        againLoop head maxLogEntries transactionId fuel 0
          { r.1 with tail := 0, genId := nextGenId r.1.genId }
      else some ({ r.1 with tail := (tail + reqSize) % 2 ^ 32 },
        .granted ⟨transactionId, maxLogEntries % 2 ^ 16, 0, j.genId, tail⟩)

/-- `pmfs_new_transaction`, where `alloc` tells whether `pmfs_alloc_transaction` has memory. The
number of entries is a C `int`, given as the number of its 32 bits. -/
def pmfsNewTransaction (j : PmfsJournal) (maxLogEntries : ℕ) (alloc : Bool) :
    Option (PmfsJournal × NewTransaction) :=
  let maxLogEntries := if j.redoLog then maxLogEntries else (maxLogEntries + 1) % 2 ^ 32
  if alloc then
    againLoop j.head maxLogEntries j.nextTransactionId (2 * (j.jsize / LOGENTRY_SIZE) + 3) j.tail
      { j with nextTransactionId := j.nextTransactionId + 1 }
  else some (j, .enomem)

end Pmfs.Journal.Model
