import Pmfs.Inodes.Model
import Pmfs.Lib.Bytes

/-! # The super block on the medium

The super block lies at the start of the image, a redundant copy of it `PMFS_SB_SIZE` bytes further
on. The fields up to `s_start_dynamic` are static and covered by the checksum in the first two
bytes. `crc16` is a function of the kernel, here an argument. The accessor `pmfs_get_journal`
returns the address of the super block itself, so the fields of the journal header have the same
addresses. Flushes and write protection do not change bytes and are left out, the time of a store is
an argument. -/

namespace Pmfs.Super.Model

open Lib.Bytes
open Inodes.Model (pmfsCheckSize)

abbrev Mem := ℕ → UInt8

/-- The checksum function: the checksum so far and the bytes to add. -/
abbrev Crc16 := UInt16 → List UInt8 → UInt16

def PMFS_SUPER_MAGIC : ℕ := 0xEFFC

def PMFS_SB_SIZE : ℕ := 512

/-- The offset of `s_start_dynamic`. -/
def PMFS_SB_STATIC_SIZE : ℕ := 48

/-- `sizeof(struct pmfs_super_block)`. -/
def sizeofSuper : ℕ := 136

/-! ### Fields of the super block at `ps` -/

def sSum (m : Mem) (ps : ℕ) : ℕ := le m ps 2

def sMagic (m : Mem) (ps : ℕ) : ℕ := le m (ps + 2) 2

def sBlocksize (m : Mem) (ps : ℕ) : ℕ := le m (ps + 4) 4

/-- The bytes that the checksum covers, with the checksum itself. -/
def static (m : Mem) (ps : ℕ) : List UInt8 := bytes m ps PMFS_SB_STATIC_SIZE

/-! ### Checksums -/

/-- `pmfs_calc_checksum`: true when the sum that is stored in the first two bytes is wrong. -/
def pmfsCalcChecksum (crc16 : Crc16) (m : Mem) (data n : ℕ) : Bool :=
  le m data 2 ≠ (crc16 0xFFFF (bytes m (data + 2) (n - 2))).toNat

/-- `pmfs_sync_super`. -/
def pmfsSyncSuper (crc16 : Crc16) (now : ℕ) (m : Mem) (ps : ℕ) : Mem :=
  let m := put m (ps + 60) 4 now
  let m := put m ps 2 0
  let crc := crc16 0xFFFF (bytes m (ps + 2) (PMFS_SB_STATIC_SIZE - 2))
  let m := put m ps 2 crc.toNat
  copy m (ps + PMFS_SB_SIZE) (fun i => m (ps + i)) sizeofSuper

/-- The repair in `pmfs_check_integrity`: the redundant copy replaces the super block, and
`pmfs_memlock_super` syncs it when there is a `sb`. -/
def repairSuper (crc16 : Crc16) (now : ℕ) (sb : Bool) (m : Mem) (super : ℕ) : Mem :=
  let m := copy m super (fun i => m (super + PMFS_SB_SIZE + i)) sizeofSuper
  if sb then pmfsSyncSuper crc16 now m super else m

/-- `pmfs_check_integrity`, with the memory that it leaves. -/
def pmfsCheckIntegrity (crc16 : Crc16) (now : ℕ) (sb : Bool) (m : Mem) (super : ℕ) : Mem × Bool :=
  let superRedund := super + PMFS_SB_SIZE
  if sMagic m super ≠ PMFS_SUPER_MAGIC ∧ sMagic m superRedund ≠ PMFS_SUPER_MAGIC then (m, false)
  else
    let m := if sMagic m super ≠ PMFS_SUPER_MAGIC then repairSuper crc16 now sb m super else m
    if pmfsCalcChecksum crc16 m super PMFS_SB_STATIC_SIZE then
      if pmfsCalcChecksum crc16 m superRedund PMFS_SB_STATIC_SIZE then (m, false)
      else (repairSuper crc16 now sb m super, true)
    else (m, true)

/-! ### The journal header -/

/-- `pmfs_get_journal`, for a super block at `ps`. -/
def pmfsGetJournal (ps : ℕ) : ℕ := ps

/-- `pmfs_journal_hard_init`: the fields `base`, `size`, `gen_id`, `tail`, `head` and
`redo_logging`, and the log. -/
def pmfsJournalHardInit (m : Mem) (ps base size : ℕ) : Mem :=
  let journal := pmfsGetJournal ps
  let m := put m journal 8 base
  let m := put m (journal + 8) 4 size
  let m := put m (journal + 20) 2 1
  let m := put m (journal + 16) 4 0
  let m := put m (journal + 12) 4 0
  let m := put m (journal + 24) 2 0
  clear m base size

/-- The stores to the header in `pmfs_clean_journal` and `pmfs_new_transaction`. -/
inductive HeaderStore where
  /-- `pmfs_clean_journal` moves the head. -/
  | head (offset : ℕ)
  /-- `pmfs_new_transaction` moves the tail. -/
  | tail (offset : ℕ)
  /-- `pmfs_new_transaction` sets the tail to zero and the generation, in one store of 8 bytes. -/
  | wrap (genId : UInt16)

def HeaderStore.apply (ps : ℕ) (m : Mem) : HeaderStore → Mem
  | .head o => put m (pmfsGetJournal ps + 12) 4 o
  | .tail o => put m (pmfsGetJournal ps + 16) 4 o
  | .wrap g => put m (pmfsGetJournal ps + 16) 8 (g.toNat <<< 32)

/-! ### Formatting -/

/-- `pmfs_init`. The inode of the inode table, behind the journal header at `s_inode_table_offset`,
is taken from `table`, and what the function stores in blocks is taken from `blocks`: all blocks
that it allocates lie behind the journal. -/
def pmfsInit (crc16 : Crc16) (now : ℕ) (table blocks m : Mem) (size jsize numInodes : ℕ) :
    Option Mem :=
  if pmfsCheckSize size jsize numInodes then
    let m := clear m 0 4096
    let m := put m 8 8 size
    let m := put m 4 4 4096
    let m := put m 2 2 PMFS_SUPER_MAGIC
    let m := put m 32 8 192
    let m := put m 40 8 256
    let m := put m 96 8 0
    let m := put m 104 8 1
    let m := put m 112 8 1
    let m := put m 120 8 1
    let m := put m 128 8 0
    let m := pmfsJournalHardInit m 0 4096 jsize
    let m := copy m 256 table 80
    let m := pmfsSyncSuper crc16 now m 0
    some fun i => if i < 4096 + jsize then m i else blocks i
  else none

end Pmfs.Super.Model
