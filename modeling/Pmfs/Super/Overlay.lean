import Pmfs.Journal.Unlogged
import Pmfs.Super.Integrity

/-! # The journal header over the super block

`pmfs_get_journal` does not add `s_journal_offset`, so that `pmfs_journal_hard_init` stores the
journal header over the first fields of the super block. The high half of the first word of the
header, the `base` of 4096, is the magic number. `pmfs_init` then copies that to the redundant super
block, and no later store to the header brings the magic number back (`format_never_mounts`). -/

namespace Pmfs.Super.Overlay

open Lib.Bytes Super.Model Super.Integrity
open Inodes.Model (pmfsCheckSize)

variable {crc16 : Crc16} {m m' image table blocks : Mem} {now size jsize numInodes p : ℕ}

/-- Neither copy of the super block has the magic number. -/
def Unmagic (m : Mem) : Prop := sMagic m 0 = 0 ∧ sMagic m PMFS_SB_SIZE = 0

theorem unmagic_congr (h : ∀ i < 648, i < 4 ∨ 512 ≤ i → m' i = m i) (hm : Unmagic m) :
    Unmagic m' := by
  unfold Unmagic sMagic PMFS_SB_SIZE at hm ⊢
  rw [le_congr fun i h1 h2 => h i (by omega) (by omega), le_congr fun i h1 h2 =>
    h i (by omega) (by omega)]
  exact hm

/-- What `pmfs_journal_hard_init` stores is the journal that `Journal` begins with. -/
theorem hardInit_header (log : Journal.Model.Log) (mem : Mem) {ps base : ℕ} (hsize : size < 2 ^ 32)
    (hbase : ps + 26 ≤ base) :
    let h := pmfsJournalHardInit m ps base size
    let j := Journal.Unlogged.pmfsJournalHardInit log mem size
    le h (ps + 8) 4 = j.jsize ∧ le h (ps + 12) 4 = j.head ∧ le h (ps + 16) 4 = j.tail ∧
      le h (ps + 20) 2 = j.genId.toNat ∧ (le h (ps + 24) 2 ≠ 0 ↔ j.redoLog = true) ∧
      ∀ i < size, h (base + i) = 0 := by
  have hclear : ∀ (m : Mem) {a n : ℕ}, a + n ≤ base → le (clear m base size) a n = le m a n :=
    fun m _ _ h => le_congr fun i _ _ => copy_of_not_mem (by omega)
  unfold pmfsJournalHardInit pmfsGetJournal Journal.Unlogged.pmfsJournalHardInit
  dsimp only
  refine ⟨?_, ?_, ?_, ?_, ?_, fun i hi => copy_of_mem (by omega) (by omega)⟩
  · rw [hclear _ (by omega), le_put_of_disjoint (by omega), le_put_of_disjoint (by omega),
      le_put_of_disjoint (by omega), le_put_of_disjoint (by omega), le_put_of_lt hsize]
  · rw [hclear _ (by omega), le_put_of_disjoint (by omega), le_put_of_lt (by decide)]
  · rw [hclear _ (by omega), le_put_of_disjoint (by omega), le_put_of_disjoint (by omega),
      le_put_of_lt (by decide)]
  · rw [hclear _ (by omega), le_put_of_disjoint (by omega), le_put_of_disjoint (by omega),
      le_put_of_disjoint (by omega), le_put_of_lt (by decide)]
    rfl
  · rw [hclear _ (by omega), le_put_of_lt (by decide)]
    decide

/-- The header of the journal has a zero where the magic number is. -/
theorem hardInit_sMagic (m : Mem) (jsize : ℕ) :
    sMagic (pmfsJournalHardInit m 0 4096 jsize) 0 = 0 := by
  have hbase : sMagic (put m 0 8 4096) 0 = 0 := by
    unfold sMagic
    simp only [le]
    rw [put_of_mem (by omega) (by omega), put_of_mem (by omega) (by omega)]
    decide
  refine (le_congr ?_).trans hbase
  intro i h1 h2
  unfold pmfsJournalHardInit pmfsGetJournal clear
  rw [copy_of_not_mem (by omega), put_of_not_mem (by omega), put_of_not_mem (by omega),
    put_of_not_mem (by omega), put_of_not_mem (by omega), put_of_not_mem (by omega)]

/-- The inode of the inode table lies further on. -/
theorem table_sMagic (m table : Mem) (jsize : ℕ) :
    sMagic (copy (pmfsJournalHardInit m 0 4096 jsize) 256 table 80) 0 = 0 := by
  refine (le_congr ?_).trans (hardInit_sMagic m jsize)
  intro i h1 h2
  exact copy_of_not_mem (by omega)

/-- `pmfs_sync_super` makes the redundant copy agree with the super block. -/
theorem sync_unmagic (h : sMagic m 0 = 0) : Unmagic (pmfsSyncSuper crc16 now m 0) := by
  have hprimary : sMagic (pmfsSyncSuper crc16 now m 0) 0 = 0 := by
    refine (le_congr ?_).trans h
    intro i h1 h2
    have hi := sync_static crc16 now m 0 i (by omega) (by omega)
    rwa [Nat.zero_add] at hi
  refine ⟨hprimary, (sMagic_of_static (static_congr ?_)).trans hprimary⟩
  intro i hi
  unfold pmfsSyncSuper PMFS_SB_SIZE sizeofSuper
  rw [copy_of_mem (by omega) (by omega), copy_of_not_mem (by omega), Nat.zero_add, Nat.zero_add,
    Nat.add_sub_cancel_left]

theorem init_unmagic (h : pmfsInit crc16 now table blocks m size jsize numInodes = some image) :
    Unmagic image := by
  have hblocks : ∀ m', sMagic m' 0 = 0 →
      Unmagic fun i => if i < 4096 + jsize then pmfsSyncSuper crc16 now m' 0 i else blocks i := by
    intro m' hm'
    exact unmagic_congr (fun i hi _ => if_pos (by omega)) (sync_unmagic hm')
  unfold pmfsInit at h
  split_ifs at h with hsize
  cases h
  exact hblocks _ (table_sMagic _ table jsize)

theorem store_unmagic (h : Unmagic m) (s : HeaderStore) : Unmagic (s.apply 0 m) := by
  refine unmagic_congr ?_ h
  intro i hi hout
  unfold HeaderStore.apply pmfsGetJournal
  rcases s with o | o | g
  all_goals exact put_of_not_mem (by omega)

theorem stores_unmagic (l : List HeaderStore) : ∀ {m : Mem}, Unmagic m →
    Unmagic (l.foldl (HeaderStore.apply 0) m) := by
  induction l with
  | nil => exact fun h => h
  | cons s l ih => exact fun h => ih (store_unmagic h s)

/-- **Main result.** After formatting, and after any further stores to the journal header, the super
block has lost its magic number, and the integrity check refuses the image. -/
theorem format_never_mounts (crc16 : Crc16) (now now' : ℕ) (table blocks m : Mem)
    (size jsize numInodes : ℕ) (hsize : pmfsCheckSize size jsize numInodes = true) :
    ∃ image, pmfsInit crc16 now table blocks m size jsize numInodes = some image ∧
      ∀ l : List HeaderStore, sMagic (l.foldl (HeaderStore.apply 0) image) 0 ≠ PMFS_SUPER_MAGIC ∧
        (pmfsCheckIntegrity crc16 now' true (l.foldl (HeaderStore.apply 0) image) 0).2 = false := by
  obtain ⟨image, himage⟩ : ∃ image, pmfsInit crc16 now table blocks m size jsize numInodes =
    some image :=
    ⟨_, if_pos hsize⟩
  refine ⟨image, himage, ?_⟩
  intro l
  obtain ⟨h1, h2⟩ := stores_unmagic l (init_unmagic himage)
  have hne : sMagic (l.foldl (HeaderStore.apply 0) image) 0 ≠ PMFS_SUPER_MAGIC := by
    rw [h1]
    decide
  refine ⟨hne, ?_⟩
  rw [check_refused hne (by rw [Nat.zero_add, h2]; decide)]

theorem format_never_mounts_small : pmfsCheckSize 2097152 65536 0 = true ∧
    ∃ image, pmfsInit (fun _ _ => 0) 0 0 0 0 2097152 65536 0 = some image ∧
      ∀ l : List HeaderStore, sMagic (l.foldl (HeaderStore.apply 0) image) 0 ≠ PMFS_SUPER_MAGIC ∧
        (pmfsCheckIntegrity (fun _ _ => 0) 0 true (l.foldl (HeaderStore.apply 0) image) 0).2 =
        false :=
  ⟨by decide, format_never_mounts (fun _ _ => 0) 0 0 0 0 0 2097152 65536 0 (by decide)⟩

/-- A formatted image of 2M: the magic number and the block size are gone. -/
theorem small_format_loses_magic :
    (pmfsInit (fun _ _ => 0) 0 0 0 0 2097152 65536 0).map (fun m => (sMagic m 0, sBlocksize m 0,
    sMagic m 512)) =
      some (0, 0, 0) := by
  decide +kernel

end Pmfs.Super.Overlay
