import Pmfs.Super.Model

/-! # What the integrity check accepts

`pmfs_check_integrity` first looks at the magic number and only then at the checksum, and either
defect is repaired from the redundant copy. The repair computes the checksum anew:
`repairSuper_matches` says that a repaired super block always has the right sum. So a redundant copy
with the right magic number passes whatever its own sum is, when the super block has a wrong magic
number (`check_accepts_iff`). -/

namespace Pmfs.Super.Integrity

open Lib.Bytes Super.Model

variable {crc16 : Crc16} {m m' : Mem} {now p : ℕ}

/-- The sum that is stored in the super block at `ps` is the checksum of its static fields. -/
def Matches (crc16 : Crc16) (m : Mem) (ps : ℕ) : Prop :=
  sSum m ps = (crc16 0xFFFF (bytes m (ps + 2) 46)).toNat

theorem calcChecksum_eq_true : pmfsCalcChecksum crc16 m p PMFS_SB_STATIC_SIZE = true ↔
    ¬ Matches crc16 m p :=
  decide_eq_true_iff

/-! ### Static fields -/

theorem static_congr {q : ℕ} (h : ∀ i < 48, m' (p + i) = m (q + i)) : static m' p = static m q := by
  unfold static bytes
  refine List.map_congr_left ?_
  intro i hi
  exact h i (List.mem_range.mp hi)

theorem eq_of_static {q i : ℕ} (h : static m' p = static m q) (hi : i < 48) :
    m' (p + i) = m (q + i) := by
  have hget := congrArg (fun l => l[i]?) h
  simpa [static, bytes, PMFS_SB_STATIC_SIZE, hi] using hget

theorem sMagic_of_static {q : ℕ} (h : static m' p = static m q) : sMagic m' p = sMagic m q := by
  have h2 := eq_of_static h (i := 2) (by omega)
  have h3 := eq_of_static h (i := 3) (by omega)
  unfold sMagic
  simp only [le, Nat.add_assoc]
  rw [h2, h3]

theorem matches_of_static {q : ℕ} (h : static m' p = static m q) : Matches crc16 m' p ↔
    Matches crc16 m q := by
  have h0 := eq_of_static h (i := 0) (by omega)
  have h1 := eq_of_static h (i := 1) (by omega)
  have hsum : sSum m' p = sSum m q := by
    unfold sSum
    simp only [le]
    rw [show m' p = m q from h0, h1]
  have hbytes : bytes m' (p + 2) 46 = bytes m (q + 2) 46 := by
    refine List.map_congr_left ?_
    intro i hi
    have hlt := List.mem_range.mp hi
    rw [Nat.add_assoc, Nat.add_assoc]
    exact eq_of_static h (by omega)
  unfold Matches
  rw [hsum, hbytes]

/-! ### The repair -/

/-- The super block after `pmfs_sync_super`: the sum is computed, the other static fields stay. -/
theorem sync_static (crc16 : Crc16) (now : ℕ) (m : Mem) (p i : ℕ) (h1 : 2 ≤ i) (h2 : i < 48) :
    pmfsSyncSuper crc16 now m p (p + i) = m (p + i) := by
  unfold pmfsSyncSuper PMFS_SB_SIZE sizeofSuper
  rw [copy_of_not_mem (by omega), put_of_not_mem (by omega), put_of_not_mem (by omega),
    put_of_not_mem (by omega)]

theorem sync_bytes : bytes (pmfsSyncSuper crc16 now m p) (p + 2) 46 = bytes m (p + 2) 46 := by
  refine bytes_congr ?_
  intro i h1 h2
  have h := sync_static crc16 now m p (i - p) (by omega) (by omega)
  rwa [Nat.add_sub_cancel' (by omega)] at h

theorem sync_sum : sSum (pmfsSyncSuper crc16 now m p) p =
    (crc16 0xFFFF (bytes m (p + 2) 46)).toNat := by
  have hbytes : bytes (put (put m (p + 60) 4 now) p 2 0) (p + 2) 46 = bytes m (p + 2) 46 := by
    rw [bytes_put_of_disjoint (by omega), bytes_put_of_disjoint (by omega)]
  unfold sSum pmfsSyncSuper PMFS_SB_SIZE sizeofSuper PMFS_SB_STATIC_SIZE
  dsimp only
  rw [hbytes, le_congr fun i h1 h2 => copy_of_not_mem (by omega)]
  exact le_put_of_lt (UInt16.toNat_lt _)

theorem sync_matches : Matches crc16 (pmfsSyncSuper crc16 now m p) p := by
  unfold Matches
  rw [sync_sum, sync_bytes]

/-- Where the sum was right already, `pmfs_sync_super` does not change the static fields. -/
theorem sync_static_of_matches (h : Matches crc16 m p) :
    static (pmfsSyncSuper crc16 now m p) p = static m p := by
  refine static_congr ?_
  intro i hi
  by_cases hsum : i < 2
  · exact eq_of_le_eq (sync_sum.trans h.symm) i hsum
  · exact sync_static crc16 now m p i (by omega) hi

theorem copied_static : static (copy m p (fun i => m (p + PMFS_SB_SIZE + i)) sizeofSuper) p =
    static m (p + PMFS_SB_SIZE) := by
  refine static_congr ?_
  intro i hi
  rw [copy_of_mem (by omega) (by unfold sizeofSuper; omega), Nat.add_sub_cancel_left]

theorem repair_matches : Matches crc16 (repairSuper crc16 now true m p) p := sync_matches

/-- It has the magic number of the redundant copy. -/
theorem repair_sMagic : sMagic (repairSuper crc16 now true m p) p =
    sMagic m (p + PMFS_SB_SIZE) := by
  rw [← sMagic_of_static copied_static]
  refine le_congr ?_
  intro i h1 h2
  have h := sync_static crc16 now (copy m p (fun i => m (p + PMFS_SB_SIZE + i)) sizeofSuper) p
    (i - p) (by omega) (by omega)
  rwa [Nat.add_sub_cancel' (by omega)] at h

/-- With a right sum in the redundant copy, it has all the static fields of that copy. -/
theorem repair_static (h : Matches crc16 m (p + PMFS_SB_SIZE)) :
    static (repairSuper crc16 now true m p) p = static m (p + PMFS_SB_SIZE) :=
  (sync_static_of_matches ((matches_of_static copied_static).mpr h)).trans copied_static

/-! ### The check -/

theorem check_refused (h1 : sMagic m p ≠ PMFS_SUPER_MAGIC)
    (h2 : sMagic m (p + PMFS_SB_SIZE) ≠ PMFS_SUPER_MAGIC) :
    pmfsCheckIntegrity crc16 now true m p = (m, false) :=
  if_pos ⟨h1, h2⟩

/-- A wrong magic number is repaired, and the checksum then holds in any case. -/
theorem check_repaired (h1 : sMagic m p ≠ PMFS_SUPER_MAGIC)
    (h2 : sMagic m (p + PMFS_SB_SIZE) = PMFS_SUPER_MAGIC) : pmfsCheckIntegrity crc16 now true m p =
    (repairSuper crc16 now true m p, true) := by
  have hsum : ¬ pmfsCalcChecksum crc16 (repairSuper crc16 now true m p) p PMFS_SB_STATIC_SIZE =
    true := by
    rw [calcChecksum_eq_true, not_not]
    exact repair_matches
  unfold pmfsCheckIntegrity
  rw [if_neg (fun h => h.2 h2), if_pos h1, if_neg hsum]

/-- With the right magic number, the checksum decides. -/
theorem check_summed (crc16 : Crc16) (now : ℕ) (h1 : sMagic m p = PMFS_SUPER_MAGIC) :
    (Matches crc16 m p ∧ pmfsCheckIntegrity crc16 now true m p = (m, true)) ∨
    (Matches crc16 m (p + PMFS_SB_SIZE) ∧
      pmfsCheckIntegrity crc16 now true m p = (repairSuper crc16 now true m p, true)) ∨
    pmfsCheckIntegrity crc16 now true m p = (m, false) := by
  unfold pmfsCheckIntegrity
  rw [if_neg (fun h => h.1 h1), if_neg (not_not.mpr h1)]
  by_cases hsum : Matches crc16 m p
  · exact Or.inl ⟨hsum, if_neg (fun h => calcChecksum_eq_true.mp h hsum)⟩
  rw [if_pos (calcChecksum_eq_true.mpr hsum)]
  by_cases hcopy : Matches crc16 m (p + PMFS_SB_SIZE)
  · exact Or.inr (Or.inl ⟨hcopy, if_neg (fun h => calcChecksum_eq_true.mp h hcopy)⟩)
  · exact Or.inr (Or.inr (if_pos (calcChecksum_eq_true.mpr hcopy)))

/-- **Main result.** Whatever the check accepts has the static fields of a copy with the right sum,
unless the super block has a wrong magic number and the redundant copy the right one over a wrong
sum. -/
theorem check_accepts_iff (crc16 : Crc16) (now : ℕ) (m : Mem) (p : ℕ) :
    (∀ m', pmfsCheckIntegrity crc16 now true m p = (m', true) →
      ∃ q, (q = p ∨ q = p + PMFS_SB_SIZE) ∧ Matches crc16 m q ∧ static m' p = static m q) ↔
    ¬ (sMagic m p ≠ PMFS_SUPER_MAGIC ∧ sMagic m (p + PMFS_SB_SIZE) = PMFS_SUPER_MAGIC ∧
      ¬ Matches crc16 m (p + PMFS_SB_SIZE)) := by
  constructor
  · rintro h ⟨h1, h2, hsum⟩
    obtain ⟨q, rfl | rfl, hmatch, hstatic⟩ := h _ (check_repaired h1 h2)
    · exact h1 ((sMagic_of_static hstatic).symm.trans (repair_sMagic.trans h2))
    · exact hsum hmatch
  · intro hnot m' hrun
    by_cases h1 : sMagic m p = PMFS_SUPER_MAGIC
    · rcases check_summed crc16 now h1 with ⟨hsum, h⟩ | ⟨hsum, h⟩ | h
      · obtain rfl : m = m' := congrArg Prod.fst (h.symm.trans hrun)
        exact ⟨p, Or.inl rfl, hsum, rfl⟩
      · obtain rfl : repairSuper crc16 now true m p = m' := congrArg Prod.fst (h.symm.trans hrun)
        exact ⟨_, Or.inr rfl, hsum, repair_static hsum⟩
      · exact absurd (congrArg Prod.snd (h.symm.trans hrun)) (by simp)
    by_cases h2 : sMagic m (p + PMFS_SB_SIZE) = PMFS_SUPER_MAGIC
    · have hsum : Matches crc16 m (p + PMFS_SB_SIZE) := by
        by_contra hcon
        exact hnot ⟨h1, h2, hcon⟩
      obtain rfl : repairSuper crc16 now true m p = m' :=
        congrArg Prod.fst ((check_repaired h1 h2).symm.trans hrun)
      exact ⟨_, Or.inr rfl, hsum, repair_static hsum⟩
    · exact absurd (congrArg Prod.snd ((check_refused h1 h2).symm.trans hrun)) (by simp)

/-- An image where the redundant copy has the magic number, and neither copy the right sum. -/
def damagedImage : Mem := fun i =>
  if i = 514 then 0xFC else if i = 515 then 0xEF else if i = 0 ∨ i = 512 then 1 else 0

theorem damaged_image_accepted :
    (pmfsCheckIntegrity (fun _ _ => 0) 0 true damagedImage 0).2 = true ∧
    ¬ Matches (fun _ _ => 0) damagedImage 0 ∧ ¬ Matches (fun _ _ => 0) damagedImage 512 := by
  unfold Matches
  decide +kernel

end Pmfs.Super.Integrity
