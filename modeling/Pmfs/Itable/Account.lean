import Pmfs.Itable.Select
import Mathlib.Data.Finset.Card

/-! # The count of free inodes

`s_free_inodes_count` is the number of slots from `PMFS_FREE_INODE_HINT_START` on that the test of
`pmfs_new_inode` takes for free, along runs in which it is kept up (`accounted_run`). It is not kept
up when `pmfs_mkdir` fails after it has got an inode, since the link count on the medium stays 1
(`mkdir_drifts`), when an entry of a log makes an inode in a free slot, and when one deletes an
inode that is free already. -/

namespace Pmfs.Itable.Account

open Lib.Run Block.Model Tree.Model Itable.Model Itable.Select Function
open Inodes.Model (evicts rootInode pmfsMaskFlags touchInode)

variable {t t' : Table} {p q : ℕ → PmfsInode} {x : PmfsInode} {i j n m now : ℕ} {flags : UInt32}

/-! ### Counting free slots -/

/-- The free slots below `n`. -/
def freeIn (p : ℕ → PmfsInode) (n : ℕ) : Finset ℕ :=
  (Finset.range n).filter fun i => PMFS_FREE_INODE_HINT_START ≤ i ∧ freeTest (p i) = true

/-- The counter is right. -/
def Accounted (t : Table) : Prop := t.sbi.sFreeInodesCount.toNat = (freeIn t.pi t.count).card

theorem mem_freeIn : i ∈ freeIn p n ↔ i < n ∧ 3 ≤ i ∧ freeTest (p i) = true := by
  unfold freeIn PMFS_FREE_INODE_HINT_START
  rw [Finset.mem_filter, Finset.mem_range]

/-- A slot with a type and without a deletion time is in use. -/
theorem freeTest_used (hmode : x.iMode ≠ 0) (hdtime : x.iDtime = 0) : freeTest x = false := by
  simp [freeTest, hmode, hdtime]

theorem freeIn_congr (h : ∀ i, 3 ≤ i → i < n → freeTest (q i) = freeTest (p i)) :
    freeIn q n = freeIn p n := by
  ext i
  rw [mem_freeIn, mem_freeIn]
  constructor
  · rintro ⟨h1, h2, h3⟩
    exact ⟨h1, h2, (h i h2 h1) ▸ h3⟩
  · rintro ⟨h1, h2, h3⟩
    exact ⟨h1, h2, (h i h2 h1).symm ▸ h3⟩

theorem card_take (hi : 3 ≤ i) (hlt : i < n) (hfree : freeTest (p i) = true)
    (hx : freeTest x = false) : (freeIn (update p i x) n).card + 1 = (freeIn p n).card := by
  have herase : freeIn (update p i x) n = (freeIn p n).erase i := by
    ext k
    rw [Finset.mem_erase, mem_freeIn, mem_freeIn]
    by_cases hk : k = i
    · subst hk
      simp [hx]
    · simp [hk]
  rw [herase]
  exact Finset.card_erase_add_one (mem_freeIn.mpr ⟨hlt, hi, hfree⟩)

theorem card_release (hi : 3 ≤ i) (hlt : i < n) (hused : freeTest (p i) = false)
    (hx : freeTest x = true) : (freeIn (update p i x) n).card = (freeIn p n).card + 1 := by
  have htake := card_take (p := update p i x) (x := p i) hi hlt (by simpa using hx) hused
  rw [update_idem, update_eq_self] at htake
  exact htake.symm

theorem card_grow (hn : 3 ≤ n) (hold : ∀ i < n, q i = p i)
    (hnew : ∀ i, n ≤ i → i < n + m → freeTest (q i) = true) :
    (freeIn q (n + m)).card = (freeIn p n).card + m := by
  have hunion : freeIn q (n + m) = freeIn p n ∪ Finset.Ico n (n + m) := by
    ext k
    rw [Finset.mem_union, mem_freeIn, mem_freeIn, Finset.mem_Ico]
    by_cases hk : k < n
    · rw [hold k hk]
      constructor
      · rintro ⟨-, h2, h3⟩
        exact Or.inl ⟨hk, h2, h3⟩
      · rintro (⟨-, h2, h3⟩ | ⟨h1, -⟩)
        · exact ⟨by omega, h2, h3⟩
        · omega
    · constructor
      · rintro ⟨h1, -, -⟩
        exact Or.inr ⟨by omega, h1⟩
      · rintro (⟨h1, -⟩ | ⟨h1, h2⟩)
        · omega
        · exact ⟨h2, by omega, hnew k h1 h2⟩
  have hdisj : Disjoint (freeIn p n) (Finset.Ico n (n + m)) := by
    rw [Finset.disjoint_left]
    intro k hk hcon
    have := (mem_freeIn.mp hk).1
    have := (Finset.mem_Ico.mp hcon).1
    omega
  rw [hunion, Finset.card_union_of_disjoint hdisj, Nat.card_Ico]
  omega

theorem card_le (hn : 3 ≤ n) : (freeIn p n).card + 3 ≤ n := by
  have hsub : freeIn p n ⊆ Finset.Ico 3 n := by
    intro k hk
    obtain ⟨h1, h2, -⟩ := mem_freeIn.mp hk
    exact Finset.mem_Ico.mpr ⟨h2, h1⟩
  have hcard := Finset.card_le_card hsub
  rw [Nat.card_Ico] at hcard
  omega

/-! ### The table -/

/-- The count of inodes is that of the slots in whole blocks, and the hint is in the table. -/
structure Wf (t : Table) : Prop where
  count : t.count = t.iSize >>> 7
  blocks : inodesPerBlock t.iBlkType ∣ t.count
  three_le : 3 ≤ t.hint
  hint_le : t.hint ≤ t.count

/-- The table can grow by a block and has less than `2 ^ 32` slots still. -/
def Room (t : Table) : Prop := t.iSize >>> 7 + inodesPerBlock t.iBlkType < 2 ^ 32

instance (t : Table) : Decidable (Room t) := inferInstanceAs (Decidable (_ < _))

theorem grown_slots : (t.iSize + 2 ^ blkTypeToShift t.iBlkType) >>> 7 =
    t.iSize >>> 7 + inodesPerBlock t.iBlkType := by
  have hsize : 2 ^ blkTypeToShift t.iBlkType = inodesPerBlock t.iBlkType * 2 ^ 7 := by
    cases t.iBlkType <;> rfl
  rw [Nat.shiftRight_eq_div_pow, Nat.shiftRight_eq_div_pow, hsize,
    Nat.add_mul_div_right _ _ (by decide)]

theorem increase_count (hroom : Room t) : (pmfsIncreaseInodeTableSize t none).1.count =
    t.iSize >>> 7 + inodesPerBlock t.iBlkType := by
  show (UInt32.ofNat ((t.iSize + 2 ^ blkTypeToShift t.iBlkType) >>> 7)).toNat = _
  rw [grown_slots]
  exact UInt32.toNat_ofNat_of_lt hroom

theorem Wf.increase (h : Wf t) (hroom : Room t) : Wf (pmfsIncreaseInodeTableSize t none).1 := by
  have hhint : (pmfsIncreaseInodeTableSize t none).1.hint = t.count := by
    rw [h.count]
    refine UInt32.toNat_ofNat_of_lt (Nat.lt_of_le_of_lt ?_ hroom)
    exact Nat.le_add_right _ _
  constructor
  · rw [increase_count hroom]
    exact grown_slots.symm
  · rw [increase_count hroom, ← h.count]
    exact Nat.dvd_add h.blocks (Nat.dvd_refl _)
  · rw [hhint]
    exact h.three_le.trans h.hint_le
  · rw [hhint, increase_count hroom, h.count]
    exact Nat.le_add_right _ _

theorem Accounted.increase (h : Wf t) (ha : Accounted t) (hroom : Room t) :
    Accounted (pmfsIncreaseInodeTableSize t none).1 := by
  have hthree : 3 ≤ t.count := h.three_le.trans h.hint_le
  have hle := card_le (p := t.pi) hthree
  have hroom' : t.count + inodesPerBlock t.iBlkType < 2 ^ 32 := by
    rw [h.count]
    exact hroom
  have hcard : (freeIn (pmfsIncreaseInodeTableSize t none).1.pi
    (t.count + inodesPerBlock t.iBlkType)).card =
      (freeIn t.pi t.count).card + inodesPerBlock t.iBlkType := by
    refine card_grow hthree (fun k hk => ?_) fun k h1 h2 => ?_
    · exact if_neg fun hcon => absurd hcon.1 (Nat.not_le.mpr (h.count ▸ hk))
    · have hin : t.iSize >>> 7 ≤ k ∧ k < (t.iSize + 2 ^ blkTypeToShift t.iBlkType) >>> 7 := by
        rw [grown_slots, ← h.count]
        exact ⟨h1, h2⟩
      have hzero : (pmfsIncreaseInodeTableSize t none).1.pi k = zeroInode := if_pos hin
      rw [hzero]
      rfl
  unfold Accounted
  rw [increase_count hroom, ← h.count, hcard, ← ha]
  show (t.sbi.sFreeInodesCount + UInt32.ofNat _).toNat = _
  have hper : (UInt32.ofNat (inodesPerBlock t.iBlkType)).toNat = inodesPerBlock t.iBlkType :=
    UInt32.toNat_ofNat_of_lt (Nat.lt_of_le_of_lt (Nat.le_add_left _ _) hroom)
  rw [UInt32.toNat_add, hper]
  refine Nat.mod_eq_of_lt ?_
  unfold Accounted at ha
  omega

/-! ### The search in a well-formed table -/

/-- The end of the block that `i` is in is not behind a later start of a block. -/
theorem block_end_le {p m : ℕ} (hpos : 0 < p) (hdvd : p ∣ m) (hlt : i < m) :
    i + (p - i % p) ≤ m := by
  obtain ⟨k, rfl⟩ := hdvd
  have hmod := Nat.mod_lt i hpos
  have hdiv := Nat.div_add_mod i p
  have hquot : i / p < k := Nat.div_lt_of_lt_mul hlt
  have hmul : p * (i / p + 1) ≤ p * k := Nat.mul_le_mul_left _ hquot
  rw [Nat.mul_add, Nat.mul_one] at hmul
  omega

theorem Wf.block_le (h : Wf t) (hlt : i < t.count) :
    i + (inodesPerBlock t.iBlkType - i % inodesPerBlock t.iBlkType) ≤ t.count :=
  block_end_le (inodesPerBlock_pos t.iBlkType) h.blocks hlt

theorem scanTable_le {fuel : ℕ} (h : Wf t) (hi : i ≤ t.count)
    (hscan : scanTable t fuel i = some j) : j ≤ t.count := by
  induction fuel generalizing i with
  | zero =>
    cases hscan
    exact hi
  | succ fuel ih =>
    unfold scanTable at hscan
    split_ifs at hscan with hlt
    · dsimp only at hscan
      have hend := h.block_le hlt
      generalize inodesPerBlock t.iBlkType - i % inodesPerBlock t.iBlkType = n at hscan hend
      rw [Nat.add_sub_cancel_left] at hscan
      obtain ⟨-, hle, -⟩ := scanBlock_spec
      split_ifs at hscan
      · cases hscan
        exact hle.trans hend
      · exact ih (hle.trans hend) hscan
    · cases hscan
      exact hi

theorem find_grown {grow : List (Option Errno)} {r : Except Errno ℕ} (h : Wf t) (hroom : Room t)
    (hfind : findInode (pmfsIncreaseInodeTableSize t none).1 grow t.count = some (t', r)) :
    t' = (pmfsIncreaseInodeTableSize t none).1 ∧ r = .ok t.count := by
  have hpos := inodesPerBlock_pos t.iBlkType
  have hlt : t.count < (pmfsIncreaseInodeTableSize t none).1.count := by
    rw [increase_count hroom, ← h.count]
    omega
  have hfree : freeTest ((pmfsIncreaseInodeTableSize t none).1.pi t.count) = true := by
    have hzero : (pmfsIncreaseInodeTableSize t none).1.pi t.count = zeroInode := by
      refine if_pos ⟨Nat.le_of_eq h.count.symm, ?_⟩
      rw [grown_slots, h.count]
      omega
    rw [hzero]
    rfl
  have hscan : ∀ fuel j, scanTable (pmfsIncreaseInodeTableSize t none).1 (fuel + 1) t.count =
    some j →
      j = t.count := by
    intro fuel j hj
    unfold scanTable at hj
    rw [if_pos hlt] at hj
    split_ifs at hj
    dsimp only at hj
    have hn : 0 < inodesPerBlock (pmfsIncreaseInodeTableSize t none).1.iBlkType -
        t.count % inodesPerBlock (pmfsIncreaseInodeTableSize t none).1.iBlkType :=
      Nat.sub_pos_of_lt (Nat.mod_lt _ (inodesPerBlock_pos _))
    generalize inodesPerBlock (pmfsIncreaseInodeTableSize t none).1.iBlkType -
        t.count % inodesPerBlock (pmfsIncreaseInodeTableSize t none).1.iBlkType = n at hj hn
    obtain ⟨n, rfl⟩ := Nat.exists_eq_succ_of_ne_zero (Nat.pos_iff_ne_zero.mp hn)
    have hblock : scanBlock (pmfsIncreaseInodeTableSize t none).1.pi t.count (n + 1) = t.count :=
      if_pos hfree
    rw [Nat.add_sub_cancel_left, hblock, if_pos (by omega)] at hj
    exact (Option.some.inj hj).symm
  unfold findInode at hfind
  obtain ⟨fuel, hfuel⟩ := Nat.exists_eq_succ_of_ne_zero (Nat.ne_of_gt (Nat.zero_lt_of_lt hlt))
  cases hj : scanTable (pmfsIncreaseInodeTableSize t none).1
      (pmfsIncreaseInodeTableSize t none).1.count t.count with
  | none => simp [hj] at hfind
  | some j =>
    rw [hj] at hfind
    rw [hfuel] at hj
    obtain rfl := hscan fuel j hj
    dsimp only at hfind
    rw [if_pos hlt] at hfind
    cases hfind
    exact ⟨rfl, rfl⟩

/-- What `pmfs_new_inode` finds in a well-formed table: a slot of the table, the first slot of a new
block, or nothing. -/
theorem Wf.find {grow : List (Option Errno)} {r : Except Errno ℕ} (h : Wf t) (hroom : Room t)
    (hfind : findInode t grow t.hint = some (t', r)) :
    (∃ e, t' = t ∧ r = .error e) ∨ ∃ i, r = .ok i ∧ 3 ≤ i ∧ i < t'.count ∧
    freeTest (t'.pi i) = true ∧
      (t' = t ∨ t' = (pmfsIncreaseInodeTableSize t none).1) := by
  obtain ⟨-, hfound⟩ := find_spec hfind
  have hthree := h.three_le
  obtain ⟨j, hscan, hle, ⟨rfl, rfl, -, -⟩ | ⟨rfl, -, e, rfl⟩ | ⟨hge, rest, rfl, hrest⟩⟩ :=
    find_cases hfind
  · obtain ⟨-, hlt, hfree⟩ := hfound j rfl
    exact Or.inr ⟨j, rfl, by omega, hlt, hfree, Or.inl rfl⟩
  · exact Or.inl ⟨e, rfl, rfl⟩
  · have hj : j = t.count := Nat.le_antisymm (scanTable_le h h.hint_le hscan) hge
    subst hj
    obtain ⟨rfl, rfl⟩ := find_grown h hroom hrest
    obtain ⟨hge', hlt, hfree⟩ := hfound _ rfl
    exact Or.inr ⟨_, rfl, by omega, hlt, hfree, Or.inr rfl⟩

/-! ### New inodes -/

/-- The counter is right and the table is well-formed. -/
def Good (t : Table) : Prop := Wf t ∧ Accounted t

/-- The table keeps its size and block type, and the hint stays in it. -/
theorem Wf.of_sbi (h : Wf t) (hsize : t'.iSize = t.iSize) (htype : t'.iBlkType = t.iBlkType)
    (hcount : t'.sbi.sInodesCount = t.sbi.sInodesCount) (hlow : 3 ≤ t'.hint)
    (hhigh : t'.hint ≤ t.count) : Wf t' := by
  have hcount' : t'.count = t.count := congrArg UInt32.toNat hcount
  exact ⟨by rw [hcount', hsize, h.count], by rw [hcount', htype]; exact h.blocks,
    hlow, by rwa [hcount']⟩

theorem Good.setPi (h : Good t) (hx : 3 ≤ i → freeTest x = freeTest (t.pi i)) :
    Good (t.setPi i x) := by
  refine ⟨h.1.of_sbi rfl rfl rfl h.1.three_le h.1.hint_le, ?_⟩
  show t.sbi.sFreeInodesCount.toNat = (freeIn (update t.pi i x) t.count).card
  rw [h.2, freeIn_congr]
  intro k hk _
  by_cases hki : k = i
  · subst hki
    rw [update_self, hx hk]
  · rw [update_of_ne hki]

theorem takeSlot_hint (flags : UInt32) (hlt : i < t.count) :
    (takeSlot t i flags).hint = if i < t.count - 1 then i + 1 else 3 := by
  have hsize : t.count < 2 ^ 32 := UInt32.toNat_lt _
  have hino : (UInt32.ofNat i).toNat = i := UInt32.toNat_ofNat_of_lt (show i < 2 ^ 32 by omega)
  have hone : (t.sbi.sInodesCount - 1).toNat = t.count - 1 :=
    UInt32.toNat_sub_of_le _ _ (UInt32.le_iff_toNat_le.mpr (show 1 ≤ t.count by omega))
  show (if UInt32.ofNat i < t.sbi.sInodesCount - 1 then UInt32.ofNat i + 1 else 3).toNat = _
  by_cases hlast : i < t.count - 1
  · rw [if_pos hlast, if_pos (UInt32.lt_iff_toNat_lt.mpr (by rw [hino, hone]; exact hlast)),
      UInt32.toNat_add, hino]
    exact Nat.mod_eq_of_lt (by show i + 1 < 2 ^ 32; omega)
  · rw [if_neg hlast,
      if_neg fun hcon => hlast (by rw [← hino, ← hone]; exact UInt32.lt_iff_toNat_lt.mp hcon)]
    rfl

theorem Good.take (h : Good t) (hi : 3 ≤ i) (hlt : i < t.count) (hfree : freeTest (t.pi i) = true)
    (hx : freeTest x = false) : Good ((takeSlot t i flags).setPi i x) := by
  obtain ⟨hwf, ha⟩ := h
  have htake := card_take hi hlt hfree hx
  have hhint : ((takeSlot t i flags).setPi i x).hint = if i < t.count - 1 then i + 1 else 3 :=
    takeSlot_hint flags hlt
  refine ⟨hwf.of_sbi rfl rfl rfl ?_ ?_, ?_⟩
  · rw [hhint]
    split_ifs <;> omega
  · rw [hhint]
    split_ifs <;> omega
  · show (t.sbi.sFreeInodesCount - 1).toNat =
      (freeIn (update (update t.pi i _) i x) t.count).card
    rw [update_idem, UInt32.toNat_sub_of_le, ha]
    · show _ - 1 = _
      omega
    · rw [UInt32.le_iff_toNat_le, ha]
      show 1 ≤ _
      omega

/-- The slot of an inode after `pmfs_new_inode`: its link count and type are those of the VFS inode,
and it has no deletion time. -/
structure Filled (inode : Inode) (x : PmfsInode) : Prop where
  links : x.iLinksCount = inode.iNlink % 65536
  mode : x.iMode = inode.iMode
  dtime : x.iDtime = 0

theorem Good.newInode {inode : Inode} {env : Env} {r : Except Errno ℕ} (h : Good t) (hroom : Room t)
    (hnlink : inode.iNlink = 1) (hnew : pmfsNewInode t inode flags env = some (t', r)) :
    Good t' ∧ ∀ i, r = .ok i → 3 ≤ i ∧ i < t'.count ∧ Filled inode (t'.pi i) := by
  unfold pmfsNewInode at hnew
  cases hstart : env.start with
  | some e =>
    rw [hstart] at hnew
    cases hnew
    exact ⟨h, fun _ hcon => by simp at hcon⟩
  | none =>
    rw [hstart] at hnew
    obtain ⟨⟨t2, r2⟩, hsel, heq⟩ := Option.map_eq_some_iff.mp hnew
    obtain ⟨⟨t1, r1⟩, hfind, heq1⟩ := Option.map_eq_some_iff.mp hsel
    rcases h.1.find hroom hfind with ⟨e, rfl, rfl⟩ | ⟨i, rfl, hi, hlt, hfree, ht1⟩
    · cases heq1
      cases heq
      exact ⟨h, fun _ hcon => by simp at hcon⟩
    · cases heq1
      cases heq
      have hgood : Good t1 := by
        rcases ht1 with rfl | rfl
        · exact h
        · exact ⟨h.1.increase hroom, h.2.increase h.1 hroom⟩
      refine ⟨hgood.take hi hlt hfree ?_, fun k hk => ?_⟩
      · simp [freeTest, pmfsUpdateInode, hnlink]
      · obtain rfl : i = k := by
          split_ifs at hk
          exact Except.ok.inj hk
        refine ⟨hi, hlt, ?_⟩
        have hslot : (publishInode (takeSlot t1 i (pmfsMaskFlags inode.iMode flags)) i inode).pi i =
            pmfsUpdateInode inode (chosen (t1.pi i) (pmfsMaskFlags inode.iMode flags)) := by
          simp [publishInode, takeSlot, Table.setPi]
        show Filled inode
          ((publishInode (takeSlot t1 i (pmfsMaskFlags inode.iMode flags)) i inode).pi i)
        rw [hslot]
        exact ⟨rfl, rfl, rfl⟩

/-! ### The end of an inode -/

theorem freeInode_hint (now : ℕ) (hlt : i < t.count) : (pmfsFreeInode t i none now).1.hint = 3 ∨
    (pmfsFreeInode t i none now).1.hint = if i < t.hint then i else t.hint := by
  have hsize : t.count < 2 ^ 32 := UInt32.toNat_lt _
  have hino : (UInt32.ofNat i).toNat = i := UInt32.toNat_ofNat_of_lt (show i < 2 ^ 32 by omega)
  have hiff : UInt32.ofNat i < t.sbi.sFreeInodeHint ↔ i < t.hint := by
    rw [UInt32.lt_iff_toNat_lt, hino]
    rfl
  show (if _ then 3 else if UInt32.ofNat i < t.sbi.sFreeInodeHint then UInt32.ofNat i
    else t.sbi.sFreeInodeHint : UInt32).toNat = 3 ∨
    (if _ then 3 else if UInt32.ofNat i < t.sbi.sFreeInodeHint then UInt32.ofNat i
    else t.sbi.sFreeInodeHint : UInt32).toNat = _
  simp only [hiff]
  split_ifs
  · exact Or.inl rfl
  · exact Or.inl rfl
  · exact Or.inr hino
  · exact Or.inr rfl

/-- A slot in use is freed, whatever else is written to it. -/
theorem Good.release (h : Good t) (hi : 3 ≤ i) (hlt : i < t.count)
    (hused : freeTest (t.pi i) = false) (hx : freeTest x = true) :
    Good ((pmfsFreeInode t i none now).1.setPi i x) := by
  obtain ⟨hwf, ha⟩ := h
  have hrelease := card_release hi hlt hused hx
  have hthree : 3 ≤ t.count := hwf.three_le.trans hwf.hint_le
  have hsize : t.count < 2 ^ 32 := UInt32.toNat_lt _
  have hle := card_le (p := update t.pi i x) hthree
  have hlow := hwf.three_le
  have hhigh := hwf.hint_le
  have hhint : ((pmfsFreeInode t i none now).1.setPi i x).hint = 3 ∨
      ((pmfsFreeInode t i none now).1.setPi i x).hint = if i < t.hint then i else t.hint :=
      freeInode_hint now hlt
  refine ⟨hwf.of_sbi rfl rfl rfl (by split_ifs at hhint <;> omega)
    (by split_ifs at hhint <;> omega), ?_⟩
  show (t.sbi.sFreeInodesCount + 1).toNat =
    (freeIn (update (update t.pi i _) i x) t.count).card
  rw [update_idem, hrelease, UInt32.toNat_add, ha]
  exact Nat.mod_eq_of_lt (by show _ + 1 < 2 ^ 32; omega)

/-- `pmfs_free_inode` for an inode without links. -/
theorem Good.free (h : Good t) (hi : 3 ≤ i) (hlt : i < t.count) (hused : freeTest (t.pi i) = false)
    (hlinks : (t.pi i).iLinksCount = 0) (hnow : now % 2 ^ 32 ≠ 0) :
    Good (pmfsFreeInode t i none now).1 := by
  have hx : freeTest ((pmfsFreeInode t i none now).1.pi i) = true := by
    simpa [freeTest, pmfsFreeInode, Table.setPi, hlinks] using Or.inr hnow
  have hgood : Good
    ((pmfsFreeInode t i none now).1.setPi i ((pmfsFreeInode t i none now).1.pi i)) :=
    h.release hi hlt hused hx
  have hself : (pmfsFreeInode t i none now).1.setPi i ((pmfsFreeInode t i none now).1.pi i) =
      (pmfsFreeInode t i none now).1 := by
    unfold Table.setPi
    rw [update_eq_self]
  rwa [hself] at hgood

/-! ### Runs -/

/-- Creation, changes of a link count on the medium, eviction, growth, and the entries of a log that
make and delete an inode. -/
inductive Op where
  | create (inode : Inode) (flags : UInt32) (env : Env)
  | mkdir (inode : Inode) (flags : UInt32) (env : Env)
  | nlink (i l : ℕ)
  | evict (i : ℕ) (inode : Inode) (err : Option Errno) (now : ℕ)
  | grow (err : Option Errno)
  | addEntry (i : ℕ) (flags : UInt32) (added : Added)
  | delete (i now : ℕ)

def Op.exec (t : Table) : Op → Option Table
  | create inode flags env => createNode t inode flags env
  | mkdir inode flags env => pmfsMkdir t inode flags env
  | nlink i l => some (pmfsUpdateNlink t i l)
  | evict i inode err now => some (pmfsEvictInode t i inode err now)
  | grow err => some (pmfsIncreaseInodeTableSize t err).1
  | addEntry i flags added => addDirentry t i flags added
  | delete i now => setAttrDelete t i now

/-- A new VFS inode has one link and a type. -/
def Op.Valid : Op → Prop
  | create inode _ _ | mkdir inode _ _ => inode.iNlink = 1 ∧ inode.iMode ≠ 0
  | _ => True

/-- When the counter is kept up: the table has less than `2 ^ 32` slots, the time is not 0,
`pmfs_mkdir` does not free an inode again, links change and inodes are evicted on inodes in use, an
entry of a log that makes an inode does not use a free slot, and one that deletes an inode uses one
of a file. -/
def Op.Safe (t : Table) : Op → Prop
  | create _ _ env => Room t ∧ env.now % 2 ^ 32 ≠ 0
  | mkdir _ _ env => Room t ∧ (env.block = none ∧ env.entry = none ∨ env.free ≠ none)
  | nlink i _ => (t.pi i).iMode ≠ 0 ∧ (t.pi i).iDtime = 0
  | evict i inode err now => evicts inode = true → err = none →
      3 ≤ i ∧ i < t.count ∧ freeTest (t.pi i) = false ∧ (t.pi i).iLinksCount = 0 ∧ now % 2 ^ 32 ≠ 0
  | grow _ => Room t
  | addEntry i _ _ => 3 ≤ i → freeTest (t.pi i) = false
  | delete i now => 3 ≤ i ∧ freeTest (t.pi i) = false ∧ now % 2 ^ 32 ≠ 0

/-- A step with the property `P`. -/
def Step (P : Table → Op → Prop) (t t' : Table) : Prop :=
  ∃ op : Op, op.Valid ∧ P t op ∧ op.exec t = some t'

theorem Good.create {inode : Inode} {env : Env} (h : Good t) (hv : inode.iNlink = 1 ∧
    inode.iMode ≠ 0) (hroom : Room t) (hnow : env.now % 2 ^ 32 ≠ 0)
    (hrun : createNode t inode flags env = some t') : Good t' := by
  obtain ⟨⟨t1, r⟩, hnew, heq⟩ := Option.map_eq_some_iff.mp hrun
  obtain ⟨hgood, hslot⟩ := h.newInode hroom hv.1 hnew
  cases r with
  | error e =>
    obtain rfl := heq
    exact hgood
  | ok i =>
    obtain ⟨hi, hlt, hlinks, hmode, hdtime⟩ := hslot i rfl
    split_ifs at heq
    · exact heq ▸ hgood
    · have hmode' : (t1.pi i).iMode ≠ 0 := hmode ▸ hv.2
      have hdropped : Good (pmfsUpdateNlink t1 i (inode.iNlink - 1)) := by
        refine hgood.setPi fun _ => ?_
        rw [freeTest_used hmode' hdtime]
        exact freeTest_used hmode' hdtime
      rw [← heq]
      unfold pmfsEvictInode
      split_ifs
      · cases hfree : env.free with
        | some e => exact hdropped
        | none =>
          have hpi : (pmfsUpdateNlink t1 i (inode.iNlink - 1)).pi i =
              { t1.pi i with iLinksCount := (inode.iNlink - 1) % 65536 } := update_self _ _ _
          refine hdropped.free hi hlt ?_ ?_ hnow
          · rw [hpi]
            exact freeTest_used hmode' hdtime
          · rw [hpi, hv.1]
      · exact hdropped

theorem Good.mkdir {inode : Inode} {env : Env} (h : Good t) (hv : inode.iNlink = 1 ∧
    inode.iMode ≠ 0) (hroom : Room t) (hsafe : env.block = none ∧ env.entry = none ∨
    env.free ≠ none) (hrun : pmfsMkdir t inode flags env = some t') : Good t' := by
  obtain ⟨⟨t1, r⟩, hnew, heq⟩ := Option.map_eq_some_iff.mp hrun
  obtain ⟨hgood, hslot⟩ := h.newInode hroom hv.1 hnew
  cases r with
  | error e =>
    obtain rfl := heq
    exact hgood
  | ok i =>
    obtain ⟨hi, hlt, hlinks, hmode, hdtime⟩ := hslot i rfl
    split_ifs at heq with hok
    · rw [← heq]
      have hmode' : (t1.pi i).iMode ≠ 0 := hmode ▸ hv.2
      refine hgood.setPi fun _ => ?_
      rw [freeTest_used hmode' hdtime]
      exact freeTest_used hmode' hdtime
    · have hfree := hsafe.resolve_left hok
      rw [← heq]
      unfold pmfsEvictInode
      split_ifs
      · cases hcase : env.free with
        | none => exact absurd hcase hfree
        | some e => exact hgood
      · exact hgood

theorem Good.addEntry {added : Added} (h : Good t) (hsafe : 3 ≤ i → freeTest (t.pi i) = false)
    (hrun : addDirentry t i flags added = some t') : Good t' := by
  unfold addDirentry at hrun
  split_ifs at hrun
  cases added with
  | early =>
    cases hrun
    refine h.setPi fun hi => ?_
    rw [hsafe hi]
    exact freeTest_used (show 33188 ≠ 0 by decide) rfl
  | done root mtime =>
    cases hrun
    refine h.setPi fun hi => ?_
    rw [hsafe hi]
    simp [freeTest, touchInode]

theorem Good.delete (h : Good t) (hsafe : 3 ≤ i ∧ freeTest (t.pi i) = false ∧ now % 2 ^ 32 ≠ 0)
    (hrun : setAttrDelete t i now = some t') : Good t' := by
  unfold setAttrDelete at hrun
  split_ifs at hrun with hmapped
  cases hrun
  have hlt : i < t.count := by
    rw [h.1.count]
    exact hmapped.2
  refine h.release hsafe.1 hlt hsafe.2.1 ?_
  simpa [freeTest, pmfsFreeInode, Table.setPi] using Or.inr hsafe.2.2

theorem Good.step (h : Good t) (hstep : Step (fun t op => op.Safe t) t t') : Good t' := by
  obtain ⟨op, hv, hsafe, hrun⟩ := hstep
  cases op with
  | create inode flags env => exact h.create hv hsafe.1 hsafe.2 hrun
  | mkdir inode flags env => exact h.mkdir hv hsafe.1 hsafe.2 hrun
  | nlink i l =>
    cases hrun
    obtain ⟨hmode, hdtime⟩ := hsafe
    refine h.setPi fun _ => ?_
    rw [freeTest_used hmode hdtime]
    exact freeTest_used hmode hdtime
  | evict i inode err now =>
    cases hrun
    unfold pmfsEvictInode
    split_ifs with hevicts
    · cases err with
      | some e => exact h
      | none =>
        obtain ⟨hi, hlt, hused, hlinks, hnow⟩ := hsafe hevicts rfl
        exact h.free hi hlt hused hlinks hnow
    · exact h
  | grow err =>
    cases hrun
    cases err with
    | some e => exact h
    | none => exact ⟨h.1.increase hsafe, h.2.increase h.1 hsafe⟩
  | addEntry i flags added => exact h.addEntry hsafe hrun
  | delete i now => exact h.delete hsafe hrun

/-- **The count of free inodes is right** in every state of a run of creations, evictions, growths
and entries of logs from a well-formed table with a right count, such as a new one, if every step is
safe. -/
theorem accounted_run (hwf : Wf t) (ha : Accounted t)
    (hrun : Relation.ReflTransGen (Step fun t op => op.Safe t) t t') : Accounted t' := by
  have hgood : Good t' := by
    induction hrun with
    | refl => exact ⟨hwf, ha⟩
    | tail _ hstep ih => exact ih.step hstep
  exact hgood.2

instance (op : Op) : Decidable op.Valid := by
  cases op <;> unfold Op.Valid <;> infer_instance

instance (t : Table) (op : Op) : Decidable (op.Safe t) := by
  cases op <;> unfold Op.Safe <;> infer_instance

instance (t : Table) : Decidable (Accounted t) := inferInstanceAs (Decidable (_ = _))

/-- A regular file or directory, and a creation in which everything goes well. -/
def plainEnv : Env := ⟨none, [], false, none, none, none, 1⟩

/-- A table of 32 inodes on a new file system. -/
def smallTable : Table := newTable 0x1000000 0 (rootInode 0o755 0 0 0 0)

/-- A file is made, loses its link and is evicted, and another one is not given a name. -/
theorem accounted_run_files :
    ∃ t', Relation.ReflTransGen (Step fun t op => op.Safe t) smallTable t' ∧
    t'.sbi.sFreeInodesCount = 29 ∧ Accounted t' := by
  obtain ⟨t', hrun, hcount⟩ : ∃ t' ∈ run Op.exec (fun t op => op.Valid ∧ op.Safe t) smallTable
      [.create (newInode 0o100644 0 0 0 0) 0 plainEnv, .nlink 3 0,
        .evict 3 { newInode 0o100644 0 0 0 0 with iNlink := 0 } none 1,
        .create (newInode 0o100644 0 0 0 0) 0 { plainEnv with entry := some .ENOSPC }],
      t'.sbi.sFreeInodesCount = 29 := by decide +kernel
  have hsteps : Relation.ReflTransGen (Step fun t op => op.Safe t) smallTable t' :=
    run_rel (fun _ op _ hP hexec => ⟨op, hP.1, hP.2, hexec⟩) hrun
  have hwf : Wf smallTable := by constructor <;> decide +kernel
  exact ⟨t', hsteps, hcount, accounted_run hwf (by decide +kernel) hsteps⟩

/-- There is no block for a new directory. Its inode is freed, but its link count stays 1. -/
theorem mkdir_drifts : ∃ t', Accounted smallTable ∧
    Relation.ReflTransGen (Step fun _ _ => True) smallTable t' ∧ t'.sbi.sFreeInodesCount = 29 ∧
    (freeIn t'.pi t'.count).card = 28 := by
  obtain ⟨t', hrun, hres⟩ : ∃ t' ∈ run Op.exec (fun _ op => op.Valid) smallTable
      [.mkdir (newInode 0o40755 0 0 0 0) 0 { plainEnv with block := some .ENOSPC }],
      t'.sbi.sFreeInodesCount = 29 ∧ (freeIn t'.pi t'.count).card = 28 := by decide +kernel
  exact ⟨t', by decide +kernel, run_rel (fun _ op _ hP hexec => ⟨op, hP, trivial, hexec⟩) hrun,
    hres⟩

end Pmfs.Itable.Account
