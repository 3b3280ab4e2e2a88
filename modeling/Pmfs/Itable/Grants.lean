import Pmfs.Itable.Search

/-! # Inodes that are granted to clients

`alloc_addr_info` grants a client a range of inode numbers, and moves its own cursor and the hint of
the kernel. The cursor moves by 100 and not by the size of the range, so that the second range is
not aligned and overlaps the first (`second_grant`); the hint becomes the number of inodes plus 1,
wherever the range is, so that the kernel may go on in the range. `grants_exclusive` says that two
grants always clash, and when the kernel keeps out. -/

namespace Pmfs.Itable.Grants

open Lib.Run Block.Model Tree.Model Itable.Model
open Itable.Select (Extends find_cases increase_extends new_select select_spec)
open Itable.Search (Used)
open Inodes.Model (rootInode)

/-- A grant: the base that the client got and the number of inodes it asked for. -/
structure Grant where
  base : ℕ
  num : ℕ
deriving DecidableEq

/-- The byte of the inode table is in one of the inodes granted. -/
def Grant.Covers (g : Grant) (a : ℕ) : Prop := g.base ≤ a ∧ a < g.base + 128 * g.num

instance (g : Grant) (a : ℕ) : Decidable (g.Covers a) := inferInstanceAs (Decidable (_ ∧ _))

/-- The table, the cursors in the super block and the grants, the latest first. -/
structure State where
  t : Table
  ps : AddrInfo
  grants : List Grant

/-- A client asks for inodes, and the kernel takes them, changes their link counts and frees them.
-/
inductive Op where
  | alloc (num : UInt32) (grow : List (Option Errno))
  | new (inode : Inode) (flags : UInt32) (env : Env)
  | nlink (i links : ℕ)
  | free (i : ℕ) (err : Option Errno) (now : ℕ)

def Op.exec (s : State) : Op → Option State
  | alloc num grow => (allocAddrInfo s.t s.ps num grow).map fun r =>
      ⟨r.1, r.2.1, ⟨r.2.2.uFreeInodeBase, num.toNat⟩ :: s.grants⟩
  | new inode flags env => (pmfsNewInode s.t inode flags env).map fun r => { s with t := r.1 }
  | nlink i links => some { s with t := pmfsUpdateNlink s.t i links }
  | free i err now => some { s with t := (pmfsFreeInode s.t i err now).1 }

/-- One call after the other. -/
def Step (s s' : State) : Prop := ∃ op : Op, op.exec s = some s'

/-- Every granted inode from the hint on is a slot in use, or comes after a free one from the hint
on. -/
def Clear (s : State) : Prop := ∀ g ∈ s.grants, ∀ i, s.t.hint ≤ i → g.Covers (128 * i) →
  (i < s.t.iSize >>> 7 ∧ freeTest (s.t.pi i) = false) ∨
    ∃ j, s.t.hint ≤ j ∧ j < i ∧ j < s.t.iSize >>> 7 ∧ freeTest (s.t.pi j) = true

/-- The bases are aligned, and no two grants have an inode in common. -/
def Exclusive (s : State) : Prop := (∀ g ∈ s.grants, 128 ∣ g.base) ∧
  s.grants.Pairwise fun g h => ∀ a, ¬ (g.Covers a ∧ h.Covers a)

variable {s s' : State} {t t' : Table} {p : ℕ → PmfsInode} {i j n fuel : ℕ} {inode : Inode}
  {flags : UInt32} {env : Env}

/-- What holds along a run: with the first grant the cursor stops to be aligned, and the second one
takes it. -/
def Granted (s : State) : Prop :=
  (s.grants = [] ∧ 128 ∣ s.ps.uFreeInodeBase) ∨
    (∃ g, s.grants = [g] ∧ 128 ∣ g.base ∧ s.ps.uFreeInodeBase = (g.base + 100) % 2 ^ 64) ∨
    (2 ≤ s.grants.length ∧ ∃ g ∈ s.grants, ¬ 128 ∣ g.base)

theorem Granted.exclusive_iff (h : Granted s) : Exclusive s ↔ s.grants.length ≤ 1 := by
  rcases h with ⟨hnil, -⟩ | ⟨g, hone, hbase, -⟩ | ⟨htwo, g, hg, hbase⟩
  · simp [Exclusive, hnil]
  · simp [Exclusive, hone, hbase]
  · exact ⟨fun hex => absurd (hex.1 g hg) hbase, fun hle => by omega⟩

theorem not_aligned (b : ℕ) (h : 128 ∣ b) : ¬ 128 ∣ (b + 100) % 2 ^ 64 := by
  rw [Nat.dvd_mod_iff (by decide)]
  omega

theorem firstBase_aligned {base b : ℕ} {num : UInt32} {grow : List (Option Errno)}
    (hbase : 128 ∣ base) (h : firstBase t base num grow = some (t', b)) : 128 ∣ b := by
  unfold firstBase at h
  split_ifs at h
  · obtain ⟨t1, -, heq⟩ := Option.map_eq_some_iff.mp h
    cases heq
    exact (Nat.dvd_mod_iff (by decide)).mpr (Nat.dvd_mul_left _ _)
  · cases h
    exact hbase

theorem Granted.step (h : Granted s) (hstep : Step s s') : Granted s' := by
  obtain ⟨op, hexec⟩ := hstep
  cases op with
  | alloc num grow =>
    obtain ⟨r, halloc, rfl⟩ := Option.map_eq_some_iff.mp hexec
    obtain ⟨⟨t1, b⟩, hfirst, rfl⟩ := Option.map_eq_some_iff.mp halloc
    rcases h with ⟨hnil, hbase⟩ | ⟨g, hone, hbase, hcursor⟩ | ⟨htwo, g, hg, hbase⟩
    · exact Or.inr (Or.inl ⟨_, by rw [hnil], firstBase_aligned hbase hfirst, rfl⟩)
    · -- the cursor is not 0, so that the second call takes it as it is
      have hnot := not_aligned g.base hbase
      rw [← hcursor] at hnot
      have hne : s.ps.uFreeInodeBase ≠ 0 := fun hzero => hnot (hzero ▸ Nat.dvd_zero _)
      rw [firstBase, if_neg hne] at hfirst
      cases hfirst
      exact Or.inr (Or.inr ⟨by simp [hone], _, List.mem_cons_self, hnot⟩)
    · exact Or.inr (Or.inr ⟨Nat.le_succ_of_le htwo, g, List.mem_cons_of_mem _ hg, hbase⟩)
  | new inode flags env =>
    obtain ⟨r, -, rfl⟩ := Option.map_eq_some_iff.mp hexec
    exact h
  | nlink i links | free i err now =>
    cases hexec
    exact h

/-! ### What the kernel takes -/

theorem scanBlock_before : Used p i (scanBlock p i n) := by
  induction n generalizing i with
  | zero => exact fun k h1 h2 => absurd h1 (Nat.not_le.mpr h2)
  | succ n ih =>
    unfold scanBlock
    split_ifs with hfree
    · exact fun k h1 h2 => absurd h1 (Nat.not_le.mpr h2)
    · intro k h1 h2
      rcases Nat.eq_or_lt_of_le h1 with rfl | hlt
      · exact Bool.eq_false_iff.mpr hfree
      · exact ih k hlt h2

theorem scanTable_before (h : scanTable t fuel i = some j) : Used t.pi i j := by
  induction fuel generalizing i with
  | zero =>
    cases h
    exact fun k h1 h2 => absurd h1 (Nat.not_le.mpr h2)
  | succ fuel ih =>
    unfold scanTable at h
    split_ifs at h
    · dsimp only at h
      split_ifs at h
      · cases h
        exact scanBlock_before
      · intro k h1 h2
        by_cases hk : k <
          scanBlock t.pi i (i + (inodesPerBlock t.iBlkType - i % inodesPerBlock t.iBlkType) - i)
        · exact scanBlock_before k h1 hk
        · exact ih h k (Nat.le_of_not_lt hk) h2
    · cases h
      exact fun k h1 h2 => absurd h1 (Nat.not_le.mpr h2)

/-- Between the hint and what is found, the slots of the table are in use. -/
theorem find_before {grow : List (Option Errno)} (h : findInode t grow i = some (t', .ok j)) :
    Used t.pi i (min j (t.iSize >>> 7)) := by
  induction grow generalizing t i with
  | nil =>
    obtain ⟨j', hscan, -, ⟨-, heq, -⟩ | ⟨-, -, e, hcon⟩ | ⟨-, rest, hcon, -⟩⟩ := find_cases h
    · cases heq
      exact (scanTable_before hscan).mono le_rfl (min_le_left _ _)
    · simp at hcon
    · simp at hcon
  | cons e grow ih =>
    obtain ⟨j', hscan, -, ⟨-, heq, -⟩ | ⟨-, -, e, hcon⟩ | ⟨-, rest, heq, hrest⟩⟩ := find_cases h
    · cases heq
      exact (scanTable_before hscan).mono le_rfl (min_le_left _ _)
    · simp at hcon
    · obtain ⟨-, rfl⟩ := List.cons.inj heq
      intro k h1 h2
      obtain ⟨hkj, hsize⟩ := lt_min_iff.mp h2
      by_cases hk : k < j'
      · exact scanTable_before hscan k h1 hk
      · have hext := increase_extends t
        rw [← hext.slots k hsize]
        exact ih hrest k (Nat.le_of_not_lt hk) (lt_min hkj (hsize.trans_le hext.size))

/-- What `pmfs_new_inode` returns was free, and the first free inode from the hint on. -/
theorem new_spec (h : pmfsNewInode t inode flags env = some (t', .ok i)) : ∃ t1, Extends t t1 ∧
    t.hint ≤ i ∧ freeTest (t1.pi i) = true ∧ Used t.pi t.hint (min i (t.iSize >>> 7)) := by
  obtain ⟨t2, hsel, -⟩ := new_select h
  obtain ⟨t1, hext, hle, -, hfree, -⟩ := select_spec hsel
  obtain ⟨⟨t3, _ | k⟩, hfind, hr⟩ := Option.map_eq_some_iff.mp hsel
  · simp at hr
  · obtain rfl := Except.ok.inj (Prod.mk.inj hr).2
    exact ⟨t1, hext, hle, hfree, find_before hfind⟩

/-- **When grants are aligned and exclusive.** In every run from a state without grants whose cursor
is aligned, the bases are aligned and the ranges disjoint if and only if inodes are granted once at
most; and the kernel takes no granted inode where each of them from the hint on is in use or comes
after a free one. -/
theorem grants_exclusive (hnone : s.grants = []) (hbase : 128 ∣ s.ps.uFreeInodeBase)
    (hrun : Relation.ReflTransGen Step s s') :
    (Exclusive s' ↔ s'.grants.length ≤ 1) ∧ ∀ inode flags env t' i, Clear s' →
      pmfsNewInode s'.t inode flags env = some (t', .ok i) →
      ∀ g ∈ s'.grants, ¬ g.Covers (128 * i) := by
  have hgranted : Granted s' := by
    induction hrun with
    | refl => exact Or.inl ⟨hnone, hbase⟩
    | tail _ hstep ih => exact ih.step hstep
  refine ⟨hgranted.exclusive_iff, fun inode flags env t' i hclear hnew g hg hcovers => ?_⟩
  obtain ⟨t1, hext, hle, hfree, hused⟩ := new_spec hnew
  rcases hclear g hg i hle hcovers with ⟨hlt, hin⟩ | ⟨j, hj, hji, hsize, hfirst⟩
  · rw [hext.slots i hlt, hin] at hfree
    simp at hfree
  · rw [hused j hj (lt_min hji hsize)] at hfirst
    simp at hfirst

/-- A new file system with a table of 32 inodes. -/
def table32 : State := ⟨newTable 0x1000000 0 (rootInode 0o755 0 0 0 0), ⟨0, 0, 0, 0, 0⟩, []⟩

/-- The environment of a call that succeeds. -/
def plain : Env := ⟨none, [], false, none, none, none, 1⟩

/-- The kernel takes 3 inodes, 2 are granted, and the kernel frees one of its own and takes the same
one again. -/
theorem grants_exclusive_two : ∃ s' t', Relation.ReflTransGen Step table32 s' ∧
    s'.grants = [⟨768, 2⟩] ∧ Exclusive s' ∧ pmfsNewInode s'.t (newInode 0o100644 0 0 0 0) 0 plain =
    some (t', .ok 4) ∧ ∀ g ∈ s'.grants, ¬ g.Covers (128 * 4) := by
  obtain ⟨s', hrun, hgrants, ⟨hhint, hsize, hfree⟩, ⟨t', r⟩, hnew, hr⟩ : ∃ s' ∈
    run Op.exec (fun _ _ => True) table32
      [.new (newInode 0o100644 0 0 0 0) 0 plain, .new (newInode 0o100644 0 0 0 0) 0 plain,
        .new (newInode 0o100644 0 0 0 0) 0 plain, .alloc 2 [], .nlink 4 0, .free 4 none 1],
      s'.grants = [⟨768, 2⟩] ∧
      (s'.t.hint ≤ 4 ∧ 4 < s'.t.iSize >>> 7 ∧ freeTest (s'.t.pi 4) = true) ∧
      ∃ r ∈ pmfsNewInode s'.t (newInode 0o100644 0 0 0 0) 0 plain, r.2.toOption = some 4 := by
      decide +kernel
  have hsteps : Relation.ReflTransGen Step table32 s' :=
    run_rel (fun _ op _ _ hexec => ⟨op, hexec⟩) hrun
  obtain ⟨hex, hkernel⟩ := grants_exclusive rfl (Nat.dvd_zero 128) hsteps
  have hclear : Clear s' := by
    intro g hg i hi hcovers
    rw [hgrants] at hg
    obtain rfl := List.mem_singleton.mp hg
    have hlow : 768 ≤ 128 * i := hcovers.1
    exact Or.inr ⟨4, hhint, by omega, hsize, hfree⟩
  cases r with
  | error e => simp [Except.toOption] at hr
  | ok i =>
    obtain rfl : i = 4 := by simpa [Except.toOption] using hr
    exact ⟨s', t', hsteps, hgrants, hex.mpr (by simp [hgrants]), hnew,
      hkernel _ _ _ t' 4 hclear hnew⟩

/-- Two clients ask for 4 inodes each. The second base is not aligned, and the ranges overlap. The
kernel then takes the inode 640, which is in both. -/
theorem second_grant : ∃ s', Relation.ReflTransGen Step table32 s' ∧
    s'.grants = [⟨484, 4⟩, ⟨384, 4⟩] ∧ ¬ Exclusive s' ∧
    ∃ t', pmfsNewInode s'.t (newInode 0o100644 0 0 0 0) 0 plain =
      some (t', .ok 5) ∧ ∀ g ∈ s'.grants, g.Covers (128 * 5) := by
  obtain ⟨s', hrun, hgrants, ⟨t', r⟩, hnew, hr, hcovers⟩ : ∃ s' ∈
    run Op.exec (fun _ _ => True) table32
      [.alloc 4 [], .alloc 4 []], s'.grants = [⟨484, 4⟩, ⟨384, 4⟩] ∧
      ∃ r ∈ pmfsNewInode s'.t (newInode 0o100644 0 0 0 0) 0 plain,
        r.2.toOption = some 5 ∧ ∀ g ∈ s'.grants, g.Covers (128 * 5) := by decide +kernel
  refine ⟨s', run_rel (fun _ op _ _ hexec => ⟨op, hexec⟩) hrun, hgrants, fun hcon => ?_,
    t', ?_, hcovers⟩
  · have hdvd : 128 ∣ 484 := hcon.1 ⟨484, 4⟩ (by simp [hgrants])
    exact absurd hdvd (by decide)
  · cases r with
    | error e => simp [Except.toOption] at hr
    | ok i =>
      obtain rfl : i = 5 := by simpa [Except.toOption] using hr
      exact hnew

end Pmfs.Itable.Grants
