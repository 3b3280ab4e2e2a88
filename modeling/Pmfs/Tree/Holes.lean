import Pmfs.Tree.Retry

/-! # Filling holes one at a time

An allocation of one block asks for at most one log entry (`need_one_le`), and for exactly one when
the block is missing in a tree that is there (`treeNeed_one`). So the holes of a file from an index
on, filled one after the other, ask for as many entries as `holes` says, the first block of an empty
file apart: `fill_hole` is one step of this. -/

namespace Pmfs.Tree.Holes

open Lib.First Lib.Radix Lib.RadixMap Block.Model Tree.Model Tree.Own
open Tree.Inode Tree.Extend Tree.Supply Tree.Demand Tree.Retry
open RTree

/-- The log entries for filling the holes from the index `a` on: one each, but none for the first
block of a file. -/
def holes (d : Dev) (pi : PmfsInode) (a : ℕ) : ℕ :=
  ((Finset.Ico a (512 ^ 3)).filter fun n => mapped d pi n = 0).card - if pi.root = 0 then 1 else 0

variable {R : Multiset ℕ} {d d' : Dev} {pi pi' : PmfsInode} {o : Option Errno}
  {T : RTree} {c : ℕ → RTree} {a k n p x y : ℕ} {zero : Bool}

/-! ### One block -/

theorem miss_one (c : ℕ → RTree) (k x : ℕ) :
    miss c k x x = if c (x / 512 ^ k) = empty then x / 512 ^ k else x / 512 ^ k + 1 := by
  have hle : x / 512 ^ k ≤ x / 512 ^ k + 1 := Nat.le_succ _
  have hlow : x / 512 ^ k ≤ miss c k x x := le_first hle
  have hhigh : miss c k x x ≤ x / 512 ^ k + 1 := first_le hle
  split_ifs with hc
  · refine le_antisymm ?_ hlow
    by_contra hcon
    exact not_of_lt_first le_rfl (not_le.mp hcon) hc
  · refine le_antisymm hhigh (Nat.lt_of_le_of_ne hlow fun hcon => hc ?_)
    have hholds := first_holds hle (show miss c k x x < x / 512 ^ k + 1 by omega)
    rw [hcon]
    exact hholds

/-- The node of the one missing child, or the way further down. -/
theorem need_one (k x : ℕ) : need (k + 1) x x (node p c) =
    if c (x / 512 ^ k) = empty then 1 else need k (x % 512 ^ k) (x % 512 ^ k)
    (c (x / 512 ^ k)) := by
  have hlo : lo 512 k x (x / 512 ^ k) = x % 512 ^ k := if_pos rfl
  have hhi : hi 512 k x (x / 512 ^ k) = x % 512 ^ k := if_pos rfl
  rw [need_node, own, below, miss_one]
  split_ifs with hc
  · rw [Nat.sub_self, Finset.Ico_self, Finset.sum_empty]
    rfl
  · omega
  · omega
  · rw [Finset.sum_Ico_succ_top le_rfl, Finset.Ico_self, Finset.sum_empty, hlo, hhi]
    omega

theorem need_one_le : ∀ {k x : ℕ} {T : RTree}, need k x x T ≤ 1
  | 0, _, _ => by
    rw [need_zero]
    exact Nat.zero_le 1
  | _ + 1, _, empty => Nat.zero_le 1
  | _ + 1, _, leaf _ => Nat.zero_le 1
  | k + 1, x, node p c => by
    rw [need_one]
    split_ifs
    · exact le_rfl
    · exact need_one_le

theorem need_of_stops {noMeta : Prop} : ∀ {k x : ℕ} {T : RTree}, Stops noMeta k x T → T ≠ empty →
    need k x x T = 1
  | 0, _, empty, _, h => absurd rfl h
  | _ + 1, _, empty, _, h => absurd rfl h
  | k + 1, x, node p c, hstop, _ => by
    rw [need_one]
    split_ifs with hc
    · rfl
    · exact need_of_stops hstop hc

theorem stops_raise : ∀ {n : ℕ}, (x < 512 ^ k → Stops True k x T) → x < 512 ^ (k + n) →
    Stops True (k + n) x (raise n T)
  | 0, h, hx => h hx
  | n + 1, h, hx => by
    rw [← Nat.add_assoc, raise, Stops]
    by_cases hlow : x / 512 ^ (k + n) = 0
    · have hlt : x < 512 ^ (k + n) := by
        rcases Nat.div_eq_zero_iff.mp hlow with hcon | hlt
        · exact absurd hcon (by positivity)
        · exact hlt
      rw [if_pos hlow, Nat.mod_eq_of_lt hlt]
      exact stops_raise h hlt
    · rw [if_neg hlow]
      cases k + n <;> trivial

theorem raise_ne_empty (h : T ≠ empty) : ∀ n, raise n T ≠ empty
  | 0 => h
  | _ + 1 => by simp [raise]

/-- A missing block asks for one entry, unless all nodes of the file are new. -/
theorem treeNeed_one (hy : y < 2 ^ 64) (hlt : indexOf pi y < 512 ^ 3)
    (hhole : mapped d pi (indexOf pi y) = 0) :
    treeNeed d pi y 1 = if pi.root = 0 then 0 else 1 := by
  unfold treeNeed
  rw [lastIndex_one pi hy]
  by_cases hroot : pi.root = 0
  · rw [if_pos (Or.inl hroot), if_pos hroot]
  · rw [if_neg (not_or.mpr ⟨hroot, not_le.mpr hlt⟩), if_neg hroot]
    have hle := le_topHeight pi (indexOf pi y)
    have htree : treeOf d pi ≠ empty := fun hcon => hroot (tree_eq_empty_iff.mp hcon)
    have hstop : Stops True (topHeight pi (indexOf pi y)) (indexOf pi y)
        (raise (topHeight pi (indexOf pi y) - pi.height) (treeOf d pi)) := by
      nth_rewrite 1 [← Nat.add_sub_cancel' hle]
      refine stops_raise (fun hin => ?_) ?_
      · rw [mapped, lookup_of_lt hin] at hhole
        exact stops_of_find trivial uniform_tree hhole
      · rw [Nat.add_sub_cancel' hle]
        exact lt_topHeight pi hlt
    exact need_of_stops hstop (raise_ne_empty htree _)

/-! ### The holes from an index on -/

theorem holes_of_le (h : 512 ^ 3 ≤ a) : holes d pi a = 0 := by
  unfold holes
  rw [Finset.Ico_eq_empty (not_lt.mpr h), Finset.filter_empty, Finset.card_empty, Nat.zero_sub]

theorem holes_succ (h : mapped d pi a ≠ 0) : holes d pi (a + 1) = holes d pi a := by
  unfold holes
  congr 2
  ext n
  rw [Finset.mem_filter, Finset.mem_filter, Finset.mem_Ico, Finset.mem_Ico]
  constructor
  · rintro ⟨hn, h0⟩
    exact ⟨by omega, h0⟩
  · rintro ⟨hn, h0⟩
    have hne : n ≠ a := by
      rintro rfl
      exact h h0
    exact ⟨by omega, h0⟩

theorem le_holes (ha : a < 512 ^ 3) (hhole : mapped d pi a = 0) :
    (if pi.root = 0 then 0 else 1) ≤ holes d pi a := by
  have hmem : a ∈ (Finset.Ico a (512 ^ 3)).filter fun n => mapped d pi n = 0 :=
    Finset.mem_filter.mpr ⟨Finset.mem_Ico.mpr ⟨le_rfl, ha⟩, hhole⟩
  have hpos := Finset.card_pos.mpr ⟨a, hmem⟩
  unfold holes
  split_ifs <;> omega

theorem holes_filled (ha : a < 512 ^ 3) (hhole : mapped d pi a = 0) (hfill : mapped d' pi' a ≠ 0)
    (hrest : ∀ n, n ≠ a → mapped d' pi' n = mapped d pi n) :
    (if pi.root = 0 then 0 else 1) + holes d' pi' a = holes d pi a := by
  have hmem : a ∈ (Finset.Ico a (512 ^ 3)).filter fun n => mapped d pi n = 0 :=
    Finset.mem_filter.mpr ⟨Finset.mem_Ico.mpr ⟨le_rfl, ha⟩, hhole⟩
  have herase : (Finset.Ico a (512 ^ 3)).filter (fun n => mapped d' pi' n = 0) =
      ((Finset.Ico a (512 ^ 3)).filter fun n => mapped d pi n = 0).erase a := by
    ext n
    rw [Finset.mem_erase, Finset.mem_filter, Finset.mem_filter]
    by_cases hn : n = a
    · rw [hn]
      exact iff_of_false (fun h => hfill h.2) fun h => h.1 rfl
    · rw [hrest n hn]
      tauto
  have hpos := Finset.card_pos.mpr ⟨a, hmem⟩
  unfold holes
  rw [herase, Finset.card_erase_of_mem hmem, if_neg (root_of_mapped hfill)]
  split_ifs <;> omega

/-- **Main result.** One hole is filled: what this asks for is the difference in `holes`, and no
more is asked for when it fails. -/
theorem fill_hole (hwf : WellFormed R d pi) (hy : y < 2 ^ 64) (hlt : indexOf pi y < 512 ^ 3)
    (hhole : mapped d pi (indexOf pi y) = 0)
    (hrun : __pmfsAllocBlocks d pi y 1 zero = some (d', pi', o)) : ∃ n, Logs d d' n ∧
    n ≤ holes d pi (indexOf pi y) ∧
      (o = none → n + holes d' pi' (indexOf pi y) = holes d pi (indexOf pi y)) := by
  obtain ⟨hadd, hfill⟩ := alloc_run hwf hrun
  obtain ⟨n, hlogs, hle, hexact⟩ := alloc_demand hwf hrun
  rw [treeNeed_one hy hlt hhole] at hle hexact
  refine ⟨n, hlogs, hle.trans (le_holes hlt hhole), fun ho => ?_⟩
  obtain ⟨hfilled, hin⟩ := hfill ho
  rw [lastIndex_one pi hy] at hfilled hin
  have hnew : mapped d' pi' (indexOf pi y) ≠ 0 := by
    rw [mapped, lookup_of_lt hin]
    exact hfilled.find_ne_zero (by norm_num) uniform_tree le_rfl le_rfl
  have hrest : ∀ n, n ≠ indexOf pi y → mapped d' pi' n = mapped d pi n := by
    intro n hn
    exact hadd.ext.outside n fun hasked => hn (asked_one hy hasked)
  rw [hexact ho]
  exact holes_filled hlt hhole hnew hrest

end Pmfs.Tree.Holes
