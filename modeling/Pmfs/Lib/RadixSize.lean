import Pmfs.Lib.Radix
import Mathlib.Algebra.BigOperators.Ring.Finset

/-! # How many nodes a radix tree has

A tree of height `k` that reaches just up to the index `L` has `L / F ^ j + 1` nodes at height `j`,
if nothing is missing before `L`. `size` adds them up. A tree below `L` has no more nodes, and one
less at least when `L` has no leaf (`nodes_le`); one that is filled up to `L` has no fewer
(`le_nodes`). -/

namespace Pmfs.Lib.Radix

open RTree

variable {F k k' f l L L' q S s : ℕ} {t : RTree} {c : ℕ → RTree}

variable (F) in
/-- The number of nodes and leaves. -/
def nodes (t : RTree) : ℕ := weight F (fun _ => 1) (fun _ => 1) t

variable (F) in
/-- The number of nodes and leaves on the ways to the indices up to `L`. -/
def size (k L : ℕ) : ℕ := ∑ j ∈ Finset.range (k + 1), (L / F ^ j + 1)

theorem nodes_node {p : ℕ} : nodes F (node p c) = 1 + ∑ i ∈ Finset.range F, nodes F (c i) := rfl

theorem size_mono (hk : k ≤ k') (hL : L ≤ L') : size F k L ≤ size F k' L' := by
  calc size F k L ≤ size F k L' := Finset.sum_le_sum fun j _ => by
        have := Nat.div_le_div_right (c := F ^ j) hL
        omega
    _ ≤ size F k' L' := Finset.sum_le_sum_of_subset (Finset.range_mono (by omega))

theorem size_lt (hk : k < k') : size F k L < size F k' L := by
  have hle : size F (k + 1) L ≤ size F k' L := size_mono hk le_rfl
  have hstep : size F (k + 1) L = size F k L + (L / F ^ (k + 1) + 1) := Finset.sum_range_succ _ _
  rw [hstep] at hle
  exact (Nat.lt_add_of_pos_right (Nat.succ_pos _)).trans_le hle

theorem size_pos : 0 < size F k L := by
  have hle : size F 0 L ≤ size F k L := size_mono (Nat.zero_le k) le_rfl
  have hone : size F 0 L = L / F ^ 0 + 1 := Finset.sum_range_one _
  rw [hone] at hle
  exact (Nat.succ_pos _).trans_le hle

/-- A full tree has `F ^ (k - j)` nodes at height `j`. -/
theorem size_full (hF : 0 < F) :
    size F k (F ^ k - 1) = ∑ j ∈ Finset.range (k + 1), F ^ (k - j) := by
  refine Finset.sum_congr rfl fun j hj => ?_
  have hsplit : F ^ k = F ^ (k - j) * F ^ j := by
    rw [← pow_add, Nat.sub_add_cancel (by simpa [Nat.lt_succ_iff] using hj)]
  have hone : 1 ≤ F ^ (k - j) * F ^ j := Nat.mul_pos (Nat.pow_pos hF) (Nat.pow_pos hF)
  have hlt : F ^ j - 1 < F ^ j := Nat.sub_lt (Nat.pow_pos hF) one_pos
  obtain ⟨a, ha⟩ : ∃ a, F ^ (k - j) = a + 1 := ⟨F ^ (k - j) - 1, by
    have := Nat.pow_pos (n := k - j) hF
    omega⟩
  rw [hsplit, ha, show (a + 1) * F ^ j - 1 = (F ^ j - 1) + a * F ^ j by
    rw [Nat.add_mul, Nat.one_mul]
    omega, Nat.add_mul_div_right _ _ (Nat.pow_pos hF), Nat.div_eq_of_lt hlt, Nat.zero_add]

theorem size_succ (hF : 0 < F) (hL : L < F ^ (k + 1)) :
    size F (k + 1) L = 1 + (L / F ^ k * size F k (F ^ k - 1) + size F k (L % F ^ k)) := by
  have hlast : L / F ^ (k + 1) = 0 := Nat.div_eq_of_lt hL
  have hlevel : ∀ j ∈ Finset.range (k + 1),
      L / F ^ j + 1 = L / F ^ k * F ^ (k - j) + (L % F ^ k / F ^ j + 1) := by
    intro j hj
    have hsplit : F ^ k = F ^ (k - j) * F ^ j := by
      rw [← pow_add, Nat.sub_add_cancel (by simpa [Nat.lt_succ_iff] using hj)]
    have hdiv := Nat.div_add_mod' L (F ^ k)
    have hL' : L = L % F ^ k + L / F ^ k * F ^ (k - j) * F ^ j := by
      rw [Nat.mul_assoc, ← hsplit]
      omega
    have hquot : L / F ^ j = L % F ^ k / F ^ j + L / F ^ k * F ^ (k - j) := by
      conv_lhs => rw [hL']
      exact Nat.add_mul_div_right _ _ (Nat.pow_pos hF)
    omega
  rw [size, Finset.sum_range_succ, hlast, Finset.sum_congr rfl hlevel, Finset.sum_add_distrib,
    ← Finset.mul_sum, ← size_full hF]
  unfold size
  omega

/-- A sum over the children, which have `S` before the child `q`, `s` there, and nothing behind. -/
theorem sum_profile (hq : q < F) :
    ∑ i ∈ Finset.range F, (if i < q then S else if i = q then s else 0) = q * S + s := by
  obtain ⟨n, rfl⟩ : ∃ n, F = q + 1 + n := ⟨F - (q + 1), by omega⟩
  rw [Finset.sum_range_add, Finset.sum_range_succ]
  have hbefore : ∑ i ∈ Finset.range q, (if i < q then S else if i = q then s else 0) = q * S := by
    rw [Finset.sum_congr rfl fun i hi => if_pos (Finset.mem_range.mp hi), Finset.sum_const,
      Finset.card_range, nsmul_eq_mul, Nat.cast_id]
  have hbehind : ∑ i ∈ Finset.range n,
      (if q + 1 + i < q then S else if q + 1 + i = q then s else 0) = 0 :=
    Finset.sum_eq_zero fun i _ => by rw [if_neg (by omega), if_neg (by omega)]
  rw [hbefore, hbehind, if_neg (lt_irrefl q), if_pos rfl, Nat.add_zero]

/-- A tree with nothing above `L` has at most the nodes up to there, one less when `L` is missing.
-/
theorem nodes_le (hF : 0 < F) : ∀ {k L : ℕ} {t : RTree}, Uniform F k t → Below F k L t → L < F ^ k →
    nodes F t + (if find F k t L = 0 then 1 else 0) ≤ size F k L
  | _, _, empty, _, _, _ => by
    rw [find_empty, if_pos rfl]
    exact size_pos
  | 0, _, leaf p, hu, _, _ => by
    rw [if_neg (show find F 0 (leaf p) _ ≠ 0 from hu)]
    exact size_pos
  | 0, _, node _ _, hu, _, _ => hu.elim
  | _ + 1, _, leaf _, hu, _, _ => hu.elim
  | k + 1, L, node p c, hu, hb, hL => by
    have hq : L / F ^ k < F := child_lt hL
    have hpos : 0 < F ^ k := Nat.pow_pos hF
    have hdiv := Nat.div_add_mod' L (F ^ k)
    have hmod := Nat.mod_lt L hpos
    have hkid : ∀ i ∈ Finset.range F,
        nodes F (c i) + (if i = L / F ^ k ∧ find F k (c i) (L % F ^ k) = 0 then 1 else 0) ≤
          if i < L / F ^ k then size F k (F ^ k - 1)
          else if i = L / F ^ k then size F k (L % F ^ k) else 0 := by
      intro i _
      rcases Nat.lt_trichotomy i (L / F ^ k) with hlt | rfl | hgt
      · rw [if_pos hlt, if_neg (by omega)]
        have := nodes_le hF (hu.2 i).1 (below_top hF (hu.2 i).1) (by omega)
        omega
      · rw [if_neg (lt_irrefl _), if_pos rfl]
        by_cases hc : c (L / F ^ k) = empty
        · rw [hc, find_empty, if_pos ⟨rfl, rfl⟩]
          exact size_pos
        · have hbelow := (hb _ hc).2
          rw [← Nat.mod_eq_sub_div_mul] at hbelow
          simpa using nodes_le hF (hu.2 _).1 hbelow hmod
      · have hempty : c i = empty := by
          by_contra hc
          have h1 := (hb i hc).1
          have h2 : (L / F ^ k + 1) * F ^ k ≤ i * F ^ k := Nat.mul_le_mul_right _ hgt
          rw [Nat.add_mul, Nat.one_mul] at h2
          omega
        rw [if_neg (by omega), if_neg (by omega), if_neg (by omega), hempty]
        exact le_rfl
    have hsum := Finset.sum_le_sum hkid
    have hone : ∑ i ∈ Finset.range F,
        (if i = L / F ^ k ∧ find F k (c i) (L % F ^ k) = 0 then 1 else 0) =
          if find F (k + 1) (node p c) L = 0 then 1 else 0 := by
      rw [Finset.sum_eq_single (L / F ^ k) (fun i _ hi => if_neg fun h => hi h.1)
        fun h => absurd (Finset.mem_range.mpr hq) h, find]
      simp
    rw [Finset.sum_add_distrib, hone, sum_profile hq] at hsum
    rw [size_succ hF hL, nodes_node]
    omega

/-- A tree that is filled up to `L` has at least the nodes up to there. -/
theorem le_nodes (hF : 0 < F) : ∀ {k L : ℕ} {t : RTree}, Filled F k 0 L t → L < F ^ k →
    size F k L ≤ nodes F t
  | 0, L, leaf p, _, hL => by
    obtain rfl : L = 0 := by simpa using hL
    simp [size, nodes, weight]
  | 0, _, empty, h, _ => h.elim
  | 0, _, node _ _, h, _ => h.elim
  | _ + 1, _, empty, h, _ => h.elim
  | _ + 1, _, leaf _, h, _ => h.elim
  | k + 1, L, node p c, h, hL => by
    have hq : L / F ^ k < F := child_lt hL
    have hpos : 0 < F ^ k := Nat.pow_pos hF
    have hlo : ∀ i, lo F k 0 i = 0 := fun i => by
      unfold lo
      split_ifs <;> simp
    have hkid : ∀ i ∈ Finset.range F, (if i < L / F ^ k then size F k (F ^ k - 1)
        else if i = L / F ^ k then size F k (L % F ^ k) else 0) ≤ nodes F (c i) := by
      intro i _
      split_ifs with h1 h2
      · have hfill := h i (by simp) h1.le
        rw [hlo, hi, if_neg (by omega)] at hfill
        exact le_nodes hF hfill (by omega)
      · have hfill := h i (by simp) h2.le
        rw [hlo, hi, if_pos h2] at hfill
        exact le_nodes hF hfill (Nat.mod_lt _ hpos)
      · exact Nat.zero_le _
    have hsum := Finset.sum_le_sum hkid
    rw [sum_profile hq] at hsum
    rw [size_succ hF hL, nodes_node]
    omega

end Pmfs.Lib.Radix
