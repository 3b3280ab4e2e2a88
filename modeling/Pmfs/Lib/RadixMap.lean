import Pmfs.Lib.Radix
import Mathlib.Algebra.BigOperators.Intervals

/-! # The map of a radix tree

A tree of height `k` is a map from indices to leaves, `0` where there is none: `lookup`, which
extends `find` by `0` beyond the last index. Growing a tree over a range keeps what is mapped
(`grown_find_of_ne`) and maps nothing outside of the range (`grown_find_outside`), and each new leaf
comes on top of what the tree occupied before (`grown_pages_fresh`). Pruning a range unmaps exactly
this range (`find_prune`). `inGap` says how far inside an empty subtree an index lies. `leaves`
counts the mapped indices (`leaves_eq_card_lookup`). Where no node is barren, the map says how far
the tree reaches (`fruitful_below`). -/

namespace Pmfs.Lib.RadixMap

open Lib.Radix RTree

variable {F k f l n p : ℕ} {wn wl : ℕ → Multiset ℕ} {t t' : RTree} {c : ℕ → RTree}

variable (F) in
/-- The leaf at an index, `0` when there is none or the index is beyond the tree. -/
def lookup (k : ℕ) (t : RTree) (n : ℕ) : ℕ := if n < F ^ k then find F k t n else 0

theorem lookup_of_lt (hn : n < F ^ k) : lookup F k t n = find F k t n := if_pos hn

theorem lookup_of_le (hn : F ^ k ≤ n) : lookup F k t n = 0 := if_neg (not_lt.mpr hn)

@[simp] theorem lookup_empty : lookup F k empty n = 0 := by
  unfold lookup
  simp

theorem lt_of_lookup_ne (h : lookup F k t n ≠ 0) : n < F ^ k := by
  by_contra hcon
  exact h (lookup_of_le (not_lt.mp hcon))

/-- A node whose only child is the first one maps what this child maps. -/
theorem lookup_single (hF : 0 < F) (h : ∀ i, i ≠ 0 → c i = empty) :
    lookup F (k + 1) (node p c) n = lookup F k (c 0) n := by
  have hle : F ^ k ≤ F ^ (k + 1) := Nat.pow_le_pow_right hF (Nat.le_succ k)
  by_cases hn : n < F ^ k
  · rw [lookup_of_lt (hn.trans_le hle), lookup_of_lt hn, find, Nat.div_eq_of_lt hn,
      Nat.mod_eq_of_lt hn]
  rw [lookup_of_le (not_lt.mp hn)]
  by_cases hn' : n < F ^ (k + 1)
  · have hne : n / F ^ k ≠ 0 := (Nat.div_pos (not_lt.mp hn) (Nat.pow_pos hF)).ne'
    rw [lookup_of_lt hn', find, h _ hne, find_empty]
  · exact lookup_of_le (not_lt.mp hn')

/-- An index of a child, as an index of the node. -/
theorem find_child {i j : ℕ} (hj : j < F ^ k) :
    find F (k + 1) (node p c) (i * F ^ k + j) = find F k (c i) j := by
  rw [find, Nat.add_comm, Nat.add_mul_div_right _ _ (by omega), Nat.div_eq_of_lt hj, Nat.zero_add,
    Nat.add_mul_mod_self_right, Nat.mod_eq_of_lt hj]

theorem child_index_lt {i j : ℕ} (hi : i < F) (hj : j < F ^ k) : i * F ^ k + j < F ^ (k + 1) := by
  calc i * F ^ k + j < i * F ^ k + F ^ k := by omega
    _ = (i + 1) * F ^ k := by rw [Nat.succ_mul]
    _ ≤ F * F ^ k := Nat.mul_le_mul_right _ hi
    _ = F ^ (k + 1) := (pow_succ' F k).symm

/-! ### Gaps -/

variable (F) in
/-- The height of the empty subtree that the way to an index ends in, `0` when it ends in a leaf. -/
def gap : ℕ → RTree → ℕ → ℕ
  | k, empty, _ => k
  | k + 1, node _ c, n => gap k (c (n / F ^ k)) (n % F ^ k)
  | _, _, _ => 0

theorem gap_le : ∀ {k : ℕ} {t : RTree} {n : ℕ}, gap F k t n ≤ k
  | 0, empty, _ => by rw [gap]
  | _ + 1, empty, _ => by rw [gap]
  | 0, leaf _, _ => by simp [gap]
  | _ + 1, leaf _, _ => by simp [gap]
  | 0, node _ _, _ => by simp [gap]
  | k + 1, node _ c, n => by
    rw [gap]
    exact (gap_le).trans (Nat.le_succ k)

variable (F) in
/-- How far an index lies inside the empty subtree that the way to it ends in. -/
def inGap (k : ℕ) (t : RTree) (n : ℕ) : ℕ := n % F ^ gap F k t n

@[simp] theorem inGap_zero : inGap F k t 0 = 0 := Nat.zero_mod _

@[simp] theorem inGap_empty : inGap F k empty n = n % F ^ k := by
  cases k <;> rfl

theorem inGap_lt (hF : 0 < F) : inGap F k t n < F ^ k :=
  (Nat.mod_lt _ (Nat.pow_pos hF)).trans_le (Nat.pow_le_pow_right hF gap_le)

theorem inGap_node : inGap F (k + 1) (node p c) n = inGap F k (c (n / F ^ k)) (n % F ^ k) := by
  unfold inGap
  rw [gap, Nat.mod_mod_of_dvd _ (Nat.pow_dvd_pow F gap_le)]

/-! ### Ranges -/

/-- An index of the range `[f, l]` lies in the part of the range that its child gets. -/
theorem mem_range_iff (hF : 0 < F) : f ≤ n ∧ n ≤ l ↔
    (f / F ^ k ≤ n / F ^ k ∧ n / F ^ k ≤ l / F ^ k) ∧
      lo F k f (n / F ^ k) ≤ n % F ^ k ∧ n % F ^ k ≤ hi F k l (n / F ^ k) := by
  have hmod := Nat.mod_lt n (Nat.pow_pos (n := k) hF)
  have hdm := Nat.div_add_mod' n (F ^ k)
  have hle := Nat.div_mul_le_self n (F ^ k)
  constructor
  · intro h
    have h1 := Nat.div_le_div_right (c := F ^ k) h.1
    have h2 := Nat.div_le_div_right (c := F ^ k) h.2
    rw [lo_eq_sub hF h1, hi_eq_min hF h2]
    exact ⟨⟨h1, h2⟩, by omega, by omega⟩
  · rintro ⟨⟨h1, h2⟩, h3, h4⟩
    have h5 := (le_div_iff_le hF).mp h2
    rw [lo_eq_sub hF h1] at h3
    rw [hi_eq_min hF h2] at h4
    omega

/-! ### Growing -/

/-- The children that a tree has before it grows. -/
def HasKids (p : ℕ) (c : ℕ → RTree) (t : RTree) : Prop :=
  t = node p c ∨ t = empty ∧ c = fun _ => empty

theorem HasKids.find (h : HasKids p c t) :
    find F (k + 1) t n = find F k (c (n / F ^ k)) (n % F ^ k) := by
  rcases h with rfl | ⟨rfl, rfl⟩
  · rfl
  · simp

theorem HasKids.pages_le (h : HasKids p c t) :
    pages F wn wl t ≤ wn p + ∑ i ∈ Finset.range F, pages F wn wl (c i) := by
  rcases h with rfl | ⟨rfl, rfl⟩
  · exact le_rfl
  · exact Multiset.zero_le _

theorem grown_find_of_ne : ∀ {k f l n : ℕ} {t t' : RTree}, Grown F k f l t t' → find F k t n ≠ 0 →
    find F k t' n = find F k t n
  | 0, _, _, _, _, _, h, hne => by
    rcases h with rfl | ⟨rfl, -⟩
    · rfl
    · exact absurd find_empty hne
  | k + 1, f, l, n, t, t', h, hne => by
    rcases h with rfl | ⟨p, c, c', -, rfl, hc, h⟩
    · rfl
    rw [HasKids.find hc] at hne ⊢
    rw [find]
    have hi := h (n / F ^ k)
    split_ifs at hi
    · exact grown_find_of_ne hi hne
    · rw [hi]

theorem grown_find_outside (hF : 0 < F) : ∀ {k f l n : ℕ} {t t' : RTree}, Grown F k f l t t' →
    (k = 0 → f = 0) → n < F ^ k → ¬ (f ≤ n ∧ n ≤ l) → find F k t' n = find F k t n
  | 0, f, _, _, _, _, _, hf, hn, hout => by
    rw [pow_zero] at hn
    have := hf rfl
    omega
  | k + 1, f, l, n, t, t', h, _, hn, hout => by
    rcases h with rfl | ⟨p, c, c', -, rfl, hc, h⟩
    · rfl
    rw [HasKids.find hc, find]
    rw [mem_range_iff hF] at hout
    have hi := h (n / F ^ k)
    split_ifs at hi with hin
    · refine grown_find_outside hF hi (fun hk => ?_) (Nat.mod_lt _ (Nat.pow_pos hF))
        fun hcon => hout ⟨hin, hcon⟩
      have hlt := lo_lt (f := f) (k := k) hF (n / F ^ k)
      rw [show F ^ k = 1 by rw [hk, pow_zero]] at hlt ⊢
      omega
    · rw [hi]

theorem grown_pages_le : ∀ {k f l : ℕ} {t t' : RTree}, Grown F k f l t t' →
    pages F wn wl t ≤ pages F wn wl t'
  | 0, _, _, _, _, h => by
    rcases h with rfl | ⟨rfl, -⟩
    · exact le_rfl
    · exact Multiset.zero_le _
  | k + 1, f, l, t, t', h => by
    rcases h with rfl | ⟨p, c, c', -, rfl, hc, h⟩
    · exact le_rfl
    refine (HasKids.pages_le hc).trans (Multiset.add_le_add_left (Finset.sum_le_sum fun i _ => ?_))
    have hi := h i
    split_ifs at hi
    · exact grown_pages_le hi
    · rw [hi]

/-- A new leaf occupies nothing of what the tree occupied before. -/
theorem grown_pages_fresh (hF : 0 < F) : ∀ {k f l n : ℕ} {t t' : RTree}, Grown F k f l t t' →
    n < F ^ k → find F k t n = 0 → find F k t' n ≠ 0 → pages F wn wl t + wl (find F k t' n) ≤
    pages F wn wl t'
  | 0, _, _, _, _, _, h, _, h0, h1 => by
    rcases h with rfl | ⟨rfl, p, -, rfl⟩
    · exact absurd h0 h1
    · rw [pages, zero_add]
      exact le_rfl
  | k + 1, f, l, n, t, t', h, hn, h0, h1 => by
    rcases h with rfl | ⟨p, c, c', -, rfl, hc, h⟩
    · exact absurd h0 h1
    rw [HasKids.find hc] at h0
    rw [find] at h1 ⊢
    have hle : ∀ i, pages F wn wl (c i) ≤ pages F wn wl (c' i) := by
      intro i
      have hi := h i
      split_ifs at hi
      · exact grown_pages_le hi
      · rw [hi]
    -- the new leaf is in the child of its index, the other children can only have grown
    have hchild : pages F wn wl (c (n / F ^ k)) + wl (find F k (c' (n / F ^ k)) (n % F ^ k)) ≤
        pages F wn wl (c' (n / F ^ k)) := by
      have hi := h (n / F ^ k)
      split_ifs at hi
      · exact grown_pages_fresh hF hi (Nat.mod_lt _ (Nat.pow_pos hF)) h0 h1
      · rw [hi] at h1
        exact absurd h0 h1
    have hlt := child_lt hn
    calc pages F wn wl t + wl (find F k (c' (n / F ^ k)) (n % F ^ k))
      _ ≤ wn p + ∑ i ∈ Finset.range F, pages F wn wl (c i) +
          wl (find F k (c' (n / F ^ k)) (n % F ^ k)) :=
          Multiset.add_le_add_right (HasKids.pages_le hc)
      _ = wn p + ((pages F wn wl (c (n / F ^ k)) + wl (find F k (c' (n / F ^ k)) (n % F ^ k))) +
          ∑ i ∈ (Finset.range F).erase (n / F ^ k), pages F wn wl (c i)) := by
        rw [sum_split (fun i => pages F wn wl (c i)) hlt]
        ac_rfl
      _ ≤ wn p + (pages F wn wl (c' (n / F ^ k)) +
          ∑ i ∈ (Finset.range F).erase (n / F ^ k), pages F wn wl (c' i)) :=
        Multiset.add_le_add_left (add_le_add hchild (Finset.sum_le_sum fun i _ => hle i))
      _ = pages F wn wl (node p c') := by
        rw [← sum_split (fun i => pages F wn wl (c' i)) hlt, pages]

/-! ### Pruning -/

theorem find_prune (hF : 0 < F) : ∀ {k f l n : ℕ} {t : RTree}, Uniform F k t →
    f < F ^ k → l < F ^ k → n < F ^ k → find F k (prune F k f l t) n = if f ≤ n ∧
    n ≤ l then 0 else find F k t n
  | _, _, _, _, empty, _, _, _, _ => by simp
  | 0, _, _, _, leaf _, _, hf, hl, hn => by
    rw [pow_zero] at hf hl hn
    rw [if_pos (by omega)]
    rfl
  | 0, _, _, _, node _ _, hu, _, _, _ => hu.elim
  | _ + 1, _, _, _, leaf _, hu, _, _, _ => hu.elim
  | k + 1, f, l, n, node p c, hu, _, _, hn => by
    have hmod := Nat.mod_lt n (Nat.pow_pos (n := k) hF)
    have hchild : find F k (if f / F ^ k ≤ n / F ^ k ∧ n / F ^ k ≤ l / F ^ k then
          prune F k (lo F k f (n / F ^ k)) (hi F k l (n / F ^ k))
            (c (n / F ^ k)) else c (n / F ^ k))
        (n % F ^ k) = if f ≤ n ∧ n ≤ l then 0 else find F k (c (n / F ^ k)) (n % F ^ k) := by
      have hrange := mem_range_iff (k := k) (f := f) (l := l) (n := n) hF
      by_cases hin : f / F ^ k ≤ n / F ^ k ∧ n / F ^ k ≤ l / F ^ k
      · rw [if_pos hin, find_prune hF (hu.2 _).1 (lo_lt hF _) (hi_lt hF _) hmod]
        exact if_congr ⟨fun h => hrange.mpr ⟨hin, h⟩, fun h => (hrange.mp h).2⟩ rfl rfl
      · rw [if_neg hin, if_neg fun hcon => hin (hrange.mp hcon).1]
    rcases prune_cases (fun i => rfl : ∀ i, _ = if f / F ^ k ≤ i ∧ i ≤ l / F ^ k then
      prune F k (lo F k f i) (hi F k l i) (c i) else c i) with ⟨hall, heq⟩ | ⟨-, heq⟩
    · rw [heq, find_empty, find, ← hchild, hall _ (child_lt hn), find_empty]
    · rw [heq, find, find, hchild]

theorem lookup_prune (hF : 0 < F) (hu : Uniform F k t) (hf : f < F ^ k) (hl : l < F ^ k) :
    lookup F k (prune F k f l t) n = if f ≤ n ∧ n ≤ l then 0 else lookup F k t n := by
  by_cases hn : n < F ^ k
  · rw [lookup_of_lt hn, lookup_of_lt hn, find_prune hF hu hf hl hn]
  · rw [lookup_of_le (not_lt.mp hn), lookup_of_le (not_lt.mp hn), ite_self]

/-! ### Counting -/

theorem sum_range_mul (g : ℕ → ℕ) (m : ℕ) : ∀ a : ℕ, ∑ n ∈ Finset.range (a * m), g n =
    ∑ i ∈ Finset.range a, ∑ j ∈ Finset.range m, g (i * m + j)
  | 0 => by simp
  | a + 1 => by rw [Nat.succ_mul, Finset.sum_range_add, sum_range_mul g m a, Finset.sum_range_succ]

theorem leaves_eq_card : ∀ {k : ℕ} {t : RTree}, Uniform F k t →
    leaves F t = ((Finset.range (F ^ k)).filter fun n => find F k t n ≠ 0).card
  | _, empty, _ => by simp [leaves]
  | 0, leaf p, hu => by
    have hp : p ≠ 0 := hu
    simp [leaves, find, hp]
  | 0, node _ _, hu => hu.elim
  | _ + 1, leaf _, hu => hu.elim
  | k + 1, node p c, hu => by
    rw [leaves, Finset.card_filter, pow_succ', sum_range_mul]
    refine Finset.sum_congr rfl fun i _ => ?_
    rw [leaves_eq_card (hu.2 i).1, Finset.card_filter]
    refine Finset.sum_congr rfl fun j hj => ?_
    rw [find_child (Finset.mem_range.mp hj)]

theorem leaves_eq_card_lookup {N : ℕ} (hu : Uniform F k t) (hN : F ^ k ≤ N) :
    leaves F t = ((Finset.range N).filter fun n => lookup F k t n ≠ 0).card := by
  rw [leaves_eq_card hu]
  refine congrArg Finset.card (Finset.ext fun n => ?_)
  rw [Finset.mem_filter, Finset.mem_filter, Finset.mem_range, Finset.mem_range]
  constructor
  · rintro ⟨hn, hne⟩
    exact ⟨hn.trans_le hN, by rwa [lookup_of_lt hn]⟩
  · rintro ⟨-, hne⟩
    have hn := lt_of_lookup_ne hne
    exact ⟨hn, by rwa [lookup_of_lt hn] at hne⟩

/-! ### Trees without barren nodes -/

/-- A tree in which every node leads to a leaf has one, if it is not empty. -/
theorem fruitful_exists_find : ∀ {k : ℕ} {t : RTree}, Fruitful F t → Uniform F k t → t ≠ empty →
    ∃ n < F ^ k, find F k t n ≠ 0
  | _, empty, _, _, hne => absurd rfl hne
  | 0, leaf _, _, hu, _ => ⟨0, by simp, hu⟩
  | 0, node _ _, _, hu, _ => hu.elim
  | _ + 1, leaf _, _, hu, _ => hu.elim
  | k + 1, node p c, h, hu, _ => by
    obtain ⟨⟨i, hi, hne⟩, hall⟩ := h
    obtain ⟨j, hj, hfind⟩ := fruitful_exists_find (hall i hi) (hu.2 i).1 hne
    exact ⟨i * F ^ k + j, child_index_lt hi hj, by rwa [find_child hj]⟩

/-- Such a tree has no slot above the indices it maps. -/
theorem fruitful_below : ∀ {k m : ℕ} {t : RTree}, Fruitful F t → Uniform F k t →
    (∀ n < F ^ k, m < n → find F k t n = 0) → Below F k m t
  | 0, _, _, _, _, _ => by unfold Below; trivial
  | _ + 1, _, empty, _, _, _ => trivial
  | _ + 1, _, leaf _, _, _, _ => trivial
  | k + 1, m, node p c, h, hu, hm => fun i hne => by
    have hi : i < F := not_le.mp fun hle => hne ((hu.2 i).2 hle)
    have hchild : ∀ j < F ^ k, m < i * F ^ k + j → find F k (c i) j = 0 := by
      intro j hj hlt
      rw [← find_child hj]
      exact hm _ (child_index_lt hi hj) hlt
    obtain ⟨j, hj, hfind⟩ := fruitful_exists_find (h.2 i hi) (hu.2 i).1 hne
    have hle : i * F ^ k ≤ m := by
      by_contra hcon
      exact hfind (hchild j hj (by omega))
    exact ⟨hle, fruitful_below (h.2 i hi) (hu.2 i).1 fun j hj hlt => hchild j hj (by omega)⟩

end Pmfs.Lib.RadixMap
