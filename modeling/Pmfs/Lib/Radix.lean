import Mathlib.Algebra.BigOperators.Group.Finset.Basic
import Mathlib.Algebra.Order.BigOperators.Group.Finset
import Mathlib.Algebra.Order.Group.Multiset
import Mathlib.Tactic.Ring
import Mathlib.Tactic.Linarith

/-! # Radix trees in a heap

A heap maps a pointer and a slot number below the fanout `F` to a pointer, `0` being null. A pointer
of height `k` is the root of a radix tree over the indices below `F ^ k`: `ofHeap` reads it off as
an `RTree`, and `ofHeap_congr` says that only the slots of its own nodes matter.

On trees, `pages` is the multiset of what the nodes and leaves occupy, a case of the sum `weight`
that goes through homomorphisms (`map_weight`). `Below k L` says that no slot lies wholly above the
index `L`, `prune k f l` takes out the indices from `f` to `l` with the nodes that become empty
(`below_prune`, `prune_zero_of_below`), and `Grown k f l` adds leaves at these indices
(`Grown.below`). `lo` and `hi` cut the range `[f, l]` down to one child. -/

namespace Pmfs.Lib.Radix

/-- A radix tree, with the pointers of its nodes and leaves. -/
inductive RTree where
  | empty
  | leaf (p : ℕ)
  | node (p : ℕ) (child : ℕ → RTree)

namespace RTree

/-- Whether a tree is empty. -/
def isEmpty : RTree → Bool
  | empty => true
  | _ => false

theorem isEmpty_iff {t : RTree} : t.isEmpty = true ↔ t = empty := by
  cases t <;> simp [isEmpty]

instance (t : RTree) : Decidable (t = empty) := decidable_of_iff _ isEmpty_iff

end RTree

open RTree

variable (F : ℕ)

/-- The tree of height `k` under the pointer `p`. -/
def ofHeap (slot : ℕ → ℕ → ℕ) : ℕ → ℕ → RTree
  | 0, p => if p = 0 then empty else leaf p
  | k + 1, p => if p = 0 then empty else
      node p fun i => if i < F then ofHeap slot k (slot p i) else empty

/-- All leaves at height 0, all slots below the fanout. -/
def Uniform : ℕ → RTree → Prop
  | _, empty => True
  | 0, leaf p => p ≠ 0
  | 0, node _ _ => False
  | _ + 1, leaf _ => False
  | k + 1, node p c => p ≠ 0 ∧ ∀ i, Uniform k (c i) ∧ (F ≤ i → c i = empty)

/-- `q` is one of the nodes of the tree. -/
def HasNode (q : ℕ) : RTree → Prop
  | empty => False
  | leaf _ => False
  | node p c => q = p ∨ ∃ i < F, HasNode q (c i)

/-- `q` is one of the leaves of the tree. -/
def HasLeaf (q : ℕ) : RTree → Prop
  | empty => False
  | leaf p => q = p
  | node _ c => ∃ i < F, HasLeaf q (c i)

/-- The sum of what the nodes and the leaves contribute. -/
def weight {A : Type*} [AddCommMonoid A] (wn wl : ℕ → A) : RTree → A
  | empty => 0
  | leaf p => wl p
  | node p c => wn p + ∑ i ∈ Finset.range F, weight wn wl (c i)

/-- What the tree occupies, when a node at `p` occupies `wn p` and a leaf `wl p`. -/
def pages (wn wl : ℕ → Multiset ℕ) : RTree → Multiset ℕ
  | empty => 0
  | leaf p => wl p
  | node p c => wn p + ∑ i ∈ Finset.range F, pages wn wl (c i)

/-- The number of leaves. -/
def leaves : RTree → ℕ
  | empty => 0
  | leaf _ => 1
  | node _ c => ∑ i ∈ Finset.range F, leaves (c i)

/-- The leaf at the index `n`, or `0`. -/
def find : ℕ → RTree → ℕ → ℕ
  | _, empty, _ => 0
  | _, leaf p, _ => p
  | 0, node _ _, _ => 0
  | k + 1, node _ c, n => find k (c (n / F ^ k)) (n % F ^ k)

/-- No slot lies wholly above the index `L`. -/
def Below : ℕ → ℕ → RTree → Prop
  | k + 1, L, node _ c => ∀ i, c i ≠ empty → i * F ^ k ≤ L ∧ Below k (L - i * F ^ k) (c i)
  | _, _, _ => True

/-- The first index of the range from `f` on inside child `i`, children having height `k`. -/
def lo (k f i : ℕ) : ℕ := if i = f / F ^ k then f % F ^ k else 0

/-- The last index of the range up to `l` inside child `i`, children having height `k`. -/
def hi (k l i : ℕ) : ℕ := if i = l / F ^ k then l % F ^ k else F ^ k - 1

/-- The tree without the leaves from `f` to `l` and without the nodes that lose their last child. -/
def prune : ℕ → ℕ → ℕ → RTree → RTree
  | 0, _, _, leaf _ => empty
  | k + 1, f, l, node p c =>
    let c' := fun i => if f / F ^ k ≤ i ∧ i ≤ l / F ^ k then
      prune k (lo F k f i) (hi F k l i) (c i) else c i
    if ∀ i < F, (c' i).isEmpty = true then empty else node p c'
  | _, _, _, t => t

/-- The tree `t'` arises from `t` by new nodes and leaves on the way to indices from `f` to `l`. -/
def Grown : ℕ → ℕ → ℕ → RTree → RTree → Prop
  | 0, _, _, t, t' => t' = t ∨ t = empty ∧ ∃ p, p ≠ 0 ∧ t' = leaf p
  | k + 1, f, l, t, t' => t' = t ∨ ∃ p c c', p ≠ 0 ∧ t' = node p c' ∧
      (t = node p c ∨ t = empty ∧ c = fun _ => empty) ∧
      ∀ i, if f / F ^ k ≤ i ∧ i ≤ l / F ^ k then
        Grown k (lo F k f i) (hi F k l i) (c i) (c' i) else c' i = c i

/-- Every index from `f` to `l` has a leaf. -/
def Filled : ℕ → ℕ → ℕ → RTree → Prop
  | 0, _, _, leaf _ => True
  | k + 1, f, l, node _ c => ∀ i, f / F ^ k ≤ i → i ≤ l / F ^ k →
      Filled k (lo F k f i) (hi F k l i) (c i)
  | _, _, _, _ => False

/-- No node is without children. -/
def Fruitful : RTree → Prop
  | node _ c => (∃ i < F, c i ≠ empty) ∧ ∀ i < F, Fruitful (c i)
  | _ => True

variable {F} {slot slot' : ℕ → ℕ → ℕ} {wn wl : ℕ → Multiset ℕ} {k f l L p q n : ℕ} {t t' : RTree}
  {c : ℕ → RTree}

/-! ### Trees in the heap -/

@[simp] theorem ofHeap_null : ofHeap F slot k 0 = empty := by
  cases k <;> simp [ofHeap]

theorem ofHeap_leaf (hp : p ≠ 0) : ofHeap F slot 0 p = leaf p := by
  simp [ofHeap, hp]

theorem ofHeap_node (hp : p ≠ 0) : ofHeap F slot (k + 1) p =
    node p fun i => if i < F then ofHeap F slot k (slot p i) else empty := by
  simp [ofHeap, hp]

theorem ofHeap_eq_empty_iff : ofHeap F slot k p = empty ↔ p = 0 := by
  cases k <;> simp [ofHeap]

theorem uniform_ofHeap : ∀ {k p : ℕ}, Uniform F k (ofHeap F slot k p)
  | 0, p => by
    by_cases hp : p = 0 <;> simp [ofHeap, hp, Uniform]
  | k + 1, p => by
    by_cases hp : p = 0
    · simp [hp, Uniform]
    · rw [ofHeap_node hp]
      refine ⟨hp, fun i => ⟨?_, fun hi => by simp [not_lt.mpr hi]⟩⟩
      by_cases hi : i < F
      · simp only [hi, if_true]
        exact uniform_ofHeap
      · simp [hi, Uniform]

/-- Only the slots of the tree's own nodes matter. -/
theorem ofHeap_congr : ∀ {k p : ℕ}, (∀ q i, HasNode F q (ofHeap F slot k p) →
    slot' q i = slot q i) → ofHeap F slot' k p = ofHeap F slot k p
  | 0, p, _ => rfl
  | k + 1, p, h => by
    by_cases hp : p = 0
    · simp [hp]
    · rw [ofHeap_node hp] at h ⊢
      rw [ofHeap_node hp]
      congr 1
      funext i
      by_cases hi : i < F
      · simp only [hi, if_true]
        rw [h p i (Or.inl rfl)]
        refine ofHeap_congr fun q j hq => h q j (Or.inr ⟨i, hi, ?_⟩)
        simpa only [hi, if_true] using hq
      · simp [hi]

theorem wn_le_pages : ∀ {t : RTree}, HasNode F q t → wn q ≤ pages F wn wl t
  | node p c, h => by
    rcases h with rfl | ⟨i, hi, h⟩
    · exact Multiset.le_add_right _ _
    · calc wn q ≤ pages F wn wl (c i) := wn_le_pages h
        _ ≤ ∑ i ∈ Finset.range F, pages F wn wl (c i) :=
          Finset.single_le_sum (fun _ _ => Multiset.zero_le _)
            (Finset.mem_range.mpr hi)
        _ ≤ _ := Multiset.le_add_left _ _

theorem wl_le_pages_of_hasLeaf : ∀ {t : RTree}, HasLeaf F q t → wl q ≤ pages F wn wl t
  | leaf p, h => by
    obtain rfl : q = p := h
    exact le_rfl
  | node p c, h => by
    obtain ⟨i, hi, h⟩ := h
    calc wl q ≤ pages F wn wl (c i) := wl_le_pages_of_hasLeaf h
        _ ≤ ∑ i ∈ Finset.range F, pages F wn wl (c i) :=
          Finset.single_le_sum (fun _ _ => Multiset.zero_le _)
            (Finset.mem_range.mpr hi)
        _ ≤ _ := Multiset.le_add_left _ _

theorem pages_eq_weight : ∀ {t : RTree}, pages F wn wl t = weight F wn wl t
  | empty => rfl
  | leaf _ => rfl
  | node p c => by
    rw [pages, weight]
    congr 1
    exact Finset.sum_congr rfl fun i _ => pages_eq_weight

theorem map_weight {A B : Type*} [AddCommMonoid A] [AddCommMonoid B] (f : A →+ B) (vn vl : ℕ → A) :
    ∀ t : RTree, f (weight F vn vl t) = weight F (fun p => f (vn p)) (fun p => f (vl p)) t
  | empty => f.map_zero
  | leaf _ => rfl
  | node p c => by
    rw [weight, weight, map_add, map_sum]
    congr 1
    exact Finset.sum_congr rfl fun i _ => map_weight f vn vl (c i)

/-- The sum over the children of a node, one child apart. -/
theorem sum_split {M : Type*} [AddCommMonoid M] (g : ℕ → M) {i : ℕ} (hi : i < F) :
    ∑ j ∈ Finset.range F, g j = g i + ∑ j ∈ (Finset.range F).erase i, g j :=
  (Finset.add_sum_erase _ g (Finset.mem_range.mpr hi)).symm

theorem pages_le_sum {i : ℕ} (hi : i < F) :
    pages F wn wl (c i) ≤ ∑ j ∈ Finset.range F, pages F wn wl (c j) :=
  Finset.single_le_sum (fun _ _ => Multiset.zero_le _)
    (Finset.mem_range.mpr hi)

theorem pages_add_le_sum {i j : ℕ} (hi : i < F) (hj : j < F) (hij : i ≠ j) :
    pages F wn wl (c i) + pages F wn wl (c j) ≤ ∑ m ∈ Finset.range F, pages F wn wl (c m) := by
  rw [sum_split (fun m => pages F wn wl (c m)) hi]
  exact Multiset.add_le_add_left (Finset.single_le_sum
    (fun _ _ => Multiset.zero_le _) (Finset.mem_erase.mpr ⟨hij.symm, Finset.mem_range.mpr hj⟩))

@[simp] theorem find_empty : find F k empty n = 0 := by
  cases k <;> rfl

theorem child_lt (hn : n < F ^ (k + 1)) : n / F ^ k < F :=
  Nat.div_lt_of_lt_mul (by rw [pow_succ] at hn; exact hn)

theorem wl_le_pages (hF : 0 < F) : ∀ {k n : ℕ} {t : RTree}, Uniform F k t → n < F ^ k →
    find F k t n ≠ 0 → wl (find F k t n) ≤ pages F wn wl t
  | _, _, empty, _, _, h => absurd find_empty h
  | 0, _, leaf _, _, _, _ => le_rfl
  | 0, _, node _ _, hu, _, _ => hu.elim
  | _ + 1, _, leaf _, hu, _, _ => hu.elim
  | k + 1, n, node p c, hu, hn, h =>
    calc wl (find F (k + 1) (node p c) n)
      _ ≤ pages F wn wl (c (n / F ^ k)) :=
        wl_le_pages hF (hu.2 _).1 (Nat.mod_lt _ (Nat.pow_pos hF)) h
      _ ≤ ∑ i ∈ Finset.range F, pages F wn wl (c i) := pages_le_sum (child_lt hn)
      _ ≤ _ := Multiset.le_add_left _ _

theorem wn_add_wl_le_pages (hF : 0 < F) : ∀ {k n : ℕ} {t : RTree}, Uniform F k t → n < F ^ k →
    find F k t n ≠ 0 → HasNode F q t → wn q + wl (find F k t n) ≤ pages F wn wl t
  | _, _, empty, _, _, _, hq => hq.elim
  | _, _, leaf _, _, _, _, hq => hq.elim
  | 0, _, node _ _, hu, _, _, _ => hu.elim
  | k + 1, n, node p c, hu, hn, h, hq => by
    have hmod := Nat.mod_lt n (Nat.pow_pos (n := k) hF)
    have hi := child_lt hn
    have hleaf : wl (find F (k + 1) (node p c) n) ≤ pages F wn wl (c (n / F ^ k)) :=
      wl_le_pages hF (hu.2 _).1 hmod h
    rcases hq with rfl | ⟨j, hj, hq⟩
    · exact Multiset.add_le_add_left (hleaf.trans (pages_le_sum hi))
    refine le_trans ?_ (Multiset.le_add_left _ _)
    by_cases hij : j = n / F ^ k
    · subst hij
      exact (wn_add_wl_le_pages hF (hu.2 _).1 hmod h hq).trans (pages_le_sum hi)
    · exact (add_le_add (wn_le_pages hq) hleaf).trans (pages_add_le_sum hj hi hij)

theorem wl_add_wl_le_pages (hF : 0 < F) : ∀ {k n m : ℕ} {t : RTree}, Uniform F k t → n < F ^ k →
    m < F ^ k → n ≠ m → find F k t n ≠ 0 → find F k t m ≠ 0 →
      wl (find F k t n) + wl (find F k t m) ≤ pages F wn wl t
  | _, _, _, empty, _, _, _, _, h, _ => absurd find_empty h
  | 0, n, m, leaf _, _, hn, hm, hnm, _, _ => by
    simp only [pow_zero, Nat.lt_one_iff] at hn hm
    exact absurd (hn.trans hm.symm) hnm
  | 0, _, _, node _ _, hu, _, _, _, _, _ => hu.elim
  | _ + 1, _, _, leaf _, hu, _, _, _, _, _ => hu.elim
  | k + 1, n, m, node p c, hu, hn, hm, hnm, h, h' => by
    have hpos := Nat.pow_pos (n := k) hF
    refine le_trans ?_ (Multiset.le_add_left _ _)
    by_cases hij : n / F ^ k = m / F ^ k
    · have hmod : n % F ^ k ≠ m % F ^ k := fun hmod => hnm <| by
        rw [← Nat.div_add_mod n (F ^ k), ← Nat.div_add_mod m (F ^ k), hij, hmod]
      refine le_trans ?_ (pages_le_sum (child_lt hn))
      rw [find] at h h' ⊢
      rw [← hij] at h'
      rw [find, ← hij]
      exact wl_add_wl_le_pages hF (hu.2 _).1 (Nat.mod_lt _ hpos) (Nat.mod_lt _ hpos) hmod h h'
    · have h1 : wl (find F (k + 1) (node p c) n) ≤ pages F wn wl (c (n / F ^ k)) :=
        wl_le_pages hF (hu.2 _).1 (Nat.mod_lt _ hpos) h
      have h2 : wl (find F (k + 1) (node p c) m) ≤ pages F wn wl (c (m / F ^ k)) :=
        wl_le_pages hF (hu.2 _).1 (Nat.mod_lt _ hpos) h'
      exact (add_le_add h1 h2).trans (pages_add_le_sum (child_lt hn) (child_lt hm) hij)

/-! ### Slots above an index -/

theorem leaves_le : ∀ {k : ℕ} {t : RTree}, Uniform F k t → leaves F t ≤ F ^ k
  | 0, empty, _ => Nat.zero_le _
  | 0, leaf _, _ => le_rfl
  | 0, node _ _, h => h.elim
  | _ + 1, empty, _ => Nat.zero_le _
  | _ + 1, leaf _, h => h.elim
  | k + 1, node p c, h => by
    calc ∑ i ∈ Finset.range F, leaves F (c i) ≤ ∑ _i ∈ Finset.range F, F ^ k :=
          Finset.sum_le_sum fun i _ => leaves_le (h.2 i).1
      _ = F ^ (k + 1) := by
        rw [Finset.sum_const, Finset.card_range, nsmul_eq_mul, Nat.cast_id, pow_succ']

/-- Only the first child of a node is not empty when the tree ends within it. -/
theorem Below.eq_empty (h : Below F (k + 1) L (node p c)) (hL : L < F ^ k) {i : ℕ} (hi : i ≠ 0) :
    c i = empty := by
  by_contra hne
  have h1 := (h i hne).1
  have h2 : 1 * F ^ k ≤ i * F ^ k := Nat.mul_le_mul_right _ (Nat.one_le_iff_ne_zero.mpr hi)
  omega

theorem Below.mono : ∀ {k L L' : ℕ} {t : RTree}, Below F k L t → L ≤ L' → Below F k L' t
  | 0, _, _, _, _, _ => by unfold Below; trivial
  | _ + 1, _, _, empty, _, _ => trivial
  | _ + 1, _, _, leaf _, _, _ => trivial
  | k + 1, L, L', node p c, h, hL => fun i hi => by
    obtain ⟨h1, h2⟩ := h i hi
    exact ⟨le_trans h1 hL, h2.mono (by omega)⟩

/-- No slot of a tree of height `k` lies above its last index. -/
theorem below_top (hF : 0 < F) : ∀ {k : ℕ} {t : RTree}, Uniform F k t → Below F k (F ^ k - 1) t
  | 0, _, _ => by unfold Below; trivial
  | _ + 1, empty, _ => trivial
  | _ + 1, leaf _, _ => trivial
  | k + 1, node p c, h => fun i hi => by
    have hiF : i < F := not_le.mp fun hle => hi ((h.2 i).2 hle)
    have hmul : (i + 1) * F ^ k ≤ F ^ (k + 1) := by
      rw [pow_succ']
      exact Nat.mul_le_mul_right _ hiF
    have hpos : 0 < F ^ k := Nat.pow_pos hF
    rw [Nat.add_mul, Nat.one_mul] at hmul
    exact ⟨by omega, (below_top hF (h.2 i).1).mono (by omega)⟩

theorem find_eq_zero_of_below (hF : 0 < F) : ∀ {k L n : ℕ} {t : RTree}, Uniform F k t →
    Below F k L t → n < F ^ k → L < n → find F k t n = 0
  | 0, _, _, _, _, _, hn, hL => by simp at hn; omega
  | _ + 1, _, _, empty, _, _, _, _ => rfl
  | _ + 1, _, _, leaf _, hu, _, _, _ => hu.elim
  | k + 1, L, n, node p c, hu, h, hn, hL => by
    have hdm := Nat.div_add_mod' n (F ^ k)
    rw [find]
    by_cases hc : c (n / F ^ k) = empty
    · rw [hc]; cases k <;> rfl
    · obtain ⟨h1, h2⟩ := h _ hc
      exact find_eq_zero_of_below hF (hu.2 _).1 h2 (Nat.mod_lt _ (Nat.pow_pos hF)) (by omega)

/-! ### Taking out a range -/

@[simp] theorem prune_empty : prune F k f l empty = empty := by
  cases k <;> rfl

theorem prune_node : prune F (k + 1) f l (node p c) =
    if ∀ i < F, ((if f / F ^ k ≤ i ∧ i ≤ l / F ^ k then
        prune F k (lo F k f i) (hi F k l i) (c i) else c i) : RTree).isEmpty = true then empty
    else node p fun i => if f / F ^ k ≤ i ∧ i ≤ l / F ^ k then
      prune F k (lo F k f i) (hi F k l i) (c i) else c i := rfl

/-- A node goes when all its children do, and otherwise keeps what is left of them. -/
theorem prune_cases {c' : ℕ → RTree} (h : ∀ i, c' i = if f / F ^ k ≤ i ∧ i ≤ l / F ^ k then
    prune F k (lo F k f i) (hi F k l i) (c i) else c i) :
    ((∀ i < F, c' i = empty) ∧ prune F (k + 1) f l (node p c) = empty) ∨
      (¬ (∀ i < F, c' i = empty) ∧ prune F (k + 1) f l (node p c) = node p c') := by
  have hc : c' = fun i => if f / F ^ k ≤ i ∧ i ≤ l / F ^ k then
    prune F k (lo F k f i) (hi F k l i) (c i) else c i := funext h
  rw [prune_node, ← hc]
  by_cases hall : ∀ i < F, c' i = empty
  · refine Or.inl ⟨hall, if_pos fun i hi => ?_⟩
    rw [← h i, hall i hi]
    rfl
  · refine Or.inr ⟨hall, if_neg fun hcon => hall fun i hi => ?_⟩
    have := hcon i hi
    rw [← h i] at this
    exact isEmpty_iff.mp this

theorem div_le_iff_lt (hF : 0 < F) {i : ℕ} : f / F ^ k ≤ i ↔ f < i * F ^ k + F ^ k := by
  rw [← Nat.lt_succ_iff, Nat.div_lt_iff_lt_mul (Nat.pow_pos hF), Nat.succ_mul]

theorem le_div_iff_le (hF : 0 < F) {i : ℕ} : i ≤ l / F ^ k ↔ i * F ^ k ≤ l :=
  Nat.le_div_iff_mul_le (Nat.pow_pos hF)

theorem lo_eq_sub (hF : 0 < F) {i : ℕ} (h : f / F ^ k ≤ i) : lo F k f i = f - i * F ^ k := by
  unfold lo
  split_ifs with hi
  · rw [hi, Nat.mod_eq_sub_div_mul]
  · have : f < i * F ^ k := (Nat.div_lt_iff_lt_mul (Nat.pow_pos hF)).mp (by omega)
    omega

theorem lo_lt (hF : 0 < F) (i : ℕ) : lo F k f i < F ^ k := by
  unfold lo
  split_ifs
  · exact Nat.mod_lt _ (Nat.pow_pos hF)
  · exact Nat.pow_pos hF

theorem hi_lt (hF : 0 < F) (i : ℕ) : hi F k l i < F ^ k := by
  have hpos := Nat.pow_pos (n := k) hF
  unfold hi
  split_ifs
  · exact Nat.mod_lt _ hpos
  · omega

theorem hi_eq_min (hF : 0 < F) {i : ℕ} (h : i ≤ l / F ^ k) :
    hi F k l i = min (l - i * F ^ k) (F ^ k - 1) := by
  have hpos := Nat.pow_pos (n := k) hF
  unfold hi
  split_ifs with hi
  · have := Nat.mod_lt l hpos
    rw [hi, ← Nat.mod_eq_sub_div_mul]
    omega
  · have := (le_div_iff_le hF).mp (show i + 1 ≤ l / F ^ k by omega)
    rw [Nat.add_mul] at this
    omega

/-- Pruning from the first index on leaves nothing when there is no slot above the last one. -/
theorem prune_zero_of_below (hF : 0 < F) : ∀ {k l : ℕ} {t : RTree}, Uniform F k t → Below F k l t →
    prune F k 0 l t = empty
  | 0, _, empty, _, _ => rfl
  | 0, _, leaf _, _, _ => rfl
  | 0, _, node _ _, hu, _ => hu.elim
  | _ + 1, _, empty, _, _ => rfl
  | _ + 1, _, leaf _, hu, _ => hu.elim
  | k + 1, l, node p c, hu, hb => by
    refine (prune_cases fun i => rfl).resolve_right (fun h => h.1 fun i _ => ?_) |>.2
    have hpos := Nat.pow_pos (n := k) hF
    by_cases hc : c i = empty
    · simp [hc]
    obtain ⟨h1, h2⟩ := hb i hc
    have hle : i ≤ l / F ^ k := (Nat.le_div_iff_mul_le hpos).mpr h1
    have hlo : lo F k 0 i = 0 := by simp [lo]
    rw [if_pos ⟨by simp, hle⟩, hlo]
    refine prune_zero_of_below hF (hu.2 i).1 ?_
    rw [hi_eq_min hF hle]
    rcases le_total (l - i * F ^ k) (F ^ k - 1) with h | h
    · exact h2.mono (by omega)
    · exact (below_top hF (hu.2 i).1).mono (by omega)

/-- What stays when the range `[f, l]` is pruned and no slot lies above both `l` and `m`. -/
theorem below_prune (hF : 0 < F) : ∀ {k f l m : ℕ} {t : RTree}, Uniform F k t → f ≤ m + 1 →
    Below F k (max l m) t → Below F k m (prune F k f l t)
  | 0, _, _, _, _, _, _, _ => by unfold Below; trivial
  | _ + 1, _, _, _, empty, _, _, _ => trivial
  | _ + 1, _, _, _, leaf _, hu, _, _ => hu.elim
  | k + 1, f, l, m, node p c, hu, hf, hb => by
    rw [prune_node]
    split_ifs
    · trivial
    intro i hne
    have hpos := Nat.pow_pos (n := k) hF
    have hc : c i ≠ empty := fun hc => hne (by simp [hc])
    obtain ⟨h1, h2⟩ := hb i hc
    have htop := below_top hF (hu.2 i).1
    by_cases hin : f / F ^ k ≤ i ∧ i ≤ l / F ^ k
    · simp only [if_pos hin] at hne ⊢
      have hf1 := (div_le_iff_lt hF).mp hin.1
      have hl1 := (le_div_iff_le hF).mp hin.2
      rw [lo_eq_sub hF hin.1] at hne ⊢
      have hhi := hi_eq_min hF hin.2
      have hchild : Below F k (max (hi F k l i) (m - i * F ^ k)) (c i) := by
        rcases le_total (l - i * F ^ k) (F ^ k - 1) with h | h
        · exact h2.mono (by omega)
        · exact htop.mono (by omega)
      have him : i * F ^ k ≤ m := by
        by_contra hcon
        refine hne ?_
        rw [show f - i * F ^ k = 0 by omega]
        refine prune_zero_of_below hF (hu.2 i).1 (hchild.mono ?_)
        rw [show m - i * F ^ k = 0 by omega]
        simp
      exact ⟨him, below_prune hF (hu.2 i).1 (by omega) hchild⟩
    · simp only [if_neg hin] at hne ⊢
      rw [div_le_iff_lt hF, le_div_iff_le hF] at hin
      by_cases hf1 : f < i * F ^ k + F ^ k
      · exact ⟨by omega, h2.mono (by omega)⟩
      · exact ⟨by omega, htop.mono (by omega)⟩

theorem Fruitful.prune : ∀ {k f l : ℕ} {t : RTree}, Fruitful F t → Fruitful F (prune F k f l t)
  | 0, _, _, empty, h => h
  | 0, _, _, leaf _, _ => trivial
  | 0, _, _, node _ _, h => h
  | _ + 1, _, _, empty, h => h
  | _ + 1, _, _, leaf _, h => h
  | k + 1, f, l, node p c, h => by
    rcases prune_cases fun i => rfl with ⟨-, heq⟩ | ⟨hsome, heq⟩
    · rw [heq]
      trivial
    · push Not at hsome
      rw [heq]
      refine ⟨hsome, fun i hi => ?_⟩
      dsimp only
      split_ifs
      · exact (h.2 i hi).prune
      · exact h.2 i hi

theorem Fruitful.eq_empty : ∀ {t : RTree}, Fruitful F t → leaves F t = 0 → t = empty
  | empty, _, _ => rfl
  | leaf _, _, h0 => absurd h0 one_ne_zero
  | node p c, h, h0 => by
    obtain ⟨⟨i, hi, hne⟩, hall⟩ := h
    refine absurd ((hall i hi).eq_empty ?_) hne
    exact Finset.sum_eq_zero_iff.mp h0 i (Finset.mem_range.mpr hi)

/-! ### Adding a range -/

theorem Grown.refl : Grown F k f l t t := by
  cases k <;> exact Or.inl rfl

/-- A tree that grew from a node without children grew from nothing. -/
theorem Grown.of_fresh (hp : p ≠ 0) (h : Grown F (k + 1) f l (node p fun _ => empty) t') :
    Grown F (k + 1) f l empty t' := by
  rcases h with rfl | ⟨q, c, c', hq, rfl, hc, h⟩
  · refine Or.inr ⟨p, fun _ => empty, fun _ => empty, hp, rfl, Or.inr ⟨rfl, rfl⟩, fun i => ?_⟩
    split_ifs
    · exact Grown.refl
    · rfl
  · have hc' : c = fun _ => empty := by
      rcases hc with hc | hc
      · simp only [node.injEq] at hc
        exact hc.2.symm
      · simp at hc
    exact Or.inr ⟨q, c, c', hq, rfl, Or.inr ⟨rfl, hc'⟩, h⟩

theorem grown_node {c' : ℕ → RTree} (hp : p ≠ 0)
    (h : ∀ i, if f / F ^ k ≤ i ∧ i ≤ l / F ^ k then Grown F k (lo F k f i) (hi F k l i) (c i) (c' i)
      else c' i = c i) : Grown F (k + 1) f l (node p c) (node p c') :=
  Or.inr ⟨p, c, c', hp, rfl, Or.inl rfl, h⟩

theorem Grown.below (hF : 0 < F) : ∀ {k f l L : ℕ} {t t' : RTree}, Grown F k f l t t' → l ≤ L →
    Below F k L t → Below F k L t'
  | 0, _, _, _, _, _, _, _, _ => by unfold Below; trivial
  | k + 1, f, l, L, t, t', h, hL, hb => by
    rcases h with rfl | ⟨p, c, c', -, rfl, hc, h⟩
    · exact hb
    intro i hi
    have hci : c i ≠ empty → i * F ^ k ≤ L ∧ Below F k (L - i * F ^ k) (c i) := by
      rcases hc with rfl | ⟨-, rfl⟩
      · exact hb i
      · exact fun h => absurd rfl h
    have hi' := h i
    split_ifs at hi' with hin
    · have hle := (le_div_iff_le hF).mp hin.2
      refine ⟨by omega, hi'.below hF ?_ ?_⟩
      · rw [hi_eq_min hF hin.2]
        omega
      · by_cases hce : c i = empty
        · rw [hce]
          cases k <;> trivial
        · exact (hci hce).2
    · rw [hi'] at hi ⊢
      exact hci hi

theorem Filled.find_ne_zero (hF : 0 < F) : ∀ {k f l n : ℕ} {t : RTree}, Filled F k f l t →
    Uniform F k t → f ≤ n → n ≤ l → find F k t n ≠ 0
  | 0, _, _, _, empty, h, _, _, _ => h.elim
  | 0, _, _, _, leaf _, _, hu, _, _ => hu
  | 0, _, _, _, node _ _, h, _, _, _ => h.elim
  | _ + 1, _, _, _, empty, h, _, _, _ => h.elim
  | _ + 1, _, _, _, leaf _, h, _, _, _ => h.elim
  | k + 1, f, l, n, node p c, h, hu, hf, hl => by
    have hn := Nat.mod_lt n (Nat.pow_pos (n := k) hF)
    refine (h (n / F ^ k) (Nat.div_le_div_right hf) (Nat.div_le_div_right hl)).find_ne_zero hF
      (hu.2 _).1 ?_ ?_
    · unfold lo
      split_ifs with hi
      · have h1 := Nat.div_add_mod f (F ^ k)
        have h2 := Nat.div_add_mod n (F ^ k)
        rw [hi] at h2
        omega
      · exact Nat.zero_le _
    · unfold hi
      split_ifs with hi
      · have h1 := Nat.div_add_mod l (F ^ k)
        have h2 := Nat.div_add_mod n (F ^ k)
        rw [hi] at h2
        omega
      · omega

theorem lo_le_hi (hF : 0 < F) {i : ℕ} (hfl : f ≤ l) (h1 : f / F ^ k ≤ i) (h2 : i ≤ l / F ^ k) :
    lo F k f i ≤ hi F k l i := by
  have hlt := lo_lt hF (f := f) (k := k) i
  rw [lo_eq_sub hF h1] at hlt ⊢
  rw [hi_eq_min hF h2]
  omega

/-- The other way round, a range where every index is found is filled. -/
theorem filled_of_find (hF : 0 < F) : ∀ {k f l : ℕ} {t : RTree}, Uniform F k t → f ≤ l → l < F ^ k →
    (∀ n, f ≤ n → n ≤ l → find F k t n ≠ 0) → Filled F k f l t
  | 0, f, _, empty, _, hfl, _, h => h f le_rfl hfl rfl
  | 0, _, _, leaf _, _, _, _, _ => trivial
  | 0, _, _, node _ _, hu, _, _, _ => hu.elim
  | _ + 1, f, _, empty, _, hfl, _, h => h f le_rfl hfl rfl
  | _ + 1, _, _, leaf _, hu, _, _, _ => hu.elim
  | k + 1, f, l, node p c, hu, hfl, hl, h => by
    intro i h1 h2
    refine filled_of_find hF (hu.2 i).1 (lo_le_hi hF hfl h1 h2) (hi_lt hF i) ?_
    intro n hn1 hn2
    have hlt := hn2.trans_lt (hi_lt hF i)
    have hdiv : (i * F ^ k + n) / F ^ k = i := by
      rw [Nat.mul_comm, Nat.mul_add_div (Nat.pow_pos hF), Nat.div_eq_of_lt hlt, Nat.add_zero]
    have hmod : (i * F ^ k + n) % F ^ k = n := by
      rw [Nat.mul_comm, Nat.mul_add_mod, Nat.mod_eq_of_lt hlt]
    rw [lo_eq_sub hF h1] at hn1
    rw [hi_eq_min hF h2] at hn2
    have hle : i * F ^ k ≤ l := (Nat.mul_le_mul_right _ h2).trans (Nat.div_mul_le_self _ _)
    have hfind := h (i * F ^ k + n) (by omega) (by omega)
    rwa [find, hdiv, hmod] at hfind

end Pmfs.Lib.Radix
