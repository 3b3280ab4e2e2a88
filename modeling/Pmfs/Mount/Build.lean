import Pmfs.Block.Balance
import Pmfs.Mount.Model
import Pmfs.Tree.Own

/-! # From a bitmap to the list of used blocks

`insertLoop_placed` says that `pmfs_alloc_insert_blocknode_map` finds the place of a run of blocks
that are not in the list. `build_map` says that `__pmfs_build_blocknode_map` cuts a bitmap into its
runs of ones and so adds to the list exactly the blocks whose bit is set. -/

namespace Pmfs.Mount.Build

open Lib.Intervals Block.Model Block.Alloc Block.Spec Block.Balance
open Tree.Model Tree.Own Mount.Model

/-! ### One run -/

/-- **A run of blocks that are not in the list is inserted**, when it does not lie before the list.
-/
theorem insertLoop_placed {low n e c : ℕ} (hn : 0 < n) (hfit : low + n ≤ e) : ∀ {b : ℕ}
    {i : PmfsBlocknode} {rest : List PmfsBlocknode}, Canon b e (i :: rest) → i.low ≤ low →
      (∀ x ∈ run low n, x ∉ covered (i :: rest)) →
      ∃ l' c', insertLoop low (low + n - 1) e true c (i :: rest) = some (l', c') ∧
        Placed n b e c (i :: rest) l' c' low
  | b, i, rest, hc, hlow, hfree => by
    obtain ⟨h1, h2, h3, h4⟩ := canon_cons.mp hc
    have hi : i.high < low := by
      by_contra hcon
      exact hfree low (by simp [hn]) (mem_covered_cons.mpr (Or.inl ⟨hlow, by omega⟩))
    unfold insertLoop
    cases rest with
    | nil =>
      simp only [nextBlockLow]
      rw [if_neg (by omega)]
      split_ifs with hfill hleft hright hmid
      · exact ⟨_, _, rfl, placed_left hn hc hfill.1 hfit (by simp)⟩
      · exact ⟨_, _, rfl, placed_left hn hc hleft.1 hfit (by simp)⟩
      · exact ⟨_, _, rfl, placed_new hn hc hright.1 hfit (by simp)⟩
      · exact ⟨_, _, rfl, placed_new hn hc hmid.1 hfit (by simp)⟩
      · omega
    | cons j rest =>
      obtain ⟨g1, g2, g3, g4⟩ := canon_cons.mp h4
      simp only [nextBlockLow]
      by_cases hskip : low + n - 1 ≥ j.low
      · -- the run does not meet the next node, so it lies behind its start
        have hj : j.low ≤ low := by
          by_contra hcon
          exact hfree j.low (by simp only [mem_run]; omega)
            (mem_covered_cons.mpr (Or.inr (mem_covered_cons.mpr (Or.inl ⟨le_rfl, g2⟩))))
        obtain ⟨l', c', hrec, hp⟩ := insertLoop_placed hn hfit h4 hj fun x hx hx' =>
          hfree x hx (mem_covered_cons.mpr (Or.inr hx'))
        rw [if_pos hskip, hrec]
        exact ⟨_, _, rfl, hp.cons hc⟩
      rw [if_neg hskip]
      have hnext : low + n < j.low → ∀ k ∈ (j :: rest).head?, low + n < k.low := by
        intro hlt k hk
        obtain rfl : j = k := by simpa using hk
        exact hlt
      split_ifs with hfill hleft hright hmid
      · exact ⟨_, _, rfl, placed_fill hn hc hfill.1 (by omega)⟩
      · exact ⟨_, _, rfl, placed_left hn hc hleft.1 hfit (hnext (by omega))⟩
      · exact ⟨_, _, rfl, placed_right hc hright.1 (by omega)⟩
      · exact ⟨_, _, rfl, placed_new hn hc hmid.1 hfit (hnext (by omega))⟩
      · omega

/-- The list of the allocator is the one of the set `S`, and the count of free blocks goes with it.
-/
structure MapOk (sum : UInt64) (e : ℕ) (S : Set ℕ) (d : Dev) : Prop where
  wf : Wf d.ba
  inUse : inUse d.ba = S
  balanced : Balanced sum d.ba
  blockEnd : d.ba.blockEnd = e
  slab : SlabOk d

variable {sum : UInt64} {e : ℕ} {S : Set ℕ} {d : Dev}

theorem insert_ok (low n : ℕ) (h : MapOk sum e S d) (hn : 0 < n) (hfit : low + n ≤ e)
    (hfree : ∀ x ∈ run low n, x ∉ S) :
    ∃ d', pmfsAllocInsertBlocknodeMap d low (low + n - 1) = (d', none) ∧
      MapOk sum e (S ∪ run low n) d' := by
  obtain ⟨i, rest, hl⟩ := List.exists_cons_of_ne_nil h.wf.ne_nil
  have hc := h.wf.canon
  have hf := h.wf.first
  have hcov : covered (i :: rest) = S := by rw [← hl]; exact h.inUse
  rw [hl, h.blockEnd] at hc
  rw [hl] at hf
  simp only [List.head?_cons, Option.map_some, Option.some.injEq] at hf
  obtain ⟨l', c', hloop, hp⟩ := insertLoop_placed hn hfit hc
    (by omega) (by rw [hcov]; exact hfree)
  unfold pmfsAllocInsertBlocknodeMap
  rw [h.slab.headD, h.blockEnd, hl, hloop]
  refine ⟨_, rfl, ⟨?_, ?_, ?_⟩, ?_, ⟨?_, ?_⟩, h.blockEnd, h.slab.tail⟩
  · simp only [h.blockEnd]
    exact hp.canon
  · rw [← h.wf.first, hl]
    exact hp.first
  · have h1 := h.wf.count
    have h2 := hp.count (by rw [h1, hl])
    rw [hl] at h1
    simp only
    omega
  · ext x
    rw [← hcov]
    exact hp.covered x
  · exact fun k hk => (hp.canon.inside k hk).2.1
  · have hb := h.balanced.total
    rw [hl] at hb
    simp only [hp.total, UInt64.ofNat_add, show low + n - 1 - low + 1 = n by omega]
    rw [← hb, UInt64.add_comm (UInt64.ofNat (total (i :: rest))), ← UInt64.add_assoc,
      UInt64.sub_add_cancel]

/-! ### The runs of a bitmap -/

theorem findFrom_spec (bit : ℕ → Bool) : ∀ {n i r : ℕ}, findFrom bit n i = r →
    i ≤ r ∧ r ≤ i + n ∧ (∀ k, i ≤ k → k < r → bit k = false) ∧ (r < i + n → bit r = true)
  | 0, i, _, rfl => ⟨le_rfl, le_rfl, fun k h1 h2 => absurd h1 (not_le.mpr h2),
      fun h => absurd h (lt_irrefl _)⟩
  | n + 1, i, _, rfl => by
    rw [findFrom]
    split_ifs with hb
    · exact ⟨le_rfl, by omega, fun k h1 h2 => absurd h1 (not_le.mpr h2), fun _ => hb⟩
    · generalize hr : findFrom bit n (i + 1) = r
      obtain ⟨h1, h2, h3, h4⟩ := findFrom_spec bit hr
      refine ⟨by omega, by omega, fun k hk hlt => ?_, fun hlt => h4 (by omega)⟩
      by_cases hki : k = i
      · rw [hki]
        exact Bool.not_eq_true _ ▸ hb
      · exact h3 k (by omega) hlt

theorem findNextBit_spec {bit : ℕ → Bool} {size offset r : ℕ} (ho : offset ≤ size)
    (h : findNextBit bit size offset = r) :
    offset ≤ r ∧ r ≤ size ∧ (∀ k, offset ≤ k → k < r → bit k = false) ∧
      (r < size → bit r = true) := by
  unfold findNextBit at h
  split_ifs at h with hlt
  · exact ⟨by omega, by omega, fun k h1 h2 => by omega, fun hr => by omega⟩
  · obtain ⟨h1, h2, h3, h4⟩ := findFrom_spec bit h
    exact ⟨h1, by omega, h3, fun hr => h4 (by omega)⟩

/-- The blocks whose bit is set, each bit standing for `u` blocks. -/
def ones (bit : ℕ → Bool) (u : ℕ) : Set ℕ := {x | bit (x / u) = true}

/-- A run of ones from `low` up to `next` is a run of blocks. -/
theorem mem_run_mul {u low next x : ℕ} (hu : 0 < u) (hle : low ≤ next) :
    x ∈ run (low * u) ((next - low) * u) ↔ low ≤ x / u ∧ x / u < next := by
  rw [mem_run, Nat.le_div_iff_mul_le hu, Nat.div_lt_iff_lt_mul hu, Nat.sub_mul]
  have := Nat.mul_le_mul_right u hle
  omega

/-- **The ones of a bitmap go into the list.** -/
theorem build_ok {bit : ℕ → Bool} {bsize scale : ℕ} (hfree : Disjoint S (ones bit (2 ^ scale)))
    (hend : ∀ k, bit k = true → (k + 1) * 2 ^ scale ≤ e) (hsize : ∀ k, bit k = true → k < bsize)
    {failed : List (ℕ × ℕ)} : ∀ {fuel next : ℕ} {d : Dev}, next ≤ bsize → bsize < fuel + next →
      MapOk sum e (S ∪ {x ∈ ones bit (2 ^ scale) | x / 2 ^ scale < next}) d →
      ∃ d', buildLoop bit bsize scale fuel next d failed = some (d', failed) ∧
        MapOk sum e (S ∪ ones bit (2 ^ scale)) d'
  | 0, next, d, hnext, hfuel, _ => by omega
  | fuel + 1, next, d, hnext, hfuel, h => by
    have hu : 0 < 2 ^ scale := by positivity
    generalize hlow : findNextBit bit bsize next = low
    obtain ⟨h1, h2, h3, h4⟩ := findNextBit_spec hnext hlow
    have hzero : ∀ k, bit k = true → next ≤ k → low ≤ k := by
      intro k hk hle
      by_contra hcon
      rw [h3 k hle (not_le.mp hcon)] at hk
      exact Bool.noConfusion hk
    rw [buildLoop]
    simp only [hlow]
    by_cases hdone : low = bsize
    · -- no one is left from `next` on
      refine ⟨d, by rw [if_pos hdone], ?_⟩
      convert h using 2
      ext x
      refine ⟨fun hx => ⟨hx, ?_⟩, fun hx => hx.1⟩
      have hlt := hsize _ hx
      by_contra hcon
      have := hzero _ hx (not_lt.mp hcon)
      omega
    rw [if_neg hdone]
    have hlowbit := h4 (by omega)
    generalize hstop : findNextZeroBit bit bsize low = stop
    obtain ⟨g1, g2, g3, g4⟩ := findNextBit_spec (by omega) hstop
    have hones : ∀ k, low ≤ k → k < stop → bit k = true := by
      intro k hk hlt
      simpa using g3 k hk hlt
    have hstart : low < stop := by
      rcases Nat.lt_or_ge low stop with hlt | hge
      · exact hlt
      · have heq : stop = low := by omega
        subst heq
        have := g4 (by omega)
        simp [hlowbit] at this
    have hlast := hend (stop - 1) (hones _ (by omega) (by omega))
    rw [show stop - 1 + 1 = stop by omega] at hlast
    have hsub : (stop - low) * 2 ^ scale = stop * 2 ^ scale - low * 2 ^ scale := Nat.sub_mul _ _ _
    have hmul : low * 2 ^ scale < stop * 2 ^ scale := Nat.mul_lt_mul_of_pos_right hstart hu
    obtain ⟨d1, hins, hd1⟩ := insert_ok (low * 2 ^ scale) ((stop - low) * 2 ^ scale) h
      (by omega) (by omega) (by
        intro x hx hx'
        obtain ⟨k1, k2⟩ := (mem_run_mul hu hstart.le).mp hx
        rcases hx' with hx' | hx'
        · exact Set.disjoint_left.mp hfree hx' (hones _ k1 k2)
        · exact absurd hx'.2 (by omega))
    rw [show low * 2 ^ scale + (stop - low) * 2 ^ scale - 1 = stop * 2 ^ scale - 1 by omega] at hins
    -- now all ones below `stop` are in the list
    have hset : S ∪ {x ∈ ones bit (2 ^ scale) | x / 2 ^ scale < next} ∪
        run (low * 2 ^ scale) ((stop - low) * 2 ^ scale) =
        S ∪ {x ∈ ones bit (2 ^ scale) | x / 2 ^ scale < stop} := by
      ext x
      simp only [Set.mem_union, mem_run_mul hu hstart.le, Set.mem_ofPred_eq, or_assoc]
      refine or_congr_right ⟨?_, ?_⟩
      · rintro (hx | hx)
        · exact ⟨hx.1, by omega⟩
        · exact ⟨hones _ hx.1 hx.2, hx.2⟩
      · rintro ⟨hx, hlt⟩
        by_cases hn : x / 2 ^ scale < next
        · exact Or.inl ⟨hx, hn⟩
        · exact Or.inr ⟨hzero _ hx (not_lt.mp hn), hlt⟩
    rw [hset] at hd1
    simp only [Nat.shiftLeft_eq, hins, Option.isSome_none, Bool.false_eq_true, if_false]
    by_cases hall : stop = bsize
    · refine ⟨d1, by rw [if_pos hall], ?_⟩
      convert hd1 using 2
      ext x
      exact ⟨fun hx => ⟨hx, hall ▸ hsize _ hx⟩, fun hx => hx.1⟩
    · rw [if_neg hall]
      exact build_ok hfree hend hsize (by omega) (by omega) hd1

/-- `__pmfs_build_blocknode_map`, when block 0 is in the list. -/
theorem build_map {b : Bitmap} {scale : ℕ} {failed : List (ℕ × ℕ)} (h : MapOk sum e S d)
    (hfree : Disjoint S (ones b.bit (2 ^ scale)))
    (hend : ∀ k, b.bit k = true → (k + 1) * 2 ^ scale ≤ e)
    (hsize : ∀ k, b.bit k = true → k < b.size * 8) (hpos : 0 < b.size) :
    ∃ d', __pmfsBuildBlocknodeMap b scale d failed = some (d', failed) ∧
      MapOk sum e (S ∪ ones b.bit (2 ^ scale)) d' := by
  refine build_ok hfree hend hsize (by omega) (by omega) ?_
  convert h using 2
  -- the loop starts at bit 1, and bit 0 is not set since block 0 is in use
  refine Set.union_eq_left.mpr fun x hx => ?_
  have h0 : (0 : ℕ) ∈ S := h.inUse ▸ h.wf.zero_mem
  have hbit : b.bit 0 = true := by
    have hx0 : x / 2 ^ scale = 0 := Nat.lt_one_iff.mp hx.2
    exact hx0 ▸ hx.1
  refine absurd ?_ (Set.disjoint_left.mp hfree h0)
  change b.bit (0 / 2 ^ scale) = true
  rwa [Nat.zero_div]

end Pmfs.Mount.Build
