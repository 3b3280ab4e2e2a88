import Pmfs.Block.Spec

/-! # The count of free blocks

Whatever the allocator is asked to do, the number of free blocks and the number of used ones add up
to the same word: `newBlock_balanced` and `freeBlock_balanced`, the latter for any hint and any
block number. A 4K block always extends the node before it, so `newBlock_4K_count` says that no
allocation of a 4K block makes the list longer. -/

namespace Pmfs.Block.Balance

open Lib.Intervals Block.Model Block.Alloc Block.Free Block.Spec

/-- No node is empty, and the free and the used blocks make `sum`. -/
structure Balanced (sum : UInt64) (s : Balloc) : Prop where
  nonempty : ∀ i ∈ s.blockInuseHead, i.low ≤ i.high
  total : s.numFreeBlocks + UInt64.ofNat (total s.blockInuseHead) = sum

variable {n e c low : ℕ} {ok : Bool} {s s' : Balloc} {sum : UInt64} {t : BlkType}

theorem balanced_of_wf (h : Wf s) :
    Balanced (s.numFreeBlocks + UInt64.ofNat (total s.blockInuseHead)) s :=
  ⟨fun i hi => (h.canon.inside i hi).2.1, rfl⟩

theorem newBlock_balanced (hs : Wf s) (h : Balanced sum s) :
    Wf (pmfsNewBlock s t ok).2 ∧ Balanced sum (pmfsNewBlock s t ok).2 := by
  rcases newBlock_cases s t ok with ⟨-, heq⟩ | ⟨l, c, low, hl, heq⟩
  · rw [heq]
    exact ⟨hs, h⟩
  · have hwf := (newBlock_ok hs heq).wf
    have hp := (newBlockLoop_placed (numblocks_pos t) hs.canon hl).1
    rw [heq]
    refine ⟨hwf, fun i hi => (hwf.canon.inside i hi).2.1, ?_⟩
    simp only [hp.total, UInt64.ofNat_add]
    rw [← h.total, UInt64.add_comm (UInt64.ofNat (Lib.Intervals.total s.blockInuseHead)),
      ← UInt64.add_assoc, UInt64.sub_add_cancel]

/-- The search loop of `__pmfs_free_block` takes `n` blocks out of the list if it frees at all. -/
theorem freeBlockLoop_total (hn : 0 < n) : ∀ {pos : ℕ} {l : List PmfsBlocknode} {r : FreeLoop},
    freeBlockLoop low (low + n - 1) ok c pos l = r → (∀ i ∈ l, i.low ≤ i.high) →
      (∀ i ∈ r.inuse, i.low ≤ i.high) ∧ (r.freed = true → total r.inuse + n = total l) ∧
        (r.freed = false → total r.inuse = total l)
  | _, [], _, rfl, _ => by simp [freeBlockLoop]
  | pos, i :: rest, _, rfl, hne => by
    obtain ⟨hi, hrest⟩ := List.forall_mem_cons.mp hne
    rw [freeBlockLoop]
    generalize hr : freeBlockLoop low (low + n - 1) ok c (pos + 1) rest = r
    obtain ⟨h1, h2, h3⟩ := freeBlockLoop_total hn hr hrest
    have hskip : (∀ j ∈ (r.cons i).inuse, j.low ≤ j.high) ∧
        ((r.cons i).freed = true → total (r.cons i).inuse + n = total (i :: rest)) ∧
        ((r.cons i).freed = false → total (r.cons i).inuse = total (i :: rest)) := by
      simp only [cons_inuse, cons_freed, List.forall_mem_cons, total_cons]
      exact ⟨⟨hi, h1⟩, fun h => by have := h2 h; omega, fun h => by rw [h3 h]⟩
    split_ifs
    · exact hskip
    · exact ⟨hrest, fun _ => by simp only [total_cons]; omega, by simp⟩
    · simp only [List.forall_mem_cons, total_cons]
      exact ⟨⟨by omega, hrest⟩, fun _ => by omega, by simp⟩
    · simp only [List.forall_mem_cons, total_cons]
      exact ⟨⟨by omega, hrest⟩, fun _ => by omega, by simp⟩
    · simp only [List.forall_mem_cons, total_cons]
      exact ⟨⟨by omega, by omega, hrest⟩, fun _ => by omega, by simp⟩
    · exact ⟨hne, by simp, fun _ => rfl⟩
    · exact hskip

theorem freeBlock_balanced {blocknr : ℕ} {hint hint' : Option ℕ} (h : Balanced sum s)
    (hrun : __pmfsFreeBlock s blocknr t ok hint = some (s', hint')) : Balanced sum s' := by
  unfold __pmfsFreeBlock at hrun
  split_ifs at hrun with hnil
  obtain ⟨start, -, heq⟩ := Option.map_eq_some_iff.mp hrun
  cases heq
  generalize hr : freeBlockLoop blocknr (blocknr + pmfsGetNumblocks t - 1) ok
    s.numBlocknodeAllocated start (s.blockInuseHead.drop start) = r
  obtain ⟨h1, h2, h3⟩ := freeBlockLoop_total (numblocks_pos t) hr fun i hi =>
    h.nonempty i (List.mem_of_mem_drop hi)
  refine ⟨fun i hi => ?_, ?_⟩
  · rcases List.mem_append.mp hi with hi | hi
    · exact h.nonempty i (List.mem_of_mem_take hi)
    · exact h1 i hi
  · have hsplit : Lib.Intervals.total s.blockInuseHead =
        Lib.Intervals.total (s.blockInuseHead.take start ++ r.inuse) +
          (if r.freed then pmfsGetNumblocks t else 0) := by
      conv_lhs => rw [← List.take_append_drop start s.blockInuseHead]
      rw [total_append, total_append]
      cases hf : r.freed with
      | true => rw [← h2 hf, if_pos rfl, Nat.add_assoc]
      | false => rw [← h3 hf, if_neg (by simp), Nat.add_zero]
    rw [← h.total, hsplit, UInt64.ofNat_add, UInt64.add_comm (UInt64.ofNat (Lib.Intervals.total _)),
      ← UInt64.add_assoc]
    rfl

theorem newBlockLoop_4K_count : ∀ {l l' : List PmfsBlocknode} {c' low : ℕ},
    newBlockLoop 1 e ok c l = some (l', c', low) → c' ≤ c
  | [], _, _, _, h => by simp [newBlockLoop] at h
  | i :: rest, l', c', low, h => by
    have hskip : ∀ {g : List PmfsBlocknode × ℕ × ℕ → List PmfsBlocknode × ℕ × ℕ},
        (∀ l c low, g (l, c, low) = (i :: l, c, low)) →
          (newBlockLoop 1 e ok c rest).map g = some (l', c', low) → c' ≤ c := by
      intro g hg ho
      obtain ⟨⟨l'', c'', low''⟩, hrec, heq⟩ := Option.map_eq_some_iff.mp ho
      simp only [hg] at heq
      cases heq
      exact newBlockLoop_4K_count hrec
    have ha : alignDown 1 (i.high + 1) = i.high + 1 := by simp [alignDown]
    simp only [newBlockLoop, ha, gt_iff_lt, lt_irrefl, false_and, if_false] at h
    split_ifs at h
    · exact hskip (fun _ _ _ => rfl) h
    · cases rest <;> simp only [Option.some.injEq, Prod.mk.injEq] at h <;> omega
    · simp only [Option.some.injEq, Prod.mk.injEq] at h
      omega
    · exact hskip (fun _ _ _ => rfl) h

theorem newBlock_4K_count :
    (pmfsNewBlock s .b4K ok).2.numBlocknodeAllocated ≤ s.numBlocknodeAllocated := by
  rcases newBlock_cases s .b4K ok with ⟨-, heq⟩ | ⟨l, c, low, hl, heq⟩
  · rw [heq]
  · rw [heq]
    exact newBlockLoop_4K_count hl

end Pmfs.Block.Balance
