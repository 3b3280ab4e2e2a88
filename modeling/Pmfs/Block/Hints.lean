import Pmfs.Block.Spec

/-! # Freeing with one hint

`recursive_truncate_blocks` frees the data blocks of a metadata block one after the other, and hands
the same `start_hint`, null at first, to every call of `__pmfs_free_block` (`freeHinted`). A hint
that is null or a node of the list makes no difference to a call and leaves such a hint
(`freeBlock_hinted`), so the list and the counters are those that the calls without a hint leave
(`hinted_eq_plain`), whatever the order of the blocks, and whether they are in use or not. -/

namespace Pmfs.Block.Hints

open Lib.Intervals Block.Model Block.Free Block.Spec

/-- The calls of `__pmfs_free_block` for blocks of one type with one hint. With every block comes
whether there is a blocknode for the call. -/
def freeHinted (t : BlkType) : List (ℕ × Bool) → Balloc → Option ℕ → Option (Balloc × Option ℕ)
  | [], s, hint => some (s, hint)
  | (blocknr, nodeOk) :: l, s, hint =>
    (__pmfsFreeBlock s blocknr t nodeOk hint).bind fun r => freeHinted t l r.1 r.2

/-- The calls without a hint. -/
def freePlain (t : BlkType) : List (ℕ × Bool) → Balloc → Option Balloc
  | [], s => some s
  | (blocknr, nodeOk) :: l, s => (pmfsFreeBlock s blocknr t nodeOk).bind (freePlain t l)

variable {e blocknr : ℕ} {s : Balloc} {t : BlkType} {ok : Bool} {hint : Option ℕ}

theorem freeBlock_nil (hnil : s.blockInuseHead = []) :
    __pmfsFreeBlock s blocknr t ok hint = none := by
  unfold __pmfsFreeBlock
  rw [if_pos (by simp [hnil])]

/-- One call: with a hint it does what it does without, and it leaves a hint to a node of the list.
-/
theorem freeBlock_hinted (hc : Canon 0 e s.blockInuseHead) (hne : s.blockInuseHead ≠ [])
    (hh : HintOk s hint) : ∃ s' hint', __pmfsFreeBlock s blocknr t ok hint = some (s', hint') ∧
    pmfsFreeBlock s blocknr t ok = some s' ∧
      Canon 0 e s'.blockInuseHead ∧ HintOk s' hint' := by
  refine ⟨_, _, freeBlock_eq hc hne hh, ?_, ?_⟩
  · rw [pmfsFreeBlock, freeBlock_eq hc hne (by simp [HintOk]), Option.map_some]
  · have hout : freeLoop s blocknr t ok = _ ∨ Shrunk _ _ _ _ _ _ _ (freeLoop s blocknr t ok) :=
      freeBlockLoop_outcome (numblocks_pos t) hc
    rcases hout with hkeep | hshrunk
    · rw [hkeep]
      exact ⟨hc, hh⟩
    · refine ⟨hshrunk.canon, fun p hp => ?_⟩
      obtain ⟨o, ho⟩ := Option.isSome_iff_exists.mp hshrunk.hint_some
      have hlt := hshrunk.hint p (by rw [ho] at hp ⊢; exact hp)
      simpa [Balloc.afterFree] using hlt

theorem freeHinted_eq : ∀ {l : List (ℕ × Bool)} {s : Balloc} {hint : Option ℕ},
    Canon 0 e s.blockInuseHead → HintOk s hint → (freeHinted t l s hint).map Prod.fst =
    freePlain t l s ∧
      ∀ {s' : Balloc} {hint' : Option ℕ}, freeHinted t l s hint = some (s', hint') →
        Canon 0 e s'.blockInuseHead ∧ HintOk s' hint'
  | [], s, hint, hc, hh => by
    refine ⟨rfl, fun hrun => ?_⟩
    cases hrun
    exact ⟨hc, hh⟩
  | (blocknr, ok) :: l, s, hint, hc, hh => by
    rw [freeHinted, freePlain]
    by_cases hnil : s.blockInuseHead = []
    · rw [pmfsFreeBlock, freeBlock_nil hnil, freeBlock_nil hnil]
      exact ⟨rfl, fun hrun => by simp at hrun⟩
    · obtain ⟨s1, hint1, hrun, hplain, hc1, hh1⟩ := freeBlock_hinted hc hnil hh
      rw [hrun, hplain]
      exact freeHinted_eq hc1 hh1

/-- The calls come to their end unless one of them finds the list empty. -/
theorem freePlain_none (hc : Canon 0 e s.blockInuseHead) {l : List (ℕ × Bool)}
    (hrun : freePlain t l s = none) : ∃ pre op post s', l = pre ++ op :: post ∧
    freePlain t pre s = some s' ∧ s'.blockInuseHead = [] := by
  induction l generalizing s with
  | nil => simp [freePlain] at hrun
  | cons op l ih =>
    by_cases hnil : s.blockInuseHead = []
    · exact ⟨[], op, l, s, rfl, rfl, hnil⟩
    · obtain ⟨s1, -, -, hplain, hc1, -⟩ :=
        @freeBlock_hinted e op.1 s t op.2 none hc hnil (by simp [HintOk])
      rw [freePlain, hplain, Option.bind_some] at hrun
      obtain ⟨pre, op', post, s', rfl, hpre, hempty⟩ := ih hc1 hrun
      refine ⟨op :: pre, op', post, s', rfl, ?_, hempty⟩
      rw [freePlain, hplain, Option.bind_some, hpre]

/-- **Main result.** From a canonical list on, the calls for any blocks of one type with one hint
leave the list and the counters that the calls without a hint leave. They come to their end unless
one of them finds the list empty. The hint is then null or a node of the list, and a call for blocks
that are not all in use changes nothing. -/
theorem hinted_eq_plain (e : ℕ) (s : Balloc) (hc : Canon 0 e s.blockInuseHead) (t : BlkType)
    (l : List (ℕ × Bool)) : (freeHinted t l s none).map Prod.fst = freePlain t l s ∧
    (freePlain t l s = none →
      ∃ pre op post s', l = pre ++ op :: post ∧ freePlain t pre s = some s' ∧
      s'.blockInuseHead = []) ∧
    ∀ s' hint, freeHinted t l s none = some (s', hint) → HintOk s' hint ∧
      ∀ blocknr ok, s'.blockInuseHead ≠ [] → ¬ blockRun blocknr t ⊆ inUse s' →
        __pmfsFreeBlock s' blocknr t ok hint = some (s', hint) := by
  obtain ⟨heq, hkept⟩ := @freeHinted_eq e t l s none hc (by simp [HintOk])
  refine ⟨heq, freePlain_none hc, fun s' hint hrun => ?_⟩
  obtain ⟨hc', hh⟩ := hkept hrun
  exact ⟨hh, fun blocknr ok hne hnot => freeBlock_keep hc' hne hh hnot⟩

/-- Blocks that are freed out of their order, one of them twice, in a list of two nodes. -/
theorem hinted_eq_plain_four : ∃ s hint,
    freeHinted .b4K [(12, true), (9, true), (12, true), (3, true)] ⟨0, 16,
    [⟨0, 5⟩, ⟨8, 12⟩], 5, 2⟩ none =
      some (s, hint) ∧ freePlain .b4K [(12, true), (9, true), (12, true), (3, true)] ⟨0, 16,
      [⟨0, 5⟩, ⟨8, 12⟩], 5, 2⟩ = some s ∧ HintOk s hint ∧
      s.blockInuseHead = [⟨0, 2⟩, ⟨4, 5⟩, ⟨8, 8⟩, ⟨10, 11⟩] := by
  obtain ⟨⟨s, hint⟩, hrun, hlist⟩ : ∃ r ∈ freeHinted .b4K [(12, true), (9, true),
    (12, true), (3, true)]
      ⟨0, 16, [⟨0, 5⟩, ⟨8, 12⟩], 5, 2⟩ none, r.1.blockInuseHead = [⟨0, 2⟩, ⟨4, 5⟩, ⟨8, 8⟩,
      ⟨10, 11⟩] := by decide
  have hc : Canon 0 16 [⟨0, 5⟩, ⟨8, 12⟩] := ⟨by decide, by decide⟩
  obtain ⟨heq, -, hhint⟩ := hinted_eq_plain 16 ⟨0, 16, [⟨0, 5⟩, ⟨8, 12⟩], 5, 2⟩ hc .b4K
    [(12, true), (9, true), (12, true), (3, true)]
  have hrun' : freeHinted .b4K [(12, true), (9, true), (12, true), (3, true)] ⟨0, 16,
    [⟨0, 5⟩, ⟨8, 12⟩], 5, 2⟩ none = some (s, hint) := hrun
  exact ⟨s, hint, hrun', by rw [← heq, hrun', Option.map_some], (hhint s hint hrun').1, hlist⟩

end Pmfs.Block.Hints
