import Pmfs.Block.Alloc
import Pmfs.Block.Free
import Mathlib.Logic.Relation

/-! # The allocator as a set of blocks

A well-formed allocator (`Wf`) stands for the set `inUse` of the blocks in use. The three operations
are described once on that set: `newBlock_ok` and `newBlock_enospc_iff` for `pmfs_new_block`,
`freeBlock_spec` for `__pmfs_free_block`, whatever its hint, and `freeBlock_keep` for a free of
blocks that are not in use. `allocator_refines_set` puts them together over all runs. -/

namespace Pmfs.Block.Spec

open Lib.Intervals Block.Model Block.Alloc Block.Free
open Relation

/-- The set of blocks in use. -/
def inUse (s : Balloc) : Set ℕ := covered s.blockInuseHead

/-- The invariant of the list of used blocks. -/
structure Wf (s : Balloc) : Prop where
  canon : Canon 0 s.blockEnd s.blockInuseHead
  first : s.blockInuseHead.head?.map Interval.low = some 0
  count : s.numBlocknodeAllocated = s.blockInuseHead.length

/-- The blocks of the run of type `t` at `blocknr`. -/
def blockRun (blocknr : ℕ) (t : BlkType) : Set ℕ := run blocknr (pmfsGetNumblocks t)

/-- A hint is null or points to a node of the list. -/
def HintOk (s : Balloc) (hint : Option ℕ) : Prop := ∀ p ∈ hint, p < s.blockInuseHead.length

variable {s s' : Balloc} {t : BlkType} {a blocknr : ℕ} {ok : Bool}

theorem Wf.ne_nil (h : Wf s) : s.blockInuseHead ≠ [] := by
  intro hnil
  have := h.first
  simp [hnil] at this

theorem Wf.zero_mem (h : Wf s) : 0 ∈ inUse s := by
  have hf := h.first
  have hc := h.canon
  unfold inUse
  cases hl : s.blockInuseHead with
  | nil => exact absurd hl h.ne_nil
  | cons i rest =>
    rw [hl] at hf hc
    simp only [List.head?_cons, Option.map_some, Option.some.injEq] at hf
    exact mem_covered_cons.mpr (Or.inl ⟨hf.le, Nat.zero_le _⟩)

theorem Wf.lt_blockEnd (h : Wf s) {x : ℕ} (hx : x ∈ inUse s) : x < s.blockEnd :=
  (h.canon.mem_bounds hx).2

/-! ### Formatting -/

theorem wf_init {blockEnd initUsedSize : ℕ} (hpos : 0 < initUsedSize)
    (hfit : numUsedBlock initUsedSize ≤ blockEnd) :
    Wf (pmfsInitBlockmap (Balloc.fresh blockEnd) initUsedSize) := by
  have hused : 0 < numUsedBlock initUsedSize := by
    simp only [numUsedBlock, Nat.shiftRight_eq_div_pow]
    omega
  refine ⟨?_, rfl, rfl⟩
  refine canon_cons.mpr ⟨le_rfl, ?_, ?_, by simp [Balloc.fresh]⟩ <;> simp [Balloc.fresh,
    pmfsInitBlockmap]
  omega

theorem inUse_init {blockEnd initUsedSize : ℕ} (hpos : 0 < initUsedSize) :
    inUse (pmfsInitBlockmap (Balloc.fresh blockEnd) initUsedSize) =
      run 0 (numUsedBlock initUsedSize) := by
  have hused : 0 < numUsedBlock initUsedSize := by
    simp only [numUsedBlock, Nat.shiftRight_eq_div_pow]
    omega
  ext x
  simp only [inUse, pmfsInitBlockmap, Balloc.fresh, mem_covered_cons, covered_nil,
    Set.mem_empty_iff_false, or_false, mem_run]
  omega

/-! ### `pmfs_new_block` -/

theorem newBlock_cases (s : Balloc) (t : BlkType) (ok : Bool) :
    (newBlockLoop (pmfsGetNumblocks t) s.blockEnd ok s.numBlocknodeAllocated s.blockInuseHead =
    none ∧
        pmfsNewBlock s t ok = (.error .ENOSPC, s)) ∨
      ∃ l c low, newBlockLoop (pmfsGetNumblocks t) s.blockEnd ok s.numBlocknodeAllocated
          s.blockInuseHead = some (l, c, low) ∧
        pmfsNewBlock s t ok = (.ok low, { s with
          blockInuseHead := l
          numFreeBlocks := s.numFreeBlocks - UInt64.ofNat (pmfsGetNumblocks t)
          numBlocknodeAllocated := c }) := by
  unfold pmfsNewBlock
  cases h : newBlockLoop (pmfsGetNumblocks t) s.blockEnd ok s.numBlocknodeAllocated
      s.blockInuseHead with
  | none => exact Or.inl ⟨rfl, by simp only [h]⟩
  | some r => exact Or.inr ⟨r.1, r.2.1, r.2.2, rfl, by simp only [h]⟩

theorem newBlock_error {err : Errno} (h : pmfsNewBlock s t ok = (.error err, s')) :
    err = .ENOSPC ∧ s' = s := by
  rcases newBlock_cases s t ok with ⟨-, h'⟩ | ⟨l, c, low, -, h'⟩ <;> rw [h'] at h <;>
    simp_all

/-- What a successful `pmfs_new_block` did. -/
structure NewBlock (s : Balloc) (t : BlkType) (a : ℕ) (s' : Balloc) : Prop where
  wf : Wf s'
  inUse : inUse s' = inUse s ∪ blockRun a t
  free : Disjoint (blockRun a t) (Pmfs.Block.Spec.inUse s)
  aligned : pmfsGetNumblocks t ∣ a
  fits : a + pmfsGetNumblocks t ≤ s.blockEnd
  numFree : s'.numFreeBlocks = s.numFreeBlocks - UInt64.ofNat (pmfsGetNumblocks t)
  blockEnd : s'.blockEnd = s.blockEnd

theorem newBlock_ok (hs : Wf s) (h : pmfsNewBlock s t ok = (.ok a, s')) : NewBlock s t a s' := by
  rcases newBlock_cases s t ok with ⟨-, h'⟩ | ⟨l, c, low, hl, h'⟩
  · rw [h'] at h; simp at h
  rw [h'] at h
  cases h
  have g := newBlockLoop_some (numblocks_pos t) hs.canon hl
  refine ⟨⟨g.canon, ?_, ?_⟩, ?_, ?_, g.aligned, g.fits, rfl, rfl⟩
  · rw [← hs.first]; exact g.first
  · have := g.count hs.count.ge
    have := hs.count
    simp only; omega
  · ext x; exact g.covered x
  · exact Set.disjoint_left.mpr fun x hx => g.free x hx

theorem newBlock_enospc_iff (hs : Wf s) :
    (pmfsNewBlock s t true).1 = .error .ENOSPC ↔
      ∀ a, pmfsGetNumblocks t ∣ a → a + pmfsGetNumblocks t ≤ s.blockEnd →
        ¬ Disjoint (blockRun a t) (inUse s) := by
  constructor
  · intro h a hd hfit hdis
    have hloop : newBlockLoop (pmfsGetNumblocks t) s.blockEnd true s.numBlocknodeAllocated
        s.blockInuseHead = none := by
      rcases newBlock_cases s t true with ⟨hl, -⟩ | ⟨l, c, low, -, h'⟩
      · exact hl
      · rw [h'] at h; simp at h
    obtain ⟨i, rest, hl⟩ := List.exists_cons_of_ne_nil hs.ne_nil
    have hc := hs.canon
    have hf := hs.first
    rw [hl] at hloop hc hf
    simp only [List.head?_cons, Option.map_some, Option.some.injEq] at hf
    obtain ⟨x, hx, hx'⟩ := newBlockLoop_none (numblocks_pos t) hc hloop hd (by omega) hfit
    exact Set.disjoint_left.mp hdis hx (by rw [inUse, hl]; exact hx')
  · intro h
    rcases newBlock_cases s t true with ⟨-, h'⟩ | ⟨l, c, low, -, h'⟩
    · rw [h']
    · have g := newBlock_ok hs h'
      exact absurd g.free (h low g.aligned g.fits)

theorem newBlockLoop_4K_slab {e c : ℕ} {l : List PmfsBlocknode} :
    newBlockLoop 1 e false c l = newBlockLoop 1 e true c l := by
  induction l with
  | nil => rfl
  | cons i rest ih =>
    have ha : alignDown 1 (i.high + 1) = i.high + 1 := by simp [alignDown]
    simp only [newBlockLoop, ha, gt_iff_lt, lt_irrefl, false_and, if_false, ih]

theorem newBlock_4K_slab : pmfsNewBlock s .b4K ok = pmfsNewBlock s .b4K true := by
  cases ok with
  | true => rfl
  | false =>
    unfold pmfsNewBlock
    simp only [pmfsGetNumblocks, newBlockLoop_4K_slab]

/-- When fewer blocks are in use than there are, there is one for `pmfs_new_block`. -/
theorem newBlock_4K_of_lt (hs : Wf s) (hlt : (inUse s).ncard < s.blockEnd) :
    ∃ a s', pmfsNewBlock s .b4K ok = (.ok a, s') := by
  rw [newBlock_4K_slab]
  rcases hr : pmfsNewBlock s .b4K true with ⟨r, s'⟩
  cases r with
  | ok a => exact ⟨a, s', rfl⟩
  | error err =>
    obtain ⟨rfl, -⟩ := newBlock_error hr
    have hfull := (newBlock_enospc_iff hs).mp (by rw [hr])
    have hsub : Set.Iio s.blockEnd ⊆ inUse s := by
      intro x hx
      by_contra hcon
      refine hfull x (one_dvd x) (Nat.succ_le_of_lt hx) (Set.disjoint_left.mpr fun y hy hy' => ?_)
      have hyx : y = x := by
        have := mem_run.mp hy
        simp only [pmfsGetNumblocks] at this
        omega
      exact hcon (hyx ▸ hy')
    have hfin : (inUse s).Finite := (Set.finite_Iio s.blockEnd).subset fun x hx => hs.lt_blockEnd hx
    have hcard := Set.ncard_le_ncard hsub hfin
    rw [← Finset.coe_Iio, Set.ncard_coe_finset, Nat.card_Iio] at hcard
    omega

/-! ### `__pmfs_free_block` -/

/-- The search loop of `__pmfs_free_block` without a hint. -/
def freeLoop (s : Balloc) (blocknr : ℕ) (t : BlkType) (ok : Bool) : FreeLoop :=
  freeBlockLoop blocknr (blocknr + pmfsGetNumblocks t - 1) ok s.numBlocknodeAllocated 0
    s.blockInuseHead

/-- **A hint makes no difference** to what is freed. -/
theorem freeBlock_eq {e : ℕ} (hc : Canon 0 e s.blockInuseHead) (hne : s.blockInuseHead ≠ [])
    {hint : Option ℕ} (hh : HintOk s hint) : __pmfsFreeBlock s blocknr t ok hint =
      some (s.afterFree t 0 (freeLoop s blocknr t ok),
      (freeLoop s blocknr t ok).hint.getD hint) := by
  unfold __pmfsFreeBlock
  rw [if_neg (by simpa using hne)]
  cases hint with
  | none => rfl
  | some h =>
    have hlt := hh h rfl
    have hget : s.blockInuseHead[h]? = some s.blockInuseHead[h] := List.getElem?_eq_getElem hlt
    simp only [startNode, hget, Option.map_some]
    by_cases hlow : blocknr ≥ s.blockInuseHead[h].low
    · -- the nodes before the hint end below the freed run
      have hskip := freeBlockLoop_skip (blocknr + pmfsGetNumblocks t - 1) ok s.numBlocknodeAllocated
        0 (s.blockInuseHead.take h) (s.blockInuseHead.drop h)
        (high_lt_of_take hc hget hlow)
      rw [List.take_append_drop, List.length_take, min_eq_left hlt.le, Nat.zero_add] at hskip
      rw [if_pos hlow, freeLoop, hskip]
      rfl
    · rw [if_neg hlow]
      rfl

/-- What a free of blocks in use did. -/
structure FreeBlock (s : Balloc) (t : BlkType) (blocknr : ℕ) (s' : Balloc) : Prop where
  wf : Wf s'
  inUse : inUse s' = inUse s \ blockRun blocknr t
  numFree : s'.numFreeBlocks = s.numFreeBlocks + UInt64.ofNat (pmfsGetNumblocks t)
  blockEnd : s'.blockEnd = s.blockEnd

theorem freeBlock_spec (hs : Wf s) {hint : Option ℕ} (hh : HintOk s hint) (hpos : 0 < blocknr)
    (hin : blockRun blocknr t ⊆ inUse s) :
    ∃ s' hint', __pmfsFreeBlock s blocknr t true hint = some (s', hint') ∧
      FreeBlock s t blocknr s' ∧ HintOk s' hint' := by
  have hn := numblocks_pos t
  have g : Shrunk (pmfsGetNumblocks t) 0 s.blockEnd s.numBlocknodeAllocated blocknr 0
      s.blockInuseHead (freeLoop s blocknr t true) :=
    freeBlockLoop_shrunk hn hs.canon (hs.canon.run_inside hn hin)
  refine ⟨_, _, freeBlock_eq hs.canon hs.ne_nil hh, ⟨⟨g.canon, g.first 0 hpos hs.first, ?_⟩,
    ?_, ?_, rfl⟩, ?_⟩
  · have := g.count hs.count.ge
    have := hs.count
    simp only [Balloc.afterFree, List.take_zero, List.nil_append]; omega
  · ext x; exact g.covered x
  · simp only [Balloc.afterFree, g.freed, if_true]
  · intro p hp
    have hsome := g.hint_some
    obtain ⟨o, ho⟩ := Option.isSome_iff_exists.mp hsome
    have := g.hint p (by rw [ho] at hp ⊢; exact hp)
    simpa [Balloc.afterFree] using this

/-- A free of blocks that are not wholly in use changes nothing. -/
theorem freeBlock_keep {e : ℕ} (hc : Canon 0 e s.blockInuseHead) (hne : s.blockInuseHead ≠ [])
    {hint : Option ℕ} (hh : HintOk s hint) (hin : ¬ blockRun blocknr t ⊆ inUse s) :
    __pmfsFreeBlock s blocknr t ok hint = some (s, hint) := by
  have hn := numblocks_pos t
  have hkeep : freeLoop s blocknr t ok = ⟨s.blockInuseHead,
    s.numBlocknodeAllocated, false, none⟩ := by
    refine freeBlockLoop_keep hn hc fun i hi h => hin fun x hx => ?_
    have hx' := mem_run.mp hx
    exact covered_of_mem hi (by omega) (by omega)
  rw [freeBlock_eq hc hne hh, hkeep]
  simp [Balloc.afterFree]

/-! ### Runs -/

/-- One call of the allocator, blocknodes being available: an allocation, or a free, with any hint,
of blocks in use other than block 0. -/
inductive Step : Balloc → Balloc → Prop
  | new (s : Balloc) (t : BlkType) : Step s (pmfsNewBlock s t true).2
  | free {s s' : Balloc} {blocknr : ℕ} {t : BlkType} {hint hint' : Option ℕ} (hpos : 0 < blocknr)
      (hin : blockRun blocknr t ⊆ inUse s) (hh : HintOk s hint)
      (h : __pmfsFreeBlock s blocknr t true hint = some (s', hint')) : Step s s'

theorem Step.wf (h : Step s s') (hs : Wf s) : Wf s' := by
  cases h with
  | new t =>
    rcases hr : pmfsNewBlock s t true with ⟨r, s''⟩
    cases r with
    | error err => rw [(newBlock_error hr).2]; exact hs
    | ok a => exact (newBlock_ok hs hr).wf
  | free hpos hin hh h =>
    obtain ⟨s'', hint'', h', hf, -⟩ := freeBlock_spec hs hh hpos hin
    obtain ⟨rfl, -⟩ : s'' = s' ∧ hint'' = _ := by simpa [h] using h'.symm
    exact hf.wf

theorem wf_of_steps {s0 : Balloc} (h : ReflTransGen Step s0 s) (h₀ : Wf s0) : Wf s := by
  induction h with
  | refl => exact h₀
  | tail _ hstep ih => exact hstep.wf ih

/-- **The allocator refines a set of blocks.** In every state of every run from a formatted device,
the list of used blocks is canonical and each operation does to the set of used blocks, and to the
count of free ones, what it is for. -/
theorem allocator_refines_set {blockEnd initUsedSize : ℕ} {s : Balloc} (hpos : 0 < initUsedSize)
    (hfit : numUsedBlock initUsedSize ≤ blockEnd)
    (hrun : ReflTransGen Step (pmfsInitBlockmap (Balloc.fresh blockEnd) initUsedSize) s) :
    (Canon 0 s.blockEnd s.blockInuseHead ∧
      s.blockInuseHead.head?.map Interval.low = some 0 ∧
      s.numBlocknodeAllocated = s.blockInuseHead.length) ∧
    (∀ t a s', pmfsNewBlock s t true = (.ok a, s') →
      pmfsGetNumblocks t ∣ a ∧ Disjoint (blockRun a t) (inUse s) ∧
      inUse s' = inUse s ∪ blockRun a t ∧
      s'.numFreeBlocks = s.numFreeBlocks - UInt64.ofNat (pmfsGetNumblocks t)) ∧
    (∀ t, ((pmfsNewBlock s t true).1 = .error .ENOSPC ↔
        ∀ a, pmfsGetNumblocks t ∣ a → a + pmfsGetNumblocks t ≤ s.blockEnd →
          ¬ Disjoint (blockRun a t) (inUse s)) ∧
      ∀ err s', pmfsNewBlock s t true = (.error err, s') → err = .ENOSPC ∧ s' = s) ∧
    (∀ t blocknr hint, 0 < blocknr → blockRun blocknr t ⊆ inUse s → HintOk s hint →
      ∃ s' hint', __pmfsFreeBlock s blocknr t true hint = some (s', hint') ∧
        inUse s' = inUse s \ blockRun blocknr t ∧
        s'.numFreeBlocks = s.numFreeBlocks + UInt64.ofNat (pmfsGetNumblocks t)) := by
  have hs : Wf s := wf_of_steps hrun (wf_init hpos hfit)
  refine ⟨⟨hs.canon, hs.first, hs.count⟩, fun t a s' h => ?_, fun t => ⟨newBlock_enospc_iff hs,
    fun err s' h => newBlock_error h⟩, fun t blocknr hint h0 hin hh => ?_⟩
  · have g := newBlock_ok hs h
    exact ⟨g.aligned, g.free, g.inUse, g.numFree⟩
  · obtain ⟨s', hint', h, hf, -⟩ := freeBlock_spec hs hh h0 hin
    exact ⟨s', hint', h, hf.inUse, hf.numFree⟩

theorem allocator_refines_set_two_allocs :
    let s := (pmfsNewBlock (pmfsNewBlock (pmfsInitBlockmap (Balloc.fresh 2048) 69632) .b2M true).2
      .b4K true).2
    s.blockInuseHead = [⟨0, 17⟩, ⟨512, 1023⟩] ∧
      s.numBlocknodeAllocated = s.blockInuseHead.length :=
  ⟨by decide, (allocator_refines_set (by decide) (by decide)
    ((ReflTransGen.refl.tail (Step.new _ _)).tail (Step.new _ _))).1.2.2⟩

end Pmfs.Block.Spec
