import Pmfs.Tree.Supply

/-! # The events of an allocation

`recursive_alloc_blocks` calls `pmfs_add_logentry` and stores to slots, and which of them it does
depends on the tree alone, and on the blocks that the allocator hands out. `CallTrace` says which
lists of events are possible for a call on a tree: `SlotTrace` for one slot of a node, with the
flags `new_node` and `journal_saved` before and after it, and `LoopTrace` for the slots of a range,
one after the other. New metadata blocks are none of those in `P`, the blocks that were in use
before. `recursiveAlloc_trace` ties the traces to the code. -/

namespace Pmfs.Tree.Trace

open Lib.Loop Lib.Radix Block.Model Block.Spec
open Tree.Model Tree.Own Tree.Truncate Tree.Grow Tree.Inode Tree.Extend
open Tree.Supply Tree.Keeps
open RTree

/-- The events of a store to slot `i`, the latest first: before it the slots from `i` to `last` are
logged, unless the block counts as new or was logged before. -/
def storeEvents (page last i : ℕ) (newNode saved : Bool) : List Event :=
  .store page i :: if !newNode && !saved then [.log page i (last - i + 1)] else []

/-- The events at slot `i` of a node with the children `c`, with `new_node` and `journal_saved`
before and after it, and whether the loop goes on. `call` gives the events of the recursive calls.
-/
inductive SlotTrace (P : ℕ → Prop) (leaves : Prop) (call : ℕ → Bool → RTree →
    List Event → Bool → Prop) (page last : ℕ) (c : ℕ → RTree) (i : ℕ) (newNode saved : Bool) :
    List Event → Bool → Bool → Bool → Prop
  | present (hleaf : leaves) (hc : c i ≠ empty) :
    SlotTrace P leaves call page last c i newNode saved [] newNode saved true
  | noBlock (hc : c i = empty) (es : List Event) (hes : es = [] ∨ es = [.noMeta]) :
    SlotTrace P leaves call page last c i newNode saved es newNode saved false
  | data (hleaf : leaves) (hc : c i = empty) :
    SlotTrace P leaves call page last c i newNode saved (storeEvents page last i newNode saved)
    newNode
      (saved || !newNode) true
  | old (hleaf : ¬ leaves) (hc : c i ≠ empty) (es : List Event) (ok : Bool)
      (hcall : call i newNode (c i) es ok) :
    SlotTrace P leaves call page last c i newNode saved es newNode saved ok
  | new (hleaf : ¬ leaves) (hc : c i = empty) (b : ℕ) (hb : ¬ P b) (es : List Event) (ok : Bool)
      (hcall : call i true (node (pmfsGetBlockOff b) fun _ => empty) es ok) :
    SlotTrace P leaves call page last c i newNode saved
    (es ++ storeEvents page last i newNode saved) true
      (saved || !newNode) ok

/-- The events at `n` slots from `i` on, given those at one slot. -/
inductive LoopTrace (slot : ℕ → Bool → Bool → List Event → Bool → Bool → Bool → Prop) :
    ℕ → ℕ → Bool → Bool → List Event → Bool → Prop
  | done (i : ℕ) (newNode saved : Bool) : LoopTrace slot i 0 newNode saved [] true
  | stop {i n : ℕ} {newNode saved newNode' saved' : Bool} {es : List Event}
      (hslot : slot i newNode saved es newNode' saved' false) :
    LoopTrace slot i (n + 1) newNode saved es false
  | next {i n : ℕ} {newNode saved newNode' saved' ok : Bool} {es es' : List Event}
      (hslot : slot i newNode saved es newNode' saved' true)
      (hrest : LoopTrace slot (i + 1) n newNode' saved' es' ok) :
    LoopTrace slot i (n + 1) newNode saved (es' ++ es) ok

/-- The events of a call of `recursive_alloc_blocks` for the range from `f` to `l` on a tree of
height `k`, and whether it succeeds. -/
def CallTrace (P : ℕ → Prop) : ℕ → ℕ → ℕ → Bool → RTree → List Event → Bool → Prop
  | k + 1, f, l, newNode, node p c, es, ok =>
    LoopTrace (SlotTrace P (k = 0) (fun i => CallTrace P k (lo 512 k f i) (hi 512 k l i))
      (pmfsGetBlocknr p) (l / 512 ^ k) c) (f / 512 ^ k)
      (l / 512 ^ k + 1 - f / 512 ^ k) newNode false es ok
  | _, _, _, _, _, _, _ => False

/-- **Rule for the slots of a range.** `I` holds of the events before each slot and `Q` at every
end. -/
theorem LoopTrace.rule {slot : ℕ → Bool → Bool → List Event → Bool → Bool → Bool → Prop}
    {I : ℕ → Bool → Bool → List Event → Prop} {Q : List Event → Prop}
    (hQ : ∀ j newNode saved es, I j newNode saved es → Q es) {i n : ℕ} {newNode saved ok : Bool}
    {es es0 : List Event} (h : LoopTrace slot i n newNode saved es ok) :
    (∀ j newNode saved newNode' saved' es0 es ok, i ≤ j → j < i + n → I j newNode saved es0 →
      slot j newNode saved es newNode' saved' ok →
      Q (es ++ es0) ∧ (ok = true → I (j + 1) newNode' saved' (es ++ es0))) →
    I i newNode saved es0 →
    Q (es ++ es0) ∧ (ok = true → ∃ newNode' saved', I (i + n) newNode' saved' (es ++ es0)) := by
  induction h generalizing es0 with
  | done i newNode saved =>
    intro _ hI
    exact ⟨hQ _ _ _ _ hI, fun _ => ⟨_, _, hI⟩⟩
  | stop hslot =>
    intro hstep hI
    exact ⟨(hstep _ _ _ _ _ _ _ _ le_rfl (by omega) hI hslot).1, fun hcon => absurd hcon (by simp)⟩
  | @next i n newNode saved newNode' saved' ok es es' hslot hrest ih =>
    intro hstep hI
    have hnext := (hstep _ _ _ _ _ _ _ _ le_rfl (by omega) hI hslot).2 rfl
    rw [List.append_assoc, show i + (n + 1) = i + 1 + n by omega]
    exact ih (fun j nn sv nn' sv' es0 es ok h1 h2 =>
      hstep j nn sv nn' sv' es0 es ok (by omega) (by omega)) hnext

/-- When no slot stops the loop, it comes to its end. -/
theorem LoopTrace.ok_eq_true {slot : ℕ → Bool → Bool → List Event → Bool → Bool → Bool → Prop}
    {i n : ℕ} {newNode saved ok : Bool} {es : List Event}
    (h : LoopTrace slot i n newNode saved es ok) (hslot : ∀ j newNode saved es newNode' saved' ok,
    i ≤ j → j < i + n →
      slot j newNode saved es newNode' saved' ok → ok = true) : ok = true := by
  induction h with
  | done => rfl
  | stop hstop => exact hslot _ _ _ _ _ _ _ le_rfl (by omega) hstop
  | next _ _ ih =>
    refine ih ?_
    intro j nn sv es nn' sv' ok h1 h2
    exact hslot j nn sv es nn' sv' ok (by omega) (by omega)

variable {P : ℕ → Prop} {t : BlkType} {d d' d0 : Dev} {pi pi' pi0 : PmfsInode} {R : Multiset ℕ}
  {o : Option Errno} {s s' : AllocLoop} {k p f l i j n page last b : ℕ} {zero : Bool}

/-! ### Events of the code -/

theorem newBlock_events {r : Except Errno ℕ} (h : d.newBlock t zero = (r, d')) :
    d'.events = d.events := by
  unfold Dev.newBlock at h
  rcases hr : pmfsNewBlock d.ba t (d.slab.headD true) with ⟨r1, ba⟩
  rw [hr] at h
  cases r1 with
  | error e =>
    rw [Prod.mk.injEq] at h
    rw [← h.2]
  | ok b =>
    rw [Prod.mk.injEq] at h
    rw [← h.2]
    split_ifs <;> rfl

theorem store_events (s : AllocLoop) (page i last b : ℕ) : (s.store page i last b).d.events =
    storeEvents page last i s.newNode s.journalSaved ++ s.d.events := by
  unfold AllocLoop.store storeEvents
  cases s.newNode <;> cases s.journalSaved <;> rfl

theorem store_saved (s : AllocLoop) (page i last b : ℕ) : (s.store page i last b).journalSaved =
    (s.journalSaved || !s.newNode) := by
  unfold AllocLoop.store
  cases s.newNode <;> cases s.journalSaved <;> rfl

/-! ### Blocks in use -/

/-- The blocks of `P` are in use. -/
structure Using (P : ℕ → Prop) (ba : Balloc) : Prop where
  wf : Wf ba
  inUse : ∀ x, P x → x ∈ inUse ba

theorem using_newBlock {ba : Balloc} {t' : BlkType} {ok : Bool} (h : Using P ba) :
    Using P (pmfsNewBlock ba t' ok).2 := by
  rcases hr : pmfsNewBlock ba t' ok with ⟨r, ba'⟩
  cases r with
  | error e =>
    rcases newBlock_cases ba t' ok with ⟨-, hcase⟩ | ⟨l, c, low, -, hcase⟩
    · rw [hr, Prod.mk.injEq] at hcase
      exact hcase.2 ▸ h
    · rw [hr] at hcase
      simp at hcase
  | ok b =>
    have g := newBlock_ok h.wf hr
    refine ⟨g.wf, fun x hx => ?_⟩
    rw [g.inUse]
    exact Or.inl (h.inUse x hx)

theorem not_of_new {M : Multiset ℕ} (hM : Owns d M) (h : Using P d.ba)
    (hr : d.newBlock t zero = (.ok b, d')) : ¬ P b := by
  intro hP
  have hown := (newBlock_owns hM hr).owns
  refine Multiset.disjoint_left.mp (Multiset.nodup_add.mp hown.nodup).2.2
    ?_ ((hM.mem b).mpr (h.inUse b hP))
  exact mem_runBlocks.mpr ⟨le_rfl, Nat.lt_add_of_pos_right (numblocks_pos t)⟩

/-! ### One slot -/

theorem kid_eq_empty_iff (h : Inv t k p f l d0 pi0 R j s) (hj : j < 512) :
    kidsOf d0 k p j = empty ↔ s.d.node (pmfsGetBlocknr p) j = 0 := by
  rw [← h.same j le_rfl, kidsOf_eq j hj, tree_eq_empty_iff]

theorem leaf_trace {call : ℕ → Bool → RTree → List Event → Bool → Prop}
    (h : Inv t 0 p f l d0 pi0 R j s) (hj : j < 512)
    (hrun : allocLeafBody zero (pmfsGetBlocknr p) last j s = some (s', o)) :
    ∃ es, s'.d.events = es ++ s.d.events ∧
    SlotTrace P (0 = 0) call (pmfsGetBlocknr p) last (kidsOf d0 0 p) j
      s.newNode s.journalSaved es s'.newNode s'.journalSaved o.isNone := by
  have hempty := kid_eq_empty_iff h hj
  unfold allocLeafBody pmfsNewDataBlock at hrun
  by_cases hslot : s.d.node (pmfsGetBlocknr p) j = 0
  · rw [if_pos hslot] at hrun
    rcases hr : s.d.newBlock s.pi.iBlkType zero with ⟨r, d1⟩
    have hev := newBlock_events hr
    rw [hr] at hrun
    cases r with
    | error e =>
      cases hrun
      exact ⟨[], hev, .noBlock (hempty.mpr hslot) [] (Or.inl rfl)⟩
    | ok b =>
      cases hrun
      refine ⟨_, by rw [store_events, ← hev], ?_⟩
      rw [store_saved]
      exact .data rfl (hempty.mpr hslot)
  · rw [if_neg hslot] at hrun
    cases hrun
    exact ⟨[], rfl, .present rfl fun hcon => hslot (hempty.mp hcon)⟩

/-- What a recursive call does, given as `run`: its events are one of the traces for the tree. -/
def Traced (P : ℕ → Prop) (t : BlkType) (k : ℕ)
    (run : ℕ → ℕ → ℕ → Bool → Dev → PmfsInode → Option (Dev × PmfsInode × Option Errno)) : Prop :=
  ∀ {d d' : Dev} {pi pi' : PmfsInode} {R : Multiset ℕ} {block f l : ℕ} {newNode : Bool}
    {o : Option Errno}, block ≠ 0 → pi.iBlkType = t → l < 512 ^ k →
    Owns d (blocks t (tree d k block) + R) → Using P d.ba →
    run block f l newNode d pi = some (d', pi', o) → ∃ es, d'.events = es ++ d.events ∧
    CallTrace P k f l newNode (tree d k block) es o.isNone

theorem meta_trace
    {rec : ℕ → ℕ → ℕ → Bool → Dev → PmfsInode → Option (Dev × PmfsInode × Option Errno)}
    (hrec : Traced P t (k + 1) rec) (ht : pi0.iBlkType = t) (h : Inv t (k + 1) p f l d0 pi0 R j s)
    (hp : p ≠ 0) (hj : j < 512) (hP : Using P s.d.ba)
    (hrun : allocMetaBody rec ((k + 1) * 9) f l (pmfsGetBlocknr p) j s = some (s', o)) :
    ∃ es, s'.d.events = es ++ s.d.events ∧
      SlotTrace P (k + 1 = 0)
      (fun i => CallTrace P (k + 1) (lo 512 (k + 1) f i) (hi 512 (k + 1) l i))
        (pmfsGetBlocknr p) (l / 512 ^ (k + 1))
        (kidsOf d0 (k + 1) p) j s.newNode s.journalSaved es s'.newNode
        s'.journalSaved o.isNone := by
  have hempty := kid_eq_empty_iff h hj
  have hleaf : ¬ k + 1 = 0 := Nat.succ_ne_zero k
  have hhi := hi_lt (F := 512) (k := k + 1) (l := l) (by norm_num) j
  have hty : s.pi.iBlkType = t := by
    obtain ⟨added, hc, -⟩ := h.count
    rw [hc.blkType, ht]
  unfold allocMetaBody at hrun
  rw [firstBlk_eq_lo, lastBlk_eq_hi, shiftRight_9] at hrun
  by_cases hslot : s.d.node (pmfsGetBlocknr p) j = 0
  · rw [if_pos hslot] at hrun
    rcases hr : s.d.newBlock .b4K true with ⟨r, d1⟩
    have hev := newBlock_events hr
    rw [hr] at hrun
    cases r with
    | error e =>
      cases hrun
      exact ⟨[.noMeta], by simp [Dev.noteNoMeta, hev], .noBlock (hempty.mpr hslot) _ (Or.inr rfl)⟩
    | ok b =>
      obtain ⟨hnode, hb, htree, hown, -, -, -⟩ := h.new_child hp hj hslot hr (l / 512 ^ (k + 1))
      have hP1 : Using P (({ s with d := d1 } : AllocLoop).store (pmfsGetBlocknr p) j
        (l / 512 ^ (k + 1)) b).d.ba := by
        have hkeep := newBlock_keeps (t := t) (P := Using P) (fun _ _ _ _ => using_newBlock)
          true (Or.inl rfl) hP
        rw [hr] at hkeep
        unfold AllocLoop.store
        dsimp only
        split_ifs <;> exact hkeep
      obtain ⟨⟨d2, pi2, o2⟩, hcall, heq⟩ := Option.map_eq_some_iff.mp hrun
      cases heq
      rw [hnode] at hcall hown
      obtain ⟨es, hes, htrace⟩ := hrec hb hty hhi hown hP1 hcall
      rw [htree] at htrace
      refine ⟨es ++ storeEvents (pmfsGetBlocknr p) (l / 512 ^ (k + 1)) j s.newNode s.journalSaved,
        ?_, ?_⟩
      · rw [List.append_assoc, ← hev]
        rw [store_events] at hes
        exact hes
      · rw [store_saved]
        exact .new hleaf (hempty.mpr hslot) b (not_of_new h.owns hP hr) es _ htrace
  · rw [if_neg hslot] at hrun
    obtain ⟨⟨d2, pi2, o2⟩, hcall, heq⟩ := Option.map_eq_some_iff.mp hrun
    cases heq
    obtain ⟨es, hes, htrace⟩ := hrec hslot hty hhi (h.child hp hj) hP hcall
    rw [← kidsOf_eq j hj, h.same j le_rfl] at htrace
    exact ⟨es, hes, .old hleaf (fun hcon => hslot (hempty.mp hcon)) es _ htrace⟩

/-! ### The loop and the calls -/

/-- The loop, when each slot has one of its traces and leads from one state of the invariant to the
next. -/
theorem loop_trace {body : ℕ → AllocLoop → Option (AllocLoop × Option Errno)}
    {slot : ℕ → Bool → Bool → List Event → Bool → Bool → Bool → Prop} {I : ℕ → AllocLoop → Prop} :
    ∀ {n j : ℕ} {s s' : AllocLoop} {o : Option Errno},
      (∀ i s s' o, j ≤ i → i < j + n → I i s → body i s = some (s', o) →
        (∃ es, s'.d.events = es ++ s.d.events ∧
          slot i s.newNode s.journalSaved es s'.newNode s'.journalSaved o.isNone) ∧
        (o = none → I (i + 1) s')) →
      I j s → forLoop body j n s = some (s', o) →
      ∃ es, s'.d.events = es ++ s.d.events ∧ LoopTrace slot j n s.newNode s.journalSaved es o.isNone
  | 0, j, s, s', o, _, _, hrun => by
    rw [forLoop_zero] at hrun
    cases hrun
    exact ⟨[], rfl, .done j _ _⟩
  | n + 1, j, s, s', o, hstep, hs, hrun => by
    rcases hb : body j s with _ | ⟨s1, o1⟩
    · rw [forLoop_crash hb] at hrun
      exact absurd hrun (by simp)
    obtain ⟨⟨es, hes, hslot⟩, hnext⟩ := hstep j s s1 o1 le_rfl (by omega) hs hb
    cases o1 with
    | some e =>
      rw [forLoop_error hb] at hrun
      cases hrun
      exact ⟨es, hes, .stop hslot⟩
    | none =>
      rw [forLoop_next hb] at hrun
      obtain ⟨es', hes', hrest⟩ :=
        loop_trace (fun i s s' o h1 h2 => hstep i s s' o (by omega) (by omega)) (hnext rfl) hrun
      exact ⟨es' ++ es, by rw [hes', hes, List.append_assoc], .next hslot hrest⟩

/-- The body of the loop leads to the next state of the invariant, by what is known of it. -/
theorem next_inv {r : Option (AllocLoop × Option Errno)} (h : Steps t k p f l d0 pi0 R j r)
    (hr : r = some (s', none)) : Inv t k p f l d0 pi0 R (j + 1) s' := by
  rcases h with ⟨s, hs, hinv⟩ | ⟨s, e, hs, -⟩
  · rw [hr] at hs
    cases hs
    exact hinv
  · rw [hr, Option.some.injEq, Prod.mk.injEq] at hs
    exact absurd hs.2 (by simp)

/-- **Main result.** The events of `recursive_alloc_blocks` are one of the traces for its tree. -/
theorem recursiveAlloc_trace (P : ℕ → Prop) (t : BlkType) (zero : Bool) (k : ℕ) :
    Traced P t (k + 1) (recursiveAllocBlocks zero (k + 1)) := by
  induction k with
  | zero =>
    intro d d' pi pi' R block f l newNode o hb ht hl hown hP hrun
    have hlim : l / 512 ^ 0 < 512 := child_lt hl
    rw [recursiveAllocBlocks, if_neg hb] at hrun
    simp only [shiftRight_9, if_true] at hrun
    obtain ⟨⟨s', o'⟩, hloop, heq⟩ := Option.map_eq_some_iff.mp hrun
    cases heq
    rw [tree_kids hb]
    refine loop_trace (I := Inv t 0 block f l d pi R) (fun i s s' o h1 h2 hinv hbody => ?_)
      (inv_start newNode hown) hloop
    have hi : i ≤ l / 512 ^ 0 := by
      rw [pow_zero, Nat.div_one] at h1 h2 ⊢
      omega
    refine ⟨leaf_trace hinv (hi.trans_lt hlim) hbody, fun ho => ?_⟩
    subst ho
    exact next_inv (leaf_step ht hinv hb h1 hi (hi.trans_lt hlim)) hbody
  | succ k ih =>
    intro d d' pi pi' R block f l newNode o hb ht hl hown hP hrun
    have hlim : l / 512 ^ (k + 1) < 512 := child_lt hl
    rw [recursiveAllocBlocks, if_neg hb] at hrun
    simp only [shiftRight_9, if_neg (Nat.succ_ne_zero k)] at hrun
    obtain ⟨⟨s', o'⟩, hloop, heq⟩ := Option.map_eq_some_iff.mp hrun
    cases heq
    rw [tree_kids hb]
    refine loop_trace (I := fun i s => Inv t (k + 1) block f l d pi R i s ∧ Using P s.d.ba ∧
      s.pi.iBlkType = t) (fun i s s' o h1 h2 hinv hbody => ?_) ⟨inv_start newNode hown, hP,
      ht⟩ hloop
    obtain ⟨hinv, hPs, hts⟩ := hinv
    refine ⟨meta_trace ih ht hinv hb (by omega) hPs hbody, fun ho => ?_⟩
    subst ho
    have hk := balloc_kept (P := Using P) (t := t) (fun _ _ _ _ => using_newBlock) zero
    obtain ⟨⟨⟨-, -, hPs'⟩, -, -, hts'⟩, -⟩ :=
      allocMeta_kept hk (recursiveAlloc_kept hk) (w := ()) (k := k) hPs trivial hts hbody
    exact ⟨next_inv (meta_step (alloc_grows t zero k) ht hinv hb h1 (by omega) (by omega)) hbody,
      hPs', hts'.trans hts⟩

/-! ### More levels -/

/-- The tree `T'` is `T` with `n` levels on top of it, none of their blocks in `P` and nothing but
`T` below them. -/
def Raised (P : ℕ → Prop) : ℕ → RTree → RTree → Prop
  | 0, T, T' => T' = T
  | n + 1, T, T' => ∃ q c, T' = node q c ∧ ¬ P (pmfsGetBlocknr q) ∧ (∀ i, i ≠ 0 → c i = empty) ∧
      Raised P n T (c 0)

theorem Raised.trans {T T1 : RTree} {m : ℕ} (h : Raised P m T T1) : ∀ {n : ℕ} {T2 : RTree},
    Raised P n T1 T2 → Raised P (m + n) T T2
  | 0, T2, h' => by
    obtain rfl : T2 = T1 := h'
    exact h
  | n + 1, T2, ⟨q, c, hnode, hq, hc, h'⟩ => ⟨q, c, hnode, hq, hc, h.trans h'⟩

/-- Events without a call of `pmfs_add_logentry` and without a store to a block of `P`. -/
structure Plain (P : ℕ → Prop) (es : List Event) : Prop where
  store : ∀ page i, .store page i ∈ es → ¬ P page
  log : ∀ page i n, .log page i n ∉ es

theorem plain_nil : Plain P [] := ⟨by simp, by simp⟩

theorem Plain.append {es es' : List Event} (h : Plain P es) (h' : Plain P es') :
    Plain P (es' ++ es) where
  store := fun page i hmem => (List.mem_append.mp hmem).elim (h'.store page i) (h.store page i)
  log := fun page i n hmem => (List.mem_append.mp hmem).elim (h'.log page i n) (h.log page i n)

/-- The events of `pmfs_increase_btree_height`, and the tree after it. -/
theorem increaseLoop_trace : ∀ {n h h' p p' : ℕ} {d d' : Dev} {o : Option Errno},
    Owns d (blocks t (tree d h p) + R) → Using P d.ba → increaseLoop n d h p = (d', h', p', o) →
    ∃ es, d'.events = es ++ d.events ∧ Plain P es ∧ Using P d'.ba ∧
      (o = none → Raised P n (tree d h p) (tree d' h' p'))
  | 0, h, h', p, p', d, d', o, _, hP, hrun => by
    simp only [increaseLoop] at hrun
    cases hrun
    exact ⟨[], rfl, plain_nil, hP, fun _ => rfl⟩
  | n + 1, h, h', p, p', d, d', o, hown, hP, hrun => by
    unfold increaseLoop at hrun
    have hkeep := newBlock_keeps (d := d) (t := t) (P := Using P)
      (fun _ _ _ _ => using_newBlock) true (Or.inl rfl) hP
    rcases hr : d.newBlock .b4K true with ⟨r, d1⟩
    have hev := newBlock_events hr
    rw [hr] at hrun hkeep
    cases r with
    | error e =>
      cases hrun
      exact ⟨[.noMeta], by simp [Dev.noteNoMeta, hev], ⟨by simp, by simp⟩, hkeep,
        fun hcon => absurd hcon (by simp)⟩
    | ok b =>
      have hnew := newBlock_owns hown hr
      obtain ⟨-, htree, hslot0, hslots⟩ := newRoot_slots hnew
      obtain ⟨es, hes, hplain, hP', hraised⟩ :=
        increaseLoop_trace (newRoot_moved hnew).owns hkeep hrun
      have hb : ¬ P b := not_of_new hown hP hr
      refine ⟨es ++ [.store b 0], by simp [hes, Dev.setSlot, hev], ?_, hP', fun ho => ?_⟩
      · refine Plain.append ⟨fun page i hmem => ?_, by simp⟩ hplain
        rw [List.mem_singleton, Event.store.injEq] at hmem
        rwa [hmem.1]
      · have hone : Raised P 1 (tree d h p)
          (tree (d1.setSlot b 0 p) (h + 1) (pmfsGetBlockOff b)) := by
          refine ⟨_, _, tree_kids (blockOff_ne_zero hnew.pos), by rwa [blocknr_off],
            fun i hi => ?_, ?_⟩
          · unfold kidsOf
            split_ifs with hlt
            · rw [hslots i hlt hi, tree_null]
            · rfl
          · rw [Raised, kidsOf_eq 0 (by norm_num), hslot0, htree]
        rw [Nat.add_comm n 1]
        exact hone.trans (hraised ho)

theorem flat_range {height : ℕ} (h1 : pi.height ≤ height) (h2 : last < 512 ^ height)
    (hz : height = 0) : pi.height = 0 ∧ last = 0 := by
  rw [hz, pow_zero] at h2
  omega

/-- The events of `__pmfs_alloc_blocks`: those of raising the tree, and then those of a call on the
raised tree. -/
theorem alloc_trace {fileBlocknr num : ℕ} (hwf : WellFormed R d pi) (hP : Using P d.ba)
    (hrun : __pmfsAllocBlocks d pi fileBlocknr num zero = some (d', pi', o)) :
    ∃ es1 es2, d'.events = es2 ++ es1 ++ d.events ∧ Plain P es1 ∧
      (es2 = [] ∧ (o = none → pi.height = 0 ∧ lastIndex pi fileBlocknr num = 0) ∨
        ∃ n T, pi.height + n = topHeight pi (lastIndex pi fileBlocknr num) ∧ pi.height + n ≤ 3 ∧
          lastIndex pi fileBlocknr num < 512 ^ (pi.height + n) ∧ Raised P n (treeOf d pi) T ∧
          (blocks pi.iBlkType T).Nodup ∧ Uniform 512 (pi.height + n) T ∧
          CallTrace P (pi.height + n) (indexOf pi fileBlocknr) (lastIndex pi fileBlocknr num)
            (decide (pi.root = 0)) T es2 o.isNone) := by
  obtain ⟨height, h1, h2, hmin,
    ⟨h3, heq⟩ | ⟨h3, ⟨hz, hroot, heq⟩ | ⟨hz, hroot, heq⟩ | ⟨hz, heq⟩⟩⟩ :=
    alloc_cases d pi fileBlocknr num zero
  · rw [hrun] at heq
    cases heq
    exact ⟨[], [], rfl, plain_nil, Or.inl ⟨rfl, fun hcon => absurd hcon (by simp)⟩⟩
  · rw [hrun, eq_comm] at heq
    unfold firstBlock pmfsNewDataBlock at heq
    rcases hr : d.newBlock pi.iBlkType zero with ⟨r, d1⟩
    have hev := newBlock_events hr
    rw [hr] at heq
    refine ⟨[], [], ?_, plain_nil, Or.inl ⟨rfl, fun _ => flat_range h1 h2 hz⟩⟩
    cases r with
    | error e =>
      cases heq
      rw [hev]
      rfl
    | ok b =>
      cases heq
      rw [hev]
      rfl
  · rw [hrun] at heq
    cases heq
    exact ⟨[], [], rfl, plain_nil, Or.inl ⟨rfl, fun _ => flat_range h1 h2 hz⟩⟩
  · have h3 := h3 hwf.height
    rw [hrun, eq_comm] at heq
    unfold raiseFill at heq
    rcases hinc : pmfsIncreaseBtreeHeight d pi height with ⟨d1, pi1, o1⟩
    obtain ⟨hadd, hnone⟩ := increase_added (S := fun _ => False) hwf h1 h3 hinc
    have hraise := hinc
    unfold pmfsIncreaseBtreeHeight at hraise
    rcases hloop : increaseLoop (height - pi.height) d pi.height pi.root with ⟨d2, h₂, p2, o2⟩
    obtain ⟨es1, hes1, hplain, hP1, hraised⟩ := increaseLoop_trace hwf.owns hP hloop
    rw [hloop] at hraise
    simp only [Prod.mk.injEq] at hraise
    obtain ⟨rfl, hpi1, rfl⟩ := hraise
    rw [hinc] at heq
    cases o2 with
    | some e =>
      cases heq
      exact ⟨es1, [], hes1, hplain, Or.inl ⟨rfl, fun hcon => absurd hcon (by simp)⟩⟩
    | none =>
      have hheight := hnone rfl
      have hr : pi1.root ≠ 0 := fun hcon => by
        have := hadd.root hcon
        omega
      obtain ⟨k, hk⟩ := Nat.exists_eq_succ_of_ne_zero hz
      have hown : Owns d2 (blocks pi.iBlkType (tree d2 height pi1.root) + R) := by
        have := hadd.wellFormed.owns
        unfold inodeBlocks treeOf at this
        rwa [hheight, hadd.blkType] at this
      have htree : tree d2 h₂ p2 = tree d2 height pi1.root := by
        rw [← hpi1] at hheight ⊢
        dsimp only at hheight ⊢
        rw [hheight]
      rw [hk] at heq hown h2 htree
      obtain ⟨es2, hes2, htrace⟩ :=
        recursiveAlloc_trace P pi.iBlkType zero k hr hadd.blkType h2 hown hP1 heq
      refine ⟨es1, es2, by rw [hes2, hes1, List.append_assoc], hplain, Or.inr
        ⟨height - pi.height, tree d2 h₂ p2, ?_⟩⟩
      rw [Nat.add_sub_cancel' h1]
      refine ⟨?_, h3, by rwa [hk], hraised rfl, ?_⟩
      · rw [hk] at h1 hmin h3 ⊢
        exact (topHeight_eq h1 h2 hmin h3).symm
      · rw [htree, hk]
        exact ⟨(Multiset.nodup_add.mp hown.nodup).1, uniform_tree, htrace⟩

end Pmfs.Tree.Trace
