import Pmfs.Tree.Trace
import Pmfs.Tree.Cut

/-! # What the journal covers of an allocation

A slot of a metadata block that was in use before `__pmfs_alloc_blocks` may be overwritten only
after `pmfs_add_logentry` was called for it. `Covered` says so of a list of events.
`recursive_alloc_blocks` passes `new_node` down to all children that come behind a new one, and does
not log the slots of these children even if they are old: they may not lack a block. `Orderly` says
so of a tree and a range.

* `covered_call`: on an orderly tree, and on a tree of new blocks, what a call stores is covered.
* `exposed_new`, `exposed_old`: on another tree, a call that succeeds stores to an old block and
  logs nothing of it. `exposed_child` lifts this from a child to its parent, whose other children
  are other blocks.
* `covered_iff`: the journal covers the allocation on every device with this tree if and only if the
  tree is orderly in the range. -/

namespace Pmfs.Tree.Coverage

open Lib.Radix Lib.RadixMap Block.Model Block.Spec
open Tree.Model Tree.Own Tree.Inode Tree.Extend Tree.Supply Tree.Trace
open RTree

variable {P : ℕ → Prop} {t : BlkType} {T : RTree} {c : ℕ → RTree} {p f l i j n k page last : ℕ}
  {newNode saved newNode' saved' ok : Bool} {es es0 : List Event}

/-! ### Logged before it is stored -/

/-- Slot `i` of the block `page` is in a range that was logged. -/
def Logged (page i : ℕ) (es : List Event) : Prop :=
  ∃ slot count, .log page slot count ∈ es ∧ slot ≤ i ∧ i < slot + count

/-- Every store to a block of `P` comes after the slot was logged. -/
def Covered (P : ℕ → Prop) : List Event → Prop
  | [] => True
  | .store page i :: es => (P page → Logged page i es) ∧ Covered P es
  | .log _ _ _ :: es => Covered P es
  | .noMeta :: es => Covered P es

theorem Logged.mono (h : Logged page i es0) (hsub : es0 ⊆ es) : Logged page i es := by
  obtain ⟨slot, count, hmem, hrange⟩ := h
  exact ⟨slot, count, hsub hmem, hrange⟩

theorem Covered.append (h : Covered P es0) (h' : Covered P es) : Covered P (es ++ es0) := by
  induction es with
  | nil => exact h
  | cons e es ih =>
    cases e with
    | store page i => exact ⟨fun hp => (h'.1 hp).mono (List.subset_append_left es es0), ih h'.2⟩
    | log page slot count => exact ih h'
    | noMeta => exact ih h'

theorem covered_of_plain (h : ∀ page i, .store page i ∈ es → ¬ P page) : Covered P es := by
  induction es with
  | nil => trivial
  | cons e es ih =>
    have hrest := ih fun page i hmem => h page i (List.mem_cons_of_mem e hmem)
    cases e with
    | store page i => exact ⟨fun hp => absurd hp (h page i List.mem_cons_self), hrest⟩
    | log page slot count => exact hrest
    | noMeta => exact hrest

theorem Covered.logged (h : Covered P es) (hmem : .store page i ∈ es) (hp : P page) :
    Logged page i es := by
  induction es with
  | nil => exact absurd hmem (by simp)
  | cons e es ih =>
    have hsub : es ⊆ e :: es := List.subset_cons_self e es
    cases e with
    | store page' i' =>
      rcases List.mem_cons.mp hmem with heq | hmem
      · rw [Event.store.injEq] at heq
        obtain ⟨rfl, rfl⟩ := heq
        exact (h.1 hp).mono hsub
      · exact (ih h.2 hmem).mono hsub
    | log page' slot count =>
      exact (ih h ((List.mem_cons.mp hmem).resolve_left (by simp))).mono hsub
    | noMeta =>
      exact (ih h ((List.mem_cons.mp hmem).resolve_left (by simp))).mono hsub

/-- The slots of `page` were logged, from one that is at most `j` up to the last one. -/
def Opened (page last j : ℕ) (es : List Event) : Prop :=
  ∃ slot ≤ j, .log page slot (last - slot + 1) ∈ es

theorem Opened.mono (h : Opened page last i es0) (hij : i ≤ j) (hsub : es0 ⊆ es) :
    Opened page last j es := by
  obtain ⟨slot, hle, hmem⟩ := h
  exact ⟨slot, hle.trans hij, hsub hmem⟩

theorem Opened.logged (h : Opened page last i es) (hi : i ≤ last) : Logged page i es := by
  obtain ⟨slot, hle, hmem⟩ := h
  exact ⟨slot, last - slot + 1, hmem, hle, by omega⟩

/-- A store is covered, when a block that counts as new or as logged has its slots logged. -/
theorem store_covered (hi : i ≤ last) (hcov : Covered P es0)
    (hopen : P page → (newNode || saved) = true → Opened page last i es0) :
    Covered P (storeEvents page last i newNode saved ++ es0) ∧
      (P page → Opened page last i (storeEvents page last i newNode saved ++ es0)) := by
  unfold storeEvents
  by_cases hflag : (newNode || saved) = true
  · have hno : ¬ (!newNode && !saved) = true := by
      rw [← Bool.not_or, hflag]
      decide
    rw [if_neg hno]
    exact ⟨⟨fun hp => (hopen hp hflag).logged hi, hcov⟩,
      fun hp => (hopen hp hflag).mono le_rfl (List.subset_cons_self _ _)⟩
  · have hyes : (!newNode && !saved) = true := by
      rw [← Bool.not_or, Bool.eq_false_of_not_eq_true hflag]
      decide
    rw [if_pos hyes]
    have hopened : Opened page last i (.log page i (last - i + 1) :: es0) :=
      ⟨i, le_rfl, List.mem_cons_self⟩
    exact ⟨⟨fun _ => hopened.logged hi, hcov⟩,
      fun _ => hopened.mono le_rfl (List.subset_cons_self _ _)⟩

/-! ### Orderly trees -/

/-- In the range from `f` to `l`, no child behind a missing one lacks a block, at any level above
the lowest one. -/
def Orderly : ℕ → ℕ → ℕ → RTree → Prop
  | k + 2, f, l, node _ c => ∀ i, f / 512 ^ (k + 1) ≤ i → i ≤ l / 512 ^ (k + 1) → c i ≠ empty →
      Orderly (k + 1) (lo 512 (k + 1) f i) (hi 512 (k + 1) l i) (c i) ∧
        ((∃ j, f / 512 ^ (k + 1) ≤ j ∧ j < i ∧ c j = empty) →
          Filled 512 (k + 1) (lo 512 (k + 1) f i) (hi 512 (k + 1) l i) (c i))
  | _, _, _, _ => True

theorem orderly_of_filled : ∀ {k f l : ℕ} {T : RTree}, Filled 512 k f l T → Orderly k f l T
  | 0, _, _, _, _ => trivial
  | 1, _, _, _, _ => trivial
  | _ + 2, _, _, empty, _ => trivial
  | _ + 2, _, _, leaf _, _ => trivial
  | _ + 2, _, _, node _ _, h => fun i h1 h2 _ => ⟨orderly_of_filled (h i h1 h2), fun _ => h i h1 h2⟩

/-- No node is one of `P`. -/
def Foreign (P : ℕ → Prop) (T : RTree) : Prop := ∀ q, HasNode 512 q T → ¬ P (pmfsGetBlocknr q)

theorem Foreign.child (h : Foreign P (node p c)) (hi : i < 512) : Foreign P (c i) :=
  fun q hq => h q (Or.inr ⟨i, hi, hq⟩)

theorem foreign_new {b : ℕ} (hb : ¬ P b) : Foreign P (node (pmfsGetBlockOff b) fun _ => empty) := by
  rintro q (rfl | ⟨i, -, hq⟩)
  · rwa [blocknr_off]
  · exact hq.elim

theorem not_filled_empty : ¬ Filled 512 k f l empty := by
  cases k <;> exact id

theorem filled_silent : ∀ {k f l : ℕ} {newNode ok : Bool} {T : RTree} {es : List Event},
    Filled 512 k f l T → CallTrace P k f l newNode T es ok → es = []
  | 0, _, _, _, _, _, _, _, h => h.elim
  | _ + 1, _, _, _, _, empty, _, hf, _ => hf.elim
  | _ + 1, _, _, _, _, leaf _, _, hf, _ => hf.elim
  | k + 1, f, l, newNode, ok, node p c, es, hf, h => by
    have hrun := h.rule (I := fun _ _ _ es0 => es0 = []) (Q := fun es => es = [])
      (fun _ _ _ _ hI => hI) (fun j nn sv nn' sv' es0 es ok h1 h2 hI hslot => by
        have hfull := hf j h1 (by omega)
        have hc : c j ≠ empty := fun hcon => not_filled_empty (hcon ▸ hfull)
        have hes : es = [] := by
          cases hslot with
          | present hleaf _ => rfl
          | noBlock hcon _ _ => exact absurd hcon hc
          | data _ hcon => exact absurd hcon hc
          | old _ _ es ok hcall => exact filled_silent hfull hcall
          | new _ hcon _ _ _ _ _ => exact absurd hcon hc
        subst hes
        exact ⟨hI, fun _ => hI⟩) (show [] = [] from rfl)
    simpa using hrun.1

theorem filled_succeeds : ∀ {k f l : ℕ} {newNode ok : Bool} {T : RTree} {es : List Event},
    Filled 512 k f l T → CallTrace P k f l newNode T es ok → ok = true
  | 0, _, _, _, _, _, _, _, h => h.elim
  | _ + 1, _, _, _, _, empty, _, hf, _ => hf.elim
  | _ + 1, _, _, _, _, leaf _, _, hf, _ => hf.elim
  | k + 1, f, l, newNode, ok, node p c, es, hf, h => by
    refine LoopTrace.ok_eq_true h ?_
    intro j nn sv es nn' sv' ok h1 h2 hslot
    have hfull := hf j h1 (by omega)
    have hc : c j ≠ empty := fun hcon => not_filled_empty (hcon ▸ hfull)
    rcases hslot with - | ⟨hcon, -, -⟩ | ⟨-, hcon⟩ | ⟨-, -, es, ok, hcall⟩ | ⟨-,
      hcon, -, -, -, -, -⟩
    · rfl
    · exact absurd hcon hc
    · exact absurd hcon hc
    · exact filled_succeeds hfull hcall
    · exact absurd hcon hc

/-! ### What is stored is covered -/

/-- Before slot `j` of a node: what was stored is covered, an old block that counts as new or as
logged has its slots logged, and the children to come are as they have to be. -/
structure CoverInv (P : ℕ → Prop) (k f l : ℕ) (c : ℕ → RTree) (page j : ℕ) (newNode saved : Bool)
    (es : List Event) : Prop where
  covered : Covered P es
  opened : P page → (newNode || saved) = true → Opened page (l / 512 ^ k) j es
  rest : k ≠ 0 → ∀ i, j ≤ i → i ≤ l / 512 ^ k → c i ≠ empty → Foreign P (c i) ∨
    Orderly k (lo 512 k f i) (hi 512 k l i) (c i) ∧
      (newNode = true ∨ (∃ j', j ≤ j' ∧ j' < i ∧ c j' = empty) →
        Filled 512 k (lo 512 k f i) (hi 512 k l i) (c i))

/-- The children behind slot `j`, when `new_node` is set at most by a missing child. -/
theorem CoverInv.tail (h : CoverInv P k f l c page j newNode saved es0)
    (hnew : newNode' = true → newNode = true ∨ c j = empty) (hk : k ≠ 0) (i : ℕ) (hj : j + 1 ≤ i)
    (hle : i ≤ l / 512 ^ k) (hc : c i ≠ empty) : Foreign P (c i) ∨
    Orderly k (lo 512 k f i) (hi 512 k l i) (c i) ∧
      (newNode' = true ∨ (∃ j', j + 1 ≤ j' ∧ j' < i ∧ c j' = empty) →
        Filled 512 k (lo 512 k f i) (hi 512 k l i) (c i)) := by
  refine (h.rest hk i (by omega) hle hc).imp_right fun ⟨hord, hfill⟩ =>
    ⟨hord, fun hcase => hfill ?_⟩
  rcases hcase with hnn | ⟨j', h1, h2, h3⟩
  · exact (hnew hnn).imp_right fun hmiss => ⟨j, le_rfl, by omega, hmiss⟩
  · exact Or.inr ⟨j', by omega, h2, h3⟩

/-- What a call on a child has to store covered. -/
def CoversCall (P : ℕ → Prop) (k f l : ℕ) : Prop :=
  ∀ {newNode ok : Bool} {T : RTree} {es : List Event},
  CallTrace P k f l newNode T es ok → newNode = false ∧ Orderly k f l T ∨ Foreign P T → Covered P es

theorem cover_step (hcall : ∀ i, CoversCall P k (lo 512 k f i) (hi 512 k l i))
    (h : CoverInv P k f l c page j newNode saved es0) (hj : j ≤ l / 512 ^ k)
    (hslot : SlotTrace P (k = 0) (fun i => CallTrace P k (lo 512 k f i) (hi 512 k l i)) page
    (l / 512 ^ k) c j
      newNode saved es newNode' saved' ok) :
    Covered P (es ++ es0) ∧
    (ok = true → CoverInv P k f l c page (j + 1) newNode' saved' (es ++ es0)) := by
  have hstore := store_covered hj h.covered h.opened
  cases hslot with
  | present hleaf hc =>
    refine ⟨h.covered, fun _ => ⟨h.covered, fun hp hflag => ?_, fun hk => absurd hleaf hk⟩⟩
    exact (h.opened hp hflag).mono (Nat.le_succ j) (List.Subset.refl _)
  | noBlock hc es hes =>
    refine ⟨h.covered.append (covered_of_plain fun page i hmem => ?_),
      fun hcon => absurd hcon (by simp)⟩
    rcases hes with rfl | rfl <;> exact absurd hmem (by simp)
  | data hleaf hc =>
    refine ⟨hstore.1, fun _ => ⟨hstore.1, fun hp _ => ?_, fun hk => absurd hleaf hk⟩⟩
    exact (hstore.2 hp).mono (Nat.le_succ j) (List.Subset.refl _)
  | old hleaf hc es ok htrace =>
    have hes : Covered P es := by
      rcases h.rest hleaf j le_rfl hj hc with hforeign | ⟨hord, hfill⟩
      · exact hcall j htrace (Or.inr hforeign)
      · cases newNode with
        | false => exact hcall j htrace (Or.inl ⟨rfl, hord⟩)
        | true =>
          rw [filled_silent (hfill (Or.inl rfl)) htrace]
          trivial
    refine ⟨h.covered.append hes, fun _ => ⟨h.covered.append hes, fun hp hflag => ?_, ?_⟩⟩
    · exact (h.opened hp hflag).mono (Nat.le_succ j) (List.subset_append_right es es0)
    · exact h.tail fun hnn => Or.inl hnn
  | new hleaf hc b hb es ok htrace =>
    have hes := hcall j htrace (Or.inr (foreign_new hb))
    rw [List.append_assoc]
    refine ⟨hstore.1.append hes, fun _ => ⟨hstore.1.append hes, fun hp _ => ?_,
      h.tail fun _ => Or.inr hc⟩⟩
    exact (hstore.2 hp).mono (Nat.le_succ j) (List.subset_append_right es _)

/-- **What is stored is covered**, on an orderly tree and on a tree of new blocks. -/
theorem covered_call : ∀ {k f l : ℕ}, l < 512 ^ k → CoversCall P k f l
  | 0, _, _, _, _, _, _, _, h, _ => h.elim
  | _ + 1, _, _, _, _, _, empty, _, h, _ => h.elim
  | _ + 1, _, _, _, _, _, leaf _, _, h, _ => h.elim
  | k + 1, f, l, hl, newNode, ok, node p c, es, h, hT => by
    have hlast := child_lt hl
    have hstart : CoverInv P k f l c (pmfsGetBlocknr p) (f / 512 ^ k) newNode false [] := by
      refine ⟨trivial, fun hp hflag => ?_, fun hk i h1 h2 hc => ?_⟩
      · rcases hT with ⟨rfl, -⟩ | hforeign
        · exact absurd hflag (by decide)
        · exact absurd hp (hforeign p (Or.inl rfl))
      · rcases hT with ⟨rfl, hord⟩ | hforeign
        · obtain ⟨m, rfl⟩ := Nat.exists_eq_succ_of_ne_zero hk
          obtain ⟨hord, hfill⟩ := hord i h1 h2 hc
          exact Or.inr ⟨hord, fun hcase => hfill (hcase.resolve_left (by decide))⟩
        · exact Or.inl (hforeign.child (by omega))
    have hrun := h.rule (fun _ _ _ _ hI => hI.covered)
      (fun j nn sv nn' sv' es0 es ok h1 h2 hI hslot =>
        cover_step (fun i => covered_call (hi_lt (by norm_num) i)) hI (by omega) hslot) hstart
    simpa using hrun.1

/-! ### What is stored is exposed -/

/-- A store to a block of the tree in `P`, with nothing logged of this block. -/
def Exposed (P : ℕ → Prop) (T : RTree) (es : List Event) : Prop :=
  ∃ q s, HasNode 512 q T ∧ P (pmfsGetBlocknr q) ∧ .store (pmfsGetBlocknr q) s ∈ es ∧
    ∀ s' m, .log (pmfsGetBlocknr q) s' m ∉ es

theorem Exposed.not_covered (h : Exposed P T es) : ¬ Covered P es := by
  intro hcov
  obtain ⟨q, s, -, hq, hstore, hlog⟩ := h
  obtain ⟨s', m, hmem, -⟩ := hcov.logged hstore hq
  exact hlog s' m hmem

/-- `page` is a node of the tree or not in `P`. -/
def Mentions (P : ℕ → Prop) (T : RTree) (page : ℕ) : Prop :=
  (∃ q, HasNode 512 q T ∧ pmfsGetBlocknr q = page) ∨ ¬ P page

theorem Mentions.child (h : Mentions P (c i) page) (hi : i < 512) : Mentions P (node p c) page :=
  h.imp_left fun ⟨q, hq, heq⟩ => ⟨q, Or.inr ⟨i, hi, hq⟩, heq⟩

theorem log_of_store {s m page' : ℕ} (h : .log page' s m ∈ storeEvents page last i newNode saved) :
    page' = page ∧ newNode = false := by
  unfold storeEvents at h
  cases newNode <;> cases saved <;> simp_all

/-- What is logged at a slot is the node itself, while it does not count as new, or belongs to the
child. -/
theorem slot_log {slots : Prop} {call : ℕ → Bool → RTree → List Event → Bool → Prop} {s m page' : ℕ}
    (hslot : SlotTrace P slots call page last c j newNode saved es newNode' saved' ok)
    (hcall : ∀ newNode T es ok, call j newNode T es ok → .log page' s m ∈ es → Mentions P T page')
    (hmem : .log page' s m ∈ es) : page' = page ∧ newNode = false ∨ Mentions P (c j) page' := by
  cases hslot with
  | present _ _ => exact absurd hmem (by simp)
  | noBlock _ es hes => rcases hes with rfl | rfl <;> exact absurd hmem (by simp)
  | data _ _ => exact Or.inl (log_of_store hmem)
  | old _ _ es ok htrace => exact Or.inr (hcall _ _ _ _ htrace hmem)
  | new _ _ b hb es ok htrace =>
    rcases List.mem_append.mp hmem with hmem | hmem
    · refine Or.inr (Or.inr ?_)
      rcases hcall _ _ _ _ htrace hmem with ⟨q, hq, rfl⟩ | hP
      · exact foreign_new hb q hq
      · exact hP
    · exact Or.inl (log_of_store hmem)

theorem call_log {s m page' : ℕ} : ∀ {k f l : ℕ} {newNode ok : Bool} {T : RTree} {es : List Event},
    l < 512 ^ k → CallTrace P k f l newNode T es ok → .log page' s m ∈ es → Mentions P T page'
  | 0, _, _, _, _, _, _, _, h, _ => h.elim
  | _ + 1, _, _, _, _, empty, _, _, h, _ => h.elim
  | _ + 1, _, _, _, _, leaf _, _, _, h, _ => h.elim
  | k + 1, f, l, newNode, ok, node p c, es, hl, h, hmem => by
    have hlast := child_lt hl
    have hrun := h.rule (I := fun _ _ _ es0 => .log page' s m ∈ es0 → Mentions P (node p c) page')
      (Q := fun es0 => .log page' s m ∈ es0 → Mentions P (node p c) page') (fun _ _ _ _ hI => hI)
      (fun j nn sv nn' sv' es0 es ok h1 h2 hI hslot => by
        have hnext : .log page' s m ∈ es ++ es0 → Mentions P (node p c) page' := by
          intro hmem
          rcases List.mem_append.mp hmem with hmem | hmem
          · rcases slot_log hslot (fun _ _ _ _ htrace =>
              call_log (hi_lt (by norm_num) j) htrace) hmem with
              ⟨rfl, -⟩ | hchild
            · exact Or.inl ⟨p, Or.inl rfl, rfl⟩
            · exact hchild.child (by omega)
          · exact hI hmem
        exact ⟨hnext, fun _ => hnext⟩)
      (fun hmem : .log page' s m ∈ ([] : List Event) => absurd hmem (by simp))
    exact hrun.1 (by rwa [List.append_nil])

/-- `new_node` behind a slot: it is set by a missing child. -/
theorem slot_flag {slots : Prop} {call : ℕ → Bool → RTree → List Event → Bool → Prop} (hk : ¬ slots)
    (hslot : SlotTrace P slots call page last c j newNode saved es newNode' saved' true) :
    newNode' = true ↔ newNode = true ∨ c j = empty := by
  cases hslot with
  | present hleaf _ => exact absurd hleaf hk
  | data hleaf _ => exact absurd hleaf hk
  | old _ hc _ _ _ => exact ⟨Or.inl, fun h => h.resolve_right hc⟩
  | new _ hc _ _ _ _ _ => exact ⟨fun _ => Or.inr hc, fun _ => rfl⟩

/-! ### The blocks of a tree are different ones -/

theorem page_mem {q : ℕ} (h : HasNode 512 q T) : pmfsGetBlocknr q ∈ blocks t T := by
  unfold blocks
  exact Multiset.singleton_le.mp (wn_le_pages h)

theorem nodup_kids (h : (blocks t (node p c)).Nodup) (hi : i < 512) :
    (blocks t (c i)).Nodup ∧ pmfsGetBlocknr p ∉ blocks t (c i) ∧
      ∀ j < 512, j ≠ i → Disjoint (blocks t (c j)) (blocks t (c i)) := by
  have hsum : {pmfsGetBlocknr p} + kidBlocks t (Function.update c i (c i)) + 0 =
      blocks t (c i) + others t (pmfsGetBlocknr p) c 0 i := sum_blocks_update hi (c i)
  rw [Function.update_eq_self, add_zero, ← blocks_node] at hsum
  rw [hsum] at h
  obtain ⟨hone, -, hdis⟩ := Multiset.nodup_add.mp h
  refine ⟨hone, fun hcon => ?_, fun j hj hji => (hdis.mono_right (blocks_le_others hj hji)).symm⟩
  exact Multiset.disjoint_left.mp hdis hcon (page_mem_others t _ c 0 i)

/-- A block of child `i` is not mentioned at another slot. -/
theorem not_mentioned {q : ℕ} (h : (blocks t (node p c)).Nodup) (hi : i < 512)
    (hj : j < 512) (hji : j ≠ i) (hq : HasNode 512 q (c i)) (hP : P (pmfsGetBlocknr q)) :
    pmfsGetBlocknr q ≠ pmfsGetBlocknr p ∧
      ¬ Mentions P (c j) (pmfsGetBlocknr q) := by
  obtain ⟨-, hp, hdis⟩ := nodup_kids h hi
  refine ⟨fun hcon => hp (hcon ▸ page_mem hq), ?_⟩
  rintro (⟨q', hq', heq⟩ | hcon)
  · exact Multiset.disjoint_left.mp (hdis j hj hji) (page_mem hq') (heq ▸ page_mem hq)
  · exact hcon hP

/-! ### Exposed blocks -/

/-- Before slot `j`, on the way to slot `i` and behind it. -/
structure ExposeInv (P : ℕ → Prop) (c : ℕ → RTree) (first i : ℕ) (start : Bool) (j : ℕ)
    (newNode : Bool) (es : List Event) : Prop where
  flag : newNode = true ↔ start = true ∨ ∃ j', first ≤ j' ∧ j' < j ∧ c j' = empty
  before : j ≤ i → ∀ q s m, HasNode 512 q (c i) → P (pmfsGetBlocknr q) →
    .log (pmfsGetBlocknr q) s m ∉ es
  after : i < j → Exposed P (c i) es

/-- **What is exposed in a child is exposed in the node.** -/
theorem exposed_child (hdis : (blocks t (node p c)).Nodup) (hk : k ≠ 0) (hl : l < 512 ^ (k + 1))
    (h1 : f / 512 ^ k ≤ i) (h2 : i ≤ l / 512 ^ k) (hc : c i ≠ empty)
    (hat : ∀ newNode' es, (newNode' = true ↔ newNode = true ∨ ∃ j, f / 512 ^ k ≤ j ∧
    j < i ∧ c j = empty) →
      CallTrace P k (lo 512 k f i) (hi 512 k l i) newNode' (c i) es true → Exposed P (c i) es)
    (h : CallTrace P (k + 1) f l newNode (node p c) es true) : Exposed P (node p c) es := by
  have hlast := child_lt hl
  have hstart : ExposeInv P c (f / 512 ^ k) i newNode (f / 512 ^ k) newNode [] := by
    refine ⟨⟨Or.inl, fun hcase => hcase.resolve_right ?_⟩, fun _ _ _ _ _ _ => by simp,
      fun hcon => by omega⟩
    rintro ⟨j', hle, hlt, -⟩
    omega
  have hrun := h.rule (I := fun j nn _ es0 => ExposeInv P c (f / 512 ^ k) i newNode j nn es0)
    (Q := fun _ => True) (fun _ _ _ _ _ =>
    trivial) (fun j nn sv nn' sv' es0 es ok hj1 hj2 hI hslot => by
      refine ⟨trivial, fun hok => ?_⟩
      subst hok
      have hflag : nn' = true ↔ newNode = true ∨ ∃ j', f / 512 ^ k ≤ j' ∧
        j' < j + 1 ∧ c j' = empty := by
        rw [slot_flag hk hslot, hI.flag, or_assoc]
        refine or_congr_right ⟨?_, ?_⟩
        · rintro (⟨j', ha, hb, hmiss⟩ | hmiss)
          · exact ⟨j', ha, by omega, hmiss⟩
          · exact ⟨j, hj1, by omega, hmiss⟩
        · rintro ⟨j', ha, hb, hmiss⟩
          rcases Nat.lt_succ_iff_lt_or_eq.mp hb with hlt | rfl
          · exact Or.inl ⟨j', ha, hlt, hmiss⟩
          · exact Or.inr hmiss
      by_cases hji : j = i
      · subst hji
        refine ⟨hflag, fun hcon => by omega, fun _ => ?_⟩
        cases hslot with
        | present hleaf _ => exact absurd hleaf hk
        | data hleaf _ => exact absurd hleaf hk
        | new _ hcon _ _ _ _ _ => exact absurd hcon hc
        | old _ _ es _ htrace =>
          obtain ⟨q, s, hq, hP, hstore, hlog⟩ := hat nn es hI.flag htrace
          refine ⟨q, s, hq, hP, List.mem_append_left _ hstore, fun s' m hmem => ?_⟩
          exact (List.mem_append.mp hmem).elim (hlog s' m) (hI.before le_rfl q s' m hq hP)
      · have hquiet : ∀ q s m, HasNode 512 q (c i) → P (pmfsGetBlocknr q) →
            .log (pmfsGetBlocknr q) s m ∉ es := by
          intro q s m hq hP hmem
          obtain ⟨hown, hother⟩ := not_mentioned hdis (by omega) (by omega) hji hq hP
          rcases slot_log hslot (fun _ _ _ _ htrace => call_log (hi_lt (by norm_num) j) htrace) hmem
            with
            ⟨heq, -⟩ | hment
          · exact hown heq
          · exact hother hment
        refine ⟨hflag, fun hle q s m hq hP hmem => ?_, fun hlt => ?_⟩
        · exact (List.mem_append.mp hmem).elim (hquiet q s m hq hP)
            (hI.before (by omega) q s m hq hP)
        · obtain ⟨q, s, hq, hP, hstore, hlog⟩ := hI.after (by omega)
          refine ⟨q, s, hq, hP, List.mem_append_right _ hstore, fun s' m hmem => ?_⟩
          exact (List.mem_append.mp hmem).elim (hquiet q s' m hq hP) (hlog s' m)) hstart
  obtain ⟨nn', -, hend⟩ := hrun.2 rfl
  obtain ⟨q, s, hq, hrest⟩ := hend.after (by omega)
  rw [List.append_nil] at hrest
  exact ⟨q, s, Or.inr ⟨i, by omega, hq⟩, hrest⟩

/-- All nodes are in `P`. -/
def Listed (P : ℕ → Prop) (T : RTree) : Prop := ∀ q, HasNode 512 q T → P (pmfsGetBlocknr q)

theorem Listed.child (h : Listed P (node p c)) (hi : i < 512) : Listed P (c i) :=
  fun q hq => h q (Or.inr ⟨i, hi, hq⟩)

/-- An old node that counts as new and lacks a child stores to itself and logs nothing. -/
theorem exposed_self (hP : P (pmfsGetBlocknr p)) (hdis : (blocks t (node p c)).Nodup)
    (hl : l < 512 ^ (k + 1)) (h1 : f / 512 ^ k ≤ i) (h2 : i ≤ l / 512 ^ k) (hc : c i = empty)
    (h : CallTrace P (k + 1) f l true (node p c) es true) : Exposed P (node p c) es := by
  have hlast := child_lt hl
  have hrun := h.rule (I := fun j nn _ es0 => nn = true ∧
    (∀ s m, .log (pmfsGetBlocknr p) s m ∉ es0) ∧
      (i < j → .store (pmfsGetBlocknr p) i ∈ es0)) (Q := fun _ => True)
    (fun _ _ _ _ _ => trivial) (fun j nn sv nn' sv' es0 es ok hj1 hj2 hI hslot => by
      obtain ⟨rfl, hquiet, hstored⟩ := hI
      refine ⟨trivial, fun hok => ?_⟩
      subst hok
      have hlog : ∀ s m, .log (pmfsGetBlocknr p) s m ∉ es := by
        intro s m hmem
        rcases slot_log hslot (fun _ _ _ _ htrace => call_log (hi_lt (by norm_num) j) htrace) hmem
          with
          ⟨-, hcon⟩ | ⟨q, hq, heq⟩ | hcon
        · exact absurd hcon (by decide)
        · exact (nodup_kids hdis (by omega)).2.1 (heq ▸ page_mem hq)
        · exact hcon hP
      have hnew : nn' = true := by
        cases hslot <;> rfl
      refine ⟨hnew, fun s m hmem => (List.mem_append.mp hmem).elim (hlog s m) (hquiet s m),
        fun hlt => ?_⟩
      rcases Nat.lt_succ_iff_lt_or_eq.mp hlt with hlt | rfl
      · exact List.mem_append_right _ (hstored hlt)
      · refine List.mem_append_left _ ?_
        cases hslot with
        | present _ hcon => exact absurd hc hcon
        | data _ _ => exact List.mem_cons_self
        | old _ hcon _ _ _ => exact absurd hc hcon
        | new _ _ _ _ es _ _ => exact List.mem_append_right es List.mem_cons_self)
    (show true = true ∧ (∀ s m, Event.log (pmfsGetBlocknr p) s m ∉ []) ∧
    (i < f / 512 ^ k → _ ∈ []) from
      ⟨rfl, by simp, fun hcon => by omega⟩)
  obtain ⟨nn', -, -, hlog, hstore⟩ := hrun.2 rfl
  rw [List.append_nil] at hlog hstore
  exact ⟨p, i, Or.inl rfl, hP, hstore (by omega), hlog⟩

/-- **An old tree that counts as new** and lacks a block in the range is exposed. -/
theorem exposed_new : ∀ {k f l : ℕ} {T : RTree} {es : List Event}, l < 512 ^ k → Listed P T →
    (blocks t T).Nodup → Uniform 512 k T → ¬ Filled 512 k f l T → CallTrace P k f l true T es true →
    Exposed P T es
  | 0, _, _, _, _, _, _, _, _, _, h => h.elim
  | _ + 1, _, _, empty, _, _, _, _, _, _, h => h.elim
  | _ + 1, _, _, leaf _, _, _, _, _, _, _, h => h.elim
  | k + 1, f, l, node p c, es, hl, hP, hdis, huni, hnot, h => by
    have hlast := child_lt hl
    obtain ⟨i, h1, h2, hi⟩ : ∃ i, f / 512 ^ k ≤ i ∧ i ≤ l / 512 ^ k ∧
        ¬ Filled 512 k (lo 512 k f i) (hi 512 k l i) (c i) := by
      simpa only [Filled, not_forall, exists_prop] using hnot
    by_cases hc : c i = empty
    · exact exposed_self (hP p (Or.inl rfl)) hdis hl h1 h2 hc h
    · have hk : k ≠ 0 := by
        rintro rfl
        have hone := (huni.2 i).1
        rcases hci : c i with _ | a | ⟨a, c'⟩
        · exact hc hci
        · rw [hci] at hi
          exact hi trivial
        · rw [hci] at hone
          exact hone
      refine exposed_child hdis hk hl h1 h2 hc (fun nn es hflag htrace => ?_) h
      obtain rfl : nn = true := hflag.mpr (Or.inl rfl)
      exact exposed_new (hi_lt (by norm_num) i) (hP.child (by omega)) (nodup_kids hdis (by omega)).1
        (huni.2 i).1 hi htrace

/-- All nodes are in `P`, but for the new levels on top. -/
def Known (P : ℕ → Prop) : RTree → Prop
  | node _ c => (∀ i < 512, i ≠ 0 → Listed P (c i)) ∧ Known P (c 0)
  | _ => True

theorem known_of_listed : ∀ {T : RTree}, Listed P T → Known P T
  | empty, _ => trivial
  | leaf _, _ => trivial
  | node _ _, h => ⟨fun _ hi _ => h.child hi, known_of_listed (h.child (by norm_num))⟩

theorem Known.child (h : Known P (node p c)) (hi : i < 512) : Known P (c i) := by
  by_cases h0 : i = 0
  · exact h0 ▸ h.2
  · exact known_of_listed (h.1 i hi h0)

/-- **A tree that is not orderly** is exposed. -/
theorem exposed_old : ∀ {k f l : ℕ} {T : RTree} {es : List Event}, l < 512 ^ k → Known P T →
    (blocks t T).Nodup → Uniform 512 k T → ¬ Orderly k f l T → CallTrace P k f l false T es true →
    Exposed P T es
  | 0, _, _, _, _, _, _, _, _, hnot, _ => absurd trivial hnot
  | 1, _, _, _, _, _, _, _, _, hnot, _ => absurd trivial hnot
  | _ + 2, _, _, empty, _, _, _, _, _, hnot, _ => absurd trivial hnot
  | _ + 2, _, _, leaf _, _, _, _, _, _, hnot, _ => absurd trivial hnot
  | k + 2, f, l, node p c, es, hl, hP, hdis, huni, hnot, h => by
    have hlast := child_lt hl
    obtain ⟨i, h1, h2, hc, hbad⟩ : ∃ i, f / 512 ^ (k + 1) ≤ i ∧
      i ≤ l / 512 ^ (k + 1) ∧ c i ≠ empty ∧
        ¬ (Orderly (k + 1) (lo 512 (k + 1) f i) (hi 512 (k + 1) l i) (c i) ∧
          ((∃ j, f / 512 ^ (k + 1) ≤ j ∧ j < i ∧ c j = empty) →
            Filled 512 (k + 1) (lo 512 (k + 1) f i) (hi 512 (k + 1) l i) (c i))) := by
      simpa only [Orderly, not_forall, exists_prop] using hnot
    have hdis' := (nodup_kids hdis (show i < 512 by omega)).1
    refine exposed_child hdis (Nat.succ_ne_zero k) hl h1 h2 hc (fun nn es hflag htrace => ?_) h
    by_cases hmiss : ∃ j, f / 512 ^ (k + 1) ≤ j ∧ j < i ∧ c j = empty
    · -- the child is behind a missing one and counts as new
      obtain rfl : nn = true := hflag.mpr (Or.inr hmiss)
      have hfill : ¬ Filled 512 (k + 1) (lo 512 (k + 1) f i) (hi 512 (k + 1) l i) (c i) :=
        fun hfill => hbad ⟨orderly_of_filled hfill, fun _ => hfill⟩
      obtain ⟨j, -, hj, -⟩ := hmiss
      exact exposed_new (hi_lt (by norm_num) i) (hP.1 i (by omega) (by omega)) hdis'
        (huni.2 i).1 hfill htrace
    · obtain rfl : nn = false := by
        rw [← Bool.not_eq_true, hflag]
        exact not_or.mpr ⟨by decide, hmiss⟩
      have hord := fun hord => hbad ⟨hord, fun hcon => absurd hcon hmiss⟩
      exact exposed_old (hi_lt (by norm_num) i) (hP.child (by omega)) hdis' (huni.2 i).1 hord htrace

/-! ### Raised trees -/

/-- In a raised tree the only child is the first one, with the part of the range that is in it. -/
theorem orderly_single (hc : ∀ i, i ≠ 0 → c i = empty) : Orderly (k + 1) f l (node p c) ↔
    (f < 512 ^ k → Orderly k f (min l (512 ^ k - 1)) (c 0)) := by
  cases k with
  | zero => exact iff_of_true trivial fun _ => trivial
  | succ k =>
    have hpos : 0 < 512 ^ (k + 1) := Nat.pow_pos (by norm_num)
    have hfirst : f < 512 ^ (k + 1) ↔ f / 512 ^ (k + 1) ≤ 0 := by
      rw [Nat.le_zero, Nat.div_eq_zero_iff_lt hpos]
    have hlo : f / 512 ^ (k + 1) ≤ 0 → lo 512 (k + 1) f 0 = f := fun h => by
      rw [lo_eq_sub (by norm_num) h, Nat.zero_mul, Nat.sub_zero]
    have hhi : hi 512 (k + 1) l 0 = min l (512 ^ (k + 1) - 1) := by
      rw [hi_eq_min (by norm_num) (Nat.zero_le _), Nat.zero_mul, Nat.sub_zero]
    constructor
    · intro h hf
      by_cases h0 : c 0 = empty
      · rw [h0]
        cases k <;> trivial
      · have hchild := (h 0 (hfirst.mp hf) (Nat.zero_le _) h0).1
        rwa [hlo (hfirst.mp hf), hhi] at hchild
    · intro h i h1 h2 hi
      obtain rfl : i = 0 := not_imp_comm.mp (hc i) hi
      refine ⟨?_, fun ⟨j, _, hj, _⟩ => absurd hj (Nat.not_lt_zero j)⟩
      rw [hlo h1, hhi]
      exact h (hfirst.mpr h1)

/-- A range that begins behind the tree and ends in it. -/
theorem orderly_behind : ∀ {k f l : ℕ} {T : RTree}, l < 512 ^ k → 512 ^ k ≤ f → Orderly k f l T
  | 0, _, _, _, _, _ => trivial
  | 1, _, _, _, _, _ => trivial
  | _ + 2, _, _, empty, _, _ => trivial
  | _ + 2, _, _, leaf _, _, _ => trivial
  | k + 2, f, l, node p c, hl, hf => fun i h1 h2 _ => by
    have hlast := child_lt hl
    have hfirst : 512 ≤ f / 512 ^ (k + 1) := by
      rw [Nat.le_div_iff_mul_le (Nat.pow_pos (by norm_num)), ← pow_succ']
      exact hf
    omega

theorem orderly_raised : ∀ {n k f l : ℕ} {T T' : RTree}, Raised P n T T' → l < 512 ^ (k + n) →
    (Orderly (k + n) f l T' ↔ (f < 512 ^ k → Orderly k f (min l (512 ^ k - 1)) T))
  | 0, k, f, l, T, T', h, hl => by
    rw [Nat.add_zero] at hl ⊢
    rw [show T' = T from h, Nat.min_eq_left (Nat.le_sub_one_of_lt hl)]
    exact ⟨fun h _ => h, fun h => (lt_or_ge f (512 ^ k)).elim h (orderly_behind hl)⟩
  | n + 1, k, f, l, T, T', h, hl => by
    obtain ⟨q, c, rfl, -, hc, hrest⟩ := h
    have hpow : 512 ^ k ≤ 512 ^ (k + n) := Nat.pow_le_pow_right (by norm_num) (Nat.le_add_right k n)
    have hpos : 0 < 512 ^ (k + n) := Nat.pow_pos (by norm_num)
    have hmin : min (min l (512 ^ (k + n) - 1)) (512 ^ k - 1) = min l (512 ^ k - 1) := by omega
    rw [← Nat.add_assoc, orderly_single hc, orderly_raised hrest (by omega), hmin]
    exact ⟨fun h hlt => h (hlt.trans_le hpow) hlt, fun h _ => h⟩

theorem foreign_raised : ∀ {n : ℕ} {T : RTree}, Raised P n empty T → Foreign P T
  | 0, _, h => by
    rw [show _ = empty from h]
    exact fun q hq => hq.elim
  | n + 1, _, ⟨q, c, rfl, hq, hc, hrest⟩ => by
    rintro q' (rfl | ⟨i, -, hq'⟩)
    · exact hq
    · by_cases h0 : i = 0
      · subst h0
        exact foreign_raised hrest q' hq'
      · rw [hc i h0] at hq'
        exact hq'.elim

theorem known_raised : ∀ {n : ℕ} {T T' : RTree}, Raised P n T T' → Listed P T → Known P T'
  | 0, _, _, h, hT => by
    rw [show _ = _ from h]
    exact known_of_listed hT
  | n + 1, _, _, ⟨q, c, rfl, _, hc, hrest⟩, hT => by
    refine ⟨fun i _ h0 => ?_, known_raised hrest hT⟩
    rw [hc i h0]
    exact fun q hq => hq.elim

/-! ### The allocation -/

section Alloc

variable {R : Multiset ℕ} {d d' : Dev} {pi pi' : PmfsInode} {o : Option Errno}
  {fileBlocknr num : ℕ} {zero : Bool}

/-- `__pmfs_alloc_blocks` returns, and overwrites slots of blocks that were in use only after it has
logged them. -/
def JournalCovers (d : Dev) (pi : PmfsInode) (fileBlocknr num : ℕ) (zero : Bool) : Prop :=
  ∃ d' pi' o es, __pmfsAllocBlocks d pi fileBlocknr num zero = some (d', pi', o) ∧
    d'.events = es ++ d.events ∧ Covered (· ∈ inUse d.ba) es

/-- The part of the range in the tree before the call is orderly. -/
def OrderlyRange (d : Dev) (pi : PmfsInode) (fileBlocknr num : ℕ) : Prop :=
  indexOf pi fileBlocknr < 512 ^ pi.height → Orderly pi.height (indexOf pi fileBlocknr)
    (min (lastIndex pi fileBlocknr num) (512 ^ pi.height - 1)) (treeOf d pi)

theorem using_inUse (hwf : WellFormed R d pi) : Using (· ∈ inUse d.ba) d.ba :=
  ⟨hwf.owns.wf, fun _ hx => hx⟩

theorem listed_treeOf (hwf : WellFormed R d pi) : Listed (· ∈ inUse d.ba) (treeOf d pi) :=
  fun _ hq => (hwf.owns.mem _).mp (Multiset.mem_add.mpr (Or.inl (page_mem hq)))

/-- An allocation where every index of the range has its block succeeds on every device. -/
theorem alloc_filled {o : Option Errno} (hwf : WellFormed R d pi)
    (hle : indexOf pi fileBlocknr ≤ lastIndex pi fileBlocknr num)
    (hall : ∀ n, indexOf pi fileBlocknr ≤ n → n ≤ lastIndex pi fileBlocknr num → mapped d pi n ≠ 0)
    (hrun : __pmfsAllocBlocks d pi fileBlocknr num zero = some (d', pi', o)) : o = none := by
  have hlast := lt_of_lookup_ne (hall _ hle le_rfl)
  have hroot := root_of_mapped (hall _ hle le_rfl)
  obtain ⟨height, h1, h2, hmin, ⟨h3, -⟩ | ⟨h3, ⟨-, hcon, -⟩ | ⟨-, -, heq⟩ | ⟨hz, heq⟩⟩⟩ :=
    alloc_cases d pi fileBlocknr num zero
  · have := hmin _ le_rfl hlast
    have := hwf.height
    omega
  · exact absurd hcon hroot
  · rw [hrun, Option.some.injEq, Prod.mk.injEq, Prod.mk.injEq] at heq
    exact heq.2.2
  · obtain rfl : height = pi.height := le_antisymm (hmin _ le_rfl hlast) h1
    obtain ⟨k, hk⟩ := Nat.exists_eq_succ_of_ne_zero hz
    have hfilled : Filled 512 (k + 1) (indexOf pi fileBlocknr) (lastIndex pi fileBlocknr num)
        (tree d (k + 1) pi.root) := by
      rw [hk] at hlast
      refine filled_of_find (by norm_num) uniform_tree hle hlast ?_
      intro n hn1 hn2
      have hn := hall n hn1 hn2
      unfold mapped treeOf at hn
      rwa [hk, lookup_of_lt (hn2.trans_lt hlast)] at hn
    have hown := hwf.owns
    unfold inodeBlocks treeOf at hown
    have hraise : pmfsIncreaseBtreeHeight d pi pi.height = (d, pi, none) := by
      unfold pmfsIncreaseBtreeHeight
      rw [Nat.sub_self]
      rfl
    rw [hrun, raiseFill, hraise, eq_comm] at heq
    rw [hk] at heq hown h2
    obtain ⟨es, -, htrace⟩ :=
      recursiveAlloc_trace (· ∈ inUse d.ba) pi.iBlkType zero k hroot rfl h2 hown
        (using_inUse hwf) heq
    exact Option.isNone_iff_eq_none.mp (filled_succeeds hfilled htrace)

theorem orderlyRange_low (h : pi.height ≤ 1) : OrderlyRange d pi fileBlocknr num := by
  intro _
  obtain hz | hone : pi.height = 0 ∨ pi.height = 1 := by omega
  · rw [hz]
    trivial
  · rw [hone]
    trivial

theorem covers_of_orderly (hwf : WellFormed R d pi)
    (h : 512 ^ 3 ≤ lastIndex pi fileBlocknr num ∨ OrderlyRange d pi fileBlocknr num) :
    JournalCovers d pi fileBlocknr num zero := by
  obtain ⟨d', pi', o, hrun, -⟩ := alloc_added fileBlocknr num zero hwf
  obtain ⟨es1, es2, hes, hplain, hcase⟩ := alloc_trace hwf (using_inUse hwf) hrun
  refine ⟨d', pi', o, es2 ++ es1, hrun, hes, (covered_of_plain hplain.store).append ?_⟩
  rcases hcase with ⟨rfl, -⟩ | ⟨n, T, -, hheight, hl, hraised, -, -, hcall⟩
  · trivial
  refine covered_call hl hcall ?_
  by_cases hroot : pi.root = 0
  · -- a file without blocks gets a tree of new blocks only
    refine Or.inr (foreign_raised (n := n) ?_)
    rwa [treeOf, hroot, tree_null] at hraised
  · have hlast : lastIndex pi fileBlocknr num < 512 ^ 3 :=
      hl.trans_le (Nat.pow_le_pow_right (by norm_num) hheight)
    refine Or.inl ⟨decide_eq_false hroot, (orderly_raised hraised hl).mpr (h.resolve_left ?_)⟩
    exact not_le.mpr hlast

theorem exposed_of_disorderly (hwf : WellFormed R d pi) (h : ¬ OrderlyRange d pi fileBlocknr num)
    (hrun : __pmfsAllocBlocks d pi fileBlocknr num zero = some (d', pi', none)) :
    ¬ JournalCovers d pi fileBlocknr num zero := by
  rintro ⟨d1, pi1, o1, es, hrun1, hes1, hcov⟩
  rw [hrun] at hrun1
  cases hrun1
  obtain ⟨es1, es2, hes, hplain, hcase⟩ := alloc_trace hwf (using_inUse hwf) hrun
  have hroot : pi.root ≠ 0 := fun hcon => h (orderlyRange_low (by rw [hwf.root hcon]; omega))
  rcases hcase with ⟨-, hflat⟩ | ⟨n, T, -, -, hl, hraised, hdis, huni, hcall⟩
  · exact h (orderlyRange_low (by rw [(hflat rfl).1]; omega))
  rw [decide_eq_false hroot] at hcall
  obtain ⟨q, s, hq, hP, hstore, hlog⟩ :=
    exposed_old hl (known_raised hraised (listed_treeOf hwf)) hdis huni (fun hcon =>
      h ((orderly_raised hraised hl).mp hcon)) hcall
  rw [hes1, List.append_left_inj] at hes
  refine Exposed.not_covered ⟨q, s, hq, hP, List.mem_append_left es1 hstore,
    fun s' m hmem => ?_⟩ (hes ▸ hcov)
  exact (List.mem_append.mp hmem).elim (hlog s' m) (hplain.log _ s' m)

/-- **Main result.** The journal covers an allocation on every device with this tree if and only if
the range is too high for any tree, or no old child in the range lacks a block behind a missing
sibling. -/
theorem covered_iff (hwf : WellFormed R d pi) :
    (∀ R1 d1, WellFormed R1 d1 pi → treeOf d1 pi = treeOf d pi →
    JournalCovers d1 pi fileBlocknr num zero) ↔
      512 ^ 3 ≤ lastIndex pi fileBlocknr num ∨ OrderlyRange d pi fileBlocknr num := by
  constructor
  · intro hall
    by_contra hnot
    obtain ⟨hlast, hord⟩ := not_or.mp hnot
    obtain ⟨R', j, d', pi', hwf', hrun⟩ := alloc_succeeds fileBlocknr num zero hwf (not_le.mp hlast)
    exact exposed_of_disorderly hwf' hord hrun (hall R' (spare d j) hwf' rfl)
  · intro h R1 d1 hwf1 htree
    refine covers_of_orderly hwf1 (h.imp_right fun hord => ?_)
    unfold OrderlyRange at hord ⊢
    rwa [htree]

/-- A file of three blocks gets the blocks 5 and 6: slots of its root, which is old, are
overwritten. -/
theorem covered_iff_tree : ∃ R d pi, WellFormed R d pi ∧ (∃ r ∈ __pmfsAllocBlocks d pi 5 2 false,
      pmfsGetBlocknr pi.root ∈ inUse d.ba ∧ .store (pmfsGetBlocknr pi.root) 5 ∈ r.1.events ∧
      .store (pmfsGetBlocknr pi.root) 5 ∉ d.events) ∧
    ∀ R1 d1, WellFormed R1 d1 pi → treeOf d1 pi = treeOf d pi → JournalCovers d1 pi 5 2 false := by
  obtain ⟨R, hwf⟩ := wellFormed_zeroInode
  obtain ⟨d, pi, o, hrun, hadd, -⟩ := alloc_added 0 3 false hwf
  obtain ⟨r, hr, hheight, ⟨x, hx, hlow, hhigh⟩, hstore⟩ :
      ∃ r ∈ __pmfsAllocBlocks freshDev zeroInode 0 3 false, r.2.1.height = 1 ∧
        (∃ x ∈ r.1.ba.blockInuseHead, x.low ≤ pmfsGetBlocknr r.2.1.root ∧
        pmfsGetBlocknr r.2.1.root ≤ x.high) ∧ ∃ r' ∈ __pmfsAllocBlocks r.1 r.2.1 5 2 false,
          .store (pmfsGetBlocknr r.2.1.root) 5 ∈ r'.1.events ∧
          .store (pmfsGetBlocknr r.2.1.root) 5 ∉ r.1.events := by
    decide +kernel
  rw [hrun, Option.mem_some_iff] at hr
  subst hr
  obtain ⟨r', hr', hnew, hold⟩ := hstore
  exact ⟨R, d, pi, hadd.wellFormed, ⟨r', hr', ⟨x, hx, hlow, hhigh⟩, hnew, hold⟩,
    (covered_iff hadd.wellFormed).mpr (Or.inr (orderlyRange_low hheight.le))⟩

/-- A file with the block 1026 gets the blocks 1023 and 1024: the node of the first one is missing,
and the store to the node of the second one, which is old, is not logged. -/
theorem uncovered_store : ∃ R d pi, WellFormed R d pi ∧ ¬ JournalCovers d pi 1023 2 false := by
  obtain ⟨R, hwf⟩ := wellFormed_zeroInode
  obtain ⟨d, pi, o, hrun, hadd, -⟩ := alloc_added 1026 1 false hwf
  obtain ⟨r, hr, ⟨x, hx, hlow, hhigh⟩, ⟨d', pi', o'⟩, hrun', hevents⟩ :
      ∃ r ∈ __pmfsAllocBlocks freshDev zeroInode 1026 1 false,
        (∃ x ∈ r.1.ba.blockInuseHead, x.low ≤ 19 ∧ 19 ≤ x.high) ∧
        ∃ r' ∈ __pmfsAllocBlocks r.1 r.2.1 1023 2 false, r'.1.events =
          [.store 19 0, .store 21 511, .store 18 1, .log 18 1 2] ++ r.1.events := by
    decide +kernel
  rw [hrun, Option.mem_some_iff] at hr
  subst hr
  refine ⟨R, d, pi, hadd.wellFormed, ?_⟩
  rintro ⟨d1, pi1, o1, es, hrun1, hes, hcov⟩
  rw [Option.mem_def.mp hrun'] at hrun1
  cases hrun1
  rw [hevents, List.append_left_inj] at hes
  have hlogged : Logged 19 0 es := hcov.logged (by simp [← hes]) ⟨x, hx, hlow, hhigh⟩
  obtain ⟨slot, count, hmem, -⟩ := hlogged
  simp [← hes] at hmem

end Alloc

end Pmfs.Tree.Coverage
