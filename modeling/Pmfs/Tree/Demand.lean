import Pmfs.Tree.Trace
import Pmfs.Lib.First

/-! # How many log entries an allocation asks for

`pmfs_add_logentry` cuts what it logs into entries of 48 bytes. `demand` adds up the entries that
the events of an allocation ask for. On a tree it is known beforehand: a node whose first missing
child in the range is child `i` is logged from there to the end of its part of the range, the
children before `i` are visited with `new_node` unset, and nothing is logged behind it, since
`new_node` is set from there on. `need` is this sum.

* `demand_new`: a call with `new_node` set asks for nothing.
* `demand_old`: another one asks for what `need` says when it succeeds, and for no more otherwise.
* `alloc_demand`: the same of `__pmfs_alloc_blocks`, on the tree that it raises first. -/

namespace Pmfs.Tree.Demand

open Lib.First Lib.Radix Block.Model
open Tree.Model Tree.Own Tree.Inode Tree.Extend Tree.Supply Tree.Trace
open RTree

/-- `num_les` of `pmfs_add_logentry` for `size` bytes. -/
def numLes (size : ℕ) : ℕ := (size + 48 - 1) / 48

/-- The log entries that some events ask for; a slot has eight bytes. -/
def demand : List Event → ℕ
  | [] => 0
  | .log _ _ count :: es => numLes (count <<< 3) + demand es
  | .store _ _ :: es => demand es
  | .noMeta :: es => demand es

/-- From `d` to `d'`, `n` log entries are asked for. -/
def Logs (d d' : Dev) (n : ℕ) : Prop := ∃ es, d'.events = es ++ d.events ∧ demand es = n

/-- The first missing child in the range from `f` to `l`, children having height `k`. -/
noncomputable def miss (c : ℕ → RTree) (k f l : ℕ) : ℕ :=
  first (fun i => c i = empty) (f / 512 ^ k) (l / 512 ^ k + 1)

/-- What a node itself asks for: its slots from the first missing child on. -/
noncomputable def own (c : ℕ → RTree) (k f l : ℕ) : ℕ :=
  if miss c k f l ≤ l / 512 ^ k then numLes ((l / 512 ^ k - miss c k f l + 1) <<< 3) else 0

/-- What a call on a tree of height `k` asks for, for the range from `f` to `l`, when `new_node` is
unset: the node and the children before the first missing one. -/
noncomputable def need : ℕ → ℕ → ℕ → RTree → ℕ
  | k + 1, f, l, node _ c => own c k f l +
      ∑ i ∈ Finset.Ico (f / 512 ^ k) (miss c k f l), need k (lo 512 k f i) (hi 512 k l i) (c i)
  | _, _, _, _ => 0

variable {P : ℕ → Prop} {T : RTree} {c c' : ℕ → RTree} {p p' f l i j n k page last : ℕ}
  {newNode saved newNode' saved' ok : Bool} {es es0 : List Event}

/-! ### Adding up -/

theorem demand_append : demand (es ++ es0) = demand es + demand es0 := by
  induction es with
  | nil => exact (Nat.zero_add _).symm
  | cons e es ih =>
    cases e with
    | log page slot count =>
      change numLes (count <<< 3) + demand (es ++ es0) = numLes (count <<< 3) +
        demand es + demand es0
      rw [ih, Nat.add_assoc]
    | store page slot => exact ih
    | noMeta => exact ih

theorem logs_zero (d : Dev) : Logs d d 0 := ⟨[], rfl, rfl⟩

theorem Logs.trans {d d' d'' : Dev} {m : ℕ} (h : Logs d d' n) (h' : Logs d' d'' m) :
    Logs d d'' (n + m) := by
  obtain ⟨es, hes, rfl⟩ := h
  obtain ⟨es', hes', rfl⟩ := h'
  refine ⟨es' ++ es, ?_, ?_⟩
  · rw [hes', hes, List.append_assoc]
  · rw [demand_append, Nat.add_comm]

theorem Logs.unique {d d' : Dev} {m : ℕ} (h : Logs d d' n) (h' : Logs d d' m) : n = m := by
  obtain ⟨es, hes, rfl⟩ := h
  obtain ⟨es', hes', rfl⟩ := h'
  rw [hes] at hes'
  rw [List.append_cancel_right hes']

theorem demand_store : demand (storeEvents page last i newNode saved) =
    if (!newNode && !saved) = true then numLes ((last - i + 1) <<< 3) else 0 := by
  unfold storeEvents
  split_ifs <;> rfl

theorem demand_noBlock (h : es = [] ∨ es = [.noMeta]) : demand es = 0 := by
  rcases h with rfl | rfl <;> rfl

theorem demand_plain (h : ∀ page i n, .log page i n ∉ es) : demand es = 0 := by
  induction es with
  | nil => rfl
  | cons e es ih =>
    have hrest := ih fun page i n hmem => h page i n (List.mem_cons_of_mem e hmem)
    cases e with
    | log page slot count => exact absurd List.mem_cons_self (h page slot count)
    | store page slot => exact hrest
    | noMeta => exact hrest

@[simp] theorem need_zero : need 0 f l T = 0 := by
  cases T <;> rfl

/-! ### Nothing is logged of new nodes -/

theorem demand_new : ∀ {k f l : ℕ} {ok : Bool} {T : RTree} {es : List Event},
    CallTrace P k f l true T es ok → demand es = 0
  | 0, _, _, _, _, _, h => h.elim
  | _ + 1, _, _, _, empty, _, h => h.elim
  | _ + 1, _, _, _, leaf _, _, h => h.elim
  | k + 1, f, l, ok, node p c, es, h => by
    have hrun := h.rule (I := fun _ nn _ es0 => nn = true ∧ demand es0 = 0)
      (Q := fun es => demand es = 0) (fun _ _ _ _ hI => hI.2)
      (fun j nn sv nn' sv' es0 es ok h1 h2 hI hslot => by
        obtain ⟨rfl, hzero⟩ := hI
        have hes : nn' = true ∧ demand es = 0 := by
          cases hslot with
          | present _ _ => exact ⟨rfl, rfl⟩
          | noBlock _ es hes => exact ⟨rfl, demand_noBlock hes⟩
          | data _ _ => exact ⟨rfl, demand_store⟩
          | old _ _ es ok hcall => exact ⟨rfl, demand_new hcall⟩
          | new _ _ b _ es ok hcall =>
              exact ⟨rfl, by rw [demand_append, demand_new hcall, demand_store]; rfl⟩
        rw [demand_append, hes.2, hzero]
        exact ⟨rfl, fun _ => ⟨hes.1, rfl⟩⟩) (show true = true ∧ demand [] = 0 from ⟨rfl, rfl⟩)
    rw [List.append_nil] at hrun
    exact hrun.1

/-! ### What is logged of old nodes -/

/-- What the children before child `j` ask for. -/
noncomputable def below (c : ℕ → RTree) (k f l j : ℕ) : ℕ :=
  ∑ i ∈ Finset.Ico (f / 512 ^ k) j, need k (lo 512 k f i) (hi 512 k l i) (c i)

theorem need_node : need (k + 1) f l (node p c) = own c k f l + below c k f l (miss c k f l) := rfl

theorem below_succ (hj : f / 512 ^ k ≤ j) : below c k f l (j + 1) =
    below c k f l j + need k (lo 512 k f j) (hi 512 k l j) (c j) :=
  Finset.sum_Ico_succ_top hj _

theorem below_mono (hij : i ≤ j) : below c k f l i ≤ below c k f l j :=
  Finset.sum_le_sum_of_subset (Finset.Ico_subset_Ico_right hij)

theorem below_start : below c k f l (f / 512 ^ k) = 0 := by
  unfold below
  rw [Finset.Ico_self, Finset.sum_empty]

/-- The demand before slot `j`: up to the first missing child that of the children, behind it all of
it. -/
def DemandInv (c : ℕ → RTree) (k f l j : ℕ) (newNode saved : Bool) (es : List Event) : Prop :=
  (j ≤ miss c k f l ∧ newNode = false ∧ saved = false ∧ demand es = below c k f l j) ∨
    (miss c k f l < j ∧ (newNode = true ∨ k = 0 ∧ saved = true) ∧
      demand es = own c k f l + below c k f l (miss c k f l))

theorem DemandInv.le (h : DemandInv c k f l j newNode saved es) :
    demand es ≤ own c k f l + below c k f l (miss c k f l) := by
  rcases h with ⟨hj, -, -, heq⟩ | ⟨-, -, heq⟩
  · rw [heq]
    exact (below_mono hj).trans (Nat.le_add_left _ _)
  · exact heq.le

/-- What the calls on the children ask for. -/
def DemandCall (P : ℕ → Prop) (k f l : ℕ) : Prop := ∀ {ok : Bool} {T : RTree} {es : List Event},
  CallTrace P k f l false T es ok →
    demand es ≤ need k f l T ∧ (ok = true → demand es = need k f l T)

theorem demand_step (hcall : ∀ i, DemandCall P k (lo 512 k f i) (hi 512 k l i))
    (hf : f / 512 ^ k ≤ j) (hj : j ≤ l / 512 ^ k) (h : DemandInv c k f l j newNode saved es0)
    (hslot : SlotTrace P (k = 0) (fun i => CallTrace P k (lo 512 k f i) (hi 512 k l i)) page
    (l / 512 ^ k) c j
      newNode saved es newNode' saved' ok) :
    demand (es ++ es0) ≤ own c k f l + below c k f l (miss c k f l) ∧
      (ok = true → DemandInv c k f l (j + 1) newNode' saved' (es ++ es0)) := by
  have hle := h.le
  rw [demand_append]
  rcases h with ⟨hjm, rfl, rfl, heq⟩ | ⟨hmj, hflag, heq⟩
  · have hfirst : f / 512 ^ k ≤ l / 512 ^ k + 1 := by omega
    have hmissing : c j = empty → miss c k f l = j := by
      intro hc
      refine le_antisymm ?_ hjm
      by_contra hcon
      exact not_of_lt_first hf (not_le.mp hcon) hc
    have hpresent : c j ≠ empty → j + 1 ≤ miss c k f l := by
      intro hc
      refine Nat.lt_of_le_of_ne hjm fun hcon => hc ?_
      have hholds := first_holds hfirst
        (show miss c k f l < l / 512 ^ k + 1 by omega)
      rw [hcon]
      exact hholds
    have hown : c j = empty →
      demand (storeEvents page (l / 512 ^ k) j false false) = own c k f l := by
      intro hc
      rw [demand_store, own, hmissing hc, if_pos hj]
      rfl
    have hend : c j = empty → below c k f l j = below c k f l (miss c k f l) := by
      intro hc
      rw [hmissing hc]
    cases hslot with
    | present hleaf hc =>
      refine ⟨by rwa [demand, Nat.zero_add], fun _ => Or.inl ⟨hpresent hc, rfl, rfl, ?_⟩⟩
      rw [List.nil_append, below_succ hf, heq, hleaf, need_zero, Nat.add_zero]
    | noBlock hc es hes =>
      rw [demand_noBlock hes, Nat.zero_add]
      exact ⟨hle, fun hcon => absurd hcon (by simp)⟩
    | data hleaf hc =>
      have hsum : demand (storeEvents page (l / 512 ^ k) j false false ++ es0) =
          own c k f l + below c k f l (miss c k f l) := by
        rw [demand_append, hown hc, heq, hend hc]
      rw [← demand_append, hsum]
      refine ⟨le_rfl, fun _ => Or.inr ⟨?_, Or.inr ⟨hleaf, rfl⟩, hsum⟩⟩
      rw [hmissing hc]
      exact Nat.lt_succ_self j
    | old hleaf hc es ok htrace =>
      obtain ⟨hbound, hexact⟩ := hcall j htrace
      have hnext : below c k f l (j + 1) ≤ own c k f l + below c k f l (miss c k f l) :=
        (below_mono (hpresent hc)).trans (Nat.le_add_left _ _)
      rw [below_succ hf] at hnext
      refine ⟨by omega, fun hok => Or.inl ⟨hpresent hc, rfl, rfl, ?_⟩⟩
      rw [demand_append, hexact hok, heq, below_succ hf, Nat.add_comm]
    | new hleaf hc b hb es ok htrace =>
      have hsum : demand (es ++ storeEvents page (l / 512 ^ k) j false false ++ es0) =
          own c k f l + below c k f l (miss c k f l) := by
        rw [demand_append, demand_append, demand_new htrace, hown hc, heq, hend hc, Nat.zero_add]
      rw [← demand_append, hsum]
      refine ⟨le_rfl, fun _ => Or.inr ⟨?_, Or.inl rfl, hsum⟩⟩
      rw [hmissing hc]
      exact Nat.lt_succ_self j
  · -- behind the first missing child nothing more is logged
    have hes : demand es = 0 ∧ (ok = true → newNode' = true ∨ k = 0 ∧ saved' = true) := by
      cases hslot with
      | present _ _ => exact ⟨rfl, fun _ => hflag⟩
      | noBlock _ es hes => exact ⟨demand_noBlock hes, fun hcon => absurd hcon (by simp)⟩
      | data hleaf _ =>
        rcases hflag with rfl | ⟨hk, rfl⟩
        · exact ⟨demand_store, fun _ => Or.inl rfl⟩
        · refine ⟨?_, fun _ => Or.inr ⟨hk, rfl⟩⟩
          rw [demand_store, if_neg (by simp)]
      | old hleaf _ es ok htrace =>
        obtain rfl : newNode = true := hflag.resolve_right fun hcon => hleaf hcon.1
        exact ⟨demand_new htrace, fun _ => Or.inl rfl⟩
      | new hleaf _ b _ es ok htrace =>
        obtain rfl : newNode = true := hflag.resolve_right fun hcon => hleaf hcon.1
        refine ⟨?_, fun _ => Or.inl rfl⟩
        rw [demand_append, demand_new htrace, demand_store]
        rfl
    rw [hes.1, Nat.zero_add]
    refine ⟨hle, fun hok => Or.inr ⟨by omega, hes.2 hok, ?_⟩⟩
    rw [demand_append, hes.1, Nat.zero_add, heq]

/-- **What is logged of old nodes.** A call that succeeds asks for what its tree needs, another one
for no more. -/
theorem demand_old : ∀ {k f l : ℕ}, DemandCall P k f l
  | 0, _, _, _, _, _, h => h.elim
  | _ + 1, _, _, _, empty, _, h => h.elim
  | _ + 1, _, _, _, leaf _, _, h => h.elim
  | k + 1, f, l, ok, node p c, es, h => by
    have hstart : DemandInv c k f l (f / 512 ^ k) false false [] := by
      refine Or.inl ⟨?_, rfl, rfl, below_start.symm⟩
      rcases Nat.le_total (f / 512 ^ k) (l / 512 ^ k + 1) with hle | hle
      · exact le_first hle
      · exact (first_of_le hle).ge
    have hrun := h.rule (Q := fun es => demand es ≤ own c k f l + below c k f l (miss c k f l))
      (fun _ _ _ _ hI => hI.le) (fun j nn sv nn' sv' es0 es ok h1 h2 hI hslot =>
        demand_step (fun i => demand_old) h1 (by omega) hI hslot) hstart
    rw [List.append_nil] at hrun
    rw [need_node]
    refine ⟨hrun.1, fun hok => ?_⟩
    obtain ⟨nn', sv', hend⟩ := hrun.2 hok
    rcases hend with ⟨hle, -, -, heq⟩ | ⟨-, -, heq⟩
    · have hmiss : miss c k f l = f / 512 ^ k + (l / 512 ^ k + 1 - f / 512 ^ k) := by
        refine le_antisymm ?_ hle
        rcases Nat.le_total (f / 512 ^ k) (l / 512 ^ k + 1) with hfl | hfl
        · exact (first_le hfl).trans (by omega)
        · exact (first_of_le hfl).le.trans (by omega)
      have hown : own c k f l = 0 := if_neg (by omega)
      rw [heq, hown, Nat.zero_add, hmiss]
    · exact heq

/-! ### The allocation -/

/-- The tree with `n` levels on top of it. -/
def raise : ℕ → RTree → RTree
  | 0, T => T
  | n + 1, T => node 0 fun i => if i = 0 then raise n T else empty

theorem need_congr (hempty : ∀ i, c i = empty ↔ c' i = empty)
    (h : ∀ i k f l, need k f l (c i) = need k f l (c' i)) :
    need k f l (node p c) = need k f l (node p' c') := by
  cases k with
  | zero => rfl
  | succ k =>
    have hmiss : miss c k f l = miss c' k f l := by
      unfold miss
      simp only [hempty]
    rw [need_node, need_node, own, own, below, below, hmiss]
    simp only [h]

theorem raised_eq_empty_iff : ∀ {n : ℕ} {T T' : RTree}, Raised P n T T' →
    (T' = empty ↔ raise n T = empty)
  | 0, _, _, h => by rw [show _ = _ from h, raise]
  | _ + 1, _, _, h => by
    obtain ⟨q, c, rfl, -⟩ := h
    exact iff_of_false (by simp) (by simp [raise])

theorem need_raised : ∀ {n k f l : ℕ} {T T' : RTree}, Raised P n T T' →
    need k f l T' = need k f l (raise n T)
  | 0, _, _, _, _, _, h => by rw [show _ = _ from h, raise]
  | n + 1, k, f, l, T, T', h => by
    obtain ⟨q, c, rfl, -, hc, hrest⟩ := h
    refine need_congr (fun i => ?_) fun i k f l => ?_
    · by_cases h0 : i = 0
      · rw [h0, if_pos rfl, raised_eq_empty_iff hrest]
      · rw [hc i h0, if_neg h0]
    · by_cases h0 : i = 0
      · rw [h0, if_pos rfl, need_raised hrest]
      · rw [hc i h0, if_neg h0]

section Alloc

variable {R : Multiset ℕ} {d d' : Dev} {pi pi' : PmfsInode} {o : Option Errno}
  {fileBlocknr num : ℕ} {zero : Bool}

/-- What `__pmfs_alloc_blocks` asks for on a tree: nothing for a file without blocks, whose nodes
are all new, and for a range that is too high. -/
noncomputable def treeNeed (d : Dev) (pi : PmfsInode) (fileBlocknr num : ℕ) : ℕ :=
  let last := lastIndex pi fileBlocknr num
  if pi.root = 0 ∨ 512 ^ 3 ≤ last then 0
  else need (topHeight pi last) (indexOf pi fileBlocknr) last
    (raise (topHeight pi last - pi.height) (treeOf d pi))

theorem treeNeed_of_root (h : pi.root = 0) : treeNeed d pi fileBlocknr num = 0 := if_pos (Or.inl h)

theorem treeNeed_flat (hh : pi.height = 0) (hl : lastIndex pi fileBlocknr num = 0) :
    treeNeed d pi fileBlocknr num = 0 := by
  have htop : topHeight pi 0 = 0 := by
    rw [topHeight, if_pos (by norm_num), hh]
    rfl
  simp only [treeNeed, hl, htop, need_zero, ite_self]

/-- **Main result.** An allocation asks for what its tree needs when it succeeds, and for no more
otherwise. -/
theorem alloc_demand (hwf : WellFormed R d pi)
    (hrun : __pmfsAllocBlocks d pi fileBlocknr num zero = some (d', pi', o)) :
    ∃ n, Logs d d' n ∧ n ≤ treeNeed d pi fileBlocknr num ∧
    (o = none → n = treeNeed d pi fileBlocknr num) := by
  have hP : Using (fun _ => False) d.ba := ⟨hwf.owns.wf, fun _ hx => hx.elim⟩
  obtain ⟨es1, es2, hes, hplain, hcase⟩ := alloc_trace hwf hP hrun
  refine ⟨demand (es2 ++ es1), ⟨_, hes, rfl⟩, ?_⟩
  rw [demand_append, demand_plain hplain.log, Nat.add_zero]
  rcases hcase with ⟨rfl, hflat⟩ | ⟨n, T, htop, hheight, hl, hraised, -, -, hcall⟩
  · refine ⟨Nat.zero_le _, fun ho => ?_⟩
    obtain ⟨hh, hlast⟩ := hflat ho
    exact (treeNeed_flat hh hlast).symm
  have hlast : ¬ 512 ^ 3 ≤ lastIndex pi fileBlocknr num :=
    not_le.mpr (hl.trans_le (Nat.pow_le_pow_right (by norm_num) hheight))
  by_cases hroot : pi.root = 0
  · rw [decide_eq_true hroot] at hcall
    rw [demand_new hcall, treeNeed_of_root hroot]
    exact ⟨le_rfl, fun _ => rfl⟩
  · rw [decide_eq_false hroot] at hcall
    have hneed : treeNeed d pi fileBlocknr num = need (pi.height + n) (indexOf pi fileBlocknr)
        (lastIndex pi fileBlocknr num) T := by
      rw [treeNeed, if_neg (not_or.mpr ⟨hroot, hlast⟩), ← htop, Nat.add_sub_cancel_left,
        need_raised hraised]
    rw [hneed]
    exact ⟨(demand_old hcall).1, fun ho => (demand_old hcall).2 (by rw [ho]; rfl)⟩

end Alloc

end Pmfs.Tree.Demand
