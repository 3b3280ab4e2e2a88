import Pmfs.Tree.Demand

/-! # Allocating again after a failure

When an allocation fails for want of blocks, the blocks before the one that it could not have are
there, and the way to that one is there as well, unless even 4K blocks are used up. `Halts` says so
of a device after `recursive_alloc_blocks` (`recursiveAlloc_halts`) and `AllocHalts` after
`__pmfs_alloc_blocks` (`alloc_halts`). A second try at the first missing block then fails again and
logs nothing: `retry_silent`. -/

namespace Pmfs.Tree.Retry

open Lib.Loop Lib.Radix Lib.RadixMap Block.Model Block.Spec
open Tree.Model Tree.Own Tree.Truncate Tree.Grow Tree.Inode Tree.Extend
open Tree.Keeps Tree.Supply Tree.Demand
open RTree

variable {t : BlkType} {d d' d0 : Dev} {pi pi' pi0 : PmfsInode} {R M : Multiset ℕ}
  {o : Option Errno} {e : Errno} {s s' : AllocLoop} {T : RTree} {c : ℕ → RTree}
  {k p f l i j x last block : ℕ} {zero newNode : Bool}

/-! ### Devices without a block -/

/-- No block of the type is to be had. -/
def Full (d : Dev) (t : BlkType) : Prop := ∀ zero b d', d.newBlock t zero ≠ (.ok b, d')

/-- No allocation of a block fails for want of a blocknode; one of a 4K block never does. -/
def Calm (t : BlkType) (d : Dev) : Prop := t = .b4K ∨ SlabOk d

theorem Full.error (h : Full d t) (zero : Bool) :
    ∃ e, d.newBlock t zero = (.error e, { d with slab := d.slab.tail }) := by
  rcases hr : d.newBlock t zero with ⟨r, d1⟩
  cases r with
  | ok b => exact absurd hr (h zero b d1)
  | error e =>
    obtain ⟨-, rfl⟩ := newBlock_error_eq hr
    exact ⟨e, rfl⟩

theorem full_of_room (hM : Owns d M) (h : room d = 0) : Full d t :=
  fun _ _ _ hr => newBlock_full hM h hr

theorem room_of_error (hM : Owns d M) (hr : d.newBlock .b4K zero = (.error e, d')) :
    room d' = 0 := by
  by_contra hroom
  obtain ⟨-, rfl⟩ := newBlock_error_eq hr
  obtain ⟨b, d1, hok⟩ := newBlock_ok_of_room hM hroom zero
  rw [hr] at hok
  simp at hok

/-- A type of block that was not to be had is not to be had again. -/
theorem full_of_error (hM : Owns d M) (hcalm : Calm t d) (hr : d.newBlock t zero = (.error e, d')) :
    Full d' t := by
  rcases hcalm with rfl | hs
  · obtain ⟨-, hd'⟩ := newBlock_error_eq hr
    exact full_of_room (hM.congr (by rw [hd'])) (room_of_error hM hr)
  · obtain ⟨-, rfl⟩ := newBlock_error_eq hr
    have hs' : SlabOk { d with slab := d.slab.tail } := hs.tail
    intro zero' b d1 hr'
    unfold Dev.newBlock at hr hr'
    rw [hs.headD] at hr
    rw [hs'.headD] at hr'
    rcases hrun : pmfsNewBlock d.ba t true with ⟨r, ba⟩
    rw [hrun] at hr hr'
    cases r with
    | ok b => simp at hr
    | error e => simp at hr'

/-! ### Where the way to an index ends -/

/-- The way to index `x` ends at a missing block: a data block, or also a node if `noMeta`. -/
def Stops (noMeta : Prop) : ℕ → ℕ → RTree → Prop
  | 0, _, empty => True
  | _ + 1, _, empty => noMeta
  | k + 1, x, node _ c => Stops noMeta k (x % 512 ^ k) (c (x / 512 ^ k))
  | _, _, _ => False

theorem stops_of_find {noMeta : Prop} (hno : noMeta) : ∀ {k x : ℕ} {T : RTree}, Uniform 512 k T →
    find 512 k T x = 0 → Stops noMeta k x T
  | 0, _, empty, _, _ => trivial
  | 0, _, leaf _, hu, h => absurd h hu
  | _ + 1, _, empty, _, _ => hno
  | k + 1, x, node _ c, hu, h =>
    stops_of_find (T := c (x / 512 ^ k)) hno (hu.2 _).1 h

theorem Stops.find_eq_zero {noMeta : Prop} : ∀ {k x : ℕ} {T : RTree}, Stops noMeta k x T →
    find 512 k T x = 0
  | 0, _, empty, _ => rfl
  | _ + 1, _, empty, _ => rfl
  | k + 1, _, node _ _, h => Stops.find_eq_zero (k := k) h

theorem Stops.mono {a b : Prop} (hab : a → b) : ∀ {k x : ℕ} {T : RTree}, Stops a k x T →
    Stops b k x T
  | 0, _, empty, _ => trivial
  | _ + 1, _, empty, h => hab h
  | k + 1, _, node _ _, h => Stops.mono (k := k) hab h

/-- In the range from `f` to `l`, the first missing block is the data block `x`. -/
structure StopsAt (k f l : ℕ) (T : RTree) (x : ℕ) : Prop where
  first : f ≤ x
  last : x ≤ l
  stops : Stops False k x T
  before : ∀ n, f ≤ n → n < x → find 512 k T n ≠ 0

/-- An index of the range in child `j`, as an index of the node. -/
theorem child_range (hf : f / 512 ^ k ≤ j) (hl : j ≤ l / 512 ^ k) (h1 : lo 512 k f j ≤ x)
    (h2 : x ≤ hi 512 k l j) : f ≤ j * 512 ^ k + x ∧ j * 512 ^ k + x ≤ l ∧
      (j * 512 ^ k + x) / 512 ^ k = j ∧ (j * 512 ^ k + x) % 512 ^ k = x := by
  have hpos : 0 < 512 ^ k := Nat.pow_pos (by norm_num)
  have hx : x < 512 ^ k := h2.trans_lt (hi_lt (by norm_num) j)
  have hjl : j * 512 ^ k ≤ l := (Nat.le_div_iff_mul_le hpos).mp hl
  rw [lo_eq_sub (by norm_num) hf] at h1
  rw [hi_eq_min (by norm_num) hl] at h2
  refine ⟨by omega, by omega, ?_, ?_⟩
  · rw [Nat.add_comm, Nat.add_mul_div_right _ _ hpos, Nat.div_eq_of_lt hx, Nat.zero_add]
  · rw [Nat.add_comm, Nat.add_mul_mod_self_right, Nat.mod_eq_of_lt hx]

theorem StopsAt.child (hf : f / 512 ^ k ≤ j) (hl : j ≤ l / 512 ^ k) (hu : ∀ i, Uniform 512 k (c i))
    (hfill : ∀ i, f / 512 ^ k ≤ i → i < j → Filled 512 k (lo 512 k f i) (hi 512 k l i) (c i))
    (h : StopsAt k (lo 512 k f j) (hi 512 k l j) (c j) x) :
    StopsAt (k + 1) f l (node p c) (j * 512 ^ k + x) := by
  obtain ⟨h1, h2, hdiv, hmod⟩ := child_range hf hl h.first h.last
  refine ⟨h1, h2, ?_, fun n hn hnx => ?_⟩
  · rw [Stops, hdiv, hmod]
    exact h.stops
  · have hsplit := Nat.div_add_mod' n (512 ^ k)
    have hrest := Nat.mod_lt n (Nat.pow_pos (n := k) (show 0 < 512 by norm_num))
    have hfirst : f / 512 ^ k ≤ n / 512 ^ k := Nat.div_le_div_right hn
    have hlast : n / 512 ^ k ≤ j := by
      rw [← hdiv]
      exact Nat.div_le_div_right hnx.le
    rw [find]
    rcases Nat.lt_or_eq_of_le hlast with hlt | heq
    · -- the children before `j` are filled
      refine (hfill _ hfirst hlt).find_ne_zero (by norm_num) (hu _) ?_ ?_
      · rw [lo_eq_sub (by norm_num) hfirst]
        omega
      · rw [hi_eq_min (by norm_num) (hlast.trans hl)]
        omega
    · rw [heq] at hsplit ⊢
      refine h.before _ ?_ (by omega)
      rw [lo_eq_sub (by norm_num) hf]
      omega

/-! ### How an allocation fails -/

/-- After a failure on the tree under `block`: a block of the range is missing and there is no 4K
block left, or the way to the first missing data block is there. -/
def Halts (t : BlkType) (k : ℕ) (d : Dev) (block f l : ℕ) : Prop :=
  (room d = 0 ∧ ∃ x, f ≤ x ∧ x ≤ l ∧ find 512 k (tree d k block) x = 0) ∨
    Full d t ∧ ∃ x, StopsAt k f l (tree d k block) x

theorem uniform_kids (i : ℕ) : Uniform 512 k (kidsOf d k p i) := by
  unfold kidsOf
  split_ifs
  · exact uniform_tree
  · cases k <;> trivial

theorem halts_node (hp : p ≠ 0) (hf : f / 512 ^ k ≤ j) (hl : j ≤ l / 512 ^ k)
    (hfill : ∀ i, f / 512 ^ k ≤ i → i < j →
    Filled 512 k (lo 512 k f i) (hi 512 k l i) (kidsOf d k p i))
    (hkid : kidsOf d k p j = tree d k block) (h : Halts t k d block (lo 512 k f j) (hi 512 k l j)) :
    Halts t (k + 1) d p f l := by
  unfold Halts
  rw [tree_kids hp]
  rcases h with ⟨hroom, x, h1, h2, hx⟩ | ⟨hfull, x, hx⟩
  · obtain ⟨h3, h4, hdiv, hmod⟩ := child_range hf hl h1 h2
    refine Or.inl ⟨hroom, _, h3, h4, ?_⟩
    rw [find, hdiv, hmod, hkid]
    exact hx
  · refine Or.inr ⟨hfull, j * 512 ^ k + x, StopsAt.child hf hl uniform_kids hfill ?_⟩
    rw [hkid]
    exact hx

theorem leaf_halts (ht : s.pi.iBlkType = t) (hcalm : Calm t s.d)
    (h : Grow.Inv t 0 p f l d0 pi0 R j s) (hp : p ≠ 0) (hf : f / 512 ^ 0 ≤ j)
    (hl : j ≤ l / 512 ^ 0) (hj : j < 512) (hrun : allocLeafBody zero (pmfsGetBlocknr p) last j s =
    some (s', some e)) : Halts t 1 s'.d p f l := by
  unfold allocLeafBody pmfsNewDataBlock at hrun
  by_cases hslot : s.d.node (pmfsGetBlocknr p) j = 0
  swap
  · rw [if_neg hslot] at hrun
    simp at hrun
  rw [if_pos hslot, ht] at hrun
  rcases hr : s.d.newBlock t zero with ⟨r, d1⟩
  rw [hr] at hrun
  cases r with
  | ok b => simp at hrun
  | error e' =>
    cases hrun
    have hfull := full_of_error h.owns hcalm hr
    obtain ⟨-, rfl⟩ := newBlock_error_eq hr
    have hlo : lo 512 0 f j = 0 := Nat.lt_one_iff.mp (lo_lt (by norm_num) j)
    have hkid : kidsOf ({ s.d with slab := s.d.slab.tail } : Dev) 0 p j =
        tree ({ s.d with slab := s.d.slab.tail } : Dev) 0 0 := by
      rw [kidsOf_eq j hj]
      rw [hslot]
    exact halts_node hp hf hl (fun i h1 h2 => h.filled i h1 h2 (by omega)) hkid
      (Or.inr ⟨hfull, 0, hlo.le, Nat.zero_le _, trivial,
      fun n _ hn => absurd hn (Nat.not_lt_zero n)⟩)

/-- How the calls on the children fail. -/
def RecHalts (t : BlkType) (k : ℕ)
    (rec : ℕ → ℕ → ℕ → Bool → Dev → PmfsInode → Option (Dev × PmfsInode × Option Errno)) : Prop :=
  ∀ {d d' : Dev} {pi pi' : PmfsInode} {R : Multiset ℕ} {block f l : ℕ} {newNode : Bool} {e : Errno},
    block ≠ 0 → pi.iBlkType = t → Calm t d → f ≤ l → l < 512 ^ k →
    Owns d (blocks t (tree d k block) + R) → rec block f l newNode d pi = some (d', pi', some e) →
    Halts t k d' block f l

theorem calm_kept {w : Unit} (hwf : Wf d.ba) (h : Calm t d)
    (hkept : Steady d → Kept (fun _ _ => True) (fun _ => Steady) w pi d' pi') : Calm t d' := by
  refine h.imp_right fun hs => ?_
  obtain ⟨⟨-, -, hsteady⟩, -⟩ := hkept ⟨hwf, hs⟩
  exact hsteady.slab

theorem calm_new {r : Except Errno ℕ} {t' : BlkType} (hwf : Wf d.ba) (h : Calm t d)
    (hr : d.newBlock t' zero = (r, d')) : Calm t d' :=
  h.imp_right fun hs => (newBlock_steady ⟨hwf, hs⟩ hr).1.slab

/-- The child in slot `j` could not be filled, in a device `d` where it may be new. -/
theorem fill_halts
    {rec : ℕ → ℕ → ℕ → Bool → Dev → PmfsInode → Option (Dev × PmfsInode × Option Errno)}
    (hgrows : Grows t k rec) (hrec : RecHalts t k rec) (ht : s.pi.iBlkType = t)
    (h : Grow.Inv t k p f l d0 pi0 R j s) (hp : p ≠ 0) (hfl : f ≤ l) (hf : f / 512 ^ k ≤ j)
    (hl : j ≤ l / 512 ^ k) (hj : j < 512) {u : AllocLoop} (hpi : u.pi = s.pi) (hcalm : Calm t u.d)
    (hslot : u.d.node (pmfsGetBlocknr p) j ≠ 0)
    (hown : Owns u.d (blocks t (tree u.d k (u.d.node (pmfsGetBlocknr p) j)) +
      others t (pmfsGetBlocknr p) (kidsOf s.d k p) R j))
    (hslots : ∀ i, i ≠ j → u.d.node (pmfsGetBlocknr p) i = s.d.node (pmfsGetBlocknr p) i)
    (hframe : ∀ y ∈ others t (pmfsGetBlocknr p) (kidsOf s.d k p) R j, y ≠ pmfsGetBlocknr p →
      ∀ i, u.d.node y i = s.d.node y i)
    (hrun : ((rec (u.d.node (pmfsGetBlocknr p) j) (lo 512 k f j) (hi 512 k l j)
    u.newNode u.d u.pi).map
      fun r => (({ u with d := r.1, pi := r.2.1 } : AllocLoop), r.2.2)) = some (s', some e)) :
    Halts t (k + 1) s'.d p f l := by
  obtain ⟨d', pi', o, a, hcall, hown', hfr, -⟩ := hgrows u.newNode hslot
    (hpi ▸ ht) (hi_lt (by norm_num) j) hown
  rw [hcall] at hrun
  simp only [Option.map_some] at hrun
  cases hrun
  obtain ⟨hkids, -⟩ := h.kids_after hp hj hslots hframe hown' hfr
  refine halts_node hp hf hl (fun i h1 h2 => ?_) ?_
    (hrec hslot (hpi ▸ ht) hcalm (lo_le_hi (by norm_num) hfl hf hl)
    (hi_lt (by norm_num) j) hown hcall)
  · rw [hkids, Function.update_of_ne (by omega)]
    exact h.filled i h1 h2 (by omega)
  · rw [hkids, Function.update_self]

theorem meta_halts
    {rec : ℕ → ℕ → ℕ → Bool → Dev → PmfsInode → Option (Dev × PmfsInode × Option Errno)}
    (hgrows : Grows t (k + 1) rec) (hrec : RecHalts t (k + 1) rec) (ht : s.pi.iBlkType = t)
    (hcalm : Calm t s.d) (h : Grow.Inv t (k + 1) p f l d0 pi0 R j s) (hp : p ≠ 0) (hfl : f ≤ l)
    (hf : f / 512 ^ (k + 1) ≤ j) (hl : j ≤ l / 512 ^ (k + 1)) (hj : j < 512)
    (hrun : allocMetaBody rec ((k + 1) * 9) f l (pmfsGetBlocknr p) j s = some (s', some e)) :
    Halts t (k + 2) s'.d p f l := by
  unfold allocMetaBody at hrun
  rw [firstBlk_eq_lo, lastBlk_eq_hi] at hrun
  by_cases hslot : s.d.node (pmfsGetBlocknr p) j = 0
  · rw [if_pos hslot] at hrun
    rcases hr : s.d.newBlock .b4K true with ⟨r, d1⟩
    rw [hr] at hrun
    have hcalm1 := calm_new h.owns.wf hcalm hr
    cases r with
    | error e' =>
      cases hrun
      have hroom : room d1 = 0 := room_of_error h.owns hr
      obtain ⟨-, rfl⟩ := newBlock_error_eq hr
      have hkid : kidsOf ({ s.d with slab := s.d.slab.tail } : Dev).noteNoMeta (k + 1) p j =
          tree ({ s.d with slab := s.d.slab.tail } : Dev).noteNoMeta (k + 1) 0 := by
        rw [kidsOf_eq j hj]
        dsimp only [Dev.noteNoMeta]
        rw [hslot]
      refine halts_node hp hf hl (fun i h1 h2 => h.filled i h1 h2 (by omega)) hkid
        (Or.inl ⟨hroom, _, le_rfl, lo_le_hi (by norm_num) hfl hf hl, ?_⟩)
      rw [tree_null, find_empty]
    | ok b =>
      obtain ⟨h2, hb, -, h1, h3, h4, -⟩ := h.new_child hp hj hslot hr (l >>> ((k + 1) * 9))
      refine fill_halts hgrows hrec ht h hp hfl hf hl hj (u :=
        { ({ s with d := d1 } : AllocLoop).store (pmfsGetBlocknr p) j (l >>> ((k + 1) * 9)) b with
          newNode := true }) rfl ?_ (h2 ▸ hb) h1 h3 h4 hrun
      refine hcalm1.imp_right fun hs => ?_
      exact (store_kept (steady_kept t true) (w := ()) (s := { s with d := d1 }) (k := k)
        ⟨(newBlock_owns h.owns hr).owns.wf, hs⟩ trivial trivial _ _).slab
  · rw [if_neg hslot] at hrun
    exact fill_halts hgrows hrec ht h hp hfl hf hl hj rfl hcalm hslot (h.child hp hj)
      (fun _ _ => rfl) (fun _ _ _ _ => rfl) hrun

theorem loop_halts {body : ℕ → AllocLoop → Option (AllocLoop × Option Errno)} {r : AllocLoop}
    (hl : l / 512 ^ k < 512) (ht : pi0.iBlkType = t) (hcalm : Calm t d0)
    (hown : Owns d0 (blocks t (tree d0 (k + 1) p) + R))
    (hstep : ∀ j s, f / 512 ^ k ≤ j → j ≤ l / 512 ^ k → j < 512 → Grow.Inv t k p f l d0 pi0 R j s →
      Steps t k p f l d0 pi0 R j (body j s))
    (hkeeps : ∀ j s s' o, s.pi.iBlkType = t → Grow.Inv t k p f l d0 pi0 R j s → Calm t s.d →
      body j s = some (s', o) → Calm t s'.d)
    (hbody : ∀ j s s' e, f / 512 ^ k ≤ j → j ≤ l / 512 ^ k → j < 512 →
    s.pi.iBlkType = t → Calm t s.d →
      Grow.Inv t k p f l d0 pi0 R j s → body j s = some (s', some e) → Halts t (k + 1) s'.d p f l)
    (hrun : forLoop body (f / 512 ^ k) (l / 512 ^ k + 1 - f / 512 ^ k) ⟨d0, pi0, newNode, false⟩ =
      some (r, some e)) : Halts t (k + 1) r.d p f l := by
  have hloop := forLoop_partial (I := fun j s => Grow.Inv t k p f l d0 pi0 R j s ∧ Calm t s.d)
    (E := fun s => Halts t (k + 1) s.d p f l) (fun j s s' o h1 h2 hI hb => ?_)
    (show _ ∧ Calm t d0 from ⟨inv_start newNode hown, hcalm⟩) hrun
  · exact hloop.2 (by simp)
  obtain ⟨hinv, hc⟩ := hI
  have hty : s.pi.iBlkType = t := by
    obtain ⟨added, hcount, -⟩ := hinv.count
    rw [hcount.blkType, ht]
  refine ⟨fun ho => ⟨?_, hkeeps j s s' o hty hinv hc hb⟩, fun ho => ?_⟩
  · rcases hstep j s h1 (by omega) (by omega) hinv with ⟨s1, heq, hs1⟩ | ⟨s1, e1, heq, -⟩
    · rw [hb, Option.some.injEq, Prod.mk.injEq] at heq
      rw [heq.1]
      exact hs1
    · rw [hb, Option.some.injEq, Prod.mk.injEq, ho] at heq
      simp at heq
  · obtain ⟨e1, rfl⟩ := Option.ne_none_iff_exists'.mp ho
    exact hbody j s s' e1 h1 (by omega) (by omega) hty hc hinv hb

theorem recursiveAlloc_halts (t : BlkType) (zero : Bool) (k : ℕ) :
    RecHalts t (k + 1) (recursiveAllocBlocks zero (k + 1)) := by
  induction k with
  | zero =>
    intro d d' pi pi' R block f l newNode e hb ht hcalm hfl hl hown hrun
    rw [zero_add, pow_one] at hl
    rw [recursiveAllocBlocks, if_neg hb] at hrun
    simp only [shiftRight_9, if_true] at hrun
    obtain ⟨⟨r, o⟩, hloop, heq⟩ := Option.map_eq_some_iff.mp hrun
    cases heq
    exact loop_halts (by simpa using hl) ht hcalm hown (fun j s h1 h2 h3 hinv =>
      leaf_step ht hinv hb h1 h2 h3) (fun j s s' o hty hinv hc hbody =>
        calm_kept hinv.owns.wf hc fun hs =>
        (allocLeaf_kept (steady_kept t zero) (w := ()) hs trivial hty hbody).1)
      (fun j s s' e h1 h2 h3 hty hc hinv hbody => leaf_halts hty hc hinv hb h1 h2 h3 hbody) hloop
  | succ k ih =>
    intro d d' pi pi' R block f l newNode e hb ht hcalm hfl hl hown hrun
    rw [pow_succ'] at hl
    rw [recursiveAllocBlocks, if_neg hb] at hrun
    simp only [shiftRight_9, if_neg (Nat.succ_ne_zero k)] at hrun
    obtain ⟨⟨r, o⟩, hloop, heq⟩ := Option.map_eq_some_iff.mp hrun
    cases heq
    exact loop_halts (Nat.div_lt_of_lt_mul (Nat.mul_comm _ _ ▸ hl)) ht hcalm hown
      (fun j s h1 h2 h3 hinv => meta_step (alloc_grows t zero k) ht hinv hb h1 h2 h3)
      (fun j s s' o hty hinv hc hbody => calm_kept hinv.owns.wf hc fun hs =>
        (allocMeta_kept (steady_kept t zero) (recursiveAlloc_kept (steady_kept t zero)) (w :=
          ()) (k := k) hs trivial hty hbody).1)
      (fun j s s' e h1 h2 h3 hty hc hinv hbody =>
        meta_halts (alloc_grows t zero k) ih hty hc hinv hb hfl h1 h2 h3 hbody) hloop

/-- The same of a file. -/
def AllocHalts (d : Dev) (pi : PmfsInode) (f l : ℕ) : Prop :=
  (room d = 0 ∧ ∃ x, f ≤ x ∧ x ≤ l ∧ mapped d pi x = 0) ∨ Full d pi.iBlkType ∧ l < 512 ^ pi.height ∧
    ∃ x, StopsAt pi.height f l (treeOf d pi) x

/-- How `__pmfs_alloc_blocks` fails on a range that three levels hold. -/
theorem alloc_halts {fileBlocknr num : ℕ} (hwf : WellFormed R d pi) (hcalm : Calm pi.iBlkType d)
    (hrange : indexOf pi fileBlocknr ≤ lastIndex pi fileBlocknr num)
    (hlast : lastIndex pi fileBlocknr num < 512 ^ 3)
    (hrun : __pmfsAllocBlocks d pi fileBlocknr num zero = some (d', pi', some e)) :
    AllocHalts d' pi' (indexOf pi fileBlocknr) (lastIndex pi fileBlocknr num) := by
  obtain ⟨height, h1, h2, hmin,
    ⟨h3, heq⟩ | ⟨h3, ⟨hz, hroot, heq⟩ | ⟨hz, hroot, heq⟩ | ⟨hz, heq⟩⟩⟩ :=
    alloc_cases d pi fileBlocknr num zero
  · have := hmin 3 hwf.height hlast
    omega
  · rw [heq] at hrun
    unfold firstBlock pmfsNewDataBlock at hrun
    rcases hr : d.newBlock pi.iBlkType zero with ⟨r, d1⟩
    rw [hr] at hrun
    cases r with
    | ok b => simp at hrun
    | error e' =>
      cases hrun
      rw [hz, pow_zero, Nat.lt_one_iff] at h2
      rw [h2] at hrange ⊢
      have hheight : pi.height = 0 := by omega
      refine Or.inr ⟨full_of_error hwf.owns hcalm hr, by positivity, 0, hrange, le_rfl, ?_, ?_⟩
      · rw [hheight, treeOf, hroot, tree_null]
        trivial
      · exact fun n _ hn => absurd hn (Nat.not_lt_zero n)
  · rw [heq] at hrun
    simp at hrun
  · rw [heq, raiseFill] at hrun
    rcases hinc : pmfsIncreaseBtreeHeight d pi height with ⟨d1, pi1, o1⟩
    obtain ⟨hadd, hheight⟩ := increase_added (S := fun _ => False) hwf h1 (h3 hwf.height) hinc
    obtain ⟨hh, hroom, ho⟩ := increase_room hwf h1 hinc
    rw [hinc] at hrun
    cases o1 with
    | some e1 =>
      cases hrun
      have hlt : ¬ height ≤ pi.height + room d := fun hcon => by simp at ho; omega
      refine Or.inl ⟨by omega, _, hrange, le_rfl, lookup_of_le (not_lt.mp fun hcon => ?_)⟩
      have := hmin _ (by omega) hcon
      omega
    | none =>
      dsimp only at hrun
      have hheight1 := hheight rfl
      have hroot1 : pi1.root ≠ 0 := fun hcon => by
        have := hadd.root hcon
        omega
      have hcalm1 : Calm pi.iBlkType d1 := by
        refine hcalm.imp_right fun hs => ?_
        obtain ⟨⟨-, -, hsteady, -⟩, -⟩ :=
          increase_kept (steady_kept .b4K true) (w := ()) ⟨hwf.owns.wf, hs⟩ trivial hinc
        exact hsteady.slab
      obtain ⟨k, rfl⟩ := Nat.exists_eq_succ_of_ne_zero hz
      have hown := hadd.ext.owns
      rw [hheight1] at hown
      have hrec := recursiveAlloc_halts pi.iBlkType zero k hroot1 hadd.blkType hcalm1
        hrange h2 hown hrun
      obtain ⟨d2, pi2, o2, added, hrun2, -, -, -, -, hcount, -⟩ := alloc_grows pi.iBlkType zero k
        (f := indexOf pi fileBlocknr) (decide (pi.root = 0)) hroot1 hadd.blkType h2 hown
      rw [← indexOf] at hrun
      rw [hrun] at hrun2
      cases hrun2
      have hheight2 : pi'.height = k + 1 := by
        rw [hcount.eq]
        exact hheight1
      have hroot2 : pi'.root = pi1.root := by rw [hcount.eq]
      unfold AllocHalts treeOf
      unfold mapped treeOf
      rw [hcount.blkType, hadd.blkType, hheight2, hroot2]
      refine hrec.imp (fun hroom => ⟨hroom.1, ?_⟩) fun hstop => ⟨hstop.1, h2, hstop.2⟩
      obtain ⟨x, hx1, hx2, hx⟩ := hroom.2
      exact ⟨x, hx1, hx2, (lookup_of_lt (hx2.trans_lt h2)).trans hx⟩

/-! ### The second try -/

/-- The block at one index is missing, and the block that the way to it ends at cannot be had. -/
theorem retry_call : ∀ {k block x : ℕ} {newNode : Bool} {d : Dev} {pi : PmfsInode}, block ≠ 0 →
    x < 512 ^ (k + 1) → Full d pi.iBlkType → Stops (Full d .b4K) (k + 1) x (tree d (k + 1) block) →
    ∃ d' pi' e, recursiveAllocBlocks zero (k + 1) block x x newNode d pi = some (d', pi', some e) ∧
    Logs d d' 0
  | 0, block, x, newNode, d, pi, hb, hx, hfull, hstop => by
    have hx' : x < 512 := by simpa using hx
    have hslot : d.node (pmfsGetBlocknr block) x = 0 := by
      rw [tree_kids hb, Stops, kidsOf_eq _ (by simpa using hx'), pow_zero, Nat.div_one] at hstop
      by_contra hne
      rw [tree_leaf hne] at hstop
      exact hstop
    obtain ⟨e, hr⟩ := hfull.error zero
    rw [recursiveAllocBlocks, if_neg hb]
    simp only [shiftRight_9, if_true, pow_zero, Nat.div_one, Nat.add_sub_cancel_left]
    have hbody : allocLeafBody zero (pmfsGetBlocknr block) x x ⟨d, pi, newNode, false⟩ =
        some (⟨{ d with slab := d.slab.tail }, pi.setEofblocks, newNode, false⟩, some e) := by
      unfold allocLeafBody pmfsNewDataBlock
      rw [if_pos hslot, hr]
    rw [forLoop_error hbody]
    exact ⟨_, _, _, rfl, logs_zero d⟩
  | k + 1, block, x, newNode, d, pi, hb, hx, hfull, hstop => by
    have hidx : x / 512 ^ (k + 1) < 512 := Nat.div_lt_of_lt_mul (by rw [pow_succ] at hx; exact hx)
    have hlt : x % 512 ^ (k + 1) < 512 ^ (k + 1) := Nat.mod_lt _ (by positivity)
    rw [tree_kids hb, Stops, kidsOf_eq _ hidx] at hstop
    rw [recursiveAllocBlocks, if_neg hb]
    simp only [shiftRight_9, if_neg (Nat.succ_ne_zero k), Nat.add_sub_cancel_left]
    by_cases hslot : d.node (pmfsGetBlocknr block) (x / 512 ^ (k + 1)) = 0
    · rw [hslot, tree_null] at hstop
      obtain ⟨e, hr⟩ := Full.error hstop true
      have hbody : allocMetaBody (recursiveAllocBlocks zero (k + 1)) ((k + 1) * 9) x x
        (pmfsGetBlocknr block)
          (x / 512 ^ (k + 1)) ⟨d, pi, newNode, false⟩ =
          some (⟨({ d with slab := d.slab.tail } : Dev).noteNoMeta, pi, newNode, false⟩,
          some e) := by
        unfold allocMetaBody
        rw [if_pos hslot, hr]
      rw [forLoop_error hbody]
      exact ⟨_, _, _, rfl, [.noMeta], rfl, rfl⟩
    · obtain ⟨d', pi', e, hrun, hlogs⟩ : ∃ d' pi' e, recursiveAllocBlocks zero (k + 1)
          (d.node (pmfsGetBlocknr block) (x / 512 ^ (k + 1))) (x % 512 ^ (k + 1))
          (x % 512 ^ (k + 1)) newNode d pi =
            some (d', pi', some e) ∧ Logs d d' 0 := retry_call hslot hlt hfull hstop
      have hbody : allocMetaBody (recursiveAllocBlocks zero (k + 1)) ((k + 1) * 9) x x
        (pmfsGetBlocknr block)
          (x / 512 ^ (k + 1)) ⟨d, pi, newNode, false⟩ =
          some (⟨d', pi', newNode, false⟩, some e) := by
        unfold allocMetaBody
        rw [firstBlk_eq_lo, lastBlk_eq_hi, if_neg hslot, lo, hi, if_pos rfl, if_pos rfl]
        dsimp only
        rw [hrun]
        rfl
      rw [forLoop_error hbody]
      exact ⟨_, _, _, rfl, hlogs⟩

/-- The same of a file, whose tree has the index. -/
theorem fill_fails (hz : pi.height ≠ 0) (hroot : pi.root ≠ 0) (hx : x < 512 ^ pi.height)
    (hfull : Full d pi.iBlkType) (hstop : Stops (Full d .b4K) pi.height x (treeOf d pi)) :
    ∃ d' pi' e, raiseFill zero pi.height x x newNode d pi = some (d', pi', some e) ∧
    Logs d d' 0 := by
  have hsame : raiseFill zero pi.height x x newNode d pi =
      recursiveAllocBlocks zero pi.height pi.root x x newNode d pi := by
    rw [raiseFill, pmfsIncreaseBtreeHeight, Nat.sub_self]
    rfl
  rw [hsame]
  unfold treeOf at hstop
  obtain ⟨k, hk⟩ := Nat.exists_eq_succ_of_ne_zero hz
  rw [hk] at hx hstop ⊢
  exact retry_call hroot hx hfull hstop

/-- Without a free block a tree cannot be made higher. -/
theorem raise_fails {height : ℕ} (hwf : WellFormed R d pi) (hroom : room d = 0)
    (hlt : pi.height < height) : ∃ d' pi' e, raiseFill zero height f l newNode d pi = some (d', pi',
    some e) ∧ Logs d d' 0 := by
  obtain ⟨n, hn⟩ : ∃ n, height - pi.height = n + 1 := ⟨height - pi.height - 1, by omega⟩
  obtain ⟨e, hr⟩ := (full_of_room hwf.owns hroom).error true
  rw [raiseFill, pmfsIncreaseBtreeHeight, hn, increaseLoop, hr]
  exact ⟨_, _, e, rfl, [.noMeta], rfl, rfl⟩

/-- **Main result.** After a failure, allocating the first missing block of the range fails again
and logs nothing. -/
theorem retry_silent {y : ℕ} (hwf : WellFormed R d pi) (hy : y < 2 ^ 64) (h : AllocHalts d pi f l)
    (hf : f ≤ indexOf pi y) (hl : indexOf pi y ≤ l) (hhole : mapped d pi (indexOf pi y) = 0)
    (hbefore : ∀ n, f ≤ n → n < indexOf pi y → mapped d pi n ≠ 0) :
    ∃ d' pi' e, __pmfsAllocBlocks d pi y 1 zero = some (d', pi', some e) ∧ Logs d d' 0 := by
  have hfull : Full d pi.iBlkType := h.elim (fun h => full_of_room hwf.owns h.1) fun h => h.1
  have hlast := lastIndex_one pi hy
  obtain ⟨height, h1, h2, hmin,
    ⟨h3, heq⟩ | ⟨h3, ⟨hz, hroot, heq⟩ | ⟨hz, hroot, heq⟩ | ⟨hz, heq⟩⟩⟩ :=
    alloc_cases d pi y 1 zero
  · exact ⟨_, _, _, heq, logs_zero d⟩
  · obtain ⟨e, hr⟩ := hfull.error zero
    rw [heq, firstBlock, pmfsNewDataBlock, hr]
    exact ⟨_, _, e, rfl, [], rfl, rfl⟩
  · have hheight : pi.height = 0 := by omega
    rw [hlast, hz] at h2
    rw [mapped, treeOf, hheight, tree_leaf hroot, lookup_of_lt h2] at hhole
    exact absurd hhole hroot
  rw [heq, hlast, ← indexOf]
  rw [hlast] at h2
  by_cases hlt : indexOf pi y < 512 ^ pi.height
  · have hheight : height = pi.height := le_antisymm (hmin _ le_rfl (by rw [hlast]; exact hlt)) h1
    subst hheight
    refine fill_fails hz (fun hcon => hz (hwf.root hcon)) hlt hfull ?_
    rw [mapped, lookup_of_lt hlt] at hhole
    rcases h with hroom | ⟨-, hheight, x, hx⟩
    · exact stops_of_find (full_of_room hwf.owns hroom.1) uniform_tree hhole
    · -- the block at `x` is the first missing one as well
      have hfind := hx.stops.find_eq_zero
      have hxy : x = indexOf pi y := by
        rcases Nat.lt_trichotomy x (indexOf pi y) with hcon | hxy | hcon
        · refine absurd hfind ?_
          rw [← lookup_of_lt (hx.last.trans_lt hheight)]
          exact hbefore x hx.first hcon
        · exact hxy
        · exact absurd hhole (hx.before _ hf hcon)
      rw [← hxy]
      exact hx.stops.mono False.elim
  · have hroom : room d = 0 := (h.resolve_right fun hstop => hlt (hl.trans_lt hstop.2.1)).1
    refine raise_fails hwf hroom (Nat.lt_of_not_le fun hcon => hlt ?_)
    exact h2.trans_le (Nat.pow_le_pow_right (by norm_num) hcon)

end Pmfs.Tree.Retry
