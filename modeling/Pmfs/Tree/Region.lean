import Pmfs.Lib.First
import Pmfs.Tree.Extend

/-! # Holes and data in the tree of an inode

`recursive_find_region` walks over the slots of a range and counts blocks until it meets what it
searches. Searching a hole it computes `holeRegion`: whether the range has data and holes, and the
number of data blocks before the first hole (`region_hole`). Searching data it stops at the first
data block (`region_data`), and its count is the distance to it, plus what `inGap` says of the first
index: a missing subtree counts as a whole, even when the range begins in the middle of it. -/

namespace Pmfs.Tree.Region

open Lib.Loop Lib.Radix Lib.RadixMap Lib.First
open Tree.Model Tree.Own Tree.Truncate Tree.Inode Tree.Extend
open RTree

/-- The number of blocks that `recursive_find_region` returns, with `*data_found` and `*hole_found`.
-/
@[ext]
structure Found where
  blocks : ℕ
  dataFound : Bool
  holeFound : Bool
deriving DecidableEq, Repr

/-- A slot index, an `unsigned int`. -/
def slotIndex (blocknr nodeBits : ℕ) : ℕ := blocknr >>> nodeBits % 2 ^ 32

/-- `first_blk` for the child at slot `i`. -/
def regionFirst (nodeBits first i : ℕ) : ℕ :=
  if i = slotIndex first nodeBits then first &&& (1 <<< nodeBits) - 1 else 0

/-- `last_blk` for the child at slot `i`. -/
def regionLast (nodeBits last i : ℕ) : ℕ :=
  if i = slotIndex last nodeBits then last &&& (1 <<< nodeBits) - 1 else 1 <<< nodeBits - 1

/-- What a subtree adds to what was found before it. -/
def Found.join (s r : Found) : Found := ⟨s.blocks + r.blocks, r.dataFound, r.holeFound⟩

/-- The loop of `recursive_find_region` at one slot, with `height = h + 1`; `goto done` leaves the
loop with `()`, and a slot beyond the metadata block is not read. -/
def regionBody (node : ℕ → ℕ → ℕ) (hole : Bool) (rec : ℕ → ℕ → ℕ → Bool → Bool → Option Found)
    (h first last page i : ℕ) (s : Found) : Option (Found × Option Unit) :=
  let nodeBits := h * 9
  let v := node page i
  if i ≥ 512 then none
  else if h = 0 ∨ v = 0 then
    if v ≠ 0 ∧ hole = false then some ({ s with dataFound := true }, some ())
    else
      let s := if v ≠ 0 then { s with dataFound := true } else { s with holeFound := true }
      some (if !s.holeFound || !hole then { s with blocks := s.blocks + 1 <<< nodeBits } else s,
        none)
  else
    (rec v (regionFirst nodeBits first i) (regionLast nodeBits last i) s.dataFound s.holeFound).map
      fun r => (s.join r, if !hole && r.dataFound then some () else none)

/-- `recursive_find_region`. The number of blocks is returned as an `int`, which has room for those
of a tree of height 3. -/
def recursiveFindRegion (node : ℕ → ℕ → ℕ) (hole : Bool) :
    ℕ → ℕ → ℕ → ℕ → Bool → Bool → Option Found
  | 0, _, _, _, _, _ => none
  | h + 1, block, first, last, dataFound, holeFound =>
    if block = 0 then none
    else
      let firstIndex := slotIndex first (h * 9)
      let lastIndex := slotIndex last (h * 9)
      (forLoop (regionBody node hole (recursiveFindRegion node hole h) h first last
        (pmfsGetBlocknr block)) firstIndex (lastIndex + 1 - firstIndex) ⟨0,
        dataFound, holeFound⟩).map
          Prod.fst

/-- `-ENXIO` as an `unsigned long`. -/
def enxioResult : ℕ := 2 ^ 64 - 6

/-- The new offset when `blocks` blocks are passed over, in machine words. -/
def passBlocks (dataBits offset blocks : ℕ) : ℕ :=
  let offsetInBlock := offset &&& 1 <<< dataBits - 1
  if offsetInBlock ≠ 0 then
    (offset + ((blocks + (2 ^ 64 - 1)) % 2 ^ 64) <<< dataBits + (1 <<< dataBits - offsetInBlock)) %
      2 ^ 64
  else (offset + blocks <<< dataBits) % 2 ^ 64

/-- The end of `pmfs_find_region`: the value it returns and `*offset`. -/
def regionResult (dataBits iSize offset : ℕ) (hole : Bool) (r : Found) : ℕ × ℕ :=
  if !hole && !r.dataFound && r.holeFound then (enxioResult, offset)
  else if r.dataFound && !r.holeFound then (0, if hole then iSize else offset)
  else if hole && r.holeFound && r.blocks == 0 then (0, if !r.dataFound then iSize else offset)
  else (0, passBlocks dataBits offset r.blocks)

/-- `pmfs_find_region`, for an offset that is not negative. -/
def pmfsFindRegion (d : Dev) (inode : Inode) (pi : PmfsInode) (offset : ℕ) (hole : Bool) :
    Option (ℕ × ℕ) :=
  let dataBits := pmfsInodeBlkShift pi
  if offset ≥ inode.iSize then some (enxioResult, offset)
  else if inode.iBlocks = 0 ∨ pi.root = 0 then
    some (if hole then inode.iSize else enxioResult, offset)
  else
    (if pi.height = 0 then some ⟨0, true, false⟩
      else recursiveFindRegion d.node hole pi.height pi.root (offset >>> dataBits)
        (inode.iSize >>> dataBits) false false).map (regionResult dataBits inode.iSize offset hole)

variable {d : Dev} {m m' : ℕ → ℕ} {a b c f l i k p : ℕ} {data hole : Bool} {s r : Found}

@[simp] theorem Found.join_blocks : (s.join r).blocks = s.blocks + r.blocks := rfl

@[simp] theorem Found.join_dataFound : (s.join r).dataFound = r.dataFound := rfl

@[simp] theorem Found.join_holeFound : (s.join r).holeFound = r.holeFound := rfl

theorem region_loop {search : Bool} (hp : p ≠ 0) :
    recursiveFindRegion d.node search (k + 1) p f l data hole =
      (forLoop (regionBody d.node search (recursiveFindRegion d.node search k) k f l
      (pmfsGetBlocknr p))
        (slotIndex f (k * 9)) (slotIndex l (k * 9) + 1 - slotIndex f (k * 9)) ⟨0, data, hole⟩).map
          Prod.fst := by
  rw [recursiveFindRegion, if_neg hp]

/-! ### Slots of a range -/

theorem slotIndex_eq (hf : f < 512 ^ (k + 1)) : slotIndex f (k * 9) = f / 512 ^ k := by
  have hlt : f / 512 ^ k < 512 := child_lt hf
  unfold slotIndex
  rw [shiftRight_9, Nat.mod_eq_of_lt (by omega)]

theorem regionFirst_eq_lo (hf : f < 512 ^ (k + 1)) : regionFirst (k * 9) f i = lo 512 k f i := by
  unfold regionFirst lo
  rw [slotIndex_eq hf, and_mask_9]

theorem regionLast_eq_hi (hl : l < 512 ^ (k + 1)) : regionLast (k * 9) l i = hi 512 k l i := by
  unfold regionLast hi
  rw [slotIndex_eq hl, and_mask_9, one_shiftLeft_9]

/-- Where the part of the range `[f, l]` before slot `i` ends. -/
def edge (k f l i : ℕ) : ℕ := max f (min (i * 512 ^ k) (l + 1))

theorem edge_start (hfl : f ≤ l) : edge k f l (f / 512 ^ k) = f := by
  have hle := Nat.div_mul_le_self f (512 ^ k)
  unfold edge
  omega

theorem edge_stop (hfl : f ≤ l) : edge k f l (l / 512 ^ k + 1) = l + 1 := by
  have hlt : l < (l / 512 ^ k + 1) * 512 ^ k :=
    (Nat.div_lt_iff_lt_mul (Nat.pow_pos (by omega))).mp (Nat.lt_succ_self _)
  unfold edge
  omega

theorem le_edge : f ≤ edge k f l i := le_max_left _ _

theorem edge_le (hfl : f ≤ l) : edge k f l i ≤ l + 1 := by
  unfold edge
  omega

section Slot

variable (hf : f / 512 ^ k ≤ i) (hl : i ≤ l / 512 ^ k)
include hf hl

theorem edge_eq_lo : edge k f l i = i * 512 ^ k + lo 512 k f i := by
  have hle := (le_div_iff_le (by omega)).mp hl
  rw [lo_eq_sub (by omega) hf]
  unfold edge
  omega

theorem edge_eq_hi (hfl : f ≤ l) : edge k f l (i + 1) = i * 512 ^ k + (hi 512 k l i + 1) := by
  have hpos : 0 < 512 ^ k := Nat.pow_pos (by omega)
  have hle := (le_div_iff_le (by omega)).mp hl
  have hlt : f < (i + 1) * 512 ^ k := (Nat.div_lt_iff_lt_mul hpos).mp (by omega)
  rw [hi_eq_min (by omega) hl]
  unfold edge
  rw [Nat.succ_mul] at hlt ⊢
  omega

theorem lo_le_hi (hfl : f ≤ l) : lo 512 k f i ≤ hi 512 k l i := by
  have hpos : 0 < 512 ^ k := Nat.pow_pos (by omega)
  have hlt : f < (i + 1) * 512 ^ k := (Nat.div_lt_iff_lt_mul hpos).mp (by omega)
  rw [Nat.succ_mul] at hlt
  rw [lo_eq_sub (by omega) hf, hi_eq_min (by omega) hl]
  omega

theorem edge_lt (hfl : f ≤ l) : edge k f l i < edge k f l (i + 1) := by
  have hle := lo_le_hi hf hl hfl
  rw [edge_eq_lo hf hl, edge_eq_hi hf hl hfl]
  omega

end Slot

/-- The slot of a child, as part of the map of the node. -/
theorem find_slot (hp : p ≠ 0) (hi : i < 512) {j : ℕ} (hj : j < 512 ^ k) :
    find 512 (k + 1) (tree d (k + 1) p) (i * 512 ^ k + j) =
      find 512 k (tree d k (d.node (pmfsGetBlocknr p) i)) j := by
  rw [tree_kids hp, find_child hj, kidsOf_eq i hi]

/-! ### One slot -/

section Body

variable {rec : ℕ → ℕ → ℕ → Bool → Bool → Option Found} {page : ℕ} {search : Bool} (hlim : i < 512)
include hlim

/-- A missing child counts as a whole, unless a hole is searched. -/
theorem body_missing (hv : d.node page i = 0) : regionBody d.node search rec k f l page i s =
    some (⟨if search then s.blocks else s.blocks + 512 ^ k, s.dataFound, true⟩, none) := by
  unfold regionBody
  cases search <;> simp [not_le.mpr hlim, hv, one_shiftLeft_9]

/-- A data block counts when a hole is searched and none was found. -/
theorem body_leaf (hv : d.node page i ≠ 0) : regionBody d.node true rec 0 f l page i s =
    some (⟨if s.holeFound then s.blocks else s.blocks + 1, true, s.holeFound⟩, none) := by
  unfold regionBody
  cases hs : s.holeFound <;> simp [not_le.mpr hlim, hv]

theorem body_leaf_data (hv : d.node page i ≠ 0) : regionBody d.node false rec 0 f l page i s =
    some (⟨s.blocks, true, s.holeFound⟩, some ()) := by
  unfold regionBody
  simp [not_le.mpr hlim, hv]

theorem body_child (hk : k ≠ 0) (hv : d.node page i ≠ 0) (hfl : f ≤ l) (hlt : l < 512 ^ (k + 1))
    (hr : rec (d.node page i) (lo 512 k f i) (hi 512 k l i) s.dataFound s.holeFound = some r) :
    regionBody d.node search rec k f l page i s =
      some (s.join r, if !search && r.dataFound then some () else none) := by
  unfold regionBody
  rw [if_neg (not_le.mpr hlim), if_neg (by simp [hk, hv]), regionFirst_eq_lo (hfl.trans_lt hlt),
    regionLast_eq_hi hlt, hr, Option.map_some]

end Body

/-! ### Searching a hole -/

/-- What the walk finds in `[a, b)` when it searches a hole. -/
noncomputable def holeRegion (m : ℕ → ℕ) (a b : ℕ) (data hole : Bool) : Found where
  blocks := if hole then 0 else first (m · = 0) a b - a
  dataFound := data || decide (first (m · ≠ 0) a b < b)
  holeFound := hole || decide (first (m · = 0) a b < b)

theorem holeRegion_self : holeRegion m a a data hole = ⟨0, data, hole⟩ := by
  simp [holeRegion]

theorem holeRegion_shift (hab : a ≤ b) (h : ∀ n, a ≤ n → n < b → m (c + n) = m' n) :
    holeRegion m (c + a) (c + b) data hole = holeRegion m' a b data hole := by
  unfold holeRegion
  rw [first_shift hab fun n ha hb => by rw [h n ha hb],
    first_shift hab fun n ha hb => by rw [h n ha hb]]
  simp only [Nat.add_lt_add_iff_left, Nat.add_sub_add_left]

/-- The walk over two parts of a range, one after the other. -/
theorem holeRegion_append (hac : a ≤ c) (hcb : c ≤ b) : holeRegion m a b data hole =
    (holeRegion m a c data hole).join
      (holeRegion m c b (holeRegion m a c data hole).dataFound
      (holeRegion m a c data hole).holeFound) := by
  have h1 := le_first (P := (m · = 0)) hac
  have h2 := first_le (P := (m · = 0)) hac
  have h3 := le_first (P := (m · = 0)) hcb
  have h4 := first_le (P := (m · ≠ 0)) hac
  unfold holeRegion Found.join
  rw [first_append hac hcb, first_append hac hcb]
  ext
  · cases hole
    · by_cases h : first (m · = 0) a c < c
      · simp [h]
      · simp only [h, decide_false, Bool.or_self, Bool.false_eq_true, if_false]
        omega
    · simp
  · by_cases h : first (m · ≠ 0) a c < c
    · simp [h, h.trans_le hcb]
    · simp [h]
  · by_cases h : first (m · = 0) a c < c
    · simp [h, h.trans_le hcb]
    · simp [h]

theorem holeRegion_hole (hab : a < b) (h : ∀ n, a ≤ n → n < b → m n = 0) :
    holeRegion m a b data hole = ⟨0, data, true⟩ := by
  have h1 : first (m · = 0) a b = a := first_of_holds hab (h a le_rfl hab)
  have h2 : first (m · ≠ 0) a b = b := (first_eq_end_iff hab.le).mpr fun n ha hb => by
    simp [h n ha hb]
  simp [holeRegion, h1, h2, hab]

theorem holeRegion_data (h : m a ≠ 0) :
    holeRegion m a (a + 1) data hole = ⟨if hole then 0 else 1, true, hole⟩ := by
  have h1 : first (m · = 0) a (a + 1) = a + 1 := by
    refine (first_eq_end_iff (by omega)).mpr fun n ha hb => ?_
    rwa [show n = a by omega]
  have h2 : first (m · ≠ 0) a (a + 1) = a := first_of_holds (by omega) h
  simp [holeRegion, h1, h2]

/-- What the recursive call has to compute, children having height `k`. -/
def HoleCall (d : Dev) (k : ℕ) (rec : ℕ → ℕ → ℕ → Bool → Bool → Option Found) : Prop :=
  ∀ v f l data hole, v ≠ 0 → f ≤ l → l < 512 ^ k →
    rec v f l data hole = some (holeRegion (find 512 k (tree d k v)) f (l + 1) data hole)

theorem body_hole {rec : ℕ → ℕ → ℕ → Bool → Bool → Option Found} (hrec : k ≠ 0 → HoleCall d k rec)
    (hp : p ≠ 0) (hfl : f ≤ l) (hlt : l < 512 ^ (k + 1)) (hf : f / 512 ^ k ≤ i)
    (hl : i ≤ l / 512 ^ k) : regionBody d.node true rec k f l (pmfsGetBlocknr p) i s =
      some (s.join (holeRegion (find 512 (k + 1) (tree d (k + 1) p)) (edge k f l i)
      (edge k f l (i + 1))
        s.dataFound s.holeFound), none) := by
  have hlim : i < 512 := hl.trans_lt (child_lt hlt)
  have hhi := hi_lt (F := 512) (k := k) (l := l) (by omega) i
  have hle := lo_le_hi hf hl hfl
  rw [edge_eq_lo hf hl, edge_eq_hi hf hl hfl, holeRegion_shift (Nat.le_succ_of_le hle) fun j _ hj =>
    find_slot hp hlim (by omega)]
  by_cases hv : d.node (pmfsGetBlocknr p) i = 0
  · rw [body_missing hlim hv, holeRegion_hole (by omega) fun j _ _ => by rw [hv,
      tree_null, find_empty]]
    rfl
  by_cases hk : k = 0
  · subst hk
    have hzero : hi 512 0 l i = 0 := by omega
    rw [body_leaf hlim hv, hzero, show lo 512 0 f i = 0 by omega,
      holeRegion_data (by rw [tree_leaf hv]; exact hv)]
    cases s.holeFound <;> simp [Found.join]
  · rw [body_child hlim hk hv hfl hlt (hrec hk _ _ _ _ _ hv hle hhi)]
    rfl

theorem region_hole_step (hrec : k ≠ 0 → HoleCall d k (recursiveFindRegion d.node true k)) :
    HoleCall d (k + 1) (recursiveFindRegion d.node true (k + 1)) := by
  intro p f l data hole hp hfl hlt
  have hdiv : f / 512 ^ k ≤ l / 512 ^ k := Nat.div_le_div_right hfl
  -- before each slot the state is what the range up to this slot gives
  obtain ⟨s, hs, hinv⟩ := @forLoop_total _ _
    (regionBody d.node true (recursiveFindRegion d.node true k) k f l (pmfsGetBlocknr p))
    (f / 512 ^ k) (l / 512 ^ k + 1 - f / 512 ^ k)
    (fun i s => s = holeRegion (find 512 (k + 1) (tree d (k + 1) p)) f (edge k f l i) data hole)
    ⟨0, data, hole⟩
    (fun j s h1 h2 hj => by
      refine ⟨_, body_hole hrec hp hfl hlt h1 (by omega), ?_⟩
      rw [holeRegion_append le_edge (edge_lt h1 (by omega) hfl).le, ← hj])
    (by rw [edge_start hfl, holeRegion_self])
  rw [show f / 512 ^ k + (l / 512 ^ k + 1 - f / 512 ^ k) = l / 512 ^ k + 1 by omega,
    edge_stop hfl] at hinv
  rw [region_loop hp, slotIndex_eq (hfl.trans_lt hlt), slotIndex_eq hlt, hs, Option.map_some, hinv]

/-- **Main result.** Searching a hole, the walk computes `holeRegion`. -/
theorem region_hole (d : Dev) (k : ℕ) :
    HoleCall d (k + 1) (recursiveFindRegion d.node true (k + 1)) := by
  induction k with
  | zero => exact region_hole_step fun hcon => absurd rfl hcon
  | succ k ih => exact region_hole_step fun _ => ih

/-! ### Searching data -/

/-- What the walk finds in `[a, b)` when it searches data. The number of blocks is the distance to
the first data block and `extra`; without data it is that to the end when the range is `full`. -/
structure DataRegion (m : ℕ → ℕ) (a b extra : ℕ) (full : Prop) (hole : Bool) (r : Found) :
    Prop where
  data : r.dataFound = decide (first (m · ≠ 0) a b < b)
  hole : r.holeFound = (hole || decide (a < first (m · ≠ 0) a b))
  blocks : first (m · ≠ 0) a b < b ∨ full → r.blocks = first (m · ≠ 0) a b - a + extra

variable {extra : ℕ} {full : Prop}

theorem DataRegion.shift (h : DataRegion m' a b extra full hole r) (hab : a ≤ b)
    (hm : ∀ n, a ≤ n → n < b → m (c + n) = m' n) :
    DataRegion m (c + a) (c + b) extra full hole r := by
  have hfirst : first (m · ≠ 0) (c + a) (c + b) = c + first (m' · ≠ 0) a b :=
    first_shift hab fun n ha hb => by rw [hm n ha hb]
  constructor
  · simp only [h.data, hfirst, Nat.add_lt_add_iff_left]
  · simp only [h.hole, hfirst, Nat.add_lt_add_iff_left]
  · rw [hfirst, Nat.add_lt_add_iff_left, Nat.add_sub_add_left]
    exact h.blocks

/-- The walk has found no data in `[a, b)`, and `extra` counts once it has left `a`. -/
structure Passed (m : ℕ → ℕ) (a b extra : ℕ) (full : Prop) (hole : Bool) (s : Found) : Prop where
  data : s.dataFound = false
  none : first (m · ≠ 0) a b = b
  hole : s.holeFound = (hole || decide (a < b))
  blocks : full → s.blocks = b - a + if a < b then extra else 0

theorem passed_start : Passed m a a extra full hole ⟨0, false, hole⟩ where
  data := rfl
  none := first_self
  hole := by simp
  blocks := fun _ => by simp

theorem Passed.region (h : Passed m a b extra full hole s) (hab : a < b) :
    DataRegion m a b extra full hole s where
  data := by rw [h.data, h.none, decide_eq_false (lt_irrefl b)]
  hole := by rw [h.hole, h.none]
  blocks := by
    rw [h.none]
    intro hfull
    rw [h.blocks (hfull.resolve_left (lt_irrefl b)), if_pos hab]

section Join

variable {extra' : ℕ} (hs : Passed m a c extra True hole s)
  (hr : DataRegion m c b extra' full s.holeFound r) (hac : a ≤ c) (hcb : c < b)
  (hextra : extra' = if a < c then 0 else extra)
include hs hr hac hcb hextra

theorem Passed.join (hnone : r.dataFound = false) : Passed m a b extra full hole (s.join r) := by
  have hlt : ¬ first (m · ≠ 0) c b < b := by
    simpa only [hr.data, decide_eq_false_iff_not] using hnone
  have hend : first (m · ≠ 0) c b = b := le_antisymm (first_le hcb.le) (not_lt.mp hlt)
  have hsb := hs.blocks trivial
  constructor
  · exact hnone
  · rw [first_append hac hcb.le, hs.none, if_neg (lt_irrefl c), hend]
  · simp [hr.hole, hend, hcb, hac.trans_lt hcb]
  · intro hfull
    have hrb := hr.blocks (Or.inr hfull)
    rw [hend] at hrb
    rw [Found.join_blocks, if_pos (hac.trans_lt hcb), hsb, hrb, hextra]
    split_ifs <;> omega

theorem Passed.found (hdata : r.dataFound = true) {e : ℕ} (hbe : b ≤ e) {full' : Prop} :
    DataRegion m a e extra full' hole (s.join r) := by
  have hlt : first (m · ≠ 0) c b < b := by
    simpa only [hr.data, decide_eq_true_eq] using hdata
  have hle := le_first (P := (m · ≠ 0)) hcb.le
  have hfirst : first (m · ≠ 0) a e = first (m · ≠ 0) c b := by
    rw [first_append hac (hcb.le.trans hbe), hs.none, if_neg (lt_irrefl c), first_append hcb.le hbe,
      if_pos hlt]
  have hsb := hs.blocks trivial
  have hrb := hr.blocks (Or.inl hlt)
  constructor
  · rw [hfirst, decide_eq_true (hlt.trans_le hbe)]
    exact hdata
  · simp only [Found.join_holeFound, hfirst, hr.hole, hs.hole, Bool.or_assoc, ← Bool.decide_or]
    congr 2
    exact propext (by omega)
  · intro _
    rw [Found.join_blocks, hfirst, hsb, hrb, hextra]
    split_ifs <;> omega

end Join

/-- What the recursive call has to compute, children having height `k`. -/
def DataCall (d : Dev) (k : ℕ) (rec : ℕ → ℕ → ℕ → Bool → Bool → Option Found) : Prop :=
  ∀ v f l hole, v ≠ 0 → f ≤ l → l < 512 ^ k → ∃ r, rec v f l false hole = some r ∧
    DataRegion (find 512 k (tree d k v)) f (l + 1) (inGap 512 k (tree d k v) f)
    (l + 1 = 512 ^ k) hole r

theorem body_data {rec : ℕ → ℕ → ℕ → Bool → Bool → Option Found} (hrec : k ≠ 0 → DataCall d k rec)
    (hp : p ≠ 0) (hfl : f ≤ l) (hlt : l < 512 ^ (k + 1)) (hf : f / 512 ^ k ≤ i)
    (hl : i ≤ l / 512 ^ k) (hs : s.dataFound = false) : ∃ r,
      regionBody d.node false rec k f l (pmfsGetBlocknr p) i s =
        some (s.join r, if r.dataFound then some () else none) ∧
      DataRegion (find 512 (k + 1) (tree d (k + 1) p)) (edge k f l i) (edge k f l (i + 1))
        (inGap 512 k (tree d k (d.node (pmfsGetBlocknr p) i)) (lo 512 k f i))
        (hi 512 k l i + 1 = 512 ^ k) s.holeFound r := by
  have hlim : i < 512 := hl.trans_lt (child_lt hlt)
  have hhi := hi_lt (F := 512) (k := k) (l := l) (by omega) i
  have hle := lo_le_hi hf hl hfl
  rw [edge_eq_lo hf hl, edge_eq_hi hf hl hfl]
  -- it is enough to say what the slot gives in the child's own indices
  suffices h : ∃ r, regionBody d.node false rec k f l (pmfsGetBlocknr p) i s =
        some (s.join r, if r.dataFound then some () else none) ∧
      DataRegion (find 512 k (tree d k (d.node (pmfsGetBlocknr p) i))) (lo 512 k f i)
      (hi 512 k l i + 1)
        (inGap 512 k (tree d k (d.node (pmfsGetBlocknr p) i)) (lo 512 k f i))
        (hi 512 k l i + 1 = 512 ^ k) s.holeFound r by
    obtain ⟨r, hbody, hr⟩ := h
    exact ⟨r, hbody, hr.shift (Nat.le_succ_of_le hle) fun j _ hj => find_slot hp hlim (by omega)⟩
  by_cases hv : d.node (pmfsGetBlocknr p) i = 0
  · refine ⟨⟨512 ^ k, false, true⟩, ?_, ?_⟩
    · rw [body_missing hlim hv, hs]
      rfl
    · rw [hv, tree_null]
      have hend : first (find 512 k empty · ≠ 0) (lo 512 k f i) (hi 512 k l i + 1) =
        hi 512 k l i + 1 :=
        (first_eq_end_iff (by omega)).mpr fun n _ _ => by simp
      constructor
      · rw [hend, decide_eq_false (lt_irrefl _)]
      · rw [hend, decide_eq_true (by omega), Bool.or_true]
      · intro hfull
        rw [hend] at hfull ⊢
        rw [inGap_empty, Nat.mod_eq_of_lt (lo_lt (by omega) i), hfull.resolve_left (lt_irrefl _)]
        have := lo_lt (F := 512) (k := k) (f := f) (by omega) i
        change 512 ^ k = _
        omega
  by_cases hk : k = 0
  · subst hk
    refine ⟨⟨0, true, s.holeFound⟩, body_leaf_data hlim hv, ?_⟩
    have hfirst : first (find 512 0 (tree d 0 (d.node (pmfsGetBlocknr p) i)) · ≠ 0) (lo 512 0 f i)
        (hi 512 0 l i + 1) = lo 512 0 f i :=
      first_of_holds (by omega) (by rw [tree_leaf hv]; exact hv)
    constructor
    · rw [hfirst, decide_eq_true (by omega)]
    · rw [hfirst, decide_eq_false (lt_irrefl _), Bool.or_false]
    · intro _
      rw [hfirst, show lo 512 0 f i = 0 by omega, inGap_zero]
  · obtain ⟨r, hcall, hr⟩ := hrec hk _ _ _ s.holeFound hv hle hhi
    refine ⟨r, ?_, hr⟩
    rw [← hs] at hcall
    rw [body_child hlim hk hv hfl hlt hcall]
    simp

/-- What counts too much at the first index counts at the first slot. -/
theorem inGap_slot (hp : p ≠ 0) (hfl : f ≤ l) (hlt : l < 512 ^ (k + 1)) (hf : f / 512 ^ k ≤ i)
    (hl : i ≤ l / 512 ^ k) :
    inGap 512 k (tree d k (d.node (pmfsGetBlocknr p) i)) (lo 512 k f i) =
      if f < edge k f l i then 0 else inGap 512 (k + 1) (tree d (k + 1) p) f := by
  have hlim : i < 512 := hl.trans_lt (child_lt hlt)
  split_ifs with hedge
  · have hlo : lo 512 k f i = 0 := by
      rw [lo_eq_sub (by omega) hf]
      unfold edge at hedge
      omega
    rw [hlo, inGap_zero]
  · have hle : i * 512 ^ k ≤ f := by
      unfold edge at hedge
      omega
    obtain rfl : i = f / 512 ^ k := le_antisymm ((le_div_iff_le (by omega)).mpr hle) hf
    rw [tree_kids hp, inGap_node, kidsOf_eq _ hlim]
    congr 1
    exact if_pos rfl

/-- A slot before the last one is full, and so is the last one of a full node. -/
theorem hi_full (hl : i ≤ l / 512 ^ k) (h : i + 1 ≤ l / 512 ^ k ∨ l + 1 = 512 ^ (k + 1))
    (hlt : l < 512 ^ (k + 1)) : hi 512 k l i + 1 = 512 ^ k := by
  have hpos : 0 < 512 ^ k := Nat.pow_pos (by omega)
  have hle : (i + 1) * 512 ^ k ≤ l + 1 := by
    rcases h with h | h
    · exact ((le_div_iff_le (by omega)).mp h).trans (Nat.le_succ l)
    · rw [h, pow_succ']
      exact Nat.mul_le_mul_right _ (hl.trans_lt (child_lt hlt))
  rw [Nat.succ_mul] at hle
  rw [hi_eq_min (by omega) hl]
  omega

/-- The loop over the slots of a node ends behind the range when there is no data, and at the first
data block. -/
theorem data_loop (hole : Bool) (hrec : k ≠ 0 → DataCall d k (recursiveFindRegion d.node false k))
    (hp : p ≠ 0) (hfl : f ≤ l) (hlt : l < 512 ^ (k + 1)) :
    Ends (forLoop (regionBody d.node false (recursiveFindRegion d.node false k) k f l
    (pmfsGetBlocknr p))
        (f / 512 ^ k) (l / 512 ^ k + 1 - f / 512 ^ k) ⟨0, false, hole⟩)
      (fun s => s.dataFound = false ∧ DataRegion (find 512 (k + 1) (tree d (k + 1) p)) f (l + 1)
        (inGap 512 (k + 1) (tree d (k + 1) p) f) (l + 1 = 512 ^ (k + 1)) hole s)
      (fun _ s => s.dataFound = true ∧ DataRegion (find 512 (k + 1) (tree d (k + 1) p)) f (l + 1)
        (inGap 512 (k + 1) (tree d (k + 1) p) f) (l + 1 = 512 ^ (k + 1)) hole s) := by
  have hdiv : f / 512 ^ k ≤ l / 512 ^ k := Nat.div_le_div_right hfl
  have hloop := @forLoop_rule _ _
    (regionBody d.node false (recursiveFindRegion d.node false k) k f l (pmfsGetBlocknr p))
    (fun i s => Passed (find 512 (k + 1) (tree d (k + 1) p)) f (edge k f l i)
      (inGap 512 (k + 1) (tree d (k + 1) p) f) (i ≤ l / 512 ^ k ∨ l + 1 = 512 ^ (k + 1)) hole s)
    (fun _ s => s.dataFound = true ∧ DataRegion (find 512 (k + 1) (tree d (k + 1) p)) f (l + 1)
      (inGap 512 (k + 1) (tree d (k + 1) p) f) (l + 1 = 512 ^ (k + 1)) hole s)
    (l / 512 ^ k + 1 - f / 512 ^ k) (f / 512 ^ k) ⟨0, false, hole⟩
    (fun j s h1 h2 hj => by
      have hjl : j ≤ l / 512 ^ k := by omega
      have hstart : Passed _ _ _ _ True _ _ :=
        ⟨hj.data, hj.none, hj.hole, fun _ => hj.blocks (Or.inl hjl)⟩
      obtain ⟨r, hbody, hr⟩ := body_data hrec hp hfl hlt h1 hjl hj.data
      have hextra := inGap_slot (d := d) hp hfl hlt h1 hjl
      have hlt' := edge_lt h1 hjl hfl
      cases hfound : r.dataFound with
      | false =>
        rw [hfound] at hbody
        have hnext := hstart.join hr le_edge hlt' hextra hfound
        exact Or.inl ⟨_, hbody, hnext.data, hnext.none, hnext.hole,
          fun h => hnext.blocks (hi_full hjl h hlt)⟩
      | true =>
        rw [hfound] at hbody
        exact Or.inr ⟨_, _, hbody, hfound,
          hstart.found hr le_edge hlt' hextra hfound (edge_le hfl)⟩)
    (by rw [edge_start hfl]; exact passed_start)
  rw [show f / 512 ^ k + (l / 512 ^ k + 1 - f / 512 ^ k) = l / 512 ^ k + 1 by omega,
    edge_stop hfl] at hloop
  refine hloop.imp_left ?_
  rintro ⟨s, hs, hinv⟩
  have hend := hinv.region (by omega)
  exact ⟨s, hs, hinv.data, hend.data, hend.hole, fun h => hend.blocks (h.imp_right Or.inr)⟩

theorem region_data_step (hrec : k ≠ 0 → DataCall d k (recursiveFindRegion d.node false k)) :
    DataCall d (k + 1) (recursiveFindRegion d.node false (k + 1)) := by
  intro p f l hole hp hfl hlt
  rw [region_loop hp, slotIndex_eq (hfl.trans_lt hlt), slotIndex_eq hlt]
  rcases data_loop hole hrec hp hfl hlt with ⟨s, hs, -, hinv⟩ | ⟨s, e, hs, -, hinv⟩
  · exact ⟨s, by rw [hs]; rfl, hinv⟩
  · exact ⟨s, by rw [hs]; rfl, hinv⟩

/-- **Main result.** Searching data, the walk stops at the first data block of the range. -/
theorem region_data (d : Dev) (k : ℕ) :
    DataCall d (k + 1) (recursiveFindRegion d.node false (k + 1)) := by
  induction k with
  | zero => exact region_data_step fun hcon => absurd rfl hcon
  | succ k ih => exact region_data_step fun _ => ih

/-! ### Ranges beyond the tree -/

theorem body_outside {rec : ℕ → ℕ → ℕ → Bool → Bool → Option Found} {page : ℕ} {search : Bool}
    (hi : 512 ≤ i) : regionBody d.node search rec k f l page i s = none := by
  exact if_pos hi

/-- The search for a hole is not left before its end. -/
theorem body_hole_ne {rec : ℕ → ℕ → ℕ → Bool → Bool → Option Found} {page : ℕ} {e : Unit} :
    regionBody d.node true rec k f l page i s ≠ some (r, some e) := by
  unfold regionBody
  simp only [Bool.true_eq_false, and_false, if_false, Bool.not_true, Bool.false_and,
    Bool.false_eq_true]
  split_ifs <;> simp

/-- Searching a hole, the walk runs out of the node when its last slot does. -/
theorem region_hole_outside (h1 : slotIndex f (k * 9) ≤ slotIndex l (k * 9))
    (h2 : 512 ≤ slotIndex l (k * 9)) :
    recursiveFindRegion d.node true (k + 1) p f l data hole = none := by
  by_cases hp : p = 0
  · rw [recursiveFindRegion, if_pos hp]
  rw [region_loop hp, Option.map_eq_none_iff, show slotIndex l (k * 9) + 1 - slotIndex f (k * 9) =
    slotIndex l (k * 9) - slotIndex f (k * 9) + 1 by omega]
  exact forLoop_crash_from (fun _ _ _ _ => body_hole_ne) (fun _ _ => body_outside) (by omega)

/-- Below its last slot a range gives each child what a full node gives it. -/
theorem body_clamp {rec : ℕ → ℕ → ℕ → Bool → Bool → Option Found} {page : ℕ} {search : Bool}
    (h : 512 ≤ slotIndex l (k * 9)) :
    regionBody d.node search rec k f l page i s =
      regionBody d.node search rec k f (512 ^ (k + 1) - 1) page i s := by
  have hpos : 0 < 512 ^ k := Nat.pow_pos (by omega)
  have hlt : 512 ^ (k + 1) - 1 < 512 ^ (k + 1) := Nat.sub_lt (Nat.pow_pos (by omega)) one_pos
  by_cases hi : i < 512
  · have hl : regionLast (k * 9) l i = 512 ^ k - 1 := by
      unfold regionLast
      rw [if_neg (by omega), one_shiftLeft_9]
    have hdiv : i ≤ (512 ^ (k + 1) - 1) / 512 ^ k := by
      rw [Nat.le_div_iff_mul_le hpos, pow_succ']
      calc i * 512 ^ k ≤ 511 * 512 ^ k := Nat.mul_le_mul_right _ (by omega)
        _ ≤ 512 * 512 ^ k - 1 := by omega
    have hfull := hi_full hdiv (Or.inr (by omega)) hlt
    have hr : regionLast (k * 9) (512 ^ (k + 1) - 1) i = 512 ^ k - 1 := by
      rw [regionLast_eq_hi hlt]
      omega
    simp only [regionBody, hl, hr]
  · rw [body_outside (not_lt.mp hi), body_outside (not_lt.mp hi)]

theorem DataRegion.extend (h : DataRegion m a b extra full hole r) (hab : a ≤ b) (hbc : b ≤ c)
    (hdata : r.dataFound = true) {full' : Prop} : DataRegion m a c extra full' hole r := by
  have hlt : first (m · ≠ 0) a b < b := by
    simpa only [h.data, decide_eq_true_eq] using hdata
  have hfirst : first (m · ≠ 0) a c = first (m · ≠ 0) a b := by
    rw [first_append hab hbc, if_pos hlt]
  constructor
  · rw [hdata, hfirst, decide_eq_true (hlt.trans_le hbc)]
  · rw [h.hole, hfirst]
  · intro _
    rw [h.blocks (Or.inl hlt), hfirst]

/-! ### The map of the tree -/

theorem slotIndex_of_lt (h : l / 512 ^ k < 2 ^ 32) : slotIndex l (k * 9) = l / 512 ^ k := by
  unfold slotIndex
  rw [shiftRight_9, Nat.mod_eq_of_lt h]

theorem DataRegion.congr (h : DataRegion m a b extra full hole r) (hab : a ≤ b)
    (hm : ∀ n, a ≤ n → n < b → m' n = m n) : DataRegion m' a b extra full hole r := by
  have hshift := h.shift (m := m') hab fun n ha hb => by rw [Nat.zero_add, hm n ha hb]
  rwa [Nat.zero_add, Nat.zero_add] at hshift

theorem DataRegion.weaken (h : DataRegion m a b extra full hole r) :
    DataRegion m a b extra False hole r :=
  ⟨h.data, h.hole, fun hlt => h.blocks (hlt.imp_right False.elim)⟩

/-- Searching data in a range that begins in the tree and ends beyond it, the walk finds data in the
tree or runs out of the node. -/
theorem data_outside (hole : Bool) (hp : p ≠ 0) (hf : f < 512 ^ (k + 1)) (hl : 512 ^ (k + 1) ≤ l)
    (hw : l / 512 ^ k < 2 ^ 32) :
    (∃ r, recursiveFindRegion d.node false (k + 1) p f l false hole = some r ∧ r.dataFound = true ∧
      DataRegion (find 512 (k + 1) (tree d (k + 1) p)) f (512 ^ (k + 1))
        (inGap 512 (k + 1) (tree d (k + 1) p) f) True hole r) ∨
    recursiveFindRegion d.node false (k + 1) p f l false hole = none ∧
      first (find 512 (k + 1) (tree d (k + 1) p) · ≠ 0) f (512 ^ (k + 1)) = 512 ^ (k + 1) := by
  have hpos : 0 < 512 ^ k := Nat.pow_pos (by omega)
  have hsucc : 512 ^ (k + 1) = 512 * 512 ^ k := pow_succ' 512 k
  have hfi : f / 512 ^ k < 512 := child_lt hf
  have hli : 512 ≤ l / 512 ^ k := (Nat.le_div_iff_mul_le hpos).mpr (hsucc ▸ hl)
  have hlast : (512 ^ (k + 1) - 1) / 512 ^ k = 511 := by
    rw [hsucc, Nat.div_eq_iff hpos]
    omega
  have hend : 512 ^ (k + 1) - 1 + 1 = 512 ^ (k + 1) := by omega
  have hrec : k ≠ 0 → DataCall d k (recursiveFindRegion d.node false k) := by
    intro hk
    obtain ⟨j, rfl⟩ : ∃ j, k = j + 1 := ⟨k - 1, by omega⟩
    exact region_data d j
  -- the walk up to the last slot of the node is the one for a full node
  have hloop := data_loop hole hrec hp (f := f) (l := 512 ^ (k + 1) - 1) (by omega) (by omega)
  rw [hend, hlast, ← forLoop_congr fun j s _ _ => body_clamp (by rwa [slotIndex_of_lt hw])] at hloop
  rw [region_loop hp, slotIndex_of_lt hw, slotIndex_eq hf,
    show l / 512 ^ k + 1 - f / 512 ^ k = 511 + 1 - f / 512 ^ k + (l / 512 ^ k - 512 + 1) by omega]
  rcases hloop with ⟨s, hs, hnone, hreg⟩ | ⟨s, e, hs, hdata, hreg⟩
  · refine Or.inr ⟨?_, ?_⟩
    · rw [forLoop_append hs, Option.elim_none, forLoop_crash (body_outside (by omega))]
      rfl
    · rw [hreg.data, decide_eq_false_iff_not] at hnone
      exact le_antisymm (first_le (by omega)) (not_lt.mp hnone)
  · refine Or.inl ⟨s, ?_, hdata, hreg.data, hreg.hole,
      fun h => hreg.blocks (h.imp_right fun _ => rfl)⟩
    rw [forLoop_append hs]
    rfl

/-! ### The tree of an inode -/

section OfInode

variable {pi : PmfsInode} (hh : pi.height ≠ 0)
include hh

theorem inode_hole (hroot : pi.root ≠ 0) (hfl : f ≤ l) (hlt : l < 512 ^ pi.height) :
    recursiveFindRegion d.node true pi.height pi.root f l data hole =
      some (holeRegion (mapped d pi) f (l + 1) data hole) := by
  obtain ⟨k, hk⟩ := Nat.exists_eq_succ_of_ne_zero hh
  unfold mapped treeOf
  rw [hk] at hlt ⊢
  have hshift : holeRegion (lookup 512 (k + 1) (tree d (k + 1) pi.root)) (0 + f)
    (0 + (l + 1)) data hole =
      holeRegion (find 512 (k + 1) (tree d (k + 1) pi.root)) f (l + 1) data hole :=
    holeRegion_shift (by omega) fun n _ hn => by rw [Nat.zero_add, lookup_of_lt (by omega)]
  rw [Nat.zero_add, Nat.zero_add] at hshift
  rw [region_hole d k pi.root f l data hole hroot hfl hlt, hshift]

theorem inode_hole_outside (hfl : f ≤ l) (hw : l < 2 ^ 32) (hl : 512 ^ pi.height ≤ l) :
    recursiveFindRegion d.node true pi.height pi.root f l data hole = none := by
  obtain ⟨k, hk⟩ := Nat.exists_eq_succ_of_ne_zero hh
  rw [hk] at hl ⊢
  have hdiv : f / 512 ^ k ≤ l / 512 ^ k := Nat.div_le_div_right hfl
  have hself := Nat.div_le_self l (512 ^ k)
  have hlim : 512 ≤ l / 512 ^ k := by
    rw [Nat.le_div_iff_mul_le (Nat.pow_pos (by omega)), ← pow_succ']
    exact hl
  refine region_hole_outside ?_ ?_
  · rwa [slotIndex_of_lt (by omega), slotIndex_of_lt (by omega)]
  · rwa [slotIndex_of_lt (by omega)]

/-- Searching data, the walk has an answer when there is data in the range or the range lies inside
of the tree. -/
theorem inode_data (hole : Bool) (hroot : pi.root ≠ 0) (hfl : f ≤ l) (hw : l < 2 ^ 32)
    (h : first (mapped d pi · ≠ 0) f (l + 1) ≤ l ∨ l < 512 ^ pi.height) :
    ∃ r, recursiveFindRegion d.node false pi.height pi.root f l false hole = some r ∧
      DataRegion (mapped d pi) f (l + 1) (inGap 512 pi.height (treeOf d pi) f) False hole r := by
  obtain ⟨k, hk⟩ := Nat.exists_eq_succ_of_ne_zero hh
  unfold mapped treeOf at h ⊢
  rw [hk] at h ⊢
  by_cases hlt : l < 512 ^ (k + 1)
  · obtain ⟨r, hr, hreg⟩ := region_data d k pi.root f l hole hroot hfl hlt
    exact ⟨r, hr, (hreg.congr (by omega) fun n _ hn => lookup_of_lt (by omega)).weaken⟩
  obtain ⟨n, hfn, hnl, hn⟩ := (first_lt_iff (by omega)).mp (Nat.lt_succ_of_le (h.resolve_right hlt))
  have hnt := lt_of_lookup_ne hn
  rw [lookup_of_lt hnt] at hn
  rcases data_outside hole hroot (hfn.trans_lt hnt) (not_lt.mp hlt)
    ((Nat.div_le_self _ _).trans_lt hw) with
    ⟨r, hr, hdata, hreg⟩ | ⟨-, hnone⟩
  · have hmap : DataRegion (lookup 512 (k + 1) (tree d (k + 1) pi.root)) _ _ _ _ _ _ :=
      hreg.congr (by omega) fun j _ hj => lookup_of_lt hj
    exact ⟨r, hr, hmap.extend (by omega) (by omega) hdata⟩
  · exact absurd hn ((first_eq_end_iff (by omega)).mp hnone n hfn hnt)

/-- Searching data in a range without data that leaves the tree, the walk runs out of the root. -/
theorem inode_data_none (hfl : f ≤ l) (hw : l < 2 ^ 32)
    (h : first (mapped d pi · ≠ 0) f (l + 1) = l + 1) (hl : 512 ^ pi.height ≤ l) :
    recursiveFindRegion d.node false pi.height pi.root f l false hole = none := by
  obtain ⟨k, hk⟩ := Nat.exists_eq_succ_of_ne_zero hh
  have hnone := (first_eq_end_iff (by omega)).mp h
  unfold mapped treeOf at hnone
  rw [hk] at hnone hl ⊢
  have hself := Nat.div_le_self l (512 ^ k)
  by_cases hroot : pi.root = 0
  · rw [recursiveFindRegion, if_pos hroot]
  by_cases hf : f < 512 ^ (k + 1)
  · refine ((data_outside hole hroot hf hl (by omega)).resolve_left ?_).1
    rintro ⟨r, -, hdata, hreg⟩
    rw [hreg.data, decide_eq_true_eq, first_lt_iff hf.le] at hdata
    obtain ⟨n, hfn, hnt, hn⟩ := hdata
    exact hnone n hfn (by omega) (by rwa [lookup_of_lt hnt])
  · have hfi : 512 ≤ f / 512 ^ k := by
      rw [Nat.le_div_iff_mul_le (Nat.pow_pos (by omega)), ← pow_succ']
      exact not_lt.mp hf
    have hdiv : f / 512 ^ k ≤ l / 512 ^ k := Nat.div_le_div_right hfl
    rw [region_loop hroot, slotIndex_of_lt (by omega), slotIndex_of_lt (by omega),
      show l / 512 ^ k + 1 - f / 512 ^ k = l / 512 ^ k - f / 512 ^ k + 1 by omega,
      forLoop_crash (body_outside hfi)]
    rfl

end OfInode

end Pmfs.Tree.Region
