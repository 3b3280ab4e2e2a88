import Pmfs.Tree.Extend
import Pmfs.Tree.Keeps

/-! # How far an allocation gets

`__pmfs_alloc_blocks` first brings the tree to the height `topHeight` that the range needs, one
metadata block a level, and then fills the range (`alloc_phases`). So how far it gets depends on the
blocks that are free. `spare d j` is the device `d` with everything in use but `j` blocks: the file
does not notice (`wellFormed_spare`), but with a few blocks the tree stops at a height on the way
and maps nothing new (`alloc_scarce`), and with enough of them every index that is asked for gets
its block (`alloc_ample`). -/

namespace Pmfs.Tree.Supply

open Lib.Intervals Lib.Radix Lib.RadixMap Block.Model Block.Spec
open Tree.Model Tree.Own Tree.Inode Tree.Extend Tree.Keeps
open RTree

/-- The number of free blocks. -/
noncomputable def room (d : Dev) : ℕ := d.ba.blockEnd - (inUse d.ba).ncard

/-- The height that an allocation up to the index `last` brings the tree to; more than three levels
it does not try. -/
def topHeight (pi : PmfsInode) (last : ℕ) : ℕ :=
  if last < 512 ^ 3 then max pi.height (shiftsToZero 8 last) else pi.height

/-- The device with all its blocks in use, and `j` free ones behind them. -/
def spare (d : Dev) (j : ℕ) : Dev :=
  { d with
    ba := { d.ba with
      blockEnd := d.ba.blockEnd + j
      blockInuseHead := [⟨0, d.ba.blockEnd - 1⟩]
      numBlocknodeAllocated := 1 }
    slab := [] }

variable {d d' : Dev} {pi pi' : PmfsInode} {R M : Multiset ℕ} {S : ℕ → Prop} {t : BlkType}
  {o : Option Errno} {b h h' j k n p p' last : ℕ} {zero : Bool}

/-! ### Free blocks -/

theorem Owns.ncard (h : Owns d M) : (inUse d.ba).ncard = Multiset.card M := by
  have hset : inUse d.ba = (M.toFinset : Set ℕ) := by
    ext x
    rw [Finset.mem_coe, Multiset.mem_toFinset, h.mem]
  rw [hset, Set.ncard_coe_finset, Multiset.toFinset_card_of_nodup h.nodup]

theorem Owns.card_le (h : Owns d M) : Multiset.card M ≤ d.ba.blockEnd := by
  have hle : M.toFinset ⊆ Finset.range d.ba.blockEnd := by
    intro x hx
    rw [Multiset.mem_toFinset, h.mem] at hx
    exact Finset.mem_range.mpr (h.wf.lt_blockEnd hx)
  have := Finset.card_le_card hle
  rwa [Multiset.toFinset_card_of_nodup h.nodup, Finset.card_range] at this

theorem room_eq (h : Owns d M) : room d = d.ba.blockEnd - Multiset.card M := by
  rw [room, Owns.ncard h]

theorem card_runBlocks (t : BlkType) (b : ℕ) :
    Multiset.card (runBlocks t b) = pmfsGetNumblocks t := by
  unfold runBlocks
  rw [Finset.card_val, Nat.card_Ico]
  omega

theorem room_new (hM : Owns d M) (hnew : NewOwned d .b4K zero M b d') : room d' + 1 = room d := by
  have h1 := Owns.card_le hnew.owns
  rw [room_eq hM, room_eq hnew.owns, hnew.frame.blockEnd, Multiset.card_add, card_runBlocks]
  rw [hnew.frame.blockEnd, Multiset.card_add, card_runBlocks] at h1
  simp only [pmfsGetNumblocks] at h1 ⊢
  omega

theorem newBlock_ok_of_room (hM : Owns d M) (h : room d ≠ 0) (zero : Bool) :
    ∃ b d', d.newBlock .b4K zero = (.ok b, d') := by
  unfold room at h
  obtain ⟨a, s', hrun⟩ : ∃ a s', pmfsNewBlock d.ba .b4K (d.slab.headD true) = (.ok a, s') :=
    newBlock_4K_of_lt hM.wf (by omega)
  unfold Dev.newBlock
  rw [hrun]
  exact ⟨_, _, rfl⟩

theorem newBlock_full (hM : Owns d M) (h : room d = 0) (hr : d.newBlock t zero = (.ok b, d')) :
    False := by
  have hnew := newBlock_owns hM hr
  have h1 := Owns.card_le hnew.owns
  have hpos := numblocks_pos t
  rw [room_eq hM] at h
  rw [hnew.frame.blockEnd, Multiset.card_add, card_runBlocks] at h1
  omega

/-- The loop of `pmfs_increase_btree_height` adds as many levels as there are free blocks. -/
theorem increaseLoop_room : ∀ {n h p h' p' : ℕ} {d d' : Dev} {o : Option Errno},
    Owns d (blocks t (tree d h p) + R) → increaseLoop n d h p = (d', h', p', o) →
    h' = h + min n (room d) ∧ room d' = room d - min n (room d) ∧ (o = none ↔ n ≤ room d)
  | 0, h, p, h', p', d, d', o, _, hrun => by
    simp only [increaseLoop] at hrun
    cases hrun
    simp
  | n + 1, h, p, h', p', d, d', o, hown, hrun => by
    unfold increaseLoop at hrun
    by_cases h0 : room d = 0
    · rcases hr : d.newBlock .b4K true with ⟨r, d1⟩
      rw [hr] at hrun
      cases r with
      | ok b => exact (newBlock_full hown h0 hr).elim
      | error e =>
        obtain ⟨-, rfl⟩ := newBlock_error_eq hr
        cases hrun
        have hroom : room ({ d with slab := d.slab.tail } : Dev).noteNoMeta = room d := rfl
        rw [hroom, h0]
        simp
    · obtain ⟨b, d1, hr⟩ := newBlock_ok_of_room hown h0 true
      rw [hr] at hrun
      have hnew := newBlock_owns hown hr
      have hroom := room_new hown hnew
      have hext : Extends t R (fun _ => False) d (d1.setSlot b 0 p) h (h + 1) p
        (pmfsGetBlockOff b) :=
        newRoot_extends hnew
      have hset : room (d1.setSlot b 0 p) = room d1 := rfl
      obtain ⟨h1, h2, h3⟩ := increaseLoop_room hext.owns hrun
      rw [hset] at h1 h2 h3
      exact ⟨by omega, by omega, h3.trans (by omega)⟩

theorem increase_room {newHeight : ℕ} (hwf : WellFormed R d pi) (hle : pi.height ≤ newHeight)
    (hrun : pmfsIncreaseBtreeHeight d pi newHeight = (d', pi', o)) :
    pi'.height = min newHeight (pi.height + room d) ∧ room d' + pi'.height = room d + pi.height ∧
      (o = none ↔ newHeight ≤ pi.height + room d) := by
  rcases hloop : increaseLoop (newHeight - pi.height) d pi.height pi.root with ⟨d1, h₁, p1, o1⟩
  obtain ⟨h1, h2, h3⟩ := increaseLoop_room hwf.owns hloop
  unfold pmfsIncreaseBtreeHeight at hrun
  simp only [hloop] at hrun
  cases hrun
  refine ⟨?_, ?_, h3.trans (by omega)⟩
  · dsimp only
    omega
  · dsimp only
    omega

/-! ### The phases of an allocation -/

theorem topHeight_eq {height : ℕ} (h1 : pi.height ≤ height) (h2 : last < 512 ^ height)
    (hmin : ∀ k, pi.height ≤ k → last < 512 ^ k → height ≤ k) (h3 : height ≤ 3) :
    topHeight pi last = height := by
  have hlt : last < 512 ^ 3 := h2.trans_le (Nat.pow_le_pow_right (by norm_num) h3)
  have hiff : ∀ {k}, shiftsToZero 8 last ≤ k ↔ last < 512 ^ k :=
    shiftsToZero_le_iff (hlt.trans_le (Nat.pow_le_pow_right (by norm_num) (by norm_num)))
  unfold topHeight
  rw [if_pos hlt]
  refine le_antisymm (max_le h1 (hiff.mpr h2)) (hmin _ (le_max_left _ _) ?_)
  exact hiff.mp (le_max_right _ _)

theorem le_topHeight (pi : PmfsInode) (last : ℕ) : pi.height ≤ topHeight pi last := by
  unfold topHeight
  split_ifs
  · exact le_max_left _ _
  · exact le_rfl

theorem lt_topHeight (pi : PmfsInode) (h : last < 512 ^ 3) : last < 512 ^ topHeight pi last := by
  have hlt : last < 512 ^ 8 := h.trans_le (Nat.pow_le_pow_right (by norm_num) (by norm_num))
  unfold topHeight
  rw [if_pos h]
  exact (shiftsToZero_le_iff hlt).mp (le_max_right _ _)

/-- The two phases of `__pmfs_alloc_blocks`: more levels, as many as there are free blocks, and then
new data blocks. -/
theorem alloc_phases (fileBlocknr num : ℕ) (zero : Bool) (hwf : WellFormed R d pi) :
    ∃ d1 pi1 d' pi' o, __pmfsAllocBlocks d pi fileBlocknr num zero = some (d', pi', o) ∧
      Added R (fun _ => False) d pi d1 pi1 ∧
      pi1.height = min (topHeight pi (lastIndex pi fileBlocknr num)) (pi.height + room d) ∧
      room d1 + pi1.height = room d + pi.height ∧
      Added R (Asked pi fileBlocknr num) d1 pi1 d' pi' ∧ pi'.height = pi1.height ∧
      (pi1.height ≠ topHeight pi (lastIndex pi fileBlocknr num) → d' = d1 ∧ pi' = pi1) := by
  obtain ⟨height, h1, h2, hmin, ⟨h3, hrun⟩ |
      ⟨h3, ⟨hz, hroot, hrun⟩ | ⟨hz, hroot, hrun⟩ | ⟨hz, hrun⟩⟩⟩ :=
    alloc_cases d pi fileBlocknr num zero
  · have htop : topHeight pi (lastIndex pi fileBlocknr num) = pi.height := by
      refine if_neg fun hlt => ?_
      have := hmin 3 hwf.height hlt
      omega
    rw [htop]
    exact ⟨d, pi, d, pi, _, hrun, .refl hwf, by omega, rfl, .refl hwf, rfl, fun _ => ⟨rfl, rfl⟩⟩
  · have hp : pi.height = 0 := by omega
    rw [hz, pow_zero, Nat.lt_one_iff] at h2
    have hasked : Asked pi fileBlocknr num 0 :=
      ⟨by rw [h2]; norm_num, Nat.zero_le _, Or.inr ⟨hroot, h2⟩⟩
    have htop : topHeight pi (lastIndex pi fileBlocknr num) = 0 :=
      topHeight_eq (by omega) (by rw [h2]; norm_num) (fun k _ _ => Nat.zero_le k) (by norm_num)
    obtain ⟨d', pi', o, hfirst, hadd, -⟩ := firstBlock_added 0 zero hwf hroot h2 hasked
    have hheight : pi'.height = 0 := by
      unfold firstBlock pmfsNewDataBlock at hfirst
      rcases hr : d.newBlock pi.iBlkType zero with ⟨r, d1⟩
      rw [hr] at hfirst
      cases r with
      | error e =>
        simp only [Option.some.injEq, Prod.mk.injEq] at hfirst
        rw [← hfirst.2.1, hp]
      | ok b =>
        simp only [Option.some.injEq, Prod.mk.injEq] at hfirst
        rw [← hfirst.2.1]
    rw [htop, hrun]
    exact ⟨d, pi, d', pi', o, hfirst, .refl hwf, by omega, rfl, hadd, by omega,
      fun hne => absurd hp hne⟩
  · have hp : pi.height = 0 := by omega
    have htop := topHeight_eq h1 h2 hmin (h3 hwf.height)
    rw [htop, hz]
    exact ⟨d, pi, d, pi, none, hrun, .refl hwf, by omega, rfl, .refl hwf, rfl, fun _ => ⟨rfl, rfl⟩⟩
  · have h3 := h3 hwf.height
    have htop := topHeight_eq h1 h2 hmin h3
    rcases hinc : pmfsIncreaseBtreeHeight d pi height with ⟨d1, pi1, o1⟩
    obtain ⟨hadd, hnone⟩ := increase_added hwf h1 h3 hinc
    obtain ⟨hh, hroom, ho⟩ := increase_room hwf h1 hinc
    rw [hrun, htop, raiseFill, hinc]
    cases o1 with
    | some e => exact ⟨d1, pi1, d1, pi1, some e, rfl, hadd, hh, hroom, .refl hadd.wellFormed, rfl,
        fun _ => ⟨rfl, rfl⟩⟩
    | none =>
      have hheight := hnone rfl
      have hr : pi1.root ≠ 0 := fun hcon => by
        have := hadd.root hcon
        omega
      have hlt : lastIndex pi fileBlocknr num < 512 ^ 3 :=
        h2.trans_le (Nat.pow_le_pow_right (by norm_num) h3)
      rw [← hheight] at h2 hz
      obtain ⟨d', pi', o, hrec, hadd', hsame, -⟩ :=
        recursiveAlloc_added (S := Asked pi fileBlocknr num) zero (decide (pi.root = 0))
          hadd.wellFormed hr hz (fun n hn hn' => ⟨hlt, hn', Or.inl hn⟩) h2
      rw [hheight] at hrec
      exact ⟨d1, pi1, d', pi', o, hrec, hadd, hh, hroom, hadd', hsame,
        fun hne => absurd hheight hne⟩

/-- A range that three levels do not hold is refused. -/
theorem alloc_beyond {fileBlocknr num : ℕ} (hh : pi.height ≤ 3)
    (h : 512 ^ 3 ≤ lastIndex pi fileBlocknr num) : __pmfsAllocBlocks d pi fileBlocknr num zero =
    some (d, pi, some .ENOSPC) := by
  obtain ⟨height, -, h2, -, ⟨-, hrun⟩ | ⟨h3, -⟩⟩ := alloc_cases d pi fileBlocknr num zero
  · exact hrun
  · exact absurd (h2.trans_le (Nat.pow_le_pow_right (by norm_num) (h3 hh))) (not_lt.mpr h)

/-- The height only grows, and when there is a new data block it is the one that is needed. -/
theorem alloc_height (fileBlocknr num : ℕ) (zero : Bool) (hwf : WellFormed R d pi)
    (hrun : __pmfsAllocBlocks d pi fileBlocknr num zero = some (d', pi', o)) :
    pi.height ≤ pi'.height ∧ pi'.height ≤ topHeight pi (lastIndex pi fileBlocknr num) ∧
      ∀ n, mapped d' pi' n ≠ mapped d pi n →
        pi'.height = topHeight pi (lastIndex pi fileBlocknr num) := by
  obtain ⟨d1, pi1, d2, pi2, o2, hrun2, hadd, hh, -, -, hheight, hstop⟩ :=
    alloc_phases fileBlocknr num zero hwf
  rw [hrun] at hrun2
  cases hrun2
  have hle := le_topHeight pi (lastIndex pi fileBlocknr num)
  refine ⟨by omega, by omega, fun n hne => ?_⟩
  by_contra hcon
  obtain ⟨rfl, rfl⟩ := hstop (by omega)
  exact hne (hadd.ext.outside n id)

/-! ### Few free blocks -/

theorem added_full (hwf : WellFormed R d pi) (g : Added R S d pi d' pi') (h : room d = 0) (n : ℕ) :
    mapped d' pi' n = mapped d pi n := by
  by_cases h0 : mapped d pi n = 0
  · rw [h0]
    by_contra h1
    have hle := Multiset.card_le_card (g.ext.fresh n h0 h1)
    have hcard := Owns.card_le g.ext.owns
    have hpos := numblocks_pos pi.iBlkType
    rw [room_eq hwf.owns] at h
    rw [g.ext.frame.blockEnd] at hcard
    unfold inodeBlocks treeOf at h
    rw [Multiset.card_add] at h hcard
    rw [Multiset.card_add, card_runBlocks] at hle
    omega
  · exact g.ext.keeps n h0

/-- With as many free blocks as there are levels missing to a height, the tree comes to that height.
-/
theorem alloc_scarce (fileBlocknr num : ℕ) (zero : Bool) (hwf : WellFormed R d pi)
    (hk : pi.height ≤ k) (htop : k ≤ topHeight pi (lastIndex pi fileBlocknr num))
    (hroom : room d = k - pi.height) : ∃ d' pi' o, __pmfsAllocBlocks d pi fileBlocknr num zero =
    some (d', pi', o) ∧ pi'.height = k ∧
      ∀ n, mapped d' pi' n = mapped d pi n := by
  obtain ⟨d1, pi1, d', pi', o, hrun, hadd, hh, hroom1, hadd', hheight, -⟩ :=
    alloc_phases fileBlocknr num zero hwf
  refine ⟨d', pi', o, hrun, by omega, fun n => ?_⟩
  rw [added_full hadd.wellFormed hadd' (by omega)]
  exact hadd.ext.outside n id

/-! ### Many free blocks -/

/-- No 1G of the device is free. -/
def Stuck (d : Dev) : Prop := ∀ a, 0x40000 ∣ a → a + 0x40000 ≤ d.ba.blockEnd →
  ¬ Disjoint (run a 0x40000) (inUse d.ba)

/-- What an allocation needs to fail for want of blocks only. -/
structure Steady (d : Dev) : Prop where
  wf : Wf d.ba
  slab : SlabOk d

theorem Steady.congr (h : Steady d) (hba : d'.ba = d.ba) (hs : d'.slab = d.slab) : Steady d' := by
  refine ⟨hba ▸ h.wf, ?_⟩
  unfold SlabOk
  rw [hs]
  exact h.slab

theorem numblocks_dvd (t : BlkType) : pmfsGetNumblocks t ∣ 0x40000 := by
  cases t <;> decide

theorem newBlock_steady {r : Except Errno ℕ} (hd : Steady d) (hr : d.newBlock t zero = (r, d')) :
    Steady d' ∧ (∀ e, r = .error e → Stuck d') := by
  unfold Dev.newBlock at hr
  rcases hrun : pmfsNewBlock d.ba t (d.slab.headD true) with ⟨r1, ba⟩
  rw [hrun] at hr
  cases r1 with
  | ok b =>
    have hwf : Wf ba := (newBlock_ok hd.wf hrun).wf
    cases hr
    refine ⟨?_, fun e he => by simp at he⟩
    split_ifs
    · exact ⟨hwf, hd.slab.tail⟩
    · exact ⟨hwf, hd.slab.tail⟩
  | error e =>
    rw [hd.slab.headD] at hrun
    obtain ⟨rfl, rfl⟩ := newBlock_error hrun
    have hfull := (newBlock_enospc_iff hd.wf).mp (by rw [hrun])
    cases hr
    refine ⟨⟨hd.wf, hd.slab.tail⟩, fun _ _ a ha hle hdis => ?_⟩
    dsimp only at hle hdis
    have hnum := Nat.le_of_dvd (by norm_num) (numblocks_dvd t)
    refine hfull a ((numblocks_dvd t).trans ha) (by omega) (hdis.mono_left fun x hx => ?_)
    have := mem_run.mp hx
    exact mem_run.mpr ⟨this.1, by omega⟩

/-- It fails only when the device is full of blocks in use. -/
theorem steady_kept (t : BlkType) (zero : Bool) : PlainRule Steady (fun _ => True) Stuck t zero :=
  plainRule (fun _ => newBlock_steady) (fun h _ => h.congr rfl rfl) (fun h => ⟨h.congr rfl rfl, id⟩)
    fun _ => trivial

/-- A device without a free 1G has a block in use in every 1G. -/
theorem stuck_card (hM : Owns d M) (h : Stuck d) : d.ba.blockEnd / 0x40000 ≤ Multiset.card M := by
  have hsub : Finset.range (d.ba.blockEnd / 0x40000) ⊆ M.toFinset.image (· / 0x40000) := by
    intro c hc
    have hlt := Finset.mem_range.mp hc
    obtain ⟨x, hx, hx'⟩ :=
      Set.not_disjoint_iff.mp (h (c * 0x40000) (Dvd.intro_left c rfl) (by omega))
    have hrun := mem_run.mp hx
    exact Finset.mem_image.mpr ⟨x, Multiset.mem_toFinset.mpr ((hM.mem x).mpr hx'), by omega⟩
  have hle := (Finset.card_le_card hsub).trans Finset.card_image_le
  rwa [Finset.card_range, Multiset.toFinset_card_of_nodup hM.nodup] at hle

/-- The most blocks that a tree of the height can have. -/
def maxBlocks : ℕ → ℕ
  | 0 => 0x40000
  | h + 1 => 1 + 512 * maxBlocks h

theorem card_blocks_le : ∀ {h p : ℕ}, Multiset.card (blocks t (tree d h p)) ≤ maxBlocks h
  | 0, p => by
    by_cases hp : p = 0
    · rw [hp, tree_null, blocks_empty, Multiset.card_zero]
      exact Nat.zero_le _
    · rw [tree_leaf hp, blocks_leaf, card_runBlocks, maxBlocks]
      exact Nat.le_of_dvd (by norm_num) (numblocks_dvd t)
  | h + 1, p => by
    by_cases hp : p = 0
    · rw [hp, tree_null, blocks_empty, Multiset.card_zero]
      exact Nat.zero_le _
    · have hkid : ∀ i ∈ Finset.range 512,
        Multiset.card (blocks t (kidsOf d h p i)) ≤ maxBlocks h := by
        intro i hi
        rw [kidsOf_eq i (Finset.mem_range.mp hi)]
        exact card_blocks_le
      have hsum := Finset.sum_le_card_nsmul _ _ _ hkid
      rw [Finset.card_range, nsmul_eq_mul, Nat.cast_id] at hsum
      rw [tree_kids hp, blocks_node, Multiset.card_add, Multiset.card_singleton, kidBlocks,
        Multiset.card_sum, maxBlocks]
      omega

theorem maxBlocks_mono : Monotone maxBlocks := by
  refine monotone_nat_of_le_succ fun h => ?_
  rw [maxBlocks]
  omega

/-! ### The device with spare blocks -/

theorem inUse_spare (h : 0 < d.ba.blockEnd) {x : ℕ} : x ∈ inUse (spare d j).ba ↔
    x < d.ba.blockEnd := by
  simp only [inUse, spare, mem_covered_cons, covered_nil, Set.mem_empty_iff_false, or_false]
  omega

theorem wf_spare (h : 0 < d.ba.blockEnd) : Wf (spare d j).ba := by
  refine ⟨canon_cons.mpr ⟨le_rfl, Nat.zero_le _, ?_, by simp⟩, rfl, rfl⟩
  simp only [spare]
  omega

theorem slabOk_spare : SlabOk (spare d j) := by
  intro b hb
  simp [spare] at hb

/-- The file is the same on the device with spare blocks. -/
theorem wellFormed_spare (j : ℕ) (hwf : WellFormed R d pi) : ∃ R', WellFormed R' (spare d j) pi ∧
    room (spare d j) = j ∧ Multiset.card R' ≤ d.ba.blockEnd := by
  have hpos : 0 < d.ba.blockEnd := hwf.owns.wf.lt_blockEnd hwf.owns.wf.zero_mem
  have hnodup := (Multiset.nodup_add.mp hwf.owns.nodup).1
  have hle : inodeBlocks d pi ≤ (Finset.range d.ba.blockEnd).val := by
    refine (Multiset.le_iff_subset hnodup).mpr fun x hx => ?_
    have hin := (hwf.owns.mem x).mp (Multiset.mem_add.mpr (Or.inl hx))
    exact Finset.mem_range.mpr (hwf.owns.wf.lt_blockEnd hin)
  have hown : Owns (spare d j) (Finset.range d.ba.blockEnd).val := by
    refine ⟨wf_spare hpos, Finset.nodup _, fun x => ?_⟩
    rw [inUse_spare hpos, Finset.mem_val, Finset.mem_range]
  refine ⟨(Finset.range d.ba.blockEnd).val - inodeBlocks d pi, ⟨?_, hwf.root, hwf.height⟩, ?_, ?_⟩
  · rw [show inodeBlocks (spare d j) pi = inodeBlocks d pi from rfl, add_tsub_cancel_of_le hle]
    exact hown
  · rw [room_eq hown, Finset.card_val, Finset.card_range]
    simp only [spare]
    omega
  · refine (Multiset.card_le_card (Multiset.sub_le_self _ _)).trans_eq ?_
    rw [Finset.card_val, Finset.card_range]

/-- There is room for the largest tree beside `R`, and no allocation fails for want of a blocknode.
-/
structure Ample (R : Multiset ℕ) (d : Dev) : Prop where
  slab : SlabOk d
  large : Multiset.card R + maxBlocks 3 < d.ba.blockEnd / 0x40000

theorem ample_spare (hwf : WellFormed R d pi) : ∃ R' j, WellFormed R' (spare d j) pi ∧
    Ample R' (spare d j) := by
  obtain ⟨R', hwf', -, hcard⟩ := wellFormed_spare (0x40000 * (d.ba.blockEnd + maxBlocks 3 + 1)) hwf
  refine ⟨R', _, hwf', slabOk_spare, ?_⟩
  have hend : (spare d (0x40000 * (d.ba.blockEnd + maxBlocks 3 + 1))).ba.blockEnd =
    d.ba.blockEnd + 0x40000 * (d.ba.blockEnd + maxBlocks 3 + 1) := rfl
  rw [hend]
  omega

/-- Then an allocation that stays below the largest size succeeds. -/
theorem alloc_of_ample {fileBlocknr num : ℕ} (hwf : WellFormed R d pi) (h : Ample R d)
    (hlast : lastIndex pi fileBlocknr num < 512 ^ 3)
    (hrun : __pmfsAllocBlocks d pi fileBlocknr num zero = some (d', pi', o)) :
    o = none ∧ Ample R d' := by
  obtain ⟨hadd, -⟩ := alloc_run hwf hrun
  obtain ⟨⟨-, -, hsteady, -⟩, -, hfail⟩ :=
    alloc_kept (steady_kept _ zero) (w := ()) ⟨hwf.owns.wf, h.slab⟩ trivial rfl hrun
  have hlarge := h.large
  have hend := hadd.ext.frame.blockEnd
  refine ⟨?_, hsteady.slab, by rw [hend]; exact hlarge⟩
  by_contra hne
  have hstuck := stuck_card hadd.ext.owns (hfail hwf.height hlast hne)
  have htree : Multiset.card (blocks pi.iBlkType (tree d' pi'.height pi'.root)) ≤ maxBlocks 3 :=
    card_blocks_le.trans (maxBlocks_mono hadd.height)
  rw [hend, Multiset.card_add] at hstuck
  omega

/-- On some device with this file, an allocation that stays below the largest size succeeds. -/
theorem alloc_succeeds (fileBlocknr num : ℕ) (zero : Bool) (hwf : WellFormed R d pi)
    (hlast : lastIndex pi fileBlocknr num < 512 ^ 3) : ∃ R' j d' pi', WellFormed R' (spare d j) pi ∧
      __pmfsAllocBlocks (spare d j) pi fileBlocknr num zero = some (d', pi', none) := by
  obtain ⟨R', j, hwf', hample⟩ := ample_spare hwf
  obtain ⟨d', pi', o, hrun, -⟩ := alloc_added fileBlocknr num zero hwf'
  obtain ⟨rfl, -⟩ := alloc_of_ample hwf' hample hlast hrun
  exact ⟨R', j, d', pi', hwf', hrun⟩

/-- On some device with this file, every index that is asked for gets its block. -/
theorem alloc_ample (fileBlocknr num : ℕ) (zero : Bool) (hwf : WellFormed R d pi) :
    ∃ R' j d' pi' o, WellFormed R' (spare d j) pi ∧
      __pmfsAllocBlocks (spare d j) pi fileBlocknr num zero = some (d', pi', o) ∧
      ∀ n, Asked pi fileBlocknr num n → mapped d' pi' n ≠ 0 := by
  by_cases hlast : lastIndex pi fileBlocknr num < 512 ^ 3
  swap
  · obtain ⟨R', hwf', -⟩ := wellFormed_spare 0 hwf
    obtain ⟨d', pi', o, hrun, -⟩ := alloc_added fileBlocknr num zero hwf'
    exact ⟨R', 0, d', pi', o, hwf', hrun, fun n hasked => absurd hasked.1 hlast⟩
  obtain ⟨R', j, d', pi', hwf', hrun⟩ := alloc_succeeds fileBlocknr num zero hwf hlast
  obtain ⟨-, hfill⟩ := alloc_run hwf' hrun
  refine ⟨R', j, d', pi', none, hwf', hrun, fun n hasked => ?_⟩
  obtain ⟨hfilled, hlt⟩ := hfill rfl
  obtain ⟨-, hn, hfirst⟩ := hasked
  rw [mapped, lookup_of_lt (hn.trans_lt hlt)]
  rcases hfirst with hfirst | ⟨hroot, h0⟩
  · exact hfilled.find_ne_zero (by norm_num) uniform_tree hfirst hn
  · -- a file without a block stays at height 0, where the range does not matter
    obtain ⟨-, hle, -⟩ := alloc_height fileBlocknr num zero hwf' hrun
    have hheight : pi'.height = 0 := by
      rw [h0, topHeight, if_pos (by norm_num), hwf.root hroot] at hle
      simpa [shiftsToZero] using hle
    have hu : Uniform 512 pi'.height (treeOf d' pi') := uniform_tree
    rw [hheight] at hfilled hu ⊢
    refine Filled.find_ne_zero (by norm_num) ?_ hu (Nat.zero_le n) le_rfl
    cases htree : treeOf d' pi' with
    | empty => simp [htree, Filled] at hfilled
    | leaf p => trivial
    | node p c => simp [htree, Filled] at hfilled

end Pmfs.Tree.Supply
