import Pmfs.Replay.Model
import Pmfs.Tree.Inode

/-! # Entering an extent

Facts about single steps of `add_inode_index`: which chunks an extent has, what the loop over the
slots of an index page does, and that a result with `whole` unset stays so. -/

namespace Pmfs.Replay.Index

open Tree.Model Tree.Own Tree.Inode Replay.Model

/-- The device ids of the extents are those of devices: an id with the bits of device 0 is 0. -/
def Devices (l : List KernelfsExtent) : Prop := ∀ e ∈ l, e.dev = 0 → e.deviceId = 0

variable {e : KernelfsExtent} {l : List KernelfsExtent} {d : Dev} {pi : PmfsInode} {junk : ℕ → ℤ}
  {s s' : IndexLoop} {o : Option Unit} {page h p v f j n k : ℕ} {addr : ℕ → ℕ}

/-! ### The chunks of an extent -/

theorem offset_eq : e.offset = e.extBlock.toNat / 512 := Nat.shiftRight_eq_div_pow _ _

theorem endoff_eq : e.endoff = if 0 < e.extLen.toNat then
    (e.extBlock.toNat + e.extLen.toNat - 1) % 2 ^ 32 / 512 else e.extBlock.toNat / 512 := by
  have hgt : e.extLen > 0 ↔ 0 < e.extLen.toNat := UInt16.lt_iff_toNat_lt
  unfold KernelfsExtent.endoff
  simp only [hgt, Nat.shiftRight_eq_div_pow]

/-- When the flat case is taken, the extent lies in chunk 0. -/
theorem flat_range (hend : e.endoff < 512 ^ 0) (hlen : e.len ≤ 1) :
    e.offset = 0 ∧ e.endoff = 0 ∧ e.findex = e.extBlock.toNat ∧
    e.findex + e.extLen.toNat ≤ 512 := by
  have h1 := e.extBlock.toNat_lt
  have h2 := e.extLen.toNat_lt
  unfold KernelfsExtent.len at hlen
  unfold KernelfsExtent.findex
  have hoff := offset_eq (e := e)
  have hval := endoff_eq (e := e)
  rw [pow_zero] at hend
  split_ifs at hval <;> omega

theorem newHeight_spec (e : KernelfsExtent) (h : ℕ) : h ≤ newHeight e h ∧
    e.endoff < 512 ^ newHeight e h := by
  have hend : e.endoff < 512 ^ 8 := by
    have h1 := e.extBlock.toNat_lt
    unfold KernelfsExtent.endoff
    split_ifs <;> rw [Nat.shiftRight_eq_div_pow] <;> norm_num <;> omega
  let pi : PmfsInode := ⟨h, .b4K, 0, 0, 0, 0, 0, 0, 0, 0, 0, 0, 0, 0, 0, 0, 0⟩
  have hheight : newHeight e h = if e.endoff > 1 <<< (pi.height * 9) - 1 then
      pi.height + shiftsToZero 8 (e.endoff >>> (pi.height * 9)) else pi.height := rfl
  obtain ⟨h1, h2, -⟩ := allocHeight_spec hend hheight
  exact ⟨h1, h2⟩

theorem devOf_blocknr : devOf e.blocknr = e.dev := by
  unfold devOf KernelfsExtent.blocknr
  have h1 := e.extStartHi.toNat_lt
  have h2 := e.extStartLo.toNat_lt
  simp only [Nat.shiftRight_eq_div_pow, Nat.shiftLeft_eq]
  omega

/-! ### The slots of an index page -/

theorem fillSlots_succ (hj : j < 512) : fillSlots page addr (n + 1) j d =
    if d.node page j ≠ addr j then
      ((fillSlots page addr n (j + 1) (d.setSlot page j (addr j))).1,
        (fillSlots page addr n (j + 1) (d.setSlot page j (addr j))).2 + 1)
    else fillSlots page addr n (j + 1) d := by
  rw [fillSlots, Nat.div_eq_of_lt hj, Nat.mod_eq_of_lt hj, Nat.add_zero]

theorem fillSlots_node (hn : j + n ≤ 512) (y i : ℕ) : (fillSlots page addr n j d).1.node y i =
    if y = page ∧ j ≤ i ∧ i < j + n then addr i else d.node y i := by
  induction n generalizing j d with
  | zero => exact (if_neg (by omega)).symm
  | succ n ih =>
    rw [fillSlots_succ (by omega)]
    by_cases hne : d.node page j ≠ addr j
    · rw [if_pos hne]
      rw [ih (by omega), Dev.setSlot]
      dsimp only
      by_cases hij : i = j
      · subst hij
        rw [if_neg (by omega)]
        exact if_congr (by omega) rfl rfl
      · rw [if_neg (c := y = page ∧ i = j) fun hcon => hij hcon.2]
        exact if_congr (by omega) rfl rfl
    · rw [if_neg hne, ih (by omega)]
      by_cases hij : y = page ∧ i = j
      · obtain ⟨rfl, rfl⟩ := hij
        rw [if_neg (by omega), if_pos (by omega)]
        exact not_not.mp hne
      · exact if_congr (by omega) rfl rfl

theorem fillSlots_dev : (fillSlots page addr n j d).1.ba = d.ba ∧
    (fillSlots page addr n j d).1.mounting = d.mounting ∧
    (fillSlots page addr n j d).1.failures = d.failures := by
  induction n generalizing j d with
  | zero => exact ⟨rfl, rfl, rfl⟩
  | succ n ih =>
    unfold fillSlots
    split_ifs with hne
    · obtain ⟨h1, h2, h3⟩ := ih
      exact ⟨h1, h2, h3.trans failures_setSlot⟩
    · exact ih

theorem fillSlots_same (hn : j + n ≤ 512) (h : ∀ i, j ≤ i → i < j + n → d.node page i = addr i) :
    fillSlots page addr n j d = (d, 0) := by
  induction n generalizing j with
  | zero => rfl
  | succ n ih =>
    rw [fillSlots_succ (by omega), if_neg (not_not.mpr (h j le_rfl (by omega)))]
    exact ih (by omega) fun i h1 h2 => h i (by omega) (by omega)

theorem indexFlat_ok {r : Dev × ℕ} (hrun : indexFlat e page d = some r) :
    ¬ (e.extLen = 0 ∧ e.extBlock = 0) ∧
      r = fillSlots page (flatAddr e) e.extLen.toNat e.extBlock.toNat d := by
  unfold indexFlat at hrun
  by_cases hcond : e.extLen = 0 ∧ e.extBlock = 0
  · rw [if_pos hcond] at hrun
    simp at hrun
  · rw [if_neg hcond, Option.some.injEq] at hrun
    exact ⟨hcond, hrun.symm⟩

theorem indexLeaf_ok (h : indexLeaf e s v = some (s', o)) : devOf v = 0 ∧ o = none ∧ s' = { s with
      d := (fillSlots (pmfsGetBlocknr v) (treeAddr e) e.extLen.toNat e.findex s.d).1
      pi := if e.dev = 0 then addNvmblock s.pi (e.extLen.toNat + 1) else s.pi
      whole := s.whole && e.findex + e.extLen.toNat ≤ 512 } := by
  unfold indexLeaf at h
  by_cases hdev : devOf v ≠ 0
  · simp [if_pos hdev] at h
  · rw [if_neg hdev, Option.some.injEq, Prod.mk.injEq] at h
    exact ⟨not_not.mp hdev, h.2.symm, h.1.symm⟩

/-! ### Error exits -/

theorem leafBody_whole (hrun : indexLeafBody e page j s = some (s', o)) (hw : s'.whole = true) :
    s.whole = true := by
  have hleaf : ∀ {t v}, indexLeaf e t v = some (s', o) → t.whole = true := fun ht => by
    obtain ⟨-, -, rfl⟩ := indexLeaf_ok ht
    exact (Bool.and_eq_true_iff.mp hw).1
  unfold indexLeafBody at hrun
  dsimp only at hrun
  split_ifs at hrun
  · split at hrun
    · cases hrun
      simp at hw
    · have hwhole := hleaf hrun
      exact hwhole
  · exact hleaf hrun
  all_goals
    cases hrun
    first | exact hw | simp at hw

theorem metaBody_whole {rec : ℕ → ℕ → ℕ → Dev → PmfsInode → Option (Dev × PmfsInode × ℤ × Bool)}
    {bits last : ℕ} (hrun : indexMetaBody rec bits f last page j s = some (s', o))
    (hw : s'.whole = true) : s.whole = true := by
  have hfill : ∀ {x : Option (Dev × PmfsInode × ℤ × Bool)} {w : Bool}, x.map (fun r =>
      (({ d := r.1, pi := r.2.1, errval := r.2.2.1, whole := w && r.2.2.2 } : IndexLoop),
        if r.2.2.1 < 0 then some () else none)) = some (s', o) → w = true := fun hx => by
    obtain ⟨r, -, heq⟩ := Option.map_eq_some_iff.mp hx
    cases heq
    exact (Bool.and_eq_true_iff.mp hw).1
  unfold indexMetaBody at hrun
  split_ifs at hrun
  · split at hrun
    · cases hrun
      simp at hw
    · exact hfill hrun
  · exact hfill hrun

theorem recursiveIndexBlocks_root {last : ℕ} {r : Dev × PmfsInode × ℤ × Bool}
    (hrun : recursiveIndexBlocks e junk h p f last d pi = some r) : p ≠ 0 := by
  rintro rfl
  cases h with
  | zero => simp [recursiveIndexBlocks] at hrun
  | succ k => simp [recursiveIndexBlocks] at hrun

theorem replay_cons {r : Dev × PmfsInode} (hrun : replay junk (e :: l) d pi = some r) :
    ∃ d1 pi1 ret, addInodeIndex e junk d pi = some ⟨d1, pi1, ret, true⟩ ∧
    replay junk l d1 pi1 = some r := by
  rw [replay] at hrun
  rcases hone : addInodeIndex e junk d pi with _ | ⟨d1, pi1, ret, whole⟩
  · rw [hone] at hrun
    simp at hrun
  · rw [hone] at hrun
    cases whole with
    | false => simp at hrun
    | true => exact ⟨d1, pi1, ret, rfl, hrun⟩

end Pmfs.Replay.Index
