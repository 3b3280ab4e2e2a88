import Pmfs.Tree.Extend
import Pmfs.Tree.Keeps

/-! # Offsets of pages

The slots of metadata blocks hold offsets of blocks, which are multiples of 4096. An allocation that
sets its blocks to zero keeps this of the blocks of a tree (`alloc_aligned`). -/

namespace Pmfs.Tree.Offsets

open Lib.Radix Lib.RadixMap Block.Model
open Tree.Model Tree.Own Tree.Inode Tree.Extend Tree.Keeps
open RTree

variable {d d' : Dev} {pi pi' : PmfsInode} {R U : Multiset ℕ} {t : BlkType} {h p n : ℕ}
  {o : Option Errno}

/-- The blocks in use that are not in `U` hold offsets of pages. -/
def Clean (U : Multiset ℕ) (d : Dev) : Prop :=
  ∃ M, Owns d M ∧ ∀ x ∈ M, x ∉ U → ∀ i, 4096 ∣ d.node x i

theorem dvd_blockOff (b : ℕ) : 4096 ∣ pmfsGetBlockOff b := by
  unfold pmfsGetBlockOff
  rw [Nat.shiftLeft_eq]
  exact Nat.dvd_mul_left _ _

theorem Clean.newBlock {r : Except Errno ℕ} (hc : Clean U d) (hr : d.newBlock t true = (r, d')) :
    Clean U d' := by
  obtain ⟨M, hM, halign⟩ := hc
  cases r with
  | error e =>
    obtain ⟨-, rfl⟩ := newBlock_error_eq hr
    exact ⟨M, hM.congr rfl, halign⟩
  | ok b =>
    have hnew := newBlock_owns hM hr
    refine ⟨runBlocks t b + M, hnew.owns, fun x hx hU i => ?_⟩
    rcases Multiset.mem_add.mp hx with hx | hx
    · rw [hnew.zeroed rfl x hx i]
      exact Nat.dvd_zero _
    · rw [hnew.frame.node x hx i]
      exact halign x hx hU i

theorem clean_kept (U : Multiset ℕ) (t : BlkType) : PlainRule (Clean U) (4096 ∣ ·)
    (fun _ => True) t true := by
  refine plainRule (fun {t' zero' d d' r} ht hc hr => ⟨?_, fun _ _ => trivial⟩)
    (fun {d page i v} hc hv => ?_) (fun hc => ⟨?_, id⟩) dvd_blockOff
  · obtain rfl : zero' = true := ht.elim And.right And.right
    exact hc.newBlock hr
  · obtain ⟨M, hM, halign⟩ := hc
    refine ⟨M, hM.congr rfl, fun x hx hU j => ?_⟩
    show 4096 ∣ if x = page ∧ j = i then v else d.node x j
    split_ifs
    · exact hv
    · exact halign x hx hU j
  · obtain ⟨M, hM, halign⟩ := hc
    exact ⟨M, hM.congr rfl, halign⟩

/-- The root and the slots of the blocks of an inode are offsets of pages. -/
structure Aligned (d : Dev) (pi : PmfsInode) : Prop where
  root : 4096 ∣ pi.root
  blocks : ∀ x ∈ inodeBlocks d pi, ∀ i, 4096 ∣ d.node x i

theorem find_dvd : ∀ {h p n : ℕ}, 4096 ∣ p → n < 512 ^ h →
    (∀ x ∈ blocks t (tree d h p), ∀ i, 4096 ∣ d.node x i) → 4096 ∣ find 512 h (tree d h p) n
  | 0, p, n, hp, _, _ => by
    by_cases h0 : p = 0
    · rw [h0, tree_null]
      exact Nat.dvd_zero _
    · rw [tree_leaf h0]
      exact hp
  | h + 1, p, n, hp, hn, hb => by
    by_cases h0 : p = 0
    · rw [h0, tree_null]
      exact Nat.dvd_zero _
    · have hslot : n / 512 ^ h < 512 := Nat.div_lt_of_lt_mul (by rw [pow_succ] at hn; exact hn)
      rw [tree_kids h0, blocks_node] at hb
      rw [tree_kids h0, find, kidsOf_eq _ hslot]
      refine find_dvd ?_ (Nat.mod_lt _ (by positivity)) fun x hx => ?_
      · exact hb _ (Multiset.mem_add.mpr (Or.inl (Multiset.mem_singleton_self _))) _
      · refine hb x (Multiset.mem_add.mpr (Or.inr ?_))
        rw [← kidsOf_eq _ hslot] at hx
        unfold kidBlocks
        rw [Multiset.mem_sum]
        exact ⟨n / 512 ^ h, Finset.mem_range.mpr hslot, hx⟩

theorem Aligned.mapped (ha : Aligned d pi) (n : ℕ) : 4096 ∣ mapped d pi n := by
  unfold Extend.mapped
  by_cases hn : n < 512 ^ pi.height
  · rw [lookup_of_lt hn]
    exact find_dvd ha.root hn ha.blocks
  · rw [lookup_of_le (Nat.le_of_not_lt hn)]
    exact Nat.dvd_zero _

/-- **Main result.** `__pmfs_alloc_blocks` for zeroed blocks keeps it. -/
theorem alloc_aligned {fileBlocknr num : ℕ} (hwf : WellFormed R d pi) (ha : Aligned d pi)
    (hrun : __pmfsAllocBlocks d pi fileBlocknr num true = some (d', pi', o))
    (hwf' : WellFormed R d' pi') :
    Aligned d' pi' := by
  have hclean : Clean R d := by
    refine ⟨inodeBlocks d pi + R, hwf.owns, fun x hx hR i => ?_⟩
    exact ha.blocks x ((Multiset.mem_add.mp hx).resolve_right hR) i
  obtain ⟨⟨-, -, ⟨M, hM, halign⟩, hroot⟩, -⟩ :=
    alloc_kept (clean_kept R pi.iBlkType) (w := ()) hclean ha.root rfl hrun
  refine ⟨hroot, fun x hx i => halign x ?_ ?_ i⟩
  · rw [hM.mem, ← hwf'.owns.mem]
    exact Multiset.mem_add.mpr (Or.inl hx)
  · exact Multiset.disjoint_left.mp (Multiset.nodup_add.mp hwf'.owns.nodup).2.2 hx

end Pmfs.Tree.Offsets
