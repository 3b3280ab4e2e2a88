import Pmfs.Inodes.Blocks
import Pmfs.Itable.Select
import Pmfs.Lib.RadixSize
import Pmfs.Tree.Retry
import Mathlib.Data.Nat.Count

/-! # The growth loop of `alloc_addr_info`

The first grant makes the inode table grow until there are as many free inodes as the client asks
for. The loop does not look at the result of `pmfs_increase_inode_table_size`, so that it ends only
when enough growths succeed; `lacking` is their number. A growth of a table of 4K blocks needs one
block and the metadata blocks on the way to it. What the table gets the device loses, so that
growths succeed as long as the larger table has no more blocks than the present one and the free
ones together (`TableOk.growths`). With the transactions of the journal and the range of the counter
that is the condition for the loop to end (`grant_ends_iff`). -/

namespace Pmfs.Itable.Growth

open Lib.Intervals Lib.Radix Lib.RadixMap Block.Spec Block.Model Tree.Model Tree.Own Tree.Inode
open Tree.Extend Tree.Supply Tree.Keeps Tree.Retry Inodes.Model Inodes.Blocks
open Itable.Select (inodesPerBlock_pos)

variable {fs fs' : Fs} {d d' : Dev} {pi pi' : PmfsInode} {A A' R : Multiset ℕ} {num : UInt32}
  {trans : ℕ → Option Errno} {o : Option Errno} {f n m k r N last : ℕ}

/-! ### The loop -/

/-- The loop, for at most `f` tests of its condition. The outcomes of `pmfs_new_transaction` in the
rounds are given by `trans`. -/
def growLoop (num : UInt32) : ℕ → (ℕ → Option Errno) → Fs → Option Fs
  | 0, _, _ => none
  | f + 1, trans, fs =>
    if fs.sbi.sFreeInodesCount < num then
      (pmfsIncreaseInodeTableSize fs (trans 0)).bind fun r =>
        growLoop num f (fun i => trans (i + 1)) r.1
    else some fs

/-- The inode part of `alloc_addr_info`: the file system, and the base that the client gets. -/
def grantInodes (fs : Fs) (base : ℕ) (num : UInt32) (trans : ℕ → Option Errno) (f : ℕ) :
    Option (Fs × ℕ) :=
  if base = 0 then
    (growLoop num f trans fs).map fun fs =>
      ({ fs with sbi := { fs.sbi with sFreeInodeHint := num + 1 } },
        fs.sbi.sFreeInodeHint.toNat <<< 7 % 2 ^ 32)
  else some (fs, base)

/-- Some rounds of the loop. -/
def rounds : ℕ → (ℕ → Option Errno) → Fs → Option Fs
  | 0, _, fs => some fs
  | n + 1, trans, fs =>
    (pmfsIncreaseInodeTableSize fs (trans 0)).bind fun r => rounds n (fun i => trans (i + 1)) r.1

/-- The loop ends after some rounds that leave enough free inodes. -/
theorem growLoop_ends_iff : (∃ f r, growLoop num f trans fs = some r) ↔
    ∃ n fs', rounds n trans fs = some fs' ∧ num ≤ fs'.sbi.sFreeInodesCount := by
  constructor
  · rintro ⟨f, r, h⟩
    induction f generalizing trans fs with
    | zero => simp [growLoop] at h
    | succ f ih =>
      rw [growLoop] at h
      split_ifs at h with hlt
      · obtain ⟨s, hs, hrest⟩ := Option.bind_eq_some_iff.mp h
        obtain ⟨n, fs', hrun, hnum⟩ := ih hrest
        exact ⟨n + 1, fs', by rw [rounds, hs, Option.bind_some, hrun], hnum⟩
      · exact ⟨0, fs, rfl, UInt32.not_lt.mp hlt⟩
  · rintro ⟨n, fs', hrun, hnum⟩
    induction n generalizing trans fs with
    | zero =>
      obtain rfl := Option.some.inj hrun
      exact ⟨1, fs, if_neg (UInt32.not_lt.mpr hnum)⟩
    | succ n ih =>
      by_cases hlt : fs.sbi.sFreeInodesCount < num
      · obtain ⟨s, hs, hrest⟩ := Option.bind_eq_some_iff.mp hrun
        obtain ⟨f, r, h⟩ := ih hrest
        exact ⟨f + 1, r, by rw [growLoop, if_pos hlt, hs, Option.bind_some, h]⟩
      · exact ⟨1, fs, if_neg hlt⟩

/-! ### Growths -/

/-- Growths of the table with the journal at hand: the file system, and how many of them succeed. -/
def growths : ℕ → Fs → Option (Fs × ℕ)
  | 0, fs => some (fs, 0)
  | n + 1, fs =>
    (pmfsIncreaseInodeTableSize fs none).bind fun r =>
      (growths n r.1).map fun s => (s.1, s.2 + if r.2 = none then 1 else 0)

/-- The transactions that the journal opens in some rounds. -/
def opened (trans : ℕ → Option Errno) (n : ℕ) : ℕ := Nat.count (fun i => trans i = none) n

theorem rounds_eq (n : ℕ) : ∀ (trans : ℕ → Option Errno) (fs : Fs),
    rounds n trans fs = (growths (opened trans n) fs).map fun r => r.1 := by
  induction n with
  | zero => exact fun trans fs => rfl
  | succ n ih =>
    intro trans fs
    have hcount := Nat.count_succ' (fun i => trans i = none) n
    unfold opened at ih ⊢
    rw [rounds, hcount]
    rcases htrans : trans 0 with - | e
    · rw [if_pos rfl, growths]
      rcases pmfsIncreaseInodeTableSize fs none with - | r
      · rfl
      · rw [Option.bind_some, Option.bind_some, ih, Option.map_map]
        rfl
    · rw [if_neg (by simp), Nat.add_zero]
      exact ih _ fs

theorem increase_free {err : Option Errno} (h : pmfsIncreaseInodeTableSize fs err = some (fs', o))
    (herr : err = none) : fs'.inodeTable.iBlkType = fs.inodeTable.iBlkType ∧
    fs'.sbi.sFreeInodesCount = fs.sbi.sFreeInodesCount +
      UInt32.ofNat ((if o = none then 1 else 0) * inodesPerBlock fs.inodeTable.iBlkType) := by
  unfold pmfsIncreaseInodeTableSize at h
  rcases hrun : __pmfsAllocBlocks fs.dev fs.inodeTable (fs.inodeTable.iSize >>> 12) 1 true
    with - | ⟨d, pi, _ | e⟩
  · rw [hrun] at h
    subst herr
    exact absurd h.symm (Option.some_ne_none _)
  · have htype := alloc_blkType hrun
    rw [hrun] at h
    subst herr
    cases h
    refine ⟨htype, ?_⟩
    rw [if_pos rfl, Nat.one_mul, ← htype]
  · have htype := alloc_blkType hrun
    rw [hrun] at h
    subst herr
    cases h
    refine ⟨htype, ?_⟩
    rw [if_neg (Option.some_ne_none e), Nat.zero_mul, show UInt32.ofNat 0 = 0 from rfl,
      UInt32.add_zero]

/-- An allocation that fails, in `pmfs_increase_inode_table_size`. -/
theorem increase_error {d : Dev} {pi : PmfsInode} {e : Errno} {err : Option Errno}
    (hrun : __pmfsAllocBlocks fs.dev fs.inodeTable (fs.inodeTable.iSize >>> 12) 1 true =
    some (d, pi, some e)) (herr : err = none) :
    pmfsIncreaseInodeTableSize fs err = some ({ fs with dev := d, inodeTable := pi }, some e) := by
  unfold pmfsIncreaseInodeTableSize
  rw [hrun]
  subst herr
  rfl

theorem increase_ok {err : Option Errno}
    (hrun : __pmfsAllocBlocks fs.dev fs.inodeTable (fs.inodeTable.iSize >>> 12) 1 true =
      some (d, pi, none)) (herr : err = none) :
    ∃ sbi, pmfsIncreaseInodeTableSize fs err = some ({ fs with
      dev := d
      inodeTable := { pi with iSize := pi.iSize + pmfsInodeBlkSize pi }
      sbi := sbi }, none) := by
  unfold pmfsIncreaseInodeTableSize
  rw [hrun]
  subst herr
  exact ⟨_, rfl⟩

theorem growths_free : ∀ {n k : ℕ} {fs fs' : Fs}, growths n fs = some (fs', k) →
    fs'.sbi.sFreeInodesCount = fs.sbi.sFreeInodesCount +
      UInt32.ofNat (k * inodesPerBlock fs.inodeTable.iBlkType)
  | 0, k, fs, fs', h => by
    cases h
    rw [Nat.zero_mul, show UInt32.ofNat 0 = 0 from rfl, UInt32.add_zero]
  | n + 1, k, fs, fs', h => by
    rw [growths] at h
    obtain ⟨⟨fs1, o⟩, h₁, h⟩ := Option.bind_eq_some_iff.mp h
    obtain ⟨⟨fs2, k2⟩, h₂, heq⟩ := Option.map_eq_some_iff.mp h
    cases heq
    obtain ⟨htype, hfree⟩ := increase_free h₁ rfl
    rw [growths_free h₂, hfree, htype, Nat.add_mul, Nat.add_comm (k2 * _), UInt32.ofNat_add,
      UInt32.add_assoc]

/-! ### Enough growths -/

/-- Every number of open transactions up to the last is met on the way. -/
theorem opened_exact (h : m ≤ opened trans n) : ∃ n', opened trans n' = m := by
  induction n with
  | zero =>
    refine ⟨0, ?_⟩
    unfold opened at h ⊢
    rw [Nat.count_zero] at h ⊢
    omega
  | succ n ih =>
    by_cases hle : m ≤ opened trans n
    · exact ih hle
    · refine ⟨n + 1, le_antisymm ?_ h⟩
      unfold opened at h hle ⊢
      rw [Nat.count_succ] at h ⊢
      split_ifs at h ⊢ <;> omega

/-- The number of growths that bring the free inodes to `num`. -/
def lacking (fs : Fs) (num : UInt32) : ℕ :=
  (num.toNat - fs.sbi.sFreeInodesCount.toNat + inodesPerBlock fs.inodeTable.iBlkType - 1) /
    inodesPerBlock fs.inodeTable.iBlkType

/-- The counter wraps around at 2³², which is a multiple of a growth. -/
theorem lacking_le {c N p s : ℕ} (hp : 0 < p) (hdvd : p ∣ 2 ^ 32) (hc : c < 2 ^ 32)
    (h : N ≤ (c + s * p) % 2 ^ 32) : c + (N - c + p - 1) / p * p < 2 ^ 32 ∧
    (N - c + p - 1) / p ≤ s := by
  by_cases hle : N ≤ c
  · rw [Nat.sub_eq_zero_of_le hle, Nat.zero_add, Nat.div_eq_of_lt (by omega)]
    exact ⟨by omega, Nat.zero_le s⟩
  obtain ⟨q, hq⟩ := hdvd
  have hlt : (c + s * p) % 2 ^ 32 < 2 ^ 32 := Nat.mod_lt _ (by decide)
  have hdiv := Nat.mod_add_div (c + s * p) (2 ^ 32)
  generalize (c + s * p) % 2 ^ 32 = v at h hlt hdiv
  generalize (c + s * p) / 2 ^ 32 = w at hdiv
  -- the value is `u` growths above the counter
  obtain ⟨u, hu, hus⟩ : ∃ u, v = c + u * p ∧ u ≤ s := by
    refine ⟨s - q * w, ?_, Nat.sub_le _ _⟩
    have hmul : 2 ^ 32 * w = q * w * p := by rw [hq, Nat.mul_assoc, Nat.mul_comm p]
    rw [Nat.sub_mul]
    omega
  have hround : (N - c + p - 1) / p ≤ u := by
    refine Nat.lt_succ_iff.mp (Nat.div_lt_of_lt_mul ?_)
    rw [Nat.mul_succ, Nat.mul_comm p u]
    omega
  have hmul := Nat.mul_le_mul_right p hround
  exact ⟨by omega, hround.trans hus⟩

theorem le_lacking {c N p : ℕ} (hp : 0 < p) : N ≤ c + (N - c + p - 1) / p * p := by
  have h := Nat.lt_mul_div_succ (N - c + p - 1) hp
  rw [Nat.mul_succ, Nat.mul_comm p] at h
  omega

theorem inodesPerBlock_dvd (t : BlkType) : inodesPerBlock t ∣ 2 ^ 32 := by
  cases t <;> decide

/-! ### The blocks of the table -/

/-- An inode table with `N` blocks of 4K, all of them there and none behind them, in a file system
that has lost no block. -/
structure TableOk (r N : ℕ) (fs : Fs) : Prop where
  inv : Inv r fs
  type : fs.inodeTable.iBlkType = .b4K
  bytes : fs.inodeTable.iSize = 4096 * N
  pos : N ≠ 0
  below : Below 512 fs.inodeTable.height (N - 1) (treeOf fs.dev fs.inodeTable)
  full : ∀ n < N, mapped fs.dev fs.inodeTable n ≠ 0

theorem Inv.wellFormed (h : Inv r fs) : WellFormed (restOfTable r fs) fs.dev fs.inodeTable :=
  ⟨referenced_table ▸ h.owns, h.table.root, h.table.height⟩

theorem card_blocks (T : RTree) : Multiset.card (blocks .b4K T) = nodes 512 T := by
  have hcard := map_weight (F := 512) Multiset.cardHom (fun p => {pmfsGetBlocknr p})
    (fun p => runBlocks .b4K (pmfsGetBlocknr p)) T
  simp only [Multiset.cardHom_apply, Multiset.card_singleton, card_runBlocks] at hcard
  rw [blocks, pages_eq_weight, hcard]
  rfl

theorem room_add (h : Owns d (A + R)) (h' : Owns d' (A' + R))
    (hend : d'.ba.blockEnd = d.ba.blockEnd) :
    room d + Multiset.card A = room d' + Multiset.card A' := by
  have h1 := Owns.card_le h
  have h2 := Owns.card_le h'
  rw [room_eq h, room_eq h']
  rw [Multiset.card_add] at h1 h2 ⊢
  rw [Multiset.card_add]
  omega

/-- A tree without holes has the nodes up to its last index. -/
theorem nodes_dense (hb : Below 512 pi.height last (treeOf d pi))
    (hmap : ∀ n ≤ last, mapped d pi n ≠ 0) :
    nodes 512 (treeOf d pi) = size 512 pi.height last := by
  have hlt : last < 512 ^ pi.height := lt_of_lookup_ne (hmap last le_rfl)
  have hfind : ∀ n ≤ last, find 512 pi.height (treeOf d pi) n ≠ 0 := by
    intro n hn
    rw [← lookup_of_lt (hn.trans_lt hlt)]
    exact hmap n hn
  have hfilled : Filled 512 pi.height 0 last (treeOf d pi) :=
    filled_of_find (by norm_num) uniform_tree (Nat.zero_le last) hlt fun n _ hn => hfind n hn
  have hle := nodes_le (t := treeOf d pi) (by norm_num) uniform_tree hb hlt
  rw [if_neg (hfind last le_rfl)] at hle
  exact le_antisymm hle (le_nodes (by norm_num) hfilled hlt)

/-- A tree below `last` where that is missing has fewer nodes than one that reaches it. -/
theorem nodes_lt {height : ℕ} (hb : Below 512 pi.height last (treeOf d pi))
    (hmap : mapped d pi last = 0) (hle : pi.height ≤ height) (hlt : last < 512 ^ height) :
    nodes 512 (treeOf d pi) < size 512 height last := by
  by_cases hin : last < 512 ^ pi.height
  · have hnodes := nodes_le (t := treeOf d pi) (by norm_num) uniform_tree hb hin
    rw [mapped, lookup_of_lt hin] at hmap
    rw [if_pos hmap] at hnodes
    exact hnodes.trans (size_mono hle le_rfl)
  · have hpos : 0 < 512 ^ pi.height := by positivity
    have hne : pi.height ≠ height := fun hcon => hin (hcon ▸ hlt)
    have hnodes := nodes_le (by norm_num) uniform_tree
      (t := treeOf d pi) (below_top (by norm_num) uniform_tree) (by omega)
    calc nodes 512 (treeOf d pi) ≤ size 512 pi.height (512 ^ pi.height - 1) :=
          (Nat.le_add_right _ _).trans hnodes
      _ ≤ size 512 pi.height last := size_mono le_rfl (by omega)
      _ < size 512 height last := size_lt (by omega)

theorem topHeight_le {height : ℕ} (hh : pi.height ≤ height) (h3 : height ≤ 3)
    (hlt : last < 512 ^ height) : topHeight pi last ≤ height := by
  have hlast : last < 512 ^ 3 := hlt.trans_le (Nat.pow_le_pow_right (by norm_num) h3)
  have hpow : (512 : ℕ) ^ 3 ≤ 512 ^ 8 := Nat.pow_le_pow_right (by norm_num) (by norm_num)
  unfold topHeight
  rw [if_pos hlast]
  exact max_le hh ((shiftsToZero_le_iff (hlast.trans_le hpow)).mpr hlt)

theorem topHeight_mono (hh : pi.height ≤ 3) (hn : n ≤ last) (hlast : last < 512 ^ 3) :
    topHeight pi n ≤ topHeight pi last :=
  topHeight_le (le_topHeight _ _) (topHeight_le hh le_rfl hlast)
    (hn.trans_lt (lt_topHeight pi hlast))

/-- The height for a larger index does not depend on a growth before. -/
theorem topHeight_trans (hh : pi.height ≤ 3) (hn : n ≤ last) (hlast : last < 512 ^ 3)
    (hpi : pi'.height = topHeight pi n) : topHeight pi' last = topHeight pi last := by
  have hmono := topHeight_mono hh hn hlast
  have hle : pi'.height ≤ 3 := hpi.trans_le (topHeight_le hh le_rfl (hn.trans_lt hlast))
  apply le_antisymm
  · exact topHeight_le (hpi.trans_le hmono) (topHeight_le hh le_rfl hlast) (lt_topHeight pi hlast)
  · exact topHeight_le ((le_topHeight pi n).trans (hpi ▸ le_topHeight pi' last))
      (topHeight_le hle le_rfl hlast) (lt_topHeight pi' hlast)

/-- Three levels hold a table with `k` blocks more than `N`, and its blocks are no more than those
of the present table and the free ones together. -/
def Room (fs : Fs) (N k : ℕ) : Prop := N + k ≤ 512 ^ 3 ∧
  size 512 (topHeight fs.inodeTable (N + k - 1)) (N + k - 1) ≤
    room fs.dev + size 512 fs.inodeTable.height (N - 1)

theorem TableOk.le (h : TableOk r N fs) : N ≤ 512 ^ 3 := by
  have hlt : N - 1 < 512 ^ fs.inodeTable.height :=
    lt_of_lookup_ne (h.full (N - 1) (Nat.sub_one_lt h.pos))
  have hle : 512 ^ fs.inodeTable.height ≤ 512 ^ 3 :=
    Nat.pow_le_pow_right (by norm_num) h.inv.table.height
  omega

theorem TableOk.nodes_eq (h : TableOk r N fs) : nodes 512 (treeOf fs.dev fs.inodeTable) =
    size 512 fs.inodeTable.height (N - 1) :=
  nodes_dense h.below fun n hn => h.full n (by have := h.pos; omega)

theorem TableOk.room_zero (h : TableOk r N fs) : Room fs N 0 := by
  have hlt : N - 1 < 512 ^ fs.inodeTable.height :=
    lt_of_lookup_ne (h.full (N - 1) (Nat.sub_one_lt h.pos))
  refine ⟨h.le, ?_⟩
  rw [Nat.add_zero, topHeight_eq le_rfl hlt (fun _ hk _ => hk) h.inv.table.height]
  exact Nat.le_add_left _ _

/-! ### One growth -/

/-- What a growth with a transaction does to a table of `N` blocks. -/
structure Grown (r N : ℕ) (fs fs' : Fs) (o : Option Errno) : Prop where
  inv : Inv r fs'
  type : fs'.inodeTable.iBlkType = .b4K
  bytes : fs'.inodeTable.iSize = 4096 * (if o = none then N + 1 else N)
  keeps : ∀ n, mapped fs.dev fs.inodeTable n ≠ 0 → mapped fs'.dev fs'.inodeTable n ≠ 0
  full : room fs.dev = 0 → mapped fs'.dev fs'.inodeTable N = mapped fs.dev fs.inodeTable N
  sum : room fs.dev + nodes 512 (treeOf fs.dev fs.inodeTable) =
    room fs'.dev + nodes 512 (treeOf fs'.dev fs'.inodeTable)
  below : Below 512 fs.inodeTable.height N (treeOf fs.dev fs.inodeTable) →
    Below 512 fs'.inodeTable.height N (treeOf fs'.dev fs'.inodeTable)
  raised : fs.inodeTable.height ≤ fs'.inodeTable.height
  height : fs'.inodeTable.height ≤ topHeight fs.inodeTable N
  done : o = none → mapped fs'.dev fs'.inodeTable N ≠ 0
  failed : o ≠ none → room fs'.dev = 0 ∧ mapped fs'.dev fs'.inodeTable N = 0

theorem shiftRight_size (h : pi.iSize = 4096 * N) : pi.iSize >>> 12 = N := by
  rw [h, Nat.shiftRight_eq_div_pow]
  omega

theorem indexOf_4K (ht : pi.iBlkType = .b4K) : indexOf pi N = N := by
  unfold indexOf pmfsInodeBlkShift
  rw [ht]
  rfl

theorem grown (hinv : Inv r fs) (ht : fs.inodeTable.iBlkType = .b4K)
    (hs : fs.inodeTable.iSize = 4096 * N) (hN : N < 512 ^ 3) :
    ∃ fs' o, pmfsIncreaseInodeTableSize fs none = some (fs', o) ∧ Grown r N fs fs' o := by
  have hwf := Inv.wellFormed hinv
  have h64 : N < 2 ^ 64 := hN.trans (by norm_num)
  have hindex : indexOf fs.inodeTable N = N := indexOf_4K ht
  have hlast : lastIndex fs.inodeTable N 1 = N := (lastIndex_one _ h64).trans hindex
  obtain ⟨d', pi', o, hrun, ha, -⟩ := alloc_spec N 1 true hwf.owns hinv.table
  obtain ⟨hadd, hfill⟩ := alloc_run hwf hrun
  obtain ⟨hraised, hheight, -⟩ := alloc_height _ _ _ hwf hrun
  rw [hlast] at ha hheight hfill
  have hsum := room_add hwf.owns hadd.ext.owns hadd.ext.frame.blockEnd
  unfold inodeBlocks at hsum
  rw [ht, card_blocks, card_blocks] at hsum
  have hkeeps : ∀ n, mapped fs.dev fs.inodeTable n ≠ 0 → mapped d' pi' n ≠ 0 := fun n hn =>
    (hadd.ext.keeps n hn).trans_ne hn
  have hshift := shiftRight_size hs
  cases o with
  | none =>
    obtain ⟨hfilled, hlt⟩ := hfill rfl
    rw [hindex] at hfilled
    have hsize : pi'.iSize + pmfsInodeBlkSize pi' = 4096 * (N + 1) := by
      unfold pmfsInodeBlkSize
      rw [hadd.size, hs, hadd.blkType, ht]
      rfl
    obtain ⟨sbi, hincrease⟩ := increase_ok (hshift.symm ▸ hrun) rfl
    refine ⟨_, none, hincrease, hinv.increaseTable hincrease, hadd.blkType.trans ht, hsize, hkeeps,
      fun h0 => added_full hwf hadd h0 N, hsum, ha.below le_rfl, hraised, hheight, fun _ => ?_,
      fun hcon => absurd rfl hcon⟩
    refine (lookup_of_lt hlt).trans_ne ?_
    exact hfilled.find_ne_zero (by norm_num) uniform_tree le_rfl le_rfl
  | some e =>
    have hincrease := increase_error (hshift.symm ▸ hrun) rfl
    have hhalts := alloc_halts hwf (Or.inl ht) (by rw [hindex, hlast]) (hlast.trans_lt hN) hrun
    rw [hindex, hlast] at hhalts
    refine ⟨_, some e, hincrease, hinv.increaseTable hincrease, hadd.blkType.trans ht,
      hadd.size.trans hs, hkeeps, fun h0 => added_full hwf hadd h0 N, hsum,
      ha.below le_rfl, hraised, hheight, fun hcon => absurd hcon (Option.some_ne_none e), fun _ =>
      ?_⟩
    rcases hhalts with ⟨hroom, x, h1, h2, hx⟩ | ⟨hfull, hlt, x, hx⟩
    · obtain rfl := le_antisymm h1 h2
      exact ⟨hroom, hx⟩
    · obtain rfl := le_antisymm hx.first hx.last
      refine ⟨?_, (lookup_of_lt hlt).trans hx.stops.find_eq_zero⟩
      by_contra hne
      obtain ⟨b, d1, hr⟩ := newBlock_ok_of_room hadd.wellFormed.owns hne true
      rw [hadd.blkType, ht] at hfull
      exact hfull true b d1 hr

/-- A table of `N` blocks that cannot grow. -/
structure Stuck (r N : ℕ) (fs : Fs) : Prop where
  inv : Inv r fs
  type : fs.inodeTable.iBlkType = .b4K
  bytes : fs.inodeTable.iSize = 4096 * N
  ends : N = 512 ^ 3 ∨ N < 512 ^ 3 ∧ room fs.dev = 0 ∧ mapped fs.dev fs.inodeTable N = 0

theorem increase_beyond (hh : fs.inodeTable.height ≤ 3) (ht : fs.inodeTable.iBlkType = .b4K)
    (hs : fs.inodeTable.iSize = 4096 * 512 ^ 3) :
    pmfsIncreaseInodeTableSize fs none = some (fs, some .ENOSPC) := by
  refine increase_error (alloc_beyond hh ?_) rfl
  rw [shiftRight_size hs, lastIndex_one _ (by norm_num), indexOf_4K ht]

theorem Stuck.step (h : Stuck r N fs) :
    ∃ fs' e, pmfsIncreaseInodeTableSize fs none = some (fs', some e) ∧ Stuck r N fs' := by
  rcases h.ends with rfl | ⟨hN, hroom, hmap⟩
  · exact ⟨fs, _, increase_beyond h.inv.table.height h.type h.bytes, h⟩
  obtain ⟨fs', o, hrun, hg⟩ := grown h.inv h.type h.bytes hN
  cases o with
  | none => exact absurd ((hg.full hroom).trans hmap) (hg.done rfl)
  | some e =>
    exact ⟨fs', e, hrun, hg.inv, hg.type, hg.bytes, Or.inr ⟨hN, hg.failed (Option.some_ne_none e)⟩⟩

theorem Stuck.growths (h : Stuck r N fs) : ∃ fs', growths n fs = some (fs', 0) := by
  induction n generalizing fs with
  | zero => exact ⟨fs, rfl⟩
  | succ n ih =>
    obtain ⟨fs1, e, hstep, hstuck⟩ := h.step
    obtain ⟨fs2, hrest⟩ := ih hstuck
    refine ⟨fs2, ?_⟩
    rw [Growth.growths, hstep, Option.bind_some, hrest]
    rfl

theorem TableOk.grown (h : TableOk r N fs) (hg : Grown r N fs fs' none) :
    TableOk r (N + 1) fs' := by
  refine ⟨hg.inv, hg.type, hg.bytes, Nat.succ_ne_zero N, hg.below (h.below.mono (Nat.sub_le N 1)),
    fun n hn => ?_⟩
  rcases Nat.lt_succ_iff_lt_or_eq.mp hn with hlt | rfl
  · exact hg.keeps n (h.full n hlt)
  · exact hg.done rfl

theorem TableOk.room_grown (h : TableOk r N fs) (hg : Grown r N fs fs' none) :
    Room fs' (N + 1) k ↔ Room fs N (k + 1) := by
  have hlt : N < 512 ^ fs'.inodeTable.height := lt_of_lookup_ne (hg.done rfl)
  have hheight : fs'.inodeTable.height = topHeight fs.inodeTable N := by
    exact le_antisymm hg.height (topHeight_le hg.raised hg.inv.table.height hlt)
  have hsum := hg.sum
  rw [h.nodes_eq, (h.grown hg).nodes_eq] at hsum
  unfold Room
  rw [show N + 1 + k = N + (k + 1) by omega, hsum]
  refine and_congr_right fun hle => ?_
  rw [topHeight_trans h.inv.table.height (by omega) (by omega) hheight]

theorem TableOk.not_room (h : TableOk r N fs) (hg : Grown r N fs fs' o) (ho : o ≠ none) :
    ¬ Room fs N (k + 1) := by
  rintro ⟨hle, hsize⟩
  have hN : N < 512 ^ 3 := by omega
  obtain ⟨hroom, hmap⟩ := hg.failed ho
  have hsum := hg.sum
  rw [h.nodes_eq, hroom, Nat.zero_add] at hsum
  have hlt := nodes_lt (hg.below (h.below.mono (Nat.sub_le N 1))) hmap hg.height (lt_topHeight _ hN)
  have hmono : size 512 (topHeight fs.inodeTable N) N ≤
      size 512 (topHeight fs.inodeTable (N + (k + 1) - 1)) (N + (k + 1) - 1) :=
    size_mono (topHeight_mono h.inv.table.height (by omega) (by omega)) (by omega)
  omega

/-- So many growths succeed as there is room for. -/
theorem TableOk.growths (h : TableOk r N fs) :
    ∃ fs' s, growths m fs = some (fs', s) ∧ ∀ k, k ≤ s ↔ k ≤ m ∧ Room fs N k := by
  induction m generalizing N fs with
  | zero =>
    refine ⟨fs, 0, rfl, fun k => ⟨fun hk => ⟨hk, ?_⟩, fun hk => hk.1⟩⟩
    rw [Nat.le_zero.mp hk]
    exact h.room_zero
  | succ m ih =>
    -- a growth fails at the third level, or as the blocks are used up; then all the others do
    have hstuck : ∀ {fs1 e}, pmfsIncreaseInodeTableSize fs none = some (fs1, some e) →
        Stuck r N fs1 → (∀ k, ¬ Room fs N (k + 1)) →
        ∃ fs' s, Growth.growths (m + 1) fs = some (fs', s) ∧ ∀ k, k ≤ s ↔
        k ≤ m + 1 ∧ Room fs N k := by
      intro fs1 e hrun hs hno
      obtain ⟨fs2, hrest⟩ := hs.growths
      refine ⟨fs2, 0, ?_, fun k => ?_⟩
      · rw [Growth.growths, hrun, Option.bind_some, hrest]
        rfl
      · cases k with
        | zero => exact ⟨fun _ => ⟨Nat.zero_le _, h.room_zero⟩, fun _ => le_rfl⟩
        | succ k => exact ⟨fun hk => absurd hk (Nat.not_succ_le_zero k),
            fun hk => (hno k hk.2).elim⟩
    rcases Nat.lt_or_eq_of_le h.le with hN | rfl
    swap
    · refine hstuck (increase_beyond h.inv.table.height h.type h.bytes)
        ⟨h.inv, h.type, h.bytes, Or.inl rfl⟩ ?_
      rintro k ⟨hle, -⟩
      omega
    obtain ⟨fs1, o, hrun, hg⟩ := Growth.grown h.inv h.type h.bytes hN
    cases o with
    | some e =>
      have hfailed := hg.failed (Option.some_ne_none e)
      exact hstuck hrun ⟨hg.inv, hg.type, hg.bytes, Or.inr ⟨hN, hfailed⟩⟩ fun k =>
        h.not_room hg (Option.some_ne_none e)
    | none =>
      obtain ⟨fs2, s, hrest, hs⟩ := ih (h.grown hg)
      refine ⟨fs2, s + 1, ?_, fun k => ?_⟩
      · rw [Growth.growths, hrun, Option.bind_some, hrest]
        rfl
      · cases k with
        | zero => exact ⟨fun _ => ⟨Nat.zero_le _, h.room_zero⟩, fun _ => Nat.zero_le _⟩
        | succ k =>
          rw [Nat.succ_le_succ_iff, hs k, Nat.succ_le_succ_iff, h.room_grown hg]

/-! ### The end of the loop -/

theorem growLoop_ends (h : TableOk r N fs) : (∃ f r, growLoop num f trans fs = some r) ↔
    fs.sbi.sFreeInodesCount.toNat + lacking fs num * inodesPerBlock fs.inodeTable.iBlkType <
        2 ^ 32 ∧
      Room fs N (lacking fs num) ∧ ∃ n, lacking fs num ≤ opened trans n := by
  have hpos := inodesPerBlock_pos fs.inodeTable.iBlkType
  rw [growLoop_ends_iff]
  constructor
  · rintro ⟨n, fs', hrun, hnum⟩
    obtain ⟨fs1, s, hgrow, hs⟩ := h.growths
    rw [rounds_eq, hgrow, Option.map_some, Option.some.injEq] at hrun
    subst hrun
    rw [growths_free hgrow, UInt32.le_iff_toNat_le, UInt32.toNat_add, UInt32.toNat_ofNat',
      Nat.add_mod_mod] at hnum
    obtain ⟨hfits, hle⟩ := lacking_le hpos (inodesPerBlock_dvd _) (UInt32.toNat_lt _) hnum
    obtain ⟨hopen, hroom⟩ := (hs _).mp hle
    exact ⟨hfits, hroom, n, hopen⟩
  · rintro ⟨hfits, hroom, n, hn⟩
    obtain ⟨n', hn'⟩ := opened_exact hn
    obtain ⟨fs', s, hgrow, hs⟩ := h.growths
    obtain rfl : s = lacking fs num :=
      le_antisymm ((hs s).mp le_rfl).1 ((hs _).mpr ⟨le_rfl, hroom⟩)
    refine ⟨n', fs', ?_, ?_⟩
    · rw [rounds_eq, hn', hgrow]
      rfl
    · rw [growths_free hgrow, UInt32.le_iff_toNat_le, UInt32.toNat_add, UInt32.toNat_ofNat',
        Nat.add_mod_mod, Nat.mod_eq_of_lt hfits]
      exact le_lacking hpos

/-- The inode part of `alloc_addr_info` ends when the loop does, and at once after the first grant.
-/
theorem grantInodes_ends {base : ℕ} : (∃ f r, grantInodes fs base num trans f = some r) ↔
    base ≠ 0 ∨ ∃ f r, growLoop num f trans fs = some r := by
  unfold grantInodes
  by_cases hbase : base = 0
  · simp only [if_pos hbase, Option.map_eq_some_iff]
    constructor
    · rintro ⟨f, -, r, hr, -⟩
      exact Or.inr ⟨f, r, hr⟩
    · rintro (hcon | ⟨f, r, hr⟩)
      · exact absurd hbase hcon
      · exact ⟨f, _, r, hr, rfl⟩
  · exact ⟨fun _ => Or.inl hbase, fun _ => ⟨0, _, if_neg hbase⟩⟩

/-- A formatted device whose table of one block has 29 free inodes; so many blocks are in use. -/
structure OneBlock (used blockEnd : ℕ) (fs : Fs) : Prop where
  inv : Inv 17 fs
  blocks : (total fs.dev.ba.blockInuseHead, fs.dev.ba.blockEnd) = (used, blockEnd)
  table : (fs.inodeTable.height, fs.inodeTable.iBlkType, fs.inodeTable.iSize) = (0, .b4K, 4096)
  root : fs.inodeTable.root ≠ 0
  free : fs.sbi.sFreeInodesCount = 29

variable {used blockEnd : ℕ}

theorem OneBlock.tableOk (h : OneBlock used blockEnd fs) : TableOk 17 1 fs := by
  obtain ⟨hheight, hrest⟩ := Prod.mk.inj h.table
  obtain ⟨htype, hsize⟩ := Prod.mk.inj hrest
  refine ⟨h.inv, htype, hsize, one_ne_zero, ?_, fun n hn => ?_⟩
  · rw [hheight]
    trivial
  · obtain rfl := Nat.lt_one_iff.mp hn
    rw [mapped, treeOf, hheight, lookup_of_lt (by norm_num), tree_leaf h.root]
    exact h.root

theorem OneBlock.lacking_eq (h : OneBlock used blockEnd fs) : lacking fs 64 = 2 := by
  obtain ⟨-, hrest⟩ := Prod.mk.inj h.table
  obtain ⟨htype, -⟩ := Prod.mk.inj hrest
  unfold lacking
  rw [h.free, htype]
  decide

theorem OneBlock.room_iff (h : OneBlock used blockEnd fs) : Room fs 1 2 ↔ 3 ≤ blockEnd - used := by
  obtain ⟨hheight, -⟩ := Prod.mk.inj h.table
  obtain ⟨hused, hend⟩ := Prod.mk.inj h.blocks
  have hroom : room fs.dev = blockEnd - used := by
    rw [room, inUse, h.inv.owns.wf.canon.ncard_covered, hused, hend]
  have htop : topHeight fs.inodeTable 2 = 1 := by
    unfold topHeight
    rw [hheight]
    decide
  have hsize : size 512 1 2 = 4 ∧ size 512 0 0 = 1 := by decide
  unfold Room
  rw [htop, hheight, hroom, hsize.1, hsize.2]
  omega

/-- A device of the given size, formatted with a journal of 64K. -/
def formatted (size : ℕ) : Option Fs :=
  pmfsInit (fun _ _ => 0) (fun _ => zeroInode) (fun _ => pmfsReadInode 0 zeroInode false false) []
    size 0x10000 0 0o755 0 0 1

theorem oneBlock_of_formatted (size used blockEnd : ℕ) (h : (formatted size).map (fun fs =>
    ((total fs.dev.ba.blockInuseHead, fs.dev.ba.blockEnd),
      (fs.inodeTable.height, fs.inodeTable.iBlkType, fs.inodeTable.iSize),
      decide (fs.inodeTable.root = 0), fs.sbi.sFreeInodesCount)) =
        some ((used, blockEnd), (0, .b4K, 4096), false, 29)) :
    ∃ fs, formatted size = some fs ∧ OneBlock used blockEnd fs := by
  obtain ⟨fs, hfs, hstate⟩ := Option.map_eq_some_iff.mp h
  simp only [Prod.mk.injEq] at hstate
  obtain ⟨⟨h1, h2⟩, ⟨h3, h4, h5⟩, h6, h7⟩ := hstate
  exact ⟨fs, hfs, inv_init hfs, by rw [h1, h2], by rw [h3, h4, h5], by simpa using h6, h7⟩

end Pmfs.Itable.Growth
