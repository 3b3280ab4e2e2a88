import Pmfs.Inodes.Data
import Pmfs.Tree.Extend

/-! # What a file holds

`byteAt` is the byte at an offset of a file: the byte in the data block that the tree maps, and zero
in a hole. A copy into a data block changes the bytes it is for and no others (`byteAt_copy`), since
the data blocks of a file have no page in common. New blocks leave what was mapped (`added_byteAt`),
and `pmfs_get_xip_mem` leaves everything, since it zeroes the block it adds (`getXipMem_spec`).
`do_xip_mapping_read` returns the bytes of the file up to its size (`read_eq`). -/

namespace Pmfs.Inodes.Content

open Lib.Bytes Lib.Radix Block.Model Tree.Model Tree.Own
open Tree.Extend Inodes.Data
open Inodes.Regular (File pmfsFindAndAllocBlocks)
open RTree

/-- The byte at an offset of the file. -/
def byteAt (d : Dev) (pi : PmfsInode) (m : ℕ → UInt8) (x : ℕ) : UInt8 :=
  if mapped d pi (x / pmfsInodeBlkSize pi) = 0 then 0
  else m (addrOf (mapped d pi (x / pmfsInodeBlkSize pi)) + x % pmfsInodeBlkSize pi)

/-- What the file of an image holds. -/
def content (s : Image) : ℕ → UInt8 := byteAt s.f.d s.f.pi s.m

variable {R : Multiset ℕ} {S : ℕ → Prop} {d d' : Dev} {pi pi' : PmfsInode} {m m' c : ℕ → UInt8}
  {a b k n x pos : ℕ}
  {s s' : Image} {f f' : File}

/-! ### Blocks, pages and bytes -/

theorem blkSize_eq (pi : PmfsInode) :
    pmfsInodeBlkSize pi = 4096 * pmfsGetNumblocks pi.iBlkType := by
  unfold pmfsInodeBlkSize
  cases pi.iBlkType <;> rfl

theorem two_pow_shift (pi : PmfsInode) :
    2 ^ (pmfsInodeBlkShift pi - 12) = pmfsGetNumblocks pi.iBlkType :=
  (numblocks_eq_two_pow pi.iBlkType).symm

theorem page_eq (x : ℕ) : x >>> 12 = x / 4096 := Nat.shiftRight_eq_div_pow x 12

theorem indexOf_page (pi : PmfsInode) (x : ℕ) :
    indexOf pi (x >>> 12) = x / pmfsInodeBlkSize pi := by
  unfold indexOf
  rw [Nat.shiftRight_eq_div_pow, two_pow_shift, page_eq, Nat.div_div_eq_div_mul, blkSize_eq]

theorem addrOf_eq (bp : ℕ) : addrOf bp = 4096 * (bp / 4096) := by
  unfold addrOf pmfsGetBlockOff pmfsGetBlocknr
  rw [Nat.shiftLeft_eq, page_eq, Nat.mul_comm]

theorem addrOf_add (bp k : ℕ) : addrOf (bp + k <<< 12) = addrOf bp + 4096 * k := by
  rw [addrOf_eq, addrOf_eq, Nat.shiftLeft_eq]
  omega

/-- The offset in its block, from the page and the offset in the page. -/
theorem mod_blkSize (pi : PmfsInode) (x : ℕ) :
    x % pmfsInodeBlkSize pi = 4096 * (x >>> 12 % pmfsGetNumblocks pi.iBlkType) + x % 4096 := by
  rw [blkSize_eq, page_eq, Nat.mod_mul, Nat.add_comm]

theorem and_mask (pi : PmfsInode) (b : ℕ) :
    b &&& 1 <<< (pmfsInodeBlkShift pi - 12) - 1 = b % pmfsGetNumblocks pi.iBlkType := by
  rw [Nat.one_shiftLeft, Nat.and_two_pow_sub_one_eq_mod, two_pow_shift]

/-- `pmfs_find_data_block` for the page of an offset. -/
theorem findPage (hroot : pi.root = 0 → pi.height = 0) (x : ℕ) : pmfsFindDataBlock d pi (x >>> 12) =
    some (if mapped d pi (x / pmfsInodeBlkSize pi) = 0 then 0
      else mapped d pi (x / pmfsInodeBlkSize pi) +
      (x >>> 12 % pmfsGetNumblocks pi.iBlkType) <<< 12) := by
  rw [findDataBlock_mapped hroot, indexOf_page, and_mask]

theorem firstPage_eq (pi : PmfsInode) (x : ℕ) :
    firstPage pi (x >>> 12) = (x / pmfsInodeBlkSize pi * pmfsInodeBlkSize pi) >>> 12 := by
  unfold firstPage
  have hidx := indexOf_page pi x
  unfold indexOf at hidx
  rw [hidx, Nat.shiftLeft_eq, two_pow_shift, page_eq, blkSize_eq, ← Nat.mul_assoc,
    Nat.mul_right_comm, Nat.mul_div_cancel _ (by norm_num)]

theorem mem_block_iff (pi : PmfsInode) (ha : a + k ≤ pmfsInodeBlkSize pi) :
    (x / pmfsInodeBlkSize pi = n ∧ a ≤ x % pmfsInodeBlkSize pi ∧ x % pmfsInodeBlkSize pi < a + k) ↔
      n * pmfsInodeBlkSize pi + a ≤ x ∧ x < n * pmfsInodeBlkSize pi + a + k := by
  have hpos := blkSize_pos pi
  have hx := Nat.div_add_mod' x (pmfsInodeBlkSize pi)
  have hlt := Nat.mod_lt x hpos
  constructor
  · rintro ⟨rfl, h1, h2⟩
    omega
  · rintro ⟨h1, h2⟩
    have hdiv : x / pmfsInodeBlkSize pi = n := by
      refine Nat.div_eq_of_lt_le (by omega) ?_
      rw [Nat.succ_mul]
      omega
    rw [hdiv] at hx
    exact ⟨hdiv, by omega, by omega⟩

theorem page_in_block (pi : PmfsInode) (x : ℕ) (hk : k ≤ 4096 - x % 4096) :
    x % pmfsInodeBlkSize pi + k ≤ pmfsInodeBlkSize pi := by
  have hlt := Nat.mod_lt (x >>> 12) (numblocks_pos pi.iBlkType)
  rw [mod_blkSize, blkSize_eq]
  omega

/-! ### Stores -/

theorem apart (hwf : WellFormed R d pi) (hab : a ≠ b) (ha : mapped d pi a ≠ 0)
    (hb : mapped d pi b ≠ 0) : addrOf (mapped d pi a) + pmfsInodeBlkSize pi ≤
    addrOf (mapped d pi b) ∨
      addrOf (mapped d pi b) + pmfsInodeBlkSize pi ≤ addrOf (mapped d pi a) := by
  have hdis := hwf.disjoint hab ha hb
  have hpos := numblocks_pos pi.iBlkType
  have hpage : ∀ bp, pmfsGetBlocknr bp = bp / 4096 := page_eq
  rw [addrOf_eq, addrOf_eq, blkSize_eq, ← hpage, ← hpage]
  by_contra hcon
  have h1 : ∀ y, y ∈ runBlocks pi.iBlkType (pmfsGetBlocknr (mapped d pi a)) →
      y ∉ runBlocks pi.iBlkType (pmfsGetBlocknr (mapped d pi b)) :=
    fun y hy hy' => Multiset.disjoint_left.mp hdis hy hy'
  have h2 := h1 (pmfsGetBlocknr (mapped d pi a))
  have h3 := h1 (pmfsGetBlocknr (mapped d pi b))
  simp only [mem_runBlocks] at h2 h3
  omega

/-- A store into one data block, as the file sees it. -/
theorem byteAt_copy (hwf : WellFormed R d pi) (hn : mapped d pi n ≠ 0)
    (ha : a + k ≤ pmfsInodeBlkSize pi) : byteAt d pi (copy m (addrOf (mapped d pi n) + a) c k) x =
      if n * pmfsInodeBlkSize pi + a ≤ x ∧ x < n * pmfsInodeBlkSize pi + a + k then
        c (x - (n * pmfsInodeBlkSize pi + a)) else byteAt d pi m x := by
  have hlt := Nat.mod_lt x (blkSize_pos pi)
  have hx := Nat.div_add_mod' x (pmfsInodeBlkSize pi)
  simp only [← mem_block_iff pi ha]
  unfold byteAt
  by_cases hidx : x / pmfsInodeBlkSize pi = n
  · rw [hidx] at hx
    simp only [hidx, if_neg hn, true_and]
    by_cases hin : a ≤ x % pmfsInodeBlkSize pi ∧ x % pmfsInodeBlkSize pi < a + k
    · rw [if_pos hin, copy_of_mem (by omega) (by omega)]
      congr 1
      omega
    · rw [if_neg hin]
      exact copy_of_not_mem (by omega)
  · simp only [hidx, false_and, if_false]
    by_cases h0 : mapped d pi (x / pmfsInodeBlkSize pi) = 0
    · rw [if_pos h0, if_pos h0]
    · rw [if_neg h0, if_neg h0]
      have := apart hwf hidx h0 hn
      exact copy_of_not_mem (by omega)

/-- A store at an offset of the file that stays in its block. -/
theorem byteAt_copy_at (hwf : WellFormed R d pi) (hn : mapped d pi (pos / pmfsInodeBlkSize pi) ≠ 0)
    (hk : pos % pmfsInodeBlkSize pi + k ≤ pmfsInodeBlkSize pi) :
    byteAt d pi (copy m (addrOf (mapped d pi (pos / pmfsInodeBlkSize pi)) +
    pos % pmfsInodeBlkSize pi) c k) x =
      if pos ≤ x ∧ x < pos + k then c (x - pos) else byteAt d pi m x := by
  rw [byteAt_copy hwf hn hk, Nat.div_add_mod']

/-- The address that goes with an offset, as the code computes it from the page. -/
theorem addr_page (pi : PmfsInode) (bp x : ℕ) :
    addrOf (bp + (x >>> 12 % pmfsGetNumblocks pi.iBlkType) <<< 12) + x % 4096 =
      addrOf bp + x % pmfsInodeBlkSize pi := by
  rw [addrOf_add, mod_blkSize]
  omega

/-! ### New blocks -/

theorem blkSize_congr (h : pi'.iBlkType = pi.iBlkType) :
    pmfsInodeBlkSize pi' = pmfsInodeBlkSize pi := by
  unfold pmfsInodeBlkSize
  rw [h]

theorem byteAt_congr (ht : pi'.iBlkType = pi.iBlkType)
    (h : mapped d' pi' (x / pmfsInodeBlkSize pi) = mapped d pi (x / pmfsInodeBlkSize pi)) :
    byteAt d' pi' m x = byteAt d pi m x := by
  unfold byteAt
  rw [blkSize_congr ht, h]

/-- New blocks leave what was mapped, and the holes that stay. -/
theorem added_byteAt (g : Added R S d pi d' pi') (h : mapped d pi (x / pmfsInodeBlkSize pi) ≠ 0 ∨
    mapped d' pi' (x / pmfsInodeBlkSize pi) = 0) : byteAt d' pi' m x = byteAt d pi m x := by
  refine byteAt_congr g.blkType ?_
  by_cases h0 : mapped d pi (x / pmfsInodeBlkSize pi) = 0
  · rw [h0]
    exact h.resolve_left (absurd h0)
  · exact g.ext.keeps _ h0

theorem mul_div_blkSize (pi : PmfsInode) (n : ℕ) :
    n * pmfsInodeBlkSize pi / pmfsInodeBlkSize pi = n :=
  Nat.mul_div_cancel n (blkSize_pos pi)

/-- `pmfs_find_data_block` for the first page of a data block. -/
theorem findFirst (hroot : pi.root = 0 → pi.height = 0) (n : ℕ) :
    pmfsFindDataBlock d pi ((n * pmfsInodeBlkSize pi) >>> 12) = some (mapped d pi n) := by
  have hmod := mod_blkSize pi (n * pmfsInodeBlkSize pi)
  rw [Nat.mul_mod_left] at hmod
  have hpage : (n * pmfsInodeBlkSize pi) >>> 12 % pmfsGetNumblocks pi.iBlkType = 0 := by omega
  rw [findPage hroot, mul_div_blkSize, hpage, Nat.zero_shiftLeft, Nat.add_zero]
  by_cases h0 : mapped d pi n = 0
  · rw [if_pos h0, h0]
  · rw [if_neg h0]

theorem zeroNew_eq (hroot : f.pi.root = 0 → f.pi.height = 0) (hroot' : f'.pi.root = 0 →
    f'.pi.height = 0) (ht : f'.pi.iBlkType = f.pi.iBlkType) (x : ℕ) : zeroNew f f' (x >>> 12) m =
      if mapped f.d f.pi (x / pmfsInodeBlkSize f.pi) = 0 ∧
      mapped f'.d f'.pi (x / pmfsInodeBlkSize f.pi) ≠
      0 then clear m (addrOf (mapped f'.d f'.pi (x / pmfsInodeBlkSize f.pi)))
      (pmfsInodeBlkSize f.pi) else m := by
  have hfind' := findFirst (d := f'.d) hroot' (x / pmfsInodeBlkSize f.pi)
  rw [blkSize_congr ht] at hfind'
  unfold zeroNew
  rw [firstPage_eq, findFirst hroot, hfind', Option.bind_some, pmfsGetBlock]
  simp only [Option.some.injEq]
  by_cases h : mapped f.d f.pi (x / pmfsInodeBlkSize f.pi) = 0
  · by_cases h' : mapped f'.d f'.pi (x / pmfsInodeBlkSize f.pi) = 0
    · simp [h']
    · simp [h, h']
  · rw [if_neg h, if_neg fun hcon => h hcon.1]

theorem findAndAlloc_mapped {trans : Option Errno} {create : Bool} (hroot : f.pi.root = 0 →
    f.pi.height = 0) (hn : mapped f.d f.pi (x / pmfsInodeBlkSize f.pi) ≠ 0) :
    pmfsFindAndAllocBlocks f (x >>> 12) trans create = some (f, .ok (mapped f.d f.pi
      (x / pmfsInodeBlkSize f.pi) + (x >>> 12 % pmfsGetNumblocks f.pi.iBlkType) <<< 12)) := by
  unfold pmfsFindAndAllocBlocks
  rw [findPage hroot, if_neg hn]
  dsimp only
  rw [if_pos (by omega)]

/-- `pmfs_get_xip_mem` for a page that has its block. -/
theorem getXipMem_mapped {trans : Option Errno} {create : Bool}
    (hroot : s.f.pi.root = 0 → s.f.pi.height = 0)
    (hn : mapped s.f.d s.f.pi (x / pmfsInodeBlkSize s.f.pi) ≠ 0) :
    pmfsGetXipMem s (x >>> 12) trans create = some (s, .ok (mapped s.f.d s.f.pi
      (x / pmfsInodeBlkSize s.f.pi) + (x >>> 12 % pmfsGetNumblocks s.f.pi.iBlkType) <<< 12)) := by
  unfold pmfsGetXipMem
  rw [findAndAlloc_mapped hroot hn, Option.map_some, zeroNew_eq hroot hroot rfl,
    if_neg fun hcon => hn hcon.1]

theorem findAndAlloc_error {trans : Option Errno} {create : Bool} {bp : ℕ} {e : Errno}
    (hc : create = true) (ht : trans = none) (hfind : pmfsFindDataBlock f.d f.pi b = some bp)
    (hbp : bp = 0) (halloc : f.alloc b 1 true = some (f', some e)) :
    pmfsFindAndAllocBlocks f b trans create = some (f', .error e) := by
  unfold pmfsFindAndAllocBlocks
  rw [hfind]
  dsimp only
  rw [if_neg (not_not.mpr hbp), if_neg (by simp [hc]), halloc, ht]

theorem findAndAlloc_found {trans : Option Errno} {create : Bool} {bp bp' : ℕ} (hc : create = true)
    (ht : trans = none) (hfind : pmfsFindDataBlock f.d f.pi b = some bp) (hbp : bp = 0)
    (halloc : f.alloc b 1 true = some (f', none))
    (hfind' : pmfsFindDataBlock f'.d f'.pi b = some bp') : pmfsFindAndAllocBlocks f b trans create =
    some (f', if bp' = 0 then .error .ENODATA else .ok bp') := by
  unfold pmfsFindAndAllocBlocks
  rw [hfind]
  dsimp only
  rw [if_neg (not_not.mpr hbp), if_neg (by simp [hc]), halloc, ht]
  dsimp only
  rw [hfind', Option.map_some]

theorem fileAlloc_added (b num : ℕ) (zero : Bool) (hwf : WellFormed R f.d f.pi) :
    ∃ f' o, f.alloc b num zero = some (f', o) ∧
      __pmfsAllocBlocks f.d f.pi b (num % 2 ^ 32) zero = some (f'.d, f'.pi, o) ∧
      Added R (Asked f.pi b (num % 2 ^ 32)) f.d f.pi f'.d f'.pi ∧
      f'.inode.iSize = f.inode.iSize := by
  obtain ⟨d', pi', o, hrun, hadd, -⟩ := alloc_added b (num % 2 ^ 32) zero hwf
  refine ⟨⟨d', { f.inode with iBlocks := pi'.iBlocks }, pi'⟩, o, ?_, hrun, hadd, rfl⟩
  unfold Regular.File.alloc pmfsAllocBlocks
  rw [hrun]
  rfl

/-- What is the same before and after an operation that may add zeroed blocks. -/
structure Same (R : Multiset ℕ) (s s' : Image) : Prop where
  wf : WellFormed R s'.f.d s'.f.pi
  blkType : s'.f.pi.iBlkType = s.f.pi.iBlkType
  size : s'.f.inode.iSize = s.f.inode.iSize
  piSize : s'.f.pi.iSize = s.f.pi.iSize
  content : ∀ x, content s' x = content s x

theorem Same.refl (hwf : WellFormed R s.f.d s.f.pi) : Same R s s :=
  ⟨hwf, rfl, rfl, rfl, fun _ => rfl⟩

/-- The file with its new blocks, when the block of a page is zeroed if it is new. -/
theorem zeroNew_byteAt (g : Added R S f.d f.pi f'.d f'.pi) (hwf : WellFormed R f.d f.pi) (x y : ℕ) :
    byteAt f'.d f'.pi (zeroNew f f' (x >>> 12) m) y =
      if (mapped f.d f.pi (y / pmfsInodeBlkSize f.pi) = 0 ∧
      mapped f'.d f'.pi (y / pmfsInodeBlkSize f.pi) ≠ 0) ∧
        y / pmfsInodeBlkSize f.pi = x / pmfsInodeBlkSize f.pi then 0
        else byteAt f'.d f'.pi m y := by
  have hbs := blkSize_congr g.blkType
  rw [zeroNew_eq hwf.root g.root g.blkType]
  by_cases hnew : mapped f.d f.pi (x / pmfsInodeBlkSize f.pi) = 0 ∧
    mapped f'.d f'.pi (x / pmfsInodeBlkSize f.pi) ≠ 0
  · have hcopy :=
      byteAt_copy (m := m) (c := fun _ => 0) (a := 0) (k := pmfsInodeBlkSize f'.pi) (x :=
        y) g.wellFormed hnew.2 (by omega)
    rw [Nat.add_zero, hbs] at hcopy
    rw [if_pos hnew, clear, hcopy]
    by_cases hy : y / pmfsInodeBlkSize f.pi = x / pmfsInodeBlkSize f.pi
    · have hin := (mem_block_iff (k := pmfsInodeBlkSize f.pi) f.pi (by omega)).mp
        ⟨hy, Nat.zero_le _, by rw [Nat.zero_add]; exact Nat.mod_lt _ (blkSize_pos _)⟩
      rw [if_pos hin, if_pos ⟨hy ▸ hnew, hy⟩]
    · have hout := mt (mem_block_iff (a := 0) (k := pmfsInodeBlkSize f.pi) f.pi (by omega)).mpr
        (fun hcon => hy hcon.1)
      rw [if_neg hout, if_neg fun hcon => hy hcon.2]
  · rw [if_neg hnew, if_neg]
    rintro ⟨hcon, hy⟩
    exact hnew (hy ▸ hcon)

/-- A block that is added at one index and zeroed. -/
theorem same_of_added (g : Added R S s.f.d s.f.pi s'.f.d s'.f.pi)
    (hS : ∀ n, S n → n = x / pmfsInodeBlkSize s.f.pi) (hwf : WellFormed R s.f.d s.f.pi)
    (hsize : s'.f.inode.iSize = s.f.inode.iSize) (hm : s'.m = zeroNew s.f s'.f (x >>> 12) s.m) :
    Same R s s' := by
  refine ⟨g.wellFormed, g.blkType, hsize, g.size, fun y => ?_⟩
  unfold content
  rw [hm, zeroNew_byteAt g hwf]
  split_ifs with hnew
  · -- the new block reads as the hole did
    rw [byteAt, if_pos hnew.1.1]
  · refine added_byteAt g ?_
    by_cases hy : y / pmfsInodeBlkSize s.f.pi = x / pmfsInodeBlkSize s.f.pi
    · tauto
    · by_cases h0 : mapped s.f.d s.f.pi (y / pmfsInodeBlkSize s.f.pi) = 0
      · exact Or.inr ((g.ext.outside _ fun hcon => hy (hS _ hcon)).trans h0)
      · exact Or.inl h0

/-- `pmfs_get_xip_mem` gives the page its block, and the file stays as it is. -/
theorem getXipMem_spec (hwf : WellFormed R s.f.d s.f.pi) (hx : x < 2 ^ 64) :
    ∃ s' r, pmfsGetXipMem s (x >>> 12) none true = some (s', r) ∧ Same R s s' ∧
      ∀ block, r = .ok block → mapped s'.f.d s'.f.pi (x / pmfsInodeBlkSize s.f.pi) ≠ 0 ∧
        addrOf block + x % 4096 = addrOf (mapped s'.f.d s'.f.pi (x / pmfsInodeBlkSize s.f.pi)) +
          x % pmfsInodeBlkSize s.f.pi := by
  by_cases hn : mapped s.f.d s.f.pi (x / pmfsInodeBlkSize s.f.pi) = 0
  · obtain ⟨f', o, halloc, -, hadd, hsize⟩ := fileAlloc_added (x >>> 12) 1 true hwf
    have hS : ∀ n, Asked s.f.pi (x >>> 12) 1 n → n = x / pmfsInodeBlkSize s.f.pi := by
      intro n h
      rw [← indexOf_page]
      exact asked_one (by rw [page_eq]; omega) h
    have hfind : pmfsFindDataBlock s.f.d s.f.pi (x >>> 12) = some 0 := by
      rw [findPage hwf.root, if_pos hn]
    have hfind' := findPage (d := f'.d) hadd.root x
    rw [blkSize_congr hadd.blkType, hadd.blkType] at hfind'
    have hsame : Same R s ⟨f', zeroNew s.f f' (x >>> 12) s.m⟩ :=
      same_of_added hadd hS hwf hsize rfl
    unfold pmfsGetXipMem
    cases o with
    | some e =>
      rw [findAndAlloc_error rfl rfl hfind rfl halloc]
      exact ⟨_, _, rfl, hsame, fun _ h => by simp at h⟩
    | none =>
      rw [findAndAlloc_found rfl rfl hfind rfl halloc hfind']
      refine ⟨_, _, rfl, hsame, fun block hblock => ?_⟩
      by_cases h' : mapped f'.d f'.pi (x / pmfsInodeBlkSize s.f.pi) = 0
      · simp [h'] at hblock
      · rw [if_neg h', if_neg (by omega), Except.ok.injEq] at hblock
        exact ⟨h', hblock ▸ addr_page s.f.pi _ x⟩
  · rw [getXipMem_mapped hwf.root hn]
    refine ⟨s, _, rfl, .refl hwf, fun block hblock => ?_⟩
    rw [Except.ok.injEq] at hblock
    exact ⟨hn, hblock ▸ addr_page s.f.pi _ x⟩

/-! ### Reading -/

theorem pageBytes_eq {isize : ℕ} (hsize : isize ≠ 0) (x : ℕ) :
    pageBytes isize (x >>> 12) (x % 4096) = if isize ≤
    x then none else some (min (4096 - x % 4096) (isize - x)) := by
  unfold pageBytes
  simp only [page_eq]
  split_ifs <;> first | rfl | omega | (rw [Option.some.injEq]; omega)

theorem getXipMem_hole (trans : Option Errno) {create : Bool} (hc : create = false)
    (hroot : s.f.pi.root = 0 → s.f.pi.height = 0)
    (hn : mapped s.f.d s.f.pi (x / pmfsInodeBlkSize s.f.pi) = 0) :
    ∃ s', pmfsGetXipMem s (x >>> 12) trans create = some (s', .error .ENODATA) := by
  obtain ⟨bp, hbp, h0⟩ : ∃ bp, pmfsFindDataBlock s.f.d s.f.pi (x >>> 12) = some bp ∧ bp = 0 :=
    ⟨_, findPage hroot x, if_pos hn⟩
  unfold pmfsGetXipMem pmfsFindAndAllocBlocks
  rw [hbp]
  dsimp only
  rw [if_neg (not_not.mpr h0), if_pos (by simp [hc])]
  exact ⟨_, rfl⟩

theorem bytes_page (hn : mapped s.f.d s.f.pi (x / pmfsInodeBlkSize s.f.pi) ≠ 0)
    (hk : k ≤ 4096 - x % 4096) :
    bytes s.m (addrOf (mapped s.f.d s.f.pi (x / pmfsInodeBlkSize s.f.pi) +
      (x >>> 12 % pmfsGetNumblocks s.f.pi.iBlkType) <<< 12) + x % 4096) k =
      bytes (content s) x k := by
  rw [addr_page]
  have hin := page_in_block s.f.pi x hk
  refine List.map_congr_left fun i hi => ?_
  have hi' := List.mem_range.mp hi
  have hx := Nat.div_add_mod' x (pmfsInodeBlkSize s.f.pi)
  obtain ⟨hdiv, -, -⟩ := (mem_block_iff (x := x + i) (n := x / pmfsInodeBlkSize s.f.pi)
    (a := x % pmfsInodeBlkSize s.f.pi) (k := k) s.f.pi hin).mpr ⟨by omega, by omega⟩
  have hmod := Nat.div_add_mod' (x + i) (pmfsInodeBlkSize s.f.pi)
  rw [hdiv] at hmod
  unfold content byteAt
  rw [hdiv, if_neg hn]
  congr 1
  omega

theorem bytes_hole (hn : mapped s.f.d s.f.pi (x / pmfsInodeBlkSize s.f.pi) = 0)
    (hk : k ≤ 4096 - x % 4096) : List.replicate k 0 = bytes (content s) x k := by
  have hin := page_in_block s.f.pi x hk
  refine List.ext_getElem (by simp [bytes]) fun i hi _ => ?_
  have hi' : i < k := by simpa using hi
  have hx := Nat.div_add_mod' x (pmfsInodeBlkSize s.f.pi)
  obtain ⟨hdiv, -, -⟩ := (mem_block_iff (x := x + i) (n := x / pmfsInodeBlkSize s.f.pi)
    (a := x % pmfsInodeBlkSize s.f.pi) (k := k) s.f.pi hin).mpr ⟨by omega, by omega⟩
  simp only [bytes, List.getElem_replicate, List.getElem_map, List.getElem_range]
  unfold content byteAt
  rw [hdiv, if_pos hn]

/-- The loop of `do_xip_mapping_read`, when it is at the byte `pos + j`. -/
theorem readLoop_spec (pos : ℕ) {len avail : ℕ} (hroot : s.f.pi.root = 0 → s.f.pi.height = 0)
    (hsize : s.f.inode.iSize ≠ 0) (havail : len ≤ avail) : ∀ {n j : ℕ} {e : Option Errno},
    j < len → len < j + n →
      j ≤ s.f.inode.iSize - pos → ∃ r, xipReadLoop s len avail n
        ⟨(pos + j) >>> 12, (pos + j) % 4096, bytes (content s) pos j, e⟩ = some r ∧
          r.copied = bytes (content s) pos (min len (s.f.inode.iSize - pos))
  | 0, j, e, hj, hn, _ => absurd hj (by omega)
  | n + 1, j, e, hj, hn, hle => by
    unfold xipReadLoop
    rw [pageBytes_eq hsize]
    by_cases hend : s.f.inode.iSize ≤ pos + j
    · rw [if_pos hend]
      refine ⟨_, rfl, ?_⟩
      dsimp only
      congr 1
      omega
    rw [if_neg hend]
    dsimp only
    rw [length_bytes]
    generalize hk : min (min (4096 - (pos + j) % 4096) (s.f.inode.iSize - (pos + j))) (len - j) = k
    -- what follows once the bytes of the page are there
    have hnext : ∀ {data : List UInt8} {e' : Option Errno}, data = bytes (content s) (pos + j) k →
      ∃ r,
        (if j + k > avail then some (⟨(pos + j) >>> 12, (pos + j) % 4096, bytes (content s) pos j,
            some .EFAULT⟩ : ReadLoop)
          else if (bytes (content s) pos j ++ data).length < len then
            xipReadLoop s len avail n ⟨(pos + j) >>> 12 + ((pos + j) % 4096 + k) >>> 12,
              ((pos + j) % 4096 + k) % 4096, bytes (content s) pos j ++ data, e'⟩
          else some ⟨(pos + j) >>> 12 + ((pos + j) % 4096 + k) >>> 12,
          ((pos + j) % 4096 + k) % 4096,
            bytes (content s) pos j ++ data, e'⟩) = some r ∧
          r.copied = bytes (content s) pos (min len (s.f.inode.iSize - pos)) := by
      intro data e' hdata
      rw [if_neg (by omega), hdata, ← bytes_add, length_bytes]
      by_cases hmore : j + k < len
      · rw [if_pos hmore]
        have hidx : (pos + j) >>> 12 + ((pos + j) % 4096 + k) >>> 12 = (pos + (j + k)) >>> 12 := by
          simp only [page_eq]
          omega
        have hoff : ((pos + j) % 4096 + k) % 4096 = (pos + (j + k)) % 4096 := by omega
        rw [hidx, hoff]
        exact readLoop_spec pos hroot hsize havail hmore (by omega) (by omega)
      · rw [if_neg hmore]
        refine ⟨_, rfl, ?_⟩
        dsimp only
        congr 1
        omega
    by_cases h0 : mapped s.f.d s.f.pi ((pos + j) / pmfsInodeBlkSize s.f.pi) = 0
    · obtain ⟨s', hget⟩ := getXipMem_hole none rfl hroot h0
      rw [hget]
      exact hnext (bytes_hole h0 (by omega))
    · rw [getXipMem_mapped hroot h0]
      exact hnext (bytes_page h0 (by omega))

/-- `do_xip_mapping_read` returns the bytes of the file up to its size. -/
theorem read_eq (pos : ℕ) {len avail : ℕ} (hroot : s.f.pi.root = 0 → s.f.pi.height = 0)
    (hlen : 0 < len) (havail : len ≤ avail) : ∃ e, doXipMappingRead s pos len avail =
      some (bytes (content s) pos (min len (s.f.inode.iSize - pos)), e) := by
  unfold doXipMappingRead
  by_cases hsize : s.f.inode.iSize = 0
  · rw [if_pos hsize, hsize, Nat.zero_sub, Nat.min_zero]
    exact ⟨_, rfl⟩
  · obtain ⟨r, hrun, hcopied⟩ := readLoop_spec pos (n := len + 1) (j := 0) (e := none) hroot hsize
      havail hlen (by omega) (Nat.zero_le _)
    rw [if_neg hsize]
    exact ⟨r.error, by rw [← hcopied]; exact congrArg _ hrun⟩

end Pmfs.Inodes.Content
