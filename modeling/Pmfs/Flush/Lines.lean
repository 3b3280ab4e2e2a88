import Pmfs.Flush.Model
import Pmfs.Tree.Cut

/-! # Which cache lines are flushed

`pmfs_flush_buffer` flushes the lines of the bytes that it is given (`flushed_buffer`). From there,
`pmfs_fsync` flushes the lines of the pages up to the first hole (`fsyncLoop_spec`), which are all
that it should flush only when no block comes behind a hole: `fsync_flushes_iff`.
`pmfs_flush_edge_cachelines` compares positions inside of a line where it should compare lines:
`edges_flushed_iff`. -/

namespace Pmfs.Flush.Lines

open Lib.Radix Lib.RadixMap Block.Model Block.Spec Tree.Model Tree.Own Tree.Inode Tree.Extend
open Inodes.Regular Flush.Model
open Tree.Cut (newDev plainFile zeroInode_on)

variable {d : Dev} {pi : PmfsInode} {l : List ℕ} {buf len n p y stop first : ℕ}

/-- A line is among those of the flushed addresses. -/
def Flushed (l : List ℕ) (n : ℕ) : Prop := ∃ a ∈ l, line a = n

@[simp] theorem flushed_append {l' : List ℕ} : Flushed (l ++ l') n ↔
    Flushed l n ∨ Flushed l' n := by
  simp only [Flushed, List.mem_append, or_and_right, exists_or]

@[simp] theorem not_flushed_nil : ¬ Flushed [] n := by
  simp [Flushed]

/-- `pmfs_flush_buffer` flushes the lines of its bytes. -/
theorem flushed_buffer (hpos : 1 ≤ len) (hlen : len ≤ 4096) :
    Flushed (pmfsFlushBuffer buf len) n ↔ ∃ z, buf ≤ z ∧ z < buf + len ∧ line z = n := by
  have hmod : (len + buf % 64) % 2 ^ 32 = len + buf % 64 := Nat.mod_eq_of_lt (by omega)
  simp only [Flushed, pmfsFlushBuffer, line, CACHELINE_SIZE, hmod, List.mem_map, List.mem_range]
  constructor
  · rintro ⟨a, ⟨i, hi, rfl⟩, rfl⟩
    rcases Nat.eq_zero_or_pos i with rfl | hpos
    · exact ⟨buf, le_rfl, by omega, by omega⟩
    · exact ⟨(buf / 64 + i) * 64, by omega, by omega, by omega⟩
  · rintro ⟨z, hz, hz', rfl⟩
    exact ⟨buf + (z / 64 - buf / 64) * 64, ⟨z / 64 - buf / 64, by omega, rfl⟩, by omega⟩

/-! ### The pages of a file -/

/-- The block of a page of a file, `0` for a hole. -/
def blockAt (d : Dev) (pi : PmfsInode) (p : ℕ) : ℕ := (pmfsFindDataBlock d pi p).getD 0

/-- The cache line of a byte of a file. -/
def lineOf (d : Dev) (pi : PmfsInode) (y : ℕ) : ℕ := line (blockAt d pi (y / 4096) + y % 4096)

/-- There is no hole from a page on to that of a byte. -/
def Reached (d : Dev) (pi : PmfsInode) (first y : ℕ) : Prop :=
  ∀ p, first ≤ p → p ≤ y / 4096 → blockAt d pi p ≠ 0

theorem findDataBlock_eq_some (hroot : pi.root = 0 → pi.height = 0) (p : ℕ) :
    pmfsFindDataBlock d pi p = some (blockAt d pi p) := by
  unfold blockAt
  rw [findDataBlock_mapped hroot p]
  rfl

theorem reached_same (hblock : blockAt d pi first ≠ 0) (hy : y / 4096 = first) :
    Reached d pi first y := by
  intro p h1 h2
  rwa [show p = first by omega]

theorem reached_succ (hblock : blockAt d pi first ≠ 0) : Reached d pi (first + 1) y ↔
    Reached d pi first y := by
  constructor
  · intro h p h1 h2
    rcases Nat.lt_or_eq_of_le h1 with hlt | rfl
    · exact h p hlt h2
    · exact hblock
  · intro h p h1 h2
    exact h p (by omega) h2

theorem round_flushed (start nr : ℕ) (hpos : 1 ≤ nr) (hnr : start % 4096 + nr ≤ 4096) :
    Flushed (pmfsFlushBuffer (blockAt d pi (start / 4096) + start % 4096) nr) n ↔
      ∃ y, start ≤ y ∧ y < start + nr ∧ lineOf d pi y = n := by
  rw [flushed_buffer hpos (by omega)]
  constructor
  · rintro ⟨z, h1, h2, rfl⟩
    refine ⟨start + (z - (blockAt d pi (start / 4096) + start % 4096)), by omega, by omega, ?_⟩
    unfold lineOf
    rw [show (start + (z - (blockAt d pi (start / 4096) + start % 4096))) / 4096 =
      start / 4096 by omega]
    congr 1
    omega
  · rintro ⟨y, h1, h2, rfl⟩
    refine ⟨blockAt d pi (start / 4096) + y % 4096, by omega, by omega, ?_⟩
    unfold lineOf
    rw [show y / 4096 = start / 4096 by omega]

/-- The lines that are left to flush, with those of the page at hand apart. -/
theorem reached_split (start next : ℕ) (hblock : blockAt d pi (start / 4096) ≠ 0)
    (hle : start ≤ next) (hnext : next ≤ stop) (hpage : ∀ y, start ≤ y → y < next →
    y / 4096 = start / 4096) : (∃ y, start ≤ y ∧ y < stop ∧ Reached d pi (start / 4096) y ∧
    lineOf d pi y = n) ↔
      (∃ y, start ≤ y ∧ y < next ∧ lineOf d pi y = n) ∨
        ∃ y, next ≤ y ∧ y < stop ∧ Reached d pi (start / 4096 + 1) y ∧ lineOf d pi y = n := by
  constructor
  · rintro ⟨y, h1, h2, h3, h4⟩
    rcases Nat.lt_or_ge y next with hy | hy
    · exact Or.inl ⟨y, h1, hy, h4⟩
    · exact Or.inr ⟨y, hy, h2, (reached_succ hblock).mpr h3, h4⟩
  · rintro (⟨y, h1, h2, h4⟩ | ⟨y, h1, h2, h3, h4⟩)
    · exact ⟨y, h1, by omega, reached_same hblock (hpage y h1 h2), h4⟩
    · exact ⟨y, by omega, h2, (reached_succ hblock).mp h3, h4⟩

theorem shiftRight_page (y : ℕ) : y >>> 12 = y / 4096 := Nat.shiftRight_eq_div_pow y 12

/-- The loop flushes the lines up to the first hole. -/
theorem fsyncLoop_spec (hroot : pi.root = 0 → pi.height = 0) {fuel start : ℕ} (hlt : start < stop)
    (hfuel : stop ≤ (start / 4096 + fuel) * 4096) :
    ∃ l', fsyncLoop d pi stop fuel start l = some l' ∧ ∀ n, Flushed l' n ↔
      Flushed l n ∨ ∃ y, start ≤ y ∧ y < stop ∧ Reached d pi (start / 4096) y ∧
      lineOf d pi y = n := by
  induction fuel generalizing start l with
  | zero => omega
  | succ fuel ih =>
    rw [fsyncLoop, shiftRight_page, findDataBlock_eq_some hroot, Option.bind_some]
    by_cases hblock : blockAt d pi (start / 4096) = 0
    · -- the loop ends at a hole
      refine ⟨l, if_neg (not_not.mpr hblock), ?_⟩
      intro n
      refine ⟨Or.inl, ?_⟩
      rintro (h | ⟨y, h1, h2, h3, -⟩)
      · exact h
      · exact absurd hblock (h3 _ le_rfl (by omega))
    rw [if_pos hblock]
    obtain ⟨nr, hnr⟩ : ∃ nr, nr = min (4096 - start % 4096) (stop - start) := ⟨_, rfl⟩
    rw [← hnr]
    have hround := fun n => @round_flushed d pi n start nr (by omega) (by omega)
    have hsplit :=
      fun n => @reached_split d pi n stop start (start + nr) hblock (by omega) (by omega) (by omega)
    by_cases hmore : start + nr < stop
    · have hpage : (start + nr) / 4096 = start / 4096 + 1 := by omega
      have hleft : stop ≤ ((start + nr) / 4096 + fuel) * 4096 := by
        rw [hpage, add_assoc, add_comm 1 fuel]
        exact hfuel
      obtain ⟨l', hrun, hl'⟩ := ih hmore hleft
      refine ⟨l', by rw [if_pos hmore]; exact hrun, ?_⟩
      intro n
      rw [hl', flushed_append, hround, hsplit, hpage, or_assoc]
    · refine ⟨_, if_neg hmore, ?_⟩
      intro n
      have hnone : ¬ ∃ y, start + nr ≤ y ∧ y < stop ∧ Reached d pi (start / 4096 + 1) y ∧
        lineOf d pi y = n := by
        rintro ⟨y, h1, h2, -⟩
        omega
      rw [flushed_append, hround, hsplit, or_iff_left hnone]

/-! ### The blocks of a file -/

/-- The blocks of the tree begin at page boundaries. -/
def PageAligned (d : Dev) (pi : PmfsInode) : Prop := ∀ n, 4096 ∣ mapped d pi n

/-- The page on the device is that of the data block, and the place in it. -/
theorem blockAt_eq (hroot : pi.root = 0 → pi.height = 0) (hblock : blockAt d pi p ≠ 0) :
    mapped d pi (indexOf pi p) ≠ 0 ∧
    blockAt d pi p = mapped d pi (indexOf pi p) + p % unit pi * 4096 := by
  have hand : p &&& (1 <<< (pmfsInodeBlkShift pi - 12)) - 1 = p % unit pi := by
    rw [Nat.one_shiftLeft, Nat.and_two_pow_sub_one_eq_mod]
    rfl
  unfold blockAt at hblock ⊢
  rw [findDataBlock_mapped hroot, hand, Option.getD_some] at hblock ⊢
  split_ifs at hblock ⊢ with h0
  · exact absurd rfl hblock
  · exact ⟨h0, by rw [Nat.shiftLeft_eq]⟩

theorem unit_eq (pi : PmfsInode) : unit pi = pmfsGetNumblocks pi.iBlkType := by
  unfold unit pmfsInodeBlkShift
  rcases pi.iBlkType with - | - | - <;> decide

theorem page_mem_runBlocks (hroot : pi.root = 0 → pi.height = 0) (hblock : blockAt d pi p ≠ 0) :
    blockAt d pi p / 4096 ∈
    runBlocks pi.iBlkType (pmfsGetBlocknr (mapped d pi (indexOf pi p))) := by
  have hlt : p % unit pi < pmfsGetNumblocks pi.iBlkType := unit_eq pi ▸ Nat.mod_lt p (unit_pos pi)
  rw [mem_runBlocks, (blockAt_eq hroot hblock).2, pmfsGetBlocknr, shiftRight_page]
  omega

/-- Different pages of a file are different pages on the device. -/
theorem page_injective {R : Multiset ℕ} {q : ℕ} (hwf : WellFormed R d pi) (hp : blockAt d pi p ≠ 0)
    (hq : blockAt d pi q ≠ 0) (heq : blockAt d pi p / 4096 = blockAt d pi q / 4096) : p = q := by
  obtain ⟨hmp, hbp⟩ := blockAt_eq hwf.root hp
  obtain ⟨hmq, hbq⟩ := blockAt_eq hwf.root hq
  have hindex : indexOf pi p = indexOf pi q := by
    by_contra hne
    have hdis := hwf.disjoint hne hmp hmq
    exact Multiset.disjoint_left.mp hdis (page_mem_runBlocks hwf.root hp)
      (heq ▸ page_mem_runBlocks hwf.root hq)
  have hdiv : p / unit pi = q / unit pi := by
    simpa only [indexOf, unit, Nat.shiftRight_eq_div_pow] using hindex
  have hmod : p % unit pi = q % unit pi := by
    rw [hbp, hbq, hindex] at heq
    omega
  rw [← Nat.div_add_mod p (unit pi), ← Nat.div_add_mod q (unit pi), hdiv, hmod]

theorem lineOf_injective {R : Multiset ℕ} {x : ℕ} (hwf : WellFormed R d pi)
    (halign : PageAligned d pi) (hx : blockAt d pi (x / 4096) ≠ 0)
    (hy : blockAt d pi (y / 4096) ≠ 0) (heq : lineOf d pi x = lineOf d pi y) :
    x / 4096 = y / 4096 := by
  have hdvd : ∀ {p}, blockAt d pi p ≠ 0 → 4096 ∣ blockAt d pi p := by
    intro p hp
    rw [(blockAt_eq hwf.root hp).2]
    exact Nat.dvd_add (halign _) (Nat.dvd_mul_left _ _)
  refine page_injective hwf hx hy ?_
  have h1 := hdvd hx
  have h2 := hdvd hy
  simp only [lineOf, line, CACHELINE_SIZE] at heq
  omega

/-! ### `pmfs_fsync` -/

/-- The end of the range of `pmfs_fsync` in the file. -/
def endOf (f : File) (last : ℕ) : ℕ := min f.inode.iSize (last + 1)

/-- The byte is one of those that `pmfs_fsync` has to care for: in the range and in the file, and
not in a hole. -/
def InRange (f : File) (start last x : ℕ) : Prop :=
  start ≤ x ∧ x ≤ last ∧ x < f.inode.iSize ∧ blockAt f.d f.pi (x / 4096) ≠ 0

/-- No page of the range with a block comes behind a hole. -/
def NoHoleBefore (f : File) (start last : ℕ) : Prop :=
  ∀ p q, start / 4096 ≤ p → p ≤ q → q ≤ (endOf f last - 1) / 4096 → blockAt f.d f.pi q ≠ 0 →
    blockAt f.d f.pi p ≠ 0

variable {f : File} {start last : ℕ}

theorem pmfsFsync_eq (hle : start ≤ last) (hs : start < f.inode.iSize) :
    pmfsFsync f true start last = (fsyncLoop f.d f.pi (cachelineAlign (endOf f last))
      (cachelineAlign (endOf f last) / 4096 + 1) (start / 64 * 64) []).map .ok := by
  have hmin : (if last + 1 > f.inode.iSize then f.inode.iSize else last + 1) = endOf f last := by
    unfold endOf
    split_ifs <;> omega
  have hgo : ¬ (f.inode.iSize = 0 ∨ start ≥ endOf f last) := by
    unfold endOf
    omega
  simp only [pmfsFsync, if_true, hmin, if_neg hgo]
  rfl

/-- `pmfs_fsync` flushes the lines up to the first hole. -/
theorem fsync_flushed (hroot : f.pi.root = 0 → f.pi.height = 0) (hle : start ≤ last)
    (hs : start < f.inode.iSize) : ∃ l, pmfsFsync f true start last = some (.ok l) ∧
    ∀ n, Flushed l n ↔
      ∃ y, start / 64 * 64 ≤ y ∧ y < cachelineAlign (endOf f last) ∧
      Reached f.d f.pi (start / 4096) y ∧
        lineOf f.d f.pi y = n := by
  have hlt : start / 64 * 64 < cachelineAlign (endOf f last) := by
    simp only [endOf, cachelineAlign, CACHELINE_SIZE]
    omega
  have hpage : start / 64 * 64 / 4096 = start / 4096 := by omega
  have hfuel : cachelineAlign (endOf f last) ≤
      (start / 64 * 64 / 4096 + (cachelineAlign (endOf f last) / 4096 + 1)) * 4096 := by omega
  obtain ⟨l, hrun, hl⟩ := fsyncLoop_spec hroot hlt hfuel
  refine ⟨l, by rw [pmfsFsync_eq hle hs, hrun]; rfl, ?_⟩
  simpa only [hpage, not_flushed_nil, false_or] using hl

/-- **Main result.** `pmfs_fsync` flushes every cache line of the range that is in a block when no
page of the range with a block comes behind a hole, and only then. -/
theorem fsync_flushes_iff (R : Multiset ℕ) (f : File) (start last : ℕ) (hwf : WellFormed R f.d f.pi)
    (halign : PageAligned f.d f.pi) (hle : start ≤ last) (hs : start < f.inode.iSize) :
    ∃ l, pmfsFsync f true start last = some (.ok l) ∧
      ((∀ x, InRange f start last x → Flushed l (lineOf f.d f.pi x)) ↔
      NoHoleBefore f start last) := by
  obtain ⟨l, hrun, hl⟩ := fsync_flushed hwf.root hle hs
  refine ⟨l, hrun, ?_, ?_⟩
  · intro hall p q h1 h2 h3 hq
    -- a byte of the page `q` that is in the range
    obtain ⟨x, hx, hpage⟩ : ∃ x, InRange f start last x ∧ x / 4096 = q := by
      refine ⟨max start (q * 4096), ?_⟩
      have hdiv : max start (q * 4096) / 4096 = q := by omega
      unfold endOf at h3
      exact ⟨⟨by omega, by omega, by omega, by rwa [hdiv]⟩, hdiv⟩
    obtain ⟨y, hy, -, hreach, hline⟩ := (hl _).mp (hall x hx)
    have hsame : y / 4096 = x / 4096 :=
      lineOf_injective hwf halign (hreach _ (by omega) le_rfl) (by rwa [hpage]) hline
    exact hreach p h1 (by omega)
  · intro hno x hx
    obtain ⟨h1, h2, h3, h4⟩ := hx
    refine (hl _).mpr ⟨x, by omega, ?_, ?_, rfl⟩
    · simp only [endOf, cachelineAlign, CACHELINE_SIZE]
      omega
    · intro p hp hpx
      refine hno p (x / 4096) hp hpx ?_ h4
      unfold endOf
      omega

/-- A file of ten bytes in one block. -/
def pageFile : File :=
  ⟨newDev 18, { plainFile with iSize := 10, iBlocks := 1 },
    { zeroInode with iSize := 10, root := 16 <<< 12, iBlocks := 1 }⟩

theorem wellFormed_pageFile : ∃ R, WellFormed R pageFile.d pageFile.pi := by
  obtain ⟨R, hR⟩ := exists_owns (d := newDev 18) (wf_init (by decide) (by decide))
  have hmem : 16 ∈ R :=
    (hR.mem 16).mpr (by rw [newDev, inUse_init (by decide)]; exact ⟨by decide, by decide⟩)
  have hblocks : inodeBlocks pageFile.d pageFile.pi = {16} := by
    unfold inodeBlocks treeOf
    rw [show pageFile.pi.height = 0 from rfl, tree_leaf (by decide), blocks_leaf]
    rfl
  refine ⟨R.erase 16, ?_, fun _ => rfl, by decide⟩
  rw [hblocks, Multiset.singleton_add, Multiset.cons_erase hmem]
  exact hR

theorem pageAligned_pageFile : PageAligned pageFile.d pageFile.pi := by
  intro n
  unfold mapped treeOf lookup
  rw [show pageFile.pi.height = 0 from rfl, tree_leaf (by decide)]
  split_ifs
  · exact Nat.dvd_mul_left 4096 16
  · exact Nat.dvd_zero _

theorem fsync_flushes_one : ∃ R l, WellFormed R pageFile.d pageFile.pi ∧
    pmfsFsync pageFile true 0 9 = some (.ok l) ∧ ∀ x, InRange pageFile 0 9 x →
    Flushed l (lineOf pageFile.d pageFile.pi x) := by
  obtain ⟨R, hwf⟩ := wellFormed_pageFile
  obtain ⟨l, hrun, hall⟩ :=
    fsync_flushes_iff R pageFile 0 9 hwf pageAligned_pageFile (by decide) (by decide)
  refine ⟨R, l, hwf, hrun, hall.mpr ?_⟩
  intro p q h1 h2 h3 hq
  have hq0 : q ≤ 0 := h3
  rwa [show p = q by omega]

/-- A file of two pages with a hole before its only block: `pmfs_fsync` returns 0 and flushes
nothing. -/
theorem fsync_stops_at_hole : ∃ R d pi, WellFormed R d pi ∧ blockAt d pi 0 = 0 ∧
    blockAt d pi 1 ≠ 0 ∧ pmfsFsync ⟨d, { plainFile with iSize := 8192 },
    { pi with iSize := 8192 }⟩ true 0 8191 = some (.ok []) := by
  obtain ⟨R, h0, hwf⟩ := zeroInode_on (n := 64) (by decide)
  obtain ⟨d, pi, o, hrun, hadd, -⟩ := alloc_added 1 1 true hwf
  obtain ⟨r, hr, hzero, hone, hsync⟩ : ∃ r ∈ __pmfsAllocBlocks (newDev 64) zeroInode 1 1 true,
      blockAt r.1 r.2.1 0 = 0 ∧ blockAt r.1 r.2.1 1 ≠ 0 ∧
      pmfsFsync ⟨r.1, { plainFile with iSize := 8192 },
        { r.2.1 with iSize := 8192 }⟩ true 0 8191 = some (.ok []) := by
    decide +kernel
  rw [hrun, Option.mem_some_iff] at hr
  subst hr
  exact ⟨R, d, pi, hadd.wellFormed, hzero, hone, hsync⟩

/-! ### The edges of a write -/

theorem flushed_byte {a : ℕ} : Flushed (pmfsFlushBuffer a 1) n ↔ line a = n := by
  rw [flushed_buffer le_rfl (by decide)]
  constructor
  · rintro ⟨z, h1, h2, rfl⟩
    rw [show z = a by omega]
  · rintro rfl
    exact ⟨a, le_rfl, Nat.lt_succ_self a, rfl⟩

/-- The lines that `pmfs_flush_edge_cachelines` flushes. -/
theorem flushed_edges {pos len a : ℕ} : Flushed (pmfsFlushEdgeCachelines pos len a) n ↔
    (pos % 8 ≠ 0 ∧ line a = n) ∨
      ((pos + len) % 8 ≠ 0 ∧ pos % 64 ≠ (pos + len) % 64) ∧ line (a + len) = n := by
  unfold pmfsFlushEdgeCachelines CACHELINE_SIZE
  rw [flushed_append]
  split_ifs with h1 h2 h2 <;> simp [flushed_byte, h1, h2]

/-- **Main result.** After a copy into a page, the lines of all bytes that were written with a
cached store are flushed unless the copy begins inside of a word and its length is a multiple of the
line size. -/
theorem edges_flushed_iff (base pos len : ℕ) (hbase : base % 4096 = 0) (hlen : 1 ≤ len) :
    (∀ x, CachedStore pos len x →
      Flushed (pmfsFlushEdgeCachelines pos len (base + pos % 4096))
      (line (base + pos % 4096 + (x - pos)))) ↔
    ¬ (pos % 8 ≠ 0 ∧ len % 64 = 0) := by
  simp only [flushed_edges, line, CACHELINE_SIZE]
  constructor
  · rintro hall ⟨hword, hline⟩
    -- the last byte shares its word with the first byte behind the copy
    have hlast := hall (pos + len - 1) ⟨by omega, by omega, Or.inr (by omega)⟩
    omega
  · rintro hcon x ⟨h1, h2, h3⟩
    omega

/-- The last of 10 bytes from the position 3 on. -/
theorem edges_flushed_ten : CachedStore 3 10 12 ∧
    Flushed (pmfsFlushEdgeCachelines 3 10 (4096 + 3)) (line (4096 + 3 + (12 - 3))) := by
  have hstore : CachedStore 3 10 12 := by
    unfold CachedStore
    omega
  exact ⟨hstore, (edges_flushed_iff 4096 3 10 rfl (by norm_num)).mpr (by norm_num) 12 hstore⟩

/-- Of 64 bytes from the position 1 on, the last is written with a cached store and its line is not
flushed. -/
theorem edge_not_flushed : CachedStore 1 64 64 ∧
    ¬ Flushed (pmfsFlushEdgeCachelines 1 64 (4096 + 1)) (line (4096 + 1 + (64 - 1))) := by
  refine ⟨by unfold CachedStore; omega, ?_⟩
  rw [flushed_edges]
  decide

end Pmfs.Flush.Lines
