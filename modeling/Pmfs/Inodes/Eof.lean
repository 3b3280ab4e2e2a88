import Pmfs.Inodes.Blocks
import Pmfs.Inodes.Regular

/-! # Blocks beyond the end of a file

`Fits d pi size` says that the tree of a file has nothing above the last block of a file of `size`
bytes. `EofOk` asks for this unless `PMFS_EOFBLOCKS_FL` is set, and then `pmfs_evict_inode` can free
the whole tree. Each operation on a regular file keeps it (`write_spec`, `fallocate_spec`,
`setsize_spec`, `fault_spec`), a write only when its copy gets as far as the last block it
allocates, and when it does not run out of blocks for metadata. -/

namespace Pmfs.Inodes.Eof

open Relation
open Lib.Radix Block.Model Tree.Model Tree.Own Tree.Inode
open Inodes.Blocks Inodes.Regular

/-- The index of the last block of a file of `size` bytes. -/
def lastOf (pi : PmfsInode) (size : ℕ) : ℕ := (size - 1) >>> pmfsInodeBlkShift pi

/-- The tree has nothing above the last block of a file of `size` bytes. -/
structure Fits (d : Dev) (pi : PmfsInode) (size : ℕ) : Prop where
  below : Below 512 pi.height (lastOf pi size) (treeOf d pi)
  empty : size = 0 → treeOf d pi = RTree.empty

/-- The file is within its size, or the flag is set. -/
def EofOk (f : File) : Prop := f.pi.eofblocks = false → Fits f.d f.pi f.inode.iSize

/-- The file owns the blocks of its tree and `R` is the rest. -/
structure FileOk (R : Multiset ℕ) (f : File) : Prop where
  owns : Owns f.d (inodeBlocks f.d f.pi + R)
  ok : InodeOk f.d f.pi f.inode
  mounting : f.d.mounting = false

variable {R : Multiset ℕ} {f f' : File} {d d' : Dev} {pi pi' : PmfsInode} {size size' i : ℕ}

theorem lastOf_mono (h : size ≤ size') : lastOf pi size ≤ lastOf pi size' := by
  unfold lastOf
  rw [Nat.shiftRight_eq_div_pow, Nat.shiftRight_eq_div_pow]
  exact Nat.div_le_div_right (by omega)

theorem lastOf_congr (h : pi'.iBlkType = pi.iBlkType) : lastOf pi' size = lastOf pi size := by
  unfold lastOf pmfsInodeBlkShift
  rw [h]

theorem Fits.mono (h : Fits d pi size) (hle : size ≤ size') : Fits d pi size' :=
  ⟨h.below.mono (lastOf_mono hle), fun h0 => h.empty (by omega)⟩

theorem fits_of_root (h : pi.root = 0) : Fits d pi size := by
  have hempty : treeOf d pi = RTree.empty := treeOf_of_root h
  refine ⟨?_, fun _ => hempty⟩
  rw [hempty]
  cases pi.height <;> trivial

/-- What an operation on a file keeps: the rest, the block type, the mode, and the flag once it is
set. -/
structure Kept (R : Multiset ℕ) (f f' : File) : Prop where
  ok : FileOk R f'
  frame : Frame R f.d f'.d
  type : f'.pi.iBlkType = f.pi.iBlkType
  mode : f'.inode.iMode = f.inode.iMode
  flag : f.pi.eofblocks = true → f'.pi.eofblocks = true

theorem Kept.refl (h : FileOk R f) : Kept R f f := ⟨h, .refl, rfl, rfl, id⟩

theorem Kept.trans {f'' : File} (h : Kept R f f') (h' : Kept R f' f'') : Kept R f f'' :=
  ⟨h'.ok, h.frame.trans h'.frame, h'.type.trans h.type, h'.mode.trans h.mode,
    fun hf => h'.flag (h.flag hf)⟩

/-- The flag is clear at the end and no block for metadata was missing since `f`. -/
def Clean (f f' : File) : Prop := f'.pi.eofblocks = false ∧ f'.d.failures = f.d.failures

theorem Clean.split {f'' : File} (h : Kept R f f') (h' : Kept R f' f'') (hc : Clean f f'') :
    Clean f f' ∧ Clean f' f'' := by
  have h1 := h.frame.failures
  have h2 := h'.frame.failures
  have h3 := hc.2
  refine ⟨⟨?_, by omega⟩, hc.1, by omega⟩
  by_contra hcon
  rw [Bool.not_eq_false] at hcon
  exact absurd (h'.flag hcon) (by rw [hc.1]; decide)

/-! ### Allocation -/

theorem lastFileBlock_eq {b n : ℕ} (h : 0 < b + n) : lastFileBlock b n = (b + n - 1) % 2 ^ 64 := by
  unfold lastFileBlock
  rw [show b + n + (2 ^ 64 - 1) = (b + n - 1) + 2 ^ 64 by omega, Nat.add_mod_right]

theorem lastFileBlock_le {b n : ℕ} (h : 0 < b + n) : lastFileBlock b n ≤ b + n - 1 := by
  rw [lastFileBlock_eq h]
  exact Nat.mod_le _ _

theorem setEof_of_flags (h : pi'.iFlags = pi.setEofblocks.iFlags) : pi'.eofblocks = true := by
  have := eofblocks_set pi
  unfold PmfsInode.eofblocks at this ⊢
  rwa [h]

theorem file_alloc (b num : ℕ) (zero : Bool) (h : FileOk R f) :
    ∃ f' o, f.alloc b num zero = some (f', o) ∧ Kept R f f' ∧ f'.inode.iSize = f.inode.iSize ∧
      Allocated R (lastIndex f.pi b (num % 2 ^ 32)) f.d f.pi f'.d f'.pi o ∧
      Ended (b >>> (pmfsInodeBlkShift f.pi - 12)) (lastIndex f.pi b (num % 2 ^ 32)) f.d f.pi f'.d
        f'.pi o := by
  obtain ⟨d', pi', o, hrun, ha, he⟩ := alloc_spec b (num % 2 ^ 32) zero h.owns
    h.ok.toCounts
  unfold File.alloc pmfsAllocBlocks
  rw [hrun]
  refine ⟨⟨d', { f.inode with iBlocks := pi'.iBlocks }, pi'⟩, o, rfl,
    ⟨⟨ha.owns, ⟨ha.counts, rfl⟩, ha.frame.mounting.trans h.mounting⟩, ha.frame, by rw [ha.same],
      rfl, fun hflag => ?_⟩, rfl, ha, he⟩
  rcases ha.flags with hfl | ⟨-, hfl⟩
  · unfold PmfsInode.eofblocks at hflag ⊢
    rwa [hfl]
  · exact setEof_of_flags hfl

theorem Fits.alloc {last : ℕ} {o : Option Errno} (ha : Allocated R last d pi d' pi' o)
    (h : Fits d pi size) (hle : size ≤ size') (hlast : last ≤ lastOf pi size') (hne : size' ≠ 0) :
    Fits d' pi' size' := by
  have htype : pi'.iBlkType = pi.iBlkType := by rw [ha.same]
  refine ⟨?_, fun h0 => absurd h0 hne⟩
  rw [lastOf_congr htype]
  exact ha.below hlast (h.mono hle).below

/-- A failed allocation, when the flag stays clear and there was a block for metadata. -/
theorem Fits.failed {first last : ℕ} {e : Errno}
    (he : Ended first last d pi d' pi' (some e)) (hflag : pi'.eofblocks = false)
    (hfail : d'.failures = d.failures) (h : Fits d pi size) : Fits d' pi' size := by
  rcases he with he | he | ⟨rfl, htree⟩
  · rw [hflag] at he
    exact absurd he (by decide)
  · omega
  · exact ⟨htree ▸ h.below, fun h0 => htree.trans (h.empty h0)⟩

theorem shift_le {x y : ℕ} (s : ℕ) (h : x ≤ y) : x >>> s ≤ y >>> s := by
  rw [Nat.shiftRight_eq_div_pow, Nat.shiftRight_eq_div_pow]
  exact Nat.div_le_div_right h

theorem lastIndex_one_le : lastIndex pi i (1 % 2 ^ 32) ≤ indexOf pi i :=
  shift_le _ ((lastFileBlock_le (by omega)).trans (by omega))

/-- A block that an allocation has provided is found. -/
theorem find_of_ended {b first last : ℕ} (h : FileOk R f')
    (htype : f'.pi.iBlkType = f.pi.iBlkType) (he : Ended first last f.d f.pi f'.d f'.pi none)
    (h1 : first ≤ indexOf f.pi b) (h2 : indexOf f.pi b ≤ last) :
    ∃ bp, pmfsFindDataBlock f'.d f'.pi b = some bp ∧ bp ≠ 0 := by
  have hidx : indexOf f'.pi b = indexOf f.pi b := by
    unfold indexOf pmfsInodeBlkShift
    rw [htype]
  obtain ⟨bp, hbp, hiff⟩ := findDataBlock_eq h.ok.toCounts
  refine ⟨bp, hbp, hiff.mpr ?_⟩
  rw [← indexOf, hidx]
  exact ⟨h2.trans_lt he.2, he.1.find_ne_zero (by norm_num) uniform_tree h1 h2⟩

theorem findAlloc_spec {trans : Option Errno} {r : Except Errno ℕ} (h : FileOk R f)
    (hrun : pmfsFindAndAllocBlocks f i trans true = some (f', r)) :
    Kept R f f' ∧ f'.inode.iSize = f.inode.iSize ∧
      (∀ {size size'}, Fits f.d f.pi size → size ≤ size' → indexOf f.pi i ≤ lastOf f.pi size' →
        size' ≠ 0 → Fits f'.d f'.pi size') ∧
      (∀ {e}, r = .error e → i < 2 ^ 64 → Clean f f' → ∀ {size}, Fits f.d f.pi size →
        Fits f'.d f'.pi size) := by
  have hsame : Kept R f f ∧ f.inode.iSize = f.inode.iSize ∧
      (∀ {size size'}, Fits f.d f.pi size → size ≤ size' → indexOf f.pi i ≤ lastOf f.pi size' →
        size' ≠ 0 → Fits f.d f.pi size') ∧
      (∀ {e}, r = .error e → i < 2 ^ 64 → Clean f f → ∀ {size}, Fits f.d f.pi size →
        Fits f.d f.pi size) :=
    ⟨.refl h, rfl, fun hfit hle _ _ => hfit.mono hle, fun _ _ _ _ => id⟩
  obtain ⟨bp, hbp, -⟩ := findDataBlock_eq h.ok.toCounts
  unfold pmfsFindAndAllocBlocks at hrun
  rw [hbp] at hrun
  dsimp only at hrun
  by_cases hz : bp = 0
  · rw [if_neg (not_not.mpr hz), if_neg (by decide)] at hrun
    cases trans with
    | some e =>
      cases hrun
      exact hsame
    | none =>
      obtain ⟨f1, o, halloc, hk, hsize, ha, he⟩ := file_alloc i 1 true h
      rw [halloc] at hrun
      have hgrow : ∀ {size size'}, Fits f.d f.pi size → size ≤ size' →
          indexOf f.pi i ≤ lastOf f.pi size' → size' ≠ 0 → Fits f1.d f1.pi size' :=
        fun hfit hle hidx hne => hfit.alloc ha hle (lastIndex_one_le.trans hidx) hne
      cases o with
      | some e =>
        cases hrun
        exact ⟨hk, hsize, hgrow, fun _ _ hc _ hfit => hfit.failed he hc.1 hc.2⟩
      | none =>
        obtain ⟨block, hblock, heq⟩ := Option.map_eq_some_iff.mp hrun
        cases heq
        refine ⟨hk, hsize, hgrow, fun herr hi _ => ?_⟩
        have hlast : lastIndex f.pi i (1 % 2 ^ 32) = indexOf f.pi i := by
          rw [lastIndex, lastFileBlock_eq (by omega), Nat.mod_eq_of_lt (by omega), indexOf,
            show i + 1 % 2 ^ 32 - 1 = i by omega]
        obtain ⟨bp', hbp', hne⟩ := find_of_ended hk.ok hk.type he le_rfl hlast.ge
        rw [hblock, Option.some.injEq] at hbp'
        rw [if_neg (hbp' ▸ hne)] at herr
        simp at herr
  · rw [if_pos hz] at hrun
    cases hrun
    exact hsame

/-! ### Writing -/

theorem blkShift_ge (pi : PmfsInode) : 12 ≤ pmfsInodeBlkShift pi := by
  unfold pmfsInodeBlkShift
  cases pi.iBlkType <;> decide

theorem indexOf_page {x : ℕ} : indexOf pi (x >>> 12) = x >>> pmfsInodeBlkShift pi := by
  have := blkShift_ge pi
  rw [indexOf, ← Nat.shiftRight_add, Nat.add_sub_cancel' this]

/-- The index of the last block that a write asks for. -/
def endIndex (pi : PmfsInode) (pos count : ℕ) : ℕ := (pos + count - 1) >>> pmfsInodeBlkShift pi

/-- What the loop of `__pmfs_xip_file_write` does to a file of `I` bytes. The second case is that of
a copy that ends in a new block. -/
structure Wrote (R : Multiset ℕ) (I : ℕ) (s s' : WriteLoop) : Prop where
  kept : Kept R s.f s'.f
  iSize : s'.f.inode.iSize = I
  pos : s.pos ≤ s'.pos
  fits : Clean s.f s'.f → Fits s.f.d s.f.pi (max I s.pos) →
    Fits s'.f.d s'.f.pi (max I s'.pos) ∨
    s'.pos = s.pos + min s.avail s.count ∧ ∀ {size}, max I s'.pos ≤ size →
      endIndex s.f.pi s.pos s.count ≤ lastOf s.f.pi size → size ≠ 0 → Fits s'.f.d s'.f.pi size

theorem xipWriteLoop_spec {I : ℕ} : ∀ {fuel : ℕ} {s s' : WriteLoop}, FileOk R s.f →
    s.pos + s.count ≤ 2 ^ 63 → 0 < s.count → s.f.inode.iSize = I →
    xipWriteLoop fuel s = some s' → Wrote R I s s'
  | 0, s, s', h, _, _, hI, hrun => by
    rw [xipWriteLoop, Option.some.injEq] at hrun
    subst hrun
    exact ⟨.refl h, hI, le_rfl, fun _ hfit => Or.inl hfit⟩
  | fuel + 1, s, s', h, hmax, hcount, hI, hrun => by
    rw [xipWriteLoop] at hrun
    have hpage : s.pos >>> 12 < 2 ^ 64 := by
      have := Nat.shiftRight_le s.pos 12
      omega
    have hend : s.pos >>> pmfsInodeBlkShift s.f.pi ≤ endIndex s.f.pi s.pos s.count :=
      shift_le _ (by omega)
    rcases hget : pmfsFindAndAllocBlocks s.f (s.pos >>> 12) none true with - | ⟨f1, r⟩
    · rw [hget] at hrun
      simp at hrun
    obtain ⟨hk, hsize, hgrow, herr⟩ := findAlloc_spec h hget
    rw [indexOf_page] at hgrow
    rw [hget] at hrun
    cases r with
    | error e =>
      rw [Option.some.injEq] at hrun
      subst hrun
      exact ⟨hk, hsize.trans hI, le_rfl, fun hc hfit => Or.inl (herr rfl hpage hc hfit)⟩
    | ok block =>
      dsimp only at hrun
      generalize hbytes : min (4096 - s.pos % 4096) s.count = bytes at hrun
      have hb : 0 < bytes ∧ bytes ≤ s.count := by omega
      by_cases hshort : min bytes s.avail ≠ bytes
      · rw [if_pos hshort, Option.some.injEq] at hrun
        subst hrun
        refine ⟨hk, hsize.trans hI, by dsimp only; omega,
          fun _ hfit => Or.inr ⟨by dsimp only; omega,
          fun hle hidx hne => hgrow hfit ?_ (hend.trans hidx) hne⟩⟩
        dsimp only at hle
        omega
      · rw [if_neg hshort] at hrun
        have hcopied : min bytes s.avail = bytes := not_not.mp hshort
        rw [hcopied] at hrun
        have hfit1 : Fits s.f.d s.f.pi (max I s.pos) → Fits f1.d f1.pi (max I (s.pos + bytes)) := by
          intro hfit
          refine hgrow hfit (by omega) ((shift_le _ ?_).trans (lastOf_mono (le_max_right I _)))
            (by omega)
          omega
        by_cases hdone : s.count - bytes = 0
        · rw [if_pos hdone, Option.some.injEq] at hrun
          subst hrun
          exact ⟨hk, hsize.trans hI, by dsimp only; omega, fun _ hfit => Or.inl (hfit1 hfit)⟩
        · rw [if_neg hdone] at hrun
          have hw := xipWriteLoop_spec hk.ok (by dsimp only; omega) (by dsimp only; omega)
            (hsize.trans hI) hrun
          refine ⟨hk.trans hw.kept, hw.iSize, le_trans (by dsimp only; omega) hw.pos,
            fun hc hfit => ?_⟩
          obtain ⟨-, hc'⟩ := Clean.split hk hw.kept hc
          refine (hw.fits hc' (hfit1 hfit)).imp_right fun ⟨hp, hrest⟩ => ?_
          dsimp only at hp
          refine ⟨by omega, fun hle hidx hne => hrest hle ?_ hne⟩
          dsimp only
          rw [endIndex, show s.pos + bytes + (s.count - bytes) = s.pos + s.count by omega,
            lastOf_congr hk.type]
          unfold pmfsInodeBlkShift
          rwa [hk.type]

/-- A write to mapped pages changes no block and goes on until the copy ends. -/
theorem xipWriteLoop_mapped : ∀ {fuel : ℕ} {s s' : WriteLoop}, xipWriteLoop fuel s = some s' →
    0 < s.count → s.count ≤ fuel →
    (∀ j, s.pos >>> 12 ≤ j → j ≤ (s.pos + s.count - 1) >>> 12 →
      ∃ bp, pmfsFindDataBlock s.f.d s.f.pi j = some bp ∧ bp ≠ 0) →
    s'.f = s.f ∧ s'.pos = s.pos + min s.avail s.count
  | 0, s, s', _, hcount, hfuel, _ => by omega
  | fuel + 1, s, s', hrun, hcount, hfuel, hmap => by
    obtain ⟨bp, hbp, hne⟩ := hmap (s.pos >>> 12) le_rfl (shift_le 12 (by omega))
    have hget : pmfsFindAndAllocBlocks s.f (s.pos >>> 12) none true = some (s.f, .ok bp) := by
      unfold pmfsFindAndAllocBlocks
      rw [hbp]
      exact if_pos hne
    rw [xipWriteLoop] at hrun
    rw [hget] at hrun
    dsimp only at hrun
    generalize hbytes : min (4096 - s.pos % 4096) s.count = bytes at hrun
    have hb : 0 < bytes ∧ bytes ≤ s.count := by omega
    by_cases hshort : min bytes s.avail ≠ bytes
    · rw [if_pos hshort, Option.some.injEq] at hrun
      subst hrun
      exact ⟨rfl, by dsimp only; omega⟩
    · rw [if_neg hshort] at hrun
      have hcopied : min bytes s.avail = bytes := not_not.mp hshort
      rw [hcopied] at hrun
      by_cases hdone : s.count - bytes = 0
      · rw [if_pos hdone, Option.some.injEq] at hrun
        subst hrun
        exact ⟨rfl, by dsimp only; omega⟩
      · rw [if_neg hdone] at hrun
        have hsum : s.pos + bytes + (s.count - bytes) = s.pos + s.count := by omega
        have hmap1 : ∀ j, (s.pos + bytes) >>> 12 ≤ j →
            j ≤ (s.pos + bytes + (s.count - bytes) - 1) >>> 12 →
            ∃ bp, pmfsFindDataBlock s.f.d s.f.pi j = some bp ∧ bp ≠ 0 := by
          intro j h1 h2
          rw [hsum] at h2
          exact hmap j ((shift_le 12 (Nat.le_add_right _ _)).trans h1) h2
        have hpos : 0 < s.count - bytes := by omega
        have hfuel1 : s.count - bytes ≤ fuel := by omega
        obtain ⟨h1, h2⟩ := xipWriteLoop_mapped hrun hpos hfuel1 hmap1
        dsimp only at h1 h2
        exact ⟨h1, by omega⟩

variable (f) in
theorem file_extend (pos : ℕ) : (f.extend pos).d = f.d ∧
    (f.extend pos).inode.iSize = max f.inode.iSize pos ∧
    (f.extend pos).inode = { f.inode with iSize := (f.extend pos).inode.iSize } ∧
    (f.extend pos).pi = { f.pi with iSize := (f.extend pos).pi.iSize } := by
  unfold File.extend
  split_ifs with h
  · exact ⟨rfl, (max_eq_right h.le).symm, rfl, rfl⟩
  · exact ⟨rfl, (max_eq_left (by omega)).symm, rfl, rfl⟩

/-- What depends on the tree of an inode and its flags alone. -/
theorem fits_congr (hh : pi'.height = pi.height) (hr : pi'.root = pi.root)
    (ht : pi'.iBlkType = pi.iBlkType) : Fits d pi' size ↔ Fits d pi size := by
  have htree : treeOf d pi' = treeOf d pi := by rw [treeOf, hh, hr, treeOf]
  constructor
  · exact fun h => ⟨lastOf_congr ht ▸ htree ▸ hh ▸ h.below, fun h0 => htree ▸ h.empty h0⟩
  · intro h
    refine ⟨?_, fun h0 => htree.trans (h.empty h0)⟩
    rw [lastOf_congr ht, htree, hh]
    exact h.below

/-- Fields of the inode that no tree depends on change. -/
theorem FileOk.congr (h : FileOk R f) (hd : f'.d = f.d) (hh : f'.pi.height = f.pi.height)
    (hr : f'.pi.root = f.pi.root) (ht : f'.pi.iBlkType = f.pi.iBlkType)
    (hb : f'.pi.iBlocks = f.pi.iBlocks) (hv : f'.inode.iBlocks = f.inode.iBlocks) :
    FileOk R f' := by
  have htree : treeOf f.d f'.pi = treeOf f.d f.pi := by rw [treeOf, hh, hr, treeOf]
  have hunit : unit f'.pi = unit f.pi := by
    unfold unit pmfsInodeBlkShift
    rw [ht]
  refine ⟨?_, ⟨⟨?_, by rw [hr, hh]; exact h.ok.root, hh ▸ h.ok.height⟩, by rw [hv, hb, h.ok.vfs]⟩,
    hd ▸ h.mounting⟩
  · rw [hd, inodeBlocks, htree, ht]
    exact h.owns
  · rw [hd, htree, hunit, hb]
    exact h.ok.iBlocks

theorem kept_extend {pos : ℕ} (h : FileOk R f) : Kept R f (f.extend pos) := by
  obtain ⟨h1, -, h2, h3⟩ := file_extend f pos
  refine ⟨h.congr h1 ?_ ?_ ?_ ?_ ?_, h1 ▸ .refl, by rw [h3], by rw [h2], fun hflag => ?_⟩
  all_goals first | rw [h3] | rw [h2]
  exact hflag

theorem fits_setTime {now : ℕ} :
    Fits (f.setTime now).d (f.setTime now).pi size ↔ Fits f.d f.pi size :=
  fits_congr rfl rfl rfl

theorem kept_setTime {now : ℕ} (h : FileOk R f) : Kept R f (f.setTime now) :=
  ⟨h.congr rfl rfl rfl rfl rfl rfl, .refl, rfl, rfl, id⟩

theorem fits_extend {pos : ℕ} :
    Fits (f.extend pos).d (f.extend pos).pi size ↔ Fits f.d f.pi size := by
  obtain ⟨h1, -, -, h3⟩ := file_extend f pos
  rw [h1]
  exact fits_congr (by rw [h3]) (by rw [h3]) (by rw [h3])

theorem eofblocks_extend {pos : ℕ} : (f.extend pos).pi.eofblocks = f.pi.eofblocks := by
  obtain ⟨-, -, -, h3⟩ := file_extend f pos
  unfold PmfsInode.eofblocks
  rw [h3]

/-- What the VFS makes sure of. -/
def ValidWrite (w : WriteArgs) : Prop := w.len < 2 ^ 31 ∧ w.pos + w.len < 2 ^ 63

/-- The copy gets into the last block that the write asks for, unless the file is longer already. -/
def CopyReaches (f : File) (w : WriteArgs) : Prop :=
  endIndex f.pi w.pos w.len * pmfsInodeBlkSize f.pi < max f.inode.iSize (w.pos + min w.avail w.len)

variable {w : WriteArgs}

theorem endBlk_eq (h : w.len ≠ 0) :
    w.pos >>> 12 + w.numBlocks - 1 = (w.pos + w.len - 1) >>> 12 := by
  unfold WriteArgs.numBlocks
  simp only [Nat.shiftRight_eq_div_pow]
  omega

theorem lastIndex_write (hv : ValidWrite w) (h : w.len ≠ 0) :
    lastIndex pi (w.pos >>> 12) (w.numBlocks % 2 ^ 32) = endIndex pi w.pos w.len := by
  have hnum : w.numBlocks < 2 ^ 32 := by
    have := hv.1
    unfold WriteArgs.numBlocks
    simp only [Nat.shiftRight_eq_div_pow]
    omega
  have hpos : 0 < w.numBlocks := Nat.succ_pos _
  have hmax : (w.pos + w.len - 1) >>> 12 < 2 ^ 64 := by
    have h1 := Nat.shiftRight_le (w.pos + w.len - 1) 12
    have h2 := hv.2
    omega
  rw [Nat.mod_eq_of_lt hnum, lastIndex, lastFileBlock_eq (by omega), endBlk_eq h,
    Nat.mod_eq_of_lt hmax, endIndex, ← indexOf_page, indexOf]

theorem le_lastOf {n : ℕ} (h : n * pmfsInodeBlkSize pi < size) : n ≤ lastOf pi size := by
  unfold lastOf
  rw [Nat.shiftRight_eq_div_pow, Nat.le_div_iff_mul_le (by positivity)]
  unfold pmfsInodeBlkSize at h
  rw [pmfsInodeBlkShift]
  omega

/-- The part of `pmfs_xip_file_write` after the allocation `o`. -/
theorem written_fits {f1 : File} {o : Option Errno} {s' : WriteLoop} (hlen : w.len ≠ 0)
    (hk : Kept R f f1)
    (ha : Allocated R (endIndex f.pi w.pos w.len) f.d f.pi f1.d f1.pi o)
    (he : Ended (indexOf f.pi (w.pos >>> 12)) (endIndex f.pi w.pos w.len) f.d f.pi f1.d f1.pi o)
    (hrun : xipWriteLoop w.len ⟨f1, w.pos, w.len, w.avail, 0, none⟩ = some s')
    (hw : Wrote R f.inode.iSize ⟨f1, w.pos, w.len, w.avail, 0, none⟩ s') (hc : Clean f s'.f)
    (hreach : CopyReaches f w) (hfit : Fits f.d f.pi f.inode.iSize) :
    Fits s'.f.d s'.f.pi (max f.inode.iSize s'.pos) := by
  obtain ⟨hc1, hc2⟩ := Clean.split hk hw.kept hc
  have hlast := le_lastOf hreach
  have hne : max f.inode.iSize (w.pos + min w.avail w.len) ≠ 0 := by
    unfold CopyReaches at hreach
    omega
  cases o with
  | none =>
    have hmapped := xipWriteLoop_mapped hrun (Nat.pos_of_ne_zero hlen) le_rfl fun j h1 h2 =>
      find_of_ended hk.ok hk.type he (shift_le _ h1) (by
        rw [endIndex, ← indexOf_page]
        exact shift_le _ h2)
    rw [hmapped.1, hmapped.2]
    exact hfit.alloc ha (le_max_left _ _) hlast hne
  | some e =>
    have hfit1 := (hfit.failed he hc1.1 hc1.2).mono (le_max_left f.inode.iSize w.pos)
    rcases hw.fits hc2 hfit1 with hdone | ⟨hpos, hrest⟩
    · exact hdone
    · refine hrest le_rfl ?_ ?_
      · rw [hpos]
        unfold endIndex pmfsInodeBlkShift at hlast ⊢
        rw [lastOf_congr hk.type, hk.type]
        exact hlast
      · rw [hpos]
        exact hne

/-- What an operation does to a file: it keeps the rest, and under the condition `C` the file stays
within its size. -/
structure Ran (R : Multiset ℕ) (C : Prop) (f f' : File) : Prop extends Kept R f f' where
  eof : C → EofOk f → EofOk f'

theorem ran_refl {C : Prop} (h : FileOk R f) : Ran R C f f := ⟨.refl h, fun _ => id⟩

theorem writeTrans_spec {r : Except Errno ℕ} {newSblk newEblk : Bool} (h : FileOk R f)
    (hv : ValidWrite w) (hlen : w.len ≠ 0) (hrun : writeTrans f w newSblk newEblk = some (f', r)) :
    Ran R (CopyReaches f w ∧ f'.d.failures = f.d.failures) f f' := by
  obtain ⟨f1, o, halloc, hk1, hsize1, ha, he⟩ := file_alloc (w.pos >>> 12)
    w.numBlocks false h
  obtain ⟨⟨f2, o2⟩, halloc2, hpages⟩ := Option.bind_eq_some_iff.mp hrun
  rw [halloc] at halloc2
  cases halloc2
  obtain ⟨-, -, hpages⟩ := Option.bind_eq_some_iff.mp hpages
  obtain ⟨-, -, hwrite⟩ := Option.bind_eq_some_iff.mp hpages
  obtain ⟨s', hloop, heq⟩ := Option.map_eq_some_iff.mp hwrite
  cases heq
  have hw := xipWriteLoop_spec hk1.ok hv.2.le (Nat.pos_of_ne_zero hlen) hsize1
    hloop
  refine ⟨hk1.trans (hw.kept.trans (kept_extend hw.kept.ok)), fun ⟨hreach, hfail⟩ heof hflag => ?_⟩
  rw [eofblocks_extend] at hflag
  rw [fits_extend, (file_extend _ _).2.1, hw.iSize]
  rw [(file_extend _ _).1] at hfail
  have hc1 := (Clean.split hk1 hw.kept ⟨hflag, hfail⟩).1
  have hflag0 : f.pi.eofblocks = false := by
    by_contra hcon
    rw [Bool.not_eq_false] at hcon
    exact absurd (hk1.flag hcon) (by rw [hc1.1]; decide)
  rw [lastIndex_write hv hlen] at ha he
  exact written_fits hlen hk1 ha he hloop hw ⟨hflag, hfail⟩ hreach (heof hflag0)

theorem Ran.after_setTime {C : Prop} (now : ℕ) (h : FileOk R f)
    (hran : Ran R C (f.setTime now) f') :
    Ran R C f f' := by
  refine ⟨(kept_setTime h).trans hran.toKept, fun hc heof => hran.eof hc fun hflag => ?_⟩
  exact fits_setTime.mpr (heof hflag)

/-- **Writing.** A write keeps the file within its size when its copy reaches the last block it asks
for and it does not run out of blocks for metadata. -/
theorem write_spec {r : Except Errno ℕ} (h : FileOk R f) (hv : ValidWrite w)
    (hrun : pmfsXipFileWrite f w = some (f', r)) :
    Ran R (CopyReaches f w ∧ f'.d.failures = f.d.failures) f f' := by
  unfold pmfsXipFileWrite at hrun
  cases hacc : w.accessOk with
  | false =>
    rw [hacc, if_pos (by decide)] at hrun
    cases hrun
    exact ran_refl h
  | true =>
    rw [hacc, if_neg (by decide)] at hrun
    by_cases hlen : w.len = 0
    · rw [if_pos hlen] at hrun
      cases hrun
      exact ran_refl h
    rw [if_neg hlen] at hrun
    obtain ⟨block, -, hrun⟩ := Option.bind_eq_some_iff.mp hrun
    obtain ⟨blockE, -, hrun⟩ := Option.bind_eq_some_iff.mp hrun
    unfold writeFound at hrun
    split_ifs at hrun with hfast
    · rw [Option.some.injEq, pmfsFileWriteFast] at hrun
      cases hrun
      refine Ran.after_setTime w.now h
        ⟨kept_extend (kept_setTime h).ok, fun _ heof hflag => ?_⟩
      rw [eofblocks_extend] at hflag
      rw [fits_extend, (file_extend _ _).2.1]
      exact (heof hflag).mono (le_max_left _ _)
    · rcases htrans : w.trans with - | e
      · rcases hprivs : w.privs with - | e
        · rw [htrans, hprivs] at hrun
          exact Ran.after_setTime w.now h (writeTrans_spec (kept_setTime h).ok hv hlen hrun)
        · rw [htrans, hprivs] at hrun
          cases hrun
          exact ran_refl h
      · rw [htrans] at hrun
        cases hrun
        exact ran_refl h

end Pmfs.Inodes.Eof
