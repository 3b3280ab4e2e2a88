import Pmfs.Inodes.Content

/-! # What a write does to the bytes of a file

The loop of `__pmfs_xip_file_write` is one copy into the file (`writeLoop_spec`), and so is
`pmfs_file_write_fast` (`writeFast_spec`). `__pmfs_find_data_block` without a check reads the index
`reached` of the tree (`findLoop32_eq`), so that `pmfs_clear_edge_blk` zeroes a part of the block
there, if the tree has that index (`clearEdges_spec`). -/

namespace Pmfs.Inodes.Writes

open Lib.Bytes Lib.Radix Lib.RadixMap Block.Model Tree.Model Tree.Own
open Tree.Truncate Tree.Inode Tree.Extend Inodes.Data Inodes.Content
open Inodes.Regular (File WriteArgs writeResult)
open RTree

variable {R : Multiset ℕ} {d : Dev} {pi : PmfsInode} {m : ℕ → UInt8} {h k n p x : ℕ}
  {s s' : Image} {f : File} {w : WriteArgs}

/-! ### The copy of a write -/

/-- The loop of a write copied `k` bytes into the file. -/
structure Copied (R : Multiset ℕ) (buf : ℕ → UInt8) (l l' : WriteLoop) (k : ℕ) : Prop where
  wf : WellFormed R l'.s.f.d l'.s.f.pi
  blkType : l'.s.f.pi.iBlkType = l.s.f.pi.iBlkType
  size : l'.s.f.inode.iSize = l.s.f.inode.iSize
  piSize : l'.s.f.pi.iSize = l.s.f.pi.iSize
  pos : l'.pos = l.pos + k
  written : l'.written = l.written + k
  count : l'.count + k = l.count
  avail : l'.avail + k = l.avail
  content : ∀ x, content l'.s x = if l.pos ≤ x ∧ x < l.pos + k then buf (l.written + (x - l.pos))
    else content l.s x

variable {buf : ℕ → UInt8} {l l' l'' : WriteLoop} {j : ℕ}

theorem Copied.trans (g : Copied R buf l l' j) (g' : Copied R buf l' l'' k) :
    Copied R buf l l'' (j + k) := by
  have h1 := g.pos
  have h2 := g.written
  have h3 := g.count
  have h4 := g.avail
  have h5 := g'.pos
  have h6 := g'.written
  have h7 := g'.count
  have h8 := g'.avail
  refine ⟨g'.wf, g'.blkType.trans g.blkType, g'.size.trans g.size,
    g'.piSize.trans g.piSize, by omega, by omega, by omega, by omega, fun x => ?_⟩
  rw [g'.content, g.content]
  by_cases hx : l'.pos ≤ x ∧ x < l'.pos + k
  · rw [if_pos hx, if_pos (by omega)]
    congr 1
    omega
  · rw [if_neg hx]
    by_cases hx' : l.pos ≤ x ∧ x < l.pos + j
    · rw [if_pos hx', if_pos (by omega)]
    · rw [if_neg hx', if_neg (by omega)]

theorem copied_zero (h : Same R l.s s) (st : Option Errno) :
    Copied R buf l { l with s := s, status := st } 0 := by
  refine ⟨h.wf, h.blkType, h.size, h.piSize, rfl, rfl, rfl, rfl, fun x => ?_⟩
  rw [if_neg (by omega)]
  exact h.content x

theorem copied_page (buf : ℕ → UInt8) {block : ℕ} (h : Same R l.s s) (hk : k ≤ 4096 - l.pos % 4096)
    (hc : k ≤ l.count) (ha : k ≤ l.avail)
    (hn : mapped s.f.d s.f.pi (l.pos / pmfsInodeBlkSize l.s.f.pi) ≠ 0)
    (hblock : addrOf block + l.pos % 4096 = addrOf (mapped s.f.d s.f.pi
      (l.pos / pmfsInodeBlkSize l.s.f.pi)) + l.pos % pmfsInodeBlkSize l.s.f.pi)
      (st : Option Errno) :
    Copied R buf l
      { s := { s with m := copy s.m (addrOf block + l.pos % 4096) (fun i => buf (l.written + i)) k }
        pos := l.pos + k, count := l.count - k, avail := l.avail - k, written := l.written + k
        status := st } k := by
  refine ⟨h.wf, h.blkType, h.size, h.piSize, rfl, rfl, Nat.sub_add_cancel hc, Nat.sub_add_cancel ha,
    fun x => ?_⟩
  rw [← blkSize_congr h.blkType] at hblock hn
  rw [← h.content x, hblock]
  unfold content
  rw [byteAt_copy_at h.wf hn (page_in_block s.f.pi l.pos hk)]

/-- The loop of `__pmfs_xip_file_write` copies a part of the buffer into the file. -/
theorem writeLoop_spec (buf : ℕ → UInt8) : ∀ {n : ℕ} {l : WriteLoop},
    WellFormed R l.s.f.d l.s.f.pi → l.pos + l.count < 2 ^ 64 → ∃ l' k, xipWriteLoop buf n l =
    some l' ∧ Copied R buf l l' k
  | 0, l, hwf, _ => ⟨l, 0, rfl, copied_zero (.refl hwf) l.status⟩
  | n + 1, l, hwf, hpos => by
    obtain ⟨s, r, hget, hsame, hok⟩ := getXipMem_spec (x := l.pos) hwf (by omega)
    unfold xipWriteLoop
    rw [hget]
    cases r with
    | error e => exact ⟨_, 0, rfl, copied_zero hsame (some e)⟩
    | ok block =>
      obtain ⟨hn, hblock⟩ := hok block rfl
      dsimp only
      generalize hbytes : min (4096 - l.pos % 4096) l.count = bytes
      generalize hk : min bytes l.avail = k
      by_cases hshort : k ≠ bytes
      · rw [if_pos hshort]
        exact ⟨_, k, rfl, copied_page buf hsame (by omega) (by omega) (by omega) hn hblock _⟩
      · rw [if_neg hshort]
        have hone := copied_page buf hsame (k := k) (by omega) (by omega)
          (by omega) hn hblock l.status
        by_cases hdone : l.count - k = 0
        · rw [if_pos hdone]
          exact ⟨_, k, rfl, hone⟩
        · rw [if_neg hdone]
          obtain ⟨l', k', hrun, hrest⟩ := writeLoop_spec buf hone.wf (by dsimp only; omega)
          exact ⟨l', k + k', hrun, hone.trans hrest⟩

/-! ### Lookup without a check -/

/-- The index that `__pmfs_find_data_block` reads for a block number, in a tree of the height. -/
def reached (height n : ℕ) : ℕ := if height = 0 then 0 else n % (2 ^ 32 * 512 ^ (height - 1))

theorem reached_of_lt (hn : n < 512 ^ h) : reached h n = n := by
  unfold reached
  by_cases h0 : h = 0
  · rw [h0, pow_zero] at hn
    rw [if_pos h0]
    omega
  · rw [if_neg h0]
    refine Nat.mod_eq_of_lt (hn.trans_le ?_)
    obtain ⟨j, rfl⟩ := Nat.exists_eq_succ_of_ne_zero h0
    rw [Nat.succ_sub_one, pow_succ']
    exact Nat.mul_le_mul_right _ (by norm_num)

theorem findLoop32_of_lt {node : ℕ → ℕ → ℕ} : ∀ {h p n : ℕ}, n < 512 ^ h →
    findLoop32 node h p n = findLoop node h p n
  | 0, _, _, _ => rfl
  | h + 1, p, n, hn => by
    have hidx : n / 512 ^ h < 512 := Nat.div_lt_of_lt_mul (by rw [pow_succ] at hn; exact hn)
    unfold findLoop32 findLoop
    simp only [shiftRight_9, and_mask_9]
    rw [Nat.mod_eq_of_lt (show n / 512 ^ h < 2 ^ 32 by omega),
      findLoop32_of_lt (Nat.mod_lt n (by positivity))]

/-- A block number beyond the tree leads back into it, or out of the metadata block. -/
theorem findLoop32_eq (hp : p ≠ 0 ∨ h = 0) (n : ℕ) : findLoop32 d.node h p n =
    if reached h n < 512 ^ h then some (lookup 512 h (tree d h p) (reached h n)) else none := by
  cases h with
  | zero =>
    have hfind := findLoop_eq (d := d) (n := 0) hp (by norm_num)
    rw [if_pos (by simp [reached]), reached, if_pos rfl, lookup_of_lt (by norm_num), ← hfind]
    rfl
  | succ h =>
    have hp' := hp.resolve_right (Nat.succ_ne_zero h)
    have hidx : n % (2 ^ 32 * 512 ^ h) / 512 ^ h = n / 512 ^ h % 2 ^ 32 := by
      rw [Nat.mul_comm, Nat.mod_mul_right_div_self]
    have hmod : n % (2 ^ 32 * 512 ^ h) % 512 ^ h = n % 512 ^ h := Nat.mod_mul_left_mod _ _ _
    rw [reached, if_neg (Nat.succ_ne_zero h), Nat.succ_sub_one]
    generalize n % (2 ^ 32 * 512 ^ h) = n' at hidx hmod ⊢
    by_cases hlt : n' < 512 ^ (h + 1)
    · rw [if_pos hlt, lookup_of_lt hlt, ← findLoop_eq (Or.inl hp') hlt, ← findLoop32_of_lt hlt]
      unfold findLoop32
      simp only [shiftRight_9, and_mask_9, ← hidx, hmod]
      have hslot : n' / 512 ^ h < 512 := Nat.div_lt_of_lt_mul (by rw [pow_succ] at hlt; exact hlt)
      rw [Nat.mod_eq_of_lt (show n' / 512 ^ h < 2 ^ 32 by omega)]
    · rw [if_neg hlt]
      unfold findLoop32
      simp only [shiftRight_9, ← hidx]
      refine if_pos (Or.inr ((Nat.le_div_iff_mul_le (by positivity)).mpr ?_))
      rw [pow_succ'] at hlt
      omega

/-! ### Edge blocks -/

/-- What the clearing of an edge block needs: the tree has the index that is reached. -/
def EdgeInside (pi : PmfsInode) (newBlk : Bool) (block : ℕ) : Prop :=
  newBlk = true → reached pi.height (indexOf pi block) < 512 ^ pi.height

/-- The bytes of the file that the clearing of an edge block zeroes. -/
def EdgeHits (pi : PmfsInode) (newBlk : Bool) (block blkOff : ℕ) (isEndBlk : Bool) (x : ℕ) : Prop :=
  newBlk = true ∧ x / pmfsInodeBlkSize pi = reached pi.height (indexOf pi block) ∧
    (edgeRange pi blkOff isEndBlk).1 ≤ x % pmfsInodeBlkSize pi ∧
    x % pmfsInodeBlkSize pi < (edgeRange pi blkOff isEndBlk).1 + (edgeRange pi blkOff isEndBlk).2

instance (pi : PmfsInode) (newBlk : Bool) (block blkOff : ℕ) (isEndBlk : Bool) (x : ℕ) :
    Decidable (EdgeHits pi newBlk block blkOff isEndBlk x) := inferInstanceAs (Decidable (_ ∧ _))

theorem edgeRange_le {blkOff : ℕ} (isEndBlk : Bool) (h : blkOff < pmfsInodeBlkSize pi) :
    (edgeRange pi blkOff isEndBlk).1 + (edgeRange pi blkOff isEndBlk).2 ≤ pmfsInodeBlkSize pi := by
  rw [blkSize_eq] at h
  unfold edgeRange
  rw [blkSize_eq]
  cases isEndBlk <;> simp <;> omega

theorem clearEdge_outside {newBlk : Bool} {block blkOff : ℕ} {isEndBlk : Bool}
    (hwf : WellFormed R f.d f.pi) (h : ¬ EdgeInside f.pi newBlk block) :
    pmfsClearEdgeBlk f m newBlk block blkOff isEndBlk = none := by
  unfold EdgeInside at h
  rw [Classical.not_imp] at h
  have hp : f.pi.root ≠ 0 ∨ f.pi.height = 0 := by
    by_cases h0 : f.pi.root = 0
    · exact Or.inr (hwf.root h0)
    · exact Or.inl h0
  unfold pmfsClearEdgeBlk
  unfold indexOf at h
  rw [if_pos h.1, findLoop32_eq hp, if_neg h.2]
  rfl

theorem clearEdge_spec {newBlk : Bool} {block blkOff : ℕ} {e : Bool} (hwf : WellFormed R f.d f.pi)
    (hoff : blkOff < pmfsInodeBlkSize f.pi) (h : EdgeInside f.pi newBlk block) :
    ∃ m', pmfsClearEdgeBlk f m newBlk block blkOff e = some m' ∧ ∀ x, byteAt f.d f.pi m' x =
      if EdgeHits f.pi newBlk block blkOff e x then 0 else byteAt f.d f.pi m x := by
  have hp : f.pi.root ≠ 0 ∨ f.pi.height = 0 := by
    by_cases h0 : f.pi.root = 0
    · exact Or.inr (hwf.root h0)
    · exact Or.inl h0
  unfold pmfsClearEdgeBlk
  by_cases hnew : newBlk = true
  · have hlt := h hnew
    unfold indexOf at hlt
    rw [if_pos hnew, findLoop32_eq hp, if_pos hlt, Option.map_some]
    refine ⟨_, rfl, fun x => ?_⟩
    have hle := edgeRange_le e hoff
    have hiff : EdgeHits f.pi newBlk block blkOff e x ↔ _ :=
      (and_iff_right hnew).trans (mem_block_iff f.pi hle)
    by_cases h0 :
      mapped f.d f.pi (reached f.pi.height (block >>> (pmfsInodeBlkShift f.pi - 12))) = 0
    · -- a hole stays a hole
      have h0' := h0
      unfold mapped treeOf at h0'
      rw [h0', pmfsGetBlock, if_pos rfl]
      by_cases hit : EdgeHits f.pi newBlk block blkOff e x
      · rw [if_pos hit, byteAt, hit.2.1]
        exact if_pos h0
      · rw [if_neg hit]
    · have h0' := h0
      unfold mapped treeOf at h0'
      rw [pmfsGetBlock, if_neg h0']
      simp only [hiff]
      exact byteAt_copy hwf h0 hle
  · rw [if_neg hnew]
    refine ⟨m, rfl, fun x => ?_⟩
    rw [if_neg fun hit => hnew hit.1]

/-- Where the two edge blocks of a write are cleared in a file. -/
def Cleared (pi : PmfsInode) (w : WriteArgs) (newSblk newEblk : Bool) (x : ℕ) : Prop :=
  EdgeHits pi newSblk (w.pos >>> 12) (w.pos % pmfsInodeBlkSize pi) false x ∨
    EdgeHits pi newEblk w.endBlk ((w.pos + w.len) % pmfsInodeBlkSize pi) true x

instance (pi : PmfsInode) (w : WriteArgs) (newSblk newEblk : Bool) (x : ℕ) :
    Decidable (Cleared pi w newSblk newEblk x) := inferInstanceAs (Decidable (_ ∨ _))

/-- What the clearing of both edge blocks needs. -/
def EdgesInside (pi : PmfsInode) (w : WriteArgs) (newSblk newEblk : Bool) : Prop :=
  EdgeInside pi newSblk (w.pos >>> 12) ∧ EdgeInside pi newEblk w.endBlk

theorem clearEdges_spec {newSblk newEblk : Bool} (hwf : WellFormed R s.f.d s.f.pi)
    (h : EdgesInside s.f.pi w newSblk newEblk) :
    ∃ s', clearEdges s w newSblk newEblk = some s' ∧ s'.f = s.f ∧ ∀ x, content s' x =
      if Cleared s.f.pi w newSblk newEblk x then 0 else content s x := by
  obtain ⟨m1, hrun1, hm1⟩ := clearEdge_spec hwf
    (Nat.mod_lt w.pos (blkSize_pos _)) h.1
  obtain ⟨m2, hrun2, hm2⟩ := clearEdge_spec hwf
    (Nat.mod_lt (w.pos + w.len) (blkSize_pos _)) h.2
  refine ⟨{ s with m := m2 }, ?_, rfl, fun x => ?_⟩
  · unfold clearEdges
    rw [hrun1, Option.bind_some, hrun2, Option.map_some]
  · unfold content
    rw [hm2, hm1]
    by_cases hE :
      EdgeHits s.f.pi newEblk w.endBlk ((w.pos + w.len) % pmfsInodeBlkSize s.f.pi) true x
    · have hC : Cleared s.f.pi w newSblk newEblk x := Or.inr hE
      rw [if_pos hE, if_pos hC]
    · by_cases hS : EdgeHits s.f.pi newSblk (w.pos >>> 12) (w.pos % pmfsInodeBlkSize s.f.pi) false x
      · have hC : Cleared s.f.pi w newSblk newEblk x := Or.inl hS
        rw [if_neg hE, if_pos hS, if_pos hC]
      · have hC : ¬ Cleared s.f.pi w newSblk newEblk x := not_or.mpr ⟨hS, hE⟩
        rw [if_neg hE, if_neg hS, if_neg hC]

theorem clearEdges_outside {newSblk newEblk : Bool} (hwf : WellFormed R s.f.d s.f.pi)
    (h : ¬ EdgesInside s.f.pi w newSblk newEblk) : clearEdges s w newSblk newEblk = none := by
  unfold clearEdges
  by_cases h1 : EdgeInside s.f.pi newSblk (w.pos >>> 12)
  · have h2 : ¬ EdgeInside s.f.pi newEblk w.endBlk := fun hcon => h ⟨h1, hcon⟩
    refine Option.bind_eq_none_iff.mpr fun m _ => ?_
    rw [clearEdge_outside hwf h2, Option.map_none]
  · rw [clearEdge_outside hwf h1, Option.bind_none]

/-! ### The two ways to write -/

/-- The number of bytes that a write returns, `0` for an error. -/
def returned : Except Errno ℕ → ℕ
  | .ok n => n
  | .error _ => 0

@[simp] theorem returned_writeResult (n : ℕ) (st : Option Errno) :
    returned (writeResult n st) = n := by
  unfold writeResult
  split <;> rfl

/-- What a write did: it returned `k` and copied that many bytes into the file `c`. -/
structure Wrote (R : Multiset ℕ) (buf : ℕ → UInt8) (f : File) (c : ℕ → UInt8)
    (w : WriteArgs) (s' : Image) (r : Except Errno ℕ) (k : ℕ) : Prop where
  wf : WellFormed R s'.f.d s'.f.pi
  blkType : s'.f.pi.iBlkType = f.pi.iBlkType
  size : s'.f.inode.iSize = max f.inode.iSize (w.pos + k)
  piSize : f.pi.iSize = f.inode.iSize → s'.f.pi.iSize = s'.f.inode.iSize
  returned : returned r = k
  le_len : k ≤ w.len
  le_avail : k ≤ w.avail
  content : ∀ x, content s' x = if w.pos ≤ x ∧ x < w.pos + k then buf (x - w.pos) else c x

theorem extend_wf (hwf : WellFormed R f.d f.pi) (p : ℕ) :
    WellFormed R (f.extend p).d (f.extend p).pi := by
  unfold Regular.File.extend
  split_ifs
  · exact hwf.congr rfl rfl rfl
  · exact hwf

theorem extend_d (f : File) (p : ℕ) : (f.extend p).d = f.d := by
  unfold Regular.File.extend
  split_ifs <;> rfl

theorem extend_blkType (f : File) (p : ℕ) : (f.extend p).pi.iBlkType = f.pi.iBlkType := by
  unfold Regular.File.extend
  split_ifs <;> rfl

theorem extend_size (f : File) (p : ℕ) : (f.extend p).inode.iSize = max f.inode.iSize p := by
  unfold Regular.File.extend
  split_ifs with h
  · exact (max_eq_right h.le).symm
  · exact (max_eq_left (by omega)).symm

theorem extend_piSize (f : File) (p : ℕ) (h : f.pi.iSize = f.inode.iSize) :
    (f.extend p).pi.iSize = (f.extend p).inode.iSize := by
  unfold Regular.File.extend
  split_ifs
  · rfl
  · exact h

theorem content_setTime (f : File) (now : ℕ) (m : ℕ → UInt8) :
    content ⟨f.setTime now, m⟩ = content ⟨f, m⟩ := by
  funext x
  exact byteAt_congr rfl (mapped_congr rfl rfl _)

theorem extend_content (f : File) (p : ℕ) : content ⟨f.extend p, m⟩ x = content ⟨f, m⟩ x := by
  unfold Regular.File.extend
  split_ifs
  · exact byteAt_congr rfl (mapped_congr rfl rfl _)
  · rfl

theorem writeFast_spec {now block : ℕ} (buf : ℕ → UInt8) (hwf : WellFormed R s.f.d s.f.pi)
    (hn : mapped s.f.d s.f.pi (w.pos / pmfsInodeBlkSize s.f.pi) ≠ 0)
    (hlen : w.pos % pmfsInodeBlkSize s.f.pi + w.len ≤ pmfsInodeBlkSize s.f.pi)
    (hblock : addrOf block + w.pos % 4096 =
    addrOf (mapped s.f.d s.f.pi (w.pos / pmfsInodeBlkSize s.f.pi)) +
      w.pos % pmfsInodeBlkSize s.f.pi) :
    Wrote R buf s.f (content s) w (pmfsFileWriteFast s buf w.pos w.len w.avail now block).1
      (pmfsFileWriteFast s buf w.pos w.len w.avail now block).2 (min w.len w.avail) := by
  have hwf' : WellFormed R (s.f.setTime now).d (s.f.setTime now).pi := hwf.congr rfl rfl rfl
  unfold pmfsFileWriteFast
  refine ⟨extend_wf hwf' _, extend_blkType _ _, extend_size _ _, fun h => extend_piSize _ _ h, ?_,
    min_le_left _ _, min_le_right _ _, fun x => ?_⟩
  · dsimp only
    split_ifs with h0
    · exact h0.symm
    · rfl
  · rw [extend_content, hblock]
    rw [content_setTime]
    have hk : w.pos % pmfsInodeBlkSize s.f.pi + min w.len w.avail ≤ pmfsInodeBlkSize s.f.pi := by
      omega
    exact byteAt_copy_at hwf hn hk

theorem writePages_spec (buf : ℕ → UInt8) (hwf : WellFormed R s.f.d s.f.pi)
    (hpos : w.pos + w.len < 2 ^ 64) :
    ∃ s' r k, __pmfsXipFileWrite s buf w.pos w.len w.avail = some (s', r) ∧
      Wrote R buf s.f (content s) w s' r k := by
  obtain ⟨l, k, hrun, g⟩ := writeLoop_spec buf (l := ⟨s, w.pos, w.len, w.avail, 0, none⟩) hwf hpos
  have hwritten : l.written = k := g.written.trans (Nat.zero_add k)
  have hposk : l.pos = w.pos + k := g.pos
  have hcount : l.count + k = w.len := g.count
  have havail : l.avail + k = w.avail := g.avail
  unfold __pmfsXipFileWrite
  rw [hrun, Option.map_some]
  refine ⟨_, _, k, rfl, extend_wf g.wf _, (extend_blkType _ _).trans g.blkType, ?_, fun h => ?_, ?_,
    by omega, by omega, fun x => ?_⟩
  · rw [extend_size, g.size, hposk]
  · exact extend_piSize _ _ (g.piSize.trans (h.trans g.size.symm))
  · rw [returned_writeResult, hwritten]
  · rw [extend_content]
    refine (g.content x).trans ?_
    rw [Nat.zero_add]

/-- A write in a transaction, on the file that the allocation left. -/
theorem writeTrans_spec {f1 : File} {o : Option Errno} {newSblk newEblk : Bool} (buf : ℕ → UInt8)
    (halloc : s.f.alloc (w.pos >>> 12) w.numBlocks false = some (f1, o))
    (hwf : WellFormed R f1.d f1.pi) (hin : EdgesInside f1.pi w newSblk newEblk)
    (hpos : w.pos + w.len < 2 ^ 64) : ∃ s' r k, writeTrans s w buf newSblk newEblk = some (s', r) ∧
      Wrote R buf f1 (fun x => if Cleared f1.pi w newSblk newEblk x then 0
      else byteAt f1.d f1.pi s.m x) w
        s' r k := by
  obtain ⟨⟨f2, m2⟩, hclear, hf, hcontent⟩ := clearEdges_spec (s := { s with f := f1 }) hwf hin
  subst hf
  obtain ⟨s', r, k, hrun, hw⟩ := writePages_spec (s := ⟨f2, m2⟩) buf hwf hpos
  refine ⟨s', r, k, ?_, hw.wf, hw.blkType, hw.size, hw.piSize, hw.returned, hw.le_len, hw.le_avail,
    fun x => ?_⟩
  · unfold writeTrans
    rw [halloc, Option.bind_some, hclear, Option.bind_some, hrun]
  · rw [hw.content, hcontent]
    rfl

theorem writeTrans_outside {f1 : File} {o : Option Errno} {newSblk newEblk : Bool} (buf : ℕ → UInt8)
    (halloc : s.f.alloc (w.pos >>> 12) w.numBlocks false = some (f1, o))
    (hwf : WellFormed R f1.d f1.pi) (hin : ¬ EdgesInside f1.pi w newSblk newEblk) :
    writeTrans s w buf newSblk newEblk = none := by
  have hclear := clearEdges_outside (s := { s with f := f1 }) hwf hin
  unfold writeTrans
  rw [halloc, Option.bind_some, hclear, Option.bind_none]

/-! ### Which way a write goes -/

/-- The write stays in one data block that the file has. -/
def InPlace (f : File) (w : WriteArgs) : Prop :=
  mapped f.d f.pi (w.pos / pmfsInodeBlkSize f.pi) ≠ 0 ∧
    w.pos % pmfsInodeBlkSize f.pi + w.len ≤ pmfsInodeBlkSize f.pi

/-- The write starts inside a data block that the file does not have. -/
def startNew (f : File) (w : WriteArgs) : Bool :=
  w.pos % pmfsInodeBlkSize f.pi != 0 && mapped f.d f.pi (w.pos / pmfsInodeBlkSize f.pi) == 0

/-- The write ends inside a data block that the file does not have. -/
def endNew (f : File) (w : WriteArgs) : Bool :=
  (w.pos + w.len) % pmfsInodeBlkSize f.pi != 0 &&
    mapped f.d f.pi ((w.pos + w.len - 1) / pmfsInodeBlkSize f.pi) == 0

theorem sameBlock_iff (w : WriteArgs) (pi : PmfsInode) :
    w.sameBlock pi = true ↔ w.pos % pmfsInodeBlkSize pi + w.len ≤ pmfsInodeBlkSize pi := by
  have hpos := blkSize_pos pi
  have hshift : pmfsInodeBlkSize pi = 2 ^ pmfsInodeBlkShift pi := rfl
  unfold Regular.WriteArgs.sameBlock
  rw [beq_iff_eq, Nat.shiftRight_eq_div_pow, ← hshift, Nat.div_eq_zero_iff]
  omega

theorem endBlk_eq (hlen : w.len ≠ 0) : w.endBlk = (w.pos + w.len - 1) >>> 12 := by
  unfold Regular.WriteArgs.endBlk Regular.WriteArgs.numBlocks
  rw [page_eq, page_eq, page_eq]
  omega

theorem find_eq_zero_iff (hroot : pi.root = 0 → pi.height = 0) {bp : ℕ}
    (h : pmfsFindDataBlock d pi (x >>> 12) = some bp) : bp = 0 ↔
    mapped d pi (x / pmfsInodeBlkSize pi) = 0 := by
  rw [findPage hroot, Option.some.injEq] at h
  by_cases h0 : mapped d pi (x / pmfsInodeBlkSize pi) = 0
  · rw [if_pos h0] at h
    simp [h0, h]
  · rw [if_neg h0] at h
    constructor
    · intro hz
      omega
    · exact fun hcon => absurd hcon h0

/-- A write that is refused changes nothing. -/
def Refused (f : File) (w : WriteArgs) : Prop :=
  w.accessOk = false ∨ w.len = 0 ∨ ¬ InPlace f w ∧ (w.trans ≠ none ∨ w.privs ≠ none)

/-- The blocks that a write asks for, after the calls that can refuse it. -/
theorem write_cases (buf : ℕ → UInt8) (hwf : WellFormed R s.f.d s.f.pi) :
    (Refused s.f w ∧ ∃ r, pmfsXipFileWrite s w buf = some (s, r) ∧ returned r = 0) ∨
    (¬ Refused s.f w ∧ InPlace s.f w ∧ ∃ s' r, pmfsXipFileWrite s w buf = some (s', r) ∧
    s'.f.d = s.f.d ∧
      Wrote R buf s.f (content s) w s' r (min w.len w.avail)) ∨
    (¬ Refused s.f w ∧ ¬ InPlace s.f w ∧ pmfsXipFileWrite s w buf =
      writeTrans { s with f := s.f.setTime w.now } w buf (startNew s.f w) (endNew s.f w)) := by
  unfold pmfsXipFileWrite
  by_cases hacc : w.accessOk = true
  swap
  · refine Or.inl ⟨Or.inl (by simpa using hacc), _, if_pos (by simpa using hacc), rfl⟩
  rw [if_neg (by simp [hacc])]
  by_cases hlen : w.len = 0
  · exact Or.inl ⟨Or.inr (Or.inl hlen), _, if_pos hlen, rfl⟩
  obtain ⟨bp, hbp⟩ : ∃ bp, pmfsFindDataBlock s.f.d s.f.pi (w.pos >>> 12) = some bp :=
    ⟨_, findPage hwf.root w.pos⟩
  obtain ⟨be, hbe⟩ : ∃ be, pmfsFindDataBlock s.f.d s.f.pi w.endBlk = some be := by
    rw [endBlk_eq hlen]
    exact ⟨_, findPage hwf.root _⟩
  have hz := find_eq_zero_iff hwf.root hbp
  rw [if_neg hlen, hbp, hbe, Option.bind_some, Option.bind_some]
  rw [endBlk_eq hlen] at hbe
  have hze := find_eq_zero_iff hwf.root hbe
  unfold writeFound
  by_cases hin : InPlace s.f w
  · have hcond : bp ≠ 0 ∧ w.sameBlock s.f.pi = true :=
      ⟨fun hcon => hin.1 (hz.mp hcon), (sameBlock_iff w s.f.pi).mpr hin.2⟩
    have haddr := addr_page s.f.pi (mapped s.f.d s.f.pi (w.pos / pmfsInodeBlkSize s.f.pi)) w.pos
    rw [findPage hwf.root, if_neg hin.1, Option.some.injEq] at hbp
    rw [hbp] at haddr
    rw [if_pos hcond]
    refine Or.inr (Or.inl ⟨?_, hin, _, _, rfl, extend_d _ _,
      writeFast_spec buf hwf hin.1 hin.2 haddr⟩)
    rintro (hcon | hcon | hcon)
    · simp [hacc] at hcon
    · exact hlen hcon
    · exact hcon.1 hin
  · have hcond : ¬ (bp ≠ 0 ∧ w.sameBlock s.f.pi = true) := fun hcon =>
      hin ⟨fun h0 => hcon.1 (hz.mpr h0), (sameBlock_iff w s.f.pi).mp hcon.2⟩
    have hS : w.newSblk s.f.pi bp = startNew s.f w := by
      unfold Regular.WriteArgs.newSblk startNew
      congr 1
      rw [Bool.eq_iff_iff, beq_iff_eq, beq_iff_eq]
      exact hz
    have hE : w.newEblk s.f.pi be = endNew s.f w := by
      unfold Regular.WriteArgs.newEblk endNew
      congr 1
      rw [Bool.eq_iff_iff, beq_iff_eq, beq_iff_eq]
      exact hze
    rw [if_neg hcond, hS, hE]
    cases htrans : w.trans with
    | some e => exact Or.inl ⟨Or.inr (Or.inr ⟨hin, Or.inl (by simp [htrans])⟩), _, rfl, rfl⟩
    | none =>
      cases hprivs : w.privs with
      | some e => exact Or.inl ⟨Or.inr (Or.inr ⟨hin, Or.inr (by simp [hprivs])⟩), _, rfl, rfl⟩
      | none =>
        refine Or.inr (Or.inr ⟨?_, hin, rfl⟩)
        rintro (hcon | hcon | ⟨-, hcon⟩)
        · simp [hacc] at hcon
        · exact hlen hcon
        · simp [htrans, hprivs] at hcon

end Pmfs.Inodes.Writes
