import Pmfs.Namei.Runs
import Mathlib.Data.Nat.Bitwise

/-! # Fetching a directory entry

`syscall_fetchdentry` returns the inode number of an entry and its `file_type` in one `int`. The
writers of directories differ: `kernelfs_add_dirent` stores the type, `pmfs_add_dirent_to_buf` and
`pmfs_rename` leave what the record held. In every run of them in which each name is bound where the
type of its inode stands, to a multiple of 128 below `2^31`, the number and the type can be told
apart, and from 0 and the error codes (`fetch_unambiguous`). On a new file system the byte is 0
(`created_untyped`). -/

namespace Pmfs.Namei.Fetch

open Lib.Bytes Block.Model Dirs.Model Dirs.Records Dirs.Spec Dirs.Readdir Dirs.Refine Function
open Dirs.Listing (add_cases removeLoop_cases spot)
open Dirs.Dots (findEntry_found mem_live_of_start overwrite_live search_live)
open Namei.Model (overwrite pmfsInit)
open Namei.Runs (runOps runOps_steps plainEnv)

/-! ### The call -/

/-- `de->file_type`. -/
def deFileType (b : Blk) (de : ℕ) : ℕ := le b (de + 11) 1

/-- `T_FILE`. -/
def T_FILE : ℕ := 2

/-- `de->ino | de->file_type` as an `int`. -/
def packed (ino fileType : ℕ) : ℤ := Int.bmod ((ino ||| fileType : ℕ) : ℤ) (2 ^ 32)

/-- The loop of `syscall_fetchdentry` over a block: what it returns, none if it goes on to the next
block. Every round but the last moves by a byte at least. -/
def fetchBlock (name : Name) (b : Blk) : ℕ → ℕ → Option ℤ
  | 0, _ => none
  | fuel + 1, de =>
    if de < 4096 then
      if de + name.length ≤ 4096 ∧ pmfsMatch name b de then
        some (packed (deIno b de) (deFileType b de))
      else if deLen b de = 0 then some (-1)
      else fetchBlock name b fuel (de + deLen b de)
    else none

/-- The loop of `syscall_fetchdentry` over `n` blocks from `k` on; `-5` is `-EIO`. -/
def fetchLoop (d : Dir) (name : Name) : ℕ → ℕ → ℤ
  | 0, _ => 0
  | n + 1, k =>
    match d.blk k with
    | none => -5
    | some b => (fetchBlock name b 4097 0).getD (fetchLoop d name n (k + 1))

/-- `syscall_fetchdentry` for what `pmfs_get_inode` finds, with the root of its tree. -/
def syscallFetchdentry (pi : Option (Dir × ℕ)) (name : Name) : ℤ :=
  match pi with
  | none => -1
  | some (d, root) => if d.iSize = 0 ∨ root = 0 then -1 else fetchLoop d name d.blocks 0

/-! ### The record that is fetched -/

variable {b b' : Blk} {d d' : Dir} {name : Name} {o x y k i j t : ℕ} {P : Name → ℕ → ℕ → Prop}

/-- The loop over a block finds a record for the name, or there is none from `o` on. -/
theorem fetchBlock_spec (name : Name) : ∀ (fuel : ℕ) {o : ℕ}, Start b o → 4096 < o + fuel →
    (∃ x, Start b x ∧ x < 4096 ∧ (recAt b x).Is name ∧
      fetchBlock name b fuel o = some (packed (deIno b x) (deFileType b x))) ∨
    fetchBlock name b fuel o = none ∧ ∀ x, Start b x → o ≤ x → x < 4096 → ¬ (recAt b x).Is name
  | 0, o, ho, hfuel => absurd ho.le (by omega)
  | fuel + 1, o, ho, hfuel => by
    rw [fetchBlock]
    by_cases hlt : o < 4096
    swap
    · rw [if_neg hlt]
      exact Or.inr ⟨rfl, fun x _ h1 h2 => absurd h2 (by omega)⟩
    obtain ⟨hok, hnext⟩ := ho.ok hlt
    have hpos : 12 ≤ deLen b o := hok.len_pos
    rw [if_pos hlt]
    by_cases hmatch : (recAt b o).Is name
    · have hroom : pmfsDirRecLen name.length ≤ deLen b o := hmatch.2 ▸ hok.2
      have hend : o + deLen b o ≤ 4096 := hnext.le
      have hlen := recLen_ge name.length
      rw [if_pos ⟨by omega, match_iff.mpr hmatch⟩]
      exact Or.inl ⟨o, ho, hlt, hmatch, rfl⟩
    · rw [if_neg fun hcon => hmatch (match_iff.mp hcon.2), if_neg (by omega)]
      refine (fetchBlock_spec name fuel hnext (show 4096 < o + deLen b o + fuel by omega)).imp_right
        fun ⟨hrun, hno⟩ => ⟨hrun, fun x hx h1 h2 => ?_⟩
      rcases Nat.eq_or_lt_of_le h1 with rfl | hgt
      · exact hmatch
      · exact hno x hx (ho.next hx hgt) h2

theorem fetchLoop_spec (h : WfDir d) : ∀ {n k : ℕ}, k + n = d.blocks →
    (∃ j b x, j < d.blocks ∧ d.blk j = some b ∧ Start b x ∧ x < 4096 ∧ (recAt b x).Is name ∧
      fetchLoop d name n k = packed (deIno b x) (deFileType b x)) ∨
    ∀ j b x, k ≤ j → d.blk j = some b → Start b x → x < 4096 → ¬ (recAt b x).Is name
  | 0, k, hk => Or.inr fun j b x hj hb => absurd (h.blk hb).1 (by omega)
  | n + 1, k, hk => by
    obtain ⟨b, hb, hwf⟩ := h.mapped k (by omega)
    rw [fetchLoop, hb]
    dsimp only
    rcases fetchBlock_spec name 4097 (start_zero hwf) (by omega) with
      ⟨x, hx, hlt, his, hrun⟩ | ⟨hrun, hno⟩
    · rw [hrun, Option.getD_some]
      exact Or.inl ⟨k, b, x, by omega, hb, hx, hlt, his, rfl⟩
    · rw [hrun, Option.getD_none]
      refine (fetchLoop_spec h (by omega)).imp_right fun hrest j c x hj hc hx hlt => ?_
      rcases Nat.eq_or_lt_of_le hj with rfl | hgt
      · cases hb.symm.trans hc
        exact hno x hx (Nat.zero_le x) hlt
      · exact hrest j c x hgt hc hx hlt

/-- `syscall_fetchdentry` returns the number and the type of the record for an entry. -/
theorem fetch_spec {root : ℕ} (h : WfDir d) (hu : UniqueNames d) (hroot : root ≠ 0)
    (hmem : (name, i) ∈ live d) : ∃ k b x, d.blk k = some b ∧ Start b x ∧ x < 4096 ∧
    (recAt b x).Is name ∧ deIno b x = i ∧
      syscallFetchdentry (some (d, root)) name = packed i (deFileType b x) := by
  obtain ⟨k, hk, b, hb, he⟩ := mem_live.mp hmem
  obtain ⟨r, hr, his, -⟩ := mem_entriesOf.mp he
  obtain ⟨x, hx, hlt, rfl⟩ := start_of_mem (h.blk hb).2 hr
  have hsize : ¬ (d.iSize = 0 ∨ root = 0) := by
    rintro (hzero | hzero)
    · rw [Dir.blocks, hzero] at hk
      exact absurd hk (by simp)
    · exact hroot hzero
  simp only [syscallFetchdentry, if_neg hsize]
  rcases fetchLoop_spec h (Nat.zero_add _) with ⟨j, c, y, hj, hc, hy, hylt, hyis, hrun⟩ | hno
  · obtain rfl : deIno c y = i := ino_unique hu (mem_live_of_start hj hc hy hylt hyis) hmem
    exact ⟨j, c, y, hc, hy, hylt, hyis, rfl, hrun⟩
  · exact absurd his (hno k b x (Nat.zero_le k) hb hx hlt)

/-! ### Number and type -/

/-- The value gives the number in its bits from 7 up and the type in its low 7 bits, and is none of
the other results: 0, -1 and `-EIO`. -/
def Unambiguous (v : ℤ) (ino fileType : ℕ) : Prop :=
  v / 128 * 128 = ino ∧ v % 128 = fileType ∧ v ≠ 0 ∧ v ≠ -1 ∧ v ≠ -5

/-- The type of an inode. -/
def typeOf (isDir : Bool) : ℕ := if isDir then T_DIR else T_FILE

/-- The number `i` and the byte `t` can be told apart, and `t` is the type of the inode. -/
def Tells (isDir : ℕ → Bool) (i t : ℕ) : Prop := i % 128 = 0 ∧ i < 2 ^ 31 ∧ t = typeOf (isDir i)

instance (isDir : ℕ → Bool) (i t : ℕ) : Decidable (Tells isDir i t) :=
  inferInstanceAs (Decidable (_ ∧ _))

theorem packed_of_lt (h : i ||| t < 2 ^ 31) : packed i t = (i ||| t : ℕ) := by
  unfold packed
  rw [Int.bmod_def]
  omega

theorem Tells.unambiguous {isDir : ℕ → Bool} (h : Tells isDir i t) :
    Unambiguous (packed i t) i (typeOf (isDir i)) := by
  obtain ⟨hmul, hlt, heq⟩ := h
  have htype : t = 1 ∨ t = 2 := heq ▸ ite_eq_or_eq _ _ _
  have hor : i ||| t = i + t := by
    rw [show i = 2 ^ 7 * (i / 128) by omega, ← Nat.two_pow_add_eq_or_of_lt (by omega)]
  rw [← heq, packed_of_lt (by omega), hor, Unambiguous]
  omega

/-! ### The types in a block -/

/-- `P` holds of the name, the number and the type of each record in use, but for the one at `o`. -/
def TypedBut (P : Name → ℕ → ℕ → Prop) (b : Blk) (o : ℕ) : Prop :=
  ∀ x, Start b x → x < 4096 → x ≠ o → deIno b x ≠ 0 → P (deName b x) (deIno b x) (deFileType b x)

/-- `P` holds of the name, the number and the type of each record in use. -/
def TypedBlk (P : Name → ℕ → ℕ → Prop) (b : Blk) : Prop :=
  ∀ x, Start b x → x < 4096 → deIno b x ≠ 0 → P (deName b x) (deIno b x) (deFileType b x)

theorem rec_fields {n : ℕ} (h : recAt b x = ⟨i, n, name⟩) : deName b x = name ∧ deIno b x = i :=
  ⟨congrArg Rec.name h, congrArg Rec.ino h⟩

theorem TypedBut.all (h : TypedBut P b o) (hP : deIno b o ≠ 0 →
    P (deName b o) (deIno b o) (deFileType b o)) :
    TypedBlk P b := by
  intro x hx hlt hne
  by_cases hxo : x = o
  · subst hxo
    exact hP hne
  · exact h x hx hlt hxo hne

theorem type_congr (h : b' (x + 11) = b (x + 11)) : deFileType b' x = deFileType b x := by
  refine le_congr fun i h1 h2 => ?_
  obtain rfl : i = x + 11 := by omega
  exact h

theorem TypedBlk.keep {n : ℕ} (h : TypedBlk P b) (hx : Start b x) (hlt : x < 4096)
    (hne : deIno b' x ≠ 0) (hrec : recAt b' x = { recAt b x with len := n })
    (htype : b' (x + 11) = b (x + 11)) : P (deName b' x) (deIno b' x) (deFileType b' x) := by
  have hino : deIno b' x = deIno b x := congrArg Rec.ino hrec
  have hname : deName b' x = deName b x := congrArg Rec.name hrec
  rw [hname, hino, type_congr htype]
  exact h x hx hlt (hino ▸ hne)

theorem Start.apart (hx : Start b x) (hy : Start b y) (hlt : x < y) : x + 12 ≤ y := by
  have hnext := hx.next hy hlt
  have hpos := (hx.ok (hlt.trans_le hy.le)).1.len_pos
  omega

theorem TypedBlk.drop {prev : Option ℕ} (h : TypedBlk P b) (ho : Start b o) (hlt : o < 4096)
    (hprev : Before b o prev) : TypedBlk P (dropRecord b o prev) := by
  intro x hx hxlt hne
  cases prev with
  | none =>
    obtain rfl : o = 0 := hprev
    have hx' := (free_start ho).mp hx
    by_cases hzero : x = 0
    · subst hzero
      exact absurd (congrArg Rec.ino (free_edit ho).2) hne
    · exact h.keep hx' hxlt hne (free_recAt ho hx' hzero) (put_of_not_mem (by omega))
  | some p =>
    obtain ⟨hx', -⟩ := (merge_start hprev.1 ho hprev.2 hlt).mp hx
    obtain ⟨n, -, hrec⟩ := merge_recAt hprev.1 ho hprev.2 hlt hx
    refine h.keep hx' hxlt hne hrec (put_of_not_mem ?_)
    rcases Nat.lt_or_ge x p with hxp | hpx
    · have := Start.apart hx' hprev.1 hxp
      omega
    · omega

theorem inserted_type {ino : ℕ} : inserted b o ino name (place b o + 11) = b (place b o + 11) := by
  have hsplit : (splitRecord b o).2 (place b o + 11) = b (place b o + 11) := by
    unfold place splitRecord
    split_ifs
    · dsimp only
      rw [put_of_not_mem (by omega), put_of_not_mem (by omega)]
    · rfl
  rw [← hsplit]
  unfold inserted place fillRecord
  rw [putBytes_of_not_mem (by omega), put_of_not_mem (by omega), put_of_not_mem (by omega)]

theorem TypedBlk.insert {ino : ℕ} (h : TypedBlk P b) (hins : Inserted b o ino name) :
    TypedBut P (inserted b o ino name) (place b o) := by
  intro x hx hlt hxp hne
  have hx' := (hins.start_iff.mp hx).resolve_right hxp
  obtain ⟨n, -, hrec⟩ := hins.recAt_eq hx' hxp
  refine h.keep hx' hlt hne hrec (inserted_same ?_ ?_)
  · rcases Nat.lt_or_ge x o with hxo | hox
    · have := Start.apart hx' hins.edit.fst hxo
      omega
    · omega
  · rcases Nat.lt_or_gt_of_ne hxp with hbefore | hafter
    · have := Start.apart hx hins.start hbefore
      omega
    · have hnext := hins.start.next hx hafter
      have hroom := hins.room
      rw [hins.new] at hnext
      dsimp only at hnext
      omega

/-- The number and the type of a record are written. -/
theorem TypedBut.set (h : TypedBut P b o) (ho : Start b o) (hlt : o < 4096)
    (hsame : ∀ i, i < o ∨ o + 12 ≤ i → b' i = b i) (hrec : recAt b' o = { recAt b o with ino := j })
    (hP : P (deName b o) j (deFileType b' o)) : TypedBlk P b' := by
  obtain ⟨hok, hend⟩ := ho.ok hlt
  have hpos := hok.len_pos
  have hseg : Seg b' o [{ recAt b o with ino := j }] (o + (recAt b o).len) := ⟨hrec, hok, rfl⟩
  have hedit := edit_of_seg (fun i hi => hsame i (by omega)) ho hend hseg
  have hbut : TypedBut P b' o := by
    intro x hx hxlt hxo hne
    have hout : x < o ∨ o + (recAt b o).len ≤ x := by
      refine (Nat.lt_or_gt_of_ne hxo).imp_right fun hgt => ?_
      have hnext := hedit.fst'.next hx hgt
      rwa [hrec] at hnext
    have hx' : Start b x := hedit.symm.start hx (hout.imp_left Nat.le_of_lt)
    have hkeep := hedit.recAt_eq hx' hout
    have htype : b' (x + 11) = b (x + 11) := by
      refine hsame _ (hout.imp (fun hxlt => ?_) fun hge => by omega)
      have := Start.apart hx' ho hxlt
      omega
    have hino : deIno b' x = deIno b x := congrArg Rec.ino hkeep
    have hname : deName b' x = deName b x := congrArg Rec.name hkeep
    rw [hname, hino, type_congr htype]
    exact h x hx' hxlt hxo (hino ▸ hne)
  refine hbut.all fun _ => ?_
  have hino : deIno b' o = j := congrArg Rec.ino hrec
  have hname : deName b' o = deName b o := congrArg Rec.name hrec
  rwa [hname, hino]

theorem typedBlk_one (i : ℕ) (name : Name) (h : Seg b 0 [⟨i, 4096, name⟩] 4096)
    (hP : P name i (deFileType b 0)) : TypedBlk P b := by
  have hzero : Start b 0 := ⟨[], _, rfl, h⟩
  have hino : deIno b 0 = i := congrArg Rec.ino h.1
  have hname : deName b 0 = name := congrArg Rec.name h.1
  have hbut : TypedBut P b 0 := by
    intro x hx hlt hne
    have hnext := hzero.next hx (Nat.pos_of_ne_zero hne)
    rw [h.1] at hnext
    dsimp only at hnext
    omega
  exact hbut.all fun _ => by rwa [hname, hino]

/-! ### The writers -/

/-- A directory, and which inodes are directories. -/
structure State where
  dir : Dir
  isDir : ℕ → Bool

/-- What changes a directory: the calls of `dir.c` and of the log replay that add and remove
entries, and `pmfs_rename` to a name that is there. Besides, an inode is made. -/
inductive Write where
  | call (op : DirOp)
  | rename (name : Name) (ino : ℕ)
  | inode (i : ℕ) (isDir : Bool)

/-- The state after a call that returns 0. -/
def Write.exec (s : State) : Write → Option State
  | call op => (op.exec s.dir).bind fun r => if r.2 = none then some { s with dir := r.1 } else none
  | rename name ino => some { s with dir := overwrite s.dir (findEntry s.dir name) ino }
  | inode i isDir => some { s with isDir := update s.isDir i isDir }

/-- What is asked of a call. An inode is made while no entry is for it. -/
def Write.Valid (s : State) : Write → Prop
  | call op => op.Valid s.dir
  | rename _ ino => ino ≠ 0 ∧ ino < 256 ^ 8
  | inode i _ => ∀ n, (n, i) ∉ live s.dir

/-- The type byte where `pmfs_add_entry` puts the record for a name. -/
def typeThere (d : Dir) (name : Name) (alloc : Except Errno Blk) : ℕ :=
  match spot d name with
  | some (k, o) => (d.blk k).elim 0 (deFileType · o)
  | none => alloc.toOption.elim 0 (deFileType · 0)

/-- A name is bound where the type of its inode stands, unless it is one of `X`. -/
def Write.Safe (X : Set Name) (s : State) : Write → Prop
  | call (.addEntry name ino alloc) => name ∉ X → Tells s.isDir ino (typeThere s.dir name alloc)
  | call (.addDirentry log _ _) => log.name ∉ X → Tells s.isDir log.fino (log.fileType % 256)
  | rename name ino => name ∉ X → ∀ k o b, findEntry s.dir name = .found k o →
      s.dir.blk k = some b → Tells s.isDir ino (deFileType b o)
  | _ => True

/-- A step of a writer. -/
def Step (X : Set Name) (s s' : State) : Prop :=
  ∃ w : Write, w.Valid s ∧ w.Safe X s ∧ w.exec s = some s'

/-- The names are unique, and those that are not in `X` have the types of their inodes. -/
structure Ok (X : Set Name) (s : State) : Prop where
  wf : WfDir s.dir
  unique : UniqueNames s.dir
  typed : ∀ k b, s.dir.blk k = some b → TypedBlk (fun n i t => n ∉ X → Tells s.isDir i t) b

variable {X : Set Name} {s s' : State}

theorem typed_setBlk (h : ∀ k b, d.blk k = some b → TypedBlk P b) (hb : TypedBlk P b) :
    ∀ j c, (d.setBlk k b).blk j = some c → TypedBlk P c := by
  intro j c hc
  by_cases hjk : j = k
  · subst hjk
    rw [blk_setBlk_self, Option.some.injEq] at hc
    exact hc ▸ hb
  · rw [blk_setBlk_of_ne hjk] at hc
    exact h j c hc

/-- What `kernelfs_add_dirent` does once it has written the record. -/
theorem filled_block {log : KernelfsDentry} {newBlock : Except Errno Blk} {c : Blk}
    {child : Option Blk} (h : (if log.fileType = T_DIR then
      match newBlock with
      | .error _ => (some .EPERM, c, none)
      | .ok g => (none, c, some (makeEmpty g log.fino log.ino))
      else (none, c, none) : Option Errno × Blk × Option Blk) = (none, b', child)) : b' = c := by
  split_ifs at h
  · cases newBlock with
    | error e => simp at h
    | ok g => exact (Prod.mk.inj (Prod.mk.inj h).2).1.symm
  · exact (Prod.mk.inj (Prod.mk.inj h).2).1.symm

/-- The block that `kernelfs_add_dirent` makes of a block with room, when it returns 0. -/
theorem kernelfsAddDirent_block {log : KernelfsDentry} {newBlock : Except Errno Blk}
    {child : Option Blk} {de : Option ℕ}
    (hrun : kernelfsAddDirent log b de newBlock = some (none, b', child)) :
    ∃ o, (de = none → findRoom b (pmfsDirRecLen log.name.length) 4097 0 = some (some o)) ∧
    (∀ x ∈ de, x = o) ∧
      b' = put (inserted b o log.fino log.name) (place b o + 11) 1 log.fileType := by
  cases de with
  | some o => exact ⟨o, by simp, by simp, filled_block (Option.some.inj hrun)⟩
  | none =>
    obtain ⟨res, hroom, hcase⟩ := Option.map_eq_some_iff.mp hrun
    cases res with
    | none => simp at hcase
    | some o => exact ⟨o, fun _ => hroom, by simp, filled_block hcase⟩

/-- The loop of `add_direntry` writes into a block with room. -/
theorem kernelAddLoop_cases {log : KernelfsDentry} {newBlock : Except Errno Blk}
    {child : Option Blk} : ∀ {n k : ℕ}, kernelAddLoop d log newBlock n k = some (none, d', child) →
    ∃ j b o, d.blk j = some b ∧
      findRoom b (pmfsDirRecLen log.name.length) 4097 0 = some (some o) ∧
      d' = d.setBlk j (put (inserted b o log.fino log.name) (place b o + 11) 1 log.fileType)
  | 0, _, h => by simp [kernelAddLoop] at h
  | n + 1, k, h => by
    rw [kernelAddLoop] at h
    cases hb : d.blk k with
    | none => simp [hb] at h
    | some b =>
      rw [hb] at h
      dsimp only at h
      split at h
      · simp at h
      · exact kernelAddLoop_cases h
      · rename_i e c child' hnot hadd
        obtain ⟨rfl, rfl, rfl⟩ : e = none ∧ d.setBlk k c = d' ∧ child' = child := by simpa using h
        obtain ⟨o, hroom, -, rfl⟩ := kernelfsAddDirent_block hadd
        exact ⟨k, b, o, hb, hroom rfl, rfl⟩

/-- `add_direntry` writes a record with its type into a block, or adds a block for it. -/
theorem addDirentry_cases {log : KernelfsDentry} {alloc newBlock : Except Errno Blk}
    {child : Option Blk} (hrun : addDirentry d log alloc newBlock = some (none, d', child)) :
    (∃ j b o, d.blk j = some b ∧ findRoom b (pmfsDirRecLen log.name.length) 4097 0 = some (some o) ∧
      d' = d.setBlk j (put (inserted b o log.fino log.name) (place b o + 11) 1 log.fileType)) ∨
    ∃ g, d' = ({ d with iSize := d.iSize + 4096 } : Dir).setBlk d.blocks
      (put (inserted (put (put g 0 8 0) 8 2 4096) 0 log.fino log.name)
        (place (put (put g 0 8 0) 8 2 4096) 0 + 11) 1 log.fileType) := by
  unfold addDirentry at hrun
  split at hrun
  · cases alloc with
    | error e => simp at hrun
    | ok g =>
      obtain ⟨⟨e, c, child'⟩, hadd, heq⟩ := Option.map_eq_some_iff.mp hrun
      obtain ⟨rfl, hd, -⟩ : e = none ∧ _ = d' ∧ child' = child := by simpa using heq
      rw [blocks_grow, Nat.add_sub_cancel] at hd
      obtain ⟨o, -, ho, rfl⟩ := kernelfsAddDirent_block hadd
      obtain rfl := ho 0 rfl
      exact Or.inr ⟨g, hd.symm⟩
  · exact Or.inl (kernelAddLoop_cases hrun)

theorem Ok.addEntry {ino : ℕ} {alloc : Except Errno Blk} {e : Option Errno} (h : Ok X s)
    (h1 : 1 ≤ name.length) (h2 : name.length ≤ 255) (hino : ino < 256 ^ 8)
    (hsafe : name ∉ X → Tells s.isDir ino (typeThere s.dir name alloc))
    (hrun : pmfsAddEntry s.dir name ino alloc = some (d', e)) :
    ∀ k b, d'.blk k = some b → TypedBlk (fun n i t => n ∉ X → Tells s.isDir i t) b := by
  rcases add_cases h1 hrun with rfl | ⟨k, b, o, -, hb, hroom, hspot, rfl⟩ | ⟨g, rfl, hspot, rfl⟩
  · exact h.typed
  · obtain ⟨ho, hlt, hfit⟩ := room_place recLen_pos (start_zero (h.wf.blk hb).2) hroom
    have hins := insert_spec hino h2 ho hlt hfit
    refine typed_setBlk h.typed (((h.typed k b hb).insert hins).all fun _ => ?_)
    have htype : typeThere s.dir name alloc = deFileType b (place b o) := by
      rw [typeThere, hspot]
      simp [hb]
    obtain ⟨hname, hino'⟩ := rec_fields hins.new
    rw [hname, hino', type_congr inserted_type, ← htype]
    exact hsafe
  · obtain ⟨hsplit, hseg⟩ := seg_newBlock g hino h2
    rw [hsplit]
    refine typed_setBlk h.typed (typedBlk_one _ _ hseg ?_)
    have htype : typeThere s.dir name (.ok g) =
      deFileType (fillRecord (put (put g 0 8 0) 8 2 4096) 0 ino name) 0 := by
      rw [typeThere, hspot]
      refine (type_congr ?_).symm
      unfold fillRecord
      rw [putBytes_of_not_mem (by omega), put_of_not_mem (by omega), put_of_not_mem (by omega),
        put_of_not_mem (by omega), put_of_not_mem (by omega)]
    rw [← htype]
    exact hsafe

theorem type_put {v : ℕ} : deFileType (put b (o + 11) 1 v) o = v % 256 := le_put

theorem Ok.addDirentry {log : KernelfsDentry} {alloc newBlock : Except Errno Blk}
    {child : Option Blk} (h : Ok X s) (h2 : log.name.length ≤ 255) (hino : log.fino < 256 ^ 8)
    (hsafe : log.name ∉ X → Tells s.isDir log.fino (log.fileType % 256))
    (hrun : addDirentry s.dir log alloc newBlock = some (none, d', child)) :
    ∀ k b, d'.blk k = some b → TypedBlk (fun n i t => n ∉ X → Tells s.isDir i t) b := by
  rcases addDirentry_cases hrun with ⟨k, b, o, hb, hroom, rfl⟩ | ⟨g, rfl⟩
  · obtain ⟨ho, hlt, hfit⟩ := room_place recLen_pos (start_zero (h.wf.blk hb).2) hroom
    have hins := insert_spec hino h2 ho hlt hfit
    have hplace : place b o < 4096 := by
      have hroom := hins.room
      have hpos := recLen_pos (n := log.name.length)
      have hend := hins.edit.snd.le
      omega
    refine typed_setBlk h.typed (((h.typed k b hb).insert hins).set hins.start
      hplace (j := log.fino) (fun i hi => put_of_not_mem (by omega)) ?_ ?_)
    · rw [recAt_putType, hins.new]
    · rw [(rec_fields hins.new).1, type_put]
      exact hsafe
  · obtain ⟨hsplit, hfirst, hok, hend⟩ := seg_newBlock g hino h2
    rw [inserted, place, hsplit]
    refine typed_setBlk h.typed (typedBlk_one log.fino log.name ⟨?_, hok, hend⟩ ?_)
    · rw [recAt_putType, hfirst]
    · rw [type_put]
      exact hsafe

theorem Ok.remove {e : Option Errno} (check : Bool) (h : Ok X s)
    (hrun : removeLoop (fun b name => searchLoop name b check 4097 0 none) s.dir name
    s.dir.blocks 0 = (d', e)) : ∀ k b, d'.blk k = some b →
    TypedBlk (fun n i t => n ∉ X → Tells s.isDir i t) b := by
  have hcases := removeLoop_cases s.dir name (fun b name => searchLoop name b check 4097 0 none)
    (Nat.zero_add _)
  rw [hrun] at hcases
  rcases hcases with rfl | ⟨j, c, o, prev, -, hc, hsearch, rfl⟩
  · exact h.typed
  · obtain ⟨ho, hlt, -, hprev⟩ := search_place none (start_zero (h.wf.blk hc).2) rfl hsearch
    exact typed_setBlk h.typed ((h.typed j c hc).drop ho hlt hprev)

theorem Ok.call {op : DirOp} (h : Ok X s) (hvalid : op.Valid s.dir)
    (hsafe : (Write.call op).Safe X s) (hexec : op.exec s.dir = some (d', none)) :
    Ok X { s with dir := d' } := by
  have hbound := op_rebound h.wf h.unique hvalid hexec
  refine ⟨hbound.wf, hbound.unique, ?_⟩
  cases op with
  | addEntry name ino alloc => exact h.addEntry hvalid.1 hvalid.2.1 hvalid.2.2.2.2 hsafe hexec
  | addDirentry log alloc newBlock =>
    obtain ⟨⟨e, d1, child⟩, hrun, heq⟩ := Option.map_eq_some_iff.mp hexec
    cases heq
    exact h.addDirentry hvalid.2.1 hvalid.2.2.2.2 hsafe hrun
  | removeEntry name =>
    have hrun : pmfsRemoveEntry s.dir name = (d', none) := Option.some.inj hexec
    rw [removeEntry_eq (show 1 ≤ name.length from hvalid.1)] at hrun
    exact Ok.remove (s := s) true h hrun
  | removeDirentry name =>
    have hrun : removeDirentry s.dir name = (d', none) := Option.some.inj hexec
    exact Ok.remove (s := s) false h hrun

theorem Ok.rename {ino : ℕ} (h : Ok X s) (hne : ino ≠ 0) (hino : ino < 256 ^ 8)
    (hsafe : (Write.rename name ino).Safe X s) :
    Ok X { s with dir := overwrite s.dir (findEntry s.dir name) ino } := by
  unfold overwrite
  cases hfind : findEntry s.dir name with
  | found k o =>
    obtain ⟨b, prev, hb, hsearch⟩ := findEntry_found hfind
    obtain ⟨-, hwfb, ho, hlt, his, -⟩ := search_live h.wf hb hsearch
    obtain ⟨M, j, hlive, hlive', hwf'⟩ := overwrite_live h.wf hb hsearch hino hne
    dsimp only
    rw [hb, Option.elim_some]
    refine ⟨hwf', (rebound_of_overwrite h.wf h.unique hne hwf' hlive hlive').unique,
      typed_setBlk h.typed ?_⟩
    have hbut : TypedBut (fun n i t => n ∉ X → Tells s.isDir i t) b o :=
      fun x hx hxlt _ => h.typed k b hb x hx hxlt
    refine hbut.set ho hlt (fun i hi => put_of_not_mem (by omega)) (recAt_putIno hino) ?_
    rw [show deName b o = name from his.2, type_congr (put_of_not_mem (by omega))]
    exact fun hX => hsafe hX k o b hfind hb
  | stop => exact h
  | nothing => exact h
  | endless => exact h

theorem Ok.step (h : Ok X s) (hstep : Step X s s') : Ok X s' := by
  obtain ⟨w, hvalid, hsafe, hexec⟩ := hstep
  cases w with
  | call op =>
    obtain ⟨⟨d', e⟩, hop, hrest⟩ := Option.bind_eq_some_iff.mp hexec
    split_ifs at hrest with he
    cases hrest
    exact h.call hvalid hsafe (he ▸ hop)
  | rename name ino =>
    cases hexec
    exact h.rename hvalid.1 hvalid.2 hsafe
  | inode i isDir =>
    cases hexec
    refine ⟨h.wf, h.unique, fun k b hb x hx hlt hne hX => ?_⟩
    -- the record is for another inode
    have hother : deIno b x ≠ i := by
      intro hcon
      refine hvalid (deName b x) (hcon ▸ mem_live_of_start (h.wf.blk hb).1 hb hx hlt ⟨hne, rfl⟩)
    simpa only [Tells, update_of_ne hother] using h.typed k b hb x hx hlt hne hX

theorem Ok.run (h : Ok X s) (hrun : Relation.ReflTransGen (Step X) s s') : Ok X s' := by
  induction hrun with
  | refl => exact h
  | tail _ hstep ih => exact ih.step hstep

/-- **Main result.** In every directory that a run of the writers makes, each of them binding names
where the type of the inode stands, `syscall_fetchdentry` gives the number and the type of the inode
that a name is for, but for the names `X` that had no type at the start. -/
theorem fetch_unambiguous {root : ℕ} (h : Ok X s) (hrun : Relation.ReflTransGen (Step X) s s')
    (hroot : root ≠ 0) (hmem : (name, i) ∈ live s'.dir) (hX : name ∉ X) :
    Unambiguous (syscallFetchdentry (some (s'.dir, root)) name) i (typeOf (s'.isDir i)) := by
  have hok := h.run hrun
  obtain ⟨k, b, x, hb, hx, hlt, his, rfl, hfetch⟩ := fetch_spec hok.wf hok.unique hroot hmem
  rw [hfetch]
  have htyped := hok.typed k b hb x hx hlt his.1
  rw [show deName b x = name from his.2] at htyped
  exact (htyped hX).unambiguous

/-- A directory that `pmfs_mkdir` has made, with the number 512, in the root directory. -/
def made : State := ⟨oneBlock (makeEmpty (fun _ => 0) 512 128), fun i => i == 128 || i == 512⟩

theorem made_ok : Ok ∅ made := by
  have hwf : Wf (makeEmpty (fun _ => 0) 512 128) := by decide +kernel
  refine ⟨wfDir_oneBlock hwf, show ((live made.dir).map Prod.fst).Nodup by decide +kernel,
    fun k b hb => ?_⟩
  obtain rfl : k = 0 := by
    by_contra hk
    exact absurd hb (by simp [made, oneBlock, hk])
  obtain rfl : makeEmpty (fun _ => 0) 512 128 = b := Option.some.inj hb
  -- the records of the block begin at 0 and 16
  intro x hx hlt hne _
  have h0 := start_zero hwf
  have h16 := (h0.ok (by omega)).2
  have hlen : deLen (makeEmpty (fun _ => 0) 512 128) 0 = 16 ∧
    deLen (makeEmpty (fun _ => 0) 512 128) 16 = 4080 := by
    decide +kernel
  rcases Nat.eq_zero_or_pos x with rfl | hpos
  · decide +kernel
  have hge : 0 + deLen _ 0 ≤ x := h0.next hx hpos
  rcases Nat.eq_or_lt_of_le hge with heq | hgt
  · obtain rfl : x = 16 := by omega
    decide +kernel
  · have hend : 0 + deLen _ 0 + deLen _ (0 + deLen _ 0) ≤ x := h16.next hx hgt
    rw [hlen.1, Nat.zero_add, hlen.2] at hend
    omega

/-- The log puts a file into the directory and takes it out, and the kernel puts another one in its
place, where the type still stands. -/
theorem fetch_unambiguous_reused : ∃ s, Relation.ReflTransGen (Step ∅) made s ∧
    Unambiguous (syscallFetchdentry (some (s.dir, 4096)) [0x62]) 640 T_FILE := by
  obtain ⟨s1, hadd, s2, hremove, s, hreuse, hfirst, hthere, hlast, htells, hmem,
    htype⟩ : ∃ s1 ∈ Write.exec made
      (.call (.addDirentry ⟨512, 384, T_FILE, [0x61]⟩ (.error .ENOSPC) (.error .ENOSPC))),
      ∃ s2 ∈ Write.exec s1 (.call (.removeDirentry [0x61])),
      ∃ s ∈ Write.exec s2 (.call (.addEntry [0x62] 640 (.error .ENOSPC))),
      pmfsInodeByName made.dir [0x61] = 0 ∧ pmfsInodeByName s1.dir [0x61] ≠ 0 ∧
      pmfsInodeByName s2.dir [0x62] = 0 ∧
      Tells s2.isDir 640 (typeThere s2.dir [0x62] (.error .ENOSPC)) ∧ ([0x62], 640) ∈ live s.dir ∧
      typeOf (s.isDir 640) = T_FILE := by decide +kernel
  have hstep1 : Step ∅ made s1 :=
    ⟨.call (.addDirentry _ _ _), ⟨by decide, by decide, hfirst, by decide, by decide⟩,
      fun _ => by decide, hadd⟩
  have hstep2 : Step ∅ s1 s2 := ⟨.call (.removeDirentry _), ⟨by decide, by decide, rfl, hthere⟩,
    trivial, hremove⟩
  have hstep3 : Step ∅ s2 s :=
    ⟨.call (.addEntry _ _ _), ⟨by decide, by decide, hlast, by decide, by decide⟩,
      fun _ => htells, hreuse⟩
  have hsteps : Relation.ReflTransGen (Step ∅) made s :=
    .head hstep1 (.head hstep2 (.single hstep3))
  exact ⟨s, hsteps, htype ▸ fetch_unambiguous made_ok hsteps (by decide) hmem (Set.notMem_empty _)⟩

/-- A file made by `pmfs_create` on a new file system. Its record has the type 0. -/
theorem created_untyped : ∃ fs, Relation.ReflTransGen (Runs.Step fun _ _ => True) pmfsInit fs ∧
    ([0x61], 384) ∈ live (fs.data 128) ∧ (fs.inode 384).kind = some .reg ∧
      ¬ Unambiguous (syscallFetchdentry (some (fs.data 128, 4096)) [0x61]) 384 T_FILE := by
  obtain ⟨fs, hrun, hentry, hkind, hvalue⟩ : ∃ fs ∈ runOps (fun _ _ => True) pmfsInit
      [.create 128 [0x61] (plainEnv 384)], ([0x61], 384) ∈ live (fs.data 128) ∧
        (fs.inode 384).kind = some .reg ∧
        syscallFetchdentry (some (fs.data 128, 4096)) [0x61] = 384 := by decide +kernel
  refine ⟨fs, runOps_steps hrun, hentry, hkind, ?_⟩
  rw [hvalue]
  rintro ⟨-, hmod, -⟩
  exact absurd hmod (by decide)

end Pmfs.Namei.Fetch
