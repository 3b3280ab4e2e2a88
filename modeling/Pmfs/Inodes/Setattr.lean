import Pmfs.Inodes.Regular
import Pmfs.Itable.Model
import Pmfs.Tree.Cut

/-! # Changing attributes

`pmfs_notify_change` (`inode.c`) for any request: it changes the size if it has to, copies the
fields of the request into the VFS inode and then writes fields of the inode on the device: none, a
single one, or all of them in a transaction. `pmfs_is_inode_dirty` compares the two copies. Where
the fields that were copied are not those that are written the copies come apart:
`setattr_clean_iff`.

The list of pending truncations and the clearing of the last page are left out, as in `Regular`. -/

namespace Pmfs.Inodes.Setattr

open Block.Model Tree.Model Inodes.Model
open Inodes.Regular (File pmfsSetsize pmfsSetBlocksizeHint)
open Itable.Model (pmfsUpdateInode)
open Tree.Cut (newDev plainFile)

def ATTR_MODE : UInt32 := 1

def ATTR_UID : UInt32 := 2

def ATTR_GID : UInt32 := 4

def ATTR_SIZE : UInt32 := 8

def ATTR_ATIME : UInt32 := 16

def ATTR_MTIME : UInt32 := 32

def ATTR_CTIME : UInt32 := 64

/-- `attr_mask` of `pmfs_notify_change`. -/
def attrMask : UInt32 :=
  ATTR_MODE ||| ATTR_UID ||| ATTR_GID ||| ATTR_ATIME ||| ATTR_MTIME ||| ATTR_CTIME

/-- `struct iattr`; of the times it is the seconds. -/
structure Iattr where
  iaValid : UInt32
  iaMode : ℕ
  iaUid : ℕ
  iaGid : ℕ
  iaSize : ℕ
  iaAtime : ℕ
  iaMtime : ℕ
  iaCtime : ℕ

/-- Whether the request is for a field. -/
def Iattr.has (attr : Iattr) (bit : UInt32) : Bool := attr.iaValid &&& bit != 0

/-- `pmfs_is_inode_dirty`. -/
def pmfsIsInodeDirty (inode : Inode) (pi : PmfsInode) : Bool :=
  inode.iCtime != pi.iCtime || inode.iMtime != pi.iMtime || inode.iSize != pi.iSize ||
    inode.iMode != pi.iMode || inode.iUid != pi.iUid || inode.iGid != pi.iGid ||
    inode.iNlink != pi.iLinksCount || inode.iBlocks != pi.iBlocks || inode.iAtime != pi.iAtime

/-- `setattr_copy`: the fields of the request but the size. -/
def setattrCopy (inode : Inode) (attr : Iattr) : Inode :=
  { inode with
    iUid := if attr.has ATTR_UID then attr.iaUid else inode.iUid
    iGid := if attr.has ATTR_GID then attr.iaGid else inode.iGid
    iAtime := if attr.has ATTR_ATIME then attr.iaAtime else inode.iAtime
    iMtime := if attr.has ATTR_MTIME then attr.iaMtime else inode.iMtime
    iCtime := if attr.has ATTR_CTIME then attr.iaCtime else inode.iCtime
    iMode := if attr.has ATTR_MODE then attr.iaMode else inode.iMode }

/-- `pmfs_update_single_field`; the inode on the device has 32 bits for a time. -/
def pmfsUpdateSingleField (inode : Inode) (pi : PmfsInode) (iaValid : UInt32) : PmfsInode :=
  if iaValid = ATTR_MODE then { pi with iMode := inode.iMode }
  else if iaValid = ATTR_UID then { pi with iUid := inode.iUid }
  else if iaValid = ATTR_GID then { pi with iGid := inode.iGid }
  else if iaValid = ATTR_SIZE then { pi with iSize := inode.iSize }
  else if iaValid = ATTR_ATIME then { pi with iAtime := inode.iAtime % 2 ^ 32 }
  else if iaValid = ATTR_CTIME then { pi with iCtime := inode.iCtime % 2 ^ 32 }
  else if iaValid = ATTR_MTIME then { pi with iMtime := inode.iMtime % 2 ^ 32 }
  else pi

/-- Whether `pmfs_notify_change` changes the size. -/
def resizes (f : File) (attr : Iattr) : Bool :=
  attr.has ATTR_SIZE && (attr.iaSize != f.inode.iSize || f.pi.eofblocks)

/-- The first part of `pmfs_notify_change`: the size, and the fields that are left. -/
def changeSize (f : File) (attr : Iattr) (now : ℕ) : Option (File × UInt32) :=
  if resizes f attr then
    (pmfsSetsize { f with pi := pmfsSetBlocksizeHint f.pi attr.iaSize } attr.iaSize now).map
      fun f => ({ f with pi := { f.pi with iSize := f.inode.iSize } },
        attr.iaValid &&& ~~~(ATTR_CTIME ||| ATTR_MTIME))
  else some (f, attr.iaValid)

/-- The last part of `pmfs_notify_change`: the fields that are left are written. -/
def persistFields (inode : Inode) (pi : PmfsInode) (iaValid : UInt32) (trans : Option Errno) :
    PmfsInode × Option Errno :=
  if iaValid = 0 then (pi, none)
  else if iaValid &&& (iaValid - 1) = 0 then (pmfsUpdateSingleField inode pi iaValid, none)
  else
    match trans with
    | some e => (pi, some e)
    | none => (pmfsUpdateInode inode pi, none)

/-- `pmfs_notify_change`, with the results `ok` of `inode_change_ok` and `trans` of
`pmfs_new_transaction`. -/
def pmfsNotifyChange (f : File) (attr : Iattr) (now : ℕ) (ok trans : Option Errno) :
    Option (File × Option Errno) :=
  match ok with
  | some e => some (f, some e)
  | none => (changeSize f attr now).map fun r =>
    let inode := setattrCopy r.1.inode attr
    let s := persistFields inode r.1.pi (r.2 &&& attrMask) trans
    ({ r.1 with inode := inode, pi := s.1 }, s.2)

variable {f f' : File} {inode inode' : Inode} {pi pi' : PmfsInode} {attr : Iattr}
  {d d' : Dev} {now : ℕ} {ok trans o : Option Errno} {x : UInt32}

/-- A request for the size alone, as `Regular` has it. -/
theorem notifyChange_size (h : attr.iaValid = ATTR_SIZE) :
    pmfsNotifyChange f attr now ok trans = Regular.pmfsNotifyChange f attr.iaSize now ok := by
  have hcopy : ∀ inode, setattrCopy inode attr = inode := by
    intro inode
    unfold setattrCopy Iattr.has
    rw [h]
    rfl
  have hwritten : ∀ inode pi, persistFields inode pi (ATTR_SIZE &&& attrMask) trans = (pi, none) :=
    fun _ _ => rfl
  have hleft : (ATTR_SIZE &&& ~~~(ATTR_CTIME ||| ATTR_MTIME)) = ATTR_SIZE := rfl
  have hresizes : resizes f attr = true ↔ attr.iaSize ≠ f.inode.iSize ∨ f.pi.eofblocks = true := by
    unfold resizes Iattr.has
    rw [h]
    simp [ATTR_SIZE]
  cases ok with
  | some e => rfl
  | none =>
    unfold pmfsNotifyChange Regular.pmfsNotifyChange changeSize
    by_cases hr : attr.iaSize ≠ f.inode.iSize ∨ f.pi.eofblocks = true
    · simp [if_pos (hresizes.mpr hr), if_pos hr, hcopy, h, hleft, hwritten, Function.comp_def]
    · simp [if_neg (mt hresizes.mp hr), if_neg hr, hcopy, h, hwritten]

/-! ### The two copies -/

/-- The fields that both copies have. -/
@[ext]
structure Attrs where
  ctime : ℕ
  mtime : ℕ
  size : ℕ
  mode : ℕ
  uid : ℕ
  gid : ℕ
  nlink : ℕ
  blocks : UInt64
  atime : ℕ

/-- The fields of the VFS inode. -/
def inodeAttrs (inode : Inode) : Attrs :=
  ⟨inode.iCtime, inode.iMtime, inode.iSize, inode.iMode, inode.iUid, inode.iGid,
    inode.iNlink, inode.iBlocks, inode.iAtime⟩

/-- The fields of the inode on the device. -/
def piAttrs (pi : PmfsInode) : Attrs :=
  ⟨pi.iCtime, pi.iMtime, pi.iSize, pi.iMode, pi.iUid, pi.iGid, pi.iLinksCount,
    pi.iBlocks, pi.iAtime⟩

theorem clean_iff : pmfsIsInodeDirty inode pi = false ↔ inodeAttrs inode = piAttrs pi := by
  simp only [pmfsIsInodeDirty, Bool.or_eq_false_iff, bne_eq_false_iff_eq, inodeAttrs, piAttrs,
    Attrs.mk.injEq, and_assoc]

/-! ### The size -/

theorem hint_attrs (pi : PmfsInode) (size : ℕ) :
    piAttrs (pmfsSetBlocksizeHint pi size) = piAttrs pi := by
  unfold pmfsSetBlocksizeHint
  split_ifs <;> rfl

/-- A truncation sets the times and the number of blocks of both copies. -/
theorem truncate_attrs {start stop : ℕ} (hblocks : inode.iBlocks = pi.iBlocks)
    (h : __pmfsTruncateBlocks d inode pi start stop now = some (d', inode', pi')) : ∃ b,
      inodeAttrs inode' = { inodeAttrs inode with mtime := now, ctime := now, blocks := b } ∧
      piAttrs pi' =
        { piAttrs pi with mtime := now % 2 ^ 32, ctime := now % 2 ^ 32, blocks := b } := by
  rcases Tree.Inode.truncate_cases h with ⟨-, -, rfl, rfl⟩ | ⟨-, -, d1, root, freed, b, pi2, fl, -,
    -, -, hdec, rfl, rfl⟩
  · exact ⟨pi.iBlocks, by rw [← hblocks]; rfl, rfl⟩
  · exact ⟨b, rfl, congrArg piAttrs (Tree.Inode.decrease_same hdec)⟩

/-- Whether `pmfs_setsize` sets the times. -/
def stamps (f : File) (attr : Iattr) : Bool :=
  resizes f attr && (sIsReg f.inode.iMode || sIsDir f.inode.iMode || sIsLnk f.inode.iMode)

/-- A time of the VFS copy after the change of the size. -/
def timeOf (f : File) (attr : Iattr) (now old : ℕ) : ℕ := if stamps f attr then now else old

/-- The same time on the device. -/
def storedTime (f : File) (attr : Iattr) (now old : ℕ) : ℕ :=
  if stamps f attr then now % 2 ^ 32 else old

/-- The fields that are left to write. -/
def fieldsLeft (f : File) (attr : Iattr) : UInt32 :=
  (if resizes f attr then attr.iaValid &&& ~~~(ATTR_CTIME ||| ATTR_MTIME) else attr.iaValid) &&&
    attrMask

/-- After the change of the size the copies differ in the times at most. -/
theorem changeSize_attrs (hclean : inodeAttrs f.inode = piAttrs f.pi)
    (h : changeSize f attr now = some (f', x)) : x &&& attrMask = fieldsLeft f attr ∧ ∃ s b,
      inodeAttrs f'.inode = { inodeAttrs f.inode with
        mtime := timeOf f attr now f.inode.iMtime
        ctime := timeOf f attr now f.inode.iCtime
        size := s
        blocks := b } ∧
      piAttrs f'.pi = { inodeAttrs f.inode with
        mtime := storedTime f attr now f.inode.iMtime
        ctime := storedTime f attr now f.inode.iCtime
        size := s
        blocks := b } := by
  unfold changeSize at h
  unfold fieldsLeft timeOf storedTime stamps
  by_cases hres : resizes f attr = true
  swap
  · rw [if_neg hres] at h
    cases h
    simp only [hres, Bool.false_and, Bool.false_eq_true, if_false, true_and]
    exact ⟨f.inode.iSize, f.inode.iBlocks, rfl, hclean.symm⟩
  rw [if_pos hres] at h
  obtain ⟨f1, hset, heq⟩ := Option.map_eq_some_iff.mp h
  cases heq
  rw [if_pos hres, hres, Bool.true_and]
  refine ⟨rfl, ?_⟩
  unfold pmfsSetsize at hset
  by_cases hkind : (sIsReg f.inode.iMode || sIsDir f.inode.iMode || sIsLnk f.inode.iMode) = true
  · rw [if_pos hkind] at hset
    obtain ⟨⟨d1, inode1, pi1⟩, htrunc, rfl⟩ := Option.map_eq_some_iff.mp hset
    have hblocks : f.inode.iBlocks = (pmfsSetBlocksizeHint f.pi attr.iaSize).iBlocks :=
      congrArg Attrs.blocks (hclean.trans (hint_attrs f.pi attr.iaSize).symm)
    have hattrs := fun hb => truncate_attrs hb htrunc
    obtain ⟨b, hinode, hpi⟩ := hattrs hblocks
    refine ⟨attr.iaSize, b, ?_, ?_⟩
    · simp only [hkind, if_true]
      exact hinode
    · simp only [hkind, if_true]
      have hsize : inode1.iSize = attr.iaSize := congrArg Attrs.size hinode
      show { piAttrs pi1 with size := inode1.iSize } = _
      rw [hpi, hint_attrs, ← hclean, hsize]
  · rw [if_neg hkind, Option.some.injEq] at hset
    subst hset
    simp only [hkind, Bool.false_eq_true, if_false]
    refine ⟨f.inode.iSize, f.inode.iBlocks, rfl, ?_⟩
    show { piAttrs (pmfsSetBlocksizeHint f.pi attr.iaSize) with size := f.inode.iSize } = _
    rw [hint_attrs, ← hclean]
    rfl

/-! ### The fields of the request -/

/-- Whether a field of the inode on the device is written from the VFS copy. -/
def saves (iaValid : UInt32) (trans : Option Errno) (bit : UInt32) : Bool :=
  iaValid == bit || (iaValid &&& (iaValid - 1) != 0 && trans.isNone)

theorem persist_attrs (hnlink : inode.iNlink = pi.iLinksCount) (hlt : pi.iLinksCount < 65536)
    (hsize : inode.iSize = pi.iSize) (hblocks : inode.iBlocks = pi.iBlocks) :
    piAttrs (persistFields inode pi x trans).1 = { piAttrs pi with
      mode := if saves x trans ATTR_MODE then inode.iMode else pi.iMode
      uid := if saves x trans ATTR_UID then inode.iUid else pi.iUid
      gid := if saves x trans ATTR_GID then inode.iGid else pi.iGid
      atime := if saves x trans ATTR_ATIME then inode.iAtime % 2 ^ 32 else pi.iAtime
      mtime := if saves x trans ATTR_MTIME then inode.iMtime % 2 ^ 32 else pi.iMtime
      ctime := if saves x trans ATTR_CTIME then inode.iCtime % 2 ^ 32 else pi.iCtime } := by
  unfold persistFields
  by_cases h0 : x = 0
  · subst h0
    rfl
  by_cases hone : x &&& (x - 1) = 0
  · have hsaves : ∀ bit, saves x trans bit = (x == bit) := by
      intro bit
      simp [saves, hone]
    simp only [if_neg h0, if_pos hone, hsaves, beq_iff_eq]
    unfold pmfsUpdateSingleField
    rcases eq_or_ne x ATTR_MODE with rfl | h1
    · rfl
    rcases eq_or_ne x ATTR_UID with rfl | h2
    · rfl
    rcases eq_or_ne x ATTR_GID with rfl | h3
    · rfl
    rcases eq_or_ne x ATTR_SIZE with rfl | h4
    · rw [hsize]
      rfl
    rcases eq_or_ne x ATTR_ATIME with rfl | h5
    · rfl
    rcases eq_or_ne x ATTR_CTIME with rfl | h6
    · rfl
    rcases eq_or_ne x ATTR_MTIME with rfl | h7
    · rfl
    simp only [if_neg h1, if_neg h2, if_neg h3, if_neg h4, if_neg h5, if_neg h6, if_neg h7]
    rfl
  · have hsaves : ∀ bit, saves x none bit = true := by
      intro bit
      simp [saves, hone]
    have hnot : ∀ e bit, bit &&& (bit - 1) = 0 → saves x (some e) bit = false := by
      intro e bit hbit
      have hne : x ≠ bit := fun hcon => hone (hcon ▸ hbit)
      simp [saves, hne]
    rw [if_neg h0, if_neg hone]
    rcases trans with - | e
    · simp only [hsaves, if_true]
      simp only [piAttrs, pmfsUpdateInode, hnlink, Nat.mod_eq_of_lt hlt, hsize, hblocks]
    · simp only [hnot e ATTR_MODE (by decide), hnot e ATTR_UID (by decide),
        hnot e ATTR_GID (by decide), hnot e ATTR_ATIME (by decide), hnot e ATTR_MTIME (by decide),
        hnot e ATTR_CTIME (by decide)]
      rfl

/-- A field that both copies have with all its bits stays the same in them: it is not in the
request, it is written, or it does not change. -/
def FieldKept (requested saved : Bool) (new old : ℕ) : Prop :=
  requested = true → saved = true ∨ new = old

/-- A time stays the same in both copies: it is written and has 32 bits, or it is not and is the
time that is there. -/
def TimeKept (requested saved : Bool) (new old stored : ℕ) : Prop :=
  if saved then (if requested then new else old) < 2 ^ 32
  else (if requested then new else old) = stored

/-- What a request must be like for the copies to agree after it. -/
structure Kept (f : File) (attr : Iattr) (now : ℕ) (trans : Option Errno) : Prop where
  mode : FieldKept (attr.has ATTR_MODE) (saves (fieldsLeft f attr) trans ATTR_MODE)
    attr.iaMode f.inode.iMode
  uid : FieldKept (attr.has ATTR_UID) (saves (fieldsLeft f attr) trans ATTR_UID)
    attr.iaUid f.inode.iUid
  gid : FieldKept (attr.has ATTR_GID) (saves (fieldsLeft f attr) trans ATTR_GID)
    attr.iaGid f.inode.iGid
  atime : TimeKept (attr.has ATTR_ATIME) (saves (fieldsLeft f attr) trans ATTR_ATIME)
    attr.iaAtime f.inode.iAtime f.inode.iAtime
  mtime : TimeKept (attr.has ATTR_MTIME) (saves (fieldsLeft f attr) trans ATTR_MTIME) attr.iaMtime
    (timeOf f attr now f.inode.iMtime) (storedTime f attr now f.inode.iMtime)
  ctime : TimeKept (attr.has ATTR_CTIME) (saves (fieldsLeft f attr) trans ATTR_CTIME) attr.iaCtime
    (timeOf f attr now f.inode.iCtime) (storedTime f attr now f.inode.iCtime)

theorem fieldKept_iff {requested saved : Bool} {new old : ℕ} : FieldKept requested saved new old ↔
    (if requested then new else old) = if saved then (if requested then new else old) else old := by
  unfold FieldKept
  rcases requested <;> rcases saved <;> simp

theorem timeKept_iff {requested saved : Bool} {new old stored : ℕ} :
    TimeKept requested saved new old stored ↔ (if requested then new else old) =
    if saved then (if requested then new else old) % 2 ^ 32 else stored := by
  unfold TimeKept
  split_ifs <;> omega

/-- **Main result.** After a call that returns, with an error or not, the two copies of an inode
agree again exactly when the request was refused, or the fields that it changes in the VFS inode are
written as they are. -/
theorem setattr_clean_iff (f f' : File) (attr : Iattr) (now : ℕ) (ok trans o : Option Errno)
    (hclean : pmfsIsInodeDirty f.inode f.pi = false) (hlinks : f.pi.iLinksCount < 65536)
    (hrun : pmfsNotifyChange f attr now ok trans = some (f', o)) :
    pmfsIsInodeDirty f'.inode f'.pi = false ↔ ok ≠ none ∨ Kept f attr now trans := by
  rw [clean_iff] at hclean ⊢
  rcases ok with - | e
  swap
  · simp only [pmfsNotifyChange] at hrun
    cases hrun
    simp [hclean]
  simp only [ne_eq, not_true_eq_false, false_or]
  obtain ⟨⟨f1, x⟩, hsize, heq⟩ := Option.map_eq_some_iff.mp hrun
  cases heq
  obtain ⟨hx, s, b, hinode, hpi⟩ := changeSize_attrs hclean hsize
  have hnlink : f.inode.iNlink = f.pi.iLinksCount := congrArg Attrs.nlink hclean
  simp only [inodeAttrs, Attrs.mk.injEq] at hinode
  simp only [inodeAttrs, piAttrs, Attrs.mk.injEq] at hpi
  obtain ⟨hc, hm, hs, hmode, huid, hgid, hn, hb, ha⟩ := hinode
  obtain ⟨hc', hm', hs', hmode', huid', hgid', hn', hb', ha'⟩ := hpi
  have hsame : (setattrCopy f1.inode attr).iNlink = f1.pi.iLinksCount := hn.trans hn'.symm
  rw [persist_attrs hsame (by rw [hn', hnlink]; exact hlinks) (hs.trans hs'.symm)
    (hb.trans hb'.symm)]
  simp only [inodeAttrs, setattrCopy, piAttrs, Attrs.mk.injEq, hx, hc, hm, hs, hmode, huid, hgid,
    hn, hb, ha, hc', hm', hs', hmode', huid', hgid', hn', hb', ha', true_and]
  constructor
  · rintro ⟨h1, h2, h3, h4, h5, h6⟩
    exact ⟨fieldKept_iff.mpr h3, fieldKept_iff.mpr h4, fieldKept_iff.mpr h5, timeKept_iff.mpr h6,
      timeKept_iff.mpr h2, timeKept_iff.mpr h1⟩
  · intro h
    exact ⟨timeKept_iff.mp h.ctime, timeKept_iff.mp h.mtime, fieldKept_iff.mp h.mode,
      fieldKept_iff.mp h.uid, fieldKept_iff.mp h.gid, timeKept_iff.mp h.atime⟩

/-- A regular file without blocks, as both copies have it. -/
def blankFile : File :=
  ⟨newDev 18, plainFile, { zeroInode with iMode := plainFile.iMode, iLinksCount := 1 }⟩

/-- A request for a mode alone. -/
def modeRequest : Iattr := ⟨ATTR_MODE, 0o100600, 0, 0, 0, 0, 0, 0⟩

/-- A request for a size and the time of modification. -/
def sizeRequest : Iattr := ⟨ATTR_SIZE ||| ATTR_MTIME, 0, 0, 0, 10, 0, 5, 0⟩

theorem setattr_clean_mode : ∃ f', pmfsNotifyChange blankFile modeRequest 7 none none =
    some (f', none) ∧ pmfsIsInodeDirty f'.inode f'.pi = false := by
  have hkept : Kept blankFile modeRequest 7 none :=
    ⟨fieldKept_iff.mpr (by decide), fieldKept_iff.mpr (by decide), fieldKept_iff.mpr (by decide),
      timeKept_iff.mpr (by decide), timeKept_iff.mpr (by decide), timeKept_iff.mpr (by decide)⟩
  exact ⟨_, rfl,
    (setattr_clean_iff blankFile _ modeRequest 7 none none none (by decide) (by decide) rfl).mpr
    (Or.inr hkept)⟩

/-- A change of the size at the time 7 with the time 5 in the request: the VFS inode has the 5, the
inode on the device the 7. -/
theorem resize_leaves_dirty : pmfsIsInodeDirty blankFile.inode blankFile.pi = false ∧
    ∃ f', pmfsNotifyChange blankFile sizeRequest 7 none none = some (f', none) ∧
      f'.inode.iMtime = 5 ∧ f'.pi.iMtime = 7 ∧ pmfsIsInodeDirty f'.inode f'.pi = true := by
  refine ⟨by decide, _, rfl, ?_⟩
  decide

end Pmfs.Inodes.Setattr
