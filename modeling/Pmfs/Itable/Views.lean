import Pmfs.Inodes.EofRuns
import Pmfs.Inodes.Setattr
import Pmfs.Itable.Account
import Pmfs.Namei.Refine
import Pmfs.Replay.Model

/-! # One inode in several models

An inode is created, freed and evicted in the model of the file system with its device (`Inodes`),
in that of the inode table (`Itable`) and in that of the namespace (`Namei`), each with what its own
results need. `View` relates the first two and `Shown` the last two. The functions that several
models have keep these relations, so that they differ in what they leave out only. `seen` takes a
change of attributes from the first model to the last. -/

namespace Pmfs.Itable.Views

open Block.Model Tree.Model Tree.Inode Itable.Model Itable.Select Namei.Refine Function
open Inodes.Model (sIsReg sIsDir sIsLnk evicts pmfsMaskFlags)
open Inodes.Blocks (Inv referenced_table)
open Namei.Model (Kind)

variable {fs fs' : Inodes.Model.Fs} {t t' : Table} {i now r : ℕ} {trans o : Option Errno}
  {pi : PmfsInode} {inode : Inode} {flags : UInt32} {env : Env} {grow : List (Option Errno)}

/-! ### Slots -/

/-- The slots of the table, with zeros behind them. -/
def slots (t : Table) (j : ℕ) : PmfsInode := if j < t.iSize >>> 7 then t.pi j else zeroInode

theorem slots_update (hi : i < t.iSize >>> 7) (hsize : t'.iSize = t.iSize)
    (hpi : t'.pi = update t.pi i pi) : slots t' = update (slots t) i pi := by
  funext j
  unfold slots
  rw [hsize, hpi]
  by_cases hj : j = i
  · subst hj
    rw [update_self, update_self, if_pos hi]
  · rw [update_of_ne hj, update_of_ne hj]

theorem slots_extends (h : Extends t t') : slots t' = slots t := by
  funext j
  unfold slots
  by_cases hj : j < t.iSize >>> 7
  · rw [if_pos hj, if_pos (hj.trans_le h.size), h.slots j hj]
  · rw [if_neg hj]
    exact ite_eq_right_iff.mpr fun hin => h.blank j (not_lt.mp hj) hin

/-! ### The table of a file system -/

/-- `t` is the inode table of `fs`. -/
structure View (fs : Inodes.Model.Fs) (t : Table) : Prop where
  sbi : t.sbi = fs.sbi
  size : t.iSize = fs.inodeTable.iSize
  type : t.iBlkType = fs.inodeTable.iBlkType
  slots : slots t = fs.pi

theorem View.slot (h : View fs t) (hi : i < t.iSize >>> 7) : t.pi i = fs.pi i := by
  rw [← h.slots]
  exact (if_pos hi).symm

theorem view_free (h : View fs t) (hi : i < t.iSize >>> 7) :
    View (Inodes.Model.pmfsFreeInode fs i trans now).1 (pmfsFreeInode t i trans now).1 ∧
      (Inodes.Model.pmfsFreeInode fs i trans now).2 = (pmfsFreeInode t i trans now).2 := by
  cases trans with
  | some e => exact ⟨h, rfl⟩
  | none =>
    refine ⟨⟨?_, h.size, h.type, ?_⟩, rfl⟩
    · simp only [pmfsFreeInode, Inodes.Model.pmfsFreeInode, h.sbi]
    · have hslots : slots (pmfsFreeInode t i none now).1 = update (slots t) i _ :=
        slots_update hi rfl rfl
      rw [hslots, h.slot hi, h.slots]
      rfl

theorem view_evict (h : View fs t) (hi : i < t.iSize >>> 7)
    (hrun : Inodes.Model.pmfsEvictInode fs i trans now = some fs') :
    View fs' (pmfsEvictInode t i (fs.inode i) trans now) := by
  have hview := (view_free h hi : View (Inodes.Model.pmfsFreeInode fs i trans now).1 _ ∧ _).1
  unfold Inodes.Model.pmfsEvictInode at hrun
  unfold pmfsEvictInode
  dsimp only at hrun
  split_ifs at hrun ⊢
  · rcases hfree : Inodes.Model.pmfsFreeInode fs i trans now with ⟨fs1, _ | e⟩
    · rw [hfree] at hrun hview
      obtain ⟨_, -, rfl⟩ := Option.map_eq_some_iff.mp hrun
      exact ⟨hview.sbi, hview.size, hview.type, hview.slots⟩
    · rw [hfree] at hrun hview
      exact Option.some.inj hrun ▸ hview
  · exact Option.some.inj hrun ▸ h

/-- A growth of the table that fails leaves the table as it is, whatever it has allocated. -/
theorem view_increase (hinv : Inv r fs) (h : View fs t)
    (hrun : Inodes.Model.pmfsIncreaseInodeTableSize fs trans = some (fs', o)) :
    View fs' (pmfsIncreaseInodeTableSize t o).1 := by
  unfold Inodes.Model.pmfsIncreaseInodeTableSize at hrun
  cases trans with
  | some e =>
    cases hrun
    exact h
  | none =>
    have hown := hinv.owns
    rw [referenced_table] at hown
    obtain ⟨d, pi, e, halloc, ha, -⟩ :=
      alloc_spec (fs.inodeTable.iSize >>> 12) 1 true hown hinv.table
    have hsize : pi.iSize = t.iSize := by rw [ha.same, h.size]
    have htype : pi.iBlkType = t.iBlkType := by rw [ha.same, h.type]
    rw [halloc] at hrun
    cases e with
    | some e =>
      cases hrun
      exact ⟨h.sbi, hsize.symm, htype.symm, h.slots⟩
    | none =>
      cases hrun
      refine ⟨?_, ?_, htype.symm, (slots_extends (increase_extends t)).trans h.slots⟩
      · simp only [pmfsIncreaseInodeTableSize, pmfsInodeBlkSize, hsize, htype, h.sbi]
      · simp only [pmfsIncreaseInodeTableSize, pmfsInodeBlkSize, hsize, htype]

/-- What `add_direntry` does to an inode of the table is what it does to the inode alone. -/
theorem addDirentry_inode {mtime : ℕ} {isDir placed : Bool} {d : Dev} (hi : t.Mapped i) :
    ∃ added, addDirentry t i flags added =
      some (t.setPi i (Replay.Model.addDirentryInode flags mtime isDir placed d (t.pi i)).2) := by
  unfold addDirentry Replay.Model.addDirentryInode
  simp only [if_pos hi]
  cases placed with
  | false => exact ⟨.early, rfl⟩
  | true =>
    cases isDir with
    | false => exact ⟨.done none mtime, rfl⟩
    | true =>
      rcases d.newBlock .b4K true with ⟨_ | b, d⟩
      exacts [⟨.done none mtime, rfl⟩, ⟨.done (some b) mtime, rfl⟩]

/-! ### The inodes of the namespace -/

/-- The file type in a mode. -/
def kindOf (mode : ℕ) : Option Kind :=
  if mode = 0 then none
  else if sIsReg mode then some .reg
  else if sIsDir mode then some .dir
  else if sIsLnk mode then some .lnk
  else some .special

/-- What the namespace has of an inode on the medium. -/
structure Shows (pi : PmfsInode) (x : Namei.Model.Inode) : Prop where
  kind : x.kind = kindOf pi.iMode
  links : x.links = pi.iLinksCount
  dtime : x.dtime = (pi.iDtime != 0)

/-- The namespace `ns` has the inodes of the table but for the one with the number `dir`. -/
def Shown (dir : ℕ) (t : Table) (ns : Namei.Model.Fs) : Prop :=
  ∀ j, 128 * j ≠ dir → Shows (slots t j) (ns.inode (128 * j))

variable {dir : ℕ} {ns ns' : Namei.Model.Fs} {x : Namei.Model.Inode} {kind : Kind}

/-- One slot changes, and the inode of its number. -/
theorem Shown.set (h : Shown dir t ns) (hi : i < t.iSize >>> 7) (hsize : t'.iSize = t.iSize)
    (hpi : t'.pi = update t.pi i pi) (hx : 128 * i ≠ dir → Shows pi (ns'.inode (128 * i)))
    (hns : ∀ j, j ≠ i → 128 * j ≠ dir → ns'.inode (128 * j) = ns.inode (128 * j)) :
    Shown dir t' ns' := by
  intro j hj
  rw [slots_update hi hsize hpi]
  by_cases hji : j = i
  · subst hji
    rw [update_self]
    exact hx hj
  · rw [update_of_ne hji, hns j hji hj]
    exact h j hj

theorem setInode_self {j : ℕ} : (ns.setInode j x).inode j = x := update_self ..

theorem setInode_ne {j k : ℕ} (h : k ≠ j) : (ns.setInode j x).inode k = ns.inode k :=
  update_of_ne h ..

theorem Shown.slot (h : Shown dir t ns) (hi : i < t.iSize >>> 7) (hdir : 128 * i ≠ dir) :
    Shows (t.pi i) (ns.inode (128 * i)) := by
  have hshow := h i hdir
  rwa [slots, if_pos hi] at hshow

/-- `pmfs_new_inode`: the namespace gets the number of the slot that the table finds. -/
theorem shown_new (h : Shown dir t ns) (hcount : t.count ≤ t.iSize >>> 7)
    (hlink : inode.iNlink = 1) (hkind : kindOf inode.iMode = some kind)
    (hrun : pmfsNewInode t inode flags env = some (t', .ok i)) :
    i < t'.iSize >>> 7 ∧ ∃ ns', Namei.Model.pmfsNewInode ns kind (.ok (128 * i)) =
      .ok (ns', 128 * i) ∧ Shown dir t' ns' := by
  obtain ⟨t1, hsel, rfl⟩ := new_select hrun
  obtain ⟨t2, hext, -, hlt, -, rfl⟩ := select_spec hsel
  have hi : i < t2.iSize >>> 7 := hlt.trans_le (hext.count hcount)
  have hshown : Shown dir t2 ns := fun j hj => slots_extends hext ▸ h j hj
  have htaken : (takeSlot t2 i (pmfsMaskFlags inode.iMode flags)).pi i =
      chosen (t2.pi i) (pmfsMaskFlags inode.iMode flags) := update_self ..
  refine ⟨hi, _, rfl, hshown.set hi rfl (update_idem ..) (fun _ => ?_) fun j hj _ =>
    setInode_ne (by omega)⟩
  rw [htaken]
  show Shows _ ((ns.setInode (128 * i) _).inode (128 * i))
  rw [setInode_self]
  refine ⟨hkind.symm, ?_, rfl⟩
  show 1 = inode.iNlink % 65536
  rw [hlink]

/-- `pmfs_free_inode`, at a time that is not 0 on the medium. -/
theorem shown_free (h : Shown dir t ns) (hi : i < t.iSize >>> 7) (hnow : now % 2 ^ 32 ≠ 0) :
    Shown dir (pmfsFreeInode t i trans now).1 (Namei.Model.pmfsFreeInode ns (128 * i) trans).1 ∧
      (pmfsFreeInode t i trans now).2 = (Namei.Model.pmfsFreeInode ns (128 * i) trans).2 := by
  cases trans with
  | some e => exact ⟨h, rfl⟩
  | none =>
    refine ⟨h.set hi rfl rfl (fun hdir => ?_) fun j hj _ => setInode_ne (by omega), rfl⟩
    have hshow := h.slot hi hdir
    show Shows _ ((ns.setInode (128 * i) _).inode (128 * i))
    rw [setInode_self]
    exact ⟨hshow.kind, hshow.links, (bne_iff_ne.mpr hnow).symm⟩

/-- The VFS copy of an inode, in both models. -/
structure SameVfs (inode : Inode) (x : Namei.Model.Inode) : Prop where
  nlink : x.nlink = inode.iNlink
  kind : x.kind = kindOf inode.iMode
  fixed : x.fixed = (inode.isAppend || inode.isImmutable)
  good : inode.isBad = false

theorem evicts_iff (h : SameVfs inode x) : evicts inode = true ↔ x.nlink = 0 ∧
    (x.kind = some .reg ∨ x.kind = some .dir ∨ x.kind = some .lnk) ∧ x.fixed = false := by
  have hkind : (x.kind = some .reg ∨ x.kind = some .dir ∨ x.kind = some .lnk) ↔
      (sIsReg inode.iMode || sIsDir inode.iMode || sIsLnk inode.iMode) = true := by
    rw [h.kind, kindOf]
    by_cases h0 : inode.iMode = 0
    · simp [h0, sIsReg, sIsDir, sIsLnk]
    · split_ifs <;> simp [*]
  rw [hkind, h.nlink, h.fixed]
  simp [evicts, h.good, and_assoc]

theorem shown_evict (h : Shown dir t ns) (hi : i < t.iSize >>> 7) (hnow : now % 2 ^ 32 ≠ 0)
    (hvfs : SameVfs inode (ns.inode (128 * i))) :
    Shown dir (pmfsEvictInode t i inode trans now)
      (Namei.Model.pmfsEvictInode ns (128 * i) trans) := by
  intro j hj
  unfold pmfsEvictInode Namei.Model.pmfsEvictInode
  by_cases hev : evicts inode = true
  · rw [if_pos hev, if_pos ((evicts_iff hvfs).mp hev), truncateDel_inode]
    exact (shown_free h hi hnow).1 j hj
  · rw [if_neg hev, if_neg (mt (evicts_iff hvfs).mpr hev), truncateDel_inode]
    exact h j hj

/-- The inodes of `ns` and `ns'` are the same but for the link counts in memory. -/
def SameButNlink (ns ns' : Namei.Model.Fs) : Prop :=
  ∀ j, { ns'.inode j with nlink := 0 } = { ns.inode j with nlink := 0 }

theorem sameButNlink_set (nr n : ℕ) : SameButNlink ns (ns.setNlink nr n) := by
  intro j
  unfold Namei.Model.Fs.setNlink
  by_cases hj : j = nr
  · rw [hj, setInode_self]
  · rw [setInode_ne hj]

theorem Shown.congr (h : Shown dir t ns) (hns : SameButNlink ns ns') : Shown dir t ns' := by
  intro j hj
  obtain ⟨hkind, -, hlinks, hdtime, -⟩ := Namei.Model.Inode.mk.inj (hns (128 * j))
  obtain ⟨h1, h2, h3⟩ := h j hj
  exact ⟨hkind.trans h1, hlinks.trans h2, hdtime.trans h3⟩

/-- `pmfs_mkdir` from where it has an inode, but for the link count of the parent: the table gets
the inode of the new directory, or loses it again. -/
theorem shown_mkdir {name : Dirs.Model.Name} {nenv : Namei.Model.Env} (h : Shown dir t ns)
    (hcount : t.count ≤ t.iSize >>> 7) (hlink : inode.iNlink = 1)
    (hkind : kindOf inode.iMode = some .dir)
    (hfixed : (inode.isAppend || inode.isImmutable) = false) (hgood : inode.isBad = false)
    (hnow : env.now % 2 ^ 32 ≠ 0) (hnew : pmfsNewInode t inode flags env = some (t', .ok i))
    (hino : nenv.new = .ok (128 * i)) (hfree : env.free = nenv.free) (hok : o = none ↔
    env.block = none ∧ env.entry = none) (htrans : nenv.trans = none)
    (hmax : (ns.inode dir).nlink < Namei.Model.PMFS_LINK_MAX)
    (hrun : Namei.Model.pmfsMkdir ns dir name nenv = some (ns', o)) :
    ∃ t1, pmfsMkdir t inode flags env = some t1 ∧ Shown dir t1 ns' := by
  obtain ⟨hi, ns1, hns1, hshown⟩ := shown_new h hcount hlink hkind hnew
  have hself : ns1.inode (128 * i) = ⟨some .dir, 1, 1, false, false, false⟩ := by
    have heq : _ = ns1 := congrArg Prod.fst (Except.ok.inj hns1)
    rw [← heq]
    exact setInode_self
  -- the way back from an inode that has no name
  have hclear : ∀ {ns2}, SameButNlink ns1 ns2 → Shown dir
      (pmfsEvictInode t' i { inode with iNlink := 0 } nenv.free env.now)
      (Namei.Model.clearInode ns2 (128 * i) nenv) := by
    intro ns2 hsame
    refine shown_evict ((hshown.congr hsame).congr (sameButNlink_set _ 0)) hi hnow ?_
    have hback := hsame (128 * i)
    rw [hself] at hback
    obtain ⟨h1, -, -, -, h2, -⟩ := Namei.Model.Inode.mk.inj hback
    rw [Namei.Model.Fs.setNlink, setInode_self]
    exact ⟨rfl, h1.trans hkind.symm, h2.trans hfixed.symm, hgood⟩
  have hmkdir : pmfsMkdir t inode flags env = some (if o = none then pmfsUpdateNlink t' i 2
      else pmfsEvictInode t' i { inode with iNlink := 0 } nenv.free env.now) := by
    unfold pmfsMkdir
    rw [hnew, ← hfree, if_congr hok rfl rfl]
    rfl
  refine ⟨_, hmkdir, ?_⟩
  unfold Namei.Model.pmfsMkdir at hrun
  rw [if_neg (not_le.mpr hmax), htrans, hino, hns1] at hrun
  simp only [abort_eq] at hrun
  cases hfirst : nenv.first with
  | error e =>
    rw [hfirst] at hrun
    cases hrun
    exact hclear fun _ => rfl
  | ok b =>
    rw [hfirst] at hrun
    obtain ⟨⟨ns2, e⟩, hadd, heq⟩ := Option.map_eq_some_iff.mp hrun
    have hinode := addEntry_inode hadd
    cases e with
    | some e =>
      cases heq
      have hset : SameButNlink ns1 (ns1.setNlink (128 * i) 2) := sameButNlink_set _ _
      exact hclear fun j => hinode ▸ hset j
    | none =>
      cases heq
      refine hshown.set hi rfl rfl (fun hdir => ?_) fun j hj hdir => ?_
      · have hmade :
          (Namei.Model.pmfsIncCount (Namei.Model.pmfsUpdateNlink ns2 (128 * i)) dir).inode
            (128 * i) = { ns2.inode (128 * i) with links := (ns2.inode (128 * i)).nlink % 65536 } :=
          ((setInode_ne hdir).trans (setInode_ne hdir)).trans setInode_self
        have hshow := hshown i hdir
        rw [hself, slots, if_pos hi] at hshow
        rw [hmade, hinode, Namei.Model.Fs.setNlink, setInode_self]
        show Shows _ { ns1.inode (128 * i) with nlink := 2, links := 2 }
        rw [hself]
        exact ⟨hshow.kind, rfl, hshow.dtime⟩
      · refine ((setInode_ne hdir).trans (setInode_ne hdir)).trans ?_
        refine (setInode_ne (by omega)).trans ?_
        rw [hinode]
        exact setInode_ne (by omega)

/-! ### Changing attributes -/

section Attributes

open Inodes.Setattr
open Inodes.Regular (File pmfsSetsize)
open Inodes.EofRuns (truncate_iSize)

variable {f f' : File} {attr : Iattr} {ok : Option Errno} {eof : Bool} {x : UInt32}

/-- How many of the fields that `pmfs_notify_change` writes are asked for. -/
def fieldCount (x : UInt32) : ℕ :=
  [ATTR_MODE, ATTR_UID, ATTR_GID, ATTR_ATIME, ATTR_MTIME, ATTR_CTIME].countP fun b => x &&& b != 0

/-- A request as the namespace has it. -/
def seen (attr : Iattr) (ok : Option Errno) (eof : Bool) : Namei.Model.Iattr :=
  let fields := fieldCount (attr.iaValid &&& ~~~(ATTR_CTIME ||| ATTR_MTIME))
  ⟨ok, if attr.has ATTR_SIZE then some attr.iaSize else none, fields,
    fieldCount attr.iaValid - fields, eof⟩

theorem fieldCount_le (x y : UInt32) : fieldCount (x &&& y) ≤ fieldCount x := by
  refine List.countP_mono_left fun b _ h => ?_
  rw [bne_iff_ne] at h ⊢
  intro hzero
  rw [UInt32.and_assoc, UInt32.and_comm y, ← UInt32.and_assoc, hzero, UInt32.zero_and] at h
  exact h rfl

theorem fieldCount_le_one : fieldCount x ≤ 1 ↔ (x &&& attrMask) &&& (x &&& attrMask) - 1 = 0 := by
  have hmask : fieldCount x = fieldCount (x &&& attrMask) := by
    unfold fieldCount
    simp only [List.countP_cons, List.countP_nil, UInt32.and_assoc]
    rfl
  have hall : ∀ n < 128, fieldCount (UInt32.ofNat n &&& attrMask) ≤ 1 ↔
      (UInt32.ofNat n &&& attrMask) &&& (UInt32.ofNat n &&& attrMask) - 1 = 0 := by
    decide +kernel
  have hlt : (x &&& attrMask).toNat < 128 := by
    rw [UInt32.toNat_and]
    exact Nat.and_le_right.trans_lt (by decide)
  have hx := hall _ hlt
  rw [UInt32.ofNat_toNat, UInt32.and_assoc, UInt32.and_self] at hx
  rw [hmask, hx]

theorem persist_error : (persistFields inode pi (x &&& attrMask) trans).2 =
    if fieldCount x ≤ 1 then none else trans := by
  unfold persistFields
  simp only [fieldCount_le_one]
  by_cases hzero : x &&& attrMask = 0
  · simp [hzero]
  rw [if_neg hzero]
  split_ifs
  · rfl
  · cases trans <;> rfl

theorem notifyFields_spec {n : ℕ} : (Namei.Model.notifyFields ns i n trans).1.data = ns.data ∧
    (Namei.Model.notifyFields ns i n trans).2 = if n ≤ 1 then none else trans := by
  unfold Namei.Model.notifyFields
  split_ifs
  · exact ⟨rfl, rfl⟩
  · cases trans <;> exact ⟨rfl, rfl⟩

variable (hsize : (ns.data i).iSize = f.inode.iSize) (hkind : (ns.inode i).kind = some .special ↔
  ¬ (sIsReg f.inode.iMode || sIsDir f.inode.iMode || sIsLnk f.inode.iMode) = true)
include hsize hkind

theorem changeSize_size (eof : Bool) (hres : resizes f attr = true)
    (hrun : changeSize f attr now = some (f', x)) :
    ((Namei.Model.changeSize ns i attr.iaSize eof).data i).iSize = f'.inode.iSize := by
  unfold changeSize at hrun
  rw [if_pos hres] at hrun
  obtain ⟨f1, hset, heq⟩ := Option.map_eq_some_iff.mp hrun
  cases heq
  unfold pmfsSetsize at hset
  unfold Namei.Model.changeSize
  simp only [truncateDel_data, truncateAdd_inode, hkind]
  split_ifs at hset with hmode
  · obtain ⟨_, htrunc, rfl⟩ := Option.map_eq_some_iff.mp hset
    rw [if_neg (not_not_intro hmode), truncate_iSize htrunc]
    simp [Namei.Model.Fs.setData]
  · cases hset
    rw [if_pos hmode, truncateAdd_data, hsize]

/-- `pmfs_notify_change` returns the same and leaves the same size. -/
theorem seen_notify (heof : (ns.inode i).eof = f.pi.eofblocks)
    (hrun : pmfsNotifyChange f attr now ok trans = some (f', o)) :
    let r := Namei.Model.pmfsNotifyChange ns i (seen attr ok eof) trans
    r.2 = o ∧ (r.1.data i).iSize = f'.inode.iSize := by
  cases ok with
  | some e =>
    cases hrun
    exact ⟨rfl, hsize⟩
  | none =>
    obtain ⟨⟨f1, left⟩, hchange, heq⟩ := Option.map_eq_some_iff.mp hrun
    cases heq
    have hseen : (seen attr none eof).resizes ns i ↔ resizes f attr = true := by
      unfold Namei.Model.Iattr.resizes resizes seen
      rw [hsize, heof]
      cases attr.has ATTR_SIZE <;> simp
    dsimp only [Namei.Model.pmfsNotifyChange, seen] at hseen ⊢
    rw [persist_error]
    by_cases hres : resizes f attr = true
    · have hdata := changeSize_size hsize hkind eof hres hchange
      rw [if_pos (hseen.mpr hres), notifyFields_spec.1, notifyFields_spec.2,
        if_pos (Bool.and_eq_true_iff.mp hres).1]
      unfold changeSize at hchange
      rw [if_pos hres] at hchange
      obtain ⟨_, -, heq⟩ := Option.map_eq_some_iff.mp hchange
      cases heq
      exact ⟨rfl, hdata⟩
    · rw [if_neg (mt hseen.mp hres), notifyFields_spec.1, notifyFields_spec.2,
        Nat.add_sub_cancel' (fieldCount_le _ _)]
      unfold changeSize at hchange
      rw [if_neg hres] at hchange
      cases hchange
      exact ⟨rfl, hsize⟩

end Attributes

end Pmfs.Itable.Views
