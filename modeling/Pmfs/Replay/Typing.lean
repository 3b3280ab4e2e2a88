import Pmfs.Replay.Index
import Pmfs.Tree.Keeps

/-! # Which pages the trees lead to

The trees of all inodes are built by stores to single slots, by the kernel and by the replay, into
pages that both take from the same allocator. Which pages they may lead to is said by a typing of
the pages: `lvl` gives the pages of the trees their height above the data, and a slot of a page of
height `k + 1` is empty or leads to a page of height `k`. At height 1 it may also hold an address on
an SSD, if `ssd` allows it. Every store of `__pmfs_alloc_blocks` and of `add_inode_index` keeps the
typing, while new pages get types (`alloc_typed`, `addInodeIndex_typed`); what belongs to which
inode does not matter. -/

namespace Pmfs.Replay.Typing

open Lib.Loop Block.Model Block.Spec Tree.Model Tree.Own Tree.Keeps Function
open Replay.Model Replay.Index

/-- A pointer in a page of height `k + 1`, or the root of a tree of height `k`. -/
def Ptr (ssd : Prop) (lvl : ℕ → Option ℕ) (k v : ℕ) : Prop :=
  v = 0 ∨ lvl (pmfsGetBlocknr v) = some k ∨ (k = 0 ∧ devOf v ≠ 0 ∧ ssd)

/-- The pages of the trees are in use and their slots have the type of the page. -/
structure Typed (ssd : Prop) (lvl : ℕ → Option ℕ) (d : Dev) : Prop where
  wf : Wf d.ba
  used : ∀ p k, lvl p = some k → p ∈ inUse d.ba
  slot : ∀ p k i, lvl p = some (k + 1) → Ptr ssd lvl k (d.node p i)

/-- More pages have a type. -/
def Ext (lvl lvl' : ℕ → Option ℕ) : Prop := ∀ p k, lvl p = some k → lvl' p = some k

/-- From `d` to `d'` the typing was kept or extended, and the device stays the same. -/
structure Grows (ssd : Prop) (lvl lvl' : ℕ → Option ℕ) (d d' : Dev) : Prop where
  ext : Ext lvl lvl'
  typed : Typed ssd lvl' d'
  blockEnd : d'.ba.blockEnd = d.ba.blockEnd

variable {ssd : Prop} {lvl lvl' lvl'' : ℕ → Option ℕ} {d d' d'' : Dev} {pi pi' : PmfsInode}
  {k v b page i h p : ℕ} {e : KernelfsExtent} {junk : ℕ → ℤ}

theorem Grows.refl (ht : Typed ssd lvl d) : Grows ssd lvl lvl d d := ⟨fun _ _ => id, ht, rfl⟩

theorem Grows.trans (h : Grows ssd lvl lvl' d d') (h' : Grows ssd lvl' lvl'' d' d'') :
    Grows ssd lvl lvl'' d d'' :=
  ⟨fun p k hp => h'.ext p k (h.ext p k hp), h'.typed, h'.blockEnd.trans h.blockEnd⟩

theorem Ptr.ext (hv : Ptr ssd lvl k v) (hext : Ext lvl lvl') : Ptr ssd lvl' k v :=
  hv.imp_right (Or.imp_left (hext _ k))

/-- A pointer of height 1 or more that is not null is that of a page. -/
theorem Ptr.inner (hv : Ptr ssd lvl (k + 1) v) (h0 : v ≠ 0) :
    lvl (pmfsGetBlocknr v) = some (k + 1) :=
  (hv.resolve_left h0).resolve_right fun hcon => absurd hcon.1 (Nat.succ_ne_zero k)

/-- A pointer to the NVM that is not null is that of a page. -/
theorem Ptr.nvm (hv : Ptr ssd lvl k v) (h0 : v ≠ 0) (hdev : devOf v = 0) :
    lvl (pmfsGetBlocknr v) = some k :=
  (hv.resolve_left h0).resolve_right fun hcon => hcon.2.1 hdev

theorem Ptr.new : Ptr ssd (update lvl b (some k)) k (pmfsGetBlockOff b) :=
  Or.inr (Or.inl (by rw [blocknr_off, update_self]))

/-! ### Stores -/

theorem Typed.congr (ht : Typed ssd lvl d) (hba : d'.ba = d.ba)
    (hnode : ∀ p k i, lvl p = some (k + 1) → d'.node p i = d.node p i) : Typed ssd lvl d' := by
  refine ⟨hba ▸ ht.wf, fun p k hp => hba ▸ ht.used p k hp, fun p k i hp => ?_⟩
  rw [hnode p k i hp]
  exact ht.slot p k i hp

theorem newBlock_typed {t : BlkType} {zero : Bool} (k : ℕ) (ht : Typed ssd lvl d)
    (hrun : d.newBlock t zero = (.ok b, d')) (hzero : zero = true ∨ k = 0) :
    Grows ssd lvl (update lvl b (some k)) d d' ∧ pmfsGetBlockOff b ≠ 0 := by
  obtain ⟨M, hM⟩ := exists_owns ht.wf
  have hnew := newBlock_owns hM hrun
  have hb : b ∈ runBlocks t b :=
    mem_runBlocks.mpr ⟨le_rfl, Nat.lt_add_of_pos_right (numblocks_pos t)⟩
  have hfresh : ∀ p k, lvl p = some k → p ≠ b := by
    rintro p k hp rfl
    have hmem := (hM.mem p).mpr (ht.used p k hp)
    exact Multiset.disjoint_left.mp (Multiset.nodup_add.mp hnew.owns.nodup).2.2 hb hmem
  have hext : Ext lvl (update lvl b (some k)) := by
    intro p k' hp
    rwa [update_of_ne (hfresh p k' hp)]
  have hused : ∀ p k', update lvl b (some k) p = some k' → p ∈ inUse d'.ba := by
    intro p k' hp
    by_cases hpb : p = b
    · rw [hpb]
      exact (hnew.owns.mem b).mp (Multiset.mem_add.mpr (Or.inl hb))
    · rw [update_of_ne hpb] at hp
      exact (hnew.owns.mem p).mp (Multiset.mem_add.mpr (Or.inr ((hM.mem p).mpr (ht.used p k' hp))))
  refine ⟨⟨hext, ⟨hnew.owns.wf, hused, fun p k' i hp => ?_⟩, hnew.frame.blockEnd⟩,
    blockOff_ne_zero hnew.pos⟩
  by_cases hpb : p = b
  · subst hpb
    rw [update_self, Option.some.injEq] at hp
    exact Or.inl (hnew.zeroed (hzero.resolve_right (by omega)) p hb i)
  · rw [update_of_ne hpb] at hp
    rw [hnew.frame.node p ((hM.mem p).mpr (ht.used p _ hp)) i]
    exact (ht.slot p k' i hp).ext hext

theorem newBlock_error_typed {t : BlkType} {zero : Bool} {err : Errno} (ht : Typed ssd lvl d)
    (hrun : d.newBlock t zero = (.error err, d')) : Grows ssd lvl lvl d d' := by
  obtain ⟨-, rfl⟩ := newBlock_error_eq hrun
  exact ⟨fun _ _ => id, ht.congr rfl fun _ _ _ _ => rfl, rfl⟩

theorem setSlot_typed (ht : Typed ssd lvl d) (hpage : lvl page = some (k + 1))
    (hv : Ptr ssd lvl k v) : Grows ssd lvl lvl d (d.setSlot page i v) := by
  refine ⟨fun _ _ => id, ⟨ht.wf, ht.used, fun p k' j hp => ?_⟩, rfl⟩
  have hnode : (d.setSlot page i v).node p j = if p = page ∧ j = i then v else d.node p j := rfl
  rw [hnode]
  by_cases heq : p = page ∧ j = i
  · obtain ⟨rfl, rfl⟩ := heq
    rw [hpage, Option.some.injEq, Nat.add_right_cancel_iff] at hp
    rw [if_pos ⟨rfl, rfl⟩, ← hp]
    exact hv
  · rw [if_neg heq]
    exact ht.slot p k' j hp

theorem newSlot_typed {t : BlkType} {zero : Bool} (ht : Typed ssd lvl d)
    (hpage : lvl page = some (k + 1)) (hrun : d.newBlock t zero = (.ok b, d'))
    (hzero : zero = true ∨ k = 0) :
    Grows ssd lvl (update lvl b (some k)) d (d'.setSlot page i (pmfsGetBlockOff b)) ∧
      pmfsGetBlockOff b ≠ 0 := by
  obtain ⟨hg, hoff⟩ := newBlock_typed k ht hrun hzero
  exact ⟨hg.trans (setSlot_typed hg.typed (hg.ext _ _ hpage) .new), hoff⟩

theorem fillSlots_typed {addr : ℕ → ℕ} {n j : ℕ} (ht : Typed ssd lvl d) (hpage : lvl page = some 0)
    (hn : j + n ≤ 512) : Grows ssd lvl lvl d (fillSlots page addr n j d).1 := by
  refine ⟨fun _ _ => id, ht.congr fillSlots_dev.1 fun p k i hp => ?_, by rw [fillSlots_dev.1]⟩
  rw [fillSlots_node hn, if_neg]
  rintro ⟨rfl, -⟩
  rw [hpage] at hp
  simp at hp

/-! ### The loops -/

/-- What a loop or a call did to the device and the inode. -/
def Moves (ssd : Prop) (lvl : ℕ → Option ℕ) (d : Dev) (pi : PmfsInode) (d' : Dev)
    (pi' : PmfsInode) : Prop :=
  (∃ lvl', Grows ssd lvl lvl' d d') ∧ pi'.root = pi.root ∧ pi'.height = pi.height

theorem Moves.of_grows (h : Grows ssd lvl lvl' d d') : Moves ssd lvl d pi d' pi :=
  ⟨⟨lvl', h⟩, rfl, rfl⟩

theorem Moves.before {d0 : Dev} (h : Grows ssd lvl lvl' d0 d) (h' : Moves ssd lvl' d pi d' pi') :
    Moves ssd lvl d0 pi d' pi' := by
  obtain ⟨⟨lvl'', hg⟩, hsame⟩ := h'
  exact ⟨⟨lvl'', h.trans hg⟩, hsame⟩

/-- The extent has its slots in one page, or the result is whole. -/
def Within (e : KernelfsExtent) (whole : Bool) : Prop :=
  e.findex + e.extLen.toNat ≤ 512 ∨ whole = true

/-- A loop keeps the typing when every turn does. -/
theorem loop_typed {body : ℕ → IndexLoop → Option (IndexLoop × Option Unit)} {n : ℕ}
    {s s' : IndexLoop} {o : Option Unit} (ht : Typed ssd lvl s.d)
    (hmono : ∀ {j s s' o}, body j s = some (s', o) → s'.whole = true → s.whole = true)
    (hbody : ∀ j s s' o lvl', Ext lvl lvl' → Typed ssd lvl' s.d → body j s = some (s', o) →
      Within e s'.whole → Moves ssd lvl' s.d s.pi s'.d s'.pi)
    (hrun : forLoop body i n s = some (s', o)) (hin : Within e s'.whole) :
    Moves ssd lvl s.d s.pi s'.d s'.pi := by
  refine forLoop_keeps (I := fun t => Within e t.whole → Moves ssd lvl s.d s.pi t.d t.pi) ?_
    (fun _ => .of_grows (.refl ht)) hrun hin
  intro j t t' o' hinv hb hin'
  obtain ⟨⟨lvl', hg⟩, hr, hh⟩ := hinv (hin'.imp_right (hmono hb))
  obtain ⟨⟨lvl'', hg'⟩, hr', hh'⟩ := hbody j t t' o' lvl' hg.ext hg.typed hb hin'
  exact ⟨⟨lvl'', hg.trans hg'⟩, hr'.trans hr, hh'.trans hh⟩

/-! ### Allocation -/

/-- What a call on an inode did to the typing and to its root. -/
def Keeps (ssd : Prop) (lvl : ℕ → Option ℕ) (d d' : Dev) (pi' : PmfsInode) : Prop :=
  ∃ lvl', Grows ssd lvl lvl' d d' ∧ Ptr ssd lvl' pi'.height pi'.root

theorem Moves.keeps (h : Moves ssd lvl d pi d' pi') (hroot : Ptr ssd lvl pi.height pi.root) :
    Keeps ssd lvl d d' pi' := by
  obtain ⟨⟨lvl', hg⟩, hr, hh⟩ := h
  refine ⟨lvl', hg, ?_⟩
  rw [hr, hh]
  exact hroot.ext hg.ext

theorem typed_kept {n : ℕ} (t : BlkType) (zero : Bool) :
    AllocRule Ext (fun lvl d => Typed ssd lvl d ∧ d.ba.blockEnd = n) (Ptr ssd)
      (fun lvl k p => lvl (pmfsGetBlocknr p) = some k) (fun _ => True) t zero where
  refl _ _ _ := id
  trans h h' p k hp := h' p k (h p k hp)
  value hle hv := hv.ext hle
  block hle hp := hle _ _ hp
  root := Ptr.inner
  child h hp hne := (h.1.slot _ _ _ hp).inner hne
  data h hr := by
    obtain ⟨hg, -⟩ := newBlock_typed 0 h.1 hr (Or.inr rfl)
    exact ⟨_, hg.ext, ⟨hg.typed, hg.blockEnd.trans h.2⟩, .new⟩
  node k h hr := by
    obtain ⟨hg, -⟩ := newBlock_typed (k + 1) h.1 hr (Or.inl rfl)
    exact ⟨_, hg.ext, ⟨hg.typed, hg.blockEnd.trans h.2⟩, .new, by rw [blocknr_off, update_self]⟩
  error _ h hr := by
    have hg := newBlock_error_typed h.1 hr
    exact ⟨⟨hg.typed, hg.blockEnd.trans h.2⟩, trivial⟩
  slot h hp hv := ⟨(setSlot_typed h.1 hp hv).typed, h.2⟩
  event h := ⟨⟨h.1.congr rfl fun _ _ _ _ => rfl, h.2⟩, id⟩

theorem keeps_of_rooted (h : Rooted Ext (fun lvl d' => Typed ssd lvl d' ∧
    d'.ba.blockEnd = d.ba.blockEnd) (Ptr ssd) lvl d' pi') : Keeps ssd lvl d d' pi' := by
  obtain ⟨lvl', hext, ⟨ht, hend⟩, hptr⟩ := h
  exact ⟨lvl', ⟨hext, ht, hend⟩, hptr⟩

/-- The height is raised, then a call that needs a root of that height follows. -/
theorem raised_keeps {nh : ℕ} {o : Option Errno} (ht : Typed ssd lvl d)
    (hroot : Ptr ssd lvl pi.height pi.root)
    (hrun : pmfsIncreaseBtreeHeight d pi nh = (d', pi', o)) : Keeps ssd lvl d d' pi' :=
  keeps_of_rooted (increase_kept (typed_kept .b4K true) ⟨ht, rfl⟩ hroot hrun).1

/-- **`__pmfs_alloc_blocks` keeps the typing**, whether it succeeds or not. -/
theorem alloc_typed {n m : ℕ} {zero : Bool} {o : Option Errno} (ht : Typed ssd lvl d)
    (hroot : Ptr ssd lvl pi.height pi.root)
    (hrun : __pmfsAllocBlocks d pi n m zero = some (d', pi', o)) : Keeps ssd lvl d d' pi' :=
  keeps_of_rooted (alloc_kept (typed_kept _ zero) ⟨ht, rfl⟩ hroot rfl hrun).1

/-! ### Replay -/

theorem indexLeaf_typed {s s' : IndexLoop} {o : Option Unit} (ht : Typed ssd lvl s.d)
    (hv : Ptr ssd lvl 0 v) (h0 : v ≠ 0) (hrun : indexLeaf e s v = some (s', o))
    (hin : Within e s'.whole) : Moves ssd lvl s.d s.pi s'.d s'.pi := by
  obtain ⟨hdev, -, rfl⟩ := indexLeaf_ok hrun
  have hfits := hin.elim id fun hw => of_decide_eq_true (Bool.and_eq_true_iff.mp hw).2
  refine ⟨⟨lvl, fillSlots_typed ht (hv.nvm h0 hdev) hfits⟩, ?_⟩
  split_ifs <;> exact ⟨rfl, rfl⟩

theorem indexLeafBody_typed {j : ℕ} {s s' : IndexLoop} {o : Option Unit} (hssd : e.dev ≠ 0 → ssd)
    (ht : Typed ssd lvl s.d) (hpage : lvl page = some 1)
    (hrun : indexLeafBody e page j s = some (s', o)) (hin : Within e s'.whole) :
    Moves ssd lvl s.d s.pi s'.d s'.pi := by
  unfold indexLeafBody at hrun
  by_cases hnvm : e.dev = 0 ∨ s.d.node page j ≠ 0 ∧ devOf (s.d.node page j) = 0
  · rw [if_pos hnvm] at hrun
    by_cases h0 : s.d.node page j = 0
    · rw [if_pos h0] at hrun
      rcases hr : s.d.newBlock .b4K true with ⟨r, d1⟩
      rw [hr] at hrun
      cases r with
      | error err =>
        cases hrun
        exact .of_grows (newBlock_error_typed ht hr)
      | ok b =>
        obtain ⟨hg, hoff⟩ := newSlot_typed ht hpage hr (Or.inl rfl)
        exact Moves.before hg (indexLeaf_typed hg.typed .new hoff hrun hin)
    · rw [if_neg h0] at hrun
      exact indexLeaf_typed ht (ht.slot page 0 j hpage) h0 hrun hin
  · rw [if_neg hnvm] at hrun
    have hdev : e.dev ≠ 0 := fun hcon => hnvm (Or.inl hcon)
    split_ifs at hrun with h0 halign
    · cases hrun
      refine .of_grows (setSlot_typed ht hpage (Or.inr (Or.inr ⟨rfl, ?_, hssd hdev⟩)))
      rwa [devOf_blocknr]
    · cases hrun
      exact .of_grows (.refl ht)
    · cases hrun
      exact .of_grows (.refl ht)

theorem indexMetaBody_typed
    {rec : ℕ → ℕ → ℕ → Dev → PmfsInode → Option (Dev × PmfsInode × ℤ × Bool)}
    (hrec : ∀ {lvl d pi v f l r}, Typed ssd lvl d → lvl (pmfsGetBlocknr v) = some (k + 1) →
      rec v f l d pi = some r → Within e r.2.2.2 → Moves ssd lvl d pi r.1 r.2.1)
    {bits first last j : ℕ} {s s' : IndexLoop} {o : Option Unit} (ht : Typed ssd lvl s.d)
    (hpage : lvl page = some (k + 2))
    (hrun : indexMetaBody rec bits first last page j s = some (s', o)) (hin : Within e s'.whole) :
    Moves ssd lvl s.d s.pi s'.d s'.pi := by
  have hfill : ∀ {lvl1} (s1 : IndexLoop), Typed ssd lvl1 s1.d → lvl1 page = some (k + 2) →
    s1.d.node page j ≠ 0 →
      ((rec (s1.d.node page j) (firstBlk bits first j) (lastBlk bits last j) s1.d s1.pi).map
      fun r =>
        (({ d := r.1, pi := r.2.1, errval := r.2.2.1, whole := s1.whole && r.2.2.2 } : IndexLoop),
          if r.2.2.1 < 0 then some () else none)) = some (s', o) →
          Moves ssd lvl1 s1.d s1.pi s'.d s'.pi := by
    intro lvl1 s1 ht1 hp1 hne hmap
    obtain ⟨r, hr, heq⟩ := Option.map_eq_some_iff.mp hmap
    cases heq
    exact hrec ht1 ((ht1.slot page (k + 1) j hp1).inner hne) hr
      (hin.imp_right fun hw => (Bool.and_eq_true_iff.mp hw).2)
  unfold indexMetaBody at hrun
  by_cases h0 : s.d.node page j = 0
  · rw [if_pos h0] at hrun
    rcases hr : s.d.newBlock .b4K true with ⟨r, d1⟩
    rw [hr] at hrun
    cases r with
    | error err =>
      cases hrun
      exact .of_grows (newBlock_error_typed ht hr)
    | ok b =>
      obtain ⟨hg, hoff⟩ := newSlot_typed ht hpage hr (Or.inl rfl)
      have hnode : (d1.setSlot page j (pmfsGetBlockOff b)).node page j ≠ 0 := by
        rw [show (d1.setSlot page j (pmfsGetBlockOff b)).node page j = pmfsGetBlockOff b from
          if_pos ⟨rfl, rfl⟩]
        exact hoff
      exact Moves.before hg
        (hfill { s with d := d1.setSlot page j (pmfsGetBlockOff b), errval := 0 } hg.typed
        (hg.ext _ _ hpage) hnode hrun)
  · rw [if_neg h0] at hrun
    exact hfill s ht hpage h0 hrun

theorem recursiveIndex_typed (hssd : e.dev ≠ 0 → ssd) : ∀ {h : ℕ} {lvl : ℕ → Option ℕ} {d : Dev}
    {pi : PmfsInode} {v f l : ℕ} {r : Dev × PmfsInode × ℤ × Bool}, Typed ssd lvl d →
    lvl (pmfsGetBlocknr v) = some h →
      recursiveIndexBlocks e junk h v f l d pi = some r → Within e r.2.2.2 →
      Moves ssd lvl d pi r.1 r.2.1
  | 0, _, _, _, _, _, _, _, _, _, hrun, _ => by simp [recursiveIndexBlocks] at hrun
  | h + 1, lvl, d, pi, v, f, l, r, ht, hv, hrun, hin => by
    unfold recursiveIndexBlocks at hrun
    by_cases hbad : v = 0 ∨ devOf v ≠ 0
    · rw [if_pos hbad] at hrun
      simp at hrun
    rw [if_neg hbad] at hrun
    obtain ⟨⟨s, o⟩, hloop, rfl⟩ := Option.map_eq_some_iff.mp hrun
    cases h with
    | zero => exact loop_typed ht leafBody_whole (fun j s s' o lvl' hext ht' =>
        indexLeafBody_typed hssd ht' (hext _ _ hv)) hloop hin
    | succ k =>
      rw [if_neg (Nat.succ_ne_zero k)] at hloop
      exact loop_typed ht metaBody_whole (fun j s s' o lvl' hext ht' =>
        indexMetaBody_typed (recursiveIndex_typed hssd) ht' (hext _ _ hv)) hloop hin

theorem indexTree_typed {r : Indexed} (hssd : e.dev ≠ 0 → ssd) (ht : Typed ssd lvl d)
    (hroot : Ptr ssd lvl pi.height pi.root) (hrun : indexTree e junk pi.height d pi = some r)
    (hin : Within e r.whole) : Keeps ssd lvl d r.d r.pi ∧ r.pi.root ≠ 0 := by
  obtain ⟨q, hrec, heq⟩ := Option.map_eq_some_iff.mp hrun
  have hq : Within e q.2.2.2 := hin.imp_right fun hw => by
    split_ifs at heq <;> subst heq
    · simp at hw
    · exact hw
  have hv := recursiveIndexBlocks_root hrec
  cases hh : pi.height with
  | zero =>
    rw [hh] at hrec
    simp [recursiveIndexBlocks] at hrec
  | succ k =>
    rw [hh] at hroot
    have hmoves := recursiveIndex_typed hssd ht (hh ▸ hroot.inner hv) hrec hq
    have hnew : q.2.1.root ≠ 0 := hmoves.2.1.trans_ne hv
    have hkeeps := hmoves.keeps (hh ▸ hroot)
    split_ifs at heq <;> subst heq <;> exact ⟨hkeeps, hnew⟩

theorem newFlat_typed {r : Indexed} (hid : e.dev = 0 → e.deviceId = 0) (hssd : e.dev ≠ 0 → ssd)
    (ht : Typed ssd lvl d) (hroot : Ptr ssd lvl pi.height pi.root)
    (hn : e.extBlock.toNat + e.extLen.toNat ≤ 512) (hrun : newFlat e junk d pi = some r) :
    Keeps ssd lvl d r.d r.pi ∧ (r.whole = true → r.pi.height = 0) := by
  unfold newFlat at hrun
  by_cases hdid : e.deviceId = 0
  · rw [if_pos hdid] at hrun
    rcases hr : d.newBlock .b4K true with ⟨q, d1⟩
    rw [hr] at hrun
    cases q with
    | error err =>
      rw [Option.some.injEq] at hrun
      subst hrun
      exact ⟨⟨lvl, newBlock_error_typed ht hr, hroot⟩, fun hcon => absurd hcon (by simp)⟩
    | ok b =>
      obtain ⟨q, hflat, rfl⟩ := Option.map_eq_some_iff.mp hrun
      obtain ⟨-, rfl⟩ := indexFlat_ok hflat
      have hg := (newBlock_typed 0 ht hr (Or.inl rfl)).1
      exact ⟨⟨_, hg.trans (fillSlots_typed hg.typed (update_self b _ _) hn), .new⟩, fun _ => rfl⟩
  · have hdev : e.dev ≠ 0 := fun hcon => hdid (hid hcon)
    rw [if_neg hdid, Option.some.injEq] at hrun
    subst hrun
    refine ⟨⟨lvl, .refl ht, Or.inr (Or.inr ⟨rfl, ?_, hssd hdev⟩)⟩, fun _ => rfl⟩
    change devOf e.blocknr ≠ 0
    rwa [devOf_blocknr]

theorem oldFlat_typed {r : Indexed} (ht : Typed ssd lvl d) (hroot : Ptr ssd lvl pi.height pi.root)
    (hh : pi.height = 0) (h0 : pi.root ≠ 0) (hn : e.extBlock.toNat + e.extLen.toNat ≤ 512)
    (hrun : oldFlat e junk d pi = some r) : Keeps ssd lvl d r.d r.pi ∧ r.pi.height = 0 := by
  have hset : ∀ {d'} {q : PmfsInode}, Grows ssd lvl lvl d d' → q.height = pi.height →
    q.root = pi.root →
      Keeps ssd lvl d d' (setFields e q) ∧ (setFields e q).height = 0 := by
    intro d' q hg h1 h2
    refine ⟨⟨lvl, hg, ?_⟩, h1.trans hh⟩
    change Ptr ssd lvl q.height q.root
    rwa [h1, h2]
  unfold oldFlat at hrun
  by_cases hdev : devOf pi.root = 0
  · rw [if_pos hdev] at hrun
    obtain ⟨q, hflat, rfl⟩ := Option.map_eq_some_iff.mp hrun
    obtain ⟨-, rfl⟩ := indexFlat_ok hflat
    refine hset (fillSlots_typed ht ((hh ▸ hroot).nvm h0 hdev) hn) ?_ ?_ <;> split_ifs <;> rfl
  rw [if_neg hdev] at hrun
  split_ifs at hrun
  · rw [Option.some.injEq] at hrun
    subst hrun
    exact hset (.refl ht) rfl rfl
  · rw [Option.some.injEq] at hrun
    subst hrun
    exact ⟨⟨lvl, .refl ht, hroot⟩, hh⟩

/-- **`add_inode_index` keeps the typing**, whether it succeeds or not, unless it stores behind a
page. A tree that it has entered the extent into has a root. -/
theorem addInodeIndex_typed {r : Indexed} (hid : e.dev = 0 → e.deviceId = 0)
    (hssd : e.dev ≠ 0 → ssd) (ht : Typed ssd lvl d) (hroot : Ptr ssd lvl pi.height pi.root)
    (hrun : addInodeIndex e junk d pi = some r) (hin : Within e r.whole) :
    Keeps ssd lvl d r.d r.pi ∧ (r.whole = true → r.pi.root ≠ 0 ∨ r.pi.height = 0) := by
  obtain ⟨hge, hend⟩ := newHeight_spec e pi.height
  have hflat : newHeight e pi.height = 0 ∧ e.len ≤ 1 → e.extBlock.toNat + e.extLen.toNat ≤ 512 := by
    rintro ⟨hz, hlen⟩
    rw [hz] at hend
    obtain ⟨-, -, hfind, hfits⟩ := flat_range hend hlen
    exact hfind ▸ hfits
  unfold addInodeIndex at hrun
  dsimp only at hrun
  split_ifs at hrun with hbig hz h0 hgrow
  · rw [Option.some.injEq] at hrun
    subst hrun
    exact ⟨⟨lvl, .refl ht, hroot⟩, fun hcon => absurd hcon (by simp)⟩
  · obtain ⟨hkeeps, hheight⟩ := newFlat_typed hid hssd ht hroot (hflat hz) hrun
    exact ⟨hkeeps, fun hw => Or.inr (hheight hw)⟩
  · obtain ⟨hkeeps, hheight⟩ := oldFlat_typed ht hroot (by omega) h0 (hflat hz) hrun
    exact ⟨hkeeps, fun _ => Or.inr hheight⟩
  · rcases hinc : pmfsIncreaseBtreeHeight d pi (newHeight e pi.height) with ⟨d1, pi1, _ | err⟩
    · rw [hinc] at hrun
      rw [← Tree.Inode.increase_height hge hinc] at hrun
      obtain ⟨lvl1, hg, hptr⟩ := raised_keeps ht hroot hinc
      obtain ⟨⟨lvl2, hg2, hptr2⟩, hnew⟩ := indexTree_typed hssd hg.typed hptr hrun hin
      exact ⟨⟨lvl2, hg.trans hg2, hptr2⟩, fun _ => Or.inl hnew⟩
    · rw [hinc, Option.some.injEq] at hrun
      subst hrun
      exact ⟨raised_keeps ht hroot hinc, fun hcon => absurd hcon (by simp)⟩
  · have hh : newHeight e pi.height = pi.height := by omega
    rw [hh] at hrun
    obtain ⟨hkeeps, hnew⟩ := indexTree_typed hssd ht hroot hrun hin
    exact ⟨hkeeps, fun _ => Or.inl hnew⟩

end Pmfs.Replay.Typing
