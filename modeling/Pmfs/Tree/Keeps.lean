import Pmfs.Tree.Inode

/-! # What an allocation keeps

`__pmfs_alloc_blocks` changes the device by new blocks and stores to slots of metadata blocks. What
each of these keeps (`AllocRule`), the call keeps (`alloc_kept`), in particular a property of the
allocator's state that every allocation keeps (`alloc_keeps`). A property that every free keeps is
kept by `pmfs_free_inode_subtree` (`freeSubtree_keeps`). -/

namespace Pmfs.Tree.Keeps

open Block.Model Tree.Model Tree.Own Tree.Inode Lib.Loop

variable {P : Balloc → Prop} {t : BlkType} {d d' : Dev} {pi pi' : PmfsInode} {o : Option Errno}

/-! ### Allocation -/

/-- What the steps of an allocation keep, while a world `w` grows: `Q w d` of the device, `V w k v`
of a value `v` in a slot of a metadata block of height `k + 1` or at the root of a tree of height
`k`, and `N w k p` of a metadata block `p` of height `k`. When a block is not to be had, `F` holds
of the device. -/
structure AllocRule {W : Type} (le : W → W → Prop) (Q : W → Dev → Prop) (V N : W → ℕ → ℕ → Prop)
    (F : Dev → Prop) (t : BlkType) (zero : Bool) : Prop where
  refl : ∀ w, le w w
  trans : ∀ {w w' w''}, le w w' → le w' w'' → le w w''
  value : ∀ {w w' k v}, le w w' → V w k v → V w' k v
  block : ∀ {w w' k p}, le w w' → N w k p → N w' k p
  root : ∀ {w k p}, V w (k + 1) p → p ≠ 0 → N w (k + 1) p
  child : ∀ {w d k p i}, Q w d → N w (k + 2) p → d.node (pmfsGetBlocknr p) i ≠ 0 →
    N w (k + 1) (d.node (pmfsGetBlocknr p) i)
  data : ∀ {w d d' b}, Q w d → d.newBlock t zero = (.ok b, d') →
    ∃ w', le w w' ∧ Q w' d' ∧ V w' 0 (pmfsGetBlockOff b)
  node : ∀ {w d d' b} k, Q w d → d.newBlock .b4K true = (.ok b, d') →
    ∃ w', le w w' ∧ Q w' d' ∧ V w' (k + 1) (pmfsGetBlockOff b) ∧ N w' (k + 1) (pmfsGetBlockOff b)
  error : ∀ {w d d' t' zero' e}, (t' = .b4K ∧ zero' = true ∨ t' = t ∧ zero' = zero) → Q w d →
    d.newBlock t' zero' = (.error e, d') → Q w d' ∧ F d'
  slot : ∀ {w d k p i v}, Q w d → N w (k + 1) p → V w k v → Q w (d.setSlot (pmfsGetBlocknr p) i v)
  event : ∀ {w d es}, Q w d → Q w { d with events := es } ∧ (F d → F { d with events := es })

section Alloc

variable {W : Type} {le : W → W → Prop} {Q : W → Dev → Prop} {V N : W → ℕ → ℕ → Prop}
  {F : Dev → Prop} {zero : Bool} {w w' : W} {k p i last : ℕ} {s s' : AllocLoop}

/-- What is kept in a tree: it is only its inner nodes and its data that change. -/
def Kept (le : W → W → Prop) (Q : W → Dev → Prop) (w : W) (pi : PmfsInode) (d' : Dev)
    (pi' : PmfsInode) : Prop :=
  (∃ w', le w w' ∧ Q w' d') ∧ pi'.root = pi.root ∧ pi'.height = pi.height ∧
    pi'.iBlkType = pi.iBlkType

/-- What is kept of an inode. -/
def Rooted (le : W → W → Prop) (Q : W → Dev → Prop) (V : W → ℕ → ℕ → Prop) (w : W) (d' : Dev)
    (pi' : PmfsInode) : Prop :=
  ∃ w', le w w' ∧ Q w' d' ∧ V w' pi'.height pi'.root

variable (hk : AllocRule le Q V N F t zero)
include hk

theorem Kept.before (hle : le w w') (h : Kept le Q w' pi d' pi') : Kept le Q w pi d' pi' := by
  obtain ⟨⟨w'', hle', hQ⟩, hsame⟩ := h
  exact ⟨⟨w'', hk.trans hle hle', hQ⟩, hsame⟩

theorem Rooted.before (hle : le w w') (h : Rooted le Q V w' d' pi') : Rooted le Q V w d' pi' := by
  obtain ⟨w'', hle', h⟩ := h
  exact ⟨w'', hk.trans hle hle', h⟩

theorem store_kept {b : ℕ} (h : Q w s.d) (hp : N w (k + 1) p) (hb : V w k (pmfsGetBlockOff b))
    (i last : ℕ) : Q w (s.store (pmfsGetBlocknr p) i last b).d := by
  unfold AllocLoop.store
  dsimp only
  split_ifs
  · exact hk.slot (hk.event h).1 hp hb
  · exact hk.slot h hp hb

theorem allocLeaf_kept (h : Q w s.d) (hp : N w 1 p) (ht : s.pi.iBlkType = t)
    (hrun : allocLeafBody zero (pmfsGetBlocknr p) last i s = some (s', o)) :
    Kept le Q w s.pi s'.d s'.pi ∧ (o ≠ none → F s'.d) := by
  unfold allocLeafBody pmfsNewDataBlock at hrun
  split_ifs at hrun
  · rw [ht] at hrun
    rcases hr : s.d.newBlock t zero with ⟨e | b, d1⟩
    · rw [hr] at hrun
      cases hrun
      obtain ⟨hQ, hF⟩ := hk.error (Or.inr ⟨rfl, rfl⟩) h hr
      exact ⟨⟨⟨w, hk.refl w, hQ⟩, rfl, rfl, rfl⟩, fun _ => hF⟩
    · rw [hr] at hrun
      cases hrun
      obtain ⟨w', hle, hQ, hV⟩ := hk.data h hr
      refine ⟨⟨⟨w', hle, ?_⟩, rfl, rfl, ht.symm⟩, fun hne => absurd rfl hne⟩
      exact store_kept hk hQ (hk.block hle hp) hV i last
  · cases hrun
    exact ⟨⟨⟨w, hk.refl w, h⟩, rfl, rfl, rfl⟩, fun hne => absurd rfl hne⟩

/-- One turn of the loop above height 1, when the recursive calls keep it. -/
theorem allocMeta_kept
    {rec : ℕ → ℕ → ℕ → Bool → Dev → PmfsInode → Option (Dev × PmfsInode × Option Errno)}
    (hrec : ∀ {w p f l nn d pi d' pi' o}, Q w d → N w (k + 1) p → pi.iBlkType = t →
      rec p f l nn d pi = some (d', pi', o) → Kept le Q w pi d' pi' ∧ (o ≠ none → F d'))
    {bits first : ℕ} (h : Q w s.d) (hp : N w (k + 2) p) (ht : s.pi.iBlkType = t)
    (hrun : allocMetaBody rec bits first last (pmfsGetBlocknr p) i s = some (s', o)) :
    Kept le Q w s.pi s'.d s'.pi ∧ (o ≠ none → F s'.d) := by
  have hfill : ∀ {w} (s1 : AllocLoop) {q f l : ℕ}, Q w s1.d → N w (k + 1) q → s1.pi = s.pi →
      ((rec q f l s1.newNode s1.d s1.pi).map fun r =>
        (({ s1 with d := r.1, pi := r.2.1 } : AllocLoop), r.2.2)) = some (s', o) →
      Kept le Q w s.pi s'.d s'.pi ∧ (o ≠ none → F s'.d) := by
    intro w s1 q f l h₁ hq hpi hmap
    obtain ⟨⟨d1, pi1, o1⟩, hr, heq⟩ := Option.map_eq_some_iff.mp hmap
    cases heq
    rw [← hpi] at ht ⊢
    exact hrec h₁ hq ht hr
  unfold allocMetaBody at hrun
  split_ifs at hrun with hslot
  · rcases hr : s.d.newBlock .b4K true with ⟨e | b, d1⟩
    · rw [hr] at hrun
      cases hrun
      obtain ⟨hQ, hF⟩ := hk.error (Or.inl ⟨rfl, rfl⟩) h hr
      exact ⟨⟨⟨w, hk.refl w, (hk.event hQ).1⟩, rfl, rfl, rfl⟩, fun _ => (hk.event hQ).2 hF⟩
    · rw [hr] at hrun
      obtain ⟨w', hle, hQ, hV, hN⟩ := hk.node k h hr
      have hnode : (({ s with d := d1 } : AllocLoop).store (pmfsGetBlocknr p) i
        (last >>> bits) b).d.node
          (pmfsGetBlocknr p) i = pmfsGetBlockOff b := by
        unfold AllocLoop.store
        dsimp only
        split_ifs <;> exact if_pos ⟨rfl, rfl⟩
      have hstore :=
        store_kept hk (s := { s with d := d1 }) hQ (hk.block hle hp) hV i (last >>> bits)
      exact (hfill
        { ({ s with d := d1 } : AllocLoop).store (pmfsGetBlocknr p) i (last >>> bits) b with
          newNode := true } hstore (hnode ▸ hN) rfl hrun).imp_left (Kept.before hk hle)
  · exact hfill s h (hk.child h hp hslot) rfl hrun

theorem loop_kept {body : ℕ → AllocLoop → Option (AllocLoop × Option Errno)} {n : ℕ} (h : Q w s.d)
    (ht : s.pi.iBlkType = t)
    (hbody : ∀ w' j s s' o, le w w' → Q w' s.d → s.pi.iBlkType = t → body j s = some (s', o) →
      Kept le Q w' s.pi s'.d s'.pi ∧ (o ≠ none → F s'.d))
    (hrun : forLoop body i n s = some (s', o)) : Kept le Q w s.pi s'.d s'.pi ∧
    (o ≠ none → F s'.d) := by
  obtain ⟨hok, herr⟩ := forLoop_partial (I := fun _ s' => Kept le Q w s.pi s'.d s'.pi)
    (E := fun s' => Kept le Q w s.pi s'.d s'.pi ∧ F s'.d) (fun j s1 s2 o _ _ hs hb => by
      obtain ⟨⟨w1, hle, hQ⟩, hr, hh, ht1⟩ := hs
      obtain ⟨hkept, hF⟩ := hbody w1 j s1 s2 o hle hQ (ht1.trans ht) hb
      obtain ⟨hdev, hr', hh', ht'⟩ := Kept.before hk hle hkept
      have hkept' : Kept le Q w s.pi s2.d s2.pi := ⟨hdev, hr'.trans hr, hh'.trans hh, ht'.trans ht1⟩
      exact ⟨fun _ => hkept', fun hne => ⟨hkept', hF hne⟩⟩)
    ⟨⟨w, hk.refl w, h⟩, rfl, rfl, rfl⟩ hrun
  by_cases ho : o = none
  · exact ⟨hok ho, fun hne => absurd ho hne⟩
  · exact ⟨(herr ho).1, fun _ => (herr ho).2⟩

theorem recursiveAlloc_kept : ∀ {h p f l : ℕ} {nn : Bool} {w : W} {d d' : Dev} {pi pi' : PmfsInode}
    {o : Option Errno}, Q w d → N w h p → pi.iBlkType = t →
      recursiveAllocBlocks zero h p f l nn d pi = some (d', pi', o) →
      Kept le Q w pi d' pi' ∧ (o ≠ none → F d')
  | 0, _, _, _, _, _, _, _, _, _, _, _, _, _, hrun => by simp [recursiveAllocBlocks] at hrun
  | h + 1, p, f, l, nn, w, d, d', pi, pi', o, hQ, hp, ht, hrun => by
    unfold recursiveAllocBlocks at hrun
    split_ifs at hrun with hb hh
    · obtain ⟨⟨s, o1⟩, hloop, heq⟩ := Option.map_eq_some_iff.mp hrun
      cases heq
      subst hh
      exact loop_kept hk hQ ht (fun w' j s s' o hle h ht hb =>
        allocLeaf_kept hk h (hk.block hle hp) ht hb) hloop
    · obtain ⟨⟨s, o1⟩, hloop, heq⟩ := Option.map_eq_some_iff.mp hrun
      cases heq
      obtain ⟨k, rfl⟩ := Nat.exists_eq_succ_of_ne_zero hh
      exact loop_kept hk hQ ht (fun w' j s s' o hle h ht hb =>
        allocMeta_kept hk recursiveAlloc_kept h (hk.block hle hp) ht hb) hloop

theorem increaseLoop_kept : ∀ {n h h' root root' : ℕ} {w : W} {d d' : Dev} {o : Option Errno},
    Q w d → V w h root → increaseLoop n d h root = (d', h', root', o) →
    (∃ w', le w w' ∧ Q w' d' ∧ V w' h' root') ∧ (o ≠ none → F d')
  | 0, _, _, _, _, w, _, _, _, h, hv, hrun => by
    simp only [increaseLoop] at hrun
    cases hrun
    exact ⟨⟨w, hk.refl w, h, hv⟩, fun hne => absurd rfl hne⟩
  | n + 1, height, _, root, _, w, d, d', o, h, hv, hrun => by
    unfold increaseLoop at hrun
    rcases hr : d.newBlock .b4K true with ⟨e | b, d1⟩
    · rw [hr] at hrun
      cases hrun
      obtain ⟨hQ, hF⟩ := hk.error (Or.inl ⟨rfl, rfl⟩) h hr
      exact ⟨⟨w, hk.refl w, (hk.event hQ).1, hv⟩, fun _ => (hk.event hQ).2 hF⟩
    · rw [hr] at hrun
      obtain ⟨w1, hle, hQ, hV, hN⟩ := hk.node height h hr
      have hset := hk.slot (i := 0) hQ hN (hk.value hle hv)
      rw [blocknr_off] at hset
      obtain ⟨⟨w', hle', hrest⟩, hF⟩ := increaseLoop_kept hset hV hrun
      exact ⟨⟨w', hk.trans hle hle', hrest⟩, hF⟩

theorem increase_kept {height : ℕ} (h : Q w d) (hv : V w pi.height pi.root)
    (hrun : pmfsIncreaseBtreeHeight d pi height = (d', pi', o)) :
    Rooted le Q V w d' pi' ∧ pi'.iBlkType = pi.iBlkType ∧ (o ≠ none → F d') := by
  unfold pmfsIncreaseBtreeHeight at hrun
  rcases hloop : increaseLoop (height - pi.height) d pi.height pi.root with ⟨d1, h₁, p1, o1⟩
  rw [hloop] at hrun
  cases hrun
  obtain ⟨hroot, hF⟩ := increaseLoop_kept hk h hv hloop
  exact ⟨hroot, rfl, hF⟩

/-- The range is filled in a tree that has the height for it. -/
theorem fill_kept {f l : ℕ} {nn : Bool} (h : Q w d) (hv : V w pi.height pi.root)
    (ht : pi.iBlkType = t) (hrun : recursiveAllocBlocks zero pi.height pi.root f l nn d pi =
    some (d', pi', o)) : Rooted le Q V w d' pi' ∧ pi'.iBlkType = t ∧ (o ≠ none → F d') := by
  have hN : N w pi.height pi.root := by
    cases hh : pi.height with
    | zero => simp [hh, recursiveAllocBlocks] at hrun
    | succ k =>
      refine hk.root (hh ▸ hv) fun h0 => ?_
      simp [hh, h0, recursiveAllocBlocks] at hrun
  obtain ⟨⟨⟨w', hle, hQ⟩, hr, hh, ht'⟩, hF⟩ := recursiveAlloc_kept hk h hN ht hrun
  refine ⟨⟨w', hle, hQ, ?_⟩, ht'.trans ht, hF⟩
  rw [hr, hh]
  exact hk.value hle hv

/-- **What the steps of an allocation keep, `__pmfs_alloc_blocks` keeps.** On a range that three
levels hold, it fails for want of a block only. -/
theorem alloc_kept {fileBlocknr num : ℕ} (h : Q w d) (hv : V w pi.height pi.root)
    (ht : pi.iBlkType = t) (hrun : __pmfsAllocBlocks d pi fileBlocknr num zero =
    some (d', pi', o)) : Rooted le Q V w d' pi' ∧ pi'.iBlkType = t ∧
      (pi.height ≤ 3 → lastIndex pi fileBlocknr num < 512 ^ 3 → o ≠ none → F d') := by
  have hsame : Rooted le Q V w d pi := ⟨w, hk.refl w, h, hv⟩
  obtain ⟨height, h1, -, hmin, ⟨h3, heq⟩ | ⟨-, ⟨hz, -, heq⟩ | ⟨hz, -, heq⟩ | ⟨hz, heq⟩⟩⟩ :=
    alloc_cases d pi fileBlocknr num zero
  · rw [heq] at hrun
    cases hrun
    refine ⟨hsame, ht, fun hh hlast => ?_⟩
    have := hmin 3 hh hlast
    omega
  · rw [heq, firstBlock, pmfsNewDataBlock, ht] at hrun
    rcases hr : d.newBlock t zero with ⟨e | b, d1⟩
    · rw [hr] at hrun
      cases hrun
      obtain ⟨hQ, hF⟩ := hk.error (Or.inr ⟨rfl, rfl⟩) h hr
      exact ⟨⟨w, hk.refl w, hQ, hv⟩, ht, fun _ _ _ => hF⟩
    · rw [hr] at hrun
      cases hrun
      exact ⟨hk.data h hr, rfl, fun _ _ hne => absurd rfl hne⟩
  · rw [heq] at hrun
    cases hrun
    exact ⟨hsame, ht, fun _ _ hne => absurd rfl hne⟩
  · rw [heq, raiseFill] at hrun
    rcases hinc : pmfsIncreaseBtreeHeight d pi height with ⟨d1, pi1, _ | e⟩
    · obtain ⟨⟨w1, hle, hQ, hV⟩, ht1, -⟩ := increase_kept hk h hv hinc
      rw [hinc] at hrun
      rw [← increase_height h1 hinc] at hrun
      obtain ⟨hroot, ht', hF⟩ := fill_kept hk hQ hV (ht1.trans ht) hrun
      exact ⟨.before hk hle hroot, ht', fun _ _ => hF⟩
    · obtain ⟨hroot, ht1, hF⟩ := increase_kept hk h hv hinc
      rw [hinc] at hrun
      cases hrun
      exact ⟨hroot, ht1.trans ht, fun _ _ => hF⟩

end Alloc

/-- The rule without a world: `Q` of the device, kept by stores of values with the property `V`. -/
abbrev PlainRule (Q : Dev → Prop) (V : ℕ → Prop) (F : Dev → Prop) (t : BlkType) (zero : Bool) :
    Prop :=
  AllocRule (W := Unit) (fun _ _ => True) (fun _ => Q) (fun _ _ => V) (fun _ _ _ => True) F t zero

theorem plainRule {Q : Dev → Prop} {V : ℕ → Prop} {F : Dev → Prop} {zero : Bool}
    (hnew : ∀ {t' zero' d d' r}, (t' = .b4K ∧ zero' = true ∨ t' = t ∧ zero' = zero) → Q d →
      d.newBlock t' zero' = (r, d') → Q d' ∧ ∀ e, r = .error e → F d')
    (hslot : ∀ {d page i v}, Q d → V v → Q (d.setSlot page i v))
    (hevent : ∀ {d es}, Q d → Q { d with events := es } ∧ (F d → F { d with events := es }))
    (hoff : ∀ b, V (pmfsGetBlockOff b)) : PlainRule Q V F t zero where
  refl _ := trivial
  trans _ _ := trivial
  value _ hv := hv
  block _ _ := trivial
  root _ _ := trivial
  child _ _ _ := trivial
  data h hr := ⟨(), trivial, (hnew (Or.inr ⟨rfl, rfl⟩) h hr).1, hoff _⟩
  node _ h hr := ⟨(), trivial, (hnew (Or.inl ⟨rfl, rfl⟩) h hr).1, hoff _, trivial⟩
  error ht h hr := (hnew ht h hr).imp_right fun hF => hF _ rfl
  slot h _ hv := hslot h hv
  event := hevent

section Balloc

variable (hnew : ∀ s t' ok, t' = .b4K ∨ t' = t → P s → P (pmfsNewBlock s t' ok).2)
include hnew

theorem newBlock_keeps {t' : BlkType} (zero : Bool) (ht : t' = .b4K ∨ t' = t) (h : P d.ba) :
    P (d.newBlock t' zero).2.ba := by
  have hp := hnew d.ba t' (d.slab.headD true) ht h
  unfold Dev.newBlock
  rcases hr : pmfsNewBlock d.ba t' (d.slab.headD true) with ⟨r, ba⟩
  rw [hr] at hp
  cases r with
  | error e => exact hp
  | ok b =>
    split_ifs <;> exact hp

/-- A property of the allocator that every new block keeps. -/
theorem balloc_kept (zero : Bool) : PlainRule (fun d => P d.ba) (fun _ => True)
    (fun _ => True) t zero := by
  refine plainRule (fun {t' zero' d d' r} ht h hr => ⟨?_, fun _ _ => trivial⟩) (fun h _ =>
    h) (fun h => ⟨h, id⟩) fun _ => trivial
  have hkeeps := newBlock_keeps hnew zero' (ht.imp And.left And.left) h
  rwa [hr] at hkeeps

/-- **Allocation in an inode keeps what the allocation of blocks keeps.** -/
theorem alloc_keeps {fileBlocknr num : ℕ} {zero : Bool}
    (ht : pi.iBlkType = t) (h : P d.ba)
    (hrun : __pmfsAllocBlocks d pi fileBlocknr num zero = some (d', pi', o)) : P d'.ba := by
  obtain ⟨⟨-, -, hP, -⟩, -⟩ := alloc_kept (balloc_kept hnew zero) (w := ()) h trivial ht hrun
  exact hP

end Balloc

theorem alloc_blkType {fileBlocknr num : ℕ} {zero : Bool}
    (hrun : __pmfsAllocBlocks d pi fileBlocknr num zero = some (d', pi', o)) :
    pi'.iBlkType = pi.iBlkType := by
  have hk := balloc_kept (P := fun _ => True) (t := pi.iBlkType) (fun _ _ _ _ _ => trivial) zero
  exact (alloc_kept hk (w := ()) trivial trivial rfl hrun).2.1

/-! ### Freeing -/

section Free

variable (hfree : ∀ s b t' ok hint s' hint', P s → __pmfsFreeBlock s b t' ok hint =
  some (s', hint') → P s')
include hfree

theorem freeBlockHint_keeps {b : ℕ} {t' : BlkType} {hint hint' : Option ℕ} (h : P d.ba)
    (hrun : d.freeBlockHint b t' hint = some (d', hint')) : P d'.ba := by
  obtain ⟨⟨ba, h₁⟩, hr, heq⟩ := Option.map_eq_some_iff.mp hrun
  cases heq
  exact hfree _ _ _ _ _ _ _ h hr

theorem freeBlock_keeps {b : ℕ} {t' : BlkType} (h : P d.ba) (hrun : d.freeBlock b t' = some d') :
    P d'.ba := by
  obtain ⟨⟨d1, h₁⟩, hr, rfl⟩ := Option.map_eq_some_iff.mp hrun
  exact freeBlockHint_keeps hfree h hr

theorem truncLeaf_keeps {page i : ℕ} {s s' : TruncLoop} {o : Option Errno} (h : P s.d.ba)
    (hrun : truncLeafBody t page i s = some (s', o)) : P s'.d.ba := by
  unfold truncLeafBody at hrun
  dsimp only at hrun
  split_ifs at hrun
  · cases hrun
    exact h
  · obtain ⟨⟨d1, h₁⟩, hr, heq⟩ := Option.map_eq_some_iff.mp hrun
    cases heq
    exact freeBlockHint_keeps hfree h hr

theorem truncMeta_keeps {rec : ℕ → ℕ → ℕ → Dev → Option (Dev × ℕ × Bool)}
    (hrec : ∀ {b f l d d' n m}, P d.ba → rec b f l d = some (d', n, m) → P d'.ba)
    {nodeBits first last page i : ℕ} {s s' : TruncLoop} {o : Option Errno} (h : P s.d.ba)
    (hrun : truncMetaBody rec nodeBits first last page i s = some (s', o)) : P s'.d.ba := by
  unfold truncMetaBody at hrun
  by_cases hslot : s.d.node page i = 0
  · rw [if_pos hslot] at hrun
    cases hrun
    exact h
  rw [if_neg hslot] at hrun
  rcases hr : rec (s.d.node page i) (firstBlk nodeBits first i) (lastBlk nodeBits last i) s.d with
    _ | ⟨d1, n, _ | _⟩
  · simp [hr] at hrun
  · rw [hr] at hrun
    cases hrun
    exact hrec h hr
  · rw [hr] at hrun
    obtain ⟨d2, hf, heq⟩ := Option.map_eq_some_iff.mp hrun
    cases heq
    exact freeBlock_keeps hfree (hrec h hr) hf

theorem recursiveTruncate_keeps : ∀ {h block first last : ℕ} {d d' : Dev} {n : ℕ}
    {m : Bool}, P d.ba → recursiveTruncateBlocks t h block first last d = some (d', n, m) → P d'.ba
  | 0, _, _, _, _, _, _, _, _, hrun => by simp [recursiveTruncateBlocks] at hrun
  | h + 1, block, first, last, d, d', n, m, hp, hrun => by
    have hfinish : ∀ {page f l : ℕ} {s : TruncLoop}, P s.d.ba →
      P (truncFinish page f l s).1.ba := by
      intro page f l s hs
      unfold truncFinish
      split_ifs <;> exact hs
    unfold recursiveTruncateBlocks at hrun
    split_ifs at hrun with hb hh
    · obtain ⟨⟨s, o⟩, hloop, heq⟩ := Option.map_eq_some_iff.mp hrun
      have hs := forLoop_keeps
        (fun j s s' o hs hbody => truncLeaf_keeps hfree hs hbody) hp hloop
      exact congrArg (·.1.ba) heq ▸ hfinish hs
    · obtain ⟨⟨s, o⟩, hloop, heq⟩ := Option.map_eq_some_iff.mp hrun
      have hs := forLoop_keeps
        (fun j s s' o hs hbody => truncMeta_keeps hfree recursiveTruncate_keeps hs hbody) hp hloop
      exact congrArg (·.1.ba) heq ▸ hfinish hs

/-- **The end of an inode keeps what the freeing of blocks keeps.** -/
theorem freeSubtree_keeps {root height last freed : ℕ} (h : P d.ba)
    (hrun : pmfsFreeInodeSubtree d root height t last = some (d', freed)) : P d'.ba := by
  unfold pmfsFreeInodeSubtree at hrun
  split_ifs at hrun
  · cases hrun
    exact h
  · obtain ⟨d1, hf, heq⟩ := Option.map_eq_some_iff.mp hrun
    cases heq
    exact freeBlock_keeps hfree h hf
  rcases hr : recursiveTruncateBlocks t height root 0 last d with _ | ⟨d1, n, _ | _⟩
  · simp [hr] at hrun
  · simp [hr] at hrun
  · rw [hr] at hrun
    obtain ⟨d2, hf, heq⟩ := Option.map_eq_some_iff.mp hrun
    cases heq
    exact freeBlock_keeps hfree (recursiveTruncate_keeps hfree h hr) hf

end Free

end Pmfs.Tree.Keeps
