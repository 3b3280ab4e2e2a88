import Pmfs.Tree.Cut

/-! # Migration to the SSD

`migrate_blocks` takes the file at the head of the LRU list and copies its data blocks to an SSD
(`migrate.c`). A pointer below `NVMCAP` leads to a block of the device, a pointer from there on to
the byte of the SSD that is `NVMCAP` less. The space on the SSD is taken from the cursor `logaddr`,
which `allocate_sspace` moves on once for the whole run, by `EXPECTBLOCK - num_free_blocks`: this is
a number of blocks, and not the number that the run migrates, while `soffset` goes on by the 4096
bytes of every block.

`recursive_moves` says that a run stores consecutive addresses, one for each data block on the
device that it comes to, and `migrate_moves` that it begins at the cursor. So the extents of two
runs keep apart when every run moves the cursor over what it writes (`extents_apart`), and the code
does not see to that (`two_blocks_one_extent`). -/

namespace Pmfs.Migrate.Blocks

open Block.Model Lib.Loop Lib.Radix RTree
open Tree.Model Tree.Own Tree.Truncate
open Tree.Cut (newDev)

/-- `NVMCAP`: the pointers below lead to the device. -/
def NVMCAP : ℕ := 4294967296

/-- `NVMBSIZE`. -/
def NVMBSIZE : ℕ := 4096

/-- `EXPECTBLOCK`. -/
def EXPECTBLOCK : ℕ := 1024 * 1024 * 256

/-- A migrated block: its pointer before, and the pointer to the SSD that is stored in its place. -/
structure Moved where
  block : ℕ
  pointer : ℕ
deriving DecidableEq, Repr

/-- What the migration of one file works on: the device, the globals `soffset` and `totalsize`, and
the blocks that have been migrated, in this order. -/
structure Migration where
  d : Dev
  soffset : ℕ
  totalsize : ℕ
  moved : List Moved

/-- `NVMCAP + soffset`. -/
def ssdPointer (soffset : ℕ) : ℕ := (NVMCAP + soffset) % 2 ^ 64

/-- What follows the copy of the block at `v` when the pointer to it has been replaced: `soffset`
and `totalsize` go on, and the block is freed. -/
def migrated (m : Migration) (d : Dev) (v : ℕ) : Option Migration :=
  (d.freeBlock (pmfsGetBlocknr v) .b4K).map fun d =>
    { d := d
      soffset := (m.soffset + NVMBSIZE) % 2 ^ 64
      totalsize := (m.totalsize + 2 ^ 64 - 1) % 2 ^ 64
      moved := m.moved ++ [⟨v, ssdPointer m.soffset⟩] }

/-- The body of the loop in `recursive_migrate_inode`, in a node of height `h + 1`. What it takes
for a slot behind the last one of the node is one of the next block. -/
def migrateBody (recurse : ℕ → ℕ → ℕ → Migration → Option (Migration × Option Empty))
    (h page first last i : ℕ) (m : Migration) : Option (Migration × Option Empty) :=
  let v := m.d.node (page + i / 512) (i % 512)
  if h = 0 then
    if v < NVMCAP ∧ v ≠ 0 then
      (migrated m (m.d.setSlot (page + i / 512) (i % 512) (ssdPointer m.soffset)) v).map fun m =>
        (m, none)
    else some (m, none)
  else if v = 0 then some (m, none)
  else recurse v (firstBlk (h * 9) first i) (lastBlk (h * 9) last i) m

/-- `recursive_migrate_inode`. There is no error that it could return. -/
def recursiveMigrateInode : ℕ → ℕ → ℕ → ℕ → Migration → Option (Migration × Option Empty)
  | 0, _, _, _, _ => none
  | h + 1, block, first, last, m =>
    if block = 0 then none
    else forLoop (migrateBody (recursiveMigrateInode h) h (pmfsGetBlocknr block) first last)
      (first >>> (h * 9)) (last >>> (h * 9) + 1 - first >>> (h * 9)) m

/-- The file system as the migration finds it: the device, the inodes that the LRU nodes have in
`pinode`, the LRU list by the numbers of these inodes, the global `logaddr`, and all blocks that
have been migrated so far. -/
structure State where
  d : Dev
  pinode : ℕ → PmfsInode
  lruNodes : List ℕ
  logaddr : ℕ
  moved : List Moved

/-- `EXPECTBLOCK - sbi->num_free_blocks`. -/
def reserve (s : State) : ℕ := (EXPECTBLOCK + 2 ^ 64 - s.d.ba.numFreeBlocks.toNat) % 2 ^ 64

/-- `allocate_sspace`: the address, and the cursor afterwards. -/
def allocateSspace (logaddr totalsize : ℕ) : ℕ × ℕ := (logaddr, (logaddr + totalsize) % 2 ^ 64)

/-- The migration of the inode `pi`. A file of one block without a block makes `memmove` read at the
null pointer. -/
def migrateInode (pi : PmfsInode) (m : Migration) : Option (Migration × PmfsInode) :=
  if pi.height = 0 then
    if pi.root < NVMCAP then
      if pi.root = 0 then none
      else (migrated m m.d pi.root).map fun m' => (m', { pi with root := ssdPointer m.soffset })
    else some (m, pi)
  else (recursiveMigrateInode pi.height pi.root 0 pi.iBlocks.toNat m).map fun r => (r.1, pi)

/-- `migrate_blocks`, with its return value; `opens` says whether `filp_open` opens the SSD. Only
the first node of the list is looked at. -/
def migrateBlocks (opens : Bool) (s : State) : Option (State × ℤ) :=
  let r := allocateSspace s.logaddr (reserve s)
  if opens then
    match s.lruNodes with
    | [] => some ({ s with logaddr := r.2 }, 1)
    | nr :: rest =>
      (migrateInode (s.pinode nr) ⟨s.d, r.1, reserve s, s.moved⟩).map fun m =>
        ({ d := m.1.d
           pinode := fun n => if n = nr then m.2 else s.pinode n
           lruNodes := rest ++ [nr]
           logaddr := r.2
           moved := m.1.moved }, 1)
  else some ({ s with logaddr := r.2 }, -1)

/-! ### The addresses of one run -/

/-- The pointers to `n` consecutive blocks of the SSD. -/
def pointers : ℕ → ℕ → List ℕ
  | _, 0 => []
  | offset, n + 1 => ssdPointer offset :: pointers ((offset + NVMBSIZE) % 2 ^ 64) n

theorem pointers_add (a b : ℕ) : ∀ {offset : ℕ}, offset < 2 ^ 64 →
    pointers offset (a + b) = pointers offset a ++
    pointers ((offset + NVMBSIZE * a) % 2 ^ 64) b := by
  induction a with
  | zero =>
    intro offset hlt
    rw [Nat.zero_add, Nat.mul_zero, Nat.add_zero, Nat.mod_eq_of_lt hlt]
    rfl
  | succ a ih =>
    intro offset hlt
    have hnext : ((offset + NVMBSIZE) % 2 ^ 64 + NVMBSIZE * a) % 2 ^ 64 =
      (offset + NVMBSIZE * (a + 1)) % 2 ^ 64 := by
      rw [Nat.mod_add_mod, Nat.add_assoc, Nat.mul_succ, Nat.add_comm (NVMBSIZE * a)]
    rw [show a + 1 + b = a + b + 1 by omega, pointers, pointers, ih (Nat.mod_lt _ (by norm_num)),
      hnext]
    rfl

/-- `n` blocks have been migrated between two states. -/
structure Moves (m m' : Migration) (n : ℕ) : Prop where
  soffset : m'.soffset = (m.soffset + NVMBSIZE * n) % 2 ^ 64
  moved : ∃ l, m'.moved = m.moved ++ l ∧ l.map Moved.pointer = pointers m.soffset n

variable {m m' m'' : Migration} {d d' : Dev} {s s' : State} {opens : Bool} {ret : ℤ}

theorem Moves.refl (hlt : m.soffset < 2 ^ 64) : Moves m m 0 :=
  ⟨by rw [Nat.mul_zero, Nat.add_zero, Nat.mod_eq_of_lt hlt], [], by simp, rfl⟩

theorem Moves.trans {a b : ℕ} (hlt : m.soffset < 2 ^ 64) (h : Moves m m' a) (h' : Moves m' m'' b) :
    Moves m m'' (a + b) := by
  obtain ⟨l, hl, hp⟩ := h.moved
  obtain ⟨l', hl', hp'⟩ := h'.moved
  refine ⟨?_, l ++ l', by rw [hl', hl, List.append_assoc], ?_⟩
  · rw [h'.soffset, h.soffset, Nat.mod_add_mod, Nat.mul_add, Nat.add_assoc]
  · rw [List.map_append, hp, hp', h.soffset, pointers_add a b hlt]

theorem freeBlock_node {b : ℕ} {t : BlkType} (h : d.freeBlock b t = some d') :
    d'.node = d.node := by
  obtain ⟨⟨d1, hint⟩, hr, rfl⟩ := Option.map_eq_some_iff.mp h
  obtain ⟨r, -, heq⟩ := Option.map_eq_some_iff.mp hr
  rw [Prod.mk.injEq] at heq
  rw [← heq.1]

theorem migrated_moves {v : ℕ} (h : migrated m d v = some m') : Moves m m' 1 ∧
    m'.d.node = d.node := by
  obtain ⟨d1, hfree, rfl⟩ := Option.map_eq_some_iff.mp h
  exact ⟨⟨by rw [Nat.mul_one], [_], rfl, rfl⟩, freeBlock_node hfree⟩

/-! ### The recursion -/

/-- The number of data blocks on the device from the index `f` to the index `l` of a tree of height
`k`. -/
def onNvm : ℕ → ℕ → ℕ → RTree → ℕ
  | 0, _, _, leaf p => if p < NVMCAP then 1 else 0
  | k + 1, f, l, node _ c =>
    ∑ i ∈ Finset.Icc (f / 512 ^ k) (l / 512 ^ k), onNvm k (lo 512 k f i) (hi 512 k l i) (c i)
  | _, _, _, _ => 0

@[simp] theorem onNvm_empty (k f l : ℕ) : onNvm k f l empty = 0 := by cases k <;> rfl

/-- The page `x` is a metadata block of the tree. -/
def HasPage (T : RTree) (x : ℕ) : Prop := ∃ q, HasNode 512 q T ∧ pmfsGetBlocknr q = x

/-- The metadata blocks of a tree are different blocks. -/
def Distinct : RTree → Prop
  | node p c => (∀ i < 512, Distinct (c i) ∧ ¬ HasPage (c i) (pmfsGetBlocknr p)) ∧
      ∀ i < 512, ∀ j < 512, i ≠ j → ∀ x, HasPage (c i) x → ¬ HasPage (c j) x
  | _ => True

theorem hasPage_root {p : ℕ} {c : ℕ → RTree} : HasPage (node p c) (pmfsGetBlocknr p) :=
  ⟨p, Or.inl rfl, rfl⟩

theorem HasPage.of_kid {p i x : ℕ} {c : ℕ → RTree} (hlt : i < 512) (h : HasPage (c i) x) :
    HasPage (node p c) x := by
  obtain ⟨q, hq, hx⟩ := h
  exact ⟨q, Or.inr ⟨i, hlt, hq⟩, hx⟩

/-- Nothing but the metadata blocks of the tree `T` has been written. -/
def Only (T : RTree) (d d' : Dev) : Prop := ∀ x, ¬ HasPage T x → ∀ i, d'.node x i = d.node x i

/-- What the loop has done in the node at `p` with the children `c` when it comes to the slot `j`:
the blocks of the children before are migrated, those from there on are as they were. -/
structure Inv (k p f l : ℕ) (c : ℕ → RTree) (m0 : Migration) (j : ℕ) (m : Migration) : Prop where
  lt : m.soffset < 2 ^ 64
  moves : Moves m0 m (∑ i ∈ Finset.Ico (f / 512 ^ k) j, onNvm k (lo 512 k f i) (hi 512 k l i) (c i))
  slot : ∀ i, j ≤ i → i < 512 → m.d.node (pmfsGetBlocknr p) i = m0.d.node (pmfsGetBlocknr p) i
  kid : ∀ i, j ≤ i → i < 512 → tree m.d k (m0.d.node (pmfsGetBlocknr p) i) = c i
  only : Only (node p c) m0.d m.d

variable {k p f l j : ℕ} {c : ℕ → RTree} {m0 : Migration}

theorem sum_next {g : ℕ → ℕ} {a b : ℕ} (h : a ≤ b) : ∑ i ∈ Finset.Ico a (b + 1),
    g i = ∑ i ∈ Finset.Ico a b, g i + g b :=
  Finset.sum_Ico_succ_top h g

/-- A step over a slot that holds nothing to migrate. -/
theorem Inv.skip (h : Inv k p f l c m0 j m) (hf : f / 512 ^ k ≤ j)
    (hnone : onNvm k (lo 512 k f j) (hi 512 k l j) (c j) = 0) : Inv k p f l c m0 (j + 1) m where
  lt := h.lt
  moves := by
    rw [sum_next hf, hnone]
    exact h.moves
  slot i hi := h.slot i (by omega)
  kid i hi := h.kid i (by omega)
  only := h.only

theorem Moves.lt {n : ℕ} (h : Moves m m' n) : m'.soffset < 2 ^ 64 := by
  rw [h.soffset]
  exact Nat.mod_lt _ (by norm_num)

/-- A step that migrates what is under the slot `j`. -/
theorem Inv.next (h₀ : m0.soffset < 2 ^ 64) (h : Inv k p f l c m0 j m) (hf : f / 512 ^ k ≤ j)
    (hmoves : Moves m m' (onNvm k (lo 512 k f j) (hi 512 k l j) (c j)))
    (hslot : ∀ i, j < i → i < 512 → m'.d.node (pmfsGetBlocknr p) i = m.d.node (pmfsGetBlocknr p) i)
    (hkid : ∀ i, j < i → i < 512 → tree m'.d k (m0.d.node (pmfsGetBlocknr p) i) = c i)
    (honly : Only (node p c) m.d m'.d) : Inv k p f l c m0 (j + 1) m' where
  lt := hmoves.lt
  moves := by
    rw [sum_next hf]
    exact h.moves.trans h₀ hmoves
  slot i hi hlt := (hslot i hi hlt).trans (h.slot i (by omega) hlt)
  kid := hkid
  only x hx i := (honly x hx i).trans (h.only x hx i)

/-- What `recursive_migrate_inode` does at the height `k`, in a range that lies in the tree. -/
def Migrates (k : ℕ) (run : ℕ → ℕ → ℕ → Migration → Option (Migration × Option Empty)) : Prop :=
  ∀ {m m' : Migration} {o : Option Empty} {block f l : ℕ}, m.soffset < 2 ^ 64 →
    Distinct (tree m.d k block) → l < 512 ^ k → run block f l m = some (m', o) →
    Moves m m' (onNvm k f l (tree m.d k block)) ∧ Only (tree m.d k block) m.d m'.d

theorem body_leaf {run : ℕ → ℕ → ℕ → Migration → Option (Migration × Option Empty)}
    {o : Option Empty} (h₀ : m0.soffset < 2 ^ 64) (h : Inv 0 p f l c m0 j m)
    (hf : f / 512 ^ 0 ≤ j) (hj : j < 512)
    (hrun : migrateBody run 0 (pmfsGetBlocknr p) f l j m = some (m', o)) :
    Inv 0 p f l c m0 (j + 1) m' := by
  unfold migrateBody at hrun
  rw [if_pos rfl, Nat.div_eq_of_lt hj, Nat.mod_eq_of_lt hj, Nat.add_zero] at hrun
  split_ifs at hrun with hv
  · obtain ⟨m1, hmig, heq⟩ := Option.map_eq_some_iff.mp hrun
    obtain rfl : m1 = m' := congrArg Prod.fst heq
    obtain ⟨hmoves, hnode⟩ := migrated_moves hmig
    have hc := h.kid j (Nat.le_refl j) (by omega)
    rw [← h.slot j (Nat.le_refl j) (by omega), tree_leaf hv.2] at hc
    refine h.next h₀ hf ?_ (fun i hi _ => ?_) (fun i hi hlt => h.kid i (by omega) hlt)
      (fun x hx i => ?_)
    · rw [← hc, onNvm, if_pos hv.1]
      exact hmoves
    · rw [hnode, Dev.setSlot]
      simp only
      rw [if_neg (by omega)]
    · rw [hnode, Dev.setSlot]
      simp only
      rw [if_neg]
      rintro ⟨rfl, -⟩
      exact hx hasPage_root
  · obtain rfl : m = m' := congrArg Prod.fst (Option.some.inj hrun)
    refine h.skip hf ?_
    rw [← h.kid j (Nat.le_refl j) (by omega), ← h.slot j (Nat.le_refl j) (by omega)]
    by_cases h0 : m.d.node (pmfsGetBlocknr p) j = 0
    · rw [h0, tree_null, onNvm_empty]
    · rw [tree_leaf h0, onNvm, if_neg fun hlt => hv ⟨hlt, h0⟩]

theorem body_node {run : ℕ → ℕ → ℕ → Migration → Option (Migration × Option Empty)}
    {o : Option Empty} (hk : k ≠ 0) (hrec : Migrates k run) (hdis : Distinct (node p c))
    (h₀ : m0.soffset < 2 ^ 64) (h : Inv k p f l c m0 j m) (hf : f / 512 ^ k ≤ j) (hlt : j < 512)
    (hrun : migrateBody run k (pmfsGetBlocknr p) f l j m = some (m', o)) :
    Inv k p f l c m0 (j + 1) m' := by
  unfold migrateBody at hrun
  rw [firstBlk_eq_lo, lastBlk_eq_hi] at hrun
  rw [if_neg hk, Nat.div_eq_of_lt hlt, Nat.mod_eq_of_lt hlt, Nat.add_zero] at hrun
  split_ifs at hrun with hv
  · obtain rfl : m = m' := congrArg Prod.fst (Option.some.inj hrun)
    refine h.skip hf ?_
    rw [← h.kid j (Nat.le_refl j) (by omega), ← h.slot j (Nat.le_refl j) (by omega), hv,
      tree_null, onNvm_empty]
  · have hc : tree m.d k (m.d.node (pmfsGetBlocknr p) j) = c j := by
      rw [h.slot j (Nat.le_refl j) hlt, h.kid j (Nat.le_refl j) hlt]
    obtain ⟨hmoves, honly⟩ := hrec h.lt (by rw [hc]; exact (hdis.1 j hlt).1)
      (hi_lt (by norm_num) j) hrun
    rw [hc] at hmoves honly
    refine h.next h₀ hf hmoves (fun i _ _ => honly _ (hdis.1 j hlt).2 i) (fun i hi hi' =>
      ?_) (fun x hx => ?_)
    · -- the metadata blocks of the children behind are not those of the child at `j`
      rw [← h.kid i (by omega) hi']
      refine tree_congr_node fun q hq => honly _ ?_
      rw [h.kid i (by omega) hi'] at hq
      exact hdis.2 i hi' j hlt (by omega) _ ⟨q, hq, rfl⟩
    · exact honly x fun hcon => hx (hcon.of_kid hlt)

/-- **Main result.** The recursion stores consecutive addresses, one for each data block on the
device that lies in the range. -/
theorem recursive_moves (k : ℕ) : Migrates k (recursiveMigrateInode k) := by
  induction k with
  | zero =>
    intro m m' o block f l _ _ _ hrun
    simp [recursiveMigrateInode] at hrun
  | succ k hrec =>
    intro m m' o block f l hlt hdis hl hrun
    unfold recursiveMigrateInode at hrun
    split_ifs at hrun with hb
    rw [shiftRight_9, shiftRight_9] at hrun
    rw [tree_kids hb] at hdis ⊢
    have hinit : Inv k block f l (kidsOf m.d k block) m (f / 512 ^ k) m :=
      ⟨hlt, by rw [Finset.Ico_self, Finset.sum_empty]; exact Moves.refl hlt, fun _ _ _ => rfl,
        fun i _ hi => (kidsOf_eq i hi).symm, fun _ _ _ => rfl⟩
    have hloop := forLoop_partial (E := fun _ => False)
      (fun j s s' o hj hj' hs hbody =>
      ⟨fun _ => ?_, fun ho => absurd (Subsingleton.elim o none) ho⟩) hinit hrun
    · have hend := hloop.1 (Subsingleton.elim o none)
      refine ⟨?_, hend.only⟩
      have hmoves := hend.moves
      rwa [show Finset.Ico (f / 512 ^ k) (f / 512 ^ k + (l / 512 ^ k + 1 - f / 512 ^ k)) =
        Finset.Icc (f / 512 ^ k) (l / 512 ^ k) by
        ext i; simp only [Finset.mem_Ico, Finset.mem_Icc]; omega] at hmoves
    · have hlast := child_lt hl
      have hslot : j < 512 := by omega
      by_cases hk : k = 0
      · subst hk
        exact body_leaf hlt hs hj hslot hbody
      · exact body_node hk hrec hdis hlt hs hj hslot hbody

/-! ### One call -/

/-- The inode at the head of the LRU list. -/
def first (s : State) : Option PmfsInode := s.lruNodes.head?.map s.pinode

/-- The number of data blocks on the device of an inode, up to the index `i_blocks`. -/
def nvmBlocks (d : Dev) (pi : PmfsInode) : ℕ :=
  onNvm pi.height 0 pi.iBlocks.toNat (tree d pi.height pi.root)

theorem inode_moves {pi pi' : PmfsInode} (hlt : m.soffset < 2 ^ 64)
    (hdis : Distinct (tree m.d pi.height pi.root))
    (hin : pi.height ≠ 0 → pi.iBlocks.toNat < 512 ^ pi.height)
    (hrun : migrateInode pi m = some (m', pi')) : Moves m m' (nvmBlocks m.d pi) := by
  unfold migrateInode at hrun
  unfold nvmBlocks
  split_ifs at hrun with hh hnvm hroot
  · obtain ⟨m1, hmig, heq⟩ := Option.map_eq_some_iff.mp hrun
    obtain rfl : m1 = m' := congrArg Prod.fst heq
    rw [hh, tree_leaf hroot, onNvm, if_pos hnvm]
    exact (migrated_moves hmig).1
  · obtain rfl : m = m' := congrArg Prod.fst (Option.some.inj hrun)
    have hroot : pi.root ≠ 0 := by
      rintro h0
      exact hnvm (by rw [h0]; decide)
    rw [hh, tree_leaf hroot, onNvm, if_neg hnvm]
    exact Moves.refl hlt
  · obtain ⟨⟨m1, o⟩, hrec, heq⟩ := Option.map_eq_some_iff.mp hrun
    obtain rfl : m1 = m' := congrArg Prod.fst heq
    exact (recursive_moves pi.height hlt hdis (hin hh) hrec).1

/-- The metadata blocks of the file at the head of the list are different blocks. -/
def Sound (s : State) : Prop := ∀ pi ∈ first s, Distinct (tree s.d pi.height pi.root)

/-- The number of blocks that a call has to migrate. -/
def toMove (opens : Bool) (s : State) : ℕ :=
  if opens then ((first s).map (nvmBlocks s.d)).getD 0 else 0

/-- The count of blocks that a call takes for the last index is one of the tree. -/
def Counted (opens : Bool) (s : State) : Prop :=
  opens = true → ∀ pi ∈ first s, pi.height ≠ 0 → pi.iBlocks.toNat < 512 ^ pi.height

/-- A call stores consecutive addresses from the cursor on, one for each block that it has to
migrate, and moves the cursor on by `EXPECTBLOCK - num_free_blocks`. -/
theorem migrate_moves (hlt : s.logaddr < 2 ^ 64) (hsound : Sound s) (hin : Counted opens s)
    (hrun : migrateBlocks opens s = some (s', ret)) :
    s'.logaddr = (s.logaddr + reserve s) % 2 ^ 64 ∧
      ∃ l, s'.moved = s.moved ++ l ∧ l.map Moved.pointer = pointers s.logaddr (toMove opens s) := by
  unfold migrateBlocks at hrun
  simp only [allocateSspace] at hrun
  unfold toMove
  split_ifs at hrun with ho
  · rw [if_pos ho]
    have hin := hin ho
    unfold Sound first at hsound
    unfold first at hin
    unfold first
    cases hl : s.lruNodes with
    | nil =>
      simp only [hl] at hrun
      cases hrun
      exact ⟨rfl, [], by simp, rfl⟩
    | cons nr rest =>
      simp only [hl] at hrun hsound hin ⊢
      obtain ⟨⟨m', pi'⟩, hmig, heq⟩ := Option.map_eq_some_iff.mp hrun
      obtain rfl := congrArg Prod.fst heq
      exact ⟨rfl, (inode_moves hlt (hsound _ (by simp)) (hin _ (by simp)) hmig).moved⟩
  · rw [if_neg ho]
    cases hrun
    exact ⟨rfl, [], by simp, rfl⟩

/-! ### Many calls -/

/-- The extents of 4096 bytes of two migrated blocks do not overlap, and so their addresses are
different. -/
def Apart (x y : Moved) : Prop :=
  x.pointer + NVMBSIZE ≤ y.pointer ∨ y.pointer + NVMBSIZE ≤ x.pointer

/-- The amount by which a call moves the cursor on is at least what it writes, the cursor stays
below the end of the addresses of 64 bits, and the call stays in the blocks of the tree. -/
structure Reserved (opens : Bool) (s : State) : Prop where
  counted : Counted opens s
  enough : NVMBSIZE * toMove opens s ≤ reserve s
  room : NVMCAP + s.logaddr + reserve s < 2 ^ 64

/-- A call of `migrate_blocks`, or a change that the rest of the file system makes to the device,
the inodes and the LRU list. The calls are those with the property `P`. -/
inductive Step (P : Bool → State → Prop) : State → State → Prop
  | migrate {s s' : State} {opens : Bool} {ret : ℤ} (hsound : Sound s) (hP : P opens s)
      (hrun : migrateBlocks opens s = some (s', ret)) : Step P s s'
  | others {s : State} (d : Dev) (pinode : ℕ → PmfsInode) (lruNodes : List ℕ) :
      Step P s { s with d := d, pinode := pinode, lruNodes := lruNodes }

/-- The addresses from `a` to `b`. -/
def Within (a b : ℕ) (x : Moved) : Prop :=
  NVMCAP + a ≤ x.pointer ∧ x.pointer + NVMBSIZE ≤ NVMCAP + b

theorem pointers_within : ∀ {n a : ℕ} {l : List Moved}, NVMCAP + a + NVMBSIZE * n < 2 ^ 64 →
    l.map Moved.pointer = pointers a n → (∀ x ∈ l, Within a (a + NVMBSIZE * n) x) ∧ l.Pairwise Apart
  | 0, _, l, _, hl => by
    obtain rfl := List.map_eq_nil_iff.mp hl
    simp
  | n + 1, a, l, hlt, hl => by
    obtain ⟨x, l, rfl, hx, hrest⟩ := List.map_eq_cons_iff.mp hl
    have hnext : (a + NVMBSIZE) % 2 ^ 64 = a + NVMBSIZE :=
      Nat.mod_eq_of_lt (by rw [Nat.mul_succ] at hlt; omega)
    rw [hnext] at hrest
    have hptr : x.pointer = NVMCAP + a := hx.trans (Nat.mod_eq_of_lt (by omega))
    rw [Nat.mul_succ] at hlt ⊢
    obtain ⟨hin, hpair⟩ := pointers_within (by omega) hrest
    refine ⟨fun y hy => ?_, List.pairwise_cons.mpr ⟨fun y hy => Or.inl ?_, hpair⟩⟩
    · rcases List.mem_cons.mp hy with rfl | hy
      · exact ⟨by omega, by omega⟩
      · have := hin y hy
        exact ⟨by have := this.1; omega, by have := this.2; omega⟩
    · have := (hin y hy).1
      omega

/-- What holds in every state that is reached: the extents lie below the cursor and do not overlap.
-/
structure Kept (s : State) : Prop where
  lt : s.logaddr < 2 ^ 64
  below : ∀ x ∈ s.moved, Within 0 s.logaddr x
  apart : s.moved.Pairwise Apart

theorem Kept.step (h : Kept s) (hstep : Step Reserved s s') : Kept s' := by
  cases hstep with
  | others d pinode lruNodes => exact ⟨h.lt, h.below, h.apart⟩
  | migrate hsound hres hrun =>
    rename_i opens ret
    obtain ⟨hlog, l, hmoved, hl⟩ := migrate_moves h.lt hsound hres.counted hrun
    have henough := hres.enough
    have hroom := hres.room
    rw [Nat.mod_eq_of_lt (by omega)] at hlog
    obtain ⟨hin, hpair⟩ := pointers_within (by omega) hl
    refine ⟨by omega, fun x hx => ?_, ?_⟩
    · rw [hmoved] at hx
      rcases List.mem_append.mp hx with hx | hx
      · have := h.below x hx
        exact ⟨this.1, by have := this.2; omega⟩
      · have := hin x hx
        exact ⟨by have := this.1; omega, by have := this.2; omega⟩
    · rw [hmoved, List.pairwise_append]
      refine ⟨h.apart, hpair, fun x hx y hy => Or.inl ?_⟩
      have hle := (h.below x hx).2
      have hge := (hin y hy).1
      omega

/-- **Main result.** When every call moves the cursor on by at least the 4096 bytes of each block
that it migrates, then the extents of any two migrated blocks keep apart, in every state that is
reached. -/
theorem extents_apart (s s' : State) (hlt : s.logaddr < 2 ^ 64) (hinit : s.moved = [])
    (hrun : Relation.ReflTransGen (Step Reserved) s s') : s'.moved.Pairwise Apart := by
  have h : Kept s' := by
    induction hrun with
    | refl => exact ⟨hlt, by simp [hinit], by simp [hinit]⟩
    | tail _ hstep ih => exact ih.step hstep
  exact h.apart

/-- Two files of one block each in a new device of `n` blocks. -/
def twoFiles (n : ℕ) : State where
  d := newDev n
  pinode nr := { zeroInode with root := 4096 * (nr + 5) }
  lruNodes := [1, 2]
  logaddr := 0
  moved := []

theorem sound_of_flat (h : ∀ pi ∈ first s, pi.height = 0) : Sound s := by
  intro pi hpi
  rw [h pi hpi]
  unfold tree ofHeap
  split_ifs <;> trivial

theorem counted_of_flat (h : ∀ pi ∈ first s, pi.height = 0) : Counted opens s :=
  fun _ pi hpi hne => absurd (h pi hpi) hne

/-- In a device of 1024 blocks each of two calls moves the cursor on by far more than the one block
of the file. -/
theorem extents_apart_two : ∃ s', Relation.ReflTransGen (Step Reserved) (twoFiles 1024) s' ∧
    s'.moved.map Moved.block = [4096 * 6, 4096 * 7] ∧ s'.moved.Pairwise Apart := by
  obtain ⟨⟨s1, ret⟩, hrun, ⟨hflat, henough, hroom⟩, ⟨s', ret'⟩, hrun', hmoved⟩ :
      ∃ r ∈ migrateBlocks true (twoFiles 1024), ((∀ pi ∈ first r.1, pi.height = 0) ∧
        NVMBSIZE * toMove true r.1 ≤ reserve r.1 ∧ NVMCAP + r.1.logaddr + reserve r.1 < 2 ^ 64) ∧
        ∃ r' ∈ migrateBlocks true r.1, r'.1.moved.map Moved.block = [4096 * 6, 4096 * 7] := by
    decide +kernel
  have hstep : Step Reserved (twoFiles 1024) s1 := .migrate (sound_of_flat (by decide))
    ⟨counted_of_flat (by decide), by decide +kernel, by decide +kernel⟩ hrun
  have hsteps := (Relation.ReflTransGen.single hstep).tail
    (.migrate (sound_of_flat hflat) ⟨counted_of_flat hflat, henough, hroom⟩ hrun')
  exact ⟨s', hsteps, hmoved, extents_apart _ _ (by decide) rfl hsteps⟩

/-- In a device with `EXPECTBLOCK` free blocks the cursor does not move, and the next call stores
the same address for the block of the other file. -/
theorem two_blocks_one_extent : ∃ s', Relation.ReflTransGen (Step fun _ _ => True)
    (twoFiles 0x11900011) s' ∧ s'.moved = [⟨4096 * 6, NVMCAP⟩, ⟨4096 * 7, NVMCAP⟩] ∧
    ¬ s'.moved.Pairwise Apart := by
  obtain ⟨⟨s1, ret⟩, hrun, hflat, ⟨s', ret'⟩, hrun', hmoved⟩ : ∃ r ∈
    migrateBlocks true (twoFiles 0x11900011),
      (∀ pi ∈ first r.1, pi.height = 0) ∧
        ∃ r' ∈ migrateBlocks true r.1, r'.1.moved = [⟨4096 * 6, NVMCAP⟩, ⟨4096 * 7, NVMCAP⟩] := by
        decide +kernel
  have hstep : Step (fun _ _ => True) (twoFiles 0x11900011) s1 :=
    .migrate (sound_of_flat (by decide)) trivial hrun
  have hstep' : Step (fun _ _ => True) s1 s' := .migrate (sound_of_flat hflat) trivial hrun'
  refine ⟨s', .tail (.single hstep) hstep', hmoved, fun hcon => ?_⟩
  rw [show s'.moved = _ from hmoved, List.pairwise_pair] at hcon
  unfold Apart NVMBSIZE at hcon
  dsimp only at hcon
  omega

end Pmfs.Migrate.Blocks
