import Pmfs.Dirs.Spec

/-! # Directories are finite maps

The four functions that change a directory, `pmfs_add_entry` and `pmfs_remove_entry` of `dir.c`,
`add_direntry` and `remove_direntry` of `sync_meta.c`, keep it well-formed and its names unique, and
change what `pmfs_inode_by_name` finds for their own name only (`directory_refines_map`). A
directory with two entries for a name is well-formed too, and removing the name leaves the second
(`remove_duplicate`). -/

namespace Pmfs.Dirs.Refine

open Lib.Bytes Lib.Radix Block.Model Dirs.Model Dirs.Records Dirs.Spec Function

variable {b b' : Blk} {d d' : Dir} {o k t : ℕ} {r : Rec} {name : Name} {ino : ℕ}
  {log : KernelfsDentry} {alloc newBlock : Except Errno Blk}

/-! ### The entries of the log -/

variable (newBlock) in
/-- `kernelfs_add_dirent` changes the records of a block as `pmfs_add_dirent_to_buf` does. -/
theorem kernelfsAddDirent_spec (hwf : Wf b) (hino : log.fino < 256 ^ 8)
    (hname : log.name.length ≤ 255) : kernelfsAddDirent log b none newBlock =
    some (some .ENOSPC, b, none) ∨ ∃ pre r post, records b = pre ++ r :: post ∧ ∃ e b' child,
      kernelfsAddDirent log b none newBlock = some (e, b', child) ∧ e ≠ some .ENOSPC ∧
      Seg b' 0 (pre ++ (r.insert log.fino log.name ++ post)) 4096 := by
  unfold kernelfsAddDirent
  rcases room_spec recLen_pos hwf with ⟨hrun, -⟩ | ⟨pre, r, post, o, heq, hr, hrun, h1, h2⟩
  · rw [hrun]
    exact Or.inl rfl
  · rw [hrun]
    right
    refine ⟨pre, r, post, heq, ?_⟩
    have hend := h2.2.2.le
    -- the type of the new record is in no field of it that is read
    obtain ⟨hmid, hsame⟩ := seg_insert h2.1 h2.2.1 (by omega) hr
      ((recAt_putType (v := log.fileType)).trans (recAt_fillRecord hino hname))
      fun i hi => (put_of_not_mem (by omega)).trans (fillRecord_of_not_mem hi)
    have hseg := seg_replace h1 h2.2.2 hsame hmid
    dsimp only [Option.map_some]
    split_ifs
    · cases newBlock with
      | error e => exact ⟨_, _, _, rfl, by decide, hseg⟩
      | ok g => exact ⟨_, _, _, rfl, by decide, hseg⟩
    · exact ⟨_, _, _, rfl, by decide, hseg⟩

variable (newBlock) in
theorem kernelAddLoop_spec (h : WfDir d) (hino : log.fino < 256 ^ 8) (hname : log.name.length ≤ 255)
    (hne : log.fino ≠ 0) : ∀ {n k : ℕ}, k + n = d.blocks →
    kernelAddLoop d log newBlock n k = some (some .ENOSPC, d, none) ∨
    ∃ e d' child, kernelAddLoop d log newBlock n k = some (e, d', child) ∧ e ≠ some .ENOSPC ∧
      WfDir d' ∧ live d' = (log.name, log.fino) ::ₘ live d
  | 0, _, _ => Or.inl rfl
  | n + 1, k, hk => by
    obtain ⟨b, hb, hwf⟩ := h.mapped k (by omega)
    rw [kernelAddLoop, hb]
    dsimp only
    rcases kernelfsAddDirent_spec newBlock hwf hino hname with
      hfull | ⟨pre, r, post, heq, e, b', child, hadd, he, hseg⟩
    · rw [hfull]
      exact kernelAddLoop_spec h hino hname hne (by omega)
    · rw [hadd]
      obtain ⟨hwf', hlive⟩ := inserted_spec h (by omega) hb hne heq hseg
      refine Or.inr ⟨e, d.setBlk k b', child, ?_, he, hwf', hlive⟩
      cases e with
      | none => rfl
      | some e => cases e <;> first | rfl | exact absurd rfl he

variable (newBlock) in
theorem kernelfsAddDirent_new (g : Blk) (hino : log.fino < 256 ^ 8)
    (hname : log.name.length ≤ 255) :
    ∃ e b' child, kernelfsAddDirent log (put (put g 0 8 0) 8 2 4096) (some 0) newBlock =
      some (e, b', child) ∧ Seg b' 0 [⟨log.fino, 4096, log.name⟩] 4096 := by
  obtain ⟨hsplit, hfirst, hok, hend⟩ := seg_newBlock g hino hname
  have hseg : Seg (put (fillRecord (put (put g 0 8 0) 8 2 4096) 0 log.fino log.name) (0 + 11) 1
      log.fileType) 0 [⟨log.fino, 4096, log.name⟩] 4096 := by
    refine ⟨?_, hok, hend⟩
    rw [recAt_putType, hfirst]
  unfold kernelfsAddDirent
  dsimp only
  rw [hsplit]
  split_ifs
  · cases newBlock with
    | error e => exact ⟨_, _, _, rfl, hseg⟩
    | ok g => exact ⟨_, _, _, rfl, hseg⟩
  · exact ⟨_, _, _, rfl, hseg⟩

/-- What `add_direntry` does to a well-formed directory, when it returns 0. -/
theorem addDirentry_spec {child : Option Blk} (h : WfDir d) (hname' : log.name.length ≤ 255)
    (hino : log.fino < 256 ^ 8) (hne : log.fino ≠ 0)
    (hrun : addDirentry d log alloc newBlock = some (none, d', child)) :
    WfDir d' ∧ live d' = (log.name, log.fino) ::ₘ live d := by
  unfold addDirentry at hrun
  rcases kernelAddLoop_spec newBlock h hino hname' hne (Nat.zero_add _) with
    hfull | ⟨e, d1, child1, hloop, he, hwf, hlive⟩
  · rw [hfull] at hrun
    cases alloc with
    | error e => simp at hrun
    | ok g =>
      obtain ⟨e, b', child', hadd, hseg⟩ := kernelfsAddDirent_new newBlock g hino hname'
      dsimp only at hrun
      rw [hadd, Option.map_some, Option.some.injEq, Prod.mk.injEq, Prod.mk.injEq, blocks_grow,
        Nat.add_sub_cancel] at hrun
      exact grown_spec h hseg hne hrun.2.1.symm
  · rw [hloop] at hrun
    have heq : some (e, d1, child1) = some (none, d', child) := by
      rw [← hrun]
      cases e with
      | none => rfl
      | some e => cases e <;> first | rfl | exact absurd rfl he
    cases heq
    exact ⟨hwf, hlive⟩

/-! ### Runs -/

/-- The functions that change a directory. -/
inductive DirOp where
  | addEntry (name : Name) (ino : ℕ) (alloc : Except Errno Blk)
  | removeEntry (name : Name)
  | addDirentry (log : KernelfsDentry) (alloc newBlock : Except Errno Blk)
  | removeDirentry (name : Name)

/-- The directory after the call, with what it returns. -/
def DirOp.exec (d : Dir) : DirOp → Option (Dir × Option Errno)
  | addEntry name ino alloc => pmfsAddEntry d name ino alloc
  | removeEntry name => some (pmfsRemoveEntry d name)
  | addDirentry log alloc newBlock =>
    (Model.addDirentry d log alloc newBlock).map fun r => (r.2.1, r.1)
  | removeDirentry name => some (Model.removeDirentry d name)

/-- The name of the call. -/
def DirOp.key : DirOp → Name
  | addEntry name _ _ => name
  | removeEntry name => name
  | addDirentry log _ _ => log.name
  | removeDirentry name => name

/-- The inode number that the name is for afterwards. -/
def DirOp.target : DirOp → ℕ
  | addEntry _ ino _ => ino
  | addDirentry log _ _ => log.fino
  | _ => 0

/-- The call adds an inode under a name that is not there, or removes a name that is there and is
not `.` or `..`. -/
def DirOp.Valid (d : Dir) (op : DirOp) : Prop :=
  1 ≤ op.key.length ∧ op.key.length ≤ 255 ∧
    match op with
    | addEntry name ino _ => pmfsInodeByName d name = 0 ∧ ino ≠ 0 ∧ ino < 256 ^ 8
    | addDirentry log _ _ => pmfsInodeByName d log.name = 0 ∧ log.fino ≠ 0 ∧ log.fino < 256 ^ 8
    | removeEntry name => isDots name = false ∧ pmfsInodeByName d name ≠ 0
    | removeDirentry name => isDots name = false ∧ pmfsInodeByName d name ≠ 0

/-- A sequence of successful calls, with lookups in between. -/
inductive Runs : Dir → List DirOp → Dir → Prop
  | nil (d : Dir) : Runs d [] d
  | lookup {d d' : Dir} (name : Name) {ops : List DirOp} (hrest : Runs (lookedUp d name) ops d') :
      Runs d ops d'
  | cons {d d1 d' : Dir} (op : DirOp) {ops : List DirOp} (hvalid : op.Valid d)
      (hexec : op.exec d = some (d1, none)) (hrest : Runs d1 ops d') : Runs d (op :: ops) d'

theorem unique_cons (hu : UniqueNames d) (hno : ∀ i, (name, i) ∉ live d)
    (hlive : live d' = (name, ino) ::ₘ live d) : UniqueNames d' := by
  unfold UniqueNames
  rw [hlive, Multiset.map_cons, Multiset.nodup_cons]
  refine ⟨fun hmem => ?_, hu⟩
  obtain ⟨⟨n, i⟩, hin, rfl⟩ := Multiset.mem_map.mp hmem
  exact hno i hin

theorem unique_tail (hu : UniqueNames d) (hlive : live d = (name, ino) ::ₘ live d') :
    UniqueNames d' ∧ ∀ i, (name, i) ∉ live d' := by
  unfold UniqueNames at hu
  rw [hlive, Multiset.map_cons, Multiset.nodup_cons] at hu
  exact ⟨hu.2, fun i hin => hu.1 (Multiset.mem_map.mpr ⟨(name, i), hin, rfl⟩)⟩

/-- What a call makes of a directory, seen from outside: `name` is for `ino` now, 0 for nothing, and
the other names are for what they were. -/
structure Rebound (name : Name) (ino : ℕ) (d d' : Dir) : Prop where
  wf : WfDir d'
  unique : UniqueNames d'
  lookup : ∀ n : Name, 1 ≤ n.length → n.length ≤ 255 →
    pmfsInodeByName d' n = update (pmfsInodeByName d) name ino n

theorem rebound_of_add (h : WfDir d) (hu : UniqueNames d)
    (hno : ∀ i, (name, i) ∉ live d) (hne : ino ≠ 0) (h' : WfDir d')
    (hlive : live d' = (name, ino) ::ₘ live d) : Rebound name ino d d' := by
  have hu' := unique_cons hu hno hlive
  refine ⟨h', hu', fun n hn1 hn2 => ?_⟩
  by_cases hkey : n = name
  · subst hkey
    rw [update_self, lookup_eq_iff h' hu' hn1 hn2 hne, hlive]
    exact Multiset.mem_cons_self _ _
  · rw [update_of_ne hkey]
    refine lookup_congr h h' hu hn1 hn2 fun i => ?_
    rw [hlive, Multiset.mem_cons, Prod.mk.injEq]
    exact or_iff_right fun hcon => hkey hcon.1

theorem rebound_of_remove (h : WfDir d) (hu : UniqueNames d) (h' : WfDir d')
    (hlive : live d = (name, ino) ::ₘ live d') : Rebound name 0 d d' := by
  obtain ⟨hu', hno⟩ := unique_tail hu hlive
  refine ⟨h', hu', fun n hn1 hn2 => ?_⟩
  by_cases hkey : n = name
  · subst hkey
    rw [update_self, lookup_eq_zero_iff h' hn1 hn2]
    exact hno
  · rw [update_of_ne hkey]
    refine lookup_congr h h' hu hn1 hn2 fun i => ?_
    rw [hlive, Multiset.mem_cons, Prod.mk.injEq]
    exact (or_iff_right fun hcon => hkey hcon.1).symm

/-- The inode number in the record of a name is overwritten. -/
theorem rebound_of_overwrite {M : Multiset (Name × ℕ)} {j : ℕ} (h : WfDir d)
    (hu : UniqueNames d) (hne : ino ≠ 0) (h' : WfDir d') (hlive : live d = (name, j) ::ₘ M)
    (hlive' : live d' = (name, ino) ::ₘ M) :
    Rebound name ino d d' := by
  have hu' : UniqueNames d' := by
    unfold UniqueNames at hu ⊢
    rw [hlive, Multiset.map_cons] at hu
    rw [hlive', Multiset.map_cons]
    exact hu
  refine ⟨h', hu', fun n hn1 hn2 => ?_⟩
  by_cases hkey : n = name
  · subst hkey
    rw [update_self, lookup_eq_iff h' hu' hn1 hn2 hne, hlive']
    exact Multiset.mem_cons_self _ _
  · rw [update_of_ne hkey]
    refine lookup_congr h h' hu hn1 hn2 fun i => ?_
    rw [hlive, hlive', Multiset.mem_cons, Multiset.mem_cons, Prod.mk.injEq, Prod.mk.injEq]
    exact or_congr (iff_of_false (fun hcon => hkey hcon.1) fun hcon => hkey hcon.1) Iff.rfl

theorem remove_rebound (check : Bool) {e : Option Errno} (h : WfDir d) (hu : UniqueNames d)
    (h1 : 1 ≤ name.length) (h2 : name.length ≤ 255) (hthere : pmfsInodeByName d name ≠ 0)
    (hexec : removeLoop (fun b name => searchLoop name b check 4097 0 none) d name d.blocks 0 =
    (d', e)) : e = none ∧ Rebound name 0 d d' := by
  rcases remove_spec check h h1 with ⟨-, hno⟩ | ⟨d1, ino, hrun, hwf, hlive, -⟩
  · exact absurd ((lookup_eq_zero_iff h h1 h2).mpr hno) hthere
  · rw [hrun] at hexec
    cases hexec
    exact ⟨rfl, rebound_of_remove h hu hwf hlive⟩

theorem removeEntry_eq (h1 : 1 ≤ name.length) : pmfsRemoveEntry d name =
    removeLoop (fun b name => searchLoop name b true 4097 0 none) d name d.blocks 0 :=
  if_neg (by omega)

theorem op_rebound {op : DirOp} (h : WfDir d) (hu : UniqueNames d) (hvalid : op.Valid d)
    (hexec : op.exec d = some (d', none)) : Rebound op.key op.target d d' := by
  cases op with
  | addEntry name ino alloc =>
    obtain ⟨h1, h2, habs, hne, hino⟩ : 1 ≤ name.length ∧ name.length ≤ 255 ∧ _ := hvalid
    rcases addEntry_spec alloc h h1 h2 hino hne with ⟨d1, hrun, hwf, hlive, -⟩ | ⟨e, -, hrun, -⟩
    · rw [DirOp.exec, hrun] at hexec
      cases hexec
      exact rebound_of_add h hu ((lookup_eq_zero_iff h h1 h2).mp habs) hne hwf hlive
    · rw [DirOp.exec, hrun] at hexec
      simp at hexec
  | removeEntry name =>
    obtain ⟨h1, h2, -, hthere⟩ : 1 ≤ name.length ∧ name.length ≤ 255 ∧ _ := hvalid
    have hrun : pmfsRemoveEntry d name = (d', none) := Option.some.inj hexec
    rw [removeEntry_eq h1] at hrun
    exact (remove_rebound true h hu h1 h2 hthere hrun).2
  | addDirentry log alloc newBlock =>
    obtain ⟨h1, h2, habs, hne, hino⟩ : 1 ≤ log.name.length ∧ log.name.length ≤ 255 ∧ _ := hvalid
    obtain ⟨⟨e, d1, child⟩, hrun, heq⟩ := Option.map_eq_some_iff.mp hexec
    cases heq
    obtain ⟨hwf, hlive⟩ := addDirentry_spec h h2 hino hne hrun
    exact rebound_of_add h hu ((lookup_eq_zero_iff h h1 h2).mp habs) hne hwf hlive
  | removeDirentry name =>
    obtain ⟨h1, h2, -, hthere⟩ : 1 ≤ name.length ∧ name.length ≤ 255 ∧ _ := hvalid
    have hrun : removeDirentry d name = (d', none) := Option.some.inj hexec
    exact (remove_rebound false h hu h1 h2 hthere hrun).2

/-- What a run of updates leaves at a name depends on the start at that name alone. -/
theorem foldl_update_congr {m m' : Name → ℕ} {n : Name} (ops : List DirOp) (h : m n = m' n) :
    ops.foldl (fun m op => update m op.key op.target) m n =
      ops.foldl (fun m op => update m op.key op.target) m' n := by
  induction ops generalizing m m' with
  | nil => exact h
  | cons op ops ih =>
    refine ih ?_
    simp only [update_apply, h]

/-- A lookup changes nothing but the hint for the next one. -/
theorem lookedUp_spec (name : Name) (h : WfDir d) :
    WfDir (lookedUp d name) ∧ live (lookedUp d name) = live d := by
  unfold lookedUp
  split
  · exact ⟨⟨h.mapped, h.beyond⟩, rfl⟩
  · exact ⟨h, rfl⟩

theorem runs_rebound {ops : List DirOp} (hrun : Runs d ops d') (h : WfDir d) (hu : UniqueNames d) :
    WfDir d' ∧ UniqueNames d' ∧ ∀ n : Name, 1 ≤ n.length → n.length ≤ 255 →
      pmfsInodeByName d' n =
        ops.foldl (fun m op => update m op.key op.target) (pmfsInodeByName d) n := by
  induction hrun with
  | nil d => exact ⟨h, hu, fun n _ _ => rfl⟩
  | lookup name _ ih =>
    obtain ⟨hwf1, hlive⟩ := lookedUp_spec name h
    obtain ⟨hwf, hun, hlookup⟩ := ih hwf1 (by unfold UniqueNames; rwa [hlive])
    refine ⟨hwf, hun, fun n hn1 hn2 => ?_⟩
    rw [hlookup n hn1 hn2]
    refine foldl_update_congr _ (lookup_congr h hwf1 hu hn1 hn2 fun i => ?_)
    rw [hlive]
  | cons op hvalid hexec _ ih =>
    have hstep := op_rebound h hu hvalid hexec
    obtain ⟨hwf, hun, hlookup⟩ := ih hstep.wf hstep.unique
    refine ⟨hwf, hun, fun n hn1 hn2 => ?_⟩
    rw [hlookup n hn1 hn2]
    exact foldl_update_congr _ (hstep.lookup n hn1 hn2)

/-- **Main result.** A directory in which no name is twice refines a map from names to inode
numbers: removing a name that is there succeeds, and after every sequence of successful calls the
blocks are well-formed and a lookup finds what the sequence of updates says. -/
theorem directory_refines_map (h : WfDir d) (hu : UniqueNames d) :
    (∀ n : Name, 1 ≤ n.length → n.length ≤ 255 → isDots n = false → pmfsInodeByName d n ≠ 0 →
      (pmfsRemoveEntry d n).2 = none ∧ (removeDirentry d n).2 = none) ∧
    ∀ ops d', Runs d ops d' → WfDir d' ∧ UniqueNames d' ∧
      ∀ n : Name, 1 ≤ n.length → n.length ≤ 255 → pmfsInodeByName d' n =
        ops.foldl (fun m op => update m op.key op.target) (pmfsInodeByName d) n := by
  refine ⟨fun n hn1 hn2 _ hthere => ⟨?_, ?_⟩, fun ops d' hrun => runs_rebound hrun h hu⟩
  · rw [removeEntry_eq hn1]
    exact (remove_rebound true h hu hn1 hn2 hthere rfl).1
  · exact (remove_rebound false h hu hn1 hn2 hthere rfl).1

/-- A directory of one block. -/
def oneBlock (b : Blk) : Dir := ⟨4096, fun k => if k = 0 then some b else none, 0⟩

theorem wfDir_oneBlock (h : Wf b) : WfDir (oneBlock b) := by
  have hblocks : (oneBlock b).blocks = 1 := show 4096 >>> 12 = 1 by decide
  refine ⟨fun k hk => ?_, fun k hk => if_neg (by omega)⟩
  obtain rfl : k = 0 := by omega
  exact ⟨b, rfl, h⟩

/-- A directory with `.` and `..` only takes `a` and gives it up again. -/
theorem directory_refines_map_empty :
    let d := oneBlock (makeEmpty (fun _ => 0) 7 2)
    ∃ d', Runs d [.addEntry [0x61] 9 (.error .ENOSPC), .removeDirentry [0x61]] d' ∧
      pmfsInodeByName d' [0x61] = 0 ∧ pmfsInodeByName d' [0x2e] = 7 := by
  intro d
  have hwf : WfDir d := wfDir_oneBlock (by decide +kernel)
  have hu : UniqueNames d := show ((live d).map Prod.fst).Nodup by decide +kernel
  obtain ⟨-, hruns⟩ := directory_refines_map hwf hu
  have hadd : (pmfsAddEntry d [0x61] 9 (.error .ENOSPC)).map Prod.snd = some none := by
    decide +kernel
  obtain ⟨⟨d1, e⟩, hexec, rfl⟩ := Option.map_eq_some_iff.mp hadd
  have hvalid : (DirOp.addEntry [0x61] 9 (.error .ENOSPC)).Valid d := by
    refine ⟨?_, ?_, ?_, ?_, ?_⟩ <;> decide +kernel
  obtain ⟨hwf1, hu1, hlookup⟩ := hruns _ _ (.cons _ hvalid hexec (.nil d1))
  have hthere : pmfsInodeByName d1 [0x61] = 9 := hlookup [0x61] (by decide) (by decide)
  obtain ⟨hremove, -⟩ := directory_refines_map hwf1 hu1
  have hok := (hremove [0x61] (by decide) (by decide) rfl (by omega)).2
  have hrun : Runs d [.addEntry [0x61] 9 (.error .ENOSPC), .removeDirentry [0x61]]
      (removeDirentry d1 [0x61]).1 := by
    refine .cons _ hvalid hexec (.cons _ ⟨by decide, by decide, rfl, by omega⟩ ?_ (.nil _))
    exact congrArg some (Prod.ext rfl hok)
  obtain ⟨-, -, hend⟩ := hruns _ _ hrun
  refine ⟨_, hrun, hend [0x61] (by decide) (by decide), ?_⟩
  refine (hend [0x2e] (by decide) (by decide)).trans ?_
  decide +kernel

/-- Two records of a well-formed block are in use for `a`. `pmfs_remove_entry` takes out the first
and the name is still there. -/
theorem remove_duplicate :
    let d := oneBlock (putBytes (fun _ => 0) 0 [5, 0, 0, 0, 0, 0, 0, 0, 16, 0, 1, 0, 0x61, 0, 0, 0,
      6, 0, 0, 0, 0, 0, 0, 0, 0xf0, 0x0f, 1, 0, 0x61])
    WfDir d ∧ pmfsInodeByName d [0x61] = 5 ∧ (pmfsRemoveEntry d [0x61]).2 = none ∧
      pmfsInodeByName (pmfsRemoveEntry d [0x61]).1 [0x61] = 6 := by
  refine ⟨wfDir_oneBlock ?_, ?_, ?_, ?_⟩ <;> decide +kernel

end Pmfs.Dirs.Refine
