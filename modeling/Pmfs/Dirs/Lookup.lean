import Pmfs.Dirs.Readdir
import Pmfs.Dirs.Refine

/-! # Lookups and the hint where they start

`pmfs_inode_by_name` starts at the block where the last lookup ended, goes round, and looks for `.`
and `..` in the first block before the others. `plainScan` goes over the blocks from the first to
the last. With unique names the two agree, whatever the hint is (`lookup_ignores_hint`). A directory
has blocks of 4K and a tree of height 3 at most, so the number of its blocks is one of the `int` of
the source. -/

namespace Pmfs.Dirs.Lookup

open Lib.Bytes Dirs.Model Dirs.Records Dirs.Spec Dirs.Readdir

variable {b : Blk} {d : Dir} {name : Name}

instance (r : Rec) (name : Name) : Decidable (r.Is name) := inferInstanceAs (Decidable (_ ∧ _))

/-- The inode number of the first record for the name in a block. -/
def scanBlock (name : Name) (b : Blk) : Option ℕ :=
  ((records b).find? fun r => r.Is name).map Rec.ino

/-- The inode number of the first record for the name, over the blocks from the first to the last; 0
without one. -/
def plainScan (d : Dir) (name : Name) : ℕ :=
  ((List.range d.blocks).findSome? fun k => (d.blk k).bind (scanBlock name)).getD 0

theorem scanBlock_some {i : ℕ} (h : scanBlock name b = some i) : (name, i) ∈ blkLive b ∧ i ≠ 0 := by
  obtain ⟨r, hfind, rfl⟩ := Option.map_eq_some_iff.mp h
  have his : r.Is name := by simpa using List.find?_some hfind
  exact ⟨mem_entriesOf.mpr ⟨r, List.mem_of_find?_eq_some hfind, his, rfl⟩, his.1⟩

theorem scanBlock_none (h : scanBlock name b = none) : ∀ r ∈ records b, ¬ r.Is name := by
  intro r hr his
  have hno := List.find?_eq_none.mp (Option.map_eq_none_iff.mp h) r hr
  exact hno (by simpa using his)

/-- The scan finds a name if and only if there is an entry for it. -/
theorem plainScan_spec (d : Dir) (name : Name) :
    (plainScan d name ≠ 0 ∧ (name, plainScan d name) ∈ live d) ∨
    (plainScan d name = 0 ∧ ∀ i, (name, i) ∉ live d) := by
  unfold plainScan
  cases hscan : (List.range d.blocks).findSome? fun k => (d.blk k).bind (scanBlock name) with
  | some i =>
    left
    obtain ⟨k, hk, hblk⟩ := List.exists_of_findSome?_eq_some hscan
    obtain ⟨b, hb, hi⟩ := Option.bind_eq_some_iff.mp hblk
    obtain ⟨hmem, hne⟩ := scanBlock_some hi
    exact ⟨hne, mem_live.mpr ⟨k, List.mem_range.mp hk, b, hb, hmem⟩⟩
  | none =>
    right
    refine ⟨rfl, not_mem_live fun k hk b hb => scanBlock_none ?_⟩
    have hnone := List.findSome?_eq_none_iff.mp hscan k (List.mem_range.mpr hk)
    rwa [hb, Option.bind_some] at hnone

theorem length_le_of_mem {i : ℕ} (h : (name, i) ∈ live d) (hwf : WfDir d) : name.length ≤ 255 := by
  obtain ⟨k, hk, b, hb, he⟩ := mem_live.mp h
  obtain ⟨r, hr, his, -⟩ := mem_entriesOf.mp he
  obtain ⟨o, -, -, rfl⟩ := start_of_mem (hwf.blk hb).2 hr
  have hlt : deNameLen b o < 256 := by
    have := le_lt (m := b) (a := o + 10) (n := 1)
    simpa [deNameLen] using this
  have hname : (recAt b o).name = name := his.2
  rw [← hname, show (recAt b o).name.length = deNameLen b o from length_deName]
  omega

/-- Every name can be looked up when no entry has an empty one. -/
theorem named (h : WfDir d) (hne : ∀ i, ([], i) ∉ live d) (name : Name) : Named d name := by
  by_cases hname : name = []
  swap
  · exact Or.inl (List.length_pos_iff.mpr hname)
  subst hname
  refine Or.inr fun k b hb r hr his => ?_
  exact hne r.ino (mem_live.mpr ⟨k, (h.blk hb).1, b, hb, mem_entriesOf.mpr ⟨r, hr, his, rfl⟩⟩)

/-- **Main result.** In a directory with unique names a lookup ends and gives what a plain scan of
the blocks gives, whatever the hint is: the inode number of the entry for the name, and 0 without
one. -/
theorem lookup_ignores_hint (h : WfDir d) (hu : UniqueNames d)
    (hne : ∀ i, ([], i) ∉ live d) (name : Name) (start : ℕ) :
    findEntry { d with startLookup := start } name ≠ .endless ∧
      pmfsInodeByName { d with startLookup := start } name = plainScan d name ∧
      (∀ i, (name, i) ∈ live d → plainScan d name = i) ∧
      ((∀ i, (name, i) ∉ live d) → plainScan d name = 0) := by
  have hwf : WfDir { d with startLookup := start } := ⟨h.mapped, h.beyond⟩
  have hscan := plainScan_spec d name
  have hfirst : ∀ i, (name, i) ∈ live d → plainScan d name = i := by
    intro i hi
    rcases hscan with ⟨-, hmem⟩ | ⟨-, hno⟩
    · exact ino_unique hu hmem hi
    · exact absurd hi (hno i)
  have hzero : (∀ i, (name, i) ∉ live d) → plainScan d name = 0 := by
    intro hno
    rcases hscan with ⟨-, hmem⟩ | ⟨h0, -⟩
    · exact absurd hmem (hno _)
    · exact h0
  by_cases hlong : name.length > 255
  · -- a name that is too long is in no record
    have hstop : findEntry { d with startLookup := start } name = .stop := if_pos hlong
    refine ⟨by rw [hstop]; simp, ?_, hfirst, hzero⟩
    rw [pmfsInodeByName, hstop, hzero fun i hi => absurd (length_le_of_mem hi h) (by omega)]
  · have hnamed := named hwf hne name
    refine ⟨?_, ?_, hfirst, hzero⟩
    · rcases findEntry_spec hwf hnamed (Nat.le_of_not_gt hlong) with ⟨k, o, hf, -⟩ | ⟨hf | hf, -⟩
      · rw [hf]
        simp
      · rw [hf]
        simp
      · rw [hf]
        simp
    · rcases lookup_named hwf hnamed (Nat.le_of_not_gt hlong) with ⟨-, hmem⟩ | ⟨h0, hno⟩
      · exact (hfirst _ hmem).symm
      · rw [h0, hzero hno]

/-- A directory with `.` and `..` in its first block and `a` in its second. -/
def twoBlocks : Dir where
  iSize := 8192
  blk k := if k = 0 then some (makeEmpty (fun _ => 0) 7 2)
    else if k = 1 then some (fillRecord (put (fun _ => 0) 8 2 4096) 0 9 [0x61]) else none
  startLookup := 0

theorem twoBlocks_wf : WfDir twoBlocks := by
  have hblocks : twoBlocks.blocks = 2 := by decide
  refine ⟨fun k hk => ?_, fun k hk => ?_⟩
  · obtain rfl | rfl : k = 0 ∨ k = 1 := by omega
    · exact ⟨_, rfl, by decide +kernel⟩
    · exact ⟨_, rfl, by decide +kernel⟩
  · rw [hblocks] at hk
    unfold twoBlocks
    dsimp only
    rw [if_neg (by omega), if_neg (by omega)]

theorem lookup_ignores_hint_two : plainScan twoBlocks [0x61] = 9 ∧
    pmfsInodeByName { twoBlocks with startLookup := 1 } [0x61] = 9 ∧
    pmfsInodeByName { twoBlocks with startLookup := 5 } [0x61] = 9 := by
  have hu : UniqueNames twoBlocks := show ((live twoBlocks).map Prod.fst).Nodup by decide +kernel
  have hne : ∀ e ∈ live twoBlocks, e.1 ≠ [] := by decide +kernel
  have hall := lookup_ignores_hint twoBlocks_wf hu (fun i hi => hne _ hi rfl) [0x61]
  have hscan : plainScan twoBlocks [0x61] = 9 := (hall 0).2.2.1 9 (by decide +kernel)
  exact ⟨hscan, (hall 1).2.1.trans hscan, (hall 5).2.1.trans hscan⟩

end Pmfs.Dirs.Lookup
