import Pmfs.Inodes.Writes
import Pmfs.Tree.Holes

/-! # The log entries of the pages of a write

`__pmfs_xip_file_write` allocates the blocks that it does not find, one page at a time and inside
the transaction of `pmfs_xip_file_write`. After an allocation of the whole range that is `Quiet` the
pages ask for nothing (`loop_quiet`). A range that three levels do not hold is not allocated before,
and then the pages ask for one log entry for each hole below the largest index (`loop_holes`). -/

namespace Pmfs.Inodes.PageLogs

open Lib.RadixMap Block.Model Tree.Model Tree.Own Tree.Inode Tree.Extend
open Tree.Supply Tree.Demand Tree.Holes Inodes.Data Inodes.Content
open Inodes.Regular (File)

variable {R : Multiset ℕ} {s s' : Image} {l l' : WriteLoop} {buf : ℕ → UInt8}
  {r : Except Errno ℕ} {a b k n x : ℕ}

/-! ### One page -/

theorem page_lt (hx : x < 2 ^ 64) : x >>> 12 < 2 ^ 64 := by
  rw [page_eq]
  omega

theorem getXipMem_alloc (hwf : WellFormed R s.f.d s.f.pi) (hx : x < 2 ^ 64)
    (hn : mapped s.f.d s.f.pi (x / pmfsInodeBlkSize s.f.pi) = 0) : ∃ s' r o,
      __pmfsAllocBlocks s.f.d s.f.pi (x >>> 12) 1 true = some (s'.f.d, s'.f.pi, o) ∧
      pmfsGetXipMem s (x >>> 12) none true = some (s', r) ∧ (o = none → ∃ block, r = .ok block) ∧
      ∀ e, o = some e → r = .error e := by
  obtain ⟨f', o, halloc, hrun, hadd, -⟩ := fileAlloc_added (x >>> 12) 1 true hwf
  rw [Nat.mod_eq_of_lt (by norm_num)] at hrun
  obtain ⟨-, hfill⟩ := alloc_run hwf hrun
  have hfind : pmfsFindDataBlock s.f.d s.f.pi (x >>> 12) = some 0 := by
    rw [findPage hwf.root, if_pos hn]
  unfold pmfsGetXipMem
  rcases o with - | e
  · obtain ⟨hfilled, hin⟩ := hfill rfl
    rw [lastIndex_one _ (page_lt hx)] at hfilled hin
    have hnew : mapped f'.d f'.pi (indexOf s.f.pi (x >>> 12)) ≠ 0 := by
      rw [mapped, lookup_of_lt hin]
      exact hfilled.find_ne_zero (by norm_num) uniform_tree le_rfl le_rfl
    have hfind' := findPage (d := f'.d) hadd.root x
    rw [blkSize_congr hadd.blkType, ← indexOf_page, if_neg hnew] at hfind'
    rw [findAndAlloc_found rfl rfl hfind rfl halloc hfind', if_neg (by omega)]
    exact ⟨_, _, _, hrun, rfl, fun _ => ⟨_, rfl⟩, fun e he => by simp at he⟩
  · rw [findAndAlloc_error rfl rfl hfind rfl halloc]
    exact ⟨_, _, _, hrun, rfl, fun hcon => absurd hcon (by simp), fun e' he => by simpa using he⟩

/-- What one page asks for is the difference in `holes`. -/
theorem page_holes (hwf : WellFormed R s.f.d s.f.pi) (hx : x < 2 ^ 64)
    (hrun : pmfsGetXipMem s (x >>> 12) none true = some (s', r)) : ∃ n, Logs s.f.d s'.f.d n ∧
      n ≤ holes s.f.d s.f.pi (x / pmfsInodeBlkSize s.f.pi) ∧
      (∀ block, r = .ok block → n + holes s'.f.d s'.f.pi (x / pmfsInodeBlkSize s.f.pi) =
        holes s.f.d s.f.pi (x / pmfsInodeBlkSize s.f.pi)) ∧
      (Ample R s.f.d → x / pmfsInodeBlkSize s.f.pi < 512 ^ 3 → Ample R s'.f.d ∧
      ∃ block, r = .ok block) := by
  by_cases hn : mapped s.f.d s.f.pi (x / pmfsInodeBlkSize s.f.pi) = 0
  swap
  · rw [getXipMem_mapped hwf.root hn] at hrun
    cases hrun
    exact ⟨0, logs_zero _, Nat.zero_le _, fun _ _ => Nat.zero_add _, fun h _ => ⟨h, _, rfl⟩⟩
  obtain ⟨s1, r1, o, halloc, hget, hok, herr⟩ := getXipMem_alloc hwf hx hn
  rw [hrun] at hget
  cases hget
  have hnone : ∀ block, r = .ok block → o = none := by
    intro block hr
    by_contra hcon
    obtain ⟨e, he⟩ := Option.ne_none_iff_exists'.mp hcon
    rw [herr e he] at hr
    simp at hr
  rw [← indexOf_page] at hn ⊢
  by_cases hlt : indexOf s.f.pi (x >>> 12) < 512 ^ 3
  · obtain ⟨n, hlogs, hle, hexact⟩ := fill_hole hwf (page_lt hx) hlt hn halloc
    refine ⟨n, hlogs, hle, fun block hr => hexact (hnone block hr), fun hample _ => ?_⟩
    rw [← lastIndex_one _ (page_lt hx)] at hlt
    obtain ⟨ho, hample'⟩ := alloc_of_ample hwf hample hlt halloc
    exact ⟨hample', hok ho⟩
  · have hlast : 512 ^ 3 ≤ lastIndex s.f.pi (x >>> 12) 1 := by
      rw [lastIndex_one _ (page_lt hx)]
      exact not_lt.mp hlt
    rw [alloc_beyond hwf.height hlast, Option.some.injEq, Prod.mk.injEq, Prod.mk.injEq] at halloc
    refine ⟨0, ?_, Nat.zero_le _, fun block hr => ?_, fun _ hcon => absurd hcon hlt⟩
    · rw [← halloc.1]
      exact logs_zero _
    · have ho := hnone block hr
      rw [← halloc.2.2] at ho
      simp at ho

/-- A page ends in its block or at the start of the next one. -/
theorem next_index (pi : PmfsInode) (hk : k ≤ 4096 - x % 4096) :
    (x + k) / pmfsInodeBlkSize pi = x / pmfsInodeBlkSize pi ∨
      (x + k) / pmfsInodeBlkSize pi = x / pmfsInodeBlkSize pi + 1 := by
  have hin := page_in_block pi x hk
  have hpos := blkSize_pos pi
  have hx := Nat.div_add_mod' x (pmfsInodeBlkSize pi)
  have hle : x / pmfsInodeBlkSize pi ≤ (x + k) / pmfsInodeBlkSize pi :=
    Nat.div_le_div_right (Nat.le_add_right x k)
  have hlt : (x + k) / pmfsInodeBlkSize pi < x / pmfsInodeBlkSize pi + 2 := by
    rw [Nat.div_lt_iff_lt_mul hpos, Nat.add_mul]
    omega
  omega

/-! ### All pages -/

/-- In the range of indices from `a` to `b`, the first block that is missing cannot be had either,
and the try asks for nothing. -/
def Quiet (f : File) (a b : ℕ) : Prop :=
  ∀ y < 2 ^ 64, a ≤ indexOf f.pi y → indexOf f.pi y ≤ b → mapped f.d f.pi (indexOf f.pi y) = 0 →
    (∀ n, a ≤ n → n < indexOf f.pi y → mapped f.d f.pi n ≠ 0) →
    ∃ d' pi' e, __pmfsAllocBlocks f.d f.pi y 1 true = some (d', pi', some e) ∧ Logs f.d d' 0

/-- After a quiet allocation the pages ask for nothing. -/
theorem loop_quiet {f : File} (hwf : WellFormed R f.d f.pi) (hq : Quiet f a b) :
    ∀ {n : ℕ} {l l' : WriteLoop}, l.s.f = f → a ≤ l.pos / pmfsInodeBlkSize f.pi →
    (∀ n, a ≤ n → n < l.pos / pmfsInodeBlkSize f.pi → mapped f.d f.pi n ≠ 0) → 0 < l.count →
    l.pos + l.count < 2 ^ 64 → (l.pos + l.count - 1) / pmfsInodeBlkSize f.pi ≤ b →
    xipWriteLoop buf n l = some l' → Logs f.d l'.s.f.d 0
  | 0, l, l', hf, _, _, _, _, _, hrun => by
    rw [xipWriteLoop, Option.some.injEq] at hrun
    rw [← hrun, hf]
    exact logs_zero _
  | n + 1, l, l', hf, ha, hbefore, hcount, hpos, hb, hrun => by
    subst hf
    rw [xipWriteLoop] at hrun
    by_cases hn : mapped l.s.f.d l.s.f.pi (l.pos / pmfsInodeBlkSize l.s.f.pi) = 0
    · -- the first missing block
      have hx : l.pos < 2 ^ 64 := by omega
      obtain ⟨s', r, o, halloc, hget, -, herr⟩ := getXipMem_alloc hwf hx hn
      have hle : l.pos / pmfsInodeBlkSize l.s.f.pi ≤ b := (Nat.div_le_div_right (by omega)).trans hb
      rw [← indexOf_page] at ha hbefore hn hle
      obtain ⟨d', pi', e, hretry, hlogs⟩ := hq _ (page_lt hx) ha hle hn hbefore
      rw [halloc, Option.some.injEq, Prod.mk.injEq, Prod.mk.injEq] at hretry
      rw [hget, herr e hretry.2.2, Option.some.injEq] at hrun
      rw [← hrun]
      rw [hretry.1]
      exact hlogs
    rw [getXipMem_mapped hwf.root hn] at hrun
    dsimp only at hrun
    generalize hbytes : min (4096 - l.pos % 4096) l.count = bytes at hrun
    split_ifs at hrun with hshort hdone
    · rw [Option.some.injEq] at hrun
      rw [← hrun]
      exact logs_zero _
    · rw [Option.some.injEq] at hrun
      rw [← hrun]
      exact logs_zero _
    · have hnext := next_index l.s.f.pi (x := l.pos) (k := min bytes l.avail) (by omega)
      have hend : l.pos + min bytes l.avail + (l.count - min bytes l.avail) = l.pos + l.count := by
        omega
      refine loop_quiet hwf hq ?_ ?_ ?_ ?_ ?_ ?_ hrun
      · rfl
      · dsimp only
        omega
      · intro n h1 h2
        dsimp only at h2
        by_cases heq : n = l.pos / pmfsInodeBlkSize l.s.f.pi
        · rw [heq]
          exact hn
        · exact hbefore n h1 (by omega)
      · dsimp only
        omega
      · dsimp only
        omega
      · rw [hend]
        exact hb

/-- The pages of a range that goes beyond the largest index ask for one entry for each hole. -/
theorem loop_holes : ∀ {n : ℕ} {l l' : WriteLoop}, WellFormed R l.s.f.d l.s.f.pi →
    l.pos + l.count < 2 ^ 64 → 512 ^ 3 * pmfsInodeBlkSize l.s.f.pi < l.pos + l.count →
    xipWriteLoop buf n l = some l' → ∃ m, Logs l.s.f.d l'.s.f.d m ∧
    m ≤ holes l.s.f.d l.s.f.pi (l.pos / pmfsInodeBlkSize l.s.f.pi) ∧
      (Ample R l.s.f.d → l.count ≤ l.avail → l.count ≤ n →
        m = holes l.s.f.d l.s.f.pi (l.pos / pmfsInodeBlkSize l.s.f.pi))
  | 0, l, l', _, _, hbeyond, hrun => by
    rw [xipWriteLoop, Option.some.injEq] at hrun
    rw [← hrun]
    refine ⟨0, logs_zero _, Nat.zero_le _, fun _ _ hcount => (holes_of_le ?_).symm⟩
    rw [Nat.le_div_iff_mul_le (blkSize_pos _)]
    omega
  | n + 1, l, l', hwf, hpos, hbeyond, hrun => by
    obtain ⟨s1, r, hget, hsame, hok⟩ := getXipMem_spec (x := l.pos) hwf (by omega)
    obtain ⟨m, hlogs, hle, hexact, hample⟩ := page_holes hwf (by omega) hget
    rw [xipWriteLoop, hget] at hrun
    rcases r with e | block
    · rw [Option.some.injEq] at hrun
      rw [← hrun]
      refine ⟨m, hlogs, hle, fun h _ _ => ?_⟩
      by_cases hlt : l.pos / pmfsInodeBlkSize l.s.f.pi < 512 ^ 3
      · obtain ⟨-, block, hcon⟩ := hample h hlt
        simp at hcon
      · have hzero : holes l.s.f.d l.s.f.pi (l.pos / pmfsInodeBlkSize l.s.f.pi) = 0 :=
          holes_of_le (not_lt.mp hlt)
        omega
    have hmapped := (hok block rfl).1
    have hbs := blkSize_congr hsame.blkType
    have hlt : l.pos / pmfsInodeBlkSize l.s.f.pi < 512 ^ 3 :=
      (lt_of_lookup_ne hmapped).trans_le (Nat.pow_le_pow_right (by norm_num) hsame.wf.height)
    have hdiff := hexact block rfl
    dsimp only at hrun
    generalize hbytes : min (4096 - l.pos % 4096) l.count = bytes at hrun
    split_ifs at hrun with hshort hdone
    · rw [Option.some.injEq] at hrun
      rw [← hrun]
      exact ⟨m, hlogs, hle, fun _ havail _ => absurd (by omega) hshort⟩
    · -- the pages of the blocks that a tree can have are not the last ones
      have hin := page_in_block l.s.f.pi l.pos (k := min bytes l.avail) (by omega)
      have hx := Nat.div_add_mod' l.pos (pmfsInodeBlkSize l.s.f.pi)
      have hmul := Nat.mul_le_mul_right (pmfsInodeBlkSize l.s.f.pi) hlt
      rw [Nat.succ_mul] at hmul
      omega
    · have hnext := next_index l.s.f.pi (x := l.pos) (k := min bytes l.avail) (by omega)
      have hsum : l.pos + min bytes l.avail + (l.count - min bytes l.avail) = l.pos + l.count := by
        omega
      obtain ⟨m', hlogs', hle', hexact'⟩ := loop_holes hsame.wf (by dsimp only; omega)
        (by dsimp only; rw [hbs, hsum]; exact hbeyond) hrun
      dsimp only at hlogs' hle' hexact'
      have hholes : holes s1.f.d s1.f.pi ((l.pos + min bytes l.avail) / pmfsInodeBlkSize s1.f.pi) =
          holes s1.f.d s1.f.pi (l.pos / pmfsInodeBlkSize l.s.f.pi) := by
        rw [hbs]
        rcases hnext with heq | heq
        · rw [heq]
        · rw [heq, holes_succ hmapped]
      rw [hholes] at hle' hexact'
      refine ⟨m + m', hlogs.trans hlogs', by omega, fun h havail hfuel => ?_⟩
      rw [hexact' (hample h hlt).1 (by omega) (by omega)]
      exact hdiff

end Pmfs.Inodes.PageLogs
