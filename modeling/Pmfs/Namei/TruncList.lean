import Pmfs.Namei.Orphans

/-! # The truncate list on the medium

`pmfs_truncate_add` and `pmfs_truncate_del` keep the truncate list twice, in memory and as a chain
of inode numbers on the medium. Whatever is added and taken off, the chain is the list
(`mirrors_run`). The stores that a call makes to the medium come one after the other: `addStores`
and `delStores`. After each of them the chain is the list from before the call or the one from after
it (`lists_mirror`). -/

namespace Pmfs.Namei.TruncList

open Lib.Chain Namei.Model Namei.Orphans Function

/-! ### The stores of a call -/

/-- A store to the medium: to `i_next_truncate` of the list head, or to the item of an inode. -/
inductive Store where
  | head (v : ℕ)
  | next (i v : ℕ)
  | size (i v : ℕ)

/-- The medium after a store. -/
def Store.apply (fs : Fs) : Store → Fs
  | .head v => { fs with head := v }
  | .next i v => { fs with next := update fs.next i v }
  | .size i v => { fs with truncateSize := update fs.truncateSize i v }

/-- The stores of `pmfs_truncate_add`, in their order. -/
def addStores (fs : Fs) (i size : ℕ) : List Store :=
  if i ∈ fs.truncated then [] else [.next i fs.head, .size i size, .head i]

/-- The stores of `pmfs_truncate_del`. -/
def delStores (fs : Fs) (i : ℕ) : List Store :=
  if i ∈ fs.truncated then
    match prevIn fs.truncated i with
    | none => [.head (fs.next i)]
    | some p => [.next p (fs.next i)]
  else []

/-- A call. -/
inductive Call where
  | add (i size : ℕ)
  | del (i : ℕ)

/-- The inode that a call is for. -/
def Call.ino : Call → ℕ
  | .add i _ => i
  | .del i => i

def Call.exec (fs : Fs) : Call → Fs
  | .add i size => pmfsTruncateAdd fs i size
  | .del i => pmfsTruncateDel fs i

def Call.stores (fs : Fs) : Call → List Store
  | .add i size => addStores fs i size
  | .del i => delStores fs i

/-- The medium when a call has made its first `k` stores. -/
def Call.interrupted (fs : Fs) (c : Call) (k : ℕ) : Fs :=
  ((c.stores fs).take k).foldl Store.apply fs

/-- Following the chain from the list head visits the inodes of `l` in their order, each once, and
ends at 0. -/
def OnMedium (fs : Fs) (l : List ℕ) : Prop := Chain 0 fs.next fs.head l ∧ l.Nodup

/-- The list on the medium is the one in memory. -/
def Mirrors (fs : Fs) : Prop := OnMedium fs fs.truncated

variable {fs fs0 : Fs} {c : Call} {i size k : ℕ} {l : List ℕ}

/-- The stores are all that a call does to the medium. -/
theorem exec_eq_stores : c.exec fs =
    { (c.stores fs).foldl Store.apply fs with truncated := (c.exec fs).truncated } := by
  cases c with
  | add i size =>
    simp only [Call.exec, Call.stores, pmfsTruncateAdd, addStores]
    split_ifs <;> rfl
  | del i =>
    simp only [Call.exec, Call.stores, pmfsTruncateDel, delStores]
    split_ifs with hmem
    · cases prevIn fs.truncated i <;> rfl
    · rfl

theorem interrupted_of_le (hk : (c.stores fs).length ≤ k) :
    c.exec fs = { c.interrupted fs k with truncated := (c.exec fs).truncated } := by
  rw [Call.interrupted, List.take_of_length_le hk]
  exact exec_eq_stores

/-! ### Whole calls -/

theorem Mirrors.exec (h : Mirrors fs) (hc : c.ino ≠ 0) : Mirrors (c.exec fs) := by
  cases c with
  | add i size => exact (truncateAdd_kept fs size hc).1.1 h
  | del i => exact (truncateDel_spec h).1

theorem mirrors_run {calls : List Call} (h : Mirrors fs) (hcalls : ∀ c ∈ calls, c.ino ≠ 0) :
    Mirrors (calls.foldl Call.exec fs) := by
  induction calls generalizing fs with
  | nil => exact h
  | cons c calls ih =>
    obtain ⟨hc, hrest⟩ := List.forall_mem_cons.mp hcalls
    exact ih (h.exec hc) hrest

/-! ### Between two stores -/

/-- Stores to the item of an inode that is not on the list do not show. -/
theorem OnMedium.unlisted {v : ℕ} (h : OnMedium fs l) (hi : i ∉ l) :
    OnMedium ((Store.next i v).apply fs) l := by
  refine ⟨h.1.congr fun j hj => update_of_ne ?_ _ _, h.2⟩
  rintro rfl
  exact hi hj

/-- Until the last store of a call the chain is the list from before. -/
theorem interrupted_before (h : Mirrors fs) (hk : k < (c.stores fs).length) :
    OnMedium (c.interrupted fs k) fs.truncated := by
  cases c with
  | add i size =>
    unfold Call.interrupted
    simp only [Call.stores, addStores] at hk ⊢
    split_ifs at hk ⊢ with hmem
    · exact absurd hk (Nat.not_lt_zero k)
    · have hnext := OnMedium.unlisted (v := fs.head) h hmem
      obtain rfl | rfl | rfl : k = 0 ∨ k = 1 ∨ k = 2 := by
        simp only [List.length_cons, List.length_nil] at hk
        omega
      · exact h
      · exact hnext
      · exact hnext
  | del i =>
    have hone : (Call.stores fs (.del i)).length ≤ 1 := by
      simp only [Call.stores, delStores]
      split_ifs
      · cases prevIn fs.truncated i <;> simp
      · simp
    obtain rfl : k = 0 := by omega
    exact h

/-- **Main result.** After every sequence of calls on a new list the chain on the medium is the list
in memory, and in the midst of any further call it is the list from before that call or from after
it. -/
theorem lists_mirror {calls : List Call} (hhead : fs0.head = 0) (hempty : fs0.truncated = [])
    (hcalls : ∀ c ∈ calls, c.ino ≠ 0) :
    Mirrors (calls.foldl Call.exec fs0) ∧ ∀ c : Call, c.ino ≠ 0 → ∀ k,
      OnMedium (c.interrupted (calls.foldl Call.exec fs0) k) (calls.foldl Call.exec fs0).truncated ∨
      OnMedium (c.interrupted (calls.foldl Call.exec fs0) k)
      (c.exec (calls.foldl Call.exec fs0)).truncated := by
  have hstart : Mirrors fs0 := by
    rw [Mirrors, hempty]
    exact ⟨hhead, List.nodup_nil⟩
  have hrun := mirrors_run hstart hcalls
  refine ⟨hrun, fun c hc k => ?_⟩
  rcases lt_or_ge k (c.stores (calls.foldl Call.exec fs0)).length with hk | hk
  · exact Or.inl (interrupted_before hrun hk)
  · right
    have hafter := hrun.exec hc
    rw [interrupted_of_le hk] at hafter
    exact hafter

/-- A file system with an empty list. -/
def noneListed : Fs :=
  { inode := fun _ => ⟨none, 0, 0, false, false, false⟩, data := fun _ => ⟨0, fun _ => none, 0⟩
    truncated := [], head := 0, next := fun _ => 0, truncateSize := fun _ => 0 }

/-- Two inodes are added, one of them twice, and the one added first is taken off. -/
theorem lists_mirror_two :
    Mirrors ([.add 3 100, .add 5 0, .add 3 0, .del 3].foldl Call.exec noneListed) ∧
    ([.add 3 100, .add 5 0, .add 3 0, .del 3].foldl Call.exec noneListed).truncated = [5] := by
  have hcalls : ∀ c ∈ [Call.add 3 100, .add 5 0, .add 3 0, .del 3], c.ino ≠ 0 := by
    intro c hc
    simp only [List.mem_cons, List.not_mem_nil, or_false] at hc
    rcases hc with rfl | rfl | rfl | rfl <;> decide
  exact ⟨(lists_mirror rfl rfl hcalls).1, by decide⟩

end Pmfs.Namei.TruncList
