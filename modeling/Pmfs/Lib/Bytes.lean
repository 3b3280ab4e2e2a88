import Mathlib.Data.List.Basic
import Mathlib.Algebra.Order.Ring.Nat
import Mathlib.Tactic.Common

/-! # Bytes in memory

A memory is a function from addresses to bytes. `le m a n` is the little-endian number in the `n`
bytes at `a`, `put` stores one, `bytes` and `putBytes` read and store a run of bytes. A read after a
store is either what was stored (`le_put`, `bytes_putBytes`) or, when the two are disjoint, what was
there before (`le_congr`, `bytes_congr` with `put_of_not_mem` and `putBytes_of_not_mem`). `copy`
takes its bytes from another memory, and `clear` stores zeros. -/

namespace Pmfs.Lib.Bytes

variable {m m' : ℕ → UInt8} {a n v i : ℕ} {l : List UInt8}

/-- The number in the `n` bytes at `a`, least significant byte first. -/
def le (m : ℕ → UInt8) (a : ℕ) : ℕ → ℕ
  | 0 => 0
  | n + 1 => (m a).toNat + 256 * le m (a + 1) n

/-- The number `v` stored in the `n` bytes at `a`. -/
def put (m : ℕ → UInt8) (a n v : ℕ) : ℕ → UInt8 := fun i =>
  if a ≤ i ∧ i < a + n then UInt8.ofNat (v / 256 ^ (i - a)) else m i

/-- The `n` bytes at `a`. -/
def bytes (m : ℕ → UInt8) (a n : ℕ) : List UInt8 := (List.range n).map fun i => m (a + i)

/-- The bytes `l` stored at `a`. -/
def putBytes (m : ℕ → UInt8) (a : ℕ) (l : List UInt8) : ℕ → UInt8 := fun i =>
  if a ≤ i then (l[i - a]?).getD (m i) else m i

/-- The first `n` bytes of `src` stored at `a`. -/
def copy (m : ℕ → UInt8) (a : ℕ) (src : ℕ → UInt8) (n : ℕ) : ℕ → UInt8 := fun i =>
  if a ≤ i ∧ i < a + n then src (i - a) else m i

/-- Zeros stored in the `n` bytes at `a`. -/
def clear (m : ℕ → UInt8) (a n : ℕ) : ℕ → UInt8 := copy m a (fun _ => 0) n

/-! ### Numbers -/

theorem le_congr : ∀ {n a : ℕ}, (∀ i, a ≤ i → i < a + n → m' i = m i) → le m' a n = le m a n
  | 0, _, _ => rfl
  | n + 1, a, h => by
    have htail : le m' (a + 1) n = le m (a + 1) n := by
      refine le_congr fun i h1 h2 => h i ?_ ?_ <;> omega
    rw [le, le, h a le_rfl (by omega), htail]

theorem le_lt : ∀ {n a : ℕ}, le m a n < 256 ^ n
  | 0, _ => by simp [le]
  | n + 1, a => by
    have htail : le m (a + 1) n < 256 ^ n := le_lt
    have hhead := (m a).toNat_lt
    rw [le, Nat.pow_succ]
    omega

theorem eq_of_le_eq : ∀ {n a b : ℕ}, le m' a n = le m b n → ∀ i < n, m' (a + i) = m (b + i)
  | 0, _, _, _, i, hi => by omega
  | n + 1, a, b, h, i, hi => by
    have ha := (m' a).toNat_lt
    have hb := (m b).toNat_lt
    rw [le, le] at h
    rcases i with - | i
    · exact UInt8.toNat_inj.mp (show (m' a).toNat = (m b).toNat by omega)
    · have htail := eq_of_le_eq (show le m' (a + 1) n = le m (b + 1) n by omega) i (by omega)
      rwa [Nat.add_assoc, Nat.add_assoc, Nat.add_comm 1 i] at htail

theorem put_of_not_mem (h : i < a ∨ a + n ≤ i) : put m a n v i = m i := by
  unfold put
  rw [if_neg (by omega)]

theorem put_of_mem (h1 : a ≤ i) (h2 : i < a + n) :
    put m a n v i = UInt8.ofNat (v / 256 ^ (i - a)) := by
  unfold put
  rw [if_pos ⟨h1, h2⟩]

/-- Reading back the rest of a number that was stored from `j` bytes before. -/
theorem le_put_tail {k : ℕ} : ∀ {n j : ℕ}, j + n = k →
    le (put m a k v) (a + j) n = v / 256 ^ j % 256 ^ n
  | 0, _, _ => by simp [le, Nat.mod_one]
  | n + 1, j, h => by
    rw [le, put_of_mem (by omega) (by omega), show a + j + 1 = a + (j + 1) by omega,
      le_put_tail (by omega), show a + j - a = j by omega, UInt8.toNat_ofNat']
    have hdiv : v / 256 ^ (j + 1) = v / 256 ^ j / 256 := by
      rw [Nat.pow_succ, Nat.div_div_eq_div_mul]
    rw [hdiv, show 2 ^ 8 = 256 from rfl, Nat.pow_succ', Nat.mod_mul]

theorem le_put : le (put m a n v) a n = v % 256 ^ n := by
  have h := le_put_tail (m := m) (a := a) (v := v) (k := n) (n := n) (j := 0) (Nat.zero_add n)
  rwa [Nat.add_zero, Nat.pow_zero, Nat.div_one] at h

theorem le_put_of_lt (h : v < 256 ^ n) : le (put m a n v) a n = v := by
  rw [le_put, Nat.mod_eq_of_lt h]

theorem le_put_of_disjoint {b k : ℕ} (h : b + k ≤ a ∨ a + n ≤ b) :
    le (put m a n v) b k = le m b k :=
  le_congr fun i h1 h2 => put_of_not_mem (by omega)

/-! ### Runs of bytes -/

theorem take_bytes {N : ℕ} (h : n ≤ N) : (bytes m a N).take n = bytes m a n := by
  unfold bytes
  rw [← List.map_take, List.take_range, Nat.min_eq_left h]

theorem length_bytes : (bytes m a n).length = n := by
  simp [bytes]

theorem bytes_congr (h : ∀ i, a ≤ i → i < a + n → m' i = m i) : bytes m' a n = bytes m a n := by
  refine List.map_congr_left fun i hi => h (a + i) (by omega) ?_
  have := List.mem_range.mp hi
  omega

theorem bytes_add (m : ℕ → UInt8) (a n k : ℕ) :
    bytes m a (n + k) = bytes m a n ++ bytes m (a + n) k := by
  unfold bytes
  rw [List.range_add, List.map_append, List.map_map]
  congr 2
  funext i
  rw [Function.comp_apply, Nat.add_assoc]

theorem putBytes_of_not_mem (h : i < a ∨ a + l.length ≤ i) : putBytes m a l i = m i := by
  unfold putBytes
  split_ifs with ha
  · rw [List.getElem?_eq_none (by omega), Option.getD_none]
  · rfl

theorem bytes_putBytes : bytes (putBytes m a l) a l.length = l := by
  refine List.ext_getElem length_bytes fun i h1 h2 => ?_
  simp [bytes, putBytes, h2]

theorem bytes_putBytes_of_disjoint {b k : ℕ} (h : b + k ≤ a ∨ a + l.length ≤ b) :
    bytes (putBytes m a l) b k = bytes m b k :=
  bytes_congr fun i h1 h2 => putBytes_of_not_mem (by omega)

theorem le_putBytes_of_disjoint {b k : ℕ} (h : b + k ≤ a ∨ a + l.length ≤ b) :
    le (putBytes m a l) b k = le m b k :=
  le_congr fun i h1 h2 => putBytes_of_not_mem (by omega)

theorem bytes_put_of_disjoint {b k : ℕ} (h : b + k ≤ a ∨ a + n ≤ b) :
    bytes (put m a n v) b k = bytes m b k :=
  bytes_congr fun i h1 h2 => put_of_not_mem (by omega)

/-! ### Copies -/

theorem copy_of_not_mem {src : ℕ → UInt8} (h : i < a ∨ a + n ≤ i) : copy m a src n i = m i := by
  unfold copy
  rw [if_neg (by omega)]

theorem copy_of_mem {src : ℕ → UInt8} (h1 : a ≤ i) (h2 : i < a + n) :
    copy m a src n i = src (i - a) := by
  unfold copy
  rw [if_pos ⟨h1, h2⟩]

theorem copy_copy (m src : ℕ → UInt8) (a n k : ℕ) :
    copy (copy m a src n) (a + n) (fun i => src (n + i)) k = copy m a src (n + k) := by
  funext i
  by_cases h1 : a + n ≤ i ∧ i < a + n + k
  · rw [copy_of_mem h1.1 h1.2, copy_of_mem (by omega) (by omega)]
    congr 1
    omega
  · rw [copy_of_not_mem (by omega)]
    by_cases h2 : a ≤ i ∧ i < a + n
    · rw [copy_of_mem h2.1 h2.2, copy_of_mem (by omega) (by omega)]
    · rw [copy_of_not_mem (by omega), copy_of_not_mem (by omega)]

end Pmfs.Lib.Bytes
