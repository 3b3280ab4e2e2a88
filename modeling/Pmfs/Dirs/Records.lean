import Pmfs.Dirs.Model
import Mathlib.Data.Multiset.Basic

/-! # A block of a directory as a list of records

`Seg b o rs p` says that the bytes of `b` from `o` to `p` are the records `rs`, one after the other.
On a well-formed block the loops of the source go along this list: `search_found`, `search_none` for
`pmfs_search_dirblock`, `room_found`, `room_none` for the search for room. Adding and removing an
entry are changes of the list (`seg_insert`, `seg_merge`, `seg_free`). -/

namespace Pmfs.Dirs.Records

open Lib.Bytes Dirs.Model

/-- A record. -/
structure Rec where
  ino : ℕ
  len : ℕ
  name : Name
deriving DecidableEq

/-- The record at `o`. -/
def recAt (b : Blk) (o : ℕ) : Rec := ⟨deIno b o, deLen b o, deName b o⟩

/-- The length of a record is a multiple of 4 and leaves room for its name. -/
def Rec.Ok (r : Rec) : Prop := r.len % 4 = 0 ∧ pmfsDirRecLen r.name.length ≤ r.len

/-- The bytes from `o` to `p` are the records `rs`. -/
def Seg (b : Blk) : ℕ → List Rec → ℕ → Prop
  | o, [], p => o = p
  | o, r :: rs, p => recAt b o = r ∧ r.Ok ∧ Seg b (o + r.len) rs p

instance (r : Rec) : Decidable r.Ok := inferInstanceAs (Decidable (_ ∧ _))

instance decSeg (b : Blk) (p : ℕ) : ∀ (rs : List Rec) (o : ℕ), Decidable (Seg b o rs p)
  | [], o => inferInstanceAs (Decidable (o = p))
  | r :: rs, o =>
    have := decSeg b p rs (o + r.len)
    inferInstanceAs (Decidable (recAt b o = r ∧ r.Ok ∧ Seg b (o + r.len) rs p))

variable {b b' : Blk} {o p m : ℕ} {r q : Rec} {rs rs' pre post : List Rec} {name : Name} {ino : ℕ}

theorem recLen_ge (n : ℕ) : n + 12 ≤ pmfsDirRecLen n := by
  unfold pmfsDirRecLen
  omega

theorem recLen_pos {n : ℕ} : 0 < pmfsDirRecLen n := (Nat.succ_pos _).trans_le (recLen_ge n)

theorem recLen_mod (n : ℕ) : pmfsDirRecLen n % 4 = 0 := Nat.mul_mod_left _ _

theorem recLen_le {n : ℕ} (h : n ≤ 255) : pmfsDirRecLen n ≤ 268 := by
  unfold pmfsDirRecLen
  omega

theorem Rec.Ok.len_pos (h : r.Ok) : 12 ≤ r.len := by
  have := recLen_ge r.name.length
  have := h.2
  omega

theorem length_deName : (deName b o).length = deNameLen b o := length_bytes

/-- A record only depends on the bytes up to the end of its name. -/
theorem recAt_congr (h : ∀ i, o ≤ i → i < o + 12 + (recAt b o).name.length → b' i = b i) :
    recAt b' o = recAt b o := by
  have hname : (recAt b o).name.length = deNameLen b o := length_deName
  rw [hname] at h
  have h1 : deIno b' o = deIno b o := le_congr fun i hi1 hi2 => h i hi1 (by omega)
  have h2 : deLen b' o = deLen b o := le_congr fun i hi1 hi2 => h i (by omega) (by omega)
  have h3 : deNameLen b' o = deNameLen b o := le_congr fun i hi1 hi2 => h i (by omega) (by omega)
  have h4 : deName b' o = deName b o := by
    unfold deName
    rw [h3]
    exact bytes_congr fun i hi1 hi2 => h i (by omega) (by omega)
  unfold recAt
  rw [h1, h2, h4]

theorem Seg.le : ∀ {rs : List Rec} {o : ℕ}, Seg b o rs p → o ≤ p
  | [], _, h => by
    obtain rfl : _ = p := h
    exact le_rfl
  | r :: rs, o, h => (Nat.le_add_right o r.len).trans h.2.2.le

theorem Seg.congr : ∀ {rs : List Rec} {o : ℕ}, Seg b o rs p →
    (∀ i, o ≤ i → i < p → b' i = b i) → Seg b' o rs p
  | [], _, h, _ => h
  | r :: rs, o, h, heq => by
    obtain ⟨rfl, hok, hrest⟩ := h
    have hle := hrest.le
    have hroom := recLen_ge (recAt b o).name.length
    have hlen := hok.2
    refine ⟨recAt_congr fun i h1 h2 => heq i h1 (by omega), hok, ?_⟩
    exact hrest.congr fun i h1 h2 => heq i (by omega) h2

theorem seg_append : ∀ {rs : List Rec} {o : ℕ},
    Seg b o (rs ++ rs') p ↔ ∃ m, Seg b o rs m ∧ Seg b m rs' p
  | [], o => by
    constructor
    · exact fun h => ⟨o, rfl, h⟩
    · rintro ⟨m, rfl, h⟩
      exact h
  | r :: rs, o => by
    simp only [List.cons_append, Seg, seg_append]
    constructor
    · rintro ⟨h1, h2, m, h3, h4⟩
      exact ⟨m, ⟨h1, h2, h3⟩, h4⟩
    · rintro ⟨m, ⟨h1, h2, h3⟩, h4⟩
      exact ⟨h1, h2, m, h3, h4⟩

theorem Seg.length_le : ∀ {rs : List Rec} {o : ℕ}, Seg b o rs p → o + 12 * rs.length ≤ p
  | [], _, h => by
    obtain rfl : _ = p := h
    simp
  | r :: rs, o, h => by
    have := h.2.2.length_le
    have := h.2.1.len_pos
    rw [List.length_cons]
    omega

/-! ### Searching -/

/-- The record is in use for `name`. -/
def Rec.Is (r : Rec) (name : Name) : Prop := r.ino ≠ 0 ∧ r.name = name

theorem match_iff : pmfsMatch name b o = true ↔ (recAt b o).Is name := by
  unfold pmfsMatch Rec.Is recAt deName
  rw [Bool.and_eq_true, Bool.and_eq_true, beq_iff_eq, bne_iff_ne, beq_iff_eq]
  constructor
  · rintro ⟨⟨h1, h2⟩, h3⟩
    exact ⟨h2, by rw [← h1]; exact h3⟩
  · rintro ⟨h2, h3⟩
    have h1 : deNameLen b o = name.length := by rw [← h3, length_bytes]
    exact ⟨⟨h1.symm, h2⟩, by rw [← h1]; exact h3⟩

theorem check_none (hok : (recAt b o).Ok) (hlen : 1 ≤ (recAt b o).name.length)
    (hend : o + (recAt b o).len ≤ 4096) : pmfsCheckDirEntry b o = none := by
  have hname : (recAt b o).name.length = deNameLen b o := length_deName
  have h1 : deLen b o % 4 = 0 := hok.1
  have h2 : pmfsDirRecLen (deNameLen b o) ≤ deLen b o := hname ▸ hok.2
  have h3 : o + deLen b o ≤ 4096 := hend
  have h4 : pmfsDirRecLen 1 ≤ pmfsDirRecLen (deNameLen b o) := by
    rw [hname] at hlen
    unfold pmfsDirRecLen
    omega
  unfold pmfsCheckDirEntry
  rw [if_neg (by omega), if_neg (by omega), if_neg (by omega), if_neg (by omega)]

/-- The place of the last record of `pre`, or `d` without one. -/
def lastAt (d : Option ℕ) : ℕ → List Rec → Option ℕ
  | _, [] => d
  | o, r :: rs => lastAt (some o) (o + r.len) rs

theorem lastAt_concat : ∀ {pre : List Rec} {o : ℕ} {d : Option ℕ}, Seg b o pre m →
    lastAt d o (pre ++ [q]) = some m
  | [], o, d, h => by
    obtain rfl : o = m := h
    rfl
  | r :: pre, o, d, h => by
    rw [List.cons_append, lastAt]
    exact lastAt_concat h.2.2

/-- The search ends at the first record for the name. -/
theorem search_found (check : Bool) (hname : 1 ≤ name.length) : ∀ {pre : List Rec} {fuel o : ℕ}
    {d : Option ℕ}, Seg b o pre m → (∀ r ∈ pre, ¬ r.Is name) → Seg b m (r :: post) 4096 →
    r.Is name → pre.length < fuel →
    searchLoop name b check fuel o d = .found m (lastAt d o pre)
  | [], fuel + 1, o, d, h, _, hr, his, _ => by
    obtain rfl : o = m := h
    obtain ⟨rfl, hok, hrest⟩ := hr
    have hle := hrest.le
    have hpos := hok.len_pos
    have hfit : o + name.length ≤ 4096 := by
      have := recLen_ge (recAt b o).name.length
      have := hok.2
      rw [his.2] at *
      omega
    have hcheck : pmfsCheckDirEntry b o = none := check_none hok (by rw [his.2]; exact hname) hle
    rw [searchLoop, if_pos (by omega), if_pos ⟨hfit, match_iff.mpr his⟩, hcheck]
    simp [lastAt]
  | q :: pre, fuel + 1, o, d, h, hpre, hr, his, hfuel => by
    obtain ⟨rfl, hok, hrest⟩ := h
    have hle := hrest.le.trans hr.le
    have hpos := hok.len_pos
    have hlen : deLen b o = (recAt b o).len := rfl
    have hno : ¬ (o + name.length ≤ 4096 ∧ pmfsMatch name b o = true) := fun hcon =>
      hpre _ List.mem_cons_self (match_iff.mp hcon.2)
    rw [searchLoop, if_pos (by omega), if_neg hno, if_neg (by omega), hlen, lastAt]
    exact search_found check hname hrest (fun r hr => hpre r (List.mem_cons_of_mem _ hr)) hr his
      (by rw [List.length_cons] at hfuel; omega)

/-- The search finds nothing when no record is for the name. -/
theorem search_none {check : Bool} : ∀ {rs : List Rec} {fuel o : ℕ} {d : Option ℕ},
    Seg b o rs 4096 → (∀ r ∈ rs, ¬ r.Is name) → rs.length < fuel →
    searchLoop name b check fuel o d = .notFound
  | [], fuel + 1, o, d, h, _, _ => by
    obtain rfl : o = 4096 := h
    rw [searchLoop, if_neg (by omega)]
  | r :: rs, fuel + 1, o, d, h, hrs, hfuel => by
    obtain ⟨rfl, hok, hrest⟩ := h
    have hle := hrest.le
    have hpos := hok.len_pos
    have hlen : deLen b o = (recAt b o).len := rfl
    have hno : ¬ (o + name.length ≤ 4096 ∧ pmfsMatch name b o = true) := fun hcon =>
      hrs _ List.mem_cons_self (match_iff.mp hcon.2)
    rw [searchLoop, if_pos (by omega), if_neg hno, if_neg (by omega), hlen]
    exact search_none hrest (fun r hr => hrs r (List.mem_cons_of_mem _ hr))
      (by rw [List.length_cons] at hfuel; omega)

/-! ### Room for a record -/

/-- The record has room for `reclen` more bytes. -/
def Rec.Fits (r : Rec) (reclen : ℕ) : Prop :=
  (r.ino ≠ 0 ∧ pmfsDirRecLen r.name.length + reclen ≤ r.len) ∨ (r.ino = 0 ∧ reclen ≤ r.len)

theorem fits_iff {reclen : ℕ} : (recAt b o).Fits reclen ↔
    (deIno b o ≠ 0 ∧ pmfsDirRecLen (deNameLen b o) + reclen ≤ deLen b o) ∨
      (deIno b o = 0 ∧ reclen ≤ deLen b o) := by
  unfold Rec.Fits recAt
  rw [length_deName]

theorem Rec.Fits.le {reclen : ℕ} (h : r.Fits reclen) : reclen ≤ r.len := by
  rcases h with h | h <;> omega

theorem room_found {reclen fuel : ℕ} (h : Seg b o pre m) (hpre : ∀ r ∈ pre, ¬ r.Fits reclen)
    (hr : Seg b m (r :: post) 4096) (hfit : r.Fits reclen) (hfuel : pre.length < fuel) :
    findRoom b reclen fuel o = some (some m) := by
  have hmax : m + r.len ≤ 4096 := hr.2.2.le
  have hle := hfit.le
  induction pre generalizing fuel o with
  | nil =>
    obtain rfl : o = m := h
    obtain ⟨fuel, rfl⟩ := Nat.exists_eq_succ_of_ne_zero (Nat.ne_of_gt hfuel)
    obtain ⟨rfl, -⟩ := hr
    rw [findRoom, if_pos (by omega), if_pos (fits_iff.mp hfit)]
  | cons q pre ih =>
    obtain ⟨fuel, rfl⟩ := Nat.exists_eq_succ_of_ne_zero (Nat.ne_of_gt (Nat.zero_lt_of_lt hfuel))
    obtain ⟨rfl, hok, hrest⟩ := h
    have hnext := hrest.le
    have hno : ¬ (recAt b o).Fits reclen := hpre _ List.mem_cons_self
    rw [findRoom, if_pos (by omega), if_neg fun hcon => hno (fits_iff.mpr hcon)]
    exact ih hrest (fun r hr => hpre r (List.mem_cons_of_mem _ hr)) (Nat.lt_of_succ_lt_succ hfuel)

theorem room_none {reclen fuel : ℕ} (hpos : 0 < reclen) (h : Seg b o rs 4096)
    (hrs : ∀ r ∈ rs, ¬ r.Fits reclen) (hfuel : rs.length < fuel) :
    findRoom b reclen fuel o = some none := by
  induction rs generalizing fuel o with
  | nil =>
    obtain rfl : o = 4096 := h
    obtain ⟨fuel, rfl⟩ := Nat.exists_eq_succ_of_ne_zero (Nat.ne_of_gt hfuel)
    rw [findRoom, if_neg (by omega)]
  | cons r rs ih =>
    obtain ⟨fuel, rfl⟩ := Nat.exists_eq_succ_of_ne_zero (Nat.ne_of_gt (Nat.zero_lt_of_lt hfuel))
    obtain ⟨rfl, hok, hrest⟩ := h
    have hno : ¬ (recAt b o).Fits reclen := hrs _ List.mem_cons_self
    rw [findRoom]
    by_cases hroom : o + reclen ≤ 4096
    · rw [if_pos hroom, if_neg fun hcon => hno (fits_iff.mpr hcon)]
      exact ih hrest (fun r hr => hrs r (List.mem_cons_of_mem _ hr)) (Nat.lt_of_succ_lt_succ hfuel)
    · rw [if_neg hroom]

/-! ### Changes of a block -/

theorem seg_replace {mid : List Rec} {s e : ℕ} (h1 : Seg b s pre o) (h2 : Seg b p post e)
    (hsame : ∀ i, i < o ∨ p ≤ i → b' i = b i) (hmid : Seg b' o mid p) :
    Seg b' s (pre ++ (mid ++ post)) e := by
  refine seg_append.mpr ⟨o, h1.congr fun i _ h => hsame i (Or.inl h), seg_append.mpr ⟨p, hmid, ?_⟩⟩
  exact h2.congr fun i h _ => hsame i (Or.inr h)

/-- A field before the name is written, but not the length of the name. -/
theorem recAt_put {a n v : ℕ} (ha : a + n ≤ o + 12)
    (hname : deNameLen (put b a n v) o = deNameLen b o) :
    recAt (put b a n v) o = ⟨deIno (put b a n v) o, deLen (put b a n v) o, deName b o⟩ := by
  have hbytes : deName (put b a n v) o = deName b o := by
    unfold deName
    rw [hname]
    exact bytes_congr fun i h _ => put_of_not_mem (by omega)
  unfold recAt
  rw [hbytes]

theorem recAt_putLen {v : ℕ} (hv : v < 65536) :
    recAt (put b (o + 8) 2 v) o = { recAt b o with len := v } := by
  have h1 : deIno (put b (o + 8) 2 v) o = deIno b o := le_put_of_disjoint (by omega)
  have h2 : deLen (put b (o + 8) 2 v) o = v := le_put_of_lt (by omega)
  rw [recAt_put (by omega) (le_put_of_disjoint (by omega)), h1, h2]
  rfl

theorem recAt_putIno {v : ℕ} (hv : v < 256 ^ 8) :
    recAt (put b o 8 v) o = { recAt b o with ino := v } := by
  have h1 : deIno (put b o 8 v) o = v := le_put_of_lt hv
  have h2 : deLen (put b o 8 v) o = deLen b o := le_put_of_disjoint (by omega)
  rw [recAt_put (by omega) (le_put_of_disjoint (by omega)), h1, h2]
  rfl

theorem recAt_putType {v : ℕ} : recAt (put b (o + 11) 1 v) o = recAt b o := by
  have h1 : deIno (put b (o + 11) 1 v) o = deIno b o := le_put_of_disjoint (by omega)
  have h2 : deLen (put b (o + 11) 1 v) o = deLen b o := le_put_of_disjoint (by omega)
  rw [recAt_put (by omega) (le_put_of_disjoint (by omega)), h1, h2]
  rfl

theorem fillRecord_of_not_mem {i : ℕ} (h : i < o ∨ o + 12 + name.length ≤ i) :
    fillRecord b o ino name i = b i := by
  unfold fillRecord
  rw [putBytes_of_not_mem (by omega), put_of_not_mem (by omega), put_of_not_mem (by omega)]

theorem recAt_fillRecord (hino : ino < 256 ^ 8) (hname : name.length ≤ 255) :
    recAt (fillRecord b o ino name) o = ⟨ino, deLen b o, name⟩ := by
  have hbytes : ∀ a n, a + n ≤ o + 12 → le (fillRecord b o ino name) a n =
      le (put (put b o 8 ino) (o + 10) 1 name.length) a n := by
    intro a n h
    exact le_congr fun i _ h2 => putBytes_of_not_mem (by omega)
  have h1 : deIno (fillRecord b o ino name) o = ino := by
    unfold deIno
    rw [hbytes _ _ (by omega), le_put_of_disjoint (by omega), le_put_of_lt hino]
  have h2 : deLen (fillRecord b o ino name) o = deLen b o := by
    unfold deLen
    rw [hbytes _ _ (by omega), le_put_of_disjoint (by omega), le_put_of_disjoint (by omega)]
  have h3 : deNameLen (fillRecord b o ino name) o = name.length := by
    unfold deNameLen
    rw [hbytes _ _ (by omega), le_put_of_lt (by omega)]
  have h4 : deName (fillRecord b o ino name) o = name := by
    unfold deName
    rw [h3]
    exact bytes_putBytes
  unfold recAt
  rw [h1, h2, h4]

/-- What a new entry makes of a record with room for it. -/
def Rec.insert (r : Rec) (ino : ℕ) (name : Name) : List Rec :=
  if r.ino ≠ 0 then
    [{ r with len := pmfsDirRecLen r.name.length },
      ⟨ino, r.len - pmfsDirRecLen r.name.length, name⟩]
  else [⟨ino, r.len, name⟩]

theorem seg_insert (hr : recAt b o = r) (hok : r.Ok) (hlen : r.len < 65536)
    (hfit : r.Fits (pmfsDirRecLen name.length))
    (hnew : recAt b' (splitRecord b o).1 = ⟨ino, deLen (splitRecord b o).2 (splitRecord b o).1,
    name⟩) (hout : ∀ i, i < (splitRecord b o).1 ∨ (splitRecord b o).1 + 12 + name.length ≤ i →
      b' i = (splitRecord b o).2 i) :
    Seg b' o (r.insert ino name) (o + r.len) ∧ ∀ i, i < o ∨ o + r.len ≤ i → b' i = b i := by
  have hroom := recLen_ge name.length
  have hdeIno : deIno b o = r.ino := by rw [← hr]; rfl
  have hdeLen : deLen b o = r.len := by rw [← hr]; rfl
  have hdeName : deNameLen b o = r.name.length := by rw [← hr]; exact length_deName.symm
  unfold splitRecord at hnew hout
  unfold Rec.insert
  rw [hdeIno] at hnew hout
  by_cases hlive : r.ino ≠ 0
  · have hfit := (hfit.resolve_right fun h => hlive h.1).2
    rw [if_pos hlive] at hnew hout ⊢
    dsimp only at hnew hout
    rw [hdeLen, hdeName] at hnew hout
    have hold := recLen_ge r.name.length
    generalize hn : pmfsDirRecLen r.name.length = nlen at *
    have hmod : nlen % 4 = 0 := hn ▸ recLen_mod _
    set b1 := put b (o + nlen + 8) 2 (r.len - nlen) with hb1
    set b2 := put b1 (o + 8) 2 nlen with hb2
    have hr1 : recAt b1 o = r := by
      rw [← hr]
      refine recAt_congr fun i h1 h2 => put_of_not_mem ?_
      rw [hr] at h2
      omega
    have hr2 : recAt b2 o = { r with len := nlen } := by rw [hb2, recAt_putLen (by omega), hr1]
    have hfirst : recAt b' o = { r with len := nlen } := by
      rw [← hr2]
      refine recAt_congr fun i h1 h2 => hout i ?_
      rw [hr2] at h2
      dsimp only at h2
      omega
    have hlen2 : deLen b2 (o + nlen) = r.len - nlen := by
      unfold deLen
      rw [hb2, le_put_of_disjoint (by omega), hb1, le_put_of_lt (by omega)]
    rw [hlen2] at hnew
    have hmod' := hok.1
    refine ⟨⟨hfirst, ⟨hmod, hn.le⟩, hnew, ⟨?_, ?_⟩, ?_⟩, fun i hi => ?_⟩
    · dsimp only
      omega
    · dsimp only
      omega
    · change o + nlen + (r.len - nlen) = o + r.len
      omega
    · rw [hout i (by omega), hb2, put_of_not_mem (by omega), hb1, put_of_not_mem (by omega)]
  · have hfit := (hfit.resolve_left fun h => hlive h.1).2
    rw [if_neg hlive] at hnew hout ⊢
    rw [hdeLen] at hnew
    exact ⟨⟨hnew, ⟨hok.1, hfit⟩, rfl⟩, fun i hi => hout i (by omega)⟩

theorem seg_merge {b : Blk} (hq : recAt b o = q) (hqok : q.Ok)
    (hr : recAt b (o + q.len) = r) (hrok : r.Ok) (hlen : q.len + r.len < 65536)
    (hb' : b' = dropRecord b (o + q.len) (some o)) : Seg b' o [{ q with len := q.len + r.len }]
    (o + q.len + r.len) ∧
      ∀ i, i < o ∨ o + q.len + r.len ≤ i → b' i = b i := by
  have hq' : deLen b o = q.len := by rw [← hq]; rfl
  have hr' : deLen b (o + q.len) = r.len := by rw [← hr]; rfl
  have hb : b' = put b (o + 8) 2 (q.len + r.len) := by rw [hb', dropRecord, hq', hr']
  have hpos := hqok.len_pos
  have h1 := hqok.1
  have h2 := hrok.1
  have h3 := hqok.2
  refine ⟨⟨?_, ⟨?_, ?_⟩, ?_⟩, fun i hi => ?_⟩
  · rw [hb, recAt_putLen hlen, hq]
  · dsimp only
    omega
  · dsimp only
    omega
  · change o + (q.len + r.len) = o + q.len + r.len
    omega
  · rw [hb, put_of_not_mem (by omega)]

theorem seg_free (hr : recAt b o = r) (hok : r.Ok) (hb' : b' = dropRecord b o none) :
    Seg b' o [{ r with ino := 0 }] (o + r.len) ∧ ∀ i, i < o ∨ o + r.len ≤ i → b' i = b i := by
  have hb : b' = put b o 8 0 := hb'
  have hpos := hok.len_pos
  refine ⟨⟨?_, hok, rfl⟩, fun i hi => ?_⟩
  · rw [hb, recAt_putIno (by norm_num), hr]
  · rw [hb, put_of_not_mem (by omega)]

end Pmfs.Dirs.Records
