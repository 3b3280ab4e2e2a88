import Pmfs.Dirs.Spec
import Mathlib.Logic.Relation

/-! # Listing a directory while it changes

`pmfs_readdir` keeps a byte offset from one call to the next. `Cursor P b off` says where such an
offset may stand in a block: the bytes from `off` on are records that are no longer part of the
block, up to a place `m` where a record of the block begins, and every record of the block that
begins before `m` has its header and name before `off`. Reading a record, removing an entry and
adding one whose record does not lie across `off` keep this (`Cursor.read`, `Cursor.drop`,
`Cursor.insert`). -/

namespace Pmfs.Dirs.Readdir

open Lib.Bytes Dirs.Model Dirs.Records Dirs.Spec

variable {b b' : Blk} {d d' : Dir} {o p m x s off : ℕ} {r q : Rec} {rs pre post stale : List Rec}
  {name : Name} {ino : ℕ} {P : ℕ → Rec → Prop}

/-! ### Where the records of a block begin -/

/-- A record begins at `o`, or the block ends there. -/
def Start (b : Blk) (o : ℕ) : Prop := ∃ pre post, Seg b 0 pre o ∧ Seg b o post 4096

/-- The places are found along the records of the block. -/
theorem start_iff_take : Start b o ↔ ∃ i ≤ (records b).length,
    Seg b 0 ((records b).take i) o ∧ Seg b o ((records b).drop i) 4096 := by
  constructor
  · rintro ⟨pre, post, h1, h2⟩
    have heq : records b = pre ++ post := records_eq (seg_append.mpr ⟨o, h1, h2⟩)
    refine ⟨pre.length, by rw [heq, List.length_append]; exact Nat.le_add_right _ _, ?_, ?_⟩
    · rw [heq, List.take_left]
      exact h1
    · rw [heq, List.drop_left]
      exact h2
  · rintro ⟨i, -, h1, h2⟩
    exact ⟨_, _, h1, h2⟩

instance (b : Blk) (o : ℕ) : Decidable (Start b o) := decidable_of_iff _ start_iff_take.symm

theorem start_zero (h : Wf b) : Start b 0 := ⟨[], records b, rfl, h⟩

theorem start_of_mem (hwf : Wf b) (hr : r ∈ records b) : ∃ o, Start b o ∧
    o < 4096 ∧ recAt b o = r := by
  obtain ⟨pre, post, heq⟩ := List.append_of_mem hr
  unfold Wf at hwf
  rw [heq] at hwf
  obtain ⟨o, h1, h2⟩ := seg_append.mp hwf
  have hle := h2.2.2.le
  have hpos := h2.2.1.len_pos
  exact ⟨o, ⟨pre, r :: post, h1, h2⟩, by omega, h2.1⟩

theorem Start.mem (h : Start b o) (hlt : o < 4096) : recAt b o ∈ records b := by
  obtain ⟨pre, post, h1, h2⟩ := h
  cases post with
  | nil => exact absurd h2 (Nat.ne_of_lt hlt)
  | cons r post =>
    rw [records_eq (seg_append.mpr ⟨o, h1, h2⟩), h2.1]
    exact List.mem_append_right pre List.mem_cons_self

theorem Start.le (h : Start b o) : o ≤ 4096 := by
  obtain ⟨_, _, -, h⟩ := h
  exact h.le

theorem Start.ok (h : Start b o) (hlt : o < 4096) : (recAt b o).Ok ∧
    Start b (o + (recAt b o).len) := by
  obtain ⟨pre, post, h1, h2⟩ := h
  cases post with
  | nil => exact absurd h2 (Nat.ne_of_lt hlt)
  | cons r post =>
    obtain ⟨rfl, hok, hrest⟩ := h2
    exact ⟨hok, pre ++ [recAt b o], post, seg_append.mpr ⟨o, h1, rfl, hok, rfl⟩, hrest⟩

/-- Of two places on one chain of records, the records lead from the first to the second. -/
theorem seg_between : ∀ {pre pre' : List Rec} {a : ℕ}, Seg b a pre s → Seg b a pre' x → s ≤ x →
    ∃ mid, Seg b s mid x
  | [], pre', a, h, h', _ => by
    obtain rfl : a = s := h
    exact ⟨pre', h'⟩
  | r :: pre, [], a, h, h', hle => by
    obtain rfl : a = x := h'
    have hpos := h.2.1.len_pos
    have := h.2.2.le
    omega
  | r :: pre, r' :: pre', a, h, h', hle => by
    obtain rfl : r = r' := h.1.symm.trans h'.1
    exact seg_between h.2.2 h'.2.2 hle

theorem Start.between (hs : Start b s) (hx : Start b x) (hle : s ≤ x) : ∃ mid, Seg b s mid x := by
  obtain ⟨pre, -, h1, -⟩ := hs
  obtain ⟨pre', -, h2, -⟩ := hx
  exact seg_between h1 h2 hle

theorem Start.next (hs : Start b s) (hx : Start b x) (hlt : s < x) : s + (recAt b s).len ≤ x := by
  obtain ⟨mid, h⟩ := hs.between hx hlt.le
  cases mid with
  | nil => exact absurd h (Nat.ne_of_lt hlt)
  | cons r mid =>
    obtain ⟨rfl, -, hrest⟩ := h
    exact hrest.le

/-- The bytes change between two places where records begin, before and after. -/
structure Edit (b b' : Blk) (o p : ℕ) : Prop where
  same : ∀ i, i < o ∨ p ≤ i → b' i = b i
  fst : Start b o
  snd : Start b p
  fst' : Start b' o
  snd' : Start b' p

theorem Edit.symm (h : Edit b b' o p) : Edit b' b o p :=
  ⟨fun i hi => (h.same i hi).symm, h.fst', h.snd', h.fst, h.snd⟩

theorem edit_of_seg {mid : List Rec} (hsame : ∀ i, i < o ∨ p ≤ i → b' i = b i) (ho : Start b o)
    (hp : Start b p) (hmid : Seg b' o mid p) : Edit b b' o p := by
  have ⟨pre, _, hpre, _⟩ := ho
  have ⟨_, post, _, hpost⟩ := hp
  have h1 : Seg b' 0 pre o := hpre.congr fun i _ hi => hsame i (Or.inl hi)
  have h2 : Seg b' p post 4096 := hpost.congr fun i hi _ => hsame i (Or.inr hi)
  exact ⟨hsame, ho, hp, ⟨pre, mid ++ post, h1, seg_append.mpr ⟨p, hmid, h2⟩⟩,
    ⟨pre ++ mid, post, seg_append.mpr ⟨o, h1, hmid⟩, h2⟩⟩

theorem Edit.start (h : Edit b b' o p) (hx : Start b x) (hout : x ≤ o ∨ p ≤ x) : Start b' x := by
  rcases hout with hle | hle
  · obtain ⟨mid, hmid⟩ := hx.between h.fst hle
    obtain ⟨pre, -, h1, -⟩ := hx
    obtain ⟨-, post, -, h2⟩ := h.fst'
    refine ⟨pre, mid ++ post, h1.congr fun i _ hi => h.same i (Or.inl (by omega)), ?_⟩
    exact seg_append.mpr ⟨o, hmid.congr fun i _ hi => h.same i (Or.inl hi), h2⟩
  · obtain ⟨mid, hmid⟩ := h.snd.between hx hle
    obtain ⟨-, post, -, h2⟩ := hx
    obtain ⟨pre, -, h1, -⟩ := h.snd'
    refine ⟨pre ++ mid, post, ?_, h2.congr fun i hi _ => h.same i (Or.inr (by omega))⟩
    exact seg_append.mpr ⟨p, h1, hmid.congr fun i hi _ => h.same i (Or.inr hi)⟩

theorem Edit.recAt_eq (h : Edit b b' o p) (hx : Start b x) (hout : x < o ∨ p ≤ x) :
    recAt b' x = recAt b x := by
  refine recAt_congr fun i h1 h2 => h.same i ?_
  rcases hout with hlt | hle
  · left
    have hnext := hx.next h.fst hlt
    have hok := (hx.ok (hlt.trans_le h.fst.le)).1.2
    have := recLen_ge (recAt b x).name.length
    omega
  · right
    omega

/-! ### The cursor -/

/-- `P` holds of each record of a segment, at its place. -/
def Each (P : ℕ → Rec → Prop) : ℕ → List Rec → Prop
  | _, [] => True
  | o, r :: rs => P o r ∧ Each P (o + r.len) rs

theorem each_concat : ∀ {rs : List Rec} {o : ℕ}, Seg b o rs m → Each P o rs → P m r →
    Each P o (rs ++ [r])
  | [], o, h, _, hr => by
    obtain rfl : o = m := h
    exact ⟨hr, trivial⟩
  | _ :: _, _, h, he, hr => ⟨he.1, each_concat h.2.2 he.2 hr⟩

theorem Each.mono {Q : ℕ → Rec → Prop} (hPQ : ∀ o r, P o r → Q o r) : ∀ {rs : List Rec} {o : ℕ},
    Each P o rs → Each Q o rs
  | [], _, _ => trivial
  | _ :: _, _, h => ⟨hPQ _ _ h.1, h.2.mono hPQ⟩

/-- The end of the header and the name of the record at `o`. -/
def core (b : Blk) (o : ℕ) : ℕ := o + pmfsDirRecLen (recAt b o).name.length

/-- From `off` on there are records that were once read or could have been, of which `P` holds, up
to a place where a record begins. The records before that place are behind `off`. -/
def Cursor (P : ℕ → Rec → Prop) (b : Blk) (off : ℕ) : Prop :=
  ∃ stale m, Seg b off stale m ∧ Each P off stale ∧ Start b m ∧ ∀ o, Start b o →
    core b o ≤ off ∨ m ≤ o

theorem cursor_zero (h : Wf b) : Cursor P b 0 :=
  ⟨[], 0, rfl, trivial, start_zero h, fun o _ => Or.inr (Nat.zero_le o)⟩

theorem core_le (h : Start b o) (hlt : o < 4096) : core b o ≤ o + (recAt b o).len :=
  Nat.add_le_add_left (h.ok hlt).1.2 o

theorem core_gt : o + 12 ≤ core b o := by
  have := recLen_ge (recAt b o).name.length
  unfold core
  omega

theorem Cursor.mono {Q : ℕ → Rec → Prop} (hPQ : ∀ o r, P o r → Q o r) (h : Cursor P b off) :
    Cursor Q b off := by
  obtain ⟨stale, m, h1, h2, h3, h4⟩ := h
  exact ⟨stale, m, h1, h2.mono hPQ, h3, h4⟩

/-- The record at the offset is one that `P` holds of, or one of the block. -/
theorem Cursor.at (h : Cursor P b off) (hlt : off < 4096) : (recAt b off).Ok ∧
    off + (recAt b off).len ≤ 4096 ∧ (P off (recAt b off) ∨ Start b off) := by
  obtain ⟨stale, m, hseg, heach, hm, -⟩ := h
  cases stale with
  | nil =>
    obtain rfl : off = m := hseg
    obtain ⟨hok, hnext⟩ := hm.ok hlt
    exact ⟨hok, hnext.le, Or.inr hm⟩
  | cons r stale =>
    obtain ⟨rfl, hok, hrest⟩ := hseg
    exact ⟨hok, hrest.le.trans hm.le, Or.inl heach.1⟩

/-- No record of the block begins inside the one at the offset. -/
theorem Cursor.inside (h : Cursor P b off) (hx : Start b x) (hgt : off < x) :
    off + (recAt b off).len ≤ x := by
  obtain ⟨stale, m, hseg, -, hm, hcore⟩ := h
  cases stale with
  | nil =>
    obtain rfl : off = m := hseg
    exact hm.next hx hgt
  | cons r stale =>
    obtain ⟨rfl, -, hrest⟩ := hseg
    rcases hcore x hx with hbehind | hahead
    · have := core_gt (b := b) (o := x)
      omega
    · exact hrest.le.trans hahead

/-- **Reading** a record. -/
theorem Cursor.read (h : Cursor P b off) (hlt : off < 4096) :
    Cursor P b (off + (recAt b off).len) := by
  obtain ⟨stale, m, hseg, heach, hm, hcore⟩ := h
  cases stale with
  | nil =>
    obtain rfl : off = m := hseg
    obtain ⟨hok, hnext⟩ := hm.ok hlt
    refine ⟨[], _, rfl, trivial, hnext, fun o ho => ?_⟩
    rcases hcore o ho with hbehind | hahead
    · exact Or.inl (hbehind.trans (Nat.le_add_right _ _))
    · rcases Nat.eq_or_lt_of_le hahead with rfl | hlt'
      · exact Or.inl (core_le hm hlt)
      · exact Or.inr (hm.next ho hlt')
  | cons r stale =>
    obtain ⟨rfl, -, hrest⟩ := hseg
    refine ⟨stale, m, hrest, heach.2, hm, fun o ho => ?_⟩
    exact (hcore o ho).imp_left fun h => h.trans (Nat.le_add_right _ _)

/-! ### Removing an entry -/

/-- The record before the one at `o`, as `pmfs_search_dirblock` returns it. -/
def Before (b : Blk) (o : ℕ) (prev : Option ℕ) : Prop :=
  match prev with
  | none => o = 0
  | some p => Start b p ∧ p + (recAt b p).len = o

theorem search_place {check : Bool} {res : ℕ} {prev : Option ℕ} :
    ∀ {fuel : ℕ} {de : ℕ} (pde : Option ℕ), Start b de → Before b de pde →
    searchLoop name b check fuel de pde = .found res prev → Start b res ∧ res < 4096 ∧
    (recAt b res).Is name ∧ Before b res prev
  | 0, _, _, _, _, h => by simp [searchLoop] at h
  | fuel + 1, de, pde, hde, hpde, h => by
    rw [searchLoop] at h
    split_ifs at h with hlt hmatch hbad hzero
    · rw [Search.found.injEq] at h
      obtain ⟨rfl, rfl⟩ := h
      exact ⟨hde, hlt, match_iff.mp hmatch.2, hpde⟩
    · exact search_place (some de) (hde.ok hlt).2 ⟨hde, rfl⟩ h

/-- A record that is not the first goes to the one before it. -/
theorem merge_edit (hp : Start b p) (ho : Start b o) (hpo : p + (recAt b p).len = o)
    (hlt : o < 4096) : Edit b (dropRecord b o (some p)) p (o + (recAt b o).len) ∧
      recAt (dropRecord b o (some p)) p =
        { recAt b p with len := (recAt b p).len + (recAt b o).len } := by
  subst hpo
  have hpok := (hp.ok (by omega)).1
  obtain ⟨hook, hend⟩ := ho.ok hlt
  have hle := hend.le
  obtain ⟨hseg, hsame⟩ := seg_merge rfl hpok rfl hook (by omega) rfl
  exact ⟨edit_of_seg hsame hp hend hseg, hseg.1⟩

theorem merge_start (hp : Start b p) (ho : Start b o) (hpo : p + (recAt b p).len = o)
    (hlt : o < 4096) : Start (dropRecord b o (some p)) x ↔ Start b x ∧ x ≠ o := by
  obtain ⟨hedit, hrec⟩ := merge_edit hp ho hpo hlt
  have hppos := (hp.ok (by omega)).1.len_pos
  have hopos := (ho.ok hlt).1.len_pos
  constructor
  · intro hx
    have hout : x ≤ p ∨ o + (recAt b o).len ≤ x := by
      rcases Nat.lt_or_ge p x with hgt | hle
      · right
        have hnext := hedit.fst'.next hx hgt
        rw [hrec] at hnext
        dsimp only at hnext
        omega
      · exact Or.inl hle
    exact ⟨hedit.symm.start hx hout, by omega⟩
  · rintro ⟨hx, hne⟩
    refine hedit.start hx ?_
    rcases Nat.lt_or_ge p x with hgt | hle
    · have h1 := hp.next hx hgt
      exact Or.inr (ho.next hx (by omega))
    · exact Or.inl hle

/-- A record that stays keeps all but, perhaps, its length. -/
theorem merge_recAt (hp : Start b p) (ho : Start b o) (hpo : p + (recAt b p).len = o)
    (hlt : o < 4096) (hx : Start (dropRecord b o (some p)) x) :
    ∃ n, (recAt b x).len ≤ n ∧ recAt (dropRecord b o (some p)) x = { recAt b x with len := n } := by
  obtain ⟨hedit, hrec⟩ := merge_edit hp ho hpo hlt
  obtain ⟨hx', hne⟩ := (merge_start hp ho hpo hlt).mp hx
  rcases Nat.lt_trichotomy x p with hlt' | rfl | hgt
  · exact ⟨_, le_rfl, hedit.recAt_eq hx' (Or.inl hlt')⟩
  · exact ⟨_, Nat.le_add_right _ _, hrec⟩
  · have h1 := hp.next hx' hgt
    exact ⟨_, le_rfl, hedit.recAt_eq hx' (Or.inr (ho.next hx' (by omega)))⟩

theorem core_eq_of {n : ℕ} (h : recAt b' x = { recAt b x with len := n }) :
    core b' x = core b x := by
  unfold core
  rw [h]

theorem free_edit (ho : Start b 0) : Edit b (dropRecord b 0 none) 0 (recAt b 0).len ∧
    recAt (dropRecord b 0 none) 0 = { recAt b 0 with ino := 0 } := by
  obtain ⟨hok, hend⟩ := ho.ok (by omega)
  obtain ⟨hseg, hsame⟩ := seg_free rfl hok rfl
  rw [Nat.zero_add] at hend hseg
  refine ⟨edit_of_seg (fun i hi => hsame i (by omega)) ho hend hseg, hseg.1⟩

theorem free_start (ho : Start b 0) : Start (dropRecord b 0 none) x ↔ Start b x := by
  obtain ⟨hedit, hrec⟩ := free_edit ho
  have hout : ∀ {b1 : Blk}, Start b1 0 → (recAt b1 0).len = (recAt b 0).len → Start b1 x →
      x ≤ 0 ∨ (recAt b 0).len ≤ x := by
    intro b1 h0 hlen hx
    rcases Nat.eq_zero_or_pos x with rfl | hpos
    · exact Or.inl le_rfl
    · have := h0.next hx hpos
      omega
  constructor
  · intro hx
    exact hedit.symm.start hx (hout hedit.fst' (by rw [hrec]) hx)
  · intro hx
    exact hedit.start hx (hout ho rfl hx)

theorem free_recAt (ho : Start b 0) (hx : Start b x) (hne : x ≠ 0) :
    recAt (dropRecord b 0 none) x = recAt b x := by
  refine (free_edit ho).1.recAt_eq hx (Or.inr ?_)
  have := ho.next hx (Nat.pos_of_ne_zero hne)
  omega

/-- **Removing** an entry. -/
theorem Cursor.merge (h : Cursor P b off) (hp : Start b p) (ho : Start b o)
    (hpo : p + (recAt b p).len = o) (hlt : o < 4096) (hP : P o (recAt b o)) :
    Cursor P (dropRecord b o (some p)) off := by
  obtain ⟨stale, m, hseg, heach, hm, hcore⟩ := h
  have hstart := fun x => merge_start (x := x) hp ho hpo hlt
  have hcore' : ∀ x, Start (dropRecord b o (some p)) x →
      core (dropRecord b o (some p)) x ≤ off ∨ m ≤ x := by
    intro x hx
    obtain ⟨n, -, hrec⟩ := merge_recAt hp ho hpo hlt hx
    rw [core_eq_of hrec]
    exact hcore x ((hstart x).mp hx).1
  have hsame : ∀ i, i < p + 8 ∨ p + 10 ≤ i → dropRecord b o (some p) i = b i :=
    fun i hi => put_of_not_mem (by omega)
  have hle := hseg.le
  have hogt := core_gt (b := b) (o := o)
  have hpgt := core_gt (b := b) (o := p)
  rcases hcore p hp with hbehind | hahead
  · have hseg' : Seg (dropRecord b o (some p)) off stale m :=
      hseg.congr fun i h1 _ => hsame i (by omega)
    rcases hcore o ho with hobehind | hoahead
    · exact ⟨stale, m, hseg', heach, (hstart m).mpr ⟨hm, by omega⟩, hcore'⟩
    · -- the record at the cursor's end goes to one behind it and is stale from now on
      obtain rfl : m = o := le_antisymm hoahead (hpo ▸ hp.next hm (by omega))
      obtain ⟨hok, hend⟩ := ho.ok hlt
      have hpos := hok.len_pos
      have hrec : recAt (dropRecord b m (some p)) m = recAt b m :=
        recAt_congr fun i h1 _ => hsame i (by omega)
      refine ⟨stale ++ [recAt b m], _, seg_append.mpr ⟨m, hseg', hrec, hok, rfl⟩,
        each_concat hseg heach hP, (hstart _).mpr ⟨hend, by omega⟩, fun x hx => ?_⟩
      obtain ⟨hx', hne⟩ := (hstart x).mp hx
      exact (hcore' x hx).imp_right fun hge => ho.next hx' (by omega)
  · have hseg' : Seg (dropRecord b o (some p)) off stale m :=
      hseg.congr fun i _ h2 => hsame i (by omega)
    have hpos := (hp.ok (by omega)).1.len_pos
    exact ⟨stale, m, hseg', heach, (hstart m).mpr ⟨hm, by omega⟩, hcore'⟩

theorem Cursor.free (h : Cursor P b off) (ho : Start b 0) : Cursor P (dropRecord b 0 none) off := by
  obtain ⟨stale, m, hseg, heach, hm, hcore⟩ := h
  have hcore' : ∀ x, Start (dropRecord b 0 none) x → core (dropRecord b 0 none) x ≤ off ∨
    m ≤ x := by
    intro x hx
    have heq : core (dropRecord b 0 none) x = core b x := by
      unfold core
      by_cases hne : x = 0
      · rw [hne, (free_edit ho).2]
      · rw [free_recAt ho ((free_start ho).mp hx) hne]
    rw [heq]
    exact hcore x ((free_start ho).mp hx)
  have hgt := core_gt (b := b) (o := 0)
  refine ⟨stale, m, hseg.congr fun i h1 h2 => ?_, heach, (free_start ho).mpr hm, hcore'⟩
  rcases hcore 0 ho with hbehind | hahead
  · exact put_of_not_mem (by omega)
  · omega

/-- **Removing** an entry keeps the cursor. -/
theorem Cursor.drop {prev : Option ℕ} (h : Cursor P b off) (ho : Start b o) (hlt : o < 4096)
    (hprev : Before b o prev) (hP : P o (recAt b o)) : Cursor P (dropRecord b o prev) off := by
  cases prev with
  | none =>
    obtain rfl : o = 0 := hprev
    exact h.free ho
  | some p => exact h.merge hprev.1 ho hprev.2 hlt hP

/-! ### Adding an entry -/

theorem room_place {reclen res : ℕ} (hpos : 0 < reclen) : ∀ {fuel : ℕ} {de : ℕ},
    Start b de → findRoom b reclen fuel de = some (some res) →
    Start b res ∧ res < 4096 ∧ (recAt b res).Fits reclen
  | 0, _, _, h => by simp [findRoom] at h
  | fuel + 1, de, hde, h => by
    rw [findRoom] at h
    split_ifs at h with hlt hfit
    · rw [Option.some.injEq, Option.some.injEq] at h
      subst h
      exact ⟨hde, by omega, fits_iff.mpr hfit⟩
    · exact room_place hpos (hde.ok (by omega)).2 h
    · simp at h

/-- Where the new record begins. -/
def place (b : Blk) (o : ℕ) : ℕ := (splitRecord b o).1

/-- The block with the new record, in the room of the one at `o`. -/
def inserted (b : Blk) (o ino : ℕ) (name : Name) : Blk :=
  fillRecord (splitRecord b o).2 (splitRecord b o).1 ino name

theorem place_cases (b : Blk) (o : ℕ) :
    (deIno b o ≠ 0 ∧ place b o = core b o) ∨ (deIno b o = 0 ∧ place b o = o) := by
  unfold place splitRecord core
  by_cases h : deIno b o = 0
  · rw [if_neg (not_not.mpr h)]
    exact Or.inr ⟨h, rfl⟩
  · rw [if_pos h]
    refine Or.inl ⟨h, ?_⟩
    rw [show (recAt b o).name.length = deNameLen b o from length_deName]

theorem inserted_same {i : ℕ} (h1 : i < o + 8 ∨ o + 10 ≤ i)
    (h2 : i < place b o ∨ place b o + pmfsDirRecLen name.length ≤ i) :
    inserted b o ino name i = b i := by
  have hroom := recLen_ge name.length
  have hsplit : (splitRecord b o).2 i = b i := by
    unfold place at h2
    unfold splitRecord at h2 ⊢
    split_ifs at h2 ⊢ with hused
    · dsimp only at h2 ⊢
      rw [put_of_not_mem (by omega), put_of_not_mem (by omega)]
    · rfl
  unfold inserted
  unfold place at h2
  rw [fillRecord_of_not_mem (by omega), hsplit]

/-- The new record goes up to the end of the record whose room it takes; that one ends where the new
one begins, unless it was free. -/
structure Inserted (b : Blk) (o ino : ℕ) (name : Name) : Prop where
  edit : Edit b (inserted b o ino name) o (o + (recAt b o).len)
  new : recAt (inserted b o ino name) (place b o) = ⟨ino, o + (recAt b o).len - place b o, name⟩
  start : Start (inserted b o ino name) (place b o)
  old : o < place b o → recAt (inserted b o ino name) o = { recAt b o with len := place b o - o }
  ge : o ≤ place b o
  le : place b o ≤ core b o
  room : place b o + pmfsDirRecLen name.length ≤ o + (recAt b o).len

theorem insert_spec (hino : ino < 256 ^ 8) (hname : name.length ≤ 255) (ho : Start b o)
    (hlt : o < 4096) (hfit : (recAt b o).Fits (pmfsDirRecLen name.length)) :
    Inserted b o ino name := by
  obtain ⟨hok, hend⟩ := ho.ok hlt
  have hle := hend.le
  have hcore : core b o = o + pmfsDirRecLen (recAt b o).name.length := rfl
  have hgt := core_gt (b := b) (o := o)
  have hroom := recLen_ge name.length
  obtain ⟨mid, hmid⟩ : ∃ mid, mid = (recAt b o).insert ino name := ⟨_, rfl⟩
  have h := seg_insert rfl hok (by omega) hfit (recAt_fillRecord hino hname) fun i hi =>
    fillRecord_of_not_mem hi
  rw [← inserted, ← hmid] at h
  obtain ⟨hseg, hsame⟩ := h
  have hedit := edit_of_seg hsame ho hend hseg
  rcases place_cases b o with ⟨hused, hplace⟩ | ⟨hfree, hplace⟩
  · obtain rfl := hmid.trans (if_pos hused)
    have hfits := (hfit.resolve_right fun h => hused h.1).2
    have hstart : Start (inserted b o ino name) (core b o) := by
      have := (hedit.fst'.ok hlt).2
      rwa [hseg.1] at this
    have hrest : (recAt b o).len - pmfsDirRecLen (recAt b o).name.length =
        o + (recAt b o).len - core b o := by omega
    refine ⟨hedit, ?_, by rw [hplace]; exact hstart, ?_, by omega, by omega, by omega⟩
    · rw [hplace, ← hrest]
      exact hseg.2.2.1
    · intro _
      rw [hseg.1, hplace, hcore, Nat.add_sub_cancel_left]
  · obtain rfl := hmid.trans (if_neg (not_not.mpr hfree))
    have hfits := (hfit.resolve_left fun h => h.1 hfree).2
    refine ⟨hedit, ?_, by rw [hplace]; exact hedit.fst', ?_, by omega, by omega, by omega⟩
    · rw [hplace, Nat.add_sub_cancel_left]
      exact hseg.1
    · intro hlt'
      omega

variable (hins : Inserted b o ino name)
include hins

theorem Inserted.start_iff :
    Start (inserted b o ino name) x ↔ Start b x ∨ x = place b o := by
  have hpos := recLen_ge name.length
  have hroom := hins.room
  have hge := hins.ge
  constructor
  · intro hx
    by_cases hp : x = place b o
    · exact Or.inr hp
    left
    refine hins.edit.symm.start hx ?_
    rcases Nat.lt_or_ge o x with hgt | hle
    · right
      have hafter : place b o < x := by
        rcases Nat.eq_or_lt_of_le hge with heq | hold
        · omega
        · have := hins.edit.fst'.next hx hgt
          rw [hins.old hold] at this
          dsimp only at this
          omega
      have := hins.start.next hx hafter
      rw [hins.new] at this
      dsimp only at this
      omega
    · exact Or.inl hle
  · rintro (hx | hx)
    · refine hins.edit.start hx ?_
      rcases Nat.lt_or_ge o x with hgt | hle
      · exact Or.inr (hins.edit.fst.next hx hgt)
      · exact Or.inl hle
    · rw [hx]
      exact hins.start

/-- The other records keep all but, perhaps, their length. -/
theorem Inserted.recAt_eq (hx : Start b x) (hne : x ≠ place b o) : ∃ n,
    (n = (recAt b x).len ∨ (x = o ∧ o < place b o ∧ n = place b o - o)) ∧
      recAt (inserted b o ino name) x = { recAt b x with len := n } := by
  rcases Nat.lt_trichotomy x o with hlt | rfl | hgt
  · exact ⟨_, Or.inl rfl, hins.edit.recAt_eq hx (Or.inl hlt)⟩
  · have hold := lt_of_le_of_ne hins.ge hne
    exact ⟨_, Or.inr ⟨rfl, hold, rfl⟩, hins.old hold⟩
  · exact ⟨_, Or.inl rfl, hins.edit.recAt_eq hx (Or.inr (hins.edit.fst.next hx hgt))⟩

/-- **Adding** an entry keeps the cursor, unless the new record lies across it. -/
theorem Cursor.insert (h : Cursor P b off) (ho : Start b o)
    (hclear : ¬ (place b o < off ∧ off < place b o + pmfsDirRecLen name.length)) :
    Cursor P (inserted b o ino name) off := by
  obtain ⟨stale, m, hseg, heach, hm, hcore⟩ := h
  have hle := hseg.le
  have hge := hins.ge
  have hple := hins.le
  have hgt := core_gt (b := b) (o := o)
  have hnew : core (inserted b o ino name) (place b o) = place b o + pmfsDirRecLen name.length := by
    unfold core
    rw [hins.new]
  have hold : ∀ x, Start b x → x ≠ place b o → core (inserted b o ino name) x ≤ off ∨ m ≤ x := by
    intro x hx hne
    obtain ⟨n, -, hrec⟩ := hins.recAt_eq hx hne
    rw [core_eq_of hrec]
    exact hcore x hx
  have hm' : Start (inserted b o ino name) m := (hins.start_iff).mpr (Or.inl hm)
  rcases hcore o ho with hbehind | hahead
  · rcases Nat.eq_or_lt_of_le (hple.trans hbehind) with heq | hbefore
    · -- the new record begins at the cursor
      refine ⟨[], off, rfl, trivial, by rw [← heq]; exact hins.start, fun x hx => ?_⟩
      by_cases hp : x = place b o
      · exact Or.inr (by omega)
      · have hx' := ((hins.start_iff).mp hx).resolve_right hp
        exact (hold x hx' hp).imp_right fun h => hle.trans h
    · have hclear' : place b o + pmfsDirRecLen name.length ≤ off := by omega
      have hseg' : Seg (inserted b o ino name) off stale m :=
        hseg.congr fun i h1 _ => inserted_same (Or.inr (by omega)) (Or.inr (by omega))
      refine ⟨stale, m, hseg', heach, hm', fun x hx => ?_⟩
      by_cases hp : x = place b o
      · rw [hp]
        exact Or.inl (by omega)
      · exact hold x (((hins.start_iff).mp hx).resolve_right hp) hp
  · have hseg' : Seg (inserted b o ino name) off stale m :=
      hseg.congr fun i _ h2 => inserted_same (Or.inl (by omega)) (Or.inl (by omega))
    refine ⟨stale, m, hseg', heach, hm', fun x hx => ?_⟩
    by_cases hp : x = place b o
    · exact Or.inr (by omega)
    · exact hold x (((hins.start_iff).mp hx).resolve_right hp) hp

omit hins

end Pmfs.Dirs.Readdir
