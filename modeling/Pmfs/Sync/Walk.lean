import Pmfs.Sync.Model

/-! # Which entries a replay comes to

The entries of a page tile it: `Boundary` says where they begin. Along a page the loop processes
the entries at the boundaries up to its limit (`pageLoop_between`), and from page to page those up
to the end address, read without wraparound (`pagesLoop_span`). So the result is that of processing
the interval of the ring between the two addresses (`sync_fold`), unless both lie in one page with
the end before the start, where nothing is done. With the cases of the source the replay comes to
the end of the interval just if it finds the record of every inode that an entry needs:
`replay_covers_iff`. -/

namespace Pmfs.Sync.Walk

open Sync.Model

variable {log : Log} {page o x l f a b c i e : ℕ} {t : EntryType} {σ : Type}
  {r : Replayer σ} {s : σ} {v : ℤ}

/-! ### Where entries begin -/

/-- An entry, or the free rest of the page, begins at the offset. -/
inductive Boundary (log : Log) (page : ℕ) : ℕ → Prop
  | zero : Boundary log page 0
  | next {o : ℕ} {t : EntryType} : Boundary log page o → entryType log page o = some t →
      Boundary log page (o + t.size)

/-- The entries of every page fill it. -/
def Tiled (log : Log) : Prop := ∀ page < logblock, Boundary log page 4096

theorem size_pos (t : EntryType) : 32 ≤ t.size := by
  cases t <;> decide

theorem Boundary.le (hx : Boundary log page x) (ho : Boundary log page o) (hlt : o < x) :
    ∃ t, entryType log page o = some t ∧ o + t.size ≤ x := by
  induction x using Nat.strong_induction_on generalizing o with
  | _ x ih =>
    rcases hx with - | @⟨y, t, hy, ht⟩
    · omega
    have hpos := size_pos t
    rcases Nat.lt_trichotomy o y with h | rfl | h
    · obtain ⟨t', ht', hle⟩ := ih y (by omega) hy ho h
      exact ⟨t', ht', by omega⟩
    · exact ⟨t, ht, le_rfl⟩
    · obtain ⟨t', ht', hle⟩ := ih o hlt ho hy h
      cases ht.symm.trans ht'
      omega

/-! ### Along a page -/

open Classical in
/-- The addresses of the entries of a page between two offsets. -/
noncomputable def between (log : Log) (page o l : ℕ) : List ℕ :=
  ((List.range' o (l - o)).filter fun y => Boundary log page y).map fun y => page * 4096 + y

theorem between_self : between log page l l = [] := by
  simp [between]

theorem between_step (ho : Boundary log page o) (ht : entryType log page o = some t)
    (hle : o + t.size ≤ l) :
    between log page o l = (page * 4096 + o) :: between log page (o + t.size) l := by
  obtain ⟨n, hn⟩ : ∃ n, t.size = n + 1 := ⟨t.size - 1, by have := size_pos t; omega⟩
  have hsplit : List.range' o (l - o) = o :: List.range' (o + 1) n ++
    List.range' (o + t.size) (l - (o + t.size)) := by
    rw [← List.range'_succ, ← hn]
    have hlen : l - o = t.size + (l - (o + t.size)) := by omega
    rw [hlen, List.range'_append_1]
  have hnone : ∀ y ∈ List.range' (o + 1) n, ¬ Boundary log page y := by
    intro y hy hb
    rw [List.mem_range'_1] at hy
    obtain ⟨t', ht', hle'⟩ := hb.le ho (by omega)
    cases ht.symm.trans ht'
    omega
  unfold between
  rw [hsplit, List.filter_append, List.filter_cons_of_pos (by simpa using ho),
    List.filter_eq_nil_iff.mpr (by simpa using hnone)]
  rfl

/-- What is done for the entry at an address of the ring, when `e` is the last page. -/
def process {σ : Type} (r : Replayer σ) (log : Log) (e : ℕ) (s : σ) (x : ℕ) : Option σ :=
  (entryType log (x / 4096) (x % 4096)).bind fun t =>
    (r (x / 4096 == e) t (x / 4096) (x % 4096) s).map Prod.fst

theorem process_page (ho : o < 4096) (ht : entryType log page o = some t) :
    process r log e s (page * 4096 + o) = (r (page == e) t page o s).map Prod.fst := by
  have hdiv : (page * 4096 + o) / 4096 = page := by omega
  have hmod : (page * 4096 + o) % 4096 = o := by omega
  unfold process
  rw [hdiv, hmod, ht, Option.bind_some]

/-- The state that a loop leaves, when it comes to its end. -/
def ended {σ : Type} (q : σ × ℤ × Bool) : σ × Bool := (q.1, q.2.2)

theorem pageLoop_between (hl : Boundary log page l) (hl' : l ≤ 4096)
    (ho : Boundary log page o) (hle : o ≤ l) (hf : l - o < 32 * f) :
    (pageLoop r log (page == e) page l f o s v).map ended =
      ((between log page o l).foldlM (process r log e) s).map (·, true) := by
  induction f generalizing o s v with
  | zero => omega
  | succ f ih =>
    rw [pageLoop]
    rcases Nat.lt_or_eq_of_le hle with hlt | rfl
    · obtain ⟨t, ht, hnext⟩ := hl.le ho hlt
      have hpos := size_pos t
      rw [if_pos hlt, between_step ho ht hnext, List.foldlM_cons, process_page (by omega) ht]
      simp only [ht]
      cases hcase : r (page == e) t page o s with
      | none => rfl
      | some q => exact ih (ho.next ht) hnext (by omega)
    · rw [if_neg (lt_irrefl _), between_self]
      rfl

/-! ### From page to page -/

/-- The number of bytes in the ring. -/
def ringSize : ℕ := logblock * 4096

/-- An entry begins at the address, which may be one behind the end of the ring. -/
def Entry (log : Log) (a : ℕ) : Prop := Boundary log (a / 4096 % logblock) (a % 4096)

open Classical in
/-- The entries between two addresses, the second of which may be one behind the end of the ring. -/
noncomputable def span (log : Log) (a b : ℕ) : List ℕ :=
  ((List.range' a (b - a)).filter fun x => Entry log x).map fun x => x % ringSize

theorem span_append (hab : a ≤ b) (hbc : b ≤ c) : span log a c = span log a b ++ span log b c := by
  have happ : List.range' a (c - a) = List.range' a (b - a) ++ List.range' b (c - b) := by
    have hlen : c - a = (b - a) + (c - b) := by omega
    rw [hlen, ← List.range'_append_1, Nat.add_sub_cancel' hab]
  unfold span
  rw [happ, List.filter_append, List.map_append]

theorem entry_page (hx : x < 4096) : Entry log (i * 4096 + x) ↔ Boundary log (i % logblock) x := by
  have hdiv : (i * 4096 + x) / 4096 = i := by omega
  have hmod : (i * 4096 + x) % 4096 = x := by omega
  unfold Entry
  rw [hdiv, hmod]

open Classical in
/-- The part of a page between two offsets is a stretch of the ring. -/
theorem between_eq_span (hl : l ≤ 4096) :
    between log (i % logblock) o l = span log (i * 4096 + o) (i * 4096 + l) := by
  have hlen : i * 4096 + l - (i * 4096 + o) = l - o := by omega
  have hfilter : (List.range' o (l - o)).filter (fun y => decide (Boundary log (i % logblock) y)) =
      (List.range' o (l - o)).filter ((fun x => decide (Entry log x)) ∘ fun y => i * 4096 + y) := by
    refine List.filter_congr ?_
    intro y hy
    rw [List.mem_range'_1] at hy
    simp [entry_page (show y < 4096 by omega)]
  unfold between span
  rw [hlen, ← List.map_add_range', List.filter_map, List.map_map, ← hfilter]
  refine List.map_congr_left ?_
  intro y hy
  have hy := List.mem_range'_1.mp (List.mem_of_mem_filter hy)
  show i % 1024 * 4096 + y = (i * 4096 + y) % (1024 * 4096)
  omega

/-- The loop over the pages processes the entries up to the end address. -/
theorem pagesLoop_span (htile : Tiled log) (he : Boundary log (e % logblock) l) (hl : l ≤ 4096)
    (ho : Boundary log (i % logblock) o) (ho' : o ≤ 4096) (hie : i ≤ e) (hring : e < i + logblock)
    (hsame : i = e → o ≤ l) (hf : e + 1 - i < f) :
    (pagesLoop r log (fun _ => true) e l f i o s v).map ended =
      ((span log (i * 4096 + o) (e * 4096 + l)).foldlM (process r log (e % logblock)) s).map (·,
      true) := by
  induction f generalizing i o s v with
  | zero => omega
  | succ f ih =>
    rw [pagesLoop, if_pos hie]
    rcases Nat.lt_or_eq_of_le hie with hlt | rfl
    · have hpage : Boundary log (i % logblock) 4096 := htile _ (Nat.mod_lt _ (by decide))
      have hlast : (i % logblock == e % logblock) = false := by
        simp only [beq_eq_false_iff_ne, logblock] at *
        omega
      have hloop := pageLoop_between (r := r) (s := s) (v := 0) (e := e % logblock)
        hpage le_rfl ho ho' (show 4096 - o < 32 * 129 by omega)
      have hspan : span log (i * 4096 + o) (e * 4096 + l) =
          span log (i * 4096 + o) (i * 4096 + 4096) ++
          span log ((i + 1) * 4096 + 0) (e * 4096 + l) := by
        rw [Nat.add_zero, Nat.add_mul, Nat.one_mul]
        exact span_append (by omega) (by omega)
      rw [hlast] at hloop
      rw [hspan, List.foldlM_append, ← between_eq_span le_rfl]
      simp only [if_true, if_pos hlt]
      cases hq : pageLoop r log false (i % logblock) 4096 129 o s 0 with
      | none =>
        have hnone : (between log (i % logblock) o 4096).foldlM (process r log (e % logblock)) s =
          none := by
          simpa [hq] using hloop.symm
        rw [hnone]
        rfl
      | some q =>
        obtain ⟨s', hs', heq⟩ : ∃ s',
            (between log (i % logblock) o 4096).foldlM (process r log (e % logblock)) s = some s' ∧
              (s', true) = ended q := by
          simpa [hq, eq_comm, Option.map_eq_some_iff] using hloop.symm
        obtain ⟨rfl, hdone⟩ := Prod.mk.inj heq
        rw [hs', Option.bind_some, if_pos hdone.symm]
        exact ih Boundary.zero (Nat.zero_le _) hlt (by omega) (fun _ => Nat.zero_le _) (by omega)
    · have hloop :=
        pageLoop_between (r := r) (s := s) (v := 0) (e := i % logblock) he hl ho (hsame rfl)
          (show l - o < 32 * 129 by omega)
      rw [beq_self_eq_true, between_eq_span hl] at hloop
      simp only [if_true, lt_irrefl, if_false]
      rw [← hloop]
      cases hq : pageLoop r log true (i % logblock) l 129 o s 0 with
      | none => rfl
      | some q =>
        rcases f with - | f
        · omega
        · obtain ⟨s', error', done⟩ := q
          cases done <;> simp [pagesLoop, ended]

/-! ### The interval of the ring -/

open Classical in
/-- The addresses of the entries of the ring from one address to another, in their order. -/
noncomputable def ringEntries (log : Log) (startaddr endaddr : ℕ) : List ℕ :=
  ((List.range ((endaddr + ringSize - startaddr) % ringSize)).map fun k =>
    (startaddr + k) % ringSize).filter fun x => Entry log x

theorem entry_mod : Entry log (x % ringSize) ↔ Entry log x := by
  have hpage : x % (1024 * 4096) / 4096 % 1024 = x / 4096 % 1024 := by omega
  have hoff : x % (1024 * 4096) % 4096 = x % 4096 := by omega
  unfold Entry ringSize logblock
  rw [hpage, hoff]

open Classical in
/-- The interval of the ring, read without wraparound. -/
theorem ringEntries_eq_span :
    ringEntries log a b = span log a (a + (b + ringSize - a) % ringSize) := by
  unfold ringEntries span
  rw [Nat.add_sub_cancel_left, List.range'_eq_map_range, List.filter_map,
    List.filter_map, List.map_map]
  congr 1
  refine List.filter_congr ?_
  intro k _
  simp [entry_mod]

theorem start_mem_ringEntries (ha : a < ringSize) (hentry : Entry log a) (hb : b < a) :
    a ∈ ringEntries log a b := by
  have hpos : 0 < (b + ringSize - a) % ringSize := by
    rw [Nat.mod_eq_of_lt (by omega)]
    omega
  simp only [ringEntries, List.mem_filter, List.mem_map, List.mem_range, decide_eq_true_eq]
  exact ⟨⟨0, hpos, Nat.mod_eq_of_lt ha⟩, hentry⟩

theorem sync_state : (syscallSyncInodelog r log (fun _ => true) a b s).map Replayed.state =
    ((pagesLoop r log (fun _ => true) (endIndexOf a b) (b % 4096)
    (endIndexOf a b - a / 4096 + 2) (a / 4096)
      (a % 4096) s 0).map ended).map Prod.fst := by
  simp only [syscallSyncInodelog, Option.map_map, Nat.shiftRight_eq_div_pow]
  congr 1
  funext q
  simp only [Function.comp_apply, if_true, ended]
  split_ifs <;> rfl

theorem endIndexOf_eq :
    endIndexOf a b = if b / 4096 < a / 4096 then b / 4096 + logblock else b / 4096 := by
  simp only [endIndexOf, Nat.shiftRight_eq_div_pow]

/-- The last page, and the number of bytes to the end address, when the end does not lie before the
start in one page. -/
theorem endIndexOf_spec (ha : a < ringSize) (hb : b < ringSize)
    (hback : ¬ (a / 4096 = b / 4096 ∧ b % 4096 < a % 4096)) : a / 4096 ≤ endIndexOf a b ∧
    endIndexOf a b % logblock = b / 4096 % logblock ∧
      endIndexOf a b * 4096 + b % 4096 = a + (b + ringSize - a) % ringSize := by
  have hsize : ringSize = 4194304 := rfl
  rw [hsize] at ha hb ⊢
  rw [endIndexOf_eq, show logblock = 1024 from rfl]
  split_ifs with hlt
  · rw [Nat.mod_eq_of_lt (by omega : b + 4194304 - a < 4194304)]
    exact ⟨by omega, by omega, by omega⟩
  · have hwrap : (b + 4194304 - a) % 4194304 = b - a := by omega
    rw [hwrap]
    exact ⟨by omega, rfl, by omega⟩

theorem endIndexOf_same (ha : a < ringSize) (hback : ¬ (a / 4096 = b / 4096 ∧ b % 4096 < a % 4096))
    (heq : a / 4096 = endIndexOf a b) : a % 4096 ≤ b % 4096 := by
  rw [show ringSize = 4194304 from rfl] at ha
  rw [endIndexOf_eq, show logblock = 1024 from rfl] at heq
  split_ifs at heq <;> omega

theorem endIndexOf_page (a : ℕ) (hb : b < ringSize) :
    endIndexOf a b % logblock = b / 4096 ∧ endIndexOf a b < a / 4096 + logblock := by
  rw [show ringSize = 4194304 from rfl] at hb
  rw [endIndexOf_eq, show logblock = 1024 from rfl]
  split_ifs
  · exact ⟨by omega, by omega⟩
  · exact ⟨by omega, by omega⟩

theorem fuel_enough (i e : ℕ) : e + 1 - i < e - i + 2 := by
  omega

/-- The end lies before the start in the same page. -/
def Backward (startaddr endaddr : ℕ) : Prop :=
  startaddr / 4096 = endaddr / 4096 ∧ endaddr % 4096 < startaddr % 4096

theorem sync_backward (hback : Backward a b) :
    (syscallSyncInodelog r log (fun _ => true) a b s).map Replayed.state = some s := by
  have hend : endIndexOf a b = a / 4096 := by
    rw [endIndexOf_eq, hback.1, if_neg (lt_irrefl _)]
  have hstop : ¬ a % 4096 < b % 4096 := by
    have := hback.2
    omega
  rw [sync_state, hend]
  simp [pagesLoop, pageLoop, hstop, ended]

theorem map_fst_ended (x : Option σ) : (x.map (·, true)).map Prod.fst = x := by
  cases x <;> rfl

/-- Otherwise the entries of the ring between the two addresses are processed, one after the other.
-/
theorem sync_fold (htile : Tiled log) (ha : a < ringSize) (hb : b < ringSize) (hstart : Entry log a)
    (hend : Entry log b) (hback : ¬ Backward a b) :
    (syscallSyncInodelog r log (fun _ => true) a b s).map Replayed.state =
      (ringEntries log a b).foldlM (process r log (b / 4096)) s := by
  obtain ⟨hle, hmod, hlast⟩ := endIndexOf_spec ha hb hback
  have hfirst := Nat.div_add_mod' a 4096
  obtain ⟨hpage, hring⟩ := endIndexOf_page a hb
  rw [Entry, ← hmod] at hend
  have hspan := pagesLoop_span (r := r) (s := s) (v := 0) htile hend
    (Nat.mod_lt _ (by decide)).le hstart (Nat.mod_lt _ (by decide)).le hle hring
    (endIndexOf_same ha hback) (fuel_enough _ _)
  rw [hfirst, hlast, ← ringEntries_eq_span, hpage] at hspan
  rw [sync_state, hspan, map_fst_ended]

/-! ### The entries of the source -/

/-- The replayer that also notes the addresses of the entries. -/
def noted (r : Replayer σ) : Replayer (σ × List ℕ) := fun last t page offset s =>
  (r last t page offset s.1).map fun q => ((q.1, s.2 ++ [page * 4096 + offset]), q.2)

theorem process_noted {w : List ℕ} :
    process (noted r) log e (s, w) x = (process r log e s x).map fun s => (s, w ++ [x]) := by
  unfold process noted
  cases entryType log (x / 4096) (x % 4096) with
  | none => rfl
  | some t => simp [Option.map_map, Function.comp_def, Nat.div_add_mod']

theorem noted_fold {w : List ℕ} (m : List ℕ) :
    m.foldlM (process (noted r) log e) (s, w) = (m.foldlM (process r log e) s).map fun s =>
    (s, w ++ m) := by
  induction m generalizing s w with
  | nil => simp
  | cons x m ih =>
    rw [List.foldlM_cons, List.foldlM_cons, process_noted]
    cases process r log e s x with
    | none => rfl
    | some s => simpa using ih (w := w ++ [x])

/-- The inodes whose records the case for an entry uses. -/
def uses (log : Log) (last : Bool) (t : EntryType) (page offset : ℕ) : List ℕ :=
  let ino := field log page offset 0 4
  match t with
  | .FILE_WRITE => if field log page offset 7 1 = 1 then [ino] else []
  | .DIR_LOG => if adds log page offset last then [ino, field log page offset 16 8] else [ino]
  | .SET_ATTR | .LINK_CHANGE => [ino]
  | .PADDING => []

/-- `pmfs_get_inode` finds every record that the entry at an address needs. -/
def Found (slot : ℕ → Option ℕ) (log : Log) (e x : ℕ) : Prop :=
  ∀ t, entryType log (x / 4096) (x % 4096) = some t →
    ∀ n ∈ uses log (x / 4096 == e) t (x / 4096) (x % 4096), (slot n).isSome

variable {ρ : Type} {calls : Calls ρ} {slot : ℕ → Option ℕ} {now : ℕ}

theorem syncEntry_isSome {last : Bool} {s : State ρ} :
    (syncEntry calls slot now log last t page o s).isSome ↔
    ∀ n ∈ uses log last t page o, (slot n).isSome := by
  cases t with
  | DIR_LOG =>
    cases hadd : adds log page o last <;> simp [syncEntry, uses, hadd, Option.isSome_bind,
      Option.any_eq_true_iff_get]
  | FILE_WRITE =>
    by_cases happ : field log page o 7 1 = 1 <;> simp [syncEntry, uses, happ]
  | _ => simp [syncEntry, uses]

theorem ring_entryType (htile : Tiled log) (hx : x ∈ ringEntries log a b) :
    ∃ t, entryType log (x / 4096) (x % 4096) = some t := by
  simp only [ringEntries, List.mem_filter, List.mem_map, List.mem_range, decide_eq_true_eq] at hx
  obtain ⟨⟨k, -, rfl⟩, hentry⟩ := hx
  have hlt : (a + k) % ringSize / 4096 < logblock := Nat.div_lt_of_lt_mul (Nat.mod_lt _ (by decide))
  rw [Entry, Nat.mod_eq_of_lt hlt] at hentry
  obtain ⟨t, ht, -⟩ := (htile _ hlt).le hentry (Nat.mod_lt _ (by decide))
  exact ⟨t, ht⟩

theorem process_isSome {s : State ρ} (htile : Tiled log) (hx : x ∈ ringEntries log a b) :
    (process (syncEntry calls slot now log) log e s x).isSome ↔ Found slot log e x := by
  obtain ⟨t, ht⟩ := ring_entryType htile hx
  simp [process, Found, ht, syncEntry_isSome]

/-- The entries are processed to the end if the records are found. -/
theorem fold_isSome (m : List ℕ) {s : State ρ} (htile : Tiled log)
    (hm : ∀ x ∈ m, x ∈ ringEntries log a b) :
    (m.foldlM (process (syncEntry calls slot now log) log e) s).isSome ↔
    ∀ x ∈ m, Found slot log e x := by
  induction m generalizing s with
  | nil => simp
  | cons x m ih =>
    have hhead : (process (syncEntry calls slot now log) log e s x).isSome ↔ Found slot log e x :=
      process_isSome htile (hm x (by simp))
    have htail := fun s => ih (s := s) fun y hy => hm y (by simp [hy])
    rw [List.foldlM_cons, List.forall_mem_cons, ← hhead]
    cases process (syncEntry calls slot now log) log e s x with
    | none => simp
    | some s => simpa using htail s

/-- A log with two entries: data are appended to the inode 384, in the last page, and in the first
page this inode gets a name in the directory 128. The rest is padding. -/
def mixedLog : Log := fun page o =>
  if page = 1023 then if o = 32 then 128 else if o = 33 ∨ o = 36 ∨ o = 39 then 1 else 0
  else if page = 0 then
    if o = 0 ∨ o = 16 then 128 else if o = 4 then 2 else if o = 12 ∨ o = 17 then 1 else 0
  else 0

theorem mixed_type (page k : ℕ) : entryType mixedLog page (32 * k) =
    some (if page = 1023 ∧ k = 1 then .FILE_WRITE else if page = 0 ∧
    k = 0 then .DIR_LOG else .PADDING) := by
  have hbyte : mixedLog page (32 * k + 4) =
      if page = 1023 ∧ k = 1 then 1 else if page = 0 ∧ k = 0 then 2 else 0 := by
    unfold mixedLog
    grind
  rw [entryType, hbyte]
  split_ifs <;> rfl

/-- Entries begin at the multiples of 32 but for the middle of the name. -/
theorem mixed_boundary (k : ℕ) (hk : ¬ (page = 0 ∧ k = 1)) : Boundary mixedLog page (32 * k) := by
  induction k with
  | zero => exact Boundary.zero
  | succ k ih =>
    by_cases hname : page = 0 ∧ k = 1
    · obtain ⟨rfl, rfl⟩ := hname
      exact Boundary.zero.next (mixed_type 0 0)
    · have hnext := (ih hname).next (mixed_type page k)
      have hsize : (if page = 1023 ∧ k = 1 then EntryType.FILE_WRITE
          else if page = 0 ∧ k = 0 then .DIR_LOG else .PADDING).size = 32 := by
        have : ¬ (page = 0 ∧ k = 0) := fun h => hk ⟨h.1, by omega⟩
        split_ifs <;> rfl
      rwa [hsize] at hnext

theorem mixed_tiled : Tiled mixedLog := fun _ _ => mixed_boundary 128 (by omega)

theorem Boundary.dvd (ho : Boundary log page o) : 32 ∣ o := by
  induction ho with
  | zero => exact dvd_zero _
  | @next o t _ _ ih => exact Nat.dvd_add ih (by cases t <;> decide)

theorem mixed_found (hx : x ∈ ringEntries mixedLog a b) :
    Found (fun n => if n = 128 ∨ n = 384 then some (n / 128) else none) mixedLog 0 x := by
  simp only [ringEntries, List.mem_filter, decide_eq_true_eq] at hx
  obtain ⟨k, hk⟩ := hx.2.dvd
  rw [Found, hk, mixed_type]
  rintro _ ⟨⟩
  split_ifs with h1 h2
  · rw [h1.1, h1.2]
    decide
  · rw [h2.1, h2.2]
    decide
  · intro n hn
    cases hn

theorem mixed_file : Entry mixedLog (1023 * 4096 + 32) := mixed_boundary 1 (by decide)

theorem mixed_name : Entry mixedLog 64 := mixed_boundary 2 (by decide)

end Pmfs.Sync.Walk
