import Pmfs.Dirs.Records
import Pmfs.Lib.Radix

/-! # A directory as a set of entries

`Dir.live` are the entries of a directory: a name and an inode number for each record in use. On a
well-formed directory `pmfs_add_entry` adds one (`addEntry_spec`), `pmfs_remove_entry` takes one out
(`removeEntry_spec`), and `pmfs_inode_by_name` finds a name if and only if there is an entry for it
(`lookup_spec`). -/

namespace Pmfs.Dirs.Spec

open Lib.Bytes Lib.Radix Block.Model Dirs.Model Dirs.Records

/-- The records of a block from `o` on. -/
def recordsFrom (b : Blk) : ℕ → ℕ → List Rec
  | 0, _ => []
  | fuel + 1, o => if o < 4096 then recAt b o :: recordsFrom b fuel (o + deLen b o) else []

/-- The records of a block. -/
def records (b : Blk) : List Rec := recordsFrom b 342 0

/-- A block is well-formed: the lengths of its records lead from its start to its end. -/
def Wf (b : Blk) : Prop := Seg b 0 (records b) 4096

instance (b : Blk) : Decidable (Wf b) := inferInstanceAs (Decidable (Seg ..))

/-- The entries of a list of records. -/
def entriesOf (rs : List Rec) : Multiset (Name × ℕ) :=
  ↑((rs.filter fun r => r.ino ≠ 0).map fun r => (r.name, r.ino))

/-- The entries of a block. -/
def blkLive (b : Blk) : Multiset (Name × ℕ) := entriesOf (records b)

/-- The entries of a directory. -/
def live (d : Dir) : Multiset (Name × ℕ) :=
  ∑ k ∈ Finset.range d.blocks, (d.blk k).elim 0 blkLive

/-- A record of the directory has room for the name. -/
def HasRoom (D : Dir) (n : Name) : Prop :=
  ∃ k < D.blocks, ∃ b, D.blk k = some b ∧ ∃ r ∈ records b, r.Fits (pmfsDirRecLen n.length)

/-- A directory is well-formed: its blocks are there and are well-formed. -/
structure WfDir (d : Dir) : Prop where
  mapped : ∀ k, k < d.blocks → ∃ b, d.blk k = some b ∧ Wf b
  beyond : ∀ k, d.blocks ≤ k → d.blk k = none

variable {b b' : Blk} {d d' : Dir} {o p m k : ℕ} {r q : Rec}
  {rs rs' pre post : List Rec} {name : Name} {ino : ℕ}

/-! ### The records of a block -/

theorem recordsFrom_eq {fuel : ℕ} (h : Seg b o rs 4096) (hfuel : rs.length < fuel) :
    recordsFrom b fuel o = rs := by
  induction rs generalizing fuel o with
  | nil =>
    obtain rfl : o = 4096 := h
    obtain ⟨fuel, rfl⟩ := Nat.exists_eq_succ_of_ne_zero (Nat.ne_of_gt hfuel)
    rw [recordsFrom, if_neg (by omega)]
  | cons r rs ih =>
    obtain ⟨fuel, rfl⟩ := Nat.exists_eq_succ_of_ne_zero (Nat.ne_of_gt (Nat.zero_lt_of_lt hfuel))
    obtain ⟨rfl, hok, hrest⟩ := h
    have hle := hrest.le
    have hpos := hok.len_pos
    have htail := ih hrest (Nat.lt_of_succ_lt_succ hfuel)
    rw [recordsFrom, if_pos (by omega)]
    exact congrArg _ htail

theorem records_eq (h : Seg b 0 rs 4096) : records b = rs := by
  have := h.length_le
  exact recordsFrom_eq h (by omega)

theorem wf_of_seg (h : Seg b 0 rs 4096) : Wf b := by
  unfold Wf
  rwa [records_eq h]

theorem entriesOf_append : entriesOf (rs ++ rs') = entriesOf rs + entriesOf rs' := by
  simp [entriesOf]

theorem entriesOf_cons_live (h : r.ino ≠ 0) :
    entriesOf (r :: rs) = (r.name, r.ino) ::ₘ entriesOf rs := by
  simp [entriesOf, h]

theorem entriesOf_cons_free (h : r.ino = 0) : entriesOf (r :: rs) = entriesOf rs := by
  simp [entriesOf, h]

/-- The first record with a property, if there is one. -/
theorem split_first (P : Rec → Prop) : ∀ rs : List Rec, (∀ r ∈ rs, ¬ P r) ∨
    ∃ pre r post, rs = pre ++ r :: post ∧ (∀ x ∈ pre, ¬ P x) ∧ P r
  | [] => Or.inl fun _ h => absurd h List.not_mem_nil
  | r :: rs => by
    by_cases hr : P r
    · exact Or.inr ⟨[], r, rs, rfl, fun _ h => absurd h List.not_mem_nil, hr⟩
    rcases split_first P rs with hnone | ⟨pre, x, post, rfl, hpre, hx⟩
    · refine Or.inl fun y hy => ?_
      rcases List.mem_cons.mp hy with rfl | hy
      · exact hr
      · exact hnone y hy
    · refine Or.inr ⟨r :: pre, x, post, rfl, fun y hy => ?_, hx⟩
      rcases List.mem_cons.mp hy with rfl | hy
      · exact hr
      · exact hpre y hy

/-! ### One block -/

theorem entriesOf_insert (hino : ino ≠ 0) :
    entriesOf (r.insert ino name) = (name, ino) ::ₘ entriesOf [r] := by
  unfold Rec.insert
  split_ifs with h
  · rw [entriesOf_cons_live (r := { r with len := pmfsDirRecLen r.name.length }) h,
      entriesOf_cons_live (r := ⟨ino, _, name⟩) hino, entriesOf_cons_live h, Multiset.cons_swap]
  · rw [entriesOf_cons_live hino, entriesOf_cons_free (not_not.mp h)]

/-- The first record with room for `n` bytes, if there is one. -/
theorem room_spec {n : ℕ} (hpos : 0 < n) (hwf : Wf b) :
    (findRoom b n 4097 0 = some none ∧ ∀ r ∈ records b, ¬ r.Fits n) ∨
    ∃ pre r post o, records b = pre ++ r :: post ∧ r.Fits n ∧ findRoom b n 4097 0 = some (some o) ∧
      Seg b 0 pre o ∧ Seg b o (r :: post) 4096 := by
  have hlen := hwf.length_le
  rcases split_first (fun r => r.Fits n) (records b) with hnone | ⟨pre, r, post, heq, hpre, hr⟩
  · exact Or.inl ⟨room_none hpos hwf hnone (by omega), hnone⟩
  · unfold Wf at hwf
    rw [heq] at hwf hlen
    obtain ⟨o, h1, h2⟩ := seg_append.mp hwf
    rw [List.length_append] at hlen
    exact Or.inr ⟨pre, r, post, o, heq, hr, room_found h1 hpre h2 hr (by omega), h1, h2⟩

/-- A new entry is in the block, or there is no room for it. -/
theorem addDirent_spec (hwf : Wf b) (hino : ino < 256 ^ 8) (hname : name.length ≤ 255) :
    (pmfsAddDirentToBuf b name ino none = some (.error .ENOSPC) ∧
      ∀ r ∈ records b, ¬ r.Fits (pmfsDirRecLen name.length)) ∨
    ∃ pre r post, records b = pre ++ r :: post ∧ r.Fits (pmfsDirRecLen name.length) ∧ ∃ b',
      pmfsAddDirentToBuf b name ino none = some (.ok b') ∧
      Seg b' 0 (pre ++ (r.insert ino name ++ post)) 4096 := by
  unfold pmfsAddDirentToBuf
  rcases room_spec recLen_pos hwf with ⟨hrun, hnone⟩ | ⟨pre, r, post, o, heq, hr, hrun, h1, h2⟩
  · rw [hrun]
    exact Or.inl ⟨rfl, hnone⟩
  · rw [hrun]
    have hend := h2.2.2.le
    obtain ⟨hmid, hsame⟩ := seg_insert h2.1 h2.2.1 (by omega) hr (recAt_fillRecord hino hname)
      fun i hi => fillRecord_of_not_mem hi
    exact Or.inr ⟨pre, r, post, heq, hr, _, rfl, seg_replace h1 h2.2.2 hsame hmid⟩

/-- The list without the entry of the record `r`, which goes to the record before it or is marked
free. -/
def dropRec (pre : List Rec) (r : Rec) : List Rec :=
  match pre.getLast? with
  | some q => pre.dropLast ++ [{ q with len := q.len + r.len }]
  | none => [{ r with ino := 0 }]

theorem dropRec_concat : dropRec (pre ++ [q]) r = pre ++ [{ q with len := q.len + r.len }] := by
  simp [dropRec]

theorem entriesOf_drop (hr : r.ino ≠ 0) : entriesOf (pre ++ r :: post) =
    (r.name, r.ino) ::ₘ entriesOf (dropRec pre r ++ post) := by
  rcases List.eq_nil_or_concat pre with rfl | ⟨init, q, rfl⟩
  · rw [List.nil_append, entriesOf_cons_live hr]
    exact congrArg _ (entriesOf_cons_free rfl).symm
  · rw [List.concat_eq_append, dropRec_concat, entriesOf_append, entriesOf_cons_live hr,
      Multiset.add_cons, entriesOf_append, entriesOf_append, entriesOf_append]
    congr 3
    by_cases hq : q.ino = 0
    · rw [entriesOf_cons_free hq, entriesOf_cons_free (r := { q with len := q.len + r.len }) hq]
    · rw [entriesOf_cons_live hq, entriesOf_cons_live (r := { q with len := q.len + r.len }) hq]

/-- The record for the name is found and can be dropped. -/
theorem search_spec (check : Bool) (hwf : Wf b) (hname : 1 ≤ name.length) :
    (searchLoop name b check 4097 0 none = .notFound ∧ ∀ r ∈ records b, ¬ r.Is name) ∨
    ∃ pre r post o prev, records b = pre ++ r :: post ∧ r.Is name ∧ recAt b o = r ∧
      (∀ x ∈ pre, ¬ x.Is name) ∧ searchLoop name b check 4097 0 none = .found o prev ∧
      Seg (dropRecord b o prev) 0 (dropRec pre r ++ post) 4096 := by
  have hlen := hwf.length_le
  rcases split_first (fun r => r.Is name) (records b) with hnone | ⟨pre, r, post, heq, hpre, hr⟩
  · exact Or.inl ⟨search_none hwf hnone (by omega), hnone⟩
  · right
    unfold Wf at hwf
    rw [heq] at hwf hlen
    obtain ⟨o, h1, h2⟩ := seg_append.mp hwf
    rw [List.length_append] at hlen
    have hend := h2.2.2.le
    have hfound := search_found (d := none) check hname h1 hpre h2 hr
      (show pre.length < 4097 by omega)
    refine ⟨pre, r, post, o, _, heq, hr, h2.1, hpre, hfound, ?_⟩
    rcases List.eq_nil_or_concat pre with rfl | ⟨init, q, rfl⟩
    · obtain rfl : 0 = o := h1
      obtain ⟨hmid, hsame⟩ := seg_free h2.1 h2.2.1 rfl
      have hnil : Seg b 0 [] 0 := rfl
      exact seg_replace hnil h2.2.2 hsame hmid
    · rw [List.concat_eq_append] at h1 ⊢
      obtain ⟨m, hinit, hq⟩ := seg_append.mp h1
      have hm : m + q.len = o := hq.2.2
      subst hm
      have hlast : lastAt none 0 (init ++ [q]) = some m := lastAt_concat hinit
      rw [hlast]
      obtain ⟨hmid, hsame⟩ := seg_merge hq.1 hq.2.1 h2.1 h2.2.1 (by omega) rfl
      have hseg := seg_replace hinit h2.2.2 hsame hmid
      rw [← List.append_assoc] at hseg
      rwa [dropRec_concat]

/-! ### The directory -/

theorem blocks_setBlk : (d.setBlk k b).blocks = d.blocks := rfl

theorem blk_setBlk_self : (d.setBlk k b).blk k = some b := Function.update_self _ _ _

theorem blk_setBlk_of_ne {j : ℕ} (h : j ≠ k) : (d.setBlk k b).blk j = d.blk j :=
  Function.update_of_ne h _ _

theorem live_split (hk : k < d.blocks) (hb : d.blk k = some b) : ∃ M, live d = blkLive b + M ∧
    ∀ b', live (d.setBlk k b') = blkLive b' + M := by
  refine ⟨∑ j ∈ (Finset.range d.blocks).erase k, (d.blk j).elim 0 blkLive, ?_, fun b' => ?_⟩
  · unfold live
    rw [sum_split _ hk, hb]
    rfl
  · unfold live
    rw [blocks_setBlk, sum_split _ hk, blk_setBlk_self]
    congr 1
    refine Finset.sum_congr rfl fun j hj => ?_
    rw [blk_setBlk_of_ne (Finset.ne_of_mem_erase hj)]

theorem WfDir.setBlk (h : WfDir d) (hk : k < d.blocks) (hb : Wf b) : WfDir (d.setBlk k b) := by
  constructor
  · intro j hj
    by_cases hjk : j = k
    · subst hjk
      exact ⟨b, blk_setBlk_self, hb⟩
    · rw [blk_setBlk_of_ne hjk]
      exact h.mapped j hj
  · intro j hj
    rw [blocks_setBlk] at hj
    rw [blk_setBlk_of_ne (by omega)]
    exact h.beyond j hj

theorem WfDir.blk (h : WfDir d) (hb : d.blk k = some b) : k < d.blocks ∧ Wf b := by
  have hk : k < d.blocks := by
    by_contra hcon
    rw [h.beyond k (by omega)] at hb
    simp at hb
  obtain ⟨c, hc, hwf⟩ := h.mapped k hk
  cases hc.symm.trans hb
  exact ⟨hk, hwf⟩

theorem inserted_spec (h : WfDir d) (hk : k < d.blocks) (hb : d.blk k = some b) (hne : ino ≠ 0)
    (heq : records b = pre ++ r :: post)
    (hseg : Seg b' 0 (pre ++ (r.insert ino name ++ post)) 4096) : WfDir (d.setBlk k b') ∧
    live (d.setBlk k b') = (name, ino) ::ₘ live d := by
  obtain ⟨M, hold, hnew⟩ := live_split hk hb
  refine ⟨h.setBlk hk (wf_of_seg hseg), ?_⟩
  have hcons : entriesOf ([r] ++ post) = entriesOf [r] + entriesOf post := entriesOf_append
  rw [List.singleton_append] at hcons
  rw [hold, hnew, blkLive, blkLive, records_eq hseg, heq, entriesOf_append, entriesOf_append,
    entriesOf_append, entriesOf_insert hne, hcons]
  simp only [Multiset.cons_add, Multiset.add_cons]

/-- The loop of `pmfs_add_entry`: a block has room for the entry, or none has. -/
theorem addLoop_spec (h : WfDir d) (hino : ino < 256 ^ 8) (hname : name.length ≤ 255)
    (hne : ino ≠ 0) : ∀ {n k : ℕ}, k + n = d.blocks →
      (addLoop d name ino n k = some (.error .ENOSPC) ∧ ∀ j, k ≤ j → j < d.blocks → ∀ b,
      d.blk j = some b →
        ∀ r ∈ records b, ¬ r.Fits (pmfsDirRecLen name.length)) ∨
      ∃ d', addLoop d name ino n k = some (.ok d') ∧ WfDir d' ∧ live d' = (name, ino) ::ₘ live d ∧
        HasRoom d name
  | 0, _, _ => Or.inl ⟨rfl, fun j h1 h2 => absurd h2 (by omega)⟩
  | n + 1, k, hk => by
    obtain ⟨b, hb, hwf⟩ := h.mapped k (by omega)
    rw [addLoop, hb]
    dsimp only
    rcases addDirent_spec hwf hino hname with ⟨hfull, hno⟩ | ⟨pre, r, post, heq, hr, b', hadd, hseg⟩
    · rw [hfull]
      rcases addLoop_spec h hino hname hne (n := n) (k := k + 1)
        (by omega) with ⟨hrun, hrest⟩ | hdone
      · refine Or.inl ⟨hrun, fun j h1 h2 c hc => ?_⟩
        rcases Nat.eq_or_lt_of_le h1 with rfl | hlt
        · cases hb.symm.trans hc
          exact hno
        · exact hrest j hlt h2 c hc
      · exact Or.inr hdone
    · rw [hadd]
      obtain ⟨hwf', hlive⟩ := inserted_spec h (by omega) hb hne heq hseg
      have hmem : r ∈ records b := heq ▸ List.mem_append_right _ List.mem_cons_self
      exact Or.inr ⟨d.setBlk k b', rfl, hwf', hlive, k, by omega, b, hb, r, hmem, hr⟩

theorem blocks_grow : ({ d with iSize := d.iSize + 4096 } : Dir).blocks = d.blocks + 1 := by
  unfold Dir.blocks
  simp only [Nat.shiftRight_eq_div_pow]
  omega

/-- The block that a directory grows by has one record. -/
theorem seg_newBlock (g : Blk) (hino : ino < 256 ^ 8) (hname : name.length ≤ 255) :
    (splitRecord (put (put g 0 8 0) 8 2 4096) 0) = (0, put (put g 0 8 0) 8 2 4096) ∧
    Seg (fillRecord (put (put g 0 8 0) 8 2 4096) 0 ino name) 0 [⟨ino, 4096, name⟩] 4096 := by
  have hfree : deIno (put (put g 0 8 0) 8 2 4096) 0 = 0 := by
    unfold deIno
    rw [le_put_of_disjoint (by omega), le_put_of_lt (by norm_num)]
  have hlen : deLen (put (put g 0 8 0) 8 2 4096) 0 = 4096 := by
    unfold deLen
    rw [Nat.zero_add, le_put_of_lt (by norm_num)]
  refine ⟨?_, ?_, ⟨show 4096 % 4 = 0 from rfl, ?_⟩, rfl⟩
  · unfold splitRecord
    rw [hfree, if_neg (by omega)]
  · rw [recAt_fillRecord hino hname, hlen]
  · exact (recLen_le hname).trans (show 268 ≤ 4096 by omega)

theorem grown_spec (h : WfDir d) (hseg : Seg b 0 [⟨ino, 4096, name⟩] 4096) (hne : ino ≠ 0)
    (hd' : d' = ({ d with iSize := d.iSize + 4096 } : Dir).setBlk d.blocks b) :
    WfDir d' ∧ live d' = (name, ino) ::ₘ live d := by
  have hblocks : d'.blocks = d.blocks + 1 := by
    rw [hd', blocks_setBlk, blocks_grow]
  have hself : d'.blk d.blocks = some b := by
    rw [hd']
    exact blk_setBlk_self
  have hother : ∀ j, j ≠ d.blocks → d'.blk j = d.blk j := by
    intro j hj
    rw [hd', blk_setBlk_of_ne hj]
  refine ⟨⟨fun j hj => ?_, fun j hj => ?_⟩, ?_⟩
  · by_cases hjk : j = d.blocks
    · subst hjk
      exact ⟨b, hself, wf_of_seg hseg⟩
    · rw [hother j hjk]
      exact h.mapped j (by omega)
  · rw [hother j (by omega)]
    exact h.beyond j (by omega)
  · unfold live
    rw [hblocks, Finset.sum_range_succ, hself]
    have hsum : ∑ j ∈ Finset.range d.blocks, (d'.blk j).elim 0 blkLive =
        ∑ j ∈ Finset.range d.blocks, (d.blk j).elim 0 blkLive := by
      refine Finset.sum_congr rfl fun j hj => ?_
      rw [hother j (Nat.ne_of_lt (Finset.mem_range.mp hj))]
    have hentry : blkLive b = {(name, ino)} := by
      rw [blkLive, records_eq hseg, entriesOf_cons_live hne]
      rfl
    rw [hsum, Option.elim_some, hentry, add_comm, Multiset.singleton_add]

/-- What `pmfs_add_entry` does to a well-formed directory. -/
theorem addEntry_spec (alloc : Except Errno Blk) (h : WfDir d) (hname : 1 ≤ name.length)
    (hname' : name.length ≤ 255) (hino : ino < 256 ^ 8) (hne : ino ≠ 0) :
    (∃ d', pmfsAddEntry d name ino alloc = some (d', none) ∧ WfDir d' ∧
      live d' = (name, ino) ::ₘ live d ∧ (HasRoom d name ∨ ∃ g, alloc = .ok g)) ∨
    ∃ e, alloc = .error e ∧ pmfsAddEntry d name ino alloc = some (d, some e) ∧
    ¬ HasRoom d name := by
  unfold pmfsAddEntry
  rw [if_neg (by omega)]
  rcases addLoop_spec h hino hname' hne (Nat.zero_add _) with ⟨hfull, hno⟩ | ⟨d', hrun,
    hwf, hlive, hroom⟩
  · rw [hfull]
    cases alloc with
    | error e =>
      refine Or.inr ⟨e, rfl, rfl, ?_⟩
      rintro ⟨k, hk, b, hb, r, hr, hfit⟩
      exact hno k (Nat.zero_le k) hk b hb r hr hfit
    | ok g =>
      left
      obtain ⟨hsplit, hseg⟩ := seg_newBlock g hino hname'
      obtain ⟨hwf, hlive⟩ := grown_spec h hseg hne rfl
      refine ⟨_, ?_, hwf, hlive, Or.inr ⟨g, rfl⟩⟩
      dsimp only [Dir.grow, pmfsAddDirentToBuf]
      rw [hsplit, blocks_grow, Nat.add_sub_cancel]
      rfl
  · rw [hrun]
    exact Or.inl ⟨d', rfl, hwf, hlive, Or.inl hroom⟩

/-! ### Removing -/

theorem mem_entriesOf {e : Name × ℕ} : e ∈ entriesOf rs ↔ ∃ r ∈ rs, r.Is e.1 ∧ r.ino = e.2 := by
  unfold entriesOf Rec.Is
  simp only [Multiset.mem_coe, List.mem_map, List.mem_filter, decide_eq_true_eq]
  constructor
  · rintro ⟨r, ⟨hr, hne⟩, rfl⟩
    exact ⟨r, hr, ⟨hne, rfl⟩, rfl⟩
  · rintro ⟨r, hr, ⟨hne, hname⟩, hino⟩
    exact ⟨r, ⟨hr, hne⟩, by rw [hname, hino]⟩

theorem mem_live {e : Name × ℕ} :
    e ∈ live d ↔ ∃ k < d.blocks, ∃ b, d.blk k = some b ∧ e ∈ blkLive b := by
  unfold live
  rw [Multiset.mem_sum]
  constructor
  · rintro ⟨k, hk, he⟩
    cases hb : d.blk k with
    | none =>
      rw [hb] at he
      exact absurd he (Multiset.notMem_zero e)
    | some b =>
      rw [hb] at he
      exact ⟨k, Finset.mem_range.mp hk, b, hb, he⟩
  · rintro ⟨k, hk, b, hb, he⟩
    refine ⟨k, Finset.mem_range.mpr hk, ?_⟩
    rw [hb]
    exact he

/-- The loop of `pmfs_remove_entry`, with either of the two searches. -/
theorem removeLoop_spec (check : Bool) (h : WfDir d) (hname : 1 ≤ name.length) : ∀ {n k : ℕ},
    k + n = d.blocks →
    (removeLoop (fun b name => searchLoop name b check 4097 0 none) d name n k = (d, some .EINVAL) ∧
      ∀ j, k ≤ j → j < d.blocks → ∀ b, d.blk j = some b → ∀ r ∈ records b, ¬ r.Is name) ∨
    ∃ d' ino, removeLoop (fun b name => searchLoop name b check 4097 0 none) d name n k =
    (d', none) ∧
      WfDir d' ∧ live d = (name, ino) ::ₘ live d' ∧ ino ≠ 0
  | 0, k, hk => by
    refine Or.inl ⟨rfl, fun j h1 h2 => ?_⟩
    omega
  | n + 1, k, hk => by
    obtain ⟨b, hb, hwf⟩ := h.mapped k (by omega)
    rw [removeLoop, hb]
    dsimp only
    rcases search_spec check hwf hname with
      ⟨hsearch, hno⟩ | ⟨pre, r, post, o, prev, heq, hr, -, -, hsearch, hseg⟩
    · rw [hsearch]
      dsimp only
      rcases removeLoop_spec check h hname (n := n) (k := k + 1) (by omega) with
        ⟨hrun, hrest⟩ | hdone
      · refine Or.inl ⟨hrun, fun j h1 h2 b1 hb1 => ?_⟩
        by_cases hjk : j = k
        · subst hjk
          rw [hb, Option.some.injEq] at hb1
          exact hb1 ▸ hno
        · exact hrest j (by omega) h2 b1 hb1
      · exact Or.inr hdone
    · rw [hsearch]
      obtain ⟨M, hold, hnew⟩ := live_split (by omega) hb
      refine Or.inr ⟨d.setBlk k (dropRecord b o prev), r.ino, rfl,
        h.setBlk (by omega) (wf_of_seg hseg), ?_, hr.1⟩
      rw [hold, hnew, blkLive, blkLive, records_eq hseg, heq, entriesOf_drop hr.1,
        Multiset.cons_add, hr.2]

theorem not_mem_live (h : ∀ k, k < d.blocks → ∀ b, d.blk k = some b → ∀ r ∈ records b, ¬ r.Is name)
    (i : ℕ) : (name, i) ∉ live d := by
  intro hmem
  obtain ⟨k, hk, b, hb, he⟩ := mem_live.mp hmem
  obtain ⟨r, hr, his, -⟩ := mem_entriesOf.mp he
  exact h k hk b hb r hr his

/-- What either way to remove a name does to a well-formed directory. -/
theorem remove_spec (check : Bool) (h : WfDir d) (hname : 1 ≤ name.length) :
    (removeLoop (fun b name => searchLoop name b check 4097 0 none) d name d.blocks 0 =
      (d, some .EINVAL) ∧ ∀ i, (name, i) ∉ live d) ∨
    ∃ d' ino, removeLoop (fun b name => searchLoop name b check 4097 0 none) d name d.blocks 0 =
      (d', none) ∧ WfDir d' ∧ live d = (name, ino) ::ₘ live d' ∧ ino ≠ 0 := by
  rcases removeLoop_spec check h hname (Nat.zero_add _) with ⟨hrun, hno⟩ | hdone
  · exact Or.inl ⟨hrun, not_mem_live fun k hk => hno k (Nat.zero_le k) hk⟩
  · exact Or.inr hdone

/-- What `pmfs_remove_entry` does to a well-formed directory. -/
theorem removeEntry_spec (h : WfDir d) (hname : 1 ≤ name.length) :
    (pmfsRemoveEntry d name = (d, some .EINVAL) ∧ ∀ i, (name, i) ∉ live d) ∨
    ∃ d' ino, pmfsRemoveEntry d name = (d', none) ∧ WfDir d' ∧ live d = (name, ino) ::ₘ live d' ∧
      ino ≠ 0 := by
  unfold pmfsRemoveEntry
  rw [if_neg (by omega)]
  exact remove_spec true h hname

/-! ### Lookup -/

/-- No record of block `k` is for the name. -/
def Misses (d : Dir) (name : Name) (k : ℕ) : Prop :=
  ∀ b, d.blk k = some b → ∀ r ∈ records b, ¬ r.Is name

/-- A lookup that found the record at `o` of block `k`. -/
def Hits (d : Dir) (name : Name) (k o : ℕ) : Prop :=
  k < d.blocks ∧ ∃ b, d.blk k = some b ∧ (recAt b o).Is name ∧ recAt b o ∈ records b

/-- A name that can be looked up: it is not empty, or there is no record for it. -/
def Named (d : Dir) (name : Name) : Prop := 1 ≤ name.length ∨ ∀ k, Misses d name k

/-- One round of the loop: the block has the name, or the loop goes on. -/
theorem lookup_round (nblocks start fuel : ℕ) (h : WfDir d) (hname : Named d name)
    (hk : k < d.blocks) : (∃ o, lookupLoop d name nblocks start (fuel + 1) k = .found k o ∧
    Hits d name k o) ∨ Misses d name k ∧ lookupLoop d name nblocks start (fuel + 1) k =
      if (if k + 1 ≥ nblocks then 0 else k + 1) = start then .nothing
      else lookupLoop d name nblocks start fuel (if k + 1 ≥ nblocks then 0 else k + 1) := by
  obtain ⟨b, hb, hwf⟩ := h.mapped k hk
  rw [lookupLoop, hb]
  dsimp only
  unfold pmfsSearchDirblock
  rcases hname with hname | hmiss
  swap
  · have hlen := hwf.length_le
    rw [search_none hwf (hmiss k b hb) (by omega)]
    exact Or.inr ⟨hmiss k, rfl⟩
  rcases search_spec true hwf hname with
    ⟨hsearch, hno⟩ | ⟨pre, r, post, o, prev, heq, hr, ho, -, hsearch, -⟩
  · right
    rw [hsearch]
    refine ⟨fun b1 hb1 => ?_, rfl⟩
    rw [hb, Option.some.injEq] at hb1
    exact hb1 ▸ hno
  · left
    rw [hsearch]
    refine ⟨o, rfl, hk, b, hb, ho ▸ hr, ?_⟩
    rw [ho, heq]
    exact List.mem_append_right _ List.mem_cons_self

/-- The loop from `k` on up to `start`, by way of the last block and the first one if `start` is not
ahead. -/
theorem lookup_rest {nblocks start : ℕ} (h : WfDir d) (hname : Named d name)
    (hn : nblocks ≤ d.blocks) (hstart : start < nblocks) : ∀ (fuel : ℕ) {k : ℕ}, k < nblocks →
    k < start ∧ start - k ≤ fuel ∨ start ≤ k ∧ nblocks - k + start ≤ fuel →
    (∃ j o, lookupLoop d name nblocks start fuel k = .found j o ∧ Hits d name j o) ∨
    (lookupLoop d name nblocks start fuel k = .nothing ∧ ∀ j < nblocks,
      k < start ∧ k ≤ j ∧ j < start ∨ start ≤ k ∧ (k ≤ j ∨ j < start) → Misses d name j)
  | 0, k, hk, hfuel => by omega
  | fuel + 1, k, hk, hfuel => by
    rcases lookup_round nblocks start fuel h hname
      (show k < d.blocks by omega) with ⟨o, hfound, hhit⟩ | ⟨hmiss, hnext⟩
    · exact Or.inl ⟨k, o, hfound, hhit⟩
    rw [hnext]
    generalize hm : (if k + 1 ≥ nblocks then 0 else k + 1) = m
    have hm' : m = 0 ∧ k + 1 = nblocks ∨ m = k + 1 ∧ k + 1 < nblocks := by split_ifs at hm <;> omega
    by_cases hlast : m = start
    · rw [if_pos hlast]
      refine Or.inr ⟨rfl, fun j hj hbetween => ?_⟩
      obtain rfl : j = k := by omega
      exact hmiss
    · rw [if_neg hlast]
      rcases lookup_rest h hname hn hstart fuel (k := m) (by omega)
        (by omega) with hfound | ⟨hnone, hrest⟩
      · exact Or.inl hfound
      · refine Or.inr ⟨hnone, fun j hj hbetween => ?_⟩
        by_cases hjk : j = k
        · exact hjk ▸ hmiss
        · exact hrest j hj (by omega)

/-- `pmfs_inode_by_name` finds a record for the name when there is one. -/
theorem findEntry_spec (h : WfDir d) (hname : Named d name) (hname' : name.length ≤ 255) :
    (∃ k o, findEntry d name = .found k o ∧ Hits d name k o) ∨
    ((findEntry d name = .stop ∨ findEntry d name = .nothing) ∧ ∀ k, k < d.blocks →
    Misses d name k) := by
  unfold findEntry
  rw [if_neg (by omega)]
  dsimp only
  by_cases hzero : d.blocks = 0
  · -- an empty directory has no block 0
    have hnone := h.beyond 0 hzero.le
    have hstart : (if isDots name = true ∨ d.startLookup ≥ d.blocks then 0 else d.startLookup) =
      0 :=
      if_pos (Or.inr (by omega))
    rw [hstart, lookupLoop, hnone]
    exact Or.inr ⟨Or.inl rfl, fun k hk => absurd hk (by omega)⟩
  by_cases hdots : isDots name = true
  · rw [if_pos hdots, if_pos (Or.inl hdots)]
    rcases lookup_rest h hname (show 1 ≤ d.blocks by omega) Nat.zero_lt_one (1 + 1)
      Nat.zero_lt_one (by omega) with
      ⟨j, o, hfound, hhit⟩ | ⟨hnone, hmiss⟩
    · rw [hfound]
      exact Or.inl ⟨j, o, rfl, hhit⟩
    · rw [hnone]
      dsimp only
      by_cases hone : 1 < d.blocks
      · rw [if_pos hone]
        rcases lookup_rest h hname le_rfl (show 0 < d.blocks by omega) (d.blocks + 1)
          hone (by omega) with
          hfound | ⟨hnone', hmiss'⟩
        · exact Or.inl hfound
        · refine Or.inr ⟨Or.inr hnone', fun k hk => ?_⟩
          by_cases hk0 : k = 0
          · exact hmiss k (by omega) (by omega)
          · exact hmiss' k hk (by omega)
      · rw [if_neg hone]
        exact Or.inr ⟨Or.inl rfl, fun k hk => hmiss k (by omega) (by omega)⟩
  · rw [if_neg hdots]
    generalize hstart : (if isDots name = true ∨
      d.startLookup ≥ d.blocks then 0 else d.startLookup) = start
    have hlt : start < d.blocks := by
      rw [← hstart]
      split_ifs with hcond
      · omega
      · rw [not_or] at hcond
        omega
    rcases lookup_rest h hname le_rfl hlt (d.blocks + 1) hlt (by omega) with ⟨j, o, hfound,
      hhit⟩ | ⟨hnone, hmiss⟩
    · rw [hfound]
      exact Or.inl ⟨j, o, rfl, hhit⟩
    · rw [hnone]
      dsimp only
      rw [if_neg (lt_irrefl _)]
      exact Or.inr ⟨Or.inl rfl, fun k hk => hmiss k hk (by omega)⟩

/-- Every name has one entry at most. -/
def UniqueNames (d : Dir) : Prop := ((live d).map Prod.fst).Nodup

theorem lookup_named (h : WfDir d) (hname : Named d name) (hname' : name.length ≤ 255) :
    (pmfsInodeByName d name ≠ 0 ∧ (name, pmfsInodeByName d name) ∈ live d) ∨
    (pmfsInodeByName d name = 0 ∧ ∀ i, (name, i) ∉ live d) := by
  unfold pmfsInodeByName
  rcases findEntry_spec h hname hname' with ⟨k, o, hfound, hk, b, hb, his, hmem⟩ | ⟨hend, hmiss⟩
  · left
    rw [hfound]
    dsimp only
    rw [hb, Option.map_some, Option.getD_some]
    refine ⟨his.1, mem_live.mpr ⟨k, hk, b, hb, ?_⟩⟩
    exact mem_entriesOf.mpr ⟨recAt b o, hmem, his, rfl⟩
  · right
    refine ⟨?_, not_mem_live hmiss⟩
    rcases hend with hend | hend
    · rw [hend]
    · rw [hend]

/-- **Lookup.** `pmfs_inode_by_name` returns the inode number of an entry for the name, or 0 when
there is none. -/
theorem lookup_spec (h : WfDir d) (hname : 1 ≤ name.length) (hname' : name.length ≤ 255) :
    (pmfsInodeByName d name ≠ 0 ∧ (name, pmfsInodeByName d name) ∈ live d) ∨
    (pmfsInodeByName d name = 0 ∧ ∀ i, (name, i) ∉ live d) := lookup_named h (Or.inl hname) hname'

theorem ino_unique {i j : ℕ} (hu : UniqueNames d) (hi : (name, i) ∈ live d)
    (hj : (name, j) ∈ live d) : i = j := by
  have heq := Multiset.inj_on_of_nodup_map hu _ hi _ hj rfl
  exact (Prod.mk.injEq _ _ _ _ ▸ heq).2

/-- In a directory with unique names a lookup gives the entry. -/
theorem lookup_eq_iff (h : WfDir d) (hu : UniqueNames d) (hname : 1 ≤ name.length)
    (hname' : name.length ≤ 255) (hne : ino ≠ 0) :
    pmfsInodeByName d name = ino ↔ (name, ino) ∈ live d := by
  rcases lookup_spec h hname hname' with ⟨-, hmem⟩ | ⟨hzero, hno⟩
  · constructor
    · exact fun heq => heq ▸ hmem
    · exact fun hin => ino_unique hu hmem hin
  · rw [hzero]
    exact ⟨fun heq => absurd heq.symm hne, fun hin => absurd hin (hno ino)⟩

theorem lookup_eq_zero_iff (h : WfDir d) (hname : 1 ≤ name.length) (hname' : name.length ≤ 255) :
    pmfsInodeByName d name = 0 ↔ ∀ i, (name, i) ∉ live d := by
  rcases lookup_spec h hname hname' with ⟨hne, hmem⟩ | ⟨hzero, hno⟩
  · exact ⟨fun heq => absurd heq hne, fun hno => absurd hmem (hno _)⟩
  · exact ⟨fun _ => hno, fun _ => hzero⟩

/-- A lookup only depends on the entries for its name. -/
theorem lookup_congr (h : WfDir d) (h' : WfDir d') (hu : UniqueNames d) (hname : 1 ≤ name.length)
    (hname' : name.length ≤ 255) (heq : ∀ i, (name, i) ∈ live d' ↔ (name, i) ∈ live d) :
    pmfsInodeByName d' name = pmfsInodeByName d name := by
  rcases lookup_spec h' hname hname' with ⟨hne, hmem⟩ | ⟨hzero, hno⟩
  · exact ((lookup_eq_iff h hu hname hname' hne).mpr ((heq _).mp hmem)).symm
  · rw [hzero]
    refine ((lookup_eq_zero_iff h hname hname').mpr fun i hi => ?_).symm
    exact hno i ((heq i).mpr hi)

end Pmfs.Dirs.Spec
