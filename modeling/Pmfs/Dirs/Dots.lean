import Pmfs.Dirs.Listing

/-! # Directories with `.` and `..`

`Laid d i p` says that the blocks of `d` are as the code makes them: the first one begins with `.`
for `i` and `..` for `p`. `DirOk d i p` says besides that no block is missing and that the names are
unique. Adding, removing and overwriting other names keep this (`Laid.add`, `Laid.remove`,
`DirOk.add`, `DirOk.remove`, `DirOk.overwrite`). -/

namespace Pmfs.Dirs.Dots

open Lib.Bytes Block.Model Dirs.Model Dirs.Records Dirs.Spec Dirs.Readdir Function
open Dirs.Listing

/-- `.` -/
def dot : Name := [0x2e]

/-- `..` -/
def dotdot : Name := [0x2e, 0x2e]

variable {b b' : Blk} {d d' : Dir} {o k i p : ℕ} {name : Name} {ino : ℕ}

/-! ### The first two records -/

/-- The block begins with the records of `.`, which is 16 bytes long, and `..`, both as strings. -/
structure Head (b : Blk) (i p : ℕ) : Prop where
  ino : deIno b 0 = i
  len : deLen b 0 = 16
  nameLen : deNameLen b 0 = 1
  name : bytes b 12 2 = [0x2e, 0]
  ino' : deIno b 16 = p
  nameLen' : deNameLen b 16 = 2
  name' : bytes b 28 3 = [0x2e, 0x2e, 0]

/-- The head does not depend on the length of the second record. -/
theorem Head.congr (h : Head b i p) (heq : ∀ j, j < 24 ∨ (26 ≤ j ∧ j < 32) → b' j = b j) :
    Head b' i p := by
  constructor
  · rw [← h.ino]
    exact le_congr fun j _ hj => heq j (by omega)
  · rw [← h.len]
    exact le_congr fun j _ hj => heq j (by omega)
  · rw [← h.nameLen]
    exact le_congr fun j _ hj => heq j (by omega)
  · rw [← h.name]
    exact bytes_congr fun j _ hj => heq j (by omega)
  · rw [← h.ino']
    exact le_congr fun j hj hj' => heq j (by omega)
  · rw [← h.nameLen']
    exact le_congr fun j hj hj' => heq j (by omega)
  · rw [← h.name']
    exact bytes_congr fun j hj hj' => heq j (by omega)

/-- The name of a record that is stored as a string. -/
theorem deName_string (name : Name) (hlen : deNameLen b o = name.length)
    (hname : bytes b (o + 12) (name.length + 1) = name ++ [0]) : deName b o = name := by
  unfold deName
  rw [hlen, ← take_bytes (Nat.le_succ _), hname, List.take_left]

theorem Head.recAt_dot (h : Head b i p) : recAt b 0 = ⟨i, 16, dot⟩ := by
  unfold recAt
  rw [h.ino, h.len, deName_string dot h.nameLen h.name]

theorem Head.recAt_dotdot (h : Head b i p) : recAt b 16 = ⟨p, deLen b 16, dotdot⟩ := by
  unfold recAt
  rw [h.ino', deName_string dotdot h.nameLen' h.name']

theorem Head.start_cases (h : Head b i p) (hwf : Wf b) (ho : Start b o) :
    o = 0 ∨ o = 16 ∨ 32 ≤ o := by
  have hzero := start_zero hwf
  rcases Nat.eq_zero_or_pos o with heq | hpos
  · exact Or.inl heq
  have h16 : Start b 16 := by
    have := (hzero.ok (by omega)).2
    rwa [h.recAt_dot] at this
  have hge : 16 ≤ o := by
    have := hzero.next ho hpos
    rw [h.recAt_dot] at this
    exact this
  rcases Nat.eq_or_lt_of_le hge with heq | hgt
  · exact Or.inr (Or.inl heq.symm)
  · right
    right
    have hnext := h16.next ho hgt
    have hok := (h16.ok (by omega)).1.2
    rw [h.recAt_dotdot] at hnext hok
    have hlen : pmfsDirRecLen dotdot.length = 16 := rfl
    rw [hlen] at hok
    omega

theorem Head.other_start (h : Head b i p) (hwf : Wf b) (ho : Start b o) (his : (recAt b o).Is name)
    (h1 : name ≠ dot) (h2 : name ≠ dotdot) : 32 ≤ o := by
  rcases h.start_cases hwf ho with rfl | rfl | hge
  · rw [h.recAt_dot] at his
    exact absurd his.2.symm h1
  · rw [h.recAt_dotdot] at his
    exact absurd his.2.symm h2
  · exact hge

theorem Head.insert (h : Head b i p) (hwf : Wf b) (hp : p ≠ 0) (hi : i ≠ 0) (ho : Start b o)
    (hfit : (recAt b o).Fits (pmfsDirRecLen name.length)) : Head (inserted b o ino name) i p := by
  have hroom := recLen_ge name.length
  refine h.congr fun j hj => ?_
  rcases h.start_cases hwf ho with rfl | rfl | hge
  · -- `.` has no room
    rw [h.recAt_dot] at hfit
    have hlen : pmfsDirRecLen dot.length = 16 := rfl
    rcases hfit with ⟨-, hle⟩ | ⟨hcon, -⟩
    · dsimp only at hle
      omega
    · exact absurd hcon hi
  · have hplace : place b 16 = 32 := by
      rcases place_cases b 16 with ⟨-, heq⟩ | ⟨hfree, -⟩
      · have hlen : pmfsDirRecLen dotdot.length = 16 := rfl
        rw [heq, core, h.recAt_dotdot, hlen]
      · exact absurd (h.ino'.symm.trans hfree) hp
    exact inserted_same (by omega) (by omega)
  · have hplace : o ≤ place b o := by
      have := core_gt (b := b) (o := o)
      rcases place_cases b o with ⟨-, heq⟩ | ⟨-, heq⟩ <;> omega
    exact inserted_same (by omega) (by omega)

theorem Head.drop {prev : Option ℕ} (h : Head b i p) (hwf : Wf b) (ho : Start b o) (hlt : o < 4096)
    (hge : 32 ≤ o) (hprev : Before b o prev) : Head (dropRecord b o prev) i p := by
  cases prev with
  | none =>
    obtain rfl : o = 0 := hprev
    omega
  | some q =>
    refine h.congr fun j hj => put_of_not_mem ?_
    rcases h.start_cases hwf hprev.1 with rfl | rfl | hq
    · have := hprev.2
      rw [h.recAt_dot] at this
      dsimp only at this
      omega
    · omega
    · omega

/-! ### Blocks -/

/-- The blocks of a directory are full of records that `pmfs_check_dir_entry` accepts. Some may be
missing. -/
structure Tidy (d : Dir) : Prop where
  size : d.iSize = 4096 * d.blocks
  good : ∀ k b, k < d.blocks → d.blk k = some b → Wf b ∧ BigBlk b

/-- The first block is there, and begins with `.` and `..`. -/
structure Laid (d : Dir) (i p : ℕ) : Prop extends Tidy d where
  pos : 0 < d.blocks
  head : ∃ b, d.blk 0 = some b ∧ Head b i p
  ino : i ≠ 0
  parent : p ≠ 0

theorem Laid.setBlk (h : Laid d i p) (hk : k < d.blocks) (hgood : Wf b ∧ BigBlk b)
    (hhead : k = 0 → Head b i p) : Laid (d.setBlk k b) i p := by
  refine ⟨⟨h.size, fun j c hj hc => ?_⟩, h.pos, ?_, h.ino, h.parent⟩
  · by_cases hjk : j = k
    · subst hjk
      rw [blk_setBlk_self, Option.some.injEq] at hc
      exact hc ▸ hgood
    · rw [blk_setBlk_of_ne hjk] at hc
      exact h.good j c hj hc
  · by_cases hk0 : 0 = k
    · subst hk0
      exact ⟨b, blk_setBlk_self, hhead rfl⟩
    · rw [blk_setBlk_of_ne hk0]
      exact h.head

theorem Laid.head_of (h : Laid d i p) (hb : d.blk 0 = some b) : Head b i p := by
  obtain ⟨c, hc, hhead⟩ := h.head
  cases hc.symm.trans hb
  exact hhead

theorem Laid.grow {c : Blk} (h : Laid d i p) (hseg : Seg c 0 [⟨ino, 4096, name⟩] 4096)
    (hname : 1 ≤ name.length) :
    Laid (({ d with iSize := d.iSize + 4096 } : Dir).setBlk d.blocks c) i p := by
  have hblocks := blocks_grow (d := d)
  have hsize := h.size
  have hpos := h.pos
  refine ⟨⟨?_, fun j b hj hb => ?_⟩, ?_, ?_, h.ino, h.parent⟩
  · show d.iSize + 4096 = 4096 * ({ d with iSize := d.iSize + 4096 } : Dir).blocks
    omega
  · by_cases hjk : j = d.blocks
    · subst hjk
      rw [blk_setBlk_self, Option.some.injEq] at hb
      exact hb ▸ ⟨wf_of_seg hseg, bigBlk_one hseg hname⟩
    · rw [blk_setBlk_of_ne hjk] at hb
      have hj' : j < ({ d with iSize := d.iSize + 4096 } : Dir).blocks := hj
      exact h.good j b (by omega) hb
  · show 0 < ({ d with iSize := d.iSize + 4096 } : Dir).blocks
    omega
  · rw [blk_setBlk_of_ne (by omega)]
    exact h.head

theorem Laid.add {alloc : Except Errno Blk} {e : Option Errno} (h : Laid d i p)
    (hname : 1 ≤ name.length) (hname' : name.length ≤ 255) (hino : ino < 256 ^ 8)
    (hrun : pmfsAddEntry d name ino alloc = some (d', e)) :
    Laid d' i p := by
  rcases add_cases hname hrun with rfl | ⟨k, b, o, hk, hb, hroom, -, rfl⟩ | ⟨g, -, -, hg⟩
  · exact h
  · obtain ⟨hwfb, hbig⟩ := h.good k b hk hb
    obtain ⟨ho, hlt, hfit⟩ := room_place recLen_pos (start_zero hwfb) hroom
    have hins := insert_spec hino hname' ho hlt hfit
    have hwf' : Wf (inserted b o ino name) :=
      wf_of_start (hins.edit.start (start_zero hwfb) (Or.inl (Nat.zero_le o)))
    refine h.setBlk hk ⟨hwf', hbig.insert hins hname⟩ ?_
    rintro rfl
    exact (h.head_of hb).insert hwfb h.parent h.ino ho hfit
  · obtain ⟨hsplit, hseg⟩ := seg_newBlock g hino hname'
    rw [hsplit] at hg
    exact hg ▸ h.grow hseg hname

theorem Laid.remove (h : Laid d i p) (hname : 1 ≤ name.length) (h1 : name ≠ dot)
    (h2 : name ≠ dotdot) : Laid (pmfsRemoveEntry d name).1 i p := by
  rcases remove_cases hname with heq | ⟨k, b, o, prev, hk, hb, hsearch, heq⟩
  · rw [heq]
    exact h
  · obtain ⟨hwfb, hbig⟩ := h.good k b hk hb
    obtain ⟨ho, hlt, his, hprev⟩ := search_place none (start_zero hwfb) rfl hsearch
    rw [heq]
    refine h.setBlk hk ⟨wf_drop hwfb ho hlt hprev, hbig.drop ho hlt hprev⟩ ?_
    rintro rfl
    have hhead := h.head_of hb
    exact hhead.drop hwfb ho hlt (hhead.other_start hwfb ho his h1 h2) hprev

theorem mem_live_start (h : Tidy d) (hmem : (name, ino) ∈ live d) :
    ∃ k b x, k < d.blocks ∧ d.blk k = some b ∧ Start b x ∧ x < 4096 ∧ (recAt b x).Is name ∧
      (recAt b x).ino = ino := by
  obtain ⟨k, hk, b, hb, he⟩ := mem_live.mp hmem
  obtain ⟨r, hr, his, hino⟩ := mem_entriesOf.mp he
  obtain ⟨x, hx, hlt, rfl⟩ := start_of_mem (h.good k b hk hb).1 hr
  exact ⟨k, b, x, hk, hb, hx, hlt, his, hino⟩

/-! ### Directories -/

/-- A directory as the code makes it, with the inode number `i` and in the directory `p`. -/
structure DirOk (d : Dir) (i p : ℕ) : Prop where
  wf : WfDir d
  unique : UniqueNames d
  size : d.iSize = 4096 * d.blocks
  big : ∀ k b, k < d.blocks → d.blk k = some b → BigBlk b
  pos : 0 < d.blocks
  head : ∀ b, d.blk 0 = some b → Head b i p
  ino : i ≠ 0
  parent : p ≠ 0

theorem DirOk.laid (h : DirOk d i p) : Laid d i p := by
  obtain ⟨b, hb, -⟩ := h.wf.mapped 0 h.pos
  exact ⟨⟨h.size, fun k c hk hc => ⟨(h.wf.blk hc).2, h.big k c hk hc⟩⟩, h.pos, ⟨b, hb, h.head b hb⟩,
    h.ino, h.parent⟩

theorem Laid.dirOk (h : Laid d i p) (hwf : WfDir d) (hunique : UniqueNames d) : DirOk d i p :=
  ⟨hwf, hunique, h.size, fun k b hk hb => (h.good k b hk hb).2, h.pos, fun _ => h.head_of,
    h.ino, h.parent⟩

theorem DirOk.setBlk (h : DirOk d i p) (hk : k < d.blocks) (hwf : Wf b) (hbig : BigBlk b)
    (hunique : UniqueNames (d.setBlk k b)) (hhead : k = 0 → Head b i p) :
    DirOk (d.setBlk k b) i p :=
  (h.laid.setBlk hk ⟨hwf, hbig⟩ hhead).dirOk (h.wf.setBlk hk hwf) hunique

/-- **Adding** a name that is not there. -/
theorem DirOk.add {alloc : Except Errno Blk} (h : DirOk d i p) (hname : 1 ≤ name.length)
    (hname' : name.length ≤ 255) (hino : ino < 256 ^ 8) (hne : ino ≠ 0)
    (hno : ∀ j, (name, j) ∉ live d) (hrun : pmfsAddEntry d name ino alloc = some (d', none)) :
    DirOk d' i p ∧ live d' = (name, ino) ::ₘ live d := by
  rcases addEntry_spec alloc h.wf hname hname' hino hne with ⟨d1, hrun', hwf, hlive,
    -⟩ | ⟨e, -, hrun', -⟩
  · obtain rfl : d1 = d' := by simpa using hrun'.symm.trans hrun
    have hunique := Refine.unique_cons h.unique hno hlive
    exact ⟨(h.laid.add hname hname' hino hrun).dirOk hwf hunique, hlive⟩
  · rw [hrun'] at hrun
    simp at hrun

/-- **Removing** a name other than `.` and `..`. -/
theorem DirOk.remove (h : DirOk d i p) (hname : 1 ≤ name.length) (h1 : name ≠ dot)
    (h2 : name ≠ dotdot) (hmem : (name, ino) ∈ live d) : (pmfsRemoveEntry d name).2 = none ∧
      DirOk (pmfsRemoveEntry d name).1 i p ∧
      live d = (name, ino) ::ₘ live (pmfsRemoveEntry d name).1 := by
  rcases removeEntry_spec h.wf hname with ⟨-, hno⟩ | ⟨d', j, hrun, hwf, hlive, hj⟩
  · exact absurd hmem (hno ino)
  · obtain rfl : ino = j := ino_unique h.unique hmem (hlive ▸ Multiset.mem_cons_self _ _)
    have hlaid := h.laid.remove hname h1 h2
    rw [hrun] at hlaid ⊢
    exact ⟨rfl, hlaid.dirOk hwf (Refine.unique_tail h.unique hlive).1, hlive⟩

/-! ### The record of a name -/

/-- What `pmfs_inode_by_name` finds is in a block. -/
theorem lookupLoop_found {nblocks start : ℕ} : ∀ {fuel block : ℕ},
    lookupLoop d name nblocks start fuel block = .found k o →
    ∃ b prev, d.blk k = some b ∧ pmfsSearchDirblock b name = .found o prev
  | 0, _, h => by simp [lookupLoop] at h
  | fuel + 1, block, h => by
    rw [lookupLoop] at h
    cases hb : d.blk block with
    | none => simp [hb] at h
    | some b =>
      rw [hb] at h
      dsimp only at h
      cases hsearch : pmfsSearchDirblock b name with
      | found res prev =>
        rw [hsearch] at h
        obtain ⟨rfl, rfl⟩ := Lookup.found.inj h
        exact ⟨b, prev, hb, hsearch⟩
      | notFound =>
        rw [hsearch] at h
        dsimp only at h
        split_ifs at h
        · exact lookupLoop_found h
        · exact lookupLoop_found h
      | bad =>
        rw [hsearch] at h
        simp at h
      | endless =>
        rw [hsearch] at h
        simp at h

theorem findEntry_found (h : findEntry d name = .found k o) :
    ∃ b prev, d.blk k = some b ∧ pmfsSearchDirblock b name = .found o prev := by
  unfold findEntry at h
  by_cases hlen : name.length > 255
  · rw [if_pos hlen] at h
    simp at h
  rw [if_neg hlen] at h
  dsimp only at h
  generalize (if isDots name = true then 1 else d.blocks) = nblocks at h
  generalize (if isDots name = true ∨ d.startLookup ≥ d.blocks then 0 else d.startLookup) =
    start at h
  cases hfirst : lookupLoop d name nblocks start (nblocks + 1) start with
  | found k' o' =>
    rw [hfirst] at h
    exact lookupLoop_found (hfirst.trans h)
  | stop =>
    rw [hfirst] at h
    simp at h
  | endless =>
    rw [hfirst] at h
    simp at h
  | nothing =>
    rw [hfirst] at h
    dsimp only at h
    split_ifs at h
    exact lookupLoop_found h

theorem mem_live_of_start (hk : k < d.blocks) (hb : d.blk k = some b) (ho : Start b o)
    (hlt : o < 4096) (his : (recAt b o).Is name) : (name, (recAt b o).ino) ∈ live d :=
  mem_live.mpr ⟨k, hk, b, hb, mem_entriesOf.mpr ⟨_, ho.mem hlt, his, rfl⟩⟩

/-- The record that a search finds, and its entry. -/
theorem search_live {prev : Option ℕ} (h : WfDir d) (hb : d.blk k = some b)
    (hsearch : pmfsSearchDirblock b name = .found o prev) : k < d.blocks ∧ Wf b ∧
    Start b o ∧ o < 4096 ∧
      (recAt b o).Is name ∧ (name, (recAt b o).ino) ∈ live d := by
  obtain ⟨hk, hwfb⟩ := h.blk hb
  obtain ⟨ho, hlt, his, -⟩ := search_place none (start_zero hwfb) rfl hsearch
  exact ⟨hk, hwfb, ho, hlt, his, mem_live_of_start hk hb ho hlt his⟩

/-- The entries when the inode number of a record changes. -/
theorem entriesOf_setIno (pre post : List Rec) {r : Rec} (hr : r.ino ≠ 0) (hne : ino ≠ 0) :
    ∃ M, entriesOf (pre ++ r :: post) = (r.name, r.ino) ::ₘ M ∧
      entriesOf (pre ++ { r with ino := ino } :: post) = (r.name, ino) ::ₘ M := by
  refine ⟨entriesOf pre + entriesOf post, ?_, ?_⟩
  · rw [entriesOf_append, entriesOf_cons_live hr, Multiset.add_cons]
  · rw [entriesOf_append, entriesOf_cons_live hne, Multiset.add_cons]

/-- The records when the inode number of one changes. -/
theorem records_setIno (ho : Start b o) (hlt : o < 4096) (his : (recAt b o).Is name)
    (hino : ino < 256 ^ 8) : ∃ pre r post, records b = pre ++ r :: post ∧ r.ino ≠ 0 ∧
    r.name = name ∧ Wf (put b o 8 ino) ∧
      records (put b o 8 ino) = pre ++ { r with ino := ino } :: post := by
  obtain ⟨pre, post, hpre, hpost⟩ := id ho
  cases post with
  | nil => exact absurd hpost (Nat.ne_of_lt hlt)
  | cons r post =>
    obtain ⟨hr, hok, hrest⟩ := hpost
    have hlen := hok.len_pos
    have hsame : ∀ j, j < o ∨ o + r.len ≤ j → put b o 8 ino j = b j :=
      fun j hj => put_of_not_mem (by omega)
    have hnew : recAt (put b o 8 ino) o = { r with ino := ino } := by
      rw [recAt_putIno hino, hr]
    have hseg : Seg (put b o 8 ino) 0 (pre ++ ([{ r with ino := ino }] ++ post)) 4096 :=
      seg_replace hpre hrest hsame ⟨hnew, hok, rfl⟩
    exact ⟨pre, r, post, records_eq (seg_append.mpr ⟨o, hpre, hr, hok, hrest⟩),
      hr ▸ his.1, hr ▸ his.2, wf_of_seg hseg, records_eq hseg⟩

/-- **Overwriting** the inode number of a name. -/
theorem overwrite_live {prev : Option ℕ} (h : WfDir d) (hb : d.blk k = some b)
    (hsearch : pmfsSearchDirblock b name = .found o prev) (hino : ino < 256 ^ 8) (hne : ino ≠ 0) :
    ∃ M j, live d = (name, j) ::ₘ M ∧ live (d.setBlk k (put b o 8 ino)) = (name, ino) ::ₘ M ∧
      WfDir (d.setBlk k (put b o 8 ino)) := by
  obtain ⟨hk, hwfb, ho, hlt, his, -⟩ := search_live h hb hsearch
  obtain ⟨pre, r, post, hrecs, hrino, hrname, hwf', hrecs'⟩ := records_setIno ho hlt his hino
  obtain ⟨M, hold, hlive⟩ := live_split hk hb
  obtain ⟨N, hN, hN'⟩ := entriesOf_setIno pre post hrino hne
  refine ⟨N + M, r.ino, ?_, ?_, h.setBlk hk hwf'⟩
  · rw [hold, blkLive, hrecs, hN, Multiset.cons_add, hrname]
  · rw [hlive, blkLive, hrecs', hN', Multiset.cons_add, hrname]

/-- Overwriting keeps a directory in order, for a name other than `.` and `..`. -/
theorem DirOk.overwrite {prev : Option ℕ} (h : DirOk d i p) (hb : d.blk k = some b)
    (hsearch : pmfsSearchDirblock b name = .found o prev) (h1 : name ≠ dot) (h2 : name ≠ dotdot)
    (hino : ino < 256 ^ 8) (hne : ino ≠ 0) :
    ∃ M j, live d = (name, j) ::ₘ M ∧ live (d.setBlk k (put b o 8 ino)) = (name, ino) ::ₘ M ∧
      DirOk (d.setBlk k (put b o 8 ino)) i p := by
  obtain ⟨hk, hwfb, ho, hlt, his, -⟩ := search_live h.wf hb hsearch
  obtain ⟨pre, r, post, hrecs, hrino, -, hwf', hrecs'⟩ := records_setIno ho hlt his hino
  obtain ⟨M, j, hlive0, hlive1, -⟩ := overwrite_live h.wf hb hsearch hino hne
  refine ⟨M, j, hlive0, hlive1, h.setBlk hk hwf' ?_ ?_ ?_⟩
  · refine bigBlk_of_records fun x hx => ?_
    have hbig := (h.big k b hk hb).records hwfb
    rw [hrecs] at hbig
    rw [hrecs'] at hx
    rcases List.mem_append.mp hx with hx | hx
    · exact hbig x (List.mem_append_left _ hx)
    · rcases List.mem_cons.mp hx with rfl | hx
      · have hold := hbig r (List.mem_append_right _ List.mem_cons_self)
        exact ⟨hold.1, fun _ => hold.2 hrino⟩
      · exact hbig x (List.mem_append_right _ (List.mem_cons_of_mem _ hx))
  · have hunique := h.unique
    unfold UniqueNames at hunique ⊢
    rw [hlive0, Multiset.map_cons] at hunique
    rw [hlive1, Multiset.map_cons]
    exact hunique
  · rintro rfl
    have hhead := h.head b hb
    have hge := hhead.other_start hwfb ho his h1 h2
    exact hhead.congr fun j hj => put_of_not_mem (by omega)

/-! ### New directories -/

theorem makeEmpty_eq : makeEmpty b i p =
    put (put (put (put
    (putBytes (put (put (put (put (putBytes b 12 [0x2e, 0]) 0 8 i) 10 1 1) 8 2 16) 11 1 1)
      28 [0x2e, 0x2e, 0]) 16 8 p) 24 2 4080) 26 1 2) 27 1 1 := rfl

theorem head_makeEmpty (hi : i < 256 ^ 8) (hp : p < 256 ^ 8) :
    Head (makeEmpty b i p) i p ∧ deLen (makeEmpty b i p) 16 = 4080 := by
  have hone : [(0x2e : UInt8), 0].length = 2 := rfl
  have htwo : [(0x2e : UInt8), 0x2e, 0].length = 3 := rfl
  rw [makeEmpty_eq]
  unfold deLen
  constructor
  · constructor
    · unfold deIno
      simp (disch := omega) only [le_put_of_disjoint, le_putBytes_of_disjoint, le_put_of_lt hi]
    · unfold deLen
      simp (disch := omega) only [le_put_of_disjoint, le_putBytes_of_disjoint,
        Nat.zero_add, le_put_of_lt]
    · unfold deNameLen
      simp (disch := omega) only [le_put_of_disjoint, le_putBytes_of_disjoint,
        Nat.zero_add, le_put_of_lt]
    · simp (disch := omega) only [bytes_put_of_disjoint, bytes_putBytes_of_disjoint]
      exact bytes_putBytes
    · unfold deIno
      simp (disch := omega) only [le_put_of_disjoint, le_put_of_lt hp]
    · unfold deNameLen
      simp (disch := omega) only [le_put_of_disjoint, Nat.reduceAdd, le_put_of_lt]
    · simp (disch := omega) only [bytes_put_of_disjoint]
      exact bytes_putBytes
  · simp (disch := omega) only [le_put_of_disjoint, Nat.reduceAdd, le_put_of_lt]

/-- A directory of one block that has nothing but `.` and `..`. -/
theorem DirOk.one {c : Blk} (hhead : Head c i p) (hlen : deLen c 16 = 4080)
    (hi0 : i ≠ 0) (hp0 : p ≠ 0) : DirOk ⟨4096, update (fun _ => none) 0 (some c), 0⟩ i p ∧
    live ⟨4096, update (fun _ => none) 0 (some c), 0⟩ = {(dot, i), (dotdot, p)} := by
  have hseg : Seg c 0 [⟨i, 16, dot⟩, ⟨p, 4080, dotdot⟩] 4096 := by
    refine ⟨hhead.recAt_dot, ⟨show 16 % 4 = 0 by decide, show pmfsDirRecLen 1 ≤ 16 by decide⟩, ?_,
      ⟨show 4080 % 4 = 0 by decide, show pmfsDirRecLen 2 ≤ 4080 by decide⟩, rfl⟩
    rw [← hlen]
    exact hhead.recAt_dotdot
  have hwf := wf_of_seg hseg
  have hblocks : (⟨4096, update (fun _ => none) 0 (some c), 0⟩ : Dir).blocks = 1 :=
    show 4096 >>> 12 = 1 by decide
  have hlive : live ⟨4096, update (fun _ => none) 0 (some c), 0⟩ = {(dot, i), (dotdot, p)} := by
    unfold live
    rw [hblocks, Finset.sum_range_one]
    show blkLive c = _
    rw [blkLive, records_eq hseg, entriesOf_cons_live hi0,
      entriesOf_cons_live hp0]
    rfl
  refine ⟨⟨⟨fun k hk => ?_, fun k hk => ?_⟩, ?_, ?_, fun k b hk hb => ?_, ?_, fun b hb => ?_,
    hi0, hp0⟩, hlive⟩
  · obtain rfl : k = 0 := by omega
    exact ⟨c, rfl, hwf⟩
  · show update (fun _ => none) 0 (some c) k = none
    rw [update_of_ne (by omega)]
  · unfold UniqueNames
    rw [hlive]
    show (({dot, dotdot} : Multiset Name)).Nodup
    decide
  · rw [hblocks]
  · obtain rfl : k = 0 := by omega
    cases hb
    refine bigBlk_of_records fun r hr => ?_
    rw [records_eq hseg] at hr
    rcases List.mem_cons.mp hr with rfl | hr
    · exact ⟨show pmfsDirRecLen 1 ≤ 16 by decide, fun _ => show 1 ≤ 1 by decide⟩
    · obtain rfl := List.mem_singleton.mp hr
      exact ⟨show pmfsDirRecLen 1 ≤ 4080 by decide, fun _ => show 1 ≤ 2 by decide⟩
  · omega
  · cases hb
    exact hhead

theorem DirOk.new (hi : i < 256 ^ 8) (hp : p < 256 ^ 8) (hi0 : i ≠ 0) (hp0 : p ≠ 0) :
    DirOk ⟨4096, update (fun _ => none) 0 (some (makeEmpty b i p)), 0⟩ i p ∧
    live ⟨4096, update (fun _ => none) 0 (some (makeEmpty b i p)), 0⟩ =
    {(dot, i), (dotdot, p)} := by
  obtain ⟨hhead, hlen⟩ := head_makeEmpty hi hp
  exact DirOk.one hhead hlen hi0 hp0

theorem DirOk.lookup_parent (h : DirOk d i p) : pmfsInodeByName d dotdot = p := by
  obtain ⟨b, hb, hwfb⟩ := h.wf.mapped 0 h.pos
  have hhead := h.head b hb
  have h16 : Start b 16 := by
    have := ((start_zero hwfb).ok (by omega)).2
    rwa [hhead.recAt_dot] at this
  have his : (recAt b 16).Is dotdot := by
    rw [hhead.recAt_dotdot]
    exact ⟨h.parent, rfl⟩
  have hmem := mem_live_of_start h.pos hb h16 (by omega) his
  rw [hhead.recAt_dotdot] at hmem
  exact (lookup_eq_iff h.wf h.unique (by decide) (by decide) h.parent).mpr hmem

end Pmfs.Dirs.Dots
