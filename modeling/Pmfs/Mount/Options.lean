import Pmfs.Block.Model
import Mathlib.Tactic.Common

/-! # Mount options

`pmfs_parse_options` and `pmfs_remount` (`super.c`). The options are applied one by one while the
string is read. A remount that meets a bad one puts the flags and `s_mount_opt` back and returns an
error, but options before the bad one may have set the group, the mode or the debug mask as well:
`remount_restores_iff`.

The conversions of numbers and users are those of the kernel and come as an argument. -/

namespace Pmfs.Mount.Options

open Block.Model

/-! ### Options -/

/-- The tokens of `pmfs_parse_options`. -/
inductive Token where
  | Opt_bpi | Opt_init | Opt_jsize
  | Opt_num_inodes | Opt_mode | Opt_uid
  | Opt_gid | Opt_blocksize | Opt_wprotect | Opt_wprotectold
  | Opt_err_cont | Opt_err_panic | Opt_err_ro
  | Opt_hugemmap | Opt_nohugeioremap | Opt_dbgmask | Opt_bs | Opt_err
deriving DecidableEq, Repr

/-- What stands at the end of a pattern: nothing, `%u`, `%o` or `%s`. -/
inductive Conv where
  | none | u | o | s
deriving DecidableEq, Repr

/-- `tokens`: the text of each pattern up to the conversion at its end. -/
def tokens : List (Token × String × Conv) :=
  [(.Opt_bpi, "bpi=", .u), (.Opt_init, "init", .none), (.Opt_jsize, "jsize=", .s),
    (.Opt_num_inodes, "num_inodes=", .u), (.Opt_mode, "mode=", .o), (.Opt_uid, "uid=", .u),
    (.Opt_gid, "gid=", .u), (.Opt_wprotect, "wprotect", .none),
    (.Opt_wprotectold, "wprotectold", .none), (.Opt_err_cont, "errors=continue", .none),
    (.Opt_err_panic, "errors=panic", .none), (.Opt_err_ro, "errors=remount-ro", .none),
    (.Opt_hugemmap, "hugemmap", .none), (.Opt_nohugeioremap, "nohugeioremap", .none),
    (.Opt_dbgmask, "dbgmask=", .u), (.Opt_bs, "backing_dev=", .s)]

/-- What the kernel reads from a text: how many characters of it `simple_strtoul` takes as a number
to a base, the values of `match_int`, `match_octal` and `memparse`, and the identifiers of users and
groups. -/
structure Kernel where
  simpleStrtoul : ℕ → List Char → ℕ
  matchInt : List Char → Option ℤ
  matchOctal : List Char → Option ℤ
  memparse : List Char → ℕ
  makeKuid : ℤ → ℕ
  makeKgid : ℤ → ℕ

/-- `match_one` for the text behind the first part of a pattern. -/
def matchConv (k : Kernel) (arg : List Char) : Conv → Bool
  | .none => arg.isEmpty
  | .u => k.simpleStrtoul 0 arg != 0 && k.simpleStrtoul 0 arg == arg.length
  | .o => k.simpleStrtoul 8 arg != 0 && k.simpleStrtoul 8 arg == arg.length
  | .s => !arg.isEmpty

/-- `match_token`: the first pattern that an option matches, with its argument. -/
def matchToken (k : Kernel) (p : List Char) : Token × List Char :=
  match tokens.find? fun t => t.2.1.toList.isPrefixOf p &&
    matchConv k (p.drop t.2.1.toList.length) t.2.2 with
  | some t => (t.1, p.drop t.2.1.toList.length)
  | none => (.Opt_err, [])

/-! ### Mount state -/

def PMFS_MOUNT_PROTECT : UInt64 := 0x000001

def PMFS_MOUNT_POSIX_ACL : UInt64 := 0x000004

def PMFS_MOUNT_ERRORS_CONT : UInt64 := 0x000010

def PMFS_MOUNT_ERRORS_RO : UInt64 := 0x000020

def PMFS_MOUNT_ERRORS_PANIC : UInt64 := 0x000040

def PMFS_MOUNT_HUGEMMAP : UInt64 := 0x000080

def PMFS_MOUNT_HUGEIOREMAP : UInt64 := 0x000100

def PMFS_MOUNT_PROTECT_OLD : UInt64 := 0x000200

def PMFS_MOUNT_FORMAT : UInt64 := 0x000400

def PMFS_MINIMUM_JOURNAL_SIZE : UInt32 := 65536

def MS_POSIXACL : UInt64 := 0x10000

/-- The flags of the super block, the fields of `pmfs_sb_info` that options set, and `pmfs_dbgmask`.
-/
structure Settings where
  sFlags : UInt64
  sMountOpt : UInt64
  uid : ℕ
  gid : ℕ
  mode : ℕ
  bpi : ℕ
  numInodes : ℕ
  jsize : UInt32
  dbgmask : ℕ
deriving DecidableEq

/-- `set_opt`. -/
def Settings.setOpt (s : Settings) (opt : UInt64) : Settings :=
  { s with sMountOpt := s.sMountOpt ||| opt }

/-- `clear_opt`. -/
def Settings.clearOpt (s : Settings) (opt : UInt64) : Settings :=
  { s with sMountOpt := s.sMountOpt &&& ~~~opt }

/-- An `int` in an unsigned field of some bits. -/
def unsigned (bits : ℕ) (option : ℤ) : ℕ := (option % 2 ^ bits).toNat

/-- One round of `pmfs_parse_options`: the state after it, and whether the option was good. -/
def parseOption (k : Kernel) (remount : Bool) (p : List Char) (s : Settings) : Settings × Bool :=
  let r := matchToken k p
  let number (conv : List Char → Option ℤ) (set : ℤ → Settings) : Settings × Bool :=
    match conv r.2 with
    | some option => (set option, true)
    | none => (s, false)
  match r.1 with
  | .Opt_bpi =>
    if remount then (s, false)
    else number k.matchInt fun option => { s with bpi := unsigned 64 option }
  | .Opt_uid =>
    if remount then (s, false)
    else number k.matchInt fun option => { s with uid := k.makeKuid option }
  | .Opt_gid => number k.matchInt fun option => { s with gid := k.makeKgid option }
  | .Opt_mode => number k.matchOctal fun option => { s with mode := unsigned 32 option &&& 0o1777 }
  | .Opt_init => if remount then (s, false) else (s.setOpt PMFS_MOUNT_FORMAT, true)
  | .Opt_jsize =>
    if remount then (s, false)
    else if !(r.2.head?.elim false Char.isDigit) then (s, false)
    else
      let s := { s with jsize := UInt32.ofNat (k.memparse r.2) }
      (s, !(s.jsize &&& (s.jsize - 1) != 0 || s.jsize < PMFS_MINIMUM_JOURNAL_SIZE))
  | .Opt_num_inodes =>
    if remount then (s, false) else number k.matchInt fun option =>
      { s with numInodes := unsigned 64 option }
  | .Opt_err_panic =>
    (((s.clearOpt PMFS_MOUNT_ERRORS_CONT).clearOpt PMFS_MOUNT_ERRORS_RO).setOpt
      PMFS_MOUNT_ERRORS_PANIC, true)
  | .Opt_err_ro =>
    (((s.clearOpt PMFS_MOUNT_ERRORS_CONT).clearOpt PMFS_MOUNT_ERRORS_PANIC).setOpt
      PMFS_MOUNT_ERRORS_RO, true)
  | .Opt_err_cont =>
    (((s.clearOpt PMFS_MOUNT_ERRORS_RO).clearOpt PMFS_MOUNT_ERRORS_PANIC).setOpt
      PMFS_MOUNT_ERRORS_CONT, true)
  | .Opt_wprotect => if remount then (s, false) else (s.setOpt PMFS_MOUNT_PROTECT, true)
  | .Opt_wprotectold => if remount then (s, false) else (s.setOpt PMFS_MOUNT_PROTECT_OLD, true)
  | .Opt_hugemmap => if remount then (s, false) else (s.setOpt PMFS_MOUNT_HUGEMMAP, true)
  | .Opt_nohugeioremap => if remount then (s, false) else (s.clearOpt PMFS_MOUNT_HUGEIOREMAP, true)
  | .Opt_dbgmask => number k.matchInt fun option => { s with dbgmask := unsigned 32 option }
  | .Opt_blocksize | .Opt_bs | .Opt_err => (s, false)

/-- The loop of `pmfs_parse_options` over the parts of the string; empty ones are passed over. -/
def parseLoop (k : Kernel) (remount : Bool) : List (List Char) → Settings → Settings × Option Errno
  | [], s => (s, none)
  | p :: rest, s =>
    if p.isEmpty then parseLoop k remount rest s
    else
      let r := parseOption k remount p s
      if r.2 then parseLoop k remount rest r.1 else (r.1, some .EINVAL)

/-- `pmfs_parse_options`. -/
def pmfsParseOptions (k : Kernel) (options : Option (List Char)) (s : Settings) (remount : Bool) :
    Settings × Option Errno :=
  match options with
  | none => (s, none)
  | some options => parseLoop k remount (options.splitOn ',') s

/-- `pmfs_remount`. The time of the mount in the super block is left out. -/
def pmfsRemount (k : Kernel) (data : Option (List Char)) (s : Settings) : Settings × Option Errno :=
  let r := pmfsParseOptions k data s true
  match r.2 with
  | some _ => ({ r.1 with sFlags := s.sFlags, sMountOpt := s.sMountOpt }, some .EINVAL)
  | none => ({ r.1 with sFlags := (s.sFlags &&& ~~~MS_POSIXACL) |||
      if r.1.sMountOpt &&& PMFS_MOUNT_POSIX_ACL != 0 then MS_POSIXACL else 0 }, none)

/-! ### What a remount accepts -/

/-- The number an option gives when it is the one of a token. -/
def valueOf (k : Kernel) (token : Token) (conv : List Char → Option ℤ) (p : List Char) : Option ℤ :=
  if (matchToken k p).1 = token then conv (matchToken k p).2 else none

/-- The group an option sets. -/
def gidOf (k : Kernel) (p : List Char) : Option ℕ :=
  (valueOf k .Opt_gid k.matchInt p).map k.makeKgid

/-- The mode an option sets. -/
def modeOf (k : Kernel) (p : List Char) : Option ℕ :=
  (valueOf k .Opt_mode k.matchOctal p).map fun option => unsigned 32 option &&& 0o1777

/-- The debug mask an option sets. -/
def dbgmaskOf (k : Kernel) (p : List Char) : Option ℕ :=
  (valueOf k .Opt_dbgmask k.matchInt p).map (unsigned 32)

/-- The options that a remount accepts: those three with a good number, and the three for errors. -/
def accepted (k : Kernel) (p : List Char) : Bool :=
  (gidOf k p).isSome || (modeOf k p).isSome || (dbgmaskOf k p).isSome ||
    (matchToken k p).1 ∈ [Token.Opt_err_cont, .Opt_err_panic, .Opt_err_ro]

/-- The options of a string: its parts that are not empty. -/
def given (options : List Char) : List (List Char) :=
  (options.splitOn ',').filter fun p => !p.isEmpty

/-- The options before the first one that is refused. -/
def taken (k : Kernel) (options : List Char) : List (List Char) :=
  (given options).takeWhile (accepted k)

/-- The last value set by a list of options. -/
def lastSet {α : Type*} (value : List Char → Option α) (l : List (List Char)) (old : α) : α :=
  (l.filterMap value).getLast?.getD old

@[simp]
theorem lastSet_nil {α : Type*} (value : List Char → Option α) (old : α) :
    lastSet value [] old = old := rfl

/-- The first option's value is the old one of those that follow. -/
@[simp]
theorem lastSet_cons {α : Type*} (value : List Char → Option α) (p : List Char)
    (l : List (List Char)) (old : α) :
    lastSet value (p :: l) old = lastSet value l ((value p).getD old) := by
  unfold lastSet
  cases hv : value p with
  | none => simp [hv]
  | some v => simp [hv, List.getLast?_cons]

/-- The settings that a list of accepted options leaves, up to the flags of `s_mount_opt`. -/
def Left (k : Kernel) (l : List (List Char)) (s s' : Settings) : Prop :=
  ∃ o, s' = { s with
    sMountOpt := o
    gid := lastSet (gidOf k) l s.gid
    mode := lastSet (modeOf k) l s.mode
    dbgmask := lastSet (dbgmaskOf k) l s.dbgmask }

theorem Left.cons {k : Kernel} {p : List Char} {l : List (List Char)} {s s1 s2 : Settings}
    (h : Left k [p] s s1) (hl : Left k l s1 s2) : Left k (p :: l) s s2 := by
  obtain ⟨o, rfl⟩ := h
  obtain ⟨o', rfl⟩ := hl
  exact ⟨o', by simp⟩

theorem parseOption_remount (k : Kernel) (p : List Char) (s : Settings) :
    (parseOption k true p s).2 = accepted k p ∧
      if accepted k p then Left k [p] s (parseOption k true p s).1
      else (parseOption k true p s).1 = s := by
  rcases hm : matchToken k p with ⟨token, arg⟩
  -- one case per token; only `gid`, `mode`, `dbgmask` and the three for errors are not refused
  cases token <;>
    simp only [parseOption, accepted, Left, gidOf, modeOf, dbgmaskOf, valueOf, hm,
      lastSet_cons, lastSet_nil]
  case Opt_gid => cases k.matchInt arg <;> simp
  case Opt_mode => cases k.matchOctal arg <;> simp
  case Opt_dbgmask => cases k.matchInt arg <;> simp
  case Opt_err_cont => simp [Settings.setOpt, Settings.clearOpt]
  case Opt_err_panic => simp [Settings.setOpt, Settings.clearOpt]
  case Opt_err_ro => simp [Settings.setOpt, Settings.clearOpt]
  all_goals simp

/-- The loop in a remount sets what the options before the first refused one set, and fails if there
is a refused one. -/
theorem parseLoop_remount (k : Kernel) (l : List (List Char)) (s : Settings) :
    Left k ((l.filter fun p => !p.isEmpty).takeWhile (accepted k)) s (parseLoop k true l s).1 ∧
      (parseLoop k true l s).2 = if (l.filter fun p => !p.isEmpty).all (accepted k) then none
      else some .EINVAL := by
  induction l generalizing s with
  | nil => exact ⟨⟨s.sMountOpt, rfl⟩, rfl⟩
  | cons p l ih =>
    obtain ⟨hok, hleft⟩ := parseOption_remount k p s
    by_cases hp : p.isEmpty
    · simpa [parseLoop, hp] using ih s
    · cases ha : accepted k p with
      | false =>
        simp only [ha, Bool.false_eq_true, if_false] at hok hleft
        simp only [parseLoop, hp, hok, hleft, ha, Bool.false_eq_true, if_false,
          List.filter_cons, List.all_cons, List.takeWhile_cons, Bool.not_false,
          if_true, Bool.false_and]
        exact ⟨⟨s.sMountOpt, rfl⟩, trivial⟩
      | true =>
        simp only [ha, if_true] at hok hleft
        obtain ⟨hl, he⟩ := ih (parseOption k true p s).1
        simp only [parseLoop, hp, hok, ha, Bool.false_eq_true, if_false,
          List.filter_cons, List.all_cons, List.takeWhile_cons, Bool.not_false,
          if_true, Bool.true_and]
        exact ⟨hleft.cons hl, he⟩

/-- The remount succeeds exactly when every option is accepted. -/
theorem remount_ok_iff (k : Kernel) (options : List Char) (s : Settings) :
    (pmfsRemount k (some options) s).2 = none ↔ ∀ p ∈ given options, accepted k p = true := by
  obtain ⟨-, he⟩ := parseLoop_remount k (options.splitOn ',') s
  by_cases h : (given options).all (accepted k) = true
  · have hn : (pmfsParseOptions k (some options) s true).2 = none := he.trans (if_pos h)
    simpa [pmfsRemount, hn] using List.all_eq_true.mp h
  · have hn : (pmfsParseOptions k (some options) s true).2 = some .EINVAL := he.trans (if_neg h)
    simpa [pmfsRemount, hn, List.all_eq_true] using h

theorem remount_rejected {k : Kernel} {options : List Char} {s : Settings}
    (h : (pmfsRemount k (some options) s).2 ≠ none) :
    (pmfsRemount k (some options) s).1 = { s with
      gid := lastSet (gidOf k) (taken k options) s.gid
      mode := lastSet (modeOf k) (taken k options) s.mode
      dbgmask := lastSet (dbgmaskOf k) (taken k options) s.dbgmask } := by
  obtain ⟨⟨o, hl⟩, -⟩ := parseLoop_remount k (options.splitOn ',') s
  cases he : (pmfsParseOptions k (some options) s true).2 with
  | none => simp [pmfsRemount, he] at h
  | some e =>
    have hs : (pmfsParseOptions k (some options) s true).1 = _ := hl
    simp only [pmfsRemount, he, hs]
    rfl

/-- **Main result.** A remount that fails leaves the flags and every option as they were exactly
when no option is refused (then it does not fail), or the last `gid=`, `mode=` and `dbgmask=` before
the first refused option give the current values again. -/
theorem remount_restores_iff (k : Kernel) (options : List Char) (s : Settings) :
    ((pmfsRemount k (some options) s).2 ≠ none → (pmfsRemount k (some options) s).1 = s) ↔
      (∀ p ∈ given options, accepted k p = true) ∨
        lastSet (gidOf k) (taken k options) s.gid = s.gid ∧
          lastSet (modeOf k) (taken k options) s.mode = s.mode ∧
          lastSet (dbgmaskOf k) (taken k options) s.dbgmask = s.dbgmask := by
  rw [← remount_ok_iff k options s]
  by_cases h : (pmfsRemount k (some options) s).2 = none
  · simp [h]
  · simp only [ne_eq, h, not_false_eq_true, true_imp_iff, false_or, remount_rejected h]
    cases s
    simp only [Settings.mk.injEq, true_and]

/-! ### Example -/

/-- A kernel that reads digits and takes users and groups as they are. -/
def decimal : Kernel where
  simpleStrtoul _ arg := (arg.takeWhile Char.isDigit).length
  matchInt arg := some (arg.foldl (fun n c => 10 * n + (c.toNat - 48)) 0 : ℕ)
  matchOctal arg := some (arg.foldl (fun n c => 8 * n + (c.toNat - 48)) 0 : ℕ)
  memparse _ := 0
  makeKuid := Int.toNat
  makeKgid := Int.toNat

/-- A file system mounted without options. -/
def plain : Settings where
  sFlags := 0
  sMountOpt := 0
  uid := 0
  gid := 0
  mode := 0o755
  bpi := 0
  numInodes := 0
  jsize := 4194304
  dbgmask := 0

/-- With the options `gid=5,foo` the second is refused, and the group stays changed. -/
theorem rejected_remount_keeps_group :
    pmfsRemount decimal (some "gid=5,foo".toList) plain =
    ({ plain with gid := 5 }, some .EINVAL) := by
  decide +kernel

end Pmfs.Mount.Options
