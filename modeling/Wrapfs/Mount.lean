import Mathlib
import Wrapfs.Kernel

/-!
# Mount options (`main.c`)

`wrapfs_parse_mount_options` cuts the option string at commas and looks at one token after the
other; `mmap` sets `aops_enabled`, which decides in `wrapfs_iget` whether a file gets the
encrypting operations.  So whether a mount encrypts at all hangs on this parser.

What `%u` accepts and how `match_int` ends are parameters, the latter for each token.
`match_token` is modelled on the two patterns of `wrapfs_tokens`; a token that matches neither is
unknown.  The debug level goes to a debugging message only and is left out.

## Two forms of the loop

`parseLoop` is the loop of the source, in which `strsep` cuts one token off the string in each
turn; it ends because what is left is shorter (`strsep_lt`).  `parseTokens` is the same loop over
the list of the tokens, and `parseLoop_eq` says that the two agree on `tokensOf`, which is
`List.splitOn`.  The inductions are on the list.

## The exits of the loop

| token                          | `err`     | the tokens behind it |
|--------------------------------|-----------|----------------------|
| empty, `mmap`, `debug=` number | unchanged | are looked at        |
| `debug=` refused by `match_int`| `-EINVAL` | are not              |
| unknown                        | 0         | are not              |

A debug level that is not a number ends the parse with an error.  An unknown token ends it as
well, by the same `goto out`, but with `err` still 0: the tokens behind it are never looked at,
and the caller is told that all is well.  So an `mmap` behind an unknown token is lost, unless one
was seen before.

`OptionsHonoured` is what a user may expect of a successful parse: the encrypting operations if
and only if `mmap` is among the tokens.  `optionsHonoured_iff` says that the lost `mmap` is the
only way to be disappointed, and that between strings that lose none the order of the tokens does
not matter.  That it can happen, with an option string as short as `x,mmap`, is
`mmap_lost_behind_unknown`.
-/

namespace Wrapfs

/-! ## Tokens -/

/-- The tokens of `wrapfs_tokens`. -/
inductive MountOpt where
  | debug
  | mmap
  deriving DecidableEq

/-- `debug=`, the fixed part of the first pattern. -/
def debugText : List Char := "debug=".toList

/-- The second pattern. -/
def mmapText : List Char := "mmap".toList

/-- `match_token(p, wrapfs_tokens, args)`, where `isNumber` is what `%u` accepts to the end of
the token. -/
def matchToken (isNumber : List Char → Bool) (p : List Char) : Option MountOpt :=
  if debugText.isPrefixOf p && isNumber (p.drop debugText.length) then some .debug
  else if p = mmapText then some .mmap
  else none

/-- `strsep(&options, ",")`: the token, and what is left if there was a comma. -/
def strsep (options : List Char) : List Char × Option (List Char) :=
  match options.dropWhile (· ≠ ',') with
  | [] => (options, none)
  | _ :: rest => (options.takeWhile (· ≠ ','), some rest)

/-- What `strsep` leaves is shorter than what it was given. -/
theorem strsep_lt {options rest : List Char} (h : (strsep options).2 = some rest) :
    rest.length < options.length := by
  unfold strsep at h
  cases hdrop : options.dropWhile (· ≠ ',') with
  | nil =>
      rw [hdrop] at h
      cases h
  | cons c cs =>
      rw [hdrop] at h
      cases h
      have hle := (List.dropWhile_suffix (l := options) (· ≠ ',')).length_le
      rw [hdrop, List.length_cons] at hle
      exact hle

/-- The comma-separated tokens of a string. -/
def tokensOf (options : List Char) : List (List Char) := options.splitOn ','

/-- `strsep` takes the tokens one by one. -/
theorem tokensOf_eq (options : List Char) :
    tokensOf options = (strsep options).1 ::
      match (strsep options).2 with
      | none => []
      | some rest => tokensOf rest := by
  have hjoin : options.takeWhile (· ≠ ',') ++ options.dropWhile (· ≠ ',') = options :=
    List.takeWhile_append_dropWhile
  have hno : ∀ c ∈ options.takeWhile (· ≠ ','), (c == ',') = false := fun c hc => by
    simpa using List.mem_takeWhile_imp hc
  unfold strsep
  cases hdrop : options.dropWhile (· ≠ ',') with
  | nil =>
      rw [hdrop, List.append_nil] at hjoin
      rw [hjoin] at hno
      exact List.splitOnP_eq_singleton hno
  | cons c rest =>
      have hc : c = ',' := by
        have hne : options.dropWhile (· ≠ ',') ≠ [] := by
          rw [hdrop]
          exact List.cons_ne_nil _ _
        have hhead := List.head_dropWhile_not (· ≠ ',') hne
        simp only [hdrop, List.head_cons] at hhead
        simpa using hhead
      rw [hdrop, hc] at hjoin
      conv_lhs => rw [← hjoin]
      exact List.splitOnP_append_cons_of_forall_mem hno ',' rfl rest

/-! ## The parser -/

section Parse

variable (isNumber : List Char → Bool) (matchInt : ℕ → Bool)

/-- One turn of the loop: `aops_enabled` after it, or the value of `err` it leaves the loop
with.  `intOk` is whether `match_int` succeeds. -/
def parseToken (intOk : Bool) (p : List Char) (aopsEnabled : Bool) : Except ℤ Bool :=
  if p = [] then .ok aopsEnabled
  else
    match matchToken isNumber p with
    | some .debug => if intOk then .ok aopsEnabled else .error Errno.EINVAL.ret
    | some .mmap => .ok true
    -- `default: goto out;` with `err` still 0
    | none => .error 0

/-- The loop, with `err` and `aops_enabled` at its end.  `n` tokens have been seen. -/
def parseLoop (n : ℕ) (options : List Char) (aopsEnabled : Bool) : ℤ × Bool :=
  match parseToken isNumber (matchInt n) (strsep options).1 aopsEnabled with
  | .error err => (err, aopsEnabled)
  | .ok aopsEnabled' =>
      match hrest : (strsep options).2 with
      | none => (0, aopsEnabled')
      | some rest => parseLoop (n + 1) rest aopsEnabled'
termination_by options.length
decreasing_by exact strsep_lt hrest

/-- `wrapfs_parse_mount_options(options, sb)`: its return value and `aops_enabled`
afterwards. -/
def wrapfsParseMountOptions (options : Option (List Char)) (aopsEnabled : Bool) : ℤ × Bool :=
  match options with
  | none => (Errno.EINVAL.ret, aopsEnabled)
  | some options => parseLoop isNumber matchInt 0 options false

/-- The loop over the tokens as a list. -/
def parseTokens : ℕ → List (List Char) → Bool → ℤ × Bool
  | _, [], aopsEnabled => (0, aopsEnabled)
  | n, p :: rest, aopsEnabled =>
      match parseToken isNumber (matchInt n) p aopsEnabled with
      | .error err => (err, aopsEnabled)
      | .ok aopsEnabled' => parseTokens (n + 1) rest aopsEnabled'

/-- The loop over the string is the loop over its tokens. -/
theorem parseLoop_eq (n : ℕ) (options : List Char) (aopsEnabled : Bool) :
    parseLoop isNumber matchInt n options aopsEnabled =
      parseTokens isNumber matchInt n (tokensOf options) aopsEnabled := by
  fun_induction parseLoop isNumber matchInt n options aopsEnabled with
  | case1 n options aopsEnabled err htoken =>
      rw [tokensOf_eq, parseTokens, htoken]
  | case2 n options aopsEnabled aopsEnabled' htoken hrest =>
      rw [tokensOf_eq, parseTokens, htoken, hrest]
      rfl
  | case3 n options aopsEnabled aopsEnabled' htoken rest hrest ih =>
      rw [tokensOf_eq, parseTokens, htoken, hrest]
      exact ih

/-! ## What the mount is asked for -/

/-- A token that is neither empty nor known. -/
def UnknownToken (p : List Char) : Prop := p ≠ [] ∧ matchToken isNumber p = none

/-- Among the tokens `ts`, the first of them being token number `n`, there is a debug
level that `match_int` refuses. -/
def BadDebug (n : ℕ) (ts : List (List Char)) : Prop :=
  ∃ i p, ts[i]? = some p ∧ matchToken isNumber p = some .debug ∧ matchInt (n + i) = false

/-- No `mmap` is lost: whenever one follows an unknown token, there is another, or a debug
level that ends the parse with an error, before that token. -/
def NoneLost (n : ℕ) (ts : List (List Char)) : Prop :=
  ∀ pre u post, ts = pre ++ u :: post → UnknownToken isNumber u → mmapText ∈ post →
    mmapText ∈ pre ∨ BadDebug isNumber matchInt n pre

/-- A parse that returns 0 has set `aops_enabled` exactly when it is asked for. -/
def OptionsHonoured (options : List Char) : Prop :=
  (wrapfsParseMountOptions isNumber matchInt (some options) false).1 = 0 →
    ((wrapfsParseMountOptions isNumber matchInt (some options) false).2 = true ↔
      mmapText ∈ tokensOf options)

/-- What `wrapfs_iget` gives an inode: file operations and address space operations. -/
inductive InodeOps where
  | dir
  | mmap
  | main
  deriving DecidableEq

/-- `inode->i_fop` and `inode->i_mapping->a_ops`: for a file, `wrapfs_mmap_fops` with
`wrapfs_aops`, or `wrapfs_main_fops` with `wrapfs_aops_null`. -/
def inodeOps (aopsEnabled isDir : Bool) : InodeOps :=
  if isDir then .dir else if aopsEnabled then .mmap else .main

variable {isNumber matchInt}

/-- The text `mmap` matches the second pattern. -/
theorem matchToken_mmapText : matchToken isNumber mmapText = some .mmap := by
  have hdebug : debugText.isPrefixOf mmapText = false := by decide
  rw [matchToken, hdebug, Bool.false_and, if_neg Bool.false_ne_true, if_pos rfl]

/-- Nothing but the text `mmap` matches the second pattern. -/
theorem matchToken_eq_mmap {p : List Char} (h : matchToken isNumber p = some .mmap) :
    p = mmapText := by
  unfold matchToken at h
  split_ifs at h with _ hp
  · cases h
  · exact hp

theorem mmapText_ne_nil : mmapText ≠ [] := by decide

variable (isNumber) in
/-- What one token does to the parse: it is skipped, it is `mmap`, it is a debug level that
is refused, or it is unknown. -/
theorem parseToken_cases (intOk : Bool) (p : List Char) (aopsEnabled : Bool) :
    (parseToken isNumber intOk p aopsEnabled = .ok aopsEnabled ∧ p ≠ mmapText ∧
        ¬ UnknownToken isNumber p ∧ (matchToken isNumber p = some .debug → intOk = true)) ∨
      (parseToken isNumber intOk p aopsEnabled = .ok true ∧ p = mmapText) ∨
      (parseToken isNumber intOk p aopsEnabled = .error Errno.EINVAL.ret ∧
        matchToken isNumber p = some .debug ∧ intOk = false) ∨
      (parseToken isNumber intOk p aopsEnabled = .error 0 ∧ UnknownToken isNumber p) := by
  by_cases hnil : p = []
  · left
    subst hnil
    refine ⟨rfl, mmapText_ne_nil.symm, fun h => h.1 rfl, fun h => ?_⟩
    rw [matchToken] at h
    simp [debugText, mmapText] at h
  · have hrun : parseToken isNumber intOk p aopsEnabled =
        match matchToken isNumber p with
        | some .debug => if intOk then .ok aopsEnabled else .error Errno.EINVAL.ret
        | some .mmap => .ok true
        | none => .error 0 := if_neg hnil
    rw [hrun]
    cases hmatch : matchToken isNumber p with
    | none => exact Or.inr (Or.inr (Or.inr ⟨rfl, hnil, hmatch⟩))
    | some opt =>
        cases opt with
        | mmap => exact Or.inr (Or.inl ⟨rfl, matchToken_eq_mmap hmatch⟩)
        | debug =>
            cases intOk with
            | false => exact Or.inr (Or.inr (Or.inl ⟨rfl, rfl, rfl⟩))
            | true =>
                refine Or.inl ⟨rfl, ?_, ?_, fun _ => rfl⟩
                · rintro rfl
                  rw [matchToken_mmapText] at hmatch
                  cases hmatch
                · rintro ⟨-, hnone⟩
                  rw [hmatch] at hnone
                  cases hnone

/-- A refused debug level is the first token or among the others. -/
theorem badDebug_cons {n : ℕ} {p : List Char} {ts : List (List Char)} :
    BadDebug isNumber matchInt n (p :: ts) ↔
      (matchToken isNumber p = some .debug ∧ matchInt n = false) ∨
        BadDebug isNumber matchInt (n + 1) ts := by
  constructor
  · rintro ⟨i, q, hq, hdebug, hint⟩
    cases i with
    | zero =>
        cases hq
        exact Or.inl ⟨hdebug, hint⟩
    | succ i =>
        refine Or.inr ⟨i, q, hq, hdebug, ?_⟩
        rwa [show n + (i + 1) = n + 1 + i by omega] at hint
  · rintro (⟨hdebug, hint⟩ | ⟨i, q, hq, hdebug, hint⟩)
    · exact ⟨0, p, rfl, hdebug, hint⟩
    · refine ⟨i + 1, q, hq, hdebug, ?_⟩
      rwa [show n + (i + 1) = n + 1 + i by omega]

theorem not_badDebug_nil {n : ℕ} : ¬ BadDebug isNumber matchInt n [] := by
  rintro ⟨i, q, hq, -⟩
  cases hq

/-- The ways to cut a list at one of its elements. -/
theorem noneLost_cons {n : ℕ} {p : List Char} {ts : List (List Char)} :
    NoneLost isNumber matchInt n (p :: ts) ↔
      (UnknownToken isNumber p → mmapText ∉ ts) ∧
        ∀ pre u post, ts = pre ++ u :: post → UnknownToken isNumber u → mmapText ∈ post →
          mmapText ∈ p :: pre ∨ BadDebug isNumber matchInt n (p :: pre) := by
  constructor
  · intro h
    refine ⟨fun hp hmem => ?_, fun pre u post hts hu hpost => ?_⟩
    · rcases h [] p ts rfl hp hmem with hnil | hbad
      · exact absurd hnil List.not_mem_nil
      · exact not_badDebug_nil hbad
    · exact h (p :: pre) u post (by rw [hts, List.cons_append]) hu hpost
  · rintro ⟨hhead, htail⟩ pre u post hts hu hpost
    rcases List.cons_eq_append_iff.mp hts with ⟨rfl, hcons⟩ | ⟨pre', rfl, hts'⟩
    · cases hcons
      exact absurd hpost (hhead hu)
    · exact htail pre' u post hts' hu hpost

variable (isNumber matchInt) in
/-- **The loop, from any point on.**  With `aops_enabled` not yet set, a parse that returns 0
sets it exactly when an `mmap` is still to come, if and only if none is lost; once it is
set, it stays. -/
theorem parseTokens_honoured_iff (n : ℕ) (ts : List (List Char)) :
    (((parseTokens isNumber matchInt n ts false).1 = 0 →
        ((parseTokens isNumber matchInt n ts false).2 = true ↔ mmapText ∈ ts)) ↔
      NoneLost isNumber matchInt n ts) ∧
      (parseTokens isNumber matchInt n ts true).2 = true := by
  induction ts generalizing n with
  | nil =>
      refine ⟨iff_of_true (fun _ => ?_) fun pre u post h => ?_, rfl⟩
      · simp [parseTokens]
      · simp at h
  | cons p ts ih =>
      obtain ⟨ihfalse, ihtrue⟩ := ih (n + 1)
      constructor
      · rw [noneLost_cons]
        rcases parseToken_cases isNumber (matchInt n) p false with
          ⟨hrun, hne, hknown, hint⟩ | ⟨hrun, rfl⟩ | ⟨hrun, hdebug, hint⟩ | ⟨hrun, hunknown⟩
        · -- the token is passed over: neither side depends on it
          have hbad : ∀ pre, BadDebug isNumber matchInt n (p :: pre) ↔
              BadDebug isNumber matchInt (n + 1) pre := by
            intro pre
            rw [badDebug_cons, or_iff_right]
            rintro ⟨hdebug, hfalse⟩
            rw [hint hdebug] at hfalse
            cases hfalse
          simp only [parseTokens, hrun, List.mem_cons, hne.symm, false_or, hbad]
          rw [ihfalse]
          exact ⟨fun h => ⟨fun hp => absurd hp hknown, h⟩, fun h => h.2⟩
        · -- `mmap` itself
          simp only [parseTokens, hrun, ihtrue]
          refine iff_of_true (fun _ => iff_of_true trivial List.mem_cons_self)
            ⟨fun h => ?_, fun pre u post _ _ _ => Or.inl List.mem_cons_self⟩
          rw [UnknownToken, matchToken_mmapText] at h
          exact absurd h.2 (Option.some_ne_none _)
        · -- a refused debug level: the parse fails
          simp only [parseTokens, hrun]
          refine iff_of_true (fun h => absurd h (Errno.ret_ne_zero _))
            ⟨fun h => ?_, fun pre u post _ _ _ =>
              Or.inr (badDebug_cons.mpr (Or.inl ⟨hdebug, hint⟩))⟩
          rw [UnknownToken, hdebug] at h
          exact absurd h.2 (Option.some_ne_none _)
        · -- an unknown token: whatever follows is lost
          have hne : mmapText ≠ p := by
            rintro rfl
            rw [UnknownToken, matchToken_mmapText] at hunknown
            exact absurd hunknown.2 (Option.some_ne_none _)
          simp only [parseTokens, hrun, List.mem_cons, hne, false_or]
          constructor
          · intro h
            have hmem : mmapText ∉ ts := fun hmem => Bool.false_ne_true ((h trivial).mpr hmem)
            refine ⟨fun _ => hmem, fun pre u post hts _ hpost => absurd ?_ hmem⟩
            rw [hts]
            exact List.mem_append_right _ (List.mem_cons_of_mem _ hpost)
          · rintro ⟨hhead, -⟩ _
            exact iff_of_false Bool.false_ne_true (hhead hunknown)
      · rcases parseToken_cases isNumber (matchInt n) p true with
          ⟨hrun, -⟩ | ⟨hrun, -⟩ | ⟨hrun, -⟩ | ⟨hrun, -⟩
        all_goals simp only [parseTokens, hrun, ihtrue]

/-- The parse as a loop over the tokens; `aops_enabled` starts out false whatever it was before. -/
theorem wrapfsParseMountOptions_some (options : List Char) (aopsEnabled : Bool) :
    wrapfsParseMountOptions isNumber matchInt (some options) aopsEnabled =
      parseTokens isNumber matchInt 0 (tokensOf options) false :=
  parseLoop_eq isNumber matchInt 0 options false

/-- One string: the options are honoured exactly when no `mmap` is lost. -/
theorem optionsHonoured_iff_noneLost (options : List Char) :
    OptionsHonoured isNumber matchInt options ↔
      NoneLost isNumber matchInt 0 (tokensOf options) := by
  rw [OptionsHonoured, wrapfsParseMountOptions_some]
  exact (parseTokens_honoured_iff isNumber matchInt 0 (tokensOf options)).1

end Parse

/-- **When mount options are honoured.**  For every option string, whatever `%u` accepts and
however `match_int` ends for each token: a successful parse enables the encrypting
operations exactly when `mmap` is among the tokens, if and only if every `mmap` behind an
unknown token has another one, or a refused debug level, before that token.  Two strings
with the same tokens that both parse and lose no `mmap` give the same operations. -/
theorem optionsHonoured_iff (isNumber : List Char → Bool) :
    (∀ (matchInt : ℕ → Bool) (options : List Char),
      OptionsHonoured isNumber matchInt options ↔
        NoneLost isNumber matchInt 0 (tokensOf options)) ∧
    ∀ (matchInt matchInt' : ℕ → Bool) (options options' : List Char),
      (tokensOf options).Perm (tokensOf options') →
      NoneLost isNumber matchInt 0 (tokensOf options) →
      NoneLost isNumber matchInt' 0 (tokensOf options') →
      (wrapfsParseMountOptions isNumber matchInt (some options) false).1 = 0 →
      (wrapfsParseMountOptions isNumber matchInt' (some options') false).1 = 0 →
      ∀ isDir,
        inodeOps (wrapfsParseMountOptions isNumber matchInt (some options) false).2 isDir =
          inodeOps (wrapfsParseMountOptions isNumber matchInt' (some options') false).2 isDir := by
  refine ⟨fun matchInt options => optionsHonoured_iff_noneLost options, ?_⟩
  intro matchInt matchInt' options options' hperm hlost hlost' hret hret' isDir
  have haops := optionsHonoured_iff_noneLost options |>.mpr hlost hret
  have haops' := optionsHonoured_iff_noneLost options' |>.mpr hlost' hret'
  have hmem : mmapText ∈ tokensOf options ↔ mmapText ∈ tokensOf options' := hperm.mem_iff
  have hsame := Bool.eq_iff_iff.mpr (haops.trans (hmem.trans haops'.symm))
  rw [hsame]

/-- Decimal digits only, for runs on concrete strings. -/
def decimal (p : List Char) : Bool := !p.isEmpty && p.all Char.isDigit

/-- `optionsHonoured_iff` for `debug=1,mmap` and `mmap,debug=1`. -/
theorem optionsHonoured_iff_two_orders :
    OptionsHonoured decimal (fun _ => true) "debug=1,mmap".toList ∧
      inodeOps (wrapfsParseMountOptions decimal (fun _ => true)
          (some "debug=1,mmap".toList) false).2 false =
        inodeOps (wrapfsParseMountOptions decimal (fun _ => true)
          (some "mmap,debug=1".toList) false).2 false := by
  have hlost : NoneLost decimal (fun _ => true) 0 (tokensOf "debug=1,mmap".toList) :=
    (parseTokens_honoured_iff _ _ _ _).1.mp (by decide)
  have hlost' : NoneLost decimal (fun _ => true) 0 (tokensOf "mmap,debug=1".toList) :=
    (parseTokens_honoured_iff _ _ _ _).1.mp (by decide)
  obtain ⟨hone, hboth⟩ := optionsHonoured_iff decimal
  refine ⟨(hone _ _).mpr hlost, hboth _ _ _ _ (by decide) hlost hlost' ?_ ?_ false⟩
  · rw [wrapfsParseMountOptions_some]
    decide
  · rw [wrapfsParseMountOptions_some]
    decide

/-- The options `x,mmap` parse, and the mount does not encrypt; with `mmap,x` it does. -/
theorem mmap_lost_behind_unknown :
    ¬ OptionsHonoured decimal (fun _ => true) "x,mmap".toList ∧
      (tokensOf "x,mmap".toList).Perm (tokensOf "mmap,x".toList) ∧
      wrapfsParseMountOptions decimal (fun _ => true) (some "x,mmap".toList) false = (0, false) ∧
      wrapfsParseMountOptions decimal (fun _ => true) (some "mmap,x".toList) false = (0, true) := by
  rw [OptionsHonoured, wrapfsParseMountOptions_some, wrapfsParseMountOptions_some]
  decide

end Wrapfs
