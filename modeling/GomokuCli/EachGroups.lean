import GomokuCli.OptionsParse
import GomokuCli.Library.EarlyExit

/-!
# What `-each` overrides

The groups of a command line are the arguments behind each `-each` and each
`-engine`.  `optionsParse_groups` says what `options_parse` makes of them: one
engine for every `-engine` group, over it the settings of all `-each` groups.

The merge takes a value of `-each` that differs from zero for one that was
given.  The settings of `-each` start with the defaults of an engine, and two of
these are not zero: once there is an `-each` group, `maxmemory` and `tolerance`
are overridden with their defaults unless the group names them
(`eachOverridesOnlyNamed_iff`).
-/

namespace GomokuCli

open EarlyExit (bind_eq_ok)

namespace OptionsParse

/-! ## Groups and values -/

/-- How many arguments an option consumes. -/
def Flag.consumed (flag : Flag) (args : List Arg) : Nat :=
  match flag with
  | .each | .engine | .openings | .sprt | .sample => (group args).length
  | .concurrency | .games | .rounds | .pgn | .sgf | .msg | .drawafter | .rule | .boardsize => 1
  | .resign | .draw => 2
  | _ => 0

/-- The groups behind the occurrences of `flag`.  They are found without reading what is in
them. -/
def groups (flag : Flag) : Nat → List Arg → List (List Arg)
  | _, [] => []
  | skip + 1, _ :: args => groups flag skip args
  | 0, a :: args =>
      match Flag.ofArg a with
      | none => []
      | some f =>
          (if f = flag then [group args] else []) ++ groups flag (f.consumed args) args

/-- The text that a group gives for a key; of several the last one counts. -/
def given (k : Key) (tokens : List Arg) : Option (List Char) :=
  (tokens.filterMap fun a => stringPrefix a k.text).getLast?

/-- The value of a key. -/
inductive Value
  | text (s : List Char)
  | number (n : Int)
  | times (timeoutMatch timeoutTurn increment : Int)
  deriving DecidableEq, Repr

/-- The value that an engine has for a key. -/
def EngineSettings.get (eo : EngineSettings) : Key → Value
  | .cmd => .text eo.cmd
  | .name => .text eo.name
  | .tc => .times eo.timeoutMatch eo.timeoutTurn eo.increment
  | .depth => .number eo.depth
  | .nodes => .number eo.nodes
  | .maxmemory => .number eo.maxMemory
  | .thread => .number eo.numThreads
  | .tolerance => .number eo.tolerance

/-- The documented defaults: no text, no limits, the number of threads not set,
350 MB of memory and a tolerance of three seconds. -/
def Key.documented : Key → Value
  | .cmd | .name => .text []
  | .tc => .times 0 0 0
  | .depth | .nodes | .thread => .number 0
  | .maxmemory => .number (350 * 1024 * 1024)
  | .tolerance => .number (3 * 1000)

/-- The value that a text denotes. -/
def Key.read (F : Floats) : Key → List Char → Value
  | .cmd, tail | .name, tail => .text tail
  | .tc, tail => .times (readTc F tail).1 (readTc F tail).2.1 (readTc F tail).2.2
  | .depth, tail | .thread, tail => .number (atoi tail)
  | .nodes, tail => .number (atoll tail)
  | .maxmemory, tail => .number (F.toInt64 (F.atof tail))
  | .tolerance, tail => .number (F.toMillis (F.atof tail))

/-- The value that a group gives for a key, or the documented default.  It is what an engine
would have without any `-each`. -/
def own (F : Floats) (tokens : List Arg) (k : Key) : Value :=
  ((given k tokens).map (k.read F)).getD k.documented

/-- Every engine has its own value for the keys that no `-each` group names.  A setting that
`-each` does not mention should be left alone by it. -/
def EachOverridesOnlyNamed (F : Floats) (args : List Arg) (eo : List EngineSettings) : Prop :=
  List.Forall₂
    (fun tokens e => ∀ k, given k (groups .each 0 args).flatten = none →
      e.get k = own F tokens k)
    (groups .engine 0 args) eo

/-! ## One group -/

theorem get_default (k : Key) : ({} : EngineSettings).get k = k.documented := by
  cases k <;> rfl

theorem get_set (F : Floats) (eo : EngineSettings) (k k' : Key) (tail : List Char) :
    (eo.set F k tail).get k' = if k' = k then k.read F tail else eo.get k' := by
  cases k <;> cases k' <;> rfl

theorem Key.eq_of_stringPrefix {a : Arg} {k k' : Key} {t t' : List Char}
    (h : stringPrefix a k.text = some t) (h' : stringPrefix a k'.text = some t') : k = k' := by
  have hpre : k.text.isPrefixOf a := by
    by_contra hno
    simp [stringPrefix, hno] at h
  have hpre' : k'.text.isPrefixOf a := by
    by_contra hno
    simp [stringPrefix, hno] at h'
  -- of two texts in front of the same argument one is in front of the other
  have hcomparable := List.prefix_or_prefix_of_prefix (List.isPrefixOf_iff_prefix.mp hpre)
    (List.isPrefixOf_iff_prefix.mp hpre')
  revert hcomparable
  cases k <;> cases k' <;> decide

theorem Key.ofArg_eq_some_iff {a : Arg} {k : Key} {tail : List Char} :
    Key.ofArg a = some (k, tail) ↔ stringPrefix a k.text = some tail := by
  have hsound : ∀ k' t, Key.ofArg a = some (k', t) → stringPrefix a k'.text = some t := by
    intro k' t h
    obtain ⟨k₁, -, heq⟩ := List.exists_of_findSome?_eq_some h
    obtain ⟨t₁, ht₁, hpair⟩ := Option.map_eq_some_iff.mp heq
    cases hpair
    exact ht₁
  refine ⟨hsound k tail, fun h => ?_⟩
  cases hfound : Key.ofArg a with
  | none =>
      have hnone := List.findSome?_eq_none_iff.mp hfound k (by cases k <;> decide)
      rw [h] at hnone
      cases hnone
  | some found =>
      obtain ⟨k', t'⟩ := found
      have h' := hsound k' t' hfound
      obtain rfl := Key.eq_of_stringPrefix h' h
      rw [h] at h'
      cases h'
      rfl

variable {F : Floats}

theorem get_engineToken {eo eo' : EngineSettings} {a : Arg}
    (h : engineToken F eo a = .ok eo') (k : Key) :
    eo'.get k = ((stringPrefix a k.text).map (k.read F)).getD (eo.get k) := by
  rw [engineToken] at h
  cases hkey : Key.ofArg a with
  | some found =>
      obtain ⟨k', tail⟩ := found
      rw [hkey] at h
      cases h
      have htail := Key.ofArg_eq_some_iff.mp hkey
      rw [get_set]
      by_cases hk : k = k'
      · subst hk
        rw [if_pos rfl, htail]
        rfl
      · rw [if_neg hk]
        cases hother : stringPrefix a k.text with
        | none => rfl
        | some t => exact absurd (Key.eq_of_stringPrefix hother htail) hk
  | none =>
      have hnone : stringPrefix a k.text = none := by
        cases hother : stringPrefix a k.text with
        | none => rfl
        | some t =>
            rw [Key.ofArg_eq_some_iff.mpr hother] at hkey
            cases hkey
      rw [hkey] at h
      rw [hnone]
      cases hoption : stringPrefix a "option.".toList with
      | none =>
          simp only [hoption] at h
          cases h
      | some tail =>
          simp only [hoption] at h
          cases h
          cases k <;> rfl

theorem given_cons (k : Key) (a : Arg) (tokens : List Arg) :
    given k (a :: tokens) = (given k tokens).or (stringPrefix a k.text) := by
  rw [given, given, List.filterMap_cons]
  cases stringPrefix a k.text with
  | none => simp
  | some tail =>
      rw [List.getLast?_cons]
      cases (tokens.filterMap fun a => stringPrefix a k.text).getLast? <;> rfl

/-- After the tokens of a group a key has the value of the last one that gives
it. -/
theorem get_foldlM_engineToken {tokens : List Arg} {eo eo' : EngineSettings}
    (h : tokens.foldlM (engineToken F) eo = .ok eo') (k : Key) :
    eo'.get k = ((given k tokens).map (k.read F)).getD (eo.get k) := by
  induction tokens generalizing eo with
  | nil =>
      cases h
      rfl
  | cons a tokens ih =>
      rw [List.foldlM_cons] at h
      cases hfirst : engineToken F eo a with
      | error stop =>
          rw [hfirst] at h
          cases h
      | ok eo₁ =>
          rw [hfirst] at h
          rw [ih h, get_engineToken hfirst, given_cons]
          cases given k tokens <;> rfl

/-! ## The command line -/

theorem whileTokens_eq_ok {σ : Type} {body : σ → Arg → Except Stop σ} {args : List Arg}
    {s s' : σ} {n : Nat} (h : whileTokens body args s = .ok (s', n)) :
    (group args).foldlM body s = .ok s' ∧ n = (group args).length := by
  obtain ⟨s₁, hfold, hret⟩ := bind_eq_ok.1 h
  cases hret
  exact ⟨hfold, rfl⟩

/-- The step leaves what concerns the engines as it is. -/
def SameEngines (s s' : ParseState F) : Prop :=
  s'.each = s.each ∧ s'.eachSet = s.eachSet ∧ s'.eo = s.eo

/-- The options other than `-each` and `-engine` leave the engines alone. -/
theorem sameEngines_of_parseFlag {a : Arg} {flag : Flag} {args : List Arg} {s s' : ParseState F}
    {n : Nat} (heach : flag ≠ .each) (hengine : flag ≠ .engine)
    (h : parseFlag a flag args s = .ok (s', n)) :
    n = flag.consumed args ∧ SameEngines s s' := by
  cases flag with
  | each => exact absurd rfl heach
  | engine => exact absurd rfl hengine
  | openings =>
      obtain ⟨⟨o, n'⟩, ho, hret⟩ := bind_eq_ok.1 h
      obtain ⟨-, rfl⟩ := whileTokens_eq_ok ho
      cases hret
      exact ⟨rfl, rfl, rfl, rfl⟩
  | sample =>
      obtain ⟨⟨o, n'⟩, ho, hret⟩ := bind_eq_ok.1 h
      obtain ⟨⟨sp, n''⟩, hsp, hret'⟩ := bind_eq_ok.1 ho
      obtain ⟨-, rfl⟩ := whileTokens_eq_ok hsp
      cases hret'
      cases hret
      exact ⟨rfl, rfl, rfl, rfl⟩
  | sprt =>
      obtain ⟨⟨o, n'⟩, ho, hret⟩ := bind_eq_ok.1 h
      obtain ⟨⟨p, n''⟩, hp, hret'⟩ := bind_eq_ok.1 ho
      obtain ⟨-, rfl⟩ := whileTokens_eq_ok hp
      cases hvalid : p.validate with
      | false =>
          simp only [hvalid] at hret'
          cases hret'
      | true =>
          simp only [hvalid] at hret'
          cases hret'
          cases hret
          exact ⟨rfl, rfl, rfl, rfl⟩
  | boardsize =>
      obtain ⟨next, hnext, hret⟩ := bind_eq_ok.1 h
      split at hret
      · cases hret
        exact ⟨rfl, rfl, rfl, rfl⟩
      · cases hret
  | rule =>
      obtain ⟨next, hnext, hrest⟩ := bind_eq_ok.1 h
      obtain ⟨rule, hrule, hret⟩ := bind_eq_ok.1 hrest
      cases hret
      exact ⟨rfl, rfl, rfl, rfl⟩
  | concurrency | games | rounds | pgn | sgf | msg | drawafter =>
      obtain ⟨next, hnext, hret⟩ := bind_eq_ok.1 h
      cases hret
      exact ⟨rfl, rfl, rfl, rfl⟩
  | resign | draw =>
      obtain ⟨⟨count, score⟩, hpair, hret⟩ := bind_eq_ok.1 h
      cases hret
      exact ⟨rfl, rfl, rfl, rfl⟩
  | repeats | transform | gauntlet | loseonly | log | debug | sendbyboard | fatalerror =>
      cases h
      exact ⟨rfl, rfl, rfl, rfl⟩

/-- Everything an option can do to the engines: `-each` and `-engine` read their group, the
others leave the engines alone. -/
theorem parseFlag_cases {a : Arg} {flag : Flag} {args : List Arg} {s s' : ParseState F} {n : Nat}
    (h : parseFlag a flag args s = .ok (s', n)) :
    n = flag.consumed args ∧
      ((flag = .each ∧ ∃ each, (group args).foldlM (engineToken F) s.each = .ok each ∧
          s' = { s with each := each, eachSet := true }) ∨
        (flag = .engine ∧ ∃ e, (group args).foldlM (engineToken F) {} = .ok e ∧
          s' = { s with eo := s.eo ++ [e] }) ∨
        (flag ≠ .each ∧ flag ≠ .engine ∧ SameEngines s s')) := by
  by_cases heach : flag = .each
  · subst heach
    obtain ⟨⟨each, n'⟩, heo, hret⟩ := bind_eq_ok.1 h
    obtain ⟨hfold, rfl⟩ := whileTokens_eq_ok heo
    cases hret
    exact ⟨rfl, Or.inl ⟨rfl, each, hfold, rfl⟩⟩
  by_cases hengine : flag = .engine
  · subst hengine
    obtain ⟨⟨e, n'⟩, heo, hret⟩ := bind_eq_ok.1 h
    obtain ⟨hfold, rfl⟩ := whileTokens_eq_ok heo
    cases hret
    exact ⟨rfl, Or.inr (Or.inl ⟨rfl, e, hfold, rfl⟩)⟩
  obtain ⟨hn, hsame⟩ := sameEngines_of_parseFlag heach hengine h
  exact ⟨hn, Or.inr (Or.inr ⟨heach, hengine, hsame⟩)⟩

/-- **What the loop has read**: the settings of all `-each` groups one after the other, and
one engine for every `-engine` group.  It is stated from any point of the line on, as the
induction needs it. -/
structure ReadGroups (skip : Nat) (args : List Arg) (s s' : ParseState F) : Prop where
  each : (groups .each skip args).flatten.foldlM (engineToken F) s.each = .ok s'.each
  eachSet : s'.eachSet = true ↔ s.eachSet = true ∨ groups .each skip args ≠ []
  eo : ∃ engines, s'.eo = s.eo ++ engines ∧
    List.Forall₂ (fun tokens e => tokens.foldlM (engineToken F) {} = .ok e)
      (groups .engine skip args) engines

theorem readGroups_of_parseArgs {skip : Nat} {args : List Arg} {s s' : ParseState F}
    (h : parseArgs skip args s = .ok s') : ReadGroups skip args s s' := by
  induction args generalizing skip s with
  | nil =>
      cases skip <;> cases h <;>
        exact ⟨rfl, by simp [groups], [], by simp, List.Forall₂.nil⟩
  | cons a args ih =>
      cases skip with
      | succ skip =>
          have hread := ih h
          exact ⟨hread.each, hread.eachSet, hread.eo⟩
      | zero =>
          rw [parseArgs] at h
          cases hflag : Flag.ofArg a with
          | none =>
              rw [hflag] at h
              cases h
          | some flag =>
              rw [hflag] at h
              obtain ⟨⟨s₁, n⟩, hstep, hrest⟩ := bind_eq_ok.1 h
              obtain ⟨rfl, hcases⟩ := parseFlag_cases hstep
              have hread := ih hrest
              obtain ⟨engines, heo, hengines⟩ := hread.eo
              constructor
              · have heach := hread.each
                simp only [groups, hflag]
                obtain ⟨rfl, each, hfold, rfl⟩ | ⟨rfl, e, -, rfl⟩ | ⟨hne, -, hsame⟩ := hcases
                · simp only [if_true, List.singleton_append, List.flatten_cons,
                    List.foldlM_append, hfold]
                  exact heach
                · simpa using heach
                · rw [if_neg hne, List.nil_append, ← hsame.1]
                  exact heach
              · rw [hread.eachSet]
                simp only [groups, hflag]
                obtain ⟨rfl, each, -, rfl⟩ | ⟨rfl, e, -, rfl⟩ | ⟨hne, -, hsame⟩ := hcases
                · simp
                · simp
                · rw [if_neg hne, List.nil_append, hsame.2.1]
              · simp only [groups, hflag]
                obtain ⟨rfl, each, -, rfl⟩ | ⟨rfl, e, hfold, rfl⟩ | ⟨-, hne, hsame⟩ := hcases
                · exact ⟨engines, heo, by simpa using hengines⟩
                · refine ⟨e :: engines, by simpa using heo, ?_⟩
                  rw [if_pos rfl]
                  exact List.Forall₂.cons hfold hengines
                · refine ⟨engines, by rw [heo, hsame.2.2], ?_⟩
                  rwa [if_neg hne, List.nil_append]

/-! ## The merge -/

/-- The keys whose default is not zero. -/
def Key.defaulted : List Key := [.maxmemory, .tolerance]

/-- A key that has its default in `each` keeps the engine's value if the default is zero,
and gets the default otherwise.  The merge cannot tell a default from a value that was
given. -/
theorem get_mergeEach {each : EngineSettings} {k : Key} (h : each.get k = k.documented)
    (e : EngineSettings) :
    (mergeEach each e).get k = if k ∈ Key.defaulted then k.documented else e.get k := by
  cases k <;>
    simp_all [EngineSettings.get, Key.documented, mergeEach, Key.defaulted]

/-- Over a command line that `options_parse` accepts, one engine for every
`-engine` group: its own settings, merged with those of the `-each` groups if
there are any. -/
theorem optionsParse_groups {args : List Arg} {o o' : GlobalOptions F} {eo : List EngineSettings}
    (h : optionsParse args o = .ok (o', eo)) :
    ∃ each, (groups .each 0 args).flatten.foldlM (engineToken F) {} = .ok each ∧
      List.Forall₂
        (fun tokens e => ∃ own, tokens.foldlM (engineToken F) {} = .ok own ∧
          e = if groups .each 0 args = [] then own else mergeEach each own)
        (groups .engine 0 args) eo := by
  obtain ⟨s, hparse, hrest⟩ := bind_eq_ok.1 h
  have hread := readGroups_of_parseArgs hparse
  obtain ⟨engines, heo, hengines⟩ := hread.eo
  have hmerged : eo = if s.eachSet then s.eo.map (mergeEach s.each) else s.eo := by
    generalize (if s.eachSet then s.eo.map (mergeEach s.each) else s.eo) = merged at hrest ⊢
    dsimp only at hrest
    split at hrest
    · cases hrest
    · split at hrest
      · cases hrest
      · cases hrest
        rfl
  refine ⟨s.each, hread.each, ?_⟩
  rw [List.nil_append] at heo
  rw [hmerged, heo]
  by_cases hnone : groups .each 0 args = []
  · have hset : s.eachSet = false := by
      rw [← Bool.not_eq_true, hread.eachSet]
      simp [hnone]
    rw [hset]
    refine hengines.imp fun tokens e hown => ⟨e, hown, ?_⟩
    rw [if_pos hnone]
  · have hset : s.eachSet = true := hread.eachSet.mpr (Or.inr hnone)
    rw [hset, if_pos rfl, List.forall₂_map_right_iff]
    refine hengines.imp fun tokens e hown => ⟨e, hown, ?_⟩
    rw [if_neg hnone]

theorem get_eq_own {tokens : List Arg} {e : EngineSettings} {k : Key}
    (h : tokens.foldlM (engineToken F) {} = .ok e) : e.get k = own F tokens k := by
  rw [get_foldlM_engineToken h k, get_default, own]

/-- The value that an engine ends up with for a key no `-each` group names. -/
theorem get_optionsParse {args : List Arg} {o o' : GlobalOptions F} {eo : List EngineSettings}
    (h : optionsParse args o = .ok (o', eo)) :
    List.Forall₂
      (fun tokens e => ∀ k, given k (groups .each 0 args).flatten = none →
        e.get k = if groups .each 0 args ≠ [] ∧ k ∈ Key.defaulted then k.documented
          else own F tokens k)
      (groups .engine 0 args) eo := by
  obtain ⟨each, heach, hengines⟩ := optionsParse_groups h
  refine hengines.imp ?_
  rintro tokens e ⟨e₀, hown, rfl⟩ k hk
  have hdefault : each.get k = k.documented := by
    rw [get_eq_own heach, own, hk]
    rfl
  by_cases hnone : groups .each 0 args = []
  · rw [if_pos hnone, if_neg (by simp [hnone]), get_eq_own hown]
  · rw [if_neg hnone, get_mergeEach hdefault, get_eq_own hown]
    simp only [ne_eq, hnone, not_false_eq_true, true_and]

/-- A group gives the key, if at all, the value that is its default.  Then it makes no
difference that it is overridden. -/
def GivesDefault (F : Floats) (tokens : List Arg) (k : Key) : Prop :=
  ∀ tail, given k tokens = some tail → k.read F tail = k.documented

theorem own_eq_documented_iff {tokens : List Arg} {k : Key} :
    own F tokens k = k.documented ↔ GivesDefault F tokens k := by
  rw [own, GivesDefault]
  cases given k tokens with
  | none => simp
  | some tail => simp

/-- **When `-each` overrides only what it names.** There is no `-each` group, or each of
`maxmemory` and `tolerance` is named in one of them or given by every engine, if at all, as
its default.  These two are the keys whose default is not zero. -/
theorem eachOverridesOnlyNamed_iff {args : List Arg} {o o' : GlobalOptions F}
    {eo : List EngineSettings} (h : optionsParse args o = .ok (o', eo)) :
    EachOverridesOnlyNamed F args eo ↔
      groups .each 0 args = [] ∨
        ∀ tokens ∈ groups .engine 0 args, ∀ k ∈ [Key.maxmemory, Key.tolerance],
          given k (groups .each 0 args).flatten = none → GivesDefault F tokens k := by
  have hget := get_optionsParse h
  by_cases hnone : groups .each 0 args = []
  · refine iff_of_true ?_ (Or.inl hnone)
    refine hget.imp fun tokens e he k hk => ?_
    rw [he k hk, if_neg (by simp [hnone])]
  · rw [or_iff_right hnone]
    constructor
    · intro hown
      -- at every engine the value it has and its own value are both known
      have hboth := List.Forall₂.mp (S := fun tokens _ => (∀ k ∈ [Key.maxmemory, Key.tolerance],
        given k (groups .each 0 args).flatten = none → GivesDefault F tokens k) ∧ True)
        (fun tokens e he heown => ⟨fun k hk hnot => ?_, trivial⟩) hget hown
      · exact ((List.forall₂_and_left _ _).mp hboth).1
      · have heq := (heown k hnot).symm.trans (he k hnot)
        rw [if_pos ⟨hnone, hk⟩] at heq
        exact own_eq_documented_iff.mp heq
    · intro hcond
      refine ((List.forall₂_and_left _ _).mpr ⟨hcond, hget⟩).imp ?_
      rintro tokens e ⟨hdefaults, he⟩ k hk
      rw [he k hk]
      split
      · next hdef => exact (own_eq_documented_iff.mpr (hdefaults k hdef.2 hk)).symm
      · rfl

/-- Decimal numbers with up to three digits behind the point, counted in
thousandths. -/
def thousandths : Floats where
  Double := Int
  zero := 0
  one := 1000
  fivePercent := 50
  atof s :=
    let (neg, s₁) := Decimal.readSign (s.dropWhile Decimal.isSpace)
    let fraction :=
      match s₁.dropWhile Char.isDigit with
      | '.' :: r => r.takeWhile Char.isDigit
      | _ => []
    Decimal.signedValue neg
      (s₁.takeWhile Char.isDigit ++ (fraction ++ ['0', '0', '0']).take 3)
  lt a b := decide (a < b)
  toInt64 x := x.tdiv 1000
  toMillis x := x

/-- A common time control, and an engine with less memory. -/
def lessMemory : List Arg :=
  ["-each".toList, "tc=5".toList, "-engine".toList, "cmd=a".toList, "maxmemory=1000".toList,
    "-engine".toList, "cmd=b".toList]

/-- The memory of the first engine is 350 MB again, though `-each` names only the
time control. -/
theorem not_eachOverridesOnlyNamed_lessMemory :
    ∃ o eo, optionsParse (F := thousandths) lessMemory {} = .ok (o, eo) ∧
      ¬ EachOverridesOnlyNamed thousandths lessMemory eo := by
  refine ⟨_, _, rfl, fun hown => ?_⟩
  obtain ⟨hfirst, -⟩ := List.forall₂_cons.mp hown
  exact absurd (hfirst .maxmemory (by decide)) (by decide)

/-- The same time control, and an engine that spells out its tolerance. -/
def defaultTolerance : List Arg :=
  ["-each".toList, "tc=5".toList, "-engine".toList, "cmd=a".toList, "tolerance=3".toList,
    "-engine".toList, "cmd=b".toList]

theorem eachOverridesOnlyNamed_iff_defaultTolerance :
    ∃ o eo, optionsParse (F := thousandths) defaultTolerance {} = .ok (o, eo) ∧
      (EachOverridesOnlyNamed thousandths defaultTolerance eo ↔
        groups .each 0 defaultTolerance = [] ∨
          ∀ tokens ∈ groups .engine 0 defaultTolerance,
            ∀ k ∈ [Key.maxmemory, Key.tolerance],
              given k (groups .each 0 defaultTolerance).flatten = none →
                GivesDefault thousandths tokens k) :=
  ⟨_, _, rfl, eachOverridesOnlyNamed_iff rfl⟩

end OptionsParse

end GomokuCli
