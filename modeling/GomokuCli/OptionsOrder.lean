import GomokuCli.Library.Commuting
import GomokuCli.OptionsBounds

/-!
# The order of the options

A command line that `options_parse` accepts is a list of options, each with the
arguments that it takes.  Every option has variables of its own, apart from `-log`
and `-debug`, which both switch the log on.  So what is read does not depend on
the order of the options, as long as those of one name keep theirs
(`optionsParse_rearranged`): `-each` counts for the engines in front of it, too.
-/

namespace GomokuCli

open EarlyExit Commuting

namespace OptionsParse

/-! ## Options with their arguments -/

/-- How an option is written. -/
def Flag.text (flag : Flag) : Arg :=
  match Flag.table.find? fun entry => entry.2 = flag with
  | some entry => entry.1
  | none => []

/-- An option with the arguments behind it. -/
structure Given where
  flag : Flag
  own : List Arg

/-- The number of arguments is that of the option, and those of a group do not look like
options.  Otherwise a part of them would be read as something else. -/
def Given.Fits (x : Given) : Prop :=
  match x.flag with
  | .each | .engine | .openings | .sample | .sprt => ∀ a ∈ x.own, a.head? ≠ some '-'
  | .concurrency | .games | .rounds | .pgn | .sgf | .msg | .drawafter | .rule | .boardsize =>
      ∃ v, x.own = [v]
  | .resign | .draw => ∃ count score, x.own = [count, score]
  | _ => x.own = []

/-- The command line of the options. -/
def commandLine (xs : List Given) : List Arg := xs.flatMap fun x => x.flag.text :: x.own

theorem ofArg_text (flag : Flag) : Flag.ofArg flag.text = some flag := by
  cases flag <;> rfl

theorem eq_text {a : Arg} {flag : Flag} (h : Flag.ofArg a = some flag) : a = flag.text := by
  have hall : (Flag.table.all fun entry => entry.1 == entry.2.text) = true := rfl
  obtain ⟨before, after, htable, -⟩ := List.lookup_eq_some_iff.mp h
  have hmem : (a, flag) ∈ Flag.table := by
    rw [htable]
    exact List.mem_append_right before List.mem_cons_self
  exact eq_of_beq (List.all_eq_true.mp hall _ hmem)

theorem group_commandLine (xs : List Given) : group (commandLine xs) = [] := by
  cases xs with
  | nil => rfl
  | cons x xs =>
      rw [commandLine, List.flatMap_cons, List.cons_append, group_cons,
        if_neg (not_not.mpr (head?_of_flag (ofArg_text x.flag)))]

section Reading

variable {F : Floats} {s s' : ParseState F} {x y : Given} {xs xs' : List Given}

theorem fits_of_accepts {p : SPRTParam F} {flag : Flag} {own : List Arg}
    (h : flag.Accepts p own) : (Given.mk flag own).Fits := by
  cases flag with
  | each | engine | openings | sample => exact fun a ha => (h a ha).1
  | sprt => exact fun a ha => (h.1 a ha).1
  | concurrency | games | rounds | pgn | sgf | msg | drawafter => exact h
  | rule | boardsize =>
      obtain ⟨v, hown, -⟩ := h
      exact ⟨v, hown⟩
  | resign | draw => exact h
  | repeats | transform | gauntlet | loseonly | log | debug | sendbyboard | fatalerror => exact h

/-- What an option does to the variables of `options_parse`, with its own arguments and
nothing behind them. -/
def Given.apply (s : ParseState F) (x : Given) : Except Stop (ParseState F) :=
  (parseFlag x.flag.text x.flag x.own s).map Prod.fst

/-- A group ends at the next option. -/
theorem whileTokens_append {σ : Type} (body : σ → Arg → Except Stop σ) {own rest : List Arg}
    (hown : ∀ a ∈ own, a.head? ≠ some '-') (hrest : group rest = []) (s : σ) :
    whileTokens body (own ++ rest) s = (own.foldlM body s).map fun s' => (s', own.length) := by
  rw [whileTokens, group_append hown hrest]
  cases own.foldlM body s <;> rfl

theorem whileTokens_own {σ : Type} (body : σ → Arg → Except Stop σ) {own : List Arg}
    (hown : ∀ a ∈ own, a.head? ≠ some '-') (s : σ) :
    whileTokens body own s = (own.foldlM body s).map fun s' => (s', own.length) := by
  have hnone : group [] = [] := rfl
  have happend := whileTokens_append body hown hnone s
  rwa [List.append_nil] at happend

/-- **An option reads its own arguments**, and what stands behind them makes no difference. -/
theorem Given.Fits.parseFlag (h : x.Fits) {rest : List Arg} (hrest : group rest = []) :
    parseFlag x.flag.text x.flag (x.own ++ rest) s =
      (x.apply s).map fun s' => (s', x.own.length) := by
  obtain ⟨flag, own⟩ := x
  cases flag with
  | repeats | transform | gauntlet | loseonly | log | debug | sendbyboard | fatalerror =>
      obtain rfl : own = [] := h
      rfl
  | concurrency | games | rounds | pgn | sgf | msg | drawafter =>
      obtain ⟨v, hown⟩ := h
      obtain rfl : own = [v] := hown
      rfl
  | rule =>
      obtain ⟨v, hown⟩ := h
      obtain rfl : own = [v] := hown
      simp only [Given.apply, OptionsParse.parseFlag, List.cons_append, nextArg]
      change (checkRuleCode (atoi v) >>= _) = ((checkRuleCode (atoi v) >>= _).map _).map _
      cases checkRuleCode (atoi v) <;> rfl
  | boardsize =>
      obtain ⟨v, hown⟩ := h
      obtain rfl : own = [v] := hown
      simp only [Given.apply, OptionsParse.parseFlag, List.cons_append, nextArg]
      change (if _ then _ else _) = ((if _ then _ else _ : Except Stop _).map _).map _
      split <;> rfl
  | resign | draw =>
      obtain ⟨count, score, hown⟩ := h
      obtain rfl : own = [count, score] := hown
      rfl
  | each =>
      simp only [Given.apply, OptionsParse.parseFlag, optionsParseEo]
      rw [whileTokens_append _ h hrest, whileTokens_own _ h]
      cases own.foldlM (engineToken F) s.each <;> rfl
  | engine =>
      simp only [Given.apply, OptionsParse.parseFlag, optionsParseEo]
      rw [whileTokens_append _ h hrest, whileTokens_own _ h]
      cases own.foldlM (engineToken F) {} <;> rfl
  | openings =>
      simp only [Given.apply, OptionsParse.parseFlag]
      rw [whileTokens_append _ h hrest, whileTokens_own _ h]
      cases own.foldlM openingsToken s.o <;> rfl
  | sample =>
      simp only [Given.apply, OptionsParse.parseFlag, optionsParseSample]
      rw [whileTokens_append _ h hrest, whileTokens_own _ h]
      cases own.foldlM sampleToken s.o.sp <;> rfl
  | sprt =>
      simp only [Given.apply, OptionsParse.parseFlag, optionsParseSprt]
      rw [whileTokens_append _ h hrest, whileTokens_own _ h]
      cases own.foldlM sprtToken s.o.sprtParam with
      | error stop => rfl
      | ok p =>
          change (if _ then _ else _) >>= _ =
            (((if _ then _ else _ : Except Stop _) >>= _).map _).map _
          cases p.validate <;> rfl

theorem parseArgs_commandLine (hfits : ∀ x ∈ xs, x.Fits) :
    parseArgs 0 (commandLine xs) s = xs.foldlM Given.apply s := by
  induction xs generalizing s with
  | nil => rfl
  | cons x xs ih =>
      rw [commandLine, List.flatMap_cons, List.cons_append, parseArgs, ofArg_text]
      change (OptionsParse.parseFlag x.flag.text x.flag (x.own ++ commandLine xs) s >>= fun r => _)
        = _
      rw [(hfits x (.head xs)).parseFlag (group_commandLine xs), List.foldlM_cons]
      cases x.apply s with
      | error stop => rfl
      | ok s₁ =>
          change parseArgs x.own.length (x.own ++ commandLine xs) s₁ = _
          rw [parseArgs_skip, List.drop_left]
          exact ih fun y hy => hfits y (.tail x hy)

/-- An accepted command line is one of options with their arguments.  In particular no
argument is left over. -/
theorem exists_given {args : List Arg} (h : parseArgs 0 args s = .ok s') :
    ∃ xs, (∀ x ∈ xs, Given.Fits x) ∧ commandLine xs = args := by
  induction hlen : args.length using Nat.strong_induction_on generalizing args s with
  | _ len ih =>
  cases args with
  | nil => exact ⟨[], fun x hx => absurd hx List.not_mem_nil, rfl⟩
  | cons a args =>
      rw [parseArgs] at h
      cases hflag : Flag.ofArg a with
      | none =>
          rw [hflag] at h
          cases h
      | some flag =>
          rw [hflag] at h
          obtain ⟨⟨s₁, n⟩, hread, hrest⟩ := bind_eq_ok.mp h
          obtain ⟨own, rest, rfl, rfl, haccepts, -⟩ := accepts_of_parseFlag hread
          change parseArgs own.length (own ++ rest) s₁ = _ at hrest
          rw [parseArgs_skip, List.drop_left] at hrest
          rw [List.length_cons, List.length_append] at hlen
          obtain ⟨xs, hfits, rfl⟩ := ih rest.length (by omega) hrest rfl
          refine ⟨⟨flag, own⟩ :: xs, List.forall_mem_cons.mpr ⟨fits_of_accepts haccepts, hfits⟩, ?_⟩
          rw [commandLine, List.flatMap_cons, eq_text hflag]
          rfl

/-! ## Whose variables they are -/

/-- The settings of `-openings` as they are in `v`. -/
def GlobalOptions.copyOpenings (v o : GlobalOptions F) : GlobalOptions F :=
  { o with
    openings := v.openings
    openingType := v.openingType
    random := v.random
    srand := v.srand }

/-- The variables that an option sets, as they are in `v`.  The others are as in `s`, so
that the two states can be compared variable by variable. -/
def Flag.copy (flag : Flag) (v s : ParseState F) : ParseState F :=
  match flag with
  | .repeats => { s with o := { s.o with repeats := v.o.repeats } }
  | .transform => { s with o := { s.o with transform := v.o.transform } }
  | .gauntlet => { s with o := { s.o with gauntlet := v.o.gauntlet } }
  | .loseonly => { s with o := { s.o with saveLoseOnly := v.o.saveLoseOnly } }
  | .log => { s with o := { s.o with log := v.o.log } }
  | .concurrency => { s with o := { s.o with concurrency := v.o.concurrency } }
  | .each => { s with each := v.each, eachSet := v.eachSet }
  | .engine => { s with eo := v.eo }
  | .games => { s with o := { s.o with games := v.o.games } }
  | .rounds => { s with o := { s.o with rounds := v.o.rounds } }
  | .openings => { s with o := v.o.copyOpenings s.o }
  | .pgn => { s with o := { s.o with pgn := v.o.pgn } }
  | .sgf => { s with o := { s.o with sgf := v.o.sgf } }
  | .msg => { s with o := { s.o with msg := v.o.msg } }
  | .resign =>
      { s with o := { s.o with resignCount := v.o.resignCount, resignScore := v.o.resignScore } }
  | .draw => { s with o := { s.o with drawCount := v.o.drawCount, drawScore := v.o.drawScore } }
  | .drawafter => { s with o := { s.o with forceDrawAfter := v.o.forceDrawAfter } }
  | .sprt => { s with o := { s.o with sprt := v.o.sprt, sprtParam := v.o.sprtParam } }
  | .sample => { s with o := { s.o with sp := v.o.sp, writeSamples := v.o.writeSamples } }
  | .rule => { s with o := { s.o with gameRule := v.o.gameRule } }
  | .boardsize => { s with o := { s.o with boardSize := v.o.boardSize } }
  | .debug => { s with o := { s.o with debug := v.o.debug, log := v.o.log } }
  | .sendbyboard => { s with o := { s.o with useTURN := v.o.useTURN } }
  | .fatalerror => { s with o := { s.o with fatalError := v.o.fatalError } }

/-- **Two options have different variables**, unless both switch the log on.  The two of
them set it to the same value, so that they commute all the same. -/
theorem Flag.apart {f g : Flag} (hne : f ≠ g) (hlog : ¬(f = .log ∧ g = .debug))
    (hdebug : ¬(f = .debug ∧ g = .log)) : Apart (f.copy (F := F)) g.copy := by
  intro u v s
  cases f <;> cases g <;>
    first
      | rfl
      | exact absurd rfl hne
      | exact absurd ⟨rfl, rfl⟩ hlog
      | exact absurd ⟨rfl, rfl⟩ hdebug

theorem local_openingsToken (a : Arg) :
    Local (openingsToken (F := F)) a GlobalOptions.copyOpenings where
  same _ := rfl
  acts v o := by
    unfold openingsToken
    split
    · rfl
    split
    · split
      · rfl
      · split <;> rfl
    split
    · split
      · rfl
      · split <;> rfl
    split <;> rfl

/-- **An option acts on its own variables**: it reads no others, and leaves all others as
they are. -/
theorem local_apply (x : Given) : Local (Given.apply (F := F)) x x.flag.copy where
  same s := by cases hflag : x.flag <;> rfl
  acts v s := by
    obtain ⟨flag, own⟩ := x
    cases flag with
    | repeats | transform | gauntlet | loseonly | log | debug | sendbyboard | fatalerror => rfl
    | concurrency | games | rounds | pgn | sgf | msg | drawafter => cases own <;> rfl
    | rule =>
        cases own with
        | nil => rfl
        | cons next own =>
            simp only [Given.apply, parseFlag, nextArg]
            change ((checkRuleCode (atoi next) >>= _).map _) =
              ((checkRuleCode (atoi next) >>= _).map _).map _
            cases checkRuleCode (atoi next) <;> rfl
    | boardsize =>
        cases own with
        | nil => rfl
        | cons next own =>
            simp only [Given.apply, parseFlag, nextArg]
            change (if _ then _ else _ : Except Stop _).map _ =
              ((if _ then _ else _ : Except Stop _).map _).map _
            split <;> rfl
    | resign | draw =>
        simp only [Given.apply, parseFlag]
        cases optionsParseAdjudication _ own <;> rfl
    | each =>
        simp only [Given.apply, parseFlag, Flag.copy]
        cases optionsParseEo F own v.each <;> rfl
    | engine =>
        simp only [Given.apply, parseFlag, Flag.copy]
        cases optionsParseEo F own {} <;> rfl
    | openings =>
        simp only [Given.apply, parseFlag, Flag.copy, whileTokens]
        rw [foldlM_acts local_openingsToken]
        cases (group own).foldlM openingsToken v.o <;> rfl
    | sample =>
        simp only [Given.apply, parseFlag, Flag.copy, optionsParseSample]
        cases whileTokens sampleToken own v.o.sp <;> rfl
    | sprt =>
        simp only [Given.apply, parseFlag, Flag.copy, optionsParseSprt]
        cases whileTokens sprtToken own v.o.sprtParam with
        | error stop => rfl
        | ok r =>
            change ((if _ then _ else _ : Except Stop _) >>= _).map _ =
              (((if _ then _ else _ : Except Stop _) >>= _).map _).map _
            cases r.1.validate <;> rfl

/-- **Options of different names commute**, also in whether they are accepted. -/
theorem commute_apply (hne : x.flag ≠ y.flag) : Commute (Given.apply (F := F)) x y := by
  by_cases hlog : x.flag = .log ∧ y.flag = .debug
  · obtain ⟨flag, own⟩ := x
    obtain ⟨flag', own'⟩ := y
    obtain ⟨rfl, rfl⟩ : flag = .log ∧ flag' = .debug := hlog
    rintro s s₁ s₂ ⟨⟩ ⟨⟩
    exact ⟨_, rfl, rfl⟩
  by_cases hdebug : x.flag = .debug ∧ y.flag = .log
  · obtain ⟨flag, own⟩ := x
    obtain ⟨flag', own'⟩ := y
    obtain ⟨rfl, rfl⟩ : flag = .debug ∧ flag' = .log := hdebug
    rintro s s₁ s₂ ⟨⟩ ⟨⟩
    exact ⟨_, rfl, rfl⟩
  exact (local_apply x).commute (local_apply y) (Flag.apart hne hlog hdebug)

/-- **The order of the options does not matter.** An accepted command line is made of
options with their arguments; put in another order, with those of one name as they were,
they are accepted and mean the same.  In particular `-each` may stand in front of the
engines or behind them. -/
theorem optionsParse_rearranged {args : List Arg} {o : GlobalOptions F}
    {settings : GlobalOptions F × List EngineSettings}
    (h : optionsParse args o = .ok settings) :
    (∃ xs, (∀ x ∈ xs, Given.Fits x) ∧ commandLine xs = args) ∧
      ∀ xs xs', (∀ x ∈ xs, Given.Fits x) → commandLine xs = args →
        Rearranged Given.flag xs xs' → optionsParse (commandLine xs') o = .ok settings := by
  obtain ⟨s, hparse, hend⟩ := bind_eq_ok.mp h
  refine ⟨exists_given hparse, ?_⟩
  rintro xs xs' hfits rfl hsame
  refine bind_eq_ok.mpr ⟨s, ?_, hend⟩
  rw [parseArgs_commandLine hfits] at hparse
  rw [parseArgs_commandLine fun x hx => hfits x (hsame.mem hx)]
  exact foldlM_rearrange (fun x y hne => commute_apply hne) hsame hparse

end Reading

/-- The settings of `-each` behind the engines that they are for. -/
theorem optionsParse_rearranged_each :
    ∃ settings, optionsParse (F := thousandths) lessMemory {} = .ok settings ∧
      optionsParse (F := thousandths)
        (commandLine [⟨.engine, ["cmd=a".toList, "maxmemory=1000".toList]⟩,
          ⟨.engine, ["cmd=b".toList]⟩, ⟨.each, ["tc=5".toList]⟩]) {} = .ok settings := by
  obtain ⟨settings, hparse⟩ : ∃ settings,
      optionsParse (F := thousandths) lessMemory {} = .ok settings := ⟨_, rfl⟩
  have hsame : ∀ each first second : List Arg, Rearranged Given.flag
      [⟨.each, each⟩, ⟨.engine, first⟩, ⟨.engine, second⟩]
      [⟨.engine, first⟩, ⟨.engine, second⟩, ⟨.each, each⟩] := by
    intro each first second k
    cases k <;> rfl
  refine ⟨settings, hparse, (optionsParse_rearranged hparse).2 _ _ ?_ ?_
    (hsame ["tc=5".toList] ["cmd=a".toList, "maxmemory=1000".toList] ["cmd=b".toList])⟩
  · simp [Given.Fits]
  · rfl

end OptionsParse

end GomokuCli
