import GomokuCli.OptionsParse
import GomokuCli.Library.EarlyExit

/-!
# The cursor into the command line

The reading of the command line once more, as the source has it: one index `i`
into `argv`, which the functions that `options_parse` calls get at the first
argument of an option and hand back at the last one they have used, or one before
the first one they have not.

Every access goes through `argAt`, which fails where there is no argument.  At the
index `i` the arguments that are left are `argv.drop i`, and with them the cursor
does what `OptionsParse` does with a list (`parseFlagAt_eq`, `run_round`).
-/

namespace GomokuCli

open EarlyExit

namespace OptionsParse

/-! ## The functions with an index -/

section Cursor

variable {F : Floats} (argv : List Arg)

/-- `argv[j]` -/
def argAt (j : ℕ) : Except Stop Arg :=
  match argv[j]? with
  | some a => .ok a
  | none => .error .nullPointer

/-- `while (i < argc && argv[i][0] != '-') { …; i++; }` An empty argument has no first
character that is `-`, and so belongs to the group. -/
def whileAt {σ : Type} (body : σ → Arg → Except Stop σ) (i : ℕ) (s : σ) : Except Stop (σ × ℕ) :=
  if i < argv.length then do
    let a ← argAt argv i
    if a.head? ≠ some '-' then
      let s ← body s a
      whileAt body (i + 1) s
    else return (s, i)
  else return (s, i)
termination_by argv.length - i

/-- `options_parse_eo` -/
def optionsParseEoAt (i : ℕ) (eo : EngineSettings) : Except Stop (EngineSettings × ℕ) := do
  let (eo, i) ← whileAt argv (engineToken F) i eo
  return (eo, i - 1)

/-- `options_parse_openings` -/
def optionsParseOpeningsAt (i : ℕ) (o : GlobalOptions F) : Except Stop (GlobalOptions F × ℕ) := do
  let (o, i) ← whileAt argv openingsToken i o
  return (o, i - 1)

/-- `options_parse_adjudication` -/
def optionsParseAdjudicationAt (i : ℕ) : Except Stop ((Int × Int) × ℕ) :=
  if i + 1 < argv.length then do
    let count ← argAt argv i
    let i := i + 1
    let score ← argAt argv i
    return ((atoi count, atoi score), i)
  else do
    let option ← argAt argv (i - 1)
    throw (.quoting "Missing parameter(s) for" option)

/-- `options_parse_sprt` -/
def optionsParseSprtAt (i : ℕ) (o : GlobalOptions F) : Except Stop (GlobalOptions F × ℕ) := do
  let (p, i) ← whileAt argv sprtToken i o.sprtParam
  if p.validate then return ({ o with sprt := true, sprtParam := p }, i - 1)
  else throw (.die "Invalid SPRT parameters\n".toList)

/-- `options_parse_sample` -/
def optionsParseSampleAt (i : ℕ) (o : GlobalOptions F) : Except Stop (GlobalOptions F × ℕ) := do
  let (sp, i) ← whileAt argv sampleToken i o.sp
  return ({ o with sp := sp.named, writeSamples := sp.named.fileName ≠ [] }, i - 1)

/-- The body of the loop of `options_parse` for the option at `i`.  What it returns is the
last index that it has used, since the loop adds one to it. -/
def parseFlagAt (i : ℕ) (flag : Flag) (s : ParseState F) : Except Stop (ParseState F × ℕ) :=
  let o := s.o
  match flag with
  | .repeats => return ({ s with o := { o with repeats := true } }, i)
  | .transform => return ({ s with o := { o with transform := true } }, i)
  | .gauntlet => return ({ s with o := { o with gauntlet := true } }, i)
  | .loseonly => return ({ s with o := { o with saveLoseOnly := true } }, i)
  | .log => return ({ s with o := { o with log := true } }, i)
  | .concurrency => do
      let i := i + 1
      let next ← argAt argv i
      return ({ s with o := { o with concurrency := atoi next } }, i)
  | .each => do
      let (each, i) ← optionsParseEoAt (F := F) argv (i + 1) s.each
      return ({ s with each := each, eachSet := true }, i)
  | .engine => do
      let (newEn, i) ← optionsParseEoAt (F := F) argv (i + 1) {}
      return ({ s with eo := s.eo ++ [newEn] }, i)
  | .games => do
      let i := i + 1
      let next ← argAt argv i
      return ({ s with o := { o with games := atoi next } }, i)
  | .rounds => do
      let i := i + 1
      let next ← argAt argv i
      return ({ s with o := { o with rounds := atoi next } }, i)
  | .openings => do
      let (o, i) ← optionsParseOpeningsAt argv (i + 1) o
      return ({ s with o := o }, i)
  | .pgn => do
      let i := i + 1
      let next ← argAt argv i
      return ({ s with o := { o with pgn := next } }, i)
  | .sgf => do
      let i := i + 1
      let next ← argAt argv i
      return ({ s with o := { o with sgf := next } }, i)
  | .msg => do
      let i := i + 1
      let next ← argAt argv i
      return ({ s with o := { o with msg := next } }, i)
  | .resign => do
      let ((count, score), i) ← optionsParseAdjudicationAt argv (i + 1)
      return ({ s with o := { o with resignCount := count, resignScore := score } }, i)
  | .draw => do
      let ((count, score), i) ← optionsParseAdjudicationAt argv (i + 1)
      return ({ s with o := { o with drawCount := count, drawScore := score } }, i)
  | .drawafter => do
      let i := i + 1
      let next ← argAt argv i
      return ({ s with o := { o with forceDrawAfter := atoi next } }, i)
  | .sprt => do
      let (o, i) ← optionsParseSprtAt argv (i + 1) o
      return ({ s with o := o }, i)
  | .sample => do
      let (o, i) ← optionsParseSampleAt argv (i + 1) o
      return ({ s with o := o }, i)
  | .rule => do
      let i := i + 1
      let next ← argAt argv i
      let rule ← checkRuleCode (atoi next)
      return ({ s with o := { o with gameRule := rule } }, i)
  | .boardsize => do
      let next ← argAt argv (i + 1)
      if 5 ≤ atoi next ∧ atoi next ≤ 22 then
        return ({ s with o := { o with boardSize := (atoi next).toNat } }, i + 1)
      else throw (.die "Only support board size of 5 ~ 22\n".toList)
  | .debug => return ({ s with o := { o with debug := true, log := true } }, i)
  | .sendbyboard => return ({ s with o := { o with useTURN := false } }, i)
  | .fatalerror => return ({ s with o := { o with fatalError := true } }, i)

/-- The body of the loop of `options_parse`. -/
def bodyAt (i : ℕ) (s : ParseState F) : Except Stop (ParseState F × ℕ) := do
  let a ← argAt argv i
  match Flag.ofArg a with
  | none => throw (.quoting "Unknown option" a)
  | some flag => parseFlagAt argv i flag s

/-- One round of the loop of `options_parse`, left when `i` has reached `argc` or by
an error. -/
def round : ℕ × ParseState F → Except (Except Stop (ParseState F)) (ℕ × ParseState F)
  | (i, s) =>
      if i < argv.length then
        match bodyAt argv i s with
        | .ok (s', i') => .ok (i' + 1, s')
        | .error stop => .error (.error stop)
      else .error (.ok s)

end Cursor

/-! ## The arguments that are left -/

section Left

variable {F : Floats} {argv : List Arg} {i : ℕ}

/-- A number of arguments moves the index. -/
def moved {α : Type} (i : ℕ) (r : Except Stop (α × ℕ)) : Except Stop (α × ℕ) :=
  r.map fun x => (x.1, i + x.2)

theorem argAt_eq (argv : List Arg) (i : ℕ) : argAt argv i = nextArg (argv.drop i) := by
  rw [argAt]
  cases hdrop : argv.drop i with
  | nil => rw [List.getElem?_eq_none (List.drop_eq_nil_iff.mp hdrop), nextArg]
  | cons a args =>
      have hget : argv[i]? = some a := by
        rw [← Nat.add_zero i, ← List.getElem?_drop, hdrop]
        rfl
      rw [hget, nextArg]

theorem group_cons (a : Arg) (args : List Arg) :
    group (a :: args) = if a.head? ≠ some '-' then a :: group args else [] := by
  rw [group, List.takeWhile_cons]
  split
  case isTrue h => rw [if_pos (of_decide_eq_true h)]; rfl
  case isFalse h => rw [if_neg (fun hne => h (decide_eq_true hne))]

theorem moved_bind {α β : Type} (i : ℕ) (x : Except Stop α) (f : α → Except Stop (β × ℕ)) :
    moved i (x >>= f) = x >>= fun a => moved i (f a) := by
  cases x <;> rfl

theorem moved_moved {α : Type} (i n : ℕ) (r : Except Stop (α × ℕ)) :
    moved i (moved n r) = moved (i + n) r := by
  cases r with
  | error stop => rfl
  | ok x =>
      change Except.ok (x.1, i + (n + x.2)) = .ok (x.1, i + n + x.2)
      rw [Nat.add_assoc]

theorem whileTokens_of_group {σ : Type} (body : σ → Arg → Except Stop σ) {args : List Arg}
    (h : group args = []) (s : σ) : whileTokens body args s = .ok (s, 0) := by
  rw [whileTokens, h]
  rfl

theorem whileTokens_cons {σ : Type} (body : σ → Arg → Except Stop σ) {a : Arg}
    (h : a.head? ≠ some '-') (args : List Arg) (s : σ) :
    whileTokens body (a :: args) s =
      body s a >>= fun s' => moved 1 (whileTokens body args s') := by
  rw [whileTokens, group_cons, if_pos h, List.foldlM_cons]
  cases body s a with
  | error stop => rfl
  | ok s' =>
      change ((group args).foldlM body s' >>= fun s => .ok (s, (group args).length + 1)) =
        moved 1 ((group args).foldlM body s' >>= fun s => .ok (s, (group args).length))
      rw [moved_bind, Nat.add_comm]
      rfl

/-- **The loop of the functions** reads the group that is left.  By induction on the number
of the arguments behind the index. -/
theorem whileAt_eq {σ : Type} (body : σ → Arg → Except Stop σ) (i : ℕ) (s : σ) :
    whileAt argv body i s = moved i (whileTokens body (argv.drop i) s) := by
  induction hleft : argv.drop i generalizing i s with
  | nil =>
      have hend : ¬i < argv.length := not_lt.mpr (List.drop_eq_nil_iff.mp hleft)
      rw [whileAt, if_neg hend, whileTokens_of_group body rfl]
      rfl
  | cons a args ih =>
      have hlt : i < argv.length := by
        by_contra hend
        rw [List.drop_eq_nil_of_le (not_lt.mp hend)] at hleft
        cases hleft
      have hnext : argv.drop (i + 1) = args := by
        rw [← List.tail_drop, hleft]
        rfl
      rw [whileAt, if_pos hlt, argAt_eq, hleft, nextArg]
      change (if a.head? ≠ some '-' then _ else _) = _
      by_cases ha : a.head? ≠ some '-'
      · rw [if_pos ha, whileTokens_cons body ha, moved_bind]
        simp only [ih (i + 1) _ hnext, moved_moved]
      · rw [if_neg ha, whileTokens_of_group body (by rw [group_cons, if_neg ha])]
        rfl

/-- A function that reads a group returns the index of the last argument in it.  If the
group is empty, this is the option itself. -/
theorem whileAt_last {σ τ : Type} (body : σ → Arg → Except Stop σ) (i : ℕ) (s : σ) (f : σ → τ) :
    (whileAt argv body (i + 1) s >>= fun x => .ok (f x.1, x.2 - 1)) =
      moved i (whileTokens body (argv.drop (i + 1)) s >>= fun x => .ok (f x.1, x.2)) := by
  rw [whileAt_eq, moved_bind]
  cases whileTokens body (argv.drop (i + 1)) s with
  | error stop => rfl
  | ok x =>
      change Except.ok (f x.1, i + 1 + x.2 - 1) = .ok (f x.1, i + x.2)
      rw [Nat.add_right_comm, Nat.add_sub_cancel]

theorem optionsParseEoAt_eq (i : ℕ) (eo : EngineSettings) :
    optionsParseEoAt (F := F) argv (i + 1) eo =
      moved i (optionsParseEo F (argv.drop (i + 1)) eo) := by
  refine (whileAt_last (engineToken F) i eo id).trans ?_
  rw [optionsParseEo]
  cases whileTokens (engineToken F) (argv.drop (i + 1)) eo <;> rfl

theorem optionsParseOpeningsAt_eq (i : ℕ) (o : GlobalOptions F) :
    optionsParseOpeningsAt argv (i + 1) o =
      moved i (whileTokens openingsToken (argv.drop (i + 1)) o) := by
  refine (whileAt_last openingsToken i o id).trans ?_
  cases whileTokens openingsToken (argv.drop (i + 1)) o <;> rfl

theorem optionsParseSampleAt_eq (i : ℕ) (o : GlobalOptions F) :
    optionsParseSampleAt argv (i + 1) o =
      moved i (optionsParseSample (argv.drop (i + 1)) o) :=
  whileAt_last sampleToken i o.sp fun sp : SampleParams F =>
    ({ o with sp := sp.named, writeSamples := sp.named.fileName ≠ [] } : GlobalOptions F)

theorem optionsParseSprtAt_eq (i : ℕ) (o : GlobalOptions F) :
    optionsParseSprtAt argv (i + 1) o = moved i (optionsParseSprt (argv.drop (i + 1)) o) := by
  rw [optionsParseSprtAt, optionsParseSprt, whileAt_eq, moved_bind]
  cases whileTokens sprtToken (argv.drop (i + 1)) o.sprtParam with
  | error stop => rfl
  | ok x =>
      change (if x.1.validate then Except.ok (_, i + 1 + x.2 - 1) else _) =
        moved i (if x.1.validate then .ok (_, x.2) else _)
      cases x.1.validate with
      | false => rfl
      | true =>
          rw [if_pos rfl, if_pos rfl, Nat.add_right_comm, Nat.add_sub_cancel]
          rfl

/-- The two values of an adjudication, or the option that misses one. -/
theorem optionsParseAdjudicationAt_eq {a : Arg} (ha : argv[i]? = some a) :
    optionsParseAdjudicationAt argv (i + 1) =
      moved i ((optionsParseAdjudication a (argv.drop (i + 1))).map fun x => (x, 2)) := by
  have hoption : argAt argv (i + 1 - 1) = .ok a := by rw [Nat.add_sub_cancel, argAt, ha]
  cases hleft : argv.drop (i + 1) with
  | nil =>
      have hend : ¬i + 1 + 1 < argv.length := by
        have := List.drop_eq_nil_iff.mp hleft
        omega
      rw [optionsParseAdjudicationAt, if_neg hend, hoption]
      rfl
  | cons count args =>
      have hlength := congrArg List.length hleft
      rw [List.length_drop, List.length_cons] at hlength
      have hnext : argv.drop (i + 1 + 1) = args := by
        rw [← List.tail_drop, hleft]
        rfl
      cases args with
      | nil =>
          have hend : ¬i + 1 + 1 < argv.length := by
            have := List.drop_eq_nil_iff.mp hnext
            omega
          rw [optionsParseAdjudicationAt, if_neg hend, hoption]
          rfl
      | cons score args =>
          have hlt : i + 1 + 1 < argv.length := by
            rw [List.length_cons] at hlength
            omega
          rw [optionsParseAdjudicationAt, if_pos hlt]
          simp only [argAt_eq, hleft, hnext]
          rfl

/-- **What `options_parse` does with an option** depends on the arguments behind it, and not
on where in `argv` they stand. -/
theorem parseFlagAt_eq {a : Arg} (ha : argv[i]? = some a) (flag : Flag) (s : ParseState F) :
    parseFlagAt argv i flag s = moved i (parseFlag a flag (argv.drop (i + 1)) s) := by
  cases flag with
  | repeats | transform | gauntlet | loseonly | log | debug | sendbyboard | fatalerror => rfl
  | concurrency | games | rounds | pgn | sgf | msg | drawafter =>
      simp only [parseFlagAt, parseFlag, argAt_eq]
      cases nextArg (argv.drop (i + 1)) <;> rfl
  | rule =>
      simp only [parseFlagAt, parseFlag, argAt_eq]
      cases nextArg (argv.drop (i + 1)) with
      | error stop => rfl
      | ok next =>
          change (checkRuleCode (atoi next) >>= _) = moved i (checkRuleCode (atoi next) >>= _)
          cases checkRuleCode (atoi next) <;> rfl
  | boardsize =>
      simp only [parseFlagAt, parseFlag, argAt_eq]
      cases nextArg (argv.drop (i + 1)) with
      | error stop => rfl
      | ok next =>
          change (if _ then _ else _) = moved i (if _ then _ else _)
          split <;> rfl
  | resign | draw =>
      simp only [parseFlagAt, parseFlag, optionsParseAdjudicationAt_eq ha]
      cases optionsParseAdjudication a (argv.drop (i + 1)) <;> rfl
  | each =>
      simp only [parseFlagAt, parseFlag, optionsParseEoAt_eq]
      cases optionsParseEo F (argv.drop (i + 1)) s.each <;> rfl
  | engine =>
      simp only [parseFlagAt, parseFlag, optionsParseEoAt_eq]
      cases optionsParseEo F (argv.drop (i + 1)) {} <;> rfl
  | openings =>
      simp only [parseFlagAt, parseFlag, optionsParseOpeningsAt_eq]
      cases whileTokens openingsToken (argv.drop (i + 1)) s.o <;> rfl
  | sprt =>
      simp only [parseFlagAt, parseFlag, optionsParseSprtAt_eq]
      cases optionsParseSprt (argv.drop (i + 1)) s.o <;> rfl
  | sample =>
      simp only [parseFlagAt, parseFlag, optionsParseSampleAt_eq]
      cases optionsParseSample (argv.drop (i + 1)) s.o <;> rfl

/-! ## The loop -/

theorem parseArgs_skip (skip : ℕ) (args : List Arg) (s : ParseState F) :
    parseArgs skip args s = parseArgs 0 (args.drop skip) s := by
  induction args generalizing skip with
  | nil =>
      rw [List.drop_nil]
      cases skip <;> rfl
  | cons a args ih =>
      cases skip with
      | zero => rfl
      | succ skip => exact ih skip

/-- **The loop of `options_parse`** reads the list of the arguments.  With this every
statement about the list is one about the index. -/
theorem run_round {n : ℕ} (hn : argv.length - i < n) (s : ParseState F) :
    run (round argv) n (i, s) = some (parseArgs 0 (argv.drop i) s) := by
  induction n generalizing i s with
  | zero => omega
  | succ n ih =>
      rw [run]
      by_cases hlt : i < argv.length
      · have hget : argv[i]? = some argv[i] := List.getElem?_eq_getElem hlt
        have hleft : argv.drop i = argv[i] :: argv.drop (i + 1) := List.drop_eq_getElem_cons hlt
        have hbody : bodyAt argv i s = match Flag.ofArg argv[i] with
            | none => .error (.quoting "Unknown option" argv[i])
            | some flag => parseFlagAt argv i flag s := by
          rw [bodyAt, argAt, hget]
          rfl
        rw [round, if_pos hlt, hleft, parseArgs, hbody]
        cases Flag.ofArg argv[i] with
        | none => rfl
        | some flag =>
            simp only [parseFlagAt_eq hget]
            cases parseFlag argv[i] flag (argv.drop (i + 1)) s with
            | error stop => rfl
            | ok x =>
                change run (round argv) n (i + x.2 + 1, x.1) =
                  some (parseArgs x.2 (argv.drop (i + 1)) x.1)
                rw [ih (by omega), parseArgs_skip x.2, List.drop_drop, Nat.add_right_comm]
      · rw [round, if_neg hlt, List.drop_eq_nil_of_le (not_lt.mp hlt)]
        rfl

end Left

end OptionsParse

end GomokuCli
