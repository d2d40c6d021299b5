import GomokuCli.Game
import GomokuCli.Library.Decimal

/-!
# Reading the command line

`options_parse` and the functions it calls, over the list of the arguments.  The
index loops of the source become recursions on the arguments that are left, and
what a function returns as the last index it has read becomes the number of
arguments it has consumed.

The two ways in which the reading ends early are `Stop.die`, with the text that
goes to the error stream, and `Stop.nullPointer`: an option at the end of the
line makes the source read `argv[argc]`.

Floating-point numbers appear only in what `atof` reads and in the conversion to
an integer; they are the parameter `Floats`.
-/

namespace GomokuCli

namespace OptionsParse

/-- An entry of `argv`. -/
abbrev Arg := List Char

/-- How `options_parse` ends without returning.  In the second case the source reads a null
pointer, and the behaviour is undefined. -/
inductive Stop
  | die (message : List Char)
  | nullPointer
  deriving DecidableEq, Repr

/-- `DIE` with a message that quotes an argument. -/
def Stop.quoting (text : String) (a : Arg) : Stop :=
  .die (text.toList ++ " '".toList ++ a ++ "'\n".toList)

/-- The type `double` with the constants and the operations that are used.  Nothing is
assumed of them, so that what is proved holds of the arithmetic of the machine. -/
structure Floats where
  Double : Type
  zero : Double
  one : Double
  fivePercent : Double
  atof : List Char → Double
  lt : Double → Double → Bool
  /-- `(int64_t)x` -/
  toInt64 : Double → Int
  /-- `(int64_t)(x * 1000)` -/
  toMillis : Double → Int

/-- `atoll`.  A `long long` is as wide as a `long`. -/
def atoll (s : List Char) : Int := Decimal.strtol s

/-- `atoi`, which is `strtol` with the result made an `int`: a number that does not fit
loses its higher bits, and is read without a complaint. -/
def atoi (s : List Char) : Int := Decimal.truncInt (Decimal.strtol s)

/-- Whatever is written, what is read is an `int`. -/
theorem fitsInt_atoi (s : List Char) : Decimal.FitsInt (atoi s) := Decimal.fitsInt_truncInt _

/-- A number that fits an `int` is read as it is written. -/
theorem atoi_eq_atoll {s : List Char} (h : Decimal.FitsInt (atoll s)) : atoi s = atoll s :=
  Decimal.truncInt_eq_self h

example : atoi "4294967311".toList = 15 := by decide

/-- `string_prefix`: what follows `pre`. -/
def stringPrefix (s pre : List Char) : Option (List Char) :=
  if pre.isPrefixOf s then some (s.drop pre.length) else none

/-- `string_tok`: the token and the tail, which is `none` when there was nothing to read or
the token is empty.  The token keeps its value when there was nothing to read.  Delimiters
in front of the token are skipped, however many there are. -/
def stringTok (token : List Char) (s : Option (List Char)) (delim : List Char) :
    List Char × Option (List Char) :=
  match s with
  | none => (token, none)
  | some s =>
      let s := s.dropWhile (· ∈ delim)
      let token := s.takeWhile (· ∉ delim)
      (token, if token.isEmpty then none else some (s.dropWhile (· ∉ delim)))

/-! ## The settings -/

/-- `enum SampleFormat`. -/
inductive SampleFormat
  | csv
  | bin
  | binpack
  deriving DecidableEq, Repr

/-- `struct SampleParams`. -/
structure SampleParams (F : Floats) where
  fileName : List Char := []
  freq : F.Double := F.one
  format : SampleFormat := .csv
  compress : Bool := false

/-- `struct SPRTParam`. -/
structure SPRTParam (F : Floats) where
  elo0 : F.Double := F.zero
  elo1 : F.Double := F.zero
  alpha : F.Double := F.fivePercent
  beta : F.Double := F.fivePercent

/-- `SPRTParam::validate`. -/
def SPRTParam.validate {F : Floats} (p : SPRTParam F) : Bool :=
  F.lt F.zero p.alpha && F.lt p.alpha F.one && F.lt F.zero p.beta && F.lt p.beta F.one &&
    F.lt p.elo0 p.elo1

/-- `struct Options`: the settings of a match and of the tournament around it. -/
structure GlobalOptions (F : Floats) extends Options where
  openings : List Char := []
  pgn : List Char := []
  sgf : List Char := []
  msg : List Char := []
  sp : SampleParams F := {}
  sprtParam : SPRTParam F := {}
  srand : Nat := 0
  concurrency : Int := 1
  games : Int := 1
  rounds : Int := 1
  log : Bool := false
  random : Bool := false
  repeats : Bool := false
  sprt : Bool := false
  gauntlet : Bool := false
  saveLoseOnly : Bool := false
  debug : Bool := false

/-- `struct EngineOptions`: what a game reads of it, and what starts the engine. -/
structure EngineSettings extends EngineOptions where
  cmd : List Char := []
  name : List Char := []
  tolerance : Int := 3000

/-! ## The options of an engine -/

/-- The keys of an engine option that hold one value. -/
inductive Key
  | cmd
  | name
  | tc
  | depth
  | nodes
  | maxmemory
  | thread
  | tolerance
  deriving DecidableEq, Repr

/-- How a key is written, with its `=`. -/
def Key.text : Key → List Char
  | .cmd => "cmd=".toList
  | .name => "name=".toList
  | .tc => "tc=".toList
  | .depth => "depth=".toList
  | .nodes => "nodes=".toList
  | .maxmemory => "maxmemory=".toList
  | .thread => "thread=".toList
  | .tolerance => "tolerance=".toList

/-- The keys in the order in which `options_parse_eo` tries them. -/
def Key.all : List Key := [.cmd, .name, .tc, .depth, .nodes, .maxmemory, .thread, .tolerance]

/-- The key that an argument gives a value, with the value. -/
def Key.ofArg (a : Arg) : Option (Key × List Char) :=
  Key.all.findSome? fun k => (stringPrefix a k.text).map fun tail => (k, tail)

section Reading

variable (F : Floats)

/-- `options_parse_tc_gomocup`: match time, turn time and increment. -/
def readTc (s : List Char) : Int × Int × Int :=
  let (left, tail) := stringTok [] (some s) ['+']
  let (right, _) := stringTok [] tail ['+']
  let increment := F.atof right
  let (matchTime, turnTime) :=
    if '/' ∈ left then
      let (left, tail) := stringTok left (some left) ['/']
      let (right, _) := stringTok right tail ['/']
      (F.atof left, F.atof right)
    else (F.atof left, F.atof left)
  (F.toMillis matchTime, F.toMillis turnTime, F.toMillis increment)

/-- What `options_parse_eo` does for the key `k`. -/
def EngineSettings.set (eo : EngineSettings) (k : Key) (tail : List Char) : EngineSettings :=
  match k with
  | .cmd => { eo with cmd := tail }
  | .name => { eo with name := tail }
  | .tc =>
      let (timeoutMatch, timeoutTurn, increment) := readTc F tail
      { eo with
        timeoutMatch := timeoutMatch
        timeoutTurn := timeoutTurn
        increment := increment }
  | .depth => { eo with depth := atoi tail }
  | .nodes => { eo with nodes := atoll tail }
  | .maxmemory => { eo with maxMemory := F.toInt64 (F.atof tail) }
  | .thread => { eo with numThreads := atoi tail }
  | .tolerance => { eo with tolerance := F.toMillis (F.atof tail) }

/-- The loop body of `options_parse_eo`.  The keys are tried in order, and none of them is
the beginning of another one. -/
def engineToken (eo : EngineSettings) (a : Arg) : Except Stop EngineSettings :=
  match Key.ofArg a with
  | some (k, tail) => .ok (eo.set F k tail)
  | none =>
      match stringPrefix a "option.".toList with
      | some tail => .ok { eo with options := eo.options ++ [tail] }
      | none => .error (.quoting "Illegal syntax" a)

/-- The arguments `options_parse_eo` and its siblings read: those up to the next
one that starts with `-`. -/
def group (args : List Arg) : List Arg := args.takeWhile fun a => a.head? ≠ some '-'

/-- The loop `while (i < argc && argv[i][0] != '-')` around a body, with the number of
arguments that it consumes.  The body ends the program on a token that it does not know. -/
def whileTokens {σ : Type} (body : σ → Arg → Except Stop σ) (args : List Arg) (s : σ) :
    Except Stop (σ × Nat) := do
  let s ← (group args).foldlM body s
  return (s, (group args).length)

/-- `options_parse_eo`. -/
def optionsParseEo : List Arg → EngineSettings → Except Stop (EngineSettings × Nat) :=
  whileTokens (engineToken F)

/-! ## The options of the match -/

variable {F}

/-- The loop body of `options_parse_openings`. -/
def openingsToken (o : GlobalOptions F) (a : Arg) : Except Stop (GlobalOptions F) :=
  if let some tail := stringPrefix a "file=".toList then .ok { o with openings := tail }
  else if let some tail := stringPrefix a "type=".toList then
    if tail = "pos".toList then .ok { o with openingType := .pos }
    else if tail = "offset".toList then .ok o
    else .error (.quoting "Invalid type for -openings:" tail)
  else if let some tail := stringPrefix a "order=".toList then
    if tail = "random".toList then .ok { o with random := true }
    else if tail = "sequential".toList then .ok o
    else .error (.quoting "Invalid order for -openings:" tail)
  else if let some tail := stringPrefix a "srand=".toList then
    .ok { o with srand := (atoll tail % 2 ^ 64).toNat }
  else .error (.quoting "Illegal token in -openings:" a)

/-- The loop body of `options_parse_sprt`. -/
def sprtToken (p : SPRTParam F) (a : Arg) : Except Stop (SPRTParam F) :=
  if let some tail := stringPrefix a "elo0=".toList then .ok { p with elo0 := F.atof tail }
  else if let some tail := stringPrefix a "elo1=".toList then .ok { p with elo1 := F.atof tail }
  else if let some tail := stringPrefix a "alpha=".toList then
    .ok { p with alpha := F.atof tail }
  else if let some tail := stringPrefix a "beta=".toList then .ok { p with beta := F.atof tail }
  else .error (.quoting "Illegal token in -sprt:" a)

/-- `options_parse_sprt`. -/
def optionsParseSprt (args : List Arg) (o : GlobalOptions F) :
    Except Stop (GlobalOptions F × Nat) := do
  let (p, n) ← whileTokens sprtToken args o.sprtParam
  if p.validate then return ({ o with sprt := true, sprtParam := p }, n)
  else throw (.die "Invalid SPRT parameters\n".toList)

/-- The formats of `-sample`, with `compress` as they leave it. -/
def sampleFormat (compress : Bool) (tail : List Char) : Option (SampleFormat × Bool) :=
  if tail = "csv".toList then some (.csv, compress)
  else if tail = "bin".toList then some (.bin, compress)
  else if tail = "bin_lz4".toList then some (.bin, true)
  else if tail = "binpack".toList then some (.binpack, compress)
  else if tail = "binpack_lz4".toList then some (.binpack, true)
  else none

/-- The loop body of `options_parse_sample`. -/
def sampleToken (sp : SampleParams F) (a : Arg) : Except Stop (SampleParams F) :=
  if let some tail := stringPrefix a "freq=".toList then .ok { sp with freq := F.atof tail }
  else if let some tail := stringPrefix a "file=".toList then .ok { sp with fileName := tail }
  else if let some tail := stringPrefix a "format=".toList then
    match sampleFormat sp.compress tail with
    | some (format, compress) => .ok { sp with format := format, compress := compress }
    | none => .error (.quoting "Illegal format in -sample:" tail)
  else .error (.quoting "Illegal token in -sample:" a)

/-- The file name that `options_parse_sample` chooses when none was given. -/
def SampleParams.named (sp : SampleParams F) : SampleParams F :=
  if sp.fileName ≠ [] then sp
  else
    { sp with
      fileName := "sample.".toList ++
        match sp.format with
        | .csv => "csv".toList
        | .bin => if sp.compress then "bin.lz4".toList else "bin".toList
        | .binpack => if sp.compress then "binpack.lz4".toList else "binpack".toList }

/-- `options_parse_sample`. -/
def optionsParseSample (args : List Arg) (o : GlobalOptions F) :
    Except Stop (GlobalOptions F × Nat) := do
  let (sp, n) ← whileTokens sampleToken args o.sp
  return ({ o with sp := sp.named, writeSamples := sp.named.fileName ≠ [] }, n)

/-- `options_parse_adjudication`: the count and the score. -/
def optionsParseAdjudication (option : List Char) : List Arg → Except Stop (Int × Int)
  | count :: score :: _ => .ok (atoi count, atoi score)
  | _ => .error (.quoting "Missing parameter(s) for" option)

/-- `check_rule_code`.  The code has been read by `atoi`, and is compared with those of the
three rules. -/
def checkRuleCode (code : Int) : Except Stop GameRule :=
  match [GameRule.gomokuFiveOrMore, .gomokuExactFive, .renju].find?
      fun rule => (rule.code : Int) = code with
  | some rule => .ok rule
  | none =>
      .error (.die ("Unspported game rule code '".toList ++ Decimal.showInt code ++
        "'!\n".toList))

/-! ## The command line -/

end Reading

/-- The options of the command line. -/
inductive Flag
  | repeats
  | transform
  | gauntlet
  | loseonly
  | log
  | concurrency
  | each
  | engine
  | games
  | rounds
  | openings
  | pgn
  | sgf
  | msg
  | resign
  | draw
  | drawafter
  | sprt
  | sample
  | rule
  | boardsize
  | debug
  | sendbyboard
  | fatalerror
  deriving DecidableEq, Repr

/-- The options with their texts, in the order in which `options_parse` tries
them. -/
def Flag.table : List (List Char × Flag) :=
  [("-repeat".toList, .repeats), ("-transform".toList, .transform),
    ("-gauntlet".toList, .gauntlet), ("-loseonly".toList, .loseonly), ("-log".toList, .log),
    ("-concurrency".toList, .concurrency), ("-each".toList, .each), ("-engine".toList, .engine),
    ("-games".toList, .games), ("-rounds".toList, .rounds), ("-openings".toList, .openings),
    ("-pgn".toList, .pgn), ("-sgf".toList, .sgf), ("-msg".toList, .msg),
    ("-resign".toList, .resign), ("-draw".toList, .draw), ("-drawafter".toList, .drawafter),
    ("-sprt".toList, .sprt), ("-sample".toList, .sample), ("-rule".toList, .rule),
    ("-boardsize".toList, .boardsize), ("-debug".toList, .debug),
    ("-sendbyboard".toList, .sendbyboard), ("-fatalerror".toList, .fatalerror)]

/-- The option that an argument is. -/
def Flag.ofArg (a : Arg) : Option Flag := Flag.table.lookup a

/-- The variables of `options_parse`. -/
structure ParseState (F : Floats) where
  o : GlobalOptions F
  each : EngineSettings := {}
  eachSet : Bool := false
  eo : List EngineSettings := []

/-- `argv[++i]`. -/
def nextArg : List Arg → Except Stop Arg
  | [] => .error .nullPointer
  | a :: _ => .ok a

section Parsing

variable {F : Floats}

/-- The body of the loop of `options_parse` for an option `a`, with the arguments behind it;
the number is that of the arguments consumed.  The option is only needed for the text of an
error. -/
def parseFlag (a : Arg) (flag : Flag) (args : List Arg) (s : ParseState F) :
    Except Stop (ParseState F × Nat) :=
  let o := s.o
  match flag with
  | .repeats => return ({ s with o := { o with repeats := true } }, 0)
  | .transform => return ({ s with o := { o with transform := true } }, 0)
  | .gauntlet => return ({ s with o := { o with gauntlet := true } }, 0)
  | .loseonly => return ({ s with o := { o with saveLoseOnly := true } }, 0)
  | .log => return ({ s with o := { o with log := true } }, 0)
  | .concurrency => do
      let next ← nextArg args
      return ({ s with o := { o with concurrency := atoi next } }, 1)
  | .each => do
      let (each, n) ← optionsParseEo F args s.each
      return ({ s with each := each, eachSet := true }, n)
  | .engine => do
      let (newEn, n) ← optionsParseEo F args {}
      return ({ s with eo := s.eo ++ [newEn] }, n)
  | .games => do
      let next ← nextArg args
      return ({ s with o := { o with games := atoi next } }, 1)
  | .rounds => do
      let next ← nextArg args
      return ({ s with o := { o with rounds := atoi next } }, 1)
  | .openings => do
      let (o, n) ← whileTokens openingsToken args o
      return ({ s with o := o }, n)
  | .pgn => do
      let next ← nextArg args
      return ({ s with o := { o with pgn := next } }, 1)
  | .sgf => do
      let next ← nextArg args
      return ({ s with o := { o with sgf := next } }, 1)
  | .msg => do
      let next ← nextArg args
      return ({ s with o := { o with msg := next } }, 1)
  | .resign => do
      let (count, score) ← optionsParseAdjudication a args
      return ({ s with o := { o with resignCount := count, resignScore := score } }, 2)
  | .draw => do
      let (count, score) ← optionsParseAdjudication a args
      return ({ s with o := { o with drawCount := count, drawScore := score } }, 2)
  | .drawafter => do
      let next ← nextArg args
      return ({ s with o := { o with forceDrawAfter := atoi next } }, 1)
  | .sprt => do
      let (o, n) ← optionsParseSprt args o
      return ({ s with o := o }, n)
  | .sample => do
      let (o, n) ← optionsParseSample args o
      return ({ s with o := o }, n)
  | .rule => do
      let next ← nextArg args
      let rule ← checkRuleCode (atoi next)
      return ({ s with o := { o with gameRule := rule } }, 1)
  | .boardsize => do
      let next ← nextArg args
      if 5 ≤ atoi next ∧ atoi next ≤ 22 then
        return ({ s with o := { o with boardSize := (atoi next).toNat } }, 1)
      else throw (.die "Only support board size of 5 ~ 22\n".toList)
  -- the log is enabled together with the debug mode
  | .debug => return ({ s with o := { o with debug := true, log := true } }, 0)
  | .sendbyboard => return ({ s with o := { o with useTURN := false } }, 0)
  | .fatalerror => return ({ s with o := { o with fatalError := true } }, 0)

/-- The loop of `options_parse`: the number counts the arguments at the front of the list
that the last option has consumed.  It is structural in the list for this reason. -/
def parseArgs : Nat → List Arg → ParseState F → Except Stop (ParseState F)
  | _, [], s => .ok s
  | skip + 1, _ :: args, s => parseArgs skip args s
  | 0, a :: args, s =>
      match Flag.ofArg a with
      | none => .error (.quoting "Unknown option" a)
      | some flag => do
          let (s, skip) ← parseFlag a flag args s
          parseArgs skip args s

/-- What `options_parse` does with `each` for one engine.  A value counts as given if it is
not zero, or not empty. -/
def mergeEach (each eo : EngineSettings) : EngineSettings where
  cmd := if each.cmd ≠ [] then each.cmd else eo.cmd
  name := if each.name ≠ [] then each.name else eo.name
  options := eo.options ++ each.options
  timeoutMatch := if each.timeoutMatch ≠ 0 then each.timeoutMatch else eo.timeoutMatch
  timeoutTurn := if each.timeoutTurn ≠ 0 then each.timeoutTurn else eo.timeoutTurn
  increment := if each.increment ≠ 0 then each.increment else eo.increment
  nodes := if each.nodes ≠ 0 then each.nodes else eo.nodes
  depth := if each.depth ≠ 0 then each.depth else eo.depth
  maxMemory := if each.maxMemory ≠ 0 then each.maxMemory else eo.maxMemory
  numThreads := if each.numThreads ≠ 0 then each.numThreads else eo.numThreads
  tolerance := if each.tolerance ≠ 0 then each.tolerance else eo.tolerance

/-- `options_parse` with the arguments behind the program's name.  The settings of `-each`
are merged into all engines at the end, wherever it stands. -/
def optionsParse (args : List Arg) (o : GlobalOptions F) :
    Except Stop (GlobalOptions F × List EngineSettings) := do
  let s ← parseArgs 0 args { o := o }
  let eo := if s.eachSet then s.eo.map (mergeEach s.each) else s.eo
  if eo.length < 2 then throw (.die "at least 2 engines are needed\n".toList)
  else if eo.length > 2 ∧ s.o.sprt then throw (.die "only 2 engines for SPRT\n".toList)
  else return (s.o, eo)

end Parsing

end OptionsParse

end GomokuCli
