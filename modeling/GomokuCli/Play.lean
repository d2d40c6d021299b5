import GomokuCli.Game
import GomokuCli.Library.EarlyExit

/-!
# Playing a game

`Game::play` as a loop whose body is a sequence of phases: enter the ply and
apply the rules, tell the engine to think, take its answer, adjudicate, record.
Each `break` leaves the loop with the state it happened in.

What the two engines do is a parameter: how each of them reacts to `START`, and
at every ply what `bestmove` hands back.  Nothing is assumed about it, so every
theorem about a run is about every behaviour of the engines.

Everything that is written to an engine is kept in its log, and so is each answer
that was accepted, because the position an engine has in mind is determined by
the two together.
-/

namespace GomokuCli

/-- The lines that the referee writes to an engine. -/
inductive Command
  | start (size : Nat)
  | info (key value : List Char)
  | begin
  | turn (x y : Int)
  | board
  | stone (x y : Int) (gomocupColorIdx : Nat)
  | done

/-- The text of a line. -/
def Command.line : Command → List Char
  | .start size => "START ".toList ++ Decimal.showInt size
  | .info key value => "INFO ".toList ++ key ++ ' ' :: value
  | .begin => "BEGIN".toList
  | .turn x y => "TURN ".toList ++ Decimal.showInt x ++ ',' :: Decimal.showInt y
  | .board => "BOARD".toList
  | .stone x y gomocupColorIdx =>
      Decimal.showInt x ++ ',' :: Decimal.showInt y ++ ',' ::
        Decimal.showInt gomocupColorIdx
  | .done => "DONE".toList

/-- What passes between the referee and one engine, as far as the board is concerned.  An
answer is logged with its coordinates once it has been accepted. -/
inductive Event
  | sent (c : Command)
  | answered (x y : Int)

/-- How an engine reacts to `START`: the value of `wait_for_ok`, and of
`is_crashed` afterwards. -/
structure StartReply where
  ok : Bool
  crashed : Bool

/-- What `bestmove` hands back at one ply. -/
structure MoveReply where
  ok : Bool
  crashed : Bool
  timeLeft : Int
  bestmove : List Char
  moveInfo : Info

/-- The arguments of `play` and the behaviour of everything outside it.  The two engines are
`false` and `true`, for the indices `0` and `1`.  Nothing restricts the behaviour, so that a
statement about all matches is one about all engines. -/
structure Match where
  options : Options
  engineOptions : Bool → EngineOptions
  engineName : Bool → List Char
  reverse : Bool
  startReply : Bool → StartReply
  moveReply : Nat → MoveReply
  /-- `prngf(w->seed) <= o.sp.freq`, at each ply -/
  sampled : Nat → Bool

/-- The object and the local variables of `play`, and the two logs.  The logs are not in the
source: they keep what is written to the pipes of the engines. -/
structure PlayState where
  game : Game
  played : Nat
  drawPlyCount : Int
  resignCount : Bool → Int
  ei : Bool
  timeLeft : Bool → Int
  canUseTurn : Bool → Bool
  log : Bool → List Event

/-- How the loop can be left: `exit`, an exception that nobody catches, or a `break` with
the state that the code behind the loop goes on with. -/
inductive Stop
  | exited
  | aborted
  | broke (s : PlayState)

namespace PlayState

/-- `pos[ply]`. -/
def position (s : PlayState) : Position := s.game.position

/-- `engines[i].writeln(…)`. -/
def writeln (s : PlayState) (i : Bool) (commands : List Command) : PlayState :=
  { s with log := Function.update s.log i (s.log i ++ commands.map .sent) }

/-- `state = …; break;` -/
def stop (s : PlayState) (state : GameState) : Except Stop PlayState :=
  .error (.broke { s with game := { s.game with state := state } })

/-- The assignment to `pos[ply]` at the head of the loop body.  There is none in the first
round, where the position is that of the opening. -/
def enterPly (s : PlayState) : PlayState :=
  if s.played ≠ noneMove then
    let before := s.game.pos (s.game.ply - 1)
    { s with game := s.game.setPosition (s.game.position.moveWithCopy before s.played) }
  else s

/-- `state = game_apply_rules(played)`. -/
def applyRules (s : PlayState) : PlayState :=
  let (state, game) := s.game.gameApplyRules s.played
  { s with game := { game with state := state } }

/-- `forbidden_type = pos[ply].check_forbidden_move(played)`.  The finder always
has a verdict on a legal move (`BoardShape.checkForbiddenMove_eq`). -/
def checkForbidden (s : PlayState) : PlayState :=
  let (forbiddenType, P) :=
    (s.position.checkForbiddenMove s.played).getD (.none, s.position)
  { s with game := { s.game.setPosition P with forbiddenType := forbiddenType } }

end PlayState

namespace Match

variable (m : Match)

/-! ## Commands -/

/-- `string_tok` with the delimiter `=`: the token and the tail, which is `none`
when there was nothing to read or the token is empty.  The token keeps its value
when there was nothing to read. -/
def stringTok (token : List Char) : Option (List Char) → List Char × Option (List Char)
  | none => (token, none)
  | some s =>
      let s := s.dropWhile (· == '=')
      let token := s.takeWhile (· != '=')
      (token, if token.isEmpty then none else some (s.dropWhile (· != '=')))

/-- The custom options of `gomocup_game_info_command`.  `left` and `right` are
declared outside the loop and keep their values. -/
def customInfo : List (List Char) → List Char → List Char → List Command
  | [], _, _ => []
  | option :: options, left, right =>
      let (left, tail) := stringTok left (some option)
      let (right, _) := stringTok right tail
      .info left right :: customInfo options left right

/-- `gomocup_game_info_command`: the lines are sent in a fixed order, and a setting that is
zero is left out unless the protocol wants it. -/
def gomocupGameInfoCommand (eo : EngineOptions) (option : Options) : List Command :=
  [.info "rule".toList (Decimal.showInt option.gameRule.code)] ++
    (if eo.timeoutTurn ≠ 0 then
      [.info "timeout_turn".toList (Decimal.showInt eo.timeoutTurn)] else []) ++
    [.info "timeout_match".toList (Decimal.showInt eo.timeoutMatch)] ++
    (if eo.depth ≠ 0 then [.info "max_depth".toList (Decimal.showInt eo.depth)] else []) ++
    (if eo.nodes ≠ 0 then [.info "max_node".toList (Decimal.showInt eo.nodes)] else []) ++
    [.info "max_memory".toList (Decimal.showInt eo.maxMemory)] ++
    (if eo.numThreads ≠ 0 then
      [.info "thread_num".toList (Decimal.showInt eo.numThreads)] else []) ++
    customInfo eo.options [] []

/-- `gomocup_turn_info_command`. -/
def gomocupTurnInfoCommand (timeLeft : Int) : List Command :=
  [.info "time_left".toList (Decimal.showInt timeLeft)]

/-- `send_board_command`.  The colour of the last move is `2`, every other
colour `1`. -/
def sendBoardCommand (position : Position) : List Command :=
  let lastColor := colorFromMove (position.historyMoves (position.moveCount - 1))
  let stones := (List.range position.moveCount).map fun i =>
    let move := position.historyMoves i
    let p := posFromMove move
    Command.stone (coordX p) (coordY p) (if colorFromMove move = lastColor then 2 else 1)
  .board :: stones ++ [.done]

/-- `compute_time_left`: the increment is added before the engine is asked, and without a
limit for the match the time is the largest `int`. -/
def computeTimeLeft (eo : EngineOptions) (timeLeft : Int) : Int :=
  if eo.timeoutMatch > 0 then
    if eo.increment > 0 then timeLeft + eo.increment else timeLeft
  else 2147483647

/-! ## The phases of a round -/

/-- `o.forceDrawAfter && pos[ply].get_move_count() >= o.forceDrawAfter`. -/
def ForcedDraw (P : Position) : Prop :=
  m.options.forceDrawAfter ≠ 0 ∧ (P.moveCount : Int) ≥ m.options.forceDrawAfter

instance (P : Position) : Decidable (m.ForcedDraw P) :=
  inferInstanceAs (Decidable (_ ∧ _))

/-- Enter the ply, apply the rules, and adjudicate a forced draw, which comes after the
rules have found no end. -/
def rulesPhase (s : PlayState) : Except Stop PlayState :=
  let s := s.enterPly.applyRules
  if s.game.state.code > GameState.none.code then .error (.broke s)
  else if m.ForcedDraw s.position then s.stop .drawAdjudication
  else .ok s

/-- The command that makes the engine think.  The short form is used only for an engine that
has been asked before, since the other one does not know the position. -/
def thinkCommand (s : PlayState) : List Command :=
  if s.position.moveCount = 0 then [.begin]
  else if m.options.useTURN && s.canUseTurn s.ei then
    [.turn (coordX (posFromMove s.played)) (coordY (posFromMove s.played))]
  else sendBoardCommand s.position

/-- Prepare the time, and trigger the engine to think. -/
def thinkPhase (s : PlayState) : PlayState :=
  let timeLeft := computeTimeLeft (m.engineOptions s.ei) (s.timeLeft s.ei)
  let s := { s with timeLeft := Function.update s.timeLeft s.ei timeLeft }
  let s := s.writeln s.ei (gomocupTurnInfoCommand timeLeft ++ m.thinkCommand s)
  { s with canUseTurn := Function.update s.canUseTurn s.ei true }

/-- What `bestmove` writes to: the time left and the information list. -/
def receive (s : PlayState) : PlayState :=
  let reply := m.moveReply s.game.ply
  { s with
    timeLeft := Function.update s.timeLeft s.ei reply.timeLeft
    game := { s.game with info := s.game.info ++ [reply.moveInfo] } }

/-- The engine has a time limit and has exceeded it. -/
def SoftTimeout (s : PlayState) : Prop :=
  ((m.engineOptions s.ei).timeoutTurn ≠ 0 ∨ (m.engineOptions s.ei).timeoutMatch ≠ 0 ∨
    (m.engineOptions s.ei).increment ≠ 0) ∧ s.timeLeft s.ei < 0

instance (s : PlayState) : Decidable (m.SoftTimeout s) :=
  inferInstanceAs (Decidable (_ ∧ _))

/-- The checks on the move in `played`: whether it is legal, and under Renju whether it is
forbidden. -/
def judgeMove (s : PlayState) : Except Stop PlayState :=
  if !s.position.isLegalMove s.played then s.stop .illegalMove
  else if s.game.gameRule = .renju then
    let s := s.checkForbidden
    if s.game.forbiddenType ≠ .none then s.stop .forbiddenMove else .ok s
  else .ok s

/-- Take the answer of the engine: the tests come in the order of the source, and an answer
that cannot be converted ends the program. -/
def answerPhase (s : PlayState) : Except Stop PlayState :=
  let reply := m.moveReply s.game.ply
  let s := m.receive s
  if !reply.ok then
    if m.options.fatalError then .error .exited
    else s.stop (if reply.crashed then .crashed else .timeLoss)
  else if m.SoftTimeout s then s.stop .timeLoss
  else
    match s.position.gomostrToMove reply.bestmove with
    | none => .error .aborted
    | some played => judgeMove { s with played := played }

/-- The evaluation at a ply is close to a draw. -/
def Drawish (ply : Nat) : Prop :=
  m.options.drawCount ≠ 0 ∧ |(m.moveReply ply).moveInfo.score| ≤ m.options.drawScore

instance (ply : Nat) : Decidable (m.Drawish ply) := inferInstanceAs (Decidable (_ ∧ _))

/-- Draw adjudication.  The counter is of plies of both engines, and starts again at zero
with the first evaluation that is not close to a draw. -/
def drawPhase (s : PlayState) : Except Stop PlayState :=
  if m.Drawish s.game.ply then
    let s := { s with drawPlyCount := s.drawPlyCount + 1 }
    if s.drawPlyCount ≥ 2 * m.options.drawCount then s.stop .drawAdjudication else .ok s
  else .ok { s with drawPlyCount := 0 }

/-- The evaluation at a ply is that of a lost game. -/
def Hopeless (ply : Nat) : Prop :=
  m.options.resignCount ≠ 0 ∧ (m.moveReply ply).moveInfo.score ≤ -m.options.resignScore

instance (ply : Nat) : Decidable (m.Hopeless ply) := inferInstanceAs (Decidable (_ ∧ _))

/-- Adjudication of a resignation.  Each engine has a counter of its own. -/
def resignPhase (s : PlayState) : Except Stop PlayState :=
  if m.Hopeless s.game.ply then
    let count := s.resignCount s.ei + 1
    let s := { s with resignCount := Function.update s.resignCount s.ei count }
    if count ≥ m.options.resignCount then s.stop .resign else .ok s
  else .ok { s with resignCount := Function.update s.resignCount s.ei 0 }

/-- `(int16_t)std::min(std::max(score, INT16_MIN), INT16_MAX)`. -/
def saturate (score : Int) : Int := min (max score (-32768)) 32767

/-- The sample of the current ply. -/
def sampleOf (s : PlayState) : Sample where
  pos := s.position
  move := s.played
  result := nbResult
  eval := saturate (m.moveReply s.game.ply).moveInfo.score

/-- The coordinates that an answer is read as. -/
def answeredCell (bestmove : List Char) : Int × Int :=
  let commaIdx := (findComma bestmove).1
  ((stoi (bestmove.take commaIdx)).getD 0, (stoi (bestmove.drop (commaIdx + 1))).getD 0)

/-- The end of the loop body and the increments of the `for`: write a sample,
make room for the next position, and hand over to the other engine. -/
def recordPhase (s : PlayState) : PlayState :=
  let cell := answeredCell (m.moveReply s.game.ply).bestmove
  let samples :=
    if m.options.writeSamples && m.sampled s.game.ply then s.game.samples ++ [m.sampleOf s]
    else s.game.samples
  { s with
    log := Function.update s.log s.ei (s.log s.ei ++ [.answered cell.1 cell.2])
    ei := !s.ei
    game := { s.game with
      samples := samples
      pos := Function.update s.game.pos s.game.posSize (Position.new 15)
      posSize := s.game.posSize + 1
      ply := s.game.ply + 1 } }

/-- One round of the loop: the phases in their order, each of which may leave the loop. -/
def round (s : PlayState) : Except Stop PlayState := do
  let s ← m.rulesPhase s
  let s ← m.answerPhase (m.thinkPhase s)
  let s ← m.drawPhase s
  let s ← m.resignPhase s
  return m.recordPhase s

/-! ## The whole of `play` -/

/-- How `play` ends. -/
inductive PlayEnd
  | exited
  | aborted
  | returned (result : Result) (final : PlayState)

/-- The names of the players: `engines[color ^ pos[0].get_turn() ^ reverse]`.  The engine
with the index `0` moves first, unless the colours are reversed. -/
def engineOfColor (turn : Color) (reverse : Bool) (color : Color) : Bool :=
  (color == .white) ^^ (turn == .white) ^^ reverse

/-- The state before the engines are started. -/
def initial (g : Game) : PlayState where
  game := { g with
    gameRule := m.options.gameRule
    boardSize := m.options.boardSize
    names := fun color =>
      m.engineName (engineOfColor (g.pos 0).playerToMove m.reverse color) }
  played := noneMove
  drawPlyCount := 0
  resignCount := fun _ => 0
  ei := m.reverse
  timeLeft := fun _ => 0
  canUseTurn := fun _ => false
  log := fun _ => []

/-- The result when `engines[i]` has lost. -/
def resultOfLoser (i : Bool) : Result := if i then .win else .loss

/-- Start `engines[i]` and tell it about the game. -/
def startEngine (i : Bool) (s : PlayState) : Except PlayEnd PlayState :=
  let s := s.writeln i [.start m.options.boardSize]
  let reply := m.startReply i
  if !reply.ok then
    let state : GameState := if reply.crashed then .crashed else .timeLoss
    if m.options.fatalError then .error .exited
    else .error (.returned (resultOfLoser i) { s with game := { s.game with state := state } })
  else .ok (s.writeln i (gomocupGameInfoCommand (m.engineOptions i) m.options))

/-- Everything before the loop. -/
def startPhase (g : Game) : Except PlayEnd PlayState := do
  let s ← m.startEngine false (m.initial g)
  let s ← m.startEngine true s
  return { s with
    timeLeft := fun i => (m.engineOptions i).timeoutMatch
    game := { s.game with ply := 0 } }

/-- What the samples of a finished game are given as results, from the point of view of the
side to move.  A game that was ended by a loss on time, a crash or an illegal move has no
samples. -/
def fillSamples (g : Game) : List Sample :=
  match g.state with
  | .timeLoss | .crashed | .illegalMove => []
  | _ =>
      let wpov : Int :=
        if g.state.code < stateSeparator then
          (if g.position.playerToMove = .white then Result.loss.code else Result.win.code)
        else Result.draw.code
      g.samples.map fun sample =>
        { sample with
          result := if sample.pos.playerToMove = .white then wpov else 2 - wpov }

/-- Everything after the loop. -/
def finish : Stop → PlayEnd
  | .exited => .exited
  | .aborted => .aborted
  | .broke s =>
      .returned
        (if s.game.state.code < stateSeparator then resultOfLoser s.ei else .draw)
        { s with game := { s.game with samples := fillSamples s.game } }

/-- Enough rounds: every round but the last fills a cell of the board.  That they are enough
is a theorem (`exists_play`), so that the bound restricts nothing. -/
def playFuel : Nat := maxBoardSizeSqr + 1

/-- `play`: both engines are started, and then rounds are played until one of them leaves
the loop. -/
def play (g : Game) : Option PlayEnd :=
  match m.startPhase g with
  | .error e => some e
  | .ok s => (EarlyExit.run m.round playFuel s).map finish

/-- A match with the given settings between two engines that have no limits and
answer at once. -/
def casual (options : Options) (answers : Nat → List Char) : Match where
  options := options
  engineOptions := fun _ => {}
  engineName := fun i => if i then "second".toList else "first".toList
  reverse := false
  startReply := fun _ => { ok := true, crashed := false }
  moveReply := fun ply =>
    { ok := true
      crashed := false
      timeLeft := 0
      bestmove := answers ply
      moveInfo := { score := 0, depth := 0, time := 0 } }
  sampled := fun _ => true

/-- Without limits nobody is late. -/
theorem not_softTimeout_casual (options : Options) (answers : Nat → List Char)
    (s : PlayState) : ¬ (casual options answers).SoftTimeout s := by
  rintro ⟨hlimit, -⟩
  rcases hlimit with hturn | hmatch | hincrement
  · exact hturn rfl
  · exact hmatch rfl
  · exact hincrement rfl

end Match

end GomokuCli
