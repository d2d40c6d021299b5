import GomokuCli.Forbidden
import GomokuCli.FiveInLine
import GomokuCli.GomocupMove
import GomokuCli.Opening

/-!
# Games

The object of one game, and the parts of it that do not talk to an engine:
loading the opening, the rules that end a game, and the account of the result
that goes into the records.

`Options` and `EngineOptions` hold the settings that the functions modelled here
read.  Amounts of time are in milliseconds.
-/

namespace GomokuCli

/-- `RESULT_LOSS`, `RESULT_DRAW`, `RESULT_WIN`. -/
inductive Result
  | loss
  | draw
  | win
  deriving DecidableEq, Repr

/-- The value of a result. -/
def Result.code : Result → Int
  | .loss => 0
  | .draw => 1
  | .win => 2

/-- `NB_RESULT`, the mark of a sample whose game is not finished. -/
def nbResult : Int := 3

/-- The `STATE_*` values. -/
inductive GameState
  | none
  | fiveConnect
  | timeLoss
  | crashed
  | illegalMove
  | forbiddenMove
  | resign
  | drawInsufficientSpace
  | drawAdjudication
  deriving DecidableEq, Repr

/-- The value of a state.  The value `7` in between is `STATE_SEPARATOR`. -/
def GameState.code : GameState → Nat
  | .none => 0
  | .fiveConnect => 1
  | .timeLoss => 2
  | .crashed => 3
  | .illegalMove => 4
  | .forbiddenMove => 5
  | .resign => 6
  | .drawInsufficientSpace => 8
  | .drawAdjudication => 9

/-- `STATE_SEPARATOR`. -/
def stateSeparator : Nat := 7

/-- The settings of a match, with their defaults.  Only those that a game reads are here. -/
structure Options where
  boardSize : Nat := 15
  gameRule : GameRule := .gomokuFiveOrMore
  openingType : OpeningType := .offset
  useTURN : Bool := true
  transform : Bool := false
  fatalError : Bool := false
  forceDrawAfter : Int := 0
  drawCount : Int := 0
  drawScore : Int := 0
  resignCount : Int := 0
  resignScore : Int := 0
  /-- `!sp.fileName.empty()` -/
  writeSamples : Bool := false

/-- The settings of an engine, with their defaults. -/
structure EngineOptions where
  timeoutTurn : Int := 0
  timeoutMatch : Int := 0
  increment : Int := 0
  nodes : Int := 0
  depth : Int := 0
  numThreads : Int := 0
  maxMemory : Int := 367001600
  options : List (List Char) := []

/-- `struct Info`. -/
structure Info where
  score : Int
  depth : Int
  time : Int

/-- `struct Sample`. -/
structure Sample where
  pos : Position
  move : Nat
  result : Int
  eval : Int

/-- `class Game`.  The vector `pos` is a function of the index together with its
size. -/
structure Game where
  names : Color → List Char
  pos : Nat → Position
  posSize : Nat
  info : List Info
  samples : List Sample
  gameRule : GameRule
  forbiddenType : ForbiddenType
  ply : Nat
  state : GameState
  boardSize : Nat

namespace Game

/-- The constructor.  `forbidden_type` is not initialised; it is only read after
it has been written. -/
def new : Game where
  names := fun _ => []
  pos := fun _ => Position.new 15
  posSize := 0
  info := []
  samples := []
  gameRule := .gomokuFiveOrMore
  forbiddenType := .none
  ply := 0
  state := .none
  boardSize := 0

/-- `(TransformType)(currentRound % NB_TRANS)`: with `-transform` the eight symmetries of
the board take turns from round to round. -/
def transformOfRound (currentRound : Nat) : TransformType :=
  match currentRound % 8 with
  | 0 => .identity
  | 1 => .rotate90
  | 2 => .rotate180
  | 3 => .rotate270
  | 4 => .flipX
  | 5 => .flipY
  | 6 => .flipXY
  | _ => .flipYX

/-- `load_opening`: the game and the colour to move, or `none` when the line is refused.
The transform, if there is one, comes after the opening has been applied. -/
def loadOpening (g : Game) (openingStr : List Char) (o : Options) (currentRound : Nat) :
    Option (Game × Color) :=
  let g := { g with
    pos := Function.update g.pos g.posSize (Position.new o.boardSize)
    posSize := g.posSize + 1 }
  let (ok, opened) := (g.pos 0).applyOpening openingStr o.openingType
  if ok then
    let color := opened.playerToMove
    let start :=
      if o.transform then opened.transform (transformOfRound currentRound) else opened
    some ({ g with pos := Function.update g.pos 0 start }, color)
  else none

/-- The game that a line leads to when it is accepted. -/
def ofOpening (openingStr : List Char) (o : Options) : Game :=
  ((new.loadOpening openingStr o 0).getD (new, .black)).1

/-- `pos[ply]`. -/
def position (g : Game) : Position := g.pos g.ply

/-- An assignment to `pos[ply]`. -/
def setPosition (g : Game) (P : Position) : Game :=
  { g with pos := Function.update g.pos g.ply P }

/-- The variable `allow_long_connection` of `game_apply_rules`.  Under Renju it depends on
the colour bits of the last move, which the sentinel has, too. -/
def allowLongConnection (rule : GameRule) (lastmove : Nat) : Bool :=
  match rule with
  | .gomokuExactFive => false
  | .renju => if colorFromMove lastmove = Color.black.code then false else true
  | .gomokuFiveOrMore => true

/-- `game_apply_rules`: a line is looked for first, so that the move that fills the board
can win.  The position is written back because the search records its line there. -/
def gameApplyRules (g : Game) (lastmove : Nat) : GameState × Game :=
  let allow := allowLongConnection g.gameRule lastmove
  let (five, P) := g.position.checkFiveInLineLastmove allow
  let g := g.setPosition P
  if five then (.fiveConnect, g)
  else if P.getMovesLeft = 0 then (.drawInsufficientSpace, g)
  else (.none, g)

/-! ## The account of the result -/

/-- The name that `decode_state` has for a forbidden pattern. -/
def forbiddenName : ForbiddenType → List Char
  | .doubleThree => "double three".toList
  | .doubleFour => "double four".toList
  | .overline => "overline".toList
  | .none => []

/-- A reason that names the winner, who is not the side to move. -/
def winReason (isBlackTurn : Bool) (byWhite byBlack : List Char) : List Char :=
  if isBlackTurn then byWhite else byBlack

/-- `decode_state`: the result, as one of the texts in `restxt`, and the reason.  `restxt`
is from Black's point of view, and whose loss it was is read off the side to move in the
last position. -/
def decodeState (g : Game) (restxt : Result → List Char) : List Char × List Char :=
  let isBlackTurn := g.position.playerToMove == .black
  let lost := if isBlackTurn then restxt .loss else restxt .win
  match g.state with
  | .none => (['*'], "Unterminated".toList)
  | .fiveConnect =>
      (lost, winReason isBlackTurn "White win by five connection".toList
        "Black win by five connection".toList)
  | .drawInsufficientSpace => (restxt .draw, "Draw by fullfilled board".toList)
  | .illegalMove =>
      (lost, winReason isBlackTurn "White win by opponent illegal move".toList
        "Black win by opponent illegal move".toList)
  | .forbiddenMove =>
      (restxt .loss, "Black play forbidden move - ".toList ++ forbiddenName g.forbiddenType)
  | .drawAdjudication => (restxt .draw, "Draw by adjudication".toList)
  | .resign =>
      (lost, winReason isBlackTurn "White win by adjudication".toList
        "Black win by adjudication".toList)
  | .timeLoss =>
      (lost, winReason isBlackTurn "White win by time forfeit".toList
        "Black win by time forfeit".toList)
  | .crashed =>
      (lost, winReason isBlackTurn "White win by opponent crash".toList
        "Black win by opponent crash".toList)

end Game

end GomokuCli
