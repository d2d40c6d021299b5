import GomokuCli.Precedence
import GomokuCli.Symmetry

/-!
# The same game on a transformed board

With `-transform` a game starts from the image of its opening.  When both engines
then make the images of the moves they would have made, the game goes on in the
same way: `Mirrors` relates the positions of the two games, `Alike` the states of
the two loops, and every phase of a round keeps them related.  So the two games
end in the same round with the same verdict.

Nothing is assumed about the answers except that they are read as images of each
other; an answer off the board has an image off the board.
-/

namespace GomokuCli

open EarlyExit

/-! ## Moves -/

/-- The image of a move, as `transform` computes it for an entry of the history: the cell is
mapped, and the colour is kept. -/
def transformMove (size : Nat) (type : TransformType) (move : Nat) : Nat :=
  buildMovePos (Position.transformPos (posFromMove move) size type) (colorFromMove move)

section Moves

variable {size : Nat} {type : TransformType} {move : Nat}

theorem cellOf_pos_mod (x y : Int) : cellOf (pos x y % 1024) = wrappedCell x y := by
  have hpos := pos_eq x y
  rw [cellOf, wrappedCell, coordX_eq, coordY_eq, Prod.mk.injEq]
  constructor <;> omega

/-- The image of a cell of the padded array is in the square iff the cell is, although the
image may be outside the array and wrap.  So the referee judges an answer off the board and
its image alike. -/
theorem inSquare_wrappedCell_iff (hsize : size ≤ 22) {c : Int × Int}
    (h : (-5 ≤ c.1 ∧ c.1 < 27) ∧ (-5 ≤ c.2 ∧ c.2 < 27)) :
    InSquare size (wrappedCell (transformCell size type c).1 (transformCell size type c).2) ↔
      InSquare size c := by
  obtain ⟨x, y⟩ := c
  obtain ⟨⟨hx0, hx⟩, hy0, hy⟩ := h
  simp only at hx0 hx hy0 hy
  cases type <;> simp only [InSquare, wrappedCell, transformCell] <;> omega

theorem cellOf_lt_range {p : Nat} (hp : p < 1024) :
    (-5 ≤ (cellOf p).1 ∧ (cellOf p).1 < 27) ∧ (-5 ≤ (cellOf p).2 ∧ (cellOf p).2 < 27) := by
  have hx := coordX_eq p
  have hy := coordY_eq p
  simp only [cellOf]
  omega

theorem cellOf_transformMove :
    cellOf (posFromMove (transformMove size type move)) =
      wrappedCell (transformCell size type (cellOf (posFromMove move))).1
        (transformCell size type (cellOf (posFromMove move))).2 := by
  have hlt := posFromMove_lt move
  have hpos : Position.transformPos (posOf (cellOf (posFromMove move))) size type =
      posOf (transformCell size type (cellOf (posFromMove move))) :=
    transformPos_posOf type (cellOf (posFromMove move)) (cellOf_lt_range hlt)
  rw [posOf_cellOf hlt] at hpos
  rw [transformMove, posFromMove_buildMovePos, hpos, posOf, cellOf_pos_mod]

theorem inSquare_transformMove_iff (hsize : size ≤ 22) :
    InSquare size (cellOf (posFromMove (transformMove size type move))) ↔
      InSquare size (cellOf (posFromMove move)) := by
  rw [cellOf_transformMove]
  exact inSquare_wrappedCell_iff hsize (cellOf_lt_range (posFromMove_lt move))

/-- On the board the image of a move is the move to the image of its cell. -/
theorem cellOf_transformMove_of_inSquare (hsize : size ≤ 22)
    (hin : InSquare size (cellOf (posFromMove move))) :
    cellOf (posFromMove (transformMove size type move)) =
      transformCell size type (cellOf (posFromMove move)) := by
  rw [cellOf_transformMove]
  exact wrappedCell_of_inSquare hsize ((inSquare_transformCell_iff type _).mpr hin)

theorem colorFromMove_transformMove (hsize : size ≤ 22) (hmove : move < 2 ^ 14)
    (hin : InSquare size (cellOf (posFromMove move))) :
    colorFromMove (transformMove size type move) = colorFromMove move := by
  have hcell := Position.cellOf_transformPos hsize type hin
  have hlt : Position.transformPos (posFromMove move) size type < 1024 := by
    refine lt_of_inSquare_cellOf hsize ?_
    rw [hcell]
    exact (inSquare_transformCell_iff type _).mpr hin
  refine colorFromMove_buildMovePos hlt ?_
  rw [colorFromMove, Nat.shiftRight_eq_div_pow]
  omega

/-- The answers that name a cell and its image are read as a move and its image. -/
theorem ReadsAs.map_transformMove (hsize : size ≤ 22) {bestmove bestmove' : List Char}
    {c : Int × Int} (hin : InSquare size c) (h : ReadsAs bestmove c.1 c.2)
    (h' : ReadsAs bestmove' (transformCell size type c).1 (transformCell size type c).2)
    (P : Position) :
    P.gomostrToMove bestmove' = (P.gomostrToMove bestmove).map (transformMove size type) := by
  have hlt : posOf c < 1024 := posOf_lt (hin.range hsize)
  have hcell : posFromMove (buildMove c.1 c.2 P.playerToMove) = posOf c := by
    rw [buildMove, posFromMove_buildMovePos]
    exact Nat.mod_eq_of_lt hlt
  rw [h.gomostrToMove, h'.gomostrToMove, Option.map_some, transformMove, hcell,
    transformPos_posOf type c (hin.range hsize), colorFromMove_buildMove hsize hin]
  rfl

end Moves

/-! ## Positions -/

namespace Position

/-- `Q` is reached by the images of the cells that `P` is reached by.  The lists are
compared and not the boards, since the rules also look at the last move and at the number of
moves. -/
def Mirrors (size : Nat) (type : TransformType) (P Q : Position) : Prop :=
  ∃ cells, P.Follows size cells ∧ Q.Follows size (cells.map (transformCell size type))

namespace Mirrors

variable {size : Nat} {type : TransformType} {P Q P' Q' : Position} {played : Nat}

theorem of_transform {cells : List (Int × Int)} (h : P.Follows size cells)
    (type : TransformType) : Mirrors size type P (P.transform type) :=
  ⟨cells, h, h.transform type⟩

theorem congr (h : Mirrors size type P Q) (hP : SameButWin P P') (hQ : SameButWin Q Q') :
    Mirrors size type P' Q' := by
  obtain ⟨cells, hfollows, himage⟩ := h
  exact ⟨cells, hP.follows hfollows, hQ.follows himage⟩

theorem size_le (h : Mirrors size type P Q) : size ≤ 22 := by
  obtain ⟨cells, hfollows, -⟩ := h
  exact hfollows.size_le

theorem boardSize (h : Mirrors size type P Q) : P.boardSize = size ∧ Q.boardSize = size := by
  obtain ⟨cells, hfollows, himage⟩ := h
  exact ⟨hfollows.boardSize, himage.boardSize⟩

theorem shape (h : Mirrors size type P Q) : P.BoardShape ∧ Q.BoardShape := by
  obtain ⟨cells, hfollows, himage⟩ := h
  exact ⟨hfollows.shape, himage.shape⟩

theorem grid_eq (h : Mirrors size type P Q) : P.grid = Q.grid ∘ (type.symmetry size).map := by
  obtain ⟨cells, hfollows, himage⟩ := h
  rw [hfollows.grid_eq, himage.grid_eq]
  funext c
  exact (stones_map_transformCell type c cells).symm

theorem moveCount (h : Mirrors size type P Q) : Q.moveCount = P.moveCount := by
  obtain ⟨cells, hfollows, himage⟩ := h
  rw [himage.moveCount, hfollows.moveCount, List.length_map]

theorem playerToMove (h : Mirrors size type P Q) : Q.playerToMove = P.playerToMove := by
  have hcount := h.moveCount
  obtain ⟨cells, hfollows, himage⟩ := h
  rw [himage.turn, hfollows.turn, hcount]

theorem getMovesLeft (h : Mirrors size type P Q) : Q.getMovesLeft = P.getMovesLeft := by
  have hcount := h.moveCount
  obtain ⟨cells, hfollows, himage⟩ := h
  rw [Position.getMovesLeft, Position.getMovesLeft, himage.sqr, hfollows.sqr, hcount]

/-- A move and its image keep the positions related. -/
theorem move (h : Mirrors size type P Q) (hin : InSquare size (cellOf (posFromMove played))) :
    Mirrors size type (P.move played) (Q.move (transformMove size type played)) := by
  have hcell : cellOf (posFromMove (transformMove size type played)) =
      transformCell size type (cellOf (posFromMove played)) :=
    cellOf_transformMove_of_inSquare h.size_le hin
  have himagein : InSquare size (cellOf (posFromMove (transformMove size type played))) :=
    (inSquare_transformMove_iff h.size_le).mpr hin
  obtain ⟨cells, hfollows, himage⟩ := h
  refine ⟨cells ++ [cellOf (posFromMove played)], hfollows.move hin, ?_⟩
  rw [List.map_append, List.map_singleton, ← hcell]
  exact himage.move himagein

/-- A move is legal iff its image is. -/
theorem isLegalMove (h : Mirrors size type P Q) (played : Nat) :
    Q.isLegalMove (transformMove size type played) = P.isLegalMove played := by
  rw [Bool.eq_iff_iff, h.shape.2.isLegalMove_iff, h.shape.1.isLegalMove_iff, h.boardSize.1,
    h.boardSize.2, inSquare_transformMove_iff h.size_le]
  refine and_congr_right fun hin => ?_
  rw [cellOf_transformMove_of_inSquare h.size_le hin, h.grid_eq]
  rfl

/-- **A legal move and its image are forbidden alike.** The kind of a point does not depend
on how the board lies, and neither does the colour of the mover. -/
theorem checkForbiddenMove (h : Mirrors size type P Q) (hmove : played < 2 ^ 14)
    (hlegal : P.isLegalMove played = true) :
    ∃ v, P.checkForbiddenMove played = some (v, P) ∧
      Q.checkForbiddenMove (transformMove size type played) = some (v, Q) := by
  have himage := h.isLegalMove played
  rw [hlegal] at himage
  obtain ⟨hin, -⟩ := (h.shape.1.isLegalMove_iff played).mp hlegal
  rw [h.boardSize.1] at hin
  refine ⟨_, h.shape.1.checkForbiddenMove_eq hlegal, ?_⟩
  rw [h.shape.2.checkForbiddenMove_eq himage, colorFromMove_transformMove h.size_le hmove hin,
    cellOf_transformMove_of_inSquare h.size_le hin, h.boardSize.1, h.boardSize.2, h.grid_eq,
    LineSymmetry.forbiddenPoint_comp _ (inSquare_transformCell_iff type)]
  rfl

/-- **The last stone and its image win alike.** Both tests are decided by whether there is a
winning line. -/
theorem checkFiveInLineLastmove (h : Mirrors size type P Q) (allow : Bool) :
    (Q.checkFiveInLineLastmove allow).1 = (P.checkFiveInLineLastmove allow).1 := by
  have hgrid := h.grid_eq
  obtain ⟨cells, hfollows, himage⟩ := h
  induction cells using List.reverseRecOn with
  | nil => rw [hfollows.checkFiveInLineLastmove_nil, himage.checkFiveInLineLastmove_nil]
  | append_singleton cells last _ =>
      rw [List.map_append, List.map_singleton] at himage
      rw [Bool.eq_iff_iff, himage.checkFiveInLineLastmove_iff,
        hfollows.checkFiveInLineLastmove_iff, ← himage.grid_eq, ← hfollows.grid_eq, hgrid,
        LineSymmetry.hasWinningLine_comp, List.length_map]

end Mirrors

end Position

/-! ## Rounds -/

namespace Match

open PlayState Position

/-- Two answers at one ply: everything the referee learns is the same, and the move is the
image of the move.  Nothing is said about the texts of the answers but how they are read. -/
structure RepliesAlike (size : Nat) (type : TransformType) (reply reply' : MoveReply) :
    Prop where
  ok : reply'.ok = reply.ok
  crashed : reply'.crashed = reply.crashed
  timeLeft : reply'.timeLeft = reply.timeLeft
  moveInfo : reply'.moveInfo = reply.moveInfo
  move : ∀ P : Position, P.gomostrToMove reply'.bestmove =
    (P.gomostrToMove reply.bestmove).map (transformMove size type)

/-- The moves of `m'` are the moves of `m`, transformed alike; `-transform` itself
may be set in one match and not in the other. -/
structure MovesAlike (type : TransformType) (m m' : Match) : Prop where
  options : m'.options = { m.options with transform := m'.options.transform }
  engineOptions : m'.engineOptions = m.engineOptions
  reverse : m'.reverse = m.reverse
  startReply : m'.startReply = m.startReply
  moveReply : ∀ ply,
    RepliesAlike m.options.boardSize type (m.moveReply ply) (m'.moveReply ply)

/-- Two states of the loop that differ only in how the board lies, in what is written to the
engines and in what is recorded.  What decides how the game goes on is the same in both. -/
structure Alike (size : Nat) (type : TransformType) (s s' : PlayState) : Prop where
  position : Mirrors size type s.position s'.position
  ply : s'.game.ply = s.game.ply
  posSize : s.game.posSize = s.game.ply + 1 ∧ s'.game.posSize = s'.game.ply + 1
  gameRule : s'.game.gameRule = s.game.gameRule
  state : s'.game.state = s.game.state
  forbiddenType : s'.game.forbiddenType = s.game.forbiddenType
  ei : s'.ei = s.ei
  timeLeft : s'.timeLeft = s.timeLeft
  drawPlyCount : s'.drawPlyCount = s.drawPlyCount
  resignCount : s'.resignCount = s.resignCount

/-- The heads of two rounds.  The positions are compared after the last move has been
entered, which is the first thing that a round does. -/
structure HeadAlike (size : Nat) (type : TransformType) (s s' : PlayState) : Prop where
  entered : Alike size type s.enterPly s'.enterPly
  color : colorFromMove s'.played = colorFromMove s.played

/-- Two rounds in which a move has been accepted.  The move is one to a cell of the board,
where the image of a move is the move to the image of its cell. -/
structure AcceptedAlike (size : Nat) (type : TransformType) (s s' : PlayState) : Prop
    extends Alike size type s s' where
  inSquare : InSquare size (cellOf (posFromMove s.played))
  played : s'.played = transformMove size type s.played
  color : colorFromMove s'.played = colorFromMove s.played
  ne_noneMove : s.played ≠ noneMove ∧ s'.played ≠ noneMove

/-- Two exits of the loop. -/
inductive StopsAlike (size : Nat) (type : TransformType) : Stop → Stop → Prop
  | exited : StopsAlike size type .exited .exited
  | aborted : StopsAlike size type .aborted .aborted
  | broke {s s' : PlayState} (h : Alike size type s s') :
      StopsAlike size type (.broke s) (.broke s')

variable {size : Nat} {type : TransformType} {m m' : Match} {s s' : PlayState}

/-- The verdict of the rules, without the record of the win connection. -/
theorem gameApplyRules_fst (g : Game) (lastmove : Nat) :
    (g.gameApplyRules lastmove).1 =
      if (g.position.checkFiveInLineLastmove
        (Game.allowLongConnection g.gameRule lastmove)).1 then .fiveConnect
      else if g.position.getMovesLeft = 0 then .drawInsufficientSpace else .none := by
  have hsame := checkFiveInLineLastmove_same g.position
    (Game.allowLongConnection g.gameRule lastmove)
  have hleft : (g.position.checkFiveInLineLastmove
      (Game.allowLongConnection g.gameRule lastmove)).2.getMovesLeft =
        g.position.getMovesLeft := by
    rw [getMovesLeft, getMovesLeft, hsame.boardSizeSqr, hsame.moveCount]
  unfold Game.gameApplyRules
  simp only [hleft]
  split
  · rfl
  · split <;> rfl

theorem allowLongConnection_congr {rule : GameRule} {move move' : Nat}
    (h : colorFromMove move' = colorFromMove move) :
    Game.allowLongConnection rule move' = Game.allowLongConnection rule move := by
  cases rule <;> simp [Game.allowLongConnection, h]

/-- The rules come to the same verdict. -/
theorem HeadAlike.asked (h : HeadAlike size type s s') :
    Alike size type (asked s) (asked s') := by
  have hsame := asked_sameTurn s
  have hsame' := asked_sameTurn s'
  have hentered := h.entered
  have hplayed : colorFromMove s'.enterPly.played = colorFromMove s.enterPly.played := by
    rw [enterPly_played, enterPly_played, h.color]
  refine ⟨hentered.position.congr hsame.position hsame'.position, ?_, ?_, ?_, ?_, ?_, ?_, ?_,
    ?_, ?_⟩
  · rw [hsame.ply, hsame'.ply, hentered.ply]
  · rw [hsame.posSize, hsame'.posSize, hsame.ply, hsame'.ply]
    exact hentered.posSize
  · rw [hsame.gameRule, hsame'.gameRule, hentered.gameRule]
  · change (s'.enterPly.game.gameApplyRules s'.enterPly.played).1 =
      (s.enterPly.game.gameApplyRules s.enterPly.played).1
    have hlast := hentered.position.checkFiveInLineLastmove
      (Game.allowLongConnection s.enterPly.game.gameRule s.enterPly.played)
    have hleft := hentered.position.getMovesLeft
    unfold PlayState.position at hlast hleft
    rw [gameApplyRules_fst, gameApplyRules_fst, hentered.gameRule,
      allowLongConnection_congr hplayed, hlast, hleft]
  · change (s'.enterPly.game.gameApplyRules _).2.forbiddenType =
      (s.enterPly.game.gameApplyRules _).2.forbiddenType
    rw [gameApplyRules_snd, gameApplyRules_snd]
    exact hentered.forbiddenType
  · exact hentered.ei
  · exact hentered.timeLeft
  · exact hentered.drawPlyCount
  · exact hentered.resignCount

theorem Alike.withState (h : Alike size type s s') (state : GameState) :
    Alike size type { s with game := { s.game with state := state } }
      { s' with game := { s'.game with state := state } } :=
  ⟨h.position, h.ply, h.posSize, h.gameRule, rfl, h.forbiddenType, h.ei, h.timeLeft,
    h.drawPlyCount, h.resignCount⟩

/-- A `break` in the same place. -/
theorem Alike.stop {R : PlayState → PlayState → Prop} (h : Alike size type s s')
    (state : GameState) :
    Parallel R (StopsAlike size type) (s.stop state) (s'.stop state) :=
  .error (.broke (h.withState state))

section Phases

variable (hm : MovesAlike type m m')
include hm

theorem MovesAlike.rulesPhase (h : HeadAlike size type s s') :
    Parallel (Alike size type) (StopsAlike size type) (m.rulesPhase s) (m'.rulesPhase s') := by
  have hasked := h.asked
  have hforced : m'.ForcedDraw (Match.asked s').position ↔
      m.ForcedDraw (Match.asked s).position := by
    rw [ForcedDraw, ForcedDraw, hm.options, hasked.position.moveCount]
  change Parallel _ _
    (if (Match.asked s).game.state.code > GameState.none.code then
      Except.error (.broke (Match.asked s))
    else if m.ForcedDraw (Match.asked s).position then (Match.asked s).stop .drawAdjudication
    else .ok (Match.asked s))
    (if (Match.asked s').game.state.code > GameState.none.code then
      Except.error (.broke (Match.asked s'))
    else if m'.ForcedDraw (Match.asked s').position then
      (Match.asked s').stop .drawAdjudication
    else .ok (Match.asked s'))
  rw [hasked.state]
  by_cases hover : (Match.asked s).game.state.code > GameState.none.code
  · rw [if_pos hover, if_pos hover]
    exact .error (.broke hasked)
  rw [if_neg hover, if_neg hover]
  by_cases hdraw : m.ForcedDraw (Match.asked s).position
  · rw [if_pos hdraw, if_pos (hforced.mpr hdraw)]
    exact hasked.stop _
  · rw [if_neg hdraw, if_neg (mt hforced.mp hdraw)]
    exact .ok hasked

/-- The engine is given the same time, and its answer leaves the same time. -/
theorem MovesAlike.receive (h : Alike size type s s') :
    Alike size type (m.receive (m.thinkPhase s)) (m'.receive (m'.thinkPhase s')) := by
  have hreply := hm.moveReply s.game.ply
  refine ⟨h.position, h.ply, h.posSize, h.gameRule, h.state, h.forbiddenType, h.ei, ?_,
    h.drawPlyCount, h.resignCount⟩
  change Function.update (Function.update s'.timeLeft s'.ei
      (computeTimeLeft (m'.engineOptions s'.ei) (s'.timeLeft s'.ei))) s'.ei
      (m'.moveReply s'.game.ply).timeLeft =
    Function.update (Function.update s.timeLeft s.ei
      (computeTimeLeft (m.engineOptions s.ei) (s.timeLeft s.ei))) s.ei
      (m.moveReply s.game.ply).timeLeft
  rw [hm.engineOptions, h.ei, h.timeLeft, h.ply, hreply.timeLeft]

theorem MovesAlike.softTimeout_iff (h : Alike size type s s') :
    m'.SoftTimeout s' ↔ m.SoftTimeout s := by
  rw [SoftTimeout, SoftTimeout, hm.engineOptions, h.ei, h.timeLeft]

end Phases

/-- A move that has been read and its image are judged alike. -/
theorem Alike.judgeMove (h : Alike size type s s') (hplayed : s'.played =
      transformMove size type s.played) (hlt : s.played < 2 ^ 14)
    (hne : s.played ≠ noneMove ∧ s'.played ≠ noneMove) :
    Parallel (AcceptedAlike size type) (StopsAlike size type) (judgeMove s)
      (judgeMove s') := by
  have hlegal := h.position.isLegalMove s.played
  rw [← hplayed] at hlegal
  have haccepted : ∀ t t' : PlayState, Alike size type t t' → t.played = s.played →
      t'.played = s'.played → s.position.isLegalMove s.played = true →
      AcceptedAlike size type t t' := by
    intro t t' halike ht ht' hlegal
    obtain ⟨hin, -⟩ := (h.position.shape.1.isLegalMove_iff s.played).mp hlegal
    rw [h.position.boardSize.1] at hin
    refine ⟨halike, by rwa [ht], by rw [ht, ht', hplayed], ?_, by rwa [ht, ht']⟩
    rw [ht, ht', hplayed, colorFromMove_transformMove h.position.size_le hlt hin]
  unfold Match.judgeMove
  rw [hlegal, h.gameRule]
  by_cases hillegal : s.position.isLegalMove s.played = true
  case neg =>
    rw [Bool.not_eq_true] at hillegal
    simp only [hillegal, Bool.not_false, if_true]
    exact h.stop _
  simp only [hillegal, Bool.not_true, Bool.false_eq_true, if_false]
  by_cases hrule : s.game.gameRule = .renju
  case neg =>
    rw [if_neg hrule, if_neg hrule]
    exact .ok (haccepted s s' h rfl rfl hillegal)
  rw [if_pos hrule, if_pos hrule]
  obtain ⟨v, hv, hv'⟩ := h.position.checkForbiddenMove hlt hillegal
  rw [← hplayed] at hv'
  have hcheck : s.checkForbidden = { s with game := { s.game with forbiddenType := v } } := by
    rw [checkForbidden, hv]
    simp only [Option.getD_some, Game.setPosition]
    rw [show s.position = s.game.pos s.game.ply from rfl, Function.update_eq_self]
  have hcheck' : s'.checkForbidden =
      { s' with game := { s'.game with forbiddenType := v } } := by
    rw [checkForbidden, hv']
    simp only [Option.getD_some, Game.setPosition]
    rw [show s'.position = s'.game.pos s'.game.ply from rfl, Function.update_eq_self]
  have hverdict : Alike size type { s with game := { s.game with forbiddenType := v } }
      { s' with game := { s'.game with forbiddenType := v } } :=
    ⟨h.position, h.ply, h.posSize, h.gameRule, h.state, rfl, h.ei, h.timeLeft,
      h.drawPlyCount, h.resignCount⟩
  rw [hcheck, hcheck']
  by_cases hforbidden : v = .none
  · subst hforbidden
    exact .ok (haccepted _ _ hverdict rfl rfl hillegal)
  · change Parallel _ _ (if v ≠ .none then _ else _) (if v ≠ .none then _ else _)
    rw [if_pos hforbidden, if_pos hforbidden]
    exact hverdict.stop _

theorem gomostrToMove_congr {P Q : Position} (h : Q.playerToMove = P.playerToMove)
    (bestmove : List Char) : Q.gomostrToMove bestmove = P.gomostrToMove bestmove := by
  unfold Position.gomostrToMove
  rw [h]

theorem gomostrToMove_lt {P : Position} {bestmove : List Char} {played : Nat}
    (h : P.gomostrToMove bestmove = some played) : played < 2 ^ 14 ∧ played ≠ noneMove := by
  rw [gomostrToMove_eq_some h]
  refine ⟨?_, buildMove_ne_noneMove _ _ _⟩
  have hpos := pos_lt (answeredCell bestmove).1 (answeredCell bestmove).2
  have hcode := P.playerToMove.code_lt
  exact (buildMovePos_of_lt (by omega) (by omega)).2

section Phases

variable (hm : MovesAlike type m m')
include hm

/-- The answers are taken alike: refused for the same reason, or accepted as a move and its
image. -/
theorem MovesAlike.answerPhase (hsize : m.options.boardSize = size)
    (h : Alike size type s s') :
    Parallel (AcceptedAlike size type) (StopsAlike size type)
      (m.answerPhase (m.thinkPhase s)) (m'.answerPhase (m'.thinkPhase s')) := by
  have hreceived := hm.receive h
  have htimeout := hm.softTimeout_iff hreceived
  have hreply := hm.moveReply s.game.ply
  rw [hsize] at hreply
  have hply : (m'.thinkPhase s').game.ply = s.game.ply := h.ply
  have hply' : (m.thinkPhase s).game.ply = s.game.ply := rfl
  have hfatal : m'.options.fatalError = m.options.fatalError := by rw [hm.options]
  unfold Match.answerPhase
  simp only [hply, hply', hreply.ok, hreply.crashed, hfatal]
  by_cases hok : (m.moveReply s.game.ply).ok = true
  case neg =>
    rw [Bool.not_eq_true] at hok
    simp only [hok, Bool.not_false, if_true]
    by_cases hexit : m.options.fatalError = true
    · rw [if_pos hexit, if_pos hexit]
      exact .error .exited
    · rw [if_neg hexit, if_neg hexit]
      exact hreceived.stop _
  simp only [hok, Bool.not_true, Bool.false_eq_true, if_false]
  by_cases hlate : m.SoftTimeout (m.receive (m.thinkPhase s))
  · rw [if_pos hlate, if_pos (htimeout.mpr hlate)]
    exact hreceived.stop _
  rw [if_neg hlate, if_neg (mt htimeout.mp hlate)]
  -- the same side is to move, so the image of the answer is read as the image of the move
  have hread := hreply.move (m.receive (m.thinkPhase s)).position
  rw [← gomostrToMove_congr hreceived.position.playerToMove] at hread
  cases hmove : (m.receive (m.thinkPhase s)).position.gomostrToMove
      (m.moveReply s.game.ply).bestmove with
  | none =>
      rw [hmove] at hread
      rw [hread]
      exact .error .aborted
  | some played =>
      rw [hmove, Option.map_some] at hread
      rw [hread]
      obtain ⟨hlt, hne⟩ := gomostrToMove_lt hmove
      obtain ⟨-, hne'⟩ := gomostrToMove_lt hread
      have hturn : Alike size type { m.receive (m.thinkPhase s) with played := played }
          { m'.receive (m'.thinkPhase s') with played := transformMove size type played } :=
        ⟨hreceived.position, hreceived.ply, hreceived.posSize, hreceived.gameRule,
          hreceived.state, hreceived.forbiddenType, hreceived.ei, hreceived.timeLeft,
          hreceived.drawPlyCount, hreceived.resignCount⟩
      exact hturn.judgeMove rfl hlt ⟨hne, hne'⟩

theorem MovesAlike.drawPhase (h : AcceptedAlike size type s s') :
    Parallel (AcceptedAlike size type) (StopsAlike size type) (m.drawPhase s)
      (m'.drawPhase s') := by
  have hdrawish : m'.Drawish s'.game.ply ↔ m.Drawish s.game.ply := by
    rw [Drawish, Drawish, hm.options, h.ply, (hm.moveReply s.game.ply).moveInfo]
  have hcounted : ∀ count, AcceptedAlike size type { s with drawPlyCount := count }
      { s' with drawPlyCount := count } := fun count =>
    ⟨⟨h.position, h.ply, h.posSize, h.gameRule, h.state, h.forbiddenType, h.ei, h.timeLeft,
      rfl, h.resignCount⟩, h.inSquare, h.played, h.color, h.ne_noneMove⟩
  unfold Match.drawPhase
  rw [h.drawPlyCount, hm.options]
  by_cases hdraw : m.Drawish s.game.ply
  case neg =>
    rw [if_neg hdraw, if_neg (mt hdrawish.mp hdraw)]
    exact .ok (hcounted 0)
  rw [if_pos hdraw, if_pos (hdrawish.mpr hdraw)]
  by_cases hcount : s.drawPlyCount + 1 ≥ 2 * m.options.drawCount
  · simp only [if_pos hcount]
    exact (hcounted (s.drawPlyCount + 1)).toAlike.stop _
  · simp only [if_neg hcount]
    exact .ok (hcounted (s.drawPlyCount + 1))

theorem MovesAlike.resignPhase (h : AcceptedAlike size type s s') :
    Parallel (AcceptedAlike size type) (StopsAlike size type) (m.resignPhase s)
      (m'.resignPhase s') := by
  have hhopeless : m'.Hopeless s'.game.ply ↔ m.Hopeless s.game.ply := by
    rw [Hopeless, Hopeless, hm.options, h.ply, (hm.moveReply s.game.ply).moveInfo]
  have hcounted : ∀ count, AcceptedAlike size type { s with resignCount := count }
      { s' with resignCount := count, ei := s.ei } := fun count =>
    ⟨⟨h.position, h.ply, h.posSize, h.gameRule, h.state, h.forbiddenType, rfl, h.timeLeft,
      h.drawPlyCount, rfl⟩, h.inSquare, h.played, h.color, h.ne_noneMove⟩
  unfold Match.resignPhase
  rw [h.resignCount, h.ei, hm.options]
  by_cases hresign : m.Hopeless s.game.ply
  case neg =>
    rw [if_neg hresign, if_neg (mt hhopeless.mp hresign)]
    exact .ok (hcounted _)
  rw [if_pos hresign, if_pos (hhopeless.mpr hresign)]
  by_cases hcount : s.resignCount s.ei + 1 ≥ m.options.resignCount
  · simp only [if_pos hcount]
    exact (hcounted _).toAlike.stop _
  · simp only [if_neg hcount]
    exact .ok (hcounted _)

omit hm in
/-- The head of the next round: the new position is the last one after the move. -/
theorem enterPly_recordPhase {t : PlayState} (hne : t.played ≠ noneMove)
    (hposSize : t.game.posSize = t.game.ply + 1) :
    (m.recordPhase t).enterPly =
      { m.recordPhase t with
        game := (m.recordPhase t).game.setPosition (t.position.move t.played) } := by
  have hkept : (m.recordPhase t).game.pos ((m.recordPhase t).game.ply - 1) = t.position := by
    change Function.update t.game.pos t.game.posSize (Position.new 15) (t.game.ply + 1 - 1) = _
    rw [Nat.add_sub_cancel, Function.update_of_ne (by omega)]
    rfl
  rw [enterPly, if_pos (show (m.recordPhase t).played ≠ noneMove from hne), hkept]
  rfl

omit hm in
theorem AcceptedAlike.recordPhase (h : AcceptedAlike size type s s') :
    HeadAlike size type (m.recordPhase s) (m'.recordPhase s') := by
  refine ⟨?_, h.color⟩
  have hnext := h.position.move h.inSquare
  rw [← h.played] at hnext
  rw [enterPly_recordPhase h.ne_noneMove.1 h.posSize.1,
    enterPly_recordPhase h.ne_noneMove.2 h.posSize.2]
  refine ⟨?_, congrArg (· + 1) h.ply, ⟨congrArg (· + 1) h.posSize.1, congrArg (· + 1) h.posSize.2⟩,
    h.gameRule, h.state, h.forbiddenType, congrArg (! ·) h.ei, h.timeLeft, h.drawPlyCount,
    h.resignCount⟩
  have hentered : ∀ (t : PlayState) (P : Position),
      PlayState.position { t with game := t.game.setPosition P } = P :=
    fun t P => Function.update_self _ _ _
  rw [hentered, hentered]
  exact hnext

/-- **One round** keeps the two games alike.  It is proved phase by phase, and each phase
may leave both loops at once. -/
theorem MovesAlike.round (hsize : m.options.boardSize = size) (h : HeadAlike size type s s') :
    Parallel (HeadAlike size type) (StopsAlike size type) (m.round s) (m'.round s') := by
  apply (hm.rulesPhase h).bind
  intro s s' halike
  apply (hm.answerPhase hsize halike).bind
  intro s s' haccepted
  apply (hm.drawPhase haccepted).bind
  intro s s' haccepted
  apply (hm.resignPhase haccepted).bind
  intro s s' haccepted
  exact .ok haccepted.recordPhase

end Phases

/-! ## Whole games -/

/-- Two games end with the same verdict: the same result in the same round, and the same
account of it. -/
inductive SameVerdict : PlayEnd → PlayEnd → Prop
  | exited : SameVerdict .exited .exited
  | aborted : SameVerdict .aborted .aborted
  | returned {result : Result} {final final' : PlayState}
      (ply : final'.game.ply = final.game.ply)
      (state : final'.game.state = final.game.state)
      (decode : final'.game.decodeState = final.game.decodeState) :
      SameVerdict (.returned result final) (.returned result final')

/-- Two games that have been set up, the second with the transformed board. -/
structure GamesAlike (size : Nat) (type : TransformType) (g g' : Game) : Prop where
  position : Mirrors size type (g.pos 0) (g'.pos 0)
  ply : g.ply = 0 ∧ g'.ply = 0
  posSize : g.posSize = 1 ∧ g'.posSize = 1
  state : g'.state = g.state
  forbiddenType : g'.forbiddenType = g.forbiddenType

theorem decodeState_congr {g g' : Game}
    (hturn : g'.position.playerToMove = g.position.playerToMove) (hstate : g'.state = g.state)
    (hforbidden : g'.forbiddenType = g.forbiddenType) : g'.decodeState = g.decodeState := by
  funext restxt
  unfold Game.decodeState
  rw [hturn, hstate, hforbidden]

theorem Alike.sameVerdict (h : Alike size type s s') (result : Result) :
    SameVerdict (.returned result s) (.returned result s') :=
  .returned h.ply h.state (decodeState_congr h.position.playerToMove h.state h.forbiddenType)

/-- Before the first round. -/
structure StartAlike (size : Nat) (type : TransformType) (s s' : PlayState) : Prop
    extends Alike size type s s' where
  played : s.played = noneMove ∧ s'.played = noneMove
  first : s.game.ply = 0

theorem StartAlike.head (h : StartAlike size type s s') : HeadAlike size type s s' := by
  constructor
  · unfold enterPly
    rw [if_neg (not_not.mpr h.played.1), if_neg (not_not.mpr h.played.2)]
    exact h.toAlike
  · rw [h.played.1, h.played.2]

/-- The assignments right before the loop. -/
theorem StartAlike.withClock (h : StartAlike size type s s') (timeLeft : Bool → Int) :
    HeadAlike size type { s with timeLeft := timeLeft, game := { s.game with ply := 0 } }
      { s' with timeLeft := timeLeft, game := { s'.game with ply := 0 } } := by
  have hfirst' : s'.game.ply = 0 := h.ply.trans h.first
  have hgame : { s.game with ply := 0 } = s.game := by rw [← h.first]
  have hgame' : { s'.game with ply := 0 } = s'.game := by rw [← hfirst']
  rw [hgame, hgame']
  refine StartAlike.head ⟨⟨h.position, h.ply, h.posSize, h.gameRule, h.state, h.forbiddenType,
    h.ei, rfl, h.drawPlyCount, h.resignCount⟩, h.played, h.first⟩

section Play

variable (hm : MovesAlike type m m')
include hm

theorem MovesAlike.initial {g g' : Game} (h : GamesAlike size type g g') :
    StartAlike size type (m.initial g) (m'.initial g') := by
  have hposition : (m.initial g).position = g.pos 0 := congrArg g.pos h.ply.1
  have hposition' : (m'.initial g').position = g'.pos 0 := congrArg g'.pos h.ply.2
  refine ⟨⟨?_, ?_, ⟨?_, ?_⟩, ?_, h.state, h.forbiddenType, hm.reverse, rfl, rfl, rfl⟩,
    ⟨rfl, rfl⟩, h.ply.1⟩
  · rw [hposition, hposition']
    exact h.position
  · exact h.ply.2.trans h.ply.1.symm
  · change g.posSize = g.ply + 1
    rw [h.posSize.1, h.ply.1]
  · change g'.posSize = g'.ply + 1
    rw [h.posSize.2, h.ply.2]
  · change m'.options.gameRule = m.options.gameRule
    rw [hm.options]

theorem MovesAlike.startEngine (i : Bool) (h : StartAlike size type s s') :
    Parallel (StartAlike size type) SameVerdict (m.startEngine i s) (m'.startEngine i s') := by
  have hfatal : m'.options.fatalError = m.options.fatalError := by rw [hm.options]
  have hwritten : ∀ commands commands', StartAlike size type (s.writeln i commands)
      (s'.writeln i commands') := fun _ _ =>
    ⟨⟨h.position, h.ply, h.posSize, h.gameRule, h.state, h.forbiddenType, h.ei, h.timeLeft,
      h.drawPlyCount, h.resignCount⟩, h.played, h.first⟩
  unfold Match.startEngine
  simp only [hm.startReply, hfatal]
  by_cases hok : (m.startReply i).ok = true
  case pos =>
    simp only [hok, Bool.not_true, Bool.false_eq_true, if_false]
    exact .ok ⟨⟨h.position, h.ply, h.posSize, h.gameRule, h.state, h.forbiddenType, h.ei,
      h.timeLeft, h.drawPlyCount, h.resignCount⟩, h.played, h.first⟩
  rw [Bool.not_eq_true] at hok
  simp only [hok, Bool.not_false, if_true]
  by_cases hexit : m.options.fatalError = true
  · rw [if_pos hexit, if_pos hexit]
    exact .error .exited
  · rw [if_neg hexit, if_neg hexit]
    exact .error (((hwritten _ _).toAlike.withState _).sameVerdict _)

theorem MovesAlike.startPhase {g g' : Game} (h : GamesAlike size type g g') :
    Parallel (HeadAlike size type) SameVerdict (m.startPhase g) (m'.startPhase g') := by
  apply (hm.startEngine false (hm.initial h)).bind
  intro s s' hfirst
  apply (hm.startEngine true hfirst).bind
  intro s s' hsecond
  have hclock : (fun i => (m'.engineOptions i).timeoutMatch) =
      fun i => (m.engineOptions i).timeoutMatch := by rw [hm.engineOptions]
  rw [hclock]
  exact .ok (hsecond.withClock _)

omit hm in
theorem StopsAlike.finish {e e' : Stop} (h : StopsAlike size type e e') :
    SameVerdict (finish e) (finish e') := by
  cases h with
  | exited => exact .exited
  | aborted => exact .aborted
  | @broke s s' h =>
      have hresult : (if s'.game.state.code < stateSeparator then resultOfLoser s'.ei else .draw) =
          if s.game.state.code < stateSeparator then resultOfLoser s.ei else .draw := by
        rw [h.state, h.ei]
      unfold Match.finish
      simp only [hresult]
      exact .returned h.ply h.state
        (decodeState_congr h.position.playerToMove h.state h.forbiddenType)

/-- **The two games end alike.** From the start on their rounds are related one by one, so
that they are left in the same round. -/
theorem MovesAlike.play {g g' : Game} (h : GamesAlike m.options.boardSize type g g') :
    Option.Rel SameVerdict (m.play g) (m'.play g') := by
  have hstart := hm.startPhase h
  unfold Match.play
  revert hstart
  generalize m.startPhase g = x
  generalize m'.startPhase g' = x'
  intro hstart
  cases hstart with
  | error h => exact .some h
  | @ok s s' h =>
      have hrun := run_parallel (fun s s' h => hm.round rfl h) playFuel h
      change Option.Rel SameVerdict ((EarlyExit.run m.round playFuel s).map Match.finish)
        ((EarlyExit.run m'.round playFuel s').map Match.finish)
      revert hrun
      generalize EarlyExit.run m.round playFuel s = y
      generalize EarlyExit.run m'.round playFuel s' = y'
      intro hrun
      cases hrun with
      | none => exact .none
      | some h => exact .some h.finish

end Play

/-! ## The option `-transform` -/

/-- The option starts the game from the transformed board and changes nothing else.  Which
transform it is depends on the round alone. -/
theorem loadOpening_transform {o o' : Options} (hsize : o.boardSize ≤ 22)
    (hoptions : o' = { o with transform := true }) (hplain : o.transform = false)
    {openingStr : List Char} {currentRound : Nat} {g : Game} {color : Color}
    (hload : Game.new.loadOpening openingStr o currentRound = some (g, color)) :
    ∃ g', Game.new.loadOpening openingStr o' currentRound = some (g', color) ∧
      GamesAlike o.boardSize (Game.transformOfRound currentRound) g g' := by
  subst hoptions
  have hnew : (Function.update Game.new.pos Game.new.posSize
      (Position.new o.boardSize)) 0 = Position.new o.boardSize :=
    Function.update_self _ _ _
  unfold Game.loadOpening at hload ⊢
  simp only [hnew, hplain, Bool.false_eq_true, if_false, if_true] at hload ⊢
  by_cases hok : ((Position.new o.boardSize).applyOpening openingStr o.openingType).1 = true
  case neg =>
    rw [if_neg hok] at hload
    cases hload
  rw [if_pos hok, Option.some.injEq, Prod.mk.injEq] at hload
  obtain ⟨rfl, rfl⟩ := hload
  rw [if_pos hok]
  refine ⟨_, rfl, ⟨?_, ⟨rfl, rfl⟩, ⟨rfl, rfl⟩, rfl, rfl⟩⟩
  simp only [Function.update_self]
  obtain ⟨cells, hcells, hin⟩ := (applyOpening_fst_iff _ _ _).mp hok
  have hfollows := (playCells_initBoard (Position.new o.boardSize) hsize hin).1
  have hsnd := applyOpening_snd hcells hin
  rw [show (Position.new o.boardSize).boardSize = o.boardSize from rfl] at hsnd
  rw [← hsnd] at hfollows
  exact Mirrors.of_transform hfollows _

/-- **The rules are invariant under the symmetries of the board.** On every position,
whatever stones it holds, a transform changes neither the five-in-line test nor the kind of
point that an empty cell is for Black; and a game that is started with `-transform` ends
with the same verdict when its moves are transformed alike.  The engines are arbitrary
otherwise: nothing asks how they come to their answers. -/
theorem rules_transform (type : TransformType) :
    (∀ P : Position, P.BoardShape →
      (∀ side : Color, side.IsStone → ∀ allow,
        ((P.transform type).checkFiveInLineSide side allow).1 =
          (P.checkFiveInLineSide side allow).1) ∧
      ∀ p, P.board p = .empty → ∃ v,
        P.checkForbiddenMove (buildMovePos p Color.black.code) = some (v, P) ∧
        (P.transform type).checkForbiddenMove
            (buildMovePos (transformPos p P.boardSize type) Color.black.code) =
          some (v, P.transform type)) ∧
    ∀ (m m' : Match) (openingStr : List Char) (currentRound : Nat) (g : Game) (color : Color),
      m.options.boardSize ≤ 22 → m.options.transform = false → m'.options.transform = true →
      Game.transformOfRound currentRound = type → MovesAlike type m m' →
      Game.new.loadOpening openingStr m.options currentRound = some (g, color) →
      ∃ g', Game.new.loadOpening openingStr m'.options currentRound = some (g', color) ∧
        Option.Rel SameVerdict (m.play g) (m'.play g') := by
  constructor
  · intro P hshape
    refine ⟨fun side hside => hshape.checkFiveInLineSide_transform type hside.ne_wall, ?_⟩
    intro p hp
    rw [hshape.board_eq_grid] at hp
    have hin := hshape.inSquare_of_empty hp
    have hlt := lt_of_inSquare_cellOf hshape.size_le hin
    have himage := transformPos_of_inSquare hshape.size_le type hin
    have hempty : (P.transform type).grid (transformCell P.boardSize type (cellOf p)) =
        .empty := by
      rw [hshape.grid_transform, hp]
    have hlt' : transformPos p P.boardSize type < 1024 := by
      rw [himage]
      exact posOf_lt (((inSquare_transformCell_iff type _).mpr hin).range hshape.size_le)
    have hblack : ∀ q < 1024, posFromMove (buildMovePos q Color.black.code) = q ∧
        colorFromMove (buildMovePos q Color.black.code) = Color.black.code := by
      intro q hq
      rw [posFromMove_buildMovePos, Nat.mod_eq_of_lt hq]
      exact ⟨rfl, colorFromMove_buildMovePos hq (by decide)⟩
    obtain ⟨hcell, hcolor⟩ := hblack p hlt
    obtain ⟨hcell', hcolor'⟩ := hblack _ hlt'
    have hverdict := hshape.isForbidden_eq hp
    have hverdict' := (hshape.transform type).isForbidden_eq hempty
    rw [posOf_cellOf hlt] at hverdict
    rw [← himage, hshape.forbiddenPoint_transform] at hverdict'
    unfold Position.checkForbiddenMove
    rw [hcolor, hcolor', hcell, hcell', if_neg (not_not.mpr rfl), if_neg (not_not.mpr rfl)]
    exact ⟨_, hverdict, hverdict'⟩
  · intro m m' openingStr currentRound g color hsize hplain htransform htype hm hload
    subst htype
    have hoptions := hm.options
    rw [htransform] at hoptions
    obtain ⟨g', hload', halike⟩ := loadOpening_transform hsize hoptions hplain hload
    exact ⟨g', hload', hm.play halike⟩

/-- A Renju game in which Black completes a row with `4,0`, and the same game on
the board turned by a quarter, where the answer is `0,10`. -/
theorem rules_transform_row :
    (((Position.new 15).transform .rotate90).checkFiveInLineSide .black true).1 =
      ((Position.new 15).checkFiveInLineSide .black true).1 ∧
    ∃ g g' color, Game.new.loadOpening fourOpening renjuOptions 1 = some (g, color) ∧
      Game.new.loadOpening fourOpening { renjuOptions with transform := true } 1 =
        some (g', color) ∧
      Option.Rel SameVerdict
        ((casual renjuOptions fun _ => ['4', ',', '0']).play g)
        ((casual { renjuOptions with transform := true } fun _ =>
          ['0', ',', '1', '0']).play g') := by
  obtain ⟨hrules, hgames⟩ := rules_transform .rotate90
  refine ⟨(hrules _ (initBoard_shape _ (by decide))).1 .black (by decide) true, ?_⟩
  obtain ⟨⟨g, color⟩, hload⟩ := Option.isSome_iff_exists.mp
    (show (Game.new.loadOpening fourOpening renjuOptions 1).isSome = true by decide)
  have hin : InSquare 15 (4, 0) := by decide
  have hread : ∀ P : Position, P.gomostrToMove ['0', ',', '1', '0'] =
      (P.gomostrToMove ['4', ',', '0']).map (transformMove 15 .rotate90) :=
    ReadsAs.map_transformMove (by decide) hin
      ⟨['4'], ['0'], rfl, by decide, by decide, by decide, by decide⟩
      ⟨['0'], ['1', '0'], rfl, by decide, by decide, by decide, by decide⟩
  have halike : MovesAlike .rotate90 (casual renjuOptions fun _ => ['4', ',', '0'])
      (casual { renjuOptions with transform := true } fun _ => ['0', ',', '1', '0']) :=
    ⟨rfl, rfl, rfl, rfl, fun _ => ⟨rfl, rfl, rfl, rfl, hread⟩⟩
  obtain ⟨g', hload', hverdict⟩ := hgames _ _ fourOpening 1 g color (by decide) rfl rfl rfl
    halike hload
  exact ⟨g, g', color, hload, hload', hverdict⟩

end Match

end GomokuCli
