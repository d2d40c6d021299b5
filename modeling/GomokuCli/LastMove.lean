import GomokuCli.Run

/-!
# The win test and the last move

`game_apply_rules` looks for a line anywhere on the board, of the colour of the
last stone, and not at all before the fifth stone.  The shortcut never matters,
because a line has five stones.  That the line found contains the last stone is
a fact about whole games: no earlier position had a line of either colour, and a
stone only makes lines through itself.

The first round is different.  No move has been played in it, so the length of
the lines is not decided by the colour of the last stone of the opening.
-/

namespace GomokuCli

open EarlyExit LineRun

/-! ## Lines and the number of stones -/

/-- A winning line takes five stones. -/
theorem HasWinningLine.five_le {size : Nat} {cells : List (Int × Int)} {side : Color}
    {allow : Bool} (hside : side.IsStone)
    (h : HasWinningLine (stones size cells) side allow) : 5 ≤ cells.length := by
  obtain ⟨c, d, a, b, hrun, hwins⟩ := h
  have hfive := hwins.five_le
  have hsub : (Finset.Icc a b).image (along c d) ⊆ cells.toFinset := by
    intro e he
    obtain ⟨k, hk, rfl⟩ := Finset.mem_image.mp he
    obtain ⟨hak, hkb⟩ := Finset.mem_Icc.mp hk
    have hstone : stones size cells (along c d k) = side := hrun.holds k hak hkb
    rw [List.mem_toFinset]
    by_contra hnot
    rw [stones_of_notMem hnot, emptyGrid] at hstone
    split at hstone
    · exact hside.ne_empty hstone.symm
    · exact hside.ne_wall hstone.symm
  have hcard := Finset.card_le_card hsub
  rw [Finset.card_image_of_injective _ (along_injective c d), Int.card_Icc] at hcard
  have hlength := hcard.trans (List.toFinset_card_le cells)
  omega

theorem not_hasWinningLine_nil {size : Nat} {side : Color} (hside : side.IsStone)
    (allow : Bool) : ¬ HasWinningLine (stones size []) side allow := by
  intro h
  have := h.five_le hside
  simp at this

namespace Position

variable {P : Position} {size : Nat} {cells : List (Int × Int)} {c : Int × Int}
  {allow : Bool}

/-- **The test on the last move** looks for a line of the last stone's colour; the shortcut
for fewer than five stones changes nothing, since a line has five. -/
theorem Follows.checkFiveInLineLastmove_iff (h : P.Follows size (cells ++ [c])) :
    (P.checkFiveInLineLastmove allow).1 = true ↔
      HasWinningLine (stones size (cells ++ [c])) (turnAt cells.length) allow := by
  have hcount : P.moveCount = cells.length + 1 := by
    rw [h.moveCount, List.length_append, List.length_singleton]
  have hside := turnAt_isStone cells.length
  rw [checkFiveInLineLastmove]
  by_cases hfew : P.moveCount < 5
  · rw [if_pos hfew]
    constructor
    · intro hfalse
      cases hfalse
    · intro hline
      have hfive := hline.five_le hside
      rw [List.length_append, List.length_singleton] at hfive
      omega
  · rw [if_neg hfew]
    have hlast : P.board (posFromMove (P.historyMoves (P.moveCount - 1))) =
        turnAt cells.length := by
      have hi : cells.length < (cells ++ [c]).length := by simp
      rw [hcount, Nat.add_sub_cancel, h.board, h.history hi,
        List.getElem_concat_length rfl, stones_append_singleton, Function.update_self]
    simp only [hlast]
    rw [checkFiveInLineSide_iff h.shape hside.ne_wall, h.grid_eq]

/-- On the empty board there is nothing to find. -/
theorem Follows.checkFiveInLineLastmove_nil (h : P.Follows size []) :
    (P.checkFiveInLineLastmove allow).1 = false := by
  rw [checkFiveInLineLastmove, if_pos]
  rw [h.moveCount]
  exact Nat.zero_lt_succ 4

end Position

theorem Game.gameApplyRules_fst_iff (g : Game) (lastmove : Nat) :
    (g.gameApplyRules lastmove).1 = .fiveConnect ↔
      (g.position.checkFiveInLineLastmove (allowLongConnection g.gameRule lastmove)).1 =
        true := by
  unfold gameApplyRules
  simp only
  split
  · next h => exact iff_of_true rfl h
  · next h =>
      split
      · exact iff_of_false (by simp) h
      · exact iff_of_false (by simp) h

/-! ## Whose lines may be long -/

/-- Lines of more than five stones win: for everyone under the free rule, for nobody under
rule 1, and for White under Renju.  It depends on the colour of the line, where the source
takes the colour of the last move. -/
def allowsLong (rule : GameRule) (color : Color) : Bool :=
  match rule with
  | .gomokuFiveOrMore => true
  | .gomokuExactFive => false
  | .renju => color != .black

/-- Neither colour has a winning line.  This is what holds of all positions of a game that
goes on, and it is why looking at the last stone is enough. -/
def Quiet (rule : GameRule) (grid : Int × Int → Color) : Prop :=
  ∀ color, color.IsStone → ¬ HasWinningLine grid color (allowsLong rule color)

/-- The test on both colours. -/
theorem Position.BoardShape.quiet {rule : GameRule} {P : Position} (hshape : P.BoardShape)
    (hblack : (P.checkFiveInLineSide .black (allowsLong rule .black)).1 = false)
    (hwhite : (P.checkFiveInLineSide .white (allowsLong rule .white)).1 = false) :
    Quiet rule P.grid := by
  rintro color (rfl | rfl) hline
  · rw [← Position.checkFiveInLineSide_iff hshape (by decide), hblack] at hline
    cases hline
  · rw [← Position.checkFiveInLineSide_iff hshape (by decide), hwhite] at hline
    cases hline

/-- The last stone lies on a winning line of its own colour.  It is the local rule, by which
a human referee decides. -/
def LastStoneWins (rule : GameRule) (P : Position) : Prop :=
  ∃ c, P.historyCells.getLast? = some c ∧
    OnWinningLine P.grid (P.grid c) (allowsLong rule (P.grid c)) c

/-- The referee's choice for a move is that for the colour of its stone. -/
theorem allowLongConnection_eq {rule : GameRule} {color : Color} {lastmove : Nat}
    (h : colorFromMove lastmove = color.code) :
    Game.allowLongConnection rule lastmove = allowsLong rule color := by
  unfold Game.allowLongConnection allowsLong
  cases rule with
  | gomokuFiveOrMore => rfl
  | gomokuExactFive => rfl
  | renju =>
      simp only [h]
      cases color <;> rfl

/-- **The local rule.** If nobody had a winning line before a stone, then a line of its
colour exists iff the stone lies on one, and the other colour still has none.  Covering an
empty cell can only break the runs of the other colour. -/
theorem Quiet.update {rule : GameRule} {grid : Int × Int → Color} {color : Color}
    {c : Int × Int} (h : Quiet rule grid) (hcolor : color.IsStone) (hempty : grid c = .empty) :
    (HasWinningLine (Function.update grid c color) color (allowsLong rule color) ↔
      OnWinningLine (Function.update grid c color) color (allowsLong rule color) c) ∧
    (¬ HasWinningLine (Function.update grid c color) color (allowsLong rule color) →
      Quiet rule (Function.update grid c color)) := by
  refine ⟨hasWinningLine_update_iff (h color hcolor), fun hno color' hcolor' hline => ?_⟩
  rcases eq_or_ne color' color with rfl | hne
  · exact hno hline
  · rw [hasWinningLine_update_other hempty hcolor' hne] at hline
    exact h color' hcolor' hline

namespace Match

open PlayState Position

variable {m : Match} {g : Game} {s s' : PlayState} {P : Position} {size : Nat}
  {cells : List (Int × Int)} {moves init : List Nat} {last : Nat}

/-! ## The test in a round -/

/-- The referee looks for a line of the last stone; its argument decides only whether
a long one counts. -/
theorem Playing.gameApplyRules_iff {c : Int × Int} (h : Playing m P moves s)
    (hfollows : (P.playMoves moves).Follows size (cells ++ [c])) (lastmove : Nat) :
    (s.enterPly.game.gameApplyRules lastmove).1 = .fiveConnect ↔
      HasWinningLine (P.playMoves moves).grid (turnAt cells.length)
        (Game.allowLongConnection m.options.gameRule lastmove) := by
  have hnow : s.enterPly.position.Follows size (cells ++ [c]) := h.position.follows hfollows
  rw [Game.gameApplyRules_fst_iff, enterPly_gameRule, h.gameRule]
  refine hnow.checkFiveInLineLastmove_iff.trans ?_
  rw [hfollows.grid_eq]

/-- After a move the referee looks for a line of the stone that was played. -/
theorem Playing.fiveConnect_iff (h : Playing m P (init ++ [last]) s)
    (hstart : P.Follows size cells)
    (hcolor : colorFromMove last = (P.playMoves init).playerToMove.code) :
    (s.enterPly.game.gameApplyRules s.played).1 = .fiveConnect ↔
      HasWinningLine
        (Function.update (P.playMoves init).grid (cellOf (posFromMove last))
          (P.playMoves init).playerToMove)
        (P.playMoves init).playerToMove
        (allowsLong m.options.gameRule (P.playMoves init).playerToMove) := by
  have hplayed : s.played = last := by
    rw [h.played, List.getLast?_concat, Option.getD_some]
  have hinit := hstart.playMoves h.legal.of_append_singleton.1
  have hnow := hstart.playMoves h.legal
  rw [moveCells_append_singleton, ← List.append_assoc] at hnow
  have hturn : turnAt (cells ++ moveCells init).length = (P.playMoves init).playerToMove := by
    rw [hinit.turn, hinit.moveCount]
  rw [h.gameApplyRules_iff hnow, hplayed, allowLongConnection_eq hcolor, hturn,
    hstart.grid_playMoves_append h.legal]

/-- Before the first move it looks for a line of the last stone of the opening,
as long as the rule allows for the sentinel. -/
theorem Playing.fiveConnect_first_iff {c : Int × Int} (h : Playing m P [] s)
    (hstart : P.Follows size (cells ++ [c])) :
    (s.enterPly.game.gameApplyRules s.played).1 = .fiveConnect ↔
      HasWinningLine P.grid (turnAt cells.length)
        (Game.allowLongConnection m.options.gameRule noneMove) := by
  rw [show s.played = noneMove from h.played]
  exact h.gameApplyRules_iff hstart noneMove

theorem Playing.not_fiveConnect_empty (h : Playing m P [] s) (hstart : P.Follows size []) :
    (s.enterPly.game.gameApplyRules s.played).1 ≠ .fiveConnect := by
  have hnow : s.enterPly.position.Follows size [] := h.position.follows hstart
  rw [ne_eq, Game.gameApplyRules_fst_iff]
  intro hfound
  rw [show s.enterPly.game.position = s.enterPly.position from rfl,
    hnow.checkFiveInLineLastmove_nil] at hfound
  cases hfound

/-- The last stone of a position, and its colour. -/
theorem lastStoneWins_iff {rule : GameRule} {c : Int × Int}
    (h : P.Follows size (cells ++ [c])) :
    LastStoneWins rule P ↔
      OnWinningLine P.grid (turnAt cells.length) (allowsLong rule (turnAt cells.length)) c := by
  have hcolor : P.grid c = turnAt cells.length := by
    rw [h.grid_eq, stones_append_singleton, Function.update_self]
  rw [LastStoneWins, h.moves, List.getLast?_concat]
  constructor
  · rintro ⟨c', hc', hline⟩
    rw [Option.some.injEq] at hc'
    subst hc'
    rwa [hcolor] at hline
  · intro hline
    refine ⟨c, rfl, ?_⟩
    rwa [hcolor]

/-- What is kept from round to round: the game is a record, and before the last move nobody
had a winning line.  Nothing is said of the position after the last move, because the test
on it comes only in the next round. -/
structure QuietBefore (m : Match) (P : Position) (moves : List Nat) (s : PlayState) :
    Prop where
  playing : Playing m P moves s
  represents : ∃ r : Record m.options.boardSize, (P.playMoves moves).Represents r
  quiet : ∀ init last, moves = init ++ [last] →
    Quiet m.options.gameRule (P.playMoves init).grid

/-- The colour bits of the last move are those of the player who made it. -/
theorem QuietBefore.color (h : QuietBefore m P (init ++ [last]) s) :
    colorFromMove last = (P.playMoves init).playerToMove.code := by
  obtain ⟨r, hrep⟩ := h.represents
  have hlast := hrep.coloured (P.playMoves init).moveCount (by simp)
  have hturn := hrep.follows.turn
  rw [playMoves_append_singleton] at hlast hturn
  rw [move_historyMoves, Function.update_self] at hlast
  rw [move_playerToMove, move_moveCount, turnAt_succ] at hturn
  rw [hlast, ← opponentColor_opponentColor (turnAt (P.playMoves init).moveCount), ← hturn,
    opponentColor_opponentColor]

/-- **The local rule holds after every move**, and if the test finds nothing then nobody has
a winning line.  The second part is what the next round starts from. -/
theorem QuietBefore.localRule (h : QuietBefore m P (init ++ [last]) s)
    (hstart : P.Follows size cells) :
    ((s.enterPly.game.gameApplyRules s.played).1 = .fiveConnect ↔
      LastStoneWins m.options.gameRule s.enterPly.position) ∧
    ((s.enterPly.game.gameApplyRules s.played).1 ≠ .fiveConnect →
      Quiet m.options.gameRule (P.playMoves (init ++ [last])).grid) := by
  have hplaying := h.playing
  obtain ⟨hlegalInit, hlegal, -⟩ := hplaying.legal.of_append_singleton
  have hinit := hstart.playMoves hlegalInit
  have hstone := hinit.turn_isStone
  rw [hinit.shape.isLegalMove_iff] at hlegal
  obtain ⟨-, hempty⟩ := hlegal
  -- nobody had a line before the last stone, so a new one goes through it
  obtain ⟨hlocal, hstill⟩ := (h.quiet init last rfl).update hstone hempty
  have hgrid := hstart.grid_playMoves_append hplaying.legal
  have hfive := hplaying.fiveConnect_iff hstart h.color
  have hnow : s.enterPly.position.Follows size
      ((cells ++ moveCells init) ++ [cellOf (posFromMove last)]) := by
    have hfollows := hplaying.position.follows (hstart.playMoves hplaying.legal)
    rwa [moveCells_append_singleton, ← List.append_assoc] at hfollows
  have hturn : turnAt (cells ++ moveCells init).length = (P.playMoves init).playerToMove := by
    rw [hinit.turn, hinit.moveCount]
  constructor
  · rw [hfive, hlocal, lastStoneWins_iff hnow, hturn, hplaying.position.grid, hgrid]
  · intro hno
    rw [hgrid]
    exact hstill (mt hfive.mpr hno)

/-- While nobody has won, nobody has a winning line. -/
theorem QuietBefore.quiet_of_not_fiveConnect (h : QuietBefore m P moves s)
    (hstart : P.Follows size cells) (hquiet : Quiet m.options.gameRule P.grid)
    (hno : (s.enterPly.game.gameApplyRules s.played).1 ≠ .fiveConnect) :
    Quiet m.options.gameRule (P.playMoves moves).grid := by
  rcases List.eq_nil_or_concat' moves with rfl | ⟨init, last, rfl⟩
  · exact hquiet
  · exact (h.localRule hstart).2 hno

theorem Accepts.not_fiveConnect {played : Nat} (h : m.Accepts s played) :
    (s.enterPly.game.gameApplyRules s.played).1 ≠ .fiveConnect := by
  rw [← asked_state, h.state]
  simp

/-- The referee has a verdict on every accepted move, and it is that no pattern is
forbidden. -/
theorem Accepts.checkForbiddenMove_eq {played : Nat} (h : m.Accepts s played)
    (hrule : s.game.gameRule = .renju) (hshape : (asked s).position.BoardShape) :
    (asked s).position.checkForbiddenMove played = some (.none, (asked s).position) := by
  have hverdict := hshape.checkForbiddenMove_eq h.legal
  by_contra hne
  refine h.allowed ⟨hrule, _, hverdict, fun hnone => hne ?_⟩
  rw [hverdict, hnone]

/-- An accepted move of Black is not to a forbidden point. -/
theorem Accepts.forbiddenPoint_eq {played : Nat} (h : m.Accepts s played)
    (hplaying : Playing m P moves s) (hrule : m.options.gameRule = .renju)
    (hstart : P.Follows size cells)
    (hcolor : colorFromMove played = (P.playMoves moves).playerToMove.code)
    (hblack : (P.playMoves moves).playerToMove = .black) :
    forbiddenPoint size (P.playMoves moves).grid (cellOf (posFromMove played)) = .none := by
  have hshape := hplaying.shape hstart
  have hsize := (hplaying.follows hstart).boardSize
  have hverdict := h.checkForbiddenMove_eq (hplaying.gameRule.trans hrule) hshape
  rw [hblack] at hcolor
  rw [hshape.checkForbiddenMove_eq h.legal, if_pos hcolor, Option.some.injEq, Prod.mk.injEq,
    hsize, hplaying.asked_position.grid] at hverdict
  exact hverdict.1

/-- A round that goes on keeps the invariant: its test has found no line on the position
that becomes the one before the last move. -/
theorem QuietBefore.step (hbefore : QuietBefore m (g.pos 0) moves s) (h : Loads m g)
    (hquiet : Quiet m.options.gameRule (g.pos 0).grid) (hanswers : AnswersInSquare m g)
    (hat : AtRound m g s) (hround : m.round s = .ok s') (haccepts : m.Accepts s s'.played) :
    QuietBefore m (g.pos 0) (moves ++ [s'.played]) s' := by
  obtain ⟨cells, hfollows, -⟩ := h.follows
  obtain ⟨r, hrep⟩ := hbefore.represents
  obtain ⟨r', -, hrep'⟩ :=
    hbefore.playing.represents_step hrep haccepts (hanswers s s' hat hround)
  refine ⟨hbefore.playing.step hfollows hround, ⟨r', hrep'⟩, ?_⟩
  intro init last heq
  obtain ⟨rfl, -⟩ := List.append_inj' heq rfl
  exact hbefore.quiet_of_not_fiveConnect hfollows hquiet haccepts.not_fiveConnect

/-- Before the first move only the opening counts. -/
theorem QuietBefore.first (h : Loads m g) (hnodup : (g.pos 0).historyCells.Nodup)
    (hstarted : Started m g s) : QuietBefore m (g.pos 0) [] s := by
  refine ⟨Playing.init h hstarted, h.represents hnodup, fun init last hnil => ?_⟩
  simp at hnil

theorem AtRound.quietBefore (h : Loads m g) (hnodup : (g.pos 0).historyCells.Nodup)
    (hquiet : Quiet m.options.gameRule (g.pos 0).grid) (hanswers : AnswersInSquare m g)
    (hs : AtRound m g s) : ∃ moves, QuietBefore m (g.pos 0) moves s := by
  refine hs.invariant (fun s => ∃ moves, QuietBefore m (g.pos 0) moves s) h ?_ ?_
  · intro s₀ hstarted
    exact ⟨[], QuietBefore.first h hnodup hstarted⟩
  · rintro t t' hat ⟨moves, hbefore⟩ hround hcontinues
    exact ⟨moves ++ [t'.played],
      hbefore.step h hquiet hanswers hat hround hcontinues.accepts⟩

/-- Without a winning line the last stone lies on none. -/
theorem Quiet.not_lastStoneWins {rule : GameRule} (h : Quiet rule P.grid)
    (hfollows : P.Follows size cells) : ¬ LastStoneWins rule P := by
  rcases List.eq_nil_or_concat' cells with rfl | ⟨init, c, rfl⟩
  · rintro ⟨c, hc, -⟩
    rw [hfollows.moves] at hc
    cases hc
  · rw [lastStoneWins_iff hfollows]
    intro hline
    exact h _ (turnAt_isStone _) hline.hasWinningLine

/-- **The test in the first round.** No move has been played, and the sentinel that stands
for one has no colour, so that a long line counts for either player. -/
theorem Playing.localRule_first_iff (hplaying : Playing m P [] s)
    (hstart : P.Follows size cells) (hquiet : Quiet m.options.gameRule P.grid) :
    ((s.enterPly.game.gameApplyRules s.played).1 = .fiveConnect ↔
      LastStoneWins m.options.gameRule s.enterPly.position) ↔
      ¬ (m.options.gameRule = .renju ∧ P.playerToMove = .white ∧
        HasWinningLine P.grid .black true) := by
  have hnone : ¬ LastStoneWins m.options.gameRule s.enterPly.position := by
    have hgrid := hplaying.position.grid
    rw [playMoves_nil] at hgrid
    exact Quiet.not_lastStoneWins (hgrid.symm ▸ hquiet) (hplaying.position.follows hstart)
  rw [iff_false_right hnone, not_iff_not]
  rcases List.eq_nil_or_concat' cells with rfl | ⟨init, c, rfl⟩
  · refine iff_of_false (hplaying.not_fiveConnect_empty hstart) ?_
    rintro ⟨-, hturn, -⟩
    rw [hstart.turn, hstart.moveCount] at hturn
    cases hturn
  · rw [hplaying.fiveConnect_first_iff hstart]
    have hcolors := hquiet _ (turnAt_isStone init.length)
    rw [hstart.turn_append_singleton]
    rcases turnAt_isStone init.length with hblack | hwhite
    · rw [hblack] at hcolors ⊢
      cases hrule : m.options.gameRule with
      | gomokuFiveOrMore =>
          rw [hrule] at hcolors
          exact iff_of_false hcolors (by simp)
      | gomokuExactFive =>
          rw [hrule] at hcolors
          exact iff_of_false hcolors (by simp)
      | renju =>
          -- the sentinel is not Black's move, so long lines are allowed
          have hallow : Game.allowLongConnection .renju noneMove = true := by decide
          rw [hallow]
          simp [opponentColor]
    · rw [hwhite] at hcolors ⊢
      refine iff_of_false ?_ (by simp [opponentColor])
      cases hrule : m.options.gameRule with
      | gomokuFiveOrMore =>
          rw [hrule] at hcolors
          exact hcolors
      | gomokuExactFive =>
          rw [hrule] at hcolors
          exact hcolors
      | renju =>
          rw [hrule] at hcolors
          have hallow : Game.allowLongConnection .renju noneMove = true := by decide
          rw [hallow]
          exact hcolors

/-- **The scan of the whole board agrees with the local rule** after every move of the game,
and in the first round unless the rule is Renju and the opening ends with a stone of Black,
who has a line of more than five.  The opening must not have a winning line of its own, or
no test of the last stone could agree with one of the whole board. -/
theorem applyRules_localRule_iff (h : Loads m g) (hnodup : (g.pos 0).historyCells.Nodup)
    (hquiet : Quiet m.options.gameRule (g.pos 0).grid) (hanswers : AnswersInSquare m g) :
    (∀ s, AtRound m g s → s.game.ply ≠ 0 →
      ((s.enterPly.game.gameApplyRules s.played).1 = .fiveConnect ↔
        LastStoneWins m.options.gameRule s.enterPly.position)) ∧
    ((∀ s, AtRound m g s →
      ((s.enterPly.game.gameApplyRules s.played).1 = .fiveConnect ↔
        LastStoneWins m.options.gameRule s.enterPly.position)) ↔
      (m.firstFailure = none →
        ¬ (m.options.gameRule = .renju ∧ (g.pos 0).playerToMove = .white ∧
          HasWinningLine (g.pos 0).grid .black true))) := by
  obtain ⟨cells, hfollows, -⟩ := h.follows
  have hlater : ∀ s, AtRound m g s → s.game.ply ≠ 0 →
      ((s.enterPly.game.gameApplyRules s.played).1 = .fiveConnect ↔
        LastStoneWins m.options.gameRule s.enterPly.position) := by
    intro s hs hply
    obtain ⟨moves, hbefore⟩ := hs.quietBefore h hnodup hquiet hanswers
    rcases List.eq_nil_or_concat' moves with rfl | ⟨init, last, rfl⟩
    · exact absurd hbefore.playing.ply hply
    · exact (hbefore.localRule hfollows).1
  refine ⟨hlater, ?_, ?_⟩
  · intro hall hstarts
    have hplaying := playing_firstRound h hstarts
    exact (hplaying.localRule_first_iff hfollows hquiet).mp
      (hall _ (atRound_firstRound g hstarts))
  · intro hcond s hs
    by_cases hply : s.game.ply = 0
    · obtain ⟨moves, hplaying⟩ := hs.playing h
      have hmoves : moves = [] := List.eq_nil_of_length_eq_zero (hplaying.ply ▸ hply)
      subst hmoves
      exact (hplaying.localRule_first_iff hfollows hquiet).mpr (hcond hs.firstFailure_eq)
    · exact hlater s hs hply

/-- A Renju match in the pos notation. -/
def renjuOptions : Options := { gameRule := .renju, openingType := .pos }

/-- Four stones of Black from `a1` to `d1`, who is to move. -/
def renjuFour : Game := Game.ofOpening "a1a3b1c3c1e3d1g3".toList renjuOptions

/-- Black completes the five. -/
def completesFive : Match := casual renjuOptions fun _ => "4,0".toList

set_option maxRecDepth 20000 in
/-- The second round finds the five of the first move, and there is no round in which the
scan and the rule disagree. -/
theorem applyRules_localRule_five :
    (completesFive.headAfter renjuFour 1).game.ply = 1 ∧
      LastStoneWins .renju (completesFive.headAfter renjuFour 1).enterPly.position ∧
      ∀ s, AtRound completesFive renjuFour s →
        ((s.enterPly.game.gameApplyRules s.played).1 = .fiveConnect ↔
          LastStoneWins .renju s.enterPly.position) := by
  have hloads : Loads completesFive renjuFour := loads_ofOpening (by decide) (by decide)
  obtain ⟨cells, hfollows, -⟩ := hloads.follows
  have hquiet : Quiet .renju (renjuFour.pos 0).grid :=
    hfollows.shape.quiet (by decide +kernel) (by decide +kernel)
  have hanswers : AnswersInSquare completesFive renjuFour := by
    intro s s' _ _
    change InSquare 15 (answeredCell "4,0".toList)
    decide
  obtain ⟨hlater, hall⟩ := applyRules_localRule_iff hloads (by decide) hquiet hanswers
  have hply : (completesFive.headAfter renjuFour 1).game.ply = 1 := by decide +kernel
  refine ⟨hply, (hlater _ (atRound_headAfter _ rfl 1) ?_).mp (by decide +kernel), hall.mpr ?_⟩
  · rw [hply]
    decide
  · rintro - ⟨-, hturn, -⟩
    exact absurd hturn (by decide)

/-- An opening in which Black fills `a1` to `f1`. -/
def sixOpening : List Char :=
  ['a', '1', 'a', '3', 'b', '1', 'c', '3', 'c', '1', 'e', '3', 'd', '1', 'g', '3', 'e', '1',
    'i', '3', 'f', '1']

set_option maxRecDepth 20000 in
/-- In a Renju game from this opening nobody has a winning line, and the first
call of `game_apply_rules` declares a win for Black's overline. -/
theorem applyRules_credits_overline :
    Loads (casual renjuOptions fun _ => ['7', ',', '7'])
        (Game.ofOpening sixOpening renjuOptions) ∧
      ((Game.ofOpening sixOpening renjuOptions).pos 0).historyCells.Nodup ∧
      Quiet .renju ((Game.ofOpening sixOpening renjuOptions).pos 0).grid ∧
      AnswersInSquare (casual renjuOptions fun _ => ['7', ',', '7'])
        (Game.ofOpening sixOpening renjuOptions) ∧
      ∃ s, AtRound (casual renjuOptions fun _ => ['7', ',', '7'])
          (Game.ofOpening sixOpening renjuOptions) s ∧ s.game.ply = 0 ∧
        (s.enterPly.game.gameApplyRules s.played).1 = .fiveConnect ∧
        ¬ LastStoneWins .renju s.enterPly.position := by
  have hloads : Loads (casual renjuOptions fun _ => ['7', ',', '7'])
      (Game.ofOpening sixOpening renjuOptions) := loads_ofOpening (by decide) (by decide)
  obtain ⟨cells, hfollows, -⟩ := hloads.follows
  have hquiet : Quiet .renju ((Game.ofOpening sixOpening renjuOptions).pos 0).grid :=
    hfollows.shape.quiet (by decide +kernel) (by decide +kernel)
  refine ⟨hloads, by decide, hquiet, ?_, _, ⟨_, rfl, Reaches.refl _⟩, rfl, ?_, ?_⟩
  · intro s s' _ _
    change InSquare 15 (answeredCell ['7', ',', '7'])
    decide
  · decide +kernel
  · exact Quiet.not_lastStoneWins hquiet hfollows

end Match

end GomokuCli
