import GomokuCli.Precedence

/-!
# The lines of a Renju game

Under Renju the length of a line counts differently for the two colours: Black wins
with exactly five and may not make more, White wins with five or more.  Three parts of
the referee have to agree on this: the overline test of the finder, the win test, and
the order in which a round applies them.

In the first round they do not, because the win test takes the colour from a sentinel.
From an opening without lines they do in every round: as long as nobody has won, nobody
has a line of five, and so Black cannot join two of his runs to six without the new
stone being refused.
-/

namespace GomokuCli

open LineRun

/-- Black has a run of six stones or more.  Under Renju this is neither a win nor allowed. -/
def HasOverline (g : Int × Int → Color) : Prop :=
  ∃ c d a b, MaxRun (lineOf g .black c d) a b ∧ 6 ≤ b - a + 1

section Grids

variable {g : Int × Int → Color} {c : Int × Int} {rule : GameRule}

theorem HasOverline.hasWinningLine (h : HasOverline g) : HasWinningLine g .black true := by
  obtain ⟨c, d, a, b, hrun, hlength⟩ := h
  refine ⟨c, d, a, b, hrun, ?_⟩
  change 5 ≤ b - a + 1
  omega

/-- Without runs of five nobody has a line under any rule. -/
theorem Quiet.of_free (h : Quiet .gomokuFiveOrMore g) : Quiet rule g :=
  fun color hcolor hline => h color hcolor hline.long

theorem Quiet.not_hasOverline (h : Quiet .gomokuFiveOrMore g) : ¬ HasOverline g :=
  fun hover => h .black (Or.inl rfl) hover.hasWinningLine

/-- What Renju does not count as a line of Black is an overline. -/
theorem Quiet.free_of_renju (h : Quiet .renju g) (hnot : ¬ HasOverline g) :
    Quiet .gomokuFiveOrMore g := by
  rintro color (rfl | rfl) hline
  · obtain ⟨c, d, a, b, hrun, hwins⟩ := hline
    have hfive := hwins.five_le
    rcases eq_or_lt_of_le hfive with heq | hlt
    · exact h .black (Or.inl rfl) ⟨c, d, a, b, hrun, heq.symm⟩
    · exact hnot ⟨c, d, a, b, hrun, hlt⟩
  · exact h .white (Or.inr rfl) hline

/-- Where there were no runs of five, a stone of Black makes six only by making an overline
itself, whichever runs it joins.  So the finder, which looks at the stone alone, sees every
overline that comes up. -/
theorem Quiet.not_hasOverline_black (h : Quiet .gomokuFiveOrMore g)
    (hnot : ¬ MakesOverline g c) : ¬ HasOverline (Function.update g c .black) := by
  rintro ⟨start, d, a, b, hrun, hlength⟩
  have hwins : Wins true (b - a + 1) := by
    change 5 ≤ b - a + 1
    omega
  obtain ⟨s, has, hsb, rfl⟩ :=
    WinningRun.contains_of_update (h .black (Or.inl rfl)) ⟨hrun, hwins⟩
  refine hnot ⟨d, a - s, b - s, ?_, by omega, by omega, ?_⟩
  · refine (maxRun_lineOf_shift s).mpr ?_
    rwa [sub_add_cancel, sub_add_cancel]
  · change 6 ≤ b - s - (a - s) + 1
    omega

/-- A stone of White leaves the runs of Black as they are, or makes them shorter. -/
theorem Quiet.not_hasOverline_white (h : Quiet .gomokuFiveOrMore g) (hempty : g c = .empty) :
    ¬ HasOverline (Function.update g c .white) := by
  intro hover
  have hline := hover.hasWinningLine
  rw [hasWinningLine_update_other hempty (Or.inl rfl) (by decide)] at hline
  exact h .black (Or.inl rfl) hline

theorem not_makesOverline_of_forbiddenPoint {size : Nat}
    (h : Position.forbiddenPoint size g c = .none) : ¬ MakesOverline g c := by
  intro hover
  unfold Position.forbiddenPoint at h
  rw [if_pos hover] at h
  split at h
  · cases h
  · split at h <;> cases h

end Grids

namespace Match

open PlayState Position

variable {m : Match} {g : Game} {s s' t : PlayState} {P : Position} {size : Nat}
  {cells : List (Int × Int)} {moves : List Nat} {played : Nat}

/-! ## The first round -/

/-- What the referee would find had the last stone of the position been a move of the
game. -/
theorem gameApplyRules_lastMove_iff {c : Int × Int} (h : Playing m P [] s)
    (hrule : m.options.gameRule = .renju) (hstart : P.Follows size (cells ++ [c]))
    (hcoloured : P.Coloured) (hblack : turnAt cells.length = .black) :
    (s.enterPly.game.gameApplyRules (P.historyMoves (P.moveCount - 1))).1 = .fiveConnect ↔
      HasWinningLine P.grid .black false := by
  have hcount : P.moveCount = cells.length + 1 := by
    rw [hstart.moveCount, List.length_append, List.length_singleton]
  have hcolor : colorFromMove (P.historyMoves (P.moveCount - 1)) = Color.black.code := by
    rw [hcount, Nat.add_sub_cancel, hcoloured cells.length (by omega), hblack]
  rw [h.gameApplyRules_iff hstart, hrule, allowLongConnection_eq hcolor, hblack]
  rfl

/-- **The first call of `game_apply_rules`** treats the last stone of the opening like a
move of Black iff Black has no line at all or one of exactly five.  If all his lines are
longer, the sentinel makes him the winner: it has no colour, and so it is not one of Black,
to whom longer lines do not count. -/
theorem applyRules_first_iff (h : Loads m g) (hnodup : (g.pos 0).historyCells.Nodup)
    (hrule : m.options.gameRule = .renju) (hturn : (g.pos 0).playerToMove = .white)
    (hs : AtRound m g s) (hply : s.game.ply = 0) :
    (((s.enterPly.game.gameApplyRules s.played).1 = .fiveConnect ↔
        HasWinningLine (g.pos 0).grid .black false) ∧
      ((s.enterPly.game.gameApplyRules s.played).1 = .fiveConnect ↔
        (s.enterPly.game.gameApplyRules
          ((g.pos 0).historyMoves ((g.pos 0).moveCount - 1))).1 = .fiveConnect)) ↔
      (HasWinningLine (g.pos 0).grid .black true →
        HasWinningLine (g.pos 0).grid .black false) := by
  obtain ⟨moves, hplaying⟩ := hs.playing h
  obtain rfl : moves = [] := List.eq_nil_of_length_eq_zero (hplaying.ply ▸ hply)
  obtain ⟨r, hrep⟩ := h.represents hnodup
  obtain ⟨cells, hfollows, -⟩ := h.follows
  rcases List.eq_nil_or_concat' cells with rfl | ⟨init, c, rfl⟩
  · -- on the empty board Black is to move
    rw [hfollows.turn, hfollows.moveCount] at hturn
    cases hturn
  · have hblack := hfollows.lastTurn_eq_black hturn
    have hfirst := hplaying.fiveConnect_first_iff hfollows
    -- the sentinel is not Black's move, so long lines are allowed
    have hallow : Game.allowLongConnection .renju noneMove = true := by decide
    rw [hblack, hrule, hallow] at hfirst
    rw [gameApplyRules_lastMove_iff hplaying hrule hfollows hrep.coloured hblack, hfirst,
      and_self]
    exact ⟨fun hiff hlong => hiff.mp hlong, fun himp => ⟨himp, HasWinningLine.long⟩⟩

/-- An opening in which Black fills `a1` to `e1`, and White is to move. -/
def renjuFive : Game := Game.ofOpening "a1a3b1c3c1e3d1g3e1".toList renjuOptions

set_option maxRecDepth 20000 in
/-- A line of exactly five wins in the first round, as it would for a move of Black. -/
theorem applyRules_first_fiveStones :
    (((renjuAnswer '7' '8').firstRound renjuFive).enterPly.game.gameApplyRules
        ((renjuAnswer '7' '8').firstRound renjuFive).played).1 = .fiveConnect ∧
      (((renjuAnswer '7' '8').firstRound renjuFive).enterPly.game.gameApplyRules
        ((renjuFive.pos 0).historyMoves ((renjuFive.pos 0).moveCount - 1))).1 =
          .fiveConnect := by
  have hloads : Loads (renjuAnswer '7' '8') renjuFive := loads_ofOpening (by decide) (by decide)
  obtain ⟨cells, hfollows, -⟩ := hloads.follows
  have hfive : HasWinningLine (renjuFive.pos 0).grid .black false := by
    rw [← checkFiveInLineSide_iff hfollows.shape (by decide)]
    decide +kernel
  have hat := atRound_firstRound (m := renjuAnswer '7' '8') renjuFive rfl
  obtain ⟨hfirst, hsame⟩ := (applyRules_first_iff hloads (by decide) rfl (by decide) hat rfl).mpr
    fun _ => hfive
  exact ⟨hfirst.mpr hfive, hsame.mp (hfirst.mpr hfive)⟩

set_option maxRecDepth 20000 in
/-- Black has six in a row at the end of the opening, and is declared the winner. -/
theorem applyRules_first_six :
    Loads (renjuAnswer '7' '7') (Game.ofOpening sixOpening renjuOptions) ∧
      ((Game.ofOpening sixOpening renjuOptions).pos 0).historyCells.Nodup ∧
      ((Game.ofOpening sixOpening renjuOptions).pos 0).playerToMove = .white ∧
      ∃ s, AtRound (renjuAnswer '7' '7') (Game.ofOpening sixOpening renjuOptions) s ∧
        s.game.ply = 0 ∧ (s.enterPly.game.gameApplyRules s.played).1 = .fiveConnect ∧
        ¬ HasWinningLine ((Game.ofOpening sixOpening renjuOptions).pos 0).grid .black false := by
  have hloads : Loads (renjuAnswer '7' '7') (Game.ofOpening sixOpening renjuOptions) :=
    loads_ofOpening (by decide) (by decide)
  obtain ⟨cells, hfollows, -⟩ := hloads.follows
  refine ⟨hloads, by decide, by decide, _, atRound_firstRound _ rfl, rfl, by decide +kernel, ?_⟩
  rw [← checkFiveInLineSide_iff hfollows.shape (by decide)]
  decide +kernel

/-! ## Every round -/

/-- What is kept from round to round: before the last move nobody had a run of five, and
Black has no overline now.  Runs of five of both colours have to be excluded, also those
that would not win, because two of them could be joined. -/
structure RenjuBefore (m : Match) (P : Position) (moves : List Nat) (s : PlayState) :
    Prop where
  quietBefore : QuietBefore m P moves s
  lineless : ∀ k < moves.length, Quiet .gomokuFiveOrMore (P.playMoves (moves.take k)).grid
  not_hasOverline : ¬ HasOverline (P.playMoves moves).grid

/-- While nobody has won, nobody has a run of five. -/
theorem RenjuBefore.lineless_here (h : RenjuBefore m P moves s)
    (hrule : m.options.gameRule = .renju) (hstart : P.Follows size cells)
    (hquiet : Quiet .gomokuFiveOrMore P.grid)
    (hno : (s.enterPly.game.gameApplyRules s.played).1 ≠ .fiveConnect) :
    Quiet .gomokuFiveOrMore (P.playMoves moves).grid := by
  have hrenju := h.quietBefore.quiet_of_not_fiveConnect hstart hquiet.of_free hno
  rw [hrule] at hrenju
  exact hrenju.free_of_renju h.not_hasOverline

/-- An accepted stone makes no overline of Black: his own would have been refused as
forbidden, and White's does not lengthen a run of Black. -/
theorem Accepts.not_hasOverline (h : m.Accepts s played) (hplaying : Playing m P moves s)
    (hrule : m.options.gameRule = .renju) (hstart : P.Follows size cells)
    (hlegal : P.LegalMoves (moves ++ [played]))
    (hcolor : colorFromMove played = (P.playMoves moves).playerToMove.code)
    (hlineless : Quiet .gomokuFiveOrMore (P.playMoves moves).grid) :
    ¬ HasOverline (P.playMoves (moves ++ [played])).grid := by
  have hfollows := hstart.playMoves hplaying.legal
  rw [hstart.grid_playMoves_append hlegal]
  rcases hfollows.turn_isStone with hblack | hwhite
  · have hpoint := h.forbiddenPoint_eq hplaying hrule hstart hcolor hblack
    rw [hblack]
    exact hlineless.not_hasOverline_black (not_makesOverline_of_forbiddenPoint hpoint)
  · rw [hwhite]
    obtain ⟨-, hempty⟩ := ((hplaying.shape hstart).isLegalMove_iff played).mp h.legal
    rw [hplaying.asked_position.grid] at hempty
    exact hlineless.not_hasOverline_white hempty

theorem RenjuBefore.step (hbefore : RenjuBefore m (g.pos 0) moves s) (h : Loads m g)
    (hrule : m.options.gameRule = .renju) (hquiet : Quiet .gomokuFiveOrMore (g.pos 0).grid)
    (hanswers : AnswersInSquare m g) (hat : AtRound m g s) (hround : m.round s = .ok s')
    (haccepts : m.Accepts s s'.played) :
    RenjuBefore m (g.pos 0) (moves ++ [s'.played]) s' := by
  obtain ⟨cells, hfollows, -⟩ := h.follows
  have hnext := hbefore.quietBefore.step h hquiet.of_free hanswers hat hround haccepts
  have hlineless := hbefore.lineless_here hrule hfollows hquiet haccepts.not_fiveConnect
  refine ⟨hnext, fun k hk => ?_, ?_⟩
  · rw [List.length_append, List.length_singleton] at hk
    rcases Nat.lt_succ_iff_lt_or_eq.mp hk with hlt | rfl
    · rw [List.take_append_of_le_length hlt.le]
      exact hbefore.lineless k hlt
    · rw [List.take_left]
      exact hlineless
  · exact haccepts.not_hasOverline hbefore.quietBefore.playing hrule hfollows
      hnext.playing.legal hnext.color hlineless

theorem AtRound.renjuBefore (h : Loads m g) (hnodup : (g.pos 0).historyCells.Nodup)
    (hrule : m.options.gameRule = .renju) (hquiet : Quiet .gomokuFiveOrMore (g.pos 0).grid)
    (hanswers : AnswersInSquare m g) (hs : AtRound m g s) :
    ∃ moves, RenjuBefore m (g.pos 0) moves s := by
  refine hs.invariant (fun s => ∃ moves, RenjuBefore m (g.pos 0) moves s) h ?_ ?_
  · intro s₀ hstarted
    refine ⟨[], QuietBefore.first h hnodup hstarted, fun k hk => ?_, hquiet.not_hasOverline⟩
    exact absurd hk (Nat.not_lt_zero k)
  · rintro t t' hat ⟨moves, hbefore⟩ hround hcontinues
    exact ⟨moves ++ [t'.played],
      hbefore.step h hrule hquiet hanswers hat hround hcontinues.accepts⟩

/-! ## Every game -/

/-- No position in `pos[]` has an overline of Black. -/
def KeepsNoOverline (g : Game) : Prop := ∀ k < g.posSize, ¬ HasOverline (g.pos k).grid

/-- What Renju asks of a game, in every round and at the end: the three parts of the referee
agree on what the length of a line means. -/
structure RenjuRules (m : Match) (g : Game) : Prop where
  /-- before and after the last move is entered -/
  kept : ∀ s, AtRound m g s → KeepsNoOverline s.game ∧ KeepsNoOverline s.enterPly.game
  kept_final : ∀ result final, m.play g = some (.returned result final) →
    KeepsNoOverline final.game
  /-- an accepted move of Black has no forbidden type -/
  allowed : ∀ s played, AtRound m g s → m.Accepts s played →
    (asked s).position.playerToMove = .black →
    (asked s).position.checkForbiddenMove played = some (.none, (asked s).position)
  /-- Black wins with exactly five through the last stone -/
  black_wins : ∀ s, AtRound m g s → (asked s).game.state = .fiveConnect →
    (asked s).position.playerToMove = .white →
    ∃ c, (asked s).position.historyCells.getLast? = some c ∧
      OnWinningLine (asked s).position.grid .black false c
  /-- White wins with five or more -/
  white_wins : ∀ s, AtRound m g s → HasWinningLine (asked s).position.grid .white true →
    (asked s).game.state = .fiveConnect ∧ (asked s).position.playerToMove = .black

theorem RenjuBefore.kept (h : RenjuBefore m P moves s) : KeepsNoOverline s.enterPly.game := by
  intro k hk
  have hplaying := h.quietBefore.playing
  rw [enterPly_posSize, hplaying.posSize] at hk
  rw [(hplaying.pos k (Nat.lt_succ_iff.mp hk)).grid]
  rcases Nat.lt_succ_iff_lt_or_eq.mp hk with hlt | rfl
  · exact (h.lineless k hlt).not_hasOverline
  · rw [List.take_length]
    exact h.not_hasOverline

theorem KeepsNoOverline.of_sameTurn (h : KeepsNoOverline s.game) (hsame : SameTurn s t) :
    KeepsNoOverline t.game := by
  intro k hk
  rw [hsame.posSize] at hk
  by_cases hply : k = s.game.ply
  · have hposition := hsame.position.grid
    rw [PlayState.position, Game.position, PlayState.position, Game.position,
      hsame.ply] at hposition
    rw [hply, hposition]
    exact h _ (hply ▸ hk)
  · rw [hsame.pos_of_ne k hply]
    exact h k hk

/-- The position that a round appends for the next move is empty. -/
theorem KeepsNoOverline.recordPhase (h : KeepsNoOverline t.game) :
    KeepsNoOverline (m.recordPhase t).game := by
  intro k hk
  change ¬ HasOverline (Function.update t.game.pos t.game.posSize (Position.new 15) k).grid
  have hk' : k < t.game.posSize + 1 := hk
  rcases Nat.lt_succ_iff_lt_or_eq.mp hk' with hlt | rfl
  · rw [Function.update_of_ne hlt.ne]
    exact h k hlt
  · rw [Function.update_self]
    intro hover
    have hempty : (Position.new 15).Follows 15 [] := initBoard_follows _ (by decide)
    have hline := hover.hasWinningLine
    rw [hempty.grid_eq] at hline
    exact not_hasWinningLine_nil (Or.inl rfl) true hline

/-- Black is declared the winner only for a line of exactly five through the last stone.  He
has no longer ones, and had none before his move. -/
theorem RenjuBefore.black_wins (h : RenjuBefore m P moves s)
    (hrule : m.options.gameRule = .renju) (hstart : P.Follows size cells)
    (hquiet : Quiet .gomokuFiveOrMore P.grid) (hstate : (asked s).game.state = .fiveConnect)
    (hturn : (asked s).position.playerToMove = .white) :
    ∃ c, (asked s).position.historyCells.getLast? = some c ∧
      OnWinningLine (asked s).position.grid .black false c := by
  rw [asked_state] at hstate
  rcases List.eq_nil_or_concat' moves with rfl | ⟨init, last, rfl⟩
  · -- in the first round nobody has a run of five
    exfalso
    rcases List.eq_nil_or_concat' cells with rfl | ⟨init, c, rfl⟩
    · exact h.quietBefore.playing.not_fiveConnect_empty hstart hstate
    · rw [h.quietBefore.playing.fiveConnect_first_iff hstart] at hstate
      exact hquiet _ (turnAt_isStone _) hstate.long
  · have hwins := (h.quietBefore.localRule hstart).1.mp hstate
    have hnow := h.quietBefore.playing.follows hstart
    rw [moveCells_append_singleton, ← List.append_assoc] at hnow
    -- White is to move, so the last stone is Black's
    have hblack := hnow.lastTurn_eq_black hturn
    have hsame := (asked_sameTurn s).position
    rw [LastStoneWins, ← hsame.historyCells, ← hsame.grid] at hwins
    change LastStoneWins m.options.gameRule (asked s).position at hwins
    rw [lastStoneWins_iff hnow, hblack, hrule] at hwins
    exact ⟨_, by rw [hnow.moves, List.getLast?_concat], hwins⟩

/-- A run of White of five or more wins. -/
theorem RenjuBefore.white_wins (h : RenjuBefore m P moves s)
    (hrule : m.options.gameRule = .renju) (hstart : P.Follows size cells)
    (hquiet : Quiet .gomokuFiveOrMore P.grid)
    (hline : HasWinningLine (asked s).position.grid .white true) :
    (asked s).game.state = .fiveConnect ∧ (asked s).position.playerToMove = .black := by
  have hplaying := h.quietBefore.playing
  have hsame := hplaying.asked_position
  rw [hsame.grid] at hline
  rcases List.eq_nil_or_concat' moves with rfl | ⟨init, last, rfl⟩
  · exact absurd hline (hquiet .white (Or.inr rfl))
  · obtain ⟨hlegalInit, hlegal, -⟩ := hplaying.legal.of_append_singleton
    have hinit := hstart.playMoves hlegalInit
    rw [hinit.shape.isLegalMove_iff] at hlegal
    have hgrid := hstart.grid_playMoves_append hplaying.legal
    have hfive := hplaying.fiveConnect_iff hstart h.quietBefore.color
    have hbefore := h.quietBefore.quiet init last rfl .white (Or.inr rfl)
    rw [hgrid] at hline
    rw [hrule] at hfive hbefore
    rw [hsame.playerToMove, playMoves_append_singleton, move_playerToMove, asked_state]
    rcases hinit.turn_isStone with hblack | hwhite
    · -- a stone of Black gives White no line
      rw [hblack, hasWinningLine_update_other hlegal.2 (Or.inr rfl) (by decide)] at hline
      exact absurd hline hbefore
    · rw [hwhite] at hfive hline ⊢
      exact ⟨hfive.mpr hline, rfl⟩

/-- The opening is the only position at the start. -/
theorem keepsNoOverline_of_pos {g' : Game} (h : Loads m g)
    (hquiet : Quiet .gomokuFiveOrMore (g.pos 0).grid) (hpos : g'.pos = g.pos)
    (hsize : g'.posSize = g.posSize) : KeepsNoOverline g' := by
  intro k hk
  rw [hsize, h.fields.1] at hk
  obtain rfl : k = 0 := Nat.lt_one_iff.mp hk
  rw [hpos]
  exact hquiet.not_hasOverline

/-- **A Renju game from an opening without lines.** Whatever the engines answer, as long as
they name cells of the board, the overline test, the win test and the order of a round
together do what the rules of Renju say.  The condition on the opening is needed: in the
first round the win test does not know whose stone was the last. -/
theorem renjuRules (h : Loads m g) (hnodup : (g.pos 0).historyCells.Nodup)
    (hrule : m.options.gameRule = .renju) (hquiet : Quiet .gomokuFiveOrMore (g.pos 0).grid)
    (hanswers : AnswersInSquare m g) : RenjuRules m g := by
  obtain ⟨cells, hfollows, -⟩ := h.follows
  have hentered : ∀ s, AtRound m g s → KeepsNoOverline s.enterPly.game := by
    intro s hs
    obtain ⟨moves, hbefore⟩ := hs.renjuBefore h hnodup hrule hquiet hanswers
    exact hbefore.kept
  have hhead : ∀ s, AtRound m g s → KeepsNoOverline s.game := by
    intro s hs
    refine hs.invariant (fun s => KeepsNoOverline s.game) h ?_ ?_
    · intro s₀ hstarted
      rw [hstarted.game]
      exact keepsNoOverline_of_pos h hquiet rfl rfl
    · intro t t' hat _ _ hcontinues
      obtain ⟨u, hsame, -, -, -, rfl⟩ := hcontinues.recorded
      have hturn := (asked_sameTurn t).trans hsame
      exact ((hentered t hat).of_sameTurn hturn).recordPhase
  refine ⟨fun s hs => ⟨hhead s hs, hentered s hs⟩, ?_, ?_, ?_, ?_⟩
  · intro result final hplay
    obtain ⟨i, -, -, -, hgame⟩ | ⟨s, t, -, hat, hbreaks, -, rfl⟩ := returned_cases h hplay
    · -- the game ended at `START`, with the opening
      rw [hgame]
      exact keepsNoOverline_of_pos h hquiet rfl rfl
    · have hsame := (asked_sameTurn s).trans hbreaks.sameTurn
      have hkeeps : KeepsNoOverline t.game := (hentered s hat).of_sameTurn hsame
      exact hkeeps
  · intro s played hs haccepts _
    obtain ⟨moves, hplaying⟩ := hs.playing h
    exact haccepts.checkForbiddenMove_eq (hplaying.gameRule.trans hrule)
      (hplaying.shape hfollows)
  · intro s hs hstate hturn
    obtain ⟨moves, hbefore⟩ := hs.renjuBefore h hnodup hrule hquiet hanswers
    exact hbefore.black_wins hrule hfollows hquiet hstate hturn
  · intro s hs hline
    obtain ⟨moves, hbefore⟩ := hs.renjuBefore h hnodup hrule hquiet hanswers
    exact hbefore.white_wins hrule hfollows hquiet hline

set_option maxRecDepth 20000 in
/-- Black starts with four in a row, and both engines answer with the centre. -/
theorem renjuRules_four :
    RenjuRules (renjuAnswer '7' '7') (Game.ofOpening fourOpening renjuOptions) := by
  have hloads : Loads (renjuAnswer '7' '7') (Game.ofOpening fourOpening renjuOptions) :=
    loads_ofOpening (by decide) (by decide)
  obtain ⟨cells, hfollows, -⟩ := hloads.follows
  have hquiet : Quiet .gomokuFiveOrMore ((Game.ofOpening fourOpening renjuOptions).pos 0).grid :=
    hfollows.shape.quiet (by decide +kernel) (by decide +kernel)
  refine renjuRules hloads (by decide) rfl hquiet fun s s' _ _ => ?_
  change InSquare 15 (answeredCell ['7', ',', '7'])
  decide

end Match

end GomokuCli
