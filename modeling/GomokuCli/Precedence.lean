import GomokuCli.LastMove
import GomokuCli.Outcome

/-!
# Five in a row against the forbidden patterns

Under Renju a five wins even where it would otherwise be a forbidden pattern.
`isDoubleThree` and `isDoubleFour` yield to a five; `isOverline` does not, so a
stone that makes exactly five in one direction and more in another one loses the
game.  Apart from that a five is let through, and the win test of the next round
finds it.
-/

namespace GomokuCli

open EarlyExit

namespace Match

open PlayState Position

/-- The referee asks for a move and is answered in time with the cell `c`.  Nothing is said
about whether the move is legal or allowed. -/
structure Answered (m : Match) (s : PlayState) (c : Int × Int) : Prop where
  state : (asked s).game.state = .none
  notForced : ¬ m.ForcedDraw (asked s).position
  replied : (m.moveReply s.game.ply).ok = true
  inTime : ¬ m.SoftTimeout (m.answering s)
  reads : ReadsAs (m.moveReply s.game.ply).bestmove c.1 c.2

variable {m : Match} {g : Game} {s s' t : PlayState} {c : Int × Int} {played : Nat}

/-- **What happens to a legal answer**: it is forbidden, it is adjudicated, or the game goes
on with it.  These are all cases, in the order in which the round tests them. -/
theorem Answered.round_cases (h : Answered m s c) (hshape : (asked s).position.BoardShape)
    (hplayed : played = buildMove c.1 c.2 (asked s).position.playerToMove)
    (hlegal : (asked s).position.isLegalMove played = true) :
    (Forbidden s.game.gameRule (asked s).position played ∧
      ∃ t, m.round s = .error (.broke t) ∧ t.game.state = .forbiddenMove) ∨
    (¬ Forbidden s.game.gameRule (asked s).position played ∧ (m.DrawsNow s ∨ m.ResignsNow s) ∧
      ∃ t, m.round s = .error (.broke t) ∧ t.game.state ≠ .forbiddenMove) ∨
    (¬ Forbidden s.game.gameRule (asked s).position played ∧ ¬ m.DrawsNow s ∧
      ¬ m.ResignsNow s ∧ ∃ s', m.round s = .ok s' ∧ s'.played = played) := by
  have hreads : (asked s).position.gomostrToMove (m.moveReply s.game.ply).bestmove =
      some played := by
    rw [hplayed]
    exact h.reads.gomostrToMove _
  obtain ⟨s', hs', hcontinues⟩ | ⟨t, ht, hbreaks⟩ | ⟨-, hreply, -⟩ | ⟨-, hnone⟩ :=
    Match.round_cases m hshape
  · have hread' := hcontinues.accepts.reads
    rw [hreads, Option.some.injEq] at hread'
    have hallowed := hcontinues.accepts.allowed
    rw [← hread'] at hallowed
    exact Or.inr (Or.inr ⟨hallowed, hcontinues.notDrawn, hcontinues.notResigned, s', hs',
      hread'.symm⟩)
  · -- of the exits only the verdict and the adjudications are left
    cases hbreaks with
    | rules hstate => exact absurd h.state hstate
    | forced _ hforced _ _ => exact absurd hforced h.notForced
    | noAnswer _ hreply _ _ =>
        rw [h.replied] at hreply
        cases hreply
    | late _ htime _ _ => exact absurd htime h.inTime
    | illegal _ hread' hillegal _ _ =>
        rw [hreads, Option.some.injEq] at hread'
        rw [← hread', hlegal] at hillegal
        cases hillegal
    | forbidden _ hread' _ hforbidden _ hstate =>
        rw [hreads, Option.some.injEq] at hread'
        rw [← hread'] at hforbidden
        exact Or.inl ⟨hforbidden, t, ht, hstate⟩
    | drawn haccepts hdraw _ hstate =>
        have hread' := haccepts.reads
        rw [hreads, Option.some.injEq] at hread'
        refine Or.inr (Or.inl ⟨hread' ▸ haccepts.allowed, Or.inl hdraw, t, ht, ?_⟩)
        simp [hstate]
    | resigned haccepts hresign _ hstate =>
        have hread' := haccepts.reads
        rw [hreads, Option.some.injEq] at hread'
        refine Or.inr (Or.inl ⟨hread' ▸ haccepts.allowed, Or.inr hresign, t, ht, ?_⟩)
        simp [hstate]
  · rw [h.replied] at hreply
    cases hreply
  · rw [hreads] at hnone
    cases hnone

/-- A stone of Black that makes five is a winning line. -/
theorem hasWinningLine_of_makesFive {grid : Int × Int → Color} (h : MakesFive grid c) :
    HasWinningLine (Function.update grid c .black) .black (allowsLong .renju .black) := by
  obtain ⟨d, a, b, hrun, -, -, hlen⟩ := h
  refine ⟨c, d, a, b, hrun, ?_⟩
  change Wins false (b - a + 1)
  simpa [Wins] using hlen

/-- The kind of point decides whether a legal move of Black is forbidden.  Where the move
makes five this comes down to whether it makes an overline as well. -/
theorem forbidden_iff {P : Position} (hshape : P.BoardShape) (hc : P.grid c = .empty)
    (hfive : MakesFive P.grid c) :
    P.isLegalMove (buildMove c.1 c.2 .black) = true ∧
      P.checkForbiddenMove (buildMove c.1 c.2 .black) =
        some (forbiddenPoint P.boardSize P.grid c, P) ∧
      (Forbidden .renju P (buildMove c.1 c.2 .black) ↔ MakesOverline P.grid c) := by
  have hin : InSquare P.boardSize c := hshape.inSquare_of_empty hc
  have hcell := wrappedCell_of_inSquare hshape.size_le hin
  have hlegal : P.isLegalMove (buildMove c.1 c.2 .black) = true := by
    rw [hshape.isLegalMove_buildMove_iff, hcell]
    exact ⟨hin, hc⟩
  have hverdict : P.checkForbiddenMove (buildMove c.1 c.2 .black) =
      some (forbiddenPoint P.boardSize P.grid c, P) := by
    rw [hshape.checkForbiddenMove_eq hlegal, cellOf_posFromMove_buildMove, hcell,
      if_pos (colorFromMove_buildMove hshape.size_le hin .black)]
  refine ⟨hlegal, hverdict, ?_⟩
  constructor
  · rintro ⟨-, v, hv, hne⟩
    rw [hverdict, Option.some.injEq, Prod.mk.injEq] at hv
    rw [← hv.1, ne_eq, forbiddenPoint_eq_none_iff hfive, not_not] at hne
    exact hne
  · intro hover
    refine ⟨rfl, _, hverdict, ?_⟩
    rw [ne_eq, forbiddenPoint_eq_none_iff hfive, not_not]
    exact hover

/-- The round after a five of Black declares the win.  The win test comes at the head of a
round, after the move has been accepted in the one before. -/
theorem fiveConnect_of_makesFive (h : Loads m g) (hat : AtRound m g s)
    (hrule : m.options.gameRule = .renju)
    (hturn : (asked s).position.playerToMove = .black)
    (hc : (asked s).position.grid c = .empty) (hfive : MakesFive (asked s).position.grid c)
    (hround : m.round s = .ok s') (hplayed : s'.played = buildMove c.1 c.2 .black) :
    ∃ t, m.round s' = .error (.broke t) ∧ t.game.state = .fiveConnect ∧
      t.game.ReportsWin .black := by
  obtain ⟨cells, hfollows, -⟩ := h.follows
  obtain ⟨moves, hplaying⟩ := hat.playing h
  have hshape := hplaying.shape hfollows
  have hin : InSquare (asked s).position.boardSize c := hshape.inSquare_of_empty hc
  have hsame := hplaying.asked_position
  have hnext := hplaying.step hfollows hround
  rw [hplayed] at hnext
  rw [hsame.playerToMove] at hturn
  have hcolor : colorFromMove (buildMove c.1 c.2 .black) =
      ((g.pos 0).playMoves moves).playerToMove.code := by
    rw [hturn]
    exact colorFromMove_buildMove hshape.size_le hin .black
  -- the scan at the head of the next round finds the line
  have hstate : (asked s').game.state = .fiveConnect := by
    rw [asked_state, hnext.fiveConnect_iff hfollows hcolor, hturn, hrule,
      cellOf_posFromMove_buildMove, wrappedCell_of_inSquare hshape.size_le hin, ← hsame.grid]
    exact hasWinningLine_of_makesFive hfive
  have hbreak : m.round s' = .error (.broke (asked s')) :=
    round_of_rulesPhase (rulesPhase_eq_error_iff.mpr (Or.inl ⟨by simp [hstate], rfl⟩))
  refine ⟨asked s', hbreak, hstate, ?_⟩
  have hwhite : (asked s').game.position.playerToMove = .white := by
    have hafter := hnext.asked_position.playerToMove
    rw [playMoves_append_singleton, move_playerToMove, hturn] at hafter
    exact hafter
  rw [Game.ReportsWin, Game.reports_iff, Game.verdict, hstate, hwhite]
  rfl

/-- **When a five takes precedence**: the stone that makes it does not make an overline as
well.  Then the move is not forbidden, and the game is won in the next round unless the same
answer is adjudicated a draw or a resignation.  A stone that makes both loses the game,
although the rules of the finder let a five win over the other patterns. -/
theorem fivePrecedence_iff {P : Position} (hshape : P.BoardShape) (hc : P.grid c = .empty)
    (hfive : MakesFive P.grid c) :
    (P.checkForbiddenMove (buildMove c.1 c.2 .black) = some (.none, P) ↔
      ¬ MakesOverline P.grid c) ∧
    ∀ (m : Match) (g : Game) (s : PlayState), Loads m g → AtRound m g s →
      m.options.gameRule = .renju → (asked s).position = P → P.playerToMove = .black →
      Answered m s c →
        ((¬ ∃ t, m.round s = .error (.broke t) ∧ t.game.state = .forbiddenMove) ↔
          ¬ MakesOverline P.grid c) ∧
        ((∃ s' t, m.round s = .ok s' ∧ m.round s' = .error (.broke t) ∧
            t.game.state = .fiveConnect ∧ t.game.ReportsWin .black) ↔
          ¬ MakesOverline P.grid c ∧ ¬ m.DrawsNow s ∧ ¬ m.ResignsNow s) := by
  obtain ⟨hlegal, hverdict, hforbidden⟩ := forbidden_iff hshape hc hfive
  constructor
  · rw [hverdict, Option.some.injEq, Prod.mk.injEq, forbiddenPoint_eq_none_iff hfive]
    exact and_iff_left rfl
  · rintro m g s h hat hrule rfl hturn hanswered
    obtain ⟨moves, hplaying⟩ := hat.playing h
    have hgameRule : s.game.gameRule = .renju := hplaying.gameRule.trans hrule
    have hplayed : buildMove c.1 c.2 .black =
        buildMove c.1 c.2 (asked s).position.playerToMove := by rw [hturn]
    have hcases := hanswered.round_cases hshape hplayed hlegal
    rw [hgameRule, hforbidden] at hcases
    obtain ⟨hover, t, ht, hstate⟩ | ⟨hover, hadjudged, t, ht, hstate⟩ |
      ⟨hover, hdraw, hresign, s', hs', hnext⟩ := hcases
    · constructor
      · exact iff_of_false (not_not.mpr ⟨t, ht, hstate⟩) (not_not.mpr hover)
      · refine iff_of_false ?_ fun hnot => hnot.1 hover
        rintro ⟨s', t', hs', -⟩
        rw [ht] at hs'
        cases hs'
    · constructor
      · refine iff_of_true ?_ hover
        rintro ⟨t', ht', hstate'⟩
        rw [ht, Except.error.injEq, Stop.broke.injEq] at ht'
        exact hstate (ht' ▸ hstate')
      · refine iff_of_false ?_ fun hnot => ?_
        · rintro ⟨s', t', hs', -⟩
          rw [ht] at hs'
          cases hs'
        · exact hadjudged.elim hnot.2.1 hnot.2.2
    · constructor
      · refine iff_of_true ?_ hover
        rintro ⟨t', ht', -⟩
        rw [hs'] at ht'
        cases ht'
      · obtain ⟨t, ht, hstate, hreport⟩ :=
          fiveConnect_of_makesFive h hat hrule hturn hc hfive hs' hnext
        exact iff_of_true ⟨s', t, hs', ht, hstate, hreport⟩ ⟨hover, hdraw, hresign⟩

/-- Black holds `a1` to `d1`, and is to move. -/
def fourOpening : List Char :=
  ['a', '1', 'a', '3', 'b', '1', 'c', '3', 'c', '1', 'e', '3', 'd', '1', 'g', '3']

/-- The Renju match in which every answer is `x,y`. -/
def renjuAnswer (x y : Char) : Match := casual renjuOptions fun _ => [x, ',', y]

/-- In the first round the referee asks with the grid of the opening. -/
theorem firstRound_grid (h : Loads m g) (hstarts : m.firstFailure = none) :
    (asked (m.firstRound g)).position.grid = (g.pos 0).grid ∧
      (asked (m.firstRound g)).position.playerToMove = (g.pos 0).playerToMove := by
  have hsame := (playing_firstRound h hstarts).asked_position
  exact ⟨hsame.grid, hsame.playerToMove⟩

/-- In the first round of such a match the answer is in time. -/
theorem answered_firstRound {x y : Char} {c : Int × Int} (g : Game)
    (hstate : (asked ((renjuAnswer x y).firstRound g)).game.state = .none)
    (hreads : ReadsAs [x, ',', y] c.1 c.2) :
    Answered (renjuAnswer x y) ((renjuAnswer x y).firstRound g) c where
  state := hstate
  notForced := fun h => h.1 rfl
  replied := rfl
  inTime := not_softTimeout_casual _ _ _
  reads := hreads

set_option maxRecDepth 20000 in
/-- Black completes the row with `4,0` and wins. -/
theorem fivePrecedence_row :
    ∃ s s' t, AtRound (renjuAnswer '4' '0') (Game.ofOpening fourOpening renjuOptions) s ∧
      (asked s).position.checkForbiddenMove (buildMove 4 0 .black) =
        some (.none, (asked s).position) ∧
      (renjuAnswer '4' '0').round s = .ok s' ∧
      (renjuAnswer '4' '0').round s' = .error (.broke t) ∧ t.game.state = .fiveConnect ∧
      t.game.ReportsWin .black := by
  have hloads : Loads (renjuAnswer '4' '0') (Game.ofOpening fourOpening renjuOptions) :=
    loads_ofOpening (by decide) (by decide)
  obtain ⟨cells, hfollows, -⟩ := hloads.follows
  have hat := atRound_firstRound (m := renjuAnswer '4' '0')
    (Game.ofOpening fourOpening renjuOptions) rfl
  obtain ⟨hgrid, hturn⟩ := firstRound_grid hloads rfl
  have hanswered := answered_firstRound (c := (4, 0)) (Game.ofOpening fourOpening renjuOptions)
    (by decide +kernel) ⟨['4'], ['0'], rfl, by decide, by decide, by decide, by decide⟩
  have hempty : ((Game.ofOpening fourOpening renjuOptions).pos 0).grid (4, 0) = .empty := by
    decide
  have hfive : MakesFive ((Game.ofOpening fourOpening renjuOptions).pos 0).grid (4, 0) :=
    (hfollows.shape.isFive_iff hempty).mp (by decide)
  have hover : ¬ MakesOverline ((Game.ofOpening fourOpening renjuOptions).pos 0).grid (4, 0) :=
    mt (hfollows.shape.isOverline_iff hempty).mpr (by decide)
  rw [← hgrid] at hempty hfive hover
  obtain ⟨hverdict, hplay⟩ := fivePrecedence_iff (hat.shape hloads) hempty hfive
  have hblack := hturn.trans (show _ = Color.black by decide)
  obtain ⟨s', t, hround⟩ := (hplay _ _ _ hloads hat rfl rfl hblack hanswered).2.mpr
    ⟨hover, fun hdraw => hdraw.1.1 rfl, fun hresign => hresign.1.1 rfl⟩
  exact ⟨_, s', t, hat, hverdict.mpr hover, hround⟩

/-- Black is to move, with four in the row of `h8` and five in its column, three
on one side and two on the other. -/
def crossOpening : List Char :=
  ['d', '8', 'a', '1', 'e', '8', 'c', '1', 'f', '8', 'e', '1', 'g', '8', 'g', '1', 'h', '5',
    'i', '1', 'h', '6', 'k', '1', 'h', '7', 'm', '1', 'h', '9', 'o', '1', 'h', '1', '0',
    'a', '3']

set_option maxRecDepth 20000 in
/-- The stone at `h8` makes exactly five in the row, and it is refused for the
overline in the column. -/
theorem fivePrecedence_cross :
    Loads (renjuAnswer '7' '7') (Game.ofOpening crossOpening renjuOptions) ∧
      ∃ s t, AtRound (renjuAnswer '7' '7') (Game.ofOpening crossOpening renjuOptions) s ∧
        (asked s).position.grid (7, 7) = .empty ∧
        MakesFive (asked s).position.grid (7, 7) ∧
        (asked s).position.checkForbiddenMove (buildMove 7 7 .black) =
          some (.overline, (asked s).position) ∧
        (renjuAnswer '7' '7').round s = .error (.broke t) ∧
        t.game.state = .forbiddenMove := by
  have hloads : Loads (renjuAnswer '7' '7') (Game.ofOpening crossOpening renjuOptions) :=
    loads_ofOpening (by decide) (by decide)
  obtain ⟨cells, hfollows, -⟩ := hloads.follows
  have hat := atRound_firstRound (m := renjuAnswer '7' '7')
    (Game.ofOpening crossOpening renjuOptions) rfl
  obtain ⟨hgrid, hturn⟩ := firstRound_grid hloads rfl
  have hanswered := answered_firstRound (c := (7, 7)) (Game.ofOpening crossOpening renjuOptions)
    (by decide +kernel) ⟨['7'], ['7'], rfl, by decide, by decide, by decide, by decide⟩
  have hempty : ((Game.ofOpening crossOpening renjuOptions).pos 0).grid (7, 7) = .empty := by
    decide
  have hfive : MakesFive ((Game.ofOpening crossOpening renjuOptions).pos 0).grid (7, 7) :=
    (hfollows.shape.isFive_iff hempty).mp (by decide)
  have hover : MakesOverline ((Game.ofOpening crossOpening renjuOptions).pos 0).grid (7, 7) :=
    (hfollows.shape.isOverline_iff hempty).mp (by decide)
  rw [← hgrid] at hempty hfive hover
  have hshape := hat.shape hloads
  obtain ⟨hlegal, hverdict, hforbidden⟩ := forbidden_iff hshape hempty hfive
  obtain ⟨-, hpoint⟩ | ⟨hnot, -⟩ := forbiddenPoint_of_makesFive
    (asked ((renjuAnswer '7' '7').firstRound
      (Game.ofOpening crossOpening renjuOptions))).position.boardSize hfive
  · have hblack := hturn.trans (show _ = Color.black by decide)
    have hplayed : buildMove 7 7 .black = buildMove 7 7 (asked ((renjuAnswer '7' '7').firstRound
        (Game.ofOpening crossOpening renjuOptions))).position.playerToMove := by rw [hblack]
    rw [hpoint] at hverdict
    obtain ⟨-, t, ht, hstate⟩ | ⟨hallowed, -⟩ | ⟨hallowed, -⟩ :=
      hanswered.round_cases hshape hplayed hlegal
    · exact ⟨hloads, _, t, hat, hempty, hfive, hverdict, ht, hstate⟩
    · exact absurd (hforbidden.mpr hover) hallowed
    · exact absurd (hforbidden.mpr hover) hallowed
  · exact absurd hover hnot

end Match

end GomokuCli
