import GomokuCli.Run

/-!
# Who has won

Three parts of the program give an account of the result: `play` returns it for
`engines[0]`, `decode_state` reports it by colour, and `names` says which engine
has which colour.  They are computed from different data, and every exit of the
loop keeps them together because the engine to move sits on the side to move.

The exit before the loop does not: an engine that fails at `START` need not be
the one to move.
-/

namespace GomokuCli

open EarlyExit

namespace Game

/-- The result from Black's point of view that the state and the side to move stand for.  A
game that has not ended has none. -/
def verdict (g : Game) : Option Result :=
  match g.state with
  | .none => none
  | .drawInsufficientSpace | .drawAdjudication => some .draw
  | .forbiddenMove => some .loss
  | _ => some (if g.position.playerToMove = .black then .loss else .win)

theorem decodeState_eq (g : Game) (restxt : Result → List Char) :
    (g.decodeState restxt).1 = (g.verdict.map restxt).getD ['*'] := by
  unfold decodeState verdict
  cases g.state <;> by_cases hturn : g.position.playerToMove = .black <;> simp [hturn]

/-- `decode_state` reports a win of the colour, whatever the texts are. -/
def ReportsWin (g : Game) (color : Color) : Prop :=
  ∀ restxt, (g.decodeState restxt).1 = restxt (if color = .black then .win else .loss)

/-- `decode_state` reports a draw, whatever the texts are. -/
def ReportsDraw (g : Game) : Prop := ∀ restxt, (g.decodeState restxt).1 = restxt .draw

/-- The texts tell the results apart. -/
theorem reports_iff (g : Game) (r : Result) :
    (∀ restxt, (g.decodeState restxt).1 = restxt r) ↔ g.verdict = some r := by
  constructor
  · intro h
    have htext := h fun r' => if r' = r then [] else ['-']
    rw [decodeState_eq, if_pos rfl] at htext
    cases hverdict : g.verdict with
    | none =>
        rw [hverdict] at htext
        cases htext
    | some r' =>
        rw [hverdict, Option.map_some, Option.getD_some] at htext
        by_cases heq : r' = r
        · rw [heq]
        · rw [if_neg heq] at htext
          cases htext
  · intro h restxt
    rw [decodeState_eq, h]
    rfl

end Game

namespace Match

open PlayState Position

/-- The three accounts of the result of a game that started from `g`: what `play` returns
for `engines[0]`, what `decode_state` reports by colour, and which engine has which colour. -/
structure AccountsAgree (m : Match) (g : Game) (result : Result) (final : Game) : Prop where
  names : ∀ color, color.IsStone → final.names color =
    m.engineName (engineOfColor (g.pos 0).playerToMove m.reverse color)
  win_iff : result = .win ↔ ∃ color, color.IsStone ∧ final.ReportsWin color ∧
    engineOfColor (g.pos 0).playerToMove m.reverse color = false
  loss_iff : result = .loss ↔ ∃ color, color.IsStone ∧ final.ReportsWin color ∧
    engineOfColor (g.pos 0).playerToMove m.reverse color = true
  draw_iff : result = .draw ↔ final.ReportsDraw

/-- The final state of a game is one of its exits.  A forbidden move is always one of Black,
which the report takes for granted. -/
structure Terminal (final : Game) : Prop where
  state : final.state ≠ .none
  turn : final.position.playerToMove.IsStone
  forbidden : final.state = .forbiddenMove → final.position.playerToMove = .black

variable {m : Match} {g final : Game} {s t : PlayState}

/-- In a final state the side to move has lost, or the game is drawn. -/
theorem Terminal.verdict_eq (h : Terminal final) :
    final.verdict = some
      (if final.state.code < stateSeparator then
        if final.position.playerToMove = .black then .loss else .win
      else .draw) := by
  have hstate := h.state
  have hforbidden := h.forbidden
  unfold Game.verdict
  cases hcase : final.state <;>
    simp_all [GameState.code, stateSeparator]

/-- Whoever wins sits across the table. -/
theorem exists_winner_iff (h : Terminal final) (turn : Color) (reverse i : Bool) :
    (∃ color, color.IsStone ∧ final.ReportsWin color ∧
        engineOfColor turn reverse color = i) ↔
      final.state.code < stateSeparator ∧
        engineOfColor turn reverse final.position.playerToMove = !i := by
  have hopponent := engineOfColor_opponent turn reverse h.turn
  have hreports : ∀ color, color.IsStone → (final.ReportsWin color ↔
      final.state.code < stateSeparator ∧
        color = opponentColor final.position.playerToMove) := by
    intro color hcolor
    rw [Game.ReportsWin, Game.reports_iff, h.verdict_eq, Option.some.injEq]
    by_cases hlost : final.state.code < stateSeparator
    · rw [if_pos hlost]
      rcases h.turn with hturn | hturn <;> rcases hcolor with rfl | rfl <;>
        simp [hturn, hlost, opponentColor]
    · rw [if_neg hlost]
      rcases hcolor with rfl | rfl <;> simp [hlost]
  constructor
  · rintro ⟨color, hcolor, hwin, rfl⟩
    obtain ⟨hlost, rfl⟩ := (hreports color hcolor).mp hwin
    rw [hopponent, Bool.not_not]
    exact ⟨hlost, rfl⟩
  · rintro ⟨hlost, hseat⟩
    refine ⟨_, h.turn.opponent, (hreports _ h.turn.opponent).mpr ⟨hlost, rfl⟩, ?_⟩
    rw [hopponent, hseat, Bool.not_not]

theorem Terminal.reportsDraw_iff (h : Terminal final) :
    final.ReportsDraw ↔ ¬ final.state.code < stateSeparator := by
  rw [Game.ReportsDraw, Game.reports_iff, h.verdict_eq, Option.some.injEq]
  by_cases hlost : final.state.code < stateSeparator
  · rw [if_pos hlost]
    split <;> simp [hlost]
  · rw [if_neg hlost]
    exact iff_of_true rfl hlost

/-- **The accounts agree iff the engine that is taken for the loser sits on the side to
move.** One of them goes by the engine and the other by the side. -/
theorem accountsAgree_iff_seat (h : Terminal final) {result : Result} {i : Bool}
    (hnames : ∀ color, final.names color =
      m.engineName (engineOfColor (g.pos 0).playerToMove m.reverse color))
    (hresult : result = if final.state.code < stateSeparator then resultOfLoser i else .draw) :
    AccountsAgree m g result final ↔
      (final.state.code < stateSeparator →
        engineOfColor (g.pos 0).playerToMove m.reverse final.position.playerToMove = i) := by
  constructor
  · intro hagree hlost
    rw [if_pos hlost] at hresult
    cases i with
    | false =>
        have hloss := hagree.loss_iff.mp (by rw [hresult]; rfl)
        rw [exists_winner_iff h] at hloss
        exact hloss.2
    | true =>
        have hwin := hagree.win_iff.mp (by rw [hresult]; rfl)
        rw [exists_winner_iff h] at hwin
        exact hwin.2
  · intro hseat
    refine ⟨fun color _ => hnames color, ?_, ?_, ?_⟩
    · rw [exists_winner_iff h, hresult]
      by_cases hlost : final.state.code < stateSeparator
      · rw [if_pos hlost, hseat hlost]
        cases i <;> simp [resultOfLoser, hlost]
      · simp [hlost]
    · rw [exists_winner_iff h, hresult]
      by_cases hlost : final.state.code < stateSeparator
      · rw [if_pos hlost, hseat hlost]
        cases i <;> simp [resultOfLoser, hlost]
      · simp [hlost]
    · rw [h.reportsDraw_iff, hresult]
      by_cases hlost : final.state.code < stateSeparator
      · rw [if_pos hlost]
        cases i <;> simp [resultOfLoser, hlost]
      · simp [hlost]

/-! ## The exits of the loop -/

/-- The colour bits of White's moves are not Black's, however the cell wraps. -/
theorem colorFromMove_buildMove_white (x y : Int) :
    colorFromMove (buildMove x y .white) ≠ Color.black.code := by
  have hlt : pos x y < 2 ^ 14 := (pos_lt x y).trans (by decide)
  have hside : Color.white.code < 16 := by decide
  have hbuild := (buildMovePos_of_lt hlt hside).1
  rw [buildMove, hbuild, colorFromMove, Nat.shiftRight_or_distrib, Nat.shiftLeft_shiftRight]
  intro hzero
  rw [show Color.black.code = 0 from rfl, Nat.or_eq_zero_iff] at hzero
  exact absurd hzero.1 (by decide)

/-- Only Black loses by a forbidden move. -/
theorem black_of_forbidden {rule : GameRule} {P : Position} {bestmove : List Char}
    {played : Nat} (hturn : P.playerToMove.IsStone)
    (hreads : P.gomostrToMove bestmove = some played) (h : Forbidden rule P played) :
    P.playerToMove = .black := by
  rcases hturn with hblack | hwhite
  · exact hblack
  · obtain ⟨-, v, hverdict, hv⟩ := h
    have hcolor : colorFromMove played ≠ Color.black.code := by
      rw [gomostrToMove_eq_some hreads, hwhite]
      exact colorFromMove_buildMove_white _ _
    rw [checkForbiddenMove, if_pos hcolor, Option.some.injEq, Prod.mk.injEq] at hverdict
    exact absurd hverdict.1.symm hv

/-- A state that is left by `break` still belongs to the turn that was asked. -/
theorem Breaks.sameTurn (h : Breaks m s t) : SameTurn (asked s) t := by
  cases h with
  | rules _ => exact SameTurn.refl _
  | forced _ _ same _ => exact same
  | noAnswer _ _ same _ => exact same
  | late _ _ same _ => exact same
  | illegal _ _ _ same _ => exact same
  | forbidden _ _ _ _ same _ => exact same
  | drawn _ _ same _ => exact same
  | resigned _ _ same _ => exact same

/-- Every `break` leaves a final state. -/
theorem Breaks.terminal (h : Breaks m s t) (hturn : (asked s).position.playerToMove.IsStone) :
    Terminal t.game := by
  have hplayer : t.game.position.playerToMove = (asked s).position.playerToMove :=
    h.sameTurn.position.playerToMove
  refine ⟨?_, hplayer ▸ hturn, ?_⟩
  · cases h with
    | rules hstate => exact hstate
    | noAnswer _ _ _ hstate =>
        rw [hstate]
        split <;> simp
    | forced _ _ _ hstate => simp [hstate]
    | late _ _ _ hstate => simp [hstate]
    | illegal _ _ _ _ hstate => simp [hstate]
    | forbidden _ _ _ _ _ hstate => simp [hstate]
    | drawn _ _ _ hstate => simp [hstate]
    | resigned _ _ _ hstate => simp [hstate]
  · intro hforbidden
    rw [hplayer]
    cases h with
    | forbidden _ hreads _ hverdict _ _ => exact black_of_forbidden hturn hreads hverdict
    | rules hstate =>
        rw [asked_state] at hforbidden
        unfold Game.gameApplyRules at hforbidden
        simp only at hforbidden
        split at hforbidden
        · cases hforbidden
        · split at hforbidden <;> cases hforbidden
    | noAnswer _ _ _ hstate =>
        rw [hstate] at hforbidden
        split at hforbidden <;> cases hforbidden
    | forced _ _ _ hstate => simp [hstate] at hforbidden
    | late _ _ _ hstate => simp [hstate] at hforbidden
    | illegal _ _ _ _ hstate => simp [hstate] at hforbidden
    | drawn _ _ _ hstate => simp [hstate] at hforbidden
    | resigned _ _ _ hstate => simp [hstate] at hforbidden

/-- Before the first round the engine to move is `engines[reverse]`. -/
theorem initial_seat (h : Loads m g) :
    engineOfColor (g.pos 0).playerToMove m.reverse
      (m.initial g).game.position.playerToMove = m.reverse := by
  obtain ⟨cells, hfollows, -⟩ := h.follows
  rw [h.initial_position, engineOfColor]
  rcases hfollows.turn_isStone with hturn | hturn <;> rw [hturn] <;> cases m.reverse <;> rfl

/-- The accounts of a game that ends at `START`. -/
theorem accountsAgree_startFailure_iff (h : Loads m g) (i : Bool) {state : GameState}
    (hstate : state = .crashed ∨ state = .timeLoss) :
    AccountsAgree m g (resultOfLoser i) { (m.initial g).game with state := state } ↔
      i = m.reverse := by
  obtain ⟨cells, hfollows, -⟩ := h.follows
  have hturn : (m.initial g).game.position.playerToMove.IsStone := by
    rw [h.initial_position]
    exact hfollows.turn_isStone
  have hlost : state.code < stateSeparator := by
    rcases hstate with rfl | rfl <;> decide
  have hterminal : Terminal { (m.initial g).game with state := state } := by
    rcases hstate with rfl | rfl
    · exact ⟨by simp, hturn, by simp⟩
    · exact ⟨by simp, hturn, by simp⟩
  rw [accountsAgree_iff_seat hterminal (fun _ => rfl) (if_pos hlost).symm]
  constructor
  · intro hseat
    exact (hseat hlost).symm.trans (initial_seat h)
  · intro hi _
    rw [hi]
    exact initial_seat h

/-- Every exit of the loop leaves the names that were given at the start. -/
theorem Breaks.names (h : Loads m g) (hat : AtRound m g s) (hbreaks : Breaks m s t)
    (color : Color) : t.game.names color =
      m.engineName (engineOfColor (g.pos 0).playerToMove m.reverse color) := by
  obtain ⟨moves, hplaying⟩ := hat.playing h
  rw [hbreaks.sameTurn.names, (asked_sameTurn s).names, enterPly_names, hplaying.names]

/-- **Every exit of the loop keeps the accounts together**: the loser is the engine to move,
and it sits on the side to move.  The second part is in the invariant of the loop
(`Playing.asked_seat`). -/
theorem Breaks.accountsAgree (h : Loads m g) (hat : AtRound m g s) (hbreaks : Breaks m s t)
    {result : Result}
    (hresult : result =
      if t.game.state.code < stateSeparator then resultOfLoser t.ei else .draw) :
    AccountsAgree m g result { t.game with samples := fillSamples t.game } := by
  obtain ⟨cells, hfollows, -⟩ := h.follows
  obtain ⟨moves, hplaying⟩ := hat.playing h
  have hsame := hbreaks.sameTurn
  have hterminal := hbreaks.terminal (hplaying.follows hfollows).turn_isStone
  have hfinal : Terminal { t.game with samples := fillSamples t.game } :=
    ⟨hterminal.state, hterminal.turn, hterminal.forbidden⟩
  refine (accountsAgree_iff_seat hfinal (hbreaks.names h hat) hresult).mpr fun _ => ?_
  change engineOfColor _ _ t.position.playerToMove = t.ei
  rw [hsame.position.playerToMove, hplaying.asked_seat, hsame.ei, (asked_sameTurn s).ei,
    enterPly_ei]

/-- **When the accounts agree**: an engine that fails at `START` is the engine to move, or
its failure is fatal.  `play` takes the engine that failed for the loser, while the report
always takes the side to move for it.  From the first round on there is no such case. -/
theorem play_accountsAgree_iff (h : Loads m g) :
    (∃ e, m.play g = some e ∧
      ∀ result final, e = .returned result final → AccountsAgree m g result final.game) ↔
      m.options.fatalError = true ∨ ∀ i, m.firstFailure = some i → i = m.reverse := by
  have hstate : ∀ i, (if (m.startReply i).crashed then GameState.crashed else .timeLoss) =
      .crashed ∨ (if (m.startReply i).crashed then GameState.crashed else .timeLoss) =
      .timeLoss := by
    intro i
    split
    · exact Or.inl rfl
    · exact Or.inr rfl
  constructor
  · rintro ⟨e, he, hagree⟩
    by_contra hnot
    push Not at hnot
    obtain ⟨hfatal, i, hfailure, hi⟩ := hnot
    obtain ⟨hnone, -⟩ | ⟨_, -, hfatal', -⟩ | ⟨i', hfailure', -, final, herror, hgame⟩ :=
      startPhase_cases m g
    · rw [hfailure] at hnone
      cases hnone
    · exact hfatal hfatal'
    · rw [hfailure, Option.some.injEq] at hfailure'
      subst hfailure'
      have hplay : m.play g = some (.returned (resultOfLoser i) final) := by
        rw [play, herror]
      rw [hplay, Option.some.injEq] at he
      have hfinal := hagree _ _ he.symm
      rw [hgame] at hfinal
      exact hi ((accountsAgree_startFailure_iff h i (hstate i)).mp hfinal)
  · intro hcond
    obtain ⟨e, he⟩ := exists_play h
    refine ⟨e, he, ?_⟩
    rintro result final rfl
    obtain ⟨i, hfailure, hfatal, rfl, hgame⟩ | ⟨s, t, -, hat, hbreaks, hresult, rfl⟩ :=
      returned_cases h he
    · have hi : i = m.reverse := by
        rcases hcond with hfatal' | hcond
        · rw [hfatal] at hfatal'
          cases hfatal'
        · exact hcond i hfailure
      rw [hgame]
      exact (accountsAgree_startFailure_iff h i (hstate i)).mpr hi
    · exact hbreaks.accountsAgree h hat hresult

/-- A match whose second engine does not react to `START`. -/
def secondAbsent : Match :=
  { casual {} fun _ => [] with startReply := fun i => { ok := !i, crashed := false } }

/-- A match whose first engine, which is to move, does not react to `START`. -/
def firstAbsent : Match :=
  { casual {} fun _ => [] with startReply := fun i => { ok := i, crashed := false } }

/-- The engine to move is absent, and the accounts agree. -/
theorem play_accountsAgree_firstAbsent :
    ∃ e, firstAbsent.play (Game.ofOpening [] {}) = some e ∧
      ∀ result final, e = .returned result final →
        AccountsAgree firstAbsent (Game.ofOpening [] {}) result final.game := by
  have hloads : Loads firstAbsent (Game.ofOpening [] {}) :=
    loads_ofOpening (by decide) (by decide)
  refine (play_accountsAgree_iff hloads).mpr (Or.inr ?_)
  intro i hi
  rw [show firstAbsent.firstFailure = some false from rfl, Option.some.injEq] at hi
  exact hi.symm

/-- White's engine is absent on the empty board: `play` returns a win for
`engines[0]`, which has Black, and the report is a win of White. -/
theorem play_secondAbsent_disagrees :
    Loads secondAbsent (Game.ofOpening [] {}) ∧
      ∃ final, secondAbsent.play (Game.ofOpening [] {}) = some (.returned .win final) ∧
        engineOfColor ((Game.ofOpening [] {}).pos 0).playerToMove secondAbsent.reverse .black =
          false ∧
        final.game.ReportsWin .white ∧
        ¬ AccountsAgree secondAbsent (Game.ofOpening [] {}) .win final.game := by
  refine ⟨loads_ofOpening (by decide) (by decide), _, rfl, rfl, fun restxt => rfl, ?_⟩
  intro hagree
  obtain ⟨color, hcolor, hwin, hseat⟩ := hagree.win_iff.mp rfl
  rcases hcolor with rfl | rfl
  · -- a win of Black would be another text
    have htext := hwin fun r => if r = .win then [] else ['-']
    cases htext
  · cases hseat

end Match

end GomokuCli
