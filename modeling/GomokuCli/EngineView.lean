import GomokuCli.Run

/-!
# What an engine knows of the board

An engine keeps its own board, from the commands it is sent and the answers it
gives.  `EngineView` is this board by the Gomocup protocol, and the log of an
engine determines it.

The referee sends the whole board the first time it asks an engine, and from
then on only the last move of the other player if `TURN` is allowed.  The
invariant says how far the board of each engine lags behind: the engine that has
just answered knows the current position, and the one to be asked next knows the
position before the last move.
-/

namespace GomokuCli

open EarlyExit

/-- Whose stone it is. -/
inductive Owner
  | own
  | opponent
  deriving DecidableEq, Repr

/-- A board as an engine sees it: its own stones and those of the opponent, without their
colours, which the protocol does not mention. -/
abbrev EngineView := Int × Int → Option Owner

namespace EngineView

/-- The empty board. -/
def empty : EngineView := fun _ => none

/-- What an engine makes of a line, or of an answer of its own.  A line that starts a
position over empties the board, and the lines about the game leave it as it is. -/
def observe (v : EngineView) : Event → EngineView
  | .sent (.start _) => empty
  | .sent .begin => empty
  | .sent .board => empty
  | .sent (.stone x y gomocupColorIdx) =>
      if gomocupColorIdx = 1 then Function.update v (x, y) (some .own)
      else if gomocupColorIdx = 2 then Function.update v (x, y) (some .opponent)
      else v
  | .sent (.turn x y) => Function.update v (x, y) (some .opponent)
  | .sent .done => v
  | .sent (.info _ _) => v
  | .answered x y => Function.update v (x, y) (some .own)

/-- The board that a log leads to.  It is determined by the log alone, so that nothing has
to be assumed of the engine but that it keeps to the protocol. -/
def ofLog (log : List Event) : EngineView := log.foldl observe empty

theorem ofLog_append (log log' : List Event) :
    ofLog (log ++ log') = log'.foldl observe (ofLog log) :=
  List.foldl_append

/-- The stones on a board, seen by the player who has `color`. -/
def ofGrid (grid : Int × Int → Color) (color : Color) : EngineView := fun c =>
  if grid c = color then some .own
  else if grid c = opponentColor color then some .opponent
  else none

section OfGrid

variable {grid : Int × Int → Color} {color : Color} {c : Int × Int}

theorem ofGrid_update_own :
    ofGrid (Function.update grid c color) color =
      Function.update (ofGrid grid color) c (some .own) := by
  ext1 e
  by_cases he : e = c
  · subst he
    simp [ofGrid]
  · simp [ofGrid, he]

theorem ofGrid_update_opponent (hcolor : color.IsStone) :
    ofGrid (Function.update grid c (opponentColor color)) color =
      Function.update (ofGrid grid color) c (some .opponent) := by
  ext1 e
  by_cases he : e = c
  · subst he
    simp [ofGrid, hcolor.opponent_ne]
  · simp [ofGrid, he]

theorem ofGrid_emptyGrid (size : Nat) (hcolor : color.IsStone) :
    ofGrid (emptyGrid size) color = empty := by
  funext e
  have hown : emptyGrid size e ≠ color := by
    rw [emptyGrid]
    split
    · exact hcolor.ne_empty.symm
    · exact hcolor.ne_wall.symm
  have hother : emptyGrid size e ≠ opponentColor color := by
    rw [emptyGrid]
    split
    · exact hcolor.opponent.ne_empty.symm
    · exact hcolor.opponent.ne_wall.symm
  rw [ofGrid, if_neg hown, if_neg hother]
  rfl

end OfGrid

/-- The lines before the command that triggers thinking say nothing about the
board. -/
theorem foldl_turnInfo (v : EngineView) (timeLeft : Int) :
    ((Match.gomocupTurnInfoCommand timeLeft).map .sent).foldl observe v = v := rfl

/-! ## The whole board -/

section Board

variable {P : Position} {size : Nat} {cells : List (Int × Int)}

/-- The stones listed so far are those of the first moves of the record. -/
theorem foldl_stones (h : P.Follows size cells) (hcoloured : P.Coloured) (n : Nat)
    (hn : n ≤ P.moveCount) :
    (((List.range n).map fun i =>
        Event.sent (.stone (coordX (posFromMove (P.historyMoves i)))
          (coordY (posFromMove (P.historyMoves i)))
          (if colorFromMove (P.historyMoves i) = (opponentColor P.playerToMove).code then 2
          else 1))).foldl observe empty) =
      ofGrid (stones size (cells.take n)) P.playerToMove := by
  have hturn := h.turn_isStone
  induction n with
  | zero => exact (ofGrid_emptyGrid size hturn).symm
  | succ n ih =>
      have hlt : n < P.moveCount := hn
      have hlt' : n < cells.length := h.moveCount ▸ hlt
      have htake : cells.take (n + 1) = cells.take n ++ [cells[n]] := by
        rw [List.take_add_one, List.getElem?_eq_getElem hlt']
        rfl
      have hcell : (coordX (posFromMove (P.historyMoves n)),
          coordY (posFromMove (P.historyMoves n))) = cells[n] := h.history hlt'
      have hlength : (cells.take n).length = n := by
        rw [List.length_take]
        omega
      rw [List.range_succ, List.map_append, List.foldl_append, ih (by omega), htake,
        stones_append_singleton, hlength]
      simp only [List.map_cons, List.map_nil, List.foldl_cons, List.foldl_nil, observe, hcell,
        hcoloured n hlt]
      -- the last mover is the opponent of the side to move
      rcases hturn with hblack | hwhite
      · rw [hblack]
        rcases turnAt_isStone n with hn' | hn' <;> rw [hn']
        · exact ofGrid_update_own.symm
        · exact (ofGrid_update_opponent Color.isStone_black).symm
      · rw [hwhite]
        rcases turnAt_isStone n with hn' | hn' <;> rw [hn']
        · exact (ofGrid_update_opponent Color.isStone_white).symm
        · exact ofGrid_update_own.symm

/-- **`BOARD … DONE` gives the engine the position**, whatever it knew before.  The stones
are listed with the colour of the last move as the opponent's, which is why the colours of
the moves have to be right. -/
theorem foldl_sendBoardCommand (h : P.Follows size cells) (hcoloured : P.Coloured)
    (hcells : cells ≠ []) (v : EngineView) :
    ((Match.sendBoardCommand P).map .sent).foldl observe v =
      ofGrid P.grid P.playerToMove := by
  have hpos : 0 < P.moveCount := by
    rw [h.moveCount]
    exact List.length_pos_of_ne_nil hcells
  have hlast : colorFromMove (P.historyMoves (P.moveCount - 1)) =
      (opponentColor P.playerToMove).code := by
    have hturn := turnAt_succ (P.moveCount - 1)
    rw [Nat.sub_add_cancel hpos, ← h.turn] at hturn
    rw [hcoloured _ (by omega), hturn, opponentColor_opponentColor]
  have hstones := foldl_stones h hcoloured P.moveCount (le_refl _)
  rw [h.moveCount, List.take_length, ← h.grid_eq] at hstones
  rw [← hstones, Match.sendBoardCommand, hlast, h.moveCount]
  simp only [List.map_cons, List.map_append, List.map_map, List.map_nil, List.foldl_cons,
    List.foldl_append, List.foldl_nil, observe]
  rfl

end Board

end EngineView

namespace Match

open PlayState Position EngineView

variable {m : Match} {g : Game} {P : Position} {moves : List Nat} {s s' t : PlayState}
  {size : Nat} {cells : List (Int × Int)}

/-! ## The two engines of a game -/

/-- **The invariant of the two boards.** The engine that has just answered knows the
position, and the other one, once it has been asked, the position before the last move.  An
engine that has not been asked yet may know nothing: the flag for `TURN` tells the two cases
apart. -/
structure Informed (m : Match) (P : Position) (moves : List Nat) (s : PlayState) :
    Prop where
  playing : Playing m P moves s
  represents : ∃ r : Record m.options.boardSize, (P.playMoves moves).Represents r
  /-- The engine to move lacks the last move. -/
  toMove : s.canUseTurn s.ei = true → ∃ init last, moves = init ++ [last] ∧
    ofLog (s.log s.ei) = ofGrid (P.playMoves init).grid (P.playMoves moves).playerToMove
  /-- The other engine is up to date. -/
  waiting : s.canUseTurn (!s.ei) = true →
    ofLog (s.log (!s.ei)) =
      ofGrid (P.playMoves moves).grid (opponentColor (P.playMoves moves).playerToMove)

theorem thinkPhase_log (m : Match) (s : PlayState) (i : Bool) :
    (m.thinkPhase s).log i =
      if i = s.ei then
        s.log i ++ (gomocupTurnInfoCommand
          (computeTimeLeft (m.engineOptions s.ei) (s.timeLeft s.ei)) ++
            m.thinkCommand s).map .sent
      else s.log i :=
  writeln_log _ _ _ _

/-- What the command that triggers thinking adds. -/
theorem ofLog_thinkPhase (m : Match) (s : PlayState) :
    ofLog ((m.thinkPhase s).log s.ei) =
      ((m.thinkCommand s).map .sent).foldl observe (ofLog (s.log s.ei)) := by
  rw [thinkPhase_log, if_pos rfl, ofLog_append, List.map_append, List.foldl_append,
    foldl_turnInfo]

/-- **When an engine is told to think, its board is the position**, whether it is told by
`BEGIN`, by the last move, or by the whole board. -/
theorem Informed.think (h : Informed m P moves s) (hstart : P.Follows size cells) :
    ofLog ((m.thinkPhase (asked s)).log (asked s).ei) =
      ofGrid (P.playMoves moves).grid (P.playMoves moves).playerToMove := by
  obtain ⟨r, hrep⟩ := h.represents
  have hsame := h.playing.asked_position
  have hrep' : (asked s).position.Represents r := hsame.represents hrep
  have hturn := hrep.follows.turn_isStone
  have hei : (asked s).ei = s.ei := by rw [(asked_sameTurn s).ei, enterPly_ei]
  rw [ofLog_thinkPhase, hei, asked_log, thinkCommand]
  by_cases hfirst : (asked s).position.moveCount = 0
  · -- `BEGIN`
    have hnil : r.cells = [] := by
      rw [hrep'.follows.moveCount] at hfirst
      exact List.eq_nil_of_length_eq_zero hfirst
    rw [if_pos hfirst, hrep.follows.grid_eq, hnil, stones_nil, ofGrid_emptyGrid _ hturn]
    rfl
  by_cases hTurn : (m.options.useTURN && (asked s).canUseTurn (asked s).ei) = true
  · -- `TURN`: the engine already knows everything but the last move
    rw [if_neg hfirst, if_pos hTurn]
    rw [Bool.and_eq_true, asked_canUseTurn, hei] at hTurn
    obtain ⟨init, last, rfl, hlog⟩ := h.toMove hTurn.2
    have hplayed : (asked s).played = last := by
      rw [asked_played, h.playing.played, List.getLast?_concat, Option.getD_some]
    have hmover : (P.playMoves init).playerToMove =
        opponentColor (P.playMoves (init ++ [last])).playerToMove := by
      rw [playMoves_append_singleton, move_playerToMove, opponentColor_opponentColor]
    rw [hlog, hplayed, hstart.grid_playMoves_append h.playing.legal, hmover,
      ofGrid_update_opponent hturn]
    rfl
  · -- `BOARD`
    rw [if_neg hfirst, if_neg hTurn]
    have hcells : r.cells ≠ [] := by
      intro hnil
      rw [hrep'.follows.moveCount, hnil] at hfirst
      exact hfirst rfl
    rw [foldl_sendBoardCommand hrep'.follows hrep'.coloured hcells, hsame.grid,
      hsame.playerToMove]

/-- **One round keeps the two boards.** The engine that answers enters its own move, and the
other one is a move behind from then on. -/
theorem Informed.step (h : Informed m P moves s) (hstart : P.Follows size cells)
    (hround : m.round s = .ok s') (hcontinues : Continues m s s')
    (hin : InSquare m.options.boardSize
      (answeredCell (m.moveReply s.game.ply).bestmove)) :
    Informed m P (moves ++ [s'.played]) s' := by
  have hthink := h.think hstart
  obtain ⟨r, hrep⟩ := h.represents
  obtain ⟨r', -, hrep'⟩ := h.playing.represents_step hrep hcontinues.accepts hin
  have hturn := hrep.follows.turn_isStone
  have hnext := h.playing.step hstart hround
  have hcell := (accepted_of_inSquare hrep.follows.size_le hcontinues.accepts.reads hin).1
  have hplayer : (P.playMoves (moves ++ [s'.played])).playerToMove =
      opponentColor (P.playMoves moves).playerToMove := by
    rw [playMoves_append_singleton, move_playerToMove]
  obtain ⟨t, hsame, -, hlog, hflags, hrecord⟩ := hcontinues.recorded
  have hei : (asked s).ei = s.ei := by rw [(asked_sameTurn s).ei, enterPly_ei]
  have htei : t.ei = s.ei := hsame.ei.trans hei
  have htply : t.game.ply = s.game.ply := hsame.ply.trans (asked_ply s)
  have hei' : s'.ei = !s.ei := by
    rw [← hrecord, ← htei]
    rfl
  have hflags' : s'.canUseTurn = Function.update s.canUseTurn s.ei true := by
    rw [← hrecord, ← asked_canUseTurn s, ← hei]
    exact hflags
  have hlog' : s'.log = Function.update t.log s.ei (t.log s.ei ++
      [.answered (answeredCell (m.moveReply s.game.ply).bestmove).1
        (answeredCell (m.moveReply s.game.ply).bestmove).2]) := by
    rw [← hrecord, ← htei, ← htply]
    rfl
  have hthinkLog : t.log = (m.thinkPhase (asked s)).log := hlog
  refine ⟨hnext, ⟨r', hrep'⟩, ?_, ?_⟩
  · -- the engine that waited is to move
    have hne : (!s.ei) ≠ s.ei := by cases s.ei <;> simp
    rw [hei', hflags', hlog', Function.update_of_ne hne, Function.update_of_ne hne, hplayer,
      hthinkLog, thinkPhase_log, hei, if_neg hne, asked_log]
    intro hflag
    exact ⟨moves, s'.played, rfl, h.waiting hflag⟩
  · -- the engine that was asked has added its answer
    rw [hei', Bool.not_not, hlog', Function.update_self, hthinkLog, ofLog_append, ← hei, hthink,
      hplayer, opponentColor_opponentColor, hstart.grid_playMoves_append hnext.legal, hcell,
      ofGrid_update_own]
    intro _
    rfl

theorem AtRound.informed (h : Loads m g) (hnodup : (g.pos 0).historyCells.Nodup)
    (hanswers : AnswersInSquare m g) (hs : AtRound m g s) :
    ∃ moves, Informed m (g.pos 0) moves s := by
  obtain ⟨cells, hfollows, -⟩ := h.follows
  refine hs.invariant (fun s => ∃ moves, Informed m (g.pos 0) moves s) h ?_ ?_
  · intro s₀ hstarted
    refine ⟨[], Playing.init h hstarted, h.represents hnodup, ?_, ?_⟩
    · intro hflag
      rw [hstarted.canUseTurn] at hflag
      cases hflag
    · intro hflag
      rw [hstarted.canUseTurn] at hflag
      cases hflag
  · rintro t t' hat ⟨moves, hinformed⟩ hround hcontinues
    exact ⟨_, hinformed.step hfollows hround hcontinues (hanswers t t' hat hround)⟩

/-- **Every time an engine is told to think, its board is `pos[ply]`**: its own stones are
those of the side to move, the other stones the opponent's.  The opening has to be one of
distinct cells and the answers have to name cells of the board; otherwise the referee itself
holds something else than what was said. -/
theorem engineView_eq (h : Loads m g) (hnodup : (g.pos 0).historyCells.Nodup)
    (hanswers : AnswersInSquare m g) (hs : AtRound m g s) (hasked : m.rulesPhase s = .ok t) :
    ofLog ((m.thinkPhase t).log t.ei) = ofGrid t.position.grid t.position.playerToMove := by
  obtain ⟨cells, hfollows, -⟩ := h.follows
  obtain ⟨moves, hinformed⟩ := hs.informed h hnodup hanswers
  obtain ⟨-, -, rfl⟩ := rulesPhase_eq_ok_iff.mp hasked
  have hsame := hinformed.playing.asked_position
  rw [hinformed.think hfollows, hsame.grid, hsame.playerToMove]

/-- From an opening of one stone, with every answer at `3,3`. -/
theorem engineView_eq_oneStone :
    ∃ s t, AtRound (casual {} fun _ => ['3', ',', '3'])
        (Game.ofOpening ['0', ',', '0'] {}) s ∧
      (casual {} fun _ => ['3', ',', '3']).rulesPhase s = .ok t ∧
      ofLog (((casual {} fun _ => ['3', ',', '3']).thinkPhase t).log t.ei) =
        ofGrid t.position.grid t.position.playerToMove := by
  have hloads : Loads (casual {} fun _ => ['3', ',', '3'])
      (Game.ofOpening ['0', ',', '0'] {}) := loads_ofOpening (by decide) (by decide)
  have hanswers : AnswersInSquare (casual {} fun _ => ['3', ',', '3'])
      (Game.ofOpening ['0', ',', '0'] {}) := by
    intro s s' _ _
    change InSquare 15 (answeredCell ['3', ',', '3'])
    decide
  have hat : AtRound (casual {} fun _ => ['3', ',', '3']) (Game.ofOpening ['0', ',', '0'] {})
      (firstRound _ _) := atRound_firstRound _ rfl
  have hasked := (rulesPhase_eq_ok_iff (m := casual {} fun _ => ['3', ',', '3'])
    (s := firstRound (casual {} fun _ => ['3', ',', '3'])
      (Game.ofOpening ['0', ',', '0'] {}))).mpr ⟨by decide, fun hforced => hforced.1 rfl, rfl⟩
  exact ⟨_, _, hat, hasked, engineView_eq hloads (by decide) hanswers hat hasked⟩

end Match

end GomokuCli
