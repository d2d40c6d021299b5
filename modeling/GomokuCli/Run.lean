import GomokuCli.Round

/-!
# Runs of a game

Every round that goes on plays one legal move, so the head of a round is
described by the position the game started from and the list of the moves made
since.  `Playing` is this description, and the invariant of the loop: every
position in the vector is the one after that many moves, and the engine to move
is the one that sits on the side to move.

A legal move fills an empty cell, so a game has at most as many rounds as the
square has cells, and `play` always ends.
-/

namespace GomokuCli

open EarlyExit

namespace Position

/-! ## Sequences of moves -/

theorem SameButWin.move {P Q : Position} (h : SameButWin P Q) (m : Nat) :
    SameButWin (P.move m) (Q.move m) where
  board := by rw [move_board, move_board, h.board, h.playerToMove]
  boardSize := h.boardSize
  boardSizeSqr := h.boardSizeSqr
  moveCount := by rw [move_moveCount, move_moveCount, h.moveCount]
  historyMoves := by rw [move_historyMoves, move_historyMoves, h.historyMoves, h.moveCount]
  playerToMove := by rw [move_playerToMove, move_playerToMove, h.playerToMove]

theorem SameButWin.isLegalMove {P Q : Position} (h : SameButWin P Q) (m : Nat) :
    Q.isLegalMove m = P.isLegalMove m := by
  simp only [Position.isLegalMove, isInBoard, h.board]

/-- The position after some moves. -/
def playMoves (P : Position) (moves : List Nat) : Position := moves.foldl Position.move P

@[simp] theorem playMoves_nil (P : Position) : P.playMoves [] = P := rfl

@[simp] theorem playMoves_append_singleton (P : Position) (moves : List Nat) (m : Nat) :
    P.playMoves (moves ++ [m]) = (P.playMoves moves).move m := by
  simp [playMoves]

/-- Every move is legal when it is made, and none is the sentinel.  The positions in between
are those of the moves before. -/
def LegalMoves (P : Position) (moves : List Nat) : Prop :=
  ∀ k (hk : k < moves.length),
    (P.playMoves (moves.take k)).isLegalMove moves[k] = true ∧ moves[k] ≠ noneMove

/-- The cells of some moves. -/
def moveCells (moves : List Nat) : List (Int × Int) :=
  moves.map fun m => cellOf (posFromMove m)

@[simp] theorem moveCells_append_singleton (moves : List Nat) (m : Nat) :
    moveCells (moves ++ [m]) = moveCells moves ++ [cellOf (posFromMove m)] := by
  simp [moveCells]

@[simp] theorem length_moveCells (moves : List Nat) :
    (moveCells moves).length = moves.length := by
  simp [moveCells]

section LegalMoves

variable {P : Position} {moves : List Nat} {m : Nat}

theorem legalMoves_nil (P : Position) : P.LegalMoves [] := by
  intro k hk
  cases hk

theorem LegalMoves.append_singleton (h : P.LegalMoves moves)
    (hlegal : (P.playMoves moves).isLegalMove m = true) (hm : m ≠ noneMove) :
    P.LegalMoves (moves ++ [m]) := by
  intro k hk
  by_cases hlast : k < moves.length
  · rw [List.take_append_of_le_length (by omega), List.getElem_append_left hlast]
    exact h k hlast
  · have hk' : k = moves.length := by
      rw [List.length_append, List.length_singleton] at hk
      omega
    subst hk'
    rw [List.take_left, List.getElem_concat_length rfl]
    exact ⟨hlegal, hm⟩

theorem LegalMoves.of_append_singleton (h : P.LegalMoves (moves ++ [m])) :
    P.LegalMoves moves ∧ (P.playMoves moves).isLegalMove m = true ∧ m ≠ noneMove := by
  constructor
  · intro k hk
    have hk' := h k (by rw [List.length_append]; omega)
    rwa [List.take_append_of_le_length (by omega), List.getElem_append_left hk] at hk'
  · have hlast := h moves.length (by rw [List.length_append, List.length_singleton]; omega)
    rwa [List.take_left, List.getElem_concat_length rfl] at hlast

theorem LegalMoves.take (h : P.LegalMoves moves) (k : Nat) : P.LegalMoves (moves.take k) := by
  intro i hi
  rw [List.length_take] at hi
  have hi' := h i (by omega)
  rwa [List.take_take, List.getElem_take, min_eq_left (by omega)]

variable {size : Nat} {cells : List (Int × Int)}

/-- Legal moves append their cells to the record.  So the cells of a game are those of the
opening, and behind them those of the moves. -/
theorem Follows.playMoves (h : P.Follows size cells) (hlegal : P.LegalMoves moves) :
    (P.playMoves moves).Follows size (cells ++ moveCells moves) := by
  induction moves using List.reverseRecOn with
  | nil => simpa [moveCells] using h
  | append_singleton moves m ih =>
      obtain ⟨hinit, hlast, -⟩ := hlegal.of_append_singleton
      have hfollows := ih hinit
      obtain ⟨hin, -⟩ := (hfollows.isLegalMove_iff m).mp hlast
      rw [playMoves_append_singleton, moveCells_append_singleton, ← List.append_assoc]
      exact hfollows.move hin

/-- Every move goes to a cell of the square that neither the opening nor an earlier move has
used.  This holds also of an opening that names a cell twice. -/
theorem Follows.legal_last (h : P.Follows size cells) (hlegal : P.LegalMoves (moves ++ [m])) :
    InSquare size (cellOf (posFromMove m)) ∧
      cellOf (posFromMove m) ∉ cells ++ moveCells moves := by
  obtain ⟨hinit, hlast, -⟩ := hlegal.of_append_singleton
  exact ((h.playMoves hinit).isLegalMove_iff m).mp hlast

/-- The last move changes one cell of the grid. -/
theorem Follows.grid_playMoves_append (h : P.Follows size cells)
    (hlegal : P.LegalMoves (moves ++ [m])) :
    (P.playMoves (moves ++ [m])).grid =
      Function.update (P.playMoves moves).grid (cellOf (posFromMove m))
        (P.playMoves moves).playerToMove := by
  have hfollows := h.playMoves hlegal.of_append_singleton.1
  obtain ⟨hin, -⟩ := h.legal_last hlegal
  rw [playMoves_append_singleton, hfollows.shape.grid_move (hfollows.boardSize.symm ▸ hin)]

/-- The moves made after the opening fill different cells. -/
theorem Follows.moveRecord (h : P.Follows size cells) (hlegal : P.LegalMoves moves) :
    ∃ r : Record size, r.cells = moveCells moves := by
  induction moves using List.reverseRecOn with
  | nil => exact ⟨⟨[], by simp, List.nodup_nil⟩, rfl⟩
  | append_singleton moves m ih =>
      obtain ⟨r, hr⟩ := ih hlegal.of_append_singleton.1
      obtain ⟨hin, hnew⟩ := h.legal_last hlegal
      rw [List.mem_append, not_or] at hnew
      rw [moveCells_append_singleton]
      refine ⟨⟨moveCells moves ++ [cellOf (posFromMove m)], ?_, ?_⟩, rfl⟩
      · intro c hc
        rcases List.mem_append.mp hc with hmem | hlast
        · exact r.inSquare c (hr ▸ hmem)
        · rwa [List.mem_singleton.mp hlast]
      · exact List.Nodup.append (hr ▸ r.nodup) (by simp) (by simpa using hnew.2)

/-- The moves after an opening of distinct cells keep all the cells distinct. -/
theorem Follows.nodup_append (h : P.Follows size cells) (hnodup : cells.Nodup)
    (hlegal : P.LegalMoves moves) : (cells ++ moveCells moves).Nodup := by
  induction moves using List.reverseRecOn with
  | nil => simpa [moveCells] using hnodup
  | append_singleton moves m ih =>
      obtain ⟨-, hnew⟩ := h.legal_last hlegal
      rw [moveCells_append_singleton, ← List.append_assoc]
      exact List.Nodup.append (ih hlegal.of_append_singleton.1) (by simp) (by simpa using hnew)

/-- No game is longer than the square is large.  This bounds the rounds of the loop. -/
theorem Follows.length_moves_le (h : P.Follows size cells) (hlegal : P.LegalMoves moves) :
    moves.length ≤ 484 := by
  obtain ⟨r, hr⟩ := h.moveRecord hlegal
  have hlen := r.length_le
  rw [hr, length_moveCells] at hlen
  have hsize : size * size ≤ 22 * 22 := Nat.mul_le_mul h.size_le h.size_le
  omega

end LegalMoves

/-- An accepted answer is the move at the cell that it is read as. -/
theorem gomostrToMove_eq_some {P : Position} {bestmove : List Char} {played : Nat}
    (h : P.gomostrToMove bestmove = some played) :
    played = buildMove (Match.answeredCell bestmove).1 (Match.answeredCell bestmove).2
      P.playerToMove := by
  simp only [gomostrToMove, Option.bind_eq_some_iff, Option.some.injEq] at h
  obtain ⟨x, hx, y, hy, rfl⟩ := h
  simp only [Match.answeredCell, hx, hy, Option.getD_some]

end Position

/-! ## The invariant of the loop -/

namespace Match

open PlayState Position

/-- The game has been set up by `load_opening` on a board of a size that the options allow.
It is the only thing that is assumed of a game: the line and the round may be any. -/
structure Loads (m : Match) (g : Game) : Prop where
  size_le : m.options.boardSize ≤ 22
  loaded : ∃ openingStr currentRound color,
    Game.new.loadOpening openingStr m.options currentRound = some (g, color)

/-- `s` is the head of a round of the game `g`.  Statements about every round of a game are
statements about all such states. -/
def AtRound (m : Match) (g : Game) (s : PlayState) : Prop :=
  ∃ s₀, m.startPhase g = .ok s₀ ∧ Reaches m.round s₀ s

/-- A sample of the `k`-th position of a game, and of the move made there.  The win
connection is left out, which a search may have recorded in between. -/
structure SampledAt (P : Position) (moves : List Nat) (k : Nat) (sample : Sample) :
    Prop where
  pos : SameButWin (P.playMoves (moves.take k)) sample.pos
  move : moves[k]? = some sample.move

/-- The samples were taken at `plies`, one after the other.  Which plies these are is left
open here, so that it can be said of every source of random numbers. -/
structure SampledAtPlies (P : Position) (moves : List Nat) (plies : List Nat)
    (samples : List Sample) : Prop where
  increasing : plies.Pairwise (· < ·)
  lt : ∀ k ∈ plies, k < moves.length
  sampled : List.Forall₂ (SampledAt P moves) plies samples

/-- **The invariant.** The game has gone from `P` through `moves`.  All that the loop
carries along is determined by the moves: the vector of the positions, the move that is
entered next, the engine whose turn it is, and the samples.  Everything that is proved about
games is read off it. -/
structure Playing (m : Match) (P : Position) (moves : List Nat) (s : PlayState) : Prop where
  ply : s.game.ply = moves.length
  posSize : s.game.posSize = moves.length + 1
  gameRule : s.game.gameRule = m.options.gameRule
  names : ∀ color,
    s.game.names color = m.engineName (engineOfColor P.playerToMove m.reverse color)
  played : s.played = moves.getLast?.getD noneMove
  legal : P.LegalMoves moves
  pos : ∀ k ≤ moves.length,
    SameButWin (P.playMoves (moves.take k)) (s.enterPly.game.pos k)
  seat : engineOfColor P.playerToMove m.reverse (P.playMoves moves).playerToMove = s.ei
  samples : ∃ plies, SampledAtPlies P moves plies s.game.samples

variable {m : Match} {P : Position} {moves : List Nat} {s s' t : PlayState}
  {size : Nat} {cells : List (Int × Int)}

theorem SampledAtPlies.append_move {plies : List Nat} {samples : List Sample}
    (h : SampledAtPlies P moves plies samples) (move : Nat) :
    SampledAtPlies P (moves ++ [move]) plies samples where
  increasing := h.increasing
  lt := by
    intro k hk
    have := h.lt k hk
    rw [List.length_append]
    omega
  sampled := by
    refine List.forall₂_iff_get.mpr ⟨h.sampled.length_eq, fun i hi hi' => ?_⟩
    have hlt : plies.get ⟨i, hi⟩ < moves.length := h.lt _ (List.get_mem _ _)
    have hsample : SampledAt P moves (plies.get ⟨i, hi⟩) (samples.get ⟨i, hi'⟩) :=
      h.sampled.get hi hi'
    constructor
    · rw [List.take_append_of_le_length (by omega)]
      exact hsample.pos
    · rw [List.getElem?_append_left hlt, hsample.move]

theorem SampledAtPlies.append_sample {plies : List Nat} {samples : List Sample} {k : Nat}
    {sample : Sample} (h : SampledAtPlies P moves plies samples) (hlast : ∀ l ∈ plies, l < k)
    (hk : k < moves.length) (hsample : SampledAt P moves k sample) :
    SampledAtPlies P moves (plies ++ [k]) (samples ++ [sample]) where
  increasing := by
    rw [List.pairwise_append]
    refine ⟨h.increasing, List.pairwise_singleton _ _, fun l hl l' hl' => ?_⟩
    rw [List.mem_singleton.mp hl']
    exact hlast l hl
  lt := by
    intro l hl
    rcases List.mem_append.mp hl with hmem | heq
    · exact h.lt l hmem
    · rwa [List.mem_singleton.mp heq]
  sampled := List.rel_append h.sampled (List.Forall₂.cons hsample List.Forall₂.nil)

/-- The position in play is the one after all the moves. -/
theorem Playing.position (h : Playing m P moves s) :
    SameButWin (P.playMoves moves) s.enterPly.position := by
  have hpos := h.pos moves.length (le_refl _)
  rw [List.take_length, ← h.ply, ← enterPly_ply s] at hpos
  exact hpos

theorem Playing.asked_position (h : Playing m P moves s) :
    SameButWin (P.playMoves moves) (asked s).position :=
  h.position.trans (asked_sameTurn s).position

theorem Playing.follows (h : Playing m P moves s) (hstart : P.Follows size cells) :
    (asked s).position.Follows size (cells ++ moveCells moves) :=
  h.asked_position.follows (hstart.playMoves h.legal)

theorem Playing.shape (h : Playing m P moves s) (hstart : P.Follows size cells) :
    (asked s).position.BoardShape :=
  (h.follows hstart).shape

/-- The engine that is asked sits on the side to move.  The index is toggled and the side is
computed from the position, and neither knows of the other. -/
theorem Playing.asked_seat (h : Playing m P moves s) :
    engineOfColor P.playerToMove m.reverse (asked s).position.playerToMove = s.ei := by
  rw [h.asked_position.playerToMove, h.seat]

/-- The seats of the two colours are different. -/
theorem engineOfColor_opponent (turn : Color) (reverse : Bool) {color : Color}
    (hcolor : color.IsStone) :
    engineOfColor turn reverse (opponentColor color) = !engineOfColor turn reverse color := by
  rcases hcolor with rfl | rfl <;> cases turn <;> cases reverse <;> rfl

theorem Accepts.ne_noneMove {played : Nat} (h : m.Accepts s played) : played ≠ noneMove := by
  rw [gomostrToMove_eq_some h.reads]
  exact buildMove_ne_noneMove _ _ _

/-- The positions at the head of the next round: the new one is the last one after
the move. -/
theorem enterPly_pos_recordPhase (hply : t.game.ply = moves.length)
    (hsize : t.game.posSize = moves.length + 1) (hne : t.played ≠ noneMove)
    (hpos : ∀ k ≤ moves.length, SameButWin (P.playMoves (moves.take k)) (t.game.pos k)) :
    ∀ k ≤ (moves ++ [t.played]).length,
      SameButWin (P.playMoves ((moves ++ [t.played]).take k))
        ((m.recordPhase t).enterPly.game.pos k) := by
  have hnext : (m.recordPhase t).game.ply = moves.length + 1 := by
    rw [← hply]
    rfl
  have hkept : ∀ k ≤ moves.length, (m.recordPhase t).game.pos k = t.game.pos k := by
    intro k hk
    change Function.update t.game.pos t.game.posSize (Position.new 15) k = _
    rw [Function.update_of_ne (by omega)]
  intro k hk
  rw [List.length_append, List.length_singleton] at hk
  rcases eq_or_lt_of_le hk with rfl | hlt
  · have hself := enterPly_position_next (s := m.recordPhase t) hne
    rw [hnext, Nat.add_sub_cancel, hkept _ (le_refl _)] at hself
    have hentered : (m.recordPhase t).enterPly.game.pos (moves.length + 1) =
        (t.game.pos moves.length).move t.played := by
      rw [← hnext, ← enterPly_ply]
      exact hself
    have hlast := hpos moves.length (le_refl _)
    rw [List.take_length] at hlast
    rw [hentered, List.take_of_length_le (by simp), playMoves_append_singleton]
    exact hlast.move _
  · rw [enterPly_pos_of_ne _ (by omega), hkept k (by omega),
      List.take_append_of_le_length (by omega)]
    exact hpos k (by omega)

/-- Recording a ply adds at most the sample of this ply, behind those of the plies before. -/
theorem SampledAtPlies.recordPhase {plies : List Nat}
    (h : SampledAtPlies P moves plies t.game.samples)
    (hhere : SameButWin (P.playMoves moves) t.position) :
    ∃ plies', SampledAtPlies P (moves ++ [t.played]) plies' (m.recordPhase t).game.samples := by
  have hold := h.append_move t.played
  have hsamples : (m.recordPhase t).game.samples =
      if m.options.writeSamples && m.sampled t.game.ply then
        t.game.samples ++ [m.sampleOf t] else t.game.samples := rfl
  rw [hsamples]
  by_cases hwrite : (m.options.writeSamples && m.sampled t.game.ply) = true
  · rw [if_pos hwrite]
    refine ⟨plies ++ [moves.length], hold.append_sample h.lt (by simp) ⟨?_, ?_⟩⟩
    · rw [List.take_left]
      exact hhere
    · rw [List.getElem?_concat_length]
      rfl
  · rw [if_neg hwrite]
    exact ⟨plies, hold⟩

/-- **One round adds one legal move.** The rest of the invariant follows from how a round
goes on (`Continues`). -/
theorem Playing.step (h : Playing m P moves s) (hstart : P.Follows size cells)
    (hround : m.round s = .ok s') : Playing m P (moves ++ [s'.played]) s' := by
  obtain ⟨haccepts, -, -, t, hsame, -, -, -, rfl⟩ :=
    continues_of_round (h.shape hstart) hround
  -- from the head of the round to the point where it is recorded
  have hturn : SameTurn s.enterPly t := (asked_sameTurn s).trans hsame
  have hply : t.game.ply = moves.length := by rw [hturn.ply, enterPly_ply, h.ply]
  have hsize : t.game.posSize = moves.length + 1 := by
    rw [hturn.posSize, enterPly_posSize, h.posSize]
  have hne : t.played ≠ noneMove := haccepts.ne_noneMove
  have hlegal : (P.playMoves moves).isLegalMove t.played = true := by
    rw [← h.asked_position.isLegalMove]
    exact haccepts.legal
  have hhere : SameButWin (P.playMoves moves) t.position := h.position.trans hturn.position
  have hpos : ∀ k ≤ moves.length, SameButWin (P.playMoves (moves.take k)) (t.game.pos k) := by
    intro k hk
    rcases eq_or_ne k moves.length with rfl | hne
    · rw [List.take_length, ← hply]
      exact hhere
    · rw [hturn.pos_of_ne k (by rw [enterPly_ply, h.ply]; exact hne)]
      exact h.pos k hk
  refine ⟨?_, ?_, ?_, ?_, ?_, h.legal.append_singleton hlegal hne,
    enterPly_pos_recordPhase hply hsize hne hpos, ?_, ?_⟩
  · change t.game.ply + 1 = _
    rw [hply, List.length_append, List.length_singleton]
  · change t.game.posSize + 1 = _
    rw [hsize, List.length_append, List.length_singleton]
  · change t.game.gameRule = _
    rw [hturn.gameRule, enterPly_gameRule, h.gameRule]
  · intro color
    change t.game.names color = _
    rw [hturn.names, enterPly_names, h.names]
  · simp
  · -- the turn passes to the other colour, and to the other engine
    have hstone : (P.playMoves moves).playerToMove.IsStone :=
      (hstart.playMoves h.legal).turn_isStone
    change engineOfColor _ _ (P.playMoves (moves ++ [t.played])).playerToMove = !t.ei
    rw [playMoves_append_singleton, move_playerToMove, engineOfColor_opponent _ _ hstone, h.seat,
      hturn.ei, enterPly_ei]
  · obtain ⟨plies, hplies⟩ := h.samples
    have hsamples : t.game.samples = s.game.samples := by
      rw [hturn.samples, enterPly_samples]
    exact (hsamples ▸ hplies).recordPhase hhere

/-! ## The start of a game -/

/-- What an accepted opening makes of a new game: one position, which is that of the line or
its image, and nothing else. -/
theorem Loads.opened {g : Game} (h : Loads m g) :
    ∃ openingStr currentRound,
      ((Position.new m.options.boardSize).applyOpening openingStr
        m.options.openingType).1 = true ∧
      g.pos 0 =
        (if m.options.transform then
          ((Position.new m.options.boardSize).applyOpening openingStr
            m.options.openingType).2.transform (Game.transformOfRound currentRound)
        else ((Position.new m.options.boardSize).applyOpening openingStr
          m.options.openingType).2) ∧
      g.posSize = 1 ∧ g.ply = 0 ∧ g.samples = [] := by
  obtain ⟨openingStr, currentRound, color, hload⟩ := h.loaded
  have hnew : (Function.update Game.new.pos Game.new.posSize
      (Position.new m.options.boardSize)) 0 = Position.new m.options.boardSize :=
    Function.update_self _ _ _
  unfold Game.loadOpening at hload
  simp only [hnew] at hload
  by_cases hok : ((Position.new m.options.boardSize).applyOpening openingStr
      m.options.openingType).1 = true
  · rw [if_pos hok, Option.some.injEq, Prod.mk.injEq] at hload
    obtain ⟨rfl, -⟩ := hload
    refine ⟨openingStr, currentRound, hok, ?_, rfl, rfl, rfl⟩
    simp only [Function.update_self]
  · rw [if_neg hok] at hload
    cases hload

theorem loads_ofOpening {openingStr : List Char} (hsize : m.options.boardSize ≤ 22)
    (hok : (Game.new.loadOpening openingStr m.options 0).isSome = true) :
    Loads m (Game.ofOpening openingStr m.options) := by
  obtain ⟨⟨g, color⟩, hload⟩ := Option.isSome_iff_exists.mp hok
  refine ⟨hsize, openingStr, 0, color, ?_⟩
  rw [Game.ofOpening, hload, Option.getD_some]

theorem Loads.follows {g : Game} (h : Loads m g) :
    ∃ cells, (g.pos 0).Follows m.options.boardSize cells ∧
      (cells.Nodup → (g.pos 0).Coloured) := by
  obtain ⟨openingStr, currentRound, hok, hpos, -⟩ := h.opened
  obtain ⟨cells, hcells, hin⟩ := (applyOpening_fst_iff _ _ _).mp hok
  obtain ⟨hfollows, hcoloured⟩ :=
    playCells_initBoard (Position.new m.options.boardSize) h.size_le hin
  have hsnd := applyOpening_snd hcells hin
  rw [show (Position.new m.options.boardSize).boardSize = m.options.boardSize from rfl] at hsnd
  rw [← hsnd] at hfollows hcoloured
  rw [hpos]
  by_cases htransform : m.options.transform = true
  · rw [if_pos htransform]
    refine ⟨_, hfollows.transform _, fun hnodup => ?_⟩
    have hrep : ((Position.new m.options.boardSize).applyOpening openingStr
        m.options.openingType).2.Represents
          (⟨cells, hin, hnodup.of_map _⟩ : Record m.options.boardSize) :=
      ⟨hfollows, hcoloured⟩
    exact (hrep.transform _).coloured
  · rw [if_neg htransform]
    exact ⟨cells, hfollows, fun _ => hcoloured⟩

/-- An opening of distinct cells is a record. -/
theorem Loads.represents {g : Game} (h : Loads m g)
    (hnodup : (g.pos 0).historyCells.Nodup) :
    ∃ r : Record m.options.boardSize, (g.pos 0).Represents r := by
  obtain ⟨cells, hfollows, hcoloured⟩ := h.follows
  rw [hfollows.moves] at hnodup
  exact ⟨⟨cells, hfollows.inSquare, hnodup⟩, hfollows, hcoloured hnodup⟩

/-- What `load_opening` leaves in the rest of the object. -/
theorem Loads.fields {g : Game} (h : Loads m g) :
    g.posSize = 1 ∧ g.ply = 0 ∧ g.samples = [] := by
  obtain ⟨-, -, -, -, hfields⟩ := h.opened
  exact hfields

/-- `play` begins at the opening. -/
theorem Loads.initial_position {g : Game} (h : Loads m g) :
    (m.initial g).game.position = g.pos 0 := by
  obtain ⟨-, hply, -⟩ := h.fields
  change g.pos g.ply = g.pos 0
  rw [hply]

theorem Loads.info {g : Game} (h : Loads m g) : g.info = [] := by
  obtain ⟨openingStr, currentRound, color, hload⟩ := h.loaded
  unfold Game.loadOpening at hload
  dsimp only at hload
  split at hload
  · cases hload
    rfl
  · cases hload

/-- The engine that is the first to fail at `START`.  The second one is not started when the
first has failed. -/
def firstFailure (m : Match) : Option Bool :=
  if (m.startReply false).ok then
    if (m.startReply true).ok then none else some true
  else some false

/-- What the referee has written to an engine before the first round: the size of the board
and the settings. -/
def greeting (m : Match) (i : Bool) : List Event :=
  (.start m.options.boardSize :: gomocupGameInfoCommand (m.engineOptions i) m.options).map
    .sent

/-- The state at the head of the first round, when both engines have been started.  Nothing
has been asked yet, and neither engine can be sent a `TURN`. -/
structure Started (m : Match) (g : Game) (s : PlayState) : Prop where
  game : s.game = { (m.initial g).game with ply := 0 }
  played : s.played = noneMove
  ei : s.ei = m.reverse
  canUseTurn : ∀ i, s.canUseTurn i = false
  log : ∀ i, s.log i = m.greeting i

theorem writeln_log (s : PlayState) (i j : Bool) (commands : List Command) :
    (s.writeln i commands).log j =
      if j = i then s.log j ++ commands.map .sent else s.log j := by
  rw [writeln]
  by_cases h : j = i
  · subst h
    rw [if_pos rfl]
    exact Function.update_self _ _ _
  · rw [if_neg h]
    exact Function.update_of_ne h _ _

theorem startEngine_of_ok {i : Bool} (h : (m.startReply i).ok = true) (s : PlayState) :
    m.startEngine i s = .ok ((s.writeln i [.start m.options.boardSize]).writeln i
      (gomocupGameInfoCommand (m.engineOptions i) m.options)) := by
  simp [startEngine, h]

theorem startEngine_of_failed {i : Bool} (h : (m.startReply i).ok = false) (s : PlayState) :
    (m.options.fatalError = true ∧ m.startEngine i s = .error .exited) ∨
    (m.options.fatalError = false ∧
      ∃ final, m.startEngine i s = .error (.returned (resultOfLoser i) final) ∧
        final.game = { s.game with
          state := if (m.startReply i).crashed then .crashed else .timeLoss }) := by
  cases hfatal : m.options.fatalError with
  | true => exact Or.inl ⟨rfl, by simp [startEngine, h, hfatal]⟩
  | false =>
      refine Or.inr ⟨rfl, ?_⟩
      simp only [startEngine, h, hfatal]
      exact ⟨_, rfl, rfl⟩

/-- **How the part before the loop ends**: with both engines started, or with the loss of
the first engine that failed, or with the end of the program if that is asked for. -/
theorem startPhase_cases (m : Match) (g : Game) :
    (m.firstFailure = none ∧ ∃ s, m.startPhase g = .ok s ∧ Started m g s) ∨
    (∃ i, m.firstFailure = some i ∧ m.options.fatalError = true ∧
      m.startPhase g = .error .exited) ∨
    (∃ i, m.firstFailure = some i ∧ m.options.fatalError = false ∧
      ∃ final, m.startPhase g = .error (.returned (resultOfLoser i) final) ∧
        final.game = { (m.initial g).game with
          state := if (m.startReply i).crashed then .crashed else .timeLoss }) := by
  -- `engines[0]` is started first, and its failure is the first one
  cases hfirst : (m.startReply false).ok with
  | false =>
      have hfailure : m.firstFailure = some false := by simp [firstFailure, hfirst]
      right
      obtain ⟨hfatal, herror⟩ | ⟨hfatal, final, herror, hgame⟩ :=
        startEngine_of_failed hfirst (m.initial g)
      · exact Or.inl ⟨false, hfailure, hfatal, bind_eq_error.mpr (Or.inl herror)⟩
      · exact Or.inr ⟨false, hfailure, hfatal, final, bind_eq_error.mpr (Or.inl herror), hgame⟩
  | true =>
      have hok := startEngine_of_ok hfirst (m.initial g)
      cases hsecond : (m.startReply true).ok with
      | false =>
          have hfailure : m.firstFailure = some true := by
            simp [firstFailure, hfirst, hsecond]
          right
          obtain ⟨hfatal, herror⟩ | ⟨hfatal, final, herror, hgame⟩ :=
            startEngine_of_failed hsecond (((m.initial g).writeln false
              [.start m.options.boardSize]).writeln false
                (gomocupGameInfoCommand (m.engineOptions false) m.options))
          · exact Or.inl ⟨true, hfailure, hfatal,
              bind_eq_error.mpr (Or.inr ⟨_, hok, bind_eq_error.mpr (Or.inl herror)⟩)⟩
          · exact Or.inr ⟨true, hfailure, hfatal, final,
              bind_eq_error.mpr (Or.inr ⟨_, hok, bind_eq_error.mpr (Or.inl herror)⟩), hgame⟩
      | true =>
          left
          refine ⟨by simp [firstFailure, hfirst, hsecond], _,
            bind_eq_ok.mpr ⟨_, hok, bind_eq_ok.mpr ⟨_, startEngine_of_ok hsecond _, rfl⟩⟩, ?_⟩
          refine ⟨rfl, rfl, rfl, fun _ => rfl, fun i => ?_⟩
          change (PlayState.writeln _ _ _).log i = _
          simp only [writeln_log, greeting]
          cases i <;> simp [initial]

/-! ## From the first round to the last -/

section Run

variable {g : Game}

theorem Playing.init (h : Loads m g) (hstart : Started m g s) :
    Playing m (g.pos 0) [] s := by
  obtain ⟨hsize, -, hsamples⟩ := h.fields
  obtain ⟨cells, hfollows, -⟩ := h.follows
  have hgame := hstart.game
  refine ⟨by rw [hgame]; rfl, ?_, by rw [hgame]; rfl, fun _ => by rw [hgame]; rfl,
    hstart.played, legalMoves_nil _, ?_, ?_, [], List.Pairwise.nil, by simp, ?_⟩
  · rw [hgame]
    exact hsize
  · intro k hk
    rw [List.length_nil, Nat.le_zero] at hk
    subst hk
    have hpos : s.enterPly.game.pos 0 = g.pos 0 := by
      have hfirst := enterPly_position_first s hstart.played
      rw [PlayState.position, Game.position, enterPly_ply, hgame] at hfirst
      exact hfirst
    rw [hpos]
    rfl
  · rw [hstart.ei, playMoves_nil, engineOfColor]
    rcases hfollows.turn_isStone with hturn | hturn <;> rw [hturn] <;> cases m.reverse <;> rfl
  · rw [hgame]
    change List.Forall₂ _ [] g.samples
    rw [hsamples]
    exact List.Forall₂.nil

/-- The loop is reached only when both engines have started. -/
theorem started_of_startPhase {s₀ : PlayState} (hs₀ : m.startPhase g = .ok s₀) :
    m.firstFailure = none ∧ Started m g s₀ := by
  obtain ⟨hnone, s₁, hok, hstarted⟩ | ⟨_, -, -, herror⟩ | ⟨_, -, -, _, herror, -⟩ :=
    startPhase_cases m g
  · rw [hs₀, Except.ok.injEq] at hok
    exact ⟨hnone, hok ▸ hstarted⟩
  · rw [hs₀] at herror
    cases herror
  · rw [hs₀] at herror
    cases herror

theorem exists_started (g : Game) (h : m.firstFailure = none) :
    ∃ s₀, m.startPhase g = .ok s₀ ∧ Started m g s₀ := by
  obtain ⟨-, hstarted⟩ | ⟨_, hfailure, -⟩ | ⟨_, hfailure, -⟩ := startPhase_cases m g
  · exact hstarted
  · rw [h] at hfailure
    cases hfailure
  · rw [h] at hfailure
    cases hfailure

theorem AtRound.firstFailure_eq (hs : AtRound m g s) : m.firstFailure = none := by
  obtain ⟨s₀, hs₀, -⟩ := hs
  exact (started_of_startPhase hs₀).1

/-- **Every round of every game** is described by the opening and the moves made since.  By
induction on the rounds, of which each has added one move. -/
theorem AtRound.playing (h : Loads m g) (hs : AtRound m g s) :
    ∃ moves, Playing m (g.pos 0) moves s := by
  obtain ⟨s₀, hs₀, hreach⟩ := hs
  obtain ⟨cells, hfollows, -⟩ := h.follows
  -- by induction on the rounds, with one more move for each
  refine hreach.invariant (fun s => ∃ moves, Playing m (g.pos 0) moves s)
    ⟨[], Playing.init h (started_of_startPhase hs₀).2⟩ ?_
  rintro t t' - ⟨moves, hplaying⟩ hround
  exact ⟨_, hplaying.step hfollows hround⟩

/-- The head of the first round, when both engines have started. -/
def firstRound (m : Match) (g : Game) : PlayState :=
  match m.startPhase g with
  | .ok s => s
  | .error _ => m.initial g

theorem playing_firstRound (h : Loads m g) (hstarts : m.firstFailure = none) :
    Playing m (g.pos 0) [] (m.firstRound g) := by
  obtain ⟨s, hok, hstarted⟩ := exists_started g hstarts
  rw [firstRound, hok]
  exact Playing.init h hstarted

theorem atRound_firstRound (g : Game) (h : m.firstFailure = none) :
    AtRound m g (m.firstRound g) := by
  obtain ⟨s, hok, -⟩ := exists_started g h
  refine ⟨s, hok, ?_⟩
  rw [firstRound, hok]
  exact Reaches.refl s

/-- The head of the round behind `n` others, or of the last one if the game ends before.
With it a round of a concrete game is found by evaluation. -/
def headAfter (m : Match) (g : Game) : Nat → PlayState
  | 0 => m.firstRound g
  | n + 1 =>
      match m.round (m.headAfter g n) with
      | .ok s => s
      | .error _ => m.headAfter g n

/-- A game that can be computed reaches the rounds that are computed. -/
theorem atRound_headAfter (g : Game) (h : m.firstFailure = none) (n : Nat) :
    AtRound m g (m.headAfter g n) := by
  induction n with
  | zero => exact atRound_firstRound g h
  | succ n ih =>
      rw [headAfter]
      split
      next s hround =>
        obtain ⟨s₀, hs₀, hreach⟩ := ih
        exact ⟨s₀, hs₀, hreach.tail hround⟩
      next => exact ih

theorem AtRound.shape (h : Loads m g) (hs : AtRound m g s) :
    (asked s).position.BoardShape := by
  obtain ⟨cells, hfollows, -⟩ := h.follows
  obtain ⟨moves, hplaying⟩ := hs.playing h
  exact hplaying.shape hfollows

/-- What a round that goes on preserves holds at the head of every round.  The step is given
how the round went on, and need not look at its phases. -/
theorem AtRound.invariant (Inv : PlayState → Prop) (h : Loads m g)
    (hinit : ∀ s₀, Started m g s₀ → Inv s₀)
    (hstep : ∀ t t', AtRound m g t → Inv t → m.round t = .ok t' → Continues m t t' → Inv t')
    (hs : AtRound m g s) : Inv s := by
  obtain ⟨s₀, hs₀, hreach⟩ := hs
  refine hreach.invariant Inv (hinit s₀ (started_of_startPhase hs₀).2) ?_
  intro t t' htreach ht hround
  have hat : AtRound m g t := ⟨s₀, hs₀, htreach⟩
  exact hstep t t' hat ht hround (continues_of_round (hat.shape h) hround)

/-- **`play` always ends**, after at most one round more than there are cells.  Nothing is
assumed of the engines, which may also answer nonsense: an answer that is not accepted ends
the game. -/
theorem exists_play (h : Loads m g) : ∃ e, m.play g = some e := by
  obtain ⟨cells, hfollows, -⟩ := h.follows
  rw [play]
  obtain ⟨-, s₀, hok, hstarted⟩ | ⟨_, -, -, herror⟩ | ⟨_, -, -, _, herror, -⟩ :=
    startPhase_cases m g
  case inr.inl => exact ⟨_, by rw [herror]⟩
  case inr.inr => exact ⟨_, by rw [herror]⟩
  have hrun : ∃ e, run m.round playFuel s₀ = some e := by
    refine run_of_measure (fun s => ∃ moves, Playing m (g.pos 0) moves s)
      (fun s => 485 - s.game.ply) ?_ ?_ ⟨[], Playing.init h hstarted⟩ ?_
    · rintro t t' ⟨moves, hplaying⟩ hround
      exact ⟨_, hplaying.step hfollows hround⟩
    · rintro t t' ⟨moves, hplaying⟩ hround
      have hnext := hplaying.step hfollows hround
      have hlen := hfollows.length_moves_le hnext.legal
      rw [hplaying.ply, hnext.ply]
      rw [List.length_append, List.length_singleton] at hlen ⊢
      omega
    · change 485 - s₀.game.ply < 1025
      omega
  obtain ⟨e, he⟩ := hrun
  exact ⟨finish e, by simp only [hok, he, Option.map_some]⟩

/-- Where `play` returns: at `START`, or from a reachable round that is left by
`break`. -/
theorem returned_rounds {result : Result} {final : PlayState}
    (hplay : m.play g = some (.returned result final)) :
    (∃ i, m.firstFailure = some i ∧ m.options.fatalError = false ∧ result = resultOfLoser i ∧
      final.game = { (m.initial g).game with
        state := if (m.startReply i).crashed then .crashed else .timeLoss }) ∨
    (∃ s t, m.firstFailure = none ∧ AtRound m g s ∧ m.round s = .error (.broke t) ∧
      result = (if t.game.state.code < stateSeparator then resultOfLoser t.ei else .draw) ∧
      final = { t with game := { t.game with samples := fillSamples t.game } }) := by
  rw [play] at hplay
  obtain ⟨hnone, s₀, hok, -⟩ | ⟨_, -, -, herror⟩ | ⟨i, hfailure, hfatal, final', herror, hgame⟩ :=
    startPhase_cases m g
  case inr.inl =>
    rw [herror] at hplay
    cases hplay
  case inr.inr =>
    rw [herror] at hplay
    cases hplay
    exact Or.inl ⟨i, hfailure, hfatal, rfl, hgame⟩
  right
  rw [hok] at hplay
  obtain ⟨e, he, hfinish⟩ := Option.map_eq_some_iff.mp hplay
  obtain ⟨s, hreach, hleft⟩ := reaches_of_run he
  cases e with
  | exited => cases hfinish
  | aborted => cases hfinish
  | broke t =>
      rw [finish, PlayEnd.returned.injEq] at hfinish
      exact ⟨s, t, hnone, ⟨s₀, hok, hreach⟩, hleft, hfinish.1.symm, hfinish.2.symm⟩

/-- **Where a finished game was left**: at `START`, or in a reachable round.  In the second
case the round was left for one of the reasons of the source, from which the result was
computed. -/
theorem returned_cases {result : Result} {final : PlayState} (h : Loads m g)
    (hplay : m.play g = some (.returned result final)) :
    (∃ i, m.firstFailure = some i ∧ m.options.fatalError = false ∧ result = resultOfLoser i ∧
      final.game = { (m.initial g).game with
        state := if (m.startReply i).crashed then .crashed else .timeLoss }) ∨
    (∃ s t, m.firstFailure = none ∧ AtRound m g s ∧ Breaks m s t ∧
      result = (if t.game.state.code < stateSeparator then resultOfLoser t.ei else .draw) ∧
      final = { t with game := { t.game with samples := fillSamples t.game } }) := by
  refine (returned_rounds hplay).imp_right ?_
  rintro ⟨s, t, hnone, hat, hleft, hresult, hfinal⟩
  exact ⟨s, t, hnone, hat, breaks_of_round (hat.shape h) hleft, hresult, hfinal⟩

/-! ## Games on distinct cells -/

/-- Every accepted answer names a cell of the board.  The referee does not see to this
(`wrappedCell`), and so it is assumed where the cells of a game have to be those that were
named. -/
def AnswersInSquare (m : Match) (g : Game) : Prop :=
  ∀ s s', AtRound m g s → m.round s = .ok s' →
    InSquare m.options.boardSize (answeredCell (m.moveReply s.game.ply).bestmove)

/-- An accepted answer that names a cell of the board is the stone of the side to move on
this cell, and its colour bits are those of this side. -/
theorem accepted_of_inSquare {P : Position} {bestmove : List Char} {played size : Nat}
    (hsize : size ≤ 22) (hreads : P.gomostrToMove bestmove = some played)
    (hin : InSquare size (answeredCell bestmove)) :
    cellOf (posFromMove played) = answeredCell bestmove ∧
      colorFromMove played = P.playerToMove.code := by
  rw [gomostrToMove_eq_some hreads]
  constructor
  · rw [cellOf_posFromMove_buildMove]
    exact wrappedCell_of_inSquare hsize hin
  · exact colorFromMove_buildMove hsize hin _

/-- An answer on the board extends the record of the game. -/
theorem Playing.represents_step (hplaying : Playing m P moves s) {r : Record size}
    (hrep : (P.playMoves moves).Represents r) (haccepts : m.Accepts s s'.played)
    (hin : InSquare size (answeredCell (m.moveReply s.game.ply).bestmove)) :
    ∃ r' : Record size, r'.cells = r.cells ++ [cellOf (posFromMove s'.played)] ∧
      (P.playMoves (moves ++ [s'.played])).Represents r' := by
  have hsame := hplaying.asked_position
  obtain ⟨-, hcolor⟩ := accepted_of_inSquare hrep.follows.size_le haccepts.reads hin
  have hlegal := haccepts.legal
  rw [hsame.isLegalMove] at hlegal
  rw [hsame.playerToMove] at hcolor
  rw [playMoves_append_singleton]
  exact hrep.move hlegal hcolor

end Run

end Match

end GomokuCli
