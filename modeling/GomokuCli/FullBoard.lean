import GomokuCli.Mirror

/-!
# Games that fill the board

The loop of `play` has no condition.  It ends because every accepted answer fills
a cell that was empty, whatever the engines answer, on the board or off it, and
because a full board ends the game before anyone is asked to move on it.
`get_moves_left` decides that by counting moves; the count is the number of stones
as long as the cells are distinct, which the legality check keeps up.
-/

namespace GomokuCli

open EarlyExit

/-- A record is as long as the square is large exactly when it has every cell. -/
theorem Record.length_eq_iff {size : Nat} (r : Record size) :
    r.cells.length = size * size ↔ ∀ c, InSquare size c → c ∈ r.cells := by
  have hmem (c : Int × Int) :
      c ∈ Finset.Ico (0 : ℤ) size ×ˢ Finset.Ico (0 : ℤ) size ↔ InSquare size c := by
    rw [Finset.mem_product, Finset.mem_Ico, Finset.mem_Ico]
    rfl
  have hsub : r.cells.toFinset ⊆ Finset.Ico (0 : ℤ) size ×ˢ Finset.Ico (0 : ℤ) size :=
    fun c hc => (hmem c).mpr (r.inSquare c (List.mem_toFinset.mp hc))
  have hcard : (Finset.Ico (0 : ℤ) size ×ˢ Finset.Ico (0 : ℤ) size).card = size * size := by
    simp
  rw [← List.toFinset_card_of_nodup r.nodup, ← hcard]
  constructor
  · intro h c hc
    have heq := Finset.eq_of_subset_of_card_le hsub h.ge
    rw [← List.mem_toFinset, heq]
    exact (hmem c).mpr hc
  · intro h
    refine congrArg Finset.card (Finset.Subset.antisymm hsub fun c hc => ?_)
    exact List.mem_toFinset.mpr (h c ((hmem c).mp hc))

namespace Position

/-- No cell of the board is empty.  The program never asks for it, but compares the number
of moves with the number of cells. -/
def Full (P : Position) : Prop := ∀ c, InSquare P.boardSize c → P.grid c ≠ .empty

/-- On distinct cells the board is full when the count of moves says so.  If a cell was
played twice, the count would reach the number of cells too early. -/
theorem Follows.full_iff {P : Position} {size : Nat} {r : Record size}
    (h : P.Follows size r.cells) : P.Full ↔ P.moveCount = size * size := by
  have hempty (c : Int × Int) (hc : InSquare size c) :
      stones size r.cells c ≠ .empty ↔ c ∈ r.cells := by
    rw [ne_eq, stones_eq_empty_iff]
    constructor
    · intro hnot
      by_contra hmem
      exact hnot ⟨hc, hmem⟩
    · exact fun hmem hnot => hnot.2 hmem
  rw [h.moveCount, r.length_eq_iff, Full, h.boardSize, h.grid_eq]
  exact forall₂_congr hempty

theorem Follows.getMovesLeft_eq_zero_iff {P : Position} {size : Nat} {r : Record size}
    (h : P.Follows size r.cells) : P.getMovesLeft = 0 ↔ P.Full := by
  rw [h.full_iff, getMovesLeft, h.sqr]
  omega

end Position

namespace Match

open PlayState Position

variable {m : Match} {g : Game} {s t : PlayState} {moves : List Nat}

/-! ## Answers that are converted -/

/-- `std::stoi` converts both coordinates of the answer.  It need not name a cell of the
board. -/
def Converted (movestr : List Char) : Prop :=
  (stoi (movestr.take (findComma movestr).1)).isSome = true ∧
    (stoi (movestr.drop ((findComma movestr).1 + 1))).isSome = true

/-- Every answer that is handed to `std::stoi` can be converted.  Without this the program
may end with an exception in the middle of a game. -/
def AnswersConvert (m : Match) (g : Game) : Prop :=
  ∀ s, AtRound m g s → (m.moveReply s.game.ply).ok = true → ¬ m.SoftTimeout (m.answering s) →
    Converted (m.moveReply s.game.ply).bestmove

theorem Converted.gomostrToMove_ne_none {movestr : List Char} (h : Converted movestr)
    (P : Position) : P.gomostrToMove movestr ≠ none := by
  obtain ⟨hx, hy⟩ := h
  obtain ⟨x, hx⟩ := Option.isSome_iff_exists.mp hx
  obtain ⟨y, hy⟩ := Option.isSome_iff_exists.mp hy
  simp [gomostrToMove, hx, hy]

theorem judgeMove_ne_aborted (s : PlayState) : judgeMove s ≠ .error .aborted := by
  unfold judgeMove
  split
  · simp [stop]
  · split
    · simp only
      split <;> simp [stop]
    · simp

theorem drawPhase_ne_aborted (s : PlayState) : m.drawPhase s ≠ .error .aborted := by
  by_cases h : m.DrawsNow s
  · rw [drawPhase_of_drawsNow h]
    simp [stop]
  · obtain ⟨count, hcount⟩ := drawPhase_of_not_drawsNow h
    simp [hcount]

theorem resignPhase_ne_aborted (s : PlayState) : m.resignPhase s ≠ .error .aborted := by
  by_cases h : m.ResignsNow s
  · obtain ⟨count, hcount⟩ := resignPhase_of_resignsNow h
    simp [hcount, stop]
  · obtain ⟨count, hcount⟩ := resignPhase_of_not_resignsNow h
    simp [hcount]

/-- An exception comes from an answer in time that is not converted. -/
theorem reads_of_aborted (h : m.round s = .error .aborted) :
    (m.moveReply s.game.ply).ok = true ∧ ¬ m.SoftTimeout (m.answering s) ∧
      (asked s).position.gomostrToMove (m.moveReply s.game.ply).bestmove = none := by
  rw [round] at h
  rcases bind_eq_error.mp h with hrules | ⟨t, hrules, hanswer⟩
  · rcases rulesPhase_eq_error_iff.mp hrules with ⟨-, heq⟩ | ⟨-, -, heq⟩
    · cases heq
    · cases heq
  obtain ⟨-, -, rfl⟩ := rulesPhase_eq_ok_iff.mp hrules
  rcases bind_eq_error.mp hanswer with hanswer | ⟨t, -, hdraw⟩
  · rw [answerPhase_eq] at hanswer
    by_cases hok : (m.moveReply s.game.ply).ok = true
    · rw [if_pos hok] at hanswer
      by_cases htime : m.SoftTimeout (m.answering s)
      · rw [if_pos htime] at hanswer
        cases hanswer
      · rw [if_neg htime] at hanswer
        cases hreads : (asked s).position.gomostrToMove (m.moveReply s.game.ply).bestmove with
        | none => exact ⟨hok, htime, rfl⟩
        | some played =>
            rw [hreads] at hanswer
            exact absurd hanswer (judgeMove_ne_aborted _)
    · rw [if_neg hok] at hanswer
      split at hanswer
      · cases hanswer
      · cases hanswer
  · rcases bind_eq_error.mp hdraw with hdraw | ⟨t', -, hresign⟩
    · exact absurd hdraw (drawPhase_ne_aborted _)
    · rcases bind_eq_error.mp hresign with hresign | ⟨t'', -, hrecord⟩
      · exact absurd hresign (resignPhase_ne_aborted _)
      · cases hrecord

/-! ## One round -/

/-- The position in play is that of a record, which the opening has begun. -/
theorem AtRound.record (h : Loads m g) (hnodup : (g.pos 0).historyCells.Nodup)
    (hs : AtRound m g s) :
    ∃ r : Record m.options.boardSize, (asked s).position.Follows m.options.boardSize r.cells ∧
      r.cells.length = (g.pos 0).moveCount + s.game.ply := by
  obtain ⟨cells, hstart, -⟩ := h.follows
  obtain ⟨moves, hplaying⟩ := hs.playing h
  have hfollows := hplaying.follows hstart
  rw [hstart.moves] at hnodup
  refine ⟨⟨cells ++ moveCells moves, hfollows.inSquare,
    hstart.nodup_append hnodup hplaying.legal⟩, hfollows, ?_⟩
  rw [List.length_append, length_moveCells, hstart.moveCount, hplaying.ply]

/-- The rules let the game go on only with an empty cell on the board. -/
theorem asked_state_eq (s : PlayState) :
    (asked s).game.state =
      if (s.enterPly.position.checkFiveInLineLastmove
        (Game.allowLongConnection s.game.gameRule s.played)).1 then .fiveConnect
      else if (asked s).position.getMovesLeft = 0 then .drawInsufficientSpace else .none := by
  have hsame := (asked_sameTurn s).position
  have hleft : (asked s).position.getMovesLeft = s.enterPly.position.getMovesLeft := by
    rw [getMovesLeft, getMovesLeft, hsame.boardSizeSqr, hsame.moveCount]
  rw [asked_state, gameApplyRules_fst, hleft, enterPly_gameRule]
  rfl

/-- The search of a round is for a line of the last mover. -/
theorem AtRound.search_iff (h : Loads m g) (hs : AtRound m g s) (allow : Bool) :
    (s.enterPly.position.checkFiveInLineLastmove allow).1 = true ↔
      HasWinningLine (asked s).position.grid
        (opponentColor (asked s).position.playerToMove) allow := by
  obtain ⟨cells, hstart, -⟩ := h.follows
  obtain ⟨moves, hplaying⟩ := hs.playing h
  have hentered := hplaying.position.follows (hstart.playMoves hplaying.legal)
  have hsame := (asked_sameTurn s).position
  rw [hsame.grid, hsame.playerToMove]
  obtain hnil | ⟨init, c, hcells⟩ := List.eq_nil_or_concat' (cells ++ moveCells moves)
  · rw [hnil] at hentered
    rw [hentered.checkFiveInLineLastmove_nil, hentered.grid_eq]
    have hstone := hentered.turn_isStone.opponent
    exact iff_of_false Bool.false_ne_true (not_hasWinningLine_nil hstone allow)
  · rw [hcells] at hentered
    rw [hentered.checkFiveInLineLastmove_iff, hentered.grid_eq, hentered.turn_append_singleton,
      opponentColor_opponentColor]

/-- What holds in every round of a game with `opening` moves in its opening: the vector of
the positions grows with the plies, and neither the board nor an array is ever exceeded. -/
structure RoundBounds (m : Match) (opening : Nat) (s : PlayState) : Prop where
  posSize : s.game.posSize = s.game.ply + 1 ∧ (asked s).game.posSize = (asked s).game.ply + 1
  moveCount : (asked s).position.moveCount = opening + s.game.ply
  moveCount_le : (asked s).position.moveCount ≤ m.options.boardSize * m.options.boardSize
  index_lt : (asked s).position.moveCount < maxBoardSizeSqr
  accepted : ∀ played, m.Accepts s played →
    opening + (s.game.ply + 1) ≤ m.options.boardSize * m.options.boardSize
  notFull : ∀ t, m.rulesPhase s = .ok t → ¬ t.position.Full
  search : ∀ allow, (s.enterPly.position.checkFiveInLineLastmove allow).1 = true ↔
    HasWinningLine (asked s).position.grid
      (opponentColor (asked s).position.playerToMove) allow

theorem AtRound.roundBounds (h : Loads m g) (hnodup : (g.pos 0).historyCells.Nodup)
    (hs : AtRound m g s) : RoundBounds m (g.pos 0).moveCount s := by
  obtain ⟨r, hfollows, hlength⟩ := hs.record h hnodup
  obtain ⟨moves, hplaying⟩ := hs.playing h
  have hsize : s.game.posSize = s.game.ply + 1 := by rw [hplaying.posSize, hplaying.ply]
  have hcount : (asked s).position.moveCount = (g.pos 0).moveCount + s.game.ply := by
    rw [hfollows.moveCount, hlength]
  have hle : (asked s).position.moveCount ≤ m.options.boardSize * m.options.boardSize := by
    rw [hfollows.moveCount]
    exact r.length_le
  have hsquare : m.options.boardSize * m.options.boardSize ≤ 22 * 22 :=
    Nat.mul_le_mul h.size_le h.size_le
  refine ⟨⟨hsize, ?_⟩, hcount, hle, ?_, ?_, ?_, hs.search_iff h⟩
  · rw [(asked_sameTurn s).posSize, (asked_sameTurn s).ply, enterPly_posSize, enterPly_ply, hsize]
  · have hentries : maxBoardSizeSqr = 1024 := by decide
    omega
  · -- the cell of the answer is one that the record does not have yet
    intro played haccepts
    obtain ⟨hin, hnew⟩ := (hfollows.isLegalMove_iff played).mp haccepts.legal
    have hlonger := Record.length_le
      (⟨r.cells ++ [cellOf (posFromMove played)], (hfollows.move hin).inSquare,
        List.Nodup.append r.nodup (by simp) (by simpa using hnew)⟩ : Record m.options.boardSize)
    rw [List.length_append, List.length_singleton, hlength] at hlonger
    omega
  · intro t ht hfull
    obtain ⟨hstate, -, rfl⟩ := rulesPhase_eq_ok_iff.mp ht
    rw [asked_state_eq, if_pos (hfollows.getMovesLeft_eq_zero_iff.mpr hfull)] at hstate
    split at hstate
    · cases hstate
    · cases hstate

/-- On a full board the game ends before anyone is asked: as a draw, unless the last move
has made a line. -/
theorem AtRound.full (h : Loads m g) (hnodup : (g.pos 0).historyCells.Nodup)
    (hs : AtRound m g s) (hfull : (asked s).position.Full) :
    m.round s = .error (.broke (asked s)) ∧
      (asked s).game.state =
        if (s.enterPly.position.checkFiveInLineLastmove
          (Game.allowLongConnection s.game.gameRule s.played)).1 then .fiveConnect
        else .drawInsufficientSpace := by
  obtain ⟨r, hfollows, -⟩ := hs.record h hnodup
  have hstate := asked_state_eq s
  rw [if_pos (hfollows.getMovesLeft_eq_zero_iff.mpr hfull)] at hstate
  refine ⟨round_of_rulesPhase (rulesPhase_eq_error_iff.mpr (Or.inl ⟨?_, rfl⟩)), hstate⟩
  rw [hstate]
  split
  · simp
  · simp

/-! ## The whole game -/

/-- Only a fatal error ends the program. -/
theorem fatalError_of_exited (h : Loads m g) (hplay : m.play g = some .exited) :
    m.options.fatalError = true := by
  rw [play] at hplay
  obtain ⟨-, s₀, hok, -⟩ | ⟨_, -, hfatal, -⟩ | ⟨_, -, -, _, herror, -⟩ := startPhase_cases m g
  case inr.inl => exact hfatal
  case inr.inr =>
    rw [herror] at hplay
    cases hplay
  rw [hok] at hplay
  obtain ⟨e, he, hfinish⟩ := Option.map_eq_some_iff.mp hplay
  cases e with
  | aborted => cases hfinish
  | broke t => cases hfinish
  | exited =>
      obtain ⟨s, hreach, hleft⟩ := reaches_of_run he
      have hat : AtRound m g s := ⟨s₀, hok, hreach⟩
      obtain ⟨s', hs', -⟩ | ⟨t, ht, -⟩ | ⟨-, -, hfatal⟩ | ⟨ht, -⟩ := round_cases m (hat.shape h)
      · rw [hleft] at hs'
        cases hs'
      · rw [hleft] at ht
        cases ht
      · exact hfatal
      · rw [hleft] at ht
        cases ht

/-- Answers that convert raise no exception. -/
theorem play_ne_aborted (hconvert : AnswersConvert m g) : m.play g ≠ some .aborted := by
  intro hplay
  rw [play] at hplay
  obtain ⟨-, s₀, hok, -⟩ | ⟨_, -, -, herror⟩ | ⟨_, -, -, _, herror, -⟩ := startPhase_cases m g
  case inr.inl =>
    rw [herror] at hplay
    cases hplay
  case inr.inr =>
    rw [herror] at hplay
    cases hplay
  rw [hok] at hplay
  obtain ⟨e, he, hfinish⟩ := Option.map_eq_some_iff.mp hplay
  cases e with
  | exited => cases hfinish
  | broke t => cases hfinish
  | aborted =>
      obtain ⟨s, hreach, hleft⟩ := reaches_of_run he
      obtain ⟨hreplied, htime, hreads⟩ := reads_of_aborted hleft
      exact (hconvert s ⟨s₀, hok, hreach⟩ hreplied htime).gomostrToMove_ne_none _ hreads

/-- What a finished game has come to: a final state, within the bounds of the board.  A game
that has ended at `START` is one of no rounds. -/
structure EndBounds (m : Match) (opening : Nat) (final : PlayState) : Prop where
  state : final.game.state ≠ .none
  posSize : final.game.posSize = final.game.ply + 1
  moveCount : final.position.moveCount = opening + final.game.ply
  moveCount_le : opening + final.game.ply ≤ m.options.boardSize * m.options.boardSize

theorem endBounds_of_returned (h : Loads m g) (hnodup : (g.pos 0).historyCells.Nodup)
    {result : Result} {final : PlayState} (hplay : m.play g = some (.returned result final)) :
    EndBounds m (g.pos 0).moveCount final := by
  rcases returned_cases h hplay with ⟨i, -, -, -, hgame⟩ | ⟨s, t, -, hat, hbreaks, -, rfl⟩
  · obtain ⟨hsize, hply, -⟩ := h.fields
    obtain ⟨r, hrep⟩ := h.represents hnodup
    have hposition : final.position = g.pos 0 := by
      rw [PlayState.position, Game.position, hgame]
      exact congrArg g.pos hply
    have hply' : final.game.ply = 0 := by rw [hgame]; exact hply
    refine ⟨?_, ?_, ?_, ?_⟩
    · rw [hgame]
      simp only
      split
      · simp
      · simp
    · rw [hply', hgame]
      exact hsize
    · rw [hposition, hply', Nat.add_zero]
    · rw [hply', Nat.add_zero, hrep.follows.moveCount]
      exact r.length_le
  · have hbounds := hat.roundBounds h hnodup
    obtain ⟨r, hfollows, -⟩ := hat.record h hnodup
    have hsame := hbreaks.sameTurn
    have hply : t.game.ply = s.game.ply := hsame.ply.trans (asked_ply s)
    refine ⟨(hbreaks.terminal hfollows.turn_isStone).state, ?_, ?_, ?_⟩
    · change t.game.posSize = t.game.ply + 1
      rw [hsame.posSize, hsame.ply]
      exact hbounds.posSize.2
    · change t.position.moveCount = _ + t.game.ply
      rw [hsame.position.moveCount, hbounds.moveCount, hply]
    · change _ + t.game.ply ≤ _
      rw [hply, ← hbounds.moveCount]
      exact hbounds.moveCount_le

/-- A full board ends the game with the verdict of the rules. -/
theorem AtRound.returned_of_full (h : Loads m g) (hnodup : (g.pos 0).historyCells.Nodup)
    (hs : AtRound m g s) (hfull : (asked s).position.Full) :
    ∃ result final, m.play g = some (.returned result final) ∧
      final.game.state =
        if (s.enterPly.position.checkFiveInLineLastmove
          (Game.allowLongConnection s.game.gameRule s.played)).1 then .fiveConnect
        else .drawInsufficientSpace := by
  obtain ⟨hround, hstate⟩ := hs.full h hnodup hfull
  obtain ⟨s₀, hok, hreach⟩ := hs
  obtain ⟨e, he⟩ := exists_play h
  rw [play, hok] at he
  obtain ⟨e', hrun, -⟩ := Option.map_eq_some_iff.mp he
  have hleft : e' = .broke (asked s) := run_eq_of_reaches hreach hround hrun
  have hplay : m.play g = some (finish (.broke (asked s))) := by
    rw [play, hok]
    simp only [hrun, hleft, Option.map_some]
  exact ⟨_, _, hplay, hstate⟩

/-- **Every game comes to an end.** After an opening of distinct cells, with answers that
can be converted, `play` returns in a terminal state unless a fatal error ends the program,
no round exceeds the bounds of the board, and a full board ends the game as the search for a
line of the last mover decides.  The loop has no condition of its own: it is the empty cells
that run out. -/
theorem play_fills (h : Loads m g) (hnodup : (g.pos 0).historyCells.Nodup)
    (hconvert : AnswersConvert m g) :
    ((m.options.fatalError = true ∧ m.play g = some .exited) ∨
      ∃ result final, m.play g = some (.returned result final) ∧
        EndBounds m (g.pos 0).moveCount final) ∧
    (∀ s, AtRound m g s → RoundBounds m (g.pos 0).moveCount s) ∧
    ∀ s, AtRound m g s → (asked s).position.Full →
      ∃ result final, m.play g = some (.returned result final) ∧
        final.game.state =
          if (s.enterPly.position.checkFiveInLineLastmove
            (Game.allowLongConnection s.game.gameRule s.played)).1 then .fiveConnect
          else .drawInsufficientSpace := by
  refine ⟨?_, fun s hs => hs.roundBounds h hnodup, fun s hs => hs.returned_of_full h hnodup⟩
  obtain ⟨e, he⟩ := exists_play h
  cases e with
  | exited => exact Or.inl ⟨fatalError_of_exited h he, he⟩
  | aborted => exact absurd he (play_ne_aborted hconvert)
  | returned result final =>
      exact Or.inr ⟨result, final, he, endBounds_of_returned h hnodup he⟩

/-- An opening that leaves two cells of the smallest board that the options accept. -/
def twoLeft : Game :=
  Game.ofOpening "a1b1d1c1c2e1d2a2a3b2c3e2d3b3e3c4a4d4b4c5e4d5a5".toList
    { boardSize := 5, openingType := .pos }

/-- The engines fill them. -/
def fillsTwo : Match :=
  casual { boardSize := 5, openingType := .pos } fun ply =>
    if ply = 0 then "4,4".toList else "1,4".toList

/-- No line is made, and the third round finds the board full. -/
theorem play_fills_twoLeft :
    ∃ result final, fillsTwo.play twoLeft = some (.returned result final) ∧
      EndBounds fillsTwo 23 final ∧ final.game.state = .drawInsufficientSpace ∧
      RoundBounds fillsTwo 23 (fillsTwo.headAfter twoLeft 1) := by
  have hloads : Loads fillsTwo twoLeft := loads_ofOpening (by decide) (by decide +kernel)
  have hnodup : (twoLeft.pos 0).historyCells.Nodup := by decide +kernel
  have hcount : (twoLeft.pos 0).moveCount = 23 := by decide +kernel
  have hconvert : AnswersConvert fillsTwo twoLeft := by
    intro s _ _ _
    change Converted (if s.game.ply = 0 then "4,4".toList else "1,4".toList)
    split
    · exact ⟨by decide, by decide⟩
    · exact ⟨by decide, by decide⟩
  obtain ⟨hends, hrounds, hfilled⟩ := play_fills hloads hnodup hconvert
  rw [hcount] at hends hrounds
  have hat := atRound_headAfter (m := fillsTwo) twoLeft rfl
  have hfull : (asked (fillsTwo.headAfter twoLeft 2)).position.Full := by
    obtain ⟨r, hfollows, -⟩ := (hat 2).record hloads hnodup
    exact hfollows.full_iff.mpr (by decide +kernel)
  obtain ⟨result, final, hplay, hstate⟩ := hfilled _ (hat 2) hfull
  obtain ⟨hfatal, -⟩ | ⟨result', final', hplay', hbounds⟩ := hends
  · cases hfatal
  · cases hplay.symm.trans hplay'
    refine ⟨result, final, hplay, hbounds, hstate.trans ?_, hrounds _ (hat 1)⟩
    decide +kernel

end Match

end GomokuCli
