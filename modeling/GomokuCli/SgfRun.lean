import GomokuCli.Outcome
import GomokuCli.SgfText

/-!
# The exported game is the one that was played

`export_sgf` relies on the vector `info` being in step with the game: the
entry `k` must be what the `k`-th call of `bestmove` wrote.  Every round that asks
an engine appends one entry, also when it is then left, so at the end there are
`ply` entries for the played moves and perhaps one more, for an answer that was
rejected or a move that was adjudicated.  The export never reads that one.
-/

namespace GomokuCli

open EarlyExit

namespace Match

open PlayState Position

variable {m : Match} {g : Game} {s s' t : PlayState} {P : Position} {moves : List Nat}

/-! ## What a round does to the information list -/

/-- The state that a phase hands on or leaves the loop with. -/
def left : Except Stop PlayState → Option PlayState
  | .ok s => some s
  | .error (.broke s) => some s
  | .error _ => none

theorem left_bind {x : Except Stop PlayState} {f : PlayState → Except Stop PlayState}
    (h : left (x >>= f) = some t) :
    left x = some t ∨ ∃ u, x = .ok u ∧ left (f u) = some t := by
  cases x with
  | ok u => exact Or.inr ⟨u, rfl, h⟩
  | error e => exact Or.inl h

theorem asked_info (s : PlayState) : (asked s).game.info = s.game.info := by
  have hentered : s.enterPly.game.info = s.game.info := by
    unfold enterPly
    split <;> rfl
  change (s.enterPly.game.gameApplyRules s.enterPly.played).2.info = _
  rw [gameApplyRules_snd]
  exact hentered

theorem answering_info (s : PlayState) :
    (m.answering s).game.info = s.game.info ++ [(m.moveReply s.game.ply).moveInfo] := by
  change (asked s).game.info ++ [(m.moveReply (asked s).game.ply).moveInfo] = _
  rw [asked_info, asked_ply]

theorem judgeMove_info (h : left (judgeMove s) = some t) : t.game.info = s.game.info := by
  unfold judgeMove at h
  split at h
  · cases h
    rfl
  · split at h
    · dsimp only at h
      split at h
      · cases h
        rfl
      · cases h
        rfl
    · cases h
      rfl

theorem drawPhase_info (h : left (m.drawPhase s) = some t) : t.game.info = s.game.info := by
  unfold drawPhase at h
  split at h
  · dsimp only at h
    split at h
    · cases h
      rfl
    · cases h
      rfl
  · cases h
    rfl

theorem resignPhase_info (h : left (m.resignPhase s) = some t) : t.game.info = s.game.info := by
  unfold resignPhase at h
  split at h
  · dsimp only at h
    split at h
    · cases h
      rfl
    · cases h
      rfl
  · cases h
    rfl

theorem answerPhase_info (h : left (m.answerPhase (m.thinkPhase (asked s))) = some t) :
    t.game.info = s.game.info ++ [(m.moveReply s.game.ply).moveInfo] := by
  rw [answerPhase_eq] at h
  rw [← answering_info]
  split at h
  · split at h
    · cases h
      rfl
    · split at h
      · cases h
      · exact (judgeMove_info h).trans rfl
  · split at h
    · cases h
    · cases h
      rfl

/-- A round that goes on has appended what the engine handed back. -/
theorem round_info (h : m.round s = .ok s') :
    s'.game.info = s.game.info ++ [(m.moveReply s.game.ply).moveInfo] := by
  obtain ⟨t₁, hrules, h⟩ := bind_eq_ok.mp h
  obtain ⟨-, -, rfl⟩ := rulesPhase_eq_ok_iff.mp hrules
  obtain ⟨t₂, hanswer, h⟩ := bind_eq_ok.mp h
  obtain ⟨t₃, hdraw, h⟩ := bind_eq_ok.mp h
  obtain ⟨t₄, hresign, h⟩ := bind_eq_ok.mp h
  cases h
  have hu₂ := answerPhase_info (congrArg left hanswer)
  have hu₃ := drawPhase_info (congrArg left hdraw)
  have hu₄ := resignPhase_info (congrArg left hresign)
  exact hu₄.trans (hu₃.trans hu₂)

/-- A round that is left has appended it or not, but has taken nothing away. -/
theorem info_prefix_of_broke (h : m.round s = .error (.broke t)) :
    s.game.info <+: t.game.info := by
  have hround : left (m.round s) = some t := congrArg left h
  have happended : ∀ {u : PlayState},
      u.game.info = s.game.info ++ [(m.moveReply s.game.ply).moveInfo] →
        s.game.info <+: u.game.info := fun hu => ⟨_, hu.symm⟩
  rcases left_bind hround with hrules | ⟨u₁, hrules, hround⟩
  · -- left before the engine was asked
    cases hphase : m.rulesPhase s with
    | ok u =>
        obtain ⟨-, -, rfl⟩ := rulesPhase_eq_ok_iff.mp hphase
        rw [hphase] at hrules
        cases hrules
        rw [asked_info]
    | error e =>
        rw [hphase] at hrules
        rcases rulesPhase_eq_error_iff.mp hphase with ⟨-, rfl⟩ | ⟨-, -, hstop⟩
        · cases hrules
          rw [asked_info]
        · rw [← hstop] at hrules
          cases hrules
          exact (asked_info s).symm ▸ List.prefix_refl _
  obtain ⟨-, -, rfl⟩ := rulesPhase_eq_ok_iff.mp hrules
  rcases left_bind hround with hanswer | ⟨u₂, hanswer, hround⟩
  · exact happended (answerPhase_info hanswer)
  have hu₂ := answerPhase_info (congrArg left hanswer)
  rcases left_bind hround with hdraw | ⟨u₃, hdraw, hround⟩
  · exact happended ((drawPhase_info hdraw).trans hu₂)
  have hu₃ := drawPhase_info (congrArg left hdraw)
  rcases left_bind hround with hresign | ⟨u₄, hresign, hround⟩
  · exact happended ((resignPhase_info hresign).trans (hu₃.trans hu₂))
  have hu₄ := resignPhase_info (congrArg left hresign)
  cases hround
  exact happended (hu₄.trans (hu₃.trans hu₂))

theorem Continues.ply (h : Continues m s s') : s'.game.ply = s.game.ply + 1 := by
  obtain ⟨t, hsame, -, -, -, rfl⟩ := h.recorded
  exact congrArg (· + 1) (hsame.ply.trans (asked_ply s))

/-- **Every call of `bestmove` has its entry**: the one with the number `k` is what the call
at ply `k` wrote.  By induction on the rounds. -/
theorem AtRound.info_eq (h : Loads m g) (hs : AtRound m g s) :
    s.game.info = (List.range s.game.ply).map fun k => (m.moveReply k).moveInfo := by
  refine hs.invariant
    (fun s => s.game.info = (List.range s.game.ply).map fun k => (m.moveReply k).moveInfo) h ?_ ?_
  · intro s₀ hstarted
    rw [hstarted.game]
    exact h.info
  · intro t t' _ hinfo hround hcontinues
    rw [round_info hround, hinfo, hcontinues.ply, List.range_succ, List.map_append]
    rfl

/-- A game that ends at `START` is still the opening. -/
theorem opening_of_startFailure (h : Loads m g) {final : Game} {state : GameState}
    (hgame : final = { (m.initial g).game with state := state }) :
    final.ply = 0 ∧ final.position = g.pos 0 := by
  obtain ⟨-, hply, -⟩ := h.fields
  rw [hgame]
  exact ⟨hply, h.initial_position⟩

/-- The game that `play` returns has an entry for every played move, and the last
position is the opening with these moves. -/
theorem moves_of_returned (h : Loads m g) {result : Result} {final : PlayState}
    (hplay : m.play g = some (.returned result final)) :
    (List.range final.game.ply).map (fun k => (m.moveReply k).moveInfo) <+: final.game.info ∧
      ∃ moves, final.game.ply = moves.length ∧ (g.pos 0).LegalMoves moves ∧
        SameButWin ((g.pos 0).playMoves moves) final.position := by
  rcases returned_rounds hplay with ⟨i, -, -, -, hgame⟩ | ⟨s, t, -, hat, hleft, -, rfl⟩
  · -- at `START` nobody has been asked for a move yet
    obtain ⟨hply, hposition⟩ := opening_of_startFailure h hgame
    rw [hply, PlayState.position, hposition]
    exact ⟨List.nil_prefix, [], rfl, legalMoves_nil _, SameButWin.refl _⟩
  · obtain ⟨moves, hplaying⟩ := hat.playing h
    have hsame := (breaks_of_round (hat.shape h) hleft).sameTurn
    have hply : t.game.ply = s.game.ply := hsame.ply.trans (asked_ply s)
    have hinfo := info_prefix_of_broke hleft
    rw [hat.info_eq h] at hinfo
    refine ⟨by simpa only [hply] using hinfo, moves, hply.trans hplaying.ply, hplaying.legal, ?_⟩
    exact hplaying.asked_position.trans hsame.position

/-! ## The moves and their answers -/

/-- **The invariant of the answers.** The move `k` after the opening is the answer of the
call `k` of `bestmove`.  It needs the position to represent a game on distinct cells, so
that the history names the same cells as the moves. -/
structure Annotated (m : Match) (P : Position) (moves : List Nat) (s : PlayState) : Prop where
  playing : Playing m P moves s
  represents : ∃ r : Record m.options.boardSize,
    r.cells = P.historyCells ++ moveCells moves ∧ (P.playMoves moves).Represents r
  answers : moveCells moves =
    (List.range moves.length).map fun k => answeredCell (m.moveReply k).bestmove

theorem Annotated.step {cells : List (Int × Int)} (h : Annotated m P moves s)
    (hstart : P.Follows m.options.boardSize cells) (hround : m.round s = .ok s')
    (haccepts : m.Accepts s s'.played)
    (hin : InSquare m.options.boardSize (answeredCell (m.moveReply s.game.ply).bestmove)) :
    Annotated m P (moves ++ [s'.played]) s' := by
  obtain ⟨r, hcells, hrep⟩ := h.represents
  obtain ⟨r', hcells', hrep'⟩ := h.playing.represents_step hrep haccepts hin
  obtain ⟨hcell, -⟩ := accepted_of_inSquare hstart.size_le haccepts.reads hin
  refine ⟨h.playing.step hstart hround, ⟨r', ?_, hrep'⟩, ?_⟩
  · rw [hcells', hcells, moveCells_append_singleton, List.append_assoc]
  · rw [moveCells_append_singleton, h.answers, hcell, h.playing.ply, List.length_append,
      List.length_singleton, List.range_succ, List.map_append]
    rfl

theorem Annotated.init (h : Loads m g) (hnodup : (g.pos 0).historyCells.Nodup)
    (hstarted : Started m g s) : Annotated m (g.pos 0) [] s := by
  obtain ⟨r, hrep⟩ := h.represents hnodup
  refine ⟨Playing.init h hstarted, ⟨r, ?_, hrep⟩, rfl⟩
  rw [hrep.follows.moves]
  simp [moveCells]

theorem AtRound.annotated (h : Loads m g) (hnodup : (g.pos 0).historyCells.Nodup)
    (hanswers : AnswersInSquare m g) (hs : AtRound m g s) :
    ∃ moves, Annotated m (g.pos 0) moves s := by
  obtain ⟨cells, hfollows, -⟩ := h.follows
  refine hs.invariant (fun s => ∃ moves, Annotated m (g.pos 0) moves s) h ?_ ?_
  · intro s₀ hstarted
    exact ⟨[], Annotated.init h hnodup hstarted⟩
  · rintro t t' hat ⟨moves, hannotated⟩ hround hcontinues
    exact ⟨_, hannotated.step hfollows hround hcontinues.accepts (hanswers t t' hat hround)⟩

/-! ## The exported game -/

/-- What the export of a finished game can rely on: the history consists of the opening and
the answers, and there is an entry of `info` for every answer. -/
structure Exportable (m : Match) (g : Game) (final : Game) : Prop where
  represents : ∃ r : Record m.options.boardSize,
    r.cells = (g.pos 0).historyCells ++
      (List.range final.ply).map (fun k => answeredCell (m.moveReply k).bestmove) ∧
    final.position.Represents r
  info : (List.range final.ply).map (fun k => (m.moveReply k).moveInfo) <+: final.info

theorem exportable_of_returned (h : Loads m g) (hnodup : (g.pos 0).historyCells.Nodup)
    (hanswers : AnswersInSquare m g) {result : Result} {final : PlayState}
    (hplay : m.play g = some (.returned result final)) : Exportable m g final.game := by
  refine ⟨?_, (moves_of_returned h hplay).1⟩
  rcases returned_rounds hplay with ⟨i, -, -, -, hgame⟩ | ⟨s, t, -, hat, hleft, -, rfl⟩
  · obtain ⟨r, hrep⟩ := h.represents hnodup
    obtain ⟨hply, hposition⟩ := opening_of_startFailure h hgame
    refine ⟨r, ?_, hposition ▸ hrep⟩
    rw [hply, hrep.follows.moves]
    simp
  · obtain ⟨moves, hannotated⟩ := hat.annotated h hnodup hanswers
    obtain ⟨r, hcells, hrep⟩ := hannotated.represents
    have hsame := (breaks_of_round (hat.shape h) hleft).sameTurn
    have hply : t.game.ply = moves.length := by
      rw [hsame.ply, asked_ply, hannotated.playing.ply]
    refine ⟨r, ?_, (hannotated.playing.asked_position.trans hsame.position).represents hrep⟩
    rw [hcells, hannotated.answers]
    simp only [hply]

/-- The nodes that the export of a game should have: the moves of the opening, marked as
such, and the answer of every call of `bestmove` with the time that this call has measured.
Black begins.  Nothing of the last state is used but the number of plies. -/
def playedNodes (m : Match) (g : Game) (ply : Nat) : List Game.SgfMove :=
  (g.pos 0).historyCells.mapIdx (fun j c =>
      { color := (turnAt j).code, cell := c, comment := .openingMove }) ++
    (List.range ply).map fun k =>
      { color := (turnAt ((g.pos 0).moveCount + k)).code
        cell := answeredCell (m.moveReply k).bestmove
        comment := .time (m.moveReply k).moveInfo.time }

theorem Exportable.moveCount {final : Game} (h : Exportable m g final) :
    final.position.moveCount = (g.pos 0).moveCount + final.ply := by
  obtain ⟨r, hcells, hrep⟩ := h.represents
  rw [hrep.follows.moveCount, hcells]
  simp

theorem Exportable.sgfMoves_eq {final : Game} (h : Exportable m g final) :
    final.sgfMoves (g.pos 0).moveCount = playedNodes m g final.ply := by
  obtain ⟨r, hcells, hrep⟩ := h.represents
  have hcount := h.moveCount
  refine List.ext_getElem ?_ fun j hj hj' => ?_
  · simp [Game.sgfMoves, playedNodes, hcount]
  · have hlt : j < final.position.moveCount := by simpa [Game.sgfMoves] using hj
    have hcell := hrep.follows.history (i := j) (by rw [← hrep.follows.moveCount]; exact hlt)
    have hcolor := hrep.coloured j hlt
    simp only [Game.sgfMoves, List.getElem_map, List.getElem_range, Game.sgfMove, hcell, hcolor]
    by_cases hopening : j < (g.pos 0).moveCount
    · simp [playedNodes, hcells, hopening]
    · obtain ⟨k, rfl⟩ := Nat.exists_eq_add_of_le (not_lt.mp hopening)
      have hk : k < final.ply := by omega
      have hentry : final.info[k]? = some (m.moveReply k).moveInfo := by
        obtain ⟨rest, hinfo⟩ := h.info
        rw [← hinfo, List.getElem?_append_left (by simpa using hk)]
        simp [hk]
      simp [playedNodes, hcells, hentry]

/-- On the board the two letters are `a` to `v` and count the coordinates from `a`. -/
theorem sgfCoord_inSquare {size : Nat} (hsize : size ≤ 22) {c : Int × Int}
    (hc : InSquare size c) :
    (∀ l ∈ Game.sgfCoord c, l.isLower = true) ∧
      (Game.sgfCoord c).map (fun l => (l.toNat : Int) - 97) = [c.1, c.2] := by
  have hletter : ∀ x : Int, 0 ≤ x ∧ x < size →
      (Char.ofNat (x + 97).toNat).isLower = true ∧
        ((Char.ofNat (x + 97).toNat).toNat : Int) - 97 = x := by
    rintro x ⟨h0, hlt⟩
    obtain ⟨k, rfl⟩ := Int.eq_ofNat_of_zero_le h0
    have hk : k < 22 := by omega
    revert hk
    clear h0 hlt
    revert k
    decide
  obtain ⟨hx, hx'⟩ := hletter c.1 hc.1
  obtain ⟨hy, hy'⟩ := hletter c.2 hc.2
  constructor
  · intro l hl
    rcases List.mem_pair.mp hl with rfl | rfl
    · exact hx
    · exact hy
  · simp only [Game.sgfCoord, List.map_cons, List.map_nil, hx', hy']

theorem Exportable.inSquare {final : Game} (h : Exportable m g final) :
    ∀ n ∈ playedNodes m g final.ply, InSquare m.options.boardSize n.cell := by
  obtain ⟨r, hcells, hrep⟩ := h.represents
  intro n hn
  rw [← h.sgfMoves_eq] at hn
  obtain ⟨j, hj, rfl⟩ := List.mem_map.mp hn
  have hlt : j < r.cells.length := by
    rw [← hrep.follows.moveCount]
    exact List.mem_range.mp hj
  change InSquare _ (cellOf (posFromMove (final.position.historyMoves j)))
  rw [hrep.follows.history hlt]
  exact r.inSquare _ (List.getElem_mem hlt)

theorem Exportable.historyCells {final : Game} (h : Exportable m g final) :
    final.position.historyCells = (playedNodes m g final.ply).map Game.SgfMove.cell := by
  rw [← h.sgfMoves_eq]
  simp [Game.sgfMoves, Position.historyCells, Game.sgfMove]

/-- **The export lists the game.**  However the game has ended, the text has one
node for every entry of the history of the last position, in order: first the
moves of the opening, then the answers of the engines, each with the time of the
call that returned it.  No index is out of range, and every cell has two letters. -/
theorem exportSgf_lists_game (h : Loads m g) (hnodup : (g.pos 0).historyCells.Nodup)
    (hanswers : AnswersInSquare m g) {result : Result} {final : PlayState}
    (hplay : m.play g = some (.returned result final)) (round game gameIdx : Nat)
    (now : LocalTime) :
    final.game.exportSgf round game gameIdx now =
        some (final.game.sgfHead round game gameIdx now ++
          Game.sgfLines (g.pos 0).moveCount (playedNodes m g final.game.ply) ++
          [')', '\n', '\n']) ∧
      final.position.historyCells = (playedNodes m g final.game.ply).map Game.SgfMove.cell ∧
      ∀ n ∈ playedNodes m g final.game.ply, (∀ l ∈ Game.sgfCoord n.cell, l.isLower = true) ∧
        (Game.sgfCoord n.cell).map (fun l => (l.toNat : Int) - 97) = [n.cell.1, n.cell.2] := by
  have hexport := exportable_of_returned h hnodup hanswers hplay
  refine ⟨?_, hexport.historyCells, fun n hn => ?_⟩
  · have hinfo : final.game.ply ≤ final.game.info.length := by
      simpa using hexport.info.length_le
    rw [Game.exportSgf_eq hexport.moveCount hinfo, hexport.sgfMoves_eq]
  · exact sgfCoord_inSquare h.size_le (hexport.inSquare n hn)

/-- `play` has returned. -/
def returns : Option PlayEnd → Bool
  | some (.returned _ _) => true
  | _ => false

theorem exists_of_returns {e : Option PlayEnd} (h : returns e = true) :
    ∃ result final, e = some (.returned result final) := by
  unfold returns at h
  split at h
  · exact ⟨_, _, rfl⟩
  · cases h

/-- A game from an opening of one stone between engines that answer `3,3`: the
answer is played, and then repeated. -/
theorem returned_oneStone :
    Loads (casual {} fun _ => ['3', ',', '3']) (Game.ofOpening ['0', ',', '0'] {}) ∧
      ∃ result final,
        (casual {} fun _ => ['3', ',', '3']).play (Game.ofOpening ['0', ',', '0'] {}) =
          some (.returned result final) :=
  ⟨loads_ofOpening (by decide) (by decide), exists_of_returns (by decide +kernel)⟩

/-- The game from an opening of one stone. -/
theorem exportSgf_lists_game_oneStone :
    ∃ result final,
      (casual {} fun _ => ['3', ',', '3']).play (Game.ofOpening ['0', ',', '0'] {}) =
        some (.returned result final) ∧
      final.game.exportSgf 0 0 0 ⟨2024, 1, 1, 0, 0, 0⟩ =
        some (final.game.sgfHead 0 0 0 ⟨2024, 1, 1, 0, 0, 0⟩ ++
          Game.sgfLines ((Game.ofOpening ['0', ',', '0'] {}).pos 0).moveCount
            (playedNodes (casual {} fun _ => ['3', ',', '3'])
              (Game.ofOpening ['0', ',', '0'] {}) final.game.ply) ++
          [')', '\n', '\n']) ∧
      final.position.historyCells =
        (playedNodes (casual {} fun _ => ['3', ',', '3']) (Game.ofOpening ['0', ',', '0'] {})
          final.game.ply).map Game.SgfMove.cell ∧
      ∀ n ∈ playedNodes (casual {} fun _ => ['3', ',', '3'])
          (Game.ofOpening ['0', ',', '0'] {}) final.game.ply,
        (∀ l ∈ Game.sgfCoord n.cell, l.isLower = true) ∧
          (Game.sgfCoord n.cell).map (fun l => (l.toNat : Int) - 97) = [n.cell.1, n.cell.2] := by
  obtain ⟨hloads, result, final, hplay⟩ := returned_oneStone
  have hanswers : AnswersInSquare (casual {} fun _ => ['3', ',', '3'])
      (Game.ofOpening ['0', ',', '0'] {}) := by
    intro s s' _ _
    change InSquare 15 (answeredCell ['3', ',', '3'])
    decide
  exact ⟨result, final, hplay,
    exportSgf_lists_game hloads (by decide) hanswers hplay 0 0 0 ⟨2024, 1, 1, 0, 0, 0⟩⟩

end Match

end GomokuCli
