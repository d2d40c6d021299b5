import GomokuCli.Opening

/-!
# Positions under all operations

A position keeps the same information several times over: the board, the packed
history, the move counter and the side to move.  Each operation updates all of
them separately.  `Position.Agreement` says that they tell the same story, and
every position that the operations can build keeps it, because each of them
implements an operation on records: `move` appends a cell, `undo` drops the last
one, `transform` maps them all.
-/

namespace GomokuCli

/-- A record without its last cell. -/
def Record.dropLast {size : Nat} (r : Record size) : Record size where
  cells := r.cells.dropLast
  inSquare := fun c hc => r.inSquare c (List.mem_of_mem_dropLast hc)
  nodup := r.nodup.sublist (List.dropLast_sublist _)

namespace Position

/-! ## Taking back a move -/

/-- `undo` forgets the last entry of the history. -/
theorem historyCells_undo (P : Position) : P.undo.historyCells = P.historyCells.dropLast := by
  rw [historyCells, historyCells, undo_moveCount, undo_historyMoves, ← List.map_dropLast]
  congr 1
  cases P.moveCount with
  | zero => rfl
  | succ n => simp [List.range_succ]

/-- **`undo` drops the last cell.** The stone that it removes is not one that an earlier
move has put there, because the cells of a record are distinct. -/
theorem Represents.undo {P : Position} {size : Nat} {r : Record size} (h : P.Represents r)
    (hpos : 0 < P.moveCount) : P.undo.Represents r.dropLast := by
  have hcount := h.follows.moveCount
  obtain ⟨cells, c, hcells⟩ : ∃ cells c, r.cells = cells ++ [c] :=
    (List.eq_nil_or_concat' r.cells).resolve_left fun hnil => by
      rw [hcount, hnil, List.length_nil] at hpos
      omega
  have hdrop : r.dropLast.cells = cells := by
    change r.cells.dropLast = cells
    rw [hcells, List.dropLast_concat]
  have hlen : cells.length = P.moveCount - 1 := by
    rw [hcount, hcells, List.length_append, List.length_singleton, Nat.add_sub_cancel]
  have hlast : cellOf (posFromMove (P.historyMoves (P.moveCount - 1))) = c := by
    have hlt : P.moveCount - 1 < r.cells.length := by omega
    rw [h.follows.history hlt]
    simp [hcells, ← hlen]
  have hnew : c ∉ cells := by
    have hnodup := r.nodup
    rw [hcells, List.nodup_append] at hnodup
    exact fun hmem => hnodup.2.2 c hmem c (by simp) rfl
  have hin : InSquare size c := r.inSquare c (by simp [hcells])
  refine ⟨⟨h.follows.size_le, r.dropLast.inSquare, h.follows.boardSize, h.follows.sqr, ?_, ?_,
    fun p => ?_⟩, fun i hi => ?_⟩
  · rw [historyCells_undo, h.follows.moves]
    rfl
  · have hturn : P.playerToMove = opponentColor (turnAt (P.moveCount - 1)) := by
      rw [h.follows.turn, ← turnAt_succ, Nat.sub_add_cancel hpos]
    rw [undo_playerToMove, hturn, opponentColor_opponentColor, undo_moveCount]
  · rw [undo_board, hdrop]
    by_cases hp : p = posFromMove (P.historyMoves (P.moveCount - 1))
    · subst hp
      rw [Function.update_self, hlast, stones_of_notMem hnew, emptyGrid, if_pos hin]
    · have hne : cellOf p ≠ c := by
        -- a cell of the square has one entry in the array
        intro heq
        apply hp
        have hin' : InSquare size (cellOf p) := heq.symm ▸ hin
        rw [← posOf_cellOf (lt_of_inSquare_cellOf h.follows.size_le hin'), heq, ← hlast,
          posOf_cellOf (posFromMove_lt _)]
      rw [Function.update_of_ne hp, h.follows.board, hcells, stones_append_singleton,
        Function.update_of_ne hne]
  · rw [undo_moveCount] at hi
    exact h.coloured i (by omega)

/-! ## The positions that can be built -/

/-- A move of the side to move to an empty cell of the board.  This is what a caller of
`move` has to see to, since the assertions behind it are compiled out. -/
structure Plays (P : Position) (m : Nat) : Prop where
  inSquare : InSquare P.boardSize (cellOf (posFromMove m))
  empty : P.board (posFromMove m) = .empty
  color : colorFromMove m = P.playerToMove.code

/-- The positions of a given size that the constructor, `move`, `undo`, `transform` and
`move_with_copy` build, in any order and any number.  The object that is overwritten by a
copy may be anything. -/
inductive Built (size : Nat) : Position → Prop
  | construct : Built size (Position.new size)
  | move {P : Position} {m : Nat} (h : Built size P) (hm : P.Plays m) : Built size (P.move m)
  | undo {P : Position} (h : Built size P) (hpos : 0 < P.moveCount) : Built size P.undo
  | transform {P : Position} (h : Built size P) (type : TransformType) :
      Built size (P.transform type)
  | moveWithCopy {before : Position} {m : Nat} (this : Position) (h : Built size before)
      (hm : before.Plays m) : Built size (this.moveWithCopy before m)

/-- The board, the history, the counter and the side to move agree.  It is stated on the
fields of the position, so that a reader need not know of records to see what is promised. -/
structure Agreement (P : Position) (size : Nat) : Prop where
  boardSize : P.boardSize = size
  inSquare : ∀ i < P.moveCount, InSquare size (cellOf (posFromMove (P.historyMoves i)))
  distinct : ∀ i < P.moveCount, ∀ j < P.moveCount,
    posFromMove (P.historyMoves i) = posFromMove (P.historyMoves j) → i = j
  turns : ∀ i < P.moveCount, colorFromMove (P.historyMoves i) =
    (if i % 2 = 0 then Color.black else Color.white).code
  stone_iff : ∀ p, InSquare size (cellOf p) → ∀ c : Color, c.IsStone →
    (P.board p = c ↔ ∃ i < P.moveCount, posFromMove (P.historyMoves i) = p ∧
      colorFromMove (P.historyMoves i) = c.code)
  empty_iff : ∀ p, InSquare size (cellOf p) →
    (P.board p = .empty ↔ ∀ i < P.moveCount, posFromMove (P.historyMoves i) ≠ p)
  wall : ∀ p, ¬ InSquare size (cellOf p) → P.board p = .wall
  count : P.moveCount = P.stoneCells.card
  turn : P.playerToMove = if P.moveCount % 2 = 0 then .black else .white

/-- The two positions hold the same game.  Behind the count the history arrays may differ,
where `undo` leaves what `move` has written. -/
structure SameGame (P Q : Position) : Prop where
  board : Q.board = P.board
  moveCount : Q.moveCount = P.moveCount
  playerToMove : Q.playerToMove = P.playerToMove
  history : ∀ i < P.moveCount, Q.historyMoves i = P.historyMoves i

section Built

variable {P : Position} {size : Nat}

theorem Represents.isLegalMove_of_plays {r : Record size} (h : P.Represents r) {m : Nat}
    (hm : P.Plays m) : P.isLegalMove m = true := by
  rw [h.follows.shape.isLegalMove_iff, ← h.follows.shape.board_eq_grid]
  exact ⟨hm.inSquare, hm.empty⟩

/-- **Every position that can be built is the position of a record.** The induction is over
the operations, each of which is one on records; the agreement of the fields is read off the
record in the end and need not be carried along. -/
theorem Built.represents (hsize : size ≤ 22) (h : Built size P) :
    ∃ r : Record size, P.Represents r := by
  induction h with
  | construct =>
      refine ⟨⟨[], by simp, List.nodup_nil⟩, initBoard_follows _ hsize, fun i hi => ?_⟩
      exact absurd hi (Nat.not_lt_zero i)
  | move _ hm ih =>
      obtain ⟨r, hr⟩ := ih
      obtain ⟨r', -, hr'⟩ := hr.move (hr.isLegalMove_of_plays hm) hm.color
      exact ⟨r', hr'⟩
  | undo _ hpos ih =>
      obtain ⟨r, hr⟩ := ih
      exact ⟨r.dropLast, hr.undo hpos⟩
  | transform _ type ih =>
      obtain ⟨r, hr⟩ := ih
      exact ⟨r.transform type, hr.transform type⟩
  | moveWithCopy _ _ hm ih =>
      obtain ⟨r, hr⟩ := ih
      obtain ⟨r', -, hr'⟩ := hr.move (hr.isLegalMove_of_plays hm) hm.color
      exact ⟨r', hr'⟩

/-- On distinct cells the entry of the history at a cell is unique. -/
theorem Represents.history_inj {r : Record size} (h : P.Represents r) {i j : Nat}
    (hi : i < P.moveCount) (hj : j < P.moveCount)
    (heq : posFromMove (P.historyMoves i) = posFromMove (P.historyMoves j)) : i = j := by
  have hcount := h.follows.moveCount
  have hcells := congrArg cellOf heq
  rw [h.follows.history (hcount ▸ hi), h.follows.history (hcount ▸ hj)] at hcells
  exact (r.nodup.getElem_inj_iff).mp hcells

/-- The cell of an entry of the history has the colour of the entry. -/
theorem Represents.board_history {r : Record size} (h : P.Represents r) {i : Nat}
    (hi : i < P.moveCount) : P.board (posFromMove (P.historyMoves i)) = turnAt i := by
  have hi' : i < r.cells.length := h.follows.moveCount ▸ hi
  rw [h.follows.board, h.follows.history hi', stones_getElem r.nodup hi']

/-- A cell of the square is empty or the cell of an entry of the history, and which of the
two is decided by the record. -/
theorem Represents.board_cases {r : Record size} (h : P.Represents r) {p : Nat}
    (hp : InSquare size (cellOf p)) :
    (P.board p = .empty ∧ ∀ i < P.moveCount, posFromMove (P.historyMoves i) ≠ p) ∨
      ∃ i < P.moveCount, posFromMove (P.historyMoves i) = p := by
  have hcount := h.follows.moveCount
  by_cases hmem : cellOf p ∈ r.cells
  · right
    obtain ⟨i, hi, hcell⟩ := List.getElem_of_mem hmem
    refine ⟨i, hcount.symm ▸ hi, ?_⟩
    rw [← posOf_cellOf (posFromMove_lt (P.historyMoves i)), h.follows.history hi, hcell,
      posOf_cellOf (lt_of_inSquare_cellOf h.follows.size_le hp)]
  · left
    refine ⟨?_, fun i hi heq => ?_⟩
    · rw [h.follows.board, stones_of_notMem hmem, emptyGrid, if_pos hp]
    · apply hmem
      rw [← heq, h.follows.history (hcount ▸ hi)]
      exact List.getElem_mem _

theorem Color.code_injective_of_isStone {c c' : Color} (hc : c.IsStone) (hc' : c'.IsStone)
    (h : c.code = c'.code) : c = c' := by
  rcases hc with rfl | rfl <;> rcases hc' with rfl | rfl <;> simp_all [Color.code]

/-- **The position of a record is in agreement with itself.** All that the fields have to
say about each other is read off the one list of cells. -/
theorem Represents.agreement {r : Record size} (h : P.Represents r) : P.Agreement size where
  boardSize := h.follows.boardSize
  inSquare := by
    intro i hi
    rw [h.follows.history (h.follows.moveCount ▸ hi)]
    exact r.inSquare _ (List.getElem_mem _)
  distinct := fun i hi j hj heq => h.history_inj hi hj heq
  turns := h.coloured
  stone_iff := by
    intro p hp c hc
    constructor
    · intro hboard
      rcases h.board_cases hp with ⟨hempty, -⟩ | ⟨i, hi, rfl⟩
      · exact absurd (hboard.symm.trans hempty) hc.ne_empty
      · rw [h.board_history hi] at hboard
        exact ⟨i, hi, rfl, hboard ▸ h.coloured i hi⟩
    · rintro ⟨i, hi, rfl, hcolor⟩
      rw [h.coloured i hi] at hcolor
      rw [h.board_history hi]
      exact Color.code_injective_of_isStone (turnAt_isStone i) hc hcolor
  empty_iff := by
    intro p hp
    rcases h.board_cases hp with ⟨hempty, hnone⟩ | ⟨i, hi, rfl⟩
    · exact iff_of_true hempty hnone
    · refine iff_of_false ?_ fun hnone => hnone i hi rfl
      rw [h.board_history hi]
      exact (turnAt_isStone i).ne_empty
  wall := by
    intro p hp
    rw [h.follows.board]
    exact (stones_eq_wall_iff r.inSquare).mpr hp
  count := by rw [h.card_stoneCells, h.follows.moveCount]
  turn := h.follows.turn

/-- `undo` right after `move` leaves only the new entry of the history array. -/
theorem undo_move {m : Nat} (hempty : P.board (posFromMove m) = .empty) :
    (P.move m).undo = { P with historyMoves := Function.update P.historyMoves P.moveCount m } := by
  have hlast : Function.update P.historyMoves P.moveCount m P.moveCount = m :=
    Function.update_self ..
  have hboard : Function.update (Function.update P.board (posFromMove m) P.playerToMove)
      (posFromMove m) .empty = P.board := by
    rw [Function.update_idem, ← hempty, Function.update_eq_self]
  simp only [undo, move, setPiece, delPiece, Nat.add_sub_cancel, hlast, hboard,
    opponentColor_opponentColor]

/-- **The representation invariant.** It holds of every position that the operations build,
and `undo` takes back exactly what `move` has done.  For the second part the move has to be
to an empty cell: another one has covered a stone that `undo` does not put back. -/
theorem built_agreement (hsize : size ≤ 22) (h : Built size P) :
    P.Agreement size ∧ ∀ m, P.Plays m → P.SameGame (P.move m).undo := by
  obtain ⟨r, hr⟩ := h.represents hsize
  refine ⟨hr.agreement, fun m hm => ?_⟩
  rw [undo_move hm.empty]
  refine ⟨rfl, rfl, rfl, fun i hi => ?_⟩
  exact Function.update_of_ne (by omega) _ _

/-- Three stones, turned by a quarter, of which the last is taken back. -/
def turnedStones : Position :=
  ((((Position.new 15).move (buildMove 7 7 .black)).move (buildMove 8 7 .white)).move
    (buildMove 6 6 .black)).transform .rotate90 |>.undo

/-- What an object becomes that gets a copy of them and one more stone. -/
def copiedStones : Position := (Position.new 20).moveWithCopy turnedStones (buildMove 9 9 .black)

theorem built_agreement_copied :
    copiedStones.moveCount = 3 ∧ copiedStones.Agreement 15 ∧
      copiedStones.SameGame (copiedStones.move (buildMove 0 14 .white)).undo := by
  have hfirst : (Position.new 15).Plays (buildMove 7 7 .black) :=
    ⟨by decide, by decide, by decide⟩
  have hsecond : ((Position.new 15).move (buildMove 7 7 .black)).Plays (buildMove 8 7 .white) :=
    ⟨by decide, by decide, by decide⟩
  have hthird : (((Position.new 15).move (buildMove 7 7 .black)).move
      (buildMove 8 7 .white)).Plays (buildMove 6 6 .black) := ⟨by decide, by decide, by decide⟩
  have hturned : Built 15 turnedStones :=
    .undo (.transform (.move (.move (.move .construct hfirst) hsecond) hthird) .rotate90)
      (by decide +kernel)
  have hcopied : turnedStones.Plays (buildMove 9 9 .black) :=
    ⟨by decide +kernel, by decide +kernel, by decide +kernel⟩
  have hnext : copiedStones.Plays (buildMove 0 14 .white) :=
    ⟨by decide +kernel, by decide +kernel, by decide +kernel⟩
  obtain ⟨hagreement, hundo⟩ := built_agreement (by decide)
    (.moveWithCopy (Position.new 20) hturned hcopied)
  exact ⟨by decide +kernel, hagreement, hundo _ hnext⟩

end Built

end Position

end GomokuCli
