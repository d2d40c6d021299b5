import GomokuCli.Cell

/-!
# Positions

The state of a game between two moves: the padded board, the packed history and
the counters that go with it, together with the operations of the source on
them.  Arrays are functions of their index; the assertions of `setPiece` and
`delPiece` are compiled out of a release build and have no counterpart here.

`BoardShape` is the part of a position that no operation ever changes: which
entries of the array are `wall`.  Under it the array is faithfully read through
`Position.grid`, which is indexed by coordinates and not by packed cells.
-/

namespace GomokuCli

/-- `class Position`: the board, the moves with their number, the player to move, and the
line that was recorded last.  The arrays are functions of their index; how much of them is
in use is said by the counters. -/
structure Position where
  board : Nat → Color
  boardSize : Nat
  boardSizeSqr : Nat
  moveCount : Nat
  historyMoves : Nat → Nat
  playerToMove : Color
  winConnectionLen : Nat
  winConnectionPos : Nat → Nat

/-- A pair of coordinates lies in the `size × size` square, without the walls around it. -/
def InSquare (size : Nat) (c : Int × Int) : Prop :=
  (0 ≤ c.1 ∧ c.1 < size) ∧ (0 ≤ c.2 ∧ c.2 < size)

instance (size : Nat) (c : Int × Int) : Decidable (InSquare size c) :=
  inferInstanceAs (Decidable ((0 ≤ c.1 ∧ c.1 < size) ∧ (0 ≤ c.2 ∧ c.2 < size)))

/-- The coordinates of a packed cell. -/
def cellOf (p : Nat) : Int × Int := (coordX p, coordY p)

/-- The packed cell of a pair of coordinates. -/
def posOf (c : Int × Int) : Nat := pos c.1 c.2

theorem InSquare.range {size : Nat} {c : Int × Int} (hsize : size ≤ 22)
    (h : InSquare size c) : (-5 ≤ c.1 ∧ c.1 < 27) ∧ (-5 ≤ c.2 ∧ c.2 < 27) := by
  obtain ⟨⟨hx0, hx⟩, hy0, hy⟩ := h
  omega

theorem posOf_eq {c : Int × Int} (h : (-5 ≤ c.1 ∧ c.1 < 27) ∧ (-5 ≤ c.2 ∧ c.2 < 27)) :
    (posOf c : Int) = 32 * (c.1 + 5) + (c.2 + 5) :=
  pos_eq_of_range h.1 h.2

theorem posOf_lt {c : Int × Int} (h : (-5 ≤ c.1 ∧ c.1 < 27) ∧ (-5 ≤ c.2 ∧ c.2 < 27)) :
    posOf c < 1024 := by
  have := posOf_eq h
  omega

theorem cellOf_posOf {c : Int × Int} (h : (-5 ≤ c.1 ∧ c.1 < 27) ∧ (-5 ≤ c.2 ∧ c.2 < 27)) :
    cellOf (posOf c) = c :=
  Prod.ext (coordX_pos h.1 h.2) (coordY_pos h.1 h.2)

theorem posOf_cellOf {p : Nat} (h : p < 1024) : posOf (cellOf p) = p := pos_coord h

/-- The cells whose coordinates are in the square are entries of the array. -/
theorem lt_of_inSquare_cellOf {size p : Nat} (hsize : size ≤ 22)
    (h : InSquare size (cellOf p)) : p < 1024 := by
  have hx : coordX p < size := h.1.2
  have := coordX_eq p
  omega

theorem InSquare.cellOf_posOf {size : Nat} {c : Int × Int} (hsize : size ≤ 22)
    (h : InSquare size c) : GomokuCli.cellOf (posOf c) = c :=
  GomokuCli.cellOf_posOf (h.range hsize)

theorem InSquare.posOf_inj {size : Nat} {c c' : Int × Int} (hsize : size ≤ 22)
    (h : InSquare size c) (h' : InSquare size c') (heq : posOf c = posOf c') : c = c' := by
  rw [← h.cellOf_posOf hsize, heq, h'.cellOf_posOf hsize]

namespace Position

/-! ## The operations of the source -/

/-- `initBoard`: the history and the recorded win connection keep what they held; only the
counters are reset.  What they held cannot be reached through the counters any more. -/
def initBoard (P : Position) (size : Nat) : Position :=
  { P with
    boardSize := size
    boardSizeSqr := size * size
    moveCount := 0
    playerToMove := .black
    board := fun i =>
      if coordX i ≥ 0 ∧ coordX i < size ∧ coordY i ≥ 0 ∧ coordY i < size then .empty
      else .wall
    winConnectionLen := 0 }

/-- `Position(int bSize)`.  The arrays of a fresh object are not initialised;
nothing reads them before they are written. -/
def new (bSize : Nat) : Position :=
  initBoard
    { board := fun _ => .wall
      boardSize := 0
      boardSizeSqr := 0
      moveCount := 0
      historyMoves := fun _ => 0
      playerToMove := .black
      winConnectionLen := 0
      winConnectionPos := fun _ => 0 } bSize

/-- `get_moves_left`. -/
def getMovesLeft (P : Position) : Int := (P.boardSizeSqr : Int) - P.moveCount

/-- `setPiece`.  It writes whatever was there before, since its assertion is compiled out. -/
def setPiece (P : Position) (p : Nat) (piece : Color) : Position :=
  { P with board := Function.update P.board p piece }

/-- `delPiece`. -/
def delPiece (P : Position) (p : Nat) : Position :=
  { P with board := Function.update P.board p .empty }

/-- `isInBoard`. -/
def isInBoard (P : Position) (p : Nat) : Bool := P.board p != .wall

/-- `isInBoardXY`. -/
def isInBoardXY (P : Position) (x y : Int) : Bool :=
  (decide (x ≥ 0) && decide (x < P.boardSize)) && (decide (y ≥ 0) && decide (y < P.boardSize))

/-- `move`: the stone of the player to move is set, whatever colour the packed move has, and
the packed move is appended to the history.  Nothing here asks whether the cell is empty. -/
def move (P : Position) (m : Nat) : Position :=
  let P₁ := P.setPiece (posFromMove m) P.playerToMove
  { P₁ with
    historyMoves := Function.update P₁.historyMoves P₁.moveCount m
    playerToMove := opponentColor P₁.playerToMove
    moveCount := P₁.moveCount + 1 }

/-- `undo`: the history entry stays in the array, below the new count.  The cell becomes
empty, which is what it was before only if the move was legal. -/
def undo (P : Position) : Position :=
  let P₁ := { P with moveCount := P.moveCount - 1 }
  let lastPos := posFromMove (P₁.historyMoves P₁.moveCount)
  let P₂ := P₁.delPiece lastPos
  { P₂ with playerToMove := opponentColor P₂.playerToMove }

/-- `move_with_copy`: the object is overwritten with `before` and then moved on. -/
def moveWithCopy (_this before : Position) (m : Nat) : Position := before.move m

/-- `is_legal_move`: the cell is not a wall and holds no stone.  The colour of the packed
move is not looked at. -/
def isLegalMove (P : Position) (m : Nat) : Bool :=
  P.isInBoard (posFromMove m) && P.board (posFromMove m) == .empty

/-- `transformPos`. -/
def transformPos (p boardsize : Nat) (type : TransformType) : Nat :=
  let x := coordX p
  let y := coordY p
  let s : Int := (boardsize : Int) - 1
  match type with
  | .rotate90 => pos y (s - x)
  | .rotate180 => pos (s - x) (s - y)
  | .rotate270 => pos (s - y) x
  | .flipX => pos x (s - y)
  | .flipY => pos (s - x) y
  | .flipXY => pos y x
  | .flipYX => pos (s - y) (s - x)
  | .identity => pos x y

/-- The cells in the order of the loops `for x … for y …` over the square. -/
def squareCells (size : Nat) : List Nat :=
  (List.range size).flatMap fun (x : Nat) =>
    (List.range size).map fun (y : Nat) => pos x y

/-- First loop of `transform`: delete every stone. -/
def clearStones (P : Position) : Position :=
  (squareCells P.boardSize).foldl
    (fun Q p => if Q.board p ≠ .empty then Q.delPiece p else Q) P

/-- Second loop of `transform`: put every stone of `tmpBoard` back at its
transformed cell. -/
def placeTransformed (P : Position) (tmpBoard : Nat → Color) (type : TransformType) :
    Position :=
  (squareCells P.boardSize).foldl
    (fun Q p =>
      if tmpBoard p ≠ .empty then
        Q.setPiece (transformPos p P.boardSize type) (tmpBoard p)
      else Q) P

/-- `transform`: the stones are moved in two loops over the square, by way of a copy of the
board, and then the cells of the history and of the recorded connection are replaced. -/
def transform (P : Position) (type : TransformType) : Position :=
  if type = .identity then P
  else
    let P₁ := P.clearStones.placeTransformed P.board type
    { P₁ with
      historyMoves := fun i =>
        if i < P.moveCount then
          let move := P.historyMoves i
          buildMovePos (transformPos (posFromMove move) P.boardSize type)
            (colorFromMove move)
        else P.historyMoves i
      winConnectionPos := fun i =>
        if i < P.winConnectionLen then
          transformPos (P.winConnectionPos i) P.boardSize type
        else P.winConnectionPos i }

/-! ## What each operation does to each field -/

section Fields

variable (P : Position) (p m : Nat) (c : Color)

@[simp] theorem setPiece_board : (P.setPiece p c).board = Function.update P.board p c := rfl

@[simp] theorem setPiece_boardSize : (P.setPiece p c).boardSize = P.boardSize := rfl

@[simp] theorem delPiece_board :
    (P.delPiece p).board = Function.update P.board p .empty := rfl

@[simp] theorem delPiece_boardSize : (P.delPiece p).boardSize = P.boardSize := rfl

@[simp] theorem move_board :
    (P.move m).board = Function.update P.board (posFromMove m) P.playerToMove := rfl

@[simp] theorem move_boardSize : (P.move m).boardSize = P.boardSize := rfl

@[simp] theorem move_boardSizeSqr : (P.move m).boardSizeSqr = P.boardSizeSqr := rfl

@[simp] theorem move_moveCount : (P.move m).moveCount = P.moveCount + 1 := rfl

@[simp] theorem move_playerToMove :
    (P.move m).playerToMove = opponentColor P.playerToMove := rfl

@[simp] theorem move_historyMoves :
    (P.move m).historyMoves = Function.update P.historyMoves P.moveCount m := rfl

@[simp] theorem undo_board : P.undo.board =
    Function.update P.board (posFromMove (P.historyMoves (P.moveCount - 1))) .empty := rfl

@[simp] theorem undo_boardSize : P.undo.boardSize = P.boardSize := rfl

@[simp] theorem undo_boardSizeSqr : P.undo.boardSizeSqr = P.boardSizeSqr := rfl

@[simp] theorem undo_moveCount : P.undo.moveCount = P.moveCount - 1 := rfl

@[simp] theorem undo_playerToMove : P.undo.playerToMove = opponentColor P.playerToMove := rfl

@[simp] theorem undo_historyMoves : P.undo.historyMoves = P.historyMoves := rfl

@[simp] theorem initBoard_boardSize (n : Nat) : (P.initBoard n).boardSize = n := rfl

@[simp] theorem initBoard_moveCount (n : Nat) : (P.initBoard n).moveCount = 0 := rfl

@[simp] theorem initBoard_playerToMove (n : Nat) :
    (P.initBoard n).playerToMove = .black := rfl

/-- Taking back a stone that was set on an empty cell leaves no trace.  This is why the
finders may put stones on the board to look ahead. -/
theorem delPiece_setPiece (h : P.board p = .empty) : (P.setPiece p c).delPiece p = P := by
  simp only [setPiece, delPiece, Function.update_idem]
  rw [← h, Function.update_eq_self]

end Fields

theorem isInBoardXY_iff (P : Position) (x y : Int) :
    P.isInBoardXY x y = true ↔ InSquare P.boardSize (x, y) := by
  simp [isInBoardXY, InSquare]

theorem isInBoard_iff (P : Position) (p : Nat) :
    P.isInBoard p = true ↔ P.board p ≠ .wall := by
  simp [isInBoard]

/-! ## The shape of the board -/

/-- The parts of a position that are fixed once the board is set up.  The finders need no
more: they read the board around a cell, wherever the stones on it come from, and rely on
the walls to stop.  So what is proved under it holds of every board and not only of those of
games. -/
structure BoardShape (P : Position) : Prop where
  size_le : P.boardSize ≤ 22
  sqr : P.boardSizeSqr = P.boardSize * P.boardSize
  wall_iff : ∀ p, P.board p = .wall ↔ ¬ InSquare P.boardSize (cellOf p)

/-- The board read through coordinates.  Everything outside the square is a wall here, so
that lines can be followed without regard to the size of the array. -/
def grid (P : Position) (c : Int × Int) : Color :=
  if InSquare P.boardSize c then P.board (posOf c) else .wall

theorem initBoard_board (P : Position) (n p : Nat) :
    (P.initBoard n).board p = if InSquare n (cellOf p) then .empty else .wall := by
  simp only [initBoard, InSquare, cellOf, ge_iff_le, and_assoc]

theorem initBoard_shape (P : Position) {n : Nat} (hn : n ≤ 22) :
    (P.initBoard n).BoardShape := by
  refine ⟨hn, rfl, fun p => ?_⟩
  rw [initBoard_board, initBoard_boardSize]
  split <;> simp_all

section Shape

variable {P : Position} (hshape : P.BoardShape)
include hshape

/-- The array and its reading through coordinates hold the same colours. -/
theorem BoardShape.board_eq_grid (p : Nat) : P.board p = P.grid (cellOf p) := by
  unfold grid
  split
  · next h => rw [posOf_cellOf (lt_of_inSquare_cellOf hshape.size_le h)]
  · next h => exact (hshape.wall_iff p).mpr h

/-- Every entry of the array that a coordinate pair denotes, the ring of walls included, is
read correctly.  The ring is five cells wide, which is as far as any scan goes. -/
theorem BoardShape.board_posOf {c : Int × Int}
    (h : (-5 ≤ c.1 ∧ c.1 < 27) ∧ (-5 ≤ c.2 ∧ c.2 < 27)) :
    P.board (posOf c) = P.grid c := by
  rw [hshape.board_eq_grid, cellOf_posOf h]

theorem BoardShape.board_pos {x y : Int} (hx : -5 ≤ x ∧ x < 27) (hy : -5 ≤ y ∧ y < 27) :
    P.board (pos x y) = P.grid (x, y) :=
  hshape.board_posOf (c := (x, y)) ⟨hx, hy⟩

theorem BoardShape.grid_eq_wall_iff {c : Int × Int} :
    P.grid c = .wall ↔ ¬ InSquare P.boardSize c := by
  constructor
  · intro h hin
    rw [grid, if_pos hin] at h
    rw [hshape.wall_iff, hin.cellOf_posOf hshape.size_le] at h
    exact h hin
  · intro h
    rw [grid, if_neg h]

/-- A move is legal iff the cell it denotes is an empty cell of the square.  Both tests of
the source come down to this, since only walls lie outside. -/
theorem BoardShape.isLegalMove_iff (m : Nat) :
    P.isLegalMove m = true ↔
      InSquare P.boardSize (cellOf (posFromMove m)) ∧
        P.grid (cellOf (posFromMove m)) = .empty := by
  simp only [isLegalMove, isInBoard, Bool.and_eq_true, bne_iff_ne, beq_iff_eq]
  rw [hshape.board_eq_grid, ne_eq, hshape.grid_eq_wall_iff, not_not]

/-- Stones go on cells of the square, so the walls stay where they are. -/
theorem BoardShape.setPiece {p : Nat} {c : Color} (hp : InSquare P.boardSize (cellOf p))
    (hc : c ≠ .wall) : (P.setPiece p c).BoardShape := by
  refine ⟨hshape.size_le, hshape.sqr, fun q => ?_⟩
  by_cases hq : q = p
  · subst hq
    simp [hc, hp]
  · simpa [hq] using hshape.wall_iff q

/-- Setting a stone changes the colour of exactly one cell. -/
theorem BoardShape.grid_setPiece {p : Nat} {c : Color}
    (hp : InSquare P.boardSize (cellOf p)) :
    (P.setPiece p c).grid = Function.update P.grid (cellOf p) c := by
  funext e
  have hlt := lt_of_inSquare_cellOf hshape.size_le hp
  by_cases he : e = cellOf p
  · subst he
    simp [grid, hp, posOf_cellOf hlt]
  · rw [Function.update_of_ne he]
    by_cases hin : InSquare P.boardSize e
    · have hne : posOf e ≠ p := by
        intro heq
        rw [← heq, hin.cellOf_posOf hshape.size_le] at he
        exact he rfl
      simp [grid, hin, Function.update_of_ne hne]
    · simp [grid, hin]

theorem BoardShape.grid_move {m : Nat}
    (hm : InSquare P.boardSize (cellOf (posFromMove m))) :
    (P.move m).grid = Function.update P.grid (cellOf (posFromMove m)) P.playerToMove :=
  hshape.grid_setPiece hm

end Shape

end Position

end GomokuCli
