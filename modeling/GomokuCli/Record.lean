import GomokuCli.Position

/-!
# Game records

What a position is for: it stands for the list of cells played since the empty
board, Black first.  `stones` is the colouring of the plane that such a list
produces, and `Position.Follows` says that a position of the program is the one
reached by it.  Every operation that builds positions is related to the
operation on lists that it implements: `move` appends a cell, `transform` maps
the cells of the whole list.

A list may name a cell twice.  `Record` is the type of the lists that a legal
game produces, where the cells are pairwise distinct; the colour of a cell is
then simply that of its index.
-/

namespace GomokuCli

/-- The colour of the `i`-th stone of a game: Black plays first, and the colours take turns. -/
def turnAt (i : Nat) : Color := if i % 2 = 0 then .black else .white

theorem turnAt_succ (i : Nat) : turnAt (i + 1) = opponentColor (turnAt i) := by
  unfold turnAt
  rcases Nat.mod_two_eq_zero_or_one i with h | h
  · rw [if_neg (by omega), if_pos h]
    rfl
  · rw [if_pos (by omega), if_neg (by omega)]
    rfl

theorem turnAt_isStone (i : Nat) : (turnAt i).IsStone := by
  unfold turnAt
  split <;> simp

/-- The square before any stone is played, surrounded by walls. -/
def emptyGrid (size : Nat) (c : Int × Int) : Color :=
  if InSquare size c then .empty else .wall

/-- The colouring that a list of cells produces.  A later stone on the same cell replaces
the earlier one, as the assignment in `setPiece` does, so that it is defined for lists that
no legal game has. -/
def stones (size : Nat) (cells : List (Int × Int)) : Int × Int → Color :=
  cells.zipIdx.foldl (fun g ci => Function.update g ci.1 (turnAt ci.2)) (emptyGrid size)

section Stones

variable {size : Nat} {cells : List (Int × Int)} {c : Int × Int}

@[simp] theorem stones_nil : stones size [] = emptyGrid size := rfl

theorem stones_append_singleton :
    stones size (cells ++ [c]) =
      Function.update (stones size cells) c (turnAt cells.length) := by
  simp [stones, List.zipIdx_append]

/-- A cell that is not in the list is as it was before the game. -/
theorem stones_of_notMem (h : c ∉ cells) : stones size cells c = emptyGrid size c := by
  induction cells using List.reverseRecOn with
  | nil => rfl
  | append_singleton cells e ih =>
      rw [List.mem_append, List.mem_singleton, not_or] at h
      rw [stones_append_singleton, Function.update_of_ne h.2, ih h.1]

theorem stones_isStone_of_mem (h : c ∈ cells) : (stones size cells c).IsStone := by
  induction cells using List.reverseRecOn with
  | nil => cases h
  | append_singleton cells e ih =>
      rw [stones_append_singleton]
      by_cases hc : c = e
      · subst hc
        rw [Function.update_self]
        exact turnAt_isStone _
      · rw [Function.update_of_ne hc]
        refine ih ?_
        rcases List.mem_append.mp h with hmem | hlast
        · exact hmem
        · exact absurd (List.mem_singleton.mp hlast) hc

/-- On a list of distinct cells every stone keeps the colour of its turn.  Without the
condition a later stone may have covered it. -/
theorem stones_getElem (hnodup : cells.Nodup) {i : Nat} (hi : i < cells.length) :
    stones size cells cells[i] = turnAt i := by
  induction cells using List.reverseRecOn with
  | nil => cases hi
  | append_singleton cells e ih =>
      rw [List.nodup_append] at hnodup
      obtain ⟨hnodup, -, hdisj⟩ := hnodup
      rw [stones_append_singleton]
      by_cases hlast : i < cells.length
      · have hne : cells[i] ≠ e := hdisj _ (List.getElem_mem hlast) e (by simp)
        rw [List.getElem_append_left hlast, Function.update_of_ne hne]
        exact ih hnodup hlast
      · have hi' : i = cells.length := by
          rw [List.length_append, List.length_singleton] at hi
          omega
        subst hi'
        simp

theorem stones_eq_wall_iff (hin : ∀ e ∈ cells, InSquare size e) :
    stones size cells c = .wall ↔ ¬ InSquare size c := by
  by_cases hc : c ∈ cells
  · have hstone : (stones size cells c).IsStone := stones_isStone_of_mem hc
    exact ⟨fun h => absurd h hstone.ne_wall, fun h => absurd (hin c hc) h⟩
  · rw [stones_of_notMem hc, emptyGrid]
    split <;> simp_all

/-- The empty cells are those of the square that the list does not name. -/
theorem stones_eq_empty_iff : stones size cells c = .empty ↔ InSquare size c ∧ c ∉ cells := by
  by_cases hc : c ∈ cells
  · have hstone : (stones size cells c).IsStone := stones_isStone_of_mem hc
    exact ⟨fun h => absurd h hstone.ne_empty, fun h => absurd hc h.2⟩
  · rw [stones_of_notMem hc, emptyGrid]
    split <;> simp_all

end Stones

/-- The record of a game on a `size × size` board in which no cell is played twice.  An
invalid record cannot be built, so that what follows from distinct cells is proved of it
once. -/
structure Record (size : Nat) where
  cells : List (Int × Int)
  inSquare : ∀ c ∈ cells, InSquare size c
  nodup : cells.Nodup

/-- A record has at most as many stones as the square has cells. -/
theorem Record.length_le {size : Nat} (r : Record size) : r.cells.length ≤ size * size := by
  have hsub : r.cells.toFinset ⊆ Finset.Ico (0 : ℤ) size ×ˢ Finset.Ico (0 : ℤ) size := by
    intro c hc
    obtain ⟨hx, hy⟩ := r.inSquare c (List.mem_toFinset.mp hc)
    rw [Finset.mem_product, Finset.mem_Ico, Finset.mem_Ico]
    exact ⟨hx, hy⟩
  have hcard := Finset.card_le_card hsub
  rw [List.toFinset_card_of_nodup r.nodup] at hcard
  simpa using hcard

namespace Position

/-! ## Positions that follow a list of cells -/

/-- The cells of the history, in order.  The entries above the counter are left out, which
hold what was there before. -/
def historyCells (P : Position) : List (Int × Int) :=
  (List.range P.moveCount).map fun i => cellOf (posFromMove (P.historyMoves i))

@[simp] theorem length_historyCells (P : Position) : P.historyCells.length = P.moveCount := by
  simp [historyCells]

/-- `P` is the position reached by playing `cells` in order on an empty board.  Only the
cell of a history entry is compared; `Coloured` is about the rest of it.  It is the link
between the arrays of the program and the list that they stand for: every operation of a
position is proved to be one on this list, and results about games then only speak of lists. -/
structure Follows (P : Position) (size : Nat) (cells : List (Int × Int)) : Prop where
  size_le : size ≤ 22
  inSquare : ∀ c ∈ cells, InSquare size c
  boardSize : P.boardSize = size
  sqr : P.boardSizeSqr = size * size
  moves : P.historyCells = cells
  turn : P.playerToMove = turnAt P.moveCount
  board : ∀ p, P.board p = stones size cells (cellOf p)

/-- Every history entry carries the colour of the player who made it.  It is kept apart from
`Follows` because an opening whose moves are packed with another colour leads to the same
board. -/
def Coloured (P : Position) : Prop :=
  ∀ i < P.moveCount, colorFromMove (P.historyMoves i) = (turnAt i).code

/-- `P` is the position reached by a record: its cells are pairwise distinct and the packed
history tells who played them.  This is what a position of a game is as long as only legal
moves are played. -/
structure Represents (P : Position) {size : Nat} (r : Record size) : Prop where
  follows : P.Follows size r.cells
  coloured : P.Coloured

section Follows

variable {P : Position} {size : Nat} {cells : List (Int × Int)}

theorem Follows.moveCount (h : P.Follows size cells) : P.moveCount = cells.length := by
  rw [← h.moves, length_historyCells]

theorem Follows.history (h : P.Follows size cells) {i : Nat} (hi : i < cells.length) :
    cellOf (posFromMove (P.historyMoves i)) = cells[i] := by
  have hi' : i < P.historyCells.length := by rwa [h.moves]
  have hget : P.historyCells[i] = cellOf (posFromMove (P.historyMoves i)) := by
    simp [historyCells]
  rw [← hget]
  simp [h.moves]

/-- A position that follows a list has the shape of a board, so that all that is known of
the finders holds of it. -/
theorem Follows.shape (h : P.Follows size cells) : P.BoardShape := by
  refine ⟨h.boardSize.symm ▸ h.size_le, by rw [h.sqr, h.boardSize], fun p => ?_⟩
  rw [h.board, stones_eq_wall_iff h.inSquare, h.boardSize]

theorem Follows.grid_eq (h : P.Follows size cells) : P.grid = stones size cells := by
  funext c
  unfold grid
  rw [h.boardSize]
  split
  · next hin => rw [h.board, hin.cellOf_posOf h.size_le]
  · next hin => exact ((stones_eq_wall_iff h.inSquare).mpr hin).symm

/-- The legal moves are the ones to the unused cells of the square. -/
theorem Follows.isLegalMove_iff (h : P.Follows size cells) (m : Nat) :
    P.isLegalMove m = true ↔
      InSquare size (cellOf (posFromMove m)) ∧ cellOf (posFromMove m) ∉ cells := by
  rw [h.shape.isLegalMove_iff, h.boardSize, h.grid_eq, stones_eq_empty_iff]
  constructor
  · rintro ⟨hin, -, hnew⟩
    exact ⟨hin, hnew⟩
  · rintro ⟨hin, hnew⟩
    exact ⟨hin, hin, hnew⟩

theorem Follows.turn_isStone (h : P.Follows size cells) : P.playerToMove.IsStone := by
  rw [h.turn]
  exact turnAt_isStone _

theorem Follows.turn_append_singleton {c : Int × Int} (h : P.Follows size (cells ++ [c])) :
    P.playerToMove = opponentColor (turnAt cells.length) := by
  rw [h.turn, h.moveCount, List.length_append, List.length_singleton, turnAt_succ]

/-- Before a move of White the last stone is Black's. -/
theorem Follows.lastTurn_eq_black {c : Int × Int} (h : P.Follows size (cells ++ [c]))
    (hturn : P.playerToMove = .white) : turnAt cells.length = .black := by
  rw [h.turn_append_singleton] at hturn
  rw [← opponentColor_opponentColor (turnAt cells.length), hturn]
  rfl

theorem historyCells_move (P : Position) (m : Nat) :
    (P.move m).historyCells = P.historyCells ++ [cellOf (posFromMove m)] := by
  rw [historyCells, move_moveCount, List.range_succ, List.map_append, historyCells]
  congr 1
  · refine List.map_congr_left fun i hi => ?_
    have hne : i ≠ P.moveCount := by
      have := List.mem_range.mp hi
      omega
    rw [move_historyMoves, Function.update_of_ne hne]
  · simp

/-- **`move` appends its cell**, legal or not.  If the cell has been played before, the list
names it twice, and the board shows the later stone. -/
theorem Follows.move (h : P.Follows size cells) {m : Nat}
    (hm : InSquare size (cellOf (posFromMove m))) :
    (P.move m).Follows size (cells ++ [cellOf (posFromMove m)]) where
  size_le := h.size_le
  inSquare := by
    intro c hc
    rcases List.mem_append.mp hc with hmem | hlast
    · exact h.inSquare c hmem
    · rw [List.mem_singleton.mp hlast]
      exact hm
  boardSize := h.boardSize
  sqr := h.sqr
  moves := by rw [historyCells_move, h.moves]
  turn := by
    rw [move_playerToMove, move_moveCount, h.turn, turnAt_succ]
  board := by
    intro p
    rw [stones_append_singleton, move_board, h.turn, h.moveCount]
    by_cases hp : p = posFromMove m
    · subst hp
      simp
    · have hne : cellOf p ≠ cellOf (posFromMove m) := by
        -- a cell of the square has one entry in the array
        intro heq
        have hin : InSquare size (cellOf p) := heq ▸ hm
        apply hp
        rw [← posOf_cellOf (lt_of_inSquare_cellOf h.size_le hin), heq,
          posOf_cellOf (posFromMove_lt m)]
      rw [Function.update_of_ne hp, h.board, Function.update_of_ne hne]

theorem initBoard_follows (P : Position) (hsize : size ≤ 22) :
    (P.initBoard size).Follows size [] where
  size_le := hsize
  inSquare := by simp
  boardSize := rfl
  sqr := rfl
  moves := by simp [historyCells]
  turn := rfl
  board := initBoard_board P size

end Follows

theorem Coloured.move {P : Position} (h : P.Coloured) {m : Nat}
    (hm : colorFromMove m = (turnAt P.moveCount).code) : (P.move m).Coloured := by
  intro i hi
  rw [move_historyMoves]
  rw [move_moveCount] at hi
  rcases eq_or_lt_of_le (Nat.lt_succ_iff.mp hi) with rfl | hlt
  · rw [Function.update_self, hm]
  · rw [Function.update_of_ne (by omega)]
    exact h i hlt

/-- **A move on an empty cell extends the record.** The colour of the packed move has to be
that of the player to move, which `move` itself does not ask for. -/
theorem Represents.move {P : Position} {size : Nat} {r : Record size}
    (h : P.Represents r) {m : Nat} (hlegal : P.isLegalMove m = true)
    (hcolor : colorFromMove m = P.playerToMove.code) :
    ∃ r' : Record size, r'.cells = r.cells ++ [cellOf (posFromMove m)] ∧
      (P.move m).Represents r' := by
  obtain ⟨hin, hnew⟩ := (h.follows.isLegalMove_iff m).mp hlegal
  refine ⟨⟨r.cells ++ [cellOf (posFromMove m)], (h.follows.move hin).inSquare, ?_⟩, rfl,
    h.follows.move hin, h.coloured.move ?_⟩
  · exact List.Nodup.append r.nodup (by simp) (by simpa using hnew)
  · rw [hcolor, h.follows.turn]

end Position

/-! ## Symmetries of the square -/

/-- The map on coordinates that `transformPos` implements, for all eight symmetries of the
square. -/
def transformCell (size : Nat) (type : TransformType) (c : Int × Int) : Int × Int :=
  let s : Int := (size : Int) - 1
  match type with
  | .rotate90 => (c.2, s - c.1)
  | .rotate180 => (s - c.1, s - c.2)
  | .rotate270 => (s - c.2, c.1)
  | .flipX => (c.1, s - c.2)
  | .flipY => (s - c.1, c.2)
  | .flipXY => (c.2, c.1)
  | .flipYX => (s - c.2, s - c.1)
  | .identity => c

/-- The transform that undoes another one.  Only the two quarter turns are not their own
inverse. -/
def TransformType.inverse : TransformType → TransformType
  | .rotate90 => .rotate270
  | .rotate270 => .rotate90
  | t => t

section Transform

variable {size : Nat} (type : TransformType) (c : Int × Int)

theorem transformCell_inverse :
    transformCell size type.inverse (transformCell size type c) = c := by
  cases type <;> simp [transformCell, TransformType.inverse]

theorem TransformType.inverse_inverse : type.inverse.inverse = type := by
  cases type <;> rfl

theorem transformCell_of_inverse :
    transformCell size type (transformCell size type.inverse c) = c := by
  have h : transformCell size type.inverse.inverse (transformCell size type.inverse c) = c :=
    transformCell_inverse type.inverse c
  rwa [TransformType.inverse_inverse] at h

theorem transformCell_injective : Function.Injective (transformCell size type) :=
  Function.LeftInverse.injective (transformCell_inverse type)

theorem inSquare_transformCell_iff :
    InSquare size (transformCell size type c) ↔ InSquare size c := by
  cases type <;> simp only [InSquare, transformCell] <;> omega

theorem transformPos_posOf (h : (-5 ≤ c.1 ∧ c.1 < 27) ∧ (-5 ≤ c.2 ∧ c.2 < 27)) :
    Position.transformPos (posOf c) size type = posOf (transformCell size type c) := by
  have hx : coordX (posOf c) = c.1 := coordX_pos h.1 h.2
  have hy : coordY (posOf c) = c.2 := coordY_pos h.1 h.2
  cases type <;> simp only [Position.transformPos, transformCell, hx, hy] <;> rfl

theorem stones_map_transformCell (cells : List (Int × Int)) :
    stones size (cells.map (transformCell size type)) (transformCell size type c) =
      stones size cells c := by
  induction cells using List.reverseRecOn with
  | nil => simp [emptyGrid, inSquare_transformCell_iff]
  | append_singleton cells e ih =>
      rw [List.map_append, List.map_singleton, stones_append_singleton,
        stones_append_singleton, List.length_map]
      by_cases hc : c = e
      · subst hc
        simp
      · rw [Function.update_of_ne hc,
          Function.update_of_ne fun heq => hc (transformCell_injective type heq), ih]

/-- The image of a record under a symmetry, which is a record again: a symmetry maps the
square to itself and keeps different cells apart. -/
def Record.transform (r : Record size) : Record size where
  cells := r.cells.map (transformCell size type)
  inSquare := by
    intro c hc
    obtain ⟨e, he, rfl⟩ := List.mem_map.mp hc
    exact (inSquare_transformCell_iff type e).mpr (r.inSquare e he)
  nodup := r.nodup.map (transformCell_injective type)

end Transform

namespace Position

theorem mem_squareCells_iff {size : Nat} (hsize : size ≤ 22) (p : Nat) :
    p ∈ squareCells size ↔ InSquare size (cellOf p) := by
  simp only [squareCells, List.mem_flatMap, List.mem_range, List.mem_map]
  constructor
  · rintro ⟨x, hx, y, hy, rfl⟩
    have hin : InSquare size ((x : Int), (y : Int)) :=
      ⟨⟨by simp, by simpa using hx⟩, by simp, by simpa using hy⟩
    have hcell := hin.cellOf_posOf hsize
    rw [posOf] at hcell
    rwa [hcell]
  · intro h
    obtain ⟨⟨hx0, hx⟩, hy0, hy⟩ := h
    refine ⟨(cellOf p).1.toNat, by omega, (cellOf p).2.toNat, by omega, ?_⟩
    rw [Int.toNat_of_nonneg hx0, Int.toNat_of_nonneg hy0]
    exact posOf_cellOf (lt_of_inSquare_cellOf hsize ⟨⟨hx0, hx⟩, hy0, hy⟩)

/-- What the first loop of `transform` does to a list of cells. -/
theorem foldl_delPiece (L : List Nat) (P : Position) :
    L.foldl (fun Q p => if Q.board p ≠ .empty then Q.delPiece p else Q) P =
      { P with board := fun q => if q ∈ L then .empty else P.board q } := by
  induction L generalizing P with
  | nil => simp
  | cons p L ih =>
      rw [List.foldl_cons, ih]
      by_cases hempty : P.board p = .empty
      · rw [if_neg (not_not.mpr hempty)]
        congr 1
        funext q
        by_cases hqp : q = p
        · subst hqp
          simp [hempty]
        · simp [hqp]
      · rw [if_pos hempty]
        simp only [delPiece]
        congr 1
        funext q
        by_cases hqp : q = p
        · subst hqp
          simp
        · simp [hqp]

theorem foldl_setPiece_fields (τ : Nat → Nat) (tmp : Nat → Color) (L : List Nat)
    (P : Position) :
    L.foldl (fun Q p => if tmp p ≠ .empty then Q.setPiece (τ p) (tmp p) else Q) P =
      { P with
        board := (L.foldl
          (fun Q p => if tmp p ≠ .empty then Q.setPiece (τ p) (tmp p) else Q) P).board } := by
  induction L generalizing P with
  | nil => rfl
  | cons a L ih =>
      rw [List.foldl_cons, ih]
      split <;> rfl

/-- What the second loop of `transform` does to a list of cells, when it sends different
cells to different cells: each of them gets the stone of the cell that is sent to it, and no
later round replaces it. -/
theorem foldl_setPiece_board (τ : Nat → Nat) (tmp : Nat → Color) (L : List Nat)
    (hinj : ∀ p ∈ L, ∀ q ∈ L, τ p = τ q → p = q) (P : Position) :
    (∀ p ∈ L,
      (L.foldl (fun Q p => if tmp p ≠ .empty then Q.setPiece (τ p) (tmp p) else Q) P).board
        (τ p) = if tmp p ≠ .empty then tmp p else P.board (τ p)) ∧
    (∀ q, (∀ p ∈ L, τ p ≠ q) →
      (L.foldl (fun Q p => if tmp p ≠ .empty then Q.setPiece (τ p) (tmp p) else Q) P).board
        q = P.board q) := by
  induction L generalizing P with
  | nil => simp
  | cons a L ih =>
      obtain ⟨hmem, hout⟩ :=
        ih (fun p hp q hq => hinj p (List.mem_cons_of_mem a hp) q (List.mem_cons_of_mem a hq))
          (if tmp a ≠ .empty then P.setPiece (τ a) (tmp a) else P)
      have hself : (if tmp a ≠ .empty then P.setPiece (τ a) (tmp a) else P).board (τ a) =
          if tmp a ≠ .empty then tmp a else P.board (τ a) := by
        split <;> simp
      have hother : ∀ q, q ≠ τ a →
          (if tmp a ≠ .empty then P.setPiece (τ a) (tmp a) else P).board q = P.board q := by
        intro q hq
        split <;> simp [hq]
      refine ⟨fun p hp => ?_, fun q hq => ?_⟩
      · rw [List.foldl_cons]
        by_cases hpa : p = a
        · subst hpa
          by_cases hpL : p ∈ L
          · rw [hmem p hpL, hself]
            split <;> rfl
          · rw [hout (τ p) fun e he heq => hpL ?_, hself]
            rwa [← hinj e (List.mem_cons_of_mem p he) p List.mem_cons_self heq]
        · have hpL : p ∈ L := (List.mem_cons.mp hp).resolve_left hpa
          have hne : τ p ≠ τ a := fun heq => hpa (hinj p hp a List.mem_cons_self heq)
          rw [hmem p hpL, hother _ hne]
      · rw [List.foldl_cons, hout q fun p hp => hq p (List.mem_cons_of_mem a hp)]
        exact hother q fun h => hq a List.mem_cons_self h.symm

section TransformPosition

variable {P : Position} {size : Nat} {cells : List (Int × Int)}

theorem transformPos_of_inSquare (hsize : size ≤ 22) (type : TransformType) {p : Nat}
    (hp : InSquare size (cellOf p)) :
    transformPos p size type = posOf (transformCell size type (cellOf p)) := by
  rw [← transformPos_posOf type (cellOf p) (hp.range hsize),
    posOf_cellOf (lt_of_inSquare_cellOf hsize hp)]

theorem cellOf_transformPos (hsize : size ≤ 22) (type : TransformType) {p : Nat}
    (hp : InSquare size (cellOf p)) :
    cellOf (transformPos p size type) = transformCell size type (cellOf p) := by
  rw [transformPos_of_inSquare hsize type hp]
  exact ((inSquare_transformCell_iff type _).mpr hp).cellOf_posOf hsize

theorem transformPos_inj (hsize : size ≤ 22) (type : TransformType) {p q : Nat}
    (hp : InSquare size (cellOf p)) (hq : InSquare size (cellOf q))
    (heq : transformPos p size type = transformPos q size type) : p = q := by
  have hcells := congrArg cellOf heq
  rw [cellOf_transformPos hsize type hp, cellOf_transformPos hsize type hq] at hcells
  rw [← posOf_cellOf (lt_of_inSquare_cellOf hsize hp), transformCell_injective type hcells,
    posOf_cellOf (lt_of_inSquare_cellOf hsize hq)]

/-- The two loops of `transform` change nothing but the board. -/
theorem transform_loops_fields (P : Position) (tmp : Nat → Color) (type : TransformType) :
    P.clearStones.placeTransformed tmp type =
      { P with board := (P.clearStones.placeTransformed tmp type).board } := by
  rw [placeTransformed, foldl_setPiece_fields, clearStones, foldl_delPiece]

/-- The two loops of `transform` move every stone to its transformed cell: each cell gets
the colour of the cell that the inverse transform sends it to.  The first loop has emptied
the square, so that nothing of the old board is left. -/
theorem BoardShape.board_transform (hshape : P.BoardShape) (type : TransformType) (q : Nat) :
    (P.clearStones.placeTransformed P.board type).board q =
      P.grid (transformCell P.boardSize type.inverse (cellOf q)) := by
  have hsize := hshape.size_le
  have hclear : P.clearStones = { P with
      board := fun q => if InSquare P.boardSize (cellOf q) then .empty else P.board q } := by
    rw [clearStones, foldl_delPiece]
    simp only [mem_squareCells_iff hsize]
  obtain ⟨hmoved, hkept⟩ := foldl_setPiece_board (fun p => transformPos p P.boardSize type)
    P.board (squareCells P.boardSize)
    (fun p hp q hq => transformPos_inj hsize type ((mem_squareCells_iff hsize p).mp hp)
      ((mem_squareCells_iff hsize q).mp hq)) P.clearStones
  have hbody : P.clearStones.placeTransformed P.board type = (squareCells P.boardSize).foldl
      (fun Q p => if P.board p ≠ .empty then
        Q.setPiece (transformPos p P.boardSize type) (P.board p) else Q) P.clearStones := by
    have hclearSize : P.clearStones.boardSize = P.boardSize := by rw [hclear]
    rw [placeTransformed, hclearSize]
  rw [hbody]
  have hinverse : InSquare P.boardSize (transformCell P.boardSize type.inverse (cellOf q)) ↔
      InSquare P.boardSize (cellOf q) := inSquare_transformCell_iff type.inverse (cellOf q)
  by_cases hq : InSquare P.boardSize (cellOf q)
  · -- `q` is the image of the cell that the inverse transform sends it to
    have hcell := (hinverse.mpr hq).cellOf_posOf hsize
    have hpre : InSquare P.boardSize
        (cellOf (posOf (transformCell P.boardSize type.inverse (cellOf q)))) := by
      rw [hcell]
      exact hinverse.mpr hq
    have himage : transformPos (posOf (transformCell P.boardSize type.inverse (cellOf q)))
        P.boardSize type = q := by
      rw [transformPos_of_inSquare hsize type hpre, hcell, transformCell_of_inverse,
        posOf_cellOf (lt_of_inSquare_cellOf hsize hq)]
    have hval := hmoved _ ((mem_squareCells_iff hsize _).mpr hpre)
    simp only [himage] at hval
    rw [hval, hclear, hshape.board_eq_grid, hcell]
    simp only [if_pos hq]
    split
    · rfl
    · next hempty => exact (not_not.mp hempty).symm
  · have hout : ∀ p ∈ squareCells P.boardSize, transformPos p P.boardSize type ≠ q := by
      intro p hp heq
      have hpin := (mem_squareCells_iff hsize p).mp hp
      rw [← heq, cellOf_transformPos hsize type hpin] at hq
      exact hq ((inSquare_transformCell_iff type _).mpr hpin)
    rw [hkept q hout, hclear, hshape.grid_eq_wall_iff.mpr (mt hinverse.mp hq)]
    simp only [if_neg hq]
    exact (hshape.wall_iff q).mpr hq

theorem Follows.board_transform (h : P.Follows size cells) (type : TransformType) (q : Nat) :
    (P.clearStones.placeTransformed P.board type).board q =
      stones size (cells.map (transformCell size type)) (cellOf q) := by
  rw [h.shape.board_transform, h.grid_eq, h.boardSize, ← stones_map_transformCell type,
    transformCell_of_inverse]

theorem transform_eq (P : Position) {type : TransformType} (hid : type ≠ .identity) :
    P.transform type =
      { P with
        board := (P.clearStones.placeTransformed P.board type).board
        historyMoves := fun i =>
          if i < P.moveCount then
            buildMovePos (transformPos (posFromMove (P.historyMoves i)) P.boardSize type)
              (colorFromMove (P.historyMoves i))
          else P.historyMoves i
        winConnectionPos := fun i =>
          if i < P.winConnectionLen then
            transformPos (P.winConnectionPos i) P.boardSize type
          else P.winConnectionPos i } := by
  rw [transform, if_neg hid, transform_loops_fields]

theorem transform_boardSize (P : Position) (type : TransformType) :
    (P.transform type).boardSize = P.boardSize := by
  by_cases hid : type = .identity
  · rw [transform, if_pos hid]
  · rw [transform_eq P hid]

theorem BoardShape.transform_board (hshape : P.BoardShape) (type : TransformType) (q : Nat) :
    (P.transform type).board q =
      P.grid (transformCell P.boardSize type.inverse (cellOf q)) := by
  by_cases hid : type = .identity
  · subst hid
    exact hshape.board_eq_grid q
  · rw [transform_eq P hid]
    exact hshape.board_transform type q

/-- `transform` leaves the walls where they are. -/
theorem BoardShape.transform (hshape : P.BoardShape) (type : TransformType) :
    (P.transform type).BoardShape := by
  have hsqr : (P.transform type).boardSizeSqr = P.boardSizeSqr := by
    by_cases hid : type = .identity
    · rw [Position.transform, if_pos hid]
    · rw [transform_eq P hid]
  refine ⟨?_, ?_, fun q => ?_⟩
  · rw [transform_boardSize]
    exact hshape.size_le
  · rw [transform_boardSize, hsqr, hshape.sqr]
  · rw [hshape.transform_board, hshape.grid_eq_wall_iff, transform_boardSize,
      inSquare_transformCell_iff]

/-- **`transform` moves the colour of every cell to the transformed cell**, on every board,
whether or not it is that of a game. -/
theorem BoardShape.grid_transform (hshape : P.BoardShape) (type : TransformType)
    (c : Int × Int) :
    (P.transform type).grid (transformCell P.boardSize type c) = P.grid c := by
  have hsize := transform_boardSize P type
  by_cases hin : InSquare P.boardSize c
  · have himage := (inSquare_transformCell_iff type c).mpr hin
    rw [← (hshape.transform type).board_posOf (himage.range hshape.size_le),
      hshape.transform_board, himage.cellOf_posOf hshape.size_le, transformCell_inverse]
  · have himage := mt (inSquare_transformCell_iff type c).mp hin
    rw [hshape.grid_eq_wall_iff.mpr hin, (hshape.transform type).grid_eq_wall_iff, hsize]
    exact himage

/-- **`transform` maps the cells of the list.** The transformed position is the one that is
reached by playing the transformed cells, and not only one with the same board. -/
theorem Follows.transform (h : P.Follows size cells) (type : TransformType) :
    (P.transform type).Follows size (cells.map (transformCell size type)) := by
  by_cases hid : type = .identity
  · subst hid
    have hmap : cells.map (transformCell size .identity) = cells :=
      (List.map_congr_left fun c _ => rfl).trans (List.map_id cells)
    rw [hmap]
    exact h
  · rw [transform_eq P hid]
    refine ⟨h.size_le, fun c hc => ?_, h.boardSize, h.sqr, ?_, h.turn,
      h.board_transform type⟩
    · obtain ⟨e, he, rfl⟩ := List.mem_map.mp hc
      exact (inSquare_transformCell_iff type e).mpr (h.inSquare e he)
    · rw [← h.moves, historyCells, historyCells, List.map_map]
      refine List.map_congr_left fun i hi => ?_
      have hlt := List.mem_range.mp hi
      have hcell : InSquare size (cellOf (posFromMove (P.historyMoves i))) := by
        rw [h.history (h.moveCount ▸ hlt)]
        exact h.inSquare _ (List.getElem_mem _)
      have hmoved : InSquare size
          (cellOf (transformPos (posFromMove (P.historyMoves i)) size type)) := by
        rw [cellOf_transformPos h.size_le type hcell]
        exact (inSquare_transformCell_iff type _).mpr hcell
      simp only [if_pos hlt, Function.comp_apply, h.boardSize]
      rw [posFromMove_buildMovePos,
        Nat.mod_eq_of_lt (lt_of_inSquare_cellOf h.size_le hmoved),
        cellOf_transformPos h.size_le type hcell]

/-- **`transform` maps records to records**, and keeps the colours of the moves.  A game may
therefore go on from a transformed opening as from any other. -/
theorem Represents.transform {r : Record size} (h : P.Represents r) (type : TransformType) :
    (P.transform type).Represents (r.transform type) := by
  refine ⟨h.follows.transform type, ?_⟩
  by_cases hid : type = .identity
  · subst hid
    exact h.coloured
  · rw [transform_eq P hid]
    intro i hi
    have hi : i < P.moveCount := hi
    have hcell : InSquare size (cellOf (posFromMove (P.historyMoves i))) := by
      rw [h.follows.history (h.follows.moveCount ▸ hi)]
      exact h.follows.inSquare _ (List.getElem_mem _)
    have hmoved : InSquare size
        (cellOf (transformPos (posFromMove (P.historyMoves i)) size type)) := by
      rw [cellOf_transformPos h.follows.size_le type hcell]
      exact (inSquare_transformCell_iff type _).mpr hcell
    have hlt := lt_of_inSquare_cellOf h.follows.size_le hmoved
    simp only [if_pos hi, h.follows.boardSize, h.coloured i hi]
    refine colorFromMove_buildMovePos hlt ?_
    have := (turnAt i).code_lt
    omega

end TransformPosition

end Position

end GomokuCli
