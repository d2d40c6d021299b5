import GomokuCli.Line

/-!
# Five in a line

`check_five_in_line_side` sweeps every row, column, diagonal and antidiagonal of
the square once, counting the current run of one side and calling
`check_five_helper` whenever a run ends.  The main result is that the test is
independent of all this: it succeeds iff the side has a winning line on the
grid, where a line is any line of the plane (`checkFiveInLineSide_iff`).

The function also records the last winning run it met, so it returns the
position it leaves behind; only the two fields of the win connection differ.
Both results are read off the list of the winning runs, in the order of the sweeps:
their number is `fiveCount`, and the position is what recording them one after the
other makes of it.
-/

namespace GomokuCli

open LineRun

namespace Position

/-- The local variables of `check_five_in_line_side`, and the object itself. -/
structure Sweep where
  continueCount : Nat
  fiveCount : Nat
  connectionLine : Nat → Nat
  position : Position

/-- `check_five_helper`, called where a run ends: the run is counted and recorded if it is
long enough to win.  The length of the run is reset by the callers. -/
def checkFiveHelper (allowLongConnc : Bool) (s : Sweep) : Sweep :=
  let foundFive := if allowLongConnc then s.continueCount ≥ 5 else s.continueCount = 5
  if foundFive then
    { s with
      fiveCount := s.fiveCount + 1
      position :=
        { s.position with
          winConnectionPos := fun i =>
            if i < s.continueCount then s.connectionLine i
            else s.position.winConnectionPos i
          winConnectionLen := s.continueCount } }
  else s

/-- The body shared by the four loops: look at the cell `p`. -/
def visit (side : Color) (allow : Bool) (s : Sweep) (p : Nat) : Sweep :=
  if s.position.board p = side then
    { s with
      continueCount := s.continueCount + 1
      connectionLine := Function.update s.connectionLine s.continueCount p }
  else { checkFiveHelper allow s with continueCount := 0 }

/-- One line: the cells in order, and the run that the end of the line ends.  A run does not
go on in the next line. -/
def sweepLine (side : Color) (allow : Bool) (s : Sweep) (cells : List Nat) : Sweep :=
  checkFiveHelper allow (cells.foldl (visit side allow) { s with continueCount := 0 })

/-- The cells of `while (isInBoard(POS(i, j)))` with steps `di` and `dj`.  The
walk leaves the square before the bound is reached (`walk_eq`). -/
def walk (P : Position) (di dj : Int) : Nat → Int → Int → List Nat
  | 0, _, _ => []
  | n + 1, i, j =>
      if P.isInBoard (pos i j) then pos i j :: walk P di dj n (i + di) (j + dj) else []

/-- The cells of row `i` in the order of the first sweep. -/
def rowCells (P : Position) (i : Nat) : List Nat :=
  (List.range P.boardSize).map fun (j : Nat) => pos i j

/-- The cells of column `j` in the order of the second sweep. -/
def columnCells (P : Position) (j : Nat) : List Nat :=
  (List.range P.boardSize).map fun (i : Nat) => pos i j

/-- The diagonal number `k`, for `-(boardSize - 1) ≤ k < boardSize`. -/
def diagonalCells (P : Position) (k : Int) : List Nat :=
  if k ≤ 0 then P.walk 1 1 maxBoardSize 0 (-k) else P.walk 1 1 maxBoardSize k 0

/-- The antidiagonal number `k`, for `0 ≤ k < 2 * boardSize - 1`. -/
def antidiagonalCells (P : Position) (k : Nat) : List Nat :=
  let i : Int := min (k : Int) ((P.boardSize : Int) - 1)
  P.walk (-1) 1 maxBoardSize i (k - i)

/-- All lines in the order of the four sweeps. -/
def lines (P : Position) : List (List Nat) :=
  (List.range P.boardSize).map P.rowCells ++
    (List.range P.boardSize).map P.columnCells ++
    (List.range (2 * P.boardSize - 1)).map
      (fun (t : Nat) => P.diagonalCells (-((P.boardSize : Int) - 1) + t)) ++
    (List.range (2 * P.boardSize - 1)).map P.antidiagonalCells

/-- `check_five_in_line_side`: all four sweeps are made, also after a line has been found,
and the last winning run is the one that stays recorded. -/
def checkFiveInLineSide (P : Position) (side : Color) (allow : Bool) : Bool × Position :=
  let s := P.lines.foldl (sweepLine side allow)
    { continueCount := 0
      fiveCount := 0
      connectionLine := fun _ => 0
      position := P }
  (decide (s.fiveCount > 0), s.position)

/-- `check_five_in_line_lastmove`: the side is that of the stone at the last move, and a
game of fewer than five moves is not looked at. -/
def checkFiveInLineLastmove (P : Position) (allow : Bool) : Bool × Position :=
  if P.moveCount < 5 then (false, P)
  else
    let lastPos := posFromMove (P.historyMoves (P.moveCount - 1))
    let lastPiece := P.board lastPos
    P.checkFiveInLineSide lastPiece allow

/-! ## What a sweep changes -/

/-- Two positions that differ at most in the recorded win connection.  Nothing that the
referee decides depends on the connection, so that the two can stand for each other. -/
structure SameButWin (P Q : Position) : Prop where
  board : Q.board = P.board
  boardSize : Q.boardSize = P.boardSize
  boardSizeSqr : Q.boardSizeSqr = P.boardSizeSqr
  moveCount : Q.moveCount = P.moveCount
  historyMoves : Q.historyMoves = P.historyMoves
  playerToMove : Q.playerToMove = P.playerToMove

namespace SameButWin

variable {P Q R : Position}

@[refl] theorem refl (P : Position) : SameButWin P P := ⟨rfl, rfl, rfl, rfl, rfl, rfl⟩

theorem trans (h : SameButWin P Q) (h' : SameButWin Q R) : SameButWin P R :=
  ⟨h'.board.trans h.board, h'.boardSize.trans h.boardSize,
    h'.boardSizeSqr.trans h.boardSizeSqr, h'.moveCount.trans h.moveCount,
    h'.historyMoves.trans h.historyMoves, h'.playerToMove.trans h.playerToMove⟩

theorem grid (h : SameButWin P Q) : Q.grid = P.grid := by
  funext c
  simp only [Position.grid, h.board, h.boardSize]

theorem shape (h : SameButWin P Q) (hshape : P.BoardShape) : Q.BoardShape := by
  refine ⟨?_, ?_, fun p => ?_⟩
  · rw [h.boardSize]
    exact hshape.size_le
  · rw [h.boardSizeSqr, h.boardSize, hshape.sqr]
  · rw [h.board, h.boardSize]
    exact hshape.wall_iff p

theorem historyCells (h : SameButWin P Q) : Q.historyCells = P.historyCells := by
  simp only [Position.historyCells, h.moveCount, h.historyMoves]

theorem follows (h : SameButWin P Q) {size : Nat} {cells : List (Int × Int)}
    (hfollows : P.Follows size cells) : Q.Follows size cells where
  size_le := hfollows.size_le
  inSquare := hfollows.inSquare
  boardSize := h.boardSize.trans hfollows.boardSize
  sqr := h.boardSizeSqr.trans hfollows.sqr
  moves := h.historyCells.trans hfollows.moves
  turn := by rw [h.playerToMove, h.moveCount, hfollows.turn]
  board := by
    intro p
    rw [h.board, hfollows.board]

theorem coloured (h : SameButWin P Q) (hcoloured : P.Coloured) : Q.Coloured := by
  intro i hi
  rw [h.historyMoves]
  exact hcoloured i (h.moveCount ▸ hi)

theorem represents (h : SameButWin P Q) {size : Nat} {r : Record size}
    (hrep : P.Represents r) : Q.Represents r :=
  ⟨h.follows hrep.follows, h.coloured hrep.coloured⟩

end SameButWin

/-! ## The winning runs -/

/-- What `check_five_helper` writes for a run that wins. -/
def recordRun (P : Position) (run : List Nat) : Position :=
  { P with
    winConnectionPos := fun i => if i < run.length then run.getD i 0 else P.winConnectionPos i
    winConnectionLen := run.length }

/-- The cells of a run of a line, given by its start and its length. -/
def runCells (cells : List Nat) (r : Nat × Nat) : List Nat := (cells.drop r.1).take r.2

section Runs

variable (side : Color) (allow : Bool)

/-- The cells of a line as a sequence of marks. -/
def marks (board : Nat → Color) (cells : List Nat) (t : Nat) : Bool :=
  decide (board (cells.getD t 0) = side)

/-- Of some runs of a line, those that win. -/
def winning (cells : List Nat) (rs : List (Nat × Nat)) : List (List Nat) :=
  (rs.filter fun r => Wins allow r.2).map (runCells cells)

/-- The winning runs of a line. -/
def lineWins (board : Nat → Color) (cells : List Nat) : List (List Nat) :=
  winning allow cells (runs (marks side board cells) cells.length)

/-- All winning runs, in the order of the sweeps.  Both results of `check_five_in_line_side`
are read off this list: the verdict is that it is not empty, and what is recorded is its
last entry. -/
def wonRuns (P : Position) : List (List Nat) := P.lines.flatMap (lineWins side allow P.board)

/-- `fiveCount` at the end of `check_five_in_line_side`. -/
def fiveCountSide (P : Position) : Nat :=
  (P.lines.foldl (sweepLine side allow)
    { continueCount := 0
      fiveCount := 0
      connectionLine := fun _ => 0
      position := P }).fiveCount

variable {side allow}

theorem winning_append_singleton (cells : List Nat) (rs : List (Nat × Nat)) (r : Nat × Nat) :
    winning allow cells (rs ++ [r]) =
      winning allow cells rs ++ (if Wins allow r.2 then [runCells cells r] else []) := by
  unfold winning
  rw [List.filter_append, List.map_append]
  by_cases h : Wins allow r.2
  · rw [if_pos h, List.filter_cons_of_pos (by simpa using h)]
    rfl
  · rw [if_neg h, List.filter_cons_of_neg (by simpa using h)]
    rfl

theorem foldl_recordRun_same (won : List (List Nat)) (P : Position) :
    SameButWin P (won.foldl recordRun P) := by
  induction won generalizing P with
  | nil => exact SameButWin.refl P
  | cons run won ih =>
      have hrecord : SameButWin P (P.recordRun run) := ⟨rfl, rfl, rfl, rfl, rfl, rfl⟩
      exact hrecord.trans (ih (P.recordRun run))

/-- The current run ends with `run`: it is counted and recorded if it wins. -/
theorem checkFiveHelper_eq (allow : Bool) {s : Sweep} {run : List Nat}
    (hlength : run.length = s.continueCount)
    (hcells : ∀ i < run.length, s.connectionLine i = run.getD i 0) :
    (checkFiveHelper allow s).fiveCount =
        s.fiveCount + (if Wins allow s.continueCount then [run] else []).length ∧
      (checkFiveHelper allow s).position =
        (if Wins allow s.continueCount then [run] else []).foldl recordRun s.position := by
  have hwins : (if allow then s.continueCount ≥ 5 else s.continueCount = 5) ↔
      Wins allow s.continueCount := by
    cases allow <;> simp only [Wins, Bool.false_eq_true, if_false, if_true] <;> omega
  unfold checkFiveHelper
  by_cases h : Wins allow s.continueCount
  · simp only [if_pos h, if_pos (hwins.mpr h)]
    refine ⟨rfl, ?_⟩
    rw [List.foldl_cons, List.foldl_nil, recordRun]
    simp only [Position.mk.injEq, true_and, ← hlength]
    funext i
    by_cases hi : i < run.length
    · rw [if_pos hi, if_pos hi, hcells i hi]
    · rw [if_neg hi, if_neg hi]
  · simp only [if_neg h, if_neg (mt hwins.mp h)]
    exact ⟨rfl, rfl⟩

/-- What has happened after `t` cells of a line, in terms of the abstract sweep.  The
entries of `connectionLine` belong to the invariant as far as the current run reaches; above
that the array still holds older runs, which are never read. -/
structure Swept (side : Color) (allow : Bool) (cells : List Nat) (s : Sweep) (t : Nat)
    (s' : Sweep) : Prop where
  continueCount : s'.continueCount = (sweep (marks side s.position.board cells) t).1
  connectionLine : ∀ i < s'.continueCount,
    s'.connectionLine i = cells.getD (t - s'.continueCount + i) 0
  fiveCount : s'.fiveCount = s.fiveCount +
    (winning allow cells (sweep (marks side s.position.board cells) t).2).length
  position : s'.position =
    (winning allow cells (sweep (marks side s.position.board cells) t).2).foldl recordRun
      s.position

/-- The run that the sweep is in, as cells. -/
theorem Swept.helper {cells : List Nat} {s s' : Sweep} {t : Nat} (h : Swept side allow cells s t s')
    (ht : t ≤ cells.length) :
    (checkFiveHelper allow s').fiveCount = s.fiveCount +
        (winning allow cells ((sweep (marks side s.position.board cells) t).2 ++
          [(t - s'.continueCount, s'.continueCount)])).length ∧
      (checkFiveHelper allow s').position =
        (winning allow cells ((sweep (marks side s.position.board cells) t).2 ++
          [(t - s'.continueCount, s'.continueCount)])).foldl recordRun s.position := by
  have hle : s'.continueCount ≤ t := by
    rw [h.continueCount]
    exact (sweep_count _ t).1
  have hlength : (runCells cells (t - s'.continueCount, s'.continueCount)).length =
      s'.continueCount := by
    rw [runCells, List.length_take, List.length_drop]
    omega
  have hcells : ∀ i < (runCells cells (t - s'.continueCount, s'.continueCount)).length,
      s'.connectionLine i =
        (runCells cells (t - s'.continueCount, s'.continueCount)).getD i 0 := by
    intro i hi
    rw [hlength] at hi
    rw [h.connectionLine i hi, runCells, List.getD_eq_getElem?_getD, List.getD_eq_getElem?_getD,
      List.getElem?_take_of_lt hi, List.getElem?_drop]
  obtain ⟨hcount, hposition⟩ := checkFiveHelper_eq allow hlength hcells
  rw [hcount, hposition, winning_append_singleton, List.length_append, List.foldl_append,
    h.fiveCount, h.position, Nat.add_assoc]
  exact ⟨rfl, rfl⟩

/-- The board is not touched, so every cell is compared with the same colour. -/
theorem Swept.board {cells : List Nat} {s s' : Sweep} {t : Nat}
    (h : Swept side allow cells s t s') : s'.position.board = s.position.board := by
  rw [h.position]
  exact (foldl_recordRun_same _ _).board

/-- One more cell keeps the invariant.  It either extends the current run or ends it, and in
the second case the run is counted and recorded if it wins. -/
theorem Swept.visit {cells : List Nat} {s s' : Sweep} {t : Nat}
    (h : Swept side allow cells s t s') (ht : t < cells.length) :
    Swept side allow cells s (t + 1) (visit side allow s' cells[t]) := by
  have hget : cells.getD t 0 = cells[t] := by
    rw [List.getD_eq_getElem?_getD, List.getElem?_eq_getElem ht]
    rfl
  have hle : s'.continueCount ≤ t := by
    rw [h.continueCount]
    exact (sweep_count _ t).1
  by_cases hmark : s.position.board cells[t] = side
  · -- the cell extends the run
    have habs : marks side s.position.board cells t = true := by
      rw [marks, hget]
      exact decide_eq_true hmark
    rw [Position.visit, h.board, if_pos hmark]
    refine ⟨?_, fun i hi => ?_, ?_, ?_⟩
    · rw [sweep_succ_of_marked habs, h.continueCount]
    · change Function.update s'.connectionLine s'.continueCount cells[t] i = _
      change i < s'.continueCount + 1 at hi
      change _ = cells.getD (t + 1 - (s'.continueCount + 1) + i) 0
      rw [Nat.add_sub_add_right]
      rcases Nat.lt_succ_iff_lt_or_eq.mp hi with hlt | rfl
      · rw [Function.update_of_ne (Nat.ne_of_lt hlt), h.connectionLine i hlt]
      · rw [Function.update_self, Nat.sub_add_cancel hle, hget]
    · rw [sweep_succ_of_marked habs]
      exact h.fiveCount
    · rw [sweep_succ_of_marked habs]
      exact h.position
  · -- the cell ends the run
    have habs : marks side s.position.board cells t = false := by
      rw [marks, hget]
      exact decide_eq_false hmark
    obtain ⟨hcount, hposition⟩ := h.helper ht.le
    rw [h.continueCount] at hcount hposition
    rw [Position.visit, h.board, if_neg hmark]
    refine ⟨?_, fun i hi => ?_, ?_, ?_⟩
    · rw [sweep_succ_of_unmarked habs]
    · exact absurd hi (Nat.not_lt_zero i)
    · rw [sweep_succ_of_unmarked habs]
      exact hcount
    · rw [sweep_succ_of_unmarked habs]
      exact hposition

variable (side allow)

theorem foldl_visit_swept (s : Sweep) (cells : List Nat) :
    ∀ t ≤ cells.length, Swept side allow cells s t
      ((cells.take t).foldl (Position.visit side allow) { s with continueCount := 0 }) := by
  intro t
  induction t with
  | zero =>
      intro _
      exact ⟨rfl, fun i hi => absurd hi (Nat.not_lt_zero i), rfl, rfl⟩
  | succ t ih =>
      intro ht
      have htake : cells.take (t + 1) = cells.take t ++ [cells[t]] := by
        rw [List.take_add_one, List.getElem?_eq_getElem ht]
        rfl
      rw [htake, List.foldl_append, List.foldl_cons, List.foldl_nil]
      exact (ih (Nat.le_of_succ_le ht)).visit ht

/-- **A line adds its winning runs**, in order, to those of the lines before it, both to the
number and to what is recorded. -/
theorem sweepLine_eq (s : Sweep) (cells : List Nat) :
    (sweepLine side allow s cells).fiveCount =
        s.fiveCount + (lineWins side allow s.position.board cells).length ∧
      (sweepLine side allow s cells).position =
        (lineWins side allow s.position.board cells).foldl recordRun s.position := by
  have hswept := foldl_visit_swept side allow s cells cells.length le_rfl
  obtain ⟨hcount, hposition⟩ := hswept.helper le_rfl
  rw [hswept.continueCount, List.take_length] at hcount hposition
  exact ⟨hcount, hposition⟩

theorem foldl_sweepLine_eq (ls : List (List Nat)) (s : Sweep) :
    (ls.foldl (sweepLine side allow) s).fiveCount =
        s.fiveCount + (ls.flatMap (lineWins side allow s.position.board)).length ∧
      (ls.foldl (sweepLine side allow) s).position =
        (ls.flatMap (lineWins side allow s.position.board)).foldl recordRun s.position := by
  induction ls generalizing s with
  | nil => exact ⟨rfl, rfl⟩
  | cons cells ls ih =>
      obtain ⟨hcount, hposition⟩ := sweepLine_eq side allow s cells
      have hboard : (sweepLine side allow s cells).position.board = s.position.board := by
        rw [hposition]
        exact (foldl_recordRun_same _ _).board
      obtain ⟨hcounts, hpositions⟩ := ih (sweepLine side allow s cells)
      rw [List.foldl_cons, hcounts, hpositions, hboard, hcount, hposition, List.flatMap_cons,
        List.length_append, List.foldl_append, Nat.add_assoc]
      exact ⟨rfl, rfl⟩

/-- **The sweeps count and record all winning runs**, each of them once for each line that
it lies on, which is one. -/
theorem fiveCountSide_eq (P : Position) :
    fiveCountSide side allow P = (wonRuns side allow P).length := by
  have hfold := (foldl_sweepLine_eq side allow P.lines
    { continueCount := 0, fiveCount := 0, connectionLine := fun _ => 0, position := P }).1
  exact hfold.trans (Nat.zero_add _)

theorem checkFiveInLineSide_eq (P : Position) :
    P.checkFiveInLineSide side allow =
      (decide (0 < fiveCountSide side allow P), (wonRuns side allow P).foldl recordRun P) :=
  Prod.ext rfl (foldl_sweepLine_eq side allow P.lines
    { continueCount := 0, fiveCount := 0, connectionLine := fun _ => 0, position := P }).2

theorem length_wonRuns_pos_iff (P : Position) :
    0 < (wonRuns side allow P).length ↔
      ∃ cells ∈ P.lines, ∃ r ∈ runs (marks side P.board cells) cells.length, Wins allow r.2 := by
  rw [List.length_pos_iff_exists_mem]
  constructor
  · rintro ⟨run, hrun⟩
    obtain ⟨cells, hcells, hrun⟩ := List.mem_flatMap.mp hrun
    obtain ⟨r, hr, -⟩ := List.mem_map.mp hrun
    obtain ⟨hmem, hwins⟩ := List.mem_filter.mp hr
    exact ⟨cells, hcells, r, hmem, of_decide_eq_true hwins⟩
  · rintro ⟨cells, hcells, r, hr, hwins⟩
    refine ⟨runCells cells r, List.mem_flatMap.mpr ⟨cells, hcells, ?_⟩⟩
    exact List.mem_map_of_mem (List.mem_filter.mpr ⟨hr, decide_eq_true hwins⟩)

end Runs

/-- `check_five_in_line_side` writes nothing but the win connection. -/
theorem checkFiveInLineSide_same (P : Position) (side : Color) (allow : Bool) :
    SameButWin P (P.checkFiveInLineSide side allow).2 := by
  rw [checkFiveInLineSide_eq]
  exact foldl_recordRun_same _ P

theorem checkFiveInLineLastmove_same (P : Position) (allow : Bool) :
    SameButWin P (P.checkFiveInLineLastmove allow).2 := by
  unfold checkFiveInLineLastmove
  split
  · exact SameButWin.refl P
  · exact checkFiveInLineSide_same P _ allow

/-! ## The lines of the square -/

/-- `cells` is the part inside the square of a line of the plane: `L` cells from `start` on,
along `v`.  The whole part is meant, so that what is next to its ends is a wall. -/
structure LineCells (size : Nat) (cells : List Nat) (start v : Int × Int) (L : Nat) :
    Prop where
  cells_eq : cells = (List.range L).map fun (t : Nat) => posOf (alongVec start v t)
  inSquare_iff : ∀ k : Int, InSquare size (alongVec start v k) ↔ 0 ≤ k ∧ k < L

theorem rowCells_line (P : Position) {i : Nat} (hi : i < P.boardSize) :
    LineCells P.boardSize (P.rowCells i) ((i : Int), 0) (0, 1) P.boardSize := by
  constructor
  · simp [rowCells, posOf, alongVec]
  · intro k
    simp only [InSquare, alongVec]
    omega

theorem columnCells_line (P : Position) {j : Nat} (hj : j < P.boardSize) :
    LineCells P.boardSize (P.columnCells j) (0, (j : Int)) (1, 0) P.boardSize := by
  constructor
  · simp [columnCells, posOf, alongVec]
  · intro k
    simp only [InSquare, alongVec]
    omega

section Walk

variable {P : Position} (hshape : P.BoardShape)
include hshape

/-- The `while` loop collects the cells of the line up to the wall.  The ring of walls is
reached before a coordinate leaves the range in which packed cells are told apart. -/
theorem walk_eq (di dj : Int) (hdi : -1 ≤ di ∧ di ≤ 1) (hdj : -1 ≤ dj ∧ dj ≤ 1) :
    ∀ (L n : Nat) (i j : Int), L < n → (-5 < i ∧ i < 26) → (-5 < j ∧ j < 26) →
      (∀ t : Int, 0 ≤ t → (InSquare P.boardSize (alongVec (i, j) (di, dj) t) ↔ t < L)) →
      P.walk di dj n i j =
        (List.range L).map fun (t : Nat) => posOf (alongVec (i, j) (di, dj) t) := by
  intro L
  induction L with
  | zero =>
      intro n i j hn hi hj hin
      obtain ⟨n, rfl⟩ : ∃ m, n = m + 1 := ⟨n - 1, by omega⟩
      have hout : ¬ InSquare P.boardSize (i, j) := by
        have := (hin 0 (le_refl 0)).not.mpr (by simp)
        rwa [alongVec_zero] at this
      have hwall : ¬ P.isInBoard (pos i j) = true := by
        rw [isInBoard_iff, hshape.board_pos (by omega) (by omega), ne_eq, not_not,
          hshape.grid_eq_wall_iff]
        exact hout
      rw [walk, if_neg hwall]
      rfl
  | succ L ih =>
      intro n i j hn hi hj hin
      obtain ⟨n, rfl⟩ : ∃ m, n = m + 1 := ⟨n - 1, by omega⟩
      have hhere : InSquare P.boardSize (i, j) := by
        have := (hin 0 (le_refl 0)).mpr (by simp)
        rwa [alongVec_zero] at this
      have hopen : P.isInBoard (pos i j) = true := by
        rw [isInBoard_iff, hshape.board_pos (by omega) (by omega), ne_eq,
          hshape.grid_eq_wall_iff, not_not]
        exact hhere
      have hstep : ∀ t : Int, alongVec (i + di, j + dj) (di, dj) t =
          alongVec (i, j) (di, dj) (t + 1) := by
        intro t
        simp only [alongVec, Prod.mk.injEq]
        constructor <;> ring
      have hsize := hshape.size_le
      obtain ⟨⟨hi0, hin'⟩, hj0, hjn⟩ := hhere
      have hi0 : 0 ≤ i := hi0
      have hin' : i < P.boardSize := hin'
      have hj0 : 0 ≤ j := hj0
      have hjn : j < P.boardSize := hjn
      rw [walk, if_pos hopen,
        ih n (i + di) (j + dj) (by omega) (by omega) (by omega) fun t ht => by
          rw [hstep, hin (t + 1) (by omega)]
          omega,
        List.range_succ_eq_map, List.map_cons, List.map_map]
      refine List.cons_eq_cons.mpr ⟨?_, ?_⟩
      · simp [posOf, alongVec]
      · refine List.map_congr_left fun t _ => ?_
        rw [hstep]
        simp

theorem diagonalCells_line {k : Int} (hk : -((P.boardSize : Int) - 1) ≤ k)
    (hk' : k < P.boardSize) :
    LineCells P.boardSize (P.diagonalCells k) (max k 0, max (-k) 0) (1, 1)
      (P.boardSize - k.natAbs) := by
  have hsize := hshape.size_le
  have hin : ∀ t : Int, InSquare P.boardSize (alongVec (max k 0, max (-k) 0) (1, 1) t) ↔
      0 ≤ t ∧ t < (P.boardSize - k.natAbs : Nat) := by
    intro t
    simp only [InSquare, alongVec]
    omega
  refine ⟨?_, hin⟩
  have hbound : maxBoardSize = 32 := rfl
  rcases le_or_gt k 0 with hneg | hpos
  · rw [diagonalCells, if_pos hneg]
    rw [max_eq_right hneg, max_eq_left (by omega)] at hin ⊢
    refine walk_eq hshape 1 1 (by omega) (by omega) _ _ _ _ (by omega) (by omega) (by omega)
      fun t ht => ?_
    rw [hin]
    exact and_iff_right ht
  · rw [diagonalCells, if_neg (by omega)]
    rw [max_eq_left (by omega), max_eq_right (by omega)] at hin ⊢
    refine walk_eq hshape 1 1 (by omega) (by omega) _ _ _ _ (by omega) (by omega) (by omega)
      fun t ht => ?_
    rw [hin]
    exact and_iff_right ht

theorem antidiagonalCells_line {k : Nat} (hk : k < 2 * P.boardSize - 1) :
    LineCells P.boardSize (P.antidiagonalCells k)
      (min (k : Int) ((P.boardSize : Int) - 1), k - min (k : Int) ((P.boardSize : Int) - 1))
      (-1, 1) (min (k + 1) (2 * P.boardSize - 1 - k)) := by
  have hsize := hshape.size_le
  have hin : ∀ t : Int, InSquare P.boardSize (alongVec
        (min (k : Int) ((P.boardSize : Int) - 1), k - min (k : Int) ((P.boardSize : Int) - 1))
        (-1, 1) t) ↔ 0 ≤ t ∧ t < (min (k + 1) (2 * P.boardSize - 1 - k) : Nat) := by
    intro t
    simp only [InSquare, alongVec]
    omega
  refine ⟨?_, hin⟩
  have hbound : maxBoardSize = 32 := rfl
  refine walk_eq hshape (-1) 1 (by omega) (by omega) _ _ _ _ (by omega) (by omega) (by omega)
    fun t ht => ?_
  rw [hin]
  exact and_iff_right ht

/-- Every line that is swept runs along one of the four directions, forwards or
backwards. -/
theorem lines_sound {cells : List Nat} (h : cells ∈ P.lines) :
    ∃ start v L d, LineCells P.boardSize cells start v L ∧ (v = unit d ∨ v = -unit d) := by
  simp only [lines, List.mem_append, List.mem_map, List.mem_range] at h
  rcases h with ((⟨i, hi, rfl⟩ | ⟨j, hj, rfl⟩) | ⟨t, ht, rfl⟩) | ⟨k, hk, rfl⟩
  · exact ⟨_, _, _, 0, P.rowCells_line hi, Or.inl rfl⟩
  · exact ⟨_, _, _, 2, P.columnCells_line hj, Or.inl rfl⟩
  · exact ⟨_, _, _, 3, diagonalCells_line hshape (by omega) (by omega), Or.inl rfl⟩
  · exact ⟨_, _, _, 1, antidiagonalCells_line hshape hk, Or.inr rfl⟩

/-- Every cell of the square is swept in every direction.  So no winning line is missed,
wherever it lies. -/
theorem lines_complete {c : Int × Int} (hc : InSquare P.boardSize c) (d : Fin 4) :
    ∃ cells ∈ P.lines, ∃ start v L, LineCells P.boardSize cells start v L ∧
      (v = unit d ∨ v = -unit d) ∧ ∃ s : Int, c = alongVec start v s := by
  obtain ⟨x, y⟩ := c
  obtain ⟨⟨hx0, hx⟩, hy0, hy⟩ := hc
  have hx0 : 0 ≤ x := hx0
  have hx : x < P.boardSize := hx
  have hy0 : 0 ≤ y := hy0
  have hy : y < P.boardSize := hy
  simp only [lines, List.mem_append, List.mem_map, List.mem_range]
  fin_cases d
  · refine ⟨_, Or.inl (Or.inl (Or.inl ⟨x.toNat, by omega, rfl⟩)), _, _, _,
      P.rowCells_line (by omega), Or.inl rfl, y, ?_⟩
    simp only [alongVec, Prod.mk.injEq]
    omega
  · refine ⟨_, Or.inr ⟨(x + y).toNat, by omega, rfl⟩, _, _, _,
      antidiagonalCells_line hshape (by omega), Or.inr rfl,
      min (((x + y).toNat : Nat) : Int) ((P.boardSize : Int) - 1) - x, ?_⟩
    simp only [alongVec, Prod.mk.injEq]
    omega
  · refine ⟨_, Or.inl (Or.inl (Or.inr ⟨y.toNat, by omega, rfl⟩)), _, _, _,
      P.columnCells_line (by omega), Or.inl rfl, x, ?_⟩
    simp only [alongVec, Prod.mk.injEq]
    omega
  · refine ⟨_, Or.inl (Or.inr ⟨(x - y + ((P.boardSize : Int) - 1)).toNat, by omega, rfl⟩),
      _, _, _, diagonalCells_line hshape (by omega) (by omega), Or.inl rfl, min x y, ?_⟩
    simp only [alongVec, Prod.mk.injEq]
    omega

end Walk

/-! ## The test and the winning lines -/

section Test

variable {P : Position} (hshape : P.BoardShape) {side : Color} {allow : Bool}
include hshape

omit hshape in
theorem LineCells.length_eq {cells : List Nat} {start v : Int × Int} {L : Nat}
    (hline : LineCells P.boardSize cells start v L) : cells.length = L := by
  rw [hline.cells_eq]
  simp

omit hshape in
theorem LineCells.getD_eq {cells : List Nat} {start v : Int × Int} {L i : Nat}
    (hline : LineCells P.boardSize cells start v L) (hi : i < L) :
    cells.getD i 0 = posOf (alongVec start v i) := by
  rw [hline.cells_eq, List.getD_eq_getElem?_getD, List.getElem?_map, List.getElem?_range hi]
  rfl

/-- Beyond the ends of the line there are only walls, so nothing is marked. -/
theorem LineCells.marks_iff {cells : List Nat} {start v : Int × Int} {L : Nat}
    (hline : LineCells P.boardSize cells start v L) (hside : side ≠ .wall) (k : Int) :
    (0 ≤ k ∧ k < L ∧ marks side P.board cells k.toNat = true) ↔
      lineVec P.grid side start v k := by
  rw [lineVec]
  by_cases hin : InSquare P.boardSize (alongVec start v k)
  · obtain ⟨hk0, hkL⟩ := (hline.inSquare_iff k).mp hin
    have hget := hline.getD_eq (i := k.toNat) (by omega)
    rw [Int.toNat_of_nonneg hk0] at hget
    rw [marks, hget, hshape.board_posOf (hin.range hshape.size_le), decide_eq_true_eq]
    exact ⟨fun h => h.2.2, fun h => ⟨hk0, hkL, h⟩⟩
  · have hwall := hshape.grid_eq_wall_iff.mpr hin
    rw [hline.inSquare_iff k] at hin
    rw [hwall]
    exact ⟨fun h => absurd ⟨h.1, h.2.1⟩ hin, fun h => absurd h.symm hside⟩

/-- The runs swept on a line are the maximal runs of the grid along it.  The abstract sweep
emits the maximal runs of the marks, and the marks of the line are the stones of the grid,
with walls beyond its ends. -/
theorem LineCells.mem_runs_iff {cells : List Nat} {start v : Int × Int} {L s n : Nat}
    (hline : LineCells P.boardSize cells start v L) (hside : side ≠ .wall) (hn : 0 < n) :
    (s, n) ∈ runs (marks side P.board cells) cells.length ↔
      MaxRun (lineVec P.grid side start v) s (s + n - 1) := by
  rw [hline.length_eq, LineRun.mem_runs_iff _ L hn]
  constructor
  · exact fun h => h.congr fun k _ _ => hline.marks_iff hshape hside k
  · exact fun h => h.congr fun k _ _ => (hline.marks_iff hshape hside k).symm

theorem LineCells.exists_run_iff {cells : List Nat} {start v : Int × Int} {L : Nat}
    (hline : LineCells P.boardSize cells start v L) (hside : side ≠ .wall) :
    (∃ r ∈ runs (marks side P.board cells) cells.length, Wins allow r.2) ↔
      ∃ a b, MaxRun (lineVec P.grid side start v) a b ∧
        Wins allow (b - a + 1) := by
  constructor
  · rintro ⟨⟨s, n⟩, hmem, hwins⟩
    have hfive := hwins.five_le
    have hrun := (hline.mem_runs_iff hshape hside (show 0 < n by omega)).mp hmem
    refine ⟨s, s + n - 1, hrun, ?_⟩
    rw [show (s : ℤ) + n - 1 - s + 1 = n by ring]
    exact hwins
  · rintro ⟨a, b, hrun, hwins⟩
    have hle := hrun.le
    have ha0 : 0 ≤ a :=
      ((hline.marks_iff hshape hside a).mpr (hrun.holds a (le_refl a) hle)).1
    refine ⟨(a.toNat, (b - a + 1).toNat), ?_, ?_⟩
    · rw [hline.mem_runs_iff hshape hside (by omega)]
      rw [show ((a.toNat : ℕ) : ℤ) = a by omega,
        show a + ((b - a + 1).toNat : ℕ) - 1 = b by omega]
      exact hrun
    · rwa [show (((b - a + 1).toNat : ℕ) : ℤ) = b - a + 1 by omega]

/-- **The test finds a winning line iff there is one.** The lines that are swept are lines
of the plane (`lines_sound`), and each winning line lies on one of them (`lines_complete`). -/
theorem checkFiveInLineSide_iff (hside : side ≠ .wall) :
    (P.checkFiveInLineSide side allow).1 = true ↔ HasWinningLine P.grid side allow := by
  rw [checkFiveInLineSide_eq, decide_eq_true_eq, fiveCountSide_eq, length_wonRuns_pos_iff]
  constructor
  · rintro ⟨cells, hmem, hwins⟩
    obtain ⟨start, v, L, d, hline, hv⟩ := lines_sound hshape hmem
    obtain ⟨a, b, hrun, hlen⟩ := (hline.exists_run_iff hshape hside).mp hwins
    rcases hv with rfl | rfl
    · exact ⟨start, d, a, b, hrun, hlen⟩
    · -- the antidiagonals are swept against their direction
      refine ⟨start, d, -b, -a, maxRun_lineVec_neg.mp hrun, ?_⟩
      rwa [show -a - -b + 1 = b - a + 1 by ring]
  · rintro ⟨c, d, a, b, hrun, hwins⟩
    have hin : InSquare P.boardSize (along c d a) := by
      by_contra hout
      have hstone := hrun.holds a (le_refl a) hrun.le
      rw [lineOf, hshape.grid_eq_wall_iff.mpr hout] at hstone
      exact hside hstone.symm
    -- the line that is swept through the first stone of the run
    obtain ⟨cells, hmem, start, v, L, hline, hv, s, hs⟩ := lines_complete hshape hin d
    refine ⟨cells, hmem, (hline.exists_run_iff hshape hside).mpr ?_⟩
    have hrun' : MaxRun (lineVec P.grid side (alongVec start v s) (unit d)) 0 (b - a) := by
      rw [← hs, ← lineOf_eq_lineVec, maxRun_lineOf_shift]
      simpa using hrun
    rcases hv with rfl | rfl
    · refine ⟨0 + s, b - a + s, (maxRun_lineVec_shift s).mp hrun', ?_⟩
      rwa [show b - a + s - (0 + s) + 1 = b - a + 1 by ring]
    · have hneg : MaxRun (lineVec P.grid side (alongVec start (-unit d) s) (-unit d))
          (-(b - a)) 0 := by
        rw [maxRun_lineVec_neg]
        simpa using hrun'
      refine ⟨-(b - a) + s, 0 + s, (maxRun_lineVec_shift s).mp hneg, ?_⟩
      rwa [show 0 + s - (-(b - a) + s) + 1 = b - a + 1 by ring]

end Test

end Position

end GomokuCli
