import GomokuCli.FiveInLine

/-!
# The win connection

Besides its verdict, `check_five_in_line_side` leaves the last winning run that it
has met in the position.  What is recorded is a maximal run of the grid, cell by cell,
and no scan of the square reads a cell outside the padded array.
-/

namespace GomokuCli

open LineRun

namespace Position

/-! ## What is recorded -/

/-- The win connection consists of the consecutive cells of a maximal run that is long
enough to win, along one of the four directions or against it.  The array holds the cells in
the order in which a sweep has met them. -/
def RecordsWin (Q : Position) (g : Int × Int → Color) (side : Color) (allow : Bool) : Prop :=
  ∃ c v d a b, (v = unit d ∨ v = -unit d) ∧ MaxRun (lineVec g side c v) a b ∧
    Wins allow (b - a + 1) ∧ (Q.winConnectionLen : Int) = b - a + 1 ∧
    ∀ i < Q.winConnectionLen, Q.winConnectionPos i = posOf (alongVec c v (a + i))

section Recorded

variable {P : Position} (hshape : P.BoardShape) {side : Color} {allow : Bool}
include hshape

/-- A winning run of a line consists of the cells of a maximal run of the grid.  The line
ends at walls, so that a run that ends with the line is not cut off by it. -/
theorem LineCells.of_mem_lineWins {cells run : List Nat} {start v : Int × Int} {L : Nat}
    (hline : LineCells P.boardSize cells start v L) (hside : side ≠ .wall)
    (hrun : run ∈ lineWins side allow P.board cells) :
    ∃ s : Nat, MaxRun (lineVec P.grid side start v) s (s + run.length - 1) ∧
      Wins allow run.length ∧
      ∀ i < run.length, run.getD i 0 = posOf (alongVec start v (s + i)) := by
  obtain ⟨⟨s, n⟩, hmem, rfl⟩ := List.mem_map.mp hrun
  obtain ⟨hmem, hwins⟩ := List.mem_filter.mp hmem
  replace hwins : Wins allow n := of_decide_eq_true hwins
  have hfive := hwins.five_le
  have hmax := (hline.mem_runs_iff hshape hside (by omega)).mp hmem
  -- the run does not go beyond the end of the line
  have hend := ((hline.marks_iff hshape hside _).mpr (hmax.holds _ hmax.le le_rfl)).2.1
  have hlength : (runCells cells (s, n)).length = n := by
    rw [runCells, List.length_take, List.length_drop, hline.length_eq]
    omega
  rw [hlength]
  refine ⟨s, hmax, hwins, fun i hi => ?_⟩
  have hget : (runCells cells (s, n)).getD i 0 = cells.getD (s + i) 0 := by
    rw [runCells, List.getD_eq_getElem?_getD, List.getD_eq_getElem?_getD,
      List.getElem?_take_of_lt hi, List.getElem?_drop]
  rw [hget, hline.getD_eq (i := s + i) (by omega), Nat.cast_add]

/-- The last of the winning runs is the one that stays in the win connection. -/
theorem recordsWin_of_wonRuns_ne_nil (hside : side ≠ .wall) (hwon : wonRuns side allow P ≠ []) :
    RecordsWin ((wonRuns side allow P).foldl recordRun P) P.grid side allow := by
  obtain ⟨won, run, heq⟩ := List.eq_nil_or_concat' (wonRuns side allow P) |>.resolve_left hwon
  have hmem : run ∈ wonRuns side allow P := by
    rw [heq]
    exact List.mem_append_right won (List.mem_singleton_self run)
  obtain ⟨cells, hcells, hrun⟩ := List.mem_flatMap.mp hmem
  obtain ⟨start, v, L, d, hline, hv⟩ := lines_sound hshape hcells
  obtain ⟨s, hmax, hwins, hget⟩ := hline.of_mem_lineWins hshape hside hrun
  rw [heq, List.foldl_append, List.foldl_cons, List.foldl_nil]
  refine ⟨start, v, d, s, s + run.length - 1, hv, hmax, ?_, ?_, fun i hi => ?_⟩
  · rwa [show (s : Int) + run.length - 1 - s + 1 = run.length by ring]
  · rw [show (s : Int) + run.length - 1 - s + 1 = run.length by ring]
    rfl
  · have hi : i < run.length := hi
    exact (if_pos hi).trans (hget i hi)

end Recorded

/-! ## Where the scans end -/

/-- `while (isInBoard(POS(i, j)))` takes fewer steps than the padded array is wide, collects
`cells`, and ends at a wall; all cells that it looks at are in the array.  The source has no
bound on the loop: it is the ring of walls that ends it. -/
structure ScanEnds (P : Position) (i j di dj : Int) (cells : List Nat) : Prop where
  ends : ∃ L < maxBoardSize,
    cells = (List.range L).map (fun (t : Nat) => pos (i + t * di) (j + t * dj)) ∧
    (∀ t < L, P.isInBoard (pos (i + (t : Nat) * di) (j + (t : Nat) * dj)) = true) ∧
    P.isInBoard (pos (i + L * di) (j + L * dj)) = false ∧
    ∀ t ≤ L, pos (i + (t : Nat) * di) (j + (t : Nat) * dj) < maxBoardSizeSqr

/-- Every sweep stays inside the padded array, and no line has more cells than the array
that holds the current run.  Neither of these is tested by the source. -/
structure ScansInside (P : Position) : Prop where
  inside : ∀ cells ∈ P.lines, cells.length ≤ maxBoardSize ∧ ∀ p ∈ cells, p < maxBoardSizeSqr
  diagonal : ∀ k : Int, -((P.boardSize : Int) - 1) ≤ k → k < P.boardSize →
    ScanEnds P (max k 0) (max (-k) 0) 1 1 (P.diagonalCells k)
  antidiagonal : ∀ k : Nat, k < 2 * P.boardSize - 1 →
    ScanEnds P (min (k : Int) ((P.boardSize : Int) - 1))
      (k - min (k : Int) ((P.boardSize : Int) - 1)) (-1) 1 (P.antidiagonalCells k)

section Scans

variable {P : Position} (hshape : P.BoardShape)
include hshape

theorem LineCells.scanEnds {cells : List Nat} {i j di dj : Int} {L : Nat}
    (hline : LineCells P.boardSize cells (i, j) (di, dj) L) (hL : L ≤ P.boardSize)
    (hrange : ∀ t : Nat, t ≤ L →
      (-5 ≤ i + t * di ∧ i + t * di < 27) ∧ (-5 ≤ j + t * dj ∧ j + t * dj < 27)) :
    ScanEnds P i j di dj cells := by
  have hinBoard : ∀ t : Nat, t ≤ L →
      (P.isInBoard (pos (i + t * di) (j + t * dj)) = true ↔ t < L) := by
    intro t ht
    have hboard := hshape.board_posOf (c := (i + t * di, j + t * dj)) (hrange t ht)
    rw [isInBoard_iff]
    change P.board (posOf (i + t * di, j + t * dj)) ≠ .wall ↔ t < L
    rw [hboard, ne_eq, hshape.grid_eq_wall_iff, not_not]
    refine (hline.inSquare_iff t).trans ?_
    rw [Nat.cast_lt]
    exact and_iff_right (Int.natCast_nonneg t)
  have hsize := hshape.size_le
  refine ⟨L, ?_, hline.cells_eq, fun t ht => (hinBoard t ht.le).mpr ht, ?_, fun t ht => ?_⟩
  · exact lt_of_le_of_lt (hL.trans hsize) (by decide)
  · rw [Bool.eq_false_iff, ne_eq, hinBoard L le_rfl]
    exact lt_irrefl L
  · have hlt : posOf (i + t * di, j + t * dj) < 1024 := posOf_lt (hrange t ht)
    have hsqr : maxBoardSizeSqr = 1024 := rfl
    rw [hsqr]
    exact hlt

omit hshape in
/-- A line of the square has no more cells than the square has rows. -/
theorem LineCells.length_le {cells : List Nat} {start v : Int × Int} {L : Nat} {d : Fin 4}
    (hline : LineCells P.boardSize cells start v L) (hv : v = unit d ∨ v = -unit d) :
    L ≤ P.boardSize := by
  rcases Nat.eq_zero_or_pos L with hzero | hpos
  · omega
  · -- the first and the last cell of the line are in the square
    obtain ⟨⟨hx0, hx⟩, hy0, hy⟩ := (hline.inSquare_iff 0).mpr (by omega)
    obtain ⟨⟨hlx0, hlx⟩, hly0, hly⟩ := (hline.inSquare_iff (L - 1)).mpr (by omega)
    rcases hv with rfl | rfl
    · fin_cases d <;> simp only [alongVec, unit] at hx0 hx hy0 hy hlx0 hlx hly0 hly <;> omega
    · fin_cases d <;>
        simp only [alongVec, unit, Prod.fst_neg, Prod.snd_neg]
          at hx0 hx hy0 hy hlx0 hlx hly0 hly <;>
        omega

theorem LineCells.lt_of_mem {cells : List Nat} {start v : Int × Int} {L p : Nat}
    (hline : LineCells P.boardSize cells start v L) (hp : p ∈ cells) : p < maxBoardSizeSqr := by
  rw [hline.cells_eq] at hp
  obtain ⟨t, ht, rfl⟩ := List.mem_map.mp hp
  have hin := (hline.inSquare_iff t).mpr
    ⟨Int.natCast_nonneg t, Int.ofNat_lt.mpr (List.mem_range.mp ht)⟩
  exact posOf_lt (hin.range hshape.size_le)

theorem scansInside : ScansInside P := by
  have hsize := hshape.size_le
  refine ⟨fun cells hcells => ?_, fun k hk hk' => ?_, fun k hk => ?_⟩
  · obtain ⟨start, v, L, d, hline, hv⟩ := lines_sound hshape hcells
    have hbound : maxBoardSize = 32 := rfl
    have hlength := hline.length_le hv
    rw [hline.length_eq]
    exact ⟨by omega, fun p hp => hline.lt_of_mem hshape hp⟩
  · refine (diagonalCells_line hshape hk hk').scanEnds hshape (by omega) fun t ht => ?_
    omega
  · refine (antidiagonalCells_line hshape hk).scanEnds hshape (by omega) fun t ht => ?_
    omega

end Scans

/-- **What `check_five_in_line_side` does.** It succeeds iff the side has a winning line on
the square; then the win connection is such a line, else it is as it was; and it reads
nothing outside the padded array.  The board is any board with walls in their place, and the
side any colour but the wall. -/
theorem checkFiveInLineSide_spec {P : Position} (hshape : P.BoardShape) {side : Color}
    (hside : side ≠ .wall) (allow : Bool) :
    ((P.checkFiveInLineSide side allow).1 = true ↔ HasWinningLine P.grid side allow) ∧
      ((P.checkFiveInLineSide side allow).1 = true →
        RecordsWin (P.checkFiveInLineSide side allow).2 P.grid side allow) ∧
      ((P.checkFiveInLineSide side allow).1 = false → (P.checkFiveInLineSide side allow).2 = P) ∧
      ScansInside P := by
  refine ⟨checkFiveInLineSide_iff hshape hside, fun htrue => ?_, fun hfalse => ?_,
    scansInside hshape⟩
  · rw [checkFiveInLineSide_eq, fiveCountSide_eq, decide_eq_true_eq, List.length_pos_iff] at htrue
    rw [checkFiveInLineSide_eq]
    exact recordsWin_of_wonRuns_ne_nil hshape hside htrue
  · rw [checkFiveInLineSide_eq, fiveCountSide_eq, decide_eq_false_iff_not, List.length_pos_iff,
      not_not] at hfalse
    rw [checkFiveInLineSide_eq, hfalse]
    rfl

/-- Black holds the first five cells of the first row, and nothing else is on the
board. -/
def rowOfFive : Position :=
  { Position.new 15 with
    board := fun p =>
      if pos 0 0 ≤ p ∧ p ≤ pos 0 4 then .black else (Position.new 15).board p }

theorem rowOfFive_shape : rowOfFive.BoardShape := by
  refine ⟨by decide, rfl, fun p => ?_⟩
  have hempty := (initBoard_shape _ (by decide) : (Position.new 15).BoardShape).wall_iff p
  by_cases hrow : pos 0 0 ≤ p ∧ p ≤ pos 0 4
  · have hboard : rowOfFive.board p = .black := if_pos hrow
    have hin : InSquare rowOfFive.boardSize (cellOf p) := by
      obtain ⟨hlow, hhigh⟩ := hrow
      have hfirst : pos 0 0 = 165 := by decide
      have hlast : pos 0 4 = 169 := by decide
      rw [hfirst] at hlow
      rw [hlast] at hhigh
      interval_cases p <;> decide
    rw [hboard]
    exact iff_of_false (by decide) (not_not.mpr hin)
  · have hboard : rowOfFive.board p = (Position.new 15).board p := if_neg hrow
    rw [hboard]
    exact hempty

set_option maxRecDepth 20000 in
theorem checkFiveInLineSide_spec_row :
    HasWinningLine rowOfFive.grid .black false ∧
      RecordsWin (rowOfFive.checkFiveInLineSide .black false).2 rowOfFive.grid .black false := by
  obtain ⟨hiff, hrecords, -, -⟩ :=
    checkFiveInLineSide_spec rowOfFive_shape (show Color.black ≠ .wall by decide) false
  have htrue : (rowOfFive.checkFiveInLineSide .black false).1 = true := by decide +kernel
  exact ⟨hiff.mp htrue, hrecords htrue⟩

end Position

end GomokuCli
