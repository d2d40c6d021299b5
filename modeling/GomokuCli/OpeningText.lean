import GomokuCli.Operations

/-!
# Openings as they are written

`to_opening_str` prints the history of a position in one of the two notations
of openings.  The printer and the parsers share no code: a printed line is a
well-formed line of the notation (`WrittenAs`), and of those the parsers read
every number.
-/

namespace GomokuCli

open Decimal

namespace Position

/-- `to_opening_str`: the cells of the history in one of the two notations, the offsets
separated by commas and the groups by nothing. -/
def toOpeningStr (P : Position) (type : OpeningType) : List Char :=
  let hboardSize : Int := (P.boardSize / 2 : Nat)
  match type with
  | .offset =>
      (List.range P.moveCount).flatMap fun i =>
        let p := posFromMove (P.historyMoves i)
        (if i ≠ 0 then [',', ' '] else []) ++
          (showInt (coordX p - hboardSize) ++ ',' :: showInt (coordY p - hboardSize))
  | .pos =>
      (List.range P.moveCount).flatMap fun i =>
        let p := posFromMove (P.historyMoves i)
        Char.ofNat (uint8 (coordX p + 'a'.toNat)) :: showInt (coordY p + 1)

end Position

/-! ## What is printed -/

/-- The pair that is written for a cell on a board of the given size. -/
def writtenPair (size : Nat) : OpeningType → Int × Int → Int × Int
  | .offset, c => (c.1 - (size / 2 : Nat), c.2 - (size / 2 : Nat))
  | .pos, c => (c.1, c.2 + 1)

/-- The parsers turn the pair of a cell into this cell. -/
@[simp] theorem writtenCell_writtenPair (size : Nat) (type : OpeningType) (c : Int × Int) :
    writtenCell size type (writtenPair size type c) = c := by
  cases type <;> simp [writtenCell, writtenPair]

/-- A pair of the offset notation. -/
def offsetText (v : Int × Int) : List Char := showInt v.1 ++ ',' :: showInt v.2

/-- A group of the pos notation. -/
def posText (v : Int × Int) : List Char :=
  Char.ofNat (uint8 (v.1 + 'a'.toNat)) :: showInt v.2

/-- A positive numeral has no sign. -/
theorem digits_of_numeral {ds : List Char} {v : Int} (h : Numeral ds v) (hpos : 0 < v) :
    ds ≠ [] ∧ (∀ c ∈ ds, c.isDigit = true) ∧ (digitsValue ds : Int) = v := by
  cases h with
  | nonneg hne hdigits => exact ⟨hne, hdigits, rfl⟩
  | neg _ _ => omega

/-- The letters of the coordinates. -/
theorem letter_of_coord {x : Int} (hx : 0 ≤ x ∧ x < 26) :
    (Char.ofNat (uint8 (x + 'a'.toNat))).isLower = true ∧
      ((Char.ofNat (uint8 (x + 'a'.toNat))).toNat : Int) - 'a'.toNat = x := by
  obtain ⟨n, rfl⟩ : ∃ n : Nat, x = n := ⟨x.toNat, by omega⟩
  have hn : n < 26 := by omega
  have hall : ∀ k < 26, (Char.ofNat (uint8 ((k : Nat) + 'a'.toNat))).isLower = true ∧
      ((Char.ofNat (uint8 ((k : Nat) + 'a'.toNat))).toNat : Int) - 'a'.toNat = (k : Nat) := by
    decide
  exact hall n hn

/-- A pair in front of a well-formed line. -/
theorem offsetNumbers_pair {seps rest : List Char} {ns : List Int} (v : Int × Int)
    (hseps : ∀ c ∈ seps, IsSeparator c) (hrest : ∀ c t, rest = c :: t → IsSeparator c)
    (tail : OffsetNumbers rest ns) :
    OffsetNumbers (seps ++ (offsetText v ++ rest)) (v.1 :: v.2 :: ns) := by
  have hcomma : ∀ c ∈ [','], IsSeparator c := fun c hc => Or.inl (List.mem_singleton.mp hc)
  have hsecond : OffsetNumbers ([','] ++ showInt v.2 ++ rest) (v.2 :: ns) :=
    OffsetNumbers.number hcomma (numeral_showInt v.2) hrest tail
  have hfirst : OffsetNumbers (seps ++ showInt v.1 ++ ([','] ++ showInt v.2 ++ rest))
      (v.1 :: v.2 :: ns) :=
    OffsetNumbers.number hseps (numeral_showInt v.1)
      (fun c t heq => Or.inl (List.cons.inj heq).1.symm) hsecond
  have htext : seps ++ showInt v.1 ++ ([','] ++ showInt v.2 ++ rest) =
      seps ++ (offsetText v ++ rest) := by
    simp [offsetText]
  rwa [htext] at hfirst

/-- Pairs that are all set off by a comma and a blank. -/
theorem offsetNumbers_pairs (vs : List (Int × Int)) :
    OffsetNumbers (vs.flatMap fun v => [',', ' '] ++ offsetText v)
      (vs.flatMap fun v => [v.1, v.2]) := by
  have hseps : ∀ c ∈ [',', ' '], IsSeparator c := fun c hc => List.mem_pair.mp hc
  induction vs with
  | nil => exact OffsetNumbers.blank (by simp)
  | cons v vs ih =>
      have hrest : ∀ c t, (vs.flatMap fun v => [',', ' '] ++ offsetText v) = c :: t →
          IsSeparator c := by
        intro c t heq
        cases vs with
        | nil => cases heq
        | cons w vs => exact Or.inl (List.cons.inj heq).1.symm
      have h := offsetNumbers_pair v hseps hrest ih
      simpa [List.append_assoc] using h

/-- Groups of the pos notation follow each other without a separator. -/
theorem posGroups_groups {vs : List (Int × Int)}
    (h : ∀ v ∈ vs, (0 ≤ v.1 ∧ v.1 < 26) ∧ 0 < v.2) : PosGroups (vs.flatMap posText) vs := by
  induction vs with
  | nil => exact PosGroups.nil
  | cons v vs ih =>
      obtain ⟨hx, hy⟩ := h v List.mem_cons_self
      obtain ⟨hletter, hvalue⟩ := letter_of_coord hx
      obtain ⟨hne, hdigits, hdigitsValue⟩ := digits_of_numeral (numeral_showInt v.2) hy
      have htail := ih fun w hw => h w (List.mem_cons_of_mem v hw)
      have hgroup := PosGroups.group hletter hne hdigits htail
      rw [hvalue, hdigitsValue] at hgroup
      exact hgroup

namespace Position

variable {P Q : Position} {size : Nat} {cells : List (Int × Int)}

/-- The two printers go through the cells of the history. -/
theorem Follows.toOpeningStr_offset (h : P.Follows size cells) (c : Int × Int)
    (cs : List (Int × Int)) (hcells : cells = c :: cs) :
    P.toOpeningStr .offset = offsetText (writtenPair size .offset c) ++
      (cs.map (writtenPair size .offset)).flatMap fun v => [',', ' '] ++ offsetText v := by
  obtain ⟨n, hcount⟩ : ∃ n, P.moveCount = n + 1 :=
    ⟨cs.length, by rw [h.moveCount, hcells, List.length_cons]⟩
  have hmoves := h.moves
  rw [historyCells, hcount, List.range_succ_eq_map, List.map_cons, hcells] at hmoves
  obtain ⟨hfirst, hrest⟩ := List.cons.inj hmoves
  rw [List.map_map] at hrest
  simp only [toOpeningStr, hcount, List.range_succ_eq_map, List.flatMap_cons, ne_eq,
    not_true_eq_false, if_false, List.nil_append, h.boardSize]
  rw [← hfirst, ← hrest, List.map_map, List.flatMap_map, List.flatMap_map]
  simp only [Nat.succ_ne_zero, not_false_eq_true, if_true]
  rfl

theorem Follows.toOpeningStr_pos (h : P.Follows size cells) :
    P.toOpeningStr .pos = (cells.map (writtenPair size .pos)).flatMap posText := by
  rw [← h.moves, historyCells, List.map_map, List.flatMap_map]
  rfl

/-- **What is printed is a line of the notation**, with a pair for every cell.  It is a
statement about the printer alone, and the parsers come in only with what they do to such
lines. -/
theorem Follows.writtenAs (h : P.Follows size cells) (type : OpeningType) :
    WrittenAs type (P.toOpeningStr type) (cells.map (writtenPair size type)) := by
  cases type with
  | offset =>
      cases hcells : cells with
      | nil =>
          have hcount : P.moveCount = 0 := by rw [h.moveCount, hcells, List.length_nil]
          simp only [toOpeningStr, hcount]
          exact OffsetNumbers.blank (by simp)
      | cons c cs =>
          rw [h.toOpeningStr_offset c cs hcells]
          have hrest : ∀ e t, ((cs.map (writtenPair size .offset)).flatMap
              fun v => [',', ' '] ++ offsetText v) = e :: t → IsSeparator e := by
            intro e t heq
            cases cs with
            | nil => cases heq
            | cons d cs => exact Or.inl (List.cons.inj heq).1.symm
          change OffsetNumbers ([] ++ _) _
          exact offsetNumbers_pair _ (by simp) hrest (offsetNumbers_pairs _)
  | pos =>
      rw [h.toOpeningStr_pos]
      refine posGroups_groups fun v hv => ?_
      obtain ⟨c, hc, rfl⟩ := List.mem_map.mp hv
      obtain ⟨⟨hx0, hx⟩, hy0, hy⟩ := h.inSquare c hc
      have hsize := h.size_le
      simp only [writtenPair]
      omega

/-- The parsers find the cells again, in both notations and on every board the program
accepts. -/
theorem Follows.openingCells_toOpeningStr (h : P.Follows size cells) (type : OpeningType) :
    openingCells size type (P.toOpeningStr type) = some cells := by
  have hreadable : ∀ v ∈ cells.map (writtenPair size type), Readable type v := by
    intro v hv
    obtain ⟨c, hc, rfl⟩ := List.mem_map.mp hv
    refine readable_of_inSquare h.size_le ?_
    rw [writtenCell_writtenPair]
    exact h.inSquare c hc
  rw [openingCells, (h.writtenAs type).readLine hreadable, Option.map_some, List.map_map]
  congr 1
  conv_rhs => rw [← List.map_id cells]
  exact List.map_congr_left fun c _ => writtenCell_writtenPair size type c

/-- A move is its cell and its colour. -/
theorem move_eq_of_cell_of_color {m m' : Nat}
    (hcell : cellOf (posFromMove m) = cellOf (posFromMove m'))
    (hcolor : colorFromMove m = colorFromMove m') : m = m' := by
  have hpos : posFromMove m = posFromMove m' := by
    rw [← posOf_cellOf (posFromMove_lt m), hcell, posOf_cellOf (posFromMove_lt m')]
  rw [posFromMove_eq, posFromMove_eq] at hpos
  rw [colorFromMove, colorFromMove, Nat.shiftRight_eq_div_pow, Nat.shiftRight_eq_div_pow]
    at hcolor
  omega

/-- The cells and the turns determine the game: two positions that follow the same cells,
and whose moves carry the colours of their turns, agree in all that belongs to the game. -/
theorem Follows.sameGame (hP : P.Follows size cells) (hPc : P.Coloured)
    (hQ : Q.Follows size cells) (hQc : Q.Coloured) : P.SameGame Q := by
  have hcount : Q.moveCount = P.moveCount := by rw [hP.moveCount, hQ.moveCount]
  refine ⟨?_, hcount, ?_, fun i hi => ?_⟩
  · funext p
    rw [hP.board, hQ.board]
  · rw [hP.turn, hQ.turn, hcount]
  · have hi' : i < cells.length := hP.moveCount ▸ hi
    refine move_eq_of_cell_of_color ?_ ?_
    · rw [hP.history hi', hQ.history hi']
    · rw [hPc i hi, hQc i (hcount.symm ▸ hi)]

/-- **Printing and reading an opening.** Whatever position has been built by moves, its line
is accepted on a board of the same size, and the game on that board is then the game of the
position.  The board on which the line is read may hold anything before, and the notation
may be either of the two. -/
theorem applyOpening_toOpeningStr (hsize : size ≤ 22) (hP : Built size P)
    (hQ : Q.boardSize = size) (type : OpeningType) :
    (Q.applyOpening (P.toOpeningStr type) type).1 = true ∧
      P.SameGame (Q.applyOpening (P.toOpeningStr type) type).2 := by
  obtain ⟨r, hr⟩ := hP.represents hsize
  have hcells : openingCells Q.boardSize type (P.toOpeningStr type) = some r.cells := by
    rw [hQ]
    exact hr.follows.openingCells_toOpeningStr type
  have hin : ∀ c ∈ r.cells, InSquare Q.boardSize c := by
    rw [hQ]
    exact r.inSquare
  refine ⟨(applyOpening_fst_iff Q _ type).mpr ⟨r.cells, hcells, hin⟩, ?_⟩
  rw [applyOpening_snd hcells hin, hQ]
  obtain ⟨hfollows, hcoloured⟩ := playCells_initBoard Q hsize r.inSquare
  exact hr.follows.sameGame hr.coloured hfollows hcoloured

/-- Two stones in opposite corners of the largest board. -/
def corners : Position :=
  ((Position.new 22).move (buildMove 0 0 .black)).move (buildMove 21 21 .white)

/-- The two stones in both notations. -/
theorem applyOpening_toOpeningStr_corners :
    corners.SameGame
        ((Position.new 22).applyOpening (corners.toOpeningStr .offset) .offset).2 ∧
      corners.SameGame ((Position.new 22).applyOpening (corners.toOpeningStr .pos) .pos).2 := by
  have hfirst : (Position.new 22).Plays (buildMove 0 0 .black) := ⟨by decide, by decide, by decide⟩
  have hsecond : ((Position.new 22).move (buildMove 0 0 .black)).Plays
      (buildMove 21 21 .white) := ⟨by decide, by decide, by decide⟩
  have hbuilt : Built 22 corners := .move (.move .construct hfirst) hsecond
  exact ⟨(applyOpening_toOpeningStr (le_refl 22) hbuilt rfl .offset).2,
    (applyOpening_toOpeningStr (le_refl 22) hbuilt rfl .pos).2⟩

example : corners.toOpeningStr .offset = "-11,-11, 10,10".toList := by decide

end Position

end GomokuCli
