import GomokuCli.Library.Decimal
import GomokuCli.Record

/-!
# Answers of an engine

An engine answers with a line `x,y`.  `gomostrToMove` turns it into a packed
move, `isLegalMove` then looks the packed cell up in the board, and nothing in
between compares the two coordinates with the board size: the assertions that
would are compiled out.  `wrappedCell` is the cell that two arbitrary `int`s end
up denoting, and the main result says exactly which answers are read correctly.
-/

namespace GomokuCli

/-- `std::stoi`, with `none` for the two exceptions it can throw. -/
def stoi (s : List Char) : Option Int := (Decimal.readInt s).map Prod.fst

/-- The loop that looks for the comma: its last index and how many there are.  Without a
comma the index is zero. -/
def findComma (movestr : List Char) : Nat × Nat :=
  movestr.zipIdx.foldl
    (fun found ci => if ci.1 = ',' then (ci.2, found.2 + 1) else found) (0, 0)

/-- `gomostr_to_move`.  The result is `none` when `std::stoi` throws. -/
def Position.gomostrToMove (P : Position) (movestr : List Char) : Option Nat :=
  let commaIdx := (findComma movestr).1
  let xstr := movestr.take commaIdx
  let ystr := movestr.drop (commaIdx + 1)
  (stoi xstr).bind fun x =>
    (stoi ystr).bind fun y =>
      some (buildMove x y P.playerToMove)

/-- The static function `isNumber`: nothing is left of the string. -/
def isNumber (str : List Char) : Bool := (Decimal.strtolEnd (Decimal.cString str)).isEmpty

/-- `is_valid_move_gomostr`: exactly one comma, and on either side of it something that
`isNumber` lets pass, which an empty text does. -/
def isValidMoveGomostr (movestr : List Char) : Bool :=
  let (commaIdx, commaCount) := findComma movestr
  if commaCount ≠ 1 then false
  else
    let xstr := movestr.take commaIdx
    let ystr := movestr.drop (commaIdx + 1)
    isNumber xstr && isNumber ystr

/-- The line has exactly one comma and its two parts are read by `std::stoi` as `x` and `y`.
Whether the cell is on the board is not part of it. -/
structure ReadsAs (movestr : List Char) (x y : Int) : Prop where
  parts : ∃ xstr ystr, movestr = xstr ++ ',' :: ystr ∧ ',' ∉ xstr ∧ ',' ∉ ystr ∧
    stoi xstr = some x ∧ stoi ystr = some y

theorem findComma_of_notMem {s : List Char} (h : ',' ∉ s) (k : Nat) (found : Nat × Nat) :
    (s.zipIdx k).foldl
      (fun found ci => if ci.1 = ',' then (ci.2, found.2 + 1) else found) found = found := by
  induction s generalizing k with
  | nil => rfl
  | cons c s ih =>
      rw [List.mem_cons, not_or] at h
      rw [List.zipIdx_cons, List.foldl_cons, if_neg (Ne.symm h.1)]
      exact ih h.2 (k + 1)

/-- With a single comma the line is cut at it. -/
theorem findComma_append {xstr ystr : List Char} (hx : ',' ∉ xstr) (hy : ',' ∉ ystr) :
    findComma (xstr ++ ',' :: ystr) = (xstr.length, 1) := by
  rw [findComma, List.zipIdx_append, List.foldl_append, findComma_of_notMem hx,
    List.zipIdx_cons, List.foldl_cons, if_pos rfl, findComma_of_notMem hy]
  simp

theorem ReadsAs.gomostrToMove {movestr : List Char} {x y : Int} (h : ReadsAs movestr x y)
    (P : Position) : P.gomostrToMove movestr = some (buildMove x y P.playerToMove) := by
  obtain ⟨xstr, ystr, rfl, hx, hy, hxval, hyval⟩ := h.parts
  simp [Position.gomostrToMove, findComma_append hx hy, hxval, hyval]

/-! ## Which answers are converted -/

theorem findComma_snd (s : List Char) (k : Nat) (found : Nat × Nat) :
    ((s.zipIdx k).foldl
      (fun found ci => if ci.1 = ',' then (ci.2, found.2 + 1) else found) found).2 =
      found.2 + s.count ',' := by
  induction s generalizing k found with
  | nil => rfl
  | cons c s ih =>
      rw [List.zipIdx_cons, List.foldl_cons, ih, List.count_cons]
      by_cases hc : c = ','
      · simp [hc]
        omega
      · simp [hc]

/-- The line is cut at its only comma.  With two commas it is no answer, and so the cut is
unique. -/
structure CutsAt (movestr xstr ystr : List Char) : Prop where
  eq : movestr = xstr ++ ',' :: ystr
  notMem_xstr : ',' ∉ xstr
  notMem_ystr : ',' ∉ ystr

theorem exists_cutsAt {movestr : List Char} (h : (findComma movestr).2 = 1) :
    ∃ xstr ystr, CutsAt movestr xstr ystr := by
  rw [findComma, findComma_snd, Nat.zero_add] at h
  have hmem : ',' ∈ movestr := by
    rw [← List.count_pos_iff, h]
    exact Nat.one_pos
  obtain ⟨xstr, ystr, rfl⟩ := List.append_of_mem hmem
  rw [List.count_append, List.count_cons_self] at h
  exact ⟨xstr, ystr, rfl, List.count_eq_zero.mp (by omega), List.count_eq_zero.mp (by omega)⟩

theorem CutsAt.isValidMoveGomostr {movestr xstr ystr : List Char}
    (h : CutsAt movestr xstr ystr) :
    isValidMoveGomostr movestr = (isNumber xstr && isNumber ystr) := by
  obtain ⟨rfl, hx, hy⟩ := h
  simp [GomokuCli.isValidMoveGomostr, findComma_append hx hy]

theorem isValidMoveGomostr_iff (movestr : List Char) :
    isValidMoveGomostr movestr = true ↔
      ∃ xstr ystr, CutsAt movestr xstr ystr ∧ isNumber xstr = true ∧ isNumber ystr = true := by
  constructor
  · intro h
    have hone : (findComma movestr).2 = 1 := by
      by_contra hne
      simp [isValidMoveGomostr, hne] at h
    obtain ⟨xstr, ystr, hcut⟩ := exists_cutsAt hone
    rw [hcut.isValidMoveGomostr, Bool.and_eq_true] at h
    exact ⟨xstr, ystr, hcut, h⟩
  · rintro ⟨xstr, ystr, hcut, hx, hy⟩
    rw [hcut.isValidMoveGomostr, hx, hy, Bool.and_self]

/-- What stands on one side of the comma, as a C string: nothing, or a number.  Both pass
the test of the referee, and only a number that fits an `int` is converted. -/
inductive Coordinate (str : List Char) : Option Int → Prop
  | missing (h : Decimal.cString str = []) : Coordinate str none
  | number {v : Int} (h : Decimal.Denotes (Decimal.cString str) v) : Coordinate str (some v)

theorem isNumber_iff (str : List Char) : isNumber str = true ↔ ∃ v, Coordinate str v := by
  rw [isNumber, List.isEmpty_iff, Decimal.strtolEnd_eq_nil_iff]
  constructor
  · rintro (hnil | ⟨v, hv⟩)
    · exact ⟨none, .missing hnil⟩
    · exact ⟨some v, .number hv⟩
  · rintro ⟨v, hnil | hv⟩
    · exact Or.inl hnil
    · exact Or.inr ⟨_, hv⟩

/-- `std::stoi` wants a number, and one that fits an `int`. -/
theorem Coordinate.stoi {str : List Char} {v : Option Int} (h : Coordinate str v) :
    stoi str = v.filter fun x => Decimal.FitsInt x := by
  cases h with
  | missing hnil =>
      obtain ⟨rest, hstr, hnull⟩ := Decimal.exists_cString_append str
      rw [hnil, List.nil_append] at hstr
      rw [hstr, GomokuCli.stoi, Decimal.readInt_null hnull]
      rfl
  | @number v hv =>
      rw [GomokuCli.stoi, Decimal.readInt_cString hv]
      simp only [Option.filter, decide_eq_true_eq]

theorem Coordinate.stoi_isSome {str : List Char} {v : Option Int} (h : Coordinate str v) :
    (GomokuCli.stoi str).isSome = true ↔ ∃ x, v = some x ∧ Decimal.FitsInt x := by
  rw [h.stoi]
  cases v with
  | none => simp
  | some x => simp

theorem CutsAt.gomostrToMove_isSome {movestr xstr ystr : List Char}
    (h : CutsAt movestr xstr ystr) (P : Position) :
    (P.gomostrToMove movestr).isSome = true ↔
      (stoi xstr).isSome = true ∧ (stoi ystr).isSome = true := by
  obtain ⟨rfl, hx, hy⟩ := h
  simp only [Position.gomostrToMove, findComma_append hx hy, List.take_left]
  rw [show (xstr ++ ',' :: ystr).drop (xstr.length + 1) = ystr by simp]
  cases stoi xstr with
  | none => simp
  | some x =>
      cases stoi ystr with
      | none => simp
      | some y => simp

/-- **When an answer that is let through is converted.** `std::stoi` is stricter than
`isNumber`: it also wants the number to be there, and to fit an `int`.  The condition is on
the text alone, and is met by every answer with two numbers that fit. -/
theorem gomostrToMove_of_isValidMoveGomostr_iff (P : Position) (movestr : List Char) :
    (isValidMoveGomostr movestr = true → (P.gomostrToMove movestr).isSome = true) ↔
      ∀ xstr ystr x y, CutsAt movestr xstr ystr → Coordinate xstr x → Coordinate ystr y →
        (∃ v, x = some v ∧ Decimal.FitsInt v) ∧ (∃ v, y = some v ∧ Decimal.FitsInt v) := by
  constructor
  · intro hconverted xstr ystr x y hcut hx hy
    have hvalid : isValidMoveGomostr movestr = true := by
      rw [isValidMoveGomostr_iff]
      exact ⟨xstr, ystr, hcut, (isNumber_iff xstr).mpr ⟨x, hx⟩, (isNumber_iff ystr).mpr ⟨y, hy⟩⟩
    have hboth := (hcut.gomostrToMove_isSome P).mp (hconverted hvalid)
    exact ⟨hx.stoi_isSome.mp hboth.1, hy.stoi_isSome.mp hboth.2⟩
  · intro hfits hvalid
    obtain ⟨xstr, ystr, hcut, hxnum, hynum⟩ := (isValidMoveGomostr_iff movestr).mp hvalid
    obtain ⟨x, hx⟩ := (isNumber_iff xstr).mp hxnum
    obtain ⟨y, hy⟩ := (isNumber_iff ystr).mp hynum
    obtain ⟨hxfits, hyfits⟩ := hfits xstr ystr x y hcut hx hy
    exact (hcut.gomostrToMove_isSome P).mpr
      ⟨hx.stoi_isSome.mpr hxfits, hy.stoi_isSome.mpr hyfits⟩

/-- A single comma is let through, and then the conversion throws. -/
theorem gomostrToMove_throws_comma :
    isValidMoveGomostr [','] = true ∧ (Position.new 15).gomostrToMove [','] = none := by
  decide

/-! ## Which cell two integers denote -/

/-- The cell of the padded array that the packed form of `(x, y)` denotes, in coordinates of
the square: everything happens modulo `32`, and the second coordinate carries into the first
one every `32` up to its own period of `256`.  It is the identity on the board and around
it. -/
def wrappedCell (x y : Int) : Int × Int :=
  ((x + 5 + (y + 5) % 256 / 32) % 32 - 5, (y + 5) % 32 - 5)

theorem cellOf_posFromMove_buildMove (x y : Int) (side : Color) :
    cellOf (posFromMove (buildMove x y side)) = wrappedCell x y := by
  have hpos := pos_eq x y
  rw [buildMove, posFromMove_buildMovePos, cellOf, wrappedCell, coordX_eq, coordY_eq,
    Prod.mk.injEq]
  constructor <;> omega

/-- On the board nothing wraps. -/
theorem wrappedCell_of_range {x y : Int} (hx : -5 ≤ x ∧ x < 27) (hy : -5 ≤ y ∧ y < 27) :
    wrappedCell x y = (x, y) := by
  rw [wrappedCell, Prod.mk.injEq]
  constructor <;> omega

theorem wrappedCell_of_inSquare {size : Nat} {x y : Int} (hsize : size ≤ 22)
    (h : InSquare size (x, y)) : wrappedCell x y = (x, y) :=
  wrappedCell_of_range (h.range hsize).1 (h.range hsize).2

theorem colorFromMove_buildMove {size : Nat} {x y : Int} (hsize : size ≤ 22)
    (h : InSquare size (x, y)) (side : Color) :
    colorFromMove (buildMove x y side) = side.code := by
  have hlt : posOf (x, y) < 1024 := posOf_lt (h.range hsize)
  have hcode := side.code_lt
  exact colorFromMove_buildMovePos hlt (by omega)

namespace Position

variable {P : Position}

/-- An answer is legal iff the cell it wraps to is an empty cell of the square. -/
theorem BoardShape.isLegalMove_buildMove_iff (hshape : P.BoardShape) (x y : Int)
    (side : Color) :
    P.isLegalMove (buildMove x y side) = true ↔
      InSquare P.boardSize (wrappedCell x y) ∧ P.grid (wrappedCell x y) = .empty := by
  rw [hshape.isLegalMove_iff, cellOf_posFromMove_buildMove]

/-- The two coordinates are read as the referee should read them: the move is legal iff the
cell `(x, y)` is an empty cell of the board, and a legal move is the stone of the side to
move on that cell. -/
structure ReadFaithfully (P : Position) (x y : Int) (m : Nat) : Prop where
  legal_iff : P.isLegalMove m = true ↔
    InSquare P.boardSize (x, y) ∧ P.grid (x, y) = .empty
  denotes : P.isLegalMove m = true →
    cellOf (posFromMove m) = (x, y) ∧ colorFromMove m = P.playerToMove.code

/-- **Which answers are read correctly.** All that name a cell of the board, and of the
others those whose wrapped cell is not an empty cell of the board.  The others are taken for
moves that the engine has not named, because the assertions that would catch them are
compiled out. -/
theorem gomostrToMove_readFaithfully_iff (hshape : P.BoardShape) {movestr : List Char}
    {x y : Int} (hreads : ReadsAs movestr x y) :
    (∃ m, P.gomostrToMove movestr = some m ∧ P.ReadFaithfully x y m) ↔
      InSquare P.boardSize (x, y) ∨
        ¬ (InSquare P.boardSize (wrappedCell x y) ∧ P.grid (wrappedCell x y) = .empty) := by
  have hmove := hreads.gomostrToMove P
  have hlegal := hshape.isLegalMove_buildMove_iff x y P.playerToMove
  constructor
  · rintro ⟨m, hm, hread⟩
    rw [hmove, Option.some.injEq] at hm
    subst hm
    by_contra hnot
    rw [not_or, not_not] at hnot
    -- the wrapped cell is accepted, and the one that was named is off the board
    have haccepted := hlegal.mpr hnot.2
    exact hnot.1 (hread.legal_iff.mp haccepted).1
  · intro h
    refine ⟨_, hmove, ?_⟩
    rcases h with hin | hrejected
    · have hcell := wrappedCell_of_inSquare hshape.size_le hin
      rw [hcell] at hlegal
      refine ⟨hlegal, fun _ => ⟨?_, colorFromMove_buildMove hshape.size_le hin _⟩⟩
      rw [cellOf_posFromMove_buildMove, hcell]
    · have hillegal : ¬ P.isLegalMove (buildMove x y P.playerToMove) = true :=
        fun h => hrejected (hlegal.mp h)
      refine ⟨⟨fun h => absurd h hillegal, fun h => ?_⟩, fun h => absurd h hillegal⟩
      rw [wrappedCell_of_inSquare hshape.size_le h.1] at hrejected
      exact absurd h hrejected

/-- The answer `7,7` to an empty board. -/
theorem gomostrToMove_readFaithfully_centre :
    ∃ m, (Position.new 15).gomostrToMove ['7', ',', '7'] = some m ∧
      (Position.new 15).ReadFaithfully 7 7 m :=
  (gomostrToMove_readFaithfully_iff (initBoard_shape _ (by decide))
    ⟨['7'], ['7'], rfl, by decide, by decide, by decide, by decide⟩).mpr
      (Or.inl (by decide))

/-- The answer `32,0` is outside every board, and yet it is accepted as the
corner `(0, 0)`, with the colour bits of the other player. -/
theorem gomostrToMove_accepts_wrapped :
    ReadsAs ['3', '2', ',', '0'] 32 0 ∧ ¬ InSquare (Position.new 15).boardSize (32, 0) ∧
      ∃ m, (Position.new 15).gomostrToMove ['3', '2', ',', '0'] = some m ∧
        (Position.new 15).isLegalMove m = true ∧ cellOf (posFromMove m) = (0, 0) ∧
        (Position.new 15).playerToMove = .black ∧ colorFromMove m = Color.white.code :=
  ⟨⟨['3', '2'], ['0'], rfl, by decide, by decide, by decide, by decide⟩, by decide,
    _, rfl, by decide, by decide, rfl, by decide⟩

end Position

end GomokuCli
