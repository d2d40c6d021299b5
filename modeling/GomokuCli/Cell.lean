import Mathlib.Tactic

/-!
# Cells, colours and packed moves

The board of the referee is a padded array of `32 × 32` entries: the playing
square sits at offset `5` in both coordinates and everything around it is
`wall`.  A cell is a 10-bit number `x * 32 + y` (with the offset added), and a
move packs the colour of the mover on top of it.

All of this arithmetic runs in `uint8_t` and `uint16_t`, and the conversions are
implicit in the source.  They are written out here (`uint8`, `uint16`), because
what a coordinate outside the board turns into is decided by them alone.
-/

namespace GomokuCli

/-- `enum Color`. -/
inductive Color
  | black
  | white
  | empty
  | wall
  deriving DecidableEq, Repr

/-- The value of an enumerator of `Color`. -/
def Color.code : Color → Nat
  | .black => 0
  | .white => 1
  | .empty => 2
  | .wall => 3

/-- `opponent_color`: the table swaps the two players and fixes the rest. -/
def opponentColor : Color → Color
  | .black => .white
  | .white => .black
  | .empty => .empty
  | .wall => .wall

@[simp] theorem opponentColor_opponentColor (c : Color) :
    opponentColor (opponentColor c) = c := by
  cases c <;> rfl

/-- A colour that a player can have. -/
def Color.IsStone (c : Color) : Prop := c = .black ∨ c = .white

instance (c : Color) : Decidable c.IsStone :=
  inferInstanceAs (Decidable (c = .black ∨ c = .white))

@[simp] theorem Color.isStone_black : Color.IsStone .black := Or.inl rfl

@[simp] theorem Color.isStone_white : Color.IsStone .white := Or.inr rfl

theorem Color.IsStone.opponent {c : Color} (h : c.IsStone) :
    (opponentColor c).IsStone := by
  rcases h with rfl | rfl <;> simp [opponentColor]

theorem Color.IsStone.ne_empty {c : Color} (h : c.IsStone) : c ≠ .empty := by
  rcases h with rfl | rfl <;> simp

theorem Color.IsStone.ne_wall {c : Color} (h : c.IsStone) : c ≠ .wall := by
  rcases h with rfl | rfl <;> simp

theorem Color.IsStone.opponent_ne {c : Color} (h : c.IsStone) :
    opponentColor c ≠ c := by
  rcases h with rfl | rfl <;> simp [opponentColor]

/-- `enum GameRule`. -/
inductive GameRule
  | gomokuFiveOrMore
  | gomokuExactFive
  | renju
  deriving DecidableEq, Repr

/-- The Gomocup code of a rule. -/
def GameRule.code : GameRule → Nat
  | .gomokuFiveOrMore => 0
  | .gomokuExactFive => 1
  | .renju => 4

/-- `enum OpeningType`. -/
inductive OpeningType
  | offset
  | pos
  deriving DecidableEq, Repr

/-- `enum ForbiddenType`. -/
inductive ForbiddenType
  | none
  | doubleThree
  | doubleFour
  | overline
  deriving DecidableEq, Repr

/-- `enum TransformType`, in the order of the source. -/
inductive TransformType
  | identity
  | rotate90
  | rotate180
  | rotate270
  | flipX
  | flipY
  | flipXY
  | flipYX
  deriving DecidableEq, Repr

/-! ## Machine integers -/

/-- Conversion of an `int` to `uint8_t`: the remainder modulo `256`, also of a negative
number. -/
def uint8 (n : Int) : Nat := (n % 256).toNat

/-- Conversion of an `int` to `uint16_t`. -/
def uint16 (n : Int) : Nat := (n % 65536).toNat

theorem uint8_lt (n : Int) : uint8 n < 256 := by
  unfold uint8; omega

theorem uint16_natCast {n : Nat} (h : n < 65536) : uint16 (n : Int) = n := by
  unfold uint16; omega

/-! ## Packed cells

`Pos` and `move_t` are both `uint16_t`; here they are the numbers they hold. -/

/-- `BOARD_BOUNDARY`. -/
def boardBoundary : Int := 5

/-- `MAX_BOARD_SIZE_BIT`. -/
def maxBoardSizeBit : Nat := 5

/-- `Position::MaxBoardSize`. -/
def maxBoardSize : Nat := 1 <<< maxBoardSizeBit

/-- `Position::MaxBoardSizeSqr`, the length of the board and history arrays. -/
def maxBoardSizeSqr : Nat := maxBoardSize * maxBoardSize

/-- `NONE_MOVE`. -/
def noneMove : Nat := 0xFFFF

/-- `POS_RAW`: both arguments are converted to `uint8_t` at the call, and the
sum is formed without masking the second one. -/
def posRaw (x y : Int) : Nat := uint16 ((uint8 x <<< maxBoardSizeBit) + uint8 y : Nat)

/-- `POS`: the boundary is added to both coordinates, which have been cut down to a byte,
and the sums are cut down again when they are passed on. -/
def pos (x y : Int) : Nat := posRaw (uint8 x + boardBoundary) (uint8 y + boardBoundary)

/-- `CoordX`. -/
def coordX (p : Nat) : Int := ((p >>> maxBoardSizeBit : Nat) : Int) - boardBoundary

/-- `CoordY`. -/
def coordY (p : Nat) : Int :=
  ((p &&& ((1 <<< maxBoardSizeBit) - 1) : Nat) : Int) - boardBoundary

/-- `PosFromMove`: the lowest ten bits, which is the packed cell without its colour. -/
def posFromMove (m : Nat) : Nat := m &&& 0x03FF

/-- `ColorFromMove`.  The cast to `Color` does not check the range, so the value
is kept as a number and compared with `Color.code`. -/
def colorFromMove (m : Nat) : Nat := m >>> 10

/-- `buildMovePos`.  `side` is the value of the enumerator: the callers pass on what
`colorFromMove` returned.  A cell outside the array would spill into the bits of the colour. -/
def buildMovePos (p side : Nat) : Nat := uint16 ((side <<< 10) ||| p : Nat)

/-- `buildMove`. -/
def buildMove (x y : Int) (side : Color) : Nat := buildMovePos (pos x y) side.code

theorem posRaw_eq (x y : Int) : posRaw x y = 32 * uint8 x + uint8 y := by
  have hx := uint8_lt x
  have hy := uint8_lt y
  have hval : (uint8 x <<< maxBoardSizeBit) + uint8 y = 32 * uint8 x + uint8 y := by
    simp only [maxBoardSizeBit, Nat.shiftLeft_eq]
    omega
  rw [posRaw, hval]
  exact uint16_natCast (by omega)

/-- The packed cell of any pair of `int`s: each coordinate is reduced modulo
`256` after the offset, and the second one may carry into the first. -/
theorem pos_eq (x y : Int) :
    pos x y = 32 * ((x + 5) % 256).toNat + ((y + 5) % 256).toNat := by
  rw [pos, posRaw_eq]
  simp only [uint8, boardBoundary]
  omega

theorem pos_lt (x y : Int) : pos x y < 8416 := by
  rw [pos_eq]; omega

/-- Inside the padded array no conversion changes a coordinate, so that packed cells can be
computed with as whole numbers. -/
theorem pos_eq_of_range {x y : Int} (hx : -5 ≤ x ∧ x < 27) (hy : -5 ≤ y ∧ y < 27) :
    (pos x y : Int) = 32 * (x + 5) + (y + 5) := by
  rw [pos_eq]; omega

theorem coordX_eq (p : Nat) : coordX p = ((p / 32 : Nat) : Int) - 5 := by
  simp [coordX, maxBoardSizeBit, boardBoundary, Nat.shiftRight_eq_div_pow]

theorem coordY_eq (p : Nat) : coordY p = ((p % 32 : Nat) : Int) - 5 := by
  have h : p &&& ((1 <<< maxBoardSizeBit) - 1) = p % 32 :=
    Nat.and_two_pow_sub_one_eq_mod p 5
  simp only [coordY, h, boardBoundary]

theorem coordX_pos {x y : Int} (hx : -5 ≤ x ∧ x < 27) (hy : -5 ≤ y ∧ y < 27) :
    coordX (pos x y) = x := by
  have h := pos_eq_of_range hx hy
  rw [coordX_eq]; omega

theorem coordY_pos {x y : Int} (hx : -5 ≤ x ∧ x < 27) (hy : -5 ≤ y ∧ y < 27) :
    coordY (pos x y) = y := by
  have h := pos_eq_of_range hx hy
  rw [coordY_eq]; omega

/-- A cell of the padded array is rebuilt from its coordinates.  With the converse
(`coordX_pos`, `coordY_pos`) cells and coordinates are in a one-to-one correspondence there. -/
theorem pos_coord {p : Nat} (h : p < 1024) : pos (coordX p) (coordY p) = p := by
  have hx := coordX_eq p
  have hy := coordY_eq p
  have := pos_eq_of_range (x := coordX p) (y := coordY p) (by omega) (by omega)
  omega

theorem posFromMove_eq (m : Nat) : posFromMove m = m % 1024 :=
  Nat.and_two_pow_sub_one_eq_mod m 10

theorem posFromMove_lt (m : Nat) : posFromMove m < 1024 := by
  rw [posFromMove_eq]; omega

theorem Color.code_lt (c : Color) : c.code < 4 := by
  cases c <;> simp [Color.code]

/-- Whatever the colour bits are, the cell read back from a move is the packed cell reduced
to ten bits.  An answer with wild coordinates is brought onto the board in this way. -/
theorem posFromMove_buildMovePos (p side : Nat) :
    posFromMove (buildMovePos p side) = p % 1024 := by
  have huint : buildMovePos p side % 1024 = ((side <<< 10) ||| p) % 1024 := by
    unfold buildMovePos uint16
    omega
  rw [posFromMove_eq, huint, show (1024 : Nat) = 2 ^ 10 by rfl, Nat.or_mod_two_pow,
    Nat.shiftLeft_eq, Nat.mul_mod_left, Nat.zero_or]

theorem buildMovePos_of_lt {p side : Nat} (hp : p < 2 ^ 14) (hside : side < 16) :
    buildMovePos p side = (side <<< 10) ||| p ∧ buildMovePos p side < 2 ^ 14 := by
  have hlt : (side <<< 10) ||| p < 2 ^ 14 := by
    refine Nat.or_lt_two_pow ?_ hp
    rw [Nat.shiftLeft_eq]
    omega
  have heq : buildMovePos p side = (side <<< 10) ||| p := uint16_natCast (by omega)
  exact ⟨heq, heq ▸ hlt⟩

/-- A cell inside the array leaves the colour bits alone. -/
theorem colorFromMove_buildMovePos {p side : Nat} (hp : p < 1024) (hside : side < 16) :
    colorFromMove (buildMovePos p side) = side := by
  rw [colorFromMove, (buildMovePos_of_lt (by omega) hside).1, Nat.shiftRight_or_distrib,
    Nat.shiftLeft_shiftRight, Nat.shiftRight_eq_div_pow, Nat.div_eq_of_lt (by omega),
    Nat.or_zero]

/-- No answer of an engine is taken for the sentinel. -/
theorem buildMove_ne_noneMove (x y : Int) (side : Color) :
    buildMove x y side ≠ noneMove := by
  have hp := pos_lt x y
  have hside := side.code_lt
  have hlt : buildMovePos (pos x y) side.code < 2 ^ 14 :=
    (buildMovePos_of_lt (by omega) (by omega)).2
  rw [buildMove, noneMove]
  omega

end GomokuCli
