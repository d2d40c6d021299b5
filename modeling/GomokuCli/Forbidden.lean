import GomokuCli.Line

/-!
# The forbidden-move finder

The finder looks for patterns by putting stones on the board and taking them off
again: to decide whether a cell is a double three it sets a stone there, asks
the same question of the cells next to the stone, and deletes it.  Every
function that does so returns the position it leaves behind, so that the
restoration is a fact to be proved and not an assumption.

`isOpenThree` and `isDoubleThree` call each other.  The recursion is bounded by
`fuel`; each level adds a stone, so the number of empty cells is enough of it.
-/

namespace GomokuCli

open LineRun

namespace Position

/-- `OpenFourType`. -/
inductive OpenFourType
  | none
  | true
  | long
  deriving DecidableEq, Repr

/-- The loop condition `board[pos + DIRECTION[iDir] * k] == piece`. -/
def holdsPiece (P : Position) (p : Nat) (piece : Color) (iDir : Fin 4) (k : Int) : Bool :=
  P.board (offset p (direction iDir * k)) == piece

/-- `count` of `isFive` and `isOverline` in one direction: five cells back, and forward what
six leave over.  The budget that both loops share is what makes a longer run count as six. -/
def runCount (P : Position) (p : Nat) (piece : Color) (iDir : Fin 4) : Nat :=
  LineRun.walk (fun i => P.holdsPiece p piece iDir (-i)) (fun j => P.holdsPiece p piece iDir j) 5

/-- `isFive(pos, piece, iDir)`. -/
def isFiveDir (P : Position) (p : Nat) (piece : Color) (iDir : Fin 4) : Bool :=
  if P.board p ≠ .empty then false else P.runCount p piece iDir == 5

/-- `isFive(pos, piece)`. -/
def isFive (P : Position) (p : Nat) (piece : Color) : Bool :=
  if P.board p ≠ .empty then false
  else (List.finRange 4).any fun iDir => P.isFiveDir p piece iDir

/-- `isOverline`. -/
def isOverline (P : Position) (p : Nat) (piece : Color) : Bool :=
  if P.board p ≠ .empty then false
  else (List.finRange 4).any fun iDir => decide (P.runCount p piece iDir > 5)

/-- Value of `i` after the backward loop `for (i = 1; i < 5; i++)`. -/
def stopBack (P : Position) (p : Nat) (piece : Color) (iDir : Fin 4) : Nat :=
  stopIndex (fun i => P.holdsPiece p piece iDir (-i)) 4 1

/-- Value of `j` after the forward loop `for (j = 1; j < 6 - i; j++)`. -/
def stopFwd (P : Position) (p : Nat) (piece : Color) (iDir : Fin 4) (i : Nat) : Nat :=
  stopIndex (fun j => P.holdsPiece p piece iDir j) (5 - i) 1

/-- The cell at which a loop was left by `break`, if it was and the cell is
empty. -/
def emptyStop (P : Position) (p : Nat) (iDir : Fin 4) (broke : Bool) (k : Int) :
    Option Nat :=
  let posi := offset p (direction iDir * k)
  if broke && P.board posi == .empty then some posi else none

/-- The early returns shared by `isFour`, `isOpenFour` and `isOpenThree`: the cell is taken,
or the stone makes more than the pattern.  An overline is only one for Black. -/
def noPattern (P : Position) (p : Nat) (piece : Color) : Bool :=
  P.board p != .empty || P.isFive p piece ||
    (piece == .black && P.isOverline p .black) || !decide piece.IsStone

/-- `isFour`: a stone is set, the next cell on either side of its run is tried for a five,
and the stone is deleted.  The position is returned as it is then. -/
def isFour (P : Position) (p : Nat) (piece : Color) (iDir : Fin 4) : Bool × Position :=
  if P.noPattern p piece then (false, P)
  else
    let P₁ := P.setPiece p piece
    let i := P₁.stopBack p piece iDir
    let four := (P₁.emptyStop p iDir (i < 5) (-i)).any fun posi => P₁.isFiveDir posi piece iDir
    let j := P₁.stopFwd p piece iDir i
    let four := four ||
      (P₁.emptyStop p iDir (j < 6 - i) j).any fun posi => P₁.isFiveDir posi piece iDir
    (four, P₁.delPiece p)

/-- `isOpenFour`: both cells next to the run have to make a five, and it is told apart
whether they do so with the same four stones. -/
def isOpenFour (P : Position) (p : Nat) (piece : Color) (iDir : Fin 4) :
    OpenFourType × Position :=
  if P.noPattern p piece then (.none, P)
  else
    let P₁ := P.setPiece p piece
    let fiveAt := fun (stop : Option Nat) =>
      if stop.any fun posi => P₁.isFiveDir posi piece iDir then 1 else 0
    let i := P₁.stopBack p piece iDir
    let count := 1 + (i - 1)
    let five := fiveAt (P₁.emptyStop p iDir (i < 5) (-i))
    -- the forward loop runs only when the backward one found a five
    let j := if five = 0 then 1 else P₁.stopFwd p piece iDir i
    let count := count + (j - 1)
    let five := if five = 0 then 0 else five + fiveAt (P₁.emptyStop p iDir (j < 6 - i) j)
    (if five = 2 then (if count = 4 then .true else .long) else .none, P₁.delPiece p)

/-- The value that direction `iDir` adds to `nFour` in `isDoubleFour`. -/
def fourValue (P : Position) (p : Nat) (piece : Color) (iDir : Fin 4) : Nat × Position :=
  let (openFour, P) := P.isOpenFour p piece iDir
  if openFour = .long then (2, P)
  else
    let (four, P) := P.isFour p piece iDir
    (if four then 1 else 0, P)

/-- The loop of `isDoubleFour`, left as soon as `nFour` reaches two, so that the directions
behind are not looked at. -/
def countFours (p : Nat) (piece : Color) : List (Fin 4) → Nat → Position → Bool × Position
  | [], _, P => (false, P)
  | iDir :: dirs, nFour, P =>
      let (value, P) := P.fourValue p piece iDir
      if nFour + value ≥ 2 then (true, P) else countFours p piece dirs (nFour + value) P

/-- `isDoubleFour`. -/
def isDoubleFour (P : Position) (p : Nat) (piece : Color) : Bool × Position :=
  if P.board p ≠ .empty then (false, P)
  else if P.isFive p piece then (false, P)
  else countFours p piece (List.finRange 4) 0 P

/-- A function that may run out of fuel and changes the position on its way.  The finders
are written over such a function, so that what calls itself in the source is a parameter
here. -/
abbrev Finder := Position → Nat → Color → Option (Bool × Position)

/-- The condition under which `isOpenThree` accepts an empty stop `posi`; the
conjunction is evaluated from the left. -/
def makesOpenThree (isDoubleThree : Finder) (P : Position) (posi : Nat) (piece : Color)
    (iDir : Fin 4) : Option (Bool × Position) :=
  let (openFour, P) := P.isOpenFour posi piece iDir
  if openFour ≠ .true then some (false, P)
  else
    let (doubleFour, P) := P.isDoubleFour posi piece
    if doubleFour then some (false, P)
    else (isDoubleThree P posi piece).map fun (doubleThree, P) => (!doubleThree, P)

/-- A loop of `isOpenThree` after it has stopped. -/
def threeAt (isDoubleThree : Finder) (P : Position) (stop : Option Nat) (piece : Color)
    (iDir : Fin 4) : Option (Bool × Position) :=
  match stop with
  | none => some (false, P)
  | some posi => makesOpenThree isDoubleThree P posi piece iDir

/-- `isOpenThree`, given the `isDoubleThree` that it calls.  Only the first empty cell on
either side of the run is tried, and the second of them only if the first makes no open
three. -/
def isOpenThree (isDoubleThree : Finder) (P : Position) (p : Nat) (piece : Color)
    (iDir : Fin 4) : Option (Bool × Position) :=
  if P.noPattern p piece then some (false, P)
  else do
    let P₁ := P.setPiece p piece
    let i := P₁.stopBack p piece iDir
    let (openthree, P₂) ← threeAt isDoubleThree P₁ (P₁.emptyStop p iDir (i < 5) (-i)) piece iDir
    if openthree then return (true, P₂.delPiece p)
    let j := P₂.stopFwd p piece iDir i
    let (openthree, P₃) ←
      threeAt isDoubleThree P₂ (P₂.emptyStop p iDir (j < 6 - i) j) piece iDir
    return (openthree, P₃.delPiece p)

/-- The loop of `isDoubleThree`, left as soon as `nThree` reaches two. -/
def countThrees (isDoubleThree : Finder) (p : Nat) (piece : Color) :
    List (Fin 4) → Nat → Position → Option (Bool × Position)
  | [], _, P => some (false, P)
  | iDir :: dirs, nThree, P => do
      let (three, P) ← isOpenThree isDoubleThree P p piece iDir
      let nThree := nThree + (if three then 1 else 0)
      if nThree ≥ 2 then return (true, P)
      countThrees isDoubleThree p piece dirs nThree P

/-- `isDoubleThree`.  The calls that it makes by way of `isOpenThree` run with one unit of
fuel less; that the fuel of `isForbidden` is enough is proved (`BoardShape.lt_finderFuel`). -/
def isDoubleThree : Nat → Finder
  | 0, _, _, _ => none
  | fuel + 1, P, p, piece =>
      if P.board p ≠ .empty then some (false, P)
      else if P.isFive p piece then some (false, P)
      else countThrees (isDoubleThree fuel) p piece (List.finRange 4) 0 P

/-- Every level of the recursion fills one cell of the array. -/
def finderFuel : Nat := maxBoardSizeSqr + 1

/-- `isForbidden`: the kinds are asked for in a fixed order, and the first one that fits is
returned. -/
def isForbidden (P : Position) (p : Nat) : Option (ForbiddenType × Position) := do
  let (doubleThree, P) ← isDoubleThree finderFuel P p .black
  if doubleThree then return (.doubleThree, P)
  let (doubleFour, P) := P.isDoubleFour p .black
  if doubleFour then return (.doubleFour, P)
  return (if P.isOverline p .black then .overline else .none, P)

/-- `check_forbidden_move`.  The method is `const` and casts that away, so the position that
it leaves behind is returned with the verdict. -/
def checkForbiddenMove (P : Position) (m : Nat) : Option (ForbiddenType × Position) :=
  if colorFromMove m ≠ Color.black.code then some (.none, P)
  else P.isForbidden (posFromMove m)

end Position

end GomokuCli
