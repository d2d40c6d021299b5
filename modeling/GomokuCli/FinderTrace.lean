import GomokuCli.ForbiddenPoint
import GomokuCli.Library.Tracing

/-!
# What the finder does to the board

`check_forbidden_move` is declared `const`, yet it sets and deletes stones on
the way.  Here every function of the finder is written once more, with a log:
of each call and each return the position at that moment, of each stone set or
deleted what the cell held.

Without its log each function is the one of `GomokuCli.Forbidden`
(`forget_isFour` and its siblings), so the log is one of that code.  The log of
a whole call is balanced (`isForbidden_restores`): every `setPiece` finds an
empty cell, the `delPiece` that matches it finds the stone it set, and every
function returns with the position it was called with.
-/

namespace GomokuCli

open Position (OpenFourType finderFuel)

namespace FinderTrace

/-- The functions that set and delete stones, or call one that does. -/
inductive Name
  | isFour
  | isOpenFour
  | isDoubleFour
  | isOpenThree
  | isDoubleThree
  | isForbidden
  deriving DecidableEq, Repr

/-- What is logged: calls and returns with the position at that moment, and stones with what
their cell held before. -/
inductive Event
  | call (f : Name) (P : Position)
  | ret (f : Name) (P : Position)
  | setPiece (p : Nat) (piece held : Color)
  | delPiece (p : Nat) (held : Color)

/-- A call is closed by the return of the same function with the same position; a stone set
on an empty cell is closed by the deletion that still finds it.  A log in which every event
is closed in this way shows that nothing has been lost or left behind. -/
inductive Closes : Event → Event → Prop
  | ret (f : Name) (P : Position) : Closes (.call f P) (.ret f P)
  | delPiece (p : Nat) (piece : Color) :
      Closes (.setPiece p piece .empty) (.delPiece p piece)

/-- A computation of the finder. -/
abbrev Finding := Tracing Position Event

open Tracing

/-! ## The finder with its log -/

/-- Log the call of `f` and its return. -/
def named {α : Type} (f : Name) (body : Finding α) : Finding α :=
  between (act id (.call f)) (act id (.ret f)) body

/-- `setPiece(pos, piece)`, the body, `delPiece(pos)`.  Every stone of the finder is set and
deleted in this way. -/
def withPiece {α : Type} (p : Nat) (piece : Color) (body : Finding α) : Finding α :=
  between (act (·.setPiece p piece) fun P => .setPiece p piece (P.board p))
    (act (·.delPiece p) fun P => .delPiece p (P.board p)) body

/-- `isFive(posi, piece, iDir)` at the stop of a loop, if that is empty. -/
def fiveAt (p : Nat) (piece : Color) (iDir : Fin 4) (broke : Bool) (k : Int) : Finding Bool :=
  reads fun P => (P.emptyStop p iDir broke k).any fun posi => P.isFiveDir posi piece iDir

/-- `isFour`. -/
def isFour (p : Nat) (piece : Color) (iDir : Fin 4) : Finding Bool :=
  named .isFour do
    let none ← reads fun P => P.noPattern p piece
    if none then return false
    else
      withPiece p piece do
        let i ← reads fun P => P.stopBack p piece iDir
        let four ← fiveAt p piece iDir (i < 5) (-i)
        if four then return true
        else
          let j ← reads fun P => P.stopFwd p piece iDir i
          fiveAt p piece iDir (j < 6 - i) j

/-- `isOpenFour`. -/
def isOpenFour (p : Nat) (piece : Color) (iDir : Fin 4) : Finding OpenFourType :=
  named .isOpenFour do
    let none ← reads fun P => P.noPattern p piece
    if none then return .none
    else
      withPiece p piece do
        let i ← reads fun P => P.stopBack p piece iDir
        let five ← fiveAt p piece iDir (i < 5) (-i)
        if five then
          let j ← reads fun P => P.stopFwd p piece iDir i
          let five ← fiveAt p piece iDir (j < 6 - i) j
          return if five then (if 1 + (i - 1) + (j - 1) = 4 then .true else .long) else .none
        else return .none

/-- The value that direction `iDir` adds to `nFour` in `isDoubleFour`. -/
def fourValue (p : Nat) (piece : Color) (iDir : Fin 4) : Finding Nat := do
  let openFour ← isOpenFour p piece iDir
  if openFour = .long then return 2
  else
    let four ← isFour p piece iDir
    return if four then 1 else 0

/-- The loop of `isDoubleFour`. -/
def countFours (p : Nat) (piece : Color) : List (Fin 4) → Nat → Finding Bool
  | [], _ => return false
  | iDir :: dirs, nFour => do
      let value ← fourValue p piece iDir
      if nFour + value ≥ 2 then return true else countFours p piece dirs (nFour + value)

/-- `isDoubleFour`. -/
def isDoubleFour (p : Nat) (piece : Color) : Finding Bool :=
  named .isDoubleFour do
    let taken ← reads fun P => P.board p != .empty
    if taken then return false
    else
      let five ← reads fun P => P.isFive p piece
      if five then return false
      else countFours p piece (List.finRange 4) 0

/-- The condition under which `isOpenThree` accepts an empty stop `posi`. -/
def makesOpenThree (isDoubleThree : Nat → Color → Finding Bool) (posi : Nat) (piece : Color)
    (iDir : Fin 4) : Finding Bool := do
  let openFour ← isOpenFour posi piece iDir
  if openFour ≠ .true then return false
  else
    let doubleFour ← isDoubleFour posi piece
    if doubleFour then return false
    else
      let doubleThree ← isDoubleThree posi piece
      return !doubleThree

/-- A loop of `isOpenThree` after it has stopped. -/
def threeAt (isDoubleThree : Nat → Color → Finding Bool) (stop : Option Nat) (piece : Color)
    (iDir : Fin 4) : Finding Bool :=
  match stop with
  | none => return false
  | some posi => makesOpenThree isDoubleThree posi piece iDir

/-- `isOpenThree`, given the `isDoubleThree` that it calls. -/
def isOpenThree (isDoubleThree : Nat → Color → Finding Bool) (p : Nat) (piece : Color)
    (iDir : Fin 4) : Finding Bool :=
  named .isOpenThree do
    let none ← reads fun P => P.noPattern p piece
    if none then return false
    else
      withPiece p piece do
        let i ← reads fun P => P.stopBack p piece iDir
        let stop ← reads fun P => P.emptyStop p iDir (i < 5) (-i)
        let openthree ← threeAt isDoubleThree stop piece iDir
        if openthree then return true
        else
          let j ← reads fun P => P.stopFwd p piece iDir i
          let stop ← reads fun P => P.emptyStop p iDir (j < 6 - i) j
          threeAt isDoubleThree stop piece iDir

/-- The loop of `isDoubleThree`. -/
def countThrees (isDoubleThree : Nat → Color → Finding Bool) (p : Nat) (piece : Color) :
    List (Fin 4) → Nat → Finding Bool
  | [], _ => return false
  | iDir :: dirs, nThree => do
      let three ← isOpenThree isDoubleThree p piece iDir
      let nThree := nThree + (if three then 1 else 0)
      if nThree ≥ 2 then return true else countThrees isDoubleThree p piece dirs nThree

/-- `isDoubleThree`. -/
def isDoubleThree : Nat → Nat → Color → Finding Bool
  | 0, _, _ => stuck
  | fuel + 1, p, piece =>
      named .isDoubleThree do
        let taken ← reads fun P => P.board p != .empty
        if taken then return false
        else
          let five ← reads fun P => P.isFive p piece
          if five then return false
          else countThrees (isDoubleThree fuel) p piece (List.finRange 4) 0

/-- `isForbidden`. -/
def isForbidden (p : Nat) : Finding ForbiddenType :=
  named .isForbidden do
    let doubleThree ← isDoubleThree finderFuel p .black
    if doubleThree then return .doubleThree
    else
      let doubleFour ← isDoubleFour p .black
      if doubleFour then return .doubleFour
      else
        let overline ← reads fun P => P.isOverline p .black
        return if overline then .overline else .none

/-- `check_forbidden_move`. -/
def checkForbiddenMove (m : Nat) : Finding ForbiddenType :=
  if colorFromMove m ≠ Color.black.code then return .none
  else isForbidden (posFromMove m)

/-! ## Without the log -/

section Forget

variable {α : Type} (P : Position) (p m : Nat) (piece : Color) (iDir : Fin 4)

@[simp] theorem forget_named (f : Name) (body : Finding α) :
    forget (named f body) P = forget body P := by
  simp [named, between]

@[simp] theorem forget_withPiece (body : Finding α) :
    forget (withPiece p piece body) P =
      (forget body (P.setPiece p piece)).map fun r => (r.1, r.2.delPiece p) := by
  simp [withPiece, between, Option.map_eq_bind]

theorem forget_isFour : forget (isFour p piece iDir) P = some (P.isFour p piece iDir) := by
  rw [Position.isFour]
  simp only [isFour, fiveAt, forget_named, forget_bind, forget_reads, forget_ite, forget_pure,
    forget_withPiece, Option.bind_some]
  split
  · rfl
  · split
    · next h => simp [h]
    · next h => simp [h]

theorem forget_isOpenFour :
    forget (isOpenFour p piece iDir) P = some (P.isOpenFour p piece iDir) := by
  rw [Position.isOpenFour]
  simp only [isOpenFour, fiveAt, forget_named, forget_bind, forget_reads, forget_ite, forget_pure,
    forget_withPiece, Option.bind_some]
  split
  · rfl
  · split
    · simp only [one_ne_zero, if_false]
      split <;> simp_all
    · simp

theorem forget_fourValue : forget (fourValue p piece iDir) P = some (P.fourValue p piece iDir) := by
  simp only [fourValue, Position.fourValue, forget_bind, forget_isOpenFour, Option.bind_some,
    forget_ite, forget_pure, forget_isFour]
  split <;> rfl

theorem forget_countFours (dirs : List (Fin 4)) (n : Nat) :
    forget (countFours p piece dirs n) P = some (Position.countFours p piece dirs n P) := by
  induction dirs generalizing n P with
  | nil => rfl
  | cons iDir dirs ih =>
      simp only [countFours, Position.countFours, forget_bind, forget_fourValue,
        Option.bind_some, forget_ite, forget_pure, ih]
      split <;> rfl

theorem forget_isDoubleFour :
    forget (isDoubleFour p piece) P = some (P.isDoubleFour p piece) := by
  simp only [isDoubleFour, Position.isDoubleFour, forget_named, forget_bind, forget_reads,
    Option.bind_some, forget_ite, forget_pure, forget_countFours, bne_iff_ne]
  split
  · rfl
  · split <;> rfl

variable {find : Nat → Color → Finding Bool} {plain : Position.Finder}
  (hfind : ∀ P p piece, forget (find p piece) P = plain P p piece)
include hfind

theorem forget_threeAt (stop : Option Nat) :
    forget (threeAt find stop piece iDir) P = Position.threeAt plain P stop piece iDir := by
  cases stop with
  | none => rfl
  | some posi =>
      simp only [threeAt, Position.threeAt, makesOpenThree, Position.makesOpenThree, forget_bind,
        forget_isOpenFour, Option.bind_some, forget_ite, forget_pure, forget_isDoubleFour, hfind]
      split
      · rfl
      · split
        · rfl
        · rw [Option.map_eq_bind]
          rfl

theorem forget_isOpenThree :
    forget (isOpenThree find p piece iDir) P = Position.isOpenThree plain P p piece iDir := by
  simp only [isOpenThree, Position.isOpenThree, forget_named, forget_bind, forget_reads,
    Option.bind_some, forget_ite, forget_pure, forget_withPiece, forget_threeAt _ _ _ hfind]
  split
  · rfl
  · rw [Option.map_bind]
    refine Option.bind_congr fun r _ => ?_
    rw [Function.comp_apply]
    split
    · rfl
    · rw [Option.map_eq_bind]
      rfl

theorem forget_countThrees (dirs : List (Fin 4)) (n : Nat) :
    forget (countThrees find p piece dirs n) P =
      Position.countThrees plain p piece dirs n P := by
  induction dirs generalizing n P with
  | nil => rfl
  | cons iDir dirs ih =>
      simp only [countThrees, Position.countThrees, forget_bind, forget_ite, forget_pure, ih,
        forget_isOpenThree _ _ _ _ hfind]
      rfl

omit hfind

theorem forget_isDoubleThree (fuel : Nat) :
    forget (isDoubleThree fuel p piece) P = Position.isDoubleThree fuel P p piece := by
  induction fuel generalizing P p piece with
  | zero => rfl
  | succ fuel ih =>
      simp only [isDoubleThree, Position.isDoubleThree, forget_named, forget_bind, forget_reads,
        Option.bind_some, forget_ite, forget_pure, bne_iff_ne,
        forget_countThrees P p piece fun P p piece => ih P p piece]

theorem forget_isForbidden : forget (isForbidden p) P = P.isForbidden p := by
  simp only [isForbidden, Position.isForbidden, forget_named, forget_bind, forget_reads,
    Option.bind_some, forget_ite, forget_pure, forget_isDoubleThree, forget_isDoubleFour]
  refine Option.bind_congr fun r _ => ?_
  split
  · rfl
  · split <;> rfl

theorem forget_checkForbiddenMove :
    forget (checkForbiddenMove m) P = P.checkForbiddenMove m := by
  rw [checkForbiddenMove, Position.checkForbiddenMove, forget_ite, forget_isForbidden]
  rfl

end Forget

/-! ## The log is balanced -/

section Restoring

variable {α : Type} {P : Position} {p m : Nat} {piece : Color} {iDir : Fin 4}

theorem named_restores {f : Name} {body : Finding α} (hbody : Restores Closes body P) :
    Restores Closes (named f body) P :=
  Restores.between hbody rfl (Closes.ret f P)

/-- The functions that set a stone have made sure that its cell is empty. -/
theorem withPiece_restores {body : Finding α} (hempty : P.board p = .empty)
    (hbody : Restores Closes body (P.setPiece p piece)) :
    Restores Closes (withPiece p piece body) P := by
  refine Restores.between hbody (Position.delPiece_setPiece P p piece hempty) ?_
  rw [hempty, Position.setPiece_board, Function.update_self]
  exact Closes.delPiece p piece

theorem board_eq_empty_of_noPattern (h : ¬ P.noPattern p piece = true) :
    P.board p = .empty := by
  by_contra hne
  exact h (by simp [Position.noPattern, hne])

theorem fiveAt_restores (broke : Bool) (k : Int) :
    Restores Closes (fiveAt p piece iDir broke k) P :=
  restores_reads _

theorem isFour_restores : Restores Closes (isFour p piece iDir) P := by
  refine named_restores (Restores.reads_bind (Restores.ite (fun _ => restores_pure _) fun h => ?_))
  refine withPiece_restores (board_eq_empty_of_noPattern h) (Restores.reads_bind ?_)
  refine (fiveAt_restores _ _).bind fun four => ?_
  refine Restores.ite (fun _ => restores_pure _) fun _ => ?_
  exact Restores.reads_bind (fiveAt_restores _ _)

theorem isOpenFour_restores : Restores Closes (isOpenFour p piece iDir) P := by
  refine named_restores (Restores.reads_bind (Restores.ite (fun _ => restores_pure _) fun h => ?_))
  refine withPiece_restores (board_eq_empty_of_noPattern h) (Restores.reads_bind ?_)
  refine (fiveAt_restores _ _).bind fun five => ?_
  refine Restores.ite (fun _ => ?_) fun _ => restores_pure _
  exact Restores.reads_bind ((fiveAt_restores _ _).bind fun _ => restores_pure _)

theorem fourValue_restores : Restores Closes (fourValue p piece iDir) P := by
  refine isOpenFour_restores.bind fun openFour => ?_
  refine Restores.ite (fun _ => restores_pure _) fun _ => ?_
  exact isFour_restores.bind fun _ => restores_pure _

theorem countFours_restores (dirs : List (Fin 4)) (n : Nat) :
    Restores Closes (countFours p piece dirs n) P := by
  induction dirs generalizing n with
  | nil => exact restores_pure false
  | cons iDir dirs ih =>
      refine fourValue_restores.bind fun value => ?_
      exact Restores.ite (fun _ => restores_pure _) fun _ => ih _

theorem isDoubleFour_restores : Restores Closes (isDoubleFour p piece) P := by
  refine named_restores (Restores.reads_bind (Restores.ite (fun _ => restores_pure _) fun _ => ?_))
  refine Restores.reads_bind (Restores.ite (fun _ => restores_pure _) fun _ => ?_)
  exact countFours_restores _ _

variable {find : Nat → Color → Finding Bool}
  (hfind : ∀ P p piece, Restores Closes (find p piece) P)
include hfind

theorem threeAt_restores (stop : Option Nat) :
    Restores Closes (threeAt find stop piece iDir) P := by
  cases stop with
  | none => exact restores_pure false
  | some posi =>
      refine isOpenFour_restores.bind fun openFour => ?_
      refine Restores.ite (fun _ => restores_pure _) fun _ => ?_
      refine isDoubleFour_restores.bind fun doubleFour => ?_
      refine Restores.ite (fun _ => restores_pure _) fun _ => ?_
      exact (hfind _ _ _).bind fun _ => restores_pure _

theorem isOpenThree_restores : Restores Closes (isOpenThree find p piece iDir) P := by
  refine named_restores (Restores.reads_bind (Restores.ite (fun _ => restores_pure _) fun h => ?_))
  refine withPiece_restores (board_eq_empty_of_noPattern h) (Restores.reads_bind ?_)
  refine Restores.reads_bind ((threeAt_restores hfind _).bind fun openthree => ?_)
  refine Restores.ite (fun _ => restores_pure _) fun _ => ?_
  exact Restores.reads_bind (Restores.reads_bind (threeAt_restores hfind _))

theorem countThrees_restores (dirs : List (Fin 4)) (n : Nat) :
    Restores Closes (countThrees find p piece dirs n) P := by
  induction dirs generalizing n with
  | nil => exact restores_pure false
  | cons iDir dirs ih =>
      refine (isOpenThree_restores hfind).bind fun three => ?_
      exact Restores.ite (fun _ => restores_pure _) fun _ => ih _

omit hfind

/-- The levels of the recursion are nested, and each of them restores the position it was
given.  The induction is over the fuel, and a level that has none does not return. -/
theorem isDoubleThree_restores (fuel : Nat) (P : Position) (p : Nat) (piece : Color) :
    Restores Closes (isDoubleThree fuel p piece) P := by
  induction fuel generalizing P p piece with
  | zero => exact restores_stuck
  | succ fuel ih =>
      refine named_restores ?_
      refine Restores.reads_bind (Restores.ite (fun _ => restores_pure _) fun _ => ?_)
      refine Restores.reads_bind (Restores.ite (fun _ => restores_pure _) fun _ => ?_)
      exact countThrees_restores ih _ _

theorem isForbidden_restores : Restores Closes (isForbidden p) P := by
  refine named_restores ((isDoubleThree_restores _ P p _).bind fun doubleThree => ?_)
  refine Restores.ite (fun _ => restores_pure _) fun _ => ?_
  refine isDoubleFour_restores.bind fun doubleFour => ?_
  refine Restores.ite (fun _ => restores_pure _) fun _ => ?_
  exact Restores.reads_bind (restores_pure _)

theorem checkForbiddenMove_restores : Restores Closes (checkForbiddenMove m) P :=
  Restores.ite (fun _ => restores_pure _) fun _ => isForbidden_restores

end Restoring

theorem held_eq_empty_of_mem {l : List Event} (hl : Balanced Closes l) {p : Nat}
    {piece held : Color} (hmem : .setPiece p piece held ∈ l) : held = .empty := by
  obtain ⟨c, -, hc⟩ | ⟨o, -, ho⟩ := hl.matched hmem
  · cases hc
    rfl
  · cases ho

/-- **The finder leaves no trace.** On every board and for every empty cell
`check_forbidden_move` returns, and returns the position it was given.  On the way every
stone is set on an empty cell and is still there when it is deleted, and every function of
the recursion returns with the position of its call.  The assertions of `setPiece` and
`delPiece` would therefore hold, although a release build does not check them. -/
theorem checkForbiddenMove_leaves_no_trace {P : Position} (hshape : P.BoardShape) {m : Nat}
    (hlegal : P.isLegalMove m = true) :
    ∃ verdict l, P.checkForbiddenMove m = some (verdict, P) ∧
      outcome (checkForbiddenMove m) P = some ((verdict, P), l) ∧
      Balanced Closes l ∧
      ∀ p piece held, .setPiece p piece held ∈ l → held = .empty := by
  have hreturns := hshape.checkForbiddenMove_eq hlegal
  rw [← forget_checkForbiddenMove] at hreturns
  obtain ⟨l, hl⟩ := exists_outcome hreturns
  obtain ⟨-, hbalanced⟩ := checkForbiddenMove_restores _ _ _ hl
  refine ⟨_, l, hshape.checkForbiddenMove_eq hlegal, hl, hbalanced, ?_⟩
  intro p piece held hmem
  exact held_eq_empty_of_mem hbalanced hmem

/-- The event is a call of a function. -/
def Event.isCall (f : Name) : Event → Bool
  | .call f' _ => f' = f
  | _ => false

/-- Where two threes cross, the finder asks for a double three at the ends of both of them,
and so calls itself on a board with one more stone. -/
theorem checkForbiddenMove_leaves_no_trace_cross :
    ∃ l, Position.threeCross.checkForbiddenMove (buildMove 7 7 .black) =
        some (.doubleThree, Position.threeCross) ∧
      outcome (checkForbiddenMove (buildMove 7 7 .black)) Position.threeCross =
        some ((.doubleThree, Position.threeCross), l) ∧
      l.countP (Event.isCall .isDoubleThree) = 3 ∧ Balanced Closes l ∧
      ∀ p piece held, .setPiece p piece held ∈ l → held = .empty := by
  obtain ⟨verdict, l, hcheck, hl, hbalanced, hheld⟩ :=
    checkForbiddenMove_leaves_no_trace Position.threeCross_shape (m := buildMove 7 7 .black)
      (by decide)
  have hvalue : (outcome (checkForbiddenMove (buildMove 7 7 .black)) Position.threeCross).map
      (fun r => (r.1.1, r.2.countP (Event.isCall .isDoubleThree))) = some (.doubleThree, 3) := by
    decide +kernel
  rw [hl, Option.map_some, Option.some.injEq, Prod.mk.injEq] at hvalue
  obtain ⟨rfl, hcalls⟩ := hvalue
  exact ⟨l, hcheck, hl, hcalls, hbalanced, hheld⟩

end FinderTrace

end GomokuCli
