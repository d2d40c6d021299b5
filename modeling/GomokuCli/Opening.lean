import GomokuCli.Library.Decimal
import GomokuCli.Record

/-!
# Openings

An opening is a line of text in one of two notations.  Both parsers rewrite the
line into a stream of numbers, character by character, and then read the stream
with `>>` until it fails; each pair of numbers that was read is a cell.  A
failure of the stream ends the loop like the end of the line does.

The two parsers differ in the characters they accept, in which numbers they keep
and in how a pair is turned into a cell, so they are instances of one
definition.  `openingCells` is what a line means to them, without a board.
-/

namespace GomokuCli

open Decimal

/-! ## The parsers -/

/-- First stage: every character is replaced by some characters of the stream,
or the line is refused ("unknown coordinate"). -/
def rewriteLine (rewrite : Char → Option (List Char)) : List Char → Option (List Char)
  | [] => some []
  | ch :: s => do
      let out ← rewrite ch
      let rest ← rewriteLine rewrite s
      return out ++ rest

/-- The characters of the offset notation. -/
def rewriteOffset (ch : Char) : Option (List Char) :=
  if ch.isDigit || ch == '-' then some [ch]
  else if ch == ',' || ch == ' ' then some [' ']
  else none

/-- The characters of the pos notation: a letter becomes its number, set off by blanks.  A
digit stays, so that digits that follow a number without a letter run on with it. -/
def rewritePos (ch : Char) : Option (List Char) :=
  if ch.isLower then some (' ' :: showInt ((ch.toNat : Int) - 'a'.toNat) ++ [' '])
  else if ch.isDigit then some [ch]
  else none

/-- The numbers the offset parser looks at; `-9999` marks "nothing read".  Any other number
out of range is passed over without an error. -/
def keepOffset (ofst : Int) : Bool :=
  decide (ofst ≠ -9999) && (decide (ofst ≥ -16) && decide (ofst ≤ 15))

/-- The numbers the pos parser looks at. -/
def keepPos (coord : Int) : Bool := decide (coord ≠ -9999)

namespace Position

/-- Second stage: the loop over the numbers of the stream.  `buff` is `buff[0]`
while `cnt` is one, and `openingPos` what has been pushed so far.  The result is
`none` when a cell is not on the board. -/
def readPairs (P : Position) (keep : Int → Bool) (dx dy : Int) :
    List Int → Option Int → List Nat → Option (List Nat)
  | [], _, openingPos => some openingPos
  | n :: stream, buff, openingPos =>
      if keep n then
        match buff with
        | none => readPairs P keep dx dy stream (some n) openingPos
        | some first =>
            let currx := first + dx
            let curry := n + dy
            if !P.isInBoardXY currx curry then none
            else readPairs P keep dx dy stream none (openingPos ++ [pos currx curry])
      else readPairs P keep dx dy stream buff openingPos

/-- `parse_opening_offset_linestr`. -/
def parseOpeningOffsetLinestr (P : Position) (linestr : List Char) : Option (List Nat) :=
  let hboardSize : Int := (P.boardSize / 2 : Nat)
  (rewriteLine rewriteOffset linestr).bind fun ss =>
    P.readPairs keepOffset hboardSize hboardSize (readInts ss) none []

/-- `parse_opening_pos_linestr`. -/
def parseOpeningPosLinestr (P : Position) (linestr : List Char) : Option (List Nat) :=
  (rewriteLine rewritePos linestr).bind fun ss =>
    P.readPairs keepPos 0 (-1) (readInts ss) none []

/-- The loop of `apply_opening` that makes the moves, each packed with the colour of the
player to move.  It does not ask whether a cell is empty. -/
def makeOpeningMoves (P : Position) (openingPos : List Nat) : Position :=
  openingPos.foldl (fun Q p => Q.move (buildMovePos p Q.playerToMove.code)) P

/-- `apply_opening`: the whole line is parsed before the board is touched.  A line that is
refused therefore leaves the position as it was. -/
def applyOpening (P : Position) (openingStr : List Char) (type : OpeningType) :
    Bool × Position :=
  let parsed := match type with
    | .offset => P.parseOpeningOffsetLinestr openingStr
    | .pos => P.parseOpeningPosLinestr openingStr
  match parsed with
  | none => (false, P)
  | some openingPos => (true, (P.initBoard P.boardSize).makeOpeningMoves openingPos)

end Position

/-! ## What a line means to the parsers -/

/-- The numbers of a list, two by two; a last one without a partner is left
out. -/
def pairUp : List Int → List (Int × Int)
  | x :: y :: rest => (x, y) :: pairUp rest
  | _ => []

/-- The cell that a written pair stands for on a board of the given size. -/
def writtenCell (size : Nat) : OpeningType → Int × Int → Int × Int
  | .offset, v => (v.1 + (size / 2 : Nat), v.2 + (size / 2 : Nat))
  | .pos, v => (v.1, v.2 - 1)

/-- The pairs that a parser finds on a line, or `none` when it meets a character that it
does not know.  Numbers that the parser does not keep have dropped out, and the pairs are
formed from what is left. -/
def readLine : OpeningType → List Char → Option (List (Int × Int))
  | .offset, s => (rewriteLine rewriteOffset s).map fun ss =>
      pairUp ((readInts ss).filter keepOffset)
  | .pos, s => (rewriteLine rewritePos s).map fun ss => pairUp ((readInts ss).filter keepPos)

/-- The cells that a line names, on the board or off it.  It is the meaning of a line: what
`apply_opening` does depends on nothing else of it (`applyOpening_eq`). -/
def openingCells (size : Nat) (type : OpeningType) (s : List Char) :
    Option (List (Int × Int)) :=
  (readLine type s).map (List.map (writtenCell size type))

/-- The characters of a notation.  A parser refuses a line with any other one. -/
def Known : OpeningType → Char → Prop
  | .offset, c => c.isDigit = true ∨ c = '-' ∨ c = ',' ∨ c = ' '
  | .pos, c => c.isLower = true ∨ c.isDigit = true

theorem rewriteLine_eq_none_iff {rewrite : Char → Option (List Char)} {s : List Char} :
    rewriteLine rewrite s = none ↔ ∃ c ∈ s, rewrite c = none := by
  induction s with
  | nil => simp [rewriteLine]
  | cons c s ih =>
      rw [rewriteLine, List.exists_mem_cons_iff, ← ih]
      cases rewrite c with
      | none => simp
      | some out => cases rewriteLine rewrite s <;> simp

theorem rewriteOffset_eq_none_iff {c : Char} : rewriteOffset c = none ↔ ¬ Known .offset c := by
  simp only [rewriteOffset, Known, Bool.or_eq_true, beq_iff_eq]
  by_cases hnumber : c.isDigit = true ∨ c = '-'
  · rw [if_pos hnumber]
    exact iff_of_false (fun h => by cases h) (not_not.mpr (hnumber.imp_right Or.inl))
  · rw [if_neg hnumber, ite_eq_right_iff]
    simp only [reduceCtorEq, imp_false]
    push Not at hnumber ⊢
    exact ⟨fun h => ⟨hnumber.1, hnumber.2, h⟩, fun h => h.2.2⟩

theorem rewritePos_eq_none_iff {c : Char} : rewritePos c = none ↔ ¬ Known .pos c := by
  rw [rewritePos, Known]
  by_cases hlower : c.isLower = true
  · simp [hlower]
  · simp [hlower]

/-- A line is refused for its characters iff one of them is not of the notation. -/
theorem readLine_eq_none_iff {type : OpeningType} {s : List Char} :
    readLine type s = none ↔ ∃ c ∈ s, ¬ Known type c := by
  cases type with
  | offset =>
      rw [readLine, Option.map_eq_none_iff, rewriteLine_eq_none_iff]
      simp only [rewriteOffset_eq_none_iff]
  | pos =>
      rw [readLine, Option.map_eq_none_iff, rewriteLine_eq_none_iff]
      simp only [rewritePos_eq_none_iff]

theorem openingCells_eq_none_iff (size : Nat) {type : OpeningType} {s : List Char} :
    openingCells size type s = none ↔ ∃ c ∈ s, ¬ Known type c := by
  rw [openingCells, Option.map_eq_none_iff, readLine_eq_none_iff]

namespace Position

/-- The loop returns the pairs it meets, unless one of them is off the board.  The induction
is over the stream; the number that waits in the buffer stands in front of what is left of
it. -/
theorem readPairs_eq (P : Position) (keep : Int → Bool) (dx dy : Int) {stream : List Int}
    {buff : Option Int} {openingPos : List Nat} {cells : List (Int × Int)}
    (hcells : cells = (pairUp (buff.toList ++ stream.filter keep)).map
      fun v => (v.1 + dx, v.2 + dy)) :
    P.readPairs keep dx dy stream buff openingPos =
      if ∀ c ∈ cells, InSquare P.boardSize c then some (openingPos ++ cells.map posOf)
      else none := by
  induction stream generalizing buff openingPos cells with
  | nil =>
      have hnil : cells = [] := by
        rw [hcells]
        cases buff <;> rfl
      simp [readPairs, hnil]
  | cons n stream ih =>
      by_cases hkeep : keep n = true
      · rw [List.filter_cons_of_pos hkeep] at hcells
        cases buff with
        | none =>
            -- the first number of a pair waits in the buffer
            rw [readPairs, if_pos hkeep]
            exact ih hcells
        | some first =>
            simp only [Option.toList_some, List.singleton_append, pairUp, List.map_cons]
              at hcells
            rw [readPairs, if_pos hkeep]
            by_cases hin : InSquare P.boardSize (first + dx, n + dy)
            · -- the pair is pushed; the rest of the stream decides
              simp only [(P.isInBoardXY_iff _ _).mpr hin, ih rfl, Bool.not_true,
                Bool.false_eq_true, if_false]
              by_cases hrest : ∀ c ∈ (pairUp (stream.filter keep)).map
                  (fun v => (v.1 + dx, v.2 + dy)), InSquare P.boardSize c
              · have hall : ∀ c ∈ cells, InSquare P.boardSize c := by
                  rw [hcells, List.forall_mem_cons]
                  exact ⟨hin, hrest⟩
                rw [if_pos hall, hcells]
                refine (if_pos hrest).trans ?_
                simp [posOf]
              · have hall : ¬ ∀ c ∈ cells, InSquare P.boardSize c := by
                  rw [hcells, List.forall_mem_cons]
                  exact fun h => hrest h.2
                rw [if_neg hall]
                exact if_neg hrest
            · have hboard : P.isInBoardXY (first + dx) (n + dy) = false := by
                rw [Bool.eq_false_iff]
                exact mt (P.isInBoardXY_iff _ _).mp hin
              simp [hboard, hcells, hin]
      · rw [List.filter_cons_of_neg hkeep] at hcells
        rw [readPairs.eq_def]
        simp only [hkeep, Bool.false_eq_true, if_false]
        exact ih hcells

theorem parseOpeningOffsetLinestr_eq (P : Position) (s : List Char) :
    P.parseOpeningOffsetLinestr s = (openingCells P.boardSize .offset s).bind fun cells =>
      if ∀ c ∈ cells, InSquare P.boardSize c then some (cells.map posOf) else none := by
  rw [parseOpeningOffsetLinestr, openingCells, readLine]
  cases rewriteLine rewriteOffset s with
  | none => rfl
  | some ss => exact P.readPairs_eq keepOffset _ _ rfl

theorem parseOpeningPosLinestr_eq (P : Position) (s : List Char) :
    P.parseOpeningPosLinestr s = (openingCells P.boardSize .pos s).bind fun cells =>
      if ∀ c ∈ cells, InSquare P.boardSize c then some (cells.map posOf) else none := by
  rw [parseOpeningPosLinestr, openingCells, readLine]
  cases rewriteLine rewritePos s with
  | none => rfl
  | some ss =>
      refine P.readPairs_eq keepPos 0 (-1) (List.map_congr_left fun v _ => ?_)
      rw [writtenCell, Int.add_zero, Int.sub_eq_add_neg]

/-- The position after the cells of an opening. -/
def playCells (P : Position) (cells : List (Int × Int)) : Position :=
  P.makeOpeningMoves (cells.map posOf)

/-- **What `apply_opening` does with a line**: it refuses it and changes nothing, or it
plays the cells that the line names on an empty board.  The two notations differ only in the
cells. -/
theorem applyOpening_eq (P : Position) (s : List Char) (type : OpeningType) :
    P.applyOpening s type =
      match openingCells P.boardSize type s with
      | none => (false, P)
      | some cells =>
          if ∀ c ∈ cells, InSquare P.boardSize c then
            (true, (P.initBoard P.boardSize).playCells cells)
          else (false, P) := by
  have hparsed : (match type with
      | .offset => P.parseOpeningOffsetLinestr s
      | .pos => P.parseOpeningPosLinestr s) =
      (openingCells P.boardSize type s).bind fun cells =>
        if ∀ c ∈ cells, InSquare P.boardSize c then some (cells.map posOf) else none := by
    cases type with
    | offset => exact P.parseOpeningOffsetLinestr_eq s
    | pos => exact P.parseOpeningPosLinestr_eq s
  unfold applyOpening
  simp only [hparsed]
  cases openingCells P.boardSize type s with
  | none => rfl
  | some cells =>
      simp only [Option.bind_some]
      by_cases hin : ∀ c ∈ cells, InSquare P.boardSize c
      · rw [if_pos hin, if_pos hin]
        rfl
      · rw [if_neg hin, if_neg hin]

/-- An opening is played cell by cell, each stone in the colour of its turn.  This holds for
any cells of the square, also if one of them is named twice. -/
theorem Follows.playCells {P : Position} {size : Nat} {played cells : List (Int × Int)}
    (h : P.Follows size played) (hcolored : P.Coloured)
    (hin : ∀ c ∈ cells, InSquare size c) :
    (P.playCells cells).Follows size (played ++ cells) ∧ (P.playCells cells).Coloured := by
  induction cells generalizing P played with
  | nil =>
      rw [List.append_nil]
      exact ⟨h, hcolored⟩
  | cons c cells ih =>
      have hc : InSquare size c := hin c List.mem_cons_self
      have hlt : posOf c < 1024 := posOf_lt (hc.range h.size_le)
      have hcell : cellOf (posFromMove (buildMovePos (posOf c) P.playerToMove.code)) = c := by
        rw [posFromMove_buildMovePos, Nat.mod_eq_of_lt hlt, hc.cellOf_posOf h.size_le]
      have hcolor : colorFromMove (buildMovePos (posOf c) P.playerToMove.code) =
          (turnAt P.moveCount).code := by
        have := P.playerToMove.code_lt
        rw [colorFromMove_buildMovePos hlt (by omega), h.turn]
      have hmove := h.move (m := buildMovePos (posOf c) P.playerToMove.code) (by rwa [hcell])
      rw [hcell] at hmove
      have hrest := ih hmove (hcolored.move hcolor)
        fun e he => hin e (List.mem_cons_of_mem c he)
      rwa [List.append_assoc] at hrest

/-- The position after an accepted line. -/
theorem playCells_initBoard (P : Position) {size : Nat} (hsize : size ≤ 22)
    {cells : List (Int × Int)} (hin : ∀ c ∈ cells, InSquare size c) :
    ((P.initBoard size).playCells cells).Follows size cells ∧
      ((P.initBoard size).playCells cells).Coloured := by
  have hcolored : (P.initBoard size).Coloured := fun i hi => absurd hi (Nat.not_lt_zero i)
  have h := (initBoard_follows P hsize).playCells hcolored hin
  rwa [List.nil_append] at h

/-! ## What an accepted opening establishes -/

/-- The entries of the array that hold a stone. -/
def stoneCells (P : Position) : Finset Nat :=
  (Finset.range maxBoardSizeSqr).filter fun p => (P.board p).IsStone

/-- A position whose history and board tell the same story: as many stones as moves, on
different cells of the board, each in the colour of its entry.  The rest of the program
takes this for granted when it plays on from an opening. -/
structure Consistent (P : Position) : Prop where
  inSquare : ∀ c ∈ P.historyCells, InSquare P.boardSize c
  nodup : P.historyCells.Nodup
  count : P.moveCount = P.stoneCells.card
  count_le : P.moveCount ≤ P.boardSize * P.boardSize
  colours : ∀ i < P.moveCount,
    (P.board (posFromMove (P.historyMoves i))).code = colorFromMove (P.historyMoves i)

/-- The stones of a record are as many as its cells. -/
theorem Represents.card_stoneCells {P : Position} {size : Nat} {r : Record size}
    (h : P.Represents r) : P.stoneCells.card = r.cells.length := by
  have hsize := h.follows.size_le
  have himage : P.stoneCells = r.cells.toFinset.image posOf := by
    ext p
    simp only [stoneCells, Finset.mem_filter, Finset.mem_range, Finset.mem_image,
      List.mem_toFinset]
    rw [h.follows.board]
    constructor
    · rintro ⟨hlt, hstone⟩
      refine ⟨cellOf p, ?_, posOf_cellOf hlt⟩
      by_contra hnot
      rw [stones_of_notMem hnot, emptyGrid] at hstone
      split at hstone
      · exact hstone.ne_empty rfl
      · exact hstone.ne_wall rfl
    · rintro ⟨c, hc, rfl⟩
      have hin := r.inSquare c hc
      rw [hin.cellOf_posOf hsize]
      exact ⟨posOf_lt (hin.range hsize), stones_isStone_of_mem hc⟩
  rw [himage, Finset.card_image_of_injOn, List.toFinset_card_of_nodup r.nodup]
  intro c hc c' hc' heq
  exact (r.inSquare c (List.mem_toFinset.mp hc)).posOf_inj hsize
    (r.inSquare c' (List.mem_toFinset.mp hc')) heq

/-- The position of a record is consistent.  Each stone is at a cell of its own, so that
none has been replaced by a later one. -/
theorem Represents.consistent {P : Position} {size : Nat} {r : Record size}
    (h : P.Represents r) : P.Consistent := by
  have hcount := h.follows.moveCount
  refine ⟨?_, ?_, ?_, ?_, fun i hi => ?_⟩
  · rw [h.follows.moves, h.follows.boardSize]
    exact r.inSquare
  · rw [h.follows.moves]
    exact r.nodup
  · rw [h.card_stoneCells, hcount]
  · rw [hcount, h.follows.boardSize]
    exact r.length_le
  · have hi' : i < r.cells.length := hcount ▸ hi
    rw [h.follows.board, h.follows.history hi', stones_getElem r.nodup hi', h.coloured i hi]

/-- `apply_opening` is all-or-nothing, and what it accepts is playable: a refused line
leaves the position as it was. -/
structure AllOrNothing (P : Position) (s : List Char) (type : OpeningType) : Prop where
  refused : (P.applyOpening s type).1 = false → (P.applyOpening s type).2 = P
  accepted : (P.applyOpening s type).1 = true → (P.applyOpening s type).2.Consistent

/-- A line is accepted iff its characters are known and the cells that it names are on the
board. -/
theorem applyOpening_fst_iff (P : Position) (s : List Char) (type : OpeningType) :
    (P.applyOpening s type).1 = true ↔ ∃ cells, openingCells P.boardSize type s = some cells ∧
      ∀ c ∈ cells, InSquare P.boardSize c := by
  rw [applyOpening_eq]
  cases openingCells P.boardSize type s with
  | none => simp
  | some cells =>
      by_cases hin : ∀ c ∈ cells, InSquare P.boardSize c
      · simp only [if_pos hin, true_iff]
        exact ⟨cells, rfl, hin⟩
      · simp only [if_neg hin, Bool.false_eq_true, false_iff]
        rintro ⟨cells', hsome, hin'⟩
        exact hin (Option.some.inj hsome ▸ hin')

theorem applyOpening_snd {P : Position} {s : List Char} {type : OpeningType}
    {cells : List (Int × Int)} (hcells : openingCells P.boardSize type s = some cells)
    (hin : ∀ c ∈ cells, InSquare P.boardSize c) :
    (P.applyOpening s type).2 = (P.initBoard P.boardSize).playCells cells := by
  rw [applyOpening_eq, hcells]
  exact congrArg Prod.snd (if_pos hin)

/-- **What is accepted is playable iff no cell is named twice.**  A line is refused for a
character that is not of the notation, and for a cell off the board.  Nothing else is looked
at: neither the two parsers nor the loop behind them ask for the stones already played, so
that a line that names a cell twice is accepted, and no other line breaks the promise. -/
theorem applyOpening_allOrNothing_iff {P : Position} (hsize : P.boardSize ≤ 22)
    (s : List Char) (type : OpeningType) :
    P.AllOrNothing s type ↔
      (∃ c ∈ s, ¬ Known type c) ∨
      ∃ cells, openingCells P.boardSize type s = some cells ∧
        ((∃ c ∈ cells, ¬ InSquare P.boardSize c) ∨ cells.Nodup) := by
  rw [← openingCells_eq_none_iff P.boardSize]
  constructor
  · intro h
    cases hcells : openingCells P.boardSize type s with
    | none => exact Or.inl rfl
    | some cells =>
        refine Or.inr ⟨cells, rfl, ?_⟩
        by_cases hin : ∀ c ∈ cells, InSquare P.boardSize c
        case neg =>
          push Not at hin
          exact Or.inl hin
        have hconsistent := h.accepted ((applyOpening_fst_iff P s type).mpr ⟨cells, hcells, hin⟩)
        obtain ⟨hfollows, -⟩ := playCells_initBoard P hsize hin
        have hnodup := hconsistent.nodup
        rw [applyOpening_snd hcells hin, hfollows.moves] at hnodup
        exact Or.inr hnodup
  · intro h
    refine ⟨fun hrefused => ?_, fun haccepted => ?_⟩
    · rw [applyOpening_eq] at hrefused ⊢
      cases hcells : openingCells P.boardSize type s with
      | none => rfl
      | some cells =>
          rw [hcells] at hrefused
          by_cases hin : ∀ c ∈ cells, InSquare P.boardSize c
          · simp only [if_pos hin, Bool.true_eq_false] at hrefused
          · exact congrArg Prod.snd (if_neg hin)
    · obtain ⟨cells, hcells, hin⟩ := (applyOpening_fst_iff P s type).mp haccepted
      have hnodup : cells.Nodup := by
        obtain hunknown | ⟨cells', hcells', hrest⟩ := h
        · rw [hcells] at hunknown
          cases hunknown
        · rw [hcells, Option.some.injEq] at hcells'
          subst hcells'
          exact hrest.resolve_left fun ⟨c, hc, hout⟩ => hout (hin c hc)
      obtain ⟨hfollows, hcolored⟩ := playCells_initBoard P hsize hin
      rw [applyOpening_snd hcells hin]
      let r : Record P.boardSize := ⟨cells, hin, hnodup⟩
      exact Represents.consistent (r := r) ⟨hfollows, hcolored⟩

/-- Two moves at different cells. -/
theorem applyOpening_allOrNothing_two :
    (Position.new 15).AllOrNothing ['0', ',', '0', ',', ' ', '1', ',', '1'] .offset := by
  have hcells : openingCells (Position.new 15).boardSize .offset
      ['0', ',', '0', ',', ' ', '1', ',', '1'] = some [(7, 7), (8, 8)] := by decide
  exact (applyOpening_allOrNothing_iff (by decide) _ _).mpr
    (Or.inr ⟨_, hcells, Or.inr (by decide)⟩)

/-- The line `0,0, 0,0` is accepted, with one stone on the board and two moves in
the history. -/
theorem applyOpening_accepts_duplicate :
    ((Position.new 15).applyOpening ['0', ',', '0', ',', ' ', '0', ',', '0'] .offset).1 = true ∧
      ¬ (Position.new 15).AllOrNothing ['0', ',', '0', ',', ' ', '0', ',', '0'] .offset := by
  have haccepted : ((Position.new 15).applyOpening
      ['0', ',', '0', ',', ' ', '0', ',', '0'] .offset).1 = true := by decide
  refine ⟨haccepted, fun h => ?_⟩
  exact absurd (h.accepted haccepted).nodup (by decide)

end Position

/-! ## The notations, as they are meant -/

/-- The two characters that separate numbers in the offset notation. -/
def IsSeparator (c : Char) : Prop := c = ',' ∨ c = ' '

/-- The line is a sequence of integers, separated by commas and blanks.  A number is not
followed by the next one without a separator, and the line has no other characters. -/
inductive OffsetNumbers : List Char → List Int → Prop
  | blank {s : List Char} (h : ∀ c ∈ s, IsSeparator c) : OffsetNumbers s []
  | number {seps token rest : List Char} {v : Int} {vs : List Int}
      (hseps : ∀ c ∈ seps, IsSeparator c) (htoken : Numeral token v)
      (hrest : ∀ c t, rest = c :: t → IsSeparator c) (tail : OffsetNumbers rest vs) :
      OffsetNumbers (seps ++ token ++ rest) (v :: vs)

/-- The line is a sequence of groups, each a letter followed by a number. -/
inductive PosGroups : List Char → List (Int × Int) → Prop
  | nil : PosGroups [] []
  | group {letter : Char} {ds rest : List Char} {vs : List (Int × Int)}
      (hletter : letter.isLower = true) (hne : ds ≠ []) (hdigits : ∀ c ∈ ds, c.isDigit = true)
      (tail : PosGroups rest vs) :
      PosGroups (letter :: (ds ++ rest))
        (((letter.toNat : Int) - 'a'.toNat, digitsValue ds) :: vs)

/-- The line is a complete sequence of written pairs.  It says what a line of the notation
is without a word about how it is read. -/
def WrittenAs : OpeningType → List Char → List (Int × Int) → Prop
  | .offset, s, vs => OffsetNumbers s (vs.flatMap fun v => [v.1, v.2])
  | .pos, s, vs => PosGroups s vs

/-- The parsers can hold the pair: an offset is between `-16` and `15`, the number of a
group fits an `int`.  Every pair of a cell of the board is readable
(`readable_of_inSquare`), so that this is about lines that are refused. -/
def Readable : OpeningType → Int × Int → Prop
  | .offset, v => (-16 ≤ v.1 ∧ v.1 ≤ 15) ∧ (-16 ≤ v.2 ∧ v.2 ≤ 15)
  | .pos, v => FitsInt v.2

theorem pairUp_flatMap (vs : List (Int × Int)) :
    pairUp (vs.flatMap fun v => [v.1, v.2]) = vs := by
  induction vs with
  | nil => rfl
  | cons v vs ih => simpa [pairUp] using ih

theorem rewriteLine_of_forall {rewrite : Char → Option (List Char)} {out : Char → List Char}
    {s : List Char} (h : ∀ c ∈ s, rewrite c = some (out c)) :
    rewriteLine rewrite s = some (s.flatMap out) := by
  induction s with
  | nil => rfl
  | cons c s ih =>
      have htail := ih fun e he => h e (List.mem_cons_of_mem c he)
      simp [rewriteLine, h c List.mem_cons_self, htail]

/-! ### The offset notation -/

/-- A character of the stream of the offset parser. -/
def offsetOut (c : Char) : List Char := if c.isDigit || c == '-' then [c] else [' ']

theorem offsetOut_separator {c : Char} (h : IsSeparator c) :
    rewriteOffset c = some (offsetOut c) ∧ offsetOut c = [' '] := by
  rcases h with rfl | rfl <;> decide

theorem offsetOut_numeral {token : List Char} {v : Int} (h : Numeral token v) :
    (∀ c ∈ token, rewriteOffset c = some (offsetOut c)) ∧ token.flatMap offsetOut = token := by
  have hkept : ∀ c, (c.isDigit || c == '-') = true →
      rewriteOffset c = some (offsetOut c) ∧ offsetOut c = [c] := by
    intro c hc
    rw [rewriteOffset, offsetOut, if_pos hc, if_pos hc]
    exact ⟨rfl, rfl⟩
  have hall : ∀ c ∈ token, (c.isDigit || c == '-') = true := by
    intro c hc
    cases h with
    | nonneg hne hdigits => simp [hdigits c hc]
    | neg hne hdigits =>
        rcases List.mem_cons.mp hc with rfl | hmem
        · rfl
        · simp [hdigits c hmem]
  refine ⟨fun c hc => (hkept c (hall c hc)).1, ?_⟩
  rw [List.flatMap_congr fun c hc => (hkept c (hall c hc)).2]
  simp

/-- The parser reads exactly the numbers of a well-formed line.  The induction is over the
line: a number is read up to the separator behind it, and the rest of the stream as if it
stood alone. -/
theorem OffsetNumbers.readInts {s : List Char} {ns : List Int} (h : OffsetNumbers s ns)
    (hfits : ∀ n ∈ ns, FitsInt n) :
    (∀ c ∈ s, rewriteOffset c = some (offsetOut c)) ∧
      Decimal.readInts (s.flatMap offsetOut) = ns := by
  have hblank : ∀ seps : List Char, (∀ c ∈ seps, IsSeparator c) →
      ∀ c ∈ seps.flatMap offsetOut, isSpace c = true := by
    intro seps hseps c hc
    obtain ⟨e, he, hce⟩ := List.mem_flatMap.mp hc
    rw [(offsetOut_separator (hseps e he)).2, List.mem_singleton] at hce
    rw [hce]
    rfl
  induction h with
  | blank hseps =>
      refine ⟨fun c hc => (offsetOut_separator (hseps c hc)).1, ?_⟩
      exact readInts_of_none (readInt_blanks (hblank _ hseps))
  | @number seps token rest v vs hseps htoken hrest tail ih =>
      obtain ⟨hgood, hread⟩ := ih fun n hn => hfits n (List.mem_cons_of_mem v hn)
      obtain ⟨htokenGood, htokenOut⟩ := offsetOut_numeral htoken
      constructor
      · intro c hc
        rcases List.mem_append.mp hc with hc | hc
        · rcases List.mem_append.mp hc with hc | hc
          · exact (offsetOut_separator (hseps c hc)).1
          · exact htokenGood c hc
        · exact hgood c hc
      · have hstop : ∀ c t, rest.flatMap offsetOut = c :: t → c.isDigit = false := by
          intro c t heq
          cases rest with
          | nil => cases heq
          | cons e rest =>
              rw [List.flatMap_cons, (offsetOut_separator (hrest e rest rfl)).2] at heq
              obtain ⟨rfl, -⟩ := List.cons.inj heq
              rfl
        have hfirst := readInt_numeral (hblank seps hseps) htoken
          (hfits v List.mem_cons_self) hstop
        rw [List.flatMap_append, List.flatMap_append, htokenOut, readInts_of_some hfirst, hread]

/-! ### The pos notation -/

/-- What the pos parser writes to its stream for a character. -/
def posOut (c : Char) : List Char :=
  if c.isLower then ' ' :: showInt ((c.toNat : Int) - 'a'.toNat) ++ [' '] else [c]

theorem letter_bounds {c : Char} (h : c.isLower = true) :
    0 ≤ (c.toNat : Int) - 'a'.toNat ∧ (c.toNat : Int) - 'a'.toNat ≤ 25 := by
  unfold Char.isLower at h
  simp only [Bool.and_eq_true, decide_eq_true_eq, ge_iff_le, UInt32.le_iff_toNat_le] at h
  have ha : ('a' : Char).val.toNat = 97 := rfl
  have hz : ('z' : Char).val.toNat = 122 := rfl
  have hc : c.toNat = c.val.toNat := rfl
  have ha' : ('a' : Char).toNat = 97 := rfl
  omega

theorem not_isLower_of_isDigit {c : Char} (h : c.isDigit = true) : c.isLower = false := by
  simp only [Char.isDigit, Bool.and_eq_true, decide_eq_true_eq, ge_iff_le,
    UInt32.le_iff_toNat_le] at h
  have hnine : ('9' : Char).val.toNat = 57 := rfl
  have ha : ('a' : Char).val.toNat = 97 := rfl
  unfold Char.isLower
  simp only [Bool.and_eq_false_iff, decide_eq_false_iff_not, ge_iff_le,
    UInt32.le_iff_toNat_le]
  omega

/-- The parser reads exactly the groups of a well-formed line.  The blanks that set off a
letter keep its number apart from the digits before and behind it. -/
theorem PosGroups.readInts {s : List Char} {vs : List (Int × Int)} (h : PosGroups s vs)
    (hfits : ∀ v ∈ vs, FitsInt v.2) :
    (∀ c ∈ s, rewritePos c = some (posOut c)) ∧
      Decimal.readInts (s.flatMap posOut) = vs.flatMap (fun v => [v.1, v.2]) ∧
      ∀ v ∈ vs, 0 ≤ v.1 ∧ 0 ≤ v.2 := by
  induction h with
  | nil => exact ⟨by simp, rfl, by simp⟩
  | @group letter ds rest vs hletter hne hdigits tail ih =>
      obtain ⟨hgood, hread, hnonneg⟩ := ih fun v hv => hfits v (List.mem_cons_of_mem _ hv)
      obtain ⟨hlow, hhigh⟩ := letter_bounds hletter
      have hdigitOut : ∀ c ∈ ds, rewritePos c = some (posOut c) ∧ posOut c = [c] := by
        intro c hc
        have hlower := not_isLower_of_isDigit (hdigits c hc)
        simp [rewritePos, posOut, hlower, hdigits c hc]
      refine ⟨?_, ?_, ?_⟩
      · intro c hc
        rcases List.mem_cons.mp hc with rfl | hc
        · simp [rewritePos, posOut, hletter]
        · rcases List.mem_append.mp hc with hc | hc
          · exact (hdigitOut c hc).1
          · exact hgood c hc
      · have hdsOut : ds.flatMap posOut = ds := by
          rw [List.flatMap_congr fun c hc => (hdigitOut c hc).2]
          simp
        have hletterOut : posOut letter =
            [' '] ++ showInt ((letter.toNat : Int) - 'a'.toNat) ++ [' '] := by
          simp [posOut, hletter]
        have hstop : ∀ c t, rest.flatMap posOut = c :: t → c.isDigit = false := by
          intro c t heq
          cases tail with
          | nil => cases heq
          | group hletter' _ _ _ =>
              simp only [List.flatMap_cons, posOut, hletter', if_true, List.cons_append] at heq
              obtain ⟨rfl, -⟩ := List.cons.inj heq
              rfl
        have hspace : ∀ c ∈ [' '], isSpace c = true := by
          intro c hc
          rw [List.mem_singleton.mp hc]
          rfl
        have hblankNext : ∀ c t, ' ' :: (ds ++ rest.flatMap posOut) = c :: t →
            c.isDigit = false := by
          intro c t heq
          obtain ⟨rfl, -⟩ := List.cons.inj heq
          rfl
        -- the letter is read first, then the digits
        have hx := readInt_numeral hspace (numeral_showInt ((letter.toNat : Int) - 'a'.toNat))
          (by unfold FitsInt; omega) hblankNext
        have hy := readInt_numeral hspace (Numeral.nonneg hne hdigits)
          (hfits _ List.mem_cons_self) hstop
        have hstream : (letter :: (ds ++ rest)).flatMap posOut =
            [' '] ++ showInt ((letter.toNat : Int) - 'a'.toNat) ++
              ' ' :: (ds ++ rest.flatMap posOut) := by
          rw [List.flatMap_cons, List.flatMap_append, hdsOut, hletterOut]
          simp
        rw [hstream, readInts_of_some hx, List.flatMap_cons]
        have hsecond : Decimal.readInts (' ' :: (ds ++ rest.flatMap posOut)) =
            (digitsValue ds : Int) :: Decimal.readInts (rest.flatMap posOut) :=
          readInts_of_some (by simpa using hy)
        rw [hsecond, hread]
        rfl
      · intro v hv
        rcases List.mem_cons.mp hv with rfl | hv
        · exact ⟨hlow, Int.natCast_nonneg _⟩
        · exact hnonneg v hv

/-- **A well-formed line that the parsers can hold is read completely.** By induction on the
line, as the grammar has built it. -/
theorem WrittenAs.readLine {type : OpeningType} {s : List Char} {vs : List (Int × Int)}
    (h : WrittenAs type s vs) (hreadable : ∀ v ∈ vs, Readable type v) :
    GomokuCli.readLine type s = some vs := by
  cases type with
  | offset =>
      have hrange : ∀ n ∈ vs.flatMap (fun v => [v.1, v.2]), -16 ≤ n ∧ n ≤ 15 := by
        intro n hn
        obtain ⟨v, hv, hn⟩ := List.mem_flatMap.mp hn
        obtain ⟨hx, hy⟩ := hreadable v hv
        rcases List.mem_pair.mp hn with rfl | rfl
        · exact hx
        · exact hy
      obtain ⟨hgood, hread⟩ := OffsetNumbers.readInts h fun n hn => by
        have := hrange n hn
        unfold FitsInt
        omega
      have hkeep : (vs.flatMap fun v => [v.1, v.2]).filter keepOffset =
          vs.flatMap fun v => [v.1, v.2] := by
        refine List.filter_eq_self.mpr fun n hn => ?_
        have := hrange n hn
        simp only [keepOffset, Bool.and_eq_true, decide_eq_true_eq]
        omega
      rw [GomokuCli.readLine, rewriteLine_of_forall hgood, Option.map_some, hread, hkeep,
        pairUp_flatMap]
  | pos =>
      obtain ⟨hgood, hread, hnonneg⟩ := PosGroups.readInts h hreadable
      have hkeep : (vs.flatMap fun v => [v.1, v.2]).filter keepPos =
          vs.flatMap fun v => [v.1, v.2] := by
        refine List.filter_eq_self.mpr fun n hn => ?_
        obtain ⟨v, hv, hn⟩ := List.mem_flatMap.mp hn
        obtain ⟨hx, hy⟩ := hnonneg v hv
        rw [keepPos, decide_eq_true_eq]
        rcases List.mem_pair.mp hn with rfl | rfl <;> omega
      rw [GomokuCli.readLine, rewriteLine_of_forall hgood, Option.map_some, hread, hkeep,
        pairUp_flatMap]

/-- A pair that denotes a cell of the board is one that the parsers can hold. -/
theorem readable_of_inSquare {size : Nat} (hsize : size ≤ 22) {type : OpeningType}
    {v : Int × Int} (h : InSquare size (writtenCell size type v)) : Readable type v := by
  obtain ⟨⟨hx0, hx⟩, hy0, hy⟩ := h
  cases type with
  | offset =>
      simp only [writtenCell] at hx0 hx hy0 hy
      simp only [Readable]
      omega
  | pos =>
      simp only [writtenCell] at hy0 hy
      simp only [Readable, FitsInt]
      omega

namespace Position

/-- An accepted line is a complete sequence of pairs, each of them a cell of the board, and
the history is this sequence.  The history array has room for `MaxBoardSizeSqr` moves, which
no test of the parsers looks after. -/
def DropsNothing (P : Position) (s : List Char) (type : OpeningType) : Prop :=
  (P.applyOpening s type).1 = true →
    ∃ vs, WrittenAs type s vs ∧
      (∀ v ∈ vs, InSquare P.boardSize (writtenCell P.boardSize type v)) ∧
      (P.applyOpening s type).2.historyCells = vs.map (writtenCell P.boardSize type) ∧
      vs.length ≤ maxBoardSizeSqr

/-- **When the parsers drop nothing**: the line holds a character that is not of the
notation, or a pair off the board, or it is well formed and the parsers can hold all of it.
The pairs of a line that is not well formed are what its numbers come to, two by two, when
those that the parser skips are left out (`readLine`). -/
theorem applyOpening_dropsNothing_iff {P : Position} (hsize : P.boardSize ≤ 22)
    (s : List Char) (type : OpeningType) :
    P.DropsNothing s type ↔
      (∃ c ∈ s, ¬ Known type c) ∨
      (∃ vs, readLine type s = some vs ∧
        ∃ v ∈ vs, ¬ InSquare P.boardSize (writtenCell P.boardSize type v)) ∨
      ∃ vs, WrittenAs type s vs ∧ (∀ v ∈ vs, Readable type v) ∧
        vs.length ≤ maxBoardSizeSqr := by
  rw [← readLine_eq_none_iff]
  have hcells : ∀ vs, readLine type s = some vs →
      openingCells P.boardSize type s = some (vs.map (writtenCell P.boardSize type)) := by
    intro vs hvs
    rw [openingCells, hvs, Option.map_some]
  constructor
  · intro h
    cases hread : readLine type s with
    | none => exact Or.inl rfl
    | some vs =>
        by_cases hin : ∀ v ∈ vs, InSquare P.boardSize (writtenCell P.boardSize type v)
        · have haccepted := (applyOpening_fst_iff P s type).mpr
            ⟨_, hcells vs hread, List.forall_mem_map.mpr hin⟩
          obtain ⟨vs', hwritten, hin', -, hlen⟩ := h haccepted
          exact Or.inr (Or.inr ⟨vs', hwritten,
            fun v hv => readable_of_inSquare hsize (hin' v hv), hlen⟩)
        · push Not at hin
          exact Or.inr (Or.inl ⟨vs, rfl, hin⟩)
  · intro h haccepted
    obtain ⟨cells, hsome, hin⟩ := (applyOpening_fst_iff P s type).mp haccepted
    rcases h with hunknown | ⟨vs, hread, v, hv, hout⟩ | ⟨vs, hwritten, hreadable, hlen⟩
    · rw [openingCells, hunknown] at hsome
      cases hsome
    · rw [hcells vs hread, Option.some.injEq] at hsome
      exact absurd (hin _ (hsome ▸ List.mem_map_of_mem hv)) hout
    · have hread := hwritten.readLine hreadable
      rw [hcells vs hread, Option.some.injEq] at hsome
      subst hsome
      refine ⟨vs, hwritten, List.forall_mem_map.mp hin, ?_, hlen⟩
      rw [applyOpening_snd (hcells vs hread) hin]
      exact (playCells_initBoard P hsize hin).1.moves

/-- The pair `0,0` on a `15 × 15` board. -/
theorem applyOpening_dropsNothing_centre :
    (Position.new 15).DropsNothing ['0', ',', '0'] .offset := by
  refine (applyOpening_dropsNothing_iff (by decide) _ _).mpr (Or.inr (Or.inr ⟨[(0, 0)], ?_⟩))
  have hzero : Numeral ['0'] 0 := by
    have h : Numeral ['0'] (digitsValue ['0']) := Numeral.nonneg (by simp) (by simp)
    exact h
  have hlast : OffsetNumbers ([','] ++ ['0'] ++ []) [0] :=
    OffsetNumbers.number (by simp [IsSeparator]) hzero (by simp) (.blank (by simp))
  refine ⟨?_, by simp [Readable], by decide⟩
  change OffsetNumbers ([] ++ ['0'] ++ [',', '0']) [0, 0]
  refine OffsetNumbers.number (by simp) hzero ?_ hlast
  rintro c t ⟨rfl, -⟩
  exact Or.inl rfl

/-- The number `99` is skipped, and the line `0,99,0` is accepted as the single
pair `0,0`. -/
theorem applyOpening_drops_number :
    ((Position.new 15).applyOpening ['0', ',', '9', '9', ',', '0'] .offset).1 = true ∧
      ((Position.new 15).applyOpening ['0', ',', '9', '9', ',', '0'] .offset).2.historyCells =
        [(7, 7)] ∧
      ¬ (Position.new 15).DropsNothing ['0', ',', '9', '9', ',', '0'] .offset := by
  have haccepted : ((Position.new 15).applyOpening
      ['0', ',', '9', '9', ',', '0'] .offset).1 = true := by decide
  have hhistory : ((Position.new 15).applyOpening
      ['0', ',', '9', '9', ',', '0'] .offset).2.historyCells = [(7, 7)] := by decide
  refine ⟨haccepted, hhistory, fun h => ?_⟩
  obtain ⟨vs, hwritten, -, hmoves, -⟩ := h haccepted
  rw [hhistory, eq_comm, List.map_eq_singleton_iff] at hmoves
  obtain ⟨v, rfl, hv⟩ := hmoves
  have hzero : v = (0, 0) := by
    have hhalf : ((Position.new 15).boardSize / 2 : Nat) = 7 := rfl
    simp only [writtenCell, hhalf, Prod.mk.injEq] at hv
    exact Prod.ext (by omega) (by omega)
  subst hzero
  have hread := (OffsetNumbers.readInts hwritten (by decide)).2
  exact absurd hread (by decide)

end Position

end GomokuCli
