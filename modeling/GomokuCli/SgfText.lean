import GomokuCli.Run

/-!
# The SGF text of a game

`export_sgf` writes the properties of the game and then one node for every entry
of the history of the last position.  How many of the entries come from the
opening is not recorded: it is the difference between the number of moves and
`ply`, and the time of a played move is looked up in `info` under its distance
from the opening.

`exportSgf_eq` says what the loop writes when these indices are in range: the
nodes of `sgfMoves` in order, with the line breaks in front of them.
-/

namespace GomokuCli

/-- `struct tm` of the local time, as far as `strftime` reads it here. -/
structure LocalTime where
  year : Nat
  month : Nat
  day : Nat
  hour : Nat
  minute : Nat
  second : Nat

/-- A number of two digits, as `%m` and its siblings write it. -/
def twoDigits (n : Nat) : List Char :=
  if n < 10 then '0' :: Decimal.showInt n else Decimal.showInt n

/-- `strftime` with `%Y.%m.%d %H:%M:%S`. -/
def LocalTime.text (now : LocalTime) : List Char :=
  Decimal.showInt now.year ++ '.' :: twoDigits now.month ++ '.' :: twoDigits now.day ++
    ' ' :: twoDigits now.hour ++ ':' :: twoDigits now.minute ++ ':' :: twoDigits now.second

namespace Game

/-- `ResultTxt` of `export_sgf`. -/
def sgfResultTxt : Result → List Char
  | .loss => ['W', '+', '1']
  | .draw => ['0']
  | .win => ['B', '+', '1']

/-- The result and the reason that `export_sgf` writes. -/
def sgfResult (g : Game) : List Char × List Char := g.decodeState sgfResultTxt

/-- A property with one value, `name[value]`. -/
def sgfProperty (name value : List Char) : List Char := name ++ '[' :: value ++ [']']

/-- Everything in front of the moves.  The numbers of the round and of the game
in it are fields of the object that nothing else reads. -/
def sgfHead (g : Game) (round game gameIdx : Nat) (now : LocalTime) : List Char :=
  ['(', ';'] ++ sgfProperty ['F', 'F'] ['4'] ++ sgfProperty ['G', 'M'] ['4'] ++
    sgfProperty ['G', 'N'] (Decimal.showInt gameIdx) ++
    sgfProperty ['E', 'V'] (g.names .black ++ [' ', 'x', ' '] ++ g.names .white) ++
    sgfProperty ['D', 'T'] now.text ++
    sgfProperty ['R', 'O']
      (Decimal.showInt (round + 1 : Nat) ++ '.' :: Decimal.showInt (game + 1 : Nat)) ++
    sgfProperty ['R', 'U'] (Decimal.showInt g.gameRule.code) ++
    sgfProperty ['S', 'Z'] (Decimal.showInt g.boardSize) ++
    sgfProperty ['P', 'B'] (g.names .black) ++ sgfProperty ['P', 'W'] (g.names .white) ++
    sgfProperty ['R', 'E'] g.sgfResult.1 ++ sgfProperty ['T', 'E'] g.sgfResult.2 ++ ['\n']

/-- `coord`: the letters for the two coordinates. -/
def sgfCoord (c : Int × Int) : List Char :=
  [Char.ofNat (c.1 + 97).toNat, Char.ofNat (c.2 + 97).toNat]

/-- The property of a move: none for a colour that is neither Black nor White. -/
def sgfMoveText (color : Nat) (cell : Int × Int) : List Char :=
  if color = Color.black.code then sgfProperty ['B'] (sgfCoord cell)
  else if color = Color.white.code then sgfProperty ['W'] (sgfCoord cell)
  else []

/-- The text of the comment on an opening move. -/
def openingComment : List Char :=
  ['o', 'p', 'e', 'n', 'i', 'n', 'g', ' ', 'm', 'o', 'v', 'e']

/-- The comment at the entry `j` of the history, or `none` where the index into
`info` is out of range. -/
def sgfComment (g : Game) (openingMoveCnt : Int) (j : Nat) : Option (List Char) :=
  let thinkPly := (j : Int) - openingMoveCnt
  if (j : Int) < openingMoveCnt then some openingComment
  else g.info[thinkPly.toNat]?.map fun info => Decimal.showInt info.time ++ ['m', 's']

/-- The loop over the entries `js` of the history. -/
def exportMoves (g : Game) (openingMoveCnt : Int) : List Nat → Nat → Option (List Char)
  | [], _ => some []
  | j :: js, moveCnt => do
      let thinkPly := (j : Int) - openingMoveCnt
      let gap := if openingMoveCnt > 0 ∧ thinkPly = 0 then ['\n'] else []
      let (wrap, moveCnt) := if moveCnt ≥ 8 then (['\n'], 0) else ([], moveCnt)
      let comment ← g.sgfComment openingMoveCnt j
      let moveCnt := if (j : Int) < openingMoveCnt then moveCnt else moveCnt + 1
      let move := g.position.historyMoves j
      let out ← g.exportMoves openingMoveCnt js moveCnt
      return gap ++ wrap ++
        ';' :: sgfMoveText (colorFromMove move) (cellOf (posFromMove move)) ++
        sgfProperty ['C'] comment ++ out

/-- `export_sgf`. -/
def exportSgf (g : Game) (round game gameIdx : Nat) (now : LocalTime) : Option (List Char) := do
  let openingMoveCnt := (g.position.moveCount : Int) - g.ply
  let moves ← g.exportMoves openingMoveCnt (List.range g.position.moveCount) 0
  return g.sgfHead round game gameIdx now ++ moves ++ [')', '\n', '\n']

/-! ## What the loop writes -/

/-- The comment on a move. -/
inductive SgfComment
  | openingMove
  | time (ms : Int)
  deriving DecidableEq, Repr

/-- The text of a comment. -/
def SgfComment.text : SgfComment → List Char
  | .openingMove => openingComment
  | .time ms => Decimal.showInt ms ++ ['m', 's']

/-- A node of the exported game: the colour and the cell of a move, and the comment. -/
structure SgfMove where
  color : Nat
  cell : Int × Int
  comment : SgfComment
  deriving DecidableEq, Repr

/-- The text of a node. -/
def SgfMove.text (n : SgfMove) : List Char :=
  ';' :: sgfMoveText n.color n.cell ++ sgfProperty ['C'] n.comment.text

/-- The line breaks in front of the node `j`: one behind the opening, if there is one, and
one behind every eight played moves.  The source counts the moves on the line instead
(`sgfColumn`). -/
def sgfBreaks (opening j : Nat) : List Char :=
  (if 0 < opening ∧ j = opening then ['\n'] else []) ++
    if opening < j ∧ (j - opening) % 8 = 0 then ['\n'] else []

/-- The nodes with their line breaks. -/
def sgfLines (opening : Nat) (nodes : List SgfMove) : List Char :=
  nodes.zipIdx.flatMap fun n => sgfBreaks opening n.2 ++ n.1.text

/-- The node for the entry `j` of the history: marked as an opening move, or with
the time of its own entry of `info`. -/
def sgfMove (g : Game) (opening j : Nat) : SgfMove where
  color := colorFromMove (g.position.historyMoves j)
  cell := cellOf (posFromMove (g.position.historyMoves j))
  comment :=
    if j < opening then .openingMove
    else .time ((g.info.map Info.time).getD (j - opening) 0)

/-- The nodes of a game. -/
def sgfMoves (g : Game) (opening : Nat) : List SgfMove :=
  (List.range g.position.moveCount).map (g.sgfMove opening)

/-- How many moves stand on the current line when node `j` is reached. -/
def sgfColumn (opening j : Nat) : Nat := if j ≤ opening then 0 else (j - opening - 1) % 8 + 1

section Loop

variable {g : Game} {opening j : Nat}

theorem sgfColumn_step (opening j : Nat) :
    sgfColumn opening (j + 1) =
      if j < opening then (if sgfColumn opening j ≥ 8 then 0 else sgfColumn opening j)
      else (if sgfColumn opening j ≥ 8 then 0 else sgfColumn opening j) + 1 := by
  unfold sgfColumn
  split_ifs <;> omega

theorem sgfColumn_ge_iff : sgfColumn opening j ≥ 8 ↔ opening < j ∧ (j - opening) % 8 = 0 := by
  unfold sgfColumn
  split_ifs <;> omega

theorem sgfComment_eq (hinfo : j < opening ∨ j - opening < g.info.length) :
    g.sgfComment opening j = some (g.sgfMove opening j).comment.text := by
  rw [sgfComment, sgfMove]
  by_cases hj : j < opening
  · rw [if_pos (by omega), if_pos hj]
    rfl
  · have hlt : j - opening < g.info.length := hinfo.resolve_left hj
    have hindex : ((j : Int) - opening).toNat = j - opening := by omega
    rw [if_neg (by omega), if_neg hj, hindex, List.getElem?_eq_getElem hlt]
    simp [SgfComment.text, hlt]

/-- The loop from node `j` on, in the column it has reached.  By induction on the nodes that
are left, for every column. -/
theorem exportMoves_eq {n : Nat}
    (hinfo : ∀ i < j + n, i < opening ∨ i - opening < g.info.length) :
    g.exportMoves opening (List.range' j n) (sgfColumn opening j) =
      some ((List.range' j n).flatMap fun i =>
        sgfBreaks opening i ++ (g.sgfMove opening i).text) := by
  induction n generalizing j with
  | zero => rfl
  | succ n ih =>
      have hrest := ih (j := j + 1) fun i hi => hinfo i (by omega)
      have hgap : ((opening : Int) > 0 ∧ (j : Int) - opening = 0) ↔
          (0 < opening ∧ j = opening) := by
        omega
      rw [sgfColumn_step] at hrest
      rw [List.range'_succ, exportMoves, sgfComment_eq (hinfo j (by omega)), List.flatMap_cons]
      simp only [hgap, sgfColumn_ge_iff, Nat.cast_lt] at hrest ⊢
      by_cases hwrap : opening < j ∧ (j - opening) % 8 = 0
      · simp only [if_pos hwrap] at hrest ⊢
        rw [Option.bind_eq_bind, Option.bind_some, hrest]
        simp [sgfBreaks, SgfMove.text, sgfMove, hwrap]
      · simp only [if_neg hwrap] at hrest ⊢
        rw [Option.bind_eq_bind, Option.bind_some, hrest]
        simp [sgfBreaks, SgfMove.text, sgfMove, hwrap]

theorem zipIdx_sgfMoves : (g.sgfMoves opening).zipIdx =
    (List.range g.position.moveCount).map fun j => (g.sgfMove opening j, j) := by
  refine List.ext_getElem (by simp [sgfMoves]) fun j hj hj' => ?_
  simp [sgfMoves]

/-- What is written for a game whose played moves all have an entry in `info`. -/
theorem exportSgf_eq (hcount : g.position.moveCount = opening + g.ply)
    (hinfo : g.ply ≤ g.info.length) (round game gameIdx : Nat) (now : LocalTime) :
    g.exportSgf round game gameIdx now =
      some (g.sgfHead round game gameIdx now ++ sgfLines opening (g.sgfMoves opening) ++
        [')', '\n', '\n']) := by
  have hopening : (g.position.moveCount : Int) - g.ply = opening := by omega
  have hloop :
      g.exportMoves opening (List.range' 0 g.position.moveCount) (sgfColumn opening 0) = _ :=
    exportMoves_eq fun i hi => by omega
  rw [← List.range_eq_range', show sgfColumn opening 0 = 0 by simp [sgfColumn]] at hloop
  rw [exportSgf]
  simp only [hopening, hloop, Option.bind_eq_bind, Option.bind_some]
  rw [sgfLines, zipIdx_sgfMoves, List.flatMap_map]
  rfl

end Loop

end Game

end GomokuCli
