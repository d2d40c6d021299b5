import GomokuCli.Library.Sgf
import GomokuCli.SgfRun

/-!
# Reading an exported game back

`export_sgf` writes every value as it stands, so the text is that of a document
whose values must not contain the characters that SGF gives a meaning.  The only
values that can are the names of the engines.  Without backslashes and closing
brackets in them the text reads back as the document (`read_sgfText`).

With them it never does.  A name is written twice, once in the name of the event
and once as a property of its own.  For the two properties to be read as the names,
every backslash in them would have to be written twice behind the event, and every
closing bracket would need a backslash that is not there
(`plain_of_readsBack`).
-/

namespace GomokuCli

open Sgf (Plain WellFormed plain_append plain_cons plain_iff_count wellFormed_single)

/-! ## Values that can be written as they stand -/

theorem plain_showInt (n : Int) : Plain (Decimal.showInt n) := by
  have hdigits : Plain (Nat.toDigits 10 n.natAbs) := by
    constructor
    · intro hmem
      exact absurd (Nat.isDigit_of_mem_toDigits (by omega) (by omega) hmem) (by decide)
    · intro hmem
      exact absurd (Nat.isDigit_of_mem_toDigits (by omega) (by omega) hmem) (by decide)
  rw [Decimal.showInt]
  split
  · exact plain_cons.mpr ⟨by decide, hdigits⟩
  · exact hdigits

theorem plain_twoDigits (n : Nat) : Plain (twoDigits n) := by
  rw [twoDigits]
  split
  · exact plain_cons.mpr ⟨by decide, plain_showInt n⟩
  · exact plain_showInt n

theorem LocalTime.plain_text (now : LocalTime) : Plain now.text := by
  have hdot : ('.' ≠ '\\' ∧ '.' ≠ ']') := by decide
  have hblank : (' ' ≠ '\\' ∧ ' ' ≠ ']') := by decide
  have hcolon : (':' ≠ '\\' ∧ ':' ≠ ']') := by decide
  simp only [LocalTime.text, plain_append, plain_cons, plain_showInt, plain_twoDigits, hdot, hblank,
    hcolon, ne_eq, not_false_eq_true, and_self]

namespace Game

/-- The result and the reason are fixed texts. -/
theorem plain_sgfResult (g : Game) : Plain g.sgfResult.1 ∧ Plain g.sgfResult.2 := by
  rw [sgfResult, decodeState]
  generalize (g.position.playerToMove == Color.black) = isBlackTurn
  generalize g.forbiddenType = forbidden
  cases g.state <;> cases isBlackTurn <;> cases forbidden <;> exact ⟨by decide, by decide⟩

theorem SgfComment.plain_text (c : SgfComment) : Plain c.text := by
  cases c with
  | openingMove => decide
  | time ms => exact plain_append.mpr ⟨plain_showInt ms, by decide⟩

theorem plain_sgfCoord {size : Nat} (hsize : size ≤ 22) {c : Int × Int} (hc : InSquare size c) :
    Plain (sgfCoord c) := by
  have hlower := (Match.sgfCoord_inSquare hsize hc).1
  constructor
  · exact fun hmem => absurd (hlower _ hmem) (by decide)
  · exact fun hmem => absurd (hlower _ hmem) (by decide)

/-! ## The document -/

/-- The property of a move, as `sgfMoveText` writes it. -/
def sgfMoveProperties (color : Nat) (cell : Int × Int) : List Sgf.Property :=
  if color = Color.black.code then [(['B'], [sgfCoord cell])]
  else if color = Color.white.code then [(['W'], [sgfCoord cell])]
  else []

/-- A node of the game as a node of SGF. -/
def SgfMove.node (n : SgfMove) : Sgf.Node :=
  sgfMoveProperties n.color n.cell ++ [(['C'], [n.comment.text])]

theorem SgfMove.text_eq (n : SgfMove) : n.text = Sgf.rawNode n.node := by
  simp only [SgfMove.text, SgfMove.node, Sgf.rawNode, sgfMoveText, sgfMoveProperties]
  split_ifs <;> simp [Sgf.rawProperty, sgfProperty]

/-- The properties in front of the name of the event. -/
def sgfStart (gameIdx : Nat) : Sgf.Node :=
  [(['F', 'F'], [['4']]), (['G', 'M'], [['4']]), (['G', 'N'], [Decimal.showInt gameIdx])]

/-- The name of the event: the names of the two engines. -/
def sgfEvent (g : Game) : List Char := g.names .black ++ [' ', 'x', ' '] ++ g.names .white

/-- The properties between the name of the event and the names of the players. -/
def sgfMiddle (g : Game) (round game : Nat) (now : LocalTime) : Sgf.Node :=
  [(['D', 'T'], [now.text]),
    (['R', 'O'], [Decimal.showInt (round + 1 : Nat) ++ '.' :: Decimal.showInt (game + 1 : Nat)]),
    (['R', 'U'], [Decimal.showInt g.gameRule.code]), (['S', 'Z'], [Decimal.showInt g.boardSize])]

/-- The properties behind the names of the players. -/
def sgfEnd (g : Game) : Sgf.Node :=
  [(['R', 'E'], [g.sgfResult.1]), (['T', 'E'], [g.sgfResult.2])]

/-- The root of the exported game.  It is taken apart here at the places where the names
stand, which are the only values that can do harm. -/
def sgfRoot (g : Game) (round game gameIdx : Nat) (now : LocalTime) : Sgf.Node :=
  sgfStart gameIdx ++ (['E', 'V'], [g.sgfEvent]) :: g.sgfMiddle round game now ++
    (['P', 'B'], [g.names .black]) :: (['P', 'W'], [g.names .white]) :: g.sgfEnd

theorem sgfHead_eq (g : Game) (round game gameIdx : Nat) (now : LocalTime) :
    g.sgfHead round game gameIdx now =
      '(' :: (Sgf.rawNode (g.sgfRoot round game gameIdx now) ++ ['\n']) := by
  simp [sgfHead, sgfRoot, sgfStart, sgfMiddle, sgfEnd, sgfEvent, Sgf.rawNode, Sgf.rawProperty,
    sgfProperty]

/-- The moves on their lines. -/
def sgfMoveLines (g : Game) (opening : Nat) : List Sgf.Line :=
  (g.sgfMoves opening).zipIdx.map fun n => { before := sgfBreaks opening n.2, node := n.1.node }

theorem sgfLines_eq (g : Game) (opening : Nat) :
    sgfLines opening (g.sgfMoves opening) = (g.sgfMoveLines opening).flatMap Sgf.Line.text := by
  simp [sgfLines, sgfMoveLines, Sgf.Line.text, List.flatMap_map, SgfMove.text_eq]

/-- A property that is a move. -/
def isMoveProperty (p : Sgf.Property) : Bool := p.1 == ['B'] || p.1 == ['W']

/-- The text is one game without variations; its root has the names of the players and the
result, and its nodes have the moves of the last position.  The reader is one of SGF, and
does not know who has written the text. -/
def ReadsBack (g : Game) (text : List Char) : Prop :=
  ∃ root nodes, Sgf.read text = some [.mk (root :: nodes) []] ∧
    root.lookup ['P', 'B'] = some [g.names .black] ∧
    root.lookup ['P', 'W'] = some [g.names .white] ∧
    root.lookup ['R', 'E'] = some [g.sgfResult.1] ∧
    nodes.map (List.filter isMoveProperty) =
      (List.range g.position.moveCount).map fun j =>
        sgfMoveProperties (colorFromMove (g.position.historyMoves j))
          (cellOf (posFromMove (g.position.historyMoves j)))

section Export

variable {g : Game} {opening round game gameIdx : Nat} {now : LocalTime}

theorem wellFormed_start (gameIdx : Nat) : ∀ p ∈ sgfStart gameIdx, WellFormed p := by
  simp only [sgfStart, List.forall_mem_cons, List.not_mem_nil, false_imp_iff, implies_true,
    and_true]
  exact ⟨wellFormed_single (by simp) rfl (by decide),
    wellFormed_single (by simp) rfl (by decide),
    wellFormed_single (by simp) rfl (plain_showInt _)⟩

theorem wellFormed_middle (g : Game) (round game : Nat) (now : LocalTime) :
    ∀ p ∈ g.sgfMiddle round game now, WellFormed p := by
  simp only [sgfMiddle, List.forall_mem_cons, List.not_mem_nil, false_imp_iff, implies_true,
    and_true]
  refine ⟨wellFormed_single (by simp) rfl now.plain_text,
    wellFormed_single (by simp) rfl ?_,
    wellFormed_single (by simp) rfl (plain_showInt _),
    wellFormed_single (by simp) rfl (plain_showInt _)⟩
  exact plain_append.mpr ⟨plain_showInt _, plain_cons.mpr ⟨by decide, plain_showInt _⟩⟩

theorem wellFormed_end (g : Game) : ∀ p ∈ g.sgfEnd, WellFormed p := by
  simp only [sgfEnd, List.forall_mem_cons, List.not_mem_nil, false_imp_iff, implies_true,
    and_true]
  exact ⟨wellFormed_single (by simp) rfl g.plain_sgfResult.1,
    wellFormed_single (by simp) rfl g.plain_sgfResult.2⟩

theorem wellFormed_root (hblack : Plain (g.names .black)) (hwhite : Plain (g.names .white)) :
    ∀ p ∈ g.sgfRoot round game gameIdx now, WellFormed p := by
  have hevent : Plain g.sgfEvent :=
    plain_append.mpr ⟨plain_append.mpr ⟨hblack, by decide⟩, hwhite⟩
  intro p hp
  simp only [sgfRoot, List.mem_append, List.mem_cons] at hp
  rcases hp with (hp | rfl | hp) | rfl | rfl | hp
  · exact wellFormed_start gameIdx p hp
  · exact wellFormed_single (by simp) rfl hevent
  · exact wellFormed_middle g round game now p hp
  · exact wellFormed_single (by simp) rfl hblack
  · exact wellFormed_single (by simp) rfl hwhite
  · exact wellFormed_end g p hp

/-- Every cell of the history has two letters. -/
def CellsPlain (g : Game) : Prop :=
  ∀ j < g.position.moveCount, Plain (sgfCoord (cellOf (posFromMove (g.position.historyMoves j))))

theorem wellFormed_moveLines (hcells : g.CellsPlain) :
    ∀ l ∈ g.sgfMoveLines opening, l.WellFormed := by
  intro l hl
  rw [sgfMoveLines, zipIdx_sgfMoves, List.map_map] at hl
  obtain ⟨j, hj, rfl⟩ := List.mem_map.mp hl
  have hcoord := hcells j (List.mem_range.mp hj)
  refine ⟨?_, ?_, by simp⟩
  · intro c hc
    have hbreak : c = '\n' := by
      simp only [Function.comp_apply, sgfBreaks, List.mem_append] at hc
      rcases hc with hc | hc <;> split at hc <;> simp_all
    rw [hbreak]
    rfl
  · intro p hp
    have hcomment := (g.sgfMove opening j).comment.plain_text
    simp only [Function.comp_apply, SgfMove.node, List.mem_append, List.mem_singleton] at hp
    rcases hp with hp | rfl
    · unfold sgfMoveProperties at hp
      split_ifs at hp
      · rw [List.mem_singleton.mp hp]
        exact wellFormed_single (by simp) rfl hcoord
      · rw [List.mem_singleton.mp hp]
        exact wellFormed_single (by simp) rfl hcoord
      · cases hp
    · exact wellFormed_single (by simp) rfl hcomment

/-- The text of a game as lines of SGF. -/
def sgfText (g : Game) (opening round game gameIdx : Nat) (now : LocalTime) : List Char :=
  g.sgfHead round game gameIdx now ++ sgfLines opening (g.sgfMoves opening) ++ [')', '\n', '\n']

/-- Without special characters in the names the text reads back as the document, with every
value as it was. -/
theorem read_sgfText (hcells : g.CellsPlain) (hblack : Plain (g.names .black))
    (hwhite : Plain (g.names .white)) :
    Sgf.read (g.sgfText opening round game gameIdx now) =
      some [.mk (g.sgfRoot round game gameIdx now ::
        (g.sgfMoves opening).map SgfMove.node) []] := by
  have hroot : Sgf.Line.WellFormed
      { node := g.sgfRoot round game gameIdx now, behind := ['\n'] } :=
    ⟨by simp, wellFormed_root hblack hwhite, by simp⟩
  have hmoves : ∀ l ∈ g.sgfMoveLines opening, l.WellFormed := wellFormed_moveLines hcells
  have htail : ∀ c ∈ ['\n', '\n'], c.isWhitespace = true := List.all_eq_true.mp rfl
  have hread := Sgf.read_game (List.cons_ne_nil _ _)
    (List.forall_mem_cons.mpr ⟨hroot, hmoves⟩) htail
  have hnodes : (g.sgfMoveLines opening).map Sgf.Line.node =
      (g.sgfMoves opening).map SgfMove.node := by
    rw [sgfMoveLines, zipIdx_sgfMoves]
    simp [sgfMoves, Function.comp_def]
  rw [List.map_cons, hnodes] at hread
  rw [← hread, sgfText, sgfHead_eq, sgfLines_eq]
  simp [Sgf.Line.text]

theorem readsBack_of_plain (hcells : g.CellsPlain) (hblack : Plain (g.names .black))
    (hwhite : Plain (g.names .white)) :
    g.ReadsBack (g.sgfText opening round game gameIdx now) := by
  refine ⟨_, _, read_sgfText hcells hblack hwhite, rfl, rfl, rfl, ?_⟩
  rw [sgfMoves, List.map_map, List.map_map]
  refine List.map_congr_left fun j _ => ?_
  simp only [Function.comp_apply, SgfMove.node, sgfMove, sgfMoveProperties]
  split_ifs <;> rfl

/-! ## What the names need -/

/-- The text behind the name of the event. -/
def sgfRest (g : Game) (opening round game : Nat) (now : LocalTime) : List Char :=
  (g.sgfMiddle round game now).flatMap Sgf.rawProperty ++
    Sgf.rawProperty (['P', 'B'], [g.names .black]) ++
    Sgf.rawProperty (['P', 'W'], [g.names .white]) ++
    g.sgfEnd.flatMap Sgf.rawProperty ++ ['\n'] ++
    (g.sgfMoveLines opening).flatMap Sgf.Line.text ++ [')', '\n', '\n']

theorem scan_sgfText : Sgf.scan .outside (g.sgfText opening round game gameIdx now) =
    (Sgf.scan (.value []) (g.sgfEvent ++ ']' :: g.sgfRest opening round game now)).map fun ts =>
      .opens :: .node :: ((sgfStart gameIdx).flatMap Sgf.propertyTokens ++
        .ident ['E', 'V'] :: ts) := by
  have htext : g.sgfText opening round game gameIdx now =
      '(' :: ';' :: ((sgfStart gameIdx).flatMap Sgf.rawProperty ++
        (['E', 'V'] ++ '[' :: (g.sgfEvent ++ ']' :: g.sgfRest opening round game now))) := by
    rw [sgfText, sgfHead_eq, sgfLines_eq]
    simp [sgfRoot, sgfRest, Sgf.rawNode, Sgf.rawProperty]
  have hopen (s : List Char) : Sgf.scan .outside ('(' :: ';' :: s) =
      (Sgf.scan .outside s).map fun ts => .opens :: .node :: ts := by
    simp [Sgf.scan, Sgf.step, Sgf.outsideStep, show Char.isWhitespace '(' = false from rfl,
      show Char.isWhitespace ';' = false from rfl, Function.comp_def]
  have hvalue (s : List Char) : Sgf.scan .outside ('[' :: s) = Sgf.scan (.value []) s := by
    simp [Sgf.scan, Sgf.step, Sgf.outsideStep, show Char.isWhitespace '[' = false from rfl]
  rw [htext, hopen, Sgf.scan_rawProperties (wellFormed_start gameIdx),
    Sgf.scan_identifier (by simp) (List.all_eq_true.mp rfl), hvalue, Option.map_map, Option.map_map]
  rfl

/-- In front of the name of the event there are no properties of the players. -/
theorem under_start (gameIdx : Nat) {k : List Char} (hk : k = ['P', 'B'] ∨ k = ['P', 'W'])
    (ts : List Sgf.Token) :
    Sgf.under k false ((sgfStart gameIdx).flatMap Sgf.propertyTokens ++ .ident ['E', 'V'] :: ts) =
      Sgf.under k false ts := by
  rcases hk with rfl | rfl <;> simp [sgfStart, Sgf.propertyTokens, Sgf.under]

theorem count_sgfEvent {c : Char} (hc : c ∉ [' ', 'x', ' ']) :
    g.sgfEvent.count c = (g.names .black).count c + (g.names .white).count c := by
  rw [sgfEvent, List.count_append, List.count_append, List.count_eq_zero_of_not_mem hc, add_zero]

/-- Behind the name of the event only the names have backslashes.  So those that the names
need have to be found among their own. -/
theorem count_sgfRest (hcells : g.CellsPlain) :
    (g.sgfRest opening round game now).count '\\' =
      (g.names .black).count '\\' + (g.names .white).count '\\' := by
  have hmiddle := Sgf.esc_notMem_rawProperties (wellFormed_middle g round game now)
  have hend := Sgf.esc_notMem_rawProperties (wellFormed_end g)
  have hlines : '\\' ∉ (g.sgfMoveLines opening).flatMap Sgf.Line.text := by
    intro hmem
    obtain ⟨l, hl, hmem⟩ := List.mem_flatMap.mp hmem
    exact Sgf.Line.esc_notMem_text (wellFormed_moveLines hcells l hl) hmem
  simp [sgfRest, Sgf.rawProperty, List.count_eq_zero_of_not_mem, hmiddle, hend, hlines]

/-- What the names need is found behind the identifiers of the players.  The reader has no
other place to take the values from. -/
theorem need_le_of_readsBack (h : g.ReadsBack (g.sgfText opening round game gameIdx now)) :
    ∃ ts, Sgf.scan (.value []) (g.sgfEvent ++ ']' :: g.sgfRest opening round game now) = some ts ∧
      Sgf.need (g.names .black) ≤ Sgf.under ['P', 'B'] false ts ∧
      Sgf.need (g.names .white) ≤ Sgf.under ['P', 'W'] false ts := by
  obtain ⟨root, nodes, hread, hblack, hwhite, -, -⟩ := h
  obtain ⟨tokens, htokens, -⟩ := Option.bind_eq_some_iff.mp hread
  have hsplit := htokens
  rw [scan_sgfText] at hsplit
  obtain ⟨ts, hscan, rfl⟩ := Option.map_eq_some_iff.mp hsplit
  refine ⟨ts, hscan, ?_, ?_⟩
  · rw [← under_start gameIdx (Or.inl rfl)]
    exact Sgf.need_le_of_read htokens hread hblack
  · rw [← under_start gameIdx (Or.inr rfl)]
    exact Sgf.need_le_of_read htokens hread hwhite

/-- Only names without special characters are read back.  The name of the event has already
used up as many of them as the two names have to offer. -/
theorem plain_of_readsBack (hcells : g.CellsPlain)
    (h : g.ReadsBack (g.sgfText opening round game gameIdx now)) :
    Plain (g.names .black) ∧ Plain (g.names .white) := by
  obtain ⟨ts, hscan, hblack, hwhite⟩ := need_le_of_readsBack h
  have hapart : ∀ ts, Sgf.under ['P', 'B'] false ts + Sgf.under ['P', 'W'] false ts ≤
      (ts.map Sgf.Token.need).sum := Sgf.under_add_le (by decide) (by decide)
  have hrest : (g.sgfRest opening round game now).count '\\' = _ := count_sgfRest hcells
  have hesc : g.sgfEvent.count '\\' = _ := count_sgfEvent (by decide)
  have hstop : g.sgfEvent.count ']' = _ := count_sgfEvent (by decide)
  simp only [Sgf.need] at hblack hwhite
  rw [plain_iff_count, plain_iff_count]
  -- all the backslashes of the text are used up by the backslashes in the names
  have hbrackets : (g.names .black).count ']' = 0 ∧ (g.names .white).count ']' = 0 := by
    have htext := Sgf.need_le_of_scan hscan
    rw [List.count_append, List.count_cons_of_ne (by decide), hesc, hrest] at htext
    have hnames := hapart ts
    simp only [Sgf.Mode.need, Sgf.need, List.count_nil] at htext
    omega
  -- so the name of the event ends where it should, and only the others are left
  have hevent : ']' ∉ g.sgfEvent := by
    rw [← List.count_eq_zero, hstop, hbrackets.1, hbrackets.2]
  obtain ⟨w, behind, rfl, hbehind⟩ := Sgf.scan_value_rest hevent hscan
  have hnames := hapart behind
  simp only [Sgf.under, Bool.false_eq_true, if_false, zero_add] at hblack hwhite
  omega

end Export

end Game

namespace Match

open PlayState Position

variable {m : Match} {g : Game} {result : Result} {final : PlayState}

theorem names_of_returned (h : Loads m g) (hplay : m.play g = some (.returned result final))
    (color : Color) : final.game.names color =
      m.engineName (engineOfColor (g.pos 0).playerToMove m.reverse color) := by
  rcases returned_rounds hplay with ⟨i, -, -, -, hgame⟩ | ⟨s, t, -, hat, hleft, -, rfl⟩
  · rw [hgame]
    rfl
  · exact (breaks_of_round (hat.shape h) hleft).names h hat color

/-- Both names are names of engines, and every engine has one of them. -/
theorem plain_names_iff (h : Loads m g) (hplay : m.play g = some (.returned result final)) :
    Plain (final.game.names .black) ∧ Plain (final.game.names .white) ↔
      ∀ i, Plain (m.engineName i) := by
  rw [names_of_returned h hplay, names_of_returned h hplay, Bool.forall_bool, engineOfColor,
    engineOfColor]
  cases (g.pos 0).playerToMove == Color.white <;> cases m.reverse
  · exact Iff.rfl
  · exact and_comm
  · exact and_comm
  · exact Iff.rfl

/-- The text that is written for a finished game, and its cells. -/
theorem exportSgf_of_returned (h : Loads m g) (hplay : m.play g = some (.returned result final))
    (round game gameIdx : Nat) (now : LocalTime) :
    final.game.exportSgf round game gameIdx now =
        some (final.game.sgfText (g.pos 0).moveCount round game gameIdx now) ∧
      final.game.CellsPlain := by
  obtain ⟨hinfo, moves, hply, hlegal, hsame⟩ := moves_of_returned h hplay
  obtain ⟨cells, hopening, -⟩ := h.follows
  have hfollows : final.position.Follows m.options.boardSize (cells ++ moveCells moves) :=
    hsame.follows (hopening.playMoves hlegal)
  have hcount : final.position.moveCount = (g.pos 0).moveCount + final.game.ply := by
    rw [hfollows.moveCount, hopening.moveCount, hply, List.length_append, length_moveCells]
  constructor
  · exact Game.exportSgf_eq hcount (by simpa using hinfo.length_le) round game gameIdx now
  · intro j hj
    have hlt : j < (cells ++ moveCells moves).length := hfollows.moveCount ▸ hj
    change Plain (Game.sgfCoord (cellOf (posFromMove (final.position.historyMoves j))))
    rw [hfollows.history hlt]
    exact Game.plain_sgfCoord h.size_le (hfollows.inSquare _ (List.getElem_mem hlt))

/-- **When the export reads back**: the names of the engines contain neither a backslash nor
a closing bracket.  However the game has ended, nothing else in the text can go wrong.  In
particular two names never make good for each other what one of them has spoiled. -/
theorem exportSgf_readsBack_iff (h : Loads m g)
    (hplay : m.play g = some (.returned result final)) (round game gameIdx : Nat)
    (now : LocalTime) :
    ∃ text, final.game.exportSgf round game gameIdx now = some text ∧
      (final.game.ReadsBack text ↔ ∀ i, Plain (m.engineName i)) := by
  obtain ⟨htext, hcells⟩ := exportSgf_of_returned h hplay round game gameIdx now
  refine ⟨_, htext, ?_⟩
  rw [← plain_names_iff h hplay]
  constructor
  · exact Game.plain_of_readsBack hcells
  · rintro ⟨hblack, hwhite⟩
    exact Game.readsBack_of_plain hcells hblack hwhite

/-- A game from an opening of one stone, between engines with ordinary names. -/
theorem exportSgf_readsBack_iff_oneStone :
    ∃ result final,
      (casual {} fun _ => ['3', ',', '3']).play (Game.ofOpening ['0', ',', '0'] {}) =
        some (.returned result final) ∧
      ∃ text, final.game.exportSgf 0 0 1 ⟨2024, 1, 1, 0, 0, 0⟩ = some text ∧
        (final.game.ReadsBack text ↔
          ∀ i, Plain ((casual {} fun _ => ['3', ',', '3']).engineName i)) := by
  obtain ⟨hloads, result, final, hplay⟩ := returned_oneStone
  exact ⟨result, final, hplay,
    exportSgf_readsBack_iff hloads hplay 0 0 1 ⟨2024, 1, 1, 0, 0, 0⟩⟩

/-- The same game between engines with a bracket in their names. -/
def bracketed : Match :=
  { casual {} fun _ => ['3', ',', '3'] with
    engineName := fun i => ['W', 'i', 'n', 'e', ']', if i then '2' else '1'] }

/-- The bracket in the name ends the value, and the text does not read back. -/
theorem exportSgf_bracketed :
    ∃ result final text,
      bracketed.play (Game.ofOpening ['0', ',', '0'] {}) = some (.returned result final) ∧
      final.game.exportSgf 0 0 1 ⟨2024, 1, 1, 0, 0, 0⟩ = some text ∧
      ¬ final.game.ReadsBack text := by
  have hloads : Loads bracketed (Game.ofOpening ['0', ',', '0'] {}) :=
    loads_ofOpening (by decide) (by decide)
  obtain ⟨result, final, hplay⟩ := exists_of_returns (e :=
    bracketed.play (Game.ofOpening ['0', ',', '0'] {})) (by decide +kernel)
  obtain ⟨htext, hcells⟩ := exportSgf_of_returned hloads hplay 0 0 1 ⟨2024, 1, 1, 0, 0, 0⟩
  refine ⟨result, final, _, hplay, htext, fun hreads => ?_⟩
  have hnames := (plain_names_iff hloads hplay).mp (Game.plain_of_readsBack hcells hreads)
  exact absurd (hnames false) (by decide)

end Match

end GomokuCli
