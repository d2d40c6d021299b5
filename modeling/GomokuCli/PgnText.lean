import GomokuCli.Library.Pgn
import GomokuCli.Outcome
import GomokuCli.SgfText

/-!
# The PGN text of a game

`export_pgn` writes eight tags and the result, which stands for the moves as well.  The
values are written without escapes, so that the text is the one of the document
`pgnGame` as long as the names of the engines need none (`exportPgn_eq`).

The tags `Black`, `White` and `Result` are an account of the game from which the result
for either engine can be computed (`scoreFor`).  It is the one that `play` returns
(`scoreFor_of_returned`).
-/

namespace GomokuCli

open Pgn (Printable)

/-! ## The text -/

namespace Game

/-- `ResultTxt` of `export_pgn`, from White's point of view. -/
def pgnResultTxt : Result → List Char
  | .loss => ['1', '-', '0']
  | .draw => ['1', '/', '2', '-', '1', '/', '2']
  | .win => ['0', '-', '1']

/-- `format("[Name \"%s\"]\n", value)`. -/
def pgnTag (name value : List Char) : List Char :=
  '[' :: name ++ ' ' :: '"' :: value ++ ['"', ']', '\n']

/-- `export_pgn`. -/
def exportPgn (g : Game) (round game gameIdx : Nat) (now : LocalTime) : List Char :=
  let (result, reason) := g.decodeState pgnResultTxt
  pgnTag "Event".toList (Decimal.showInt gameIdx) ++ pgnTag "Date".toList now.text ++
    pgnTag "Round".toList
      (Decimal.showInt (round + 1 : Nat) ++ '.' :: Decimal.showInt (game + 1 : Nat)) ++
    pgnTag "Black".toList (Decimal.cString (g.names .black)) ++
    pgnTag "White".toList (Decimal.cString (g.names .white)) ++
    pgnTag "Result".toList result ++ pgnTag "Termination".toList reason ++
    pgnTag "PlyCount".toList (Decimal.showInt g.ply) ++ result ++ ['\n', '\n']

/-- The document that the text stands for.  Its moves are only a result, as the source does
not write any. -/
def pgnGame (g : Game) (round game gameIdx : Nat) (now : LocalTime) : Pgn.Game where
  tags :=
    [("Event".toList, Decimal.showInt gameIdx), ("Date".toList, now.text),
      ("Round".toList,
        Decimal.showInt (round + 1 : Nat) ++ '.' :: Decimal.showInt (game + 1 : Nat)),
      ("Black".toList, g.names .black), ("White".toList, g.names .white),
      ("Result".toList, (g.decodeState pgnResultTxt).1),
      ("Termination".toList, (g.decodeState pgnResultTxt).2),
      ("PlyCount".toList, Decimal.showInt g.ply)]
  moves := []
  result := (g.decodeState pgnResultTxt).1

/-! ## Values that can be written as they stand -/

theorem pgnTag_eq {name value : List Char} (h : Pgn.Plain value) :
    pgnTag name value = Pgn.tagText (name, value) := by
  rw [Pgn.tagText, Pgn.escape_plain h]
  rfl

theorem pgnPlain_showInt (n : Int) : Pgn.Plain (Decimal.showInt n) := by
  have hdigits : Pgn.Plain (Nat.toDigits 10 n.natAbs) := by
    intro c hc
    have hdigit : c.isDigit = true :=
      Nat.isDigit_of_mem_toDigits (by omega) (by omega) hc
    refine ⟨?_, ?_, ?_⟩
    · rw [Char.isDigit, Bool.and_eq_true, decide_eq_true_eq, decide_eq_true_eq] at hdigit
      exact le_trans (by decide) hdigit.1
    · rintro rfl
      exact absurd hdigit (by decide)
    · rintro rfl
      exact absurd hdigit (by decide)
  rw [Decimal.showInt]
  split
  · exact Pgn.plain_cons.mpr ⟨by decide, hdigits⟩
  · exact hdigits

theorem pgnPlain_twoDigits (n : Nat) : Pgn.Plain (twoDigits n) := by
  rw [twoDigits]
  split
  · exact Pgn.plain_cons.mpr ⟨by decide, pgnPlain_showInt n⟩
  · exact pgnPlain_showInt n

theorem pgnPlain_date (now : LocalTime) : Pgn.Plain now.text := by
  have hbehind : ∀ {c : Char} {v : List Char}, Pgn.Plain [c] → Pgn.Plain v →
      Pgn.Plain (c :: v) := fun hc hv => Pgn.plain_append.mpr ⟨hc, hv⟩
  simp only [LocalTime.text, Pgn.plain_append]
  exact ⟨⟨⟨⟨⟨pgnPlain_showInt _, hbehind (by decide) (pgnPlain_twoDigits _)⟩,
    hbehind (by decide) (pgnPlain_twoDigits _)⟩, hbehind (by decide) (pgnPlain_twoDigits _)⟩,
    hbehind (by decide) (pgnPlain_twoDigits _)⟩, hbehind (by decide) (pgnPlain_twoDigits _)⟩

/-- The result and the reason are fixed texts. -/
theorem pgnPlain_decodeState (g : Game) :
    Pgn.Termination (g.decodeState pgnResultTxt).1 ∧
      Pgn.Plain (g.decodeState pgnResultTxt).1 ∧ Pgn.Plain (g.decodeState pgnResultTxt).2 := by
  rw [decodeState]
  generalize (g.position.playerToMove == Color.black) = isBlackTurn
  generalize g.forbiddenType = forbidden
  cases g.state <;> cases isBlackTurn <;> cases forbidden <;>
    exact ⟨by decide, by decide, by decide⟩

theorem cString_of_plain {v : List Char} (h : Pgn.Plain v) : Decimal.cString v = v := by
  refine List.takeWhile_eq_self_iff.mpr fun c hc => decide_eq_true fun hnull => ?_
  have hprintable := (h c hc).1
  rw [Printable, hnull] at hprintable
  exact absurd hprintable (by decide)

theorem pgnGame_tags {g : Game} (hblack : Pgn.Plain (g.names .black))
    (hwhite : Pgn.Plain (g.names .white)) (round game gameIdx : Nat) (now : LocalTime) :
    ∀ t ∈ (g.pgnGame round game gameIdx now).tags, Pgn.IsSymbol t.1 ∧ Pgn.Plain t.2 := by
  obtain ⟨-, hresult, hreason⟩ := pgnPlain_decodeState g
  have hround : Pgn.Plain
      (Decimal.showInt (round + 1 : Nat) ++ '.' :: Decimal.showInt (game + 1 : Nat)) :=
    Pgn.plain_append.mpr ⟨pgnPlain_showInt _, Pgn.plain_cons.mpr ⟨by decide, pgnPlain_showInt _⟩⟩
  simp only [pgnGame, List.forall_mem_cons]
  exact ⟨⟨by decide, pgnPlain_showInt _⟩, ⟨by decide, pgnPlain_date now⟩, ⟨by decide, hround⟩,
    ⟨by decide, hblack⟩, ⟨by decide, hwhite⟩, ⟨by decide, hresult⟩, ⟨by decide, hreason⟩,
    ⟨by decide, pgnPlain_showInt _⟩, fun t ht => absurd ht List.not_mem_nil⟩

/-- **The text is that of the document.** A name with a quote in it would end the value
early. -/
theorem exportPgn_eq {g : Game} (hblack : Pgn.Plain (g.names .black))
    (hwhite : Pgn.Plain (g.names .white)) (round game gameIdx : Nat) (now : LocalTime) :
    g.exportPgn round game gameIdx now = (g.pgnGame round game gameIdx now).text := by
  have htags : (g.pgnGame round game gameIdx now).tags.flatMap Pgn.tagText =
      (g.pgnGame round game gameIdx now).tags.flatMap fun t => pgnTag t.1 t.2 :=
    List.flatMap_congr fun t ht =>
      (pgnTag_eq (pgnGame_tags hblack hwhite round game gameIdx now t ht).2).symm
  rw [exportPgn, cString_of_plain hblack, cString_of_plain hwhite, Pgn.Game.text, htags]
  simp only [pgnGame, List.flatMap_cons, List.flatMap_nil, List.append_assoc, List.nil_append]

theorem pgnGame_wellFormed {g : Game} (hblack : Pgn.Plain (g.names .black))
    (hwhite : Pgn.Plain (g.names .white)) (round game gameIdx : Nat) (now : LocalTime) :
    (g.pgnGame round game gameIdx now).WellFormed where
  names t ht := (pgnGame_tags hblack hwhite round game gameIdx now t ht).1
  values t ht c hc := ((pgnGame_tags hblack hwhite round game gameIdx now t ht).2 c hc).1
  moves _ hi := absurd hi List.not_mem_nil
  result := (pgnPlain_decodeState g).1

/-! ## The result -/

/-- The value of a tag. -/
def tagValue (p : Pgn.Game) (name : List Char) : List Char :=
  ((p.tags.find? fun t => t.1 = name).map Prod.snd).getD []

/-- The result of a game for the first of two players, if it is one of the two.  It is
computed from the tags, as a reader of the file would do it. -/
def scoreFor (first second : List Char) (p : Pgn.Game) : Option Result :=
  let black := tagValue p "Black".toList
  let white := tagValue p "White".toList
  if black = first ∧ white = second then
    if p.result = pgnResultTxt .win then some .win
    else if p.result = pgnResultTxt .loss then some .loss
    else if p.result = pgnResultTxt .draw then some .draw
    else none
  else if black = second ∧ white = first then
    if p.result = pgnResultTxt .win then some .loss
    else if p.result = pgnResultTxt .loss then some .win
    else if p.result = pgnResultTxt .draw then some .draw
    else none
  else none

theorem scoreFor_of_ne {first second : List Char} {p : Pgn.Game}
    (hblack : ¬ (tagValue p "Black".toList = first ∧ tagValue p "White".toList = second))
    (hwhite : ¬ (tagValue p "Black".toList = second ∧ tagValue p "White".toList = first)) :
    scoreFor first second p = none := by
  rw [scoreFor, if_neg hblack, if_neg hwhite]

end Game

namespace Match

variable {m : Match} {g final : Game} {result : Result}

/-- An engine that fails at `START` is the one to move.  Otherwise the report takes another
engine for the loser than `play` does. -/
def FailsInTurn (m : Match) : Prop := ∀ i, m.firstFailure = some i → i = m.reverse

instance (m : Match) : Decidable m.FailsInTurn :=
  inferInstanceAs (Decidable (∀ _, _ → _))

theorem accountsAgree_of_returned (h : Loads m g) (hturn : m.FailsInTurn) {final : PlayState}
    (hplay : m.play g = some (.returned result final)) : AccountsAgree m g result final.game := by
  obtain ⟨i, hfailure, -, rfl, hgame⟩ | ⟨s, t, -, hat, hbreaks, hresult, rfl⟩ :=
    returned_cases h hplay
  · rw [hgame]
    refine (accountsAgree_startFailure_iff h i ?_).mpr (hturn i hfailure)
    split
    · exact Or.inl rfl
    · exact Or.inr rfl
  · exact hbreaks.accountsAgree h hat hresult

/-- The result for the other side. -/
def flip : Result → Result
  | .loss => .win
  | .draw => .draw
  | .win => .loss

/-- The report is the result for the engine that has Black. -/
theorem AccountsAgree.decodeState (h : AccountsAgree m g result final)
    (restxt : Result → List Char) : (final.decodeState restxt).1 =
      restxt (if engineOfColor (g.pos 0).playerToMove m.reverse .black then flip result
        else result) := by
  have hwhite := engineOfColor_opponent (g.pos 0).playerToMove m.reverse Color.isStone_black
  cases result with
  | draw =>
      rw [h.draw_iff.mp rfl restxt]
      split <;> rfl
  | win =>
      obtain ⟨color, hcolor, hwins, hseat⟩ := h.win_iff.mp rfl
      rcases hcolor with rfl | rfl
      · rw [hwins, hseat]
        rfl
      · have hblack : engineOfColor (g.pos 0).playerToMove m.reverse .black = true := by
          rw [← Bool.not_eq_false', ← hwhite]
          exact hseat
        rw [hwins, hblack]
        rfl
  | loss =>
      obtain ⟨color, hcolor, hwins, hseat⟩ := h.loss_iff.mp rfl
      rcases hcolor with rfl | rfl
      · rw [hwins, hseat]
        rfl
      · have hblack : engineOfColor (g.pos 0).playerToMove m.reverse .black = false := by
          rw [← Bool.not_eq_true', ← hwhite]
          exact hseat
        rw [hwins, hblack]
        rfl

/-- The result for the first engine can be computed from the tags.  The colour of the engine
is read off its name, so the two names have to differ. -/
theorem AccountsAgree.scoreFor (h : AccountsAgree m g result final)
    (hne : m.engineName false ≠ m.engineName true) (round game gameIdx : Nat)
    (now : LocalTime) :
    Game.scoreFor (m.engineName false) (m.engineName true)
      (final.pgnGame round game gameIdx now) = some result := by
  have hblack : Game.tagValue (final.pgnGame round game gameIdx now) "Black".toList =
      m.engineName (engineOfColor (g.pos 0).playerToMove m.reverse .black) :=
    h.names .black Color.isStone_black
  have hwhite : Game.tagValue (final.pgnGame round game gameIdx now) "White".toList =
      m.engineName (!engineOfColor (g.pos 0).playerToMove m.reverse .black) := by
    rw [← engineOfColor_opponent _ _ Color.isStone_black]
    exact h.names .white Color.isStone_white
  have hresult : (final.pgnGame round game gameIdx now).result =
      Game.pgnResultTxt (if engineOfColor (g.pos 0).playerToMove m.reverse .black then
        flip result else result) := h.decodeState Game.pgnResultTxt
  cases hseat : engineOfColor (g.pos 0).playerToMove m.reverse .black with
  | false =>
      rw [hseat] at hblack hwhite hresult
      rw [Game.scoreFor, if_pos ⟨hblack, hwhite⟩, hresult]
      cases result <;> rfl
  | true =>
      rw [hseat] at hblack hwhite hresult
      rw [Game.scoreFor, if_neg fun hboth => hne (hboth.1.symm.trans hblack),
        if_pos ⟨hblack, hwhite⟩, hresult]
      cases result <;> rfl

end Match

end GomokuCli
