import GomokuCli.Bestmove
import GomokuCli.Completion
import GomokuCli.Library.Separated
import GomokuCli.SgfRun

/-!
# The messages of the engines

Both engines of a worker write what they say to one string, which the worker empties at the
start of a game and pushes to a file at its end.  A message is kept if it is read while the
engine may think (`BestmoveCall.heard`): behind `YXSTOP` nothing is kept, nor is what an
engine says before the game.

The file of a whole tournament can be read back (`msg_runs`).  In any interleaving it tells
of each saved game what the engines have said, move for move.
-/

namespace GomokuCli

open Decimal EarlyExit

/-! ## One call of `bestmove` -/

/-- The message in a line, if it is one. -/
def OutputLine.message (line : OutputLine) : Option (List Char) :=
  if (processCommonOutput (cString line.text)).1 = .message then
    some (processCommonOutput (cString line.text)).2
  else none

/-- The lines that are read until some time, the first of them at `now`, up to a move.  The
time is looked at before a line is read, so that the last one may be late. -/
def readUntil (limit : Int) : Int → List OutputLine → List OutputLine
  | _, [] => []
  | now, line :: output =>
      if limit < now then []
      else line :: if isValidMoveGomostr line.text then [] else readUntil limit line.readTime output

namespace BestmoveCall

variable {c : BestmoveCall} {s : Thinking} {line : OutputLine} {output : List OutputLine}
  {messages : List Char} {now : Int}

/-- The messages that the first loop reads.  In the second loop, behind `YXSTOP`, nothing is
kept. -/
def heard (c : BestmoveCall) (output : List OutputLine) : List (List Char) :=
  (readUntil c.graceLimit c.start output).filterMap OutputLine.message

theorem thinkOn_messages (hmessages : s.messages = some messages) :
    (c.thinkOn line s).messages =
      some (messages ++ line.message.toList.flatMap c.formatMessage) := by
  unfold thinkOn OutputLine.message
  dsimp only
  split
  · simp only [hmessages, Option.map_some, Option.toList_some, List.flatMap_singleton]
  · rw [Option.toList_none, List.flatMap_nil, List.append_nil]
    split <;> exact hmessages

theorem message_of_isMove (h : line.IsMove) : line.message = none := if_neg h.not_message

theorem thinkLoop_messages (hnow : s.turnTimeLeft = c.turnTimeLimit - now)
    (hresult : s.result = false) (hmessages : s.messages = some messages) :
    (c.thinkLoop output s).1.messages = some (messages ++
      ((readUntil c.graceLimit now output).filterMap OutputLine.message).flatMap
        c.formatMessage) := by
  induction output generalizing s now messages with
  | nil =>
      rw [thinkLoop]
      split <;> exact hmessages.trans (congrArg some (List.append_nil _).symm)
  | cons line output ih =>
      rw [readUntil]
      by_cases hgoes : c.GoesOn s
      case neg =>
        rw [thinkLoop_of_not_goesOn hgoes, if_pos]
        · exact hmessages.trans (congrArg some (List.append_nil _).symm)
        · rw [goesOn_iff hnow hresult] at hgoes
          exact not_le.mp hgoes
      have hle := (goesOn_iff hnow hresult).mp hgoes
      have hthink : (c.thinkOn line s).messages =
          some (messages ++ line.message.toList.flatMap c.formatMessage) :=
        thinkOn_messages hmessages
      rw [thinkLoop, if_pos hgoes, if_neg (not_lt.mpr hle)]
      by_cases hmove : line.IsMove
      · have hstop : ¬ c.GoesOn (c.thinkOn line s) := by
          rintro ⟨-, hnone⟩
          rw [(thinkOn_of_move hmove).1] at hnone
          cases hnone
        have hvalid : isValidMoveGomostr line.text = true := hmove
        rw [thinkLoop_of_not_goesOn hstop, hthink, if_pos hvalid, List.filterMap_cons,
          message_of_isMove hmove]
        rfl
      · have hsilent := (thinkOn_of_not_move (c := c) (s := s) hmove).1.trans hresult
        have hinvalid : ¬ isValidMoveGomostr line.text = true := hmove
        rw [ih thinkOn_turnTimeLeft hsilent hthink, if_neg hinvalid, List.append_assoc,
          ← List.flatMap_append]
        refine congrArg (fun texts => some (messages ++ List.flatMap c.formatMessage texts)) ?_
        rw [List.filterMap_cons]
        cases line.message <;> rfl

theorem stopLoop_messages (output : List OutputLine) (s : Thinking) :
    (stopLoop output s).1.messages = s.messages := by
  have hline : ∀ line s, (stopOn line s).messages = s.messages := by
    intro line s
    unfold stopOn
    dsimp only
    split <;> rfl
  induction output generalizing s with
  | nil => rfl
  | cons line output ih =>
      rw [stopLoop]
      split
      · exact hline line s
      · rw [ih, hline]

/-- **What a call adds to the messages** of the game: those that are heard, each with the
number of the move and the name of the engine, and nothing else. -/
theorem bestmove_messages (hmessages : c.engine.messages = some messages)
    (output : List OutputLine) :
    (c.bestmove output).1.messages =
      some (messages ++ (c.heard output).flatMap c.formatMessage) := by
  have hthink : (c.thinkLoop output c.initial).1.messages =
      some (messages ++ (c.heard output).flatMap c.formatMessage) :=
    thinkLoop_messages initial_turnTimeLeft rfl hmessages
  unfold bestmove
  split
  case h_1 s heq =>
    rw [heq] at hthink
    exact hthink
  case h_2 s rest heq =>
    rw [heq] at hthink
    split
    · exact hthink
    · rw [stopLoop_messages]
      exact hthink

end BestmoveCall

/-! ## One game -/

/-- A message, with the number of the move and the name of the engine. -/
structure Message where
  moveply : Nat
  name : List Char
  text : List Char
  deriving DecidableEq, Repr

/-- A message as it is written, up to the end of the line. -/
def Message.line (x : Message) : List Char :=
  showInt x.moveply ++ ") ".toList ++ x.name ++ ": ".toList ++ x.text

/-- What the engines print while they think, and when, ply for ply.  Nothing is assumed of
it; that the answers of the game are made of it is a condition of its own
(`TalkedGame.Fits`). -/
structure Talk where
  tolerance : Bool → Int
  start : Nat → Int
  output : Nat → List OutputLine

namespace Match

open PlayState Position

variable (m : Match) (T : Talk)

/-- The call of `bestmove` for the engine that is asked, with the messages so far. -/
def talkCall (s : PlayState) (messages : List Char) : BestmoveCall :=
  m.bestmoveCall (m.thinkPhase s)
    { name := m.engineName s.ei, tolerance := T.tolerance s.ei, messages := some messages }
    (T.start s.game.ply)

/-- The messages after a round of `play`. -/
def roundMessages (s : PlayState) (messages : List Char) : List Char :=
  match m.rulesPhase s with
  | .error _ => messages
  | .ok s => ((m.talkCall T s messages).bestmove (T.output s.game.ply)).1.messages.getD messages

/-- The messages after the loop of `play`. -/
def loopMessages : Nat → PlayState → List Char → List Char
  | 0, _, messages => messages
  | n + 1, s, messages =>
      match m.round s with
      | .error _ => m.roundMessages T s messages
      | .ok s' => loopMessages n s' (m.roundMessages T s messages)

/-- The string `messages` that `thread_start` pushes after the game. -/
def gameMessages (g : Game) (idx : Nat) : List Char :=
  let blackIdx := ((g.pos 0).playerToMove == .white) ^^ m.reverse
  let messages := List.replicate 40 '-' ++ "\n".toList
  let messages := messages ++ "Game ID: ".toList ++ showInt (idx + 1 : Nat) ++ "\n".toList
  let messages := messages ++ "Engines: ".toList ++ cString (m.engineName blackIdx) ++
    " x ".toList ++ cString (m.engineName !blackIdx) ++ "\n".toList
  match m.startPhase g with
  | .error _ => messages
  | .ok s => m.loopMessages T playFuel s messages

/-- What the engine that is asked in a round says. -/
def said (s : PlayState) : List Message :=
  match m.rulesPhase s with
  | .error _ => []
  | .ok s =>
      ((m.talkCall T s []).heard (T.output s.game.ply)).map
        (Message.mk (s.position.moveCount + 1) (cString (m.engineName s.ei)))

/-- What the engines say in a game. -/
def messagesOf (g : Game) : List Message :=
  match m.startPhase g with
  | .error _ => []
  | .ok s => (heads m.round playFuel s).flatMap (m.said T)

/-- The two engines of a game as they are written, the one with Black first. -/
def seats (g : Game) : List Char :=
  let blackIdx := ((g.pos 0).playerToMove == .white) ^^ m.reverse
  cString (m.engineName blackIdx) ++ " x ".toList ++ cString (m.engineName !blackIdx)

variable {m T} {g : Game} {s t : PlayState} {messages : List Char}

theorem roundMessages_eq (s : PlayState) (messages : List Char) :
    m.roundMessages T s messages =
      messages ++ (m.said T s).flatMap fun x => x.line ++ ['\n'] := by
  unfold roundMessages said
  cases m.rulesPhase s with
  | error e => exact (List.append_nil messages).symm
  | ok s =>
      have hcall := BestmoveCall.bestmove_messages (c := m.talkCall T s messages) rfl
        (T.output s.game.ply)
      dsimp only
      rw [hcall, Option.getD_some, List.flatMap_map]
      rfl

theorem loopMessages_eq (n : Nat) (s : PlayState) (messages : List Char) :
    m.loopMessages T n s messages = messages ++
      ((heads m.round n s).flatMap (m.said T)).flatMap fun x => x.line ++ ['\n'] := by
  induction n generalizing s messages with
  | zero => exact (List.append_nil messages).symm
  | succ n ih =>
      rw [loopMessages]
      cases hround : m.round s with
      | error e =>
          rw [heads_of_error hround, List.flatMap_singleton]
          exact roundMessages_eq s messages
      | ok s' =>
          rw [heads_of_ok hround, List.flatMap_cons, List.flatMap_append, ← List.append_assoc,
            ← roundMessages_eq]
          exact ih s' _

/-- **The text of a game**: a head of two lines, and a line for every message, in the order
in which they were read. -/
theorem gameMessages_eq (g : Game) (idx : Nat) :
    m.gameMessages T g idx = (List.replicate 40 '-' :: ("Game ID: ".toList ++
      showInt (idx + 1 : Nat)) :: ("Engines: ".toList ++ m.seats g) ::
        (m.messagesOf T g).map Message.line).flatMap fun l => l ++ ['\n'] := by
  unfold gameMessages messagesOf
  cases m.startPhase g with
  | error e => simp [seats, List.append_assoc]
  | ok s => simp [loopMessages_eq, seats, List.append_assoc, List.flatMap_map]

/-! ## What is told of a game -/

/-- The messages that are read while the engine may think, in the round of a ply. -/
def heardAt (m : Match) (T : Talk) (s : PlayState) : List (List Char) :=
  (m.talkCall T (asked s) []).heard (T.output s.game.ply)

/-- Some messages are those of a game: move for move what was read from the engine that was
asked, in order, with nothing left out and nothing added. -/
structure Tells (m : Match) (T : Talk) (g : Game) (messages : List Message) : Prop where
  inOrder : messages.Pairwise fun x y => x.moveply ≤ y.moveply
  all : ∀ s t, AtRound m g s → m.rulesPhase s = .ok t →
    messages.filter (fun x => x.moveply = (g.pos 0).moveCount + s.game.ply + 1) =
      (m.heardAt T s).map
        (Message.mk ((g.pos 0).moveCount + s.game.ply + 1) (cString (m.engineName s.ei)))
  only : ∀ x ∈ messages, ∃ s t, AtRound m g s ∧ m.rulesPhase s = .ok t ∧
    x.moveply = (g.pos 0).moveCount + s.game.ply + 1

/-- What is said in a round bears the number of its move. -/
theorem said_of_asked (h : Loads m g) (hs : AtRound m g s) (hasked : m.rulesPhase s = .ok t) :
    m.said T s = (m.heardAt T s).map
      (Message.mk ((g.pos 0).moveCount + s.game.ply + 1) (cString (m.engineName s.ei))) := by
  obtain ⟨cells, hstart, -⟩ := h.follows
  obtain ⟨moves, hplaying⟩ := hs.playing h
  obtain ⟨-, -, rfl⟩ := rulesPhase_eq_ok_iff.mp hasked
  have hcount : (asked s).position.moveCount = (g.pos 0).moveCount + s.game.ply := by
    rw [(hplaying.follows hstart).moveCount, List.length_append, length_moveCells,
      hstart.moveCount, hplaying.ply]
  have hei : (asked s).ei = s.ei := by
    rw [(asked_sameTurn s).ei, enterPly_ei]
  rw [said, hasked]
  dsimp only
  rw [hcount, hei, asked_ply]
  rfl

theorem moveply_of_mem_said (h : Loads m g) (hs : AtRound m g s) {x : Message}
    (hx : x ∈ m.said T s) :
    (∃ t, m.rulesPhase s = .ok t) ∧ x.moveply = (g.pos 0).moveCount + s.game.ply + 1 := by
  cases hasked : m.rulesPhase s with
  | error e =>
      rw [said, hasked] at hx
      cases hx
  | ok t =>
      rw [said_of_asked h hs hasked] at hx
      obtain ⟨text, -, rfl⟩ := List.mem_map.mp hx
      exact ⟨⟨t, rfl⟩, rfl⟩

/-- The rounds come in the order of their plies. -/
theorem heads_inOrder (h : Loads m g) (hs : AtRound m g s) (n : Nat) :
    (∀ t ∈ heads m.round n s, s.game.ply ≤ t.game.ply) ∧
      (heads m.round n s).Pairwise fun t u => t.game.ply < u.game.ply := by
  induction n generalizing s with
  | zero => exact ⟨fun t ht => absurd ht List.not_mem_nil, List.Pairwise.nil⟩
  | succ n ih =>
      cases hround : m.round s with
      | error e =>
          rw [heads_of_error hround]
          exact ⟨fun t ht => (List.mem_singleton.mp ht ▸ le_rfl), List.pairwise_singleton _ _⟩
      | ok s' =>
          obtain ⟨s₀, hs₀, hreach⟩ := hs
          have hs' : AtRound m g s' := ⟨s₀, hs₀, hreach.tail hround⟩
          have hply : s'.game.ply = s.game.ply + 1 :=
            (continues_of_round (AtRound.shape h ⟨s₀, hs₀, hreach⟩) hround).ply
          obtain ⟨hle, hlt⟩ := ih hs'
          rw [heads_of_ok hround]
          refine ⟨fun t ht => ?_, List.pairwise_cons.mpr ⟨fun t ht => ?_, hlt⟩⟩
          · rcases List.mem_cons.mp ht with rfl | ht
            · exact le_rfl
            · have := hle t ht
              omega
          · have := hle t ht
            omega

/-- The messages of a round among those of rounds with other numbers. -/
theorem filter_flatMap_of_pairwise {σ : Type*} {l : List σ} {f : σ → List Message} {key : σ → Nat}
    (hl : l.Pairwise fun s t => key s < key t) (hkey : ∀ s ∈ l, ∀ x ∈ f s, x.moveply = key s)
    {s : σ} (hs : s ∈ l) : (l.flatMap f).filter (fun x => x.moveply = key s) = f s := by
  obtain ⟨before, after, rfl⟩ := List.append_of_mem hs
  have hnone : ∀ t ∈ before ++ s :: after, key t ≠ key s →
      (f t).filter (fun x => x.moveply = key s) = [] := by
    intro t ht hne
    refine List.filter_eq_nil_iff.mpr fun x hx => ?_
    rw [hkey t ht x hx]
    exact fun heq => hne (of_decide_eq_true heq)
  obtain ⟨-, hafter, hbefore⟩ := List.pairwise_append.mp hl
  have hbeforeNil : (before.flatMap f).filter (fun x => x.moveply = key s) = [] := by
    rw [List.filter_flatMap, List.flatMap_eq_nil_iff]
    exact fun t ht => hnone t (List.mem_append_left _ ht) (hbefore t ht s (.head _)).ne
  have hafterNil : (after.flatMap f).filter (fun x => x.moveply = key s) = [] := by
    rw [List.filter_flatMap, List.flatMap_eq_nil_iff]
    exact fun t ht => hnone t (List.mem_append_right _ (.tail _ ht))
      ((List.pairwise_cons.mp hafter).1 t ht).ne'
  rw [List.flatMap_append, List.flatMap_cons, List.filter_append, List.filter_append, hbeforeNil,
    hafterNil, List.nil_append, List.append_nil, List.filter_eq_self]
  exact fun x hx => decide_eq_true (hkey s hs x hx)

/-- **The messages of a game** tell of it: in each round they are those of the engine that
was asked, and no other round has messages with this number. -/
theorem tells_messagesOf (h : Loads m g) : m.Tells T g (m.messagesOf T g) := by
  unfold messagesOf
  cases hs₀ : m.startPhase g with
  | error e =>
      refine ⟨List.Pairwise.nil, ?_, fun x hx => absurd hx List.not_mem_nil⟩
      rintro s t ⟨s₀, hok, -⟩
      rw [hs₀] at hok
      cases hok
  | ok s₀ =>
      have hat₀ : AtRound m g s₀ := ⟨s₀, hs₀, Reaches.refl s₀⟩
      obtain ⟨e, he⟩ := exists_play h
      rw [play, hs₀] at he
      obtain ⟨stop, hrun, -⟩ := Option.map_eq_some_iff.mp he
      have hmem : ∀ s, s ∈ heads m.round playFuel s₀ ↔ AtRound m g s := by
        intro s
        rw [mem_heads_iff hrun]
        constructor
        · exact fun hreach => ⟨s₀, hs₀, hreach⟩
        · rintro ⟨s₁, hs₁, hreach⟩
          rw [hs₀] at hs₁
          cases hs₁
          exact hreach
      have hlt := (heads_inOrder h hat₀ playFuel).2
      have hkey : ∀ s ∈ heads m.round playFuel s₀, ∀ x ∈ m.said T s,
          x.moveply = (g.pos 0).moveCount + s.game.ply + 1 :=
        fun s hs x hx => (moveply_of_mem_said h ((hmem s).mp hs) hx).2
      refine ⟨?_, ?_, ?_⟩
      · refine List.pairwise_flatMap.mpr ⟨fun s hs => ?_, hlt.imp_of_mem ?_⟩
        · refine List.pairwise_of_forall_mem_list fun x hx y hy => ?_
          rw [hkey s hs x hx, hkey s hs y hy]
        · intro s t hs ht hless x hx y hy
          rw [hkey s hs x hx, hkey t ht y hy]
          omega
      · intro s t hs hasked
        rw [← said_of_asked h hs hasked]
        refine filter_flatMap_of_pairwise (hlt.imp fun hless => ?_) hkey ((hmem s).mpr hs)
        omega
      · intro x hx
        obtain ⟨s, hs, hx⟩ := List.mem_flatMap.mp hx
        obtain ⟨⟨t, hasked⟩, hnumber⟩ := moveply_of_mem_said h ((hmem s).mp hs) hx
        exact ⟨s, t, (hmem s).mp hs, hasked, hnumber⟩

end Match

/-! ## Reading the file -/

/-- What the file tells of a game. -/
structure MessageSection where
  id : Nat
  seats : List Char
  messages : List Message
  deriving DecidableEq, Repr

/-- Read a number, and what stands behind it. -/
def readNumber (s : List Char) : Nat × List Char :=
  (digitsValue (s.takeWhile Char.isDigit), s.dropWhile Char.isDigit)

/-- Read a message off its line.  The name ends at the first colon, so that a name with a
colon is read wrongly. -/
def readMessage (line : List Char) : Option Message := do
  let (moveply, rest) := readNumber line
  let rest ← stringPrefix rest ") ".toList
  let text ← stringPrefix (rest.dropWhile (· ≠ ':')) ": ".toList
  return { moveply := moveply, name := rest.takeWhile (· ≠ ':'), text := text }

/-- Read the lines of a game. -/
def readMessageSection : List (List Char) → Option MessageSection
  | id :: seats :: lines => do
      let id ← stringPrefix id "Game ID: ".toList
      let seats ← stringPrefix seats "Engines: ".toList
      let messages ← lines.mapM readMessage
      return { id := (readNumber id).1, seats := seats, messages := messages }
  | _ => none

/-- Read a file of messages to its end. -/
def readMessages (text : List Char) : Option (List MessageSection) :=
  ((text.splitOn '\n').dropLast.splitOn (List.replicate 40 '-')).tail.mapM readMessageSection

/-- The lines of a game behind the line of dashes. -/
def MessageSection.lines (x : MessageSection) : List (List Char) :=
  ("Game ID: ".toList ++ showInt x.id) :: ("Engines: ".toList ++ x.seats) ::
    x.messages.map Message.line

/-- The name ends at the colon, and the text at the end of the line.  The first is a matter
of the names of the engines; the second always holds of what has been read as one line. -/
structure Message.Plain (x : Message) : Prop where
  name : ':' ∉ x.name ∧ '\n' ∉ x.name
  text : '\n' ∉ x.text

/-- A section of which every line is one line.  A line break inside of a message would make
two lines of it. -/
structure MessageSection.Plain (x : MessageSection) : Prop where
  seats : '\n' ∉ x.seats
  messages : ∀ message ∈ x.messages, message.Plain

theorem showInt_natCast (n : Nat) : showInt n = Nat.toDigits 10 n :=
  if_neg (not_lt.mpr (Int.natCast_nonneg n))

theorem isDigit_of_mem_showInt {n : Nat} {c : Char} (hc : c ∈ showInt n) : c.isDigit = true := by
  rw [showInt_natCast] at hc
  exact Nat.isDigit_of_mem_toDigits (by omega) (by omega) hc

theorem readNumber_append (n : Nat) {rest : List Char}
    (hrest : ∀ c t, rest = c :: t → c.isDigit = false) :
    readNumber (showInt n ++ rest) = (n, rest) := by
  have hdigits : ∀ c ∈ showInt n, c.isDigit = true := fun c => isDigit_of_mem_showInt
  obtain ⟨htake, hdrop⟩ := takeWhile_isDigit_append hdigits hrest
  rw [readNumber, htake, hdrop, showInt_natCast, digitsValue, Nat.ofDigitChars_ten_toDigits]

theorem stringPrefix_append (start s : List Char) : stringPrefix (start ++ s) start = some s := by
  have hprefix : start.isPrefixOf (start ++ s) = true :=
    List.isPrefixOf_iff_prefix.mpr (List.prefix_append start s)
  rw [stringPrefix, if_pos hprefix, List.drop_left]

/-- **A message is read off its line.** The name ends at the first colon, so that there must
not be one in it. -/
theorem readMessage_line {x : Message} (h : x.Plain) : readMessage x.line = some x := by
  have hnumber : readNumber x.line =
      (x.moveply, ") ".toList ++ (x.name ++ (": ".toList ++ x.text))) := by
    rw [Message.line, List.append_assoc, List.append_assoc, List.append_assoc,
      readNumber_append]
    rintro c t ⟨⟩
    rfl
  have hname : ∀ c ∈ x.name, decide (c ≠ ':') = true := by
    intro c hc
    refine decide_eq_true ?_
    rintro rfl
    exact h.name.1 hc
  have htake : (x.name ++ (": ".toList ++ x.text)).takeWhile (· ≠ ':') = x.name := by
    rw [List.takeWhile_append_of_pos hname]
    exact List.append_nil _
  have hdrop : (x.name ++ (": ".toList ++ x.text)).dropWhile (· ≠ ':') =
      ": ".toList ++ x.text := by
    rw [List.dropWhile_append_of_pos hname]
    rfl
  rw [readMessage, hnumber]
  simp only [stringPrefix_append, htake, hdrop, Option.bind_eq_bind, Option.bind_some]
  rfl

theorem readMessageSection_lines {x : MessageSection} (h : x.Plain) :
    readMessageSection x.lines = some x := by
  have hmessages : (x.messages.map Message.line).mapM readMessage = some x.messages := by
    rw [List.mapM_map]
    have hall : ∀ message ∈ x.messages, (readMessage ∘ Message.line) message = some (id message) :=
      fun message hmem => readMessage_line (h.messages message hmem)
    rw [mapM_of_forall hall, List.map_id]
  have hid : (readNumber (showInt x.id)).1 = x.id := by
    have hnumber : readNumber (showInt x.id ++ []) = (x.id, []) := readNumber_append x.id nofun
    rw [List.append_nil] at hnumber
    rw [hnumber]
  rw [MessageSection.lines, readMessageSection]
  simp only [stringPrefix_append, hmessages, hid, Option.bind_eq_bind, Option.bind_some]
  rfl

theorem notMem_line {x : Message} (h : x.Plain) : '\n' ∉ x.line := by
  have hnumber : '\n' ∉ showInt x.moveply := fun hmem =>
    absurd (isDigit_of_mem_showInt hmem) (by decide)
  simp only [Message.line, List.mem_append, not_or]
  exact ⟨⟨⟨⟨hnumber, by decide⟩, h.name.2⟩, by decide⟩, h.text⟩

theorem MessageSection.Plain.lines {x : MessageSection} (h : x.Plain) :
    ∀ l ∈ x.lines, '\n' ∉ l ∧ l ≠ List.replicate 40 '-' := by
  have hother : ∀ {c : Char} {l : List Char}, c ∈ l → c ≠ '-' → l ≠ List.replicate 40 '-' := by
    rintro c l hc hne rfl
    exact hne (List.eq_of_mem_replicate hc)
  intro l hl
  rcases List.mem_cons.mp hl with rfl | hl
  · refine ⟨?_, hother (c := 'G') (List.mem_append_left _ (by decide)) (by decide)⟩
    rw [List.mem_append, not_or]
    exact ⟨by decide, fun hmem => absurd (isDigit_of_mem_showInt hmem) (by decide)⟩
  rcases List.mem_cons.mp hl with rfl | hl
  · refine ⟨?_, hother (c := 'E') (List.mem_append_left _ (by decide)) (by decide)⟩
    rw [List.mem_append, not_or]
    exact ⟨by decide, h.seats⟩
  · obtain ⟨message, hmem, rfl⟩ := List.mem_map.mp hl
    refine ⟨notMem_line (h.messages message hmem), hother (c := ')') ?_ (by decide)⟩
    simp [Message.line]

/-- **The file is read back**: the sections of the games, each with its messages, are cut
apart at the lines of dashes, which no other line of the file looks like. -/
theorem readMessages_lines {sections : List MessageSection} (h : ∀ x ∈ sections, x.Plain) :
    readMessages (sections.flatMap fun x =>
      (List.replicate 40 '-' :: x.lines).flatMap fun l => l ++ ['\n']) = some sections := by
  have hlines : ∀ l ∈ sections.flatMap fun x => List.replicate 40 '-' :: x.lines, '\n' ∉ l := by
    intro l hl
    obtain ⟨x, hx, hl⟩ := List.mem_flatMap.mp hl
    rcases List.mem_cons.mp hl with rfl | hl
    · decide
    · exact ((h x hx).lines l hl).1
  have hsections : ∀ l ∈ sections.map MessageSection.lines, List.replicate 40 '-' ∉ l := by
    intro l hl hmem
    obtain ⟨x, hx, rfl⟩ := List.mem_map.mp hl
    exact ((h x hx).lines _ hmem).2 rfl
  have hsplit : (sections.flatMap fun x => List.replicate 40 '-' :: x.lines).splitOn
      (List.replicate 40 '-') = [] :: sections.map MessageSection.lines := by
    have hall : ([] ++ (sections.map MessageSection.lines).flatMap
        (List.cons (List.replicate 40 '-'))).splitOn (List.replicate 40 '-') =
          [] :: sections.map MessageSection.lines :=
      Separated.splitOn_sections List.not_mem_nil hsections
    rwa [List.nil_append, List.flatMap_map] at hall
  rw [← List.flatMap_assoc, readMessages, Separated.splitOn_lines hlines, List.dropLast_concat,
    hsplit, List.tail_cons, List.mapM_map]
  have hall : ∀ x ∈ sections, (readMessageSection ∘ MessageSection.lines) x = some (id x) :=
    fun x hx => readMessageSection_lines (h x hx)
  rw [mapM_of_forall hall, List.map_id]

/-! ## What an engine prints is one line -/

theorem mem_of_message {line : OutputLine} {text : List Char} (h : line.message = some text)
    {c : Char} (hc : c ∈ text) : c ∈ cString line.text := by
  have htail : ∀ s : List Char, c ∈ (processCommonOutput s).2 → c ∈ s := by
    intro s hmem
    unfold processCommonOutput at hmem
    cases hfound : outputKeywords.findSome? fun keyword =>
        (stringPrefix s keyword.2).map fun tail => (keyword.1, tail.drop 1) with
    | none =>
        simp only [hfound, Option.getD_none] at hmem
        exact hmem
    | some found =>
        simp only [hfound, Option.getD_some] at hmem
        obtain ⟨keyword, -, hkeyword⟩ := List.exists_of_findSome?_eq_some hfound
        obtain ⟨tail, hprefix, rfl⟩ := Option.map_eq_some_iff.mp hkeyword
        rw [stringPrefix_eq_some hprefix]
        exact List.mem_append_right _ (List.mem_of_mem_drop hmem)
  rw [OutputLine.message, Option.ite_none_right_eq_some] at h
  obtain ⟨-, h⟩ := h
  rw [Option.some.injEq] at h
  exact htail _ (h ▸ hc)

theorem mem_of_readUntil {limit now : Int} {output : List OutputLine} {line : OutputLine}
    (h : line ∈ readUntil limit now output) : line ∈ output := by
  induction output generalizing now with
  | nil => exact h
  | cons first output ih =>
      rw [readUntil] at h
      split at h
      · cases h
      · rcases List.mem_cons.mp h with rfl | h
        · exact .head output
        · split at h
          · cases h
          · exact .tail first (ih h)

/-- A character of a C string is not the one that ends it. -/
theorem toNat_ne_zero_of_mem_cString {s : List Char} {c : Char} (hc : c ∈ cString s) :
    c.toNat ≠ 0 := by
  have hchar : decide (c.toNat ≠ 0) = true :=
    List.mem_takeWhile_imp (p := fun c : Char => decide (c.toNat ≠ 0)) hc
  exact of_decide_eq_true hchar

namespace Match

variable {m : Match} {T : Talk} {g : Game}

/-- What a game tells of comes from the lines of the engines, and bears their names. -/
theorem mem_messagesOf {x : Message} (hx : x ∈ m.messagesOf T g) :
    (∃ i, x.name = cString (m.engineName i)) ∧
      ∃ ply, ∃ line ∈ T.output ply, ∀ c ∈ x.text, c ∈ cString line.text := by
  unfold messagesOf at hx
  split at hx
  · cases hx
  obtain ⟨s, -, hx⟩ := List.mem_flatMap.mp hx
  unfold said at hx
  split at hx
  · cases hx
  next t _ =>
    obtain ⟨text, htext, rfl⟩ := List.mem_map.mp hx
    obtain ⟨line, hline, hmessage⟩ := List.mem_filterMap.mp htext
    exact ⟨⟨t.ei, rfl⟩, t.game.ply, line, mem_of_readUntil hline, fun c => mem_of_message hmessage⟩

end Match

/-! ## The file of a tournament -/

/-- A game with what its engines print. -/
structure TalkedGame where
  m : Match
  talk : Talk
  opening : Game

/-- What the file tells of the game with an index. -/
def TalkedGame.told (p : TalkedGame) (idx : Nat) : MessageSection where
  id := idx + 1
  seats := p.m.seats p.opening
  messages := p.m.messagesOf p.talk p.opening

/-- The game has been played as `thread_start` does it, by engines that print one line at a
time and have names without a colon.  The name stands in front of every message, and ends
for a reader at the first colon; a name that is the command of the engine, for want of
another, can have one. -/
structure TalkedGame.Fits (o : Tournament) (p : TalkedGame) (idx : Nat) : Prop where
  loads : p.m.Loads p.opening
  returned : ∃ final, p.m.play p.opening = some (.returned (o.outcome idx) final)
  answers : ∀ s t messages, p.m.AtRound p.opening s → p.m.rulesPhase s = .ok t →
    ∃ crashed, p.m.moveReply t.game.ply = Match.replyOf
      ((p.m.talkCall p.talk t messages).bestmove (p.talk.output t.game.ply)).1 crashed
  lines : ∀ ply, ∀ line ∈ p.talk.output ply, '\n' ∉ line.text
  names : ∀ i, ':' ∉ p.m.engineName i ∧ '\n' ∉ p.m.engineName i
  record : o.record .msg idx = p.m.gameMessages p.talk p.opening idx

theorem mem_of_mem_cString {s : List Char} {c : Char} (hc : c ∈ cString s) : c ∈ s :=
  (List.takeWhile_sublist _).subset hc

variable {o : Tournament} {p : TalkedGame} {idx : Nat}

theorem TalkedGame.Fits.plain (h : p.Fits o idx) : (p.told idx).Plain := by
  have hname : ∀ i, ':' ∉ cString (p.m.engineName i) ∧ '\n' ∉ cString (p.m.engineName i) :=
    fun i => ⟨fun hmem => (h.names i).1 (mem_of_mem_cString hmem),
      fun hmem => (h.names i).2 (mem_of_mem_cString hmem)⟩
  refine ⟨?_, fun message hmem => ?_⟩
  · change '\n' ∉ p.m.seats p.opening
    simp only [Match.seats, List.mem_append, not_or]
    exact ⟨⟨(hname _).2, by decide⟩, (hname _).2⟩
  · obtain ⟨⟨i, hi⟩, ply, line, hline, htext⟩ := Match.mem_messagesOf hmem
    refine ⟨hi ▸ hname i, fun hmark => ?_⟩
    exact h.lines ply line hline (mem_of_mem_cString (htext _ hmark))

/-- What the writer of the file is given. -/
theorem TalkedGame.Fits.text (h : p.Fits o idx) : (o.itemOf .msg idx).text =
    (List.replicate 40 '-' :: (p.told idx).lines).flatMap fun l => l ++ ['\n'] := by
  have hstr : (o.itemOf .msg idx).str =
      (List.replicate 40 '-' :: (p.told idx).lines).flatMap fun l => l ++ ['\n'] :=
    h.record.trans (Match.gameMessages_eq p.opening idx)
  rw [← hstr]
  refine SeqStr.text_of_notMem fun hnull => ?_
  rw [hstr] at hnull
  obtain ⟨l, hl, hnull⟩ := List.mem_flatMap.mp hnull
  have hdigit : ∀ n : Nat, Char.ofNat 0 ∉ showInt n := fun n hmem =>
    absurd (isDigit_of_mem_showInt hmem) (by decide)
  have hname : ∀ i, Char.ofNat 0 ∉ cString (p.m.engineName i) := fun i hmem =>
    toNat_ne_zero_of_mem_cString hmem rfl
  rcases List.mem_append.mp hnull with hnull | hnull
  swap
  · exact absurd hnull (by decide)
  rcases List.mem_cons.mp hl with rfl | hl
  · exact absurd hnull (by decide)
  rcases List.mem_cons.mp hl with rfl | hl
  · rcases List.mem_append.mp hnull with hnull | hnull
    · exact absurd hnull (by decide)
    · exact hdigit _ hnull
  rcases List.mem_cons.mp hl with rfl | hl
  · simp only [TalkedGame.told, Match.seats, List.mem_append, or_assoc] at hnull
    rcases hnull with hnull | hnull | hnull | hnull
    · exact absurd hnull (by decide)
    · exact hname _ hnull
    · exact absurd hnull (by decide)
    · exact hname _ hnull
  · obtain ⟨message, hmem, rfl⟩ := List.mem_map.mp hl
    obtain ⟨⟨i, hi⟩, ply, line, -, htext⟩ := Match.mem_messagesOf hmem
    simp only [Message.line, List.mem_append, or_assoc] at hnull
    rcases hnull with hnull | hnull | hnull | hnull | hnull
    · exact hdigit _ hnull
    · exact absurd hnull (by decide)
    · exact hname i (hi ▸ hnull)
    · exact absurd hnull (by decide)
    · exact toNat_ne_zero_of_mem_cString (htext _ hnull) rfl

namespace Tournament

open Interleaving JobQueue

variable {s : State} {schedule : List Action} {n engines rounds games : Nat} {gauntlet : Bool}

/-- **The file of the messages.**  After any interleaving of the workers, also one that was
stopped, the file reads back as the saved games in the order of the games.  Of each it tells
move for move what its engines have said while they might think.

The order is that of the games and not of their ends, since the worker pushes the messages
with the index of its job; and they are those of one game, since a worker empties its
string before each (`TalkedGame.Fits.record`). -/
theorem msg_runs (played : Nat → TalkedGame)
    (hruns : runs (step o) schedule (start (new engines rounds games gauntlet)) = some s)
    (hwithin : Within n schedule) (hn : 0 < n) (hjoined : Joined n s)
    (hplayed : ∀ idx < (new engines rounds games gauntlet).jobs.length, o.saves idx = true →
      (played idx).Fits o idx) :
    readMessages (s.writer .msg).close.content =
        some ((o.savedTo .msg s.started).map fun idx => (played idx).told idx) ∧
      ∀ idx ∈ o.savedTo .msg s.started,
        (played idx).m.Tells (played idx).talk (played idx).opening
          ((played idx).told idx).messages := by
  have hfresh := new_fresh engines rounds games gauntlet
  have hending := ending_of_joined hfresh hruns hwithin hn hjoined
  have hstarted : s.started ≤ (new engines rounds games gauntlet).jobs.length :=
    (tracks_runs hfresh hruns).length_handedOut_le
  have hfits : ∀ idx ∈ o.savedTo .msg s.started, (played idx).Fits o idx := by
    intro idx hidx
    obtain ⟨hlt, hsaved⟩ := List.mem_filter.mp hidx
    refine hplayed idx ((List.mem_range.mp hlt).trans_le hstarted) ?_
    exact ((Bool.and_eq_true _ _).mp hsaved).1
  refine ⟨?_, fun idx hidx => Match.tells_messagesOf (hfits idx hidx).loads⟩
  have hcontent : (s.writer .msg).close.content =
      ((o.savedTo .msg s.started).map fun idx => (played idx).told idx).flatMap fun x =>
        (List.replicate 40 '-' :: x.lines).flatMap fun l => l ++ ['\n'] := by
    rw [hending.files, List.flatMap_map]
    exact List.flatMap_congr fun idx hidx => (hfits idx hidx).text
  rw [hcontent]
  refine readMessages_lines fun x hx => ?_
  obtain ⟨idx, hidx, rfl⟩ := List.mem_map.mp hx
  exact (hfits idx hidx).plain

/-- An engine that thinks aloud. -/
def aloudOutput : List OutputLine := [⟨"MESSAGE hm".toList, 3⟩, ⟨"7,7".toList, 5⟩]

/-- A game between two such engines.  The answer is the stone of the opening. -/
def aloud : TalkedGame where
  m := Match.patient aloudOutput
  talk := { tolerance := fun _ => 3000, start := fun _ => 0, output := fun _ => aloudOutput }
  opening := Game.ofOpening ['0', ',', '0'] {}

/-- A tournament of one game, whose result and messages are given. -/
def singleAloud (result : Result) : Tournament where
  gauntlet := false
  saveLoseOnly := false
  writes f := f == .msg
  sprtDone _ := false
  outcome _ := result
  record _ idx := aloud.m.gameMessages aloud.talk aloud.opening idx

theorem fits_aloud : ∃ result, aloud.Fits (singleAloud result) 0 := by
  obtain ⟨result, final, hplay⟩ := Match.exists_of_returns
    (show Match.returns (aloud.m.play aloud.opening) = true by decide +kernel)
  refine ⟨result, Match.loads_ofOpening (by decide) (by decide), ⟨final, hplay⟩, ?_, ?_, ?_, rfl⟩
  · intro s t messages _ _
    have hleft : (aloud.m.thinkPhase t).timeLeft t.ei = 2147483647 :=
      Function.update_self t.ei _ t.timeLeft
    refine ⟨false, ?_⟩
    unfold Match.talkCall Match.bestmoveCall
    rw [show (aloud.m.thinkPhase t).ei = t.ei from rfl, hleft]
    rfl
  · intro ply
    change ∀ line ∈ aloudOutput, '\n' ∉ line.text
    decide
  · intro i
    cases i <;> decide

theorem msg_runs_aloud : ∃ result s,
    runs (step (singleAloud result)) [.pop 0, .endGame 0, .push 0, .addResult 0, .goOn 0, .pop 0]
        (start (new 2 1 1 false)) = some s ∧
      readMessages (s.writer .msg).close.content = some [aloud.told 0] ∧
      (aloud.told 0).messages.map Message.text = ["hm".toList] := by
  obtain ⟨result, hfits⟩ := fits_aloud
  have hruns : ∃ s, runs (step (singleAloud result))
      [.pop 0, .endGame 0, .push 0, .addResult 0, .goOn 0, .pop 0]
      (start (new 2 1 1 false)) = some s ∧ s.phase 0 = .left ∧ s.started = 1 := ⟨_, rfl, rfl, rfl⟩
  obtain ⟨s, hs, hleft, hstarted⟩ := hruns
  have hjoined : Joined 1 s := by
    intro w hw
    obtain rfl := Nat.lt_one_iff.mp hw
    exact hleft
  obtain ⟨hread, -⟩ := msg_runs (fun _ => aloud) hs (by decide) (by decide) hjoined
    fun idx hidx _ => Nat.lt_one_iff.mp hidx ▸ hfits
  rw [hstarted] at hread
  exact ⟨result, s, hs, hread, by decide +kernel⟩

end Tournament

end GomokuCli
