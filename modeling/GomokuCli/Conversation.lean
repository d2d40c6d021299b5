import GomokuCli.Adjudication
import GomokuCli.EngineView
import GomokuCli.Library.Interleaving

/-!
# The conversation with an engine

The Gomocup protocol says in which order lines may be sent to an engine and answered by it.
`converse` is the protocol as an automaton: after `START` come the lines about the game;
before every move the time that is left, then one command that makes the engine think; and
then nothing until it has answered.  `BEGIN` is for an engine that has no position yet, and
`TURN` for one that has.  A position is sent between `BOARD` and `DONE`.  That the board is
empty at `BEGIN` cannot be told from the lines, and is a clause of its own.

The main result is that both engines of a game are spoken to in this way in every round,
whatever they answer (`conversation`): the engine that is asked owes an answer, the other
one does not, and each has answered at its own plies.  Before the first round each engine
has to say that it is ready; how a game ends with an engine that does not is
`play_of_waitForOk`.
-/

namespace GomokuCli

open EarlyExit Interleaving

/-- Where the conversation with an engine stands.  The engine has a position if `known`,
which decides between `BEGIN` and `TURN`. -/
inductive Dialogue
  /-- before `START` -/
  | closed
  | idle (known : Bool)
  /-- the engine knows the time that it has left -/
  | timed (known : Bool)
  /-- between `BOARD` and `DONE` -/
  | placing
  /-- the engine is to answer -/
  | thinking
  deriving DecidableEq, Repr

/-- The engine waits for the referee: it owes no answer, and has perhaps been told the time
already. -/
def Dialogue.Waits (known : Bool) (d : Dialogue) : Prop := d = .idle known ∨ d = .timed known

/-- The protocol: which lines and answers are due, and what they lead to.  Whatever is not
listed is a breach of the protocol, and has no next state. -/
def converse : Event → Dialogue → Option Dialogue
  | .sent (.start _), .closed => some (.idle false)
  | .sent (.info key _), .idle known =>
      if key = "time_left".toList then some (.timed known)
      else if known then none else some (.idle false)
  | .sent (.info key _), .timed known =>
      if key = "time_left".toList then some (.timed known)
      else if known then none else some (.timed false)
  | .sent .begin, .timed false => some .thinking
  | .sent (.turn _ _), .timed true => some .thinking
  | .sent .board, .timed _ => some .placing
  | .sent (.stone _ _ gomocupColorIdx), .placing =>
      if gomocupColorIdx = 1 ∨ gomocupColorIdx = 2 then some .placing else none
  | .sent .done, .placing => some .thinking
  | .answered _ _, .thinking => some (.idle true)
  | _, _ => none

/-- The number of answers in a log. -/
def answersIn (log : List Event) : Nat :=
  log.countP fun e => match e with
    | .answered _ _ => true
    | .sent _ => false

theorem answersIn_append (log log' : List Event) :
    answersIn (log ++ log') = answersIn log + answersIn log' := List.countP_append

theorem answersIn_sent (commands : List Command) : answersIn (commands.map .sent) = 0 :=
  List.countP_eq_zero.mpr fun e he => by
    obtain ⟨c, -, rfl⟩ := List.mem_map.mp he
    exact Bool.false_ne_true

/-! ## The answer to `START` -/

/-- `Engine::wait_for_ok` on the lines that can be read, and what `is_crashed` says when
there are no more. -/
def waitForOk (crashed : Bool) : List (List Char) → StartReply
  | [] => { ok := false, crashed := crashed }
  | line :: lines =>
      if "ERROR".toList <+: line then { ok := false, crashed := false }
      else if line = "OK".toList then { ok := true, crashed := false }
      else waitForOk crashed lines

/-- A line that lets `wait_for_ok` go on. -/
def KeepsWaiting (line : List Char) : Prop := ¬"ERROR".toList <+: line ∧ line ≠ "OK".toList

/-- The engine says that it is ready, before it reports an error. -/
def SaysOk (lines : List (List Char)) : Prop :=
  ∃ before after, lines = before ++ "OK".toList :: after ∧ ∀ line ∈ before, KeepsWaiting line

theorem waitForOk_cons {line : List Char} (h : KeepsWaiting line) (crashed : Bool)
    (lines : List (List Char)) : waitForOk crashed (line :: lines) = waitForOk crashed lines := by
  rw [waitForOk, if_neg h.1, if_neg h.2]

theorem waitForOk_ok_iff {crashed : Bool} {lines : List (List Char)} :
    (waitForOk crashed lines).ok = true ↔ SaysOk lines := by
  induction lines with
  | nil =>
      refine iff_of_false Bool.false_ne_true ?_
      rintro ⟨before, after, h, -⟩
      exact List.cons_ne_nil _ _ (List.append_eq_nil_iff.mp h.symm).2
  | cons line lines ih =>
      by_cases hline : KeepsWaiting line
      · rw [waitForOk_cons hline, ih]
        constructor
        · rintro ⟨before, after, rfl, hbefore⟩
          exact ⟨line :: before, after, rfl, List.forall_mem_cons.mpr ⟨hline, hbefore⟩⟩
        · rintro ⟨before, after, hsplit, hbefore⟩
          cases before with
          | nil =>
              cases hsplit
              exact absurd rfl hline.2
          | cons first before =>
              cases hsplit
              exact ⟨before, after, rfl, fun l hl => hbefore l (.tail _ hl)⟩
      · have hfirst : SaysOk (line :: lines) ↔ line = "OK".toList := by
          constructor
          · rintro ⟨before, after, hsplit, hbefore⟩
            cases before with
            | nil => exact (List.cons.inj hsplit).1
            | cons first before =>
                cases hsplit
                exact absurd (hbefore line (.head _)) hline
          · rintro rfl
            exact ⟨[], lines, rfl, fun l hl => absurd hl List.not_mem_nil⟩
        rw [hfirst, waitForOk]
        split
        next herror =>
          refine iff_of_false Bool.false_ne_true ?_
          rintro rfl
          exact absurd herror (by decide)
        next herror =>
          have hok : line = "OK".toList := not_not.mp fun h => hline ⟨herror, h⟩
          rw [if_pos hok]
          exact iff_of_true rfl hok

/-- A crash is only found when there are no more lines. -/
theorem waitForOk_crashed_iff {crashed : Bool} {lines : List (List Char)} :
    (waitForOk crashed lines).crashed = true ↔
      crashed = true ∧ ∀ line ∈ lines, KeepsWaiting line := by
  induction lines with
  | nil => exact ⟨fun h => ⟨h, fun l hl => absurd hl List.not_mem_nil⟩, And.left⟩
  | cons line lines ih =>
      by_cases hline : KeepsWaiting line
      · rw [waitForOk_cons hline, ih, List.forall_mem_cons, and_iff_right hline]
      · refine iff_of_false ?_ fun h => hline (h.2 line (.head _))
        rw [waitForOk]
        split
        next => exact Bool.false_ne_true
        next herror =>
          rw [if_pos (not_not.mp fun h => hline ⟨herror, h⟩)]
          exact Bool.false_ne_true

namespace Match

open PlayState EngineView Position

variable {m : Match} {g : Game} {s s' t : PlayState}

/-- **How a game ends before its first move.** The first engine that does not say that it is
ready loses.  It has crashed only if its lines have come to an end without an error, and
else it counts as late.  The second engine is not even started when the first one has
failed. -/
theorem play_of_waitForOk {lines : Bool → List (List Char)} {crashed : Bool → Bool}
    (h : ∀ i, m.startReply i = waitForOk (crashed i) (lines i))
    (hfatal : m.options.fatalError = false) {i : Bool} (hnot : ¬SaysOk (lines i))
    (hfirst : i = true → SaysOk (lines false)) :
    ∃ final, m.play g = some (.returned (resultOfLoser i) final) ∧
      (final.game.state = .crashed ↔ crashed i = true ∧ ∀ line ∈ lines i, KeepsWaiting line) ∧
      (final.game.state ≠ .crashed → final.game.state = .timeLoss) := by
  have hok : ∀ j, (m.startReply j).ok = true ↔ SaysOk (lines j) := fun j => by
    rw [h, waitForOk_ok_iff]
  have hfailure : m.firstFailure = some i := by
    cases i with
    | false => rw [firstFailure, if_neg (mt (hok false).mp hnot)]
    | true =>
        rw [firstFailure, if_pos ((hok false).mpr (hfirst rfl)), if_neg (mt (hok true).mp hnot)]
  obtain ⟨hnone, -⟩ | ⟨_, -, hexit, -⟩ | ⟨j, hj, -, final, herror, hgame⟩ := startPhase_cases m g
  · rw [hfailure] at hnone
    cases hnone
  · rw [hfatal] at hexit
    cases hexit
  · obtain rfl : i = j := by
      rw [hfailure] at hj
      exact Option.some.inj hj
    refine ⟨final, by rw [play, herror], ?_, ?_⟩
    · rw [hgame, ← waitForOk_crashed_iff, ← h]
      cases (m.startReply i).crashed with
      | true => exact iff_of_true rfl rfl
      | false => exact iff_of_false (fun h => by cases h) Bool.false_ne_true
    · rw [hgame]
      cases (m.startReply i).crashed with
      | true => exact fun hne => absurd rfl hne
      | false => exact fun _ => rfl

/-! ## The lines about the game -/

/-- Any lines with keys and values may follow `START`. -/
theorem runs_infos {commands : List Command}
    (hinfo : ∀ c ∈ commands, ∃ key value, c = .info key value) {d : Dialogue}
    (hd : d.Waits false) :
    ∃ d', runs converse (commands.map .sent) d = some d' ∧ d'.Waits false := by
  induction commands generalizing d with
  | nil => exact ⟨d, rfl, hd⟩
  | cons c commands ih =>
      obtain ⟨key, value, rfl⟩ := hinfo c (.head commands)
      have hfirst : ∃ d', converse (.sent (.info key value)) d = some d' ∧ d'.Waits false := by
        by_cases hkey : key = "time_left".toList
        · refine ⟨.timed false, ?_, Or.inr rfl⟩
          rcases hd with rfl | rfl <;> exact if_pos hkey
        · refine ⟨d, ?_, hd⟩
          rcases hd with rfl | rfl <;> exact if_neg hkey
      obtain ⟨d', hd', hwaits⟩ := hfirst
      obtain ⟨d'', hd'', hwaits'⟩ := ih (fun c hc => hinfo c (.tail _ hc)) hwaits
      refine ⟨d'', ?_, hwaits'⟩
      rw [List.map_cons, runs_cons, hd']
      exact hd''

theorem customInfo_infos (options : List (List Char)) (left right : List Char) :
    ∀ c ∈ customInfo options left right, ∃ key value, c = .info key value := by
  induction options generalizing left right with
  | nil =>
      intro c hc
      cases hc
  | cons option options ih =>
      intro c hc
      rw [customInfo] at hc
      rcases List.mem_cons.mp hc with rfl | hc
      · exact ⟨_, _, rfl⟩
      · exact ih _ _ c hc

theorem gameInfo_infos (eo : EngineOptions) (option : Options) :
    ∀ c ∈ gomocupGameInfoCommand eo option, ∃ key value, c = .info key value := by
  have hone : ∀ {key value : List Char} {c : Command}, c ∈ [Command.info key value] →
      ∃ key value, c = .info key value := fun hc => ⟨_, _, List.mem_singleton.mp hc⟩
  have hsome : ∀ {P : Prop} [Decidable P] {key value : List Char} {c : Command},
      c ∈ (if P then [Command.info key value] else []) → ∃ key value, c = .info key value := by
    intro P _ key value c hc
    split at hc
    · exact hone hc
    · cases hc
  intro c hc
  rw [gomocupGameInfoCommand] at hc
  simp only [List.mem_append] at hc
  rcases hc with ((((((hc | hc) | hc) | hc) | hc) | hc) | hc) | hc
  · exact hone hc
  · exact hsome hc
  · exact hone hc
  · exact hsome hc
  · exact hsome hc
  · exact hone hc
  · exact hsome hc
  · exact customInfo_infos _ _ _ c hc

theorem runs_greeting (m : Match) (i : Bool) :
    ∃ d, runs converse (m.greeting i) .closed = some d ∧ d.Waits false :=
  runs_infos (gameInfo_infos (m.engineOptions i) m.options) (Or.inl rfl)

/-! ## The position -/

theorem runs_sendBoardCommand (P : Position) (known : Bool) :
    runs converse ((sendBoardCommand P).map .sent) (.timed known) = some .thinking := by
  have hstones : ∀ (is : List Nat) (stone : Nat → Command),
      (∀ i, ∃ x y c, stone i = .stone x y c ∧ (c = 1 ∨ c = 2)) →
        runs converse ((is.map stone).map .sent) .placing = some .placing := by
    intro is stone hstone
    induction is with
    | nil => rfl
    | cons i is ih =>
        obtain ⟨x, y, c, heq, hc⟩ := hstone i
        rw [List.map_cons, List.map_cons, runs_cons, heq, converse, if_pos hc]
        exact ih
  have hboard : ∀ (rest : List Command), runs converse ((.board :: rest).map .sent)
      (.timed known) = runs converse (rest.map .sent) .placing := fun _ => rfl
  rw [sendBoardCommand]
  dsimp only
  rw [List.cons_append, hboard, List.map_append, runs_append_of (hstones _ _ ?_)]
  · rfl
  · intro i
    refine ⟨_, _, _, rfl, ?_⟩
    split
    · exact Or.inr rfl
    · exact Or.inl rfl

/-- The command that makes the engine think is one that the protocol allows.  The engine has
no position on the empty board, which is the only case in which it is told to begin. -/
theorem runs_thinkCommand (m : Match) (s : PlayState)
    (hempty : s.position.moveCount = 0 → s.canUseTurn s.ei = false) :
    runs converse ((m.thinkCommand s).map .sent) (.timed (s.canUseTurn s.ei)) =
      some .thinking := by
  rw [thinkCommand]
  by_cases hfirst : s.position.moveCount = 0
  · rw [if_pos hfirst, hempty hfirst]
    rfl
  rw [if_neg hfirst]
  by_cases hturn : (m.options.useTURN && s.canUseTurn s.ei) = true
  · rw [if_pos hturn]
    rw [Bool.and_eq_true] at hturn
    rw [hturn.2]
    rfl
  · rw [if_neg hturn]
    exact runs_sendBoardCommand s.position _

/-! ## The conversations of a game -/

/-- **The invariant** at the head of a round, where both engines wait.  The flag that lets the
referee send `TURN` has to say what the engine knows, and it is set only by a move, so that
no engine is told to begin when it already has a position. -/
structure Conversing (m : Match) (s : PlayState) : Prop where
  /-- Both engines wait, and have a position if they may be sent `TURN`. -/
  waits : ∀ i, ∃ d, runs converse (s.log i) .closed = some d ∧ d.Waits (s.canUseTurn i)
  answers : ∀ i, answersIn (s.log i) = m.pliesOf i s.game.ply
  moved : ∀ i, s.canUseTurn i = true → 0 < s.game.ply

theorem Conversing.init (h : Started m g s) : Conversing m s := by
  have hply : s.game.ply = 0 := by rw [h.game]
  refine ⟨?_, ?_, ?_⟩
  · intro i
    rw [h.log, h.canUseTurn]
    exact runs_greeting m i
  · intro i
    rw [h.log, greeting, answersIn_sent, hply]
    unfold pliesOf firstPly
    split <;> rfl
  · intro i hi
    rw [h.canUseTurn] at hi
    cases hi

/-- What the engine to move is told, it may be told; and then it owes an answer.  Nothing
has been sent to the other one. -/
theorem Conversing.think (h : Conversing m s)
    (hempty : (asked s).position.moveCount = 0 → s.game.ply = 0) :
    runs converse ((m.thinkPhase (asked s)).log s.ei) .closed = some .thinking := by
  have hei : (asked s).ei = s.ei := by rw [(asked_sameTurn s).ei, enterPly_ei]
  obtain ⟨d, hd, hwaits⟩ := h.waits s.ei
  have htimed : ∀ key : List Char, converse (.sent (.info "time_left".toList key)) d =
      some (.timed (s.canUseTurn s.ei)) := by
    intro key
    rcases hwaits with rfl | rfl <;> rw [converse, if_pos rfl]
  have hthink := runs_thinkCommand m (asked s) fun hcount => by
    have hply := hempty hcount
    rw [asked_canUseTurn, hei]
    by_contra hflag
    exact absurd hply (h.moved s.ei (eq_true_of_ne_false hflag)).ne'
  rw [asked_canUseTurn, hei] at hthink
  rw [thinkPhase_log, hei, if_pos rfl, asked_log, runs_append_of hd, List.map_append,
    gomocupTurnInfoCommand, List.map_singleton, List.singleton_append, runs_cons, htimed]
  exact hthink

/-- What a round leaves in the logs. -/
theorem log_of_round (h : Continues m s s') :
    s'.log = Function.update (m.thinkPhase (asked s)).log s.ei
        ((m.thinkPhase (asked s)).log s.ei ++
          [.answered (answeredCell (m.moveReply s.game.ply).bestmove).1
            (answeredCell (m.moveReply s.game.ply).bestmove).2]) ∧
      s'.canUseTurn = Function.update s.canUseTurn s.ei true := by
  obtain ⟨t, hsame, -, hlog, hflags, rfl⟩ := h.recorded
  have hei : (asked s).ei = s.ei := by rw [(asked_sameTurn s).ei, enterPly_ei]
  have htei : t.ei = s.ei := hsame.ei.trans hei
  have htply : t.game.ply = s.game.ply := hsame.ply.trans (asked_ply s)
  have hthink : t.log = (m.thinkPhase (asked s)).log := hlog
  constructor
  · rw [← hthink, ← htei, ← htply]
    rfl
  · rw [← asked_canUseTurn s, ← hei]
    exact hflags

/-- **One round** ends with the answer of the engine that was asked.  The other engine is
still where it was after its own answer. -/
theorem Conversing.step (h : Conversing m s) (hcounts : Counts m s)
    (hempty : (asked s).position.moveCount = 0 → s.game.ply = 0)
    (hply : s'.game.ply = s.game.ply + 1) (hcontinues : Continues m s s') :
    Conversing m s' := by
  have hthink := h.think hempty
  have hei : (asked s).ei = s.ei := by rw [(asked_sameTurn s).ei, enterPly_ei]
  obtain ⟨-, hnext, hother⟩ := hcounts.pliesOf_ei
  obtain ⟨hlog, hflags⟩ := log_of_round hcontinues
  have hwaiting : (m.thinkPhase (asked s)).log (!s.ei) = s.log (!s.ei) := by
    rw [thinkPhase_log, hei, if_neg (by cases s.ei <;> simp), asked_log]
  refine ⟨fun i => ?_, fun i => ?_, fun i _ => by omega⟩
  · rw [hlog, hflags]
    by_cases hi : i = s.ei
    · rw [hi, Function.update_self, Function.update_self]
      exact ⟨.idle true, (runs_snoc_of hthink).trans rfl, Or.inl rfl⟩
    · obtain rfl : i = !s.ei := Bool.eq_not_of_ne hi
      rw [Function.update_of_ne hi, Function.update_of_ne hi, hwaiting]
      exact h.waits _
  · rw [hlog, hply]
    by_cases hi : i = s.ei
    · rw [hi, Function.update_self, hnext, answersIn_append, thinkPhase_log, hei, if_pos rfl,
        asked_log, answersIn_append, answersIn_sent, h.answers]
      rfl
    · obtain rfl : i = !s.ei := Bool.eq_not_of_ne hi
      rw [Function.update_of_ne hi, hwaiting, hother, h.answers]

/-- On the empty board nobody has moved, because every move leaves a stone. -/
theorem AtRound.ply_of_empty (h : Loads m g) (hs : AtRound m g s)
    (hcount : (asked s).position.moveCount = 0) : s.game.ply = 0 := by
  obtain ⟨cells, hfollows, -⟩ := h.follows
  obtain ⟨moves, hplaying⟩ := hs.playing h
  have hlength := (hplaying.follows hfollows).moveCount
  rw [hcount, List.length_append, length_moveCells] at hlength
  rw [hplaying.ply]
  omega

theorem AtRound.conversing (h : Loads m g) (hs : AtRound m g s) : Conversing m s := by
  refine hs.invariant (Conversing m) h (fun s₀ => .init) ?_
  intro t t' hat ht hround hcontinues
  exact ht.step (hat.counts h) (hat.ply_of_empty h)
    (counters_of_round (hat.shape h) hround).1 hcontinues

/-- `BEGIN` is not among the lines about the game. -/
theorem begin_notMem_greeting (m : Match) (i : Bool) : .sent .begin ∉ m.greeting i := by
  intro hmem
  obtain ⟨c, hc, hbegin⟩ := List.mem_map.mp hmem
  cases hbegin
  rcases List.mem_cons.mp hc with hstart | hinfo
  · cases hstart
  · obtain ⟨key, value, heq⟩ := gameInfo_infos _ _ _ hinfo
    cases heq

theorem moveCount_of_begin_mem {t : PlayState} (h : .begin ∈ m.thinkCommand t) :
    t.position.moveCount = 0 := by
  by_contra hcount
  rw [thinkCommand, if_neg hcount] at h
  split at h
  · cases List.mem_singleton.mp h
  · rw [sendBoardCommand, List.mem_append, List.mem_cons] at h
    rcases h with (hboard | hstone) | hdone
    · cases hboard
    · obtain ⟨i, -, hstone⟩ := List.mem_map.mp hstone
      cases hstone
    · cases List.mem_singleton.mp hdone

/-- What is sent in a round contains `BEGIN` only if the board is empty. -/
theorem begin_mem_think {i : Bool} (h : .sent .begin ∈ (m.thinkPhase (asked s)).log i) :
    .sent .begin ∈ s.log i ∨ (asked s).position.moveCount = 0 := by
  rw [thinkPhase_log, asked_log] at h
  split at h
  · rcases List.mem_append.mp h with hold | hnew
    · exact Or.inl hold
    · obtain ⟨c, hc, hbegin⟩ := List.mem_map.mp hnew
      cases hbegin
      rcases List.mem_append.mp hc with htime | hthink
      · cases List.mem_singleton.mp htime
      · exact Or.inr (moveCount_of_begin_mem hthink)
  · exact Or.inl h

/-- An empty board in a round is that of an empty opening. -/
theorem AtRound.opening_of_empty (h : Loads m g) (hs : AtRound m g s)
    (hcount : (asked s).position.moveCount = 0) : (g.pos 0).moveCount = 0 := by
  obtain ⟨cells, hfollows, -⟩ := h.follows
  obtain ⟨moves, hplaying⟩ := hs.playing h
  have hlength := (hplaying.follows hfollows).moveCount
  rw [hcount, List.length_append] at hlength
  rw [hfollows.moveCount]
  omega

/-- **`BEGIN`** is sent on the empty board only: an opening with a stone makes the first
command a `BOARD`. -/
theorem AtRound.begin_mem (h : Loads m g) (hs : AtRound m g s) :
    ∀ i, .sent .begin ∈ s.log i → (g.pos 0).moveCount = 0 := by
  refine hs.invariant (fun s => ∀ i, .sent .begin ∈ s.log i → (g.pos 0).moveCount = 0) h ?_ ?_
  · intro s₀ hstarted i hmem
    rw [hstarted.log] at hmem
    exact absurd hmem (begin_notMem_greeting m i)
  · intro t t' hat ih _ hcontinues i hmem
    have hthink : ∀ j, .sent .begin ∈ (m.thinkPhase (asked t)).log j →
        (g.pos 0).moveCount = 0 := fun j hj =>
      (begin_mem_think hj).elim (ih j) (hat.opening_of_empty h)
    rw [(log_of_round hcontinues).1] at hmem
    by_cases hi : i = t.ei
    · rw [hi, Function.update_self, List.mem_append, List.mem_singleton] at hmem
      exact hmem.elim (hthink t.ei) nofun
    · rw [Function.update_of_ne hi] at hmem
      exact hthink i hmem

/-- **Both engines are spoken to by the protocol.**  At the head of every round both wait,
and have answered at each of their plies so far.  Whenever one of them is asked, what it has
been sent until then follows the protocol and ends with a command to think, while the
other one still waits.  `BEGIN` has been sent at most on an empty board.

The answers are arbitrary, so that this is a property of the referee alone: it holds as
well with engines that never print anything that is not asked for. -/
theorem conversation (h : Loads m g) (hs : AtRound m g s) :
    (∀ i, ∃ d, runs converse (s.log i) .closed = some d ∧ d.Waits (s.canUseTurn i) ∧
      answersIn (s.log i) = m.pliesOf i s.game.ply) ∧
    ∀ t, m.rulesPhase s = .ok t →
      runs converse ((m.thinkPhase t).log t.ei) .closed = some .thinking ∧
      (∃ d, runs converse ((m.thinkPhase t).log (!t.ei)) .closed = some d ∧
        d.Waits (s.canUseTurn (!t.ei))) ∧
      ∀ i, .sent .begin ∈ (m.thinkPhase t).log i → (g.pos 0).moveCount = 0 := by
  have hconversing := hs.conversing h
  have hei : (asked s).ei = s.ei := by rw [(asked_sameTurn s).ei, enterPly_ei]
  refine ⟨fun i => ?_, fun t ht => ?_⟩
  · obtain ⟨d, hd, hwaits⟩ := hconversing.waits i
    exact ⟨d, hd, hwaits, hconversing.answers i⟩
  · obtain ⟨-, -, rfl⟩ := rulesPhase_eq_ok_iff.mp ht
    rw [hei]
    refine ⟨hconversing.think (hs.ply_of_empty h), ?_, fun i hi =>
      (begin_mem_think hi).elim (hs.begin_mem h i) (hs.opening_of_empty h)⟩
    rw [thinkPhase_log, hei, if_neg (by cases s.ei <;> simp), asked_log]
    exact hconversing.waits (!s.ei)

/-- Two engines that fill the diagonal of the empty board. -/
def diagonalMatch : Match :=
  casual {} fun ply => if ply = 0 then "7,7".toList else if ply = 1 then "8,8".toList
    else "9,9".toList

/-- In the third round the first engine is sent the move of the other one, which has
answered, too, and waits. -/
theorem conversation_diagonal :
    ∃ t, diagonalMatch.rulesPhase (diagonalMatch.headAfter (Game.ofOpening [] {}) 2) = .ok t ∧
      ((diagonalMatch.thinkPhase t).log false).getLast? = some (.sent (.turn 8 8)) ∧
      runs converse ((diagonalMatch.thinkPhase t).log false) .closed = some .thinking ∧
      (∃ d, runs converse ((diagonalMatch.thinkPhase t).log true) .closed = some d ∧
        d.Waits true) ∧
      ∀ i, answersIn ((diagonalMatch.headAfter (Game.ofOpening [] {}) 2).log i) = 1 := by
  have hloads : Loads diagonalMatch (Game.ofOpening [] {}) :=
    loads_ofOpening (by decide) (by decide)
  obtain ⟨hwaits, hasked⟩ := conversation hloads (atRound_headAfter (Game.ofOpening [] {}) rfl 2)
  have hrules := (rulesPhase_eq_ok_iff (m := diagonalMatch)
    (s := diagonalMatch.headAfter (Game.ofOpening [] {}) 2)).mpr
      ⟨by decide +kernel, fun hforced => hforced.1 rfl, rfl⟩
  obtain ⟨hthinking, hwaiting, -⟩ := hasked _ hrules
  refine ⟨_, hrules, rfl, hthinking, hwaiting, fun i => ?_⟩
  obtain ⟨d, -, -, hanswers⟩ := hwaits i
  rw [hanswers]
  cases i <;> rfl

end Match

end GomokuCli
