import GomokuCli.Run

/-!
# Waiting for the answer of an engine

`Engine::bestmove` reads the output of the engine in two loops: until the time of
the turn is over, and then, after writing `YXSTOP`, until a move arrives.  Only
the first loop stores the move, and it looks at the time before it reads, not
after.

The clock is part of the input: every line comes with the time at which it is
read.  The list of lines ends where `readln` fails, be it that the engine has
crashed, that the deadline of the turn has terminated it, or that `YXSTOP` could
not be written.
-/

namespace GomokuCli

/-- A line that an engine prints, and when it is read.  The time is that at which `readln`
returns it, which is what the loop compares with its limits. -/
structure OutputLine where
  text : List Char
  readTime : Int
  deriving DecidableEq, Repr

/-- `Engine::OutputType` -/
inductive OutputType
  | direct | unknown | error | message | debug | suggest
  deriving DecidableEq, Repr

/-- `string_prefix` -/
def stringPrefix (s start : List Char) : Option (List Char) :=
  if start.isPrefixOf s then some (s.drop start.length) else none

/-- The keywords of `process_common_output`, in the order of the tests. -/
def outputKeywords : List (OutputType × List Char) :=
  [(.message, "MESSAGE".toList), (.debug, "DEBUG".toList), (.unknown, "UNKNOWN".toList),
    (.error, "ERROR".toList), (.suggest, "SUGGEST".toList)]

/-- `Engine::process_common_output`: the type of a line, and its tail.  A space is skipped
behind the keyword, if there is anything.  A line without a keyword is `direct`, and only
such a line can be a move. -/
def processCommonOutput (line : List Char) : OutputType × List Char :=
  let found := outputKeywords.findSome? fun keyword =>
    (stringPrefix line keyword.2).map fun tail => (keyword.1, tail.drop 1)
  found.getD (.direct, line)

/-- `Engine::parse_thinking_message` -/
def parseThinkingMessage (_line : List Char) (info : Info) : Info :=
  { info with score := 0, depth := 0 }

/-- The members of `class Engine` that `bestmove` uses. -/
structure Engine where
  name : List Char
  tolerance : Int
  /-- the messages of the game, if they are collected -/
  messages : Option (List Char)

/-- The arguments of a call of `bestmove`, and the time at which it starts. -/
structure BestmoveCall where
  engine : Engine
  timeLeft : Int
  maxTurnTime : Int
  best : List Char
  info : Info
  moveply : Int
  start : Int

/-- The local variables of `bestmove`, and what it writes to. -/
structure Thinking where
  timeLeft : Int
  turnTimeLeft : Int
  best : List Char
  info : Info
  messages : Option (List Char)
  result : Bool
  /-- `YXSTOP` has been written -/
  stopped : Bool

namespace BestmoveCall

variable (c : BestmoveCall)

def matchTimeLimit : Int := c.start + c.timeLeft

/-- The initial value of `turnTimeLeft`. -/
def turnTime : Int := if c.maxTurnTime > 0 then min c.timeLeft c.maxTurnTime else c.timeLeft

def turnTimeLimit : Int := c.start + c.turnTime

def moveOverhead : Int := c.engine.tolerance.tdiv 2

/-- The local variables before the first loop. -/
def initial : Thinking where
  timeLeft := c.timeLeft
  turnTimeLeft := c.turnTime
  best := c.best
  info := c.info
  messages := c.engine.messages
  result := false
  stopped := false

/-- `format("%i) %s: %s\n", moveply, name, tail)` -/
def formatMessage (tail : List Char) : List Char :=
  Decimal.showInt c.moveply ++ ") ".toList ++ Decimal.cString c.engine.name ++ ": ".toList ++
    tail ++ "\n".toList

/-- The condition of the first loop. -/
def GoesOn (s : Thinking) : Prop := 0 ≤ s.turnTimeLeft + c.moveOverhead ∧ s.result = false

instance (s : Thinking) : Decidable (c.GoesOn s) := inferInstanceAs (Decidable (_ ∧ _))

/-- The body of the first loop, once a line has been read. -/
def thinkOn (line : OutputLine) (s : Thinking) : Thinking :=
  let now := line.readTime
  let s := { s with
    info := { s.info with time := now - c.start }
    timeLeft := max (c.matchTimeLimit - now) 0
    turnTimeLeft := c.turnTimeLimit - now }
  let (type, tail) := processCommonOutput (Decimal.cString line.text)
  if type = .message then
    { s with
      messages := s.messages.map fun messages => messages ++ c.formatMessage tail
      info := parseThinkingMessage tail s.info }
  else if isValidMoveGomostr line.text then { s with best := line.text, result := true }
  else s

/-- The first loop, and the lines that are still to be read after it.  There is nothing
after it when `readln` fails.  The condition is tested before a line is read and not again
behind it, so a line may be read at any time after the limit. -/
def thinkLoop : List OutputLine → Thinking → Thinking × Option (List OutputLine)
  | [], s => if c.GoesOn s then (s, none) else (s, some [])
  | line :: output, s =>
      if c.GoesOn s then thinkLoop output (c.thinkOn line s) else (s, some (line :: output))

end BestmoveCall

/-- The body of the second loop, once a line has been read. -/
def stopOn (line : OutputLine) (s : Thinking) : Thinking :=
  let (type, tail) := processCommonOutput (Decimal.cString line.text)
  let s :=
    if type = .message then { s with info := parseThinkingMessage tail s.info } else s
  { s with result := isValidMoveGomostr line.text }

/-- The second loop, and the lines that are still to be read after it.  It waits for a move
but keeps neither the line nor its time, because the turn is lost anyway. -/
def stopLoop : List OutputLine → Thinking → Thinking × List OutputLine
  | [], s => (s, [])
  | line :: output, s =>
      if (stopOn line s).result then (stopOn line s, output)
      else stopLoop output (stopOn line s)

/-- `INT64_MIN` -/
def int64Min : Int := -9223372036854775808

/-- Write `YXSTOP` and mark the time that is left as negative. -/
def Thinking.stop (s : Thinking) : Thinking := { s with stopped := true, timeLeft := int64Min }

/-- `Engine::bestmove`, and the lines that are still to be read after it. -/
def BestmoveCall.bestmove (c : BestmoveCall) (output : List OutputLine) :
    Thinking × List OutputLine :=
  match c.thinkLoop output c.initial with
  | (s, none) => (s, [])
  | (s, some output) =>
      if s.result then (s, output)
      else stopLoop output s.stop

/-! ## Moves are not messages -/

/-- A line that starts with `M` is no move, because a number does not.  So the branch for
messages never hides a move. -/
theorem not_isValidMoveGomostr_of_message {line : List Char}
    (h : ∃ t, Decimal.cString line = 'M' :: t) : isValidMoveGomostr line = false := by
  obtain ⟨t, ht⟩ := h
  rw [Bool.eq_false_iff]
  intro hvalid
  obtain ⟨xstr, ystr, hcut, hx, -⟩ := (isValidMoveGomostr_iff line).mp hvalid
  cases line with
  | nil => cases ht
  | cons c line =>
      -- the line starts with an `M`
      have hc : c = 'M' := by
        unfold Decimal.cString at ht
        by_cases hnull : c.toNat = 0
        · simp [hnull] at ht
        · rw [List.takeWhile_cons_of_pos (by simpa using hnull)] at ht
          exact (List.cons.inj ht).1
      subst hc
      cases xstr with
      | nil => exact absurd (List.cons.inj hcut.eq).1 (by decide)
      | cons d xstr =>
          obtain rfl := (List.cons.inj hcut.eq).1
          obtain ⟨v, hv⟩ := (isNumber_iff _).mp hx
          cases hv with
          | missing hnil => cases hnil
          | number hnum =>
              have hhead : Decimal.isSpace 'M' = true ∨ 'M' = '-' ∨ 'M' = '+' ∨
                  ('M' : Char).isDigit = true := hnum.head
              revert hhead
              decide

theorem stringPrefix_eq_some {s start tail : List Char} (h : stringPrefix s start = some tail) :
    s = start ++ tail := by
  unfold stringPrefix at h
  split at h
  case isTrue hprefix =>
    obtain ⟨t, rfl⟩ := List.isPrefixOf_iff_prefix.mp hprefix
    rw [List.drop_left, Option.some.injEq] at h
    rw [h]
  case isFalse => cases h

theorem message_of_processCommonOutput {line : List Char}
    (h : (processCommonOutput line).1 = .message) : ∃ t, line = 'M' :: t := by
  unfold processCommonOutput at h
  cases hfound : outputKeywords.findSome? fun keyword =>
      (stringPrefix line keyword.2).map fun tail => (keyword.1, tail.drop 1) with
  | none =>
      simp only [hfound] at h
      cases h
  | some found =>
      simp only [hfound, Option.getD_some] at h
      obtain ⟨keyword, hmem, hkeyword⟩ := List.exists_of_findSome?_eq_some hfound
      obtain ⟨tail, hprefix, rfl⟩ := Option.map_eq_some_iff.mp hkeyword
      have honly : ∀ keyword ∈ outputKeywords, keyword.1 = .message →
          keyword = (.message, "MESSAGE".toList) := by
        decide
      have hkey := honly keyword hmem h
      rw [hkey] at hprefix
      exact ⟨_, stringPrefix_eq_some hprefix⟩

/-- The line is a move. -/
def OutputLine.IsMove (line : OutputLine) : Prop := isValidMoveGomostr line.text = true

theorem OutputLine.IsMove.not_message {line : OutputLine} (h : line.IsMove) :
    (processCommonOutput (Decimal.cString line.text)).1 ≠ .message := by
  intro hmessage
  have hnot := not_isValidMoveGomostr_of_message (message_of_processCommonOutput hmessage)
  exact Bool.false_ne_true (hnot.symm.trans h)

/-! ## What one line does -/

namespace BestmoveCall

variable {c : BestmoveCall} {line : OutputLine} {s : Thinking}

theorem thinkOn_turnTimeLeft :
    (c.thinkOn line s).turnTimeLeft = c.turnTimeLimit - line.readTime := by
  unfold thinkOn
  dsimp only
  split
  · rfl
  · split <;> rfl

theorem thinkOn_timeLeft :
    (c.thinkOn line s).timeLeft = max (c.matchTimeLimit - line.readTime) 0 := by
  unfold thinkOn
  dsimp only
  split
  · rfl
  · split <;> rfl

theorem thinkOn_of_move (h : line.IsMove) :
    (c.thinkOn line s).result = true ∧ (c.thinkOn line s).best = line.text := by
  have hvalid : isValidMoveGomostr line.text = true := h
  unfold thinkOn
  dsimp only
  rw [if_neg h.not_message, if_pos hvalid]
  exact ⟨rfl, rfl⟩

theorem thinkOn_of_not_move (h : ¬ line.IsMove) :
    (c.thinkOn line s).result = s.result ∧ (c.thinkOn line s).best = s.best := by
  have hinvalid : ¬ isValidMoveGomostr line.text = true := h
  unfold thinkOn
  dsimp only
  split
  · exact ⟨rfl, rfl⟩
  · exact ⟨rfl, rfl⟩

/-! ## The two loops -/

/-- The last time at which the first loop starts to read another line. -/
def graceLimit (c : BestmoveCall) : Int := c.turnTimeLimit + c.moveOverhead

/-- The first move that the engine prints, with what it prints before and after.  All that a
call hands back depends on the output only through this line and the times before it. -/
structure FirstMove (output before : List OutputLine) (line : OutputLine)
    (rest : List OutputLine) : Prop where
  eq : output = before ++ line :: rest
  none_before : ∀ earlier ∈ before, ¬ earlier.IsMove
  isMove : line.IsMove

/-- There is such a line, unless there is no move at all. -/
theorem exists_firstMove (output : List OutputLine) :
    (∀ line ∈ output, ¬ line.IsMove) ∨ ∃ before line rest, FirstMove output before line rest := by
  induction output with
  | nil => exact Or.inl fun line hline => nomatch hline
  | cons head output ih =>
      by_cases hmove : head.IsMove
      · exact Or.inr ⟨[], head, output, ⟨rfl, fun _ h => (nomatch h), hmove⟩⟩
      · rcases ih with hnone | ⟨before, line, rest, hfirst⟩
        · refine Or.inl fun line hline => ?_
          rcases List.mem_cons.mp hline with rfl | hline
          · exact hmove
          · exact hnone line hline
        · refine Or.inr ⟨head :: before, line, rest, ⟨?_, ?_, hfirst.isMove⟩⟩
          · rw [hfirst.eq, List.cons_append]
          · intro earlier hearlier
            rcases List.mem_cons.mp hearlier with rfl | hearlier
            · exact hmove
            · exact hfirst.none_before earlier hearlier

/-- The first loop is still running when the lines have been read: it looks at the time
after every one of them, and before the first.  It does not look at the time of the line
that it reads next. -/
structure StillThinking (c : BestmoveCall) (before : List OutputLine) : Prop where
  at_start : c.start ≤ c.graceLimit
  after_line : ∀ earlier ∈ before, earlier.readTime ≤ c.graceLimit

theorem goesOn_iff {now : Int} (hnow : s.turnTimeLeft = c.turnTimeLimit - now)
    (hresult : s.result = false) : c.GoesOn s ↔ now ≤ c.graceLimit := by
  unfold GoesOn graceLimit
  rw [hnow, and_iff_left hresult]
  omega

theorem not_goesOn_of_result (h : s.result = true) : ¬ c.GoesOn s := by
  rintro ⟨-, hresult⟩
  exact absurd (h.symm.trans hresult) (by decide)

/-- The loop ends as soon as its condition fails. -/
theorem thinkLoop_of_not_goesOn (h : ¬ c.GoesOn s) (output : List OutputLine) :
    c.thinkLoop output s = (s, some output) := by
  cases output with
  | nil => rw [thinkLoop, if_neg h]
  | cons line output => rw [thinkLoop, if_neg h]

/-- A move that the first loop reads is stored, and ends the loop.  By induction on the
lines before it: each of them leaves the loop where it was, only later. -/
theorem thinkLoop_of_stillThinking {before : List OutputLine} {now : Int}
    (rest : List OutputLine) (hnow : s.turnTimeLeft = c.turnTimeLimit - now)
    (hresult : s.result = false)
    (hstart : now ≤ c.graceLimit) (hbefore : ∀ earlier ∈ before, earlier.readTime ≤ c.graceLimit)
    (hnone : ∀ earlier ∈ before, ¬ earlier.IsMove) (hmove : line.IsMove) :
    ∃ s', c.thinkLoop (before ++ line :: rest) s = (s', some rest) ∧ s'.result = true ∧
      s'.best = line.text ∧ s'.timeLeft = max (c.matchTimeLimit - line.readTime) 0 := by
  induction before generalizing s now with
  | nil =>
      obtain ⟨hdone, hbest⟩ := thinkOn_of_move (c := c) (s := s) hmove
      rw [List.nil_append, thinkLoop, if_pos ((goesOn_iff hnow hresult).mpr hstart),
        thinkLoop_of_not_goesOn (not_goesOn_of_result hdone)]
      exact ⟨_, rfl, hdone, hbest, thinkOn_timeLeft⟩
  | cons head before ih =>
      obtain ⟨hhead, hbefore⟩ := List.forall_mem_cons.mp hbefore
      obtain ⟨hheadNone, hnone⟩ := List.forall_mem_cons.mp hnone
      rw [List.cons_append, thinkLoop, if_pos ((goesOn_iff hnow hresult).mpr hstart)]
      refine ih thinkOn_turnTimeLeft ?_ hhead hbefore hnone
      rw [(thinkOn_of_not_move hheadNone).1, hresult]

/-- When the time runs out before the first move, the first loop ends before it.  The move
is then still among the lines that the second loop reads. -/
theorem thinkLoop_of_late {before : List OutputLine} {now : Int}
    (line : OutputLine) (rest : List OutputLine)
    (hnow : s.turnTimeLeft = c.turnTimeLimit - now) (hresult : s.result = false)
    (hlate : c.graceLimit < now ∨ ∃ earlier ∈ before, c.graceLimit < earlier.readTime)
    (hnone : ∀ earlier ∈ before, ¬ earlier.IsMove) :
    ∃ s' before', c.thinkLoop (before ++ line :: rest) s = (s', some (before' ++ line :: rest)) ∧
      s'.result = false ∧ s'.best = s.best ∧ ∀ earlier ∈ before', ¬ earlier.IsMove := by
  induction before generalizing s now with
  | nil =>
      have hstop : ¬ c.GoesOn s := by
        rw [goesOn_iff hnow hresult, not_le]
        rcases hlate with hlate | ⟨earlier, hmem, -⟩
        · exact hlate
        · cases hmem
      exact ⟨s, [], thinkLoop_of_not_goesOn hstop _, hresult, rfl, hnone⟩
  | cons head before ih =>
      by_cases hgoes : c.GoesOn s
      · rw [goesOn_iff hnow hresult] at hgoes
        obtain ⟨hheadNone, hnone⟩ := List.forall_mem_cons.mp hnone
        obtain ⟨hkeep, hbest⟩ := thinkOn_of_not_move (c := c) (s := s) hheadNone
        have hlate' : c.graceLimit < head.readTime ∨
            ∃ earlier ∈ before, c.graceLimit < earlier.readTime := by
          rcases hlate with hlate | ⟨earlier, hmem, hlate⟩
          · exact absurd hgoes (not_le.mpr hlate)
          · rcases List.mem_cons.mp hmem with rfl | hmem
            · exact Or.inl hlate
            · exact Or.inr ⟨earlier, hmem, hlate⟩
        obtain ⟨s', before', hloop, hresult', hbest', hnone'⟩ :=
          ih thinkOn_turnTimeLeft (hkeep.trans hresult) hlate' hnone
        refine ⟨s', before', ?_, hresult', hbest'.trans hbest, hnone'⟩
        rw [List.cons_append, thinkLoop, if_pos ((goesOn_iff hnow hresult).mpr hgoes), hloop]
      · exact ⟨s, head :: before, thinkLoop_of_not_goesOn hgoes _, hresult, rfl, hnone⟩

/-- Without a move, the first loop has no result. -/
theorem thinkLoop_of_no_move {output : List OutputLine} (hresult : s.result = false)
    (hnone : ∀ line ∈ output, ¬ line.IsMove) :
    (c.thinkLoop output s).1.result = false ∧
      ∀ rest, (c.thinkLoop output s).2 = some rest → ∀ line ∈ rest, ¬ line.IsMove := by
  induction output generalizing s with
  | nil =>
      rw [thinkLoop]
      split
      · exact ⟨hresult, fun rest h => nomatch h⟩
      · exact ⟨hresult, fun rest h => Option.some.inj h ▸ hnone⟩
  | cons head output ih =>
      rw [thinkLoop]
      split
      · obtain ⟨hhead, hnone⟩ := List.forall_mem_cons.mp hnone
        exact ih ((thinkOn_of_not_move hhead).1.trans hresult) hnone
      · exact ⟨hresult, fun rest h => Option.some.inj h ▸ hnone⟩

end BestmoveCall

theorem stopOn_best (line : OutputLine) (s : Thinking) : (stopOn line s).best = s.best := by
  unfold stopOn
  dsimp only
  split <;> rfl

theorem stopOn_timeLeft (line : OutputLine) (s : Thinking) :
    (stopOn line s).timeLeft = s.timeLeft := by
  unfold stopOn
  dsimp only
  split <;> rfl

/-- The second loop ends with the first move, and does not store it. -/
theorem stopLoop_of_move {before : List OutputLine} {line : OutputLine}
    (rest : List OutputLine) (hnone : ∀ earlier ∈ before, ¬ earlier.IsMove)
    (hmove : line.IsMove) (s : Thinking) :
    ∃ s', stopLoop (before ++ line :: rest) s = (s', rest) ∧ s'.result = true ∧
      s'.best = s.best ∧ s'.timeLeft = s.timeLeft := by
  induction before generalizing s with
  | nil =>
      have hresult : (stopOn line s).result = true := hmove
      rw [List.nil_append, stopLoop, if_pos hresult]
      exact ⟨_, rfl, hresult, stopOn_best line s, stopOn_timeLeft line s⟩
  | cons head before ih =>
      obtain ⟨hhead, hnone⟩ := List.forall_mem_cons.mp hnone
      have hresult : ¬ (stopOn head s).result = true := hhead
      obtain ⟨s', hloop, hmoved, hbest, htime⟩ := ih hnone (stopOn head s)
      rw [List.cons_append, stopLoop, if_neg hresult]
      exact ⟨s', hloop, hmoved, hbest.trans (stopOn_best head s),
        htime.trans (stopOn_timeLeft head s)⟩

/-- Without a move, the second loop has no result. -/
theorem stopLoop_of_no_move {output : List OutputLine} {s : Thinking} (hresult : s.result = false)
    (hnone : ∀ line ∈ output, ¬ line.IsMove) : (stopLoop output s).1.result = false := by
  induction output generalizing s with
  | nil => exact hresult
  | cons head output ih =>
      obtain ⟨hhead, hnone⟩ := List.forall_mem_cons.mp hnone
      have hnot : ¬ (stopOn head s).result = true := hhead
      rw [stopLoop, if_neg hnot]
      exact ih (Bool.eq_false_iff.mpr hnot) hnone

/-! ## What a call hands back -/

namespace BestmoveCall

variable {c : BestmoveCall} {output before rest : List OutputLine} {line : OutputLine}

theorem initial_turnTimeLeft : c.initial.turnTimeLeft = c.turnTimeLimit - c.start := by
  unfold turnTimeLimit
  exact (add_sub_cancel_left _ _).symm

/-- A move that the first loop reads is handed back, with the time that is left.  That time
is never negative, even if the move was read after the limit. -/
theorem bestmove_of_stillThinking (hfirst : FirstMove output before line rest)
    (hthinking : c.StillThinking before) :
    ∃ s, c.bestmove output = (s, rest) ∧ s.result = true ∧ s.best = line.text ∧
      s.timeLeft = max (c.matchTimeLimit - line.readTime) 0 := by
  obtain ⟨rfl, hnone, hmove⟩ := hfirst
  obtain ⟨s, hloop, hresult, hbest, htime⟩ :=
    thinkLoop_of_stillThinking rest initial_turnTimeLeft rfl hthinking.at_start
      hthinking.after_line hnone hmove
  refine ⟨s, ?_, hresult, hbest, htime⟩
  simp only [bestmove, hloop, hresult, if_true]

/-- A move that the second loop reads is not handed back: `best` is as it was.  The time
that is left is `INT64_MIN` then, by which `play` sees the time loss. -/
theorem bestmove_of_not_stillThinking (hfirst : FirstMove output before line rest)
    (hstopped : ¬ c.StillThinking before) :
    ∃ s, c.bestmove output = (s, rest) ∧ s.result = true ∧ s.best = c.best ∧
      s.timeLeft = int64Min := by
  obtain ⟨rfl, hnone, hmove⟩ := hfirst
  have hlate : c.graceLimit < c.start ∨ ∃ earlier ∈ before, c.graceLimit < earlier.readTime := by
    by_contra hnot
    push Not at hnot
    exact hstopped ⟨hnot.1, hnot.2⟩
  obtain ⟨s, before', hloop, hresult, hbest, hnone'⟩ :=
    thinkLoop_of_late line rest initial_turnTimeLeft rfl hlate hnone
  obtain ⟨s', hstop, hresult', hbest', htime'⟩ :=
    stopLoop_of_move rest hnone' hmove s.stop
  refine ⟨s', ?_, hresult', hbest'.trans hbest, htime'⟩
  simp only [bestmove, hloop, hresult, Bool.false_eq_true, if_false, hstop]

/-- Without a move the call fails.  In this case `play` asks whether the engine has crashed
or has only been too slow. -/
theorem bestmove_of_no_move (hnone : ∀ line ∈ output, ¬ line.IsMove) :
    (c.bestmove output).1.result = false := by
  obtain ⟨hresult, hrest⟩ := thinkLoop_of_no_move (c := c) (s := c.initial) rfl hnone
  unfold bestmove
  split
  case h_1 s hloop =>
    rw [hloop] at hresult
    exact hresult
  case h_2 s rest hloop =>
    rw [hloop] at hresult hrest
    rw [if_neg (Bool.eq_false_iff.mp hresult)]
    exact stopLoop_of_no_move hresult (hrest rest rfl)

/-- The line that a call has taken as the answer: the last one that it has read.  Nothing
behind a move is read, so this is also the first move. -/
structure Accepted (output rest : List OutputLine) (line : OutputLine) : Prop where
  last_read : ∃ before, output = before ++ line :: rest
  isMove : line.IsMove

theorem FirstMove.accepted (h : FirstMove output before line rest) : Accepted output rest line :=
  ⟨⟨before, h.eq⟩, h.isMove⟩

theorem Accepted.eq_of_firstMove {other : OutputLine} (h : Accepted output rest other)
    (hfirst : FirstMove output before line rest) : other = line := by
  obtain ⟨before', heq⟩ := h.last_read
  have hsplit : (before' ++ [other]) ++ rest = (before ++ [line]) ++ rest := by
    rw [List.append_assoc, List.append_assoc]
    exact heq.symm.trans hfirst.eq
  have hread := List.append_cancel_right hsplit
  rw [← List.concat_eq_append, ← List.concat_eq_append] at hread
  exact (List.concat_inj.mp hread).2

/-- A successful call has met a move.  In particular a call cannot succeed because of a
message or of a line that cannot be read as a move. -/
theorem exists_firstMove_of_result (h : (c.bestmove output).1.result = true) :
    ∃ before line rest, FirstMove output before line rest := by
  rcases exists_firstMove output with hnone | hfirst
  · exact absurd (h.symm.trans (bestmove_of_no_move hnone)) (by decide)
  · exact hfirst

/-! ## Late answers -/

/-- If the call succeeds without a time loss, the move was read in time.  The grace of half
the tolerance belongs to the time of the turn here, as it does in the loop. -/
def AnswersInTime (c : BestmoveCall) (output : List OutputLine) : Prop :=
  (c.bestmove output).1.result = true → 0 ≤ (c.bestmove output).1.timeLeft →
    ∃ line, Accepted output (c.bestmove output).2 line ∧ line.readTime ≤ c.graceLimit

/-- **When a late move is a time loss.** It is unless it is the very line by which the loop
would have noticed: the first to be read after the limit.  Any other late line is followed
by a test of the time, and then a move only ends the second loop. -/
theorem answersInTime_iff (c : BestmoveCall) (output : List OutputLine) :
    c.AnswersInTime output ↔
      ∀ before line rest, FirstMove output before line rest → c.StillThinking before →
        line.readTime ≤ c.graceLimit := by
  constructor
  · intro hanswers before line rest hfirst hthinking
    obtain ⟨s, hcall, hresult, -, htime⟩ := bestmove_of_stillThinking hfirst hthinking
    rw [AnswersInTime, hcall] at hanswers
    obtain ⟨line', haccepted, hread⟩ := hanswers hresult (htime ▸ le_max_right _ _)
    rwa [haccepted.eq_of_firstMove hfirst] at hread
  · intro hcondition hresult htime
    obtain ⟨before, line, rest, hfirst⟩ := exists_firstMove_of_result hresult
    by_cases hthinking : c.StillThinking before
    · obtain ⟨s, hcall, -, -, -⟩ := bestmove_of_stillThinking hfirst hthinking
      rw [hcall]
      exact ⟨line, hfirst.accepted, hcondition before line rest hfirst hthinking⟩
    · -- the second loop leaves a negative time
      obtain ⟨s, hcall, -, -, hmin⟩ := bestmove_of_not_stillThinking hfirst hthinking
      rw [hcall, hmin] at htime
      exact absurd htime (by decide)

/-- One second for the turn, half a second of grace.  The turn starts at zero, so the times
of the lines are those since the start. -/
def oneSecond : BestmoveCall where
  engine := { name := [], tolerance := 1000, messages := none }
  timeLeft := 1000
  maxTurnTime := 1000
  best := []
  info := { score := 0, depth := 0, time := 0 }
  moveply := 1
  start := 0

/-- A move that is read after `1.9` seconds is in time if the engine has been
silent, and a time loss if it has printed a message after `1.6` seconds. -/
theorem bestmove_late_silent :
    oneSecond.graceLimit = 1500 ∧
      (oneSecond.bestmove [⟨"7,7".toList, 1900⟩]).1.result = true ∧
      (oneSecond.bestmove [⟨"7,7".toList, 1900⟩]).1.timeLeft = 0 ∧
      ¬ oneSecond.AnswersInTime [⟨"7,7".toList, 1900⟩] ∧
      (oneSecond.bestmove [⟨"MESSAGE ok".toList, 1600⟩, ⟨"7,7".toList, 1900⟩]).1.timeLeft =
        int64Min := by
  refine ⟨by decide, by decide, by decide, ?_, by decide⟩
  rw [AnswersInTime]
  intro hanswers
  obtain ⟨line, ⟨⟨before, hread⟩, -⟩, hintime⟩ := hanswers (by decide) (by decide)
  have hmem : line ∈ [(⟨"7,7".toList, 1900⟩ : OutputLine)] := by
    rw [hread]
    exact List.mem_append_right before List.mem_cons_self
  rw [List.mem_singleton.mp hmem] at hintime
  exact absurd hintime (by decide)

end BestmoveCall

/-! ## What `play` converts -/

/-- Some limit on the time of the engine is set: only then a time loss is declared.  Without
one the test of `play` is never made. -/
def EngineOptions.TimeControl (eo : EngineOptions) : Prop :=
  eo.timeoutTurn ≠ 0 ∨ eo.timeoutMatch ≠ 0 ∨ eo.increment ≠ 0

namespace Match

variable (m : Match)

/-- The call that `play` makes, for an engine at some time.  The string for the answer is
empty before the call, which matters because a late answer leaves it so. -/
def bestmoveCall (s : PlayState) (engine : Engine) (start : Int) : BestmoveCall where
  engine := engine
  timeLeft := s.timeLeft s.ei
  maxTurnTime := (m.engineOptions s.ei).timeoutTurn
  best := []
  info := { score := 0, depth := 0, time := 0 }
  moveply := s.position.moveCount + 1
  start := start

/-- What `play` sees of a call.  Whether the engine counts as crashed is only
asked after a failure. -/
def replyOf (s : Thinking) (crashed : Bool) : MoveReply where
  ok := s.result
  crashed := crashed
  timeLeft := s.timeLeft
  bestmove := s.best
  moveInfo := s.info

/-- The call was successful, no time loss is declared, and the string is converted to a
move.  This is the branch of `play` in which the answer of the engine is looked at. -/
def Converts (s : PlayState) (movestr : List Char) : Prop :=
  (m.moveReply s.game.ply).ok = true ∧ ¬ m.SoftTimeout (m.receive s) ∧
    movestr = (m.moveReply s.game.ply).bestmove

variable {m} {s : PlayState}

theorem softTimeout_receive_iff :
    m.SoftTimeout (m.receive s) ↔
      (m.engineOptions s.ei).TimeControl ∧ (m.moveReply s.game.ply).timeLeft < 0 := by
  have htime : (m.receive s).timeLeft (m.receive s).ei = (m.moveReply s.game.ply).timeLeft :=
    Function.update_self _ _ _
  unfold SoftTimeout
  rw [htime]
  rfl

theorem Converts.answerPhase {movestr : List Char} (h : m.Converts s movestr) :
    m.answerPhase s =
      match s.position.gomostrToMove movestr with
      | none => .error .aborted
      | some played => judgeMove { m.receive s with played := played } := by
  obtain ⟨hok, hintime, rfl⟩ := h
  unfold Match.answerPhase
  simp only [hok, Bool.not_true, Bool.false_eq_true, if_false, if_neg hintime]
  rfl

/-- Without a limit the call may take as long as an `int` of milliseconds. -/
theorem graceLimit_of_not_timeControl (h : ¬ (m.engineOptions s.ei).TimeControl)
    (engine : Engine) (start : Int) :
    (m.bestmoveCall (m.thinkPhase s) engine start).graceLimit =
      start + 2147483647 + engine.tolerance.tdiv 2 := by
  unfold EngineOptions.TimeControl at h
  push Not at h
  obtain ⟨hturn, hmatch, -⟩ := h
  have htime : (m.bestmoveCall (m.thinkPhase s) engine start).timeLeft = 2147483647 := by
    have hleft : (m.thinkPhase s).timeLeft s.ei =
        computeTimeLeft (m.engineOptions s.ei) (s.timeLeft s.ei) := Function.update_self _ _ _
    refine hleft.trans ?_
    rw [computeTimeLeft, hmatch]
    exact if_neg (lt_irrefl 0)
  have hmax : (m.bestmoveCall (m.thinkPhase s) engine start).maxTurnTime = 0 := hturn
  unfold BestmoveCall.graceLimit BestmoveCall.turnTimeLimit BestmoveCall.turnTime
  rw [hmax, if_neg (lt_irrefl 0), htime]
  rfl

/-- **What `play` converts** is a move that the engine has printed during the call, provided
that a limit is set or the move arrives before `YXSTOP` is written.  Without a limit the
second loop still reads a move, and the call succeeds, but `best` is then what it was before
the call: an empty string. -/
theorem converts_accepted_iff {engine : Engine} {start : Int} {output : List OutputLine}
    {crashed : Bool}
    (hreply : m.moveReply s.game.ply =
      replyOf ((m.bestmoveCall (m.thinkPhase s) engine start).bestmove output).1 crashed) :
    (∀ movestr, m.Converts (m.thinkPhase s) movestr →
        ∃ line, BestmoveCall.Accepted output
            ((m.bestmoveCall (m.thinkPhase s) engine start).bestmove output).2 line ∧
          line.text = movestr) ↔
      (m.engineOptions s.ei).TimeControl ∨
        ∀ before line rest, BestmoveCall.FirstMove output before line rest →
          (m.bestmoveCall (m.thinkPhase s) engine start).StillThinking before := by
  have hbest : (m.bestmoveCall (m.thinkPhase s) engine start).best = [] := rfl
  set c := m.bestmoveCall (m.thinkPhase s) engine start
  have hsoft : m.SoftTimeout (m.receive (m.thinkPhase s)) ↔
      (m.engineOptions s.ei).TimeControl ∧ (c.bestmove output).1.timeLeft < 0 := by
    rw [softTimeout_receive_iff]
    change (m.engineOptions s.ei).TimeControl ∧ (m.moveReply s.game.ply).timeLeft < 0 ↔ _
    rw [hreply]
    rfl
  have hconverts : ∀ movestr, m.Converts (m.thinkPhase s) movestr ↔
      (c.bestmove output).1.result = true ∧
        ¬ ((m.engineOptions s.ei).TimeControl ∧ (c.bestmove output).1.timeLeft < 0) ∧
          movestr = (c.bestmove output).1.best := by
    intro movestr
    unfold Converts
    rw [hsoft]
    change (m.moveReply s.game.ply).ok = true ∧ _ ∧ movestr = (m.moveReply s.game.ply).bestmove ↔ _
    rw [hreply]
    rfl
  constructor
  · intro hprinted
    by_contra hnot
    push Not at hnot
    obtain ⟨hcontrol, before, line, rest, hfirst, hstopped⟩ := hnot
    -- the second loop has read the move, and the string is still empty
    obtain ⟨t, hcall, hresult, hempty, -⟩ :=
      BestmoveCall.bestmove_of_not_stillThinking hfirst hstopped
    have hconverted : m.Converts (m.thinkPhase s) [] := by
      rw [hconverts, hcall]
      exact ⟨hresult, fun h => hcontrol h.1, (hempty.trans hbest).symm⟩
    obtain ⟨line', haccepted, htext⟩ := hprinted [] hconverted
    have hmove : isValidMoveGomostr line'.text = true := haccepted.isMove
    rw [htext] at hmove
    exact absurd hmove (by decide)
  · intro hcondition movestr hconverted
    rw [hconverts] at hconverted
    obtain ⟨hresult, hintime, rfl⟩ := hconverted
    obtain ⟨before, line, rest, hfirst⟩ := BestmoveCall.exists_firstMove_of_result hresult
    by_cases hthinking : c.StillThinking before
    · obtain ⟨t, hcall, -, htext, -⟩ := BestmoveCall.bestmove_of_stillThinking hfirst hthinking
      rw [hcall]
      exact ⟨line, hfirst.accepted, htext.symm⟩
    · -- a limit is set, and the negative time is a time loss
      exfalso
      obtain ⟨t, hcall, -, -, htime⟩ :=
        BestmoveCall.bestmove_of_not_stillThinking hfirst hthinking
      rcases hcondition with hcontrol | hcondition
      · rw [hcall] at hintime
        exact hintime ⟨hcontrol, htime ▸ (by decide)⟩
      · exact hthinking (hcondition before line rest hfirst)

/-- The engines of a match without limits, with the usual tolerance. -/
def patientEngine : Engine where
  name := []
  tolerance := 3000
  messages := none

/-- A match without limits, where each call of `bestmove` meets the same output after
the same time. -/
def patient (output : List OutputLine) : Match :=
  let call : BestmoveCall :=
    { engine := patientEngine, timeLeft := 2147483647, maxTurnTime := 0, best := [],
      info := { score := 0, depth := 0, time := 0 }, moveply := 2, start := 0 }
  { casual {} fun _ => [] with moveReply := fun _ => replyOf (call.bestmove output).1 false }

/-- The state in which the first engine is asked, after an opening of one stone. -/
def patientStart (output : List OutputLine) : PlayState :=
  asked (firstRound (patient output) (Game.ofOpening ['0', ',', '0'] {}))

/-- An engine that answers at once. -/
def promptOutput : List OutputLine := [⟨"7,7".toList, 5⟩]

theorem converts_accepted_prompt :
    ∃ line, BestmoveCall.Accepted promptOutput [] line ∧ line.text = "7,7".toList ∧
      (patient promptOutput).Converts
        ((patient promptOutput).thinkPhase (patientStart promptOutput)) "7,7".toList := by
  have hthinking : ∀ before line rest, BestmoveCall.FirstMove promptOutput before line rest →
      ((patient promptOutput).bestmoveCall
        ((patient promptOutput).thinkPhase (patientStart promptOutput))
        patientEngine 0).StillThinking before := by
    intro before line rest hfirst
    cases before with
    | nil => exact ⟨by decide, fun _ h => nomatch h⟩
    | cons head before => simpa [promptOutput] using hfirst.eq
  have hconverts : (patient promptOutput).Converts
      ((patient promptOutput).thinkPhase (patientStart promptOutput)) "7,7".toList := by
    refine ⟨by decide, ?_, by decide⟩
    rw [softTimeout_receive_iff]
    exact fun h => absurd h.2 (by decide)
  obtain ⟨line, haccepted, htext⟩ := (converts_accepted_iff
    (m := patient promptOutput) (s := patientStart promptOutput) rfl).mpr
      (Or.inr hthinking) "7,7".toList hconverts
  exact ⟨line, haccepted, htext, hconverts⟩

/-- An engine that says something after 24 days, and moves after that. -/
def lateOutput : List OutputLine :=
  [⟨"MESSAGE ok".toList, 2147485200⟩, ⟨"7,7".toList, 2147485300⟩]

/-- No limit is set, so that the late answer is no time loss; and what is converted is
the empty string, which the engine has not printed. -/
theorem converts_empty_late :
    ∃ s, AtRound (patient lateOutput) (Game.ofOpening ['0', ',', '0'] {}) s ∧
      (patient lateOutput).moveReply (asked s).game.ply =
        replyOf (((patient lateOutput).bestmoveCall ((patient lateOutput).thinkPhase (asked s))
          patientEngine 0).bestmove lateOutput).1 false ∧
      (patient lateOutput).Converts ((patient lateOutput).thinkPhase (asked s)) [] ∧
      isValidMoveGomostr [] = false ∧ ∀ line ∈ lateOutput, line.text ≠ [] := by
  refine ⟨firstRound (patient lateOutput) (Game.ofOpening ['0', ',', '0'] {}),
    atRound_firstRound _ rfl, rfl, ⟨by decide, ?_, by decide⟩, by decide, by decide⟩
  rw [softTimeout_receive_iff]
  rintro ⟨hturn | hmatch | hincrement, -⟩
  · exact hturn rfl
  · exact hmatch rfl
  · exact hincrement rfl

end Match

end GomokuCli
