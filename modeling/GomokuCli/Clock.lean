import GomokuCli.Adjudication
import GomokuCli.EngineView

/-!
# The clocks of a game

`play` keeps the time that each engine has left for the match, adds the increment before
it asks an engine, and tells it the sum.  `bestmove` takes off what the answer took.

The clock of an engine can be read off the times of its moves, which are also what the
records of the game say (`clock`).  The main result is that every line `INFO time_left`
is what this clock shows, for every behaviour of the engines, as long as they are
answered by `bestmove` (`timeLeft_line`).  A clock never shows more than the time for
the match and the increments so far, and never less than what is left of them after the
times of all moves (`clock_le`, `le_clock`); it shows more than that as soon as an engine
has gone over its time, because the clock stops at zero.
-/

namespace GomokuCli

open EarlyExit

/-! ## The time that a call takes -/

namespace BestmoveCall

variable {c : BestmoveCall} {s : Thinking}

/-- The time that is left is that at the start less what the call has taken.  It is kept
through the loop in which the engine thinks. -/
def Keeps (c : BestmoveCall) (s : Thinking) : Prop :=
  s.timeLeft = max (c.timeLeft - s.info.time) 0

theorem Keeps.initial (htime : c.info.time = 0) (hleft : 0 ≤ c.timeLeft) : c.Keeps c.initial := by
  change c.timeLeft = max (c.timeLeft - c.info.time) 0
  rw [htime, sub_zero, max_eq_left hleft]

theorem Keeps.thinkOn (line : OutputLine) (s : Thinking) : c.Keeps (c.thinkOn line s) := by
  have hnow : c.matchTimeLimit - line.readTime = c.timeLeft - (line.readTime - c.start) := by
    unfold matchTimeLimit
    omega
  unfold Keeps BestmoveCall.thinkOn
  dsimp only
  split
  · exact congrArg (max · 0) hnow
  · split <;> exact congrArg (max · 0) hnow

theorem Keeps.thinkLoop (output : List OutputLine) (h : c.Keeps s) :
    c.Keeps (c.thinkLoop output s).1 := by
  induction output generalizing s with
  | nil =>
      rw [BestmoveCall.thinkLoop]
      split <;> exact h
  | cons line output ih =>
      rw [BestmoveCall.thinkLoop]
      split
      · exact ih (.thinkOn line s)
      · exact h

theorem stopLoop_timeLeft (output : List OutputLine) (s : Thinking) :
    (stopLoop output s).1.timeLeft = s.timeLeft := by
  have hline : ∀ line s, (stopOn line s).timeLeft = s.timeLeft := by
    intro line s
    unfold stopOn
    dsimp only
    split <;> rfl
  induction output generalizing s with
  | nil => rfl
  | cons line output ih =>
      rw [stopLoop]
      split
      · exact hline line s
      · rw [ih, hline]

/-- **What a call leaves on the clock**, unless `YXSTOP` had to be written, when the clock
is set to a negative value. -/
theorem keeps_bestmove (htime : c.info.time = 0) (hleft : 0 ≤ c.timeLeft)
    (output : List OutputLine) (hintime : 0 ≤ (c.bestmove output).1.timeLeft) :
    c.Keeps (c.bestmove output).1 := by
  have hthink := (Keeps.initial htime hleft).thinkLoop output
  unfold bestmove at hintime ⊢
  split at hintime
  case h_1 s heq =>
    rw [heq] at hthink
    exact hthink
  case h_2 s rest heq =>
    rw [heq] at hthink
    split at hintime
    case isTrue hresult =>
      rw [if_pos hresult]
      exact hthink
    case isFalse hresult =>
      rw [stopLoop_timeLeft] at hintime
      have hmin : ¬ (0 : Int) ≤ int64Min := by decide
      exact absurd hintime hmin

end BestmoveCall

namespace Match

open PlayState

variable {m : Match} {g : Game} {s s' t : PlayState} {i : Bool}

/-! ## The clock of an engine -/

/-- What is added before an engine is asked. -/
def bonus (m : Match) (i : Bool) : Int := max (m.engineOptions i).increment 0

/-- The time that an engine took at its `j`-th move. -/
def moveTime (m : Match) (i : Bool) (j : Nat) : Int :=
  (m.moveReply (2 * j + m.firstPly i)).moveInfo.time

/-- The clock of an engine after some moves of its own.  It is computed from the times of
its moves alone, and stops at zero. -/
def clock (m : Match) (i : Bool) : Nat → Int
  | 0 => (m.engineOptions i).timeoutMatch
  | j + 1 => max (m.clock i j + m.bonus i - m.moveTime i j) 0

/-- The time that an engine is granted for its `j`-th move: what the clock shows and the
increment, or the largest `int` where there is no limit for the match. -/
def granted (m : Match) (i : Bool) (j : Nat) : Int :=
  if (m.engineOptions i).timeoutMatch > 0 then m.clock i j + m.bonus i else 2147483647

theorem clock_nonneg (h : 0 < (m.engineOptions i).timeoutMatch) (j : Nat) :
    0 ≤ m.clock i j := by
  cases j with
  | zero => exact h.le
  | succ j => exact le_max_right _ _

theorem clock_le (h : 0 < (m.engineOptions i).timeoutMatch) (j : Nat)
    (htimes : ∀ k < j, 0 ≤ m.moveTime i k) :
    m.clock i j ≤ (m.engineOptions i).timeoutMatch + j * m.bonus i := by
  have hbonus : 0 ≤ m.bonus i := le_max_right _ _
  induction j with
  | zero => simp [clock]
  | succ j ih =>
      have hprev := ih fun k hk => htimes k (Nat.lt_succ_of_lt hk)
      have htime := htimes j (Nat.lt_succ_self j)
      have hsum : ((j + 1 : Nat) : Int) * m.bonus i = j * m.bonus i + m.bonus i := by
        push_cast
        ring
      have hpos : 0 ≤ (j : Int) * m.bonus i := mul_nonneg (Int.natCast_nonneg j) hbonus
      rw [clock, hsum, max_le_iff]
      constructor <;> omega

theorem le_clock (j : Nat) :
    (m.engineOptions i).timeoutMatch + j * m.bonus i -
      ((List.range j).map (m.moveTime i)).sum ≤ m.clock i j := by
  induction j with
  | zero => simp [clock]
  | succ j ih =>
      have hsum : ((j + 1 : Nat) : Int) * m.bonus i = j * m.bonus i + m.bonus i := by
        push_cast
        ring
      rw [clock, hsum, List.range_succ, List.map_append, List.sum_append, List.map_singleton,
        List.sum_singleton]
      refine le_max_of_le_left ?_
      omega

/-! ## The clocks of `play` -/

/-- Every reply is that of the call of `bestmove` that `play` makes.  The engine may print
anything at any time in it. -/
def Timed (m : Match) (g : Game) : Prop :=
  ∀ s, AtRound m g s → ∃ engine start output crashed,
    m.moveReply s.game.ply = replyOf
      ((m.bestmoveCall (m.thinkPhase (asked s)) engine start).bestmove output).1 crashed

theorem asked_timeLeft (s : PlayState) : (asked s).timeLeft = s.timeLeft := by
  change s.enterPly.timeLeft = s.timeLeft
  unfold enterPly
  split <;> rfl

theorem asked_ei (s : PlayState) : (asked s).ei = s.ei := by
  rw [(asked_sameTurn s).ei, enterPly_ei]

/-- What a round does to the clocks. -/
theorem timeLeft_of_round (hshape : (asked s).position.BoardShape) (h : m.round s = .ok s') :
    s'.timeLeft = Function.update s.timeLeft s.ei (m.moveReply s.game.ply).timeLeft := by
  obtain ⟨v, hround⟩ := round_eq_of_accepts hshape (continues_of_round hshape h).accepts
  rw [h] at hround
  obtain ⟨t, hdraw, hround⟩ := bind_eq_ok.mp hround.symm
  obtain ⟨u, hresign, hrecord⟩ := bind_eq_ok.mp hround
  rw [drawPhase_eq_ok hdraw] at hresign
  rw [resignPhase_eq_ok hresign] at hrecord
  rw [← Except.ok.inj hrecord]
  change Function.update (Function.update (asked s).timeLeft (asked s).ei _) (asked s).ei
    (m.moveReply (asked s).game.ply).timeLeft = _
  rw [Function.update_idem, asked_timeLeft, asked_ei, asked_ply]

theorem timeLeft_of_startPhase (h : m.startPhase g = .ok s) (i : Bool) :
    s.timeLeft i = (m.engineOptions i).timeoutMatch := by
  obtain ⟨s₁, -, h⟩ := bind_eq_ok.mp h
  obtain ⟨s₂, -, h⟩ := bind_eq_ok.mp h
  obtain rfl := Except.ok.inj h
  rfl

/-- The clocks show what the times of the moves have left.  It is said of both engines,
since the one that is not asked must not lose time. -/
def ClocksRight (m : Match) (s : PlayState) : Prop :=
  ∀ i, 0 < (m.engineOptions i).timeoutMatch →
    s.timeLeft i = m.clock i (m.pliesOf i s.game.ply)

/-- The time that the engine is granted in a round. -/
theorem ClocksRight.granted (h : ClocksRight m s) :
    computeTimeLeft (m.engineOptions s.ei) (s.timeLeft s.ei) =
      m.granted s.ei (m.pliesOf s.ei s.game.ply) := by
  unfold computeTimeLeft Match.granted bonus
  by_cases hmatch : (m.engineOptions s.ei).timeoutMatch > 0
  · rw [if_pos hmatch, if_pos hmatch, h s.ei hmatch]
    split
    case isTrue hinc => rw [max_eq_left hinc.le]
    case isFalse hinc => rw [max_eq_right (not_lt.mp hinc), add_zero]
  · rw [if_neg hmatch, if_neg hmatch]

/-- **One round** takes the time of the move off the clock of the engine that moves, and
leaves the other clock alone. -/
theorem ClocksRight.step (h : ClocksRight m s) (hcounts : Counts m s)
    (hshape : (asked s).position.BoardShape) (hround : m.round s = .ok s')
    (hreply : ∃ engine start output crashed, m.moveReply s.game.ply = replyOf
      ((m.bestmoveCall (m.thinkPhase (asked s)) engine start).bestmove output).1 crashed) :
    ClocksRight m s' := by
  intro i hmatch
  obtain ⟨hmine, hnext, hother⟩ := hcounts.pliesOf_ei
  rw [timeLeft_of_round hshape hround, (counters_of_round hshape hround).1]
  by_cases hi : i = s.ei
  case neg =>
    obtain rfl : i = !s.ei := Bool.eq_not_of_ne hi
    rw [Function.update_of_ne hi, hother, h _ hmatch]
  subst hi
  rw [Function.update_self, hnext, clock, moveTime, hmine]
  obtain ⟨engine, start, output, crashed, hreply⟩ := hreply
  set c := m.bestmoveCall (m.thinkPhase (asked s)) engine start with hc
  -- the call starts with what the clock shows and the bonus
  have hleft : c.timeLeft = m.clock s.ei (m.pliesOf s.ei s.game.ply) + m.bonus s.ei := by
    have hgranted := h.granted
    rw [Match.granted, if_pos hmatch] at hgranted
    rw [← hgranted]
    change (m.thinkPhase (asked s)).timeLeft (asked s).ei = _
    rw [asked_ei]
    change Function.update (asked s).timeLeft (asked s).ei
      (computeTimeLeft (m.engineOptions (asked s).ei) ((asked s).timeLeft (asked s).ei)) s.ei = _
    rw [asked_ei, Function.update_self, asked_timeLeft]
  have hnonneg : 0 ≤ c.timeLeft := by
    rw [hleft]
    exact add_nonneg (clock_nonneg hmatch _) (le_max_right _ _)
  -- the answer came in time
  have hintime : 0 ≤ (c.bestmove output).1.timeLeft := by
    have hsoft := (continues_of_round hshape hround).accepts.inTime
    have hreplied : (m.moveReply (asked s).game.ply).timeLeft = (c.bestmove output).1.timeLeft := by
      rw [asked_ply, hreply]
      rfl
    by_contra hlate
    refine hsoft ((softTimeout_receive_iff (s := m.thinkPhase (asked s))).mpr ⟨?_, ?_⟩)
    · change (m.engineOptions (asked s).ei).TimeControl
      rw [asked_ei]
      exact Or.inr (Or.inl hmatch.ne')
    · change (m.moveReply (asked s).game.ply).timeLeft < 0
      rw [hreplied]
      exact not_le.mp hlate
  have hkeeps := BestmoveCall.keeps_bestmove (c := c) rfl hnonneg output hintime
  rw [hreply, ← hleft]
  exact hkeeps

/-- **The clocks of every round** are those that the moves of the two engines have left,
each at its own plies. -/
theorem AtRound.clocksRight (h : Loads m g) (htimed : Timed m g) (hs : AtRound m g s) :
    ClocksRight m s := by
  obtain ⟨s₀, hs₀, hreach⟩ := hs
  refine hreach.invariant (ClocksRight m) ?_ ?_
  · intro i _
    have hzero : m.pliesOf i 0 = 0 := by
      unfold pliesOf firstPly
      split <;> rfl
    have hply : s₀.game.ply = 0 := by
      rw [(started_of_startPhase hs₀).2.game]
    rw [timeLeft_of_startPhase hs₀, hply, hzero]
    rfl
  · intro t t' htreach ht hround
    have hat : AtRound m g t := ⟨s₀, hs₀, htreach⟩
    exact ht.step (hat.counts h) (hat.shape h) hround (htimed t hat)

/-- **Every engine is told its time.** Whenever an engine is asked for a move, what it is
sent begins with the time that it is granted: what its clock shows after the times of its
moves so far, and the increment; or the largest `int`, without a limit for the match.  The
times are those that the records of the game tell, so that a reader of the records can check
the clock. -/
theorem timeLeft_line (h : Loads m g) (htimed : Timed m g) (hs : AtRound m g s)
    (hasked : m.rulesPhase s = .ok t) :
    (m.thinkPhase t).log t.ei = t.log t.ei ++
      (.info "time_left".toList
          (Decimal.showInt (m.granted t.ei (m.pliesOf t.ei t.game.ply))) ::
        m.thinkCommand t).map .sent := by
  obtain ⟨-, -, rfl⟩ := rulesPhase_eq_ok_iff.mp hasked
  have hgranted : computeTimeLeft (m.engineOptions (asked s).ei)
      ((asked s).timeLeft (asked s).ei) =
        m.granted (asked s).ei (m.pliesOf (asked s).ei (asked s).game.ply) := by
    rw [asked_timeLeft, asked_ei, asked_ply]
    exact (hs.clocksRight h htimed).granted
  rw [thinkPhase_log, if_pos rfl, hgranted]
  rfl

/-! ## A match with a clock -/

/-- A call with a second and an increment of five milliseconds left. -/
def steadyCall : BestmoveCall where
  engine := patientEngine
  timeLeft := 1005
  maxTurnTime := 0
  best := []
  info := { score := 0, depth := 0, time := 0 }
  moveply := 2
  start := 0

/-- A match whose engines use up the increment at every move. -/
def steady : Match :=
  { casual {} fun _ => [] with
    engineOptions := fun _ => { timeoutMatch := 1000, increment := 5 }
    moveReply := fun _ => replyOf (steadyCall.bestmove promptOutput).1 false }

theorem steady_timeLeft {s : PlayState} (h : Loads steady g) (hs : AtRound steady g s)
    (i : Bool) : s.timeLeft i = 1000 := by
  obtain ⟨s₀, hs₀, hreach⟩ := hs
  refine hreach.invariant (fun s => ∀ i, s.timeLeft i = 1000) ?_ ?_ i
  · exact timeLeft_of_startPhase hs₀
  · intro t t' htreach ht hround i
    have hat : AtRound steady g t := ⟨s₀, hs₀, htreach⟩
    rw [timeLeft_of_round (hat.shape h) hround]
    by_cases hi : i = t.ei
    · rw [hi, Function.update_self]
      have hreply : (steady.moveReply 0).timeLeft = 1000 := by decide
      exact hreply
    · rw [Function.update_of_ne hi, ht]

theorem timed_steady (h : Loads steady g) : Timed steady g := by
  intro s hs
  refine ⟨patientEngine, 0, promptOutput, false, ?_⟩
  have hcall : steady.bestmoveCall (steady.thinkPhase (asked s)) patientEngine 0 =
      { steadyCall with moveply := (steady.bestmoveCall (steady.thinkPhase (asked s))
          patientEngine 0).moveply } := by
    have hleft : (steady.thinkPhase (asked s)).timeLeft (asked s).ei = 1005 := by
      have hgranted : computeTimeLeft (steady.engineOptions (asked s).ei)
          ((asked s).timeLeft (asked s).ei) = 1005 := by
        rw [asked_timeLeft, steady_timeLeft h hs]
        rfl
      rw [← hgranted]
      exact Function.update_self _ _ _
    unfold bestmoveCall
    rw [show (steady.thinkPhase (asked s)).ei = (asked s).ei from rfl, hleft]
    rfl
  rw [hcall]
  rfl

theorem timeLeft_line_steady :
    ∃ s t, AtRound steady (Game.ofOpening "0,0".toList steady.options) s ∧
      steady.rulesPhase s = .ok t ∧
      (steady.thinkPhase t).log t.ei = t.log t.ei ++
        (.info "time_left".toList "1005".toList :: steady.thinkCommand t).map .sent := by
  have hloads : Loads steady (Game.ofOpening "0,0".toList steady.options) :=
    loads_ofOpening (by decide) (by decide)
  have hat : AtRound steady (Game.ofOpening "0,0".toList steady.options) (firstRound _ _) :=
    atRound_firstRound _ rfl
  have hasked := (rulesPhase_eq_ok_iff (m := steady)
    (s := firstRound steady (Game.ofOpening "0,0".toList steady.options))).mpr
      ⟨by decide, fun hforced => hforced.1 rfl, rfl⟩
  exact ⟨_, _, hat, hasked, timeLeft_line hloads (timed_steady hloads) hat hasked⟩

end Match

end GomokuCli
