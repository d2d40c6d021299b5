import Mathlib.Data.List.DropRight
import GomokuCli.Library.Interleaving

/-!
# Deadlines

Each worker has one record for the deadline of the engine it is waiting for, and
uses it again for the next one.  The main thread looks at the records in turn,
in two steps: it asks by how much a deadline is overdue, and then has the
callback of the record called.  In between the worker may have replaced the
record, so that the callback that is called is that of another deadline.

A callback is a value of any type `κ`: only whether there is one decides
anything here.  Times are in milliseconds.
-/

namespace GomokuCli

open Interleaving

variable {κ : Type*}

/-- `Worker::Deadline_t` -/
structure Deadline (κ : Type*) where
  set : Bool := false
  called : Bool := false
  engineName : List Char := []
  description : List Char := []
  /-- only read when the record is set -/
  timeLimit : Int := 0
  callback : Option κ := none
  deriving DecidableEq, Repr

namespace Deadline

/-- `Worker::deadline_set`, whose assertion wants a positive limit.  The limits of the
engines are points in time, present ones with a tolerance added, so that the assertion only
fails for a tolerance as negative as the clock is large.  A build without assertions sets
the deadline even then, which is left out here: there is no step for such a call. -/
def deadlineSet (engineName : List Char) (timeLimit : Int) (description : List Char)
    (callback : Option κ) : Option (Deadline κ) :=
  if 0 < timeLimit then
    some { set := true, called := false, engineName := engineName, description := description,
           timeLimit := timeLimit, callback := callback }
  else none

/-- `Worker::deadline_clear` -/
def deadlineClear (d : Deadline κ) : Deadline κ := { d with set := false }

/-- `Worker::deadline_callback_once`: the callback that is called, if any. -/
def deadlineCallbackOnce (d : Deadline κ) : Option κ × Deadline κ :=
  if d.set && !d.called then (d.callback, { d with called := true }) else (none, d)

/-- `Worker::deadline_overdue` at some time. -/
def deadlineOverdue (time : Int) (d : Deadline κ) : Int :=
  if d.set && d.timeLimit < time then time - d.timeLimit else 0

theorem deadlineOverdue_pos {time : Int} {d : Deadline κ} :
    0 < d.deadlineOverdue time ↔ d.set = true ∧ d.timeLimit < time := by
  rw [deadlineOverdue]
  split
  case isTrue h =>
    simp only [Bool.and_eq_true, decide_eq_true_eq] at h
    exact iff_of_true (Int.sub_pos_of_lt h.2) h
  case isFalse h =>
    simp only [Bool.and_eq_true, decide_eq_true_eq] at h
    exact iff_of_false (Int.lt_irrefl 0) h

end Deadline

/-- Where the main thread is in its loop over the workers. -/
inductive MainPhase
  /-- about to ask for the deadline of a worker -/
  | checking (i : Nat)
  /-- about to have the callback of a worker called -/
  | due (i : Nat)
  /-- the program has ended, because the engine of a worker does not respond -/
  | died (i : Nat)
  deriving DecidableEq, Repr

/-- A callback that was called, with the record it was found in and the time. -/
structure Invocation (κ : Type*) where
  record : Deadline κ
  callback : κ
  time : Int
  deriving DecidableEq, Repr

/-- The records of all workers, the clock, and the main thread. -/
structure Watch (κ : Type*) where
  deadline : Nat → Deadline κ
  now : Int
  main : MainPhase
  invoked : List (Invocation κ)

namespace Watch

/-- A call of a worker or of the main thread, or the clock going on. -/
inductive Action (κ : Type*)
  | deadlineSet (w : Nat) (engineName : List Char) (timeLimit : Int) (description : List Char)
      (callback : Option κ)
  | deadlineClear (w : Nat)
  | deadlineOverdue (w : Nat)
  | deadlineCallbackOnce (w : Nat)
  | tick (time : Int)
  deriving DecidableEq, Repr

/-- The next worker that the main thread looks at.  The loop over the workers is started
again behind the last of them. -/
def nextWorker (workers i : Nat) : Nat := if i + 1 < workers then i + 1 else 0

/-- The branches of the main loop, for a worker that is overdue by some time.  The second
test is the one of the source, although it can never be reached behind the first. -/
def branch (workers i : Nat) (overdue : Int) : MainPhase :=
  if 0 < overdue then .due i
  else if 3000 < overdue then .died i
  else .checking (nextWorker workers i)

/-- One step, with a number of workers. -/
def step (workers : Nat) : Action κ → Watch κ → Option (Watch κ)
  | .deadlineSet w engineName timeLimit description callback, s =>
      (Deadline.deadlineSet engineName timeLimit description callback).map fun d =>
        { s with deadline := Function.update s.deadline w d }
  | .deadlineClear w, s =>
      some { s with deadline := Function.update s.deadline w (s.deadline w).deadlineClear }
  | .deadlineOverdue w, s =>
      if s.main = .checking w ∧ w < workers then
        some { s with main := branch workers w ((s.deadline w).deadlineOverdue s.now) }
      else none
  | .deadlineCallbackOnce w, s =>
      if s.main = .due w then
        let r := (s.deadline w).deadlineCallbackOnce
        some { s with
          deadline := Function.update s.deadline w r.2
          main := .checking (nextWorker workers w)
          invoked := s.invoked ++ (r.1.map fun callback =>
            { record := s.deadline w, callback := callback, time := s.now }).toList }
      else none
  | .tick time, s => if s.now ≤ time then some { s with now := time } else none

/-- No deadline has been set, and the main thread enters its loop.  Nothing has been called
back yet. -/
def start (time : Int) : Watch κ where
  deadline _ := {}
  now := time
  main := .checking 0
  invoked := []

/-- The callback was called for a deadline that was set and missed, for the first time.  The
record and the time are those of the call and not of the check before it, between which the
worker may have gone on. -/
structure Overdue (v : Invocation κ) : Prop where
  set : v.record.set = true
  called : v.record.called = false
  passed : v.record.timeLimit < v.time

/-! ## Schedules -/

/-- A step of the main thread. -/
def Action.isMain : Action κ → Bool
  | .deadlineOverdue _ | .deadlineCallbackOnce _ => true
  | _ => false

/-- What has happened since the last step of the main thread.  Only this can come between a
check and the callback that follows it. -/
def sinceCheck (before : List (Action κ)) : List (Action κ) :=
  before.rtakeWhile fun a => !a.isMain

/-- The effect of an action on the limit and the callback that a worker has set anew.
Setting a deadline forgets the one before, and clearing it leaves none. -/
def rearm (w : Nat) (armed : Option (Int × Option κ)) : Action κ → Option (Int × Option κ)
  | .deadlineSet w' _ timeLimit _ callback => if w' = w then some (timeLimit, callback) else armed
  | .deadlineClear w' => if w' = w then none else armed
  | _ => armed

/-- The limit and the callback that a worker has set, and not cleared again, during some
actions.  It is read off the schedule, without a look at the records. -/
def rearmed (w : Nat) (actions : List (Action κ)) : Option (Int × Option κ) :=
  actions.foldl (rearm w) none

/-- The effect of an action on the clock. -/
def tickTo (time : Int) : Action κ → Int
  | .tick time' => time'
  | _ => time

/-- The clock after some actions. -/
def clock (time : Int) (actions : List (Action κ)) : Int := actions.foldl tickTo time

/-- If the worker has set a deadline with a callback since the last check, then it has been
missed by now.  Where the worker has done nothing since the check, there is nothing to
demand. -/
def Passed (time : Int) (before : List (Action κ)) (w : Nat) : Prop :=
  ∀ limit callback, rearmed w (sinceCheck before) = some (limit, some callback) →
    limit < clock time before

variable {workers : Nat} {s s' : Watch κ} {a : Action κ} {before schedule : List (Action κ)}
  {time : Int} {w : Nat}

theorem rearmed_snoc (w : Nat) (actions : List (Action κ)) (a : Action κ) :
    rearmed w (actions ++ [a]) = rearm w (rearmed w actions) a := List.foldl_concat ..

theorem clock_snoc (time : Int) (actions : List (Action κ)) (a : Action κ) :
    clock time (actions ++ [a]) = tickTo (clock time actions) a := List.foldl_concat ..

theorem sinceCheck_snoc_of_main (ha : a.isMain = true) : sinceCheck (before ++ [a]) = [] := by
  rw [sinceCheck, List.rtakeWhile_concat_neg]
  rw [ha]
  exact Bool.false_ne_true

theorem sinceCheck_snoc (ha : a.isMain = false) :
    sinceCheck (before ++ [a]) = sinceCheck before ++ [a] := by
  refine List.rtakeWhile_concat_pos _ _ _ ?_
  rw [ha]
  rfl

/-! ## Steps -/

/-- What one step does, without the tests that lead to it.  Every invariant of the watch is
proved from these cases, and not from `step` itself. -/
inductive Moves (workers : Nat) (s : Watch κ) : Action κ → Watch κ → Prop
  | set (w : Nat) (engineName : List Char) (timeLimit : Int) (description : List Char)
      (callback : Option κ) (d : Deadline κ) (hset : d.set = true) (hcalled : d.called = false)
      (hlimit : d.timeLimit = timeLimit) (hcallback : d.callback = callback) :
      Moves workers s (.deadlineSet w engineName timeLimit description callback)
        { s with deadline := Function.update s.deadline w d }
  | cleared (w : Nat) (d : Deadline κ) (hset : d.set = false) :
      Moves workers s (.deadlineClear w) { s with deadline := Function.update s.deadline w d }
  | overdue (w : Nat) (hmain : s.main = .checking w)
      (h : (s.deadline w).set = true → (s.deadline w).timeLimit < s.now) :
      Moves workers s (.deadlineOverdue w) { s with main := .due w }
  | inTime (w : Nat) (hmain : s.main = .checking w) :
      Moves workers s (.deadlineOverdue w) { s with main := .checking (nextWorker workers w) }
  | invoked (w : Nat) (hmain : s.main = .due w) (hset : (s.deadline w).set = true)
      (hcalled : (s.deadline w).called = false) (callback : κ)
      (hcallback : (s.deadline w).callback = some callback) (d : Deadline κ) :
      Moves workers s (.deadlineCallbackOnce w)
        { s with
          deadline := Function.update s.deadline w d
          main := .checking (nextWorker workers w)
          invoked := s.invoked ++
            [{ record := s.deadline w, callback := callback, time := s.now }] }
  | skipped (w : Nat) (hmain : s.main = .due w)
      (h : (s.deadline w).set = true → (s.deadline w).called = false →
        (s.deadline w).callback = none) (d : Deadline κ) :
      Moves workers s (.deadlineCallbackOnce w)
        { s with
          deadline := Function.update s.deadline w d
          main := .checking (nextWorker workers w) }
  | ticked (time : Int) (h : s.now ≤ time) : Moves workers s (.tick time) { s with now := time }

theorem moves_of_step (h : step workers a s = some s') : Moves workers s a s' := by
  cases a with
  | deadlineSet w engineName timeLimit description callback =>
      obtain ⟨d, hd, rfl⟩ := Option.map_eq_some_iff.mp h
      rw [Deadline.deadlineSet, Option.ite_none_right_eq_some] at hd
      cases hd.2
      exact .set w engineName timeLimit description callback _ rfl rfl rfl rfl
  | deadlineClear w =>
      cases h
      exact .cleared w _ rfl
  | deadlineOverdue w =>
      rw [step, Option.ite_none_right_eq_some] at h
      obtain ⟨⟨hmain, -⟩, h⟩ := h
      cases h
      by_cases hpos : 0 < (s.deadline w).deadlineOverdue s.now
      · rw [branch, if_pos hpos]
        exact .overdue w hmain fun _ => (Deadline.deadlineOverdue_pos.mp hpos).2
      · have hdead : ¬ 3000 < (s.deadline w).deadlineOverdue s.now := by omega
        rw [branch, if_neg hpos, if_neg hdead]
        exact .inTime w hmain
  | deadlineCallbackOnce w =>
      rw [step, Option.ite_none_right_eq_some] at h
      obtain ⟨hmain, h⟩ := h
      cases h
      by_cases hfirst : (s.deadline w).set && !(s.deadline w).called
      · simp only [Deadline.deadlineCallbackOnce, if_pos hfirst]
        rw [Bool.and_eq_true, Bool.not_eq_true'] at hfirst
        cases hcallback : (s.deadline w).callback with
        | none =>
            rw [Option.map_none, Option.toList_none, List.append_nil]
            exact .skipped w hmain (fun _ _ => hcallback) _
        | some callback =>
            exact .invoked w hmain hfirst.1 hfirst.2 callback hcallback _
      · simp only [Deadline.deadlineCallbackOnce, if_neg hfirst, Option.map_none,
          Option.toList_none, List.append_nil]
        refine .skipped w hmain (fun hset hcalled => absurd ?_ hfirst) _
        rw [hset, hcalled]
        rfl
  | tick t =>
      rw [step, Option.ite_none_right_eq_some] at h
      obtain ⟨hnow, h⟩ := h
      cases h
      exact .ticked t hnow

/-! ## Between the check and the call -/

/-- The record of a worker that was found overdue: either the worker has set it anew since,
or it is still the missed one.  The check and the callback are two calls, each with its own
lock, so this is all that is known in between. -/
def Found (before : List (Action κ)) (s : Watch κ) (w : Nat) : Prop :=
  match rearmed w (sinceCheck before) with
  | some (limit, callback) =>
      (s.deadline w).set = true ∧ (s.deadline w).called = false ∧
        (s.deadline w).timeLimit = limit ∧ (s.deadline w).callback = callback
  | none => (s.deadline w).set = true → (s.deadline w).timeLimit < s.now

/-- **The invariant of the watch**: how the state stands to the schedule that led to it.
The last field would not be inductive alone, because a callback is decided by a check that
is already over; what is left of that check is in `found`. -/
structure Watches (time : Int) (before : List (Action κ)) (s : Watch κ) : Prop where
  now : s.now = clock time before
  found : ∀ w, s.main = .due w → Found before s w
  overdue : (∀ v ∈ s.invoked, Overdue v) ↔
    Throughout (fun before a => ∀ w, a = .deadlineCallbackOnce w → Passed time before w) before

theorem Watches.start (time : Int) : Watches time [] (start time : Watch κ) where
  now := rfl
  found w h := by cases h
  overdue := iff_of_true nofun Throughout.nil

/-- What a worker or the clock does to the record that was found overdue.  The clock only
moves on, and so a missed deadline stays missed. -/
theorem Found.moves (h : Found before s w) (ha : a.isMain = false)
    (hmoves : Moves workers s a s') : Found (before ++ [a]) s' w := by
  unfold Found at h ⊢
  rw [sinceCheck_snoc ha, rearmed_snoc]
  cases hmoves with
  | set w' engineName timeLimit description callback d hset hcalled hlimit hcallback =>
      rcases eq_or_ne w' w with rfl | hne
      · rw [rearm, if_pos rfl]
        simp only [Function.update_self]
        exact ⟨hset, hcalled, hlimit, hcallback⟩
      · rw [rearm, if_neg hne]
        simp only [Function.update_of_ne hne.symm]
        exact h
  | cleared w' d hset =>
      rcases eq_or_ne w' w with rfl | hne
      · rw [rearm, if_pos rfl]
        simp only [Function.update_self]
        intro hset'
        rw [hset] at hset'
        cases hset'
      · rw [rearm, if_neg hne]
        simp only [Function.update_of_ne hne.symm]
        exact h
  | ticked t hnow =>
      change match rearmed w (sinceCheck before) with
        | some (limit, callback) => _ ∧ _ ∧ (s.deadline w).timeLimit = limit ∧
            (s.deadline w).callback = callback
        | none => (s.deadline w).set = true → (s.deadline w).timeLimit < t
      cases hrearmed : rearmed w (sinceCheck before) with
      | some armed =>
          rw [hrearmed] at h
          exact h
      | none =>
          rw [hrearmed] at h
          exact fun hset => Int.lt_of_lt_of_le (h hset) hnow
  | overdue | inTime | invoked | skipped => cases ha

/-- A call that calls back for a record that was found so.  If the worker has not touched
the record, the deadline has been missed; otherwise it depends on the new one. -/
theorem Found.invocation_iff (h : Found before s w) (hnow : s.now = clock time before)
    (hset : (s.deadline w).set = true) (hcalled : (s.deadline w).called = false) {callback : κ}
    (hcallback : (s.deadline w).callback = some callback) :
    Overdue { record := s.deadline w, callback := callback, time := s.now } ↔
      Passed time before w := by
  have hpassed : Overdue { record := s.deadline w, callback := callback, time := s.now } ↔
      (s.deadline w).timeLimit < s.now := ⟨fun v => v.passed, fun hlt => ⟨hset, hcalled, hlt⟩⟩
  rw [hpassed]
  unfold Found at h
  unfold Passed
  cases hrearmed : rearmed w (sinceCheck before) with
  | some armed =>
      rw [hrearmed] at h
      obtain ⟨-, -, hlimit, hcallback'⟩ := h
      have harmed : armed = ((s.deadline w).timeLimit, some callback) :=
        Prod.ext hlimit.symm (hcallback'.symm.trans hcallback)
      rw [harmed, hnow]
      constructor
      · rintro hlt limit callback' heq
        cases heq
        exact hlt
      · exact fun hall => hall _ _ rfl
  | none =>
      rw [hrearmed] at h
      exact iff_of_true (h hset) nofun

/-- A call that does not call back.  Nothing is demanded of it: the worker has cleared its
deadline, or has set one without a callback. -/
theorem Found.passed_of_skipped (h : Found before s w)
    (hskipped : (s.deadline w).set = true → (s.deadline w).called = false →
      (s.deadline w).callback = none) : Passed time before w := by
  intro limit callback hrearmed
  unfold Found at h
  rw [hrearmed] at h
  obtain ⟨hset, hcalled, -, hcallback⟩ := h
  rw [hskipped hset hcalled] at hcallback
  cases hcallback

/-- **One step keeps the invariant.** Only a call of `deadlineCallbackOnce` adds to what was
invoked, and for it `found` tells what the record is. -/
theorem Watches.moves (h : Watches time before s) (hmoves : Moves workers s a s') :
    Watches time (before ++ [a]) s' := by
  have hother {invoked : List (Invocation κ)} (hinvoked : invoked = s.invoked)
      (ha : ∀ w, a ≠ .deadlineCallbackOnce w) :
      (∀ v ∈ invoked, Overdue v) ↔ Throughout
        (fun before a => ∀ w, a = .deadlineCallbackOnce w → Passed time before w)
        (before ++ [a]) := by
    rw [hinvoked, throughout_snoc, h.overdue]
    exact (and_iff_left fun w heq => absurd heq (ha w)).symm
  have hfound := fun w hw (ha : a.isMain = false) => (h.found w hw).moves ha hmoves
  have hclock := h.now
  cases hmoves with
  | set w engineName timeLimit description callback d hset hcalled hlimit hcallback =>
      refine ⟨?_, fun w hw => hfound w hw rfl, hother rfl (by simp)⟩
      rw [clock_snoc]
      exact hclock
  | cleared w d hset =>
      refine ⟨?_, fun w hw => hfound w hw rfl, hother rfl (by simp)⟩
      rw [clock_snoc]
      exact hclock
  | overdue w hmain hpassed =>
      refine ⟨?_, ?_, hother rfl (by simp)⟩
      · rw [clock_snoc]
        exact hclock
      · rintro _ ⟨⟩
        unfold Found
        rw [sinceCheck_snoc_of_main rfl]
        exact hpassed
  | inTime w hmain =>
      refine ⟨?_, fun w' hw' => ?_, hother rfl (by simp)⟩
      · rw [clock_snoc]
        exact hclock
      · cases hw'
  | invoked w hmain hset hcalled callback hcallback d =>
      refine ⟨?_, fun w' hw' => ?_, ?_⟩
      · rw [clock_snoc]
        exact hclock
      · cases hw'
      · have hone := (h.found w hmain).invocation_iff hclock hset hcalled hcallback
        simp only [List.mem_append, List.mem_singleton, or_imp, forall_and, forall_eq]
        rw [throughout_snoc, h.overdue, hone]
        refine and_congr_right fun _ => ⟨?_, fun hall => hall w rfl⟩
        rintro hpassed _ ⟨⟩
        exact hpassed
  | skipped w hmain hskipped d =>
      refine ⟨?_, fun w' hw' => ?_, ?_⟩
      · rw [clock_snoc]
        exact hclock
      · cases hw'
      · rw [throughout_snoc, ← h.overdue]
        refine (and_iff_left ?_).symm
        rintro _ ⟨⟩
        exact (h.found w hmain).passed_of_skipped hskipped
  | ticked t hnow =>
      refine ⟨?_, fun w hw => hfound w hw rfl, hother rfl (by simp)⟩
      rw [clock_snoc]
      rfl

/-- **Callbacks are called in time.** In a run every callback is that of a deadline that has
been missed exactly if none is called for a worker that has set another deadline since the
check, before that has been missed as well.  The condition is about the schedule alone. -/
theorem overdue_iff (hruns : runs (step workers) schedule (start time) = some s) :
    (∀ v ∈ s.invoked, Overdue v) ↔
      Throughout (fun before a => ∀ w, a = .deadlineCallbackOnce w → Passed time before w)
        schedule := by
  have hwatches : Watches time schedule s := by
    refine invariant_along (Watches time) (Watches.start time) ?_ hruns
    intro before r a r' _ hr hstep
    exact hr.moves (moves_of_step hstep)
  exact hwatches.overdue

/-- The engine of the first deadline is stopped after its limit, while that of the
second one has answered in time. -/
theorem overdue_iff_missed :
    ∃ s : Watch Bool,
      runs (step 1)
        [.deadlineSet 0 ['e', '0'] 100 ['m', 'o', 'v', 'e'] (some false), .tick 101,
          .deadlineOverdue 0, .deadlineCallbackOnce 0, .deadlineClear 0,
          .deadlineSet 0 ['e', '1'] 300 ['m', 'o', 'v', 'e'] (some true), .tick 250,
          .deadlineOverdue 0, .deadlineClear 0] (start 0) = some s ∧
      s.invoked.map Invocation.callback = [false] ∧ ∀ v ∈ s.invoked, Overdue v := by
  have hruns : (runs (step 1)
      [.deadlineSet 0 ['e', '0'] 100 ['m', 'o', 'v', 'e'] (some false), .tick 101,
        .deadlineOverdue 0, .deadlineCallbackOnce 0, .deadlineClear 0,
        .deadlineSet 0 ['e', '1'] 300 ['m', 'o', 'v', 'e'] (some true), .tick 250,
        .deadlineOverdue 0, .deadlineClear 0] (start 0)).map
          (fun s : Watch Bool => s.invoked.map Invocation.callback) = some [false] := by decide
  obtain ⟨s, hs, hinvoked⟩ := Option.map_eq_some_iff.mp hruns
  refine ⟨s, hs, hinvoked, (overdue_iff hs).mpr ?_⟩
  simp only [throughout_cons]
  refine ⟨nofun, nofun, nofun, ?_, nofun, nofun, nofun, nofun, nofun, .nil⟩
  rintro _ ⟨⟩ limit callback hrearmed
  cases hrearmed

/-- The first engine answers right after the check, and the callback for the second
one is called, with all of its time left. -/
theorem not_overdue_rearmed :
    ∃ s : Watch Bool,
      runs (step 1)
        [.deadlineSet 0 ['e', '0'] 100 ['m', 'o', 'v', 'e'] (some false), .tick 101,
          .deadlineOverdue 0, .deadlineClear 0,
          .deadlineSet 0 ['e', '1'] 300 ['m', 'o', 'v', 'e'] (some true),
          .deadlineCallbackOnce 0] (start 0) = some s ∧
      s.invoked.map Invocation.callback = [true] ∧ ¬ ∀ v ∈ s.invoked, Overdue v := by
  refine ⟨_, rfl, rfl, fun h => ?_⟩
  have hpassed := (h _ (.head [])).passed
  exact absurd hpassed (by decide)

end Watch

end GomokuCli
