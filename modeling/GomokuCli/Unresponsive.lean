import GomokuCli.Deadline

/-!
# Engines that do not respond

A deadline that has been missed by more than three seconds, and whose callback is
spent or was never there, is to end the program: nothing else will wake the worker
that waits.  The test for that stands behind the test for any delay at all, so the
main thread never gets to it (`main_ne_died`), and a check of such a worker only
goes on to the next one (`checks_of_unresponsive`).

That a callback is called at most once for each time a deadline is armed holds in
every run (`callsBack_le`).
-/

namespace GomokuCli

open Interleaving

variable {κ : Type*}

namespace Watch

/-! ## Where a deadline is armed -/

/-- The calls of `deadline_set`.  There are four in the source, and for two of them the
callback is null. -/
inductive Site
  | start
  | about
  | move
  | exit
  deriving DecidableEq, Repr

/-- What the engine must respond to. -/
def Site.description : Site → List Char
  | .start => "start".toList
  | .about => "about".toList
  | .move => "move".toList
  | .exit => "exit".toList

/-- The callback is `terminate`, where the engine can be given up. -/
def Site.callback (terminate : κ) : Site → Option κ
  | .start => some terminate
  | .about => none
  | .move => some terminate
  | .exit => none

/-- The worker `w` waits for its engine. -/
def Site.arm (site : Site) (w : ℕ) (engineName : List Char) (timeLimit : Int) (terminate : κ) :
    Action κ :=
  .deadlineSet w engineName timeLimit site.description (site.callback terminate)

/-! ## Unresponsive engines -/

/-- The deadline of a worker is long missed, and there is no callback left.  The comment in
the main loop is about such a worker: nothing but the end of the program can stop it from
waiting. -/
structure Unresponsive (s : Watch κ) (w : ℕ) : Prop where
  set : (s.deadline w).set = true
  passed : (s.deadline w).timeLimit + 3000 < s.now
  spent : (s.deadline w).callback = none ∨ (s.deadline w).called = true

variable {workers : ℕ} {s s' : Watch κ} {a : Action κ} {schedule : List (Action κ)}
  {time : Int} {w : ℕ}

/-- The engine of a deadline without a callback, some time later. -/
theorem unresponsive_of_arm {site : Site} (hsite : site = .about ∨ site = .exit)
    {engineName : List Char} {timeLimit : Int} {terminate : κ}
    (harm : step workers (site.arm w engineName timeLimit terminate) s = some s')
    (hpassed : timeLimit + 3000 < time) : Unresponsive { s' with now := time } w := by
  obtain ⟨d, hd, rfl⟩ := Option.map_eq_some_iff.mp harm
  rw [Deadline.deadlineSet, Option.ite_none_right_eq_some] at hd
  cases hd.2
  constructor
  case set => simp only [Function.update_self]
  case passed =>
    simp only [Function.update_self]
    exact hpassed
  case spent =>
    simp only [Function.update_self]
    obtain rfl | rfl := hsite
    · exact Or.inl rfl
    · exact Or.inl rfl

/-- **The program is never ended.** The branch that ends it needs a delay of more than three
seconds, and the branch before it takes any positive delay. -/
theorem main_ne_died (hruns : runs (step workers) schedule (start time) = some s) :
    s.main ≠ .died w := by
  refine invariant (fun r : Watch κ => r.main ≠ .died w) ?_ ?_ hruns
  · rintro ⟨⟩
  · intro r a r' hr hstep
    cases moves_of_step hstep with
    | set | cleared | ticked => exact hr
    | overdue | inTime | invoked | skipped => rintro ⟨⟩

/-- **A check of a worker whose engine does not respond** calls nothing back, and the main
thread looks at the next worker.  The state is as before, so the next round finds the worker
just the same. -/
theorem checks_of_unresponsive (h : Unresponsive s w) (hmain : s.main = .checking w)
    (hw : w < workers) :
    ∃ s', runs (step workers) [.deadlineOverdue w, .deadlineCallbackOnce w] s = some s' ∧
      s'.main = .checking (nextWorker workers w) ∧ s'.invoked = s.invoked ∧ s'.now = s.now := by
  have hpos : 0 < (s.deadline w).deadlineOverdue s.now := by
    rw [Deadline.deadlineOverdue_pos]
    have hpassed := h.passed
    exact ⟨h.set, by omega⟩
  have hcheck : step workers (.deadlineOverdue w) s = some { s with main := .due w } := by
    rw [step, if_pos ⟨hmain, hw⟩, branch, if_pos hpos]
  have hnone : ((s.deadline w).deadlineCallbackOnce).1 = none := by
    rw [Deadline.deadlineCallbackOnce]
    split
    case isTrue hfirst =>
      obtain hcallback | hcalled := h.spent
      · exact hcallback
      · rw [hcalled, Bool.not_true, Bool.and_false] at hfirst
        cases hfirst
    case isFalse => rfl
  rw [runs_cons, hcheck, Option.bind_some, runs_singleton, step, if_pos rfl]
  refine ⟨_, rfl, rfl, ?_, rfl⟩
  simp only [hnone, Option.map_none, Option.toList_none, List.append_nil]

/-! ## One callback for each deadline -/

/-- The callbacks that the record can still have called.  This is the measure that no action
but arming the deadline increases. -/
def callsLeft (d : Deadline κ) : ℕ := if d.called then 0 else 1

/-- A call of `deadline_callback_once` for the worker `w`. -/
def Action.callsBackFor (w : ℕ) : Action κ → Bool
  | .deadlineCallbackOnce w' => w' == w
  | _ => false

/-- The worker `w` arms its deadline. -/
def Action.arms (w : ℕ) : Action κ → Bool
  | .deadlineSet w' _ _ _ _ => w' == w
  | _ => false

/-- The callbacks that some actions call for the worker `w`. -/
def callsBack (workers w : ℕ) : List (Action κ) → Watch κ → ℕ
  | [], _ => 0
  | a :: schedule, s =>
      match step workers a s with
      | none => 0
      | some s' =>
          (if a.callsBackFor w then s'.invoked.length - s.invoked.length else 0) +
            callsBack workers w schedule s'

theorem callsLeft_deadlineCallbackOnce (d : Deadline κ) :
    d.deadlineCallbackOnce.1.toList.length + callsLeft d.deadlineCallbackOnce.2 ≤ callsLeft d := by
  rw [Deadline.deadlineCallbackOnce]
  split
  case isTrue hfirst =>
    rw [Bool.and_eq_true, Bool.not_eq_true'] at hfirst
    have hlength : d.callback.toList.length ≤ 1 := by
      cases d.callback with
      | none => exact Nat.zero_le 1
      | some callback => exact Nat.le_refl 1
    rw [callsLeft, callsLeft, hfirst.2]
    exact hlength
  case isFalse =>
    rw [Option.toList_none, List.length_nil, Nat.zero_add]

/-- What one action other than arming the deadline takes from what is left.  A callback uses
up the only one, by the flag `called`. -/
theorem callsLeft_step (ha : a.arms w = false) (hstep : step workers a s = some s') :
    (if a.callsBackFor w then s'.invoked.length - s.invoked.length else 0) +
      callsLeft (s'.deadline w) ≤ callsLeft (s.deadline w) := by
  have hquiet (hcalls : a.callsBackFor w = false)
      (hleft : callsLeft (s'.deadline w) = callsLeft (s.deadline w)) :
      (if a.callsBackFor w then s'.invoked.length - s.invoked.length else 0) +
        callsLeft (s'.deadline w) ≤ callsLeft (s.deadline w) := by
    rw [hcalls, hleft]
    exact (Nat.zero_add _).le
  cases a with
  | deadlineSet w' engineName timeLimit description callback =>
      obtain ⟨d, -, rfl⟩ := Option.map_eq_some_iff.mp hstep
      have hne : w ≠ w' := fun h => by
        rw [Action.arms, h, beq_self_eq_true] at ha
        cases ha
      refine hquiet rfl ?_
      simp only [Function.update_of_ne hne]
  | deadlineClear w' =>
      cases hstep
      refine hquiet rfl ?_
      rcases eq_or_ne w w' with rfl | hne
      · simp only [Function.update_self]
        rfl
      · simp only [Function.update_of_ne hne]
  | deadlineOverdue w' =>
      rw [step, Option.ite_none_right_eq_some] at hstep
      cases hstep.2
      exact hquiet rfl rfl
  | deadlineCallbackOnce w' =>
      rw [step, Option.ite_none_right_eq_some] at hstep
      cases hstep.2
      rcases eq_or_ne w w' with rfl | hne
      · have hcalls : (Action.deadlineCallbackOnce w : Action κ).callsBackFor w = true :=
          beq_self_eq_true w
        simp only [hcalls, if_true, Function.update_self, List.length_append,
          Nat.add_sub_cancel_left]
        refine le_trans (Nat.add_le_add_right ?_ _) (callsLeft_deadlineCallbackOnce _)
        cases (s.deadline w).deadlineCallbackOnce.1 with
        | none => exact Nat.le_refl 0
        | some callback => exact Nat.le_refl 1
      · refine hquiet (beq_false_of_ne hne.symm) ?_
        simp only [Function.update_of_ne hne]
  | tick t =>
      rw [step, Option.ite_none_right_eq_some] at hstep
      cases hstep.2
      exact hquiet rfl rfl

/-- **While the deadline is not armed anew** its callback is called at most once.  By
induction on the schedule, since each step pays for its callback out of what is left. -/
theorem callsBack_le (hschedule : ∀ a ∈ schedule, a.arms w = false) (s : Watch κ) :
    callsBack workers w schedule s ≤ callsLeft (s.deadline w) := by
  induction schedule generalizing s with
  | nil => exact Nat.zero_le _
  | cons a schedule ih =>
      rw [callsBack]
      cases hstep : step workers a s with
      | none => exact Nat.zero_le _
      | some s' =>
          have ha := callsLeft_step (hschedule a List.mem_cons_self) hstep
          have hrest := ih (fun a' ha' => hschedule a' (List.mem_cons_of_mem _ ha')) s'
          change _ + callsBack workers w schedule s' ≤ _
          omega

/-! ## The main loop -/

/-- A poll that sees a worker with an unresponsive engine ends the program.  This is what
the comment at the second branch of the main loop promises. -/
def EndsProgram (workers : ℕ) (time : Int) (schedule : List (Action κ)) : Prop :=
  Throughout (fun before a => ∀ w, a = .deadlineOverdue w →
    ∀ s s', runs (step workers) before (start time) = some s → step workers a s = some s' →
      Unresponsive s w → s'.main = .died w) schedule

/-- From when a deadline is armed until it is armed again, its callback is called at
most once. -/
def CallsBackOnce (workers : ℕ) (time : Int) (schedule : List (Action κ)) : Prop :=
  ∀ w before a during after, schedule = before ++ a :: during ++ after → a.arms w = true →
    (∀ a' ∈ during, a'.arms w = false) →
    ∀ s, runs (step workers) (before ++ [a]) (start time) = some s →
      callsBack workers w during s ≤ 1

/-- No poll sees a worker with an unresponsive engine.  It does not depend on which branch
the main loop takes then. -/
def Responsive (workers : ℕ) (time : Int) (schedule : List (Action κ)) : Prop :=
  Throughout (fun before a => ∀ w, a = .deadlineOverdue w →
    ∀ s, runs (step workers) before (start time) = some s → ¬Unresponsive s w) schedule

theorem callsBackOnce (workers : ℕ) (time : Int) (schedule : List (Action κ)) :
    CallsBackOnce workers time schedule := by
  intro w before a during after _ _ hduring s _
  refine (callsBack_le hduring s).trans ?_
  rw [callsLeft]
  split
  · exact Nat.zero_le 1
  · exact Nat.le_refl 1

/-- **The main loop is right only about engines that respond.** In a run every poll of an
unresponsive engine ends the program, and no deadline is called back twice, exactly if no
poll sees such an engine.  The second part holds of every run, and the first one fails at
the first poll that puts it to the test. -/
theorem endsProgram_iff (hruns : runs (step workers) schedule (start time) = some s) :
    EndsProgram workers time schedule ∧ CallsBackOnce workers time schedule ↔
      Responsive workers time schedule := by
  constructor
  · rintro ⟨hends, -⟩ before a after hschedule w ha r hr hunresponsive
    rw [hschedule] at hruns
    obtain ⟨r₁, r₂, hbefore, hstep, -⟩ := exists_of_mid hruns
    obtain rfl : r = r₁ := Option.some.inj (hr.symm.trans hbefore)
    have hdied := hends before a after hschedule w ha r r₂ hr hstep hunresponsive
    exact main_ne_died ((runs_snoc_of hr).trans hstep) hdied
  · intro hresponsive
    refine ⟨hresponsive.imp ?_, callsBackOnce workers time schedule⟩
    intro before a hquiet w ha r r' hr _ hunresponsive
    exact absurd hunresponsive (hquiet w ha r hr)

/-- An engine that never answers `ABOUT`: the poll after six seconds goes on to a
callback that is not there. -/
theorem not_endsProgram_about :
    ∃ s : Watch Bool,
      runs (step 1) [Site.about.arm 0 ['e', '0'] 3000 true, .tick 6001, .deadlineOverdue 0]
          (start 0) = some s ∧ s.main = .due 0 ∧
        ¬EndsProgram 1 0
          [Site.about.arm 0 ['e', '0'] 3000 true, Action.tick 6001, .deadlineOverdue 0] := by
  refine ⟨_, rfl, rfl, fun hends => ?_⟩
  have harm : step 1 (Site.about.arm 0 ['e', '0'] 3000 true) (start 0 : Watch Bool) = some _ :=
    rfl
  have hpassed : (3000 : Int) + 3000 < 6001 := by decide
  have hdied := hends [Site.about.arm 0 ['e', '0'] 3000 true, .tick 6001] (.deadlineOverdue 0) []
    rfl 0 rfl _ _ rfl rfl (unresponsive_of_arm (Or.inl rfl) harm hpassed)
  cases hdied

/-- An engine that is stopped in its move, and the poll after that. -/
theorem endsProgram_move :
    EndsProgram 1 0
      [Site.move.arm 0 ['e', '0'] 100 true, Action.tick 4000, .deadlineOverdue 0,
        .deadlineCallbackOnce 0, .deadlineClear 0, .deadlineOverdue 0] := by
  refine ((endsProgram_iff (s := _) rfl).mpr ?_).1
  simp only [Responsive, throughout_cons]
  refine ⟨nofun, nofun, ?_, nofun, nofun, ?_, .nil⟩
  · rintro _ ⟨⟩ s hs hunresponsive
    cases hs
    exact absurd hunresponsive.spent (by decide)
  · rintro _ ⟨⟩ s hs hunresponsive
    cases hs
    exact absurd hunresponsive.set (by decide)

end Watch

end GomokuCli
