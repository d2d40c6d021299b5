import GomokuCli.Deadline

/-!
# Engines that are terminated

While a worker waits for a line of its engine, the main thread may find its deadline
missed and call `terminate` for the same engine.  The worker holds the lock of the pipe
then, so that `terminate` can only close it when the worker has found its end; and
`wait_callback_done` keeps the worker back until `terminate` is done.

To the rest of the program an engine is off, running or crashed, and each call changes
this at once (`Fate.next`).  The calls are made of smaller steps, which two threads take.
They add up to the same, and neither thread uses a pipe that has been closed
(`fates_runs`), as long as they stay apart where nothing keeps them apart (`Apart`): the
worker does not use the engine while a callback runs, and no callback starts behind
`wait_callback_done`.  Without that the pipes can be closed twice (`closed_twice`).
-/

namespace GomokuCli

open Interleaving

namespace Lifecycle

/-- What `class Engine` has of its process.  `in` and `out` are set and reset together.
Whether the streams are open is not a member, but it decides whether they may be used. -/
structure Link where
  /-- `pid` is not zero -/
  pid : Bool := false
  /-- `in` and `out` are not null -/
  pipes : Bool := false
  /-- the streams that `in` and `out` point to, or pointed to last, are open -/
  isOpen : Bool := false
  deriving DecidableEq, Repr

/-- `Engine::is_ok` -/
def Link.isOk (link : Link) : Bool := link.pid

/-- `Engine::is_crashed` -/
def Link.isCrashed (link : Link) : Bool := link.pid && !link.pipes

/-- Both streams are closed and forgotten. -/
def Link.hangUp (link : Link) : Link := { link with pipes := false, isOpen := false }

/-- Where a worker is in `readln`. -/
inductive Reading
  | outside
  /-- in `string_getline`, with the lock of the pipe -/
  | blocked
  /-- about to wait for the callback -/
  | ended
  /-- about to look at `pid` -/
  | waited
  /-- about to close the pipes -/
  | closing
  deriving DecidableEq, Repr

/-- Where the main thread is in `terminate(true)`, with the lock of the deadline. -/
inductive Terminating
  | outside
  /-- about to look at `in` -/
  | killed
  /-- about to close the pipes -/
  | closing
  /-- about to reset `pid`, `in` and `out` -/
  | closed
  deriving DecidableEq, Repr

/-- An engine, the deadline of its worker, and the two threads that use them. -/
structure State where
  link : Link := {}
  deadline : Deadline Unit := {}
  reader : Reading := .outside
  killer : Terminating := .outside
  deriving DecidableEq, Repr

/-- A step of the worker, of its engine, or of the main thread. -/
inductive Action
  /-- `start`, up to `parse_about` -/
  | start
  /-- `terminate(false)`, once the engine has exited -/
  | quit
  /-- `writeln`, whose `fflush` succeeds or fails -/
  | writeln (flushed : Bool)
  | deadlineSet (engineName : List Char) (timeLimit : Int) (description : List Char)
      (callback : Option Unit)
  | deadlineClear
  /-- `readln`, up to `string_getline` -/
  | readln
  /-- `string_getline` returns a line, or has found the end of the pipe -/
  | getline (found : Bool)
  | waitCallbackDone
  /-- `if (pid)` in `readln` -/
  | lookAtPid
  /-- the two `fclose` in `readln` -/
  | close
  /-- `deadline_callback_once`, up to the end of the process -/
  | deadlineCallbackOnce
  /-- `if (in)` in `terminate` -/
  | lookAtIn
  /-- the two `fclose` in `terminate` -/
  | shut
  /-- the end of `terminate` and of the callback -/
  | reset
  deriving DecidableEq, Repr

/-- One step.  The lock of the deadline keeps the worker out of a callback where it is
taken, and the lock of the pipe keeps `terminate` from closing it under `string_getline`. -/
def step : Action → State → Option State
  | .start, s =>
      if s.reader = .outside ∧ s.link.pid = false then
        some { s with link := { pid := true, pipes := true, isOpen := true } }
      else none
  | .quit, s =>
      if s.reader = .outside then
        if s.link.pid = false then some s
        -- the deadline is that of "exit", which has no callback and is cleared in the end
        else if s.killer = .outside then
          some { s with link := {}, deadline := s.deadline.deadlineClear }
        else none
      else none
  | .writeln flushed, s =>
      if s.reader = .outside then
        if s.link.pipes && !flushed then some { s with link := s.link.hangUp } else some s
      else none
  | .deadlineSet engineName timeLimit description callback, s =>
      if s.reader = .outside ∧ s.killer = .outside then
        (Deadline.deadlineSet engineName timeLimit description callback).map fun d =>
          { s with deadline := d }
      else none
  | .deadlineClear, s =>
      if s.reader = .outside ∧ s.killer = .outside then
        some { s with deadline := s.deadline.deadlineClear }
      else none
  | .readln, s =>
      if s.reader = .outside then
        if s.link.pipes then some { s with reader := .blocked } else some s
      else none
  | .getline found, s =>
      if s.reader = .blocked then
        some { s with reader := if found then .outside else .ended }
      else none
  | .waitCallbackDone, s =>
      if s.reader = .ended ∧ s.killer = .outside then some { s with reader := .waited } else none
  | .lookAtPid, s =>
      if s.reader = .waited then
        some { s with reader := if s.link.pid then .closing else .outside }
      else none
  | .close, s =>
      if s.reader = .closing then some { s with link := s.link.hangUp, reader := .outside }
      else none
  | .deadlineCallbackOnce, s =>
      if s.killer = .outside then
        let r := s.deadline.deadlineCallbackOnce
        some { s with
          deadline := r.2
          killer := if r.1.isSome && s.link.pid then .killed else .outside }
      else none
  | .lookAtIn, s =>
      if s.killer = .killed then
        some { s with killer := if s.link.pipes then .closing else .closed }
      else none
  | .shut, s =>
      if s.killer = .closing ∧ s.reader ≠ .blocked then
        some { s with link := { s.link with isOpen := false }, killer := .closed }
      else none
  | .reset, s =>
      if s.killer = .closed then
        some { s with link := { s.link with pid := false, pipes := false }, killer := .outside }
      else none

/-- The step reads, writes or closes the two streams.  A step with a test for null uses them
only behind the test. -/
def Uses (s : State) : Action → Prop
  | .quit => s.link.pid = true ∧ s.link.pipes = true
  | .writeln _ | .readln => s.link.pipes = true
  | .getline _ | .close | .shut => True
  | _ => False

/-- **Where nothing keeps the threads apart.**  The worker uses the engine outside of
`readln` only when no callback runs, and no callback that terminates the engine starts
when the worker is behind `wait_callback_done`. -/
def Apart (s : State) : Action → Prop
  | .start | .quit | .writeln _ | .readln => s.killer = .outside
  | .deadlineCallbackOnce =>
      s.deadline.deadlineCallbackOnce.1.isSome → s.reader ≠ .waited ∧ s.reader ≠ .closing
  | _ => True

instance (s : State) : (a : Action) → Decidable (Apart s a)
  | .start | .quit | .writeln _ | .readln => inferInstanceAs (Decidable (s.killer = .outside))
  | .deadlineCallbackOnce => inferInstanceAs (Decidable
      (s.deadline.deadlineCallbackOnce.1.isSome → s.reader ≠ .waited ∧ s.reader ≠ .closing))
  | .deadlineSet _ _ _ _ | .deadlineClear | .getline _ | .waitCallbackDone | .lookAtPid | .close
  | .lookAtIn | .shut | .reset => isTrue trivial

/-- The threads stay apart in every step of a schedule.  The states are those of the steps
as the locks allow them. -/
def Orderly (schedule : List Action) : Prop :=
  Throughout (fun before a => ∀ s ∈ runs step before {}, Apart s a) schedule

instance (schedule : List Action) : Decidable (Orderly schedule) :=
  decidableThroughout _ schedule

/-! ## Calls that happen at once -/

/-- What an engine is to the rest of the program.  Only these three can be told from
outside, by `is_ok` and `is_crashed`. -/
inductive Fate
  | off
  | running
  | crashed
  deriving DecidableEq, Repr

/-- The members of an engine between the calls. -/
def Fate.link : Fate → Link
  | .off => {}
  | .running => { pid := true, pipes := true, isOpen := true }
  | .crashed => { pid := true }

/-- What a step does to an engine, when the deadline of its worker is as in `d`.  Each call
changes it at one of its steps, and the other steps leave it as it is. -/
def Fate.next (d : Deadline Unit) : Action → Fate → Fate
  | .start, _ => .running
  | .quit, _ => .off
  | .writeln false, .running => .crashed
  | .close, _ => .crashed
  | .deadlineCallbackOnce, fate => if d.deadlineCallbackOnce.1.isSome then .off else fate
  | _, fate => fate

/-- What a step does to the deadline. -/
def Fate.nextDeadline (fate : Fate) : Action → Deadline Unit → Deadline Unit
  | .quit, d => if fate = .off then d else d.deadlineClear
  | .deadlineSet engineName timeLimit description callback, d =>
      (Deadline.deadlineSet engineName timeLimit description callback).getD d
  | .deadlineClear, d => d.deadlineClear
  | .deadlineCallbackOnce, d => d.deadlineCallbackOnce.2
  | _, d => d

/-- What a schedule makes of an engine that has not been started, and of the deadline.  This
is the abstract machine: there are no threads in it, and every call happens at once. -/
def fates (schedule : List Action) : Fate × Deadline Unit :=
  schedule.foldl (fun x a => (x.1.next x.2 a, x.1.nextDeadline a x.2)) (.off, {})

theorem fates_snoc (schedule : List Action) (a : Action) :
    fates (schedule ++ [a]) = ((fates schedule).1.next (fates schedule).2 a,
      (fates schedule).1.nextDeadline a (fates schedule).2) :=
  List.foldl_concat _ _ _ _

/-! ## Both levels -/

/-- **The simulation between the two levels**: how the threads and the members stand to the
fate of an engine, which a callback has decided as soon as it starts.  There is a case for
each pair of places where the two threads can be, and this rules out all the others. -/
inductive Stands : Reading → Terminating → Link → Fate → Prop
  | calm (fate : Fate) : Stands .outside .outside fate.link fate
  | blocked : Stands .blocked .outside Fate.running.link .running
  | ended {fate : Fate} (h : fate ≠ .crashed) : Stands .ended .outside fate.link fate
  | waited {fate : Fate} (h : fate ≠ .crashed) : Stands .waited .outside fate.link fate
  | leaving : Stands .closing .outside Fate.running.link .running
  | killed {reader : Reading} {was : Fate} (hwas : was ≠ .off)
      (hreader : reader = .outside ∨ was = .running ∧ (reader = .blocked ∨ reader = .ended)) :
      Stands reader .killed was.link .off
  | closing {reader : Reading} (hreader : reader = .outside ∨ reader = .blocked ∨ reader = .ended) :
      Stands reader .closing Fate.running.link .off
  | closed {reader : Reading} {link : Link} (hopen : link.isOpen = false)
      (hreader : reader = .outside ∨ reader = .ended) : Stands reader .closed link .off

variable {s s' : State} {a : Action} {fate : Fate} {reader : Reading} {link : Link}
  {schedule : List Action}

theorem Stands.link_eq (h : Stands reader .outside link fate) : link = fate.link := by
  cases h <;> rfl

/-- **One step** keeps the members and the fate together.  The locks rule out most of the
steps, and `Apart` those which no lock does. -/
theorem Stands.step (h : Stands s.reader s.killer s.link fate) (hapart : Apart s a)
    (hstep : step a s = some s') :
    Stands s'.reader s'.killer s'.link (fate.next s.deadline a) := by
  obtain ⟨link, deadline, reader, killer⟩ := s
  change Stands reader killer link fate at h
  cases a with
  | start =>
      obtain ⟨⟨hreader, -⟩, hs'⟩ := Option.ite_none_right_eq_some.mp hstep
      obtain rfl : reader = .outside := hreader
      obtain rfl : killer = .outside := hapart
      cases hs'
      exact .calm .running
  | quit =>
      obtain ⟨hreader, hs'⟩ := Option.ite_none_right_eq_some.mp hstep
      obtain rfl : reader = .outside := hreader
      obtain rfl : killer = .outside := hapart
      cases h with
      | calm =>
          cases fate with
          | off | running | crashed =>
              cases hs'
              exact .calm .off
  | writeln flushed =>
      obtain ⟨hreader, hs'⟩ := Option.ite_none_right_eq_some.mp hstep
      obtain rfl : reader = .outside := hreader
      obtain rfl : killer = .outside := hapart
      cases h with
      | calm =>
          cases fate with
          | off =>
              cases hs'
              cases flushed <;> exact .calm .off
          | running =>
              cases flushed with
              | true =>
                  cases hs'
                  exact .calm .running
              | false =>
                  cases hs'
                  exact .calm .crashed
          | crashed =>
              cases hs'
              cases flushed <;> exact .calm .crashed
  | deadlineSet engineName timeLimit description callback =>
      obtain ⟨-, hs'⟩ := Option.ite_none_right_eq_some.mp hstep
      obtain ⟨d, -, rfl⟩ := Option.map_eq_some_iff.mp hs'
      exact h
  | deadlineClear =>
      obtain ⟨-, hs'⟩ := Option.ite_none_right_eq_some.mp hstep
      cases hs'
      exact h
  | readln =>
      obtain ⟨hreader, hs'⟩ := Option.ite_none_right_eq_some.mp hstep
      obtain rfl : reader = .outside := hreader
      obtain rfl : killer = .outside := hapart
      cases h with
      | calm =>
          cases fate with
          | off =>
              cases hs'
              exact .calm .off
          | running =>
              cases hs'
              exact .blocked
          | crashed =>
              cases hs'
              exact .calm .crashed
  | getline found =>
      obtain ⟨hreader, hs'⟩ := Option.ite_none_right_eq_some.mp hstep
      obtain rfl : reader = .blocked := hreader
      cases hs'
      cases h with
      | blocked =>
          cases found with
          | true => exact .calm .running
          | false => exact .ended (by decide : Fate.running ≠ .crashed)
      | killed hwas hreader =>
          obtain ⟨rfl, -⟩ := hreader.resolve_left nofun
          cases found with
          | true => exact .killed hwas (Or.inl rfl)
          | false => exact .killed hwas (Or.inr ⟨rfl, Or.inr rfl⟩)
      | closing hreader =>
          cases found with
          | true => exact .closing (Or.inl rfl)
          | false => exact .closing (Or.inr (Or.inr rfl))
      | closed hopen hreader => exact absurd hreader (by decide)
  | waitCallbackDone =>
      obtain ⟨⟨hreader, hkiller⟩, hs'⟩ := Option.ite_none_right_eq_some.mp hstep
      obtain rfl : reader = .ended := hreader
      obtain rfl : killer = .outside := hkiller
      cases hs'
      cases h with
      | ended hfate => exact .waited hfate
  | lookAtPid =>
      obtain ⟨hreader, hs'⟩ := Option.ite_none_right_eq_some.mp hstep
      obtain rfl : reader = .waited := hreader
      cases hs'
      cases h with
      | waited hfate =>
          cases fate with
          | off => exact .calm .off
          | running => exact .leaving
          | crashed => exact absurd rfl hfate
      | killed hwas hreader => exact absurd hreader (by simp)
      | closing hreader => exact absurd hreader (by decide)
      | closed hopen hreader => exact absurd hreader (by decide)
  | close =>
      obtain ⟨hreader, hs'⟩ := Option.ite_none_right_eq_some.mp hstep
      obtain rfl : reader = .closing := hreader
      cases hs'
      cases h with
      | leaving => exact .calm .crashed
      | killed hwas hreader => exact absurd hreader (by simp)
      | closing hreader => exact absurd hreader (by decide)
      | closed hopen hreader => exact absurd hreader (by decide)
  | deadlineCallbackOnce =>
      obtain ⟨hkiller, hs'⟩ := Option.ite_none_right_eq_some.mp hstep
      obtain rfl : killer = .outside := hkiller
      cases hs'
      change Stands reader _ link (if deadline.deadlineCallbackOnce.1.isSome then .off else fate)
      change deadline.deadlineCallbackOnce.1.isSome → reader ≠ .waited ∧ reader ≠ .closing
        at hapart
      dsimp only
      cases hdue : deadline.deadlineCallbackOnce.1.isSome with
      | false => exact h
      | true =>
          obtain ⟨hwaited, hclosing⟩ := hapart hdue
          cases h with
          | calm =>
              cases fate with
              | off => exact .calm .off
              | running => exact .killed nofun (Or.inl rfl)
              | crashed => exact .killed nofun (Or.inl rfl)
          | blocked => exact .killed nofun (Or.inr ⟨rfl, Or.inl rfl⟩)
          | ended hfate =>
              cases fate with
              | off => exact .ended nofun
              | running => exact .killed nofun (Or.inr ⟨rfl, Or.inr rfl⟩)
              | crashed => exact absurd rfl hfate
          | waited => exact absurd rfl hwaited
          | leaving => exact absurd rfl hclosing
  | lookAtIn =>
      obtain ⟨hkiller, hs'⟩ := Option.ite_none_right_eq_some.mp hstep
      obtain rfl : killer = .killed := hkiller
      cases hs'
      cases h with
      | @killed _ was hwas hreader =>
          cases was with
          | off => exact absurd rfl hwas
          | running => exact .closing (hreader.imp_right And.right)
          | crashed => exact .closed rfl (Or.inl (hreader.resolve_right (by simp)))
  | shut =>
      obtain ⟨⟨hkiller, hblocked⟩, hs'⟩ := Option.ite_none_right_eq_some.mp hstep
      obtain rfl : killer = .closing := hkiller
      cases hs'
      cases h with
      | closing hreader => exact .closed rfl (hreader.imp_right fun h => h.resolve_left hblocked)
  | reset =>
      obtain ⟨hkiller, hs'⟩ := Option.ite_none_right_eq_some.mp hstep
      obtain rfl : killer = .closed := hkiller
      cases hs'
      cases h with
      | closed hopen hreader =>
          dsimp only
          rw [hopen]
          obtain rfl | rfl := hreader
          · exact .calm .off
          · exact .ended (by decide : Fate.off ≠ .crashed)

/-- The deadline of the worker. -/
theorem Stands.deadline_step (h : Stands s.reader s.killer s.link fate) (hapart : Apart s a)
    (hstep : Lifecycle.step a s = some s') : s'.deadline = fate.nextDeadline a s.deadline := by
  obtain ⟨link, deadline, reader, killer⟩ := s
  change Stands reader killer link fate at h
  cases a with
  | quit =>
      obtain ⟨hreader, hs'⟩ := Option.ite_none_right_eq_some.mp hstep
      obtain rfl : reader = .outside := hreader
      obtain rfl : killer = .outside := hapart
      obtain rfl := h.link_eq
      cases fate <;> cases hs' <;> rfl
  | deadlineSet engineName timeLimit description callback =>
      obtain ⟨-, hs'⟩ := Option.ite_none_right_eq_some.mp hstep
      obtain ⟨d, hd, rfl⟩ := Option.map_eq_some_iff.mp hs'
      change d = (Deadline.deadlineSet engineName timeLimit description callback).getD deadline
      rw [hd, Option.getD_some]
  | deadlineCallbackOnce =>
      obtain ⟨-, hs'⟩ := Option.ite_none_right_eq_some.mp hstep
      cases hs'
      rfl
  | writeln flushed =>
      obtain ⟨-, hs'⟩ := Option.ite_none_right_eq_some.mp hstep
      split at hs' <;> cases hs' <;> rfl
  | readln =>
      obtain ⟨-, hs'⟩ := Option.ite_none_right_eq_some.mp hstep
      split at hs' <;> cases hs' <;> rfl
  | start | deadlineClear | getline found | waitCallbackDone | lookAtPid | close | lookAtIn | shut
  | reset =>
      obtain ⟨-, hs'⟩ := Option.ite_none_right_eq_some.mp hstep
      cases hs'
      rfl

theorem Stands.isOpen_of_blocked {killer : Terminating} (h : Stands reader killer link fate)
    (hreader : reader = .blocked) : link.isOpen = true := by
  subst hreader
  cases h with
  | blocked => rfl
  | closing => rfl
  | killed hwas hreader =>
      obtain ⟨rfl, -⟩ := hreader.resolve_left nofun
      rfl
  | closed hopen hreader => exact absurd hreader (by decide)

theorem Stands.isOpen_of_leaving {killer : Terminating} (h : Stands reader killer link fate)
    (hreader : reader = .closing) : link.isOpen = true := by
  subst hreader
  cases h with
  | leaving => rfl
  | killed hwas hreader => exact absurd hreader (by simp)
  | closing hreader => exact absurd hreader (by decide)
  | closed hopen hreader => exact absurd hreader (by decide)

theorem Stands.isOpen_of_closing {killer : Terminating} (h : Stands reader killer link fate)
    (hkiller : killer = .closing) : link.isOpen = true := by
  subst hkiller
  cases h with
  | closing => rfl

/-- **The pipes are open when they are used.** A thread that uses them is at a place where
the simulation leaves no other thread that could have closed them. -/
theorem Stands.isOpen_of_uses (h : Stands s.reader s.killer s.link fate) (hapart : Apart s a)
    (hstep : Lifecycle.step a s = some s') (huses : Uses s a) : s.link.isOpen = true := by
  have hcalm : s.killer = .outside → s.link.pipes = true → s.link.isOpen = true := by
    intro hkiller hpipes
    rw [hkiller] at h
    rw [h.link_eq] at hpipes ⊢
    cases fate with
    | running => rfl
    | off | crashed => cases hpipes
  cases a with
  | quit => exact hcalm hapart huses.2
  | writeln flushed => exact hcalm hapart huses
  | readln => exact hcalm hapart huses
  | getline found =>
      obtain ⟨hreader, -⟩ := Option.ite_none_right_eq_some.mp hstep
      exact h.isOpen_of_blocked hreader
  | close =>
      obtain ⟨hreader, -⟩ := Option.ite_none_right_eq_some.mp hstep
      exact h.isOpen_of_leaving hreader
  | shut =>
      obtain ⟨⟨hkiller, -⟩, -⟩ := Option.ite_none_right_eq_some.mp hstep
      exact h.isOpen_of_closing hkiller
  | start | deadlineSet | deadlineClear | waitCallbackDone | lookAtPid | deadlineCallbackOnce
  | lookAtIn | reset => exact huses.elim

/-- A process is started when the pipes of the one before have been closed. -/
theorem Stands.isOpen_of_start (h : Stands s.reader s.killer s.link fate) (hapart : Apart s .start)
    (hstep : Lifecycle.step .start s = some s') : s.link.isOpen = false := by
  obtain ⟨⟨hreader, hpid⟩, -⟩ := Option.ite_none_right_eq_some.mp hstep
  change s.killer = .outside at hapart
  rw [hapart] at h
  rw [h.link_eq] at hpid ⊢
  cases fate with
  | off => rfl
  | running | crashed => cases hpid

/-! ## Every interleaving -/

theorem Orderly.of_append_left {before after : List Action} (h : Orderly (before ++ after)) :
    Orderly before := by
  intro first a rest hsplit
  exact h first a (rest ++ after) (by rw [hsplit, List.append_assoc, List.cons_append])

/-- The members of the engine follow its fate.  By induction on the run, with `Stands.step`
for its last step. -/
theorem stands_runs (hruns : runs step schedule {} = some s) (horderly : Orderly schedule) :
    Stands s.reader s.killer s.link (fates schedule).1 ∧ s.deadline = (fates schedule).2 := by
  refine invariant_along (fun done r => Orderly done →
    Stands r.reader r.killer r.link (fates done).1 ∧ r.deadline = (fates done).2)
    (fun _ => ⟨.calm .off, rfl⟩) ?_ hruns horderly
  intro done r a r' hr ih hstep horderly
  obtain ⟨hdone, hlast⟩ := throughout_snoc.mp horderly
  obtain ⟨hstands, hdeadline⟩ := ih hdone
  have hapart : Apart r a := hlast r hr
  rw [fates_snoc, ← hdeadline]
  exact ⟨hstands.step hapart hstep, hstands.deadline_step hapart hstep⟩

/-- **The pipes of an engine are used safely, and it is what the calls have made of it.**
In every interleaving in which the threads stay apart where nothing keeps them apart, no
thread reads, writes or closes the pipes unless they are open, and a process is only
started when those of the one before have been closed.  When no callback runs, `is_ok` and
`is_crashed` tell what the engine is after the same calls, each of which happens at once. -/
theorem fates_runs (hruns : runs step schedule {} = some s) (horderly : Orderly schedule) :
    (∀ before a after r, schedule = before ++ a :: after → runs step before {} = some r →
      (Uses r a → r.link.isOpen = true) ∧ (a = .start → r.link.isOpen = false)) ∧
    (s.killer = .outside →
      s.link.isOk = decide ((fates schedule).1 ≠ .off) ∧
      s.link.isCrashed = decide ((fates schedule).1 = .crashed)) ∧
    s.deadline = (fates schedule).2 := by
  obtain ⟨hstands, hdeadline⟩ := stands_runs hruns horderly
  refine ⟨?_, ?_, hdeadline⟩
  · rintro before a after r rfl hr
    obtain ⟨r₁, r', hr₁, hstep, -⟩ := exists_of_mid hruns
    rw [hr, Option.some.injEq] at hr₁
    subst hr₁
    have hapart := horderly before a after rfl r hr
    obtain ⟨hbefore, -⟩ := stands_runs hr horderly.of_append_left
    refine ⟨hbefore.isOpen_of_uses hapart hstep, ?_⟩
    rintro rfl
    exact hbefore.isOpen_of_start hapart hstep
  · intro hkiller
    rw [hkiller] at hstands
    rw [hstands.link_eq]
    cases (fates schedule).1 <;> exact ⟨rfl, rfl⟩

/-- The engine does not answer `START`: the callback terminates it while the worker reads. -/
def timedOut : List Action :=
  [.start, .deadlineSet "pela".toList 3000 "start".toList (some ()), .readln, .deadlineCallbackOnce,
    .lookAtIn, .getline false, .shut, .reset, .waitCallbackDone, .lookAtPid, .deadlineClear]

theorem fates_runs_timedOut :
    ∃ s, runs step timedOut {} = some s ∧ s.link.isOk = decide ((fates timedOut).1 ≠ .off) ∧
      s.link.isCrashed = decide ((fates timedOut).1 = .crashed) :=
  ⟨_, rfl, (fates_runs rfl (by decide)).2.1 rfl⟩

/-- The engine crashes when its deadline has just been missed: both threads find the pipes
open, and close them. -/
theorem closed_twice :
    ∃ schedule a s, runs step schedule {} = some s ∧ (step a s).isSome ∧ Uses s a ∧
      s.link.isOpen = false :=
  ⟨[.start, .deadlineSet "pela".toList 3000 "start".toList (some ()), .readln, .getline false,
    .waitCallbackDone, .lookAtPid, .deadlineCallbackOnce, .lookAtIn, .close], .shut, _, rfl, rfl,
    trivial, rfl⟩

end Lifecycle

end GomokuCli
