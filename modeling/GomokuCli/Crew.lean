import Mathlib.Data.List.Destutter
import GomokuCli.About
import GomokuCli.Completion
import GomokuCli.Repeats

/-!
# The engines of the workers

A worker has two engines, which it keeps from one game to the next.  Before a game it
replaces those that the job does not ask for, and starts again those that have crashed.
The first name under which an engine is started is entered in the queue, where the
updates of the tournament look it up.

The workers with their engines are a refinement of the tournament
(`simulates_tournament`).  In every interleaving the two engines that play are those of
the job, under a name that is not empty, and under the name of the options if there is
one (`seats_runs`); an engine is started once for each stretch of games that it plays,
if it does not crash (`starts_runs`).  An update never reads what is not there, and says
which games have been finished and by whom (`update_runs`).
-/

namespace GomokuCli

open EarlyExit Interleaving JobQueue

/-- The options with which an engine is started.  An engine without a name in the options is
called by what it says of itself. -/
structure Entrant where
  cmd : List Char
  name : List Char
  deriving DecidableEq, Repr

/-- `Engine::start`: the name of the engine, given what it prints.  Without a command, and
without an answer, the program ends. -/
def Entrant.start (e : Entrant) (output : List (List Char)) : Option (List Char) :=
  if e.cmd.isEmpty then none else parseAbout e.cmd e.name output

namespace JobQueue

/-- The rate of the points of the first engine. -/
def score (r : PairResult) : Rat := (r.count .win + r.count .draw / 2) / r.total

/-- A line of an update. -/
structure UpdateRow where
  first : List Char
  second : List Char
  count : Result → Nat
  score : Rat
  total : Nat

/-- `Tournament update`.  The number of games that have been started and that of the games
that are left are what the speed and the estimated time are computed from. -/
structure Update where
  rows : List UpdateRow
  progress : Option (Nat × Nat)

/-- The line for a row of the results.  It has no behaviour for an engine that is not in the
table of the names.  The table has a row for every engine of the tournament, though the name
may be empty. -/
def printRow (q : JobQueue) (r : PairResult) : Option UpdateRow := do
  let first ← q.names[r.ei.1]?
  let second ← q.names[r.ei.2]?
  return { first := first, second := second, count := r.count, score := score r, total := r.total }

/-- What the speed is computed from, if there are games left.  The assertion is that some
have been started. -/
def progress (q : JobQueue) : Option (Option (Nat × Nat)) :=
  if q.idx < q.jobs.length then
    if 0 < q.idx then some (some (q.idx, q.jobs.length - q.idx)) else none
  else some none

/-- `print_results`: the update, if it is time for one.  It has no behaviour for the
frequency zero, and if its assertion fails.  The update is taken from the queue as it is at
the call. -/
def printResults (frequency : Nat) (q : JobQueue) : Option (Option Update) :=
  if q.completed = 0 then some none
  else if frequency = 0 then none
  else if q.completed % frequency = 0 then do
    let rows ← (q.results.filter fun r => r.total != 0).mapM q.printRow
    let progress ← q.progress
    return some { rows := rows, progress := progress }
  else some none

end JobQueue

namespace Crew

/-- `ei[i]` and the name of `engines[i]`.  A slot is empty only before the first game of its
worker. -/
structure Slot where
  ei : Option Nat := none
  name : List Char := []
  deriving DecidableEq, Repr

/-- A tournament, and what the workers know about their engines.  The list of the engines
that were started is not in the source; it only records what happened. -/
structure State where
  tournament : Tournament.State
  slots : Nat → Bool → Slot
  /-- how many slots have been looked at for the job -/
  ready : Nat → Nat
  /-- the worker is about to call `print_results` -/
  printing : Nat → Bool
  /-- the engines that were started because the slot had another one -/
  started : Nat → Bool → List Nat

/-- All threads have been started. -/
def start (q : JobQueue) : State where
  tournament := Tournament.start q
  slots _ _ := {}
  ready _ := 0
  printing _ := false
  started _ _ := []

/-- A step.  To look at a slot a worker finds out whether its engine has crashed, and reads
what it prints when it is started. -/
inductive Action
  | act (a : Tournament.Action)
  | prepare (w : Nat) (crashed : Bool) (output : List (List Char))
  | print (w : Nat)

/-- Names are only entered for engines that have been started; the other steps wait for the
engines and for the update.  All other steps are those of the tournament. -/
def State.blocks (s : State) : Tournament.Action → Bool
  | .setName _ _ _ => true
  | .pop w => s.printing w
  | .endGame w => s.ready w != 2
  | _ => false

/-- The state after a step of the tournament. -/
def State.after (s : State) (a : Tournament.Action) (t : Tournament.State) : State :=
  match a with
  | .pop w => { s with tournament := t, ready := Function.update s.ready w 0 }
  | .stop w | .goOn w =>
      { s with tournament := t, printing := Function.update s.printing w true }
  | _ => { s with tournament := t }

/-- The slot that a worker looks at next. -/
def State.seat (s : State) (w : Nat) : Bool := s.ready w == 1

/-- The state after a slot has been looked at. -/
def State.fill (s : State) (w : Nat) (slot : Slot) : State :=
  { s with
    slots := Function.update s.slots w (Function.update (s.slots w) (s.seat w) slot)
    ready := Function.update s.ready w (s.ready w + 1) }

/-- An engine has been started because the slot had another one. -/
def State.start (s : State) (w e : Nat) : State :=
  { s with
    started := Function.update s.started w
      (Function.update (s.started w) (s.seat w) (s.started w (s.seat w) ++ [e])) }

/-- One step of the tournament with its engines. -/
def step (o : Tournament) (eo : Nat → Entrant) (games : Nat) : Action → State → Option State
  | .act a, s =>
      if s.blocks a then none else (Tournament.step o a s.tournament).map (s.after a)
  | .prepare w crashed output, s =>
      match s.tournament.phase w with
      | .playing job _ =>
          let e := job.engine (s.seat w)
          if 2 ≤ s.ready w then none
          else if (s.slots w (s.seat w)).ei ≠ some e then
            ((eo e).start output).bind fun name =>
              (Tournament.step o (.setName w e name) s.tournament).map fun t =>
                { (s.start w e).fill w ⟨some e, name⟩ with tournament := t }
          else if crashed then ((eo e).start output).map fun name => s.fill w ⟨some e, name⟩
          else some (s.fill w (s.slots w (s.seat w)))
      | _ => none
  | .print w, s =>
      if s.printing w then
        (printResults games s.tournament.session.queue).map fun _ =>
          { s with printing := Function.update s.printing w false }
      else none

/-- What one step does, for each kind of action and each answer of the engine.  Every
invariant of the crew is proved from these cases. -/
inductive Moves (o : Tournament) (eo : Nat → Entrant) (games : Nat) (s : State) :
    Action → State → Prop
  | other (a : Tournament.Action) (t : Tournament.State)
      (ha : (∃ w, a = .push w) ∨ (∃ w, a = .addResult w) ∨ a = .poll)
      (ht : Tournament.step o a s.tournament = some t) :
      Moves o eo games s (.act a) { s with tournament := t }
  | popped (w : Nat) (t : Tournament.State)
      (ht : Tournament.step o (.pop w) s.tournament = some t) :
      Moves o eo games s (.act (.pop w))
        { s with tournament := t, ready := Function.update s.ready w 0 }
  | ended (w : Nat) (t : Tournament.State) (hready : s.ready w = 2)
      (ht : Tournament.step o (.endGame w) s.tournament = some t) :
      Moves o eo games s (.act (.endGame w)) { s with tournament := t }
  | updated (a : Tournament.Action) (w : Nat) (t : Tournament.State)
      (ha : a = .stop w ∨ a = .goOn w) (ht : Tournament.step o a s.tournament = some t) :
      Moves o eo games s (.act a)
        { s with tournament := t, printing := Function.update s.printing w true }
  | seated (w : Nat) (crashed : Bool) (output : List (List Char)) (job : Job) (idx : Nat)
      (name : List Char) (t : Tournament.State)
      (hw : s.tournament.phase w = .playing job idx) (hready : s.ready w < 2)
      (hother : (s.slots w (s.seat w)).ei ≠ some (job.engine (s.seat w)))
      (hstart : (eo (job.engine (s.seat w))).start output = some name)
      (ht : Tournament.step o (.setName w (job.engine (s.seat w)) name) s.tournament = some t) :
      Moves o eo games s (.prepare w crashed output)
        { (s.start w (job.engine (s.seat w))).fill w ⟨some (job.engine (s.seat w)), name⟩ with
          tournament := t }
  | restarted (w : Nat) (output : List (List Char)) (job : Job) (idx : Nat) (name : List Char)
      (hw : s.tournament.phase w = .playing job idx) (hready : s.ready w < 2)
      (hstart : (eo (job.engine (s.seat w))).start output = some name)
      (hsame : (s.slots w (s.seat w)).ei = some (job.engine (s.seat w))) :
      Moves o eo games s (.prepare w true output)
        (s.fill w ⟨some (job.engine (s.seat w)), name⟩)
  | kept (w : Nat) (output : List (List Char)) (job : Job) (idx : Nat)
      (hw : s.tournament.phase w = .playing job idx) (hready : s.ready w < 2)
      (hsame : (s.slots w (s.seat w)).ei = some (job.engine (s.seat w))) :
      Moves o eo games s (.prepare w false output) (s.fill w (s.slots w (s.seat w)))
  | printed (w : Nat) (hw : s.printing w = true) :
      Moves o eo games s (.print w) { s with printing := Function.update s.printing w false }

variable {o : Tournament} {eo : Nat → Entrant} {games : Nat} {q : JobQueue} {s s' r : State}
  {a : Action} {schedule before : List Action} {steps : List Tournament.Action} {w e : Nat}
  {i : Bool}

theorem moves_of_step (h : step o eo games a s = some s') : Moves o eo games s a s' := by
  cases a with
  | act a =>
      rw [step, Option.ite_none_left_eq_some] at h
      obtain ⟨hblocks, h⟩ := h
      obtain ⟨t, ht, rfl⟩ := Option.map_eq_some_iff.mp h
      cases a with
      | pop w => exact .popped w t ht
      | setName => exact absurd rfl hblocks
      | endGame w =>
          have hready : s.ready w = 2 := by simpa [State.blocks] using hblocks
          exact .ended w t hready ht
      | push w => exact .other _ t (Or.inl ⟨w, rfl⟩) ht
      | addResult w => exact .other _ t (Or.inr (Or.inl ⟨w, rfl⟩)) ht
      | stop w => exact .updated _ w t (Or.inl rfl) ht
      | goOn w => exact .updated _ w t (Or.inr rfl) ht
      | poll => exact .other _ t (Or.inr (Or.inr rfl)) ht
  | prepare w crashed output =>
      simp only [step] at h
      split at h
      case h_1 job idx hw =>
        split_ifs at h with hready hother hcrashed
        · obtain ⟨name, hstart, h⟩ := Option.bind_eq_some_iff.mp h
          obtain ⟨t, ht, rfl⟩ := Option.map_eq_some_iff.mp h
          exact .seated w crashed output job idx name t hw (Nat.lt_of_not_le hready) hother
            hstart ht
        · obtain ⟨name, hstart, rfl⟩ := Option.map_eq_some_iff.mp h
          subst hcrashed
          exact .restarted w output job idx name hw (Nat.lt_of_not_le hready) hstart
            (not_not.mp hother)
        · cases h
          obtain rfl := Bool.eq_false_iff.mpr hcrashed
          exact .kept w output job idx hw (Nat.lt_of_not_le hready) (not_not.mp hother)
      case h_2 => cases h
  | print w =>
      rw [step, Option.ite_none_right_eq_some] at h
      obtain ⟨hw, h⟩ := h
      obtain ⟨printed, -, rfl⟩ := Option.map_eq_some_iff.mp h
      exact .printed w hw

/-! ## The tournament -/

/-- **Refinement.** The engines only decide when a step is taken, and under which name an
engine is entered.  So everything that holds of all runs of the tournament holds here as
well. -/
theorem simulates_tournament (o : Tournament) (eo : Nat → Entrant) (games : Nat) :
    Simulates (step o eo games) (Tournament.step o) State.tournament := by
  intro a s s' h
  cases moves_of_step h with
  | other _ _ _ ht | popped _ _ ht | ended _ _ _ ht | updated _ _ _ _ ht
  | seated _ _ _ _ _ _ _ _ _ _ _ ht => exact ⟨[_], runs_singleton.trans ht⟩
  | restarted | kept | printed => exact ⟨[], rfl⟩

theorem tournament_runs (hruns : runs (step o eo games) schedule (start q) = some s) :
    ∃ schedule', runs (Tournament.step o) schedule' (Tournament.start q) = some s.tournament :=
  runs_of_simulates (simulates_tournament o eo games) hruns

/-! ## Names -/

/-- The name of an engine in the queue, which is empty at first. -/
def State.nameOf (s : State) (e : Nat) : List Char :=
  s.tournament.session.queue.names[e]?.getD []

theorem names_of_nameOf_ne (h : s.nameOf e ≠ []) :
    s.tournament.session.queue.names[e]? = some (s.nameOf e) := by
  unfold State.nameOf at h ⊢
  cases hname : s.tournament.session.queue.names[e]? with
  | none =>
      rw [hname] at h
      exact absurd rfl h
  | some name => rfl

/-- **A name stays** in the table.  Another worker may start the same engine under another
name, but the first one is kept. -/
theorem nameOf_of_step (h : step o eo games a s = some s') (hne : s.nameOf e ≠ []) :
    s'.nameOf e = s.nameOf e := by
  obtain ⟨steps, hsteps⟩ := simulates_tournament o eo games a s s' h
  obtain ⟨calls, hcalls⟩ := runs_of_simulates (Tournament.simulates_session o) hsteps
  have hname := names_runs hcalls (names_of_nameOf_ne hne) hne
  rw [State.nameOf, hname]
  rfl

/-- Only `set_name` changes the table. -/
theorem names_of_tournament_step {b : Tournament.Action} {t t' : Tournament.State}
    (h : Tournament.step o b t = some t') (hb : ∀ w e name, b ≠ .setName w e name) :
    t'.session.queue.names = t.session.queue.names := by
  have hcall : ∀ {session : Session} {ev : JobQueue.Event}, t.session.Logs ev session →
      (∀ w e name, ev ≠ .named w e name) → session.queue.names = t.session.queue.names := by
    intro session ev hlogs hev
    have hmoves := Session.moves_of_step hlogs.step
    cases ev with
    | named w e name => exact absurd rfl (hev w e name)
    | popped => cases hmoves <;> rfl
    | refused => cases hmoves <;> rfl
    | added => cases hmoves; rfl
    | stopped => cases hmoves; rfl
    | polled => cases hmoves; rfl
  cases Tournament.moves_of_step h with
  | popped _ _ _ session hlogs | refused _ _ _ session hlogs | added _ _ _ _ session _ hlogs
  | stopped _ _ _ session hlogs | polled _ session hlogs => exact hcall hlogs nofun
  | named w e name => exact absurd rfl (hb w e name)
  | ended | pushed | wentOn => rfl

/-- What `set_name` does to the table. -/
theorem nameOf_setName {t : Tournament.State} {name : List Char} (u : State)
    (h : Tournament.step o (.setName w e name) s.tournament = some t) (hu : u.tournament = t) :
    ∀ e', u.nameOf e' = if e' = e ∧ s.nameOf e = [] then name else s.nameOf e' := by
  obtain ⟨session, hsession, rfl⟩ : ∃ session,
      Session.step (.setName w e name) s.tournament.session = some session ∧
        t = { s.tournament with session := session } := by
    simp only [Tournament.step] at h
    split at h
    case h_1 =>
      rw [Option.ite_none_right_eq_some] at h
      obtain ⟨session, hsession, rfl⟩ := Option.map_eq_some_iff.mp h.2
      exact ⟨session, hsession, rfl⟩
    case h_2 => cases h
  obtain ⟨queue, hqueue, rfl⟩ := Option.map_eq_some_iff.mp hsession
  rw [JobQueue.setName, Option.dite_none_right_eq_some] at hqueue
  obtain ⟨he, hqueue⟩ := hqueue
  intro e'
  have hold : s.nameOf e = s.tournament.session.queue.names[e] := by
    rw [State.nameOf, List.getElem?_eq_getElem he]
    rfl
  rw [hold]
  cases hqueue
  unfold State.nameOf
  rw [hu]
  by_cases hempty : s.tournament.session.queue.names[e] = []
  · simp only [hempty, List.isEmpty_nil, if_true, and_true]
    rcases eq_or_ne e' e with rfl | hne
    · rw [if_pos rfl, List.getElem?_set_self he]
      rfl
    · rw [if_neg hne, List.getElem?_set_ne hne.symm]
  · rw [if_neg fun h => hempty (List.isEmpty_iff.mp h), if_neg fun h => hempty h.2]

/-! ## Who plays -/

/-- The engine that has to be in a slot, when so many slots have been looked at.  Between
two games nothing is demanded of the slots, whose engines may be those of the next job or
not. -/
def seatOf : Tournament.Phase → Nat → Bool → Option Nat
  | .playing job _, ready, i => if i.toNat < ready then some (job.engine i) else none
  | .saving job _ _, _, i => some (job.engine i)
  | _, _, _ => none

/-- An engine has been entered, under the name of the options if there is one.  The name in
the table need not be the one in the slot: the table keeps the first, and the slot has the
last. -/
structure State.Enters (s : State) (eo : Nat → Entrant) (e : Nat) (name : List Char) : Prop where
  entered : s.nameOf e ≠ []
  named : name ≠ []
  asked : (eo e).name ≠ [] → name = (eo e).name

/-- **The invariant of the slots**: what the slots and the table of the names have to do
with the games.  That the right engines sit in the slots of a game is the field `seat`, but
it is not enough: a slot that keeps its engine from an earlier job has to bring its name
along (`slot`), and an update looks up the engines of games whose worker has long gone on to
other ones (`finished`). -/
structure Seated (eo : Nat → Entrant) (q : JobQueue) (s : State) : Prop where
  slot : ∀ w i e, (s.slots w i).ei = some e → s.Enters eo e (s.slots w i).name
  seat : ∀ w i e, seatOf (s.tournament.phase w) (s.ready w) i = some e →
    (s.slots w i).ei = some e
  finished : ∀ idx ∈ s.tournament.finished, ∀ job, q.jobs[idx]? = some job →
    ∀ i, s.nameOf (job.engine i) ≠ []
  table : ∀ e, s.nameOf e ≠ [] → (eo e).name ≠ [] → s.nameOf e = (eo e).name

theorem Seated.start (eo : Nat → Entrant) (q : JobQueue)
    (hnames : ∀ name ∈ q.names, name = []) : Seated eo q (start q) where
  slot _ _ _ h := by cases h
  seat _ _ _ h := by cases h
  finished _ h := by cases h
  table e h := by
    have hname := names_of_nameOf_ne h
    exact absurd (hnames _ (List.mem_of_getElem? hname)) h

/-- An engine that is started has a name.  Otherwise it is called by its command, which is
not empty. -/
theorem start_eq_some {x : Entrant} {output : List (List Char)} {name : List Char}
    (h : x.start output = some name) : name ≠ [] ∧ (x.name ≠ [] → name = x.name) := by
  rw [Entrant.start, Option.ite_none_left_eq_some] at h
  obtain ⟨hcmd, h⟩ := h
  obtain ⟨hasked, hnamed⟩ := name_of_parseAbout h
  exact ⟨hnamed fun hnil => hcmd (List.isEmpty_iff.mpr hnil), hasked⟩

/-- A step that leaves the slots and the table alone keeps the invariant, if it only asks
for engines that were asked for before. -/
theorem Seated.same (h : Seated eo q s) (hslots : s'.slots = s.slots)
    (hnames : ∀ e, s'.nameOf e = s.nameOf e)
    (hseat : ∀ w i e, seatOf (s'.tournament.phase w) (s'.ready w) i = some e →
      seatOf (s.tournament.phase w) (s.ready w) i = some e)
    (hfinished : ∀ idx ∈ s'.tournament.finished, idx ∈ s.tournament.finished ∨
      ∃ w job, q.jobs[idx]? = some job ∧
        ∀ i, seatOf (s.tournament.phase w) (s.ready w) i = some (job.engine i)) :
    Seated eo q s' := by
  refine ⟨?_, ?_, ?_, ?_⟩
  · intro w i e he
    rw [hslots] at he ⊢
    obtain ⟨hentered, hnamed, hasked⟩ := h.slot w i e he
    exact ⟨(hnames e).symm ▸ hentered, hnamed, hasked⟩
  · intro w i e he
    rw [hslots]
    exact h.seat w i e (hseat w i e he)
  · intro idx hidx job hjob i
    rw [hnames]
    rcases hfinished idx hidx with hold | ⟨w, job', hjob', hseated⟩
    · exact h.finished idx hold job hjob i
    · rw [hjob, Option.some.injEq] at hjob'
      subst hjob'
      exact (h.slot w i _ (h.seat w i _ (hseated i))).entered
  · intro e he
    rw [hnames] at he ⊢
    exact h.table e he

theorem toNat_ne_toNat : ∀ i j : Bool, i ≠ j → i.toNat ≠ j.toNat := by decide

theorem seat_toNat (hready : s.ready w < 2) : (s.seat w).toNat = s.ready w := by
  unfold State.seat
  interval_cases s.ready w <;> rfl

theorem fill_slots (s : State) (w : Nat) (slot : Slot) (w' : Nat) (i : Bool) :
    (s.fill w slot).slots w' i = if w' = w ∧ i = s.seat w then slot else s.slots w' i := by
  unfold State.fill
  rcases eq_or_ne w' w with rfl | hne
  · simp only [Function.update_self, true_and, Function.update_apply]
  · rw [if_neg fun h => hne h.1]
    simp only [Function.update_of_ne hne]

theorem fill_ready (s : State) (w : Nat) (slot : Slot) (w' : Nat) :
    (s.fill w slot).ready w' = if w' = w then s.ready w + 1 else s.ready w' := by
  unfold State.fill
  rcases eq_or_ne w' w with rfl | hne
  · rw [if_pos rfl]
    exact Function.update_self w' _ _
  · rw [if_neg hne]
    exact Function.update_of_ne hne _ _

/-- A slot has been looked at, and the engine of the job is in it.  Both branches come down
to this, that in which the engine stays and that in which it is started. -/
theorem Seated.fill (h : Seated eo q s) {job : Job} {idx : Nat} {slot : Slot}
    (hw : s.tournament.phase w = .playing job idx) (hready : s.ready w < 2)
    (hphase : s'.tournament.phase = s.tournament.phase)
    (hfinished : s'.tournament.finished = s.tournament.finished)
    (hslots : s'.slots = (s.fill w slot).slots) (hreadys : s'.ready = (s.fill w slot).ready)
    (hkeeps : ∀ e, s.nameOf e ≠ [] → s'.nameOf e = s.nameOf e)
    (hei : slot.ei = some (job.engine (s.seat w)))
    (henters : s'.Enters eo (job.engine (s.seat w)) slot.name)
    (htable : ∀ e, s'.nameOf e ≠ [] → (eo e).name ≠ [] → s'.nameOf e = (eo e).name) :
    Seated eo q s' := by
  refine ⟨?_, ?_, ?_, htable⟩
  · intro w' i e he
    rw [hslots, fill_slots] at he ⊢
    split_ifs at he ⊢ with hseat
    · rw [hei, Option.some.injEq] at he
      exact he ▸ henters
    · obtain ⟨hentered, hnamed, hasked⟩ := h.slot w' i e he
      exact ⟨(hkeeps e hentered).symm ▸ hentered, hnamed, hasked⟩
  · intro w' i e he
    rw [hslots, fill_slots]
    rw [hphase, hreadys, fill_ready] at he
    rcases eq_or_ne w' w with rfl | hne
    · rw [if_pos rfl, hw, seatOf] at he
      have hat := seat_toNat hready
      by_cases hseat : i = s.seat w'
      · subst hseat
        rw [if_pos (by omega)] at he
        rw [if_pos ⟨rfl, rfl⟩, hei, he]
      · have hne := toNat_ne_toNat i (s.seat w') hseat
        rw [if_neg fun hboth => hseat hboth.2]
        refine h.seat w' i e ?_
        rw [hw, seatOf]
        split_ifs at he with hlt
        rw [if_pos (by omega), he]
    · rw [if_neg hne] at he
      rw [if_neg fun hboth => hne hboth.1]
      exact h.seat w' i e he
  · intro idx' hidx job' hjob i
    rw [hfinished] at hidx
    have hold := h.finished idx' hidx job' hjob i
    rw [hkeeps _ hold]
    exact hold

/-- A worker has gone on to a phase in which no other engine has to be in a slot. -/
theorem seatOf_setPhase {t t₀ : Tournament.State} {p : Tournament.Phase} {ready ready₀ : Nat → Nat}
    (hphase : t.phase = t₀.phase) (hothers : ∀ w' ≠ w, ready w' = ready₀ w')
    (hw : ∀ i e, seatOf p (ready w) i = some e → seatOf (t₀.phase w) (ready₀ w) i = some e) :
    ∀ w' i e, seatOf ((t.setPhase w p).phase w') (ready w') i = some e →
      seatOf (t₀.phase w') (ready₀ w') i = some e := by
  intro w' i e he
  rcases eq_or_ne w' w with rfl | hne
  · rw [Tournament.setPhase_phase_self] at he
    exact hw i e he
  · rw [Tournament.setPhase_phase_of_ne hne, hphase, hothers w' hne] at he
    exact he

/-- **One step keeps the slots right.** The run up to the step is needed because the job of
a game that ends has to be the one at its index. -/
theorem Seated.moves (hfresh : q.Fresh) (h : Seated eo q s)
    (hruns : runs (step o eo games) before (Crew.start q) = some s)
    (hstep : step o eo games a s = some s') : Seated eo q s' := by
  have hkeeps : ∀ e, s.nameOf e ≠ [] → s'.nameOf e = s.nameOf e :=
    fun e => nameOf_of_step hstep
  cases moves_of_step hstep with
  | other b t hb ht =>
      have hnames := names_of_tournament_step ht (by rintro w e name rfl; simp at hb)
      have hnameOf : ∀ e, ({ s with tournament := t } : State).nameOf e = s.nameOf e :=
        fun e => congrArg (·[e]?.getD []) hnames
      cases Tournament.moves_of_step ht with
      | pushed w job idx f files hw writer hwriter =>
          refine h.same rfl hnameOf ?_ fun _ hidx => Or.inl hidx
          refine seatOf_setPhase rfl (fun _ _ => rfl) fun i e he => ?_
          rw [hw]
          exact he
      | added w job idx hw session wldCount hlogs =>
          refine h.same rfl hnameOf ?_ ?_
          · refine seatOf_setPhase rfl (fun _ _ => rfl) fun i e he => ?_
            cases he
          · intro idx' hidx
            rcases List.mem_append.mp hidx with hidx | hidx
            · exact Or.inl hidx
            obtain rfl := List.mem_singleton.mp hidx
            obtain ⟨steps, hsteps⟩ := tournament_runs hruns
            have hgame : (s.tournament.phase w).game = some (job, idx') := by
              rw [hw]
              rfl
            have hmem := (Tournament.tracks_runs hfresh hsteps).handedOut.subset
              ((Tournament.books_runs hfresh hsteps).held w _ hgame).1
            refine Or.inr ⟨w, job, List.mem_zipIdx_iff_getElem?.mp hmem, fun i => ?_⟩
            rw [hw]
            rfl
      | polled hsupervising session hlogs =>
          exact h.same rfl hnameOf (fun _ _ _ he => he) fun _ hidx => Or.inl hidx
      | popped | refused | named | ended | stopped | wentOn => simp at hb
  | popped w t ht =>
      have hnames := names_of_tournament_step ht nofun
      refine h.same rfl (fun e => congrArg (·[e]?.getD []) hnames) ?_ ?_
      · have hzero : ∀ w' ≠ w, Function.update s.ready w 0 w' = s.ready w' :=
          fun w' hne => Function.update_of_ne hne 0 s.ready
        cases Tournament.moves_of_step ht with
        | popped _ hw hidx session hlogs =>
            refine seatOf_setPhase rfl hzero fun i e he => ?_
            simp [seatOf] at he
        | refused _ hw hidx session hlogs =>
            exact seatOf_setPhase rfl hzero fun i e he => by cases he
      · intro idx hidx
        cases Tournament.moves_of_step ht <;> exact Or.inl hidx
  | ended w t hready ht =>
      have hnames := names_of_tournament_step ht nofun
      cases Tournament.moves_of_step ht with
      | ended _ job idx hw =>
          refine h.same rfl (fun e => congrArg (·[e]?.getD []) hnames) ?_ fun _ hidx => Or.inl hidx
          refine seatOf_setPhase rfl (fun _ _ => rfl) fun i e he => ?_
          rw [hw, seatOf, hready, if_pos (Bool.toNat_lt i)]
          exact he
  | updated b w t hb ht =>
      have hnames := names_of_tournament_step ht (by rintro w' e name rfl; simp at hb)
      have hnameOf : ∀ e, ({ s with
          tournament := t, printing := Function.update s.printing w true } : State).nameOf e =
          s.nameOf e := fun e => congrArg (·[e]?.getD []) hnames
      cases Tournament.moves_of_step ht with
      | stopped w' wldCount hw session hlogs =>
          refine h.same rfl hnameOf ?_ fun _ hidx => Or.inl hidx
          exact seatOf_setPhase rfl (fun _ _ => rfl) fun i e he => by cases he
      | wentOn w' wldCount hw =>
          refine h.same rfl hnameOf ?_ fun _ hidx => Or.inl hidx
          exact seatOf_setPhase rfl (fun _ _ => rfl) fun i e he => by cases he
      | popped | refused | named | ended | pushed | added | polled => simp at hb
  | seated w crashed output job idx name t hw hready hother hstart ht =>
      obtain ⟨hnamed, hasked⟩ := start_eq_some hstart
      have hnames := nameOf_setName { (s.start w (job.engine (s.seat w))).fill w
        ⟨some (job.engine (s.seat w)), name⟩ with tournament := t } ht rfl
      refine h.fill hw hready ?_ ?_ rfl rfl hkeeps rfl ⟨?_, hnamed, hasked⟩ ?_
      · cases Tournament.moves_of_step ht
        rfl
      · cases Tournament.moves_of_step ht
        rfl
      · rw [hnames]
        by_cases hempty : s.nameOf (job.engine (s.seat w)) = []
        · rw [if_pos ⟨rfl, hempty⟩]
          exact hnamed
        · rw [if_neg fun hboth => hempty hboth.2]
          exact hempty
      · intro e he hne
        rw [hnames] at he ⊢
        split_ifs at he ⊢ with hboth
        · rw [hboth.1] at hne ⊢
          exact hasked hne
        · exact h.table e he hne
  | restarted w output job idx name hw hready hstart hsame =>
      obtain ⟨hnamed, hasked⟩ := start_eq_some hstart
      have hentered := (h.slot w _ _ hsame).entered
      exact h.fill hw hready rfl rfl rfl rfl (fun _ _ => rfl) rfl ⟨hentered, hnamed, hasked⟩
        h.table
  | kept w output job idx hw hready hsame =>
      obtain ⟨hentered, hnamed, hasked⟩ := h.slot w _ _ hsame
      exact h.fill hw hready rfl rfl rfl rfl (fun _ _ => rfl) hsame ⟨hentered, hnamed, hasked⟩
        h.table
  | printed w hw =>
      exact h.same rfl (fun _ => rfl) (fun _ _ _ he => he) fun _ hidx => Or.inl hidx

/-- **In every interleaving** the slots are right.  By induction on the run, from a queue
without names. -/
theorem seated_runs (hfresh : q.Fresh) (hnames : ∀ name ∈ q.names, name = [])
    (hruns : runs (step o eo games) schedule (start q) = some s) : Seated eo q s := by
  refine invariant_along (fun _ => Seated eo q) (Seated.start eo q hnames) ?_ hruns
  intro done r a r' hr hseated hstep
  exact hseated.moves hfresh hr hstep

/-- The engines of a worker have been looked at, and the result has not been added.  The
records of the game are written in this time, with the names of the engines in them. -/
def State.Plays (s : State) (w : Nat) (job : Job) : Prop :=
  (∃ idx, s.tournament.phase w = .playing job idx ∧ s.ready w = 2) ∨
    ∃ idx files, s.tournament.phase w = .saving job idx files

theorem seatOf_of_plays {job : Job} (h : s.Plays w job) (i : Bool) :
    seatOf (s.tournament.phase w) (s.ready w) i = some (job.engine i) := by
  obtain ⟨idx, hw, hready⟩ | ⟨idx, files, hw⟩ := h
  · rw [hw, seatOf, hready, if_pos (Bool.toNat_lt i)]
  · rw [hw]
    rfl

theorem names_new (engines rounds games : Nat) (gauntlet : Bool) :
    ∀ name ∈ (new engines rounds games gauntlet).names, name = [] :=
  fun _ hname => List.eq_of_mem_replicate hname

/-- **Who plays.** The two engines of a worker that plays a game are those of its job.  They
have a name, both in the slot and in the table of the names, which is that of the options if
there is one; and the one in the table stays. -/
theorem seats_runs {engines rounds : Nat} {gauntlet : Bool} {job : Job}
    (hruns : runs (step o eo games) schedule (start (new engines rounds games gauntlet)) = some s)
    (hplays : s.Plays w job) (i : Bool) :
    (s.slots w i).ei = some (job.engine i) ∧
      s.Enters eo (job.engine i) (s.slots w i).name ∧
      ((eo (job.engine i)).name ≠ [] → s.nameOf (job.engine i) = (eo (job.engine i)).name) ∧
      ∀ more s', runs (step o eo games) more s = some s' →
        s'.nameOf (job.engine i) = s.nameOf (job.engine i) := by
  have hseated := seated_runs (new_fresh engines rounds games gauntlet)
    (names_new engines rounds games gauntlet) hruns
  have hei := hseated.seat w i _ (seatOf_of_plays hplays i)
  have henters := hseated.slot w i _ hei
  refine ⟨hei, henters, hseated.table _ henters.entered, fun more s' hmore => ?_⟩
  refine invariant (fun r => r.nameOf (job.engine i) = s.nameOf (job.engine i)) rfl ?_ hmore
  intro r a r' hr hstep
  rw [nameOf_of_step hstep (hr.symm ▸ henters.entered), hr]

/-- Three engines, of which the options name the first. -/
def threeEntrants (e : Nat) : Entrant :=
  if e = 0 then ⟨"./pela".toList, "Pela".toList⟩
  else if e = 1 then ⟨"./wine".toList, []⟩
  else ⟨"./yixin".toList, []⟩

/-- A worker plays the first job, of the engines 0 and 1, with its update, and takes the
second one, of the engines 0 and 2.  The first slot keeps its engine, and the other one
gets another, which says its name. -/
def secondJob : List Action :=
  [.act (.pop 0), .prepare 0 false ["ok".toList], .prepare 0 false ["name=\"Wine\"".toList],
    .act (.endGame 0), .act (.addResult 0), .act (.goOn 0), .print 0,
    .act (.pop 0), .prepare 0 false [], .prepare 0 false ["name=\"Yixin\"".toList]]

theorem seats_runs_second :
    ∃ s, runs (step Tournament.friendly threeEntrants 1) secondJob (start (new 3 1 1 false)) =
        some s ∧
      (s.slots 0 true).ei = some 2 ∧ s.nameOf 2 ≠ [] := by
  obtain ⟨s, hs⟩ := Option.isSome_iff_exists.mp (show (runs
    (step Tournament.friendly threeEntrants 1) secondJob (start (new 3 1 1 false))).isSome from rfl)
  have hphase : (runs (step Tournament.friendly threeEntrants 1) secondJob
      (start (new 3 1 1 false))).map (fun s => (s.tournament.phase 0, s.ready 0)) =
        some (.playing ⟨(0, 2), 1, 0, 1, false⟩ 1, 2) := rfl
  rw [hs, Option.map_some, Option.some.injEq, Prod.mk.injEq] at hphase
  obtain ⟨hei, henters, -⟩ := seats_runs hs (Or.inl ⟨1, hphase⟩) true
  exact ⟨s, hs, hei, henters.entered⟩

/-! ## How often an engine is started -/

/-- The jobs that a worker has taken. -/
def jobsOf (w : Nat) (log : List JobQueue.Event) : List Job :=
  log.filterMap fun
    | .popped w' job _ _ => if w' = w then some job else none
    | _ => none

/-- The job of which the worker has not yet looked at a slot.  It is in the log already, but
not among the jobs for which the engines were started. -/
def pendingOf : Tournament.Phase → Nat → Bool → List Job
  | .playing job _, ready, i => if ready ≤ i.toNat then [job] else []
  | _, _, _ => []

/-- Without the repetitions, a list goes on where its last entry is another one.  This is
the test that a worker makes before it starts an engine. -/
theorem destutter_concat (l : List Nat) (b : Nat) :
    (l ++ [b]).destutter (· ≠ ·) =
      if l.getLast? = some b then l.destutter (· ≠ ·) else l.destutter (· ≠ ·) ++ [b] := by
  cases l with
  | nil => rfl
  | cons a l =>
      rw [List.cons_append, List.destutter_cons', List.destutter_cons']
      induction l generalizing a with
      | nil =>
          rw [List.nil_append, List.destutter'_singleton, List.destutter'_nil,
            List.getLast?_singleton]
          by_cases hab : a = b
          · rw [if_pos (congrArg some hab), if_neg (not_not.mpr hab)]
          · rw [if_neg (mt Option.some.inj hab), if_pos hab, List.singleton_append]
      | cons c l ih =>
          rw [List.cons_append, List.destutter'_cons, List.destutter'_cons,
            List.getLast?_cons_cons]
          by_cases hac : a ≠ c
          · rw [if_pos hac, if_pos hac, ih c]
            split <;> rfl
          · rw [if_neg hac, if_neg hac, not_not.mp hac, ih c]

/-- **The engines of a slot and the jobs for which it has been looked at.** Which engine is
in the slot is part of the invariant because it decides whether the next one is started: it
is that of the last job. -/
structure Kept (s : State) : Prop where
  seen : ∀ w i, ∃ seen : List Job,
    jobsOf w s.tournament.session.log =
      seen ++ pendingOf (s.tournament.phase w) (s.ready w) i ∧
    s.started w i = (seen.map (·.engine i)).destutter (· ≠ ·) ∧
    (s.slots w i).ei = (seen.map (·.engine i)).getLast?

theorem Kept.start (q : JobQueue) : Kept (start q) where
  seen _ _ := ⟨[], rfl, rfl, rfl⟩

/-- A step that leaves the jobs and the slots alone. -/
theorem Kept.same (h : Kept s) (hslots : s'.slots = s.slots) (hstarted : s'.started = s.started)
    (hjobs : ∀ w, jobsOf w s'.tournament.session.log = jobsOf w s.tournament.session.log)
    (hpending : ∀ w i, pendingOf (s'.tournament.phase w) (s'.ready w) i =
      pendingOf (s.tournament.phase w) (s.ready w) i) : Kept s' where
  seen w i := by
    obtain ⟨seen, hseen⟩ := h.seen w i
    exact ⟨seen, by rwa [hslots, hstarted, hjobs, hpending]⟩

theorem jobsOf_logs {session session' : Session} {ev : JobQueue.Event}
    (hlogs : session.Logs ev session') (hev : ev.handedOut = none) (w : Nat) :
    jobsOf w session'.log = jobsOf w session.log := by
  rw [jobsOf, hlogs.log, List.filterMap_append]
  cases ev with
  | popped => cases hev
  | refused | added | stopped | named | polled => exact List.append_nil _

theorem jobsOf_popped {session session' : Session} {job : Job} {idx count : Nat}
    (hlogs : session.Logs (.popped w job idx count) session') (w' : Nat) :
    jobsOf w' session'.log = jobsOf w' session.log ++ if w = w' then [job] else [] := by
  rw [jobsOf, hlogs.log, List.filterMap_append, ← jobsOf]
  by_cases hw : w = w' <;> simp [hw]

/-- A worker has gone on to a phase with the same pending job. -/
theorem pendingOf_setPhase {t t₀ : Tournament.State} {p : Tournament.Phase}
    {ready ready₀ : Nat → Nat} (hphase : t.phase = t₀.phase)
    (hothers : ∀ w' ≠ w, ready w' = ready₀ w')
    (hw : ∀ i, pendingOf p (ready w) i = pendingOf (t₀.phase w) (ready₀ w) i) (w' : Nat)
    (i : Bool) : pendingOf ((t.setPhase w p).phase w') (ready w') i =
      pendingOf (t₀.phase w') (ready₀ w') i := by
  rcases eq_or_ne w' w with rfl | hne
  · rw [Tournament.setPhase_phase_self]
    exact hw i
  · rw [Tournament.setPhase_phase_of_ne hne, hphase, hothers w' hne]

/-- A slot has been looked at. -/
theorem Kept.fill (h : Kept s) {job : Job} {idx : Nat} {slot : Slot}
    (hw : s.tournament.phase w = .playing job idx) (hready : s.ready w < 2)
    (hphase : s'.tournament.phase = s.tournament.phase)
    (hlog : ∀ w, jobsOf w s'.tournament.session.log = jobsOf w s.tournament.session.log)
    (hslots : s'.slots = (s.fill w slot).slots) (hreadys : s'.ready = (s.fill w slot).ready)
    (hei : slot.ei = some (job.engine (s.seat w)))
    (hstarted : ∀ w' i, s'.started w' i =
      if w' = w ∧ i = s.seat w ∧ (s.slots w i).ei ≠ some (job.engine i)
        then s.started w' i ++ [job.engine i] else s.started w' i) : Kept s' where
  seen w' i := by
    obtain ⟨seen, hjobs, hdestutter, hlast⟩ := h.seen w' i
    rw [hlog, hphase, hreadys, hslots, fill_ready, fill_slots, hstarted]
    by_cases hseat : w' = w ∧ i = s.seat w
    · obtain ⟨rfl, rfl⟩ := hseat
      have hat := seat_toNat hready
      have hpending : pendingOf (s.tournament.phase w') (s.ready w') (s.seat w') = [job] := by
        rw [hw, pendingOf, if_pos (by omega)]
      have hrest : pendingOf (s.tournament.phase w') (s.ready w' + 1) (s.seat w') = [] := by
        rw [hw, pendingOf, if_neg (by omega)]
      rw [hpending] at hjobs
      refine ⟨seen ++ [job], ?_, ?_, ?_⟩
      · rw [if_pos rfl, hrest, List.append_nil, hjobs]
      · rw [List.map_append, List.map_singleton, destutter_concat, ← hlast, hdestutter]
        by_cases hsame : (s.slots w' (s.seat w')).ei = some (job.engine (s.seat w'))
        · rw [if_pos hsame, if_neg fun hall => hall.2.2 hsame]
        · rw [if_neg hsame, if_pos ⟨rfl, rfl, hsame⟩]
      · rw [if_pos ⟨rfl, rfl⟩, hei, List.map_append, List.map_singleton,
          List.getLast?_concat]
    · have hpending : pendingOf (s.tournament.phase w') (if w' = w then s.ready w + 1 else
          s.ready w') i = pendingOf (s.tournament.phase w') (s.ready w') i := by
        rcases eq_or_ne w' w with rfl | hne
        · have hi := toNat_ne_toNat i (s.seat w') fun heq => hseat ⟨rfl, heq⟩
          rw [seat_toNat hready] at hi
          rw [if_pos rfl, hw, pendingOf, pendingOf]
          by_cases hle : s.ready w' ≤ i.toNat
          · rw [if_pos hle, if_pos (by omega)]
          · rw [if_neg hle, if_neg (by omega)]
        · rw [if_neg hne]
      refine ⟨seen, ?_, ?_, ?_⟩
      · rw [hpending, hjobs]
      · rw [if_neg fun hall => hseat ⟨hall.1, hall.2.1⟩, hdestutter]
      · rw [if_neg hseat, hlast]

theorem Kept.moves (h : Kept s) (hmoves : Moves o eo games s a s') : Kept s' := by
  cases hmoves with
  | other b t hb ht =>
      cases Tournament.moves_of_step ht with
      | pushed w job idx f files hw writer hwriter =>
          refine h.same rfl rfl (fun _ => rfl) (pendingOf_setPhase rfl (fun _ _ => rfl) fun i => ?_)
          rw [hw]
          rfl
      | added w job idx hw session wldCount hlogs =>
          refine h.same rfl rfl (jobsOf_logs hlogs rfl)
            (pendingOf_setPhase rfl (fun _ _ => rfl) fun i => ?_)
          rw [hw]
          rfl
      | polled hsupervising session hlogs =>
          exact h.same rfl rfl (jobsOf_logs hlogs rfl) fun _ _ => rfl
      | popped | refused | named | ended | stopped | wentOn => simp at hb
  | popped w t ht =>
      have hothers : ∀ w' ≠ w, Function.update s.ready w 0 w' = s.ready w' :=
        fun w' hne => Function.update_of_ne hne 0 s.ready
      cases Tournament.moves_of_step ht with
      | popped _ hw hidx session hlogs =>
          refine ⟨fun w' i => ?_⟩
          obtain ⟨seen, hjobs, hstarted, hlast⟩ := h.seen w' i
          refine ⟨seen, ?_, hstarted, hlast⟩
          change jobsOf w' session.log = seen ++ pendingOf ((s.tournament.setPhase w _).phase w')
            (Function.update s.ready w 0 w') i
          rw [jobsOf_popped hlogs, hjobs]
          rcases eq_or_ne w' w with rfl | hne
          · rw [if_pos rfl, hw, Tournament.setPhase_phase_self, Function.update_self, pendingOf,
              if_pos (Nat.zero_le _), pendingOf, List.append_nil]
            all_goals nofun
          · rw [if_neg hne.symm, Tournament.setPhase_phase_of_ne hne, hothers w' hne,
              List.append_nil]
      | refused _ hw hidx session hlogs =>
          refine h.same rfl rfl (jobsOf_logs hlogs rfl)
            (pendingOf_setPhase rfl hothers fun i => ?_)
          rw [hw]
          rfl
  | ended w t hready ht =>
      cases Tournament.moves_of_step ht with
      | ended _ job idx hw =>
          refine h.same rfl rfl (fun _ => rfl) (pendingOf_setPhase rfl (fun _ _ => rfl) fun i => ?_)
          rw [hw, pendingOf, pendingOf, hready, if_neg (Nat.not_le.mpr (Bool.toNat_lt i))]
          all_goals nofun
  | updated b w t hb ht =>
      cases Tournament.moves_of_step ht with
      | stopped w' wldCount hw session hlogs =>
          refine h.same rfl rfl (jobsOf_logs hlogs rfl)
            (pendingOf_setPhase rfl (fun _ _ => rfl) fun i => ?_)
          rw [hw]
          rfl
      | wentOn w' wldCount hw =>
          refine h.same rfl rfl (fun _ => rfl) (pendingOf_setPhase rfl (fun _ _ => rfl) fun i => ?_)
          rw [hw]
          rfl
      | popped | refused | named | ended | pushed | added | polled => simp at hb
  | seated w crashed output job idx name t hw hready hother hstart ht =>
      cases Tournament.moves_of_step ht with
      | named _ e _ session hlogs =>
          refine h.fill hw hready rfl (jobsOf_logs hlogs rfl) rfl rfl rfl fun w' i => ?_
          by_cases hseat : w' = w ∧ i = s.seat w
          · obtain ⟨rfl, rfl⟩ := hseat
            rw [if_pos ⟨rfl, rfl, hother⟩]
            simp [State.start, State.fill]
          · rw [if_neg fun hall => hseat ⟨hall.1, hall.2.1⟩]
            rcases eq_or_ne w' w with rfl | hne
            · have hi : i ≠ s.seat w' := fun heq => hseat ⟨rfl, heq⟩
              simp [State.start, State.fill, hi]
            · simp [State.start, State.fill, hne]
  | restarted w output job idx name hw hready hstart hsame =>
      refine h.fill hw hready rfl (fun _ => rfl) rfl rfl rfl fun w' i => ?_
      rw [if_neg]
      · rfl
      · rintro ⟨-, rfl, hne⟩
        exact hne hsame
  | kept w output job idx hw hready hsame =>
      refine h.fill hw hready rfl (fun _ => rfl) rfl rfl hsame fun w' i => ?_
      rw [if_neg]
      · rfl
      · rintro ⟨-, rfl, hne⟩
        exact hne hsame
  | printed w hw => exact h.same rfl rfl (fun _ => rfl) fun _ _ => rfl

/-- **How often an engine is started.** Apart from engines that have crashed, a worker
starts the engines of its jobs in their order, each of them once for a stretch of jobs in
which the slot does not change.  The worker is not in a game, so that it has looked at both
slots for every job it has taken. -/
theorem starts_runs (hruns : runs (step o eo games) schedule (start q) = some s)
    (hw : ∀ job idx, s.tournament.phase w ≠ .playing job idx) (i : Bool) :
    s.started w i =
      ((jobsOf w s.tournament.session.log).map (·.engine i)).destutter (· ≠ ·) := by
  have hkept : Kept s :=
    invariant Kept (Kept.start q) (fun _ _ _ h hstep => h.moves (moves_of_step hstep)) hruns
  obtain ⟨seen, hjobs, hstarted, -⟩ := hkept.seen w i
  have hnone : pendingOf (s.tournament.phase w) (s.ready w) i = [] := by
    cases hphase : s.tournament.phase w with
    | playing job idx => exact absurd hphase (hw job idx)
    | waiting | saving | updating | left => rfl
  rw [hstarted, hjobs, hnone, List.append_nil]

/-- After two jobs with one engine in common, the worker has started that one once, and
each of the others. -/
theorem starts_runs_second :
    ∃ s, runs (step Tournament.friendly threeEntrants 1) (secondJob ++ [.act (.endGame 0)])
        (start (new 3 1 1 false)) = some s ∧
      s.started 0 false = [0] ∧ s.started 0 true = [1, 2] := by
  obtain ⟨s, hs⟩ := Option.isSome_iff_exists.mp (show (runs
    (step Tournament.friendly threeEntrants 1) (secondJob ++ [.act (.endGame 0)])
    (start (new 3 1 1 false))).isSome from rfl)
  have hend : (runs (step Tournament.friendly threeEntrants 1)
      (secondJob ++ [.act (.endGame 0)]) (start (new 3 1 1 false))).map
        (fun s => ((s.tournament.phase 0).saved.isSome,
          (jobsOf 0 s.tournament.session.log).map (·.ei))) = some (true, [(0, 1), (0, 2)]) := rfl
  rw [hs, Option.map_some, Option.some.injEq, Prod.mk.injEq] at hend
  obtain ⟨hsaved, hjobs⟩ := hend
  have hbetween : ∀ job idx, s.tournament.phase 0 ≠ .playing job idx := by
    intro job idx hphase
    rw [hphase] at hsaved
    cases hsaved
  have hengines (i : Bool) : (jobsOf 0 s.tournament.session.log).map (·.engine i) =
      [(0, 1), (0, 2)].map fun ei : Nat × Nat => if i then ei.2 else ei.1 := by
    rw [← hjobs, List.map_map]
    rfl
  refine ⟨s, hs, (starts_runs hs hbetween false).trans ?_, (starts_runs hs hbetween true).trans ?_⟩
  · rw [hengines]
    rfl
  · rw [hengines]
    rfl

/-! ## Updates -/

/-- The line for a row, with the names as they are. -/
def State.rowOf (s : State) (r : PairResult) : UpdateRow where
  first := s.nameOf r.ei.1
  second := s.nameOf r.ei.2
  count := r.count
  score := JobQueue.score r
  total := r.total

/-- What an update says about the games that have been finished.  The rows are counted from
the list of these games, so that it does not matter in which order they came in. -/
structure Truthful (o : Tournament) (q : JobQueue) (games : Nat) (s : State) (u : Update) :
    Prop where
  due : games ∣ s.tournament.finished.length
  rows : u.rows = ((tableOf q.results (s.tournament.finished.map (o.scoreOf q))).filter
    fun r => r.total != 0).map s.rowOf
  named : ∀ row ∈ u.rows, row.first ≠ [] ∧ row.second ≠ []
  score : ∀ row ∈ u.rows, 0 ≤ row.score ∧ row.score ≤ 1
  total : (u.rows.map UpdateRow.total).sum = s.tournament.finished.length
  progress : ∀ p ∈ u.progress, 0 < p.1 ∧ 0 < p.2 ∧ p.1 + p.2 = q.jobs.length

theorem score_nonneg (r : PairResult) : 0 ≤ JobQueue.score r := by
  unfold JobQueue.score
  positivity

theorem score_le_one (r : PairResult) : JobQueue.score r ≤ 1 := by
  unfold JobQueue.score
  refine div_le_one_of_le₀ ?_ (Nat.cast_nonneg _)
  rw [PairResult.total]
  push_cast
  have hdraw : (0 : Rat) ≤ r.count .draw := Nat.cast_nonneg _
  have hloss : (0 : Rat) ≤ r.count .loss := Nat.cast_nonneg _
  linarith

theorem sum_total_filter (rows : List PairResult) :
    ((rows.filter fun r => r.total != 0).map PairResult.total).sum =
      (rows.map PairResult.total).sum := by
  induction rows with
  | nil => rfl
  | cons r rows ih =>
      rw [List.filter_cons, List.map_cons, List.sum_cons, ← ih]
      by_cases hr : r.total = 0
      · rw [if_neg (by simpa using hr), hr, Nat.zero_add]
      · rw [if_pos (by simpa using hr), List.map_cons, List.sum_cons]

/-- A row with results is that of a job that has been finished.  So its two engines have
been started by someone, and have names. -/
theorem exists_job_of_row {t : Tournament.State} (hfresh : q.Fresh)
    (hruns : runs (Tournament.step o) steps (Tournament.start q) = some t)
    (hrows : ∀ j ∈ q.jobs, ∀ r, q.results[j.pair]? = some r → r.ei = j.ei) {r : PairResult}
    (hr : r ∈ tableOf q.results (t.finished.map (o.scoreOf q))) (htotal : r.total ≠ 0) :
    ∃ idx ∈ t.finished, ∃ job, q.jobs[idx]? = some job ∧ r.ei = job.ei := by
  obtain ⟨pair, hpair⟩ := List.mem_iff_getElem?.mp hr
  rw [getElem?_tableOf] at hpair
  obtain ⟨row, hrow, rfl⟩ := Option.map_eq_some_iff.mp hpair
  obtain ⟨outcome, hpos⟩ : ∃ outcome, 0 < (t.finished.map (o.scoreOf q)).count (pair, outcome) := by
    by_contra hnone
    push Not at hnone
    refine htotal ?_
    simp only [PairResult.total, Nat.le_zero.mp (hnone _)]
  obtain ⟨idx, hidx, hscore⟩ := List.mem_map.mp (List.count_pos_iff.mp hpos)
  have htracks := Tournament.tracks_runs hfresh hruns
  obtain ⟨g, hg, rfl⟩ := List.mem_map.mp ((Tournament.books_runs hfresh hruns).finished idx hidx)
  have hjob : q.jobs[g.2]? = some g.1 :=
    List.mem_zipIdx_iff_getElem?.mp (htracks.handedOut.subset hg)
  rw [Tournament.scoreOf, hjob, Prod.mk.injEq] at hscore
  refine ⟨g.2, hidx, g.1, hjob, hrows g.1 (List.mem_of_getElem? hjob) row ?_⟩
  rw [← hrow, ← hscore.1]
  rfl

theorem ei_of_new_results {engines rounds : Nat} {gauntlet : Bool} {j : Job} {r : PairResult}
    (hj : j ∈ (new engines rounds games gauntlet).jobs)
    (hr : (new engines rounds games gauntlet).results[j.pair]? = some r) : r.ei = j.ei := by
  obtain ⟨hpair, -⟩ := mem_jobsOfRound.mp (mem_new_jobs.mp hj).2
  rw [new_results, List.getElem?_map, hpair, Option.map_some, Option.some.injEq] at hr
  rw [← hr]
  rfl

/-- A game that has been finished has been handed out.  This is why the assertion of
`print_results` cannot fail. -/
theorem idx_pos {t : Tournament.State} (hfresh : q.Fresh)
    (hruns : runs (Tournament.step o) steps (Tournament.start q) = some t)
    (hfinished : t.finished ≠ []) (hidx : t.session.queue.idx < q.jobs.length) :
    0 < t.session.queue.idx := by
  have htracks := Tournament.tracks_runs hfresh hruns
  have hrunning : ¬ Stopped t.session.log := fun hstopped => hidx.ne (htracks.idx_stopped hstopped)
  obtain ⟨idx, hmem⟩ := List.exists_mem_of_ne_nil _ hfinished
  have hhanded := (Tournament.books_runs hfresh hruns).finished idx hmem
  rw [htracks.idx_running hrunning, ← List.length_map Prod.snd]
  exact List.length_pos_of_mem hhanded

/-- **Updates.** Whenever a worker calls `print_results`, in whatever interleaving, the
assertion holds and all names can be looked up; and the update, if it is time for one, is
about the games that have been finished, each of them counted once, with a name for every
engine. -/
theorem update_runs {engines rounds : Nat} {gauntlet : Bool} (hgames : 0 < games)
    (hruns : runs (step o eo games) schedule (start (new engines rounds games gauntlet)) =
      some s) :
    ∃ printed, printResults games s.tournament.session.queue = some printed ∧
      ∀ u, printed = some u → Truthful o (new engines rounds games gauntlet) games s u := by
  have hfresh := new_fresh engines rounds games gauntlet
  obtain ⟨steps, hsteps⟩ := tournament_runs hruns
  have htracks := Tournament.tracks_runs hfresh hsteps
  have hseated := seated_runs hfresh (names_new engines rounds games gauntlet) hruns
  have hscored := Tournament.scored_runs hfresh hsteps
  have hcompleted : s.tournament.session.queue.completed = s.tournament.finished.length := by
    rw [htracks.completed, hscored, List.length_map]
  have hresults := htracks.results
  rw [hscored] at hresults
  set rows := s.tournament.session.queue.results.filter fun r => r.total != 0 with hrowsDef
  have hnamed : ∀ r ∈ rows, s.nameOf r.ei.1 ≠ [] ∧ s.nameOf r.ei.2 ≠ [] := by
    intro r hr
    obtain ⟨hmem, htotal⟩ := List.mem_filter.mp hr
    obtain ⟨idx, hidx, job, hjob, hei⟩ := exists_job_of_row hfresh hsteps
      (fun j hj r => ei_of_new_results hj) (hresults ▸ hmem) (bne_iff_ne.mp htotal)
    rw [hei]
    exact ⟨hseated.finished idx hidx job hjob false, hseated.finished idx hidx job hjob true⟩
  have hprinted : rows.mapM s.tournament.session.queue.printRow = some (rows.map s.rowOf) := by
    refine mapM_of_forall fun r hr => ?_
    rw [printRow, names_of_nameOf_ne (hnamed r hr).1, names_of_nameOf_ne (hnamed r hr).2]
    rfl
  by_cases hzero : s.tournament.session.queue.completed = 0
  · exact ⟨none, if_pos hzero, nofun⟩
  by_cases hdue : s.tournament.session.queue.completed % games = 0
  case neg =>
    refine ⟨none, ?_, nofun⟩
    rw [printResults, if_neg hzero, if_neg hgames.ne', if_neg hdue]
  obtain ⟨progress, hprogress, hleft⟩ : ∃ progress,
      s.tournament.session.queue.progress = some progress ∧ ∀ p ∈ progress,
        0 < p.1 ∧ 0 < p.2 ∧ p.1 + p.2 = (new engines rounds games gauntlet).jobs.length := by
    rw [JobQueue.progress, htracks.jobs]
    by_cases hidx : s.tournament.session.queue.idx < (new engines rounds games gauntlet).jobs.length
    · have hfinished : s.tournament.finished ≠ [] := by
        rw [hcompleted] at hzero
        exact List.length_pos_iff.mp (Nat.pos_of_ne_zero hzero)
      have hpos := idx_pos hfresh hsteps hfinished hidx
      refine ⟨_, by rw [if_pos hidx, if_pos hpos], ?_⟩
      rintro p ⟨⟩
      exact ⟨hpos, Nat.sub_pos_of_lt hidx, Nat.add_sub_cancel' hidx.le⟩
    · exact ⟨none, if_neg hidx, nofun⟩
  refine ⟨some ⟨rows.map s.rowOf, progress⟩, ?_, ?_⟩
  · rw [printResults, if_neg hzero, if_neg hgames.ne', if_pos hdue, ← hrowsDef, hprinted,
      hprogress]
    rfl
  rintro u ⟨⟩
  refine ⟨?_, ?_, ?_, ?_, ?_, hleft⟩
  · rw [← hcompleted]
    exact Nat.dvd_of_mod_eq_zero hdue
  · rw [hrowsDef, hresults]
  · intro row hrow
    obtain ⟨r, hr, rfl⟩ := List.mem_map.mp hrow
    exact hnamed r hr
  · intro row hrow
    obtain ⟨r, -, rfl⟩ := List.mem_map.mp hrow
    exact ⟨score_nonneg r, score_le_one r⟩
  · rw [List.map_map, ← hcompleted, ← htracks.total, ← sum_total_filter]
    rfl

/-- An update after the second of three games is about both. -/
theorem update_runs_second :
    ∃ s u, runs (step Tournament.friendly threeEntrants 1)
        (secondJob ++ [.act (.endGame 0), .act (.addResult 0), .act (.goOn 0)])
        (start (new 3 1 1 false)) = some s ∧
      printResults 1 s.tournament.session.queue = some (some u) ∧
      Truthful Tournament.friendly (new 3 1 1 false) 1 s u := by
  obtain ⟨s, hs⟩ := Option.isSome_iff_exists.mp (show (runs
    (step Tournament.friendly threeEntrants 1)
    (secondJob ++ [.act (.endGame 0), .act (.addResult 0), .act (.goOn 0)])
    (start (new 3 1 1 false))).isSome from rfl)
  have hdue : ((runs (step Tournament.friendly threeEntrants 1)
      (secondJob ++ [.act (.endGame 0), .act (.addResult 0), .act (.goOn 0)])
      (start (new 3 1 1 false))).bind fun s =>
        (printResults 1 s.tournament.session.queue).map Option.isSome) = some true := rfl
  rw [hs, Option.bind_some] at hdue
  obtain ⟨printed, hprinted, htruthful⟩ := update_runs Nat.one_pos hs
  rw [hprinted, Option.map_some, Option.some.injEq] at hdue
  obtain ⟨u, rfl⟩ := Option.isSome_iff_exists.mp hdue
  exact ⟨s, u, hs, hprinted, htruthful u rfl⟩

end Crew

end GomokuCli
