import GomokuCli.JobRuns
import GomokuCli.SeqWriter

/-!
# Tournaments

The threads of a tournament: any number of workers, each in the loop of
`thread_start`, and the main thread, which polls the queue until it is done.
They share the queue and the writers of the output files.  Between two calls of
these a worker only changes its own state, so that the schedule of the calls and
of the ends of games is all there is to an interleaving.
-/

namespace GomokuCli

open Interleaving JobQueue

/-- The files that are written by a `SeqWriter`. -/
inductive OutputFile
  | pgn
  | sgf
  | msg
  deriving DecidableEq, Repr

/-- The settings of a tournament that `thread_start` reads, with what its games turn out to
be.  What is known of a game is its outcome and its record; how it is played is another
matter. -/
structure Tournament where
  gauntlet : Bool
  saveLoseOnly : Bool
  /-- the file has a name, and so a writer -/
  writes : OutputFile → Bool
  /-- `options.sprt && options.sprtParam.done(wldCount)` -/
  sprtDone : (Result → Nat) → Bool
  /-- what `play` returns for the game with an index -/
  outcome : Nat → Result
  /-- `export_pgn`, `export_sgf` and the messages of the game with an index -/
  record : OutputFile → Nat → List Char

namespace Tournament

/-- The condition under which `thread_start` saves a game. -/
def saves (o : Tournament) (idx : Nat) : Bool :=
  !o.gauntlet || !o.saveLoseOnly || o.outcome idx == .loss

/-- The files to which a game is pushed, in their order. -/
def filesOf (o : Tournament) (idx : Nat) : List OutputFile :=
  if o.saves idx then [.pgn, .sgf, .msg].filter o.writes else []

/-- A tournament that writes nothing and in which every game is a draw. -/
def friendly : Tournament where
  gauntlet := false
  saveLoseOnly := false
  writes _ := false
  sprtDone _ := false
  outcome _ := .draw
  record _ _ := []

/-- Where a worker is in the loop of `thread_start`.  Each phase but the first one begins
with the answer of a call, which it keeps. -/
inductive Phase
  /-- at `jq->pop` -/
  | waiting
  | playing (job : Job) (idx : Nat)
  /-- after the game, with the files that are still to be written -/
  | saving (job : Job) (idx : Nat) (files : List OutputFile)
  /-- after `jq->add_result` -/
  | updating (wldCount : Result → Nat)
  /-- the loop has ended -/
  | left

/-- The job that a worker holds, with its index. -/
def Phase.game : Phase → Option (Job × Nat)
  | .playing job idx => some (job, idx)
  | .saving job idx _ => some (job, idx)
  | _ => none

/-- The phase after a call of `pop`. -/
def Phase.ofPop : Option (Job × Nat × Nat) → Phase
  | some (job, idx, _) => .playing job idx
  | none => .left

/-- The state that the threads share, and where each of them is.  Which games have finished
is not in the source; it only records what happened. -/
structure State where
  session : Session
  phase : Nat → Phase
  writer : OutputFile → SeqWriter
  /-- the games whose results have been added -/
  finished : List Nat
  /-- the main thread is in its loop -/
  supervising : Bool

/-- All threads have been started. -/
def start (q : JobQueue) : State where
  session := .start q
  phase _ := .waiting
  writer _ := .new
  finished := []
  supervising := true

/-- A step of a worker, or a poll of the main thread. -/
inductive Action
  | pop (w : Nat)
  | setName (w ei : Nat) (name : List Char)
  | endGame (w : Nat)
  | push (w : Nat)
  | addResult (w : Nat)
  | stop (w : Nat)
  | goOn (w : Nat)
  | poll
  deriving DecidableEq, Repr

/-- The worker that takes a step. -/
def Action.worker : Action → Option Nat
  | .pop w | .setName w _ _ | .endGame w | .push w | .addResult w | .stop w | .goOn w => some w
  | .poll => none

/-- A worker goes on to another phase. -/
def State.setPhase (s : State) (w : Nat) (p : Phase) : State :=
  { s with phase := Function.update s.phase w p }

/-- One step.  It is a call of the queue or of a writer, each under its mutex, or what a
worker does between two of them. -/
def step (o : Tournament) : Action → State → Option State
  | .pop w, s =>
      match s.phase w with
      | .waiting =>
          (Session.step (.pop w) s.session).map fun session =>
            { s with session := session }.setPhase w (.ofPop s.session.queue.pop.1)
      | _ => none
  | .setName w ei name, s =>
      match s.phase w with
      | .playing job _ =>
          if ei = job.ei.1 ∨ ei = job.ei.2 then
            (Session.step (.setName w ei name) s.session).map fun session =>
              { s with session := session }
          else none
      | _ => none
  | .endGame w, s =>
      match s.phase w with
      | .playing job idx => some (s.setPhase w (.saving job idx (o.filesOf idx)))
      | _ => none
  | .push w, s =>
      match s.phase w with
      | .saving job idx (f :: files) =>
          ((s.writer f).push ⟨idx, o.record f idx⟩).map fun writer =>
            { s with writer := Function.update s.writer f writer }.setPhase w
              (.saving job idx files)
      | _ => none
  | .addResult w, s =>
      match s.phase w with
      | .saving job idx [] =>
          (s.session.queue.addResult job.pair (o.outcome idx)).bind fun r =>
            (Session.step (.addResult w job.pair (o.outcome idx)) s.session).map fun session =>
              { s with session := session, finished := s.finished ++ [idx] }.setPhase w
                (.updating r.1)
      | _ => none
  | .stop w, s =>
      match s.phase w with
      | .updating wldCount =>
          if o.sprtDone wldCount then
            (Session.step (.stop w) s.session).map fun session =>
              { s with session := session }.setPhase w .waiting
          else none
      | _ => none
  | .goOn w, s =>
      match s.phase w with
      | .updating wldCount => if o.sprtDone wldCount then none else some (s.setPhase w .waiting)
      | _ => none
  | .poll, s =>
      if s.supervising then
        (Session.step .done s.session).map fun session =>
          { s with session := session, supervising := !s.session.queue.done }
      else none

/-- What one step does, with the call of the queue that it makes.  Every invariant of a
tournament is proved from these cases. -/
inductive Moves (o : Tournament) (s : State) : Action → State → Prop
  | popped (w : Nat) (hw : s.phase w = .waiting)
      (h : s.session.queue.idx < s.session.queue.jobs.length) (session : Session)
      (hlogs : s.session.Logs (.popped w s.session.queue.jobs[s.session.queue.idx]
        s.session.queue.idx s.session.queue.jobs.length) session) :
      Moves o s (.pop w) ({ s with session := session }.setPhase w
        (.playing s.session.queue.jobs[s.session.queue.idx] s.session.queue.idx))
  | refused (w : Nat) (hw : s.phase w = .waiting)
      (h : s.session.queue.jobs.length ≤ s.session.queue.idx) (session : Session)
      (hlogs : s.session.Logs (.refused w) session) :
      Moves o s (.pop w) ({ s with session := session }.setPhase w .left)
  | named (w ei : Nat) (name : List Char) (session : Session)
      (hlogs : s.session.Logs (.named w ei name) session) :
      Moves o s (.setName w ei name) { s with session := session }
  | ended (w : Nat) (job : Job) (idx : Nat) (hw : s.phase w = .playing job idx) :
      Moves o s (.endGame w) (s.setPhase w (.saving job idx (o.filesOf idx)))
  | pushed (w : Nat) (job : Job) (idx : Nat) (f : OutputFile) (files : List OutputFile)
      (hw : s.phase w = .saving job idx (f :: files)) (writer : SeqWriter)
      (hwriter : (s.writer f).push ⟨idx, o.record f idx⟩ = some writer) :
      Moves o s (.push w)
        ({ s with writer := Function.update s.writer f writer }.setPhase w
          (.saving job idx files))
  | added (w : Nat) (job : Job) (idx : Nat) (hw : s.phase w = .saving job idx [])
      (session : Session) (wldCount : Result → Nat)
      (hlogs : s.session.Logs (.added w job.pair (o.outcome idx) wldCount) session) :
      Moves o s (.addResult w)
        ({ s with session := session, finished := s.finished ++ [idx] }.setPhase w
          (.updating wldCount))
  | stopped (w : Nat) (wldCount : Result → Nat) (hw : s.phase w = .updating wldCount)
      (session : Session) (hlogs : s.session.Logs (.stopped w) session) :
      Moves o s (.stop w) ({ s with session := session }.setPhase w .waiting)
  | wentOn (w : Nat) (wldCount : Result → Nat) (hw : s.phase w = .updating wldCount) :
      Moves o s (.goOn w) (s.setPhase w .waiting)
  | polled (h : s.supervising = true) (session : Session)
      (hlogs : s.session.Logs (.polled s.session.queue.done) session) :
      Moves o s .poll { s with session := session, supervising := !s.session.queue.done }

variable {o : Tournament} {q : JobQueue} {s s' : State} {a : Action} {schedule : List Action}

theorem moves_of_step (h : step o a s = some s') : Moves o s a s' := by
  cases a with
  | pop w =>
      simp only [step] at h
      split at h
      case h_1 hw =>
        obtain ⟨session, hsession, rfl⟩ := Option.map_eq_some_iff.mp h
        cases Session.moves_of_step hsession with
        | popped _ hidx =>
            rw [pop_of_lt hidx]
            exact .popped w hw hidx _ ⟨hsession, rfl⟩
        | refused _ hidx =>
            rw [pop_of_le hidx]
            exact .refused w hw hidx _ ⟨hsession, rfl⟩
      case h_2 => cases h
  | setName w ei name =>
      simp only [step] at h
      split at h
      case h_1 =>
        rw [Option.ite_none_right_eq_some] at h
        obtain ⟨session, hsession, rfl⟩ := Option.map_eq_some_iff.mp h.2
        cases Session.moves_of_step hsession with
        | named => exact .named w ei name _ ⟨hsession, rfl⟩
      case h_2 => cases h
  | endGame w =>
      simp only [step] at h
      split at h
      case h_1 job idx hw =>
        cases h
        exact .ended w job idx hw
      case h_2 => cases h
  | push w =>
      simp only [step] at h
      split at h
      case h_1 job idx f files hw =>
        obtain ⟨writer, hwriter, rfl⟩ := Option.map_eq_some_iff.mp h
        exact .pushed w job idx f files hw writer hwriter
      case h_2 => cases h
  | addResult w =>
      simp only [step] at h
      split at h
      case h_1 job idx hw =>
        obtain ⟨r, hr, h⟩ := Option.bind_eq_some_iff.mp h
        obtain ⟨session, hsession, rfl⟩ := Option.map_eq_some_iff.mp h
        cases Session.moves_of_step hsession with
        | added _ _ _ hpair =>
            rw [JobQueue.addResult, dif_pos hpair] at hr
            cases hr
            exact .added w job idx hw _ _ ⟨hsession, rfl⟩
      case h_2 => cases h
  | stop w =>
      simp only [step] at h
      split at h
      case h_1 wldCount hw =>
        rw [Option.ite_none_right_eq_some] at h
        obtain ⟨session, hsession, rfl⟩ := Option.map_eq_some_iff.mp h.2
        cases Session.moves_of_step hsession with
        | stopped => exact .stopped w wldCount hw _ ⟨hsession, rfl⟩
      case h_2 => cases h
  | goOn w =>
      simp only [step] at h
      split at h
      case h_1 wldCount hw =>
        rw [Option.ite_none_left_eq_some] at h
        cases h.2
        exact .wentOn w wldCount hw
      case h_2 => cases h
  | poll =>
      rw [step, Option.ite_none_right_eq_some] at h
      obtain ⟨hsupervising, h⟩ := h
      obtain ⟨session, hsession, rfl⟩ := Option.map_eq_some_iff.mp h
      cases Session.moves_of_step hsession with
      | polled => exact .polled hsupervising _ ⟨hsession, rfl⟩

/-! ## The queue -/

/-- **Simulation.** The queue only sees calls, so whatever holds of it under any
interleaving holds in a tournament. -/
theorem simulates_session (o : Tournament) :
    Simulates (step o) Session.step State.session := by
  intro a s s' h
  cases moves_of_step h with
  | popped _ _ _ session hlogs | refused _ _ _ session hlogs | named _ _ _ session hlogs
  | added _ _ _ _ session _ hlogs | stopped _ _ _ session hlogs | polled _ session hlogs =>
      exact ⟨[_], runs_singleton.trans hlogs.step⟩
  | ended | pushed | wentOn => exact ⟨[], rfl⟩

/-- The queue of a tournament is one under some interleaving. -/
theorem tracks_runs (hfresh : q.Fresh) (hruns : runs (step o) schedule (start q) = some s) :
    Tracks q s.session := by
  obtain ⟨calls, hcalls⟩ := runs_of_simulates (simulates_session o) hruns
  exact hfresh.tracks_runs hcalls

/-! ## Who holds which job -/

@[simp] theorem setPhase_phase_self (s : State) (w : Nat) (p : Phase) :
    (s.setPhase w p).phase w = p := by
  unfold State.setPhase
  exact Function.update_self w p s.phase

theorem setPhase_phase_of_ne {w w' : Nat} (h : w' ≠ w) (s : State) (p : Phase) :
    (s.setPhase w p).phase w' = s.phase w' := by
  unfold State.setPhase
  exact Function.update_of_ne h p s.phase

/-- What is read off the phases does not change when a phase with the same reading
takes the place of another. -/
theorem setPhase_congr {α : Type*} (φ : Phase → α) {w : Nat} {p p' : Phase}
    (hw : s.phase w = p') (hp : φ p = φ p') (w' : Nat) :
    φ ((s.setPhase w p).phase w') = φ (s.phase w') := by
  rcases eq_or_ne w' w with rfl | hne
  · rw [setPhase_phase_self, hw, hp]
  · rw [setPhase_phase_of_ne hne]

/-- What is read off a phase comes from the worker that went on, or from another one. -/
theorem setPhase_cases {α : Type*} (φ : Phase → Option α) {w w' : Nat} {p : Phase} {x : α}
    (h : φ ((s.setPhase w p).phase w') = some x) :
    (w' = w ∧ φ p = some x) ∨ (w' ≠ w ∧ φ (s.phase w') = some x) := by
  rcases eq_or_ne w' w with rfl | hne
  · rw [setPhase_phase_self] at h
    exact Or.inl ⟨rfl, h⟩
  · rw [setPhase_phase_of_ne hne] at h
    exact Or.inr ⟨hne, h⟩

@[simp] theorem setPhase_session (s : State) (w : Nat) (p : Phase) :
    (s.setPhase w p).session = s.session := rfl

@[simp] theorem setPhase_writer (s : State) (w : Nat) (p : Phase) :
    (s.setPhase w p).writer = s.writer := rfl

@[simp] theorem setPhase_finished (s : State) (w : Nat) (p : Phase) :
    (s.setPhase w p).finished = s.finished := rfl

/-- **The invariant of the jobs**: every job that was handed out is held by one worker, or
its result was added.  No two workers hold the same one, which is what makes the records of
a game come from one place. -/
structure Books (s : State) : Prop where
  held : ∀ w g, (s.phase w).game = some g → g ∈ handedOut s.session.log ∧ g.2 ∉ s.finished
  alone : ∀ w w' g g', (s.phase w).game = some g → (s.phase w').game = some g' →
    g.2 = g'.2 → w = w'
  covered : ∀ g ∈ handedOut s.session.log, g.2 ∈ s.finished ∨ ∃ w, (s.phase w).game = some g
  finished : ∀ idx ∈ s.finished, idx ∈ (handedOut s.session.log).map Prod.snd
  nodup : s.finished.Nodup

theorem Books.start (q : JobQueue) : Books (start q) where
  held _ _ h := by cases h
  alone _ _ _ _ h := by cases h
  covered _ h := by cases h
  finished _ h := by cases h
  nodup := List.nodup_nil

/-- A step that neither takes a job nor gives a result. -/
theorem Books.same (h : Books s) (hgame : ∀ w, (s'.phase w).game = (s.phase w).game)
    (hhanded : handedOut s'.session.log = handedOut s.session.log)
    (hfinished : s'.finished = s.finished) : Books s' := by
  refine ⟨?_, ?_, ?_, ?_, ?_⟩
  · intro w g hg
    rw [hhanded, hfinished]
    exact h.held w g ((hgame w).symm.trans hg)
  · intro w w' g g' hg hg'
    exact h.alone w w' g g' ((hgame w).symm.trans hg) ((hgame w').symm.trans hg')
  · intro g hg
    rw [hhanded] at hg
    simp only [hfinished, hgame]
    exact h.covered g hg
  · rw [hhanded, hfinished]
    exact h.finished
  · rw [hfinished]
    exact h.nodup

theorem handedOut_logs {session : Session} {e : JobQueue.Event} (hlogs : s.session.Logs e session)
    (he : e.handedOut = none) : handedOut session.log = handedOut s.session.log := by
  rw [hlogs.log, handedOut_snoc_none he]

theorem Books.popped (h : Books s) (htracks : Tracks q s.session) {w : Nat}
    (hw : s.phase w = .waiting) {job : Job} {idx : Nat} {session : Session}
    (hhanded : handedOut session.log = handedOut s.session.log ++ [(job, idx)])
    (hidx : idx = (handedOut s.session.log).length) :
    Books ({ s with session := session }.setPhase w (.playing job idx)) := by
  have hnew : idx ∉ (handedOut s.session.log).map Prod.snd := by
    rw [htracks.map_snd_handedOut, hidx, List.mem_range]
    exact Nat.lt_irrefl _
  have hgame : ∀ w' g, ((s.setPhase w (.playing job idx)).phase w').game = some g →
      g = (job, idx) ∧ w' = w ∨ w' ≠ w ∧ (s.phase w').game = some g := by
    intro w' g hg
    obtain ⟨hw', hnew⟩ | hold := setPhase_cases Phase.game hg
    · cases hnew
      exact Or.inl ⟨rfl, hw'⟩
    · exact Or.inr hold
  have hold : ∀ w' g, (s.phase w').game = some g → g.2 ≠ idx := by
    intro w' g hg heq
    exact hnew (heq ▸ List.mem_map_of_mem (h.held w' g hg).1)
  refine ⟨?_, ?_, ?_, ?_, h.nodup⟩
  · intro w' g hg
    change g ∈ handedOut session.log ∧ _
    rw [hhanded]
    obtain ⟨rfl, -⟩ | ⟨-, hg⟩ := hgame w' g hg
    · exact ⟨List.mem_append_right _ (.head _), fun hmem => hnew (h.finished idx hmem)⟩
    · exact ⟨List.mem_append_left _ (h.held w' g hg).1, (h.held w' g hg).2⟩
  · intro w₁ w₂ g₁ g₂ hg₁ hg₂ heq
    obtain ⟨rfl, hw₁⟩ | ⟨-, hold₁⟩ := hgame w₁ g₁ hg₁ <;>
      obtain ⟨rfl, hw₂⟩ | ⟨-, hold₂⟩ := hgame w₂ g₂ hg₂
    · rw [hw₁, hw₂]
    · exact absurd heq.symm (hold w₂ g₂ hold₂)
    · exact absurd heq (hold w₁ g₁ hold₁)
    · exact h.alone w₁ w₂ g₁ g₂ hold₁ hold₂ heq
  · intro g hg
    change g ∈ handedOut session.log at hg
    rw [hhanded] at hg
    rcases List.mem_append.mp hg with hg | hg
    · rcases h.covered g hg with hfinished | ⟨w', hg'⟩
      · exact Or.inl hfinished
      · refine Or.inr ⟨w', ?_⟩
        have hne : w' ≠ w := by
          rintro rfl
          rw [hw] at hg'
          cases hg'
        rw [setPhase_phase_of_ne hne]
        exact hg'
    · refine Or.inr ⟨w, ?_⟩
      rw [setPhase_phase_self, List.mem_singleton.mp hg]
      rfl
  · intro i hi
    change i ∈ (handedOut session.log).map Prod.snd
    rw [hhanded, List.map_append]
    exact List.mem_append_left _ (h.finished i hi)

theorem Books.added (h : Books s) {w : Nat} {p : Phase} {job : Job} {idx : Nat}
    (hw : (s.phase w).game = some (job, idx)) (hp : p.game = none) {session : Session}
    (hhanded : handedOut session.log = handedOut s.session.log) :
    Books ({ s with session := session, finished := s.finished ++ [idx] }.setPhase w p) := by
  have hgame : ∀ w' g, ((s.setPhase w p).phase w').game = some g →
      w' ≠ w ∧ (s.phase w').game = some g := by
    intro w' g hg
    refine (setPhase_cases Phase.game hg).resolve_left fun hnew => ?_
    rw [hp] at hnew
    cases hnew.2
  refine ⟨?_, ?_, ?_, ?_, ?_⟩
  · intro w' g hg
    obtain ⟨hne, hg⟩ := hgame w' g hg
    change g ∈ handedOut session.log ∧ g.2 ∉ s.finished ++ [idx]
    rw [hhanded, List.mem_append, List.mem_singleton]
    refine ⟨(h.held w' g hg).1, ?_⟩
    rintro (hmem | heq)
    · exact (h.held w' g hg).2 hmem
    · exact hne (h.alone w' w g (job, idx) hg hw heq)
  · intro w₁ w₂ g₁ g₂ hg₁ hg₂
    exact h.alone w₁ w₂ g₁ g₂ (hgame w₁ g₁ hg₁).2 (hgame w₂ g₂ hg₂).2
  · intro g hg
    change g ∈ handedOut session.log at hg
    rw [hhanded] at hg
    change g.2 ∈ s.finished ++ [idx] ∨ _
    rcases h.covered g hg with hfinished | ⟨w', hg'⟩
    · exact Or.inl (List.mem_append_left _ hfinished)
    · rcases eq_or_ne w' w with rfl | hne
      · rw [hw] at hg'
        cases hg'
        exact Or.inl (List.mem_append_right _ (.head _))
      · refine Or.inr ⟨w', ?_⟩
        rw [setPhase_phase_of_ne hne]
        exact hg'
  · intro i hi
    change i ∈ (handedOut session.log).map Prod.snd
    rw [hhanded]
    rcases List.mem_append.mp hi with hi | hi
    · exact h.finished i hi
    · rw [List.mem_singleton.mp hi]
      exact List.mem_map_of_mem (h.held w _ hw).1
  · refine List.nodup_append.mpr ⟨h.nodup, List.nodup_singleton idx, ?_⟩
    intro i hi j hj heq
    rw [List.mem_singleton.mp hj] at heq
    exact (h.held w _ hw).2 (heq ▸ hi)

theorem Books.moves (h : Books s) (htracks : Tracks q s.session) (htracks' : Tracks q s'.session)
    (hmoves : Moves o s a s') : Books s' := by
  cases hmoves with
  | popped w hw hidx session hlogs =>
      obtain ⟨-, hnext, -⟩ := Tracks.answers_logs htracks' hlogs
      refine h.popped htracks hw ?_ hnext
      rw [hlogs.log, handedOut_snoc]
      rfl
  | refused w hw hidx session hlogs =>
      exact h.same (setPhase_congr Phase.game hw rfl) (handedOut_logs hlogs rfl) rfl
  | named w ei name session hlogs => exact h.same (fun _ => rfl) (handedOut_logs hlogs rfl) rfl
  | ended w job idx hw => exact h.same (setPhase_congr Phase.game hw rfl) rfl rfl
  | pushed w job idx f files hw writer hwriter =>
      exact h.same (setPhase_congr Phase.game hw rfl) rfl rfl
  | added w job idx hw session wldCount hlogs =>
      have hgame : (s.phase w).game = some (job, idx) := by
        rw [hw]
        rfl
      exact h.added hgame rfl (handedOut_logs hlogs rfl)
  | stopped w wldCount hw session hlogs =>
      exact h.same (setPhase_congr Phase.game hw rfl) (handedOut_logs hlogs rfl) rfl
  | wentOn w wldCount hw => exact h.same (setPhase_congr Phase.game hw rfl) rfl rfl
  | polled hsupervising session hlogs =>
      exact h.same (fun _ => rfl) (handedOut_logs hlogs rfl) rfl

theorem books_runs (hfresh : q.Fresh) (hruns : runs (step o) schedule (start q) = some s) :
    Books s := by
  refine invariant_along (fun _ => Books) (Books.start q) ?_ hruns
  intro done r a r' hr hbooks hstep
  refine hbooks.moves (tracks_runs hfresh hr) ?_ (moves_of_step hstep)
  exact tracks_runs hfresh ((runs_snoc_of hr).trans hstep)

/-- All results have been added, as soon as there are as many as jobs handed out.  Each
result is that of another job, so it is enough to count them. -/
theorem Books.length_finished_iff (h : Books s) (htracks : Tracks q s.session) :
    s.finished.length = (handedOut s.session.log).length ↔
      (∀ g ∈ handedOut s.session.log, g.2 ∈ s.finished) ∧ ∀ w, (s.phase w).game = none := by
  have hsubset : s.finished ⊆ (handedOut s.session.log).map Prod.snd := fun i => h.finished i
  constructor
  · intro hlength
    have hperm : s.finished.Perm ((handedOut s.session.log).map Prod.snd) := by
      refine (List.subperm_of_subset h.nodup hsubset).perm_of_length_le ?_
      rw [List.length_map, hlength]
    have hall : ∀ g ∈ handedOut s.session.log, g.2 ∈ s.finished :=
      fun g hg => hperm.mem_iff.mpr (List.mem_map_of_mem hg)
    refine ⟨hall, fun w => ?_⟩
    cases hg : (s.phase w).game with
    | none => rfl
    | some g => exact absurd (hall g (h.held w g hg).1) (h.held w g hg).2
  · rintro ⟨hall, -⟩
    have hnodup : ((handedOut s.session.log).map Prod.snd).Nodup := by
      rw [htracks.map_snd_handedOut]
      exact List.nodup_range
    have hperm : s.finished.Perm ((handedOut s.session.log).map Prod.snd) := by
      refine (List.perm_ext_iff_of_nodup h.nodup hnodup).mpr fun i => ⟨h.finished i, fun hi => ?_⟩
      obtain ⟨g, hg, rfl⟩ := List.mem_map.mp hi
      exact hall g hg
    rw [hperm.length_eq, List.length_map]

end Tournament

end GomokuCli
