import GomokuCli.Tournament

/-!
# The end of the supervision

The main thread looks after the deadlines until the queue is done.  `done` is
about the jobs that were handed out and not about those that were completed, so
that the loop ends as soon as the last job has been taken.

Whether a poll comes in time can be read off the schedule before it: there is
still a job to hand out, or there are as many results as jobs handed out.
-/

namespace GomokuCli

open Interleaving JobQueue

namespace Tournament

/-- A worker asks for a job. -/
def Action.isPop : Action → Bool
  | .pop _ => true
  | _ => false

/-- A worker stops the tournament. -/
def Action.isStop : Action → Bool
  | .stop _ => true
  | _ => false

/-- A worker adds a result. -/
def Action.isResult : Action → Bool
  | .addResult _ => true
  | _ => false

/-- The number of jobs that a schedule hands out, when there are `size`.  A call of `pop`
after a stop, or when the queue is empty, hands out none. -/
def handedBy (size : Nat) (schedule : List Action) : Nat :=
  min size ((schedule.takeWhile fun a => !a.isStop).countP Action.isPop)

/-- A poll after `before` finds a job that has not been handed out, or no job whose result
is missing.  In the first case the main thread goes on, and in the second one it may leave. -/
def Timely (size : Nat) (before : List Action) : Prop :=
  before.countP Action.isStop = 0 ∧ before.countP Action.isPop < size ∨
    before.countP Action.isResult = handedBy size before

instance (size : Nat) (before : List Action) : Decidable (Timely size before) :=
  inferInstanceAs (Decidable (_ ∨ _))

/-- When the main thread leaves its loop, every job that was handed out has its result, and
no worker is playing.  This is what the deadlines of the engines need to be looked after to
the end. -/
def Supervised (o : Tournament) (q : JobQueue) (schedule : List Action) : Prop :=
  ∀ before after r, schedule = before ++ .poll :: after →
    runs (step o) before (start q) = some r → r.session.queue.done = true →
      (∀ g ∈ handedOut r.session.log, g.2 ∈ r.finished) ∧ ∀ w, (r.phase w).game = none

variable {o : Tournament} {q : JobQueue} {s s' : State} {a : Action}
  {before schedule : List Action} {size : Nat}

/-! ## Counting along a schedule -/

theorem takeWhile_of_running (h : before.countP Action.isStop = 0) (more : List Action) :
    (before ++ more).takeWhile (fun a => !a.isStop) =
      before ++ more.takeWhile fun a => !a.isStop := by
  refine List.takeWhile_append_of_pos fun a ha => ?_
  rw [Bool.not_eq_true', Bool.eq_false_iff]
  exact List.countP_eq_zero.mp h a ha

theorem handedBy_of_running (h : before.countP Action.isStop = 0) :
    handedBy size before = min size (before.countP Action.isPop) := by
  have hall := takeWhile_of_running h []
  rw [List.append_nil, List.takeWhile_nil, List.append_nil] at hall
  rw [handedBy, hall]

/-- After a stop no job is handed out.  The number depends only on the part of the schedule
before it. -/
theorem handedBy_snoc_of_stopped (h : before.countP Action.isStop ≠ 0) (a : Action) :
    handedBy size (before ++ [a]) = handedBy size before := by
  obtain ⟨b, hb, hstop⟩ := List.countP_pos_iff.mp (Nat.pos_of_ne_zero h)
  rw [handedBy, handedBy, List.takeWhile_append, if_neg]
  intro hlength
  have hall := (List.takeWhile_prefix fun a : Action => !a.isStop).eq_of_length hlength
  rw [← hall] at hb
  have hrunning := List.mem_takeWhile_imp hb
  rw [hstop] at hrunning
  cases hrunning

/-- A step that is no call of `pop` hands out no job. -/
theorem handedBy_snoc_of_not_pop (a : Action) (ha : a.isPop = false) :
    handedBy size (before ++ [a]) = handedBy size before := by
  by_cases h : before.countP Action.isStop = 0
  · have hmore : (([a] : List Action).takeWhile fun a => !a.isStop).countP Action.isPop = 0 := by
      refine List.countP_eq_zero.mpr fun b hb => ?_
      rw [List.mem_singleton.mp ((List.takeWhile_sublist _).subset hb), ha]
      exact Bool.false_ne_true
    rw [handedBy_of_running h, handedBy, takeWhile_of_running h, List.countP_append, hmore,
      Nat.add_zero]
  · exact handedBy_snoc_of_stopped h a

/-- A call of `pop` hands out one more job, if there is one. -/
theorem handedBy_snoc_pop (h : before.countP Action.isStop = 0) (w : Nat) :
    handedBy size (before ++ [.pop w]) = min size (before.countP Action.isPop + 1) := by
  have hstop : (before ++ [Action.pop w]).countP Action.isStop = 0 := by
    rw [List.countP_append, h]
    rfl
  rw [handedBy_of_running hstop, List.countP_append]
  rfl

theorem countP_snoc_of_not {p : Action → Bool} (ha : p a = false) :
    (before ++ [a]).countP p = before.countP p := by
  rw [List.countP_append, List.countP_singleton, ha]
  rfl

/-- **The counts of a schedule are those of the state it leads to.** They make it possible
to say on the schedule, without the state, which of the polls come in time. -/
structure Counts (size : Nat) (before : List Action) (s : State) : Prop where
  finished : s.finished.length = before.countP Action.isResult
  handed : (handedOut s.session.log).length = handedBy size before
  stopped : Stopped s.session.log ↔ before.countP Action.isStop ≠ 0

theorem stopped_logs {session : Session} {e : JobQueue.Event} (hlogs : s.session.Logs e session)
    (he : ∀ w, e ≠ .stopped w) : Stopped session.log ↔ Stopped s.session.log := by
  rw [hlogs.log, stopped_snoc_of_ne he]

/-- A step that is neither a result nor a stop. -/
theorem Counts.other (h : Counts size before s) (hresult : a.isResult = false)
    (hstop : a.isStop = false) (hfinished : s'.finished = s.finished)
    (hstopped : Stopped s'.session.log ↔ Stopped s.session.log)
    (hhanded : (handedOut s'.session.log).length = handedBy size (before ++ [a])) :
    Counts size (before ++ [a]) s' where
  finished := by
    rw [countP_snoc_of_not hresult, hfinished]
    exact h.finished
  handed := hhanded
  stopped := by
    rw [countP_snoc_of_not hstop, hstopped]
    exact h.stopped

/-- A step that is neither a call of `pop` nor a result nor a stop. -/
theorem Counts.same (h : Counts size before s) (hpop : a.isPop = false)
    (hresult : a.isResult = false) (hstop : a.isStop = false)
    (hfinished : s'.finished = s.finished)
    (hhanded : handedOut s'.session.log = handedOut s.session.log)
    (hstopped : Stopped s'.session.log ↔ Stopped s.session.log) :
    Counts size (before ++ [a]) s' := by
  refine h.other hresult hstop hfinished hstopped ?_
  rw [handedBy_snoc_of_not_pop a hpop, hhanded]
  exact h.handed

/-- A job that was there has been handed out.  It is the one behind those handed out before,
because the queue has no gaps. -/
theorem Counts.handed_popped (h : Counts q.jobs.length before s)
    (hrunning : ¬ Stopped s.session.log)
    (hidx : (handedOut s.session.log).length < q.jobs.length) (w : Nat) :
    (handedOut s.session.log).length + 1 = handedBy q.jobs.length (before ++ [.pop w]) := by
  have hstop : before.countP Action.isStop = 0 := not_not.mp (mt h.stopped.mpr hrunning)
  have hhanded := h.handed
  rw [handedBy_of_running hstop] at hhanded
  rw [handedBy_snoc_pop hstop]
  omega

/-- No job was left.  Either the tournament has been stopped, or all of them have been
handed out. -/
theorem Counts.handed_refused (h : Counts q.jobs.length before s)
    (hend : Stopped s.session.log ∨ (handedOut s.session.log).length = q.jobs.length) (w : Nat) :
    (handedOut s.session.log).length = handedBy q.jobs.length (before ++ [.pop w]) := by
  by_cases hstop : before.countP Action.isStop = 0
  · have hall := hend.resolve_left fun hstopped => h.stopped.mp hstopped hstop
    have hhanded := h.handed
    rw [handedBy_of_running hstop] at hhanded
    rw [handedBy_snoc_pop hstop]
    omega
  · rw [handedBy_snoc_of_stopped hstop]
    exact h.handed

theorem Counts.moves (h : Counts q.jobs.length before s) (htracks : Tracks q s.session)
    (htracks' : Tracks q s'.session) (hmoves : Moves o s a s') :
    Counts q.jobs.length (before ++ [a]) s' := by
  cases hmoves with
  | popped w hw hidx session hlogs =>
      obtain ⟨hrunning, hnext, -⟩ := Tracks.answers_logs htracks' hlogs
      rw [htracks.jobs, hnext] at hidx
      refine h.other rfl rfl rfl (stopped_logs hlogs nofun) ?_
      rw [← h.handed_popped hrunning hidx]
      change (handedOut session.log).length = _
      rw [hlogs.log, handedOut_snoc, List.length_append]
      rfl
  | refused w hw hidx session hlogs =>
      refine h.other rfl rfl rfl (stopped_logs hlogs nofun) ?_
      rw [← h.handed_refused (Tracks.answers_logs htracks' hlogs)]
      exact congrArg List.length (handedOut_logs hlogs rfl)
  | named w ei name session hlogs =>
      exact h.same rfl rfl rfl rfl (handedOut_logs hlogs rfl) (stopped_logs hlogs nofun)
  | ended w job idx hw => exact h.same rfl rfl rfl rfl rfl Iff.rfl
  | pushed w job idx f files hw writer hwriter => exact h.same rfl rfl rfl rfl rfl Iff.rfl
  | added w job idx hw session wldCount hlogs =>
      refine ⟨?_, ?_, ?_⟩
      · change (s.finished ++ [idx]).length = _
        rw [List.length_append, List.countP_append, h.finished]
        rfl
      · rw [handedBy_snoc_of_not_pop _ rfl]
        exact (congrArg List.length (handedOut_logs hlogs rfl)).trans h.handed
      · rw [countP_snoc_of_not rfl]
        exact (stopped_logs hlogs nofun).trans h.stopped
  | stopped w wldCount hw session hlogs =>
      refine ⟨?_, ?_, ?_⟩
      · rw [countP_snoc_of_not rfl]
        exact h.finished
      · rw [handedBy_snoc_of_not_pop _ rfl]
        exact (congrArg List.length (handedOut_logs hlogs rfl)).trans h.handed
      · rw [List.countP_append]
        refine iff_of_true ?_ (Nat.succ_ne_zero _)
        change Stopped session.log
        rw [hlogs.log, stopped_snoc]
        exact Or.inr ⟨w, rfl⟩
  | wentOn w wldCount hw => exact h.same rfl rfl rfl rfl rfl Iff.rfl
  | polled hsupervising session hlogs =>
      exact h.same rfl rfl rfl rfl (handedOut_logs hlogs rfl) (stopped_logs hlogs nofun)

theorem counts_runs (hfresh : q.Fresh) (hruns : runs (step o) schedule (start q) = some s) :
    Counts q.jobs.length schedule s := by
  refine invariant_along (Counts q.jobs.length) ⟨rfl, ?_, ?_⟩ ?_ hruns
  · rw [handedBy, List.takeWhile_nil, List.countP_nil, Nat.min_zero]
    rfl
  · refine iff_of_false ?_ (fun h => h rfl)
    rintro ⟨w, hmem⟩
    cases hmem
  · intro before r a r' hr hcounts hstep
    exact hcounts.moves (tracks_runs hfresh hr)
      (tracks_runs hfresh ((runs_snoc_of hr).trans hstep)) (moves_of_step hstep)

/-! ## Polls -/

/-- What a poll answers, read off the schedule.  The results do not come into it: `done` is
about the jobs that were taken. -/
theorem done_iff (hfresh : q.Fresh) (hruns : runs (step o) before (start q) = some s) :
    s.session.queue.done = true ↔
      before.countP Action.isStop ≠ 0 ∨ q.jobs.length ≤ before.countP Action.isPop := by
  have htracks := tracks_runs hfresh hruns
  have hcounts := counts_runs hfresh hruns
  have hdone : s.session.queue.done = true ↔ s.session.queue.idx = q.jobs.length := by
    rw [JobQueue.done, beq_iff_eq, htracks.jobs]
  rw [hdone, htracks.idx_eq_iff, hcounts.stopped, hcounts.handed]
  by_cases hstop : before.countP Action.isStop = 0
  · rw [handedBy_of_running hstop]
    omega
  · simp only [hstop, ne_eq, not_false_eq_true, true_or]

/-- **One poll.** It is timely exactly if the main thread either stays or leaves a
tournament in which no game is played. -/
theorem timely_iff (hfresh : q.Fresh) (hruns : runs (step o) before (start q) = some s) :
    Timely q.jobs.length before ↔ (s.session.queue.done = true →
      (∀ g ∈ handedOut s.session.log, g.2 ∈ s.finished) ∧ ∀ w, (s.phase w).game = none) := by
  have hcounts := counts_runs hfresh hruns
  rw [← (books_runs hfresh hruns).length_finished_iff (tracks_runs hfresh hruns),
    done_iff hfresh hruns, hcounts.finished, hcounts.handed, Timely]
  constructor
  · rintro (⟨hstop, hpops⟩ | hall) hdone
    · omega
    · exact hall
  · intro h
    by_cases hall : before.countP Action.isResult = handedBy q.jobs.length before
    · exact Or.inr hall
    · have hrunning := mt h hall
      push Not at hrunning
      exact Or.inl hrunning

/-- **The end of the supervision.** The main thread stays until no game is played any more
exactly in the runs in which every poll is timely.  In particular it leaves too early when
it polls while the last job is being played. -/
theorem supervised_iff (hfresh : q.Fresh) (hruns : runs (step o) schedule (start q) = some s) :
    Supervised o q schedule ↔
      Throughout (fun before a => a = .poll → Timely q.jobs.length before) schedule := by
  constructor
  · rintro h before a after hsplit rfl
    rw [hsplit] at hruns
    obtain ⟨r, -, hr, -, -⟩ := exists_of_mid hruns
    exact (timely_iff hfresh hr).mpr (h before after r hsplit hr)
  · intro h before after r hsplit hr
    exact (timely_iff hfresh hr).mp (h before .poll after hsplit rfl)

/-- The first poll finds a second game to hand out, and the second poll no game. -/
theorem supervised_iff_two_games :
    Supervised friendly (new 2 1 2 false)
      [.pop 0, .poll, .pop 1, .endGame 0, .addResult 0, .endGame 1, .addResult 1, .poll] := by
  obtain ⟨s, hs⟩ := Option.isSome_iff_exists.mp (show (runs (step friendly)
    [.pop 0, .poll, .pop 1, .endGame 0, .addResult 0, .endGame 1, .addResult 1, .poll]
    (start (new 2 1 2 false))).isSome by decide)
  exact (supervised_iff (new_fresh 2 1 2 false) hs).mpr (by decide)

/-- The main thread leaves while the only game is played. -/
theorem not_supervised_last_game :
    ∃ s, runs (step friendly) [.pop 0, .poll] (start (new 2 1 1 false)) = some s ∧
      s.supervising = false ∧ (∃ job, s.phase 0 = .playing job 0) ∧
      ¬ Supervised friendly (new 2 1 1 false) [.pop 0, .poll] := by
  refine ⟨_, rfl, rfl, ⟨_, rfl⟩, fun h => ?_⟩
  have hgame := (h [.pop 0] [] _ rfl rfl rfl).2 0
  cases hgame

end Tournament

end GomokuCli
