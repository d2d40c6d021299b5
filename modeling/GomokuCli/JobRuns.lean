import GomokuCli.Jobs
import GomokuCli.Library.Interleaving

/-!
# The queue under any interleaving

Workers and the main thread call the queue in any order, each call atomic under
its mutex.  A session is the queue with the log of the calls and their answers.
The log alone determines what the queue will answer next (`Answers`): the jobs
go out in the order of the list, each once, and the rows count what was added.
-/

namespace GomokuCli

open Interleaving

namespace JobQueue

/-- `pop`: a job with its index and the number of jobs, or a refusal. -/
def pop (q : JobQueue) : Option (Job × Nat × Nat) × JobQueue :=
  if h : q.idx < q.jobs.length then
    (some (q.jobs[q.idx], q.idx, q.jobs.length), { q with idx := q.idx + 1 })
  else (none, q)

theorem pop_of_lt {q : JobQueue} (h : q.idx < q.jobs.length) :
    q.pop = (some (q.jobs[q.idx], q.idx, q.jobs.length), { q with idx := q.idx + 1 }) :=
  dif_pos h

theorem pop_of_le {q : JobQueue} (h : q.jobs.length ≤ q.idx) : q.pop = (none, q) :=
  dif_neg (Nat.not_lt.mpr h)

/-- `add_result`, with the updated totals of the pair.  It has no behaviour for a pair
without a row, which would be an index outside the vector. -/
def addResult (pair : Nat) (outcome : Result) (q : JobQueue) :
    Option ((Result → Nat) × JobQueue) :=
  if h : pair < q.results.length then
    let row := q.results[pair].add outcome
    some (row.count, { q with results := q.results.set pair row, completed := q.completed + 1 })
  else none

/-- `done` -/
def done (q : JobQueue) : Bool := q.idx == q.jobs.length

/-- `stop` -/
def stop (q : JobQueue) : JobQueue := { q with idx := q.jobs.length }

/-- `set_name`: an engine keeps the first name it is given. -/
def setName (ei : Nat) (name : List Char) (q : JobQueue) : Option JobQueue :=
  if h : ei < q.names.length then
    some (if q.names[ei].isEmpty then { q with names := q.names.set ei name } else q)
  else none

/-- A queue from which nothing was taken and to which nothing was added.  Every run starts
from such a queue, and the constructor returns one (`new_fresh`). -/
structure Fresh (q : JobQueue) : Prop where
  idx : q.idx = 0
  completed : q.completed = 0
  blank : ∀ row ∈ q.results, row = .blank row.ei

theorem new_fresh (engines rounds games : Nat) (gauntlet : Bool) :
    (new engines rounds games gauntlet).Fresh where
  idx := rfl
  completed := rfl
  blank row hrow := by
    rw [new_results] at hrow
    obtain ⟨ei, -, rfl⟩ := List.mem_map.mp hrow
    rfl

/-! ## Calls and their answers -/

/-- A call, with the worker that makes it.  The main thread polls.  The workers only serve
to tell the calls apart: the queue does not know who calls it. -/
inductive Call
  | pop (worker : Nat)
  | addResult (worker pair : Nat) (outcome : Result)
  | stop (worker : Nat)
  | setName (worker ei : Nat) (name : List Char)
  | done
  deriving DecidableEq, Repr

/-- A call with its answer.  The log of a run is a list of these, from the first call to the
last one. -/
inductive Event
  | popped (worker : Nat) (job : Job) (idx count : Nat)
  | refused (worker : Nat)
  | added (worker pair : Nat) (outcome : Result) (totals : Result → Nat)
  | stopped (worker : Nat)
  | named (worker ei : Nat) (name : List Char)
  | polled (answer : Bool)

/-- The call of an event. -/
def Event.call : Event → Call
  | .popped worker _ _ _ => .pop worker
  | .refused worker => .pop worker
  | .added worker pair outcome _ => .addResult worker pair outcome
  | .stopped worker => .stop worker
  | .named worker ei name => .setName worker ei name
  | .polled _ => .done

/-- The queue with the log of what happened to it. -/
structure Session where
  queue : JobQueue
  log : List Event

/-- One call. -/
def Session.step : Call → Session → Option Session
  | .pop worker, s =>
      match s.queue.pop with
      | (some (job, idx, count), q) => some ⟨q, s.log ++ [.popped worker job idx count]⟩
      | (none, q) => some ⟨q, s.log ++ [.refused worker]⟩
  | .addResult worker pair outcome, s =>
      (s.queue.addResult pair outcome).map fun r =>
        ⟨r.2, s.log ++ [.added worker pair outcome r.1]⟩
  | .stop worker, s => some ⟨s.queue.stop, s.log ++ [.stopped worker]⟩
  | .setName worker ei name, s =>
      (s.queue.setName ei name).map fun q => ⟨q, s.log ++ [.named worker ei name]⟩
  | .done, s => some ⟨s.queue, s.log ++ [.polled s.queue.done]⟩

/-- Nothing has been called. -/
def Session.start (q : JobQueue) : Session := ⟨q, []⟩

/-- What one call does to a session.  The invariant is proved for each of these cases,
without a look at the code of the calls. -/
inductive Session.Moves (s : Session) : Call → Session → Prop
  | popped (worker : Nat) (h : s.queue.idx < s.queue.jobs.length) :
      Moves s (.pop worker)
        ⟨{ s.queue with idx := s.queue.idx + 1 },
          s.log ++ [.popped worker s.queue.jobs[s.queue.idx] s.queue.idx s.queue.jobs.length]⟩
  | refused (worker : Nat) (h : s.queue.jobs.length ≤ s.queue.idx) :
      Moves s (.pop worker) ⟨s.queue, s.log ++ [.refused worker]⟩
  | added (worker pair : Nat) (outcome : Result) (h : pair < s.queue.results.length) :
      Moves s (.addResult worker pair outcome)
        ⟨{ s.queue with
            results := s.queue.results.set pair (s.queue.results[pair].add outcome),
            completed := s.queue.completed + 1 },
          s.log ++ [.added worker pair outcome (s.queue.results[pair].add outcome).count]⟩
  | stopped (worker : Nat) :
      Moves s (.stop worker) ⟨s.queue.stop, s.log ++ [.stopped worker]⟩
  | named (worker ei : Nat) (name : List Char) (names : List (List Char))
      (h : ∀ (i : Nat) (old : List Char), s.queue.names[i]? = some old → old ≠ [] →
        names[i]? = some old) :
      Moves s (.setName worker ei name)
        ⟨{ s.queue with names := names }, s.log ++ [.named worker ei name]⟩
  | polled : Moves s .done ⟨s.queue, s.log ++ [.polled s.queue.done]⟩

variable {q : JobQueue} {s s' : Session} {c : Call} {calls : List Call} {e : Event}
  {log : List Event}

theorem Session.moves_of_step (h : Session.step c s = some s') : s.Moves c s' := by
  cases c with
  | pop worker =>
      by_cases hidx : s.queue.idx < s.queue.jobs.length
      · rw [Session.step, pop_of_lt hidx] at h
        cases h
        exact .popped worker hidx
      · rw [Session.step, pop_of_le (Nat.le_of_not_lt hidx)] at h
        cases h
        exact .refused worker (Nat.le_of_not_lt hidx)
  | addResult worker pair outcome =>
      obtain ⟨r, hr, rfl⟩ := Option.map_eq_some_iff.mp h
      rw [JobQueue.addResult, Option.dite_none_right_eq_some] at hr
      obtain ⟨hpair, hr⟩ := hr
      cases hr
      exact .added worker pair outcome hpair
  | stop worker =>
      cases h
      exact .stopped worker
  | setName worker ei name =>
      obtain ⟨named, hnamed, rfl⟩ := Option.map_eq_some_iff.mp h
      rw [JobQueue.setName, Option.dite_none_right_eq_some] at hnamed
      obtain ⟨hei, hnamed⟩ := hnamed
      cases hnamed
      by_cases hempty : s.queue.names[ei].isEmpty
      · rw [if_pos hempty]
        refine .named worker ei name (s.queue.names.set ei name) fun i old hold hne => ?_
        rcases eq_or_ne ei i with rfl | hi
        · rw [List.getElem?_eq_getElem hei, Option.some.injEq] at hold
          rw [hold] at hempty
          exact absurd (List.isEmpty_iff.mp hempty) hne
        · rw [List.getElem?_set_ne hi]
          exact hold
      · rw [if_neg hempty]
        exact .named worker ei name s.queue.names fun _ _ hold _ => hold
  | done =>
      cases h
      exact .polled

/-- A call and what it adds to the log.  It is what a thread of the tournament knows of the
call that it makes. -/
structure Session.Logs (s : Session) (e : Event) (s' : Session) : Prop where
  step : Session.step e.call s = some s'
  log : s'.log = s.log ++ [e]

/-! ## What the log says -/

/-- The job that an event hands out, with its index. -/
def Event.handedOut : Event → Option (Job × Nat)
  | .popped _ job idx _ => some (job, idx)
  | _ => none

/-- The pair and the outcome that a call adds. -/
def Call.scored : Call → Option (Nat × Result)
  | .addResult _ pair outcome => some (pair, outcome)
  | _ => none

/-- The pair and the outcome that an event adds. -/
def Event.scored (e : Event) : Option (Nat × Result) := e.call.scored

/-- The jobs that were handed out, each with its index. -/
def handedOut (log : List Event) : List (Job × Nat) := log.filterMap Event.handedOut

/-- The results that were added. -/
def scored (log : List Event) : List (Nat × Result) := log.filterMap Event.scored

/-- Some worker has stopped the tournament. -/
def Stopped (log : List Event) : Prop := ∃ worker, Event.stopped worker ∈ log

theorem handedOut_snoc : handedOut (log ++ [e]) = handedOut log ++ e.handedOut.toList := by
  rw [handedOut, List.filterMap_append]
  cases h : e.handedOut <;> simp [h, handedOut]

theorem scored_snoc : scored (log ++ [e]) = scored log ++ e.scored.toList := by
  rw [scored, List.filterMap_append]
  cases h : e.scored <;> simp [h, scored]

theorem stopped_snoc : Stopped (log ++ [e]) ↔ Stopped log ∨ ∃ worker, e = .stopped worker := by
  simp only [Stopped, List.mem_append, List.mem_singleton, exists_or, eq_comm]

theorem handedOut_snoc_none (he : e.handedOut = none) :
    handedOut (log ++ [e]) = handedOut log := by
  rw [handedOut_snoc, he, Option.toList_none, List.append_nil]

theorem scored_snoc_none (he : e.scored = none) : scored (log ++ [e]) = scored log := by
  rw [scored_snoc, he, Option.toList_none, List.append_nil]

theorem stopped_snoc_of_ne (he : ∀ worker, e ≠ .stopped worker) :
    Stopped (log ++ [e]) ↔ Stopped log := by
  rw [stopped_snoc, or_iff_left]
  rintro ⟨worker, heq⟩
  exact he worker heq

/-- **What a call answers**, in terms of the calls before it.  The state of the queue does
not occur: the log is all that an observer can see. -/
def Answers (q : JobQueue) (before : List Event) : Event → Prop
  | .popped _ job idx count =>
      ¬ Stopped before ∧ idx = (handedOut before).length ∧ q.jobs[idx]? = some job ∧
        count = q.jobs.length
  | .refused _ => Stopped before ∨ (handedOut before).length = q.jobs.length
  | .added _ pair outcome totals =>
      pair < q.results.length ∧
        ∀ o, totals o = (scored before ++ [(pair, outcome)]).count (pair, o)
  | .stopped _ | .named _ _ _ => True
  | .polled answer =>
      answer = true ↔ Stopped before ∨ (handedOut before).length = q.jobs.length

/-! ## The invariant -/

/-- The rows with the counts of the results that were added.  They are counted from the
list, so its order does not matter (`tableOf_perm`). -/
def tableOf (rows : List PairResult) (scores : List (Nat × Result)) : List PairResult :=
  rows.mapIdx fun pair row => { ei := row.ei, count := fun o => scores.count (pair, o) }

theorem getElem?_tableOf (rows : List PairResult) (scores : List (Nat × Result)) (pair : Nat) :
    (tableOf rows scores)[pair]? =
      rows[pair]?.map fun row => { ei := row.ei, count := fun o => scores.count (pair, o) } :=
  List.getElem?_mapIdx

theorem tableOf_nil {rows : List PairResult} (h : ∀ row ∈ rows, row = .blank row.ei) :
    tableOf rows [] = rows := by
  ext1 pair
  rw [getElem?_tableOf]
  cases hrow : rows[pair]? with
  | none => rfl
  | some row =>
      rw [Option.map_some, h row (List.mem_of_getElem? hrow)]
      rfl

/-- Only what was added counts, not the order. -/
theorem tableOf_perm (rows : List PairResult) {scores scores' : List (Nat × Result)}
    (h : scores.Perm scores') : tableOf rows scores = tableOf rows scores' := by
  simp only [tableOf, h.count_eq]

theorem length_tableOf (rows : List PairResult) (scores : List (Nat × Result)) :
    (tableOf rows scores).length = rows.length := List.length_mapIdx

theorem tableOf_set (rows : List PairResult) (scores : List (Nat × Result)) (outcome : Result)
    {pair : Nat} (h : pair < (tableOf rows scores).length) :
    (tableOf rows scores).set pair ((tableOf rows scores)[pair].add outcome) =
      tableOf rows (scores ++ [(pair, outcome)]) := by
  ext1 i
  rw [List.getElem?_set]
  by_cases hi : pair = i
  · subst hi
    have hrow := getElem?_tableOf rows scores pair
    rw [List.getElem?_eq_getElem h] at hrow
    rw [if_pos rfl, if_pos h, getElem?_tableOf]
    cases hget : rows[pair]? with
    | none => simp [hget] at hrow
    | some row =>
        simp only [hget, Option.map_some, Option.some.injEq] at hrow
        rw [hrow]
        simp only [Option.map_some, PairResult.add, Option.some.injEq, PairResult.mk.injEq,
          true_and]
        funext o
        rw [List.count_append]
        by_cases ho : o = outcome
        · subst ho
          rw [Function.update_self, List.count_singleton_self]
        · have hne : (pair, o) ≠ (pair, outcome) := fun heq => ho (Prod.mk.inj heq).2
          rw [Function.update_of_ne ho, List.count_singleton, beq_false_of_ne hne.symm]
          rfl
  · rw [if_neg hi, getElem?_tableOf, getElem?_tableOf]
    have hcount : ∀ o, (scores ++ [(pair, outcome)]).count (i, o) = scores.count (i, o) := by
      intro o
      have hne : (pair, outcome) ≠ (i, o) := fun heq => hi (Prod.mk.inj heq).1
      rw [List.count_append, List.count_singleton, beq_false_of_ne hne]
      rfl
    simp only [hcount]

theorem PairResult.total_add (r : PairResult) (outcome : Result) :
    (r.add outcome).total = r.total + 1 := by
  cases outcome <;> simp [PairResult.add, PairResult.total] <;> omega

theorem sum_total_set {rows : List PairResult} {pair : Nat} (h : pair < rows.length)
    (outcome : Result) :
    ((rows.set pair (rows[pair].add outcome)).map PairResult.total).sum =
      (rows.map PairResult.total).sum + 1 := by
  induction rows generalizing pair with
  | nil => cases h
  | cons row rows ih =>
      cases pair with
      | zero =>
          rw [List.set_cons_zero, List.map_cons, List.map_cons, List.sum_cons, List.sum_cons,
            List.getElem_cons_zero, PairResult.total_add, Nat.add_right_comm]
      | succ pair =>
          rw [List.set_cons_succ, List.map_cons, List.map_cons, List.sum_cons, List.sum_cons,
            List.getElem_cons_succ, ih (Nat.lt_of_succ_lt_succ h), Nat.add_assoc]

/-- **The invariant of the queue**: how a session that began with `q` stands to its log.
The index has two meanings, the number of jobs that were handed out and, after a stop, the
end of the list; hence the two fields for it. -/
structure Tracks (q : JobQueue) (s : Session) : Prop where
  jobs : s.queue.jobs = q.jobs
  handedOut : handedOut s.log <+: q.jobs.zipIdx
  idx_running : ¬ Stopped s.log → s.queue.idx = (JobQueue.handedOut s.log).length
  idx_stopped : Stopped s.log → s.queue.idx = q.jobs.length
  results : s.queue.results = tableOf q.results (scored s.log)
  completed : s.queue.completed = (scored s.log).length
  total : (s.queue.results.map PairResult.total).sum = s.queue.completed
  answers : Throughout (Answers q) s.log

theorem Fresh.tracks (h : q.Fresh) : Tracks q (.start q) where
  jobs := rfl
  handedOut := List.nil_prefix
  idx_running _ := h.idx
  idx_stopped := by
    rintro ⟨worker, hmem⟩
    cases hmem
  results := (tableOf_nil h.blank).symm
  completed := h.completed
  total := by
    have hzero : ∀ row ∈ q.results, row.total = 0 := by
      intro row hrow
      rw [h.blank row hrow]
      rfl
    rw [Session.start, h.completed, List.map_congr_left hzero]
    simp only [List.map_const', List.sum_replicate, smul_zero]
  answers := Throughout.nil

theorem Tracks.length_handedOut_le (h : Tracks q s) :
    (JobQueue.handedOut s.log).length ≤ q.jobs.length := by
  have hle := h.handedOut.length_le
  rw [List.length_zipIdx] at hle
  exact hle

/-- The indices that were handed out. -/
theorem Tracks.map_snd_handedOut (h : Tracks q s) :
    (JobQueue.handedOut s.log).map Prod.snd = List.range (JobQueue.handedOut s.log).length := by
  have hbefore := h.handedOut.map Prod.snd
  rw [List.zipIdx_map_snd, ← List.range_eq_range', List.prefix_iff_eq_take, List.take_range,
    List.length_map, min_eq_left h.length_handedOut_le] at hbefore
  exact hbefore

theorem Tracks.idx_le (h : Tracks q s) : s.queue.idx ≤ q.jobs.length := by
  by_cases hstopped : Stopped s.log
  · exact (h.idx_stopped hstopped).le
  · exact (h.idx_running hstopped).le.trans h.length_handedOut_le

/-- The index is at the end exactly when the log says so: somebody has stopped the
tournament, or all jobs have been handed out. -/
theorem Tracks.idx_eq_iff (h : Tracks q s) : s.queue.idx = q.jobs.length ↔
    Stopped s.log ∨ (JobQueue.handedOut s.log).length = q.jobs.length := by
  by_cases hstopped : Stopped s.log
  · simp only [h.idx_stopped hstopped, hstopped, true_or]
  · rw [h.idx_running hstopped]
    simp only [hstopped, false_or]

/-- The next job in the order of the list. -/
theorem Tracks.handedOut_concat (h : Tracks q s) {job : Job} {idx : Nat}
    (hnext : idx = (JobQueue.handedOut s.log).length) (hjob : q.jobs[idx]? = some job) :
    JobQueue.handedOut s.log ++ [(job, idx)] <+: q.jobs.zipIdx := by
  obtain ⟨rest, hrest⟩ := h.handedOut
  have hget : q.jobs.zipIdx[idx]? = some (job, idx) := by
    rw [List.getElem?_zipIdx, hjob, Option.map_some, Nat.zero_add]
  rw [← hrest, hnext, List.getElem?_append_right le_rfl, Nat.sub_self, ← hnext] at hget
  cases rest with
  | nil => cases hget
  | cons x rest =>
      cases hget
      refine ⟨rest, ?_⟩
      rw [← hrest, List.append_assoc, List.singleton_append]

/-- An event that neither hands out a job nor adds a result nor stops.  The invariant has
nothing to say about it but its answer. -/
structure Event.Quiet (e : Event) : Prop where
  handedOut : e.handedOut = none
  scored : e.scored = none
  running : ∀ worker, e ≠ .stopped worker

theorem Tracks.quiet (h : Tracks q s) (he : e.Quiet) (hanswers : Answers q s.log e)
    (names : List (List Char)) : Tracks q ⟨{ s.queue with names := names }, s.log ++ [e]⟩ := by
  have hhanded : JobQueue.handedOut (s.log ++ [e]) = JobQueue.handedOut s.log :=
    handedOut_snoc_none he.handedOut
  have hscored : scored (s.log ++ [e]) = scored s.log := scored_snoc_none he.scored
  have hstopped : Stopped (s.log ++ [e]) ↔ Stopped s.log := stopped_snoc_of_ne he.running
  refine ⟨h.jobs, ?_, ?_, ?_, ?_, ?_, h.total, throughout_snoc.mpr ⟨h.answers, hanswers⟩⟩
  · rw [hhanded]
    exact h.handedOut
  · rw [hstopped, hhanded]
    exact h.idx_running
  · rw [hstopped]
    exact h.idx_stopped
  · rw [hscored]
    exact h.results
  · rw [hscored]
    exact h.completed

theorem Tracks.popped (h : Tracks q s) (worker : Nat) (hidx : s.queue.idx < s.queue.jobs.length) :
    Tracks q ⟨{ s.queue with idx := s.queue.idx + 1 },
      s.log ++ [.popped worker s.queue.jobs[s.queue.idx] s.queue.idx s.queue.jobs.length]⟩ := by
  have hrunning : ¬ Stopped s.log := by
    intro hstopped
    rw [h.idx_stopped hstopped, h.jobs] at hidx
    exact Nat.lt_irrefl _ hidx
  have hnext := h.idx_running hrunning
  have hjob : q.jobs[s.queue.idx]? = some s.queue.jobs[s.queue.idx] := by
    rw [← h.jobs]
    exact List.getElem?_eq_getElem hidx
  have hhanded (job : Job) (idx count : Nat) :
      JobQueue.handedOut (s.log ++ [.popped worker job idx count]) =
        JobQueue.handedOut s.log ++ [(job, idx)] := handedOut_snoc
  have hscored (job : Job) (idx count : Nat) :
      scored (s.log ++ [.popped worker job idx count]) = scored s.log := scored_snoc_none rfl
  have hanswers := throughout_snoc.mpr ⟨h.answers,
    show Answers q s.log (.popped worker _ _ _) from
      ⟨hrunning, hnext, hjob, congrArg List.length h.jobs⟩⟩
  refine ⟨h.jobs, ?_, ?_, ?_, ?_, ?_, h.total, hanswers⟩
  · rw [hhanded]
    exact h.handedOut_concat hnext hjob
  · intro _
    rw [hhanded, List.length_append, ← hnext]
    rfl
  · rw [stopped_snoc]
    rintro (hstopped | ⟨_, hevent⟩)
    · exact absurd hstopped hrunning
    · cases hevent
  · rw [hscored]
    exact h.results
  · rw [hscored]
    exact h.completed

theorem Tracks.added (h : Tracks q s) (worker : Nat) (outcome : Result) {pair : Nat}
    (hpair : pair < s.queue.results.length) :
    Tracks q ⟨{ s.queue with
        results := s.queue.results.set pair (s.queue.results[pair].add outcome),
        completed := s.queue.completed + 1 },
      s.log ++ [.added worker pair outcome (s.queue.results[pair].add outcome).count]⟩ := by
  have hhanded (totals : Result → Nat) :
      JobQueue.handedOut (s.log ++ [.added worker pair outcome totals]) =
        JobQueue.handedOut s.log := handedOut_snoc_none rfl
  have hscored (totals : Result → Nat) :
      scored (s.log ++ [.added worker pair outcome totals]) =
        scored s.log ++ [(pair, outcome)] := scored_snoc
  have hstopped (totals : Result → Nat) :
      Stopped (s.log ++ [.added worker pair outcome totals]) ↔ Stopped s.log :=
    stopped_snoc_of_ne nofun
  have hresults : s.queue.results.set pair (s.queue.results[pair].add outcome) =
      tableOf q.results (scored s.log ++ [(pair, outcome)]) := by
    simp only [h.results, tableOf_set]
  have hrow : pair < q.results.length := by
    rw [h.results, length_tableOf] at hpair
    exact hpair
  have hanswers : Answers q s.log
      (.added worker pair outcome (s.queue.results[pair].add outcome).count) := by
    refine ⟨hrow, fun o => ?_⟩
    have hset := congrArg (fun rows => rows[pair]?) hresults
    simp only [List.getElem?_set_self hpair, getElem?_tableOf, List.getElem?_eq_getElem hrow,
      Option.map_some, Option.some.injEq] at hset
    rw [hset]
  refine ⟨h.jobs, ?_, ?_, ?_, ?_, ?_, ?_, throughout_snoc.mpr ⟨h.answers, hanswers⟩⟩
  · rw [hhanded]
    exact h.handedOut
  · rw [hstopped, hhanded]
    exact h.idx_running
  · rw [hstopped]
    exact h.idx_stopped
  · rw [hscored]
    exact hresults
  · rw [hscored, List.length_append, ← h.completed]
    rfl
  · change (List.map _ (s.queue.results.set _ _)).sum = s.queue.completed + 1
    rw [sum_total_set hpair, h.total]

theorem Tracks.stopped (h : Tracks q s) (worker : Nat) :
    Tracks q ⟨s.queue.stop, s.log ++ [.stopped worker]⟩ := by
  have hhanded : JobQueue.handedOut (s.log ++ [.stopped worker]) = JobQueue.handedOut s.log :=
    handedOut_snoc_none rfl
  have hscored : scored (s.log ++ [.stopped worker]) = scored s.log := scored_snoc_none rfl
  refine ⟨h.jobs, ?_, ?_, ?_, ?_, ?_, h.total, throughout_snoc.mpr ⟨h.answers, trivial⟩⟩
  · rw [hhanded]
    exact h.handedOut
  · intro hrunning
    exact absurd (stopped_snoc.mpr (Or.inr ⟨worker, rfl⟩)) hrunning
  · intro _
    rw [← h.jobs]
    rfl
  · rw [hscored]
    exact h.results
  · rw [hscored]
    exact h.completed

/-- **One call** keeps the invariant.  Each call is atomic under the mutex, so there is
nothing between two calls to look at. -/
theorem Tracks.moves (h : Tracks q s) (hmoves : s.Moves c s') : Tracks q s' := by
  cases hmoves with
  | popped worker hidx => exact h.popped worker hidx
  | refused worker hidx =>
      have hend : s.queue.idx = q.jobs.length := le_antisymm h.idx_le (h.jobs ▸ hidx)
      exact h.quiet (e := .refused worker) ⟨rfl, rfl, nofun⟩ (h.idx_eq_iff.mp hend) s.queue.names
  | added worker pair outcome hpair => exact h.added worker outcome hpair
  | stopped worker => exact h.stopped worker
  | named worker ei name names =>
      exact h.quiet (e := .named worker ei name) ⟨rfl, rfl, nofun⟩ trivial names
  | polled =>
      refine h.quiet (e := .polled s.queue.done) ⟨rfl, rfl, nofun⟩ ?_ s.queue.names
      change s.queue.done = true ↔ _
      rw [JobQueue.done, beq_iff_eq, h.jobs]
      exact h.idx_eq_iff

/-- What was answered last is what the calls before it make it answer. -/
theorem Tracks.answers_logs (h : Tracks q s') (hlogs : s.Logs e s') : Answers q s.log e := by
  have hanswers := h.answers
  rw [hlogs.log] at hanswers
  exact (throughout_snoc.mp hanswers).2

/-- **Every interleaving** of calls keeps the invariant, by the induction over runs. -/
theorem Fresh.tracks_runs (hfresh : q.Fresh) (hruns : runs Session.step calls (.start q) = some s) :
    Tracks q s :=
  invariant (Tracks q) hfresh.tracks (fun _ _ _ h hstep => h.moves (Session.moves_of_step hstep))
    hruns

theorem log_map_call (hruns : runs Session.step calls (.start q) = some s) :
    s.log.map Event.call = calls := by
  refine invariant_along (fun done r => r.log.map Event.call = done) rfl ?_ hruns
  intro done r c r' _ hlog hstep
  cases Session.moves_of_step hstep <;> rw [List.map_append, hlog] <;> rfl

/-- The results that were added are those of the calls. -/
theorem scored_log (hruns : runs Session.step calls (.start q) = some s) :
    scored s.log = calls.filterMap Call.scored := by
  rw [← log_map_call hruns, List.filterMap_map]
  rfl

/-- **A name stays.** The first call that names an engine decides, and the later ones find
that it has a name. -/
theorem names_runs {i : Nat} {name : List Char} (hruns : runs Session.step calls s = some s')
    (hname : s.queue.names[i]? = some name) (hne : name ≠ []) :
    s'.queue.names[i]? = some name := by
  refine invariant (fun r => r.queue.names[i]? = some name) hname ?_ hruns
  intro r c r' hr hstep
  cases Session.moves_of_step hstep with
  | named worker ei _ names hkeeps => exact hkeeps i name hr hne
  | popped | refused | added | stopped | polled => exact hr

/-! ## The account of a run -/

/-- What the log of a run has to say about the jobs and the rows.  It is the account that an
observer of the calls can check. -/
structure Accounts (q : JobQueue) (calls : List Call) (s : Session) : Prop where
  answered : s.log.map Event.call = calls
  jobs : s.queue.jobs = q.jobs
  idx_le : s.queue.idx ≤ s.queue.jobs.length
  indices : (handedOut s.log).map Prod.snd = List.range (handedOut s.log).length
  own_job : ∀ x ∈ handedOut s.log, q.jobs[x.2]? = some x.1
  refused : Throughout (fun before e => ∀ worker, e = .refused worker → ¬ Stopped before →
    handedOut before = q.jobs.zipIdx) s.log
  stopped : Throughout (fun before e => Stopped before → e.handedOut = none) s.log
  counts : ∀ pair row, s.queue.results[pair]? = some row →
    ∀ outcome, row.count outcome = (scored s.log).count (pair, outcome)
  total : (s.queue.results.map PairResult.total).sum = s.queue.completed
  completed : s.queue.completed = (scored s.log).length

theorem Tracks.accounts (h : Tracks q s) (hlog : s.log.map Event.call = calls) :
    Accounts q calls s where
  answered := hlog
  jobs := h.jobs
  idx_le := by
    rw [h.jobs]
    exact h.idx_le
  indices := h.map_snd_handedOut
  own_job x hx := List.mem_zipIdx_iff_getElem?.mp (h.handedOut.subset hx)
  refused := by
    rintro before e after hsplit worker rfl hrunning
    obtain hstopped | hall := h.answers before _ after hsplit
    · exact absurd hstopped hrunning
    · have hbefore : JobQueue.handedOut before <+: JobQueue.handedOut s.log := by
        rw [hsplit]
        exact (List.prefix_append before _).filterMap Event.handedOut
      refine (hbefore.trans h.handedOut).eq_of_length ?_
      rw [hall, List.length_zipIdx]
  stopped := by
    refine h.answers.imp ?_
    rintro before (⟨worker, job, idx, count⟩ | _ | _ | _ | _ | _) hanswers hstopped
    · exact absurd hstopped hanswers.1
    all_goals rfl
  counts pair row hrow outcome := by
    rw [h.results, getElem?_tableOf] at hrow
    obtain ⟨row', -, rfl⟩ := Option.map_eq_some_iff.mp hrow
    rfl
  total := h.total
  completed := h.completed

/-- **The queue under any interleaving.** The log is in order, and rows depend on the
results that were added only.  In particular two runs with the same results leave the same
rows, in whatever order these came in. -/
theorem accounts_of_runs (hfresh : q.Fresh)
    (hruns : runs Session.step calls (.start q) = some s) :
    Accounts q calls s ∧
      ∀ calls' s', runs Session.step calls' (.start q) = some s' →
        (scored s.log).Perm (scored s'.log) → s.queue.results = s'.queue.results := by
  have htracks := hfresh.tracks_runs hruns
  refine ⟨htracks.accounts (log_map_call hruns), fun calls' s' hruns' hperm => ?_⟩
  rw [htracks.results, (hfresh.tracks_runs hruns').results]
  exact tableOf_perm q.results hperm

/-- Two workers play the games of one pair, and the one that has won stops the
tournament.  In the other run it is slower. -/
theorem accounts_of_runs_stopped :
    ∃ s s' : Session,
      runs Session.step
        [.pop 0, .pop 1, .addResult 1 0 .win, .pop 1, .addResult 0 0 .draw, .stop 1, .pop 0]
        (.start (new 3 1 2 false)) = some s ∧
      runs Session.step
        [.pop 0, .pop 1, .addResult 0 0 .draw, .pop 0, .addResult 1 0 .win, .stop 1, .done]
        (.start (new 3 1 2 false)) = some s' ∧
      Accounts (new 3 1 2 false)
        [.pop 0, .pop 1, .addResult 1 0 .win, .pop 1, .addResult 0 0 .draw, .stop 1, .pop 0] s ∧
      s.queue.results = s'.queue.results := by
  obtain ⟨s, hs⟩ := Option.isSome_iff_exists.mp (show (runs Session.step
    [.pop 0, .pop 1, .addResult 1 0 .win, .pop 1, .addResult 0 0 .draw, .stop 1, .pop 0]
    (.start (new 3 1 2 false))).isSome by decide)
  obtain ⟨s', hs'⟩ := Option.isSome_iff_exists.mp (show (runs Session.step
    [.pop 0, .pop 1, .addResult 0 0 .draw, .pop 0, .addResult 1 0 .win, .stop 1, .done]
    (.start (new 3 1 2 false))).isSome by decide)
  obtain ⟨haccounts, htables⟩ := accounts_of_runs (new_fresh 3 1 2 false) hs
  refine ⟨s, s', hs, hs', haccounts, htables _ s' hs' ?_⟩
  rw [scored_log hs, scored_log hs']
  decide

end JobQueue

end GomokuCli
