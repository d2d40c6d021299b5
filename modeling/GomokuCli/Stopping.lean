import GomokuCli.Completion

/-!
# When a tournament stops

A worker looks at the totals that `add_result` gave it, and these may be old when it stops
the tournament.  The test is still applied to every result once, with the totals that its
row had with it: as soon as no worker is between the two, the tournament has been stopped
exactly if the test has accepted some prefix of the results, in the order in which they
were added (`stopped_iff`).

With one worker this order is that of the games.  The games that it plays are then the
shortest prefix that the test accepts, or all of them (`serial_runs`).
-/

namespace GomokuCli

open Interleaving JobQueue

namespace Tournament

variable {o : Tournament} {q : JobQueue} {s s' r : State} {a : Action}
  {schedule : List Action}

/-- The totals of the row of a result, when it has been added to the results before it. -/
def totalsWith (before : List (Nat × Result)) (score : Nat × Result) (outcome : Result) : Nat :=
  (before ++ [score]).count (score.1, outcome)

/-- The test has accepted none of the totals that came up.  The totals are those of the row
of each result, at the moment when it was added. -/
def Undecided (test : (Result → Nat) → Bool) (scores : List (Nat × Result)) : Prop :=
  Throughout (fun before score => test (totalsWith before score) = false) scores

instance (test : (Result → Nat) → Bool) (scores : List (Nat × Result)) :
    Decidable (Undecided test scores) :=
  decidableThroughout _ scores

theorem undecided_nil (test : (Result → Nat) → Bool) : Undecided test [] := Throughout.nil

theorem undecided_snoc {test : (Result → Nat) → Bool} {scores : List (Nat × Result)}
    {score : Nat × Result} :
    Undecided test (scores ++ [score]) ↔
      Undecided test scores ∧ test (totalsWith scores score) = false :=
  throughout_snoc

/-! ## What the workers know -/

/-- The totals that a worker has in its hands. -/
def Phase.totals : Phase → Option (Result → Nat)
  | .updating wldCount => some wldCount
  | _ => none

/-- Some worker has yet to stop the tournament.  It has the accepted totals in its hands,
and the queue does not know of them. -/
def Pending (o : Tournament) (s : State) : Prop :=
  ∃ w totals, (s.phase w).totals = some totals ∧ o.sprtDone totals = true

/-- **The invariant of the stop**: the test has accepted exactly if the tournament is
stopped, or will be.  The second alternative is needed because a result is added under the
lock of the queue, and the test is made outside of it. -/
structure Decided (o : Tournament) (s : State) : Prop where
  noticed : ¬ Undecided o.sprtDone (scored s.session.log) →
    Stopped s.session.log ∨ Pending o s
  grounded : Stopped s.session.log ∨ Pending o s →
    ¬ Undecided o.sprtDone (scored s.session.log)

theorem totals_eq_of_mem {w : Nat} {totals : Result → Nat} (hw : s.phase w = .updating totals) :
    (s.phase w).totals = some totals := by
  rw [hw]
  rfl

/-- No worker takes or drops totals that were accepted. -/
theorem pending_setPhase {w : Nat} {p : Phase} (hphase : s'.phase = s.phase)
    (hnew : ∀ totals, p.totals = some totals → o.sprtDone totals = false)
    (hold : ∀ totals, (s.phase w).totals = some totals → o.sprtDone totals = false) :
    Pending o (s'.setPhase w p) ↔ Pending o s := by
  constructor
  · rintro ⟨w', totals, htotals, hdone⟩
    obtain ⟨-, hp⟩ | ⟨-, hw'⟩ := setPhase_cases Phase.totals htotals
    · rw [hnew totals hp] at hdone
      cases hdone
    · rw [hphase] at hw'
      exact ⟨w', totals, hw', hdone⟩
  · rintro ⟨w', totals, htotals, hdone⟩
    refine ⟨w', totals, ?_, hdone⟩
    have hne : w' ≠ w := by
      rintro rfl
      rw [hold totals htotals] at hdone
      cases hdone
    rw [setPhase_phase_of_ne hne, hphase]
    exact htotals

/-- A step after which the same is known as before. -/
theorem Decided.same (h : Decided o s) (hscored : scored s'.session.log = scored s.session.log)
    (hstopped : Stopped s'.session.log ↔ Stopped s.session.log)
    (hpending : Pending o s' ↔ Pending o s) : Decided o s' := by
  refine ⟨?_, ?_⟩
  · rw [hscored, hstopped, hpending]
    exact h.noticed
  · rw [hscored, hstopped, hpending]
    exact h.grounded

/-- A worker adds a result, and has the totals with it. -/
theorem Decided.added (h : Decided o s) {w : Nat} {session : Session} {finished : List Nat}
    {score : Nat × Result} {totals : Result → Nat} (hw : (s.phase w).totals = none)
    (hscored : scored session.log = scored s.session.log ++ [score])
    (hstopped : Stopped session.log ↔ Stopped s.session.log)
    (htotals : totals = totalsWith (scored s.session.log) score) :
    Decided o
      ({ s with session := session, finished := finished }.setPhase w (.updating totals)) := by
  have hkeeps : Pending o s →
      Pending o ({ s with session := session, finished := finished }.setPhase w
        (.updating totals)) := by
    rintro ⟨w', known, hknown, hdone⟩
    refine ⟨w', known, ?_, hdone⟩
    have hne : w' ≠ w := by
      rintro rfl
      rw [hw] at hknown
      cases hknown
    rw [setPhase_phase_of_ne hne]
    exact hknown
  refine ⟨?_, ?_⟩
  · change ¬ Undecided o.sprtDone (scored session.log) → Stopped session.log ∨ _
    rw [hscored, undecided_snoc, hstopped, not_and_or, Bool.not_eq_false, ← htotals]
    rintro (hbefore | hdone)
    · exact (h.noticed hbefore).imp_right hkeeps
    · refine Or.inr ⟨w, totals, ?_, hdone⟩
      rw [setPhase_phase_self]
      rfl
  · change Stopped session.log ∨ _ → ¬ Undecided o.sprtDone (scored session.log)
    rw [hscored, undecided_snoc, hstopped, not_and_or, Bool.not_eq_false, ← htotals]
    rintro (hstop | ⟨w', known, hknown, hdone⟩)
    · exact Or.inl (h.grounded (Or.inl hstop))
    · obtain ⟨-, hnew⟩ | ⟨-, hold⟩ := setPhase_cases Phase.totals hknown
      · cases hnew
        exact Or.inr hdone
      · exact Or.inl (h.grounded (Or.inr ⟨w', known, hold, hdone⟩))

/-- **What a worker does with its totals.**  It stops the tournament if the test accepts
them, and else goes on. -/
theorem sprtDone_of_step {w : Nat} {totals : Result → Nat} (hw : s.phase w = .updating totals)
    (h : step o a s = some s') :
    (a = .stop w → o.sprtDone totals = true) ∧ (a = .goOn w → o.sprtDone totals = false) := by
  constructor <;> rintro rfl <;> simp only [step, hw] at h
  · rw [Option.ite_none_right_eq_some] at h
    exact h.1
  · rw [Option.ite_none_left_eq_some] at h
    exact Bool.eq_false_iff.mpr h.1

/-- **One step** keeps the invariant.  A worker either adds a result and takes its totals,
or gives them up, by a stop if they are accepted. -/
theorem Decided.step (h : Decided o s) (htracks' : Tracks q s'.session)
    (hstep : step o a s = some s') : Decided o s' := by
  have hsame : ∀ {session : Session} {e : JobQueue.Event}, s.session.Logs e session →
      e.scored = none → (∀ worker, e ≠ .stopped worker) →
      scored session.log = scored s.session.log ∧
        (Stopped session.log ↔ Stopped s.session.log) := by
    intro session e hlogs hscored hrunning
    rw [hlogs.log]
    exact ⟨scored_snoc_none hscored, stopped_snoc_of_ne hrunning⟩
  cases moves_of_step hstep with
  | popped w hw hidx session hlogs | refused w hw hidx session hlogs =>
      obtain ⟨hscored, hstopped⟩ := hsame hlogs rfl nofun
      refine h.same hscored hstopped (pending_setPhase rfl nofun ?_)
      rw [hw]
      exact nofun
  | named w ei name session hlogs =>
      obtain ⟨hscored, hstopped⟩ := hsame hlogs rfl nofun
      exact h.same hscored hstopped Iff.rfl
  | polled hsupervising session hlogs =>
      obtain ⟨hscored, hstopped⟩ := hsame hlogs rfl nofun
      exact h.same hscored hstopped Iff.rfl
  | ended w job idx hw | pushed w job idx f files hw writer hwriter =>
      refine h.same rfl Iff.rfl (pending_setPhase rfl nofun ?_)
      rw [hw]
      exact nofun
  | added w job idx hw session wldCount hlogs =>
      obtain ⟨-, hcounts⟩ := Tracks.answers_logs htracks' hlogs
      have htotals : (s.phase w).totals = none := by
        rw [hw]
        rfl
      have hscored : scored session.log =
          scored s.session.log ++ [(job.pair, o.outcome idx)] := by
        rw [hlogs.log, scored_snoc]
        rfl
      have hstopped : Stopped session.log ↔ Stopped s.session.log := by
        rw [hlogs.log]
        exact stopped_snoc_of_ne nofun
      exact h.added htotals hscored hstopped (funext hcounts)
  | stopped w wldCount hw session hlogs =>
      have hdone := (sprtDone_of_step hw hstep).1 rfl
      have haccepted : ¬ Undecided o.sprtDone (scored s.session.log) :=
        h.grounded (Or.inr ⟨w, wldCount, totals_eq_of_mem hw, hdone⟩)
      have hscored : scored session.log = scored s.session.log := by
        rw [hlogs.log]
        exact scored_snoc_none rfl
      refine ⟨fun _ => Or.inl ⟨w, ?_⟩, fun _ => ?_⟩
      · change _ ∈ session.log
        rw [hlogs.log]
        exact List.mem_append_right _ (.head _)
      · change ¬ Undecided o.sprtDone (scored session.log)
        rw [hscored]
        exact haccepted
  | wentOn w wldCount hw =>
      have hdone := (sprtDone_of_step hw hstep).2 rfl
      refine h.same rfl Iff.rfl (pending_setPhase rfl nofun ?_)
      rw [hw]
      rintro totals htotals
      cases htotals
      exact hdone

theorem decided_runs (hfresh : q.Fresh) (hruns : runs (step o) schedule (start q) = some s) :
    Decided o s := by
  refine invariant_along (fun _ => Decided o) ⟨?_, ?_⟩ ?_ hruns
  · exact fun h => absurd (undecided_nil o.sprtDone) h
  · rintro (⟨worker, hmem⟩ | ⟨w, totals, htotals, -⟩)
    · cases hmem
    · cases htotals
  · intro done r a r' hr hdecided hstep
    exact hdecided.step (tracks_runs hfresh ((runs_snoc_of hr).trans hstep)) hstep

theorem Decided.stopped_iff_of_idle (h : Decided o s)
    (hidle : ∀ w, (s.phase w).totals = none) :
    Stopped s.session.log ↔ ¬ Undecided o.sprtDone (scored s.session.log) := by
  refine ⟨fun hstopped => h.grounded (Or.inl hstopped), fun haccepted => ?_⟩
  refine (h.noticed haccepted).resolve_right ?_
  rintro ⟨w, totals, htotals, -⟩
  rw [hidle w] at htotals
  cases htotals

/-- **A tournament is stopped when the test says so, and not otherwise.**  In any
interleaving, when no worker has totals in its hands, the tournament has been stopped
exactly if the test accepts the totals of one of the results, with those of the results
that were added before it. -/
theorem stopped_iff (hfresh : q.Fresh) (hruns : runs (step o) schedule (start q) = some s)
    (hidle : ∀ w, (s.phase w).totals = none) :
    Stopped s.session.log ↔ ¬ Undecided o.sprtDone (s.finished.map (scoreOf o q)) := by
  rw [← scored_runs hfresh hruns]
  exact (decided_runs hfresh hruns).stopped_iff_of_idle hidle

theorem stopped_iff_untilWin :
    ∃ s, runs (step untilWin) [.pop 0, .pop 1, .endGame 0, .addResult 0, .stop 0]
        (start (new 2 1 9 false)) = some s ∧
      (Stopped s.session.log ↔
        ¬ Undecided untilWin.sprtDone (s.finished.map (scoreOf untilWin (new 2 1 9 false)))) := by
  obtain ⟨s, hs⟩ := Option.isSome_iff_exists.mp (show (runs (step untilWin)
    [.pop 0, .pop 1, .endGame 0, .addResult 0, .stop 0] (start (new 2 1 9 false))).isSome from rfl)
  have hphases : (runs (step untilWin) [.pop 0, .pop 1, .endGame 0, .addResult 0, .stop 0]
      (start (new 2 1 9 false))).map (fun s => ((s.phase 0).totals, (s.phase 1).totals)) =
        some (none, none) := rfl
  rw [hs, Option.map_some, Option.some.injEq, Prod.mk.injEq] at hphases
  refine ⟨s, hs, stopped_iff (new_fresh 2 1 9 false) hs fun w => ?_⟩
  rcases Nat.lt_or_ge w 2 with hw | hw
  · obtain rfl | rfl : w = 0 ∨ w = 1 := by omega
    · exact hphases.1
    · exact hphases.2
  · rw [phase_of_within (n := 2) hs (by decide) hw]
    rfl

/-! ## One worker -/

/-- The game that the only worker plays is the next one.  The games are then finished in the
order in which they were handed out. -/
def Serial (s : State) : Prop :=
  s.finished ++ ((s.phase 0).game.map Prod.snd).toList = List.range s.started

/-- The results of the first games. -/
def scoresOf (o : Tournament) (q : JobQueue) (count : Nat) : List (Nat × Result) :=
  (List.range count).map (scoreOf o q)

/-- Nobody else takes a step. -/
theorem eq_zero_of_within {w : Nat} (hwithin : Within 1 (schedule ++ [a]))
    (ha : a.worker = some w) : w = 0 :=
  Nat.lt_one_iff.mp (hwithin a (List.mem_append_right _ (.head _)) w ha)

/-- A step that neither takes a job nor gives a result. -/
theorem Serial.same (h : Serial s) (hgame : ∀ w, (s'.phase w).game = (s.phase w).game)
    (hhanded : handedOut s'.session.log = handedOut s.session.log)
    (hfinished : s'.finished = s.finished) : Serial s' := by
  rw [Serial, hfinished, hgame, State.started, hhanded]
  exact h

theorem Serial.popped (h : Serial s) {job : Job} {session : Session}
    (hgame : (s.phase 0).game = none)
    (hhanded : handedOut session.log = handedOut s.session.log ++ [(job, s.started)]) :
    Serial ({ s with session := session }.setPhase 0 (.playing job s.started)) := by
  have hbefore : s.finished = List.range s.started := by
    rw [Serial, hgame] at h
    exact (List.append_nil _).symm.trans h
  have hstarted : State.started ({ s with session := session }.setPhase 0
      (.playing job s.started)) = s.started + 1 := by
    change (handedOut session.log).length = _
    rw [hhanded, List.length_append]
    rfl
  rw [Serial, hstarted, List.range_succ, setPhase_phase_self, setPhase_finished]
  exact congrArg (· ++ [s.started]) hbefore

theorem Serial.added (h : Serial s) {job : Job} {idx : Nat} {session : Session} {p : Phase}
    (hgame : (s.phase 0).game = some (job, idx)) (hp : p.game = none)
    (hhanded : handedOut session.log = handedOut s.session.log) :
    Serial ({ s with session := session, finished := s.finished ++ [idx] }.setPhase 0 p) := by
  rw [Serial, hgame] at h
  have hstarted : State.started
      ({ s with session := session, finished := s.finished ++ [idx] }.setPhase 0 p) = s.started :=
    congrArg List.length hhanded
  rw [Serial, hstarted, setPhase_phase_self, hp]
  exact (List.append_nil _).trans h

/-- **One step of the only worker.** It takes a job only when it holds none, and that is the
next one. -/
theorem Serial.step (h : Serial s) (htracks' : Tracks q s'.session)
    (hstep : step o a s = some s') (honly : ∀ w, a.worker = some w → w = 0) : Serial s' := by
  cases moves_of_step hstep with
  | popped w hw hidx session hlogs =>
      obtain rfl := honly w rfl
      obtain ⟨-, hnext, -⟩ := Tracks.answers_logs htracks' hlogs
      change s.session.queue.idx = s.started at hnext
      have hhanded : handedOut session.log = handedOut s.session.log ++
          [(s.session.queue.jobs[s.session.queue.idx], s.started)] := by
        rw [hlogs.log, handedOut_snoc, ← hnext]
        rfl
      have hgame : (s.phase 0).game = none := by
        rw [hw]
        rfl
      have hserial := h.popped hgame hhanded
      rw [← hnext] at hserial
      exact hserial
  | refused w hw hidx session hlogs | stopped w wldCount hw session hlogs =>
      exact h.same (setPhase_congr Phase.game hw rfl) (handedOut_logs hlogs rfl) rfl
  | named w ei name session hlogs => exact h.same (fun _ => rfl) (handedOut_logs hlogs rfl) rfl
  | polled hsupervising session hlogs => exact h.same (fun _ => rfl) (handedOut_logs hlogs rfl) rfl
  | ended w job idx hw | wentOn w wldCount hw =>
      exact h.same (setPhase_congr Phase.game hw rfl) rfl rfl
  | pushed w job idx f files hw writer hwriter =>
      exact h.same (setPhase_congr Phase.game hw rfl) rfl rfl
  | added w job idx hw session wldCount hlogs =>
      obtain rfl := honly w rfl
      have hgame : (s.phase 0).game = some (job, idx) := by
        rw [hw]
        rfl
      exact h.added hgame rfl (handedOut_logs hlogs rfl)

theorem serial_of_within (hfresh : q.Fresh)
    (hruns : runs (step o) schedule (start q) = some s) (hwithin : Within 1 schedule) :
    Serial s := by
  refine invariant_along (fun done r => Within 1 done → Serial r) (fun _ => ?_) ?_ hruns hwithin
  · rfl
  intro done r a r' hr ih hstep hdone
  have htracks' := tracks_runs hfresh ((runs_snoc_of hr).trans hstep)
  exact (ih hdone.of_append_left).step htracks' hstep fun w hw => eq_zero_of_within hdone hw

/-- The only worker waits, with the results of the first games. -/
theorem Serial.scored (h : Serial s) (hfresh : q.Fresh)
    (hruns : runs (Tournament.step o) schedule (start q) = some s)
    (hgame : (s.phase 0).game = none) :
    JobQueue.scored s.session.log = scoresOf o q s.started := by
  rw [Serial, hgame] at h
  rw [scored_runs hfresh hruns, scoresOf, ← h]
  exact congrArg _ (List.append_nil _).symm

/-- No worker has totals in its hands, if the only one has none. -/
theorem totals_of_within (hruns : runs (step o) schedule (start q) = some s)
    (hwithin : Within 1 schedule) (hzero : (s.phase 0).totals = none) (w : Nat) :
    (s.phase w).totals = none := by
  rcases Nat.eq_zero_or_pos w with rfl | hw
  · exact hzero
  · rw [phase_of_within hruns hwithin hw]
    rfl

/-- **No game is started after the test has accepted.** The only worker makes the test
before it asks for another job. -/
theorem undecided_of_within (hfresh : q.Fresh)
    (hruns : runs (step o) schedule (start q) = some s) (hwithin : Within 1 schedule) :
    ∀ j < s.started, Undecided o.sprtDone (scoresOf o q j) := by
  refine invariant_along (fun done r => Within 1 done →
    ∀ j < r.started, Undecided o.sprtDone (scoresOf o q j)) ?_ ?_ hruns hwithin
  · exact fun _ j hj => absurd hj (Nat.not_lt_zero j)
  intro done r a r' hr ih hstep hdone
  have hbefore := ih hdone.of_append_left
  have htracks' := tracks_runs hfresh ((runs_snoc_of hr).trans hstep)
  have hkeeps : ∀ {session : Session} {e : JobQueue.Event}, r.session.Logs e session →
      e.handedOut = none → ∀ j < (handedOut session.log).length,
        Undecided o.sprtDone (scoresOf o q j) := by
    intro session e hlogs he j hj
    rw [handedOut_logs hlogs he] at hj
    exact hbefore j hj
  cases moves_of_step hstep with
  | popped w hw hidx session hlogs =>
      obtain rfl := eq_zero_of_within hdone rfl
      obtain ⟨hrunning, -⟩ := Tracks.answers_logs htracks' hlogs
      have hgame : (r.phase 0).game = none := by
        rw [hw]
        rfl
      have htotals : (r.phase 0).totals = none := by
        rw [hw]
        rfl
      have hidle := totals_of_within hr hdone.of_append_left htotals
      have hserial := serial_of_within hfresh hr hdone.of_append_left
      have hundecided : Undecided o.sprtDone (scoresOf o q r.started) := by
        rw [← hserial.scored hfresh hr hgame]
        exact not_not.mp
          (((decided_runs hfresh hr).stopped_iff_of_idle hidle).not.mp hrunning)
      intro j hj
      change j < (handedOut session.log).length at hj
      rw [hlogs.log, handedOut_snoc, List.length_append] at hj
      rcases Nat.lt_succ_iff_lt_or_eq.mp hj with hlt | rfl
      · exact hbefore j hlt
      · exact hundecided
  | refused _ _ _ session hlogs | named _ _ _ session hlogs | added _ _ _ _ session _ hlogs
  | stopped _ _ _ session hlogs | polled _ session hlogs => exact hkeeps hlogs rfl
  | ended | pushed | wentOn => exact hbefore

/-- **One worker plays what the test asks for.** At the end the games that were played are
the first ones, in their order; the test accepts none of the prefixes on the way, and the
last one unless all games have been played.  So their number is determined by the games and
the test. -/
theorem serial_runs (hfresh : q.Fresh) (hruns : runs (step o) schedule (start q) = some s)
    (hwithin : Within 1 schedule) (hjoined : Joined 1 s) :
    s.finished = List.range s.started ∧ Ending o q s ∧
      (∀ j < s.started, Undecided o.sprtDone (scoresOf o q j)) ∧
      (s.started < q.jobs.length → ¬ Undecided o.sprtDone (scoresOf o q s.started)) := by
  have hleft := hjoined 0 Nat.one_pos
  have hgame : (s.phase 0).game = none := by
    rw [hleft]
    rfl
  have htotals : (s.phase 0).totals = none := by
    rw [hleft]
    rfl
  have hserial := serial_of_within hfresh hruns hwithin
  have hending := ending_of_joined hfresh hruns hwithin Nat.one_pos hjoined
  refine ⟨?_, hending, undecided_of_within hfresh hruns hwithin, fun hless => ?_⟩
  · rw [Serial, hgame] at hserial
    exact (List.append_nil _).symm.trans hserial
  · rw [← hserial.scored hfresh hruns hgame]
    refine ((decided_runs hfresh hruns).stopped_iff_of_idle
      (totals_of_within hruns hwithin htotals)).mp ?_
    by_contra hrunning
    exact hless.ne (hending.all hrunning)

theorem serial_runs_untilWin :
    ∃ s, runs (step untilWin) [.pop 0, .endGame 0, .addResult 0, .poll, .stop 0, .pop 0]
        (start (new 2 1 9 false)) = some s ∧
      s.finished = [0] ∧ ¬ Undecided untilWin.sprtDone
        (scoresOf untilWin (new 2 1 9 false) s.started) := by
  obtain ⟨s, hs⟩ := Option.isSome_iff_exists.mp (show (runs (step untilWin)
    [.pop 0, .endGame 0, .addResult 0, .poll, .stop 0, .pop 0]
    (start (new 2 1 9 false))).isSome from rfl)
  have hend : (runs (step untilWin) [.pop 0, .endGame 0, .addResult 0, .poll, .stop 0, .pop 0]
      (start (new 2 1 9 false))).map (fun s => (s.phase 0, s.started)) = some (.left, 1) := rfl
  rw [hs, Option.map_some, Option.some.injEq, Prod.mk.injEq] at hend
  obtain ⟨hleft, hstarted⟩ := hend
  have hjoined : Joined 1 s := by
    intro w hw
    rw [Nat.lt_one_iff.mp hw]
    exact hleft
  obtain ⟨hfinished, -, -, haccepted⟩ :=
    serial_runs (new_fresh 2 1 9 false) hs (by decide) hjoined
  refine ⟨s, hs, ?_, haccepted ?_⟩
  · rw [hfinished, hstarted]
    rfl
  · rw [hstarted]
    decide

end Tournament

end GomokuCli
