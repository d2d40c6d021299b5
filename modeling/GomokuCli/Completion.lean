import GomokuCli.Saving

/-!
# How a tournament ends

The main thread joins the workers and the program closes the writers.  Until then every
worker that has not left can go on, and each of its steps is one of finitely many: a job
costs at most seven, whatever the other workers do (`bounded_runs`).

What is left at the end does not depend on the interleaving (`ending_runs`): the jobs that
were handed out have been played and scored, each once, the table of the results is
theirs, and every file holds the records of the saved games in the order of the games.
If nobody stops the tournament these are all jobs, so that two complete runs leave the
same files and the same table.  If somebody does, nothing is handed out any more, and
only the other workers finish their games (`overshoot_runs`).
-/

namespace GomokuCli

open Interleaving JobQueue Resequencing

namespace Tournament

variable {o : Tournament} {q : JobQueue} {s s' r : State} {a : Action}
  {schedule before after : List Action} {n : Nat}

/-- Only the first `n` workers take steps. -/
def Within (n : Nat) (schedule : List Action) : Prop :=
  ∀ a ∈ schedule, ∀ w, a.worker = some w → w < n

instance (n : Nat) (schedule : List Action) : Decidable (Within n schedule) :=
  decidable_of_iff (∀ a ∈ schedule, ∀ w ∈ a.worker, w < n) (by simp [Within])

/-- All workers have been joined.  This is what the main thread waits for before the writers
are closed. -/
def Joined (n : Nat) (s : State) : Prop := ∀ w < n, s.phase w = .left

theorem Within.of_append_left (h : Within n (before ++ after)) : Within n before :=
  fun a ha => h a (List.mem_append_left _ ha)

/-! ## The work that is left -/

/-- How many steps a worker has before it at its next `pop`, and one more.  Together with
the jobs that remain this is the measure that every step of a worker decreases. -/
def Phase.work : Phase → Nat
  | .left => 0
  | .waiting => 1
  | .updating _ => 2
  | .saving _ _ files => 3 + files.length
  | .playing _ _ => 7

/-- The number of jobs that have not been handed out. -/
def remaining (q : JobQueue) : Nat := q.jobs.length - q.idx

/-- The work of the workers and of the jobs that have not been handed out.  A job counts
seven: that is what a worker takes on when it pops one. -/
def State.work (n : Nat) (s : State) : Nat :=
  ∑ w ∈ Finset.range n, (s.phase w).work + 7 * remaining s.session.queue

/-- The steps with which a worker goes on.  A name may be set and the queue polled any
number of times, so these two have to be left out. -/
def Action.progresses : Action → Bool
  | .setName _ _ _ | .poll => false
  | _ => true

theorem length_filesOf_le (o : Tournament) (i : Nat) : (o.filesOf i).length ≤ 3 := by
  rw [filesOf]
  split
  · exact List.length_filter_le _ _
  · exact Nat.zero_le 3

/-- One worker goes on. -/
theorem sum_work_setPhase {w : Nat} (hw : w < n) (p : Phase) :
    ∑ w' ∈ Finset.range n, ((s.setPhase w p).phase w').work + (s.phase w).work =
      ∑ w' ∈ Finset.range n, (s.phase w').work + p.work := by
  have hmem : w ∈ Finset.range n := Finset.mem_range.mpr hw
  have hothers : ∑ w' ∈ (Finset.range n).erase w, ((s.setPhase w p).phase w').work =
      ∑ w' ∈ (Finset.range n).erase w, (s.phase w').work := by
    refine Finset.sum_congr rfl fun w' hw' => ?_
    rw [setPhase_phase_of_ne (Finset.ne_of_mem_erase hw')]
  rw [← Finset.sum_erase_add _ _ hmem, ← Finset.sum_erase_add _ _ hmem, hothers,
    setPhase_phase_self]
  omega

/-- No call adds a job to those that remain. -/
theorem remaining_logs {session session' : Session} {e : JobQueue.Event}
    (hlogs : session.Logs e session') :
    remaining session'.queue + e.handedOut.toList.length ≤ remaining session.queue := by
  unfold remaining
  obtain ⟨hstep, hlog⟩ := hlogs
  cases e with
  | popped worker job idx count =>
      cases Session.moves_of_step hstep with
      | popped _ hidx =>
          change session.queue.jobs.length - (session.queue.idx + 1) + 1 ≤ _
          omega
      | refused _ hidx => simp at hlog
  | refused worker =>
      cases Session.moves_of_step hstep with
      | popped _ hidx => simp at hlog
      | refused _ hidx => exact le_rfl
  | added worker pair outcome totals =>
      cases Session.moves_of_step hstep with
      | added => exact le_rfl
  | stopped worker =>
      cases Session.moves_of_step hstep with
      | stopped =>
          change session.queue.jobs.length - session.queue.jobs.length + 0 ≤ _
          omega
  | named worker ei name =>
      cases Session.moves_of_step hstep with
      | named => exact le_rfl
  | polled answer =>
      cases Session.moves_of_step hstep with
      | polled => exact le_rfl

/-- A worker goes on to another phase, and the queue may have moved on. -/
theorem work_setPhase_lt {w : Nat} {p : Phase} (hw : w < n) (hphase : s'.phase = s.phase)
    (hless : p.work + 7 * remaining s'.session.queue <
      (s.phase w).work + 7 * remaining s.session.queue) :
    (s'.setPhase w p).work n < s.work n := by
  have hsum := sum_work_setPhase (s := s') hw p
  rw [hphase] at hsum
  unfold State.work
  rw [setPhase_session]
  omega

/-- **One step** of a worker that goes on leaves less work.  Only `pop` adds to the work of
a worker, and it takes more from the jobs than it adds. -/
theorem Moves.work_lt (hmoves : Moves o s a s') (ha : a.progresses = true)
    (hwithin : ∀ w, a.worker = some w → w < n) : s'.work n < s.work n := by
  cases hmoves with
  | popped w hw hidx session hlogs =>
      have hqueue := remaining_logs hlogs
      refine work_setPhase_lt (hwithin w rfl) rfl ?_
      rw [hw]
      change 7 + 7 * remaining session.queue < 1 + 7 * remaining s.session.queue
      change remaining session.queue + 1 ≤ remaining s.session.queue at hqueue
      omega
  | refused w hw hidx session hlogs =>
      have hqueue : remaining session.queue ≤ remaining s.session.queue := remaining_logs hlogs
      refine work_setPhase_lt (hwithin w rfl) rfl ?_
      rw [hw]
      change 0 + 7 * remaining session.queue < 1 + 7 * remaining s.session.queue
      omega
  | named => cases ha
  | ended w job idx hw =>
      have hfiles := length_filesOf_le o idx
      refine work_setPhase_lt (hwithin w rfl) rfl ?_
      rw [hw]
      change 3 + (o.filesOf idx).length + 7 * remaining s.session.queue <
        7 + 7 * remaining s.session.queue
      omega
  | pushed w job idx f files hw writer hwriter =>
      refine work_setPhase_lt (hwithin w rfl) rfl ?_
      rw [hw]
      exact Nat.add_lt_add_right (Nat.lt_succ_self _) _
  | added w job idx hw session wldCount hlogs =>
      have hqueue : remaining session.queue ≤ remaining s.session.queue := remaining_logs hlogs
      refine work_setPhase_lt (hwithin w rfl) rfl ?_
      rw [hw]
      change 2 + 7 * remaining session.queue < 3 + 0 + 7 * remaining s.session.queue
      omega
  | stopped w wldCount hw session hlogs =>
      have hqueue : remaining session.queue ≤ remaining s.session.queue := remaining_logs hlogs
      refine work_setPhase_lt (hwithin w rfl) rfl ?_
      rw [hw]
      change 1 + 7 * remaining session.queue < 2 + 7 * remaining s.session.queue
      omega
  | wentOn w wldCount hw =>
      refine work_setPhase_lt (hwithin w rfl) rfl ?_
      rw [hw]
      exact Nat.add_lt_add_right (Nat.lt_succ_self _) _
  | polled => cases ha

/-- The other steps leave no more work. -/
theorem Moves.work_le (hmoves : Moves o s a s') (ha : a.progresses = false) :
    s'.work n ≤ s.work n := by
  cases hmoves with
  | named w ei name session hlogs | polled hsupervising session hlogs =>
      have hqueue : remaining session.queue ≤ remaining s.session.queue := remaining_logs hlogs
      exact Nat.add_le_add_left (Nat.mul_le_mul_left 7 hqueue) _
  | popped | refused | ended | pushed | added | stopped | wentOn => cases ha

theorem work_start (n : Nat) (q : JobQueue) : (start q).work n = n + 7 * remaining q := by
  change ∑ _w ∈ Finset.range n, 1 + 7 * remaining q = _
  rw [Finset.sum_const, Finset.card_range, smul_eq_mul, mul_one]

/-- **Finitely many steps.** In every interleaving of `n` workers at most seven steps for
each job, and one for each worker, do anything but set a name or poll the queue.  The bound
does not depend on how the steps are interleaved. -/
theorem bounded_runs (hruns : runs (step o) schedule (start q) = some s)
    (hwithin : Within n schedule) :
    schedule.countP Action.progresses + s.work n ≤ n + 7 * remaining q := by
  rw [← work_start]
  refine countP_add_rank_le (State.work n) Action.progresses ?_ ?_ hruns
  · intro a ha r r' hcounts hstep
    exact (moves_of_step hstep).work_lt hcounts (hwithin a ha)
  · intro a _ r r' hcounts hstep
    exact (moves_of_step hstep).work_le hcounts

/-- **A worker can go on until it has left.** No lock is held from one step to the next, so
no worker waits for another one. -/
theorem exists_step_of_worker (hfresh : q.Fresh)
    (hrows : ∀ j ∈ q.jobs, j.pair < q.results.length)
    (hruns : runs (step o) schedule (start q) = some s) {w : Nat} (hw : s.phase w ≠ .left) :
    ∃ a s', a.worker = some w ∧ a.progresses = true ∧ step o a s = some s' := by
  cases hphase : s.phase w with
  | waiting =>
      have hpop : (step o (.pop w) s).isSome := by
        by_cases hidx : s.session.queue.idx < s.session.queue.jobs.length
        · simp only [step, hphase, Session.step, pop_of_lt hidx, Option.map_some,
            Option.isSome_some]
        · simp only [step, hphase, Session.step, pop_of_le (Nat.le_of_not_lt hidx),
            Option.map_some, Option.isSome_some]
      obtain ⟨s', hs'⟩ := Option.isSome_iff_exists.mp hpop
      exact ⟨.pop w, s', rfl, rfl, hs'⟩
  | playing job idx =>
      refine ⟨.endGame w, s.setPhase w (.saving job idx (o.filesOf idx)), rfl, rfl, ?_⟩
      simp only [step, hphase]
  | saving job idx files =>
      cases files with
      | nil =>
          obtain ⟨s', hs'⟩ := exists_step_addResult hfresh hrows hruns hphase
          exact ⟨.addResult w, s', rfl, rfl, hs'⟩
      | cons f files =>
          obtain ⟨s', hs'⟩ := exists_step_push hfresh hruns hphase
          exact ⟨.push w, s', rfl, rfl, hs'⟩
  | updating wldCount =>
      by_cases hdone : o.sprtDone wldCount = true
      · have hstop : (step o (.stop w) s).isSome := by
          simp only [step, hphase, if_pos hdone, Session.step, Option.map_some,
            Option.isSome_some]
        obtain ⟨s', hs'⟩ := Option.isSome_iff_exists.mp hstop
        exact ⟨.stop w, s', rfl, rfl, hs'⟩
      · refine ⟨.goOn w, s.setPhase w .waiting, rfl, rfl, ?_⟩
        simp only [step, hphase, if_neg hdone]
  | left => exact absurd hphase hw

/-- **Every run can be brought to its end**, by as many steps as there is work left.  By
induction on the work, with a step of any worker that has not left. -/
theorem exists_joined (hfresh : q.Fresh) (hrows : ∀ j ∈ q.jobs, j.pair < q.results.length)
    (hruns : runs (step o) schedule (start q) = some s) (hwithin : Within n schedule) :
    ∃ more s', runs (step o) (schedule ++ more) (start q) = some s' ∧
      Within n (schedule ++ more) ∧ more.length ≤ s.work n ∧ Joined n s' := by
  induction hwork : s.work n using Nat.strong_induction_on generalizing schedule s with
  | _ work ih =>
      by_cases hjoined : Joined n s
      · exact ⟨[], s, by rwa [List.append_nil], by rwa [List.append_nil], Nat.zero_le _, hjoined⟩
      unfold Joined at hjoined
      push Not at hjoined
      obtain ⟨w, hw, hleft⟩ := hjoined
      obtain ⟨a, r, ha, hprogresses, hstep⟩ := exists_step_of_worker hfresh hrows hruns hleft
      have hlt : ∀ w', a.worker = some w' → w' < n := by
        intro w' hw'
        rw [ha, Option.some.injEq] at hw'
        exact hw' ▸ hw
      have hwithin' : Within n (schedule ++ [a]) := by
        intro b hb
        rcases List.mem_append.mp hb with hb | hb
        · exact hwithin b hb
        · rw [List.mem_singleton.mp hb]
          exact hlt
      have hless := (moves_of_step hstep).work_lt (n := n) hprogresses hlt
      obtain ⟨more, s', hmore, hwithinMore, hlength, hend⟩ :=
        ih _ (hwork ▸ hless) ((runs_snoc_of hruns).trans hstep) hwithin' rfl
      rw [List.append_assoc, List.singleton_append] at hmore hwithinMore
      refine ⟨a :: more, s', hmore, hwithinMore, ?_, hend⟩
      rw [List.length_cons]
      omega

/-- **A tournament comes to its end.**  In any interleaving of `n` workers, the steps that
are not names or polls are at most seven for each job and one for each worker; and it can
always be brought to its end, by at most as many steps as this leaves. -/
theorem completes {engines rounds games : Nat} {gauntlet : Bool}
    (hruns : runs (step o) schedule (start (new engines rounds games gauntlet)) = some s)
    (hwithin : Within n schedule) :
    schedule.countP Action.progresses + s.work n ≤
        n + 7 * (new engines rounds games gauntlet).jobs.length ∧
      ∃ more s', runs (step o) (schedule ++ more) (start (new engines rounds games gauntlet)) =
          some s' ∧
        Within n (schedule ++ more) ∧ more.length ≤ s.work n ∧ Joined n s' :=
  ⟨bounded_runs hruns hwithin, exists_joined (new_fresh engines rounds games gauntlet)
    (fun _ hj => pair_lt_of_mem_new_jobs hj) hruns hwithin⟩

theorem completes_friendly :
    ∃ more s', runs (step friendly) ([.pop 0, .pop 1, .endGame 1] ++ more)
        (start (new 3 1 2 false)) = some s' ∧ more.length ≤ 38 ∧ Joined 2 s' := by
  obtain ⟨s, hs⟩ := Option.isSome_iff_exists.mp (show (runs (step friendly)
    [.pop 0, .pop 1, .endGame 1] (start (new 3 1 2 false))).isSome from rfl)
  obtain ⟨-, more, s', hruns, -, hlength, hjoined⟩ :=
    completes (n := 2) hs (by decide)
  have hwork : (runs (step friendly) [.pop 0, .pop 1, .endGame 1]
      (start (new 3 1 2 false))).map (State.work 2) = some 38 := rfl
  rw [hs, Option.map_some, Option.some.injEq] at hwork
  exact ⟨more, s', hruns, hwork ▸ hlength, hjoined⟩

/-! ## Workers that have left -/

/-- Who does not take steps, waits.  So a worker that was never started holds neither a game
nor a record. -/
theorem phase_of_within (hruns : runs (step o) schedule (start q) = some s)
    (hwithin : Within n schedule) {w : Nat} (hw : n ≤ w) : s.phase w = .waiting := by
  refine invariant_along (fun done r => Within n done → r.phase w = .waiting) (fun _ => rfl) ?_
    hruns hwithin
  intro done r a r' _ ih hstep hdone
  have hbefore := ih hdone.of_append_left
  have hlt : ∀ w', a.worker = some w' → w' < n := hdone a (List.mem_append_right _ (.head _))
  cases moves_of_step hstep with
  | named | polled => exact hbefore
  | popped w' | refused w' | ended w' | pushed w' | added w' | stopped w' | wentOn w' =>
      rw [setPhase_phase_of_ne (hw.trans_lt' (hlt w' rfl)).ne']
      exact hbefore

theorem Moves.remaining_le (hmoves : Moves o s a s') :
    remaining s'.session.queue ≤ remaining s.session.queue := by
  cases hmoves with
  | popped _ _ _ session hlogs | refused _ _ _ session hlogs | named _ _ _ session hlogs
  | added _ _ _ _ session _ hlogs | stopped _ _ _ session hlogs | polled _ session hlogs =>
      exact (Nat.le_add_right _ _).trans (remaining_logs hlogs)
  | ended | pushed | wentOn => exact le_rfl

/-- Nobody leaves before the jobs are gone.  Therefore a run whose workers have all left has
handed out every job, or it was stopped. -/
theorem remaining_of_left (hruns : runs (step o) schedule (start q) = some s) {w : Nat}
    (hw : s.phase w = .left) : remaining s.session.queue = 0 := by
  refine invariant (fun r => r.phase w = .left → remaining r.session.queue = 0) ?_ ?_ hruns hw
  · intro h
    cases h
  intro r a r' ih hstep hleft
  have hmoves := moves_of_step hstep
  have hmono := hmoves.remaining_le
  have hstays : r.phase w = .left → remaining r'.session.queue = 0 :=
    fun hold => Nat.eq_zero_of_le_zero (ih hold ▸ hmono)
  cases hmoves with
  | named | polled => exact hstays hleft
  | refused w' hw' hidx session hlogs =>
      exact Nat.eq_zero_of_le_zero (hmono.trans (Nat.sub_eq_zero_of_le hidx).le)
  | popped w' | ended w' | pushed w' | added w' | stopped w' | wentOn w' =>
      rcases eq_or_ne w w' with rfl | hne
      · rw [setPhase_phase_self] at hleft
        cases hleft
      · rw [setPhase_phase_of_ne hne] at hleft
        exact hstays hleft

/-! ## The results -/

/-- The result of the game with an index, and the row to which it is added. -/
def scoreOf (o : Tournament) (q : JobQueue) (i : Nat) : Nat × Result :=
  ((q.jobs[i]?.map Job.pair).getD 0, o.outcome i)

/-- Every result is that of the job, added to the row of its pair, in the order in which the
games were finished. -/
theorem scored_runs (hfresh : q.Fresh) (hruns : runs (step o) schedule (start q) = some s) :
    scored s.session.log = s.finished.map (scoreOf o q) := by
  refine invariant_along (fun _ r => scored r.session.log = r.finished.map (scoreOf o q)) rfl ?_
    hruns
  intro done r a r' hr ih hstep
  have hsame : ∀ {session : Session} {e : JobQueue.Event}, r.session.Logs e session →
      e.scored = none → scored session.log = r.finished.map (scoreOf o q) := by
    intro session e hlogs he
    rw [hlogs.log, scored_snoc_none he, ih]
  cases moves_of_step hstep with
  | popped _ _ _ session hlogs | refused _ _ _ session hlogs | named _ _ _ session hlogs
  | stopped _ _ _ session hlogs | polled _ session hlogs => exact hsame hlogs rfl
  | ended | pushed | wentOn => exact ih
  | added w job idx hw session wldCount hlogs =>
      have hgame : (r.phase w).game = some (job, idx) := by
        rw [hw]
        rfl
      have hmem := (tracks_runs hfresh hr).handedOut.subset
        ((books_runs hfresh hr).held w _ hgame).1
      have hjob : q.jobs[idx]? = some job := List.mem_zipIdx_iff_getElem?.mp hmem
      have hscore : scoreOf o q idx = (job.pair, o.outcome idx) := by
        rw [scoreOf, hjob]
        rfl
      change scored session.log = (r.finished ++ [idx]).map (scoreOf o q)
      rw [hlogs.log, scored_snoc, ih, List.map_append, List.map_singleton, hscore]
      rfl

/-! ## What is left at the end -/

/-- The number of games that have been started. -/
def State.started (s : State) : Nat := (handedOut s.session.log).length

/-- The record of a game as a writer gets it. -/
def itemOf (o : Tournament) (f : OutputFile) (i : Nat) : SeqStr := ⟨i, o.record f i⟩

/-- The games whose records are pushed to a file, of the first ones. -/
def savedTo (o : Tournament) (f : OutputFile) (count : Nat) : List Nat :=
  (List.range count).filter fun i => o.saves i && o.writes f

/-- **What a tournament leaves behind.** Each field is determined by the number of games
that were started and by the games themselves, and not by the order in which the workers
have finished. -/
structure Ending (o : Tournament) (q : JobQueue) (s : State) : Prop where
  finished : s.finished.Perm (List.range s.started)
  results : s.session.queue.results =
    tableOf q.results ((List.range s.started).map (scoreOf o q))
  completed : s.session.queue.completed = s.started
  files : ∀ f, (s.writer f).close.content =
    (o.savedTo f s.started).flatMap fun i => (o.itemOf f i).text
  all : ¬ Stopped s.session.log → s.started = q.jobs.length

theorem Books.finished_perm (h : Books s) (htracks : Tracks q s.session)
    (hidle : ∀ w, (s.phase w).game = none) : s.finished.Perm (List.range s.started) := by
  rw [State.started, ← htracks.map_snd_handedOut]
  have hnodup : ((handedOut s.session.log).map Prod.snd).Nodup := by
    rw [htracks.map_snd_handedOut]
    exact List.nodup_range
  refine (List.perm_ext_iff_of_nodup h.nodup hnodup).mpr fun i => ⟨h.finished i, fun hi => ?_⟩
  obtain ⟨g, hg, rfl⟩ := List.mem_map.mp hi
  refine (h.covered g hg).resolve_right ?_
  rintro ⟨w, hw⟩
  rw [hidle w] at hw
  cases hw

/-- The records that were pushed are those of the saved games.  Nobody holds a record any
more, so none of them is missing. -/
theorem Pushed.inOrder {f : OutputFile} {items : List SeqStr} (h : Pushed o s f items)
    (hidle : ∀ w, (s.phase w).saved = none)
    (hfinished : s.finished.Perm (List.range s.started)) :
    (items.map SeqStr.idx).Nodup ∧
      SeqWriter.inOrder items = (o.savedTo f s.started).map (o.itemOf f) := by
  have hresequenced := h.holds.resequenced
  have hnodup : (items.map SeqStr.idx).Nodup := by
    refine ((hresequenced.perm.map SeqStr.idx).nodup_iff).mp ?_
    refine List.pairwise_map.mpr (hresequenced.all_inOrder.imp fun hlt => hlt.ne)
  have hmem : ∀ i, i ∈ items.map SeqStr.idx ↔ i ∈ o.savedTo f s.started := by
    intro i
    have hpast : Past s f i ↔ i < s.started := by
      rw [Past, hfinished.mem_iff, List.mem_range, or_iff_left]
      rintro ⟨w, files, hw, -⟩
      rw [hidle w] at hw
      cases hw
    rw [h.mem, hpast, mem_filesOf, savedTo, List.mem_filter, List.mem_range, Bool.and_eq_true]
    exact and_comm
  have hsaved : (o.savedTo f s.started).Nodup := List.nodup_range.filter _
  have hitems : items = (items.map SeqStr.idx).map (o.itemOf f) := by
    rw [List.map_map]
    refine ((List.map_congr_left fun r hr => ?_).trans (List.map_id items)).symm
    change (⟨r.idx, o.record f r.idx⟩ : SeqStr) = r
    rw [← h.str r hr]
  have hperm : items.Perm ((o.savedTo f s.started).map (o.itemOf f)) := by
    rw [hitems]
    exact ((List.perm_ext_iff_of_nodup hnodup hsaved).mpr hmem).map _
  refine ⟨hnodup, ?_⟩
  refine (SeqWriter.inOrder_inOrder hnodup).eq_of_perm ?_
    ((SeqWriter.inOrder_perm items).trans hperm)
  have hlt : (o.savedTo f s.started).Pairwise (· < ·) := List.pairwise_lt_range.filter _
  exact List.pairwise_map.mpr hlt

theorem ending_of_joined (hfresh : q.Fresh) (hruns : runs (step o) schedule (start q) = some s)
    (hwithin : Within n schedule) (hn : 0 < n) (hjoined : Joined n s) : Ending o q s := by
  have htracks := tracks_runs hfresh hruns
  have hbooks := books_runs hfresh hruns
  have hphase : ∀ w, s.phase w = .left ∨ s.phase w = .waiting := by
    intro w
    rcases Nat.lt_or_ge w n with hw | hw
    · exact Or.inl (hjoined w hw)
    · exact Or.inr (phase_of_within hruns hwithin hw)
  have hgame : ∀ w, (s.phase w).game = none := by
    intro w
    rcases hphase w with hw | hw <;> rw [hw] <;> rfl
  have hsaved : ∀ w, (s.phase w).saved = none := by
    intro w
    rcases hphase w with hw | hw <;> rw [hw] <;> rfl
  have hperm := hbooks.finished_perm htracks hgame
  refine ⟨hperm, ?_, ?_, ?_, ?_⟩
  · rw [htracks.results, scored_runs hfresh hruns]
    exact tableOf_perm _ (hperm.map _)
  · rw [htracks.completed, scored_runs hfresh hruns, List.length_map, hperm.length_eq,
      List.length_range]
  · intro f
    obtain ⟨items, hitems⟩ := (saving_runs hfresh hruns).pushed f
    obtain ⟨hdistinct, hinOrder⟩ := hitems.inOrder hsaved hperm
    rw [(hitems.holds.sequenced hdistinct).closed, hinOrder, List.flatMap_map]
  · intro hrunning
    have hzero := remaining_of_left hruns (hjoined 0 hn)
    have hend : s.session.queue.idx = q.jobs.length := by
      refine le_antisymm htracks.idx_le ?_
      rw [← htracks.jobs]
      exact Nat.le_of_sub_eq_zero hzero
    exact (htracks.idx_eq_iff.mp hend).resolve_left hrunning

/-- The games of a row in one round. -/
theorem count_pair_jobsOfRound {engines games r pair : Nat} {gauntlet : Bool}
    (hpair : pair < (pairs engines gauntlet).length) :
    ((jobsOfRound engines games gauntlet r).map Job.pair).count pair = games := by
  have hblock : ∀ x : (Nat × Nat) × Nat,
      (jobsOfPair games r x.2 x.1).map Job.pair = List.replicate games x.2 := by
    intro x
    rw [jobsOfPair, List.map_map]
    change (List.range games).map (fun _ => x.2) = _
    rw [List.map_const', List.length_range]
  have hrange : (pairs engines gauntlet).zipIdx.map Prod.snd =
      List.range (pairs engines gauntlet).length := by
    rw [List.zipIdx_map_snd, List.range_eq_range']
  calc ((jobsOfRound engines games gauntlet r).map Job.pair).count pair
      = ((List.range (pairs engines gauntlet).length).flatMap (List.replicate games)).count
          pair := by
        rw [jobsOfRound, List.map_flatMap, ← hrange, List.flatMap_map]
        simp only [hblock]
    _ = ((List.range (pairs engines gauntlet).length).map fun i =>
          if i = pair then games else 0).sum := by
        rw [List.count_flatMap]
        refine congrArg List.sum (List.map_congr_left fun i _ => ?_)
        change (List.replicate games i).count pair = _
        rw [List.count_replicate]
        simp only [beq_iff_eq]
    _ = games := by
        change ∑ i ∈ Finset.range (pairs engines gauntlet).length,
          (if i = pair then games else 0) = games
        rw [Finset.sum_ite_eq', if_pos (Finset.mem_range.mpr hpair)]

/-- The games of a row.  A pair plays the same number of games in every round. -/
theorem count_pair_new_jobs {engines rounds games pair : Nat} {gauntlet : Bool}
    (hpair : pair < (pairs engines gauntlet).length) :
    ((new engines rounds games gauntlet).jobs.map Job.pair).count pair = rounds * games := by
  have hround : List.count pair ∘ (fun r => (jobsOfRound engines games gauntlet r).map Job.pair) =
      fun _ => games := funext fun _ => count_pair_jobsOfRound hpair
  rw [new_jobs, List.map_flatMap, List.count_flatMap, hround, List.map_const',
    List.length_range, List.sum_replicate, smul_eq_mul]

/-- The total of a row counts its results. -/
theorem total_tableOf {rows : List PairResult} {scores : List (Nat × Result)} {pair : Nat}
    {row : PairResult} (hrow : (tableOf rows scores)[pair]? = some row) :
    row.total = (scores.map Prod.fst).count pair := by
  rw [getElem?_tableOf, Option.map_eq_some_iff] at hrow
  obtain ⟨row', -, rfl⟩ := hrow
  change scores.count (pair, .loss) + scores.count (pair, .draw) + scores.count (pair, .win) = _
  induction scores with
  | nil => rfl
  | cons score scores ih =>
      obtain ⟨pair', outcome⟩ := score
      rw [List.map_cons]
      simp only [List.count_cons, ← ih, beq_iff_eq, Prod.mk.injEq]
      by_cases hpair : pair' = pair
      · cases outcome <;> simp [hpair] <;> omega
      · simp [hpair]

/-- **Every interleaving ends in the same way.** What a complete run leaves behind is
determined by the games alone.  If nobody stops the tournament, all games of all pairs have
been scored, and any other such run, also with another number of workers, leaves the same
table and the same files. -/
theorem ending_runs {engines rounds games : Nat} {gauntlet : Bool}
    (hruns : runs (step o) schedule (start (new engines rounds games gauntlet)) = some s)
    (hwithin : Within n schedule) (hn : 0 < n) (hjoined : Joined n s) :
    Ending o (new engines rounds games gauntlet) s ∧
      (¬ Stopped s.session.log →
        (∀ row ∈ s.session.queue.results, row.total = rounds * games) ∧
        ∀ schedule' s' n',
          runs (step o) schedule' (start (new engines rounds games gauntlet)) = some s' →
          Within n' schedule' → 0 < n' → Joined n' s' → ¬ Stopped s'.session.log →
            s.session.queue.results = s'.session.queue.results ∧
              ∀ f, (s.writer f).close.content = (s'.writer f).close.content) := by
  have hfresh := new_fresh engines rounds games gauntlet
  have hending := ending_of_joined hfresh hruns hwithin hn hjoined
  refine ⟨hending, fun hrunning => ⟨?_, ?_⟩⟩
  · intro row hrow
    obtain ⟨pair, hpair⟩ := List.getElem?_of_mem hrow
    have hlt : pair < (pairs engines gauntlet).length := by
      have hlength := (List.getElem?_eq_some_iff.mp hpair).1
      rw [hending.results, length_tableOf, length_new_results] at hlength
      exact hlength
    have hscores : ((List.range s.started).map (scoreOf o (new engines rounds games gauntlet))).map
        Prod.fst = (new engines rounds games gauntlet).jobs.map Job.pair := by
      rw [hending.all hrunning, List.map_map]
      refine List.ext_getElem (by simp) fun i hi hi' => ?_
      rw [List.length_map] at hi'
      simp [scoreOf, List.getElem?_eq_getElem hi']
    rw [hending.results] at hpair
    rw [total_tableOf hpair, hscores, count_pair_new_jobs hlt]
  · intro schedule' s' n' hruns' hwithin' hn' hjoined' hrunning'
    have hending' := ending_of_joined hfresh hruns' hwithin' hn' hjoined'
    have hsame : s.started = s'.started :=
      (hending.all hrunning).trans (hending'.all hrunning').symm
    constructor
    · rw [hending.results, hending'.results, hsame]
    · intro f
      rw [hending.files, hending'.files, hsame]

/-- A tournament that writes one file, with a decisive first game. -/
def decisive : Tournament where
  gauntlet := false
  saveLoseOnly := false
  writes f := f == .sgf
  sprtDone _ := false
  outcome i := if i = 0 then .win else .draw
  record _ i := if i = 0 then ['a'] else ['b']

theorem ending_runs_two :
    ∃ s, runs (step decisive)
        [.pop 0, .pop 1, .endGame 1, .push 1, .poll, .endGame 0, .addResult 1, .goOn 1, .pop 1,
          .push 0, .addResult 0, .goOn 0, .pop 0]
        (start (new 2 1 2 false)) = some s ∧
      Ending decisive (new 2 1 2 false) s ∧ s.started = 2 ∧
      (s.writer .sgf).close.content = ['a', 'b'] := by
  obtain ⟨s, hs⟩ := Option.isSome_iff_exists.mp (show (runs (step decisive)
    [.pop 0, .pop 1, .endGame 1, .push 1, .poll, .endGame 0, .addResult 1, .goOn 1, .pop 1,
      .push 0, .addResult 0, .goOn 0, .pop 0]
    (start (new 2 1 2 false))).isSome from rfl)
  have hphases : (runs (step decisive)
    [.pop 0, .pop 1, .endGame 1, .push 1, .poll, .endGame 0, .addResult 1, .goOn 1, .pop 1,
      .push 0, .addResult 0, .goOn 0, .pop 0]
    (start (new 2 1 2 false))).map (fun s => (s.phase 0, s.phase 1, s.started)) =
      some (.left, .left, 2) := rfl
  rw [hs, Option.map_some, Option.some.injEq, Prod.mk.injEq, Prod.mk.injEq] at hphases
  obtain ⟨hzero, hone, hstarted⟩ := hphases
  have hjoined : Joined 2 s := by
    intro w hw
    obtain rfl | rfl : w = 0 ∨ w = 1 := by omega
    · exact hzero
    · exact hone
  have hending := (ending_runs hs (by decide) (by decide) hjoined).1
  refine ⟨s, hs, hending, hstarted, ?_⟩
  rw [hending.files, hstarted]
  decide

/-! ## After a stop -/

/-- Nothing is handed out when no jobs remain.  A stop makes it so at once. -/
theorem Moves.handedOut_eq (hmoves : Moves o s a s') (hzero : remaining s.session.queue = 0) :
    handedOut s'.session.log = handedOut s.session.log := by
  have hlogs : ∀ {session : Session} {e : JobQueue.Event}, s.session.Logs e session →
      handedOut session.log = handedOut s.session.log := by
    intro session e hlogs
    have hle := remaining_logs hlogs
    rw [hzero] at hle
    refine handedOut_logs hlogs ?_
    cases he : e.handedOut with
    | none => rfl
    | some g =>
        rw [he] at hle
        exact absurd hle (Nat.not_succ_le_zero _)
  cases hmoves with
  | popped _ _ _ session h | refused _ _ _ session h | named _ _ _ session h
  | added _ _ _ _ session _ h | stopped _ _ _ session h | polled _ session h => exact hlogs h
  | ended | pushed | wentOn => rfl

theorem handedOut_runs (hruns : runs (step o) schedule s = some s')
    (hzero : remaining s.session.queue = 0) :
    handedOut s'.session.log = handedOut s.session.log := by
  refine (invariant (fun r => remaining r.session.queue = 0 ∧
    handedOut r.session.log = handedOut s.session.log) ⟨hzero, rfl⟩ ?_ hruns).2
  rintro r a r' ⟨hr, hsame⟩ hstep
  have hmoves := moves_of_step hstep
  exact ⟨Nat.eq_zero_of_le_zero (hr ▸ hmoves.remaining_le), (hmoves.handedOut_eq hr).trans hsame⟩

/-- The workers that hold a game. -/
def State.busy (n : Nat) (s : State) : Finset Nat :=
  (Finset.range n).filter fun w => (s.phase w).game.isSome

/-- A game that was started has its result, or a busy worker holds it. -/
theorem Books.started_le (h : Books s) (htracks : Tracks q s.session)
    (hidle : ∀ w, n ≤ w → (s.phase w).game = none) :
    s.started ≤ s.finished.length + (s.busy n).card := by
  classical
  let held : Nat → Nat := fun w => ((s.phase w).game.map Prod.snd).getD 0
  have hcovers : Finset.range s.started ⊆ s.finished.toFinset ∪ (s.busy n).image held := by
    intro i hi
    have hmem : i ∈ (handedOut s.session.log).map Prod.snd := by
      rw [htracks.map_snd_handedOut]
      exact List.mem_range.mpr (Finset.mem_range.mp hi)
    obtain ⟨g, hg, rfl⟩ := List.mem_map.mp hmem
    rcases h.covered g hg with hfinished | ⟨w, hw⟩
    · exact Finset.mem_union_left _ (List.mem_toFinset.mpr hfinished)
    · have hlt : w < n := by
        by_contra hle
        rw [hidle w (Nat.le_of_not_lt hle)] at hw
        cases hw
      refine Finset.mem_union_right _ (Finset.mem_image.mpr ⟨w, ?_, ?_⟩)
      · exact Finset.mem_filter.mpr ⟨Finset.mem_range.mpr hlt, by rw [hw, Option.isSome_some]⟩
      · change ((s.phase w).game.map Prod.snd).getD 0 = g.2
        rw [hw]
        rfl
  calc s.started = (Finset.range s.started).card := (Finset.card_range _).symm
    _ ≤ (s.finished.toFinset ∪ (s.busy n).image held).card := Finset.card_le_card hcovers
    _ ≤ s.finished.toFinset.card + ((s.busy n).image held).card := Finset.card_union_le _ _
    _ ≤ s.finished.length + (s.busy n).card :=
        Nat.add_le_add (List.toFinset_card_le _) Finset.card_image_le

theorem Books.length_finished_le (h : Books s) : s.finished.length ≤ s.started := by
  have hsubset : s.finished ⊆ (handedOut s.session.log).map Prod.snd := fun i => h.finished i
  rw [State.started, ← List.length_map Prod.snd]
  exact (List.subperm_of_subset h.nodup hsubset).length_le

/-- The results that a worker can still add: that of the game that it holds, and those of
the jobs that remain.  When nothing remains it is at most one. -/
def State.owed (w : Nat) (s : State) : Nat :=
  remaining s.session.queue + (s.phase w).game.toList.length

/-- A worker goes on to another phase, and adds `k` results.  What it owes has to go down
with them; what the others owe does not go up, because the jobs that remain do not. -/
theorem owed_setPhase_le {w' k : Nat} {p : Phase} {t : State} (hphase : t.phase = s.phase)
    (hqueue : remaining t.session.queue ≤ remaining s.session.queue)
    (hown : remaining t.session.queue + p.game.toList.length + k ≤ s.owed w') (w : Nat) :
    (t.setPhase w' p).owed w + (if w' = w then k else 0) ≤ s.owed w := by
  rcases eq_or_ne w' w with rfl | hne
  · rw [if_pos rfl, State.owed, setPhase_session, setPhase_phase_self]
    exact hown
  · rw [if_neg hne, State.owed, setPhase_session, setPhase_phase_of_ne hne.symm, hphase]
    exact Nat.add_le_add_right hqueue _

/-- A step adds to what a worker owes only what it takes from the jobs that remain. -/
theorem Moves.owed_le (hmoves : Moves o s a s') (w : Nat) :
    s'.owed w + (if a = .addResult w then 1 else 0) ≤ s.owed w := by
  have hremaining : remaining s'.session.queue ≤ remaining s.session.queue := hmoves.remaining_le
  -- a worker that adds no result
  have hgoes : ∀ {w' : Nat} {p : Phase} {t : State}, t.phase = s.phase →
      remaining t.session.queue ≤ remaining s.session.queue →
      remaining t.session.queue + p.game.toList.length ≤ s.owed w' →
        (t.setPhase w' p).owed w ≤ s.owed w := fun hphase hqueue hown =>
    (Nat.le_add_right _ _).trans (owed_setPhase_le (k := 0) hphase hqueue hown w)
  cases hmoves with
  | added w' job idx hw session wldCount hlogs =>
      simp only [Action.addResult.injEq]
      refine owed_setPhase_le (s := s)
        (t := { s with session := session, finished := s.finished ++ [idx] }) rfl hremaining ?_ w
      rw [State.owed, hw]
      exact Nat.add_le_add_right hremaining 1
  | named w' ei name session hlogs | polled hsupervising session hlogs =>
      rw [if_neg (by simp)]
      exact Nat.add_le_add_right hremaining _
  | popped w' hw hidx session hlogs =>
      rw [if_neg (by simp)]
      refine hgoes rfl hremaining ?_
      rw [State.owed, hw]
      exact remaining_logs hlogs
  | refused w' hw hidx session hlogs | stopped w' wldCount hw session hlogs =>
      rw [if_neg (by simp)]
      refine hgoes rfl hremaining ?_
      rw [State.owed, hw]
      exact hremaining
  | ended w' job idx hw | wentOn w' wldCount hw | pushed w' job idx f files hw writer hwriter =>
      rw [if_neg (by simp)]
      refine hgoes rfl hremaining ?_
      rw [State.owed, hw]
      exact le_rfl

/-- **A worker adds no more results than it owes.** By induction on the run, since a step
never adds to what a worker owes. -/
theorem count_addResult_le (hruns : runs (step o) schedule s = some s') (w : Nat) :
    schedule.count (.addResult w) ≤ s.owed w := by
  rw [List.count]
  refine (Nat.le_add_right _ (s'.owed w)).trans
    (countP_add_rank_le (State.owed w) (fun a => a == Action.addResult w) ?_ ?_ hruns)
  · intro a _ r r' ha hstep
    have hle := (moves_of_step hstep).owed_le w
    rw [if_pos (beq_iff_eq.mp ha)] at hle
    exact hle
  · intro a _ r r' _ hstep
    exact (Nat.le_add_right _ _).trans ((moves_of_step hstep).owed_le w)

/-- **A stop takes effect at once.**  No job is handed out after it, and each worker adds
at most the result of the game that it holds then; the one that stops holds none.  So at
most one game for each of the other workers comes in late, although the test is made
outside the lock of the queue. -/
theorem overshoot_runs (hfresh : q.Fresh) {w : Nat}
    (hruns : runs (step o) (before ++ .stop w :: after) (start q) = some s)
    (hwithin : Within n (before ++ .stop w :: after)) :
    ∃ r, runs (step o) before (start q) = some r ∧
      handedOut s.session.log = handedOut r.session.log ∧
      (r.phase w).game = none ∧
      (∀ w', after.count (.addResult w') ≤ (r.phase w').game.toList.length) ∧
      s.finished.length + 1 ≤ r.finished.length + n := by
  obtain ⟨r, r', hbefore, hstop, hafter⟩ := exists_of_mid hruns
  have hbooks := books_runs hfresh hbefore
  have htracks := tracks_runs hfresh hbefore
  have hwn : w < n := hwithin _ (List.mem_append_right _ (.head _)) w rfl
  refine ⟨r, hbefore, ?_⟩
  cases moves_of_step hstop with
  | stopped _ wldCount hw session hlogs =>
      have hzero : remaining session.queue = 0 := by
        cases Session.moves_of_step hlogs.step with
        | stopped => exact Nat.sub_self _
      have hsame : handedOut s.session.log = handedOut r.session.log :=
        (handedOut_runs hafter hzero).trans (handedOut_logs hlogs rfl)
      refine ⟨hsame, by rw [hw]; rfl, fun w' => ?_, ?_⟩
      · refine (count_addResult_le hafter w').trans ?_
        rw [State.owed, setPhase_session, hzero, Nat.zero_add]
        rcases eq_or_ne w' w with rfl | hne
        · rw [setPhase_phase_self]
          exact Nat.zero_le _
        · rw [setPhase_phase_of_ne hne]
      have hidle : ∀ w', n ≤ w' → (r.phase w').game = none := by
        intro w' hw'
        rw [phase_of_within hbefore hwithin.of_append_left hw']
        rfl
      -- the worker that stops holds no game
      have hbusy : (r.busy n).card + 1 ≤ n := by
        have hsub : r.busy n ⊆ (Finset.range n).erase w := by
          intro w' hw'
          obtain ⟨hrange, hgame⟩ := Finset.mem_filter.mp hw'
          refine Finset.mem_erase.mpr ⟨?_, hrange⟩
          rintro rfl
          rw [hw] at hgame
          cases hgame
        have hcard := Finset.card_le_card hsub
        rw [Finset.card_erase_of_mem (Finset.mem_range.mpr hwn), Finset.card_range] at hcard
        omega
      have hstarted := hbooks.started_le htracks hidle
      have hfinished := (books_runs hfresh hruns).length_finished_le
      have hlength : s.started = r.started := congrArg List.length hsame
      omega

/-- A tournament that stops after the first win. -/
def untilWin : Tournament where
  gauntlet := false
  saveLoseOnly := false
  writes _ := false
  sprtDone wldCount := decide (0 < wldCount .win)
  outcome i := if i = 0 then .win else .draw
  record _ _ := []

/-- The other worker plays its game to the end, and is then sent away. -/
theorem overshoot_runs_untilWin :
    ∃ s r, runs (step untilWin) ([.pop 0, .pop 1, .endGame 0, .addResult 0] ++
        .stop 0 :: [.endGame 1, .addResult 1, .pop 0, .stop 1, .pop 1])
          (start (new 2 1 9 false)) = some s ∧
      runs (step untilWin) [.pop 0, .pop 1, .endGame 0, .addResult 0]
        (start (new 2 1 9 false)) = some r ∧
      handedOut s.session.log = handedOut r.session.log ∧
      (r.phase 0).game = none ∧
      (∀ w, List.count (.addResult w) [Action.endGame 1, .addResult 1, .pop 0, .stop 1, .pop 1] ≤
        (r.phase w).game.toList.length) ∧
      s.finished.length + 1 ≤ r.finished.length + 2 := by
  obtain ⟨s, hs⟩ := Option.isSome_iff_exists.mp (show (runs (step untilWin)
    ([.pop 0, .pop 1, .endGame 0, .addResult 0] ++
        .stop 0 :: [.endGame 1, .addResult 1, .pop 0, .stop 1, .pop 1])
          (start (new 2 1 9 false))).isSome from rfl)
  obtain ⟨r, hr, hlate⟩ := overshoot_runs (n := 2) (new_fresh 2 1 9 false) hs (by decide)
  exact ⟨s, r, hs, hr, hlate⟩

end Tournament

end GomokuCli
