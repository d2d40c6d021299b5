import GomokuCli.Tournament

/-!
# Saved games on their way to the files

A game that is not saved pushes nothing, and a writer waits for every index.  So
the first game that is skipped holds back the records of all later games until
the program ends.  Only a gauntlet that saves lost games skips any.
-/

namespace GomokuCli

open Interleaving JobQueue Resequencing

namespace Tournament

/-- The record of a game is in the file.  It is in the buffer of the writer before, and is
lost to a reader until then. -/
def Written (o : Tournament) (s : State) (f : OutputFile) (i : Nat) : Prop :=
  ⟨i, o.record f i⟩ ∈ (s.writer f).out

/-- Once the games up to `k` have finished, those of them that are saved are in the
files. -/
def InTime (o : Tournament) (s : State) : Prop :=
  ∀ k, (∀ i ≤ k, i ∈ s.finished) → ∀ i ≤ k, o.saves i = true →
    ∀ f, o.writes f = true → Written o s f i

/-- The game that a worker is saving, with the files that are still to be written. -/
def Phase.saved : Phase → Option (Nat × List OutputFile)
  | .saving _ idx files => some (idx, files)
  | _ => none

/-- The worker of a game is past the push to a file.  For a game that is not saved this says
nothing about the file. -/
def Past (s : State) (f : OutputFile) (i : Nat) : Prop :=
  i ∈ s.finished ∨ ∃ w files, (s.phase w).saved = some (i, files) ∧ f ∉ files

/-- `items` have been pushed to a file: one for each game that is past it and saved.  The
writer holds just these, be it in the file or in its buffer. -/
structure Pushed (o : Tournament) (s : State) (f : OutputFile) (items : List SeqStr) : Prop where
  holds : SeqWriter.Holds items (s.writer f)
  str : ∀ r ∈ items, r.str = o.record f r.idx
  mem : ∀ i, i ∈ items.map SeqStr.idx ↔ f ∈ o.filesOf i ∧ Past s f i

/-- **The invariant of the files**: what they have to do with the phases of the workers.
That the files of a worker are the rest of those of its game keeps it from pushing a record
twice. -/
structure Saving (o : Tournament) (s : State) : Prop where
  suffix : ∀ w i files, (s.phase w).saved = some (i, files) → files <:+ o.filesOf i
  pushed : ∀ f, ∃ items, Pushed o s f items

variable {o : Tournament} {q : JobQueue} {s s' : State} {a : Action} {schedule : List Action}
  {f : OutputFile} {i : Nat} {items : List SeqStr}

theorem mem_filesOf : f ∈ o.filesOf i ↔ o.saves i = true ∧ o.writes f = true := by
  rw [filesOf]
  split
  case isTrue hsaves =>
    rw [List.mem_filter, and_iff_right hsaves]
    cases f <;> simp
  case isFalse hsaves =>
    exact iff_of_false List.not_mem_nil fun h => hsaves h.1

theorem nodup_filesOf (o : Tournament) (i : Nat) : (o.filesOf i).Nodup := by
  rw [filesOf]
  split
  · exact List.Nodup.filter _ (by decide)
  · exact List.nodup_nil

/-! ## The invariant -/

theorem Saving.start (o : Tournament) (q : JobQueue) : Saving o (start q) where
  suffix _ _ _ h := by cases h
  pushed f := by
    refine ⟨[], .new, nofun, fun i => iff_of_false List.not_mem_nil ?_⟩
    rintro ⟨-, hfinished | ⟨w, files, hsaved, -⟩⟩
    · cases hfinished
    · cases hsaved

theorem Pushed.congr (h : Pushed o s f items) (hwriter : s'.writer f = s.writer f)
    (hpast : ∀ i, f ∈ o.filesOf i → (Past s' f i ↔ Past s f i)) : Pushed o s' f items where
  holds := by
    rw [hwriter]
    exact h.holds
  str := h.str
  mem i := by
    rw [h.mem]
    exact and_congr_right fun hf => (hpast i hf).symm

/-- A step of a worker that is not saving, or of the main thread. -/
theorem Saving.same (h : Saving o s) (hsaved : ∀ w, (s'.phase w).saved = (s.phase w).saved)
    (hwriter : s'.writer = s.writer) (hfinished : s'.finished = s.finished) : Saving o s' := by
  refine ⟨fun w i files hw => h.suffix w i files ((hsaved w).symm.trans hw), fun f => ?_⟩
  obtain ⟨items, hitems⟩ := h.pushed f
  refine ⟨items, hitems.congr (by rw [hwriter]) fun i _ => ?_⟩
  simp only [Past, hfinished, hsaved]

/-- The worker that holds a job is the only one that can be past a push for it.  So it can
be read off this worker whether the record is on its way. -/
theorem Books.past_iff (h : Books s) {w : Nat} {files : List OutputFile}
    (hw : (s.phase w).saved = some (i, files)) : Past s f i ↔ f ∉ files := by
  have hgame : ∀ w files, (s.phase w).saved = some (i, files) →
      ∃ job, (s.phase w).game = some (job, i) := by
    intro w files hw
    cases hphase : s.phase w with
    | saving job idx files' =>
        rw [hphase] at hw
        cases hw
        exact ⟨job, rfl⟩
    | waiting | playing | updating | left =>
        rw [hphase] at hw
        cases hw
  obtain ⟨job, hjob⟩ := hgame w files hw
  constructor
  · rintro (hfinished | ⟨w', files', hw', hf⟩)
    · exact absurd hfinished (h.held w _ hjob).2
    · obtain ⟨job', hjob'⟩ := hgame w' files' hw'
      obtain rfl := h.alone w w' _ _ hjob hjob' rfl
      rw [hw] at hw'
      cases hw'
      exact hf
  · exact fun hf => Or.inr ⟨w, files, hw, hf⟩

theorem Saving.ended (h : Saving o s) {w : Nat} {job : Job} {idx : Nat}
    (hw : s.phase w = .playing job idx) :
    Saving o (s.setPhase w (.saving job idx (o.filesOf idx))) := by
  have hsaved : ∀ w' i files, ((s.setPhase w (.saving job idx (o.filesOf idx))).phase w').saved =
      some (i, files) →
        (i = idx ∧ files = o.filesOf idx) ∨ (s.phase w').saved = some (i, files) := by
    intro w' i files hw'
    obtain ⟨-, hnew⟩ | ⟨-, hold⟩ := setPhase_cases Phase.saved hw'
    · cases hnew
      exact Or.inl ⟨rfl, rfl⟩
    · exact Or.inr hold
  refine ⟨fun w' i files hw' => ?_, fun f => ?_⟩
  · obtain ⟨rfl, rfl⟩ | hold := hsaved w' i files hw'
    · exact List.suffix_rfl
    · exact h.suffix w' i files hold
  · obtain ⟨items, hitems⟩ := h.pushed f
    refine ⟨items, hitems.congr rfl fun i hf => or_congr_right ⟨?_, ?_⟩⟩
    · rintro ⟨w', files, hw', hnot⟩
      obtain ⟨rfl, rfl⟩ | hold := hsaved w' i files hw'
      · exact absurd hf hnot
      · exact ⟨w', files, hold, hnot⟩
    · rintro ⟨w', files, hw', hnot⟩
      have hne : w' ≠ w := by
        rintro rfl
        rw [hw] at hw'
        cases hw'
      refine ⟨w', files, ?_, hnot⟩
      rw [setPhase_phase_of_ne hne]
      exact hw'

theorem Saving.added (h : Saving o s) {w : Nat} {p : Phase} {idx : Nat}
    (hw : (s.phase w).saved = some (idx, [])) (hp : p.saved = none) (session : Session) :
    Saving o ({ s with session := session, finished := s.finished ++ [idx] }.setPhase w p) := by
  have hsaved : ∀ w' i files, ((s.setPhase w p).phase w').saved = some (i, files) →
      (s.phase w').saved = some (i, files) := by
    intro w' i files hw'
    obtain ⟨-, hnew⟩ | ⟨-, hold⟩ := setPhase_cases Phase.saved hw'
    · rw [hp] at hnew
      cases hnew
    · exact hold
  refine ⟨fun w' i files hw' => h.suffix w' i files (hsaved w' i files hw'), fun f => ?_⟩
  obtain ⟨items, hitems⟩ := h.pushed f
  refine ⟨items, hitems.congr rfl fun i _ => ⟨?_, ?_⟩⟩
  · rintro (hfinished | ⟨w', files, hw', hnot⟩)
    · rcases List.mem_append.mp hfinished with hfinished | hidx
      · exact Or.inl hfinished
      · rw [List.mem_singleton.mp hidx]
        exact Or.inr ⟨w, [], hw, List.not_mem_nil⟩
    · exact Or.inr ⟨w', files, hsaved w' i files hw', hnot⟩
  · rintro (hfinished | ⟨w', files, hw', hnot⟩)
    · exact Or.inl (List.mem_append_left _ hfinished)
    · rcases eq_or_ne w' w with rfl | hne
      · rw [hw] at hw'
        cases hw'
        exact Or.inl (List.mem_append_right _ (.head _))
      · refine Or.inr ⟨w', files, ?_, hnot⟩
        rw [setPhase_phase_of_ne hne]
        exact hw'

/-- One record is past when it has been pushed; nothing else changes. -/
theorem past_push {w : Nat} {idx : Nat} {f : OutputFile} {files : List OutputFile}
    (hsaved : (s.phase w).saved = some (idx, f :: files)) (hfiles : f ∉ files) (job : Job)
    (writer : SeqWriter) (f' : OutputFile) (i : Nat) :
    Past ({ s with writer := Function.update s.writer f writer }.setPhase w
      (.saving job idx files)) f' i ↔ Past s f' i ∨ (i = idx ∧ f' = f) := by
  constructor
  · rintro (hfinished | ⟨w', files', hw', hnot⟩)
    · exact Or.inl (Or.inl hfinished)
    · obtain ⟨rfl, hnew⟩ | ⟨-, hold⟩ := setPhase_cases Phase.saved hw'
      · cases hnew
        rcases eq_or_ne f' f with rfl | hf
        · exact Or.inr ⟨rfl, rfl⟩
        · have hnot' : f' ∉ f :: files := List.not_mem_cons_of_ne_of_not_mem hf hnot
          exact Or.inl (Or.inr ⟨w', f :: files, hsaved, hnot'⟩)
      · exact Or.inl (Or.inr ⟨w', files', hold, hnot⟩)
  · rintro ((hfinished | ⟨w', files', hw', hnot⟩) | ⟨rfl, rfl⟩)
    · exact Or.inl hfinished
    · rcases eq_or_ne w' w with rfl | hne
      · rw [hsaved] at hw'
        cases hw'
        refine Or.inr ⟨w', files, ?_, List.not_mem_of_not_mem_cons hnot⟩
        rw [setPhase_phase_self]
        rfl
      · refine Or.inr ⟨w', files', ?_, hnot⟩
        rw [setPhase_phase_of_ne hne]
        exact hw'
    · refine Or.inr ⟨w, files, ?_, hfiles⟩
      rw [setPhase_phase_self]
      rfl

theorem Saving.push (h : Saving o s) (hbooks : Books s) {w : Nat} {job : Job} {idx : Nat}
    {f : OutputFile} {files : List OutputFile} (hw : s.phase w = .saving job idx (f :: files))
    {writer : SeqWriter} (hwriter : (s.writer f).push ⟨idx, o.record f idx⟩ = some writer) :
    Saving o ({ s with writer := Function.update s.writer f writer }.setPhase w
      (.saving job idx files)) := by
  have hsaved : (s.phase w).saved = some (idx, f :: files) := by
    rw [hw]
    rfl
  have hsuffix := h.suffix w idx (f :: files) hsaved
  have hfiles : f ∉ files :=
    (List.nodup_cons.mp ((nodup_filesOf o idx).sublist hsuffix.sublist)).1
  have hpast := past_push hsaved hfiles job writer
  refine ⟨fun w' i files' hw' => ?_, fun f' => ?_⟩
  · obtain ⟨-, hnew⟩ | ⟨-, hold⟩ := setPhase_cases Phase.saved hw'
    · cases hnew
      exact (List.suffix_cons f files).trans hsuffix
    · exact h.suffix w' i files' hold
  · obtain ⟨items, hitems⟩ := h.pushed f'
    rcases eq_or_ne f' f with rfl | hf
    · -- the pushed record is that of a game for which nothing was pushed
      have hnew : idx ∉ items.map SeqStr.idx := fun hmem =>
        (hbooks.past_iff hsaved).mp ((hitems.mem idx).mp hmem).2 (.head files)
      obtain ⟨writer', hpush, hholds⟩ := hitems.holds.push (r := ⟨idx, o.record f' idx⟩) hnew
      rw [hwriter] at hpush
      cases hpush
      refine ⟨items ++ [⟨idx, o.record f' idx⟩], ?_, ?_, ?_⟩
      · change SeqWriter.Holds _ (Function.update s.writer f' writer f')
        rw [Function.update_self]
        exact hholds
      · intro r hr
        rcases List.mem_append.mp hr with hr | hr
        · exact hitems.str r hr
        · rw [List.mem_singleton.mp hr]
      · intro i
        rw [hpast, List.map_append, List.mem_append, hitems.mem]
        change _ ∨ i ∈ [idx] ↔ _
        rw [List.mem_singleton, and_or_left, and_iff_left (rfl : f' = f')]
        refine or_congr_right (iff_and_self.mpr ?_)
        rintro rfl
        exact hsuffix.subset (.head files)
    · refine ⟨items, hitems.congr (Function.update_of_ne hf _ _) fun i _ => ?_⟩
      rw [hpast, or_iff_left fun h => hf h.2]

theorem Saving.moves (h : Saving o s) (hbooks : Books s) (hmoves : Moves o s a s') :
    Saving o s' := by
  cases hmoves with
  | popped w hw hidx session hlogs => exact h.same (setPhase_congr Phase.saved hw rfl) rfl rfl
  | refused w hw hidx session hlogs => exact h.same (setPhase_congr Phase.saved hw rfl) rfl rfl
  | named w ei name session hlogs => exact h.same (fun _ => rfl) rfl rfl
  | ended w job idx hw => exact h.ended hw
  | pushed w job idx f files hw writer hwriter => exact h.push hbooks hw hwriter
  | added w job idx hw session wldCount hlogs =>
      have hsaved : (s.phase w).saved = some (idx, []) := by
        rw [hw]
        rfl
      exact h.added hsaved rfl session
  | stopped w wldCount hw session hlogs => exact h.same (setPhase_congr Phase.saved hw rfl) rfl rfl
  | wentOn w wldCount hw => exact h.same (setPhase_congr Phase.saved hw rfl) rfl rfl
  | polled hsupervising session hlogs => exact h.same (fun _ => rfl) rfl rfl

theorem saving_runs (hfresh : q.Fresh) (hruns : runs (step o) schedule (start q) = some s) :
    Saving o s := by
  refine invariant_along (fun _ => Saving o) (Saving.start o q) ?_ hruns
  intro done r a r' hr hsaving hstep
  exact hsaving.moves (books_runs hfresh hr) (moves_of_step hstep)

/-! ## Progress -/

/-- The assertion of a writer never fails: a push that is up succeeds. -/
theorem exists_step_push (hfresh : q.Fresh)
    (hruns : runs (step o) schedule (start q) = some s) {w : Nat} {job : Job} {idx : Nat}
    {f : OutputFile} {files : List OutputFile} (hw : s.phase w = .saving job idx (f :: files)) :
    ∃ s', step o (.push w) s = some s' := by
  have hsaved : (s.phase w).saved = some (idx, f :: files) := by
    rw [hw]
    rfl
  obtain ⟨items, hitems⟩ := (saving_runs hfresh hruns).pushed f
  have hnew : idx ∉ items.map SeqStr.idx := fun hmem =>
    ((books_runs hfresh hruns).past_iff hsaved).mp ((hitems.mem idx).mp hmem).2 (.head files)
  obtain ⟨writer, hpush, -⟩ := hitems.holds.push (r := ⟨idx, o.record f idx⟩) hnew
  refine Option.isSome_iff_exists.mp ?_
  simp only [step, hw, hpush, Option.map_some, Option.isSome_some]

/-- The row of a result is there. -/
theorem exists_step_addResult (hfresh : q.Fresh)
    (hrows : ∀ j ∈ q.jobs, j.pair < q.results.length)
    (hruns : runs (step o) schedule (start q) = some s) {w : Nat} {job : Job} {idx : Nat}
    (hw : s.phase w = .saving job idx []) : ∃ s', step o (.addResult w) s = some s' := by
  have htracks := tracks_runs hfresh hruns
  have hgame : (s.phase w).game = some (job, idx) := by
    rw [hw]
    rfl
  have hmem := htracks.handedOut.subset ((books_runs hfresh hruns).held w _ hgame).1
  have hjob := hrows job (List.mem_of_getElem? (List.mem_zipIdx_iff_getElem?.mp hmem))
  have hpair : job.pair < s.session.queue.results.length := by
    rw [htracks.results, length_tableOf]
    exact hjob
  refine Option.isSome_iff_exists.mp ?_
  simp only [step, hw, Session.step, JobQueue.addResult, dif_pos hpair, Option.bind_some,
    Option.map_some, Option.isSome_some]

/-! ## What is in the files -/

/-- A record is written as soon as all games up to it have been pushed.  A game that is
skipped is never pushed, and holds back all later ones. -/
theorem Pushed.written_iff (h : Pushed o s f items) :
    Written o s f i ↔ ∀ j ≤ i, f ∈ o.filesOf j ∧ Past s f j := by
  have hresequenced := h.holds.resequenced
  have hlt : i < (s.writer f).out.length ↔ ∀ j ≤ i, j ∈ items.map SeqStr.idx := by
    constructor
    · exact fun hi j hj => hresequenced.arrived_of_lt (hj.trans_lt hi)
    · intro hall
      by_contra hle
      exact hresequenced.missing (hall _ (Nat.le_of_not_lt hle))
  simp only [← h.mem]
  rw [← hlt, ← List.mem_range, ← hresequenced.released]
  constructor
  · exact fun hmem => List.mem_map_of_mem (f := SeqStr.idx) hmem
  · intro hmem
    obtain ⟨r, hr, rfl⟩ := List.mem_map.mp hmem
    have hstr := h.str r (hresequenced.perm.mem_iff.mp (List.mem_append_left _ hr))
    rw [Written, ← hstr]
    exact hr

/-- Results stay. -/
theorem finished_runs (hruns : runs (step o) schedule s = some s') :
    s.finished ⊆ s'.finished := by
  refine invariant (fun r => s.finished ⊆ r.finished) (List.Subset.refl _) ?_ hruns
  intro r a r' hr hstep
  cases moves_of_step hstep with
  | added => exact fun i hi => List.mem_append_left _ (hr hi)
  | popped | refused | named | ended | pushed | stopped | wentOn | polled => exact hr

/-- **Saved games reach the files in time** in exactly the runs in which no game that has
finished is skipped in front of a saved one, or in which nothing is written.  It is a
condition on the games that have finished and on whether they are saved: the interleaving
does not matter, because the writers put the games in order. -/
theorem inTime_iff (hfresh : q.Fresh) (hruns : runs (step o) schedule (start q) = some s) :
    (∀ before after r, schedule = before ++ after →
        runs (step o) before (start q) = some r → InTime o r) ↔
      (∀ f, o.writes f = false) ∨
        ∀ i, (∀ j ≤ i, j ∈ s.finished) → o.saves i = true → ∀ j < i, o.saves j = true := by
  constructor
  · intro h
    by_cases hnone : ∀ f, o.writes f = false
    · exact Or.inl hnone
    · push Not at hnone
      obtain ⟨f, hf⟩ := hnone
      refine Or.inr fun i hfinished hsaves j hj => ?_
      have hwritten := h schedule [] s (List.append_nil schedule).symm hruns i hfinished i le_rfl
        hsaves f (Bool.eq_true_of_not_eq_false hf)
      obtain ⟨items, hitems⟩ := (saving_runs hfresh hruns).pushed f
      exact (mem_filesOf.mp (hitems.written_iff.mp hwritten j hj.le).1).1
  · rintro h before after r rfl hr k hfinished i hi hsaves f hf
    obtain ⟨r', hr', hafter⟩ := exists_of_append hruns
    obtain rfl := Option.some.inj (hr.symm.trans hr')
    obtain ⟨items, hitems⟩ := (saving_runs hfresh hr).pushed f
    have hall := h.resolve_left fun hnone => Bool.false_ne_true ((hnone f).symm.trans hf)
    refine hitems.written_iff.mpr fun j hj => ⟨mem_filesOf.mpr ⟨?_, hf⟩, ?_⟩
    · rcases hj.eq_or_lt with rfl | hlt
      · exact hsaves
      · refine hall i (fun j hj => ?_) hsaves j hlt
        exact finished_runs hafter (hfinished j (hj.trans hi))
    · exact Or.inl (hfinished j (hj.trans hi))

/-- A gauntlet that saves the games its first engine has lost. -/
def lossesOf (outcome : Nat → Result) : Tournament where
  gauntlet := true
  saveLoseOnly := true
  writes f := f == .pgn
  sprtDone _ := false
  outcome := outcome
  record _ _ := ['*']

/-- Two lost games that finish the other way round. -/
theorem inTime_iff_lost :
    ∃ s, runs (step (lossesOf fun _ => .loss))
        [.pop 0, .pop 1, .endGame 1, .push 1, .addResult 1, .endGame 0, .push 0, .addResult 0]
        (start (new 2 1 2 true)) = some s ∧
      s.finished = [1, 0] ∧ InTime (lossesOf fun _ => .loss) s := by
  have hruns : (runs (step (lossesOf fun _ => .loss))
      [.pop 0, .pop 1, .endGame 1, .push 1, .addResult 1, .endGame 0, .push 0, .addResult 0]
      (start (new 2 1 2 true))).map State.finished = some [1, 0] := rfl
  obtain ⟨s, hs, hfinished⟩ := Option.map_eq_some_iff.mp hruns
  refine ⟨s, hs, hfinished, ?_⟩
  exact (inTime_iff (new_fresh 2 1 2 true) hs).mpr (Or.inr fun _ _ _ _ _ => rfl) _ [] s
    (List.append_nil _).symm hs

/-- The first game is not lost, and the record of the second stays in the buffer. -/
theorem not_inTime_skipped :
    ∃ s, runs (step (lossesOf fun i => if i = 0 then .win else .loss))
        [.pop 0, .endGame 0, .addResult 0, .goOn 0, .pop 0, .endGame 0, .push 0, .addResult 0]
        (start (new 2 1 2 true)) = some s ∧
      s.finished = [0, 1] ∧ (s.writer .pgn).out = [] ∧ (s.writer .pgn).buf = [⟨1, ['*']⟩] ∧
      ¬ InTime (lossesOf fun i => if i = 0 then .win else .loss) s := by
  refine ⟨_, rfl, rfl, rfl, rfl, fun h => ?_⟩
  have hwritten := h 1 (by decide) 1 le_rfl rfl .pgn rfl
  cases hwritten

end Tournament

end GomokuCli
