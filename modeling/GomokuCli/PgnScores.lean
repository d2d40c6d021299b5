import GomokuCli.Completion
import GomokuCli.PgnText
import GomokuCli.SgfRun

/-!
# The file of the games and the table of the results

Two parts of the program keep account of a tournament.  The queue adds the result of every
game to the row of its pair, as the games finish; and the writer of the PGN file puts the
games in the order in which they were handed out.  Neither looks at the other.

At the end they agree: the file reads back as a list of games, one for each game that was
started, and the scores in these games are the rows of the table (`pgn_scores`).
-/

namespace GomokuCli

open Interleaving JobQueue

namespace Tournament

/-- How `thread_start` plays the job with an index, and what it pushes.  A game that ends
because the engine that is not to move has failed to start is left out (`inTurn`): the
file takes the one to move for the loser, and the table the one that has failed. -/
structure Played (o : Tournament) (name : Nat → List Char) (job : Job) (idx : Nat) where
  m : Match
  opening : Game
  final : PlayState
  now : LocalTime
  loads : m.Loads opening
  names : ∀ i, m.engineName i = name (if i then job.ei.2 else job.ei.1)
  reverse : m.reverse = job.reverse
  inTurn : m.FailsInTurn
  returned : m.play opening = some (.returned (o.outcome idx) final)
  record : o.record .pgn idx = final.game.exportPgn job.round job.game (idx + 1) now

variable {o : Tournament} {name : Nat → List Char} {job : Job} {idx engines : Nat}

/-- The document of a game. -/
def Played.document (p : Played o name job idx) : Pgn.Game :=
  p.final.game.pgnGame job.round job.game (idx + 1) p.now

theorem Played.accountsAgree (p : Played o name job idx) :
    p.m.AccountsAgree p.opening (o.outcome idx) p.final.game :=
  Match.accountsAgree_of_returned p.loads p.inTurn p.returned

/-- The two names in a game are those of the two engines of the job. -/
theorem Played.tagValues (p : Played o name job idx) :
    (Game.tagValue p.document "Black".toList = name job.ei.1 ∧
        Game.tagValue p.document "White".toList = name job.ei.2) ∨
      (Game.tagValue p.document "Black".toList = name job.ei.2 ∧
        Game.tagValue p.document "White".toList = name job.ei.1) := by
  have hblack : Game.tagValue p.document "Black".toList =
      p.m.engineName (Match.engineOfColor (p.opening.pos 0).playerToMove p.m.reverse .black) :=
    p.accountsAgree.names .black Color.isStone_black
  have hwhite : Game.tagValue p.document "White".toList =
      p.m.engineName (!Match.engineOfColor (p.opening.pos 0).playerToMove p.m.reverse .black) := by
    rw [← Match.engineOfColor_opponent _ _ Color.isStone_black]
    exact p.accountsAgree.names .white Color.isStone_white
  rw [hblack, hwhite, p.names, p.names]
  cases Match.engineOfColor (p.opening.pos 0).playerToMove p.m.reverse .black
  · exact Or.inl ⟨rfl, rfl⟩
  · exact Or.inr ⟨rfl, rfl⟩

theorem Played.plain_names (p : Played o name job idx) (hplain : ∀ i, Pgn.Plain (name i)) :
    Pgn.Plain (p.final.game.names .black) ∧ Pgn.Plain (p.final.game.names .white) := by
  rw [p.accountsAgree.names .black Color.isStone_black,
    p.accountsAgree.names .white Color.isStone_white, p.names, p.names]
  exact ⟨hplain _, hplain _⟩

/-- What the writer of the file is given is the text of the document. -/
theorem Played.text (p : Played o name job idx) (hplain : ∀ i, Pgn.Plain (name i)) :
    p.document.WellFormed ∧ (o.itemOf .pgn idx).text = p.document.text := by
  obtain ⟨hblack, hwhite⟩ := p.plain_names hplain
  have hformed : p.document.WellFormed :=
    Game.pgnGame_wellFormed hblack hwhite _ _ _ _
  have hstr : (o.itemOf .pgn idx).str = p.document.text :=
    p.record.trans (Game.exportPgn_eq hblack hwhite _ _ _ _)
  refine ⟨hformed, ?_⟩
  rw [← hstr]
  refine SeqStr.text_of_notMem fun hnull => ?_
  rw [hstr] at hnull
  rcases Pgn.printable_of_mem_text hformed hnull with hprintable | hline
  · exact absurd hprintable (by decide)
  · exact absurd hline (by decide)

/-- The score of a game for a pair of the tournament.  The names tell the pair, since no two
engines have the same one. -/
theorem Played.scoreFor (p : Played o name job idx)
    (hdistinct : ∀ i < engines, ∀ j < engines, name i = name j → i = j) {ei : Nat × Nat}
    (hjob : job.ei.1 < job.ei.2 ∧ job.ei.2 < engines) (hei : ei.1 < ei.2 ∧ ei.2 < engines)
    (outcome : Result) :
    Game.scoreFor (name ei.1) (name ei.2) p.document = some outcome ↔
      job.ei = ei ∧ o.outcome idx = outcome := by
  obtain ⟨hjob₁, hjob₂⟩ := hjob
  obtain ⟨hei₁, hei₂⟩ := hei
  by_cases heq : job.ei = ei
  · subst heq
    have hne : p.m.engineName false ≠ p.m.engineName true := by
      rw [p.names, p.names]
      intro hsame
      exact absurd (hdistinct _ (hjob₁.trans hjob₂) _ hjob₂ hsame) hjob₁.ne
    have hscore := p.accountsAgree.scoreFor hne job.round job.game (idx + 1) p.now
    rw [p.names, p.names] at hscore
    rw [and_iff_right rfl]
    change Game.scoreFor (name job.ei.1) (name job.ei.2) p.document = some (o.outcome idx) at hscore
    rw [hscore, Option.some.injEq]
  · refine iff_of_false ?_ fun h => heq h.1
    have hother : ∀ {i j : Nat}, i < engines → j < engines → name i = name j → i = j :=
      fun hi hj h => hdistinct _ hi _ hj h
    have hei₀ := hei₁.trans hei₂
    have hjob₀ := hjob₁.trans hjob₂
    rw [Game.scoreFor_of_ne]
    · exact nofun
    · rintro ⟨hblack, hwhite⟩
      rcases p.tagValues with ⟨hb, hw⟩ | ⟨hb, hw⟩
      · exact heq (Prod.ext (hother hjob₀ hei₀ (hb.symm.trans hblack))
          (hother hjob₂ hei₂ (hw.symm.trans hwhite)))
      · have hfirst := hother hjob₂ hei₀ (hb.symm.trans hblack)
        have hsecond := hother hjob₀ hei₂ (hw.symm.trans hwhite)
        omega
    · rintro ⟨hblack, hwhite⟩
      rcases p.tagValues with ⟨hb, hw⟩ | ⟨hb, hw⟩
      · have hfirst := hother hjob₀ hei₂ (hb.symm.trans hblack)
        have hsecond := hother hjob₂ hei₀ (hw.symm.trans hwhite)
        omega
      · exact heq (Prod.ext (hother hjob₀ hei₀ (hw.symm.trans hwhite))
          (hother hjob₂ hei₂ (hb.symm.trans hblack)))

variable {s : State} {schedule : List Action} {n rounds games : Nat} {gauntlet : Bool}

/-- The games of the tournament have been played and pushed as `thread_start` does it.  This
is what joins the tournament, to which a game is only an outcome, with the games themselves. -/
def PlaysAll (o : Tournament) (name : Nat → List Char) (q : JobQueue) : Prop :=
  ∀ (idx : Nat) (job : Job), q.jobs[idx]? = some job → Nonempty (Played o name job idx)

/-- Which results the row of a pair counts: those of the jobs of this pair. -/
theorem scoreOf_eq_iff {row : PairResult} {pair : Nat} {outcome : Result}
    (hjob : (new engines rounds games gauntlet).jobs[idx]? = some job)
    (hrow : (new engines rounds games gauntlet).results[pair]? = some row) :
    scoreOf o (new engines rounds games gauntlet) idx = (pair, outcome) ↔
      job.ei = row.ei ∧ o.outcome idx = outcome := by
  have hschedules := new_schedules engines rounds games gauntlet
  obtain ⟨row', hrow', hei⟩ := hschedules.row_of_job job (List.mem_of_getElem? hjob)
  have hscore : scoreOf o (new engines rounds games gauntlet) idx = (job.pair, o.outcome idx) := by
    rw [scoreOf, hjob]
    rfl
  rw [hscore, Prod.mk.injEq]
  refine and_congr_left fun _ => ⟨?_, ?_⟩
  · rintro rfl
    rw [hrow, Option.some.injEq] at hrow'
    rw [hrow', hei]
  · intro heq
    have hget := congrArg (Option.map PairResult.ei) hrow
    have hget' := congrArg (Option.map PairResult.ei) hrow'
    rw [← List.getElem?_map] at hget hget'
    rw [Option.map_some, ← heq, ← hei] at hget
    obtain ⟨hlt, hget⟩ := List.getElem?_eq_some_iff.mp hget
    obtain ⟨hlt', hget'⟩ := List.getElem?_eq_some_iff.mp hget'
    exact (hschedules.rows_nodup.getElem_inj_iff).mp (hget'.trans hget.symm)

/-- **The file of the games gives the table of the results.**  After any interleaving of
the workers, also one that was stopped, the PGN file reads back as the games that were
started, and each row of the table counts the games of its pair with a result as it is
found in the file.

The file knows the engines by their names only.  So they have to be different, and
nothing in them may end the value of a tag (`Pgn.Plain`): the source writes a name
between quotes as it is. -/
theorem pgn_scores
    (hruns : runs (step o) schedule (start (new engines rounds games gauntlet)) = some s)
    (hwithin : Within n schedule) (hn : 0 < n) (hjoined : Joined n s)
    (hplays : PlaysAll o name (new engines rounds games gauntlet))
    (hplain : ∀ i, Pgn.Plain (name i))
    (hdistinct : ∀ i < engines, ∀ j < engines, name i = name j → i = j)
    (hwrites : o.writes .pgn = true) (hsaves : ∀ i, o.saves i = true) :
    ∃ documents, Pgn.read (s.writer .pgn).close.content = some documents ∧
      documents.length = s.started ∧
      ∀ row ∈ s.session.queue.results, ∀ outcome, row.count outcome =
        documents.countP fun p =>
          Game.scoreFor (name row.ei.1) (name row.ei.2) p = some outcome := by
  have hending := ending_of_joined (new_fresh engines rounds games gauntlet) hruns hwithin hn
    hjoined
  have hstarted := (tracks_runs (new_fresh engines rounds games gauntlet)
    hruns).length_handedOut_le
  have hjobs : ∀ i : Fin s.started, ∃ job,
      (new engines rounds games gauntlet).jobs[i.1]? = some job := fun i =>
    ⟨_, List.getElem?_eq_getElem (lt_of_lt_of_le i.2 hstarted)⟩
  choose job hjob using hjobs
  have hplayed : ∀ i : Fin s.started, Nonempty (Played o name (job i) i.1) :=
    fun i => hplays i.1 (job i) (hjob i)
  let played : ∀ i : Fin s.started, Played o name (job i) i.1 := fun i => (hplayed i).some
  have hrange : List.range s.started = (List.finRange s.started).map Fin.val :=
    List.map_coe_finRange_eq_range.symm
  refine ⟨(List.finRange s.started).map fun i => (played i).document, ?_, ?_, ?_⟩
  · have hall : o.savedTo .pgn s.started = List.range s.started := by
      refine List.filter_eq_self.mpr fun i _ => ?_
      rw [hsaves, hwrites]
      rfl
    have hcontent : (s.writer .pgn).close.content =
        ((List.finRange s.started).map fun i => (played i).document).flatMap Pgn.Game.text := by
      rw [hending.files, hall, hrange, List.flatMap_map, List.flatMap_map]
      exact List.flatMap_congr fun i _ => ((played i).text hplain).2
    rw [hcontent]
    refine Pgn.read_texts fun p hp => ?_
    obtain ⟨i, -, rfl⟩ := List.mem_map.mp hp
    exact ((played i).text hplain).1
  · rw [List.length_map, List.length_finRange]
  · intro row hrow outcome
    obtain ⟨pair, hpair⟩ := List.getElem?_of_mem hrow
    rw [hending.results, getElem?_tableOf, Option.map_eq_some_iff] at hpair
    obtain ⟨row', hrow', rfl⟩ := hpair
    have hschedules := new_schedules engines rounds games gauntlet
    have hei : Paired engines gauntlet row'.ei :=
      (hschedules.rows row'.ei).mp (List.mem_map_of_mem (List.mem_of_getElem? hrow'))
    change ((List.range s.started).map _).count (pair, outcome) = _
    rw [hrange, List.map_map, List.count_eq_countP, List.countP_map, List.countP_map]
    refine List.countP_congr fun i _ => ?_
    have hjobPaired := (hschedules.no_other_job (job i) (List.mem_of_getElem? (hjob i))).2
    have hscore := (played i).scoreFor hdistinct ⟨hjobPaired.1, hjobPaired.2.1⟩
      ⟨hei.1, hei.2.1⟩ outcome
    simp only [Function.comp_apply, beq_iff_eq, decide_eq_true_eq]
    exact (scoreOf_eq_iff (hjob i) hrow').trans hscore.symm

/-- A tournament of one game, whose result and text are given. -/
def single (result : Result) (text : List Char) : Tournament where
  gauntlet := false
  saveLoseOnly := false
  writes f := f == .pgn
  sprtDone _ := false
  outcome _ := result
  record _ _ := text

theorem pgn_scores_single :
    ∃ (o : Tournament) (s : State) (documents : List Pgn.Game),
      runs (step o) [.pop 0, .endGame 0, .push 0, .addResult 0, .goOn 0, .pop 0]
        (start (new 2 1 1 false)) = some s ∧
      Pgn.read (s.writer .pgn).close.content = some documents ∧ documents.length = s.started ∧
      ∀ row ∈ s.session.queue.results, ∀ outcome, row.count outcome = documents.countP fun p =>
        Game.scoreFor (if row.ei.1 = 0 then "first".toList else "second".toList)
          (if row.ei.2 = 0 then "first".toList else "second".toList) p = some outcome := by
  obtain ⟨hloads, result, final, hplay⟩ := Match.returned_oneStone
  have hruns : ∃ s, runs (step (single result
        (final.game.exportPgn 0 0 1 ⟨2024, 1, 1, 0, 0, 0⟩)))
      [.pop 0, .endGame 0, .push 0, .addResult 0, .goOn 0, .pop 0]
      (start (new 2 1 1 false)) = some s ∧ s.phase 0 = .left := ⟨_, rfl, rfl⟩
  obtain ⟨s, hs, hleft⟩ := hruns
  have hjoined : Joined 1 s := by
    intro w hw
    obtain rfl := Nat.lt_one_iff.mp hw
    exact hleft
  have hplays : PlaysAll (single result (final.game.exportPgn 0 0 1 ⟨2024, 1, 1, 0, 0, 0⟩))
      (fun i => if i = 0 then "first".toList else "second".toList) (new 2 1 1 false) := by
    intro idx job hjob
    have hjobs : (new 2 1 1 false).jobs = [⟨(0, 1), 0, 0, 0, false⟩] := by decide
    rw [hjobs] at hjob
    obtain ⟨hidx, hjob⟩ := List.getElem?_eq_some_iff.mp hjob
    obtain rfl : idx = 0 := Nat.lt_one_iff.mp hidx
    obtain rfl : (⟨(0, 1), 0, 0, 0, false⟩ : Job) = job := hjob
    exact ⟨{ m := _, opening := _, final := final, now := ⟨2024, 1, 1, 0, 0, 0⟩, loads := hloads,
             names := fun i => by cases i <;> rfl, reverse := rfl, inTurn := by decide,
             returned := hplay, record := rfl }⟩
  obtain ⟨documents, hread, hlength, hscores⟩ := pgn_scores hs (n := 1) (by decide) (by decide)
    hjoined hplays
    (by intro i; by_cases hi : i = 0 <;> simp only [hi, if_true, if_false] <;> decide)
    (by decide) rfl (fun _ => rfl)
  exact ⟨_, s, documents, hs, hread, hlength, hscores⟩

end Tournament

end GomokuCli
