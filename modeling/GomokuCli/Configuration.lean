import GomokuCli.FullBoard
import GomokuCli.OptionsOrder
import GomokuCli.Stopping

/-!
# Tournaments from the command line

What `options_parse` lets pass is what the rest of the program relies on
(`configured_of_optionsParse`): a size for which there is a board, parameters with which
the test can be run, a log when the engines are to be watched.

With `-sprt` there are two engines, so that the results have one row.  The totals of this
row, which `add_result` gives to the test, are those of the whole tournament
(`sprt_stopped_iff`).
-/

namespace GomokuCli

open EarlyExit Commuting Interleaving JobQueue

namespace OptionsParse

variable {F : Floats} {s s' : ParseState F} {x : Given} {xs : List Given} {args : List Arg}
  {settings : GlobalOptions F} {eo : List EngineSettings}

/-- The settings fit together.  It is kept by every option, in whatever order they come,
except for what is checked when all of them have been read. -/
structure Sound (o : GlobalOptions F) : Prop where
  size : 5 ≤ o.boardSize ∧ o.boardSize ≤ 22
  tested : o.sprt = true → o.sprtParam.validate = true
  logged : o.debug = true → o.log = true
  sampled : o.writeSamples = true ↔ o.sp.fileName ≠ []

/-- The settings of a tournament, as the rest of the program relies on them without asking
again. -/
structure Configured (o : GlobalOptions F) (eo : List EngineSettings) : Prop extends Sound o where
  engines : 2 ≤ eo.length
  two : o.sprt = true → eo.length = 2

theorem sound_default : Sound ({} : GlobalOptions F) where
  size := by
    change 5 ≤ 15 ∧ 15 ≤ 22
    decide
  tested h := by cases h
  logged h := by cases h
  sampled := by
    refine ⟨fun h => ?_, fun h => absurd rfl h⟩
    cases h

/-- **One option.** The settings that it does not concern stay as they are, so that only its
own bounds have to be looked at. -/
theorem Sound.apply (hs : Sound s.o) (h : x.apply s = .ok s') : Sound s'.o := by
  have hcopy := (local_apply x).eq_copy h
  obtain ⟨flag, own⟩ := x
  cases flag with
  | repeats | transform | gauntlet | loseonly | concurrency | each | engine | games | rounds
  | openings | pgn | sgf | msg | resign | draw | drawafter | rule | sendbyboard | fatalerror =>
      rw [hcopy]
      exact ⟨hs.size, hs.tested, hs.logged, hs.sampled⟩
  | log =>
      cases h
      exact ⟨hs.size, hs.tested, fun _ => rfl, hs.sampled⟩
  | debug =>
      cases h
      exact ⟨hs.size, hs.tested, fun _ => rfl, hs.sampled⟩
  | boardsize =>
      refine ⟨?_, by rw [hcopy]; exact hs.tested, by rw [hcopy]; exact hs.logged,
        by rw [hcopy]; exact hs.sampled⟩
      cases own with
      | nil => cases h
      | cons v own =>
          change (if 5 ≤ atoi v ∧ atoi v ≤ 22 then _ else _ : Except Stop _).map _ = _ at h
          split at h
          next hsize =>
            cases h
            change 5 ≤ (atoi v).toNat ∧ (atoi v).toNat ≤ 22
            omega
          next => cases h
  | sprt =>
      refine ⟨by rw [hcopy]; exact hs.size, fun _ => ?_, by rw [hcopy]; exact hs.logged,
        by rw [hcopy]; exact hs.sampled⟩
      simp only [Given.apply, parseFlag, optionsParseSprt] at h
      cases hread : whileTokens sprtToken own s.o.sprtParam with
      | error stop =>
          rw [hread] at h
          cases h
      | ok r =>
          rw [hread] at h
          change ((if r.1.validate then _ else _ : Except Stop _) >>= _).map _ = _ at h
          split at h
          next hvalid =>
            cases h
            exact hvalid
          next => cases h
  | sample =>
      refine ⟨by rw [hcopy]; exact hs.size, by rw [hcopy]; exact hs.tested,
        by rw [hcopy]; exact hs.logged, ?_⟩
      simp only [Given.apply, parseFlag, optionsParseSample] at h
      cases hread : whileTokens sampleToken own s.o.sp with
      | error stop =>
          rw [hread] at h
          cases h
      | ok r =>
          rw [hread] at h
          cases h
          exact decide_eq_true_iff

theorem Sound.foldlM (hs : Sound s.o) (h : xs.foldlM Given.apply s = .ok s') : Sound s'.o := by
  induction xs generalizing s with
  | nil =>
      cases h
      exact hs
  | cons x xs ih =>
      rw [List.foldlM_cons] at h
      obtain ⟨s₁, hfirst, hrest⟩ := bind_eq_ok.mp h
      exact ih (hs.apply hfirst) hrest

/-- **What an accepted command line guarantees.** The induction is over the options, and the
checks at the end add what concerns all of them together. -/
theorem configured_of_optionsParse (h : optionsParse args {} = .ok (settings, eo)) :
    Configured settings eo := by
  obtain ⟨s, hparse, hend⟩ := bind_eq_ok.mp h
  obtain ⟨xs, hfits, rfl⟩ := exists_given hparse
  rw [parseArgs_commandLine hfits] at hparse
  have hsound : Sound s.o := Sound.foldlM sound_default hparse
  generalize (if s.eachSet then s.eo.map (mergeEach s.each) else s.eo) = engines at hend
  dsimp only at hend
  split at hend
  next => cases hend
  next htwo =>
    split at hend
    next => cases hend
    next hsprt =>
      cases hend
      have hengines : 2 ≤ eo.length := Nat.le_of_not_lt htwo
      refine ⟨hsound, hengines, fun htest => le_antisymm (Nat.le_of_not_lt ?_) hengines⟩
      exact fun hmore => hsprt ⟨hmore, htest⟩

end OptionsParse

/-! ## Two engines -/

namespace Tournament

variable {o : Tournament} {q : JobQueue} {rounds games : Nat} {gauntlet : Bool}

/-- The totals of games, by the outcome for the first engine, in whatever order they were
played. -/
def totalsOf (o : Tournament) (played : List Nat) (outcome : Result) : Nat :=
  (played.map o.outcome).count outcome

theorem scoreOf_two (i : Nat) : scoreOf o (new 2 rounds games gauntlet) i = (0, o.outcome i) := by
  have hpair : ∀ j ∈ (new 2 rounds games gauntlet).jobs, j.pair = 0 := by
    intro j hj
    have hrow := pair_lt_of_mem_new_jobs hj
    rw [new_results] at hrow
    cases gauntlet <;> exact Nat.lt_one_iff.mp hrow
  rw [scoreOf]
  cases hget : (new 2 rounds games gauntlet).jobs[i]? with
  | none => rfl
  | some j =>
      rw [Option.map_some, Option.getD_some, hpair j (List.mem_of_getElem? hget)]

/-- In a table with one row the totals are those of all results. -/
theorem totalsWith_two (before : List Nat) (i : Nat) :
    totalsWith (before.map fun i => (0, o.outcome i)) (0, o.outcome i) =
      totalsOf o (before ++ [i]) := by
  funext outcome
  have hinj : Function.Injective fun r : Result => ((0 : Nat), r) := fun r r' h => by
    cases h
    rfl
  rw [totalsWith, totalsOf, ← List.count_map_of_injective _ _ hinj, List.map_append,
    List.map_append, List.map_map]
  rfl

theorem not_undecided_two (test : (Result → Nat) → Bool) (finished : List Nat) :
    ¬ Undecided test (finished.map fun i => (0, o.outcome i)) ↔
      ∃ played, played <+: finished ∧ played ≠ [] ∧ test (totalsOf o played) = true := by
  induction finished using List.reverseRecOn with
  | nil =>
      refine iff_of_false (not_not.mpr (undecided_nil test)) ?_
      rintro ⟨played, hprefix, hne, -⟩
      exact hne (List.prefix_nil.mp hprefix)
  | append_singleton finished i ih =>
      rw [List.map_append, List.map_singleton, undecided_snoc, totalsWith_two, not_and_or, ih,
        Bool.not_eq_false]
      constructor
      · rintro (⟨played, hprefix, hne, htest⟩ | htest)
        · exact ⟨played, hprefix.trans (List.prefix_append _ _), hne, htest⟩
        · exact ⟨_, List.prefix_rfl, by simp, htest⟩
      · rintro ⟨played, hprefix, hne, htest⟩
        rcases List.prefix_concat_iff.mp hprefix with rfl | hprefix
        · exact Or.inr htest
        · exact Or.inl ⟨played, hprefix, hne, htest⟩

variable {F : OptionsParse.Floats} {args : List OptionsParse.Arg}
  {settings : OptionsParse.GlobalOptions F} {eo : List OptionsParse.EngineSettings}
  {schedule : List Action} {s : State}

/-- **The test decides about the whole tournament.**  With `-sprt` its parameters are
valid; and in every interleaving, when no worker has totals in its hands, the tournament
has been stopped exactly if the test accepts the totals of the first games that came in,
however many of them. -/
theorem sprt_stopped_iff (h : OptionsParse.optionsParse args {} = .ok (settings, eo))
    (hsprt : settings.sprt = true)
    (hruns : runs (step o) schedule (start (new eo.length rounds games settings.gauntlet)) =
      some s)
    (hidle : ∀ w, (s.phase w).totals = none) :
    settings.sprtParam.validate = true ∧
      (Stopped s.session.log ↔
        ∃ played, played <+: s.finished ∧ played ≠ [] ∧ o.sprtDone (totalsOf o played) = true) := by
  have hconfigured := OptionsParse.configured_of_optionsParse h
  rw [hconfigured.two hsprt] at hruns
  have hfresh := new_fresh 2 rounds games settings.gauntlet
  refine ⟨hconfigured.tested hsprt, ?_⟩
  rw [(decided_runs hfresh hruns).stopped_iff_of_idle hidle, scored_runs hfresh hruns,
    List.map_congr_left fun i _ => scoreOf_two i]
  exact not_undecided_two o.sprtDone s.finished

/-- A test between two engines. -/
def testArgs : List OptionsParse.Arg :=
  ["-engine".toList, "cmd=a".toList, "-engine".toList, "cmd=b".toList, "-sprt".toList,
    "elo1=5".toList]

theorem sprt_stopped_iff_untilWin :
    ∃ settings eo s,
      OptionsParse.optionsParse (F := OptionsParse.thousandths) testArgs {} = .ok (settings, eo) ∧
      runs (step untilWin) [.pop 0, .pop 1, .endGame 0, .addResult 0, .stop 0]
        (start (new eo.length 1 9 settings.gauntlet)) = some s ∧
      settings.sprtParam.validate = true ∧
      (Stopped s.session.log ↔ ∃ played, played <+: s.finished ∧ played ≠ [] ∧
        untilWin.sprtDone (totalsOf untilWin played) = true) := by
  obtain ⟨settings, eo, hparse, hlength, hgauntlet, hsprt⟩ : ∃ settings eo,
      OptionsParse.optionsParse (F := OptionsParse.thousandths) testArgs {} = .ok (settings, eo) ∧
        eo.length = 2 ∧ settings.gauntlet = false ∧ settings.sprt = true :=
    ⟨_, _, rfl, rfl, rfl, rfl⟩
  obtain ⟨s, hs⟩ := Option.isSome_iff_exists.mp (show (runs (step untilWin)
    [.pop 0, .pop 1, .endGame 0, .addResult 0, .stop 0] (start (new 2 1 9 false))).isSome from rfl)
  have hphases : (runs (step untilWin) [.pop 0, .pop 1, .endGame 0, .addResult 0, .stop 0]
      (start (new 2 1 9 false))).map (fun s => ((s.phase 0).totals, (s.phase 1).totals)) =
        some (none, none) := rfl
  rw [hs, Option.map_some, Option.some.injEq, Prod.mk.injEq] at hphases
  have hruns := hs
  rw [← hlength, ← hgauntlet] at hruns
  refine ⟨settings, eo, s, hparse, hruns, sprt_stopped_iff hparse hsprt hruns fun w => ?_⟩
  rcases Nat.lt_or_ge w 2 with hw | hw
  · obtain rfl | rfl : w = 0 ∨ w = 1 := by omega
    · exact hphases.1
    · exact hphases.2
  · rw [phase_of_within (n := 2) hs (by decide) hw]
    rfl

end Tournament

/-! ## The games of an accepted command line -/

namespace Match

/-- How a game can end, each way with what has led to it.  Only the engines can make a
game end without a result: one that fails ends the program with `-fatalerror`, and an
answer that `std::stoi` does not convert raises an exception that nobody catches. -/
inductive Ends (m : Match) (g : Game) : PlayEnd → Prop
  | returned {result : Result} {final : PlayState} (terminal : final.game.state ≠ .none) :
      Ends m g (.returned result final)
  | exited (hfatal : m.options.fatalError = true)
      (hfailed : m.firstFailure ≠ none ∨
        ∃ s, AtRound m g s ∧ (m.moveReply s.game.ply).ok = false) : Ends m g .exited
  | aborted {s : PlayState} (hat : AtRound m g s) (hreplied : (m.moveReply s.game.ply).ok = true)
      (htime : ¬ m.SoftTimeout (m.answering s))
      (hanswer : ¬ Converted (m.moveReply s.game.ply).bestmove) : Ends m g .aborted

variable {m : Match} {g : Game} {e : PlayEnd}

/-- **Every end of a game** is one of these, and the round in which it was left says which.
An answer that is not converted ends the program by an exception, and an engine that fails
ends it only if this is asked for. -/
theorem ends_of_play (h : Loads m g) (hplay : m.play g = some e) : Ends m g e := by
  cases e with
  | returned result final =>
      rcases returned_cases h hplay with ⟨i, -, -, -, hgame⟩ | ⟨s, t, -, hat, hbreaks, -, rfl⟩
      · refine .returned ?_
        rw [hgame]
        dsimp only
        split
        · exact nofun
        · exact nofun
      · obtain ⟨cells, hfollows, -⟩ := h.follows
        obtain ⟨moves, hplaying⟩ := hat.playing h
        exact .returned (hbreaks.terminal (hplaying.follows hfollows).turn_isStone).state
  | exited =>
      refine .exited (fatalError_of_exited h hplay) ?_
      rw [play] at hplay
      obtain ⟨-, s₀, hok, -⟩ | ⟨i, hfailure, -⟩ | ⟨i, hfailure, -⟩ := startPhase_cases m g
      case inr.inl => exact Or.inl fun hnone => by cases hfailure.symm.trans hnone
      case inr.inr => exact Or.inl fun hnone => by cases hfailure.symm.trans hnone
      rw [hok] at hplay
      obtain ⟨e, he, hfinish⟩ := Option.map_eq_some_iff.mp hplay
      obtain ⟨s, hreach, hleft⟩ := reaches_of_run he
      have hat : AtRound m g s := ⟨s₀, hok, hreach⟩
      cases e with
      | aborted => cases hfinish
      | broke t => cases hfinish
      | exited =>
          obtain ⟨s', hs', -⟩ | ⟨t, ht, -⟩ | ⟨-, hreply, -⟩ | ⟨ht, -⟩ :=
            round_cases m (hat.shape h)
          · cases hleft.symm.trans hs'
          · cases hleft.symm.trans ht
          · exact Or.inr ⟨s, hat, hreply⟩
          · cases hleft.symm.trans ht
  | aborted =>
      -- answers that are all converted raise no exception
      have hsome : ¬ AnswersConvert m g := fun hconvert => play_ne_aborted hconvert hplay
      unfold AnswersConvert at hsome
      push Not at hsome
      obtain ⟨s, hat, hreplied, htime, hanswer⟩ := hsome
      exact .aborted hat hreplied htime hanswer

/-- Without `-fatalerror`, and with answers that are converted, there is a result. -/
theorem Ends.returned_of_converts (h : Ends m g e) (hfatal : m.options.fatalError = false)
    (hconvert : AnswersConvert m g) :
    ∃ result final, e = .returned result final ∧ final.game.state ≠ .none := by
  cases h with
  | returned terminal => exact ⟨_, _, rfl, terminal⟩
  | exited hset => cases hset.symm.trans hfatal
  | aborted hat hreplied htime hanswer => exact absurd (hconvert _ hat hreplied htime) hanswer

/-- **An accepted command line** has settings that fit together; the engines of every job
are among those that it names; and every game that its settings load ends, in one of the
ways of `Ends`.  With answers that are converted, and unless a fatal error ends the
program, that is a result in a final state. -/
theorem accepted_plays {F : OptionsParse.Floats} {args : List OptionsParse.Arg}
    {settings : OptionsParse.GlobalOptions F} {eo : List OptionsParse.EngineSettings}
    (h : OptionsParse.optionsParse args {} = .ok (settings, eo)) (rounds games : Nat) :
    OptionsParse.Configured settings eo ∧
      (∀ job ∈ (new eo.length rounds games settings.gauntlet).jobs,
        job.ei.1 < job.ei.2 ∧ job.ei.2 < eo.length) ∧
      ∀ (m : Match) openingStr round g color, m.options = settings.toOptions →
        Game.new.loadOpening openingStr settings.toOptions round = some (g, color) →
          ∃ e, m.play g = some e ∧ Ends m g e ∧
            (settings.fatalError = false → AnswersConvert m g →
              ∃ result final, e = .returned result final ∧ final.game.state ≠ .none) := by
  have hconfigured := OptionsParse.configured_of_optionsParse h
  refine ⟨hconfigured, fun job hjob => ?_, fun m openingStr round g color hm hload => ?_⟩
  · obtain ⟨hrow, -⟩ := mem_jobsOfRound.mp (mem_new_jobs.mp hjob).2
    obtain ⟨hlt, hengines, -⟩ := mem_pairs.mp (List.mem_of_getElem? hrow)
    exact ⟨hlt, hengines⟩
  · have hloads : Loads m g := by
      refine ⟨?_, openingStr, round, color, ?_⟩
      · rw [hm]
        exact hconfigured.size.2
      · rw [hm]
        exact hload
    obtain ⟨e, he⟩ := exists_play hloads
    have hends := ends_of_play hloads he
    refine ⟨e, he, hends, fun hfatal hconvert => hends.returned_of_converts ?_ hconvert⟩
    rw [hm]
    exact hfatal

/-- A test between two engines that always play the same cell, so that the third move is
illegal. -/
theorem accepted_plays_test :
    ∃ settings eo, OptionsParse.optionsParse (F := OptionsParse.thousandths)
        Tournament.testArgs {} = .ok (settings, eo) ∧
      OptionsParse.Configured settings eo ∧
      (∀ job ∈ (new eo.length 3 2 settings.gauntlet).jobs,
        job.ei.1 < job.ei.2 ∧ job.ei.2 < eo.length) ∧
      ∃ result final, (casual settings.toOptions fun ply =>
          if ply % 2 = 0 then "3,3".toList else "4,4".toList).play
            (Game.ofOpening "0,0".toList settings.toOptions) = some (.returned result final) ∧
        final.game.state ≠ .none := by
  obtain ⟨settings, eo, hparse, hfatal, color, hload⟩ : ∃ settings eo, OptionsParse.optionsParse
      (F := OptionsParse.thousandths) Tournament.testArgs {} = .ok (settings, eo) ∧
        settings.fatalError = false ∧ ∃ color, Game.new.loadOpening "0,0".toList
          settings.toOptions 0 = some (Game.ofOpening "0,0".toList settings.toOptions, color) :=
    ⟨_, _, rfl, rfl, _, rfl⟩
  obtain ⟨hconfigured, hjobs, hplays⟩ := accepted_plays hparse 3 2
  obtain ⟨e, hplay, -, hreturns⟩ := hplays (casual settings.toOptions fun ply =>
    if ply % 2 = 0 then "3,3".toList else "4,4".toList) _ 0 _ color rfl hload
  obtain ⟨result, final, rfl, hfinal⟩ := hreturns hfatal fun s _ _ _ => by
    change Converted (if s.game.ply % 2 = 0 then "3,3".toList else "4,4".toList)
    split
    · exact ⟨by decide, by decide⟩
    · exact ⟨by decide, by decide⟩
  exact ⟨settings, eo, hparse, hconfigured, hjobs, result, final, hplay, hfinal⟩

end Match

end GomokuCli
