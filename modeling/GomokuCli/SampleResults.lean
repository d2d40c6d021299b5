import GomokuCli.BinpackRun

/-!
# The results of samples

A sample is labelled after the game, with the result for the side to move in its
position.  Three conventions meet there: the final state is lost for the side to
move at the end, a sample belongs to the side to move when it was taken, and
`play` returns the result for `engines[0]`.  They fit together because the
engine that is asked in a round is the one that sits on the side to move.
-/

namespace GomokuCli

namespace Match

open PlayState Position

/-! ## Who has won -/

/-- `engines[i]` has won, when `result` is the result for `engines[0]`. -/
def EngineWon (result : Result) (i : Bool) : Prop := result = if i then .loss else .win

/-- `engines[i]` has lost. -/
def EngineLost (result : Result) (i : Bool) : Prop := result = if i then .win else .loss

variable {m : Match} {g : Game} {result : Result} {s s' t : PlayState} {sample : Sample}

theorem resultForSeat_eq_two_iff (result : Result) (i : Bool) :
    resultForSeat result i = 2 ↔ EngineWon result i := by
  cases result <;> cases i <;> simp [resultForSeat, EngineWon, Result.code]

theorem resultForSeat_eq_one_iff (result : Result) (i : Bool) :
    resultForSeat result i = 1 ↔ result = .draw := by
  cases result <;> cases i <;> simp [resultForSeat, Result.code]

theorem resultForSeat_eq_zero_iff (result : Result) (i : Bool) :
    resultForSeat result i = 0 ↔ EngineLost result i := by
  cases result <;> cases i <;> simp [resultForSeat, EngineLost, Result.code]

/-! ## When a sample is taken -/

/-- The sample was taken in the round that starts at `s`: it is the position in which
`engines[s.ei]` was asked, with the move that was accepted.  The record of a win is the only
thing in which the two may differ. -/
structure TakenAt (m : Match) (g : Game) (s : PlayState) (sample : Sample) : Prop where
  round : AtRound m g s
  goesOn : ∃ s', m.round s = .ok s' ∧ sample.move = s'.played
  position : SameButWin (asked s).position sample.pos

/-- A sample is what it was taken as, whatever result it is given. -/
theorem TakenAt.withResult (h : TakenAt m g s sample) (label : Int) :
    TakenAt m g s { sample with result := label } :=
  ⟨h.round, h.goesOn, h.position⟩

/-- The side to move in a sample is the side of the engine that was asked.  It follows from
the invariant of the loop about the seats. -/
theorem TakenAt.seat (hload : Loads m g) (h : TakenAt m g s sample) :
    engineOfColor (g.pos 0).playerToMove m.reverse sample.pos.playerToMove = s.ei := by
  obtain ⟨moves, hplaying⟩ := h.round.playing hload
  rw [h.position.playerToMove]
  exact hplaying.asked_seat

/-- **Every sample was taken in a round of the game.** One round records the sample of its
own position, or none.  By induction on the rounds. -/
theorem AtRound.samples_taken (hload : Loads m g) (hs : AtRound m g s) :
    ∀ sample ∈ s.game.samples, ∃ r, TakenAt m g r sample := by
  refine hs.invariant (fun s => ∀ sample ∈ s.game.samples, ∃ r, TakenAt m g r sample) hload
    ?_ ?_
  · intro s₀ hstarted sample hmem
    have hempty : s₀.game.samples = [] := by
      rw [hstarted.game]
      exact hload.fields.2.2
    rw [hempty] at hmem
    cases hmem
  · intro r r' hr ih hround hcontinues sample hmem
    obtain ⟨-, -, -, t, hsame, -, -, -, rfl⟩ := hcontinues
    have hold : t.game.samples = r.game.samples := by
      rw [hsame.samples, (asked_sameTurn r).samples, enterPly_samples]
    have hsamples : (m.recordPhase t).game.samples =
        if m.options.writeSamples && m.sampled t.game.ply then
          t.game.samples ++ [m.sampleOf t] else t.game.samples := rfl
    rw [hsamples, hold] at hmem
    split at hmem
    · rcases List.mem_append.mp hmem with hmem | hlast
      · exact ih sample hmem
      · rw [List.mem_singleton.mp hlast]
        exact ⟨r, hr, ⟨_, hround, rfl⟩, hsame.position⟩
    · exact ih sample hmem

/-! ## The labels -/

/-- The sample carries the outcome for the engine that was to move in it.  The label is said
in terms of seats, and so does not mention colours. -/
structure Labelled (m : Match) (g : Game) (result : Result) (s : PlayState) (sample : Sample) :
    Prop where
  taken : TakenAt m g s sample
  seat : engineOfColor (g.pos 0).playerToMove m.reverse sample.pos.playerToMove = s.ei
  range : sample.result = 0 ∨ sample.result = 1 ∨ sample.result = 2
  win_iff : sample.result = 2 ↔ EngineWon result s.ei
  draw_iff : sample.result = 1 ↔ result = .draw
  loss_iff : sample.result = 0 ↔ EngineLost result s.ei

/-- Samples of such a game are thrown away.  The result says nothing about the positions
then. -/
def Discards (state : GameState) : Prop :=
  state = .timeLoss ∨ state = .crashed ∨ state = .illegalMove

theorem fillSamples_of_discards {g : Game} (h : Discards g.state) : fillSamples g = [] := by
  rcases h with hstate | hstate | hstate <;> simp only [fillSamples, hstate]

/-- What the results of a finished game are, in terms of seats: the label is the returned
result for the seat that was asked. -/
theorem Recorded.labelled {final : Game} {cells : List (Int × Int)} {moves plies : List Nat}
    (h : Recorded m g result final cells moves plies) (hload : Loads m g)
    (hmem : sample ∈ final.samples) (htaken : TakenAt m g s sample) :
    Labelled m g result s sample := by
  have hseat := htaken.seat hload
  have hresult := h.result sample hmem
  rw [hseat] at hresult
  refine ⟨htaken, hseat, ?_, ?_, ?_, ?_⟩
  · rw [hresult]
    cases result <;> cases s.ei <;> decide
  · rw [hresult, resultForSeat_eq_two_iff]
  · rw [hresult, resultForSeat_eq_one_iff]
  · rw [hresult, resultForSeat_eq_zero_iff]

/-- **The labels of the samples.** A game that ends by a time loss, a crash or an illegal
move leaves no samples; in every other game the label of each sample is the returned result,
seen from the engine that was to move in it.  This holds in either seating, and from
openings that leave either side to move. -/
theorem play_labels {final : PlayState} (hload : Loads m g)
    (hplay : m.play g = some (.returned result final)) :
    (Discards final.game.state → final.game.samples = []) ∧
      (¬ Discards final.game.state →
        ∀ sample ∈ final.game.samples, ∃ s, Labelled m g result s sample) := by
  obtain ⟨cells, moves, plies, hrecorded⟩ := recorded_of_returned hload hplay
  obtain ⟨i, -, -, -, hgame⟩ | ⟨s, t, -, hat, hbreaks, -, rfl⟩ := returned_cases hload hplay
  · have hempty : final.game.samples = [] := by
      rw [hgame]
      exact hload.fields.2.2
    refine ⟨fun _ => hempty, fun _ sample hmem => ?_⟩
    rw [hempty] at hmem
    cases hmem
  · refine ⟨fun hdiscards => fillSamples_of_discards hdiscards, fun _ sample hmem => ?_⟩
    have hsame := hbreaks.sameTurn
    have hsamples : t.game.samples = s.game.samples := by
      rw [hsame.samples, (asked_sameTurn s).samples, enterPly_samples]
    -- the samples at the end are those of the last round, with labels
    have htaken : ∃ r, TakenAt m g r sample := by
      obtain hempty | ⟨wpov, -, hfilled⟩ := fillSamples_cases t.game
      · change sample ∈ fillSamples t.game at hmem
        rw [hempty] at hmem
        cases hmem
      · change sample ∈ fillSamples t.game at hmem
        rw [hfilled, hsamples] at hmem
        obtain ⟨taken, hmem', rfl⟩ := List.mem_map.mp hmem
        obtain ⟨r, hr⟩ := hat.samples_taken hload taken hmem'
        exact ⟨r, hr.withResult _⟩
    obtain ⟨r, hr⟩ := htaken
    exact ⟨r, hrecorded.labelled hload hmem hr⟩

/-- A match in which `engines[1]` has Black and resigns with its second move. -/
def resignedMatch : Match :=
  { casual { writeSamples := true, resignCount := 1, resignScore := 1 } fun _ => [] with
    reverse := true
    moveReply := fun ply =>
      { ok := true
        crashed := false
        timeLeft := 0
        bestmove := Decimal.showInt ply ++ ',' :: Decimal.showInt ply
        moveInfo := { score := if ply = 2 then -1 else 0, depth := 0, time := 0 } } }

/-- The sample of the first move is lost, and that of the answer is won. -/
theorem play_labels_resigned :
    ∃ result final,
      resignedMatch.play (Game.ofOpening [] resignedMatch.options) =
        some (.returned result final) ∧
      final.game.samples.map (fun a => a.result) = [0, 2] ∧
      ∀ sample ∈ final.game.samples,
        ∃ s, Labelled resignedMatch (Game.ofOpening [] resignedMatch.options) result s sample := by
  have hloads : Loads resignedMatch (Game.ofOpening [] resignedMatch.options) :=
    loads_ofOpening (by decide) (by decide)
  have hresults : (resignedMatch.samplesAtEnd (Game.ofOpening [] resignedMatch.options)).map
      (fun a => a.result) = [0, 2] := by
    decide +kernel
  have hend : resignedMatch.samplesAtEnd (Game.ofOpening [] resignedMatch.options) ≠ [] := by
    intro hnil
    rw [hnil] at hresults
    cases hresults
  obtain ⟨result, final, hplay, hsamples⟩ := exists_returned hend
  rw [← hsamples] at hresults hend
  obtain ⟨hdiscards, hlabels⟩ := play_labels hloads hplay
  exact ⟨result, final, hplay, hresults, hlabels fun h => hend (hdiscards h)⟩

end Match

end GomokuCli
