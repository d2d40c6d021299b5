import GomokuCli.BinpackRun

/-!
# Evaluations in the packed format

Every sample brings its evaluation to the record of its own move, except the first
one, whose move is among those that are filled in.  The loop that fills them in
gives the evaluation of the first sample to the last of them, which is the move of
the first sample only if the second sample is the very next ply.

So `evalsAfter` is what a file holds, and it is what was sampled exactly when the
first evaluation is zero, or there is nothing to fill in (`evalsKept_iff`).
-/

namespace GomokuCli

open Position

/-! ## The evaluations of a move sequence -/

/-- The evaluations that `samples` add to an entry of `n` moves.  In front of a sample the
gap is filled with zeros, except that its last ply gets the evaluation of the first sample. -/
def evalsAfter (firstEval : Int) (n : ℕ) : List Sample → List (BitVec 16)
  | [] => []
  | sample :: samples =>
      ((List.range (sample.pos.moveCount - n)).map fun k =>
        BitVec.ofInt 16 (if n + k + 1 = sample.pos.moveCount then firstEval else 0)) ++
      BitVec.ofInt 16 sample.eval :: evalsAfter firstEval (sample.pos.moveCount + 1) samples

section EvalsAfter

variable {e : Int} {n t : ℕ} {sample : Sample} {samples : List Sample}

/-- A move that is filled in before the next sample. -/
theorem getElem?_evalsAfter_of_lt (hn : n ≤ t) (ht : t < sample.pos.moveCount) :
    (evalsAfter e n (sample :: samples))[t - n]? =
      some (BitVec.ofInt 16 (if t + 1 = sample.pos.moveCount then e else 0)) := by
  rw [evalsAfter, List.getElem?_append_left, List.getElem?_map, List.getElem?_range (by omega),
    Option.map_some, Nat.add_sub_cancel' hn]
  rw [List.length_map, List.length_range]
  omega

/-- The move of the next sample. -/
theorem getElem?_evalsAfter_self :
    (evalsAfter e n (sample :: samples))[sample.pos.moveCount - n]? =
      some (BitVec.ofInt 16 sample.eval) := by
  have hlen : ((List.range (sample.pos.moveCount - n)).map fun k =>
      BitVec.ofInt 16 (if n + k + 1 = sample.pos.moveCount then e else 0)).length =
        sample.pos.moveCount - n := by
    rw [List.length_map, List.length_range]
  rw [evalsAfter, List.getElem?_append_right hlen.le, hlen, Nat.sub_self]
  rfl

/-- A move behind it. -/
theorem getElem?_evalsAfter_of_gt (hn : n ≤ sample.pos.moveCount)
    (ht : sample.pos.moveCount < t) :
    (evalsAfter e n (sample :: samples))[t - n]? =
      (evalsAfter e (sample.pos.moveCount + 1) samples)[t - (sample.pos.moveCount + 1)]? := by
  have hlen : ((List.range (sample.pos.moveCount - n)).map fun k =>
      BitVec.ofInt 16 (if n + k + 1 = sample.pos.moveCount then e else 0)).length =
        sample.pos.moveCount - n := by
    rw [List.length_map, List.length_range]
  have hindex : t - n - (sample.pos.moveCount - n) = t - (sample.pos.moveCount + 1) + 1 := by
    omega
  rw [evalsAfter, List.getElem?_append_right (by omega), hlen, hindex, List.getElem?_cons_succ]

/-- The samples come one after the other, the first of them at `n` or later.  The plies
between them are then counted without truncation. -/
structure Ascending (n : ℕ) (samples : List Sample) : Prop where
  le : ∀ sample ∈ samples, n ≤ sample.pos.moveCount
  increasing : samples.Pairwise fun a b => a.pos.moveCount < b.pos.moveCount

theorem Ascending.tail (h : Ascending n (sample :: samples)) :
    Ascending (sample.pos.moveCount + 1) samples where
  le := (List.pairwise_cons.mp h.increasing).1
  increasing := (List.pairwise_cons.mp h.increasing).2

/-- **A sample keeps its evaluation**, whatever is filled in before it.  By induction on the
samples: either it is the next one, or it lies behind that. -/
theorem Ascending.evalsAfter_sampled (h : Ascending n samples) (hmem : sample ∈ samples) :
    (evalsAfter e n samples)[sample.pos.moveCount - n]? =
      some (BitVec.ofInt 16 sample.eval) := by
  induction samples generalizing n with
  | nil => cases hmem
  | cons next samples ih =>
      have hn := h.le next List.mem_cons_self
      rcases List.mem_cons.mp hmem with rfl | hmem
      · exact getElem?_evalsAfter_self
      · rw [getElem?_evalsAfter_of_gt hn (h.tail.le sample hmem)]
        exact ih h.tail hmem

/-- **A move that was not sampled** gets the evaluation of the first sample if the next move
was, and nothing otherwise.  The first case is where an evaluation goes astray. -/
theorem Ascending.evalsAfter_unsampled (h : Ascending n samples) (hn : n ≤ t)
    (ht : ∀ sample ∈ samples, sample.pos.moveCount ≠ t) (hlast : ∃ sample ∈ samples,
      t < sample.pos.moveCount) :
    (evalsAfter e n samples)[t - n]? = some (BitVec.ofInt 16
      (if t + 1 ∈ samples.map fun sample => sample.pos.moveCount then e else 0)) := by
  induction samples generalizing n with
  | nil =>
      obtain ⟨sample, hmem, -⟩ := hlast
      cases hmem
  | cons next samples ih =>
      have hnext := h.le next List.mem_cons_self
      rcases lt_trichotomy t next.pos.moveCount with hlt | heq | hgt
      · -- the samples behind the next one are no neighbours
        have hiff : t + 1 ∈ (next :: samples).map (fun sample => sample.pos.moveCount) ↔
            t + 1 = next.pos.moveCount := by
          rw [List.map_cons, List.mem_cons, or_iff_left]
          intro hmem
          obtain ⟨sample, hmem, hcount⟩ := List.mem_map.mp hmem
          have := h.tail.le sample hmem
          omega
        rw [getElem?_evalsAfter_of_lt hn hlt]
        simp only [hiff]
      · exact absurd heq.symm (ht next List.mem_cons_self)
      · have hiff : t + 1 ∈ (next :: samples).map (fun sample => sample.pos.moveCount) ↔
            t + 1 ∈ samples.map (fun sample => sample.pos.moveCount) := by
          rw [List.map_cons, List.mem_cons, or_iff_right (by omega)]
        rw [getElem?_evalsAfter_of_gt hnext hgt]
        simp only [hiff]
        refine ih h.tail hgt (fun a ha => ht a (List.mem_cons_of_mem _ ha)) ?_
        obtain ⟨sample, hmem, hlt⟩ := hlast
        rcases List.mem_cons.mp hmem with rfl | hmem
        · omega
        · exact ⟨sample, hmem, hlt⟩

end EvalsAfter

/-! ## What the loop writes -/

namespace Packer

variable {W : List ℕ} {t₀ n : ℕ} {head : EntryHead} {p : Packer} {sample : Sample}

theorem Filled.evals_addSample (h : Filled W t₀ head n p) (hs : SampleOf W sample)
    (hn : n ≤ sample.pos.moveCount) (gameRule : GameRule) (firstEval : Int) :
    (Packer.addSample gameRule firstEval p sample).moveSequence.map MoveRecord.eval =
      p.moveSequence.map MoveRecord.eval ++ evalsAfter firstEval n [sample] := by
  simp only [Packer.addSample, h.getFollowingMoveIndex hs hn, evalsAfter, List.map_append,
    List.map_map, List.append_assoc]
  rfl

/-- **The evaluations of an entry** are determined by the plies of the samples and their
evaluations alone. -/
theorem Filled.evals_foldl {samples : List Sample} (hW : ∀ w ∈ W, w < 1024)
    (hsamples : ∀ sample ∈ samples, SampleOf W sample) (hn : Ascending n samples)
    (gameRule : GameRule) (firstEval : Int) (h : Filled W t₀ head n p) :
    (samples.foldl (Packer.addSample gameRule firstEval) p).moveSequence.map MoveRecord.eval =
      p.moveSequence.map MoveRecord.eval ++ evalsAfter firstEval n samples := by
  induction samples generalizing p n with
  | nil => exact (List.append_nil _).symm
  | cons sample samples ih =>
      have hs := hsamples sample List.mem_cons_self
      have hle := hn.le sample List.mem_cons_self
      have hstep := h.addSample hW hs hle gameRule firstEval
      rw [List.foldl_cons, ih (fun a ha => hsamples a (List.mem_cons_of_mem sample ha)) hn.tail
        hstep, h.evals_addSample hs hle, List.append_assoc]
      simp only [evalsAfter, List.append_assoc, List.cons_append, List.nil_append]

end Packer

/-! ## What a reader finds -/

/-- The plies of some samples. -/
def sampledPlies (samples : List Sample) : List ℕ := samples.map fun sample => sample.pos.moveCount

/-- Every sample has its move and its evaluation in an entry that begins at `first`, and the
moves in between have none, for which a record holds zero. -/
structure BinpackEntry.KeepsEvals (e : BinpackEntry) (first : Sample) (samples : List Sample) :
    Prop where
  sampled : ∀ sample ∈ samples, ∃ record,
    e.moveSequence[sample.pos.moveCount - first.pos.moveCount]? = some record ∧
      readCell record.move.toNat = cellOf (posFromMove sample.move) ∧
      record.eval = BitVec.ofInt 16 sample.eval
  unsampled : ∀ k record, e.moveSequence[k]? = some record →
    first.pos.moveCount + k ∉ sampledPlies samples → record.eval = 0

/-- Every ply between two samples has been sampled.  This depends only on which plies were
sampled, not on the evaluations. -/
def NoGap (samples : List Sample) : Prop :=
  ∀ a ∈ sampledPlies samples, ∀ b ∈ sampledPlies samples, ∀ t, a ≤ t → t ≤ b →
    t ∈ sampledPlies samples

/-- Behind a gap there is a ply that was not sampled right before one that was.  It is the
last ply of the gap, and the one that gets an evaluation by mistake. -/
theorem exists_before_sample {samples : List Sample} (h : ¬NoGap samples) :
    ∃ a ∈ sampledPlies samples, ∃ t, a < t ∧ t ∉ sampledPlies samples ∧
      t + 1 ∈ sampledPlies samples := by
  unfold NoGap at h
  push Not at h
  obtain ⟨a, ha, b, hb, t, hat, htb, ht⟩ := h
  have hne : ∀ u ∈ sampledPlies samples, u ≠ t := fun u hu heq => ht (heq ▸ hu)
  have ha' := hne a ha
  have hb' := hne b hb
  have hnext : ∃ u, t ≤ u ∧ u + 1 ∈ sampledPlies samples := by
    refine ⟨b - 1, by omega, ?_⟩
    rwa [Nat.sub_add_cancel (by omega)]
  obtain ⟨hle, hmem⟩ := Nat.find_spec hnext
  refine ⟨a, ha, Nat.find hnext, by omega, fun hsampled => ?_, hmem⟩
  -- otherwise the ply before would have been found
  have hne' := hne _ hsampled
  refine Nat.find_min hnext (m := Nat.find hnext - 1) (by omega) ⟨by omega, ?_⟩
  rwa [Nat.sub_add_cancel (by omega)]

section Entry

variable {e : BinpackEntry} {first last : Sample} {rest : List Sample}

/-- An entry from `first` to `last` with the moves and the evaluations that the loop
writes. -/
structure FilledEntry (e : BinpackEntry) (first last : Sample) (rest : List Sample) : Prop where
  evals : e.moveSequence.map MoveRecord.eval =
    evalsAfter first.eval first.pos.moveCount rest
  moves : ∀ sample ∈ first :: rest, ∃ record,
    e.moveSequence[sample.pos.moveCount - first.pos.moveCount]? = some record ∧
      readCell record.move.toNat = cellOf (posFromMove sample.move)
  length : e.moveSequence.length = last.pos.moveCount + 1 - first.pos.moveCount
  last : last ∈ rest
  increasing : (first :: rest).Pairwise fun a b => a.pos.moveCount < b.pos.moveCount

namespace FilledEntry

variable (h : FilledEntry e first last rest)

include h

theorem ascending : Ascending first.pos.moveCount rest where
  le a ha := ((List.pairwise_cons.mp h.increasing).1 a ha).le
  increasing := (List.pairwise_cons.mp h.increasing).2

theorem first_lt {sample : Sample} (hmem : sample ∈ rest) :
    first.pos.moveCount < sample.pos.moveCount :=
  (List.pairwise_cons.mp h.increasing).1 sample hmem

theorem getElem?_evals {k : ℕ} {record : MoveRecord} (hk : e.moveSequence[k]? = some record) :
    (evalsAfter first.eval first.pos.moveCount rest)[k]? = some record.eval := by
  rw [← h.evals, List.getElem?_map, hk]
  rfl

/-- The evaluation of a ply before `last` at which no further sample was taken. -/
theorem eval_unsampled {t : ℕ} (hfirst : first.pos.moveCount ≤ t) (hlast : t < last.pos.moveCount)
    (ht : t ∉ sampledPlies rest) {record : MoveRecord}
    (hrecord : e.moveSequence[t - first.pos.moveCount]? = some record) :
    record.eval = BitVec.ofInt 16 (if t + 1 ∈ sampledPlies rest then first.eval else 0) := by
  have hne : ∀ sample ∈ rest, sample.pos.moveCount ≠ t := fun sample hmem heq =>
    ht (heq ▸ List.mem_map_of_mem hmem)
  have heval := h.ascending.evalsAfter_unsampled (e := first.eval) hfirst hne
    ⟨last, h.last, hlast⟩
  exact Option.some.inj ((h.getElem?_evals hrecord).symm.trans heval)

/-- Without a gap, or without an evaluation to misplace, the entry is as it should be.  The
move of the first sample is the last ply of the first gap, and so it gets the right one. -/
theorem keepsEvals (hcases : BitVec.ofInt 16 first.eval = 0 ∨ NoGap (first :: rest)) :
    e.KeepsEvals first (first :: rest) := by
  have hlast := h.first_lt h.last
  constructor
  case sampled =>
    intro sample hmem
    obtain ⟨record, hrecord, hmove⟩ := h.moves sample hmem
    refine ⟨record, hrecord, hmove, ?_⟩
    rcases List.mem_cons.mp hmem with rfl | hmem
    · have hnew : sample.pos.moveCount ∉ sampledPlies rest := by
        intro hsampled
        obtain ⟨a, ha, heq⟩ := List.mem_map.mp hsampled
        exact absurd heq (h.first_lt ha).ne'
      rw [h.eval_unsampled (le_refl _) hlast hnew hrecord]
      split
      case isTrue => rfl
      case isFalse hnext =>
        obtain hzero | hgap := hcases
        · exact hzero.symm
        · -- the second sample is the next ply
          have hmem' := hgap _ List.mem_cons_self _
            (List.mem_cons_of_mem _ (List.mem_map_of_mem h.last)) (sample.pos.moveCount + 1)
            (Nat.le_succ _) hlast
          rw [sampledPlies, List.map_cons, List.mem_cons] at hmem'
          exact absurd (hmem'.resolve_left (by omega)) hnext
    · have heval := h.ascending.evalsAfter_sampled (e := first.eval) hmem
      exact Option.some.inj ((h.getElem?_evals hrecord).symm.trans heval)
  case unsampled =>
    intro k record hk ht
    have hlt : first.pos.moveCount + k ≤ last.pos.moveCount := by
      have := (List.getElem?_eq_some_iff.mp hk).1
      have := h.length
      omega
    obtain hzero | hgap := hcases
    · rw [sampledPlies, List.map_cons, List.mem_cons, not_or] at ht
      have hne : first.pos.moveCount + k ≠ last.pos.moveCount := fun heq =>
        ht.2 (heq ▸ List.mem_map_of_mem h.last)
      rw [h.eval_unsampled (Nat.le_add_right _ k) (by omega) ht.2
        (by rwa [Nat.add_sub_cancel_left])]
      split
      · exact hzero
      · rfl
    · exact absurd (hgap _ List.mem_cons_self _
        (List.mem_cons_of_mem _ (List.mem_map_of_mem h.last)) _ (Nat.le_add_right _ k) hlt) ht

/-- The ply before a sample that no sample precedes. -/
theorem not_keepsEvals (heval : BitVec.ofInt 16 first.eval ≠ 0) (hgap : ¬NoGap (first :: rest)) :
    ¬e.KeepsEvals first (first :: rest) := by
  intro hkeeps
  obtain ⟨a, ha, t, hat, ht, hnext⟩ := exists_before_sample hgap
  have hfirst : first.pos.moveCount < t := by
    rcases List.mem_cons.mp ha with rfl | ha
    · exact hat
    · obtain ⟨b, hb, rfl⟩ := List.mem_map.mp ha
      exact (h.first_lt hb).trans hat
  have hnext' : t + 1 ∈ sampledPlies rest := by
    rw [sampledPlies, List.map_cons, List.mem_cons] at hnext
    exact hnext.resolve_left (by omega)
  have ht' : t ∉ sampledPlies rest := fun hmem => ht (List.mem_cons_of_mem _ hmem)
  obtain ⟨b, hb, hcount⟩ := List.mem_map.mp hnext'
  have hle : b.pos.moveCount ≤ last.pos.moveCount := by
    obtain ⟨record, hrecord, -⟩ := h.moves b (List.mem_cons_of_mem _ hb)
    have := (List.getElem?_eq_some_iff.mp hrecord).1
    have := h.length
    have := h.first_lt h.last
    omega
  have hlength := h.length
  obtain ⟨record, hrecord⟩ : ∃ record,
      e.moveSequence[t - first.pos.moveCount]? = some record :=
    ⟨_, List.getElem?_eq_getElem (by omega)⟩
  have hzero := hkeeps.unsampled _ record hrecord (by rwa [Nat.add_sub_cancel' hfirst.le])
  rw [h.eval_unsampled hfirst.le (by omega) ht' hrecord, if_pos hnext'] at hzero
  exact heval hzero

end FilledEntry

end Entry

/-! ## The file of a game -/

namespace Match

variable {P : Position} {size : ℕ} {cells : List (Int × Int)} {moves plies : List ℕ} {g : Game}
  {first last : Sample} {rest : List Sample}

theorem SampledAtPlies.exists_filledEntry (h : SampledAtPlies P moves plies g.samples)
    (hopening : P.Follows size cells) (hlegal : P.LegalMoves moves)
    (hsamples : g.samples = first :: rest) (hlast : rest.getLast? = some last) :
    ∃ e, g.binpackEntries = some [e] ∧ FilledEntry e first last rest := by
  obtain ⟨hchain, hinc⟩ := h.chain hopening hlegal
  have hinside := (hopening.playMoves hlegal).inSquare
  have hpacked := map_packCoord_lt hopening.size_le hinside
  have hsampleOf := fun a ha => (hchain a ha).packed
  have hfilled := filled_ofSamples hpacked hsamples hlast hsampleOf hinc
  obtain ⟨-, -, hentries⟩ := exportSamplesBinpack_ofSamples hpacked hsamples hlast hsampleOf hinc
  rw [hsamples] at hchain hinc hsampleOf
  have hfirst := List.pairwise_cons.mp hinc
  have hmem := List.mem_of_getLast? hlast
  have hcount := hfirst.1 last hmem
  -- the moves after the opening fill different cells
  have hmoves := hopening.length_moves_le hlegal
  have hopen := (hchain first List.mem_cons_self).opening_le
  have hend := (hchain last (List.mem_cons_of_mem first hmem)).lt
  have hlength : last.pos.moveCount + 1 ≤ ((cells ++ moveCells moves).map packCoord).length := by
    rwa [List.length_map]
  rw [List.length_append, length_moveCells] at hend
  have hsequence := hfilled.entry_moveSequence hlength (by omega)
  refine ⟨_, hentries, ?_, fun sample hsample => ?_, ?_, hmem, hinc⟩
  · rw [hsequence]
    exact (Packer.initEntry_filled g.gameRule (hsampleOf first List.mem_cons_self)).evals_foldl
      hpacked (fun a ha => hsampleOf a (List.mem_cons_of_mem first ha))
      ⟨fun a ha => (hfirst.1 a ha).le, hfirst.2⟩ g.gameRule first.eval
  · obtain ⟨hle, hle'⟩ := counts_between hinc hlast hsample
    exact (hchain sample hsample).exists_record hfilled hlength (by omega) hle (by omega)
      hopening.size_le hinside
  · rw [hsequence, hfilled.length_moveSequence hlength]

/-- **When the evaluations stay with their moves**: the first sample has none, as far as
sixteen bits can tell, or no ply between two samples was left out.  The loop that fills in
the gaps uses the evaluation of the first sample for every gap, and not only for the first
one. -/
theorem keepsEvals_iff (hopening : P.Follows size cells) (hlegal : P.LegalMoves moves)
    (h : SampledAtPlies P moves plies g.samples) (hsamples : g.samples = first :: rest)
    (hrest : rest ≠ []) :
    ∃ e, g.binpackEntries = some [e] ∧
      (e.KeepsEvals first g.samples ↔
        BitVec.ofInt 16 first.eval = 0 ∨ NoGap g.samples) := by
  obtain ⟨e, hentries, hfilled⟩ := h.exists_filledEntry hopening hlegal hsamples
    (List.getLast?_eq_some_getLast hrest)
  refine ⟨e, hentries, ?_⟩
  rw [hsamples]
  constructor
  · intro hkeeps
    by_contra hnone
    rw [not_or] at hnone
    exact hfilled.not_keepsEvals hnone.1 hnone.2 hkeeps
  · exact hfilled.keepsEvals

/-- Three moves on the diagonal with the same evaluation, of which some are
sampled. -/
def scoredMatch (sampled : ℕ → Bool) : Match :=
  { sampledMatch 3 with
    moveReply := fun ply =>
      { ok := true
        crashed := false
        timeLeft := 0
        bestmove := if ply = 0 then ['1', ',', '1'] else if ply = 1 then ['2', ',', '2']
          else ['3', ',', '3']
        moveInfo := { score := 100, depth := 0, time := 0 } }
    sampled := sampled }

/-- The stones and the evaluation of each sample of such a game. -/
def scoredSamples (sampled : ℕ → Bool) : List (ℕ × Int) :=
  ((scoredMatch sampled).samplesAtEnd (Game.ofOpening [] (scoredMatch sampled).options)).map
    fun a => (a.pos.moveCount, a.eval)

theorem exists_recorded_scored {sampled : ℕ → Bool} {v v' : ℕ × Int} {vs : List (ℕ × Int)}
    (hvalues : scoredSamples sampled = v :: v' :: vs) :
    ∃ result final first rest cells moves plies,
      (scoredMatch sampled).play (Game.ofOpening [] (scoredMatch sampled).options) =
        some (.returned result final) ∧
      final.game.samples = first :: rest ∧ rest ≠ [] ∧ first.eval = v.2 ∧
      sampledPlies (first :: rest) = (v :: v' :: vs).map Prod.fst ∧
      Recorded (scoredMatch sampled) (Game.ofOpening [] (scoredMatch sampled).options) result
        final.game cells moves plies := by
  have hloads : Loads (scoredMatch sampled) (Game.ofOpening [] (scoredMatch sampled).options) :=
    loads_ofOpening (show (sampledMatch 3).options.boardSize ≤ 22 by decide)
      (show (Game.new.loadOpening [] (sampledMatch 3).options 0).isSome = true by decide)
  obtain ⟨first, rest, hsamples, hfirst, hrest⟩ := List.map_eq_cons_iff.mp hvalues
  obtain ⟨result, final, hplay, hgame⟩ :=
    exists_returned (hsamples.trans_ne (List.cons_ne_nil first rest))
  obtain ⟨cells, moves, plies, hrecorded⟩ := recorded_of_returned hloads hplay
  refine ⟨result, final, first, rest, cells, moves, plies, hplay, hgame.trans hsamples, ?_,
    congrArg Prod.snd hfirst, ?_, hrecorded⟩
  · rintro rfl
    cases hrest
  · rw [← hvalues, scoredSamples, hsamples, List.map_map]
    rfl

/-- The move in the middle is not sampled, and gets the evaluation of the first
one. -/
theorem not_keepsEvals_gap :
    ∃ result final first rest,
      (scoredMatch (· != 1)).play (Game.ofOpening [] (scoredMatch (· != 1)).options) =
        some (.returned result final) ∧
      final.game.samples = first :: rest ∧
      ∃ e, final.game.binpackEntries = some [e] ∧ ¬e.KeepsEvals first final.game.samples := by
  have hvalues : scoredSamples (· != 1) = [(0, 100), (2, 100)] := by decide +kernel
  obtain ⟨result, final, first, rest, cells, moves, plies, hplay, hsamples, hrest, heval, hplies,
    h⟩ := exists_recorded_scored hvalues
  obtain ⟨e, hentries, hfilled⟩ := h.samples.exists_filledEntry h.opening h.legal hsamples
    (List.getLast?_eq_some_getLast hrest)
  refine ⟨result, final, first, rest, hplay, hsamples, e, hentries, ?_⟩
  rw [hsamples]
  refine hfilled.not_keepsEvals ?_ fun hgap => ?_
  · rw [heval]
    decide
  · unfold NoGap at hgap
    rw [hplies] at hgap
    have hone : 1 ∈ [0, 2] := hgap 0 (by decide) 2 (by decide) 1 (by decide) (by decide)
    exact absurd hone (by decide)

/-- With every move sampled there is no gap. -/
theorem keepsEvals_all :
    ∃ result final first rest,
      (scoredMatch fun _ => true).play (Game.ofOpening [] (scoredMatch fun _ => true).options) =
        some (.returned result final) ∧
      final.game.samples = first :: rest ∧
      ∃ e, final.game.binpackEntries = some [e] ∧ e.KeepsEvals first final.game.samples := by
  have hvalues : scoredSamples (fun _ => true) = [(0, 100), (1, 100), (2, 100)] := by
    decide +kernel
  obtain ⟨result, final, first, rest, cells, moves, plies, hplay, hsamples, hrest, -, hplies, h⟩ :=
    exists_recorded_scored hvalues
  obtain ⟨e, hentries, hiff⟩ := keepsEvals_iff h.opening h.legal h.samples hsamples hrest
  refine ⟨result, final, first, rest, hplay, hsamples, e, hentries, hiff.mpr (Or.inr ?_)⟩
  rw [hsamples]
  unfold NoGap
  rw [hplies]
  intro a _ b hb t _ htb
  have hle : b ≤ 2 := by
    have hall : ∀ b ∈ [0, 1, 2], b ≤ 2 := by decide
    exact hall b hb
  obtain rfl | rfl | rfl : t = 0 ∨ t = 1 ∨ t = 2 := by omega
  · decide
  · decide
  · decide

end Match

end GomokuCli
