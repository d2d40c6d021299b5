import GomokuCli.Binpack
import GomokuCli.Outcome

/-!
# The samples of a run in the packed format

The samples that `play` records are positions of one game, so the cells of all
of them are prefixes of one list: the opening followed by the moves.  The encoder
follows this list from the first sample to the last one.

What is lost is what the format has no room for: the first sample adds no move,
so a single one is not written at all, and a head counts less than 1024 stones.
An entry can be replayed on an empty board iff the opening could.
-/

namespace GomokuCli

open Position

/-! ## Packed cells of the board -/

/-- `uint16_t Move(int x, int y)` of the documentation.  It agrees with the packing of the
source on the cells of a board. -/
def packCoord (c : Int × Int) : Nat := posRaw c.1 c.2

theorem packedCell_eq (move : Nat) : packedCell move = packCoord (cellOf (posFromMove move)) :=
  rfl

section PackCoord

variable {size : Nat} {c : Int × Int}

theorem packCoord_eq (hsize : size ≤ 22) (h : InSquare size c) :
    packCoord c = 32 * c.1.toNat + c.2.toNat := by
  obtain ⟨⟨hx0, hx⟩, hy0, hy⟩ := h
  rw [packCoord, posRaw_eq]
  simp only [uint8]
  omega

theorem packCoord_lt (hsize : size ≤ 22) (h : InSquare size c) : packCoord c < 1024 := by
  rw [packCoord_eq hsize h]
  obtain ⟨⟨hx0, hx⟩, hy0, hy⟩ := h
  omega

/-- **The documented reading of a packed cell** gives back the cell, on every board that the
options accept. -/
theorem readCell_packCoord (hsize : size ≤ 22) (h : InSquare size c) :
    readCell (packCoord c) = c := by
  rw [packCoord_eq hsize h, readCell_eq]
  obtain ⟨⟨hx0, hx⟩, hy0, hy⟩ := h
  ext
  · simp only
    omega
  · simp only
    omega

theorem map_packCoord_lt (hsize : size ≤ 22) {cells : List (Int × Int)}
    (h : ∀ c ∈ cells, InSquare size c) : ∀ w ∈ cells.map packCoord, w < 1024 := by
  intro w hw
  obtain ⟨c, hc, rfl⟩ := List.mem_map.mp hw
  exact packCoord_lt hsize (h c hc)

theorem map_readCell (hsize : size ≤ 22) {cells : List (Int × Int)}
    (h : ∀ c ∈ cells, InSquare size c) : (cells.map packCoord).map readCell = cells := by
  rw [List.map_map]
  conv_rhs => rw [← List.map_id cells]
  exact List.map_congr_left fun c hc => readCell_packCoord hsize (h c hc)

end PackCoord

/-! ## What a reader gets back -/

/-- The packed cells of an entry, up to the `k`-th record of its move sequence. -/
def BinpackEntry.packedCells (e : BinpackEntry) (k : Nat) : List Nat :=
  e.position ++ (e.moveSequence.take k).map fun r => r.move.toNat

/-- The sample can be read off the entry: a prefix of the entry is the history of its
position, and the next record is its move.  It does not matter which record this is. -/
def BinpackEntry.Recovers (e : BinpackEntry) (sample : Sample) : Prop :=
  ∃ k record,
    (e.position ++ (e.moveSequence.take k).map fun r => r.move.toNat).map readCell =
      sample.pos.historyCells ∧
    e.moveSequence[k]? = some record ∧
    readCell record.move.toNat = cellOf (posFromMove sample.move)

/-- No sample is lost: each of them can be read off one of the entries. -/
def Game.SamplesRecovered (g : Game) : Prop :=
  ∃ entries, g.binpackEntries = some entries ∧
    ∀ sample ∈ g.samples, ∃ e ∈ entries, e.Recovers sample

namespace Match

open PlayState

/-! ## The samples of a finished game -/

/-- The result for the engine in one of the two seats, when `result` is the one for
`engines[0]`.  A loss of the one is a win of the other. -/
def resultForSeat (result : Result) (seat : Bool) : Int :=
  if seat then 2 - result.code else result.code

/-- The game that the samples of `final` were taken from: an opening that the game follows,
the legal moves behind it, and the plies that were sampled.  Every statement about a file of
samples is reduced to this one. -/
structure Recorded (m : Match) (g : Game) (result : Result) (final : Game)
    (cells : List (Int × Int)) (moves plies : List Nat) : Prop where
  opening : (g.pos 0).Follows m.options.boardSize cells
  legal : (g.pos 0).LegalMoves moves
  gameRule : final.gameRule = m.options.gameRule
  history : final.samples ≠ [] → final.position.historyCells = cells ++ moveCells moves
  samples : SampledAtPlies (g.pos 0) moves plies final.samples
  result : ∀ sample ∈ final.samples, sample.result =
    resultForSeat result
      (engineOfColor (g.pos 0).playerToMove m.reverse sample.pos.playerToMove)

variable {m : Match} {g : Game} {result : Result} {P : Position} {moves plies : List Nat}
  {s t : PlayState} {samples : List Sample}

/-- The results do not matter for where a sample was taken. -/
theorem SampledAtPlies.withResults (h : SampledAtPlies P moves plies samples)
    (f : Sample → Int) :
    SampledAtPlies P moves plies
      (samples.map fun sample => { sample with result := f sample }) where
  increasing := h.increasing
  lt := h.lt
  sampled := by
    rw [List.forall₂_map_right_iff]
    exact h.sampled.imp fun k sample hk => ⟨hk.pos, hk.move⟩

/-- What a finished game gives a sample is the result for the engine that was asked there.
The source goes by colours here and by seats in `play`, and this is where the two meet. -/
theorem filled_result (turn : Color) (reverse : Bool) (lost : Prop) [Decidable lost]
    {loser color : Color} (hloser : loser.IsStone) (hcolor : color.IsStone)
    {wpov : Int} (hwpov : wpov =
      if lost then (if loser = .white then Result.loss.code else Result.win.code)
      else Result.draw.code) :
    (if color = .white then wpov else 2 - wpov) =
      resultForSeat
        (if lost then resultOfLoser (engineOfColor turn reverse loser) else .draw)
        (engineOfColor turn reverse color) := by
  subst hwpov
  by_cases hlost : lost
  · simp only [if_pos hlost]
    rcases hloser with rfl | rfl <;> rcases hcolor with rfl | rfl <;> cases turn <;>
      cases reverse <;> rfl
  · simp only [if_neg hlost]
    cases engineOfColor turn reverse color <;> rcases hcolor with rfl | rfl <;> rfl

/-- The two cases of what happens to the samples at the end: they are thrown away, or all of
them get a result. -/
theorem fillSamples_cases (g : Game) :
    fillSamples g = [] ∨
    ∃ wpov : Int,
      wpov = (if g.state.code < stateSeparator then
        (if g.position.playerToMove = .white then Result.loss.code else Result.win.code)
        else Result.draw.code) ∧
      fillSamples g = g.samples.map fun sample =>
        { sample with result := if sample.pos.playerToMove = .white then wpov else 2 - wpov } := by
  unfold fillSamples
  cases hstate : g.state with
  | timeLoss => exact Or.inl rfl
  | crashed => exact Or.inl rfl
  | illegalMove => exact Or.inl rfl
  | none => exact Or.inr ⟨_, rfl, rfl⟩
  | fiveConnect => exact Or.inr ⟨_, rfl, rfl⟩
  | forbiddenMove => exact Or.inr ⟨_, rfl, rfl⟩
  | resign => exact Or.inr ⟨_, rfl, rfl⟩
  | drawInsufficientSpace => exact Or.inr ⟨_, rfl, rfl⟩
  | drawAdjudication => exact Or.inr ⟨_, rfl, rfl⟩

theorem sampledAtPlies_nil (P : Position) (moves : List Nat) : SampledAtPlies P moves [] [] :=
  ⟨List.Pairwise.nil, by simp, List.Forall₂.nil⟩

/-- Every sample was taken at one of the plies. -/
theorem SampledAtPlies.exists_ply (h : SampledAtPlies P moves plies samples) {sample : Sample}
    (hmem : sample ∈ samples) :
    ∃ k ∈ plies, k < moves.length ∧ SampledAt P moves k sample := by
  obtain ⟨i, hi, rfl⟩ := List.getElem_of_mem hmem
  have hi' : i < plies.length := h.sampled.length_eq ▸ hi
  exact ⟨plies[i], List.getElem_mem hi', h.lt _ (List.getElem_mem hi'), h.sampled.get hi' hi⟩

theorem SampledAt.follows {size : Nat} {cells : List (Int × Int)} {k : Nat} {sample : Sample}
    (h : SampledAt P moves k sample) (hopening : P.Follows size cells)
    (hlegal : P.LegalMoves moves) :
    sample.pos.Follows size (cells ++ moveCells (moves.take k)) :=
  h.pos.follows (hopening.playMoves (hlegal.take k))

/-- **The samples of every finished game** are those of a recorded game, whatever the
engines have answered.  It does not matter whether they are written. -/
theorem recorded_of_returned {final : PlayState} (h : Loads m g)
    (hplay : m.play g = some (.returned result final)) :
    ∃ cells moves plies, Recorded m g result final.game cells moves plies := by
  obtain ⟨cells, hopening, -⟩ := h.follows
  obtain ⟨i, -, -, -, hgame⟩ | ⟨s, t, -, hat, hbreaks, hresult, rfl⟩ := returned_cases h hplay
  · -- the game ended at `START`
    have hsamples : final.game.samples = [] := by
      rw [hgame]
      exact h.fields.2.2
    refine ⟨cells, [], [], hopening, legalMoves_nil _, by rw [hgame]; rfl,
      fun hne => absurd hsamples hne, ?_, ?_⟩
    · rw [hsamples]
      exact sampledAtPlies_nil _ _
    · rw [hsamples]
      simp
  · obtain ⟨moves, hplaying⟩ := hat.playing h
    obtain ⟨plies, hplies⟩ := hplaying.samples
    have hsame := hbreaks.sameTurn
    have hasked := hplaying.follows hopening
    have hfinal : t.position.Follows m.options.boardSize (cells ++ moveCells moves) :=
      hsame.position.follows hasked
    have hrule : t.game.gameRule = m.options.gameRule := by
      rw [hsame.gameRule, (asked_sameTurn s).gameRule, enterPly_gameRule, hplaying.gameRule]
    have hsamples : t.game.samples = s.game.samples := by
      rw [hsame.samples, (asked_sameTurn s).samples, enterPly_samples]
    have hei : t.ei = s.ei := by rw [hsame.ei, (asked_sameTurn s).ei, enterPly_ei]
    -- the engine that `play` takes for the loser sits on the side to move
    have hseat :
        engineOfColor (g.pos 0).playerToMove m.reverse t.position.playerToMove = t.ei := by
      rw [hsame.position.playerToMove, hplaying.asked_seat, hei]
    obtain hempty | ⟨wpov, hwpov, hfilled⟩ := fillSamples_cases t.game
    · refine ⟨cells, moves, [], hopening, hplaying.legal, hrule, fun _ => hfinal.moves, ?_, ?_⟩
      · rw [hempty]
        exact sampledAtPlies_nil _ _
      · rw [hempty]
        simp
    · refine ⟨cells, moves, plies, hopening, hplaying.legal, hrule, fun _ => hfinal.moves, ?_, ?_⟩
      · rw [hfilled, hsamples]
        exact hplies.withResults _
      · rw [hfilled]
        intro sample hmem
        obtain ⟨sample, hmem', rfl⟩ := List.mem_map.mp hmem
        obtain ⟨k, -, -, hk⟩ := hplies.exists_ply (hsamples ▸ hmem')
        have hcolor := (hk.follows hopening hplaying.legal).turn_isStone
        rw [hresult, ← hseat]
        exact filled_result _ _ _ hfinal.turn_isStone hcolor hwpov

/-! ## One list for all of them -/

section Recorded

variable {final : Game} {cells : List (Int × Int)}

theorem Recorded.follows (h : Recorded m g result final cells moves plies) :
    ((g.pos 0).playMoves moves).Follows m.options.boardSize (cells ++ moveCells moves) :=
  h.opening.playMoves h.legal

/-- What each sample is a sample of: the position after some of the cells, and the next of
them as its move. -/
structure SampleOfCells (size : Nat) (cells : List (Int × Int)) (opening : Nat)
    (sample : Sample) : Prop where
  opening_le : opening ≤ sample.pos.moveCount
  lt : sample.pos.moveCount < cells.length
  follows : sample.pos.Follows size (cells.take sample.pos.moveCount)
  move : cells[sample.pos.moveCount]? = some (cellOf (posFromMove sample.move))

theorem SampledAt.ofCells {k : Nat} {sample : Sample} (hk : k < moves.length)
    (h : SampledAt P moves k sample) {size : Nat} (hopening : P.Follows size cells)
    (hlegal : P.LegalMoves moves) :
    sample.pos.moveCount = cells.length + k ∧
      SampleOfCells size (cells ++ moveCells moves) cells.length sample := by
  have hfollows := h.follows hopening hlegal
  have hcount : sample.pos.moveCount = cells.length + k := by
    rw [hfollows.moveCount, List.length_append, length_moveCells, List.length_take,
      min_eq_left hk.le]
  have htake : cells ++ moveCells (moves.take k) =
      (cells ++ moveCells moves).take sample.pos.moveCount := by
    rw [hcount, List.take_length_add_append, moveCells, moveCells, List.map_take]
  refine ⟨hcount, by omega, ?_, htake ▸ hfollows, ?_⟩
  · rw [List.length_append, length_moveCells]
    omega
  · rw [hcount, List.getElem?_append_right (Nat.le_add_right _ _), Nat.add_sub_cancel_left,
      moveCells, List.getElem?_map, h.move, Option.map_some]

/-- **The samples are prefixes of one list, one longer than the other.** The list is the
opening followed by the moves, and it is the same for all of them. -/
theorem SampledAtPlies.chain {size : Nat} (h : SampledAtPlies P moves plies samples)
    (hopening : P.Follows size cells) (hlegal : P.LegalMoves moves) :
    (∀ sample ∈ samples, SampleOfCells size (cells ++ moveCells moves) cells.length sample) ∧
    samples.Pairwise fun a b => a.pos.moveCount < b.pos.moveCount := by
  constructor
  · intro sample hmem
    obtain ⟨k, -, hk, hsample⟩ := h.exists_ply hmem
    exact (hsample.ofCells hk hopening hlegal).2
  · rw [List.pairwise_iff_getElem]
    intro i j hi hj hij
    have hlen := h.sampled.length_eq
    have hcount : ∀ l (hl : l < plies.length) (hl' : l < samples.length),
        samples[l].pos.moveCount = cells.length + plies[l] := fun l hl hl' =>
      (SampledAt.ofCells (h.lt _ (List.getElem_mem hl)) (h.sampled.get hl hl')
        hopening hlegal).1
    have hlt := List.pairwise_iff_getElem.mp h.increasing i j (by omega) (by omega) hij
    rw [hcount i (by omega) hi, hcount j (by omega) hj]
    omega

theorem Recorded.chain (h : Recorded m g result final cells moves plies) :
    (∀ sample ∈ final.samples,
      SampleOfCells m.options.boardSize (cells ++ moveCells moves) cells.length sample) ∧
    final.samples.Pairwise fun a b => a.pos.moveCount < b.pos.moveCount :=
  h.samples.chain h.opening h.legal

/-- A sample of a game is one of its packed cells. -/
theorem SampleOfCells.packed {size opening : Nat} {C : List (Int × Int)} {sample : Sample}
    (h : SampleOfCells size C opening sample) : SampleOf (C.map packCoord) sample where
  history := by
    intro i hi
    have hlt := h.lt
    have hi' : i < (C.take sample.pos.moveCount).length := by
      rw [List.length_take]
      omega
    rw [packedCell_eq, h.follows.history hi', List.getElem_take, List.getElem?_map,
      List.getElem?_eq_getElem (by omega), Option.map_some]
  move := by
    rw [List.getElem?_map, h.move, Option.map_some, packedCell_eq]

/-- The record of the move of a sample. -/
theorem SampleOfCells.exists_record {size opening t₀ n : Nat} {C : List (Int × Int)}
    {sample : Sample} {head : EntryHead} {p : Packer} (h : SampleOfCells size C opening sample)
    (hp : p.Filled (C.map packCoord) t₀ head n) (hn : n ≤ (C.map packCoord).length)
    (hlen : n - t₀ < 2 ^ 18) (hle : t₀ ≤ sample.pos.moveCount) (hlt : sample.pos.moveCount < n)
    (hsize : size ≤ 22) (hC : ∀ c ∈ C, InSquare size c) :
    ∃ record, p.entry.moveSequence[sample.pos.moveCount - t₀]? = some record ∧
      readCell record.move.toNat = cellOf (posFromMove sample.move) := by
  have hrecord := hp.getElem?_moveSequence hn hlen hle hlt
  rw [h.packed.move, Option.map_eq_some_iff] at hrecord
  obtain ⟨record, hget, hmove⟩ := hrecord
  refine ⟨record, hget, ?_⟩
  rw [hmove, packedCell_eq]
  exact readCell_packCoord hsize (hC _ (List.mem_of_getElem? h.move))

theorem Recorded.inSquare (h : Recorded m g result final cells moves plies) :
    ∀ c ∈ cells ++ moveCells moves, InSquare m.options.boardSize c :=
  h.follows.inSquare

/-- The documented reading of a prefix of the packed cells. -/
theorem Recorded.map_readCell_take (h : Recorded m g result final cells moves plies) (t : Nat) :
    (((cells ++ moveCells moves).map packCoord).take t).map readCell =
      (cells ++ moveCells moves).take t := by
  rw [← List.map_take]
  exact map_readCell h.opening.size_le fun c hc => h.inSquare c (List.mem_of_mem_take hc)

variable {first last : Sample} {rest : List Sample}

/-- The samples are between the first one and the last one. -/
theorem counts_between
    (hinc : (first :: rest).Pairwise fun a b => a.pos.moveCount < b.pos.moveCount)
    (hlast : rest.getLast? = some last) {sample : Sample} (hmem : sample ∈ first :: rest) :
    first.pos.moveCount ≤ sample.pos.moveCount ∧
      sample.pos.moveCount ≤ last.pos.moveCount := by
  obtain ⟨init, rfl⟩ := List.getLast?_eq_some_iff.mp hlast
  constructor
  · rw [List.pairwise_cons] at hinc
    rw [List.mem_cons] at hmem
    rcases hmem with rfl | hmem
    · exact le_refl _
    · exact (hinc.1 sample hmem).le
  · rw [← List.cons_append, List.pairwise_append] at hinc
    rw [← List.cons_append, List.mem_append, List.mem_singleton] at hmem
    rcases hmem with hmem | rfl
    · exact (hinc.2.2 sample hmem last List.mem_cons_self).le
    · exact le_refl _

theorem Recorded.between (h : Recorded m g result final cells moves plies)
    (hsamples : final.samples = first :: rest) (hlast : rest.getLast? = some last)
    {sample : Sample} (hmem : sample ∈ final.samples) :
    first.pos.moveCount ≤ sample.pos.moveCount ∧
      sample.pos.moveCount ≤ last.pos.moveCount := by
  obtain ⟨-, hinc⟩ := h.chain
  rw [hsamples] at hinc hmem
  exact counts_between hinc hlast hmem

/-- The entry of `p` is the whole file of a game with the cells `C`, whose samples go from
`first` to `last`.  It joins the invariant of the encoder with the reader of the file. -/
structure Written (m : Match) (final : Game) (C : List (Int × Int)) (first last : Sample)
    (p : Packer) : Prop where
  filled : p.Filled (C.map packCoord) first.pos.moveCount
    (Packer.initEntry m.options.gameRule first .start).head (last.pos.moveCount + 1)
  wellFormed : p.entry.WellFormed
  exported : final.exportSamplesBinpack = [p.entry.bytes]
  entries : final.binpackEntries = some [p.entry]
  first_mem : first ∈ final.samples
  last_mem : last ∈ final.samples
  le_length : last.pos.moveCount + 1 ≤ (C.map packCoord).length
  length_le : last.pos.moveCount + 1 - first.pos.moveCount ≤ 484
  between : ∀ sample ∈ final.samples, first.pos.moveCount ≤ sample.pos.moveCount ∧
    sample.pos.moveCount ≤ last.pos.moveCount

/-- **The file of two or more samples** is one entry, from the first of them to the last. -/
theorem Recorded.exists_written (h : Recorded m g result final cells moves plies)
    (hsamples : final.samples = first :: rest) (hlast : rest.getLast? = some last) :
    ∃ p, Written m final (cells ++ moveCells moves) first last p := by
  obtain ⟨hchain, hinc⟩ := h.chain
  have hpacked := map_packCoord_lt h.opening.size_le h.inSquare
  have hfirst : first ∈ final.samples := hsamples ▸ List.mem_cons_self
  have hlast' : last ∈ final.samples := by
    rw [hsamples]
    exact List.mem_cons_of_mem first (List.mem_of_getLast? hlast)
  obtain ⟨p, hp, hwf, hexport, hentries⟩ := exportSamplesBinpack_chain hpacked hsamples hlast
    (fun a ha => (hchain a ha).packed) hinc
  rw [h.gameRule] at hp
  -- the moves after the opening fill different cells
  have hmoves := h.opening.length_moves_le h.legal
  have hle := (hchain first hfirst).opening_le
  have hlt := (hchain last hlast').lt
  rw [List.length_append, length_moveCells] at hlt
  refine ⟨p, hp, hwf, hexport, hentries, hfirst, hlast', ?_, by omega,
    fun sample hmem => h.between hsamples hlast hmem⟩
  rw [List.length_map, List.length_append, length_moveCells]
  omega

variable {p : Packer} {C : List (Int × Int)}

theorem Written.length_moveSequence (hw : Written m final C first last p) :
    p.entry.moveSequence.length = last.pos.moveCount + 1 - first.pos.moveCount := by
  have hlen := hw.length_le
  rw [hw.filled.entry_moveSequence hw.le_length (by omega),
    hw.filled.length_moveSequence hw.le_length]

theorem Written.length_position (hw : Written m final C first last p) :
    p.entry.position.length = first.pos.moveCount % 2 ^ 10 := by
  have hle := (hw.between first hw.first_mem).2
  have hlast := hw.le_length
  have hmod := Nat.mod_le first.pos.moveCount (2 ^ 10)
  rw [hw.filled.entry_position (by omega), List.length_take, min_eq_left (by omega)]

/-- The cells of the entry up to the `t`-th move of the game, when the head can count the
first position.  Otherwise the cut position would no longer be the start of the game. -/
theorem Written.readCells (hw : Written m final (cells ++ moveCells moves) first last p)
    (h : Recorded m g result final cells moves plies) (hcount : first.pos.moveCount < 1024)
    {t : Nat} (hle : first.pos.moveCount ≤ t) (hlt : t ≤ last.pos.moveCount + 1) :
    (p.entry.packedCells (t - first.pos.moveCount)).map readCell =
      (cells ++ moveCells moves).take t := by
  have hlen := hw.length_le
  rw [BinpackEntry.packedCells,
    hw.filled.position_append hw.le_length hcount (by omega) hle hlt, h.map_readCell_take]

/-- A sample can be read off an entry whose head can count the first position.  The move
sequence is long enough, since its counter has eighteen bits. -/
theorem Written.recovers (hw : Written m final (cells ++ moveCells moves) first last p)
    (h : Recorded m g result final cells moves plies) (hcount : first.pos.moveCount < 1024)
    {sample : Sample} (hmem : sample ∈ final.samples) : p.entry.Recovers sample := by
  obtain ⟨hle, hle'⟩ := hw.between sample hmem
  have hlen := hw.length_le
  have hsample := h.chain.1 sample hmem
  obtain ⟨record, hget, hmove⟩ := hsample.exists_record hw.filled hw.le_length (by omega) hle
    (by omega) h.opening.size_le h.inSquare
  refine ⟨sample.pos.moveCount - first.pos.moveCount, record, ?_, hget, hmove⟩
  rw [hsample.follows.moves]
  exact hw.readCells h hcount hle (by omega)

/-- **When no sample is lost**: there is more than one, and the first position
has at most `1023` stones.  A single sample is not written, because the first
sample adds no move; and of a longer position the head counts only the
remainder modulo `1024`. -/
theorem samplesRecovered_iff {final : PlayState} (h : Loads m g)
    (hplay : m.play g = some (.returned result final)) (hne : final.game.samples ≠ []) :
    final.game.SamplesRecovered ↔
      2 ≤ final.game.samples.length ∧ (final.game.samples.head hne).pos.moveCount < 1024 := by
  obtain ⟨cells, moves, plies, hrecorded⟩ := recorded_of_returned h hplay
  obtain ⟨first, rest, hsamples⟩ := List.exists_cons_of_ne_nil hne
  have hhead : final.game.samples.head hne = first := by simp [hsamples]
  have hfirst : first ∈ final.game.samples := hsamples ▸ List.mem_cons_self
  rw [hhead]
  cases hlast : rest.getLast? with
  | none =>
      -- a single sample
      rw [List.getLast?_eq_none_iff] at hlast
      subst hlast
      constructor
      · rintro ⟨entries, hentries, hall⟩
        rw [Game.binpackEntries, exportSamplesBinpack_single hsamples] at hentries
        obtain ⟨e, he, -⟩ := hall first hfirst
        cases hentries
        cases he
      · rintro ⟨hlen, -⟩
        rw [hsamples] at hlen
        simp at hlen
  | some last =>
      obtain ⟨p, hw⟩ := hrecorded.exists_written hsamples hlast
      have hlen : 2 ≤ final.game.samples.length := by
        have := List.length_pos_of_mem (List.mem_of_getLast? hlast)
        rw [hsamples, List.length_cons]
        omega
      constructor
      · rintro ⟨entries, hentries, hall⟩
        rw [hw.entries, Option.some.injEq] at hentries
        subst hentries
        refine ⟨hlen, ?_⟩
        obtain ⟨e, he, k, record, hhistory, -⟩ := hall first hfirst
        rw [List.mem_singleton] at he
        subst he
        -- the moves cannot make up for what is missing in the position
        have hcount := congrArg List.length hhistory
        have hmoves := hw.length_le
        rw [List.length_map, List.length_append, List.length_map, List.length_take,
          hw.length_position, hw.length_moveSequence, length_historyCells] at hcount
        omega
      · rintro ⟨-, hcount⟩
        exact ⟨_, hw.entries, fun sample hmem =>
          ⟨_, List.mem_singleton_self _, hw.recovers hrecorded hcount hmem⟩⟩

/-- The samples of a game that `play` returns from. -/
def samplesAtEnd (m : Match) (g : Game) : List Sample :=
  match m.play g with
  | some (.returned _ final) => final.game.samples
  | _ => []

theorem exists_returned (h : m.samplesAtEnd g ≠ []) :
    ∃ result final, m.play g = some (.returned result final) ∧
      final.game.samples = m.samplesAtEnd g := by
  unfold samplesAtEnd at h ⊢
  split
  · next result final hplay => exact ⟨result, final, hplay, rfl⟩
  · next hother =>
      split at h
      · next result final hplay => exact absurd hplay (hother result final)
      · exact absurd rfl h

/-- A match that writes samples and is stopped after some moves on the diagonal. -/
def sampledMatch (stones : Int) : Match :=
  casual { writeSamples := true, forceDrawAfter := stones } fun ply =>
    if ply = 0 then ['1', ',', '1'] else ['2', ',', '2']

/-- Two samples from the empty board are recovered. -/
theorem samplesRecovered_two :
    ∃ result final,
      (sampledMatch 2).play (Game.ofOpening [] (sampledMatch 2).options) =
        some (.returned result final) ∧ final.game.SamplesRecovered := by
  have hloads : Loads (sampledMatch 2) (Game.ofOpening [] (sampledMatch 2).options) :=
    loads_ofOpening (by decide) (by decide)
  have hcounts : ((sampledMatch 2).samplesAtEnd
      (Game.ofOpening [] (sampledMatch 2).options)).map (fun a => a.pos.moveCount) = [0, 1] := by
    decide +kernel
  have hend : (sampledMatch 2).samplesAtEnd
      (Game.ofOpening [] (sampledMatch 2).options) ≠ [] := by
    intro hnil
    rw [hnil] at hcounts
    cases hcounts
  obtain ⟨result, final, hplay, hsamples⟩ := exists_returned hend
  rw [← hsamples] at hcounts hend
  refine ⟨result, final, hplay, (samplesRecovered_iff hloads hplay hend).mpr ⟨?_, ?_⟩⟩
  · have hlen := congrArg List.length hcounts
    rw [List.length_map] at hlen
    exact hlen.ge
  · obtain ⟨first, rest, hcons⟩ := List.exists_cons_of_ne_nil hend
    simp only [hcons, List.map_cons, List.cons.injEq] at hcounts
    simp only [hcons, List.head_cons, hcounts.1]
    decide

/-- One sample from the empty board: nothing is written. -/
theorem exportSamplesBinpack_one_lost :
    ∃ result final,
      (sampledMatch 1).play (Game.ofOpening [] (sampledMatch 1).options) =
        some (.returned result final) ∧
      final.game.samples.length = 1 ∧ final.game.exportSamplesBinpack = [] ∧
      ¬ final.game.SamplesRecovered := by
  have hlen : ((sampledMatch 1).samplesAtEnd
      (Game.ofOpening [] (sampledMatch 1).options)).length = 1 := by
    decide +kernel
  obtain ⟨only, honly⟩ := List.length_eq_one_iff.mp hlen
  obtain ⟨result, final, hplay, hsamples⟩ :=
    exists_returned (honly.trans_ne (List.cons_ne_nil only []))
  rw [honly] at hsamples
  have hexport := exportSamplesBinpack_single hsamples
  refine ⟨result, final, hplay, by rw [hsamples]; rfl, hexport, ?_⟩
  rintro ⟨entries, hentries, hall⟩
  rw [Game.binpackEntries, hexport] at hentries
  obtain ⟨e, he, -⟩ := hall only (hsamples ▸ List.mem_singleton_self only)
  cases hentries
  cases he

end Recorded

end Match

end GomokuCli
