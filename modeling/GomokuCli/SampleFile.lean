import GomokuCli.Bin
import GomokuCli.Completion
import GomokuCli.Library.Separated
import GomokuCli.OpeningText

/-!
# The file of the samples

The workers share one file for the samples of their games.  It has no writer that puts the
games in order; but a worker holds the lock of the file while it writes, so that the samples
of a game stay together.

In every interleaving the file consists of the samples of the games that are saved, each
game once, in the order in which the workers came to write them (`sampleFile_runs`).  With
that, a reader finds all samples in the text format (`csv_runs`), and in the binary format
(`bin_runs`).
-/

namespace GomokuCli

open Decimal EarlyExit Interleaving JobQueue Position

/-! ## The text format -/

/-- `move_to_opening_str`. -/
def Position.moveToOpeningStr (P : Position) (move : Nat) (type : OpeningType) : List Char :=
  let hboardSize : Int := (P.boardSize / 2 : Nat)
  let p := posFromMove move
  match type with
  | .offset => showInt (coordX p - hboardSize) ++ ',' :: showInt (coordY p - hboardSize)
  | .pos => Char.ofNat (uint8 (coordX p + 'a'.toNat)) :: showInt (coordY p + 1)

/-- The body of the loop of `export_samples_csv`. -/
def csvLine (sample : Sample) : List Char :=
  let posStr := sample.pos.toOpeningStr .pos
  let moveStr := sample.pos.moveToOpeningStr sample.move .pos
  cString posStr ++ ',' :: (cString moveStr ++ ',' :: (showInt sample.result ++ ['\n']))

/-- `export_samples_csv`. -/
def Game.exportSamplesCsv (g : Game) : List Char := g.samples.flatMap csvLine

/-- What a line tells about a sample. -/
structure CsvRecord where
  cells : List (Int × Int)
  move : Int × Int
  result : Int
  deriving DecidableEq, Repr

/-- Read the fields of a line. -/
def readCsvRow (size : Nat) : List (List Char) → Option CsvRecord
  | [position, move, result] =>
      (openingCells size .pos position).bind fun cells =>
        match openingCells size .pos move, readInt result with
        | some [cell], some (v, []) => some ⟨cells, cell, v⟩
        | _, _ => none
  | _ => none

/-- Read a file of lines to its end.  The size of the board is not in the file, and has to
be known. -/
def readCsv (size : Nat) (file : List Char) : Option (List CsvRecord) :=
  (Separated.read ',' '\n' file).mapM (readCsvRow size)

/-- What the sample is a record of. -/
def csvRecordOf (sample : Sample) : CsvRecord where
  cells := sample.pos.historyCells
  move := cellOf (posFromMove sample.move)
  result := sample.result

/-- The groups of some cells. -/
def cellsText (size : Nat) (cells : List (Int × Int)) : List Char :=
  (cells.map (writtenPair size .pos)).flatMap posText

variable {size : Nat} {cells : List (Int × Int)} {sample : Sample}

theorem posGroups_cellsText (hsize : size ≤ 22) (hcells : ∀ c ∈ cells, InSquare size c) :
    PosGroups (cellsText size cells) (cells.map (writtenPair size .pos)) := by
  refine posGroups_groups fun v hv => ?_
  obtain ⟨c, hc, rfl⟩ := List.mem_map.mp hv
  obtain ⟨⟨hx0, hx⟩, hy0, hy⟩ := hcells c hc
  simp only [writtenPair]
  omega

theorem openingCells_cellsText (hsize : size ≤ 22) (hcells : ∀ c ∈ cells, InSquare size c) :
    openingCells size .pos (cellsText size cells) = some cells := by
  have hreadable : ∀ v ∈ cells.map (writtenPair size .pos), Readable .pos v := by
    intro v hv
    obtain ⟨c, hc, rfl⟩ := List.mem_map.mp hv
    refine readable_of_inSquare hsize ?_
    rw [writtenCell_writtenPair]
    exact hcells c hc
  have hwritten : WrittenAs .pos (cellsText size cells) (cells.map (writtenPair size .pos)) :=
    posGroups_cellsText hsize hcells
  rw [openingCells, hwritten.readLine hreadable, Option.map_some, List.map_map]
  refine congrArg some ((List.map_congr_left fun c _ => ?_).trans (List.map_id cells))
  exact writtenCell_writtenPair size .pos c

/-- A letter or a digit, or a sign.  Every field of a line is made of such characters, so
that the marks between them are unambiguous. -/
def InField (c : Char) : Prop := c.isLower = true ∨ c.isDigit = true ∨ c = '-'

instance (c : Char) : Decidable (InField c) := inferInstanceAs (Decidable (_ ∨ _))

theorem inField_of_posGroups {s : List Char} {vs : List (Int × Int)} (h : PosGroups s vs) :
    ∀ c ∈ s, InField c := by
  induction h with
  | nil => exact fun c hc => absurd hc List.not_mem_nil
  | group hletter hne hdigits tail ih =>
      intro c hc
      rcases List.mem_cons.mp hc with rfl | hc
      · exact Or.inl hletter
      rcases List.mem_append.mp hc with hc | hc
      · exact Or.inr (Or.inl (hdigits c hc))
      · exact ih c hc

theorem inField_showInt (n : Int) : ∀ c ∈ showInt n, InField c := by
  have hdigits : ∀ c ∈ Nat.toDigits 10 n.natAbs, InField c := fun c hc =>
    Or.inr (Or.inl (Nat.isDigit_of_mem_toDigits (by omega) (by omega) hc))
  intro c hc
  rw [showInt] at hc
  split at hc
  · rcases List.mem_cons.mp hc with rfl | hc
    · exact Or.inr (Or.inr rfl)
    · exact hdigits c hc
  · exact hdigits c hc

/-- The marks and the end of a string do not stand in a field. -/
theorem InField.ne {c : Char} (h : InField c) : c ≠ ',' ∧ c ≠ '\n' ∧ c.toNat ≠ 0 := by
  refine ⟨?_, ?_, ?_⟩
  · rintro rfl
    revert h
    decide
  · rintro rfl
    revert h
    decide
  · intro hzero
    rw [← Char.ofNat_toNat c, hzero] at h
    revert h
    decide

theorem cString_of_inField {s : List Char} (h : ∀ c ∈ s, InField c) : cString s = s :=
  List.takeWhile_eq_self_iff.mpr fun c hc => decide_eq_true (h c hc).ne.2.2

/-- The fields of the line of a sample. -/
def csvFields (sample : Sample) : List (List Char) :=
  [sample.pos.toOpeningStr .pos, sample.pos.moveToOpeningStr sample.move .pos,
    showInt sample.result]

namespace Match

variable {m : Match} {g final : Game} {result : Result} {moves plies : List Nat}

/-- What the line of a recorded sample consists of.  Its position is a prefix of the cells
of the game, and its move the next of them. -/
theorem Recorded.csvTexts (h : Recorded m g result final cells moves plies)
    (hmem : sample ∈ final.samples) :
    sample.pos.toOpeningStr .pos =
        cellsText m.options.boardSize ((cells ++ moveCells moves).take sample.pos.moveCount) ∧
      sample.pos.moveToOpeningStr sample.move .pos =
        cellsText m.options.boardSize [cellOf (posFromMove sample.move)] := by
  have hsample := h.chain.1 sample hmem
  refine ⟨hsample.follows.toOpeningStr_pos, ?_⟩
  exact (List.append_nil _).symm

theorem Recorded.inField (h : Recorded m g result final cells moves plies)
    (hmem : sample ∈ final.samples) : ∀ x ∈ csvFields sample, ∀ c ∈ x, InField c := by
  obtain ⟨hpos, hmove⟩ := h.csvTexts hmem
  have hsample := h.chain.1 sample hmem
  have hsize := h.opening.size_le
  have hcell : ∀ c ∈ [cellOf (posFromMove sample.move)], InSquare m.options.boardSize c := by
    intro c hc
    rw [List.mem_singleton.mp hc]
    exact h.inSquare _ (List.mem_of_getElem? hsample.move)
  intro x hx
  simp only [csvFields, List.mem_cons, List.not_mem_nil, or_false] at hx
  rcases hx with rfl | rfl | rfl
  · rw [hpos]
    exact inField_of_posGroups (posGroups_cellsText hsize hsample.follows.inSquare)
  · rw [hmove]
    exact inField_of_posGroups (posGroups_cellsText hsize hcell)
  · exact inField_showInt sample.result

/-- The lines of a finished game. -/
theorem Recorded.exportSamplesCsv_eq (h : Recorded m g result final cells moves plies) :
    final.exportSamplesCsv = Separated.write ',' '\n' (final.samples.map csvFields) := by
  rw [Game.exportSamplesCsv, Separated.write, List.flatMap_map]
  refine List.flatMap_congr fun sample hmem => ?_
  have hfield := h.inField hmem
  have hpos := cString_of_inField (hfield _ (.head _))
  have hmove := cString_of_inField (hfield _ (.tail _ (.head _)))
  rw [csvLine, hpos, hmove, csvFields, List.intercalate_cons_cons, List.intercalate_cons_cons,
    List.intercalate_singleton]
  simp only [List.append_assoc, List.cons_append, List.nil_append]

/-- The line of a sample is read as what it is a record of.  The evaluation is not in the
line, so that it is not in the record. -/
theorem Recorded.readCsvRow_csvFields (h : Recorded m g result final cells moves plies)
    (hmem : sample ∈ final.samples) :
    readCsvRow m.options.boardSize (csvFields sample) = some (csvRecordOf sample) := by
  obtain ⟨hpos, hmove⟩ := h.csvTexts hmem
  have hsample := h.chain.1 sample hmem
  have hsize := h.opening.size_le
  have hcell : ∀ c ∈ [cellOf (posFromMove sample.move)], InSquare m.options.boardSize c := by
    intro c hc
    rw [List.mem_singleton.mp hc]
    exact h.inSquare _ (List.mem_of_getElem? hsample.move)
  have hfits : FitsInt sample.result := by
    rw [h.result sample hmem]
    cases result <;> cases engineOfColor _ _ _ <;> decide
  have hresult : readInt (showInt sample.result) = some (sample.result, []) := by
    have hnumeral : readInt ([] ++ showInt sample.result ++ []) = some (sample.result, []) :=
      readInt_numeral (fun c hc => absurd hc List.not_mem_nil) (numeral_showInt sample.result)
        hfits nofun
    rwa [List.nil_append, List.append_nil] at hnumeral
  rw [csvFields, readCsvRow, hpos, hmove, openingCells_cellsText hsize hsample.follows.inSquare,
    openingCells_cellsText hsize hcell, hresult, ← hsample.follows.moves]
  rfl

end Match

/-! ## The workers and the file -/

namespace Sampling

/-- A tournament with a file for the samples.  The games whose samples have been written are
recorded in their order, and whether a worker has yet to write those of its game. -/
structure State (α : Type*) where
  tournament : Tournament.State
  file : List α
  /-- the games whose samples are in the file, in their order -/
  exported : List Nat
  /-- the worker has still to write the samples of its game -/
  pending : Nat → Bool

variable {α : Type*}

/-- All threads have been started, and the file is empty. -/
def start (q : JobQueue) : State α where
  tournament := Tournament.start q
  file := []
  exported := []
  pending _ := false

/-- A step of the tournament, or a call of `export_samples` by a worker. -/
inductive Action
  | act (a : Tournament.Action)
  | exportSamples (w : Nat)

/-- The samples come before the result: a worker adds the result of a game only when it has
written its samples. -/
def State.blocks (s : State α) : Tournament.Action → Bool
  | .addResult w => s.pending w
  | _ => false

/-- The state after a step of the tournament. -/
def State.after (o : Tournament) (s : State α) (a : Tournament.Action) (t : Tournament.State) :
    State α :=
  match a with
  | .endGame w =>
      { s with
        tournament := t
        pending := Function.update s.pending w
          ((s.tournament.phase w).game.any fun g => o.saves g.2) }
  | _ => { s with tournament := t }

/-- One step.  The lock of the file makes a call of `export_samples` a single one. -/
def step (o : Tournament) (samples : Nat → List α) : Action → State α → Option (State α)
  | .act a, s =>
      if s.blocks a then none else (Tournament.step o a s.tournament).map (s.after o a)
  | .exportSamples w, s =>
      match s.tournament.phase w with
      | .saving _ idx [] =>
          if s.pending w then
            some { s with
              file := s.file ++ samples idx
              exported := s.exported ++ [idx]
              pending := Function.update s.pending w false }
          else none
      | _ => none

/-- What one step does. -/
inductive Moves (o : Tournament) (samples : Nat → List α) (s : State α) : Action → State α → Prop
  | ended (w : Nat) (t : Tournament.State)
      (ht : Tournament.step o (.endGame w) s.tournament = some t) :
      Moves o samples s (.act (.endGame w))
        { s with
          tournament := t
          pending := Function.update s.pending w
            ((s.tournament.phase w).game.any fun g => o.saves g.2) }
  | other (a : Tournament.Action) (t : Tournament.State) (ha : ∀ w, a ≠ .endGame w)
      (hresult : ∀ w, a = .addResult w → s.pending w = false)
      (ht : Tournament.step o a s.tournament = some t) :
      Moves o samples s (.act a) { s with tournament := t }
  | exported (w : Nat) (job : Job) (idx : Nat) (hw : s.tournament.phase w = .saving job idx [])
      (hpending : s.pending w = true) :
      Moves o samples s (.exportSamples w)
        { s with
          file := s.file ++ samples idx
          exported := s.exported ++ [idx]
          pending := Function.update s.pending w false }

variable {o : Tournament} {q : JobQueue} {samples : Nat → List α} {s s' : State α} {a : Action}
  {schedule before : List Action} {w : Nat}

theorem moves_of_step (h : step o samples a s = some s') : Moves o samples s a s' := by
  cases a with
  | act a =>
      rw [step, Option.ite_none_left_eq_some] at h
      obtain ⟨hblocks, h⟩ := h
      obtain ⟨t, ht, rfl⟩ := Option.map_eq_some_iff.mp h
      cases a with
      | endGame w => exact .ended w t ht
      | addResult w =>
          refine .other _ t nofun ?_ ht
          rintro w' ⟨⟩
          exact Bool.eq_false_iff.mpr hblocks
      | pop | setName | push | stop | goOn | poll => exact .other _ t nofun nofun ht
  | exportSamples w =>
      simp only [step] at h
      split at h
      case h_1 job idx hw =>
        rw [Option.ite_none_right_eq_some] at h
        obtain ⟨hpending, h⟩ := h
        cases h
        exact .exported w job idx hw hpending
      case h_2 => cases h

/-- The file has no influence on the tournament but that a result comes later.  So what
holds of all runs of a tournament holds here as well. -/
theorem simulates_tournament (o : Tournament) (samples : Nat → List α) :
    Simulates (step o samples) (Tournament.step o) State.tournament := by
  intro a s s' h
  cases moves_of_step h with
  | ended _ _ ht | other _ _ _ _ ht => exact ⟨[_], runs_singleton.trans ht⟩
  | exported => exact ⟨[], rfl⟩

theorem tournament_runs (hruns : runs (step o samples) schedule (start q) = some s) :
    ∃ schedule', runs (Tournament.step o) schedule' (Tournament.start q) = some s.tournament :=
  runs_of_simulates (simulates_tournament o samples) hruns

/-- A worker is done with the game, up to the samples and the result.  The record of the
game may be on its way to the other files. -/
def Saves (t : Tournament.State) (w idx : Nat) : Prop :=
  ∃ job files, t.phase w = .saving job idx files

/-- **The invariant of the file**: what it has to do with the phases of the workers.  The
field `finished` alone would be enough at the end, but it is not kept by a step by itself:
between the end of a game and its result, `pending` tells whether its samples are in the
file already, and this is what keeps a game from being written twice or not at all. -/
structure Collected (o : Tournament) (samples : Nat → List α) (s : State α) : Prop where
  file : s.file = s.exported.flatMap samples
  nodup : s.exported.Nodup
  pending : ∀ w idx, Saves s.tournament w idx →
    (s.pending w = true ↔ o.saves idx = true ∧ idx ∉ s.exported)
  finished : ∀ idx ∈ s.tournament.finished, o.saves idx = true → idx ∈ s.exported
  exported : ∀ idx ∈ s.exported, o.saves idx = true ∧
    (idx ∈ s.tournament.finished ∨ ∃ w, Saves s.tournament w idx)

theorem Collected.start (o : Tournament) (samples : Nat → List α) (q : JobQueue) :
    Collected o samples (start q) where
  file := rfl
  nodup := List.nodup_nil
  pending _ _ h := by
    obtain ⟨job, files, hw⟩ := h
    cases hw
  finished _ h := by cases h
  exported _ h := by cases h

/-- A worker that saves a game holds it. -/
theorem game_of_saves {t : Tournament.State} {idx : Nat} (h : Saves t w idx) :
    ∃ job, (t.phase w).game = some (job, idx) := by
  obtain ⟨job, files, hw⟩ := h
  exact ⟨job, by rw [hw]; rfl⟩

theorem saves_setPhase_of_ne {t t₀ : Tournament.State} {p : Tournament.Phase} {w' idx : Nat}
    (hphase : t.phase = t₀.phase) (hne : w' ≠ w) :
    Saves (t.setPhase w p) w' idx ↔ Saves t₀ w' idx := by
  unfold Saves
  rw [Tournament.setPhase_phase_of_ne hne, hphase]

/-- A worker has gone on from a phase in which it saved nothing to another such one. -/
theorem saves_setPhase {t t₀ : Tournament.State} {p : Tournament.Phase}
    (hphase : t.phase = t₀.phase) (hold : ∀ idx, ¬ Saves t₀ w idx)
    (hnew : ∀ job idx files, p ≠ .saving job idx files) (w' idx : Nat) :
    Saves (t.setPhase w p) w' idx ↔ Saves t₀ w' idx := by
  rcases eq_or_ne w' w with rfl | hne
  · refine iff_of_false ?_ (hold idx)
    rintro ⟨job, files, hw⟩
    rw [Tournament.setPhase_phase_self] at hw
    exact hnew job idx files hw
  · exact saves_setPhase_of_ne hphase hne

/-- A step after which the same workers save the same games. -/
theorem Collected.same (h : Collected o samples s) {t : Tournament.State}
    (hsaves : ∀ w idx, Saves t w idx ↔ Saves s.tournament w idx)
    (hfinished : t.finished = s.tournament.finished) :
    Collected o samples { s with tournament := t } where
  file := h.file
  nodup := h.nodup
  pending w idx hw := h.pending w idx ((hsaves w idx).mp hw)
  finished idx hidx := h.finished idx (hfinished ▸ hidx)
  exported idx hidx := by
    obtain ⟨hsaved, hwhere⟩ := h.exported idx hidx
    refine ⟨hsaved, hwhere.imp (fun hmem => ?_) (Exists.imp fun w hw => (hsaves w idx).mpr hw)⟩
    exact hfinished.symm ▸ hmem

theorem not_saves {t : Tournament.State} (h : ∀ job idx files, t.phase w ≠ .saving job idx files)
    (idx : Nat) : ¬ Saves t w idx := by
  rintro ⟨job, files, hw⟩
  exact h job idx files hw

/-- A game has been played. -/
theorem Collected.ended (h : Collected o samples s) (hbooks : Tournament.Books s.tournament)
    {job : Job} {idx : Nat} (hw : s.tournament.phase w = .playing job idx) :
    Collected o samples { s with
      tournament := s.tournament.setPhase w (.saving job idx (o.filesOf idx))
      pending := Function.update s.pending w (o.saves idx) } := by
  have hgame : (s.tournament.phase w).game = some (job, idx) := by
    rw [hw]
    rfl
  have hidle : ∀ i, ¬ Saves s.tournament w i := not_saves fun _ _ _ hsaving => by
    rw [hw] at hsaving
    cases hsaving
  have hnew : idx ∉ s.exported := by
    intro hmem
    rcases (h.exported idx hmem).2 with hfinished | ⟨w', hw'⟩
    · exact (hbooks.held w _ hgame).2 hfinished
    · obtain ⟨job', hgame'⟩ := game_of_saves hw'
      rw [hbooks.alone w' w _ _ hgame' hgame rfl] at hw'
      exact hidle idx hw'
  refine ⟨h.file, h.nodup, ?_, h.finished, ?_⟩
  · intro w' i hsaves
    rcases eq_or_ne w' w with rfl | hne
    · obtain ⟨job', files, hphase⟩ := hsaves
      rw [Tournament.setPhase_phase_self] at hphase
      cases hphase
      change Function.update s.pending w' (o.saves idx) w' = true ↔ _
      rw [Function.update_self, and_iff_left hnew]
    · change Function.update s.pending w (o.saves idx) w' = true ↔ _
      rw [Function.update_of_ne hne]
      exact h.pending w' i ((saves_setPhase_of_ne rfl hne).mp hsaves)
  · intro i hi
    obtain ⟨hsaved, hwhere⟩ := h.exported i hi
    refine ⟨hsaved, hwhere.imp_right (Exists.imp fun w' hw' => ?_)⟩
    have hne : w' ≠ w := by
      rintro rfl
      exact hidle i hw'
    exact (saves_setPhase_of_ne rfl hne).mpr hw'

/-- The result of a game has been added, after its samples. -/
theorem Collected.added (h : Collected o samples s)
    {job : Job} {idx : Nat} (hw : s.tournament.phase w = .saving job idx [])
    (hpending : s.pending w = false) {session : Session} {p : Tournament.Phase}
    (hp : ∀ job idx files, p ≠ .saving job idx files) :
    Collected o samples { s with
      tournament := { s.tournament with
        session := session, finished := s.tournament.finished ++ [idx] }.setPhase w p } := by
  have hsaves : Saves s.tournament w idx := ⟨job, [], hw⟩
  have hdone : ¬ (o.saves idx = true ∧ idx ∉ s.exported) := by
    rw [← h.pending w idx hsaves, hpending]
    exact Bool.false_ne_true
  refine ⟨h.file, h.nodup, ?_, ?_, ?_⟩
  · intro w' i hw'
    have hne : w' ≠ w := by
      rintro rfl
      obtain ⟨job', files, hphase⟩ := hw'
      rw [Tournament.setPhase_phase_self] at hphase
      exact hp job' i files hphase
    exact h.pending w' i ((saves_setPhase_of_ne rfl hne).mp hw')
  · intro i hi hsaved
    rcases List.mem_append.mp hi with hi | hi
    · exact h.finished i hi hsaved
    · obtain rfl := List.mem_singleton.mp hi
      by_contra hmem
      exact hdone ⟨hsaved, hmem⟩
  · intro i hi
    obtain ⟨hsaved, hwhere⟩ := h.exported i hi
    refine ⟨hsaved, ?_⟩
    rcases hwhere with hmem | ⟨w', hw'⟩
    · exact Or.inl (List.mem_append_left _ hmem)
    · rcases eq_or_ne w' w with rfl | hne
      · obtain ⟨job', files, hphase⟩ := hw'
        rw [hw] at hphase
        cases hphase
        exact Or.inl (List.mem_append_right _ (.head _))
      · exact Or.inr ⟨w', (saves_setPhase_of_ne rfl hne).mpr hw'⟩

/-- The samples of a game have been written. -/
theorem Collected.wrote (h : Collected o samples s) (hbooks : Tournament.Books s.tournament)
    {job : Job} {idx : Nat} (hw : s.tournament.phase w = .saving job idx [])
    (hpending : s.pending w = true) :
    Collected o samples { s with
      file := s.file ++ samples idx
      exported := s.exported ++ [idx]
      pending := Function.update s.pending w false } := by
  have hsaves : Saves s.tournament w idx := ⟨job, [], hw⟩
  obtain ⟨hsaved, hnew⟩ := (h.pending w idx hsaves).mp hpending
  refine ⟨?_, ?_, ?_, ?_, ?_⟩
  · rw [List.flatMap_append, List.flatMap_singleton, ← h.file]
  · refine List.nodup_append.mpr ⟨h.nodup, List.nodup_singleton idx, ?_⟩
    intro i hi j hj heq
    rw [List.mem_singleton.mp hj] at heq
    exact hnew (heq ▸ hi)
  · intro w' i hw'
    rw [List.mem_append, List.mem_singleton]
    rcases eq_or_ne w' w with rfl | hne
    · obtain ⟨job', files, hphase⟩ := hw'
      rw [hw] at hphase
      cases hphase
      refine iff_of_false ?_ fun hall => hall.2 (Or.inr rfl)
      change ¬ Function.update s.pending w' false w' = true
      rw [Function.update_self]
      exact Bool.false_ne_true
    · have hother : i ≠ idx := by
        rintro rfl
        obtain ⟨job', hgame'⟩ := game_of_saves hw'
        obtain ⟨job'', hgame⟩ := game_of_saves hsaves
        exact hne (hbooks.alone w' w _ _ hgame' hgame rfl)
      change Function.update s.pending w false w' = true ↔ _
      rw [Function.update_of_ne hne, h.pending w' i hw']
      exact and_congr_right fun _ => not_congr (by rw [or_iff_left hother])
  · exact fun i hi hsavedi => List.mem_append_left _ (h.finished i hi hsavedi)
  · intro i hi
    rcases List.mem_append.mp hi with hi | hi
    · exact h.exported i hi
    · rw [List.mem_singleton.mp hi]
      exact ⟨hsaved, Or.inr ⟨w, hsaves⟩⟩

/-- **One step keeps the file in order.** That a game is held by one worker at most comes
from the books of the tournament. -/
theorem Collected.moves (h : Collected o samples s) (hbooks : Tournament.Books s.tournament)
    (hmoves : Moves o samples s a s') : Collected o samples s' := by
  cases hmoves with
  | exported w job idx hw hpending => exact h.wrote hbooks hw hpending
  | ended w t ht =>
      cases Tournament.moves_of_step ht with
      | ended _ job idx hw =>
          have hended := h.ended hbooks hw
          rwa [hw]
  | other a t ha hresult ht =>
      have hidle : ∀ {w : Nat} {p : Tournament.Phase}, s.tournament.phase w = p →
          (∀ job idx files, p ≠ .saving job idx files) → ∀ idx, ¬ Saves s.tournament w idx :=
        fun hw hp => not_saves (hw ▸ hp)
      cases Tournament.moves_of_step ht with
      | popped w hw hidx session hlogs =>
          exact h.same (saves_setPhase rfl (hidle hw nofun) nofun) rfl
      | refused w hw hidx session hlogs =>
          exact h.same (saves_setPhase rfl (hidle hw nofun) nofun) rfl
      | named w ei name session hlogs => exact h.same (fun _ _ => Iff.rfl) rfl
      | ended w job idx hw => exact absurd rfl (ha w)
      | pushed w job idx f files hw writer hwriter =>
          refine h.same (fun w' i => ?_) rfl
          rcases eq_or_ne w' w with rfl | hne
          · unfold Saves
            rw [Tournament.setPhase_phase_self, hw]
            constructor
            · rintro ⟨job', files', ⟨⟩⟩
              exact ⟨job, _, rfl⟩
            · rintro ⟨job', files', ⟨⟩⟩
              exact ⟨job, _, rfl⟩
          · exact saves_setPhase_of_ne rfl hne
      | added w job idx hw session wldCount hlogs =>
          exact h.added hw (hresult w rfl) nofun
      | stopped w wldCount hw session hlogs =>
          exact h.same (saves_setPhase rfl (hidle hw nofun) nofun) rfl
      | wentOn w wldCount hw =>
          exact h.same (saves_setPhase rfl (hidle hw nofun) nofun) rfl
      | polled hsupervising session hlogs => exact h.same (fun _ _ => Iff.rfl) rfl

/-- **In every interleaving** the file is in order.  By induction on the run. -/
theorem collected_runs (hfresh : q.Fresh)
    (hruns : runs (step o samples) schedule (start q) = some s) : Collected o samples s := by
  refine invariant_along (fun _ => Collected o samples) (Collected.start o samples q) ?_ hruns
  intro done r a r' hr hcollected hstep
  obtain ⟨steps, hsteps⟩ := tournament_runs hr
  exact hcollected.moves (Tournament.books_runs hfresh hsteps) (moves_of_step hstep)

/-- **The file.** When no worker has a game in its hands, the samples of all games that are
saved stand in the file, each game in one piece.  Their order is that of the calls of
`export_samples`. -/
theorem sampleFile_runs (hfresh : q.Fresh)
    (hruns : runs (step o samples) schedule (start q) = some s)
    (hidle : ∀ w, (s.tournament.phase w).game = none) :
    s.exported.Perm ((List.range s.tournament.started).filter o.saves) ∧
      s.file = s.exported.flatMap samples := by
  obtain ⟨steps, hsteps⟩ := tournament_runs hruns
  have hcollected := collected_runs hfresh hruns
  have hfinished := (Tournament.books_runs hfresh hsteps).finished_perm
    (Tournament.tracks_runs hfresh hsteps) hidle
  refine ⟨?_, hcollected.file⟩
  refine (List.perm_ext_iff_of_nodup hcollected.nodup (List.nodup_range.filter _)).mpr fun i => ?_
  rw [List.mem_filter, ← hfinished.mem_iff]
  constructor
  · intro hi
    obtain ⟨hsaved, hwhere⟩ := hcollected.exported i hi
    refine ⟨hwhere.resolve_right ?_, hsaved⟩
    rintro ⟨w, hw⟩
    obtain ⟨job, hgame⟩ := game_of_saves hw
    rw [hidle w] at hgame
    cases hgame
  · rintro ⟨hi, hsaved⟩
    exact hcollected.finished i hi hsaved

/-- The games that are saved have been played from their openings on boards of one size.
Nothing is asked of the games that are not saved. -/
def PlaysSampled (o : Tournament) (q : JobQueue) (size : Nat) (openings games : Nat → Game) :
    Prop :=
  ∀ idx < q.jobs.length, o.saves idx = true → ∃ (m : Match) (final : PlayState),
    m.Loads (openings idx) ∧ m.options.boardSize = size ∧
      m.play (openings idx) = some (.returned (o.outcome idx) final) ∧ final.game = games idx

/-- The samples in the file are those of saved games. -/
theorem lt_of_exported {idx : Nat} (hfresh : q.Fresh)
    (hruns : runs (step o samples) schedule (start q) = some s)
    (hidle : ∀ w, (s.tournament.phase w).game = none) (hidx : idx ∈ s.exported) :
    idx < q.jobs.length ∧ o.saves idx = true := by
  obtain ⟨steps, hsteps⟩ := tournament_runs hruns
  have hperm := (sampleFile_runs hfresh hruns hidle).1
  obtain ⟨hstarted, hsaved⟩ := List.mem_filter.mp (hperm.mem_iff.mp hidx)
  exact ⟨(List.mem_range.mp hstarted).trans_le
    (Tournament.tracks_runs hfresh hsteps).length_handedOut_le, hsaved⟩

/-- A game whose samples are in the file has been recorded. -/
theorem recorded_of_exported {openings games : Nat → Game} {size idx : Nat} (hfresh : q.Fresh)
    (hplays : PlaysSampled o q size openings games)
    (hruns : runs (step o samples) schedule (start q) = some s)
    (hidle : ∀ w, (s.tournament.phase w).game = none) (hidx : idx ∈ s.exported) :
    ∃ (m : Match) (cells : List (Int × Int)) (moves plies : List Nat),
      m.options.boardSize = size ∧
        Match.Recorded m (openings idx) (o.outcome idx) (games idx) cells moves plies := by
  obtain ⟨hlt, hsaved⟩ := lt_of_exported hfresh hruns hidle hidx
  obtain ⟨m, final, hloads, hsize, hplay, hgame⟩ := hplays idx hlt hsaved
  obtain ⟨cells, moves, plies, hrecorded⟩ := Match.recorded_of_returned hloads hplay
  exact ⟨m, cells, moves, plies, hsize, hgame ▸ hrecorded⟩

/-- **The text format.**  When no worker has a game in its hands, whatever the interleaving
has been, the file is read as the samples of the saved games, each game once: the samples
of each in their order, with the position, the move and the result.  The games come in the
order in which the workers have called `export_samples` (`exported`), which need not be
that of the jobs. -/
theorem csv_runs {engines rounds n size : Nat} {gauntlet : Bool} {openings games : Nat → Game}
    {s : State Char} (hplays : PlaysSampled o (new engines rounds n gauntlet) size openings games)
    (hruns : runs (step o fun idx => (games idx).exportSamplesCsv) schedule
      (start (new engines rounds n gauntlet)) = some s)
    (hidle : ∀ w, (s.tournament.phase w).game = none) :
    s.exported.Perm ((List.range s.tournament.started).filter o.saves) ∧
      readCsv size s.file =
        some (s.exported.flatMap fun idx => (games idx).samples.map csvRecordOf) := by
  have hfresh := new_fresh engines rounds n gauntlet
  obtain ⟨hperm, hfile⟩ := sampleFile_runs hfresh hruns hidle
  refine ⟨hperm, ?_⟩
  have hrecorded : ∀ idx ∈ s.exported, ∀ sample ∈ (games idx).samples,
      readCsvRow size (csvFields sample) = some (csvRecordOf sample) ∧
        ∀ x ∈ csvFields sample, ∀ c ∈ x, InField c := by
    intro idx hidx sample hsample
    obtain ⟨m, cells, moves, plies, rfl, hgame⟩ :=
      recorded_of_exported hfresh hplays hruns hidle hidx
    exact ⟨hgame.readCsvRow_csvFields hsample, hgame.inField hsample⟩
  have htext : s.file = Separated.write ',' '\n'
      ((s.exported.flatMap fun idx => (games idx).samples).map csvFields) := by
    rw [hfile, Separated.write, List.flatMap_map, List.flatMap_assoc]
    refine List.flatMap_congr fun idx hidx => ?_
    obtain ⟨m, cells, moves, plies, -, hgame⟩ :=
      recorded_of_exported hfresh hplays hruns hidle hidx
    rw [hgame.exportSamplesCsv_eq, Separated.write, List.flatMap_map]
  have hmem : ∀ sample ∈ s.exported.flatMap fun idx => (games idx).samples,
      readCsvRow size (csvFields sample) = some (csvRecordOf sample) ∧
        ∀ x ∈ csvFields sample, ∀ c ∈ x, InField c := by
    intro sample hsample
    obtain ⟨idx, hidx, hsample⟩ := List.mem_flatMap.mp hsample
    exact hrecorded idx hidx sample hsample
  have hread : Separated.read ',' '\n' s.file =
      (s.exported.flatMap fun idx => (games idx).samples).map csvFields := by
    rw [htext]
    refine Separated.read_write (by decide) ?_ ?_
    · intro row hrow
      obtain ⟨sample, -, rfl⟩ := List.mem_map.mp hrow
      exact List.cons_ne_nil _ _
    · intro row hrow x hx
      obtain ⟨sample, hsample, rfl⟩ := List.mem_map.mp hrow
      have hfield := (hmem sample hsample).2 x hx
      exact ⟨fun hmark => (hfield _ hmark).ne.1 rfl, fun hmark => (hfield _ hmark).ne.2.1 rfl⟩
  have hrows : ∀ row ∈ (s.exported.flatMap fun idx => (games idx).samples),
      (readCsvRow size ∘ csvFields) row = some (csvRecordOf row) :=
    fun sample hsample => (hmem sample hsample).1
  rw [readCsv, hread, List.mapM_map, mapM_of_forall hrows, List.map_flatMap]

/-- A tournament whose games all end alike. -/
def sameGames (result : Result) : Tournament :=
  { Tournament.friendly with outcome := fun _ => result }

/-- Two workers play the two games, and the one with the second game writes first. -/
def playsTwo : List Action :=
  [.act (.pop 0), .act (.pop 1), .act (.endGame 0), .act (.endGame 1), .exportSamples 1,
    .exportSamples 0, .act (.addResult 0), .act (.addResult 1)]

/-- The empty opening of the games. -/
def emptyOpening : Game := Game.ofOpening [] (Match.sampledMatch 2).options

/-- A game of two moves, of which both are sampled. -/
theorem exists_twoSamples : ∃ (result : Result) (final : PlayState),
    final.game.samples.length = 2 ∧
      PlaysSampled (sameGames result) (new 2 1 2 false) 15 (fun _ => emptyOpening)
        fun _ => final.game := by
  have hloads : (Match.sampledMatch 2).Loads emptyOpening :=
    Match.loads_ofOpening (by decide) (by decide)
  have hlength : ((Match.sampledMatch 2).samplesAtEnd emptyOpening).length = 2 := by
    decide +kernel
  obtain ⟨result, final, hplay, hsamples⟩ :=
    Match.exists_returned (List.ne_nil_of_length_pos (hlength ▸ Nat.two_pos))
  rw [← hsamples] at hlength
  exact ⟨result, final, hlength, fun _ _ _ => ⟨_, final, hloads, rfl, hplay, rfl⟩⟩

/-- The run of the two workers. -/
theorem exists_playsTwo {α : Type} (samples : Nat → List α) (result : Result) :
    ∃ s, runs (step (sameGames result) samples) playsTwo (start (new 2 1 2 false)) = some s ∧
      (∀ w, (s.tournament.phase w).game = none) ∧ s.exported = [1, 0] := by
  refine ⟨_, rfl, fun w => ?_, rfl⟩
  cases w with
  | zero => rfl
  | succ w => cases w <;> rfl

theorem csv_runs_two : ∃ (games : Nat → Game) (result : Result) (s : State Char),
    runs (step (sameGames result) fun idx => (games idx).exportSamplesCsv) playsTwo
        (start (new 2 1 2 false)) = some s ∧
      ∃ records, readCsv 15 s.file = some records ∧ records.length = 4 := by
  obtain ⟨result, final, hlength, hplays⟩ := exists_twoSamples
  obtain ⟨s, hs, hidle, hexported⟩ :=
    exists_playsTwo (fun _ => final.game.exportSamplesCsv) result
  obtain ⟨-, hread⟩ := csv_runs hplays hs hidle
  rw [hexported] at hread
  refine ⟨fun _ => final.game, result, s, hs, _, hread, ?_⟩
  simp only [List.flatMap_cons, List.flatMap_nil, List.length_append, List.length_map,
    List.length_nil, hlength]

/-- **The binary format.**  The same holds of the entries, when all openings consist of
distinct cells: an entry has nine bits for the number of its moves, which the cells of the
board bound as long as no cell is named twice. -/
theorem bin_runs {engines rounds n size : Nat} {gauntlet : Bool} {openings games : Nat → Game}
    {s : State UInt8} (hplays : PlaysSampled o (new engines rounds n gauntlet) size openings games)
    (hsize : 5 ≤ size)
    (hdistinct : ∀ idx < (new engines rounds n gauntlet).jobs.length, o.saves idx = true →
      ((openings idx).pos 0).historyCells.Nodup)
    (hruns : runs (step o fun idx => (games idx).exportSamplesBin.flatten) schedule
      (start (new engines rounds n gauntlet)) = some s)
    (hidle : ∀ w, (s.tournament.phase w).game = none) :
    s.exported.Perm ((List.range s.tournament.started).filter o.saves) ∧
      ∃ entries : List BinEntry, readBin s.file = some entries ∧
        entries.map BinEntry.record = s.exported.flatMap fun idx =>
          (games idx).samples.map (recordOf (games idx).gameRule) := by
  have hfresh := new_fresh engines rounds n gauntlet
  obtain ⟨hperm, hfile⟩ := sampleFile_runs hfresh hruns hidle
  have hstorable : ∀ idx ∈ s.exported, ∀ sample ∈ (games idx).samples, Storable sample := by
    intro idx hidx sample hsample
    obtain ⟨m, cells, moves, plies, rfl, hgame⟩ :=
      recorded_of_exported hfresh hplays hruns hidle hidx
    obtain ⟨hlt, hsaved⟩ := lt_of_exported hfresh hruns hidle hidx
    have hnodup := hdistinct idx hlt hsaved
    rw [hgame.opening.moves] at hnodup
    exact hgame.storable hsize hnodup hsample
  refine ⟨hperm, s.exported.flatMap fun idx =>
    (games idx).samples.map (binEntry (games idx).gameRule), ?_, ?_⟩
  · have htext : s.file = (s.exported.flatMap fun idx =>
        (games idx).samples.map (binEntry (games idx).gameRule)).flatMap BinEntry.bytes := by
      rw [hfile, List.flatMap_assoc]
      refine List.flatMap_congr fun idx _ => ?_
      rw [List.flatMap_map]
      rfl
    rw [htext]
    refine readBin_bytes fun e he => ?_
    obtain ⟨idx, hidx, he⟩ := List.mem_flatMap.mp he
    obtain ⟨sample, hsample, rfl⟩ := List.mem_map.mp he
    exact (hstorable idx hidx sample hsample).wellFormed
  · rw [List.map_flatMap]
    refine List.flatMap_congr fun idx hidx => ?_
    rw [List.map_map]
    exact List.map_congr_left fun sample hsample => (hstorable idx hidx sample hsample).record

theorem bin_runs_two : ∃ (games : Nat → Game) (result : Result) (s : State UInt8),
    runs (step (sameGames result) fun idx => (games idx).exportSamplesBin.flatten) playsTwo
        (start (new 2 1 2 false)) = some s ∧
      ∃ entries, readBin s.file = some entries ∧ entries.length = 4 := by
  obtain ⟨result, final, hlength, hplays⟩ := exists_twoSamples
  obtain ⟨s, hs, hidle, hexported⟩ :=
    exists_playsTwo (fun _ => final.game.exportSamplesBin.flatten) result
  obtain ⟨-, entries, hread, hrecords⟩ :=
    bin_runs hplays (by decide) (fun _ _ _ => (by decide : (emptyOpening.pos 0).historyCells.Nodup))
      hs hidle
  rw [hexported] at hrecords
  refine ⟨fun _ => final.game, result, s, hs, entries, hread, ?_⟩
  have hcount := congrArg List.length hrecords
  simpa only [List.flatMap_cons, List.flatMap_nil, List.length_append, List.length_map,
    List.length_nil, hlength] using hcount

end Sampling

end GomokuCli
