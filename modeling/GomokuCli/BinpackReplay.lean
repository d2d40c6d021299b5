import GomokuCli.BinpackRun

/-!
# Replaying a packed game

An entry is meant to be replayed: put the stones of its position and of its move
sequence on an empty board, one after the other.  `BinpackEntry.Packs` says that
the entry holds the game from the first sample to the last one with a head that
is right, and `BinpackEntry.Replays` that the replay is legal and meets every
sample.

The encoder alone gives the first as long as the head can count the stones.  The
second is a question of the opening: a replay never puts two stones on one cell.
-/

namespace GomokuCli

open Position

/-! ## Replays -/

/-- Put a stone of the side to move on a cell, if this is legal.  The colours of an entry
are those of the turns, since the format has no room for them. -/
def replayMove (P : Position) (c : Int × Int) : Option Position :=
  let m := buildMove c.1 c.2 P.playerToMove
  if P.isLegalMove m then some (P.move m) else none

/-- Put stones on the cells of an empty board, one after the other.  It is what a program
that reads the file has to do. -/
def replay (size : Nat) (cells : List (Int × Int)) : Option Position :=
  cells.foldlM replayMove (Position.new size)

section Replay

variable {size : Nat} {cells : List (Int × Int)} {c : Int × Int} {P Q : Position}

theorem replayMove_eq_some_iff :
    replayMove P c = some Q ↔ P.isLegalMove (buildMove c.1 c.2 P.playerToMove) = true ∧
      P.move (buildMove c.1 c.2 P.playerToMove) = Q := by
  simp only [replayMove, Option.ite_none_right_eq_some, Option.some.injEq]

theorem replay_append_singleton :
    replay size (cells ++ [c]) = (replay size cells).bind fun P => replayMove P c := by
  rw [replay, List.foldlM_append]
  simp [replay]

/-- A replay never puts two stones on one cell.  So an entry with a repeated cell cannot be
replayed, however it was written. -/
theorem follows_of_replay (hsize : size ≤ 22) (h : replay size cells = some Q) :
    Q.Follows size Q.historyCells ∧ Q.historyCells.Nodup := by
  induction cells using List.reverseRecOn generalizing Q with
  | nil =>
      have hfollows := initBoard_follows (Position.new size) hsize
      cases h
      have hempty : (Position.new size).historyCells = [] := by simp [historyCells, Position.new]
      rw [hempty]
      exact ⟨hfollows, List.nodup_nil⟩
  | append_singleton cells c ih =>
      rw [replay_append_singleton, Option.bind_eq_some_iff] at h
      obtain ⟨P, hP, hmove⟩ := h
      obtain ⟨hfollows, hnodup⟩ := ih hP
      obtain ⟨hlegal, rfl⟩ := replayMove_eq_some_iff.mp hmove
      obtain ⟨hin, hnew⟩ := (hfollows.isLegalMove_iff _).mp hlegal
      rw [historyCells_move]
      exact ⟨hfollows.move hin, List.Nodup.append hnodup (by simp) (by simpa using hnew)⟩

/-- **Distinct cells of the board can be replayed.** By induction from the end of the list,
with the position that the earlier cells lead to. -/
theorem exists_replay (hsize : size ≤ 22) (hin : ∀ c ∈ cells, InSquare size c)
    (hnodup : cells.Nodup) : ∃ Q, replay size cells = some Q ∧ Q.Follows size cells := by
  induction cells using List.reverseRecOn with
  | nil => exact ⟨_, rfl, initBoard_follows _ hsize⟩
  | append_singleton cells c ih =>
      rw [List.nodup_append] at hnodup
      obtain ⟨hnodup, -, hdisjoint⟩ := hnodup
      obtain ⟨P, hP, hfollows⟩ := ih (fun e he => hin e (List.mem_append_left _ he)) hnodup
      have hc : InSquare size c := hin c (by simp)
      have hnew : c ∉ cells := fun hmem => hdisjoint c hmem c (by simp) rfl
      have hcell : cellOf (posFromMove (buildMove c.1 c.2 P.playerToMove)) = c := by
        rw [cellOf_posFromMove_buildMove]
        exact wrappedCell_of_inSquare hsize hc
      have hlegal : P.isLegalMove (buildMove c.1 c.2 P.playerToMove) = true := by
        rw [hfollows.isLegalMove_iff, hcell]
        exact ⟨hc, hnew⟩
      refine ⟨P.move (buildMove c.1 c.2 P.playerToMove), ?_, ?_⟩
      · rw [replay_append_singleton, hP, Option.bind_some]
        exact replayMove_eq_some_iff.mpr ⟨hlegal, rfl⟩
      · have hmove := hfollows.move (m := buildMove c.1 c.2 P.playerToMove) (by rwa [hcell])
        rwa [hcell] at hmove

/-- Two positions of the same game have the same stones and the same turn.  What `play` has
built and what a replay builds need not be compared in any other way. -/
theorem Position.Follows.unique (hP : P.Follows size cells) (hQ : Q.Follows size cells) :
    Q.board = P.board ∧ Q.playerToMove = P.playerToMove ∧ Q.historyCells = P.historyCells := by
  refine ⟨?_, ?_, ?_⟩
  · funext p
    rw [hP.board, hQ.board]
  · rw [hP.turn, hQ.turn, hP.moveCount, hQ.moveCount]
  · rw [hP.moves, hQ.moves]

end Replay

/-! ## What an entry should be -/

/-- The entry holds the game from the position of the sample `first` to the move of the
sample `last`, and its head is right.  Nothing is said about the evaluations here. -/
structure BinpackEntry.Packs (e : BinpackEntry) (m : Match) (g : Game) (result : Result)
    (final : Game) (first last : Sample) : Prop where
  boardSize : e.head.boardSize.toNat = m.options.boardSize
  rule : e.head.rule.toNat = m.options.gameRule.code
  result : (e.head.result.toNat : Int) = Match.resultForSeat result
    (Match.engineOfColor (g.pos 0).playerToMove m.reverse first.pos.playerToMove)
  position : e.position.map readCell = first.pos.historyCells
  moves : (e.packedCells e.moveSequence.length).map readCell =
    last.pos.historyCells ++ [cellOf (posFromMove last.move)]
  played : (e.packedCells e.moveSequence.length).map readCell <+: final.position.historyCells
  initPly : e.head.initPly.toNat = e.position.length
  moveCount : e.head.moveCount.toNat = e.moveSequence.length
  totalPly : e.head.totalPly.toNat = e.position.length + e.moveSequence.length

/-- The replay of the entry meets the position of the sample: the same stones, the same side
to move, and the same history. -/
def BinpackEntry.Replays (e : BinpackEntry) (sample : Sample) : Prop :=
  ∃ k Q, k ≤ e.moveSequence.length ∧
    replay e.head.boardSize.toNat ((e.packedCells k).map readCell) = some Q ∧
    Q.board = sample.pos.board ∧ Q.playerToMove = sample.pos.playerToMove ∧
    Q.historyCells = sample.pos.historyCells

namespace Match

variable {m : Match} {g : Game} {result : Result} {final : Game} {cells : List (Int × Int)}
  {moves plies : List Nat} {first last : Sample} {rest : List Sample}

/-- A result fits its bit-field. -/
theorem toNat_resultForSeat (result : Result) (seat : Bool) :
    ((BitVec.ofInt 4 (resultForSeat result seat)).toNat : Int) = resultForSeat result seat := by
  cases result <;> cases seat <;> rfl

theorem code_toNat (rule : GameRule) : (BitVec.ofNat 3 rule.code).toNat = rule.code := by
  cases rule <;> rfl

/-- An entry whose head can count the stones is right.  The other fields of the head have
room for every value that they can be given. -/
theorem Written.packs {p : Packer}
    (hw : Written m final (cells ++ moveCells moves) first last p)
    (h : Recorded m g result final cells moves plies) (hcount : last.pos.moveCount + 1 < 1024) :
    p.entry.Packs m g result final first last := by
  have hsize := h.opening.size_le
  have hsfirst := h.chain.1 first hw.first_mem
  have hslast := h.chain.1 last hw.last_mem
  obtain ⟨hle, -⟩ := hw.between last hw.last_mem
  have hhead := hw.filled.head
  have hall : (p.entry.packedCells p.entry.moveSequence.length).map readCell =
      (cells ++ moveCells moves).take (last.pos.moveCount + 1) := by
    rw [hw.length_moveSequence]
    exact hw.readCells h (by omega) (by omega) (le_refl _)
  have hnext : (cells ++ moveCells moves).take (last.pos.moveCount + 1) =
      last.pos.historyCells ++ [cellOf (posFromMove last.move)] := by
    rw [List.take_add_one, hslast.move, hslast.follows.moves]
    rfl
  refine ⟨?_, ?_, ?_, ?_, hall.trans hnext, ?_, hw.wellFormed.initPly, hw.wellFormed.moveCount,
    ?_⟩
  · rw [Packer.entry_head, hhead]
    change (BitVec.ofNat 5 first.pos.boardSize).toNat = _
    rw [hsfirst.follows.boardSize, BitVec.toNat_ofNat, Nat.mod_eq_of_lt (by omega)]
  · rw [Packer.entry_head, hhead]
    exact code_toNat _
  · rw [Packer.entry_head, hhead]
    change ((BitVec.ofInt 4 first.result).toNat : Int) = _
    rw [h.result first hw.first_mem, toNat_resultForSeat]
  · have hfirst := hw.readCells h (by omega) (le_refl _) (by omega)
    rw [Nat.sub_self] at hfirst
    rw [hsfirst.follows.moves, ← hfirst, BinpackEntry.packedCells]
    simp
  · rw [hall, h.history (List.ne_nil_of_mem hw.first_mem)]
    exact List.take_prefix _ _
  · have hlast := hw.le_length
    rw [hw.length_position, hw.length_moveSequence, Packer.entry_head]
    change (BitVec.ofNat 10 (p.moveSequence.length + p.openingPosition.length)).toNat = _
    rw [hw.filled.length_moveSequence hlast, hw.filled.length_openingPosition (by omega),
      BitVec.toNat_ofNat]
    omega

/-- **When the entry is right**: the head can count the stones at the end.  The field has
ten bits, and an opening that names cells twice can have any number of stones. -/
theorem binpackPacks_iff {final : PlayState} (h : Loads m g)
    (hplay : m.play g = some (.returned result final))
    (hsamples : final.game.samples = first :: rest) (hlast : rest.getLast? = some last) :
    (∃ e, final.game.exportSamplesBinpack = [e.bytes] ∧ final.game.binpackEntries = some [e] ∧
      e.Packs m g result final.game first last) ↔ last.pos.moveCount + 1 < 1024 := by
  obtain ⟨cells, moves, plies, hrecorded⟩ := recorded_of_returned h hplay
  obtain ⟨p, hw⟩ := hrecorded.exists_written hsamples hlast
  constructor
  · rintro ⟨e, -, -, hpacks⟩
    -- the sum of the lengths is a value of the field
    have hlength := congrArg List.length hpacks.moves
    have htotal := hpacks.totalPly
    have hfield := e.head.totalPly.isLt
    rw [BinpackEntry.packedCells, List.take_length, List.length_map, List.length_append,
      List.length_map, List.length_append, length_historyCells, List.length_singleton] at hlength
    omega
  · intro hcount
    exact ⟨p.entry, hw.exported, hw.entries, hw.packs hrecorded hcount⟩

/-- A prefix of the game on distinct cells is replayed to the position of the sample.  The
sample is determined by these cells, so there is nothing else to compare. -/
theorem SampleOfCells.exists_replay {size opening : Nat} {C : List (Int × Int)} {sample : Sample}
    (h : SampleOfCells size C opening sample) (hnodup : C.Nodup) :
    ∃ Q, replay size (C.take sample.pos.moveCount) = some Q ∧ Q.board = sample.pos.board ∧
      Q.playerToMove = sample.pos.playerToMove ∧ Q.historyCells = sample.pos.historyCells := by
  have hcells : (C.take sample.pos.moveCount).Nodup := hnodup.sublist (List.take_sublist _ _)
  obtain ⟨Q, hQ, hfollows⟩ :=
    GomokuCli.exists_replay h.follows.size_le h.follows.inSquare hcells
  exact ⟨Q, hQ, h.follows.unique hfollows⟩

/-- **When the file is a faithful piece of the game**: the cells of the opening
are pairwise distinct.  Then the game has no more stones than the board has
cells, so the head can count them, and every prefix of it can be replayed. -/
theorem binpackFaithful_iff {final : PlayState} (h : Loads m g)
    (hplay : m.play g = some (.returned result final))
    (hsamples : final.game.samples = first :: rest) (hlast : rest.getLast? = some last) :
    (∃ e, final.game.exportSamplesBinpack = [e.bytes] ∧ final.game.binpackEntries = some [e] ∧
      e.Packs m g result final.game first last ∧
      ∀ sample ∈ final.game.samples, e.Replays sample) ↔ (g.pos 0).historyCells.Nodup := by
  obtain ⟨cells, moves, plies, hrecorded⟩ := recorded_of_returned h hplay
  obtain ⟨p, hw⟩ := hrecorded.exists_written hsamples hlast
  rw [hrecorded.opening.moves]
  constructor
  · rintro ⟨e, -, -, hpacks, hreplays⟩
    -- the opening is a part of what is replayed to the first sample
    obtain ⟨k, Q, -, hQ, -, -, hhistory⟩ := hreplays first hw.first_mem
    rw [hpacks.boardSize] at hQ
    obtain ⟨-, hnodup⟩ := follows_of_replay h.size_le hQ
    have hsample := hrecorded.chain.1 first hw.first_mem
    rw [hhistory, hsample.follows.moves] at hnodup
    refine hnodup.sublist (List.IsPrefix.sublist ?_)
    exact List.prefix_take_iff.mpr ⟨List.prefix_append cells _, hsample.opening_le⟩
  · intro hnodup
    have hall := hrecorded.opening.nodup_append hnodup hrecorded.legal
    let r : Record m.options.boardSize := ⟨cells ++ moveCells moves, hrecorded.inSquare, hall⟩
    have hlength : (cells ++ moveCells moves).length ≤ 484 :=
      r.length_le.trans (Nat.mul_le_mul h.size_le h.size_le)
    have hlt := (hrecorded.chain.1 last hw.last_mem).lt
    have hpacks := hw.packs hrecorded (by omega)
    refine ⟨p.entry, hw.exported, hw.entries, hpacks, fun sample hmem => ?_⟩
    obtain ⟨hle, hle'⟩ := hw.between sample hmem
    obtain ⟨Q, hQ, hsame⟩ := (hrecorded.chain.1 sample hmem).exists_replay hall
    refine ⟨sample.pos.moveCount - first.pos.moveCount, Q, ?_, ?_, hsame⟩
    · rw [hw.length_moveSequence]
      omega
    · rwa [hpacks.boardSize, hw.readCells hrecorded (by omega) hle (by omega)]

/-- Two samples from the empty board are a faithful piece of the game. -/
theorem binpackFaithful_two :
    ∃ result final first last,
      (sampledMatch 2).play (Game.ofOpening [] (sampledMatch 2).options) =
        some (.returned result final) ∧ final.game.samples = [first, last] ∧
      ∃ e, final.game.exportSamplesBinpack = [e.bytes] ∧
        final.game.binpackEntries = some [e] ∧
        e.Packs (sampledMatch 2) (Game.ofOpening [] (sampledMatch 2).options) result final.game
          first last ∧
        ∀ sample ∈ final.game.samples, e.Replays sample := by
  have hloads : Loads (sampledMatch 2) (Game.ofOpening [] (sampledMatch 2).options) :=
    loads_ofOpening (by decide) (by decide)
  have hlen : ((sampledMatch 2).samplesAtEnd
      (Game.ofOpening [] (sampledMatch 2).options)).length = 2 := by
    decide +kernel
  obtain ⟨first, last, htwo⟩ := List.length_eq_two.mp hlen
  obtain ⟨result, final, hplay, hsamples⟩ :=
    exists_returned (htwo.trans_ne (List.cons_ne_nil first [last]))
  rw [htwo] at hsamples
  exact ⟨result, final, first, last, hplay, hsamples,
    (binpackFaithful_iff hloads hplay hsamples rfl).mpr (by decide)⟩

/-- The centre of the board twice, in the notation of offsets. -/
def doubledLine : List Char := ['0', ',', '0', ',', '0', ',', '0']

/-- An opening that names a cell twice is written as it is, and the entry cannot
be replayed. -/
theorem binpackFaithful_doubled_fails :
    Loads (sampledMatch 4) (Game.ofOpening doubledLine (sampledMatch 4).options) ∧
    ∃ result final first last,
      (sampledMatch 4).play (Game.ofOpening doubledLine (sampledMatch 4).options) =
        some (.returned result final) ∧ final.game.samples = [first, last] ∧
      first.pos.historyCells = [(7, 7), (7, 7)] ∧
      ¬ ∃ e, final.game.exportSamplesBinpack = [e.bytes] ∧
        final.game.binpackEntries = some [e] ∧
        e.Packs (sampledMatch 4) (Game.ofOpening doubledLine (sampledMatch 4).options) result
          final.game first last ∧
        ∀ sample ∈ final.game.samples, e.Replays sample := by
  refine ⟨loads_ofOpening (by decide) (by decide), ?_⟩
  have hhistories : ((sampledMatch 4).samplesAtEnd
      (Game.ofOpening doubledLine (sampledMatch 4).options)).map (fun a => a.pos.historyCells) =
      [[(7, 7), (7, 7)], [(7, 7), (7, 7), (1, 1)]] := by
    decide +kernel
  have hlen := congrArg List.length hhistories
  rw [List.length_map] at hlen
  obtain ⟨first, last, htwo⟩ := List.length_eq_two.mp hlen
  obtain ⟨result, final, hplay, hsamples⟩ :=
    exists_returned (htwo.trans_ne (List.cons_ne_nil first [last]))
  rw [htwo] at hsamples hhistories
  simp only [List.map_cons, List.map_nil, List.cons.injEq] at hhistories
  obtain ⟨hhistory, -, -⟩ := hhistories
  refine ⟨result, final, first, last, hplay, hsamples, hhistory, ?_⟩
  rintro ⟨e, -, -, hpacks, hreplays⟩
  obtain ⟨k, Q, -, hQ, -, -, hsame⟩ := hreplays first (by simp [hsamples])
  rw [hpacks.boardSize] at hQ
  obtain ⟨-, hnodup⟩ := follows_of_replay (by decide) hQ
  rw [hsame, hhistory] at hnodup
  exact absurd hnodup (by decide)

end Match

end GomokuCli
