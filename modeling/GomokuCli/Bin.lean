import GomokuCli.BinpackRun

/-!
# The binary format of samples

`export_samples_bin` writes one entry for each sample: a head of four bytes and
then the cells of the position.  The head tells how many cells follow, so a file
is a sequence of entries without separators, and the entries of several games
may stand in it one behind the other.

The move of a sample is packed with the colour bits still on top of it.  They do
not reach the bits that a reader looks at.
-/

namespace GomokuCli

open BitFields Position

/-! ## The encoder -/

/-- `struct EntryHead` of `export_samples_bin`. -/
structure BinHead where
  result : BitVec 2
  ply : BitVec 9
  boardsize : BitVec 5
  rule : BitVec 3
  move : BitVec 13

/-- `struct Entry`. -/
structure BinEntry where
  head : BinHead
  position : List Nat

/-- The object representation of the head: two groups of sixteen bits. -/
def BinHead.bytes (h : BinHead) : List UInt8 :=
  littleEndian 4 (pack [(2, h.result.toNat), (9, h.ply.toNat), (5, h.boardsize.toNat),
    (3, h.rule.toNat), (13, h.move.toNat)])

/-- The object representation of an entry, as far as `entrySize` reaches.  The array behind
it is longer, and is not written to its end. -/
def BinEntry.bytes (e : BinEntry) : List UInt8 :=
  e.head.bytes ++ e.position.flatMap (littleEndian 2)

/-- `POS_RAW(CoordX(move), CoordY(move))`, without `PosFromMove`. -/
def packedMove (move : Nat) : Nat := posRaw (coordX move) (coordY move)

/-- The variable `e` filled in for a sample. -/
def binEntry (gameRule : GameRule) (sample : Sample) : BinEntry where
  head :=
    { boardsize := BitVec.ofNat 5 sample.pos.boardSize
      rule := BitVec.ofNat 3 gameRule.code
      ply := BitVec.ofNat 9 sample.pos.moveCount
      result := BitVec.ofInt 2 sample.result
      move := BitVec.ofNat 13 (packedMove sample.move) }
  position :=
    (List.range sample.pos.moveCount).map fun iMove =>
      packedCell (sample.pos.historyMoves iMove)

/-- `export_samples_bin` without compression: the buffers that are written.  There is one
for each sample, and nothing is carried from one sample to the next. -/
def Game.exportSamplesBin (g : Game) : List (List UInt8) :=
  g.samples.map fun sample => (binEntry g.gameRule sample).bytes

/-! ## The reader -/

/-- Read the head of an entry. -/
def readBinHead : Reader BinHead := fun stream =>
  (readWord 4 stream).map fun (n, stream) =>
    let f := unpack [2, 9, 5, 3, 13] n
    ({ result := BitVec.ofNat 2 (f.getD 0 0)
       ply := BitVec.ofNat 9 (f.getD 1 0)
       boardsize := BitVec.ofNat 5 (f.getD 2 0)
       rule := BitVec.ofNat 3 (f.getD 3 0)
       move := BitVec.ofNat 13 (f.getD 4 0) }, stream)

/-- Read one entry: the head tells how many cells follow. -/
def readBinEntry : Reader BinEntry := fun stream =>
  (readBinHead stream).bind fun (head, stream) =>
    (readMany (readWord 2) head.ply.toNat stream).map fun (position, stream) =>
      ({ head := head, position := position }, stream)

/-- Read a file of entries to its end.  Every entry takes at least its head, so there are
fewer of them than bytes. -/
def readBin (file : List UInt8) : Option (List BinEntry) :=
  readAll readBinEntry (file.length + 1) file

/-- What an entry tells about a sample. -/
structure BinRecord where
  size : Nat
  rule : Nat
  result : Int
  cells : List (Int × Int)
  move : Int × Int

/-- The documented meaning of an entry.  The bits above the ten of a cell do not belong to
it. -/
def BinEntry.record (e : BinEntry) : BinRecord where
  size := e.head.boardsize.toNat
  rule := e.head.rule.toNat
  result := e.head.result.toNat
  cells := e.position.map readCell
  move := readCell e.head.move.toNat

/-! ## What is written is read back -/

theorem reads_binHead (head : BinHead) : Reads readBinHead BinHead.bytes head := by
  intro rest
  have hlt := pack_lt [(2, head.result.toNat), (9, head.ply.toNat), (5, head.boardsize.toNat),
    (3, head.rule.toNat), (13, head.move.toNat)]
  have hfields := unpack_pack [(2, head.result.toNat), (9, head.ply.toNat),
    (5, head.boardsize.toNat), (3, head.rule.toNat), (13, head.move.toNat)]
  simp only [List.map_cons, List.map_nil, List.sum_cons, List.sum_nil] at hlt hfields
  rw [show (2 : ℕ) ^ (2 + (9 + (5 + (3 + (13 + 0))))) = 256 ^ 4 by norm_num] at hlt
  rw [readBinHead, BinHead.bytes, readWord_littleEndian, Nat.mod_eq_of_lt hlt]
  simp only [Option.map_some, hfields, List.getD_cons_zero, List.getD_cons_succ, ofNat_toNat_mod]

/-- The head of an entry gives the length of its position.  Without this a reader would take
what follows for a part of the entry, or a part of the entry for what follows. -/
structure BinEntry.WellFormed (e : BinEntry) : Prop where
  ply : e.head.ply.toNat = e.position.length
  position_lt : ∀ w ∈ e.position, w < 256 ^ 2

theorem BinEntry.WellFormed.reads {e : BinEntry} (h : e.WellFormed) :
    Reads readBinEntry BinEntry.bytes e := by
  intro rest
  have hposition : readMany (readWord 2) e.position.length
      (e.position.flatMap (littleEndian 2) ++ rest) = some (e.position, rest) :=
    readMany_flatMap (fun w hw => reads_word (h.position_lt w hw)) rest
  rw [readBinEntry, BinEntry.bytes, List.append_assoc, reads_binHead e.head]
  simp only [Option.bind_some, h.ply, hposition, Option.map_some]

/-- **A file of entries is read back**, with nothing left over.  The entries need no
separators, because each of them says how long it is. -/
theorem readBin_bytes {entries : List BinEntry} (h : ∀ e ∈ entries, e.WellFormed) :
    readBin (entries.flatMap BinEntry.bytes) = some entries := by
  refine readAll_flatMap_length (fun e he => (h e he).reads) fun e _ hnil => ?_
  have hlen := congrArg List.length hnil
  rw [BinEntry.bytes, List.length_append, BinHead.bytes, length_littleEndian,
    List.length_nil] at hlen
  omega

/-! ## What is written for a sample -/

/-- A sample that the format has room for.  Every sample of a game on distinct cells is one
(`Recorded.storable`), so these are no conditions on how the program is used. -/
structure Storable (sample : Sample) : Prop where
  five_le : 5 ≤ sample.pos.boardSize
  le_twentyTwo : sample.pos.boardSize ≤ 22
  inSquare : ∀ c ∈ sample.pos.historyCells, InSquare sample.pos.boardSize c
  moveCount_le : sample.pos.moveCount ≤ sample.pos.boardSize * sample.pos.boardSize
  move : InSquare sample.pos.boardSize (cellOf (posFromMove sample.move))
  result_nonneg : 0 ≤ sample.result
  result_le : sample.result ≤ 2

/-- What the sample is a record of. -/
def recordOf (gameRule : GameRule) (sample : Sample) : BinRecord where
  size := sample.pos.boardSize
  rule := gameRule.code
  result := sample.result
  cells := sample.pos.historyCells
  move := cellOf (posFromMove sample.move)

/-- Every field of the head holds the value that is assigned to it.  A bit-field that is too
narrow would drop the upper bits without a word. -/
structure Untruncated (gameRule : GameRule) (sample : Sample) (head : BinHead) : Prop where
  result : (head.result.toNat : Int) = sample.result
  ply : head.ply.toNat = sample.pos.moveCount
  boardsize : head.boardsize.toNat = sample.pos.boardSize
  rule : head.rule.toNat = gameRule.code
  move : head.move.toNat = packedMove sample.move

section Storable

variable {gameRule : GameRule} {sample : Sample}

/-- The packed move is at most 13 bits wide, and a reader finds the cell in its
lower ten bits. -/
theorem readCell_packedMove {size move : Nat} (hsize : size ≤ 22)
    (h : InSquare size (cellOf (posFromMove move))) :
    packedMove move < 2 ^ 13 ∧ readCell (packedMove move) = cellOf (posFromMove move) := by
  have hx := coordX_eq (posFromMove move)
  have hy := coordY_eq (posFromMove move)
  have hX := coordX_eq move
  have hY := coordY_eq move
  have hpos := posFromMove_eq move
  have hlt := uint8_lt (coordX move)
  obtain ⟨⟨hx0, hx1⟩, hy0, hy1⟩ := h
  simp only [cellOf] at hx0 hx1 hy0 hy1
  have hval : packedMove move = 32 * uint8 (coordX move) + (coordY (posFromMove move)).toNat := by
    rw [packedMove, posRaw_eq]
    simp only [uint8]
    omega
  constructor
  · rw [hval]
    omega
  · rw [hval, readCell_eq, cellOf, Prod.mk.injEq]
    simp only [uint8]
    omega

theorem Storable.moveCount_lt (h : Storable sample) : sample.pos.moveCount < 2 ^ 9 := by
  have hcount := h.moveCount_le
  have hsize : sample.pos.boardSize * sample.pos.boardSize ≤ 22 * 22 :=
    Nat.mul_le_mul h.le_twentyTwo h.le_twentyTwo
  omega

/-- The fields are wide enough.  The number of stones is the critical one: a full board of
size `22` has `484` of them, and the field counts to `511`. -/
theorem Storable.untruncated (h : Storable sample) :
    Untruncated gameRule sample (binEntry gameRule sample).head where
  result := by
    have hresult : sample.result = 0 ∨ sample.result = 1 ∨ sample.result = 2 := by
      have := h.result_nonneg
      have := h.result_le
      omega
    change ((BitVec.ofInt 2 sample.result).toNat : Int) = sample.result
    rcases hresult with heq | heq | heq <;> rw [heq] <;> rfl
  ply := by
    change (BitVec.ofNat 9 sample.pos.moveCount).toNat = _
    rw [BitVec.toNat_ofNat, Nat.mod_eq_of_lt h.moveCount_lt]
  boardsize := by
    have hsize := h.le_twentyTwo
    change (BitVec.ofNat 5 sample.pos.boardSize).toNat = _
    rw [BitVec.toNat_ofNat, Nat.mod_eq_of_lt (by omega)]
  rule := by cases gameRule <;> rfl
  move := by
    have hlt := (readCell_packedMove h.le_twentyTwo h.move).1
    change (BitVec.ofNat 13 (packedMove sample.move)).toNat = _
    rw [BitVec.toNat_ofNat, Nat.mod_eq_of_lt hlt]

theorem binEntry_position (gameRule : GameRule) (sample : Sample) :
    (binEntry gameRule sample).position = sample.pos.historyCells.map packCoord := by
  rw [historyCells, List.map_map]
  rfl

theorem Storable.wellFormed (h : Storable sample) : (binEntry gameRule sample).WellFormed where
  ply := by
    rw [h.untruncated.ply, binEntry_position, List.length_map, length_historyCells]
  position_lt := by
    rw [binEntry_position]
    intro w hw
    obtain ⟨c, hc, rfl⟩ := List.mem_map.mp hw
    exact (packCoord_lt h.le_twentyTwo (h.inSquare c hc)).trans (by norm_num)

/-- The entry of a sample means the sample.  This is where the colour bits on top of the
move are seen to do no harm. -/
theorem Storable.record (h : Storable sample) :
    (binEntry gameRule sample).record = recordOf gameRule sample := by
  have hhead : Untruncated gameRule sample (binEntry gameRule sample).head := h.untruncated
  rw [BinEntry.record, hhead.boardsize, hhead.rule, hhead.result, hhead.move,
    binEntry_position, map_readCell h.le_twentyTwo h.inSquare,
    (readCell_packedMove h.le_twentyTwo h.move).2]
  rfl

end Storable

/-! ## A file of samples -/

/-- The samples of some games, each with the rule of its game. -/
def ruledSamples (games : List Game) : List (GameRule × Sample) :=
  games.flatMap fun g => g.samples.map fun sample => (g.gameRule, sample)

/-- What some games write to a file. -/
def binFile (games : List Game) : List UInt8 :=
  (games.flatMap Game.exportSamplesBin).flatten

theorem binFile_eq (games : List Game) :
    binFile games =
      ((ruledSamples games).map fun rs => binEntry rs.1 rs.2).flatMap BinEntry.bytes := by
  have hbuffers : games.flatMap Game.exportSamplesBin =
      (ruledSamples games).map fun rs => (binEntry rs.1 rs.2).bytes := by
    rw [ruledSamples, List.map_flatMap]
    refine List.flatMap_congr fun g _ => ?_
    rw [List.map_map]
    rfl
  rw [binFile, hbuffers, List.flatMap_map]
  rfl

/-- **The samples of any number of games are read back**, in order and complete, and no
field of a head has lost a bit.  The games may have different sizes and rules, since every
entry has a head of its own. -/
theorem readBin_binFile {games : List Game}
    (h : ∀ g ∈ games, ∀ sample ∈ g.samples, Storable sample) :
    ∃ entries, readBin (binFile games) = some entries ∧
      entries.map BinEntry.record = (ruledSamples games).map (fun rs => recordOf rs.1 rs.2) ∧
      List.Forall₂ (fun rs e => Untruncated rs.1 rs.2 e.head) (ruledSamples games) entries := by
  have hstorable : ∀ rs ∈ ruledSamples games, Storable rs.2 := by
    intro rs hrs
    obtain ⟨g, hg, hrs⟩ := List.mem_flatMap.mp hrs
    obtain ⟨sample, hsample, rfl⟩ := List.mem_map.mp hrs
    exact h g hg sample hsample
  refine ⟨(ruledSamples games).map fun rs => binEntry rs.1 rs.2, ?_, ?_, ?_⟩
  · rw [binFile_eq]
    refine readBin_bytes fun e he => ?_
    obtain ⟨rs, hrs, rfl⟩ := List.mem_map.mp he
    exact (hstorable rs hrs).wellFormed
  · rw [List.map_map]
    exact List.map_congr_left fun rs hrs => (hstorable rs hrs).record
  · rw [List.forall₂_map_right_iff, List.forall₂_same]
    exact fun rs hrs => (hstorable rs hrs).untruncated

/-- A sample of the empty board. -/
def emptySample : Sample where
  pos := Position.new 15
  move := buildMove 7 7 .black
  result := 2
  eval := 0

/-- A sample with White to move. -/
def whiteSample : Sample where
  pos := (Position.new 22).move (buildMove 0 21 .black)
  move := buildMove 21 0 .white
  result := 1
  eval := 0

/-- Two games with one sample each. -/
def twoGames : List Game :=
  [{ Game.new with samples := [emptySample] },
    { Game.new with gameRule := .renju, samples := [whiteSample] }]

/-- The two samples come back in order, the colour of White's move is dropped. -/
theorem readBin_binFile_two :
    ∃ entries, readBin (binFile twoGames) = some entries ∧
      entries.map BinEntry.record =
        [⟨15, 0, 2, [], (7, 7)⟩, ⟨22, 4, 1, [(0, 21)], (21, 0)⟩] := by
  have hfirst : Storable emptySample :=
    ⟨by decide, by decide, by decide, by decide, by decide, by decide, by decide⟩
  have hsecond : Storable whiteSample :=
    ⟨by decide, by decide, by decide, by decide, by decide, by decide, by decide⟩
  have hall : ∀ g ∈ twoGames, ∀ sample ∈ g.samples, Storable sample := by
    intro g hg sample hsample
    rcases List.mem_pair.mp hg with rfl | rfl
    · exact List.mem_singleton.mp hsample ▸ hfirst
    · exact List.mem_singleton.mp hsample ▸ hsecond
  obtain ⟨entries, hread, hrecords, -⟩ := readBin_binFile hall
  exact ⟨entries, hread, hrecords⟩

namespace Match

/-- **The samples that `play` records can be stored**, when the game started on
distinct cells. -/
theorem Recorded.storable {m : Match} {g final : Game} {result : Result}
    {cells : List (Int × Int)} {moves plies : List Nat}
    (h : Recorded m g result final cells moves plies) (hfive : 5 ≤ m.options.boardSize)
    (hnodup : cells.Nodup) {sample : Sample} (hmem : sample ∈ final.samples) :
    Storable sample := by
  have hsample := h.chain.1 sample hmem
  have hsize := hsample.follows.boardSize
  have hmove := h.inSquare _ (List.mem_of_getElem? hsample.move)
  let r : Record m.options.boardSize :=
    ⟨cells ++ moveCells moves, h.inSquare, h.opening.nodup_append hnodup h.legal⟩
  have hlength : (cells ++ moveCells moves).length ≤
      m.options.boardSize * m.options.boardSize := r.length_le
  have hlt := hsample.lt
  have hresult := h.result sample hmem
  refine ⟨by omega, hsize ▸ h.opening.size_le, ?_, ?_, hsize.symm ▸ hmove, ?_, ?_⟩
  · rw [hsize, hsample.follows.moves]
    exact hsample.follows.inSquare
  · rw [hsize]
    omega
  · rw [hresult]
    cases result <;> cases engineOfColor _ _ _ <;> decide
  · rw [hresult]
    cases result <;> cases engineOfColor _ _ _ <;> decide

end Match

end GomokuCli
