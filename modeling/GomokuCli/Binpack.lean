import GomokuCli.Library.BitFields
import GomokuCli.Play

/-!
# The packed format of samples

`export_samples_binpack` turns the samples of a game into entries: the opening
position is the history of the first sample, and every further sample adds the
moves that lead to it and then its own move.  The first sample adds no move of
its own.

A bit-field holds a number of a fixed width, so it is a `BitVec` here and the
assignment to it is `BitVec.ofNat`.  What is written is the list of the buffers,
one for each entry; a compressed file passes each of them through LZ4.

The second half is the reader that the documentation of the format describes.
-/

namespace GomokuCli

open BitFields

/-! ## The encoder -/

/-- `struct EntryHead`. -/
structure EntryHead where
  boardSize : BitVec 5
  rule : BitVec 3
  result : BitVec 4
  totalPly : BitVec 10
  initPly : BitVec 10
  gameTag : BitVec 14
  moveCount : BitVec 18

/-- `struct Move`. -/
structure MoveRecord where
  isFirst : BitVec 1
  isLast : BitVec 1
  isNoEval : BitVec 1
  isPass : BitVec 1
  reserved : BitVec 2
  move : BitVec 10
  eval : BitVec 16

/-- The object representation of the head: its fields fill two words. -/
def EntryHead.bytes (h : EntryHead) : List UInt8 :=
  littleEndian 8 (pack [(5, h.boardSize.toNat), (3, h.rule.toNat), (4, h.result.toNat),
    (10, h.totalPly.toNat), (10, h.initPly.toNat), (14, h.gameTag.toNat),
    (18, h.moveCount.toNat)])

/-- The object representation of a move. -/
def MoveRecord.bytes (r : MoveRecord) : List UInt8 :=
  littleEndian 4 (pack [(1, r.isFirst.toNat), (1, r.isLast.toNat), (1, r.isNoEval.toNat),
    (1, r.isPass.toNat), (2, r.reserved.toNat), (10, r.move.toNat), (16, r.eval.toNat)])

/-- `POS_RAW(CoordX(p), CoordY(p))` for the cell `p` of a move.  Unlike in the other format
the colour is taken off first. -/
def packedCell (move : Nat) : Nat :=
  let p := posFromMove move
  posRaw (coordX p) (coordY p)

/-- A move as it is pushed to the move sequence. -/
def moveRecord (packed : Nat) (eval : Int) : MoveRecord where
  isFirst := 1
  isLast := 1
  isNoEval := 1
  isPass := 0
  reserved := 0
  move := BitVec.ofNat 10 packed
  eval := BitVec.ofInt 16 eval

/-- The local variables of `export_samples_binpack`, and what has been written.  The vectors
keep what does not fit a counter of the head. -/
structure Packer where
  head : EntryHead
  openingPosition : List Nat
  moveSequence : List MoveRecord
  written : List (List UInt8)

namespace Packer

/-- One of the loops of `getFollowingMoveIndex`.  It goes through the moves that the entry
already has and compares them with the history of the sample. -/
def followMoves (sample : Sample) : List Nat → Nat → Option Nat
  | [], index => some index
  | move :: moves, index =>
      if index ≥ sample.pos.moveCount then none
      else if move ≠ packedCell (sample.pos.historyMoves index) then none
      else followMoves sample moves (index + 1)

/-- `getFollowingMoveIndex`, with `none` for `-1`. -/
def getFollowingMoveIndex (p : Packer) (sample : Sample) : Option Nat :=
  (followMoves sample p.openingPosition 0).bind fun index =>
    followMoves sample (p.moveSequence.map fun m => m.move.toNat) index

/-- `flushEntry`.  The counters of the head are filled in here, each cut to its width, and
as much is written as they say. -/
def flushEntry (p : Packer) : Packer :=
  let head := { p.head with
    totalPly := BitVec.ofNat 10 (p.moveSequence.length + p.openingPosition.length)
    initPly := BitVec.ofNat 10 p.openingPosition.length
    moveCount := BitVec.ofNat 18 p.moveSequence.length }
  let entryBuffer := head.bytes ++
    (p.openingPosition.take head.initPly.toNat).flatMap (littleEndian 2) ++
    (p.moveSequence.take head.moveCount.toNat).flatMap MoveRecord.bytes
  { p with head := head, written := p.written ++ [entryBuffer] }

/-- `initEntry`. -/
def initEntry (gameRule : GameRule) (sample : Sample) (p : Packer) : Packer :=
  { p with
    head :=
      { boardSize := BitVec.ofNat 5 sample.pos.boardSize
        rule := BitVec.ofNat 3 gameRule.code
        result := BitVec.ofInt 4 sample.result
        totalPly := 0
        initPly := 0
        gameTag := 0
        moveCount := 0 }
    openingPosition :=
      (List.range sample.pos.moveCount).map fun i => packedCell (sample.pos.historyMoves i)
    moveSequence := [] }

/-- The body of the loop over the samples after the first one.  A sample that does not
follow the entry would begin a new one; in the samples of one game this never happens
(`Filled.addSample`). -/
def addSample (gameRule : GameRule) (firstEval : Int) (p : Packer) (sample : Sample) :
    Packer :=
  let totalply := sample.pos.moveCount
  let (p, index) := match p.getFollowingMoveIndex sample with
    | none => (initEntry gameRule sample p.flushEntry, totalply)
    | some index => (p, index)
  let skipped := (List.range (totalply - index)).map fun k =>
    moveRecord (packedCell (sample.pos.historyMoves (index + k)))
      (if index + k + 1 = totalply then firstEval else 0)
  { p with
    moveSequence := p.moveSequence ++ skipped ++ [moveRecord (packedCell sample.move) sample.eval] }

/-- Before the first entry.  The head is not initialised; nothing reads it. -/
def start : Packer where
  head := ⟨0, 0, 0, 0, 0, 0, 0⟩
  openingPosition := []
  moveSequence := []
  written := []

end Packer

/-- `export_samples_binpack`: the buffers that are written.  Without samples there is
nothing to write, and an entry without moves is not written either. -/
def Game.exportSamplesBinpack (g : Game) : List (List UInt8) :=
  match g.samples with
  | [] => []
  | first :: rest =>
      let p := rest.foldl (Packer.addSample g.gameRule first.eval)
        (Packer.initEntry g.gameRule first Packer.start)
      if p.moveSequence.length > 0 then p.flushEntry.written else p.written

/-! ## The reader -/

/-- `struct Entry` of the documentation. -/
structure BinpackEntry where
  head : EntryHead
  position : List Nat
  moveSequence : List MoveRecord

/-- The documented `CoordX` and `CoordY`. -/
def readCell (move : Nat) : Int × Int :=
  (((move >>> 5 &&& 0x1f : Nat) : Int), ((move &&& 0x1f : Nat) : Int))

theorem readCell_eq (move : Nat) :
    readCell move = (((move / 32 % 32 : Nat) : Int), ((move % 32 : Nat) : Int)) := by
  have hlow : move &&& 0x1f = move % 32 := Nat.and_two_pow_sub_one_eq_mod move 5
  have hhigh : move >>> 5 &&& 0x1f = move / 32 % 32 := by
    rw [Nat.shiftRight_eq_div_pow]
    exact Nat.and_two_pow_sub_one_eq_mod _ 5
  rw [readCell, hlow, hhigh]

/-- Read the head of an entry. -/
def readHead : Reader EntryHead := fun stream =>
  (readWord 8 stream).map fun (n, stream) =>
    let f := unpack [5, 3, 4, 10, 10, 14, 18] n
    ({ boardSize := BitVec.ofNat 5 (f.getD 0 0)
       rule := BitVec.ofNat 3 (f.getD 1 0)
       result := BitVec.ofNat 4 (f.getD 2 0)
       totalPly := BitVec.ofNat 10 (f.getD 3 0)
       initPly := BitVec.ofNat 10 (f.getD 4 0)
       gameTag := BitVec.ofNat 14 (f.getD 5 0)
       moveCount := BitVec.ofNat 18 (f.getD 6 0) }, stream)

/-- Read one move. -/
def readMove : Reader MoveRecord := fun stream =>
  (readWord 4 stream).map fun (n, stream) =>
    let f := unpack [1, 1, 1, 1, 2, 10, 16] n
    ({ isFirst := BitVec.ofNat 1 (f.getD 0 0)
       isLast := BitVec.ofNat 1 (f.getD 1 0)
       isNoEval := BitVec.ofNat 1 (f.getD 2 0)
       isPass := BitVec.ofNat 1 (f.getD 3 0)
       reserved := BitVec.ofNat 2 (f.getD 4 0)
       move := BitVec.ofNat 10 (f.getD 5 0)
       eval := BitVec.ofNat 16 (f.getD 6 0) }, stream)

/-- Read one entry: the head tells how long the two sequences are.  The flags of a move are
not needed to find its end. -/
def readEntry : Reader BinpackEntry := fun stream =>
  (readHead stream).bind fun (head, stream) =>
    (readMany (readWord 2) head.initPly.toNat stream).bind fun (position, stream) =>
      (readMany readMove head.moveCount.toNat stream).map fun (moveSequence, stream) =>
        ({ head := head, position := position, moveSequence := moveSequence }, stream)

/-- Read a file of entries. -/
def readBinpack (file : List UInt8) : Option (List BinpackEntry) :=
  readAll readEntry (file.length + 1) file

/-! ## What is written is read back -/

/-- The head fills the eight bytes. -/
theorem reads_head (head : EntryHead) : Reads readHead EntryHead.bytes head := by
  intro rest
  have hlt := pack_lt [(5, head.boardSize.toNat), (3, head.rule.toNat),
    (4, head.result.toNat), (10, head.totalPly.toNat), (10, head.initPly.toNat),
    (14, head.gameTag.toNat), (18, head.moveCount.toNat)]
  have hfields := unpack_pack [(5, head.boardSize.toNat), (3, head.rule.toNat),
    (4, head.result.toNat), (10, head.totalPly.toNat), (10, head.initPly.toNat),
    (14, head.gameTag.toNat), (18, head.moveCount.toNat)]
  simp only [List.map_cons, List.map_nil, List.sum_cons, List.sum_nil] at hlt hfields
  rw [show (2 : ℕ) ^ (5 + (3 + (4 + (10 + (10 + (14 + (18 + 0))))))) = 256 ^ 8 by norm_num] at hlt
  rw [readHead, EntryHead.bytes, readWord_littleEndian, Nat.mod_eq_of_lt hlt]
  simp only [Option.map_some, hfields, List.getD_cons_zero, List.getD_cons_succ, ofNat_toNat_mod]

theorem reads_move (r : MoveRecord) : Reads readMove MoveRecord.bytes r := by
  intro rest
  have hlt := pack_lt [(1, r.isFirst.toNat), (1, r.isLast.toNat), (1, r.isNoEval.toNat),
    (1, r.isPass.toNat), (2, r.reserved.toNat), (10, r.move.toNat), (16, r.eval.toNat)]
  have hfields := unpack_pack [(1, r.isFirst.toNat), (1, r.isLast.toNat),
    (1, r.isNoEval.toNat), (1, r.isPass.toNat), (2, r.reserved.toNat), (10, r.move.toNat),
    (16, r.eval.toNat)]
  simp only [List.map_cons, List.map_nil, List.sum_cons, List.sum_nil] at hlt hfields
  rw [show (2 : ℕ) ^ (1 + (1 + (1 + (1 + (2 + (10 + (16 + 0))))))) = 256 ^ 4 by norm_num] at hlt
  rw [readMove, MoveRecord.bytes, readWord_littleEndian, Nat.mod_eq_of_lt hlt]
  simp only [Option.map_some, hfields, List.getD_cons_zero, List.getD_cons_succ, ofNat_toNat_mod]

/-- The object representation of an entry. -/
def BinpackEntry.bytes (e : BinpackEntry) : List UInt8 :=
  e.head.bytes ++ e.position.flatMap (littleEndian 2) ++ e.moveSequence.flatMap MoveRecord.bytes

/-- The head of an entry gives the lengths of its sequences, and the cells fit the words
they are written in.  A reader has nothing else to find the end of an entry by. -/
structure BinpackEntry.WellFormed (e : BinpackEntry) : Prop where
  initPly : e.head.initPly.toNat = e.position.length
  moveCount : e.head.moveCount.toNat = e.moveSequence.length
  position_lt : ∀ w ∈ e.position, w < 256 ^ 2

theorem reads_word {n w : Nat} (h : w < 256 ^ n) : Reads (readWord n) (littleEndian n) w := by
  intro rest
  rw [readWord_littleEndian, Nat.mod_eq_of_lt h]

theorem BinpackEntry.WellFormed.reads {e : BinpackEntry} (h : e.WellFormed) :
    Reads readEntry BinpackEntry.bytes e := by
  intro rest
  have hhead := reads_head e.head
  have hposition : ∀ stream, readMany (readWord 2) e.position.length
      (e.position.flatMap (littleEndian 2) ++ stream) = some (e.position, stream) :=
    readMany_flatMap fun w hw => reads_word (h.position_lt w hw)
  have hmoves : ∀ stream, readMany readMove e.moveSequence.length
      (e.moveSequence.flatMap MoveRecord.bytes ++ stream) = some (e.moveSequence, stream) :=
    readMany_flatMap fun r _ => reads_move r
  rw [readEntry, BinpackEntry.bytes, List.append_assoc, List.append_assoc, hhead]
  simp only [Option.bind_some, h.initPly, hposition, h.moveCount, hmoves, Option.map_some]

/-- **A file of entries is read back**, whatever their heads say about the game, as long as
the lengths are right. -/
theorem readBinpack_bytes {entries : List BinpackEntry} (h : ∀ e ∈ entries, e.WellFormed) :
    readBinpack (entries.flatMap BinpackEntry.bytes) = some entries := by
  refine readAll_flatMap_length (fun e he => (h e he).reads) fun e _ hnil => ?_
  have hlen := congrArg List.length hnil
  rw [BinpackEntry.bytes, List.append_assoc, List.length_append, EntryHead.bytes,
    length_littleEndian, List.length_nil] at hlen
  omega

/-! ## What is written -/

namespace Packer

/-- The entry that `flushEntry` writes.  A sequence that is longer than its counter can say
is cut to the remainder. -/
def entry (p : Packer) : BinpackEntry :=
  let head := p.flushEntry.head
  { head := head
    position := p.openingPosition.take head.initPly.toNat
    moveSequence := p.moveSequence.take head.moveCount.toNat }

theorem flushEntry_written (p : Packer) :
    p.flushEntry.written = p.written ++ [p.entry.bytes] := rfl

theorem entry_head (p : Packer) :
    p.entry.head = { p.head with
      totalPly := BitVec.ofNat 10 (p.moveSequence.length + p.openingPosition.length)
      initPly := BitVec.ofNat 10 p.openingPosition.length
      moveCount := BitVec.ofNat 18 p.moveSequence.length } := rfl

theorem entry_position (p : Packer) :
    p.entry.position = p.openingPosition.take (p.openingPosition.length % 2 ^ 10) := rfl

theorem entry_moveSequence (p : Packer) :
    p.entry.moveSequence = p.moveSequence.take (p.moveSequence.length % 2 ^ 18) := rfl

theorem entry_wellFormed {p : Packer} (h : ∀ w ∈ p.openingPosition, w < 1024) :
    p.entry.WellFormed where
  initPly := by
    have hle : p.openingPosition.length % 2 ^ 10 ≤ p.openingPosition.length := Nat.mod_le _ _
    rw [entry_head, entry_position, List.length_take, BitVec.toNat_ofNat, min_eq_left hle]
  moveCount := by
    have hle : p.moveSequence.length % 2 ^ 18 ≤ p.moveSequence.length := Nat.mod_le _ _
    rw [entry_head, entry_moveSequence, List.length_take, BitVec.toNat_ofNat, min_eq_left hle]
  position_lt := by
    intro w hw
    have := h w (List.mem_of_mem_take hw)
    omega

end Packer

/-- The sample is a position of a game whose packed cells are `W`, and its move is the next
one of the game.  With one such list for all the samples, they follow each other by
construction. -/
structure SampleOf (W : List Nat) (sample : Sample) : Prop where
  history : ∀ i < sample.pos.moveCount, W[i]? = some (packedCell (sample.pos.historyMoves i))
  move : W[sample.pos.moveCount]? = some (packedCell sample.move)

section Filling

variable {W : List Nat} {sample : Sample}

theorem SampleOf.lt (h : SampleOf W sample) : sample.pos.moveCount < W.length :=
  (List.getElem?_eq_some_iff.mp h.move).1

theorem moveRecord_move {packed : Nat} (h : packed < 1024) (eval : Int) :
    (moveRecord packed eval).move.toNat = packed := by
  rw [moveRecord, BitVec.toNat_ofNat, Nat.mod_eq_of_lt h]

namespace Packer

theorem followMoves_of_isPrefix (h : SampleOf W sample) {l : List Nat} {index : Nat}
    (hl : l <+: W.drop index) (hlen : index + l.length ≤ sample.pos.moveCount) :
    followMoves sample l index = some (index + l.length) := by
  induction l generalizing index with
  | nil => rfl
  | cons w l ih =>
      obtain ⟨tail, htail⟩ := hl
      rw [List.length_cons] at hlen
      have hw : W[index]? = some w := by
        rw [← Nat.add_zero index, ← List.getElem?_drop, ← htail]
        rfl
      have hnext : l <+: W.drop (index + 1) := by
        refine ⟨tail, ?_⟩
        rw [← List.tail_drop, ← htail]
        rfl
      have hpacked : w = packedCell (sample.pos.historyMoves index) := by
        have hhistory := h.history index (by omega)
        rwa [hw, Option.some.injEq] at hhistory
      rw [followMoves, if_neg (by omega), if_neg (not_not.mpr hpacked), ih hnext (by omega),
        List.length_cons, Nat.add_assoc, Nat.add_comm 1]

/-- **The invariant of the loop**: the entry begins with the first `t₀` cells of the game
and goes on up to the `n`-th, and nothing has been flushed.  It holds for the vectors and
not for what is written, so the widths of the counters do not come into it. -/
structure Filled (W : List Nat) (t₀ : Nat) (head : EntryHead) (n : Nat) (p : Packer) :
    Prop where
  le : t₀ ≤ n
  head : p.head = head
  openingPosition : p.openingPosition = W.take t₀
  moveSequence : p.moveSequence.map (fun r => r.move.toNat) = (W.take n).drop t₀
  written : p.written = []

variable {t₀ n : Nat} {head : EntryHead} {p : Packer}

/-- The next sample follows the entry.  Both loops compare cells of one and the same game,
so none of the comparisons fails. -/
theorem Filled.getFollowingMoveIndex (h : Filled W t₀ head n p) (hs : SampleOf W sample)
    (hn : n ≤ sample.pos.moveCount) : p.getFollowingMoveIndex sample = some n := by
  have hlt := hs.lt
  have hle := h.le
  have hopening : followMoves sample p.openingPosition 0 = some t₀ := by
    have hlen : p.openingPosition.length = t₀ := by
      rw [h.openingPosition, List.length_take]
      omega
    have hpre : p.openingPosition <+: W.drop 0 := by
      rw [h.openingPosition]
      exact List.take_prefix t₀ W
    rw [followMoves_of_isPrefix hs hpre (by omega), hlen, Nat.zero_add]
  have hmoves : followMoves sample ((W.take n).drop t₀) t₀ = some n := by
    have hlen : ((W.take n).drop t₀).length = n - t₀ := by
      rw [List.length_drop, List.length_take]
      omega
    have hpre : (W.take n).drop t₀ <+: W.drop t₀ := by
      rw [List.drop_take]
      exact List.take_prefix _ _
    rw [followMoves_of_isPrefix hs hpre (by omega), hlen, Nat.add_sub_cancel' hle]
  rw [Packer.getFollowingMoveIndex, hopening, Option.bind_some, h.moveSequence, hmoves]

theorem initEntry_filled (gameRule : GameRule) (hs : SampleOf W sample) :
    Filled W sample.pos.moveCount (initEntry gameRule sample start).head sample.pos.moveCount
      (initEntry gameRule sample start) where
  le := le_refl _
  head := rfl
  openingPosition := by
    have hlt := hs.lt
    change (List.range sample.pos.moveCount).map _ = _
    apply List.ext_getElem?
    intro i
    by_cases hi : i < sample.pos.moveCount
    · rw [List.getElem?_take_of_lt hi, hs.history i hi]
      simp [hi]
    · rw [List.getElem?_eq_none (by simpa using hi),
        List.getElem?_eq_none (by rw [List.length_take]; omega)]
  moveSequence := by
    change [] = _
    rw [List.drop_take, Nat.sub_self, List.take_zero]
  written := rfl

/-- The plies between two samples are filled in from the history.  They are the cells of the
game from the end of the entry to the sample. -/
theorem map_skipped (hW : ∀ w ∈ W, w < 1024) (hs : SampleOf W sample) (eval : Nat → Int) :
    ((List.range (sample.pos.moveCount - n)).map fun k =>
      (moveRecord (packedCell (sample.pos.historyMoves (n + k))) (eval k)).move.toNat) =
      (W.take sample.pos.moveCount).drop n := by
  have hlt := hs.lt
  apply List.ext_getElem?
  intro i
  rw [List.getElem?_drop]
  by_cases hi : n + i < sample.pos.moveCount
  · have hpacked := hs.history (n + i) hi
    have hmem := hW _ (List.mem_of_getElem? hpacked)
    rw [List.getElem?_take_of_lt hi, hpacked, List.getElem?_map,
      List.getElem?_range (by omega), Option.map_some, moveRecord_move hmem]
  · rw [List.getElem?_eq_none (by rw [List.length_map, List.length_range]; omega),
      List.getElem?_eq_none (by rw [List.length_take]; omega)]

/-- **One sample extends the entry up to its own move.** What it brings along is the gap
behind the sample before it, and then its move. -/
theorem Filled.addSample (h : Filled W t₀ head n p) (hW : ∀ w ∈ W, w < 1024)
    (hs : SampleOf W sample) (hn : n ≤ sample.pos.moveCount) (gameRule : GameRule)
    (firstEval : Int) :
    Filled W t₀ head (sample.pos.moveCount + 1) (addSample gameRule firstEval p sample) := by
  have hle := h.le
  have hlt := hs.lt
  have hmove : packedCell sample.move < 1024 := hW _ (List.mem_of_getElem? hs.move)
  -- the sample follows the entry, so nothing is flushed
  simp only [Packer.addSample, h.getFollowingMoveIndex hs hn]
  refine ⟨by omega, h.head, h.openingPosition, ?_, h.written⟩
  have hsplit : W.take n ++ (W.take sample.pos.moveCount).drop n =
      W.take sample.pos.moveCount := by
    have hpre : W.take n = (W.take sample.pos.moveCount).take n := by
      rw [List.take_take, min_eq_left hn]
    rw [hpre, List.take_append_drop]
  have hnext : W.take (sample.pos.moveCount + 1) =
      W.take n ++ ((W.take sample.pos.moveCount).drop n ++ [packedCell sample.move]) := by
    rw [List.take_add_one, hs.move, ← List.append_assoc, hsplit]
    rfl
  have hlen : t₀ ≤ (W.take n).length := by
    rw [List.length_take]
    omega
  rw [hnext, List.drop_append_of_le_length hlen, ← h.moveSequence,
    ← map_skipped hW hs fun k => if n + k + 1 = sample.pos.moveCount then firstEval else 0]
  simp only [List.map_append, List.map_map, List.map_cons, List.map_nil, List.append_assoc,
    moveRecord_move hmove, Function.comp_def]

/-- **All the samples of a game follow each other.** By induction on the samples, each of
them later in the game than the one before. -/
theorem Filled.foldl {samples : List Sample} (hW : ∀ w ∈ W, w < 1024)
    (hsamples : ∀ sample ∈ samples, SampleOf W sample)
    (hinc : samples.Pairwise fun a b => a.pos.moveCount < b.pos.moveCount)
    (gameRule : GameRule) (firstEval : Int) (h : Filled W t₀ head n p)
    (hn : ∀ sample ∈ samples, n ≤ sample.pos.moveCount) :
    Filled W t₀ head ((samples.getLast?.map fun sample => sample.pos.moveCount + 1).getD n)
      (samples.foldl (Packer.addSample gameRule firstEval) p) := by
  induction samples generalizing p n with
  | nil => exact h
  | cons sample samples ih =>
      rw [List.pairwise_cons] at hinc
      have hstep := h.addSample hW (hsamples sample List.mem_cons_self)
        (hn sample List.mem_cons_self) gameRule firstEval
      have hrest := ih (fun a ha => hsamples a (List.mem_cons_of_mem sample ha)) hinc.2 hstep
        fun a ha => hinc.1 a ha
      rw [List.foldl_cons, List.getLast?_cons]
      cases hlast : samples.getLast? with
      | none => rwa [hlast] at hrest
      | some last => rwa [hlast] at hrest

theorem Filled.length_openingPosition (h : Filled W t₀ head n p) (ht₀ : t₀ ≤ W.length) :
    p.openingPosition.length = t₀ := by
  rw [h.openingPosition, List.length_take, min_eq_left ht₀]

theorem Filled.entry_position (h : Filled W t₀ head n p) (ht₀ : t₀ ≤ W.length) :
    p.entry.position = W.take (t₀ % 2 ^ 10) := by
  rw [Packer.entry_position, h.length_openingPosition ht₀, h.openingPosition, List.take_take,
    min_eq_left (Nat.mod_le _ _)]

theorem Filled.length_moveSequence (h : Filled W t₀ head n p) (hn : n ≤ W.length) :
    p.moveSequence.length = n - t₀ := by
  rw [← List.length_map fun r : MoveRecord => r.move.toNat, h.moveSequence, List.length_drop,
    List.length_take, min_eq_left hn]

/-- A sequence that its counter can count is written as a whole. -/
theorem Filled.entry_moveSequence (h : Filled W t₀ head n p) (hn : n ≤ W.length)
    (hlt : n - t₀ < 2 ^ 18) : p.entry.moveSequence = p.moveSequence := by
  have hlen := h.length_moveSequence hn
  rw [Packer.entry_moveSequence, hlen, Nat.mod_eq_of_lt hlt, ← hlen, List.take_length]

/-- **A prefix of the entry is a prefix of the game**, from its first stone on, as long as
the two counters are not exceeded. -/
theorem Filled.position_append (h : Filled W t₀ head n p) (hn : n ≤ W.length)
    (ht₀ : t₀ < 2 ^ 10) (hlt : n - t₀ < 2 ^ 18) {t : Nat} (ht : t₀ ≤ t) (htn : t ≤ n) :
    p.entry.position ++ (p.entry.moveSequence.take (t - t₀)).map (fun r => r.move.toNat) =
      W.take t := by
  rw [h.entry_position (by omega), Nat.mod_eq_of_lt ht₀, h.entry_moveSequence hn hlt,
    List.map_take, h.moveSequence, List.drop_take, List.take_take, min_eq_left (by omega),
    ← List.take_add, Nat.add_sub_cancel' ht]

theorem Filled.getElem?_moveSequence (h : Filled W t₀ head n p) (hn : n ≤ W.length)
    (hlt : n - t₀ < 2 ^ 18) {t : Nat} (ht : t₀ ≤ t) (htn : t < n) :
    (p.entry.moveSequence[t - t₀]?).map (fun r => r.move.toNat) = W[t]? := by
  rw [h.entry_moveSequence hn hlt, ← List.getElem?_map, h.moveSequence, List.getElem?_drop,
    Nat.add_sub_cancel' ht, List.getElem?_take_of_lt htn]

end Packer

/-- The entries that a reader finds in the file of a game.  It goes by the documentation of
the format and not by the encoder. -/
def Game.binpackEntries (g : Game) : Option (List BinpackEntry) :=
  readBinpack g.exportSamplesBinpack.flatten

variable {g : Game}

/-- Without a second sample the move sequence stays empty, and nothing is flushed.  The move
of the first sample is only written with the second one. -/
theorem exportSamplesBinpack_single (h : g.samples = [sample]) :
    g.exportSamplesBinpack = [] := by
  rw [Game.exportSamplesBinpack, h]
  rfl

/-- What the loop over the samples makes of them. -/
def Packer.ofSamples (gameRule : GameRule) (first : Sample) (rest : List Sample) : Packer :=
  rest.foldl (Packer.addSample gameRule first.eval) (Packer.initEntry gameRule first .start)

section Chain

variable {first last : Sample} {rest : List Sample} (hW : ∀ w ∈ W, w < 1024)
  (hsamples : g.samples = first :: rest) (hlast : rest.getLast? = some last)
  (hchain : ∀ sample ∈ g.samples, SampleOf W sample)
  (hinc : g.samples.Pairwise fun a b => a.pos.moveCount < b.pos.moveCount)

include hW hsamples hlast hchain hinc

theorem filled_ofSamples :
    Packer.Filled W first.pos.moveCount (Packer.initEntry g.gameRule first .start).head
      (last.pos.moveCount + 1) (Packer.ofSamples g.gameRule first rest) := by
  rw [hsamples] at hchain hinc
  rw [List.pairwise_cons] at hinc
  have hfilled :=
    (Packer.initEntry_filled g.gameRule (hchain first List.mem_cons_self)).foldl hW
      (fun a ha => hchain a (List.mem_cons_of_mem first ha)) hinc.2 g.gameRule first.eval
      fun a ha => (hinc.1 a ha).le
  rwa [hlast, Option.map_some, Option.getD_some] at hfilled

/-- **Two or more samples give one entry.** In particular the entry is never split, and the
reader gets back what was written. -/
theorem exportSamplesBinpack_ofSamples :
    (Packer.ofSamples g.gameRule first rest).entry.WellFormed ∧
      g.exportSamplesBinpack = [(Packer.ofSamples g.gameRule first rest).entry.bytes] ∧
      g.binpackEntries = some [(Packer.ofSamples g.gameRule first rest).entry] := by
  have hfilled := filled_ofSamples hW hsamples hlast hchain hinc
  rw [hsamples] at hchain hinc
  have hmem := List.mem_of_getLast? hlast
  have hlt := (List.pairwise_cons.mp hinc).1 last hmem
  have hslast := hchain last (List.mem_cons_of_mem first hmem)
  -- the last sample is in the game, so the sequence is not empty
  have hlen := hfilled.length_moveSequence hslast.lt
  have hwritten : g.exportSamplesBinpack =
      [(Packer.ofSamples g.gameRule first rest).entry.bytes] := by
    rw [Game.exportSamplesBinpack, hsamples]
    change (if (Packer.ofSamples g.gameRule first rest).moveSequence.length > 0 then
      (Packer.ofSamples g.gameRule first rest).flushEntry.written else _) = _
    rw [if_pos (by omega), Packer.flushEntry_written, hfilled.written, List.nil_append]
  have hwf := Packer.entry_wellFormed fun w hw =>
    hW w (List.mem_of_mem_take (hfilled.openingPosition ▸ hw))
  refine ⟨hwf, hwritten, ?_⟩
  have hread := readBinpack_bytes fun e he => List.mem_singleton.mp he ▸ hwf
  rw [Game.binpackEntries, hwritten, List.flatten_singleton]
  rwa [List.flatMap_singleton] at hread

end Chain

/-- The entry begins at the first sample, and ends after the move of the last one.  The
invariant of the loop describes what is in between. -/
theorem exportSamplesBinpack_chain {first last : Sample} {rest : List Sample}
    (hW : ∀ w ∈ W, w < 1024) (hsamples : g.samples = first :: rest)
    (hlast : rest.getLast? = some last) (hchain : ∀ sample ∈ g.samples, SampleOf W sample)
    (hinc : g.samples.Pairwise fun a b => a.pos.moveCount < b.pos.moveCount) :
    ∃ p, Packer.Filled W first.pos.moveCount (Packer.initEntry g.gameRule first .start).head
        (last.pos.moveCount + 1) p ∧
      p.entry.WellFormed ∧ g.exportSamplesBinpack = [p.entry.bytes] ∧
      g.binpackEntries = some [p.entry] :=
  ⟨_, filled_ofSamples hW hsamples hlast hchain hinc,
    exportSamplesBinpack_ofSamples hW hsamples hlast hchain hinc⟩

end Filling

end GomokuCli
