import GomokuCli.Mirror

/-!
# The laws of `transform`

`transform` clears the board, puts the stones back at their images and maps the
history and the recorded win connection in loops of their own.  Seen from outside
it is the action of the symmetry group of the square: the transformed position is
the one that the transformed moves reach, two transforms are one, and the inverse
transform takes the position back as it was.

The laws are about the positions that the program can have: reached from an empty
board by legal moves, with searches for five in a row between them, which are what
records win connections.
-/

namespace GomokuCli

/-! ## Composition of symmetries -/

/-- The symmetry that first exchanges the coordinates if `swap`, and then mirrors
the first one if `first` and the second one if `second`. -/
def TransformType.ofFlags (swap first second : Bool) : TransformType :=
  match swap, first, second with
  | false, false, false => .identity
  | true, false, true => .rotate90
  | false, true, true => .rotate180
  | true, true, false => .rotate270
  | false, false, true => .flipX
  | false, true, false => .flipY
  | true, false, false => .flipXY
  | true, true, true => .flipYX

/-- `swap`, `first` and `second` of a symmetry. -/
def TransformType.flags : TransformType → Bool × Bool × Bool
  | .identity => (false, false, false)
  | .rotate90 => (true, false, true)
  | .rotate180 => (false, true, true)
  | .rotate270 => (true, true, false)
  | .flipX => (false, false, true)
  | .flipY => (false, true, false)
  | .flipXY => (true, false, false)
  | .flipYX => (true, true, true)

/-- The symmetry that two symmetries make together, `T` first.  It is computed from the
three bits of each; when the second one exchanges the coordinates, the mirrors of the first
change places. -/
def TransformType.andThen (T T' : TransformType) : TransformType :=
  let (swap, first, second) := T.flags
  let (swap', first', second') := T'.flags
  if swap' then
    .ofFlags (!swap) (second != first') (first != second')
  else
    .ofFlags swap (first != first') (second != second')

theorem transformCell_andThen (size : Nat) (T T' : TransformType) (c : Int × Int) :
    transformCell size (T.andThen T') c = transformCell size T' (transformCell size T c) := by
  cases T <;> cases T' <;>
    simp [TransformType.andThen, TransformType.flags, TransformType.ofFlags, transformCell]

theorem TransformType.andThen_inverse (T : TransformType) : T.andThen T.inverse = .identity := by
  cases T <;> rfl

theorem TransformType.inverse_andThen (T T' : TransformType) :
    (T.andThen T').inverse = T'.inverse.andThen T.inverse := by
  cases T <;> cases T' <;> rfl

/-! ## Moves -/

theorem buildMovePos_eq {p side : Nat} (hp : p < 1024) (hside : side < 64) :
    buildMovePos p side = 1024 * side + p := by
  have hor : (side <<< 10) ||| p = 1024 * side + p := by
    rw [← Nat.shiftLeft_add_eq_or_of_lt hp, Nat.shiftLeft_eq]
    omega
  rw [buildMovePos, hor]
  exact uint16_natCast (by omega)

theorem colorFromMove_eq (m : Nat) : colorFromMove m = m / 1024 := by
  rw [colorFromMove, Nat.shiftRight_eq_div_pow]

/-- The cells of the square under two symmetries. -/
theorem transformPos_andThen {size p : Nat} (hsize : size ≤ 22) (T T' : TransformType)
    (hp : InSquare size (cellOf p)) :
    Position.transformPos p size (T.andThen T') =
      Position.transformPos (Position.transformPos p size T) size T' := by
  have hcell := Position.cellOf_transformPos hsize T hp
  have hin : InSquare size (cellOf (Position.transformPos p size T)) := by
    rw [hcell]
    exact (inSquare_transformCell_iff T _).mpr hp
  rw [Position.transformPos_of_inSquare hsize _ hp, Position.transformPos_of_inSquare hsize _ hin,
    hcell, transformCell_andThen]

theorem transformPos_identity {size p : Nat} (hp : p < 1024) :
    Position.transformPos p size .identity = p := pos_coord hp

section Moves

variable {size m : Nat} (hsize : size ≤ 22) (hm : m < 2 ^ 16)
  (hin : InSquare size (cellOf (posFromMove m))) (T : TransformType)
include hsize hm hin

omit hm in
theorem transformPos_posFromMove_lt :
    Position.transformPos (posFromMove m) size T < 1024 := by
  refine lt_of_inSquare_cellOf hsize ?_
  rw [Position.cellOf_transformPos hsize T hin]
  exact (inSquare_transformCell_iff T _).mpr hin

/-- The image of a move has the colour of the move. -/
theorem transformMove_eq :
    transformMove size T m =
      1024 * colorFromMove m + Position.transformPos (posFromMove m) size T := by
  have hcolor := colorFromMove_eq m
  exact buildMovePos_eq (transformPos_posFromMove_lt hsize hin T) (by omega)

theorem transformMove_lt : transformMove size T m < 2 ^ 16 := by
  have hcolor := colorFromMove_eq m
  have hlt := transformPos_posFromMove_lt hsize hin T
  rw [transformMove_eq hsize hm hin]
  omega

theorem transformMove_andThen (T' : TransformType) :
    transformMove size (T.andThen T') m = transformMove size T' (transformMove size T m) := by
  have hlt := transformPos_posFromMove_lt hsize hin T
  have heq := transformMove_eq hsize hm hin T
  have hcell : posFromMove (transformMove size T m) =
      Position.transformPos (posFromMove m) size T := by
    rw [posFromMove_eq, heq]
    omega
  have hcolor : colorFromMove (transformMove size T m) = colorFromMove m := by
    rw [colorFromMove_eq (transformMove size T m), heq]
    omega
  rw [transformMove, transformMove, hcell, hcolor, transformPos_andThen hsize T T' hin]

omit hsize hin in
theorem transformMove_identity : transformMove size .identity m = m := by
  have hcolor := colorFromMove_eq m
  have hcell := posFromMove_eq m
  rw [transformMove, transformPos_identity (posFromMove_lt m),
    buildMovePos_eq (posFromMove_lt m) (by omega)]
  omega

end Moves

namespace Position

/-! ## Positions under one formula -/

/-- What `transform` relies on: the history and the win connection name cells of the square,
and a history entry fits its type.  The arrays behind the counters do not matter, since the
loops end there. -/
structure Sound (P : Position) : Prop where
  shape : P.BoardShape
  history : ∀ i < P.moveCount, InSquare P.boardSize (cellOf (posFromMove (P.historyMoves i))) ∧
    P.historyMoves i < 2 ^ 16
  winConnection : ∀ i < P.winConnectionLen, InSquare P.boardSize (cellOf (P.winConnectionPos i))

/-- The image of a position: every array is read through the symmetry.  It is the effect of
`transform` as one formula, from which the laws can be computed. -/
def image (P : Position) (T : TransformType) : Position :=
  { P with
    board := fun q => P.grid (transformCell P.boardSize T.inverse (cellOf q))
    historyMoves := fun i =>
      if i < P.moveCount then transformMove P.boardSize T (P.historyMoves i)
      else P.historyMoves i
    winConnectionPos := fun i =>
      if i < P.winConnectionLen then transformPos (P.winConnectionPos i) P.boardSize T
      else P.winConnectionPos i }

attribute [ext] Position

namespace Sound

variable {P : Position} (h : P.Sound)
include h

theorem winConnection_lt {i : Nat} (hi : i < P.winConnectionLen) : P.winConnectionPos i < 1024 :=
  lt_of_inSquare_cellOf h.shape.size_le (h.winConnection i hi)

/-- The identity changes nothing. -/
theorem image_identity : P.image .identity = P := by
  ext1
  · funext q
    exact (h.shape.board_eq_grid q).symm
  · rfl
  · rfl
  · rfl
  · funext i
    change (if i < P.moveCount then _ else _) = _
    split
    · next hi => exact transformMove_identity (h.history i hi).2
    · rfl
  · rfl
  · rfl
  · funext i
    change (if i < P.winConnectionLen then _ else _) = _
    split
    · next hi => exact transformPos_identity (h.winConnection_lt hi)
    · rfl

/-- **`transform` computes the image.** The loops that clear the board, put the stones back
and map the arrays come to the same as reading every array through the symmetry. -/
theorem transform_eq_image (T : TransformType) : P.transform T = P.image T := by
  by_cases hid : T = .identity
  · rw [hid, h.image_identity, transform, if_pos rfl]
  · rw [transform_eq P hid, image]
    congr 1
    funext q
    exact h.shape.board_transform T q

theorem image_sound (T : TransformType) : (P.image T).Sound where
  shape := by
    rw [← h.transform_eq_image T]
    exact h.shape.transform T
  history := by
    intro i hi
    obtain ⟨hin, hlt⟩ := h.history i hi
    have hentry : (P.image T).historyMoves i = transformMove P.boardSize T (P.historyMoves i) :=
      if_pos hi
    rw [hentry]
    exact ⟨(inSquare_transformMove_iff h.shape.size_le).mpr hin,
      transformMove_lt h.shape.size_le hlt hin T⟩
  winConnection := by
    intro i hi
    have hentry : (P.image T).winConnectionPos i =
        transformPos (P.winConnectionPos i) P.boardSize T := if_pos hi
    rw [hentry, cellOf_transformPos h.shape.size_le T (h.winConnection i hi)]
    exact (inSquare_transformCell_iff T _).mpr (h.winConnection i hi)

/-- Two images are one. -/
theorem image_image (T T' : TransformType) : (P.image T).image T' = P.image (T.andThen T') := by
  have hgrid (c : Int × Int) :
      (P.image T).grid c = P.grid (transformCell P.boardSize T.inverse c) := by
    have hmoved := h.shape.grid_transform T (transformCell P.boardSize T.inverse c)
    rwa [transformCell_of_inverse, h.transform_eq_image T] at hmoved
  ext1
  · funext q
    change (P.image T).grid (transformCell P.boardSize T'.inverse (cellOf q)) =
      P.grid (transformCell P.boardSize (T.andThen T').inverse (cellOf q))
    rw [hgrid, TransformType.inverse_andThen, transformCell_andThen]
  · rfl
  · rfl
  · rfl
  · funext i
    change (if i < P.moveCount then transformMove P.boardSize T' (if i < P.moveCount then _ else _)
      else if i < P.moveCount then _ else _) = if i < P.moveCount then _ else _
    by_cases hi : i < P.moveCount
    · obtain ⟨hin, hlt⟩ := h.history i hi
      simp only [if_pos hi, transformMove_andThen h.shape.size_le hlt hin]
    · simp only [if_neg hi]
  · rfl
  · rfl
  · funext i
    change (if i < P.winConnectionLen then
        transformPos (if i < P.winConnectionLen then _ else _) P.boardSize T'
      else if i < P.winConnectionLen then _ else _) = if i < P.winConnectionLen then _ else _
    by_cases hi : i < P.winConnectionLen
    · simp only [if_pos hi, transformPos_andThen h.shape.size_le T T' (h.winConnection i hi)]
    · simp only [if_neg hi]

/-- **Two transforms are one**, on all fields of the position.  Which one it is can be
looked up in the table of the eight transforms. -/
theorem transform_transform (T T' : TransformType) :
    (P.transform T).transform T' = P.transform (T.andThen T') := by
  rw [h.transform_eq_image T, (h.image_sound T).transform_eq_image T', h.image_image,
    h.transform_eq_image]

/-- **The inverse transform takes the position back**, the recorded win connection included,
and so nothing of a position is lost by a transform. -/
theorem transform_inverse (T : TransformType) : (P.transform T).transform T.inverse = P := by
  rw [h.transform_transform, TransformType.andThen_inverse, transform, if_pos rfl]

end Sound

/-! ## The positions that the program reaches -/

/-- The positions that the moves `h` reach on a fresh board.  `initial` holds what was in
the arrays before, and a search may record a win connection at any time.  Both matter:
`transform` maps the whole object and not only the board. -/
inductive Reached (size : Nat) (initial : Position) : List Nat → Position → Prop
  | start : Reached size initial [] (initial.initBoard size)
  | move {h : List Nat} {P : Position} {m : Nat} (hP : Reached size initial h P)
      (hlegal : P.isLegalMove m = true) (hm : m < 2 ^ 16) :
      Reached size initial (h ++ [m]) (P.move m)
  | search {h : List Nat} {P : Position} (hP : Reached size initial h P) (side : Color)
      (allow : Bool) : Reached size initial h (P.checkFiveInLineSide side allow).2
  | searchLastmove {h : List Nat} {P : Position} (hP : Reached size initial h P) (allow : Bool) :
      Reached size initial h (P.checkFiveInLineLastmove allow).2

/-- The cells of a winning run are cells of the square. -/
theorem inSquare_of_mem_wonRuns {P : Position} (hshape : P.BoardShape) {side : Color}
    {allow : Bool} {run : List Nat} (hrun : run ∈ wonRuns side allow P) {p : Nat} (hp : p ∈ run) :
    InSquare P.boardSize (cellOf p) := by
  obtain ⟨cells, hcells, hrun⟩ := List.mem_flatMap.mp hrun
  obtain ⟨start, v, L, d, hline, -⟩ := lines_sound hshape hcells
  obtain ⟨r, -, rfl⟩ := List.mem_map.mp hrun
  have hmem : p ∈ cells := List.mem_of_mem_drop (List.mem_of_mem_take hp)
  rw [hline.cells_eq] at hmem
  obtain ⟨t, ht, rfl⟩ := List.mem_map.mp hmem
  have hin := (hline.inSquare_iff t).mpr
    ⟨Int.natCast_nonneg t, Int.ofNat_lt.mpr (List.mem_range.mp ht)⟩
  rw [hin.cellOf_posOf hshape.size_le]
  exact hin

/-- Recording runs of cells of the square keeps the recorded cells in the square. -/
theorem foldl_recordRun_inSquare {size : Nat} (won : List (List Nat)) (P : Position)
    (hwon : ∀ run ∈ won, ∀ p ∈ run, InSquare size (cellOf p))
    (hP : ∀ i < P.winConnectionLen, InSquare size (cellOf (P.winConnectionPos i))) :
    ∀ i < (won.foldl recordRun P).winConnectionLen,
      InSquare size (cellOf ((won.foldl recordRun P).winConnectionPos i)) := by
  induction won generalizing P with
  | nil => exact hP
  | cons run won ih =>
      obtain ⟨hrun, hwon⟩ := List.forall_mem_cons.mp hwon
      refine ih (P.recordRun run) hwon fun i hi => ?_
      have hlt : i < run.length := hi
      have hentry : (P.recordRun run).winConnectionPos i = run[i] := by
        simp [recordRun, hlt]
      rw [hentry]
      exact hrun _ (List.getElem_mem hlt)

theorem Sound.checkFiveInLineSide {P : Position} (h : P.Sound) (side : Color) (allow : Bool) :
    (P.checkFiveInLineSide side allow).2.Sound := by
  have hsame := checkFiveInLineSide_same P side allow
  refine ⟨hsame.shape h.shape, fun i hi => ?_, fun i hi => ?_⟩
  · rw [hsame.moveCount] at hi
    rw [hsame.boardSize, hsame.historyMoves]
    exact h.history i hi
  · rw [hsame.boardSize]
    rw [checkFiveInLineSide_eq] at hi ⊢
    exact foldl_recordRun_inSquare _ P
      (fun run hrun p hp => inSquare_of_mem_wonRuns h.shape hrun hp) h.winConnection i hi

namespace Reached

variable {size : Nat} {initial P : Position} {h : List Nat}

/-- The list is the record of the position. -/
theorem follows (hsize : size ≤ 22) (hP : Reached size initial h P) :
    P.Follows size (moveCells h) := by
  induction hP with
  | start => exact initBoard_follows initial hsize
  | move hP hlegal _ ih =>
      rw [moveCells_append_singleton]
      exact ih.move ((ih.isLegalMove_iff _).mp hlegal).1
  | search _ side allow ih => exact (checkFiveInLineSide_same _ side allow).follows ih
  | searchLastmove _ allow ih => exact (checkFiveInLineLastmove_same _ allow).follows ih

/-- It stands in the history array, in front of what was there before. -/
theorem history (hsize : size ≤ 22) (hP : Reached size initial h P) (i : Nat) :
    P.historyMoves i = h[i]?.getD (initial.historyMoves i) := by
  induction hP with
  | start => rfl
  | @move h P m hP _ _ ih =>
      have hcount : P.moveCount = h.length := by
        rw [(hP.follows hsize).moveCount, length_moveCells]
      rw [move_historyMoves, hcount]
      rcases lt_trichotomy i h.length with hi | rfl | hi
      · rw [Function.update_of_ne (by omega), ih, List.getElem?_append_left hi]
      · simp
      · rw [Function.update_of_ne (by omega), ih, List.getElem?_eq_none (by omega),
          List.getElem?_eq_none (by simpa using hi)]
  | search _ side allow ih => rw [(checkFiveInLineSide_same _ side allow).historyMoves, ih]
  | searchLastmove _ allow ih => rw [(checkFiveInLineLastmove_same _ allow).historyMoves, ih]

theorem sound (hsize : size ≤ 22) (hP : Reached size initial h P) : P.Sound := by
  induction hP with
  | start => exact ⟨initBoard_shape initial hsize, by simp, by simp [initBoard]⟩
  | @move h P m hP hlegal hm ih =>
      obtain ⟨hin, -⟩ := (ih.shape.isLegalMove_iff m).mp hlegal
      refine ⟨((hP.move hlegal hm).follows hsize).shape, fun i hi => ?_, ih.winConnection⟩
      rw [move_moveCount] at hi
      rw [move_historyMoves, move_boardSize]
      rcases eq_or_lt_of_le (Nat.lt_succ_iff.mp hi) with rfl | hlt
      · rw [Function.update_self]
        exact ⟨hin, hm⟩
      · rw [Function.update_of_ne (by omega)]
        exact ih.history i hlt
  | search _ side allow ih => exact ih.checkFiveInLineSide side allow
  | searchLastmove _ allow ih =>
      unfold checkFiveInLineLastmove
      split
      · exact ih
      · exact ih.checkFiveInLineSide _ allow

theorem moveCells_map (hsize : size ≤ 22) (hP : Reached size initial h P) (T : TransformType) :
    moveCells (h.map (transformMove size T)) = (moveCells h).map (transformCell size T) := by
  have hin := (hP.follows hsize).inSquare
  simp only [moveCells, List.map_map, List.mem_map, forall_exists_index, and_imp,
    forall_apply_eq_imp_iff₂] at hin ⊢
  exact List.map_congr_left fun m hm => cellOf_transformMove_of_inSquare hsize (hin m hm)

/-- The transformed list is legal as well. -/
theorem map (hsize : size ≤ 22) (hP : Reached size initial h P) (T : TransformType) :
    Reached size initial (h.map (transformMove size T))
      (playMoves (initial.initBoard size) (h.map (transformMove size T))) := by
  induction hP with
  | start => exact Reached.start
  | @move h P m hP hlegal hm ih =>
      obtain ⟨hin, hnew⟩ := ((hP.follows hsize).isLegalMove_iff m).mp hlegal
      rw [List.map_append, List.map_singleton, playMoves_append_singleton]
      refine Reached.move ih ?_ (transformMove_lt hsize hm hin T)
      rw [(ih.follows hsize).isLegalMove_iff, inSquare_transformMove_iff hsize,
        cellOf_transformMove_of_inSquare hsize hin, hP.moveCells_map hsize]
      refine ⟨hin, fun hmem => hnew ?_⟩
      obtain ⟨c, hc, heq⟩ := List.mem_map.mp hmem
      rwa [← transformCell_injective T heq]
  | search _ _ _ ih => exact ih
  | searchLastmove _ _ ih => exact ih

/-- **The transformed moves reach the transformed position**, but for the win connection,
which the moves alone do not record.  It does not matter whether a game is transformed move
by move or at its end. -/
theorem transform_same (hsize : size ≤ 22) (hP : Reached size initial h P) (T : TransformType) :
    SameButWin (playMoves (initial.initBoard size) (h.map (transformMove size T)))
      (P.transform T) := by
  have hQ := hP.map hsize T
  have hfollows := (hP.follows hsize).transform T
  have hfollows' := hQ.follows hsize
  rw [hP.moveCells_map hsize] at hfollows'
  have hcount : P.moveCount = h.length := by
    rw [(hP.follows hsize).moveCount, length_moveCells]
  refine ⟨?_, ?_, ?_, ?_, ?_, ?_⟩
  · funext p
    rw [hfollows.board, hfollows'.board]
  · rw [hfollows.boardSize, hfollows'.boardSize]
  · rw [hfollows.sqr, hfollows'.sqr]
  · rw [hfollows.moveCount, hfollows'.moveCount]
  · funext i
    rw [(hP.sound hsize).transform_eq_image, hQ.history hsize, List.getElem?_map]
    change (if i < P.moveCount then transformMove P.boardSize T (P.historyMoves i)
      else P.historyMoves i) = _
    rw [hP.history hsize, hcount, (hP.follows hsize).boardSize]
    split
    · next hi => simp [hi]
    · next hi => simp [List.getElem?_eq_none (Nat.le_of_not_lt hi)]
  · rw [hfollows.turn, hfollows'.turn, hfollows.moveCount, hfollows'.moveCount]

/-- A list of legal moves reaches its position. -/
theorem playMoves (hlegal : LegalMoves (initial.initBoard size) h) (hlt : ∀ m ∈ h, m < 2 ^ 16) :
    Reached size initial h (Position.playMoves (initial.initBoard size) h) := by
  induction h using List.reverseRecOn with
  | nil => exact Reached.start
  | append_singleton h m ih =>
      rw [playMoves_append_singleton]
      refine Reached.move (ih (fun k hk => ?_) fun m' hm' => hlt m' (by simp [hm'])) ?_
        (hlt m (by simp))
      · have hk' := hlegal k (by simp; omega)
        rwa [List.take_append_of_le_length (Nat.le_of_lt hk), List.getElem_append_left hk] at hk'
      · have hlast := (hlegal h.length (by simp)).1
        simpa using hlast

end Reached

/-- **The laws of `transform`.** On every position that the program reaches, a transform
leads to where the transformed moves lead, its inverse takes the position back with
everything in it, and any two transforms are one.  The symmetry that two of them make
together depends on these alone, and not on the position or its size. -/
theorem transform_laws (T : TransformType) :
    (∀ (size : Nat) (initial P : Position) (h : List Nat), size ≤ 22 →
      Reached size initial h P →
        Reached size initial (h.map (transformMove size T))
          (playMoves (initial.initBoard size) (h.map (transformMove size T))) ∧
        SameButWin (playMoves (initial.initBoard size) (h.map (transformMove size T)))
          (P.transform T) ∧
        (P.transform T).transform T.inverse = P) ∧
      ∀ T' : TransformType, ∃ T'' : TransformType,
        ∀ (size : Nat) (initial P : Position) (h : List Nat), size ≤ 22 →
          Reached size initial h P → (P.transform T).transform T' = P.transform T'' := by
  constructor
  · intro size initial P h hsize hP
    exact ⟨hP.map hsize T, hP.transform_same hsize T, (hP.sound hsize).transform_inverse T⟩
  · intro T'
    exact ⟨T.andThen T', fun size initial P h hsize hP => (hP.sound hsize).transform_transform T T'⟩

/-- A row of five of Black, with four stones of White. -/
def rowMoves : List Nat :=
  [buildMove 0 0 .black, buildMove 9 9 .white, buildMove 0 1 .black, buildMove 9 11 .white,
    buildMove 0 2 .black, buildMove 11 9 .white, buildMove 0 3 .black, buildMove 11 11 .white,
    buildMove 0 4 .black]

set_option maxRecDepth 20000 in
/-- The row is found, the position rotated, and rotated back. -/
theorem transform_laws_row :
    (((((Position.new 15).playMoves rowMoves).checkFiveInLineSide .black true).2.transform
        .rotate90).transform .rotate270).winConnectionLen = 5 ∧
      (((((Position.new 15).playMoves rowMoves).checkFiveInLineSide .black true).2.transform
        .rotate90).transform .rotate270) =
      (((Position.new 15).playMoves rowMoves).checkFiveInLineSide .black true).2 := by
  obtain ⟨initial, hnew⟩ : ∃ initial : Position, Position.new 15 = initial.initBoard 15 := ⟨_, rfl⟩
  have hlegal : LegalMoves (Position.new 15) rowMoves := by
    unfold LegalMoves
    decide +kernel
  have hreached : Reached 15 initial rowMoves
      (((Position.new 15).playMoves rowMoves).checkFiveInLineSide .black true).2 := by
    rw [hnew] at hlegal ⊢
    exact (Reached.playMoves hlegal (by decide)).search .black true
  have hback := ((transform_laws .rotate90).1 15 initial _ rowMoves (by decide) hreached).2.2
  change Position.transform _ .rotate270 = _ at hback
  rw [hback]
  exact ⟨by decide +kernel, rfl⟩

end Position

end GomokuCli
