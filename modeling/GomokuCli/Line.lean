import GomokuCli.Library.MaxRun
import GomokuCli.Record

/-!
# Lines of the board

The four directions of the source are differences of packed cells.  On the grid
they are unit vectors, and as long as a walk starts on the square and takes at
most five steps the two agree, because the ring of walls around the square is
five cells wide (`BoardShape.board_offset`).

The second half states what a winning line is, on an arbitrary colouring of the
plane and without any bound on how far a line is looked at, and how one more
stone changes the set of winning lines.
-/

namespace GomokuCli

open LineRun

/-- `DIRECTION`, as differences of packed cells. -/
def direction : Fin 4 → Int
  | 0 => 1
  | 1 => (maxBoardSize : Int) - 1
  | 2 => maxBoardSize
  | 3 => (maxBoardSize : Int) + 1

/-- The unit vector of a direction: along a row, along a column, and the two diagonals. -/
def unit : Fin 4 → Int × Int
  | 0 => (0, 1)
  | 1 => (1, -1)
  | 2 => (1, 0)
  | 3 => (1, 1)

theorem direction_eq (d : Fin 4) : direction d = 32 * (unit d).1 + (unit d).2 := by
  fin_cases d <;> rfl

theorem unit_ne_zero (d : Fin 4) : (unit d).1 ≠ 0 ∨ (unit d).2 ≠ 0 := by
  fin_cases d <;> decide

/-- The index `p + k`, computed as an `int`. -/
def offset (p : Nat) (k : Int) : Nat := ((p : Int) + k).toNat

/-- The cell `k` steps from `c` along the vector `v`. -/
def alongVec (c v : Int × Int) (k : Int) : Int × Int := (c.1 + k * v.1, c.2 + k * v.2)

/-- The cell `k` steps from `c` in direction `d`. -/
def along (c : Int × Int) (d : Fin 4) (k : Int) : Int × Int := alongVec c (unit d) k

@[simp] theorem alongVec_zero (c v : Int × Int) : alongVec c v 0 = c := by
  simp [alongVec]

@[simp] theorem along_zero (c : Int × Int) (d : Fin 4) : along c d 0 = c :=
  alongVec_zero c _

theorem alongVec_alongVec (c v : Int × Int) (j k : Int) :
    alongVec (alongVec c v j) v k = alongVec c v (k + j) := by
  simp only [alongVec, Prod.mk.injEq]
  constructor <;> ring

theorem along_along (c : Int × Int) (d : Fin 4) (j k : Int) :
    along (along c d j) d k = along c d (k + j) :=
  alongVec_alongVec c (unit d) j k

theorem along_injective (c : Int × Int) (d : Fin 4) : Function.Injective (along c d) := by
  intro j k h
  simp only [along, alongVec, Prod.mk.injEq] at h
  obtain ⟨hx, hy⟩ := h
  rcases unit_ne_zero d with hne | hne
  · exact mul_right_cancel₀ hne (by linarith)
  · exact mul_right_cancel₀ hne (by linarith)

/-- Five steps from the square stay inside the padded array. -/
theorem along_range {size : Nat} {c : Int × Int} (hsize : size ≤ 22)
    (hc : InSquare size c) (d : Fin 4) {k : Int} (hk : -5 ≤ k ∧ k ≤ 5) :
    (-5 ≤ (along c d k).1 ∧ (along c d k).1 < 27) ∧
      (-5 ≤ (along c d k).2 ∧ (along c d k).2 < 27) := by
  obtain ⟨⟨hx0, hx⟩, hy0, hy⟩ := hc
  fin_cases d <;> simp only [along, alongVec, unit] <;> omega

theorem offset_posOf {size : Nat} {c : Int × Int} (hsize : size ≤ 22)
    (hc : InSquare size c) (d : Fin 4) {k : Int} (hk : -5 ≤ k ∧ k ≤ 5) :
    offset (posOf c) (direction d * k) = posOf (along c d k) := by
  have hpos := posOf_eq (hc.range hsize)
  have halong := posOf_eq (along_range hsize hc d hk)
  rw [direction_eq]
  simp only [along, alongVec] at halong
  have hsum : (posOf c : Int) + (32 * (unit d).1 + (unit d).2) * k = posOf (along c d k) := by
    rw [hpos, along, alongVec, halong]
    ring
  rw [offset, hsum, Int.toNat_natCast]

/-- **The array read along a direction is the grid read along it**, for as many steps as the
padding allows.  Adding a difference to a packed cell never runs over from one row into the
next within these steps. -/
theorem Position.BoardShape.board_offset {P : Position} (hshape : P.BoardShape)
    {c : Int × Int} (hc : InSquare P.boardSize c) (d : Fin 4) {k : Int}
    (hk : -5 ≤ k ∧ k ≤ 5) :
    P.board (offset (posOf c) (direction d * k)) = P.grid (along c d k) := by
  rw [offset_posOf hshape.size_le hc d hk,
    hshape.board_posOf (along_range hshape.size_le hc d hk)]

/-! ## Winning lines -/

/-- The length of a line that wins: five or more when long connections are allowed, else
exactly five.  The rules of the game differ in nothing else here. -/
def Wins (allowLongConnection : Bool) (n : Int) : Prop :=
  if allowLongConnection then 5 ≤ n else n = 5

instance (allow : Bool) (n : Int) : Decidable (Wins allow n) :=
  inferInstanceAs (Decidable (if allow then 5 ≤ n else n = 5))

theorem Wins.five_le {allow : Bool} {n : Int} (h : Wins allow n) : 5 ≤ n := by
  cases allow <;> simp only [Wins, Bool.false_eq_true, if_false, if_true] at h <;> omega

/-- The stones of `side` on the line through `c` along the vector `v`. -/
def lineVec (g : Int × Int → Color) (side : Color) (c v : Int × Int) (k : Int) : Prop :=
  g (alongVec c v k) = side

/-- Another cell of the line as the origin. -/
theorem maxRun_lineVec_shift {g : Int × Int → Color} {side : Color} {c v : Int × Int}
    {a b : Int} (s : Int) :
    MaxRun (lineVec g side (alongVec c v s) v) a b ↔
      MaxRun (lineVec g side c v) (a + s) (b + s) := by
  have hline : lineVec g side (alongVec c v s) v = fun k => lineVec g side c v (k + s) := by
    funext k
    rw [lineVec, alongVec_alongVec, lineVec]
  rw [hline, MaxRun.shift_iff]

/-- The line read against its direction. -/
theorem maxRun_lineVec_neg {g : Int × Int → Color} {side : Color} {c v : Int × Int}
    {a b : Int} :
    MaxRun (lineVec g side c (-v)) a b ↔ MaxRun (lineVec g side c v) (-b) (-a) := by
  have hline : lineVec g side c (-v) = fun k => lineVec g side c v (-k) := by
    funext k
    simp [lineVec, alongVec]
  rw [hline, MaxRun.neg_iff]

/-- The stones of `side` on the line through `c` in direction `d`. -/
def lineOf (g : Int × Int → Color) (side : Color) (c : Int × Int) (d : Fin 4) (k : Int) :
    Prop :=
  g (along c d k) = side

/-- A maximal run of `side`, between the offsets `a` and `b` from `c`, that is long enough
to win.  It has to be maximal, because five stones of a longer line do not count where long
connections do not win. -/
structure WinningRun (g : Int × Int → Color) (side : Color) (allow : Bool)
    (c : Int × Int) (d : Fin 4) (a b : Int) : Prop where
  run : MaxRun (lineOf g side c d) a b
  wins : Wins allow (b - a + 1)

/-- `side` has a winning line somewhere.  This is what a test of the whole board decides. -/
def HasWinningLine (g : Int × Int → Color) (side : Color) (allow : Bool) : Prop :=
  ∃ c d a b, WinningRun g side allow c d a b

/-- The cell `c` lies on a winning line of `side`.  This is what a test after a move at `c`
decides. -/
def OnWinningLine (g : Int × Int → Color) (side : Color) (allow : Bool) (c : Int × Int) :
    Prop :=
  ∃ d a b, WinningRun g side allow c d a b ∧ a ≤ 0 ∧ 0 ≤ b

/-- A line that wins has five stones or more. -/
theorem HasWinningLine.long {g : Int × Int → Color} {side : Color} {allow : Bool}
    (h : HasWinningLine g side allow) : HasWinningLine g side true := by
  obtain ⟨c, d, a, b, hrun, hwins⟩ := h
  exact ⟨c, d, a, b, hrun, hwins.five_le⟩

theorem OnWinningLine.hasWinningLine {g : Int × Int → Color} {side : Color} {allow : Bool}
    {c : Int × Int} (h : OnWinningLine g side allow c) : HasWinningLine g side allow := by
  obtain ⟨d, a, b, hrun, -, -⟩ := h
  exact ⟨c, d, a, b, hrun⟩

theorem lineOf_eq_lineVec (g : Int × Int → Color) (side : Color) (c : Int × Int)
    (d : Fin 4) : lineOf g side c d = lineVec g side c (unit d) := rfl

theorem maxRun_lineOf_shift {g : Int × Int → Color} {side : Color} {c : Int × Int}
    {d : Fin 4} {a b : Int} (s : Int) :
    MaxRun (lineOf g side (along c d s) d) a b ↔
      MaxRun (lineOf g side c d) (a + s) (b + s) :=
  maxRun_lineVec_shift s

/-- A winning run is a winning line through each of its cells. -/
theorem WinningRun.onWinningLine {g : Int × Int → Color} {side : Color} {allow : Bool}
    {c : Int × Int} {d : Fin 4} {a b : Int} (h : WinningRun g side allow c d a b) {s : Int}
    (has : a ≤ s) (hsb : s ≤ b) : OnWinningLine g side allow (along c d s) := by
  refine ⟨d, a - s, b - s, ⟨?_, ?_⟩, by omega, by omega⟩
  · rw [maxRun_lineOf_shift]
    simpa using h.run
  · rw [show b - s - (a - s) + 1 = b - a + 1 by ring]
    exact h.wins

section Place

variable {g : Int × Int → Color} {side other : Color} {allow : Bool} {p : Int × Int}

/-- A winning run that a stone has made contains the stone: away from it the run was
there before. -/
theorem WinningRun.contains_of_update (hno : ¬ HasWinningLine g side allow) {c : Int × Int}
    {d : Fin 4} {a b : Int} (hrun : WinningRun (Function.update g p side) side allow c d a b) :
    ∃ s, a ≤ s ∧ s ≤ b ∧ along c d s = p := by
  by_contra hon
  push Not at hon
  refine absurd ⟨c, d, a, b, ⟨?_, hrun.wins⟩⟩ hno
  refine ⟨hrun.run.le, fun k hak hkb => ?_, fun h => hrun.run.left ?_,
    fun h => hrun.run.right ?_⟩
  · have hk := hrun.run.holds k hak hkb
    rwa [lineOf, Function.update_of_ne (hon k hak hkb)] at hk
  · by_cases hp : along c d (a - 1) = p
    · simp [lineOf, hp]
    · rwa [lineOf, Function.update_of_ne hp]
  · by_cases hp : along c d (b + 1) = p
    · simp [lineOf, hp]
    · rwa [lineOf, Function.update_of_ne hp]

/-- **A stone only makes winning lines that contain it.** If nobody has won so far, it is
enough to look at the lines through the last move, which is what the referee does. -/
theorem hasWinningLine_update_iff (hno : ¬ HasWinningLine g side allow) :
    HasWinningLine (Function.update g p side) side allow ↔
      OnWinningLine (Function.update g p side) side allow p := by
  constructor
  · rintro ⟨c, d, a, b, hrun⟩
    obtain ⟨s, has, hsb, rfl⟩ := hrun.contains_of_update hno
    exact hrun.onWinningLine has hsb
  · exact OnWinningLine.hasWinningLine

/-- A stone on an empty cell leaves the lines of the other player alone. -/
theorem hasWinningLine_update_other (hempty : g p = .empty) (hother : other.IsStone)
    (hne : other ≠ side) :
    HasWinningLine (Function.update g p side) other allow ↔
      HasWinningLine g other allow := by
  have hline : ∀ c d, lineOf (Function.update g p side) other c d = lineOf g other c d := by
    intro c d
    funext k
    by_cases hp : along c d k = p
    · simp [lineOf, hp, hempty, hne.symm, hother.ne_empty.symm]
    · simp [lineOf, Function.update_of_ne hp]
  constructor
  · rintro ⟨c, d, a, b, hrun, hwins⟩
    exact ⟨c, d, a, b, hline c d ▸ hrun, hwins⟩
  · rintro ⟨c, d, a, b, hrun, hwins⟩
    exact ⟨c, d, a, b, (hline c d).symm ▸ hrun, hwins⟩

end Place

/-- On a grid that is `wall` outside the square, the stones of a line are bounded, so that
every stone lies in a maximal run. -/
theorem lineOf_bounded {g : Int × Int → Color} {size : Nat} {side : Color}
    (hwall : ∀ c, ¬ InSquare size c → g c = .wall) (hside : side ≠ .wall)
    {c : Int × Int} (hc : InSquare size c) (d : Fin 4) (k : Int)
    (h : lineOf g side c d k) : -(size : Int) ≤ k ∧ k ≤ size := by
  have hin : InSquare size (along c d k) := by
    by_contra hout
    rw [lineOf, hwall _ hout] at h
    exact hside h.symm
  obtain ⟨⟨hx0, hx⟩, hy0, hy⟩ := hc
  obtain ⟨⟨hkx0, hkx⟩, hky0, hky⟩ := hin
  fin_cases d <;> simp only [along, alongVec, unit] at hkx0 hkx hky0 hky <;> omega

end GomokuCli
