import GomokuCli.LastMove
import GomokuCli.WinConnection

/-!
# How many lines one stone wins with

`check_five_in_line_side` asserts at its end that it has counted at most one winning
run.  The sweeps go through every line of the square once, so what they count are the
maximal winning runs of the board.  In a game that stops at the first line all of them
contain the last stone, and there is at most one in each of the four directions: the
count is the number of directions in which the last stone wins, and that may be more
than one.

The games that `play` plays are of this kind (`AtRound.legalPlay`).
-/

namespace GomokuCli

open LineRun

/-- The cell lies on a winning line in direction `d`, of which there is at most one. -/
def WinsAlong (g : Int × Int → Color) (side : Color) (allow : Bool) (c : Int × Int)
    (d : Fin 4) : Prop :=
  ∃ a b, WinningRun g side allow c d a b ∧ a ≤ 0 ∧ 0 ≤ b

/-- Every winning line contains the cell.  In a game that ends with the first line this
holds of the last stone, and it is what makes the number of lines a matter of the
directions. -/
def AllWinsThrough (g : Int × Int → Color) (side : Color) (allow : Bool) (c : Int × Int) :
    Prop :=
  ∀ start d a b, WinningRun g side allow start d a b → ∃ s, a ≤ s ∧ s ≤ b ∧ along start d s = c

section Vectors

variable {g : Int × Int → Color} {side : Color} {allow : Bool} {c start v : Int × Int}
  {d : Fin 4}

theorem alongVec_neg_unit (start : Int × Int) (d : Fin 4) (s : Int) :
    alongVec start (-unit d) s = along start d (-s) := by
  simp [along, alongVec]

theorem alongVec_injective (hv : v = unit d ∨ v = -unit d) (start : Int × Int) :
    Function.Injective (alongVec start v) := by
  intro j k h
  rcases hv with rfl | rfl
  · exact along_injective start d h
  · rw [alongVec_neg_unit, alongVec_neg_unit] at h
    exact neg_injective (along_injective start d h)

/-- The winning line through a cell, seen from another cell of the line and along or
against the direction. -/
theorem winsAlong_alongVec_iff (hv : v = unit d ∨ v = -unit d) (s : Int) :
    WinsAlong g side allow (alongVec start v s) d ↔
      ∃ a b, MaxRun (lineVec g side start v) a b ∧ Wins allow (b - a + 1) ∧ a ≤ s ∧ s ≤ b := by
  rcases hv with rfl | rfl
  · constructor
    · rintro ⟨a, b, ⟨hrun, hwins⟩, ha, hb⟩
      refine ⟨a + s, b + s, (maxRun_lineVec_shift s).mp hrun, ?_, by omega, by omega⟩
      rwa [show b + s - (a + s) + 1 = b - a + 1 by ring]
    · rintro ⟨a, b, hrun, hwins, ha, hb⟩
      refine ⟨a - s, b - s, ⟨(maxRun_lineVec_shift s).mpr ?_, ?_⟩, by omega, by omega⟩
      · rwa [sub_add_cancel, sub_add_cancel]
      · rwa [show b - s - (a - s) + 1 = b - a + 1 by ring]
  · rw [alongVec_neg_unit]
    constructor
    · rintro ⟨a, b, ⟨hrun, hwins⟩, ha, hb⟩
      have hshift := (maxRun_lineOf_shift (-s)).mp hrun
      refine ⟨-(b + -s), -(a + -s), ?_, ?_, by omega, by omega⟩
      · rw [maxRun_lineVec_neg, neg_neg, neg_neg]
        exact hshift
      · rwa [show -(a + -s) - -(b + -s) + 1 = b - a + 1 by ring]
    · rintro ⟨a, b, hrun, hwins, ha, hb⟩
      rw [maxRun_lineVec_neg] at hrun
      refine ⟨-b + s, -a + s, ⟨(maxRun_lineOf_shift (-s)).mpr ?_, ?_⟩, by omega, by omega⟩
      · rwa [add_neg_cancel_right, add_neg_cancel_right]
      · rwa [show -a + s - (-b + s) + 1 = b - a + 1 by ring]

theorem AllWinsThrough.exists_mem (h : AllWinsThrough g side allow c)
    (hv : v = unit d ∨ v = -unit d) {a b : Int} (hrun : MaxRun (lineVec g side start v) a b)
    (hwins : Wins allow (b - a + 1)) : ∃ s, a ≤ s ∧ s ≤ b ∧ alongVec start v s = c := by
  rcases hv with rfl | rfl
  · exact h start d a b ⟨hrun, hwins⟩
  · have hrun' := maxRun_lineVec_neg.mp hrun
    obtain ⟨s, hs, hs', hcell⟩ := h start d (-b) (-a)
      ⟨hrun', by rwa [show -a - -b + 1 = b - a + 1 by ring]⟩
    refine ⟨-s, by omega, by omega, ?_⟩
    rw [alongVec_neg_unit, neg_neg, hcell]

end Vectors

namespace Position

/-- `N` lines of one direction that cover the square, every cell once: the line number
`index c` is the one that contains `c`.  The rows, the columns and both kinds of diagonals
are such families, and the counting is done for all four together. -/
structure Family (size : Nat) (d : Fin 4) (N : Nat) (f : Nat → List Nat)
    (index : Int × Int → Nat) : Prop where
  line : ∀ i < N, ∃ start v L, LineCells size (f i) start v L ∧ (v = unit d ∨ v = -unit d) ∧
    ∀ c, InSquare size c → ((∃ k, c = alongVec start v k) ↔ i = index c)
  index_lt : ∀ c, InSquare size c → index c < N

section Families

variable {P : Position}

theorem rowCells_family (P : Position) :
    Family P.boardSize 0 P.boardSize P.rowCells fun c => c.1.toNat := by
  refine ⟨fun i hi => ⟨_, _, _, P.rowCells_line hi, Or.inl rfl, ?_⟩, ?_⟩
  · rintro ⟨x, y⟩ ⟨⟨hx0, hx⟩, hy0, hy⟩
    simp only [alongVec, Prod.mk.injEq]
    constructor
    · rintro ⟨k, hk, -⟩
      omega
    · rintro rfl
      exact ⟨y, by omega, by omega⟩
  · rintro ⟨x, y⟩ ⟨⟨hx0, hx⟩, -⟩
    simp only at hx0 hx ⊢
    omega

theorem columnCells_family (P : Position) :
    Family P.boardSize 2 P.boardSize P.columnCells fun c => c.2.toNat := by
  refine ⟨fun j hj => ⟨_, _, _, P.columnCells_line hj, Or.inl rfl, ?_⟩, ?_⟩
  · rintro ⟨x, y⟩ ⟨⟨hx0, hx⟩, hy0, hy⟩
    simp only [alongVec, Prod.mk.injEq]
    constructor
    · rintro ⟨k, -, hk⟩
      omega
    · rintro rfl
      exact ⟨x, by omega, by omega⟩
  · rintro ⟨x, y⟩ ⟨-, hy0, hy⟩
    simp only at hy0 hy ⊢
    omega

variable (hshape : P.BoardShape)
include hshape

theorem diagonalCells_family :
    Family P.boardSize 3 (2 * P.boardSize - 1)
      (fun (t : Nat) => P.diagonalCells (-((P.boardSize : Int) - 1) + t))
      fun c => (c.1 - c.2 + ((P.boardSize : Int) - 1)).toNat := by
  refine ⟨fun t ht =>
    ⟨_, _, _, diagonalCells_line hshape (by omega) (by omega), Or.inl rfl, ?_⟩, ?_⟩
  · rintro ⟨x, y⟩ ⟨⟨hx0, hx⟩, hy0, hy⟩
    simp only [alongVec, Prod.mk.injEq]
    simp only at hx0 hx hy0 hy
    constructor
    · rintro ⟨k, hkx, hky⟩
      omega
    · intro ht
      exact ⟨min x y, by omega, by omega⟩
  · rintro ⟨x, y⟩ ⟨⟨hx0, hx⟩, hy0, hy⟩
    simp only at hx0 hx hy0 hy ⊢
    omega

theorem antidiagonalCells_family :
    Family P.boardSize 1 (2 * P.boardSize - 1) P.antidiagonalCells
      fun c => (c.1 + c.2).toNat := by
  refine ⟨fun k hk => ⟨_, _, _, antidiagonalCells_line hshape hk, Or.inr rfl, ?_⟩, ?_⟩
  · rintro ⟨x, y⟩ ⟨⟨hx0, hx⟩, hy0, hy⟩
    simp only [alongVec, Prod.mk.injEq]
    simp only at hx0 hx hy0 hy
    constructor
    · rintro ⟨t, htx, hty⟩
      omega
    · intro hk
      exact ⟨min (k : Int) ((P.boardSize : Int) - 1) - x, by omega, by omega⟩
  · rintro ⟨x, y⟩ ⟨⟨hx0, hx⟩, hy0, hy⟩
    simp only at hx0 hx hy0 hy ⊢
    omega

end Families

/-! ## Counting -/

section Counting

variable {P : Position} (hshape : P.BoardShape) {side : Color} (hside : side ≠ .wall)
  {allow : Bool} {c : Int × Int} (hc : InSquare P.boardSize c)
  (hthrough : AllWinsThrough P.grid side allow c)
include hshape hside hthrough

/-- A line that is not through the cell has no winning run, and no line has one in a
direction in which the cell does not win. -/
theorem lineWins_eq_nil {cells : List Nat} {start v : Int × Int} {L : Nat} {d : Fin 4}
    (hline : LineCells P.boardSize cells start v L) (hv : v = unit d ∨ v = -unit d)
    (hnot : ¬ ((∃ k, c = alongVec start v k) ∧ WinsAlong P.grid side allow c d)) :
    lineWins side allow P.board cells = [] := by
  by_contra hne
  obtain ⟨run, hrun⟩ := List.exists_mem_of_ne_nil _ hne
  obtain ⟨a, hmax, hwins, -⟩ := hline.of_mem_lineWins hshape hside hrun
  have hlength : Wins allow ((a : Int) + run.length - 1 - a + 1) := by
    rwa [show (a : Int) + run.length - 1 - a + 1 = run.length by ring]
  obtain ⟨s, has, hsb, rfl⟩ := hthrough.exists_mem hv hmax hlength
  exact hnot ⟨⟨s, rfl⟩, (winsAlong_alongVec_iff hv s).mpr ⟨_, _, hmax, hlength, has, hsb⟩⟩

/-- The line through the cell has exactly one winning run if the cell wins in its direction.
Two runs of a line that both contain the cell would be the same. -/
theorem length_lineWins_eq_one {cells : List Nat} {start v : Int × Int} {L : Nat} {d : Fin 4}
    {k : Int} (hline : LineCells P.boardSize cells start v L) (hv : v = unit d ∨ v = -unit d)
    (hk : c = alongVec start v k) (hwin : WinsAlong P.grid side allow c d) :
    (lineWins side allow P.board cells).length = 1 := by
  apply le_antisymm
  · -- all of them contain the cell
    rw [lineWins, winning, List.length_map]
    apply length_filter_runs_le_one (k := k)
    rintro ⟨a, n⟩ hmem hwins
    replace hwins : Wins allow n := of_decide_eq_true hwins
    have hfive := hwins.five_le
    have hmax := (hline.mem_runs_iff hshape hside (by omega)).mp hmem
    have hlength : Wins allow ((a : Int) + n - 1 - a + 1) := by
      rwa [show (a : Int) + n - 1 - a + 1 = n by ring]
    obtain ⟨s, has, hsb, hcell⟩ := hthrough.exists_mem hv hmax hlength
    obtain rfl := alongVec_injective hv start (hcell.trans hk)
    exact ⟨has, by omega⟩
  · rw [hk, winsAlong_alongVec_iff hv] at hwin
    obtain ⟨a, b, hmax, hwins, -, -⟩ := hwin
    obtain ⟨r, hr, hrwins⟩ := (hline.exists_run_iff hshape hside).mpr ⟨a, b, hmax, hwins⟩
    rw [lineWins, winning, List.length_map]
    exact List.length_pos_of_mem (List.mem_filter.mpr ⟨hr, decide_eq_true hrwins⟩)

include hc

open Classical in
/-- The lines of one direction have one winning run together, or none.  Only the line
through the cell can have one. -/
theorem Family.length_flatMap {d : Fin 4} {N : Nat} {f : Nat → List Nat}
    {index : Int × Int → Nat} (hf : Family P.boardSize d N f index) :
    (((List.range N).map f).flatMap (lineWins side allow P.board)).length =
      if WinsAlong P.grid side allow c d then 1 else 0 := by
  have hsum : (((List.range N).map f).flatMap (lineWins side allow P.board)).length =
      ∑ i ∈ Finset.range N, (lineWins side allow P.board (f i)).length := by
    rw [List.length_flatMap, List.map_map]
    rfl
  rw [hsum, Finset.sum_eq_single (index c)]
  · obtain ⟨start, v, L, hline, hv, hindex⟩ := hf.line _ (hf.index_lt c hc)
    obtain ⟨k, hk⟩ := (hindex c hc).mpr rfl
    by_cases hwin : WinsAlong P.grid side allow c d
    · rw [if_pos hwin]
      exact length_lineWins_eq_one hshape hside hthrough hline hv hk hwin
    · rw [if_neg hwin, lineWins_eq_nil hshape hside hthrough hline hv fun h => hwin h.2]
      rfl
  · intro i hi hne
    obtain ⟨start, v, L, hline, hv, hindex⟩ := hf.line i (Finset.mem_range.mp hi)
    rw [lineWins_eq_nil hshape hside hthrough hline hv fun h => hne ((hindex c hc).mp h.1)]
    rfl
  · intro hnot
    exact absurd (Finset.mem_range.mpr (hf.index_lt c hc)) hnot

open Classical in
/-- **`fiveCount` is the number of directions in which the cell wins.** The sweeps go
through the four families one after the other, and each adds one or nothing. -/
theorem fiveCountSide_eq_card :
    fiveCountSide side allow P =
      (Finset.univ.filter fun d => WinsAlong P.grid side allow c d).card := by
  have hrow := (rowCells_family P).length_flatMap hshape hside hc hthrough
  have hcolumn := (columnCells_family P).length_flatMap hshape hside hc hthrough
  have hdiagonal := (diagonalCells_family hshape).length_flatMap hshape hside hc hthrough
  have hantidiagonal := (antidiagonalCells_family hshape).length_flatMap hshape hside hc hthrough
  rw [fiveCountSide_eq, wonRuns, lines, List.flatMap_append, List.flatMap_append,
    List.flatMap_append, List.length_append, List.length_append, List.length_append, hrow,
    hcolumn, hdiagonal, hantidiagonal, Finset.card_filter, Fin.sum_univ_four]
  omega

/-- The count is at most one exactly if no two directions through the cell have a win, since
every win goes through it. -/
theorem fiveCountSide_le_one_iff_of_through :
    fiveCountSide side allow P ≤ 1 ↔
      ∀ d d', WinsAlong P.grid side allow c d → WinsAlong P.grid side allow c d' → d = d' := by
  classical
  rw [fiveCountSide_eq_card hshape hside hc hthrough, Finset.card_le_one]
  simp only [Finset.mem_filter, Finset.mem_univ, true_and]
  constructor
  · exact fun h d d' hd hd' => h d hd d' hd'
  · exact fun h d hd d' hd' => h d d' hd hd'

end Counting

end Position

/-! ## Legal play -/

/-- The cells are played in turn from the empty board: no cell twice, no forbidden point of
Black under Renju, and nothing after the first winning line.  It is said of the list alone,
so that an opening and a game can be put together. -/
structure LegalPlay (rule : GameRule) (size : Nat) (cells : List (Int × Int)) : Prop where
  nodup : cells.Nodup
  allowed : ∀ init last rest, cells = init ++ last :: rest → rule = .renju →
    turnAt init.length = .black →
    Position.forbiddenPoint size (stones size init) last = .none
  goesOn : ∀ init last rest, cells = init ++ last :: rest → rest ≠ [] →
    ¬ HasWinningLine (stones size (init ++ [last])) (turnAt init.length)
      (allowsLong rule (turnAt init.length))

namespace LegalPlay

variable {rule : GameRule} {size : Nat} {cells : List (Int × Int)} {c : Int × Int}

theorem of_append_singleton (h : LegalPlay rule size (cells ++ [c])) :
    LegalPlay rule size cells where
  nodup := (List.nodup_append.mp h.nodup).1
  allowed := by
    intro init last rest heq
    exact h.allowed init last (rest ++ [c]) (by rw [heq, List.append_assoc, List.cons_append])
  goesOn := by
    intro init last rest heq _
    exact h.goesOn init last (rest ++ [c]) (by rw [heq, List.append_assoc, List.cons_append])
      (by simp)

/-- Before the last stone nobody has a winning line: the player who is not to move has none
because the game went on after his stone, and the other one had none before. -/
theorem quiet (hin : ∀ e ∈ cells, InSquare size e) (h : LegalPlay rule size (cells ++ [c])) :
    Quiet rule (stones size cells) := by
  induction cells using List.reverseRecOn generalizing c with
  | nil => exact fun color hcolor => not_hasWinningLine_nil hcolor _
  | append_singleton init last ih =>
      have hquiet : Quiet rule (stones size init) :=
        ih (fun e he => hin e (List.mem_append_left _ he)) h.of_append_singleton
      have hempty : stones size init last = .empty := by
        rw [stones_eq_empty_iff]
        refine ⟨hin last (List.mem_append_right _ List.mem_cons_self), fun hmem => ?_⟩
        have hnodup := h.of_append_singleton.nodup
        exact (List.nodup_append.mp hnodup).2.2 last hmem last List.mem_cons_self rfl
      have hnot := h.goesOn init last [c] (by rw [List.append_assoc]; rfl) (List.cons_ne_nil _ _)
      rw [stones_append_singleton] at hnot ⊢
      exact (hquiet.update (turnAt_isStone _) hempty).2 hnot

theorem allWinsThrough (hin : ∀ e ∈ cells, InSquare size e)
    (h : LegalPlay rule size (cells ++ [c])) :
    AllWinsThrough (stones size (cells ++ [c])) (turnAt cells.length)
      (allowsLong rule (turnAt cells.length)) c := by
  intro start d a b hrun
  rw [stones_append_singleton] at hrun
  exact hrun.contains_of_update (h.quiet hin _ (turnAt_isStone _))

/-- One move more. -/
theorem append_singleton (h : LegalPlay rule size cells) (hnew : c ∉ cells)
    (hallowed : rule = .renju → turnAt cells.length = .black →
      Position.forbiddenPoint size (stones size cells) c = .none)
    (hgoesOn : ∀ init last, cells = init ++ [last] →
      ¬ HasWinningLine (stones size cells) (turnAt init.length)
        (allowsLong rule (turnAt init.length))) :
    LegalPlay rule size (cells ++ [c]) where
  nodup := List.Nodup.append h.nodup (List.nodup_singleton c) (by simpa using hnew)
  allowed := by
    intro init last rest heq hrule hblack
    rcases List.eq_nil_or_concat' rest with rfl | ⟨rest, e, rfl⟩
    · obtain ⟨rfl, hlast⟩ := List.append_inj' heq rfl
      obtain rfl := List.singleton_inj.mp hlast
      exact hallowed hrule hblack
    · rw [← List.cons_append, ← List.append_assoc] at heq
      exact h.allowed init last rest (List.append_inj' heq rfl).1 hrule hblack
  goesOn := by
    intro init last rest heq hrest
    obtain ⟨rest, e, rfl⟩ := (List.eq_nil_or_concat' rest).resolve_left hrest
    rw [← List.cons_append, ← List.append_assoc] at heq
    obtain ⟨hcells, -⟩ := List.append_inj' heq rfl
    rcases eq_or_ne rest [] with rfl | hne
    · rw [← hcells]
      exact hgoesOn init last hcells
    · exact h.goesOn init last rest hcells hne

end LegalPlay

/-! ## The games that are played -/

/-- The sentinel never forbids a line that the last stone's colour may make. -/
theorem HasWinningLine.of_sentinel {g : Int × Int → Color} {side color : Color}
    {rule : GameRule} (h : HasWinningLine g side (allowsLong rule color)) :
    HasWinningLine g side (Game.allowLongConnection rule noneMove) := by
  cases rule with
  | gomokuFiveOrMore => exact h
  | gomokuExactFive => exact h
  | renju =>
      have hallow : Game.allowLongConnection .renju noneMove = true := by decide
      rw [hallow]
      exact h.long

namespace Match

open PlayState Position

variable {m : Match} {g : Game} {s s' : PlayState} {P : Position} {cells : List (Int × Int)}
  {moves : List Nat}

/-- What is kept from round to round: opening and game together are legal play.  The list
has to be legal as a whole, since a line may have stones of both parts. -/
structure LegalBefore (m : Match) (P : Position) (cells : List (Int × Int)) (moves : List Nat)
    (s : PlayState) : Prop where
  playing : Playing m P moves s
  represents : ∃ r : Record m.options.boardSize, (P.playMoves moves).Represents r
  legalPlay : LegalPlay m.options.gameRule m.options.boardSize (cells ++ moveCells moves)

theorem LegalBefore.quietBefore (h : LegalBefore m P cells moves s)
    (hstart : P.Follows m.options.boardSize cells) : QuietBefore m P moves s := by
  refine ⟨h.playing, h.represents, ?_⟩
  rintro init last rfl
  have hinit := hstart.playMoves h.playing.legal.of_append_singleton.1
  have hlegal := h.legalPlay
  rw [moveCells_append_singleton, ← List.append_assoc] at hlegal
  rw [hinit.grid_eq]
  exact hlegal.quiet hinit.inSquare

/-- The game goes on only if the last stone has won nothing. -/
theorem LegalBefore.goesOn (h : LegalBefore m P cells moves s)
    (hstart : P.Follows m.options.boardSize cells)
    (hno : (s.enterPly.game.gameApplyRules s.played).1 ≠ .fiveConnect)
    {init : List (Int × Int)} {last : Int × Int} (heq : cells ++ moveCells moves = init ++ [last]) :
    ¬ HasWinningLine (stones m.options.boardSize (cells ++ moveCells moves))
      (turnAt init.length) (allowsLong m.options.gameRule (turnAt init.length)) := by
  intro hline
  apply hno
  rcases List.eq_nil_or_concat' moves with rfl | ⟨before, played, rfl⟩
  · -- before the first move the sentinel stands for the last stone
    obtain rfl : cells = init ++ [last] := (List.append_nil cells).symm.trans heq
    rw [h.playing.fiveConnect_first_iff hstart, hstart.grid_eq]
    rw [show moveCells [] = [] from rfl, List.append_nil] at hline
    exact hline.of_sentinel
  · have hfollows := hstart.playMoves h.playing.legal.of_append_singleton.1
    rw [moveCells_append_singleton, ← List.append_assoc] at heq hline
    obtain ⟨rfl, -⟩ := List.append_inj' heq rfl
    have hturn := hfollows.turn
    rw [hfollows.moveCount] at hturn
    rw [h.playing.fiveConnect_iff hstart (h.quietBefore hstart).color, hturn, hfollows.grid_eq,
      ← stones_append_singleton]
    exact hline

theorem LegalBefore.step (hbefore : LegalBefore m (g.pos 0) cells moves s)
    (hstart : (g.pos 0).Follows m.options.boardSize cells) (hanswers : AnswersInSquare m g)
    (hat : AtRound m g s) (hround : m.round s = .ok s') (haccepts : m.Accepts s s'.played) :
    LegalBefore m (g.pos 0) cells (moves ++ [s'.played]) s' := by
  have hplaying := hbefore.playing
  have hin := hanswers s s' hat hround
  have hfollows := hstart.playMoves hplaying.legal
  obtain ⟨r, hrep⟩ := hbefore.represents
  obtain ⟨r', -, hrep'⟩ := hplaying.represents_step hrep haccepts hin
  obtain ⟨-, hcolor⟩ := accepted_of_inSquare hstart.size_le haccepts.reads hin
  rw [hplaying.asked_position.playerToMove] at hcolor
  refine ⟨hplaying.step hstart hround, ⟨r', hrep'⟩, ?_⟩
  rw [moveCells_append_singleton, ← List.append_assoc]
  refine hbefore.legalPlay.append_singleton ?_ (fun hrule hblack => ?_) fun init last heq => ?_
  · exact (((hplaying.follows hstart).isLegalMove_iff _).mp haccepts.legal).2
  · rw [← hfollows.moveCount, ← hfollows.turn] at hblack
    rw [← hfollows.grid_eq]
    exact haccepts.forbiddenPoint_eq hplaying hrule hstart hcolor hblack
  · exact hbefore.goesOn hstart haccepts.not_fiveConnect heq

/-- **The games are legal play**: so are the positions that `game_apply_rules` is called on,
in every round of a game whose opening is legal play.  Hence what is said of the assertion
is about the calls that the program makes. -/
theorem AtRound.legalPlay (h : Loads m g) (hstart : (g.pos 0).Follows m.options.boardSize cells)
    (hopening : LegalPlay m.options.gameRule m.options.boardSize cells)
    (hanswers : AnswersInSquare m g) (hs : AtRound m g s) :
    ∃ moves, s.enterPly.position.Follows m.options.boardSize (cells ++ moveCells moves) ∧
      LegalPlay m.options.gameRule m.options.boardSize (cells ++ moveCells moves) := by
  have hkept : ∃ moves, LegalBefore m (g.pos 0) cells moves s := by
    refine hs.invariant (fun s => ∃ moves, LegalBefore m (g.pos 0) cells moves s) h ?_ ?_
    · intro s₀ hstarted
      have hnodup : (g.pos 0).historyCells.Nodup := hstart.moves.symm ▸ hopening.nodup
      refine ⟨[], Playing.init h hstarted, h.represents hnodup, ?_⟩
      rwa [show moveCells [] = [] from rfl, List.append_nil]
    · rintro t t' hat ⟨moves, hbefore⟩ hround hcontinues
      exact ⟨moves ++ [t'.played],
        hbefore.step hstart hanswers hat hround hcontinues.accepts⟩
  obtain ⟨moves, hbefore⟩ := hkept
  exact ⟨moves, hbefore.playing.position.follows (hstart.playMoves hbefore.playing.legal),
    hbefore.legalPlay⟩

end Match

namespace Position

/-- **When the assertion `fiveCount <= 1` holds** after a move of a legal game: the stone
that was played last wins in at most one direction.  A stone that completes two lines at
once is legal, and fails the assertion. -/
theorem fiveCountSide_le_one_iff {rule : GameRule} {size : Nat} {cells : List (Int × Int)}
    {c : Int × Int} {P : Position} (hfollows : P.Follows size (cells ++ [c]))
    (hlegal : LegalPlay rule size (cells ++ [c])) :
    fiveCountSide (turnAt cells.length) (allowsLong rule (turnAt cells.length)) P ≤ 1 ↔
      ∀ d d',
        WinsAlong P.grid (turnAt cells.length) (allowsLong rule (turnAt cells.length)) c d →
        WinsAlong P.grid (turnAt cells.length) (allowsLong rule (turnAt cells.length)) c d' →
        d = d' := by
  have hin : InSquare P.boardSize c := by
    rw [hfollows.boardSize]
    exact hfollows.inSquare c (List.mem_append_right _ List.mem_cons_self)
  have hthrough := hlegal.allWinsThrough fun e he =>
    hfollows.inSquare e (List.mem_append_left _ he)
  rw [← hfollows.grid_eq] at hthrough
  exact fiveCountSide_le_one_iff_of_through hfollows.shape (turnAt_isStone _).ne_wall hin hthrough

/-- On the smallest board Black fills the middle row and the middle column, the cell in
the middle last. -/
def crossCells : List (Int × Int) :=
  [(2, 0), (0, 0), (2, 1), (0, 1), (2, 3), (0, 3), (2, 4), (0, 4), (0, 2), (1, 0), (1, 2), (1, 1),
    (3, 2), (1, 3), (4, 2), (1, 4), (2, 2)]

def crossMoves : List Nat := crossCells.zipIdx.map fun c => buildMove c.1.1 c.1.2 (turnAt c.2)

set_option maxRecDepth 20000 in
theorem crossMoves_legal : (Position.new 5).LegalMoves crossMoves := by
  unfold LegalMoves
  decide +kernel

theorem crossMoves_follows (k : Nat) :
    ((Position.new 5).playMoves (crossMoves.take k)).Follows 5 (crossCells.take k) := by
  have hcells : moveCells crossMoves = crossCells := by decide
  have hstart : (Position.new 5).Follows 5 [] := initBoard_follows _ (by decide)
  have hplay := hstart.playMoves (crossMoves_legal.take k)
  rwa [List.nil_append, moveCells, List.map_take, ← moveCells, hcells] at hplay

set_option maxRecDepth 20000 in
/-- Nobody has a line before the last stone. -/
theorem crossCells_legalPlay : LegalPlay .gomokuFiveOrMore 5 crossCells where
  nodup := by decide
  allowed := by
    intro init last rest _ hrule
    cases hrule
  goesOn := by
    have hquiet : ∀ k < 16, (((Position.new 5).playMoves
        (crossMoves.take (k + 1))).checkFiveInLineSide (turnAt k) true).1 = false := by
      decide +kernel
    intro init last rest heq hrest hline
    have hlength : init.length < 16 := by
      have htotal := congrArg List.length heq
      rw [List.length_append, List.length_cons] at htotal
      have hpos := List.length_pos_iff.mpr hrest
      have hcount : crossCells.length = 17 := rfl
      omega
    have htake : init ++ [last] = crossCells.take (init.length + 1) := by
      rw [heq, List.take_length_add_append]
      rfl
    have hfollows := crossMoves_follows (init.length + 1)
    rw [htake, ← hfollows.grid_eq,
      ← checkFiveInLineSide_iff hfollows.shape (turnAt_isStone _).ne_wall] at hline
    rw [show allowsLong .gomokuFiveOrMore (turnAt init.length) = true from rfl,
      hquiet _ hlength] at hline
    cases hline

set_option maxRecDepth 20000 in
theorem fiveCountSide_le_one_cross :
    fiveCountSide .black true ((Position.new 5).playMoves crossMoves) ≤ 1 ↔
      ∀ d d', WinsAlong ((Position.new 5).playMoves crossMoves).grid .black true (2, 2) d →
        WinsAlong ((Position.new 5).playMoves crossMoves).grid .black true (2, 2) d' → d = d' := by
  have hcells : crossCells = crossCells.take 16 ++ [(2, 2)] := by decide
  have hfollows : ((Position.new 5).playMoves crossMoves).Follows 5
      (crossCells.take 16 ++ [(2, 2)]) := crossMoves_follows 17
  have hlegal : LegalPlay .gomokuFiveOrMore 5 (crossCells.take 16 ++ [(2, 2)]) :=
    hcells ▸ crossCells_legalPlay
  have hblack : turnAt (crossCells.take 16).length = .black := by decide
  have hcount := fiveCountSide_le_one_iff hfollows hlegal
  rw [hblack] at hcount
  exact hcount

set_option maxRecDepth 20000 in
/-- The last stone of this game makes two lines at once, and the assertion fails. -/
theorem fiveCountSide_cross :
    ((Position.new 5).playMoves crossMoves).Follows 5 crossCells ∧
      LegalPlay .gomokuFiveOrMore 5 crossCells ∧ turnAt (crossCells.length - 1) = .black ∧
      fiveCountSide .black (allowsLong .gomokuFiveOrMore .black)
        ((Position.new 5).playMoves crossMoves) = 2 :=
  ⟨crossMoves_follows 17, crossCells_legalPlay, by decide, by decide +kernel⟩

end Position

end GomokuCli
