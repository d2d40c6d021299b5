import GomokuCli.Forbidden
import GomokuCli.Pattern

/-!
# The finder decides the reference

Every function of the finder, called for Black on an empty cell, returns what
the definitions of `GomokuCli.Pattern` say about that cell, and returns the
position it was given.  The two facts are proved together, function by function,
because each function runs on the board that the previous one left behind.

What makes the short scans sufficient is the guard they share: once a stone at
`c` makes neither a five nor an overline, the run through it has at most four
stones, so the two loops with their common budget both reach its ends
(`exists_scan`).
-/

namespace GomokuCli

open LineRun

theorem lineOf_place_self (g : Int × Int → Color) (c : Int × Int) (d : Fin 4) :
    lineOf (place g c) .black c d 0 := by
  simp [lineOf, place]

theorem lineOf_place_of_ne (g : Int × Int → Color) (c : Int × Int) (d : Fin 4) {k : Int}
    (hk : k ≠ 0) : lineOf (place g c) .black c d k ↔ lineOf g .black c d k := by
  have h := lineOf_place (g := g) (p := c) (d := d) (k := 0) k
  rwa [along_zero, or_iff_right hk] at h

namespace Position

section Reading

variable {P : Position} (hshape : P.BoardShape) {c : Int × Int} {d : Fin 4}
include hshape

theorem BoardShape.inSquare_of_empty (hc : P.grid c = .empty) : InSquare P.boardSize c := by
  by_contra hout
  rw [hshape.grid_eq_wall_iff.mpr hout] at hc
  cases hc

theorem BoardShape.board_of_inSquare (hc : InSquare P.boardSize c) :
    P.board (posOf c) = P.grid c :=
  hshape.board_posOf (hc.range hshape.size_le)

theorem BoardShape.lineOf_bounded {side : Color} (hside : side ≠ .wall)
    (hc : InSquare P.boardSize c) (k : Int) (h : lineOf P.grid side c d k) :
    -(P.boardSize : Int) ≤ k ∧ k ≤ P.boardSize :=
  GomokuCli.lineOf_bounded (fun _ hout => hshape.grid_eq_wall_iff.mpr hout) hside hc d k h

/-- The scans of the finder read the line through `c`, whatever its origin holds.  They go
at most five cells away, so that the padding of the array is enough for them. -/
theorem BoardShape.readsLine (hc : InSquare P.boardSize c) {f : Int → Prop} {n : Nat}
    (hn : n ≤ 5) (hf : ∀ k, k ≠ 0 → (f k ↔ lineOf P.grid .black c d k)) :
    ReadsLine f n (fun i => P.holdsPiece (posOf c) .black d (-i))
      (fun j => P.holdsPiece (posOf c) .black d j) := by
  constructor
  · intro i hi hin
    rw [hf _ (by omega), holdsPiece, beq_iff_eq,
      hshape.board_offset hc d (by omega), lineOf]
  · intro j hj hjn
    rw [hf _ (by omega), holdsPiece, beq_iff_eq,
      hshape.board_offset hc d (by omega), lineOf]

/-- `isFive` in one direction decides whether the new run is exactly five.  The two loops
together see six cells, and so they can tell five from more. -/
theorem BoardShape.isFiveDir_iff (hc : InSquare P.boardSize c) :
    P.isFiveDir (posOf c) .black d = true ↔
      P.grid c = .empty ∧ RunThrough (place P.grid c) c d (· = 5) := by
  rw [isFiveDir, hshape.board_of_inSquare hc]
  by_cases hempty : P.grid c = .empty
  · have hread := hshape.readsLine (d := d) hc (le_refl 5)
      fun k hk => lineOf_place_of_ne P.grid c d hk
    rw [if_neg (not_not.mpr hempty), runCount, beq_iff_eq,
      walk_eq_iff hread (lineOf_place_self P.grid c d)]
    simp only [hempty, true_and]
    rfl
  · simp [hempty]

variable (hc : P.grid c = .empty)
include hc

theorem BoardShape.isFive_iff : P.isFive (posOf c) .black = true ↔ MakesFive P.grid c := by
  have hin := hshape.inSquare_of_empty hc
  rw [isFive, hshape.board_of_inSquare hin, if_neg (not_not.mpr hc), List.any_eq_true]
  constructor
  · rintro ⟨d, -, hd⟩
    exact ⟨d, ((hshape.isFiveDir_iff hin).mp hd).2⟩
  · rintro ⟨d, hd⟩
    exact ⟨d, List.mem_finRange d, (hshape.isFiveDir_iff hin).mpr ⟨hc, hd⟩⟩

/-- With a stone on it, the line is still bounded by the walls. -/
theorem BoardShape.lineOf_place_bounded (k : Int)
    (h : lineOf (place P.grid c) .black c d k) :
    -(P.boardSize : Int) ≤ k ∧ k ≤ P.boardSize := by
  have hin := hshape.inSquare_of_empty hc
  by_cases hk : k = 0
  · subst hk
    constructor <;> simp
  · exact hshape.lineOf_bounded (by simp) hin k ((lineOf_place_of_ne P.grid c d hk).mp h)

theorem BoardShape.runCount_gt_iff :
    5 < P.runCount (posOf c) .black d ↔ RunThrough (place P.grid c) c d (6 ≤ ·) := by
  have hin := hshape.inSquare_of_empty hc
  have hread := hshape.readsLine (d := d) hin (le_refl 5)
    fun k hk => lineOf_place_of_ne P.grid c d hk
  exact lt_walk_iff hread (lineOf_place_self P.grid c d) (hshape.lineOf_place_bounded hc)

theorem BoardShape.isOverline_iff :
    P.isOverline (posOf c) .black = true ↔ MakesOverline P.grid c := by
  have hin := hshape.inSquare_of_empty hc
  rw [isOverline, hshape.board_of_inSquare hin, if_neg (not_not.mpr hc), List.any_eq_true]
  constructor
  · rintro ⟨d, -, hd⟩
    exact ⟨d, (hshape.runCount_gt_iff hc).mp (of_decide_eq_true hd)⟩
  · rintro ⟨d, hd⟩
    exact ⟨d, List.mem_finRange d, decide_eq_true ((hshape.runCount_gt_iff hc).mpr hd)⟩

theorem BoardShape.noPattern_iff :
    P.noPattern (posOf c) .black = true ↔ MakesFive P.grid c ∨ MakesOverline P.grid c := by
  have hin := hshape.inSquare_of_empty hc
  simp [noPattern, hshape.board_of_inSquare hin, hc, hshape.isFive_iff hc,
    hshape.isOverline_iff hc]

/-! ## The board with the stone on it -/

theorem BoardShape.setPiece_black : (P.setPiece (posOf c) .black).BoardShape := by
  have hin := hshape.inSquare_of_empty hc
  refine hshape.setPiece ?_ (by simp)
  rwa [hin.cellOf_posOf hshape.size_le]

theorem BoardShape.grid_setPiece_black :
    (P.setPiece (posOf c) .black).grid = place P.grid c := by
  have hin := hshape.inSquare_of_empty hc
  have hcell := hin.cellOf_posOf hshape.size_le
  rw [hshape.grid_setPiece (by rwa [hcell]), hcell, place]

theorem BoardShape.delPiece_setPiece_black :
    (P.setPiece (posOf c) .black).delPiece (posOf c) = P := by
  apply delPiece_setPiece
  rw [hshape.board_of_inSquare (hshape.inSquare_of_empty hc), hc]

/-- What the two loops of `isFour` and its siblings find: the run through `c` reaches from
`-i` to `j`, and they stop next to it.  The loops of the three functions are the same, and
what follows from it is proved once. -/
structure Scan (P : Position) (c : Int × Int) (d : Fin 4) (i j : Nat) : Prop where
  back : (P.setPiece (posOf c) .black).stopBack (posOf c) .black d = i + 1
  fwd : (P.setPiece (posOf c) .black).stopFwd (posOf c) .black d (i + 1) = j + 1
  short : i + j ≤ 3
  run : MaxRun (lineOf (place P.grid c) .black c d) (-(i : Int)) j

omit hshape hc in
/-- Neither loop reaches its bound. -/
theorem Scan.broke {i j : Nat} (h : Scan P c d i j) :
    decide (i + 1 < 5) = true ∧ decide (j + 1 < 6 - (i + 1)) = true := by
  have hshort := h.short
  exact ⟨decide_eq_true (by omega), decide_eq_true (by omega)⟩

/-- The loops measure the run through `c` when it is neither a five nor longer.  The early
returns have seen to that, so that the short budget of the loops is no loss. -/
theorem BoardShape.exists_scan (d : Fin 4) (hfive : ¬ MakesFive P.grid c)
    (hover : ¬ MakesOverline P.grid c) : ∃ i j, Scan P c d i j := by
  have hin := hshape.inSquare_of_empty hc
  have hgrid := hshape.grid_setPiece_black hc
  have h0 := lineOf_place_self P.grid c d
  have hread := (hshape.setPiece_black hc).readsLine (c := c) (d := d) hin
    (show 4 ≤ 5 by omega) fun k _ => by rw [hgrid]
  obtain ⟨i, j, hi, hj, hle, hholds, hrun⟩ := walk_cases hread h0
  have hshort : i + j < 4 := by
    -- five stones in a row would be a five or an overline
    by_contra hlong
    obtain ⟨a, b, hmax, ha, hb⟩ := exists_maxRun (hshape.lineOf_place_bounded hc) h0
    obtain ⟨hai, hjb⟩ := hmax.contains hholds (by omega) (by omega) ha hb
    by_cases hlen : b - a + 1 = 5
    · exact hfive ⟨d, a, b, hmax, ha, hb, hlen⟩
    · exact hover ⟨d, a, b, hmax, ha, hb, by omega⟩
  refine ⟨i, j, hi, ?_, by omega, hrun hshort⟩
  rw [stopFwd, show 5 - (i + 1) = 4 - i by omega]
  exact hj

omit hc in
/-- Where a loop has stopped. -/
theorem BoardShape.emptyStop_eq (hin : InSquare P.boardSize c) {k : Int}
    (hk : -5 ≤ k ∧ k ≤ 5) :
    P.emptyStop (posOf c) d true k =
      if P.grid (along c d k) = .empty then some (posOf (along c d k)) else none := by
  have hboard := hshape.board_offset hin d hk
  rw [offset_posOf hshape.size_le hin d hk] at hboard
  simp [emptyStop, offset_posOf hshape.size_le hin d hk, hboard]

end Reading

/-! ## Fours -/

section Fours

open Classical

variable {P : Position} (hshape : P.BoardShape) {c : Int × Int} (hc : P.grid c = .empty)
include hshape hc

/-- A stop of the scan is a five point iff `isFive` says so.  The stop is next to the run,
where all five points lie. -/
theorem BoardShape.any_isFiveDir_eq {d : Fin 4} {a b k : Int} (hfive : ¬ MakesFive P.grid c)
    (hrun : MaxRun (lineOf (place P.grid c) .black c d) a b) (ha : a ≤ 0) (hb : 0 ≤ b)
    (hk : k = a - 1 ∨ k = b + 1) (hbound : -5 ≤ k ∧ k ≤ 5) :
    ((P.setPiece (posOf c) .black).emptyStop (posOf c) d true k).any
        (fun posi => (P.setPiece (posOf c) .black).isFiveDir posi .black d) =
      decide (along c d k ∈ fivePoints P.grid c d) := by
  have hshape₁ := hshape.setPiece_black hc
  have hgrid := hshape.grid_setPiece_black hc
  rw [hshape₁.emptyStop_eq (hshape.inSquare_of_empty hc) hbound, hgrid]
  by_cases hempty : place P.grid c (along c d k) = .empty
  · have hin : InSquare P.boardSize (along c d k) :=
      hshape₁.inSquare_of_empty (by rw [hgrid, hempty])
    have hends : along c d k = along c d (a - 1) ∨ along c d k = along c d (b + 1) := by
      rcases hk with rfl | rfl
      · exact Or.inl rfl
      · exact Or.inr rfl
    rw [if_pos hempty, Option.any_some, Bool.eq_iff_iff, hshape₁.isFiveDir_iff hin, hgrid,
      decide_eq_true_iff, mem_fivePoints_iff hfive hrun ha hb]
    simp only [hempty, hends, true_and]
  · have hnot : along c d k ∉ fivePoints P.grid c d := fun h => hempty h.2.1
    simp [hempty, hnot]

/-- The two stops next to the run are the two candidates for a five point. -/
theorem BoardShape.scan_isFiveDir_eq {d : Fin 4} {i j : Nat} (hfive : ¬ MakesFive P.grid c)
    (h : Scan P c d i j) :
    ((P.setPiece (posOf c) .black).emptyStop (posOf c) d true (-((i + 1 : Nat) : Int))).any
        (fun posi => (P.setPiece (posOf c) .black).isFiveDir posi .black d) =
      decide (along c d (-((i + 1 : Nat) : Int)) ∈ fivePoints P.grid c d) ∧
    ((P.setPiece (posOf c) .black).emptyStop (posOf c) d true ((j + 1 : Nat) : Int)).any
        (fun posi => (P.setPiece (posOf c) .black).isFiveDir posi .black d) =
      decide (along c d ((j + 1 : Nat) : Int) ∈ fivePoints P.grid c d) := by
  have hshort := h.short
  constructor
  · apply hshape.any_isFiveDir_eq hc hfive h.run
    all_goals omega
  · apply hshape.any_isFiveDir_eq hc hfive h.run
    all_goals omega

/-- **`isFour` decides whether there is a five point**, and puts the board back.  It looks
on both sides of the stone and stops at the first five point. -/
theorem BoardShape.isFour_eq (d : Fin 4) :
    P.isFour (posOf c) .black d =
      (decide (¬ MakesFive P.grid c ∧ ¬ MakesOverline P.grid c ∧
        fivePoints P.grid c d ≠ ∅), P) := by
  by_cases hpat : MakesFive P.grid c ∨ MakesOverline P.grid c
  · rw [isFour, if_pos ((hshape.noPattern_iff hc).mpr hpat)]
    rcases hpat with h | h <;> simp [h]
  · rw [isFour, if_neg (mt (hshape.noPattern_iff hc).mp hpat)]
    rw [not_or] at hpat
    obtain ⟨hfive, hover⟩ := hpat
    obtain ⟨i, j, hscan⟩ := hshape.exists_scan hc d hfive hover
    have hrun := hscan.run
    obtain ⟨hbroke, hbroke'⟩ := hscan.broke
    obtain ⟨hleft, hright⟩ := hshape.scan_isFiveDir_eq hc hfive hscan
    simp only [hscan.back, hscan.fwd, hbroke, hbroke', hleft, hright,
      hshape.delPiece_setPiece_black hc, hfive, hover, not_false_eq_true, true_and,
      Prod.mk.injEq, and_true]
    rw [Bool.eq_iff_iff, decide_eq_true_iff, ne_eq,
      fivePoints_eq_empty_iff hfive hrun (by omega) (by omega)]
    -- the scans write the ends as `-(i + 1)` and `j + 1`
    rw [show -(i : Int) - 1 = -((i + 1 : Nat) : Int) by omega,
      show (j : Int) + 1 = ((j + 1 : Nat) : Int) by omega]
    simp only [Bool.or_eq_true, decide_eq_true_eq]
    tauto

/-- What `isOpenFour` is to return. -/
noncomputable def openFourType (g : Int × Int → Color) (c : Int × Int) (d : Fin 4) :
    OpenFourType :=
  if ¬ MakesFive g c ∧ ¬ MakesOverline g c ∧ (fivePoints g c d).ncard = 2 then
    if RunThrough (place g c) c d (· = 4) then .true else .long
  else .none

/-- **`isOpenFour` decides whether both ends of the run are five points**, and
tells the four apart from two fours on one line. -/
theorem BoardShape.isOpenFour_eq (d : Fin 4) :
    P.isOpenFour (posOf c) .black d = (openFourType P.grid c d, P) := by
  by_cases hpat : MakesFive P.grid c ∨ MakesOverline P.grid c
  · rw [isOpenFour, if_pos ((hshape.noPattern_iff hc).mpr hpat), openFourType, if_neg]
    rintro ⟨hfive, hover, -⟩
    exact hpat.elim hfive hover
  · rw [isOpenFour, if_neg (mt (hshape.noPattern_iff hc).mp hpat)]
    rw [not_or] at hpat
    obtain ⟨hfive, hover⟩ := hpat
    obtain ⟨i, j, hscan⟩ := hshape.exists_scan hc d hfive hover
    have hrun := hscan.run
    obtain ⟨hbroke, hbroke'⟩ := hscan.broke
    obtain ⟨hleft, hright⟩ := hshape.scan_isFiveDir_eq hc hfive hscan
    -- two five points are the two ends of the run
    have hcard := ncard_fivePoints_iff hfive hrun (by omega) (by omega)
    rw [show -(i : Int) - 1 = -((i + 1 : Nat) : Int) by omega,
      show (j : Int) + 1 = ((j + 1 : Nat) : Int) by omega] at hcard
    have hlen : RunThrough (place P.grid c) c d (· = 4) ↔ 1 + (i + 1 - 1) + (j + 1 - 1) = 4 := by
      constructor
      · rintro ⟨a, b, hrun', ha, hb, hfour⟩
        obtain ⟨rfl, rfl⟩ := hrun'.unique hrun ha hb (by omega) (by omega)
        omega
      · intro h
        exact ⟨-(i : Int), j, hrun, by omega, by omega, by omega⟩
    simp only [openFourType, hcard, hlen, hscan.back, hbroke, hleft,
      hshape.delPiece_setPiece_black hc, hfive, hover, not_false_eq_true, true_and,
      Prod.mk.injEq, and_true]
    by_cases hl : along c d (-((i + 1 : Nat) : Int)) ∈ fivePoints P.grid c d
    · by_cases hr : along c d ((j + 1 : Nat) : Int) ∈ fivePoints P.grid c d
      · simp only [hl, hr, hscan.fwd, hbroke', hright, decide_true, if_true, and_self, one_ne_zero,
          if_false]
      · simp only [hl, hr, hscan.fwd, hbroke', hright, decide_true, decide_false, if_true,
          and_false, one_ne_zero, if_false, Bool.false_eq_true, Nat.add_zero, Nat.reduceEqDiff]
    · simp only [hl, decide_false, if_true, false_and, if_false, Bool.false_eq_true,
        OfNat.zero_ne_ofNat]

theorem BoardShape.isOpenFour_eq_true_iff (d : Fin 4) :
    (P.isOpenFour (posOf c) .black d).1 = .true ↔ OpenFourAt P.grid c d := by
  rw [hshape.isOpenFour_eq hc, openFourType]
  constructor
  · intro h
    split at h
    · next hopen =>
        split at h
        · next hfour => exact ⟨hc, hopen.1, hopen.2.1, hfour, hopen.2.2⟩
        · cases h
    · cases h
  · rintro ⟨-, hfive, hover, hfour, hends⟩
    rw [if_pos ⟨hfive, hover, hends⟩, if_pos hfour]

theorem BoardShape.fourValue_eq (d : Fin 4) :
    P.fourValue (posOf c) .black d = (fourAt P.grid c d, P) := by
  have hends : (fivePoints P.grid c d).ncard = 2 → fivePoints P.grid c d ≠ ∅ := by
    intro hcard hempty
    rw [hempty, Set.ncard_empty] at hcard
    cases hcard
  rw [fourValue, hshape.isOpenFour_eq hc, fourAt]
  simp only [hshape.isFour_eq hc, openFourType]
  by_cases hfive : MakesFive P.grid c
  · simp [hfive]
  by_cases hover : MakesOverline P.grid c
  · simp [hover]
  by_cases hempty : fivePoints P.grid c d = ∅
  · simp [hempty]
  by_cases hcard : (fivePoints P.grid c d).ncard = 2
  · by_cases hfour : RunThrough (place P.grid c) c d (· = 4)
    · simp [hfive, hover, hempty, hcard, hfour]
    · simp [hfive, hover, hempty, hcard, hfour]
  · simp [hfive, hover, hempty, hcard]

/-- The early exit of the loop does not change its answer: the sum only grows, and is
compared with two. -/
theorem BoardShape.countFours_eq (dirs : List (Fin 4)) {n : Nat} (hn : n < 2) :
    countFours (posOf c) .black dirs n P =
      (decide (2 ≤ n + (dirs.map (fourAt P.grid c)).sum), P) := by
  induction dirs generalizing n with
  | nil => simp [countFours, hn]
  | cons d dirs ih =>
      rw [countFours, hshape.fourValue_eq hc]
      simp only [List.map_cons, List.sum_cons]
      by_cases hexit : 2 ≤ n + fourAt P.grid c d
      · have htotal : 2 ≤ n + (fourAt P.grid c d + (dirs.map (fourAt P.grid c)).sum) := by
          omega
        simp [hexit, htotal]
      · rw [if_neg hexit, ih (by omega), Nat.add_assoc]

/-- **`isDoubleFour` decides the reference**, and puts the board back.  It does so at each
of its exits, also when it stops at the second four. -/
theorem BoardShape.isDoubleFour_eq :
    P.isDoubleFour (posOf c) .black = (decide (DoubleFour P.grid c), P) := by
  have hin := hshape.inSquare_of_empty hc
  rw [isDoubleFour, hshape.board_of_inSquare hin, if_neg (not_not.mpr hc)]
  by_cases hfive : MakesFive P.grid c
  · rw [if_pos ((hshape.isFive_iff hc).mpr hfive)]
    simp [DoubleFour, hfive]
  · rw [if_neg (mt (hshape.isFive_iff hc).mp hfive), hshape.countFours_eq hc _ (by omega)]
    simp [DoubleFour, hfive, Fin.sum_univ_def]

end Fours

/-! ## Threes -/

section Threes

open Classical

/-- On the board of `P` the finder `find` answers `D` for each empty cell and puts the board
back.  It is what a caller knows of the finder: the same is then proved of the caller, one
level of the recursion further up. -/
def Decides (find : Finder) (P : Position) (D : Int × Int → Prop) : Prop :=
  ∀ c, P.grid c = .empty → find P (posOf c) .black = some (decide (D c), P)

variable {P : Position} (hshape : P.BoardShape) {find : Finder} {D : Int × Int → Prop}

/-- What `isOpenThree` asks of a cell next to the run. -/
def ThreeStop (D : Int × Int → Prop) (g : Int × Int → Color) (q : Int × Int) (d : Fin 4) :
    Prop :=
  OpenFourAt g q d ∧ ¬ DoubleFour g q ∧ ¬ D q

include hshape

theorem BoardShape.makesOpenThree_eq (hfind : Decides find P D) {q : Int × Int}
    (hq : P.grid q = .empty) (d : Fin 4) :
    makesOpenThree find P (posOf q) .black d = some (decide (ThreeStop D P.grid q d), P) := by
  have hopen := hshape.isOpenFour_eq hq d
  have hiff : openFourType P.grid q d = .true ↔ OpenFourAt P.grid q d := by
    rw [← hshape.isOpenFour_eq_true_iff hq d, hopen]
  simp only [makesOpenThree, hopen, hshape.isDoubleFour_eq hq, hfind q hq]
  by_cases hof : OpenFourAt P.grid q d
  · by_cases hdf : DoubleFour P.grid q
    · simp [hiff.mpr hof, hdf, ThreeStop]
    · simp [hiff.mpr hof, hdf, hof, ThreeStop]
  · have hne := mt hiff.mp hof
    simp [hne, hof, ThreeStop]

theorem BoardShape.threeAt_eq (hfind : Decides find P D) {c : Int × Int}
    (hin : InSquare P.boardSize c) (d : Fin 4) {k : Int} (hk : -5 ≤ k ∧ k ≤ 5) :
    threeAt find P (P.emptyStop (posOf c) d true k) .black d =
      some (decide (ThreeStop D P.grid (along c d k) d), P) := by
  rw [hshape.emptyStop_eq hin hk]
  by_cases hempty : P.grid (along c d k) = .empty
  · rw [if_pos hempty]
    exact hshape.makesOpenThree_eq hfind hempty d
  · have hnot : ¬ ThreeStop D P.grid (along c d k) d := fun h => hempty h.1.empty
    simp [hempty, hnot, threeAt]

variable {c : Int × Int} (hc : P.grid c = .empty)
  (hfind : Decides find (P.setPiece (posOf c) .black) D)
include hc hfind

/-- **`isOpenThree` decides whether there is a three**, if the finder that it calls decides
the double threes of the board with the stone. -/
theorem BoardShape.isOpenThree_eq (d : Fin 4) :
    isOpenThree find P (posOf c) .black d =
      some (decide (ThreeAt D P.grid c d), P) := by
  by_cases hpat : MakesFive P.grid c ∨ MakesOverline P.grid c
  · rw [isOpenThree, if_pos ((hshape.noPattern_iff hc).mpr hpat)]
    rcases hpat with h | h <;> simp [h, ThreeAt]
  · rw [isOpenThree, if_neg (mt (hshape.noPattern_iff hc).mp hpat)]
    rw [not_or] at hpat
    obtain ⟨hfive, hover⟩ := hpat
    obtain ⟨i, j, hscan⟩ := hshape.exists_scan hc d hfive hover
    have hrun := hscan.run
    have hij := hscan.short
    obtain ⟨hbroke, hbroke'⟩ := hscan.broke
    have hshape₁ := hshape.setPiece_black hc
    have hgrid := hshape.grid_setPiece_black hc
    have hin : InSquare (P.setPiece (posOf c) .black).boardSize c :=
      hshape.inSquare_of_empty hc
    have hleft := hshape₁.threeAt_eq hfind hin d (k := -((i + 1 : Nat) : Int)) (by omega)
    have hright := hshape₁.threeAt_eq hfind hin d (k := ((j + 1 : Nat) : Int)) (by omega)
    -- an open four needs a stone at one of the two ends of the run
    have hthree : ThreeAt D P.grid c d ↔
        ThreeStop D (place P.grid c) (along c d (-((i + 1 : Nat) : Int))) d ∨
          ThreeStop D (place P.grid c) (along c d ((j + 1 : Nat) : Int)) d := by
      constructor
      · rintro ⟨-, -, k, hopen, hdf, hdt⟩
        obtain ⟨hk, hof⟩ := (makesOpenFour_iff hrun (by omega) (by omega)).mp hopen
        rcases hk with rfl | rfl
        · left
          rw [show -((i + 1 : Nat) : Int) = -(i : Int) - 1 by omega]
          exact ⟨hof, hdf, hdt⟩
        · right
          rw [show ((j + 1 : Nat) : Int) = (j : Int) + 1 by omega]
          exact ⟨hof, hdf, hdt⟩
      · rintro (⟨hof, hdf, hdt⟩ | ⟨hof, hdf, hdt⟩)
        · exact ⟨hfive, hover, _, (makesOpenFour_iff hrun (by omega) (by omega)).mpr
            ⟨Or.inl (by omega), hof⟩, hdf, hdt⟩
        · exact ⟨hfive, hover, _, (makesOpenFour_iff hrun (by omega) (by omega)).mpr
            ⟨Or.inr (by omega), hof⟩, hdf, hdt⟩
    rw [hgrid] at hleft hright
    simp only [hscan.back, hbroke, hleft, hthree, Option.bind_eq_bind, Option.bind_some,
      decide_eq_true_eq]
    by_cases hl : ThreeStop D (place P.grid c) (along c d (-((i + 1 : Nat) : Int))) d
    · simp only [hl, if_true, true_or, decide_true, hshape.delPiece_setPiece_black hc]
      rfl
    · simp only [hl, if_false, false_or, hscan.fwd, hbroke', hright,
        Option.bind_some, hshape.delPiece_setPiece_black hc]
      rfl

/-- The early exit of the loop does not change its answer. -/
theorem BoardShape.countThrees_eq (dirs : List (Fin 4)) {n : Nat} (hn : n < 2) :
    countThrees find (posOf c) .black dirs n P =
      some (decide (2 ≤ n + (dirs.map fun d => if ThreeAt D P.grid c d then 1 else 0).sum),
        P) := by
  induction dirs generalizing n with
  | nil => simp [countThrees, hn]
  | cons d dirs ih =>
      rw [countThrees, hshape.isOpenThree_eq hc hfind]
      simp only [List.map_cons, List.sum_cons, Option.bind_eq_bind, Option.bind_some,
        decide_eq_true_eq]
      by_cases hexit : 2 ≤ n + (if ThreeAt D P.grid c d then 1 else 0)
      · rw [if_pos hexit, ← Nat.add_assoc, decide_eq_true (by omega)]
        rfl
      · rw [if_neg hexit, ih (by omega), Nat.add_assoc]

end Threes

open Classical in
/-- **`isDoubleThree` decides the reference**, puts the board back, and does not run out of
fuel as long as there is more of it than empty cells.  The induction is over the fuel: the
calls of `isOpenThree` are on a board with one stone more and one empty cell less. -/
theorem BoardShape.isDoubleThree_eq {P : Position} (hshape : P.BoardShape) {fuel : Nat}
    (hfuel : (emptyCells P.boardSize P.grid).card < fuel) :
    Decides (isDoubleThree fuel) P (DoubleThree P.boardSize P.grid) := by
  induction fuel generalizing P with
  | zero => omega
  | succ fuel ih =>
      intro c hc
      have hin := hshape.inSquare_of_empty hc
      have hgrid := hshape.grid_setPiece_black hc
      have hfewer := card_emptyCells_place ⟨hin, hc⟩
      have hfind : Decides (isDoubleThree fuel) (P.setPiece (posOf c) .black)
          (DoubleThree P.boardSize (place P.grid c)) := by
        have h := ih (hshape.setPiece_black hc) (by rw [hgrid, setPiece_boardSize]; omega)
        rwa [hgrid, setPiece_boardSize] at h
      rw [isDoubleThree, hshape.board_of_inSquare hin, if_neg (not_not.mpr hc), DoubleThree,
        dif_pos ⟨hin, hc⟩]
      by_cases hfive : MakesFive P.grid c
      · rw [if_pos ((hshape.isFive_iff hc).mpr hfive)]
        simp [hfive]
      · rw [if_neg (mt (hshape.isFive_iff hc).mp hfive),
          hshape.countThrees_eq hc hfind _ (by omega)]
        simp only [hfive, not_false_eq_true, true_and, Finset.card_filter, Fin.sum_univ_def,
          Nat.zero_add]

theorem BoardShape.lt_finderFuel {P : Position} (hshape : P.BoardShape) :
    (emptyCells P.boardSize P.grid).card < finderFuel := by
  have hcells := card_emptyCells_le P.boardSize P.grid
  have hsize : P.boardSize * P.boardSize ≤ 22 * 22 :=
    Nat.mul_le_mul hshape.size_le hshape.size_le
  have hfuel : finderFuel = 1025 := rfl
  omega

/-- **The recursive finders are the reference.** On every board, whatever stones it holds,
`isDoubleFour` and `isDoubleThree` return, leave the board as it was, and answer for an
empty cell what the definitions on whole lines say.  Neither the short scans, nor the early
exits, nor the stones that are set on the way, make a difference. -/
theorem forbiddenFinders_iff_reference {P : Position} (hshape : P.BoardShape)
    {c : Int × Int} (hc : P.grid c = .empty) :
    (∃ four, P.isDoubleFour (posOf c) .black = (four, P) ∧
      (four = true ↔ DoubleFour P.grid c)) ∧
    (∃ three, isDoubleThree finderFuel P (posOf c) .black = some (three, P) ∧
      (three = true ↔ DoubleThree P.boardSize P.grid c)) := by
  classical
  constructor
  · refine ⟨_, hshape.isDoubleFour_eq hc, ?_⟩
    rw [decide_eq_true_iff]
  · refine ⟨_, hshape.isDoubleThree_eq hshape.lt_finderFuel c hc, ?_⟩
    rw [decide_eq_true_iff]

/-- A board with some black stones. -/
def withBlack (size : Nat) (cells : List (Int × Int)) : Position :=
  cells.foldl (fun P c => P.setPiece (posOf c) .black) (Position.new size)

theorem withBlack_shape {size : Nat} (hsize : size ≤ 22) {cells : List (Int × Int)}
    (hcells : ∀ c ∈ cells, InSquare size c) :
    (withBlack size cells).BoardShape ∧ (withBlack size cells).boardSize = size := by
  induction cells using List.reverseRecOn with
  | nil => exact ⟨initBoard_shape _ hsize, rfl⟩
  | append_singleton cells c ih =>
      obtain ⟨hshape, hboard⟩ := ih fun c' hc' => hcells c' (List.mem_append_left _ hc')
      have hc : InSquare size c := hcells c (List.mem_append_right _ (.head _))
      rw [withBlack, List.foldl_append]
      refine ⟨hshape.setPiece ?_ (by simp), hboard⟩
      rw [hc.cellOf_posOf hsize]
      rwa [hboard]

/-- Two open threes cross at the centre. -/
def threeCross : Position := withBlack 15 [(6, 7), (8, 7), (7, 6), (7, 8)]

/-- Two fours meet at the centre. -/
def fourCorner : Position := withBlack 15 [(4, 7), (5, 7), (6, 7), (7, 4), (7, 5), (7, 6)]

theorem threeCross_shape : threeCross.BoardShape := (withBlack_shape (by decide) (by decide)).1

/-- The centre of the cross is a double three and no double four, and that of the corner a
double four and no double three. -/
theorem forbiddenFinders_iff_reference_crossings :
    (DoubleThree 15 threeCross.grid (7, 7) ∧ ¬DoubleFour threeCross.grid (7, 7)) ∧
      DoubleFour fourCorner.grid (7, 7) ∧ ¬DoubleThree 15 fourCorner.grid (7, 7) := by
  constructor
  · obtain ⟨⟨four, hfour, hfour'⟩, three, hthree, hthree'⟩ :=
      forbiddenFinders_iff_reference threeCross_shape (c := (7, 7)) (by decide)
    have hvalue : (threeCross.isDoubleFour (posOf (7, 7)) .black).1 = false := by decide +kernel
    have hvalue' : (isDoubleThree finderFuel threeCross (posOf (7, 7)) .black).map Prod.fst =
        some true := by decide +kernel
    rw [hfour] at hvalue
    rw [hthree] at hvalue'
    exact ⟨hthree'.mp (Option.some.inj hvalue'), mt hfour'.mpr (ne_true_of_eq_false hvalue)⟩
  · obtain ⟨⟨four, hfour, hfour'⟩, three, hthree, hthree'⟩ :=
      forbiddenFinders_iff_reference (P := fourCorner)
        (withBlack_shape (by decide) (by decide)).1 (c := (7, 7)) (by decide)
    have hvalue : (fourCorner.isDoubleFour (posOf (7, 7)) .black).1 = true := by decide +kernel
    have hvalue' : (isDoubleThree finderFuel fourCorner (posOf (7, 7)) .black).map Prod.fst =
        some false := by decide +kernel
    rw [hfour] at hvalue
    rw [hthree] at hvalue'
    exact ⟨hfour'.mp hvalue, mt hthree'.mpr (ne_true_of_eq_false (Option.some.inj hvalue'))⟩

/-! ## The verdict -/

open Classical in
/-- The kind of forbidden point that `c` is, in the order of `isForbidden`.  A point can be
of several kinds, of which the first is named. -/
noncomputable def forbiddenPoint (size : Nat) (g : Int × Int → Color) (c : Int × Int) :
    ForbiddenType :=
  if DoubleThree size g c then .doubleThree
  else if DoubleFour g c then .doubleFour
  else if MakesOverline g c then .overline
  else .none

theorem BoardShape.isForbidden_eq {P : Position} (hshape : P.BoardShape) {c : Int × Int}
    (hc : P.grid c = .empty) :
    P.isForbidden (posOf c) = some (forbiddenPoint P.boardSize P.grid c, P) := by
  classical
  rw [isForbidden, hshape.isDoubleThree_eq hshape.lt_finderFuel c hc]
  simp only [Option.bind_eq_bind, Option.bind_some, hshape.isDoubleFour_eq hc,
    decide_eq_true_eq, forbiddenPoint]
  by_cases hthree : DoubleThree P.boardSize P.grid c
  · rw [if_pos hthree, if_pos hthree]
    rfl
  by_cases hfour : DoubleFour P.grid c
  · rw [if_neg hthree, if_neg hthree, if_pos hfour, if_pos hfour]
    rfl
  rw [if_neg hthree, if_neg hthree, if_neg hfour, if_neg hfour]
  by_cases hover : MakesOverline P.grid c
  · rw [if_pos ((hshape.isOverline_iff hc).mpr hover), if_pos hover]
    rfl
  · rw [if_neg (mt (hshape.isOverline_iff hc).mp hover), if_neg hover]
    rfl

/-- `check_forbidden_move` never changes the position, and for a legal move of
Black it returns the kind of point that was played. -/
theorem BoardShape.checkForbiddenMove_eq {P : Position} (hshape : P.BoardShape) {m : Nat}
    (hlegal : P.isLegalMove m = true) :
    P.checkForbiddenMove m =
      some (if colorFromMove m = Color.black.code then
        forbiddenPoint P.boardSize P.grid (cellOf (posFromMove m)) else .none, P) := by
  obtain ⟨-, hempty⟩ := (hshape.isLegalMove_iff m).mp hlegal
  rw [checkForbiddenMove]
  by_cases hcolor : colorFromMove m = Color.black.code
  · have hforbidden := hshape.isForbidden_eq hempty
    rw [posOf_cellOf (posFromMove_lt m)] at hforbidden
    rw [if_neg (not_not.mpr hcolor), if_pos hcolor, hforbidden]
  · rw [if_pos hcolor, if_neg hcolor]

/-- The point of a five is forbidden only for the overline it makes at the same time:
`isDoubleThree` and `isDoubleFour` yield to the five, `isOverline` does not.  The rules of
the game let a five win. -/
theorem forbiddenPoint_of_makesFive (size : Nat) {g : Int × Int → Color} {c : Int × Int}
    (hfive : MakesFive g c) :
    (MakesOverline g c ∧ forbiddenPoint size g c = .overline) ∨
      (¬ MakesOverline g c ∧ forbiddenPoint size g c = .none) := by
  have hthree : ¬ DoubleThree size g c := by
    rw [DoubleThree]
    split
    · exact fun h => h.1 hfive
    · exact not_false
  have hfour : ¬ DoubleFour g c := fun h => h.1 hfive
  rw [forbiddenPoint, if_neg hthree, if_neg hfour]
  by_cases hover : MakesOverline g c
  · exact Or.inl ⟨hover, if_pos hover⟩
  · exact Or.inr ⟨hover, if_neg hover⟩

theorem forbiddenPoint_eq_none_iff {size : Nat} {g : Int × Int → Color} {c : Int × Int}
    (hfive : MakesFive g c) : forbiddenPoint size g c = .none ↔ ¬ MakesOverline g c := by
  obtain ⟨hover, hpoint⟩ | ⟨hover, hpoint⟩ :=
    forbiddenPoint_of_makesFive size hfive
  · rw [hpoint]
    exact iff_of_false (by simp) (not_not.mpr hover)
  · exact iff_of_true hpoint hover

end Position

end GomokuCli
