import GomokuCli.FiveInLine
import GomokuCli.ForbiddenPoint

/-!
# Symmetries of the board

The rules do not know which way round the board lies.  The scans of the program
do: they prefer one end of a line to the other and take the four directions in a
fixed order.  So the invariance is proved for the definitions on whole lines,
where nothing is scanned, and carried over to the program by the theorems that
say that the scans decide these definitions.

A `LineSymmetry` is a bijection of the plane that carries lines to lines: it
permutes the four directions, and may reverse some of them.  `h ∘ σ` is the board
`h` seen through such a map; every notion of the rules at `p` on `h ∘ σ` is the same
notion at `σ p` on `h`.
-/

namespace GomokuCli

open LineRun

/-- A bijection of the plane that carries the line through a cell in direction `d` to the
line through its image in direction `dir d`, forwards or backwards.  The rules only speak of
lines, and so they are the same on both sides. -/
structure LineSymmetry where
  map : (Int × Int) ≃ (Int × Int)
  dir : Equiv.Perm (Fin 4)
  sign : Fin 4 → Intˣ
  map_along : ∀ c d k, map (along c d k) = along (map c) (dir d) (sign d * k)

namespace LineSymmetry

variable (σ : LineSymmetry) {h : Int × Int → Color} {side : Color} {p q : Int × Int}
  {d : Fin 4} {a b : Int}

/-! ## Lines -/

theorem lineOf_comp (k : Int) :
    lineOf (h ∘ σ.map) side p d k ↔ lineOf h side (σ.map p) (σ.dir d) (σ.sign d * k) := by
  unfold lineOf
  rw [Function.comp_apply, σ.map_along]

/-- A maximal run of the image, when the direction keeps its sense. -/
theorem maxRun_lineOf_of_one (hsign : σ.sign d = 1) :
    MaxRun (lineOf (h ∘ σ.map) side p d) a b ↔
      MaxRun (lineOf h side (σ.map p) (σ.dir d)) a b := by
  have hline : lineOf (h ∘ σ.map) side p d = lineOf h side (σ.map p) (σ.dir d) := by
    funext k
    rw [eq_iff_iff, σ.lineOf_comp, hsign, Units.val_one, one_mul]
  rw [hline]

/-- A maximal run of the image, when the direction is reversed. -/
theorem maxRun_lineOf_of_neg_one (hsign : σ.sign d = -1) :
    MaxRun (lineOf (h ∘ σ.map) side p d) a b ↔
      MaxRun (lineOf h side (σ.map p) (σ.dir d)) (-b) (-a) := by
  have hline : lineOf (h ∘ σ.map) side p d =
      fun k => lineOf h side (σ.map p) (σ.dir d) (-k) := by
    funext k
    rw [eq_iff_iff, σ.lineOf_comp, hsign, Units.val_neg, Units.val_one, neg_one_mul]
  rw [hline, MaxRun.neg_iff]

/-- **A property of a maximal run that does not depend on the sense in which it is read** is
the same for the run and its image.  The notions of the rules are all of this kind, and each
of them is carried over with it. -/
theorem exists_maxRun_iff {R : Int → Int → Prop} (hR : ∀ a b, R a b ↔ R (-b) (-a)) :
    (∃ a b, MaxRun (lineOf (h ∘ σ.map) side p d) a b ∧ R a b) ↔
      ∃ a b, MaxRun (lineOf h side (σ.map p) (σ.dir d)) a b ∧ R a b := by
  obtain hsign | hsign := Int.units_eq_one_or (σ.sign d)
  · simp only [σ.maxRun_lineOf_of_one hsign]
  · simp only [σ.maxRun_lineOf_of_neg_one hsign]
    constructor
    · rintro ⟨a, b, hrun, hprop⟩
      exact ⟨-b, -a, hrun, (hR a b).mp hprop⟩
    · rintro ⟨a, b, hrun, hprop⟩
      refine ⟨-b, -a, ?_, (hR a b).mp hprop⟩
      rwa [neg_neg, neg_neg]

/-! ## Winning lines -/

theorem hasWinningLine_comp {allow : Bool} :
    HasWinningLine (h ∘ σ.map) side allow ↔ HasWinningLine h side allow := by
  have hlength : ∀ a b : Int, Wins allow (b - a + 1) ↔ Wins allow (-a - -b + 1) := by
    intro a b
    rw [show -a - -b + 1 = b - a + 1 by ring]
  have hline : ∀ c d, (∃ a b, WinningRun (h ∘ σ.map) side allow c d a b) ↔
      ∃ a b, WinningRun h side allow (σ.map c) (σ.dir d) a b := by
    intro c d
    have hrun : (∃ a b, MaxRun (lineOf (h ∘ σ.map) side c d) a b ∧ Wins allow (b - a + 1)) ↔
        ∃ a b, MaxRun (lineOf h side (σ.map c) (σ.dir d)) a b ∧ Wins allow (b - a + 1) :=
      σ.exists_maxRun_iff hlength
    constructor
    · rintro ⟨a, b, hmax, hwins⟩
      obtain ⟨a', b', hmax', hwins'⟩ := hrun.mp ⟨a, b, hmax, hwins⟩
      exact ⟨a', b', hmax', hwins'⟩
    · rintro ⟨a, b, hmax, hwins⟩
      obtain ⟨a', b', hmax', hwins'⟩ := hrun.mpr ⟨a, b, hmax, hwins⟩
      exact ⟨a', b', hmax', hwins'⟩
  unfold HasWinningLine
  refine σ.map.exists_congr fun c => σ.dir.exists_congr fun d => hline c d

/-! ## Stones -/

/-- A stone at `p` of the image is a stone at `σ p`. -/
theorem place_comp : place (h ∘ σ.map) p = place h (σ.map p) ∘ σ.map := by
  funext c
  unfold place
  by_cases hc : c = p
  · subst hc
    simp
  · have hne : σ.map c ≠ σ.map p := fun heq => hc (σ.map.injective heq)
    rw [Function.comp_apply, Function.update_of_ne hc, Function.update_of_ne hne,
      Function.comp_apply]

theorem runThrough_comp {L : Int → Prop} :
    RunThrough (h ∘ σ.map) p d L ↔ RunThrough h (σ.map p) (σ.dir d) L := by
  refine σ.exists_maxRun_iff (R := fun a b => a ≤ 0 ∧ 0 ≤ b ∧ L (b - a + 1)) fun a b => ?_
  rw [show -a - -b + 1 = b - a + 1 by ring]
  constructor
  · rintro ⟨ha, hb, hL⟩
    exact ⟨by omega, by omega, hL⟩
  · rintro ⟨ha, hb, hL⟩
    exact ⟨by omega, by omega, hL⟩

theorem makesFive_comp : MakesFive (h ∘ σ.map) p ↔ MakesFive h (σ.map p) := by
  unfold MakesFive
  rw [place_comp]
  exact σ.dir.exists_congr fun d => σ.runThrough_comp

theorem makesOverline_comp : MakesOverline (h ∘ σ.map) p ↔ MakesOverline h (σ.map p) := by
  unfold MakesOverline
  rw [place_comp]
  exact σ.dir.exists_congr fun d => σ.runThrough_comp

/-! ## Fours -/

/-- The image of a cell of a line is a cell of the image of the line. -/
theorem exists_along_iff :
    (∃ k, q = along p d k) ↔ ∃ k, σ.map q = along (σ.map p) (σ.dir d) k := by
  constructor
  · rintro ⟨k, rfl⟩
    exact ⟨σ.sign d * k, σ.map_along p d k⟩
  · rintro ⟨k, hk⟩
    refine ⟨σ.sign d * k, σ.map.injective ?_⟩
    rw [hk, σ.map_along, ← mul_assoc, ← Units.val_mul, Int.units_mul_self, Units.val_one,
      one_mul]

theorem fivePoints_comp :
    fivePoints (h ∘ σ.map) p d = Set.preimage σ.map (fivePoints h (σ.map p) (σ.dir d)) := by
  ext q
  unfold fivePoints
  rw [Set.mem_preimage, Set.mem_ofPred_eq, Set.mem_ofPred_eq, σ.exists_along_iff, place_comp,
    place_comp, runThrough_comp, Function.comp_apply]

theorem ncard_fivePoints_comp :
    (fivePoints (h ∘ σ.map) p d).ncard = (fivePoints h (σ.map p) (σ.dir d)).ncard := by
  rw [fivePoints_comp]
  refine Set.ncard_preimage_of_injective_subset_range σ.map.injective ?_
  rw [σ.map.range_eq_univ]
  exact Set.subset_univ _

theorem fivePoints_eq_empty_comp :
    fivePoints (h ∘ σ.map) p d = ∅ ↔ fivePoints h (σ.map p) (σ.dir d) = ∅ := by
  rw [fivePoints_comp]
  exact σ.map.surjective.preimage_injective.eq_iff' (Set.preimage_empty)

theorem fourAt_comp : fourAt (h ∘ σ.map) p d = fourAt h (σ.map p) (σ.dir d) := by
  have hnone : MakesFive (h ∘ σ.map) p ∨ MakesOverline (h ∘ σ.map) p ∨
        fivePoints (h ∘ σ.map) p d = ∅ ↔
      MakesFive h (σ.map p) ∨ MakesOverline h (σ.map p) ∨
        fivePoints h (σ.map p) (σ.dir d) = ∅ := by
    rw [makesFive_comp, makesOverline_comp, fivePoints_eq_empty_comp]
  have htwo : (fivePoints (h ∘ σ.map) p d).ncard = 2 ∧
        ¬ RunThrough (place (h ∘ σ.map) p) p d (· = 4) ↔
      (fivePoints h (σ.map p) (σ.dir d)).ncard = 2 ∧
        ¬ RunThrough (place h (σ.map p)) (σ.map p) (σ.dir d) (· = 4) := by
    rw [ncard_fivePoints_comp, place_comp, runThrough_comp]
  unfold fourAt
  classical
  exact if_congr hnone rfl (if_congr htwo rfl rfl)

theorem doubleFour_comp : DoubleFour (h ∘ σ.map) p ↔ DoubleFour h (σ.map p) := by
  unfold DoubleFour
  have hsum : ∑ d, fourAt (h ∘ σ.map) p d = ∑ d, fourAt h (σ.map p) d := by
    simp only [fourAt_comp]
    exact Equiv.sum_comp σ.dir fun d => fourAt h (σ.map p) d
  rw [makesFive_comp, hsum]

/-! ## Threes -/

theorem makesOpenFour_comp :
    MakesOpenFour (h ∘ σ.map) p q d ↔ MakesOpenFour h (σ.map p) (σ.map q) (σ.dir d) := by
  -- the stone at `p` lies on the run through `q`, whichever way the run is read
  have hrun : (∃ a b k, MaxRun (lineOf (place (h ∘ σ.map) q) .black q d) a b ∧ a ≤ 0 ∧ 0 ≤ b ∧
        b - a + 1 = 4 ∧ p = along q d k ∧ a ≤ k ∧ k ≤ b) ↔
      ∃ a b k, MaxRun (lineOf (place h (σ.map q)) .black (σ.map q) (σ.dir d)) a b ∧ a ≤ 0 ∧
        0 ≤ b ∧ b - a + 1 = 4 ∧ σ.map p = along (σ.map q) (σ.dir d) k ∧ a ≤ k ∧ k ≤ b := by
    rw [place_comp]
    have himage : ∀ k, p = along q d k ↔ σ.map p = along (σ.map q) (σ.dir d) (σ.sign d * k) := by
      intro k
      rw [← σ.map_along, σ.map.injective.eq_iff]
    obtain hsign | hsign := Int.units_eq_one_or (σ.sign d)
    · simp only [σ.maxRun_lineOf_of_one hsign, himage, hsign, Units.val_one, one_mul]
    · simp only [σ.maxRun_lineOf_of_neg_one hsign, himage, hsign, Units.val_neg, Units.val_one,
        neg_one_mul]
      constructor
      · rintro ⟨a, b, k, hmax, ha, hb, hlen, hp, hak, hkb⟩
        exact ⟨-b, -a, -k, hmax, by omega, by omega, by omega, hp, by omega, by omega⟩
      · rintro ⟨a, b, k, hmax, ha, hb, hlen, hp, hak, hkb⟩
        refine ⟨-b, -a, -k, ?_, by omega, by omega, by omega, ?_, by omega, by omega⟩
        · rwa [neg_neg, neg_neg]
        · rwa [neg_neg]
  constructor
  · rintro ⟨hempty, hfive, hover, hline, hends⟩
    exact ⟨hempty, mt σ.makesFive_comp.mpr hfive, mt σ.makesOverline_comp.mpr hover,
      hrun.mp hline, by rwa [← ncard_fivePoints_comp]⟩
  · rintro ⟨hempty, hfive, hover, hline, hends⟩
    exact ⟨hempty, mt σ.makesFive_comp.mp hfive, mt σ.makesOverline_comp.mp hover,
      hrun.mpr hline, by rwa [ncard_fivePoints_comp]⟩

theorem threeAt_comp {D D' : Int × Int → Prop} (hD : ∀ c, D c ↔ D' (σ.map c)) :
    ThreeAt D (h ∘ σ.map) p d ↔ ThreeAt D' h (σ.map p) (σ.dir d) := by
  unfold ThreeAt
  rw [makesFive_comp, makesOverline_comp, place_comp]
  have hcell : ∀ k, (MakesOpenFour (place h (σ.map p) ∘ σ.map) p (along p d k) d ∧
        ¬ DoubleFour (place h (σ.map p) ∘ σ.map) (along p d k) ∧ ¬ D (along p d k)) ↔
      (MakesOpenFour (place h (σ.map p)) (σ.map p)
          (along (σ.map p) (σ.dir d) (σ.sign d * k)) (σ.dir d) ∧
        ¬ DoubleFour (place h (σ.map p)) (along (σ.map p) (σ.dir d) (σ.sign d * k)) ∧
        ¬ D' (along (σ.map p) (σ.dir d) (σ.sign d * k))) := by
    intro k
    rw [makesOpenFour_comp, doubleFour_comp, hD, σ.map_along]
  refine and_congr_right fun _ => and_congr_right fun _ => ?_
  simp only [hcell]
  constructor
  · rintro ⟨k, hk⟩
    exact ⟨_, hk⟩
  · rintro ⟨k, hk⟩
    refine ⟨σ.sign d * k, ?_⟩
    rwa [← mul_assoc, ← Units.val_mul, Int.units_mul_self, Units.val_one, one_mul]

/-- **A double three is a double three on the image**, when the map keeps the square.  The
induction is that of the definition, over the number of empty cells, since a three asks for
double threes on a board with one more stone. -/
theorem doubleThree_comp {size : Nat}
    (hsquare : ∀ c, InSquare size (σ.map c) ↔ InSquare size c) :
    DoubleThree size (h ∘ σ.map) p ↔ DoubleThree size h (σ.map p) := by
  classical
  -- by induction on the number of empty cells, as the definition is
  induction hn : (emptyCells size (h ∘ σ.map)).card using Nat.strong_induction_on
    generalizing h p with
  | _ n ih =>
      rw [doubleThree_iff, doubleThree_iff, hsquare, makesFive_comp, Function.comp_apply]
      refine and_congr_right fun hp => and_congr_right fun _ => ?_
      have hfewer := card_emptyCells_place (g := h ∘ σ.map) hp
      rw [place_comp] at hfewer
      have hD : ∀ c, DoubleThree size (place (h ∘ σ.map) p) c ↔
          DoubleThree size (place h (σ.map p)) (σ.map c) := by
        intro c
        rw [place_comp]
        exact ih _ (hn ▸ hfewer) rfl
      have hthree := fun d => σ.threeAt_comp (h := h) (p := p) (d := d) hD
      -- the directions of the threes are permuted
      have hcard := Finset.card_equiv σ.dir (s := Finset.univ.filter fun d =>
          ThreeAt (fun q => DoubleThree size (place (h ∘ σ.map) p) q) (h ∘ σ.map) p d)
        (t := Finset.univ.filter fun d =>
          ThreeAt (fun q => DoubleThree size (place h (σ.map p)) q) h (σ.map p) d) fun d => by
        rw [Finset.mem_filter_univ, Finset.mem_filter_univ, hthree]
      rw [hcard]

theorem forbiddenPoint_comp {size : Nat}
    (hsquare : ∀ c, InSquare size (σ.map c) ↔ InSquare size c) :
    Position.forbiddenPoint size (h ∘ σ.map) p =
      Position.forbiddenPoint size h (σ.map p) := by
  unfold Position.forbiddenPoint
  rw [σ.doubleThree_comp hsquare, doubleFour_comp, makesOverline_comp]

end LineSymmetry

/-! ## The transforms of the source -/

/-- The direction that a transform carries each direction to. -/
def TransformType.dir : TransformType → Equiv.Perm (Fin 4)
  | .identity | .rotate180 => 1
  | .rotate90 | .rotate270 => Equiv.swap 0 2 * Equiv.swap 1 3
  | .flipX | .flipY => Equiv.swap 1 3
  | .flipXY | .flipYX => Equiv.swap 0 2

/-- Whether a transform reverses each direction. -/
def TransformType.sign : TransformType → Fin 4 → Intˣ
  | .identity => ![1, 1, 1, 1]
  | .rotate90 => ![1, -1, -1, 1]
  | .rotate180 => ![-1, -1, -1, -1]
  | .rotate270 => ![-1, 1, 1, -1]
  | .flipX => ![-1, 1, 1, 1]
  | .flipY => ![1, -1, -1, -1]
  | .flipXY => ![1, -1, 1, 1]
  | .flipYX => ![-1, 1, -1, -1]

theorem transformCell_along (size : Nat) (type : TransformType) (c : Int × Int) (d : Fin 4)
    (k : Int) :
    transformCell size type (along c d k) =
      along (transformCell size type c) (type.dir d) (type.sign d * k) := by
  cases type <;> fin_cases d <;>
    simp [transformCell, along, alongVec, unit, TransformType.dir, TransformType.sign,
      Equiv.swap_apply_def] <;> omega

/-- A transform of the `size × size` square, as a map of the whole plane, which carries
lines to lines also outside the square. -/
def TransformType.symmetry (type : TransformType) (size : Nat) : LineSymmetry where
  map :=
    { toFun := transformCell size type
      invFun := transformCell size type.inverse
      left_inv := transformCell_inverse type
      right_inv := transformCell_of_inverse type }
  dir := type.dir
  sign := type.sign
  map_along := transformCell_along size type

namespace Position

variable {P : Position} (hshape : P.BoardShape) (type : TransformType)
include hshape

/-- The board is the transformed board seen through the transform. -/
theorem BoardShape.grid_eq_comp :
    P.grid = (P.transform type).grid ∘ (type.symmetry P.boardSize).map := by
  funext c
  exact (hshape.grid_transform type c).symm

/-- **The five-in-line test does not depend on how the board lies.** The scans of the two
boards go along different lines; both decide whether there is a winning line. -/
theorem BoardShape.checkFiveInLineSide_transform {side : Color} (hside : side ≠ .wall)
    (allow : Bool) :
    ((P.transform type).checkFiveInLineSide side allow).1 =
      (P.checkFiveInLineSide side allow).1 := by
  rw [Bool.eq_iff_iff, checkFiveInLineSide_iff (hshape.transform type) hside,
    checkFiveInLineSide_iff hshape hside, hshape.grid_eq_comp type,
    LineSymmetry.hasWinningLine_comp]

/-- **The kind of a forbidden point does not depend on how the board lies.** The finder
tests the directions in a fixed order and one end of a line first, which shows in nothing
that it returns. -/
theorem BoardShape.forbiddenPoint_transform (c : Int × Int) :
    forbiddenPoint (P.transform type).boardSize (P.transform type).grid
        (transformCell P.boardSize type c) =
      forbiddenPoint P.boardSize P.grid c := by
  rw [transform_boardSize, hshape.grid_eq_comp type, LineSymmetry.forbiddenPoint_comp]
  · rfl
  · exact inSquare_transformCell_iff type

end Position

end GomokuCli
