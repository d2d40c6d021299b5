import GomokuCli.OptionsParse
import GomokuCli.Library.ThreeScores
import Mathlib

/-!
# The sequential probability ratio test

`sprt_llr` and `SPRTParam::done`.  The counts of a match are a law of three
scores, so the variance by which the ratio is divided is positive exactly when
the guard of the source lets the computation pass (`variance_pos_iff`), and the
ratio of the mirrored match is the negated one (`sprtLlr_swapped`).

The ratio is a sum of rational terms and is stated over any ordered field, with
the two scores as arguments.  What the match does with it compares logarithms,
and is about the real numbers.
-/

namespace GomokuCli

open ThreeScores

namespace Sprt

/-! ## The ratio -/

section Ratio

variable {K : Type*} [Field K] [LinearOrder K] [IsStrictOrderedRing K]

/-- `!!x` -/
def nonZero (x : ℕ) : ℕ := if x = 0 then 0 else 1

/-- How many of the three results there have been. -/
def kinds (wldCount : Result → ℕ) : ℕ :=
  nonZero (wldCount .loss) + nonZero (wldCount .draw) + nonZero (wldCount .win)

/-- A quotient, if there is one. -/
def divide (x y : K) : Option K := if y = 0 then none else some (x / y)

/-- `sprt_llr`, with the scores that `elo_to_score` gives for its last two arguments.  Every
division is checked, and `none` stands for one by zero. -/
def sprtLlr (wldCount : Result → ℕ) (s0 s1 : K) : Option K :=
  -- at least two of the three have to be there
  if kinds wldCount < 2 then some 0
  else do
    let n : K := (wldCount .win + wldCount .loss + wldCount .draw : ℕ)
    let w ← divide (wldCount .win : K) n
    let l ← divide (wldCount .loss : K) n
    let d := 1 - w - l
    let s := w + d / 2
    let var := w + d / 4 - s * s
    let ratio ← divide (2 * var) n
    divide ((s1 - s0) * (2 * s - s0 - s1)) ratio

/-- The number of games, `n`. -/
def games (wldCount : Result → ℕ) : ℕ := wldCount .win + wldCount .loss + wldCount .draw

/-- The mean score, `s`. -/
def score (K : Type*) [Field K] (wldCount : Result → ℕ) : K :=
  let w : K := wldCount .win / games wldCount
  let l : K := wldCount .loss / games wldCount
  w + (1 - w - l) / 2

/-- The variance of the score, `var`. -/
def variance (K : Type*) [Field K] (wldCount : Result → ℕ) : K :=
  let w : K := wldCount .win / games wldCount
  let l : K := wldCount .loss / games wldCount
  w + (1 - w - l) / 4 - score K wldCount * score K wldCount

/-- The same match, counted for the other player. -/
def swapped (wldCount : Result → ℕ) : Result → ℕ
  | .loss => wldCount .win
  | .draw => wldCount .draw
  | .win => wldCount .loss

theorem two_le_kinds_iff (wldCount : Result → ℕ) :
    2 ≤ kinds wldCount ↔
      (0 < wldCount .win ∧ 0 < wldCount .draw) ∨ (0 < wldCount .win ∧ 0 < wldCount .loss) ∨
        (0 < wldCount .draw ∧ 0 < wldCount .loss) := by
  unfold kinds nonZero
  split_ifs <;> omega

theorem games_pos_of_kinds {wldCount : Result → ℕ} (h : 2 ≤ kinds wldCount) :
    0 < games wldCount := by
  rw [two_le_kinds_iff] at h
  unfold games
  omega

@[simp] theorem kinds_swapped (wldCount : Result → ℕ) :
    kinds (swapped wldCount) = kinds wldCount := by
  change nonZero (wldCount .win) + nonZero (wldCount .draw) + nonZero (wldCount .loss) = _
  unfold kinds
  omega

@[simp] theorem games_swapped (wldCount : Result → ℕ) :
    games (swapped wldCount) = games wldCount := by
  change wldCount .loss + wldCount .win + wldCount .draw = _
  unfold games
  omega

/-! ### The law of the counts -/

/-- The counts of a match in which there were games. -/
def law (K : Type*) [Field K] [LinearOrder K] [IsStrictOrderedRing K] {wldCount : Result → ℕ}
    (h : 0 < games wldCount) : Law K :=
  Law.ofCounts (wldCount .win) (wldCount .draw) (wldCount .loss)
    (by unfold games at h; omega)

variable {wldCount : Result → ℕ}

theorem law_win (h : 0 < games wldCount) : (law K h).win = wldCount .win / games wldCount := by
  simp only [law, Law.ofCounts, games, Nat.add_right_comm]

theorem law_loss (h : 0 < games wldCount) : (law K h).loss = wldCount .loss / games wldCount := by
  simp only [law, Law.ofCounts, games, Nat.add_right_comm]

theorem law_draw (h : 0 < games wldCount) : (law K h).draw = 1 - wldCount .win / games wldCount -
    wldCount .loss / games wldCount := by
  rw [← law_win h, ← law_loss h, ← (law K h).sum_eq_one]
  ring

/-- A draw scores one half. -/
theorem score_eq (h : 0 < games wldCount) : score K wldCount = (law K h).mean (1 / 2) := by
  rw [Law.mean, law_win, law_draw, mul_one_div]
  rfl

theorem variance_eq (h : 0 < games wldCount) :
    variance K wldCount = (law K h).variance (1 / 2) := by
  have hsquare : (1 / 2 * (1 / 2) : K) = 1 / 4 := by norm_num
  rw [Law.variance, ← score_eq, law_win, law_draw, hsquare, mul_one_div]
  rfl

/-- Only without a game, or with games of one result, is there no variance.  This is why the
guard of the source is the right one. -/
theorem variance_pos_iff (h : 0 < games wldCount) :
    0 < variance K wldCount ↔ 2 ≤ kinds wldCount := by
  rw [variance_eq h, Law.variance_pos_iff _ one_half_pos one_half_lt_one, law,
    Law.mixed_ofCounts_iff, two_le_kinds_iff]

theorem law_swapped (h : 0 < games wldCount) (h' : 0 < games (swapped wldCount)) :
    law K h' = (law K h).mirror := by
  have hgames : ((games (swapped wldCount) : ℕ) : K) = games wldCount := by
    rw [games_swapped]
  ext
  · rw [law_win, hgames]
    exact (law_loss h).symm
  · rw [law_draw, hgames]
    change _ = (law K h).draw
    rw [law_draw h]
    exact sub_right_comm _ _ _
  · rw [law_loss, hgames]
    exact (law_win h).symm

theorem score_swapped (h : 0 < games wldCount) :
    score K (swapped wldCount) = 1 - score K wldCount := by
  have h' : 0 < games (swapped wldCount) := by rwa [games_swapped]
  have hmirror := (law K h).mean_mirror (1 / 2)
  rw [sub_half] at hmirror
  rw [score_eq h', law_swapped h h', hmirror, score_eq h]

theorem variance_swapped (h : 0 < games wldCount) :
    variance K (swapped wldCount) = variance K wldCount := by
  have h' : 0 < games (swapped wldCount) := by rwa [games_swapped]
  have hmirror := (law K h).variance_mirror (1 / 2)
  rw [sub_half] at hmirror
  rw [variance_eq h', law_swapped h h', hmirror, variance_eq h]

/-! ### What the ratio is -/

omit [IsStrictOrderedRing K] in
theorem divide_of_ne {x y : K} (hy : y ≠ 0) : divide x y = some (x / y) :=
  if_neg hy

/-- The computation behind the guard divides by nothing that is zero.  What is left is the
ratio of the distance from the middle to the variance. -/
theorem sprtLlr_eq (h : 2 ≤ kinds wldCount) (s0 s1 : K) :
    sprtLlr wldCount s0 s1 =
      some ((s1 - s0) * (2 * score K wldCount - s0 - s1) /
        (2 * variance K wldCount / games wldCount)) := by
  have hgames := games_pos_of_kinds h
  have hn : (games wldCount : K) ≠ 0 := by exact_mod_cast hgames.ne'
  have hvar : variance K wldCount ≠ 0 := ((variance_pos_iff hgames).mpr h).ne'
  have hratio : 2 * variance K wldCount / games wldCount ≠ 0 :=
    div_ne_zero (mul_ne_zero two_ne_zero hvar) hn
  calc sprtLlr wldCount s0 s1
      = (do
          let w ← divide (wldCount .win : K) (games wldCount)
          let l ← divide (wldCount .loss : K) (games wldCount)
          let s := w + (1 - w - l) / 2
          let ratio ← divide (2 * (w + (1 - w - l) / 4 - s * s)) (games wldCount)
          divide ((s1 - s0) * (2 * s - s0 - s1)) ratio) := if_neg (not_lt.mpr h)
    _ = (do
          let ratio ← divide (2 * variance K wldCount) (games wldCount : K)
          divide ((s1 - s0) * (2 * score K wldCount - s0 - s1)) ratio) := by
        rw [divide_of_ne hn, divide_of_ne hn]
        rfl
    _ = divide ((s1 - s0) * (2 * score K wldCount - s0 - s1))
          (2 * variance K wldCount / games wldCount) := by
        rw [divide_of_ne hn]
        rfl
    _ = _ := divide_of_ne hratio

omit [IsStrictOrderedRing K] in
theorem sprtLlr_eq_zero (h : kinds wldCount < 2) (s0 s1 : K) :
    sprtLlr wldCount s0 s1 = some 0 :=
  if_pos h

/-- No division of `sprt_llr` is by zero. -/
theorem exists_sprtLlr (wldCount : Result → ℕ) (s0 s1 : K) :
    ∃ llr, sprtLlr wldCount s0 s1 = some llr := by
  by_cases h : kinds wldCount < 2
  · exact ⟨0, sprtLlr_eq_zero h s0 s1⟩
  · exact ⟨_, sprtLlr_eq (not_lt.mp h) s0 s1⟩

/-- The ratio is positive where the mean score is above the middle of the two hypotheses,
negative below, and zero at it. -/
theorem sign_sprtLlr (h : 2 ≤ kinds wldCount) {s0 s1 llr : K} (hlt : s0 < s1)
    (hllr : sprtLlr wldCount s0 s1 = some llr) :
    SignType.sign llr = SignType.sign (2 * score K wldCount - s0 - s1) := by
  have hgames := games_pos_of_kinds h
  have hn : (0 : K) < games wldCount := by exact_mod_cast hgames
  have hvar : 0 < variance K wldCount := (variance_pos_iff hgames).mpr h
  have hratio : 0 < 2 * variance K wldCount / games wldCount :=
    div_pos (mul_pos two_pos hvar) hn
  have heq : llr = (s1 - s0) / (2 * variance K wldCount / games wldCount) *
      (2 * score K wldCount - s0 - s1) := by
    rw [div_mul_eq_mul_div]
    exact Option.some.inj (hllr.symm.trans (sprtLlr_eq h s0 s1))
  rw [heq, sign_mul, sign_pos (div_pos (sub_pos.mpr hlt) hratio), one_mul]

/-- The match as the other player sees it, with the hypotheses as that player
sees them. -/
theorem sprtLlr_swapped (wldCount : Result → ℕ) (s0 s1 : K) :
    sprtLlr (swapped wldCount) (1 - s1) (1 - s0) = (sprtLlr wldCount s0 s1).map Neg.neg := by
  by_cases h : kinds wldCount < 2
  · have h' : kinds (swapped wldCount) < 2 := by rwa [kinds_swapped]
    rw [sprtLlr_eq_zero h, sprtLlr_eq_zero h', Option.map_some, neg_zero]
  · have h := not_lt.mp h
    have h' : 2 ≤ kinds (swapped wldCount) := by rwa [kinds_swapped]
    have hgames := games_pos_of_kinds h
    rw [sprtLlr_eq h, sprtLlr_eq h', Option.map_some, score_swapped hgames,
      variance_swapped hgames, games_swapped, ← neg_div]
    congr 2
    ring

end Ratio

/-- **What the ratio says.** With two kinds of results the divisors are positive and the
ratio has the sign of the distance of the mean score from the middle of the hypotheses; with
fewer it is zero.  The match counted for the other player has the negated ratio. -/
theorem sprtLlr_signed_antisymmetric (wldCount : Result → ℕ) (s0 s1 : ℚ) (hlt : s0 < s1) :
    (2 ≤ kinds wldCount ↔ 0 < games wldCount ∧ 0 < variance ℚ wldCount) ∧
      ∃ llr, sprtLlr wldCount s0 s1 = some llr ∧
        (2 ≤ kinds wldCount →
          SignType.sign llr = SignType.sign (2 * score ℚ wldCount - s0 - s1)) ∧
        (kinds wldCount < 2 → llr = 0) ∧
        sprtLlr (swapped wldCount) (1 - s1) (1 - s0) = some (-llr) := by
  have hpos : 2 ≤ kinds wldCount ↔ 0 < games wldCount ∧ 0 < variance ℚ wldCount := by
    constructor
    · intro h
      have hgames := games_pos_of_kinds h
      exact ⟨hgames, (variance_pos_iff hgames).mpr h⟩
    · rintro ⟨hgames, hvar⟩
      exact (variance_pos_iff hgames).mp hvar
  obtain ⟨llr, hllr⟩ := exists_sprtLlr wldCount s0 s1
  refine ⟨hpos, llr, hllr, fun h => sign_sprtLlr h hlt hllr, ?_, ?_⟩
  · intro h
    exact Option.some.inj (hllr.symm.trans (sprtLlr_eq_zero h s0 s1))
  · rw [sprtLlr_swapped, hllr, Option.map_some]

/-- The counts after one game, which has been won. -/
def firstWon : Result → ℕ
  | .win => 1
  | _ => 0

/-- After one game the ratio is zero, wherever the score is. -/
theorem sprtLlr_firstWon :
    ∃ llr, sprtLlr firstWon (1 / 2 : ℚ) (3 / 5) = some llr ∧
      SignType.sign llr ≠ SignType.sign (2 * score ℚ firstWon - 1 / 2 - 3 / 5) := by
  have hscore : score ℚ firstWon = 1 := by
    norm_num [score, games, firstWon]
  refine ⟨0, sprtLlr_eq_zero (by decide) _ _, ?_⟩
  rw [hscore, sign_zero, sign_pos (by norm_num)]
  exact zero_ne_one

/-- Two games won and one lost. -/
theorem sprtLlr_signed_antisymmetric_three :
    ∃ llr, sprtLlr (fun | .win => 2 | .loss => 1 | .draw => 0) (1 / 2 : ℚ) (3 / 5) = some llr ∧
      SignType.sign llr = 1 := by
  obtain ⟨llr, hllr, hsign, -⟩ := (sprtLlr_signed_antisymmetric
    (fun | .win => 2 | .loss => 1 | .draw => 0) (1 / 2) (3 / 5) (by norm_num)).2
  refine ⟨llr, hllr, ?_⟩
  rw [hsign (by decide), sign_pos]
  norm_num [score, games]

/-! ## The decision -/

section Decision

/-- The numbers of the command line, taken to be the real ones. -/
noncomputable abbrev realFloats (atof : List Char → ℝ) : OptionsParse.Floats where
  Double := ℝ
  zero := 0
  one := 1
  fivePercent := 1 / 20
  atof := atof
  lt x y := decide (x < y)
  toInt64 x := if 0 ≤ x then ⌊x⌋ else ⌈x⌉
  toMillis x := if 0 ≤ x then ⌊x * 1000⌋ else ⌈x * 1000⌉

/-- `struct SPRTParam` over the real numbers. -/
abbrev Param (atof : List Char → ℝ) := OptionsParse.SPRTParam (realFloats atof)

variable {atof : List Char → ℝ}

/-- `elo_to_score` -/
noncomputable def eloToScore (elo : ℝ) : ℝ := 1 / (1 + Real.exp (-elo * Real.log 10 / 400))

/-- `lbound` of `SPRTParam::done`. -/
noncomputable def lbound (p : Param atof) : ℝ := Real.log (p.beta / (1 - p.alpha))

/-- `ubound` of `SPRTParam::done`. -/
noncomputable def ubound (p : Param atof) : ℝ := Real.log ((1 - p.beta) / p.alpha)

/-- What `SPRTParam::done` prints behind the ratio. -/
inductive Verdict
  | h1Accepted
  | h0Accepted
  | undecided
  deriving DecidableEq

/-- The comparisons of `SPRTParam::done`. -/
noncomputable def verdict (p : Param atof) (llr : ℝ) : Verdict :=
  if ubound p < llr then .h1Accepted
  else if llr < lbound p then .h0Accepted
  else .undecided

/-- The ratio of a match under the hypotheses of `p`. -/
noncomputable def llrOf (p : Param atof) (wldCount : Result → ℕ) : Option ℝ :=
  sprtLlr wldCount (eloToScore p.elo0) (eloToScore p.elo1)

/-- `SPRTParam::done` -/
noncomputable def done (p : Param atof) (wldCount : Result → ℕ) : Option Bool :=
  (llrOf p wldCount).map fun llr => verdict p llr != .undecided

/-- The ratios at which the match ends for `elo1`. -/
def acceptsH1 (p : Param atof) : Set ℝ := {llr | ubound p < llr}

/-- The ratios at which the match ends for `elo0`. -/
def acceptsH0 (p : Param atof) : Set ℝ := {llr | llr < lbound p}

/-- The test stops only on evidence: the two regions lie on their sides of zero and do not
meet, and a match without evidence goes on. -/
structure Sensible (p : Param atof) : Prop where
  lbound_neg : lbound p < 0
  ubound_pos : 0 < ubound p
  disjoint : Disjoint (acceptsH0 p) (acceptsH1 p)
  done_of_zero : ∀ wldCount, llrOf p wldCount = some 0 → done p wldCount = some false
  done_of_kinds : ∀ wldCount, kinds wldCount < 2 → done p wldCount = some false

/-- What `SPRTParam::validate` accepts. -/
theorem validate_iff (p : Param atof) :
    p.validate = true ↔
      0 < p.alpha ∧ p.alpha < 1 ∧ 0 < p.beta ∧ p.beta < 1 ∧ p.elo0 < p.elo1 := by
  simp only [OptionsParse.SPRTParam.validate, Bool.and_eq_true, decide_eq_true_eq, and_assoc]

/-- A stronger player has the better score. -/
theorem eloToScore_strictMono : StrictMono eloToScore := by
  intro x y hxy
  have hlog : 0 < Real.log 10 := Real.log_pos (by norm_num)
  have hexp : Real.exp (-y * Real.log 10 / 400) < Real.exp (-x * Real.log 10 / 400) := by
    apply Real.exp_lt_exp.mpr
    have hmul := mul_lt_mul_of_pos_right hxy hlog
    linarith
  have hpos := Real.exp_pos (-y * Real.log 10 / 400)
  exact one_div_lt_one_div_of_lt (by linarith) (by linarith)

section Bounds

variable {p : Param atof} (hvalid : p.validate = true)

include hvalid

theorem lbound_neg_iff : lbound p < 0 ↔ p.beta < 1 - p.alpha := by
  obtain ⟨-, hα₁, hβ₀, -, -⟩ := (validate_iff p).mp hvalid
  have hα : 0 < 1 - p.alpha := sub_pos.mpr hα₁
  rw [lbound, Real.log_neg_iff (div_pos hβ₀ hα), div_lt_one hα]

theorem ubound_pos_iff : 0 < ubound p ↔ p.alpha < 1 - p.beta := by
  obtain ⟨hα₀, -, -, hβ₁, -⟩ := (validate_iff p).mp hvalid
  have hβ : 0 < 1 - p.beta := sub_pos.mpr hβ₁
  rw [ubound, Real.log_pos_iff (div_pos hβ hα₀).le, one_lt_div hα₀]

end Bounds

/-- Under accepted parameters the ratio speaks for the hypothesis that the mean score is
closer to.  The scores are ordered as the ratings are. -/
theorem sign_llrOf {p : Param atof} (hvalid : p.validate = true) {wldCount : Result → ℕ}
    (hkinds : 2 ≤ kinds wldCount) {llr : ℝ} (hllr : llrOf p wldCount = some llr) :
    SignType.sign llr =
      SignType.sign (2 * score ℝ wldCount - eloToScore p.elo0 - eloToScore p.elo1) := by
  obtain ⟨-, -, -, -, helo⟩ := (validate_iff p).mp hvalid
  exact sign_sprtLlr hkinds (eloToScore_strictMono helo) hllr

/-- A match is stopped in one of the two regions, and nowhere else. -/
theorem done_eq_true_iff {p : Param atof} {wldCount : Result → ℕ} :
    done p wldCount = some true ↔
      ∃ llr ∈ acceptsH0 p ∪ acceptsH1 p, llrOf p wldCount = some llr := by
  have hverdict : ∀ llr, (verdict p llr != .undecided) = true ↔
      llr ∈ acceptsH0 p ∪ acceptsH1 p := by
    intro llr
    rw [verdict]
    split_ifs with hu hl
    · exact iff_of_true rfl (Or.inr hu)
    · exact iff_of_true rfl (Or.inl hl)
    · exact iff_of_false Bool.false_ne_true (fun h => h.elim hl hu)
  constructor
  · intro h
    obtain ⟨llr, hllr, hdone⟩ := Option.map_eq_some_iff.mp h
    exact ⟨llr, (hverdict llr).mp hdone, hllr⟩
  · rintro ⟨llr, hmem, hllr⟩
    exact Option.map_eq_some_iff.mpr ⟨llr, hllr, (hverdict llr).mpr hmem⟩

/-- Between the bounds nothing is decided. -/
theorem done_eq_false {p : Param atof} (hl : lbound p < 0) (hu : 0 < ubound p)
    {wldCount : Result → ℕ} (hllr : llrOf p wldCount = some 0) :
    done p wldCount = some false := by
  rw [done, hllr, Option.map_some, verdict, if_neg hu.not_gt, if_neg hl.not_gt]
  rfl

/-- **When the test stops only on evidence.** The bounds of an accepted parameter set lie
around zero exactly when the two errors together are less likely than certain.  Parameters
with `alpha + beta` from one on are accepted as well, but then a match may be stopped before
there is any evidence. -/
theorem sensible_iff (p : Param atof) (hvalid : p.validate = true) :
    (lbound p < 0 ↔ p.beta < 1 - p.alpha) ∧ (0 < ubound p ↔ p.alpha < 1 - p.beta) ∧
      (Sensible p ↔ p.alpha + p.beta < 1) := by
  have hl := lbound_neg_iff hvalid
  have hu := ubound_pos_iff hvalid
  refine ⟨hl, hu, fun h => lt_sub_iff_add_lt.mp (hu.mp h.ubound_pos), fun h => ?_⟩
  have hlneg : lbound p < 0 := hl.mpr (lt_sub_iff_add_lt'.mpr h)
  have hupos : 0 < ubound p := hu.mpr (lt_sub_iff_add_lt.mpr h)
  constructor
  case lbound_neg => exact hlneg
  case ubound_pos => exact hupos
  case disjoint =>
    rw [Set.disjoint_left]
    intro llr h₀ h₁
    have hbounds : ubound p < lbound p := lt_trans h₁ h₀
    exact (hbounds.trans (hlneg.trans hupos)).false
  case done_of_zero =>
    intro wldCount hllr
    exact done_eq_false hlneg hupos hllr
  case done_of_kinds =>
    intro wldCount hkinds
    exact done_eq_false hlneg hupos (sprtLlr_eq_zero hkinds _ _)

/-- Both errors more likely than not. -/
noncomputable def likelyErrors : Param fun _ => 0 where
  elo0 := (0 : ℝ)
  elo1 := (5 : ℝ)
  alpha := (3 / 5 : ℝ)
  beta := (3 / 5 : ℝ)

/-- The first game ends the match, although it says nothing. -/
theorem done_likelyErrors :
    likelyErrors.validate = true ∧ ¬Sensible likelyErrors ∧
      llrOf likelyErrors firstWon = some 0 ∧ done likelyErrors firstWon = some true := by
  have hvalid : likelyErrors.validate = true := by
    rw [validate_iff]
    norm_num [likelyErrors]
  have hu : ubound likelyErrors < 0 := by
    apply Real.log_neg <;> norm_num [likelyErrors]
  have hllr : llrOf likelyErrors firstWon = some 0 := sprtLlr_eq_zero (by decide) _ _
  refine ⟨hvalid, fun h => (hu.trans h.ubound_pos).false, hllr, ?_⟩
  exact done_eq_true_iff.mpr ⟨0, Or.inr hu, hllr⟩

/-- The errors of one in twenty that the test has by default. -/
theorem sensible_default : Sensible ({ elo1 := (5 : ℝ) } : Param fun _ => 0) := by
  refine (sensible_iff _ ?_).2.2.mpr ?_
  · rw [validate_iff]
    norm_num
  · norm_num

end Decision

end Sprt

end GomokuCli
