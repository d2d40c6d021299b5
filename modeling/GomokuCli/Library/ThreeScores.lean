import Mathlib.Algebra.Order.Field.Basic
import Mathlib.Tactic.FieldSimp
import Mathlib.Tactic.Linarith
import Mathlib.Tactic.LinearCombination
import Mathlib.Tactic.Positivity
import Mathlib.Tactic.Ring

/-!
# Scores of three values

A game between two players scores one, nothing, or a value `c` in between for the
first of them.  A law of such a score is the weight of each of the three values.

The variance is a sum over the pairs of values (`Law.variance_eq`), so it is
positive exactly when two of the values have weight (`Law.variance_pos_iff`).
Seen from the other player the law is mirrored, which leaves the variance as it
is and takes the mean from one (`Law.mirror`).
-/

namespace ThreeScores

variable (K : Type*) [Field K] [LinearOrder K]

/-- The weights of a win, a draw and a loss.  They are a law by construction: none is
negative, and they add up to one. -/
@[ext]
structure Law where
  win : K
  draw : K
  loss : K
  win_nonneg : 0 ≤ win
  draw_nonneg : 0 ≤ draw
  loss_nonneg : 0 ≤ loss
  sum_eq_one : win + draw + loss = 1

namespace Law

variable {K} (t : Law K) (c : K)

/-- The mean score. -/
def mean : K := t.win + t.draw * c

/-- The mean of the square of the score, minus the square of its mean.  That it is not
negative is not seen in this form (`variance_eq`). -/
def variance : K := t.win + t.draw * (c * c) - t.mean c * t.mean c

/-- At least two of the scores have weight.  These are the laws that leave something open. -/
def Mixed : Prop :=
  (0 < t.win ∧ 0 < t.draw) ∨ (0 < t.win ∧ 0 < t.loss) ∨ (0 < t.draw ∧ 0 < t.loss)

/-- The same games from the other side: wins and losses change places, and a draw is worth
what the other one does not get. -/
def mirror : Law K where
  win := t.loss
  draw := t.draw
  loss := t.win
  win_nonneg := t.loss_nonneg
  draw_nonneg := t.draw_nonneg
  loss_nonneg := t.win_nonneg
  sum_eq_one := by
    rw [← t.sum_eq_one]
    ring

/-- A pair of scores adds the product of its weights, times the square of the difference of
the scores.  In this form all terms are seen to be at least zero. -/
theorem variance_eq :
    t.variance c = t.win * t.loss + t.win * t.draw * ((1 - c) * (1 - c)) +
      t.draw * t.loss * (c * c) := by
  have hloss : t.loss = 1 - t.win - t.draw := by linear_combination t.sum_eq_one
  rw [variance, mean, hloss]
  ring

theorem mean_mirror : t.mirror.mean (1 - c) = 1 - t.mean c := by
  change t.loss + t.draw * (1 - c) = 1 - (t.win + t.draw * c)
  linear_combination t.sum_eq_one

theorem variance_mirror : t.mirror.variance (1 - c) = t.variance c := by
  rw [variance_eq, variance_eq, sub_sub_cancel]
  change t.loss * t.win + t.loss * t.draw * (c * c) +
    t.draw * t.win * ((1 - c) * (1 - c)) = _
  ring

variable [IsStrictOrderedRing K] {c}

/-- The score varies iff two of the scores have weight, as long as a draw is worth neither
nothing nor a win. -/
theorem variance_pos_iff (h₀ : 0 < c) (h₁ : c < 1) : 0 < t.variance c ↔ t.Mixed := by
  have hc : 0 < c * c := mul_pos h₀ h₀
  have hc' : 0 < (1 - c) * (1 - c) := mul_pos (sub_pos.mpr h₁) (sub_pos.mpr h₁)
  have hwl := mul_nonneg t.win_nonneg t.loss_nonneg
  have hwd := mul_nonneg (mul_nonneg t.win_nonneg t.draw_nonneg) hc'.le
  have hdl := mul_nonneg (mul_nonneg t.draw_nonneg t.loss_nonneg) hc.le
  rw [variance_eq]
  constructor
  · intro hpos
    -- some pair has both of its weights
    have hpair : 0 < t.win * t.draw ∨ 0 < t.win * t.loss ∨ 0 < t.draw * t.loss := by
      by_contra hnone
      push Not at hnone
      obtain ⟨h₁, h₂, h₃⟩ := hnone
      have hwd' := mul_nonpos_of_nonpos_of_nonneg h₁ hc'.le
      have hdl' := mul_nonpos_of_nonpos_of_nonneg h₃ hc.le
      linarith
    refine hpair.imp ?_ (Or.imp ?_ ?_)
    · exact fun h => ⟨pos_of_mul_pos_left h t.draw_nonneg, pos_of_mul_pos_right h t.win_nonneg⟩
    · exact fun h => ⟨pos_of_mul_pos_left h t.loss_nonneg, pos_of_mul_pos_right h t.win_nonneg⟩
    · exact fun h => ⟨pos_of_mul_pos_left h t.loss_nonneg, pos_of_mul_pos_right h t.draw_nonneg⟩
  · rintro (⟨h, h'⟩ | ⟨h, h'⟩ | ⟨h, h'⟩)
    · have hpair := mul_pos (mul_pos h h') hc'
      linarith
    · have hpair := mul_pos h h'
      linarith
    · have hpair := mul_pos (mul_pos h h') hc
      linarith

end Law

/-! ## The law of some games -/

section OfCounts

variable {K} [IsStrictOrderedRing K] (win draw loss : ℕ)

/-- The law of some games, of which each has the same weight.  There has to be a game. -/
def Law.ofCounts (h : 0 < win + draw + loss) : Law K where
  win := win / (win + draw + loss : ℕ)
  draw := draw / (win + draw + loss : ℕ)
  loss := loss / (win + draw + loss : ℕ)
  win_nonneg := by positivity
  draw_nonneg := by positivity
  loss_nonneg := by positivity
  sum_eq_one := by
    have hn : ((win + draw + loss : ℕ) : K) ≠ 0 := by exact_mod_cast h.ne'
    rw [← add_div, ← add_div, div_eq_one_iff_eq hn]
    push_cast
    rfl

variable {win draw loss}

/-- A score has weight if there was such a game. -/
theorem Law.mixed_ofCounts_iff (h : 0 < win + draw + loss) :
    (Law.ofCounts win draw loss h : Law K).Mixed ↔
      (0 < win ∧ 0 < draw) ∨ (0 < win ∧ 0 < loss) ∨ (0 < draw ∧ 0 < loss) := by
  have hn : (0 : K) < (win + draw + loss : ℕ) := by exact_mod_cast h
  simp only [Law.Mixed, Law.ofCounts, div_pos_iff_of_pos_right hn, Nat.cast_pos]

end OfCounts

end ThreeScores
