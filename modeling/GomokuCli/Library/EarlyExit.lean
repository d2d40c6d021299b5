import Mathlib.Logic.Relation
import Mathlib.Tactic

/-!
# Loops that are left from the middle

A loop without a condition whose body may leave it: one round is a function to
`Except ε σ`, where an error carries what is known when the loop is left and a
value is the state at the head of the next round.

The rules are the usual ones.  What a round preserves holds at the head of every
round (`Reaches.invariant`), a loop that ends was left in some reachable round
(`reaches_of_run`) and has gone through all of these (`mem_heads_iff`), and a
measure that every round decreases bounds the number of rounds (`run_of_measure`).
Two loops whose rounds keep a relation between their states end alike
(`run_parallel`).
-/

namespace EarlyExit

universe u

variable {σ ε : Type*} {α β : Type u}

/-! ## Sequences of phases -/

theorem bind_eq_ok {x : Except ε α} {f : α → Except ε β} {b : β} :
    (x >>= f) = .ok b ↔ ∃ a, x = .ok a ∧ f a = .ok b := by
  cases x with
  | error e =>
      constructor
      · intro h
        cases h
      · rintro ⟨a, h, -⟩
        cases h
  | ok a =>
      constructor
      · exact fun h => ⟨a, rfl, h⟩
      · rintro ⟨a', h, h'⟩
        cases h
        exact h'

theorem bind_eq_error {x : Except ε α} {f : α → Except ε β} {e : ε} :
    (x >>= f) = .error e ↔ x = .error e ∨ ∃ a, x = .ok a ∧ f a = .error e := by
  cases x with
  | error e' =>
      constructor
      · intro h
        cases h
        exact Or.inl rfl
      · rintro (h | ⟨a, h, -⟩)
        · cases h
          rfl
        · cases h
  | ok a =>
      constructor
      · exact fun h => Or.inr ⟨a, rfl, h⟩
      · rintro (h | ⟨a', h, h'⟩)
        · cases h
        · cases h
          exact h'

/-- A loop over a list that no round leaves has the results of all rounds, in their order. -/
theorem mapM_of_forall {f : α → Option β} {g : α → β} {l : List α}
    (h : ∀ x ∈ l, f x = some (g x)) : l.mapM f = some (l.map g) := by
  induction l with
  | nil => rfl
  | cons x l ih =>
      rw [List.mapM_cons, h x (.head l), ih fun y hy => h y (.tail x hy)]
      rfl

/-! ## Rounds -/

/-- At most `n` rounds from `s`: what the loop is left with, if it is left.  The bound makes
the loop a total function; where a measure gives a bound, any larger one leads to the same
end (`run_of_measure`, `run_eq_of_reaches`). -/
def run (step : σ → Except ε σ) : ℕ → σ → Option ε
  | 0, _ => none
  | n + 1, s =>
      match step s with
      | .error e => some e
      | .ok s' => run step n s'

/-- Some rounds lead from the head `s` to the head `s'`.  Facts about all rounds are stated
with it, since it does not mention a bound on their number. -/
def Reaches (step : σ → Except ε σ) : σ → σ → Prop :=
  Relation.ReflTransGen fun s s' => step s = .ok s'

variable {step : σ → Except ε σ} {s s' : σ}

theorem Reaches.refl (s : σ) : Reaches step s s := Relation.ReflTransGen.refl

/-- **Invariants.** A property that every reachable round preserves holds at the head of
every reachable round.  The step may assume that its round is reachable, so that one
invariant can be used in the proof of another. -/
theorem Reaches.invariant (Inv : σ → Prop) (hinit : Inv s)
    (hstep : ∀ t t', Reaches step s t → Inv t → step t = .ok t' → Inv t')
    (h : Reaches step s s') : Inv s' := by
  induction h with
  | refl => exact hinit
  | tail hreach hlast ih => exact hstep _ _ hreach ih hlast

/-- **Exits.** A loop that ends was left in a reachable round.  An invariant of the heads is
therefore known where the loop is left. -/
theorem reaches_of_run {n : ℕ} {e : ε} (h : run step n s = some e) :
    ∃ t, Reaches step s t ∧ step t = .error e := by
  induction n generalizing s with
  | zero => cases h
  | succ n ih =>
      rw [run] at h
      cases hs : step s with
      | error e' =>
          rw [hs] at h
          cases h
          exact ⟨s, Reaches.refl s, hs⟩
      | ok s' =>
          rw [hs] at h
          obtain ⟨t, hreach, ht⟩ := ih h
          exact ⟨t, Relation.ReflTransGen.head hs hreach, ht⟩

/-- The heads of at most `n` rounds from `s`, in their order, with the one in which the loop
is left as the last. -/
def heads (step : σ → Except ε σ) : ℕ → σ → List σ
  | 0, _ => []
  | n + 1, s =>
      s ::
        match step s with
        | .error _ => []
        | .ok s' => heads step n s'

theorem heads_of_error {e : ε} (h : step s = .error e) (n : ℕ) : heads step (n + 1) s = [s] := by
  rw [heads, h]

theorem heads_of_ok (h : step s = .ok s') (n : ℕ) :
    heads step (n + 1) s = s :: heads step n s' := by
  rw [heads, h]

/-- **All rounds.** A loop that ends goes through the rounds that can be reached, and
through no others. -/
theorem mem_heads_iff {n : ℕ} {e : ε} (h : run step n s = some e) :
    s' ∈ heads step n s ↔ Reaches step s s' := by
  induction n generalizing s with
  | zero => cases h
  | succ n ih =>
      cases hs : step s with
      | error e' =>
          rw [heads_of_error hs, List.mem_singleton]
          constructor
          · rintro rfl
            exact Reaches.refl s'
          · intro hreach
            rcases Relation.ReflTransGen.cases_head hreach with rfl | ⟨t, ht, -⟩
            · rfl
            · rw [hs] at ht
              cases ht
      | ok t =>
          rw [run, hs] at h
          rw [heads_of_ok hs, List.mem_cons, ih h]
          constructor
          · rintro (rfl | hreach)
            · exact Reaches.refl s'
            · exact Relation.ReflTransGen.head hs hreach
          · intro hreach
            rcases Relation.ReflTransGen.cases_head hreach with rfl | ⟨t', ht', hrest⟩
            · exact Or.inl rfl
            · rw [hs] at ht'
              cases ht'
              exact Or.inr hrest

/-- **One exit.** A loop that is left in a reachable round is left there.  Rounds are
functions of the state, so that there is no other way for it to go. -/
theorem run_eq_of_reaches {n : ℕ} {e e' : ε} (hreach : Reaches step s s')
    (hexit : step s' = .error e) (h : run step n s = some e') : e' = e := by
  induction hreach using Relation.ReflTransGen.head_induction_on generalizing n with
  | refl =>
      cases n with
      | zero => cases h
      | succ n =>
          rw [run, hexit, Option.some.injEq] at h
          exact h.symm
  | head hstep _ ih =>
      cases n with
      | zero => cases h
      | succ n =>
          rw [run, hstep] at h
          exact ih h

/-- **Termination.** A measure that every round decreases, as long as an invariant holds,
bounds the number of rounds: with more rounds than the measure at its start the loop is
left. -/
theorem run_of_measure (Inv : σ → Prop) (μ : σ → ℕ)
    (hinv : ∀ t t', Inv t → step t = .ok t' → Inv t')
    (hdec : ∀ t t', Inv t → step t = .ok t' → μ t' < μ t) {n : ℕ} (hs : Inv s)
    (hn : μ s < n) : ∃ e, run step n s = some e := by
  induction n generalizing s with
  | zero => omega
  | succ n ih =>
      cases hstep : step s with
      | error e => exact ⟨e, by simp only [run, hstep]⟩
      | ok s' =>
          have hless := hdec s s' hs hstep
          obtain ⟨e, he⟩ := ih (hinv s s' hs hstep) (by omega)
          exact ⟨e, by simp only [run, hstep, he]⟩

/-! ## Two loops side by side -/

section Parallel

variable {σ' ε' : Type*} {α' β' : Type u}

/-- Two computations that end in the same way: with values that `R` relates, or with errors
that `E` relates.  One of them never goes on where the other is left. -/
inductive Parallel {α α' : Type*} (R : α → α' → Prop) (E : ε → ε' → Prop) :
    Except ε α → Except ε' α' → Prop
  | ok {a : α} {a' : α'} (h : R a a') : Parallel R E (.ok a) (.ok a')
  | error {e : ε} {e' : ε'} (h : E e e') : Parallel R E (.error e) (.error e')

/-- One phase after another.  A round that is made of several phases is treated phase by
phase with it. -/
theorem Parallel.bind {R : α → α' → Prop} {S : β → β' → Prop} {E : ε → ε' → Prop}
    {x : Except ε α} {x' : Except ε' α'} {f : α → Except ε β} {f' : α' → Except ε' β'}
    (h : Parallel R E x x') (hf : ∀ a a', R a a' → Parallel S E (f a) (f' a')) :
    Parallel S E (x >>= f) (x' >>= f') := by
  cases h with
  | ok h => exact hf _ _ h
  | error h => exact .error h

/-- **Simulation.** Rounds that keep the states related leave both loops at the same time,
with related errors.  The relation is all that has to be found; the induction over the
rounds is done here. -/
theorem run_parallel {step : σ → Except ε σ} {step' : σ' → Except ε' σ'} {R : σ → σ' → Prop}
    {E : ε → ε' → Prop} (hstep : ∀ s s', R s s' → Parallel R E (step s) (step' s')) (n : ℕ)
    {s : σ} {s' : σ'} (h : R s s') : Option.Rel E (run step n s) (run step' n s') := by
  induction n generalizing s s' with
  | zero => exact Option.Rel.none
  | succ n ih =>
      have hround := hstep s s' h
      rw [run, run]
      revert hround
      generalize step s = x
      generalize step' s' = x'
      intro hround
      cases hround with
      | ok h => exact ih h
      | error h => exact Option.Rel.some h

end Parallel

end EarlyExit
