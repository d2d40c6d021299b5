import Mathlib.Control.Monad.Writer
import Mathlib.Tactic

/-!
# Computations that log what they do

A computation over a state that may fail and that keeps a log of events.
Forgetting the log leaves the computation itself; the log says what happened on
the way, also between a change of the state and its reversal.

A log is `Balanced` when every event that opens something is closed again, in
the order of brackets.  `Restores` says that a computation, when it returns,
leaves the state as it found it and a balanced log.
-/

/-- A computation over `σ` that may fail and logs events.  A log is only known of a
computation that returns. -/
abbrev Tracing (σ ε : Type) := StateT σ (WriterT (List ε) Option)

namespace Tracing

variable {σ ε α β : Type}

/-- The value, the final state and the log. -/
def outcome (x : Tracing σ ε α) (s : σ) : Option ((α × σ) × List ε) :=
  WriterT.run (StateT.run x s)

/-- The computation without its log.  A program that does not log is compared with its
logging version by this function, so that a fact about the log is one about the program. -/
def forget (x : Tracing σ ε α) (s : σ) : Option (α × σ) := (outcome x s).map Prod.fst

/-- A value read off the state. -/
def reads (f : σ → α) : Tracing σ ε α := fun s => pure (f s, s)

/-- A change of the state, logged with what it finds. -/
def act (change : σ → σ) (event : σ → ε) : Tracing σ ε Unit :=
  fun s => WriterT.mk (some (((), change s), [event s]))

/-- The computation that does not return. -/
def stuck : Tracing σ ε α := fun _ => WriterT.mk none

/-- Do `body` between two changes of the state, of which the last is meant to reverse the
first. -/
def between (first last : Tracing σ ε Unit) (body : Tracing σ ε α) : Tracing σ ε α := do
  first
  let a ← body
  last
  return a

section Outcome

variable (s : σ) (a : α) (x : Tracing σ ε α) (k : α → Tracing σ ε β) (f : σ → α)

@[simp] theorem outcome_pure : outcome (pure a : Tracing σ ε α) s = some ((a, s), []) := rfl

@[simp] theorem outcome_reads : outcome (reads f : Tracing σ ε α) s = some ((f s, s), []) := rfl

@[simp] theorem outcome_stuck : outcome (stuck : Tracing σ ε α) s = none := rfl

@[simp] theorem outcome_act (change : σ → σ) (event : σ → ε) :
    outcome (act change event) s = some (((), change s), [event s]) := rfl

theorem outcome_bind :
    outcome (x >>= k) s =
      (outcome x s).bind fun r =>
        (outcome (k r.1.1) r.1.2).map fun r' => (r'.1, r.2 ++ r'.2) := rfl

/-! ## Forgetting the log -/

@[simp] theorem forget_pure : forget (pure a : Tracing σ ε α) s = some (a, s) := rfl

@[simp] theorem forget_reads : forget (reads f : Tracing σ ε α) s = some (f s, s) := rfl

@[simp] theorem forget_stuck : forget (stuck : Tracing σ ε α) s = none := rfl

@[simp] theorem forget_act (change : σ → σ) (event : σ → ε) :
    forget (act change event) s = some ((), change s) := rfl

@[simp] theorem forget_bind :
    forget (x >>= k) s = (forget x s).bind fun r => forget (k r.1) r.2 := by
  rw [forget, outcome_bind, forget]
  cases outcome x s with
  | none => rfl
  | some r => simp [forget, Function.comp_def]

@[simp] theorem forget_ite (c : Prop) [Decidable c] (y : Tracing σ ε α) :
    forget (if c then x else y) s = if c then forget x s else forget y s := by
  split <;> rfl

end Outcome

theorem exists_outcome {x : Tracing σ ε α} {s s' : σ} {a : α}
    (h : forget x s = some (a, s')) : ∃ l, outcome x s = some ((a, s'), l) := by
  obtain ⟨⟨r, l⟩, hr, heq⟩ := Option.map_eq_some_iff.mp h
  exact ⟨l, by rw [hr, ← heq]⟩

/-! ## Brackets -/

/-- Every event that opens something is closed by an event that matches it, in the order of
brackets.  In particular no event is left over, and what is closed was opened before. -/
inductive Balanced (closes : ε → ε → Prop) : List ε → Prop
  | nil : Balanced closes []
  | bracket {o c : ε} {l r : List ε} (h : closes o c) (hl : Balanced closes l)
      (hr : Balanced closes r) : Balanced closes (o :: (l ++ c :: r))

variable {closes : ε → ε → Prop}

theorem Balanced.append {l r : List ε} (hl : Balanced closes l) (hr : Balanced closes r) :
    Balanced closes (l ++ r) := by
  induction hl with
  | nil => exact hr
  | bracket h hin _ _ ih =>
      rw [List.cons_append, List.append_assoc, List.cons_append]
      exact Balanced.bracket h hin ih

theorem Balanced.around {o c : ε} {l : List ε} (h : closes o c) (hl : Balanced closes l) :
    Balanced closes (o :: (l ++ [c])) :=
  Balanced.bracket h hl Balanced.nil

/-- No event stands alone: it closes another one of the log, or is closed by one. -/
theorem Balanced.matched {l : List ε} (hl : Balanced closes l) {e : ε} (he : e ∈ l) :
    (∃ c ∈ l, closes e c) ∨ ∃ o ∈ l, closes o e := by
  induction hl with
  | nil => cases he
  | @bracket o c l r h _ _ ihl ihr =>
      simp only [List.mem_cons, List.mem_append] at he
      rcases he with rfl | he | rfl | he
      · exact Or.inl ⟨c, by simp, h⟩
      · rcases ihl he with ⟨e', hmem, hc⟩ | ⟨e', hmem, hc⟩
        · exact Or.inl ⟨e', by simp [hmem], hc⟩
        · exact Or.inr ⟨e', by simp [hmem], hc⟩
      · exact Or.inr ⟨o, by simp, h⟩
      · rcases ihr he with ⟨e', hmem, hc⟩ | ⟨e', hmem, hc⟩
        · exact Or.inl ⟨e', by simp [hmem], hc⟩
        · exact Or.inr ⟨e', by simp [hmem], hc⟩

/-! ## Computations that put the state back -/

/-- From `s` the computation can only return to `s`, with a balanced log.  It says nothing
of what happens in between, which the log tells. -/
def Restores (closes : ε → ε → Prop) (x : Tracing σ ε α) (s : σ) : Prop :=
  ∀ a s' l, outcome x s = some ((a, s'), l) → s' = s ∧ Balanced closes l

variable {s : σ} {x y : Tracing σ ε α} {k : α → Tracing σ ε β}

theorem restores_pure (a : α) : Restores closes (pure a : Tracing σ ε α) s := by
  rintro b s' l ⟨⟩
  exact ⟨rfl, Balanced.nil⟩

theorem restores_reads (f : σ → α) : Restores closes (reads f : Tracing σ ε α) s := by
  rintro b s' l ⟨⟩
  exact ⟨rfl, Balanced.nil⟩

theorem restores_stuck : Restores closes (stuck : Tracing σ ε α) s := by
  rintro b s' l ⟨⟩

/-- A computation that restores the state may be followed by another one, whatever value it
hands on. -/
theorem Restores.bind (hx : Restores closes x s) (hk : ∀ a, Restores closes (k a) s) :
    Restores closes (x >>= k) s := by
  intro b s' l h
  rw [outcome_bind] at h
  obtain ⟨⟨⟨a, s₁⟩, l₁⟩, hfirst, hrest⟩ := Option.bind_eq_some_iff.mp h
  obtain ⟨⟨⟨b', s₂⟩, l₂⟩, hsecond, heq⟩ := Option.map_eq_some_iff.mp hrest
  obtain ⟨rfl, hl₁⟩ := hx a s₁ l₁ hfirst
  obtain ⟨rfl, hl₂⟩ := hk a b' s₂ l₂ hsecond
  cases heq
  exact ⟨rfl, hl₁.append hl₂⟩

/-- What is read off the state is known of the rest. -/
theorem Restores.reads_bind {f : σ → α} (hk : Restores closes (k (f s)) s) :
    Restores closes (reads f >>= k) s := by
  intro b s' l h
  rw [outcome_bind, outcome_reads] at h
  obtain ⟨⟨⟨b', s₂⟩, l₂⟩, hsecond, heq⟩ := Option.map_eq_some_iff.mp h
  obtain ⟨rfl, hl₂⟩ := hk b' s₂ l₂ hsecond
  cases heq
  exact ⟨rfl, hl₂⟩

theorem Restores.ite {c : Prop} [Decidable c] (hx : c → Restores closes x s)
    (hy : ¬ c → Restores closes y s) : Restores closes (if c then x else y) s := by
  split
  · next hc => exact hx hc
  · next hc => exact hy hc

/-- **The rule for brackets.** A change and its reversal restore the state when what is done
between them does, and their events match.  The body starts in the changed state, and comes
back to it. -/
theorem Restores.between {first last : σ → σ} {opens shuts : σ → ε}
    (hbody : Restores closes x (first s)) (hback : last (first s) = s)
    (hclose : closes (opens s) (shuts (first s))) :
    Restores closes (between (act first opens) (act last shuts) x) s := by
  intro b s' l h
  rw [Tracing.between, outcome_bind, outcome_act, Option.bind_some] at h
  obtain ⟨⟨⟨b', s₂⟩, l₂⟩, hrest, heq⟩ := Option.map_eq_some_iff.mp h
  rw [outcome_bind] at hrest
  obtain ⟨⟨⟨a, s₁⟩, l₁⟩, hfirst, hlast⟩ := Option.bind_eq_some_iff.mp hrest
  obtain ⟨rfl, hl₁⟩ := hbody a s₁ l₁ hfirst
  cases hlast
  cases heq
  exact ⟨hback, hl₁.around hclose⟩

end Tracing
