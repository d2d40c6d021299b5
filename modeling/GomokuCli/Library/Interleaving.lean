import Mathlib.Data.List.Induction
import Mathlib.Data.Option.Basic

/-!
# Interleavings

Several parties act on one state.  An action is atomic: it is a partial function
of the state, undefined where it is not enabled or has no behaviour.  A schedule
is the list of the actions in the order in which they happen, whoever takes
them, so that a statement about all schedules is one about all interleavings.

The rules: what every step preserves holds after every run (`invariant`), also
when it speaks about the schedule so far (`invariant_along`); a run can be cut
before any of its actions (`exists_of_append`, `exists_of_mid`); a rank bounds the
actions that lower it (`countP_add_rank_le`); and the part of a state that only some
of the actions touch goes through a run of its own (`runs_of_simulates`).

A state may carry a log of events.  `Throughout P` says of a log that `P` relates
every event to the events before it, whatever came later.
-/

namespace Interleaving

variable {α σ : Type*}

/-- The state after a schedule, if every action is possible in its turn.  A schedule with an
action that is not possible where it stands has no run, so that a theorem about a run says
nothing about it. -/
def runs (step : α → σ → Option σ) : List α → σ → Option σ
  | [], s => some s
  | a :: schedule, s => (step a s).bind (runs step schedule)

variable {step : α → σ → Option σ} {pre post schedule : List α} {a : α} {s t : σ}

@[simp] theorem runs_nil : runs step [] s = some s := rfl

theorem runs_cons : runs step (a :: schedule) s = (step a s).bind (runs step schedule) := rfl

/-- A run of two schedules, one after the other, goes through the state in between. -/
theorem runs_append :
    runs step (pre ++ post) s = (runs step pre s).bind (runs step post) := by
  induction pre generalizing s with
  | nil => rfl
  | cons a pre ih =>
      rw [List.cons_append, runs_cons, runs_cons, Option.bind_assoc]
      congr 1
      funext r
      exact ih

theorem runs_singleton : runs step [a] s = step a s := by
  rw [runs_cons]
  cases step a s <;> rfl

/-! ## Cutting a run -/

/-- A run can be cut at any place of its schedule: there is a state in which the first part
ends and the second one starts. -/
theorem exists_of_append (h : runs step (pre ++ post) s = some t) :
    ∃ r, runs step pre s = some r ∧ runs step post r = some t := by
  rw [runs_append] at h
  exact Option.bind_eq_some_iff.mp h

/-- The last action of a run, and the state in which it was taken. -/
theorem exists_of_snoc (h : runs step (pre ++ [a]) s = some t) :
    ∃ r, runs step pre s = some r ∧ step a r = some t := by
  obtain ⟨r, hpre, hlast⟩ := exists_of_append h
  rw [runs_singleton] at hlast
  exact ⟨r, hpre, hlast⟩

/-- The states right before and right after an action.  With them a statement about one
action in the middle of a run becomes one about a single step from a state that can be
reached. -/
theorem exists_of_mid (h : runs step (pre ++ a :: post) s = some t) :
    ∃ r r', runs step pre s = some r ∧ step a r = some r' ∧ runs step post r' = some t := by
  obtain ⟨r, hpre, hrest⟩ := exists_of_append h
  rw [runs_cons] at hrest
  obtain ⟨r', hstep, hpost⟩ := Option.bind_eq_some_iff.mp hrest
  exact ⟨r, r', hpre, hstep, hpost⟩

theorem runs_append_of (hpre : runs step pre s = some t) :
    runs step (pre ++ post) s = runs step post t := by
  rw [runs_append, hpre]
  rfl

theorem runs_snoc_of (hpre : runs step pre s = some t) :
    runs step (pre ++ [a]) s = step a t := by
  rw [runs_append_of hpre, runs_singleton]

/-! ## Invariants -/

/-- **Invariants of runs**, which may speak about the schedule so far.  The step may assume
that its state is reached by the schedule before it, so that an invariant can rest on others
that are known of all runs, and need not carry them along. -/
theorem invariant_along (Inv : List α → σ → Prop) (hinit : Inv [] s)
    (hstep : ∀ done r a r', runs step done s = some r → Inv done r → step a r = some r' →
      Inv (done ++ [a]) r')
    (h : runs step schedule s = some t) : Inv schedule t := by
  induction schedule using List.reverseRecOn generalizing t with
  | nil =>
      cases h
      exact hinit
  | append_singleton done a ih =>
      obtain ⟨r, hdone, hlast⟩ := exists_of_snoc h
      exact hstep done r a t hdone (ih hdone) hlast

/-- **Invariants of states.** What holds at the start and is kept by each step holds in
every state that any schedule leads to. -/
theorem invariant (Inv : σ → Prop) (hinit : Inv s)
    (hstep : ∀ r a r', Inv r → step a r = some r' → Inv r')
    (h : runs step schedule s = some t) : Inv t :=
  invariant_along (fun _ => Inv) hinit (fun _ r a r' _ hr => hstep r a r' hr) h

/-- **Ranks.** Where the steps that count lower a rank and the others do not raise it, no
run has more of them than the rank at its start.  This bounds how often something can happen
without a word about the order in which the parties take their steps. -/
theorem countP_add_rank_le (rank : σ → Nat) (counts : α → Bool)
    (hcounts : ∀ a ∈ schedule, ∀ r r', counts a = true → step a r = some r' → rank r' < rank r)
    (hothers : ∀ a ∈ schedule, ∀ r r', counts a = false → step a r = some r' → rank r' ≤ rank r)
    (h : runs step schedule s = some t) : schedule.countP counts + rank t ≤ rank s := by
  induction schedule generalizing s with
  | nil =>
      cases h
      exact Nat.le_of_eq (Nat.zero_add _)
  | cons a schedule ih =>
      rw [runs_cons] at h
      obtain ⟨r, hstep, hrest⟩ := Option.bind_eq_some_iff.mp h
      have hlater := ih (fun b hb => hcounts b (.tail a hb)) (fun b hb => hothers b (.tail a hb))
        hrest
      rw [List.countP_cons]
      cases ha : counts a with
      | true =>
          have hless := hcounts a (.head schedule) s r ha hstep
          rw [if_pos rfl]
          omega
      | false =>
          have hle := hothers a (.head schedule) s r ha hstep
          rw [if_neg Bool.false_ne_true]
          omega

/-! ## Parts of a state -/

section Simulation

variable {β τ : Type*} {step' : β → τ → Option τ} {view : σ → τ}

/-- Each step of the whole is a run of the part, which may be empty or have several steps.
The view forgets what the part does not know of. -/
def Simulates (step : α → σ → Option σ) (step' : β → τ → Option τ) (view : σ → τ) : Prop :=
  ∀ a s s', step a s = some s' → ∃ schedule, runs step' schedule (view s) = some (view s')

/-- **What a run of the whole does to a part is a run of the part.** All that has been
proved of the runs of the part holds then of what is seen of it in the whole, and is not
proved again. -/
theorem runs_of_simulates (hsim : Simulates step step' view)
    (h : runs step schedule s = some t) :
    ∃ schedule', runs step' schedule' (view s) = some (view t) := by
  refine invariant (fun r => ∃ schedule', runs step' schedule' (view s) = some (view r))
    ⟨[], rfl⟩ ?_ h
  rintro r a r' ⟨schedule', hrun⟩ hstep
  obtain ⟨more, hmore⟩ := hsim a r r' hstep
  exact ⟨schedule' ++ more, (runs_append_of hrun).trans hmore⟩

end Simulation

/-! ## Logs -/

section Log

variable {ε : Type*} {P Q : List ε → ε → Prop} {log : List ε} {e : ε}

/-- Each event of the log is as `P` says after the events before it.  It is the form of an
invariant about the past: an event that was in order when it was logged stays so, whatever
is logged behind it. -/
def Throughout (P : List ε → ε → Prop) (log : List ε) : Prop :=
  ∀ before e after, log = before ++ e :: after → P before e

theorem Throughout.nil : Throughout P [] := by
  intro before e after h
  cases before <;> cases h

/-- A log goes on as `P` wants it iff the new event does.  This is what a step has to show. -/
theorem throughout_snoc : Throughout P (log ++ [e]) ↔ Throughout P log ∧ P log e := by
  constructor
  · refine fun h => ⟨fun before e' after hlog => ?_, h log e [] rfl⟩
    refine h before e' (after ++ [e]) ?_
    rw [hlog, List.append_assoc, List.cons_append]
  · rintro ⟨hlog, he⟩ before e' after h
    rcases List.eq_nil_or_concat after with rfl | ⟨after, last, rfl⟩
    · obtain ⟨rfl, hlast⟩ := List.append_inj' h rfl
      cases hlast
      exact he
    · rw [List.concat_eq_append, ← List.cons_append, ← List.append_assoc] at h
      exact hlog before e' after (List.append_inj' h rfl).1

theorem throughout_cons :
    Throughout P (e :: log) ↔ P [] e ∧ Throughout (fun before => P (e :: before)) log := by
  constructor
  · refine fun h => ⟨h [] e log rfl, fun before e' after hlog => h (e :: before) e' after ?_⟩
    rw [hlog, List.cons_append]
  · rintro ⟨he, hlog⟩ before e' after h
    cases before with
    | nil =>
        cases h
        exact he
    | cons e'' before =>
        cases h
        exact hlog before e' after rfl

instance decidableThroughout :
    (P : List ε → ε → Prop) → [∀ before e, Decidable (P before e)] → (log : List ε) →
      Decidable (Throughout P log)
  | _, _, [] => isTrue .nil
  | P, _, e :: log =>
      have := decidableThroughout (fun before => P (e :: before)) log
      decidable_of_iff (P [] e ∧ Throughout (fun before => P (e :: before)) log)
        throughout_cons.symm

theorem Throughout.imp (h : Throughout P log) (himp : ∀ before e, P before e → Q before e) :
    Throughout Q log :=
  fun before e after hlog => himp before e (h before e after hlog)

end Log

end Interleaving
