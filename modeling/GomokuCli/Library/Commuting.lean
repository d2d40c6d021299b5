import GomokuCli.Library.EarlyExit
import Mathlib.Data.List.Basic

/-!
# Steps whose order does not matter

A fold whose steps may fail.  Two steps commute if one after the other succeeds in the
other order, too, and leads to the same state.  If steps of different kinds commute, then a
list of steps may be rearranged as long as those of one kind keep their order: the fold
succeeds as before, with the same state (`foldlM_rearrange`).

Steps that concern different parts of a state commute (`Local.commute`).
-/

namespace Commuting

open EarlyExit

variable {α ε κ : Type*} {σ : Type}

/-- One step after the other can be exchanged with the other after the one.  Both orders
have to succeed, and to lead to the same state. -/
def Commute (step : σ → α → Except ε σ) (a b : α) : Prop :=
  ∀ s s₁ s₂, step s a = .ok s₁ → step s₁ b = .ok s₂ → ∃ s₃, step s b = .ok s₃ ∧ step s₃ a = .ok s₂

/-- The steps of each kind stand in the same order in both lists.  Steps of different kinds
may stand in any order to each other. -/
def Rearranged [DecidableEq κ] (kind : α → κ) (l l' : List α) : Prop :=
  ∀ k, l.filter (fun a => kind a = k) = l'.filter (fun a => kind a = k)

variable {step : σ → α → Except ε σ} {kind : α → κ} {l l' before after : List α} {a b : α}
  {s t : σ}

/-- A step that commutes with those before it can be taken first.  The proof goes over the
steps before it from the last to the first, and needs of each that the exchange succeeds. -/
theorem foldlM_move (hcomm : ∀ a ∈ before, Commute step a b)
    (h : (before ++ b :: after).foldlM step s = .ok t) :
    (b :: (before ++ after)).foldlM step s = .ok t := by
  induction before generalizing s with
  | nil => exact h
  | cons a before ih =>
      rw [List.cons_append, List.foldlM_cons] at h
      obtain ⟨s₁, ha, hrest⟩ := bind_eq_ok.mp h
      have hmoved := ih (fun c hc => hcomm c (.tail a hc)) hrest
      rw [List.foldlM_cons] at hmoved
      obtain ⟨s₂, hb, hrest⟩ := bind_eq_ok.mp hmoved
      obtain ⟨s₃, hb', ha'⟩ := hcomm a (.head before) s s₁ s₂ ha hb
      rw [List.foldlM_cons, List.cons_append]
      refine bind_eq_ok.mpr ⟨s₃, hb', ?_⟩
      rw [List.foldlM_cons]
      exact bind_eq_ok.mpr ⟨s₂, ha', hrest⟩

section Rearranged

variable [DecidableEq κ]

theorem filter_kind_cons (kind : α → κ) (a : α) (l : List α) :
    (a :: l).filter (fun c => kind c = kind a) = a :: l.filter (fun c => kind c = kind a) :=
  List.filter_cons_of_pos (decide_eq_true rfl)

theorem filter_kind_cons_of_ne {k : κ} (h : kind a ≠ k) (l : List α) :
    (a :: l).filter (fun c => kind c = k) = l.filter fun c => kind c = k :=
  List.filter_cons_of_neg fun hdec => h (of_decide_eq_true hdec)

theorem Rearranged.eq_nil (h : Rearranged kind l []) : l = [] := by
  cases l with
  | nil => rfl
  | cons a l =>
      have hkind := h (kind a)
      rw [filter_kind_cons] at hkind
      cases hkind

theorem Rearranged.mem (h : Rearranged kind l l') (ha : a ∈ l') : a ∈ l := by
  have hsame : a ∈ l'.filter (fun c => kind c = kind a) :=
    List.mem_filter.mpr ⟨ha, decide_eq_true rfl⟩
  rw [← h (kind a)] at hsame
  exact List.mem_of_mem_filter hsame

/-- The first step of its kind can be found in the other list, with only steps of other
kinds before it; and the lists without it are rearrangements again. -/
theorem Rearranged.exists_first (h : Rearranged kind l (b :: l')) :
    ∃ before after, l = before ++ b :: after ∧ (∀ a ∈ before, kind a ≠ kind b) ∧
      Rearranged kind (before ++ after) l' := by
  have hfirst := h (kind b)
  rw [filter_kind_cons, List.filter_eq_cons_iff] at hfirst
  obtain ⟨before, after, rfl, hbefore, -, hafter⟩ := hfirst
  have hne : ∀ a ∈ before, kind a ≠ kind b := fun a ha =>
    of_decide_eq_false (Bool.eq_false_iff.mpr (hbefore a ha))
  refine ⟨before, after, rfl, hne, fun k => ?_⟩
  rw [List.filter_append]
  by_cases hk : kind b = k
  · subst hk
    have hnone : before.filter (fun a => kind a = kind b) = [] :=
      List.filter_eq_nil_iff.mpr hbefore
    rw [hnone, List.nil_append, hafter]
  · have hall := h k
    rw [List.filter_append, filter_kind_cons_of_ne hk, filter_kind_cons_of_ne hk] at hall
    exact hall

/-- **The order of steps of different kinds does not matter.** The steps of the new order
are fetched one by one from the old list, each past steps of other kinds only. -/
theorem foldlM_rearrange (hcomm : ∀ a b, kind a ≠ kind b → Commute step a b)
    (hsame : Rearranged kind l l') (h : l.foldlM step s = .ok t) :
    l'.foldlM step s = .ok t := by
  induction l' generalizing l s with
  | nil =>
      rw [hsame.eq_nil] at h
      exact h
  | cons b l' ih =>
      obtain ⟨before, after, rfl, hne, hrest⟩ := hsame.exists_first
      have hmoved := foldlM_move (fun a ha => hcomm a b (hne a ha)) h
      rw [List.foldlM_cons] at hmoved ⊢
      obtain ⟨s₁, hb, hafter⟩ := bind_eq_ok.mp hmoved
      exact bind_eq_ok.mpr ⟨s₁, hb, ih hrest hafter⟩

end Rearranged

/-! ## Parts of a state -/

/-- A step has a part of the state to itself: `copy v s` is the state `s` with that part as
it is in `v`, and the step does to the part of `v` in `s` what it does to it in `v`.  In
particular whether it succeeds does not depend on the rest of the state. -/
structure Local (step : σ → α → Except ε σ) (a : α) (copy : σ → σ → σ) : Prop where
  same : ∀ s, copy s s = s
  acts : ∀ v s, step (copy v s) a = (step v a).map fun t => copy t s

/-- Two parts of the state that do not overlap: it is all the same which of them is replaced
first. -/
def Apart (copyA copyB : σ → σ → σ) : Prop :=
  ∀ u v s, copyA u (copyB v s) = copyB v (copyA u s)

variable {copyA copyB : σ → σ → σ}

/-- Steps on the same part, one after the other. -/
theorem foldlM_acts (h : ∀ a, Local step a copyA) (l : List α) (v s : σ) :
    l.foldlM step (copyA v s) = (l.foldlM step v).map fun t => copyA t s := by
  induction l generalizing v with
  | nil => rfl
  | cons a l ih =>
      rw [List.foldlM_cons, List.foldlM_cons, (h a).acts]
      cases step v a with
      | error e => rfl
      | ok t => exact ih t

/-- A step changes its part. -/
theorem Local.eq_copy (h : Local step a copyA) (hstep : step s a = .ok t) : t = copyA t s := by
  have hacts := h.acts s s
  rw [h.same, hstep] at hacts
  exact Except.ok.inj hacts

/-- What is put elsewhere stays there. -/
theorem Local.frame (h : Local step a copyA) (hapart : Apart copyA copyB)
    (hstep : step s a = .ok t) (v : σ) : step (copyB v s) a = .ok (copyB v t) := by
  calc step (copyB v s) a = step (copyB v (copyA s s)) a := by rw [h.same]
    _ = step (copyA s (copyB v s)) a := by rw [hapart]
    _ = .ok (copyA t (copyB v s)) := by rw [h.acts, hstep]; rfl
    _ = .ok (copyB v t) := by rw [hapart, ← h.eq_copy hstep]

/-- What was put elsewhere is not needed. -/
theorem Local.unframe (h : Local step a copyA) (hapart : Apart copyA copyB) {v : σ}
    (hstep : step (copyB v s) a = .ok t) : ∃ s', step s a = .ok s' ∧ t = copyB v s' := by
  have hacts := h.acts s (copyB v s)
  rw [hapart, h.same, hstep] at hacts
  cases hs : step s a with
  | error e =>
      rw [hs] at hacts
      cases hacts
  | ok s' =>
      rw [hs] at hacts
      refine ⟨s', rfl, ?_⟩
      calc t = copyA s' (copyB v s) := Except.ok.inj hacts
        _ = copyB v s' := by rw [hapart, ← h.eq_copy hs]

/-- **Steps on different parts commute.** What one of them does is neither needed nor
changed by the other (`Local.frame`, `Local.unframe`). -/
theorem Local.commute (ha : Local step a copyA) (hb : Local step b copyB)
    (hapart : Apart copyA copyB) : Commute step a b := by
  intro s s₁ s₂ hfirst hsecond
  have hapart' : Apart copyB copyA := fun u v s => (hapart v u s).symm
  rw [ha.eq_copy hfirst] at hsecond
  obtain ⟨s₃, hs₃, rfl⟩ := hb.unframe hapart' hsecond
  refine ⟨s₃, hs₃, ?_⟩
  have hframe := ha.frame hapart hfirst s₃
  rw [← hb.eq_copy hs₃] at hframe
  calc step s₃ a = .ok (copyB s₃ s₁) := hframe
    _ = .ok (copyB s₃ (copyA s₁ s)) := by rw [← ha.eq_copy hfirst]
    _ = .ok (copyA s₁ (copyB s₃ s)) := by rw [hapart]
    _ = .ok (copyA s₁ s₃) := by rw [← hb.eq_copy hs₃]

end Commuting
