import Mathlib.Data.List.TakeWhile
import Mathlib.Tactic

/-!
# Texts with escapes

A text in which one character, the escape, takes away the special meaning of the
character behind it.  Reading goes symbol by symbol: a plain character, or an
escape together with the character it protects.

`readUntil` reads the value in front of the first unprotected `stop`, and
`escape` writes a value so that it reads back (`readUntil_escape`).  A text is
`dangling` when it ends in an escape that protects nothing.
-/

namespace Escapes

variable {α : Type*} [DecidableEq α]

/-! ## Escapes that protect nothing -/

/-- Read symbol by symbol, the text ends in an escape without a character.  A reader that
fetches the character behind an escape without looking goes beyond the end of exactly these
texts. -/
def dangling (esc : α) : List α → Bool
  | [] => false
  | [c] => c = esc
  | c :: d :: s => if c = esc then dangling esc s else dangling esc (d :: s)

variable {esc stop c d : α} {s r v : List α}

@[simp] theorem dangling_nil : dangling esc [] = false := rfl

@[simp] theorem dangling_escape : dangling esc [esc] = true := by
  simp [dangling]

@[simp] theorem dangling_escape_cons : dangling esc (esc :: d :: s) = dangling esc s := by
  simp [dangling]

theorem dangling_cons (hc : c ≠ esc) : dangling esc (c :: s) = dangling esc s := by
  cases s with
  | nil => simp [dangling, hc]
  | cons d s => simp [dangling, hc]

/-- Induction over the symbols of a text: a plain character, or an escape with the character
that it protects.  The lone escape at the end is a case of its own. -/
@[elab_as_elim]
theorem symbols_induction {P : List α → Prop} (esc : α) (nil : P []) (lone : P [esc])
    (escaped : ∀ d s, P s → P (esc :: d :: s))
    (plain : ∀ c s, c ≠ esc → P s → P (c :: s)) : ∀ s, P s
  | [] => nil
  | [c] =>
      if hc : c = esc then hc ▸ lone
      else plain c [] hc nil
  | c :: d :: s =>
      if hc : c = esc then hc ▸ escaped d s (symbols_induction esc nil lone escaped plain s)
      else plain c (d :: s) hc (symbols_induction esc nil lone escaped plain (d :: s))

/-- How many escapes there are at the end of a text. -/
def trailing (esc : α) (s : List α) : ℕ := (s.reverse.takeWhile (· = esc)).length

theorem trailing_of_all (h : s.all (· = esc) = true) : trailing esc s = s.length := by
  have htake : s.reverse.takeWhile (· = esc) = s.reverse := by
    apply List.takeWhile_eq_self_iff.2
    rwa [← List.all_eq_true, List.all_reverse]
  rw [trailing, htake, List.length_reverse]

theorem trailing_cons (c : α) (s : List α) :
    trailing esc (c :: s) =
      if s.all (· = esc) then s.length + (if c = esc then 1 else 0) else trailing esc s := by
  unfold trailing
  rw [List.reverse_cons, List.takeWhile_append]
  by_cases hs : s.all (· = esc) = true
  · have htake : (s.reverse.takeWhile (· = esc)).length = s.reverse.length := by
      rw [List.length_reverse]
      exact trailing_of_all hs
    rw [if_pos htake, if_pos hs, List.length_append, List.length_reverse]
    by_cases hc : c = esc <;> simp [hc]
  · have htake : (s.reverse.takeWhile (· = esc)).length ≠ s.reverse.length := by
      intro h
      have heq := (List.takeWhile_prefix (· = esc)).eq_of_length h
      rw [List.takeWhile_eq_self_iff, ← List.all_eq_true, List.all_reverse] at heq
      exact hs heq
    rw [if_neg htake, if_neg hs]

/-- **Lone escapes.** The last escape is alone exactly when the text ends in an odd number
of escapes, since from the left they are taken two by two. -/
theorem dangling_iff_odd : dangling esc s = true ↔ Odd (trailing esc s) := by
  induction s using symbols_induction esc with
  | nil => simp [trailing]
  | lone => simp [trailing]
  | escaped d s ih =>
      rw [dangling_escape_cons, ih, trailing_cons, trailing_cons]
      by_cases hs : s.all (· = esc) = true
      · by_cases hd : d = esc
        · simp [hs, hd, trailing_of_all hs, Nat.odd_add_one]
        · simp [hs, hd, trailing_of_all hs]
      · simp [hs]
  | plain c s hc ih =>
      rw [dangling_cons hc, ih, trailing_cons]
      by_cases hs : s.all (· = esc) = true
      · simp [hs, hc, trailing_of_all hs]
      · simp [hs]

/-! ## Reading a value -/

/-- The value in front of the first unprotected `stop`, and the text behind it.  There is
none if every `stop` is protected, or if the text ends before. -/
def readUntil (esc stop : α) : List α → Option (List α × List α)
  | [] => none
  | [c] => if c ≠ esc ∧ c = stop then some ([], []) else none
  | c :: d :: s =>
      if c = esc then
        (readUntil esc stop s).map fun (v, r) => (d :: v, r)
      else if c = stop then
        some ([], d :: s)
      else
        (readUntil esc stop (d :: s)).map fun (v, r) => (c :: v, r)

@[simp] theorem readUntil_escape_cons :
    readUntil esc stop (esc :: d :: s) =
      (readUntil esc stop s).map fun (v, r) => (d :: v, r) := by
  simp [readUntil]

theorem readUntil_stop (hstop : stop ≠ esc) :
    readUntil esc stop (stop :: s) = some ([], s) := by
  cases s with
  | nil => simp [readUntil, hstop]
  | cons d s => simp [readUntil, hstop]

theorem readUntil_cons (hc : c ≠ esc) (hstop : c ≠ stop) :
    readUntil esc stop (c :: s) =
      (readUntil esc stop s).map fun (v, r) => (c :: v, r) := by
  cases s with
  | nil => simp [readUntil, hstop]
  | cons d s => simp [readUntil, hc, hstop]

/-- A value without special characters is read as it stands. -/
theorem readUntil_plain (hstop : stop ≠ esc) (hesc : esc ∉ v) (hv : stop ∉ v) :
    readUntil esc stop (v ++ stop :: r) = some (v, r) := by
  induction v with
  | nil => exact readUntil_stop hstop
  | cons c v ih =>
      simp only [List.mem_cons, not_or] at hesc hv
      rw [List.cons_append, readUntil_cons (Ne.symm hesc.1) (Ne.symm hv.1), ih hesc.2 hv.2]
      rfl

/-! ## Writing a value -/

/-- An escape in front of every character that `special` names.  To be read back, the escape
itself and the end of the value have to be among these. -/
def escape (esc : α) (special : α → Bool) (v : List α) : List α :=
  v.flatMap fun c => if special c then [esc, c] else [c]

variable {special : α → Bool}

omit [DecidableEq α] in
@[simp] theorem escape_nil : escape esc special [] = [] := rfl

omit [DecidableEq α] in
theorem escape_cons :
    escape esc special (c :: v) =
      (if special c then [esc, c] else [c]) ++ escape esc special v := rfl

/-- **Round trip.** An escaped value reads back, whatever it contains, and what stands
behind it is left as it was. -/
theorem readUntil_escape (hstop : stop ≠ esc) (hesc : special esc = true)
    (hspecial : special stop = true) :
    readUntil esc stop (escape esc special v ++ stop :: r) = some (v, r) := by
  induction v with
  | nil => exact readUntil_stop hstop
  | cons c v ih =>
      rw [escape_cons]
      by_cases hc : special c = true
      · simp [hc, ih]
      · have hce : c ≠ esc := fun h => hc (h ▸ hesc)
        have hcs : c ≠ stop := fun h => hc (h ▸ hspecial)
        simp [hc, readUntil_cons hce hcs, ih]

end Escapes
