import Mathlib.Data.List.Basic
import Mathlib.Tactic

/-!
# Words and quotes

A text is split into words at separators, which lose their meaning between quotes.  The
quotes themselves do not belong to any word, and there are no empty words.

`split_word` and `split_quoted` say how a word is read that is written without and with
quotes, and `split_assignments` how a list of assignments is read, in which the value is
quoted: as the names and the values in turn, where a value that is empty is missing.
-/

namespace Quoting

variable {α : Type*}

/-- A word, unless it is empty.  Two separators in a row have no word between them. -/
def emit (word : List α) : List (List α) := if word = [] then [] else [word]

theorem emit_of_ne {word : List α} (h : word ≠ []) : emit word = [word] := if_neg h

variable [DecidableEq α]

/-- The words of a text, of which the first has begun, perhaps inside quotes.  A quote
changes what the separators after it mean, and is dropped itself; an end of the text inside
quotes ends the word. -/
def split (quote : α) (sep : α → Bool) : Bool → List α → List α → List (List α)
  | _, word, [] => emit word
  | inside, word, c :: s =>
      if c = quote then split quote sep (!inside) word s
      else if sep c then
        if inside then split quote sep inside (word ++ [c]) s
        else emit word ++ split quote sep inside [] s
      else split quote sep inside (word ++ [c]) s

variable {quote c : α} {sep : α → Bool} {w v s word : List α} {inside : Bool}

/-- A character that belongs to the word. -/
theorem split_cons (hquote : c ≠ quote) (hsep : inside = true ∨ sep c = false) :
    split quote sep inside word (c :: s) = split quote sep inside (word ++ [c]) s := by
  rw [split, if_neg hquote]
  rcases hsep with rfl | hsep
  · rw [if_pos rfl, ite_self]
  · rw [hsep, if_neg Bool.false_ne_true]

/-- Characters that belong to the word are collected, until something else comes. -/
theorem split_word (hw : ∀ c ∈ w, c ≠ quote ∧ (inside = true ∨ sep c = false)) :
    split quote sep inside word (w ++ s) = split quote sep inside (word ++ w) s := by
  induction w generalizing word with
  | nil => rw [List.nil_append, List.append_nil]
  | cons c w ih =>
      obtain ⟨hquote, hsep⟩ := hw c (.head w)
      rw [List.cons_append, split_cons hquote hsep, ih fun d hd => hw d (.tail c hd),
        List.append_assoc, List.singleton_append]

/-- Between quotes any other character belongs to the word. -/
theorem split_quoted (hv : quote ∉ v) :
    split quote sep false word (quote :: (v ++ quote :: s)) =
      split quote sep false (word ++ v) s := by
  have hinside : ∀ c ∈ v, c ≠ quote ∧ (true = true ∨ sep c = false) :=
    fun c hc => ⟨fun heq => hv (heq ▸ hc), Or.inl rfl⟩
  rw [split, if_pos rfl, Bool.not_false, split_word hinside, split, if_pos rfl, Bool.not_true]

/-- A separator ends the word. -/
theorem split_sep (hquote : c ≠ quote) (hsep : sep c = true) :
    split quote sep false word (c :: s) = emit word ++ split quote sep false [] s := by
  rw [split, if_neg hquote, if_pos hsep, if_neg Bool.false_ne_true]

/-- Separators end the word. -/
theorem split_seps (hw : ∀ c ∈ w, c ≠ quote ∧ sep c = true) (hword : w ≠ [] ∨ word = []) :
    split quote sep false word (w ++ s) = emit word ++ split quote sep false [] s := by
  induction w generalizing word with
  | nil =>
      obtain rfl := hword.resolve_left fun h => h rfl
      rfl
  | cons c w ih =>
      obtain ⟨hquote, hsep⟩ := hw c (.head w)
      have hrest : split quote sep false [] (w ++ s) = split quote sep false [] s :=
        ih (fun d hd => hw d (.tail c hd)) (Or.inr rfl)
      rw [List.cons_append, split_sep hquote hsep, hrest]

/-- A name and a value. -/
abbrev Assignment (α : Type*) := List α × List α

/-- An assignment as it is written: the name, a separator, and the value in quotes.  What is
between the quotes is not changed, so that the value must not have any. -/
def write (quote assign : α) (x : Assignment α) : List α :=
  x.1 ++ assign :: quote :: x.2 ++ [quote]

/-- The name of an assignment is a word, and its value is what is written between the
quotes. -/
theorem split_write {assign : α} {x : Assignment α} (hassign : assign ≠ quote ∧ sep assign = true)
    (hname : x.1 ≠ [] ∧ ∀ c ∈ x.1, c ≠ quote ∧ sep c = false) (hvalue : quote ∉ x.2) :
    split quote sep false [] (write quote assign x ++ s) =
      x.1 :: split quote sep false x.2 s := by
  have htext : write quote assign x ++ s =
      x.1 ++ assign :: quote :: (x.2 ++ quote :: s) := by
    rw [write]
    simp only [List.append_assoc, List.cons_append, List.nil_append]
  rw [htext, split_word fun c hc => ⟨(hname.2 c hc).1, Or.inr (hname.2 c hc).2⟩, List.nil_append,
    split_sep hassign.1 hassign.2, split_quoted hvalue, List.nil_append, emit_of_ne hname.1]
  rfl

/-- **Assignments are read** as their names and values in turn.  The values may contain
separators, and may look like names themselves; a value that is empty is missing, and the
names and values behind it no longer come in turn. -/
theorem split_assignments {assign : α} {between : List α} {xs : List (Assignment α)}
    (hassign : assign ≠ quote ∧ sep assign = true) (hbetween : between ≠ [])
    (hseps : ∀ c ∈ between, c ≠ quote ∧ sep c = true)
    (hnames : ∀ x ∈ xs, x.1 ≠ [] ∧ ∀ c ∈ x.1, c ≠ quote ∧ sep c = false)
    (hvalues : ∀ x ∈ xs, quote ∉ x.2) :
    split quote sep false [] (between.intercalate (xs.map (write quote assign))) =
      xs.flatMap fun x => x.1 :: emit x.2 := by
  induction xs with
  | nil => rfl
  | cons x xs ih =>
      have hrest := ih (fun y hy => hnames y (.tail x hy)) fun y hy => hvalues y (.tail x hy)
      have hx : ∀ s, split quote sep false [] (write quote assign x ++ s) =
          x.1 :: split quote sep false x.2 s := fun s =>
        split_write hassign (hnames x (.head xs)) (hvalues x (.head xs))
      cases xs with
      | nil =>
          rw [List.map_cons, List.map_nil, List.intercalate_singleton,
            ← List.append_nil (write quote assign x), hx, split, List.flatMap_singleton]
      | cons y xs =>
          rw [List.map_cons, List.map_cons, List.intercalate_cons_cons, ← List.map_cons,
            List.append_assoc, hx, split_seps hseps (Or.inl hbetween), hrest,
            List.flatMap_cons]
          rfl

end Quoting
