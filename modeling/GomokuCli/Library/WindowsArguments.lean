import Mathlib.Tactic

/-!
# Arguments of a Windows command line

The rules by which the C runtime on Windows splits the part of a command line
behind the program into arguments.  Unquoted blanks separate arguments.  In front
of a quote, two backslashes stand for one, and the quote opens or closes a quoted
part unless a single backslash is left over, which makes it an ordinary
character.  Everywhere else a backslash is an ordinary character.

The reader goes character by character and remembers the backslashes that it has
just passed, because what they stand for depends on the character behind them.
-/

namespace WindowsArguments

/-- Where the reader is: between two arguments, or inside one, of which it has `arg` and
then as many backslashes as `pending`.  The backslashes are not part of the argument yet,
because it depends on what comes next how many of them are meant. -/
inductive Mode
  | between
  | inside (quoted : Bool) (pending : ℕ) (arg : List Char)

/-- A blank separates arguments. -/
def IsBlank (c : Char) : Prop := c = ' ' ∨ c = '\t'

instance : DecidablePred IsBlank := fun c => inferInstanceAs (Decidable (c = ' ' ∨ c = '\t'))

/-- Backslashes that stand for themselves. -/
def backslashes (n : ℕ) : List Char := List.replicate n '\\'

/-- The arguments that are read from a mode on.  At the end of the text pending backslashes
stand for themselves, and an open quote is closed. -/
def parse : Mode → List Char → List (List Char)
  | .between, [] => []
  | .inside _ pending arg, [] => [arg ++ backslashes pending]
  | .between, c :: s =>
      if IsBlank c then parse .between s
      else if c = '"' then parse (.inside true 0 []) s
      else if c = '\\' then parse (.inside false 1 []) s
      else parse (.inside false 0 [c]) s
  | .inside quoted pending arg, c :: s =>
      if c = '\\' then parse (.inside quoted (pending + 1) arg) s
      else if c = '"' then
        if pending % 2 = 0 then parse (.inside (!quoted) 0 (arg ++ backslashes (pending / 2))) s
        else parse (.inside quoted 0 (arg ++ backslashes (pending / 2) ++ ['"'])) s
      else if quoted = false ∧ IsBlank c then
        (arg ++ backslashes pending) :: parse .between s
      else parse (.inside quoted 0 (arg ++ backslashes pending ++ [c])) s

variable {quoted : Bool} {pending n : ℕ} {arg s t : List Char} {c : Char}

/-! ## One character -/

@[simp] theorem backslashes_zero : backslashes 0 = [] := rfl

theorem backslashes_succ : backslashes (n + 1) = backslashes n ++ ['\\'] :=
  List.replicate_succ'

@[simp] theorem parse_between_nil : parse .between [] = [] := rfl

theorem parse_between_cons :
    parse .between (c :: s) =
      if IsBlank c then parse .between s
      else if c = '"' then parse (.inside true 0 []) s
      else if c = '\\' then parse (.inside false 1 []) s
      else parse (.inside false 0 [c]) s :=
  rfl

theorem parse_inside_cons :
    parse (.inside quoted pending arg) (c :: s) =
      if c = '\\' then parse (.inside quoted (pending + 1) arg) s
      else if c = '"' then
        if pending % 2 = 0 then parse (.inside (!quoted) 0 (arg ++ backslashes (pending / 2))) s
        else parse (.inside quoted 0 (arg ++ backslashes (pending / 2) ++ ['"'])) s
      else if quoted = false ∧ IsBlank c then
        (arg ++ backslashes pending) :: parse .between s
      else parse (.inside quoted 0 (arg ++ backslashes pending ++ [c])) s :=
  rfl

@[simp] theorem parse_between_blank : parse .between (' ' :: s) = parse .between s := by
  simp [parse_between_cons, IsBlank]

@[simp] theorem parse_between_quote :
    parse .between ('"' :: s) = parse (.inside true 0 []) s := by
  simp [parse_between_cons, IsBlank]

@[simp] theorem parse_inside_backslash :
    parse (.inside quoted pending arg) ('\\' :: s) =
      parse (.inside quoted (pending + 1) arg) s := by
  simp [parse_inside_cons]

/-- A run of backslashes. -/
theorem parse_inside_backslashes :
    parse (.inside quoted pending arg) (backslashes n ++ s) =
      parse (.inside quoted (pending + n) arg) s := by
  induction n generalizing pending with
  | zero => rfl
  | succ n ih =>
      rw [backslashes, List.replicate_succ, List.cons_append, parse_inside_backslash]
      rw [backslashes] at ih
      rw [ih]
      congr 2
      omega

/-- An even run of backslashes leaves the quote its meaning, and each two of them stand for
one. -/
theorem parse_inside_even :
    parse (.inside quoted 0 arg) (backslashes (2 * n) ++ '"' :: s) =
      parse (.inside (!quoted) 0 (arg ++ backslashes n)) s := by
  rw [parse_inside_backslashes]
  simp [parse_inside_cons]

/-- An odd one takes it away: the quote becomes a character of the argument, behind half of
the others. -/
theorem parse_inside_odd :
    parse (.inside quoted 0 arg) (backslashes (2 * n + 1) ++ '"' :: s) =
      parse (.inside quoted 0 (arg ++ backslashes n ++ ['"'])) s := by
  have hhalf : (2 * n + 1) / 2 = n := by omega
  rw [parse_inside_backslashes]
  simp [parse_inside_cons, hhalf]

/-- Backslashes in front of any other character stand for themselves. -/
theorem parse_inside_other (hbackslash : c ≠ '\\') (hquote : c ≠ '"')
    (hc : quoted = true ∨ ¬ IsBlank c) :
    parse (.inside quoted pending arg) (c :: s) =
      parse (.inside quoted 0 (arg ++ backslashes pending ++ [c])) s := by
  have hnot : ¬ (quoted = false ∧ IsBlank c) := by
    rintro ⟨hquoted, hblank⟩
    rcases hc with h | h
    · rw [hquoted] at h
      cases h
    · exact h hblank
  simp [parse_inside_cons, hbackslash, hquote, hnot]

/-! ## One argument -/

/-- The text behind an argument: nothing, or a blank and further arguments.  Then the
argument is over, unless a quote is open. -/
def EndsArg (t : List Char) : Prop := ∀ c, t.head? = some c → c = ' '

theorem endsArg_nil : EndsArg [] := by
  intro c hc
  cases hc

theorem endsArg_blank : EndsArg (' ' :: s) := by
  intro c hc
  cases hc
  rfl

/-- An argument outside quotes comes to its end. -/
theorem parse_inside_end (ht : EndsArg t) :
    parse (.inside false pending arg) t = (arg ++ backslashes pending) :: parse .between t := by
  cases t with
  | nil => rfl
  | cons c t =>
      obtain rfl := ht c rfl
      simp [parse_inside_cons, IsBlank]

/-- Text without blanks and quotes belongs to the argument as it stands. -/
theorem parse_inside_plain (hs : ∀ c ∈ s, ¬ IsBlank c ∧ c ≠ '"') (ht : EndsArg t) :
    parse (.inside false pending arg) (s ++ t) =
      (arg ++ backslashes pending ++ s) :: parse .between t := by
  induction s generalizing pending arg with
  | nil => rw [List.nil_append, parse_inside_end ht, List.append_nil]
  | cons c s ih =>
      obtain ⟨⟨hblank, hquote⟩, hs⟩ := List.forall_mem_cons.1 hs
      rw [List.cons_append]
      by_cases hc : c = '\\'
      · rw [hc, parse_inside_backslash, ih hs, backslashes_succ]
        simp
      · rw [parse_inside_other hc hquote (Or.inr hblank), ih hs]
        simp

/-- An argument that needs no quotes. -/
theorem parse_between_plain (hne : s ≠ []) (hs : ∀ c ∈ s, ¬ IsBlank c ∧ c ≠ '"')
    (ht : EndsArg t) : parse .between (s ++ t) = s :: parse .between t := by
  cases s with
  | nil => exact absurd rfl hne
  | cons c s =>
      obtain ⟨⟨hblank, hquote⟩, hs⟩ := List.forall_mem_cons.1 hs
      rw [List.cons_append]
      by_cases hc : c = '\\'
      · have hread : parse .between (c :: (s ++ t)) = parse (.inside false 1 []) (s ++ t) := by
          simp [parse_between_cons, hc, IsBlank]
        rw [hread, parse_inside_plain hs ht, hc]
        rfl
      · have hread : parse .between (c :: (s ++ t)) = parse (.inside false 0 [c]) (s ++ t) := by
          simp [parse_between_cons, hblank, hquote, hc]
        rw [hread, parse_inside_plain hs ht]
        rfl

end WindowsArguments
