import GomokuCli.CommandLine
import GomokuCli.Library.WindowsArguments

/-!
# Quoting the arguments of an engine

On Windows `Engine::spawn` joins the arguments to one command line, which the
engine's runtime splits again.  `argvQuote` writes an argument for that: as it
stands when nothing in it needs care, otherwise between quotes, with the
backslashes doubled where a quote follows.
-/

namespace GomokuCli

open WindowsArguments

/-- The loop of `argvQuote` on the rest of the argument, with `numBackslashes`
backslashes just passed, up to the closing quote. -/
def argvQuoteLoop (numBackslashes : ℕ) : List Char → List Char
  | [] => backslashes (numBackslashes * 2)
  | c :: arg =>
      if c = '\\' then
        argvQuoteLoop (numBackslashes + 1) arg
      else if c = '"' then
        backslashes (numBackslashes * 2 + 1) ++ c :: argvQuoteLoop 0 arg
      else
        backslashes numBackslashes ++ c :: argvQuoteLoop 0 arg

/-- The characters that `find_first_of` looks for. -/
def quotedFor : List Char := [' ', '\t', '\n', '\x0b', '"']

/-- `argvQuote`.  An empty argument is written as two quotes, because it would vanish
otherwise. -/
def argvQuote (arg : List Char) : List Char :=
  if arg ≠ [] ∧ (arg.find? quotedFor.contains).isNone then
    arg
  else
    '"' :: argvQuoteLoop 0 arg ++ ['"']

/-- What `Engine::spawn` appends to the quoted program. -/
def argvTail (argv : List CString) : List Char := argv.flatMap fun arg => ' ' :: argvQuote arg.chars

/-- Between quotes, the loop writes what reads back as the argument.  By induction on the
argument, with the backslashes that have been passed and not yet been written. -/
theorem parse_argvQuoteLoop (n : ℕ) (read arg s : List Char) :
    parse (.inside true 0 read) (argvQuoteLoop n arg ++ '"' :: s) =
      parse (.inside false 0 (read ++ backslashes n ++ arg)) s := by
  induction arg generalizing n read with
  | nil => rw [argvQuoteLoop, Nat.mul_comm, parse_inside_even, List.append_nil, Bool.not_true]
  | cons c arg ih =>
      rw [argvQuoteLoop]
      by_cases hbackslash : c = '\\'
      · rw [if_pos hbackslash, ih, backslashes_succ, hbackslash]
        simp
      · rw [if_neg hbackslash]
        by_cases hquote : c = '"'
        · rw [if_pos hquote, hquote, Nat.mul_comm, List.append_assoc, List.cons_append,
            parse_inside_odd, ih]
          simp
        · rw [if_neg hquote, List.append_assoc, List.cons_append, parse_inside_backslashes,
            parse_inside_other hbackslash hquote (Or.inl rfl), ih]
          simp

/-- One quoted argument reads back, with further arguments behind it. -/
theorem parse_argvQuote (arg : List Char) {s : List Char} (hs : EndsArg s) :
    parse .between (argvQuote arg ++ s) = arg :: parse .between s := by
  unfold argvQuote
  split
  · next h =>
      refine parse_between_plain h.1 (fun c hc => ?_) hs
      have hnot := List.find?_eq_none.mp (Option.isNone_iff_eq_none.mp h.2) c hc
      simp only [quotedFor, List.contains_iff_mem, List.mem_cons, not_or] at hnot
      exact ⟨fun hblank => hblank.elim hnot.1 hnot.2.1, hnot.2.2.2.2.1⟩
  · have htext : '"' :: argvQuoteLoop 0 arg ++ ['"'] ++ s =
        '"' :: (argvQuoteLoop 0 arg ++ '"' :: s) := by simp
    rw [htext, parse_between_quote, parse_argvQuoteLoop, parse_inside_end hs]
    simp

/-- **Round trip.** The arguments that `Engine::spawn` writes are the ones that the engine
reads, whatever characters are in them.  In front of a quote the backslashes are written
twice, and elsewhere as they are, just as they are counted when they are read. -/
theorem parse_argvTail (argv : List CString) :
    parse .between (argvTail argv) = argv.map CString.chars := by
  induction argv with
  | nil => rfl
  | cons arg argv ih =>
      have hend : EndsArg (argvTail argv) := by
        cases argv with
        | nil => exact endsArg_nil
        | cons arg' argv => exact endsArg_blank
      have htail : argvTail (arg :: argv) = ' ' :: (argvQuote arg.chars ++ argvTail argv) := rfl
      rw [htail, parse_between_blank, parse_argvQuote arg.chars hend, ih, List.map_cons]

example : argvTail [⟨['a', ' ', '\\'], by decide⟩, ⟨[], by decide⟩] =
    [' ', '"', 'a', ' ', '\\', '\\', '"', ' ', '"', '"'] :=
  rfl

end GomokuCli
