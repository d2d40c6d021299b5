import GomokuCli.CommandLine

/-!
# Starting an engine from its command

`engine_parse_cmd` splits the command of an engine into a directory, the program
to run in it and the arguments.  An argument that starts with a quote ends at the
next quote, any other at the next blank, and in both kinds a backslash protects
the character behind it.

The command is read safely exactly when it has a first token and does not end in
a backslash that protects nothing (`engineParseCmd_safe_iff`).  A command that is
written with every argument in quotes is read back (`engineParseCmd_commandLine`).
-/

namespace GomokuCli

open Escapes

/-- What `engine_parse_cmd` fills in. -/
structure ParsedCmd where
  cwd : List Char
  run : List Char
  args : List (List Char)
  deriving DecidableEq, Repr

/-- The lambda `readToken`: the token, and where the next one starts.  The blank behind a
closing quote is skipped, so that it does not start a token of its own. -/
def readToken (token : List Char) :
    Option (List Char) → Except Fault (List Char × Option (List Char))
  | none => .error .nullPointer
  | some src => do
      let c ← deref src
      if c = '"' then
        let (token, next) ← stringTokEsc token (some src) '"' '\\'
        match next with
        | none => .ok (token, none)
        | some next =>
            let c ← deref next
            .ok (token, some (if c = ' ' then next.drop 1 else next))
      else
        stringTokEsc token (some src) ' ' '\\'

/-- `strrchr`: the index of the last `c`. -/
def strrchr (s : List Char) (c : Char) : Option ℕ :=
  if c ∈ s then some (s.length - 1 - s.reverse.idxOf c) else none

/-- The first token as a directory and a program in it.  The program is called from that
directory, whence the `./`. -/
def splitToken (token : List Char) : List Char × List Char :=
  match strrchr token '/' with
  | none => ("./".toList, token)
  | some lastSlash => (token.take lastSlash, "./".toList ++ token.drop (lastSlash + 1))

/-- The variables of the loop over the arguments. -/
structure ArgsState where
  args : List (List Char)
  token : List Char
  tail : Option (List Char)

/-- `while ((tail = readToken(tail))) args.push_back(token);` -/
def ArgsState.round (s : ArgsState) : Except (Except Fault (List (List Char))) ArgsState :=
  match readToken s.token s.tail with
  | .error fault => .error (.error fault)
  | .ok (_, none) => .error (.ok s.args)
  | .ok (token, some tail) => .ok ⟨s.args ++ [token], token, some tail⟩

/-- `engine_parse_cmd`.  Every round of the loop reads at least one character, so
there are fewer rounds than characters. -/
def engineParseCmd (cmd : CString) : Option (Except Fault ParsedCmd) :=
  match readToken [] (some cmd.buffer) with
  | .error fault => some (.error fault)
  | .ok (token, tail) =>
      let (cwd, run) := splitToken token
      (EarlyExit.run ArgsState.round cmd.buffer.length ⟨[run], token, tail⟩).map fun left =>
        left.map fun args => ⟨cwd, run, args⟩

/-! ## What one token takes -/

/-- The delimiter of the token that starts at `s`. -/
def delimAt (s : List Char) : Char := if s.head? = some '"' then '"' else ' '

theorem delimAt_ne (s : List Char) : delimAt s ≠ '\\' := by
  unfold delimAt
  split <;> decide

/-- The call of `string_tok_esc` behind a token. -/
theorem readToken_eq (token s : List Char) :
    readToken token (some (s ++ [nul])) =
      (do
        let (token, next) ← stringTokEsc token (some (s ++ [nul])) (delimAt s) '\\'
        if delimAt s = '"' then
          match next with
          | none => .ok (token, none)
          | some next =>
              let c ← deref next
              .ok (token, some (if c = ' ' then next.drop 1 else next))
        else
          .ok (token, next)) := by
  by_cases hquote : s.head? = some '"'
  · obtain ⟨s, rfl⟩ : ∃ s', s = '"' :: s' := List.head?_eq_some_iff.1 hquote
    simp only [readToken, delimAt, List.cons_append, deref, List.head?_cons, if_true, bind,
      Except.bind]
  · have hdelim : delimAt s = ' ' := if_neg hquote
    obtain ⟨c, s', hs, hc⟩ : ∃ c s', s ++ [nul] = c :: s' ∧ c ≠ '"' := by
      cases s with
      | nil => exact ⟨nul, [], rfl, by decide⟩
      | cons c s => exact ⟨c, s ++ [nul], rfl, fun h => hquote (by simp [h])⟩
    rw [hdelim, hs]
    simp only [readToken, deref, if_neg hc, bind, Except.bind, if_false,
      (by decide : (' ' : Char) ≠ '"')]
    cases stringTokEsc token (some (c :: s')) ' ' '\\' <;> rfl

/-- A token, from a pointer into the command.  Either there is one, and the rest is shorter
and has the same escapes at its end, or there is none, or the call reads behind the command. -/
theorem readToken_leaves (token s : List Char) (hs : nul ∉ s) :
    (∃ token' r, readToken token (some (s ++ [nul])) = .ok (token', some (r ++ [nul])) ∧
        (∃ c ∈ s, c ≠ delimAt s) ∧
        r <:+ s ∧ r.length < s.length ∧ dangling '\\' r = dangling '\\' s) ∨
      (dangling '\\' s = false ∧ (∀ c ∈ s, c = delimAt s) ∧
        readToken token (some (s ++ [nul])) = .ok ([], none)) ∨
      dangling '\\' s = true ∧ readToken token (some (s ++ [nul])) = .error .outOfBounds := by
  have hnone := stringTokEsc_none_iff (delimAt_ne s) token s hs
  rw [readToken_eq]
  rcases stringTokEsc_leaves (delimAt s) '\\' token s hs with
    ⟨token', r, hcall, -, hr, hless, hd⟩ | ⟨hd, hcall⟩ | ⟨hd, hcall⟩
  · have hfound : ∃ c ∈ s, c ≠ delimAt s := by
      by_contra hnot
      push Not at hnot
      have hempty := hnone.2 hnot
      rw [hcall] at hempty
      cases hempty
    refine Or.inl ?_
    simp only [hcall, bind, Except.bind]
    by_cases hquote : delimAt s = '"'
    · simp only [if_pos hquote]
      -- the blank behind the closing quote is skipped, if there is one
      cases r with
      | nil => exact ⟨token', [], rfl, hfound, hr, hless, hd⟩
      | cons c r =>
          by_cases hc : c = ' '
          · subst hc
            refine ⟨token', r, rfl, hfound, (List.suffix_cons _ r).trans hr, ?_, ?_⟩
            · rw [List.length_cons] at hless
              omega
            · rw [← hd, dangling_cons (by decide)]
          · refine ⟨token', c :: r, ?_, hfound, hr, hless, hd⟩
            simp [deref, hc]
    · exact ⟨token', r, by rw [if_neg hquote], hfound, hr, hless, hd⟩
  · refine Or.inr (Or.inl ⟨hd, hnone.1 hcall, ?_⟩)
    simp only [hcall, bind, Except.bind]
    split <;> rfl
  · refine Or.inr (Or.inr ⟨hd, ?_⟩)
    simp only [hcall, bind, Except.bind]

/-! ## Reading a command safely -/

namespace ArgsState

/-- **The invariant of the loop**: it is at a pointer into the command, and whether the rest
of the command ends in a lone escape is `lone`.  The last part does not change from one
token to the next, so it is known from the start how the loop will end. -/
def At (cmd : CString) (lone : Bool) (s : ArgsState) (r : List Char) : Prop :=
  s.tail = some (r ++ [nul]) ∧ r <:+ cmd.chars ∧ dangling '\\' r = lone

variable {cmd : CString} {lone : Bool} {s : ArgsState} {r : List Char}

/-- One round reads a token, or there is none, or it reads behind the command.  Which of the
last two can happen is decided by `lone`. -/
theorem At.round (h : At cmd lone s r) :
    (∃ s' r', s.round = .ok s' ∧ At cmd lone s' r' ∧ r'.length < r.length) ∨
      (lone = false ∧ s.round = .error (.ok s.args)) ∨
      lone = true ∧ s.round = .error (.error .outOfBounds) := by
  obtain ⟨htail, hr, rfl⟩ := h
  rcases readToken_leaves s.token r (CString.not_mem_suffix hr) with
    ⟨token, r', hread, -, hr', hless, hd⟩ | ⟨hd, -, hread⟩ | ⟨hd, hread⟩
  · exact Or.inl ⟨_, r', by rw [ArgsState.round, htail, hread], ⟨rfl, hr'.trans hr, hd⟩, hless⟩
  · exact Or.inr (Or.inl ⟨hd, by rw [ArgsState.round, htail, hread]⟩)
  · exact Or.inr (Or.inr ⟨hd, by rw [ArgsState.round, htail, hread]⟩)

/-- A command that ends in a symbol has its arguments collected.  Every round shortens the
rest, and so the loop comes to an end. -/
theorem At.run_ok (h : At cmd false s r) {n : ℕ} (hn : r.length < n) :
    ∃ args, EarlyExit.run ArgsState.round n s = some (.ok args) := by
  induction n generalizing s r with
  | zero => omega
  | succ n ih =>
      rw [EarlyExit.run]
      rcases h.round with ⟨s', r', hround, hat, hless⟩ | ⟨-, hround⟩ | ⟨hlone, -⟩
      · rw [hround]
        exact ih hat (by omega)
      · rw [hround]
        exact ⟨_, rfl⟩
      · cases hlone

/-- One with a lone escape at its end never does.  The escape protects the terminator, and
the loop reads on behind it. -/
theorem At.run_ne_ok (h : At cmd true s r) (n : ℕ) (args : List (List Char)) :
    EarlyExit.run ArgsState.round n s ≠ some (.ok args) := by
  induction n generalizing s r with
  | zero => simp [EarlyExit.run]
  | succ n ih =>
      rw [EarlyExit.run]
      rcases h.round with ⟨s', r', hround, hat, -⟩ | ⟨hlone, -⟩ | ⟨-, hround⟩
      · rw [hround]
        exact ih hat
      · cases hlone
      · rw [hround]
        simp

/-- A null tail is read through. -/
theorem run_null (h : s.tail = none) (n : ℕ) :
    EarlyExit.run ArgsState.round (n + 1) s = some (.error .nullPointer) := by
  rw [EarlyExit.run, ArgsState.round, h]
  rfl

end ArgsState

/-- The first token of a command that is made of more than delimiters. -/
theorem exists_ne_delimAt_iff (s : List Char) :
    (∃ c ∈ s, c ≠ delimAt s) ↔ ¬ (∀ c ∈ s, c = ' ') ∧ ¬ ∀ c ∈ s, c = '"' := by
  by_cases hquote : s.head? = some '"'
  · obtain ⟨s, rfl⟩ : ∃ s', s = '"' :: s' := List.head?_eq_some_iff.1 hquote
    simp [delimAt]
  · have hdelim : delimAt s = ' ' := if_neg hquote
    have hnot : (∀ c ∈ s, c = '"') → ∀ c ∈ s, c = ' ' := by
      intro hall
      cases s with
      | nil => simp
      | cons c s => exact absurd (congrArg some (hall c List.mem_cons_self)) hquote
    rw [hdelim]
    push Not
    constructor
    · rintro ⟨c, hc, hne⟩
      refine ⟨⟨c, hc, hne⟩, ?_⟩
      by_contra hall
      push Not at hall
      exact hne (hnot hall c hc)
    · exact fun h => h.1

/-- The command is split into arguments exactly when it does not end in a lone backslash and
has a first token.  Without a first token the tail is null, and the loop reads through it. -/
theorem engineParseCmd_ok_iff (cmd : CString) :
    (∃ parsed, engineParseCmd cmd = some (.ok parsed)) ↔
      dangling '\\' cmd.chars = false ∧ ∃ c ∈ cmd.chars, c ≠ delimAt cmd.chars := by
  rcases readToken_leaves [] cmd.chars cmd.noNul with
    ⟨token, r, hread, hfound, hr, hless, hd⟩ | ⟨-, hall, hread⟩ | ⟨hd, hread⟩
  · have hat : ArgsState.At cmd (dangling '\\' cmd.chars)
        ⟨[(splitToken token).2], token, some (r ++ [nul])⟩ r := ⟨rfl, hr, hd⟩
    have heq : engineParseCmd cmd =
        (EarlyExit.run ArgsState.round cmd.buffer.length
          ⟨[(splitToken token).2], token, some (r ++ [nul])⟩).map fun left =>
            left.map fun args => ⟨(splitToken token).1, (splitToken token).2, args⟩ := by
      rw [engineParseCmd, CString.buffer, hread]
    cases hlone : dangling '\\' cmd.chars with
    | false =>
        rw [hlone] at hat
        obtain ⟨args, hrun⟩ := hat.run_ok (n := cmd.buffer.length) (by
          rw [CString.buffer, List.length_append]
          omega)
        exact ⟨fun _ => ⟨rfl, hfound⟩, fun _ => ⟨_, by rw [heq, hrun]; rfl⟩⟩
    | true =>
        rw [hlone] at hat
        constructor
        · rintro ⟨parsed, hparsed⟩
          rw [heq] at hparsed
          obtain ⟨left, hrun, hleft⟩ := Option.map_eq_some_iff.1 hparsed
          cases left with
          | error fault => cases hleft
          | ok args => exact absurd hrun (hat.run_ne_ok _ args)
        · rintro ⟨hfalse, -⟩
          cases hfalse
  · have hnull : engineParseCmd cmd = some (.error .nullPointer) := by
      have hlength : cmd.buffer.length = cmd.chars.length + 1 := by simp [CString.buffer]
      rw [engineParseCmd, hlength, CString.buffer, hread]
      simp only [ArgsState.run_null (s := ⟨[(splitToken []).2], [], none⟩) rfl]
      rfl
    constructor
    · rintro ⟨parsed, hparsed⟩
      rw [hnull] at hparsed
      cases hparsed
    · rintro ⟨-, c, hc, hne⟩
      exact absurd (hall c hc) hne
  · constructor
    · rintro ⟨parsed, hparsed⟩
      rw [engineParseCmd, CString.buffer, hread] at hparsed
      cases hparsed
    · rintro ⟨hfalse, -⟩
      rw [hd] at hfalse
      cases hfalse

/-- **Reading inside the string.**  Calls that go on at each other's tails stay
inside the string and come to an end exactly when it ends in an even number of
escapes, whatever the delimiters are; and a command is split exactly when,
besides, it is made neither of blanks only nor of quotes only. -/
theorem tokens_inside_iff (cmd : CString) (delim : ℕ → Char) (esc : Char) :
    (cmd.StaysInside delim esc ↔ Even (trailing esc cmd.chars)) ∧
      ((∃ parsed, engineParseCmd cmd = some (.ok parsed)) ↔
        Even (trailing '\\' cmd.chars) ∧
          ¬ (∀ c ∈ cmd.chars, c = ' ') ∧ ¬ ∀ c ∈ cmd.chars, c = '"') := by
  refine ⟨CString.staysInside_iff_even, ?_⟩
  rw [engineParseCmd_ok_iff, exists_ne_delimAt_iff, ← Nat.not_odd_iff_even,
    ← dangling_iff_odd, Bool.not_eq_true]

/-- The command `a\`: its first token already runs into the memory behind it. -/
theorem tokens_outside_backslash :
    ¬ (CString.mk ['a', '\\'] (by decide)).StaysInside (fun _ => ' ') '\\' ∧
      stringTokEsc [] (some ['a', '\\', nul]) ' ' '\\' = .error .outOfBounds ∧
      engineParseCmd (CString.mk ['a', '\\'] (by decide)) = some (.error .outOfBounds) := by
  have hcall : stringTokEsc [] (some ['a', '\\', nul]) ' ' '\\' = .error .outOfBounds := by
    rw [stringTokEsc, tokEscLoop_plain (by decide) (by decide) (by decide),
      tokEscLoop_escaped (by decide), tokEscLoop_nil]
    rfl
  refine ⟨?_, hcall, ?_⟩
  · rw [CString.staysInside_iff_even]
    decide
  · have hread : readToken [] (some ['a', '\\', nul]) = .error .outOfBounds := by
      have heq := readToken_eq [] ['a', '\\']
      simpa [delimAt, hcall, bind, Except.bind] using heq
    simp [engineParseCmd, CString.buffer, hread]

/-! ## Writing a command -/

/-- The characters with a backslash in front of them. -/
def quotedSpecial (c : Char) : Bool := c = '"' || c = '\\'

/-- An argument between quotes. -/
def quoteArg (arg : List Char) : List Char := '"' :: escape '\\' quotedSpecial arg ++ ['"']

theorem not_mem_quoteArg {arg : List Char} (h : nul ∉ arg) : nul ∉ quoteArg arg := by
  unfold quoteArg escape
  simp only [List.mem_append, List.mem_cons, List.mem_flatMap, List.not_mem_nil, or_false, not_or,
    not_exists, not_and]
  refine ⟨⟨by decide, fun c hc => ?_⟩, by decide⟩
  have hne : nul ≠ c := fun heq => h (heq ▸ hc)
  split
  · simpa [hne] using (by decide : nul ≠ '\\')
  · simpa using hne

/-- The arguments, each between quotes, with single blanks between them.  This is the
inverse of `engine_parse_cmd` for arguments that are not empty. -/
def CString.commandLine (args : List CString) : CString where
  chars := [' '].intercalate (args.map fun arg => quoteArg arg.chars)
  noNul := by
    induction args with
    | nil => simp [List.intercalate]
    | cons arg args ih =>
        have harg := not_mem_quoteArg arg.noNul
        cases args with
        | nil => simpa [List.intercalate] using harg
        | cons arg' args =>
            simp only [List.map_cons, List.intercalate_cons_cons, List.mem_append, not_or] at ih ⊢
            exact ⟨⟨harg, by decide⟩, ih⟩

/-- The memory of the written arguments, from the first of them on. -/
def argsText : List (List Char) → List Char
  | [] => [nul]
  | arg :: args => quoteArg arg ++ if args = [] then [nul] else ' ' :: argsText args

theorem CString.buffer_commandLine (args : List CString) :
    (CString.commandLine args).buffer = argsText (args.map CString.chars) := by
  unfold CString.buffer CString.commandLine
  induction args with
  | nil => rfl
  | cons arg args ih =>
      cases args with
      | nil => simp [argsText]
      | cons arg' args =>
          simp only [List.map_cons, List.intercalate_cons_cons, List.append_assoc] at ih ⊢
          rw [argsText, ih]
          simp

theorem length_le_argsText (args : List (List Char)) : args.length < (argsText args).length := by
  induction args with
  | nil => simp [argsText]
  | cons arg args ih =>
      rw [argsText, List.length_append, List.length_cons]
      by_cases hargs : args = []
      · simp [hargs, quoteArg]
      · rw [if_neg hargs, List.length_cons]
        omega

/-- A written argument reads back, and the blank behind it is skipped.  The quotes make
blanks part of it, and every quote or backslash in it is protected. -/
theorem readToken_argsText (token : List Char) {arg : List Char} {args : List (List Char)}
    (hnul : nul ∉ arg) (harg : arg ≠ []) :
    readToken token (some (argsText (arg :: args))) = .ok (arg, some (argsText args)) := by
  obtain ⟨rest, hrest⟩ : ∃ rest, rest = if args = [] then [nul] else ' ' :: argsText args :=
    ⟨_, rfl⟩
  have hs : nul ∉ escape '\\' quotedSpecial arg ++ ['"'] := fun h =>
    not_mem_quoteArg hnul (List.mem_cons_of_mem '"' h)
  have hread : readUntil '\\' '"' (escape '\\' quotedSpecial arg ++ ['"']) = some (arg, []) :=
    readUntil_escape (by decide) (by decide) (by decide)
  have hloop : tokEscLoop '"' '\\' false [] (quoteArg arg ++ rest) = .ok (arg, rest) := by
    have hbegin : tokEscLoop '"' '\\' false [] (escape '\\' quotedSpecial arg ++ ['"'] ++ rest) =
        tokEscLoop '"' '\\' true [] (escape '\\' quotedSpecial arg ++ ['"'] ++ rest) :=
      tokEscLoop_begin hs hread harg
    rw [quoteArg, List.cons_append, List.cons_append, tokEscLoop_skip (by decide) (by decide),
      hbegin, tokEscLoop_value hs hread, List.nil_append, List.nil_append]
  have hskip : ∃ c, deref rest = .ok c ∧
      (if c = ' ' then rest.drop 1 else rest) = argsText args := by
    by_cases hargs : args = []
    · exact ⟨nul, by rw [hrest, hargs]; rfl, by rw [hrest, hargs]; rfl⟩
    · exact ⟨' ', by rw [hrest, if_neg hargs]; rfl, by rw [hrest, if_neg hargs]; rfl⟩
  obtain ⟨c, hc, htail⟩ := hskip
  have hcall : stringTokEsc token (some (quoteArg arg ++ rest)) '"' '\\' =
      .ok (arg, some rest) := by
    simp [stringTokEsc, hloop, bind, Except.bind, harg]
  rw [argsText, ← hrest]
  have hhead : deref (quoteArg arg ++ rest) = .ok '"' := rfl
  simp only [readToken, hhead, hcall, hc, htail, bind, Except.bind, if_true]

/-- Behind the last argument there is none. -/
theorem readToken_argsText_nil (token : List Char) :
    readToken token (some (argsText [])) = .ok ([], none) := by
  have hloop : tokEscLoop ' ' '\\' false [] [nul] = .ok ([], [nul]) := tokEscLoop_nul
  have hquote : nul ≠ '"' := by decide
  simp [readToken, argsText, deref, stringTokEsc, hloop, bind, Except.bind, hquote]

/-- The loop collects the written arguments.  By induction on them, for any arguments
collected before and any token left over. -/
theorem run_argsText {args : List (List Char)} (hargs : ∀ arg ∈ args, nul ∉ arg ∧ arg ≠ [])
    (collected : List (List Char)) (token : List Char) {n : ℕ} (hn : args.length < n) :
    EarlyExit.run ArgsState.round n ⟨collected, token, some (argsText args)⟩ =
      some (.ok (collected ++ args)) := by
  induction n generalizing args collected token with
  | zero => omega
  | succ n ih =>
      rw [EarlyExit.run, ArgsState.round]
      cases args with
      | nil =>
          rw [readToken_argsText_nil]
          simp
      | cons arg args =>
          obtain ⟨⟨hnul, hne⟩, hargs⟩ := List.forall_mem_cons.1 hargs
          rw [List.length_cons] at hn
          rw [readToken_argsText token hnul hne]
          simp only
          rw [ih hargs (collected ++ [arg]) arg (by omega), List.append_assoc,
            List.singleton_append]

/-! ## The directory and the program -/

theorem strrchr_eq_none {s : List Char} {c : Char} (h : c ∉ s) : strrchr s c = none := if_neg h

/-- The text around the last occurrence. -/
theorem strrchr_split {s : List Char} {c : Char} (h : c ∈ s) :
    ∃ i, strrchr s c = some i ∧ s = s.take i ++ c :: s.drop (i + 1) := by
  refine ⟨_, if_pos h, ?_⟩
  have hmem : c ∈ s.reverse := List.mem_reverse.2 h
  have hlt : s.reverse.idxOf c < s.reverse.length := List.idxOf_lt_length_iff.2 hmem
  have hlt' : s.length - 1 - s.reverse.idxOf c < s.length := by
    rw [List.length_reverse] at hlt
    omega
  have hget : s[s.length - 1 - s.reverse.idxOf c] = c := by
    have hidx := List.getElem_idxOf hlt
    rwa [List.getElem_reverse] at hidx
  conv_lhs => rw [← List.take_append_drop (s.length - 1 - s.reverse.idxOf c) s,
    List.drop_eq_getElem_cons hlt', hget]

/-- **Round trip.** A command of quoted arguments is split into them: the first as a
directory and a program, which is also the first argument, the others as they are.  Only
empty arguments have to be left out, because any number of delimiters in front of a token is
skipped. -/
theorem engineParseCmd_commandLine (first : CString) (rest : List CString)
    (hargs : ∀ arg ∈ first :: rest, arg.chars ≠ []) :
    ∃ cwd run,
      engineParseCmd (CString.commandLine (first :: rest)) =
        some (.ok ⟨cwd, run, run :: rest.map CString.chars⟩) ∧
      ('/' ∉ first.chars → cwd = "./".toList ∧ run = first.chars) ∧
      ('/' ∈ first.chars → "./".toList <+: run ∧ cwd ++ '/' :: run.drop 2 = first.chars) := by
  obtain ⟨hfirst, hrest⟩ := List.forall_mem_cons.1 hargs
  refine ⟨(splitToken first.chars).1, (splitToken first.chars).2, ?_, ?_, ?_⟩
  · have hread : readToken [] (some (CString.commandLine (first :: rest)).buffer) =
        .ok (first.chars, some (argsText (rest.map CString.chars))) := by
      rw [CString.buffer_commandLine, List.map_cons]
      exact readToken_argsText [] first.noNul hfirst
    have hlength : (rest.map CString.chars).length <
        (CString.commandLine (first :: rest)).buffer.length := by
      have hle := length_le_argsText ((first :: rest).map CString.chars)
      rw [← CString.buffer_commandLine] at hle
      simp only [List.length_map, List.length_cons] at hle ⊢
      omega
    have hrun := run_argsText (by
      intro arg harg
      obtain ⟨arg', harg', rfl⟩ := List.mem_map.1 harg
      exact ⟨arg'.noNul, hrest arg' harg'⟩) [(splitToken first.chars).2] first.chars hlength
    rw [engineParseCmd, hread]
    simp only [hrun, Option.map_some, Except.map, List.singleton_append]
  · intro hslash
    rw [splitToken, strrchr_eq_none hslash]
    exact ⟨rfl, rfl⟩
  · intro hslash
    obtain ⟨i, hi, hsplit⟩ := strrchr_split hslash
    rw [splitToken, hi]
    exact ⟨List.prefix_append _ _, hsplit.symm⟩

/-- A program in a directory with a blank in its name, and a backslash as its
argument. -/
theorem engineParseCmd_commandLine_two :
    ∃ cwd run,
      engineParseCmd (CString.commandLine
          [⟨"my engines/\"x\"".toList, by decide⟩, ⟨['\\'], by decide⟩]) =
        some (.ok ⟨cwd, run, [run, ['\\']]⟩) ∧
      "./".toList <+: run ∧ cwd ++ '/' :: run.drop 2 = "my engines/\"x\"".toList := by
  obtain ⟨cwd, run, hparse, -, hslash⟩ :=
    engineParseCmd_commandLine ⟨"my engines/\"x\"".toList, by decide⟩ [⟨['\\'], by decide⟩]
      (by decide)
  exact ⟨cwd, run, hparse, hslash (by decide)⟩

end GomokuCli
