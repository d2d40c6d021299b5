import GomokuCli.Library.EarlyExit
import GomokuCli.Library.Escapes

/-!
# The command line of an engine

`string_tok_esc` reads a token of a C string, and `engine_parse_cmd` reads the
command of an engine with it, token after token.

A pointer into a buffer is the part of the buffer from there on, the terminating
NUL included, so a read behind the end of the buffer is an error of the model and
not a value.  The escape step of `string_getc_esc` goes two characters ahead and
the loop around it looks at one: an escape that is the last character of the
string takes the pointer behind the terminator.  That is the one way out of the
buffer (`staysInside_iff_even`).
-/

namespace GomokuCli

open Escapes

/-- The character that ends a C string. -/
def nul : Char := '\x00'

/-- A C string: no character of it is the one that ends it.  The pointers of the program go
into its buffer, which has the terminator as its last character. -/
structure CString where
  chars : List Char
  noNul : nul ∉ chars

/-- The memory that the string occupies. -/
def CString.buffer (s : CString) : List Char := s.chars ++ [nul]

/-- What happens to a program that reads where it may not.  The model stops there, while the
machine would go on with whatever it finds. -/
inductive Fault
  | outOfBounds
  | nullPointer
  deriving DecidableEq, Repr

/-- `*s` -/
def deref : List Char → Except Fault Char
  | [] => .error .outOfBounds
  | c :: _ => .ok c

/-- `string_getc_esc`: the character, whether it was escaped, and the tail.  Behind an
escape the next character is taken whatever it is, the terminator included. -/
def stringGetcEsc (s : List Char) (esc : Char) : Except Fault (Char × Bool × List Char) := do
  let c ← deref s
  if c ≠ esc then
    .ok (c, false, s.drop 1)
  else
    let out ← deref (s.drop 1)
    .ok (out, true, s.drop 2)

theorem stringGetcEsc_plain {s : List Char} {esc c : Char} (hc : c ≠ esc) :
    stringGetcEsc (c :: s) esc = .ok (c, false, s) := by
  simp [stringGetcEsc, deref, bind, Except.bind, hc]

theorem stringGetcEsc_escaped {s : List Char} {esc d : Char} :
    stringGetcEsc (esc :: d :: s) esc = .ok (d, true, s) := by
  simp [stringGetcEsc, deref, bind, Except.bind]

/-- The tail is shorter: the loop of `string_tok_esc` comes to an end. -/
theorem stringGetcEsc_length {s tail : List Char} {esc c : Char} {escaped : Bool}
    (h : stringGetcEsc s esc = .ok (c, escaped, tail)) : tail.length < s.length := by
  match s with
  | [] => cases h
  | [d] =>
      by_cases hd : d = esc
      · simp [stringGetcEsc, deref, hd, bind, Except.bind] at h
      · rw [stringGetcEsc_plain hd] at h
        cases h
        simp
  | d :: e :: s =>
      by_cases hd : d = esc
      · rw [hd, stringGetcEsc_escaped] at h
        cases h
        simp only [List.length_cons]
        omega
      · rw [stringGetcEsc_plain hd] at h
        cases h
        simp

/-- The loop of `string_tok_esc`, with the token and the tail it is left with.  `accumulate`
tells whether the token has begun, so that delimiters in front of it are skipped. -/
def tokEscLoop (delim esc : Char) (accumulate : Bool) (token tail : List Char) :
    Except Fault (List Char × List Char) :=
  match deref tail with
  | .error fault => .error fault
  | .ok next =>
      if next = nul then
        .ok (token, tail)
      else
        match _h : stringGetcEsc tail esc with
        | .error fault => .error fault
        | .ok (c, escaped, tail') =>
            if (accumulate || (c ≠ delim || escaped)) = true then
              if (c ≠ delim || escaped) = true then
                tokEscLoop delim esc true (token ++ [c]) tail'
              else
                .ok (token, tail')
            else
              tokEscLoop delim esc false token tail'
termination_by tail.length
decreasing_by all_goals exact stringGetcEsc_length _h

/-- `string_tok_esc`: the token and the tail, which is `none` when there was nothing to read
or the token is empty.  A caller that goes on at `none` reads through a null pointer. -/
def stringTokEsc (token : List Char) (s : Option (List Char)) (delim esc : Char) :
    Except Fault (List Char × Option (List Char)) :=
  match s with
  | none => .ok (token, none)
  | some s => do
      let (token, tail) ← tokEscLoop delim esc false [] s
      .ok (token, if token.isEmpty then none else some tail)

/-! ## One round of the loop -/

section Loop

variable {delim esc c d : Char} {accumulate : Bool} {token s : List Char}

theorem tokEscLoop_nul :
    tokEscLoop delim esc accumulate token (nul :: s) = .ok (token, nul :: s) := by
  rw [tokEscLoop]
  simp [deref]

theorem tokEscLoop_nil :
    tokEscLoop delim esc accumulate token [] = .error .outOfBounds := by
  rw [tokEscLoop]
  simp [deref]

/-- What the body of the loop does with the character that was read. -/
theorem tokEscLoop_read {tail : List Char} {escaped : Bool} (hd : d ≠ nul)
    (hread : stringGetcEsc (d :: s) esc = .ok (c, escaped, tail)) :
    tokEscLoop delim esc accumulate token (d :: s) =
      if (accumulate || (c ≠ delim || escaped)) = true then
        if (c ≠ delim || escaped) = true then
          tokEscLoop delim esc true (token ++ [c]) tail
        else
          .ok (token, tail)
      else
        tokEscLoop delim esc false token tail := by
  rw [tokEscLoop]
  simp only [deref, if_neg hd]
  split
  · next hfault =>
      rw [hread] at hfault
      cases hfault
  · next hread' =>
      rw [hread] at hread'
      cases hread'
      rfl

/-- A character behind an escape belongs to the token. -/
theorem tokEscLoop_escaped (hesc : esc ≠ nul) :
    tokEscLoop delim esc accumulate token (esc :: d :: s) =
      tokEscLoop delim esc true (token ++ [d]) s := by
  rw [tokEscLoop_read hesc stringGetcEsc_escaped]
  simp

/-- So does every character other than the delimiter. -/
theorem tokEscLoop_plain (hc : c ≠ nul) (hesc : c ≠ esc) (hdelim : c ≠ delim) :
    tokEscLoop delim esc accumulate token (c :: s) =
      tokEscLoop delim esc true (token ++ [c]) s := by
  rw [tokEscLoop_read hc (stringGetcEsc_plain hesc)]
  simp [hdelim]

/-- A delimiter in front of the token is skipped. -/
theorem tokEscLoop_skip (hc : delim ≠ nul) (hesc : delim ≠ esc) :
    tokEscLoop delim esc false token (delim :: s) = tokEscLoop delim esc false token s := by
  rw [tokEscLoop_read hc (stringGetcEsc_plain hesc)]
  simp

/-- A delimiter behind it ends it. -/
theorem tokEscLoop_stop (hc : delim ≠ nul) (hesc : delim ≠ esc) :
    tokEscLoop delim esc true token (delim :: s) = .ok (token, s) := by
  rw [tokEscLoop_read hc (stringGetcEsc_plain hesc)]
  simp

end Loop

/-! ## Where a call ends -/

/-- **How the loop leaves the string `s`**: with `token'` in the token and `r` still to be
read.  That a lone escape at the end is still there, or still is not, makes the next call
start as this one did. -/
structure Leaves (esc : Char) (accumulate : Bool) (token s token' r : List Char) : Prop where
  suffix : r <:+ s
  dangling_eq : dangling esc r = dangling esc s
  grows : token.length ≤ token'.length
  pays : token'.length + r.length ≤ token.length + s.length
  found : dangling esc s = true → (accumulate = true → token ≠ []) → token' ≠ []

namespace Leaves

variable {esc c d : Char} {accumulate accumulate' : Bool} {token s token' r : List Char}

/-- The string behind a symbol that goes into the token. -/
theorem push_plain (hc : c ≠ esc) (h : Leaves esc true (token ++ [c]) s token' r) :
    Leaves esc accumulate token (c :: s) token' r where
  suffix := h.suffix.trans (List.suffix_cons c s)
  dangling_eq := by rw [h.dangling_eq, dangling_cons hc]
  grows := by
    have hgrows := h.grows
    rw [List.length_append] at hgrows
    omega
  pays := by
    have hpays := h.pays
    simp only [List.length_append, List.length_cons, List.length_nil] at hpays ⊢
    omega
  found hs _ := by
    rw [dangling_cons hc] at hs
    exact h.found hs fun _ => by simp

theorem push_escaped (h : Leaves esc true (token ++ [d]) s token' r) :
    Leaves esc accumulate token (esc :: d :: s) token' r where
  suffix := h.suffix.trans ((List.suffix_cons d s).trans (List.suffix_cons esc _))
  dangling_eq := by rw [h.dangling_eq, dangling_escape_cons]
  grows := by
    have hgrows := h.grows
    rw [List.length_append] at hgrows
    omega
  pays := by
    have hpays := h.pays
    simp only [List.length_append, List.length_cons, List.length_nil] at hpays ⊢
    omega
  found hs _ := by
    rw [dangling_escape_cons] at hs
    exact h.found hs fun _ => by simp

/-- A delimiter in front of the token. -/
theorem skip (hc : c ≠ esc) (h : Leaves esc false token s token' r) :
    Leaves esc false token (c :: s) token' r where
  suffix := h.suffix.trans (List.suffix_cons c s)
  dangling_eq := by rw [h.dangling_eq, dangling_cons hc]
  grows := h.grows
  pays := by
    have hpays := h.pays
    rw [List.length_cons]
    omega
  found hs hacc := by
    rw [dangling_cons hc] at hs
    exact h.found hs hacc

/-- The delimiter behind it. -/
theorem stop (hc : c ≠ esc) : Leaves esc true token (c :: s) token s where
  suffix := List.suffix_cons c s
  dangling_eq := (dangling_cons hc).symm
  grows := le_rfl
  pays := by
    rw [List.length_cons]
    omega
  found _ htoken := htoken rfl

theorem nil : Leaves esc accumulate token [] token [] where
  suffix := List.suffix_refl []
  dangling_eq := rfl
  grows := le_rfl
  pays := le_rfl
  found h := by
    cases h

end Leaves

/-- **One call.** Either the loop leaves the string at one of its symbols, or it reads
behind the terminator, and then the string ends in a lone escape.  By induction on the
string, two characters at a time behind an escape. -/
theorem tokEscLoop_leaves (delim esc : Char) (s : List Char) (hs : nul ∉ s)
    (accumulate : Bool) (token : List Char) :
    (∃ token' r, tokEscLoop delim esc accumulate token (s ++ [nul]) = .ok (token', r ++ [nul]) ∧
        Leaves esc accumulate token s token' r) ∨
      dangling esc s = true ∧
        tokEscLoop delim esc accumulate token (s ++ [nul]) = .error .outOfBounds := by
  induction s using symbols_induction esc generalizing accumulate token with
  | nil => exact Or.inl ⟨token, [], tokEscLoop_nul, Leaves.nil⟩
  | lone =>
      have hesc : esc ≠ nul := fun h => hs (by simp [h])
      refine Or.inr ⟨dangling_escape, ?_⟩
      -- the terminator counts as the escaped character
      rw [List.singleton_append, tokEscLoop_escaped hesc, tokEscLoop_nil]
  | escaped d s ih =>
      simp only [List.mem_cons, not_or] at hs
      simp only [List.cons_append, tokEscLoop_escaped (Ne.symm hs.1)]
      rcases ih hs.2.2 true (token ++ [d]) with ⟨token', r, hrun, h⟩ | ⟨hd, hrun⟩
      · exact Or.inl ⟨token', r, hrun, h.push_escaped⟩
      · exact Or.inr ⟨by rw [dangling_escape_cons, hd], hrun⟩
  | plain c s hc ih =>
      simp only [List.mem_cons, not_or] at hs
      have hnul : c ≠ nul := Ne.symm hs.1
      by_cases hdelim : c = delim
      · cases accumulate with
        | false =>
            simp only [List.cons_append, hdelim, tokEscLoop_skip (hdelim ▸ hnul) (hdelim ▸ hc)]
            rcases ih hs.2 false token with ⟨token', r, hrun, h⟩ | ⟨hd, hrun⟩
            · exact Or.inl ⟨token', r, hrun, h.skip (hdelim ▸ hc)⟩
            · exact Or.inr ⟨by rw [dangling_cons (hdelim ▸ hc), hd], hrun⟩
        | true =>
            refine Or.inl ⟨token, s, ?_, Leaves.stop hc⟩
            rw [List.cons_append, hdelim, tokEscLoop_stop (hdelim ▸ hnul) (hdelim ▸ hc)]
      · simp only [List.cons_append, tokEscLoop_plain hnul hc hdelim]
        rcases ih hs.2 true (token ++ [c]) with ⟨token', r, hrun, h⟩ | ⟨hd, hrun⟩
        · exact Or.inl ⟨token', r, hrun, h.push_plain hc⟩
        · exact Or.inr ⟨by rw [dangling_cons hc, hd], hrun⟩

/-- What has been read of the token stays in it. -/
theorem length_le_of_tokEscLoop {delim esc : Char} {s token token' tail : List Char}
    {accumulate : Bool} (hs : nul ∉ s)
    (hrun : tokEscLoop delim esc accumulate token (s ++ [nul]) = .ok (token', tail)) :
    token.length ≤ token'.length := by
  rcases tokEscLoop_leaves delim esc s hs accumulate token with ⟨token'', r, hleft, h⟩ | ⟨-, hleft⟩
  · rw [hleft] at hrun
    cases hrun
    exact h.grows
  · rw [hleft] at hrun
    cases hrun

/-- The loop finds no token exactly when there is nothing but delimiters.  An escaped
delimiter is not one of them. -/
theorem tokEscLoop_empty_iff {delim esc : Char} (hesc : delim ≠ esc) (s : List Char)
    (hs : nul ∉ s) :
    (∃ tail, tokEscLoop delim esc false [] (s ++ [nul]) = .ok ([], tail)) ↔
      ∀ c ∈ s, c = delim := by
  induction s using symbols_induction esc with
  | nil =>
      constructor
      · intro _ c hc
        cases hc
      · exact fun _ => ⟨_, tokEscLoop_nul⟩
  | lone =>
      have hnul : esc ≠ nul := fun h => hs (by simp [h])
      refine iff_of_false ?_ fun h => hesc (h esc List.mem_cons_self).symm
      rintro ⟨tail, hrun⟩
      rw [List.singleton_append, tokEscLoop_escaped hnul, tokEscLoop_nil] at hrun
      cases hrun
  | escaped d s =>
      simp only [List.mem_cons, not_or] at hs
      refine iff_of_false ?_ fun h => hesc (h esc List.mem_cons_self).symm
      rintro ⟨tail, hrun⟩
      rw [List.cons_append, List.cons_append, tokEscLoop_escaped (Ne.symm hs.1)] at hrun
      exact absurd (length_le_of_tokEscLoop hs.2.2 hrun) (by simp)
  | plain c s hc ih =>
      simp only [List.mem_cons, not_or] at hs
      have hnul : c ≠ nul := Ne.symm hs.1
      by_cases hdelim : c = delim
      · subst hdelim
        rw [List.cons_append, tokEscLoop_skip hnul hc, ih hs.2, List.forall_mem_cons]
        exact ⟨fun h => ⟨rfl, h⟩, fun h => h.2⟩
      · refine iff_of_false ?_ fun h => hdelim (h c List.mem_cons_self)
        rintro ⟨tail, hrun⟩
        rw [List.cons_append, tokEscLoop_plain hnul hc hdelim] at hrun
        exact absurd (length_le_of_tokEscLoop hs.2 hrun) (by simp)

/-- A call of `string_tok_esc`, at a pointer into the string: there is a token and less to
read, or there is none, or the call reads behind the string. -/
theorem stringTokEsc_leaves (delim esc : Char) (token s : List Char) (hs : nul ∉ s) :
    (∃ token' r, stringTokEsc token (some (s ++ [nul])) delim esc =
          .ok (token', some (r ++ [nul])) ∧ token' ≠ [] ∧
        r <:+ s ∧ r.length < s.length ∧ dangling esc r = dangling esc s) ∨
      (dangling esc s = false ∧
        stringTokEsc token (some (s ++ [nul])) delim esc = .ok ([], none)) ∨
      dangling esc s = true ∧
        stringTokEsc token (some (s ++ [nul])) delim esc = .error .outOfBounds := by
  rcases tokEscLoop_leaves delim esc s hs false [] with ⟨token', r, hrun, h⟩ | ⟨hd, hrun⟩
  · have hcall : stringTokEsc token (some (s ++ [nul])) delim esc =
        .ok (token', if token'.isEmpty then none else some (r ++ [nul])) := by
      simp [stringTokEsc, hrun, bind, Except.bind]
    by_cases htoken : token' = []
    · refine Or.inr (Or.inl ⟨?_, by simpa [htoken] using hcall⟩)
      cases hd : dangling esc s with
      | false => rfl
      | true => exact absurd htoken (h.found hd (by simp))
    · refine Or.inl ⟨token', r, by simpa [htoken] using hcall, htoken, h.suffix, ?_,
        h.dangling_eq⟩
      have hpays := h.pays
      have hlength := List.length_pos_of_ne_nil htoken
      simp only [List.length_nil] at hpays
      omega
  · exact Or.inr (Or.inr ⟨hd, by simp [stringTokEsc, hrun, bind, Except.bind]⟩)

/-- A call finds no token exactly when there is nothing but delimiters. -/
theorem stringTokEsc_none_iff {delim esc : Char} (hesc : delim ≠ esc) (token s : List Char)
    (hs : nul ∉ s) :
    stringTokEsc token (some (s ++ [nul])) delim esc = .ok ([], none) ↔
      ∀ c ∈ s, c = delim := by
  rw [← tokEscLoop_empty_iff hesc s hs]
  constructor
  · intro hcall
    simp only [stringTokEsc] at hcall
    obtain ⟨⟨token', tail⟩, hrun, hleft⟩ := EarlyExit.bind_eq_ok.1 hcall
    simp only [Except.ok.injEq, Prod.mk.injEq] at hleft
    exact ⟨tail, by rw [hrun, hleft.1]⟩
  · rintro ⟨tail, hrun⟩
    simp [stringTokEsc, hrun, bind, Except.bind]

/-! ## A value with a delimiter behind it -/

section Value

variable {delim esc : Char} {token s v r t : List Char}

/-- Once the token has begun, the loop reads the value up to the delimiter. -/
theorem tokEscLoop_value (hs : nul ∉ s)
    (hread : readUntil esc delim s = some (v, r)) :
    tokEscLoop delim esc true token (s ++ t) = .ok (token ++ v, r ++ t) := by
  induction s using symbols_induction esc generalizing token v r with
  | nil => cases hread
  | lone => simp [readUntil] at hread
  | escaped d s ih =>
      simp only [List.mem_cons, not_or] at hs
      rw [readUntil_escape_cons] at hread
      obtain ⟨⟨v', r'⟩, hread', heq⟩ := Option.map_eq_some_iff.1 hread
      simp only [Prod.mk.injEq] at heq
      obtain ⟨rfl, rfl⟩ := heq
      simp only [List.cons_append, tokEscLoop_escaped (Ne.symm hs.1), ih hs.2.2 hread',
        List.append_assoc, List.nil_append]
  | plain c s hc ih =>
      simp only [List.mem_cons, not_or] at hs
      have hnul : c ≠ nul := Ne.symm hs.1
      by_cases hstop : c = delim
      · subst hstop
        rw [readUntil_stop hc] at hread
        cases hread
        rw [List.cons_append, tokEscLoop_stop hnul hc, List.append_nil]
      · rw [readUntil_cons hc hstop] at hread
        obtain ⟨⟨v', r'⟩, hread', heq⟩ := Option.map_eq_some_iff.1 hread
        simp only [Prod.mk.injEq] at heq
        obtain ⟨rfl, rfl⟩ := heq
        simp only [List.cons_append, tokEscLoop_plain hnul hc hstop, ih hs.2 hread',
          List.append_assoc, List.nil_append]

/-- The first symbol of a value begins the token. -/
theorem tokEscLoop_begin (hs : nul ∉ s)
    (hread : readUntil esc delim s = some (v, r)) (hv : v ≠ []) :
    tokEscLoop delim esc false token (s ++ t) = tokEscLoop delim esc true token (s ++ t) := by
  cases s using symbols_induction esc with
  | nil => cases hread
  | lone => simp [readUntil] at hread
  | escaped d s =>
      simp only [List.mem_cons, not_or] at hs
      simp only [List.cons_append, tokEscLoop_escaped (Ne.symm hs.1)]
  | plain c s hc =>
      simp only [List.mem_cons, not_or] at hs
      by_cases hstop : c = delim
      · subst hstop
        rw [readUntil_stop hc] at hread
        cases hread
        exact absurd rfl hv
      · simp only [List.cons_append, tokEscLoop_plain (Ne.symm hs.1) hc hstop]

end Value

/-! ## Repeated calls -/

namespace CString

/-- The `n`-th of the calls that each go on at the tail of the one before.  The delimiter
may be another one in each call, as it is for quoted arguments. -/
def call (s : CString) (delim : ℕ → Char) (esc : Char) :
    ℕ → Except Fault (List Char × Option (List Char))
  | 0 => stringTokEsc [] (some s.buffer) (delim 0) esc
  | n + 1 => do
      let (token, tail) ← s.call delim esc n
      stringTokEsc token tail (delim (n + 1)) esc

/-- No call reads outside the string, every tail points into the string or at its
terminator, and one of the calls finds no more tokens.  The number of calls is bounded by
the length. -/
structure StaysInside (s : CString) (delim : ℕ → Char) (esc : Char) : Prop where
  inside : ∀ n, ∃ token tail, s.call delim esc n = .ok (token, tail) ∧
    ∀ t, tail = some t → t ≠ [] ∧ t <:+ s.buffer
  ends : ∃ n ≤ s.chars.length, ∃ token, s.call delim esc n = .ok (token, none)

variable {s : CString} {delim : ℕ → Char} {esc : Char}

theorem not_mem_suffix {r : List Char} (h : r <:+ s.chars) : nul ∉ r :=
  fun hr => s.noNul (h.subset hr)

/-- The calls on a string that ends in a symbol.  Each of them takes at least one character,
and the end of the string stays as it is. -/
theorem call_of_not_dangling (delim : ℕ → Char) (hs : dangling esc s.chars = false) (n : ℕ) :
    ∃ token, s.call delim esc n = .ok (token, none) ∨
      ∃ r, s.call delim esc n = .ok (token, some (r ++ [nul])) ∧
        r <:+ s.chars ∧ r.length + n < s.chars.length ∧ dangling esc r = false := by
  induction n with
  | zero =>
      rcases stringTokEsc_leaves (delim 0) esc [] s.chars s.noNul with
        ⟨token, r, hcall, -, hr, hless, hd⟩ | ⟨-, hcall⟩ | ⟨hd, -⟩
      · exact ⟨token, Or.inr ⟨r, hcall, hr, by omega, hd.trans hs⟩⟩
      · exact ⟨[], Or.inl hcall⟩
      · rw [hs] at hd
        cases hd
  | succ n ih =>
      obtain ⟨token, hcall | ⟨r, hcall, hr, hless, hd⟩⟩ := ih
      · exact ⟨token, Or.inl (by simp [call, hcall, bind, Except.bind, stringTokEsc])⟩
      · have hnext : s.call delim esc (n + 1) =
            stringTokEsc token (some (r ++ [nul])) (delim (n + 1)) esc := by
          simp [call, hcall, bind, Except.bind]
        rcases stringTokEsc_leaves (delim (n + 1)) esc token r (not_mem_suffix hr) with
          ⟨token', r', hcall', -, hr', hless', hd'⟩ | ⟨-, hcall'⟩ | ⟨hd', -⟩
        · exact ⟨token', Or.inr ⟨r', hnext.trans hcall', hr'.trans hr, by omega,
            hd'.trans hd⟩⟩
        · exact ⟨[], Or.inl (hnext.trans hcall')⟩
        · rw [hd] at hd'
          cases hd'

/-- On a string with a lone escape at its end, a call that does not fault leaves
the escape to the next one. -/
theorem call_of_dangling (delim : ℕ → Char) (hs : dangling esc s.chars = true) (n : ℕ) :
    (∃ token r, s.call delim esc n = .ok (token, some (r ++ [nul])) ∧
        r <:+ s.chars ∧ dangling esc r = true) ∨
      s.call delim esc n = .error .outOfBounds := by
  induction n with
  | zero =>
      rcases stringTokEsc_leaves (delim 0) esc [] s.chars s.noNul with
        ⟨token, r, hcall, -, hr, -, hd⟩ | ⟨hd, -⟩ | ⟨-, hcall⟩
      · exact Or.inl ⟨token, r, hcall, hr, hd.trans hs⟩
      · rw [hs] at hd
        cases hd
      · exact Or.inr hcall
  | succ n ih =>
      obtain ⟨token, r, hcall, hr, hd⟩ | hcall := ih
      · have hnext : s.call delim esc (n + 1) =
            stringTokEsc token (some (r ++ [nul])) (delim (n + 1)) esc := by
          simp [call, hcall, bind, Except.bind]
        rcases stringTokEsc_leaves (delim (n + 1)) esc token r (not_mem_suffix hr) with
          ⟨token', r', hcall', -, hr', -, hd'⟩ | ⟨hd', -⟩ | ⟨-, hcall'⟩
        · exact Or.inl ⟨token', r', hnext.trans hcall', hr'.trans hr, hd'.trans hd⟩
        · rw [hd] at hd'
          cases hd'
        · exact Or.inr (hnext.trans hcall')
      · exact Or.inr (by simp [call, hcall, bind, Except.bind])

/-- **Repeated calls.** They stay inside exactly on the strings that end in an even number
of escapes.  Such escapes protect each other in pairs, and an odd one protects the
terminator. -/
theorem staysInside_iff_even :
    s.StaysInside delim esc ↔ Even (trailing esc s.chars) := by
  rw [← Nat.not_odd_iff_even, ← dangling_iff_odd, Bool.not_eq_true]
  constructor
  · intro h
    by_contra hd
    obtain ⟨n, -, token, hend⟩ := h.ends
    rcases call_of_dangling delim (by simpa using hd) n with
      ⟨token', r, hcall, -⟩ | hcall
    · rw [hcall] at hend
      cases hend
    · rw [hcall] at hend
      cases hend
  · intro hs
    constructor
    · intro n
      obtain ⟨token, hcall | ⟨r, hcall, hr, -⟩⟩ := call_of_not_dangling delim hs n
      · exact ⟨token, none, hcall, by simp⟩
      · refine ⟨token, _, hcall, ?_⟩
        rintro t ht
        cases ht
        refine ⟨by simp, ?_⟩
        obtain ⟨front, hfront⟩ := hr
        exact ⟨front, by rw [buffer, ← hfront, List.append_assoc]⟩
    · obtain ⟨token, hcall | ⟨r, hcall, -, hless, -⟩⟩ :=
        call_of_not_dangling delim hs s.chars.length
      · exact ⟨_, le_rfl, token, hcall⟩
      · omega

end CString

end GomokuCli
