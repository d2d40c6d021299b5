import Mathlib.Data.List.TakeWhile
import Mathlib.Tactic

/-!
# Reading decimal integers the way C does

`strtol`, `std::stoi` and the stream operator `>>` on an `int` read numbers in
the same way: skip blanks, take an optional sign, take every digit that follows.
They fail when there is no digit or when the value does not fit the type, and
what they leave unread starts right behind the last digit.

`readInt` is that step and `readInts` the loop `while (stream >> n)`, which stops
at the first failure.
-/

namespace Decimal

/-- `isspace` in the C locale. -/
def isSpace (c : Char) : Bool := c == ' ' || (decide (9 ≤ c.toNat) && decide (c.toNat ≤ 13))

/-- The value of a string of decimal digits. -/
def digitsValue (ds : List Char) : Nat := Nat.ofDigitChars 10 ds 0

/-- An optional sign: whether the number is negative, and what follows it. -/
def readSign : List Char → Bool × List Char
  | '-' :: s => (true, s)
  | '+' :: s => (false, s)
  | s => (false, s)

/-- The value fits a 32-bit `int`. -/
def FitsInt (v : Int) : Prop := -2147483648 ≤ v ∧ v ≤ 2147483647

instance (v : Int) : Decidable (FitsInt v) :=
  inferInstanceAs (Decidable (-2147483648 ≤ v ∧ v ≤ 2147483647))

/-- The value of a signed string of digits. -/
def signedValue (neg : Bool) (ds : List Char) : Int :=
  if neg then -(digitsValue ds : Int) else digitsValue ds

/-- Read one `int` from the front of `s`: the value and the unread rest, or `none` when
there is no number there or it is out of range.  A sign alone is no number, and the rest may
start with anything but a digit. -/
def readInt (s : List Char) : Option (Int × List Char) :=
  let (neg, s₁) := readSign (s.dropWhile isSpace)
  let ds := s₁.takeWhile Char.isDigit
  let rest := s₁.dropWhile Char.isDigit
  if ds ≠ [] ∧ FitsInt (signedValue neg ds) then some (signedValue neg ds, rest) else none

/-- A C string ends at the first null character, and its functions see nothing behind it. -/
def cString (s : List Char) : List Char := s.takeWhile fun c => c.toNat ≠ 0

/-- Where `strtol` stops reading.  It takes every digit, since it saturates when
the value is out of range, and does not move when there is none. -/
def strtolEnd (s : List Char) : List Char :=
  let s₁ := (readSign (s.dropWhile isSpace)).2
  if s₁.takeWhile Char.isDigit ≠ [] then s₁.dropWhile Char.isDigit else s

/-- The value that `strtol` reads, which is zero when there is no number.  A number that
is out of range is replaced by the nearest `long`, which has 64 bits. -/
def strtol (s : List Char) : Int :=
  let (neg, s₁) := readSign (s.dropWhile isSpace)
  max (-2 ^ 63) (min (2 ^ 63 - 1) (signedValue neg (s₁.takeWhile Char.isDigit)))

/-- The `int` that is left of a wider integer: its lowest 32 bits, read as a number with a
sign. -/
def truncInt (v : Int) : Int := v.bmod (2 ^ 32)

theorem fitsInt_truncInt (v : Int) : FitsInt (truncInt v) := by
  have hle := Int.le_bmod (x := v) (m := 2 ^ 32) (by decide)
  have hlt := Int.bmod_lt (x := v) (m := 2 ^ 32) (by decide)
  unfold FitsInt truncInt
  omega

/-- A number that fits is left as it is. -/
theorem truncInt_eq_self {v : Int} (h : FitsInt v) : truncInt v = v := by
  unfold FitsInt at h
  refine Int.bmod_eq_of_le ?_ ?_ <;> omega

/-- `readInts` with a bound on the number of numbers read.  The bound makes the recursion
structural, so that lines can be read by evaluation. -/
def readIntsWithin : Nat → List Char → List Int
  | 0, _ => []
  | n + 1, s =>
      match readInt s with
      | none => []
      | some (v, rest) => v :: readIntsWithin n rest

/-- The numbers that `while (stream >> n)` reads.  Every number takes at least
one character, so the length of the input bounds their count. -/
def readInts (s : List Char) : List Int := readIntsWithin s.length s

/-- Decimal output of an `int`, as `stream << n` and `%i` write it. -/
def showInt (n : Int) : List Char :=
  if n < 0 then '-' :: Nat.toDigits 10 n.natAbs else Nat.toDigits 10 n.natAbs

/-! ## Unfolding the loop -/

theorem length_readSign_le (s : List Char) : (readSign s).2.length ≤ s.length := by
  unfold readSign
  split <;> simp

theorem length_dropWhile_le {α : Type*} (p : α → Bool) (s : List α) :
    (s.dropWhile p).length ≤ s.length :=
  (s.dropWhile_suffix p).length_le

/-- A successful read makes the input shorter.  This is why the length of the input bounds
the number of reads. -/
theorem length_lt_of_readInt {s rest : List Char} {v : Int}
    (h : readInt s = some (v, rest)) : rest.length < s.length := by
  simp only [readInt] at h
  split at h
  · next hread =>
      obtain ⟨hds, -⟩ := hread
      have hrest := (Prod.mk.inj (Option.some.inj h)).2
      set s₁ := (readSign (s.dropWhile isSpace)).2 with hs₁
      have hsplit := congrArg List.length
        (List.takeWhile_append_dropWhile (p := Char.isDigit) (l := s₁))
      rw [List.length_append] at hsplit
      have hpos : 0 < (s₁.takeWhile Char.isDigit).length := List.length_pos_iff.mpr hds
      have hsign := length_readSign_le (s.dropWhile isSpace)
      have hspace := length_dropWhile_le isSpace s
      rw [← hs₁] at hsign
      rw [← hrest]
      omega
  · cases h

/-- Two bounds that the length of the input does not exceed give the same numbers. -/
theorem readIntsWithin_eq_of_le {n n' : Nat} {s : List Char} (hn : s.length ≤ n)
    (hn' : s.length ≤ n') : readIntsWithin n s = readIntsWithin n' s := by
  induction n generalizing n' s with
  | zero =>
      have hnil : s = [] := List.length_eq_zero_iff.mp (Nat.le_zero.mp hn)
      subst hnil
      cases n' with
      | zero => rfl
      | succ n' => simp [readIntsWithin, readInt, readSign]
  | succ n ih =>
      cases n' with
      | zero =>
          have hnil : s = [] := List.length_eq_zero_iff.mp (Nat.le_zero.mp hn')
          subst hnil
          simp [readIntsWithin, readInt, readSign]
      | succ n' =>
          simp only [readIntsWithin]
          cases hread : readInt s with
          | none => rfl
          | some vr =>
              obtain ⟨v, rest⟩ := vr
              have hlt := length_lt_of_readInt hread
              have hrest := ih (by omega : rest.length ≤ n) (by omega : rest.length ≤ n')
              simp only [hrest]

theorem readInts_of_none {s : List Char} (h : readInt s = none) : readInts s = [] := by
  unfold readInts
  cases s.length with
  | zero => rfl
  | succ n => simp [readIntsWithin, h]

/-- The loop reads a number, and then what is left as if it stood alone. -/
theorem readInts_of_some {s rest : List Char} {v : Int} (h : readInt s = some (v, rest)) :
    readInts s = v :: readInts rest := by
  have hlt := length_lt_of_readInt h
  obtain ⟨n, hn⟩ : ∃ n, s.length = n + 1 := ⟨s.length - 1, by omega⟩
  rw [readInts, hn, readIntsWithin, h]
  simp only [readInts]
  rw [readIntsWithin_eq_of_le (by omega) (le_refl rest.length)]

/-! ## Numerals -/

/-- A decimal numeral: an optional minus sign and at least one digit. -/
inductive Numeral : List Char → Int → Prop
  | nonneg {ds : List Char} (hne : ds ≠ []) (hdigits : ∀ c ∈ ds, c.isDigit = true) :
      Numeral ds (digitsValue ds)
  | neg {ds : List Char} (hne : ds ≠ []) (hdigits : ∀ c ∈ ds, c.isDigit = true) :
      Numeral ('-' :: ds) (-(digitsValue ds : Int))

theorem not_isSpace_of_isDigit {c : Char} (h : c.isDigit = true) : isSpace c = false := by
  simp only [Char.isDigit, Bool.and_eq_true, decide_eq_true_eq, ge_iff_le,
    UInt32.le_iff_toNat_le] at h
  have hnat : c.toNat = c.val.toNat := rfl
  have hspace : c ≠ ' ' := by
    rintro rfl
    exact absurd h.1 (by decide)
  simp only [isSpace, Bool.or_eq_false_iff, beq_eq_false_iff_ne, ne_eq, hspace,
    not_false_eq_true, Bool.and_eq_false_iff, decide_eq_false_iff_not, true_and]
  have hzero : ('0' : Char).val.toNat = 48 := rfl
  omega

/-- Reading digits stops at the first character that is not one, so that a string of digits
comes back as it was written, with the rest behind it. -/
theorem takeWhile_isDigit_append {ds rest : List Char} (hdigits : ∀ c ∈ ds, c.isDigit = true)
    (hrest : ∀ c t, rest = c :: t → c.isDigit = false) :
    (ds ++ rest).takeWhile Char.isDigit = ds ∧ (ds ++ rest).dropWhile Char.isDigit = rest := by
  induction ds with
  | nil =>
      cases rest with
      | nil => simp
      | cons c t => simp [hrest c t rfl]
  | cons d ds ih =>
      have hd := hdigits d List.mem_cons_self
      obtain ⟨htake, hdrop⟩ := ih fun c hc => hdigits c (List.mem_cons_of_mem d hc)
      simp [hd, htake, hdrop]

theorem readSign_of_isDigit {c : Char} (h : c.isDigit = true) (s : List Char) :
    readSign (c :: s) = (false, c :: s) := by
  unfold readSign
  split
  · next heq =>
      obtain ⟨rfl, -⟩ := List.cons.inj heq
      exact absurd h (by decide)
  · next heq =>
      obtain ⟨rfl, -⟩ := List.cons.inj heq
      exact absurd h (by decide)
  · rfl

/-- The strings that `strtol` reads as a whole, with what they denote: blanks, an optional
sign of either kind, and at least one digit.  It is the meaning of a number without a word
about how it is read, and bounds of types do not occur in it. -/
inductive Denotes : List Char → Int → Prop
  | numeral {s : List Char} {v : Int} (h : Numeral s v) : Denotes s v
  | plus {ds : List Char} (hne : ds ≠ []) (hdigits : ∀ c ∈ ds, c.isDigit = true) :
      Denotes ('+' :: ds) (digitsValue ds)
  | blank {c : Char} {s : List Char} {v : Int} (hc : isSpace c = true) (h : Denotes s v) :
      Denotes (c :: s) v

/-- The common part of all readers: the sign and the digits of a number, when no further
digit follows.  What the readers differ in, the range and the failures, comes after it. -/
theorem Denotes.scan {s rest : List Char} {v : Int} (h : Denotes s v)
    (hrest : ∀ c t, rest = c :: t → c.isDigit = false) :
    let signed := readSign ((s ++ rest).dropWhile isSpace)
    signed.2.takeWhile Char.isDigit ≠ [] ∧
      signedValue signed.1 (signed.2.takeWhile Char.isDigit) = v ∧
        signed.2.dropWhile Char.isDigit = rest := by
  induction h with
  | numeral hnum =>
      cases hnum with
      | nonneg hne hdigits =>
          obtain ⟨d, ds', rfl⟩ := List.exists_cons_of_ne_nil hne
          have hd := hdigits d List.mem_cons_self
          obtain ⟨htake, hdrop⟩ := takeWhile_isDigit_append hdigits hrest
          rw [List.cons_append] at htake hdrop ⊢
          rw [List.dropWhile_cons_of_neg (by simp [not_isSpace_of_isDigit hd]),
            readSign_of_isDigit hd]
          exact ⟨htake ▸ hne, by rw [htake]; rfl, hdrop⟩
      | neg hne hdigits =>
          obtain ⟨htake, hdrop⟩ := takeWhile_isDigit_append hdigits hrest
          rw [List.cons_append, List.dropWhile_cons_of_neg (by decide)]
          simp only [readSign, htake, hdrop]
          exact ⟨hne, rfl, trivial⟩
  | plus hne hdigits =>
      obtain ⟨htake, hdrop⟩ := takeWhile_isDigit_append hdigits hrest
      rw [List.cons_append, List.dropWhile_cons_of_neg (by decide)]
      simp only [readSign, htake, hdrop]
      exact ⟨hne, rfl, trivial⟩
  | blank hc h ih =>
      rw [List.cons_append, List.dropWhile_cons_of_pos hc]
      exact ih

theorem Denotes.blanks {blanks s : List Char} {v : Int}
    (hblanks : ∀ c ∈ blanks, isSpace c = true) (h : Denotes s v) : Denotes (blanks ++ s) v := by
  induction blanks with
  | nil => exact h
  | cons c blanks ih =>
      refine .blank (hblanks c List.mem_cons_self) (ih fun b hb => ?_)
      exact hblanks b (List.mem_cons_of_mem c hb)

/-- A number starts with a blank, a sign or a digit. -/
theorem Denotes.head {c : Char} {s : List Char} {v : Int} (h : Denotes (c :: s) v) :
    isSpace c = true ∨ c = '-' ∨ c = '+' ∨ c.isDigit = true := by
  cases h with
  | numeral hnum =>
      cases hnum with
      | nonneg hne hdigits => exact Or.inr (Or.inr (Or.inr (hdigits c List.mem_cons_self)))
      | neg hne hdigits => exact Or.inr (Or.inl rfl)
  | plus hne hdigits => exact Or.inr (Or.inr (Or.inl rfl))
  | blank hc h => exact Or.inl hc

/-- A number is read as its value if it fits, and refused otherwise. -/
theorem Denotes.readInt {s rest : List Char} {v : Int} (h : Denotes s v)
    (hrest : ∀ c t, rest = c :: t → c.isDigit = false) :
    readInt (s ++ rest) = if FitsInt v then some (v, rest) else none := by
  obtain ⟨hne, hvalue, hdrop⟩ := h.scan hrest
  unfold Decimal.readInt
  simp only [hvalue, hdrop, hne, ne_eq, not_false_eq_true, true_and]

/-- A numeral in range that is not followed by a digit is read as its value,
whatever blanks stand before it. -/
theorem readInt_numeral {blanks ds rest : List Char} {v : Int}
    (hblanks : ∀ c ∈ blanks, isSpace c = true) (hnum : Numeral ds v) (hfits : FitsInt v)
    (hrest : ∀ c t, rest = c :: t → c.isDigit = false) :
    readInt (blanks ++ ds ++ rest) = some (v, rest) := by
  have hdenotes := (Denotes.numeral hnum).blanks hblanks
  rw [hdenotes.readInt hrest, if_pos hfits]

/-- A string of digits behind an optional sign is a number. -/
theorem denotes_of_readSign {s : List Char} (hne : (readSign s).2 ≠ [])
    (hdigits : ∀ c ∈ (readSign s).2, c.isDigit = true) : ∃ v, Denotes s v := by
  revert hne hdigits
  unfold readSign
  split
  · exact fun hne hdigits => ⟨_, .numeral (.neg hne hdigits)⟩
  · exact fun hne hdigits => ⟨_, .plus hne hdigits⟩
  · exact fun hne hdigits => ⟨_, .numeral (.nonneg hne hdigits)⟩

/-- `strtol` reads a string to its end iff it is a number, or empty.  That an empty string
counts is what a test for the end of the string overlooks. -/
theorem strtolEnd_eq_nil_iff {s : List Char} :
    strtolEnd s = [] ↔ s = [] ∨ ∃ v, Denotes s v := by
  constructor
  · intro h
    simp only [strtolEnd] at h
    split at h
    case isTrue hne =>
      -- nothing is left behind the digits, so everything is one
      rw [List.dropWhile_eq_nil_iff] at h
      have hsigned : (readSign (s.dropWhile isSpace)).2 ≠ [] := by
        intro hnil
        exact hne (by rw [hnil]; rfl)
      obtain ⟨v, hv⟩ := denotes_of_readSign hsigned h
      have hblanks : ∀ c ∈ s.takeWhile isSpace, isSpace c = true := fun c hc =>
        List.mem_takeWhile_imp hc
      have hall := hv.blanks hblanks
      rw [List.takeWhile_append_dropWhile] at hall
      exact Or.inr ⟨v, hall⟩
    case isFalse => exact Or.inl h
  · rintro (rfl | ⟨v, hv⟩)
    · rfl
    · have hnothing : ∀ (c : Char) (t : List Char), [] = c :: t → c.isDigit = false :=
        fun c t h => nomatch h
      have hscan := hv.scan hnothing
      rw [List.append_nil] at hscan
      simp only [strtolEnd]
      rw [if_pos hscan.1]
      exact hscan.2.2

/-- Output of an `int` is a numeral for it.  With the reader of numerals this is the round
trip of every number that the program writes. -/
theorem numeral_showInt (n : Int) : Numeral (showInt n) n := by
  have hne : ∀ k, Nat.toDigits 10 k ≠ [] := fun k => Nat.toDigits_ne_nil
  have hdigits : ∀ k, ∀ c ∈ Nat.toDigits 10 k, c.isDigit = true := fun k c hc =>
    Nat.isDigit_of_mem_toDigits (by omega) (by omega) hc
  have hvalue : ∀ k, digitsValue (Nat.toDigits 10 k) = k := fun k =>
    Nat.ofDigitChars_ten_toDigits
  rw [showInt]
  split
  · next hneg =>
      have h := Numeral.neg (hne n.natAbs) (hdigits n.natAbs)
      rw [hvalue] at h
      rwa [show -((n.natAbs : Nat) : Int) = n by omega] at h
  · next hnonneg =>
      have h := Numeral.nonneg (hne n.natAbs) (hdigits n.natAbs)
      rw [hvalue] at h
      rwa [show ((n.natAbs : Nat) : Int) = n by omega] at h

/-- Nothing is read from blanks. -/
theorem readInt_blanks {blanks : List Char} (hblanks : ∀ c ∈ blanks, isSpace c = true) :
    readInt blanks = none := by
  have hnil : blanks.dropWhile isSpace = [] := by
    rwa [List.dropWhile_eq_nil_iff]
  simp [readInt, hnil, readSign]

/-- A string goes on behind its C string, if at all, with the null character. -/
theorem exists_cString_append (s : List Char) :
    ∃ rest, s = cString s ++ rest ∧ ∀ c t, rest = c :: t → c = Char.ofNat 0 := by
  refine ⟨s.dropWhile fun c => c.toNat ≠ 0, List.takeWhile_append_dropWhile.symm, ?_⟩
  intro c t heq
  have hne : (s.dropWhile fun c => decide (c.toNat ≠ 0)) ≠ [] := heq ▸ List.cons_ne_nil c t
  have hhead := List.head_dropWhile_not (fun c : Char => decide (c.toNat ≠ 0)) hne
  simp only [heq, List.head_cons, decide_eq_false_iff_not, not_not] at hhead
  exact Char.toNat_inj.mp hhead

/-- Nothing is read from the null character on. -/
theorem readInt_null {rest : List Char} (h : ∀ c t, rest = c :: t → c = Char.ofNat 0) :
    readInt rest = none := by
  cases rest with
  | nil => rfl
  | cons c t =>
      obtain rfl := h c t rfl
      rfl

/-- Reading stops at the null character by itself: what `readInt` finds in a string is what
it finds in its C string. -/
theorem readInt_cString {s : List Char} {v : Int} (h : Denotes (cString s) v) :
    (readInt s).map Prod.fst = if FitsInt v then some v else none := by
  obtain ⟨rest, hs, hnull⟩ := exists_cString_append s
  have hrest : ∀ c t, rest = c :: t → c.isDigit = false := by
    intro c t heq
    rw [hnull c t heq]
    rfl
  rw [hs, h.readInt hrest]
  split <;> rfl

end Decimal
