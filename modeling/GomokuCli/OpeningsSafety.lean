import GomokuCli.Openings

/-!
# What the openings object divides by and where it reads

`next` once more, with the faults of its arithmetic and of its accesses to `index[]`.
Where nothing faults it is `Openings.next` (`nextChecked_eq`).

Nothing faults as long as the index has an entry, and it has one exactly when the
file has a character that is not a carriage return.  Neither the constructor nor `next`
looks at the size: from an empty index the shuffle counts down from the largest number
(`load_eq`), and `next` takes a remainder by zero.
-/

namespace GomokuCli

namespace Openings

/-- `Openings::next`; there is no answer when the program dies.  The remainder and the
access to the index come before anything is read from the file. -/
def nextChecked (o : Openings) (idx : ℕ) :
    Except Checked.Fault (Option ((List Char × ℕ) × Openings)) :=
  match o.file with
  | none => return some (([], 0), o)
  | some file => do
      let offset ← Checked.get o.index (← Checked.mod idx o.index.size)
      let (length, line, file) := stringGetline { file with offset := offset }
      if length = 0 then return none
      let round ← Checked.div idx o.index.size
      return some ((line, round), { o with file := some file })

/-- Some calls of `next` without a fault lead from one state to another. -/
def ServingChecked : Openings → Openings → Prop :=
  Relation.ReflTransGen fun o o' => ∃ idx answer, o.nextChecked idx = .ok (some (answer, o'))

/-! ## With an entry in the index -/

variable {content : List Char}

/-- The index has an entry iff the file has a line.  A file of carriage returns only has
none, though it is not empty. -/
theorem lineStarts_ne_nil_iff (content : List Char) :
    lineStarts content ≠ [] ↔ ∃ c ∈ content, c ≠ '\r' := by
  rw [lineStarts_eq]
  constructor
  · intro hne
    by_contra hnone
    exact hne (startsFrom_of_end hnone)
  · intro hsome
    have hstart : LineStart content 0 := ⟨Or.inl rfl, hsome⟩
    rw [startsFrom_of_line hstart]
    exact List.cons_ne_nil _ _

/-- **`next`** faults only on an empty index.  With an entry in it the remainder is inside
the index. -/
theorem nextChecked_eq (o : Openings) (idx : ℕ) :
    o.nextChecked idx =
      if o.file.isSome ∧ o.index.size = 0 then .error .divisionByZero else .ok (o.next idx) := by
  unfold nextChecked next
  cases hfile : o.file with
  | none => rfl
  | some file =>
      by_cases hempty : o.index.size = 0
      · rw [if_pos ⟨rfl, hempty⟩, hempty, Checked.mod_zero]
        rfl
      · have hpos := Nat.pos_of_ne_zero hempty
        have hlt : idx % o.index.size < o.index.size := Nat.mod_lt _ hpos
        have hget : o.index.getD (idx % o.index.size) 0 = o.index[idx % o.index.size] := by
          rw [Array.getD_eq_getD_getElem?, Array.getElem?_eq_getElem hlt, Option.getD_some]
        rw [if_neg (fun h => hempty h.2), Checked.mod_eq_ok hpos, Checked.div_eq_ok hpos, hget]
        change (Checked.get o.index (idx % o.index.size) >>= _) = _
        rw [Checked.get_eq_ok hlt]
        by_cases hend : (stringGetline { file with
            offset := o.index[idx % o.index.size] }).1 = 0
        · simp only [bind, Except.bind, hend, if_true]
          rfl
        · simp only [bind, Except.bind, hend, if_false]
          rfl

/-! ## A run of games -/

/-- Nothing faults: the file is loaded, and whatever has been served, the next opening is.
It is said of every game index, and of every order of the calls. -/
def Safe (content : List Char) (random : Bool) (srand msec : UInt64) : Prop :=
  ∃ o, load content random srand msec = some (.ok o) ∧
    ∀ o', ServingChecked o o' → ∀ idx, ∃ answer, o'.nextChecked idx = .ok answer

theorem serving_of_checked {o o' : Openings} (h : ServingChecked o o') : Serving o o' := by
  induction h with
  | refl => exact .refl
  | tail _ hnext ih =>
      obtain ⟨idx, answer, hnext⟩ := hnext
      rw [nextChecked_eq] at hnext
      split_ifs at hnext
      exact ih.tail ⟨idx, answer, Except.ok.inj hnext⟩

/-- **A file with a line** is loaded and served without a fault.  The index never changes
after the constructor, and so one entry is enough for good. -/
theorem safe_of_lineStarts {content : List Char} (hlines : lineStarts content ≠ [])
    (random : Bool) (srand msec : UInt64) : Safe content random srand msec := by
  obtain ⟨o, file, hload, hfile, hcontent, hindex, -⟩ := new_eq hlines random srand msec
  refine ⟨o, hload, fun o' hserving idx => ?_⟩
  · have hreads : Reads content o := ⟨⟨file, hfile, hcontent⟩, hindex⟩
    have hsize : o'.index.size ≠ 0 := by
      rw [((hreads.of_serving hlines (serving_of_checked hserving)).1).size]
      exact mt List.length_eq_zero_iff.mp hlines
    rw [nextChecked_eq, if_neg (fun h => hsize h.2)]
    exact ⟨_, rfl⟩

/-- **A file without lines** is not: the shuffle faults, or the first opening
does. -/
theorem not_safe_of_lineStarts {content : List Char} (hlines : lineStarts content = [])
    (random : Bool) (srand msec : UInt64) : ¬Safe content random srand msec := by
  rintro ⟨o, hload, hserved⟩
  obtain ⟨file, -, hload'⟩ := load_eq content random srand msec
  rw [hload, Option.some.injEq] at hload'
  have hordered : random = false := by
    cases random with
    | false => rfl
    | true =>
        rw [if_pos ⟨rfl, hlines⟩] at hload'
        cases hload'
  subst hordered
  rw [if_neg fun h => Bool.false_ne_true h.1, hlines] at hload'
  cases hload'
  -- the index has no entry to begin with
  obtain ⟨answer, hnext⟩ := hserved _ Relation.ReflTransGen.refl 0
  rw [nextChecked_eq, if_pos ⟨rfl, rfl⟩] at hnext
  cases hnext

/-- **Loading and serving are free of faults** for every seed, order and game index exactly
when the file has a character that is not a carriage return.  Neither the seed nor the order
matters, although the fault is another one in each order. -/
theorem safe_iff (content : List Char) (random : Bool) (srand msec : UInt64) :
    Safe content random srand msec ↔ ∃ c ∈ content, c ≠ '\r' := by
  rw [← lineStarts_ne_nil_iff]
  constructor
  · intro hsafe hlines
    exact not_safe_of_lineStarts hlines random srand msec hsafe
  · intro hlines
    exact safe_of_lineStarts hlines random srand msec

/-- An empty file, in the order of the file and shuffled. -/
theorem not_safe_empty :
    ¬Safe [] false 0 1 ∧ load [] true 0 1 = some (.error .wrapAround) := by
  refine ⟨not_safe_of_lineStarts rfl false 0 1, ?_⟩
  obtain ⟨file, -, hload⟩ := load_eq [] true 0 1
  rw [hload, if_pos ⟨rfl, rfl⟩]

end Openings

end GomokuCli
