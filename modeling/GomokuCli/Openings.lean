import GomokuCli.Game
import GomokuCli.Library.Checked

/-!
# The openings file

The constructor reads the file once to find where its lines start, and shuffles
the offsets if asked to; `next` goes to one of them and reads the line again.  The
offsets are found by reading: `string_getline` returns zero only at the end of the
file, and the offset noted right before that is taken off again.

`LineStart` says what a line is without reading anything, and the main result is
that the offsets are those of the lines, each once, in whatever order, so that a
run of games goes through all openings, and with `-transform` through all
transforms of each of them.

The constructor looks at the size of the index only when it shuffles, and does not look
whether there is anything to shuffle.  Its operations therefore return the fault that
the machine does not report; it is the shuffle of a file without lines, and no other
(`Openings.load_eq`).

The branch for Windows, where the runtime translates line ends by itself, is left
out.  Offsets are natural numbers.
-/

namespace GomokuCli

/-- `prng`: the number and the next state. -/
def prng (state : UInt64) : UInt64 × UInt64 :=
  let state := state + 0x9E3779B97F4A7C15
  let rnd := state
  let rnd := (rnd ^^^ (rnd >>> 30)) * 0xBF58476D1CE4E5B9
  let rnd := (rnd ^^^ (rnd >>> 27)) * 0x94D049BB133111EB
  (rnd ^^^ (rnd >>> 31), state)

/-- A `FILE` that is open for reading. -/
structure InputFile where
  content : List Char
  /-- `ftell` -/
  offset : Nat

/-- The loop of `string_getline` over what is left of the file: `out`, whether a
newline has ended the loop, and how many characters were taken. -/
def getlineLoop (out : List Char) (taken : Nat) : List Char → List Char × Bool × Nat
  | [] => (out, false, taken)
  | c :: rest =>
      if c = '\r' then getlineLoop out (taken + 1) rest
      else if c ≠ '\n' then getlineLoop (out ++ [c]) (taken + 1) rest
      else (out, true, taken + 1)

/-- `string_getline`: the returned value, `out`, and the file afterwards. -/
def stringGetline (file : InputFile) : Nat × List Char × InputFile :=
  let (out, newline, taken) := getlineLoop [] 0 (file.content.drop file.offset)
  (out.length + (if newline then 1 else 0), out, { file with offset := file.offset + taken })

/-- `class Openings`. -/
structure Openings where
  file : Option InputFile
  index : Array Nat

namespace Openings

/-- `do index.push_back(ftell(file)); while (string_getline(line, file));` Every line but
the last takes a character from the file, so the loop ends (`offsetsLoop_eq`).  The offset
at the end of the file is noted as well, and taken off later. -/
def offsetsLoop : Nat → Array Nat → InputFile → Option (Array Nat × InputFile)
  | 0, _, _ => none
  | n + 1, index, file =>
      let index := index.push file.offset
      let (length, _, file) := stringGetline file
      if length ≠ 0 then offsetsLoop n index file else some (index, file)

/-- `for (size_t i = …; i > 0; i--)` of the shuffle, from the counter at `i`.  The
decrement comes behind the test. -/
def shuffleChecked : Nat → UInt64 → Array Nat → Except Checked.Fault (Array Nat)
  | 0, _, index => return index
  | i + 1, seed, index => do
      let (rnd, seed) := prng seed
      let j ← Checked.mod rnd.toNat (i + 1 + 1)
      let index ← Checked.swap index (i + 1) j
      shuffleChecked i seed index

/-- What the constructor does with the offsets it has read.  It takes the last one off, and
shuffles the others if asked to, with a counter that starts at their number minus one. -/
def arrange (random : Bool) (srand msec : UInt64) (index : Array Nat) :
    Except Checked.Fault (Array Nat) := do
  let index ← Checked.pop index
  if random then
    let seed := if srand ≠ 0 then srand else msec
    -- `size_t i = index.size() - 1`
    let i ← Checked.pred index.size
    shuffleChecked i seed index
  else return index

/-- `Openings::Openings` on a file.  Only the loop that reads could fail to end, and it
does end (`load_eq`). -/
def load (content : List Char) (random : Bool) (srand msec : UInt64) :
    Option (Except Checked.Fault Openings) := do
  let (index, file) ← offsetsLoop (content.length + 2) #[] { content := content, offset := 0 }
  return do
    let index ← arrange random srand msec index
    return { file := some file, index := index }

/-- `Openings::Openings`.  There is no content when no file name is given; `msec` is
the value of `system_msec`. -/
def new (content : Option (List Char)) (random : Bool) (srand msec : UInt64) :
    Option (Except Checked.Fault Openings) :=
  match content with
  | none => some (.ok { file := none, index := #[] })
  | some content => load content random srand msec

/-- `Openings::next`: the opening and the round, or `none` when the program dies, as it
also does with an index that has no entries. -/
def next (o : Openings) (idx : Nat) : Option ((List Char × Nat) × Openings) :=
  match o.file with
  | none => some (([], 0), o)
  | some file =>
      let file := { file with offset := o.index.getD (idx % o.index.size) 0 }
      let (length, line, file) := stringGetline file
      if length = 0 then none
      else some ((line, idx / o.index.size), { o with file := some file })

end Openings

/-! ## Lines -/

/-- The text of the line that a list of characters begins with. -/
def lineText (rest : List Char) : List Char :=
  (rest.takeWhile (· ≠ '\n')).filter (· ≠ '\r')

/-- The number of characters of this line, with its newline. -/
def lineLength (rest : List Char) : Nat :=
  (rest.takeWhile (· ≠ '\n')).length + if '\n' ∈ rest then 1 else 0

/-- A line starts at the offset `s`: at the start of the file or behind a newline, with
something to come that is not a carriage return.  A line may be blank, and the last one need
not end in a newline. -/
def LineStart (content : List Char) (s : Nat) : Prop :=
  (s = 0 ∨ content[s - 1]? = some '\n') ∧ ∃ c ∈ content.drop s, c ≠ '\r'

instance (content : List Char) (s : Nat) : Decidable (LineStart content s) :=
  -- only the characters of the file are tried
  have : Decidable (∃ c ∈ content.drop s, c ≠ '\r') := List.decidableBEx _ _
  inferInstanceAs (Decidable (_ ∧ _))

/-- The start offsets of the lines, in the order of the file. -/
def lineStarts (content : List Char) : List Nat :=
  (List.range content.length).filter (LineStart content)

theorem getlineLoop_eq (rest out : List Char) (taken : Nat) :
    getlineLoop out taken rest =
      (out ++ lineText rest, decide ('\n' ∈ rest), taken + lineLength rest) := by
  induction rest generalizing out taken with
  | nil => simp [getlineLoop, lineText, lineLength]
  | cons c rest ih =>
      rw [getlineLoop]
      by_cases hcr : c = '\r'
      · subst hcr
        rw [if_pos rfl, ih]
        simp [lineText, lineLength]
        omega
      rw [if_neg hcr]
      by_cases hnl : c = '\n'
      · subst hnl
        simp [lineText, lineLength]
      · rw [if_pos hnl, ih]
        simp [lineText, lineLength, hcr, hnl, Ne.symm hnl]
        omega

theorem stringGetline_eq (file : InputFile) :
    stringGetline file =
      ((lineText (file.content.drop file.offset)).length +
          (if '\n' ∈ file.content.drop file.offset then 1 else 0),
        lineText (file.content.drop file.offset),
        { file with offset := file.offset + lineLength (file.content.drop file.offset) }) := by
  rw [stringGetline, getlineLoop_eq]
  simp

/-- `string_getline` returns zero iff nothing but carriage returns is left.  A blank line
counts its newline, and so it is not taken for the end of the file. -/
theorem getline_eq_zero_iff (rest : List Char) :
    (lineText rest).length + (if '\n' ∈ rest then 1 else 0) = 0 ↔ ¬ ∃ c ∈ rest, c ≠ '\r' := by
  constructor
  · rintro hzero ⟨c, hc, hne⟩
    have hnl : '\n' ∉ rest := by
      intro hnl
      rw [if_pos hnl] at hzero
      omega
    have hall : rest.takeWhile (· ≠ '\n') = rest := by
      rw [List.takeWhile_eq_self_iff]
      intro c hc
      have hcne : c ≠ '\n' := fun heq => hnl (heq ▸ hc)
      simpa using hcne
    have hmem : c ∈ lineText rest := by
      rw [lineText, hall, List.mem_filter]
      exact ⟨hc, by simpa using hne⟩
    have := List.length_pos_of_mem hmem
    omega
  · intro hnone
    have hnl : '\n' ∉ rest := fun hnl => hnone ⟨'\n', hnl, by decide⟩
    have htext : lineText rest = [] := by
      rw [lineText, List.filter_eq_nil_iff]
      intro c hc hcr
      refine hnone ⟨c, List.IsPrefix.subset (List.takeWhile_prefix _) hc, ?_⟩
      simpa using hcr
    rw [htext, if_neg hnl]
    rfl

/-! ### How far a line goes -/

section Lines

variable {rest : List Char}

/-- Inside a line there is no newline before its last character. -/
theorem getElem?_ne_newline {j : Nat} (hj : j + 1 < lineLength rest) :
    rest[j]? ≠ some '\n' := by
  have hlt : j < (rest.takeWhile (· ≠ '\n')).length := by
    unfold lineLength at hj
    split at hj <;> omega
  have hprefix : rest.takeWhile (· ≠ '\n') <+: rest := List.takeWhile_prefix _
  have hget : rest[j]? = some (rest.takeWhile (· ≠ '\n'))[j] := by
    rw [List.prefix_iff_getElem?.mp hprefix j hlt]
  rw [hget]
  have hmem := List.mem_takeWhile_imp (List.getElem_mem hlt)
  intro heq
  rw [Option.some.injEq] at heq
  rw [heq] at hmem
  simp at hmem

theorem lineLength_le : lineLength rest ≤ rest.length := by
  have hle := (List.takeWhile_prefix (l := rest) fun c => decide (c ≠ '\n')).length_le
  unfold lineLength
  split
  · next hnl =>
      have hne : (rest.takeWhile (· ≠ '\n')).length ≠ rest.length := by
        intro heq
        have hself := (List.takeWhile_prefix (l := rest) fun c => decide (c ≠ '\n')).eq_of_length
          heq
        have hmem := List.mem_takeWhile_imp (hself.symm ▸ hnl)
        simp at hmem
      omega
  · exact hle

theorem lineLength_pos (h : rest ≠ []) : 0 < lineLength rest := by
  unfold lineLength
  cases rest with
  | nil => exact absurd rfl h
  | cons c rest =>
      by_cases hc : c = '\n'
      · subst hc
        simp
      · rw [List.takeWhile_cons_of_pos (by simpa using hc), List.length_cons]
        omega

/-- A line ends with its newline, or with the file. -/
theorem lineLength_end :
    rest[lineLength rest - 1]? = some '\n' ∨ lineLength rest = rest.length := by
  by_cases hnl : '\n' ∈ rest
  · left
    have hlen : lineLength rest - 1 = (rest.takeWhile (· ≠ '\n')).length := by
      rw [lineLength, if_pos hnl, Nat.add_sub_cancel]
    have hdrop : rest.dropWhile (· ≠ '\n') ≠ [] := by
      intro hnil
      have hall := List.dropWhile_eq_nil_iff.mp hnil '\n' hnl
      simp at hall
    have hhead := List.head_dropWhile_not (fun c => decide (c ≠ '\n')) hdrop
    have hsplit := List.takeWhile_append_dropWhile (p := fun c => decide (c ≠ '\n')) (l := rest)
    have hget : (rest.takeWhile (· ≠ '\n') ++ rest.dropWhile (· ≠ '\n'))[
        (rest.takeWhile (· ≠ '\n')).length]? = some '\n' := by
      rw [List.getElem?_append_right (le_refl _), Nat.sub_self, ← List.head?_eq_getElem?,
        List.head?_eq_some_head hdrop]
      simpa using hhead
    rw [hlen]
    rwa [hsplit] at hget
  · right
    have hall : rest.takeWhile (· ≠ '\n') = rest := by
      rw [List.takeWhile_eq_self_iff]
      intro c hc
      have hcne : c ≠ '\n' := fun heq => hnl (heq ▸ hc)
      simpa using hcne
    rw [lineLength, hall, if_neg hnl, Nat.add_zero]

end Lines

/-! ## The offsets -/

section Starts

variable {content : List Char} {s : Nat}

/-- The lines that start at `s` or behind it. -/
def startsFrom (content : List Char) (s : Nat) : List Nat :=
  (List.range' s (content.length - s)).filter (LineStart content)

theorem lineStarts_eq (content : List Char) : lineStarts content = startsFrom content 0 := by
  rw [lineStarts, startsFrom, List.range_eq_range', Nat.sub_zero]

/-- When only carriage returns are left, no further line starts. -/
theorem startsFrom_of_end (h : ¬ ∃ c ∈ content.drop s, c ≠ '\r') :
    startsFrom content s = [] := by
  rw [startsFrom, List.filter_eq_nil_iff]
  intro t ht hstart
  have hst : s ≤ t := (List.mem_range'_1.mp ht).1
  obtain ⟨-, c, hc, hne⟩ := of_decide_eq_true hstart
  refine h ⟨c, ?_, hne⟩
  have hdrop : content.drop t = (content.drop s).drop (t - s) := by
    rw [List.drop_drop, Nat.add_sub_cancel' hst]
  rw [hdrop] at hc
  exact List.mem_of_mem_drop hc

/-- The next line starts where this one ends.  This is what the loop of the constructor
relies on, which reads a line to find the next. -/
theorem startsFrom_of_line (hstart : LineStart content s) :
    startsFrom content s =
      s :: startsFrom content (s + lineLength (content.drop s)) := by
  have hne : content.drop s ≠ [] := by
    obtain ⟨-, c, hc, -⟩ := hstart
    exact List.ne_nil_of_mem hc
  have hpos := lineLength_pos hne
  have hle : lineLength (content.drop s) ≤ content.length - s := by
    rw [← List.length_drop]
    exact lineLength_le
  -- no line starts between the first character of this line and its end
  have hinside : (List.range' (s + 1) (lineLength (content.drop s) - 1)).filter
      (LineStart content) = [] := by
    rw [List.filter_eq_nil_iff]
    intro t ht hline
    rw [List.mem_range'_1] at ht
    obtain ⟨hzero | hnewline, -⟩ := of_decide_eq_true hline
    · omega
    · have hnone : (content.drop s)[t - 1 - s]? ≠ some '\n' := getElem?_ne_newline (by omega)
      rw [List.getElem?_drop, show s + (t - 1 - s) = t - 1 by omega] at hnone
      exact hnone hnewline
  have hsplit : List.range' s (content.length - s) =
      s :: List.range' (s + 1) (lineLength (content.drop s) - 1) ++
        List.range' (s + lineLength (content.drop s))
          (content.length - (s + lineLength (content.drop s))) := by
    rw [← List.range'_succ, Nat.sub_add_cancel hpos, List.range'_append_1]
    congr 1
    omega
  rw [startsFrom, hsplit, List.filter_append, List.filter_cons, if_pos (decide_eq_true hstart),
    hinside]
  rfl

/-- **The loop of the constructor** notes every line from where it is on, and one
offset more, where it ends. -/
theorem offsetsLoop_eq (content : List Char) (n s : Nat) (index : Array Nat)
    (hs : (s = 0 ∨ content[s - 1]? = some '\n') ∨ content.length ≤ s)
    (hn : content.length - s < n) :
    ∃ last file, Openings.offsetsLoop n index { content := content, offset := s } =
        some ((index ++ (startsFrom content s).toArray).push last, file) ∧
      file.content = content := by
  induction n generalizing s index with
  | zero => omega
  | succ n ih =>
      have hzero := getline_eq_zero_iff (content.drop s)
      rw [Openings.offsetsLoop, stringGetline_eq]
      by_cases hend : ∃ c ∈ content.drop s, c ≠ '\r'
      · -- one more line is read
        have hne : content.drop s ≠ [] := by
          obtain ⟨c, hc, -⟩ := hend
          exact List.ne_nil_of_mem hc
        have hlt : s < content.length := by
          by_contra hout
          exact hne (List.drop_eq_nil_of_le (by omega))
        have hstart : LineStart content s := ⟨hs.resolve_right (by omega), hend⟩
        have hpos := lineLength_pos hne
        have hnext : (s + lineLength (content.drop s) = 0 ∨
            content[s + lineLength (content.drop s) - 1]? = some '\n') ∨
              content.length ≤ s + lineLength (content.drop s) := by
          obtain hnewline | hall : (content.drop s)[lineLength (content.drop s) - 1]? =
              some '\n' ∨ lineLength (content.drop s) = (content.drop s).length := lineLength_end
          · left; right
            rw [List.getElem?_drop] at hnewline
            rwa [Nat.add_sub_assoc hpos]
          · right
            rw [hall, List.length_drop]
            omega
        obtain ⟨last, file, hloop, hfile⟩ := ih (s + lineLength (content.drop s))
          (index.push s) hnext (by omega)
        refine ⟨last, file, ?_, hfile⟩
        rw [startsFrom_of_line hstart]
        simp only [ne_eq, mt hzero.mp (not_not.mpr hend), not_false_eq_true, if_true]
        rw [hloop]
        simp
      · refine ⟨s, { content := content, offset := s + lineLength (content.drop s) }, ?_, rfl⟩
        simp only [ne_eq, hzero.mpr hend, not_true_eq_false, if_false]
        rw [startsFrom_of_end hend]
        simp

end Starts

/-! ## The constructor -/

namespace Openings

theorem swapIfInBounds_perm (index : Array Nat) (i j : Nat) :
    (index.swapIfInBounds i j).Perm index := by
  rw [Array.swapIfInBounds_def]
  split
  · split
    · exact Array.swap_perm _ _
    · exact Array.Perm.refl _
  · exact Array.Perm.refl _

/-- The shuffle without the faults of its operations.  It is equal to the one with faults
whenever there is something to shuffle. -/
def shuffleLoop : Nat → UInt64 → Array Nat → Array Nat
  | 0, _, index => index
  | i + 1, seed, index =>
      let (rnd, seed) := prng seed
      let j := rnd.toNat % (i + 1 + 1)
      shuffleLoop i seed (index.swapIfInBounds (i + 1) j)

/-- **The shuffle** is a permutation, whatever the numbers are, because each round exchanges
two entries. -/
theorem shuffleLoop_perm (i : Nat) (seed : UInt64) (index : Array Nat) :
    (shuffleLoop i seed index).Perm index := by
  induction i generalizing seed index with
  | zero => exact Array.Perm.refl index
  | succ i ih => exact (ih _ _).trans (swapIfInBounds_perm _ _ _)

/-- **The shuffle** stays inside the vector.  Each number is taken modulo the number of
entries that are left, so both entries exist. -/
theorem shuffleChecked_eq (i : Nat) (seed : UInt64) (index : Array Nat) (hi : i < index.size) :
    shuffleChecked i seed index = .ok (shuffleLoop i seed index) := by
  induction i generalizing seed index with
  | zero => rfl
  | succ i ih =>
      have hj : (prng seed).1.toNat % (i + 1 + 1) < index.size :=
        (Nat.mod_lt _ (Nat.succ_pos _)).trans_le hi
      have hsize : (index.swapIfInBounds (i + 1) ((prng seed).1.toNat % (i + 1 + 1))).size =
          index.size := (swapIfInBounds_perm _ _ _).size_eq
      calc shuffleChecked (i + 1) seed index
          = (Checked.mod (prng seed).1.toNat (i + 1 + 1) >>= fun j =>
              Checked.swap index (i + 1) j >>= shuffleChecked i (prng seed).2) := rfl
        _ = (Checked.swap index (i + 1) ((prng seed).1.toNat % (i + 1 + 1)) >>=
              shuffleChecked i (prng seed).2) := by
            rw [Checked.mod_eq_ok (Nat.succ_pos _)]
            rfl
        _ = shuffleChecked i (prng seed).2
              (index.swapIfInBounds (i + 1) ((prng seed).1.toNat % (i + 1 + 1))) := by
            rw [Checked.swap_eq_ok hi hj]
            rfl
        _ = _ := ih _ _ (by omega)

/-- The offsets are arranged without a fault iff there is nothing to shuffle, or
something is left when the last one has been removed. -/
theorem arrange_push (random : Bool) (srand msec : UInt64) (index : Array Nat) (last : Nat) :
    arrange random srand msec (index.push last) =
      if random = true ∧ index.size = 0 then .error .wrapAround
      else .ok (if random then
        shuffleLoop (index.size - 1) (if srand ≠ 0 then srand else msec) index else index) := by
  have hpop : Checked.pop (index.push last) = .ok index := by
    rw [Checked.pop_eq_ok (by rw [Array.size_push]; omega), Array.pop_push]
  rw [arrange, hpop]
  cases random with
  | false => rfl
  | true =>
      change (Checked.pred index.size >>= fun i =>
        shuffleChecked i (if srand ≠ 0 then srand else msec) index) = _
      by_cases hempty : index.size = 0
      · have hfault : true = true ∧ index.size = 0 := ⟨rfl, hempty⟩
        rw [if_pos hfault, hempty, Checked.pred_zero]
        rfl
      · have hnone : ¬(true = true ∧ index.size = 0) := fun h => hempty h.2
        rw [if_neg hnone, Checked.pred_eq_ok (Nat.pos_of_ne_zero hempty)]
        exact shuffleChecked_eq _ _ _ (by omega)

/-- **What the constructor makes of a file.**  Its loop ends with the offsets of the
lines, and nothing faults but the shuffle of a file without lines, whose counter starts
below zero. -/
theorem load_eq (content : List Char) (random : Bool) (srand msec : UInt64) :
    ∃ file : InputFile, file.content = content ∧ load content random srand msec = some
      (if random = true ∧ lineStarts content = [] then .error .wrapAround
      else .ok
        { file := some file
          index := if random then
              shuffleLoop ((lineStarts content).length - 1)
                (if srand ≠ 0 then srand else msec) (lineStarts content).toArray
            else (lineStarts content).toArray }) := by
  obtain ⟨last, file, hloop, hfile⟩ := offsetsLoop_eq content (content.length + 2) 0 #[]
    (Or.inl (Or.inl rfl)) (by omega)
  rw [Array.empty_append, ← lineStarts_eq] at hloop
  refine ⟨file, hfile, ?_⟩
  rw [load, hloop]
  change some (arrange random srand msec ((lineStarts content).toArray.push last) >>= _) = _
  rw [arrange_push, List.size_toArray]
  by_cases hempty : random = true ∧ lineStarts content = []
  · rw [if_pos hempty, if_pos ⟨hempty.1, List.length_eq_zero_iff.mpr hempty.2⟩]
    rfl
  · rw [if_neg hempty, if_neg fun h => hempty ⟨h.1, List.length_eq_zero_iff.mp h.2⟩]
    rfl

/-- A file with lines is loaded, and the index holds where they start, in the order of the
file if it is not shuffled. -/
theorem new_eq {content : List Char} (hlines : lineStarts content ≠ []) (random : Bool)
    (srand msec : UInt64) :
    ∃ o file, new (some content) random srand msec = some (.ok o) ∧ o.file = some file ∧
      file.content = content ∧ o.index.toList.Perm (lineStarts content) ∧
      (random = false → o.index.toList = lineStarts content) := by
  obtain ⟨file, hfile, hload⟩ := load_eq content random srand msec
  rw [if_neg fun h => hlines h.2] at hload
  refine ⟨_, file, hload, rfl, hfile, ?_, ?_⟩
  · cases random with
    | false => exact List.Perm.refl _
    | true => exact (shuffleLoop_perm _ _ (lineStarts content).toArray).toList
  · rintro rfl
    rfl

/-! ## Serving the games -/

/-- Some calls of `next` lead from one state of the object to another, with any indices and
in any order. -/
def Serving : Openings → Openings → Prop :=
  Relation.ReflTransGen fun o o' => ∃ idx answer, o.next idx = some (answer, o')

/-- `index[idx % index.size()]` -/
def offsetAt (o : Openings) (idx : Nat) : Nat := o.index.getD (idx % o.index.size) 0

/-- **The invariant of the object**: it reads the file `content` and goes through all its
lines.  A call of `next` only moves the place in the file, where nothing depends on it. -/
structure Reads (content : List Char) (o : Openings) : Prop where
  file : ∃ file, o.file = some file ∧ file.content = content
  index : o.index.toList.Perm (lineStarts content)

variable {content : List Char} {o o' : Openings}

theorem Reads.size (h : Reads content o) : o.index.size = (lineStarts content).length := by
  rw [← h.index.length_eq, Array.length_toList]

theorem nodup_lineStarts (content : List Char) : (lineStarts content).Nodup :=
  List.nodup_range.filter _

/-- Every index leads to a line. -/
theorem Reads.lineStart_offsetAt (h : Reads content o) (hlines : lineStarts content ≠ [])
    (idx : Nat) : LineStart content (o.offsetAt idx) := by
  have hlt : idx % o.index.size < o.index.size := by
    apply Nat.mod_lt
    rw [h.size]
    exact List.length_pos_of_ne_nil hlines
  have hmem : o.offsetAt idx ∈ lineStarts content := by
    rw [offsetAt, Array.getD_eq_getD_getElem?, Array.getElem?_eq_getElem hlt, Option.getD_some]
    exact h.index.subset (Array.getElem_mem_toList hlt)
  exact of_decide_eq_true (List.mem_filter.mp hmem).2

/-- **`next`** reads the line again, and leaves the object as it was but for the
place in the file. -/
theorem Reads.next_eq (h : Reads content o) (hlines : lineStarts content ≠ []) (idx : Nat) :
    ∃ o', o.next idx = some ((lineText (content.drop (o.offsetAt idx)),
        idx / (lineStarts content).length), o') ∧
      Reads content o' ∧ o'.index = o.index := by
  obtain ⟨⟨content', offset⟩, hfile, rfl⟩ := h.file
  have hline := h.lineStart_offsetAt hlines idx
  have hlength := mt (getline_eq_zero_iff (content'.drop (o.offsetAt idx))).mp
    (not_not.mpr hline.2)
  unfold next
  simp only [hfile, stringGetline_eq]
  change ∃ o', (if (lineText (content'.drop (o.offsetAt idx))).length +
      (if '\n' ∈ content'.drop (o.offsetAt idx) then 1 else 0) = 0 then none else _) = _ ∧ _
  rw [if_neg hlength, ← h.size]
  have hkept : ∀ offset', Reads content'
      { o with file := some { content := content', offset := offset' } } :=
    fun offset' => ⟨⟨_, rfl, rfl⟩, h.index⟩
  exact ⟨_, rfl, hkept _, rfl⟩

theorem Reads.of_serving (h : Reads content o) (hlines : lineStarts content ≠ [])
    (hserving : Serving o o') : Reads content o' ∧ o'.index = o.index := by
  induction hserving with
  | refl => exact ⟨h, rfl⟩
  | tail _ hnext ih =>
      obtain ⟨hreads, hindex⟩ := ih
      obtain ⟨idx, answer, hnext⟩ := hnext
      obtain ⟨o'', hnext', hreads', hindex'⟩ := hreads.next_eq hlines idx
      rw [hnext, Option.some.injEq, Prod.mk.injEq] at hnext'
      rw [hnext'.2]
      exact ⟨hreads', hindex'.trans hindex⟩

/-! ### Cycles -/

section Cycles

variable {s n : Nat}

/-- The index of a line inside a cycle. -/
theorem Reads.exists_place (h : Reads content o) (hn : (lineStarts content).length = n)
    (hs : s ∈ lineStarts content) :
    ∃ r < n, ∀ idx, o.offsetAt idx = s ↔ idx % n = r := by
  have hsize := h.size.trans hn
  have hmem : s ∈ o.index.toList := h.index.mem_iff.mpr hs
  have hnodup : o.index.toList.Nodup := h.index.nodup_iff.mpr (nodup_lineStarts content)
  obtain ⟨r, hr, hget⟩ := List.getElem_of_mem hmem
  have hr' : r < n := by rwa [Array.length_toList, hsize] at hr
  refine ⟨r, hr', fun idx => ?_⟩
  have hlt : idx % n < o.index.toList.length := by
    rw [Array.length_toList, hsize]
    exact Nat.mod_lt _ (by omega)
  have hoffset : o.offsetAt idx = o.index.toList[idx % n] := by
    rw [Array.length_toList] at hlt
    rw [offsetAt, hsize, Array.getD_eq_getD_getElem?, Array.getElem?_eq_getElem hlt]
    rfl
  rw [hoffset, ← hget]
  exact hnodup.getElem_inj_iff

/-- **`n` indices in a row** from a multiple of `n` on lead to every line once.  The
remainders of such a stretch are all the places of the index. -/
theorem Reads.existsUnique_offsetAt (h : Reads content o)
    (hn : (lineStarts content).length = n) (hs : s ∈ lineStarts content) (k : Nat) :
    ∃! idx, (n * k ≤ idx ∧ idx < n * (k + 1)) ∧ o.offsetAt idx = s := by
  obtain ⟨r, hr, hplace⟩ := h.exists_place hn hs
  refine ⟨n * k + r, ⟨⟨by omega, by rw [Nat.mul_succ]; omega⟩, ?_⟩, ?_⟩
  · rw [hplace, Nat.mul_add_mod, Nat.mod_eq_of_lt hr]
  · rintro idx ⟨⟨hlow, hhigh⟩, hidx⟩
    have hdiv : idx / n = k := by
      rw [Nat.div_eq_iff (by omega), Nat.mul_comm k n]
      rw [Nat.mul_succ] at hhigh
      omega
    rw [hplace] at hidx
    rw [← hidx, ← hdiv, Nat.div_add_mod]

/-- The rounds go through the transforms, each of which comes up in one of eight rounds. -/
theorem transformOfRound_eq_iff (type : TransformType) :
    ∃ q < 8, ∀ round, Game.transformOfRound round = type ↔ round % 8 = q := by
  have hmod : ∀ round, Game.transformOfRound round = Game.transformOfRound (round % 8) := by
    intro round
    rw [Game.transformOfRound, Game.transformOfRound, Nat.mod_mod]
  -- the remainders and the transforms are in the same order
  have hplace : ∃ q < 8, ∀ r < 8, Game.transformOfRound r = type ↔ r = q := by
    cases type with
    | identity => exact ⟨0, by decide⟩
    | rotate90 => exact ⟨1, by decide⟩
    | rotate180 => exact ⟨2, by decide⟩
    | rotate270 => exact ⟨3, by decide⟩
    | flipX => exact ⟨4, by decide⟩
    | flipY => exact ⟨5, by decide⟩
    | flipXY => exact ⟨6, by decide⟩
    | flipYX => exact ⟨7, by decide⟩
  obtain ⟨q, hq, hplace⟩ := hplace
  refine ⟨q, hq, fun round => ?_⟩
  rw [hmod]
  exact hplace (round % 8) (Nat.mod_lt round (by decide))

/-- **`8n` indices in a row** from a multiple of `8n` on combine every line with
every transform once. -/
theorem Reads.existsUnique_transform (h : Reads content o)
    (hn : (lineStarts content).length = n) (hs : s ∈ lineStarts content) (type : TransformType)
    (k : Nat) :
    ∃! idx, (8 * n * k ≤ idx ∧ idx < 8 * n * (k + 1)) ∧ o.offsetAt idx = s ∧
      Game.transformOfRound (idx / n) = type := by
  obtain ⟨r, hr, hplace⟩ := h.exists_place hn hs
  obtain ⟨q, hq, htype⟩ := transformOfRound_eq_iff type
  have hround : ∀ idx, (8 * n * k ≤ idx ∧ idx < 8 * n * (k + 1)) ↔ idx / n / 8 = k := by
    intro idx
    rw [Nat.div_div_eq_div_mul, Nat.div_eq_iff (by omega), Nat.mul_comm n 8,
      Nat.mul_comm k (8 * n), Nat.mul_succ]
    omega
  have hdiv : (n * (8 * k + q) + r) / n = 8 * k + q := by
    rw [Nat.mul_add_div (by omega), Nat.div_eq_of_lt hr, Nat.add_zero]
  refine ⟨n * (8 * k + q) + r, ⟨(hround _).mpr ?_, ?_, ?_⟩, ?_⟩
  · rw [hdiv]
    omega
  · rw [hplace, Nat.mul_add_mod, Nat.mod_eq_of_lt hr]
  · rw [htype, hdiv]
    omega
  · rintro idx ⟨hidx, hoffset, htransform⟩
    rw [hround] at hidx
    rw [hplace] at hoffset
    rw [htype] at htransform
    have hquot : idx / n = 8 * k + q := by omega
    rw [← hquot, ← hoffset, Nat.div_add_mod]

end Cycles

/-- **The openings of a tournament.**  Whatever the seed and the order, the index
holds the start of every line of the file once; each call of `next`, whatever was
asked before, answers with the text of the line at its index and with the round; a
cycle of `n` indices uses every opening once, and a cycle of `8n` every opening
with every transform. -/
theorem new_serves (content : List Char) (random : Bool) (srand msec : UInt64)
    (hlines : lineStarts content ≠ []) :
    ∃ o, new (some content) random srand msec = some (.ok o) ∧
      o.index.toList.Perm (lineStarts content) ∧
      (∀ o', Serving o o' → ∀ idx, ∃ o'', o'.next idx =
        some ((lineText (content.drop (o.offsetAt idx)), idx / o.index.size), o'')) ∧
      (∀ k, ∀ s ∈ lineStarts content, ∃! idx,
        (o.index.size * k ≤ idx ∧ idx < o.index.size * (k + 1)) ∧ o.offsetAt idx = s) ∧
      ∀ k, ∀ s ∈ lineStarts content, ∀ type : TransformType, ∃! idx,
        (8 * o.index.size * k ≤ idx ∧ idx < 8 * o.index.size * (k + 1)) ∧
          o.offsetAt idx = s ∧ Game.transformOfRound (idx / o.index.size) = type := by
  obtain ⟨o, file, hnew, hfile, hcontent, hindex, -⟩ := new_eq hlines random srand msec
  have hreads : Reads content o := ⟨⟨file, hfile, hcontent⟩, hindex⟩
  have hsize := hreads.size.symm
  refine ⟨o, hnew, hindex, fun o' hserving idx => ?_,
    fun k s hs => hreads.existsUnique_offsetAt hsize hs k,
    fun k s hs type => hreads.existsUnique_transform hsize hs type k⟩
  obtain ⟨hreads', hindex'⟩ := hreads.of_serving hlines hserving
  obtain ⟨o'', hnext, -⟩ := hreads'.next_eq hlines idx
  rw [offsetAt, hindex', hsize] at hnext
  exact ⟨o'', hnext⟩

/-- A file with a Windows line, a blank line and a line that nothing ends. -/
theorem new_serves_three :
    ∃ o, new (some ['h', '8', '\r', '\n', '\n', 'i', '9']) true 7 0 = some (.ok o) ∧
      o.index.toList.Perm [0, 4, 5] ∧
      ∃! idx, (3 * 2 ≤ idx ∧ idx < 3 * (2 + 1)) ∧ o.offsetAt idx = 5 := by
  have hstarts : lineStarts ['h', '8', '\r', '\n', '\n', 'i', '9'] = [0, 4, 5] := by decide
  obtain ⟨o, hnew, hindex, -, hcycle, -⟩ := new_serves
    ['h', '8', '\r', '\n', '\n', 'i', '9'] true 7 0 (by decide)
  rw [hstarts] at hindex hcycle
  have hsize : o.index.size = 3 := by rw [← Array.length_toList, hindex.length_eq]; rfl
  rw [hsize] at hcycle
  exact ⟨o, hnew, hindex, hcycle 2 5 (by decide)⟩

end Openings

end GomokuCli
