import GomokuCli.Library.Escapes

/-!
# The smart game format

An SGF text is a collection of game trees.  A tree is a sequence of nodes and the
variations behind it, a node a list of properties, a property an identifier of
capital letters with one or more values in brackets.  A value ends at the first
`]` that is not protected by a backslash.

Reading goes in two passes.  `scan` splits the text into tokens from left to
right, one character at a time; `frames` builds the trees from the tokens from
right to left.  `scan_outside_value` says that the values are those of
`Escapes.readUntil`.

Values without special characters read back as they were written
(`read_game`).  Behind it is a count that bounds what any text can mean: a value
that contains backslashes or closing brackets needs backslashes in the text
(`need_le_of_scan`).
-/

namespace Sgf

/-- An identifier and its values. -/
abbrev Property := List Char × List (List Char)

/-- A node: its properties in order. -/
abbrev Node := List Property

/-- A sequence of nodes and the variations behind it. -/
inductive Tree
  | mk (nodes : List Node) (variations : List Tree)

/-! ## Tokens -/

inductive Token
  | opens
  | closes
  | node
  | ident (i : List Char)
  | value (v : List Char)
  deriving DecidableEq, Repr

/-- Where the scanner is: between tokens, in an identifier, in a value, or behind a
backslash in a value.  What has been read of the token is part of the mode. -/
inductive Mode
  | outside
  | ident (i : List Char)
  | value (v : List Char)
  | escaped (v : List Char)

/-- A character between tokens. -/
def outsideStep (c : Char) : Option (List Token × Mode) :=
  if c.isWhitespace then some ([], .outside)
  else if c = '(' then some ([.opens], .outside)
  else if c = ')' then some ([.closes], .outside)
  else if c = ';' then some ([.node], .outside)
  else if c = '[' then some ([], .value [])
  else if c.isUpper then some ([], .ident [c])
  else none

/-- The tokens that end at a character, and where the scanner is behind it. -/
def step : Mode → Char → Option (List Token × Mode)
  | .outside, c => outsideStep c
  | .ident i, c =>
      if c.isUpper then some ([], .ident (i ++ [c]))
      else (outsideStep c).map fun (ts, m) => (.ident i :: ts, m)
  | .value v, c =>
      if c = '\\' then some ([], .escaped v)
      else if c = ']' then some ([.value v], .outside)
      else some ([], .value (v ++ [c]))
  | .escaped v, c => some ([], .value (v ++ [c]))

/-- What is pending at the end of the text. -/
def finish : Mode → Option (List Token)
  | .outside => some []
  | .ident i => some [.ident i]
  | .value _ | .escaped _ => none

/-- The tokens of a text. -/
def scan : Mode → List Char → Option (List Token)
  | m, [] => finish m
  | m, c :: s => (step m c).bind fun (ts, m') => (scan m' s).map (ts ++ ·)

/-! ## Trees -/

/-- What has been read, from the right, of a tree that is still open to the left: values
without their identifier, properties without their node, nodes and variations without their
tree. -/
structure Frame where
  values : List (List Char) := []
  props : List Property := []
  nodes : List Node := []
  trees : List Tree := []

/-- A token in front of what has been read. -/
def shift : Token → List Frame → Option (List Frame)
  | .value v, f :: fs => some ({ f with values := v :: f.values } :: fs)
  | .ident i, f :: fs =>
      if f.values = [] then none
      else some ({ f with values := [], props := (i, f.values) :: f.props } :: fs)
  | .node, f :: fs =>
      if f.values = [] then some ({ f with props := [], nodes := f.props :: f.nodes } :: fs)
      else none
  | .closes, f :: fs =>
      if f.values = [] ∧ f.props = [] ∧ f.nodes = [] then some ({} :: f :: fs) else none
  | .opens, f :: f' :: fs =>
      if f.values = [] ∧ f.props = [] ∧ f.nodes ≠ [] then
        some ({ f' with trees := .mk f.nodes f.trees :: f'.trees } :: fs)
      else none
  | _, _ => none

/-- The frames that some tokens leave. -/
def frames : List Token → Option (List Frame)
  | [] => some [{}]
  | t :: ts => (frames ts).bind (shift t)

/-- The collection that some tokens make up. -/
def collection (ts : List Token) : Option (List Tree) :=
  match frames ts with
  | some [f] => if f.values = [] ∧ f.props = [] ∧ f.nodes = [] then some f.trees else none
  | _ => none

/-- The collection in a text. -/
def read (s : List Char) : Option (List Tree) := (scan .outside s).bind collection

/-! ## Texts and their tokens -/

/-- A value that is written as it stands, without a character that the scanner would take
for something else. -/
def Plain (v : List Char) : Prop := '\\' ∉ v ∧ ']' ∉ v

instance (v : List Char) : Decidable (Plain v) := inferInstanceAs (Decidable (_ ∧ _))

theorem plain_append {v w : List Char} : Plain (v ++ w) ↔ Plain v ∧ Plain w := by
  simp only [Plain, List.mem_append, not_or]
  tauto

theorem plain_cons {c : Char} {v : List Char} :
    Plain (c :: v) ↔ (c ≠ '\\' ∧ c ≠ ']') ∧ Plain v := by
  simp only [Plain, List.mem_cons, not_or]
  constructor
  · rintro ⟨⟨h₁, h₂⟩, h₃, h₄⟩
    exact ⟨⟨Ne.symm h₁, Ne.symm h₃⟩, h₂, h₄⟩
  · rintro ⟨⟨h₁, h₂⟩, h₃, h₄⟩
    exact ⟨⟨Ne.symm h₁, h₃⟩, Ne.symm h₂, h₄⟩

theorem plain_iff_count {v : List Char} : Plain v ↔ v.count '\\' = 0 ∧ v.count ']' = 0 := by
  rw [Plain, List.count_eq_zero, List.count_eq_zero]

/-- The text of a property whose values are written as they stand. -/
def rawProperty (p : Property) : List Char := p.1 ++ p.2.flatMap fun v => '[' :: (v ++ [']'])

/-- The text of such a node. -/
def rawNode (n : Node) : List Char := ';' :: n.flatMap rawProperty

/-- The tokens of a property. -/
def propertyTokens (p : Property) : List Token := .ident p.1 :: p.2.map .value

/-- The tokens of a node. -/
def nodeTokens (n : Node) : List Token := .node :: n.flatMap propertyTokens

/-- A node with the blanks around it. -/
structure Line where
  before : List Char := []
  node : Node
  behind : List Char := []

def Line.text (l : Line) : List Char := l.before ++ rawNode l.node ++ l.behind

/-- An identifier, and values that read back as they are written. -/
structure WellFormed (p : Property) : Prop where
  ident_ne : p.1 ≠ []
  upper : ∀ c ∈ p.1, c.isUpper = true
  values_ne : p.2 ≠ []
  plain : ∀ v ∈ p.2, Plain v

theorem wellFormed_single {i v : List Char} (hne : i ≠ []) (hi : i.all Char.isUpper = true)
    (hv : Plain v) : WellFormed (i, [v]) where
  ident_ne := hne
  upper := List.all_eq_true.mp hi
  values_ne := by simp
  plain := by simpa using hv

/-- Blanks around a node of such properties. -/
structure Line.WellFormed (l : Line) : Prop where
  before : ∀ c ∈ l.before, c.isWhitespace = true
  node : ∀ p ∈ l.node, Sgf.WellFormed p
  behind : ∀ c ∈ l.behind, c.isWhitespace = true

section Scanning

variable {s r v i : List Char} {c : Char} {ts : List Token} {m : Mode}

/-- The scanner reads a value the way `readUntil` does: up to the first closing bracket that
is not protected.  What is known of escapes is known of the values of a text then. -/
theorem scan_value (v s : List Char) :
    scan (.value v) s = (Escapes.readUntil '\\' ']' s).bind fun (w, r) =>
      (scan .outside r).map (.value (v ++ w) :: ·) := by
  induction s using Escapes.symbols_induction '\\' generalizing v with
  | nil => rfl
  | lone => rfl
  | escaped d s ih =>
      have hstep : scan (.value v) ('\\' :: d :: s) = scan (.value (v ++ [d])) s := by
        simp [scan, step, Function.comp_def]
      rw [hstep, ih, Escapes.readUntil_escape_cons]
      cases Escapes.readUntil '\\' ']' s <;> simp
  | plain c s hc ih =>
      by_cases hstop : c = ']'
      · subst hstop
        rw [Escapes.readUntil_stop hc]
        simp [scan, step]
      · have hstep : scan (.value v) (c :: s) = scan (.value (v ++ [c])) s := by
          simp [scan, step, hc, hstop]
        rw [hstep, ih, Escapes.readUntil_cons hc hstop]
        cases Escapes.readUntil '\\' ']' s <;> simp

/-- A value starts behind a bracket. -/
theorem scan_outside_value (s : List Char) :
    scan .outside ('[' :: s) = (Escapes.readUntil '\\' ']' s).bind fun (w, r) =>
      (scan .outside r).map (.value w :: ·) := by
  have hstep : scan .outside ('[' :: s) = scan (.value []) s := by
    simp [scan, step, outsideStep, show Char.isWhitespace '[' = false from rfl]
  rw [hstep, scan_value]
  rfl

theorem scan_plain (hv : Plain v) (s : List Char) :
    scan .outside ('[' :: (v ++ ']' :: s)) = (scan .outside s).map (.value v :: ·) := by
  rw [scan_outside_value, Escapes.readUntil_plain (by decide) hv.1 hv.2, Option.bind_some]

theorem scan_values {vs : List (List Char)} (hvs : ∀ v ∈ vs, Plain v) (s : List Char) :
    scan .outside ((vs.flatMap fun v => '[' :: (v ++ [']'])) ++ s) =
      (scan .outside s).map (vs.map .value ++ ·) := by
  induction vs with
  | nil => simp
  | cons v vs ih =>
      have hv := hvs v List.mem_cons_self
      have hrest := ih fun w hw => hvs w (List.mem_cons_of_mem v hw)
      rw [List.flatMap_cons, List.append_assoc, List.cons_append, List.append_assoc,
        List.singleton_append, scan_plain hv, hrest, Option.map_map]
      rfl

/-- An identifier ends where its first value begins. -/
theorem scan_ident_value (i s : List Char) :
    scan (.ident i) ('[' :: s) = (scan .outside ('[' :: s)).map (.ident i :: ·) := by
  simp [scan, step, outsideStep, show Char.isWhitespace '[' = false from rfl,
    show Char.isUpper '[' = false from rfl]

theorem scan_ident (hi : ∀ c ∈ i, c.isUpper = true) (j s : List Char) :
    scan (.ident j) (i ++ s) = scan (.ident (j ++ i)) s := by
  induction i generalizing j with
  | nil => simp
  | cons c i ih =>
      have hc := hi c List.mem_cons_self
      have hstep : scan (.ident j) (c :: (i ++ s)) = scan (.ident (j ++ [c])) (i ++ s) := by
        simp [scan, step, hc]
      rw [List.cons_append, hstep, ih fun d hd => hi d (List.mem_cons_of_mem c hd)]
      simp

theorem outsideStep_upper (hc : c.isUpper = true) :
    outsideStep c = some ([], .ident [c]) := by
  have hne : ∀ d : Char, d.isUpper = false → c ≠ d := by
    rintro d hd rfl
    rw [hc] at hd
    cases hd
  have hblank : c.isWhitespace = false := by
    by_contra hblank
    simp only [Char.isWhitespace, Bool.not_eq_false, Bool.or_eq_true, decide_eq_true_eq] at hblank
    rcases hblank with ((h | h) | h) | h <;> exact hne _ rfl h
  simp [outsideStep, hblank, hc, hne '(' rfl, hne ')' rfl, hne ';' rfl, hne '[' rfl]

/-- An identifier in front of its first value. -/
theorem scan_identifier (hne : i ≠ []) (hi : ∀ c ∈ i, c.isUpper = true) (s : List Char) :
    scan .outside (i ++ '[' :: s) = (scan .outside ('[' :: s)).map (.ident i :: ·) := by
  obtain ⟨c, i, rfl⟩ := List.exists_cons_of_ne_nil hne
  have hstep (r : List Char) : scan .outside (c :: r) = scan (.ident [c]) r := by
    simp [scan, step, outsideStep_upper (hi c List.mem_cons_self)]
  rw [List.cons_append, hstep, scan_ident fun d hd => hi d (List.mem_cons_of_mem c hd),
    scan_ident_value]
  rfl

theorem scan_rawProperty {p : Property} (hp : WellFormed p) (s : List Char) :
    scan .outside (rawProperty p ++ s) = (scan .outside s).map (propertyTokens p ++ ·) := by
  obtain ⟨i, vs⟩ := p
  obtain ⟨v, vs, rfl⟩ := List.exists_cons_of_ne_nil hp.values_ne
  have hvalues := scan_values hp.plain s
  simp only [rawProperty, List.flatMap_cons, List.cons_append, List.append_assoc] at hvalues ⊢
  rw [scan_identifier hp.ident_ne hp.upper, hvalues, Option.map_map]
  rfl

theorem scan_rawProperties {n : Node} (hn : ∀ p ∈ n, WellFormed p) (s : List Char) :
    scan .outside (n.flatMap rawProperty ++ s) =
      (scan .outside s).map (n.flatMap propertyTokens ++ ·) := by
  induction n with
  | nil => simp
  | cons p n ih =>
      have hrest := ih fun q hq => hn q (List.mem_cons_of_mem p hq)
      rw [List.flatMap_cons, List.append_assoc, scan_rawProperty (hn p List.mem_cons_self), hrest,
        Option.map_map]
      simp [Function.comp_def]

theorem scan_rawNode {n : Node} (hn : ∀ p ∈ n, WellFormed p) (s : List Char) :
    scan .outside (rawNode n ++ s) = (scan .outside s).map (nodeTokens n ++ ·) := by
  have hstep : scan .outside (rawNode n ++ s) =
      (scan .outside (n.flatMap rawProperty ++ s)).map (.node :: ·) := by
    simp [rawNode, scan, step, outsideStep, show Char.isWhitespace ';' = false from rfl]
  rw [hstep, scan_rawProperties hn, Option.map_map]
  rfl

theorem scan_blanks {b : List Char} (hb : ∀ c ∈ b, c.isWhitespace = true) (s : List Char) :
    scan .outside (b ++ s) = scan .outside s := by
  induction b with
  | nil => rfl
  | cons c b ih =>
      have hc := hb c List.mem_cons_self
      have hstep : scan .outside (c :: (b ++ s)) = scan .outside (b ++ s) := by
        simp [scan, step, outsideStep, hc]
      rw [List.cons_append, hstep, ih fun d hd => hb d (List.mem_cons_of_mem c hd)]

end Scanning

/-! ## The trees of some tokens -/

section Reading

variable {ts : List Token} {f : Frame} {fs : List Frame}

theorem frames_values (vs : List (List Char)) (h : frames ts = some (f :: fs)) :
    frames (vs.map .value ++ ts) = some ({ f with values := vs ++ f.values } :: fs) := by
  induction vs with
  | nil => exact h
  | cons v vs ih =>
      rw [List.map_cons, List.cons_append, frames, ih]
      rfl

theorem frames_properties {n : Node} (hn : ∀ p ∈ n, p.2 ≠ []) (h : frames ts = some (f :: fs))
    (hf : f.values = []) :
    frames (n.flatMap propertyTokens ++ ts) = some ({ f with props := n ++ f.props } :: fs) := by
  induction n with
  | nil => exact h
  | cons p n ih =>
      have hrest := ih fun q hq => hn q (List.mem_cons_of_mem p hq)
      have hvalues := frames_values p.2 hrest
      have hne := hn p List.mem_cons_self
      rw [List.flatMap_cons, List.append_assoc, propertyTokens, List.cons_append, frames, hvalues,
        Option.bind_some]
      simp [shift, hf, hne]

theorem frames_node {n : Node} (hn : ∀ p ∈ n, p.2 ≠ []) (h : frames ts = some (f :: fs))
    (hvalues : f.values = []) (hprops : f.props = []) :
    frames (nodeTokens n ++ ts) = some ({ f with nodes := n :: f.nodes } :: fs) := by
  rw [nodeTokens, List.cons_append, frames, frames_properties hn h hvalues, Option.bind_some]
  simp [shift, hvalues, hprops]

theorem frames_nodes {ns : List Node} (hns : ∀ n ∈ ns, ∀ p ∈ n, p.2 ≠ [])
    (h : frames ts = some (f :: fs)) (hvalues : f.values = []) (hprops : f.props = []) :
    frames (ns.flatMap nodeTokens ++ ts) = some ({ f with nodes := ns ++ f.nodes } :: fs) := by
  induction ns with
  | nil => exact h
  | cons n ns ih =>
      have hrest := ih fun n' hn' => hns n' (List.mem_cons_of_mem n hn')
      rw [List.flatMap_cons, List.append_assoc,
        frames_node (hns n List.mem_cons_self) hrest hvalues hprops]
      rfl

theorem collection_game {ns : List Node} (hne : ns ≠ []) (hns : ∀ n ∈ ns, ∀ p ∈ n, p.2 ≠ []) :
    collection (.opens :: (ns.flatMap nodeTokens ++ [.closes])) = some [.mk ns []] := by
  have hclosed : frames [.closes] = some [{}, {}] := rfl
  have hnodes := frames_nodes hns hclosed rfl rfl
  simp [collection, frames, hnodes, shift, hne]

theorem scan_line {l : Line} (hl : l.WellFormed) (s : List Char) :
    scan .outside (l.text ++ s) = (scan .outside s).map (nodeTokens l.node ++ ·) := by
  rw [Line.text, List.append_assoc, List.append_assoc, scan_blanks hl.before, scan_rawNode hl.node,
    scan_blanks hl.behind]

/-- **A game reads back.** The nodes of a game may stand on lines of their own, with any
blanks between them and behind the whole. -/
theorem read_game {lines : List Line} {tail : List Char} (hne : lines ≠ [])
    (hlines : ∀ l ∈ lines, l.WellFormed) (htail : ∀ c ∈ tail, c.isWhitespace = true) :
    read ('(' :: (lines.flatMap Line.text ++ ')' :: tail)) =
      some [.mk (lines.map Line.node) []] := by
  have hlast : scan .outside (')' :: tail) = some [.closes] := by
    have htokens : scan .outside tail = some [] := by
      simpa [scan, finish] using scan_blanks htail []
    simp [scan, step, outsideStep, show Char.isWhitespace ')' = false from rfl, htokens]
  have hnodes : scan .outside (lines.flatMap Line.text ++ ')' :: tail) =
      some ((lines.map Line.node).flatMap nodeTokens ++ [.closes]) := by
    clear hne
    induction lines with
    | nil => exact hlast
    | cons l lines ih =>
        have hrest := ih fun l' h => hlines l' (List.mem_cons_of_mem l h)
        rw [List.flatMap_cons, List.append_assoc, scan_line (hlines l List.mem_cons_self), hrest]
        simp
  have hscan : scan .outside ('(' :: (lines.flatMap Line.text ++ ')' :: tail)) =
      some (.opens :: ((lines.map Line.node).flatMap nodeTokens ++ [.closes])) := by
    simp [scan, step, outsideStep, show Char.isWhitespace '(' = false from rfl, hnodes]
  rw [read, hscan, Option.bind_some]
  refine collection_game (by simpa using hne) fun n hn p hp => ?_
  obtain ⟨l, hl, rfl⟩ := List.mem_map.mp hn
  exact ((hlines l hl).node p hp).values_ne

end Reading

/-! ## Texts without backslashes -/

theorem esc_notMem_rawProperty {p : Property} (hp : WellFormed p) : '\\' ∉ rawProperty p := by
  intro hmem
  rcases List.mem_append.mp hmem with hident | hvalue
  · exact absurd (hp.upper _ hident) (by decide)
  · obtain ⟨v, hv, hmem⟩ := List.mem_flatMap.mp hvalue
    have hplain := (hp.plain v hv).1
    simp [hplain] at hmem

theorem esc_notMem_rawProperties {n : Node} (hn : ∀ p ∈ n, WellFormed p) :
    '\\' ∉ n.flatMap rawProperty := by
  intro hmem
  obtain ⟨p, hp, hmem⟩ := List.mem_flatMap.mp hmem
  exact esc_notMem_rawProperty (hn p hp) hmem

theorem Line.esc_notMem_text {l : Line} (hl : l.WellFormed) : '\\' ∉ l.text := by
  have hblank : Char.isWhitespace '\\' = false := rfl
  have hnode := esc_notMem_rawProperties hl.node
  intro hmem
  simp only [Line.text, rawNode, List.mem_append, List.mem_cons] at hmem
  rcases hmem with (hbefore | hsemi | hmem) | hbehind
  · exact absurd (hl.before _ hbefore) (by simp [hblank])
  · exact absurd hsemi (by decide)
  · exact hnode hmem
  · exact absurd (hl.behind _ hbehind) (by simp [hblank])

/-! ## How many backslashes a text needs -/

/-- The backslashes that a text needs for a value to be read: two for each backslash and one
for each closing bracket.  A value that was written without escapes can have been paid for
by no other backslashes than those of the text. -/
def need (v : List Char) : ℕ := 2 * v.count '\\' + v.count ']'

def Token.need : Token → ℕ
  | .value v => Sgf.need v
  | _ => 0

/-- The backslashes already read of what is pending. -/
def Mode.need : Mode → ℕ
  | .value v => Sgf.need v
  | .escaped v => Sgf.need v + 1
  | _ => 0

/-- What the values behind an identifier `k` need; the flag says whether the first tokens
are such values.  It keeps the needs of two properties apart, so that one backslash cannot
pay for both of them. -/
def under (k : List Char) : Bool → List Token → ℕ
  | _, [] => 0
  | _, .ident i :: ts => under k (i = k) ts
  | here, .value v :: ts => (if here then need v else 0) + under k here ts
  | _, _ :: ts => under k false ts

section Counting

variable {s r v : List Char} {ts : List Token} {m : Mode}

theorem need_append (v : List Char) (c : Char) :
    need (v ++ [c]) = need v + (if c = '\\' then 2 else if c = ']' then 1 else 0) := by
  simp only [need, List.count_append, List.count_singleton, beq_iff_eq]
  split_ifs with hesc hstop
  · subst hesc
    exact absurd hstop (by decide)
  · omega
  · omega
  · omega

theorem outsideStep_need {c : Char} {ts : List Token} {m : Mode}
    (h : outsideStep c = some (ts, m)) : (ts.map Token.need).sum = 0 ∧ m.need = 0 := by
  unfold outsideStep at h
  split_ifs at h <;> cases h <;> exact ⟨rfl, rfl⟩

/-- One character: what has been read is paid for by the backslashes seen so far.  The mode
counts with what it has of an unfinished token. -/
theorem need_le_of_step {c : Char} {m m' : Mode} (h : step m c = some (ts, m')) :
    (ts.map Token.need).sum + m'.need ≤ m.need + [c].count '\\' := by
  cases m with
  | outside =>
      obtain ⟨hts, hm'⟩ := outsideStep_need h
      omega
  | ident i =>
      rw [step] at h
      split at h
      · cases h
        exact Nat.zero_le _
      · obtain ⟨⟨ts', m''⟩, hstep, heq⟩ := Option.map_eq_some_iff.mp h
        cases heq
        obtain ⟨hts, hm'⟩ := outsideStep_need hstep
        rw [List.map_cons, List.sum_cons, hts, hm']
        exact Nat.zero_le _
  | value v =>
      rw [step] at h
      split_ifs at h with hesc hstop
      · subst hesc
        cases h
        simp [Mode.need]
      · cases h
        simp [Mode.need, Token.need]
      · cases h
        simp [Mode.need, need_append, hesc, hstop]
  | escaped v =>
      cases h
      simp only [List.map_nil, List.sum_nil, Mode.need, need_append, List.count_singleton,
        beq_iff_eq]
      split_ifs <;> omega

/-- **What a text can mean.** The values of a text need no more backslashes than it has.
This holds of every text that can be read at all, also of one that was written without
regard to the escapes. -/
theorem need_le_of_scan (h : scan m s = some ts) :
    (ts.map Token.need).sum ≤ m.need + s.count '\\' := by
  induction s generalizing m ts with
  | nil =>
      cases m with
      | outside | ident i =>
          cases h
          exact Nat.zero_le _
      | value v | escaped v => cases h
  | cons c s ih =>
      rw [scan] at h
      obtain ⟨⟨ts₁, m'⟩, hstep, hrest⟩ := Option.bind_eq_some_iff.mp h
      obtain ⟨ts₂, hscan, rfl⟩ := Option.map_eq_some_iff.mp hrest
      have hfirst := need_le_of_step hstep
      have hsecond := ih hscan
      rw [List.map_append, List.sum_append, List.count_cons]
      rw [List.count_singleton] at hfirst
      omega

theorem suffix_of_readUntil {w : List Char} (h : Escapes.readUntil '\\' ']' s = some (w, r)) :
    r <:+ s := by
  induction s using Escapes.symbols_induction '\\' generalizing w with
  | nil => cases h
  | lone => cases h
  | escaped d s ih =>
      rw [Escapes.readUntil_escape_cons] at h
      obtain ⟨⟨w', r'⟩, hrest, heq⟩ := Option.map_eq_some_iff.mp h
      cases heq
      exact ((ih hrest).trans (List.suffix_cons d s)).trans (List.suffix_cons _ _)
  | plain c s hc ih =>
      by_cases hstop : c = ']'
      · subst hstop
        rw [Escapes.readUntil_stop hc] at h
        cases h
        exact List.suffix_cons _ _
      · rw [Escapes.readUntil_cons hc hstop] at h
        obtain ⟨⟨w', r'⟩, hrest, heq⟩ := Option.map_eq_some_iff.mp h
        cases heq
        exact (ih hrest).trans (List.suffix_cons c s)

/-- A value ends at the first closing bracket or behind it. -/
theorem suffix_of_readUntil_append {w : List Char} (hv : ']' ∉ v)
    (h : Escapes.readUntil '\\' ']' (v ++ ']' :: s) = some (w, r)) : r <:+ s := by
  induction v using Escapes.symbols_induction '\\' generalizing w with
  | nil =>
      rw [List.nil_append, Escapes.readUntil_stop (by decide)] at h
      cases h
      exact List.suffix_rfl
  | lone =>
      rw [List.singleton_append, Escapes.readUntil_escape_cons] at h
      obtain ⟨⟨w', r'⟩, hrest, heq⟩ := Option.map_eq_some_iff.mp h
      cases heq
      exact suffix_of_readUntil hrest
  | escaped d v ih =>
      rw [List.cons_append, List.cons_append, Escapes.readUntil_escape_cons] at h
      obtain ⟨⟨w', r'⟩, hrest, heq⟩ := Option.map_eq_some_iff.mp h
      cases heq
      exact ih (fun hmem => hv (by simp [hmem])) hrest
  | plain c v hc ih =>
      rw [List.cons_append, Escapes.readUntil_cons hc fun hstop => hv (by simp [hstop])] at h
      obtain ⟨⟨w', r'⟩, hrest, heq⟩ := Option.map_eq_some_iff.mp h
      cases heq
      exact ih (fun hmem => hv (by simp [hmem])) hrest

/-- Behind the first value only the backslashes behind its closing bracket are
left. -/
theorem scan_value_rest (hv : ']' ∉ v) (h : scan (.value []) (v ++ ']' :: s) = some ts) :
    ∃ w rest, ts = .value w :: rest ∧ (rest.map Token.need).sum ≤ s.count '\\' := by
  rw [scan_value] at h
  obtain ⟨⟨w, r⟩, hread, hscan⟩ := Option.bind_eq_some_iff.mp h
  obtain ⟨rest, hrest, rfl⟩ := Option.map_eq_some_iff.mp hscan
  refine ⟨[] ++ w, rest, rfl, (need_le_of_scan hrest).trans ?_⟩
  show 0 + r.count '\\' ≤ s.count '\\'
  rw [Nat.zero_add]
  exact (suffix_of_readUntil_append hv hread).sublist.count_le _

end Counting

/-! ## What a property needs -/

section Properties

variable {ts : List Token} {k k' : List Char} {f : Frame} {fs : List Frame}

theorem under_append_le (k : List Char) (here : Bool) (l r : List Token) :
    under k here l ≤ under k here (l ++ r) := by
  induction l generalizing here with
  | nil => exact Nat.zero_le _
  | cons t l ih =>
      cases t with
      | value v => exact Nat.add_le_add_left (ih here) _
      | ident i => exact ih _
      | opens | closes | node => exact ih _

theorem under_values_false (k : List Char) (vs : List (List Char)) (ts : List Token) :
    under k false (vs.map .value ++ ts) = under k false ts := by
  induction vs with
  | nil => rfl
  | cons v vs ih =>
      rw [List.map_cons, List.cons_append, under, ih]
      simp

theorem under_ident (i k : List Char) (here : Bool) (ts : List Token) :
    under k here (.ident i :: ts) = under k (i = k) ts := by
  cases here <;> rfl

/-- Two identifiers do not share their values. -/
theorem under_add_le {here here' : Bool} (hne : k ≠ k') (hhere : ¬ (here = true ∧ here' = true))
    (ts : List Token) : under k here ts + under k' here' ts ≤ (ts.map Token.need).sum := by
  induction ts generalizing here here' with
  | nil => exact le_refl 0
  | cons t ts ih =>
      rw [List.map_cons, List.sum_cons]
      cases t with
      | ident i =>
          have hboth : ¬ (decide (i = k) = true ∧ decide (i = k') = true) := by
            simp only [decide_eq_true_eq]
            rintro ⟨rfl, rfl⟩
            exact hne rfl
          rw [under_ident, under_ident]
          exact (ih hboth).trans (Nat.le_add_left _ _)
      | value v =>
          have hrest := ih hhere
          have hnone : under k false ts + under k' here' ts ≤ (ts.map Token.need).sum :=
            ih (by simp)
          cases here <;> cases here' <;>
            simp_all [under, Token.need] <;> omega
      | opens | closes | node =>
          have hnone : under k false ts + under k' false ts ≤ (ts.map Token.need).sum :=
            ih (by simp)
          exact hnone.trans (Nat.le_add_left _ _)

/-- A frame between nodes. -/
def Frame.Between (f : Frame) : Prop := f.values = [] ∧ f.props = []

/-- The properties of the node that is being read stand in front of everything else; the
frames around it are between nodes.  Reading goes from the right, so this says where a
property of the first node stands in the text. -/
theorem frames_prefix (h : frames ts = some (f :: fs)) :
    (f.values.map .value ++ f.props.flatMap propertyTokens) <+: ts ∧ ∀ f' ∈ fs, f'.Between := by
  have hnothing : ∀ {f : Frame} {ts : List Token}, f.Between →
      (f.values.map .value ++ f.props.flatMap propertyTokens) <+: ts := by
    rintro f ts ⟨hvalues, hprops⟩
    rw [hvalues, hprops]
    exact List.nil_prefix
  induction ts generalizing f fs with
  | nil =>
      cases h
      exact ⟨hnothing ⟨rfl, rfl⟩, by simp⟩
  | cons t ts ih =>
      rw [frames] at h
      obtain ⟨gs, hts, hshift⟩ := Option.bind_eq_some_iff.mp h
      cases gs with
      | nil => cases t <;> cases hshift
      | cons g gs =>
          obtain ⟨hg, hgs⟩ := ih hts
          cases t with
          | value v =>
              cases hshift
              exact ⟨by simpa using hg, hgs⟩
          | ident i =>
              rw [shift] at hshift
              split at hshift
              · cases hshift
              · cases hshift
                exact ⟨by simpa [propertyTokens] using hg, hgs⟩
          | node =>
              rw [shift] at hshift
              split at hshift
              · next hvalues =>
                cases hshift
                exact ⟨hnothing ⟨hvalues, rfl⟩, hgs⟩
              · cases hshift
          | closes =>
              rw [shift] at hshift
              split at hshift
              · next hbetween =>
                cases hshift
                refine ⟨hnothing ⟨rfl, rfl⟩, ?_⟩
                rintro f' (_ | ⟨_, hmem⟩)
                · exact ⟨hbetween.1, hbetween.2.1⟩
                · exact hgs f' hmem
              · cases hshift
          | opens =>
              cases gs with
              | nil => cases hshift
              | cons g' gs =>
                  rw [shift] at hshift
                  split at hshift
                  · cases hshift
                    have hg' := hgs g' List.mem_cons_self
                    exact ⟨hnothing hg', fun f' hmem => hgs f' (List.mem_cons_of_mem g' hmem)⟩
                  · cases hshift

/-- The value of a property is behind its identifier. -/
theorem need_le_under {n : Node} {v : List Char} (h : n.lookup k = some [v]) :
    need v ≤ under k false (n.flatMap propertyTokens) := by
  induction n with
  | nil => cases h
  | cons p n ih =>
      obtain ⟨i, vs⟩ := p
      rw [List.flatMap_cons, propertyTokens, List.cons_append, under_ident]
      rw [List.lookup_cons] at h
      by_cases hi : k = i
      · subst hi
        simp only [beq_self_eq_true, Option.some.injEq] at h
        subst h
        simp only [decide_true, List.map_cons, List.map_nil, List.singleton_append, under, if_true]
        exact Nat.le_add_right _ _
      · rw [beq_eq_false_iff_ne.mpr hi] at h
        rw [decide_eq_false (Ne.symm hi), under_values_false]
        exact ih h

/-- The root of the first tree of a text is the node behind its first two tokens, and a
value of it needs no more than what stands behind its identifier there. -/
theorem need_le_of_read {s v : List Char} {root : Node} {rest : List Node}
    {variations more : List Tree} (hscan : scan .outside s = some (.opens :: .node :: ts))
    (hread : read s = some (.mk (root :: rest) variations :: more))
    (hk : root.lookup k = some [v]) : need v ≤ under k false ts := by
  rw [read, hscan, Option.bind_some, collection] at hread
  split at hread
  case h_2 => cases hread
  next g hframes =>
  split at hread
  case isFalse => cases hread
  rw [frames] at hframes
  obtain ⟨gs, hnode, hopens⟩ := Option.bind_eq_some_iff.mp hframes
  rw [frames] at hnode
  obtain ⟨gs', hts, hshift⟩ := Option.bind_eq_some_iff.mp hnode
  cases gs' with
  | nil => cases hshift
  | cons f fs =>
      rw [shift] at hshift
      split at hshift
      case isFalse => cases hshift
      cases hshift
      cases fs with
      | nil => cases hopens
      | cons f' fs =>
          rw [shift] at hopens
          split at hopens
          case isFalse => cases hopens
          cases hopens
          cases hread
          obtain ⟨⟨tail, htail⟩, -⟩ := frames_prefix hts
          refine (need_le_under hk).trans ?_
          rw [← htail, List.append_assoc, under_values_false]
          exact under_append_le k false _ _

end Properties

end Sgf
