import GomokuCli.Library.Escapes

/-!
# The portable game notation

A PGN text is a sequence of games.  A game is a list of tag pairs `[Name "value"]`, the
moves and a termination marker.  A value stands between quotes, and a backslash protects
a quote or a backslash in it.

`scan` splits the text into tokens from left to right, `games` reads the games from the
tokens.  Comments, variations and annotations are left out.  A text that is written with
`Game.text` reads back, also in front of other games (`read_texts`).
-/

namespace Pgn

/-- The name and the value of a tag. -/
abbrev Tag := List Char × List Char

/-- A game: its tags and moves in order, and the termination marker. -/
structure Game where
  tags : List Tag
  moves : List (List Char)
  result : List Char
  deriving DecidableEq, Repr

/-! ## Tokens -/

inductive Token
  | opens
  | closes
  | value (v : List Char)
  | symbol (i : List Char)
  deriving DecidableEq, Repr

/-- Where the scanner is: between tokens, in a symbol, in a value, or behind a backslash in
a value.  What has been read of the token is part of the mode. -/
inductive Mode
  | outside
  | symbol (i : List Char)
  | value (v : List Char)
  | escaped (v : List Char)

/-- The characters of symbols. -/
def symbolChar (c : Char) : Bool :=
  c.isAlphanum || ['_', '+', '#', '=', ':', '-', '/'].contains c

/-- A character between tokens. -/
def outsideStep (c : Char) : Option (List Token × Mode) :=
  if symbolChar c then some ([], .symbol [c])
  else if c.isWhitespace then some ([], .outside)
  else if c = '[' then some ([.opens], .outside)
  else if c = ']' then some ([.closes], .outside)
  else if c = '"' then some ([], .value [])
  else if c = '*' then some ([.symbol ['*']], .outside)
  else none

/-- A character that may stand in a value. -/
def Printable (c : Char) : Prop := 32 ≤ c.toNat

instance (c : Char) : Decidable (Printable c) := inferInstanceAs (Decidable (_ ≤ _))

/-- The tokens that end at a character, and where the scanner is behind it. -/
def step : Mode → Char → Option (List Token × Mode)
  | .outside, c => outsideStep c
  | .symbol i, c =>
      if symbolChar c then some ([], .symbol (i ++ [c]))
      else (outsideStep c).map fun (ts, m) => (.symbol i :: ts, m)
  | .value v, c =>
      if c = '\\' then some ([], .escaped v)
      else if c = '"' then some ([.value v], .outside)
      else if Printable c then some ([], .value (v ++ [c]))
      else none
  | .escaped v, c => if c = '\\' ∨ c = '"' then some ([], .value (v ++ [c])) else none

/-- What is pending at the end of the text. -/
def finish : Mode → Option (List Token)
  | .outside => some []
  | .symbol i => some [.symbol i]
  | .value _ | .escaped _ => none

/-- The tokens of a text, read from left to right, one character at a time.  A character
that cannot stand where it is makes the text unreadable. -/
def scan : Mode → List Char → Option (List Token)
  | m, [] => finish m
  | m, c :: s => (step m c).bind fun (ts, m') => (scan m' s).map (ts ++ ·)

/-! ## Games -/

/-- The termination markers. -/
def Termination (r : List Char) : Prop :=
  r = ['1', '-', '0'] ∨ r = ['0', '-', '1'] ∨ r = ['1', '/', '2', '-', '1', '/', '2'] ∨ r = ['*']

instance (r : List Char) : Decidable (Termination r) := inferInstanceAs (Decidable (_ ∨ _))

/-- The games that some tokens make up, behind the tags and moves of the first of them.  A
termination marker ends a game; tags behind moves, and a last game without a marker, are
refused. -/
def games : List Tag → List (List Char) → List Token → Option (List Game)
  | tags, [], .opens :: .symbol n :: .value v :: .closes :: ts => games (tags ++ [(n, v)]) [] ts
  | tags, moves, .symbol r :: ts =>
      if Termination r then (games [] [] ts).map (⟨tags, moves, r⟩ :: ·)
      else games tags (moves ++ [r]) ts
  | [], [], [] => some []
  | _, _, _ => none

/-- The games of a text. -/
def read (s : List Char) : Option (List Game) := (scan .outside s).bind (games [] [])

/-! ## Texts -/

/-- The escapes of a value: a backslash in front of a quote or a backslash, as the format
wants it. -/
def escape (v : List Char) : List Char :=
  v.flatMap fun c => if c = '\\' ∨ c = '"' then ['\\', c] else [c]

/-- A value that can stand between quotes as it is.  A program that does not write escapes
writes what it means only for such values. -/
def Plain (v : List Char) : Prop := ∀ c ∈ v, Printable c ∧ c ≠ '\\' ∧ c ≠ '"'

instance (v : List Char) : Decidable (Plain v) :=
  List.decidableBAll (fun c => Printable c ∧ c ≠ '\\' ∧ c ≠ '"') v

theorem escape_plain {v : List Char} (h : Plain v) : escape v = v := by
  have hself : ∀ c ∈ v, (if c = '\\' ∨ c = '"' then ['\\', c] else [c]) = [c] := by
    intro c hc
    obtain ⟨-, hescape, hquote⟩ := h c hc
    exact if_neg fun heq => heq.elim hescape hquote
  rw [escape, List.flatMap_congr hself, List.flatMap_singleton']

theorem plain_append {v w : List Char} : Plain (v ++ w) ↔ Plain v ∧ Plain w :=
  List.forall_mem_append

theorem plain_cons {c : Char} {v : List Char} :
    Plain (c :: v) ↔ (Printable c ∧ c ≠ '\\' ∧ c ≠ '"') ∧ Plain v :=
  List.forall_mem_cons

/-- The line of a tag. -/
def tagText (t : Tag) : List Char :=
  '[' :: t.1 ++ ' ' :: '"' :: escape t.2 ++ ['"', ']', '\n']

/-- The text of a game. -/
def Game.text (g : Game) : List Char :=
  g.tags.flatMap tagText ++ (g.moves.flatMap fun i => i ++ [' ']) ++ g.result ++ ['\n', '\n']

/-- A symbol. -/
def IsSymbol (i : List Char) : Prop := i ≠ [] ∧ ∀ c ∈ i, symbolChar c = true

instance (i : List Char) : Decidable (IsSymbol i) :=
  have : Decidable (∀ c ∈ i, symbolChar c = true) := List.decidableBAll _ i
  inferInstanceAs (Decidable (i ≠ [] ∧ ∀ c ∈ i, symbolChar c = true))

/-- A game that can be written: the names and moves are symbols, no move is taken for a
termination marker, and the values are printable.  The values may have quotes and
backslashes, since these are escaped. -/
structure Game.WellFormed (g : Game) : Prop where
  names : ∀ t ∈ g.tags, IsSymbol t.1
  values : ∀ t ∈ g.tags, ∀ c ∈ t.2, Printable c
  moves : ∀ i ∈ g.moves, IsSymbol i ∧ ¬ Termination i
  result : Termination g.result

/-! ## Reading what was written -/

section Scanning

variable {s i v : List Char} {c : Char} {ts : List Token} {m : Mode}

theorem scan_cons (m : Mode) (c : Char) (s : List Char) :
    scan m (c :: s) = (step m c).bind fun (ts, m') => (scan m' s).map (ts ++ ·) := rfl

theorem scan_of_step {m' : Mode} (h : step m c = some (ts, m')) (s : List Char) :
    scan m (c :: s) = (scan m' s).map (ts ++ ·) := by
  rw [scan_cons, h]
  rfl

theorem scan_of_step_nil {m' : Mode} (h : step m c = some ([], m')) (s : List Char) :
    scan m (c :: s) = scan m' s := by
  rw [scan_of_step h]
  exact Option.map_id'

theorem step_opens : step .outside '[' = some ([.opens], .outside) := rfl

theorem step_closes : step .outside ']' = some ([.closes], .outside) := rfl

theorem step_quote : step .outside '"' = some ([], .value []) := rfl

theorem step_star : step .outside '*' = some ([.symbol ['*']], .outside) := rfl

theorem step_space : step .outside ' ' = some ([], .outside) := rfl

theorem step_newline : step .outside '\n' = some ([], .outside) := rfl

theorem step_backslash (w : List Char) : step (.value w) '\\' = some ([], .escaped w) := rfl

/-- The value goes on to the quote that its escapes do not protect, and comes out without
them. -/
theorem scan_value (hv : ∀ c ∈ v, Printable c) (w s : List Char) :
    scan (.value w) (escape v ++ '"' :: s) =
      (scan .outside s).map (.value (w ++ v) :: ·) := by
  induction v generalizing w with
  | nil =>
      have hquote : step (.value w) '"' = some ([.value w], .outside) := rfl
      rw [List.append_nil]
      exact scan_of_step hquote s
  | cons c v ih =>
      have hrest := ih (fun d hd => hv d (.tail c hd)) (w ++ [c])
      rw [List.append_assoc, List.singleton_append] at hrest
      by_cases hc : c = '\\' ∨ c = '"'
      · have hescape : escape (c :: v) ++ '"' :: s = '\\' :: c :: (escape v ++ '"' :: s) := by
          rw [escape, List.flatMap_cons, if_pos hc]
          rfl
        have hprotected : step (.escaped w) c = some ([], .value (w ++ [c])) := if_pos hc
        rw [hescape, scan_of_step_nil (step_backslash w), scan_of_step_nil hprotected, hrest]
      · have hplain : escape (c :: v) ++ '"' :: s = c :: (escape v ++ '"' :: s) := by
          rw [escape, List.flatMap_cons, if_neg hc]
          rfl
        have hstep : step (.value w) c = some ([], .value (w ++ [c])) := by
          rw [not_or] at hc
          rw [step, if_neg hc.1, if_neg hc.2, if_pos (hv c (.head v))]
        rw [hplain, scan_of_step_nil hstep, hrest]

theorem scan_symbol (hi : ∀ c ∈ i, symbolChar c = true) (j s : List Char) :
    scan (.symbol j) (i ++ s) = scan (.symbol (j ++ i)) s := by
  induction i generalizing j with
  | nil => rw [List.nil_append, List.append_nil]
  | cons c i ih =>
      have hstep : step (.symbol j) c = some ([], .symbol (j ++ [c])) :=
        if_pos (hi c (.head i))
      rw [List.cons_append, scan_of_step_nil hstep, ih fun d hd => hi d (.tail c hd),
        List.append_assoc, List.singleton_append]

/-- A symbol ends in front of any other character. -/
theorem scan_isSymbol (hi : IsSymbol i) (hc : symbolChar c = false) (s : List Char) :
    scan .outside (i ++ c :: s) = (scan .outside (c :: s)).map (.symbol i :: ·) := by
  obtain ⟨hne, hall⟩ := hi
  obtain ⟨d, i, rfl⟩ := List.exists_cons_of_ne_nil hne
  have hfirst : step .outside d = some ([], .symbol [d]) := if_pos (hall d (.head i))
  have hlast : step (.symbol (d :: i)) c =
      (outsideStep c).map fun (ts, m) => (.symbol (d :: i) :: ts, m) :=
    if_neg (ne_true_of_eq_false hc)
  rw [List.cons_append, scan_of_step_nil hfirst, scan_symbol fun e he => hall e (.tail d he),
    List.singleton_append, scan_cons, scan_cons, hlast]
  change _ = Option.map _ (Option.bind (outsideStep c) _)
  cases outsideStep c with
  | none => rfl
  | some r =>
      rw [Option.map_some, Option.bind_some, Option.bind_some, Option.map_map]
      rfl

/-- The tokens of a tag. -/
def tagTokens (t : Tag) : List Token := [.opens, .symbol t.1, .value t.2, .closes]

theorem scan_tagText {t : Tag} (hname : IsSymbol t.1) (hvalue : ∀ c ∈ t.2, Printable c)
    (s : List Char) :
    scan .outside (tagText t ++ s) = (scan .outside s).map (tagTokens t ++ ·) := by
  have hclose : scan .outside (']' :: '\n' :: s) = (scan .outside s).map (.closes :: ·) := by
    rw [scan_of_step step_closes, scan_of_step_nil step_newline]
    rfl
  have htext : tagText t ++ s =
      '[' :: (t.1 ++ ' ' :: '"' :: (escape t.2 ++ '"' :: ']' :: '\n' :: s)) := by
    rw [tagText]
    simp only [List.cons_append, List.append_assoc, List.nil_append]
  rw [htext, scan_of_step step_opens, scan_isSymbol hname rfl, scan_of_step_nil step_space,
    scan_of_step_nil step_quote, scan_value hvalue, hclose,
    Option.map_map, Option.map_map, Option.map_map, List.nil_append]
  rfl

theorem scan_tags {tags : List Tag} (hnames : ∀ t ∈ tags, IsSymbol t.1)
    (hvalues : ∀ t ∈ tags, ∀ c ∈ t.2, Printable c) (s : List Char) :
    scan .outside (tags.flatMap tagText ++ s) =
      (scan .outside s).map (tags.flatMap tagTokens ++ ·) := by
  induction tags with
  | nil => exact Option.map_id'.symm
  | cons t tags ih =>
      have hrest := ih (fun u hu => hnames u (.tail t hu)) fun u hu => hvalues u (.tail t hu)
      rw [List.flatMap_cons, List.append_assoc, scan_tagText (hnames t (.head tags))
        (hvalues t (.head tags)), hrest, Option.map_map, List.flatMap_cons]
      refine congrArg (Option.map · (scan .outside s)) (funext fun ts => ?_)
      exact (List.append_assoc _ _ _).symm

theorem scan_moves {moves : List (List Char)} (hmoves : ∀ i ∈ moves, IsSymbol i)
    (s : List Char) :
    scan .outside ((moves.flatMap fun i => i ++ [' ']) ++ s) =
      (scan .outside s).map (moves.map .symbol ++ ·) := by
  induction moves with
  | nil => exact Option.map_id'.symm
  | cons i moves ih =>
      have hrest := ih fun j hj => hmoves j (.tail i hj)
      rw [List.flatMap_cons, List.append_assoc, List.append_assoc, List.singleton_append,
        scan_isSymbol (hmoves i (.head moves)) rfl,
        scan_of_step_nil step_space, hrest, Option.map_map]
      rfl

theorem scan_termination (hi : Termination i) (s : List Char) :
    scan .outside (i ++ '\n' :: '\n' :: s) = (scan .outside s).map (.symbol i :: ·) := by
  have hblank : ∀ r, scan .outside ('\n' :: r) = scan .outside r := scan_of_step_nil step_newline
  rcases hi with rfl | rfl | rfl | rfl
  · rw [scan_isSymbol (by decide) rfl, hblank, hblank]
  · rw [scan_isSymbol (by decide) rfl, hblank, hblank]
  · rw [scan_isSymbol (by decide) rfl, hblank, hblank]
  · rw [List.singleton_append, scan_of_step step_star, hblank, hblank]
    rfl

end Scanning

section Reading

variable {tags : List Tag} {moves : List (List Char)} {ts : List Token} {g : Game}
  {gs : List Game}

theorem games_tag (tags : List Tag) (t : Tag) (ts : List Token) :
    games tags [] (tagTokens t ++ ts) = games (tags ++ [t]) [] ts := rfl

theorem games_symbol (tags : List Tag) (moves : List (List Char)) (r : List Char)
    (ts : List Token) : games tags moves (.symbol r :: ts) =
      if Termination r then (games [] [] ts).map (⟨tags, moves, r⟩ :: ·)
      else games tags (moves ++ [r]) ts := by
  rw [games]

theorem games_tags (before tags : List Tag) (ts : List Token) :
    games before [] (tags.flatMap tagTokens ++ ts) = games (before ++ tags) [] ts := by
  induction tags generalizing before with
  | nil => rw [List.flatMap_nil, List.nil_append, List.append_nil]
  | cons t tags ih =>
      rw [List.flatMap_cons, List.append_assoc, games_tag, ih, List.append_assoc,
        List.singleton_append]

theorem games_moves (hmoves : ∀ i ∈ moves, ¬ Termination i) (before : List (List Char)) :
    games tags before (moves.map .symbol ++ ts) = games tags (before ++ moves) ts := by
  induction moves generalizing before with
  | nil => rw [List.map_nil, List.nil_append, List.append_nil]
  | cons i moves ih =>
      rw [List.map_cons, List.cons_append, games_symbol, if_neg (hmoves i (.head moves)),
        ih fun j hj => hmoves j (.tail i hj), List.append_assoc, List.singleton_append]

/-- The tokens of a game. -/
def Game.tokens (g : Game) : List Token :=
  g.tags.flatMap tagTokens ++ (g.moves.map .symbol ++ [.symbol g.result])

/-- The tokens of a written game are those of its tags, moves and result, whatever text
comes behind it. -/
theorem scan_text (hg : g.WellFormed) (s : List Char) :
    scan .outside (g.text ++ s) = (scan .outside s).map (g.tokens ++ ·) := by
  have htext : g.text ++ s = g.tags.flatMap tagText ++
      ((g.moves.flatMap fun i => i ++ [' ']) ++ (g.result ++ '\n' :: '\n' :: s)) := by
    rw [Game.text]
    simp only [List.append_assoc, List.cons_append, List.nil_append]
  rw [htext, scan_tags hg.names hg.values, scan_moves fun i hi => (hg.moves i hi).1,
    scan_termination hg.result, Option.map_map, Option.map_map]
  refine congrArg (Option.map · (scan .outside s)) (funext fun ts => ?_)
  simp only [Function.comp_apply, Game.tokens, List.append_assoc, List.cons_append,
    List.nil_append]

/-- The tokens of a game make up that game, and the next one starts behind it. -/
theorem games_tokens (hg : g.WellFormed) (ts : List Token) :
    games [] [] (g.tokens ++ ts) = (games [] [] ts).map (g :: ·) := by
  rw [Game.tokens, List.append_assoc, List.append_assoc, games_tags,
    games_moves fun i hi => (hg.moves i hi).2, List.singleton_append, games_symbol,
    if_pos hg.result]
  rfl

theorem scan_texts (hgs : ∀ g ∈ gs, g.WellFormed) :
    scan .outside (gs.flatMap Game.text) = some (gs.flatMap Game.tokens) := by
  induction gs with
  | nil => rfl
  | cons g gs ih =>
      rw [List.flatMap_cons, scan_text (hgs g (.head gs)), ih fun h hh => hgs h (.tail g hh)]
      rfl

theorem games_flatMap_tokens (hgs : ∀ g ∈ gs, g.WellFormed) :
    games [] [] (gs.flatMap Game.tokens) = some gs := by
  induction gs with
  | nil => rfl
  | cons g gs ih =>
      rw [List.flatMap_cons, games_tokens (hgs g (.head gs)), ih fun h hh => hgs h (.tail g hh)]
      rfl

/-- **Any number of games reads back**, in their order, from a text that consists of nothing
else. -/
theorem read_texts (hgs : ∀ g ∈ gs, g.WellFormed) : read (gs.flatMap Game.text) = some gs := by
  rw [read, scan_texts hgs, Option.bind_some, games_flatMap_tokens hgs]

end Reading

/-! ## The characters of a text -/

section Characters

variable {c : Char} {g : Game} {gs : List Game}

theorem printable_of_symbolChar (h : symbolChar c = true) : Printable c := by
  rw [symbolChar, Bool.or_eq_true] at h
  rcases h with h | h
  · rcases (Bool.or_eq_true _ _).mp h with h | h
    · rcases (Bool.or_eq_true _ _).mp h with h | h
      · have hupper : 'A'.val ≤ c.val ∧ c.val ≤ 'Z'.val := of_decide_eq_true h
        exact le_trans (by decide : 32 ≤ 'A'.toNat) hupper.1
      · have hlower : (decide (c.val ≥ 'a'.val) && decide (c.val ≤ 'z'.val)) = true := h
        rw [Bool.and_eq_true] at hlower
        exact le_trans (by decide : 32 ≤ 'a'.toNat) (of_decide_eq_true hlower.1)
    · have hdigit : (decide (c.val ≥ '0'.val) && decide (c.val ≤ '9'.val)) = true := h
      rw [Bool.and_eq_true] at hdigit
      exact le_trans (by decide : 32 ≤ '0'.toNat) (of_decide_eq_true hdigit.1)
  · rw [List.contains_iff_mem] at h
    simp only [List.mem_cons, List.not_mem_nil, or_false] at h
    rcases h with rfl | rfl | rfl | rfl | rfl | rfl | rfl <;> decide

theorem printable_of_mem_termination {r : List Char} (hr : Termination r) (hc : c ∈ r) :
    Printable c := by
  have hplain : Plain r := by
    rcases hr with rfl | rfl | rfl | rfl <;> decide
  exact (hplain c hc).1

theorem printable_of_mem_escape {v : List Char} (hv : ∀ c ∈ v, Printable c)
    (hc : c ∈ escape v) : Printable c := by
  obtain ⟨d, hd, hc⟩ := List.mem_flatMap.mp hc
  split at hc
  · rcases List.mem_pair.mp hc with rfl | rfl
    · decide
    · exact hv _ hd
  · rw [List.mem_singleton.mp hc]
    exact hv d hd

theorem printable_of_mem_tagText {t : Tag} (hname : IsSymbol t.1)
    (hvalue : ∀ c ∈ t.2, Printable c) (hc : c ∈ tagText t) : Printable c ∨ c = '\n' := by
  simp only [tagText, List.mem_append, List.mem_cons, List.not_mem_nil, or_false] at hc
  rcases hc with ((rfl | hc) | rfl | rfl | hc) | rfl | rfl | rfl
  · exact Or.inl (by decide)
  · exact Or.inl (printable_of_symbolChar (hname.2 c hc))
  · exact Or.inl (by decide)
  · exact Or.inl (by decide)
  · exact Or.inl (printable_of_mem_escape hvalue hc)
  · exact Or.inl (by decide)
  · exact Or.inl (by decide)
  · exact Or.inr rfl

/-- A text consists of lines of printable characters, so that it can be part of a file that
is read line by line. -/
theorem printable_of_mem_text (hg : g.WellFormed) (hc : c ∈ g.text) :
    Printable c ∨ c = '\n' := by
  rw [Game.text, List.mem_append, List.mem_append, List.mem_append] at hc
  rcases hc with ((hc | hc) | hc) | hc
  · obtain ⟨t, ht, hc⟩ := List.mem_flatMap.mp hc
    exact printable_of_mem_tagText (hg.names t ht) (hg.values t ht) hc
  · obtain ⟨i, hi, hc⟩ := List.mem_flatMap.mp hc
    rcases List.mem_append.mp hc with hc | hc
    · exact Or.inl (printable_of_symbolChar ((hg.moves i hi).1.2 c hc))
    · rw [List.mem_singleton.mp hc]
      exact Or.inl (by decide)
  · exact Or.inl (printable_of_mem_termination hg.result hc)
  · rcases List.mem_pair.mp hc with rfl | rfl <;> exact Or.inr rfl

end Characters

end Pgn
