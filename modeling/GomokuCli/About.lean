import GomokuCli.Bestmove
import GomokuCli.Library.Quoting

/-!
# What an engine says about itself

When an engine has been started it is asked `ABOUT`.  The first line that is not a message
of some kind is taken for the answer: words, or texts in quotes, between commas, blanks and
equality signs.  `parse_and_display_engine_about` looks in it for four names, each of which
makes the next word its value.

An engine is called by the name that the options give it, otherwise by the one it gives
itself, and otherwise by its command.  So it always has a name (`name_of_parseAbout`); and a
list of assignments with quoted values says what it seems to say, as long as no value is
empty or one of the four names (`about_of_assignments`).
-/

namespace GomokuCli

open Quoting

/-- The characters between words. -/
def aboutSeparator (ch : Char) : Bool := ch = ',' || ch = ' ' || ch = '='

/-- The first loop of `parse_and_display_engine_about`, and what follows it.  What stands
between quotes is one token, blanks and commas included. -/
def aboutTokens (line : List Char) : List (List Char) := split '"' aboutSeparator false [] line

/-- The local variables `name`, `author`, `version` and `country`, and the name of the
engine.  The first four are displayed and forgotten; only the last one is used again. -/
structure About where
  name : List Char := ['?']
  author : List Char := ['?']
  version : List Char := ['?']
  country : List Char := ['?']
  engineName : List Char
  deriving DecidableEq, Repr

/-- The names that are looked for. -/
def aboutNames : List (List Char) :=
  ["name".toList, "version".toList, "author".toList, "country".toList]

/-- The body of the second loop, for a token with the next one behind it.  The next token
may itself be one of the four names, and is looked at again. -/
def About.field (token next : List Char) (about : About) : About :=
  if token = "name".toList then
    { about with
      name := next
      engineName := if about.engineName.isEmpty then next else about.engineName }
  else if token = "version".toList then { about with version := next }
  else if token = "author".toList then { about with author := next }
  else if token = "country".toList then { about with country := next }
  else about

/-- The second loop.  The last token has none behind it. -/
def aboutLoop : List (List Char) → About → About
  | token :: next :: tokens, about => aboutLoop (next :: tokens) (about.field token next)
  | _, about => about

/-- `parse_and_display_engine_about`: what is displayed, and the name of the engine. -/
def parseAndDisplayEngineAbout (line engineName : List Char) : About :=
  aboutLoop (aboutTokens line) { engineName := engineName }

/-- A line without a prefix. -/
def isDirect (line : List Char) : Bool :=
  (processCommonOutput (Decimal.cString line)).1 == .direct

/-- `parse_about`: the name of the engine, given the one it has so far and the lines that it
prints.  Without an answer the program ends.  Messages and the like are passed over. -/
def parseAbout (fallbackName name : List Char) (output : List (List Char)) :
    Option (List Char) :=
  (output.find? isDirect).map fun line =>
    let name := (parseAndDisplayEngineAbout line name).engineName
    if name.isEmpty then fallbackName else name

/-! ## The second loop -/

variable {token next : List Char} {about : About} {xs : List (Assignment Char)}

theorem About.field_of_notMem (h : token ∉ aboutNames) : about.field token next = about := by
  simp only [aboutNames, List.mem_cons, List.not_mem_nil, or_false, not_or] at h
  obtain ⟨hname, hversion, hauthor, hcountry⟩ := h
  rw [About.field, if_neg hname, if_neg hversion, if_neg hauthor, if_neg hcountry]

theorem aboutLoop_cons (token next : List Char) (tokens : List (List Char)) (about : About) :
    aboutLoop (token :: next :: tokens) about =
      aboutLoop (next :: tokens) (about.field token next) := rfl

/-- Values that are no names change nothing themselves.  This is where a value such as
`author` would be taken for a name of its own. -/
theorem aboutLoop_assignments (hvalues : ∀ x ∈ xs, x.2 ∉ aboutNames) (about : About) :
    aboutLoop (xs.flatMap fun x => [x.1, x.2]) about =
      xs.foldl (fun about x => about.field x.1 x.2) about := by
  induction xs generalizing about with
  | nil => rfl
  | cons x xs ih =>
      have hvalue := hvalues x (.head xs)
      have hrest := ih fun y hy => hvalues y (.tail x hy)
      rw [List.flatMap_cons, List.foldl_cons, ← hrest]
      cases xs with
      | nil => rfl
      | cons y xs =>
          change aboutLoop (x.1 :: x.2 :: y.1 :: _) about = _
          rw [aboutLoop_cons, aboutLoop_cons, About.field_of_notMem hvalue]
          rfl

/-- The value of a name, the first one if there are several. -/
def valueOf (xs : List (Assignment Char)) (name : List Char) : Option (List Char) :=
  (xs.find? fun x => x.1 = name).map Prod.snd

theorem valueOf_cons (x : Assignment Char) (xs : List (Assignment Char)) (name : List Char) :
    valueOf (x :: xs) name = if x.1 = name then some x.2 else valueOf xs name := by
  unfold valueOf
  by_cases hx : x.1 = name
  · rw [List.find?_cons_of_pos (by simpa using hx), if_pos hx]
    rfl
  · rw [List.find?_cons_of_neg (by simpa using hx), if_neg hx]

theorem valueOf_eq_none {name : List Char} (h : name ∉ xs.map Prod.fst) :
    valueOf xs name = none := by
  rw [valueOf, Option.map_eq_none_iff, List.find?_eq_none]
  intro x hx heq
  exact h (List.mem_map.mpr ⟨x, hx, of_decide_eq_true heq⟩)

/-- What some assignments say.  A name that does not occur keeps its value, and the engine
gets a name only if it has none. -/
def About.updated (xs : List (Assignment Char)) (about : About) : About where
  name := (valueOf xs "name".toList).getD about.name
  author := (valueOf xs "author".toList).getD about.author
  version := (valueOf xs "version".toList).getD about.version
  country := (valueOf xs "country".toList).getD about.country
  engineName :=
    if about.engineName.isEmpty then (valueOf xs "name".toList).getD [] else about.engineName

theorem foldl_field (hdistinct : (xs.map Prod.fst).Nodup) (about : About) :
    xs.foldl (fun about x => about.field x.1 x.2) about = about.updated xs := by
  induction xs generalizing about with
  | nil =>
      change about = { about with
        engineName := if about.engineName.isEmpty then [] else about.engineName }
      by_cases hname : about.engineName.isEmpty
      · rw [if_pos hname, ← List.isEmpty_iff.mp hname]
      · rw [if_neg hname]
  | cons x xs ih =>
      rw [List.map_cons, List.nodup_cons] at hdistinct
      obtain ⟨hx, hrest⟩ := hdistinct
      have hgone : ∀ name, x.1 = name → valueOf xs name = none :=
        fun name hname => valueOf_eq_none (hname ▸ hx)
      rw [List.foldl_cons, ih hrest]
      unfold About.updated
      simp only [valueOf_cons]
      by_cases hfour : x.1 ∈ aboutNames
      · simp only [aboutNames, List.mem_cons, List.not_mem_nil, or_false] at hfour
        rcases hfour with hname | hname | hname | hname
        · have hnone := hgone _ hname
          by_cases hempty : about.engineName.isEmpty <;>
            simp [About.field, hname, hnone, hempty, String.toList_inj, -String.reduceToList]
        all_goals
          have hnone := hgone _ hname
          simp [About.field, hname, hnone, String.toList_inj, -String.reduceToList]
      · rw [About.field_of_notMem hfour]
        simp only [aboutNames, List.mem_cons, List.not_mem_nil, or_false, not_or] at hfour
        obtain ⟨hname, hversion, hauthor, hcountry⟩ := hfour
        simp only [if_neg hname, if_neg hversion, if_neg hauthor, if_neg hcountry]

/-- The second loop gives a name only to an engine that has none.  So the options always
come first. -/
theorem engineName_aboutLoop {tokens : List (List Char)} (h : about.engineName ≠ []) :
    (aboutLoop tokens about).engineName = about.engineName := by
  induction tokens generalizing about with
  | nil => rfl
  | cons token tokens ih =>
      cases tokens with
      | nil => rfl
      | cons next tokens =>
          have hkept : (about.field token next).engineName = about.engineName := by
            have hempty : ¬about.engineName.isEmpty = true := fun hnil =>
              h (List.isEmpty_iff.mp hnil)
            unfold About.field
            split_ifs
            all_goals rfl
          rw [aboutLoop_cons, ih (hkept ▸ h), hkept]

/-! ## The name of an engine -/

variable {fallbackName name line : List Char} {output skipped rest : List (List Char)}

/-- **An engine is called** as the options say, and if they do not say it, it has a name all
the same. -/
theorem name_of_parseAbout {n : List Char} (h : parseAbout fallbackName name output = some n) :
    (name ≠ [] → n = name) ∧ (fallbackName ≠ [] → n ≠ []) := by
  obtain ⟨line, -, rfl⟩ := Option.map_eq_some_iff.mp h
  constructor
  · intro hname
    have hkept : (parseAndDisplayEngineAbout line name).engineName = name :=
      engineName_aboutLoop hname
    rw [hkept, if_neg fun hnil => hname (List.isEmpty_iff.mp hnil)]
  · intro hfallback
    dsimp only
    split_ifs with hempty
    · exact hfallback
    · exact fun hnil => hempty (List.isEmpty_iff.mpr hnil)

/-- A list of assignments as an engine prints it. -/
def aboutLine (xs : List (Assignment Char)) : List Char :=
  [',', ' '].intercalate (xs.map (write '"' '='))

/-- The assignments that can be read: names without quotes and separators, no name twice,
and values without quotes that are neither empty nor one of the four names.  An empty value
is no token at all, and would make the next name the value. -/
structure ReadableAbout (xs : List (Assignment Char)) : Prop where
  name : ∀ x ∈ xs, x.1 ≠ [] ∧ ∀ c ∈ x.1, c ≠ '"' ∧ aboutSeparator c = false
  distinct : (xs.map Prod.fst).Nodup
  quote : ∀ x ∈ xs, '"' ∉ x.2
  value : ∀ x ∈ xs, x.2 ≠ [] ∧ x.2 ∉ aboutNames

theorem aboutTokens_aboutLine (h : ReadableAbout xs) :
    aboutTokens (aboutLine xs) = xs.flatMap fun x => [x.1, x.2] := by
  have htokens : aboutTokens (aboutLine xs) = xs.flatMap fun x => x.1 :: emit x.2 :=
    split_assignments (by decide) (by decide)
      (fun c hc => by rcases List.mem_pair.mp hc with rfl | rfl <;> decide) h.name h.quote
  rw [htokens]
  refine List.flatMap_congr fun x hx => ?_
  rw [emit_of_ne (h.value x hx).1]

/-- **What an engine says about itself** is read as it is meant, and it is called by the
name that it gives itself if the options give it none. -/
theorem about_of_assignments (h : ReadableAbout xs) (hdirect : isDirect (aboutLine xs))
    (hskipped : ∀ line ∈ skipped, isDirect line = false) :
    parseAndDisplayEngineAbout (aboutLine xs) name =
        About.updated xs { engineName := name } ∧
      parseAbout fallbackName name (skipped ++ aboutLine xs :: rest) =
        some (if name = [] then (valueOf xs "name".toList).getD fallbackName else name) := by
  have hread : parseAndDisplayEngineAbout (aboutLine xs) name =
      About.updated xs { engineName := name } := by
    rw [parseAndDisplayEngineAbout, aboutTokens_aboutLine h,
      aboutLoop_assignments (fun x hx => (h.value x hx).2), foldl_field h.distinct]
  refine ⟨hread, ?_⟩
  have hfind : (skipped ++ aboutLine xs :: rest).find? isDirect = some (aboutLine xs) := by
    rw [List.find?_append, List.find?_eq_none.mpr fun line hline => by simp [hskipped line hline],
      Option.none_or, List.find?_cons_of_pos hdirect]
  have hvalue : ∀ v, valueOf xs "name".toList = some v → v ≠ [] := by
    intro v hv
    obtain ⟨x, hx, rfl⟩ := Option.map_eq_some_iff.mp hv
    exact (h.value x (List.mem_of_find?_eq_some hx)).1
  rw [parseAbout, hfind, Option.map_some, hread]
  by_cases hname : name = []
  · subst hname
    cases hv : valueOf xs "name".toList with
    | none => simp [About.updated, hv, -String.reduceToList]
    | some v => simp [About.updated, hv, hvalue v hv, -String.reduceToList]
  · simp [About.updated, hname]

/-- The answer `name="Pela", version="8.5"`, behind a message. -/
theorem about_of_assignments_pela :
    let xs := [("name".toList, "Pela".toList), ("version".toList, "8.5".toList)]
    (parseAndDisplayEngineAbout (aboutLine xs) [] = About.updated xs { engineName := [] }) ∧
      parseAbout "./pela".toList [] (["MESSAGE hello".toList] ++ aboutLine xs :: []) =
        some "Pela".toList := by
  have hreadable :
      ReadableAbout [("name".toList, "Pela".toList), ("version".toList, "8.5".toList)] := by
    constructor <;> simp [aboutSeparator, aboutNames]
  exact about_of_assignments hreadable (by decide) (by decide)

end GomokuCli
