import GomokuCli.CommandLine
import GomokuCli.Play

/-!
# Raw options of an engine

An engine option `option.O=V` is a raw protocol info: the line `INFO O V` is sent
before each game.  `gomocup_game_info_command` takes `O` and `V` apart with two
calls of `string_tok`, which eats delimiters in front of a token and ends the
token at the next one.  So the second call skips the `=` behind `O`, but every
further one at the front of `V` as well, and it leaves out what follows a later
one.
-/

namespace GomokuCli

open Match

/-- An option `O=V` of an engine.  A name is not empty and has no `=` in it, because it ends
at the first one. -/
structure CustomOption where
  name : CString
  value : CString
  name_ne : name.chars ≠ []
  noEquals : '=' ∉ name.chars

namespace CustomOption

/-- The option as it is given. -/
def text (o : CustomOption) : List Char := o.name.chars ++ '=' :: o.value.chars

/-- The line that is asked for. -/
def infoLine (o : CustomOption) : List Char :=
  "INFO ".toList ++ o.name.chars ++ ' ' :: o.value.chars

/-- What the second call of `string_tok` finds.  It skips every `=` in front of the value
and stops at the first one behind that. -/
def sentValue (o : CustomOption) : List Char :=
  (o.value.chars.dropWhile (· == '=')).takeWhile (· != '=')

theorem stringTok_text (o : CustomOption) (token : List Char) :
    stringTok token (some o.text) = (o.name.chars, some ('=' :: o.value.chars)) := by
  have hplain : ∀ c ∈ o.name.chars, (c != '=') = true := fun c hc => by
    simpa using ne_of_mem_of_not_mem hc o.noEquals
  have hskip : o.text.dropWhile (· == '=') = o.text := by
    obtain ⟨c, s, hname⟩ := List.exists_cons_of_ne_nil o.name_ne
    have hc : c ≠ '=' := by simpa using hplain c (by simp [hname])
    rw [text, hname, List.cons_append, List.dropWhile_cons_of_neg (by simpa using hc)]
  have htake : o.text.takeWhile (· != '=') = o.name.chars := by
    rw [text, List.takeWhile_append_of_pos hplain]
    simp
  have hdrop : o.text.dropWhile (· != '=') = '=' :: o.value.chars := by
    rw [text, List.dropWhile_append_of_pos hplain]
    simp
  simp only [stringTok, hskip, htake, hdrop]
  simp [o.name_ne]

theorem stringTok_value (o : CustomOption) (token : List Char) :
    (stringTok token (some ('=' :: o.value.chars))).1 = o.sentValue := by
  simp [stringTok, sentValue]

/-- The value is sent as it is when there is no further `=` in it, and only then.  In every
other case at least that character is lost. -/
theorem sentValue_eq_iff (o : CustomOption) :
    o.sentValue = o.value.chars ↔ '=' ∉ o.value.chars := by
  constructor
  · intro h hmem
    rw [← h] at hmem
    have hne := List.mem_takeWhile_imp hmem
    simp at hne
  · intro h
    have hplain : ∀ c ∈ o.value.chars, (c != '=') = true := fun c hc => by
      simpa using ne_of_mem_of_not_mem hc h
    have hskip : o.value.chars.dropWhile (· == '=') = o.value.chars := by
      cases hv : o.value.chars with
      | nil => rfl
      | cons c s =>
          have hc : c ≠ '=' := by simpa using hplain c (by simp [hv])
          rw [List.dropWhile_cons_of_neg (by simpa using hc)]
    rw [sentValue, hskip]
    exact List.takeWhile_eq_self_iff.2 hplain

/-- The line that is sent. -/
def sentLine (o : CustomOption) : List Char := (Command.info o.name.chars o.sentValue).line

theorem sentLine_eq_iff (o : CustomOption) :
    o.sentLine = o.infoLine ↔ '=' ∉ o.value.chars := by
  rw [← sentValue_eq_iff]
  change "INFO ".toList ++ o.name.chars ++ ' ' :: o.sentValue =
    "INFO ".toList ++ o.name.chars ++ ' ' :: o.value.chars ↔ _
  rw [List.append_right_inj, List.cons_inj_right]

end CustomOption

/-- Whatever `left` and `right` hold, each option has a line of its own.  The two strings
are used again for the next option, but both calls of `string_tok` set them anew. -/
theorem customInfo_text (os : List CustomOption) (left right : List Char) :
    (customInfo (os.map CustomOption.text) left right).map Command.line =
      os.map CustomOption.sentLine := by
  induction os generalizing left right with
  | nil => rfl
  | cons o os ih =>
      simp only [List.map_cons, customInfo, CustomOption.stringTok_text,
        CustomOption.stringTok_value, ih, CustomOption.sentLine]

/-- The lines that `gomocup_game_info_command` sends to an engine with the options
`os`. -/
def gameInfoLines (eo : EngineOptions) (option : Options) (os : List CustomOption) :
    List (List Char) :=
  (gomocupGameInfoCommand { eo with options := os.map CustomOption.text } option).map
    Command.line

theorem gameInfoLines_eq (eo : EngineOptions) (option : Options) (os : List CustomOption) :
    gameInfoLines eo option os =
      gameInfoLines eo option [] ++ os.map CustomOption.sentLine := by
  simp only [gameInfoLines, gomocupGameInfoCommand, List.map_append, customInfo_text,
    List.map_nil, customInfo, List.append_nil]

/-- Every option is sent as it is asked for, in order, and its line is the one that it has
without the other options. -/
structure SendsEach (eo : EngineOptions) (option : Options) (os : List CustomOption) :
    Prop where
  lines : gameInfoLines eo option os =
    gameInfoLines eo option [] ++ os.map CustomOption.infoLine
  alone : gameInfoLines eo option os =
    gameInfoLines eo option [] ++
      os.flatMap fun o => (gameInfoLines eo option [o]).drop (gameInfoLines eo option []).length

/-- No line depends on the other options. -/
theorem gameInfoLines_alone (eo : EngineOptions) (option : Options) (os : List CustomOption) :
    gameInfoLines eo option os =
      gameInfoLines eo option [] ++
        os.flatMap fun o =>
          (gameInfoLines eo option [o]).drop (gameInfoLines eo option []).length := by
  rw [gameInfoLines_eq eo option os]
  congr 1
  induction os with
  | nil => rfl
  | cons o os ih =>
      rw [List.map_cons, List.flatMap_cons, ← ih, gameInfoLines_eq eo option [o], List.drop_left]
      rfl

/-- **Raw options.** They are sent as they are asked for exactly when none of the values has
a `=` in it.  The order and the independence of the lines never fail: no option can take
anything from another one. -/
theorem sendsEach_iff (eo : EngineOptions) (option : Options) (os : List CustomOption) :
    SendsEach eo option os ↔ ∀ o ∈ os, '=' ∉ o.value.chars := by
  have hlines : gameInfoLines eo option os =
      gameInfoLines eo option [] ++ os.map CustomOption.infoLine ↔
        ∀ o ∈ os, '=' ∉ o.value.chars := by
    rw [gameInfoLines_eq eo option os, List.append_right_inj, List.map_inj_left]
    simp only [CustomOption.sentLine_eq_iff]
  constructor
  · exact fun h => hlines.1 h.lines
  · exact fun h => ⟨hlines.2 h, gameInfoLines_alone eo option os⟩

/-- The option `a=b=c`. -/
def CustomOption.twoEquals : CustomOption where
  name := ⟨['a'], by decide⟩
  value := ⟨['b', '=', 'c'], by decide⟩
  name_ne := by decide
  noEquals := by decide

/-- It is sent as `INFO a b`. -/
theorem not_sendsEach_twoEquals :
    ¬ SendsEach {} {} [CustomOption.twoEquals] ∧
      gameInfoLines {} {} [CustomOption.twoEquals] =
        gameInfoLines {} {} [] ++ ["INFO a b".toList] := by
  have heq : gameInfoLines {} {} [CustomOption.twoEquals] =
      gameInfoLines {} {} [] ++ [CustomOption.twoEquals.sentLine] :=
    gameInfoLines_eq {} {} [CustomOption.twoEquals]
  have hsent : CustomOption.twoEquals.sentLine = "INFO a b".toList := by decide
  have hasked : CustomOption.twoEquals.infoLine ≠ "INFO a b".toList := by decide
  constructor
  · intro h
    have hline := List.append_cancel_left (heq.symm.trans h.lines)
    rw [hsent, List.map_singleton, List.singleton_inj] at hline
    exact hasked hline.symm
  · exact heq.trans (congrArg (gameInfoLines {} {} [] ++ [·]) hsent)

end GomokuCli
