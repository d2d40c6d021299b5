import GomokuCli.EachGroups
import GomokuCli.OptionsCursor

/-!
# Where the command line is read

`Complete` says without reading anything which command lines are options with all
that they take.  From the front of any other one the loop of `options_parse` gets
to an error message or to an option whose value is missing (`parseArgs_complete`,
`parseArgs_nullPointer`).

The nine options that take one value do not ask whether there is one: behind a
complete command line each of them reads `argv[argc]`.  Apart from that the index
stays inside and moves on (`readsInside_iff`).
-/

namespace GomokuCli

open EarlyExit

namespace OptionsParse

/-! ## What the options take -/

/-- The options that take one value. -/
def Flag.takesValue : Flag → Bool
  | .concurrency | .games | .rounds | .pgn | .sgf | .msg | .drawafter | .rule | .boardsize => true
  | _ => false

/-- The tokens behind `-each` and `-engine`. -/
def EngineAccepts (a : Arg) : Prop := (∃ k : Key, k.text <+: a) ∨ "option.".toList <+: a

/-- The tokens behind `-openings`. -/
def OpeningsAccepts (a : Arg) : Prop :=
  "file=".toList <+: a ∨ "srand=".toList <+: a ∨
    a = "type=pos".toList ∨ a = "type=offset".toList ∨
    a = "order=random".toList ∨ a = "order=sequential".toList

/-- The tokens behind `-sprt`. -/
def SprtAccepts (a : Arg) : Prop :=
  "elo0=".toList <+: a ∨ "elo1=".toList <+: a ∨ "alpha=".toList <+: a ∨ "beta=".toList <+: a

/-- The tokens behind `-sample`. -/
def SampleAccepts (a : Arg) : Prop :=
  "freq=".toList <+: a ∨ "file=".toList <+: a ∨
    a = "format=csv".toList ∨ a = "format=bin".toList ∨ a = "format=bin_lz4".toList ∨
    a = "format=binpack".toList ∨ a = "format=binpack_lz4".toList

/-- A group of tokens. -/
def Tokens (accepts : Arg → Prop) (own : List Arg) : Prop :=
  ∀ a ∈ own, a.head? ≠ some '-' ∧ accepts a

section Complete

variable {F : Floats}

/-- The parameters of the test after a token. -/
def SPRTParam.set (p : SPRTParam F) (a : Arg) : SPRTParam F :=
  match sprtToken p a with
  | .ok p' => p'
  | .error _ => p

/-- The parameters of the test after an option with its arguments. -/
def Flag.sprtAfter (flag : Flag) (p : SPRTParam F) (own : List Arg) : SPRTParam F :=
  if flag = .sprt then own.foldl SPRTParam.set p else p

/-- The option takes these arguments, when the parameters of the test are `p`.  They matter
because `-sprt` may be given twice, and is checked with what the first one has set. -/
def Flag.Accepts (flag : Flag) (p : SPRTParam F) (own : List Arg) : Prop :=
  match flag with
  | .each | .engine => Tokens EngineAccepts own
  | .openings => Tokens OpeningsAccepts own
  | .sample => Tokens SampleAccepts own
  | .sprt => Tokens SprtAccepts own ∧ (own.foldl SPRTParam.set p).validate = true
  | .concurrency | .games | .rounds | .pgn | .sgf | .msg | .drawafter => ∃ v, own = [v]
  | .rule => ∃ v, own = [v] ∧ ∃ rule, checkRuleCode (atoi v) = .ok rule
  | .boardsize => ∃ v, own = [v] ∧ 5 ≤ atoi v ∧ atoi v ≤ 22
  | .resign | .draw => ∃ count score, own = [count, score]
  | _ => own = []

/-- Options, each with all that it takes.  The parameters of the test are carried along, and
nothing else of what has been read decides what is accepted. -/
inductive Complete : SPRTParam F → List Arg → Prop
  | nil (p : SPRTParam F) : Complete p []
  | option {p : SPRTParam F} {a : Arg} {flag : Flag} {own rest : List Arg}
      (hflag : Flag.ofArg a = some flag) (haccepts : flag.Accepts p own)
      (hrest : Complete (flag.sprtAfter p own) rest) : Complete p (a :: (own ++ rest))

end Complete

/-! ## Tokens -/

theorem stringPrefix_append (pre tail : List Char) :
    stringPrefix (pre ++ tail) pre = some tail := by
  rw [stringPrefix, if_pos (List.isPrefixOf_iff_prefix.mpr (List.prefix_append pre tail)),
    List.drop_left]

theorem eq_append_of_stringPrefix {s pre tail : List Char} (h : stringPrefix s pre = some tail) :
    s = pre ++ tail := by
  rw [stringPrefix, Option.ite_none_right_eq_some] at h
  obtain ⟨hpre, htail⟩ := h
  obtain ⟨rest, rfl⟩ := List.isPrefixOf_iff_prefix.mp hpre
  rw [List.drop_left, Option.some.injEq] at htail
  rw [htail]

/-- A body of one of the loops over tokens: which tokens it takes does not depend on the
values read so far, and it ends the program on the others.  With this the four loops are
treated alike. -/
structure Body {σ : Type} (body : σ → Arg → Except Stop σ) (accepts : Arg → Prop) : Prop where
  ok : ∀ s a, (∃ s', body s a = .ok s') ↔ accepts a
  die : ∀ s a stop, body s a = .error stop → ∃ message, stop = .die message

variable {F : Floats}

theorem body_engineToken : Body (engineToken F) EngineAccepts where
  ok eo a := by
    rw [engineToken]
    cases hkey : Key.ofArg a with
    | some found =>
        obtain ⟨k, tail⟩ := found
        have ha := eq_append_of_stringPrefix (Key.ofArg_eq_some_iff.mp hkey)
        exact iff_of_true ⟨_, rfl⟩ (Or.inl ⟨k, ha ▸ List.prefix_append _ _⟩)
    | none =>
        have hnone : ¬∃ k : Key, k.text <+: a := by
          rintro ⟨k, tail, rfl⟩
          rw [Key.ofArg_eq_some_iff.mpr (stringPrefix_append k.text tail)] at hkey
          cases hkey
        rw [EngineAccepts, or_iff_right hnone]
        cases hoption : stringPrefix a "option.".toList with
        | some tail =>
            have ha := eq_append_of_stringPrefix hoption
            exact iff_of_true ⟨_, rfl⟩ (ha ▸ List.prefix_append _ _)
        | none =>
            refine iff_of_false ?_ ?_
            · rintro ⟨eo', h⟩
              cases h
            · rintro ⟨tail, rfl⟩
              rw [stringPrefix_append] at hoption
              cases hoption
  die eo a stop h := by
    rw [engineToken] at h
    split at h
    · cases h
    · split at h
      · cases h
      · cases h
        exact ⟨_, rfl⟩

theorem body_openingsToken : Body (openingsToken (F := F)) OpeningsAccepts where
  ok o a := by
    constructor
    · rintro ⟨o', h⟩
      unfold openingsToken at h
      split at h
      next tail hfile => exact Or.inl (eq_append_of_stringPrefix hfile ▸ List.prefix_append _ _)
      split at h
      next tail htype =>
        have ha := eq_append_of_stringPrefix htype
        split at h
        next hpos =>
          subst hpos
          exact Or.inr (Or.inr (Or.inl ha))
        split at h
        next hoffset =>
          subst hoffset
          exact Or.inr (Or.inr (Or.inr (Or.inl ha)))
        cases h
      split at h
      next tail horder =>
        have ha := eq_append_of_stringPrefix horder
        split at h
        next hrandom =>
          subst hrandom
          exact Or.inr (Or.inr (Or.inr (Or.inr (Or.inl ha))))
        split at h
        next hsequential =>
          subst hsequential
          exact Or.inr (Or.inr (Or.inr (Or.inr (Or.inr ha))))
        cases h
      split at h
      next tail hsrand =>
        exact Or.inr (Or.inl (eq_append_of_stringPrefix hsrand ▸ List.prefix_append _ _))
      cases h
    · rintro (⟨tail, rfl⟩ | ⟨tail, rfl⟩ | rfl | rfl | rfl | rfl)
      · exact ⟨_, rfl⟩
      · exact ⟨_, rfl⟩
      · exact ⟨_, rfl⟩
      · exact ⟨_, rfl⟩
      · exact ⟨_, rfl⟩
      · exact ⟨_, rfl⟩
  die o a stop h := by
    unfold openingsToken at h
    repeat' split at h
    all_goals cases h
    all_goals exact ⟨_, rfl⟩

theorem body_sprtToken : Body (sprtToken (F := F)) SprtAccepts where
  ok p a := by
    constructor
    · rintro ⟨p', h⟩
      unfold sprtToken at h
      split at h
      next tail helo0 => exact Or.inl (eq_append_of_stringPrefix helo0 ▸ List.prefix_append _ _)
      split at h
      next tail helo1 =>
        exact Or.inr (Or.inl (eq_append_of_stringPrefix helo1 ▸ List.prefix_append _ _))
      split at h
      next tail halpha =>
        exact Or.inr (Or.inr (Or.inl (eq_append_of_stringPrefix halpha ▸ List.prefix_append _ _)))
      split at h
      next tail hbeta =>
        exact Or.inr (Or.inr (Or.inr (eq_append_of_stringPrefix hbeta ▸ List.prefix_append _ _)))
      cases h
    · rintro (⟨tail, rfl⟩ | ⟨tail, rfl⟩ | ⟨tail, rfl⟩ | ⟨tail, rfl⟩)
      · exact ⟨_, rfl⟩
      · exact ⟨_, rfl⟩
      · exact ⟨_, rfl⟩
      · exact ⟨_, rfl⟩
  die p a stop h := by
    unfold sprtToken at h
    repeat' split at h
    all_goals cases h
    exact ⟨_, rfl⟩

theorem sampleFormat_isSome {compress : Bool} {tail : List Char} {x : SampleFormat × Bool}
    (h : sampleFormat compress tail = some x) :
    tail = "csv".toList ∨ tail = "bin".toList ∨ tail = "bin_lz4".toList ∨
      tail = "binpack".toList ∨ tail = "binpack_lz4".toList := by
  unfold sampleFormat at h
  split at h
  next hcsv => exact Or.inl hcsv
  split at h
  next hbin => exact Or.inr (Or.inl hbin)
  split at h
  next hlz4 => exact Or.inr (Or.inr (Or.inl hlz4))
  split at h
  next hbinpack => exact Or.inr (Or.inr (Or.inr (Or.inl hbinpack)))
  split at h
  next hlz4 => exact Or.inr (Or.inr (Or.inr (Or.inr hlz4)))
  cases h

theorem body_sampleToken : Body (sampleToken (F := F)) SampleAccepts where
  ok sp a := by
    constructor
    · rintro ⟨sp', h⟩
      unfold sampleToken at h
      split at h
      next tail hfreq => exact Or.inl (eq_append_of_stringPrefix hfreq ▸ List.prefix_append _ _)
      split at h
      next tail hfile =>
        exact Or.inr (Or.inl (eq_append_of_stringPrefix hfile ▸ List.prefix_append _ _))
      split at h
      next tail hformat =>
        have ha := eq_append_of_stringPrefix hformat
        split at h
        next format compress hsome =>
          refine Or.inr (Or.inr ?_)
          obtain rfl | rfl | rfl | rfl | rfl := sampleFormat_isSome hsome
          · exact Or.inl ha
          · exact Or.inr (Or.inl ha)
          · exact Or.inr (Or.inr (Or.inl ha))
          · exact Or.inr (Or.inr (Or.inr (Or.inl ha)))
          · exact Or.inr (Or.inr (Or.inr (Or.inr ha)))
        cases h
      cases h
    · rintro (⟨tail, rfl⟩ | ⟨tail, rfl⟩ | rfl | rfl | rfl | rfl | rfl)
      · exact ⟨_, rfl⟩
      · exact ⟨_, rfl⟩
      · exact ⟨_, rfl⟩
      · exact ⟨_, rfl⟩
      · exact ⟨_, rfl⟩
      · exact ⟨_, rfl⟩
      · exact ⟨_, rfl⟩
  die sp a stop h := by
    unfold sampleToken at h
    repeat' split at h
    all_goals cases h
    all_goals exact ⟨_, rfl⟩

/-! ## Groups -/

theorem group_append {own rest : List Arg} (hown : ∀ a ∈ own, a.head? ≠ some '-')
    (hrest : group rest = []) : group (own ++ rest) = own := by
  induction own with
  | nil => exact hrest
  | cons a own ih =>
      rw [List.cons_append, group_cons, if_pos (hown a List.mem_cons_self),
        ih fun b hb => hown b (List.mem_cons_of_mem a hb)]

theorem head?_ne_of_mem_group {a : Arg} {args : List Arg} (h : a ∈ group args) :
    a.head? ≠ some '-' :=
  of_decide_eq_true (List.mem_takeWhile_imp (p := fun a : Arg => a.head? ≠ some '-') h)

theorem group_prefix (args : List Arg) : group args <+: args := List.takeWhile_prefix _

section Bodies

variable {σ : Type} {body : σ → Arg → Except Stop σ} {accepts : Arg → Prop}
  {args own rest : List Arg} {s s' : σ}

theorem Body.foldlM_ok (h : Body body accepts) (args : List Arg) (s : σ) :
    (∃ s', args.foldlM body s = .ok s') ↔ ∀ a ∈ args, accepts a := by
  induction args generalizing s with
  | nil => exact iff_of_true ⟨s, rfl⟩ (by simp)
  | cons a args ih =>
      rw [List.forall_mem_cons, ← h.ok s a]
      simp only [List.foldlM_cons, bind_eq_ok]
      constructor
      · rintro ⟨s', s₁, hfirst, hrest⟩
        exact ⟨⟨s₁, hfirst⟩, (ih s₁).mp ⟨s', hrest⟩⟩
      · rintro ⟨⟨s₁, hfirst⟩, hrest⟩
        obtain ⟨s', hrest⟩ := (ih s₁).mpr hrest
        exact ⟨s', s₁, hfirst, hrest⟩

theorem Body.foldlM_die (h : Body body accepts) {stop : Stop}
    (hstop : args.foldlM body s = .error stop) : ∃ message, stop = .die message := by
  induction args generalizing s with
  | nil => cases hstop
  | cons a args ih =>
      rw [List.foldlM_cons] at hstop
      obtain hfirst | ⟨s₁, -, hrest⟩ := bind_eq_error.mp hstop
      · exact h.die s a stop hfirst
      · exact ih hrest

/-- A group that was read. -/
theorem Body.tokens (h : Body body accepts) {n : ℕ}
    (hread : whileTokens body args s = .ok (s', n)) :
    ∃ own rest, args = own ++ rest ∧ n = own.length ∧ Tokens accepts own ∧
      own.foldlM body s = .ok s' := by
  obtain ⟨hfold, rfl⟩ := whileTokens_eq_ok hread
  obtain ⟨rest, hrest⟩ := group_prefix args
  refine ⟨group args, rest, hrest.symm, rfl, fun a ha => ?_, hfold⟩
  exact ⟨head?_ne_of_mem_group ha, (h.foldlM_ok (group args) s).mp ⟨s', hfold⟩ a ha⟩

/-- A group that is there is read. -/
theorem Body.read (h : Body body accepts) (hown : Tokens accepts own) (hrest : group rest = [])
    (s : σ) : ∃ s', own.foldlM body s = .ok s' ∧
      whileTokens body (own ++ rest) s = .ok (s', own.length) := by
  obtain ⟨s', hfold⟩ := (h.foldlM_ok own s).mpr fun a ha => (hown a ha).2
  refine ⟨s', hfold, ?_⟩
  rw [whileTokens, group_append (fun a ha => (hown a ha).1) hrest, hfold]
  rfl

theorem Body.whileTokens_die (h : Body body accepts) {stop : Stop}
    (hstop : whileTokens body args s = .error stop) : ∃ message, stop = .die message := by
  obtain hfold | ⟨s', -, hret⟩ := bind_eq_error.mp hstop
  · exact h.foldlM_die hfold
  · cases hret

end Bodies

/-! ## One option -/

theorem foldl_set {own : List Arg} {p p' : SPRTParam F} (h : own.foldlM sprtToken p = .ok p') :
    own.foldl SPRTParam.set p = p' := by
  induction own generalizing p with
  | nil =>
      cases h
      rfl
  | cons a own ih =>
      rw [List.foldlM_cons] at h
      obtain ⟨p₁, hfirst, hrest⟩ := bind_eq_ok.mp h
      rw [List.foldl_cons, SPRTParam.set, hfirst]
      exact ih hrest

theorem sprtParam_openingsToken {own : List Arg} {o o' : GlobalOptions F}
    (h : own.foldlM openingsToken o = .ok o') : o'.sprtParam = o.sprtParam := by
  induction own generalizing o with
  | nil =>
      cases h
      rfl
  | cons a own ih =>
      rw [List.foldlM_cons] at h
      obtain ⟨o₁, hfirst, hrest⟩ := bind_eq_ok.mp h
      rw [ih hrest]
      unfold openingsToken at hfirst
      repeat' split at hfirst
      all_goals cases hfirst
      all_goals rfl

section Flag

variable {a : Arg} {flag : Flag} {args own rest : List Arg} {s s' : ParseState F} {n : ℕ}

theorem nextArg_eq_ok {v : Arg} (h : nextArg args = .ok v) : ∃ rest, args = [v] ++ rest := by
  cases args with
  | nil => cases h
  | cons v' rest =>
      cases h
      exact ⟨rest, rfl⟩

/-- **An option that was read** has taken what it accepts.  It has consumed just that, and
left the parameters of the test alone unless it is `-sprt`. -/
theorem accepts_of_parseFlag (h : parseFlag a flag args s = .ok (s', n)) :
    ∃ own rest, args = own ++ rest ∧ n = own.length ∧ flag.Accepts s.o.sprtParam own ∧
      s'.o.sprtParam = flag.sprtAfter s.o.sprtParam own := by
  cases flag with
  | repeats | transform | gauntlet | loseonly | log | debug | sendbyboard | fatalerror =>
      cases h
      exact ⟨[], args, rfl, rfl, rfl, rfl⟩
  | concurrency | games | rounds | pgn | sgf | msg | drawafter =>
      obtain ⟨v, hv, hret⟩ := bind_eq_ok.mp h
      obtain ⟨rest, hargs⟩ := nextArg_eq_ok hv
      cases hret
      exact ⟨[v], rest, hargs, rfl, ⟨v, rfl⟩, rfl⟩
  | rule =>
      obtain ⟨v, hv, hrest⟩ := bind_eq_ok.mp h
      obtain ⟨rule, hrule, hret⟩ := bind_eq_ok.mp hrest
      obtain ⟨rest, hargs⟩ := nextArg_eq_ok hv
      cases hret
      exact ⟨[v], rest, hargs, rfl, ⟨v, rfl, rule, hrule⟩, rfl⟩
  | boardsize =>
      obtain ⟨v, hv, hret⟩ := bind_eq_ok.mp h
      obtain ⟨rest, hargs⟩ := nextArg_eq_ok hv
      split at hret
      next hsize =>
        cases hret
        exact ⟨[v], rest, hargs, rfl, ⟨v, rfl, hsize⟩, rfl⟩
      next => cases hret
  | resign | draw =>
      obtain ⟨⟨count, score⟩, hpair, hret⟩ := bind_eq_ok.mp h
      cases hret
      unfold optionsParseAdjudication at hpair
      split at hpair
      next v w rest => exact ⟨[v, w], rest, rfl, rfl, ⟨v, w, rfl⟩, rfl⟩
      next => cases hpair
  | each =>
      obtain ⟨⟨each, n'⟩, hread, hret⟩ := bind_eq_ok.mp h
      obtain ⟨own, rest, hargs, hn, htokens, -⟩ := body_engineToken.tokens hread
      cases hret
      exact ⟨own, rest, hargs, hn, htokens, rfl⟩
  | engine =>
      obtain ⟨⟨newEn, n'⟩, hread, hret⟩ := bind_eq_ok.mp h
      obtain ⟨own, rest, hargs, hn, htokens, -⟩ := body_engineToken.tokens hread
      cases hret
      exact ⟨own, rest, hargs, hn, htokens, rfl⟩
  | openings =>
      obtain ⟨⟨o, n'⟩, hread, hret⟩ := bind_eq_ok.mp h
      obtain ⟨own, rest, hargs, hn, htokens, hfold⟩ := body_openingsToken.tokens hread
      cases hret
      exact ⟨own, rest, hargs, hn, htokens, sprtParam_openingsToken hfold⟩
  | sample =>
      obtain ⟨⟨o, n'⟩, hsample, hret⟩ := bind_eq_ok.mp h
      obtain ⟨⟨sp, n''⟩, hread, hret'⟩ := bind_eq_ok.mp hsample
      obtain ⟨own, rest, hargs, hn, htokens, -⟩ := body_sampleToken.tokens hread
      cases hret'
      cases hret
      exact ⟨own, rest, hargs, hn, htokens, rfl⟩
  | sprt =>
      obtain ⟨⟨o, n'⟩, hsprt, hret⟩ := bind_eq_ok.mp h
      obtain ⟨⟨p, n''⟩, hread, hret'⟩ := bind_eq_ok.mp hsprt
      obtain ⟨own, rest, hargs, hn, htokens, hfold⟩ := body_sprtToken.tokens hread
      cases hvalid : p.validate with
      | false =>
          simp only [hvalid] at hret'
          cases hret'
      | true =>
          simp only [hvalid] at hret'
          cases hret'
          cases hret
          refine ⟨own, rest, hargs, hn, ⟨htokens, ?_⟩, ?_⟩
          · rwa [foldl_set hfold]
          · rw [Flag.sprtAfter, if_pos rfl, foldl_set hfold]

/-- **An option with what it accepts** is read, whatever has been read before it. -/
theorem parseFlag_of_accepts (a : Arg) (h : flag.Accepts s.o.sprtParam own)
    (hrest : group rest = []) :
    ∃ s', parseFlag a flag (own ++ rest) s = .ok (s', own.length) ∧
      s'.o.sprtParam = flag.sprtAfter s.o.sprtParam own := by
  cases flag with
  | repeats | transform | gauntlet | loseonly | log | debug | sendbyboard | fatalerror =>
      obtain rfl : own = [] := h
      exact ⟨_, rfl, rfl⟩
  | concurrency | games | rounds | pgn | sgf | msg | drawafter =>
      obtain ⟨v, rfl⟩ := h
      exact ⟨_, rfl, rfl⟩
  | rule =>
      obtain ⟨v, rfl, rule, hrule⟩ := h
      refine ⟨_, bind_eq_ok.mpr ⟨v, rfl, bind_eq_ok.mpr ⟨rule, hrule, rfl⟩⟩, rfl⟩
  | boardsize =>
      obtain ⟨v, rfl, hsize⟩ := h
      exact ⟨_, bind_eq_ok.mpr ⟨v, rfl, if_pos hsize⟩, rfl⟩
  | resign | draw =>
      obtain ⟨count, score, rfl⟩ := h
      exact ⟨_, rfl, rfl⟩
  | each =>
      obtain ⟨each, -, hread⟩ := body_engineToken.read h hrest s.each
      exact ⟨_, bind_eq_ok.mpr ⟨_, hread, rfl⟩, rfl⟩
  | engine =>
      obtain ⟨newEn, -, hread⟩ := body_engineToken.read h hrest {}
      exact ⟨_, bind_eq_ok.mpr ⟨_, hread, rfl⟩, rfl⟩
  | openings =>
      obtain ⟨o, hfold, hread⟩ := body_openingsToken.read h hrest s.o
      exact ⟨_, bind_eq_ok.mpr ⟨_, hread, rfl⟩, sprtParam_openingsToken hfold⟩
  | sample =>
      obtain ⟨sp, -, hread⟩ := body_sampleToken.read h hrest s.o.sp
      exact ⟨_, bind_eq_ok.mpr ⟨_, bind_eq_ok.mpr ⟨_, hread, rfl⟩, rfl⟩, rfl⟩
  | sprt =>
      obtain ⟨htokens, hvalid⟩ := h
      obtain ⟨p, hfold, hread⟩ := body_sprtToken.read htokens hrest s.o.sprtParam
      rw [foldl_set hfold] at hvalid
      refine ⟨_, bind_eq_ok.mpr ⟨_, bind_eq_ok.mpr ⟨_, hread, if_pos hvalid⟩, rfl⟩, ?_⟩
      rw [Flag.sprtAfter, if_pos rfl, foldl_set hfold]

theorem nextArg_eq_error {stop : Stop} (h : nextArg args = .error stop) :
    args = [] ∧ stop = .nullPointer := by
  cases args with
  | nil =>
      cases h
      exact ⟨rfl, rfl⟩
  | cons v rest => cases h

/-- **An option that ends the program** has a message for it, or misses its one value.  In
the second case it was the last argument, and `argv[argc]` is read. -/
theorem parseFlag_error {stop : Stop} (h : parseFlag a flag args s = .error stop) :
    (∃ message, stop = .die message) ∨
      flag.takesValue = true ∧ args = [] ∧ stop = .nullPointer := by
  cases flag with
  | repeats | transform | gauntlet | loseonly | log | debug | sendbyboard | fatalerror => cases h
  | concurrency | games | rounds | pgn | sgf | msg | drawafter =>
      obtain hnext | ⟨v, -, hret⟩ := bind_eq_error.mp h
      · exact Or.inr ⟨rfl, nextArg_eq_error hnext⟩
      · cases hret
  | rule =>
      obtain hnext | ⟨v, -, hrest⟩ := bind_eq_error.mp h
      · exact Or.inr ⟨rfl, nextArg_eq_error hnext⟩
      obtain hrule | ⟨rule, -, hret⟩ := bind_eq_error.mp hrest
      · unfold checkRuleCode at hrule
        split at hrule
        · cases hrule
        · cases hrule
          exact Or.inl ⟨_, rfl⟩
      · cases hret
  | boardsize =>
      obtain hnext | ⟨v, -, hret⟩ := bind_eq_error.mp h
      · exact Or.inr ⟨rfl, nextArg_eq_error hnext⟩
      split at hret
      · cases hret
      · cases hret
        exact Or.inl ⟨_, rfl⟩
  | resign | draw =>
      obtain hpair | ⟨x, -, hret⟩ := bind_eq_error.mp h
      · unfold optionsParseAdjudication at hpair
        split at hpair
        · cases hpair
        · cases hpair
          exact Or.inl ⟨_, rfl⟩
      · cases hret
  | each | engine =>
      obtain hread | ⟨x, -, hret⟩ := bind_eq_error.mp h
      · exact Or.inl (body_engineToken.whileTokens_die hread)
      · cases hret
  | openings =>
      obtain hread | ⟨x, -, hret⟩ := bind_eq_error.mp h
      · exact Or.inl (body_openingsToken.whileTokens_die hread)
      · cases hret
  | sample =>
      obtain hsample | ⟨x, -, hret⟩ := bind_eq_error.mp h
      · obtain hread | ⟨y, -, hret⟩ := bind_eq_error.mp hsample
        · exact Or.inl (body_sampleToken.whileTokens_die hread)
        · cases hret
      · cases hret
  | sprt =>
      obtain hsprt | ⟨x, -, hret⟩ := bind_eq_error.mp h
      · obtain hread | ⟨⟨p, n'⟩, -, hret⟩ := bind_eq_error.mp hsprt
        · exact Or.inl (body_sprtToken.whileTokens_die hread)
        · cases hvalid : p.validate with
          | true =>
              simp only [hvalid] at hret
              cases hret
          | false =>
              simp only [hvalid] at hret
              cases hret
              exact Or.inl ⟨_, rfl⟩
      · cases hret

end Flag

/-! ## The whole command line -/

theorem head?_of_flag {a : Arg} {flag : Flag} (h : Flag.ofArg a = some flag) :
    a.head? = some '-' := by
  have hall : (Flag.table.all fun entry => entry.1.head? == some '-') = true := rfl
  obtain ⟨before, after, htable, -⟩ := List.lookup_eq_some_iff.mp h
  have hmem : (a, flag) ∈ Flag.table := by
    rw [htable]
    exact List.mem_append_right before List.mem_cons_self
  exact eq_of_beq (List.all_eq_true.mp hall _ hmem)

/-- What follows a group of tokens. -/
theorem Complete.group_eq_nil {p : SPRTParam F} {args rest : List Arg} (h : Complete p args)
    (hrest : group rest = []) : group (args ++ rest) = [] := by
  cases h with
  | nil => exact hrest
  | option hflag =>
      rw [List.cons_append, group_cons, if_neg (not_not.mpr (head?_of_flag hflag))]

/-- **A complete part of the command line** is read to its end.  By induction on its
options. -/
theorem parseArgs_complete {p : SPRTParam F} {args rest : List Arg} (h : Complete p args)
    (hrest : group rest = []) {s : ParseState F} (hp : s.o.sprtParam = p) :
    ∃ s', parseArgs 0 (args ++ rest) s = parseArgs 0 rest s' := by
  induction h generalizing s with
  | nil => exact ⟨s, rfl⟩
  | @option p a flag own args hflag haccepts hargs ih =>
      subst hp
      obtain ⟨s₁, hread, hafter⟩ :=
        parseFlag_of_accepts a haccepts (hargs.group_eq_nil hrest)
      obtain ⟨s', hs'⟩ := ih hafter
      refine ⟨s', ?_⟩
      rw [List.cons_append, parseArgs, hflag, List.append_assoc]
      change (parseFlag a flag (own ++ (args ++ rest)) s >>= fun x => _) = _
      rw [hread]
      change parseArgs own.length (own ++ (args ++ rest)) s₁ = _
      rw [parseArgs_skip, List.drop_left, hs']

/-- The command line ends with an option whose one value is missing, behind options that are
complete.  Anything wrong in front of it would end the program before it is reached. -/
def MissesValue (p : SPRTParam F) (args : List Arg) : Prop :=
  ∃ init a flag, args = init ++ [a] ∧ Flag.ofArg a = some flag ∧ flag.takesValue = true ∧
    Complete p init

theorem missesValue_of_parseArgs {args : List Arg} {s : ParseState F}
    (h : parseArgs 0 args s = .error .nullPointer) : MissesValue s.o.sprtParam args := by
  induction hlen : args.length using Nat.strong_induction_on generalizing args s with
  | _ len ih =>
  cases args with
  | nil => cases h
  | cons a args =>
      rw [parseArgs] at h
      cases hflag : Flag.ofArg a with
      | none =>
          rw [hflag] at h
          cases h
      | some flag =>
          rw [hflag] at h
          obtain hstop | ⟨⟨s₁, n⟩, hread, hrest⟩ := bind_eq_error.mp h
          · obtain ⟨message, hdie⟩ | ⟨hvalue, rfl, -⟩ := parseFlag_error hstop
            · cases hdie
            · exact ⟨[], a, flag, rfl, hflag, hvalue, .nil _⟩
          · obtain ⟨own, rest, rfl, rfl, haccepts, hafter⟩ := accepts_of_parseFlag hread
            change parseArgs own.length (own ++ rest) s₁ = _ at hrest
            rw [parseArgs_skip, List.drop_left] at hrest
            rw [List.length_cons, List.length_append] at hlen
            obtain ⟨init, b, flag', rfl, hflag', hvalue, hinit⟩ :=
              ih rest.length (by omega) hrest rfl
            rw [hafter] at hinit
            refine ⟨a :: (own ++ init), b, flag', ?_, hflag', hvalue, .option hflag haccepts hinit⟩
            rw [List.cons_append, List.append_assoc]

theorem parseArgs_of_missesValue {args : List Arg} {s : ParseState F}
    (h : MissesValue s.o.sprtParam args) : parseArgs 0 args s = .error .nullPointer := by
  obtain ⟨init, a, flag, rfl, hflag, hvalue, hinit⟩ := h
  have hend : group [a] = [] := by rw [group_cons, if_neg (not_not.mpr (head?_of_flag hflag))]
  obtain ⟨s', hs'⟩ := parseArgs_complete hinit hend rfl
  have hmissing : parseFlag a flag [] s' = .error .nullPointer := by
    cases flag with
    | concurrency | games | rounds | pgn | sgf | msg | drawafter | rule | boardsize => rfl
    | repeats | transform | gauntlet | loseonly | log | debug | sendbyboard | fatalerror
    | resign | draw | each | engine | openings | sample | sprt => cases hvalue
  rw [hs', parseArgs, hflag]
  change (parseFlag a flag [] s' >>= fun x => _) = _
  rw [hmissing]
  rfl

-- the size is `15` for `atoi`, so that the reading goes on to `-games`
example : parseArgs 0 ["-boardsize".toList, "4294967311".toList, "-games".toList]
    ({ o := {} } : ParseState thousandths) = .error .nullPointer := rfl

/-- **An error** of the loop has a message, unless a value is missing.  So this is the only
way in which the loop leaves the arguments. -/
theorem parseArgs_error {args : List Arg} {s : ParseState F} {stop : Stop}
    (h : parseArgs 0 args s = .error stop) (hvalue : ¬MissesValue s.o.sprtParam args) :
    ∃ message, stop = .die message := by
  cases stop with
  | die message => exact ⟨message, rfl⟩
  | nullPointer => exact absurd (missesValue_of_parseArgs h) hvalue

/-! ## The index -/

/-- The reading of `argv` stays inside: the index moves on in every round, never past
`argc`, and in the end all arguments are consumed or the program dies with a message. -/
structure ReadsInside (argv : List Arg) (s : ParseState F) : Prop where
  advances : ∀ i s₁ i' s₂, Reaches (round argv) (1, s) (i, s₁) →
    round argv (i, s₁) = .ok (i', s₂) → i < i' ∧ i' ≤ argv.length
  ends : ∃ n out, run (round argv) n (1, s) = some out ∧
    ((∃ i s', out = .ok s' ∧ argv.length ≤ i ∧ Reaches (round argv) (1, s) (i, s')) ∨
      ∃ message, out = .error (.die message))

section Round

variable {argv : List Arg} {i i' : ℕ} {s s' : ParseState F}

/-- **Every round** moves the index on.  It is the measure for which the loop comes to an
end. -/
theorem round_advances (h : round argv (i, s) = .ok (i', s')) : i < i' ∧ i' ≤ argv.length := by
  rw [round] at h
  split at h
  next hlt =>
    have hget : argv[i]? = some argv[i] := List.getElem?_eq_getElem hlt
    split at h
    next s₁ i₁ hbody =>
      cases h
      rw [bodyAt, argAt, hget] at hbody
      obtain ⟨a, ha, hbody⟩ := bind_eq_ok.mp hbody
      cases ha
      split at hbody
      next => cases hbody
      next flag hflag =>
        rw [parseFlagAt_eq hget] at hbody
        cases hread : parseFlag argv[i] flag (argv.drop (i + 1)) s with
        | error stop =>
            rw [hread] at hbody
            cases hbody
        | ok x =>
            rw [hread] at hbody
            cases hbody
            obtain ⟨own, rest, hargs, hn, -, -⟩ := accepts_of_parseFlag hread
            have hlength := congrArg List.length hargs
            rw [List.length_drop, List.length_append] at hlength
            omega
    next => cases h
  next => cases h

/-- The loop is left with the state of a reachable round that finds no argument. -/
theorem exit_of_ok {t : ℕ × ParseState F} (h : round argv t = .error (.ok s')) :
    argv.length ≤ t.1 ∧ s' = t.2 := by
  obtain ⟨i, s⟩ := t
  rw [round] at h
  split at h
  next =>
    split at h
    next => cases h
    next => cases h
  next hend =>
    cases h
    exact ⟨not_lt.mp hend, rfl⟩

end Round

/-- **The command line is read inside its bounds** exactly if it does not end with one of
the options that take a value, behind options that are complete.  The other options look at
`argc` before they read. -/
theorem readsInside_iff (argv : List Arg) (o : GlobalOptions F) :
    ReadsInside argv ({ o := o } : ParseState F) ↔ ¬MissesValue o.sprtParam (argv.drop 1) := by
  have hrun : run (round argv) (argv.length + 1) (1, ({ o := o } : ParseState F)) =
      some (parseArgs 0 (argv.drop 1) { o := o }) := run_round (by omega) _
  constructor
  · rintro ⟨-, n, out, hout, hends⟩ hmisses
    rw [parseArgs_of_missesValue hmisses] at hrun
    obtain ⟨t, hreach, hexit⟩ := reaches_of_run hrun
    obtain rfl := run_eq_of_reaches hreach hexit hout
    obtain ⟨i, s', heq, -⟩ | ⟨message, heq⟩ := hends
    · cases heq
    · cases heq
  · intro hvalue
    refine ⟨fun i s₁ i' s₂ _ hround => round_advances hround, argv.length + 1, _, hrun, ?_⟩
    cases hparse : parseArgs 0 (argv.drop 1) ({ o := o } : ParseState F) with
    | ok s' =>
        rw [hparse] at hrun
        obtain ⟨⟨i, s₁⟩, hreach, hexit⟩ := reaches_of_run hrun
        obtain ⟨hend, rfl⟩ := exit_of_ok hexit
        exact Or.inl ⟨i, s', rfl, hend, hreach⟩
    | error stop =>
        obtain ⟨message, rfl⟩ := parseArgs_error hparse hvalue
        exact Or.inr ⟨message, rfl⟩

/-- `-games` without a number. -/
theorem not_readsInside_games :
    ¬ReadsInside ["c-gomoku-cli".toList, "-games".toList]
      ({ o := {} } : ParseState thousandths) := by
  rintro ⟨-, n, out, hout, hends⟩
  have hrun : run (round ["c-gomoku-cli".toList, "-games".toList]) 2
      (1, ({ o := {} } : ParseState thousandths)) = some (.error .nullPointer) := by
    rw [run_round (by decide)]
    rfl
  obtain ⟨t, hreach, hexit⟩ := reaches_of_run hrun
  obtain rfl := run_eq_of_reaches hreach hexit hout
  obtain ⟨i, s', heq, -⟩ | ⟨message, heq⟩ := hends
  · cases heq
  · cases heq

end OptionsParse

end GomokuCli
