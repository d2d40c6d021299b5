import GomokuCli.Jobs
import GomokuCli.Openings
import GomokuCli.Run

/-!
# Repeated openings

With `-repeat` two games in a row are given the same opening: the opening is chosen
by half the index of the job.  Nothing in that rule mentions pairs, so whether two
such games are the two games of one pair depends on where the jobs of a pair begin
in the list.  With an even number of games every pair begins at an even index, in
every round.
-/

namespace GomokuCli

/-- Concatenated blocks of one length are indexed by quotient and remainder. -/
theorem getElem?_flatMap_of_length {ι β : Type*} {l : List ι} {f : ι → List β} {n : Nat}
    (hlength : ∀ a ∈ l, (f a).length = n) (hn : 0 < n) (i : Nat) :
    (l.flatMap f)[i]? = l[i / n]?.bind fun a => (f a)[i % n]? := by
  induction l generalizing i with
  | nil => simp
  | cons a l ih =>
      have hfirst : (f a).length = n := hlength a List.mem_cons_self
      have hrest : ∀ b ∈ l, (f b).length = n :=
        fun b hb => hlength b (List.mem_cons_of_mem a hb)
      rw [List.flatMap_cons]
      by_cases hi : i < n
      · rw [List.getElem?_append_left (by omega), Nat.div_eq_of_lt hi, Nat.mod_eq_of_lt hi]
        rfl
      · rw [List.getElem?_append_right (by omega), hfirst, ih hrest]
        obtain ⟨j, rfl⟩ : ∃ j, i = j + n := ⟨i - n, by omega⟩
        rw [Nat.add_sub_cancel, Nat.add_div_right j hn, Nat.add_mod_right]
        rfl

namespace JobQueue

variable {engines rounds games i : Nat} {gauntlet : Bool} {j j' : Job}

/-! ## Which job stands where -/

theorem length_jobsOfPair (games r pair : Nat) (ei : Nat × Nat) :
    (jobsOfPair games r pair ei).length = games := by
  rw [jobsOfPair, List.length_map, List.length_range]

theorem length_jobsOfRound (engines games : Nat) (gauntlet : Bool) (r : Nat) :
    (jobsOfRound engines games gauntlet r).length =
      (pairs engines gauntlet).length * games := by
  rw [← List.length_map Job.game, jobsOfRound, map_game_jobsOfPair, List.length_range']

/-- **The job at an index**: round, pair and game are the digits of the index, and the game
decides who has Black. -/
theorem getElem?_new_jobs (hi : i < (new engines rounds games gauntlet).jobs.length) :
    ∃ ei, (pairs engines gauntlet)[i % ((pairs engines gauntlet).length * games) / games]? =
        some ei ∧
      (new engines rounds games gauntlet).jobs[i]? = some
        { ei := ei
          pair := i % ((pairs engines gauntlet).length * games) / games
          round := i / ((pairs engines gauntlet).length * games)
          game := i % ((pairs engines gauntlet).length * games) / games * games +
            i % ((pairs engines gauntlet).length * games) % games
          reverse := i % ((pairs engines gauntlet).length * games) % games % 2 != 0 } := by
  rw [length_new_jobs, length_new_results] at hi
  set block := (pairs engines gauntlet).length * games with hblock
  have hpos : 0 < block := Nat.pos_of_ne_zero fun h => by simp [h] at hi
  have hgames : 0 < games := Nat.pos_of_mul_pos_left hpos
  have hround : i / block < rounds := Nat.div_lt_of_lt_mul (by rwa [Nat.mul_comm])
  have hpair : i % block / games < (pairs engines gauntlet).length :=
    Nat.div_lt_of_lt_mul (by rw [Nat.mul_comm]; exact Nat.mod_lt i hpos)
  have hgame : i % block % games < games := Nat.mod_lt _ hgames
  refine ⟨(pairs engines gauntlet)[i % block / games], List.getElem?_eq_getElem hpair, ?_⟩
  rw [new_jobs, getElem?_flatMap_of_length
    (fun r _ => length_jobsOfRound engines games gauntlet r) hpos, List.getElem?_range hround,
    Option.bind_some, jobsOfRound, getElem?_flatMap_of_length
    (fun x _ => length_jobsOfPair games (i / block) x.2 x.1) hgames, List.getElem?_zipIdx,
    List.getElem?_eq_getElem hpair, Option.map_some, Option.bind_some, jobsOfPair,
    List.getElem?_map, List.getElem?_range hgame, Option.map_some, Nat.zero_add]

/-- Two numbers that differ in the last binary digit, divided by an even number. -/
theorem even_block (k h : Nat) :
    (2 * k + 1) / (2 * h) = 2 * k / (2 * h) ∧
      (2 * k + 1) % (2 * h) = 2 * k % (2 * h) + 1 ∧ 2 * k % (2 * h) = 2 * (k % h) := by
  have hodd : (2 * k + 1) / 2 = k := by omega
  refine ⟨?_, ?_, Nat.mul_mod_mul_left 2 k h⟩
  · rw [← Nat.div_div_eq_div_mul, hodd, Nat.mul_div_mul_left k h Nat.two_pos]
  · rw [Nat.mod_mul, hodd, Nat.mul_mod_mul_left]
    omega

/-- **Two jobs in a row**, the first at an even index, belong to one pair and one round.
With an odd number of games the last game of a pair and the first of the next one would be
two such jobs. -/
theorem consecutive_jobs {k : Nat} (hgames : games % 2 = 0 ∨ engines = 2 ∧ rounds = 1)
    (hj : (new engines rounds games gauntlet).jobs[2 * k]? = some j)
    (hj' : (new engines rounds games gauntlet).jobs[2 * k + 1]? = some j') :
    j'.ei = j.ei ∧ j'.round = j.round ∧ j.reverse = false ∧ j'.reverse = true := by
  obtain ⟨hlt, -⟩ := List.getElem?_eq_some_iff.mp hj
  obtain ⟨hlt', -⟩ := List.getElem?_eq_some_iff.mp hj'
  obtain ⟨ei, hei, hget⟩ := getElem?_new_jobs hlt
  obtain ⟨ei', hei', hget'⟩ := getElem?_new_jobs hlt'
  rw [hj, Option.some.injEq] at hget
  rw [hj', Option.some.injEq] at hget'
  set rows := (pairs engines gauntlet).length with hrows
  -- the two indices have the same digits but for the last one
  have hdigits : (2 * k + 1) / (rows * games) = 2 * k / (rows * games) ∧
      (2 * k + 1) % (rows * games) / games = 2 * k % (rows * games) / games ∧
      2 * k % (rows * games) % games % 2 = 0 ∧
      (2 * k + 1) % (rows * games) % games % 2 = 1 := by
    rcases hgames with heven | ⟨rfl, rfl⟩
    · obtain ⟨h, rfl⟩ : ∃ h, games = 2 * h := ⟨games / 2, by omega⟩
      obtain ⟨hround, hrest, hfirst⟩ := even_block k (rows * h)
      obtain ⟨hpair, hgame, hlast⟩ := even_block (k % (rows * h)) h
      rw [show rows * (2 * h) = 2 * (rows * h) by ring, hround, hrest, hfirst]
      exact ⟨rfl, hpair, by omega, by omega⟩
    · have hone : rows = 1 := by
        rw [hrows]
        cases gauntlet <;> rfl
      rw [length_new_jobs, length_new_results, ← hrows, hone] at hlt hlt'
      have hsmall : ∀ i < games, i / games = 0 ∧ i % games = i := fun i hi =>
        ⟨Nat.div_eq_of_lt hi, Nat.mod_eq_of_lt hi⟩
      obtain ⟨hdiv, hmod⟩ := hsmall (2 * k) (by omega)
      obtain ⟨hdiv', hmod'⟩ := hsmall (2 * k + 1) (by omega)
      rw [hone, Nat.one_mul, hdiv', hmod', hdiv, hmod, hmod', hmod]
      exact ⟨rfl, hdiv'.trans hdiv.symm, by omega, by omega⟩
  obtain ⟨hround, hpair, hfirst, hsecond⟩ := hdigits
  rw [hpair, hei, Option.some.injEq] at hei'
  rw [hget, hget']
  refine ⟨hei'.symm, hround, ?_, ?_⟩
  · change (2 * k % (rows * games) % games % 2 != 0) = false
    rw [hfirst]
    rfl
  · change ((2 * k + 1) % (rows * games) % games % 2 != 0) = true
    rw [hsecond]
    rfl

end JobQueue

/-! ## The start of a game -/

/-- What a worker starts a game with. -/
structure GameStart where
  game : Game
  /-- the side to move after the opening -/
  color : Color
  /-- which of the two engines of the job plays Black -/
  blackIdx : Bool
  whiteIdx : Bool

/-- The part of `thread_start` between the job and the game: choose the opening, load it,
and seat the engines.  It is `none` when the program dies, which it does when the line is
refused. -/
def startGame (openings : Openings) (options : Options) (repeats : Bool) (job : Job)
    (idx : Nat) : Option (GameStart × Openings) := do
  let ((openingStr, openingRound), openings) ← openings.next (if repeats then idx / 2 else idx)
  let (game, color) ← Game.new.loadOpening openingStr options openingRound
  let blackIdx := (color == .white) ^^ job.reverse
  return ({ game := game, color := color, blackIdx := blackIdx, whiteIdx := !blackIdx }, openings)

/-- The engine with the given index of a job, by its number in the tournament. -/
def Job.engine (job : Job) (i : Bool) : Nat := if i then job.ei.2 else job.ei.1

/-- The side to move after the opening is the one that `play` seats the engines by.  The
worker seats them by the value that `load_opening` returns, and both have to be the same. -/
theorem color_of_loadOpening {g : Game} {openingStr : List Char} {o : Options}
    {currentRound : Nat} {color : Color}
    (hload : Game.new.loadOpening openingStr o currentRound = some (g, color)) :
    (g.pos 0).playerToMove = color := by
  have hnew : (Function.update Game.new.pos Game.new.posSize
      (Position.new o.boardSize)) 0 = Position.new o.boardSize :=
    Function.update_self _ _ _
  unfold Game.loadOpening at hload
  simp only [hnew] at hload
  split at hload
  · rw [Option.some.injEq, Prod.mk.injEq] at hload
    obtain ⟨rfl, rfl⟩ := hload
    simp only [Function.update_self]
    by_cases htransform : o.transform = true
    · rw [if_pos htransform]
      by_cases hid : Game.transformOfRound currentRound = .identity
      · rw [hid]
        rfl
      · rw [Position.transform_eq _ hid]
    · rw [if_neg htransform]
  · cases hload

/-- **Fair repeats.**  With `-repeat` and an even number of games, or one pair and one
round, the jobs `2k` and `2k + 1` are the two games of one pair with the same opening:
whichever workers take them, and whatever has been asked of the openings before, both
are served the same line for the same round, hence with the same transform.

The line decides what happens.  If `load_opening` accepts it, both games start, from
the position that it makes of the line, and each engine has in the second game the
colour that the other had in the first.  If it does not, neither of them starts.  The
colours are those by which `play` seats the engines, so that it is the side to move of
the common position that is exchanged, and not only a flag. -/
theorem repeats_fair {engines rounds games : Nat} {gauntlet : Bool}
    (hgames : games % 2 = 0 ∨ engines = 2 ∧ rounds = 1) {content : List Char}
    (hlines : lineStarts content ≠ []) {random : Bool} {srand msec : UInt64}
    {o o₁ o₂ : Openings} (hnew : Openings.new (some content) random srand msec = some (.ok o))
    (h₁ : Openings.Serving o o₁) (h₂ : Openings.Serving o o₂) (options : Options) {k : Nat}
    {j j' : Job} (hj : (JobQueue.new engines rounds games gauntlet).jobs[2 * k]? = some j)
    (hj' : (JobQueue.new engines rounds games gauntlet).jobs[2 * k + 1]? = some j') :
    (j'.ei = j.ei ∧ j'.round = j.round ∧ j'.reverse = !j.reverse) ∧
    ∃ line o₁' o₂',
      o₁.next (2 * k / 2) = some ((line, k / (lineStarts content).length), o₁') ∧
      o₂.next ((2 * k + 1) / 2) = some ((line, k / (lineStarts content).length), o₂') ∧
      (Game.new.loadOpening line options (k / (lineStarts content).length) = none →
        startGame o₁ options true j (2 * k) = none ∧
          startGame o₂ options true j' (2 * k + 1) = none) ∧
      ∀ game color, Game.new.loadOpening line options (k / (lineStarts content).length) =
          some (game, color) →
        ∃ first second, startGame o₁ options true j (2 * k) = some (first, o₁') ∧
          startGame o₂ options true j' (2 * k + 1) = some (second, o₂') ∧
          (first.game = game ∧ second.game = game) ∧
          (first.color = color ∧ second.color = color) ∧
          j'.engine second.blackIdx = j.engine first.whiteIdx ∧
          j'.engine second.whiteIdx = j.engine first.blackIdx ∧
          first.blackIdx = Match.engineOfColor (game.pos 0).playerToMove j.reverse .black ∧
          second.blackIdx = Match.engineOfColor (game.pos 0).playerToMove j'.reverse .black := by
  obtain ⟨hei, hround, hfirst, hsecond⟩ := JobQueue.consecutive_jobs hgames hj hj'
  have hreverse : j'.reverse = !j.reverse := by rw [hfirst, hsecond]; rfl
  obtain ⟨o', file, hnew', hfile, hcontent, hindex, -⟩ :=
    Openings.new_eq hlines random srand msec
  rw [hnew, Option.some.injEq, Except.ok.injEq] at hnew'
  subst hnew'
  have hreads : Openings.Reads content o := ⟨⟨file, hfile, hcontent⟩, hindex⟩
  -- both workers are answered from the same index of the same file
  have hanswer : ∀ o', Openings.Serving o o' → ∃ o'', o'.next k =
      some ((lineText (content.drop (o.offsetAt k)), k / (lineStarts content).length), o'') := by
    intro o' hserving
    obtain ⟨hreads', hindex'⟩ := hreads.of_serving hlines hserving
    obtain ⟨o'', hnext, -⟩ := hreads'.next_eq hlines k
    rw [Openings.offsetAt, hindex'] at hnext
    exact ⟨o'', hnext⟩
  obtain ⟨o₁', hnext₁⟩ := hanswer o₁ h₁
  obtain ⟨o₂', hnext₂⟩ := hanswer o₂ h₂
  have heven : 2 * k / 2 = k := by omega
  have hodd : (2 * k + 1) / 2 = k := by omega
  refine ⟨⟨hei, hround, hreverse⟩, lineText (content.drop (o.offsetAt k)), o₁', o₂',
    by rw [heven, hnext₁], by rw [hodd, hnext₂], fun hload => ?_, fun game color hload => ?_⟩
  · simp only [startGame, if_true, heven, hodd, hnext₁, hnext₂, Option.bind_eq_bind,
      Option.bind_some, hload, Option.bind_none, and_self]
  · have hcolor := color_of_loadOpening hload
    have hengine : ∀ i, j'.engine i = j.engine i := by
      intro i
      rw [Job.engine, Job.engine, hei]
    simp only [startGame, if_true, heven, hodd, hnext₁, hnext₂, Option.bind_eq_bind,
      Option.bind_some, hload]
    refine ⟨_, _, rfl, rfl, ⟨rfl, rfl⟩, ⟨rfl, rfl⟩, ?_, ?_, ?_, ?_⟩
    · simp only [hengine, hreverse, Bool.xor_not]
    · simp only [hengine, hreverse, Bool.xor_not, Bool.not_not]
    · simp only [hcolor, Match.engineOfColor]
      cases color <;> cases j.reverse <;> rfl
    · simp only [hcolor, Match.engineOfColor]
      cases color <;> cases j'.reverse <;> rfl

/-- Three engines with two games a pair.  The jobs `2` and `3` are the games of the
second pair, on the second line of the file.  It leaves White to move, and the engine
that is named first moves first, so that the other one has Black. -/
theorem repeats_fair_second :
    ∃ o j j' first second o₁' o₂',
      Openings.new (some "h8\ni9".toList) false 0 0 = some (.ok o) ∧
      (JobQueue.new 3 1 2 false).jobs[2 * 1]? = some j ∧
      (JobQueue.new 3 1 2 false).jobs[2 * 1 + 1]? = some j' ∧
      startGame o { openingType := .pos } true j 2 = some (first, o₁') ∧
      startGame o { openingType := .pos } true j' 3 = some (second, o₂') ∧
      first.game = Game.ofOpening "i9".toList { openingType := .pos } ∧
      second.game = first.game ∧
      (j.engine first.blackIdx = 2 ∧ j.engine first.whiteIdx = 0) ∧
      j'.engine second.blackIdx = 0 ∧ j'.engine second.whiteIdx = 2 := by
  obtain ⟨o, hnew, hline⟩ : ∃ o, Openings.new (some "h8\ni9".toList) false 0 0 = some (.ok o) ∧
      (o.next 1).map (fun answer => answer.1.1) = some "i9".toList := ⟨_, rfl, rfl⟩
  have hlines : lineStarts "h8\ni9".toList ≠ [] := by decide
  have hj : (JobQueue.new 3 1 2 false).jobs[2 * 1]? =
      some { ei := (0, 2), pair := 1, round := 0, game := 2, reverse := false } := by decide
  have hj' : (JobQueue.new 3 1 2 false).jobs[2 * 1 + 1]? =
      some { ei := (0, 2), pair := 1, round := 0, game := 3, reverse := true } := by decide
  obtain ⟨-, line, o₁', o₂', hnext, -, -, hgames⟩ := repeats_fair (Or.inl rfl) hlines hnew
    Relation.ReflTransGen.refl Relation.ReflTransGen.refl { openingType := .pos } hj hj'
  rw [hnext, Option.map_some, Option.some.injEq] at hline
  subst hline
  have hload : Game.new.loadOpening "i9".toList { openingType := .pos }
      (1 / (lineStarts "h8\ni9".toList).length) =
        some (Game.ofOpening "i9".toList { openingType := .pos }, .white) := rfl
  obtain ⟨first, second, hfirst, hsecond, ⟨hgame, hgame'⟩, -, hother, hother', hblack, hblack'⟩ :=
    hgames _ _ hload
  have hseat : first.blackIdx = true := hblack
  have hseat' : second.blackIdx = false := hblack'
  rw [hseat] at hother'
  rw [hseat'] at hother
  refine ⟨o, _, _, first, second, o₁', o₂', hnew, hj, hj', hfirst, hsecond, hgame,
    hgame'.trans hgame.symm, ⟨?_, hother.symm⟩, ?_, hother'⟩
  · rw [hseat]
    rfl
  · rw [hseat']
    rfl

end GomokuCli
