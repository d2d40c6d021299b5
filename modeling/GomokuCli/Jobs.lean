import Mathlib.Tactic
import GomokuCli.Game

/-!
# Jobs

The list of the games of a tournament and the queue from which the workers take
them.  The constructor enumerates the pairs twice: once for the rows of the
results and once in every round, for the jobs.  A job only knows its row by its
number, so both enumerations have to count in the same way.

The numbers of engines, rounds and games and all counters are natural numbers.
-/

namespace GomokuCli

/-- `Job`, the instruction to play a single game. -/
structure Job where
  /-- `ei[0]` plays `ei[1]` -/
  ei : Nat × Nat
  /-- the row of the results -/
  pair : Nat
  round : Nat
  game : Nat
  /-- the other engine has the first move -/
  reverse : Bool
  deriving DecidableEq, Repr

/-- `Result` of a pair: the outcomes so far, from the view of `ei[0]`. -/
structure PairResult where
  ei : Nat × Nat
  count : Result → Nat

/-- `total` -/
def PairResult.total (r : PairResult) : Nat := r.count .loss + r.count .draw + r.count .win

/-- The row of a pair that has not played. -/
def PairResult.blank (ei : Nat × Nat) : PairResult where
  ei := ei
  count _ := 0

/-- The row of a pair after one more game. -/
def PairResult.add (r : PairResult) (outcome : Result) : PairResult :=
  { r with count := Function.update r.count outcome (r.count outcome + 1) }

/-- `JobQueue` -/
structure JobQueue where
  jobs : List Job
  results : List PairResult
  names : List (List Char)
  /-- next job index -/
  idx : Nat
  /-- number of jobs completed -/
  completed : Nat

namespace JobQueue

/-- `for (int i = lo; i < hi; i++)`.  It is empty when `hi` is not above `lo`, as with fewer
than two engines. -/
def loop (lo hi : Nat) : List Nat := List.range' lo (hi - lo)

/-- What the loops over the pairs of one round count and fill.  `added` is the number of
games so far, from which the games get their numbers. -/
structure Filling where
  pair : Nat
  added : Nat
  jobs : List Job

/-- `job_queue_init_pair`: the counter `added` and the jobs afterwards.  Every second game
has the colours exchanged. -/
def initPair (games e1 e2 pair added round : Nat) (jobs : List Job) : Nat × List Job :=
  (loop 0 games).foldl
    (fun s g =>
      (s.1 + 1,
        s.2 ++ [{ ei := (e1, e2), pair := pair, round := round, game := s.1,
                  reverse := g % 2 != 0 }]))
    (added, jobs)

/-- The rows of a gauntlet. -/
def gauntletResults (engines : Nat) : List PairResult :=
  (loop 1 engines).foldl (fun results e2 => results ++ [.blank (0, e2)]) []

/-- One round of a gauntlet. -/
def gauntletRound (engines games r : Nat) (jobs : List Job) : List Job :=
  ((loop 1 engines).foldl (fun s e2 => initPair games 0 e2 (e2 - 1) s.1 r s.2) (0, jobs)).2

/-- The rows of a round robin. -/
def roundRobinResults (engines : Nat) : List PairResult :=
  (loop 0 (engines - 1)).foldl
    (fun results e1 =>
      (loop (e1 + 1) engines).foldl (fun results e2 => results ++ [.blank (e1, e2)]) results)
    []

/-- The body of the loops of a round robin. -/
def roundRobinPair (games r : Nat) (s : Filling) (ei : Nat × Nat) : Filling :=
  let next := initPair games ei.1 ei.2 s.pair s.added r s.jobs
  { pair := s.pair + 1, added := next.1, jobs := next.2 }

/-- One round of a round robin. -/
def roundRobinRound (engines games r : Nat) (jobs : List Job) : List Job :=
  ((loop 0 (engines - 1)).foldl
    (fun s e1 =>
      (loop (e1 + 1) engines).foldl (fun s e2 => roundRobinPair games r s (e1, e2)) s)
    { pair := 0, added := 0, jobs := jobs }).jobs

/-- `JobQueue::JobQueue`.  The engines have no names yet. -/
def new (engines rounds games : Nat) (gauntlet : Bool) : JobQueue where
  jobs :=
    (loop 0 rounds).foldl
      (fun jobs r =>
        if gauntlet then gauntletRound engines games r jobs
        else roundRobinRound engines games r jobs)
      []
  results := if gauntlet then gauntletResults engines else roundRobinResults engines
  names := List.replicate engines []
  idx := 0
  completed := 0

/-! ## Pairs -/

/-- The pairs of the tournament, in the order of the rows. -/
def pairs (engines : Nat) (gauntlet : Bool) : List (Nat × Nat) :=
  if gauntlet then (loop 1 engines).map fun e2 => (0, e2)
  else (loop 0 (engines - 1)).flatMap fun e1 => (loop (e1 + 1) engines).map fun e2 => (e1, e2)

/-- `ei[0]` and `ei[1]` play each other in the tournament.  Every pair is listed with the
smaller index first. -/
def Paired (engines : Nat) (gauntlet : Bool) (ei : Nat × Nat) : Prop :=
  ei.1 < ei.2 ∧ ei.2 < engines ∧ (gauntlet = true → ei.1 = 0)

variable {engines rounds games r : Nat} {gauntlet : Bool} {ei : Nat × Nat} {j : Job}

@[simp] theorem mem_loop {lo hi i : Nat} : i ∈ loop lo hi ↔ lo ≤ i ∧ i < hi := by
  rw [loop, List.mem_range'_1]
  omega

@[simp] theorem length_loop (lo hi : Nat) : (loop lo hi).length = hi - lo := List.length_range'

theorem nodup_loop (lo hi : Nat) : (loop lo hi).Nodup := List.nodup_range'

theorem mem_pairs : ei ∈ pairs engines gauntlet ↔ Paired engines gauntlet ei := by
  obtain ⟨e1, e2⟩ := ei
  cases gauntlet with
  | true =>
      simp only [pairs, if_true, List.mem_map, mem_loop, Prod.mk.injEq, Paired]
      constructor
      · rintro ⟨e, ⟨hpos, hlt⟩, rfl, rfl⟩
        exact ⟨hpos, hlt, fun _ => rfl⟩
      · rintro ⟨hlt, hbound, hzero⟩
        exact ⟨e2, ⟨by omega, hbound⟩, (hzero trivial).symm, rfl⟩
  | false =>
      simp only [pairs, Bool.false_eq_true, if_false, List.mem_flatMap, List.mem_map, mem_loop,
        Prod.mk.injEq, Paired, false_implies, and_true]
      constructor
      · rintro ⟨e, ⟨-, he⟩, e', ⟨hlt, hbound⟩, rfl, rfl⟩
        exact ⟨hlt, hbound⟩
      · rintro ⟨hlt, hbound⟩
        exact ⟨e1, ⟨by omega, by omega⟩, e2, ⟨hlt, hbound⟩, rfl, rfl⟩

theorem nodup_pairs (engines : Nat) (gauntlet : Bool) : (pairs engines gauntlet).Nodup := by
  cases gauntlet with
  | true => exact (nodup_loop 1 engines).map (Prod.mk_right_injective 0)
  | false =>
      refine List.nodup_flatMap.mpr ⟨fun e1 _ => ?_, ?_⟩
      · exact (nodup_loop (e1 + 1) engines).map (Prod.mk_right_injective e1)
      · refine (nodup_loop 0 (engines - 1)).imp fun {e e'} hne => ?_
        rintro ⟨e1, e2⟩ hfirst hsecond
        obtain ⟨_, -, hpair⟩ := List.mem_map.mp hfirst
        obtain ⟨_, -, hpair'⟩ := List.mem_map.mp hsecond
        cases hpair
        cases hpair'
        exact hne rfl

/-- `N - 1` pairs in a gauntlet, and `N (N - 1) / 2` in a round robin.  The second is a
triangular number, and so the division has no remainder. -/
theorem length_pairs (engines : Nat) (gauntlet : Bool) :
    (pairs engines gauntlet).length =
      if gauntlet then engines - 1 else engines * (engines - 1) / 2 := by
  cases gauntlet with
  | true => simp only [pairs, if_true, List.length_map, length_loop]
  | false =>
      have hsum : ∀ n, ((List.range n).map fun e1 => n - e1).sum = (n + 1) * n / 2 := by
        intro n
        induction n with
        | zero => rfl
        | succ n ih =>
            rw [List.range_succ_eq_map, List.map_cons, List.map_map, List.sum_cons]
            have hshift : ((List.range n).map ((fun e1 => n + 1 - e1) ∘ Nat.succ)).sum =
                ((List.range n).map fun e1 => n - e1).sum := by
              congr 2
              funext e1
              exact Nat.succ_sub_succ n e1
            rw [hshift, ih]
            have hdouble : (n + 1 + 1) * (n + 1) = 2 * (n + 1) + (n + 1) * n := by ring
            rw [hdouble, Nat.mul_add_div Nat.two_pos]
            rfl
      simp only [pairs, Bool.false_eq_true, if_false, List.length_flatMap, List.length_map,
        length_loop]
      cases engines with
      | zero => rfl
      | succ n =>
          rw [Nat.add_sub_cancel, ← hsum n, loop, List.range_eq_range']
          congr 2
          funext e1
          exact Nat.succ_sub_succ n e1

/-! ## The constructor -/

/-- The jobs of one pair in one round.  The number of a game goes on from the games of the
pairs before it. -/
def jobsOfPair (games r pair : Nat) (ei : Nat × Nat) : List Job :=
  (List.range games).map fun g =>
    { ei := ei, pair := pair, round := r, game := pair * games + g, reverse := g % 2 != 0 }

/-- The jobs of one round. -/
def jobsOfRound (engines games : Nat) (gauntlet : Bool) (r : Nat) : List Job :=
  (pairs engines gauntlet).zipIdx.flatMap fun x => jobsOfPair games r x.2 x.1

theorem initPair_eq (e1 e2 pair : Nat) (jobs : List Job) :
    initPair games e1 e2 pair (pair * games) r jobs =
      ((pair + 1) * games, jobs ++ jobsOfPair games r pair (e1, e2)) := by
  have hloop : ∀ n, (loop 0 n).foldl
      (fun s g =>
        (s.1 + 1,
          s.2 ++ [({ ei := (e1, e2), pair := pair, round := r, game := s.1,
                     reverse := g % 2 != 0 } : Job)]))
      (pair * games, jobs) =
        (pair * games + n, jobs ++ (List.range n).map fun g =>
          { ei := (e1, e2), pair := pair, round := r, game := pair * games + g,
            reverse := g % 2 != 0 }) := by
    intro n
    induction n with
    | zero => simp only [loop, Nat.sub_zero, List.range'_zero, List.foldl_nil, List.range_zero,
        List.map_nil, List.append_nil, Nat.add_zero]
    | succ n ih =>
        have hlast : loop 0 (n + 1) = loop 0 n ++ [n] := by
          simp only [loop, Nat.sub_zero, List.range'_concat, Nat.zero_add, Nat.one_mul]
        rw [hlast, List.foldl_concat, ih, List.range_succ, List.map_append, List.append_assoc]
        rfl
  rw [initPair, hloop, Nat.succ_mul]
  rfl

theorem gauntletResults_eq (engines : Nat) :
    gauntletResults engines = (pairs engines true).map .blank := by
  rw [gauntletResults, ← List.flatMap_eq_foldl, pairs, if_pos rfl, List.map_map,
    List.map_eq_flatMap]
  rfl

theorem roundRobinResults_eq (engines : Nat) :
    roundRobinResults engines = (pairs engines false).map .blank := by
  have hinner : ∀ (e1 : Nat) (rows : List PairResult), (loop (e1 + 1) engines).foldl
      (fun results e2 => results ++ [.blank (e1, e2)]) rows =
        rows ++ ((loop (e1 + 1) engines).map fun e2 => (e1, e2)).map .blank := by
    intro e1 rows
    rw [List.foldl_append_eq_append, List.map_map, ← List.flatMap_def, List.map_eq_flatMap]
    rfl
  simp only [roundRobinResults, hinner]
  rw [← List.flatMap_eq_foldl, pairs, if_neg Bool.false_ne_true, List.map_flatMap]

theorem gauntletRound_eq (jobs : List Job) :
    gauntletRound engines games r jobs = jobs ++ jobsOfRound engines games true r := by
  have hloop : ∀ n p added jobs, added = p * games →
      (List.range' (p + 1) n).foldl
        (fun s e2 => initPair games 0 e2 (e2 - 1) s.1 r s.2) (added, jobs) =
        ((p + n) * games, jobs ++
          (((List.range' (p + 1) n).map fun e2 => ((0, e2) : Nat × Nat)).zipIdx p).flatMap
            fun x => jobsOfPair games r x.2 x.1) := by
    intro n
    induction n with
    | zero =>
        rintro p _ jobs rfl
        simp only [List.range'_zero, List.foldl_nil, Nat.add_zero, List.map_nil, List.zipIdx_nil,
          List.flatMap_nil, List.append_nil]
    | succ n ih =>
        rintro p _ jobs rfl
        rw [List.range'_succ, List.foldl_cons, Nat.add_sub_cancel, initPair_eq,
          ih (p + 1) _ _ rfl, List.map_cons, List.zipIdx_cons, List.flatMap_cons,
          List.append_assoc, Nat.add_right_comm, Nat.add_assoc]
  have hall := hloop (engines - 1) 0 0 jobs (Nat.zero_mul games).symm
  rw [gauntletRound, loop, hall]
  rfl

theorem roundRobinPair_foldl (games r : Nat) (jobs : List Job) (eis : List (Nat × Nat)) (p : Nat) :
    eis.foldl (roundRobinPair games r) { pair := p, added := p * games, jobs := jobs } =
      { pair := p + eis.length
        added := (p + eis.length) * games
        jobs := jobs ++ (eis.zipIdx p).flatMap fun x => jobsOfPair games r x.2 x.1 } := by
  induction eis generalizing p jobs with
  | nil => simp only [List.foldl_nil, List.length_nil, Nat.add_zero, List.zipIdx_nil,
      List.flatMap_nil, List.append_nil]
  | cons ei eis ih =>
      rw [List.foldl_cons, roundRobinPair, initPair_eq, ih, List.length_cons, List.zipIdx_cons,
        List.flatMap_cons, List.append_assoc, Nat.add_right_comm, Nat.add_assoc]

theorem roundRobinRound_eq (jobs : List Job) :
    roundRobinRound engines games r jobs = jobs ++ jobsOfRound engines games false r := by
  have hall := roundRobinPair_foldl games r jobs (pairs engines false) 0
  rw [Nat.zero_mul, pairs, if_neg Bool.false_ne_true, List.foldl_flatMap] at hall
  simp only [List.foldl_map] at hall
  rw [roundRobinRound, hall]
  rfl

theorem new_jobs (engines rounds games : Nat) (gauntlet : Bool) :
    (new engines rounds games gauntlet).jobs =
      (List.range rounds).flatMap (jobsOfRound engines games gauntlet) := by
  have hround : ∀ (jobs : List Job) (r : Nat),
      (if gauntlet then gauntletRound engines games r jobs
        else roundRobinRound engines games r jobs) =
      jobs ++ jobsOfRound engines games gauntlet r := by
    intro jobs r
    cases gauntlet with
    | true => exact gauntletRound_eq jobs
    | false => exact roundRobinRound_eq jobs
  simp only [new, hround]
  rw [← List.flatMap_eq_foldl, loop, List.range_eq_range']
  rfl

theorem new_results (engines rounds games : Nat) (gauntlet : Bool) :
    (new engines rounds games gauntlet).results = (pairs engines gauntlet).map .blank := by
  cases gauntlet with
  | true => exact gauntletResults_eq engines
  | false => exact roundRobinResults_eq engines

/-! ## The jobs -/

theorem mem_jobsOfRound : j ∈ jobsOfRound engines games gauntlet r ↔
    (pairs engines gauntlet)[j.pair]? = some j.ei ∧
      ∃ g < games, j = { ei := j.ei, pair := j.pair, round := r,
                         game := j.pair * games + g, reverse := g % 2 != 0 } := by
  simp only [jobsOfRound, jobsOfPair, List.mem_flatMap, List.mem_map, List.mem_range,
    List.mem_zipIdx_iff_getElem?]
  constructor
  · rintro ⟨⟨ei, pair⟩, hrow, g, hg, rfl⟩
    exact ⟨hrow, g, hg, rfl⟩
  · rintro ⟨hrow, g, hg, hj⟩
    exact ⟨(j.ei, j.pair), hrow, g, hg, hj.symm⟩

theorem mem_new_jobs : j ∈ (new engines rounds games gauntlet).jobs ↔
    j.round < rounds ∧ j ∈ jobsOfRound engines games gauntlet j.round := by
  rw [new_jobs, List.mem_flatMap]
  constructor
  · rintro ⟨r, hr, hj⟩
    have hround : j.round = r := by
      obtain ⟨-, g, -, hj⟩ := mem_jobsOfRound.mp hj
      rw [hj]
    rw [hround]
    exact ⟨List.mem_range.mp hr, hj⟩
  · rintro ⟨hr, hj⟩
    exact ⟨j.round, List.mem_range.mpr hr, hj⟩

/-- Every job has a row. -/
theorem pair_lt_of_mem_new_jobs (hj : j ∈ (new engines rounds games gauntlet).jobs) :
    j.pair < (new engines rounds games gauntlet).results.length := by
  obtain ⟨hrow, -⟩ := mem_jobsOfRound.mp (mem_new_jobs.mp hj).2
  rw [new_results, List.length_map]
  exact (List.getElem?_eq_some_iff.mp hrow).1

/-- The blocks of an enumeration are found again by their key.  It is used once for the
rounds and once for the pairs of a round. -/
theorem filter_flatMap_key {ι κ : Type*} {β : Type*} [DecidableEq κ] {l : List ι} {f : ι → List β}
    (keyOf : ι → κ) (key : β → κ) (hkey : ∀ i ∈ l, ∀ b ∈ f i, key b = keyOf i)
    (hnodup : (l.map keyOf).Nodup) {i : ι} (hi : i ∈ l) :
    (l.flatMap f).filter (fun b => key b = keyOf i) = f i := by
  induction l with
  | nil => cases hi
  | cons i' l ih =>
      have hfirst : ∀ b ∈ f i', key b = keyOf i' := hkey i' List.mem_cons_self
      have hrest : ∀ i ∈ l, ∀ b ∈ f i, key b = keyOf i :=
        fun i hi => hkey i (List.mem_cons_of_mem i' hi)
      rw [List.map_cons, List.nodup_cons] at hnodup
      rw [List.flatMap_cons, List.filter_append]
      rcases List.mem_cons.mp hi with rfl | hi
      · have hnone : (l.flatMap f).filter (fun b => key b = keyOf i) = [] := by
          rw [List.filter_eq_nil_iff]
          intro b hb hkeyb
          obtain ⟨i', hi', hb⟩ := List.mem_flatMap.mp hb
          have hsame : keyOf i' = keyOf i :=
            (hrest i' hi' b hb).symm.trans (of_decide_eq_true hkeyb)
          exact hnodup.1 (hsame ▸ List.mem_map_of_mem hi')
        rw [hnone, List.append_nil, List.filter_eq_self]
        exact fun b hb => decide_eq_true (hfirst b hb)
      · have hnone : (f i').filter (fun b => key b = keyOf i) = [] := by
          rw [List.filter_eq_nil_iff]
          intro b hb hkeyb
          have hsame : keyOf i' = keyOf i := (hfirst b hb).symm.trans (of_decide_eq_true hkeyb)
          exact hnodup.1 (hsame ▸ List.mem_map_of_mem hi)
        rw [hnone, List.nil_append]
        exact ih hrest hnodup.2 hi

/-- The jobs of a round, in the order of the list. -/
def roundJobs (q : JobQueue) (r : Nat) : List Job := q.jobs.filter fun j => j.round = r

/-- The jobs of a pair in a round, in the order of the list. -/
def pairJobs (q : JobQueue) (r : Nat) (ei : Nat × Nat) : List Job :=
  (q.roundJobs r).filter fun j => j.ei = ei

theorem roundJobs_new (hr : r < rounds) :
    (new engines rounds games gauntlet).roundJobs r = jobsOfRound engines games gauntlet r := by
  rw [roundJobs, new_jobs]
  refine filter_flatMap_key id Job.round ?_ ?_ (List.mem_range.mpr hr)
  · intro r' _ j hj
    obtain ⟨-, g, -, hj⟩ := mem_jobsOfRound.mp hj
    rw [hj]
    rfl
  · rw [List.map_id]
    exact List.nodup_range

/-- A pair of the tournament has a row, and in each round the jobs with its number.  Both
enumerations of the constructor agree here. -/
theorem exists_pairJobs_new (games : Nat) (hr : r < rounds) (hei : Paired engines gauntlet ei) :
    ∃ pair, (pairs engines gauntlet)[pair]? = some ei ∧
      (new engines rounds games gauntlet).pairJobs r ei = jobsOfPair games r pair ei := by
  obtain ⟨pair, hpair⟩ := List.getElem?_of_mem (mem_pairs.mpr hei)
  refine ⟨pair, hpair, ?_⟩
  rw [pairJobs, roundJobs_new hr, jobsOfRound]
  refine filter_flatMap_key (fun x : (Nat × Nat) × Nat => x.1) Job.ei
    (f := fun x => jobsOfPair games r x.2 x.1) ?_ ?_ (i := (ei, pair)) ?_
  · rintro ⟨ei', pair'⟩ - j hj
    obtain ⟨g, -, rfl⟩ := List.mem_map.mp hj
    rfl
  · rw [List.zipIdx_map_fst]
    exact nodup_pairs engines gauntlet
  · exact List.mem_zipIdx_iff_getElem?.mpr hpair

/-- The numbers of the games of a round go on from pair to pair.  By induction on the pairs,
for any number to begin with. -/
theorem map_game_jobsOfPair (eis : List (Nat × Nat)) (p : Nat) :
    ((eis.zipIdx p).flatMap fun x => jobsOfPair games r x.2 x.1).map Job.game =
      List.range' (p * games) (eis.length * games) := by
  induction eis generalizing p with
  | nil =>
      rw [List.length_nil, Nat.zero_mul]
      rfl
  | cons ei eis ih =>
      have hpair : (jobsOfPair games r p ei).map Job.game = List.range' (p * games) games := by
        rw [jobsOfPair, List.map_map, List.range'_eq_map_range]
        rfl
      rw [List.zipIdx_cons, List.flatMap_cons, List.map_append, hpair, ih, List.length_cons,
        Nat.succ_mul, Nat.succ_mul, Nat.add_comm (eis.length * games), ← List.range'_append,
        Nat.one_mul]

/-- Both colours, game after game. -/
theorem count_alternating (n : Nat) :
    ((List.range n).map fun g => decide (g % 2 = 1)).count true = n / 2 ∧
      ((List.range n).map fun g => decide (g % 2 = 1)).count false = (n + 1) / 2 := by
  induction n with
  | zero => exact ⟨rfl, rfl⟩
  | succ n ih =>
      obtain ⟨htrue, hfalse⟩ := ih
      rw [List.range_succ, List.map_append, List.count_append, List.count_append, htrue, hfalse,
        List.map_singleton]
      rcases Nat.mod_two_eq_zero_or_one n with hn | hn
      · rw [hn]
        exact ⟨by change n / 2 + 0 = _; omega, by change (n + 1) / 2 + 1 = _; omega⟩
      · rw [hn]
        exact ⟨by change n / 2 + 1 = _; omega, by change (n + 1) / 2 + 0 = _; omega⟩

/-! ## The schedule of the tournament -/

/-- What the queue of a tournament holds: a row for each pair, and in each round the games
of each pair, with numbers that go on and colours that alternate. -/
structure Schedules (engines rounds games : Nat) (gauntlet : Bool) (q : JobQueue) : Prop where
  rows : ∀ ei, ei ∈ q.results.map PairResult.ei ↔ Paired engines gauntlet ei
  rows_nodup : (q.results.map PairResult.ei).Nodup
  row_count : q.results.length =
    if gauntlet then engines - 1 else engines * (engines - 1) / 2
  jobs_of_pair : ∀ r < rounds, ∀ ei, Paired engines gauntlet ei →
    (q.pairJobs r ei).length = games
  no_other_job : ∀ j ∈ q.jobs, j.round < rounds ∧ Paired engines gauntlet j.ei
  job_count : q.jobs.length = rounds * (q.results.length * games)
  row_of_job : ∀ j ∈ q.jobs, ∃ row, q.results[j.pair]? = some row ∧ row.ei = j.ei
  numbers : ∀ r < rounds,
    (q.roundJobs r).map Job.game = List.range (q.results.length * games)
  alternates : ∀ r < rounds, ∀ ei, Paired engines gauntlet ei →
    (q.pairJobs r ei).map Job.reverse = (List.range games).map fun g => decide (g % 2 = 1)
  colours : ∀ r < rounds, ∀ ei, Paired engines gauntlet ei →
    let reversed := (q.pairJobs r ei).map Job.reverse
    reversed.count true ≤ reversed.count false ∧
      reversed.count false ≤ reversed.count true + 1

theorem length_new_results (engines rounds games : Nat) (gauntlet : Bool) :
    (new engines rounds games gauntlet).results.length = (pairs engines gauntlet).length := by
  rw [new_results, List.length_map]

theorem map_ei_new_results (engines rounds games : Nat) (gauntlet : Bool) :
    (new engines rounds games gauntlet).results.map PairResult.ei = pairs engines gauntlet := by
  rw [new_results, List.map_map]
  exact List.map_id _

theorem map_game_roundJobs_new (hr : r < rounds) :
    ((new engines rounds games gauntlet).roundJobs r).map Job.game =
      List.range ((new engines rounds games gauntlet).results.length * games) := by
  rw [roundJobs_new hr, jobsOfRound, map_game_jobsOfPair, length_new_results, Nat.zero_mul,
    List.range_eq_range']

theorem map_reverse_pairJobs_new (hr : r < rounds) (hei : Paired engines gauntlet ei) :
    ((new engines rounds games gauntlet).pairJobs r ei).map Job.reverse =
      (List.range games).map fun g => decide (g % 2 = 1) := by
  obtain ⟨pair, -, hjobs⟩ := exists_pairJobs_new games hr hei
  rw [hjobs, jobsOfPair, List.map_map]
  apply List.map_congr_left
  intro g _
  change (g % 2 != 0) = decide (g % 2 = 1)
  rcases Nat.mod_two_eq_zero_or_one g with hg | hg <;> rw [hg] <;> rfl

theorem length_new_jobs (engines rounds games : Nat) (gauntlet : Bool) :
    (new engines rounds games gauntlet).jobs.length =
      rounds * ((new engines rounds games gauntlet).results.length * games) := by
  have hround : ∀ r, (jobsOfRound engines games gauntlet r).length =
      (new engines rounds games gauntlet).results.length * games := by
    intro r
    rw [← List.length_map Job.game, jobsOfRound, map_game_jobsOfPair, List.length_range',
      length_new_results]
  rw [new_jobs, List.length_flatMap]
  simp only [hround, List.map_const', List.length_range, List.sum_replicate, smul_eq_mul]

/-- **The schedule of a tournament.** The constructor makes one for any number of engines,
rounds and games, in both modes.  It depends on the two enumerations of the pairs being the
same, which is `mem_new_jobs` for the jobs and `new_results` for the rows. -/
theorem new_schedules (engines rounds games : Nat) (gauntlet : Bool) :
    Schedules engines rounds games gauntlet (new engines rounds games gauntlet) where
  rows ei := by rw [map_ei_new_results, mem_pairs]
  rows_nodup := by
    rw [map_ei_new_results]
    exact nodup_pairs engines gauntlet
  row_count := by rw [length_new_results, length_pairs]
  jobs_of_pair r hr ei hei := by
    obtain ⟨pair, -, hjobs⟩ := exists_pairJobs_new games hr hei
    rw [hjobs, jobsOfPair, List.length_map, List.length_range]
  no_other_job j hj := by
    obtain ⟨hr, hj⟩ := mem_new_jobs.mp hj
    obtain ⟨hrow, -⟩ := mem_jobsOfRound.mp hj
    exact ⟨hr, mem_pairs.mp (List.mem_of_getElem? hrow)⟩
  job_count := length_new_jobs engines rounds games gauntlet
  row_of_job j hj := by
    obtain ⟨-, hj⟩ := mem_new_jobs.mp hj
    obtain ⟨hrow, -⟩ := mem_jobsOfRound.mp hj
    rw [new_results, List.getElem?_map, hrow]
    exact ⟨.blank j.ei, rfl, rfl⟩
  numbers _ hr := map_game_roundJobs_new hr
  alternates _ hr _ hei := map_reverse_pairJobs_new hr hei
  colours r hr ei hei := by
    obtain ⟨htrue, hfalse⟩ := count_alternating games
    simp only [map_reverse_pairJobs_new hr hei, htrue, hfalse]
    omega

end JobQueue

end GomokuCli
