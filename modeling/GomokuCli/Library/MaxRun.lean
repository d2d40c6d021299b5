import Mathlib.Tactic

/-!
# Maximal runs on a line

A predicate on the integers says which points of a line are marked; a maximal
run is an interval of marked points with an unmarked point on either side.
Programs find such runs in two ways, and both are related to the definition
here.

* **From a point outwards.**  `stopIndex` is the loop that walks until the first
  unmarked point or until its budget is spent.  A walk backwards followed by a
  walk forwards whose budget is what the first one left over measures a run
  exactly up to a cap (`walk_eq_iff`, `lt_walk_iff`), although neither walk
  alone is long enough to see the whole run.
* **Along a finite line.**  `runs` sweeps the points `0, …, L - 1` once, counts
  the current run and emits it when it ends.  `mem_runs_iff` says that it emits
  the maximal runs and nothing else.
-/

namespace LineRun

/-! ## Maximal runs -/

/-- `[a, b]` is a maximal interval on which `f` holds.  The two points next to it are part
of the definition: an interval of marks alone could be extended. -/
structure MaxRun (f : ℤ → Prop) (a b : ℤ) : Prop where
  le : a ≤ b
  holds : ∀ k, a ≤ k → k ≤ b → f k
  left : ¬ f (a - 1)
  right : ¬ f (b + 1)

namespace MaxRun

variable {f g : ℤ → Prop} {a b a' b' : ℤ}

/-- A maximal run only looks at its own points and at the two next to it. -/
theorem congr (h : MaxRun f a b) (hfg : ∀ k, a - 1 ≤ k → k ≤ b + 1 → (f k ↔ g k)) :
    MaxRun g a b := by
  have hle := h.le
  refine ⟨h.le, fun k hak hkb => ?_, ?_, ?_⟩
  · exact (hfg k (by omega) (by omega)).mp (h.holds k hak hkb)
  · exact fun hg => h.left ((hfg _ (by omega) (by omega)).mpr hg)
  · exact fun hg => h.right ((hfg _ (by omega) (by omega)).mpr hg)

/-- Two maximal runs that share a point are the same run. -/
theorem unique (h : MaxRun f a b) (h' : MaxRun f a' b') {k : ℤ} (hak : a ≤ k)
    (hkb : k ≤ b) (hak' : a' ≤ k) (hkb' : k ≤ b') : a = a' ∧ b = b' := by
  constructor
  · rcases lt_trichotomy a a' with hlt | heq | hgt
    · exact absurd (h.holds (a' - 1) (by omega) (by omega)) h'.left
    · exact heq
    · exact absurd (h'.holds (a - 1) (by omega) (by omega)) h.left
  · rcases lt_trichotomy b b' with hlt | heq | hgt
    · exact absurd (h'.holds (b + 1) (by omega) (by omega)) h.right
    · exact heq
    · exact absurd (h.holds (b' + 1) (by omega) (by omega)) h'.right

/-- Moving the origin of the line moves the run. -/
theorem shift_iff (s : ℤ) :
    MaxRun (fun k => f (k + s)) a b ↔ MaxRun f (a + s) (b + s) := by
  constructor
  · intro h
    refine ⟨by have := h.le; omega, fun k hak hkb => ?_, ?_, ?_⟩
    · simpa using h.holds (k - s) (by omega) (by omega)
    · have := h.left
      rwa [show a - 1 + s = a + s - 1 by ring] at this
    · have := h.right
      rwa [show b + 1 + s = b + s + 1 by ring] at this
  · intro h
    refine ⟨by have := h.le; omega, fun k hak hkb => ?_, ?_, ?_⟩
    · exact h.holds (k + s) (by omega) (by omega)
    · rw [show a - 1 + s = a + s - 1 by ring]
      exact h.left
    · rw [show b + 1 + s = b + s + 1 by ring]
      exact h.right

/-- Reading the line the other way round reverses the run. -/
theorem neg_iff : MaxRun (fun k => f (-k)) a b ↔ MaxRun f (-b) (-a) := by
  constructor
  · intro h
    refine ⟨by have := h.le; omega, fun k hak hkb => ?_, ?_, ?_⟩
    · simpa using h.holds (-k) (by omega) (by omega)
    · have := h.right
      rwa [show -(b + 1) = -b - 1 by ring] at this
    · have := h.left
      rwa [show -(a - 1) = -a + 1 by ring] at this
  · intro h
    refine ⟨by have := h.le; omega, fun k hak hkb => ?_, ?_, ?_⟩
    · exact h.holds (-k) (by omega) (by omega)
    · rw [show -(a - 1) = -a + 1 by ring]
      exact h.right
    · rw [show -(b + 1) = -b - 1 by ring]
      exact h.left

/-- Marking one more point leaves alone every run that does not contain it. -/
theorem of_mark {s : ℤ} (h : MaxRun f a b) (hfg : ∀ k, f k ↔ k = s ∨ g k)
    (hs : s < a ∨ b < s) : MaxRun g a b := by
  refine ⟨h.le, fun k hak hkb => ?_, ?_, ?_⟩
  · rcases (hfg k).mp (h.holds k hak hkb) with rfl | hg
    · omega
    · exact hg
  · exact fun hg => h.left ((hfg _).mpr (Or.inr hg))
  · exact fun hg => h.right ((hfg _).mpr (Or.inr hg))

/-- A maximal run contains every marked interval that it meets. -/
theorem contains (h : MaxRun f a b) {x y k : ℤ} (hf : ∀ j, x ≤ j → j ≤ y → f j)
    (hxk : x ≤ k) (hky : k ≤ y) (hak : a ≤ k) (hkb : k ≤ b) : a ≤ x ∧ y ≤ b := by
  constructor
  · by_contra hlt
    exact h.left (hf (a - 1) (by omega) (by omega))
  · by_contra hlt
    exact h.right (hf (b + 1) (by omega) (by omega))

/-- When one more point is marked and its run meets an old run, the point is next
to the old run. -/
theorem mark_neighbour {s k : ℤ} (h : MaxRun f a b) (h' : MaxRun g a' b')
    (hg : ∀ j, g j ↔ j = s ∨ f j) (hs : ¬ f s) (hak : a ≤ k) (hkb : k ≤ b)
    (hak' : a' ≤ k) (hkb' : k ≤ b') (has : a' ≤ s) (hsb : s ≤ b') :
    s = a - 1 ∨ s = b + 1 := by
  have hout : s < a ∨ b < s := by
    by_contra hin
    exact hs (h.holds s (by omega) (by omega))
  rcases hout with hlt | hgt
  · rcases (hg (a - 1)).mp (h'.holds _ (by omega) (by omega)) with heq | hf
    · exact Or.inl heq.symm
    · exact absurd hf h.left
  · rcases (hg (b + 1)).mp (h'.holds _ (by omega) (by omega)) with heq | hf
    · exact Or.inr heq.symm
    · exact absurd hf h.right

/-- The run through a new mark next to an old run takes the old run in. -/
theorem contains_neighbour {s : ℤ} (h : MaxRun f a b) (h' : MaxRun g a' b')
    (hg : ∀ j, g j ↔ j = s ∨ f j) (hs : s = a - 1 ∨ s = b + 1) (has : a' ≤ s)
    (hsb : s ≤ b') : a' ≤ a ∧ b ≤ b' := by
  have hle := h.le
  rcases hs with rfl | rfl
  · have hmarked : ∀ j, a - 1 ≤ j → j ≤ b → g j := by
      intro j haj hjb
      rw [hg]
      rcases eq_or_lt_of_le haj with heq | hlt
      · exact Or.inl heq.symm
      · exact Or.inr (h.holds j (by omega) hjb)
    have := h'.contains hmarked (le_refl _) (by omega) has hsb
    omega
  · have hmarked : ∀ j, a ≤ j → j ≤ b + 1 → g j := by
      intro j haj hjb
      rw [hg]
      rcases eq_or_lt_of_le hjb with heq | hlt
      · exact Or.inl heq
      · exact Or.inr (h.holds j haj (by omega))
    have := h'.contains hmarked (by omega) (le_refl _) has hsb
    omega

end MaxRun

/-- Walking from a marked point of a line whose marks are bounded above, the
marks end somewhere. -/
theorem exists_right_end {f : ℤ → Prop} {hi : ℤ} (hbound : ∀ j, f j → j ≤ hi) {k : ℤ}
    (hk : f k) : ∃ b, k ≤ b ∧ (∀ j, k ≤ j → j ≤ b → f j) ∧ ¬ f (b + 1) := by
  obtain ⟨n, hn⟩ : ∃ n : ℕ, hi - k = n := ⟨(hi - k).toNat, by have := hbound k hk; omega⟩
  induction n generalizing k with
  | zero =>
      refine ⟨k, le_refl k, fun j hkj hjk => ?_, fun hnext => ?_⟩
      · rwa [le_antisymm hjk hkj]
      · have := hbound _ hnext
        omega
  | succ n ih =>
      by_cases hnext : f (k + 1)
      · obtain ⟨b, hkb, hholds, hright⟩ := ih hnext (by omega)
        refine ⟨b, by omega, fun j hkj hjb => ?_, hright⟩
        rcases eq_or_lt_of_le hkj with rfl | hlt
        · exact hk
        · exact hholds j (by omega) hjb
      · refine ⟨k, le_refl k, fun j hkj hjk => ?_, hnext⟩
        rwa [le_antisymm hjk hkj]

/-- Every marked point of a bounded line lies in a maximal run. -/
theorem exists_maxRun {f : ℤ → Prop} {lo hi : ℤ} (hbound : ∀ j, f j → lo ≤ j ∧ j ≤ hi)
    {k : ℤ} (hk : f k) : ∃ a b, MaxRun f a b ∧ a ≤ k ∧ k ≤ b := by
  obtain ⟨b, hkb, hfwd, hright⟩ := exists_right_end (fun j hj => (hbound j hj).2) hk
  obtain ⟨c, hkc, hback, hleft⟩ :=
    exists_right_end (f := fun j => f (-j)) (k := -k)
      (fun j hj => show j ≤ -lo by have := (hbound _ hj).1; omega) (by simpa using hk)
  refine ⟨-c, b, ⟨by omega, fun j hcj hjb => ?_, ?_, hright⟩, by omega, hkb⟩
  · rcases le_total k j with hkj | hjk
    · exact hfwd j hkj hjb
    · simpa using hback (-j) (by omega) (by omega)
  · rwa [show -(c + 1) = -c - 1 by ring] at hleft

/-! ## Walking outwards from a point -/

/-- The loop `for (i = start; …; i++) if (f i) continue; else break;` with `n`
rounds to go: the value of `i` when it is left. -/
def stopIndex (f : ℕ → Bool) : ℕ → ℕ → ℕ
  | 0, i => i
  | n + 1, i => if f i then stopIndex f n (i + 1) else i

theorem stopIndex_spec (f : ℕ → Bool) (n i : ℕ) :
    i ≤ stopIndex f n i ∧ stopIndex f n i ≤ i + n ∧
      (∀ j, i ≤ j → j < stopIndex f n i → f j = true) ∧
      (stopIndex f n i < i + n → f (stopIndex f n i) = false) := by
  induction n generalizing i with
  | zero =>
      simp only [stopIndex]
      exact ⟨le_refl i, by omega, fun j hij hji => by omega, fun h => by omega⟩
  | succ n ih =>
      cases hf : f i with
      | false =>
          simp only [stopIndex, hf, Bool.false_eq_true, if_false]
          exact ⟨le_refl i, by omega, fun j hij hji => by omega, fun _ => trivial⟩
      | true =>
          obtain ⟨hlow, hhigh, hbefore, hstop⟩ := ih (i + 1)
          simp only [stopIndex, hf, if_true]
          refine ⟨by omega, by omega, fun j hij hjr => ?_, fun hlt => hstop (by omega)⟩
          rcases eq_or_lt_of_le hij with rfl | hlt
          · exact hf
          · exact hbefore j (by omega) hjr

/-- The two walks read the line around the origin: `back i` is the point `-i`
and `fwd j` the point `j`, as far as the budget `n` reaches. -/
structure ReadsLine (f : ℤ → Prop) (n : ℕ) (back fwd : ℕ → Bool) : Prop where
  back_iff : ∀ i, 1 ≤ i → i ≤ n → (back i = true ↔ f (-(i : ℤ)))
  fwd_iff : ∀ j, 1 ≤ j → j ≤ n → (fwd j = true ↔ f (j : ℤ))

/-- The number of marks seen by walking back at most `n` points and then forward
with what is left of the budget, the origin included. -/
def walk (back fwd : ℕ → Bool) (n : ℕ) : ℕ :=
  let i := stopIndex back n 1
  let j := stopIndex fwd (n + 1 - i) 1
  1 + (i - 1) + (j - 1)

section Walk

variable {f : ℤ → Prop} {n : ℕ} {back fwd : ℕ → Bool}

/-- What the two walks have established when they stop: `i` and `j` are the
numbers of marks that they have passed. -/
theorem walk_cases (hread : ReadsLine f n back fwd) (h0 : f 0) :
    ∃ i j : ℕ, stopIndex back n 1 = i + 1 ∧ stopIndex fwd (n - i) 1 = j + 1 ∧
      i + j ≤ n ∧ (∀ k : ℤ, -(i : ℤ) ≤ k → k ≤ j → f k) ∧
      (i + j < n → MaxRun f (-(i : ℤ)) j) := by
  -- the walk back comes first; the walk forward has the rest of the budget
  obtain ⟨hilow, hihigh, hiback, histop⟩ := stopIndex_spec back n 1
  obtain ⟨i, hi⟩ : ∃ i, stopIndex back n 1 = i + 1 := ⟨stopIndex back n 1 - 1, by omega⟩
  rw [hi] at hihigh hiback histop
  obtain ⟨hjlow, hjhigh, hjfwd, hjstop⟩ := stopIndex_spec fwd (n - i) 1
  obtain ⟨j, hj⟩ : ∃ j, stopIndex fwd (n - i) 1 = j + 1 :=
    ⟨stopIndex fwd (n - i) 1 - 1, by omega⟩
  rw [hj] at hjhigh hjfwd hjstop
  have hholds : ∀ k : ℤ, -(i : ℤ) ≤ k → k ≤ j → f k := by
    intro k hik hkj
    rcases lt_trichotomy k 0 with hneg | rfl | hpos
    · have hk : f (-((-k).toNat : ℤ)) :=
        (hread.back_iff (-k).toNat (by omega) (by omega)).mp
          (hiback _ (by omega) (by omega))
      rwa [show -((-k).toNat : ℤ) = k by omega] at hk
    · exact h0
    · have hk : f ((k.toNat : ℕ) : ℤ) :=
        (hread.fwd_iff k.toNat (by omega) (by omega)).mp
          (hjfwd _ (by omega) (by omega))
      rwa [show ((k.toNat : ℕ) : ℤ) = k by omega] at hk
  refine ⟨i, j, hi, hj, by omega, hholds, fun hlt => ⟨by omega, hholds, ?_, ?_⟩⟩
  · have hfalse := histop (by omega)
    have hiff := hread.back_iff (i + 1) (by omega) (by omega)
    rw [show -(i : ℤ) - 1 = -((i + 1 : ℕ) : ℤ) by omega]
    exact fun hf => by rw [hiff.mpr hf] at hfalse; cases hfalse
  · have hfalse := hjstop (by omega)
    have hiff := hread.fwd_iff (j + 1) (by omega) (by omega)
    rw [show (j : ℤ) + 1 = ((j + 1 : ℕ) : ℤ) by omega]
    exact fun hf => by rw [hiff.mpr hf] at hfalse; cases hfalse

/-- The count of the two walks, once it is known where they stop. -/
theorem walk_eq_of_stops {i j : ℕ} (hi : stopIndex back n 1 = i + 1)
    (hj : stopIndex fwd (n - i) 1 = j + 1) : walk back fwd n = i + j + 1 := by
  have hbudget : n + 1 - (i + 1) = n - i := by omega
  simp only [walk, hi, hbudget, hj]
  omega

/-- The walk counts exactly `n` marks iff the run through the origin has length
exactly `n`: a longer run uses the budget up and is counted as `n + 1`. -/
theorem walk_eq_iff (hread : ReadsLine f n back fwd) (h0 : f 0) :
    walk back fwd n = n ↔ ∃ a b, MaxRun f a b ∧ a ≤ 0 ∧ 0 ≤ b ∧ b - a + 1 = n := by
  obtain ⟨i, j, hi, hj, hle, hholds, hends⟩ := walk_cases hread h0
  have hwalk := walk_eq_of_stops hi hj
  constructor
  · intro heq
    exact ⟨-(i : ℤ), j, hends (by omega), by omega, by omega, by omega⟩
  · rintro ⟨a, b, hrun, ha, hb, hlen⟩
    by_contra hne
    have hfull : i + j = n ∨ i + j < n := by omega
    rcases hfull with hfull | hshort
    · -- `n + 1` marks around the origin do not fit into the run
      rcases lt_or_ge (-(i : ℤ)) a with hlt | hge
      · exact hrun.left (hholds (a - 1) (by omega) (by omega))
      · exact hrun.right (hholds (b + 1) (by omega) (by omega))
    · obtain ⟨rfl, rfl⟩ := hrun.unique (hends hshort) ha hb (by omega) (by omega)
      omega

/-- The walk counts more than `n` marks iff the run through the origin is longer
than `n`. -/
theorem lt_walk_iff (hread : ReadsLine f n back fwd) (h0 : f 0) {lo hi : ℤ}
    (hbound : ∀ j, f j → lo ≤ j ∧ j ≤ hi) :
    n < walk back fwd n ↔
      ∃ a b, MaxRun f a b ∧ a ≤ 0 ∧ 0 ≤ b ∧ (n : ℤ) < b - a + 1 := by
  obtain ⟨i, j, hi, hj, hle, hholds, hends⟩ := walk_cases hread h0
  have hwalk := walk_eq_of_stops hi hj
  constructor
  · intro hlt
    obtain ⟨a, b, hrun, ha, hb⟩ := exists_maxRun hbound h0
    refine ⟨a, b, hrun, ha, hb, ?_⟩
    by_contra hshort
    rcases lt_or_ge (-(i : ℤ)) a with hlt | hge
    · exact hrun.left (hholds (a - 1) (by omega) (by omega))
    · exact hrun.right (hholds (b + 1) (by omega) (by omega))
  · rintro ⟨a, b, hrun, ha, hb, hlen⟩
    by_contra hnot
    obtain ⟨rfl, rfl⟩ := hrun.unique (hends (by omega)) ha hb (by omega) (by omega)
    omega

end Walk

/-! ## Sweeping a finite line -/

/-- The sweep after the points `0, …, t - 1`: the length of the run it is in and
the runs it has emitted, as pairs of a start and a length.  A point that is not
marked ends the current run, whose length may be zero. -/
def sweep (g : ℕ → Bool) : ℕ → ℕ × List (ℕ × ℕ)
  | 0 => (0, [])
  | t + 1 =>
      let (c, emitted) := sweep g t
      if g t then (c + 1, emitted) else (0, emitted ++ [(t - c, c)])

/-- The runs emitted on a line of length `L`, the one cut off by its end
included. -/
def runs (g : ℕ → Bool) (L : ℕ) : List (ℕ × ℕ) :=
  (sweep g L).2 ++ [(L - (sweep g L).1, (sweep g L).1)]

theorem sweep_succ_of_marked {g : ℕ → Bool} {t : ℕ} (h : g t = true) :
    sweep g (t + 1) = ((sweep g t).1 + 1, (sweep g t).2) := by
  simp [sweep, h]

theorem sweep_succ_of_unmarked {g : ℕ → Bool} {t : ℕ} (h : g t = false) :
    sweep g (t + 1) =
      (0, (sweep g t).2 ++ [(t - (sweep g t).1, (sweep g t).1)]) := by
  simp [sweep, h]

/-- The counter is the length of the run that ends at the current point. -/
theorem sweep_count (g : ℕ → Bool) (t : ℕ) :
    (sweep g t).1 ≤ t ∧ (∀ j, t - (sweep g t).1 ≤ j → j < t → g j = true) ∧
      ((sweep g t).1 < t → g (t - (sweep g t).1 - 1) = false) := by
  induction t with
  | zero => simp [sweep]
  | succ t ih =>
      obtain ⟨hle, hmarked, hstart⟩ := ih
      cases hg : g t with
      | false =>
          rw [sweep_succ_of_unmarked hg]
          exact ⟨by omega, fun j hj hjt => by omega, fun _ => by simpa using hg⟩
      | true =>
          rw [sweep_succ_of_marked hg]
          refine ⟨by omega, fun j hj hjt => ?_, fun hlt => ?_⟩
          · rcases eq_or_lt_of_le (Nat.lt_succ_iff.mp hjt) with rfl | hlt
            · exact hg
            · exact hmarked j (by omega) hlt
          · have := hstart (by omega)
            rwa [show t - (sweep g t).1 - 1 = t + 1 - ((sweep g t).1 + 1) - 1 by omega]
              at this

/-- Two runs of a sequence that end at the same point and are both bounded on
the left are equal. -/
theorem start_eq_of_same_end {g : ℕ → Bool} {s s' e : ℕ} (hs : s ≤ e) (hs' : s' ≤ e)
    (hmarked : ∀ j, s ≤ j → j < e → g j = true)
    (hmarked' : ∀ j, s' ≤ j → j < e → g j = true)
    (hleft : 0 < s → g (s - 1) = false) (hleft' : 0 < s' → g (s' - 1) = false) :
    s = s' := by
  rcases lt_trichotomy s s' with hlt | heq | hgt
  · have htrue := hmarked (s' - 1) (by omega) (by omega)
    rw [hleft' (by omega)] at htrue
    cases htrue
  · exact heq
  · have htrue := hmarked' (s - 1) (by omega) (by omega)
    rw [hleft (by omega)] at htrue
    cases htrue

/-- The nonempty runs emitted so far are the maximal ones that have ended. -/
theorem mem_sweep_iff (g : ℕ → Bool) (t : ℕ) {s n : ℕ} (hn : 0 < n) :
    (s, n) ∈ (sweep g t).2 ↔
      s + n < t ∧ (∀ j, s ≤ j → j < s + n → g j = true) ∧
        (0 < s → g (s - 1) = false) ∧ g (s + n) = false := by
  induction t with
  | zero => simp [sweep]
  | succ t ih =>
      obtain ⟨hle, hmarked, hstart⟩ := sweep_count g t
      cases hg : g t with
      | true =>
          -- a marked index ends no run
          rw [sweep_succ_of_marked hg, ih]
          constructor
          · rintro ⟨hlt, hrest⟩
            exact ⟨by omega, hrest⟩
          · rintro ⟨hlt, hholds, hleft, hright⟩
            refine ⟨?_, hholds, hleft, hright⟩
            rcases eq_or_lt_of_le (Nat.lt_succ_iff.mp hlt) with heq | hlt
            · rw [heq, hg] at hright
              cases hright
            · exact hlt
      | false =>
          -- the run that ends here is emitted now
          rw [sweep_succ_of_unmarked hg, List.mem_append, ih, List.mem_singleton]
          constructor
          · rintro (⟨hlt, hrest⟩ | heq)
            · exact ⟨by omega, hrest⟩
            · obtain ⟨rfl, rfl⟩ := Prod.mk.inj heq
              have hend : t - (sweep g t).1 + (sweep g t).1 = t := by omega
              rw [hend]
              exact ⟨by omega, hmarked, fun hpos => hstart (by omega), hg⟩
          · rintro ⟨hlt, hholds, hleft, hright⟩
            rcases eq_or_lt_of_le (Nat.lt_succ_iff.mp hlt) with heq | hlt
            · right
              have hsame : s = t - (sweep g t).1 :=
                start_eq_of_same_end (by omega) (by omega) (heq ▸ hholds) hmarked hleft
                  (fun hpos => hstart (by omega))
              rw [Prod.mk.injEq]
              omega
            · exact Or.inl ⟨hlt, hholds, hleft, hright⟩

/-- **The sweep emits the maximal runs of the line.**  The line is the part
`[0, L)` of the integers, with nothing marked outside. -/
theorem mem_runs_iff (g : ℕ → Bool) (L : ℕ) {s n : ℕ} (hn : 0 < n) :
    (s, n) ∈ runs g L ↔
      MaxRun (fun k : ℤ => 0 ≤ k ∧ k < L ∧ g k.toNat = true) s (s + n - 1) := by
  obtain ⟨hle, hmarked, hstart⟩ := sweep_count g L
  rw [runs, List.mem_append, mem_sweep_iff g L hn, List.mem_singleton]
  constructor
  · intro h
    -- an emitted run has ended before `L`, or it is the one that is open at `L`
    have hrun : s + n ≤ L ∧ (∀ j, s ≤ j → j < s + n → g j = true) ∧
        (0 < s → g (s - 1) = false) ∧ (s + n < L → g (s + n) = false) := by
      rcases h with ⟨hlt, hholds, hleft, hright⟩ | heq
      · exact ⟨by omega, hholds, hleft, fun _ => hright⟩
      · obtain ⟨rfl, rfl⟩ := Prod.mk.inj heq
        have hend : L - (sweep g L).1 + (sweep g L).1 = L := by omega
        rw [hend]
        exact ⟨le_refl L, hmarked, fun hpos => hstart (by omega), fun h => by omega⟩
    obtain ⟨hend, hholds, hleft, hright⟩ := hrun
    refine ⟨by omega, fun k hsk hke => ⟨by omega, by omega, hholds _ (by omega) (by omega)⟩,
      ?_, ?_⟩
    · rintro ⟨hpos, -, hg⟩
      rw [show ((s : ℤ) - 1).toNat = s - 1 by omega, hleft (by omega)] at hg
      cases hg
    · rintro ⟨-, hlt, hg⟩
      rw [show ((s : ℤ) + n - 1 + 1).toNat = s + n by omega, hright (by omega)] at hg
      cases hg
  · intro h
    have hholds : ∀ j, s ≤ j → j < s + n → g j = true := by
      intro j hsj hjn
      simpa using (h.holds j (by omega) (by omega)).2.2
    have hend : s + n ≤ L := by
      have := (h.holds (s + n - 1) (by omega) (by omega)).2.1
      omega
    have hleft : 0 < s → g (s - 1) = false := by
      intro hpos
      by_contra hg
      refine h.left ⟨by omega, by omega, ?_⟩
      rw [show ((s : ℤ) - 1).toNat = s - 1 by omega]
      simpa using hg
    rcases eq_or_lt_of_le hend with heq | hlt
    · right
      have hsame : s = L - (sweep g L).1 :=
        start_eq_of_same_end (by omega) (by omega) (heq ▸ hholds) hmarked hleft
          (fun hpos => hstart (by omega))
      rw [Prod.mk.injEq]
      omega
    · left
      refine ⟨hlt, hholds, hleft, ?_⟩
      by_contra hg
      refine h.right ⟨by omega, by omega, ?_⟩
      rw [show ((s : ℤ) + n - 1 + 1).toNat = s + n by omega]
      simpa using hg

/-- The runs are emitted from left to right, and no two of them touch. -/
theorem sweep_pairwise (g : ℕ → Bool) (t : ℕ) :
    (sweep g t).2.Pairwise (fun r r' => r.1 + r.2 < r'.1) ∧
      ∀ r ∈ (sweep g t).2, r.1 + r.2 < t - (sweep g t).1 := by
  induction t with
  | zero => exact ⟨List.Pairwise.nil, fun r hr => nomatch hr⟩
  | succ t ih =>
      obtain ⟨hpairs, hbefore⟩ := ih
      cases hg : g t with
      | true =>
          rw [sweep_succ_of_marked hg, Nat.add_sub_add_right]
          exact ⟨hpairs, hbefore⟩
      | false =>
          have hle := (sweep_count g t).1
          rw [sweep_succ_of_unmarked hg]
          refine ⟨?_, fun r hr => ?_⟩
          · rw [List.pairwise_append]
            refine ⟨hpairs, List.pairwise_singleton _ _, fun r hr r' hr' => ?_⟩
            rw [List.mem_singleton.mp hr']
            exact hbefore r hr
          · rcases List.mem_append.mp hr with hr | hr
            · have := hbefore r hr
              omega
            · rw [List.mem_singleton.mp hr]
              omega

theorem runs_pairwise (g : ℕ → Bool) (L : ℕ) :
    (runs g L).Pairwise fun r r' => r.1 + r.2 < r'.1 := by
  obtain ⟨hpairs, hbefore⟩ := sweep_pairwise g L
  rw [runs, List.pairwise_append]
  refine ⟨hpairs, List.pairwise_singleton _ _, fun r hr r' hr' => ?_⟩
  rw [List.mem_singleton.mp hr']
  exact hbefore r hr

/-- Of runs that all contain one point there is at most one. -/
theorem length_filter_runs_le_one (g : ℕ → Bool) (L : ℕ) {p : ℕ × ℕ → Bool} {k : ℤ}
    (hk : ∀ r ∈ runs g L, p r = true → (r.1 : ℤ) ≤ k ∧ k < r.1 + r.2) :
    ((runs g L).filter p).length ≤ 1 := by
  have hpairs := (runs_pairwise g L).filter p
  have hall : ∀ r ∈ (runs g L).filter p, (r.1 : ℤ) ≤ k ∧ k < r.1 + r.2 := by
    intro r hr
    exact hk r (List.mem_filter.mp hr).1 (List.mem_filter.mp hr).2
  match hruns : (runs g L).filter p with
  | [] => exact Nat.zero_le 1
  | [r] => exact le_rfl
  | r :: r' :: rest =>
      -- the second of them would start behind the first one
      rw [hruns] at hpairs hall
      have hlt := (List.pairwise_cons.mp hpairs).1 r' List.mem_cons_self
      have hr := hall r List.mem_cons_self
      have hr' := hall r' (List.mem_cons_of_mem r List.mem_cons_self)
      omega

end LineRun
