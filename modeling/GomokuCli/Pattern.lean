import GomokuCli.Line

/-!
# Forbidden points, on whole lines

What a double three and a double four are, on a colouring of the plane and with
no limit on how far a line is looked at.  The definitions speak of the maximal
run through a stone; nothing in them comes from the scans of the program.

A three is a cell from which some further cell becomes an open four, unless that
further cell is itself forbidden.  So the definition of a double three refers to
itself, on a board with one more stone; the number of empty cells decreases.
-/

namespace GomokuCli

open LineRun

/-- The board with a black stone at `p`. -/
def place (g : Int × Int → Color) (p : Int × Int) : Int × Int → Color :=
  Function.update g p .black

/-- The maximal black run through `p` along `d` has a length in `L`.  The run is the one on
the board as it is, so that the stone at `p` has to be there already. -/
def RunThrough (g : Int × Int → Color) (p : Int × Int) (d : Fin 4) (L : Int → Prop) : Prop :=
  ∃ a b, MaxRun (lineOf g .black p d) a b ∧ a ≤ 0 ∧ 0 ≤ b ∧ L (b - a + 1)

/-- Black makes exactly five in a row at `p`. -/
def MakesFive (g : Int × Int → Color) (p : Int × Int) : Prop :=
  ∃ d, RunThrough (place g p) p d (· = 5)

/-- Black makes six or more in a row at `p`. -/
def MakesOverline (g : Int × Int → Color) (p : Int × Int) : Prop :=
  ∃ d, RunThrough (place g p) p d (6 ≤ ·)

/-- The empty cells on the line of `p` from which, once black is at `p`, black makes exactly
five through `p`.  There is no bound on their distance; that they lie next to the run is a
theorem (`mem_fivePoints_iff`). -/
def fivePoints (g : Int × Int → Color) (p : Int × Int) (d : Fin 4) : Set (Int × Int) :=
  {q | (∃ k, q = along p d k) ∧ place g p q = .empty ∧
    RunThrough (place (place g p) q) p d (· = 5)}

open Classical in
/-- How many fours black makes at `p` along `d`: two fours on one line when the five points
are two and the run between them is not a four already.  An open four counts once, since
both its five points belong to the same stones. -/
noncomputable def fourAt (g : Int × Int → Color) (p : Int × Int) (d : Fin 4) : Nat :=
  if MakesFive g p ∨ MakesOverline g p ∨ fivePoints g p d = ∅ then 0
  else if (fivePoints g p d).ncard = 2 ∧ ¬ RunThrough (place g p) p d (· = 4) then 2
  else 1

/-- `p` is a double four: black makes two fours there, on one line or on two, and does not
win with the stone. -/
def DoubleFour (g : Int × Int → Color) (p : Int × Int) : Prop :=
  ¬ MakesFive g p ∧ 2 ≤ ∑ d, fourAt g p d

/-- `q` turns the stone at `p` into part of an open four along `d`: four in a row through
both, with a five point on either side. -/
structure MakesOpenFour (g : Int × Int → Color) (p q : Int × Int) (d : Fin 4) : Prop where
  empty : g q = .empty
  notFive : ¬ MakesFive g q
  notOverline : ¬ MakesOverline g q
  run : ∃ a b k, MaxRun (lineOf (place g q) .black q d) a b ∧ a ≤ 0 ∧ 0 ≤ b ∧
    b - a + 1 = 4 ∧ p = along q d k ∧ a ≤ k ∧ k ≤ b
  open_ends : (fivePoints g q d).ncard = 2

/-- Black makes a three at `p` along `d`, where `doubleThree` says which cells are double
threes once the stone is there.  The parameter takes the recursion out of the definition, so
that it can be compared with a scan that asks the finder again. -/
def ThreeAt (doubleThree : Int × Int → Prop) (g : Int × Int → Color) (p : Int × Int)
    (d : Fin 4) : Prop :=
  ¬ MakesFive g p ∧ ¬ MakesOverline g p ∧
    ∃ k, MakesOpenFour (place g p) p (along p d k) d ∧
      ¬ DoubleFour (place g p) (along p d k) ∧ ¬ doubleThree (along p d k)

/-- The empty cells of the square. -/
noncomputable def emptyCells (size : Nat) (g : Int × Int → Color) : Finset (Int × Int) :=
  (Finset.Ico 0 (size : Int) ×ˢ Finset.Ico 0 (size : Int)).filter fun c => g c = .empty

theorem mem_emptyCells_iff {size : Nat} {g : Int × Int → Color} {c : Int × Int} :
    c ∈ emptyCells size g ↔ InSquare size c ∧ g c = .empty := by
  simp only [emptyCells, Finset.mem_filter, Finset.mem_product, Finset.mem_Ico, InSquare]

theorem card_emptyCells_le (size : Nat) (g : Int × Int → Color) :
    (emptyCells size g).card ≤ size * size := by
  refine (Finset.card_filter_le _ _).trans ?_
  simp

/-- A stone on an empty cell leaves fewer empty cells. -/
theorem card_emptyCells_place {size : Nat} {g : Int × Int → Color} {p : Int × Int}
    (h : InSquare size p ∧ g p = .empty) :
    (emptyCells size (place g p)).card < (emptyCells size g).card := by
  apply Finset.card_lt_card
  rw [Finset.ssubset_iff_of_subset]
  · refine ⟨p, mem_emptyCells_iff.mpr h, fun hp => ?_⟩
    simpa [place] using (mem_emptyCells_iff.mp hp).2
  · intro c hc
    obtain ⟨hin, hempty⟩ := mem_emptyCells_iff.mp hc
    have hne : c ≠ p := by
      rintro rfl
      simp [place] at hempty
    rw [place, Function.update_of_ne hne] at hempty
    exact mem_emptyCells_iff.mpr ⟨hin, hempty⟩

open Classical in
/-- `p` is a double three: two of the directions have a three.  A three needs a cell that is
not a double three itself on the board with one more stone, and so the definition goes down
in the number of empty cells. -/
def DoubleThree (size : Nat) (g : Int × Int → Color) (p : Int × Int) : Prop :=
  if _hp : InSquare size p ∧ g p = .empty then
    ¬ MakesFive g p ∧
      2 ≤ (Finset.univ.filter fun d =>
        ThreeAt (fun q => DoubleThree size (place g p) q) g p d).card
  else False
termination_by (emptyCells size g).card
decreasing_by all_goals exact card_emptyCells_place _hp

open Classical in
theorem doubleThree_iff {size : Nat} {g : Int × Int → Color} {p : Int × Int} :
    DoubleThree size g p ↔ (InSquare size p ∧ g p = .empty) ∧ ¬ MakesFive g p ∧
      2 ≤ (Finset.univ.filter fun d =>
        ThreeAt (fun q => DoubleThree size (place g p) q) g p d).card := by
  rw [DoubleThree]
  by_cases hp : InSquare size p ∧ g p = .empty
  · rw [dif_pos hp, and_iff_right hp]
  · rw [dif_neg hp, false_iff]
    exact fun h => hp h.1

/-! ## Where five points and open fours can lie

Both lie right next to the run through `p`: a stone further away does not
change that run. -/

/-- `q` is an open four along `d`, whatever stone has been there before. -/
structure OpenFourAt (g : Int × Int → Color) (q : Int × Int) (d : Fin 4) : Prop where
  empty : g q = .empty
  notFive : ¬ MakesFive g q
  notOverline : ¬ MakesOverline g q
  run : RunThrough (place g q) q d (· = 4)
  open_ends : (fivePoints g q d).ncard = 2

section Neighbours

variable {g : Int × Int → Color} {p q : Int × Int} {d : Fin 4} {a b k : Int}

theorem lineOf_place (j : Int) :
    lineOf (place g (along p d k)) .black p d j ↔ j = k ∨ lineOf g .black p d j := by
  by_cases hj : j = k
  · subst hj
    simp [lineOf, place]
  · have hne : along p d j ≠ along p d k := fun h => hj (along_injective p d h)
    simp [lineOf, place, Function.update_of_ne hne, hj]

theorem not_lineOf_of_empty (h : g (along p d k) = .empty) : ¬ lineOf g .black p d k := by
  simp [lineOf, h]

/-- The run through a cell next to an old run contains the old run. -/
theorem runThrough_neighbour_iff (hrun : MaxRun (lineOf g .black p d) a b)
    (hk : k = a - 1 ∨ k = b + 1) {L : Int → Prop} :
    RunThrough (place g (along p d k)) (along p d k) d L ↔
      ∃ a' b', MaxRun (lineOf (place g (along p d k)) .black p d) a' b' ∧ a' ≤ a ∧ b ≤ b' ∧
        a' ≤ k ∧ k ≤ b' ∧ L (b' - a' + 1) := by
  constructor
  · rintro ⟨a', b', hrun', ha', hb', hL⟩
    rw [maxRun_lineOf_shift] at hrun'
    obtain ⟨hleft, hright⟩ :=
      hrun.contains_neighbour hrun' lineOf_place hk (by omega) (by omega)
    refine ⟨a' + k, b' + k, hrun', hleft, hright, by omega, by omega, ?_⟩
    rwa [show b' + k - (a' + k) + 1 = b' - a' + 1 by ring]
  · rintro ⟨a', b', hrun', -, -, hak, hkb, hL⟩
    refine ⟨a' - k, b' - k, ?_, by omega, by omega, ?_⟩
    · rw [maxRun_lineOf_shift]
      simpa using hrun'
    · rwa [show b' - k - (a' - k) + 1 = b' - a' + 1 by ring]

/-- **The five points are among the two cells next to the run.** A stone further away leaves
the run through `p` as it is, which is not five long. -/
theorem mem_fivePoints_iff (hfive : ¬ MakesFive g p)
    (hrun : MaxRun (lineOf (place g p) .black p d) a b) (ha : a ≤ 0) (hb : 0 ≤ b) :
    q ∈ fivePoints g p d ↔
      (q = along p d (a - 1) ∨ q = along p d (b + 1)) ∧ place g p q = .empty ∧
        RunThrough (place (place g p) q) q d (· = 5) := by
  constructor
  · rintro ⟨⟨k, rfl⟩, hempty, a', b', hrun', ha', hb', hlen⟩
    have hmark := fun j => lineOf_place (g := place g p) (p := p) (d := d) (k := k) j
    have hin : a' ≤ k ∧ k ≤ b' := by
      by_contra hout
      -- a run without the new stone was there before
      exact hfive ⟨d, a', b', hrun'.of_mark hmark (by omega), ha', hb', hlen⟩
    have hk := hrun.mark_neighbour hrun' hmark (not_lineOf_of_empty hempty) ha hb ha' hb'
      hin.1 hin.2
    obtain ⟨hleft, hright⟩ := hrun.contains_neighbour hrun' hmark hk hin.1 hin.2
    refine ⟨?_, hempty, (runThrough_neighbour_iff hrun hk).mpr
      ⟨a', b', hrun', hleft, hright, hin.1, hin.2, hlen⟩⟩
    rcases hk with rfl | rfl
    · exact Or.inl rfl
    · exact Or.inr rfl
  · rintro ⟨hq, hempty, hthrough⟩
    obtain ⟨k, hk, rfl⟩ : ∃ k, (k = a - 1 ∨ k = b + 1) ∧ q = along p d k := by
      rcases hq with rfl | rfl
      · exact ⟨a - 1, Or.inl rfl, rfl⟩
      · exact ⟨b + 1, Or.inr rfl, rfl⟩
    obtain ⟨a', b', hrun', hleft, hright, -, -, hlen⟩ :=
      (runThrough_neighbour_iff hrun hk).mp hthrough
    exact ⟨⟨k, rfl⟩, hempty, a', b', hrun', by omega, by omega, hlen⟩

/-- The cells on either side of a run are different. -/
theorem along_ends_ne (hrun : MaxRun (lineOf g .black p d) a b) :
    along p d (a - 1) ≠ along p d (b + 1) := by
  intro h
  have := along_injective p d h
  have := hrun.le
  omega

/-- There are two five points iff both cells next to the run are. -/
theorem ncard_fivePoints_iff (hfive : ¬ MakesFive g p)
    (hrun : MaxRun (lineOf (place g p) .black p d) a b) (ha : a ≤ 0) (hb : 0 ≤ b) :
    (fivePoints g p d).ncard = 2 ↔
      along p d (a - 1) ∈ fivePoints g p d ∧ along p d (b + 1) ∈ fivePoints g p d := by
  have hsub : fivePoints g p d ⊆ {along p d (a - 1), along p d (b + 1)} :=
    fun q hq => ((mem_fivePoints_iff hfive hrun ha hb).mp hq).1
  have hpair : ({along p d (a - 1), along p d (b + 1)} : Set (Int × Int)).ncard = 2 :=
    Set.ncard_pair (along_ends_ne hrun)
  constructor
  · intro hcard
    have heq : fivePoints g p d = {along p d (a - 1), along p d (b + 1)} :=
      Set.eq_of_subset_of_ncard_le hsub (by rw [hpair, hcard]) (Set.toFinite _)
    rw [heq]
    simp
  · rintro ⟨hleft, hright⟩
    have heq : fivePoints g p d = {along p d (a - 1), along p d (b + 1)} := by
      apply Set.Subset.antisymm hsub
      rintro q (rfl | rfl)
      · exact hleft
      · exact hright
    rw [heq, hpair]

/-- There is a five point iff one of the cells next to the run is one. -/
theorem fivePoints_eq_empty_iff (hfive : ¬ MakesFive g p)
    (hrun : MaxRun (lineOf (place g p) .black p d) a b) (ha : a ≤ 0) (hb : 0 ≤ b) :
    fivePoints g p d = ∅ ↔
      along p d (a - 1) ∉ fivePoints g p d ∧ along p d (b + 1) ∉ fivePoints g p d := by
  rw [Set.eq_empty_iff_forall_notMem]
  constructor
  · exact fun h => ⟨h _, h _⟩
  · rintro ⟨hleft, hright⟩ q hq
    rcases ((mem_fivePoints_iff hfive hrun ha hb).mp hq).1 with rfl | rfl
    · exact hleft hq
    · exact hright hq

/-- **The cells that make an open four out of the run through `p`** are the open fours next
to it.  So a finder that only looks at the first empty cell on either side misses none. -/
theorem makesOpenFour_iff (hrun : MaxRun (lineOf g .black p d) a b) (ha : a ≤ 0)
    (hb : 0 ≤ b) :
    MakesOpenFour g p (along p d k) d ↔
      (k = a - 1 ∨ k = b + 1) ∧ OpenFourAt g (along p d k) d := by
  constructor
  · rintro ⟨hempty, hfive, hover, ⟨a', b', s, hrun', ha', hb', hlen, hp, has, hsb⟩, hends⟩
    have hs : s = -k := by
      have hp' : along p d 0 = along p d (s + k) := by
        rw [← along_along, ← hp, along_zero]
      have := along_injective p d hp'
      omega
    have hthrough : RunThrough (place g (along p d k)) (along p d k) d (· = 4) :=
      ⟨a', b', hrun', ha', hb', hlen⟩
    rw [maxRun_lineOf_shift] at hrun'
    have hk := hrun.mark_neighbour hrun' lineOf_place (not_lineOf_of_empty hempty) ha hb
      (by omega) (by omega) (by omega) (by omega)
    exact ⟨hk, hempty, hfive, hover, hthrough, hends⟩
  · rintro ⟨hk, hempty, hfive, hover, hthrough, hends⟩
    obtain ⟨a', b', hrun', hleft, hright, hak, hkb, hlen⟩ :=
      (runThrough_neighbour_iff hrun hk).mp hthrough
    refine ⟨hempty, hfive, hover, ⟨a' - k, b' - k, -k, ?_, by omega, by omega, by omega, ?_,
      by omega, by omega⟩, hends⟩
    · rw [maxRun_lineOf_shift]
      simpa using hrun'
    · rw [along_along, neg_add_cancel, along_zero]

end Neighbours

end GomokuCli
