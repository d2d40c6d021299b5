import Mathlib.Data.List.Nodup

/-!
# Shuffling by transpositions

The shuffle that goes down through an array and exchanges each entry with one that
was drawn from those up to it.  The draws are a list, that for the last entry first,
and none for the entry at `0`, which is left over.

On an array without repetitions each arrangement comes from exactly one list of draws
(`existsUnique_shuffle`), so that draws without a bias give a shuffle without one.
-/

namespace Shuffling

variable {α : Type*}

/-- The list has a draw for every position from its length down to `1`, each of them from
the positions up to there.  It is the condition under which no exchange leaves the array. -/
def Drawn : List ℕ → Prop
  | [] => True
  | j :: js => j ≤ js.length + 1 ∧ Drawn js

/-- The exchanges with the entries that were drawn, from the last position on down.  A
position is settled once its own draw has been made. -/
def shuffle : List ℕ → Array α → Array α
  | [], xs => xs
  | j :: js, xs => shuffle js (xs.swapIfInBounds (js.length + 1) j)

variable {js : List ℕ} {xs ys : Array α} {n j k : ℕ}

theorem swapIfInBounds_perm (xs : Array α) (i j : ℕ) : (xs.swapIfInBounds i j).Perm xs := by
  rw [Array.swapIfInBounds_def]
  split
  · split
    · exact Array.swap_perm _ _
    · exact .rfl
  · exact .rfl

/-! ## Exchanges -/

theorem getElem?_exchange_self (hn : n < xs.size) (hj : j ≤ n) :
    (xs.swapIfInBounds n j)[n]? = xs[j]? := by
  have hj' : j < xs.size := by omega
  rw [Array.getElem?_eq_getElem (by rwa [Array.size_swapIfInBounds]),
    Array.getElem_swapIfInBounds_left hj', Array.getElem?_eq_getElem hj']

theorem getElem?_exchange_of_lt (hj : j ≤ n) (hk : n < k) :
    (xs.swapIfInBounds n j)[k]? = xs[k]? := by
  by_cases hsize : k < xs.size
  · rw [Array.getElem?_eq_getElem (by rwa [Array.size_swapIfInBounds]),
      Array.getElem_swapIfInBounds_of_ne_of_ne (by omega) (by omega),
      Array.getElem?_eq_getElem hsize]
  · rw [Array.getElem?_eq_none (by rw [Array.size_swapIfInBounds]; omega),
      Array.getElem?_eq_none (by omega)]

/-- The entries behind the draws stay where they are.  This is what makes the first draw
readable from the result: it is where the last entry came from. -/
theorem getElem?_shuffle_of_lt (hdrawn : Drawn js) (hsize : js.length < xs.size)
    (hk : js.length < k) : (shuffle js xs)[k]? = xs[k]? := by
  induction js generalizing xs with
  | nil => rfl
  | cons j js ih =>
      rw [List.length_cons] at hsize hk
      rw [shuffle, ih hdrawn.2 (by rw [Array.size_swapIfInBounds]; omega) (by omega)]
      exact getElem?_exchange_of_lt hdrawn.1 hk

/-! ## One list of draws for each arrangement -/

/-- `ys` is an arrangement of `xs` that only differs from it up to the position `n`.  It is
what is left to do when the positions behind `n` have been settled, and the induction over
the draws is about it. -/
structure Arranges (n : ℕ) (xs ys : Array α) : Prop where
  perm : ys.Perm xs
  same : ∀ k, n < k → ys[k]? = xs[k]?

section Nodup

variable (hnodup : xs.toList.Nodup)
include hnodup

theorem eq_of_getElem?_eq (hj : j < xs.size) (h : xs[j]? = xs[k]?) : j = k := by
  rw [← Array.getElem?_toList, ← Array.getElem?_toList] at h
  exact (List.getElem?_inj hj hnodup).mp h

/-- Where an entry of an arrangement comes from: one of the positions that are not settled.
In an array without repetitions there is only one such position. -/
theorem Arranges.source (h : Arranges n xs ys) (hn : n < xs.size) :
    ∃ j ≤ n, xs[j]? = ys[n]? := by
  have hnodup' : ys.toList.Nodup := h.perm.toList.nodup_iff.mpr hnodup
  have hn' : n < ys.size := by rwa [h.perm.size_eq]
  have hmem : ys[n] ∈ xs.toList := h.perm.toList.mem_iff.mp (Array.getElem_mem_toList hn')
  obtain ⟨j, hj, hentry⟩ := List.getElem_of_mem hmem
  have hsource : xs[j]? = ys[n]? := by
    rw [Array.getElem?_eq_getElem hn', ← hentry, ← Array.getElem?_toList,
      List.getElem?_eq_getElem hj]
  refine ⟨j, ?_, hsource⟩
  -- behind `n` the two agree, and there it cannot be
  by_contra hlt
  have heq := eq_of_getElem?_eq hnodup' hn' (hsource.symm.trans (h.same j (by omega)).symm)
  omega

theorem Arranges.eq_of_zero (h : Arranges 0 xs ys) : ys = xs := by
  refine Array.ext_getElem? fun k => ?_
  rcases Nat.eq_zero_or_pos k with rfl | hk
  · by_cases hsize : 0 < xs.size
    · obtain ⟨j, hj, hsource⟩ := h.source hnodup hsize
      rw [← hsource, Nat.le_zero.mp hj]
    · rw [Array.getElem?_eq_none (by rw [h.perm.size_eq]; omega),
        Array.getElem?_eq_none (by omega)]
  · exact h.same k hk

/-- **Every arrangement comes from exactly one list of draws.** The induction is on the
position: the draw for it is the source of its entry, and after the exchange an arrangement
up to the position before it is left. -/
theorem Arranges.existsUnique (h : Arranges n xs ys) (hn : n = 0 ∨ n < xs.size) :
    ∃! js : List ℕ, js.length = n ∧ Drawn js ∧ shuffle js xs = ys := by
  induction n generalizing xs with
  | zero =>
      refine ⟨[], ⟨rfl, trivial, (h.eq_of_zero hnodup).symm⟩, ?_⟩
      rintro js ⟨hlength, -⟩
      exact List.eq_nil_of_length_eq_zero hlength
  | succ n ih =>
      have hsize : n + 1 < xs.size := hn.resolve_left (Nat.succ_ne_zero n)
      obtain ⟨j, hj, hsource⟩ := h.source hnodup hsize
      have hperm := swapIfInBounds_perm xs (n + 1) j
      have hrest : Arranges n (xs.swapIfInBounds (n + 1) j) ys := by
        refine ⟨h.perm.trans hperm.symm, fun k hk => ?_⟩
        rcases Nat.eq_or_lt_of_le (Nat.succ_le_of_lt hk) with rfl | hlt
        · rw [getElem?_exchange_self hsize hj, hsource]
        · rw [getElem?_exchange_of_lt hj hlt, h.same k hlt]
      obtain ⟨js, ⟨hlength, hdrawn, hshuffle⟩, hunique⟩ := ih
        (hperm.toList.nodup_iff.mpr hnodup) hrest
        (Or.inr (by rw [Array.size_swapIfInBounds]; omega))
      refine ⟨j :: js, ⟨by rw [List.length_cons, hlength], ⟨hlength ▸ hj, hdrawn⟩, ?_⟩, ?_⟩
      · rw [shuffle, hlength, hshuffle]
      · rintro js' ⟨hlength', hdrawn', hshuffle'⟩
        obtain ⟨j', js', rfl⟩ := List.exists_cons_of_length_eq_add_one hlength'
        rw [List.length_cons, Nat.add_right_cancel_iff] at hlength'
        subst hlength'
        obtain ⟨hj', hdrawn'⟩ := hdrawn'
        -- the first draw decides which entry comes last
        have hfirst : ys[js'.length + 1]? = xs[j']? := by
          rw [← hshuffle', shuffle, getElem?_shuffle_of_lt hdrawn'
            (by rw [Array.size_swapIfInBounds]; omega) (Nat.lt_succ_self _),
            getElem?_exchange_self hsize hj']
        obtain rfl : j' = j :=
          eq_of_getElem?_eq hnodup (by omega) (hfirst.symm.trans hsource.symm)
        rw [hunique js' ⟨rfl, hdrawn', hshuffle'⟩]

end Nodup

/-- **Draws and arrangements are in a one-to-one correspondence.** Each arrangement of an
array without repetitions is reached by one list of draws and by no other, so that draws
that are equally likely make all arrangements equally likely. -/
theorem existsUnique_shuffle (hnodup : xs.toList.Nodup) (hperm : ys.Perm xs) :
    ∃! js : List ℕ, js.length = xs.size - 1 ∧ Drawn js ∧ shuffle js xs = ys := by
  refine Arranges.existsUnique hnodup ⟨hperm, fun k hk => ?_⟩ (by omega)
  rw [Array.getElem?_eq_none (by rw [hperm.size_eq]; omega), Array.getElem?_eq_none (by omega)]

end Shuffling
