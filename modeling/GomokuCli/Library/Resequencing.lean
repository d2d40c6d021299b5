import Mathlib.Data.List.Sort
import Mathlib.Tactic

/-!
# Putting numbered items back in order

Items with distinct numbers arrive in any order and leave in the order of their
numbers `0, 1, 2, …`: an item is held back until all items before it are there.
`Resequenced` is the invariant of such a buffer: what has left is an initial
segment, what is held is sorted, and the item that would be next is missing.

`insertSorted` and `chunk` are the two steps of an arrival: the item goes to its
place, and the consecutive items at the front leave (`Resequenced.arrive`).
-/

namespace Resequencing

variable {β : Type*} (key : β → ℕ)

/-- Insertion in front of the first item with a greater number.  In a list in order that
does not have the number yet, the item is in its place then. -/
def insertSorted (held : List β) (item : β) : List β :=
  held.takeWhile (fun x => !decide (key item < key x)) ++
    item :: held.dropWhile (fun x => !decide (key item < key x))

/-- The length of the longest chunk of items with consecutive numbers from `next` on.  This
is what may leave, since nothing before it is missing. -/
def chunk : ℕ → List β → ℕ
  | _, [] => 0
  | next, x :: held => if key x = next then chunk (next + 1) held + 1 else 0

/-- The numbers of the items grow from each to all that follow, so that in particular none
occurs twice. -/
def InOrder (items : List β) : Prop := items.Pairwise fun x y => key x < key y

variable {key} {held arrived out : List β} {item : β} {next : ℕ}

/-! ## Insertion -/

/-- Insertion loses nothing and adds nothing but the item. -/
theorem insertSorted_perm (held : List β) (item : β) :
    (insertSorted key held item).Perm (item :: held) := by
  refine List.perm_middle.trans ?_
  rw [List.takeWhile_append_dropWhile]

theorem mem_insertSorted {x : β} : x ∈ insertSorted key held item ↔ x = item ∨ x ∈ held := by
  rw [(insertSorted_perm held item).mem_iff, List.mem_cons]

theorem InOrder.insertSorted (h : InOrder key held) (hnew : ∀ x ∈ held, key x ≠ key item) :
    InOrder key (insertSorted key held item) := by
  induction held with
  | nil => exact List.pairwise_singleton _ _
  | cons x held ih =>
      obtain ⟨hx, hheld⟩ := List.pairwise_cons.mp h
      by_cases hlt : key item < key x
      · have hfirst : Resequencing.insertSorted key (x :: held) item = item :: x :: held := by
          simp [Resequencing.insertSorted, hlt]
        rw [hfirst]
        refine List.pairwise_cons.mpr ⟨?_, h⟩
        rintro y (_ | ⟨_, hy⟩)
        · exact hlt
        · exact hlt.trans (hx y hy)
      · have hlater : Resequencing.insertSorted key (x :: held) item =
            x :: Resequencing.insertSorted key held item := by
          simp [Resequencing.insertSorted, hlt]
        rw [hlater]
        refine List.pairwise_cons.mpr ⟨fun y hy => ?_, ih hheld fun y hy => hnew y (.tail x hy)⟩
        rcases mem_insertSorted.mp hy with rfl | hy
        · exact lt_of_le_of_ne (Nat.le_of_not_lt hlt) (hnew x (.head held))
        · exact hx y hy

/-! ## The chunk at the front -/

variable (key) in
/-- The numbers of the chunk are consecutive, and start with the one that is next. -/
theorem map_take_chunk (next : ℕ) (held : List β) :
    (held.take (chunk key next held)).map key = List.range' next (chunk key next held) := by
  induction held generalizing next with
  | nil => rfl
  | cons x held ih =>
      by_cases hx : key x = next
      · rw [chunk, if_pos hx, List.take_succ_cons, List.map_cons, ih, List.range'_succ, hx]
      · rw [chunk, if_neg hx]
        rfl

/-- Behind the chunk there is a gap: the number that would follow it has not come.
Otherwise the item would belong to the chunk. -/
theorem lt_of_mem_drop_chunk (h : InOrder key held) (hnext : ∀ x ∈ held, next ≤ key x) :
    ∀ x ∈ held.drop (chunk key next held), next + chunk key next held < key x := by
  induction held generalizing next with
  | nil =>
      intro x hx
      cases hx
  | cons y held ih =>
      obtain ⟨hy, hheld⟩ := List.pairwise_cons.mp h
      by_cases hkey : key y = next
      · have hshift : next + (chunk key (next + 1) held + 1) =
            next + 1 + chunk key (next + 1) held := by omega
        rw [chunk, if_pos hkey, List.drop_succ_cons, hshift]
        exact ih hheld fun x hx => hkey ▸ hy x hx
      · have hfirst : next < key y := lt_of_le_of_ne (hnext y (.head held)) (Ne.symm hkey)
        rw [chunk, if_neg hkey]
        rintro x (_ | ⟨_, hx⟩)
        · exact hfirst
        · exact hfirst.trans (hy x hx)

/-! ## The buffer -/

variable (key) in
/-- `arrived` has come in, `out` has left, and `held` is held back.  What has left are the
items up to a number, in order, and nothing is missing there; what is held comes after a
gap.  The gap has to be part of the invariant: without it an item could be held back
although all before it have left, and it would stay for ever. -/
structure Resequenced (arrived out held : List β) : Prop where
  released : out.map key = List.range out.length
  perm : (out ++ held).Perm arrived
  inOrder : InOrder key held
  gap : ∀ x ∈ held, out.length < key x

theorem Resequenced.nil : Resequenced key ([] : List β) [] [] where
  released := rfl
  perm := .rfl
  inOrder := .nil
  gap _ hx := by cases hx

/-- Everything that has come, in the order of the numbers. -/
theorem Resequenced.all_inOrder (h : Resequenced key arrived out held) :
    InOrder key (out ++ held) := by
  have hout : InOrder key out := by
    rw [InOrder, ← List.pairwise_map, h.released]
    exact List.pairwise_lt_range
  refine List.pairwise_append.mpr ⟨hout, h.inOrder, fun x hx y hy => ?_⟩
  have hlt : key x < out.length := by
    rw [← List.mem_range, ← h.released]
    exact List.mem_map_of_mem hx
  exact hlt.trans (h.gap y hy)

/-- The item that would be next has not come.  So nothing is held back longer than it has to
be. -/
theorem Resequenced.missing (h : Resequenced key arrived out held) :
    out.length ∉ arrived.map key := by
  intro hmem
  obtain ⟨x, hx, hkey⟩ := List.mem_map.mp hmem
  rcases List.mem_append.mp (h.perm.mem_iff.mpr hx) with hx | hx
  · have hrange := List.mem_map_of_mem (f := key) hx
    rw [h.released, List.mem_range, hkey] at hrange
    exact Nat.lt_irrefl _ hrange
  · exact absurd hkey (h.gap x hx).ne'

/-- All items before it have come, and none of those that have left came twice. -/
theorem Resequenced.arrived_of_lt (h : Resequenced key arrived out held) {i : ℕ}
    (hi : i < out.length) : i ∈ arrived.map key := by
  rw [← List.mem_range, ← h.released] at hi
  obtain ⟨x, hx, rfl⟩ := List.mem_map.mp hi
  exact List.mem_map_of_mem (h.perm.mem_iff.mp (List.mem_append_left held hx))

/-- A new item goes to a place of its own. -/
theorem Resequenced.inOrder_insertSorted (h : Resequenced key arrived out held)
    (hnew : key item ∉ arrived.map key) : InOrder key (insertSorted key held item) := by
  refine h.inOrder.insertSorted fun x hx hkey => hnew (hkey ▸ List.mem_map_of_mem ?_)
  exact h.perm.mem_iff.mp (List.mem_append_right out hx)

/-- A new item comes behind what has left. -/
theorem Resequenced.le_of_mem_insertSorted (h : Resequenced key arrived out held)
    (hnew : key item ∉ arrived.map key) :
    ∀ x ∈ insertSorted key held item, out.length ≤ key x := by
  intro x hx
  rcases mem_insertSorted.mp hx with rfl | hx
  · exact Nat.le_of_not_lt fun hlt => hnew (h.arrived_of_lt hlt)
  · exact (h.gap x hx).le

/-- **An arrival.** The item goes to its place among those that are held, and the chunk that
starts with the next number leaves.  If the item is the missing one the chunk has at least
this item, and otherwise it is empty. -/
theorem Resequenced.arrive (h : Resequenced key arrived out held)
    (hnew : key item ∉ arrived.map key) :
    Resequenced key (arrived ++ [item])
      (out ++ (insertSorted key held item).take
        (chunk key out.length (insertSorted key held item)))
      ((insertSorted key held item).drop
        (chunk key out.length (insertSorted key held item))) := by
  have hinOrder := h.inOrder_insertSorted hnew
  have hchunk := map_take_chunk key out.length (insertSorted key held item)
  have hlength := congrArg List.length hchunk
  rw [List.length_map, List.length_range'] at hlength
  refine ⟨?_, ?_, ?_, ?_⟩
  · rw [List.map_append, h.released, hchunk, List.length_append, hlength, List.range_eq_range',
      List.range_eq_range', ← List.range'_append, Nat.zero_add, Nat.one_mul]
  · rw [List.append_assoc, List.take_append_drop]
    refine ((insertSorted_perm held item).append_left out).trans ?_
    refine List.perm_middle.trans ?_
    refine (h.perm.cons item).trans ?_
    exact (List.perm_append_singleton item arrived).symm
  · exact hinOrder.sublist (List.drop_sublist _ _)
  · rw [List.length_append, hlength]
    exact lt_of_mem_drop_chunk hinOrder (h.le_of_mem_insertSorted hnew)

/-- Two lists of the same items in order are the same.  The order of the numbers determines
what has been written, whatever the order of the arrivals was. -/
theorem InOrder.eq_of_perm {xs ys : List β} (hx : InOrder key xs) (hy : InOrder key ys)
    (hperm : xs.Perm ys) : xs = ys := by
  refine hperm.eq_of_pairwise (fun x y _ _ hxy hyx => ?_) hx hy
  exact absurd hxy hyx.asymm

end Resequencing
