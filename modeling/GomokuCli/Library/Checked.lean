import Mathlib.Data.Nat.Notation

/-!
# Operations that can fault

Unsigned arithmetic and accesses to a vector, with the faults that a machine does
not report.  An operation returns when its condition holds, and each has one lemma
that says so.
-/

namespace Checked

/-- What goes wrong in an operation.  None of these faults is reported by the machine for
certain, so that a program that meets one of them has no defined behaviour. -/
inductive Fault
  | divisionByZero
  | wrapAround
  | outOfBounds
  deriving DecidableEq, Repr

/-- `x / y` -/
def div (x y : ℕ) : Except Fault ℕ := if y = 0 then throw .divisionByZero else return x / y

/-- `x % y` -/
def mod (x y : ℕ) : Except Fault ℕ := if y = 0 then throw .divisionByZero else return x % y

/-- `x - 1` -/
def pred (x : ℕ) : Except Fault ℕ := if x = 0 then throw .wrapAround else return x - 1

section Vectors

variable {α : Type*}

/-- `xs[i]` -/
def get (xs : Array α) (i : ℕ) : Except Fault α :=
  if h : i < xs.size then return xs[i] else throw .outOfBounds

/-- `xs[i] = x` -/
def set (xs : Array α) (i : ℕ) (x : α) : Except Fault (Array α) :=
  if h : i < xs.size then return xs.set i x h else throw .outOfBounds

/-- The last entry is removed. -/
def pop (xs : Array α) : Except Fault (Array α) :=
  if xs.size = 0 then throw .outOfBounds else return xs.pop

/-- Two entries change places, with the three accesses that this takes, each of which can be
out of bounds. -/
def swap (xs : Array α) (i j : ℕ) : Except Fault (Array α) := do
  let tmp ← get xs i
  let xs ← set xs i (← get xs j)
  set xs j tmp

end Vectors

/-! ## When they return -/

theorem div_eq_ok {x y : ℕ} (h : 0 < y) : div x y = .ok (x / y) := if_neg (Nat.ne_of_gt h)

theorem mod_eq_ok {x y : ℕ} (h : 0 < y) : mod x y = .ok (x % y) := if_neg (Nat.ne_of_gt h)

theorem pred_eq_ok {x : ℕ} (h : 0 < x) : pred x = .ok (x - 1) := if_neg (Nat.ne_of_gt h)

theorem mod_zero (x : ℕ) : mod x 0 = .error .divisionByZero := rfl

theorem pred_zero : pred 0 = .error .wrapAround := rfl

section Vectors

variable {α : Type*} {xs : Array α} {i j : ℕ}

theorem get_eq_ok (h : i < xs.size) : get xs i = .ok xs[i] := dif_pos h

theorem set_eq_ok (h : i < xs.size) (x : α) : set xs i x = .ok (xs.set i x h) := dif_pos h

theorem pop_eq_ok (h : 0 < xs.size) : pop xs = .ok xs.pop := if_neg (Nat.ne_of_gt h)

/-- With both places inside the vector, the entries are swapped, and the result is that of
the operation that does not check. -/
theorem swap_eq_ok (hi : i < xs.size) (hj : j < xs.size) :
    swap xs i j = .ok (xs.swapIfInBounds i j) := by
  have hj' : j < (xs.set i xs[j] hi).size := by rwa [Array.size_set]
  have hswap : (xs.set i xs[j] hi).set j xs[i] hj' = xs.swapIfInBounds i j := by
    rw [Array.swapIfInBounds_def, dif_pos hi, dif_pos hj]
    rfl
  calc swap xs i j
      = (get xs i >>= fun tmp => get xs j >>= fun x => set xs i x >>= fun xs => set xs j tmp) := rfl
    _ = set (xs.set i xs[j] hi) j xs[i] := by
        rw [get_eq_ok hi, get_eq_ok hj]
        change (set xs i xs[j] >>= fun xs' => set xs' j xs[i]) = _
        rw [set_eq_ok hi]
        rfl
    _ = .ok (xs.swapIfInBounds i j) := by rw [set_eq_ok hj', hswap]

end Vectors

end Checked
