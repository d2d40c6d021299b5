import Mathlib.Data.BitVec
import Mathlib.Tactic

/-!
# Bit-fields and byte streams

A group of bit-fields is one number, the first field in the lowest bits, and a
number is written with its lowest byte first.  `pack` and `unpack` are the two
directions for the fields, `littleEndian` and `readWord` for the bytes.

A reader takes a value from the front of a stream of bytes and returns the rest
of the stream.  `Reads read write x` says that it takes exactly what `write` has
written for `x`, and this composes: over a counted sequence (`readMany_flatMap`)
and over a stream that consists of nothing else (`readAll_flatMap`).
-/

namespace BitFields

/-! ## Fields in a number -/

/-- The number that holds some fields, each given by its width and its value.  A value that
is too large for its field is cut down to the width, as an assignment to a bit-field does. -/
def pack : List (ℕ × ℕ) → ℕ
  | [] => 0
  | (width, value) :: fields => value % 2 ^ width + 2 ^ width * pack fields

/-- The fields of the given widths in a number. -/
def unpack : List ℕ → ℕ → List ℕ
  | [], _ => []
  | width :: widths, n => n % 2 ^ width :: unpack widths (n / 2 ^ width)

/-- **A field holds its value modulo its width**, whatever the other fields are.  No field
spills into another one. -/
theorem unpack_pack (fields : List (ℕ × ℕ)) :
    unpack (fields.map Prod.fst) (pack fields) = fields.map fun f => f.2 % 2 ^ f.1 := by
  induction fields with
  | nil => rfl
  | cons f fields ih =>
      obtain ⟨width, value⟩ := f
      have hpos : 0 < 2 ^ width := Nat.two_pow_pos width
      have hlt : value % 2 ^ width < 2 ^ width := Nat.mod_lt _ hpos
      have hlow : pack ((width, value) :: fields) % 2 ^ width = value % 2 ^ width := by
        rw [pack, Nat.add_mul_mod_self_left, Nat.mod_mod]
      have hhigh : pack ((width, value) :: fields) / 2 ^ width = pack fields := by
        rw [pack, Nat.add_mul_div_left _ _ hpos, Nat.div_eq_of_lt hlt, Nat.zero_add]
      rw [List.map_cons, List.map_cons, unpack, hlow, hhigh, ih]

theorem pack_lt (fields : List (ℕ × ℕ)) : pack fields < 2 ^ (fields.map Prod.fst).sum := by
  induction fields with
  | nil => simp [pack]
  | cons f fields ih =>
      obtain ⟨width, value⟩ := f
      have hlt : value % 2 ^ width < 2 ^ width := Nat.mod_lt _ (Nat.two_pow_pos width)
      rw [List.map_cons, List.sum_cons, pow_add, pack]
      calc value % 2 ^ width + 2 ^ width * pack fields
          < 2 ^ width + 2 ^ width * pack fields := by omega
        _ = 2 ^ width * (pack fields + 1) := by ring
        _ ≤ 2 ^ width * 2 ^ (fields.map Prod.fst).sum := Nat.mul_le_mul_left _ ih

/-- A field keeps a value of its own width. -/
theorem ofNat_toNat_mod {width : ℕ} (b : BitVec width) :
    BitVec.ofNat width (b.toNat % 2 ^ width) = b := by
  rw [Nat.mod_eq_of_lt b.isLt, BitVec.ofNat_toNat, BitVec.setWidth_eq]

/-! ## Numbers in bytes -/

/-- The lowest `n` bytes of a number, the lowest one first. -/
def littleEndian : ℕ → ℕ → List UInt8
  | 0, _ => []
  | n + 1, value => UInt8.ofNat value :: littleEndian n (value / 256)

/-- The number that some bytes stand for. -/
def ofLittleEndian : List UInt8 → ℕ
  | [] => 0
  | b :: bytes => b.toNat + 256 * ofLittleEndian bytes

@[simp] theorem length_littleEndian (n value : ℕ) : (littleEndian n value).length = n := by
  induction n generalizing value with
  | zero => rfl
  | succ n ih => rw [littleEndian, List.length_cons, ih]

theorem ofLittleEndian_littleEndian (n value : ℕ) :
    ofLittleEndian (littleEndian n value) = value % 256 ^ n := by
  induction n generalizing value with
  | zero => simp [littleEndian, ofLittleEndian, Nat.mod_one]
  | succ n ih =>
      have hbyte : (UInt8.ofNat value).toNat = value % 256 := UInt8.toNat_ofNat'
      rw [littleEndian, ofLittleEndian, ih, hbyte, pow_succ', Nat.mod_mul]

/-! ## Readers -/

universe u

variable {α : Type u}

/-- A reader takes a value from the front of a stream. -/
abbrev Reader (α : Type u) := List UInt8 → Option (α × List UInt8)

/-- `read` takes from a stream what `write` has put in front of it for `x`, and leaves the
rest alone.  The rest is arbitrary, which is what makes the statement compose: a reader must
not depend on what comes behind its own value. -/
def Reads (read : Reader α) (write : α → List UInt8) (x : α) : Prop :=
  ∀ rest, read (write x ++ rest) = some (x, rest)

/-- Read a number of `n` bytes. -/
def readWord (n : ℕ) : Reader ℕ := fun stream =>
  if n ≤ stream.length then some (ofLittleEndian (stream.take n), stream.drop n) else none

theorem readWord_littleEndian (n value : ℕ) (rest : List UInt8) :
    readWord n (littleEndian n value ++ rest) = some (value % 256 ^ n, rest) := by
  have hlen := length_littleEndian n value
  rw [readWord, if_pos (by rw [List.length_append]; omega), List.take_left' hlen,
    List.drop_left' hlen, ofLittleEndian_littleEndian]

/-- Read a given number of values. -/
def readMany (read : Reader α) : ℕ → Reader (List α)
  | 0, stream => some ([], stream)
  | n + 1, stream =>
      (read stream).bind fun (x, stream) =>
        (readMany read n stream).map fun (xs, stream) => (x :: xs, stream)

/-- Read values until the stream is used up.  The number of reads is bounded, since a reader
may take nothing. -/
def readAll (read : Reader α) : ℕ → List UInt8 → Option (List α)
  | 0, _ => none
  | n + 1, stream =>
      if stream.isEmpty then some []
      else (read stream).bind fun (x, stream) => (readAll read n stream).map (x :: ·)

variable {read : Reader α} {write : α → List UInt8}

/-- **A counted sequence is read back.** The induction is over the values, each of which is
read in front of all that follow. -/
theorem readMany_flatMap {xs : List α} (h : ∀ x ∈ xs, Reads read write x)
    (rest : List UInt8) :
    readMany read xs.length (xs.flatMap write ++ rest) = some (xs, rest) := by
  induction xs with
  | nil => rfl
  | cons x xs ih =>
      have htail := ih fun y hy => h y (List.mem_cons_of_mem x hy)
      rw [List.flatMap_cons, List.append_assoc, List.length_cons, readMany,
        h x List.mem_cons_self]
      simp only [Option.bind_some, htail, Option.map_some]

/-- **A stream of values is read back**, when no value is written as nothing.  Any bound
that is larger than the number of the values will do. -/
theorem readAll_flatMap {xs : List α} (h : ∀ x ∈ xs, Reads read write x)
    (hne : ∀ x ∈ xs, write x ≠ []) {n : ℕ} (hn : xs.length < n) :
    readAll read n (xs.flatMap write) = some xs := by
  induction xs generalizing n with
  | nil =>
      obtain ⟨n, rfl⟩ : ∃ k, n = k + 1 := ⟨n - 1, by omega⟩
      rfl
  | cons x xs ih =>
      obtain ⟨n, rfl⟩ : ∃ k, n = k + 1 := ⟨n - 1, by omega⟩
      have hnotEmpty : (write x ++ xs.flatMap write).isEmpty = false := by
        cases hx : write x with
        | nil => exact absurd hx (hne x List.mem_cons_self)
        | cons b bytes => rfl
      rw [List.length_cons] at hn
      have htail := ih (fun y hy => h y (List.mem_cons_of_mem x hy))
        (fun y hy => hne y (List.mem_cons_of_mem x hy)) (by omega : xs.length < n)
      rw [List.flatMap_cons, readAll, hnotEmpty, h x List.mem_cons_self]
      simp only [Bool.false_eq_true, if_false, Option.bind_some, htail, Option.map_some]

/-- The length of a stream bounds the number of its values. -/
theorem readAll_flatMap_length {xs : List α} (h : ∀ x ∈ xs, Reads read write x)
    (hne : ∀ x ∈ xs, write x ≠ []) :
    readAll read ((xs.flatMap write).length + 1) (xs.flatMap write) = some xs := by
  refine readAll_flatMap h hne (Nat.lt_succ_of_le ?_)
  clear h
  induction xs with
  | nil => exact Nat.zero_le _
  | cons x xs ih =>
      have hpos := List.length_pos_iff.mpr (hne x List.mem_cons_self)
      have htail := ih fun y hy => hne y (List.mem_cons_of_mem x hy)
      rw [List.flatMap_cons, List.length_append, List.length_cons]
      omega

end BitFields
