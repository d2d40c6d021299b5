import Mathlib.Algebra.Ring.Periodic
import Mathlib.Data.BitVec
import Mathlib.Data.Fintype.EquivFin
import Mathlib.Data.Finset.Card
import Mathlib.Data.Nat.ModEq

/-!
# Counters that are mixed

A generator of pseudo-random words that keeps a counter: each call adds a fixed
odd word to the counter, and hands out what a mixing function makes of it.  The
counter comes back to where it was only after all words (`existsUnique_counter`),
so that one period of the generator hands out the mixed words, each as often as it
is a value of the mixing function.

The mixing functions are made of two kinds of steps, each of which loses nothing:
a word is combined with itself, shifted to the right (`xorShift_injective`), or is
multiplied by an odd word (`mul_injective_of_odd`).  A generator with such a mixing
function hands out every word exactly once (`existsUnique_output`), and a subset of
the words as often as it has members (`card_outputs`).
-/

namespace Mixing

variable {w : ℕ}

/-! ## Steps that lose nothing -/

/-- `x ^ (x >> k)` -/
def xorShift (k : ℕ) (x : BitVec w) : BitVec w := x ^^^ (x >>> k)

/-- A word that no shift changes is zero: each of its bits is equal to one that has been
shifted out. -/
theorem eq_zero_of_ushiftRight_eq {k : ℕ} (hk : 0 < k) {x : BitVec w} (h : x >>> k = x) :
    x = 0#w := by
  have hmany : ∀ n, x >>> (n * k) = x := by
    intro n
    induction n with
    | zero => rw [Nat.zero_mul, BitVec.ushiftRight_zero]
    | succ n ih => rw [Nat.succ_mul, BitVec.shiftRight_add, ih, h]
  rw [← hmany w]
  exact BitVec.ushiftRight_eq_zero (Nat.le_mul_of_pos_right w hk)

/-- A word can be found again from its combination with itself, shifted to the right: two
words with the same combination differ by a word that the shift does not change. -/
theorem xorShift_injective {k : ℕ} (hk : 0 < k) :
    Function.Injective (xorShift k : BitVec w → BitVec w) := by
  intro x y h
  unfold xorShift at h
  -- the difference of the two words is one that the shift does not change
  refine BitVec.xor_eq_zero_iff.mp (eq_zero_of_ushiftRight_eq hk ?_)
  calc (x ^^^ y) >>> k
      = x ^^^ (x ^^^ x >>> k) ^^^ y >>> k := by
        rw [BitVec.ushiftRight_xor_distrib, ← BitVec.xor_assoc x x, BitVec.xor_self,
          BitVec.zero_xor]
    _ = x ^^^ (y ^^^ y >>> k) ^^^ y >>> k := by rw [h]
    _ = x ^^^ y := by rw [← BitVec.xor_assoc, BitVec.xor_assoc, BitVec.xor_self, BitVec.xor_zero]

/-- What loses nothing reaches every word, since there are finitely many words. -/
theorem surjective_of_injective {f : BitVec w → BitVec w} (hf : Function.Injective f) :
    Function.Surjective f := by
  have hfinite : Finite (BitVec w) :=
    Finite.of_injective BitVec.toFin fun _ _ h => BitVec.eq_of_toFin_eq h
  exact Finite.injective_iff_surjective.mp hf

theorem coprime_of_odd {c : BitVec w} (hc : c.toNat % 2 = 1) : (2 ^ w).Coprime c.toNat := by
  refine Nat.Coprime.pow_left w ?_
  rw [Nat.coprime_two_left, Nat.odd_iff]
  exact hc

/-- Multiplication by an odd word can be undone, because an odd number has an inverse modulo
a power of two. -/
theorem mul_injective_of_odd {c : BitVec w} (hc : c.toNat % 2 = 1) :
    Function.Injective fun x : BitVec w => x * c := by
  intro x y h
  have hmod : x.toNat * c.toNat ≡ y.toNat * c.toNat [MOD 2 ^ w] := by
    have h' := congrArg BitVec.toNat h
    rwa [BitVec.toNat_mul, BitVec.toNat_mul] at h'
  have hcancel := Nat.ModEq.cancel_right_of_coprime (coprime_of_odd hc) hmod
  exact BitVec.eq_of_toNat_eq (hcancel.eq_of_lt_of_lt x.isLt y.isLt)

/-! ## The counter -/

section Counter

variable {γ : BitVec w} (s : BitVec w)

/-- The counter after `n` calls, as a closed form.  The words wrap around, so that it comes
back to its start. -/
def counter (γ s : BitVec w) (n : ℕ) : BitVec w := s + BitVec.ofNat w n * γ

@[simp] theorem counter_zero (γ : BitVec w) : counter γ s 0 = s := by
  simp [counter]

theorem counter_succ (γ : BitVec w) (n : ℕ) : counter γ s (n + 1) = counter γ s n + γ := by
  rw [counter, counter, BitVec.ofNat_add, BitVec.add_mul, BitVec.one_mul, BitVec.add_assoc]

theorem counter_periodic (γ : BitVec w) : Function.Periodic (counter γ s) (2 ^ w) := by
  intro n
  rw [counter, counter]
  congr 2
  refine BitVec.eq_of_toNat_eq ?_
  rw [BitVec.toNat_ofNat, BitVec.toNat_ofNat, Nat.add_mod_right]

/-- **The counter goes through all words**, and through each of them once, in any `2 ^ w`
calls.  The increment is odd, so that its multiples are all words. -/
theorem existsUnique_counter (hγ : γ.toNat % 2 = 1) (v : BitVec w) :
    ∃! n, n < 2 ^ w ∧ counter γ s n = v := by
  have hinjective : Function.Injective fun x : BitVec w => s + x * γ := fun x y h =>
    mul_injective_of_odd hγ (add_left_cancel h)
  obtain ⟨x, hx⟩ := surjective_of_injective hinjective v
  refine ⟨x.toNat, ⟨x.isLt, ?_⟩, ?_⟩
  · change s + BitVec.ofNat w x.toNat * γ = v
    rw [BitVec.ofNat_toNat, BitVec.setWidth_eq]
    exact hx
  · rintro n ⟨hn, hcounter⟩
    have heq : BitVec.ofNat w n = x := hinjective (hcounter.trans hx.symm)
    rw [← heq, BitVec.toNat_ofNat, Nat.mod_eq_of_lt hn]

end Counter

/-! ## The generator -/

section Output

variable {γ : BitVec w} {mix : BitVec w → BitVec w} (s : BitVec w)

/-- What the `n`-th call hands out, where the first one is that for `0`. -/
def output (mix : BitVec w → BitVec w) (γ s : BitVec w) (n : ℕ) : BitVec w :=
  mix (counter γ s (n + 1))

theorem output_periodic (mix : BitVec w → BitVec w) (γ : BitVec w) :
    Function.Periodic (output mix γ s) (2 ^ w) := by
  intro n
  rw [output, output, Nat.add_right_comm, counter_periodic]

/-- **Every word is handed out exactly once in a period.** The mixing function only changes
the order in which the counter goes through the words. -/
theorem existsUnique_output (hγ : γ.toNat % 2 = 1) (hmix : Function.Injective mix)
    (v : BitVec w) : ∃! n, n < 2 ^ w ∧ output mix γ s n = v := by
  obtain ⟨x, rfl⟩ := surjective_of_injective hmix v
  obtain ⟨n, ⟨hn, hcounter⟩, hunique⟩ := existsUnique_counter (s + γ) hγ x
  have hshift : ∀ k, counter γ (s + γ) k = counter γ s (k + 1) := by
    intro k
    rw [counter_succ, counter, counter, BitVec.add_assoc, BitVec.add_comm γ, ← BitVec.add_assoc]
  refine ⟨n, ⟨hn, ?_⟩, ?_⟩
  · change mix (counter γ s (n + 1)) = mix x
    rw [← hshift, hcounter]
  · rintro k ⟨hk, houtput⟩
    refine hunique k ⟨hk, ?_⟩
    rw [hshift]
    exact hmix houtput

/-- A period hits a set of words as often as the set has members, whatever the seed is: a
decision that is made by comparing the word with a bound has an exact frequency. -/
theorem card_outputs (hγ : γ.toNat % 2 = 1) (hmix : Function.Injective mix) (p : ℕ → Prop)
    [DecidablePred p] :
    ((Finset.range (2 ^ w)).filter fun n => p (output mix γ s n).toNat).card =
      ((Finset.range (2 ^ w)).filter p).card := by
  refine Finset.card_bij (fun n _ => (output mix γ s n).toNat) ?_ ?_ ?_
  · intro n hn
    rw [Finset.mem_filter] at hn ⊢
    exact ⟨Finset.mem_range.mpr (BitVec.isLt _), hn.2⟩
  · intro n hn k hk heq
    rw [Finset.mem_filter, Finset.mem_range] at hn hk
    obtain ⟨_, -, hunique⟩ := existsUnique_output s hγ hmix (output mix γ s k)
    exact (hunique n ⟨hn.1, BitVec.eq_of_toNat_eq heq⟩).trans (hunique k ⟨hk.1, rfl⟩).symm
  · intro v hv
    rw [Finset.mem_filter, Finset.mem_range] at hv
    obtain ⟨n, ⟨hn, hvalue⟩, -⟩ := existsUnique_output s hγ hmix (BitVec.ofNat w v)
    have hnat : (output mix γ s n).toNat = v := by
      rw [hvalue, BitVec.toNat_ofNat, Nat.mod_eq_of_lt hv.1]
    refine ⟨n, ?_, hnat⟩
    rw [Finset.mem_filter, hnat]
    exact ⟨Finset.mem_range.mpr hn, hv.2⟩

end Output

end Mixing
