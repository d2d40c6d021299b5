import Mathlib.Algebra.Order.Floor.Ring
import Mathlib.Data.Rat.Floor
import GomokuCli.Library.Mixing
import GomokuCli.Library.Shuffling
import GomokuCli.Openings
import GomokuCli.Run

/-!
# Random numbers

`prng` decides two things: in which order the openings are played, and which plies
of a game become samples.  It is a counter whose values are mixed, so that it hands
out every word exactly once before it starts again (`prng_period`).

A ply is sampled if a number between zero and one is at most the frequency.  The
numbers are those with 53 binary digits, each of which comes up equally often, so
that a period samples the fraction of the plies that the frequency asks for, rounded
up to the next of these numbers (`card_sampled`).

The openings are shuffled by drawing a line for every place, of those that are left.
The draws are taken from `prng`, and each order of the lines comes from exactly one
list of draws (`Openings.new_shuffles`).
-/

namespace GomokuCli

/-! ## The generator -/

/-- What `prng` does to the counter. -/
def prngMix (x : BitVec 64) : BitVec 64 :=
  Mixing.xorShift 31
    (Mixing.xorShift 27 (Mixing.xorShift 30 x * 0xBF58476D1CE4E5B9#64) * 0x94D049BB133111EB#64)

/-- The state after some calls of `prng`.  It is a counter with an odd step, and does not
depend on the values handed out. -/
def prngState (seed : UInt64) (n : Nat) : UInt64 := (fun state => (prng state).2)^[n] seed

/-- The value of the `n`-th call of `prng`. -/
def prngNth (seed : UInt64) (n : Nat) : UInt64 := (prng (prngState seed n)).1

theorem prngMix_injective : Function.Injective prngMix := by
  have hfirst := Mixing.xorShift_injective (w := 64) (k := 30) (by decide)
  have hsecond := Mixing.xorShift_injective (w := 64) (k := 27) (by decide)
  have hthird := Mixing.xorShift_injective (w := 64) (k := 31) (by decide)
  have hmul₁ := Mixing.mul_injective_of_odd (c := 0xBF58476D1CE4E5B9#64) (by decide)
  have hmul₂ := Mixing.mul_injective_of_odd (c := 0x94D049BB133111EB#64) (by decide)
  exact hthird.comp (hmul₂.comp (hsecond.comp (hmul₁.comp hfirst)))

theorem prng_toBitVec (state : UInt64) :
    (prng state).1.toBitVec = prngMix (state.toBitVec + 0x9E3779B97F4A7C15#64) ∧
      (prng state).2.toBitVec = state.toBitVec + 0x9E3779B97F4A7C15#64 :=
  ⟨rfl, rfl⟩

theorem prngState_toBitVec (seed : UInt64) (n : Nat) :
    (prngState seed n).toBitVec = Mixing.counter 0x9E3779B97F4A7C15#64 seed.toBitVec n := by
  induction n with
  | zero => rw [Mixing.counter_zero]; rfl
  | succ n ih =>
      rw [prngState, Function.iterate_succ_apply', Mixing.counter_succ, ← ih]
      exact (prng_toBitVec _).2

theorem prngNth_toBitVec (seed : UInt64) (n : Nat) :
    (prngNth seed n).toBitVec =
      Mixing.output prngMix 0x9E3779B97F4A7C15#64 seed.toBitVec n := by
  rw [prngNth, (prng_toBitVec _).1, prngState_toBitVec, Mixing.output, Mixing.counter_succ]

/-- **The generator starts again after `2 ^ 64` calls**, and has handed out every word
exactly once by then.  The counter goes through all words because its step is odd, and the
mixing loses none of them. -/
theorem prng_period (seed : UInt64) :
    Function.Periodic (prngNth seed) (2 ^ 64) ∧
      ∀ v, ∃! n, n < 2 ^ 64 ∧ prngNth seed n = v := by
  constructor
  · intro n
    refine UInt64.toBitVec_inj.mp ?_
    rw [prngNth_toBitVec, prngNth_toBitVec, Mixing.output_periodic]
  · intro v
    have hodd : (0x9E3779B97F4A7C15#64).toNat % 2 = 1 := by decide
    obtain ⟨n, ⟨hn, hvalue⟩, hunique⟩ :=
      Mixing.existsUnique_output seed.toBitVec hodd prngMix_injective v.toBitVec
    refine ⟨n, ⟨hn, ?_⟩, ?_⟩
    · refine UInt64.toBitVec_inj.mp ?_
      rw [prngNth_toBitVec, hvalue]
    · rintro k ⟨hk, rfl⟩
      exact hunique k ⟨hk, (prngNth_toBitVec seed k).symm⟩

/-! ## Sampling -/

/-- `prngf`: the number and the next state. -/
def prngf (state : UInt64) : Rat × UInt64 :=
  let (rnd, state) := prng state
  ((rnd >>> 11).toNat / 2 ^ 53, state)

/-- The value of the `n`-th call of `prngf`. -/
def prngfNth (seed : UInt64) (n : Nat) : Rat := (prngf (prngState seed n)).1

/-- `prngf(w->seed) <= o.sp.freq`, for the `n`-th call of a worker. -/
def sampledCall (seed : UInt64) (freq : Rat) (n : Nat) : Bool := prngfNth seed n ≤ freq

/-- A word gives a number up to the frequency iff it is one of the smallest.  So the words
of the sampled plies are counted, and not the plies. -/
theorem le_freq_iff (v : Nat) (freq : Rat) :
    ((v / 2 ^ 11 : Nat) : Rat) / 2 ^ 53 ≤ freq ↔ v < 2 ^ 11 * (⌊freq * 2 ^ 53⌋ + 1).toNat := by
  have hpos : (0 : Rat) < 2 ^ 53 := by positivity
  rw [div_le_iff₀ hpos, ← Int.cast_natCast, ← Int.le_floor]
  have hdiv := Nat.div_lt_iff_lt_mul (x := v) (y := (⌊freq * 2 ^ 53⌋ + 1).toNat) (k := 2 ^ 11)
    (by positivity)
  rw [Nat.mul_comm, ← hdiv]
  generalize v / 2 ^ 11 = u
  generalize ⌊freq * 2 ^ 53⌋ = bound
  omega

theorem prngfNth_eq (seed : UInt64) (n : Nat) :
    prngfNth seed n = ((prngNth seed n).toNat / 2 ^ 11 : Nat) / 2 ^ 53 := by
  change (((prngNth seed n >>> 11).toNat : Nat) : Rat) / 2 ^ 53 = _
  rw [UInt64.toNat_shiftRight, Nat.shiftRight_eq_div_pow]
  rfl

/-- **How many plies are sampled.** In a period of the generator it is the fraction that the
frequency asks for, up to the size of the steps between the numbers.  A negative frequency
asks for none. -/
theorem card_sampled (seed : UInt64) (freq : Rat) :
    ((Finset.range (2 ^ 64)).filter fun n => sampledCall seed freq n = true).card =
      2 ^ 11 * min (2 ^ 53) (⌊freq * 2 ^ 53⌋ + 1).toNat := by
  have hodd : (0x9E3779B97F4A7C15#64).toNat % 2 = 1 := by decide
  have hcall : ∀ n, sampledCall seed freq n = true ↔
      (Mixing.output prngMix 0x9E3779B97F4A7C15#64 seed.toBitVec n).toNat <
        2 ^ 11 * (⌊freq * 2 ^ 53⌋ + 1).toNat := by
    intro n
    rw [sampledCall, decide_eq_true_iff, prngfNth_eq, le_freq_iff, ← prngNth_toBitVec]
    rfl
  simp only [hcall]
  rw [Mixing.card_outputs seed.toBitVec hodd prngMix_injective
    fun v => v < 2 ^ 11 * (⌊freq * 2 ^ 53⌋ + 1).toNat]
  generalize (⌊freq * 2 ^ 53⌋ + 1).toNat = bound
  have hfilter : ((Finset.range (2 ^ 64)).filter fun v => v < 2 ^ 11 * bound) =
      Finset.range (2 ^ 11 * min (2 ^ 53) bound) := by
    ext v
    rw [Finset.mem_filter, Finset.mem_range, Finset.mem_range]
    omega
  rw [hfilter, Finset.card_range]

/-- With the frequency that is the default, every ply is sampled. -/
theorem sampledCall_of_one_le {freq : Rat} (hfreq : 1 ≤ freq) (seed : UInt64) (n : Nat) :
    sampledCall seed freq n = true := by
  have hlt := UInt64.toNat_lt (prngNth seed n)
  have hdiv : (prngNth seed n).toNat / 2 ^ 11 ≤ 2 ^ 53 := by omega
  have hcast : (((prngNth seed n).toNat / 2 ^ 11 : Nat) : Rat) ≤ 2 ^ 53 := by
    exact_mod_cast hdiv
  rw [sampledCall, decide_eq_true_iff, prngfNth_eq]
  exact (div_le_one_of_le₀ hcast (by positivity)).trans hfreq

namespace Match

variable {m : Match} {g : Game} {s : PlayState}

/-- The samples that a game has taken at the head of a round are those of the plies for
which the call of `prngf` says so; there is one call for each ply.  No ply is sampled twice,
and none that was not played. -/
theorem AtRound.length_samples (h : Loads m g) (hs : AtRound m g s)
    (hwrite : m.options.writeSamples = true) :
    s.game.samples.length = ((List.range s.game.ply).filter m.sampled).length := by
  refine hs.invariant
    (fun s => s.game.samples.length = ((List.range s.game.ply).filter m.sampled).length) h ?_ ?_
  · intro s₀ hstarted
    obtain ⟨-, -, hsamples⟩ := h.fields
    rw [hstarted.game]
    change g.samples.length = _
    rw [hsamples]
    rfl
  · rintro t t' - ih - hcontinues
    obtain ⟨u, hsame, -, -, -, rfl⟩ := hcontinues.recorded
    have hply : u.game.ply = t.game.ply := hsame.ply.trans (asked_ply t)
    have hsamples : u.game.samples = t.game.samples := by
      rw [hsame.samples, (asked_sameTurn t).samples, PlayState.enterPly_samples]
    have hnext : (m.recordPhase u).game.samples =
        if m.sampled u.game.ply then u.game.samples ++ [m.sampleOf u] else u.game.samples := by
      rw [recordPhase, hwrite, Bool.true_and]
    change (m.recordPhase u).game.samples.length =
      ((List.range (u.game.ply + 1)).filter m.sampled).length
    rw [hnext, List.range_succ, List.filter_append, hply, hsamples, List.length_append, ← ih]
    cases hsampled : m.sampled t.game.ply <;> simp [hsampled]

end Match

/-! ## The order of the openings -/

namespace Openings

/-- The draws of the shuffle: the entry that each place is exchanged with, from the last
place to the second. -/
def draws : Nat → UInt64 → List Nat
  | 0, _ => []
  | i + 1, seed => (prng seed).1.toNat % (i + 1 + 1) :: draws i (prng seed).2

theorem length_draws (i : Nat) (seed : UInt64) : (draws i seed).length = i := by
  induction i generalizing seed with
  | zero => rfl
  | succ i ih => rw [draws, List.length_cons, ih]

/-- Each draw is one of the places that are left. -/
theorem drawn_draws (i : Nat) (seed : UInt64) : Shuffling.Drawn (draws i seed) := by
  induction i generalizing seed with
  | zero => trivial
  | succ i ih =>
      refine ⟨?_, ih _⟩
      rw [length_draws]
      exact Nat.le_of_lt_succ (Nat.mod_lt _ (Nat.succ_pos _))

theorem shuffleLoop_eq (i : Nat) (seed : UInt64) (index : Array Nat) :
    shuffleLoop i seed index = Shuffling.shuffle (draws i seed) index := by
  induction i generalizing seed index with
  | zero => rfl
  | succ i ih =>
      rw [draws, Shuffling.shuffle, length_draws, ← ih]
      rfl

/-- **The shuffle of the openings.**  For a file with lines the constructor does not
fault, it draws as many times as there are places to fill, and each order of the lines
comes from exactly one list of draws.  Without lines there is no draw to speak of: the
counter of the loop starts below zero (`load_eq`). -/
theorem new_shuffles {content : List Char} (hlines : lineStarts content ≠ [])
    (srand msec : UInt64) :
    ∃ o, new (some content) true srand msec = some (.ok o) ∧
      Shuffling.Drawn (draws ((lineStarts content).length - 1)
        (if srand ≠ 0 then srand else msec)) ∧
      o.index = Shuffling.shuffle (draws ((lineStarts content).length - 1)
        (if srand ≠ 0 then srand else msec)) (lineStarts content).toArray ∧
      ∀ order : Array Nat, order.toList.Perm (lineStarts content) →
        ∃! js : List Nat, js.length = (lineStarts content).length - 1 ∧
          Shuffling.Drawn js ∧
          Shuffling.shuffle js (lineStarts content).toArray = order := by
  obtain ⟨file, -, hload⟩ := load_eq content true srand msec
  rw [if_neg fun h => hlines h.2] at hload
  refine ⟨_, hload, drawn_draws _ _, shuffleLoop_eq _ _ _, fun order horder => ?_⟩
  have hperm : order.Perm (lineStarts content).toArray := Array.perm_iff_toList_perm.mpr horder
  have hunique := Shuffling.existsUnique_shuffle (nodup_lineStarts content) hperm
  rwa [List.size_toArray] at hunique

/-- Three lines, and a seed that exchanges the first two of them. -/
theorem new_shuffles_threeLines :
    ∃ o, new (some "a\nb\nc".toList) true 5 0 = some (.ok o) ∧ o.index = #[2, 0, 4] ∧
      ∃! js : List Nat, js.length = 2 ∧ Shuffling.Drawn js ∧
        Shuffling.shuffle js #[0, 2, 4] = #[2, 0, 4] := by
  have hstarts : lineStarts "a\nb\nc".toList = [0, 2, 4] := by decide
  have hdraws : draws 2 5 = [2, 0] := by decide +kernel
  have hlines : lineStarts "a\nb\nc".toList ≠ [] := by decide
  obtain ⟨o, hnew, -, hindex, horders⟩ := new_shuffles hlines 5 0
  rw [hstarts] at hindex horders
  change o.index = Shuffling.shuffle (draws 2 5) #[0, 2, 4] at hindex
  rw [hdraws] at hindex
  exact ⟨o, hnew, hindex, horders #[2, 0, 4] (by decide)⟩

end Openings

end GomokuCli
