import Mathlib
import IncrementalSat.Random.Pcg

/-!
# The period of the generator

After a number of draws the state is the start times a power of the factor, plus the increment times
the sum of the lower powers.  What it has moved by is that sum times an odd number, because the
factor is one more than an even number and the increment is odd; and as the factor is one more than
a multiple of four, a power of two divides the sum exactly if it divides the number of draws.  So a
state comes back after 2^64 draws and not before, and every state is passed through on the way.
-/

set_option autoImplicit false

namespace IncrementalSat.Random

open Finset

/-- For a factor that leaves the remainder one by four, the sum of its first powers is divisible by
the same powers of two as their number. -/
theorem two_pow_dvd_geomSum_iff {a : ℕ} (ha : a % 4 = 1) (hne : a ≠ 1) (e n : ℕ) :
    2 ^ e ∣ ∑ i ∈ range n, a ^ i ↔ 2 ^ e ∣ n := by
  have hfour : (4 : ℤ) ∣ (a : ℤ) - 1 := by omega
  have hodd : ¬ (2 : ℤ) ∣ (a : ℤ) := by omega
  have hfinite : FiniteMultiplicity (2 : ℤ) ((a : ℤ) - 1) :=
    Int.finiteMultiplicity_iff.2 ⟨by decide, by omega⟩
  have hsame : emultiplicity (2 : ℤ) (∑ i ∈ range n, (a : ℤ) ^ i) = emultiplicity (2 : ℤ) n := by
    have hlift := Int.two_pow_sub_pow' n hfour hodd
    rw [one_pow, ← mul_geom_sum, emultiplicity_mul Int.prime_two] at hlift
    exact WithTop.add_left_cancel (finiteMultiplicity_iff_emultiplicity_ne_top.1 hfinite) hlift
  have hcast : (2 : ℤ) ^ e ∣ ∑ i ∈ range n, (a : ℤ) ^ i ↔ (2 : ℤ) ^ e ∣ (n : ℤ) := by
    rw [pow_dvd_iff_le_emultiplicity, hsame, ← pow_dvd_iff_le_emultiplicity]
  exact_mod_cast hcast

/-! ## Bytes -/

/-- A word is written in as many bytes as are asked for. -/
@[simp] theorem length_littleEndian (word count : Nat) :
    (littleEndian word count).length = count := by
  induction count generalizing word with
  | zero => rfl
  | succ n ih => rw [littleEndian, List.length_cons, ih]

/-- The bytes of a word stand for its low digits in base 256. -/
theorem fromLittleEndian_littleEndian (word count : Nat) :
    fromLittleEndian (littleEndian word count) = word % 256 ^ count := by
  induction count generalizing word with
  | zero => simp [littleEndian, fromLittleEndian, Nat.mod_one]
  | succ n ih =>
    rw [littleEndian, fromLittleEndian, ih, Nat.pow_succ', Nat.mod_mul, UInt8.toNat_ofNat']

/-- Bytes can be read off the number that they stand for. -/
theorem littleEndian_fromLittleEndian (bytes : List UInt8) :
    littleEndian (fromLittleEndian bytes) bytes.length = bytes := by
  induction bytes with
  | nil => rfl
  | cons byte rest ih =>
    have hlow : byte.toNat < 256 := byte.toNat_lt
    have hrest : (byte.toNat + 256 * fromLittleEndian rest) / 256 = fromLittleEndian rest := by
      omega
    rw [fromLittleEndian, List.length_cons, littleEndian, hrest, ih]
    congr 1
    apply UInt8.toNat_inj.1
    rw [UInt8.toNat_ofNat']
    omega

/-- The word of some bytes is less than 256 to the power of their number. -/
theorem fromLittleEndian_lt (bytes : List UInt8) :
    fromLittleEndian bytes < 256 ^ bytes.length := by
  induction bytes with
  | nil => exact Nat.one_pos
  | cons byte rest ih =>
    have hlow : byte.toNat < 256 := byte.toNat_lt
    rw [fromLittleEndian, List.length_cons, Nat.pow_succ']
    omega

attribute [ext] Pcg

namespace Pcg

/-! ## Draws -/

/-- The generator after a number of draws. -/
def draws (n : Nat) (g : Pcg) : Pcg :=
  (fun g => g.next.1)^[n] g

/-- Draws lead back to the state of a generator after 2^64 of them and not before, and pass through
every state on the way. -/
structure FullPeriod (g : Pcg) : Prop where
  returns : (g.draws (2 ^ 64)).state = g.state
  not_before : ∀ k, 0 < k → k < 2 ^ 64 → (g.draws k).state ≠ g.state
  passes : ∀ state, ∃! k, k < 2 ^ 64 ∧ (g.draws k).state = state

/-- A further draw is a step from where the draws before lead. -/
theorem draws_succ (n : Nat) (g : Pcg) :
    g.draws (n + 1) =
      ⟨step (g.draws n).state (g.draws n).increment, (g.draws n).increment⟩ := by
  rw [draws, Function.iterate_succ_apply']
  rfl

/-- Draws can be made one part after another. -/
theorem draws_add (m n : Nat) (g : Pcg) : g.draws (m + n) = (g.draws n).draws m :=
  Function.iterate_add_apply ..

/-- The draws leave the increment as it is. -/
@[simp] theorem increment_draws (n : Nat) (g : Pcg) : (g.draws n).increment = g.increment := by
  induction n with
  | zero => rfl
  | succ n ih => rw [draws_succ, ih]

/-- A step is affine in the state, up to multiples of two to the power of 64. -/
theorem toNat_step_modEq (state increment : UInt64) :
    (step state increment).toNat ≡
      multiplier.toNat * state.toNat + increment.toNat [MOD 2 ^ 64] := by
  rw [step, UInt64.toNat_add, UInt64.toNat_mul, Nat.mul_comm]
  exact (Nat.mod_modEq _ _).trans ((Nat.mod_modEq _ _).add_right _)

/-- The state after draws is the start times a power of the factor, plus the increment times the sum
of the lower powers. -/
theorem state_draws_modEq (n : Nat) (g : Pcg) :
    (g.draws n).state.toNat ≡
      multiplier.toNat ^ n * g.state.toNat +
        (∑ i ∈ range n, multiplier.toNat ^ i) * g.increment.toNat [MOD 2 ^ 64] := by
  induction n with
  | zero =>
    rw [pow_zero, one_mul, sum_range_zero, zero_mul, add_zero]
    rfl
  | succ n ih =>
    rw [draws_succ, increment_draws]
    calc (step (g.draws n).state g.increment).toNat
        ≡ multiplier.toNat * (g.draws n).state.toNat + g.increment.toNat [MOD 2 ^ 64] :=
          toNat_step_modEq _ _
      _ ≡ multiplier.toNat * (multiplier.toNat ^ n * g.state.toNat +
            (∑ i ∈ range n, multiplier.toNat ^ i) * g.increment.toNat) + g.increment.toNat
            [MOD 2 ^ 64] := (ih.mul_left _).add_right _
      _ = _ := by
        rw [geom_sum_succ]
        ring

/-! ## Returns -/

section Odd

variable {g : Pcg} (hodd : Odd g.increment.toNat)
include hodd

/-- Draws bring a state back exactly if 2^64 divides their number. -/
theorem state_draws_eq_iff (n : Nat) : (g.draws n).state = g.state ↔ 2 ^ 64 ∣ n := by
  obtain ⟨b, hb⟩ : ∃ b, multiplier.toNat = 2 * b + 1 := ⟨3182068111923396502, rfl⟩
  have hfactor : Odd (2 * b * g.state.toNat + g.increment.toNat) :=
    ((even_two_mul b).mul_right _).add_odd hodd
  have hmoved : (g.draws n).state.toNat ≡ g.state.toNat +
      (∑ i ∈ range n, multiplier.toNat ^ i) * (2 * b * g.state.toNat + g.increment.toNat)
      [MOD 2 ^ 64] := by
    have hstate := state_draws_modEq n g
    rw [hb] at hstate ⊢
    rw [← geom_sum_mul_add] at hstate
    calc (g.draws n).state.toNat ≡ _ [MOD 2 ^ 64] := hstate
      _ = _ := by ring
  calc (g.draws n).state = g.state
      ↔ (g.draws n).state.toNat ≡ g.state.toNat [MOD 2 ^ 64] := by
        rw [← UInt64.toNat_inj]
        exact ⟨fun h => h ▸ Nat.ModEq.rfl,
          fun h => h.eq_of_lt_of_lt (UInt64.toNat_lt _) (UInt64.toNat_lt _)⟩
    _ ↔ 2 ^ 64 ∣ (∑ i ∈ range n, multiplier.toNat ^ i) *
          (2 * b * g.state.toNat + g.increment.toNat) := by
        rw [← Nat.modEq_zero_iff_dvd]
        exact ⟨fun h => Nat.ModEq.add_left_cancel' _ (hmoved.symm.trans h),
          fun h => hmoved.trans (h.add_left _)⟩
    _ ↔ 2 ^ 64 ∣ ∑ i ∈ range n, multiplier.toNat ^ i :=
        ((Nat.coprime_two_left.2 hfactor).pow_left 64).dvd_mul_right
    _ ↔ 2 ^ 64 ∣ n := two_pow_dvd_geomSum_iff rfl (by decide) 64 n

/-- Two numbers of draws lead to the same state exactly if they are congruent. -/
theorem state_draws_inj {j k : Nat} :
    (g.draws j).state = (g.draws k).state ↔ j ≡ k [MOD 2 ^ 64] := by
  wlog hle : j ≤ k generalizing j k
  · rw [eq_comm, this (Nat.le_of_not_le hle), Nat.ModEq.comm]
  obtain ⟨d, rfl⟩ := Nat.exists_eq_add_of_le' hle
  have hodd' : Odd (g.draws j).increment.toNat := by rwa [increment_draws]
  rw [draws_add, eq_comm, state_draws_eq_iff hodd', ← Nat.modEq_zero_iff_dvd]
  constructor
  · intro hd
    simpa using (hd.add_right j).symm
  · intro hj
    exact (Nat.ModEq.add_right_cancel' j (by simpa using hj)).symm

/-- Every state comes up at exactly one number of draws below 2^64. -/
theorem existsUnique_draws (state : UInt64) :
    ∃! k, k < 2 ^ 64 ∧ (g.draws k).state = state := by
  -- no state comes up twice, and there are no more states than draws
  have hinjective : Function.Injective fun k : Fin UInt64.size => (g.draws k).state.toFin := by
    intro j k hjk
    have hmod := (state_draws_inj hodd).1 (UInt64.toFin_inj.1 hjk)
    exact Fin.ext (hmod.eq_of_lt_of_lt j.isLt k.isLt)
  obtain ⟨k, hk⟩ := Finite.injective_iff_surjective.1 hinjective state.toFin
  refine ⟨k, ⟨k.isLt, UInt64.toFin_inj.1 hk⟩, ?_⟩
  rintro j ⟨hlt, hj⟩
  have hmod := (state_draws_inj hodd).1 (hj.trans (UInt64.toFin_inj.1 hk).symm)
  exact hmod.eq_of_lt_of_lt hlt k.isLt

/-- A generator with an odd increment has the full period. -/
theorem fullPeriod_of_odd : FullPeriod g where
  returns := (state_draws_eq_iff hodd _).2 dvd_rfl
  not_before k hpos hlt hk :=
    absurd (Nat.le_of_dvd hpos ((state_draws_eq_iff hodd k).1 hk)) (Nat.not_le_of_lt hlt)
  passes := existsUnique_draws hodd

end Odd

/-! ## Seeds -/

/-- The increment drawn from any seed is odd. -/
theorem odd_increment_ofBytes (seed : Vector UInt8 8) :
    Odd (ofBytes seed).increment.toNat := by
  show Odd standardIncrement.toNat
  decide

/-- Different seeds give different states to start from. -/
theorem state_ofBytes_inj {seed other : Vector UInt8 8} :
    (ofBytes seed).state = (ofBytes other).state ↔ seed = other := by
  refine ⟨fun h => ?_, fun h => h ▸ rfl⟩
  have hword : UInt64.ofNat (fromLittleEndian seed.toList) =
      UInt64.ofNat (fromLittleEndian other.toList) := by
    have hsum : UInt64.ofNat (fromLittleEndian seed.toList) + standardIncrement =
        UInt64.ofNat (fromLittleEndian other.toList) + standardIncrement := h
    simpa using hsum
  have hlow : ∀ bytes : Vector UInt8 8,
      (UInt64.ofNat (fromLittleEndian bytes.toList)).toNat = fromLittleEndian bytes.toList := by
    intro bytes
    have hlt := fromLittleEndian_lt bytes.toList
    rw [Vector.length_toList] at hlt
    exact UInt64.toNat_ofNat_of_lt' hlt
  have hnumber : fromLittleEndian seed.toList = fromLittleEndian other.toList := by
    rw [← hlow seed, hword, hlow other]
  apply Vector.toList_inj.1
  rw [← littleEndian_fromLittleEndian seed.toList, ← littleEndian_fromLittleEndian other.toList,
    hnumber, Vector.length_toList, Vector.length_toList]

/-- The generator for a seed word is that for its bytes. -/
theorem exists_ofBytes_eq (word : UInt64) : ∃ seed, ofBytes seed = ofWord word := by
  refine ⟨⟨(littleEndian word.toNat 8).toArray, length_littleEndian ..⟩, ?_⟩
  have hnumber : fromLittleEndian (littleEndian word.toNat 8) = word.toNat := by
    rw [fromLittleEndian_littleEndian]
    exact Nat.mod_eq_of_lt word.toNat_lt
  show ofWord (UInt64.ofNat (fromLittleEndian (littleEndian word.toNat 8))) = ofWord word
  rw [hnumber, UInt64.ofNat_toNat]

/-- The generator has full period, in whatever state draws from a seed have led to.  Different seeds
start at different states of the one cycle, each of which leads to the others.  A generator for a
seed number is one for some seed of bytes. -/
theorem generator_has_full_period (seed : Vector UInt8 8) :
    (∀ n, FullPeriod ((ofBytes seed).draws n)) ∧
      (∀ other, other ≠ seed → (ofBytes other).state ≠ (ofBytes seed).state ∧
        ∃ k, 0 < k ∧ k < 2 ^ 64 ∧ (ofBytes seed).draws k = ofBytes other) ∧
      ∀ number, ∃ bytes, ofSeed number = ofBytes bytes := by
  have hodd := odd_increment_ofBytes seed
  refine ⟨fun n => ?_, fun other hne => ?_, fun number => ?_⟩
  · apply fullPeriod_of_odd
    rwa [increment_draws]
  · have hstate : (ofBytes other).state ≠ (ofBytes seed).state := fun he =>
      hne (state_ofBytes_inj.1 he)
    obtain ⟨k, ⟨hlt, hk⟩, -⟩ := existsUnique_draws hodd (ofBytes other).state
    refine ⟨hstate, k, Nat.pos_of_ne_zero ?_, hlt, Pcg.ext hk ?_⟩
    · rintro rfl
      exact hstate hk.symm
    · rw [increment_draws]
      rfl
  · obtain ⟨bytes, hbytes⟩ := exists_ofBytes_eq (((output _).toUInt64 <<< 32) |||
      (output _).toUInt64)
    exact ⟨bytes, hbytes.symm⟩

end Pcg

end IncrementalSat.Random
