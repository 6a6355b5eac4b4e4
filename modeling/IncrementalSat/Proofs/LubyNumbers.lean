import Mathlib
import IncrementalSat.Luby

/-!
# The generator and the Luby numbers

Without a bound on words the generator climbs: it doubles the element as long as twice the element
divides the count of returns to one, and returns to one otherwise.  From a count divisible by a
power of two, what it yields up to that power is a prefix of the sequence, by induction on the
power: two copies of the prefix before, and the power at the end.  As long as the words of the
generator do not overflow, they hold these numbers.
-/

set_option autoImplicit false

namespace IncrementalSat

/-- The Luby numbers, counted from one.  Just below a power of two the number is half that power,
and anywhere else it is the one as far behind the last such place. -/
def lubyNumber (n : Nat) : Nat :=
  let half := 2 ^ n.log2
  if n = 0 then 0
  else if n + 1 = 2 * half then half
  else lubyNumber (n - half + 1)
termination_by n
decreasing_by
  rename_i hzero hne
  have hle : half ≤ n := Nat.log2_self_le hzero
  have hlt : n < 2 * half := by
    have := Nat.lt_log2_self (n := n)
    rw [Nat.pow_succ] at this
    omega
  omega

/-- Just below a power of two the Luby number is half that power. -/
theorem lubyNumber_pred_two_pow (k : Nat) : lubyNumber (2 ^ (k + 1) - 1) = 2 ^ k := by
  have hpos := Nat.two_pow_pos k
  have hlog : (2 ^ (k + 1) - 1).log2 = k := by
    rw [Nat.log2_eq_iff (by omega)]
    omega
  rw [lubyNumber, hlog]
  rw [if_neg (by omega), if_pos (by omega)]

/-- Anywhere else the Luby number is that as far behind the last such place. -/
theorem lubyNumber_of_lt {k n : Nat} (hlow : 2 ^ k ≤ n) (hhigh : n + 1 < 2 ^ (k + 1)) :
    lubyNumber n = lubyNumber (n - 2 ^ k + 1) := by
  have hpos := Nat.two_pow_pos k
  have hlog : n.log2 = k := by
    rw [Nat.log2_eq_iff (by omega)]
    omega
  conv_lhs => rw [lubyNumber, hlog]
  rw [if_neg (by omega), if_neg (by omega)]

/-- Luby numbers are positive. -/
theorem lubyNumber_pos {n : Nat} (h : 0 < n) : 0 < lubyNumber n := by
  induction n using Nat.strongRecOn with
  | ind n ih =>
    have hlow := Nat.log2_self_le h.ne'
    have hhigh := Nat.lt_log2_self (n := n)
    by_cases hlast : n + 1 = 2 ^ (n.log2 + 1)
    · have hn : n = 2 ^ (n.log2 + 1) - 1 := by omega
      rw [hn, lubyNumber_pred_two_pow]
      exact Nat.two_pow_pos _
    · rw [lubyNumber_of_lt hlow (by omega)]
      refine ih _ ?_ (Nat.succ_pos _)
      omega

example : (List.range 15).map (fun n => lubyNumber (n + 1)) =
    [1, 1, 2, 1, 1, 2, 4, 1, 1, 2, 1, 1, 2, 4, 8] := by
  decide +kernel

namespace Luby

/-! ## The generator without a bound on words -/

/-- The position after another, as the count of returns to one and the element. -/
def climb (p : Nat × Nat) : Nat × Nat :=
  if 2 * p.2 ∣ p.1 then (p.1, 2 * p.2) else (p.1 + 1, 1)

/-- From a count divisible by a power of two the generator yields the Luby numbers up to that
power, and then stands at it. -/
theorem climb_block (k c : Nat) (h : 2 ^ k ∣ c) :
    (∀ i < 2 ^ (k + 1) - 1, (climb^[i] (c + 1, 1)).2 = lubyNumber (i + 1)) ∧
      climb^[2 ^ (k + 1) - 2] (c + 1, 1) = (c + 2 ^ k, 2 ^ k) := by
  induction k generalizing c with
  | zero =>
    refine ⟨fun i hi => ?_, rfl⟩
    obtain rfl : i = 0 := by omega
    exact (lubyNumber_pred_two_pow 0).symm
  | succ k ih =>
    have hpos := Nat.two_pow_pos k
    have hpow : 2 ^ (k + 1) = 2 * 2 ^ k := by rw [Nat.pow_succ, Nat.mul_comm]
    have hpow' : 2 ^ (k + 2) = 4 * 2 ^ k := by
      rw [Nat.pow_succ, hpow]
      omega
    have hdvd : 2 ^ k ∣ c := (Nat.pow_dvd_pow 2 (Nat.le_succ k)).trans h
    obtain ⟨hfirst, hmiddle⟩ := ih c hdvd
    obtain ⟨hsecond, hlast⟩ := ih (c + 2 ^ k) (Nat.dvd_add hdvd dvd_rfl)
    -- after the first copy the element is not doubled, and after the second it is
    have hback : climb^[2 ^ (k + 1) - 1] (c + 1, 1) = (c + 2 ^ k + 1, 1) := by
      have hnot : ¬ 2 * 2 ^ k ∣ c + 2 ^ k := by
        rw [← hpow, (Nat.dvd_add_right h), hpow]
        exact fun hd => absurd (Nat.le_of_dvd hpos hd) (by omega)
      rw [show 2 ^ (k + 1) - 1 = 2 ^ (k + 1) - 2 + 1 by omega, Function.iterate_succ_apply',
        hmiddle, climb, if_neg hnot]
    have hcopy : ∀ i, climb^[i + (2 ^ (k + 1) - 1)] (c + 1, 1) = climb^[i] (c + 2 ^ k + 1, 1) :=
      fun i => by rw [Function.iterate_add_apply, hback]
    have hend : climb^[2 ^ (k + 1 + 1) - 2] (c + 1, 1) = (c + 2 ^ (k + 1), 2 ^ (k + 1)) := by
      have hyes : 2 * 2 ^ k ∣ c + 2 ^ k + 2 ^ k := by
        rw [Nat.add_assoc, ← Nat.two_mul, ← hpow]
        exact Nat.dvd_add h dvd_rfl
      have hplace : 2 ^ (k + 1 + 1) - 2 = 2 ^ (k + 1) - 2 + 1 + (2 ^ (k + 1) - 1) := by omega
      rw [hplace, hcopy, Function.iterate_succ_apply', hlast, climb, if_pos hyes, hpow,
        Nat.add_assoc, ← Nat.two_mul]
    refine ⟨fun i hi => ?_, hend⟩
    by_cases hlt : i < 2 ^ (k + 1) - 1
    · exact hfirst i hlt
    by_cases hmost : i < 2 ^ (k + 1 + 1) - 2
    · obtain ⟨j, rfl⟩ := Nat.exists_eq_add_of_le' (Nat.le_of_not_lt hlt)
      have hbehind : j + (2 ^ (k + 1) - 1) + 1 - 2 ^ (k + 1) + 1 = j + 1 := by omega
      have hlow : 2 ^ (k + 1) ≤ j + (2 ^ (k + 1) - 1) + 1 := by omega
      rw [hcopy, hsecond j (by omega), lubyNumber_of_lt hlow (by omega), hbehind]
    · obtain rfl : i = 2 ^ (k + 1 + 1) - 2 := by omega
      rw [hend, show 2 ^ (k + 1 + 1) - 2 + 1 = 2 ^ (k + 1 + 1) - 1 by omega,
        lubyNumber_pred_two_pow]

/-- The generator without a bound yields the Luby numbers, one after another. -/
theorem climb_iterate_snd (n : Nat) : (climb^[n] (1, 1)).2 = lubyNumber (n + 1) := by
  have hlt : n < 2 ^ (n + 1) - 1 := by
    have := Nat.lt_two_pow_self (n := n)
    rw [Nat.pow_succ]
    omega
  exact (climb_block n 0 (Nat.dvd_zero _)).1 n hlt

/-! ## The generator with words -/

/-- The lowest set bit of a word is the largest power of two that divides it. -/
theorem lowestBit_eq {w : UInt32} {j q : Nat} (h : w.toNat = (2 * q + 1) * 2 ^ j) :
    (lowestBit w).toNat = 2 ^ j := by
  have hlt : (2 * q + 1) * 2 ^ j < 2 ^ 32 := h ▸ w.toNat_lt
  have hpos := Nat.two_pow_pos j
  have hj : j < 32 := by
    have hle : 2 ^ j ≤ (2 * q + 1) * 2 ^ j := Nat.le_mul_of_pos_left _ (by omega)
    exact (Nat.pow_lt_pow_iff_right (by decide)).1 (hle.trans_lt hlt)
  obtain ⟨b, hb⟩ : ∃ b, 32 = b + 1 + j := ⟨31 - j, by omega⟩
  have hsplit : 2 ^ 32 = 2 * 2 ^ b * 2 ^ j := by
    rw [hb, Nat.pow_add, Nat.pow_succ, Nat.mul_comm (2 ^ b)]
  have hq : q < 2 ^ b := by
    rw [hsplit] at hlt
    have := Nat.lt_of_mul_lt_mul_right hlt
    omega
  -- the negation is the same power of two times the complement of the odd factor
  have hneg : 2 ^ 32 - (2 * q + 1) * 2 ^ j = (2 * (2 ^ b - (q + 1)) + 1) * 2 ^ j := by
    rw [hsplit, ← Nat.sub_mul]
    congr 1
    omega
  have hodd : (2 * q + 1) &&& (2 * (2 ^ b - (q + 1)) + 1) = 1 := by
    apply Nat.eq_of_testBit_eq
    intro i
    cases i with
    | zero => simp
    | succ i =>
      have hhalf : ∀ n, (2 * n + 1) / 2 = n := fun n => by omega
      rw [Nat.testBit_and, Nat.testBit_succ, Nat.testBit_succ, Nat.testBit_succ, hhalf, hhalf,
        Nat.testBit_two_pow_sub_succ hq]
      cases q.testBit i <;> simp
  rw [lowestBit, UInt32.toNat_and, UInt32.toNat_sub, UInt32.toNat_zero, Nat.add_zero, h,
    Nat.mod_eq_of_lt (by have := Nat.mul_pos (show 0 < 2 * q + 1 by omega) hpos; omega), hneg,
    ← Nat.shiftLeft_eq, ← Nat.shiftLeft_eq, ← Nat.shiftLeft_and_distrib, hodd, Nat.one_shiftLeft]

/-- A position that words can hold: its count is not zero and its element is a power of two that
divides the count. -/
structure Fits (p : Nat × Nat) : Prop where
  pos : 0 < p.1
  lt : p.1 < 2 ^ 32
  power : ∃ j, p.2 = 2 ^ j
  dvd : p.2 ∣ p.1

/-- The words that hold a position. -/
def ofPosition (p : Nat × Nat) : Luby :=
  ⟨UInt32.ofNat p.1, UInt32.ofNat p.2⟩

namespace Fits

variable {p : Nat × Nat}

/-- The element of a position is at most its count. -/
theorem element_le (h : Fits p) : p.2 ≤ p.1 :=
  Nat.le_of_dvd h.pos h.dvd

/-- The words of a position hold its count. -/
theorem turn_toNat (h : Fits p) : (ofPosition p).turn.toNat = p.1 :=
  UInt32.toNat_ofNat_of_lt h.lt

/-- The words of a position hold its element. -/
theorem element_toNat (h : Fits p) : (ofPosition p).element.toNat = p.2 :=
  UInt32.toNat_ofNat_of_lt (h.element_le.trans_lt h.lt)

/-- The lowest set bit of the count is the element unless twice the element divides it too. -/
theorem lowestBit_eq_iff (h : Fits p) :
    lowestBit (ofPosition p).turn = (ofPosition p).element ↔ ¬ 2 * p.2 ∣ p.1 := by
  obtain ⟨i, hi⟩ := h.power
  obtain ⟨j, m, ⟨q, rfl⟩, hm⟩ := Nat.exists_eq_two_pow_mul_odd h.pos.ne'
  have hbit := lowestBit_eq (h.turn_toNat.trans (hm.trans (Nat.mul_comm _ _)))
  have hdvd : ∀ n, 2 ^ n ∣ p.1 ↔ n ≤ j := by
    intro n
    have hcoprime : Nat.Coprime (2 ^ n) (2 * q + 1) :=
      Nat.Coprime.pow_left n (Nat.coprime_two_left.2 ⟨q, rfl⟩)
    rw [hm]
    constructor
    · intro hn
      exact (Nat.pow_dvd_pow_iff_le_right (by decide)).1 (hcoprime.dvd_of_dvd_mul_right hn)
    · exact fun hn => (Nat.pow_dvd_pow 2 hn).mul_right _
  have hle : i ≤ j := (hdvd i).1 (hi ▸ h.dvd)
  rw [← UInt32.toNat_inj, hbit, h.element_toNat, hi, Nat.mul_comm 2, ← Nat.pow_succ, hdvd,
    Nat.pow_right_inj Nat.one_lt_two]
  omega

/-- The position after another fits as well, unless its count is too large for a word. -/
theorem climb (h : Fits p) (hroom : (Luby.climb p).1 < 2 ^ 32) : Fits (Luby.climb p) := by
  unfold Luby.climb at hroom ⊢
  split
  · rename_i hdouble
    obtain ⟨j, hj⟩ := h.power
    exact ⟨h.pos, h.lt, ⟨j + 1, by rw [hj, Nat.pow_succ, Nat.mul_comm]⟩, hdouble⟩
  · rename_i hback
    rw [if_neg hback] at hroom
    exact ⟨Nat.succ_pos _, hroom, ⟨0, rfl⟩, Nat.one_dvd _⟩

/-- The generator moves on from words that hold a position to those that hold the next one, unless
the count is full and the element is not to be doubled. -/
theorem advance?_eq (h : Fits p) :
    (ofPosition p).advance? =
      if (Luby.climb p).1 < 2 ^ 32 then some (ofPosition (Luby.climb p)) else none := by
  have hturn := h.turn_toNat
  have helement := h.element_toNat
  unfold advance? Luby.climb
  by_cases hdouble : 2 * p.2 ∣ p.1
  · have hle := Nat.le_of_dvd h.pos hdouble
    have hlt := h.lt
    rw [if_neg (mt h.lowestBit_eq_iff.1 (not_not.2 hdouble)), if_pos hdouble, if_pos hlt, helement,
      if_pos (show p.2 + p.2 < UInt32.size by change p.2 + p.2 < 2 ^ 32; omega)]
    rw [ofPosition, ofPosition, Nat.two_mul, UInt32.ofNat_add]
  · rw [if_pos (h.lowestBit_eq_iff.2 hdouble), if_neg hdouble, hturn]
    show (if p.1 + 1 < 2 ^ 32 then _ else none) = _
    rw [ofPosition, ofPosition, UInt32.ofNat_add]
    rfl

end Fits

/-- The generator can make a number of moves without an overflow. -/
def Lasts (n : Nat) : Prop :=
  ∀ k < n, (advanceBy k start).advance? ≠ none

/-- A generator that can make some moves can make fewer. -/
theorem Lasts.mono {m n : Nat} (h : Lasts n) (hle : m ≤ n) : Lasts m :=
  fun k hk => h k (hk.trans_le hle)

/-- The last of a number of moves is made from where those before it lead. -/
theorem advanceBy_succ (n : Nat) (l : Luby) : advanceBy (n + 1) l = (advanceBy n l).advance := by
  induction n generalizing l with
  | zero => rfl
  | succ n ih => exact ih l.advance

/-- As long as it lasts, the generator holds the position that it would have without a bound. -/
theorem advanceBy_eq {n : Nat} (h : Lasts n) :
    advanceBy n start = ofPosition (climb^[n] (1, 1)) ∧ Fits (climb^[n] (1, 1)) := by
  induction n with
  | zero => exact ⟨rfl, ⟨by decide, by decide, ⟨0, rfl⟩, dvd_rfl⟩⟩
  | succ n ih =>
    obtain ⟨hword, hfits⟩ := ih (h.mono (Nat.le_succ n))
    have hnext := h n (Nat.lt_succ_self n)
    rw [hword, hfits.advance?_eq] at hnext
    have hroom : (climb (climb^[n] (1, 1))).1 < 2 ^ 32 := by
      by_contra hfull
      rw [if_neg hfull] at hnext
      exact hnext rfl
    rw [Function.iterate_succ_apply']
    refine ⟨?_, hfits.climb hroom⟩
    rw [advanceBy_succ, hword, advance, hfits.advance?_eq, if_pos hroom, Option.getD_some]

/-- As long as it lasts, the generator yields the Luby numbers. -/
theorem element_advanceBy {n : Nat} (h : Lasts n) :
    (advanceBy n start).element.toNat = lubyNumber (n + 1) := by
  obtain ⟨hword, hfits⟩ := advanceBy_eq h
  rw [hword, hfits.element_toNat, climb_iterate_snd]

end Luby

end IncrementalSat
