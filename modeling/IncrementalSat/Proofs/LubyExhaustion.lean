import IncrementalSat.Proofs.LubyNumbers

/-!
# How long the generator lasts

The count of returns to one only grows, so the generator lasts until the count has no room in its
word.  The blocks of the sequence take it there: from a count divisible by a power of two it goes on
to one past half the way to the next such count, so that after the largest block, the second largest
and so on the count is full at a move that can be told.  There the element is one and cannot be
doubled, and the generator stands still.
-/

set_option autoImplicit false

namespace IncrementalSat.Luby

/-- The number of moves that the generator makes. -/
def lifetime : Nat := 2 ^ 33 - 35

/-- The position with a full count, at which the generator is exhausted. -/
def exhausted : Luby := ⟨4294967295, 1⟩

/-! ## The way to a full count -/

/-- From a count divisible by a power of two the generator passes the block of half that power. -/
theorem climb_past_block {k c : Nat} (h : 2 ^ (k + 1) ∣ c) :
    climb^[2 ^ (k + 1) - 1] (c + 1, 1) = (c + 2 ^ k + 1, 1) := by
  have hpos := Nat.two_pow_pos k
  have hpow : 2 ^ (k + 1) = 2 * 2 ^ k := by rw [Nat.pow_succ, Nat.mul_comm]
  obtain ⟨-, hend⟩ := climb_block k c ((Nat.pow_dvd_pow 2 (Nat.le_succ k)).trans h)
  have hnot : ¬ 2 * 2 ^ k ∣ c + 2 ^ k := by
    rw [← hpow, Nat.dvd_add_right h, hpow]
    exact fun hd => absurd (Nat.le_of_dvd hpos hd) (by omega)
  rw [show 2 ^ (k + 1) - 1 = 2 ^ (k + 1) - 2 + 1 by omega, Function.iterate_succ_apply', hend,
    climb, if_neg hnot]

/-- Passing blocks of falling size, the generator comes to one past a difference of powers. -/
theorem exists_climb_eq (d k : Nat) :
    ∃ n, n + 2 ^ (k + 1) + d = 2 ^ (k + d + 1) ∧
      climb^[n] (1, 1) = (2 ^ (k + d) - 2 ^ k + 1, 1) := by
  induction d generalizing k with
  | zero => exact ⟨0, by simp, by simp⟩
  | succ d ih =>
    obtain ⟨n, hn, hclimb⟩ := ih (k + 1)
    have hpos := Nat.two_pow_pos k
    have hpow : 2 ^ (k + 1) = 2 * 2 ^ k := by rw [Nat.pow_succ, Nat.mul_comm]
    have hpow' : 2 ^ (k + 1 + 1) = 4 * 2 ^ k := by
      rw [Nat.pow_succ, hpow]
      omega
    have hplace : k + 1 + d = k + (d + 1) := by omega
    have hle : 2 ^ (k + 1) ≤ 2 ^ (k + (d + 1)) := Nat.pow_le_pow_right Nat.two_pos (by omega)
    have hdvd : 2 ^ (k + 1) ∣ 2 ^ (k + (d + 1)) - 2 ^ (k + 1) :=
      Nat.dvd_sub (Nat.pow_dvd_pow 2 (by omega)) dvd_rfl
    rw [hplace] at hn hclimb
    refine ⟨2 ^ (k + 1) - 1 + n, by omega, ?_⟩
    rw [Function.iterate_add_apply, hclimb, climb_past_block hdvd]
    congr 1
    omega

/-- After the moves that it makes the generator would stand at a full count. -/
theorem climb_lifetime : climb^[lifetime] (1, 1) = (2 ^ 32 - 1, 1) := by
  obtain ⟨n, hn, hclimb⟩ := exists_climb_eq 31 1
  have hlifetime : n = lifetime := by
    unfold lifetime
    omega
  rw [← hlifetime, hclimb]
  norm_num

/-- The count only grows. -/
theorem fst_climb_mono : Monotone fun n => (climb^[n] (1, 1)).1 := by
  refine monotone_nat_of_le_succ fun n => ?_
  rw [Function.iterate_succ_apply', climb]
  split
  · exact Nat.le_refl _
  · exact Nat.le_succ _

/-! ## The end -/

/-- The generator lasts until its count is full. -/
theorem lasts_of_le {n : Nat} (h : n ≤ lifetime) : Lasts n := by
  induction n with
  | zero => exact fun k hk => absurd hk (Nat.not_lt_zero k)
  | succ n ih =>
    have hlasts := ih (Nat.le_of_succ_le h)
    obtain ⟨hword, hfits⟩ := advanceBy_eq hlasts
    have hroom : (climb (climb^[n] (1, 1))).1 < 2 ^ 32 := by
      rw [← Function.iterate_succ_apply' climb]
      have hle : (climb^[n + 1] (1, 1)).1 ≤ (climb^[lifetime] (1, 1)).1 := fst_climb_mono h
      rw [climb_lifetime] at hle
      exact hle.trans_lt (by decide)
    intro k hk
    rcases Nat.lt_succ_iff_lt_or_eq.1 hk with hk | rfl
    · exact hlasts k hk
    · rw [hword, hfits.advance?_eq, if_pos hroom]
      exact Option.some_ne_none _

/-- After its lifetime the generator is exhausted. -/
theorem advanceBy_lifetime : advanceBy lifetime start = exhausted := by
  rw [(advanceBy_eq (lasts_of_le (Nat.le_refl _))).1, climb_lifetime]
  rfl

/-- Moves can be made one part after another. -/
theorem advanceBy_add (m n : Nat) (l : Luby) :
    advanceBy (m + n) l = advanceBy m (advanceBy n l) := by
  induction n generalizing l with
  | zero => rfl
  | succ n ih => exact ih l.advance

/-- An exhausted generator stands still. -/
theorem advanceBy_exhausted (n : Nat) : advanceBy n exhausted = exhausted := by
  induction n with
  | zero => rfl
  | succ n ih => exact ih

/-- From the end of its lifetime on the generator is exhausted. -/
theorem advanceBy_eq_exhausted {n : Nat} (h : lifetime ≤ n) : advanceBy n start = exhausted := by
  obtain ⟨m, rfl⟩ := Nat.exists_eq_add_of_le' h
  rw [advanceBy_add, advanceBy_lifetime, advanceBy_exhausted]

/-- The generator refuses a move exactly when it has made all that it makes. -/
theorem advance?_eq_none_iff {n : Nat} :
    (advanceBy n start).advance? = none ↔ lifetime ≤ n := by
  constructor
  · intro hnone
    by_contra hlt
    exact lasts_of_le (Nat.lt_of_not_le hlt) n (Nat.lt_succ_self n) hnone
  · intro hle
    rw [advanceBy_eq_exhausted hle]
    rfl

/-- Where the element is to be doubled, twice the element has room. -/
theorem doubled_lt {n : Nat}
    (h : lowestBit (advanceBy n start).turn ≠ (advanceBy n start).element) :
    (advanceBy n start).element.toNat + (advanceBy n start).element.toNat < UInt32.size := by
  rcases Nat.le_total n lifetime with hn | hn
  · obtain ⟨hword, hfits⟩ := advanceBy_eq (lasts_of_le hn)
    rw [hword] at h ⊢
    have hdvd := not_not.1 (mt hfits.lowestBit_eq_iff.2 h)
    have hle := Nat.le_of_dvd hfits.pos hdvd
    rw [hfits.element_toNat, ← Nat.two_mul]
    exact hle.trans_lt hfits.lt
  · rw [advanceBy_eq_exhausted hn] at h
    exact absurd rfl h

/-- The fresh generator, which is at its first element after one move from zeros, yields the Luby
numbers one after another as long as it lasts.  It never has to double an element without room,
refuses a move only where its count is full and its element is one, and then stays there. -/
theorem generator_yields_luby_numbers :
    (⟨0, 0⟩ : Luby).advance? = some start ∧
    (∀ k, 1 ≤ k → lubyNumber (2 ^ k - 1) = 2 ^ (k - 1)) ∧
    (∀ k n, 1 ≤ k → 2 ^ (k - 1) ≤ n → n < 2 ^ k - 1 →
      lubyNumber n = lubyNumber (n - 2 ^ (k - 1) + 1)) ∧
    (∀ n, 1 ≤ n → n ≤ lifetime + 1 →
      (advanceBy (n - 1) start).element.toNat = lubyNumber n) ∧
    (∀ n, lowestBit (advanceBy n start).turn ≠ (advanceBy n start).element →
      (advanceBy n start).element.toNat + (advanceBy n start).element.toNat < UInt32.size) ∧
    (∀ n, ((advanceBy n start).advance? = none ↔ lifetime ≤ n) ∧
      ((advanceBy n start).advance? = none → ∀ m,
        advanceBy (m + n) start = advanceBy n start ∧
        (advanceBy n start).turn.toNat = UInt32.size - 1 ∧
        (advanceBy n start).element = 1)) := by
  refine ⟨rfl, fun k hk => ?_, fun k n hk hlow hhigh => ?_, fun n hpos hn => ?_,
    fun n => doubled_lt, fun n => ⟨advance?_eq_none_iff, fun hnone m => ?_⟩⟩
  · obtain ⟨k, rfl⟩ := Nat.exists_eq_add_of_le' hk
    exact lubyNumber_pred_two_pow k
  · obtain ⟨k, rfl⟩ := Nat.exists_eq_add_of_le' hk
    rw [Nat.add_sub_cancel] at hlow ⊢
    exact lubyNumber_of_lt hlow (by omega)
  · obtain ⟨n, rfl⟩ := Nat.exists_eq_add_of_le' hpos
    exact element_advanceBy (lasts_of_le (Nat.le_of_succ_le_succ hn))
  · have hle := advance?_eq_none_iff.1 hnone
    rw [advanceBy_eq_exhausted hle, advanceBy_eq_exhausted (hle.trans (Nat.le_add_left _ _))]
    exact ⟨rfl, rfl, rfl⟩

end IncrementalSat.Luby
