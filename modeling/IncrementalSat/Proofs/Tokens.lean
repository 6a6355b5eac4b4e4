import Mathlib
import IncrementalSat.Text.Blank
import IncrementalSat.Text.Integer
import IncrementalSat.Text.Lines

/-!
# Lines, fields and numerals

What the readers of text make of a text, said without the order in which they go through it.  The
lines of a source are the parts between its line feeds, the fields of a line are the parts between
its blanks that are not empty, and a numeral is a sign and digits, whose number is that of the
digits in base ten.
-/

set_option autoImplicit false

namespace IncrementalSat.Text

/-! ## Numerals -/

/-- The number that digits write in base ten, the first digit counting most. -/
def decimal (digits : List Char) : Nat :=
  Nat.ofDigits 10 (digits.reverse.map fun c => c.toNat - '0'.toNat)

/-- A text writes a number without a minus sign: there is at least one digit, and perhaps a plus
sign. -/
inductive WritesNatural : List Char → Nat → Prop
  | plain {digits : List Char} (hne : digits ≠ []) (hdigits : ∀ c ∈ digits, c.isDigit = true) :
      WritesNatural digits (decimal digits)
  | plus {digits : List Char} (hne : digits ≠ []) (hdigits : ∀ c ∈ digits, c.isDigit = true) :
      WritesNatural ('+' :: digits) (decimal digits)

/-- A text writes a number, perhaps with a sign. -/
inductive WritesInteger : List Char → Int → Prop
  | natural {text : List Char} {n : Nat} (h : WritesNatural text n) : WritesInteger text n
  | minus {digits : List Char} (hne : digits ≠ []) (hdigits : ∀ c ∈ digits, c.isDigit = true) :
      WritesInteger ('-' :: digits) (-(decimal digits : Int))

/-- The first digit of a numeral counts by the number of those that follow. -/
theorem decimal_cons (c : Char) (rest : List Char) :
    decimal (c :: rest) = (c.toNat - '0'.toNat) * 10 ^ rest.length + decimal rest := by
  rw [decimal, decimal, List.reverse_cons, List.map_append, List.map_singleton, Nat.ofDigits_append,
    Nat.ofDigits_singleton, List.length_map, List.length_reverse]
  ring

/-- Digits read on from a value continue it by the number that they write. -/
theorem digitsFrom?_eq_some_iff {value n : Nat} {text : List Char} :
    digitsFrom? value text = some n ↔
      (∀ c ∈ text, c.isDigit = true) ∧ n = value * 10 ^ text.length + decimal text := by
  induction text generalizing value with
  | nil =>
    have hnone : decimal [] = 0 := rfl
    rw [digitsFrom?, Option.some_inj, hnone, List.length_nil, pow_zero, mul_one, add_zero, eq_comm]
    exact (and_iff_right (List.forall_mem_nil _)).symm
  | cons c rest ih =>
    unfold digitsFrom? digit?
    by_cases hc : c.isDigit = true
    · have hvalue : (10 * value + (c.toNat - '0'.toNat)) * 10 ^ rest.length + decimal rest =
          value * 10 ^ (c :: rest).length + decimal (c :: rest) := by
        rw [decimal_cons, List.length_cons, pow_succ]
        ring
      rw [if_pos hc]
      dsimp only
      rw [ih, hvalue, List.forall_mem_cons]
      exact and_congr_left fun _ => (and_iff_right hc).symm
    · rw [if_neg hc, List.forall_mem_cons]
      exact iff_of_false nofun fun h => hc h.1.1

/-- Digits are read as the number that they write, if there is at least one. -/
theorem digits?_eq_some_iff {n : Nat} {text : List Char} :
    digits? text = some n ↔
      text ≠ [] ∧ (∀ c ∈ text, c.isDigit = true) ∧ n = decimal text := by
  cases text with
  | nil => simp [digits?]
  | cons c rest => simp [digits?, digitsFrom?_eq_some_iff]

/-- A number without a minus sign is read from its numerals, and from nothing else. -/
theorem natural?_eq_some_iff {n : Nat} {text : List Char} :
    natural? text = some n ↔ WritesNatural text n := by
  constructor
  · intro h
    unfold natural? at h
    split at h
    · obtain ⟨hne, hdigits, rfl⟩ := digits?_eq_some_iff.1 h
      exact .plus hne hdigits
    · obtain ⟨hne, hdigits, rfl⟩ := digits?_eq_some_iff.1 h
      exact .plain hne hdigits
  · rintro (⟨hne, hdigits⟩ | ⟨hne, hdigits⟩)
    · unfold natural?
      split
      · -- a sign is no digit
        exact absurd (hdigits '+' List.mem_cons_self) (by decide)
      · exact digits?_eq_some_iff.2 ⟨hne, hdigits, rfl⟩
    · exact digits?_eq_some_iff.2 ⟨hne, hdigits, rfl⟩

/-- After a minus sign digits are read, without another sign. -/
theorem integer?_minus (rest : List Char) :
    integer? ('-' :: rest) = (digits? rest).map fun n : Nat => -(n : Int) := by
  show Option.map _ (do let n ← digits? rest; pure (n : Int)) = _
  cases digits? rest <;> rfl

/-- Without a minus sign an integer is read as a number. -/
theorem integer?_of_ne {text : List Char} (h : ∀ rest, text ≠ '-' :: rest) :
    integer? text = (natural? text).map fun n : Nat => (n : Int) := by
  unfold integer?
  split
  · exact absurd rfl (h _)
  · cases natural? text <;> rfl

/-- An integer is read from its numerals, and from nothing else. -/
theorem integer?_eq_some_iff {n : Int} {text : List Char} :
    integer? text = some n ↔ WritesInteger text n := by
  by_cases hminus : ∃ rest, text = '-' :: rest
  · obtain ⟨rest, rfl⟩ := hminus
    rw [integer?_minus, Option.map_eq_some_iff]
    constructor
    · rintro ⟨m, hm, rfl⟩
      obtain ⟨hne, hdigits, rfl⟩ := digits?_eq_some_iff.1 hm
      exact .minus hne hdigits
    · intro h
      cases h with
      | natural h =>
        cases h with
        | plain _ hdigits =>
          -- a sign is no digit
          exact absurd (hdigits '-' List.mem_cons_self) (by decide)
      | minus hne hdigits => exact ⟨_, digits?_eq_some_iff.2 ⟨hne, hdigits, rfl⟩, rfl⟩
  · rw [not_exists] at hminus
    rw [integer?_of_ne hminus, Option.map_eq_some_iff]
    constructor
    · rintro ⟨m, hm, rfl⟩
      exact .natural (natural?_eq_some_iff.1 hm)
    · intro h
      cases h with
      | natural h => exact ⟨_, natural?_eq_some_iff.2 h, rfl⟩
      | minus => exact absurd rfl (hminus _)

/-- An unsigned number is read from its numerals, if it is below the bound. -/
theorem unsigned?_eq_some_iff {width n : Nat} {text : List Char} :
    unsigned? width text = some n ↔ WritesNatural text n ∧ n < 2 ^ width := by
  rw [unsigned?, Option.filter_eq_some_iff, natural?_eq_some_iff, decide_eq_true_iff]
  rfl

/-- A 32-bit integer is read from the numerals of its value. -/
theorem int32?_eq_some_iff {lit : Int32} {text : List Char} :
    int32? text = some lit ↔ WritesInteger text lit.toInt := by
  have hrange : ∀ n : Int, (decide (-(Nat.pow 2 31 : Int) ≤ n) &&
      decide (n < (Nat.pow 2 31 : Int))) = true ↔ -2 ^ 31 ≤ n ∧ n < 2 ^ 31 := by
    intro n
    rw [Bool.and_eq_true, decide_eq_true_iff, decide_eq_true_iff]
    rfl
  rw [int32?, Option.map_eq_some_iff]
  constructor
  · rintro ⟨n, hn, rfl⟩
    rw [signed?, Option.filter_eq_some_iff, integer?_eq_some_iff, hrange] at hn
    obtain ⟨hwrites, hlow, hhigh⟩ := hn
    rwa [Int32.toInt_ofInt_of_le hlow hhigh]
  · intro h
    refine ⟨lit.toInt, ?_, Int32.ofInt_toInt lit⟩
    rw [signed?, Option.filter_eq_some_iff, integer?_eq_some_iff, hrange]
    exact ⟨h, lit.le_toInt, lit.toInt_lt⟩

/-! ## Fields -/

/-- The parts of a text between its blanks that are not empty. -/
def words (text : List Char) : List (List Char) :=
  (text.splitOnP isBlank).filter fun word => !word.isEmpty

/-- Fields read on from a field under way are the parts of the text with that field before it, less
those that are empty. -/
theorem fieldsFrom_eq (field text : List Char) :
    fieldsFrom field text =
      (text.splitOnPPrepend isBlank field).filter fun word => !word.isEmpty := by
  induction text generalizing field with
  | nil => cases field <;> simp [fieldsFrom]
  | cons c rest ih =>
    unfold fieldsFrom
    by_cases hc : isBlank c = true
    · rw [if_pos hc, ih, List.splitOnPPrepend_cons_pos hc]
      cases field <;> simp
    · rw [if_neg hc, ih, List.splitOnPPrepend_cons_neg (by simpa using hc)]

/-- The fields of a text are its words. -/
theorem fields_eq_words (text : List Char) : fields text = words text :=
  fieldsFrom_eq [] text

/-- The first visible character is the first of what is left once the blanks before are dropped. -/
theorem firstVisible?_eq_head? (text : List Char) :
    firstVisible? text = (text.dropWhile isBlank).head? :=
  List.find?_not_eq_head?_dropWhile isBlank text

/-! ## Lines -/

/-- What comes after the last line feed of a source: the failure, or a last line, unless it is
empty. -/
def Source.remainder (s : Source) : List (Except ReadFailure String) :=
  match s.failure with
  | some cause => [.error cause]
  | none =>
    let part := ((s.bytes.splitOn 10).getLast?).getD []
    if part = [] then [] else [decodeLine part]

/-- The lines of a source: each part before a line feed, with that line feed, and the remainder. -/
def Source.division (s : Source) : List (Except ReadFailure String) :=
  ((s.bytes.splitOn 10).dropLast.map fun part => decodeLine (part ++ [10])) ++ s.remainder

/-- Lines read on from a line under way are the parts of the bytes with that line before them, and
the remainder. -/
theorem linesFrom_eq (failure : Option ReadFailure) (line bytes : List UInt8) :
    linesFrom failure line bytes =
      ((bytes.splitOnPPrepend (· == 10) line).dropLast.map fun part => decodeLine (part ++ [10])) ++
        lastLine ((bytes.splitOnPPrepend (· == 10) line).getLast?.getD []).reverse failure := by
  induction bytes generalizing line with
  | nil => simp [linesFrom]
  | cons b rest ih =>
    unfold linesFrom
    by_cases hb : b = 10
    · have hempty : rest.splitOnPPrepend (· == 10) [] = rest.splitOnP (· == 10) := rfl
      obtain ⟨part, parts, hparts⟩ :=
        List.exists_cons_of_ne_nil (List.splitOnP_ne_nil (· == (10 : UInt8)) rest)
      rw [if_pos hb, ih, List.splitOnPPrepend_cons_pos (by simpa using hb), hempty, hparts]
      simp [hb]
    · rw [if_neg hb, ih, List.splitOnPPrepend_cons_neg (by simpa using hb)]

/-- Reading a source line by line gives its lines. -/
theorem Source.lines_eq_division (s : Source) : s.lines = s.division := by
  have hremainder : lastLine (((s.bytes.splitOn 10).getLast?).getD []).reverse s.failure =
      s.remainder := by
    unfold lastLine remainder
    cases s.failure with
    | some cause => rfl
    | none => simp
  rw [division, ← hremainder]
  exact linesFrom_eq s.failure [] s.bytes

end IncrementalSat.Text
