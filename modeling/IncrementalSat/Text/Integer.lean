/-!
# Decimal integers

An integer is written as an optional sign and one or more ASCII digits, leading zeros allowed.
Where only numbers without a sign have a meaning, a minus sign is not allowed, not even for zero.
Numbers outside the width of the word read are refused.
-/

set_option autoImplicit false

namespace IncrementalSat.Text

/-- The value of an ASCII digit. -/
def digit? (c : Char) : Option Nat :=
  if c.isDigit then some (c.toNat - '0'.toNat) else none

/-- The number written by digits that follow a number. -/
def digitsFrom? (value : Nat) : List Char → Option Nat
  | [] => some value
  | c :: rest =>
    match digit? c with
    | some d => digitsFrom? (10 * value + d) rest
    | none => none

/-- The number written by one or more digits. -/
def digits? : List Char → Option Nat
  | [] => none
  | c :: rest => digitsFrom? 0 (c :: rest)

/-- The number written with an optional plus sign. -/
def natural? : List Char → Option Nat
  | '+' :: rest => digits? rest
  | text => digits? text

/-- The number written with an optional sign. -/
def integer? : List Char → Option Int
  | '-' :: rest => (digits? rest).map fun n => -(n : Int)
  | text => (natural? text).map fun n => (n : Int)

/-- The number without a sign, below a power of two, that a text writes. -/
def unsigned? (width : Nat) (text : List Char) : Option Nat :=
  (natural? text).filter fun n => decide (n < Nat.pow 2 width)

/-- The number, in the range of a signed word, that a text writes. -/
def signed? (width : Nat) (text : List Char) : Option Int :=
  (integer? text).filter fun n =>
    decide (-(Nat.pow 2 (width - 1) : Int) ≤ n) && decide (n < (Nat.pow 2 (width - 1) : Int))

/-- The 32-bit integer that a text writes. -/
def int32? (text : List Char) : Option Int32 :=
  (signed? 32 text).map Int32.ofInt

end IncrementalSat.Text
