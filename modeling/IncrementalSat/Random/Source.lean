/-!
# Sources of randomness

A source yields 32-bit words from a seed.  Longer words, bytes and numbers below a bound are drawn
from it in fixed ways, so that a seed determines every draw.
-/

set_option autoImplicit false

namespace IncrementalSat.Random

/-- A generator of 32-bit words. -/
class Source (R : Type) where
  ofSeed : UInt64 → R
  /-- The generator after one draw, with the word drawn. -/
  next32 : R → R × UInt32

variable {R : Type} [Source R]

/-- Draws a 64-bit word, its low half first. -/
def next64 (r : R) : R × UInt64 :=
  let (r, low) := Source.next32 r
  let (r, high) := Source.next32 r
  (r, (high.toUInt64 <<< 32) ||| low.toUInt64)

/-- The given number of low bytes of a word, the lowest first. -/
def littleEndian (word : Nat) : Nat → List UInt8
  | 0 => []
  | n + 1 => UInt8.ofNat word :: littleEndian (word / 256) n

/-- The number that bytes stand for, the lowest first. -/
def fromLittleEndian : List UInt8 → Nat
  | [] => 0
  | byte :: rest => byte.toNat + 256 * fromLittleEndian rest

/-- Draws bytes, eight from each 64-bit word; a rest of at most four comes from a 32-bit word. -/
def bytes (r : R) (count : Nat) : R × List UInt8 :=
  if count = 0 then (r, [])
  else if count ≤ 4 then
    let (r, word) := Source.next32 r
    (r, littleEndian word.toNat count)
  else
    let (r, word) := next64 r
    let (r', rest) := bytes r (count - 8)
    (r', littleEndian word.toNat (min count 8) ++ rest)
termination_by count

/-- Draws a number below the bound from words of the given width: the high half of the product
with the bound, with one correction from a second word where the low half is close to a carry. -/
def scaled (width : Nat) (draw : R → R × Nat) (bound : Nat) (r : R) : R × Nat :=
  let (r, x) := draw r
  let high := x * bound / Nat.pow 2 width
  let low := x * bound % Nat.pow 2 width
  if Nat.pow 2 width - bound < low then
    let (r, y) := draw r
    if Nat.pow 2 width ≤ low + y * bound / Nat.pow 2 width then (r, high + 1) else (r, high)
  else
    (r, high)

/-- Draws a number below the bound from 64-bit words. -/
def below64 (bound : Nat) (r : R) : R × Nat :=
  scaled 64 (fun r => let (r, word) := next64 r; (r, word.toNat)) bound r

/-- Draws a number below the bound from 32-bit words. -/
def below32 (bound : Nat) (r : R) : R × Nat :=
  scaled 32 (fun r => let (r, word) := Source.next32 r; (r, word.toNat)) bound r

/-- Draws an index below the count, from 32-bit words where the count fits in one. -/
def index (count : Nat) (r : R) : R × Nat :=
  if count < Nat.pow 2 32 then below32 count r else below64 count r

end IncrementalSat.Random
