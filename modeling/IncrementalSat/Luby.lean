/-!
# The Luby sequence

The sequence 1, 1, 2, 1, 1, 2, 4, … that schedules restarts, made by two 32-bit words.  The first
counts how often the sequence has returned to one; the second is the current element, which is
doubled until it equals the lowest set bit of the first.
-/

set_option autoImplicit false

namespace IncrementalSat

/-- A position in the Luby sequence. -/
structure Luby where
  /-- How many times the sequence has been at one. -/
  turn : UInt32
  element : UInt32
deriving DecidableEq

namespace Luby

/-- The position at the first element. -/
def start : Luby := ⟨1, 1⟩

/-- The lowest set bit of a word, and zero of zero. -/
def lowestBit (w : UInt32) : UInt32 :=
  w &&& (0 - w)

/-- The next position, unless a word would overflow. -/
def advance? (l : Luby) : Option Luby :=
  if lowestBit l.turn = l.element then
    if l.turn.toNat + 1 < UInt32.size then some ⟨l.turn + 1, 1⟩ else none
  else
    if l.element.toNat + l.element.toNat < UInt32.size then
      some ⟨l.turn, l.element + l.element⟩
    else none

/-- The next position, or the same one where the sequence is exhausted. -/
def advance (l : Luby) : Luby :=
  l.advance?.getD l

/-- The position after a number of moves. -/
def advanceBy : Nat → Luby → Luby
  | 0, l => l
  | n + 1, l => advanceBy n l.advance

end Luby

end IncrementalSat
