import IncrementalSat.Random.Source

/-!
# A permuted congruential generator

A 64-bit linear congruential state, whose upper bits are mixed by a shift and a rotation into each
32-bit word drawn.
-/

set_option autoImplicit false

namespace IncrementalSat.Random

/-- The state of the generator and the increment of its stream. -/
structure Pcg where
  state : UInt64
  /-- The number added at each step, odd in a generator made from a seed. -/
  increment : UInt64
deriving DecidableEq

namespace Pcg

/-- The factor of the congruential state. -/
def multiplier : UInt64 := 6364136223846793005

/-- The increment of a generator made from a seed. -/
def standardIncrement : UInt64 := 1442695040888963407

/-- The generator that has been given no seed. -/
def blank : Pcg := ⟨0, 0⟩

/-- A word rotated right, by an amount below its width. -/
def rotateRight (word amount : UInt32) : UInt32 :=
  (word >>> amount) ||| (word <<< (0 - amount))

/-- The word a congruential state yields: its upper bits, rotated by its topmost five. -/
def output (state : UInt64) : UInt32 :=
  rotateRight (((state >>> 18) ^^^ state) >>> 27).toUInt32 (state >>> 59).toUInt32

/-- The state after one step. -/
def step (state increment : UInt64) : UInt64 :=
  state * multiplier + increment

/-- Draws a word, made from the state before the step. -/
def next (g : Pcg) : Pcg × UInt32 :=
  ({ g with state := step g.state g.increment }, output g.state)

/-- The generator for a 64-bit seed word. -/
def ofWord (word : UInt64) : Pcg :=
  ⟨word + standardIncrement, standardIncrement⟩

/-- The generator for a seed of eight bytes, which write the seed word, the lowest first. -/
def ofBytes (seed : Vector UInt8 8) : Pcg :=
  ofWord (UInt64.ofNat (fromLittleEndian seed.toList))

/-- The generator for a seed number, spread over the seed word by two steps of a like generator
with an increment of its own. -/
def ofSeed (seed : UInt64) : Pcg :=
  let first := step seed 11634580027462260723
  let second := step first 11634580027462260723
  ofWord (((output second).toUInt64 <<< 32) ||| (output first).toUInt64)

instance : Source Pcg where
  ofSeed := ofSeed
  next32 := next

end Pcg

end IncrementalSat.Random
