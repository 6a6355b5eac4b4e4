import IncrementalSat.Cdcl.Checked.Search
import IncrementalSat.Session

/-!
# Checked reads

What a session shows of a solver, read by operations that can fail.  A read that is refused is
refused before the solver is reached, and a refusal is not a failure.
-/

set_option autoImplicit false

namespace IncrementalSat.Session

open Cdcl (Fault Solver)
open Cdcl.Checked (hasFailed maxAtom successor val)

variable {R : Type} (s : Session (Solver R))

/-- The value of a literal in the valuation found, none if the solver has no value for it. -/
def checkedValue (lit : Int32) : Except Fault (Except Refusal (Option Bool)) :=
  if isMalformed lit then return .error .invalidArgument
  else if s.stage ≠ .sat then return .error .invalidState
  else do
    let value ← val s.engine lit
    return .ok (if value = 0 then none else some (value == lit))

/-- Whether an assumption is among those behind the refutation. -/
def checkedFailed (lit : Int32) : Except Fault (Except Refusal Bool) :=
  if isMalformed lit then return .error .invalidArgument
  else if s.stage ≠ .unsat then return .error .invalidState
  else do
    let failed ← hasFailed s.engine lit
    return .ok failed

/-- The number of atoms of the valuation found. -/
def checkedAssignmentSize : Except Fault (Except Refusal Int32) :=
  if s.stage ≠ .sat then return .error .invalidState
  else do
    let size ← maxAtom s.engine
    return .ok size

/-- The literal of the atom at an index, counted from zero, that is true in the valuation found. -/
def checkedAssignment (index : Int32) : Except Fault (Except Refusal Int32) := do
  match ← checkedAssignmentSize s with
  | .error refusal => return .error refusal
  | .ok size =>
    if index < 0 ∨ size ≤ index then return .error .invalidArgument
    else
      let lit ← successor index
      let literal ← val s.engine lit
      return .ok literal

end IncrementalSat.Session
