/-!
# Stages of a session

A session starts in configuration, moves to input with the first literal, and to one of two final
stages with a verdict.  Stages are ranked, the two final ones alike, and the rank bounds how late
an option may be set.
-/

set_option autoImplicit false

namespace IncrementalSat

/-- The stage a session is in. -/
inductive Stage
  /-- Before any input. -/
  | config
  /-- Clauses and assumptions are being given. -/
  | input
  /-- The last solve found a satisfying valuation. -/
  | sat
  /-- The last solve showed that there is none. -/
  | unsat
deriving DecidableEq

namespace Stage

/-- The rank of a stage. -/
def rank : Stage → Nat
  | config => 0
  | input => 1
  | sat => 2
  | unsat => 2

/-- Whether a stage is not ranked above a ceiling. -/
def within (stage ceiling : Stage) : Bool :=
  decide (stage.rank ≤ ceiling.rank)

/-- The written form of a stage. -/
def text : Stage → String
  | config => "CONFIG"
  | input => "INPUT"
  | sat => "SAT"
  | unsat => "UNSAT"

/-- The number of a stage, different for the two final ones. -/
def number : Stage → Nat
  | config => 0
  | input => 1
  | sat => 2
  | unsat => 3

end Stage

end IncrementalSat
