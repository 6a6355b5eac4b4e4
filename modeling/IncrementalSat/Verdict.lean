/-!
# Verdicts

The outcome of a solve, with its written forms and its conventional number.
-/

set_option autoImplicit false

namespace IncrementalSat

/-- The outcome of a solve. -/
inductive Verdict
  | satisfiable
  /-- No valuation satisfies the formula together with the assumptions. -/
  | unsatisfiable
  /-- The solve stopped before an answer. -/
  | unknown
deriving DecidableEq

namespace Verdict

/-- The name of a verdict in records. -/
def name : Verdict → String
  | satisfiable => "Satisfiable"
  | unsatisfiable => "Unsatisfiable"
  | unknown => "Unknown"

/-- The verdict as it is announced. -/
def text : Verdict → String
  | satisfiable => "SATISFIABLE"
  | unsatisfiable => "UNSATISFIABLE"
  | unknown => "UNKNOWN"

/-- The number by which solvers report a verdict. -/
def number : Verdict → Nat
  | satisfiable => 10
  | unsatisfiable => 20
  | unknown => 0

end Verdict

end IncrementalSat
