import IncrementalSat.Cdcl.Search
import IncrementalSat.Random.Pcg
import IncrementalSat.Session

/-!
# The reference solver

The clause-learning solver with the permuted congruential generator, which sessions use unless they
are given another engine.
-/

set_option autoImplicit false

namespace IncrementalSat

/-- The clause-learning solver with its usual source of randomness. -/
abbrev ReferenceSolver : Type :=
  Cdcl.Solver Random.Pcg

/-- A session for a reference solver without clauses. -/
def Session.reference : Session ReferenceSolver :=
  Session.ofEngine Cdcl.Solver.initial

end IncrementalSat
