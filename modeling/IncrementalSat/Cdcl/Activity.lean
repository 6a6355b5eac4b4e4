import IncrementalSat.Cdcl.Table

/-!
# Activity

Each atom has a score that is raised when the atom takes part in a conflict.  All scores decay
together because the step by which they are raised grows; when a score becomes too large, every
score and the step are scaled down.
-/

set_option autoImplicit false

namespace IncrementalSat.Cdcl

/-- The score of each atom and the step by which a score is raised. -/
structure Activity where
  scores : Array Float := #[]
  increment : Float := 1

namespace Activity

/-- The largest score that is not scaled down. -/
def ceiling : Float := 1e100

/-- Makes room for an atom. -/
def ensure (a : Activity) (atom : Nat) : Activity :=
  { a with scores := Table.extend a.scores (atom + 1) 0 }

/-- The score of an atom. -/
def score (a : Activity) (atom : Nat) : Float :=
  a.scores.getD atom 0

/-- Scales every score and the step down. -/
def rescale (a : Activity) : Activity :=
  { scores := a.scores.map (· / ceiling), increment := a.increment / ceiling }

/-- Raises the score of an atom. -/
def bump (a : Activity) (atom : Nat) : Activity :=
  let raised := { a with scores := a.scores.modify atom (· + a.increment) }
  if ceiling < raised.score atom then raised.rescale else raised

/-- Lets every score decay by a factor, per thousand. -/
def decay (a : Activity) (perMille : Int) : Activity :=
  { a with increment := a.increment * (1000 / Float.ofInt perMille) }

end Activity

end IncrementalSat.Cdcl
