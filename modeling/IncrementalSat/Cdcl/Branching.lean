import IncrementalSat.Cdcl.Solver

/-!
# Branching

A decision takes the open atom of the greatest activity, the first of several, or at times an open
atom found from a random place on.  Its polarity is the one saved for the atom, where saving is on
and there is one, and else the one given by the phase option.
-/

set_option autoImplicit false

namespace IncrementalSat.Cdcl

/-- The first open atom of the greatest activity. -/
def mostActive (t : Trail) (a : Activity) : Option Nat :=
  t.atoms.fold (fun atom _ best =>
    if (t.value atom).isSome then best
    else
      match best with
      | some leader => if a.score atom ≤ a.score leader then best else some atom
      | none => some atom) none

/-- The first open atom from a place on, going round. -/
def openFrom (t : Trail) (start : Nat) : Option Nat :=
  (List.range' start (t.atoms - start) ++ List.range start).find? fun atom => (t.value atom).isNone

namespace Solver

variable {R : Type}

/-- The literal by which an atom is decided. -/
def polarity (s : Solver R) (atom : Nat) : Literal :=
  let saved := if s.settings.phaseSaving.val = 0 then none else s.trail.saved atom
  { atom := atom, positive := saved.getD (s.settings.phase.val == 1) }

/-- Draws an open atom, with the chance that the settings give. -/
def drawAtom [Random.Source R] (s : Solver R) : R × Option Nat :=
  if 0 < s.settings.randomFrequency.val then
    let (random, chance) := Random.below64 1000 s.random
    if (chance : Int) < s.settings.randomFrequency.val then
      let (random, start) := Random.index s.atoms random
      (random, openFrom s.trail start)
    else (random, none)
  else (s.random, none)

/-- Chooses a literal to decide on; there is none only if every atom has a value. -/
def choose [Random.Source R] (s : Solver R) : Solver R × Option Literal × Array Event :=
  if s.trail.isComplete then (s, none, #[])
  else
    match s.drawAtom with
    | (random, some atom) =>
      ({ s with random := random }, some (s.polarity atom), #[.drawn atom])
    | (random, none) =>
      ({ s with random := random }, (mostActive s.trail s.activity).map s.polarity, #[])

end Solver

end IncrementalSat.Cdcl
