import IncrementalSat.Cdcl.Activity
import IncrementalSat.Cdcl.ClauseStore
import IncrementalSat.Cdcl.Settings
import IncrementalSat.Cdcl.Trail
import IncrementalSat.Luby
import IncrementalSat.Random.Source

/-!
# The clause-learning solver

The state of the solver, and how clauses and assumptions enter it.  A clause is closed at level
zero: it is put in order without repetitions, dropped if it is satisfied whatever happens, and
freed of the literals that are false already.
-/

set_option autoImplicit false

namespace IncrementalSat.Cdcl

/-- Counts of what the search has done. -/
structure Counters where
  /-- The decisions of the present or last solve. -/
  decisions : Nat := 0
  /-- The conflicts of the present or last solve. -/
  conflicts : Nat := 0
  totalDecisions : Nat := 0
  totalConflicts : Nat := 0
  /-- The conflicts since the last restart. -/
  freshConflicts : Nat := 0
  restarts : Nat := 0
  solves : Nat := 0
  luby : Luby := Luby.start
deriving DecidableEq

/-- Limits on each solve. -/
structure Limits where
  decisions : Option Nat := none
  conflicts : Option Nat := none
deriving DecidableEq

/-- The state of a clause-learning solver over a source of randomness. -/
structure Solver (R : Type) where
  settings : Settings
  counters : Counters
  limits : Limits
  trail : Trail
  store : ClauseStore
  activity : Activity
  /-- Marks for the analysis of conflicts, one for each atom. -/
  seen : Array Bool
  /-- False once the clauses are known to have no model. -/
  consistent : Bool
  openClause : Array Literal
  assumptions : Array Literal
  /-- The valuation found by the last solve, empty if it found none. -/
  model : Array (Option Bool)
  failed : List Literal
  terminate : Option Terminate
  /-- The length up to which learnt clauses are exported, if they are. -/
  exportBound : Option Nat
  random : R

namespace Solver

variable {R : Type}

/-- A solver without clauses. -/
def ofSettings [Random.Source R] (settings : Settings) : Solver R where
  settings := settings
  counters := {}
  limits := {}
  trail := {}
  store := {}
  activity := {}
  seen := #[]
  consistent := true
  openClause := #[]
  assumptions := #[]
  model := #[]
  failed := []
  terminate := none
  exportBound := none
  random := Random.Source.ofSeed (UInt64.ofInt settings.seed.val)

/-- A solver without clauses, with the initial settings. -/
def initial [Random.Source R] : Solver R :=
  ofSettings {}

/-- Makes room for an atom. -/
def ensure (s : Solver R) (atom : Nat) : Solver R :=
  { s with
    trail := s.trail.ensure atom
    store := s.store.ensure atom
    activity := s.activity.ensure atom
    seen := Table.extend s.seen (atom + 1) false }

/-- The number of atoms. -/
def atoms (s : Solver R) : Nat :=
  s.trail.atoms

/-- Adds a clause to a solver at level zero. -/
def addClause (s : Solver R) (clause : List Literal) : Solver R × Array Event :=
  let literals := Literal.ordered clause
  if !s.consistent then (s, #[])
  else if Literal.hasComplement literals then (s, #[.tautologySkipped])
  else if literals.any fun l => s.trail.valueOf l == some true then (s, #[])
  else
    match literals.filter fun l => s.trail.valueOf l == none with
    | [] => ({ s with consistent := false }, #[.emptyClause])
    | [l] => ({ s with trail := s.trail.assign l none }, #[])
    | first :: second :: others =>
      ({ s with store := s.store.attach first second others false }, #[])

/-- Adds a literal to the open clause, or closes the clause on zero. -/
def add (s : Solver R) (lit : Int32) : Solver R × Array Event :=
  if lit = 0 then
    let clause := s.openClause.toList
    addClause { s with trail := s.trail.backjump 0, openClause := #[] } clause
  else
    let l := Literal.ofInteger lit
    let s := s.ensure l.atom
    ({ s with openClause := s.openClause.push l }, #[])

/-- Notes an assumption for the next solve. -/
def assume (s : Solver R) (lit : Int32) : Solver R :=
  let l := Literal.ofInteger lit
  let s := s.ensure l.atom
  { s with assumptions := s.assumptions.push l }

/-- The literal, its negation or zero, as the literal is true, false or open in the last
valuation. -/
def val (s : Solver R) (lit : Int32) : Int32 :=
  if lit = 0 then 0
  else
    let l := Literal.ofInteger lit
    match s.model.getD l.atom none with
    | some value => if value = l.positive then lit else -lit
    | none => 0

/-- Whether a literal is among the assumptions behind the last refutation. -/
def hasFailed (s : Solver R) (lit : Int32) : Bool :=
  lit != 0 && s.failed.contains (Literal.ofInteger lit)

/-- The largest atom given so far. -/
def maxAtom (s : Solver R) : Int32 :=
  Int32.ofNat s.atoms

/-- Sets the limit of the given kind, none if the value is negative. -/
def setLimit (s : Solver R) (kind : String) (value : Int) :
    Solver R × Except EngineRefusal Unit :=
  let bound := if value < 0 then none else some value.toNat
  if kind = "decisions" then
    ({ s with limits := { s.limits with decisions := bound } }, .ok ())
  else if kind = "conflicts" then
    ({ s with limits := { s.limits with conflicts := bound } }, .ok ())
  else (s, .error .unknownLimit)

/-- Setting a limit changes nothing but the limits. -/
theorem setLimit_eq (s : Solver R) (kind : String) (value : Int) :
    ∃ limits, (s.setLimit kind value).1 = { s with limits := limits } := by
  unfold setLimit
  dsimp only
  split
  · exact ⟨_, rfl⟩
  split
  · exact ⟨_, rfl⟩
  · exact ⟨s.limits, rfl⟩

/-- Sets an option; the source of randomness is made anew when its seed is set. -/
def setOption [Random.Source R] (s : Solver R) (name : String) (value : Int) :
    Solver R × Except EngineRefusal Unit :=
  match s.settings.write name value with
  | .error cause => (s, .error cause)
  | .ok settings =>
    let s := { s with settings := settings }
    if name = Setting.seed.entry.name then
      ({ s with random := Random.Source.ofSeed (UInt64.ofInt value) }, .ok ())
    else (s, .ok ())

/-- Setting an option changes nothing but the settings and the source of randomness. -/
theorem setOption_eq [Random.Source R] (s : Solver R) (name : String) (value : Int) :
    ∃ settings random,
      (s.setOption name value).1 = { s with settings := settings, random := random } := by
  unfold setOption
  split
  · exact ⟨s.settings, s.random, rfl⟩
  dsimp only
  split
  · exact ⟨_, _, rfl⟩
  · exact ⟨_, s.random, rfl⟩

end Solver

end IncrementalSat.Cdcl
