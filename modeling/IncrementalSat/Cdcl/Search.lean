import IncrementalSat.Cdcl.Branching
import IncrementalSat.Cdcl.Conflict
import IncrementalSat.Cdcl.Propagation

/-!
# The search

A turn of the search polls the terminate callback, propagates, and then learns from a conflict,
opens a level for the next assumption, or makes a decision.  The search repeats turns until one
gives a verdict.  The number of turns is bounded beforehand: each conflict adds a clause over the
atoms that was not there, and between two conflicts every turn gives some open atom a value.
-/

set_option autoImplicit false

namespace IncrementalSat.Cdcl

/-- What a turn of the search leaves behind, with the verdict if it ended the search. -/
structure Turn (R : Type) where
  solver : Solver R
  verdict : Option Verdict
  events : Array Event

/-- How the assumptions stand once those that hold have a level. -/
inductive Standing
  /-- All have a level. -/
  | settled
  /-- The next one is open. -/
  | undecided (assumption : Literal)
  /-- The next one is false. -/
  | refuted (assumption : Literal)
deriving DecidableEq

/-- Opens an empty level for each of the next assumptions that hold already. -/
def skipHolding (t : Trail) : List Literal → Trail × Standing
  | [] => (t, .settled)
  | a :: rest =>
    match t.valueOf a with
    | some true => skipHolding t.pushLevel rest
    | some false => (t, .refuted a)
    | none => (t, .undecided a)

namespace Solver

variable {R : Type}

/-- Asks the terminate callback, if there is one, whether to stop. -/
def poll (s : Solver R) : Solver R × Option Bool :=
  match s.terminate with
  | none => (s, none)
  | some t =>
    let (t, stop) := t.poll
    ({ s with terminate := some t }, some stop)

/-- Whether a limit leaves no room above a count. -/
def exhausted (limit : Option Nat) (count : Nat) : Bool :=
  match limit with
  | none => false
  | some bound => decide (bound ≤ count)

/-- Whether the schedule asks for a restart. -/
def restartDue (s : Solver R) : Bool :=
  s.settings.restart.val != 0 &&
    decide (s.counters.luby.element.toNat * s.settings.restartInterval.val.toNat
      ≤ s.counters.freshConflicts)

/-- Goes back to level zero if the schedule asks for it. -/
def restartIfDue (s : Solver R) : Solver R × Array Event :=
  if s.restartDue then
    let restarts := s.counters.restarts + 1
    ({ s with
        counters :=
          { s.counters with
            luby := s.counters.luby.advance
            freshConflicts := 0
            restarts := restarts }
        trail := s.trail.backjump 0 },
      #[.restarted restarts])
  else (s, #[])

/-- Backjumps from a conflict, stores the clause learnt from it, and makes its asserted literal
true. -/
def assertLearnt (s : Solver R) (learnt : Lemma) : Solver R :=
  let trail := s.trail.backjump learnt.level
  match learnt.others with
  | [] => { s with trail := trail.assign learnt.asserted none }
  | second :: others =>
    { s with
      trail := trail.assign learnt.asserted (some s.store.nextKey)
      store := s.store.attach learnt.asserted second others true }

/-- The event that gives a learnt clause to the export callback, if the clause is short enough. -/
def exportEvents (s : Solver R) (learnt : Lemma) : Array Event :=
  match s.exportBound with
  | none => #[]
  | some bound =>
    if learnt.literals.length ≤ bound then
      #[.exported (learnt.literals.map Literal.toInteger)]
    else #[]

/-- Counts a conflict above level zero, learns from it and backjumps. -/
def learnFrom (s : Solver R) (key : Nat) : Option (Solver R × Array Event) :=
  (analyze? s.trail s.store s.seen s.activity key).map fun analysis =>
    let learnt := analysis.learnt
    let counters :=
      { s.counters with
        conflicts := s.counters.conflicts + 1
        totalConflicts := s.counters.totalConflicts + 1
        freshConflicts := s.counters.freshConflicts + 1 }
    let events := #[.learnt learnt.asserted learnt.others] ++ s.exportEvents learnt
    let s := assertLearnt { s with counters := counters, seen := analysis.seen } learnt
    let (s, restartEvents) :=
      restartIfDue { s with activity := analysis.activity.decay s.settings.decay.val }
    (s, events ++ restartEvents)

/-- Answers a clause found false by propagation. -/
def onConflict (s : Solver R) (key : Nat) : Option (Turn R) :=
  if s.trail.level = 0 then
    some ⟨{ s with consistent := false }, some .unsatisfiable, #[.conflict key]⟩
  else if exhausted s.limits.conflicts s.counters.conflicts then
    some ⟨s, some .unknown, #[.conflict key, .conflictLimit]⟩
  else
    (s.learnFrom key).map fun (s, events) => ⟨s, none, #[.conflict key] ++ events⟩

/-- Whether every added clause has a literal that is true in the valuation found. -/
def modelSatisfies (s : Solver R) : Bool :=
  s.store.clauses.all fun c =>
    c.learnt || c.literals.any fun l => s.model.getD l.atom none == some l.positive

/-- Ends the search with the present valuation. -/
def foundModel (s : Solver R) : Turn R :=
  let s := { s with model := s.trail.slots.map fun slot => slot.current.map (·.value) }
  ⟨s, some .satisfiable, if s.settings.check.val = 0 then #[] else #[.checked s.modelSatisfies]⟩

/-- Decides on a literal, or ends the search if every atom has a value. -/
def makeDecision [Random.Source R] (s : Solver R) : Turn R :=
  match s.choose with
  | (s, none, _) => s.foundModel
  | (s, some l, events) =>
    if exhausted s.limits.decisions s.counters.decisions then
      ⟨s, some .unknown, events.push .decisionLimit⟩
    else
      let counters :=
        { s.counters with
          decisions := s.counters.decisions + 1
          totalDecisions := s.counters.totalDecisions + 1 }
      ⟨{ s with counters := counters, trail := s.trail.pushLevel.assign l none }, none,
        events.push (.decided l)⟩

/-- Ends the search with the assumptions behind a false one. -/
def refute (s : Solver R) (assumption : Literal) : Turn R :=
  let (explanation, walked) := explain s.trail s.store s.seen assumption
  ⟨{ s with seen := explanation.seen, failed := explanation.failed }, some .unsatisfiable,
    if walked then #[.failedCollected explanation.failed.length] else #[]⟩

/-- Goes on from a valuation without a conflict: to the next assumption, or to a decision. -/
def onFixpoint [Random.Source R] (s : Solver R) (assumptions : List Literal) : Turn R :=
  match skipHolding s.trail (assumptions.drop s.trail.level) with
  | (trail, .settled) => makeDecision { s with trail := trail }
  | (trail, .undecided a) => ⟨{ s with trail := trail.pushLevel.assign a none }, none, #[]⟩
  | (trail, .refuted a) => refute { s with trail := trail } a

/-- Propagates and answers the result. -/
def advance [Random.Source R] (s : Solver R) (assumptions : List Literal) : Option (Turn R) :=
  let (trail, store, conflict) := propagate s.trail s.store
  let s := { s with trail := trail, store := store }
  match conflict with
  | some key => s.onConflict key
  | none => some (s.onFixpoint assumptions)

/-- A turn of the search.  There is none only if a conflict cannot be analyzed. -/
def turn [Random.Source R] (s : Solver R) (assumptions : List Literal) : Option (Turn R) :=
  match s.poll with
  | (s, none) => s.advance assumptions
  | (s, some true) => some ⟨s, some .unknown, #[.polled, .terminated]⟩
  | (s, some false) =>
    (s.advance assumptions).map fun t => { t with events := #[.polled] ++ t.events }

/-- Repeats turns, as often as the fuel allows, until one ends the search. -/
def turns [Random.Source R] (assumptions : List Literal) :
    Nat → Array Event → Solver R → Option (Solved (Solver R))
  | 0, _, _ => none
  | fuel + 1, events, s =>
    match s.turn assumptions with
    | none => none
    | some ⟨s, some verdict, more⟩ => some ⟨s, verdict, events ++ more⟩
    | some ⟨s, none, more⟩ => turns assumptions fuel (events ++ more) s

/-- A bound on the turns of a search over a number of atoms: one conflict for each clause that does
not hold a literal with its negation, and a turn for each atom between two conflicts. -/
def turnBound (atoms : Nat) : Nat :=
  (Nat.pow 3 atoms + 1) * (atoms + 2)

/-- Searches for a valuation of the clauses under assumptions. -/
def search? [Random.Source R] (s : Solver R) (assumptions : List Literal) :
    Option (Solved (Solver R)) :=
  if s.consistent then turns assumptions (turnBound s.atoms) #[] s
  else some ⟨s, .unsatisfiable, #[]⟩

/-- The solver with the answers of the last solve forgotten and a new solve counted. -/
def beginSolve (s : Solver R) : Solver R :=
  { s with
    assumptions := #[]
    model := #[]
    failed := []
    counters :=
      { s.counters with decisions := 0, conflicts := 0, solves := s.counters.solves + 1 }
    trail := s.trail.backjump 0 }

/-- Solves under the noted assumptions, which are forgotten, and goes back to level zero. -/
def solve [Random.Source R] (s : Solver R) : Solved (Solver R) :=
  let assumptions := s.assumptions.toList
  let s := s.beginSolve
  let result := (s.search? assumptions).getD ⟨s, .unknown, #[]⟩
  let s := { result.engine with trail := result.engine.trail.backjump 0 }
  ⟨s, result.verdict,
    result.events.push
      (.solved s.counters.solves result.verdict s.counters.decisions s.counters.conflicts)⟩

end Solver

/-- The version announced by the clause-learning solver. -/
def signature : String :=
  "ipasir2_adapter-cdcl-0.1.0"

instance {R : Type} [Random.Source R] : Engine (Solver R) where
  signature _ := signature
  options _ := registry
  setOption := Solver.setOption
  getOption s := s.settings.lookup
  limit := Solver.setLimit
  add := Solver.add
  assume := Solver.assume
  solve := Solver.solve
  val := Solver.val
  failed := Solver.hasFailed
  maxAtom := Solver.maxAtom
  setTerminate s callback := { s with terminate := callback }
  setLearn s bound given := { s with exportBound := if given then some bound else none }
  setImport s _ := (s, .error .unsupported)
  setNotify s _ := (s, .error .unsupported)
  offersImport _ := false
  offersNotify _ := false

end IncrementalSat.Cdcl
