import IncrementalSat.Cdcl.Checked.Conflict
import IncrementalSat.Cdcl.Search
import IncrementalSat.Engine.Request

/-!
# The checked solver

The search, and the requests by which clauses and assumptions enter a solver, over operations that
can fail.  The integers of literals are made where they are exported or told to an observer, and
the literals of integers where a client gives them.
-/

set_option autoImplicit false

namespace IncrementalSat.Cdcl.Checked

/-! ## Decisions -/

/-- The better of a leader and an atom: the atom, if it is open and there is no leader of at least
its activity. -/
def better (t : Trail) (a : Activity) (best : Option Nat) (atom : Nat) :
    Except Fault (Option Nat) := do
  if (← value t atom).isSome then return best
  else
    match best with
    | some leader =>
      let own ← score a atom
      let top ← score a leader
      return if own ≤ top then best else some atom
    | none => return some atom

/-- The first open atom of the greatest activity. -/
def mostActive (t : Trail) (a : Activity) : Except Fault (Option Nat) :=
  (List.range t.atoms).foldlM (better t a) none

/-- The first open atom from a place on, going round. -/
def openFrom (t : Trail) (start : Nat) : Except Fault (Option Nat) :=
  (List.range' start (t.atoms - start) ++ List.range start).findM? fun atom => do
    return (← value t atom).isNone

section Search

variable {R : Type} [Random.Source R]

omit [Random.Source R] in
/-- The literal by which an atom is decided. -/
def polarity (s : Solver R) (atom : Nat) : Except Fault Literal := do
  let saved ← if s.settings.phaseSaving.val = 0 then .ok none else saved s.trail atom
  encode atom (saved.getD (s.settings.phase.val == 1))

/-- Draws an open atom, with the chance that the settings give. -/
def drawAtom (s : Solver R) : Except Fault (R × Option Nat) :=
  if 0 < s.settings.randomFrequency.val then do
    let (random, chance) ← drawBelow Random.below64 1000 s.random
    if (chance : Int) < s.settings.randomFrequency.val then
      let (random, start) ← drawBelow Random.index s.atoms random
      let drawn ← openFrom s.trail start
      return (random, drawn)
    else return (random, none)
  else return (s.random, none)

/-- Chooses a literal to decide on; there is none only if every atom has a value. -/
def choose (s : Solver R) : Except Fault (Solver R × Option Literal × Array Event) :=
  if s.trail.isComplete then return (s, none, #[])
  else do
    let (random, drawn) ← drawAtom s
    match drawn with
    | some atom =>
      let decision ← polarity s atom
      return ({ s with random := random }, some decision, #[.drawn atom])
    | none =>
      match ← mostActive s.trail s.activity with
      | some atom =>
        let decision ← polarity s atom
        return ({ s with random := random }, some decision, #[])
      | none => return ({ s with random := random }, none, #[])

/-- Opens an empty level for each of the next assumptions that hold already. -/
def skipHolding (t : Trail) : List Literal → Except Fault (Trail × Standing)
  | [] => return (t, .settled)
  | a :: rest => do
    match ← valueOf t a with
    | some true => skipHolding t.pushLevel rest
    | some false => return (t, .refuted a)
    | none => return (t, .undecided a)

/-! ## Conflicts -/

omit [Random.Source R] in
/-- Goes back to level zero if the schedule asks for it. -/
def restartIfDue (s : Solver R) : Except Fault (Solver R × Array Event) :=
  if s.restartDue then do
    let restarts := s.counters.restarts + 1
    let trail ← backjump s.trail 0
    return ({ s with
        counters :=
          { s.counters with
            luby := s.counters.luby.advance
            freshConflicts := 0
            restarts := restarts }
        trail := trail },
      #[.restarted restarts])
  else return (s, #[])

omit [Random.Source R] in
/-- Backjumps from a conflict, stores the clause learnt from it, and makes its asserted literal
true. -/
def assertLearnt (s : Solver R) (learnt : Lemma) : Except Fault (Solver R) := do
  let trail ← backjump s.trail learnt.level
  match learnt.others with
  | [] =>
    let trail ← assign trail learnt.asserted none
    return { s with trail := trail }
  | _ :: _ =>
    let store ← attach s.store learnt.literals true
    let trail ← assign trail learnt.asserted (some s.store.nextKey)
    return { s with trail := trail, store := store }

omit [Random.Source R] in
/-- The event that gives a learnt clause to the export callback, if the clause is short enough. -/
def exportEvents (s : Solver R) (learnt : Lemma) : Except Fault (Array Event) :=
  match s.exportBound with
  | none => return #[]
  | some bound =>
    if learnt.literals.length ≤ bound then do
      let clause ← learnt.literals.mapM toInteger
      return #[.exported clause]
    else return #[]

omit [Random.Source R] in
/-- Counts a conflict above level zero, learns from it and backjumps. -/
def learnFrom (s : Solver R) (key : Nat) : Except Fault (Solver R × Array Event) := do
  let analysis ← analyze s.trail s.store s.seen s.activity key
  let learnt := analysis.learnt
  let counters :=
    { s.counters with
      conflicts := s.counters.conflicts + 1
      totalConflicts := s.counters.totalConflicts + 1
      freshConflicts := s.counters.freshConflicts + 1 }
  let _ ← toInteger learnt.asserted
  let exported ← exportEvents s learnt
  let asserted ← assertLearnt { s with counters := counters, seen := analysis.seen } learnt
  let (restarted, restartEvents) ← restartIfDue
    { asserted with activity := analysis.activity.decay asserted.settings.decay.val }
  return (restarted, #[.learnt learnt.asserted learnt.others] ++ exported ++ restartEvents)

omit [Random.Source R] in
/-- Answers a clause found false by propagation. -/
def onConflict (s : Solver R) (key : Nat) : Except Fault (Turn R) :=
  if s.trail.level = 0 then
    return ⟨{ s with consistent := false }, some .unsatisfiable, #[.conflict key]⟩
  else if Solver.exhausted s.limits.conflicts s.counters.conflicts then
    return ⟨s, some .unknown, #[.conflict key, .conflictLimit]⟩
  else do
    let (learnt, events) ← learnFrom s key
    return ⟨learnt, none, #[.conflict key] ++ events⟩

/-! ## Fixpoints -/

omit [Random.Source R] in
/-- Whether every added clause has a literal that is true in the valuation found. -/
def modelSatisfies (s : Solver R) : Except Fault Bool :=
  s.store.clauses.toList.allM fun c =>
    if c.learnt then return true
    else c.literals.anyM fun l => do
      return (← fetch s.model l.atom) == some l.positive

omit [Random.Source R] in
/-- Ends the search with the present valuation. -/
def foundModel (s : Solver R) : Except Fault (Turn R) := do
  let model ← (List.range s.atoms).mapM (value s.trail)
  let recorded := { s with model := model.toArray }
  if s.settings.check.val = 0 then return ⟨recorded, some .satisfiable, #[]⟩
  else
    let satisfied ← modelSatisfies recorded
    return ⟨recorded, some .satisfiable, #[.checked satisfied]⟩

/-- Decides on a literal, or ends the search if every atom has a value. -/
def makeDecision (s : Solver R) : Except Fault (Turn R) := do
  match ← choose s with
  | (s, none, _) => foundModel s
  | (s, some l, events) =>
    if Solver.exhausted s.limits.decisions s.counters.decisions then
      return ⟨s, some .unknown, events.push .decisionLimit⟩
    else
      let counters :=
        { s.counters with
          decisions := s.counters.decisions + 1
          totalDecisions := s.counters.totalDecisions + 1 }
      let _ ← toInteger l
      let trail ← assign s.trail.pushLevel l none
      return ⟨{ s with counters := counters, trail := trail }, none, events.push (.decided l)⟩

omit [Random.Source R] in
/-- Ends the search with the assumptions behind a false one. -/
def refute (s : Solver R) (assumption : Literal) : Except Fault (Turn R) := do
  let (explanation, walked) ← explain s.trail s.store s.seen assumption
  return ⟨{ s with seen := explanation.seen, failed := explanation.failed },
    some .unsatisfiable,
    if walked then #[.failedCollected explanation.failed.length] else #[]⟩

/-- Goes on from a valuation without a conflict: to the next assumption, or to a decision. -/
def onFixpoint (s : Solver R) (assumptions : List Literal) : Except Fault (Turn R) := do
  match ← skipHolding s.trail (assumptions.drop s.trail.level) with
  | (trail, .settled) => makeDecision { s with trail := trail }
  | (trail, .undecided a) =>
    let trail ← assign trail.pushLevel a none
    return ⟨{ s with trail := trail }, none, #[]⟩
  | (trail, .refuted a) => refute { s with trail := trail } a

/-! ## Turns and solves -/

/-- Propagates and answers the result. -/
def advance (s : Solver R) (assumptions : List Literal) : Except Fault (Turn R) := do
  let (trail, store, conflict) ← propagate s.trail s.store
  let propagated := { s with trail := trail, store := store }
  match conflict with
  | some key => onConflict propagated key
  | none => onFixpoint propagated assumptions

/-- A turn of the search. -/
def turn (s : Solver R) (assumptions : List Literal) : Except Fault (Turn R) :=
  match s.poll with
  | (s, none) => advance s assumptions
  | (s, some true) => return ⟨s, some .unknown, #[.polled, .terminated]⟩
  | (s, some false) => do
    let t ← advance s assumptions
    return { t with events := #[.polled] ++ t.events }

/-- Repeats turns, as often as the fuel allows, until one ends the search. -/
def turns (assumptions : List Literal) :
    Nat → Array Event → Solver R → Except Fault (Solved (Solver R))
  | 0, _, _ => .error .unfinished
  | fuel + 1, events, s => do
    match ← turn s assumptions with
    | ⟨s, some verdict, more⟩ => return ⟨s, verdict, events ++ more⟩
    | ⟨s, none, more⟩ => turns assumptions fuel (events ++ more) s

/-- Searches for a valuation of the clauses under assumptions. -/
def search (s : Solver R) (assumptions : List Literal) : Except Fault (Solved (Solver R)) :=
  if s.consistent then turns assumptions (Solver.turnBound s.atoms) #[] s
  else return ⟨s, .unsatisfiable, #[]⟩

omit [Random.Source R] in
/-- The solver with the answers of the last solve forgotten and a new solve counted. -/
def beginSolve (s : Solver R) : Except Fault (Solver R) := do
  let trail ← backjump s.trail 0
  return { s with
    assumptions := #[]
    model := #[]
    failed := []
    counters :=
      { s.counters with decisions := 0, conflicts := 0, solves := s.counters.solves + 1 }
    trail := trail }

/-- Solves under the noted assumptions, which are forgotten, and goes back to level zero. -/
def solve (s : Solver R) : Except Fault (Solved (Solver R)) := do
  let begun ← beginSolve s
  let result ← search begun s.assumptions.toList
  let trail ← backjump result.engine.trail 0
  let rested := { result.engine with trail := trail }
  return ⟨rested, result.verdict,
    result.events.push
      (.solved rested.counters.solves result.verdict rested.counters.decisions
        rested.counters.conflicts)⟩

end Search

/-! ## Clauses, assumptions and answers -/

section Requests

variable {R : Type}

/-- Adds a clause to a solver at level zero. -/
def addClause (s : Solver R) (clause : List Literal) : Except Fault (Solver R × Array Event) :=
  let literals := Literal.ordered clause
  if !s.consistent then return (s, #[])
  else if Literal.hasComplement literals then return (s, #[.tautologySkipped])
  else do
    if ← literals.anyM fun l => do return (← valueOf s.trail l) == some true then return (s, #[])
    else
      match ← select (fun l => do return (← valueOf s.trail l) == none) literals with
      | [] => return ({ s with consistent := false }, #[.emptyClause])
      | [l] =>
        let trail ← assign s.trail l none
        return ({ s with trail := trail }, #[])
      | remaining =>
        let store ← attach s.store remaining false
        return ({ s with store := store }, #[])

/-- Adds a literal to the open clause, or closes the clause on zero. -/
def add (s : Solver R) (lit : Int32) : Except Fault (Solver R × Array Event) :=
  if lit = 0 then do
    let trail ← backjump s.trail 0
    addClause { s with trail := trail, openClause := #[] } s.openClause.toList
  else do
    let l ← ofInteger lit
    let s := s.ensure l.atom
    return ({ s with openClause := s.openClause.push l }, #[])

/-- Notes an assumption for the next solve. -/
def assume (s : Solver R) (lit : Int32) : Except Fault (Solver R) := do
  let l ← ofInteger lit
  let s := s.ensure l.atom
  return { s with assumptions := s.assumptions.push l }

/-- The literal, its negation or zero, as the literal is true, false or open in the last
valuation. -/
def val (s : Solver R) (lit : Int32) : Except Fault Int32 :=
  if lit = 0 then return 0
  else do
    let l ← ofInteger lit
    match s.model.getD l.atom none with
    | some value => if value = l.positive then return lit else opposite lit
    | none => return 0

/-- Whether a literal is among the assumptions behind the last refutation. -/
def hasFailed (s : Solver R) (lit : Int32) : Except Fault Bool :=
  if lit = 0 then return false
  else do
    let l ← ofInteger lit
    return s.failed.contains l

/-- The largest atom given so far. -/
def maxAtom (s : Solver R) : Except Fault Int32 := do
  require (s.atoms < Nat.pow 2 31) .overflow
  return s.maxAtom

/-- The solver after a request; those not concerned with clauses, assumptions or solves do nothing
that can fail. -/
def serve [Random.Source R] (s : Solver R) : Engine.Request → Except Fault (Solver R)
  | .add lit => do
    let (s, _) ← add s lit
    return s
  | .assume lit => assume s lit
  | .solve => do
    let solved ← solve s
    return solved.engine
  | request => return Engine.serve s request

/-- The solver after requests, one after another, up to the first fault. -/
def serveAll [Random.Source R] (s : Solver R) (requests : List Engine.Request) :
    Except Fault (Solver R) :=
  requests.foldlM serve s

end Requests

end IncrementalSat.Cdcl.Checked
