import IncrementalSat.OptionCatalog

/-!
# Sessions

A session owns one engine and checks each call against the stage it is in before the engine is
reached.  A call that is refused leaves the engine, the stage and the openness of a clause as they
were.  Everything that happens is noted in the journal of the session, in order.
-/

set_option autoImplicit false

namespace IncrementalSat

/-- An engine with the stage of the protocol it is in. -/
structure Session (E : Type) where
  engine : E
  stage : Stage
  /-- Whether a literal has been added since the last clause was closed. -/
  clauseOpen : Bool
  journal : Array Event

/-- The places where a client can register a callback. -/
inductive Hook
  | terminate
  | exported
  | imported
  | notify
deriving DecidableEq

/-- Whether an integer never stands for a literal. -/
def isMalformed (lit : Int32) : Bool :=
  lit == 0 || lit == Int32.minValue

namespace Session

variable {E : Type} [Engine E]

/-- A session for an engine, in configuration. -/
def ofEngine (engine : E) : Session E where
  engine := engine
  stage := .config
  clauseOpen := false
  journal := #[.sessionMade (Engine.signature engine)]

/-- The signature of the engine. -/
def signature (s : Session E) : String :=
  Engine.signature s.engine

omit [Engine E] in
/-- Notes events in the journal. -/
def note (s : Session E) (events : Array Event) : Session E :=
  { s with journal := s.journal ++ events }

omit [Engine E] in
/-- Moves to a stage. -/
def moveTo (s : Session E) (stage : Stage) : Session E :=
  if s.stage = stage then s
  else { s with stage := stage, journal := s.journal.push (.moved s.stage stage) }

/-- The catalog of the options that can be set. -/
def catalog (s : Session E) : Session E × Catalog :=
  let catalog := Catalog.build s.engine
  (s.note #[.catalogBuilt catalog.size], catalog)

/-- The option of the given name. -/
def option (s : Session E) (name : String) : Except Refusal Descriptor :=
  match Catalog.lookup s.engine name with
  | some (descriptor, _) => .ok descriptor
  | none => .error .unsupportedOption

/-- Sets an option or a limit; the index must be zero, as no option is indexed. -/
def setOption (s : Session E) (name : String) (value index : Int) :
    Session E × Except Refusal Unit :=
  let (engine, result, events) := writeOption s.engine s.stage name value index
  (note { s with engine := engine } events, result)

/-- Gives a literal, or the zero that closes a clause, to the engine. -/
def push (s : Session E) (lit : Int32) : Session E :=
  let s := s.moveTo .input
  let (engine, events) := Engine.add s.engine lit
  note { s with engine := engine, clauseOpen := lit != 0 } events

/-- Adds a literal to the open clause, or closes the clause on zero. -/
def add (s : Session E) (lit : Int32) : Session E × Except Refusal Unit :=
  if lit = Int32.minValue then (s, .error .invalidArgument)
  else (s.push lit, .ok ())

/-- Adds a whole clause, unless some member is no literal or a clause is open. -/
def addClause (s : Session E) (clause : List Int32) : Session E × Except Refusal Unit :=
  if clause.any isMalformed then (s, .error .invalidArgument)
  else if s.clauseOpen then (s.note #[.clauseRefused], .error .invalidState)
  else ((clause.foldl push s).push 0, .ok ())

/-- Assumes a literal for the next solve. -/
def assume (s : Session E) (lit : Int32) : Session E × Except Refusal Unit :=
  if isMalformed lit then (s, .error .invalidArgument)
  else if s.clauseOpen then (s.note #[.assumptionRefused lit], .error .invalidState)
  else
    let s := s.moveTo .input
    ({ s with engine := Engine.assume s.engine lit }, .ok ())

/-- The stage that a verdict leads to. -/
def stageAfter : Verdict → Stage
  | .satisfiable => .sat
  | .unsatisfiable => .unsat
  | .unknown => .input

/-- Solves under the assumptions made since the last solve. -/
def solve (s : Session E) : Session E × Except Refusal Verdict :=
  if s.stage = .config then (s, .error .invalidState)
  else if s.clauseOpen then (s.note #[.solveRefused], .error .invalidState)
  else
    let solved := Engine.solve s.engine
    let s := note { s with engine := solved.engine } solved.events
    (s.moveTo (stageAfter solved.verdict), .ok solved.verdict)

/-- The value of a literal in the valuation found, none if the engine has no value for it. -/
def value (s : Session E) (lit : Int32) : Except Refusal (Option Bool) :=
  if isMalformed lit then .error .invalidArgument
  else if s.stage ≠ .sat then .error .invalidState
  else
    let value := Engine.val s.engine lit
    .ok (if value = 0 then none else some (value == lit))

/-- Whether an assumption is among those behind the refutation. -/
def failed (s : Session E) (lit : Int32) : Except Refusal Bool :=
  if isMalformed lit then .error .invalidArgument
  else if s.stage ≠ .unsat then .error .invalidState
  else .ok (Engine.failed s.engine lit)

/-- The number of atoms of the valuation found. -/
def assignmentSize (s : Session E) : Except Refusal Int32 :=
  if s.stage ≠ .sat then .error .invalidState
  else .ok (Engine.maxAtom s.engine)

/-- The literal of the atom at an index, counted from zero, that is true in the valuation found. -/
def assignment (s : Session E) (index : Int32) : Except Refusal Int32 :=
  match s.assignmentSize with
  | .error refusal => .error refusal
  | .ok size =>
    if index < 0 ∨ size ≤ index then .error .invalidArgument
    else .ok (Engine.val s.engine (index + 1))

/-- Whether the engine supports a hook. -/
def supports (s : Session E) : Hook → Bool
  | .terminate => true
  | .exported => true
  | .imported => Engine.offersImport s.engine
  | .notify => Engine.offersNotify s.engine

/-- Sets or clears the terminate callback. -/
def setTerminate (s : Session E) (callback : Option Terminate) :
    Session E × Except Refusal Unit :=
  let s := s.note #[.terminateSet callback.isSome]
  ({ s with engine := Engine.setTerminate s.engine callback }, .ok ())

/-- Sets or clears the callback that is given each learnt clause up to a length. -/
def setExport (s : Session E) (bound : Int32) (given : Bool) : Session E × Except Refusal Unit :=
  if bound < 0 then (s.note #[.exportRefused bound], .error .unsupportedArgument)
  else
    let s := s.note #[.exportSet given bound.toInt.toNat]
    ({ s with engine := Engine.setLearn s.engine bound.toInt.toNat given }, .ok ())

/-- Sets or clears the callback that offers clauses, if the engine takes one. -/
def setImport (s : Session E) (offers : Option (List (List Int32))) :
    Session E × Except Refusal Unit :=
  match Engine.setImport s.engine offers with
  | (engine, .ok ()) => ({ s with engine := engine }, .ok ())
  | (engine, .error cause) =>
    (note { s with engine := engine } #[.importDeclined cause], .error cause.refusal)

/-- Sets or clears the callback that is told of assignments, if the engine takes one. -/
def setNotify (s : Session E) (given : Bool) : Session E × Except Refusal Unit :=
  match Engine.setNotify s.engine given with
  | (engine, .ok ()) => ({ s with engine := engine }, .ok ())
  | (engine, .error cause) =>
    (note { s with engine := engine } #[.notifyDeclined cause], .error cause.refusal)

end Session

end IncrementalSat
