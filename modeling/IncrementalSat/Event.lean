import IncrementalSat.Literal
import IncrementalSat.Refusal
import IncrementalSat.Stage
import IncrementalSat.Verdict

/-!
# Events

What happens in the course of a call is kept as a list of events, in order.  Most events have a
record, a line for a log with a level and a topic; the polls of a terminate callback and the
clauses passed to an export or import callback are events without one.
-/

set_option autoImplicit false

namespace IncrementalSat

/-- Something that happened during a call. -/
inductive Event
  | sessionMade (signature : String)
  | moved (origin target : Stage)
  -- the next three were refused because a clause was open
  | clauseRefused
  | assumptionRefused (lit : Int32)
  | solveRefused
  /-- A problem line announced these counts. -/
  | expecting (atoms clauses : Nat)
  | formulaRead (clauses lines : Nat)
  | catalogBuilt (count : Nat)
  | optionUnknown (name : String)
  | optionLate (name : String) (stage : Stage)
  | optionSet (name : String) (value : Int)
  | optionDeclined (name : String) (value : Int) (cause : EngineRefusal)
  | terminateSet (given : Bool)
  | exportRefused (bound : Int32)
  | exportSet (given : Bool) (bound : Nat)
  | importDeclined (cause : EngineRefusal)
  | notifyDeclined (cause : EngineRefusal)
  /-- An added clause held a literal and its negation. -/
  | tautologySkipped
  /-- An added clause was false at level zero. -/
  | emptyClause
  /-- Propagation made the clause with this key false. -/
  | conflict (key : Nat)
  /-- A clause was learnt, from its asserted literal and the others. -/
  | learnt (asserted : Literal) (others : List Literal)
  /-- The assumptions behind a refutation were collected. -/
  | failedCollected (count : Nat)
  | conflictLimit
  | decisionLimit
  | polled
  | terminated
  | exported (clause : List Int32)
  | imported (clause : List Int32)
  /-- The search went back to level zero, for the time of this number. -/
  | restarted (number : Nat)
  /-- An atom was drawn for a decision. -/
  | drawn (atom : Nat)
  | decided (literal : Literal)
  /-- The valuation found was held against the added clauses. -/
  | checked (satisfied : Bool)
  | solved (number : Nat) (verdict : Verdict) (decisions conflicts : Nat)
deriving DecidableEq

/-- How much attention a record deserves. -/
inductive Severity
  | error
  | info
  | trace
deriving DecidableEq

/-- What a record is about. -/
inductive Topic
  | lifecycle
  | catalog
  | options
  | callbacks
  | propagation
  | analysis
  | decision
deriving DecidableEq

/-- The written form of a severity. -/
def Severity.text : Severity → String
  | error => "ERROR"
  | info => "INFO"
  | trace => "TRACE"

/-- The written form of a topic. -/
def Topic.text : Topic → String
  | lifecycle => "lifecycle"
  | catalog => "catalog"
  | options => "gateway"
  | callbacks => "bridge"
  | propagation => "propagation"
  | analysis => "analysis"
  | decision => "decision"

/-- A line for a log. -/
structure Record where
  severity : Severity
  topic : Topic
  text : String
deriving DecidableEq

namespace Event

/-- The record of an event, if it has one. -/
def record? : Event → Option Record
  | sessionMade signature => some ⟨.trace, .lifecycle, "Handle to " ++ signature⟩
  | moved origin target => some ⟨.trace, .lifecycle, origin.text ++ " -> " ++ target.text⟩
  | clauseRefused => some ⟨.info, .lifecycle, "Clause while a clause is open"⟩
  | assumptionRefused lit =>
    some ⟨.info, .lifecycle, s!"Assumption {lit.toInt} while a clause is open"⟩
  | solveRefused => some ⟨.info, .lifecycle, "Solve while a clause is open"⟩
  | expecting atoms clauses =>
    some ⟨.info, .lifecycle, s!"Expecting {atoms} atoms and {clauses} clauses"⟩
  | formulaRead clauses lines =>
    some ⟨.info, .lifecycle, s!"Read {clauses} clauses over {lines} lines"⟩
  | catalogBuilt count => some ⟨.trace, .catalog, s!"Built a catalog of {count} options"⟩
  | optionUnknown name => some ⟨.info, .options, "Unknown option " ++ name⟩
  | optionLate name stage =>
    some ⟨.info, .options, "Option " ++ name ++ " may not be set in state " ++ stage.text⟩
  | optionSet name value => some ⟨.trace, .options, "Set " ++ name ++ s!" to {value}"⟩
  | optionDeclined name value cause =>
    some ⟨.info, .options, s!"Engine refused {value} for " ++ name ++ ": " ++ cause.text⟩
  | terminateSet given => some ⟨.trace, .callbacks, s!"Terminate callback set: {given}"⟩
  | exportRefused bound => some ⟨.info, .callbacks, s!"Refused export bound {bound.toInt}"⟩
  | exportSet given bound =>
    some ⟨.trace, .callbacks, s!"Export callback set: {given}, bound {bound}"⟩
  | importDeclined cause => some ⟨.info, .callbacks, "Import refused: " ++ cause.text⟩
  | notifyDeclined cause => some ⟨.info, .callbacks, "Notify refused: " ++ cause.text⟩
  | tautologySkipped => some ⟨.trace, .propagation, "Skipped tautology"⟩
  | emptyClause => some ⟨.info, .propagation, "Empty clause"⟩
  | conflict key => some ⟨.trace, .propagation, s!"Conflict on clause {key}"⟩
  | learnt asserted others =>
    some ⟨.trace, .analysis,
      s!"Learnt clause of length {others.length + 1} asserting " ++ asserted.text⟩
  | failedCollected count => some ⟨.trace, .analysis, s!"Failed assumptions: {count}"⟩
  | conflictLimit => some ⟨.info, .analysis, "Conflict limit reached"⟩
  | decisionLimit => some ⟨.info, .decision, "Decision limit reached"⟩
  | polled => none
  | terminated => some ⟨.info, .decision, "Terminated by callback"⟩
  | exported _ => none
  | imported _ => none
  | restarted number => some ⟨.trace, .decision, s!"Restart {number}"⟩
  | drawn atom => some ⟨.trace, .decision, s!"Random decision on atom {atom + 1}"⟩
  | decided literal => some ⟨.trace, .decision, "Decision " ++ literal.text⟩
  | checked satisfied =>
    some (if satisfied then ⟨.info, .decision, "Valuation checked"⟩
      else ⟨.error, .decision, "Valuation fails to satisfy some clause"⟩)
  | solved number verdict decisions conflicts =>
    some ⟨.info, .decision,
      s!"Solve {number} ended " ++ verdict.name
        ++ s!" after {decisions} decisions and {conflicts} conflicts"⟩

/-- Whether an event is a poll of the terminate callback. -/
def isPoll : Event → Bool
  | polled => true
  | _ => false

/-- The clause that an event gave to the export callback. -/
def exported? : Event → Option (List Int32)
  | exported clause => some clause
  | _ => none

end Event

end IncrementalSat
