import IncrementalSat.Reference
import IncrementalSat.Text.Lines

/-!
# The binding for foreign callers

A foreign caller holds sessions in numbered places, and a place without one stands for a null
handle.  Each call answers with the number of a result, and writes what it yields only if it
succeeds and the caller has given room for it.
-/

set_option autoImplicit false

namespace IncrementalSat.Binding

/-- A place for a session, empty for a null handle. -/
abbrev Place : Type :=
  Option (Session ReferenceSolver)

/-- A row of the table of options, whose last row has no name. -/
structure Row where
  name : Option String
  min : Int
  max : Int
  maxStage : Nat
  tunable : Bool
  indexed : Bool
deriving DecidableEq

/-- The row that ends a table. -/
def Row.last : Row :=
  ⟨none, 0, 0, Stage.config.number, false, false⟩

/-- The row of an option. -/
def Row.ofDescriptor (d : Descriptor) : Row :=
  ⟨some d.name, d.min, d.max, d.maxStage.number, d.tunable, d.indexed⟩

/-- The rows of a catalog, with the one that ends them. -/
def rows (catalog : Catalog) : List Row :=
  catalog.entries.map Row.ofDescriptor ++ [Row.last]

/-- What a call writes for its caller. -/
inductive Written
  | text (value : String)
  | integer (value : Int32)
  | table (rows : List Row)
deriving DecidableEq

/-- How a call answers. -/
structure Answer where
  code : Nat
  written : Option Written := none
deriving DecidableEq

/-- The answer to a call that was refused. -/
def Answer.refused (refusal : Refusal) : Answer :=
  { code := refusal.number }

/-- The answer to a call that yields nothing. -/
def Answer.ofResult (result : Except Refusal Unit) : Answer :=
  { code := resultNumber result }

/-- The answer to a call that yields an integer. -/
def Answer.ofInteger (result : Except Refusal Int32) : Answer :=
  match result with
  | .ok value => { code := 0, written := some (.integer value) }
  | .error refusal => Answer.refused refusal

/-- A call on the session in a place. -/
inductive Call
  | release
  | options (room : Bool)
  /-- Sets an option; there is no name for a null name, and else its bytes. -/
  | setOption (name : Option (List UInt8)) (value index : Int)
  | add (lit : Int32)
  | assume (lit : Int32)
  | solve (room : Bool)
  | val (lit : Int32) (room : Bool)
  | failed (lit : Int32) (room : Bool)
  | assignmentSize (room : Bool)
  | assignment (index : Int32) (room : Bool)
  | setTerminate (callback : Option Terminate)
  | setExport (bound : Int32) (given : Bool)
  | setImport (offers : Option (List (List Int32)))
  | setNotify (given : Bool)

/-- Whether a call has room for what it yields, if it yields anything. -/
def Call.hasRoom : Call → Bool
  | options room => room
  | solve room => room
  | val _ room => room
  | failed _ room => room
  | assignmentSize room => room
  | assignment _ room => room
  | _ => true

/-- The integer that shows the value of a literal. -/
def valueInteger (lit : Int32) : Option Bool → Int32
  | some true => lit
  | some false => -lit
  | none => 0

/-- Makes a call that has room for what it yields on a session. -/
def Call.onSession (s : Session ReferenceSolver) : Call → Place × Answer
  | .release => (none, { code := 0 })
  | .options _ =>
    let (s, catalog) := s.catalog
    (some s, { code := 0, written := some (.table (rows catalog)) })
  | .setOption none _ _ => (some s, Answer.refused .invalidArgument)
  | .setOption (some name) value index =>
    match Text.decode? name with
    | none => (some s, Answer.refused .unsupportedOption)
    | some name =>
      let (s, result) := s.setOption name value index
      (some s, Answer.ofResult result)
  | .add lit =>
    let (s, result) := s.add lit
    (some s, Answer.ofResult result)
  | .assume lit =>
    let (s, result) := s.assume lit
    (some s, Answer.ofResult result)
  | .solve _ =>
    let (s, result) := s.solve
    (some s, Answer.ofInteger (result.map fun verdict => Int32.ofNat verdict.number))
  | .val lit _ => (some s, Answer.ofInteger ((s.value lit).map (valueInteger lit)))
  | .failed lit _ =>
    (some s, Answer.ofInteger ((s.failed lit).map fun failed => if failed then 1 else 0))
  | .assignmentSize _ => (some s, Answer.ofInteger s.assignmentSize)
  | .assignment index _ => (some s, Answer.ofInteger (s.assignment index))
  | .setTerminate callback =>
    let (s, result) := s.setTerminate callback
    (some s, Answer.ofResult result)
  | .setExport bound given =>
    let (s, result) := s.setExport bound given
    (some s, Answer.ofResult result)
  | .setImport offers =>
    let (s, result) := s.setImport offers
    (some s, Answer.ofResult result)
  | .setNotify given =>
    let (s, result) := s.setNotify given
    (some s, Answer.ofResult result)

/-- Makes a call on the session in a place; an empty place and a lack of room are refused before
anything happens. -/
def Call.run (place : Place) (call : Call) : Place × Answer :=
  match place with
  | none => (none, Answer.refused .invalidArgument)
  | some s =>
    if call.hasRoom then call.onSession s else (some s, Answer.refused .invalidArgument)

/-- The signature of the library, if there is room for it. -/
def signature (room : Bool) : Answer :=
  if room then { code := 0, written := some (.text Cdcl.signature) }
  else Answer.refused .invalidArgument

/-- A place after a new session was asked for, which takes the place of the one before if there is
room for it. -/
def open? (room : Bool) (place : Place) : Place × Answer :=
  if room then (some Session.reference, { code := 0 })
  else (place, Answer.refused .invalidArgument)

/-- The memory that an exported clause is given in, ended by a zero, with the count of literals. -/
def exportBuffer (clause : List Int32) : List Int32 × Int32 :=
  (clause ++ [0], Int32.ofNat clause.length)

/-- Places, by number. -/
abbrev Places : Type :=
  Array Place

/-- Makes a call on the session in the place of a number. -/
def Places.call (places : Places) (number : Nat) (call : Call) : Places × Answer :=
  let (place, answer) := call.run (places.getD number none)
  (places.setIfInBounds number place, answer)

/-- Asks for a new session in the place of a number. -/
def Places.init (places : Places) (number : Nat) (room : Bool) : Places × Answer :=
  let (place, answer) := open? room (places.getD number none)
  (places.setIfInBounds number place, answer)

end IncrementalSat.Binding
