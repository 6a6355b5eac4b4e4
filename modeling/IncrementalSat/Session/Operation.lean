import IncrementalSat.Session

/-!
# Operations that can be refused

The operations of a session that can be refused, as data, with the session and the result of each.
An operation that only reads returns the session as it is.
-/

set_option autoImplicit false

namespace IncrementalSat.Session

/-- An operation that a session may refuse. -/
inductive Operation
  | add (lit : Int32)
  | addClause (clause : List Int32)
  | assume (lit : Int32)
  | solve
  | value (lit : Int32)
  | failed (lit : Int32)
  | assignmentSize
  | assignment (index : Int32)
  | option (name : String)
  | setOption (name : String) (value index : Int)
  | setExport (bound : Int32) (given : Bool)
  | setImport (offers : Option (List (List Int32)))
  | setNotify (given : Bool)

/-- A result without what it yields. -/
def outcome {α : Type} (result : Except Refusal α) : Except Refusal Unit :=
  result.map fun _ => ()

variable {E : Type} [Engine E]

/-- The session after an operation, and whether the operation was refused. -/
def attempt (s : Session E) : Operation → Session E × Except Refusal Unit
  | .add lit => s.add lit
  | .addClause clause => s.addClause clause
  | .assume lit => s.assume lit
  | .solve => (s.solve.1, outcome s.solve.2)
  | .value lit => (s, outcome (s.value lit))
  | .failed lit => (s, outcome (s.failed lit))
  | .assignmentSize => (s, outcome s.assignmentSize)
  | .assignment index => (s, outcome (s.assignment index))
  | .option name => (s, outcome (s.option name))
  | .setOption name value index => s.setOption name value index
  | .setExport bound given => s.setExport bound given
  | .setImport offers => s.setImport offers
  | .setNotify given => s.setNotify given

/-- Adds literals one after another, up to the first that is refused. -/
def addEach (s : Session E) : List Int32 → Session E × Except Refusal Unit
  | [] => (s, .ok ())
  | lit :: rest =>
    match s.add lit with
    | (s, .error refusal) => (s, .error refusal)
    | (s, .ok ()) => s.addEach rest

end IncrementalSat.Session
