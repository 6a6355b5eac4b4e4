import IncrementalSat.Dimacs

/-!
# Calls on a session

The calls by which a session changes, as data, so that what holds after any sequence of calls can
be said of a list.
-/

set_option autoImplicit false

namespace IncrementalSat.Session

/-- A call that can change a session. -/
inductive Call
  | add (lit : Int32)
  | addClause (clause : List Int32)
  | assume (lit : Int32)
  | solve
  | setOption (name : String) (value index : Int)
  | setTerminate (callback : Option Terminate)
  | setExport (bound : Int32) (given : Bool)
  | setImport (offers : Option (List (List Int32)))
  | setNotify (given : Bool)
  | catalog
  | read (source : Text.Source)

variable {E : Type} [Engine E]

/-- The session after a call, whether it was refused or not. -/
def perform (s : Session E) : Call → Session E
  | .add lit => (s.add lit).1
  | .addClause clause => (s.addClause clause).1
  | .assume lit => (s.assume lit).1
  | .solve => s.solve.1
  | .setOption name value index => (s.setOption name value index).1
  | .setTerminate callback => (s.setTerminate callback).1
  | .setExport bound given => (s.setExport bound given).1
  | .setImport offers => (s.setImport offers).1
  | .setNotify given => (s.setNotify given).1
  | .catalog => s.catalog.1
  | .read source => (Dimacs.read s source).1

/-- The session after calls, one after another. -/
def performAll (s : Session E) (calls : List Call) : Session E :=
  calls.foldl perform s

end IncrementalSat.Session
