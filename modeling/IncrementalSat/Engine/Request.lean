import IncrementalSat.Engine

/-!
# Requests

The operations by which an engine can change, as data, so that what holds after any sequence of them
can be said of a list.
-/

set_option autoImplicit false

namespace IncrementalSat.Engine

/-- A request that can change an engine. -/
inductive Request
  | setOption (name : String) (value : Int)
  | limit (kind : String) (value : Int)
  | add (lit : Int32)
  | assume (lit : Int32)
  | solve
  | setTerminate (callback : Option Terminate)
  | setLearn (bound : Nat) (given : Bool)
  | setImport (offers : Option (List (List Int32)))
  | setNotify (given : Bool)

variable {E : Type} [Engine E]

/-- The engine after a request, whether it was declined or not. -/
def serve (engine : E) : Request → E
  | .setOption name value => (Engine.setOption engine name value).1
  | .limit kind value => (Engine.limit engine kind value).1
  | .add lit => (Engine.add engine lit).1
  | .assume lit => Engine.assume engine lit
  | .solve => (Engine.solve engine).engine
  | .setTerminate callback => Engine.setTerminate engine callback
  | .setLearn bound given => Engine.setLearn engine bound given
  | .setImport offers => (Engine.setImport engine offers).1
  | .setNotify given => (Engine.setNotify engine given).1

/-- How an engine answers a request; most requests cannot be declined. -/
def answer (engine : E) : Request → Except EngineRefusal Unit
  | .setOption name value => (Engine.setOption engine name value).2
  | .limit kind value => (Engine.limit engine kind value).2
  | .setImport offers => (Engine.setImport engine offers).2
  | .setNotify given => (Engine.setNotify engine given).2
  | .add _ | .assume _ | .solve | .setTerminate _ | .setLearn _ _ => .ok ()

/-- The engine after requests, one after another. -/
def serveAll (engine : E) (requests : List Request) : E :=
  requests.foldl serve engine

/-- Requests in two parts are served one part after the other. -/
@[simp] theorem serveAll_append (engine : E) (before after : List Request) :
    serveAll engine (before ++ after) = serveAll (serveAll engine before) after :=
  List.foldl_append

end IncrementalSat.Engine
