import IncrementalSat.Engine

/-!
# Traced engines

An engine wrapped so that it notes each call that could change it, and each clause that it takes
from a callback for imports, in order.  Calls that only read are not noted.
-/

set_option autoImplicit false

namespace IncrementalSat

/-- A call that could change an engine, or a clause taken from its import callback. -/
inductive EngineCall
  | setOption (name : String) (value : Int)
  | limit (kind : String) (value : Int)
  | add (lit : Int32)
  | assume (lit : Int32)
  | solve
  | imported (clause : List Int32)
  | setTerminate (given : Bool)
  | setLearn (bound : Nat) (given : Bool)
  | setImport (given : Bool)
  | setNotify (given : Bool)
deriving DecidableEq

namespace EngineCall

/-- The written form of a call. -/
def text : EngineCall → String
  | setOption name value => "set_option " ++ name ++ s!" {value}"
  | limit kind value => "limit " ++ kind ++ s!" {value}"
  | add lit => s!"add {lit.toInt}"
  | assume lit => s!"assume {lit.toInt}"
  | solve => "solve"
  | imported clause =>
    "imported [" ++ ", ".intercalate (clause.map fun lit => toString lit.toInt) ++ "]"
  | setTerminate given => s!"set_terminate {given}"
  | setLearn bound given => s!"set_learn {bound} {given}"
  | setImport given => s!"set_import {given}"
  | setNotify given => s!"set_notify {given}"

/-- The note of an event within a solve. -/
def ofEvent? : Event → Option EngineCall
  | .imported clause => some (imported clause)
  | _ => none

end EngineCall

/-- An engine with the calls it has received. -/
structure Traced (E : Type) where
  engine : E
  calls : Array EngineCall := #[]

namespace Traced

variable {E : Type}

/-- The engine in a new state after a call. -/
def after (t : Traced E) (call : EngineCall) (engine : E) : Traced E :=
  { engine := engine, calls := t.calls.push call }

/-- The engine after a call that it may have declined. -/
def afterRequest (t : Traced E) (call : EngineCall)
    (outcome : E × Except EngineRefusal Unit) : Traced E × Except EngineRefusal Unit :=
  (t.after call outcome.1, outcome.2)

instance [Engine E] : Engine (Traced E) where
  signature t := Engine.signature t.engine
  options t := Engine.options t.engine
  setOption t name value :=
    t.afterRequest (.setOption name value) (Engine.setOption t.engine name value)
  getOption t := Engine.getOption t.engine
  limit t kind value := t.afterRequest (.limit kind value) (Engine.limit t.engine kind value)
  add t lit :=
    let (engine, events) := Engine.add t.engine lit
    (t.after (.add lit) engine, events)
  assume t lit := t.after (.assume lit) (Engine.assume t.engine lit)
  solve t :=
    let solved := Engine.solve t.engine
    let traced := t.after .solve solved.engine
    { engine :=
        { traced with calls := traced.calls ++ solved.events.filterMap EngineCall.ofEvent? }
      verdict := solved.verdict
      events := solved.events }
  val t := Engine.val t.engine
  failed t := Engine.failed t.engine
  maxAtom t := Engine.maxAtom t.engine
  setTerminate t callback :=
    t.after (.setTerminate callback.isSome) (Engine.setTerminate t.engine callback)
  setLearn t bound given := t.after (.setLearn bound given) (Engine.setLearn t.engine bound given)
  setImport t offers := t.afterRequest (.setImport offers.isSome) (Engine.setImport t.engine offers)
  setNotify t given := t.afterRequest (.setNotify given) (Engine.setNotify t.engine given)
  offersImport t := Engine.offersImport t.engine
  offersNotify t := Engine.offersNotify t.engine

end Traced

end IncrementalSat
