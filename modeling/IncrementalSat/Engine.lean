import IncrementalSat.Event

/-!
# Engines

An engine is what a session needs of a solver: clauses and assumptions go in, a solve yields a
verdict, and values, failed assumptions, options, limits and callbacks are reached through the
operations of one class.  Callbacks are data here.  A terminate callback is the function from the
number of earlier polls to its answer, an export callback is a bound on the clauses it is given, and
the callback for imports is the list of clauses it has to offer.
-/

set_option autoImplicit false

namespace IncrementalSat

/-- An entry of the registry of options of an engine. -/
structure NativeOption where
  name : String
  /-- The smallest value the engine takes. -/
  lo : Int
  /-- The largest value the engine takes. -/
  hi : Int
  /-- The value of a fresh engine. -/
  initial : Int
  optimizable : Bool
  /-- Whether the option may be set only before any input. -/
  configurationOnly : Bool
deriving DecidableEq

/-- Whether a value lies in the range of an option. -/
def NativeOption.accepts (o : NativeOption) (value : Int) : Bool :=
  decide (o.lo ≤ value) && decide (value ≤ o.hi)

/-- A terminate callback: what it answers, by the number of earlier polls, and that number. -/
structure Terminate where
  /-- The answer after a number of earlier polls, true for a request to stop. -/
  answer : Nat → Bool
  polls : Nat

namespace Terminate

/-- The callback, not polled yet, that asks to stop from the given poll on. -/
def after (count : Nat) : Terminate :=
  { answer := fun polls => decide (count ≤ polls), polls := 0 }

/-- The callback after one more poll, with its answer. -/
def poll (t : Terminate) : Terminate × Bool :=
  ({ t with polls := t.polls + 1 }, t.answer t.polls)

end Terminate

/-- What a solve leaves behind: the engine, the verdict, and what happened on the way. -/
structure Solved (E : Type) where
  engine : E
  verdict : Verdict
  events : Array Event

/-- The operations through which a session reaches a solver. -/
class Engine (E : Type) where
  signature : E → String
  options : E → List NativeOption
  setOption : E → String → Int → E × Except EngineRefusal Unit
  /-- The value of an option, if the engine can tell. -/
  getOption : E → String → Option Int
  /-- Sets a limit of the given kind on each later solve, none if the value is negative. -/
  limit : E → String → Int → E × Except EngineRefusal Unit
  /-- Adds a literal to the open clause, or closes the clause on zero. -/
  add : E → Int32 → E × Array Event
  assume : E → Int32 → E
  /-- Solves under the noted assumptions, which are then forgotten. -/
  solve : E → Solved E
  /-- The literal if it is true in the last satisfying valuation, its negation if it is false,
  and zero if the atom has no value. -/
  val : E → Int32 → Int32
  /-- Whether a literal is among the assumptions behind the last refutation. -/
  failed : E → Int32 → Bool
  maxAtom : E → Int32
  setTerminate : E → Option Terminate → E
  /-- Sets or clears the callback that is given learnt clauses up to a length. -/
  setLearn : E → (bound : Nat) → (given : Bool) → E
  setImport : E → Option (List (List Int32)) → E × Except EngineRefusal Unit
  setNotify : E → (given : Bool) → E × Except EngineRefusal Unit
  offersImport : E → Bool
  offersNotify : E → Bool

/-- Whether the registry of an engine has an option of the given name. -/
def Engine.hasOption {E : Type} [Engine E] (engine : E) (name : String) : Bool :=
  (Engine.options engine).any fun o => o.name == name

end IncrementalSat
