import IncrementalSat.Engine.Request

/-!
# Recorded engines

An engine wrapped so that each request it receives is kept, together with the engine as it was when
it received the request.  It answers as the engine within does.
-/

set_option autoImplicit false

namespace IncrementalSat

/-- Requests in the order in which they were received, each with the engine that received it. -/
abbrev Log (E : Type) : Type :=
  List (E × Engine.Request)

/-- An engine with the requests it has received. -/
structure Recorded (E : Type) where
  engine : E
  log : Log E := []

namespace Recorded

variable {E : Type}

/-- The engine in a new state after a request. -/
def after (r : Recorded E) (request : Engine.Request) (engine : E) : Recorded E :=
  { engine := engine, log := r.log ++ [(r.engine, request)] }

/-- The engine after a request that it may have declined. -/
def afterAnswer (r : Recorded E) (request : Engine.Request)
    (answer : E × Except EngineRefusal Unit) : Recorded E × Except EngineRefusal Unit :=
  (r.after request answer.1, answer.2)

instance [Engine E] : Engine (Recorded E) where
  signature r := Engine.signature r.engine
  options r := Engine.options r.engine
  setOption r name value :=
    r.afterAnswer (.setOption name value) (Engine.setOption r.engine name value)
  getOption r := Engine.getOption r.engine
  limit r kind value := r.afterAnswer (.limit kind value) (Engine.limit r.engine kind value)
  add r lit :=
    let (engine, events) := Engine.add r.engine lit
    (r.after (.add lit) engine, events)
  assume r lit := r.after (.assume lit) (Engine.assume r.engine lit)
  solve r :=
    let solved := Engine.solve r.engine
    { engine := r.after .solve solved.engine, verdict := solved.verdict, events := solved.events }
  val r := Engine.val r.engine
  failed r := Engine.failed r.engine
  maxAtom r := Engine.maxAtom r.engine
  setTerminate r callback :=
    r.after (.setTerminate callback) (Engine.setTerminate r.engine callback)
  setLearn r bound given := r.after (.setLearn bound given) (Engine.setLearn r.engine bound given)
  setImport r offers := r.afterAnswer (.setImport offers) (Engine.setImport r.engine offers)
  setNotify r given := r.afterAnswer (.setNotify given) (Engine.setNotify r.engine given)
  offersImport r := Engine.offersImport r.engine
  offersNotify r := Engine.offersNotify r.engine

end Recorded

end IncrementalSat
