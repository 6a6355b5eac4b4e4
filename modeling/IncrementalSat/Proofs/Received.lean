import Mathlib
import IncrementalSat.Proofs.Calls
import IncrementalSat.Proofs.Reading

/-!
# What the engine of a session receives

The inputs that a session accepts are those that its engine receives, in the same order, whatever
else it is asked in between; and the engine is what it becomes by the requests it receives.  So what
is known of an engine after requests is known of a session after calls.
-/

set_option autoImplicit false

namespace IncrementalSat

open Engine (Request)

/-- The input that a request passes on. -/
def Engine.Request.input? : Request → Option Input
  | .add lit => some (.literal lit)
  | .assume lit => some (.assumption lit)
  | .solve => some .solve
  | _ => none

/-- The inputs that requests pass on. -/
def Engine.inputs (requests : List Request) : List Input :=
  requests.filterMap Request.input?

/-- Requests in two parts pass on the inputs of one part and then those of the other. -/
theorem Engine.inputs_append (requests more : List Request) :
    Engine.inputs (requests ++ more) = Engine.inputs requests ++ Engine.inputs more :=
  List.filterMap_append

/-- Requests that add integers pass these on. -/
theorem Engine.inputs_map_add (integers : List Int32) :
    Engine.inputs (integers.map .add) = integers.map .literal := by
  rw [inputs, List.filterMap_map]
  exact congrFun List.filterMap_eq_map integers

namespace Session

variable {E : Type} [Engine E] {s : Session (Recorded E)}

/-! ## Inputs of calls -/

/-- A clause whose integers are pushed is passed on integer by integer. -/
theorem inputs_foldl_push (clause : List Int32) :
    Engine.inputs (clause.foldl push s).requests =
      Engine.inputs s.requests ++ clause.map .literal := by
  induction clause generalizing s with
  | nil => simp
  | cons lit rest ih =>
    rw [List.foldl_cons, ih, requests_push, Engine.inputs_append, List.append_assoc]
    rfl

/-- An integer is passed on unless it is refused. -/
theorem inputs_add (lit : Int32) :
    Engine.inputs (s.add lit).1.requests =
      Engine.inputs s.requests ++ s.forget.inputs (.add lit) := by
  unfold inputs
  dsimp only
  rw [← (forget_add lit).2]
  unfold add
  split
  · simp
  · dsimp only
    rw [requests_push, Engine.inputs_append]
    rfl

/-- A whole clause is passed on with its closing zero unless it is refused. -/
theorem inputs_addClause (clause : List Int32) :
    Engine.inputs (s.addClause clause).1.requests =
      Engine.inputs s.requests ++ s.forget.inputs (.addClause clause) := by
  unfold inputs
  dsimp only
  rw [← (forget_addClause clause).2]
  unfold addClause
  split
  · simp
  split
  · simp
  · dsimp only
    rw [requests_push, Engine.inputs_append, inputs_foldl_push, List.map_append, List.append_assoc]
    rfl

/-- An assumption is passed on unless it is refused. -/
theorem inputs_assume (lit : Int32) :
    Engine.inputs (s.assume lit).1.requests =
      Engine.inputs s.requests ++ s.forget.inputs (.assume lit) := by
  unfold inputs
  dsimp only
  rw [← (forget_assume lit).2]
  unfold assume
  split
  · simp
  split
  · simp
  · have hrequests : ({ s.moveTo .input with
        engine := Engine.assume (s.moveTo .input).engine lit } : Session (Recorded E)).requests =
          s.requests ++ [.assume lit] := by
      rw [← requests_moveTo (s := s) .input]
      exact List.map_append
    dsimp only
    rw [hrequests, Engine.inputs_append]
    rfl

/-- A solve is passed on unless it is refused. -/
theorem inputs_solve :
    Engine.inputs s.solve.1.requests = Engine.inputs s.requests ++ s.forget.inputs .solve := by
  unfold inputs
  dsimp only
  rw [← forget_solve.2]
  unfold solve
  split
  · simp
  split
  · simp
  · have hrequests : ({ s with engine := (Engine.solve s.engine).engine } :
        Session (Recorded E)).requests = s.requests ++ [.solve] :=
      List.map_append
    dsimp only
    rw [requests_moveTo, requests_note, hrequests, Engine.inputs_append]
    rfl

omit [Engine E] in
/-- A request that passes on no input. -/
theorem inputs_request {s' : Session (Recorded E)} {request : Request}
    (hlog : s'.engine.log = s.engine.log ++ [(s.engine.engine, request)])
    (hrequest : request.input? = none) :
    Engine.inputs s'.requests = Engine.inputs s.requests := by
  have hrequests : s'.requests = s.requests ++ [request] := by
    rw [requests, hlog, List.map_append]
    rfl
  rw [hrequests, Engine.inputs_append]
  simp [Engine.inputs, hrequest]

/-- Setting an option passes on no input. -/
theorem inputs_setOption (name : String) (value index : Int) :
    Engine.inputs (s.setOption name value index).1.requests = Engine.inputs s.requests := by
  rcases s.engine.log_writeOption s.stage name value index with
    hlog | ⟨descriptor, target, -, -, hlog⟩
  · exact congrArg (fun log => Engine.inputs (log.map Prod.snd)) hlog
  · have hrequest : (s.setOption name value index).1.engine.log = _ := hlog
    refine inputs_request hrequest ?_
    cases target with
    | limit kind => rfl
    | native => rfl

/-- Offers of clauses are no input. -/
theorem inputs_setImport (offers : Option (List (List Int32))) :
    Engine.inputs (s.setImport offers).1.requests = Engine.inputs s.requests := by
  unfold setImport
  split
  · rename_i hresult
    exact inputs_request (congrArg (fun answer => answer.1.log) hresult).symm rfl
  · rename_i hresult
    exact inputs_request (congrArg (fun answer => answer.1.log) hresult).symm rfl

/-- A notify callback is no input. -/
theorem inputs_setNotify (given : Bool) :
    Engine.inputs (s.setNotify given).1.requests = Engine.inputs s.requests := by
  unfold setNotify
  split
  · rename_i hresult
    exact inputs_request (congrArg (fun answer => answer.1.log) hresult).symm rfl
  · rename_i hresult
    exact inputs_request (congrArg (fun answer => answer.1.log) hresult).symm rfl

/-- An export callback is no input. -/
theorem inputs_setExport (bound : Int32) (given : Bool) :
    Engine.inputs (s.setExport bound given).1.requests = Engine.inputs s.requests := by
  unfold setExport
  split
  · rfl
  · exact inputs_request rfl rfl

/-- The engine receives the inputs that a call accepts. -/
theorem inputs_perform (call : Call) :
    Engine.inputs (s.perform call).requests =
      Engine.inputs s.requests ++ s.forget.inputs call := by
  cases call with
  | add lit => exact inputs_add lit
  | addClause clause => exact inputs_addClause clause
  | assume lit => exact inputs_assume lit
  | solve => exact inputs_solve
  | setOption name value index =>
    exact (inputs_setOption name value index).trans (List.append_nil _).symm
  | setTerminate callback =>
    exact (inputs_request rfl rfl).trans (List.append_nil _).symm
  | setExport bound given => exact (inputs_setExport bound given).trans (List.append_nil _).symm
  | setImport offers => exact (inputs_setImport offers).trans (List.append_nil _).symm
  | setNotify given => exact (inputs_setNotify given).trans (List.append_nil _).symm
  | catalog => exact (List.append_nil _).symm
  | read source =>
    show Engine.inputs (Dimacs.read s source).1.requests = _
    rw [(Dimacs.reads_read s source).2, Engine.inputs_append, Engine.inputs_map_add]
    rfl

/-- The engine receives the inputs that calls accept. -/
theorem inputs_performAll (calls : List Call) :
    Engine.inputs (s.performAll calls).requests =
      Engine.inputs s.requests ++ s.forget.history calls := by
  induction calls generalizing s with
  | nil => exact (List.append_nil _).symm
  | cons call rest ih =>
    show Engine.inputs ((s.perform call).performAll rest).requests = _
    rw [ih, inputs_perform, forget_perform, List.append_assoc]
    rfl

/-! ## Engines of sessions -/

/-- A recorded engine has become what it is by the requests it has received. -/
def Served (engine : E) (r : Recorded E) : Prop :=
  r.engine = Engine.serveAll engine (r.log.map Prod.snd)

/-- An engine that is asked once more has become what it is by one request more. -/
theorem Served.request {engine : E} {r : Recorded E} (h : Served engine r) (request : Request) :
    Served engine (Engine.serve r request) := by
  rw [serve_recorded]
  show Engine.serve r.engine request = Engine.serveAll engine ((r.log ++ [_]).map Prod.snd)
  rw [List.map_append, Engine.serveAll_append, ← h]
  rfl

/-- Whatever a session asks of its engine, the engine is what its requests made it. -/
theorem kept_served (engine : E) : Kept fun r (_ : Array Event) => Served engine r where
  own _ _ h := h
  add lit h := h.request (.add lit)
  assume lit h := h.request (.assume lit)
  setOption name value h := h.request (.setOption name value)
  limit kind value h := h.request (.limit kind value)
  setTerminate callback h := h.request (.setTerminate callback)
  setImport offers h := h.request (.setImport offers)
  setNotify given h := h.request (.setNotify given)

/-- After any calls the engine of a session is what its requests made it. -/
theorem served_performAll {engine : E} (h : Served engine s.engine) (calls : List Call) :
    Served engine (s.performAll calls).engine := by
  induction calls generalizing s with
  | nil => exact h
  | cons call rest ih =>
    refine ih ((kept_served engine).perform h call (fun _ => ?_) fun bound given _ => ?_)
    · unfold solve
      split
      · exact h
      split
      · exact h
      · exact (kept_served engine).moveTo (h.request .solve) _
    · unfold setExport
      split
      · exact h
      · exact h.request (.setLearn bound.toInt.toNat given)

/-- After calls the engine of a session is what it has become by requests that pass on the inputs
accepted. -/
theorem engine_performAll (s : Session E) (calls : List Call) :
    ∃ requests, (s.performAll calls).engine = Engine.serveAll s.engine requests ∧
      Engine.inputs requests = s.history calls := by
  have hforget : (s.record.performAll calls).forget = s.performAll calls := forget_performAll calls
  have hstart : Served s.engine s.record.engine := rfl
  have hserved : Served s.engine (s.record.performAll calls).engine :=
    served_performAll hstart calls
  exact ⟨(s.record.performAll calls).requests,
    (congrArg Session.engine hforget).symm.trans hserved, inputs_performAll (s := s.record) calls⟩

end Session

end IncrementalSat
