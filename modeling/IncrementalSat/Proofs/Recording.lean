import IncrementalSat.Engine.Recorded
import IncrementalSat.Session.Call

/-!
# Sessions for recorded engines

A session does not notice that its engine is recorded: with the record forgotten, each call on it is
the call on the session for the engine within.  So the record tells what reaches the engine of any
session.
-/

set_option autoImplicit false

namespace IncrementalSat

/-! ## Writes -/

/-- The request that a write makes. -/
def Target.request (target : Target) (name : String) (value : Int) : Engine.Request :=
  match target with
  | .limit kind => .limit kind value
  | .native => .setOption name value

namespace Recorded

variable {E : Type} [Engine E]

/-- A write to a recorded engine is recorded as its request and otherwise a write to the engine
within. -/
theorem write_eq (r : Recorded E) (target : Target) (name : String) (value : Int) :
    target.write r name value =
      r.afterAnswer (target.request name value) (target.write r.engine name value) := by
  cases target with
  | limit kind => rfl
  | native => rfl

/-- A write does to the engine within what it does without the record. -/
theorem writeOption_eq (r : Recorded E) (stage : Stage) (name : String) (value index : Int) :
    (writeOption r stage name value index).1.engine =
        (writeOption r.engine stage name value index).1 ∧
      (writeOption r stage name value index).2 =
        (writeOption r.engine stage name value index).2 := by
  have hlookup : Catalog.lookup r name = Catalog.lookup r.engine name := rfl
  unfold writeOption
  rw [hlookup]
  cases Catalog.lookup r.engine name with
  | none => exact ⟨rfl, rfl⟩
  | some found =>
    obtain ⟨descriptor, target⟩ := found
    dsimp only
    split
    · exact ⟨rfl, rfl⟩
    split
    · exact ⟨rfl, rfl⟩
    split
    · exact ⟨rfl, rfl⟩
    rw [write_eq]
    cases target.write r.engine name value with
    | mk engine result =>
      cases result with
      | ok => exact ⟨rfl, rfl⟩
      | error cause => exact ⟨rfl, rfl⟩

/-- A write makes no request, or the one of an option that may still be set. -/
theorem log_writeOption (r : Recorded E) (stage : Stage) (name : String) (value index : Int) :
    (writeOption r stage name value index).1.log = r.log ∨
      ∃ descriptor target, Catalog.lookup r.engine name = some (descriptor, target) ∧
        stage.within descriptor.maxStage = true ∧
        (writeOption r stage name value index).1.log =
          r.log ++ [(r.engine, target.request name value)] := by
  have hlookup : Catalog.lookup r name = Catalog.lookup r.engine name := rfl
  unfold writeOption
  rw [hlookup]
  cases Catalog.lookup r.engine name with
  | none => exact .inl rfl
  | some found =>
    obtain ⟨descriptor, target⟩ := found
    dsimp only
    split
    · exact .inl rfl
    rename_i hwithin
    split
    · exact .inl rfl
    split
    · exact .inl rfl
    refine .inr ⟨descriptor, target, rfl, by simpa using hwithin, ?_⟩
    rw [write_eq]
    cases target.write r.engine name value with
    | mk engine result =>
      cases result with
      | ok => rfl
      | error cause => rfl

end Recorded

/-! ## Calls -/

namespace Session

variable {E : Type} [Engine E]

omit [Engine E] in
/-- The session with the record of its engine forgotten. -/
def forget (s : Session (Recorded E)) : Session E where
  engine := s.engine.engine
  stage := s.stage
  clauseOpen := s.clauseOpen
  journal := s.journal

/-- A session for an engine that is recorded from now on. -/
def ofRecorded (engine : E) : Session (Recorded E) :=
  ofEngine { engine := engine }

omit [Engine E] in
/-- The requests that the engine of a session has received. -/
def requests (s : Session (Recorded E)) : List Engine.Request :=
  s.engine.log.map Prod.snd

variable {s : Session (Recorded E)}

omit [Engine E] in
/-- Events that are noted are no requests. -/
@[simp] theorem requests_note (events : Array Event) : (s.note events).requests = s.requests :=
  rfl

omit [Engine E] in
/-- Moving to a stage makes no request. -/
@[simp] theorem requests_moveTo (stage : Stage) : (s.moveTo stage).requests = s.requests := by
  unfold moveTo
  split
  · rfl
  · rfl

/-- An integer that is pushed is one request. -/
@[simp] theorem requests_push (lit : Int32) :
    (s.push lit).requests = s.requests ++ [.add lit] := by
  have hlog : (s.push lit).engine.log =
    (s.moveTo .input).engine.log ++ [((s.moveTo .input).engine.engine, .add lit)] := rfl
  rw [requests, hlog, List.map_append, ← requests, requests_moveTo]
  rfl

omit [Engine E] in
/-- The record has no part in moving to a stage. -/
theorem forget_moveTo (stage : Stage) : (s.moveTo stage).forget = s.forget.moveTo stage := by
  have hstage : s.forget.stage = s.stage := rfl
  unfold moveTo
  rw [hstage]
  split
  · rfl
  · rfl

/-- The record has no part in pushing an integer. -/
theorem forget_push (lit : Int32) : (s.push lit).forget = s.forget.push lit := by
  unfold push
  rw [← forget_moveTo]
  rfl

/-- The record has no part in pushing the integers of a clause. -/
theorem forget_foldl_push (clause : List Int32) :
    (clause.foldl push s).forget = clause.foldl push s.forget := by
  induction clause generalizing s with
  | nil => rfl
  | cons lit rest ih =>
    rw [List.foldl_cons, List.foldl_cons, ih, forget_push]

/-- An integer is added or refused as without the record. -/
theorem forget_add (lit : Int32) :
    (s.add lit).1.forget = (s.forget.add lit).1 ∧ (s.add lit).2 = (s.forget.add lit).2 := by
  unfold add
  split
  · exact ⟨rfl, rfl⟩
  · exact ⟨forget_push lit, rfl⟩

/-- A whole clause is added or refused as without the record. -/
theorem forget_addClause (clause : List Int32) :
    (s.addClause clause).1.forget = (s.forget.addClause clause).1 ∧
      (s.addClause clause).2 = (s.forget.addClause clause).2 := by
  have hopen : s.forget.clauseOpen = s.clauseOpen := rfl
  unfold addClause
  rw [hopen]
  split
  · exact ⟨rfl, rfl⟩
  split
  · exact ⟨rfl, rfl⟩
  · exact ⟨(forget_push 0).trans (congrArg (fun s => push s 0) (forget_foldl_push clause)), rfl⟩

/-- An assumption is made or refused as without the record. -/
theorem forget_assume (lit : Int32) :
    (s.assume lit).1.forget = (s.forget.assume lit).1 ∧
      (s.assume lit).2 = (s.forget.assume lit).2 := by
  have hopen : s.forget.clauseOpen = s.clauseOpen := rfl
  unfold assume
  rw [hopen]
  split
  · exact ⟨rfl, rfl⟩
  split
  · exact ⟨rfl, rfl⟩
  · dsimp only
    rw [← forget_moveTo]
    exact ⟨rfl, rfl⟩

/-- A solve is answered or refused as without the record. -/
theorem forget_solve :
    s.solve.1.forget = s.forget.solve.1 ∧ s.solve.2 = s.forget.solve.2 := by
  have hstage : s.forget.stage = s.stage := rfl
  have hopen : s.forget.clauseOpen = s.clauseOpen := rfl
  unfold solve
  rw [hstage, hopen]
  split
  · exact ⟨rfl, rfl⟩
  split
  · exact ⟨rfl, rfl⟩
  · exact ⟨forget_moveTo _, rfl⟩

/-- An option is set or refused as without the record. -/
theorem forget_setOption (name : String) (value index : Int) :
    (s.setOption name value index).1.forget = (s.forget.setOption name value index).1 ∧
      (s.setOption name value index).2 = (s.forget.setOption name value index).2 := by
  obtain ⟨hengine, hrest⟩ := s.engine.writeOption_eq s.stage name value index
  refine ⟨?_, congrArg Prod.fst hrest⟩
  show Session.mk (writeOption s.engine s.stage name value index).1.engine s.stage s.clauseOpen
      (s.journal ++ (writeOption s.engine s.stage name value index).2.2) =
    Session.mk (writeOption s.engine.engine s.stage name value index).1 s.stage s.clauseOpen
      (s.journal ++ (writeOption s.engine.engine s.stage name value index).2.2)
  rw [hengine, hrest]

/-- Offers of clauses are registered or declined as without the record. -/
theorem forget_setImport (offers : Option (List (List Int32))) :
    (s.setImport offers).1.forget = (s.forget.setImport offers).1 ∧
      (s.setImport offers).2 = (s.forget.setImport offers).2 := by
  have hrequest : Engine.setImport s.engine offers =
    s.engine.afterAnswer (.setImport offers) (Engine.setImport s.forget.engine offers) := rfl
  unfold setImport
  rw [hrequest]
  cases Engine.setImport s.forget.engine offers with
  | mk engine result =>
    cases result with
    | ok => exact ⟨rfl, rfl⟩
    | error cause => exact ⟨rfl, rfl⟩

/-- A notify callback is registered or declined as without the record. -/
theorem forget_setNotify (given : Bool) :
    (s.setNotify given).1.forget = (s.forget.setNotify given).1 ∧
      (s.setNotify given).2 = (s.forget.setNotify given).2 := by
  have hrequest : Engine.setNotify s.engine given =
    s.engine.afterAnswer (.setNotify given) (Engine.setNotify s.forget.engine given) := rfl
  unfold setNotify
  rw [hrequest]
  cases Engine.setNotify s.forget.engine given with
  | mk engine result =>
    cases result with
    | ok => exact ⟨rfl, rfl⟩
    | error cause => exact ⟨rfl, rfl⟩

/-- An export callback is registered or refused as without the record. -/
theorem forget_setExport (bound : Int32) (given : Bool) :
    (s.setExport bound given).1.forget = (s.forget.setExport bound given).1 ∧
      (s.setExport bound given).2 = (s.forget.setExport bound given).2 := by
  unfold setExport
  split
  · exact ⟨rfl, rfl⟩
  · exact ⟨rfl, rfl⟩

/-! ### Formulas that are read -/

omit [Engine E] in
/-- The reading with the record of its engine forgotten. -/
def forgetReading (r : Dimacs.Reading (Recorded E)) : Dimacs.Reading E :=
  { r with session := r.session.forget }

variable {r : Dimacs.Reading (Recorded E)}

/-- A field is read as without the record. -/
theorem forget_readField (field : List Char) :
    forgetReading (Dimacs.readField r field).1 = (Dimacs.readField (forgetReading r) field).1 ∧
      (Dimacs.readField r field).2 = (Dimacs.readField (forgetReading r) field).2 := by
  unfold Dimacs.readField
  cases Text.int32? field with
  | none => exact ⟨rfl, rfl⟩
  | some lit =>
    obtain ⟨hsession, hresult⟩ := forget_add (s := r.session) lit
    have hsession' : (forgetReading r).session = r.session.forget := rfl
    dsimp only
    rw [hsession']
    cases hadd : r.session.add lit with
    | mk session result =>
      cases hadd' : r.session.forget.add lit with
      | mk session' result' =>
        rw [hadd, hadd'] at hsession hresult
        obtain rfl : session.forget = session' := hsession
        obtain rfl : result = result' := hresult
        cases result with
        | ok => exact ⟨rfl, rfl⟩
        | error refusal => exact ⟨rfl, rfl⟩

/-- The fields of a line are read as without the record. -/
theorem forget_readFields (fields : List (List Char)) :
    forgetReading (Dimacs.readFields r fields).1 = (Dimacs.readFields (forgetReading r) fields).1 ∧
      (Dimacs.readFields r fields).2 = (Dimacs.readFields (forgetReading r) fields).2 := by
  induction fields generalizing r with
  | nil => exact ⟨rfl, rfl⟩
  | cons field rest ih =>
    obtain ⟨hreading, hresult⟩ := forget_readField (r := r) field
    unfold Dimacs.readFields
    cases hfield : Dimacs.readField r field with
    | mk read result =>
      cases hfield' : Dimacs.readField (forgetReading r) field with
      | mk read' result' =>
        rw [hfield, hfield'] at hreading hresult
        obtain rfl : forgetReading read = read' := hreading
        obtain rfl : result = result' := hresult
        cases result with
        | ok => exact ih
        | error cause => exact ⟨rfl, rfl⟩

omit [Engine E] in
/-- A reading ends as without the record. -/
theorem forget_finish :
    (Dimacs.finish r).1.forget = (Dimacs.finish (forgetReading r)).1 ∧
      (Dimacs.finish r).2 = (Dimacs.finish (forgetReading r)).2 := by
  have hopen : (forgetReading r).clauseOpen = r.clauseOpen := rfl
  unfold Dimacs.finish
  rw [hopen]
  split
  · exact ⟨rfl, rfl⟩
  · exact ⟨rfl, rfl⟩

/-- Lines are read as without the record. -/
theorem forget_readLines (lines : List (Except ReadFailure String)) :
    (Dimacs.readLines r lines).1.forget = (Dimacs.readLines (forgetReading r) lines).1 ∧
      (Dimacs.readLines r lines).2 = (Dimacs.readLines (forgetReading r) lines).2 := by
  induction lines generalizing r with
  | nil => exact forget_finish
  | cons line rest ih =>
    cases line with
    | error failure => exact ⟨rfl, rfl⟩
    | ok text =>
      unfold Dimacs.readLines
      dsimp only
      cases Dimacs.Line.ofText text.toList with
      | skipped => exact ih
      | stop => exact forget_finish
      | problem counts =>
        cases counts with
        | none => exact ⟨rfl, rfl⟩
        | some counts => exact ih
      | literals fields =>
        obtain ⟨hreading, hresult⟩ :=
          forget_readFields (r := { r with lines := r.lines + 1 }) fields
        have hcounted : ({ forgetReading r with lines := (forgetReading r).lines + 1 } :
          Dimacs.Reading E) = forgetReading { r with lines := r.lines + 1 } := rfl
        dsimp only
        rw [hcounted]
        cases hfields : Dimacs.readFields { r with lines := r.lines + 1 } fields with
        | mk read result =>
          cases hfields' : Dimacs.readFields
              (forgetReading { r with lines := r.lines + 1 }) fields with
          | mk read' result' =>
            rw [hfields, hfields'] at hreading hresult
            obtain rfl : forgetReading read = read' := hreading
            obtain rfl : result = result' := hresult
            cases result with
            | ok => exact ih
            | error cause => exact ⟨rfl, rfl⟩

/-- A formula is read into a session for a recorded engine as into the session for the engine
within. -/
theorem forget_read (source : Text.Source) :
    (Dimacs.read s source).1.forget = (Dimacs.read s.forget source).1 ∧
      (Dimacs.read s source).2 = (Dimacs.read s.forget source).2 :=
  forget_readLines (r := { session := s, summary := {}, lines := 0, clauseOpen := false })
    source.lines

/-! ### All calls -/

/-- A call on a session for a recorded engine is the call on the session for the engine within. -/
theorem forget_perform (call : Call) : (s.perform call).forget = s.forget.perform call := by
  cases call with
  | add lit => exact (forget_add lit).1
  | addClause clause => exact (forget_addClause clause).1
  | assume lit => exact (forget_assume lit).1
  | solve => exact forget_solve.1
  | setOption name value index => exact (forget_setOption name value index).1
  | setTerminate callback => rfl
  | setExport bound given => exact (forget_setExport bound given).1
  | setImport offers => exact (forget_setImport offers).1
  | setNotify given => exact (forget_setNotify given).1
  | catalog => rfl
  | read source => exact (forget_read source).1

/-- Calls on a session for a recorded engine are calls on the session for the engine within. -/
theorem forget_performAll (calls : List Call) :
    (s.performAll calls).forget = s.forget.performAll calls := by
  induction calls generalizing s with
  | nil => rfl
  | cons call rest ih =>
    show ((s.perform call).performAll rest).forget = (s.forget.perform call).performAll rest
    rw [ih, forget_perform]

end Session

end IncrementalSat
