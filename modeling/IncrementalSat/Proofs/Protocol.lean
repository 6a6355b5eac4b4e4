import IncrementalSat.Proofs.Calls
import IncrementalSat.Proofs.Recording

/-!
# Sessions keep the protocol

Whatever the engine answers, the stage of a session and the openness of a clause are told by the
requests that have reached the engine, and no request reaches it that its protocol does not permit
after those before.  Each call makes requests of the kinds that are permitted, one after another;
so this holds of every session after any calls.
-/

set_option autoImplicit false

namespace IncrementalSat

open Engine (Request)

/-! ## Logs -/

namespace Engine.Request

/-- The integer that a request adds. -/
def added? : Request → Option Int32
  | .add lit => some lit
  | _ => none

/-- Whether a request adds a literal or an assumption. -/
def isInput : Request → Bool
  | .add _ | .assume _ => true
  | _ => false

/-- Whether a request adds a literal or an assumption, or asks for a solve. -/
def isSearch : Request → Bool
  | .add _ | .assume _ | .solve => true
  | _ => false

end Engine.Request

namespace Log

variable {E : Type} {log : Log E} {e : E} {request : Request}

/-- The last integer added was not the zero that closes a clause. -/
def ClauseOpen (log : Log E) : Prop :=
  ∃ lit, (log.filterMap fun entry => entry.2.added?).getLast? = some lit ∧ lit ≠ 0

/-- A literal or an assumption was added. -/
def HasInput (log : Log E) : Prop :=
  ∃ entry ∈ log, entry.2.isInput = true

/-- The last request that added a literal or an assumption or asked for a solve was a solve with the
given verdict. -/
def Answered [Engine E] (verdict : Verdict) (log : Log E) : Prop :=
  ∃ e, (log.filter fun entry => entry.2.isSearch).getLast? = some (e, .solve) ∧
    (Engine.solve e).verdict = verdict

/-- What the protocol permits an engine to be asked after earlier requests. -/
def Permits [Engine E] (log : Log E) (e : E) : Request → Prop
  | .add lit => lit ≠ Int32.minValue
  | .assume lit => lit ≠ 0 ∧ lit ≠ Int32.minValue ∧ ¬ log.ClauseOpen
  | .solve => ¬ log.ClauseOpen ∧ log.HasInput
  | .setOption name _ =>
    ∃ o, (Catalog.exposed e).find? (fun o => o.name == name) = some o ∧
      (o.configurationOnly = true → ¬ log.HasInput) ∧
      ¬ log.Answered .satisfiable ∧ ¬ log.Answered .unsatisfiable
  | .limit kind _ => ∃ entry ∈ limitOptions, entry.2 = kind
  | _ => True

/-- Each request is permitted after those before it. -/
def Lawful [Engine E] (log : Log E) : Prop :=
  ∀ before e request after, log = before ++ (e, request) :: after → Permits before e request

/-- After a literal the clause is open, and after zero it is not. -/
theorem clauseOpen_append_add (lit : Int32) :
    ClauseOpen (log ++ [(e, .add lit)]) ↔ lit ≠ 0 := by
  simp [ClauseOpen, Request.added?]

/-- A request that adds no integer leaves an open clause open. -/
theorem clauseOpen_append (h : request.added? = none) :
    ClauseOpen (log ++ [(e, request)]) ↔ log.ClauseOpen := by
  simp [ClauseOpen, h]

/-- There is input after a request if there was before or the request brings some. -/
theorem hasInput_append :
    HasInput (log ++ [(e, request)]) ↔ log.HasInput ∨ request.isInput = true := by
  simp [HasInput, or_and_right, exists_or]

variable [Engine E] {verdict : Verdict}

/-- Right after a solve the answer is that of the solve. -/
theorem answered_append_solve :
    Answered verdict (log ++ [(e, .solve)]) ↔ (Engine.solve e).verdict = verdict := by
  simp [Answered, Request.isSearch]

/-- The answer stands as long as nothing is added or solved. -/
theorem answered_append (h : request.isSearch = false) :
    Answered verdict (log ++ [(e, request)]) ↔ log.Answered verdict := by
  simp [Answered, h]

/-- Input takes the answer back. -/
theorem not_answered_append (h : request.isInput = true) :
    ¬ Answered verdict (log ++ [(e, request)]) := by
  cases request <;> simp [Request.isInput] at h <;> simp [Answered, Request.isSearch]

/-- A request that is permitted after a lawful log may be appended to it. -/
theorem Lawful.append (h : log.Lawful) (hpermits : Permits log e request) :
    Lawful (log ++ [(e, request)]) := by
  intro before e' request' after hsplit
  rcases List.eq_nil_or_concat' after with rfl | ⟨after, last, rfl⟩
  · obtain ⟨rfl, hlast⟩ := List.append_inj' hsplit rfl
    obtain ⟨rfl, rfl⟩ := Prod.mk.inj (List.cons.inj hlast).1
    exact hpermits
  · rw [← List.cons_append, ← List.append_assoc] at hsplit
    exact h before e' request' after (List.append_inj' hsplit rfl).1

end Log

/-! ## Sessions -/

/-- An option of an engine may be set before there is an answer, and one for configuration only in
configuration. -/
theorem NativeOption.of_within_maxStage (o : NativeOption) {stage : Stage}
    (h : stage.within o.descriptor.maxStage = true) :
    (o.configurationOnly = true → stage = .config) ∧ stage ≠ .sat ∧ stage ≠ .unsat := by
  have hle : stage.rank ≤ (if o.configurationOnly then Stage.config else Stage.input).rank :=
    of_decide_eq_true h
  cases honly : o.configurationOnly with
  | true => cases stage <;> simp [honly, Stage.rank] at hle ⊢
  | false => cases stage <;> simp [honly, Stage.rank] at hle ⊢

namespace Session

variable {E : Type} {s s' : Session (Recorded E)}

/-- The stage that a request leads to. -/
def stageAfterRequest [Engine E] (stage : Stage) (e : E) : Request → Stage
  | .add _ | .assume _ => .input
  | .solve => stageAfter (Engine.solve e).verdict
  | _ => stage

/-- Whether a clause is open after a request. -/
def openAfterRequest (clauseOpen : Bool) : Request → Bool
  | .add lit => lit != 0
  | _ => clauseOpen

/-- A solve does not lead back to configuration. -/
theorem stageAfter_ne_config (verdict : Verdict) : stageAfter verdict ≠ .config := by
  cases verdict <;> simp [stageAfter]

/-- A solve leads to the stage with a valuation only if it answers satisfiable. -/
theorem stageAfter_eq_sat_iff {verdict : Verdict} :
    stageAfter verdict = .sat ↔ verdict = .satisfiable := by
  cases verdict <;> simp [stageAfter]

/-- A solve leads to the stage with failed assumptions only if it answers unsatisfiable. -/
theorem stageAfter_eq_unsat_iff {verdict : Verdict} :
    stageAfter verdict = .unsat ↔ verdict = .unsatisfiable := by
  cases verdict <;> simp [stageAfter]

/-- Moving to a stage changes nothing else but the journal. -/
theorem moveTo_frame (s : Session E) (stage : Stage) :
    (s.moveTo stage).stage = stage ∧ (s.moveTo stage).engine = s.engine ∧
      (s.moveTo stage).clauseOpen = s.clauseOpen := by
  unfold moveTo
  split
  · rename_i hstage
    exact ⟨hstage, rfl, rfl⟩
  · exact ⟨rfl, rfl, rfl⟩

/-- A session is in the stage that its log tells, and its log is lawful. -/
structure Follows [Engine E] (s : Session (Recorded E)) : Prop where
  clauseOpen : s.clauseOpen = true ↔ s.engine.log.ClauseOpen
  input_of_open : s.clauseOpen = true → s.stage = .input
  config : s.stage = .config ↔ ¬ s.engine.log.HasInput
  sat : s.stage = .sat ↔ s.engine.log.Answered .satisfiable
  unsat : s.stage = .unsat ↔ s.engine.log.Answered .unsatisfiable
  lawful : s.engine.log.Lawful

variable [Engine E]

namespace Follows

/-- What is noted in the journal does not matter. -/
theorem congr (h : Follows s) (hlog : s'.engine.log = s.engine.log) (hstage : s'.stage = s.stage)
    (hopen : s'.clauseOpen = s.clauseOpen) : Follows s' where
  clauseOpen := by rw [hopen, hlog, h.clauseOpen]
  input_of_open := by
    rw [hopen, hstage]
    exact h.input_of_open
  config := by rw [hstage, hlog, h.config]
  sat := by rw [hstage, hlog, h.sat]
  unsat := by rw [hstage, hlog, h.unsat]
  lawful := hlog ▸ h.lawful

/-- A session for a fresh engine has made no request. -/
theorem initial (engine : E) : Follows (ofRecorded engine) where
  clauseOpen := by simp [ofRecorded, ofEngine, Log.ClauseOpen]
  input_of_open h := absurd h Bool.false_ne_true
  config := by simp [ofRecorded, ofEngine, Log.HasInput]
  sat := by simp [ofRecorded, ofEngine, Log.Answered]
  unsat := by simp [ofRecorded, ofEngine, Log.Answered]
  lawful := by
    intro before e request after hsplit
    simp [ofRecorded, ofEngine] at hsplit

/-- A request that is permitted is followed by a session in the stage that it leads to. -/
theorem request (h : Follows s) (request : Request)
    (hlog : s'.engine.log = s.engine.log ++ [(s.engine.engine, request)])
    (hpermits : s.engine.log.Permits s.engine.engine request)
    (hstage : s'.stage = stageAfterRequest s.stage s.engine.engine request)
    (hopen : s'.clauseOpen = openAfterRequest s.clauseOpen request) : Follows s' := by
  have hlawful : s'.engine.log.Lawful := by
    rw [hlog]
    exact h.lawful.append hpermits
  have hother : request.added? = none → request.isSearch = false → request.isInput = false →
      s'.stage = s.stage → s'.clauseOpen = s.clauseOpen → Follows s' := by
    intro hadded hsearch hinput hstage hopen
    refine ⟨?_, ?_, ?_, ?_, ?_, hlawful⟩
    · rw [hopen, hlog, Log.clauseOpen_append hadded, h.clauseOpen]
    · rw [hopen, hstage]
      exact h.input_of_open
    · rw [hstage, hlog, Log.hasInput_append, h.config, hinput]
      simp
    · rw [hstage, hlog, Log.answered_append hsearch, h.sat]
    · rw [hstage, hlog, Log.answered_append hsearch, h.unsat]
  cases request with
  | add lit =>
    refine ⟨?_, fun _ => hstage, ?_, ?_, ?_, hlawful⟩
    · rw [hopen, hlog, Log.clauseOpen_append_add]
      simp [openAfterRequest]
    · rw [hstage, hlog, Log.hasInput_append]
      simp [stageAfterRequest, Request.isInput]
    · rw [hstage, hlog]
      simpa [stageAfterRequest] using Log.not_answered_append rfl
    · rw [hstage, hlog]
      simpa [stageAfterRequest] using Log.not_answered_append rfl
  | assume lit =>
    refine ⟨?_, fun _ => hstage, ?_, ?_, ?_, hlawful⟩
    · rw [hopen, hlog, Log.clauseOpen_append rfl, ← h.clauseOpen]
      rfl
    · rw [hstage, hlog, Log.hasInput_append]
      simp [stageAfterRequest, Request.isInput]
    · rw [hstage, hlog]
      simpa [stageAfterRequest] using Log.not_answered_append rfl
    · rw [hstage, hlog]
      simpa [stageAfterRequest] using Log.not_answered_append rfl
  | solve =>
    have hclosed : s'.clauseOpen = false := by
      rw [hopen]
      simpa [openAfterRequest] using mt h.clauseOpen.1 hpermits.1
    have hinput : Log.HasInput (s.engine.log ++ [(s.engine.engine, .solve)]) :=
      Log.hasInput_append.2 (.inl hpermits.2)
    refine ⟨?_, fun hopen => ?_, ?_, ?_, ?_, hlawful⟩
    · rw [hclosed, hlog, Log.clauseOpen_append rfl, ← h.clauseOpen, ← hclosed, hopen]
      rfl
    · exact absurd (hclosed.symm.trans hopen) Bool.false_ne_true
    · rw [hstage, hlog]
      exact iff_of_false (stageAfter_ne_config _) (not_not_intro hinput)
    · rw [hstage, hlog, Log.answered_append_solve]
      exact stageAfter_eq_sat_iff
    · rw [hstage, hlog, Log.answered_append_solve]
      exact stageAfter_eq_unsat_iff
  | setOption name value => exact hother rfl rfl rfl hstage hopen
  | limit kind value => exact hother rfl rfl rfl hstage hopen
  | setTerminate callback => exact hother rfl rfl rfl hstage hopen
  | setLearn bound given => exact hother rfl rfl rfl hstage hopen
  | setImport offers => exact hother rfl rfl rfl hstage hopen
  | setNotify given => exact hother rfl rfl rfl hstage hopen

/-! ### Calls -/

/-- Events that are noted are no requests. -/
theorem note (h : Follows s) (events : Array Event) : Follows (s.note events) :=
  h.congr rfl rfl rfl

/-- A literal that is pushed is one request. -/
theorem push (h : Follows s) {lit : Int32} (hlit : lit ≠ Int32.minValue) :
    Follows (s.push lit) := by
  obtain ⟨hstage, hengine, -⟩ := s.moveTo_frame .input
  have hlog : (s.push lit).engine.log =
      (s.moveTo .input).engine.log ++ [((s.moveTo .input).engine.engine, .add lit)] := rfl
  rw [hengine] at hlog
  exact h.request (.add lit) hlog hlit hstage rfl

/-- The literals of a clause are requests that are permitted one after the other. -/
theorem foldl_push (h : Follows s) {clause : List Int32}
    (hclause : ∀ lit ∈ clause, lit ≠ Int32.minValue) : Follows (clause.foldl Session.push s) := by
  induction clause generalizing s with
  | nil => exact h
  | cons lit rest ih =>
    exact ih (h.push (hclause lit List.mem_cons_self)) fun n hn =>
      hclause n (List.mem_cons_of_mem _ hn)

/-- An integer added is one request that is permitted, or it is refused. -/
theorem add (h : Follows s) (lit : Int32) : Follows (s.add lit).1 := by
  unfold Session.add
  split
  · exact h
  · rename_i hlit
    exact h.push hlit

/-- A whole clause makes a request for each of its integers, all permitted, or none. -/
theorem addClause (h : Follows s) (clause : List Int32) : Follows (s.addClause clause).1 := by
  unfold Session.addClause
  split
  · exact h
  rename_i hproper
  split
  · exact h.note _
  · refine (h.foldl_push fun lit hlit => ?_).push (by decide)
    rintro rfl
    exact hproper (List.any_eq_true.2 ⟨_, hlit, by decide⟩)

/-- An assumption is requested only while no clause is open. -/
theorem assume (h : Follows s) (lit : Int32) : Follows (s.assume lit).1 := by
  unfold Session.assume
  split
  · exact h
  rename_i hproper
  split
  · exact h.note _
  · rename_i hopen
    obtain ⟨hstage, hengine, hclauseOpen⟩ := s.moveTo_frame .input
    have hlit : lit ≠ 0 ∧ lit ≠ Int32.minValue := by simpa [isMalformed] using hproper
    refine h.request (.assume lit) ?_ ⟨hlit.1, hlit.2, mt h.clauseOpen.2 hopen⟩ hstage hclauseOpen
    rw [← hengine]
    rfl

/-- A solve is requested only with some input and while no clause is open. -/
theorem solve (h : Follows s) : Follows s.solve.1 := by
  unfold Session.solve
  split
  · exact h
  rename_i hstage
  split
  · exact h.note _
  · rename_i hopen
    have hinput : s.engine.log.HasInput := not_not.1 (mt h.config.2 hstage)
    obtain ⟨hstage', hengine, hclauseOpen⟩ := (Session.note
      { s with engine := (Engine.solve s.engine).engine }
      (Engine.solve s.engine).events).moveTo_frame (stageAfter (Engine.solve s.engine).verdict)
    show Follows (Session.moveTo _ _)
    refine h.request .solve ?_ ⟨mt h.clauseOpen.2 hopen, hinput⟩ hstage' hclauseOpen
    rw [hengine]
    rfl

/-- The request of an option that may still be set is permitted. -/
theorem permits_write (h : Follows s) {name : String} {value : Int} {descriptor : Descriptor}
    {target : Target} (hlookup : Catalog.lookup s.engine.engine name = some (descriptor, target))
    (hwithin : s.stage.within descriptor.maxStage = true) :
    s.engine.log.Permits s.engine.engine (target.request name value) := by
  unfold Catalog.lookup at hlookup
  cases hlimit : limitOptions.find? fun entry => entry.1.name == name with
  | some entry =>
    rw [hlimit] at hlookup
    obtain ⟨rfl, rfl⟩ := Prod.mk.inj (Option.some.inj hlookup)
    exact ⟨entry, List.mem_of_find?_eq_some hlimit, rfl⟩
  | none =>
    rw [hlimit] at hlookup
    obtain ⟨o, hfind, hresult⟩ := Option.map_eq_some_iff.1 hlookup
    obtain ⟨rfl, rfl⟩ := Prod.mk.inj hresult
    obtain ⟨hconfig, hsat, hunsat⟩ := o.of_within_maxStage hwithin
    exact ⟨o, hfind, fun honly => h.config.1 (hconfig honly), mt h.sat.2 hsat, mt h.unsat.2 hunsat⟩

/-- A write makes no request, or one that is permitted. -/
theorem setOption (h : Follows s) (name : String) (value index : Int) :
    Follows (s.setOption name value index).1 := by
  rcases s.engine.log_writeOption s.stage name value index with
    hlog | ⟨descriptor, target, hlookup, hwithin, hlog⟩
  · exact h.congr hlog rfl rfl
  · refine h.request (target.request name value) hlog (h.permits_write hlookup hwithin) ?_ ?_
    · cases target with
      | limit kind => rfl
      | native => rfl
    · cases target with
      | limit kind => rfl
      | native => rfl

/-- An export callback may be registered or cleared at any time. -/
theorem setExport (h : Follows s) (bound : Int32) (given : Bool) :
    Follows (s.setExport bound given).1 := by
  unfold Session.setExport
  split
  · exact h.note _
  · exact h.request (.setLearn bound.toInt.toNat given) rfl trivial rfl rfl

/-- Clauses may be offered at any time, and the engine may decline them. -/
theorem setImport (h : Follows s) (offers : Option (List (List Int32))) :
    Follows (s.setImport offers).1 := by
  have hlog : (Engine.setImport s.engine offers).1.log =
    s.engine.log ++ [(s.engine.engine, .setImport offers)] := rfl
  unfold Session.setImport
  split
  · rename_i hresult
    rw [hresult] at hlog
    exact h.request (.setImport offers) hlog trivial rfl rfl
  · rename_i hresult
    rw [hresult] at hlog
    exact h.request (.setImport offers) hlog trivial rfl rfl

/-- A notify callback may be given at any time, and the engine may decline it. -/
theorem setNotify (h : Follows s) (given : Bool) : Follows (s.setNotify given).1 := by
  have hlog : (Engine.setNotify s.engine given).1.log =
    s.engine.log ++ [(s.engine.engine, .setNotify given)] := rfl
  unfold Session.setNotify
  split
  · rename_i hresult
    rw [hresult] at hlog
    exact h.request (.setNotify given) hlog trivial rfl rfl
  · rename_i hresult
    rw [hresult] at hlog
    exact h.request (.setNotify given) hlog trivial rfl rfl

/-- A call makes requests that are permitted, one after another. -/
theorem perform (h : Follows s) (call : Call) : Follows (s.perform call) := by
  cases call with
  | add lit => exact h.add lit
  | addClause clause => exact h.addClause clause
  | assume lit => exact h.assume lit
  | solve => exact h.solve
  | setOption name value index => exact h.setOption name value index
  | setTerminate callback =>
    exact h.request (.setTerminate callback) rfl trivial rfl rfl
  | setExport bound given => exact h.setExport bound given
  | setImport offers => exact h.setImport offers
  | setNotify given => exact h.setNotify given
  | catalog => exact h.note _
  | read source =>
    exact read_induction (P := Follows) (fun lit h => h.add lit) (fun event _ h => h.note #[event])
      h source

/-- A session follows the protocol through any calls. -/
theorem performAll (h : Follows s) (calls : List Call) : Follows (s.performAll calls) := by
  induction calls generalizing s with
  | nil => exact h
  | cons call rest ih => exact ih (h.perform call)

end Follows

/-! ## Reads -/

/-- Without a valuation found, the engine has no part in what is read of one. -/
theorem value_congr {E' : Type} [Engine E'] {s : Session E} {s' : Session E'}
    (hstage : s'.stage = s.stage) (hsat : s.stage ≠ .sat) :
    (∀ lit, s'.value lit = s.value lit) ∧ s'.assignmentSize = s.assignmentSize ∧
      ∀ index, s'.assignment index = s.assignment index := by
  have hsat' : s'.stage ≠ .sat := hstage ▸ hsat
  have hsize : s'.assignmentSize = s.assignmentSize := by
    unfold assignmentSize
    rw [if_pos hsat, if_pos hsat']
  refine ⟨fun lit => ?_, hsize, fun index => ?_⟩
  · unfold value
    rw [if_pos hsat, if_pos hsat']
  · unfold assignment assignmentSize
    rw [if_pos hsat, if_pos hsat']

/-- Without a refutation, the engine has no part in what is read of one. -/
theorem failed_congr {E' : Type} [Engine E'] {s : Session E} {s' : Session E'}
    (hstage : s'.stage = s.stage) (hunsat : s.stage ≠ .unsat) (lit : Int32) :
    s'.failed lit = s.failed lit := by
  have hunsat' : s'.stage ≠ .unsat := hstage ▸ hunsat
  unfold failed
  rw [if_pos hunsat, if_pos hunsat']

/-- A session for any engine keeps the protocol, after any calls.  With its engine recorded, which
makes no difference to it, a clause is open exactly when the last integer added was not zero, and
then the stage is input; it is in configuration until there is an input, in a final stage while the
last search request is a solve with that verdict, and in input otherwise; each request that reached
the engine was permitted after those before it; and the engine is read only in the final stage that
the read is about. -/
theorem performAll_keeps_protocol (engine : E) (calls : List Call) :
    let s := (ofEngine engine).performAll calls
    let recorded := (ofRecorded engine).performAll calls
    let log := recorded.engine.log
    recorded.forget = s ∧
      (s.clauseOpen = true ↔ log.ClauseOpen) ∧ (s.clauseOpen = true → s.stage = .input) ∧
      (s.stage = .config ↔ ¬ log.HasInput) ∧
      (s.stage = .sat ↔ log.Answered .satisfiable) ∧
      (s.stage = .unsat ↔ log.Answered .unsatisfiable) ∧
      (s.stage = .input ↔
        log.HasInput ∧ ¬ log.Answered .satisfiable ∧ ¬ log.Answered .unsatisfiable) ∧
      (∀ before e request after, log = before ++ (e, request) :: after →
        Log.Permits before e request) ∧
      (s.stage ≠ .sat → ∀ (E' : Type) [Engine E'] (s' : Session E'), s'.stage = s.stage →
        (∀ lit, s'.value lit = s.value lit) ∧ s'.assignmentSize = s.assignmentSize ∧
          ∀ index, s'.assignment index = s.assignment index) ∧
      (s.stage ≠ .unsat → ∀ (E' : Type) [Engine E'] (s' : Session E'), s'.stage = s.stage →
        ∀ lit, s'.failed lit = s.failed lit) := by
  intro s recorded log
  have hforget : recorded.forget = s := forget_performAll calls
  have hfollows : Follows recorded := (Follows.initial engine).performAll calls
  have hstage : s.stage = recorded.stage := congrArg Session.stage hforget.symm
  have hopen : s.clauseOpen = recorded.clauseOpen := congrArg Session.clauseOpen hforget.symm
  have hinput : recorded.stage = .input ↔
      log.HasInput ∧ ¬ log.Answered .satisfiable ∧ ¬ log.Answered .unsatisfiable := by
    rw [← hfollows.sat, ← hfollows.unsat, ← not_iff_not.2 hfollows.config |>.trans not_not]
    cases recorded.stage <;> simp
  rw [hstage, hopen]
  exact ⟨hforget, hfollows.clauseOpen, hfollows.input_of_open, hfollows.config, hfollows.sat,
    hfollows.unsat, hinput, hfollows.lawful,
    fun hsat E' _ s' hs' => value_congr (hs'.trans hstage.symm) (hstage ▸ hsat),
    fun hunsat E' _ s' hs' lit => failed_congr (hs'.trans hstage.symm) (hstage ▸ hunsat) lit⟩

end Session

end IncrementalSat
