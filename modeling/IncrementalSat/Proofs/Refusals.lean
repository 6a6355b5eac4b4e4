import IncrementalSat.Proofs.Recording
import IncrementalSat.Proofs.Verdicts
import IncrementalSat.Reference
import IncrementalSat.Session.Operation

/-!
# Refused operations

A session checks an operation in full before it reaches the engine.  So an operation that is refused
leaves nothing behind but a note in the journal, unless the engine itself declined the one request
that was made; and the clause-learning solver changes nothing when it declines.  The literals of a
clause are checked together beforehand, so that none of them is refused once others are added.
-/

set_option autoImplicit false

namespace IncrementalSat

open Engine (Request)

namespace Session

variable {E : Type} [Engine E] {s : Session E} {refusal : Refusal}

/-! ## Whole clauses -/

/-- Once the literals of a clause are checked and no clause is open, to add the clause is to add its
literals and then zero, none of which is refused. -/
theorem addClause_eq_addEach {clause : List Int32} (hwell : clause.any isMalformed = false)
    (hopen : s.clauseOpen = false) : s.addClause clause = s.addEach (clause ++ [0]) := by
  have hpush : ∀ (s : Session E) {lit : Int32}, lit ≠ Int32.minValue →
      s.add lit = (s.push lit, .ok ()) := fun s lit hlit => if_neg hlit
  have heach : ∀ s : Session E,
      s.addEach (clause ++ [0]) = ((clause.foldl push s).push 0, .ok ()) := by
    induction clause with
    | nil =>
      intro s
      simp only [List.nil_append, addEach, hpush s (show (0 : Int32) ≠ Int32.minValue by decide),
        List.foldl_nil]
    | cons lit rest ih =>
      intro s
      rw [List.any_cons, Bool.or_eq_false_iff] at hwell
      have hlit : lit ≠ Int32.minValue := (ne_zero_of_isMalformed hwell.1).2
      simp only [List.cons_append, addEach, hpush s hlit, List.foldl_cons, ih hwell.2]
  rw [heach, addClause, hwell, hopen]
  rfl

/-! ## What a refused operation leaves -/

/-- How a session may come out of a refused operation: with events noted and nothing else, or after
the one request that its engine declined. -/
def Spared (s : Session E) (refusal : Refusal) (s' : Session E) : Prop :=
  (∃ events, s' = s.note events) ∨
    ∃ request cause events, Engine.answer s.engine request = .error cause ∧
      refusal = cause.refusal ∧
      s' = note { s with engine := Engine.serve s.engine request } events

namespace Spared

variable {s' : Session E}

/-- The stage and the openness of a clause are as they were. -/
theorem stage_eq (h : Spared s refusal s') :
    s'.stage = s.stage ∧ s'.clauseOpen = s.clauseOpen := by
  obtain ⟨events, rfl⟩ | ⟨request, cause, events, -, -, rfl⟩ := h
  · exact ⟨rfl, rfl⟩
  · exact ⟨rfl, rfl⟩

/-- The engine is as it was, or has declined one request. -/
theorem engine_eq (h : Spared s refusal s') :
    s'.engine = s.engine ∨
      ∃ request cause, Engine.answer s.engine request = .error cause ∧ refusal = cause.refusal ∧
        s'.engine = Engine.serve s.engine request := by
  obtain ⟨events, rfl⟩ | ⟨request, cause, events, hanswer, hrefusal, rfl⟩ := h
  · exact .inl rfl
  · exact .inr ⟨request, cause, hanswer, hrefusal, rfl⟩

end Spared

/-- An outcome spares a session if the session comes out of it as it may when it is a refusal. -/
def Spares {α : Type} (s : Session E) (x : Session E × Except Refusal α) : Prop :=
  ∀ refusal, x.2 = .error refusal → Spared s refusal x.1

namespace Spares

variable {α : Type} {x y : Session E × Except Refusal α}

/-- Nothing is asked of an operation that is not refused. -/
theorem ok {s' : Session E} {value : α} : Spares s (s', .ok value) := by
  intro refusal h
  cases h

/-- A session that is left alone is spared. -/
theorem same {result : Except Refusal α} : Spares s (s, result) :=
  fun _ _ => .inl ⟨#[], by simp [note]⟩

/-- A session that only notes events is spared. -/
theorem noted {events : Array Event} {result : Except Refusal α} :
    Spares s (s.note events, result) :=
  fun _ _ => .inl ⟨events, rfl⟩

/-- A request that the engine declined is the only one. -/
theorem declined {request : Request} {cause : EngineRefusal} {events : Array Event}
    (h : Engine.answer s.engine request = .error cause) :
    Spares s (note { s with engine := Engine.serve s.engine request } events,
      (.error cause.refusal : Except Refusal α)) := by
  intro refusal hrefusal
  cases hrefusal
  exact .inr ⟨request, cause, events, h, rfl, rfl⟩

/-- It does not matter which of two outcomes that spare a session a check leads to. -/
theorem ite {p : Prop} [Decidable p] (hx : Spares s x) (hy : Spares s y) :
    Spares s (if p then x else y) := by
  split
  · exact hx
  · exact hy

/-- What an operation yields does not matter. -/
theorem withoutValue (h : Spares s x) : Spares s (x.1, outcome x.2) := by
  obtain ⟨s', result⟩ := x
  cases result with
  | ok value => exact ok
  | error cause =>
    intro refusal hrefusal
    cases hrefusal
    exact h cause rfl

end Spares

/-- An integer that is refused has not reached the engine. -/
theorem spares_add (lit : Int32) : Spares s (s.add lit) :=
  .ite .same .ok

/-- A whole clause that is refused has not reached the engine with any of its integers. -/
theorem spares_addClause (clause : List Int32) : Spares s (s.addClause clause) :=
  .ite .same (.ite .noted .ok)

/-- An assumption that is refused has not reached the engine. -/
theorem spares_assume (lit : Int32) : Spares s (s.assume lit) :=
  .ite .same (.ite .noted .ok)

/-- A solve that is refused has not reached the engine, so the assumptions are still pending. -/
theorem spares_solve : Spares s s.solve :=
  .ite .same (.ite .noted .ok)

/-- The request of a write is what the write does. -/
theorem serve_request (engine : E) (target : Target) (name : String) (value : Int) :
    target.write engine name value =
      (Engine.serve engine (target.request name value),
        Engine.answer engine (target.request name value)) := by
  cases target with
  | limit kind => rfl
  | native => rfl

/-- An option that is refused has not reached the engine, or the engine itself declined it. -/
theorem spares_setOption (name : String) (value index : Int) :
    Spares s (s.setOption name value index) := by
  have hpair : s.setOption name value index =
      (Session.note { s with engine := (writeOption s.engine s.stage name value index).1 }
          (writeOption s.engine s.stage name value index).2.2,
        (writeOption s.engine s.stage name value index).2.1) := rfl
  rw [hpair]
  unfold writeOption
  cases Catalog.lookup s.engine name with
  | none => exact .noted
  | some found =>
    obtain ⟨descriptor, target⟩ := found
    dsimp only
    split
    · exact .noted
    split
    · exact .noted
    split
    · exact .noted
    -- only the request itself is left to be declined
    rw [serve_request]
    cases hanswer : Engine.answer s.engine (target.request name value) with
    | ok => exact .ok
    | error cause => exact .declined hanswer

/-- An export callback that is refused has not reached the engine. -/
theorem spares_setExport (bound : Int32) (given : Bool) : Spares s (s.setExport bound given) :=
  .ite .noted .ok

/-- Only the engine declines offers of clauses. -/
theorem spares_setImport (offers : Option (List (List Int32))) :
    Spares s (s.setImport offers) := by
  have hrequest : Engine.setImport s.engine offers =
    (Engine.serve s.engine (.setImport offers), Engine.answer s.engine (.setImport offers)) := rfl
  unfold setImport
  rw [hrequest]
  cases hanswer : Engine.answer s.engine (.setImport offers) with
  | ok => exact .ok
  | error cause => exact .declined hanswer

/-- Only the engine declines a notify callback. -/
theorem spares_setNotify (given : Bool) : Spares s (s.setNotify given) := by
  have hrequest : Engine.setNotify s.engine given =
    (Engine.serve s.engine (.setNotify given), Engine.answer s.engine (.setNotify given)) := rfl
  unfold setNotify
  rw [hrequest]
  cases hanswer : Engine.answer s.engine (.setNotify given) with
  | ok => exact .ok
  | error cause => exact .declined hanswer

/-- An operation that is refused has made no request but the one that the engine declined. -/
theorem spares_attempt (operation : Operation) : Spares s (s.attempt operation) := by
  cases operation with
  | add lit => exact spares_add lit
  | addClause clause => exact spares_addClause clause
  | assume lit => exact spares_assume lit
  | solve => exact spares_solve.withoutValue
  | value lit => exact .same
  | failed lit => exact .same
  | assignmentSize => exact .same
  | assignment index => exact .same
  | option name => exact .same
  | setOption name value index => exact spares_setOption name value index
  | setExport bound given => exact spares_setExport bound given
  | setImport offers => exact spares_setImport offers
  | setNotify given => exact spares_setNotify given

/-! ## Recorded engines -/

omit [Engine E] in
/-- The session with its engine recorded from now on. -/
def record (s : Session E) : Session (Recorded E) where
  engine := { engine := s.engine }
  stage := s.stage
  clauseOpen := s.clauseOpen
  journal := s.journal

/-- A recorded engine answers as the engine within. -/
theorem answer_recorded (r : Recorded E) (request : Request) :
    Engine.answer r request = Engine.answer r.engine request := by
  cases request <;> rfl

/-- A recorded engine serves a request as the engine within, and records it. -/
theorem serve_recorded (r : Recorded E) (request : Request) :
    Engine.serve r request = r.after request (Engine.serve r.engine request) := by
  cases request <;> rfl

/-- An operation on a session for a recorded engine is the operation on the session for the engine
within. -/
theorem forget_attempt {r : Session (Recorded E)} (operation : Operation) :
    (r.attempt operation).1.forget = (r.forget.attempt operation).1 ∧
      (r.attempt operation).2 = (r.forget.attempt operation).2 := by
  cases operation with
  | add lit => exact forget_add lit
  | addClause clause => exact forget_addClause clause
  | assume lit => exact forget_assume lit
  | solve => exact ⟨forget_solve.1, congrArg outcome forget_solve.2⟩
  | value lit => exact ⟨rfl, rfl⟩
  | failed lit => exact ⟨rfl, rfl⟩
  | assignmentSize => exact ⟨rfl, rfl⟩
  | assignment index => exact ⟨rfl, rfl⟩
  | option name => exact ⟨rfl, rfl⟩
  | setOption name value index => exact forget_setOption name value index
  | setExport bound given => exact forget_setExport bound given
  | setImport offers => exact forget_setImport offers
  | setNotify given => exact forget_setNotify given

/-! ## The clause-learning solver -/

/-- The solver changes nothing when it declines a request. -/
theorem serve_of_declined {R : Type} [Random.Source R] {engine : Cdcl.Solver R} {request : Request}
    {cause : EngineRefusal} (h : Engine.answer engine request = .error cause) :
    Engine.serve engine request = engine := by
  cases request with
  | setOption name value =>
    change (engine.setOption name value).2 = .error cause at h
    show (engine.setOption name value).1 = engine
    unfold Cdcl.Solver.setOption at h ⊢
    cases hwrite : engine.settings.write name value with
    | error cause => rfl
    | ok settings =>
      rw [hwrite] at h
      dsimp only at h
      split at h
      · cases h
      · cases h
  | limit kind value =>
    change (engine.setLimit kind value).2 = .error cause at h
    show (engine.setLimit kind value).1 = engine
    unfold Cdcl.Solver.setLimit at h ⊢
    dsimp only at h ⊢
    by_cases hdecisions : kind = "decisions"
    · rw [if_pos hdecisions] at h
      cases h
    rw [if_neg hdecisions] at h ⊢
    by_cases hconflicts : kind = "conflicts"
    · rw [if_pos hconflicts] at h
      cases h
    rw [if_neg hconflicts]
  | setImport offers => rfl
  | setNotify given => rfl
  | add lit => cases h
  | assume lit => cases h
  | solve => cases h
  | setTerminate callback => cases h
  | setLearn bound given => cases h

/-- A refused operation changes nothing.  In a session for the clause-learning solver, after any
calls, the stage, the openness of a clause and the whole solver stay as they were.  In any session
for any engine, with the engine recorded, which makes no difference, the stage and the openness stay
as they were, and no request was made except one that the engine itself declined. -/
theorem refused_changes_nothing (R : Type) [Random.Source R] :
    (∀ (calls : List Call) (operation : Operation) (refusal : Refusal),
      let s := after R calls
      (s.attempt operation).2 = .error refusal →
        (s.attempt operation).1.stage = s.stage ∧
          (s.attempt operation).1.clauseOpen = s.clauseOpen ∧
          (s.attempt operation).1.engine = s.engine) ∧
      ∀ (E : Type) [Engine E] (s : Session E) (operation : Operation) (refusal : Refusal),
        let recorded := s.record.attempt operation
        (recorded.1.forget = (s.attempt operation).1 ∧ recorded.2 = (s.attempt operation).2) ∧
          ((s.attempt operation).2 = .error refusal →
            (s.attempt operation).1.stage = s.stage ∧
              (s.attempt operation).1.clauseOpen = s.clauseOpen ∧
              (recorded.1.engine.log = [] ∧ (s.attempt operation).1.engine = s.engine ∨
                ∃ request cause, recorded.1.engine.log = [(s.engine, request)] ∧
                  Engine.answer s.engine request = .error cause ∧ refusal = cause.refusal ∧
                  (s.attempt operation).1.engine = Engine.serve s.engine request)) := by
  constructor
  · intro calls operation refusal s h
    have hspared := spares_attempt operation refusal h
    refine ⟨hspared.stage_eq.1, hspared.stage_eq.2, ?_⟩
    obtain hsame | ⟨request, cause, hanswer, -, hserved⟩ := hspared.engine_eq
    · exact hsame
    · exact hserved.trans (serve_of_declined hanswer)
  · intro E _ s operation refusal recorded
    have hforget : recorded.1.forget = (s.attempt operation).1 ∧
        recorded.2 = (s.attempt operation).2 := forget_attempt (r := s.record) operation
    refine ⟨hforget, fun h => ?_⟩
    have hspared := spares_attempt operation refusal (hforget.2.trans h)
    have hengine : (s.attempt operation).1.engine = recorded.1.engine.engine :=
      congrArg Session.engine hforget.1.symm
    refine ⟨(congrArg Session.stage hforget.1).symm.trans hspared.stage_eq.1,
      (congrArg Session.clauseOpen hforget.1).symm.trans hspared.stage_eq.2, ?_⟩
    rw [hengine]
    obtain hsame | ⟨request, cause, hanswer, hrefusal, hserved⟩ := hspared.engine_eq
    · exact .inl ⟨congrArg Recorded.log hsame, congrArg Recorded.engine hsame⟩
    · rw [answer_recorded] at hanswer
      rw [serve_recorded] at hserved
      exact .inr ⟨request, cause, congrArg Recorded.log hserved, hanswer, hrefusal,
        congrArg Recorded.engine hserved⟩

/-- Such operations: a solve while a clause is open leaves the assumption pending, and a value out
of its range is the one request made. -/
theorem refused_changes_nothing_of_open_clause :
    let s := after Random.Pcg [.addClause [1, 2], .assume 1, .add 3]
    (s.attempt .solve).2 = .error .invalidState ∧ (s.attempt .solve).1.engine = s.engine ∧
      s.engine.assumptions = #[⟨0, true⟩] ∧
      ∃ request cause, Engine.answer reference.engine request = .error cause ∧
        cause.refusal = .invalidOptionValue := by
  intro s
  have hrefused : (s.attempt .solve).2 = .error .invalidState := by decide +kernel
  have hvalue : (reference.attempt (.setOption "decay" 1000 0)).2 = .error .invalidOptionValue := by
    decide +kernel
  have hrecorded :
      (reference.record.attempt (.setOption "decay" 1000 0)).1.engine.log.length = 1 := by
    decide +kernel
  refine ⟨hrefused, ((refused_changes_nothing Random.Pcg).1 _ _ _ hrefused).2.2, by decide +kernel,
    ?_⟩
  have hdeclined := ((refused_changes_nothing Random.Pcg).2 _ reference
    (.setOption "decay" 1000 0) .invalidOptionValue).2 hvalue
  obtain ⟨-, -, ⟨hnone, -⟩ | ⟨request, cause, -, hanswer, hrefusal, -⟩⟩ := hdeclined
  · rw [hnone] at hrecorded
    cases hrecorded
  · exact ⟨request, cause, hanswer, hrefusal.symm⟩

end Session

end IncrementalSat
