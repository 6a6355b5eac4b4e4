import Mathlib
import IncrementalSat.Session.Call

/-!
# What calls keep

A call reaches the engine through few requests, and notes events of its own and those that the
engine tells.  So a property of an engine and a journal that each request keeps is kept by every
call, whatever its arguments; a formula that is read makes a request for each of its integers.
-/

set_option autoImplicit false

namespace IncrementalSat

/-- Whether an event is noted by a session on its own account, and not told by its engine. -/
def Event.isOwn : Event → Bool
  | sessionMade _ | moved _ _ | clauseRefused | assumptionRefused _ | solveRefused
  | expecting _ _ | formulaRead _ _ | catalogBuilt _ | optionUnknown _ | optionLate _ _
  | optionSet _ _ | optionDeclined _ _ _ | terminateSet _ | exportRefused _ | exportSet _ _
  | importDeclined _ | notifyDeclined _ => true
  | _ => false

namespace Session

variable {E : Type} [Engine E]

/-! ## Formulas that are read -/

section Reading

variable {P : Session E → Prop} {r : Dimacs.Reading E}

/-- Reading a field keeps what the addition of an integer keeps. -/
theorem readField_induction (hadd : ∀ {s} lit, P s → P (s.add lit).1) (hr : P r.session)
    (field : List Char) : P (Dimacs.readField r field).1.session := by
  unfold Dimacs.readField
  split
  · exact hr
  · rename_i lit _
    have hadded := hadd lit hr
    split
    · rename_i hresult
      rwa [hresult] at hadded
    · rename_i hresult
      rwa [hresult] at hadded

/-- Reading the fields of a line keeps what the addition of an integer keeps. -/
theorem readFields_induction (hadd : ∀ {s} lit, P s → P (s.add lit).1) (hr : P r.session)
    (fields : List (List Char)) : P (Dimacs.readFields r fields).1.session := by
  induction fields generalizing r with
  | nil => exact hr
  | cons field rest ih =>
    have hfield := readField_induction hadd hr field
    unfold Dimacs.readFields
    split
    · rename_i hresult
      rwa [hresult] at hfield
    · rename_i hresult
      rw [hresult] at hfield
      exact ih hfield

omit [Engine E] in
/-- Ending a reading keeps what a note keeps. -/
theorem finish_induction
    (hnote : ∀ {s : Session E} (event : Event), event.isOwn → P s → P (s.note #[event]))
    (hr : P r.session) : P (Dimacs.finish r).1 := by
  unfold Dimacs.finish
  split
  · exact hr
  · exact hnote _ rfl hr

/-- Reading lines keeps what notes and the addition of integers keep. -/
theorem readLines_induction (hadd : ∀ {s} lit, P s → P (s.add lit).1)
    (hnote : ∀ {s : Session E} (event : Event), event.isOwn → P s → P (s.note #[event]))
    (hr : P r.session) (lines : List (Except ReadFailure String)) :
    P (Dimacs.readLines r lines).1 := by
  induction lines generalizing r with
  | nil => exact finish_induction hnote hr
  | cons line rest ih =>
    cases line with
    | error failure => exact hr
    | ok text =>
      unfold Dimacs.readLines
      dsimp only
      split
      · exact ih hr
      · exact finish_induction (r := { r with lines := r.lines + 1 }) hnote hr
      · exact hr
      · exact ih (hnote _ rfl hr)
      · rename_i fields _
        have hfields := readFields_induction (r := { r with lines := r.lines + 1 }) hadd hr fields
        split
        · rename_i hresult
          rwa [hresult] at hfields
        · rename_i hresult
          rw [hresult] at hfields
          exact ih hfields

/-- What is kept when a literal is added and when an event is noted is kept when a formula is
read. -/
theorem read_induction (hadd : ∀ {s} lit, P s → P (s.add lit).1)
    (hnote : ∀ {s : Session E} (event : Event), event.isOwn → P s → P (s.note #[event]))
    {s : Session E} (hs : P s) (source : Text.Source) : P (Dimacs.read s source).1 :=
  readLines_induction (r := { session := s, summary := {}, lines := 0, clauseOpen := false }) hadd
    hnote hs source.lines

end Reading

/-! ## Calls -/

variable {P : E → Array Event → Prop} {s : Session E}

/-- A property of an engine and a journal that is kept by every request, other than a solve and the
registration of an export callback. -/
structure Kept (P : E → Array Event → Prop) : Prop where
  own : ∀ {e journal} (event : Event), event.isOwn → P e journal → P e (journal.push event)
  add : ∀ {e journal} (lit : Int32), P e journal →
    P (Engine.add e lit).1 (journal ++ (Engine.add e lit).2)
  assume : ∀ {e journal} (lit : Int32), P e journal → P (Engine.assume e lit) journal
  setOption : ∀ {e journal} (name : String) (value : Int), P e journal →
    P (Engine.setOption e name value).1 journal
  limit : ∀ {e journal} (kind : String) (value : Int), P e journal →
    P (Engine.limit e kind value).1 journal
  setTerminate : ∀ {e journal} (callback : Option Terminate), P e journal →
    P (Engine.setTerminate e callback) journal
  setImport : ∀ {e journal} (offers : Option (List (List Int32))), P e journal →
    P (Engine.setImport e offers).1 journal
  setNotify : ∀ {e journal} (given : Bool), P e journal → P (Engine.setNotify e given).1 journal

namespace Kept

/-- An event of its own may be noted. -/
theorem note (h : Kept P) (hs : P s.engine s.journal) {event : Event} (hown : event.isOwn) :
    P (s.note #[event]).engine (s.note #[event]).journal :=
  h.own event hown hs

/-- A move to a stage keeps what its note keeps. -/
theorem moveTo (h : Kept P) (hs : P s.engine s.journal) (stage : Stage) :
    P (s.moveTo stage).engine (s.moveTo stage).journal := by
  unfold Session.moveTo
  split
  · exact hs
  · exact h.own _ rfl hs

/-- Pushing an integer keeps what every request keeps. -/
theorem push (h : Kept P) (hs : P s.engine s.journal) (lit : Int32) :
    P (s.push lit).engine (s.push lit).journal :=
  h.add lit (h.moveTo hs .input)

/-- Pushing integers one after another keeps what every request keeps. -/
theorem foldl_push (h : Kept P) (hs : P s.engine s.journal) (clause : List Int32) :
    P (clause.foldl Session.push s).engine (clause.foldl Session.push s).journal := by
  induction clause generalizing s with
  | nil => exact hs
  | cons lit rest ih => exact ih (h.push hs lit)

/-- Adding an integer keeps what every request keeps, whether it is refused or not. -/
theorem sessionAdd (h : Kept P) (hs : P s.engine s.journal) (lit : Int32) :
    P (s.add lit).1.engine (s.add lit).1.journal := by
  unfold Session.add
  split
  · exact hs
  · exact h.push hs lit

/-- Adding a clause keeps what every request keeps, whether it is refused or not. -/
theorem addClause (h : Kept P) (hs : P s.engine s.journal) (clause : List Int32) :
    P (s.addClause clause).1.engine (s.addClause clause).1.journal := by
  unfold Session.addClause
  split
  · exact hs
  split
  · exact h.note hs rfl
  · exact h.push (h.foldl_push hs clause) 0

/-- Assuming a literal keeps what every request keeps, whether it is refused or not. -/
theorem sessionAssume (h : Kept P) (hs : P s.engine s.journal) (lit : Int32) :
    P (s.assume lit).1.engine (s.assume lit).1.journal := by
  unfold Session.assume
  split
  · exact hs
  split
  · exact h.note hs rfl
  · exact h.assume lit (h.moveTo hs .input)

/-- A write makes one request at most, and is noted. -/
theorem writeOption (h : Kept P) (hs : P s.engine s.journal) (name : String) (value index : Int) :
    P (IncrementalSat.writeOption s.engine s.stage name value index).1
      (s.journal ++ (IncrementalSat.writeOption s.engine s.stage name value index).2.2) := by
  have hwrite : ∀ target : Target, P (target.write s.engine name value).1 s.journal := by
    intro target
    cases target with
    | limit kind => exact h.limit kind value hs
    | native => exact h.setOption name value hs
  unfold IncrementalSat.writeOption
  split
  · exact h.own (.optionUnknown name) rfl hs
  rename_i target _
  have htarget := hwrite target
  split
  · exact h.own (.optionLate name s.stage) rfl hs
  split
  · exact hs
  split
  · exact hs
  split
  · rename_i hresult
    rw [hresult] at htarget
    exact h.own (.optionSet name value) rfl htarget
  · rename_i cause hresult
    rw [hresult] at htarget
    exact h.own (.optionDeclined name value cause) rfl htarget

/-- Registering an import callback keeps what every request keeps, whatever the engine answers. -/
theorem sessionSetImport (h : Kept P) (hs : P s.engine s.journal)
    (offers : Option (List (List Int32))) :
    P (s.setImport offers).1.engine (s.setImport offers).1.journal := by
  have hrequest := h.setImport offers hs
  unfold Session.setImport
  split
  · rename_i hresult
    rwa [hresult] at hrequest
  · rename_i hresult
    rw [hresult] at hrequest
    exact h.own _ rfl hrequest

/-- Registering a notify callback keeps what every request keeps, whatever the engine answers. -/
theorem sessionSetNotify (h : Kept P) (hs : P s.engine s.journal) (given : Bool) :
    P (s.setNotify given).1.engine (s.setNotify given).1.journal := by
  have hrequest := h.setNotify given hs
  unfold Session.setNotify
  split
  · rename_i hresult
    rwa [hresult] at hrequest
  · rename_i hresult
    rw [hresult] at hrequest
    exact h.own _ rfl hrequest

/-- What every request keeps is kept by a call, if a solve and the registration of an export
callback keep it. -/
theorem perform (h : Kept P) (hs : P s.engine s.journal) (call : Call)
    (hsolve : call = .solve → P s.solve.1.engine s.solve.1.journal)
    (hexport : ∀ bound given, call = .setExport bound given →
      P (s.setExport bound given).1.engine (s.setExport bound given).1.journal) :
    P (s.perform call).engine (s.perform call).journal := by
  cases call with
  | add lit => exact h.sessionAdd hs lit
  | addClause clause => exact h.addClause hs clause
  | assume lit => exact h.sessionAssume hs lit
  | solve => exact hsolve rfl
  | setOption name value index => exact h.writeOption hs name value index
  | setTerminate callback => exact h.setTerminate callback (h.note hs rfl)
  | setExport bound given => exact hexport bound given rfl
  | setImport offers => exact h.sessionSetImport hs offers
  | setNotify given => exact h.sessionSetNotify hs given
  | catalog => exact h.note hs rfl
  | read source =>
    exact read_induction (P := fun s => P s.engine s.journal) (fun lit hs => h.sessionAdd hs lit)
      (fun event hown hs => h.own event hown hs) hs source

end Kept

/-! ## Solves -/

/-- The journal of a solve that is not refused goes on with what its engine tells. -/
theorem journal_solve {s : Session E} {verdict : Verdict} (h : s.solve.2 = .ok verdict) :
    ∃ more, s.solve.1.journal = s.journal ++ ((Engine.solve s.engine).events ++ more) ∧
      ∀ e ∈ more, e.isOwn = true := by
  unfold Session.solve at h ⊢
  by_cases hconfig : s.stage = .config
  · simp [hconfig] at h
  by_cases hopen : s.clauseOpen = true
  · simp [hconfig, hopen] at h
  rw [if_neg hconfig, if_neg hopen]
  dsimp only [moveTo]
  split
  · refine ⟨#[], ?_, by simp⟩
    rw [Array.append_empty]
    rfl
  · refine ⟨#[.moved s.stage (stageAfter (Engine.solve s.engine).verdict)], ?_, ?_⟩
    · rw [← Array.append_assoc, Array.append_singleton]
      rfl
    · intro e he
      obtain rfl := Array.mem_singleton.1 he
      rfl

end Session

end IncrementalSat
