import IncrementalSat.Proofs.Lockstep
import IncrementalSat.Proofs.Requests
import IncrementalSat.Random.Pcg

/-!
# Observers do not steer the search

Two runs of requests may differ in who observes the searches: in the registrations of export
callbacks, in the value of the option for checks, and in terminate callbacks that never ask to stop.
Then the solvers agree after every request in all but these surroundings, and each solve has the
same verdict and learns the same clauses, of which an export callback is given those that its bound
lets through.
-/

set_option autoImplicit false

namespace IncrementalSat

/-- Whether an event tells of the search itself, and not of what its observers see of it. -/
def Event.isInner : Event → Bool
  | exported _ | checked _ | polled => false
  | _ => true

namespace Cdcl

open Engine (Request)

/-! ## Runs that differ in observers -/

/-- The terminate callback that a request registers or clears. -/
def callback? : Request → Option (Option Terminate)
  | .setTerminate callback => some callback
  | _ => none

/-- The bound that a request registers, or none if it clears the export callback. -/
def bound? : Request → Option (Option Nat)
  | .setLearn bound given => some (if given then some bound else none)
  | _ => none

/-- What is registered by the last of some requests that registers anything. -/
def registered {α : Type} (register : Request → Option (Option α)) (requests : List Request) :
    Option α :=
  (requests.filterMap register).getLastD none

/-- A further request replaces what is registered if it registers anything. -/
theorem registered_append {α : Type} (register : Request → Option (Option α))
    (requests : List Request) (request : Request) :
    registered register (requests ++ [request]) =
      (register request).getD (registered register requests) := by
  unfold registered
  cases hrequest : register request with
  | none => simp [hrequest]
  | some value => simp [hrequest]

/-- A request that concerns observers only, beside a run with a terminate callback of its own: it
registers or clears an export callback, sets the option for checks, or has to do with terminate
callbacks that never ask to stop. -/
def Observes (callback : Option Terminate) : Request → Prop
  | .setLearn _ _ => True
  | .setOption name _ => name = Setting.check.entry.name
  | .setTerminate other => Patient other ∧ Patient callback
  | _ => False

/-- Two runs are the same but for requests that concern observers only. -/
inductive DifferInObservers : List Request → List Request → Prop
  | start : DifferInObservers [] []
  | same {xs ys : List Request} (h : DifferInObservers xs ys) (request : Request) :
      DifferInObservers (xs ++ [request]) (ys ++ [request])
  /-- Each run gets a terminate callback of its own that never asks to stop. -/
  | callbacks {xs ys : List Request} (h : DifferInObservers xs ys)
      (callback callback' : Option Terminate) (hpatient : Patient callback)
      (hpatient' : Patient callback') :
      DifferInObservers (xs ++ [.setTerminate callback]) (ys ++ [.setTerminate callback'])
  | left {xs ys : List Request} (h : DifferInObservers xs ys) (request : Request)
      (hobserves : Observes (registered callback? ys) request) :
      DifferInObservers (xs ++ [request]) ys
  | right {xs ys : List Request} (h : DifferInObservers xs ys) (request : Request)
      (hobserves : Observes (registered callback? xs) request) :
      DifferInObservers xs (ys ++ [request])

/-- The same requests may follow. -/
theorem DifferInObservers.append {xs ys : List Request} (h : DifferInObservers xs ys)
    (requests : List Request) : DifferInObservers (xs ++ requests) (ys ++ requests) := by
  induction requests using List.reverseRecOn with
  | nil => simpa using h
  | append_singleton requests request ih =>
    rw [← List.append_assoc, ← List.append_assoc]
    exact ih.same request

/-- Only the answers of a callback tell whether it is patient. -/
theorem Patient.congr {callback callback' : Option Terminate} (h : Patient callback)
    (hanswer : callback'.map Terminate.answer = callback.map Terminate.answer) :
    Patient callback' := by
  intro t' ht' polls
  have hmem : t'.answer ∈ callback'.map Terminate.answer := Option.mem_map_of_mem _ ht'
  rw [hanswer] at hmem
  obtain ⟨t, ht, heq⟩ := Option.map_eq_some_iff.1 hmem
  rw [← heq]
  exact h t ht polls

namespace Solver

variable {R : Type} {s s' : Solver R}

/-! ## Solvers that agree -/

/-- Two solvers are the same in all but the observers of their searches. -/
structure Agree (s s' : Solver R) : Prop where
  engine : s' = s.under s'.surroundings
  limits : s'.limits = s.limits
  callbacks : InStep Event.isInner s.terminate s'.terminate

namespace Agree

/-- Agreement goes both ways. -/
theorem symm (h : Agree s s') : Agree s' s where
  engine := by
    rw [h.engine]
    rfl
  limits := h.limits.symm
  callbacks := h.callbacks.imp Eq.symm fun ⟨hblind, hpatient, hpatient'⟩ =>
    ⟨hblind, hpatient', hpatient⟩

/-- Solvers under the same limits, with callbacks in step, agree if nothing else differs. -/
theorem of_under {w : Surroundings} (hlimits : w.limits = s.limits)
    (hcallbacks : InStep Event.isInner s.terminate w.terminate) : Agree s (s.under w) :=
  ⟨rfl, hlimits, hcallbacks⟩

end Agree

/-! ## Requests -/

/-- What observes the searches of a solver has no part in closing a clause. -/
theorem addClause_under (s : Solver R) (w : Surroundings) (clause : List Literal) :
    (s.under w).addClause clause = ((s.addClause clause).1.under w, (s.addClause clause).2) := by
  have hconsistent : (s.under w).consistent = s.consistent := rfl
  have htrail : (s.under w).trail = s.trail := rfl
  unfold addClause
  dsimp only
  rw [hconsistent, htrail]
  split
  · rfl
  split
  · rfl
  split
  · rfl
  split
  · rfl
  · rfl
  · rfl

/-- What observes the searches of a solver has no part in adding an integer. -/
theorem add_under (s : Solver R) (w : Surroundings) (lit : Int32) :
    (s.under w).add lit = ((s.add lit).1.under w, (s.add lit).2) := by
  unfold add
  split
  · exact addClause_under { s with trail := s.trail.backjump 0, openClause := #[] } w _
  · rfl

/-- The option for checks has no part in what is written to another. -/
theorem write_check (c : Settings) (check : Setting.check.Value) (name : String) (value : Int) :
    ∃ check', ({ c with check := check } : Settings).write name value =
      (c.write name value).map fun c' => { c' with check := check' } := by
  unfold Settings.write
  cases Setting.ofName? name with
  | none => exact ⟨check, rfl⟩
  | some setting =>
    by_cases haccepts : setting.entry.accepts value = true
    · refine ⟨(({ c with check := check } : Settings).set setting ⟨value, haccepts⟩).check, ?_⟩
      simp only [dif_pos haccepts, Except.map]
      cases setting <;> rfl
    · simp only [dif_neg haccepts]
      exact ⟨check, rfl⟩

variable [Random.Source R]

/-- What observes the searches of a solver has no part in setting an option but the one for checks.
-/
theorem setOption_under (s : Solver R) (w : Surroundings) (name : String) (value : Int) :
    ∃ check, (s.under w).setOption name value =
      ((s.setOption name value).1.under { w with check := check },
        (s.setOption name value).2) := by
  obtain ⟨check, hwrite⟩ := write_check s.settings w.check name value
  have hsettings : (s.under w).settings = { s.settings with check := w.check } := rfl
  unfold setOption
  rw [hsettings, hwrite]
  cases s.settings.write name value with
  | error cause => exact ⟨w.check, rfl⟩
  | ok settings =>
    refine ⟨check, ?_⟩
    dsimp only [Except.map]
    split
    · rfl
    · rfl

/-- The option for checks is part of the surroundings. -/
theorem setOption_check (s : Solver R) (value : Int) :
    ∃ check, (s.setOption Setting.check.entry.name value).1 =
      s.under { s.surroundings with check := check } := by
  have hname : Setting.ofName? Setting.check.entry.name = some .check := by decide
  have hseed : ¬ Setting.check.entry.name = Setting.seed.entry.name := by decide
  unfold setOption Settings.write
  rw [hname]
  by_cases haccepts : Setting.check.entry.accepts value = true
  · simp only [dif_pos haccepts, if_neg hseed]
    exact ⟨⟨value, haccepts⟩, rfl⟩
  · simp only [dif_neg haccepts]
    exact ⟨s.settings.check, rfl⟩

namespace Agree

omit [Random.Source R] in
/-- Solvers that agree do so after a step that commutes with a change of surroundings and leaves
limits and callbacks alone. -/
theorem map (h : Agree s s') {f : Solver R → Solver R}
    (hf : ∀ w, ∃ w', f (s.under w) = (f s).under w' ∧ w'.limits = w.limits ∧
      w'.terminate = w.terminate) : Agree (f s) (f s') := by
  obtain ⟨w₀, hsame, hlimits₀, hterminate₀⟩ := hf s.surroundings
  rw [under_surroundings] at hsame
  obtain ⟨w, hother, hlimits, hterminate⟩ := hf s'.surroundings
  rw [← h.engine] at hother
  have hlimits' : (f s).limits = s.limits := (congrArg Solver.limits hsame).trans hlimits₀
  have hterminate' : (f s).terminate = s.terminate :=
    (congrArg Solver.terminate hsame).trans hterminate₀
  rw [hother]
  refine .of_under ?_ ?_
  · rw [hlimits, hlimits']
    exact h.limits
  · rw [hterminate, hterminate']
    exact h.callbacks

/-- Solvers that agree solve alike. -/
theorem solve (h : Agree s s') (hready : Ready s) :
    Agree s.solve.engine s'.solve.engine ∧ s'.solve.verdict = s.solve.verdict ∧
      visible Event.isInner s'.solve.events = visible Event.isInner s.solve.events := by
  obtain ⟨result, hresult, -⟩ := hready.resting.search_ends hready.assumptions
  obtain ⟨result', hresult', hcase⟩ := search?_under (s := s.beginSolve) (w := s'.surroundings)
    (.inl h.limits) ⟨.inl fun _ => rfl, .inl fun _ => rfl⟩ h.callbacks hresult
  have hsolve : s.solve = concluded result := solve_eq_concluded hresult
  have hsolve' : s'.solve = concluded result' := by
    rw [h.engine]
    exact solve_eq_concluded hresult'
  have halike := (hcase.resolve_right fun hcut => hcut.differ h.limits).concluded
  rw [← hsolve, ← hsolve'] at halike
  have hlimits : s'.solve.engine.limits = s.solve.engine.limits := by
    rw [(tallies_solve s').limits, (tallies_solve s).limits]
    exact h.limits
  exact ⟨⟨halike.engine, hlimits, halike.callbacks⟩, halike.verdict, halike.events⟩

omit [Random.Source R] in
/-- Solvers that agree do so once both have the same limit set. -/
theorem setLimit (h : Agree s s') (kind : String) (value : Int) :
    Agree (s.setLimit kind value).1 (s'.setLimit kind value).1 := by
  have hlimits : ∀ f : Limits → Limits,
      Agree { s with limits := f s.limits } { s' with limits := f s'.limits } := fun f =>
    ⟨congrArg (fun e : Solver R => { e with limits := f s'.limits }) h.engine,
      congrArg f h.limits, h.callbacks⟩
  unfold Solver.setLimit
  dsimp only
  split
  · exact hlimits fun l => { l with decisions := _ }
  split
  · exact hlimits fun l => { l with conflicts := _ }
  · exact h

/-- Solvers that agree do so after the same request. -/
theorem serve (h : Agree s s') (hready : Ready s) (request : Request) :
    Agree (Engine.serve s request) (Engine.serve s' request) := by
  cases request with
  | solve => exact (h.solve hready).1
  | limit kind value => exact h.setLimit kind value
  | setTerminate callback =>
    exact ⟨congrArg (fun e : Solver R => { e with terminate := callback }) h.engine, h.limits,
      .inl rfl⟩
  | setOption name value =>
    refine h.map (f := fun e => (e.setOption name value).1) fun w => ?_
    obtain ⟨check, hset⟩ := setOption_under s w name value
    exact ⟨{ w with check := check }, congrArg Prod.fst hset, rfl, rfl⟩
  | add lit =>
    exact h.map (f := fun e => (e.add lit).1) fun w =>
      ⟨w, congrArg Prod.fst (add_under s w lit), rfl, rfl⟩
  | assume lit => exact h.map (f := fun e => e.assume lit) fun w => ⟨w, rfl, rfl, rfl⟩
  | setLearn bound given =>
    exact h.map (f := fun e => { e with exportBound := if given then some bound else none })
      fun w => ⟨{ w with exportBound := if given then some bound else none }, rfl, rfl, rfl⟩
  | setImport offers => exact h
  | setNotify given => exact h

/-- A request that concerns observers only makes no difference. -/
theorem observe (h : Agree s s') {callback : Option Terminate}
    (hanswer : s'.terminate.map Terminate.answer = callback.map Terminate.answer)
    {request : Request} (hobserves : Observes callback request) :
    Agree (Engine.serve s request) s' := by
  cases request with
  | setLearn bound given => exact ⟨h.engine, h.limits, h.callbacks⟩
  | setTerminate other =>
    exact ⟨h.engine, h.limits, .inr ⟨rfl, hobserves.1, hobserves.2.congr hanswer⟩⟩
  | setOption name value =>
    obtain rfl : name = Setting.check.entry.name := hobserves
    obtain ⟨check, hset⟩ := setOption_check s value
    rw [Engine.serve, show (Engine.setOption s Setting.check.entry.name value).1 = _ from hset]
    exact ⟨h.engine, h.limits, h.callbacks⟩
  | limit kind value => exact hobserves.elim
  | add lit => exact hobserves.elim
  | assume lit => exact hobserves.elim
  | solve => exact hobserves.elim
  | setImport offers => exact hobserves.elim
  | setNotify given => exact hobserves.elim

end Agree

/-! ## Runs -/

omit [Random.Source R] in
/-- An integer added leaves the observers as they are. -/
theorem surroundings_add (s : Solver R) (lit : Int32) :
    (s.add lit).1.surroundings = s.surroundings := by
  have hsame := add_under s s.surroundings lit
  rw [under_surroundings] at hsame
  exact congrArg (fun r => r.1.surroundings) hsame

/-- An option set leaves the observers as they are, but for the option for checks. -/
theorem surroundings_setOption (s : Solver R) (name : String) (value : Int) :
    ∃ check, (s.setOption name value).1.surroundings = { s.surroundings with check := check } := by
  obtain ⟨check, hsame⟩ := setOption_under s s.surroundings name value
  rw [under_surroundings] at hsame
  exact ⟨check, congrArg (fun r => r.1.surroundings) hsame⟩

omit [Random.Source R] in
/-- Setting a limit leaves the rest of the surroundings alone. -/
theorem surroundings_setLimit (s : Solver R) (kind : String) (value : Int) :
    ∃ limits, (s.setLimit kind value).1.surroundings =
      { s.surroundings with limits := limits } := by
  obtain ⟨limits, hsame⟩ := s.setLimit_eq kind value
  exact ⟨limits, by rw [hsame]; rfl⟩

/-- A request changes the callbacks only as it registers them. -/
theorem Ready.callbacks_serve (h : Ready s) (request : Request) :
    (Engine.serve s request).terminate.map Terminate.answer =
        ((callback? request).getD s.terminate).map Terminate.answer ∧
      (Engine.serve s request).exportBound = (bound? request).getD s.exportBound := by
  -- requests that keep the surroundings but for limits and the option for checks
  have hkept : ∀ {s' : Solver R} {limits check},
      s'.surroundings = { s.surroundings with limits := limits, check := check } →
      s'.terminate.map Terminate.answer = s.terminate.map Terminate.answer ∧
        s'.exportBound = s.exportBound := fun hsame =>
    ⟨congrArg (fun w => w.terminate.map Terminate.answer) hsame,
      congrArg Surroundings.exportBound hsame⟩
  cases request with
  | solve =>
    exact ⟨(h.resting.solve h.assumptions).answer, (tallies_solve s).exportBound⟩
  | limit kind value =>
    obtain ⟨limits, hsame⟩ := surroundings_setLimit s kind value
    exact hkept hsame
  | setOption name value =>
    obtain ⟨check, hsame⟩ := surroundings_setOption s name value
    exact hkept hsame
  | add lit => exact hkept (surroundings_add s lit)
  | assume lit => exact ⟨rfl, rfl⟩
  | setTerminate callback => exact ⟨rfl, rfl⟩
  | setLearn bound given => exact ⟨rfl, rfl⟩
  | setImport offers => exact ⟨rfl, rfl⟩
  | setNotify given => exact ⟨rfl, rfl⟩

/-- A solver given one more request serves it after the others. -/
theorem given_append (requests : List Request) (request : Request) :
    given R (requests ++ [request]) = Engine.serve (given R requests) request :=
  Engine.serveAll_append ..

/-- The callbacks of a solver are those registered last. -/
theorem callbacks_given (requests : List Request) :
    (given R requests).terminate.map Terminate.answer =
        (registered callback? requests).map Terminate.answer ∧
      (given R requests).exportBound = registered bound? requests := by
  induction requests using List.reverseRecOn with
  | nil => exact ⟨rfl, rfl⟩
  | append_singleton requests request ih =>
    obtain ⟨hanswer, hbound⟩ := (ready_given requests).callbacks_serve (R := R) request
    rw [given_append, registered_append, registered_append, hanswer, hbound, ← ih.2]
    refine ⟨?_, rfl⟩
    cases callback? request with
    | none => exact ih.1
    | some callback => rfl

/-- Runs that differ in observers lead to solvers that agree. -/
theorem agree_given {xs ys : List Request} (h : DifferInObservers xs ys) :
    Agree (given R xs) (given R ys) := by
  induction h with
  | start => exact ⟨rfl, rfl, .inl rfl⟩
  | same _ request ih =>
    rw [given_append, given_append]
    exact ih.serve (ready_given _) request
  | callbacks _ callback callback' hpatient hpatient' ih =>
    rw [given_append, given_append]
    exact
      { engine := congrArg (fun e : Solver R => { e with terminate := callback' }) ih.engine
        limits := ih.limits
        callbacks := .inr ⟨rfl, hpatient, hpatient'⟩ }
  | left _ request hobserves ih =>
    rw [given_append]
    exact ih.observe (callbacks_given _).1 hobserves
  | right _ request hobserves ih =>
    rw [given_append]
    exact (ih.symm.observe (callbacks_given _).1 hobserves).symm

/-- A solve learns a clause for each conflict that it counts, and exports those of them that the
bound registered last lets through. -/
theorem learntClauses_solve (requests : List Request) :
    (learntClauses (given R requests).solve.events).length =
        (given R requests).solve.engine.counters.conflicts ∧
      exportedClauses (given R requests).solve.events =
        passing (registered bound? requests)
          (learntClauses (given R requests).solve.events) := by
  have htallies := tallies_solve (given R requests)
  refine ⟨(Nat.zero_add _).symm.trans htallies.conflicts.symm, ?_⟩
  rw [htallies.exported, ← (callbacks_given (R := R) requests).2]
  rfl

/-- Two runs that differ only in observers lead to the same valuation found, failed assumptions,
counts, clauses and randomness, and indeed to solvers that are the same but for limits and
observers; a solve of each has the same verdict and learns the same clauses, one for each conflict
counted, of which those that its own bound lets through are exported, in order. -/
theorem observers_do_not_steer {xs ys : List Request} (h : DifferInObservers xs ys) :
    let s := given R xs
    let s' := given R ys
    (s'.model = s.model ∧ s'.failed = s.failed ∧ s'.counters = s.counters ∧ s'.store = s.store ∧
        s'.random = s.random) ∧
      (s' = s.under s'.surroundings ∧ s'.limits = s.limits) ∧
      s'.solve.verdict = s.solve.verdict ∧
      learntClauses s'.solve.events = learntClauses s.solve.events ∧
      (learntClauses s.solve.events).length = s.solve.engine.counters.conflicts ∧
      exportedClauses s.solve.events =
        passing (registered bound? xs) (learntClauses s.solve.events) ∧
      exportedClauses s'.solve.events =
        passing (registered bound? ys) (learntClauses s.solve.events) := by
  intro s s'
  have hagree : Agree s s' := agree_given h
  obtain ⟨-, hverdict, hevents⟩ := hagree.solve (ready_given xs)
  have hlearnt := learntClauses_congr (fun _ _ => rfl) hevents
  obtain ⟨hcount, hexported⟩ := learntClauses_solve (R := R) xs
  obtain ⟨-, hexported'⟩ := learntClauses_solve (R := R) ys
  refine ⟨?_, ⟨hagree.engine, hagree.limits⟩, hverdict, hlearnt, hcount, hexported, ?_⟩
  · rw [hagree.engine]
    exact ⟨rfl, rfl, rfl, rfl, rfl⟩
  · rw [← hlearnt]
    exact hexported'

/-- Such runs: of two clauses learnt, the first is too long for the bound of the observed run. -/
theorem observers_do_not_steer_of_conflicts :
    let requests : List Request :=
      [.setOption "phase" 0, .add 1, .add 2, .add 3, .add 0, .add 1, .add 2, .add (-3), .add 0,
        .add 1, .add (-2), .add 4, .add 0, .add 1, .add (-2), .add (-4), .add 0]
    let observed : List Request :=
      [.setLearn 1 true, .setOption "check" 1, .setTerminate (some ⟨fun _ => false, 0⟩)] ++ requests
    DifferInObservers observed requests ∧
      (given Random.Pcg requests).solve.verdict = (given Random.Pcg observed).solve.verdict ∧
      (learntClauses (given Random.Pcg observed).solve.events).length = 2 ∧
      exportedClauses (given Random.Pcg observed).solve.events = [[1]] := by
  intro requests observed
  have hnever : Patient (some ⟨fun _ => false, 0⟩) := by
    rintro t ⟨⟩ polls
    rfl
  have hnone : Patient none := fun t ht => absurd ht (by simp)
  have hbound : DifferInObservers [.setLearn 1 true] [] := .left .start (.setLearn 1 true) trivial
  have hcheck : DifferInObservers [.setLearn 1 true, .setOption "check" 1] [] :=
    .left hbound (.setOption "check" 1) rfl
  have hterminate : DifferInObservers [.setLearn 1 true, .setOption "check" 1,
      .setTerminate (some ⟨fun _ => false, 0⟩)] [] :=
    .left hcheck (.setTerminate (some ⟨fun _ => false, 0⟩)) ⟨hnever, hnone⟩
  have hdiffer : DifferInObservers observed requests := hterminate.append requests
  exact ⟨hdiffer, (observers_do_not_steer hdiffer).2.2.1, by decide +kernel, by decide +kernel⟩

end Solver

end Cdcl

end IncrementalSat
