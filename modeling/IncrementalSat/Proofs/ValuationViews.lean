import IncrementalSat.Binding
import IncrementalSat.Proofs.FoundValuations

/-!
# Views of a valuation

A valuation is read off a session literal by literal, index by index, or through the binding for
foreign callers.  The size that is shown is the number of atoms of the solver as it is now, while
the values are those recorded by the last solve.  They belong together, as a session shows a
valuation only as long as the last input was a solve answered as satisfiable: that solve gave a
value to every atom, and no request since has made room for another.
-/

set_option autoImplicit false

namespace IncrementalSat

open Engine (Request)
open Input

/-! ## Integers of opposite literals -/

/-- The negation of a literal is a literal. -/
theorem isMalformed_neg {lit : Int32} (h : isMalformed lit = false) :
    isMalformed (-lit) = false := by
  have hvalue := isMalformed_eq_false_iff.1 h
  have hhigh := lit.toInt_lt
  rw [isMalformed_eq_false_iff, toInt_neg_of_isMalformed h]
  omega

/-- The negation of an integer stands for the negation of its literal. -/
theorem Literal.ofInteger_neg {lit : Int32} (h : isMalformed lit = false) :
    ofInteger (-lit) = (ofInteger lit).negate := by
  have hvalue := isMalformed_eq_false_iff.1 h
  simp only [ofInteger, negate, toInt_neg_of_isMalformed h, Int.natAbs_neg, Literal.mk.injEq,
    true_and]
  rw [← decide_not, decide_eq_decide]
  omega

namespace Cdcl.Solver

variable {R : Type} {s : Solver R} {lit : Int32}

/-! ## The view of the engine -/

/-- Where an atom has no value, zero is shown for its literals. -/
theorem val_eq_zero (h : s.found (Literal.ofInteger lit).atom = none) : s.val lit = 0 := by
  have hrecorded : s.model.getD (Literal.ofInteger lit).atom none = none := h
  unfold val
  split
  · rfl
  · dsimp only
    rw [hrecorded]

/-- If the atom of a literal has a value, the literal that is true is shown. -/
theorem val_eq_ite {b : Bool} (hlit : lit ≠ 0)
    (h : s.found (Literal.ofInteger lit).atom = some b) :
    s.val lit = if b = (Literal.ofInteger lit).positive then lit else -lit := by
  have hrecorded : s.model.getD (Literal.ofInteger lit).atom none = some b := h
  unfold val
  rw [if_neg hlit]
  dsimp only
  rw [hrecorded]

/-- The two literals of an atom have the same view. -/
theorem val_neg (s : Solver R) (hlit : isMalformed lit = false) : s.val (-lit) = s.val lit := by
  have hopposite := Literal.ofInteger_neg hlit
  have hatom : (Literal.ofInteger (-lit)).atom = (Literal.ofInteger lit).atom := by
    rw [hopposite, Literal.atom_negate]
  cases hfound : s.found (Literal.ofInteger lit).atom with
  | none => rw [val_eq_zero hfound, val_eq_zero (hatom ▸ hfound)]
  | some b =>
    rw [val_eq_ite (ne_zero_of_isMalformed hlit).1 hfound,
      val_eq_ite (neg_ne_of_isMalformed hlit).1 (hatom ▸ hfound), hopposite,
      Literal.positive_negate, Int32.neg_neg]
    cases b <;> cases (Literal.ofInteger lit).positive <;> rfl

/-! ## Complete valuations -/

/-- The valuation found gives a value to an atom exactly if the solver has room for it. -/
def Complete (s : Solver R) : Prop :=
  ∀ a, s.found a ≠ none ↔ a < s.atoms

/-- One of the two literals of an atom with room is shown. -/
theorem Complete.val_eq_or (h : s.Complete) (hlit : isMalformed lit = false)
    (hroom : lit.toInt.natAbs ≤ s.atoms) : s.val lit = lit ∨ s.val lit = -lit := by
  obtain ⟨hzero, -⟩ := ne_zero_of_isMalformed hlit
  have hatom := Literal.atom_ofInteger_lt hzero
  have hlt : (Literal.ofInteger lit).atom < s.atoms := by omega
  obtain ⟨b, hb⟩ := Option.ne_none_iff_exists'.1 ((h _).2 hlt)
  rw [val_eq_ite hzero hb]
  split
  · exact .inl rfl
  · exact .inr rfl

/-- Zero is shown for no literal of an atom with room. -/
theorem Complete.val_ne_zero (h : s.Complete) (hlit : isMalformed lit = false)
    (hroom : lit.toInt.natAbs ≤ s.atoms) : s.val lit ≠ 0 := by
  rcases h.val_eq_or hlit hroom with hval | hval
  · rw [hval]
    exact (ne_zero_of_isMalformed hlit).1
  · rw [hval]
    exact (neg_ne_of_isMalformed hlit).1

/-- No literal of an atom without room is shown. -/
theorem Complete.val_eq_zero_of_lt (h : s.Complete) (hlit : isMalformed lit = false)
    (hbeyond : s.atoms < lit.toInt.natAbs) : s.val lit = 0 := by
  have hatom := Literal.atom_ofInteger_lt (ne_zero_of_isMalformed hlit).1
  refine val_eq_zero (not_not.1 fun hgiven => ?_)
  have hroom := (h _).1 hgiven
  omega

variable [Random.Source R]

/-- A request that passes on no input keeps a valuation complete. -/
theorem Complete.serve (h : s.Complete) {request : Request} (hrequest : request.isSearch = false) :
    (Engine.serve s request).Complete := by
  cases request with
  | setOption name value =>
    obtain ⟨settings, random, hsame⟩ := s.setOption_eq name value
    show ((s.setOption name value).1).Complete
    rw [hsame]
    exact h
  | limit kind value =>
    obtain ⟨limits, hsame⟩ := s.setLimit_eq kind value
    show ((s.setLimit kind value).1).Complete
    rw [hsame]
    exact h
  | add lit => exact absurd hrequest.symm Bool.false_ne_true
  | assume lit => exact absurd hrequest.symm Bool.false_ne_true
  | solve => exact absurd hrequest.symm Bool.false_ne_true
  | setTerminate callback => exact h
  | setLearn bound given => exact h
  | setImport offers => exact h
  | setNotify given => exact h

/-- A solve that finds the clauses satisfiable finds a complete valuation. -/
theorem Ready.complete_solve (h : Ready s) (hverdict : s.solve.verdict = .satisfiable) :
    s.solve.engine.Complete := by
  have hright := (h.resting.solve h.assumptions).right
  rw [hverdict] at hright
  exact fun a => ⟨(h.retains_solve hverdict).keeps.room a, hright.1 a⟩

/-- A recorded solver is ready, and complete as long as its log tells that the last search found the
clauses satisfiable. -/
structure Shows (r : Recorded (Solver R)) : Prop where
  ready : r.engine.Ready
  complete : r.log.Answered .satisfiable → r.engine.Complete

/-- A request passes on a literal, which ends what is shown, asks for a solve, or leaves the
valuation and the atoms as they are. -/
theorem Shows.serve {r : Recorded (Solver R)} (h : Shows r) (request : Request) :
    Shows (Engine.serve r request) := by
  rw [Session.serve_recorded]
  refine ⟨h.ready.serve request, fun hanswered => ?_⟩
  cases hsearch : request.isSearch with
  | false => exact (h.complete ((Log.answered_append hsearch).1 hanswered)).serve hsearch
  | true =>
    cases request with
    | add lit => exact absurd hanswered (Log.not_answered_append rfl)
    | assume lit => exact absurd hanswered (Log.not_answered_append rfl)
    | solve => exact h.ready.complete_solve (Log.answered_append_solve.1 hanswered)
    | _ => exact absurd hsearch Bool.false_ne_true

/-- What is shown fits the log after any requests. -/
theorem Shows.serveAll {r : Recorded (Solver R)} (h : Shows r) (requests : List Request) :
    Shows (Engine.serveAll r requests) := by
  induction requests generalizing r with
  | nil => exact h
  | cons request rest ih => exact ih (h.serve request)

/-- A solver with any settings that was given proper inputs stands for them. -/
theorem represents_serveAll (settings : Settings) {requests : List Request}
    (hproper : ∀ i ∈ Engine.inputs requests, i.Proper) :
    (Engine.serveAll (ofSettings settings : Solver R) requests).Represents
      (Engine.inputs requests) := by
  induction requests using List.reverseRecOn with
  | nil => exact Represents.ofSettings settings
  | append_singleton requests request ih =>
    rw [Engine.inputs_append] at hproper ⊢
    rw [Engine.serveAll_append]
    have h := ih fun i hi => hproper i (List.mem_append_left _ hi)
    have hnone : ∀ {s' : Solver R}, s'.Represents (Engine.inputs requests) →
        s'.Represents (Engine.inputs requests ++ []) := fun h =>
      (List.append_nil (Engine.inputs requests)).symm ▸ h
    have hlast : ∀ i ∈ Engine.inputs [request], i.Proper := fun i hi =>
      hproper i (List.mem_append_right _ hi)
    cases request with
    | setOption name value => exact hnone (h.setOption name value)
    | limit kind value => exact hnone (h.setLimit kind value)
    | add lit => exact (h.add (hlast (.literal lit) List.mem_cons_self)).1
    | assume lit => exact h.assume (hlast (.assumption lit) List.mem_cons_self)
    | solve => exact h.solve.1
    | setTerminate callback => exact hnone (h.congr rfl rfl rfl rfl rfl rfl)
    | setLearn bound given => exact hnone (h.congr rfl rfl rfl rfl rfl rfl)
    | setImport offers => exact hnone h
    | setNotify given => exact hnone h

end Cdcl.Solver

/-! ## Foreign callers -/

namespace Binding

open Session (Call)

/-- The calls on a session that a call of a foreign caller makes. -/
def Call.calls : Binding.Call → List Session.Call
  | .options room => if room then [.catalog] else []
  | .setOption name value index =>
    match name.bind Text.decode? with
    | some name => [.setOption name value index]
    | none => []
  | .add lit => [.add lit]
  | .assume lit => [.assume lit]
  | .solve room => if room then [.solve] else []
  | .setTerminate callback => [.setTerminate callback]
  | .setExport bound given => [.setExport bound given]
  | .setImport offers => [.setImport offers]
  | .setNotify given => [.setNotify given]
  | .release | .val _ _ | .failed _ _ | .assignmentSize _ | .assignment _ _ => []

/-- A place after calls, one after another. -/
def runAll (place : Place) (calls : List Binding.Call) : Place :=
  calls.foldl (fun place call => (call.run place).1) place

/-- A foreign caller that still has a session after a call has changed it as calls on the session
do. -/
theorem eq_performAll_of_run {s s' : Session ReferenceSolver} {call : Binding.Call}
    (h : (call.run (some s)).1 = some s') : s' = s.performAll call.calls := by
  cases call with
  | release => exact absurd h.symm (Option.some_ne_none _)
  | setOption name value index =>
    cases name with
    | none => exact (Option.some.inj h).symm
    | some name =>
      cases hname : Text.decode? name with
      | none =>
        simp only [Call.run, Call.onSession, Call.hasRoom, hname, if_true] at h
        simpa [Call.calls, hname, Session.performAll] using h.symm
      | some text =>
        simp only [Call.run, Call.onSession, Call.hasRoom, hname, if_true] at h
        simpa [Call.calls, hname, Session.performAll, Session.perform] using h.symm
  | options room => cases room <;> exact (Option.some.inj h).symm
  | solve room => cases room <;> exact (Option.some.inj h).symm
  | val lit room => cases room <;> exact (Option.some.inj h).symm
  | failed lit room => cases room <;> exact (Option.some.inj h).symm
  | assignmentSize room => cases room <;> exact (Option.some.inj h).symm
  | assignment index room => cases room <;> exact (Option.some.inj h).symm
  | _ => exact (Option.some.inj h).symm

/-- An empty place stays empty. -/
theorem runAll_none (calls : List Binding.Call) : runAll none calls = none := by
  induction calls with
  | nil => rfl
  | cons call rest ih => exact ih

/-- Calls of a foreign caller lead to what calls on the session lead to. -/
theorem eq_performAll_of_runAll {s s' : Session ReferenceSolver} {calls : List Binding.Call}
    (h : runAll (some s) calls = some s') : s' = s.performAll (calls.flatMap Call.calls) := by
  induction calls generalizing s with
  | nil => exact (Option.some.inj h).symm
  | cons call rest ih =>
    cases hplace : (call.run (some s)).1 with
    | none =>
      have hempty : runAll none rest = some s' := hplace ▸ h
      exact absurd (hempty.symm.trans (runAll_none rest)) (Option.some_ne_none _)
    | some next =>
      have hrest : runAll (some next) rest = some s' := hplace ▸ h
      rw [ih hrest, eq_performAll_of_run hplace, List.flatMap_cons, Session.performAll,
        Session.performAll, Session.performAll, List.foldl_append]

end Binding

namespace Session

open Cdcl

/-! ## Sessions that show a valuation -/

section Shown

variable {R : Type} [Random.Source R] {engine : Solver R} {s : Session (Solver R)}

/-- A session shows a valuation that is complete, whatever calls led there. -/
theorem complete_of_sat (hready : engine.Ready) {calls : List Call}
    (hsat : ((ofEngine engine).performAll calls).stage = .sat) :
    ((ofEngine engine).performAll calls).engine.Complete := by
  have hstart : Solver.Shows (ofRecorded engine).engine :=
    ⟨hready, fun hanswered => absurd hanswered (by simp [ofRecorded, ofEngine, Log.Answered])⟩
  obtain ⟨requests, hserved, -⟩ := engine_performAll (ofRecorded engine) calls
  have hshows : Solver.Shows ((ofRecorded engine).performAll calls).engine :=
    hserved ▸ hstart.serveAll requests
  have hfollows := (Follows.initial engine).performAll calls
  have hforget :
      ((ofRecorded engine).performAll calls).forget = (ofEngine engine).performAll calls :=
    forget_performAll calls
  rw [← hforget] at hsat ⊢
  exact hshows.complete (hfollows.sat.1 hsat)

/-- Where a valuation is shown, its size is the number of atoms. -/
theorem assignmentSize_eq (hstage : s.stage = .sat) :
    s.assignmentSize = .ok (Int32.ofNat s.engine.atoms) := by
  unfold assignmentSize
  rw [if_neg (by simp [hstage])]
  rfl

/-- Where a valuation is shown, a literal has the value that the view of the engine gives it. -/
theorem value_eq_val (hstage : s.stage = .sat) {lit : Int32} (hlit : isMalformed lit = false) :
    s.value lit =
      .ok (if s.engine.val lit = 0 then none else some (s.engine.val lit == lit)) := by
  unfold value
  rw [if_neg (by simp [hlit]), if_neg (by simp [hstage])]
  rfl

/-- An index below the number of atoms is followed by the positive literal of its atom. -/
theorem index_succ (index : Int32) (hlow : 0 ≤ index.toInt) (hhigh : index.toInt + 1 < 2 ^ 31) :
    isMalformed (index + 1) = false ∧ (index + 1).toInt = index.toInt + 1 := by
  have hvalue : (index + 1).toInt = index.toInt + 1 := by
    rw [Int32.toInt_add]
    exact Int.bmod_eq_of_le (by simp; omega) (by simp; omega)
  exact ⟨isMalformed_eq_false_iff.2 (by omega), hvalue⟩

/-- At an index below the number of atoms the view of the engine is shown. -/
theorem assignment_eq_val (hstage : s.stage = .sat) (hsmall : s.engine.atoms < 2 ^ 31)
    {index : Int32} (hlow : 0 ≤ index.toInt) (hhigh : index.toInt < s.engine.atoms) :
    s.assignment index = .ok (s.engine.val (index + 1)) := by
  have hsize := Int32.toInt_ofNat_of_lt hsmall
  unfold assignment
  rw [assignmentSize_eq hstage]
  dsimp only
  rw [if_neg ?_]
  · rfl
  · rw [Int32.lt_iff_toInt_lt, Int32.le_iff_toInt_le, hsize, Int32.toInt_zero]
    omega

/-- The view of a literal is also shown at the index of its atom. -/
theorem assignment_eq_val_of_literal (hstage : s.stage = .sat) (hsmall : s.engine.atoms < 2 ^ 31)
    {lit : Int32} (hlit : isMalformed lit = false) (hroom : lit.toInt.natAbs ≤ s.engine.atoms) :
    s.assignment (Int32.ofNat (lit.toInt.natAbs - 1)) = .ok (s.engine.val lit) := by
  have hvalue := isMalformed_eq_false_iff.1 hlit
  have hindex : (Int32.ofNat (lit.toInt.natAbs - 1)).toInt = (lit.toInt.natAbs - 1 : Nat) :=
    Int32.toInt_ofNat_of_lt (by omega)
  have hsucc := (index_succ (Int32.ofNat (lit.toInt.natAbs - 1)) (by omega) (by omega)).2
  rw [assignment_eq_val hstage hsmall (by omega) (by omega)]
  have hopposite : Int32.ofNat (lit.toInt.natAbs - 1) + 1 = lit ∨
      Int32.ofNat (lit.toInt.natAbs - 1) + 1 = -lit := by
    rw [← Int32.toInt_inj, ← Int32.toInt_inj, hsucc, toInt_neg_of_isMalformed hlit]
    omega
  rcases hopposite with h | h
  · rw [h]
  · rw [h, s.engine.val_neg hlit]

/-- With a complete valuation the view of the engine tells the value of a literal. -/
theorem value_eq_some (hstage : s.stage = .sat) (hcomplete : s.engine.Complete) {lit : Int32}
    (hlit : isMalformed lit = false) (hroom : lit.toInt.natAbs ≤ s.engine.atoms) :
    s.value lit = .ok (some (s.engine.val lit == lit)) := by
  rw [value_eq_val hstage hlit, if_neg (hcomplete.val_ne_zero hlit hroom)]

end Shown

/-! ## The views -/

/-- The views of a valuation agree, for atoms up to the given one: the size is that atom; at each
index below it one of the two literals of the atom after it is shown; a literal of such an atom is
true exactly if it is shown there, and its negation has the opposite value; other literals have no
value; and a foreign caller gets the literal, its negation or zero, as the literal is true, false or
without value, so that an index and the literal after it give the same. -/
structure ViewsAgree (s : Session ReferenceSolver) (n : Nat) : Prop where
  size : n < 2 ^ 31 ∧ s.assignmentSize = .ok (Int32.ofNat n)
  assignment : ∀ index : Int32, 0 ≤ index.toInt → index.toInt < n →
    ∃ lit, s.assignment index = .ok lit ∧ lit ≠ 0 ∧ (lit = index + 1 ∨ lit = -(index + 1))
  value : ∀ lit : Int32, isMalformed lit = false → lit.toInt.natAbs ≤ n →
    ∃ shown, s.assignment (Int32.ofNat (lit.toInt.natAbs - 1)) = .ok shown ∧
      s.value lit = .ok (some (shown == lit)) ∧ s.value (-lit) = .ok (some !(shown == lit))
  value_beyond : ∀ lit : Int32, isMalformed lit = false → n < lit.toInt.natAbs →
    s.value lit = .ok none
  written : ∀ lit : Int32, isMalformed lit = false →
    ∃ value, s.value lit = .ok value ∧
      Binding.Call.run (some s) (.val lit true) =
        (some s, { code := 0
                   written := some (.integer (value.elim 0 fun b => if b then lit else -lit)) })
  written_index : ∀ index : Int32, 0 ≤ index.toInt → index.toInt < n →
    ∃ lit, Binding.Call.run (some s) (.assignment index true) =
        (some s, { code := 0, written := some (.integer lit) }) ∧
      Binding.Call.run (some s) (.val (index + 1) true) =
        (some s, { code := 0, written := some (.integer lit) })

/-- A foreign caller gets the integer for the value of a literal. -/
theorem run_val {s : Session ReferenceSolver} {lit : Int32} {value : Option Bool}
    (h : s.value lit = .ok value) :
    Binding.Call.run (some s) (.val lit true) =
      (some s, { code := 0
                 written := some (.integer (value.elim 0 fun b => if b then lit else -lit)) }) := by
  have hwritten : Binding.valueInteger lit value =
      value.elim 0 fun b => if b then lit else -lit := by
    rcases value with _ | _ | _ <;> rfl
  rw [← hwritten]
  show (some s, Binding.Answer.ofInteger ((s.value lit).map (Binding.valueInteger lit))) = _
  rw [h]
  rfl

/-- The views of a complete valuation agree. -/
theorem viewsAgree_of_complete {s : Session ReferenceSolver} (hstage : s.stage = .sat)
    (hcomplete : s.engine.Complete) (hsmall : s.engine.atoms < 2 ^ 31) :
    s.ViewsAgree s.engine.atoms := by
  -- the literal at an index has room, and is read off the engine
  have hindex : ∀ index : Int32, 0 ≤ index.toInt → index.toInt < s.engine.atoms →
      isMalformed (index + 1) = false ∧ (index + 1).toInt.natAbs ≤ s.engine.atoms ∧
        s.assignment index = .ok (s.engine.val (index + 1)) := by
    intro index hlow hhigh
    obtain ⟨hproper, hsucc⟩ := index_succ index hlow (by omega)
    exact ⟨hproper, by omega, assignment_eq_val hstage hsmall hlow hhigh⟩
  exact
    { size := ⟨hsmall, assignmentSize_eq hstage⟩
      assignment := fun index hlow hhigh => by
        obtain ⟨hproper, hroom, hassignment⟩ := hindex index hlow hhigh
        exact ⟨_, hassignment, hcomplete.val_ne_zero hproper hroom,
          hcomplete.val_eq_or hproper hroom⟩
      value := fun lit hlit hroom => by
        refine ⟨_, assignment_eq_val_of_literal hstage hsmall hlit hroom,
          value_eq_some hstage hcomplete hlit hroom, ?_⟩
        rw [value_eq_some hstage hcomplete (isMalformed_neg hlit)
          (by rwa [toInt_neg_of_isMalformed hlit, Int.natAbs_neg]), s.engine.val_neg hlit]
        have hother := (neg_ne_of_isMalformed hlit).2
        rcases hcomplete.val_eq_or hlit hroom with h | h
        · simp [h, hother.symm]
        · simp [h, hother]
      value_beyond := fun lit hlit hbeyond => by
        rw [value_eq_val hstage hlit, if_pos (hcomplete.val_eq_zero_of_lt hlit hbeyond)]
      written := fun lit hlit => ⟨_, value_eq_val hstage hlit, run_val (value_eq_val hstage hlit)⟩
      written_index := fun index hlow hhigh => by
        obtain ⟨hproper, hroom, hassignment⟩ := hindex index hlow hhigh
        have hshown : (if s.engine.val (index + 1) == index + 1 then index + 1
            else -(index + 1)) = s.engine.val (index + 1) := by
          rcases hcomplete.val_eq_or hproper hroom with h | h
          · simp [h]
          · simp [h, (neg_ne_of_isMalformed hproper).2]
        refine ⟨s.engine.val (index + 1), ?_, ?_⟩
        · show (some s, Binding.Answer.ofInteger (s.assignment index)) = _
          rw [hassignment]
          rfl
        · rw [run_val (value_eq_some hstage hcomplete hproper hroom), Option.elim_some, hshown] }

/-- The views of a valuation agree for atoms up to the largest given, in every session for a
reference solver that shows one, whatever calls led there, whatever its settings are, and whatever
the solver was asked before; and so they do for a foreign caller, after any calls on a new
session. -/
theorem valuation_views_agree (settings : Settings) (before : List Request)
    (hproper : ∀ i ∈ Engine.inputs before, i.Proper) :
    let s : Session ReferenceSolver :=
      ofEngine (Engine.serveAll (Solver.ofSettings settings) before)
    (∀ calls : List Call, (s.performAll calls).stage = .sat →
      (s.performAll calls).ViewsAgree
        (largestAtom (Engine.inputs before ++ s.history calls))) ∧
    ∀ (calls : List Binding.Call) (s' : Session ReferenceSolver),
      Binding.runAll (some reference) calls = some s' → s'.stage = .sat →
        s'.ViewsAgree (largestAtom (reference.history (calls.flatMap Binding.Call.calls))) := by
  have hviews : ∀ {engine : ReferenceSolver} {inputs : List Input}, engine.Represents inputs →
      ∀ {calls : List Call}, ((ofEngine engine).performAll calls).stage = .sat →
        ((ofEngine engine).performAll calls).ViewsAgree
          (largestAtom (inputs ++ (ofEngine engine).history calls)) := by
    intro engine inputs hengine calls hstage
    have hstart : Represents inputs (ofEngine engine) := ⟨hengine, .singleton (by simp)⟩
    have hrep := (hstart.performAll calls).engine
    have hready : engine.Ready :=
      ⟨hengine.resting, hengine.openClause_room, hengine.assumptions_room⟩
    have hatoms : ((ofEngine engine).performAll calls).engine.atoms = _ := hrep.atoms
    rw [← hatoms]
    exact viewsAgree_of_complete hstage (complete_of_sat hready hstage)
      (hatoms.trans_lt hrep.largestAtom_lt)
  intro s
  constructor
  · intro calls hstage
    exact hviews (Solver.represents_serveAll settings hproper) hstage
  · intro calls s' hrun hstage
    obtain rfl := Binding.eq_performAll_of_runAll hrun
    exact hviews (.ofSettings {}) hstage

/-- Such sessions: one for a solver that was asked before, with a solve that is repeated, a limit
set while a valuation is shown, and calls that are refused; and one of a foreign caller. -/
theorem valuation_views_agree_of_calls :
    let before : List Request := [.add 4, .add (-5), .add 0]
    let s : Session ReferenceSolver := ofEngine (Engine.serveAll (Solver.ofSettings {}) before)
    let calls : List Call :=
      [.addClause [1, -2], .solve, .setOption "conflicts" 10 0, .assume 0, .add 2, .solve, .add 0,
        .solve, .solve, .setOption "decay" 1 0]
    let foreign : List Binding.Call :=
      [.add (-3), .assume 7, .add 0, .assume (-2), .solve false, .solve true, .val 1 false]
    (∀ i ∈ Engine.inputs before, i.Proper) ∧
      (s.performAll calls).stage = .sat ∧ (s.performAll calls).ViewsAgree 5 ∧
      (s.performAll calls).assignment 1 = .ok 2 ∧
      (s.performAll calls).value (-2) = .ok (some false) ∧
      ∃ s', Binding.runAll (some reference) foreign = some s' ∧ s'.stage = .sat ∧
        s'.ViewsAgree 3 := by
  intro before s calls foreign
  have hproper : ∀ i ∈ Engine.inputs before, i.Proper := by
    have hinputs : Engine.inputs before = [.literal 4, .literal (-5), .literal 0] := rfl
    simp only [hinputs, List.forall_mem_cons, Proper]
    exact ⟨by decide, by decide, by decide, by simp⟩
  have hstage : (s.performAll calls).stage = .sat := by decide +kernel
  have hlargest : largestAtom (Engine.inputs before ++ s.history calls) = 5 := by decide +kernel
  have hforeign : (reference.performAll (foreign.flatMap Binding.Call.calls)).stage = .sat := by
    decide +kernel
  have hlargest' : largestAtom (reference.history (foreign.flatMap Binding.Call.calls)) = 3 := by
    decide +kernel
  refine ⟨hproper, hstage, ?_, by decide +kernel, by decide +kernel, _, rfl, hforeign, ?_⟩
  · rw [← hlargest]
    exact (valuation_views_agree {} before hproper).1 calls hstage
  · rw [← hlargest']
    exact (valuation_views_agree {} before hproper).2 foreign _ rfl hforeign

end Session

end IncrementalSat
