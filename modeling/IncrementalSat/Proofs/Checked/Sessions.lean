import IncrementalSat.Proofs.Checked.Requests
import IncrementalSat.Session.Checked

/-!
# No call makes the solver of a session fail

A session checks what it is given before it passes it on.  So the inputs that its solver receives
are proper, whatever calls are made, and no literal is shown that has no negation or is beyond the
largest integer.
-/

set_option autoImplicit false

namespace IncrementalSat.Session

open Cdcl

variable {R : Type} [Random.Source R] {s : Session (Solver R)}

/-! ## Reads -/

/-- The value of a literal can be read from a session without a fault. -/
theorem checkedValue_eq (s : Session (Solver R)) (lit : Int32) :
    s.checkedValue lit = .ok (s.value lit) := by
  unfold checkedValue value
  split
  · rfl
  rename_i hlit
  split
  · rfl
  rw [Checked.val_eq (ne_zero_of_isMalformed (Bool.not_eq_true _ ▸ hlit)).2]
  rfl

/-- Whether a literal failed can be read from a session without a fault. -/
theorem checkedFailed_eq (s : Session (Solver R)) (lit : Int32) :
    s.checkedFailed lit = .ok (s.failed lit) := by
  unfold checkedFailed failed
  split
  · rfl
  split
  · rfl
  rw [Checked.hasFailed_eq]
  rfl

/-- The size of an assignment can be read without a fault if it has 31 bits. -/
theorem checkedAssignmentSize_eq (h : s.engine.trail.atoms < 2 ^ 31) :
    s.checkedAssignmentSize = .ok s.assignmentSize := by
  unfold checkedAssignmentSize assignmentSize
  split
  · rfl
  rw [Checked.maxAtom_eq h]
  rfl

/-- An index below the size is followed by an integer that has a negation. -/
theorem checkedAssignment_eq (h : s.engine.trail.atoms < 2 ^ 31) (index : Int32) :
    s.checkedAssignment index = .ok (s.assignment index) := by
  rw [checkedAssignment, checkedAssignmentSize_eq h, Checked.ok_bind, assignment]
  cases s.assignmentSize with
  | error refusal => rfl
  | ok size =>
    dsimp only
    split
    · rfl
    rename_i hindex
    have hsize := size.toInt_lt
    rw [not_or, Int32.not_lt, Int32.not_le, Int32.le_iff_toInt_le, Int32.lt_iff_toInt_lt,
      Int32.toInt_zero] at hindex
    obtain ⟨hproper, -⟩ := index_succ index hindex.1 (by omega)
    have hmax : index ≠ Int32.maxValue := by
      rintro rfl
      rw [Int32.toInt_maxValue] at hindex
      omega
    rw [Checked.successor_eq hmax, Checked.ok_bind,
      Checked.val_eq (ne_zero_of_isMalformed hproper).2]
    rfl

/-! ## Calls -/

/-- The solver of a session never fails.  The requests that it receives by any calls on a new
session, served by the solver over operations that can fail, lead without a fault to the solver of
the session; and what the session then shows can be read without a fault. -/
theorem solver_never_fails (settings : Settings) (calls : List Call) :
    let engine : Solver R := Solver.ofSettings settings
    let s := (ofEngine engine).performAll calls
    Checked.serveAll engine ((ofRecorded engine).performAll calls).requests = .ok s.engine ∧
      (∀ lit, s.checkedValue lit = .ok (s.value lit)) ∧
      (∀ lit, s.checkedFailed lit = .ok (s.failed lit)) ∧
      s.checkedAssignmentSize = .ok s.assignmentSize ∧
      ∀ index, s.checkedAssignment index = .ok (s.assignment index) := by
  intro engine s
  have hrep : s.engine.Represents ((ofEngine engine).history calls) :=
    (represents_performAll settings calls).engine
  have hinputs : Engine.inputs ((ofRecorded engine).performAll calls).requests =
      [] ++ (ofEngine engine).history calls :=
    inputs_performAll calls
  have hserved : Served engine ((ofRecorded engine).performAll calls).engine :=
    served_performAll (s := ofRecorded engine) rfl calls
  have hforget : ((ofRecorded engine).performAll calls).forget = s := forget_performAll calls
  have hsame : s.engine =
      Engine.serveAll engine ((ofRecorded engine).performAll calls).requests :=
    (congrArg Session.engine hforget).symm.trans hserved
  have hbound : s.engine.trail.atoms < 2 ^ 31 := hrep.atoms ▸ hrep.largestAtom_lt
  refine ⟨?_, s.checkedValue_eq, s.checkedFailed_eq, checkedAssignmentSize_eq hbound,
    checkedAssignment_eq hbound⟩
  rw [hsame]
  exact (Checked.serveAll_eq settings (hinputs ▸ hrep.proper)).1

end IncrementalSat.Session
