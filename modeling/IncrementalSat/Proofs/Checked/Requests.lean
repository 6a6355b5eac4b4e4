import IncrementalSat.Proofs.Checked.Search
import IncrementalSat.Proofs.ValuationViews

/-!
# Requests do not fail

A solver that was given proper inputs stands for them: it is at rest, there is room for the literals
of its open clause and for the pending assumptions, and its atoms fit in the integers that write
them.  Room is made in all tables together, so that there is a score for each atom as well.  From
such a solver no request fails, and each request leads to such a solver.
-/

set_option autoImplicit false

namespace IncrementalSat.Cdcl.Checked

open Engine (Request)

variable {R : Type} {s : Solver R} {clause : List Literal} {lit : Int32} {inputs : List Input}

/-! ## Clauses and assumptions -/

/-- Of literals that have room it can be told whether one is true. -/
theorem satisfied_eq {t : Trail} (hroom : ∀ l ∈ clause, l.atom < t.atoms) :
    clause.anyM (fun l => do return (← valueOf t l) == some true) =
      .ok (clause.any fun l => t.valueOf l == some true) := by
  apply anyM_eq
  intro l hl
  rw [valueOf_eq (hroom l hl)]
  rfl

/-- The open ones of literals that have room can be selected. -/
theorem open_eq {t : Trail} (hroom : ∀ l ∈ clause, l.atom < t.atoms) :
    select (fun l => do return (← valueOf t l) == none) clause =
      .ok (clause.filter fun l => t.valueOf l == none) := by
  apply select_eq
  intro l hl
  rw [valueOf_eq (hroom l hl)]
  rfl

/-- A clause that has room can be added to a solver at rest. -/
theorem addClause_eq (h : s.Resting) (hroom : ∀ l ∈ clause, l.atom < s.trail.atoms) :
    addClause s clause = .ok (s.addClause clause) := by
  have hordered : ∀ l ∈ Literal.ordered clause, l.atom < s.trail.atoms := fun l hl =>
    hroom l (Literal.mem_ordered.1 hl)
  have hopen := fun l => Solver.mem_open hroom (l := l)
  unfold addClause Solver.addClause
  dsimp only
  split
  · rfl
  split
  · rfl
  rw [satisfied_eq hordered, ok_bind]
  split
  · rfl
  rw [open_eq hordered, ok_bind]
  cases hcases : (Literal.ordered clause).filter fun l => s.trail.valueOf l == none with
  | nil => rfl
  | cons first rest =>
    rw [hcases] at hopen
    have hcode : ∀ l ∈ first :: rest, l.code < s.store.watches.size := fun l hl =>
      h.coherent.store.code_lt (hopen l hl).1
    cases rest with
    | nil =>
      obtain ⟨hatom, hvalue⟩ := hopen first List.mem_cons_self
      dsimp only
      rw [assign_eq hatom hvalue]
      rfl
    | cons second others =>
      dsimp only
      rw [attach_eq (hcode first (by simp)) (hcode second (by simp))]
      rfl

/-- Closing a clause leaves the activity as it is. -/
theorem activity_addClause (s : Solver R) (clause : List Literal) :
    (s.addClause clause).1.activity = s.activity := by
  unfold Solver.addClause
  dsimp only
  repeat' split
  all_goals rfl

/-- With room for an atom there is a score for it. -/
theorem covers_ensure (h : s.activity.Covers s.trail.atoms) (atom : Nat) :
    (s.ensure atom).activity.Covers (s.ensure atom).trail.atoms := by
  have hscores : s.activity.scores.size = s.trail.slots.size := h
  have hextended : (Table.extend s.activity.scores (atom + 1) 0).size =
      (Table.extend s.trail.slots (atom + 1) {}).size := by
    rw [Table.size_extend, Table.size_extend, hscores]
  exact hextended

/-- Adding an integer does not fail between two calls, and leaves a score for each atom. -/
theorem add_eq (h : s.Represents inputs) (hcovers : s.activity.Covers s.trail.atoms)
    (lit : Int32) :
    add s lit = .ok (s.add lit) ∧
      (s.add lit).1.activity.Covers (s.add lit).1.trail.atoms := by
  unfold add Solver.add
  by_cases hlit : lit = 0
  · have htrail : s.trail.backjump 0 = s.trail := h.resting.backjump
    have hresting :
        ({ s with trail := s.trail.backjump 0, openClause := #[] } : Solver R).Resting := by
      rw [htrail]
      exact h.resting.congr rfl rfl rfl rfl
    have hroom : ∀ l ∈ s.openClause.toList, l.atom < (s.trail.backjump 0).atoms := by
      rw [htrail]
      exact h.openClause_room
    rw [if_pos hlit, if_pos hlit, backjump_eq h.resting.coherent.trail, ok_bind]
    refine ⟨addClause_eq hresting hroom, ?_⟩
    dsimp only
    rw [activity_addClause, (hresting.addClause hroom).atoms, htrail]
    exact hcovers
  · rw [if_neg hlit, if_neg hlit, ofInteger_eq hlit]
    exact ⟨rfl, covers_ensure hcovers _⟩

/-- Assuming a literal does not fail, and leaves a score for each atom. -/
theorem assume_eq (hlit : lit ≠ 0) (hcovers : s.activity.Covers s.trail.atoms) :
    assume s lit = .ok (s.assume lit) ∧
      (s.assume lit).activity.Covers (s.assume lit).trail.atoms := by
  rw [assume, ofInteger_eq hlit]
  exact ⟨rfl, covers_ensure hcovers _⟩

-- the check is a real one: no literal can be made of zero
example (s : Solver R) : assume s 0 = .error .noLiteral := rfl

/-! ## Answers -/

/-- The view of a literal is its negation at most, and only one integer has none. -/
theorem val_eq (hlit : lit ≠ Int32.minValue) : val s lit = .ok (s.val lit) := by
  unfold val Solver.val
  by_cases hzero : lit = 0
  · rw [if_pos hzero, if_pos hzero]
    rfl
  rw [if_neg hzero, if_neg hzero, ofInteger_eq hzero, ok_bind]
  dsimp only
  cases s.model.getD (Literal.ofInteger lit).atom none with
  | none => rfl
  | some value =>
    dsimp only
    split
    · rfl
    · exact opposite_eq hlit

/-- Whether a literal has failed is read without a fault. -/
theorem hasFailed_eq : hasFailed s lit = .ok (s.hasFailed lit) := by
  unfold hasFailed Solver.hasFailed
  by_cases hzero : lit = 0
  · rw [if_pos hzero, hzero]
    rfl
  · rw [if_neg hzero, ofInteger_eq hzero, bne_iff_ne.2 hzero]
    rfl

/-- The number of atoms is read without a fault if it has 31 bits. -/
theorem maxAtom_eq (h : s.trail.atoms < 2 ^ 31) : maxAtom s = .ok s.maxAtom := by
  rw [maxAtom, require_eq (p := s.atoms < Nat.pow 2 31) h]
  rfl

/-! ## Requests -/

section Requests

variable [Random.Source R]

/-- A request that passes on proper input does not fail, and there is a score for each atom
afterwards. -/
theorem serve_eq (h : s.Represents inputs) (hcovers : s.activity.Covers s.trail.atoms)
    {request : Request} (hproper : ∀ i ∈ Engine.inputs [request], i.Proper) :
    serve s request = .ok (Engine.serve s request) ∧
      (Engine.serve s request).activity.Covers (Engine.serve s request).trail.atoms := by
  have hbound : s.trail.atoms < 2 ^ 31 := h.atoms ▸ h.largestAtom_lt
  cases request with
  | setOption name value =>
    obtain ⟨settings, random, hsame⟩ := s.setOption_eq name value
    have hserve : Engine.serve s (.setOption name value) = _ := hsame
    refine ⟨rfl, ?_⟩
    rw [hserve]
    exact hcovers
  | limit kind value =>
    obtain ⟨limits, hsame⟩ := s.setLimit_eq kind value
    have hserve : Engine.serve s (.limit kind value) = _ := hsame
    refine ⟨rfl, ?_⟩
    rw [hserve]
    exact hcovers
  | add lit =>
    obtain ⟨hadd, hscores⟩ := add_eq h hcovers lit
    refine ⟨?_, hscores⟩
    rw [serve, hadd]
    rfl
  | assume lit =>
    have hlit := ne_zero_of_isMalformed (hproper (.assumption lit) List.mem_cons_self)
    exact assume_eq hlit.1 hcovers
  | solve =>
    obtain ⟨hsolve, hscores⟩ := solve_eq h.resting h.assumptions_room hcovers hbound
    have hatoms := (h.resting.solve h.assumptions_room).atoms
    refine ⟨?_, ?_⟩
    · rw [serve, hsolve]
      rfl
    · rw [← hatoms] at hscores
      exact hscores
  | setTerminate callback => exact ⟨rfl, hcovers⟩
  | setLearn bound given => exact ⟨rfl, hcovers⟩
  | setImport offers => exact ⟨rfl, hcovers⟩
  | setNotify given => exact ⟨rfl, hcovers⟩

/-- Requests that pass on proper inputs to a solver without clauses do not fail. -/
theorem serveAll_eq (settings : Settings) {requests : List Request}
    (hproper : ∀ i ∈ Engine.inputs requests, i.Proper) :
    let engine : Solver R := Solver.ofSettings settings
    serveAll engine requests = .ok (Engine.serveAll engine requests) ∧
      (Engine.serveAll engine requests).activity.Covers
        (Engine.serveAll engine requests).trail.atoms := by
  intro engine
  induction requests using List.reverseRecOn with
  | nil => exact ⟨rfl, rfl⟩
  | append_singleton requests request ih =>
    rw [Engine.inputs_append] at hproper
    have hbefore : ∀ i ∈ Engine.inputs requests, i.Proper := fun i hi =>
      hproper i (List.mem_append_left _ hi)
    obtain ⟨hserved, hcovers⟩ := ih hbefore
    obtain ⟨hlast, hscores⟩ := serve_eq (Solver.represents_serveAll settings hbefore) hcovers
      fun i hi => hproper i (List.mem_append_right _ hi)
    rw [Engine.serveAll_append]
    refine ⟨?_, hscores⟩
    unfold serveAll at hserved ⊢
    rw [List.foldlM_append, hserved, ok_bind, List.foldlM_cons, hlast]
    rfl

end Requests

end IncrementalSat.Cdcl.Checked
