import IncrementalSat.Engine.Request
import IncrementalSat.Proofs.Addition

/-!
# Solvers after requests

A fresh solver is ready for a solve after any requests: it is at rest, and there is room for the
literals of the open clause and for the pending assumptions.  Each request keeps this.
-/

set_option autoImplicit false

namespace IncrementalSat.Cdcl.Solver

open Engine (Request)

variable {R : Type} {s s' : Solver R}

/-- A solver at rest with room for the open clause and the pending assumptions. -/
structure Ready (s : Solver R) : Prop where
  resting : Resting s
  openClause : ∀ l ∈ s.openClause.toList, l.atom < s.trail.atoms
  assumptions : ∀ a ∈ s.assumptions.toList, a.atom < s.trail.atoms

namespace Ready

/-- Settings, limits, callbacks and other things beside the clauses do not matter. -/
theorem congr (h : Ready s) (htrail : s'.trail = s.trail) (hstore : s'.store = s.store)
    (hseen : s'.seen = s.seen) (hconsistent : s'.consistent = s.consistent)
    (hopen : s'.openClause = s.openClause) (hassumptions : s'.assumptions = s.assumptions) :
    Ready s' where
  resting := h.resting.congr htrail hstore hseen hconsistent
  openClause := by
    rw [hopen, htrail]
    exact h.openClause
  assumptions := by
    rw [hassumptions, htrail]
    exact h.assumptions

/-- Making room keeps a solver ready, and leaves room for the atom. -/
theorem ensure (h : Ready s) (atom : Nat) :
    Ready (s.ensure atom) ∧ atom < (s.ensure atom).trail.atoms := by
  refine ⟨⟨h.resting.ensure atom, fun l hl => ?_, fun a ha => ?_⟩, ?_⟩
  · rw [atoms_ensure]
    exact lt_max_of_lt_left (h.openClause l hl)
  · rw [atoms_ensure]
    exact lt_max_of_lt_left (h.assumptions a ha)
  · rw [atoms_ensure]
    exact lt_max_of_lt_right (Nat.lt_succ_self atom)

/-- An integer added keeps a solver ready, whether it closes a clause or goes on with one. -/
theorem add (h : Ready s) (lit : Int32) : Ready (s.add lit).1 := by
  unfold Solver.add
  by_cases hlit : lit = 0
  · rw [if_pos hlit]
    have htrail : s.trail.backjump 0 = s.trail := h.resting.backjump
    have hresting :
        ({ s with trail := s.trail.backjump 0, openClause := #[] } : Solver R).Resting := by
      rw [htrail]
      exact h.resting.congr rfl rfl rfl rfl
    have hroom : ∀ {literals : List Literal}, (∀ l ∈ literals, l.atom < s.trail.atoms) →
        ∀ l ∈ literals, l.atom < (s.trail.backjump 0).atoms := by
      rw [htrail]
      exact id
    have hcloses := hresting.addClause (hroom h.openClause)
    refine ⟨hcloses.resting, ?_, ?_⟩
    · rw [hcloses.openClause]
      simp
    · rw [hcloses.assumptions, hcloses.atoms]
      exact hroom h.assumptions
  · rw [if_neg hlit]
    obtain ⟨hensured, hroom⟩ := h.ensure (Literal.ofInteger lit).atom
    refine ⟨hensured.resting.congr rfl rfl rfl rfl, fun l hl => ?_, hensured.assumptions⟩
    rw [Array.toList_push, List.mem_append, List.mem_singleton] at hl
    exact hl.elim (hensured.openClause l) fun heq => heq ▸ hroom

/-- An assumption keeps a solver ready, for its atom is given room. -/
theorem assume (h : Ready s) (lit : Int32) : Ready (s.assume lit) := by
  obtain ⟨hensured, hroom⟩ := h.ensure (Literal.ofInteger lit).atom
  refine ⟨hensured.resting.congr rfl rfl rfl rfl, hensured.openClause, fun a ha => ?_⟩
  rw [Solver.assume, Array.toList_push, List.mem_append, List.mem_singleton] at ha
  exact ha.elim (hensured.assumptions a) fun heq => heq ▸ hroom

/-- A limit set keeps a solver ready. -/
theorem setLimit (h : Ready s) (kind : String) (value : Int) :
    Ready (s.setLimit kind value).1 := by
  obtain ⟨limits, hsame⟩ := s.setLimit_eq kind value
  rw [hsame]
  exact h.congr rfl rfl rfl rfl rfl rfl

variable [Random.Source R]

/-- A fresh solver is ready. -/
theorem initial : Ready (Solver.initial : Solver R) where
  resting := Resting.initial
  openClause := by simp [Solver.initial, ofSettings]
  assumptions := by simp [Solver.initial, ofSettings]

/-- A solve leaves a solver ready, with no assumption pending. -/
theorem solve (h : Ready s) : Ready s.solve.engine := by
  have hsolves := h.resting.solve h.assumptions
  refine ⟨hsolves.resting, ?_, ?_⟩
  · rw [hsolves.openClause, hsolves.atoms]
    exact h.openClause
  · rw [hsolves.assumptions]
    simp

/-- An option set keeps a solver ready. -/
theorem setOption (h : Ready s) (name : String) (value : Int) :
    Ready (s.setOption name value).1 := by
  obtain ⟨settings, random, hsame⟩ := s.setOption_eq name value
  rw [hsame]
  exact h.congr rfl rfl rfl rfl rfl rfl

/-- A request keeps a solver ready. -/
theorem serve (h : Ready s) (request : Request) : Ready (Engine.serve s request) := by
  cases request with
  | setOption name value => exact h.setOption name value
  | limit kind value => exact h.setLimit kind value
  | add lit => exact h.add lit
  | assume lit => exact h.assume lit
  | solve => exact h.solve
  | setTerminate callback => exact h.congr rfl rfl rfl rfl rfl rfl
  | setLearn bound given => exact h.congr rfl rfl rfl rfl rfl rfl
  | setImport offers => exact h
  | setNotify given => exact h

end Ready

variable [Random.Source R]

/-- After any requests a solver that began without clauses is ready, whatever its settings. -/
theorem ready_serveAll (settings : Settings) (requests : List Request) :
    Ready (Engine.serveAll (ofSettings settings : Solver R) requests) := by
  induction requests using List.reverseRecOn with
  | nil => exact Ready.initial.congr rfl rfl rfl rfl rfl rfl
  | append_singleton requests request ih =>
    rw [Engine.serveAll_append]
    exact ih.serve request

/-- A fresh solver after requests. -/
def given (R : Type) [Random.Source R] (requests : List Request) : Solver R :=
  Engine.serveAll Solver.initial requests

/-- After any requests a solver is ready. -/
theorem ready_given (requests : List Request) : Ready (given R requests) :=
  ready_serveAll {} requests

end IncrementalSat.Cdcl.Solver
