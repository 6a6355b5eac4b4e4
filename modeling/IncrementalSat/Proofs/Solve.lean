import IncrementalSat.Proofs.Turn

/-!
# Solves

A solver at rest is at level zero, with all clauses settled unless it is known that they have no
model.  A solve begins a search from there and goes back to level zero after it; it leaves a solver
at rest that allows the same valuations, and an answer that is right for them.
-/

set_option autoImplicit false

namespace IncrementalSat.Cdcl.Solver

variable {R : Type} {assumptions : List Literal} {s : Solver R}

/-- A solver between two calls: at level zero, with all clauses settled unless it is known that they
have no model. -/
structure Resting (s : Solver R) : Prop where
  level : s.trail.level = 0
  coherent : Coherent s.trail s.store
  unmarked : Unmarked s.seen s.trail.atoms
  settled : s.consistent = true → Settled s.trail s.store s.trail.head

/-- A fresh solver is at rest. -/
theorem Resting.initial [Random.Source R] : Resting (Solver.initial : Solver R) where
  level := rfl
  coherent := Coherent.empty
  unmarked := ⟨rfl, fun a => by simp [Solver.initial, ofSettings]⟩
  settled _ := ⟨by simp [Solver.initial, ofSettings], by simp [Solver.initial, ofSettings]⟩

/-- Only the clauses, the assignments and the marks matter. -/
theorem Resting.congr {s' : Solver R} (h : Resting s) (htrail : s'.trail = s.trail)
    (hstore : s'.store = s.store) (hseen : s'.seen = s.seen)
    (hconsistent : s'.consistent = s.consistent) : Resting s' where
  level := htrail ▸ h.level
  coherent := htrail ▸ hstore ▸ h.coherent
  unmarked := htrail ▸ hseen ▸ h.unmarked
  settled hc := htrail ▸ hstore ▸ h.settled (hconsistent ▸ hc)

/-- A solver at rest is at level zero, so it has nowhere to go back to. -/
theorem Resting.backjump (h : Resting s) : s.trail.backjump 0 = s.trail :=
  Trail.backjump_of_le h.level.le

/-- A solve begins where the solver rests. -/
theorem Resting.beginSolve_trail (h : Resting s) : s.beginSolve.trail = s.trail :=
  h.backjump

/-- A solver at rest may start to search under assumptions that have room. -/
theorem Resting.searching (h : Resting s) (hconsistent : s.consistent = true)
    (hroom : ∀ a ∈ assumptions, a.atom < s.trail.atoms) :
    Searching assumptions s.beginSolve := by
  have htrail := h.beginSolve_trail
  exact
    { coherent := htrail ▸ h.coherent
      unmarked := htrail ▸ h.unmarked
      upholds := htrail ▸ Upholds.of_level_zero h.coherent.trail h.level hroom
      consistent := hconsistent
      failed_eq := rfl
      settled := htrail ▸ h.settled hconsistent }

/-- What a solve leaves behind: a solver at rest that allows the same valuations, and an answer that
is right for them. -/
structure Solves (s : Solver R) (result : Solved (Solver R)) : Prop where
  resting : Resting result.engine
  settings : result.engine.settings = s.settings
  limits : result.engine.limits = s.limits
  openClause : result.engine.openClause = s.openClause
  assumptions : result.engine.assumptions = #[]
  answer : result.engine.terminate.map Terminate.answer = s.terminate.map Terminate.answer
  atoms : result.engine.trail.atoms = s.trail.atoms
  allows_iff : ∀ v, result.engine.Allows v ↔ s.Allows v
  right : Right s.assumptions.toList s.Allows result.engine result.verdict
  events : Unfailing result.events

/-- Going back to level zero after the search makes what it leaves behind the result of a solve. -/
theorem Concludes.solves {s' : Solver R} {verdict : Verdict} (hconsistent : s.consistent = true)
    (h : Concludes s.assumptions.toList s.beginSolve s' verdict) (hrest : Resting s)
    {events : Array Event} (hevents : Unfailing events) :
    Solves s ⟨{ s' with trail := s'.trail.backjump 0 }, verdict, events⟩ := by
  have htrail := hrest.beginSolve_trail
  have hrespects : ∀ v, Respects v s'.trail s'.store ↔ Respects v s.trail s.store := fun v => by
    rw [h.preserves.respects_iff, htrail]
    exact Iff.rfl
  have hallows : ∀ v, s.Allows v ↔ Respects v s.trail s.store := fun v =>
    and_iff_right hconsistent
  refine
    { resting := ⟨?_, h.coherent.backjump 0, ?_, h.settled⟩
      settings := h.preserves.settings
      limits := h.preserves.limits
      openClause := h.preserves.openClause
      assumptions := h.preserves.assumptions
      answer := h.preserves.answer
      atoms := ?_
      allows_iff := ?_
      right := ?_
      events := hevents }
  · exact (Trail.level_backjump).trans (Nat.zero_min _)
  · rw [Trail.atoms_backjump]
    exact h.unmarked
  · rw [Trail.atoms_backjump, h.preserves.atoms, htrail]
  · intro v
    rw [hallows, ← hrespects]
    unfold Allows
    rw [Respects.backjump_iff h.coherent.trail]
    apply and_iff_right_of_imp
    intro hv
    by_contra hfalse
    refine h.refuted (by simpa using hfalse) v ?_
    rw [htrail]
    exact (hrespects v).1 hv
  · have hright : Right s.assumptions.toList s.Allows s' verdict := h.right.congr fun v => by
      rw [hallows, htrail]
      exact Iff.rfl
    cases verdict with
    | satisfiable => exact ⟨fun a ha => hright.1 a (by rwa [Trail.atoms_backjump] at ha), hright.2⟩
    | unsatisfiable => exact hright
    | unknown => trivial

/-- A search that has not begun leaves the solver as it was. -/
theorem Resting.solves_of_beginSolve (h : Resting s) {verdict : Verdict}
    (hright : Right s.assumptions.toList s.Allows s.beginSolve verdict) {events : Array Event}
    (hevents : Unfailing events) :
    Solves s ⟨{ s.beginSolve with trail := s.beginSolve.trail.backjump 0 }, verdict, events⟩ := by
  have htrail := h.beginSolve_trail
  rw [htrail, h.backjump]
  refine ⟨⟨h.level, h.coherent, h.unmarked, h.settled⟩, rfl, rfl, rfl, rfl, rfl, rfl,
    fun _ => Iff.rfl, ?_, hevents⟩
  cases verdict with
  | satisfiable => exact ⟨fun a ha => hright.1 a (htrail ▸ ha), hright.2⟩
  | unsatisfiable => exact hright
  | unknown => trivial

/-- A solve of a solver at rest gives the right answer. -/
theorem Resting.solve [Random.Source R] (h : Resting s)
    (hroom : ∀ a ∈ s.assumptions.toList, a.atom < s.trail.atoms) : Solves s s.solve := by
  unfold Solver.solve search?
  dsimp only
  by_cases hconsistent : s.consistent = true
  · rw [if_pos (show s.beginSolve.consistent = true from hconsistent)]
    cases hturns : Solver.turns s.assumptions.toList (turnBound s.beginSolve.atoms) #[]
        s.beginSolve with
    | none =>
      exact h.solves_of_beginSolve (show Right _ _ _ .unknown from trivial)
        (Unfailing.empty.push (by simp))
    | some result =>
      obtain ⟨hconcludes, hevents⟩ :=
        (h.searching hconsistent hroom).turns .empty hturns
      exact hconcludes.solves hconsistent h (hevents.push (by simp))
  · rw [if_neg (show ¬ s.beginSolve.consistent = true from hconsistent)]
    -- no valuation is allowed, so nothing need have failed
    have hright : Right s.assumptions.toList s.Allows s.beginSolve .unsatisfiable :=
      ⟨by simp [beginSolve], fun v hv => absurd hv.1 hconsistent⟩
    exact h.solves_of_beginSolve hright (Unfailing.empty.push (by simp))

end IncrementalSat.Cdcl.Solver
