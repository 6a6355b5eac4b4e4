import IncrementalSat.Proofs.Calls
import IncrementalSat.Proofs.Lockstep
import IncrementalSat.Proofs.Verdicts

/-!
# Refutations of the clauses are permanent

A search that ends with a refutation blames it either on the clauses or on assumptions: at a
conflict at level zero the solver is known to be inconsistent and nothing has failed, and from a
false assumption some assumption has failed and the solver stays consistent.  What is known to be
inconsistent stays so, whatever is added, and each later solve answers at once: it makes no
decision, meets no conflict, and calls no callback, so that neither limits nor callbacks can stop
it.
-/

set_option autoImplicit false

namespace IncrementalSat

open Cdcl

/-- Whether an event is a call of a callback of the client. -/
def Event.callsBack : Event → Bool
  | polled | exported _ | imported _ => true
  | _ => false

/-- What a session notes of its own is no call of a callback. -/
theorem Event.callsBack_of_isOwn {event : Event} (h : event.isOwn) : event.callsBack = false := by
  cases event <;> first | rfl | exact absurd h Bool.false_ne_true

namespace Cdcl.Solver

variable {R : Type} {assumptions : List Literal} {s : Solver R}

/-! ## What a refutation is blamed on -/

/-- The solver is consistent after a refutation if and only if some assumption has failed. -/
def Blames (s : Solver R) : Prop :=
  s.consistent = true ↔ s.failed ≠ []

/-- A conflict that ends the search with a refutation is blamed on the clauses. -/
theorem blames_onConflict {key : Nat} {turn : Turn R} (hfailed : s.failed = [])
    (hturn : s.onConflict key = some turn) (hverdict : turn.verdict = some .unsatisfiable) :
    turn.solver.Blames := by
  unfold onConflict at hturn
  split at hturn
  · obtain rfl := Option.some.inj hturn
    exact ⟨fun h => absurd h Bool.false_ne_true, fun h => absurd hfailed h⟩
  split at hturn
  · obtain rfl := Option.some.inj hturn
    cases hverdict
  · obtain ⟨⟨s', events⟩, -, rfl⟩ := Option.map_eq_some_iff.1 hturn
    cases hverdict

/-- The false assumption is among those that have failed. -/
theorem mem_failed_explain (t : Trail) (store : ClauseStore) (seen : Array Bool) (a : Literal) :
    a ∈ (explain t store seen a).1.failed := by
  have hvisit : ∀ (walked : List Literal) (x : Explanation), a ∈ x.failed →
      a ∈ (walked.foldl (Explanation.visit t store) x).failed := by
    intro walked
    induction walked with
    | nil => exact fun x hx => hx
    | cons l rest ih =>
      intro x hx
      apply ih
      unfold Explanation.visit
      split
      · cases t.reasonOf l.atom with
        | none => exact List.mem_cons_of_mem l hx
        | some key => exact hx
      · exact hx
  unfold explain
  split
  · exact List.mem_singleton_self a
  · exact hvisit _ _ (List.mem_singleton_self a)

/-- A false assumption is what a refutation is blamed on. -/
theorem blames_refute (hconsistent : s.consistent = true) (a : Literal) :
    (s.refute a).solver.Blames :=
  ⟨fun _ => List.ne_nil_of_mem (mem_failed_explain s.trail s.store s.seen a), fun _ => hconsistent⟩

variable [Random.Source R]

/-- A decision is no refutation. -/
theorem makeDecision_ne_unsatisfiable (s : Solver R) :
    s.makeDecision.verdict ≠ some .unsatisfiable := by
  rw [makeDecision_eq]
  cases s.choose with
  | mk chosen rest =>
    obtain ⟨decision, events⟩ := rest
    cases decision with
    | none => exact fun h => by cases h
    | some l =>
      dsimp only
      unfold decideOn
      split
      · exact fun h => by cases h
      · exact fun h => by cases h

/-- A fixpoint that ends the search with a refutation is blamed on assumptions. -/
theorem blames_onFixpoint (hconsistent : s.consistent = true)
    (hverdict : (s.onFixpoint assumptions).verdict = some .unsatisfiable) :
    (s.onFixpoint assumptions).solver.Blames := by
  unfold onFixpoint at hverdict ⊢
  cases hskip : skipHolding s.trail (assumptions.drop s.trail.level) with
  | mk t standing =>
    rw [hskip] at hverdict
    cases standing with
    | settled => exact absurd hverdict (makeDecision_ne_unsatisfiable _)
    | undecided a => cases hverdict
    | refuted a => exact blames_refute (s := { s with trail := t }) hconsistent a

/-- A turn that ends the search with a refutation says what it is blamed on. -/
theorem Searching.blames_turn (h : Searching assumptions s) {turn : Turn R}
    (hturn : s.turn assumptions = some turn) (hverdict : turn.verdict = some .unsatisfiable) :
    turn.solver.Blames := by
  obtain rfl | ⟨advanced, hadvance, rfl⟩ := turn_cases hturn
  · cases hverdict
  unfold Solver.advance at hadvance
  dsimp only at hadvance hverdict ⊢
  split at hadvance
  · refine blames_onConflict ?_ hadvance hverdict
    exact h.failed_eq
  · obtain rfl := Option.some.inj hadvance
    exact blames_onFixpoint h.consistent hverdict

/-- A search that ends with a refutation says what it is blamed on. -/
theorem Searching.blames_turns (h : Searching assumptions s) {fuel : Nat} {events : Array Event}
    {result : Solved (Solver R)} (hresult : Solver.turns assumptions fuel events s = some result)
    (hverdict : result.verdict = .unsatisfiable) : result.engine.Blames := by
  obtain ⟨n, before, s', turn, hleads, hturn, hended, hengine, -⟩ := exists_leads_of_turns hresult
  rw [hengine]
  exact (hleads.searching h).blames_turn hturn (hended.trans (congrArg some hverdict))

/-- A solve that ends with a refutation says what it is blamed on. -/
theorem Resting.blames_solve (h : Resting s)
    (hroom : ∀ a ∈ s.assumptions.toList, a.atom < s.trail.atoms)
    (hverdict : s.solve.verdict = .unsatisfiable) : s.solve.engine.Blames := by
  by_cases hconsistent : s.consistent = true
  · obtain ⟨result, hturns, hsolve⟩ := h.turns_end hconsistent hroom
    rw [hsolve] at hverdict ⊢
    have hblames : result.engine.Blames :=
      (h.searching hconsistent hroom).blames_turns hturns hverdict
    exact hblames
  · have hinconsistent : s.consistent = false := by simpa using hconsistent
    rw [solve_of_inconsistent hinconsistent]
    exact ⟨fun h => absurd h hconsistent, fun h => absurd rfl h⟩

/-! ## Inconsistency stays -/

omit [Random.Source R] in
/-- An inconsistent solver stays so whatever is added. -/
theorem add_of_inconsistent (h : s.consistent = false) (lit : Int32) :
    (s.add lit).1.consistent = false := by
  unfold Solver.add
  split
  · unfold addClause
    rw [if_pos (by simp [h])]
    exact h
  · exact h

end Cdcl.Solver

namespace Session

open Input

variable {R : Type} [Random.Source R] {s : Session (Solver R)}

/-- No request makes an inconsistent solver consistent. -/
theorem kept_inconsistent :
    Kept fun (e : Solver R) (_ : Array Event) => e.consistent = false where
  own _ _ h := h
  add lit h := Solver.add_of_inconsistent h lit
  assume _ h := h
  setOption {e _} name value h := by
    show (e.setOption name value).1.consistent = false
    obtain ⟨settings, random, hsame⟩ := e.setOption_eq name value
    rw [hsame]
    exact h
  limit {e _} kind value h := by
    show (e.setLimit kind value).1.consistent = false
    obtain ⟨limits, hsame⟩ := e.setLimit_eq kind value
    rw [hsame]
    exact h
  setTerminate _ h := h
  setImport _ h := h
  setNotify _ h := h

/-- A session comes out of a solve with an inconsistent solver as it goes in. -/
theorem inconsistent_solve (h : s.engine.consistent = false) :
    s.solve.1.engine.consistent = false := by
  have hsolved : s.engine.solve.engine.consistent = false := by
    rw [Solver.solve_of_inconsistent h]
    exact h
  unfold Session.solve
  split
  · exact h
  split
  · exact h
  · exact kept_inconsistent.moveTo
      (s := note { s with engine := s.engine.solve.engine } s.engine.solve.events) hsolved _

/-- What is known to be inconsistent stays so, whatever is called. -/
theorem inconsistent_performAll (h : s.engine.consistent = false) (calls : List Call) :
    (s.performAll calls).engine.consistent = false := by
  induction calls generalizing s with
  | nil => exact h
  | cons call rest ih =>
    apply ih
    refine kept_inconsistent.perform h call (fun _ => inconsistent_solve h) fun bound given _ => ?_
    unfold Session.setExport
    split
    · exact h
    · exact h

/-- A solve is over at once: it answers that there is no model and that nothing has failed, counts
no decision and no conflict, and calls no callback. -/
structure OverAtOnce (s : Session (Solver R)) : Prop where
  verdict : s.solve.2 = .ok .unsatisfiable
  failed : ∀ lit, isMalformed lit = false → s.solve.1.failed lit = .ok false
  counters : s.solve.1.engine.counters =
    { s.engine.counters with
      decisions := 0, conflicts := 0, solves := s.engine.counters.solves + 1 }
  terminate : s.solve.1.engine.terminate = s.engine.terminate
  journal : ∃ more, s.solve.1.journal = s.journal ++ more ∧ ∀ e ∈ more, e.callsBack = false

/-- With an inconsistent solver a solve that is not refused is over at once. -/
theorem overAtOnce_of_inconsistent (h : s.engine.consistent = false) {verdict : Verdict}
    (hsolve : s.solve.2 = .ok verdict) : s.OverAtOnce := by
  obtain ⟨-, hengine, hverdict, hstage⟩ := of_solve_eq_ok hsolve
  obtain ⟨more, hjournal, hown⟩ := journal_solve hsolve
  change s.solve.1.journal = s.journal ++ (s.engine.solve.events ++ more) at hjournal
  rw [Solver.solve_of_inconsistent h] at hengine hverdict hjournal
  obtain rfl : Verdict.unsatisfiable = verdict := hverdict
  refine ⟨hsolve, ?_, by rw [hengine]; rfl, by rw [hengine]; rfl, _, hjournal, ?_⟩
  · intro lit hlit
    unfold Session.failed
    rw [if_neg (by simp [hlit]), if_neg (by simp [hstage, stageAfter]), hengine]
    simp [Engine.failed, Solver.hasFailed, Solver.beginSolve]
  · intro e he
    rcases Array.mem_append.1 he with he | he
    · obtain rfl := Array.mem_singleton.1 he
      rfl
    · exact Event.callsBack_of_isOwn (hown e he)

/-- If the solver is consistent after a refutation, a client sees that some pending assumption has
failed; if it is not, a client sees none. -/
theorem consistent_iff_failed {calls : List Call}
    (h : (after R calls).solve.2 = .ok .unsatisfiable) :
    (after R calls).solve.1.engine.consistent = true ↔
      ∃ lit ∈ pending (accepted R calls), (after R calls).solve.1.failed lit = .ok true := by
  have hrep := represents_after (R := R) calls
  obtain ⟨-, hengine, hverdict, hstage⟩ := of_solve_eq_ok h
  have hblames := hrep.engine.resting.blames_solve hrep.engine.assumptions_room hverdict
  rw [← hengine, Solver.Blames] at hblames
  rw [hblames]
  constructor
  · intro hne
    obtain ⟨l, hl⟩ := List.exists_mem_of_ne_nil _ hne
    obtain ⟨lit, hlit, rfl⟩ := List.mem_map.1 ((hrep.failed_refutes h).1 l hl)
    exact ⟨lit, hlit, (failed_eq_ok_true_iff hstage).2 ⟨(hrep.of_mem_pending hlit).1, hl⟩⟩
  · rintro ⟨lit, -, hfailed⟩
    exact List.ne_nil_of_mem ((failed_eq_ok_true_iff hstage).1 hfailed).2

/-- A refutation of the clauses is permanent.  If a solve ends with a refutation, and no assumption
was pending or none is seen to have failed, then after any more calls, whatever clauses,
assumptions, limits and callbacks they set, every solve that is not refused is over at once: it
answers that there is no model and that nothing has failed, counts no decision and no conflict, and
calls no callback.  If some assumption is seen to have failed, the solver stays consistent. -/
theorem refutation_permanent (calls : List Call)
    (h : (after R calls).solve.2 = .ok .unsatisfiable) :
    (pending (accepted R calls) = [] ∨ (∀ lit, (after R calls).solve.1.failed lit ≠ .ok true) →
      ∀ (later : List Call) (verdict : Verdict),
        ((after R calls).solve.1.performAll later).solve.2 = .ok verdict →
          ((after R calls).solve.1.performAll later).OverAtOnce) ∧
      ((∃ lit, (after R calls).solve.1.failed lit = .ok true) →
        (after R calls).solve.1.engine.consistent = true) := by
  constructor
  · intro hnone later verdict hsolve
    have hinconsistent : (after R calls).solve.1.engine.consistent = false := by
      rw [← Bool.not_eq_true, consistent_iff_failed h]
      rintro ⟨lit, hlit, hfailed⟩
      rcases hnone with hnone | hnone
      · rw [hnone] at hlit
        cases hlit
      · exact hnone lit hfailed
    exact overAtOnce_of_inconsistent (inconsistent_performAll hinconsistent later) hsolve
  · rintro ⟨lit, hfailed⟩
    exact (consistent_iff_failed h).2
      ⟨lit, (represents_after calls).mem_pending_of_failed h hfailed, hfailed⟩

/-- Such a refutation: the assumption has no part in it, and a later solve is not stopped by the
limit or by the callback that asks to stop at once. -/
theorem refutation_permanent_of_clauses :
    let calls : List Call :=
      [.addClause [1, 2], .addClause [1, -2], .addClause [-1, 2], .addClause [-1, -2], .assume 3]
    let later : List Call :=
      [.setOption "ipasir.limits.decisions" 0 0, .setOption "ipasir.limits.conflicts" 0 0,
        .setTerminate (some (.after 0)), .setExport 5 true, .addClause [4, 5], .assume 4]
    (after Random.Pcg calls).solve.2 = .ok .unsatisfiable ∧
      pending (accepted Random.Pcg calls) = [3] ∧
      ((after Random.Pcg calls).solve.1.performAll later).solve.2 = .ok .unsatisfiable := by
  intro calls later
  have h : (after Random.Pcg calls).solve.2 = .ok .unsatisfiable := by decide +kernel
  have hstage : (after Random.Pcg calls).solve.1.stage = .unsat := by decide +kernel
  have hnone : (after Random.Pcg calls).solve.1.engine.failed = [] := by decide +kernel
  have hlater : ((after Random.Pcg calls).solve.1.performAll later).solve.2 =
      .ok .unsatisfiable := by decide +kernel
  have hseen : ∀ lit, (after Random.Pcg calls).solve.1.failed lit ≠ .ok true := by
    intro lit hfailed
    have hmem := ((failed_eq_ok_true_iff hstage).1 hfailed).2
    rw [hnone] at hmem
    cases hmem
  exact ⟨h, by decide +kernel,
    ((refutation_permanent calls h).1 (.inr hseen) later _ hlater).verdict⟩

end Session

end IncrementalSat
