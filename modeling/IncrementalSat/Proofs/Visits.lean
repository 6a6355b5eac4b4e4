import IncrementalSat.Proofs.Truncation
import IncrementalSat.Proofs.Verdicts

/-!
# The solvers that a search visits

A solve visits a solver if turns of its search without a verdict lead to it.  The search propagates
once in each solver that it visits, unless the terminate callback makes it stop there, so what holds
of all solvers visited holds wherever the search propagates or analyzes a conflict.
-/

set_option autoImplicit false

namespace IncrementalSat

namespace Cdcl.Solver

variable {R : Type} [Random.Source R] {assumptions : List Literal} {s s' : Solver R}

/-- A solve visits a solver if some turns of its search, none of them with a verdict, lead to it. -/
def Visits (s s' : Solver R) : Prop :=
  s.consistent = true ∧ ∃ n events, Leads s.assumptions.toList n s.beginSolve events s'

/-- A solve of a consistent solver visits the solver that it begins with. -/
theorem visits_beginSolve (h : s.consistent = true) : s.Visits s.beginSolve :=
  ⟨h, 0, #[], .start _⟩

/-- A turn without a verdict takes a search one turn further. -/
theorem Leads.append_turn {n : Nat} {events : Array Event}
    (h : Leads assumptions n s events s') {turn : Turn R}
    (hturn : s'.turn assumptions = some turn) (hverdict : turn.verdict = none) :
    Leads assumptions (n + 1) s (events ++ turn.events) turn.solver := by
  induction h with
  | start s =>
    rw [Array.empty_append, ← @Array.append_empty _ turn.events]
    exact .turn hturn hverdict (.start _)
  | turn hfirst hnone hrest ih =>
    rw [Array.append_assoc]
    exact .turn hfirst hnone (ih hturn)

/-- After a turn without a verdict the search visits the solver that it leaves behind. -/
theorem Visits.turn (h : s.Visits s') {turn : Turn R}
    (hturn : s'.turn s.assumptions.toList = some turn) (hverdict : turn.verdict = none) :
    s.Visits turn.solver := by
  obtain ⟨hconsistent, n, events, hleads⟩ := h
  exact ⟨hconsistent, n + 1, _, hleads.append_turn hturn hverdict⟩

/-- The solver after a turn, where the turn is computed. -/
theorem Visits.turn_get (h : s.Visits s') (hsome : (s'.turn s.assumptions.toList).isSome)
    (hverdict : ((s'.turn s.assumptions.toList).get hsome).verdict = none) :
    s.Visits ((s'.turn s.assumptions.toList).get hsome).solver :=
  h.turn (Option.some_get hsome).symm hverdict

/-- A search that ends goes on from each solver that its turns lead to, and ends alike. -/
theorem Leads.turns_end {n : Nat} {events : Array Event} (h : Leads assumptions n s events s')
    {fuel : Nat} {xs : Array Event} {result : Solved (Solver R)}
    (hresult : turns assumptions fuel xs s = some result) :
    ∃ fuel', turns assumptions fuel' (xs ++ events) s' = some result := by
  induction h generalizing fuel xs with
  | start s => exact ⟨fuel, by rw [Array.append_empty, hresult]⟩
  | turn hturn hverdict _ ih =>
    cases fuel with
    | zero => simp [turns] at hresult
    | succ fuel =>
      rw [turns_of_none hturn hverdict] at hresult
      rw [← Array.append_assoc]
      exact ih hresult

/-- In every solver that a solve of a ready solver visits, the search is between two turns. -/
theorem Ready.searching_of_visits (hs : Ready s) (h : s.Visits s') :
    Searching s.assumptions.toList s' := by
  obtain ⟨hconsistent, n, events, hleads⟩ := h
  exact hleads.searching (hs.resting.searching hconsistent hs.assumptions)

end Cdcl.Solver

namespace Session

open Cdcl

variable {R : Type} [Random.Source R] {calls : List Call} {s : Solver R}

/-- In every solver that a solve visits after calls, the search is between two turns. -/
theorem searching_of_visits (h : (after R calls).engine.Visits s) :
    Solver.Searching (after R calls).engine.assumptions.toList s := by
  obtain ⟨hconsistent, n, events, hleads⟩ := h
  have hrep := (represents_after (R := R) calls).engine
  exact hleads.searching (hrep.resting.searching hconsistent hrep.assumptions_room)

/-- There is a turn in every solver visited, and without a verdict the search goes on from there. -/
theorem exists_turn_of_visits (h : (after R calls).engine.Visits s) :
    ∃ turn, s.turn (after R calls).engine.assumptions.toList = some turn ∧
      (turn.verdict = none → (after R calls).engine.Visits turn.solver) := by
  obtain ⟨turn, hturn, -⟩ := (searching_of_visits h).turn
  exact ⟨turn, hturn, h.turn hturn⟩

/-- A turn with a verdict in a solver visited ends the solve. -/
theorem solve_of_visits (h : (after R calls).engine.Visits s) {turn : Turn R}
    (hturn : s.turn (after R calls).engine.assumptions.toList = some turn) {verdict : Verdict}
    (hverdict : turn.verdict = some verdict) :
    (after R calls).engine.solve.verdict = verdict ∧
      (after R calls).engine.solve.engine =
        { turn.solver with trail := turn.solver.trail.backjump 0 } := by
  obtain ⟨hconsistent, n, events, hleads⟩ := h
  have hrep := (represents_after (R := R) calls).engine
  obtain ⟨result, hresult, hsolve⟩ := hrep.resting.turns_end hconsistent hrep.assumptions_room
  obtain ⟨fuel, hrest⟩ := hleads.turns_end hresult
  cases fuel with
  | zero => simp [Solver.turns] at hrest
  | succ fuel =>
    rw [Solver.turns_of_verdict hturn hverdict] at hrest
    obtain rfl := Option.some.inj hrest
    rw [hsolve]
    exact ⟨rfl, rfl⟩

end Session

end IncrementalSat
