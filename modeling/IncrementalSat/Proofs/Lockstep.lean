import IncrementalSat.Proofs.Surroundings
import IncrementalSat.Proofs.Termination

/-!
# Searches in lockstep

Two searches from one solver under different surroundings go turn by turn through the same solvers,
as long as their terminate callbacks answer alike.  Either both end with the same verdict, or a
limit cuts the second short: it tells a beginning of what the first tells and counts less.
-/

set_option autoImplicit false

namespace IncrementalSat

/-- The clauses learnt are the same in events that look the same, if these show what is learnt. -/
theorem learntClauses_congr {keep : Event → Bool} (hkeep : ∀ l others, keep (.learnt l others))
    {xs ys : Array Event} (h : visible keep xs = visible keep ys) :
    learntClauses xs = learntClauses ys := by
  have hshown : ∀ e : Event, e.learnt?.isSome → keep e = true := by
    intro e he
    cases e <;> simp [Event.learnt?] at he ⊢
    exact hkeep _ _
  rw [learntClauses, ← filterMap_visible hshown, h, filterMap_visible hshown, learntClauses]

namespace Cdcl

/-! ## Terminate callbacks -/

/-- A terminate callback, if there is one, never asks to stop. -/
def Patient (callback : Option Terminate) : Prop :=
  ∀ t ∈ callback, ∀ polls, t.answer polls = false

/-- Two terminate callbacks are the same, or neither asks to stop and polls are not seen. -/
def InStep (keep : Event → Bool) (callback callback' : Option Terminate) : Prop :=
  callback' = callback ∨ (keep .polled = false ∧ Patient callback ∧ Patient callback')

/-- A callback that never asks to stop does not once it has been polled. -/
theorem Patient.polled {callback : Option Terminate} (h : Patient callback) :
    Patient (polled callback) := by
  intro t ht polls
  obtain ⟨t, ht', rfl⟩ := Option.map_eq_some_iff.1 ht
  exact h t ht' polls

/-- Callbacks in step are in step once both have been polled. -/
theorem InStep.polled {keep : Event → Bool} {callback callback' : Option Terminate}
    (h : InStep keep callback callback') :
    InStep keep (polled callback) (Cdcl.polled callback') := by
  rcases h with rfl | ⟨hblind, hpatient, hpatient'⟩
  · exact .inl rfl
  · exact .inr ⟨hblind, hpatient.polled, hpatient'.polled⟩

/-- Callbacks in step are polled alike. -/
theorem InStep.pollEvents {keep : Event → Bool} {callback callback' : Option Terminate}
    (h : InStep keep callback callback') :
    visible keep (pollEvents callback') = visible keep (Cdcl.pollEvents callback) := by
  rcases h with rfl | ⟨hblind, -, -⟩
  · rfl
  · have hnone : ∀ callback, visible keep (Cdcl.pollEvents callback) = [] := by
      intro callback
      unfold Cdcl.pollEvents
      split
      · simp [visible, hblind]
      · rfl
    rw [hnone, hnone]

namespace Solver

variable {R : Type} [Random.Source R] {assumptions : List Literal} {s : Solver R}
  {w : Surroundings} {keep : Event → Bool}

/-! ## Turns -/

/-- A turn changes nothing of the surroundings but the polls. -/
theorem surroundings_turn {turn : Turn R} (hturn : s.turn assumptions = some turn) :
    turn.solver.surroundings = { s.surroundings with terminate := polled s.terminate } := by
  rcases turn_cases hturn with rfl | ⟨advanced, hadvance, rfl⟩
  · rfl
  · exact surroundings_advance hadvance

omit [Random.Source R] in
/-- What is cut short stays so after the same events, and when the other count goes on. -/
theorem Cut.around {limit : Option Nat} {stop : Event} {events events' xs xs' : Array Event}
    {count count' total : Nat} (h : Cut keep limit stop events events' count count')
    (hxs : visible keep xs' = visible keep xs) (more : Array Event) (hle : count ≤ total) :
    Cut keep limit stop (xs ++ events ++ more) (xs' ++ events') total count' := by
  obtain ⟨before, rfl, hprefix⟩ := h.events
  refine ⟨h.exhausted, h.lt.trans_le hle, xs' ++ before, Array.append_push, ?_⟩
  rw [visible_append, visible_append, visible_append, hxs]
  exact ((List.prefix_append_right_inj _).2 hprefix).trans (List.prefix_append _ _)

omit [Random.Source R] in
/-- What a limit cuts short stays so after the same events, and when the counts go on. -/
theorem CutByLimit.around {limits : Limits} {events events' xs xs' : Array Event}
    {counters counters' total : Counters}
    (h : CutByLimit keep limits events events' counters counters')
    (hxs : visible keep xs' = visible keep xs) (more : Array Event)
    (hdecisions : counters.decisions ≤ total.decisions)
    (hconflicts : counters.conflicts ≤ total.conflicts) :
    CutByLimit keep limits (xs ++ events ++ more) (xs' ++ events') total counters' :=
  h.imp (fun hcut => hcut.around hxs more hdecisions) fun hcut => hcut.around hxs more hconflicts

/-- A turn is the same under other surroundings, unless a count is limited further. -/
theorem turn_under (hlimits : w.limits = s.limits ∨ s.limits = {}) (h : Overlooks keep s w)
    (hstep : InStep keep s.terminate w.terminate) {turn : Turn R}
    (hturn : s.turn assumptions = some turn) :
    ∃ turn', (s.under w).turn assumptions = some turn' ∧
      (Mirrors keep { w with terminate := polled w.terminate } turn turn' ∨
        CutShort keep s w turn turn') := by
  by_cases hstop : ∃ t ∈ s.terminate, t.answer t.polls = true
  · obtain ⟨t, ht, hanswer⟩ := hstop
    have hsame : w.terminate = s.terminate := hstep.resolve_right fun ⟨_, hpatient, _⟩ =>
      absurd ((hpatient t ht t.polls).symm.trans hanswer) Bool.false_ne_true
    rw [turn_of_stop ht hanswer] at hturn
    obtain rfl := Option.some.inj hturn
    have hturn' : (s.under w).turn assumptions = _ :=
      turn_of_stop (s := s.under w) (hsame.trans ht) hanswer
    exact ⟨_, hturn', .inl ⟨rfl, rfl, rfl⟩⟩
  · have hgo : ∀ t ∈ s.terminate, t.answer t.polls = false := by simpa using hstop
    have hgo' : ∀ t ∈ w.terminate, t.answer t.polls = false := by
      rcases hstep with hsame | ⟨-, -, hpatient⟩
      · rwa [hsame]
      · exact fun t ht => hpatient t ht t.polls
    rw [turn_of_patient hgo] at hturn
    obtain ⟨advanced, hadvance, rfl⟩ := Option.map_eq_some_iff.1 hturn
    obtain ⟨advanced', hadvance', hresult⟩ := advance_under
      (s := { s with terminate := polled s.terminate })
      (w := { w with terminate := polled w.terminate }) hlimits { h with } hadvance
    refine ⟨{ advanced' with events := pollEvents w.terminate ++ advanced'.events }, ?_, ?_⟩
    · rw [turn_of_patient hgo']
      exact congrArg _ hadvance'
    · refine hresult.imp (fun hmirrors => ?_) fun hcut => ?_
      · refine ⟨hmirrors.solver, hmirrors.verdict, ?_⟩
        show visible keep (_ ++ _) = visible keep (_ ++ _)
        rw [visible_append, visible_append, hstep.pollEvents, hmirrors.events]
      · have hcut' := hcut.cut.around hstep.pollEvents #[] le_rfl le_rfl
        rw [Array.append_empty] at hcut'
        exact { hcut with cut := hcut' }

/-! ## Runs -/

/-- What one run leaves behind is what another one does, but for the surroundings. -/
structure Alike (keep : Event → Bool) (result result' : Solved (Solver R)) : Prop where
  engine : result'.engine = result.engine.under result'.engine.surroundings
  callbacks : InStep keep result.engine.terminate result'.engine.terminate
  verdict : result'.verdict = result.verdict
  events : visible keep result'.events = visible keep result.events

/-- A run ends without an answer because a limit is exhausted, where another one goes on. -/
structure Interrupted (keep : Event → Bool) (s : Solver R) (w : Surroundings)
    (result result' : Solved (Solver R)) : Prop where
  differ : w.limits ≠ s.limits
  verdict : result'.verdict = .unknown
  cut : CutByLimit keep w.limits result.events result'.events result.engine.counters
    result'.engine.counters

/-- The turns of a search are the same under other surroundings, until a count is limited
further. -/
theorem turns_under (hlimits : w.limits = s.limits ∨ s.limits = {}) (h : Overlooks keep s w)
    (hstep : InStep keep s.terminate w.terminate) {fuel : Nat} {xs xs' : Array Event}
    (hxs : visible keep xs' = visible keep xs) {result : Solved (Solver R)}
    (hresult : turns assumptions fuel xs s = some result) :
    ∃ result', turns assumptions fuel xs' (s.under w) = some result' ∧
      (Alike keep result result' ∨ Interrupted keep s w result result') := by
  induction fuel generalizing s w xs xs' with
  | zero => simp [turns] at hresult
  | succ fuel ih =>
    obtain ⟨turn, hturn⟩ := exists_turn hresult
    obtain ⟨turn', hturn', hmirrors | hcut⟩ := turn_under hlimits h hstep hturn
    · have hframe := surroundings_turn hturn
      have hterminate' : turn.solver.terminate = polled s.terminate :=
        congrArg Surroundings.terminate hframe
      have hxs' : visible keep (xs' ++ turn'.events) = visible keep (xs ++ turn.events) := by
        rw [visible_append, visible_append, hxs, hmirrors.events]
      cases hverdict : turn.verdict with
      | some verdict =>
        rw [turns_of_verdict hturn hverdict] at hresult
        obtain rfl := Option.some.inj hresult
        rw [turns_of_verdict hturn' (hmirrors.verdict.trans hverdict), hmirrors.solver]
        exact ⟨_, rfl, .inl ⟨rfl, hterminate' ▸ hstep.polled, rfl, hxs'⟩⟩
      | none =>
        rw [turns_of_none hturn hverdict] at hresult
        rw [turns_of_none hturn' (hmirrors.verdict.trans hverdict), hmirrors.solver]
        have hlimits' : turn.solver.limits = s.limits := congrArg Surroundings.limits hframe
        have hexport' : turn.solver.exportBound = s.exportBound :=
          congrArg Surroundings.exportBound hframe
        have hcheck' : turn.solver.settings.check = s.settings.check :=
          congrArg Surroundings.check hframe
        obtain ⟨result', hresult', hcase⟩ := ih (w := { w with terminate := polled w.terminate })
          (hlimits' ▸ hlimits) ⟨hexport' ▸ h.exports, hcheck' ▸ h.checks⟩
          (hterminate' ▸ hstep.polled) hxs' hresult
        exact ⟨result', hresult', hcase.imp id fun hcut =>
          { hcut with differ := hlimits' ▸ hcut.differ }⟩
    · rw [turns_of_none hturn hcut.goes_on] at hresult
      rw [turns_of_verdict hturn' hcut.stops]
      obtain ⟨rest, hrest, htallies⟩ := tallies_turns hresult
      refine ⟨_, rfl, .inr ⟨hcut.differ, rfl, ?_⟩⟩
      rw [hrest]
      refine hcut.cut.around hxs rest ?_ ?_
      · rw [htallies.decisions]
        exact Nat.le_add_right _ _
      · rw [htallies.conflicts]
        exact Nat.le_add_right _ _

/-- A search is the same under other surroundings, until a count is limited further. -/
theorem search?_under (hlimits : w.limits = s.limits ∨ s.limits = {}) (h : Overlooks keep s w)
    (hstep : InStep keep s.terminate w.terminate) {result : Solved (Solver R)}
    (hresult : s.search? assumptions = some result) :
    ∃ result', (s.under w).search? assumptions = some result' ∧
      (Alike keep result result' ∨ Interrupted keep s w result result') := by
  have hconsistent : (s.under w).consistent = s.consistent := rfl
  unfold search? at hresult ⊢
  rw [hconsistent]
  split at hresult
  · rename_i hopen
    rw [if_pos hopen]
    exact turns_under hlimits h hstep rfl hresult
  · rename_i hclosed
    obtain rfl := Option.some.inj hresult
    rw [if_neg hclosed]
    exact ⟨_, rfl, .inl ⟨rfl, hstep, rfl, rfl⟩⟩

omit [Random.Source R] in
/-- Searches that end alike make solves that end alike. -/
theorem Alike.concluded {result result' : Solved (Solver R)} (h : Alike keep result result') :
    Alike keep (concluded result) (Solver.concluded result') := by
  obtain ⟨s, verdict, events⟩ := result
  obtain ⟨s', verdict', events'⟩ := result'
  obtain ⟨hengine, hcallbacks, rfl, hevents⟩ := h
  dsimp only at hengine hcallbacks hevents
  refine ⟨?_, hcallbacks, rfl, ?_⟩
  · unfold Solver.concluded
    rw [hengine]
    rfl
  · unfold Solver.concluded
    dsimp only
    rw [visible_push, visible_push, hevents, hengine]
    rfl

end Solver

end Cdcl

end IncrementalSat
