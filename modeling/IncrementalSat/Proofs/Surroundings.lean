import IncrementalSat.Proofs.Tally

/-!
# Solvers under other surroundings

The limits, the two callbacks and the option for checks surround a search: they decide when it
stops and who is told of it, and nothing else reads them.  So a step of a solver under other
surroundings leads to the same solver under these surroundings, and tells the same but for what the
surroundings govern, unless a limit among them stops the search there.
-/

set_option autoImplicit false

namespace IncrementalSat

/-- Those of some events that are kept, in order. -/
def visible (keep : Event → Bool) (events : Array Event) : List Event :=
  events.toList.filter keep

/-- What is kept of events in two parts is what is kept of each. -/
@[simp] theorem visible_append (keep : Event → Bool) (xs ys : Array Event) :
    visible keep (xs ++ ys) = visible keep xs ++ visible keep ys := by
  simp [visible]

/-- A further event is kept or not, whatever came before. -/
@[simp] theorem visible_push (keep : Event → Bool) (xs : Array Event) (e : Event) :
    visible keep (xs.push e) = visible keep xs ++ [e].filter keep := by
  simp [visible]

/-- What is read off events may be read off those that are kept, if all that tell of it are. -/
theorem filterMap_visible {α : Type} {f : Event → Option α} {keep : Event → Bool}
    (h : ∀ e, (f e).isSome → keep e = true) (xs : Array Event) :
    (visible keep xs).filterMap f = xs.toList.filterMap f := by
  rw [visible, List.filterMap_filter]
  refine List.filterMap_congr fun e _ => ?_
  split
  · rfl
  · rename_i hkeep
    exact (Option.not_isSome_iff_eq_none.1 (mt (h e) hkeep)).symm

namespace Cdcl

/-- What a client sets around a search. -/
structure Surroundings where
  limits : Limits
  terminate : Option Terminate
  exportBound : Option Nat
  check : Setting.check.Value

namespace Solver

variable {R : Type} {s : Solver R} {w : Surroundings} {keep : Event → Bool}

/-- The surroundings of a solver. -/
def surroundings (s : Solver R) : Surroundings :=
  ⟨s.limits, s.terminate, s.exportBound, s.settings.check⟩

/-- The solver under other surroundings. -/
def under (s : Solver R) (w : Surroundings) : Solver R :=
  { s with
    limits := w.limits
    terminate := w.terminate
    exportBound := w.exportBound
    settings := { s.settings with check := w.check } }

/-- A solver is under its own surroundings. -/
@[simp] theorem under_surroundings (s : Solver R) : s.under s.surroundings = s := rfl

/-- A solver has the surroundings that it is put under. -/
@[simp] theorem surroundings_under (s : Solver R) (w : Surroundings) :
    (s.under w).surroundings = w := rfl

/-- The events that are kept do not show how the surroundings of a solver differ from others. -/
structure Overlooks (keep : Event → Bool) (s : Solver R) (w : Surroundings) : Prop where
  exports : (∀ clause, keep (.exported clause) = false) ∨ w.exportBound = s.exportBound
  checks : (∀ satisfied, keep (.checked satisfied) = false) ∨ w.check = s.settings.check

/-! ## Steps that the surroundings do not govern -/

/-- The surroundings have no part in restarts. -/
theorem restartIfDue_under (s : Solver R) (w : Surroundings) :
    (s.under w).restartIfDue = (s.restartIfDue.1.under w, s.restartIfDue.2) := by
  have hdue : (s.under w).restartDue = s.restartDue := rfl
  unfold restartIfDue
  rw [hdue]
  split
  · rfl
  · rfl

/-- The surroundings have no part in the choice of a decision. -/
theorem choose_under [Random.Source R] (s : Solver R) (w : Surroundings) :
    (s.under w).choose = (s.choose.1.under w, s.choose.2) := by
  have hcomplete : (s.under w).trail.isComplete = s.trail.isComplete := rfl
  have hdraw : (s.under w).drawAtom = s.drawAtom := rfl
  unfold choose
  rw [hcomplete, hdraw]
  split
  · rfl
  · split
    · rfl
    · rfl

/-- The events that tell of exports are seen alike. -/
theorem Overlooks.exportEvents (h : Overlooks keep s w) (c : Lemma) :
    visible keep ((s.under w).exportEvents c) = visible keep (s.exportEvents c) := by
  rcases h.exports with hblind | hsame
  · have hnone : ∀ s : Solver R, visible keep (s.exportEvents c) = [] := by
      intro s
      refine List.filter_eq_nil_iff.2 fun e he => ?_
      obtain ⟨clause, rfl⟩ := s.exportEvents_eq_exported c e (Array.mem_toList_iff.1 he)
      simp [hblind]
    rw [hnone, hnone]
  · unfold Solver.exportEvents
    rw [show (s.under w).exportBound = s.exportBound from hsame]

/-- The surroundings have no part in what is learnt and asserted. -/
theorem afterAnalysis_under (s : Solver R) (w : Surroundings) (analysis : Analysis) :
    (s.under w).afterAnalysis analysis = (s.afterAnalysis analysis).under w := by
  unfold afterAnalysis assertLearnt
  dsimp only
  split
  · rfl
  · rfl

/-- What is learnt from a conflict is the same under other surroundings. -/
theorem learnFrom_under (h : Overlooks keep s w) {key : Nat} {s' : Solver R} {events : Array Event}
    (hlearn : s.learnFrom key = some (s', events)) :
    ∃ events', (s.under w).learnFrom key = some (s'.under w, events') ∧
      visible keep events' = visible keep events := by
  rw [learnFrom_eq] at hlearn
  obtain ⟨analysis, hanalysis, hresult⟩ := Option.map_eq_some_iff.1 hlearn
  obtain ⟨rfl, rfl⟩ := Prod.mk.inj hresult
  have hunder : analyze? (s.under w).trail (s.under w).store (s.under w).seen (s.under w).activity
      key = some analysis := hanalysis
  rw [learnFrom_eq, hunder, Option.map_some, afterAnalysis_under, restartIfDue_under]
  refine ⟨_, rfl, ?_⟩
  rw [visible_append, visible_append, h.exportEvents, visible_append, visible_append]

/-! ## Turns -/

/-- A turn is another one under other surroundings, and tells the same as far as it is kept. -/
structure Mirrors (keep : Event → Bool) (w : Surroundings) (turn turn' : Turn R) : Prop where
  solver : turn'.solver = turn.solver.under w
  verdict : turn'.verdict = turn.verdict
  events : visible keep turn'.events = visible keep turn.events

/-- Events that end with the exhaustion of a limit, after part of what other events tell, and with a
count that the other count exceeds. -/
structure Cut (keep : Event → Bool) (limit : Option Nat) (stop : Event)
    (events events' : Array Event) (count count' : Nat) : Prop where
  exhausted : exhausted limit count' = true
  lt : count' < count
  events : ∃ before, events' = before.push stop ∧ visible keep before <+: visible keep events

/-- One of two limits cuts events short. -/
def CutByLimit (keep : Event → Bool) (limits : Limits) (events events' : Array Event)
    (counters counters' : Counters) : Prop :=
  Cut keep limits.decisions .decisionLimit events events' counters.decisions counters'.decisions ∨
    Cut keep limits.conflicts .conflictLimit events events' counters.conflicts counters'.conflicts

/-- A turn stops because a limit is exhausted, where another one counts further and goes on. -/
structure CutShort (keep : Event → Bool) (s : Solver R) (w : Surroundings) (turn turn' : Turn R) :
    Prop where
  differ : w.limits ≠ s.limits
  goes_on : turn.verdict = none
  stops : turn'.verdict = some .unknown
  cut : CutByLimit keep w.limits turn.events turn'.events turn.solver.counters
    turn'.solver.counters

/-- Without limits there is room for everything. -/
theorem limits_eq_of_exhausted {limits : Limits} (h : limits = s.limits ∨ s.limits = {})
    (hexhausted : exhausted s.limits.conflicts s.counters.conflicts = true ∨
      exhausted s.limits.decisions s.counters.decisions = true) : limits = s.limits := by
  refine h.resolve_right fun hnone => ?_
  rw [hnone] at hexhausted
  exact hexhausted.elim Bool.false_ne_true Bool.false_ne_true

/-- A conflict is answered alike, unless the conflicts are limited further. -/
theorem onConflict_under (hlimits : w.limits = s.limits ∨ s.limits = {}) (h : Overlooks keep s w)
    {key : Nat} {turn : Turn R} (hturn : s.onConflict key = some turn) :
    ∃ turn', (s.under w).onConflict key = some turn' ∧
      (Mirrors keep w turn turn' ∨ CutShort keep s w turn turn') := by
  unfold onConflict at hturn ⊢
  have hlevel : (s.under w).trail.level = s.trail.level := rfl
  have hcount : exhausted (s.under w).limits.conflicts (s.under w).counters.conflicts =
    exhausted w.limits.conflicts s.counters.conflicts := rfl
  rw [hlevel, hcount]
  split at hturn
  · rename_i hzero
    obtain rfl := Option.some.inj hturn
    exact ⟨_, if_pos hzero, .inl ⟨rfl, rfl, rfl⟩⟩
  rename_i hpos
  rw [if_neg hpos]
  split at hturn
  · rename_i hexhausted
    obtain rfl := Option.some.inj hturn
    rw [limits_eq_of_exhausted hlimits (.inl hexhausted), if_pos hexhausted]
    exact ⟨_, rfl, .inl ⟨rfl, rfl, rfl⟩⟩
  rename_i hroom
  obtain ⟨⟨s', events⟩, hlearn, rfl⟩ := Option.map_eq_some_iff.1 hturn
  split
  · rename_i hcut
    obtain ⟨analysis, -, hlearnt⟩ := learntClauses_learnFrom hlearn
    have hconflicts := (tallies_learnFrom hroom hlearn).conflicts
    rw [hlearnt] at hconflicts
    refine ⟨_, rfl, .inr ⟨fun hsame => hroom (hsame ▸ hcut), rfl, rfl, .inr ?_⟩⟩
    refine ⟨hcut, (Nat.lt_succ_self _).trans_eq hconflicts.symm, #[.conflict key], rfl, ?_⟩
    show _ <+: visible keep (#[.conflict key] ++ events)
    rw [visible_append]
    exact List.prefix_append _ _
  · obtain ⟨events', hlearn', hevents⟩ := learnFrom_under h hlearn
    rw [hlearn']
    refine ⟨_, rfl, .inl ⟨rfl, rfl, ?_⟩⟩
    show visible keep (_ ++ events') = visible keep (_ ++ events)
    rw [visible_append, visible_append, hevents]

/-- A model is found alike. -/
theorem foundModel_under (h : Overlooks keep s w) :
    Mirrors keep w s.foundModel (s.under w).foundModel := by
  refine ⟨rfl, rfl, ?_⟩
  have hevents : ∀ s : Solver R, s.foundModel.events =
      if s.settings.check.val = 0 then #[] else #[.checked s.foundModel.solver.modelSatisfies] :=
    fun s => rfl
  have hsame : (s.under w).foundModel.solver.modelSatisfies =
    s.foundModel.solver.modelSatisfies := rfl
  rw [hevents, hevents, hsame]
  rcases h.checks with hblind | hcheck
  · have hnone : ∀ check : Int, visible keep
        (if check = 0 then #[] else #[.checked s.foundModel.solver.modelSatisfies]) = [] := by
      intro check
      split
      · rfl
      · simp [visible, hblind]
    rw [hnone, hnone]
  · rw [show (s.under w).settings.check = s.settings.check from hcheck]

/-- A refutation is told alike. -/
theorem refute_under (s : Solver R) (w : Surroundings) (a : Literal) :
    Mirrors keep w (s.refute a) ((s.under w).refute a) :=
  ⟨rfl, rfl, rfl⟩

/-- A decision is made alike, unless the decisions are limited further. -/
theorem decideOn_under (hlimits : w.limits = s.limits ∨ s.limits = {}) (l : Literal)
    (events : Array Event) :
    Mirrors keep w (s.decideOn l events) ((s.under w).decideOn l events) ∨
      CutShort keep s w (s.decideOn l events) ((s.under w).decideOn l events) := by
  have hcount : exhausted (s.under w).limits.decisions (s.under w).counters.decisions =
    exhausted w.limits.decisions s.counters.decisions := rfl
  unfold decideOn
  rw [hcount]
  by_cases hexhausted : exhausted s.limits.decisions s.counters.decisions = true
  · rw [limits_eq_of_exhausted hlimits (.inr hexhausted), if_pos hexhausted, if_pos hexhausted]
    exact .inl ⟨rfl, rfl, rfl⟩
  rw [if_neg hexhausted]
  by_cases hcut : exhausted w.limits.decisions s.counters.decisions = true
  · rw [if_pos hcut]
    refine .inr ⟨fun hsame => hexhausted (hsame ▸ hcut), rfl, rfl, .inl ?_⟩
    refine ⟨hcut, Nat.lt_succ_self _, events, rfl, ?_⟩
    rw [visible_push]
    exact List.prefix_append _ _
  · rw [if_neg hcut]
    exact .inl ⟨rfl, rfl, rfl⟩

variable [Random.Source R]

/-- A decision is made or a model found alike, unless the decisions are limited further. -/
theorem makeDecision_under (hlimits : w.limits = s.limits ∨ s.limits = {})
    (h : Overlooks keep s w) :
    Mirrors keep w s.makeDecision (s.under w).makeDecision ∨
      CutShort keep s w s.makeDecision (s.under w).makeDecision := by
  have hsame := s.choose_eq
  rw [makeDecision_eq, makeDecision_eq, choose_under]
  cases hchosen : s.choose with
  | mk s₁ rest =>
    obtain ⟨chosen, events⟩ := rest
    rw [hchosen] at hsame
    obtain ⟨random, rfl⟩ : ∃ random, s₁ = { s with random := random } := ⟨_, hsame⟩
    cases chosen with
    | none => exact .inl (foundModel_under (s := { s with random := random }) { h with })
    | some l =>
      exact (decideOn_under (s := { s with random := random }) hlimits l events).imp id
        fun hcut => { hcut with }

/-- A fixpoint is answered alike, unless the decisions are limited further. -/
theorem onFixpoint_under (hlimits : w.limits = s.limits ∨ s.limits = {}) (h : Overlooks keep s w)
    (assumptions : List Literal) :
    Mirrors keep w (s.onFixpoint assumptions) ((s.under w).onFixpoint assumptions) ∨
      CutShort keep s w (s.onFixpoint assumptions) ((s.under w).onFixpoint assumptions) := by
  have hskip : skipHolding (s.under w).trail (assumptions.drop (s.under w).trail.level) =
    skipHolding s.trail (assumptions.drop s.trail.level) := rfl
  unfold onFixpoint
  rw [hskip]
  split
  · rename_i u _
    exact (makeDecision_under (s := { s with trail := u }) hlimits { h with }).imp id
      fun hcut => { hcut with }
  · exact .inl ⟨rfl, rfl, rfl⟩
  · exact .inl (refute_under _ w _)

/-- What comes after the poll of a turn is done alike, unless a count is limited further. -/
theorem advance_under (hlimits : w.limits = s.limits ∨ s.limits = {}) (h : Overlooks keep s w)
    {assumptions : List Literal} {turn : Turn R} (hturn : s.advance assumptions = some turn) :
    ∃ turn', (s.under w).advance assumptions = some turn' ∧
      (Mirrors keep w turn turn' ∨ CutShort keep s w turn turn') := by
  have hpropagate : propagate (s.under w).trail (s.under w).store = propagate s.trail s.store := rfl
  unfold advance at hturn ⊢
  rw [hpropagate]
  dsimp only at hturn ⊢
  split at hturn
  · obtain ⟨turn', hturn', hresult⟩ := onConflict_under
      (s := { s with
        trail := (propagate s.trail s.store).1
        store := (propagate s.trail s.store).2.1 }) hlimits { h with } hturn
    exact ⟨turn', hturn', hresult.imp id fun hcut => { hcut with }⟩
  · obtain rfl := Option.some.inj hturn
    refine ⟨_, rfl, ?_⟩
    exact (onFixpoint_under
      (s := { s with
        trail := (propagate s.trail s.store).1
        store := (propagate s.trail s.store).2.1 }) hlimits { h with } assumptions).imp id
      fun hcut => { hcut with }

/-- What comes after the poll of a turn leaves the surroundings alone. -/
theorem surroundings_advance {assumptions : List Literal} {turn : Turn R}
    (hturn : s.advance assumptions = some turn) :
    turn.solver.surroundings = s.surroundings := by
  have hall : Overlooks (fun _ => true) s s.surroundings := ⟨.inr rfl, .inr rfl⟩
  obtain ⟨turn', hturn', hresult⟩ := advance_under (.inl rfl) hall hturn
  rw [under_surroundings, hturn] at hturn'
  obtain rfl := Option.some.inj hturn'
  have hmirrors := hresult.resolve_right fun hcut => hcut.differ rfl
  rw [hmirrors.solver, surroundings_under]

end Solver

end Cdcl

end IncrementalSat
