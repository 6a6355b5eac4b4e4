import IncrementalSat.Proofs.Solve

/-!
# What a search counts and tells

A search notes each clause that it learns and each decision that it makes, so its counts are read
off its events.  The export callback is given those of the learnt clauses that its bound lets
through, in the order in which they are learnt.  Each step adds to the counts what its events tell
and stays within the limits, so that the same holds of a whole search.  A search that ends does so
with the first turn that has a verdict; the turns before lead to that one and keep what each keeps.
-/

set_option autoImplicit false

namespace IncrementalSat

/-! ## Events -/

/-- The clause that an event says was learnt. -/
def Event.learnt? : Event → Option (List Literal)
  | learnt asserted others => some (asserted :: others)
  | _ => none

/-- Whether an event is a decision. -/
def Event.isDecision : Event → Bool
  | decided _ => true
  | _ => false

/-- The clauses learnt in the course of events, in order. -/
def learntClauses (events : Array Event) : List (List Literal) :=
  events.toList.filterMap Event.learnt?

/-- The clauses given to the export callback in the course of events, in order. -/
def exportedClauses (events : Array Event) : List (List Int32) :=
  events.toList.filterMap Event.exported?

/-- The number of decisions in the course of events. -/
def decisionCount (events : Array Event) : Nat :=
  events.toList.countP Event.isDecision

/-- Those of some clauses that an export callback with a bound is given, and none without one. -/
def passing (bound : Option Nat) (clauses : List (List Literal)) : List (List Int32) :=
  match bound with
  | none => []
  | some bound =>
    (clauses.filter fun c => c.length ≤ bound).map fun c => c.map Literal.toInteger

section Events

variable (xs ys : Array Event)

/-- The clauses learnt in events in two parts are those of one part and then those of the other. -/
@[simp] theorem learntClauses_append :
    learntClauses (xs ++ ys) = learntClauses xs ++ learntClauses ys := by
  simp [learntClauses]

/-- The clauses exported in events in two parts are those of one part and then those of the other.
-/
@[simp] theorem exportedClauses_append :
    exportedClauses (xs ++ ys) = exportedClauses xs ++ exportedClauses ys := by
  simp [exportedClauses]

/-- The decisions in events in two parts are counted together. -/
@[simp] theorem decisionCount_append :
    decisionCount (xs ++ ys) = decisionCount xs + decisionCount ys := by
  simp [decisionCount]

/-- Which clauses pass a bound does not depend on those before them. -/
theorem passing_append (bound : Option Nat) (c d : List (List Literal)) :
    passing bound (c ++ d) = passing bound c ++ passing bound d := by
  cases bound <;> simp [passing]

/-- Where there is no clause none passes a bound. -/
@[simp] theorem passing_nil (bound : Option Nat) : passing bound [] = [] := by
  cases bound <;> rfl

end Events

namespace Cdcl

/-- A terminate callback, if there is one, after one more poll. -/
def polled (callback : Option Terminate) : Option Terminate :=
  callback.map fun t => t.poll.1

/-- The events of a poll that is not answered by a request to stop. -/
def pollEvents (callback : Option Terminate) : Array Event :=
  if callback.isSome then #[.polled] else #[]

namespace Solver

variable {R : Type} {assumptions : List Literal} {s s' s'' : Solver R} {xs ys : Array Event}

/-! ## Steps -/

/-- A step adds to the counts of a solve what its events tell, exports what its bound lets through,
and takes no count beyond a limit. -/
structure Tallies (s s' : Solver R) (events : Array Event) : Prop where
  limits : s'.limits = s.limits
  exportBound : s'.exportBound = s.exportBound
  conflicts : s'.counters.conflicts = s.counters.conflicts + (learntClauses events).length
  decisions : s'.counters.decisions = s.counters.decisions + decisionCount events
  exported : exportedClauses events = passing s.exportBound (learntClauses events)
  conflicts_le : ∀ bound ∈ s.limits.conflicts, s.counters.conflicts ≤ bound →
    s'.counters.conflicts ≤ bound
  decisions_le : ∀ bound ∈ s.limits.decisions, s.counters.decisions ≤ bound →
    s'.counters.decisions ≤ bound

namespace Tallies

/-- A step that counts nothing and tells of no clause. -/
theorem of_counters_eq (hlimits : s'.limits = s.limits) (hbound : s'.exportBound = s.exportBound)
    (hcounters : s'.counters = s.counters) (hlearnt : learntClauses xs = [])
    (hexported : exportedClauses xs = []) (hdecided : decisionCount xs = 0) :
    Tallies s s' xs where
  limits := hlimits
  exportBound := hbound
  conflicts := by simp [hcounters, hlearnt]
  decisions := by simp [hcounters, hdecided]
  exported := by simp [hlearnt, hexported]
  conflicts_le bound _ hle := by rwa [hcounters]
  decisions_le bound _ hle := by rwa [hcounters]

/-- The counts of two steps add up. -/
theorem append (h : Tallies s s' xs) (h' : Tallies s' s'' ys) : Tallies s s'' (xs ++ ys) where
  limits := h'.limits.trans h.limits
  exportBound := h'.exportBound.trans h.exportBound
  conflicts := by
    rw [h'.conflicts, h.conflicts, learntClauses_append, List.length_append, Nat.add_assoc]
  decisions := by rw [h'.decisions, h.decisions, decisionCount_append, Nat.add_assoc]
  exported := by
    rw [exportedClauses_append, h.exported, h'.exported, learntClauses_append, passing_append,
      h.exportBound]
  conflicts_le bound hbound hle :=
    h'.conflicts_le bound (h.limits ▸ hbound) (h.conflicts_le bound hbound hle)
  decisions_le bound hbound hle :=
    h'.decisions_le bound (h.limits ▸ hbound) (h.decisions_le bound hbound hle)

/-- An event that tells nothing may be noted after a step. -/
theorem push (h : Tallies s s' xs) {e : Event} (hlearnt : e.learnt? = none)
    (hexported : e.exported? = none) (hdecided : e.isDecision = false) :
    Tallies s s' (xs.push e) := by
  rw [← Array.append_singleton]
  refine h.append (.of_counters_eq rfl rfl rfl ?_ ?_ ?_)
  · simp [learntClauses, hlearnt]
  · simp [exportedClauses, hexported]
  · simp [decisionCount, hdecided]

end Tallies

/-- Below a limit that is not exhausted there is room for one more. -/
theorem succ_le_of_not_exhausted {limit : Option Nat} {count : Nat}
    (h : ¬ exhausted limit count = true) : ∀ bound ∈ limit, count + 1 ≤ bound := by
  rintro bound rfl
  simpa [exhausted, Nat.succ_le_iff] using h

/-- A restart counts neither a conflict nor a decision of the solve. -/
theorem tallies_restartIfDue (s : Solver R) : Tallies s s.restartIfDue.1 s.restartIfDue.2 := by
  unfold restartIfDue
  split
  · exact ⟨rfl, rfl, rfl, rfl, (passing_nil _).symm, fun _ _ => id, fun _ _ => id⟩
  · exact .of_counters_eq rfl rfl rfl rfl rfl rfl

/-- The solver once the clause of an analysis is asserted, before a restart. -/
def afterAnalysis (s : Solver R) (analysis : Analysis) : Solver R :=
  let counters :=
    { s.counters with
      conflicts := s.counters.conflicts + 1
      totalConflicts := s.counters.totalConflicts + 1
      freshConflicts := s.counters.freshConflicts + 1 }
  let asserted :=
    assertLearnt { s with counters := counters, seen := analysis.seen } analysis.learnt
  { asserted with activity := analysis.activity.decay asserted.settings.decay.val }

/-- What is learnt from a conflict is asserted, told and exported, before a restart that is due. -/
theorem learnFrom_eq (s : Solver R) (key : Nat) :
    s.learnFrom key = (analyze? s.trail s.store s.seen s.activity key).map fun analysis =>
      ((s.afterAnalysis analysis).restartIfDue.1,
        #[.learnt analysis.learnt.asserted analysis.learnt.others] ++
          s.exportEvents analysis.learnt ++ (s.afterAnalysis analysis).restartIfDue.2) :=
  rfl

/-- A restart tells of no clause. -/
theorem learntClauses_restartIfDue (s : Solver R) : learntClauses s.restartIfDue.2 = [] := by
  unfold restartIfDue
  split
  · rfl
  · rfl

/-- What is noted of a learnt clause beside itself is an export. -/
theorem exportEvents_eq_exported (s : Solver R) (c : Lemma) :
    ∀ e ∈ s.exportEvents c, ∃ clause, e = .exported clause := by
  unfold exportEvents
  split
  · simp
  · split
    · simp
    · simp

/-- Of a clause that is learnt, the export callback is given what its bound lets through. -/
theorem exportEvents_spec (s : Solver R) (c : Lemma) :
    exportedClauses (s.exportEvents c) = passing s.exportBound [c.literals] ∧
      learntClauses (s.exportEvents c) = [] ∧ decisionCount (s.exportEvents c) = 0 := by
  unfold exportEvents
  cases s.exportBound with
  | none => exact ⟨rfl, rfl, rfl⟩
  | some bound =>
    by_cases hle : c.literals.length ≤ bound
    · simp only [if_pos hle]
      refine ⟨?_, rfl, rfl⟩
      simp [passing, hle, exportedClauses, Event.exported?]
    · simp only [if_neg hle]
      exact ⟨by simp [passing, hle, exportedClauses], rfl, rfl⟩

/-- What is asserted after an analysis counts one conflict. -/
theorem afterAnalysis_frame (s : Solver R) (analysis : Analysis) :
    (s.afterAnalysis analysis).counters.conflicts = s.counters.conflicts + 1 ∧
      (s.afterAnalysis analysis).counters.decisions = s.counters.decisions ∧
      (s.afterAnalysis analysis).limits = s.limits ∧
      (s.afterAnalysis analysis).exportBound = s.exportBound := by
  unfold afterAnalysis assertLearnt
  dsimp only
  split
  · exact ⟨rfl, rfl, rfl, rfl⟩
  · exact ⟨rfl, rfl, rfl, rfl⟩

/-- From a conflict the clause is learnt that its analysis gives. -/
theorem learntClauses_learnFrom {key : Nat} (h : s.learnFrom key = some (s', xs)) :
    ∃ analysis, analyze? s.trail s.store s.seen s.activity key = some analysis ∧
      learntClauses xs = [analysis.learnt.literals] := by
  rw [learnFrom_eq] at h
  obtain ⟨analysis, hanalysis, hresult⟩ := Option.map_eq_some_iff.1 h
  obtain ⟨-, rfl⟩ := Prod.mk.inj hresult
  refine ⟨analysis, hanalysis, ?_⟩
  rw [learntClauses_append, learntClauses_append, (s.exportEvents_spec _).2.1,
    learntClauses_restartIfDue]
  rfl

/-- A conflict from which a clause is learnt is counted once, unless a limit is exhausted. -/
theorem tallies_learnFrom {key : Nat} (hroom : ¬ exhausted s.limits.conflicts s.counters.conflicts)
    (h : s.learnFrom key = some (s', xs)) : Tallies s s' xs := by
  rw [learnFrom_eq] at h
  obtain ⟨analysis, -, hresult⟩ := Option.map_eq_some_iff.1 h
  obtain ⟨rfl, rfl⟩ := Prod.mk.inj hresult
  obtain ⟨hexported, hlearnt, hdecided⟩ := s.exportEvents_spec analysis.learnt
  obtain ⟨hconflicts, hdecisions, hlimits, hbound⟩ := s.afterAnalysis_frame analysis
  refine Tallies.append ?_ (tallies_restartIfDue _)
  exact
    { limits := hlimits
      exportBound := hbound
      conflicts := by
        rw [hconflicts, learntClauses_append, hlearnt]
        rfl
      decisions := by
        rw [hdecisions, decisionCount_append, hdecided]
        rfl
      exported := by
        rw [exportedClauses_append, learntClauses_append, hexported, hlearnt]
        rfl
      conflicts_le := by
        intro bound hmem _
        rw [hconflicts]
        exact succ_le_of_not_exhausted hroom bound hmem
      decisions_le := by
        intro bound _ hle
        rwa [hdecisions] }

/-! ## Turns -/

/-- What is done about a conflict counts it where it tells of a learnt clause, and nothing
otherwise. -/
theorem tallies_onConflict {key : Nat} {turn : Turn R} (h : s.onConflict key = some turn) :
    Tallies s turn.solver turn.events := by
  unfold onConflict at h
  split at h
  · obtain rfl := Option.some.inj h
    exact .of_counters_eq rfl rfl rfl rfl rfl rfl
  split at h
  · obtain rfl := Option.some.inj h
    exact .of_counters_eq rfl rfl rfl rfl rfl rfl
  · rename_i hroom
    obtain ⟨⟨s', more⟩, hlearn, rfl⟩ := Option.map_eq_some_iff.1 h
    have hnoted : Tallies s s #[.conflict key] := .of_counters_eq rfl rfl rfl rfl rfl rfl
    exact hnoted.append (tallies_learnFrom hroom hlearn)

/-- The turn that ends with a valuation counts nothing. -/
theorem tallies_foundModel (s : Solver R) :
    Tallies s s.foundModel.solver s.foundModel.events := by
  unfold foundModel
  dsimp only
  split
  · exact .of_counters_eq rfl rfl rfl rfl rfl rfl
  · exact .of_counters_eq rfl rfl rfl rfl rfl rfl

/-- The turn that refutes an assumption counts nothing. -/
theorem tallies_refute (s : Solver R) (a : Literal) :
    Tallies s (s.refute a).solver (s.refute a).events := by
  unfold refute
  dsimp only
  split
  · exact .of_counters_eq rfl rfl rfl rfl rfl rfl
  · exact .of_counters_eq rfl rfl rfl rfl rfl rfl

/-- The turn that decides on a literal, unless a limit is exhausted. -/
def decideOn (s : Solver R) (l : Literal) (events : Array Event) : Turn R :=
  if exhausted s.limits.decisions s.counters.decisions then
    ⟨s, some .unknown, events.push .decisionLimit⟩
  else
    let counters :=
      { s.counters with
        decisions := s.counters.decisions + 1
        totalDecisions := s.counters.totalDecisions + 1 }
    ⟨{ s with counters := counters, trail := s.trail.pushLevel.assign l none }, none,
      events.push (.decided l)⟩

/-- A decision is made on the literal that is chosen; without one a valuation has been found. -/
theorem makeDecision_eq [Random.Source R] (s : Solver R) :
    s.makeDecision =
      match s.choose with
      | (s, none, _) => s.foundModel
      | (s, some l, events) => s.decideOn l events :=
  rfl

variable [Random.Source R]

/-- The choice of a decision counts nothing; it may note the draw of an atom. -/
theorem tallies_choose (s : Solver R) : Tallies s s.choose.1 s.choose.2.2 := by
  unfold choose
  split
  · exact .of_counters_eq rfl rfl rfl rfl rfl rfl
  split
  · exact .of_counters_eq rfl rfl rfl rfl rfl rfl
  · exact .of_counters_eq rfl rfl rfl rfl rfl rfl

omit [Random.Source R] in
/-- A decision is counted once, unless a limit is exhausted. -/
theorem tallies_decideOn (s : Solver R) (l : Literal) {chosen : Solver R}
    (h : Tallies s chosen xs) :
    Tallies s (chosen.decideOn l xs).solver (chosen.decideOn l xs).events := by
  unfold decideOn
  split
  · exact h.push rfl rfl rfl
  · rename_i hroom
    rw [← Array.append_singleton]
    refine h.append ?_
    exact
      { limits := rfl
        exportBound := rfl
        conflicts := rfl
        decisions := rfl
        exported := (passing_nil _).symm
        conflicts_le := fun _ _ => id
        decisions_le := fun bound hmem _ => succ_le_of_not_exhausted hroom bound hmem }

/-- A decision is counted as it is told. -/
theorem tallies_makeDecision (s : Solver R) :
    Tallies s s.makeDecision.solver s.makeDecision.events := by
  have hsame := s.choose_eq
  have hchoose := s.tallies_choose
  rw [makeDecision_eq]
  cases hchosen : s.choose with
  | mk s₁ rest =>
    obtain ⟨chosen, events⟩ := rest
    rw [hchosen] at hsame hchoose
    obtain ⟨random, rfl⟩ : ∃ random, s₁ = { s with random := random } := ⟨_, hsame⟩
    cases chosen with
    | none => exact { tallies_foundModel _ with }
    | some l => exact tallies_decideOn s l hchoose

/-- What is done at a fixpoint is counted as it is told. -/
theorem tallies_onFixpoint (s : Solver R) (assumptions : List Literal) :
    Tallies s (s.onFixpoint assumptions).solver (s.onFixpoint assumptions).events := by
  unfold onFixpoint
  split
  · exact { tallies_makeDecision _ with }
  · exact .of_counters_eq rfl rfl rfl rfl rfl rfl
  · exact { tallies_refute _ _ with }

/-- What a turn does after its poll is counted as it is told. -/
theorem tallies_advance {turn : Turn R}
    (h : s.advance assumptions = some turn) : Tallies s turn.solver turn.events := by
  unfold advance at h
  dsimp only at h
  split at h
  · exact { tallies_onConflict h with }
  · obtain rfl := Option.some.inj h
    exact { tallies_onFixpoint _ _ with }

/-! ## Polls -/

/-- A turn whose poll is answered by a request to stop does nothing else. -/
theorem turn_of_stop {t : Terminate} (ht : s.terminate = some t) (hstop : t.answer t.polls = true) :
    s.turn assumptions = some
      ⟨{ s with terminate := polled s.terminate }, some .unknown, #[.polled, .terminated]⟩ := by
  simp [Solver.turn, poll, ht, Terminate.poll, hstop, polled]

/-- A turn goes on after a poll without a request to stop. -/
theorem turn_of_patient (h : ∀ t ∈ s.terminate, t.answer t.polls = false) :
    s.turn assumptions =
      (({ s with terminate := polled s.terminate } : Solver R).advance assumptions).map fun t =>
        { t with events := pollEvents s.terminate ++ t.events } := by
  unfold Solver.turn poll
  cases ht : s.terminate with
  | none =>
    have hsame : ({ s with terminate := polled none } : Solver R) = s := by
      rw [show polled none = s.terminate from ht.symm]
    simp [hsame, pollEvents]
  | some t =>
    have hgo := h t (by rw [ht]; rfl)
    simp [Terminate.poll, hgo, polled, pollEvents]

/-- A turn stops because of its poll, or advances after it. -/
theorem turn_cases {turn : Turn R} (hturn : s.turn assumptions = some turn) :
    turn = ⟨{ s with terminate := polled s.terminate }, some .unknown, #[.polled, .terminated]⟩ ∨
      ∃ advanced,
        ({ s with terminate := polled s.terminate } : Solver R).advance assumptions =
          some advanced ∧
        turn = { advanced with events := pollEvents s.terminate ++ advanced.events } := by
  by_cases hstop : ∃ t ∈ s.terminate, t.answer t.polls = true
  · obtain ⟨t, ht, hanswer⟩ := hstop
    rw [turn_of_stop ht hanswer] at hturn
    exact .inl (Option.some.inj hturn).symm
  · rw [turn_of_patient (by simpa using hstop)] at hturn
    obtain ⟨advanced, hadvance, heq⟩ := Option.map_eq_some_iff.1 hturn
    exact .inr ⟨advanced, hadvance, heq.symm⟩

/-- The poll of a turn tells of no clause and of no decision. -/
theorem pollEvents_spec (callback : Option Terminate) :
    learntClauses (pollEvents callback) = [] ∧ exportedClauses (pollEvents callback) = [] ∧
      decisionCount (pollEvents callback) = 0 := by
  cases callback with
  | none => exact ⟨rfl, rfl, rfl⟩
  | some t => exact ⟨rfl, rfl, rfl⟩

/-- A turn adds to the counts of a solve what its events tell. -/
theorem tallies_turn {turn : Turn R} (h : s.turn assumptions = some turn) :
    Tallies s turn.solver turn.events := by
  rcases turn_cases h with rfl | ⟨advanced, hadvance, rfl⟩
  · exact .of_counters_eq rfl rfl rfl rfl rfl rfl
  · obtain ⟨hlearnt, hexported, hdecided⟩ := pollEvents_spec s.terminate
    have hasked : Tallies s { s with terminate := polled s.terminate } (pollEvents s.terminate) :=
      .of_counters_eq rfl rfl rfl hlearnt hexported hdecided
    exact hasked.append (tallies_advance hadvance)

/-! ## Searches -/

/-- A search that ends takes a turn. -/
theorem exists_turn {fuel : Nat} {xs : Array Event} {result : Solved (Solver R)}
    (h : turns assumptions (fuel + 1) xs s = some result) :
    ∃ turn, s.turn assumptions = some turn := by
  rw [turns] at h
  cases hturn : s.turn assumptions with
  | none => simp [hturn] at h
  | some turn => exact ⟨turn, rfl⟩

/-- A turn with a verdict ends the search. -/
theorem turns_of_verdict {turn : Turn R} (hturn : s.turn assumptions = some turn)
    {verdict : Verdict} (hverdict : turn.verdict = some verdict) (fuel : Nat) (xs : Array Event) :
    turns assumptions (fuel + 1) xs s = some ⟨turn.solver, verdict, xs ++ turn.events⟩ := by
  obtain ⟨s', _, more⟩ := turn
  obtain rfl : _ = some verdict := hverdict
  rw [turns, hturn]

/-- After a turn without a verdict the search goes on. -/
theorem turns_of_none {turn : Turn R} (hturn : s.turn assumptions = some turn)
    (hverdict : turn.verdict = none) (fuel : Nat) (xs : Array Event) :
    turns assumptions (fuel + 1) xs s = turns assumptions fuel (xs ++ turn.events) turn.solver := by
  obtain ⟨s', _, more⟩ := turn
  obtain rfl : _ = none := hverdict
  rw [turns, hturn]

/-- A number of turns leads from one solver to another, tells events and gives no verdict. -/
inductive Leads (assumptions : List Literal) : Nat → Solver R → Array Event → Solver R → Prop
  | start (s : Solver R) : Leads assumptions 0 s #[] s
  | turn {n : Nat} {s s' : Solver R} {turn : Turn R} {events : Array Event}
      (hturn : s.turn assumptions = some turn) (hverdict : turn.verdict = none)
      (hrest : Leads assumptions n turn.solver events s') :
      Leads assumptions (n + 1) s (turn.events ++ events) s'

/-- What a turn without a verdict keeps, turns keep wherever they lead. -/
theorem Leads.invariant {P : Solver R → Prop}
    (hstep : ∀ {u : Solver R} {turn : Turn R}, u.turn assumptions = some turn →
      turn.verdict = none → P u → P turn.solver)
    {n : Nat} {events : Array Event} (h : Leads assumptions n s events s') (hs : P s) : P s' := by
  induction h with
  | start s => exact hs
  | turn hturn hverdict _ ih => exact ih (hstep hturn hverdict hs)

/-- Turns without a verdict keep the search under way, and what the search keeps. -/
theorem Leads.searching_preserves {n : Nat} {events : Array Event}
    (h : Leads assumptions n s events s') (hs : Searching assumptions s) :
    Searching assumptions s' ∧ s.Preserves s' := by
  refine h.invariant (P := fun u => Searching assumptions u ∧ s.Preserves u) ?_ ⟨hs, .refl s⟩
  rintro u turn hturn hverdict ⟨hsearching, hpreserves⟩
  have hout := (hsearching.answers_of_turn hturn).outcome
  rw [hverdict] at hout
  exact ⟨hout.2.1, hpreserves.trans hout.1⟩

/-- Turns without a verdict keep the search under way. -/
theorem Leads.searching {n : Nat} {events : Array Event} (h : Leads assumptions n s events s')
    (hs : Searching assumptions s) : Searching assumptions s' :=
  (h.searching_preserves hs).1

/-- A search that ends does so with the first turn that has a verdict, and tells what the turns
tell, one after another. -/
theorem exists_leads_of_turns {fuel : Nat} {result : Solved (Solver R)}
    (h : turns assumptions fuel xs s = some result) :
    ∃ n events s' turn, Leads assumptions n s events s' ∧ s'.turn assumptions = some turn ∧
      turn.verdict = some result.verdict ∧ result.engine = turn.solver ∧
      result.events = xs ++ events ++ turn.events := by
  induction fuel generalizing s xs with
  | zero => simp [turns] at h
  | succ fuel ih =>
    obtain ⟨turn, hturn⟩ := exists_turn h
    cases hverdict : turn.verdict with
    | some verdict =>
      rw [turns_of_verdict hturn hverdict] at h
      obtain rfl := Option.some.inj h
      exact ⟨0, #[], s, turn, .start s, hturn, hverdict, rfl, by rw [Array.append_empty]⟩
    | none =>
      rw [turns_of_none hturn hverdict] at h
      obtain ⟨n, events, s', last, hleads, hlast, hended, hengine, hevents⟩ := ih h
      refine ⟨n + 1, _, s', last, .turn hturn hverdict hleads, hlast, hended, hengine, ?_⟩
      simp only [hevents, Array.append_assoc]

/-- The turns of a search add to the counts of a solve what their events tell. -/
theorem tallies_turns {fuel : Nat} {result : Solved (Solver R)}
    (h : turns assumptions fuel xs s = some result) :
    ∃ events, result.events = xs ++ events ∧ Tallies s result.engine events := by
  induction fuel generalizing s xs with
  | zero => simp [turns] at h
  | succ fuel ih =>
    obtain ⟨turn, hturn⟩ := exists_turn h
    cases hverdict : turn.verdict with
    | some verdict =>
      rw [turns_of_verdict hturn hverdict] at h
      obtain rfl := Option.some.inj h
      exact ⟨_, rfl, tallies_turn hturn⟩
    | none =>
      rw [turns_of_none hturn hverdict] at h
      obtain ⟨events, hevents, htallies⟩ := ih h
      refine ⟨_, ?_, (tallies_turn hturn).append htallies⟩
      rw [hevents, Array.append_assoc]

/-- The counts of a solve, which begin at zero, are what its events tell. -/
theorem tallies_solve (s : Solver R) : Tallies s.beginSolve s.solve.engine s.solve.events := by
  have hnothing : Tallies s.beginSolve s.beginSolve #[] := .of_counters_eq rfl rfl rfl rfl rfl rfl
  have hsearched : ∀ result : Solved (Solver R),
      s.beginSolve.search? s.assumptions.toList = some result →
      Tallies s.beginSolve result.engine result.events := by
    intro result hsearch
    unfold search? at hsearch
    split at hsearch
    · obtain ⟨events, hevents, htallies⟩ := tallies_turns hsearch
      rw [Array.empty_append] at hevents
      exact hevents ▸ htallies
    · obtain rfl := Option.some.inj hsearch
      exact hnothing
  unfold Solver.solve
  dsimp only
  cases hsearch : s.beginSolve.search? s.assumptions.toList with
  | none => exact { hnothing.push rfl rfl rfl with }
  | some result => exact { (hsearched result hsearch).push rfl rfl rfl with }

end Solver

end Cdcl

end IncrementalSat
