import IncrementalSat.Proofs.Lockstep
import IncrementalSat.Proofs.Requests
import IncrementalSat.Random.Pcg

/-!
# Limits and callbacks truncate the search

A solve under limits is the solve without limits, if they leave room for all that it counts, and
else a beginning of it that ends where a limit is reached.  A terminate callback is asked once in
each turn; the solve is the one without the callback, or a beginning of it that ends at the first
request to stop.  So a solve ends without an answer only where a limit or a callback makes it.
-/

set_option autoImplicit false

namespace IncrementalSat

/-- Nothing is left out where every event is kept. -/
@[simp] theorem visible_all (xs : Array Event) : visible (fun _ => true) xs = xs.toList :=
  List.filter_true _

/-- More events are more clauses exported. -/
theorem exportedClauses_prefix {xs ys : Array Event} (h : xs.toList <+: ys.toList) :
    exportedClauses xs <+: exportedClauses ys :=
  h.filterMap _

/-- Whether an event is other than a poll. -/
def unpolled (e : Event) : Bool :=
  !e.isPoll

namespace Terminate

/-- The callback after a number of polls. -/
def later (t : Terminate) (n : Nat) : Terminate :=
  { t with polls := t.polls + n }

/-- A number of polls are answered without a request to stop. -/
def Goes (t : Terminate) (n : Nat) : Prop :=
  ∀ i < n, t.answer (t.polls + i) = false

/-- Polls made one after the other add up. -/
theorem later_later (t : Terminate) (m n : Nat) : (t.later m).later n = t.later (m + n) := by
  simp [later, Nat.add_assoc]

/-- After a poll without a request to stop come those of the callback after it. -/
theorem Goes.succ {t : Terminate} {n : Nat} (hfirst : t.answer t.polls = false)
    (h : (t.later 1).Goes n) : t.Goes (n + 1) := by
  intro i hi
  cases i with
  | zero => exact hfirst
  | succ i =>
    have hlater := h i (Nat.lt_of_succ_lt_succ hi)
    rwa [later, Nat.add_assoc, Nat.add_comm 1] at hlater

end Terminate

namespace Cdcl.Solver

open Engine (Request)

variable {R : Type} {s : Solver R}

/-- The solver under limits of its own, with a terminate callback or without one. -/
def within (s : Solver R) (limits : Limits) (callback : Option Terminate) : Solver R :=
  { s with limits := limits, terminate := callback }

/-- The event by which a solve ends. -/
def report (result : Solved (Solver R)) : Event :=
  .solved result.engine.counters.solves result.verdict result.engine.counters.decisions
    result.engine.counters.conflicts

/-- A solve ends with the event that tells of its end. -/
theorem concluded_events (result : Solved (Solver R)) :
    (concluded result).events = result.events.push (report (concluded result)) :=
  rfl

/-! ## Limits -/

/-- Limits leave room for all that is counted. -/
def Fits (limits : Limits) (counters : Counters) : Prop :=
  (∀ bound ∈ limits.decisions, counters.decisions ≤ bound) ∧
    ∀ bound ∈ limits.conflicts, counters.conflicts ≤ bound

/-- A solve under limits is the same as one without. -/
structure SameSolve (limits : Limits) (free limited : Solved (Solver R)) : Prop where
  verdict : limited.verdict = free.verdict
  model : limited.engine.model = free.engine.model
  failed : limited.engine.failed = free.engine.failed
  events : limited.events = free.events
  engine : limited.engine = { free.engine with limits := limits }

/-- A solve breaks off at an event, after a beginning of what another solve tells. -/
def BreaksOffAt (stop : Event) (free limited : Solved (Solver R)) : Prop :=
  ∃ before : Array Event, limited.events = (before.push stop).push (report limited) ∧
    before.toList <+: free.events.toList

/-- A solve under limits has no answer: it breaks off where a limit is reached, and exports a
beginning of what the solve without limits does. -/
structure GivesUp (limits : Limits) (free limited : Solved (Solver R)) : Prop where
  verdict : limited.verdict = .unknown
  fits : Fits limits limited.engine.counters
  reached :
    (limits.decisions = some limited.engine.counters.decisions ∧
        BreaksOffAt .decisionLimit free limited) ∨
      (limits.conflicts = some limited.engine.counters.conflicts ∧
        BreaksOffAt .conflictLimit free limited)
  exported : exportedClauses limited.events <+: exportedClauses free.events
  level : limited.engine.trail.level = 0

/-- What breaks off at an event that exports nothing exports a beginning. -/
theorem BreaksOffAt.exported {stop : Event} {free limited : Solved (Solver R)}
    (h : BreaksOffAt stop free limited) (hstop : stop.exported? = none) :
    exportedClauses limited.events <+: exportedClauses free.events := by
  obtain ⟨before, hevents, hprefix⟩ := h
  have hreport : (report limited).exported? = none := rfl
  have hsame : exportedClauses limited.events = exportedClauses before := by
    simp [hevents, exportedClauses, hstop, hreport]
  rw [hsame]
  exact exportedClauses_prefix hprefix

/-- What is cut in a search is cut in the solve. -/
theorem Cut.breaksOffAt {limit : Option Nat} {stop : Event} {result result' : Solved (Solver R)}
    {count count' : Nat}
    (h : Cut (fun _ => true) limit stop result.events result'.events count count') :
    BreaksOffAt stop (concluded result) (concluded result') := by
  obtain ⟨before, hevents, hprefix⟩ := h.events
  rw [visible_all, visible_all] at hprefix
  refine ⟨before, by rw [concluded_events, hevents], ?_⟩
  rw [concluded_events, Array.toList_push]
  exact hprefix.trans (List.prefix_append _ _)

/-- A limit that is exhausted but not exceeded is reached exactly. -/
theorem limit_eq_of_exhausted {limit : Option Nat} {count : Nat}
    (h : exhausted limit count = true) (hle : ∀ bound ∈ limit, count ≤ bound) :
    limit = some count := by
  cases limit with
  | none => exact absurd h Bool.false_ne_true
  | some bound =>
    have hge : bound ≤ count := of_decide_eq_true h
    rw [Nat.le_antisymm hge (hle bound rfl)]

/-- The counter of a count that is cut does not fit. -/
theorem Cut.not_le {keep : Event → Bool} {limit : Option Nat} {stop : Event}
    {events events' : Array Event} {count count' : Nat}
    (h : Cut keep limit stop events events' count count') : ¬ ∀ bound ∈ limit, count ≤ bound := by
  intro hle
  cases limit with
  | none => exact Bool.false_ne_true h.exhausted
  | some bound =>
    have hge : bound ≤ count' := of_decide_eq_true h.exhausted
    exact absurd (h.lt.trans_le (hle bound rfl)) (by omega)

variable [Random.Source R]

/-- A solve without a terminate callback leaves the surroundings alone. -/
theorem Ready.surroundings_solve (h : Ready s) (hnone : s.terminate = none) :
    s.solve.engine.surroundings = s.surroundings := by
  have hsolves := h.resting.solve h.assumptions
  have hterminate : s.solve.engine.terminate = none := by
    have hanswer := hsolves.answer
    rw [hnone] at hanswer
    exact Option.map_eq_none_iff.1 hanswer
  have hbound : s.solve.engine.exportBound = s.exportBound := (tallies_solve s).exportBound
  simp only [surroundings, hsolves.limits, hsolves.settings, hterminate, hnone, hbound]

/-- A solve counts no more than its limits allow. -/
theorem fits_solve (s : Solver R) : Fits s.limits s.solve.engine.counters :=
  ⟨fun bound hbound => (tallies_solve s).decisions_le bound hbound (Nat.zero_le _),
    fun bound hbound => (tallies_solve s).conflicts_le bound hbound (Nat.zero_le _)⟩

/-- A solve under limits is the one without, or gives up. -/
theorem Ready.sameSolve_or_givesUp (h : Ready s) (limits : Limits) :
    (Fits limits (s.within {} none).solve.engine.counters ∧
        SameSolve limits (s.within {} none).solve (s.within limits none).solve) ∨
      (¬ Fits limits (s.within {} none).solve.engine.counters ∧
        GivesUp limits (s.within {} none).solve (s.within limits none).solve) := by
  have hfree : Ready (s.within {} none) := h.congr rfl rfl rfl rfl rfl rfl
  have hlimited : Ready (s.within limits none) := h.congr rfl rfl rfl rfl rfl rfl
  have hlevel := (hlimited.resting.solve hlimited.assumptions).resting.level
  have hfits := fits_solve (s.within limits none)
  have hsurroundings : (s.within limits none).solve.engine.surroundings =
      { (s.within {} none).solve.engine.surroundings with limits := limits } := by
    rw [hlimited.surroundings_solve rfl, hfree.surroundings_solve rfl]
    rfl
  obtain ⟨result, hresult, -⟩ := hfree.resting.search_ends hfree.assumptions
  have hall : Overlooks (fun _ => true) (s.within {} none).beginSolve
    (s.within limits none).surroundings := ⟨.inr rfl, .inr rfl⟩
  obtain ⟨result', hresult', hcase⟩ := search?_under (.inr rfl) hall (.inl rfl) hresult
  have hsolve' : (s.within limits none).solve = concluded result' := solve_eq_concluded hresult'
  rw [solve_eq_concluded hresult, hsolve'] at hsurroundings ⊢
  rw [hsolve'] at hfits hlevel
  rcases hcase with halike | hcut
  · left
    obtain ⟨hengine, -, hverdict, hevents⟩ := halike.concluded
    rw [hsurroundings] at hengine
    have hengine' : (concluded result').engine =
      { (concluded result).engine with limits := limits } := hengine
    rw [visible_all, visible_all] at hevents
    rw [hengine'] at hfits
    refine ⟨hfits, hverdict, ?_, ?_, Array.toList_inj.1 hevents, hengine'⟩
    · rw [hengine']
    · rw [hengine']
  · right
    have hbreaks : (limits.decisions = some (concluded result').engine.counters.decisions ∧
          BreaksOffAt .decisionLimit (concluded result) (concluded result')) ∨
        (limits.conflicts = some (concluded result').engine.counters.conflicts ∧
          BreaksOffAt .conflictLimit (concluded result) (concluded result')) :=
      hcut.cut.imp
        (fun hcut => ⟨limit_eq_of_exhausted hcut.exhausted hfits.1, hcut.breaksOffAt⟩)
        fun hcut => ⟨limit_eq_of_exhausted hcut.exhausted hfits.2, hcut.breaksOffAt⟩
    refine ⟨fun hroom => ?_, hcut.verdict, hfits, hbreaks, ?_, hlevel⟩
    · exact hcut.cut.elim (fun hcut => hcut.not_le hroom.1) fun hcut => hcut.not_le hroom.2
    · exact hbreaks.elim (fun hbreaks => hbreaks.2.exported rfl)
        fun hbreaks => hbreaks.2.exported rfl

/-! ## Terminate callbacks -/

/-- A run with a terminate callback is the one without, but for the polls, none of which is answered
by a request to stop. -/
structure Undisturbed (t : Terminate) (result result' : Solved (Solver R)) : Prop where
  verdict : result'.verdict = result.verdict
  engine : ∃ n, t.Goes n ∧ result'.engine = { result.engine with terminate := some (t.later n) }
  events : visible unpolled result'.events = visible unpolled result.events

/-- A search with a terminate callback stops at the first request, after a number of turns of the
search without the callback. -/
structure Halted (assumptions : List Literal) (s : Solver R) (xs : Array Event) (t : Terminate)
    (n : Nat) (result result' : Solved (Solver R)) : Prop where
  goes : t.Goes n
  stops : t.answer (t.polls + n) = true
  verdict : result'.verdict = .unknown
  leads : ∃ s' before, Leads assumptions n s before s' ∧
    result'.engine = { s' with terminate := some (t.later (n + 1)) } ∧
    (xs ++ before).toList <+: result.events.toList ∧
    visible unpolled result'.events = visible unpolled (xs ++ before) ++ [.terminated]

variable {assumptions : List Literal} {t : Terminate}

/-- A turn after a poll without a request to stop is the turn without a callback. -/
theorem turn_of_goes (hnone : s.terminate = none) (hgo : t.answer t.polls = false) {turn : Turn R}
    (hturn : s.turn assumptions = some turn) :
    ({ s with terminate := some t } : Solver R).turn assumptions =
      some ⟨{ turn.solver with terminate := some (t.later 1) }, turn.verdict,
        #[.polled] ++ turn.events⟩ := by
  have hsame : ({ s with terminate := polled s.terminate } : Solver R) = s := by
    rw [hnone, show polled none = s.terminate from hnone.symm]
  rw [turn_of_patient (by simp [hnone]), hsame] at hturn
  obtain ⟨advanced, hadvance, rfl⟩ := Option.map_eq_some_iff.1 hturn
  have hall : Overlooks (fun _ => true) s
    { s.surroundings with terminate := some (t.later 1) } := ⟨.inr rfl, .inr rfl⟩
  obtain ⟨advanced', hadvance', hcase⟩ := advance_under (.inl rfl) hall hadvance
  obtain ⟨hsolver, hverdict, hevents⟩ := hcase.resolve_right fun hcut => hcut.differ rfl
  have hframe := surroundings_advance hadvance
  rw [← hframe] at hsolver
  rw [visible_all, visible_all] at hevents
  obtain ⟨s', verdict, events⟩ := advanced'
  obtain rfl := Array.toList_inj.1 hevents
  obtain rfl : verdict = advanced.verdict := hverdict
  obtain rfl : s' = _ := hsolver
  rw [turn_of_patient (by simpa using hgo)]
  show Option.map _ (advance (s.under { s.surroundings with terminate := some (t.later 1) })
    assumptions) = _
  rw [hadvance', hnone]
  simp [pollEvents, under, surroundings]

/-- With a terminate callback the turns are those without it, up to the first request to stop. -/
theorem turns_of_callback (hnone : s.terminate = none) {fuel : Nat} {xs xs' : Array Event}
    (hxs : visible unpolled xs' = visible unpolled xs) {result : Solved (Solver R)}
    (hresult : turns assumptions fuel xs s = some result) :
    ∃ result', turns assumptions fuel xs' { s with terminate := some t } = some result' ∧
      (Undisturbed t result result' ∨ ∃ n, Halted assumptions s xs t n result result') := by
  induction fuel generalizing s t xs xs' with
  | zero => simp [turns] at hresult
  | succ fuel ih =>
    by_cases hanswer : t.answer t.polls = true
    · obtain ⟨more, hmore, -⟩ := tallies_turns hresult
      have hstop : ({ s with terminate := some t } : Solver R).turn assumptions = _ :=
        turn_of_stop rfl hanswer
      refine ⟨_, turns_of_verdict hstop rfl fuel xs', .inr ⟨0, ?_, hanswer, rfl, ?_⟩⟩
      · exact fun i hi => absurd hi (Nat.not_lt_zero i)
      · refine ⟨s, #[], .start s, rfl, ?_, ?_⟩
        · rw [hmore, Array.append_empty, Array.toList_append]
          exact List.prefix_append _ _
        · rw [Array.append_empty, visible_append, hxs]
          rfl
    · have hgo : t.answer t.polls = false := by simpa using hanswer
      obtain ⟨turn, hturn⟩ := exists_turn hresult
      have hturn' := turn_of_goes hnone hgo hturn
      have hxs' : visible unpolled (xs' ++ (#[.polled] ++ turn.events)) =
          visible unpolled (xs ++ turn.events) := by
        rw [visible_append, visible_append, visible_append, hxs]
        rfl
      cases hverdict : turn.verdict with
      | some verdict =>
        rw [turns_of_verdict hturn hverdict] at hresult
        obtain rfl := Option.some.inj hresult
        refine ⟨_, turns_of_verdict hturn' hverdict fuel xs', .inl ⟨rfl, ⟨1, ?_, rfl⟩, hxs'⟩⟩
        exact .succ hgo fun i hi => absurd hi (Nat.not_lt_zero i)
      | none =>
        rw [turns_of_none hturn hverdict] at hresult
        rw [turns_of_none hturn' hverdict]
        have hnone' : turn.solver.terminate = none := by
          rw [show turn.solver.terminate = polled s.terminate from
            congrArg Surroundings.terminate (surroundings_turn hturn), hnone]
          rfl
        obtain ⟨result', hresult', hcase⟩ := ih (t := t.later 1) hnone' hxs' hresult
        refine ⟨result', hresult', hcase.imp (fun halike => ?_) fun hhalted => ?_⟩
        · obtain ⟨n, hgoes, hengine⟩ := halike.engine
          rw [Terminate.later_later, Nat.add_comm] at hengine
          exact { halike with engine := ⟨n + 1, hgoes.succ hgo, hengine⟩ }
        · obtain ⟨n, hgoes, hstops, hunknown, s', before, hleads, hengine, hprefix, hevents⟩ :=
            hhalted
          rw [Terminate.later_later, Nat.add_comm] at hengine
          rw [Array.append_assoc] at hprefix hevents
          refine ⟨n + 1, hgoes.succ hgo, ?_, hunknown, s', _, .turn hturn hverdict hleads, hengine,
            hprefix, hevents⟩
          rwa [Terminate.later, Nat.add_assoc, Nat.add_comm 1] at hstops

/-- With a terminate callback a search is the one without it, up to the first request to stop. -/
theorem search?_of_callback (hnone : s.terminate = none) {result : Solved (Solver R)}
    (hresult : s.search? assumptions = some result) :
    ∃ result', ({ s with terminate := some t } : Solver R).search? assumptions = some result' ∧
      (Undisturbed t result result' ∨ ∃ n, Halted assumptions s #[] t n result result') := by
  unfold search? at hresult ⊢
  split at hresult
  · rename_i hopen
    rw [if_pos hopen]
    exact turns_of_callback hnone rfl hresult
  · rename_i hclosed
    obtain rfl := Option.some.inj hresult
    rw [if_neg hclosed]
    exact ⟨_, rfl, .inl ⟨rfl, ⟨0, fun i hi => absurd hi (Nat.not_lt_zero i), rfl⟩, rfl⟩⟩

omit [Random.Source R] in
/-- A solve is undisturbed if its search is. -/
theorem Undisturbed.concluded {result result' : Solved (Solver R)}
    (h : Undisturbed t result result') : Undisturbed t (concluded result) (concluded result') := by
  obtain ⟨hverdict, ⟨n, hgoes, hengine⟩, hevents⟩ := h
  have hengine' : (Solver.concluded result').engine =
      { (Solver.concluded result).engine with terminate := some (t.later n) } := by
    unfold Solver.concluded
    rw [hengine]
  have hreport : report (Solver.concluded result') = report (Solver.concluded result) := by
    unfold report
    rw [hengine', show (Solver.concluded result').verdict = _ from hverdict]
    rfl
  refine ⟨hverdict, ⟨n, hgoes, hengine'⟩, ?_⟩
  rw [concluded_events, concluded_events, visible_push, visible_push, hevents, hreport]

/-- A solve with a terminate callback stops at the first request, after a number of turns of the
solve without the callback, and tells a beginning of what that solve tells. -/
structure StopsEarly (s : Solver R) (t : Terminate) (n : Nat)
    (undisturbed stopped : Solved (Solver R)) : Prop where
  goes : t.Goes n
  stops : t.answer (t.polls + n) = true
  verdict : stopped.verdict = .unknown
  leads : ∃ s' before, Leads s.assumptions.toList n s.beginSolve before s' ∧
    stopped.engine =
      { s' with trail := s'.trail.backjump 0, terminate := some (t.later (n + 1)) } ∧
    before.toList <+: undisturbed.events.toList ∧
    visible unpolled stopped.events = visible unpolled before ++ [.terminated, report stopped]
  exported : exportedClauses stopped.events <+: exportedClauses undisturbed.events

omit [Random.Source R] in
/-- Polls export nothing. -/
theorem exportedClauses_eq_unpolled (xs : Array Event) :
    exportedClauses xs = (visible unpolled xs).filterMap Event.exported? := by
  refine (filterMap_visible (fun e he => ?_) xs).symm
  cases e <;> first | rfl | exact absurd he Bool.false_ne_true

/-- A solve whose search is halted by the callback stops early. -/
theorem Halted.concluded {n : Nat} {result result' : Solved (Solver R)}
    (h : Halted s.assumptions.toList s.beginSolve #[] t n result result') :
    StopsEarly s t n (concluded result) (concluded result') := by
  obtain ⟨hgoes, hstops, hverdict, s', before, hleads, hengine, hprefix, hevents⟩ := h
  rw [Array.empty_append] at hprefix hevents
  have hbefore : before.toList <+: (Solver.concluded result).events.toList := by
    rw [concluded_events, Array.toList_push]
    exact hprefix.trans (List.prefix_append _ _)
  have hevents' : visible unpolled (Solver.concluded result').events =
      visible unpolled before ++ [.terminated, report (Solver.concluded result')] := by
    rw [concluded_events, visible_push, hevents, List.append_assoc]
    rfl
  refine ⟨hgoes, hstops, hverdict, ⟨s', before, hleads, ?_, hbefore, hevents'⟩, ?_⟩
  · unfold Solver.concluded
    rw [hengine]
  · have hnone : [Event.terminated, report (Solver.concluded result')].filterMap Event.exported? =
      [] := rfl
    rw [exportedClauses_eq_unpolled, hevents', List.filterMap_append, hnone, List.append_nil,
      ← exportedClauses_eq_unpolled]
    exact exportedClauses_prefix hbefore

/-- With a terminate callback a solve is the one without it, or stops at the first request. -/
theorem Ready.undisturbed_or_stopsEarly (h : Ready s) (hnone : s.terminate = none)
    (t : Terminate) :
    Undisturbed t s.solve ({ s with terminate := some t } : Solver R).solve ∨
      ∃ n, StopsEarly s t n s.solve ({ s with terminate := some t } : Solver R).solve := by
  obtain ⟨result, hresult, -⟩ := h.resting.search_ends h.assumptions
  obtain ⟨result', hresult', hcase⟩ :=
    search?_of_callback (s := s.beginSolve) (t := t) hnone hresult
  have hsolve' : ({ s with terminate := some t } : Solver R).solve = concluded result' :=
    solve_eq_concluded hresult'
  rw [solve_eq_concluded hresult, hsolve']
  exact hcase.imp Undisturbed.concluded fun ⟨n, hhalted⟩ => ⟨n, hhalted.concluded⟩

/-! ## Reasons for no answer -/

/-- A limit is reached exactly, and it is told that it is. -/
def ReachesLimit (limits : Limits) (result : Solved (Solver R)) : Prop :=
  (limits.decisions = some result.engine.counters.decisions ∧ .decisionLimit ∈ result.events) ∨
    (limits.conflicts = some result.engine.counters.conflicts ∧ .conflictLimit ∈ result.events)

omit [Random.Source R] in
/-- What is broken off tells of the limit at which it was. -/
theorem BreaksOffAt.mem {stop : Event} {free limited : Solved (Solver R)}
    (h : BreaksOffAt stop free limited) : stop ∈ limited.events := by
  obtain ⟨before, hevents, -⟩ := h
  simp [hevents]

omit [Random.Source R] in
/-- Giving up reaches a limit. -/
theorem GivesUp.reachesLimit {limits : Limits} {free limited : Solved (Solver R)}
    (h : GivesUp limits free limited) : ReachesLimit limits limited :=
  h.reached.imp (And.imp_right BreaksOffAt.mem) (And.imp_right BreaksOffAt.mem)

omit [Random.Source R] in
/-- A limit that is reached without a callback is reached with one that does not disturb. -/
theorem ReachesLimit.of_undisturbed {limits : Limits} {limited stopped : Solved (Solver R)}
    (h : ReachesLimit limits limited) (hsame : Undisturbed t limited stopped) :
    ReachesLimit limits stopped := by
  obtain ⟨n, -, hengine⟩ := hsame.engine
  have hmem : ∀ {e : Event}, unpolled e = true → e ∈ limited.events → e ∈ stopped.events := by
    intro e he hlimited
    have hvisible : e ∈ visible unpolled limited.events := by
      simp [visible, hlimited, he]
    rw [← hsame.events, visible, List.mem_filter] at hvisible
    exact Array.mem_toList_iff.1 hvisible.1
  unfold ReachesLimit
  rw [hengine]
  exact h.imp (And.imp_right (hmem rfl)) (And.imp_right (hmem rfl))

/-- In every state that a fresh solver can be brought to, limits and a terminate callback only
truncate a solve.  Without them it has an answer; under limits it is the same solve exactly when
they leave room for what that solve counts, and else it breaks off where one is reached; with a
callback it is the solve without it, or stops at the first request.  So an answer is missing only
where a limit is reached or a callback asks to stop. -/
theorem solve_truncated (requests : List Request) (limits : Limits) (t : Terminate) :
    let s := given R requests
    let free := (s.within {} none).solve
    let limited := (s.within limits none).solve
    let stopped := (s.within limits (some t)).solve
    s.trail.level = 0 ∧ free.verdict ≠ .unknown ∧
      (SameSolve limits free limited ↔ Fits limits free.engine.counters) ∧
      (¬ Fits limits free.engine.counters → GivesUp limits free limited) ∧
      (Undisturbed t limited stopped ∨
        ∃ n, StopsEarly (s.within limits none) t n limited stopped) ∧
      (limited.verdict = .unknown → ReachesLimit limits limited) ∧
      (stopped.verdict = .unknown → ReachesLimit limits stopped ∨
        ∃ n, t.Goes n ∧ t.answer (t.polls + n) = true ∧ .terminated ∈ stopped.events) := by
  intro s free limited stopped
  have hready : Ready s := ready_given requests
  have hfree : Ready (s.within {} none) := hready.congr rfl rfl rfl rfl rfl rfl
  have hlimited : Ready (s.within limits none) := hready.congr rfl rfl rfl rfl rfl rfl
  have hanswered : free.verdict ≠ .unknown := by
    obtain ⟨result, hresult, hanswers⟩ := hfree.resting.search_ends hfree.assumptions
    rw [show free = concluded result from solve_eq_concluded hresult]
    exact hanswers ⟨rfl, rfl, by simp [within]⟩
  have hcases := hready.sameSolve_or_givesUp limits
  have hcallback : Undisturbed t limited stopped ∨
      ∃ n, StopsEarly (s.within limits none) t n limited stopped :=
    hlimited.undisturbed_or_stopsEarly rfl t
  have hreason : limited.verdict = .unknown → ReachesLimit limits limited := by
    intro hunknown
    rcases hcases with ⟨-, hsame⟩ | ⟨-, hgives⟩
    · exact absurd (hsame.verdict.symm.trans hunknown) hanswered
    · exact hgives.reachesLimit
  refine ⟨hready.resting.level, hanswered, ⟨fun hsame => ?_, fun hfits => ?_⟩, fun hfits => ?_,
    hcallback, hreason, fun hunknown => ?_⟩
  · refine hcases.elim And.left fun hgives => ?_
    exact absurd (hsame.verdict.symm.trans hgives.2.verdict) hanswered
  · exact hcases.elim And.right fun hgives => absurd hfits hgives.1
  · exact hcases.elim (fun hsame => absurd hsame.1 hfits) And.right
  · rcases hcallback with hsame | ⟨n, hstops⟩
    · exact .inl ((hreason (hsame.verdict.symm.trans hunknown)).of_undisturbed hsame)
    · obtain ⟨s', before, -, -, -, hevents⟩ := hstops.leads
      have hmem : Event.terminated ∈ visible unpolled stopped.events := by simp [hevents]
      exact .inr ⟨n, hstops.goes, hstops.stops,
        Array.mem_toList_iff.1 (List.mem_of_mem_filter hmem)⟩

/-- These clauses take two decisions to satisfy, so a limit of two is enough and a limit of one is
not. -/
example :
    let s := given Random.Pcg [.add 1, .add 2, .add 0, .add 3, .add (-1), .add 0]
    (s.within { decisions := some 2 } none).solve.verdict = .satisfiable ∧
      (s.within { decisions := some 1 } none).solve.verdict = .unknown := by
  decide +kernel

end Cdcl.Solver

end IncrementalSat
