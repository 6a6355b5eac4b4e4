import IncrementalSat.Proofs.Branching
import IncrementalSat.Proofs.Explanation
import IncrementalSat.Proofs.Search

/-!
# The turns of a search

A turn of the search polls, propagates, and answers a conflict or a fixpoint.  From a conflict above
level zero a clause is learnt that was not known; at a fixpoint a level is opened for an assumption
or a decision, a valuation of all atoms is a model, and a false assumption is explained.  So there
is always a turn, and it goes on with progress or ends the search as it should.
-/

set_option autoImplicit false

namespace IncrementalSat.Cdcl

/-! ## Complete trails -/

/-- The valuation that is recorded gives each atom its value on the trail. -/
theorem Trail.getD_model (t : Trail) (a : Nat) :
    (t.slots.map fun slot => slot.current.map (·.value)).getD a none = t.value a := by
  by_cases ha : a < t.slots.size
  · simp [Trail.value, Trail.slot, ha]
  · simp [Trail.value, Trail.slot, ha]

/-- Once every atom has a value, a settled clause has a literal on the trail. -/
theorem Settled.exists_mem {t : Trail} {r : ClauseStore} {key : Nat}
    (hs : Settled t r t.literals.size) (hc : Coherent t r)
    (hall : ∀ a < t.atoms, t.value a ≠ none) (hkey : key < r.clauses.size) :
    ∃ l ∈ (r.clause key).literals, l ∈ t.literals := by
  have hfirst : (r.clause key).first ∈ (r.clause key).literals :=
    Clause.mem_literals_of_watches (.inl rfl)
  by_cases hmem : (r.clause key).first ∈ t.literals
  · exact ⟨_, hfirst, hmem⟩
  · have hvalue := hall _ (hc.store.atom_lt key hkey _ hfirst)
    have hneg : (r.clause key).first.negate ∈ t.literals := by
      by_contra hneg
      apply hvalue
      have hopen := hc.trail.valueOf_eq_none_iff.2 ⟨hmem, hneg⟩
      simpa [Trail.valueOf] using hopen
    exact ⟨_, Clause.mem_literals_of_watches (.inr rfl),
      ((hs.clauses key hkey).1 (Trail.mem_before_size.2 hneg)).1⟩

namespace Solver

variable {R : Type}

/-! ## Going back to level zero -/

variable {assumptions : List Literal} {s : Solver R}

/-- Between two turns, going back to level zero leaves all clauses settled. -/
theorem Searching.settled_backjump (h : Searching assumptions s) :
    Settled (s.trail.backjump 0) s.store (s.trail.backjump 0).head := by
  by_cases hlevel : 0 < s.trail.level
  · exact h.settled.backjump h.coherent.trail hlevel
  · rw [Trail.backjump_of_le (by omega)]
    exact h.settled

/-- A restart keeps the search under way. -/
theorem Searching.restartIfDue (h : Searching assumptions s) :
    s.Preserves s.restartIfDue.1 ∧ Searching assumptions s.restartIfDue.1 ∧
      Unfailing s.restartIfDue.2 := by
  unfold Solver.restartIfDue
  split
  · refine ⟨{ Preserves.refl s with atoms := ?_, respects_iff := ?_, known := ?_ }, ?_,
      .singleton (by simp)⟩
    · exact Trail.atoms_backjump s.trail 0
    · intro v
      exact Respects.backjump_iff h.coherent.trail 0
    · intro c hc
      exact hc.backjump h.coherent.trail 0
    · exact
        { coherent := h.coherent.backjump 0
          unmarked := by
            rw [Trail.atoms_backjump]
            exact h.unmarked
          upholds := h.upholds.backjump h.coherent.trail 0
          consistent := h.consistent
          failed_eq := h.failed_eq
          settled := h.settled_backjump }
  · exact ⟨.refl s, h, .empty⟩

/-! ## Conflicts -/

section Conflict

variable {key p : Nat}

/-- An export is no check. -/
theorem unfailing_exportEvents (s : Solver R) (c : Lemma) : Unfailing (s.exportEvents c) := by
  unfold exportEvents
  split
  · exact .empty
  · split
    · exact .singleton (by simp)
    · exact .empty

/-- A clause learnt and asserted keeps the search under way, whatever is counted. -/
theorem Running.assertLearnt (h : Running assumptions s) (hs : Settled s.trail s.store p)
    {c : Lemma} (hlearns : Learns s.trail s.store c) {seen : Array Bool}
    (hseen : Unmarked seen s.trail.atoms) (counters : Counters) (activity : Activity) :
    ∃ s' : Solver R,
      (let t := ({ s with counters := counters, seen := seen } : Solver R).assertLearnt c;
        { t with activity := activity.decay t.settings.decay.val }) = s' ∧
      s.Preserves s' ∧ Searching assumptions s' ∧ Known s'.trail s'.store c.literals := by
  obtain ⟨u, r, hassert, hasserted⟩ := hlearns.assertLearnt_spec
    (s := { s with counters := counters, seen := seen }) h.coherent hs
  rw [hassert]
  refine ⟨_, rfl, ?_, ?_, hasserted.learnt⟩
  · exact { Preserves.refl s with
      atoms := hasserted.atoms
      respects_iff := hasserted.respects_iff
      known := hasserted.known }
  · exact
      { coherent := hasserted.coherent
        unmarked := hasserted.atoms ▸ hseen
        upholds := hasserted.upholds h.upholds
        consistent := h.consistent
        failed_eq := h.failed_eq
        settled := hasserted.settled }

/-- From every conflict above level zero a clause is learnt that was not known. -/
theorem Running.learnFrom (h : Running assumptions s) (hs : Settled s.trail s.store p)
    (hkey : Falsified s.trail s.store key) (hlevel : 0 < s.trail.level) :
    ∃ s' events, s.learnFrom key = some (s', events) ∧ s.Preserves s' ∧
      Searching assumptions s' ∧ s.Progress s' ∧ Unfailing events := by
  obtain ⟨analysis, hanalysis, hlearns, hseen⟩ :=
    analyze?_spec h.coherent h.unmarked hlevel hkey s.activity
  obtain ⟨s₁, hs₁, hpreserves, hsearching, hlearnt⟩ := h.assertLearnt hs hlearns hseen
    { s.counters with
      conflicts := s.counters.conflicts + 1
      totalConflicts := s.counters.totalConflicts + 1
      freshConflicts := s.counters.freshConflicts + 1 }
    analysis.activity
  obtain ⟨hrestart, hsearching', hevents⟩ := hsearching.restartIfDue
  have hlearn : s.learnFrom key = some (s₁.restartIfDue.1,
      #[.learnt analysis.learnt.asserted analysis.learnt.others] ++
        s.exportEvents analysis.learnt ++ s₁.restartIfDue.2) := by
    rw [Solver.learnFrom, hanalysis, ← hs₁]
    rfl
  refine ⟨_, _, hlearn, hpreserves.trans hrestart, hsearching', .inl ?_, ?_⟩
  · refine ⟨analysis.learnt.literals, hlearns.distinct, ?_, hlearns.not_known h.coherent hs,
      hrestart.known _ hlearnt⟩
    intro l hl
    exact h.coherent.trail.atom_lt_of_negate (hlearns.negate_mem hl)
  · exact ((Unfailing.singleton (by simp)).append (unfailing_exportEvents s _)).append hevents

/-- A clause false at level zero leaves no valuation. -/
theorem Running.not_respects (h : Running assumptions s) (hkey : Falsified s.trail s.store key)
    (hlevel : s.trail.level = 0) (v : Valuation) : ¬ Respects v s.trail s.store := by
  intro hv
  obtain ⟨l, hl, hlv⟩ := hv.clauses key hkey.key_lt
  have hneg := hkey.negate_mem l hl
  have hle := h.coherent.trail.levelOf_le_level_of_negate hneg
  exact hv.not_holds hneg (by omega) hlv

/-- A conflict ends the search at level zero or at a limit, and else a clause is learnt from it. -/
theorem Running.onConflict (h : Running assumptions s) (hs : Settled s.trail s.store p)
    (hkey : Falsified s.trail s.store key) :
    ∃ turn, s.onConflict key = some turn ∧ Answers assumptions s turn := by
  unfold Solver.onConflict
  by_cases hlevel : s.trail.level = 0
  · rw [if_pos hlevel]
    have hrefuted := h.not_respects hkey hlevel
    refine ⟨_, rfl, .singleton (by simp), ?_⟩
    exact
      { preserves := { Preserves.refl s with }
        coherent := h.coherent
        unmarked := h.unmarked
        settled := fun hc => absurd hc Bool.false_ne_true
        refuted := fun _ => hrefuted
        right := ⟨by simp [h.failed_eq], fun v hv => absurd hv (hrefuted v)⟩
        unknown := by simp }
  rw [if_neg hlevel]
  have hpos : 0 < s.trail.level := Nat.pos_of_ne_zero hlevel
  by_cases hlimit : exhausted s.limits.conflicts s.counters.conflicts = true
  · rw [if_pos hlimit]
    refine ⟨_, rfl, (Unfailing.singleton (by simp)).push (by simp), ?_⟩
    refine h.concludes (hs.backjump h.coherent.trail hpos) (.refl s) rfl rfl h.consistent
      h.unmarked trivial ?_
    intro _ hu
    simp [hu.conflicts, exhausted] at hlimit
  · rw [if_neg hlimit]
    obtain ⟨s', events, hlearn, hpreserves, hsearching, hprogress, hevents⟩ :=
      h.learnFrom hs hkey hpos
    rw [hlearn]
    exact ⟨_, rfl, (Unfailing.singleton (by simp)).append hevents, hpreserves, hsearching,
      hprogress⟩

end Conflict

/-! ## Fixpoints -/

section Fixpoint

/-- If every clause has a literal on the trail, the check of the recorded valuation confirms it. -/
theorem modelSatisfies_of_forall (hwf : s.trail.WellFormed)
    (hmodel : s.model = s.trail.slots.map fun slot => slot.current.map (·.value))
    (hclause : ∀ key < s.store.clauses.size, ∃ l ∈ (s.store.clause key).literals,
      l ∈ s.trail.literals) : s.modelSatisfies = true := by
  rw [modelSatisfies, Array.all_eq_true]
  intro key hkey
  obtain ⟨l, hl, hmem⟩ := hclause key hkey
  have hget : s.store.clause key = s.store.clauses[key] := by
    simp [ClauseStore.clause, hkey]
  rw [hget] at hl
  rw [Bool.or_eq_true, List.any_eq_true]
  refine .inr ⟨l, hl, ?_⟩
  rw [hmodel, Trail.getD_model, (hwf.value_iff l.atom l.positive).2 hmem]
  exact beq_self_eq_true _

/-- A valuation in which every atom has a value is a model that the check confirms. -/
theorem Searching.foundModel (h : Searching assumptions s)
    (hhead : s.trail.head = s.trail.literals.size) (hlevel : assumptions.length ≤ s.trail.level)
    (hall : ∀ a < s.trail.atoms, s.trail.value a ≠ none) :
    Answers assumptions s s.foundModel := by
  have hwf := h.coherent.trail
  have hsettled : Settled s.trail s.store s.trail.literals.size := hhead ▸ h.settled
  have hmodel : ∀ a, s.foundModel.solver.model.getD a none = s.trail.value a := by
    intro a
    exact Trail.getD_model s.trail a
  have hclause : ∀ key < s.store.clauses.size, ∃ l ∈ (s.store.clause key).literals,
      l ∈ s.trail.literals := by
    intro key hkey
    exact hsettled.exists_mem h.coherent hall hkey
  have hchecked : s.foundModel.solver.modelSatisfies = true :=
    modelSatisfies_of_forall hwf rfl hclause
  constructor
  · unfold Solver.foundModel at hchecked ⊢
    dsimp only at hchecked ⊢
    split
    · exact .empty
    · rw [hchecked]
      exact .singleton (by simp)
  · refine h.concludes h.settled_backjump { Preserves.refl s with } rfl rfl h.consistent h.unmarked
      ?_ ?_
    · refine ⟨fun a ha => hmodel a ▸ hall a ha, ?_⟩
      intro v hv
      have hholds : ∀ l ∈ s.trail.literals, l.Holds v := by
        intro l hl
        exact hv l.atom l.positive ((hmodel l.atom).trans ((hwf.value_iff _ _).2 hl))
      refine ⟨⟨?_, fun l hl _ => hholds l hl⟩, ?_⟩
      · intro key hkey
        obtain ⟨l, hl, hmem⟩ := hclause key hkey
        exact ⟨l, hl, hholds l hmem⟩
      · intro l hl
        obtain ⟨i, hi, rfl⟩ := List.getElem_of_mem hl
        exact hholds _ (h.upholds.honoured (List.getElem?_eq_getElem hi) (by omega)).1
    · simp

/-- A level is opened by its assumption, or by a decision above the levels of the assumptions. -/
theorem Searching.openLevel (h : Searching assumptions s)
    (hhead : s.trail.head = s.trail.literals.size) {l : Literal}
    (hroom : l.atom < s.trail.pushLevel.atoms) (hopen : s.trail.value l.atom = none)
    (hnext : s.trail.level < assumptions.length → assumptions[s.trail.level]? = some l) :
    s.Preserves { s with trail := s.trail.pushLevel.assign l none } ∧
      Searching assumptions { s with trail := s.trail.pushLevel.assign l none } ∧
      s.Progress { s with trail := s.trail.pushLevel.assign l none } := by
  have hpushed := h.coherent.pushLevel hhead
  have hvalue : s.trail.pushLevel.valueOf l = none := by
    have hvalue : s.trail.pushLevel.value l.atom = none := hopen
    rw [Trail.valueOf, hvalue]
    rfl
  have hext := Trail.Extends.assign hpushed.trail none hroom hvalue
  have hlevel := Trail.level_pushLevel s.trail
  refine ⟨.of_trail_store (Trail.atoms_assign _ _ _) ?_ ?_, ?_, .inr ?_⟩
  · intro v
    rw [Respects.assign_iff_of_level_pos hpushed.trail hroom hvalue (by omega)]
    exact Respects.pushLevel_iff
  · intro c hc
    exact Known.extendTrail (t := s.trail.pushLevel) hc hext
  · exact
      { coherent := by
          apply hpushed.assign_opening hroom hvalue
          refine .inr fun m hm => ?_
          rw [hlevel]
          exact Nat.lt_succ_of_le (h.coherent.trail.levelOf_le_level (l := m) hm)
        unmarked := by
          rw [Trail.atoms_assign]
          exact h.unmarked
        upholds := h.upholds.openLevel hpushed.trail hroom hvalue hnext
        consistent := h.consistent
        failed_eq := h.failed_eq
        settled := by
          rw [Trail.head_assign]
          exact (h.settled.pushLevel hhead).extend hext hhead.le }
  · show _ < (s.trail.pushLevel.assign l none).literals.size
    rw [Trail.literals_assign none hroom, Array.size_push]
    exact Nat.lt_succ_self _

/-- The choice of a decision keeps the search under way. -/
theorem Searching.choose [Random.Source R] (h : Searching assumptions s) :
    s.Preserves s.choose.1 ∧ Searching assumptions s.choose.1 ∧ s.choose.1.trail = s.trail ∧
      Unfailing s.choose.2.2 := by
  have hchoose := s.choose_eq
  have hevents : Unfailing s.choose.2.2 := by
    intro e he
    obtain ⟨atom, rfl⟩ := s.choose_events e he
    simp
  refine ⟨?_, ?_, ?_, hevents⟩
  · rw [hchoose]
    exact { Preserves.refl s with }
  · rw [hchoose]
    exact { h with }
  · rw [hchoose]

/-- Above the levels of the assumptions a decision is made, or a model is found. -/
theorem Searching.makeDecision [Random.Source R] (h : Searching assumptions s)
    (hhead : s.trail.head = s.trail.literals.size)
    (hlevel : assumptions.length ≤ s.trail.level) : Answers assumptions s s.makeDecision := by
  have hspec := choose_spec h.coherent.trail
  obtain ⟨hpreserves, hsearching, htrail, hevents⟩ := h.choose
  unfold Solver.makeDecision
  cases hchoose : s.choose with
  | mk s₁ rest =>
    obtain ⟨chosen, events⟩ := rest
    rw [hchoose] at hspec hpreserves hsearching htrail hevents
    dsimp only at hspec hpreserves hsearching htrail hevents
    unfold Solver.atoms at hspec
    rw [← htrail] at hhead hlevel hspec
    have hsize : s.trail.literals.size ≤ s₁.trail.literals.size := by rw [htrail]
    cases chosen with
    | none => exact (hsearching.foundModel hhead hlevel hspec).of_preserves hpreserves hsize
    | some l =>
      refine Answers.of_preserves hpreserves hsize ?_
      dsimp only
      split
      · rename_i hlimit
        refine ⟨hevents.push (by simp), ?_⟩
        refine hsearching.concludes hsearching.settled_backjump (.refl s₁) rfl rfl
          hsearching.consistent hsearching.unmarked trivial ?_
        intro _ hu
        simp [hu.decisions, exhausted] at hlimit
      · obtain ⟨hopened, hsearching', hprogress⟩ := hsearching.openLevel hhead hspec.1 hspec.2
          fun hlt => absurd hlevel (by omega)
        exact ⟨hevents.push (by simp), { hopened with }, { hsearching' with }, hprogress⟩

/-- A false assumption ends the search with the assumptions behind it. -/
theorem Searching.refute (h : Searching assumptions s) {a : Literal}
    (hnext : assumptions[s.trail.level]? = some a) (hfalse : a.negate ∈ s.trail.literals) :
    Answers assumptions s (s.refute a) := by
  obtain ⟨hunmarked, hexplains⟩ := explain_spec h.coherent h.unmarked hfalse
  obtain ⟨hlevel, -⟩ := List.getElem?_eq_some_iff.1 hnext
  unfold Solver.refute
  constructor
  · dsimp only
    split
    · exact .singleton (by simp)
    · exact .empty
  · refine h.concludes h.settled_backjump { Preserves.refl s with } rfl rfl h.consistent hunmarked
      ?_ ?_
    · refine ⟨?_, hexplains.refuted⟩
      intro l hl
      rcases hexplains.origin l hl with rfl | ⟨hmem, hreason, hpos⟩
      · exact List.mem_of_getElem? hnext
      · have hle := h.coherent.trail.levelOf_le_level hmem
        exact List.mem_of_getElem? (h.upholds.opened l hmem hreason hpos (by omega))
    · simp

/-- The levels opened for assumptions that hold keep the search under way. -/
theorem Searching.skipHolding (h : Searching assumptions s) {u : Trail} {limits : Array Nat}
    (hsame : u = { s.trail with limits := limits }) (hcoherent : Coherent u s.store)
    (hsettled : Settled u s.store u.head) (hupholds : Upholds assumptions u) :
    s.Preserves { s with trail := u } ∧ Searching assumptions { s with trail := u } := by
  subst hsame
  constructor
  · apply Preserves.of_trail_store
    · rfl
    · intro v
      exact ⟨fun hv => ⟨hv.clauses, hv.fixed⟩, fun hv => ⟨hv.clauses, hv.fixed⟩⟩
    · intro c hc
      exact hc
  · exact { h with coherent := hcoherent, upholds := hupholds, settled := hsettled }

/-- Without a conflict the search goes on to the next assumption or to a decision. -/
theorem Searching.onFixpoint [Random.Source R] (h : Searching assumptions s)
    (hhead : s.trail.head = s.trail.literals.size) :
    Answers assumptions s (s.onFixpoint assumptions) := by
  have hpassed := passed_skipHolding rfl h.coherent h.settled hhead h.upholds
  unfold Solver.onFixpoint
  cases hskip : Cdcl.skipHolding s.trail (assumptions.drop s.trail.level) with
  | mk u standing =>
    rw [hskip] at hpassed
    obtain ⟨⟨limits, hsame⟩, hcoherent, hsettled, hupholds, hstanding⟩ := hpassed
    dsimp only at hsame hcoherent hsettled hupholds hstanding
    obtain ⟨hpreserves, hsearching⟩ := h.skipHolding hsame hcoherent hsettled hupholds
    have hsize : u.literals.size = s.trail.literals.size := by rw [hsame]
    have hhead' : u.head = u.literals.size := by
      rw [hsame]
      exact hhead
    apply Answers.of_preserves hpreserves hsize.ge
    cases standing with
    | settled => exact hsearching.makeDecision hhead' hstanding
    | undecided a =>
      obtain ⟨hnext, hopen⟩ := hstanding
      have hvalue : u.value a.atom = none := by simpa [Trail.valueOf] using hopen
      have hroom := hupholds.room a (List.mem_of_getElem? hnext)
      exact ⟨.empty, hsearching.openLevel hhead' hroom hvalue fun _ => hnext⟩
    | refuted a => exact hsearching.refute hstanding.1 hstanding.2

end Fixpoint

/-! ## Turns -/

section Turn

variable [Random.Source R]

omit [Random.Source R] in
/-- Propagation keeps the search under way up to a clause found false or a fixpoint. -/
theorem Searching.propagated (h : Searching assumptions s) {u : Trail} {r : ClauseStore}
    {conflict : Option Nat} (hpropagate : propagate s.trail s.store = (u, r, conflict)) :
    s.Preserves { s with trail := u, store := r } ∧
      s.trail.literals.size ≤ u.literals.size ∧ u.head = u.literals.size ∧
      Running assumptions { s with trail := u, store := r } ∧
      (conflict = none → Settled u r u.head) ∧
      ∀ key, conflict = some key → Falsified u r key ∧ ∃ p, Settled u r p := by
  have hp := propagated_propagate h.coherent h.settled
  rw [hpropagate] at hp
  obtain ⟨hderives, hcoherent, hhead, hsettled, hconflict⟩ := hp
  refine ⟨?_, hderives.trail.literals.length_le, hhead, ?_, hsettled, hconflict⟩
  · exact .of_trail_store hderives.trail.atoms hderives.respects_iff fun c hc =>
      (hc.extendTrail hderives.trail).extendStore hderives.store
  · exact
      { h with
        coherent := hcoherent
        unmarked := hderives.trail.atoms ▸ h.unmarked
        upholds := h.upholds.extend hderives.trail hderives.forced }

/-- Propagation comes before the answer to a conflict or a fixpoint. -/
theorem Searching.advance (h : Searching assumptions s) :
    ∃ turn, s.advance assumptions = some turn ∧ Answers assumptions s turn := by
  unfold Solver.advance
  cases hpropagate : propagate s.trail s.store with
  | mk u rest =>
    obtain ⟨r, conflict⟩ := rest
    obtain ⟨hpreserves, hsize, hhead, hrunning, hsettled, hconflict⟩ := h.propagated hpropagate
    dsimp only
    cases conflict with
    | some key =>
      obtain ⟨hkey, p, hp⟩ := hconflict key rfl
      obtain ⟨turn, hturn, hanswers⟩ := hrunning.onConflict hp hkey
      exact ⟨turn, hturn, hanswers.of_preserves hpreserves hsize⟩
    | none =>
      have hsearching : Searching assumptions { s with trail := u, store := r } :=
        { hrunning with settled := hsettled rfl }
      exact ⟨_, rfl, (hsearching.onFixpoint hhead).of_preserves hpreserves hsize⟩

omit [Random.Source R] in
/-- Asking the terminate callback counts the poll and changes nothing else. -/
theorem poll_spec (s : Solver R) : ∃ callback, s.poll.1 = { s with terminate := callback } ∧
    callback.map Terminate.answer = s.terminate.map Terminate.answer ∧
    (s.poll.2 = some true → ¬ s.Unhindered) := by
  unfold poll
  cases hterminate : s.terminate with
  | none =>
    refine ⟨none, ?_, rfl, by simp⟩
    show s = { s with terminate := none }
    rw [← hterminate]
  | some t =>
    refine ⟨some t.poll.1, rfl, rfl, ?_⟩
    intro hstop hs
    have hnever := hs.patient t.answer (by rw [hterminate]; rfl) t.polls
    exact absurd (hnever.symm.trans (Option.some.inj hstop)) Bool.false_ne_true

/-- There is always a turn, and it answers as it should. -/
theorem Searching.turn (h : Searching assumptions s) :
    ∃ turn, s.turn assumptions = some turn ∧ Answers assumptions s turn := by
  obtain ⟨callback, hpolled, hanswer, hstop⟩ := s.poll_spec
  have hpreserves : s.Preserves { s with terminate := callback } :=
    { Preserves.refl s with answer := hanswer }
  have hsearching : Searching assumptions { s with terminate := callback } := { h with }
  obtain ⟨turn, hadvance, hanswers⟩ := hsearching.advance
  have hanswers' := hanswers.of_preserves hpreserves le_rfl
  unfold Solver.turn
  cases hpoll : s.poll with
  | mk s₁ stop =>
    rw [hpoll] at hpolled hstop
    dsimp only at hpolled hstop
    subst hpolled
    cases stop with
    | none => exact ⟨turn, hadvance, hanswers'⟩
    | some stop =>
      cases stop with
      | false =>
        dsimp only
        rw [hadvance]
        exact ⟨_, rfl, (Unfailing.singleton (by simp)).append hanswers'.events, hanswers'.outcome⟩
      | true =>
        refine ⟨_, rfl, (Unfailing.singleton (by simp)).push (by simp), ?_⟩
        exact h.concludes h.settled_backjump hpreserves rfl rfl h.consistent h.unmarked trivial
          fun _ => hstop rfl

/-- Every turn answers as it should. -/
theorem Searching.answers_of_turn (h : Searching assumptions s) {turn : Turn R}
    (hturn : s.turn assumptions = some turn) : Answers assumptions s turn := by
  obtain ⟨turn', hturn', hanswers⟩ := h.turn
  obtain rfl := Option.some.inj (hturn.symm.trans hturn')
  exact hanswers

/-- Turns that end the search end it as they should. -/
theorem Searching.turns (h : Searching assumptions s) {fuel : Nat} {events : Array Event}
    (hevents : Unfailing events) {result : Solved (Solver R)}
    (hresult : Solver.turns assumptions fuel events s = some result) :
    Concludes assumptions s result.engine result.verdict ∧ Unfailing result.events := by
  induction fuel generalizing s events with
  | zero => simp [Solver.turns] at hresult
  | succ fuel ih =>
    obtain ⟨⟨s', verdict, more⟩, hturn, hanswers⟩ := h.turn
    have hmore := hevents.append hanswers.events
    have hout := hanswers.outcome
    rw [Solver.turns, hturn] at hresult
    cases verdict with
    | none =>
      obtain ⟨hpreserves, hsearching, -⟩ := hout
      obtain ⟨hconcludes, hall⟩ := ih hsearching hmore hresult
      exact ⟨hconcludes.of_preserves hpreserves, hall⟩
    | some verdict =>
      obtain rfl := Option.some.inj hresult
      exact ⟨hout, hmore⟩

end Turn

end Solver

end IncrementalSat.Cdcl
