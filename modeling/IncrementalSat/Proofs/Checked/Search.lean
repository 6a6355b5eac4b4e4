import IncrementalSat.Cdcl.Checked.Search
import IncrementalSat.Proofs.Checked.Conflict
import IncrementalSat.Proofs.Termination

/-!
# The search does not fail

A decision is drawn from an atom or more and found among them, a level is opened by an open literal,
and after the backjump the asserted literal of a learnt clause is open and its first two literals
have watch lists.  The valuation recorded has an entry for each atom.  So wherever a search under
way takes a turn, the checked turn ends with the same, and so do all turns of a solve.
-/

set_option autoImplicit false

namespace IncrementalSat.Cdcl.Checked

/-! ## Decisions -/

/-- The score of an atom with a score is read without a fault. -/
theorem score_eq {a : Activity} {atom : Nat} (h : atom < a.scores.size) :
    score a atom = .ok (a.score atom) :=
  fetch_eq_getD h 0

/-- A loop over the numbers below a bound, as a fold over their list. -/
theorem foldl_range_eq_fold {β : Type} (n : Nat) (f : Nat → β → β) (b : β) :
    (List.range n).foldl (fun b i => f i b) b = n.fold (fun i _ b => f i b) b := by
  induction n with
  | zero => rfl
  | succ n ih =>
    rw [List.range_succ, List.foldl_append, ih, Nat.fold_succ]
    rfl

/-- With a score for each atom the most active open atom is found. -/
theorem mostActive_eq {t : Trail} {a : Activity} (h : a.Covers t.atoms) :
    mostActive t a = .ok (Cdcl.mostActive t a) := by
  have hscore : ∀ {atom}, atom < t.atoms → score a atom = .ok (a.score atom) :=
    fun hatom => score_eq (h.symm ▸ hatom)
  rw [Cdcl.mostActive, ← foldl_range_eq_fold]
  refine (foldlM_eq (P := fun best => ∀ leader, best = some leader → leader < t.atoms)
    (fun _ h => absurd h (Option.some_ne_none _).symm) fun best hbest atom hatom => ?_).1
  have hatom := List.mem_range.1 hatom
  unfold better
  rw [value_eq hatom, ok_bind]
  by_cases hvalue : (t.value atom).isSome
  · rw [if_pos hvalue, if_pos hvalue]
    exact ⟨rfl, hbest⟩
  rw [if_neg hvalue, if_neg hvalue]
  cases best with
  | none => exact ⟨rfl, fun leader hleader => Option.some.inj hleader ▸ hatom⟩
  | some leader =>
    dsimp only
    rw [hscore hatom, ok_bind, hscore (hbest leader rfl), ok_bind]
    refine ⟨rfl, fun winner hwinner => ?_⟩
    split at hwinner
    · exact hbest winner hwinner
    · exact Option.some.inj hwinner ▸ hatom

/-- Looking for an open atom from an index on does not fail if the index is within the trail. -/
theorem openFrom_eq {t : Trail} {start : Nat} (hstart : start ≤ t.atoms) :
    openFrom t start = .ok (Cdcl.openFrom t start) := by
  apply findM?_eq
  intro atom hatom
  rw [List.mem_append, List.mem_range'_1, List.mem_range] at hatom
  rw [value_eq (by omega)]
  rfl

section Search

variable {R : Type} [Random.Source R] {assumptions : List Literal} {s : Solver R}

omit [Random.Source R] in
/-- The polarity of a decision on an atom with room is found without a fault. -/
theorem polarity_eq {atom : Nat} (hatom : atom < s.trail.atoms) (hbound : s.trail.atoms < 2 ^ 31) :
    polarity s atom = .ok (s.polarity atom) := by
  unfold polarity Solver.polarity
  split
  · exact encode_eq (hatom.trans hbound) _
  · rw [saved_eq hatom]
    exact encode_eq (hatom.trans hbound) _

/-- Drawing an atom does not fail if there is one. -/
theorem drawAtom_eq (hpos : 0 < s.atoms) : drawAtom s = .ok s.drawAtom := by
  unfold drawAtom Solver.drawAtom
  split
  swap
  · rfl
  rw [drawBelow_eq (by decide), ok_bind]
  obtain ⟨random, chance⟩ := Random.below64 1000 s.random
  dsimp only
  split
  swap
  · rfl
  rw [drawBelow_eq hpos, ok_bind, openFrom_eq (Random.index_lt hpos _).le]
  rfl

/-- The choice of a decision does not fail. -/
theorem choose_eq (hwf : s.trail.WellFormed) (hcovers : s.activity.Covers s.trail.atoms)
    (hbound : s.trail.atoms < 2 ^ 31) : choose s = .ok s.choose := by
  unfold choose Solver.choose
  split
  · rfl
  rename_i hcomplete
  have hpos : 0 < s.atoms := by
    refine Nat.pos_of_ne_zero fun h0 => hcomplete (hwf.isComplete_iff.2 fun a ha => ?_)
    exact absurd (h0 ▸ ha) (Nat.not_lt_zero a)
  rw [drawAtom_eq hpos, ok_bind]
  cases hdraw : s.drawAtom with
  | mk random drawn =>
    cases drawn with
    | some atom =>
      have hatom := (Solver.drawAtom_spec hpos (by rw [hdraw])).1
      dsimp only
      rw [polarity_eq hatom hbound]
      rfl
    | none =>
      have hbest := leads_mostActive s.trail s.activity
      dsimp only
      rw [mostActive_eq hcovers, ok_bind]
      cases hm : Cdcl.mostActive s.trail s.activity with
      | none => rfl
      | some atom =>
        dsimp only
        rw [polarity_eq (hbest.chosen atom hm).1 hbound]
        rfl

omit [Random.Source R] in
/-- Assumptions that have room can be passed over. -/
theorem skipHolding_eq {t : Trail} {rest : List Literal} (hroom : ∀ a ∈ rest, a.atom < t.atoms) :
    skipHolding t rest = .ok (Cdcl.skipHolding t rest) := by
  induction rest generalizing t with
  | nil => rfl
  | cons a rest ih =>
    rw [skipHolding, valueOf_eq (hroom a List.mem_cons_self), ok_bind, Cdcl.skipHolding]
    cases t.valueOf a with
    | none => rfl
    | some b =>
      cases b with
      | false => rfl
      | true => exact ih (t := t.pushLevel) fun b hb => hroom b (List.mem_cons_of_mem _ hb)

/-! ## Conflicts -/

section Conflict

omit [Random.Source R]

variable {c : Lemma} {key p : Nat}

/-- A restart that may be due does not fail on a trail that is well formed. -/
theorem restartIfDue_eq (hwf : s.trail.WellFormed) : restartIfDue s = .ok s.restartIfDue := by
  unfold restartIfDue Solver.restartIfDue
  split
  · rw [backjump_eq hwf]
    rfl
  · rfl

/-- A learnt clause can be stored and its asserted literal made true. -/
theorem assertLearnt_eq (h : Learns s.trail s.store c) (hc : Coherent s.trail s.store) :
    assertLearnt s c = .ok (s.assertLearnt c) := by
  have hcode : ∀ {l}, l ∈ c.literals → l.code < s.store.watches.size := fun hl =>
    hc.store.code_lt (hc.trail.atom_lt_of_negate (h.negate_mem hl))
  have hassign := assign_eq (h.asserted_room hc.trail) (h.asserted_open hc.trail)
  unfold assertLearnt Solver.assertLearnt
  rw [backjump_eq hc.trail, ok_bind]
  cases hcons : c.others with
  | nil =>
    dsimp only
    rw [hassign]
    rfl
  | cons second others =>
    have hliterals := Learns.literals_eq hcons
    have hfirst := hcode (l := c.asserted) (by simp [hliterals])
    have hsecond := hcode (l := second) (by simp [hliterals])
    dsimp only
    rw [hliterals, attach_eq hfirst hsecond, ok_bind, hassign]
    rfl

/-- The literals of a clause whose atoms fit can be written as integers. -/
theorem exportEvents_eq (hfits : ∀ l ∈ c.literals, l.atom + 1 < 2 ^ 31) :
    exportEvents s c = .ok (s.exportEvents c) := by
  unfold exportEvents Solver.exportEvents
  cases s.exportBound with
  | none => rfl
  | some bound =>
    dsimp only
    split
    · rw [mapM_eq fun l hl => toInteger_eq (hfits l hl)]
      rfl
    · rfl

/-- A restart leaves the scores alone. -/
theorem activity_restartIfDue (s : Solver R) : s.restartIfDue.1.activity = s.activity := by
  unfold Solver.restartIfDue
  split <;> rfl

/-- Learning from a conflict above level zero does not fail. -/
theorem learnFrom_eq (h : Solver.Running assumptions s) (hs : Settled s.trail s.store p)
    (hkey : Falsified s.trail s.store key) (hlevel : 0 < s.trail.level)
    (hcovers : s.activity.Covers s.trail.atoms) (hbound : s.trail.atoms < 2 ^ 31) :
    ∃ s' events, s.learnFrom key = some (s', events) ∧ learnFrom s key = .ok (s', events) ∧
      s'.activity.Covers s.trail.atoms := by
  obtain ⟨analysis, hanalysis, hchecked, hscores⟩ :=
    analyze_eq h.coherent h.unmarked hlevel hkey hcovers
  obtain ⟨_, hanalysis', hlearns, hseen⟩ :=
    analyze?_spec h.coherent h.unmarked hlevel hkey s.activity
  obtain rfl := Option.some.inj (hanalysis.symm.trans hanalysis')
  have hfits : ∀ l ∈ analysis.learnt.literals, l.atom + 1 < 2 ^ 31 := fun l hl => by
    have hroom := h.coherent.trail.atom_lt_of_negate (hlearns.negate_mem hl)
    omega
  have hexport := exportEvents_eq (s := s) hfits
  obtain ⟨asserted, hasserted, -, hsearching, -⟩ := h.assertLearnt hs hlearns hseen
    { s.counters with
      conflicts := s.counters.conflicts + 1
      totalConflicts := s.counters.totalConflicts + 1
      freshConflicts := s.counters.freshConflicts + 1 }
    analysis.activity
  have hassert := assertLearnt_eq (s := { s with
    counters :=
      { s.counters with
        conflicts := s.counters.conflicts + 1
        totalConflicts := s.counters.totalConflicts + 1
        freshConflicts := s.counters.freshConflicts + 1 }
    seen := analysis.seen }) hlearns h.coherent
  have hrestart := restartIfDue_eq hsearching.coherent.trail
  have hdecayed : asserted.activity.Covers s.trail.atoms := by
    rw [← hasserted]
    exact hscores
  unfold Solver.learnFrom learnFrom
  rw [hanalysis, hchecked, ok_bind]
  dsimp only
  rw [toInteger_eq (hfits _ List.mem_cons_self), ok_bind, hexport, ok_bind, hassert, ok_bind]
  dsimp only at hasserted
  rw [hasserted, hrestart, ok_bind]
  refine ⟨asserted.restartIfDue.1, _, ?_, rfl, ?_⟩
  · rw [Option.map_some, hasserted]
  · rw [activity_restartIfDue]
    exact hdecayed

/-- The answer to a conflict does not fail. -/
theorem onConflict_eq (h : Solver.Running assumptions s) (hs : Settled s.trail s.store p)
    (hkey : Falsified s.trail s.store key) (hcovers : s.activity.Covers s.trail.atoms)
    (hbound : s.trail.atoms < 2 ^ 31) :
    ∃ turn, s.onConflict key = some turn ∧ onConflict s key = .ok turn ∧
      turn.solver.activity.Covers s.trail.atoms := by
  unfold Solver.onConflict onConflict
  by_cases hlevel : s.trail.level = 0
  · rw [if_pos hlevel, if_pos hlevel]
    exact ⟨_, rfl, rfl, hcovers⟩
  rw [if_neg hlevel, if_neg hlevel]
  split
  · exact ⟨_, rfl, rfl, hcovers⟩
  · obtain ⟨s', events, hlearn, hchecked, hscores⟩ :=
      learnFrom_eq h hs hkey (Nat.pos_of_ne_zero hlevel) hcovers hbound
    rw [hlearn, hchecked]
    exact ⟨_, rfl, rfl, hscores⟩

end Conflict

/-! ## Fixpoints -/

section Fixpoint

omit [Random.Source R] in
/-- With a value for each atom the stored clauses can be checked. -/
theorem modelSatisfies_eq (hstore : s.store.WellFormed s.model.size) :
    modelSatisfies s = .ok s.modelSatisfies := by
  rw [Solver.modelSatisfies, ← Array.all_toList]
  apply allM_eq
  intro c hc
  obtain ⟨key, hkey, rfl⟩ := Array.getElem_of_mem (Array.mem_toList_iff.1 hc)
  have hclause : s.store.clause key = s.store.clauses[key] := by
    simp [ClauseStore.clause, hkey]
  cases s.store.clauses[key].learnt with
  | true => rfl
  | false =>
    rw [if_neg Bool.false_ne_true, Bool.false_or]
    apply anyM_eq
    intro l hl
    rw [fetch_eq_getD (hstore.atom_lt key hkey l (hclause ▸ hl)) none]
    rfl

omit [Random.Source R] in
/-- A valuation is recorded with an entry for each atom. -/
theorem foundModel_eq (hc : Coherent s.trail s.store) : foundModel s = .ok s.foundModel := by
  have hvalues := mapM_eq (f := value s.trail) (l := List.range s.atoms)
    fun atom hatom => value_eq (t := s.trail) (List.mem_range.1 hatom)
  have hmodel : ((List.range s.atoms).map s.trail.value).toArray =
      s.trail.slots.map fun slot => slot.current.map (·.value) := by
    apply Array.ext
    · simp [Solver.atoms, Trail.atoms]
    · intro i hi hi'
      have hget := Trail.getD_model s.trail i
      rw [Array.getD_eq_getD_getElem?, Array.getElem?_eq_getElem hi', Option.getD_some] at hget
      rw [hget]
      simp
  have hsize : (s.trail.slots.map fun slot => slot.current.map (·.value)).size = s.trail.atoms :=
    Array.size_map ..
  unfold foundModel Solver.foundModel
  rw [hvalues, ok_bind, hmodel]
  dsimp only
  split
  · rfl
  · rw [modelSatisfies_eq (by rw [hsize]; exact hc.store)]
    rfl

/-- A decision can be made above the levels of the assumptions. -/
theorem makeDecision_eq (hc : Coherent s.trail s.store)
    (hcovers : s.activity.Covers s.trail.atoms) (hbound : s.trail.atoms < 2 ^ 31) :
    makeDecision s = .ok s.makeDecision ∧ s.makeDecision.solver.activity.Covers s.trail.atoms := by
  have hspec := Solver.choose_spec hc.trail
  have hsame := s.choose_eq
  unfold makeDecision Solver.makeDecision
  rw [choose_eq hc.trail hcovers hbound, ok_bind]
  cases hchoose : s.choose with
  | mk s₁ rest =>
    obtain ⟨chosen, events⟩ := rest
    rw [hchoose] at hspec hsame
    dsimp only at hspec
    obtain ⟨random, rfl⟩ : ∃ random, s₁ = { s with random := random } := ⟨_, hsame⟩
    cases chosen with
    | none => exact ⟨foundModel_eq hc, hcovers⟩
    | some l =>
      dsimp only
      split
      · exact ⟨rfl, hcovers⟩
      · obtain ⟨hroom, hvalue⟩ := hspec
        have hopen : s.trail.pushLevel.valueOf l = none := by
          have hvalue : s.trail.pushLevel.value l.atom = none := hvalue
          rw [Trail.valueOf, hvalue]
          rfl
        have hassign := assign_eq (t := s.trail.pushLevel) hroom hopen none
        have hfits : l.atom + 1 < 2 ^ 31 := Nat.lt_of_le_of_lt hroom hbound
        rw [toInteger_eq hfits, ok_bind, hassign]
        exact ⟨rfl, hcovers⟩

omit [Random.Source R] in
/-- A false assumption can be explained. -/
theorem refute_eq (hc : Coherent s.trail s.store) (hseen : Unmarked s.seen s.trail.atoms)
    {a : Literal} (hfalse : a.negate ∈ s.trail.literals) : refute s a = .ok (s.refute a) := by
  rw [refute, explain_eq hc hseen hfalse]
  rfl

/-- The search can go on from every fixpoint. -/
theorem onFixpoint_eq (h : Solver.Searching assumptions s)
    (hhead : s.trail.head = s.trail.literals.size) (hcovers : s.activity.Covers s.trail.atoms)
    (hbound : s.trail.atoms < 2 ^ 31) :
    onFixpoint s assumptions = .ok (s.onFixpoint assumptions) ∧
      (s.onFixpoint assumptions).solver.activity.Covers s.trail.atoms := by
  have hpassed := passed_skipHolding rfl h.coherent h.settled hhead h.upholds
  have hskipped : skipHolding s.trail (assumptions.drop s.trail.level) = .ok _ :=
    skipHolding_eq fun a ha => h.upholds.room a (List.mem_of_mem_drop ha)
  unfold onFixpoint Solver.onFixpoint
  rw [hskipped, ok_bind]
  cases hskip : Cdcl.skipHolding s.trail (assumptions.drop s.trail.level) with
  | mk u standing =>
    rw [hskip] at hpassed
    obtain ⟨⟨limits, hsame⟩, hcoherent, -, hupholds, hstanding⟩ := hpassed
    dsimp only at hsame hcoherent hupholds hstanding
    have hatoms : u.atoms = s.trail.atoms := by rw [hsame]; rfl
    cases standing with
    | settled =>
      dsimp only
      rw [← hatoms]
      exact makeDecision_eq (s := { s with trail := u }) hcoherent (hatoms ▸ hcovers)
        (hatoms ▸ hbound)
    | undecided a =>
      obtain ⟨hnext, hopen⟩ := hstanding
      have hroom := hupholds.room a (List.mem_of_getElem? hnext)
      dsimp only
      rw [assign_eq (t := u.pushLevel) hroom hopen]
      exact ⟨rfl, hcovers⟩
    | refuted a =>
      exact ⟨refute_eq (s := { s with trail := u }) hcoherent (hatoms ▸ h.unmarked) hstanding.2,
        hcovers⟩

end Fixpoint

/-! ## Turns and solves -/

/-- Propagation and the answer to its result do not fail. -/
theorem advance_eq (h : Solver.Searching assumptions s)
    (hcovers : s.activity.Covers s.trail.atoms) (hbound : s.trail.atoms < 2 ^ 31) :
    ∃ turn, s.advance assumptions = some turn ∧ advance s assumptions = .ok turn ∧
      turn.solver.activity.Covers s.trail.atoms := by
  unfold Solver.advance advance
  rw [propagate_eq h.coherent h.settled, ok_bind]
  cases hpropagate : Cdcl.propagate s.trail s.store with
  | mk u rest =>
    obtain ⟨r, conflict⟩ := rest
    obtain ⟨hpreserves, -, hhead, hrunning, hsettled, hconflict⟩ := h.propagated hpropagate
    have hatoms : u.atoms = s.trail.atoms := hpreserves.atoms
    rw [← hatoms] at hcovers hbound ⊢
    dsimp only
    cases conflict with
    | some key =>
      obtain ⟨hkey, p, hp⟩ := hconflict key rfl
      exact onConflict_eq hrunning hp hkey hcovers hbound
    | none =>
      have hsearching : Solver.Searching assumptions { s with trail := u, store := r } :=
        { hrunning with settled := hsettled rfl }
      obtain ⟨hfixpoint, hscores⟩ := onFixpoint_eq hsearching hhead hcovers hbound
      exact ⟨_, rfl, hfixpoint, hscores⟩

/-- A turn of a search under way does not fail. -/
theorem turn_eq (h : Solver.Searching assumptions s) (hcovers : s.activity.Covers s.trail.atoms)
    (hbound : s.trail.atoms < 2 ^ 31) :
    ∃ turn, s.turn assumptions = some turn ∧ Checked.turn s assumptions = .ok turn ∧
      turn.solver.activity.Covers s.trail.atoms := by
  obtain ⟨callback, hpolled, -, -⟩ := s.poll_spec
  have hsearching : Solver.Searching assumptions { s with terminate := callback } := { h with }
  obtain ⟨turn, hadvance, hchecked, hscores⟩ := advance_eq hsearching hcovers hbound
  unfold Solver.turn Checked.turn
  cases hpoll : s.poll with
  | mk s₁ stop =>
    rw [hpoll] at hpolled
    dsimp only at hpolled
    subst hpolled
    rcases stop with _ | _ | _
    · exact ⟨turn, hadvance, hchecked, hscores⟩
    · dsimp only
      rw [hadvance, hchecked]
      exact ⟨_, rfl, rfl, hscores⟩
    · exact ⟨_, rfl, rfl, hcovers⟩

/-- Turns that end a search end it without a failure. -/
theorem turns_eq (h : Solver.Searching assumptions s) (hcovers : s.activity.Covers s.trail.atoms)
    (hbound : s.trail.atoms < 2 ^ 31) {fuel : Nat} {events : Array Event}
    {result : Solved (Solver R)}
    (hresult : Solver.turns assumptions fuel events s = some result) :
    turns assumptions fuel events s = .ok result ∧
      result.engine.activity.Covers s.trail.atoms := by
  induction fuel generalizing s events with
  | zero => simp [Solver.turns] at hresult
  | succ fuel ih =>
    obtain ⟨⟨s', verdict, more⟩, hturn, hchecked, hscores⟩ := turn_eq h hcovers hbound
    obtain ⟨turn, hturn', hanswers⟩ := h.turn
    obtain rfl := Option.some.inj (hturn.symm.trans hturn')
    have hout := hanswers.outcome
    rw [Solver.turns, hturn] at hresult
    rw [turns, hchecked, ok_bind]
    cases verdict with
    | none =>
      obtain ⟨hpreserves, hsearching, -⟩ := hout
      have hatoms : s'.trail.atoms = s.trail.atoms := hpreserves.atoms
      rw [← hatoms] at hscores hbound ⊢
      exact ih hsearching hscores hbound hresult
    | some verdict =>
      obtain rfl := Option.some.inj hresult
      exact ⟨rfl, hscores⟩

/-- A solve of a solver at rest, with room for the assumptions, does not fail. -/
theorem solve_eq (h : s.Resting) (hroom : ∀ a ∈ s.assumptions.toList, a.atom < s.trail.atoms)
    (hcovers : s.activity.Covers s.trail.atoms) (hbound : s.trail.atoms < 2 ^ 31) :
    solve s = .ok s.solve ∧ s.solve.engine.activity.Covers s.trail.atoms := by
  have hbegun : beginSolve s = .ok s.beginSolve := by
    rw [beginSolve, backjump_eq h.coherent.trail]
    rfl
  have hatoms : s.beginSolve.trail.atoms = s.trail.atoms := by rw [h.beginSolve_trail]
  obtain ⟨result, hsearch, -⟩ := h.search_ends hroom
  have hsearched : search s.beginSolve s.assumptions.toList = .ok result ∧
      result.engine.activity.Covers s.trail.atoms ∧ result.engine.trail.WellFormed := by
    unfold Solver.search? at hsearch
    unfold search
    by_cases hconsistent : s.beginSolve.consistent = true
    · rw [if_pos hconsistent] at hsearch ⊢
      have hsearching := h.searching hconsistent hroom
      rw [← hatoms] at hcovers hbound ⊢
      obtain ⟨hturns, hscores⟩ := turns_eq hsearching hcovers hbound hsearch
      exact ⟨hturns, hscores, (hsearching.turns .empty hsearch).1.coherent.trail⟩
    · rw [if_neg hconsistent] at hsearch ⊢
      obtain rfl := Option.some.inj hsearch
      refine ⟨rfl, hcovers, ?_⟩
      rw [h.beginSolve_trail]
      exact h.coherent.trail
  obtain ⟨hchecked, hscores, hwf⟩ := hsearched
  unfold solve Solver.solve
  rw [hbegun, ok_bind, hchecked, ok_bind, backjump_eq hwf, ok_bind]
  dsimp only
  rw [hsearch]
  exact ⟨rfl, hscores⟩

end Search

end IncrementalSat.Cdcl.Checked
