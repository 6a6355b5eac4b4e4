import IncrementalSat.Proofs.OpenClause
import IncrementalSat.Proofs.Requests
import IncrementalSat.Proofs.SavedPhases

/-!
# Valuations that are found again

A solver retains a partial valuation if trail and store keep to it and the pending assumptions are
true in it.  A solve that finds the clauses satisfiable leaves a solver that retains the valuation
found, and so do the requests after it, as long as each clause that they close has a literal that is
true in the valuation and each assumption is true in it.  The next solve with saved phases then
finds the valuation again, whatever else has been set and however atoms are drawn.
-/

set_option autoImplicit false

namespace IncrementalSat

open Engine (Request)
open Input

/-! ## Inputs that accord with a valuation -/

/-- An assumption suits a partial valuation in which it is true; a literal of a clause always does,
and a solve never. -/
def Input.Suits (m : PartialValuation) : Input → Prop
  | literal _ => True
  | assumption lit => (Literal.ofInteger lit).TrueIn m
  | solve => False

instance (m : PartialValuation) : DecidablePred (Input.Suits m)
  | .literal _ => .isTrue trivial
  | .assumption lit => inferInstanceAs (Decidable ((Literal.ofInteger lit).TrueIn m))
  | .solve => .isFalse id

/-- Inputs that go on with an open clause accord with a partial valuation: it backs each clause that
they close, and each assumption is true in it. -/
structure Accords (m : PartialValuation) (opened : List Literal) (inputs : List Input) : Prop where
  clauses : ∀ clause ∈ (closedFrom opened.reverse (stream inputs)).1, Backed m clause
  suits : ∀ i ∈ inputs, i.Suits m

namespace Accords

variable {m : PartialValuation} {opened : List Literal} {rest : List Input} {lit : Int32}

/-- A literal goes on with the open clause. -/
theorem of_literal (h : Accords m opened (.literal lit :: rest)) (hlit : lit ≠ 0) :
    Accords m (opened ++ [Literal.ofInteger lit]) rest where
  clauses clause hclause := by
    refine h.clauses clause ?_
    show clause ∈ (closedFrom opened.reverse (lit :: stream rest)).1
    rw [closedFrom, if_neg hlit]
    rwa [List.reverse_append] at hclause
  suits i hi := h.suits i (List.mem_cons_of_mem _ hi)

/-- A zero closes the open clause, which is backed. -/
theorem of_zero (h : Accords m opened (.literal 0 :: rest)) :
    Backed m opened ∧ Accords m [] rest := by
  have hclosed : (closedFrom opened.reverse (stream (.literal 0 :: rest))).1 =
      opened :: (closedFrom [] (stream rest)).1 := by
    show (closedFrom opened.reverse (0 :: stream rest)).1 = _
    rw [closedFrom, if_pos rfl, List.reverse_reverse]
  have hclauses := h.clauses
  rw [hclosed] at hclauses
  exact ⟨hclauses opened List.mem_cons_self,
    fun clause hclause => hclauses clause (List.mem_cons_of_mem _ hclause),
    fun i hi => h.suits i (List.mem_cons_of_mem _ hi)⟩

/-- An assumption is true in the valuation and leaves the open clause as it is. -/
theorem of_assumption (h : Accords m opened (.assumption lit :: rest)) :
    (Literal.ofInteger lit).TrueIn m ∧ Accords m opened rest :=
  ⟨h.suits (.assumption lit) List.mem_cons_self, h.clauses,
    fun i hi => h.suits i (List.mem_cons_of_mem _ hi)⟩

end Accords

namespace Cdcl.Solver

variable {R : Type} {m : PartialValuation} {s s' : Solver R} {clause : List Literal}

/-! ## Requests between two solves -/

/-- A clause that is backed may be closed. -/
theorem keeps_addClause (hwf : s.trail.WellFormed) (hconsistent : s.consistent = true)
    (hkeeps : Keeps m s.trail s.store) (hroom : ∀ l ∈ clause, l.atom < s.trail.atoms)
    (hclause : Backed m clause) :
    (s.addClause clause).1.consistent = true ∧
      Keeps m (s.addClause clause).1.trail (s.addClause clause).1.store := by
  obtain ⟨l, hl, htrue⟩ := hclause
  unfold Solver.addClause
  dsimp only
  split
  · exact ⟨hconsistent, hkeeps⟩
  split
  · exact ⟨hconsistent, hkeeps⟩
  split
  · exact ⟨hconsistent, hkeeps⟩
  rename_i _ _ hnone
  -- the true literal is open, so it is not taken out
  have hopen : s.trail.valueOf l = none := by
    cases hvalue : s.trail.valueOf l with
    | none => rfl
    | some b =>
      cases b with
      | true =>
        refine absurd (List.any_eq_true.2 ⟨l, Literal.mem_ordered.2 hl, ?_⟩) hnone
        simp [hvalue]
      | false => exact absurd (hwf.valueOf_eq_false_iff.1 hvalue) (hkeeps.negate_not_mem htrue)
  have hmem : l ∈ (Literal.ordered clause).filter fun l => s.trail.valueOf l == none :=
    List.mem_filter.2 ⟨Literal.mem_ordered.2 hl, by simp [hopen]⟩
  split
  · rename_i hnil
    rw [hnil] at hmem
    exact absurd hmem List.not_mem_nil
  · rename_i hsingle
    rw [hsingle] at hmem
    obtain rfl := List.mem_singleton.1 hmem
    exact ⟨hconsistent, hkeeps.assign (hroom l hl) htrue.not_negate⟩
  · rename_i hcons
    rw [hcons] at hmem
    exact ⟨hconsistent, hkeeps.attach ⟨l, hmem, htrue⟩⟩

/-- A solver that is ready retains a partial valuation: trail and store keep to it, and the pending
assumptions are true in it. -/
structure Retains (m : PartialValuation) (s : Solver R) : Prop where
  ready : Ready s
  consistent : s.consistent = true
  keeps : Keeps m s.trail s.store
  assumed : ∀ a ∈ s.assumptions.toList, a.TrueIn m

namespace Retains

/-- Settings, limits, callbacks and other things beside the clauses do not matter. -/
theorem congr (h : Retains m s) (htrail : s'.trail = s.trail) (hstore : s'.store = s.store)
    (hseen : s'.seen = s.seen) (hconsistent : s'.consistent = s.consistent)
    (hopen : s'.openClause = s.openClause) (hassumptions : s'.assumptions = s.assumptions) :
    Retains m s' where
  ready := h.ready.congr htrail hstore hseen hconsistent hopen hassumptions
  consistent := hconsistent.trans h.consistent
  keeps := htrail ▸ hstore ▸ h.keeps
  assumed := hassumptions ▸ h.assumed

/-- Going on with the open clause keeps the solver at a valuation found. -/
theorem extendClause (h : Retains m s) {lit : Int32} (hlit : lit ≠ 0) :
    Retains m (s.add lit).1 where
  ready := h.ready.add lit
  consistent := by
    rw [Solver.add, if_neg hlit]
    exact h.consistent
  keeps := by
    rw [Solver.add, if_neg hlit]
    exact h.keeps.ensure _
  assumed := by
    rw [Solver.add, if_neg hlit]
    exact h.assumed

/-- A clause that is backed may be closed, and none is open then. -/
theorem close (h : Retains m s) (hclause : Backed m s.openClause.toList) :
    Retains m (s.add 0).1 ∧ (s.add 0).1.openClause = #[] := by
  have htrail : s.trail.backjump 0 = s.trail := h.ready.resting.backjump
  have hadd : s.add 0 =
      ({ s with openClause := #[] } : Solver R).addClause s.openClause.toList := by
    unfold Solver.add
    rw [if_pos rfl, htrail]
  have hresting : ({ s with openClause := #[] } : Solver R).Resting :=
    h.ready.resting.congr rfl rfl rfl rfl
  have hcloses := hresting.addClause h.ready.openClause
  obtain ⟨hconsistent, hkeeps⟩ := keeps_addClause (s := { s with openClause := #[] })
    h.ready.resting.coherent.trail h.consistent h.keeps h.ready.openClause hclause
  rw [← hadd] at hconsistent hkeeps hcloses
  refine ⟨⟨h.ready.add 0, hconsistent, hkeeps, ?_⟩, hcloses.openClause⟩
  rw [hcloses.assumptions]
  exact h.assumed

/-- An assumption that the valuation found makes true keeps the solver at it. -/
theorem assume (h : Retains m s) {lit : Int32} (hlit : (Literal.ofInteger lit).TrueIn m) :
    Retains m (s.assume lit) where
  ready := h.ready.assume lit
  consistent := h.consistent
  keeps := h.keeps.ensure _
  assumed a ha := by
    rw [Solver.assume, Array.toList_push, List.mem_append, List.mem_singleton] at ha
    exact ha.elim (h.assumed a) fun heq => heq ▸ hlit

variable [Random.Source R]

/-- A request that passes on no input leaves the clauses and the assumptions alone. -/
theorem serve_of_input_eq_none (h : Retains m s) {request : Request}
    (hrequest : request.input? = none) :
    Retains m (Engine.serve s request) ∧
      (Engine.serve s request).openClause = s.openClause := by
  cases request with
  | setOption name value =>
    obtain ⟨settings, random, hsame⟩ := s.setOption_eq name value
    have hserve : Engine.serve s (.setOption name value) =
        { s with settings := settings, random := random } := hsame
    rw [hserve]
    exact ⟨h.congr rfl rfl rfl rfl rfl rfl, rfl⟩
  | limit kind value =>
    obtain ⟨limits, hsame⟩ := s.setLimit_eq kind value
    have hserve : Engine.serve s (.limit kind value) = { s with limits := limits } := hsame
    rw [hserve]
    exact ⟨h.congr rfl rfl rfl rfl rfl rfl, rfl⟩
  | add lit => exact absurd hrequest (Option.some_ne_none _)
  | assume lit => exact absurd hrequest (Option.some_ne_none _)
  | solve => exact absurd hrequest (Option.some_ne_none _)
  | setTerminate callback => exact ⟨h.congr rfl rfl rfl rfl rfl rfl, rfl⟩
  | setLearn bound given => exact ⟨h.congr rfl rfl rfl rfl rfl rfl, rfl⟩
  | setImport offers => exact ⟨h, rfl⟩
  | setNotify given => exact ⟨h, rfl⟩

/-- A request that accords with the valuation is followed by a solver that retains it. -/
theorem serve (h : Retains m s) {request : Request} {rest : List Request}
    (haccords : Accords m s.openClause.toList (Engine.inputs (request :: rest))) :
    Retains m (Engine.serve s request) ∧
      Accords m (Engine.serve s request).openClause.toList (Engine.inputs rest) := by
  cases hinput : request.input? with
  | none =>
    obtain ⟨hretains, hopen⟩ := h.serve_of_input_eq_none hinput
    rw [Engine.inputs, List.filterMap_cons_none hinput] at haccords
    exact ⟨hretains, hopen.symm ▸ haccords⟩
  | some input =>
    rw [Engine.inputs, List.filterMap_cons_some hinput] at haccords
    cases request with
    | add lit =>
      obtain rfl := Option.some.inj hinput
      by_cases hlit : lit = 0
      · subst hlit
        obtain ⟨hclause, hrest⟩ := haccords.of_zero
        obtain ⟨hretains, hclosed⟩ := h.close hclause
        refine ⟨hretains, ?_⟩
        show Accords m (s.add 0).1.openClause.toList (Engine.inputs rest)
        rw [hclosed]
        exact hrest
      · have hopened : (Engine.serve s (.add lit)).openClause.toList =
            s.openClause.toList ++ [Literal.ofInteger lit] := by
          show (s.add lit).1.openClause.toList = _
          rw [Solver.add, if_neg hlit]
          exact Array.toList_push
        exact ⟨h.extendClause hlit, hopened.symm ▸ haccords.of_literal hlit⟩
    | assume lit =>
      obtain rfl := Option.some.inj hinput
      obtain ⟨htrue, hrest⟩ := haccords.of_assumption
      exact ⟨h.assume htrue, hrest⟩
    | solve =>
      obtain rfl := Option.some.inj hinput
      exact absurd (haccords.suits .solve List.mem_cons_self) id
    | _ => exact absurd hinput.symm (Option.some_ne_none _)

/-- A solver goes on to retain the valuation after requests that accord with it. -/
theorem serveAll (h : Retains m s) {requests : List Request}
    (haccords : Accords m s.openClause.toList (Engine.inputs requests)) :
    Retains m (Engine.serveAll s requests) := by
  induction requests generalizing s with
  | nil => exact h
  | cons request rest ih =>
    obtain ⟨hretains, hrest⟩ := h.serve haccords
    exact ih hretains hrest

end Retains

section Found

variable [Random.Source R]

/-- The next solve saves phases and is not cut short: its decisions are not limited, and none of its
polls is answered by a request to stop. -/
structure Unbroken (s : Solver R) : Prop where
  phaseSaving : s.settings.phaseSaving.val = 1
  decisions : s.limits.decisions = none
  patient : Event.terminated ∉ s.solve.events

/-- An unbroken solve of a solver that retains a valuation ends without a conflict, with a
valuation that extends it. -/
theorem Retains.solve (h : Retains m s) (hsolve : s.Unbroken) :
    s.solve.verdict = .satisfiable ∧ s.solve.engine.counters.conflicts = 0 ∧
      ∀ a b, m a = some b → s.solve.engine.found a = some b :=
  h.ready.resting.solve_of_keeps h.ready.assumptions h.consistent h.keeps h.assumed
    hsolve.phaseSaving hsolve.decisions hsolve.patient

/-- A solver retains the valuation that it finds. -/
theorem Ready.retains_solve (h : Ready s) (hverdict : s.solve.verdict = .satisfiable) :
    Retains s.solve.engine.found s.solve.engine := by
  obtain ⟨hconsistent, hkeeps⟩ := h.resting.keeps_solve h.assumptions hverdict
  refine ⟨h.solve, hconsistent, hkeeps, ?_⟩
  rw [(h.resting.solve h.assumptions).assumptions]
  exact fun a ha => absurd ha List.not_mem_nil

/-- A valuation that extends one that was found agrees with it on the atoms given by then. -/
theorem Ready.eq_found_of_lt (h : Ready s) (hverdict : s.solve.verdict = .satisfiable)
    {m' : PartialValuation} (hextends : ∀ a b, s.solve.engine.found a = some b → m' a = some b)
    {a : Nat} (ha : a < s.solve.engine.atoms) : m' a = s.solve.engine.found a := by
  have hright := (h.resting.solve h.assumptions).right
  rw [hverdict] at hright
  obtain ⟨b, hb⟩ := Option.ne_none_iff_exists'.1 (hright.1 a ha)
  exact (hextends a b hb).trans hb.symm

end Found

end Cdcl.Solver

/-! ## Sessions -/

namespace Session

open Cdcl

variable {R : Type} [Random.Source R] {calls : List Call}

/-- A literal or an assumption was added exactly if an input was passed on that is no solve. -/
theorem hasInput_iff {E : Type} {log : Log E} :
    log.HasInput ↔ ∃ i ∈ Engine.inputs (log.map Prod.snd), i ≠ .solve := by
  have hrequest : ∀ request : Request,
      request.isInput = true ↔ ∃ i, request.input? = some i ∧ i ≠ .solve := by
    intro request
    cases request <;> simp [Engine.Request.isInput, Engine.Request.input?]
  simp only [Log.HasInput, Engine.inputs, List.mem_filterMap, List.mem_map, hrequest]
  constructor
  · rintro ⟨entry, hentry, i, hi, hne⟩
    exact ⟨i, ⟨entry.2, ⟨entry, hentry, rfl⟩, hi⟩, hne⟩
  · rintro ⟨i, ⟨_, ⟨entry, hentry, rfl⟩, hi⟩, hne⟩
    exact ⟨entry, hentry, i, hi, hne⟩

/-- A session is configured no longer once a literal or an assumption has been accepted. -/
theorem stage_ne_config_iff :
    (after R calls).stage ≠ .config ↔ ∃ i ∈ accepted R calls, i ≠ .solve := by
  obtain ⟨recorded, hforget, hfollows, hinputs⟩ := exists_recorded (R := R) calls
  have hstage : recorded.stage = (after R calls).stage := congrArg stage hforget
  rw [← hstage, ne_eq, hfollows.config, not_not, hasInput_iff, ← hinputs]
  rfl

/-- A solve that is accepted leaves no clause open. -/
theorem clauseOpen_solve {s : Session (Solver R)} {verdict : Verdict}
    (h : s.solve.2 = .ok verdict) : s.solve.1.clauseOpen = false := by
  unfold Session.solve at h ⊢
  by_cases hconfig : s.stage = .config
  · simp [hconfig] at h
  by_cases hopen : s.clauseOpen = true
  · simp [hconfig, hopen] at h
  have hclosed : s.clauseOpen = false := by simpa using hopen
  rw [if_neg hconfig, if_neg hopen]
  exact (moveTo_frame _ _).2.2.trans hclosed

/-- After a solve that is accepted, a session is never configured again. -/
theorem stage_ne_config_of_solve {verdict : Verdict} (h : (after R calls).solve.2 = .ok verdict)
    (more : List Call) : ((after R calls).solve.1.performAll more).stage ≠ .config := by
  have hstage : (after R calls).stage ≠ .config := by
    intro hconfig
    simp [Session.solve, hconfig] at h
  obtain ⟨i, hi, hne⟩ := stage_ne_config_iff.1 hstage
  have hafter : after R (calls ++ .solve :: more) = (after R calls).solve.1.performAll more :=
    List.foldl_append
  rw [← hafter, stage_ne_config_iff, accepted_append]
  exact ⟨i, List.mem_append_left _ hi, hne⟩

/-- A solve with no clause open is accepted once there has been an input. -/
theorem solve_accepted {s : Session (Solver R)} (hstage : s.stage ≠ .config)
    (hopen : s.clauseOpen = false) : s.solve.2 = .ok s.engine.solve.verdict := by
  unfold Session.solve
  rw [if_neg hstage, if_neg (by simp [hopen])]
  rfl

/-- Where two valuations agree on the atom of a literal, it is read off alike. -/
theorem value_eq_of_found_eq {s s' : Session (Solver R)} (hstage : s.stage = .sat)
    (hstage' : s'.stage = .sat) {lit : Int32}
    (h : lit ≠ 0 →
      s'.engine.found (Literal.ofInteger lit).atom = s.engine.found (Literal.ofInteger lit).atom) :
    s'.value lit = s.value lit := by
  by_cases hlit : isMalformed lit = true
  · simp only [Session.value, if_pos hlit]
  · have hproper : isMalformed lit = false := by simpa using hlit
    rw [value_eq hstage hproper, value_eq hstage' hproper]
    exact congrArg (fun value => Except.ok (Option.map _ value))
      (h (ne_zero_of_isMalformed hproper).1)

/-- A session whose solve finds the clauses satisfiable has an engine that retains the valuation
found, which gives a value to every atom so far. -/
theorem retains_solve (h : (after R calls).solve.2 = .ok .satisfiable) :
    (after R calls).solve.1.engine.Retains (after R calls).solve.1.engine.found ∧
      ∀ {m : PartialValuation},
        (∀ a b, (after R calls).solve.1.engine.found a = some b → m a = some b) →
        ∀ a < (after R calls).solve.1.engine.atoms,
          m a = (after R calls).solve.1.engine.found a := by
  obtain ⟨-, hengine, hverdict, -⟩ := of_solve_eq_ok h
  have hrep := (represents_after (R := R) calls).engine
  have hready : (after R calls).engine.Ready :=
    ⟨hrep.resting, hrep.openClause_room, hrep.assumptions_room⟩
  rw [hengine]
  exact ⟨hready.retains_solve hverdict, fun hextends a ha =>
    hready.eq_found_of_lt hverdict hextends ha⟩

/-- A valuation that is found is kept.  After any requests and a solve that finds the clauses
satisfiable, let requests follow that make no solve, close only clauses with a literal that is true
in the valuation found, and assume only literals that are true in it.  An unbroken solve with
saved phases, whatever the other settings and the source of randomness, then finds the clauses
satisfiable without a conflict, with the same value for every atom of that valuation.  A client of a
session sees the same of calls between two solves; so a solve that is repeated gives the same values
again. -/
theorem found_valuation_kept (R : Type) [Random.Source R] :
    (∀ (before more : List Request) (settings : Settings) (random : R),
      let solved := (Solver.given R before).solve
      let later : Solver R :=
        { Engine.serveAll solved.engine more with settings := settings, random := random }
      solved.verdict = .satisfiable →
      Accords solved.engine.found solved.engine.openClause.toList (Engine.inputs more) →
      later.Unbroken →
        later.solve.verdict = .satisfiable ∧ later.solve.engine.counters.conflicts = 0 ∧
          ∀ a < solved.engine.atoms, later.solve.engine.found a = solved.engine.found a) ∧
    (∀ calls more : List Call,
      let s := (after R calls).solve.1
      let s' := s.performAll more
      (after R calls).solve.2 = .ok .satisfiable →
      Accords s.engine.found [] (s.history more) → s'.clauseOpen = false →
      s'.engine.Unbroken →
        s'.solve.2 = .ok .satisfiable ∧ s'.solve.1.engine.counters.conflicts = 0 ∧
          ∀ lit : Int32, lit.toInt.natAbs ≤ s.engine.atoms →
            s'.solve.1.value lit = s.value lit) := by
  constructor
  · intro before more settings random solved later hverdict haccords hsolve
    have hready := Solver.ready_given (R := R) before
    have hretains := (hready.retains_solve hverdict).serveAll haccords
    have hlater : Solver.Retains solved.engine.found later :=
      hretains.congr rfl rfl rfl rfl rfl rfl
    obtain ⟨hverdict', hconflicts, hextends⟩ := hlater.solve hsolve
    exact ⟨hverdict', hconflicts, fun a ha => hready.eq_found_of_lt hverdict hextends ha⟩
  · intro calls more s s' hsolve haccords hclosed hagain
    have hsolved : after R (calls ++ [.solve]) = s := after_append calls .solve
    obtain ⟨hretains, hagree⟩ := retains_solve hsolve
    have hopen : s.engine.openClause.toList = [] := by
      rw [← hsolved]
      exact (clauseOpen_eq_false_iff _).1 (hsolved ▸ clauseOpen_solve hsolve)
    obtain ⟨requests, hserved, hinputs⟩ := engine_performAll s more
    have hretains' : s'.engine.Retains s.engine.found := by
      rw [hserved]
      refine hretains.serveAll ?_
      rw [hopen, hinputs]
      exact haccords
    obtain ⟨hverdict, hconflicts, hextends⟩ := hretains'.solve hagain
    have hstage : s'.stage ≠ .config := stage_ne_config_of_solve hsolve more
    have hsolve' : s'.solve.2 = .ok .satisfiable :=
      (solve_accepted hstage hclosed).trans (congrArg _ hverdict)
    obtain ⟨-, -, -, hsat⟩ := of_solve_eq_ok hsolve
    obtain ⟨-, hengine, -, hsat'⟩ := of_solve_eq_ok hsolve'
    rw [← hengine] at hconflicts hextends
    refine ⟨hsolve', hconflicts, fun lit hlit => value_eq_of_found_eq hsat hsat' fun hne => ?_⟩
    refine hagree hextends _ ?_
    have hatom := Literal.atom_ofInteger_lt hne
    show _ < s.engine.atoms
    omega

/-- Such solves: after a clause with a new atom and an assumption, both true in the valuation found,
the second one draws every atom and prefers false, or comes from a session that is asked to prefer
false. -/
theorem found_valuation_kept_of_clauses :
    let solved :=
      (Solver.given Random.Pcg [.add 1, .add 2, .add 0, .add (-1), .add 3, .add 0]).solve
    let later : Solver Random.Pcg :=
      { Engine.serveAll solved.engine [.add (-4), .add 3, .add 0, .assume 2] with
        settings := { phase := ⟨0, rfl⟩, randomFrequency := ⟨1000, rfl⟩ }
        random := Random.Source.ofSeed 7 }
    let s := (after Random.Pcg [.addClause [1, 2], .addClause [-1, 3]]).solve.1
    let s' := s.performAll [.addClause [-4, 3], .assume 2, .setOption "phase" 0 0]
    (solved.verdict = .satisfiable ∧ later.Unbroken ∧
      later.solve.verdict = .satisfiable ∧ later.solve.engine.counters.conflicts = 0 ∧
        ∀ a < solved.engine.atoms, later.solve.engine.found a = solved.engine.found a) ∧
      s'.engine.Unbroken ∧ s'.solve.2 = .ok .satisfiable ∧
        s'.solve.1.engine.counters.conflicts = 0 ∧
          ∀ lit : Int32, lit.toInt.natAbs ≤ s.engine.atoms →
            s'.solve.1.value lit = s.value lit := by
  intro solved later s s'
  have hverdict : solved.verdict = .satisfiable := by decide +kernel
  have haccords : Accords solved.engine.found solved.engine.openClause.toList
      (Engine.inputs [.add (-4), .add 3, .add 0, .assume 2]) :=
    ⟨by decide +kernel, by decide +kernel⟩
  have hlater : later.Unbroken := ⟨rfl, by decide +kernel, by decide +kernel⟩
  have hsolve : (after Random.Pcg [.addClause [1, 2], .addClause [-1, 3]]).solve.2 =
      .ok .satisfiable := by decide +kernel
  have haccords' : Accords s.engine.found []
      (s.history [.addClause [-4, 3], .assume 2, .setOption "phase" 0 0]) :=
    ⟨by decide +kernel, by decide +kernel⟩
  have hclosed : s'.clauseOpen = false := by decide +kernel
  have hagain : s'.engine.Unbroken := ⟨by decide +kernel, by decide +kernel, by decide +kernel⟩
  exact ⟨⟨hverdict, hlater,
      (found_valuation_kept Random.Pcg).1 _ _ _ _ hverdict haccords hlater⟩,
    hagain, (found_valuation_kept Random.Pcg).2 _ _ hsolve haccords' hclosed hagain⟩

end Session

end IncrementalSat
