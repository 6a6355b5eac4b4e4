import IncrementalSat.Proofs.Calls
import IncrementalSat.Proofs.Representation
import IncrementalSat.Proofs.Tally
import IncrementalSat.Proofs.Termination
import IncrementalSat.Random.Pcg

/-!
# Verdicts are right

The main results about a session for a fresh clause-learning solver, after any calls and over any
source of randomness.  A valuation found is total, satisfies every clause as it was given, makes the
pending assumptions true, and passes the check that an option asks for; the failed literals of a
refutation are pending assumptions that no model of the clauses satisfies together; the database
means the clauses given, neither more nor less; and a solve that nothing makes stop ends with an
answer.
-/

set_option autoImplicit false

namespace IncrementalSat

/-- The integers that stand for literals, by value. -/
theorem isMalformed_eq_false_iff {lit : Int32} :
    isMalformed lit = false ↔ lit.toInt ≠ 0 ∧ lit.toInt ≠ -2 ^ 31 := by
  rw [← Int32.toInt_zero, ← Int32.toInt_minValue, Int32.toInt_inj.ne, Int32.toInt_inj.ne]
  simp [isMalformed]

/-- Negating a literal does not overflow. -/
theorem toInt_neg_of_isMalformed {lit : Int32} (h : isMalformed lit = false) :
    (-lit).toInt = -lit.toInt := by
  have hvalue := isMalformed_eq_false_iff.1 h
  have hlow := lit.le_toInt
  have hhigh := lit.toInt_lt
  rw [Int32.toInt_neg]
  exact Int.bmod_eq_of_le (by omega) (by omega)

/-- The negation of an integer for a literal is another such integer. -/
theorem neg_ne_of_isMalformed {lit : Int32} (h : isMalformed lit = false) :
    -lit ≠ 0 ∧ -lit ≠ lit := by
  have hvalue := isMalformed_eq_false_iff.1 h
  have hneg := toInt_neg_of_isMalformed h
  constructor
  · intro h0
    rw [h0, Int32.toInt_zero] at hneg
    omega
  · intro h0
    rw [h0] at hneg
    omega

/-- The integer of an atom is no exception and stands for a literal of that atom. -/
theorem ofNat_atom {atom : Nat} (hlow : 1 ≤ atom) (hhigh : atom < 2 ^ 31) :
    isMalformed (Int32.ofNat atom) = false ∧
      (Literal.ofInteger (Int32.ofNat atom)).atom = atom - 1 := by
  have hvalue := Int32.toInt_ofNat_of_lt hhigh
  refine ⟨isMalformed_eq_false_iff.2 (by omega), ?_⟩
  simp only [Literal.ofInteger, hvalue]
  omega

/-! ## The check of a valuation -/

namespace Cdcl.Solver

variable {R : Type} [Random.Source R] {assumptions : List Literal} {s : Solver R}

omit [Random.Source R] in
/-- A valuation found is checked if the option asks for it. -/
theorem checked_foundModel (hcheck : s.settings.check.val ≠ 0) :
    .checked s.foundModel.solver.modelSatisfies ∈ s.foundModel.events := by
  unfold foundModel
  dsimp only
  rw [if_neg hcheck]
  exact Array.mem_singleton.2 rfl

/-- A decision that ends the search with a valuation has it checked. -/
theorem exists_checked_makeDecision (hcheck : s.settings.check.val ≠ 0)
    (hverdict : s.makeDecision.verdict = some .satisfiable) :
    ∃ satisfied, .checked satisfied ∈ s.makeDecision.events := by
  have hchoose := s.choose_eq
  unfold makeDecision at hverdict ⊢
  split at hverdict
  · rename_i s' events hnone
    rw [hnone] at hchoose
    have hcheck' : s'.settings.check.val ≠ 0 := by
      rw [show s' = _ from hchoose]
      exact hcheck
    exact ⟨_, checked_foundModel hcheck'⟩
  · split at hverdict
    · cases hverdict
    · cases hverdict

omit [Random.Source R] in
/-- A conflict does not end the search with a valuation. -/
theorem onConflict_verdict {key : Nat} {turn : Turn R} (hturn : s.onConflict key = some turn) :
    turn.verdict ≠ some .satisfiable := by
  unfold onConflict at hturn
  split at hturn
  · obtain rfl := Option.some.inj hturn
    simp
  split at hturn
  · obtain rfl := Option.some.inj hturn
    simp
  · obtain ⟨_, -, rfl⟩ := Option.map_eq_some_iff.1 hturn
    simp

/-- A fixpoint at which the search ends with a valuation has it checked. -/
theorem exists_checked_onFixpoint (hcheck : s.settings.check.val ≠ 0)
    (hverdict : (s.onFixpoint assumptions).verdict = some .satisfiable) :
    ∃ satisfied, .checked satisfied ∈ (s.onFixpoint assumptions).events := by
  unfold onFixpoint at hverdict ⊢
  split at hverdict
  · rename_i trail _
    exact exists_checked_makeDecision (s := { s with trail := trail }) hcheck hverdict
  · cases hverdict
  · cases hverdict

/-- A turn that ends the search with a valuation has it checked. -/
theorem exists_checked_turn {turn : Turn R} (hturn : s.turn assumptions = some turn)
    (hcheck : s.settings.check.val ≠ 0) (hverdict : turn.verdict = some .satisfiable) :
    ∃ satisfied, .checked satisfied ∈ turn.events := by
  rcases turn_cases hturn with rfl | ⟨advanced, hadvance, rfl⟩
  · cases hverdict
  unfold Solver.advance at hadvance
  dsimp only at hadvance hverdict ⊢
  split at hadvance
  · exact absurd hverdict (onConflict_verdict hadvance)
  · obtain rfl := Option.some.inj hadvance
    have hchecked := exists_checked_onFixpoint
      (s := { s with
        terminate := polled s.terminate
        trail := (propagate s.trail s.store).1
        store := (propagate s.trail s.store).2.1 }) hcheck hverdict
    obtain ⟨satisfied, hmem⟩ := hchecked
    exact ⟨satisfied, Array.mem_append_right _ hmem⟩

/-- Turns that end with a valuation have it checked, since no turn changes the option. -/
theorem Searching.exists_checked_turns (h : Searching assumptions s) {fuel : Nat}
    {events : Array Event} {result : Solved (Solver R)}
    (hresult : Solver.turns assumptions fuel events s = some result)
    (hcheck : s.settings.check.val ≠ 0) (hverdict : result.verdict = .satisfiable) :
    ∃ satisfied, .checked satisfied ∈ result.events := by
  obtain ⟨n, before, s', turn, hleads, hturn, hended, -, hevents⟩ := exists_leads_of_turns hresult
  have hcheck' : s'.settings.check.val ≠ 0 := by
    rw [(hleads.searching_preserves h).2.settings]
    exact hcheck
  obtain ⟨satisfied, hmem⟩ :=
    exists_checked_turn hturn hcheck' (hended.trans (congrArg some hverdict))
  exact ⟨satisfied, hevents ▸ Array.mem_append_right _ hmem⟩

/-- A solve from rest that ends with a valuation tells that a check of it has passed, if the option
asks for a check. -/
theorem Resting.checked_solve (h : Resting s)
    (hroom : ∀ a ∈ s.assumptions.toList, a.atom < s.trail.atoms)
    (hverdict : s.solve.verdict = .satisfiable) (hcheck : s.settings.check.val ≠ 0) :
    .checked true ∈ s.solve.events := by
  have hunfailing := (h.solve hroom).events
  obtain ⟨satisfied, hmem⟩ : ∃ satisfied, .checked satisfied ∈ s.solve.events := by
    cases hconsistent : s.consistent with
    | false =>
      rw [solve_of_inconsistent hconsistent] at hverdict
      cases hverdict
    | true =>
      obtain ⟨result, hturns, hsolve⟩ := h.turns_end hconsistent hroom
      rw [hsolve] at hverdict ⊢
      obtain ⟨satisfied, hmem⟩ :=
        (h.searching hconsistent hroom).exists_checked_turns hturns hcheck hverdict
      exact ⟨satisfied, Array.mem_push_of_mem _ hmem⟩
  cases satisfied with
  | true => exact hmem
  | false => exact absurd rfl (hunfailing _ hmem)

end Cdcl.Solver

namespace Session

open Cdcl Input

variable {R : Type} [Random.Source R]

/-- A session for a fresh solver after calls. -/
def after (R : Type) [Random.Source R] (calls : List Call) : Session (Solver R) :=
  (ofEngine Solver.initial).performAll calls

/-- The inputs that a session for a fresh solver accepts by calls. -/
def accepted (R : Type) [Random.Source R] (calls : List Call) : List Input :=
  (ofEngine (Solver.initial : Solver R)).history calls

/-- After any calls a session stands for the inputs that it has accepted. -/
theorem represents_after (calls : List Call) :
    Represents (accepted R calls) (after R calls) :=
  represents_performAll {} calls

/-- A session after one more call has performed it last. -/
theorem after_append (calls : List Call) (call : Call) :
    after R (calls ++ [call]) = (after R calls).perform call := by
  simp only [after, performAll, List.foldl_append, List.foldl_cons, List.foldl_nil]

/-- The inputs that further calls accept come after those before. -/
theorem accepted_append (calls more : List Call) :
    accepted R (calls ++ more) = accepted R calls ++ (after R calls).history more :=
  history_append _ calls more

/-! ## What a client sees of a solve -/

/-- A solve that is not refused passes on what the engine answers. -/
theorem of_solve_eq_ok {s : Session (Solver R)} {verdict : Verdict}
    (h : s.solve.2 = .ok verdict) :
    s.inputs .solve = [.solve] ∧ s.solve.1.engine = s.engine.solve.engine ∧
      s.engine.solve.verdict = verdict ∧ s.solve.1.stage = stageAfter verdict := by
  have hinputs : s.inputs .solve = [.solve] := by simp only [inputs, h]
  refine ⟨hinputs, ?_⟩
  clear hinputs
  unfold Session.solve at h ⊢
  by_cases hconfig : s.stage = .config
  · simp [hconfig] at h
  by_cases hopen : s.clauseOpen = true
  · simp [hconfig, hopen] at h
  rw [if_neg hconfig, if_neg hopen] at h ⊢
  obtain rfl := Except.ok.inj h
  dsimp only
  unfold moveTo
  split
  · rename_i hstage
    exact ⟨rfl, rfl, hstage⟩
  · exact ⟨rfl, rfl, rfl⟩

/-- The value of a literal is read off the valuation of the engine. -/
theorem value_eq {s : Session (Solver R)} (hstage : s.stage = .sat) {lit : Int32}
    (hlit : isMalformed lit = false) :
    s.value lit = .ok ((s.engine.model.getD (Literal.ofInteger lit).atom none).map
      (· == (Literal.ofInteger lit).positive)) := by
  obtain ⟨hzero, -⟩ := ne_zero_of_isMalformed hlit
  obtain ⟨hneg, hother⟩ := neg_ne_of_isMalformed hlit
  unfold Session.value
  rw [if_neg (by simp [hlit]), if_neg (by simp [hstage])]
  show Except.ok (if s.engine.val lit = 0 then none else some (s.engine.val lit == lit)) = _
  cases hrecorded : s.engine.model.getD (Literal.ofInteger lit).atom none with
  | none =>
    have hval : s.engine.val lit = 0 := by
      unfold Solver.val
      rw [if_neg hzero]
      dsimp only
      rw [hrecorded]
    rw [hval]
    rfl
  | some b =>
    have hval : s.engine.val lit =
        if b = (Literal.ofInteger lit).positive then lit else -lit := by
      unfold Solver.val
      rw [if_neg hzero]
      dsimp only
      rw [hrecorded]
    rw [hval]
    by_cases hb : b = (Literal.ofInteger lit).positive
    · simp [hb, hzero]
    · simp [hb, hneg, hother]

/-- Whether a literal failed is read off the failed assumptions of the engine. -/
theorem failed_eq_ok_true_iff {s : Session (Solver R)} (hstage : s.stage = .unsat) {lit : Int32} :
    s.failed lit = .ok true ↔
      isMalformed lit = false ∧ Literal.ofInteger lit ∈ s.engine.failed := by
  unfold Session.failed
  by_cases hlit : isMalformed lit = true
  · simp [hlit]
  · have hlit' : isMalformed lit = false := by simpa using hlit
    rw [if_neg hlit, if_neg (by simp [hstage])]
    show Except.ok (s.engine.hasFailed lit) = Except.ok true ↔ _
    rw [Except.ok.injEq, Solver.hasFailed, Bool.and_eq_true]
    simp [hlit', (ne_zero_of_isMalformed hlit').1]

omit [Random.Source R] in
/-- The literals of the clauses given are those of integers that were added. -/
theorem Represents.of_mem_formula {s : Session (Solver R)} {inputs : List Input}
    (h : Represents inputs s) {clause : List Literal} {l : Literal}
    (hclause : clause ∈ formula inputs) (hl : l ∈ clause) :
    l.atom < largestAtom inputs ∧ isMalformed l.toInteger = false ∧
      Literal.ofInteger l.toInteger = l := by
  obtain ⟨lit, hlit, hne, rfl⟩ :=
    (mem_of_mem_closedFrom (.inl ⟨clause, hclause, hl⟩)).resolve_left List.not_mem_nil
  have hmem := mem_stream.1 hlit
  have hproper : lit ≠ Int32.minValue := h.engine.proper _ hmem
  rw [Literal.toInteger_ofInteger hne]
  refine ⟨h.engine.atoms ▸ h.engine.room hmem rfl hne, by simp [isMalformed, hne, hproper], rfl⟩

omit [Random.Source R] in
/-- A pending assumption is an integer for a literal with room. -/
theorem Represents.of_mem_pending {s : Session (Solver R)} {inputs : List Input}
    (h : Represents inputs s) {lit : Int32} (hlit : lit ∈ pending inputs) :
    isMalformed lit = false ∧ (Literal.ofInteger lit).atom < largestAtom inputs := by
  have hmem := mem_of_mem_pending hlit
  have hproper : isMalformed lit = false := h.engine.proper _ hmem
  exact ⟨hproper, h.engine.atoms ▸ h.engine.room hmem rfl (ne_zero_of_isMalformed hproper).1⟩

/-! ## Satisfiable formulas -/

/-- The valuation found by the last solve, where an atom without a value counts as false. -/
def valuation (s : Session (Solver R)) : Valuation :=
  fun atom => (s.engine.model.getD atom none).getD false

/-- A literal that holds in the valuation found is read off as true if its atom has a value. -/
theorem value_eq_true {s : Session (Solver R)} (hstage : s.stage = .sat) {lit : Int32}
    (hlit : isMalformed lit = false)
    (hgiven : s.engine.model.getD (Literal.ofInteger lit).atom none ≠ none)
    (hholds : (Literal.ofInteger lit).Holds s.valuation) : s.value lit = .ok (some true) := by
  obtain ⟨b, hb⟩ := Option.ne_none_iff_exists'.1 hgiven
  have hb' : b = (Literal.ofInteger lit).positive := by
    simpa only [Literal.Holds, valuation, hb, Option.getD_some] using hholds
  rw [value_eq hstage hlit, hb]
  simp [hb']

section Satisfiable

variable {s : Session (Solver R)} {inputs : List Input}

/-- A solve that is not refused leaves the number of atoms as the inputs tell it. -/
theorem Represents.atoms_solve (h : Represents inputs s) {verdict : Verdict}
    (hsolve : s.solve.2 = .ok verdict) :
    s.solve.1.engine.trail.atoms = largestAtom inputs := by
  have hafter := h.solve.engine.atoms
  rw [(of_solve_eq_ok hsolve).1, largestAtom_append] at hafter
  exact hafter.trans (Nat.max_zero _)

/-- The valuation found is total and a model in which the pending assumptions hold. -/
theorem Represents.valuation_models (h : Represents inputs s)
    (hsolve : s.solve.2 = .ok .satisfiable) :
    (∀ a < largestAtom inputs, s.solve.1.engine.model.getD a none ≠ none) ∧
      Models s.solve.1.valuation (formula inputs) ∧
      ∀ lit ∈ pending inputs, (Literal.ofInteger lit).Holds s.solve.1.valuation := by
  obtain ⟨-, hengine, hverdict, -⟩ := of_solve_eq_ok hsolve
  obtain ⟨-, hright, -⟩ := h.engine.solve
  rw [hverdict, ← hengine] at hright
  obtain ⟨htotal, hmodel⟩ := hright
  rw [h.atoms_solve hsolve] at htotal
  obtain ⟨hmodels, hassumed⟩ := hmodel s.solve.1.valuation
    fun a b hab => by rw [valuation, hab, Option.getD_some]
  exact ⟨htotal, hmodels, fun lit hlit => hassumed _ (List.mem_map_of_mem hlit)⟩

/-- When a solve finds a formula satisfiable, a client sees a value for every atom up to the
largest. -/
theorem Represents.exists_value_of_atom (h : Represents inputs s)
    (hsolve : s.solve.2 = .ok .satisfiable) {atom : Nat} (hlow : 1 ≤ atom)
    (hhigh : atom ≤ largestAtom inputs) :
    ∃ b, s.solve.1.value (Int32.ofNat atom) = .ok (some b) := by
  obtain ⟨-, -, -, hstage⟩ := of_solve_eq_ok hsolve
  obtain ⟨htotal, -, -⟩ := h.valuation_models hsolve
  obtain ⟨hproper, hatom⟩ := ofNat_atom hlow (hhigh.trans_lt h.engine.largestAtom_lt)
  obtain ⟨b, hb⟩ := Option.ne_none_iff_exists'.1 (htotal (atom - 1) (by omega))
  rw [value_eq hstage hproper, hatom, hb]
  exact ⟨_, rfl⟩

/-- When a solve finds a formula satisfiable, a client sees that some literal of each clause is
true. -/
theorem Represents.exists_value_of_mem_formula (h : Represents inputs s)
    (hsolve : s.solve.2 = .ok .satisfiable) {clause : List Literal}
    (hclause : clause ∈ formula inputs) :
    ∃ l ∈ clause, s.solve.1.value l.toInteger = .ok (some true) := by
  obtain ⟨-, -, -, hstage⟩ := of_solve_eq_ok hsolve
  obtain ⟨htotal, hmodels, -⟩ := h.valuation_models hsolve
  obtain ⟨l, hl, hlv⟩ := hmodels clause hclause
  obtain ⟨hroom, hproper, hround⟩ := h.of_mem_formula hclause hl
  refine ⟨l, hl, value_eq_true hstage hproper ?_ ?_⟩
  · rw [hround]
    exact htotal _ hroom
  · rwa [hround]

/-- When a solve finds a formula satisfiable, a client sees that the pending assumptions are
true. -/
theorem Represents.value_of_mem_pending (h : Represents inputs s)
    (hsolve : s.solve.2 = .ok .satisfiable) {lit : Int32} (hlit : lit ∈ pending inputs) :
    s.solve.1.value lit = .ok (some true) := by
  obtain ⟨-, -, -, hstage⟩ := of_solve_eq_ok hsolve
  obtain ⟨htotal, -, hassumed⟩ := h.valuation_models hsolve
  obtain ⟨hproper, hroom⟩ := h.of_mem_pending hlit
  exact value_eq_true hstage hproper (htotal _ hroom) (hassumed lit hlit)

/-- When a solve finds a formula satisfiable and the option asks for a check of the valuation, it
tells that the check was made and has passed. -/
theorem Represents.checked_solve (h : Represents inputs s)
    (hsolve : s.solve.2 = .ok .satisfiable) (hcheck : s.engine.settings.check.val ≠ 0) :
    ∃ events, s.solve.1.journal = s.journal ++ events ∧ .checked true ∈ events := by
  obtain ⟨-, -, hverdict, -⟩ := of_solve_eq_ok hsolve
  obtain ⟨more, hjournal, -⟩ := journal_solve hsolve
  exact ⟨_, hjournal, Array.mem_append_left _
    (h.engine.resting.checked_solve h.engine.assumptions_room hverdict hcheck)⟩

end Satisfiable

/-- When a solve finds a formula satisfiable, whatever the settings of the solver and whatever calls
came before, every atom up to the largest given has a value, every clause closed so far has a true
literal, and every pending assumption is true.  No check of a valuation has found a false clause,
and if the option asks for a check, the solve has made it and it has passed. -/
theorem solve_satisfiable (settings : Settings) (calls : List Call) :
    let engine : Solver R := Solver.ofSettings settings
    let s := (ofEngine engine).performAll calls
    let inputs := (ofEngine engine).history calls
    s.solve.2 = .ok .satisfiable →
      s.solve.1.assignmentSize = .ok (Int32.ofNat (largestAtom inputs)) ∧
      (∀ atom, 1 ≤ atom → atom ≤ largestAtom inputs →
        ∃ b, s.solve.1.value (Int32.ofNat atom) = .ok (some b)) ∧
      (∀ clause ∈ formula inputs, ∃ l ∈ clause,
        s.solve.1.value l.toInteger = .ok (some true)) ∧
      (∀ lit ∈ pending inputs, s.solve.1.value lit = .ok (some true)) ∧
      (∀ e ∈ s.solve.1.journal, e ≠ .checked false) ∧
      (s.engine.settings.check.val ≠ 0 →
        ∃ events, s.solve.1.journal = s.journal ++ events ∧ .checked true ∈ events) := by
  intro engine s inputs hsolve
  have hrep : Represents inputs s := represents_performAll settings calls
  obtain ⟨-, -, -, hstage⟩ := of_solve_eq_ok hsolve
  refine ⟨?_, fun atom => hrep.exists_value_of_atom hsolve,
    fun clause => hrep.exists_value_of_mem_formula hsolve,
    fun lit => hrep.value_of_mem_pending hsolve, hrep.solve.journal, hrep.checked_solve hsolve⟩
  unfold assignmentSize
  rw [if_neg (by simp [hstage, stageAfter])]
  exact congrArg (fun n => Except.ok (Int32.ofNat n)) (hrep.atoms_solve hsolve)

/-- Such a solve, with the check: one literal of the clause is assumed to be false, so the other is
true, and the valuation passes the check. -/
theorem solve_satisfiable_of_assumption :
    let engine : Solver Random.Pcg := Solver.ofSettings { check := ⟨1, rfl⟩ }
    let calls : List Call := [.addClause [1, 2], .assume (-1)]
    let s := (ofEngine engine).performAll calls
    s.solve.2 = .ok .satisfiable ∧
      pending ((ofEngine engine).history calls) = [-1] ∧
      (∀ lit ∈ pending ((ofEngine engine).history calls), s.solve.1.value lit = .ok (some true)) ∧
      s.solve.1.value 2 = .ok (some true) ∧ s.engine.settings.check.val ≠ 0 ∧
      ∃ events, s.solve.1.journal = s.journal ++ events ∧ .checked true ∈ events := by
  have h := solve_satisfiable (R := Random.Pcg) { check := ⟨1, rfl⟩ }
    [.addClause [1, 2], .assume (-1)] (by decide +kernel)
  exact ⟨by decide +kernel, by decide +kernel, h.2.2.2.1, by decide +kernel, by decide +kernel,
    h.2.2.2.2.2 (by decide +kernel)⟩

/-! ## Unsatisfiable formulas -/

section Unsatisfiable

variable {s : Session (Solver R)} {inputs : List Input}

/-- The failed assumptions of the engine are pending ones that hold together in no model. -/
theorem Represents.failed_refutes (h : Represents inputs s)
    (hsolve : s.solve.2 = .ok .unsatisfiable) :
    (∀ l ∈ s.solve.1.engine.failed, l ∈ (pending inputs).map Literal.ofInteger) ∧
      ∀ v, Models v (formula inputs) → ¬ ∀ l ∈ s.solve.1.engine.failed, l.Holds v := by
  obtain ⟨-, hengine, hverdict, -⟩ := of_solve_eq_ok hsolve
  obtain ⟨-, hright, -⟩ := h.engine.solve
  rw [hverdict, ← hengine] at hright
  exact hright

/-- A literal that a client sees to have failed is a pending assumption. -/
theorem Represents.mem_pending_of_failed (h : Represents inputs s)
    (hsolve : s.solve.2 = .ok .unsatisfiable) {lit : Int32}
    (hfailed : s.solve.1.failed lit = .ok true) : lit ∈ pending inputs := by
  obtain ⟨-, -, -, hstage⟩ := of_solve_eq_ok hsolve
  obtain ⟨hlit, hmem⟩ := (failed_eq_ok_true_iff hstage).1 hfailed
  obtain ⟨n, hn, he⟩ := List.mem_map.1 ((h.failed_refutes hsolve).1 _ hmem)
  have heq := (Literal.ofInteger_inj (ne_zero_of_isMalformed (h.of_mem_pending hn).1).1
    (ne_zero_of_isMalformed hlit).1).1 he
  exact heq ▸ hn

/-- The literals that a client sees to have failed hold together in no model. -/
theorem Represents.not_holds_of_failed (h : Represents inputs s)
    (hsolve : s.solve.2 = .ok .unsatisfiable) {v : Valuation} (hv : Models v (formula inputs)) :
    ¬ ∀ lit, s.solve.1.failed lit = .ok true → (Literal.ofInteger lit).Holds v := by
  obtain ⟨-, -, -, hstage⟩ := of_solve_eq_ok hsolve
  obtain ⟨horigin, hrefuted⟩ := h.failed_refutes hsolve
  intro hall
  apply hrefuted v hv
  intro l hl
  obtain ⟨lit, hlit, rfl⟩ := List.mem_map.1 (horigin l hl)
  exact hall lit ((failed_eq_ok_true_iff hstage).2 ⟨(h.of_mem_pending hlit).1, hl⟩)

end Unsatisfiable

/-- When a solve finds a formula unsatisfiable, the failed literals are pending assumptions, and no
model of the clauses closed so far makes all of them true.  So no model makes all pending
assumptions true, and if nothing failed there is no model. -/
theorem solve_unsatisfiable (calls : List Call)
    (h : (after R calls).solve.2 = .ok .unsatisfiable) :
    (∀ lit, (after R calls).solve.1.failed lit = .ok true → lit ∈ pending (accepted R calls)) ∧
      (∀ v, Models v (formula (accepted R calls)) →
        ¬ ∀ lit, (after R calls).solve.1.failed lit = .ok true → (Literal.ofInteger lit).Holds v) ∧
      (∀ v, Models v (formula (accepted R calls)) →
        ¬ ∀ lit ∈ pending (accepted R calls), (Literal.ofInteger lit).Holds v) ∧
      ((∀ lit, (after R calls).solve.1.failed lit ≠ .ok true) →
        ∀ v, ¬ Models v (formula (accepted R calls))) := by
  have hrep := represents_after (R := R) calls
  refine ⟨fun lit => hrep.mem_pending_of_failed h, fun v => hrep.not_holds_of_failed h, ?_, ?_⟩
  · intro v hv hall
    apply hrep.not_holds_of_failed h hv
    intro lit hfailed
    exact hall lit (hrep.mem_pending_of_failed h hfailed)
  · intro hnone v hv
    apply hrep.not_holds_of_failed h hv
    intro lit hfailed
    exact absurd hfailed (hnone lit)

/-- Such a solve: of the three assumptions, the two that the clause excludes have failed. -/
theorem solve_unsatisfiable_of_assumptions :
    (after Random.Pcg [.addClause [-1, -2], .assume 1, .assume 3, .assume 2]).solve.2 =
        .ok .unsatisfiable ∧
      (after Random.Pcg [.addClause [-1, -2], .assume 1, .assume 3, .assume 2]).solve.1.failed 3 =
        .ok false ∧
      ∀ v, Models v (formula (accepted Random.Pcg
          [.addClause [-1, -2], .assume 1, .assume 3, .assume 2])) →
        ¬ ∀ lit, (after Random.Pcg
            [.addClause [-1, -2], .assume 1, .assume 3, .assume 2]).solve.1.failed lit =
              .ok true → (Literal.ofInteger lit).Holds v := by
  have h : (after Random.Pcg [.addClause [-1, -2], .assume 1, .assume 3, .assume 2]).solve.2 =
      .ok .unsatisfiable := by decide +kernel
  exact ⟨h, by decide +kernel, (solve_unsatisfiable _ h).2.1⟩

/-! ## The database -/

/-- Between two calls, as long as the solver is consistent, a valuation makes the stored clauses and
the literals of level zero true if and only if it is a model of the clauses closed so far; once it
is not, those clauses have no model. -/
theorem respects_iff_models (calls : List Call) :
    ((after R calls).engine.consistent = true → ∀ v,
        Respects v (after R calls).engine.trail (after R calls).engine.store ↔
          Models v (formula (accepted R calls))) ∧
      ((after R calls).engine.consistent = false → ∀ v,
        ¬ Models v (formula (accepted R calls))) := by
  have hallows := (represents_after (R := R) calls).engine.allows_iff
  constructor
  · intro hconsistent v
    rw [← hallows]
    exact (and_iff_right hconsistent).symm
  · intro hinconsistent v hv
    rw [((hallows v).2 hv).1] at hinconsistent
    exact Bool.noConfusion hinconsistent

/-! ## Answers -/

/-- Whatever its settings, its source of randomness and the activities of its atoms, a solver to
which calls have led ends its search with an answer unless a limit or the terminate callback makes
it stop; and every propagation ends. -/
theorem solve_ends_with_answer (calls : List Call) (settings : Settings) (random : R)
    (activity : Activity) (h : (after R calls).engine.Unhindered) :
    (∃ result,
        ({ (after R calls).engine with
            settings := settings
            random := random
            activity := activity }).beginSolve.search?
          (after R calls).engine.assumptions.toList = some result ∧
        (result.verdict = .satisfiable ∨ result.verdict = .unsatisfiable)) ∧
      ∀ t store, ∃ steps, propagateWithin steps t store = some (propagate t store) := by
  have hrep := (represents_after (R := R) calls).engine
  have hresting : Solver.Resting { (after R calls).engine with
      settings := settings, random := random, activity := activity } :=
    ⟨hrep.resting.level, hrep.resting.coherent, hrep.resting.unmarked, hrep.resting.settled⟩
  obtain ⟨result, hresult, hanswer⟩ := hresting.search_ends hrep.assumptions_room
  have hknown : result.verdict ≠ .unknown := hanswer ⟨h.conflicts, h.decisions, h.patient⟩
  constructor
  · refine ⟨result, hresult, ?_⟩
    cases hverdict : result.verdict with
    | satisfiable => exact .inl rfl
    | unsatisfiable => exact .inr rfl
    | unknown => exact absurd hverdict hknown
  · intro t store
    exact ⟨_, propagateWithin_eq t store (Nat.lt_succ_self _)⟩

/-- Such a search: without a limit and a callback the clause is satisfied. -/
theorem solve_ends_with_answer_of_clause :
    (after Random.Pcg [.addClause [1, 2]]).engine.Unhindered ∧
      ∃ result,
        ({ (after Random.Pcg [.addClause [1, 2]]).engine with
            settings := {}
            random := (Random.Source.ofSeed 7 : Random.Pcg)
            activity := {} }).beginSolve.search?
          (after Random.Pcg [.addClause [1, 2]]).engine.assumptions.toList = some result ∧
        (result.verdict = .satisfiable ∨ result.verdict = .unsatisfiable) := by
  have hterminate : (after Random.Pcg [.addClause [1, 2]]).engine.terminate = none := rfl
  have h : (after Random.Pcg [.addClause [1, 2]]).engine.Unhindered :=
    ⟨rfl, rfl, by simp [hterminate]⟩
  exact ⟨h, (solve_ends_with_answer _ {} (Random.Source.ofSeed 7) {} h).1⟩

end Session

end IncrementalSat
