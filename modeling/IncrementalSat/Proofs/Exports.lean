import IncrementalSat.Binding
import IncrementalSat.Proofs.Calls
import IncrementalSat.Proofs.Tally
import IncrementalSat.Proofs.Verdicts

/-!
# Exported clauses are usable

Every clause learnt in a search follows from the clauses of the solver alone, has no repeated atom,
and its atoms have room.  What is valid before a turn is valid after it, so this holds of every
clause learnt in a solve, with respect to the clauses closed before the solve.  A session exports
clauses during solves only, under the bound registered last, and they are clauses learnt in that
solve.
-/

set_option autoImplicit false

namespace IncrementalSat

/-! ## Integers of literals -/

namespace Literal

/-- The integer of a literal whose atom is small enough has its sign and its atom, from one. -/
theorem toInt_toInteger {l : Literal} (h : l.atom + 1 < 2 ^ 31) :
    l.toInteger.toInt = if l.positive then (l.atom : Int) + 1 else -((l.atom : Int) + 1) := by
  rw [toInteger, Int32.toInt_ofInt, show Int32.size = 2 ^ 32 from rfl]
  refine Int.bmod_eq_of_le ?_ ?_
  · split <;> omega
  · split <;> omega

/-- The integer of a literal is, without its sign, the atom counted from one. -/
theorem natAbs_toInteger {l : Literal} (h : l.atom + 1 < 2 ^ 31) :
    l.toInteger.toInt.natAbs = l.atom + 1 := by
  rw [toInt_toInteger h]
  split <;> omega

/-- The integer of a literal is not zero. -/
theorem toInteger_ne_zero {l : Literal} (h : l.atom + 1 < 2 ^ 31) : l.toInteger ≠ 0 := by
  intro hzero
  have habs := natAbs_toInteger h
  rw [hzero] at habs
  simp at habs

/-- A literal is read back from its integer. -/
theorem ofInteger_toInteger {l : Literal} (h : l.atom + 1 < 2 ^ 31) :
    ofInteger l.toInteger = l := by
  have hatom : (ofInteger l.toInteger).atom = l.atom := by
    simp only [ofInteger, natAbs_toInteger h, Nat.add_sub_cancel]
  have hpositive : (ofInteger l.toInteger).positive = l.positive := by
    simp only [ofInteger, toInt_toInteger h]
    cases l.positive with
    | true => simp
    | false => simp
  exact congrArg₂ mk hatom hpositive

end Literal

/-! ## Learnt clauses -/

namespace Cdcl.Solver

variable {R : Type} {assumptions : List Literal} {s s' : Solver R} {c : List Literal}

/-- A clause that may be used along with those of a solver: it has a literal, it holds wherever they
do, and it is over different atoms, all of which have room. -/
structure Usable (s : Solver R) (c : List Literal) : Prop where
  ne_nil : c ≠ []
  entailed : ∀ v, Respects v s.trail s.store → Satisfies v c
  distinct : (c.map Literal.atom).Nodup
  room : ∀ l ∈ c, l.atom < s.trail.atoms

/-- A clause that may be used has at most as many literals as there are atoms. -/
theorem Usable.length_le (hc : Usable s c) : c.length ≤ s.trail.atoms := by
  have hsub : c.map Literal.atom ⊆ List.range s.trail.atoms := by
    intro a ha
    obtain ⟨l, hl, rfl⟩ := List.mem_map.1 ha
    exact List.mem_range.2 (hc.room l hl)
  simpa using (hc.distinct.subperm hsub).length_le

/-- What may be used after a step may be used before it. -/
theorem Usable.of_preserves (h : s.Preserves s') (hc : Usable s' c) : Usable s c where
  ne_nil := hc.ne_nil
  entailed v hv := hc.entailed v ((h.respects_iff v).2 hv)
  distinct := hc.distinct
  room := h.atoms ▸ hc.room

/-- The clause learnt from a conflict is usable. -/
theorem Running.usable_learnFrom (h : Running assumptions s) {key : Nat}
    (hkey : Falsified s.trail s.store key) (hlevel : 0 < s.trail.level) {events : Array Event}
    (hlearn : s.learnFrom key = some (s', events)) :
    ∀ c ∈ learntClauses events, Usable s c := by
  obtain ⟨analysis, hanalysis, hlearns, -⟩ :=
    analyze?_spec h.coherent h.unmarked hlevel hkey s.activity
  obtain ⟨analysis', hanalysis', hlearnt⟩ := learntClauses_learnFrom hlearn
  obtain rfl := Option.some.inj (hanalysis.symm.trans hanalysis')
  intro c hc
  rw [hlearnt, List.mem_singleton] at hc
  subst hc
  exact
    { ne_nil := List.cons_ne_nil _ _
      entailed := hlearns.entailed
      distinct := hlearns.distinct
      room := fun l hl => h.coherent.trail.atom_lt_of_negate (hlearns.negate_mem hl) }

/-- A conflict teaches usable clauses only. -/
theorem Running.usable_onConflict (h : Running assumptions s) {key : Nat}
    (hkey : Falsified s.trail s.store key) {turn : Turn R} (hturn : s.onConflict key = some turn) :
    ∀ c ∈ learntClauses turn.events, Usable s c := by
  unfold Solver.onConflict at hturn
  split at hturn
  · obtain rfl := Option.some.inj hturn
    intro c hc
    exact absurd hc List.not_mem_nil
  rename_i hlevel
  split at hturn
  · obtain rfl := Option.some.inj hturn
    intro c hc
    exact absurd hc List.not_mem_nil
  · obtain ⟨⟨s', more⟩, hlearn, rfl⟩ := Option.map_eq_some_iff.1 hturn
    intro c hc
    rw [learntClauses_append] at hc
    exact h.usable_learnFrom hkey (Nat.pos_of_ne_zero hlevel) hlearn c hc

section Source

variable [Random.Source R]

/-- A decision tells of no clause learnt. -/
theorem learntClauses_makeDecision (s : Solver R) : learntClauses s.makeDecision.events = [] := by
  have hevents := s.choose_events
  unfold makeDecision
  split
  · unfold foundModel
    dsimp only
    split
    · rfl
    · rfl
  · rename_i events hchoose
    rw [hchoose] at hevents
    have hnone : learntClauses events = [] := by
      refine List.filterMap_eq_nil_iff.2 fun e he => ?_
      obtain ⟨atom, rfl⟩ := hevents e (Array.mem_toList_iff.1 he)
      rfl
    split
    · rw [← Array.append_singleton, learntClauses_append, hnone]
      rfl
    · rw [← Array.append_singleton, learntClauses_append, hnone]
      rfl

/-- Nothing is learnt at a fixpoint. -/
theorem learntClauses_onFixpoint (s : Solver R) (assumptions : List Literal) :
    learntClauses (s.onFixpoint assumptions).events = [] := by
  unfold onFixpoint
  split
  · exact learntClauses_makeDecision _
  · rfl
  · unfold refute
    dsimp only
    split
    · rfl
    · rfl

/-- Propagation and the answer to its result teach usable clauses only. -/
theorem Searching.usable_advance (h : Searching assumptions s) {turn : Turn R}
    (hturn : s.advance assumptions = some turn) :
    ∀ c ∈ learntClauses turn.events, Usable s c := by
  unfold Solver.advance at hturn
  cases hpropagate : propagate s.trail s.store with
  | mk u rest =>
    obtain ⟨r, conflict⟩ := rest
    obtain ⟨hpreserves, -, -, hrunning, -, hconflict⟩ := h.propagated hpropagate
    rw [hpropagate] at hturn
    dsimp only at hturn
    cases conflict with
    | some key =>
      intro c hc
      exact (hrunning.usable_onConflict (hconflict key rfl).1 hturn c hc).of_preserves hpreserves
    | none =>
      obtain rfl := Option.some.inj hturn
      intro c hc
      rw [learntClauses_onFixpoint] at hc
      exact absurd hc List.not_mem_nil

/-- A turn teaches usable clauses only. -/
theorem Searching.usable_turn (h : Searching assumptions s) {turn : Turn R}
    (hturn : s.turn assumptions = some turn) :
    ∀ c ∈ learntClauses turn.events, Usable s c := by
  rcases turn_cases hturn with rfl | ⟨advanced, hadvance, rfl⟩
  · intro c hc
    exact absurd hc List.not_mem_nil
  · have hsearching : Searching assumptions { s with terminate := polled s.terminate } := { h with }
    intro c hc
    rw [learntClauses_append, (pollEvents_spec s.terminate).1] at hc
    exact { hsearching.usable_advance hadvance c hc with }

/-- The turns of a search teach clauses that are usable from its beginning. -/
theorem Searching.usable_turns (h : Searching assumptions s) {fuel : Nat} {events : Array Event}
    {result : Solved (Solver R)}
    (hresult : Solver.turns assumptions fuel events s = some result) :
    ∃ more, result.events = events ++ more ∧ ∀ c ∈ learntClauses more, Usable s c := by
  induction fuel generalizing s events with
  | zero => simp [Solver.turns] at hresult
  | succ fuel ih =>
    obtain ⟨⟨s', verdict, more⟩, hturn, hanswers⟩ := h.turn
    have husable := h.usable_turn hturn
    have hout := hanswers.outcome
    rw [Solver.turns, hturn] at hresult
    cases verdict with
    | none =>
      obtain ⟨hpreserves, hsearching, -⟩ := hout
      obtain ⟨rest, hevents, hrest⟩ := ih hsearching hresult
      refine ⟨more ++ rest, by rw [hevents, Array.append_assoc], ?_⟩
      intro c hc
      rw [learntClauses_append] at hc
      rcases List.mem_append.1 hc with hc | hc
      · exact husable c hc
      · exact (hrest c hc).of_preserves hpreserves
    | some verdict =>
      obtain rfl := Option.some.inj hresult
      exact ⟨more, rfl, husable⟩

/-- A solve from rest teaches clauses that are usable before it. -/
theorem Resting.usable_solve (h : Resting s)
    (hroom : ∀ a ∈ s.assumptions.toList, a.atom < s.trail.atoms) :
    ∀ c ∈ learntClauses s.solve.events, Usable s c := by
  intro c hc
  cases hconsistent : s.consistent with
  | false =>
    rw [solve_of_inconsistent hconsistent] at hc
    exact absurd hc List.not_mem_nil
  | true =>
    obtain ⟨result, hturns, hsolve⟩ := h.turns_end hconsistent hroom
    obtain ⟨more, hevents, husable⟩ := (h.searching hconsistent hroom).usable_turns hturns
    have hlearnt : learntClauses s.solve.events = learntClauses more := by
      rw [hsolve, concluded, hevents, Array.empty_append, ← Array.append_singleton,
        learntClauses_append]
      exact List.append_nil _
    rw [hlearnt] at hc
    exact { husable c hc with
      entailed := fun v hv => (husable c hc).entailed v (h.beginSolve_trail ▸ hv)
      room := h.beginSolve_trail ▸ (husable c hc).room }

end Source

/-! ## Callbacks and events of the other requests -/

/-- An addition leaves the export callback alone and gives it nothing. -/
theorem add_exports (s : Solver R) (lit : Int32) :
    (s.add lit).1.exportBound = s.exportBound ∧ exportedClauses (s.add lit).2 = [] := by
  unfold Solver.add
  split
  · unfold Solver.addClause
    dsimp only
    repeat' split
    all_goals exact ⟨rfl, rfl⟩
  · exact ⟨rfl, rfl⟩

end Cdcl.Solver

namespace Session

open Cdcl Input

variable {R : Type} [Random.Source R]

/-- The bound under which an export callback is registered after calls, and none without one. -/
def registeredBound (calls : List Call) : Option Nat :=
  calls.foldl (fun registered call =>
    match call with
    | .setExport bound given =>
      if bound < 0 then registered else if given then some bound.toInt.toNat else none
    | _ => registered) none

/-- A call changes the bound only if it registers an export callback, which is refused with a
negative bound. -/
theorem registeredBound_append (calls : List Call) (call : Call) :
    registeredBound (calls ++ [call]) =
      match call with
      | .setExport bound given =>
        if bound < 0 then registeredBound calls
        else if given then some bound.toInt.toNat else none
      | _ => registeredBound calls := by
  simp only [registeredBound, List.foldl_append, List.foldl_cons, List.foldl_nil]

/-- What a session notes on its own account is no export. -/
theorem exportedClauses_push_own {journal : Array Event} (event : Event) (h : event.isOwn) :
    exportedClauses (journal.push event) = exportedClauses journal := by
  have hnone : event.exported? = none := by
    cases event <;> first | rfl | exact absurd h Bool.false_ne_true
  simp [exportedClauses, hnone]

/-- Only a solve exports clauses, and only a registration changes the callback. -/
theorem kept_exports (bound : Option Nat) (exported : List (List Int32)) :
    Kept fun (e : Solver R) journal =>
      e.exportBound = bound ∧ exportedClauses journal = exported where
  own event hown h := ⟨h.1, (exportedClauses_push_own event hown).trans h.2⟩
  add {e journal} lit h := by
    obtain ⟨hbound, hnone⟩ := e.add_exports lit
    refine ⟨hbound.trans h.1, ?_⟩
    rw [exportedClauses_append, h.2]
    exact (congrArg (exported ++ ·) hnone).trans (List.append_nil _)
  assume lit h := h
  setOption {e journal} name value h := by
    refine ⟨?_, h.2⟩
    show (e.setOption name value).1.exportBound = bound
    obtain ⟨settings, random, hsame⟩ := e.setOption_eq name value
    rw [hsame]
    exact h.1
  limit {e journal} kind value h := by
    refine ⟨?_, h.2⟩
    show (e.setLimit kind value).1.exportBound = bound
    obtain ⟨limits, hsame⟩ := e.setLimit_eq kind value
    rw [hsame]
    exact h.1
  setTerminate callback h := h
  setImport offers h := h
  setNotify given h := h

/-- A solve gives the export callback what the solve of the engine gives it, or nothing. -/
theorem exports_solve (s : Session (Solver R)) :
    s.solve.1.engine.exportBound = s.engine.exportBound ∧
      ∃ more, exportedClauses s.solve.1.journal = exportedClauses s.journal ++ more ∧
        ∀ clause ∈ more, clause ∈ passing s.engine.exportBound
          (learntClauses s.engine.solve.events) := by
  have htallies := s.engine.tallies_solve
  have hkept := kept_exports (R := R) s.engine.exportBound
  unfold Session.solve
  split
  · exact ⟨rfl, [], by simp, by simp⟩
  split
  · refine ⟨rfl, [], ?_, by simp⟩
    rw [List.append_nil]
    exact exportedClauses_push_own .solveRefused rfl
  · obtain ⟨hbound, hexported⟩ := (hkept _).moveTo
      (s := note { s with engine := s.engine.solve.engine } s.engine.solve.events)
      ⟨htallies.exportBound, exportedClauses_append _ _⟩ (stageAfter s.engine.solve.verdict)
    refine ⟨hbound, _, hexported, fun clause hclause => ?_⟩
    rw [htallies.exported] at hclause
    exact hclause

/-- Registering an export callback exports nothing. -/
theorem exports_setExport (s : Session (Solver R)) (bound : Int32) (given : Bool) :
    (s.setExport bound given).1.engine.exportBound =
        (if bound < 0 then s.engine.exportBound
        else if given then some bound.toInt.toNat else none) ∧
      exportedClauses (s.setExport bound given).1.journal = exportedClauses s.journal := by
  unfold Session.setExport
  split
  · exact ⟨rfl, exportedClauses_push_own (.exportRefused bound) rfl⟩
  · exact ⟨rfl, exportedClauses_push_own (.exportSet given bound.toInt.toNat) rfl⟩

section Runs

variable {s : Session (Solver R)} {calls : List Call}

/-- A call changes the callback as the calls tell, and exports nothing unless it is a solve. -/
theorem exports_perform (hbound : s.engine.exportBound = registeredBound calls) (call : Call) :
    (s.perform call).engine.exportBound = registeredBound (calls ++ [call]) ∧
      (call ≠ .solve →
        exportedClauses (s.perform call).journal = exportedClauses s.journal) := by
  rw [registeredBound_append]
  by_cases hsolve : call = .solve
  · subst hsolve
    exact ⟨(exports_solve s).1.trans hbound, fun h => absurd rfl h⟩
  by_cases hregister : ∃ bound given, call = .setExport bound given
  · obtain ⟨bound, given, rfl⟩ := hregister
    obtain ⟨hset, hjournal⟩ := exports_setExport s bound given
    exact ⟨by rw [← hbound]; exact hset, fun _ => hjournal⟩
  · obtain ⟨hsame, hjournal⟩ := (kept_exports (R := R) _ _).perform
      (s := s) ⟨rfl, rfl⟩ call (fun h => absurd h hsolve)
      fun bound given h => absurd ⟨bound, given, h⟩ hregister
    refine ⟨?_, fun _ => hjournal⟩
    rw [hsame, hbound]
    cases call <;> first | rfl | simp at hregister

/-- After calls on a new session the engine has the bound registered last. -/
theorem exportBound_performAll (settings : Settings) (calls : List Call) :
    ((ofEngine (Solver.ofSettings settings : Solver R)).performAll calls).engine.exportBound =
      registeredBound calls := by
  induction calls using List.reverseRecOn with
  | nil => rfl
  | append_singleton calls call ih =>
    rw [performAll, List.foldl_append]
    exact (exports_perform ih call).1

/-- The clauses that a call exports are those that a solve teaches and that the bound registered
before it lets through. -/
theorem exists_exports_perform (hbound : s.engine.exportBound = registeredBound calls)
    (call : Call) :
    ∃ exported,
      exportedClauses (s.perform call).journal = exportedClauses s.journal ++ exported ∧
      ∀ clause ∈ exported, call = .solve ∧
        clause ∈ passing (registeredBound calls) (learntClauses s.engine.solve.events) := by
  by_cases hsolve : call = .solve
  · subst hsolve
    obtain ⟨-, exported, hjournal, hexported⟩ := exports_solve s
    rw [hbound] at hexported
    exact ⟨exported, hjournal, fun clause hclause => ⟨rfl, hexported clause hclause⟩⟩
  · refine ⟨[], ?_, by simp⟩
    rw [List.append_nil]
    exact (exports_perform hbound call).2 hsolve

/-- A clause that a solve teaches and that a bound lets through is usable by others. -/
theorem usable_of_passing {inputs : List Input} (h : Represents inputs s) {bound : Nat}
    {clause : List Int32}
    (hpassing : clause ∈ passing (some bound) (learntClauses s.engine.solve.events)) :
    Entails (formula inputs) (clause.map Literal.ofInteger) ∧
      1 ≤ clause.length ∧ clause.length ≤ bound ∧
      (∀ lit ∈ clause, lit ≠ 0 ∧ 1 ≤ lit.toInt.natAbs ∧
        (lit.toInt.natAbs : Int) ≤ (Engine.maxAtom s.engine).toInt) ∧
      (clause.map fun lit => lit.toInt.natAbs).Nodup ∧ clause.length < 2 ^ 31 := by
  have hrep := h.engine
  obtain ⟨c, hc, rfl⟩ := List.mem_map.1 hpassing
  obtain ⟨hlearnt, hle⟩ := List.mem_filter.1 hc
  have husable := hrep.resting.usable_solve hrep.assumptions_room c hlearnt
  have hatoms : s.engine.trail.atoms < 2 ^ 31 := hrep.atoms ▸ hrep.largestAtom_lt
  have hsmall : ∀ l ∈ c, l.atom + 1 < 2 ^ 31 := fun l hl =>
    lt_of_le_of_lt (husable.room l hl) hatoms
  have hmax : (Engine.maxAtom s.engine).toInt = s.engine.trail.atoms :=
    Int32.toInt_ofNat_of_lt hatoms
  have hread : (c.map Literal.toInteger).map Literal.ofInteger = c := by
    rw [List.map_map]
    exact (List.map_congr_left fun l hl => Literal.ofInteger_toInteger (hsmall l hl)).trans
      (List.map_id c)
  have hdistinct : (c.map Literal.toInteger).map (fun lit => lit.toInt.natAbs) =
      (c.map Literal.atom).map (· + 1) := by
    rw [List.map_map, List.map_map]
    exact List.map_congr_left fun l hl => Literal.natAbs_toInteger (hsmall l hl)
  refine ⟨?_, ?_, ?_, ?_, ?_, ?_⟩
  · rw [hread]
    intro v hv
    exact husable.entailed v ((hrep.allows_iff v).2 hv).2
  · rw [List.length_map]
    exact List.length_pos_iff.2 husable.ne_nil
  · rw [List.length_map]
    exact of_decide_eq_true hle
  · intro lit hlit
    obtain ⟨l, hl, rfl⟩ := List.mem_map.1 hlit
    have habs := Literal.natAbs_toInteger (hsmall l hl)
    have hroom := husable.room l hl
    exact ⟨Literal.toInteger_ne_zero (hsmall l hl), by omega, by omega⟩
  · rw [hdistinct]
    exact husable.distinct.map Nat.succ_injective
  · rw [List.length_map]
    exact lt_of_le_of_lt husable.length_le hatoms

end Runs

/-- The buffer of a clause without a zero has its first zero where its length says. -/
theorem findIdx?_exportBuffer {clause : List Int32} (hzero : ∀ lit ∈ clause, lit ≠ 0)
    (hlength : clause.length < 2 ^ 31) :
    (Binding.exportBuffer clause).2.toInt = clause.length ∧
      (Binding.exportBuffer clause).1.findIdx? (· == 0) = some clause.length := by
  refine ⟨Int32.toInt_ofNat_of_lt hlength, ?_⟩
  have hnone : clause.findIdx? (· == 0) = none := by
    rw [List.findIdx?_eq_none_iff]
    intro lit hlit
    simpa using hzero lit hlit
  simp [Binding.exportBuffer, List.findIdx?_append, hnone]

/-- A new session has exported nothing, whatever the settings of its solver, and after any calls a
further call exports clauses only if it is a solve and under a bound that is registered.  Each
clause that this solve gives to the callback follows from the clauses closed before it, whatever is
assumed; it has at least one literal and no more than this bound allows; its integers are not zero
and stand for different atoms up to the largest; and the buffer in which a foreign caller gets it
has its first zero at the length. -/
theorem exported_clause_usable (settings : Settings) :
    let engine : Solver R := Solver.ofSettings settings
    exportedClauses (ofEngine engine).journal = [] ∧
      ∀ (calls : List Call) (call : Call),
        let s := (ofEngine engine).performAll calls
        let inputs := (ofEngine engine).history calls
        ∃ exported,
          exportedClauses (s.perform call).journal = exportedClauses s.journal ++ exported ∧
          ∀ clause ∈ exported, call = .solve ∧ ∃ bound, registeredBound calls = some bound ∧
            Entails (formula inputs) (clause.map Literal.ofInteger) ∧
            1 ≤ clause.length ∧ clause.length ≤ bound ∧
            (∀ lit ∈ clause, lit ≠ 0 ∧ 1 ≤ lit.toInt.natAbs ∧
              (lit.toInt.natAbs : Int) ≤ (Engine.maxAtom s.engine).toInt) ∧
            (clause.map fun lit => lit.toInt.natAbs).Nodup ∧
            (Binding.exportBuffer clause).2.toInt = clause.length ∧
            (Binding.exportBuffer clause).1.findIdx? (· == 0) = some clause.length := by
  intro engine
  refine ⟨rfl, fun calls call => ?_⟩
  intro s inputs
  have hrep : Represents inputs s := represents_performAll settings calls
  obtain ⟨exported, hjournal, hexported⟩ :=
    exists_exports_perform (s := s) (exportBound_performAll settings calls) call
  refine ⟨exported, hjournal, fun clause hclause => ?_⟩
  obtain ⟨hsolve, hpassing⟩ := hexported clause hclause
  refine ⟨hsolve, ?_⟩
  cases hbound : registeredBound calls with
  | none => simp [hbound, passing] at hpassing
  | some bound =>
    rw [hbound] at hpassing
    obtain ⟨hentails, hpositive, hle, hproper, hdistinct, hsmall⟩ :=
      usable_of_passing hrep hpassing
    obtain ⟨hlength, hzero⟩ := findIdx?_exportBuffer (fun lit hlit => (hproper lit hlit).1) hsmall
    exact ⟨bound, rfl, hentails, hpositive, hle, hproper, hdistinct, hlength, hzero⟩

/-- Such a run: after a solve that exports a clause of two literals under a larger bound, a conflict
under an assumption teaches a clause of one literal, which holds without the assumption. -/
theorem exported_clause_usable_of_conflict :
    let engine : Solver Random.Pcg := Solver.ofSettings {}
    let calls : List Call :=
      [.addClause [-1, -2, 3], .addClause [-1, -2, -3], .addClause [-4, 5], .addClause [-4, -5],
        .setExport 2 true, .assume 1, .assume 2, .solve, .setExport 1 true, .assume 4]
    let s := (ofEngine engine).performAll calls
    registeredBound calls = some 1 ∧ exportedClauses s.journal = [[-2, -1]] ∧
      exportedClauses (s.perform .solve).journal = [[-2, -1]] ++ [[-4]] ∧
      Entails (formula ((ofEngine engine).history calls)) [⟨3, false⟩] := by
  have hnew : ∀ calls : List Call,
      exportedClauses ((ofEngine (Solver.ofSettings {} : Solver Random.Pcg)).performAll
        calls).journal = [[-2, -1]] →
      exportedClauses (((ofEngine (Solver.ofSettings {} : Solver Random.Pcg)).performAll
        calls).perform .solve).journal = [[-2, -1]] ++ [[-4]] →
      Entails (formula ((ofEngine (Solver.ofSettings {} : Solver Random.Pcg)).history calls))
        [⟨3, false⟩] := by
    intro calls hbefore hafter
    obtain ⟨exported, hexported, husable⟩ :=
      (exported_clause_usable (R := Random.Pcg) {}).2 calls .solve
    rw [hafter, hbefore] at hexported
    have hmem : [-4] ∈ exported :=
      List.append_cancel_left hexported ▸ List.mem_singleton.2 rfl
    obtain ⟨-, bound, -, hentails, -⟩ := husable _ hmem
    exact hentails
  exact ⟨by decide, by decide +kernel, by decide +kernel,
    hnew _ (by decide +kernel) (by decide +kernel)⟩

end Session

end IncrementalSat
