import IncrementalSat.Proofs.Addition
import IncrementalSat.Proofs.Inputs

/-!
# A solver stands for the formula it was given

Between two calls a solver at rest allows exactly the models of the clauses closed so far, and holds
the open clause, the pending assumptions and the number of atoms that the accepted inputs tell.
Each input keeps this, and a call on a session passes its inputs on, one after another, to the
solver; so it holds of every session that can be reached.
-/

set_option autoImplicit false

namespace IncrementalSat

namespace Literal

/-- A literal has an atom counted from zero, and its integer one counted from one. -/
theorem atom_ofInteger_lt {lit : Int32} (h : lit ≠ 0) :
    (ofInteger lit).atom + 1 = lit.toInt.natAbs := by
  have hne : lit.toInt ≠ 0 := fun h0 => h (Int32.toInt_inj.1 h0)
  simp only [ofInteger]
  omega

/-- A literal is written back as the integer it stands for. -/
theorem toInteger_ofInteger {lit : Int32} (h : lit ≠ 0) : (ofInteger lit).toInteger = lit := by
  have hne : lit.toInt ≠ 0 := fun h0 => h (Int32.toInt_inj.1 h0)
  have hvalue : (if (ofInteger lit).positive then ((ofInteger lit).atom : Int) + 1
      else -(((ofInteger lit).atom : Int) + 1)) = lit.toInt := by
    simp only [ofInteger, decide_eq_true_eq]
    split <;> omega
  rw [toInteger, hvalue, Int32.ofInt_toInt]

/-- Different integers stand for different literals. -/
theorem ofInteger_inj {a b : Int32} (ha : a ≠ 0) (hb : b ≠ 0) :
    ofInteger a = ofInteger b ↔ a = b := by
  constructor
  · intro h
    rw [← toInteger_ofInteger ha, h, toInteger_ofInteger hb]
  · rintro rfl
    rfl

end Literal

/-- An integer that is not malformed is a literal. -/
theorem ne_zero_of_isMalformed {lit : Int32} (h : isMalformed lit = false) :
    lit ≠ 0 ∧ lit ≠ Int32.minValue := by
  simpa [isMalformed] using h

open Input

/-! ## Solvers -/

namespace Cdcl.Solver

variable {R : Type} {s : Solver R} {inputs : List Input}

/-- A solver at rest stands for the inputs it was given. -/
structure Represents (inputs : List Input) (s : Solver R) : Prop where
  resting : s.Resting
  proper : ∀ i ∈ inputs, i.Proper
  allows_iff : ∀ v, s.Allows v ↔ Models v (formula inputs)
  openClause : s.openClause.toList = (closedFrom [] (stream inputs)).2
  assumptions : s.assumptions.toList = (pending inputs).map Literal.ofInteger
  atoms : s.trail.atoms = largestAtom inputs

namespace Represents

/-- Every literal that was given has room. -/
theorem room (h : Represents inputs s) {i : Input} (hi : i ∈ inputs) {lit : Int32}
    (hatom : i.atom = lit.toInt.natAbs) (hne : lit ≠ 0) :
    (Literal.ofInteger lit).atom < s.trail.atoms := by
  have hle := atom_le_largestAtom hi
  have hatom' := Literal.atom_ofInteger_lt hne
  rw [h.atoms]
  omega

/-- The literals of the open clause have room. -/
theorem openClause_room (h : Represents inputs s) :
    ∀ l ∈ s.openClause.toList, l.atom < s.trail.atoms := by
  intro l hl
  rw [h.openClause] at hl
  obtain ⟨lit, hlit, hne, rfl⟩ :=
    (mem_of_mem_closedFrom (.inr hl)).resolve_left List.not_mem_nil
  exact h.room (mem_stream.1 hlit) rfl hne

/-- The pending assumptions have room. -/
theorem assumptions_room (h : Represents inputs s) :
    ∀ a ∈ s.assumptions.toList, a.atom < s.trail.atoms := by
  intro a ha
  rw [h.assumptions] at ha
  obtain ⟨lit, hlit, rfl⟩ := List.mem_map.1 ha
  have hmem := mem_of_mem_pending hlit
  exact h.room hmem rfl (ne_zero_of_isMalformed (h.proper _ hmem)).1

/-- Atoms fit in the integers that write them. -/
theorem largestAtom_lt (h : Represents inputs s) : largestAtom inputs < 2 ^ 31 := by
  have hproper := h.proper
  clear h
  induction inputs using List.reverseRecOn with
  | nil => decide
  | append_singleton inputs i ih =>
    have hi := hproper i (by simp)
    have hbound : ∀ {lit : Int32}, lit ≠ Int32.minValue → lit.toInt.natAbs < 2 ^ 31 := by
      intro lit hlit
      have hne : lit.toInt ≠ -2 ^ 31 := fun h0 => hlit (Int32.toInt_inj.1 h0)
      have hlow := lit.le_toInt
      have hhigh := lit.toInt_lt
      omega
    rw [largestAtom_append, Nat.max_lt]
    refine ⟨ih fun j hj => hproper j (List.mem_append_left _ hj), ?_⟩
    cases i with
    | literal lit => exact hbound hi
    | assumption lit => exact hbound (ne_zero_of_isMalformed hi).2
    | solve => decide

/-- A fresh solver has been given nothing, whatever its settings. -/
theorem ofSettings [Random.Source R] (settings : Settings) :
    Represents [] (Solver.ofSettings settings : Solver R) where
  resting := Resting.initial.congr rfl rfl rfl rfl
  proper := by simp
  allows_iff v := by
    constructor
    · intro _ clause hclause
      simp [formula, closedClauses, stream, closedFrom] at hclause
    · intro _
      refine ⟨rfl, ?_, ?_⟩
      · intro key hkey
        simp [Solver.ofSettings] at hkey
      · intro l hl
        simp [Solver.ofSettings] at hl
  openClause := rfl
  assumptions := rfl
  atoms := rfl

/-- Settings, limits, callbacks and other things beside the clauses do not matter. -/
theorem congr {s' : Solver R} (h : Represents inputs s) (htrail : s'.trail = s.trail)
    (hstore : s'.store = s.store) (hseen : s'.seen = s.seen)
    (hconsistent : s'.consistent = s.consistent) (hopen : s'.openClause = s.openClause)
    (hassumptions : s'.assumptions = s.assumptions) : Represents inputs s' where
  resting := h.resting.congr htrail hstore hseen hconsistent
  proper := h.proper
  allows_iff v := by
    rw [← h.allows_iff, Allows, Allows, htrail, hstore, hconsistent]
  openClause := hopen ▸ h.openClause
  assumptions := hassumptions ▸ h.assumptions
  atoms := htrail ▸ h.atoms

/-- Inputs stay proper with one more that is. -/
theorem proper_append (h : Represents inputs s) {i : Input} (hi : i.Proper) :
    ∀ j ∈ inputs ++ [i], j.Proper := by
  intro j hj
  cases List.mem_append.1 hj with
  | inl hj => exact h.proper j hj
  | inr hj => exact List.mem_singleton.1 hj ▸ hi

/-- Adding zero closes the open clause. -/
theorem close (h : Represents inputs s) :
    Represents (inputs ++ [.literal 0]) (s.add 0).1 ∧ Unfailing (s.add 0).2 := by
  have htrail : s.trail.backjump 0 = s.trail := h.resting.backjump
  have hresting :
      ({ s with trail := s.trail.backjump 0, openClause := #[] } : Solver R).Resting := by
    rw [htrail]
    exact ⟨h.resting.level, h.resting.coherent, h.resting.unmarked, h.resting.settled⟩
  have hroom : ∀ l ∈ s.openClause.toList, l.atom < (s.trail.backjump 0).atoms := by
    rw [htrail]
    exact h.openClause_room
  have hcloses := hresting.addClause hroom
  have hallows : ∀ v,
      ({ s with trail := s.trail.backjump 0, openClause := #[] } : Solver R).Allows v ↔
      Models v (formula inputs) := fun v => by
    rw [htrail, ← h.allows_iff]
    exact Iff.rfl
  have hstream : stream (inputs ++ [.literal 0]) = stream inputs ++ [0] := stream_append ..
  have hclosed : closedFrom [] (stream inputs ++ [0]) =
      (formula inputs ++ [s.openClause.toList], []) := by
    rw [closedFrom_append, if_pos rfl, h.openClause]
    rfl
  refine ⟨?_, hcloses.events⟩
  exact
    { resting := hcloses.resting
      proper := h.proper_append (show (0 : Int32) ≠ Int32.minValue by decide)
      allows_iff := fun v => by
        have hsingle : Models v [s.openClause.toList] ↔ Satisfies v s.openClause.toList := by
          simp [Models]
        rw [formula, closedClauses, hstream, hclosed, models_append, hsingle, ← hallows]
        exact hcloses.allows_iff v
      openClause := by
        rw [hstream, hclosed]
        exact congrArg Array.toList hcloses.openClause
      assumptions := by
        rw [pending_append, ← h.assumptions]
        exact congrArg Array.toList hcloses.assumptions
      atoms := by
        rw [largestAtom_append, ← h.atoms]
        refine hcloses.atoms.trans ?_
        rw [htrail]
        exact (Nat.max_zero _).symm }

/-- Making room for the atom of an input keeps what the solver stands for. -/
theorem ensure (h : Represents inputs s) {lit : Int32} (hlit : lit ≠ 0) :
    (s.ensure (Literal.ofInteger lit).atom).Resting ∧
      (∀ v, (s.ensure (Literal.ofInteger lit).atom).Allows v ↔ Models v (formula inputs)) ∧
      (s.ensure (Literal.ofInteger lit).atom).trail.atoms =
        max (largestAtom inputs) lit.toInt.natAbs := by
  refine ⟨h.resting.ensure _, fun v => by rw [allows_ensure, h.allows_iff], ?_⟩
  rw [← h.atoms, ← Literal.atom_ofInteger_lt hlit]
  exact atoms_ensure ..

/-- Adding a literal goes on with the open clause. -/
theorem extendClause (h : Represents inputs s) {lit : Int32} (hlit : lit ≠ 0)
    (hproper : lit ≠ Int32.minValue) :
    Represents (inputs ++ [.literal lit]) (s.add lit).1 ∧ Unfailing (s.add lit).2 := by
  obtain ⟨hresting, hallows, hatoms⟩ := h.ensure hlit
  have hstream : stream (inputs ++ [.literal lit]) = stream inputs ++ [lit] := stream_append ..
  have hclosed : closedFrom [] (stream inputs ++ [lit]) =
      (formula inputs, s.openClause.toList ++ [Literal.ofInteger lit]) := by
    rw [closedFrom_append, if_neg hlit, h.openClause]
    rfl
  unfold Solver.add
  rw [if_neg hlit]
  refine ⟨?_, .empty⟩
  exact
    { resting := ⟨hresting.level, hresting.coherent, hresting.unmarked, hresting.settled⟩
      proper := h.proper_append hproper
      allows_iff := fun v => by
        rw [formula, closedClauses, hstream, hclosed]
        exact hallows v
      openClause := by
        rw [hstream, hclosed]
        exact Array.toList_push
      assumptions := by
        rw [pending_append, ← h.assumptions]
        rfl
      atoms := by
        rw [largestAtom_append]
        exact hatoms }

/-- An integer that is added, other than the one without a negation, is an input. -/
theorem add (h : Represents inputs s) {lit : Int32} (hproper : lit ≠ Int32.minValue) :
    Represents (inputs ++ [.literal lit]) (s.add lit).1 ∧ Unfailing (s.add lit).2 := by
  by_cases hlit : lit = 0
  · subst hlit
    exact h.close
  · exact h.extendClause hlit hproper

/-- An assumption waits for the next solve. -/
theorem assume (h : Represents inputs s) {lit : Int32} (hproper : isMalformed lit = false) :
    Represents (inputs ++ [.assumption lit]) (s.assume lit) := by
  obtain ⟨hresting, hallows, hatoms⟩ := h.ensure (ne_zero_of_isMalformed hproper).1
  have hstream : stream (inputs ++ [.assumption lit]) = stream inputs := by
    rw [stream_append]
    exact List.append_nil _
  exact
    { resting := ⟨hresting.level, hresting.coherent, hresting.unmarked, hresting.settled⟩
      proper := h.proper_append hproper
      allows_iff := fun v => by
        rw [formula, hstream]
        exact hallows v
      openClause := by
        rw [hstream]
        exact h.openClause
      assumptions := by
        rw [pending_append, List.map_append, ← h.assumptions]
        exact Array.toList_push
      atoms := by
        rw [largestAtom_append]
        exact hatoms }

/-- A solve gives the right answer and uses up the assumptions. -/
theorem solve [Random.Source R] (h : Represents inputs s) :
    Represents (inputs ++ [.solve]) s.solve.engine ∧
      Right ((pending inputs).map Literal.ofInteger) (Models · (formula inputs)) s.solve.engine
        s.solve.verdict ∧
      Unfailing s.solve.events := by
  have hsolves := h.resting.solve h.assumptions_room
  have hstream : stream (inputs ++ [.solve]) = stream inputs := by
    rw [stream_append]
    exact List.append_nil _
  refine ⟨?_, ?_, hsolves.events⟩
  · exact
      { resting := hsolves.resting
        proper := h.proper_append trivial
        allows_iff := fun v => by rw [hsolves.allows_iff, h.allows_iff, formula, formula, hstream]
        openClause := by rw [hsolves.openClause, h.openClause, hstream]
        assumptions := by rw [hsolves.assumptions, pending_append]; rfl
        atoms := by
          rw [hsolves.atoms, h.atoms, largestAtom_append]
          exact (Nat.max_zero _).symm }
  · have hright := hsolves.right.congr h.allows_iff
    rwa [h.assumptions] at hright

/-- Setting an option keeps what the solver stands for. -/
theorem setOption [Random.Source R] (h : Represents inputs s) (name : String) (value : Int) :
    Represents inputs (s.setOption name value).1 := by
  obtain ⟨settings, random, hsame⟩ := s.setOption_eq name value
  rw [hsame]
  exact h.congr rfl rfl rfl rfl rfl rfl

/-- Setting a limit keeps what the solver stands for. -/
theorem setLimit (h : Represents inputs s) (kind : String) (value : Int) :
    Represents inputs (s.setLimit kind value).1 := by
  obtain ⟨limits, hsame⟩ := s.setLimit_eq kind value
  rw [hsame]
  exact h.congr rfl rfl rfl rfl rfl rfl

end Represents

end Cdcl.Solver

/-! ## Sessions -/

namespace Session

open Cdcl (Solver)

variable {R : Type} {s : Session (Solver R)} {inputs : List Input}

/-- A session stands for the inputs it has accepted, and no check of a valuation has failed. -/
structure Represents (inputs : List Input) (s : Session (Solver R)) : Prop where
  engine : s.engine.Represents inputs
  journal : Unfailing s.journal

namespace Represents

/-- Events that tell of no failed check may be noted. -/
theorem note (h : Represents inputs s) {events : Array Event} (hevents : Unfailing events) :
    Represents inputs (s.note events) where
  engine := h.engine
  journal := h.journal.append hevents

/-- An event that tells of no failed check may be noted. -/
theorem note_singleton (h : Represents inputs s) {e : Event} (he : e ≠ .checked false) :
    Represents inputs (s.note #[e]) :=
  h.note (.singleton he)

/-- A session may move to any stage. -/
theorem moveTo (h : Represents inputs s) (stage : Stage) : Represents inputs (s.moveTo stage) := by
  unfold Session.moveTo
  split
  · exact h
  · exact ⟨h.engine, h.journal.push (by simp)⟩

/-- An engine that stands for the same inputs may take the place of the engine. -/
theorem withEngine (h : Represents inputs s) {engine : Solver R}
    (hengine : engine.Represents inputs) : Represents inputs { s with engine := engine } :=
  ⟨hengine, h.journal⟩

variable [Random.Source R]

/-- A session for a fresh solver has accepted nothing. -/
theorem ofSettings (settings : Cdcl.Settings) :
    Represents [] (ofEngine (Solver.ofSettings settings : Solver R)) where
  engine := .ofSettings settings
  journal := .singleton (by simp)

/-- An integer that is pushed is an input. -/
theorem push (h : Represents inputs s) {lit : Int32} (hproper : lit ≠ Int32.minValue) :
    Represents (inputs ++ [.literal lit]) (s.push lit) := by
  obtain ⟨hengine, hevents⟩ := (h.moveTo .input).engine.add hproper
  exact ⟨hengine, (h.moveTo .input).journal.append hevents⟩

/-- The integers of a clause that are pushed are inputs, one after the other. -/
theorem foldl_push (h : Represents inputs s) {clause : List Int32}
    (hproper : ∀ lit ∈ clause, lit ≠ Int32.minValue) :
    Represents (inputs ++ clause.map .literal) (clause.foldl Session.push s) := by
  induction clause generalizing s inputs with
  | nil => simpa using h
  | cons lit rest ih =>
    have hpushed := h.push (hproper lit List.mem_cons_self)
    have hfolded := ih hpushed fun n hn => hproper n (List.mem_cons_of_mem _ hn)
    simpa using hfolded

/-- A write to an option keeps what the engine stands for, whatever comes of it. -/
theorem writeOption (h : Represents inputs s) (name : String) (value index : Int) :
    ((IncrementalSat.writeOption s.engine s.stage name value index).1).Represents inputs ∧
      Unfailing (IncrementalSat.writeOption s.engine s.stage name value index).2.2 := by
  have hwrite : ∀ target : Target, ((target.write s.engine name value).1).Represents inputs := by
    intro target
    cases target with
    | limit kind => exact h.engine.setLimit kind value
    | native => exact h.engine.setOption name value
  unfold IncrementalSat.writeOption
  split
  · exact ⟨h.engine, .singleton (by simp)⟩
  rename_i descriptor target _
  have htarget := hwrite target
  split
  · exact ⟨h.engine, .singleton (by simp)⟩
  split
  · exact ⟨h.engine, .empty⟩
  split
  · exact ⟨h.engine, .empty⟩
  split
  · rename_i hresult
    rw [hresult] at htarget
    exact ⟨htarget, .singleton (by simp)⟩
  · rename_i hresult
    rw [hresult] at htarget
    exact ⟨htarget, .singleton (by simp)⟩

/-- Setting an option is no input. -/
theorem setOption (h : Represents inputs s) (name : String) (value index : Int) :
    Represents inputs (s.setOption name value index).1 := by
  obtain ⟨hengine, hevents⟩ := h.writeOption name value index
  exact (h.withEngine hengine).note hevents

/-! ### Formulas that are read -/

/-- The integers of a line are inputs up to the first error. -/
theorem readFields {r : Dimacs.Reading (Solver R)} (h : Represents inputs r.session)
    (fields : List (List Char)) :
    Represents (inputs ++ (Dimacs.addedFields fields).1.map .literal)
        (Dimacs.readFields r fields).1.session ∧
      ((Dimacs.readFields r fields).2 = .ok () ↔ (Dimacs.addedFields fields).2 = true) := by
  induction fields generalizing r inputs with
  | nil => simpa [Dimacs.readFields, Dimacs.addedFields] using h
  | cons field rest ih =>
    unfold Dimacs.readFields Dimacs.addedFields Dimacs.readField Session.add
    cases Text.int32? field with
    | none => simpa using h
    | some lit =>
      by_cases hmin : lit = Int32.minValue
      · simpa [hmin] using h
      · simp only [if_neg hmin]
        have hrest := ih (r :=
          { r with
            session := r.session.push lit
            clauseOpen := lit != 0
            summary :=
              if lit = 0 then { r.summary with clauses := r.summary.clauses + 1 }
              else r.summary }) (h.push hmin)
        simpa using hrest

/-- The integers of lines are inputs up to the end of the formula or the first error. -/
theorem readLines {r : Dimacs.Reading (Solver R)} (h : Represents inputs r.session)
    (lines : List (Except ReadFailure String)) :
    Represents (inputs ++ (Dimacs.added lines).map .literal) (Dimacs.readLines r lines).1 := by
  have hfinish : ∀ {r : Dimacs.Reading (Solver R)} {inputs : List Input},
      Represents inputs r.session → Represents inputs (Dimacs.finish r).1 := by
    intro r inputs h
    unfold Dimacs.finish
    split
    · exact h
    · exact h.note_singleton (by simp)
  induction lines generalizing r inputs with
  | nil => simpa [Dimacs.added, Dimacs.readLines] using hfinish h
  | cons line rest ih =>
    cases line with
    | error failure => simpa [Dimacs.added, Dimacs.readLines] using h
    | ok text =>
      unfold Dimacs.readLines Dimacs.added
      dsimp only
      cases Dimacs.Line.ofText text.toList with
      | skipped => exact ih (r := { r with lines := r.lines + 1 }) h
      | stop => simpa using hfinish (r := { r with lines := r.lines + 1 }) h
      | problem counts =>
        cases counts with
        | none => simpa using h
        | some counts => exact ih (h.note_singleton (by simp))
      | literals fields =>
        obtain ⟨hfields, hok⟩ := readFields (r := { r with lines := r.lines + 1 }) h fields
        dsimp only
        cases hread : Dimacs.readFields { r with lines := r.lines + 1 } fields with
        | mk r' result =>
          cases hadded : Dimacs.addedFields fields with
          | mk literals complete =>
            rw [hread, hadded] at hfields hok
            cases result with
            | error cause =>
              cases complete with
              | true => simp at hok
              | false => exact hfields
            | ok _ =>
              cases complete with
              | true =>
                have hrest := ih hfields
                simpa using hrest
              | false => simp at hok

/-! ### Calls -/

/-- An integer that is not refused is an input. -/
theorem add (h : Represents inputs s) (lit : Int32) :
    Represents (inputs ++ s.inputs (.add lit)) (s.add lit).1 := by
  unfold Session.inputs Session.add
  by_cases hmin : lit = Int32.minValue
  · simpa [hmin] using h
  · simpa [hmin] using h.push hmin

/-- A clause that is not refused gives its integers and a zero. -/
theorem addClause (h : Represents inputs s) (clause : List Int32) :
    Represents (inputs ++ s.inputs (.addClause clause)) (s.addClause clause).1 := by
  unfold Session.inputs
  dsimp only
  unfold Session.addClause
  by_cases hmalformed : clause.any isMalformed = true
  · simpa [hmalformed] using h
  by_cases hopen : s.clauseOpen = true
  · have hrefused : Represents inputs (s.note #[.clauseRefused]) :=
      h.note_singleton (by simp)
    simpa [hmalformed, hopen] using hrefused
  · have hproper : ∀ lit ∈ clause, lit ≠ Int32.minValue := by
      intro lit hlit
      refine (ne_zero_of_isMalformed ?_).2
      by_contra hbad
      exact hmalformed (List.any_eq_true.2 ⟨lit, hlit, by simpa using hbad⟩)
    have hclosed := (h.foldl_push hproper).push (show (0 : Int32) ≠ Int32.minValue by decide)
    rw [if_neg hmalformed, if_neg hopen, List.map_append, ← List.append_assoc]
    exact hclosed

/-- An assumption that is not refused is an input. -/
theorem assume (h : Represents inputs s) (lit : Int32) :
    Represents (inputs ++ s.inputs (.assume lit)) (s.assume lit).1 := by
  unfold Session.inputs
  dsimp only
  unfold Session.assume
  by_cases hmalformed : isMalformed lit = true
  · simpa [hmalformed] using h
  by_cases hopen : s.clauseOpen = true
  · have hrefused : Represents inputs (s.note #[.assumptionRefused lit]) :=
      h.note_singleton (by simp)
    simpa [hmalformed, hopen] using hrefused
  · rw [if_neg hmalformed, if_neg hopen]
    have hmoved := h.moveTo .input
    exact ⟨hmoved.engine.assume (by simpa using hmalformed), hmoved.journal⟩

/-- A solve that is not refused is an input. -/
theorem solve (h : Represents inputs s) :
    Represents (inputs ++ s.inputs .solve) s.solve.1 := by
  unfold Session.inputs
  dsimp only
  unfold Session.solve
  by_cases hconfig : s.stage = .config
  · simpa [hconfig] using h
  by_cases hopen : s.clauseOpen = true
  · have hrefused : Represents inputs (s.note #[.solveRefused]) := h.note_singleton (by simp)
    simpa [hconfig, hopen] using hrefused
  · obtain ⟨hengine, -, hevents⟩ := h.engine.solve
    have hnoted : Represents (inputs ++ [.solve])
        (Session.note { s with engine := s.engine.solve.engine } s.engine.solve.events) :=
      ⟨hengine, h.journal.append hevents⟩
    rw [if_neg hconfig, if_neg hopen]
    exact hnoted.moveTo _

/-- Registering a callback keeps what the session stands for. -/
theorem setTerminate (h : Represents inputs s) (callback : Option Terminate) :
    Represents inputs (s.setTerminate callback).1 := by
  have hnoted : Represents inputs (s.note #[.terminateSet callback.isSome]) :=
    h.note_singleton (by simp)
  exact hnoted.withEngine (h.engine.congr rfl rfl rfl rfl rfl rfl)

/-- Registering an export callback is no input. -/
theorem setExport (h : Represents inputs s) (bound : Int32) (given : Bool) :
    Represents inputs (s.setExport bound given).1 := by
  unfold Session.setExport
  split
  · exact h.note_singleton (by simp)
  · have hnoted : Represents inputs (s.note #[.exportSet given bound.toInt.toNat]) :=
      h.note_singleton (by simp)
    exact hnoted.withEngine (h.engine.congr rfl rfl rfl rfl rfl rfl)

/-- A call keeps what a session stands for, with the inputs that it accepts. -/
theorem perform (h : Represents inputs s) (call : Call) :
    Represents (inputs ++ s.inputs call) (s.perform call) := by
  have hnone : ∀ {s' : Session (Solver R)}, Represents inputs s' → Represents (inputs ++ []) s' :=
    fun h => (List.append_nil inputs).symm ▸ h
  cases call with
  | add lit => exact h.add lit
  | addClause clause => exact h.addClause clause
  | assume lit => exact h.assume lit
  | solve => exact h.solve
  | setOption name value index => exact hnone (h.setOption name value index)
  | setTerminate callback => exact hnone (h.setTerminate callback)
  | setExport bound given => exact hnone (h.setExport bound given)
  | setImport offers => exact hnone (note_singleton (h.withEngine h.engine) (by simp))
  | setNotify given => exact hnone (note_singleton (h.withEngine h.engine) (by simp))
  | catalog => exact hnone (h.note_singleton (by simp))
  | read source => exact h.readLines source.lines

/-- Calls keep what a session stands for, with the inputs that they accept. -/
theorem performAll (h : Represents inputs s) (calls : List Call) :
    Represents (inputs ++ s.history calls) (s.performAll calls) := by
  induction calls generalizing s inputs with
  | nil => simpa [history, Session.performAll] using h
  | cons call rest ih =>
    have hrest := ih (h.perform call)
    rw [List.append_assoc] at hrest
    exact hrest

end Represents

/-- A session for a fresh solver stands for what it has accepted, whatever its settings and after
any calls. -/
theorem represents_performAll [Random.Source R] (settings : Cdcl.Settings) (calls : List Call) :
    Represents ((ofEngine (Solver.ofSettings settings : Solver R)).history calls)
      ((ofEngine (Solver.ofSettings settings : Solver R)).performAll calls) := by
  have h := (Represents.ofSettings (R := R) settings).performAll calls
  rwa [List.nil_append] at h

end Session

end IncrementalSat
