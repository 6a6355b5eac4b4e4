import IncrementalSat.Proofs.Protocol
import IncrementalSat.Proofs.Received

/-!
# Formulas that are read while a clause is open

The reader keeps an account of its own of the clause that is open, which starts anew with each text,
and does not ask the session.  So the literals of a clause that was open before are taken into the
first clause of the text, or stay open if the text closes none.  Only if no clause was open before
are the clauses closed those of the text.
-/

set_option autoImplicit false

namespace IncrementalSat

open Engine (Request)
open Input

/-! ## Streams that go on with an open clause -/

/-- Clauses whose first goes on with the literals of a clause that is open. -/
def joined (opened : List Literal) : List (List Literal) → List (List Literal)
  | [] => []
  | clause :: rest => (opened ++ clause) :: rest

/-- An open clause without literals changes no clause. -/
@[simp] theorem joined_nil (clauses : List (List Literal)) : joined [] clauses = clauses := by
  cases clauses <;> rfl

/-- An open clause that goes on with another is one with the literals of both. -/
theorem joined_joined (opened more : List Literal) (clauses : List (List Literal)) :
    joined opened (joined more clauses) = joined (opened ++ more) clauses := by
  cases clauses <;> simp [joined]

/-- A stream read with a clause open closes the clauses it has, the first of them joined to that
one. -/
theorem closedFrom_fst_eq_joined (opened : List Literal) (stream : List Int32) :
    (closedFrom opened.reverse stream).1 = joined opened (closedClauses stream) := by
  induction stream generalizing opened with
  | nil => rfl
  | cons lit rest ih =>
    by_cases hlit : lit = 0
    · simp [closedClauses, closedFrom, hlit, joined]
    · have hgoes : ∀ opened : List Literal, closedFrom opened.reverse (lit :: rest) =
          closedFrom (opened ++ [Literal.ofInteger lit]).reverse rest := by
        intro opened
        rw [closedFrom, if_neg hlit, List.reverse_append]
        rfl
      rw [closedClauses, ← List.reverse_nil, hgoes, hgoes, ih, ih, joined_joined, List.nil_append]

/-- A stream that leaves nothing open leaves open what was, if it closes no clause. -/
theorem closedFrom_snd_of_closed (opened : List Literal) {stream : List Int32}
    (h : (closedFrom [] stream).2 = []) :
    (closedFrom opened.reverse stream).2 = if closedClauses stream = [] then opened else [] := by
  induction stream using List.reverseRecOn with
  | nil => simp [closedClauses, closedFrom]
  | append_singleton stream lit _ =>
    have hlit : lit = 0 := by
      by_contra hlit
      simp [closedFrom_append, hlit] at h
    simp [closedClauses, closedFrom_append, hlit]

/-! ## Sessions -/

/-- The integers added are those of the requests that add one. -/
theorem stream_inputs (requests : List Request) :
    stream (Engine.inputs requests) = requests.filterMap Request.added? := by
  rw [stream, Engine.inputs, List.filterMap_filterMap]
  refine List.filterMap_congr fun request _ => ?_
  cases request <;> rfl

namespace Session

open Cdcl (Solver)

variable {R : Type} [Random.Source R]

/-- What leads to a session can be recorded: the record follows the protocol, and the engine has
received the inputs accepted. -/
theorem exists_recorded (calls : List Call) :
    ∃ recorded : Session (Recorded (Solver R)), recorded.forget = after R calls ∧
      Follows recorded ∧ Engine.inputs recorded.requests = accepted R calls :=
  ⟨(ofRecorded Solver.initial).performAll calls, forget_performAll calls,
    (Follows.initial Solver.initial).performAll calls,
    (inputs_performAll calls).trans (List.nil_append _)⟩

/-- A clause is open on a session exactly if its engine has literals of an open clause. -/
theorem clauseOpen_eq_false_iff (calls : List Call) :
    (after R calls).clauseOpen = false ↔ (after R calls).engine.openClause.toList = [] := by
  obtain ⟨recorded, hforget, hfollows, hinputs⟩ := exists_recorded (R := R) calls
  have hstream : recorded.engine.log.filterMap (fun entry => entry.2.added?) =
      stream (accepted R calls) := by
    rw [← hinputs, stream_inputs, requests, List.filterMap_map]
    rfl
  have hopen : recorded.clauseOpen = (after R calls).clauseOpen := congrArg clauseOpen hforget
  rw [(represents_after calls).engine.openClause, closedFrom_snd_eq_nil_iff, ← hopen,
    ← Bool.not_eq_true, hfollows.clauseOpen, Log.ClauseOpen, hstream]
  simp only [Option.mem_def, not_exists, not_and, not_not]

/-- The clauses closed when a text is read that leaves nothing open. -/
theorem formula_read (calls : List Call) {source : Text.Source}
    (h : (closedFrom [] (Dimacs.added source.lines)).2 = []) :
    formula (accepted R (calls ++ [.read source])) =
        formula (accepted R calls) ++
          joined (after R calls).engine.openClause.toList
            (closedClauses (Dimacs.added source.lines)) ∧
      (after R (calls ++ [.read source])).engine.openClause.toList =
        if closedClauses (Dimacs.added source.lines) = [] then
          (after R calls).engine.openClause.toList
        else [] := by
  have hstream : stream (accepted R (calls ++ [.read source])) =
      stream (accepted R calls) ++ Dimacs.added source.lines := by
    have hadded : stream ((Dimacs.added source.lines).map .literal) =
        Dimacs.added source.lines := by
      rw [stream, List.filterMap_map]
      exact List.filterMap_some
    rw [accepted_append, stream_append, history, history, List.append_nil]
    exact congrArg _ hadded
  rw [(represents_after _).engine.openClause, (represents_after _).engine.openClause, formula,
    closedClauses, hstream, closedFrom_stream_append, closedFrom_fst_eq_joined,
    closedFrom_snd_of_closed _ h]
  exact ⟨rfl, rfl⟩

/-- After a text that leaves nothing open, a clause is open if one was before and the text closes
none. -/
theorem clauseOpen_read (calls : List Call) {source : Text.Source}
    (h : (closedFrom [] (Dimacs.added source.lines)).2 = []) :
    (after R (calls ++ [.read source])).clauseOpen =
      ((after R calls).clauseOpen && (closedClauses (Dimacs.added source.lines)).isEmpty) := by
  have hbefore := clauseOpen_eq_false_iff (R := R) calls
  have hafter := clauseOpen_eq_false_iff (R := R) (calls ++ [.read source])
  obtain ⟨-, hopened⟩ := formula_read (R := R) calls h
  by_cases hnone : closedClauses (Dimacs.added source.lines) = []
  · rw [hnone, List.isEmpty_nil, Bool.and_true, Bool.eq_iff_iff, ← not_iff_not, Bool.not_eq_true,
      Bool.not_eq_true, hafter, hopened, if_pos hnone, hbefore]
  · have hshut := hafter.2 (hopened.trans (if_neg hnone))
    simp [hshut, hnone]

/-- What has been closed stays closed. -/
theorem formula_prefix (calls more : List Call) :
    formula (accepted R calls) <+: formula (accepted R (calls ++ more)) := by
  rw [accepted_append, formula, formula, closedClauses, closedClauses, stream_append,
    closedFrom_stream_append]
  exact List.prefix_append _ _

/-- A text that is read goes on with the clause that is open.  If it is accepted, the engine
receives its integers; of the clauses that they close, which are as many as reported, the first
takes in the literals that were open before, and if there is none those literals stay open.  So if
no clause was open, the clauses closed are those of the text, no clause is open afterwards, and
whenever a later solve finds the formula satisfiable a client sees that each of them has a true
literal. -/
theorem read_goes_on_with_open_clause (calls : List Call) (source : Text.Source)
    (summary : Dimacs.Summary) (h : (Dimacs.read (after R calls) source).2 = .ok summary) :
    let s := after R calls
    let s' := (Dimacs.read s source).1
    let opened := s.engine.openClause.toList
    ∃ integers announced, Dimacs.Denotes (Dimacs.items source) integers announced ∧
      (Dimacs.read s.record source).1.requests = integers.map .add ∧
      (closedFrom [] integers).2 = [] ∧ (closedClauses integers).length = summary.clauses ∧
      formula (accepted R (calls ++ [.read source])) =
        formula (accepted R calls) ++ joined opened (closedClauses integers) ∧
      s'.engine.openClause.toList = (if closedClauses integers = [] then opened else []) ∧
      s'.clauseOpen = (s.clauseOpen && (closedClauses integers).isEmpty) ∧
      (s.clauseOpen = false →
        formula (accepted R (calls ++ [.read source])) =
            formula (accepted R calls) ++ closedClauses integers ∧
          s'.clauseOpen = false ∧
          ∀ more, (after R (calls ++ .read source :: more)).solve.2 = .ok .satisfiable →
            ∀ clause ∈ closedClauses integers, ∃ l ∈ clause,
              (after R (calls ++ .read source :: more)).solve.1.value l.toInteger =
                .ok (some true)) := by
  intro s s' opened
  obtain ⟨hreads, hrequests⟩ := Dimacs.reads_read s.record source
  have hresult : (Dimacs.read s.record source).2 = .ok summary :=
    (forget_read (s := s.record) source).2.trans h
  rw [hresult] at hreads
  obtain ⟨announced, hdenotes, hlast, rfl⟩ := hreads.of_ok
  have hclosed := closedFrom_snd_eq_nil_iff.2 hlast
  obtain ⟨hformula, hopened⟩ := formula_read (R := R) calls hclosed
  have hafter : after R (calls ++ [.read source]) = s' := after_append calls _
  have hopen := clauseOpen_read (R := R) calls hclosed
  rw [hafter] at hopened hopen
  refine ⟨_, _, hdenotes, hrequests, hclosed, length_closedFrom _ _, hformula, hopened, hopen,
    fun hnone => ?_⟩
  have hempty : opened = [] := (clauseOpen_eq_false_iff calls).1 hnone
  have hjoined : joined opened (closedClauses (Dimacs.added source.lines)) =
      closedClauses (Dimacs.added source.lines) := by
    rw [hempty, joined_nil]
  have hsame := hformula.trans (congrArg _ hjoined)
  refine ⟨hsame, by rw [hopen, hnone, Bool.false_and], fun more hsolve clause hclause => ?_⟩
  apply (represents_after _).exists_value_of_mem_formula hsolve
  have hlater := formula_prefix (R := R) (calls ++ [.read source]) more
  rw [List.append_assoc, List.singleton_append, hsame] at hlater
  exact hlater.subset (List.mem_append_right _ hclause)

/-- Such a text: the literal that was open before is in the clause that it closes. -/
theorem read_goes_on_with_open_clause_of_literal :
    let source := Text.Source.ofString "-1 0\n"
    let s := after Random.Pcg [.add 1]
    (Dimacs.read s source).2 = .ok { clauses := 1 } ∧
      ∃ integers announced, Dimacs.Denotes (Dimacs.items source) integers announced ∧
        formula (accepted Random.Pcg [.add 1, .read source]) =
          joined [⟨0, true⟩] (closedClauses integers) := by
  intro source s
  have h : (Dimacs.read s source).2 = .ok { clauses := 1 } := by decide +kernel
  obtain ⟨integers, announced, hdenotes, -, -, -, hformula, -⟩ :=
    read_goes_on_with_open_clause [.add 1] source _ h
  exact ⟨h, integers, announced, hdenotes, hformula⟩

/-- Reading a formula can mix with a clause left open: a text that has one clause, the negation of
an atom, is accepted, and then a solve finds the atom true; and a text without a clause is accepted
and leaves a clause open. -/
theorem read_mixes_with_open_clause :
    let s := after Random.Pcg [.add 1]
    let source := Text.Source.ofString "-1 0\n"
    let read := Dimacs.read s source
    closedClauses (Dimacs.added source.lines) = [[⟨0, false⟩]] ∧
      read.2 = .ok { clauses := 1 } ∧ read.1.solve.2 = .ok .satisfiable ∧
      read.1.solve.1.value (-1) = .ok (some false) ∧
      (Dimacs.read s (.ofString "")).2 = .ok { clauses := 0 } ∧
      (Dimacs.read s (.ofString "")).1.clauseOpen = true := by
  decide +kernel

end Session

end IncrementalSat
