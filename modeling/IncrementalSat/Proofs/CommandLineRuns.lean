import IncrementalSat.Proofs.RunStages

/-!
# Runs of the command-line program

A run that does not fail comes to solve a session that has accepted the integers of the text and the
assumptions.  No clause is open there, so that the solve is accepted, or nothing was given and there
is nothing to solve.  What is printed then is read off the session, and what the session shows is
right.
-/

set_option autoImplicit false

namespace IncrementalSat

open Input
open Session (Call after accepted)

namespace CommandLine

variable {r : Request} {integers assumptions : List Int32} {outcome : Outcome}
  {comments : List String} {s : Session ReferenceSolver}

/-! ## What a run is to tell -/

/-- A valuation makes the clauses that integers close and the assumptions true. -/
def Solves (integers assumptions : List Int32) (v : Valuation) : Prop :=
  Models v (closedClauses integers) ∧ ∀ lit ∈ assumptions, (Literal.ofInteger lit).Holds v

/-- Literals give each atom a value, in order, and make every clause and every assumption true. -/
structure Decides (integers assumptions literals : List Int32) : Prop where
  atoms : literals.map (fun lit => lit.toInt.natAbs) =
    List.range' 1 (largestAtom (runInputs integers assumptions))
  clauses : ∀ clause ∈ closedClauses integers, ∃ l ∈ clause, l.toInteger ∈ literals
  assumptions : ∀ lit ∈ assumptions, lit ∈ literals

/-- An outcome tells, and rightly so, that there is a solution. -/
structure ReportsSatisfiable (r : Request) (integers : List Int32) (outcome : Outcome) : Prop where
  verdict : outcome.marked 's' = ["s SATISFIABLE"]
  code : outcome.code = 10
  solution : ∃ v, Solves integers r.assumptions v
  values : r.showModel = true → ∃ line literals, outcome.marked 'v' = [line] ∧
    Lists 'v' literals line ∧ Decides integers r.assumptions literals

/-- An outcome tells, and rightly so, that there is no solution. -/
structure ReportsUnsatisfiable (r : Request) (integers : List Int32) (outcome : Outcome) :
    Prop where
  verdict : outcome.marked 's' = ["s UNSATISFIABLE"]
  code : outcome.code = 20
  noSolution : ∀ v, ¬ Solves integers r.assumptions v
  failed : r.showFailed = true → ∃ line failed, outcome.marked 'f' = [line] ∧
    Lists 'f' failed line ∧ failed.Sublist r.assumptions ∧ ∀ v, ¬ Solves integers failed v

/-- An outcome tells that nothing is known. -/
structure ReportsUnknown (outcome : Outcome) : Prop where
  verdict : outcome.marked 's' = ["s UNKNOWN"]
  code : outcome.code = 0

/-- An outcome has one verdict, which is right. -/
def Answers (r : Request) (integers : List Int32) (outcome : Outcome) : Prop :=
  ReportsSatisfiable r integers outcome ∨ ReportsUnsatisfiable r integers outcome ∨
    ReportsUnknown outcome

/-- An answer stands when comments are printed before it. -/
theorem Answers.after (h : Answers r integers outcome)
    (hremarks : ∀ line ∈ comments, IsRemark line) :
    Answers r integers (outcome.after comments) := by
  have hverdict := marked_after hremarks outcome 's' (by decide)
  have hvalues := marked_after hremarks outcome 'v' (by decide)
  have hfailed := marked_after hremarks outcome 'f' (by decide)
  rcases h with h | h | h
  · refine .inl ⟨hverdict.trans h.verdict, h.code, h.solution, fun hshow => ?_⟩
    rw [hvalues]
    exact h.values hshow
  · refine .inr (.inl ⟨hverdict.trans h.verdict, h.code, h.noSolution, fun hshow => ?_⟩)
    rw [hfailed]
    exact h.failed hshow
  · exact .inr (.inr ⟨hverdict.trans h.verdict, h.code⟩)

/-! ## Solving -/

/-- At each index a literal of the atom that follows is shown. -/
theorem exists_assignment (hstage : s.stage = .sat) (hsmall : s.engine.atoms < 2 ^ 31)
    (hcomplete : s.engine.Complete) {i : Nat} (hi : i < s.engine.atoms) :
    ∃ lit, s.assignment (Int32.ofNat i) = .ok lit ∧ lit ≠ 0 ∧ lit.toInt.natAbs = i + 1 := by
  have hindex : (Int32.ofNat i).toInt = i := Int32.toInt_ofNat_of_lt (by omega)
  obtain ⟨hproper, hvalue⟩ := Session.index_succ (Int32.ofNat i) (by omega) (by omega)
  have hatom : (Int32.ofNat i + 1).toInt.natAbs = i + 1 := by omega
  refine ⟨_, Session.assignment_eq_val hstage hsmall (by omega) (by omega),
    hcomplete.val_ne_zero hproper (by omega), ?_⟩
  rcases hcomplete.val_eq_or hproper (by omega) with hval | hval
  · rw [hval, hatom]
  · rw [hval, toInt_neg_of_isMalformed hproper, Int.natAbs_neg, hatom]

/-- What is shown goes through the indices below the number of atoms. -/
theorem valuation_eq (hstage : s.stage = .sat) (hsmall : s.engine.atoms < 2 ^ 31) :
    valuation s = (List.range s.engine.atoms).filterMap fun i =>
      match s.assignment (Int32.ofNat i) with
      | .ok lit => if lit = 0 then none else some lit
      | .error _ => none := by
  have hsize : (Int32.ofNat s.engine.atoms).toInt.toNat = s.engine.atoms := by
    rw [Int32.toInt_ofNat_of_lt hsmall, Int.toNat_natCast]
  unfold valuation
  rw [Session.assignmentSize_eq hstage]
  exact congrArg (List.filterMap _) (congrArg List.range hsize)

/-- The atoms of the valuation that is shown are those with room, in order. -/
theorem map_natAbs_valuation (hstage : s.stage = .sat) (hsmall : s.engine.atoms < 2 ^ 31)
    (hcomplete : s.engine.Complete) :
    (valuation s).map (fun lit => lit.toInt.natAbs) = List.range' 1 s.engine.atoms := by
  rw [valuation_eq hstage hsmall, List.map_filterMap, List.range'_eq_map_range,
    ← List.filterMap_eq_map]
  refine List.filterMap_congr fun i hi => ?_
  obtain ⟨lit, hlit, hne, hatom⟩ :=
    exists_assignment hstage hsmall hcomplete (List.mem_range.1 hi)
  simp [hlit, hne, hatom, Nat.add_comm]

/-- A literal of an atom with room that is true is shown. -/
theorem mem_valuation (hstage : s.stage = .sat) (hsmall : s.engine.atoms < 2 ^ 31) {lit : Int32}
    (hlit : isMalformed lit = false) (hroom : lit.toInt.natAbs ≤ s.engine.atoms)
    (htrue : s.engine.val lit = lit) : lit ∈ valuation s := by
  have hvalue := isMalformed_eq_false_iff.1 hlit
  have hshown := Session.assignment_eq_val_of_literal hstage hsmall hlit hroom
  rw [htrue] at hshown
  rw [valuation_eq hstage hsmall, List.mem_filterMap]
  refine ⟨lit.toInt.natAbs - 1, List.mem_range.2 (by omega), ?_⟩
  simp [hshown, (ne_zero_of_isMalformed hlit).1]

/-- The line of a valuation lists its integers and ends with a zero. -/
theorem modelLine_lists (s : Session ReferenceSolver) : Lists 'v' (valuation s) (modelLine s) := by
  unfold modelLine
  split
  · rename_i hnone
    rw [hnone]
    exact ⟨[], by decide +kernel, .nil⟩
  · exact lists_intercalate (by decide) (by decide) _

/-- The line of a valuation begins with its mark. -/
theorem head?_modelLine (s : Session ReferenceSolver) :
    (modelLine s).toList.head? = some 'v' := by
  unfold modelLine
  split
  · decide
  · simp

/-- The line of failed assumptions begins with its mark. -/
theorem head?_failedLine (s : Session ReferenceSolver) (assumptions : List Int32) :
    (failedLine s assumptions).toList.head? = some 'f' := by
  simp [failedLine]

/-- A report has one verdict, and shows no more than it was asked for. -/
theorem marked_report (r : Request) (s : Session ReferenceSolver) (verdict : Verdict) :
    (report r s verdict).marked 's' = ["s " ++ verdict.text] ∧
      (verdict = .satisfiable → r.showModel = true →
        (report r s verdict).marked 'v' = [modelLine s]) ∧
      (verdict = .unsatisfiable → r.showFailed = true →
        (report r s verdict).marked 'f' = [failedLine s r.assumptions]) := by
  have hmodel := head?_modelLine s
  have hfailed := head?_failedLine s r.assumptions
  cases verdict with
  | satisfiable => cases hshow : r.showModel <;> simp [Outcome.marked, report, hshow, hmodel]
  | unsatisfiable => cases hshow : r.showFailed <;> simp [Outcome.marked, report, hshow, hfailed]
  | unknown => simp [Outcome.marked, report]

/-- Integers between spaces stay in one line. -/
theorem oneLine_literals (literals : List Int32) :
    OneLine (" ".intercalate (literals.map literalText)) :=
  oneLine_intercalate (List.forall_mem_map.2 fun lit _ => oneLine_literalText lit)

/-- The line of a valuation is one line. -/
theorem oneLine_modelLine (s : Session ReferenceSolver) : OneLine (modelLine s) := by
  unfold modelLine
  split
  · decide
  · exact oneLine_append.2 ⟨oneLine_append.2 ⟨by decide, oneLine_literals _⟩, by decide⟩

/-- The line of failed assumptions is one line. -/
theorem oneLine_failedLine (s : Session ReferenceSolver) (assumptions : List Int32) :
    OneLine (failedLine s assumptions) :=
  oneLine_append.2 ⟨oneLine_append.2 ⟨by decide, oneLine_literals _⟩, by decide⟩

/-- A report prints line by line, and no line tells that a solve was refused. -/
theorem tidy_report (r : Request) (s : Session ReferenceSolver) (verdict : Verdict) :
    Tidy (report r s verdict) := by
  have htidy : ∀ {line : String} {mark : Char}, OneLine line → line.toList.head? = some mark →
      mark ≠ 'c' → OneLine line ∧ ¬ "c Solve error".toList <+: line.toList := by
    rintro line mark hline hhead hmark
    refine ⟨hline, ?_⟩
    rintro ⟨rest, hrest⟩
    rw [← hrest] at hhead
    exact hmark (Option.some.inj hhead).symm
  have hverdict := @htidy ("s " ++ verdict.text) 's' (by cases verdict <;> decide) (by simp)
    (by decide)
  have hmodel := htidy (oneLine_modelLine s) (head?_modelLine s) (by decide)
  have hfailed := htidy (oneLine_failedLine s r.assumptions) (head?_failedLine s r.assumptions)
    (by decide)
  refine List.forall_mem_cons.2 ⟨hverdict, ?_⟩
  cases verdict with
  | satisfiable =>
    dsimp only
    split
    · exact List.forall_mem_singleton.2 hmodel
    · exact List.forall_mem_nil _
  | unsatisfiable =>
    dsimp only
    split
    · exact List.forall_mem_singleton.2 hfailed
    · exact List.forall_mem_nil _
  | unknown => exact List.forall_mem_nil _

/-- A true literal is read off as its own value. -/
theorem val_eq_of_value (hstage : s.stage = .sat) {lit : Int32} (hlit : isMalformed lit = false)
    (h : s.value lit = .ok (some true)) : s.engine.val lit = lit := by
  rw [Session.value_eq_val hstage hlit, Except.ok.injEq] at h
  split at h
  · cases h
  · simpa using h

/-- What is shown of a satisfiable formula makes its clauses and the assumptions true. -/
theorem decides_valuation {calls : List Call}
    (hinputs : accepted Random.Pcg calls = runInputs integers assumptions)
    (hsolve : (after Random.Pcg calls).solve.2 = .ok .satisfiable) :
    Decides integers assumptions (valuation (after Random.Pcg calls).solve.1) := by
  have hrep := Session.represents_after (R := Random.Pcg) calls
  obtain ⟨-, -, -, hstage⟩ := Session.of_solve_eq_ok hsolve
  have hatoms : (after Random.Pcg calls).solve.1.engine.atoms =
      largestAtom (runInputs integers assumptions) :=
    hinputs ▸ hrep.atoms_solve hsolve
  have hsmall : (after Random.Pcg calls).solve.1.engine.atoms < 2 ^ 31 := by
    rw [hatoms, ← hinputs]
    exact hrep.engine.largestAtom_lt
  have hsolved : after Random.Pcg (calls ++ [.solve]) = (after Random.Pcg calls).solve.1 :=
    Session.after_append calls .solve
  have hcomplete : (after Random.Pcg calls).solve.1.engine.Complete := by
    rw [← hsolved] at hstage ⊢
    exact Session.complete_of_sat .initial hstage
  have hmem : ∀ {lit : Int32}, isMalformed lit = false →
      (Literal.ofInteger lit).atom < largestAtom (accepted Random.Pcg calls) →
      (after Random.Pcg calls).solve.1.value lit = .ok (some true) →
      lit ∈ valuation (after Random.Pcg calls).solve.1 := by
    intro lit hproper hroom hvalue
    have hatom := Literal.atom_ofInteger_lt (ne_zero_of_isMalformed hproper).1
    rw [hinputs, ← hatoms] at hroom
    exact mem_valuation hstage hsmall hproper (by omega) (val_eq_of_value hstage hproper hvalue)
  have hformula : formula (accepted Random.Pcg calls) = closedClauses integers := by
    rw [hinputs, formula, stream_runInputs]
  constructor
  case atoms => rw [← hatoms, map_natAbs_valuation hstage hsmall hcomplete]
  case clauses =>
    intro clause hclause
    rw [← hformula] at hclause
    obtain ⟨l, hl, hvalue⟩ := hrep.exists_value_of_mem_formula hsolve hclause
    obtain ⟨hroom, hproper, hround⟩ := hrep.of_mem_formula hclause hl
    exact ⟨l, hl, hmem hproper (hround.symm ▸ hroom) hvalue⟩
  case assumptions =>
    intro lit hlit
    have hpending : lit ∈ pending (accepted Random.Pcg calls) := by
      rwa [hinputs, pending_runInputs]
    obtain ⟨hproper, hroom⟩ := hrep.of_mem_pending hpending
    exact hmem hproper hroom (hrep.value_of_mem_pending hsolve hpending)

/-- After calls with the inputs of a run, a solve that finds them satisfiable is reported with
truth. -/
theorem reportsSatisfiable {calls : List Call}
    (hinputs : accepted Random.Pcg calls = runInputs integers r.assumptions)
    (hsolve : (after Random.Pcg calls).solve.2 = .ok .satisfiable) :
    ReportsSatisfiable r integers (report r (after Random.Pcg calls).solve.1 .satisfiable) := by
  obtain ⟨hverdict, hvalues, -⟩ := marked_report r (after Random.Pcg calls).solve.1 .satisfiable
  obtain ⟨-, hmodels, hassumed⟩ := (Session.represents_after calls).valuation_models hsolve
  rw [hinputs, formula, stream_runInputs] at hmodels
  rw [hinputs, pending_runInputs] at hassumed
  exact ⟨hverdict, rfl, ⟨_, hmodels, hassumed⟩, fun hshow =>
    ⟨_, _, hvalues rfl hshow, modelLine_lists _, decides_valuation hinputs hsolve⟩⟩

/-- After calls with the inputs of a run, a solve that finds them unsatisfiable is reported with
truth. -/
theorem reportsUnsatisfiable {calls : List Call}
    (hinputs : accepted Random.Pcg calls = runInputs integers r.assumptions)
    (hsolve : (after Random.Pcg calls).solve.2 = .ok .unsatisfiable) :
    ReportsUnsatisfiable r integers
      (report r (after Random.Pcg calls).solve.1 .unsatisfiable) := by
  have hrep := Session.represents_after (R := Random.Pcg) calls
  obtain ⟨hverdict, -, hfailed⟩ := marked_report r (after Random.Pcg calls).solve.1 .unsatisfiable
  have hformula : formula (accepted Random.Pcg calls) = closedClauses integers := by
    rw [hinputs, formula, stream_runInputs]
  have hassumed : ∀ lit, (after Random.Pcg calls).solve.1.failed lit = .ok true →
      lit ∈ r.assumptions := by
    intro lit hlit
    have hpending := hrep.mem_pending_of_failed hsolve hlit
    rwa [hinputs, pending_runInputs] at hpending
  -- whatever holds where the failed assumptions do is no model
  have hrefuted : ∀ literals : List Int32,
      (∀ lit, (after Random.Pcg calls).solve.1.failed lit = .ok true → lit ∈ literals) →
      ∀ v, ¬ Solves integers literals v := by
    rintro literals hmem v ⟨hmodels, hholds⟩
    exact hrep.not_holds_of_failed hsolve (hformula ▸ hmodels) fun lit hlit =>
      hholds lit (hmem lit hlit)
  refine ⟨hverdict, rfl, hrefuted _ hassumed, fun hshow => ⟨_, _, hfailed rfl hshow,
    lists_intercalate (by decide) (by decide) _, List.filter_sublist, hrefuted _ ?_⟩⟩
  intro lit hlit
  simp [hassumed lit hlit, hlit]

/-- A run without clauses and assumptions has nothing to solve. -/
theorem reportsSatisfiable_of_config (hs : s.HasAccepted (runInputs integers r.assumptions))
    (hconfig : s.stage = .config) : ReportsSatisfiable r integers (report r s .satisfiable) := by
  have hsolves := hs.stage_eq_config_iff.1 hconfig
  have hintegers : integers = [] := List.eq_nil_iff_forall_not_mem.2 fun lit hlit => by
    cases hsolves _ (List.mem_append_left _ (List.mem_map_of_mem hlit))
  have hassumptions : r.assumptions = [] := List.eq_nil_iff_forall_not_mem.2 fun lit hlit => by
    cases hsolves _ (List.mem_append_right _ (List.mem_map_of_mem hlit))
  obtain ⟨hverdict, hvalues, -⟩ := marked_report r s .satisfiable
  have hempty : valuation s = [] := by
    simp [valuation, Session.assignmentSize, hconfig]
  subst hintegers
  refine ⟨hverdict, rfl, ⟨fun _ => false, ?_, ?_⟩, fun hshow =>
    ⟨_, _, hvalues rfl hshow, modelLine_lists s, ?_⟩⟩
  · exact List.forall_mem_nil _
  · simp [hassumptions]
  · rw [hempty, hassumptions]
    exact ⟨rfl, List.forall_mem_nil _, List.forall_mem_nil _⟩

/-- The last stage of a run is not refused, and its answer is right. -/
theorem answers_runSolve (hs : s.HasAccepted (runInputs integers r.assumptions))
    (hclosed : (closedFrom [] integers).2 = []) :
    Answers r integers (runSolve r s) ∧ Tidy (runSolve r s) := by
  by_cases hconfig : s.stage = .config
  · have hremarks : ∀ line ∈ [comment "No clauses or assumptions were given"], IsRemark line :=
      List.forall_mem_singleton.2 (isRemark_comment (by decide) (by simp))
    have hanswers : Answers r integers (report r s .satisfiable) :=
      .inl (reportsSatisfiable_of_config hs hconfig)
    unfold runSolve
    rw [if_pos hconfig]
    exact ⟨hanswers.after hremarks, (tidy_report r s .satisfiable).after hremarks⟩
  · rw [← stream_runInputs integers r.assumptions] at hclosed
    have hsolve := Session.solve_accepted hconfig (hs.clauseOpen_eq_false hclosed)
    obtain ⟨calls, rfl, hinputs⟩ := hs
    have hrun : runSolve r (after Random.Pcg calls) = report r (after Random.Pcg calls).solve.1
        (after Random.Pcg calls).engine.solve.verdict := by
      unfold runSolve
      rw [if_neg hconfig, ← Prod.mk.eta (p := (after Random.Pcg calls).solve), hsolve]
    rw [hrun]
    refine ⟨?_, tidy_report _ _ _⟩
    cases hverdict : (after Random.Pcg calls).engine.solve.verdict with
    | satisfiable => exact .inl (reportsSatisfiable hinputs (hverdict ▸ hsolve))
    | unsatisfiable => exact .inr (.inl (reportsUnsatisfiable hinputs (hverdict ▸ hsolve)))
    | unknown =>
      exact .inr (.inr ⟨(marked_report r _ .unknown).1, rfl⟩)

/-! ## Runs -/

/-- A failure prints no line with a mark other than that of comments. -/
theorem IsFailure.marked_eq_nil (h : IsFailure outcome) {mark : Char} (hmark : mark ≠ 'c') :
    outcome.marked mark = [] := by
  rw [Outcome.marked, List.filter_eq_nil_iff]
  intro line hline
  rw [(h.remarks line hline).comment]
  simpa using hmark.symm

/-- An answer has another exit code than a failure. -/
theorem Answers.code_ne_one (h : Answers r integers outcome) : outcome.code ≠ 1 := by
  rcases h with h | h | h <;> rw [h.code] <;> decide

/-- The text of a tidy outcome has the lines of the outcome. -/
theorem Tidy.splitOn_text (h : Tidy outcome) :
    outcome.text.toList.splitOn '\n' = outcome.lines.map String.toList ++ [[]] := by
  obtain ⟨lines, code⟩ := outcome
  rw [Outcome.text, String.toList_join, List.flatMap_map]
  induction lines with
  | nil => rfl
  | cons line rest ih =>
    obtain ⟨⟨hline, -⟩, hrest⟩ := List.forall_mem_cons.1 h
    have hsplit : (line ++ "\n").toList = line.toList ++ ['\n'] := String.toList_append
    rw [List.flatMap_cons, hsplit, List.append_assoc, List.singleton_append,
      List.splitOn_append_cons_self_of_not_mem hline, ih hrest]
    rfl

/-- The program tells the truth.  Let arguments ask for a run that lists no options, with any files
and any standard input.  The run exits with one, and prints nothing but comments, exactly if a
setting is refused, the path is that of a compressed file or cannot be opened, the text cannot be
read, or an assumption is no literal; that a solve was refused is never printed.  Otherwise there is
one verdict, and the code goes with it.  If it is that the clauses of the text and the assumptions
are satisfiable, then they are, and the valuation shows each atom of the text and the assumptions
once, in order, and makes all of them true.  If it is that they are not, then they are not, and
neither are the clauses with the assumptions that are shown to have failed. -/
theorem run_tells_the_truth (arguments : List String) (input : Text.Source)
    (file : String → Except ReadFailure Text.Source) (r : Request)
    (hparse : Arguments.parse arguments = .run r) (hlist : r.listOptions = false)
    (hnames : ∀ setting ∈ r.settings, '\n' ∉ setting.1.toList) :
    let outcome := run arguments input file
    outcome.text.toList.splitOn '\n' = outcome.lines.map String.toList ++ [[]] ∧
      (∀ line ∈ outcome.lines, ¬ "c Solve error".toList <+: line.toList) ∧
      (outcome.code = 1 ↔ r.Fails input file) ∧
      (r.Fails input file →
        outcome.marked 's' = [] ∧ outcome.marked 'v' = [] ∧ outcome.marked 'f' = []) ∧
      (¬ r.Fails input file → ∃ source integers summary, r.Finds input file source ∧
        Dimacs.Reads (Dimacs.items source) integers (.ok summary) ∧
        Answers r integers outcome) := by
  intro outcome
  have hproceeds : Proceeds (r.Fails input file) (Solving r input file) outcome :=
    proceeds_run hparse hlist hnames
  cases hproceeds with
  | fails hcause hfailure =>
    exact ⟨hfailure.tidy.splitOn_text, fun line hline => (hfailure.tidy line hline).2,
      iff_of_true hfailure.code hcause, fun _ => ⟨hfailure.marked_eq_nil (by decide),
        hfailure.marked_eq_nil (by decide), hfailure.marked_eq_nil (by decide)⟩,
      fun hnot => absurd hcause hnot⟩
  | goesOn hcause hremarks hsolving houtcome =>
    obtain ⟨source, integers, summary, s, hfinds, hreads, hs, rfl⟩ := hsolving
    obtain ⟨announced, -, hlast, -⟩ := hreads.of_ok
    obtain ⟨hanswers, htidy⟩ := answers_runSolve hs (closedFrom_snd_eq_nil_iff.2 hlast)
    have hanswers := hanswers.after hremarks
    have htidy := htidy.after hremarks
    rw [← houtcome] at hanswers htidy
    exact ⟨htidy.splitOn_text, fun line hline => (htidy line hline).2,
      iff_of_false hanswers.code_ne_one hcause, fun h => absurd h hcause,
      fun _ => ⟨source, integers, summary, hfinds, hreads, hanswers⟩⟩

/-- Such a run: with the second atom assumed to be false the first one is true. -/
theorem run_tells_the_truth_of_clause :
    let arguments := ["-m", "--set", "phase=0", "-a", "-2", "formula"]
    let file : String → Except ReadFailure Text.Source := fun _ => .ok (.ofString "1 2 0\n")
    let r : Request :=
      { path := some "formula", settings := [("phase", 0)], assumptions := [-2], showModel := true }
    let outcome := run arguments (.ofString "") file
    Arguments.parse arguments = .run r ∧ r.listOptions = false ∧
      (∀ setting ∈ r.settings, '\n' ∉ setting.1.toList) ∧
      outcome.lines = ["c ipasir2_adapter-cdcl-0.1.0", "c phase set to 0",
        "c Reading DIMACS file from \"formula\"", "s SATISFIABLE", "v 1 -2 0"] ∧
      ¬ r.Fails (.ofString "") file ∧
      ∃ source integers, r.Finds (.ofString "") file source ∧
        ReportsSatisfiable r integers outcome := by
  intro arguments file r outcome
  have hparse : Arguments.parse arguments = .run r := by decide +kernel
  have hnames : ∀ setting ∈ r.settings, '\n' ∉ setting.1.toList := by decide +kernel
  have hcode : outcome.code = 10 := by decide +kernel
  obtain ⟨-, -, hfails, -, hanswers⟩ :=
    run_tells_the_truth arguments (.ofString "") file r hparse rfl hnames
  have hnot : ¬ r.Fails (.ofString "") file := fun h =>
    absurd (hcode.symm.trans (hfails.2 h)) (by decide)
  obtain ⟨source, integers, summary, hfinds, -, h | h | h⟩ := hanswers hnot
  · exact ⟨hparse, rfl, hnames, by decide +kernel, hnot, source, integers, hfinds, h⟩
  · exact absurd (hcode.symm.trans h.code) (by decide)
  · exact absurd (hcode.symm.trans h.code) (by decide)

end CommandLine

end IncrementalSat
