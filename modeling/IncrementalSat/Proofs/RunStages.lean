import IncrementalSat.Proofs.PrintedLines
import IncrementalSat.Proofs.ValuationViews

/-!
# Stages of a run

A run of the program goes through stages, each of which prints comments and either fails or goes on:
options are set, a formula is found and read, literals are assumed, and the session is solved.
Whether a stage fails is decided by the request and the text alone, not by what came before it; and
when the last one is reached, the session has accepted the integers of the text and then the
assumptions.
-/

set_option autoImplicit false

namespace IncrementalSat

open Input
open Session (Call after accepted)

/-! ## Sessions by what they have accepted -/

namespace Session

variable {R : Type} [Random.Source R] {s s' : Session (Cdcl.Solver R)} {inputs : List Input}

/-- A session for a fresh solver that has accepted some inputs, in order. -/
def HasAccepted (inputs : List Input) (s : Session (Cdcl.Solver R)) : Prop :=
  ∃ calls, s = after R calls ∧ accepted R calls = inputs

namespace HasAccepted

/-- A session for a fresh solver has accepted nothing. -/
theorem ofEngine : HasAccepted [] (Session.ofEngine (Cdcl.Solver.initial : Cdcl.Solver R)) :=
  ⟨[], rfl, rfl⟩

/-- A call adds the inputs that it has accepted. -/
theorem perform (h : HasAccepted inputs s) (call : Call) :
    HasAccepted (inputs ++ s.inputs call) (s.perform call) := by
  obtain ⟨calls, rfl, rfl⟩ := h
  refine ⟨calls ++ [call], (after_append calls call).symm, ?_⟩
  rw [accepted_append, history, history, List.append_nil]

/-- A session is in configuration as long as it has accepted no literal and no assumption. -/
theorem stage_eq_config_iff (h : HasAccepted inputs s) :
    s.stage = .config ↔ ∀ i ∈ inputs, i = .solve := by
  obtain ⟨calls, rfl, rfl⟩ := h
  rw [← not_iff_not, ← ne_eq, stage_ne_config_iff]
  simp

/-- No clause is open if the integers added end with a zero. -/
theorem clauseOpen_eq_false (h : HasAccepted inputs s)
    (hclosed : (closedFrom [] (stream inputs)).2 = []) : s.clauseOpen = false := by
  obtain ⟨calls, rfl, rfl⟩ := h
  rw [clauseOpen_eq_false_iff, (represents_after calls).engine.openClause, hclosed]

end HasAccepted

/-- How the solver answers a write does not depend on what it is. -/
theorem answer_write_congr {e : Cdcl.Solver R} {name : String} {descriptor : Descriptor}
    {target : Target} (h : Catalog.lookup e name = some (descriptor, target))
    (engine engine' : Cdcl.Solver R) (value : Int) :
    Engine.answer engine (target.request name value) =
      Engine.answer engine' (target.request name value) := by
  obtain ⟨kind, -, -, rfl⟩ | ⟨-, o, hmem, rfl, -, -, rfl⟩ := Catalog.lookup_eq_some h
  · show (engine.setLimit kind value).2 = (engine'.setLimit kind value).2
    unfold Cdcl.Solver.setLimit
    dsimp only
    split
    · rfl
    split
    · rfl
    · rfl
  · obtain ⟨t, rfl⟩ := Cdcl.Setting.exists_of_mem_registry hmem
    show (engine.setOption t.entry.name value).2 = (engine'.setOption t.entry.name value).2
    by_cases haccepts : t.entry.accepts value = true
    · rw [(Cdcl.Solver.setOption_of_accepts haccepts).1,
        (Cdcl.Solver.setOption_of_accepts haccepts).1]
    · rw [Cdcl.Solver.setOption_of_not_accepts haccepts,
        Cdcl.Solver.setOption_of_not_accepts haccepts]

/-- Whether a setting is refused depends on the stage, and not on what was set before. -/
theorem setOption_congr (hstage : s.stage = s'.stage) (name : String) (value : Int) :
    (s.setOption name value 0).2 = (s'.setOption name value 0).2 := by
  have hlookup : Catalog.lookup s.engine name = Catalog.lookup s'.engine name := rfl
  cases hfound : Catalog.lookup s'.engine name with
  | none =>
    rw [(setOption_unknown (hlookup.trans hfound) value 0).1, (setOption_unknown hfound value 0).1]
  | some found =>
    obtain ⟨descriptor, target⟩ := found
    by_cases hlate : descriptor.maxStage.rank < s'.stage.rank
    · rw [(setOption_late (hlookup.trans hfound) (hstage ▸ hlate) value 0).1,
        (setOption_late hfound hlate value 0).1]
    · rw [(setOption_request (hlookup.trans hfound) (hstage ▸ not_lt.1 hlate) value).1,
        (setOption_request hfound (not_lt.1 hlate) value).1]
      exact congrArg (Except.mapError EngineRefusal.refusal)
        (answer_write_congr hfound s.engine s'.engine value)

/-- Only an option of the catalog is set. -/
theorem name_of_setOption_eq_ok {name : String} {value : Int}
    (h : (s.setOption name value 0).2 = .ok ()) :
    (∃ entry ∈ limitOptions, entry.1.name = name) ∨
      ∃ setting : Cdcl.Setting, setting.entry.name = name := by
  cases hfound : Catalog.lookup s.engine name with
  | none =>
    rw [(setOption_unknown hfound value 0).1] at h
    cases h
  | some found =>
    obtain ⟨kind, hmem, hname, -⟩ | ⟨-, o, hmem, hname, -⟩ := Catalog.lookup_eq_some hfound
    · exact .inl ⟨_, hmem, hname⟩
    · obtain ⟨setting, rfl⟩ := Cdcl.Setting.exists_of_mem_registry hmem
      exact .inr ⟨setting, hname⟩

end Session

/-! ## Inputs of a text and assumptions -/

/-- The inputs of a run: the integers of the text, and then the assumptions. -/
def runInputs (integers assumptions : List Int32) : List Input :=
  integers.map .literal ++ assumptions.map .assumption

/-- The integers that a run adds are those of the text. -/
theorem stream_runInputs (integers assumptions : List Int32) :
    stream (runInputs integers assumptions) = integers := by
  have hadded : stream (integers.map .literal) = integers := by
    rw [stream, List.filterMap_map]
    exact List.filterMap_some
  have hassumed : stream (assumptions.map .assumption) = [] := by
    rw [stream, List.filterMap_map]
    exact List.filterMap_none assumptions
  rw [runInputs, stream_append, hadded, hassumed, List.append_nil]

/-- The assumptions pending after a run has read and assumed are those of the request. -/
theorem pending_runInputs (integers assumptions : List Int32) :
    pending (runInputs integers assumptions) = assumptions := by
  induction assumptions using List.reverseRecOn with
  | nil =>
    induction integers using List.reverseRecOn with
    | nil => rfl
    | append_singleton integers lit ih =>
      rw [runInputs, List.map_nil, List.append_nil] at ih ⊢
      rw [List.map_append, List.map_singleton, pending_append]
      exact ih
  | append_singleton assumptions lit ih =>
    rw [runInputs] at ih ⊢
    rw [List.map_append, ← List.append_assoc, List.map_singleton, pending_append, ih]

namespace CommandLine

/-! ## Extensions -/

/-- A path has an extension: of its components, the last one that is neither empty nor a single dot
is a stem, a dot and the extension, and is not the name of the directory above. -/
def HasExtension (path extension : List Char) : Prop :=
  ∃ before stem after, path.splitOn '/' = before ++ (stem ++ '.' :: extension) :: after ∧
    (∀ component ∈ after, component = [] ∨ component = ['.']) ∧
    stem ≠ [] ∧ '.' ∉ extension ∧ stem ++ '.' :: extension ≠ ['.', '.']

/-- The file name of a path is the last of its components that is neither empty nor a single dot. -/
theorem fileName?_eq_some_iff {path name : List Char} :
    fileName? path = some name ↔
      (name ≠ [] ∧ name ≠ ['.']) ∧ ∃ before after, path.splitOn '/' = before ++ name :: after ∧
        ∀ component ∈ after, component = [] ∨ component = ['.'] := by
  have hplain : ∀ component : List Char,
      (!(component != [] && component != ['.'])) = true ↔ component = [] ∨ component = ['.'] := by
    intro component
    by_cases hempty : component = []
    · simp [hempty]
    · simp [hempty]
  rw [fileName?, components, List.find?_eq_some_iff_append]
  refine and_congr (by simp) ⟨?_, ?_⟩
  · rintro ⟨after, before, hsplit, hafter⟩
    refine ⟨before.reverse, after.reverse, ?_, fun component hmem => ?_⟩
    · rw [← List.reverse_reverse (path.splitOn '/'), hsplit]
      simp
    · exact (hplain component).1 (hafter component (List.mem_reverse.1 hmem))
  · rintro ⟨before, after, hsplit, hafter⟩
    refine ⟨after.reverse, before.reverse, ?_, fun component hmem => ?_⟩
    · rw [hsplit]
      simp
    · exact (hplain component).2 (hafter component (List.mem_reverse.1 hmem))

/-- A name is divided at its last dot, unless there is none or the name begins with it. -/
theorem takeWhile_reverse_eq_iff {name extension : List Char} :
    ((name.reverse.dropWhile (· != '.')).drop 1 ≠ [] ∧
        (name.reverse.takeWhile (· != '.')).reverse = extension) ↔
      ∃ stem, name = stem ++ '.' :: extension ∧ stem ≠ [] ∧ '.' ∉ extension := by
  constructor
  · rintro ⟨hstem, rfl⟩
    have hname := List.takeWhile_append_dropWhile (p := (· != '.')) (l := name.reverse)
    cases hrest : name.reverse.dropWhile (· != '.') with
    | nil => simp [hrest] at hstem
    | cons dot stem =>
      rw [hrest] at hname hstem
      obtain rfl : dot = '.' := by
        have hhead := List.head?_dropWhile_not (· != '.') name.reverse
        rw [hrest] at hhead
        simpa using hhead
      refine ⟨stem.reverse, ?_, by simpa using hstem, fun hmem => ?_⟩
      · have hreversed : name = (name.reverse.takeWhile (· != '.') ++ '.' :: stem).reverse := by
          rw [hname, List.reverse_reverse]
        exact hreversed.trans (by simp)
      · have hplain := List.mem_takeWhile_imp (List.mem_reverse.1 hmem)
        simp at hplain
  · rintro ⟨stem, rfl, hstem, hdot⟩
    have hplain : ∀ c ∈ extension.reverse, (c != '.') = true := by
      intro c hc
      rw [bne_iff_ne]
      rintro rfl
      exact hdot (List.mem_reverse.1 hc)
    have hname : (stem ++ '.' :: extension).reverse = extension.reverse ++ '.' :: stem.reverse := by
      simp
    rw [hname, List.takeWhile_append_of_pos hplain, List.dropWhile_append_of_pos hplain]
    simpa using hstem

/-- The extension of a path is the part after the last dot of its file name. -/
theorem extension?_eq_some_iff {path extension : List Char} :
    extension? path = some extension ↔ HasExtension path extension := by
  have hname : ∀ name : List Char,
      (if ((name.reverse.dropWhile (· != '.')).drop 1).isEmpty || name == ['.', '.'] then none
        else some (name.reverse.takeWhile (· != '.')).reverse) = some extension ↔
      (∃ stem, name = stem ++ '.' :: extension ∧ stem ≠ [] ∧ '.' ∉ extension) ∧
        name ≠ ['.', '.'] := by
    intro name
    rw [← takeWhile_reverse_eq_iff]
    split
    · rename_i h
      simp at h ⊢
      tauto
    · rename_i h
      simp at h ⊢
      tauto
  unfold extension?
  constructor
  · intro h
    split at h
    · cases h
    rename_i name hfound
    obtain ⟨⟨stem, rfl, hstem, hdot⟩, hparent⟩ := (hname name).1 h
    obtain ⟨-, before, after, hsplit, hafter⟩ := fileName?_eq_some_iff.1 hfound
    exact ⟨before, stem, after, hsplit, hafter, hstem, hdot, hparent⟩
  · rintro ⟨before, stem, after, hsplit, hafter, hstem, hdot, hparent⟩
    have hlong : stem ++ '.' :: extension ≠ ['.'] := by
      intro h
      have hlength := congrArg List.length h
      simp only [List.length_append, List.length_cons, List.length_nil] at hlength
      exact hstem (List.length_eq_zero_iff.1 (by omega))
    have hfound : fileName? path = some (stem ++ '.' :: extension) :=
      fileName?_eq_some_iff.2 ⟨⟨by simp, hlong⟩, before, after, hsplit, hafter⟩
    rw [hfound]
    exact (hname _).2 ⟨⟨stem, rfl, hstem, hdot⟩, hparent⟩

/-- Dots for the same directory do not count, and a dot at the beginning of a name does not divide
it. -/
example : extension? "d.xz/.//".toList = some ['x', 'z'] ∧ extension? "d/.xz".toList = none ∧
    extension? "a.xz/..".toList = none := by
  decide

/-! ## Failures -/

variable {r : Request} {input source : Text.Source}
  {file : String → Except ReadFailure Text.Source} {integers : List Int32} {outcome : Outcome}
  {comments : List String} {s : Session ReferenceSolver}

/-- A source is the one in which a request finds its formula. -/
def Request.Finds (r : Request) (input : Text.Source)
    (file : String → Except ReadFailure Text.Source) (source : Text.Source) : Prop :=
  match r.path with
  | none => source = input
  | some path => file path = .ok source

/-- What makes a run fail. -/
inductive Request.Fails (r : Request) (input : Text.Source)
    (file : String → Except ReadFailure Text.Source) : Prop
  /-- A session in configuration refuses a setting. -/
  | setting {name : String} {value : Int} (hmem : (name, value) ∈ r.settings)
      (h : (Session.reference.setOption name value 0).2 ≠ .ok ())
  | compressed {path : String} (hpath : r.path = some path)
      (h : HasExtension path.toList ['x', 'z'])
  | unopened {path : String} {cause : ReadFailure} (hpath : r.path = some path)
      (h : file path = .error cause)
  | unread {source : Text.Source} {cause : ReadError} (hfound : r.Finds input file source)
      (h : (Dimacs.read Session.reference source).2 = .error cause)
  | assumption {lit : Int32} (hmem : lit ∈ r.assumptions) (h : lit = 0 ∨ lit = -2147483648)

/-- An outcome prints line by line, and no line tells that a solve was refused. -/
def Tidy (outcome : Outcome) : Prop :=
  ∀ line ∈ outcome.lines, OneLine line ∧ ¬ "c Solve error".toList <+: line.toList

/-- An outcome is a failure and has nothing but comments. -/
structure IsFailure (outcome : Outcome) : Prop where
  code : outcome.code = 1
  remarks : ∀ line ∈ outcome.lines, IsRemark line

/-- A failure after remarks is one. -/
theorem IsFailure.after (h : IsFailure outcome) (hremarks : ∀ line ∈ comments, IsRemark line) :
    IsFailure (outcome.after comments) :=
  ⟨h.code, fun line hline => (List.mem_append.1 hline).elim (hremarks line) (h.remarks line)⟩

/-- A failure prints line by line, and no line tells that a solve was refused. -/
theorem IsFailure.tidy (h : IsFailure outcome) : Tidy outcome := fun line hline =>
  ⟨(h.remarks line hline).oneLine, (h.remarks line hline).noSolveError⟩

/-- Remarks in front leave an outcome tidy. -/
theorem Tidy.after (h : Tidy outcome) (hremarks : ∀ line ∈ comments, IsRemark line) :
    Tidy (outcome.after comments) := by
  intro line hline
  rcases List.mem_append.1 hline with hline | hline
  · exact ⟨(hremarks line hline).oneLine, (hremarks line hline).noSolveError⟩
  · exact h line hline

/-- The outcome that tells of a failure in one line is a failure. -/
theorem isFailure_failure {text : String} (h : OneLine text)
    (hfirst : text.toList.head? ≠ some 'S') : IsFailure (failure text) :=
  ⟨rfl, List.forall_mem_singleton.2 (isRemark_comment h hfirst)⟩

/-! ## Stages of a run -/

/-- A stage of a run fails for a cause, or goes on after comments to what comes next. -/
inductive Proceeds (cause : Prop) (next : Outcome → Prop) (outcome : Outcome) : Prop
  | fails (hcause : cause) (hfailure : IsFailure outcome)
  | goesOn {later : Outcome} {comments : List String} (hcause : ¬ cause)
      (hremarks : ∀ line ∈ comments, IsRemark line) (hnext : next later)
      (houtcome : outcome = later.after comments)

namespace Proceeds

variable {cause cause' : Prop} {next next' : Outcome → Prop}

/-- A stage without comments of its own is what comes next. -/
theorem atOnce (hcause : ¬ cause) (hnext : next outcome) : Proceeds cause next outcome :=
  .goesOn hcause (List.forall_mem_nil _) hnext rfl

/-- A cause may be told in other words. -/
theorem congr (h : Proceeds cause next outcome) (hcause : cause ↔ cause') :
    Proceeds cause' next outcome := by
  cases h with
  | fails h hfailure => exact .fails (hcause.1 h) hfailure
  | goesOn h hremarks hnext houtcome => exact .goesOn (mt hcause.2 h) hremarks hnext houtcome

/-- Less may be told of what comes next. -/
theorem next_imp (h : Proceeds cause next outcome) (hnext : ∀ later, next later → next' later) :
    Proceeds cause next' outcome := by
  cases h with
  | fails h hfailure => exact .fails h hfailure
  | goesOn h hremarks hlater houtcome => exact .goesOn h hremarks (hnext _ hlater) houtcome

/-- Comments may come before a stage. -/
theorem after (h : Proceeds cause next outcome) (hremarks : ∀ line ∈ comments, IsRemark line) :
    Proceeds cause next (outcome.after comments) := by
  cases h with
  | fails h hfailure => exact .fails h (hfailure.after hremarks)
  | goesOn h hremarks' hnext houtcome =>
    refine .goesOn h (List.forall_mem_append.2 ⟨hremarks, hremarks'⟩) hnext ?_
    rw [houtcome, Outcome.after, Outcome.after, Outcome.after, List.append_assoc]

/-- Two stages one after the other fail if one of them does. -/
theorem trans (h : Proceeds cause next outcome)
    (hlater : ∀ later, next later → Proceeds cause' next' later) :
    Proceeds (cause ∨ cause') next' outcome := by
  cases h with
  | fails h hfailure => exact .fails (.inl h) hfailure
  | goesOn h hremarks hnext houtcome =>
    rw [houtcome]
    exact ((hlater _ hnext).after hremarks).congr (or_iff_right h).symm

end Proceeds

/-! ## Setting options -/

/-- The name of an option that can be set does not begin with the letter by which a refused solve is
told. -/
theorem head_ne_of_setOption {name : String} {value : Int}
    (h : (s.setOption name value 0).2 = .ok ()) (text : String) :
    (name ++ text).toList.head? ≠ some 'S' := by
  obtain ⟨entry, hmem, rfl⟩ | ⟨setting, rfl⟩ := Session.name_of_setOption_eq_ok h
  · simp only [limitOptions, List.mem_cons, List.not_mem_nil, or_false] at hmem
    rcases hmem with rfl | rfl <;> simp
  · cases setting <;> simp [Cdcl.Setting.entry]

/-- Options are set until one is refused. -/
theorem proceeds_runSettings (hs : s.HasAccepted []) (settings : List (String × Int))
    (hnames : ∀ setting ∈ settings, OneLine setting.1) :
    Proceeds
      (∃ setting ∈ settings, (Session.reference.setOption setting.1 setting.2 0).2 ≠ .ok ())
      (fun later => ∃ s' : Session ReferenceSolver, s'.HasAccepted [] ∧
        later = runLoad r s' input file)
      (runSettings r s input file settings) := by
  induction settings generalizing s with
  | nil => exact .atOnce (by simp) ⟨s, hs, rfl⟩
  | cons setting rest ih =>
    obtain ⟨name, value⟩ := setting
    obtain ⟨hname, hrest⟩ := List.forall_mem_cons.1 hnames
    have hconfig : s.stage = .config := hs.stage_eq_config_iff.2 (List.forall_mem_nil _)
    have hresult : (s.setOption name value 0).2 = (Session.reference.setOption name value 0).2 :=
      Session.setOption_congr hconfig name value
    unfold runSettings
    split
    · rename_i s' hset
      rw [hset] at hresult
      have hs' : s'.HasAccepted [] := by
        have hperform := hs.perform (.setOption name value 0)
        rwa [show s.perform (.setOption name value 0) = s' from congrArg Prod.fst hset] at hperform
      have hremark : IsRemark (comment (name ++ s!" set to {value}")) := by
        refine isRemark_comment ?_ (head_ne_of_setOption (congrArg Prod.snd hset) _)
        exact oneLine_append.2 ⟨hname, oneLine_append.2 ⟨by decide, oneLine_toString_int value⟩⟩
      refine ((ih hs' hrest).after (List.forall_mem_singleton.2 hremark)).congr ?_
      rw [List.exists_mem_cons_iff]
      exact (or_iff_right (not_not.2 hresult.symm)).symm
    · rename_i refusal hset
      rw [hset] at hresult
      refine .fails ⟨_, List.mem_cons_self, ?_⟩ (isFailure_failure ?_ ?_)
      · rw [← hresult]
        exact nofun
      · simp only [oneLine_append]
        exact ⟨⟨⟨by decide, hname⟩, ⟨by decide, oneLine_toString_int value⟩, by decide⟩,
          oneLine_refusal refusal⟩
      · simp

/-! ## Assuming literals -/

/-- The integers that stand for no literal are zero and the least one. -/
theorem isMalformed_eq_true_iff {lit : Int32} :
    isMalformed lit = true ↔ lit = 0 ∨ lit = -2147483648 := by
  simp [isMalformed]

/-- Literals are assumed until one stands for no literal. -/
theorem proceeds_runAssume {inputs : List Input} (hs : s.HasAccepted inputs)
    (hclosed : (closedFrom [] (stream inputs)).2 = []) (assumptions : List Int32) :
    Proceeds (∃ lit ∈ assumptions, isMalformed lit = true)
      (fun later => ∃ s' : Session ReferenceSolver,
        s'.HasAccepted (inputs ++ assumptions.map .assumption) ∧ later = runSolve r s')
      (runAssume r s assumptions) := by
  induction assumptions generalizing s inputs with
  | nil => exact .atOnce (by simp) ⟨s, (List.append_nil inputs).symm ▸ hs, rfl⟩
  | cons lit rest ih =>
    have hopen : s.clauseOpen = false := hs.clauseOpen_eq_false hclosed
    by_cases hlit : isMalformed lit = true
    · have hrefused : s.assume lit = (s, .error .invalidArgument) := if_pos hlit
      unfold runAssume
      rw [hrefused]
      refine .fails ⟨lit, List.mem_cons_self, hlit⟩ (isFailure_failure ?_ (by simp))
      simp only [oneLine_append]
      exact ⟨⟨⟨by decide, oneLine_literalText lit⟩, by decide⟩, by decide⟩
    · have hassumed : (s.assume lit).2 = .ok () := by simp [Session.assume, hlit, hopen]
      have hs' : (s.assume lit).1.HasAccepted (inputs ++ [.assumption lit]) := by
        have hperform := hs.perform (.assume lit)
        rwa [Session.inputs, hassumed] at hperform
      have hclosed' : (closedFrom [] (stream (inputs ++ [.assumption lit]))).2 = [] := by
        rw [stream_append]
        exact (List.append_nil (stream inputs)).symm ▸ hclosed
      unfold runAssume
      rw [← Prod.mk.eta (p := s.assume lit), hassumed]
      have hlater := ih hs' hclosed'
      rw [List.append_assoc] at hlater
      refine hlater.congr ?_
      rw [List.exists_mem_cons_iff]
      exact (or_iff_right hlit).symm

/-! ## Reading a formula -/

/-- What comes of reading does not depend on the session. -/
theorem reads_read (s : Session ReferenceSolver) (source : Text.Source) :
    Dimacs.Reads (Dimacs.items source) (Dimacs.added source.lines) (Dimacs.read s source).2 := by
  have hforget : (Dimacs.read s.record source).2 = (Dimacs.read s source).2 :=
    (Session.forget_read source).2
  rw [← hforget]
  exact (Dimacs.reads_read s.record source).1

/-- A comment on the counts of a formula is a remark. -/
theorem isRemark_countComment (summary : Dimacs.Summary) :
    ∀ line ∈ countComment summary, IsRemark line := by
  unfold countComment
  split
  · exact List.forall_mem_nil _
  split
  · exact List.forall_mem_nil _
  · refine List.forall_mem_singleton.2 (isRemark_comment ?_ ?_)
    · simp only [oneLine_append]
      exact ⟨⟨⟨⟨⟨by decide, oneLine_toString_nat _⟩, by decide⟩, oneLine_toString_nat _⟩,
        by decide⟩, oneLine_toString_nat _⟩
    · simp [toString]

/-- A formula is read as it would be into a session without clauses, and then its integers have
been accepted. -/
theorem proceeds_runRead (hs : s.HasAccepted []) (source : Text.Source) :
    Proceeds (∃ cause, (Dimacs.read Session.reference source).2 = .error cause)
      (fun later => ∃ (integers : List Int32) (summary : Dimacs.Summary)
          (s' : Session ReferenceSolver),
        Dimacs.Reads (Dimacs.items source) integers (.ok summary) ∧
          s'.HasAccepted (integers.map .literal) ∧ later = runAssume r s' r.assumptions)
      (runRead r s source) := by
  have hresult : (Dimacs.read s source).2 = (Dimacs.read Session.reference source).2 :=
    ((reads_read s source).unique (reads_read Session.reference source)).2
  have hreads := reads_read s source
  have hs' := hs.perform (.read source)
  rw [List.nil_append] at hs'
  unfold runRead
  split
  · rename_i cause hread
    rw [hread] at hresult
    exact .fails ⟨cause, hresult.symm⟩ (isFailure_failure
      (oneLine_append.2 ⟨by decide, oneLine_message cause⟩) (by simp))
  · rename_i s' summary hread
    rw [hread] at hresult hreads
    refine .goesOn ?_ (isRemark_countComment summary) ⟨_, summary, s', hreads, ?_, rfl⟩ rfl
    · rw [← hresult]
      exact nofun
    · rwa [show s.perform (.read source) = s' from congrArg Prod.fst hread] at hs'

/-! ## Finding a formula -/

/-- What makes a run fail once the options are set. -/
def FailsLoaded (r : Request) (input : Text.Source)
    (file : String → Except ReadFailure Text.Source) : Prop :=
  (∃ path, r.path = some path ∧
      (HasExtension path.toList ['x', 'z'] ∨ ∃ cause, file path = .error cause)) ∨
    (∃ source, r.Finds input file source ∧
      ∃ cause, (Dimacs.read Session.reference source).2 = .error cause) ∨
    ∃ lit ∈ r.assumptions, isMalformed lit = true

/-- The last stage of a run: the formula of the request has been read, and the session has accepted
its integers and the assumptions. -/
def Solving (r : Request) (input : Text.Source)
    (file : String → Except ReadFailure Text.Source) (outcome : Outcome) : Prop :=
  ∃ source integers summary, ∃ s : Session ReferenceSolver,
    r.Finds input file source ∧ Dimacs.Reads (Dimacs.items source) integers (.ok summary) ∧
      s.HasAccepted (runInputs integers r.assumptions) ∧ outcome = runSolve r s

/-- A formula that is found is read and the literals of the request assumed, or the run fails for
one of them. -/
theorem proceeds_read (hs : s.HasAccepted []) (hfinds : r.Finds input file source) :
    Proceeds ((∃ cause, (Dimacs.read Session.reference source).2 = .error cause) ∨
        ∃ lit ∈ r.assumptions, isMalformed lit = true)
      (Solving r input file) (runRead r s source) := by
  refine (proceeds_runRead hs source).trans ?_
  rintro later ⟨integers, summary, s', hreads, hs', rfl⟩
  obtain ⟨announced, -, hlast, -⟩ := hreads.of_ok
  have hinputs : integers.map Input.literal = runInputs integers [] := by
    simp [runInputs]
  have hclosed : (closedFrom [] (stream (integers.map .literal))).2 = [] := by
    rw [hinputs, stream_runInputs]
    exact closedFrom_snd_eq_nil_iff.2 hlast
  refine (proceeds_runAssume hs' hclosed r.assumptions).next_imp ?_
  rintro later ⟨s'', hs'', rfl⟩
  exact ⟨source, integers, summary, s'', hfinds, hreads, hs'', rfl⟩

/-- A request finds one source at most. -/
theorem Request.Finds.unique {source' : Text.Source} (h : r.Finds input file source)
    (h' : r.Finds input file source') : source = source' := by
  unfold Request.Finds at h h'
  cases hpath : r.path with
  | none =>
    rw [hpath] at h h'
    exact h.trans h'.symm
  | some path =>
    rw [hpath] at h h'
    exact Except.ok.inj (h.symm.trans h')

/-- The formula is found, read and its assumptions made, or the run fails for the path, the text or
a literal. -/
theorem proceeds_runLoad (hs : s.HasAccepted []) :
    Proceeds (FailsLoaded r input file) (Solving r input file) (runLoad r s input file) := by
  -- if a source is found, the cause is in the text or in the assumptions
  have hread : ∀ {source}, r.Finds input file source →
      (¬ ∃ path, r.path = some path ∧ HasExtension path.toList ['x', 'z']) →
      Proceeds (FailsLoaded r input file) (Solving r input file) (runRead r s source) := by
    intro source hfinds hplain
    refine (proceeds_read hs hfinds).congr ⟨fun h => .inr (h.imp_left fun h => ⟨_, hfinds, h⟩), ?_⟩
    rintro (⟨path, hpath, hxz | ⟨cause, hfile⟩⟩ | ⟨source', hfinds', h⟩ | h)
    · exact absurd ⟨path, hpath, hxz⟩ hplain
    · rw [Request.Finds, hpath] at hfinds
      cases hfile.symm.trans hfinds
    · exact .inl (hfinds.unique hfinds' ▸ h)
    · exact .inr h
  unfold runLoad
  cases hpath : r.path with
  | none =>
    refine (hread ?_ (by simp [hpath])).after (List.forall_mem_singleton.2 ?_)
    · rw [Request.Finds, hpath]
    · exact isRemark_comment (by decide) (by simp)
  | some path =>
    have hremark : IsRemark (comment ("Reading DIMACS file from " ++ Text.shown path)) :=
      isRemark_comment (oneLine_append.2 ⟨by decide, oneLine_shown path⟩) (by simp)
    refine Proceeds.after ?_ (List.forall_mem_singleton.2 hremark)
    cases hfile : file path with
    | error cause =>
      refine .fails (.inl ⟨path, hpath, .inr ⟨cause, hfile⟩⟩) (isFailure_failure ?_ (by simp))
      exact oneLine_append.2 ⟨by decide, oneLine_message _⟩
    | ok source =>
      by_cases hxz : HasExtension path.toList ['x', 'z']
      · dsimp only
        rw [if_pos (extension?_eq_some_iff.2 hxz)]
        exact .fails (.inl ⟨path, hpath, .inl hxz⟩)
          (isFailure_failure (by decide +kernel) (by simp))
      · dsimp only
        rw [if_neg (mt extension?_eq_some_iff.1 hxz)]
        refine hread ?_ (by simpa [hpath] using hxz)
        rw [Request.Finds, hpath]
        exact hfile

/-- A request fails for what it sets, or for what comes of it once the options are set. -/
theorem fails_iff :
    r.Fails input file ↔
      (∃ setting ∈ r.settings, (Session.reference.setOption setting.1 setting.2 0).2 ≠ .ok ()) ∨
        FailsLoaded r input file := by
  constructor
  · rintro (⟨hmem, h⟩ | ⟨hpath, h⟩ | ⟨hpath, h⟩ | ⟨hfinds, h⟩ | ⟨hmem, h⟩)
    · exact .inl ⟨_, hmem, h⟩
    · exact .inr (.inl ⟨_, hpath, .inl h⟩)
    · exact .inr (.inl ⟨_, hpath, .inr ⟨_, h⟩⟩)
    · exact .inr (.inr (.inl ⟨_, hfinds, _, h⟩))
    · exact .inr (.inr (.inr ⟨_, hmem, isMalformed_eq_true_iff.2 h⟩))
  · rintro (⟨_, hmem, h⟩ | ⟨_, hpath, h | ⟨_, h⟩⟩ | ⟨_, hfinds, _, h⟩ | ⟨_, hmem, h⟩)
    · exact .setting hmem h
    · exact .compressed hpath h
    · exact .unopened hpath h
    · exact .unread hfinds h
    · exact .assumption hmem (isMalformed_eq_true_iff.1 h)

/-- A run fails for one of the causes, or comes to solve what its request and the text say. -/
theorem proceeds_run {arguments : List String} (hparse : Arguments.parse arguments = .run r)
    (hlist : r.listOptions = false) (hnames : ∀ setting ∈ r.settings, '\n' ∉ setting.1.toList) :
    Proceeds (r.Fails input file) (Solving r input file) (run arguments input file) := by
  have hstages : Proceeds (r.Fails input file) (Solving r input file)
      (runSettings r Session.reference input file r.settings) :=
    ((proceeds_runSettings .ofEngine r.settings hnames).trans fun later ⟨s', hs', hlater⟩ =>
      hlater ▸ proceeds_runLoad hs').congr fails_iff.symm
  have hrun : run arguments input file = Outcome.after [comment Session.reference.signature]
      (runSettings r Session.reference input file r.settings) := by
    simp [run, hparse, runRequest, hlist]
  rw [hrun]
  exact hstages.after (List.forall_mem_singleton.2 (isRemark_comment (by decide) (by decide)))

end CommandLine

end IncrementalSat
