import IncrementalSat.CommandLine.Arguments
import IncrementalSat.Dimacs
import IncrementalSat.FileTree
import IncrementalSat.Reference
import IncrementalSat.Text.Quoted

/-!
# The command-line program

A run sets options, reads a formula from a file or from standard input, assumes literals, solves,
and reports.  Comments start with the letter c, the verdict with s, a valuation with v and failed
assumptions with f.  The exit code is the number of the verdict, or one after a failure.
-/

set_option autoImplicit false

namespace IncrementalSat.CommandLine

/-- What a run prints, line by line, and the code it exits with. -/
structure Outcome where
  lines : List String
  code : Nat
deriving DecidableEq

/-- The outcome with lines printed before its own. -/
def Outcome.after (lines : List String) (outcome : Outcome) : Outcome :=
  { outcome with lines := lines ++ outcome.lines }

/-- The text that a run prints. -/
def Outcome.text (outcome : Outcome) : String :=
  String.join (outcome.lines.map fun line => line ++ "\n")

/-- The line that a run announces itself with. -/
def versionLine : String :=
  "ipasir2_cli 0.1.0"

/-- A comment. -/
def comment (text : String) : String :=
  "c " ++ text

/-- The outcome of a run that fails. -/
def failure (text : String) : Outcome :=
  ⟨[comment text], 1⟩

/-- A text filled up with spaces to a width. -/
def padded (width : Nat) (text : String) : String :=
  text ++ String.ofList (List.replicate (width - text.length) ' ')

/-- The line of an option in the list of options. -/
def optionLine (d : Descriptor) : String :=
  comment (padded 26 d.name ++ s!" [{d.min}, {d.max}] until " ++ d.maxStage.text
    ++ (if d.tunable then ", tunable" else ""))

/-- The last component of a path, apart from empty ones and single dots. -/
def fileName? (path : List Char) : Option (List Char) :=
  (components path).reverse.find? fun name => name != [] && name != ['.']

/-- The part of a file name after its last dot, unless the dot is the first character or missing, or
the name is that of the directory above. -/
def extension? (path : List Char) : Option (List Char) :=
  match fileName? path with
  | none => none
  | some name =>
    let stem := (name.reverse.dropWhile (· != '.')).drop 1
    if stem.isEmpty || name == ['.', '.'] then none
    else some (name.reverse.takeWhile (· != '.')).reverse

/-- A literal, or the zero that ends a line, as it is printed. -/
def literalText (lit : Int32) : String :=
  toString lit.toInt

/-- The values of a session, by atom, without atoms that have none. -/
def valuation (s : Session ReferenceSolver) : List Int32 :=
  match s.assignmentSize with
  | .error _ => []
  | .ok size =>
    (List.range size.toInt.toNat).filterMap fun i =>
      match s.assignment (Int32.ofNat i) with
      | .ok lit => if lit = 0 then none else some lit
      | .error _ => none

/-- The line that shows a valuation. -/
def modelLine (s : Session ReferenceSolver) : String :=
  match valuation s with
  | [] => "v 0"
  | literals => "v " ++ " ".intercalate (literals.map literalText) ++ " 0"

/-- The line that shows which assumptions failed. -/
def failedLine (s : Session ReferenceSolver) (assumptions : List Int32) : String :=
  let failed := assumptions.filter fun lit =>
    match s.failed lit with
    | .ok failed => failed
    | .error _ => false
  "f " ++ " ".intercalate (failed.map literalText) ++ " 0"

/-- The outcome of a run that reached a verdict. -/
def report (r : Request) (s : Session ReferenceSolver) (verdict : Verdict) : Outcome :=
  let extra :=
    match verdict with
    | .satisfiable => if r.showModel then [modelLine s] else []
    | .unsatisfiable => if r.showFailed then [failedLine s r.assumptions] else []
    | .unknown => []
  ⟨("s " ++ verdict.text) :: extra, verdict.number⟩

/-- Solves, though a session without clauses and assumptions is satisfiable as it is. -/
def runSolve (r : Request) (s : Session ReferenceSolver) : Outcome :=
  if s.stage = .config then
    (report r s .satisfiable).after [comment "No clauses or assumptions were given"]
  else
    match s.solve with
    | (s, .ok verdict) => report r s verdict
    | (_, .error refusal) => failure ("Solve error: " ++ refusal.text)

/-- Assumes literals and goes on to solve. -/
def runAssume (r : Request) (s : Session ReferenceSolver) : List Int32 → Outcome
  | [] => runSolve r s
  | lit :: rest =>
    match s.assume lit with
    | (s, .ok ()) => runAssume r s rest
    | (_, .error refusal) =>
      failure ("Failed to assume " ++ literalText lit ++ ": " ++ refusal.text)

/-- The comment on a formula whose count of clauses is not the one announced. -/
def countComment (summary : Dimacs.Summary) : List String :=
  match summary.expected with
  | none => []
  | some (atoms, clauses) =>
    if clauses = summary.clauses then []
    else
      [comment s!"Expected {clauses} clauses over {atoms} atoms, read {summary.clauses}"]

/-- Reads a formula from a source and goes on to the assumptions. -/
def runRead (r : Request) (s : Session ReferenceSolver) (source : Text.Source) : Outcome :=
  match Dimacs.read s source with
  | (_, .error cause) => failure ("Error reading DIMACS: " ++ cause.message)
  | (s, .ok summary) => (runAssume r s r.assumptions).after (countComment summary)

/-- Finds the formula and goes on to read it.  Compressed files are not read. -/
def runLoad (r : Request) (s : Session ReferenceSolver) (input : Text.Source)
    (file : String → Except ReadFailure Text.Source) : Outcome :=
  match r.path with
  | none => (runRead r s input).after [comment "Reading DIMACS from standard input"]
  | some path =>
    Outcome.after [comment ("Reading DIMACS file from " ++ Text.shown path)]
      (match file path with
      | .error cause => failure ("Error reading DIMACS: " ++ (ReadError.source cause).message)
      | .ok source =>
        if extension? path.toList = some ['x', 'z'] then
          failure "Reading xz compressed files requires the xz feature"
        else runRead r s source)

/-- Sets options and goes on to the formula. -/
def runSettings (r : Request) (s : Session ReferenceSolver) (input : Text.Source)
    (file : String → Except ReadFailure Text.Source) : List (String × Int) → Outcome
  | [] => runLoad r s input file
  | (name, value) :: rest =>
    match s.setOption name value 0 with
    | (s, .ok ()) =>
      (runSettings r s input file rest).after [comment (name ++ s!" set to {value}")]
    | (_, .error refusal) =>
      failure ("Failed to set " ++ name ++ s!" to {value}: " ++ refusal.text)

/-- Runs a request with the text of standard input and what the paths lead to. -/
def runRequest (r : Request) (input : Text.Source)
    (file : String → Except ReadFailure Text.Source) : Outcome :=
  let s := Session.reference
  Outcome.after [comment s.signature]
    (if r.listOptions then ⟨s.catalog.2.entries.map optionLine, 0⟩
    else runSettings r s input file r.settings)

/-- Runs a command line.  Arguments that are not understood print nothing here. -/
def run (arguments : List String) (input : Text.Source)
    (file : String → Except ReadFailure Text.Source) : Outcome :=
  match Arguments.parse arguments with
  | .invalid => ⟨[], 2⟩
  | .version => ⟨[versionLine], 0⟩
  | .run request => runRequest request input file

/-- Runs a command line at a place in a tree of files. -/
def runAt (place : Place) (arguments : List String) (input : Text.Source) : Outcome :=
  run arguments input place.openPath

end IncrementalSat.CommandLine
