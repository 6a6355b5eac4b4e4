import IncrementalSat.Session
import IncrementalSat.Text.Blank
import IncrementalSat.Text.Integer
import IncrementalSat.Text.Lines

/-!
# Reading DIMACS formulas

A formula is read line by line into a session, each integer as it comes.  Blank lines and comments
are passed over, a problem line announces counts, and a line that starts with a percent sign ends
the formula.  Reading stops at the first error; what was added before stays added.
-/

set_option autoImplicit false

namespace IncrementalSat.Dimacs

/-- What a line of a formula is. -/
inductive Line
  /-- A blank line or a comment. -/
  | skipped
  | stop
  /-- The announcement of counts, which may be malformed. -/
  | problem (counts : Option (Nat × Nat))
  | literals (fields : List (List Char))
deriving DecidableEq

/-- The counts of a problem line, in its third and fourth fields. -/
def counts? (fields : List (List Char)) : Option (Nat × Nat) :=
  match fields.drop 2 with
  | atoms :: clauses :: _ =>
    match Text.unsigned? 64 atoms, Text.unsigned? 64 clauses with
    | some atoms, some clauses => some (atoms, clauses)
    | _, _ => none
  | _ => none

/-- Tells by its first visible character what a line is. -/
def Line.ofText (text : List Char) : Line :=
  match Text.firstVisible? text with
  | none => .skipped
  | some 'c' => .skipped
  | some '%' => .stop
  | some 'p' => .problem (counts? (Text.fields text))
  | some _ => .literals (Text.fields text)

/-- What is known of a formula once it is read. -/
structure Summary where
  expected : Option (Nat × Nat) := none
  clauses : Nat := 0
deriving DecidableEq

/-- A reading under way. -/
structure Reading (E : Type) where
  session : Session E
  summary : Summary
  lines : Nat
  /-- Whether the last integer read opened or continued a clause. -/
  clauseOpen : Bool

variable {E : Type} [Engine E]

/-- Adds the integer that a field writes. -/
def readField (r : Reading E) (field : List Char) : Reading E × Except ReadError Unit :=
  match Text.int32? field with
  | none => (r, .error (.line r.lines))
  | some lit =>
    match r.session.add lit with
    | (session, .error refusal) => ({ r with session := session }, .error (.rejected refusal))
    | (session, .ok ()) =>
      ({ r with
          session := session
          clauseOpen := lit != 0
          summary :=
            if lit = 0 then { r.summary with clauses := r.summary.clauses + 1 } else r.summary },
        .ok ())

/-- Adds the integers of a line, up to the first error. -/
def readFields (r : Reading E) : List (List Char) → Reading E × Except ReadError Unit
  | [] => (r, .ok ())
  | field :: rest =>
    match readField r field with
    | (r, .error cause) => (r, .error cause)
    | (r, .ok ()) => readFields r rest

/-- Ends a reading, which must not be within a clause. -/
def finish (r : Reading E) : Session E × Except ReadError Summary :=
  if r.clauseOpen then (r.session, .error .unterminatedClause)
  else (r.session.note #[.formulaRead r.summary.clauses r.lines], .ok r.summary)

/-- Reads lines up to the end of the formula or the first error. -/
def readLines (r : Reading E) :
    List (Except ReadFailure String) → Session E × Except ReadError Summary
  | [] => finish r
  | .error failure :: _ => (r.session, .error (.source failure))
  | .ok text :: rest =>
    let r := { r with lines := r.lines + 1 }
    match Line.ofText text.toList with
    | .skipped => readLines r rest
    | .stop => finish r
    | .problem none => (r.session, .error .problemSpecification)
    | .problem (some (atoms, clauses)) =>
      readLines
        { r with
          session := r.session.note #[.expecting atoms clauses]
          summary := { r.summary with expected := some (atoms, clauses) } }
        rest
    | .literals fields =>
      match readFields r fields with
      | (r, .error cause) => (r.session, .error cause)
      | (r, .ok ()) => readLines r rest

/-- Reads a formula from a source into a session. -/
def read (s : Session E) (source : Text.Source) : Session E × Except ReadError Summary :=
  readLines { session := s, summary := {}, lines := 0, clauseOpen := false } source.lines

end IncrementalSat.Dimacs
