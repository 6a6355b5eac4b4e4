import IncrementalSat.Engine

/-!
# Scripted engines

An engine whose answers are written down beforehand: its registry, the verdict of each solve, the
literals that are true, the assumptions that fail, and the requests it declines.  It reads no
clause, so it shows what a session makes of an engine and nothing else.
-/

set_option autoImplicit false

namespace IncrementalSat

/-- An engine that follows a script. -/
structure Scripted where
  signature : String
  options : List NativeOption
  /-- The verdicts of the solves to come; those beyond the list are unknown. -/
  verdicts : List Verdict
  trueLiterals : List Int32
  failedLiterals : List Int32
  maxAtom : Int32
  takesImport : Bool
  takesNotify : Bool
  limitKinds : List String
  /-- How it declines every option, if it does. -/
  declines : Option EngineRefusal
  /-- The clauses still offered by the import callback. -/
  offers : List (List Int32) := []

namespace Scripted

/-- Judges the value of an option by the first entry of its name. -/
def judge (s : Scripted) (name : String) (value : Int) : Except EngineRefusal Unit :=
  match s.declines with
  | some cause => .error cause
  | none =>
    match s.options.find? fun o => o.name == name with
    | none => .error .unknownOption
    | some o => if o.accepts value then .ok () else .error .invalidValue

/-- Takes every clause that is offered, and gives the next verdict. -/
def solve (s : Scripted) : Solved Scripted where
  engine := { s with verdicts := s.verdicts.tail, offers := [] }
  verdict := s.verdicts.headD .unknown
  events := (s.offers.map Event.imported).toArray

/-- The literal, its negation or zero, as the script has it. -/
def val (s : Scripted) (lit : Int32) : Int32 :=
  if s.trueLiterals.contains lit then lit
  else if s.trueLiterals.contains (-lit) then -lit
  else 0

instance : Engine Scripted where
  signature := Scripted.signature
  options := Scripted.options
  setOption s name value := (s, s.judge name value)
  getOption _ _ := none
  limit s kind _ := (s, if s.limitKinds.contains kind then .ok () else .error .unknownLimit)
  add s _ := (s, #[])
  assume s _ := s
  solve := Scripted.solve
  val := Scripted.val
  failed s lit := s.failedLiterals.contains lit
  maxAtom := Scripted.maxAtom
  setTerminate s _ := s
  setLearn s _ _ := s
  setImport s offers :=
    if s.takesImport then ({ s with offers := offers.getD [] }, .ok ())
    else (s, .error .unsupported)
  setNotify s _ := (s, if s.takesNotify then .ok () else .error .unsupported)
  offersImport := Scripted.takesImport
  offersNotify := Scripted.takesNotify

end Scripted

end IncrementalSat
