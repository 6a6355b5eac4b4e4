/-!
# Refusals

Why an engine declines a request, why a session refuses a call, and why a formula cannot be read.
Each kind of cause is a type of its own, with its wording in one function.
-/

set_option autoImplicit false

namespace IncrementalSat

/-- Why a session refuses a call. -/
inductive Refusal
  | unknown
  | unsupported
  /-- The operation is offered, but not with this argument. -/
  | unsupportedArgument
  /-- Neither the session nor the engine has an option of this name. -/
  | unsupportedOption
  | invalidState
  | invalidArgument
  | invalidOptionValue
deriving DecidableEq

namespace Refusal

/-- The written form of a refusal. -/
def text : Refusal → String
  | unknown => "Unknown"
  | unsupported => "Unsupported"
  | unsupportedArgument => "UnsupportedArgument"
  | unsupportedOption => "UnsupportedOption"
  | invalidState => "InvalidState"
  | invalidArgument => "InvalidArgument"
  | invalidOptionValue => "InvalidOptionValue"

/-- The number of a refusal, never zero, which stands for success. -/
def number : Refusal → Nat
  | unknown => 1
  | unsupported => 2
  | unsupportedArgument => 3
  | unsupportedOption => 4
  | invalidState => 5
  | invalidArgument => 6
  | invalidOptionValue => 7

end Refusal

/-- The number that reports how a call ended. -/
def resultNumber {α : Type} : Except Refusal α → Nat
  | .ok _ => 0
  | .error refusal => refusal.number

/-- Why an engine declines a request. -/
inductive EngineRefusal
  | unsupported
  | unknownOption
  | unknownLimit
  | invalidValue
deriving DecidableEq

namespace EngineRefusal

/-- The written form of a refusal of an engine. -/
def text : EngineRefusal → String
  | unsupported => "Unsupported"
  | unknownOption => "UnknownOption"
  | unknownLimit => "UnknownLimit"
  | invalidValue => "InvalidValue"

/-- What a session reports when its engine declines. -/
def refusal : EngineRefusal → Refusal
  | unsupported => .unsupported
  | unknownOption => .unsupportedOption
  | unknownLimit => .unsupportedOption
  | invalidValue => .invalidOptionValue

end EngineRefusal

/-- How a source of text fails. -/
inductive ReadFailure
  | notFound
  | permissionDenied
  | invalidData
  | unexpectedEnd
  | timedOut
  | isDirectory
  | notDirectory
  | invalidName
  | other
deriving DecidableEq

namespace ReadFailure

/-- The written form of a failure. -/
def text : ReadFailure → String
  | notFound => "entity not found"
  | permissionDenied => "permission denied"
  | invalidData => "invalid data"
  | unexpectedEnd => "unexpected end of file"
  | timedOut => "timed out"
  | isDirectory => "is a directory"
  | notDirectory => "not a directory"
  | invalidName => "invalid filename"
  | other => "other error"

end ReadFailure

/-- Why a formula cannot be read. -/
inductive ReadError
  | problemSpecification
  /-- A field of the line of this number is not a literal. -/
  | line (number : Nat)
  /-- The text ended within a clause. -/
  | unterminatedClause
  | source (failure : ReadFailure)
  | rejected (refusal : Refusal)
deriving DecidableEq

namespace ReadError

/-- The wording of an error. -/
def message : ReadError → String
  | problemSpecification => "malformed problem specification"
  | line number => "malformed literal on line " ++ toString number
  | unterminatedClause => "input ended in the middle of a clause"
  | source failure => "read failure: " ++ failure.text
  | rejected refusal => "literal rejected: " ++ refusal.text

end ReadError

end IncrementalSat
