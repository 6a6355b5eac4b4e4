import IncrementalSat.Refusal

/-!
# Sources of lines

A source is a sequence of bytes, perhaps with a failure at its end.  It is read line by line; a
line ends with a line feed or with the bytes, must be UTF-8, and is lost if the failure comes before
its end.
-/

set_option autoImplicit false

namespace IncrementalSat.Text

/-- The bytes that can be read, and the failure that comes after them, if any. -/
structure Source where
  bytes : List UInt8
  failure : Option ReadFailure := none
deriving DecidableEq

namespace Source

/-- The source of the bytes of a text. -/
def ofString (text : String) : Source where
  bytes := text.toUTF8.data.toList

end Source

/-- The text that bytes encode in UTF-8. -/
def decode? (bytes : List UInt8) : Option String :=
  String.fromUTF8? ⟨bytes.toArray⟩

/-- What one read of a line gives. -/
def decodeLine (bytes : List UInt8) : Except ReadFailure String :=
  match decode? bytes with
  | some text => .ok text
  | none => .error .invalidData

/-- The line that a source ends with, given in reverse, when no line feed comes any more. -/
def lastLine (line : List UInt8) (failure : Option ReadFailure) :
    List (Except ReadFailure String) :=
  match failure with
  | some cause => [.error cause]
  | none => if line.isEmpty then [] else [decodeLine line.reverse]

/-- What the reads of lines give one after another, the line under way being given in reverse. -/
def linesFrom (failure : Option ReadFailure) (line : List UInt8) :
    List UInt8 → List (Except ReadFailure String)
  | [] => lastLine line failure
  | b :: rest =>
    if b = 10 then decodeLine (b :: line).reverse :: linesFrom failure [] rest
    else linesFrom failure (b :: line) rest

/-- What the reads of lines from a source give one after another. -/
def Source.lines (s : Source) : List (Except ReadFailure String) :=
  linesFrom s.failure [] s.bytes

end IncrementalSat.Text
