import IncrementalSat.CommandLine.Program

/-!
# The executable

Reads what the command line asks for, runs it, and prints the outcome.
-/

set_option autoImplicit false

namespace IncrementalSat

/-- The number by which the system reports that a file stands where a directory is needed. -/
def notDirectoryCode : UInt32 := 20

/-- The number by which the system reports a name that is too long. -/
def longNameCode : UInt32 := 36

/-- The cause of a failure of the system to read a file. -/
def readFailure : IO.Error → ReadFailure
  | .noFileOrDirectory .. => .notFound
  | .permissionDenied .. => .permissionDenied
  | .inappropriateType _ code _ => if code = notDirectoryCode then .notDirectory else .isDirectory
  | .invalidArgument _ code _ => if code = longNameCode then .invalidName else .other
  | .unexpectedEof => .unexpectedEnd
  | .timeExpired .. => .timedOut
  | _ => .other

/-- The rest of what a handle reads; where reading fails, a source without bytes that fails. -/
def readHandle (readAll : IO ByteArray) : BaseIO Text.Source := do
  match ← readAll.toBaseIO with
  | .ok bytes => return { bytes := bytes.data.toList }
  | .error cause => return { bytes := [], failure := some (readFailure cause) }

/-- Opens a file and reads it. -/
def readPath (path : String) : BaseIO (Except ReadFailure Text.Source) := do
  match ← (IO.FS.Handle.mk path .read).toBaseIO with
  | .ok handle => return .ok (← readHandle handle.readBinToEnd)
  | .error cause => return .error (readFailure cause)

/-- Reads standard input. -/
def readInput : BaseIO Text.Source := do
  readHandle (← IO.getStdin).readBinToEnd

/-- Runs a command line with the files and the standard input of the system. -/
def runCommand (arguments : List String) : IO CommandLine.Outcome := do
  match CommandLine.Arguments.parse arguments with
  | .run { path := some path, .. } =>
    let source ← readPath path
    return CommandLine.run arguments { bytes := [] } fun _ => source
  | .run { path := none, .. } =>
    return CommandLine.run arguments (← readInput) fun _ => .error .notFound
  | _ => return CommandLine.run arguments { bytes := [] } fun _ => .error .notFound

end IncrementalSat

/-- Runs the command line, prints the outcome, and exits with its code. -/
def main (arguments : List String) : IO UInt32 := do
  let outcome ← IncrementalSat.runCommand arguments
  IO.print outcome.text
  return UInt32.ofNat outcome.code
