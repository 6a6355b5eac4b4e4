import IncrementalSat.Text.Integer

/-!
# Command-line arguments

Arguments are options, with a value attached or in the next argument, flags, and at most one path.
Short ones combine, a double dash makes a path of what follows, and a dash alone is a path.
Repeated flags, values that do not parse and unknown names are errors.
-/

set_option autoImplicit false

namespace IncrementalSat.CommandLine

/-- What a run is asked to do. -/
structure Request where
  path : Option String := none
  settings : List (String × Int) := []
  assumptions : List Int32 := []
  listOptions : Bool := false
  showModel : Bool := false
  showFailed : Bool := false
deriving DecidableEq

/-- What arguments ask for. -/
inductive Arguments
  | run (request : Request)
  | version
  | invalid
deriving DecidableEq

/-- A name and a 64-bit value, split at the first equals sign. -/
def setting? (text : List Char) : Option (String × Int) :=
  match text.dropWhile (· != '=') with
  | [] => none
  | _ :: value =>
    (Text.signed? 64 value).map fun v => (String.ofList (text.takeWhile (· != '=')), v)

namespace Request

/-- Adds a setting. -/
def addSetting (r : Request) (text : List Char) : Option Request :=
  (setting? text).map fun s => { r with settings := r.settings ++ [s] }

/-- Adds an assumption. -/
def addAssumption (r : Request) (text : List Char) : Option Request :=
  (Text.int32? text).map fun lit => { r with assumptions := r.assumptions ++ [lit] }

/-- Sets the flag that asks for the list of options, once. -/
def flagList (r : Request) : Option Request :=
  if r.listOptions then none else some { r with listOptions := true }

/-- Sets the flag that asks for the valuation, once. -/
def flagModel (r : Request) : Option Request :=
  if r.showModel then none else some { r with showModel := true }

/-- Sets the flag that asks for the failed assumptions, once. -/
def flagFailed (r : Request) : Option Request :=
  if r.showFailed then none else some { r with showFailed := true }

/-- Sets the path, once, to a text that is not empty. -/
def setPath (r : Request) (text : List Char) : Option Request :=
  if text.isEmpty || r.path.isSome then none else some { r with path := some (String.ofList text) }

/-- Takes every argument for a path. -/
def addPaths (r : Request) : List (List Char) → Option Request
  | [] => some r
  | text :: rest => (r.setPath text).bind fun r => r.addPaths rest

end Request

/-- What the characters of one argument come to. -/
inductive Reading
  | done (request : Request)
  /-- The next argument is the value of the option that sets options. -/
  | awaitsSetting (request : Request)
  /-- The next argument is the value of the option that assumes literals. -/
  | awaitsAssumption (request : Request)
  | version
  | invalid

/-- The reading that goes on with a request, if there is one. -/
def Reading.ofOption : Option Request → Reading
  | some request => .done request
  | none => .invalid

/-- A value attached to a short option, without an equals sign in front. -/
def attached : List Char → List Char
  | '=' :: value => value
  | value => value

/-- Reads the short flags and options of one argument. -/
def readShort (r : Request) : List Char → Reading
  | [] => .done r
  | 'V' :: _ => .version
  | 'm' :: rest =>
    match r.flagModel with
    | some r => readShort r rest
    | none => .invalid
  | 'f' :: rest =>
    match r.flagFailed with
    | some r => readShort r rest
    | none => .invalid
  | 's' :: rest =>
    if rest.isEmpty then .awaitsSetting r else .ofOption (r.addSetting (attached rest))
  | 'a' :: rest =>
    if rest.isEmpty then .awaitsAssumption r else .ofOption (r.addAssumption (attached rest))
  | _ :: _ => .invalid

/-- Reads a long flag or option, without its dashes. -/
def readLong (r : Request) (text : List Char) : Reading :=
  let name := String.ofList (text.takeWhile (· != '='))
  match text.dropWhile (· != '=') with
  | [] =>
    if name = "version" then .version
    else if name = "list-options" then .ofOption r.flagList
    else if name = "model" then .ofOption r.flagModel
    else if name = "failed" then .ofOption r.flagFailed
    else if name = "set" then .awaitsSetting r
    else if name = "assume" then .awaitsAssumption r
    else .invalid
  | _ :: value =>
    if name = "set" then .ofOption (r.addSetting value)
    else if name = "assume" then .ofOption (r.addAssumption value)
    else .invalid

/-- Whether an argument in the place of a value would be taken for an option. -/
def looksLikeOption : List Char → Bool
  | '-' :: _ :: _ => true
  | _ => false

/-- Reads one argument. -/
def readOne (r : Request) : List Char → Reading
  | '-' :: '-' :: name => readLong r name
  | '-' :: c :: rest => readShort r (c :: rest)
  | text => .ofOption (r.setPath text)

/-- The arguments that end in a request, if it is a valid one. -/
def Arguments.ofOption : Option Request → Arguments
  | some request => .run request
  | none => .invalid

/-- Reads arguments into a request. -/
def readArguments (r : Request) : List (List Char) → Arguments
  | [] => .run r
  | ['-', '-'] :: rest => Arguments.ofOption (r.addPaths rest)
  | text :: rest =>
    match readOne r text with
    | .done r => readArguments r rest
    | .version => .version
    | .invalid => .invalid
    | .awaitsSetting r =>
      match rest with
      | [] => .invalid
      | value :: rest =>
        if looksLikeOption value then .invalid
        else
          match r.addSetting value with
          | some r => readArguments r rest
          | none => .invalid
    | .awaitsAssumption r =>
      match rest with
      | [] => .invalid
      | value :: rest =>
        match r.addAssumption value with
        | some r => readArguments r rest
        | none => .invalid

/-- Reads the arguments of a command line. -/
def Arguments.parse (arguments : List String) : Arguments :=
  readArguments {} (arguments.map String.toList)

end IncrementalSat.CommandLine
