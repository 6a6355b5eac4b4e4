import IncrementalSat.Engine

/-!
# The catalog of options

The options that can be set through a session: first the limits, which the session itself knows,
then those options of the registry of the engine that are meant for tuning and do not bear the name
of a limit.  A write is checked against the stage, the index and the catalog, and then makes one
request to the engine, which judges the value.
-/

set_option autoImplicit false

namespace IncrementalSat

/-- An option as it is shown to a client. -/
structure Descriptor where
  name : String
  min : Int
  max : Int
  /-- The last stage in which the option may be set. -/
  maxStage : Stage
  tunable : Bool
  /-- Whether the option may be set for single atoms. -/
  indexed : Bool
deriving DecidableEq

/-- Where a write to an option goes. -/
inductive Target
  /-- To a limit of the engine, of the given kind. -/
  | limit (kind : String)
  /-- To the option of the engine with the same name. -/
  | native
deriving DecidableEq

/-- The options that set limits, each with the kind of its limit. -/
def limitOptions : List (Descriptor × String) :=
  [(⟨"ipasir.limits.decisions", -1, 2147483647, .unsat, false, false⟩, "decisions"),
    (⟨"ipasir.limits.conflicts", -1, 2147483647, .unsat, false, false⟩, "conflicts")]

/-- Whether a name is that of an option that sets a limit. -/
def isLimitName (name : String) : Bool :=
  limitOptions.any fun entry => entry.1.name == name

/-- An option of the registry as it is shown to a client. -/
def NativeOption.descriptor (o : NativeOption) : Descriptor where
  name := o.name
  min := o.lo
  max := o.hi
  maxStage := if o.configurationOnly then .config else .input
  tunable := o.optimizable
  indexed := false

/-- Whether an option of the registry is shown to a client. -/
def NativeOption.isExposed (o : NativeOption) : Bool :=
  o.optimizable && !isLimitName o.name

/-- The options that can be set through a session, in order. -/
structure Catalog where
  entries : List Descriptor := []
deriving DecidableEq

namespace Catalog

variable {E : Type} [Engine E]

/-- The options of the registry of an engine that are shown to a client. -/
def exposed (engine : E) : List NativeOption :=
  (Engine.options engine).filter NativeOption.isExposed

/-- The catalog of an engine. -/
def build (engine : E) : Catalog where
  entries := limitOptions.map (·.1) ++ (exposed engine).map NativeOption.descriptor

/-- The entry of the given name. -/
def get? (catalog : Catalog) (name : String) : Option Descriptor :=
  catalog.entries.find? fun d => d.name == name

/-- The names in a catalog, in order. -/
def names (catalog : Catalog) : List String :=
  catalog.entries.map (·.name)

/-- The number of entries. -/
def size (catalog : Catalog) : Nat :=
  catalog.entries.length

/-- The option of the given name and where writes to it go, without building a catalog. -/
def lookup (engine : E) (name : String) : Option (Descriptor × Target) :=
  match limitOptions.find? fun entry => entry.1.name == name with
  | some (descriptor, kind) => some (descriptor, .limit kind)
  | none =>
    ((exposed engine).find? fun o => o.name == name).map fun o => (o.descriptor, .native)

end Catalog

/-- Makes the one request to an engine that a write asks for. -/
def Target.write {E : Type} [Engine E] (target : Target) (engine : E) (name : String)
    (value : Int) : E × Except EngineRefusal Unit :=
  match target with
  | .limit kind => Engine.limit engine kind value
  | .native => Engine.setOption engine name value

/-- Writes a value to an option of an engine in a stage, if the option is in the catalog, may still
be set, and no single atom is meant. -/
def writeOption {E : Type} [Engine E] (engine : E) (stage : Stage) (name : String)
    (value index : Int) : E × Except Refusal Unit × Array Event :=
  match Catalog.lookup engine name with
  | none => (engine, .error .unsupportedOption, #[.optionUnknown name])
  | some (descriptor, target) =>
    if !stage.within descriptor.maxStage then
      (engine, .error .invalidState, #[.optionLate name stage])
    else if descriptor.indexed then (engine, .error .unsupported, #[])
    else if index ≠ 0 then (engine, .error .invalidArgument, #[])
    else
      match target.write engine name value with
      | (engine, .ok ()) => (engine, .ok (), #[.optionSet name value])
      | (engine, .error cause) =>
        (engine, .error cause.refusal, #[.optionDeclined name value cause])

end IncrementalSat
