import IncrementalSat.Engine

/-!
# Settings of the clause-learning engine

The eight options of the engine, with the range and the initial value of each.  The value of an
option carries the proof that it lies in its range, so a configuration is valid by its type.
-/

set_option autoImplicit false

namespace IncrementalSat.Cdcl

/-- An option of the clause-learning engine. -/
inductive Setting
  | seed
  /-- The polarity of a decision on an atom without a saved phase, one for true. -/
  | phase
  | phaseSaving
  /-- The chance, per thousand, of deciding on an atom at random. -/
  | randomFrequency
  | restart
  /-- The number of conflicts by which the Luby sequence is scaled. -/
  | restartInterval
  /-- The decay of activity, per thousand. -/
  | decay
  /-- Whether a valuation found is held against the added clauses. -/
  | check
deriving DecidableEq

namespace Setting

/-- The options in the order of the registry. -/
def all : List Setting :=
  [seed, phase, phaseSaving, randomFrequency, restart, restartInterval, decay, check]

/-- The entry of an option in the registry. -/
def entry : Setting → NativeOption
  | seed => ⟨"seed", 0, 2147483647, 0, true, true⟩
  | phase => ⟨"phase", 0, 1, 1, true, false⟩
  | phaseSaving => ⟨"phasesaving", 0, 1, 1, true, false⟩
  | randomFrequency => ⟨"randomfreq", 0, 1000, 0, true, false⟩
  | restart => ⟨"restart", 0, 1, 1, true, false⟩
  | restartInterval => ⟨"restartint", 1, 1000000, 64, true, false⟩
  | decay => ⟨"decay", 500, 999, 950, true, false⟩
  | check => ⟨"check", 0, 1, 0, false, false⟩

/-- The option of the given name. -/
def ofName? (name : String) : Option Setting :=
  all.find? fun s => s.entry.name == name

/-- The values an option may have. -/
abbrev Value (s : Setting) : Type :=
  { value : Int // s.entry.accepts value = true }

end Setting

/-- The registry of the engine. -/
def registry : List NativeOption :=
  Setting.all.map Setting.entry

/-- A value for each option. -/
structure Settings where
  seed : Setting.seed.Value := ⟨0, rfl⟩
  phase : Setting.phase.Value := ⟨1, rfl⟩
  phaseSaving : Setting.phaseSaving.Value := ⟨1, rfl⟩
  randomFrequency : Setting.randomFrequency.Value := ⟨0, rfl⟩
  restart : Setting.restart.Value := ⟨1, rfl⟩
  restartInterval : Setting.restartInterval.Value := ⟨64, rfl⟩
  decay : Setting.decay.Value := ⟨950, rfl⟩
  check : Setting.check.Value := ⟨0, rfl⟩
deriving DecidableEq

namespace Settings

/-- The value of an option. -/
def get (c : Settings) : (s : Setting) → s.Value
  | .seed => c.seed
  | .phase => c.phase
  | .phaseSaving => c.phaseSaving
  | .randomFrequency => c.randomFrequency
  | .restart => c.restart
  | .restartInterval => c.restartInterval
  | .decay => c.decay
  | .check => c.check

/-- The settings with one option changed. -/
def set (c : Settings) : (s : Setting) → s.Value → Settings
  | .seed, v => { c with seed := v }
  | .phase, v => { c with phase := v }
  | .phaseSaving, v => { c with phaseSaving := v }
  | .randomFrequency, v => { c with randomFrequency := v }
  | .restart, v => { c with restart := v }
  | .restartInterval, v => { c with restartInterval := v }
  | .decay, v => { c with decay := v }
  | .check, v => { c with check := v }

/-- The value of the option with the given name. -/
def lookup (c : Settings) (name : String) : Option Int :=
  (Setting.ofName? name).map fun s => (c.get s).val

/-- Sets the option with the given name to a value in its range. -/
def write (c : Settings) (name : String) (value : Int) : Except EngineRefusal Settings :=
  match Setting.ofName? name with
  | none => .error .unknownOption
  | some s =>
    if h : s.entry.accepts value = true then .ok (c.set s ⟨value, h⟩) else .error .invalidValue

/-- An option has the value that was set last. -/
@[simp] theorem get_set_self (c : Settings) (s : Setting) (v : s.Value) :
    (c.set s v).get s = v := by
  cases s <;> rfl

/-- Setting an option leaves the others as they are. -/
theorem get_set_ne (c : Settings) {s t : Setting} (v : s.Value) (h : t ≠ s) :
    (c.set s v).get t = c.get t := by
  cases s <;> cases t <;> first | rfl | exact absurd rfl h

end Settings

end IncrementalSat.Cdcl
