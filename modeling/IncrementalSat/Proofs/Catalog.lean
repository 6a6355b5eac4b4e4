import Mathlib
import IncrementalSat.Proofs.Refusals

/-!
# The catalog and the writes it governs

The option of a name is found by looking it up without a catalog, or in the catalog that is built of
all options.  Both find the same, whatever the registry of the engine holds: limits come first, and
an option that bears the name of a limit is shown nowhere.  What is found then governs a write,
which is refused before the engine is reached, or is one request.
-/

set_option autoImplicit false

namespace IncrementalSat

open Engine (Request)

/-! ## Limits and the options beside them -/

/-- A name is reserved for a limit exactly if it is in the table of limits. -/
theorem isLimitName_iff {name : String} :
    isLimitName name = true ↔ ∃ entry ∈ limitOptions, entry.1.name = name := by
  simp [isLimitName]

/-- An option is shown if it is meant for tuning and does not bear the name of a limit. -/
theorem NativeOption.isExposed_iff {o : NativeOption} :
    o.isExposed = true ↔
      o.optimizable = true ∧ ∀ entry ∈ limitOptions, entry.1.name ≠ o.name := by
  rw [isExposed, Bool.and_eq_true, Bool.not_eq_true', ← Bool.not_eq_true, isLimitName_iff]
  simp

/-- No option that sets a limit is set for single atoms. -/
theorem indexed_of_mem_limitOptions {entry : Descriptor × String} (h : entry ∈ limitOptions) :
    entry.1.indexed = false := by
  have hall : ∀ entry ∈ limitOptions, entry.1.indexed = false := by decide
  exact hall entry h

/-- The names of limits are different. -/
theorem nodup_limitNames : (limitOptions.map fun entry => entry.1.name).Nodup := by
  decide

/-- The request that a write of a value to the option of a name stands for. -/
inductive Writes (name : String) (value : Int) : Request → Prop
  /-- The name of a limit stands for that limit. -/
  | limit {descriptor : Descriptor} {kind : String} (h : (descriptor, kind) ∈ limitOptions)
      (hname : descriptor.name = name) : Writes name value (.limit kind value)
  /-- Any other name stands for the option of the engine with that name. -/
  | native (h : ∀ entry ∈ limitOptions, entry.1.name ≠ name) :
      Writes name value (.setOption name value)

namespace Catalog

variable {E : Type} [Engine E] {engine : E} {name : String} {descriptor : Descriptor}
  {target : Target}

/-! ## Looking up and building -/

/-- What is looked up is a limit of that name, or, if there is none, an option of the engine. -/
theorem lookup_eq_some (h : lookup engine name = some (descriptor, target)) :
    (∃ kind, (descriptor, kind) ∈ limitOptions ∧ descriptor.name = name ∧
        target = .limit kind) ∨
      ((∀ entry ∈ limitOptions, entry.1.name ≠ name) ∧
        ∃ o ∈ Engine.options engine, o.name = name ∧ o.isExposed = true ∧
          descriptor = o.descriptor ∧ target = .native) := by
  unfold lookup at h
  split at h
  · rename_i kind hfind
    cases h
    exact .inl ⟨kind, List.mem_of_find?_eq_some hfind, by simpa using List.find?_some hfind, rfl⟩
  · rename_i hfind
    obtain ⟨o, ho, hpair⟩ := Option.map_eq_some_iff.1 h
    cases hpair
    have hmem := List.mem_filter.1 (List.mem_of_find?_eq_some ho)
    refine .inr ⟨fun entry hentry => ?_, o, hmem.1, by simpa using List.find?_some ho, hmem.2,
      rfl, rfl⟩
    simpa using List.find?_eq_none.1 hfind entry hentry

/-- No option that is found is set for single atoms. -/
theorem indexed_of_lookup (h : lookup engine name = some (descriptor, target)) :
    descriptor.indexed = false := by
  obtain ⟨kind, hmem, -, -⟩ | ⟨-, o, -, -, -, rfl, -⟩ := lookup_eq_some h
  · exact indexed_of_mem_limitOptions hmem
  · rfl

/-- The request of a write goes where the name says. -/
theorem writes_of_lookup (h : lookup engine name = some (descriptor, target)) (value : Int) :
    Writes name value (target.request name value) := by
  obtain ⟨kind, hmem, hname, rfl⟩ | ⟨hnone, -, -, -, -, -, rfl⟩ := lookup_eq_some h
  · exact .limit hmem hname
  · exact .native hnone

/-- The option of a name is the first of that name in the catalog. -/
theorem get?_build (engine : E) (name : String) :
    (build engine).get? name = (lookup engine name).map Prod.fst := by
  have hlimits : (limitOptions.map Prod.fst).find? (fun d => d.name == name) =
      (limitOptions.find? fun entry => entry.1.name == name).map Prod.fst :=
    List.find?_map ..
  have hnatives : ((exposed engine).map NativeOption.descriptor).find? (fun d => d.name == name) =
      ((exposed engine).find? fun o => o.name == name).map NativeOption.descriptor :=
    List.find?_map ..
  show (limitOptions.map Prod.fst ++ (exposed engine).map NativeOption.descriptor).find? _ = _
  rw [List.find?_append, hlimits, hnatives, lookup]
  cases limitOptions.find? fun entry => entry.1.name == name with
  | some entry => rfl
  | none => cases (exposed engine).find? fun o => o.name == name <;> rfl

/-- The catalog shows the limits, and then the options for tuning that bear no name of a limit. -/
theorem entries_build (engine : E) :
    (build engine).entries = limitOptions.map Prod.fst ++
      ((Engine.options engine).filter fun o =>
        o.optimizable && limitOptions.all fun entry => entry.1.name != o.name).map
          NativeOption.descriptor := by
  have hexposed : ∀ o : NativeOption, o.isExposed =
      (o.optimizable && limitOptions.all fun entry => entry.1.name != o.name) := by
    intro o
    rw [Bool.eq_iff_iff, NativeOption.isExposed_iff]
    simp
  show _ ++ ((Engine.options engine).filter NativeOption.isExposed).map _ = _
  rw [funext hexposed]

/-- If the names in a registry are different, so are those in the catalog. -/
theorem nodup_names_build (h : ((Engine.options engine).map NativeOption.name).Nodup) :
    (build engine).names.Nodup := by
  have hnames : (build engine).names = (limitOptions.map fun entry => entry.1.name) ++
      (exposed engine).map NativeOption.name := by
    rw [names, build, List.map_append, List.map_map, List.map_map]
    rfl
  rw [hnames, List.nodup_append]
  refine ⟨nodup_limitNames, h.sublist (List.filter_sublist.map _), ?_⟩
  intro limit hlimit native hnative heq
  obtain ⟨entry, hentry, rfl⟩ := List.mem_map.1 hlimit
  obtain ⟨o, ho, rfl⟩ := List.mem_map.1 hnative
  exact (NativeOption.isExposed_iff.1 (List.mem_filter.1 ho).2).2 entry hentry heq

end Catalog

/-! ## Writes -/

namespace Session

variable {E : Type} [Engine E] {s : Session E} {name : String} {descriptor : Descriptor}
  {target : Target}

/-- A write to an option that is not found makes no request. -/
theorem setOption_unknown (h : Catalog.lookup s.engine name = none) (value index : Int) :
    (s.setOption name value index).2 = .error .unsupportedOption ∧
      (s.setOption name value index).1.engine = s.engine := by
  simp [setOption, writeOption, h, note]

/-- A write in a stage beyond the last of its option makes no request. -/
theorem setOption_late (h : Catalog.lookup s.engine name = some (descriptor, target))
    (hlate : descriptor.maxStage.rank < s.stage.rank) (value index : Int) :
    (s.setOption name value index).2 = .error .invalidState ∧
      (s.setOption name value index).1.engine = s.engine := by
  have hwithin : s.stage.within descriptor.maxStage = false := by simpa [Stage.within] using hlate
  simp [setOption, writeOption, h, hwithin, note]

/-- A write for a single atom makes no request. -/
theorem setOption_index (h : Catalog.lookup s.engine name = some (descriptor, target))
    (hstage : s.stage.rank ≤ descriptor.maxStage.rank) (value : Int) {index : Int}
    (hindex : index ≠ 0) :
    (s.setOption name value index).2 = .error .invalidArgument ∧
      (s.setOption name value index).1.engine = s.engine := by
  have hwithin : s.stage.within descriptor.maxStage = true := by simpa [Stage.within] using hstage
  simp [setOption, writeOption, h, hwithin, Catalog.indexed_of_lookup h, hindex, note]

/-- Any other write is the request of its option, and ends as the request does. -/
theorem setOption_request (h : Catalog.lookup s.engine name = some (descriptor, target))
    (hstage : s.stage.rank ≤ descriptor.maxStage.rank) (value : Int) :
    (s.setOption name value 0).2 =
        (Engine.answer s.engine (target.request name value)).mapError EngineRefusal.refusal ∧
      (s.setOption name value 0).1.engine =
        Engine.serve s.engine (target.request name value) := by
  have hwithin : s.stage.within descriptor.maxStage = true := by simpa [Stage.within] using hstage
  simp only [setOption, writeOption, h, hwithin, Catalog.indexed_of_lookup h, serve_request]
  cases Engine.answer s.engine (target.request name value) with
  | ok => exact ⟨rfl, rfl⟩
  | error cause => exact ⟨rfl, rfl⟩

/-- What a write to an option comes to, by what the catalog shows under the name: the result and the
recorded engine, which has received nothing, or one request. -/
structure Governed (s : Session E) (found : Option Descriptor) (name : String) (value index : Int)
    (result : Except Refusal Unit) (engine : Recorded E) : Prop where
  unknown : found = none → result = .error .unsupportedOption ∧ engine = { engine := s.engine }
  late : ∀ descriptor, found = some descriptor → descriptor.maxStage.rank < s.stage.rank →
    result = .error .invalidState ∧ engine = { engine := s.engine }
  atom : ∀ descriptor, found = some descriptor → s.stage.rank ≤ descriptor.maxStage.rank →
    index ≠ 0 → result = .error .invalidArgument ∧ engine = { engine := s.engine }
  request : ∀ descriptor, found = some descriptor → s.stage.rank ≤ descriptor.maxStage.rank →
    index = 0 → ∃ request, Writes name value request ∧
      result = (Engine.answer s.engine request).mapError EngineRefusal.refusal ∧
      engine = { engine := Engine.serve s.engine request, log := [(s.engine, request)] }

/-- What the catalog shows under a name governs every write to it. -/
theorem governed (s : Session E) (name : String) (value index : Int) :
    Governed s ((Catalog.build s.engine).get? name) name value index
      (s.record.setOption name value index).2 (s.record.setOption name value index).1.engine := by
  have hfound : ∀ {descriptor}, (Catalog.build s.engine).get? name = some descriptor →
      ∃ target, Catalog.lookup s.record.engine name = some (descriptor, target) := by
    intro descriptor h
    rw [Catalog.get?_build] at h
    obtain ⟨⟨_, target⟩, hsome, rfl⟩ := Option.map_eq_some_iff.1 h
    exact ⟨target, hsome⟩
  constructor
  case unknown =>
    intro h
    rw [Catalog.get?_build, Option.map_eq_none_iff] at h
    exact setOption_unknown (s := s.record) h value index
  case late =>
    intro descriptor h hlate
    obtain ⟨target, h⟩ := hfound h
    exact setOption_late h hlate value index
  case atom =>
    intro descriptor h hstage hindex
    obtain ⟨target, h⟩ := hfound h
    exact setOption_index h hstage value hindex
  case request =>
    intro descriptor h hstage hindex
    obtain ⟨target, h⟩ := hfound h
    subst hindex
    obtain ⟨hresult, hengine⟩ := setOption_request h hstage value
    rw [answer_recorded] at hresult
    rw [serve_recorded] at hengine
    exact ⟨target.request name value, Catalog.writes_of_lookup h value, hresult, hengine⟩

end Session

/-! ## Writes to the clause-learning solver -/

namespace Cdcl

/-- An option is found under its own name. -/
theorem Setting.ofName?_entry_name (t : Setting) : Setting.ofName? t.entry.name = some t := by
  cases t <;> decide

/-- The option found under a name has this name. -/
theorem Setting.entry_name_of_ofName? {name : String} {t : Setting}
    (h : Setting.ofName? name = some t) : t.entry.name = name := by
  simpa using List.find?_some h

/-- An option of the registry is a setting. -/
theorem Setting.exists_of_mem_registry {o : NativeOption} (h : o ∈ registry) :
    ∃ t : Setting, o = t.entry := by
  obtain ⟨t, -, rfl⟩ := List.mem_map.1 h
  exact ⟨t, rfl⟩

namespace Solver

variable {R : Type} [Random.Source R] {s : Solver R} {t : Setting} {value : Int}

/-- A value out of the range of a setting is declined, and nothing changes. -/
theorem setOption_of_not_accepts (h : ¬ t.entry.accepts value = true) :
    s.setOption t.entry.name value = (s, .error .invalidValue) := by
  simp [setOption, Settings.write, Setting.ofName?_entry_name, h]

/-- A value in the range of a setting is taken, and is then the value of that setting alone. -/
theorem setOption_of_accepts (h : t.entry.accepts value = true) :
    (s.setOption t.entry.name value).2 = .ok () ∧
      (s.setOption t.entry.name value).1.settings = s.settings.set t ⟨value, h⟩ := by
  have hwrite : s.settings.write t.entry.name value = .ok (s.settings.set t ⟨value, h⟩) := by
    simp [Settings.write, Setting.ofName?_entry_name, h]
  unfold setOption
  rw [hwrite]
  dsimp only
  split
  · exact ⟨rfl, rfl⟩
  · exact ⟨rfl, rfl⟩

end Solver

namespace Settings

variable {c : Settings} {t : Setting}

/-- The value that was set is found under the name of the option. -/
theorem lookup_set_self (v : t.Value) : (c.set t v).lookup t.entry.name = some v.val := by
  simp [lookup, Setting.ofName?_entry_name]

/-- Setting an option changes nothing that is found under another name. -/
theorem lookup_set_ne (v : t.Value) {name : String} (h : name ≠ t.entry.name) :
    (c.set t v).lookup name = c.lookup name := by
  unfold lookup
  cases hname : Setting.ofName? name with
  | none => rfl
  | some u =>
    have hne : u ≠ t := by
      rintro rfl
      exact h (Setting.entry_name_of_ofName? hname).symm
    rw [Option.map_some, Option.map_some, get_set_ne c v hne]

end Settings

end Cdcl

namespace Session

variable {R : Type} [Random.Source R] {s : Session (Cdcl.Solver R)} {name : String}
  {descriptor : Descriptor} {value : Int}

/-- A write to an option of the solver sets it, if the value lies in the range shown in the catalog,
and otherwise changes nothing. -/
structure Judged (s : Session (Cdcl.Solver R)) (descriptor : Descriptor) (name : String)
    (value : Int) (result : Except Refusal Unit) (engine : Cdcl.Solver R) : Prop where
  ok_iff : result = .ok () ↔ descriptor.min ≤ value ∧ value ≤ descriptor.max
  set : result = .ok () → Engine.getOption engine name = some value ∧
    ∀ other, other ≠ name → Engine.getOption engine other = Engine.getOption s.engine other
  declined : result ≠ .ok () → result = .error .invalidOptionValue ∧ engine = s.engine

/-- The solver judges a value by the range that the catalog shows. -/
theorem judged (hfound : (Catalog.build s.engine).get? name = some descriptor)
    (hnative : ∀ entry ∈ limitOptions, entry.1.name ≠ name)
    (hstage : s.stage.rank ≤ descriptor.maxStage.rank) (value : Int) :
    Judged s descriptor name value (s.setOption name value 0).2
      (s.setOption name value 0).1.engine := by
  rw [Catalog.get?_build] at hfound
  obtain ⟨⟨_, target⟩, hlookup, rfl⟩ := Option.map_eq_some_iff.1 hfound
  obtain ⟨hresult, hengine⟩ := setOption_request hlookup hstage value
  obtain ⟨kind, hmem, hname, -⟩ | ⟨-, o, hmem, rfl, -, rfl, rfl⟩ :=
    Catalog.lookup_eq_some hlookup
  · exact absurd hname (hnative _ hmem)
  obtain ⟨t, rfl⟩ := Cdcl.Setting.exists_of_mem_registry hmem
  have hrange : t.entry.accepts value = true ↔ t.entry.lo ≤ value ∧ value ≤ t.entry.hi := by
    simp [NativeOption.accepts]
  have hanswer : Engine.answer s.engine (.setOption t.entry.name value) =
    (s.engine.setOption t.entry.name value).2 := rfl
  have hserve : Engine.serve s.engine (.setOption t.entry.name value) =
    (s.engine.setOption t.entry.name value).1 := rfl
  rw [Target.request, hanswer] at hresult
  rw [Target.request, hserve] at hengine
  rw [hresult, hengine]
  by_cases haccepts : t.entry.accepts value = true
  · obtain ⟨hok, hsettings⟩ := Cdcl.Solver.setOption_of_accepts (s := s.engine) haccepts
    rw [hok]
    refine ⟨iff_of_true rfl (hrange.1 haccepts), fun _ => ⟨?_, fun other hother => ?_⟩,
      fun h => absurd rfl h⟩
    · show (s.engine.setOption t.entry.name value).1.settings.lookup _ = _
      rw [hsettings, Cdcl.Settings.lookup_set_self]
    · show (s.engine.setOption t.entry.name value).1.settings.lookup _ = _
      rw [hsettings, Cdcl.Settings.lookup_set_ne _ hother]
      rfl
  · rw [Cdcl.Solver.setOption_of_not_accepts haccepts]
    exact ⟨iff_of_false nofun (mt hrange.2 haccepts), nofun, fun _ => ⟨rfl, rfl⟩⟩

/-- The catalog, the lookup of a name and the writes agree.  For any engine, whatever its registry,
the option looked up under a name is the one that the catalog shows, and the catalog shows the
limits and then, in order, the options for tuning that bear no name of a limit, without a name
twice if the registry has none twice.  A write, with the engine recorded, which makes no difference,
goes by what the catalog shows.  The clause-learning solver takes a value of an option of its own if
and only if the value lies in the range shown. -/
theorem catalog_governs_writes (R : Type) [Random.Source R] :
    (∀ (E : Type) [Engine E] (engine : E),
      (∀ name, (Catalog.lookup engine name).map Prod.fst = (Catalog.build engine).get? name) ∧
        (Catalog.build engine).entries = limitOptions.map Prod.fst ++
          ((Engine.options engine).filter fun o =>
            o.optimizable && limitOptions.all fun entry => entry.1.name != o.name).map
              NativeOption.descriptor ∧
        (((Engine.options engine).map NativeOption.name).Nodup →
          (Catalog.build engine).names.Nodup)) ∧
      (∀ (E : Type) [Engine E] (s : Session E) (name : String) (value index : Int),
        let written := s.record.setOption name value index
        (written.1.forget = (s.setOption name value index).1 ∧
            written.2 = (s.setOption name value index).2) ∧
          Governed s ((Catalog.build s.engine).get? name) name value index written.2
            written.1.engine) ∧
      ∀ (s : Session (Cdcl.Solver R)) (name : String) (descriptor : Descriptor) (value : Int),
        (Catalog.build s.engine).get? name = some descriptor →
        (∀ entry ∈ limitOptions, entry.1.name ≠ name) →
        s.stage.rank ≤ descriptor.maxStage.rank →
          Judged s descriptor name value (s.setOption name value 0).2
            (s.setOption name value 0).1.engine := by
  refine ⟨fun E _ engine => ⟨fun name => (Catalog.get?_build engine name).symm,
    Catalog.entries_build engine, Catalog.nodup_names_build⟩,
    fun E _ s name value index => ⟨forget_setOption (s := s.record) name value index,
      governed s name value index⟩,
    fun s name descriptor value hfound hnative hstage => judged hfound hnative hstage value⟩

/-- The decay of activity may be set until a solve, and only to a value in its range. -/
theorem catalog_governs_writes_of_decay :
    let s := after Random.Pcg [.addClause [1, 2]]
    (Catalog.build s.engine).names.Nodup ∧ (s.setOption "decay" 900 0).2 = .ok () ∧
      Engine.getOption (s.setOption "decay" 900 0).1.engine "decay" = some 900 ∧
      (s.setOption "decay" 1000 0).2 = .error .invalidOptionValue := by
  intro s
  have hfound : (Catalog.build s.engine).get? "decay" =
    some Cdcl.Setting.decay.entry.descriptor := by decide +kernel
  have hnative : ∀ entry ∈ limitOptions, entry.1.name ≠ "decay" := by decide
  have hstage : s.stage.rank ≤ Cdcl.Setting.decay.entry.descriptor.maxStage.rank := by
    decide +kernel
  obtain ⟨hcatalog, -, hjudged⟩ := catalog_governs_writes Random.Pcg
  have htaken := hjudged s "decay" _ 900 hfound hnative hstage
  have hdeclined := hjudged s "decay" _ 1000 hfound hnative hstage
  have hok : (s.setOption "decay" 900 0).2 = .ok () := htaken.ok_iff.2 (by decide)
  have hnot : (s.setOption "decay" 1000 0).2 ≠ .ok () := mt hdeclined.ok_iff.1 (by decide)
  exact ⟨(hcatalog _ s.engine).2.2 (by decide +kernel), hok, (htaken.set hok).1,
    (hdeclined.declined hnot).1⟩

end Session

end IncrementalSat
