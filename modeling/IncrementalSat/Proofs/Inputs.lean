import Mathlib
import IncrementalSat.Formula
import IncrementalSat.Session.Call

/-!
# What a session has accepted

The inputs of a session are the integers added, the assumptions noted and the solves started by
calls that were not refused.  They determine the stream of added integers, with the clauses that it
closes, the assumptions that are pending, and the largest atom given.  A formula that is read gives
the integers of its lines up to the first that is refused.
-/

set_option autoImplicit false

namespace IncrementalSat

/-- An input that a session has accepted. -/
inductive Input
  /-- A literal of a clause, or the zero that closes it. -/
  | literal (lit : Int32)
  /-- A literal assumed for the next solve. -/
  | assumption (lit : Int32)
  /-- A solve, which uses up the assumptions. -/
  | solve
deriving DecidableEq

namespace Input

/-- The atom of an input, counted from one, and zero if there is none. -/
def atom : Input → Nat
  | literal lit => lit.toInt.natAbs
  | assumption lit => lit.toInt.natAbs
  | solve => 0

/-- An input that a session may accept. -/
def Proper : Input → Prop
  | literal lit => lit ≠ Int32.minValue
  | assumption lit => isMalformed lit = false
  | solve => True

/-- The integers added. -/
def stream (inputs : List Input) : List Int32 :=
  inputs.filterMap fun
    | literal lit => some lit
    | _ => none

/-- The assumptions noted since the last solve. -/
def pending (inputs : List Input) : List Int32 :=
  inputs.foldl (fun noted i =>
    match i with
    | literal _ => noted
    | assumption lit => noted ++ [lit]
    | solve => []) []

/-- The largest atom given. -/
def largestAtom (inputs : List Input) : Nat :=
  inputs.foldl (fun top i => max top i.atom) 0

/-- The clauses closed. -/
def formula (inputs : List Input) : List (List Literal) :=
  closedClauses (stream inputs)

/-- The integers added by inputs in two parts come one part after the other. -/
theorem stream_append (inputs more : List Input) :
    stream (inputs ++ more) = stream inputs ++ stream more :=
  List.filterMap_append

/-- An assumption is pending until the next solve, which leaves none. -/
theorem pending_append (inputs : List Input) (i : Input) :
    pending (inputs ++ [i]) =
      match i with
      | literal _ => pending inputs
      | assumption lit => pending inputs ++ [lit]
      | solve => [] := by
  simp only [pending, List.foldl_append, List.foldl_cons, List.foldl_nil]

/-- The largest atom of one more input is that of the input or of those before. -/
theorem largestAtom_append (inputs : List Input) (i : Input) :
    largestAtom (inputs ++ [i]) = max (largestAtom inputs) i.atom := by
  simp only [largestAtom, List.foldl_append, List.foldl_cons, List.foldl_nil]

/-- No atom given is larger than the largest. -/
theorem atom_le_largestAtom {inputs : List Input} {i : Input} (h : i ∈ inputs) :
    i.atom ≤ largestAtom inputs := by
  induction inputs using List.reverseRecOn with
  | nil => simp at h
  | append_singleton inputs j ih =>
    rw [largestAtom_append]
    cases List.mem_append.1 h with
    | inl h => exact (ih h).trans (le_max_left _ _)
    | inr h =>
      obtain rfl := List.mem_singleton.1 h
      exact le_max_right _ _

/-- The integers added are those of the inputs that add one. -/
theorem mem_stream {inputs : List Input} {lit : Int32} :
    lit ∈ stream inputs ↔ literal lit ∈ inputs := by
  simp only [stream, List.mem_filterMap]
  constructor
  · rintro ⟨i, hi, hlit⟩
    cases i with
    | literal n =>
      obtain rfl := Option.some.inj hlit
      exact hi
    | assumption n => simp at hlit
    | solve => simp at hlit
  · exact fun h => ⟨_, h, rfl⟩

/-- A pending assumption was assumed. -/
theorem mem_of_mem_pending {inputs : List Input} {lit : Int32} (h : lit ∈ pending inputs) :
    assumption lit ∈ inputs := by
  induction inputs using List.reverseRecOn with
  | nil => simp [pending] at h
  | append_singleton inputs i ih =>
    rw [pending_append] at h
    cases i with
    | literal n => exact List.mem_append_left _ (ih h)
    | assumption n =>
      cases List.mem_append.1 h with
      | inl h => exact List.mem_append_left _ (ih h)
      | inr h =>
        rw [List.mem_singleton.1 h]
        exact List.mem_append_right _ List.mem_cons_self
    | solve => simp at h

end Input

/-! ## Clauses of a stream -/

/-- A stream that goes on goes on with the clause that is open. -/
theorem closedFrom_stream_append (clause : List Literal) (stream more : List Int32) :
    closedFrom clause (stream ++ more) =
      ((closedFrom clause stream).1 ++ (closedFrom (closedFrom clause stream).2.reverse more).1,
        (closedFrom (closedFrom clause stream).2.reverse more).2) := by
  induction stream generalizing clause with
  | nil => simp [closedFrom]
  | cons lit rest ih =>
    rw [List.cons_append, closedFrom, closedFrom]
    by_cases hlit : lit = 0
    · simp only [if_pos hlit, ih, List.cons_append]
    · simp only [if_neg hlit]
      exact ih _

/-- A non-zero integer goes on with the open clause, and a zero closes it. -/
theorem closedFrom_append (clause : List Literal) (stream : List Int32) (lit : Int32) :
    closedFrom clause (stream ++ [lit]) =
      if lit = 0 then
        ((closedFrom clause stream).1 ++ [(closedFrom clause stream).2], [])
      else
        ((closedFrom clause stream).1,
          (closedFrom clause stream).2 ++ [Literal.ofInteger lit]) := by
  rw [closedFrom_stream_append]
  by_cases hlit : lit = 0
  · simp [closedFrom, hlit]
  · simp [closedFrom, hlit]

/-- Each zero closes a clause. -/
theorem length_closedFrom (clause : List Literal) (stream : List Int32) :
    (closedFrom clause stream).1.length = stream.count 0 := by
  induction stream generalizing clause with
  | nil => rfl
  | cons lit rest ih =>
    rw [closedFrom]
    by_cases hlit : lit = 0
    · subst hlit
      simp [ih]
    · simp [hlit, ih]

/-- No clause is left open if and only if the stream is empty or ends with a zero. -/
theorem closedFrom_snd_eq_nil_iff {stream : List Int32} :
    (closedFrom [] stream).2 = [] ↔ ∀ lit ∈ stream.getLast?, lit = 0 := by
  induction stream using List.reverseRecOn with
  | nil => simp [closedFrom]
  | append_singleton stream lit _ =>
    rw [closedFrom_append, List.getLast?_concat]
    by_cases hlit : lit = 0
    · simp [hlit]
    · simp [hlit]

/-- The literals of the clauses of a stream, closed or not, are those of its integers. -/
theorem mem_of_mem_closedFrom {stream : List Int32} {clause : List Literal} {l : Literal}
    (h : (∃ c ∈ (closedFrom clause stream).1, l ∈ c) ∨ l ∈ (closedFrom clause stream).2) :
    l ∈ clause ∨ ∃ lit ∈ stream, lit ≠ 0 ∧ Literal.ofInteger lit = l := by
  induction stream generalizing clause with
  | nil => exact .inl (by simpa [closedFrom] using h)
  | cons n rest ih =>
    rw [closedFrom] at h
    by_cases hn : n = 0
    · simp only [if_pos hn] at h
      have hrest : l ∈ clause ∨
          (∃ c ∈ (closedFrom [] rest).1, l ∈ c) ∨ l ∈ (closedFrom [] rest).2 := by
        rcases h with ⟨c, hc, hl⟩ | hl
        · rcases List.mem_cons.1 hc with rfl | hc
          · exact .inl (by simpa using hl)
          · exact .inr (.inl ⟨c, hc, hl⟩)
        · exact .inr (.inr hl)
      apply hrest.imp_right
      intro hrest
      obtain ⟨lit, hlit, hne, he⟩ := (ih hrest).resolve_left List.not_mem_nil
      exact ⟨lit, List.mem_cons_of_mem _ hlit, hne, he⟩
    · simp only [if_neg hn] at h
      rcases ih h with hl | ⟨lit, hlit, hne, he⟩
      · rcases List.mem_cons.1 hl with rfl | hl
        · exact .inr ⟨n, List.mem_cons_self, hn, rfl⟩
        · exact .inl hl
      · exact .inr ⟨lit, List.mem_cons_of_mem _ hlit, hne, he⟩

/-! ## Integers of a formula that is read -/

namespace Dimacs

/-- The integers of the fields of a line that are added, and whether all are. -/
def addedFields : List (List Char) → List Int32 × Bool
  | [] => ([], true)
  | field :: rest =>
    match Text.int32? field with
    | none => ([], false)
    | some lit =>
      if lit = Int32.minValue then ([], false)
      else (lit :: (addedFields rest).1, (addedFields rest).2)

/-- The integers that are added by reading lines. -/
def added : List (Except ReadFailure String) → List Int32
  | [] => []
  | .error _ :: _ => []
  | .ok text :: rest =>
    match Line.ofText text.toList with
    | .skipped => added rest
    | .stop => []
    | .problem none => []
    | .problem (some _) => added rest
    | .literals fields =>
      match addedFields fields with
      | (literals, true) => literals ++ added rest
      | (literals, false) => literals

end Dimacs

/-! ## Inputs of calls -/

namespace Session

variable {E : Type} [Engine E]

/-- The inputs that a session accepts by a call. -/
def inputs (s : Session E) : Call → List Input
  | .add lit =>
    match (s.add lit).2 with
    | .ok () => [.literal lit]
    | .error _ => []
  | .addClause clause =>
    match (s.addClause clause).2 with
    | .ok () => (clause ++ [0]).map .literal
    | .error _ => []
  | .assume lit =>
    match (s.assume lit).2 with
    | .ok () => [.assumption lit]
    | .error _ => []
  | .solve =>
    match s.solve.2 with
    | .ok _ => [.solve]
    | .error _ => []
  | .read source => (Dimacs.added source.lines).map .literal
  | _ => []

/-- The inputs that a session accepts by calls, one after another. -/
def history (s : Session E) : List Call → List Input
  | [] => []
  | call :: rest => s.inputs call ++ (s.perform call).history rest

/-- The inputs accepted by calls in two parts are accepted one part after the other. -/
theorem history_append (s : Session E) (calls more : List Call) :
    s.history (calls ++ more) = s.history calls ++ (s.performAll calls).history more := by
  induction calls generalizing s with
  | nil => rfl
  | cons call rest ih =>
    rw [List.cons_append, history, ih, history, List.append_assoc]
    rfl

end Session

end IncrementalSat
