import IncrementalSat.Literal

/-!
# Formulas and their models

A clause is a list of literals and holds if one of them does; a formula is a list of clauses and
holds if all of them do.  A clause follows from a formula if it holds wherever the formula does.  A
stream of integers, in which a zero ends a clause, closes the clauses of a formula and may leave
one open.
-/

set_option autoImplicit false

namespace IncrementalSat

/-- A value for every atom. -/
abbrev Valuation : Type :=
  Nat → Bool

/-- A literal holds if its atom has the value it asserts. -/
def Literal.Holds (v : Valuation) (l : Literal) : Prop :=
  v l.atom = l.positive

instance (v : Valuation) (l : Literal) : Decidable (l.Holds v) :=
  inferInstanceAs (Decidable (v l.atom = l.positive))

/-- A clause holds if some literal of it does. -/
def Satisfies (v : Valuation) (clause : List Literal) : Prop :=
  ∃ l ∈ clause, l.Holds v

/-- A valuation is a model of a formula if every clause of it holds. -/
def Models (v : Valuation) (formula : List (List Literal)) : Prop :=
  ∀ clause ∈ formula, Satisfies v clause

/-- A clause follows from a formula if it holds in every model. -/
def Entails (formula : List (List Literal)) (clause : List Literal) : Prop :=
  ∀ v, Models v formula → Satisfies v clause

/-- The clauses that a stream closes, and the one that it leaves open, given the literals of the
clause under way in reverse. -/
def closedFrom (clause : List Literal) : List Int32 → List (List Literal) × List Literal
  | [] => ([], clause.reverse)
  | lit :: rest =>
    if lit = 0 then
      let (clauses, remainder) := closedFrom [] rest
      (clause.reverse :: clauses, remainder)
    else closedFrom (Literal.ofInteger lit :: clause) rest

/-- The clauses that a stream of integers closes. -/
def closedClauses (stream : List Int32) : List (List Literal) :=
  (closedFrom [] stream).1

/-- Of a literal and its negation exactly one holds. -/
theorem Literal.holds_negate {v : Valuation} {l : Literal} :
    l.negate.Holds v ↔ ¬ l.Holds v := by
  cases h : v l.atom <;> cases hp : l.positive <;> simp [Holds, h, hp]

/-- A clause with a literal and its negation always holds. -/
theorem satisfies_of_complement {v : Valuation} {l : Literal} {clause : List Literal}
    (h : l ∈ clause) (hn : l.negate ∈ clause) : Satisfies v clause := by
  by_cases hl : l.Holds v
  · exact ⟨l, h, hl⟩
  · exact ⟨l.negate, hn, Literal.holds_negate.2 hl⟩

/-- Whether a clause holds depends only on its set of literals. -/
theorem satisfies_congr {v : Valuation} {c d : List Literal} (h : ∀ l, l ∈ c ↔ l ∈ d) :
    Satisfies v c ↔ Satisfies v d :=
  exists_congr fun l => and_congr_left' (h l)

/-- Putting a clause in order changes nothing about where it holds. -/
theorem satisfies_ordered {v : Valuation} {clause : List Literal} :
    Satisfies v (Literal.ordered clause) ↔ Satisfies v clause :=
  satisfies_congr fun _ => Literal.mem_ordered

/-- A formula of two parts holds if both parts do. -/
theorem models_append {v : Valuation} {f g : List (List Literal)} :
    Models v (f ++ g) ↔ Models v f ∧ Models v g := by
  simp only [Models, List.mem_append]
  exact ⟨fun h => ⟨fun c hc => h c (.inl hc), fun c hc => h c (.inr hc)⟩,
    fun h c hc => hc.elim (h.1 c) (h.2 c)⟩

end IncrementalSat
