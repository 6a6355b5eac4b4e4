/-!
# Literals

A literal is an atom together with a polarity.  Atoms are counted from zero inside the library,
and written from one, with a sign for the polarity, in the integers exchanged with a client.
Literals are ordered by their code, so that the two literals of an atom are neighbours and the
positive one comes first.
-/

set_option autoImplicit false

namespace IncrementalSat

/-- An atom with a polarity. -/
structure Literal where
  /-- The atom, counted from zero. -/
  atom : Nat
  positive : Bool
deriving DecidableEq, Inhabited

namespace Literal

/-- The literal of the same atom with the other polarity. -/
def negate (l : Literal) : Literal :=
  { l with positive := !l.positive }

/-- The place of a literal in the order of literals and in tables with an entry per literal. -/
def code (l : Literal) : Nat :=
  2 * l.atom + (if l.positive then 0 else 1)

/-- The literal that a non-zero integer stands for. -/
def ofInteger (n : Int32) : Literal :=
  { atom := n.toInt.natAbs - 1, positive := decide (0 < n.toInt) }

/-- The integer that stands for a literal. -/
def toInteger (l : Literal) : Int32 :=
  Int32.ofInt (if l.positive then (l.atom : Int) + 1 else -((l.atom : Int) + 1))

/-- The written form of a literal, its integer in decimal. -/
def text (l : Literal) : String :=
  toString l.toInteger.toInt

/-- Adds a literal to a list in strictly increasing order, unless it is there already. -/
def insertOrdered (l : Literal) : List Literal → List Literal
  | [] => [l]
  | m :: rest =>
    if l.code < m.code then l :: m :: rest
    else if l.code = m.code then m :: rest
    else m :: insertOrdered l rest

/-- The literals of a list in strictly increasing order, each once. -/
def ordered (literals : List Literal) : List Literal :=
  literals.foldr insertOrdered []

/-- Whether some literal is directly followed by its negation. -/
def hasComplement : List Literal → Bool
  | [] => false
  | [_] => false
  | l :: m :: rest => l == m.negate || hasComplement (m :: rest)

/-- A literal is the negation of its negation. -/
@[simp] theorem negate_negate (l : Literal) : l.negate.negate = l := by
  simp [negate]

/-- A literal and its negation have one atom. -/
@[simp] theorem atom_negate (l : Literal) : l.negate.atom = l.atom := rfl

/-- The negation of a literal has the opposite polarity. -/
@[simp] theorem positive_negate (l : Literal) : l.negate.positive = !l.positive := rfl

/-- Different literals have different codes. -/
theorem code_inj {l m : Literal} : l.code = m.code ↔ l = m := by
  constructor
  · intro h
    obtain ⟨a, p⟩ := l
    obtain ⟨b, q⟩ := m
    cases p <;> cases q <;> simp [code] at h ⊢ <;> omega
  · rintro rfl; rfl

/-- The members of the ordered list with one literal added. -/
theorem mem_insertOrdered {l x : Literal} {literals : List Literal} :
    x ∈ insertOrdered l literals ↔ x = l ∨ x ∈ literals := by
  induction literals with
  | nil => simp [insertOrdered]
  | cons m rest ih =>
    unfold insertOrdered
    split
    · simp
    · split
      · rename_i h
        rw [code_inj.1 h]
        simp
      · simp only [List.mem_cons, ih]
        constructor <;> (intro h; rcases h with h | h | h <;> simp [h])

/-- Ordering a list keeps its members. -/
theorem mem_ordered {x : Literal} {literals : List Literal} :
    x ∈ ordered literals ↔ x ∈ literals := by
  induction literals with
  | nil => simp [ordered]
  | cons l rest ih =>
    show x ∈ insertOrdered l (ordered rest) ↔ _
    rw [mem_insertOrdered, ih, List.mem_cons]

end Literal

end IncrementalSat
