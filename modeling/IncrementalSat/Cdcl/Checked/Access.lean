import IncrementalSat.Literal

/-!
# Operations that can fail

Every operation of the engine that is not defined for all its arguments, as an operation that fails
with a named fault where it is not: the access to a table at an index, the lowering of a count, a
draw from a range, and the encoding of a literal in 32 bits.  The engine over these operations is
the solver with its assumptions made checks.
-/

set_option autoImplicit false

namespace IncrementalSat.Cdcl

/-- What can go wrong inside the engine. -/
inductive Fault
  /-- An access to a table beyond its end. -/
  | outOfRange
  /-- An assignment to an atom that has a value. -/
  | assigned
  /-- A clause of less than two literals to be stored. -/
  | shortClause
  /-- A literal to be made of zero. -/
  | noLiteral
  /-- A count or an index lowered below zero. -/
  | belowZero
  /-- A draw from an empty range. -/
  | emptyRange
  /-- A literal that does not fit in 32 bits. -/
  | overflow
  /-- A loop that goes on beyond the bound on its length. -/
  | unfinished
deriving DecidableEq

namespace Checked

/-! ## Tables -/

section Tables

variable {α β : Type}

/-- The entry of a table at an index. -/
def fetch (xs : Array α) (i : Nat) : Except Fault α :=
  match xs[i]? with
  | some x => .ok x
  | none => .error .outOfRange

/-- The table with the entry at an index changed. -/
def alter (xs : Array α) (i : Nat) (f : α → α) : Except Fault (Array α) :=
  if i < xs.size then .ok (xs.modify i f) else .error .outOfRange

/-- The table with another entry at an index. -/
def put (xs : Array α) (i : Nat) (x : α) : Except Fault (Array α) :=
  if i < xs.size then .ok (xs.setIfInBounds i x) else .error .outOfRange

/-- An index within a table has an entry to read. -/
theorem fetch_eq {xs : Array α} {i : Nat} (h : i < xs.size) : fetch xs i = .ok xs[i] := by
  rw [fetch, Array.getElem?_eq_getElem h]

/-- An entry that is there is the one found with a default. -/
theorem fetch_eq_getD {xs : Array α} {i : Nat} (h : i < xs.size) (x : α) :
    fetch xs i = .ok (xs.getD i x) := by
  rw [fetch_eq h, Array.getD, dif_pos h]
  rfl

/-- An index within a table has an entry to change. -/
theorem alter_eq {xs : Array α} {i : Nat} (h : i < xs.size) (f : α → α) :
    alter xs i f = .ok (xs.modify i f) :=
  if_pos h

/-- An index within a table has an entry to write over. -/
theorem put_eq {xs : Array α} {i : Nat} (h : i < xs.size) (x : α) :
    put xs i x = .ok (xs.setIfInBounds i x) :=
  if_pos h

/-- Writing what a function makes of an entry changes the entry by the function. -/
theorem put_eq_modify {xs : Array α} {i : Nat} {x y : α} (h : i < xs.size) (f : α → α)
    (hx : fetch xs i = .ok x) (hy : f x = y) : put xs i y = .ok (xs.modify i f) := by
  rw [fetch_eq h] at hx
  obtain rfl : xs[i] = x := Except.ok.inj hx
  rw [put_eq h]
  congr 1
  apply Array.ext_getElem?
  intro j
  rw [Array.getElem?_setIfInBounds, Array.getElem?_modify]
  split
  · rename_i hij
    subst hij
    rw [Array.getElem?_eq_getElem h, Option.map_some, hy]
  · rfl

end Tables

/-! ## Counts, ranges and demands -/

/-- Goes on only if a demand is met. -/
def require (p : Prop) [Decidable p] (fault : Fault) : Except Fault Unit :=
  if p then .ok () else .error fault

/-- The number one below. -/
def predecessor : Nat → Except Fault Nat
  | 0 => .error .belowZero
  | n + 1 => .ok n

/-- Draws a number below a bound, which leaves something to draw from. -/
def drawBelow {R : Type} (draw : Nat → R → R × Nat) (bound : Nat) (r : R) :
    Except Fault (R × Nat) :=
  if 0 < bound then .ok (draw bound r) else .error .emptyRange

/-- A demand that is met is no fault. -/
theorem require_eq {p : Prop} [Decidable p] (h : p) (fault : Fault) : require p fault = .ok () :=
  if_pos h

/-- Below a positive bound there is a number to draw. -/
theorem drawBelow_eq {R : Type} {bound : Nat} (h : 0 < bound) (draw : Nat → R → R × Nat) (r : R) :
    drawBelow draw bound r = .ok (draw bound r) :=
  if_pos h

/-! ## Literals -/

/-- The literal of an atom with a polarity, whose code has 32 bits. -/
def encode (atom : Nat) (positive : Bool) : Except Fault Literal :=
  if 2 * atom + 1 < Nat.pow 2 32 then .ok ⟨atom, positive⟩ else .error .overflow

/-- The literal that an integer stands for, which is not zero. -/
def ofInteger (n : Int32) : Except Fault Literal :=
  if n = 0 then .error .noLiteral else encode (n.toInt.natAbs - 1) (decide (0 < n.toInt))

/-- The integer that stands for a literal; the atom counted from one has 31 bits. -/
def toInteger (l : Literal) : Except Fault Int32 :=
  if l.atom + 1 < Nat.pow 2 31 then .ok l.toInteger else .error .overflow

/-- The negation of an integer, of which one integer has none. -/
def opposite (n : Int32) : Except Fault Int32 :=
  if n = Int32.minValue then .error .overflow else .ok (-n)

/-- The integer one above, of which one integer has none. -/
def successor (n : Int32) : Except Fault Int32 :=
  if n = Int32.maxValue then .error .overflow else .ok (n + 1)

/-- The code of a literal fits into 32 bits if its atom has 31 bits. -/
theorem encode_eq {atom : Nat} (h : atom < Nat.pow 2 31) (positive : Bool) :
    encode atom positive = .ok ⟨atom, positive⟩ := by
  have hpow : Nat.pow 2 32 = 2 * Nat.pow 2 31 := rfl
  exact if_pos (by omega)

/-- Of the integers only zero stands for no literal. -/
theorem ofInteger_eq {n : Int32} (h : n ≠ 0) : ofInteger n = .ok (Literal.ofInteger n) := by
  have hpow : Nat.pow 2 31 = 2147483648 := rfl
  have hlow := n.le_toInt
  have hhigh := n.toInt_lt
  rw [ofInteger, if_neg h, encode_eq (by omega)]
  rfl

/-- A literal has its integer if its atom, counted from one, has 31 bits. -/
theorem toInteger_eq {l : Literal} (h : l.atom + 1 < Nat.pow 2 31) :
    toInteger l = .ok l.toInteger :=
  if_pos h

/-- Every integer but the least has a negation. -/
theorem opposite_eq {n : Int32} (h : n ≠ Int32.minValue) : opposite n = .ok (-n) :=
  if_neg h

/-- Every integer but the greatest has one above it. -/
theorem successor_eq {n : Int32} (h : n ≠ Int32.maxValue) : successor n = .ok (n + 1) :=
  if_neg h

/-! ## Loops -/

section Loops

variable {α β : Type}

/-- The members of a list that pass a test. -/
def select (test : α → Except Fault Bool) : List α → Except Fault (List α)
  | [] => .ok []
  | x :: rest => do
    let passes ← test x
    let chosen ← select test rest
    return if passes then x :: chosen else chosen

/-- The position of the first member that passes a test. -/
def position (test : α → Except Fault Bool) : List α → Except Fault (Option Nat)
  | [] => .ok none
  | x :: rest => do
    if ← test x then return some 0
    else
      let later ← position test rest
      return later.map (· + 1)

/-- What follows an operation that does not fail goes on with its result. -/
@[simp] theorem ok_bind (a : α) (f : α → Except Fault β) : (Except.ok a >>= f) = f a :=
  rfl

/-- A loop does not fail if no step of it fails while an invariant holds that each step keeps. -/
theorem foldlM_eq {f : β → α → Except Fault β} {g : β → α → β} {P : β → Prop} {l : List α}
    {b : β} (hstart : P b) (hstep : ∀ b, P b → ∀ x ∈ l, f b x = .ok (g b x) ∧ P (g b x)) :
    l.foldlM f b = .ok (l.foldl g b) ∧ P (l.foldl g b) := by
  induction l generalizing b with
  | nil => exact ⟨rfl, hstart⟩
  | cons x rest ih =>
    obtain ⟨hfirst, hkept⟩ := hstep b hstart x List.mem_cons_self
    rw [List.foldlM_cons, hfirst, ok_bind, List.foldl_cons]
    exact ih hkept fun b hb y hy => hstep b hb y (List.mem_cons_of_mem _ hy)

/-- Mapping does not fail if no member fails. -/
theorem mapM_eq {f : α → Except Fault β} {g : α → β} {l : List α}
    (h : ∀ x ∈ l, f x = .ok (g x)) : l.mapM f = .ok (l.map g) := by
  induction l with
  | nil => rfl
  | cons x rest ih =>
    rw [List.mapM_cons, h x List.mem_cons_self, ok_bind,
      ih fun y hy => h y (List.mem_cons_of_mem _ hy)]
    rfl

variable {f : α → Except Fault Bool} {test : α → Bool} {xs : List α}

/-- Asking whether some entry passes a test does not fail if no test fails. -/
theorem anyM_eq (h : ∀ x ∈ xs, f x = .ok (test x)) : xs.anyM f = .ok (xs.any test) := by
  induction xs with
  | nil => rfl
  | cons x rest ih =>
    rw [List.anyM, h x List.mem_cons_self, ok_bind, List.any_cons]
    cases test x with
    | true => rfl
    | false => exact ih fun y hy => h y (List.mem_cons_of_mem _ hy)

/-- Asking whether all entries pass a test does not fail if no test fails. -/
theorem allM_eq (h : ∀ x ∈ xs, f x = .ok (test x)) : xs.allM f = .ok (xs.all test) := by
  induction xs with
  | nil => rfl
  | cons x rest ih =>
    rw [List.allM, h x List.mem_cons_self, ok_bind, List.all_cons]
    cases test x with
    | true => exact ih fun y hy => h y (List.mem_cons_of_mem _ hy)
    | false => rfl

/-- Looking for the first entry that passes a test does not fail if no test fails. -/
theorem findM?_eq (h : ∀ x ∈ xs, f x = .ok (test x)) : xs.findM? f = .ok (xs.find? test) := by
  induction xs with
  | nil => rfl
  | cons x rest ih =>
    rw [List.findM?, h x List.mem_cons_self, ok_bind, List.find?_cons]
    cases test x with
    | true => rfl
    | false => exact ih fun y hy => h y (List.mem_cons_of_mem _ hy)

/-- Choosing the members that pass a test does not fail if no test fails. -/
theorem select_eq (h : ∀ x ∈ xs, f x = .ok (test x)) : select f xs = .ok (xs.filter test) := by
  induction xs with
  | nil => rfl
  | cons x rest ih =>
    rw [select, h x List.mem_cons_self, ih fun y hy => h y (List.mem_cons_of_mem _ hy),
      List.filter_cons]
    rfl

/-- Looking for the position of the first member that passes a test does not fail if no test fails.
-/
theorem position_eq (h : ∀ x ∈ xs, f x = .ok (test x)) :
    position f xs = .ok (xs.findIdx? test) := by
  induction xs with
  | nil => rfl
  | cons x rest ih =>
    rw [position, h x List.mem_cons_self, ih fun y hy => h y (List.mem_cons_of_mem _ hy),
      List.findIdx?_cons]
    cases test x <;> rfl

end Loops

end Checked

end IncrementalSat.Cdcl
