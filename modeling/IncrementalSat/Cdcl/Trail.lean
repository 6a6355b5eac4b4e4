import IncrementalSat.Cdcl.Table
import IncrementalSat.Literal

/-!
# The trail

The trail is the sequence of literals made true so far, split into levels, together with what is
known of each atom: its value, the level and the clause it comes from, and the polarity it had when
it last lost a value.  The main statement bounds the work of propagation: a new assignment never
raises the potential of a trail, which counts an atom twice while it is open and once on the trail.
-/

set_option autoImplicit false

namespace IncrementalSat.Cdcl

/-- How an atom came to have a value. -/
structure Assignment where
  value : Bool
  level : Nat
  /-- The key of the clause that forced the value, if it was forced. -/
  reason : Option Nat
deriving DecidableEq

/-- What the trail knows of an atom. -/
structure Slot where
  current : Option Assignment := none
  /-- The polarity of the last value that was undone. -/
  saved : Option Bool := none
deriving DecidableEq

/-- The literals made true, in order, and the state of each atom. -/
structure Trail where
  slots : Array Slot := #[]
  literals : Array Literal := #[]
  /-- The length of the trail when each level was opened. -/
  limits : Array Nat := #[]
  /-- The position of the next literal to propagate. -/
  head : Nat := 0
deriving DecidableEq

namespace Trail

/-- What is known of an atom. -/
def slot (t : Trail) (atom : Nat) : Slot :=
  t.slots.getD atom {}

/-- Makes room for an atom. -/
def ensure (t : Trail) (atom : Nat) : Trail :=
  { t with slots := Table.extend t.slots (atom + 1) {} }

/-- The number of atoms. -/
def atoms (t : Trail) : Nat :=
  t.slots.size

/-- The value of an atom. -/
def value (t : Trail) (atom : Nat) : Option Bool :=
  (t.slot atom).current.map (·.value)

/-- The value of a literal. -/
def valueOf (t : Trail) (l : Literal) : Option Bool :=
  (t.value l.atom).map (· == l.positive)

/-- The level at which an atom was given its value, and zero for an open atom. -/
def levelOf (t : Trail) (atom : Nat) : Nat :=
  ((t.slot atom).current.map (·.level)).getD 0

/-- The key of the clause that forced the value of an atom. -/
def reasonOf (t : Trail) (atom : Nat) : Option Nat :=
  (t.slot atom).current.bind (·.reason)

/-- The polarity an atom last lost. -/
def saved (t : Trail) (atom : Nat) : Option Bool :=
  (t.slot atom).saved

/-- The number of open levels.  It is taken for a number of 32 bits: fewer than two to the power of
32 levels are open, as one is opened for an assumption or for the decision on one of the atoms. -/
def level (t : Trail) : Nat :=
  t.limits.size

/-- Opens a level. -/
def pushLevel (t : Trail) : Trail :=
  { t with limits := t.limits.push t.literals.size }

/-- Makes a literal true at the present level; an atom without room is left alone. -/
def assign (t : Trail) (l : Literal) (reason : Option Nat) : Trail :=
  if l.atom < t.slots.size then
    { t with
      slots := t.slots.modify l.atom fun s =>
        { s with current := some ⟨l.positive, t.limits.size, reason⟩ }
      literals := t.literals.push l }
  else t

/-- Takes the value of an atom back and saves its polarity. -/
def release (slots : Array Slot) (l : Literal) : Array Slot :=
  slots.modify l.atom fun _ => { current := none, saved := some l.positive }

/-- Undoes every assignment above a level. -/
def backjump (t : Trail) (target : Nat) : Trail :=
  if t.level ≤ target then t
  else
    let keep := t.limits.getD target 0
    let literals := t.literals.take keep
    { slots := (t.literals.toList.drop keep).foldl release t.slots
      literals := literals
      limits := t.limits.take target
      head := min t.head literals.size }

/-- Whether every atom has a value. -/
def isComplete (t : Trail) : Bool :=
  t.literals.size == t.slots.size

/-- The literals of the trail from the last to the first. -/
def backwards (t : Trail) : List Literal :=
  t.literals.toList.reverse

/-- The literals above level zero from the last to the first. -/
def backwardsAboveZero (t : Trail) : List Literal :=
  match t.limits[0]? with
  | none => []
  | some start => (t.literals.toList.drop start).reverse

/-- The number of atoms without a value. -/
def openAtoms (t : Trail) : Nat :=
  t.slots.countP fun s => s.current.isNone

/-- An upper bound on the length of the trail that counts each open atom twice. -/
def potential (t : Trail) : Nat :=
  2 * t.openAtoms + t.literals.size

/-- An assignment to an open literal does not raise the potential. -/
theorem potential_assign_le {t : Trail} {l : Literal} (reason : Option Nat)
    (h : t.valueOf l = none) : (t.assign l reason).potential ≤ t.potential := by
  unfold assign
  split
  · rename_i hl
    have hopen : (t.slots[l.atom]).current.isNone = true := by
      simp only [valueOf, value, slot, Option.map_eq_none_iff] at h
      rw [Array.getD_eq_getD_getElem?, Array.getElem?_eq_getElem hl] at h
      simpa using h
    have hcount := Table.countP_modify_of_lost (p := fun s : Slot => s.current.isNone)
      (f := fun s => { s with current := some ⟨l.positive, t.limits.size, reason⟩ })
      t.slots hl hopen rfl
    simp only [potential, openAtoms, Array.size_push]
    omega
  · exact Nat.le_refl _

/-- An assignment leaves the position of propagation alone. -/
@[simp] theorem head_assign (t : Trail) (l : Literal) (reason : Option Nat) :
    (t.assign l reason).head = t.head := by
  unfold assign
  split <;> rfl

end Trail

end IncrementalSat.Cdcl
