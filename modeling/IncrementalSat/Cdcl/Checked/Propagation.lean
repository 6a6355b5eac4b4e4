import IncrementalSat.Cdcl.Checked.Access
import IncrementalSat.Cdcl.Propagation

/-!
# Checked propagation

The trail, the clause store and propagation over operations that can fail.  Values, levels and
reasons are read from the table of atoms, clauses by their keys and watch lists by the codes of
literals; only an open atom is given a value, and only a clause of two literals or more is stored.
The two watched literals of a stored clause are fields of it, and so are always there.
-/

set_option autoImplicit false

namespace IncrementalSat.Cdcl.Checked

/-! ## The trail -/

/-- The value of an atom. -/
def value (t : Trail) (atom : Nat) : Except Fault (Option Bool) := do
  let slot ← fetch t.slots atom
  return slot.current.map (·.value)

/-- The value of a literal. -/
def valueOf (t : Trail) (l : Literal) : Except Fault (Option Bool) := do
  let value ← value t l.atom
  return value.map (· == l.positive)

/-- The level at which an atom was given its value, and zero for an open atom. -/
def levelOf (t : Trail) (atom : Nat) : Except Fault Nat := do
  let slot ← fetch t.slots atom
  return (slot.current.map (·.level)).getD 0

/-- The key of the clause that forced the value of an atom. -/
def reasonOf (t : Trail) (atom : Nat) : Except Fault (Option Nat) := do
  let slot ← fetch t.slots atom
  return slot.current.bind (·.reason)

/-- The polarity an atom last lost. -/
def saved (t : Trail) (atom : Nat) : Except Fault (Option Bool) := do
  let slot ← fetch t.slots atom
  return slot.saved

/-- Makes a literal of an open atom true at the present level. -/
def assign (t : Trail) (l : Literal) (reason : Option Nat) : Except Fault Trail := do
  let slot ← fetch t.slots l.atom
  require (slot.current = none) .assigned
  let slots ← put t.slots l.atom { slot with current := some ⟨l.positive, t.level, reason⟩ }
  return { t with slots := slots, literals := t.literals.push l }

/-- Takes the value of an atom back and saves its polarity. -/
def release (slots : Array Slot) (l : Literal) : Except Fault (Array Slot) :=
  put slots l.atom { current := none, saved := some l.positive }

/-- Undoes every assignment above a level. -/
def backjump (t : Trail) (target : Nat) : Except Fault Trail :=
  if t.level ≤ target then .ok t
  else do
    let keep ← fetch t.limits target
    require (keep ≤ t.literals.size) .outOfRange
    let slots ← (t.literals.toList.drop keep).foldlM release t.slots
    let literals := t.literals.take keep
    return {
      slots := slots
      literals := literals
      limits := t.limits.take target
      head := min t.head literals.size }

/-! ## The clause store -/

/-- The clause with a key. -/
def clause (s : ClauseStore) (key : Nat) : Except Fault Clause :=
  fetch s.clauses key

/-- The keys of the clauses that watch a literal. -/
def watchers (s : ClauseStore) (l : Literal) : Except Fault (Array Nat) :=
  fetch s.watches l.code

/-- Puts a watch list in place of that of a literal. -/
def setWatchers (s : ClauseStore) (l : Literal) (keys : Array Nat) : Except Fault ClauseStore := do
  let watches ← put s.watches l.code keys
  return { s with watches := watches }

/-- Adds a key to the watch list of a literal. -/
def watch (s : ClauseStore) (l : Literal) (key : Nat) : Except Fault ClauseStore := do
  let watches ← alter s.watches l.code fun keys => keys.push key
  return { s with watches := watches }

/-- Stores a clause of two literals or more under the next key. -/
def attach (s : ClauseStore) (literals : List Literal) (learnt : Bool) :
    Except Fault ClauseStore :=
  match literals with
  | first :: second :: others => do
    let key := s.clauses.size
    let watched ← watch s first key
    let watched ← watch watched second key
    return { watched with
      clauses := watched.clauses.push ⟨first, second, others.toArray, learnt⟩ }
  | _ => .error .shortClause

/-! ## Propagation -/

/-- What is to be done about a clause whose second watched literal is false. -/
def duty (t : Trail) (c : Clause) : Except Fault Duty := do
  let first ← valueOf t c.first
  if first = some true then return .rest
  else
    let replacement ← position (fun l => do return (← valueOf t l) != some false) c.others.toList
    match replacement with
    | some position => return .move position
    | none => return if first = some false then .clash else .force

/-- The clause with the unwatched literal at a position watched in place of the second one. -/
def rewatch (c : Clause) (position : Nat) : Except Fault Clause := do
  let l ← fetch c.others position
  let others ← put c.others position c.second
  return { c with second := l, others := others }

/-- Inspects the watch list of a false literal from an index on. -/
def inspect (falsified : Literal) (trail : Trail) (store : ClauseStore) (watchers : Array Nat)
    (index : Nat) : Except Fault Inspection :=
  if h : index < watchers.size then do
    let key := watchers[index]
    let clause := (← clause store key).demote falsified
    match ← duty trail clause with
    | .rest => inspect falsified trail (store.replace key clause) watchers (index + 1)
    | .move position =>
      let moved ← rewatch clause position
      let store ← watch (store.replace key moved) moved.second key
      inspect falsified trail store (Table.removeSwapping watchers index h) index
    | .force =>
      let trail ← assign trail clause.first (some key)
      inspect falsified trail (store.replace key clause) watchers (index + 1)
    | .clash => return ⟨trail, store.replace key clause, watchers, some key⟩
  else return ⟨trail, store, watchers, none⟩
termination_by watchers.size - index
decreasing_by
  · omega
  · rw [Table.size_removeSwapping]; omega
  · omega

/-- Propagates the literals of the trail that have not been propagated, as long as the fuel
lasts, and gives the key of a clause found false, if any. -/
def propagateWithin : Nat → Trail → ClauseStore → Except Fault (Trail × ClauseStore × Option Nat)
  | 0, _, _ => .error .unfinished
  | fuel + 1, trail, store =>
    if trail.head < trail.literals.size then do
      let literal ← fetch trail.literals trail.head
      let falsified := literal.negate
      let taken ← watchers store falsified
      let aside ← setWatchers store falsified #[]
      let result ← inspect falsified { trail with head := trail.head + 1 } aside taken 0
      let settled ← setWatchers result.store falsified result.watchers
      match result.conflict with
      | some key =>
        return ({ result.trail with head := result.trail.literals.size }, settled, some key)
      | none => propagateWithin fuel result.trail settled
    else return (trail, store, none)

/-- Propagates every literal of the trail that has not been propagated; each adds less to the
trail than the atoms that it leaves open. -/
def propagate (trail : Trail) (store : ClauseStore) :
    Except Fault (Trail × ClauseStore × Option Nat) :=
  propagateWithin (trail.potential + 2 - trail.head) trail store

end IncrementalSat.Cdcl.Checked
