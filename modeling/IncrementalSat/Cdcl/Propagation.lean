import IncrementalSat.Cdcl.ClauseStore
import IncrementalSat.Cdcl.Trail

/-!
# Propagation

Each literal made true makes its negation false, and the clauses that watch the negation are
inspected: a clause is left alone if its other watched literal is true, watches another literal
that is not false if it has one, and otherwise forces its other watched literal or is false itself.
Propagation ends because no inspection raises the potential of the trail, and each literal
propagated leaves one less to propagate.
-/

set_option autoImplicit false

namespace IncrementalSat.Cdcl

/-- What is to be done about a clause whose second watched literal is false. -/
inductive Duty
  /-- Nothing, as the first watched literal is true. -/
  | rest
  /-- To watch the unwatched literal at a position, which is not false. -/
  | move (position : Nat)
  /-- To make the first watched literal true. -/
  | force
  /-- To report that every literal is false. -/
  | clash
deriving DecidableEq

namespace Clause

/-- The position of the first unwatched literal of a clause that is not false. -/
def replacement? (c : Clause) (t : Trail) : Option Nat :=
  c.others.findIdx? fun l => t.valueOf l != some false

/-- What is to be done about a clause whose second watched literal is false. -/
def duty (c : Clause) (t : Trail) : Duty :=
  match t.valueOf c.first, c.replacement? t with
  | some true, _ => .rest
  | _, some position => .move position
  | some false, none => .clash
  | none, none => .force

/-- A literal is forced only while it is open. -/
theorem valueOf_first_of_force {c : Clause} {t : Trail} (h : c.duty t = .force) :
    t.valueOf c.first = none := by
  unfold duty at h
  split at h <;> first | assumption | contradiction

end Clause

/-- What inspecting the watch list of a false literal leaves behind. -/
structure Inspection where
  trail : Trail
  store : ClauseStore
  /-- The keys that stay in the list. -/
  watchers : Array Nat
  conflict : Option Nat

/-- Inspects the watch list of a false literal from an index on.  A clause that moves to another
list leaves its place to the last key of this one. -/
def inspect (falsified : Literal) (trail : Trail) (store : ClauseStore) (watchers : Array Nat)
    (index : Nat) : Inspection :=
  if h : index < watchers.size then
    let key := watchers[index]
    let clause := (store.clause key).demote falsified
    match clause.duty trail with
    | .rest => inspect falsified trail (store.replace key clause) watchers (index + 1)
    | .move position =>
      let moved := clause.rewatch position
      inspect falsified trail ((store.replace key moved).watch moved.second key)
        (Table.removeSwapping watchers index h) index
    | .force =>
      inspect falsified (trail.assign clause.first (some key)) (store.replace key clause) watchers
        (index + 1)
    | .clash => ⟨trail, store.replace key clause, watchers, some key⟩
  else ⟨trail, store, watchers, none⟩
termination_by watchers.size - index
decreasing_by
  · omega
  · rw [Table.size_removeSwapping]; omega
  · omega

/-- Inspection never raises the potential of the trail and does not move its head. -/
theorem inspect_trail (falsified : Literal) (trail : Trail) (store : ClauseStore)
    (watchers : Array Nat) (index : Nat) :
    (inspect falsified trail store watchers index).trail.potential ≤ trail.potential ∧
      (inspect falsified trail store watchers index).trail.head = trail.head := by
  fun_induction inspect falsified trail store watchers index with
  | case1 _ _ _ _ _ _ _ _ ih => exact ih
  | case2 _ _ _ _ _ _ _ _ _ _ ih => exact ih
  | case3 trail _ _ _ _ key _ hd ih =>
    exact ⟨Nat.le_trans ih.1
      (Trail.potential_assign_le (some key) (Clause.valueOf_first_of_force hd)),
      ih.2.trans (Trail.head_assign ..)⟩
  | case4 => exact ⟨Nat.le_refl _, rfl⟩
  | case5 => exact ⟨Nat.le_refl _, rfl⟩

/-- Propagates every literal of the trail that has not been propagated, and gives the key of a
clause found false, if any. -/
def propagate (trail : Trail) (store : ClauseStore) : Trail × ClauseStore × Option Nat :=
  if h : trail.head < trail.literals.size then
    let falsified := trail.literals[trail.head].negate
    let result :=
      inspect falsified { trail with head := trail.head + 1 } (store.setWatchers falsified #[])
        (store.watchers falsified) 0
    let settled := result.store.setWatchers falsified result.watchers
    match result.conflict with
    | some key => ({ result.trail with head := result.trail.literals.size }, settled, some key)
    | none => propagate result.trail settled
  else (trail, store, none)
termination_by trail.potential + 1 - trail.head
decreasing_by
  obtain ⟨hpotential, hhead⟩ := inspect_trail trail.literals[trail.head].negate
    { trail with head := trail.head + 1 }
    (store.setWatchers trail.literals[trail.head].negate #[])
    (store.watchers trail.literals[trail.head].negate) 0
  change _ ≤ trail.potential at hpotential
  change _ = trail.head + 1 at hhead
  have hsize : trail.literals.size ≤ trail.potential := Nat.le_add_left ..
  omega

end IncrementalSat.Cdcl
