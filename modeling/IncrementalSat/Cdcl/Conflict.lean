import IncrementalSat.Cdcl.Activity
import IncrementalSat.Cdcl.ClauseStore
import IncrementalSat.Cdcl.Trail

/-!
# Conflicts

A clause found false is resolved with the clauses that forced its literals, walking back along the
trail, until one literal of the present level is left.  The clause learnt asserts the negation of
that literal after a backjump to the highest of its other levels.  A false assumption is explained
by a like walk that collects the assumptions from which its negation was derived.
-/

set_option autoImplicit false

namespace IncrementalSat.Cdcl

/-- A resolution under way. -/
structure Resolvent where
  /-- The atoms of the resolvent that the walk has not come to. -/
  seen : Array Bool
  activity : Activity
  /-- The literals of the resolvent from lower levels, without those of level zero. -/
  lower : Array Literal
  /-- The number of literals of the present level that the walk has not come to. -/
  pending : Nat

namespace Resolvent

/-- Takes a literal of a false clause into the resolvent, unless it is there or of level zero. -/
def absorb (t : Trail) (r : Resolvent) (l : Literal) : Resolvent :=
  if r.seen.getD l.atom false || t.levelOf l.atom == 0 then r
  else
    let marked :=
      { r with seen := r.seen.setIfInBounds l.atom true, activity := r.activity.bump l.atom }
    if t.level ≤ t.levelOf l.atom then { marked with pending := marked.pending + 1 }
    else { marked with lower := marked.lower.push l }

/-- Takes in the literals of a clause, apart from that of the atom resolved on. -/
def resolve (t : Trail) (c : Clause) (pivot : Option Nat) (r : Resolvent) : Resolvent :=
  c.literals.foldl (fun r l => if pivot = some l.atom then r else r.absorb t l) r

/-- Walks back along the trail to the one literal of the present level that is left, resolving with
the reasons of those before.  There is none only if the resolvent has no literal of that level. -/
def walk (t : Trail) (store : ClauseStore) : List Literal → Resolvent → Option (Literal × Resolvent)
  | [], _ => none
  | l :: earlier, r =>
    if r.seen.getD l.atom false then
      let unmarked := { r with seen := r.seen.setIfInBounds l.atom false }
      match r.pending with
      | 0 => none
      | 1 => some (l, { unmarked with pending := 0 })
      | pending + 2 =>
        match t.reasonOf l.atom with
        | none => some (l, { unmarked with pending := pending + 1 })
        | some key =>
          walk t store earlier
            (resolve t (store.clause key) (some l.atom) { unmarked with pending := pending + 1 })
    else walk t store earlier r

end Resolvent

/-- Takes the first member that passes a test out of a list and puts a replacement there. -/
def exchangeFirst (test : Literal → Bool) (replacement : Literal) :
    List Literal → Literal × List Literal
  | [] => (replacement, [])
  | l :: rest =>
    if test l then (l, replacement :: rest)
    else
      let (taken, rest) := exchangeFirst test replacement rest
      (taken, l :: rest)

/-- The list with its head exchanged with the first of its members of the greatest rank. -/
def raiseGreatest (rank : Literal → Nat) : List Literal → List Literal
  | [] => []
  | l :: rest =>
    let greatest := rest.foldl (fun top m => max top (rank m)) (rank l)
    if rank l = greatest then l :: rest
    else
      let (taken, rest) := exchangeFirst (fun m => rank m == greatest) l rest
      taken :: rest

/-- A learnt clause with the level to backjump to. -/
structure Lemma where
  asserted : Literal
  /-- The other literals, one of the highest level first. -/
  others : List Literal
  level : Nat
deriving DecidableEq

/-- The literals of a learnt clause. -/
def Lemma.literals (c : Lemma) : List Literal :=
  c.asserted :: c.others

/-- What the analysis of a conflict leaves behind. -/
structure Analysis where
  learnt : Lemma
  seen : Array Bool
  activity : Activity

/-- Learns a clause from a clause that is false on the trail. -/
def analyze? (t : Trail) (store : ClauseStore) (seen : Array Bool) (activity : Activity)
    (conflict : Nat) : Option Analysis :=
  let start := Resolvent.resolve t (store.clause conflict) none ⟨seen, activity, #[], 0⟩
  (Resolvent.walk t store t.backwards start).map fun (l, r) =>
    let others := raiseGreatest (fun m => t.levelOf m.atom) r.lower.toList
    { learnt :=
        { asserted := l.negate
          others := others
          level := (others.head?.map fun m => t.levelOf m.atom).getD 0 }
      seen := r.lower.foldl (fun seen m => seen.setIfInBounds m.atom false) r.seen
      activity := r.activity }

/-- A collection of failed assumptions under way. -/
structure Explanation where
  /-- The atoms whose values are to be explained. -/
  seen : Array Bool
  failed : List Literal
deriving DecidableEq

namespace Explanation

/-- Marks the atoms of a clause above level zero, apart from the one that the clause forced. -/
def markReason (t : Trail) (c : Clause) (forced : Nat) (seen : Array Bool) : Array Bool :=
  c.literals.foldl (fun seen m =>
    if m.atom ≠ forced ∧ 0 < t.levelOf m.atom then seen.setIfInBounds m.atom true else seen) seen

/-- Explains a literal of the trail: a literal without a reason has failed, and any other passes
the question on to the literals of its reason. -/
def visit (t : Trail) (store : ClauseStore) (x : Explanation) (l : Literal) : Explanation :=
  if x.seen.getD l.atom false then
    let asked :=
      match t.reasonOf l.atom with
      | none => { x with failed := l :: x.failed }
      | some key => { x with seen := markReason t (store.clause key) l.atom x.seen }
    { asked with seen := asked.seen.setIfInBounds l.atom false }
  else x

end Explanation

/-- Collects the assumptions behind the negation of a false assumption, and the assumption itself;
there is nothing to collect for one that is false at level zero. -/
def explain (t : Trail) (store : ClauseStore) (seen : Array Bool) (assumption : Literal) :
    Explanation × Bool :=
  if t.level = 0 ∨ t.levelOf assumption.atom = 0 then (⟨seen, [assumption]⟩, false)
  else
    (t.backwardsAboveZero.foldl (Explanation.visit t store)
      ⟨seen.setIfInBounds assumption.atom true, [assumption]⟩, true)

end IncrementalSat.Cdcl
