import IncrementalSat.Cdcl.Checked.Propagation
import IncrementalSat.Cdcl.Conflict

/-!
# Checked conflicts

The analysis of conflicts and of false assumptions over operations that can fail.  The walk back
along the trail goes by index and lowers the count of pending literals at each marked one, so that
it fails if it comes to the start of the trail or the count to zero too early.
-/

set_option autoImplicit false

namespace IncrementalSat.Cdcl.Checked

/-- The score of an atom. -/
def score (a : Activity) (atom : Nat) : Except Fault Float :=
  fetch a.scores atom

/-- Raises the score of an atom. -/
def bump (a : Activity) (atom : Nat) : Except Fault Activity := do
  let scores ← alter a.scores atom (· + a.increment)
  let raised := { a with scores := scores }
  let score ← score raised atom
  return if Activity.ceiling < score then raised.rescale else raised

/-- Takes a literal of a false clause into the resolvent, unless it is there or of level zero. -/
def absorb (t : Trail) (r : Resolvent) (l : Literal) : Except Fault Resolvent := do
  if ← fetch r.seen l.atom then return r
  else
    let level ← levelOf t l.atom
    if level = 0 then return r
    else
      let seen ← put r.seen l.atom true
      let activity ← bump r.activity l.atom
      if t.level ≤ level then
        return { r with seen := seen, activity := activity, pending := r.pending + 1 }
      else
        return { r with seen := seen, activity := activity, lower := r.lower.push l }

/-- Takes in the literals of a clause, apart from that of the atom resolved on. -/
def resolve (t : Trail) (c : Clause) (pivot : Option Nat) (r : Resolvent) :
    Except Fault Resolvent :=
  c.literals.foldlM (fun r l => if pivot = some l.atom then return r else absorb t r l) r

/-- Walks back along the trail from an index to the one literal of the present level that is left,
resolving with the reasons of those before. -/
def walk (t : Trail) (store : ClauseStore) :
    Nat → Resolvent → Except Fault (Literal × Resolvent)
  | 0, _ => .error .belowZero
  | index + 1, r => do
    let l ← fetch t.literals index
    if ← fetch r.seen l.atom then
      let seen ← put r.seen l.atom false
      let pending ← predecessor r.pending
      let unmarked := { r with seen := seen, pending := pending }
      if pending = 0 then return (l, unmarked)
      else
        match ← reasonOf t l.atom with
        | none => return (l, unmarked)
        | some key =>
          let reason ← clause store key
          let resolved ← resolve t reason (some l.atom) unmarked
          walk t store index resolved
    else walk t store index r

/-- Takes back the marks of literals. -/
def unmark (seen : Array Bool) (literals : Array Literal) : Except Fault (Array Bool) :=
  literals.toList.foldlM (fun seen m => put seen m.atom false) seen

/-- Learns a clause from a clause that is false on the trail. -/
def analyze (t : Trail) (store : ClauseStore) (seen : Array Bool) (activity : Activity)
    (conflict : Nat) : Except Fault Analysis := do
  let conflicting ← clause store conflict
  let start ← resolve t conflicting none ⟨seen, activity, #[], 0⟩
  let (l, r) ← walk t store t.literals.size start
  let seen ← unmark r.seen r.lower
  let levels ← r.lower.toList.mapM fun m => do return (m, ← levelOf t m.atom)
  let others := raiseGreatest (fun m => (levels.lookup m).getD 0) r.lower.toList
  let level ←
    match others with
    | [] => pure 0
    | m :: _ => levelOf t m.atom
  return { learnt := ⟨l.negate, others, level⟩, seen := seen, activity := r.activity }

/-- Marks the atoms of a clause above level zero, apart from the one that the clause forced. -/
def markReason (t : Trail) (c : Clause) (forced : Nat) (seen : Array Bool) :
    Except Fault (Array Bool) :=
  c.literals.foldlM (fun seen m => do
    if m.atom = forced then return seen
    else
      let level ← levelOf t m.atom
      if 0 < level then put seen m.atom true else return seen) seen

/-- Explains a literal of the trail: a literal without a reason has failed, and any other passes
the question on to the literals of its reason. -/
def visit (t : Trail) (store : ClauseStore) (x : Explanation) (l : Literal) :
    Except Fault Explanation := do
  if ← fetch x.seen l.atom then
    match ← reasonOf t l.atom with
    | none =>
      let seen ← put x.seen l.atom false
      return { seen := seen, failed := l :: x.failed }
    | some key =>
      let reason ← clause store key
      let marked ← markReason t reason l.atom x.seen
      let seen ← put marked l.atom false
      return { x with seen := seen }
  else return x

/-- Visits the literals of the trail from an index back to the start of the first level. -/
def visitBack (t : Trail) (store : ClauseStore) (start : Nat) :
    Nat → Explanation → Except Fault Explanation
  | 0, x => return x
  | index + 1, x =>
    if start ≤ index then do
      let l ← fetch t.literals index
      let visited ← visit t store x l
      visitBack t store start index visited
    else return x

/-- Collects the assumptions behind the negation of a false assumption, and the assumption itself;
there is nothing to collect for one that is false at level zero. -/
def explain (t : Trail) (store : ClauseStore) (seen : Array Bool) (assumption : Literal) :
    Except Fault (Explanation × Bool) :=
  match t.limits[0]? with
  | none => return (⟨seen, [assumption]⟩, false)
  | some start => do
    let level ← levelOf t assumption.atom
    if level = 0 then return (⟨seen, [assumption]⟩, false)
    else
      let seen ← put seen assumption.atom true
      let explanation ← visitBack t store start t.literals.size ⟨seen, [assumption]⟩
      return (explanation, true)

end IncrementalSat.Cdcl.Checked
