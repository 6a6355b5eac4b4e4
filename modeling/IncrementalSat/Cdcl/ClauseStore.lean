import IncrementalSat.Cdcl.Table
import IncrementalSat.Literal

/-!
# The clause store

Stored clauses have at least two literals, the first two of which are watched.  The watch list of a
literal holds the keys of the clauses that watch it; its order matters to the search, and so is
part of the store.
-/

set_option autoImplicit false

namespace IncrementalSat.Cdcl

/-- A stored clause. -/
structure Clause where
  /-- The first watched literal. -/
  first : Literal
  /-- The second watched literal. -/
  second : Literal
  others : Array Literal
  learnt : Bool
deriving DecidableEq, Inhabited

namespace Clause

/-- The literals of a clause, the watched ones first. -/
def literals (c : Clause) : List Literal :=
  c.first :: c.second :: c.others.toList

/-- The clause with its watched literals exchanged, if the given literal is the first of them. -/
def demote (c : Clause) (l : Literal) : Clause :=
  if c.first = l then { c with first := c.second, second := c.first } else c

/-- The clause with the unwatched literal at a position watched in place of the second one. -/
def rewatch (c : Clause) (position : Nat) : Clause :=
  match c.others[position]? with
  | none => c
  | some l => { c with second := l, others := c.others.setIfInBounds position c.second }

end Clause

/-- The clauses, by key, and the keys of the clauses watching each literal. -/
structure ClauseStore where
  clauses : Array Clause := #[]
  watches : Array (Array Nat) := #[]
deriving DecidableEq

namespace ClauseStore

/-- Makes room for the literals of an atom. -/
def ensure (s : ClauseStore) (atom : Nat) : ClauseStore :=
  { s with watches := Table.extend s.watches (2 * (atom + 1)) #[] }

/-- The clause with a key. -/
def clause (s : ClauseStore) (key : Nat) : Clause :=
  s.clauses.getD key default

/-- Puts a clause in the place of the one with a key. -/
def replace (s : ClauseStore) (key : Nat) (c : Clause) : ClauseStore :=
  { s with clauses := s.clauses.setIfInBounds key c }

/-- The keys of the clauses that watch a literal. -/
def watchers (s : ClauseStore) (l : Literal) : Array Nat :=
  s.watches.getD l.code #[]

/-- Puts a watch list in place of that of a literal. -/
def setWatchers (s : ClauseStore) (l : Literal) (keys : Array Nat) : ClauseStore :=
  { s with watches := s.watches.setIfInBounds l.code keys }

/-- Adds a key to the watch list of a literal. -/
def watch (s : ClauseStore) (l : Literal) (key : Nat) : ClauseStore :=
  { s with watches := s.watches.modify l.code fun keys => keys.push key }

/-- Stores a clause under the next key. -/
def attach (s : ClauseStore) (first second : Literal) (others : List Literal) (learnt : Bool) :
    ClauseStore :=
  let key := s.clauses.size
  let watched := (s.watch first key).watch second key
  { watched with clauses := watched.clauses.push ⟨first, second, others.toArray, learnt⟩ }

/-- The key of the next clause stored. -/
def nextKey (s : ClauseStore) : Nat :=
  s.clauses.size

/-- The number of learnt clauses. -/
def learntCount (s : ClauseStore) : Nat :=
  s.clauses.countP fun c => c.learnt

end ClauseStore

end IncrementalSat.Cdcl
