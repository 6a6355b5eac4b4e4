import IncrementalSat.Binding

/-!
# Sessions that mirror foreign calls

What a foreign call comes to on a session of one's own: the method that is called, if the caller has
given all that it needs, and how what the method yields is written for the caller.  A step of a
foreign caller concerns one place, and is mirrored on the session kept for that place alone.
-/

set_option autoImplicit false

namespace IncrementalSat.Binding

/-- A step of a foreign caller with a number of places. -/
inductive Step (n : Nat)
  | signature (room : Bool)
  | init (number : Fin n) (room : Bool)
  | call (number : Fin n) (call : Call)

/-- The places after a step, and how the step is answered. -/
def Places.make {n : Nat} (places : Places) : Step n → Places × Answer
  | .signature room => (places, Binding.signature room)
  | .init number room => places.init number room
  | .call number call => places.call number call

/-- The places after steps, all of them empty at first. -/
def Places.after {n : Nat} (steps : List (Step n)) : Places :=
  steps.foldl (fun places step => (places.make step).1) (Array.replicate n none)

end IncrementalSat.Binding
