import Mathlib.Data.Nat.Log
import Mathlib.Tactic.Ring

/-!
# Rounding to nearest

A natural number rounded to a number of significant bits, and a tie to the even neighbour, as
floating point units do it.
-/

namespace Rounding

variable {p n x : Nat}

end Rounding
