import Mathlib.Tactic.Ring

/-!
# Signed 64-bit arithmetic

An operation on `int64` values is the exact one, reduced into `[-2^63, 2^63)`. A result that is in
range is the exact one.
-/

namespace Word

/-- The `int64` value of an exact result. -/
def wrap (x : Int) : Int := x.bmod (2 ^ 64)

theorem wrap_eq {x : Int} (hlow : -2 ^ 63 ≤ x) (hhigh : x < 2 ^ 63) : wrap x = x :=
  Int.bmod_eq_of_le (by omega) (by omega)

end Word
