import Starlark.Decimal.Shortest

/-!
# The remainder of two floats

`Remainder.truncated a b` is the exact `a - b * n`, where `n` is the quotient rounded toward zero.
Both operands are integers over a common power of two, so the remainder is one of integers and
needs no rounding. `Remainder.floored` moves it to the sign of the divisor.
-/

set_option autoImplicit false

namespace Starlark.Remainder

/-- The double `n * 2 ^ e` with the given sign, for a magnitude that is exact. -/
def build (negative : Bool) (n : Nat) (e : Int) : Float :=
  let x := (Float.ofNat n).scaleB e
  if negative then -x else x

/-- The remainder of magnitudes over the common unit `2 ^ e`. -/
def magnitude (a b : Decimal.Binary) : Nat × Int :=
  let e := min a.exponent b.exponent
  (a.mantissa * Nat.pow 2 (a.exponent - e).toNat % (b.mantissa * Nat.pow 2 (b.exponent - e).toNat),
      e)

/-- The remainder with the sign of the dividend; a divisor of zero or an infinite dividend has
none. -/
def truncated (a b : Float) : Float :=
  match Decimal.classify a.toBits, Decimal.classify b.toBits with
  | .finite x, .finite y =>
    if y.mantissa = 0 then 0.0 / 0.0
    else build (Decimal.isNegative a.toBits) (magnitude x y).1 (magnitude x y).2
  | .finite _, .infinite => a
  | _, _ => 0.0 / 0.0

/-- The remainder with the sign of the divisor. -/
def floored (a b : Float) : Float :=
  let r := truncated a b
  if r != 0.0 && (r < 0.0) != (b < 0.0) then r + b else r

end Starlark.Remainder
