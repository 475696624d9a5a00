/-!
# The shortest decimal of a float

A finite double is `mantissa * 2 ^ exponent`, and the reals nearer to it than to any other double
form an interval around it, whose ends belong to it when the mantissa is even. `Binary.shortest`
finds the decimal with the fewest digits inside that interval. On the grid of decimals with a given
last place only the two neighbours of the value have to be tried. Of two that fit the nearer one is
taken, and a tie goes up.
-/

set_option autoImplicit false

namespace Starlark.Decimal

/-- A nonnegative finite double, `mantissa * 2 ^ exponent`. `narrow` says that the double below is
only half as far away as the one above. -/
structure Binary where
  mantissa : Nat
  exponent : Int
  narrow : Bool
  deriving DecidableEq

/-- What a bit pattern stands for, its sign apart. -/
inductive Class where
  | nan
  | infinite
  | finite (b : Binary)
  deriving DecidableEq

/-- The sign bit. -/
def isNegative (bits : UInt64) : Bool := bits.toNat / 0x8000000000000000 == 1

/-- The exponent field. -/
def exponentField (bits : UInt64) : Nat := bits.toNat / 0x10000000000000 % 0x800

/-- The fraction field. -/
def fractionField (bits : UInt64) : Nat := bits.toNat % 0x10000000000000

/-- Take a bit pattern apart. -/
def classify (bits : UInt64) : Class :=
  let e := exponentField bits
  let f := fractionField bits
  if e = 2047 then (if f = 0 then .infinite else .nan)
  else if e = 0 then .finite ⟨f, -1074, false⟩
  else .finite ⟨0x10000000000000 + f, (e : Int) - 1075, f = 0⟩

/-- The numeral `digits * 10 ^ exponent`. -/
structure Numeral where
  digits : Nat
  exponent : Int
  deriving DecidableEq

namespace Binary

/-- The value of `n` quarter units of the last binary place, over the common denominator `den`. -/
def numerator (b : Binary) (n : Nat) : Nat := n * Nat.pow 2 (b.exponent - 2).toNat

/-- The common denominator of `numerator`. -/
def denominator (b : Binary) : Nat := Nat.pow 2 (2 - b.exponent).toNat

/-- The lower end of the rounding interval, in quarter units. -/
def low (b : Binary) : Nat := 4 * b.mantissa - (if b.narrow then 1 else 2)

/-- The upper end of the rounding interval, in quarter units. -/
def high (b : Binary) : Nat := 4 * b.mantissa + 2

/-- Compare `d * 10 ^ k` with `n` quarter units. -/
def compareTo (b : Binary) (d : Nat) (k : Int) (n : Nat) : Ordering :=
  compare (d * Nat.pow 10 k.toNat * b.denominator) (b.numerator n * Nat.pow 10 (-k).toNat)

/-- Whether `d * 10 ^ k` rounds to the value. -/
def holds (b : Binary) (d : Nat) (k : Int) : Bool :=
  match b.compareTo d k b.low, b.compareTo d k b.high with
  | .gt, .lt => true
  | .eq, .lt | .gt, .eq => b.mantissa % 2 == 0
  | _, _ => false

/-- The largest `d` with `d * 10 ^ k` at most the value. -/
def floorAt (b : Binary) (k : Int) : Nat :=
  b.numerator (4 * b.mantissa) * Nat.pow 10 (-k).toNat / (b.denominator * Nat.pow 10 k.toNat)

/-- Whether `d + 1` is at least as near to the value as `d` on the grid of `10 ^ k`. -/
def upperIsNearer (b : Binary) (d : Nat) (k : Int) : Bool :=
  (2 * d + 1) * Nat.pow 10 k.toNat * b.denominator ≤ 2 * b.numerator (4 * b.mantissa) * Nat.pow
      10 (-k).toNat

/-- The decimal of the grid `10 ^ k` that rounds to the value, if there is one. -/
def onGrid? (b : Binary) (k : Int) : Option Numeral :=
  let d := b.floorAt k
  match b.holds d k, b.holds (d + 1) k with
  | true, true => some ⟨if b.upperIsNearer d k then d + 1 else d, k⟩
  | true, false => some ⟨d, k⟩
  | false, true => some ⟨d + 1, k⟩
  | false, false => none

/-- The number of decimal digits of `n`. -/
def digitCount (n : Nat) : Nat := (Nat.toDigits 10 n).length

/-- How many places below the point the first digit of a value under one stands, searched over
`fuel` places. -/
def leadingPlace (b : Binary) : Nat → Nat → Nat
  | 0, j => j
  | fuel + 1, j =>
    if b.floorAt (-(j : Int)) > 0 then j else leadingPlace b fuel (j + 1)

/-- The power of ten just above the value: `10 ^ (magnitude - 1) ≤ value < 10 ^ magnitude`. -/
def magnitude (b : Binary) : Int :=
  if b.floorAt 0 > 0 then digitCount (b.floorAt 0) else 1 - (b.leadingPlace 400 1 : Int)

/-- The first grid, from `n` digits on, that holds a decimal of the interval. -/
def search (b : Binary) (magnitude : Int) : Nat → Nat → Numeral
  | 0, n => ⟨b.floorAt (magnitude - n), magnitude - n⟩
  | fuel + 1, n =>
    match b.onGrid? (magnitude - n) with
    | some d => d
    | none => search b magnitude fuel (n + 1)

/-- The decimal with the fewest digits that rounds to the value; seventeen always suffice. -/
def shortest (b : Binary) : Numeral := b.search b.magnitude 17 1

/-- The integer part of the value when the value is an integer. -/
def toNat? (b : Binary) : Option Nat :=
  if 0 ≤ b.exponent then some (b.mantissa * Nat.pow 2 b.exponent.toNat)
  else if b.mantissa % Nat.pow 2 (-b.exponent).toNat = 0 then
    some (b.mantissa / Nat.pow 2 (-b.exponent).toNat)
  else none

end Binary

end Starlark.Decimal
