import Starlark.Decimal.Shortest

/-!
# Floats as text

Two forms. A value is printed positionally: an integer with all its digits and one zero place, any
other number with its shortest digits. A constant in a listing is printed with its shortest digits,
positionally from one ten-thousandth up to below ten to the sixteenth and with an exponent outside.
-/

set_option autoImplicit false

namespace Starlark.Decimal

/-- The digits of a positive decimal without trailing zeros, and the place of the point counted
from the first digit. -/
def Numeral.parts (d : Numeral) : List Char × Int :=
  let ds := Nat.toDigits 10 d.digits
  ((ds.reverse.dropWhile (· == '0')).reverse, ds.length + d.exponent)

/-- Digits with the point at the given place. An integer gets `tail` after its last digit. -/
def positional (ds : List Char) (point : Int) (tail : String) : String :=
  if point ≤ 0 then
    "0." ++ String.ofList (List.replicate (-point).toNat '0' ++ ds)
  else if ds.length ≤ point then
    String.ofList (ds ++ List.replicate (point.toNat - ds.length) '0') ++ tail
  else
    String.ofList (ds.take point.toNat) ++ "." ++ String.ofList (ds.drop point.toNat)

/-- Digits with the point after the first one and a decimal exponent. -/
def scientific (ds : List Char) (point : Int) : String :=
  String.ofList (ds.take 1) ++ (if ds.length ≤ 1 then "" else "." ++ String.ofList (ds.drop 1)) ++
    "e" ++ toString (point - 1)

/-- The sign in front of a number. -/
def sign (bits : UInt64) : String := if isNegative bits then "-" else ""

/-- A float as a script prints it. -/
def plainText (bits : UInt64) : String :=
  match classify bits with
  | .nan => "NaN"
  | .infinite => sign bits ++ "inf"
  | .finite b =>
    sign bits ++
      match b.toNat? with
      | some n => toString n ++ ".0"
      | none => let (ds, point) := b.shortest.parts; positional ds point ""

/-- A float as a listing shows it. -/
def listingText (bits : UInt64) : String :=
  match classify bits with
  | .nan => "NaN"
  | .infinite => sign bits ++ "inf"
  | .finite b =>
    sign bits ++
      if b.mantissa = 0 then "0.0"
      else
        let (ds, point) := b.shortest.parts
        if -4 < point && point ≤ 16 then positional ds point ".0" else scientific ds point

end Starlark.Decimal
