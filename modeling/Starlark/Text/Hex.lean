/-!
# Hexadecimal text

Bytes and words as lower-case hexadecimal digits; reading takes both cases.
-/

set_option autoImplicit false

namespace Starlark.Hex

/-- The value of a digit. -/
def digit? (c : Char) : Option Nat :=
  if '0' ≤ c ∧ c ≤ '9' then some (c.toNat - '0'.toNat)
  else if 'a' ≤ c ∧ c ≤ 'f' then some (c.toNat - 'a'.toNat + 10)
  else if 'A' ≤ c ∧ c ≤ 'F' then some (c.toNat - 'A'.toNat + 10)
  else none

/-- The number that digits write. -/
def toNat? (s : String) : Option Nat :=
  s.toList.foldlM (fun n c => (digit? c).map (n * 16 + ·)) 0

/-- Two digits for each byte, in front of the bytes of `acc`, which is in reverse. -/
def bytesFrom? (acc : List UInt8) : List Char → Option (List UInt8)
  | [] => some acc.reverse
  | a :: b :: rest => do
    bytesFrom? (UInt8.ofNat ((← digit? a) * 16 + (← digit? b)) :: acc) rest
  | [_] => none

/-- The bytes that digits write. -/
def toBytes? (s : String) : Option (List UInt8) := bytesFrom? [] s.toList

/-- The digits of a number, with zeros in front up to `width`. -/
def ofNat (width n : Nat) : String :=
  let ds := Nat.toDigits 16 n
  String.ofList (List.replicate (width - ds.length) '0' ++ ds)

/-- The digits of bytes. -/
def ofBytes (b : List UInt8) : String := String.join (b.map fun x => ofNat 2 x.toNat)

end Starlark.Hex
