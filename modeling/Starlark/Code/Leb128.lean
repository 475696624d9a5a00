/-!
# Base-128 numbers

A number is written seven bits at a time, the low ones first; every byte but the last has its top
bit set.
-/

set_option autoImplicit false

namespace Starlark.Leb128

/-- The bytes of a number. -/
def encode (n : Nat) : List UInt8 :=
  if n < 128 then [UInt8.ofNat n] else UInt8.ofNat (n % 128 + 128) :: encode (n / 128)

/-- The low seven bits of a byte. -/
def payload (b : UInt8) : Nat := b.toNat % 128

/-- Whether no byte of the number follows. -/
def isLast (b : UInt8) : Bool := b < 128

end Starlark.Leb128
