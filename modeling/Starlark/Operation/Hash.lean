import Starlark.Data.Value

/-!
# Hashes of keys

A dict looks for a key among the keys with the same hash, and compares only those. What a key feeds
to the hash function is a sequence of items; the function itself is left open, but that keys which
feed different items are told apart. A float that is an integer feeds what the integer feeds, so
equal keys hash alike as long as the conversion of an integer to a float is exact. Beyond 2^53 it is
not: an integer can be equal to a float that hashes apart, and a dict keeps both.
-/

set_option autoImplicit false

namespace Starlark

/-- An item that is fed to a hash function. -/
inductive HashItem where
  | byte (b : UInt8)
  | word (w : UInt64)
  | text (s : String)
  | bytes (b : List UInt8)
  /-- The number of elements that follow. -/
  | count (n : Nat)
  /-- The address of a function. -/
  | func (r : FuncRef)
  /-- The address of a builtin. -/
  | builtin (r : BuiltinRef)
  deriving DecidableEq

/-- What a float feeds: the word of an integer if it is one and in range, and else its bits. -/
def floatHashWord (x : Float) : UInt64 :=
  if x.floor == x && -9223372036854775808.0 ≤ x && x < 9223372036854775808.0 then x.toInt64.toUInt64
  else x.toBits

mutual

/-- What a value feeds to a hash function; only values that can be keys feed anything of theirs. -/
def Value.hashItems : Value → List HashItem
  | .null => [.byte 0]
  | .bool b => [.byte 1, .byte (if b then 1 else 0)]
  | .int n => [.word n.toUInt64]
  | .float x => [.word (floatHashWord x)]
  | .str s => [.text s]
  | .bytes b => [.bytes b]
  | .tuple elems => .count elems.length :: Value.hashItemsOfList elems
  | .func r => [.func r]
  | .builtin r => [.builtin r]
  | .list _ | .dict _ | .cell _ | .mandatory => []

/-- What values feed to a hash function, one after another. -/
def Value.hashItemsOfList : List Value → List HashItem
  | [] => []
  | v :: rest => v.hashItems ++ Value.hashItemsOfList rest

end

end Starlark
