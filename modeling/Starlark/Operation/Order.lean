import Starlark.Operation.Equality

/-!
# Order

Numbers, bools, texts and bytes are ordered; lists and tuples lexicographically, by their first
elements that differ. A NaN is in no order with any number, and then every comparison is false.
-/

set_option autoImplicit false

namespace Starlark

/-- The order of two floats; none with a NaN. -/
def floatOrder (a b : Float) : Option Ordering :=
  if a < b then some .lt else if a == b then some .eq else if b < a then some .gt else none

/-- The lexicographic order of byte sequences. -/
def bytesOrder : List UInt8 → List UInt8 → Ordering
  | [], [] => .eq
  | [], _ :: _ => .lt
  | _ :: _, [] => .gt
  | a :: as, b :: bs => if a < b then .lt else if b < a then .gt else bytesOrder as bs

/-- The order of sequences under an equality and an order of elements: that of the first elements
that differ, else that of the lengths. -/
def seqOrder {ε α : Type} (eq : α → α → Except ε Bool)
    (order : α → α → Except ε (Option Ordering)) :
    List α → List α → Except ε (Option Ordering)
  | [], [] => .ok (some .eq)
  | [], _ :: _ => .ok (some .lt)
  | _ :: _, [] => .ok (some .gt)
  | x :: xs, y :: ys => do
    if ← eq x y then seqOrder eq order xs ys else order x y

namespace Heap

/-- The order of two values, down to the given number of levels. `op` is the operator that the error
names. -/
def orderAt (h : Heap) (op : BinOp) : Nat → Value → Value → Except Error (Option Ordering)
  | 0, _, _ => .error (.fault .comparisonDepth)
  | depth + 1, x, y =>
    match x, y with
    | .int a, .int b => .ok (some (compare a.toInt b.toInt))
    | .float a, .float b => .ok (floatOrder a b)
    | .int a, .float b => .ok (floatOrder a.toFloat b)
    | .float a, .int b => .ok (floatOrder a b.toFloat)
    | .bool a, .bool b => .ok (some (compare a.toNat b.toNat))
    | .str a, .str b => .ok (some (if a < b then .lt else if a = b then .eq else .gt))
    | .bytes a, .bytes b => .ok (some (bytesOrder a b))
    | .list a, .list b =>
      seqOrder (h.equalAt depth) (orderAt h op depth) (h.list a).elems.toList
        (h.list b).elems.toList
    | .tuple a, .tuple b => seqOrder (h.equalAt depth) (orderAt h op depth) a b
    | x, y => .error (.fault (.unordered op x.kind y.kind))

/-- Evaluate a comparison operator. -/
def compare (h : Heap) (op : BinOp) (x y : Value) : Except Error Bool :=
  match op with
  | .eq => h.equal x y
  | .ne => (h.equal x y).map (!·)
  | .lt => (h.orderAt op maxCompareDepth x y).map (· == some .lt)
  | .gt => (h.orderAt op maxCompareDepth x y).map (· == some .gt)
  | .le => (h.orderAt op maxCompareDepth x y).map fun o => o == some .lt || o == some .eq
  | .ge => (h.orderAt op maxCompareDepth x y).map fun o => o == some .gt || o == some .eq
  | op => .error (.fault (.notComparison op))

end Heap

end Starlark
