import Starlark.Data.Heap
import Starlark.Operation.Hash

/-!
# Equality

Values are compared by content, functions and builtins by identity, and an int equals the float it
converts to. Comparing goes down ten levels of nesting and fails below; a list or dict is equal to
itself without looking inside. Dict keys are values without lists and dicts inside, so their
equality does not depend on the heap; keys too deep to compare are different. A dict takes two keys
for one if they hash alike and are equal.
-/

set_option autoImplicit false

namespace Starlark

/-- The number of levels that a comparison goes down. -/
def maxCompareDepth : Nat := 10

/-- Equality of values that hold no others. -/
def Value.atomEqual : Value → Value → Bool
  | .null, .null => true
  | .bool a, .bool b => a == b
  | .int a, .int b => a == b
  | .float a, .float b => a == b
  | .int a, .float b => a.toFloat == b
  | .float a, .int b => a == b.toFloat
  | .str a, .str b => a == b
  | .bytes a, .bytes b => a == b
  | .func a, .func b => a == b
  | .builtin a, .builtin b => a == b
  | _, _ => false

/-- Equality of sequences under an equality of elements, which are compared from the left up to the
first difference. -/
def seqEqual {ε α : Type} (eq : α → α → Except ε Bool) : List α → List α → Except ε Bool
  | [], [] => .ok true
  | x :: xs, y :: ys => do
    if ← eq x y then seqEqual eq xs ys else .ok false
  | _, _ => .ok false

/-- Equality of sequences of the same length only. -/
def sameLengthEqual {ε α : Type} (eq : α → α → Except ε Bool) (xs ys : List α) :
    Except ε Bool :=
  if xs.length = ys.length then seqEqual eq xs ys else .ok false

/-! ## Keys -/

mutual

/-- The first reason why a value cannot be a key. -/
def Value.unhashable? : Value → Option Kind
  | .list _ => some .list
  | .dict _ => some .dict
  | .cell _ => some .cell
  | .mandatory => some .mandatory
  | .tuple elems => Value.unhashableIn? elems
  | _ => none

/-- The first reason why values cannot be in a key. -/
def Value.unhashableIn? : List Value → Option Kind
  | [] => none
  | v :: rest =>
    match v.unhashable? with
    | some k => some k
    | none => Value.unhashableIn? rest

end

/-- Fails unless a value can be a key. -/
def Value.checkHashable (v : Value) : Except Error Unit :=
  match v.unhashable? with
  | some k => .error (.fault (.unhashable k))
  | none => .ok ()

/-- Equality of keys, down to the given number of levels. -/
def keyEqualAt : Nat → Value → Value → Except Error Bool
  | 0, _, _ => .error (.fault .comparisonDepth)
  | depth + 1, x, y =>
    match x, y with
    | .tuple a, .tuple b => sameLengthEqual (keyEqualAt depth) a b
    | x, y => .ok (x.atomEqual y)

/-- Equality of keys; keys too deep to compare are different. -/
def keyEqual (x y : Value) : Bool :=
  match keyEqualAt maxCompareDepth x y with
  | .ok b => b
  | .error _ => false

/-- Whether a dict takes two keys for the same: they are equal, and hash alike. -/
def sameKey (x y : Value) : Bool := keyEqual x y && x.hashItems == y.hashItems

namespace DictObj

/-- The place of a key. -/
def find? (d : DictObj) (k : Value) : Option Nat := d.entries.findIdx? fun e => sameKey e.1 k

/-- The value of a key. -/
def lookup? (d : DictObj) (k : Value) : Option Value :=
  (d.entries.find? fun e => sameKey e.1 k).map (·.2)

/-- Insert an entry: a key that is there keeps its place and gets the new value, a new key comes
last. -/
def insert (d : DictObj) (k v : Value) : DictObj :=
  match d.find? k with
  | some i => { d with entries := d.entries.modify i fun e => (e.1, v) }
  | none => { d with entries := d.entries.push (k, v) }

@[simp]
theorem frozen_insert (d : DictObj) (k v : Value) : (d.insert k v).frozen = d.frozen := by
  unfold insert
  split <;> rfl

@[simp]
theorem iterating_insert (d : DictObj) (k v : Value) : (d.insert k v).iterating = d.iterating := by
  unfold insert
  split <;> rfl

end DictObj

namespace Heap

/-- The value of a key of a dict; the key must be hashable. -/
def dictGet (h : Heap) (r : DictRef) (k : Value) : Except Error (Option Value) := do
  k.checkHashable
  .ok ((h.dict r).lookup? k)

/-- Equality of dicts under an equality of values: every entry of the first has an equal one in the
second, in any order. -/
def entriesEqual (h : Heap) (eq : Value → Value → Except Error Bool) (b : DictRef) :
    List (Value × Value) → Except Error Bool
  | [] => .ok true
  | (k, v) :: rest => do
    match ← h.dictGet b k with
    | none => .ok false
    | some w => if ← eq v w then entriesEqual h eq b rest else .ok false

/-- Equality, down to the given number of levels. -/
def equalAt (h : Heap) : Nat → Value → Value → Except Error Bool
  | 0, _, _ => .error (.fault .comparisonDepth)
  | depth + 1, x, y =>
    match x, y with
    | .list a, .list b =>
      if a = b then .ok true
      else sameLengthEqual (equalAt h depth) (h.list a).elems.toList (h.list b).elems.toList
    | .tuple a, .tuple b => sameLengthEqual (equalAt h depth) a b
    | .dict a, .dict b =>
      if a = b then .ok true
      else if (h.dict a).entries.size = (h.dict b).entries.size then
        entriesEqual h (equalAt h depth) b (h.dict a).entries.toList
      else .ok false
    | x, y => .ok (x.atomEqual y)

/-- Equality of values. -/
def equal (h : Heap) (x y : Value) : Except Error Bool := h.equalAt maxCompareDepth x y

end Heap

end Starlark
