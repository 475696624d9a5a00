import Starlark.Number.Remainder
import Starlark.Number.Word
import Starlark.Operation.Index
import Starlark.Operation.Order

/-!
# Operators

The strict binary and the unary operators. Integers are 64 bits wide, and a result that does not fit
is an error. An int and a float are computed with as floats.
-/

set_option autoImplicit false

namespace Starlark

/-! ## Truth and length -/

/-- Whether a value counts as true. -/
def Heap.truth (h : Heap) : Value → Bool
  | .null | .mandatory => false
  | .bool b => b
  | .int n => n != 0
  | .float x => x != 0.0
  | .str s => !s.isEmpty
  | .bytes b => !b.isEmpty
  | .list r => !(h.list r).elems.isEmpty
  | .tuple elems => !elems.isEmpty
  | .dict r => !(h.dict r).entries.isEmpty
  | .func _ | .builtin _ | .cell _ => true

/-- The length of a value; that of a text is in bytes. -/
def Heap.length? (h : Heap) : Value → Option Nat
  | .str s => some s.utf8ByteSize
  | .bytes b => some b.length
  | .list r => some (h.list r).elems.size
  | .tuple elems => some elems.length
  | .dict r => some (h.dict r).entries.size
  | _ => none

/-! ## Membership -/

/-- Whether a list occurs inside another. -/
def occursIn {α : Type} [BEq α] (needle : List α) : List α → Bool
  | [] => needle.isEmpty
  | x :: xs => needle.isPrefixOf (x :: xs) || occursIn needle xs

/-- Whether a value equals an element, tried from the left. -/
def anyEqual (eq : Value → Except Error Bool) : List Value → Except Error Bool
  | [] => .ok false
  | x :: xs => do
    if ← eq x then .ok true else anyEqual eq xs

/-- Evaluate `x in container`. -/
def Heap.contains (h : Heap) (container x : Value) : Except Error Bool :=
  match container with
  | .list r => anyEqual (fun e => h.equal e x) (h.list r).elems.toList
  | .tuple elems => anyEqual (fun e => h.equal e x) elems
  | .dict r => (h.dictGet r x).map (·.isSome)
  | .str s =>
    match x with
    | .str needle => .ok (occursIn needle.toList s.toList)
    | x => .error (.fault (.inString x.kind))
  | .bytes b =>
    match x with
    | .bytes needle => .ok (occursIn needle b)
    | .int n => .ok (0 ≤ n && n < 256 && b.contains (UInt8.ofNat n.toInt.toNat))
    | x => .error (.fault (.inBytes x.kind))
  | c => .error (.binaryOp .isIn x.kind c.kind)

/-! ## Arithmetic -/

/-- The float of a number. -/
def Value.asFloat? : Value → Option Float
  | .int n => some n.toFloat
  | .float x => some x
  | _ => none

/-- An integer result, or overflow. -/
def intResult : Option Int64 → Except Error Value
  | some n => .ok (.int n)
  | none => .error (.fault .intOverflow)

/-- Compute with two numbers as floats. -/
def floatOp (op : BinOp) (f : Float → Float → Except Error Float) (x y : Value) :
    Except Error Value :=
  match x.asFloat?, y.asFloat? with
  | some a, some b => (f a b).map .float
  | _, _ => .error (.binaryOp op x.kind y.kind)

/-- Compute with two integers. -/
def intOp (op : BinOp) (f : Int64 → Int64 → Except Error Value) (x y : Value) :
    Except Error Value :=
  match x, y with
  | .int a, .int b => f a b
  | x, y => .error (.binaryOp op x.kind y.kind)

/-- Evaluate `x - y`. -/
def minus (x y : Value) : Except Error Value :=
  match x, y with
  | .int a, .int b => intResult (Word.sub? a b)
  | x, y => floatOp .minus (fun a b => .ok (a - b)) x y

/-- Evaluate `x / y`. -/
def divide (x y : Value) : Except Error Value :=
  floatOp .slash
    (fun a b => if b == 0.0 then .error (.fault .floatDivision) else .ok (a / b)) x y

/-- Evaluate `x // y`. -/
def floorDivide (x y : Value) : Except Error Value :=
  match x, y with
  | .int a, .int b =>
    if b = 0 then .error (.fault .intDivision) else intResult (Word.floorDiv? a b)
  | x, y =>
    floatOp .slashSlash
      (fun a b => if b == 0.0 then .error (.fault .floatDivision) else .ok (a / b).floor) x y

/-- Evaluate `x % y`. -/
def modulo (x y : Value) : Except Error Value :=
  match x, y with
  | .int a, .int b =>
    if b = 0 then .error (.fault .intModulo) else .ok (.int (Word.floorMod a b))
  | x, y =>
    floatOp .percent
      (fun a b =>
        if b == 0.0 then .error (.fault .floatModulo) else .ok (Remainder.floored a b)) x y

/-- Evaluate `x << y`. -/
def shiftLeft (a b : Int64) : Except Error Value :=
  if b < 0 then .error (.fault .negativeShift) else intResult (Word.shiftLeft? a b)

/-- Evaluate `x >> y`. -/
def shiftRight (a b : Int64) : Except Error Value :=
  if b < 0 then .error (.fault .negativeShift) else .ok (.int (Word.shiftRight a b))

/-- How often a sequence of `size` elements is repeated for a factor `n`. -/
def repeatCount (size : Nat) (n : Int64) : Except Error Nat :=
  if n ≤ 0 then .ok 0
  else if maxInt < size * n.toInt then .error (.fault .repeatCount)
  else .ok n.toInt.toNat

/-- A list repeated. -/
def repeated {α : Type} (xs : List α) (n : Nat) : List α :=
  if xs.isEmpty then [] else (List.replicate n xs).flatten

/-- A text repeated. -/
def repeatedText (s : String) (n : Nat) : String :=
  if s.isEmpty then "" else String.join (List.replicate n s)

namespace Op

/-- Evaluate `x + y`. -/
def plus (x y : Value) : Op Value :=
  match x, y with
  | .int a, .int b => check fun _ => intResult (Word.add? a b)
  | .str a, .str b => return .str (a ++ b)
  | .bytes a, .bytes b => return .bytes (a ++ b)
  | .list a, .list b => make fun h => h.newList ((h.list a).elems ++ (h.list b).elems)
  | .tuple a, .tuple b => return .tuple (a ++ b)
  | x, y => check fun _ => floatOp .plus (fun a b => .ok (a + b)) x y

/-- Repeat a sequence. -/
def times (x : Value) (n : Int64) : Op Value :=
  match x with
  | .str s => do
    let n ← check fun _ => repeatCount s.utf8ByteSize n
    return .str (repeatedText s n)
  | .bytes b => do
    let n ← check fun _ => repeatCount b.length n
    return .bytes (repeated b n)
  | .list r => do
    let elems ← read fun h => (h.list r).elems
    let n ← check fun _ => repeatCount elems.size n
    make fun h => h.newList (repeated elems.toList n).toArray
  | .tuple elems => do
    let n ← check fun _ => repeatCount elems.length n
    return .tuple (repeated elems n)
  | x => fail (.binaryOp .star x.kind .int)

/-- Evaluate `x * y`. -/
def star (x y : Value) : Op Value :=
  match x, y with
  | .int a, .int b => check fun _ => intResult (Word.mul? a b)
  | .str s, .int n | .int n, .str s => times (.str s) n
  | .bytes b, .int n | .int n, .bytes b => times (.bytes b) n
  | .list r, .int n | .int n, .list r => times (.list r) n
  | .tuple t, .int n | .int n, .tuple t => times (.tuple t) n
  | x, y => check fun _ => floatOp .star (fun a b => .ok (a * b)) x y

/-- Evaluate `x | y`: the union of two dicts, where the second one wins, or a bitwise or. -/
def pipe (x y : Value) : Op Value :=
  match x, y with
  | .dict a, .dict b => do
    let entries ← read fun h => (h.dict a).entries.toList ++ (h.dict b).entries.toList
    let r ← make fun h => h.newDict #[]
    insertAll r entries
    return .dict r
  | x, y => check fun _ => intOp .pipe (fun a b => .ok (.int (a ||| b))) x y

/-- Evaluate `x op y`. `and` and `or` are not strict and have no value here. -/
def binary (op : BinOp) (x y : Value) : Op Value :=
  match op with
  | .eq | .ne | .lt | .gt | .le | .ge => check fun h => (h.compare op x y).map .bool
  | .isIn => check fun h => (h.contains y x).map .bool
  | .notIn => check fun h => (h.contains y x).map fun b => .bool !b
  | .plus => plus x y
  | .minus => check fun _ => minus x y
  | .star => star x y
  | .slash => check fun _ => divide x y
  | .slashSlash => check fun _ => floorDivide x y
  | .percent => check fun _ => modulo x y
  | .amp => check fun _ => intOp .amp (fun a b => .ok (.int (a &&& b))) x y
  | .circumflex => check fun _ => intOp .circumflex (fun a b => .ok (.int (a ^^^ b))) x y
  | .pipe => pipe x y
  | .ltLt => check fun _ => intOp .ltLt shiftLeft x y
  | .gtGt => check fun _ => intOp .gtGt shiftRight x y
  | .and | .or => fail (.binaryOp op x.kind y.kind)

end Op

/-- Evaluate a unary operator. -/
def Heap.unary (h : Heap) (op : UnaryOp) (x : Value) : Except Error Value :=
  match op, x with
  | .not, x => .ok (.bool !(h.truth x))
  | .plus, .int n => .ok (.int n)
  | .plus, .float f => .ok (.float f)
  | .minus, .int n => intResult (Word.neg? n)
  | .minus, .float f => .ok (.float (-f))
  | .tilde, .int n => .ok (.int (~~~n))
  | op, x => .error (.unaryOp op x.kind)

namespace Op

/-! ## In-place operators -/

/-- Evaluate `x += y`: a list is extended by the elements of an iterable. -/
def inplaceAdd (x y : Value) : Op Value :=
  match x with
  | .list r =>
    if y.isIterable then do
      checkList r "apply += to"
      extend r y
      return x
    else plus x y
  | x => plus x y

/-- Evaluate `x |= y`: a dict is updated from a dict. -/
def inplacePipe (x y : Value) : Op Value :=
  match x, y with
  | .dict a, .dict b => do
    update a b
    return x
  | x, y => pipe x y

end Op

end Starlark
