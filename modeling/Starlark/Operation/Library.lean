import Starlark.Operation.Arithmetic

/-!
# The standard builtins

The functions of the universe and the methods of lists and dicts. Each first checks its arguments:
keywords, then their number, then the receiver, then the types.
-/

set_option autoImplicit false

namespace Starlark

/-- The longest list that `range` makes. -/
def maxRangeLength : Nat := 0x1000000

/-- Fails unless there are no keywords and from `least` to `most` arguments. -/
def checkArguments (b : BuiltinOp) (args : List Value) (kwargs : Keywords) (least most : Nat) :
    Except Error Unit :=
  if !kwargs.isEmpty then .error (.fault (.noKeywords b.name))
  else if args.length < least then .error (.fault (.tooFewArguments b.name args.length least))
  else if most < args.length then .error (.fault (.tooManyArguments b.name args.length most))
  else .ok ()

/-- An argument that must be an integer. -/
def intArgument (b : BuiltinOp) : Value → Except Error Int64
  | .int n => .ok n
  | v => .error (.fault (.wantInt b.name v.kind))

/-- The elements of an argument that must be iterable. -/
def Op.elementsArgument (b : BuiltinOp) (v : Value) : Op (List Value) := do
  match ← drain v with
  | some elems => return elems
  | none => fault (.wantIterable b.name v.kind)

/-- The receiver of a method, which must be a list. -/
def listReceiver (b : BuiltinOp) : Option Value → Except Error ListRef
  | some (.list r) => .ok r
  | some _ => .error (.fault (.wrongReceiver b.name .list))
  | none => .error (.fault (.unboundMethod b.name))

/-- The receiver of a method, which must be a dict. -/
def dictReceiver (b : BuiltinOp) : Option Value → Except Error DictRef
  | some (.dict r) => .ok r
  | some _ => .error (.fault (.wrongReceiver b.name .dict))
  | none => .error (.fault (.unboundMethod b.name))

/-! ## range -/

/-- Start, stop and step of a range. -/
def rangeBounds : List Value → Except Error (Int64 × Int64 × Int64)
  | [stop] => do
    .ok (0, ← intArgument .range stop, 1)
  | [start, stop] => do
    .ok (← intArgument .range start, ← intArgument .range stop, 1)
  | start :: stop :: step :: _ => do
    .ok (← intArgument .range start, ← intArgument .range stop, ← intArgument .range step)
  | [] => .ok (0, 0, 1)

/-- The number of elements of a range. -/
def rangeCount (start stop step : Int) : Nat :=
  let span := if 0 < step then stop - start else start - stop
  if span ≤ 0 then 0 else ((span + step.natAbs - 1) / step.natAbs).toNat

/-- The element of a range at a place. -/
def Word.Arithmetic.rangeElement {m : Type → Type} [Monad m] (M : Arithmetic m)
    (start step : Int64) (i : Nat) : m Int64 := do
  M.add start (← M.mul (Int64.ofNat i) step)

/-- The elements of a range; words wrap around on the way to an element that fits. -/
def rangeElements (start stop step : Int64) : Except Error (List Value) :=
  if step = 0 then .error (.fault .zeroRangeStep)
  else
    let count := rangeCount start.toInt stop.toInt step.toInt
    if maxRangeLength < count then .error (.fault (.rangeLength count))
    else .ok ((List.range count).map fun i =>
      .int (Id.run (Word.wrapping.rangeElement start step i)))

/-! ## print -/

/-- The separator of `print`, from its keywords. -/
def printSeparator (kwargs : Keywords) : Except Error String :=
  match kwargs.find? fun k => k.1 == "sep" with
  | some (_, .str s) => .ok s
  | some (_, v) => .error (.fault (.separatorType v.kind))
  | none => .ok " "

/-- The line that `print` writes. -/
def Heap.printLine (h : Heap) (args : List Value) (kwargs : Keywords) : Except Error String := do
  let sep ← printSeparator kwargs
  match kwargs.find? fun k => k.1 != "sep" with
  | some (k, _) => .error (.fault (.printKeyword k))
  | none => .ok (sep.intercalate (args.map h.str))

namespace Op

/-! ## dict -/

/-- Insert pairs, each an iterable of two elements; `i` is the number of the first. -/
def insertPairs (r : DictRef) : (i : Nat) → List Value → Op Unit
  | _, [] => return ()
  | i, item :: rest => do
    match ← elementsArgument .dict item with
    | [k, v] =>
      let _ ← insert r k v
      insertPairs r (i + 1) rest
    | elems => fault (.pairLength i elems.length)

/-- `dict(pairs, **kwargs)`. -/
def makeDict (args : List Value) (kwargs : Keywords) : Op Value := do
  if 1 < args.length then fault (.tooManyArguments BuiltinOp.dict.name args.length 1)
  let r ← make fun h => h.newDict #[]
  match args with
  | .dict d :: _ => insertAll r (← read fun h => (h.dict d).entries.toList)
  | v :: _ => insertPairs r 0 (← elementsArgument .dict v)
  | [] => pure ()
  insertAll r (kwargs.map fun k => (.str k.1, k.2))
  return .dict r

/-! ## The others -/

/-- Call a builtin that needs nothing but the heap. `print` gives the line it would write, and the
functions of the machine are not standard. -/
def callStandard (b : BuiltinObj) (args : List Value) (kwargs : Keywords) : Op Value :=
  match b.op with
  | .bool => do
    check fun _ => checkArguments .bool args kwargs 0 1
    match args with
    | v :: _ => return .bool (← read fun h => h.truth v)
    | [] => return .bool false
  | .dict => makeDict args kwargs
  | .len => do
    check fun _ => checkArguments .len args kwargs 1 1
    let v := args.headD .null
    match ← read fun h => h.length? v with
    | some n => return .int (Int64.ofNat n)
    | none => fault (.noLength v.kind)
  | .list => do
    check fun _ => checkArguments .list args kwargs 0 1
    match args with
    | v :: _ =>
      let elems ← elementsArgument .list v
      make fun h => h.newList elems.toArray
    | [] => make fun h => h.newList #[]
  | .range => do
    check fun _ => checkArguments .range args kwargs 1 3
    let (start, stop, step) ← check fun _ => rangeBounds args
    let elems ← check fun _ => rangeElements start stop step
    make fun h => h.newList elems.toArray
  | .repr => do
    check fun _ => checkArguments .repr args kwargs 1 1
    return .str (← read fun h => h.repr (args.headD .null))
  | .str => do
    check fun _ => checkArguments .str args kwargs 1 1
    return .str (← read fun h => h.str (args.headD .null))
  | .tuple => do
    check fun _ => checkArguments .tuple args kwargs 0 1
    match args with
    | v :: _ => return .tuple (← elementsArgument .tuple v)
    | [] => return .tuple []
  | .type => do
    check fun _ => checkArguments .type args kwargs 1 1
    return .str (args.headD .null).kind.name
  | .append => do
    check fun _ => checkArguments .append args kwargs 1 1
    let r ← check fun _ => listReceiver .append b.receiver
    append r (args.headD .null)
    return .null
  | .extend => do
    check fun _ => checkArguments .extend args kwargs 1 1
    let r ← check fun _ => listReceiver .extend b.receiver
    extend r (args.headD .null)
    return .null
  | .get => do
    check fun _ => checkArguments .get args kwargs 1 2
    let r ← check fun _ => dictReceiver .get b.receiver
    match ← check fun h => h.dictGet r (args.headD .null) with
    | some v => return v
    | none => return (args.tail.headD .null)
  | .keys => do
    check fun _ => checkArguments .keys args kwargs 0 0
    let r ← check fun _ => dictReceiver .keys b.receiver
    make fun h => h.newList ((h.dict r).entries.map (·.1))
  | .items => do
    check fun _ => checkArguments .items args kwargs 0 0
    let r ← check fun _ => dictReceiver .items b.receiver
    make fun h => h.newList ((h.dict r).entries.map fun e => .tuple [e.1, e.2])
  | .print => return .str (← check fun h => h.printLine args kwargs)
  | _ => return .null

end Op

end Starlark
