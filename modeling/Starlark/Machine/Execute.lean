import Starlark.Data.Freeze
import Starlark.Machine.Bind
import Starlark.Operation.Library

/-!
# One instruction

`Activation.execute` carries out one instruction of a function: it works on the operand stack, the
locals, the open iterators and the heap. Instructions that leave the function, by a call, a load or
a return, say so in their `Effect`, and the machine does the rest.
-/

set_option autoImplicit false

namespace Starlark

/-- The state of a function that is being executed. -/
structure Activation where
  func : FuncObj
  /-- The address of the instruction that is being executed. -/
  pc : Nat := 0
  /-- The address of the next instruction. -/
  next : Nat := 0
  locals : Array (Option Value)
  /-- The operand stack, its top first. -/
  stack : List Value := []
  /-- The open iterators, the topmost first. -/
  iters : List Iter := []
  deriving Inhabited

/-- What an instruction asks for. -/
inductive Effect where
  /-- Go on with the next instruction. -/
  | proceed (a : Activation)
  /-- Leave the function. -/
  | finish (v : Value)
  /-- Call a value and push the result. -/
  | call (a : Activation) (f : Value) (args : List Value) (kwargs : Keywords)
  /-- Load a module and replace the top `count` names by its members. -/
  | load (a : Activation) (module : String) (count : Nat)

/-- The tables that the operands of a function's instructions point into. -/
structure Tables where
  module : ModuleRef
  program : Program
  code : Code
  freeVars : Array Value

/-- The tables of a function. -/
def Heap.tables (h : Heap) (f : FuncObj) : Tables :=
  ⟨f.module, h.programOf f, h.codeOf f, f.freeVars⟩

/-- The value of a constant. -/
def Constant.value : Constant → Value
  | .int n => .int n
  | .float bits => .float (Float.ofBits bits)
  | .str s => .str s
  | .bytes b => .bytes b

namespace Op

/-- Fail because the code is malformed. -/
def codeFault {α : Type} (f : CodeFault) : Op α := fault (.code f)

/-- An entry of a table, which must be there. -/
def entry {α : Type} (table : Array α) (i : Nat) : Op α :=
  match table[i]? with
  | some x => return x
  | none => abort .tableIndex

/-- The top value and the stack below it. -/
def pop : List Value → Op (Value × List Value)
  | v :: st => return (v, st)
  | [] => codeFault .stackUnderflow

/-- The top two values, the upper one first, and the stack below them. -/
def pop2 : List Value → Op (Value × Value × List Value)
  | y :: x :: st => return (y, x, st)
  | _ => codeFault .stackUnderflow

/-- The top `n` values, the lowest first, and the stack below them. -/
def popMany (n : Nat) (st : List Value) : Op (List Value × List Value) :=
  if st.length < n then codeFault .stackUnderflow
  else return ((st.take n).reverse, st.drop n)

/-- The cell that a value is. -/
def asCell : Value → Op CellRef
  | .cell r => return r
  | v => codeFault (.notCell v.kind)

/-- The content of a cell, for the variable of the given name. -/
def cellContent (r : CellRef) (name : String) : Op Value := do
  match ← read fun h => (h.cell r).content with
  | some v => return v
  | none => fail (.unbound .function name)

/-- The content of a local slot, which must exist; it may be unbound. -/
def slot (a : Activation) (i : Nat) : Op (Option Value) := entry a.locals i

/-- The cell in a local slot. -/
def slotCell (a : Activation) (i : Nat) : Op CellRef := do
  match ← slot a i with
  | some v => asCell v
  | none => codeFault .unboxedCell

/-- The name of an entry of a table of declarations. -/
def declName (decls : Array Decl) (i : Nat) : Op String := return (← entry decls i).name

/-! ## Calls -/

/-- Names and values, in turn, as keywords. -/
def namedArguments : List Value → Op Keywords
  | .str k :: v :: rest => return (k, v) :: (← namedArguments rest)
  | _ :: _ :: _ => codeFault .argumentName
  | _ => return []

/-- The entries of a dict as keywords. -/
def dictKeywords : List (Value × Value) → Op Keywords
  | [] => return []
  | (.str k, v) :: rest => return (k, v) :: (← dictKeywords rest)
  | (k, _) :: _ => fault (.keywordType k.kind)

/-- The keywords of `**kw`. -/
def expandKeywords : Value → Op Keywords
  | .dict r => do dictKeywords (← read fun h => (h.dict r).entries.toList)
  | v => fault (.notMapping v.kind)

/-- The arguments of `*args`. -/
def expandArguments (v : Value) : Op (List Value) := do
  match ← drain v with
  | some elems => return elems
  | none => fault (.notIterableArgs v.kind)

/-- The keywords of `**kw`, if there is one. -/
def extraKeywords : Option Value → Op Keywords
  | some v => expandKeywords v
  | none => return []

/-- The arguments of `*args`, if there is one. -/
def extraArguments : Option Value → Op (List Value)
  | some v => expandArguments v
  | none => return []

/-- The top value, if it is wanted, and the stack below it. -/
def popIf (wanted : Prop) [Decidable wanted] (st : List Value) : Op (Option Value × List Value) :=
  if wanted then do
    let (v, st) ← pop st
    return (some v, st)
  else return (none, st)

/-- Take the callee and the counted arguments of a call from the stack, and add those of `*args` and
`**kwargs`. -/
def takeCounted (arg : UInt32) (star kw : Option Value) (st : List Value) :
    Op (Value × List Value × Keywords × List Value) := do
  let (pairs, st) ← popMany (2 * Opcode.namedCount arg) st
  let named ← namedArguments pairs
  let extra ← extraKeywords kw
  let (positional, st) ← popMany (Opcode.positionalCount arg) st
  let rest ← extraArguments star
  let (f, st) ← pop st
  return (f, positional ++ rest, named ++ extra, st)

/-- Take the callee and the arguments of a call from the stack. On the stack are, from the bottom,
the callee, the positional arguments, the names and values of the named ones, then `*args` and
`**kwargs` as far as the opcode takes them. -/
def takeCall (op : Opcode) (arg : UInt32) (st : List Value) :
    Op (Value × List Value × Keywords × List Value) := do
  let (kw, st) ← popIf (op = .callKw ∨ op = .callVarKw) st
  let (star, st) ← popIf (op = .callVar ∨ op = .callVarKw) st
  takeCounted arg star kw st

/-! ## Unpacking -/

/-- The `n` elements of an iterable. -/
def unpack (v : Value) (n : Nat) : Op (List Value) := do
  match ← drain v with
  | none => fault (.notSequence v.kind)
  | some elems =>
    if n < elems.length then fault (.unpackMany elems.length n)
    if elems.length < n then fault (.unpackFew elems.length n)
    return elems

/-! ## Functions -/

/-- Make a function from the tuple of its defaults and captured cells. -/
def makeFunc (t : Tables) (i : UInt32) (st : List Value) : Op (Value × List Value) := do
  match t.program.functions[i.toNat]? with
  | none => codeFault (.noFunction i.toNat)
  | some nested =>
    match ← pop st with
    | (.tuple elems, st) =>
      if elems.length < nested.freeVars.size then codeFault .makeFuncShort
      let n := elems.length - nested.freeVars.size
      let f ← make fun h =>
        h.newFunc ⟨t.module, .nested i, (elems.take n).toArray, (elems.drop n).toArray⟩
      return (f, st)
    | _ => codeFault .makeFuncOperand

/-- Replace the values of a list by the members that they name. -/
def loadMembers (members : Env) (module : String) : List Value → Op (List Value)
  | [] => return []
  | .str name :: rest =>
    match members.lookup? name with
    | some v => return v :: (← loadMembers members module rest)
    | none => fault (.missingMember name module)
  | _ :: _ => codeFault .loadMember

/-- Replace the top `count` names of a stack by the members that they name. -/
def replaceNames (members : Env) (module : String) (count : Nat) (st : List Value) :
    Op (List Value) := do
  let (names, st) ← popMany count st
  return (← loadMembers members module names).reverse ++ st

end Op

namespace Activation

/-- Push a value and go on. -/
def push (a : Activation) (st : List Value) (v : Value) : Effect :=
  .proceed { a with stack := v :: st }

/-- Go on with the given stack. -/
def withStack (a : Activation) (st : List Value) : Effect := .proceed { a with stack := st }

open Op in
/-- Carry out one instruction that has been read, with its operand. -/
def execute (t : Tables) (op : Opcode) (arg : UInt32) (a : Activation) : Op Effect :=
  match op with
  | .nop => return .proceed a
  | .dup => do
    let (x, st) ← pop a.stack
    return a.push (x :: st) x
  | .dup2 => do
    let (y, x, st) ← pop2 a.stack
    return a.push (x :: y :: x :: st) y
  | .pop => do
    let (_, st) ← pop a.stack
    return a.withStack st
  | .exch => do
    let (y, x, st) ← pop2 a.stack
    return a.push (y :: st) x
  | .uplus | .uminus | .tilde | .not => do
    let (x, st) ← pop a.stack
    let op : UnaryOp := match op with
      | .uplus => .plus
      | .uminus => .minus
      | .tilde => .tilde
      | _ => .not
    return a.push st (← check fun h => h.unary op x)
  | .inplaceAdd => do
    let (y, x, st) ← pop2 a.stack
    return a.push st (← inplaceAdd x y)
  | .inplacePipe => do
    let (y, x, st) ← pop2 a.stack
    return a.push st (← inplacePipe x y)
  | .pushNone => return a.push a.stack .null
  | .pushTrue => return a.push a.stack (.bool true)
  | .pushFalse => return a.push a.stack (.bool false)
  | .mandatory => return a.push a.stack .mandatory
  | .jmp => return .proceed { a with next := arg.toNat }
  | .cjmp => do
    let (x, st) ← pop a.stack
    if ← read fun h => h.truth x then return .proceed { a with stack := st, next := arg.toNat }
    else return a.withStack st
  | .iterPush => do
    let (x, st) ← pop a.stack
    match ← make fun h => h.openIter x with
    | some it => return .proceed { a with stack := st, iters := it :: a.iters }
    | none => fail (.unsupported x.kind .iteration)
  | .iterJmp =>
    match a.iters with
    | [] => codeFault .noIterator
    | it :: iters => do
      match ← read fun h => h.nextElem? it with
      | some (x, it) => return .proceed { a with stack := x :: a.stack, iters := it :: iters }
      | none => return .proceed { a with next := arg.toNat }
  | .iterPop =>
    match a.iters with
    | [] => return .proceed a
    | it :: iters => do
      modify fun h => h.closeIter it
      return .proceed { a with iters := iters }
  | .ret => do
    let (v, _) ← pop a.stack
    return .finish v
  | .setIndex =>
    match a.stack with
    | z :: y :: x :: st => do
      setIndex x y z
      return a.withStack st
    | _ => codeFault .stackUnderflow
  | .index => do
    let (y, x, st) ← pop2 a.stack
    return a.push st (← check fun h => h.getIndex x y)
  | .attr => do
    let (x, st) ← pop a.stack
    return a.push st (← getAttr x (← entry t.program.names arg.toNat))
  | .setField => do
    let (_, x, st) ← pop2 a.stack
    setField x (← entry t.program.names arg.toNat)
    return a.withStack st
  | .makeDict => do
    return a.push a.stack (.dict (← make fun h => h.newDict #[]))
  | .setDict | .setDictUniq =>
    match a.stack with
    | v :: k :: .dict r :: st => do
      let isNew ← insert r k v
      if op = .setDictUniq ∧ !isNew then fault (.duplicateKey (← read fun h => h.repr k))
      return a.withStack st
    | _ :: _ :: _ :: _ => codeFault .setDictTarget
    | _ => codeFault .stackUnderflow
  | .append =>
    match a.stack with
    | v :: .list r :: st => do
      append r v
      return a.withStack st
    | _ :: _ :: _ => codeFault .appendTarget
    | _ => codeFault .stackUnderflow
  | .slice =>
    match a.stack with
    | step :: hi :: lo :: x :: st => do
      return a.push st (← slice x lo hi step)
    | _ => codeFault .stackUnderflow
  | .unpack => do
    let (v, st) ← pop a.stack
    return a.withStack ((← unpack v arg.toNat) ++ st)
  | .constant => do
    return a.push a.stack (← entry t.program.constants arg.toNat).value
  | .makeTuple => do
    let (elems, st) ← popMany arg.toNat a.stack
    return a.push st (.tuple elems)
  | .makeList => do
    let (elems, st) ← popMany arg.toNat a.stack
    return a.push st (← make fun h => h.newList elems.toArray)
  | .makeFunc => do
    let (f, st) ← makeFunc t arg a.stack
    return a.push st f
  | .load => do
    match ← pop a.stack with
    | (.str module, st) => return .load { a with stack := st } module arg.toNat
    | _ => codeFault .loadModule
  | .setLocal => do
    let (v, st) ← pop a.stack
    let _ ← slot a arg.toNat
    return .proceed { a with stack := st, locals := a.locals.setIfInBounds arg.toNat (some v) }
  | .setLocalCell => do
    let (v, st) ← pop a.stack
    let r ← slotCell a arg.toNat
    modify fun h => h.setCell r v
    return a.withStack st
  | .setGlobal => do
    let (v, st) ← pop a.stack
    let _ ← entry (← read fun h => (h.module t.module).globals) arg.toNat
    modify fun h => h.setGlobal t.module arg.toNat v
    return a.withStack st
  | .getLocal => do
    match ← slot a arg.toNat with
    | some v => return a.push a.stack v
    | none => fail (.unbound .function (← declName t.code.locals arg.toNat))
  | .free => do
    return a.push a.stack (← entry t.freeVars arg.toNat)
  | .freeCell => do
    let r ← asCell (← entry t.freeVars arg.toNat)
    return a.push a.stack (← cellContent r (← declName t.code.freeVars arg.toNat))
  | .localCell => do
    let r ← slotCell a arg.toNat
    return a.push a.stack (← cellContent r (← declName t.code.locals arg.toNat))
  | .getGlobal => do
    match ← entry (← read fun h => (h.module t.module).globals) arg.toNat with
    | some v => return a.push a.stack v
    | none => fail (.unbound .module (← declName t.program.globals arg.toNat))
  | .predeclared => do
    let name ← entry t.program.names arg.toNat
    match ← read fun h => (h.module t.module).predeclared.lookup? name with
    | some v => return a.push a.stack v
    | none => codeFault (.predeclaredUnset name)
  | .universal => do
    let name ← entry t.program.names arg.toNat
    match Heap.universalEnv.lookup? name with
    | some v => return a.push a.stack v
    | none => codeFault (.universalUnset name)
  | .call | .callVar | .callKw | .callVarKw => do
    let (f, args, kwargs, st) ← takeCall op arg a.stack
    return .call { a with stack := st } f args kwargs
  | op =>
    match op.binOp? with
    | some op => do
      let (y, x, st) ← pop2 a.stack
      return a.push st (← binary op x y)
    | none => return .proceed a

end Activation

end Starlark
