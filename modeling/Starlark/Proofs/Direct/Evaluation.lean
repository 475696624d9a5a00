import Starlark.Lower.Program
import Starlark.Machine.Step

/-!
# Direct evaluation

A tree is evaluated as it stands, by recursion on the tree: operands from the left, a loop round by
round, with the operations and the standard builtins on the heap. Statements that end otherwise than
by falling through have an `Exit`.

Functions are not made and nothing is loaded. Where something is called whose code is not at hand,
where a loop takes more rounds than are allowed, and where an operation gives up, there is no
outcome, and a `Loss` says why.
-/

set_option autoImplicit false

namespace Starlark

/-- Why there is no outcome. -/
inductive Loss where
  /-- A loop takes more rounds than are allowed. -/
  | rounds
  /-- Something is called whose code is not at hand. -/
  | callee
  /-- An operation gives up. -/
  | abort (a : Abort)
  /-- The tree is none of those that are evaluated. -/
  | tree

/-- How evaluation ends other than with a value. -/
inductive Exit where
  /-- The innermost loop is left, or goes on with its next round. -/
  | leave (isBreak : Bool)
  | ret (v : Value)
  | error (e : Error)
  /-- There is no outcome. -/
  | lost (why : Loss)

/-- What evaluation changes. -/
structure Scene where
  heap : Heap
  thread : Thread
  locals : Array (Option Value)

/-- Evaluation. -/
abbrev Eval := EStateM Exit Scene

/-- What evaluation is given: the module, the declarations of the locals and of the module's
variables, and the number of rounds that a loop may take. -/
structure Surroundings where
  module : ModuleRef
  locals : Array Decl
  globals : Array Decl
  rounds : Nat

namespace Eval

/-- Evaluation without an outcome. -/
def lost {α : Type} (why : Loss) : Eval α := throw (.lost why)

/-- Fail with an error. -/
def fail {α : Type} (e : Error) : Eval α := throw (.error e)

/-- An operation on the heap. -/
def op {α : Type} (m : Op α) : Eval α := fun s =>
  match m s.heap with
  | .ok a h => .ok a { s with heap := h }
  | .error (.error e) h => .error (.error e) { s with heap := h }
  | .error (.abort a) h => .error (.lost (.abort a)) { s with heap := h }

/-- Whether a value counts as true. -/
def truth (v : Value) : Eval Bool := op (Op.read fun h => h.truth v)

/-! ## Variables -/

/-- The content of a local slot. -/
def slot (i : UInt32) : Eval (Option Value) := fun s => op (Op.entry s.locals i.toNat) s

/-- The cell in a local slot. -/
def slotCell (i : UInt32) : Eval CellRef := do
  match ← slot i with
  | some v => op (Op.asCell v)
  | none => fail (.fault (.code .unboxedCell))

/-- The content of a slot of the module. -/
def globalSlot (c : Surroundings) (i : UInt32) : Eval (Option Value) := do
  op (Op.entry (← op (Op.read fun h => (h.module c.module).globals)) i.toNat)

/-- The value of a variable. -/
def lookup (c : Surroundings) (id : Ident) : Eval Value :=
  match id.scope with
  | .frame => do
    match ← slot id.index with
    | some v => return v
    | none => fail (.unbound .function (← op (Op.declName c.locals id.index.toNat)))
  | .cell => do
    let r ← slotCell id.index
    let name ← op (Op.declName c.locals id.index.toNat)
    op (Op.cellContent r name)
  | .global => do
    match ← globalSlot c id.index with
    | some v => return v
    | none => fail (.unbound .module (← op (Op.declName c.globals id.index.toNat)))
  | .predeclared => do
    match ← op (Op.read fun h => (h.module c.module).predeclared.lookup? id.name) with
    | some v => return v
    | none => fail (.fault (.code (.predeclaredUnset id.name)))
  | .universal =>
    match Heap.universalEnv.lookup? id.name with
    | some v => return v
    | none => fail (.fault (.code (.universalUnset id.name)))
  | .free => lost .tree

/-- Store into a local slot. -/
def setSlot (i : UInt32) (v : Value) : Eval Unit := do
  let _ ← slot i
  modify fun s => { s with locals := s.locals.setIfInBounds i.toNat (some v) }

/-- Store into a variable. -/
def store (c : Surroundings) (id : Ident) (v : Value) : Eval Unit :=
  match id.scope with
  | .frame => setSlot id.index v
  | .cell => do
    let r ← slotCell id.index
    op (modify fun h => h.setCell r v)
  | .global => do
    let _ ← globalSlot c id.index
    op (modify fun h => h.setGlobal c.module id.index.toNat v)
  | _ => lost .tree

/-! ## Calls -/

/-- Write a printed line. -/
def print (args : List Value) (kwargs : Keywords) : Eval Value := do
  let line ← op (Op.check fun h => h.printLine args kwargs)
  modify fun s => { s with thread := s.thread.print line }
  return .null

/-- Call a builtin. Those of the host are not at hand. -/
def callBuiltin (b : BuiltinObj) (args : List Value) (kwargs : Keywords) : Eval Value :=
  if b.op = .print then print args kwargs
  else if b.op.isHost then lost .callee
  else op (Op.callStandard b args kwargs)

/-- Call a value. There must be room for the call beside the toplevel. -/
def call (f : Value) (args : List Value) (kwargs : Keywords) : Eval Value :=
  match f with
  | .builtin r => do
    let s ← get
    if s.thread.maxDepth ≤ 1 then fail (.callDepth s.thread.maxDepth)
    else callBuiltin (s.heap.builtin r) args kwargs
  | .func _ => lost .callee
  | v => fail (.fault (.notCallable v.kind))

/-! ## Operators and displays -/

/-- The operator of an augmented assignment. -/
def augmented : BinOp → Value → Value → Op Value
  | .plus, x, y => Op.inplaceAdd x y
  | .pipe, x, y => Op.inplacePipe x y
  | op, x, y => Op.binary op x y

/-- Insert an entry whose key must be new. -/
def insertNew (r : DictRef) (k v : Value) : Op Unit := do
  let isNew ← Op.insert r k v
  if !isNew then Op.fault (.duplicateKey (← Op.read fun h => h.repr k))

/-- A new empty list. -/
def emptyList : Op ListRef := Op.make fun h => (⟨h.lists.size⟩, (h.newList #[]).2)

/-! ## Loops -/

/-- One round of a loop; says whether another may follow. -/
def round (body : Eval Unit) : Eval Bool := fun s =>
  match body s with
  | .ok _ s => .ok true s
  | .error (.leave isBreak) s => .ok (!isBreak) s
  | .error e s => .error e s

/-- Rounds while a test is true. -/
def repeatWhile (test : Eval Bool) (body : Eval Unit) : (rounds : Nat) → Eval Unit
  | 0 => lost .rounds
  | n + 1 => do
    if ← test then
      if ← round body then repeatWhile test body n

/-- Rounds for the elements that an iterator has left. -/
def forElements (body : Value → Eval Bool) : (rounds : Nat) → Iter → Eval Unit
  | 0, _ => lost .rounds
  | n + 1, it => do
    match ← op (Op.read fun h => h.nextElem? it) with
    | none => return ()
    | some (v, it) => if ← body v then forElements body n it

/-- Close an iterator however evaluation ends. -/
def closing (it : Iter) (m : Eval Unit) : Eval Unit := fun s =>
  match m s with
  | .ok a s => .ok a { s with heap := s.heap.closeIter it }
  | .error e s => .error e { s with heap := s.heap.closeIter it }

/-- Rounds for the elements of a value. -/
def forEach (rounds : Nat) (v : Value) (body : Value → Eval Bool) : Eval Unit := do
  match ← op (Op.make fun h => h.openIter v) with
  | none => fail (.unsupported v.kind .iteration)
  | some it => closing it (forElements body rounds it)

/-! ## Trees -/

mutual

/-- The value of an expression. -/
def expr (c : Surroundings) : Expr → Eval Value
  | .paren x => expr c x
  | .ident id => lookup c id
  | .literal value _ => return (Build.literalConstant value).value
  | .list elems => do
    let vs ← exprs c elems
    op (Op.make fun h => h.newList vs.toArray)
  | .tuple elems => do
    let vs ← exprs c elems
    return .tuple vs
  | .dict items => do
    let r ← op (Op.make fun h => h.newDict #[])
    entries c r items
    return .dict r
  | .unary o x _ => do
    let v ← expr c x
    op (Op.check fun h => h.unary o v)
  | .binary .and x y _ => do
    let v ← expr c x
    if ← truth v then expr c y else return v
  | .binary .or x y _ => do
    let v ← expr c x
    if ← truth v then return v else expr c y
  | .binary o x y _ => do
    let v ← expr c x
    let w ← expr c y
    op (Op.binary o v w)
  | .cond t a b => do
    let v ← expr c t
    if ← truth v then expr c a else expr c b
  | .index x i _ => do
    let v ← expr c x
    let k ← expr c i
    op (Op.check fun h => h.getIndex v k)
  | .slice x lo hi step _ => do
    let v ← expr c x
    let lo ← bound c lo
    let hi ← bound c hi
    let step ← bound c step
    op (Op.slice v lo hi step)
  | .dot x name _ => do
    let v ← expr c x
    op (Op.getAttr v name)
  | .call f args _ => do
    let f ← expr c f
    let (positional, named) ← plainArgs c args
    let star ← starArg c args
    let kw ← starStarArg c args
    let extra ← op (Op.extraKeywords kw)
    let rest ← op (Op.extraArguments star)
    call f (positional ++ rest) (named ++ extra)
  | .comprehension (.elem x) cs => do
    let r ← op emptyList
    clauses c cs do
      let v ← expr c x
      op (Op.append r v)
    return .list r
  | .comprehension (.entry (.mk k v _)) cs => do
    let r ← op (Op.make fun h => h.newDict #[])
    clauses c cs do
      let k ← expr c k
      let v ← expr c v
      let _ ← op (Op.insert r k v)
    return .dict r
  | .lambda _ => lost .tree

/-- The values of expressions, in order. -/
def exprs (c : Surroundings) : List Expr → Eval (List Value)
  | [] => return []
  | x :: rest => do
    let v ← expr c x
    let vs ← exprs c rest
    return v :: vs

/-- The value of an expression that may be absent. -/
def bound (c : Surroundings) : Option Expr → Eval Value
  | none => return .null
  | some x => expr c x

/-- Insert the entries of a dict display. -/
def entries (c : Surroundings) (r : DictRef) : List Entry → Eval Unit
  | [] => return ()
  | .mk k v _ :: rest => do
    let k ← expr c k
    let v ← expr c v
    op (insertNew r k v)
    entries c r rest

/-- The positional and the named arguments of a call. -/
def plainArgs (c : Surroundings) : List Arg → Eval (List Value × Keywords)
  | [] => return ([], [])
  | .positional x :: rest => do
    let v ← expr c x
    let (positional, named) ← plainArgs c rest
    return (v :: positional, named)
  | .named name x :: rest => do
    let v ← expr c x
    let (positional, named) ← plainArgs c rest
    return (positional, (name, v) :: named)
  | _ :: rest => plainArgs c rest

/-- The value of `*args`, which comes behind the other arguments. The last one counts. -/
def starArg (c : Surroundings) : List Arg → Eval (Option Value)
  | [] => return none
  | .star x :: rest => if Arg.anyStar rest then starArg c rest else some <$> expr c x
  | _ :: rest => starArg c rest

/-- The value of `**kwargs`, which comes last. The last one counts. -/
def starStarArg (c : Surroundings) : List Arg → Eval (Option Value)
  | [] => return none
  | .starStar x :: rest => if Arg.anyStarStar rest then starStarArg c rest else some <$> expr c x
  | _ :: rest => starStarArg c rest

/-- The clauses of a comprehension around what it collects. -/
def clauses (c : Surroundings) : List Clause → Eval Unit → Eval Unit
  | [], inner => inner
  | .guard t :: rest, inner => do
    let v ← expr c t
    if ← truth v then clauses c rest inner
  | .loop vars iterable _ :: rest, inner => do
    let v ← expr c iterable
    forEach c.rounds v fun x => do
      assign c vars x
      clauses c rest inner
      return true

/-- Store a value into a target. -/
def assign (c : Surroundings) : Expr → Value → Eval Unit
  | .paren x, v => assign c x v
  | .ident id, v => store c id v
  | .tuple elems, v => do
    let vs ← op (Op.unpack v elems.length)
    assignAll c elems vs
  | .list elems, v => do
    let vs ← op (Op.unpack v elems.length)
    assignAll c elems vs
  | .index x i _, v => do
    let a ← expr c x
    let k ← expr c i
    op (Op.setIndex a k v)
  | .dot x name _, _ => do
    let a ← expr c x
    op (Op.setField a name)
  | _, _ => lost .tree

/-- Store values into targets. -/
def assignAll (c : Surroundings) : List Expr → List Value → Eval Unit
  | [], [] => return ()
  | x :: rest, v :: vs => do
    assign c x v
    assignAll c rest vs
  | _, _ => lost .tree

/-- Replace what a target holds. Its parts are evaluated once. -/
def update (c : Surroundings) : Expr → (Value → Eval Value) → Eval Unit
  | .paren x, f => update c x f
  | .ident id, f => do
    let old ← lookup c id
    let new ← f old
    store c id new
  | .index x i _, f => do
    let a ← expr c x
    let k ← expr c i
    let old ← op (Op.check fun h => h.getIndex a k)
    let new ← f old
    op (Op.setIndex a k new)
  | .dot x name _, f => do
    let a ← expr c x
    let old ← op (Op.getAttr a name)
    let _ ← f old
    op (Op.setField a name)
  | _, _ => lost .tree

/-- Statements, in order. -/
def stmts (c : Surroundings) : List Stmt → Eval Unit
  | [] => return ()
  | s :: rest => do
    stmt c s
    stmts c rest

/-- A statement. -/
def stmt (c : Surroundings) : Stmt → Eval Unit
  | .expr x => do
    let _ ← expr c x
  | .pass => return ()
  | .breakLoop => throw (.leave true)
  | .continueLoop => throw (.leave false)
  | .ifElse t a b => do
    let v ← expr c t
    if ← truth v then stmts c a else stmts c b
  | .assign lhs rhs _ => do
    let v ← expr c rhs
    assign c lhs v
  | .augAssign o lhs rhs _ =>
    update c lhs fun old => do
      let v ← expr c rhs
      op (augmented o old v)
  | .forLoop vars iterable body _ => do
    let v ← expr c iterable
    forEach c.rounds v fun x => do
      assign c vars x
      round (stmts c body)
  | .whileLoop t body =>
    repeatWhile (do truth (← expr c t)) (stmts c body) c.rounds
  | .ret result => do
    let v ← bound c result
    throw (.ret v)
  | .define _ _ => lost .tree
  | .load .. => lost .tree

end

end Eval

/-! ## Trees that are evaluated -/

/-- The kinds of displays that are joined to each other. -/
inductive Display where
  | list
  | tuple
  deriving DecidableEq

namespace Expr

/-- The display that an expression is. -/
def display? : Expr → Option Display
  | .paren x => x.display?
  | .list _ => some .list
  | .tuple _ => some .tuple
  | _ => none

/-- The display that is the last summand of an expression. -/
def lastDisplay? : Expr → Option Display
  | .paren x => x.lastDisplay?
  | .binary .plus _ y _ => y.display?
  | x => x.display?

end Expr

/-- Two summands are not displays of one kind. -/
def Display.Apart (d d' : Option Display) : Prop := ∀ k, d = some k → d' ≠ some k

/-! No function is made and nothing is loaded. No sum has two list displays or two tuple displays
next to each other. -/

namespace Direct

mutual

def expr : Expr → Prop
  | .ident _ | .literal _ _ => True
  | .list elems | .tuple elems => exprs elems
  | .dict items => entries items
  | .paren x | .unary _ x _ | .dot x _ _ => expr x
  | .binary op x y _ =>
    expr x ∧ expr y ∧ (op = .plus → Display.Apart x.lastDisplay? y.display?)
  | .index x y _ => expr x ∧ expr y
  | .cond t a b => expr t ∧ expr a ∧ expr b
  | .slice x lo hi step _ => expr x ∧ bound lo ∧ bound hi ∧ bound step
  | .call f as _ => expr f ∧ args as
  | .comprehension b cs => body b ∧ clauses cs
  | .lambda _ => False

def exprs : List Expr → Prop
  | [] => True
  | x :: rest => expr x ∧ exprs rest

def bound : Option Expr → Prop
  | none => True
  | some x => expr x

def entries : List Entry → Prop
  | [] => True
  | .mk k v _ :: rest => expr k ∧ expr v ∧ entries rest

def args : List Arg → Prop
  | [] => True
  | .positional x :: rest | .named _ x :: rest | .star x :: rest | .starStar x :: rest =>
    expr x ∧ args rest

def body : Body → Prop
  | .elem x => expr x
  | .entry (.mk k v _) => expr k ∧ expr v

def clauses : List Clause → Prop
  | [] => True
  | .loop vars iterable _ :: rest => expr vars ∧ expr iterable ∧ clauses rest
  | .guard t :: rest => expr t ∧ clauses rest

end

mutual

def stmts : List Stmt → Prop
  | [] => True
  | s :: rest => stmt s ∧ stmts rest

def stmt : Stmt → Prop
  | .expr x => expr x
  | .assign lhs rhs _ | .augAssign _ lhs rhs _ => expr lhs ∧ expr rhs
  | .define _ _ | .load .. => False
  | .ifElse t a b => expr t ∧ stmts a ∧ stmts b
  | .whileLoop t ss => expr t ∧ stmts ss
  | .forLoop vars iterable ss _ => expr vars ∧ expr iterable ∧ stmts ss
  | .ret result => bound result
  | .pass | .breakLoop | .continueLoop => True

end

end Direct

/-! ## Files -/

/-- How a run ends: with a heap, in which the module has its variables, with the lines written so
far, and with a value or the error as first raised. -/
structure Outcome where
  heap : Heap
  lines : Array String
  result : Except Error Value

/-- The outcome of what ended in a scene. -/
def Scene.outcome (s : Scene) (result : Except Error Value) : Outcome :=
  ⟨s.heap, s.thread.lines, result.mapError Error.root⟩

namespace SourceFile

/-- A file that is evaluated. -/
def Direct (f : SourceFile) : Prop := Direct.stmts f.body

/-- What the body of a file is given. -/
def surroundings (f : SourceFile) (module : ModuleRef) (rounds : Nat) : Surroundings where
  module := module
  locals := (f.locals.map Binding.decl).toArray
  globals := (f.globals.map Binding.decl).toArray
  rounds := rounds

/-- Evaluate the body of a file on a heap, on behalf of a module and a thread. A body that falls
through gives `None`. It is not begun if there is no room for it or if the thread is cancelled. -/
def evaluate (f : SourceFile) (rounds : Nat) (heap : Heap) (thread : Thread) (module : ModuleRef) :
    Except Loss Outcome :=
  if thread.maxDepth = 0 then .ok ⟨heap, thread.lines, .error (.callDepth 0)⟩
  else
    match heap.boxCells (Array.replicate f.locals.length none) (Binding.cells f.locals) with
    | .error a => .error (.abort a)
    | .ok (locals, heap) =>
      match thread.cancelled with
      | some reason => .ok ⟨heap, thread.lines, .error (.cancelled reason)⟩
      | none =>
        match Eval.stmts (f.surroundings module rounds) f.body ⟨heap, thread, locals⟩ with
        | .ok _ s => .ok (s.outcome (.ok .null))
        | .error (.ret v) s => .ok (s.outcome (.ok v))
        | .error (.error e) s => .ok (s.outcome (.error e))
        | .error (.leave _) _ => .error .tree
        | .error (.lost why) _ => .error why

end SourceFile

end Starlark
