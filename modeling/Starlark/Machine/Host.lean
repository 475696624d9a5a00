import Starlark.Data.Freeze
import Starlark.Operation.Library

/-!
# Host code

A host lends a thread functions of its own. What they do is a parameter: `HostCode` says what a
function of the host does next, whenever it has the turn in one of its calls, and it may be anything
that the host can do. It works with values, makes and freezes objects, opens iterators and keeps
them for as long as it likes, steers its thread, calls, and goes on with the outcome; in the end it
returns a value or an error. What a host does while no call is active is made of the same acts.
-/

set_option autoImplicit false

namespace Starlark

/-! ## Operations -/

/-- The operations on values. -/
inductive Operation where
  | newList (elems : List Value)
  | newDict
  | newBuiltin (op : BuiltinOp) (receiver : Option Value)
  | append (r : ListRef) (v : Value)
  | extend (r : ListRef) (iterable : Value)
  | setIndex (x y z : Value)
  | insert (r : DictRef) (k v : Value)
  | update (r other : DictRef)
  | inplaceAdd (x y : Value)
  | inplacePipe (x y : Value)
  | binary (op : BinOp) (x y : Value)
  | slice (x lo hi step : Value)
  | attr (x : Value) (name : String)
  | setField (x : Value) (name : String)
  | standard (b : BuiltinObj) (args : List Value) (kwargs : Keywords)

namespace Operation

/-- Carry out an operation; one that is done for its effect gives nothing. -/
def run : Operation → Op Value
  | .newList elems => Op.make fun h => h.newList elems.toArray
  | .newDict => return .dict (← Op.make fun h => h.newDict #[])
  | .newBuiltin op receiver => Op.make fun h => h.newBuiltin op receiver
  | .append r v => do
    Op.append r v
    return .null
  | .extend r iterable => do
    Op.extend r iterable
    return .null
  | .setIndex x y z => do
    Op.setIndex x y z
    return .null
  | .insert r k v => return .bool (← Op.insert r k v)
  | .update r other => do
    Op.update r other
    return .null
  | .inplaceAdd x y => Op.inplaceAdd x y
  | .inplacePipe x y => Op.inplacePipe x y
  | .binary op x y => Op.binary op x y
  | .slice x lo hi step => Op.slice x lo hi step
  | .attr x name => Op.getAttr x name
  | .setField x name => do
    Op.setField x name
    return .null
  | .standard b args kwargs => Op.callStandard b args kwargs

/-- The heap behind an operation, whether it failed or not. -/
def after (o : Operation) (h : Heap) : Heap :=
  match o.run h with
  | .ok _ h' | .error _ h' => h'

end Operation

/-! ## Acts -/

/-- What a host does with the heap and with the iterators that it holds. Objects that it makes have
the last place in their table; an iterator that it opens becomes the first of those that it
holds. -/
inductive HostAct where
  | operate (o : Operation)
  | freeze (v : Value)
  | freezeModule (r : ModuleRef)
  | newCell (content : Option Value)
  | setCell (r : CellRef) (v : Value)
  | newProgram (p : Program)
  | newModule (p : ProgramRef) (predeclared : Env)
  | newFunc (f : FuncObj)
  /-- Open an iterator over a value, if it can be iterated. -/
  | openIter (v : Value)
  /-- Ask the `i`th iterator for its next element, given as a tuple of one. -/
  | advance (i : Nat)
  /-- Close the `i`th iterator. -/
  | close (i : Nat)

/-- A heap, and the iterators that a host holds. -/
abbrev Holding := Heap × List Iter

/-- Carry out an act. A module is made of a program that the heap has, a function is one of a module
that it has, and an iterator can be used only while it is held; else nothing happens. -/
def HostAct.perform : HostAct → EStateM Stop Holding Value
  | .operate o => fun (h, held) =>
    match o.run h with
    | .ok v h => .ok v (h, held)
    | .error e h => .error e (h, held)
  | .freeze v => fun (h, held) => .ok .null (h.freeze v, held)
  | .freezeModule r => fun (h, held) => .ok .null (h.freezeModule r, held)
  | .newCell content => fun (h, held) =>
    let (v, h) := h.newCell content
    .ok v (h, held)
  | .setCell r v => fun (h, held) => .ok .null (h.setCell r v, held)
  | .newProgram p => fun (h, held) => .ok .null ((h.newProgram p).2, held)
  | .newModule p predeclared => fun (h, held) =>
    if p.index < h.programs.size then .ok .null ((h.newModule p predeclared).2, held)
    else .ok .null (h, held)
  | .newFunc f => fun (h, held) =>
    if f.module.index < h.modules.size then
      let (v, h) := h.newFunc f
      .ok v (h, held)
    else .ok .null (h, held)
  | .openIter v => fun (h, held) =>
    match h.openIter v with
    | (some it, h) => .ok (.bool true) (h, it :: held)
    | (none, h) => .ok (.bool false) (h, held)
  | .advance i => fun (h, held) =>
    match held[i]? with
    | none => .ok .null (h, held)
    | some it =>
      match h.nextElem? it with
      | some (v, it) => .ok (.tuple [v]) (h, held.set i it)
      | none => .ok (.tuple []) (h, held)
  | .close i => fun (h, held) =>
    match held[i]? with
    | none => .ok .null (h, held)
    | some it => .ok .null (h.closeIter it, held.eraseIdx i)

/-- What happens at each instruction from the step limit on. -/
inductive LimitHook where
  /-- Cancel with the reason. -/
  | cancel (reason : String)
  /-- Write a line with the step count, and go on. -/
  | count
  /-- Cancel with the reason once `steps` steps are done. -/
  | cancelAt (steps : Nat) (reason : String)
  deriving DecidableEq

/-- What loading a module does. -/
inductive ModuleSource where
  /-- It gives these members. -/
  | members (env : Env)
  /-- It fails with the message. -/
  | failure (message : String)
  /-- It runs a program and gives its variables. -/
  | program (p : ProgramRef) (predeclared : Env)

/-- What a host does to a thread. -/
inductive Steering where
  | cancel (reason : String)
  | print (message : String)
  | setLimit (steps : Nat)
  | setOnLimit (hook : Option LimitHook)
  | setLoader (loader : Option (List (String × ModuleSource)))

/-! ## Functions of the host -/

/-- What a function of the host does when it has the turn. -/
inductive HostMove where
  | act (a : HostAct)
  | steer (s : Steering)
  /-- Call a value; the function has the turn again when the outcome is there. -/
  | call (f : Value) (args : List Value) (kwargs : Keywords)
  /-- Return. -/
  | finish (r : Except Error Value)

/-- What a function of the host can see when it has the turn. -/
structure HostView where
  heap : Heap
  /-- What is known of the thread. -/
  name : String
  configSteps : Option Nat
  maxDepth : Nat
  steps : Nat
  cancelled : Option String
  /-- The active calls, outermost first; the last is that of the function itself. -/
  stack : CallStack
  receiver : Option Value
  args : List Value
  kwargs : Keywords
  /-- The iterators that it holds. -/
  held : List Iter
  /-- What came of its moves in this call, the latest first. -/
  log : List (Except Error Value)
  /-- How often functions of the host had the turn on the thread: what a host keeps anywhere else
  may make a difference, and can differ only from one turn to another. -/
  turn : Nat

/-- The code of a function of the host. -/
abbrev HostCode := HostView → HostMove

instance : Inhabited HostMove := ⟨.finish (.ok .null)⟩

/-- How far a function of the host is in a call. -/
structure HostRun where
  args : List Value := []
  kwargs : Keywords := []
  /-- The iterators that it holds. -/
  held : List Iter := []
  /-- What came of its moves, the latest first. -/
  log : List (Except Error Value) := []

/-- What came of a move is noted. -/
def HostRun.note (run : HostRun) (r : Except Error Value) : HostRun :=
  { run with log := r :: run.log }

end Starlark
