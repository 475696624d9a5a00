import Starlark.Code.Program
import Starlark.Data.Builtin
import Starlark.Data.Env
import Starlark.Error

/-!
# The heap

The objects with identity, one table for each type. A reference is an index into its table, and
objects are never removed. A list or dict counts the iterations that are open on it: it can be
changed only while there is none and it is not frozen.

Operations are `Op` programs. They keep what they did to the heap before they failed.
-/

set_option autoImplicit false

namespace Starlark

/-- A list. -/
structure ListObj where
  elems : Array Value
  frozen : Bool := false
  /-- The number of open iterations. -/
  iterating : Nat := 0
  deriving Inhabited

/-- A dict: its entries in order of insertion. -/
structure DictObj where
  entries : Array (Value × Value)
  frozen : Bool := false
  /-- The number of open iterations. -/
  iterating : Nat := 0
  deriving Inhabited

/-- The box of a captured local; it may be empty. -/
structure CellObj where
  content : Option Value
  frozen : Bool := false
  deriving Inhabited

/-- A program in the heap; functions of one program share it. -/
structure ProgramRef where
  index : Nat
  deriving DecidableEq, Inhabited

/-- A module in the heap. -/
structure ModuleRef where
  index : Nat
  deriving DecidableEq, Inhabited

/-- A function: code of a module, with the defaults and the cells it was made with. -/
structure FuncObj where
  module : ModuleRef
  code : CodeId
  defaults : Array Value
  freeVars : Array Value
  deriving Inhabited

/-- A builtin, bound to a receiver if it is a method. -/
structure BuiltinObj where
  op : BuiltinOp
  receiver : Option Value := none
  deriving Inhabited

/-- A program made ready to run: its module variables and the names its host supplies. -/
structure ModuleObj where
  program : ProgramRef
  predeclared : Env
  globals : Array (Option Value)
  deriving Inhabited

/-- The heap. -/
structure Heap where
  lists : Array ListObj := #[]
  dicts : Array DictObj := #[]
  cells : Array CellObj := #[]
  funcs : Array FuncObj := #[]
  builtins : Array BuiltinObj := #[]
  programs : Array Program := #[]
  modules : Array ModuleObj := #[]
  deriving Inhabited

/-- Operations on the heap. -/
abbrev Op := EStateM Stop Heap

namespace Heap

/-! ## Looking up -/

/-- The object of a list reference. -/
def list (h : Heap) (r : ListRef) : ListObj := h.lists.getD r.index default

/-- The object of a dict reference. -/
def dict (h : Heap) (r : DictRef) : DictObj := h.dicts.getD r.index default

/-- The object of a cell reference. -/
def cell (h : Heap) (r : CellRef) : CellObj := h.cells.getD r.index default

/-- The object of a function reference. -/
def func (h : Heap) (r : FuncRef) : FuncObj := h.funcs.getD r.index default

/-- The object of a builtin reference. -/
def builtin (h : Heap) (r : BuiltinRef) : BuiltinObj := h.builtins.getD r.index default

/-- A module. -/
def module (h : Heap) (r : ModuleRef) : ModuleObj := h.modules.getD r.index default

/-- A program. -/
def program (h : Heap) (r : ProgramRef) : Program := h.programs.getD r.index default

/-- The program that a function belongs to. -/
def programOf (h : Heap) (f : FuncObj) : Program := h.program (h.module f.module).program

/-- The compiled code of a function. -/
def codeOf (h : Heap) (f : FuncObj) : Code := ((h.programOf f).code? f.code).getD default

/-- Whether two functions run the same code of the same program. -/
def runsSame (h : Heap) (f g : FuncObj) : Bool :=
  (h.module f.module).program == (h.module g.module).program && f.code == g.code

/-- The compiled code of the function of a reference. -/
def funcCode (h : Heap) (r : FuncRef) : Code := h.codeOf (h.func r)

/-- Whether the functions of two references run the same code of the same program. -/
def sameCode (h : Heap) (f g : FuncRef) : Bool := h.runsSame (h.func f) (h.func g)

/-! ## Making objects -/

/-- A new list. -/
def newList (h : Heap) (elems : Array Value) : Value × Heap :=
  (.list ⟨h.lists.size⟩, { h with lists := h.lists.push { elems } })

/-- A new dict. -/
def newDict (h : Heap) (entries : Array (Value × Value)) : DictRef × Heap :=
  (⟨h.dicts.size⟩, { h with dicts := h.dicts.push { entries } })

/-- A new cell. -/
def newCell (h : Heap) (content : Option Value) : Value × Heap :=
  (.cell ⟨h.cells.size⟩, { h with cells := h.cells.push { content } })

/-- A new function. -/
def newFunc (h : Heap) (f : FuncObj) : Value × Heap :=
  (.func ⟨h.funcs.size⟩, { h with funcs := h.funcs.push f })

/-- A new builtin. -/
def newBuiltin (h : Heap) (op : BuiltinOp) (receiver : Option Value) : Value × Heap :=
  (.builtin ⟨h.builtins.size⟩, { h with builtins := h.builtins.push { op, receiver } })

/-- A new program. -/
def newProgram (h : Heap) (p : Program) : ProgramRef × Heap :=
  (⟨h.programs.size⟩, { h with programs := h.programs.push p })

/-- A new module of a program, with all its variables unbound. -/
def newModule (h : Heap) (p : ProgramRef) (predeclared : Env) : ModuleRef × Heap :=
  let globals := Array.replicate (h.program p).globals.size none
  (⟨h.modules.size⟩, { h with modules := h.modules.push ⟨p, predeclared, globals⟩ })

/-! ## Changing objects -/

/-- Change a list. -/
def modifyList (h : Heap) (r : ListRef) (f : ListObj → ListObj) : Heap :=
  { h with lists := h.lists.modify r.index f }

/-- Change a dict. -/
def modifyDict (h : Heap) (r : DictRef) (f : DictObj → DictObj) : Heap :=
  { h with dicts := h.dicts.modify r.index f }

/-- Change a cell. -/
def modifyCell (h : Heap) (r : CellRef) (f : CellObj → CellObj) : Heap :=
  { h with cells := h.cells.modify r.index f }

/-- Store into a cell. Freezing a cell does not stop the activation that owns it. -/
def setCell (h : Heap) (r : CellRef) (v : Value) : Heap :=
  h.modifyCell r fun c => { c with content := some v }

/-- Store into a module variable. -/
def setGlobal (h : Heap) (r : ModuleRef) (i : Nat) (v : Value) : Heap :=
  { h with
    modules := h.modules.modify r.index fun m =>
        { m with globals := m.globals.setIfInBounds i (some v) } }

theorem list_modifyList_self (h : Heap) {r : ListRef} (f : ListObj → ListObj)
    (hr : r.index < h.lists.size) : (h.modifyList r f).list r = f (h.list r) := by
  simp [modifyList, list, hr, Array.getElem_modify]

theorem list_modifyList_of_ne (h : Heap) {r s : ListRef} (f : ListObj → ListObj) (hne : s ≠ r) :
    (h.modifyList r f).list s = h.list s := by
  have hi : ¬ r.index = s.index := fun e => hne (by cases r; cases s; cases e; rfl)
  simp [modifyList, list, Array.getElem?_modify, hi]

theorem dict_modifyDict_self (h : Heap) {r : DictRef} (f : DictObj → DictObj)
    (hr : r.index < h.dicts.size) : (h.modifyDict r f).dict r = f (h.dict r) := by
  simp [modifyDict, dict, hr, Array.getElem_modify]

theorem dict_modifyDict_of_ne (h : Heap) {r s : DictRef} (f : DictObj → DictObj) (hne : s ≠ r) :
    (h.modifyDict r f).dict s = h.dict s := by
  have hi : ¬ r.index = s.index := fun e => hne (by cases r; cases s; cases e; rfl)
  simp [modifyDict, dict, Array.getElem?_modify, hi]

theorem cell_modifyCell_self (h : Heap) {r : CellRef} (f : CellObj → CellObj)
    (hr : r.index < h.cells.size) : (h.modifyCell r f).cell r = f (h.cell r) := by
  simp [modifyCell, cell, hr, Array.getElem_modify]

theorem cell_modifyCell_of_ne (h : Heap) {r s : CellRef} (f : CellObj → CellObj) (hne : s ≠ r) :
    (h.modifyCell r f).cell s = h.cell s := by
  have hi : ¬ r.index = s.index := fun e => hne (by cases r; cases s; cases e; rfl)
  simp [modifyCell, cell, Array.getElem?_modify, hi]

/-! ## Modules -/

/-- The bound variables of a module, in order of declaration. -/
def moduleGlobals (h : Heap) (r : ModuleRef) : Env :=
  let m := h.module r
  Env.ofPairs (((h.program m.program).globals.toList.zip m.globals.toList).filterMap
    fun (d, v) => v.map (d.name, ·))

/-- The value of the first variable of a module with the given name. -/
def moduleGlobal? (h : Heap) (r : ModuleRef) (name : String) : Option Value :=
  let m := h.module r
  match (h.program m.program).globals.findIdx? fun d => d.name == name with
  | some i => (m.globals[i]?).getD none
  | none => none

/-! ## The universe -/

/-- The heap before anything ran: it holds the functions of the universe. -/
def initial : Heap :=
  { builtins := (BuiltinOp.universal.map fun op => { op }).toArray }

/-- The names that every program sees. -/
def universalEnv : Env :=
  [("None", .null), ("True", .bool true), ("False", .bool false)] ++
    BuiltinOp.universal.zipIdx.map fun (op, i) => (op.name, .builtin ⟨i⟩)

end Heap

namespace Op

/-- Fail with an error. -/
def fail {α : Type} (e : Error) : Op α := throw (.error e)

/-- Fail with a fault. -/
def fault {α : Type} (f : Fault) : Op α := throw (.fault f)

/-- Give up. -/
def abort {α : Type} (a : Abort) : Op α := throw (.abort a)

/-- Look something up. -/
def read {α : Type} (f : Heap → α) : Op α := fun h => .ok (f h) h

/-- Look something up that may fail. -/
def check {α : Type} (f : Heap → Except Error α) : Op α := fun h =>
  match f h with
  | .ok a => .ok a h
  | .error e => .error (.error e) h

/-- Make an object. -/
def make {α : Type} (f : Heap → α × Heap) : Op α := modifyGet f

end Op

end Starlark
