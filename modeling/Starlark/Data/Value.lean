/-!
# Values

Scalars, text, bytes and tuples are held in the value itself. Lists, dicts, functions, builtins and
cells have an identity: the value holds a reference, and the object lives in the heap.
-/

set_option autoImplicit false

namespace Starlark

/-- A list in the heap. -/
structure ListRef where
  index : Nat
  deriving DecidableEq, Inhabited

/-- A dict in the heap. -/
structure DictRef where
  index : Nat
  deriving DecidableEq, Inhabited

/-- A cell in the heap. -/
structure CellRef where
  index : Nat
  deriving DecidableEq, Inhabited

/-- A function in the heap. -/
structure FuncRef where
  index : Nat
  deriving DecidableEq, Inhabited

/-- A builtin in the heap. -/
structure BuiltinRef where
  index : Nat
  deriving DecidableEq, Inhabited

/-- Values. -/
inductive Value where
  | null
  | bool (b : Bool)
  | int (n : Int64)
  | float (x : Float)
  | str (s : String)
  | bytes (b : List UInt8)
  | list (r : ListRef)
  | tuple (elems : List Value)
  | dict (r : DictRef)
  | func (r : FuncRef)
  | builtin (r : BuiltinRef)
  /-- The box of a captured local; scripts never see it. -/
  | cell (r : CellRef)
  /-- The mark of a keyword-only parameter without a default; scripts never see it. -/
  | mandatory

instance : Inhabited Value := ⟨.null⟩

/-- The types of values. -/
inductive Kind where
  | null
  | bool
  | int
  | float
  | str
  | bytes
  | list
  | tuple
  | dict
  | func
  | builtin
  | cell
  | mandatory
  deriving DecidableEq

/-- The name of a type. -/
def Kind.name : Kind → String
  | .null => "NoneType"
  | .bool => "bool"
  | .int => "int"
  | .float => "float"
  | .str => "string"
  | .bytes => "bytes"
  | .list => "list"
  | .tuple => "tuple"
  | .dict => "dict"
  | .func => "function"
  | .builtin => "builtin_function_or_method"
  | .cell => "cell"
  | .mandatory => "mandatory"

/-- The type of a value. -/
def Value.kind : Value → Kind
  | .null => .null
  | .bool _ => .bool
  | .int _ => .int
  | .float _ => .float
  | .str _ => .str
  | .bytes _ => .bytes
  | .list _ => .list
  | .tuple _ => .tuple
  | .dict _ => .dict
  | .func _ => .func
  | .builtin _ => .builtin
  | .cell _ => .cell
  | .mandatory => .mandatory

/-- Keyword arguments, in order. -/
abbrev Keywords := List (String × Value)

end Starlark
