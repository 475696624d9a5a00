import Starlark.Code.LineTable

/-!
# Compiled programs

A program holds the tables that all functions of one file share, and its toplevel function. A
compiled function holds its code stream, its line table and the shape of its activations.
-/

set_option autoImplicit false

namespace Starlark

/-- A name with the position of its declaration. -/
structure Decl where
  name : String
  pos : Position
  deriving DecidableEq, Inhabited

/-- An entry of the constant table. A float is held by its bit pattern. -/
inductive Constant where
  | int (n : Int64)
  | float (bits : UInt64)
  | str (s : String)
  | bytes (b : List UInt8)
  deriving DecidableEq, Inhabited

/-- A compiled function. -/
structure Code where
  pos : Position
  name : String
  doc : String
  code : Array UInt8
  lines : List UInt16
  /-- The parameters, then the other locals. -/
  locals : Array Decl
  /-- The locals that hold cells. -/
  cells : List UInt32
  freeVars : Array Decl
  maxStack : UInt32
  /-- The number of local slots that the parameters take, `*args` and `**kwargs` included. -/
  numParams : UInt32
  numKwonly : UInt32
  hasVarargs : Bool
  hasKwargs : Bool
  deriving DecidableEq, Inhabited

/-- The position of the instruction at an address: the last recorded one at or before it, else that
of the function. -/
def Code.position (c : Code) (pc : Nat) : Position :=
  match LineTable.rowAt? (LineTable.decode c.pos c.lines) pc with
  | some row => ⟨row.line, row.col⟩
  | none => c.pos

/-- Which function of a program. -/
inductive CodeId where
  | toplevel
  | nested (i : UInt32)
  deriving DecidableEq, Inhabited

/-- A compiled program. -/
structure Program where
  filename : String
  /-- Attribute, predeclared and universal names. -/
  names : Array String
  constants : Array Constant
  /-- The nested functions. -/
  functions : Array Code
  /-- The modules named by load statements, in order. -/
  loads : List Decl
  /-- The module variables. -/
  globals : Array Decl
  toplevel : Code
  /-- Whether functions may call themselves. -/
  recursion : Bool
  deriving DecidableEq, Inhabited

/-- The compiled function with the given id. -/
def Program.code? (p : Program) : CodeId → Option Code
  | .toplevel => some p.toplevel
  | .nested i => p.functions[i.toNat]?

end Starlark
