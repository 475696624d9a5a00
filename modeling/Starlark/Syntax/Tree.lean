import Starlark.Position
import Starlark.Syntax.Operator

/-!
# Resolved syntax trees

A tree is resolved: every identifier carries its scope and slot index, every function knows its
locals and its free variables. Nothing else is promised by the type; a tree that breaks a rule of
the resolver (a `break` outside a loop, an impossible assignment target) is still a tree, and the
compiler rejects it.
-/

set_option autoImplicit false

namespace Starlark

/-- Where a resolved name lives at run time. -/
inductive Scope where
  /-- A slot of the current activation. -/
  | frame
  /-- A slot of the current activation that a nested function captures; it holds a cell. -/
  | cell
  /-- An entry of the current function's captured cells. -/
  | free
  /-- A module variable, by slot. -/
  | global
  /-- A name supplied by the host. -/
  | predeclared
  /-- A name of the universe. -/
  | universal
  deriving DecidableEq, Inhabited

/-- The scope's name in compiler messages. -/
def Scope.label : Scope → String
  | .frame => "Local"
  | .cell => "Cell"
  | .free => "Free"
  | .global => "Global"
  | .predeclared => "Predeclared"
  | .universal => "Universal"

/-- A use or definition of a name. -/
structure Ident where
  name : String
  pos : Position
  scope : Scope
  index : UInt32
  deriving DecidableEq, Inhabited

/-- A declaration: a local, a free variable or a global. The scope and index of a free variable
describe it as the enclosing function sees it. -/
structure Binding where
  name : String
  pos : Position
  scope : Scope
  index : UInt32
  deriving DecidableEq, Inhabited

/-- Literals. A float is given by its bit pattern, so that the two zeros and the NaNs stay
apart. -/
inductive Literal where
  | int (n : Int64)
  | float (bits : UInt64)
  | str (s : String)
  | bytes (b : List UInt8)
  deriving DecidableEq

mutual

/-- Expressions. -/
inductive Expr where
  | ident (id : Ident)
  | literal (value : Literal) (pos : Position)
  | list (elems : List Expr)
  | tuple (elems : List Expr)
  | dict (entries : List Entry)
  | paren (x : Expr)
  | unary (op : UnaryOp) (x : Expr) (pos : Position)
  | binary (op : BinOp) (x y : Expr) (pos : Position)
  /-- `thenExpr if cond else elseExpr`. -/
  | cond (cond thenExpr elseExpr : Expr)
  | index (x i : Expr) (lbrack : Position)
  | slice (x : Expr) (lo hi step : Option Expr) (lbrack : Position)
  | dot (x : Expr) (name : String) (pos : Position)
  | call (func : Expr) (args : List Arg) (lparen : Position)
  | comprehension (body : Body) (clauses : List Clause)
  | lambda (f : Function)

/-- One `key: value` of a dict display or comprehension. -/
inductive Entry where
  | mk (key value : Expr) (colon : Position)

/-- One argument of a call. -/
inductive Arg where
  | positional (x : Expr)
  | named (name : String) (x : Expr)
  /-- `*x`. -/
  | star (x : Expr)
  /-- `**x`. -/
  | starStar (x : Expr)

/-- What a comprehension collects: elements of a list or entries of a dict. -/
inductive Body where
  | elem (x : Expr)
  | entry (e : Entry)

/-- One clause of a comprehension. -/
inductive Clause where
  | loop (vars iterable : Expr) (pos : Position)
  | guard (cond : Expr)

/-- One declared parameter. -/
inductive Param where
  | required (id : Ident)
  | optional (id : Ident) (default : Expr)
  /-- A bare `*`, before the keyword-only parameters. -/
  | star
  | varargs (id : Ident)
  | kwargs (id : Ident)

/-- A `def` or a `lambda`. The locals list the parameters first: the ordinary ones and the
keyword-only ones in order, then `*args`, then `**kwargs`. -/
inductive Function where
  | mk (name : String) (pos : Position) (params : List Param) (body : List Stmt)
      (locals freeVars : List Binding) (numKwonly : UInt32) (hasVarargs hasKwargs : Bool)

/-- Statements. -/
inductive Stmt where
  | expr (x : Expr)
  | assign (lhs rhs : Expr) (pos : Position)
  | augAssign (op : BinOp) (lhs rhs : Expr) (pos : Position)
  | define (name : Ident) (f : Function)
  | ifElse (cond : Expr) (thenBody elseBody : List Stmt)
  | whileLoop (cond : Expr) (body : List Stmt)
  | forLoop (vars iterable : Expr) (body : List Stmt) (pos : Position)
  | ret (result : Option Expr)
  | pass
  | breakLoop
  | continueLoop
  /-- `load("module", …)` binds `targets[i]` to the member `names[i]`. -/
  | load (pos : Position) (module : String) (modulePos : Position) (names : List String)
      (targets : List Ident)

end

instance : Inhabited Expr := ⟨.tuple []⟩

instance : Inhabited Stmt := ⟨.pass⟩

/-- Whether a parameter takes a local slot; only a bare `*` does not. -/
def Param.takesSlot : Param → Bool
  | .star => false
  | _ => true

/-- The number of local slots that the parameters take. -/
def Param.slots (params : List Param) : Nat := (params.filter Param.takesSlot).length

/-- The doc string of a body: its first statement, when that is a string literal. -/
def Stmt.docString : List Stmt → String
  | .expr (.literal (.str s) _) :: _ => s
  | _ => ""

end Starlark
