import Starlark.Lower.Tree

/-!
# Compiling programs

A file is compiled to a program whose toplevel runs its statements; an expression, to a program
whose toplevel returns its value.
-/

set_option autoImplicit false

namespace Starlark

/-- A resolved file. -/
structure SourceFile where
  filename : String
  body : List Stmt
  /-- The locals of the toplevel: variables of its comprehensions. -/
  locals : List Binding
  /-- The module variables, in order of their slots. -/
  globals : List Binding
  /-- Whether functions may call themselves. -/
  recursion : Bool

/-- Compile a file. -/
def SourceFile.compile (f : SourceFile) : Except CompileError Program :=
  match Build.assemble ⟨1, 1⟩ (Build.stmts f.body) {} with
  | .error e _ => .error e
  | .ok assembled b =>
    .ok
      { filename := f.filename
        names := b.names
        constants := b.constants
        functions := b.functions
        loads := b.loads.toList
        globals := (f.globals.map Binding.decl).toArray
        toplevel := assembled.toCode "<toplevel>" ⟨1, 1⟩ f.body f.locals []
        recursion := f.recursion }

/-- The file that returns the value of an expression. -/
def SourceFile.ofExpr (filename : String) (x : Expr) (locals : List Binding) (recursion : Bool) :
    SourceFile :=
  { filename, body := [.ret (some x)], locals, globals := [], recursion }

end Starlark
