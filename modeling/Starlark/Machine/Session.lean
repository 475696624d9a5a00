import Starlark.Machine.Step

/-!
# Running programs

A module is a program with its own variables. `initModule` runs its toplevel, and `execProgram`
makes a module, runs it and freezes its variables, also when it fails.
-/

set_option autoImplicit false

namespace Starlark

namespace Machine

/-- How a call ended; nothing if it has not yet. -/
def result? (m : Machine) : Option (Except Stop Value) :=
  match m.control with
  | .finished (.ok v) => some (.ok v)
  | .finished (.error e) => some (.error (.error e))
  | .aborted a => some (.error (.abort a))
  | _ => none

/-- Call a value, with at most `fuel` steps of the machine. -/
def call (fuel : Nat) (heap : Heap) (thread : Thread) (f : Value) (args : List Value)
    (kwargs : Keywords) : Machine :=
  run fuel (start heap thread f args kwargs)

/-- Run the toplevel of a module. -/
def initModule (fuel : Nat) (heap : Heap) (thread : Thread) (module : ModuleRef) : Machine :=
  let (toplevel, heap) := heap.newFunc ⟨module, .toplevel, #[], #[]⟩
  call fuel heap thread toplevel [] []

/-- Run a program as a new module, and freeze its variables. -/
def execProgram (fuel : Nat) (heap : Heap) (thread : Thread) (p : ProgramRef) (predeclared : Env) :
    ModuleRef × Machine :=
  let (module, heap) := heap.newModule p predeclared
  match initModule fuel heap thread module with
  | ⟨heap, thread, frames, control⟩ => (module, ⟨heap.freezeModule module, thread, frames, control⟩)

/-- The value of the toplevel of a program, run as a new module. -/
def evalProgram (fuel : Nat) (heap : Heap) (thread : Thread) (p : ProgramRef) (predeclared : Env) :
    Machine :=
  let (module, heap) := heap.newModule p predeclared
  initModule fuel heap thread module

end Machine

/-! ## A thread as text -/

/-- A reason that may be absent. -/
def reasonText : Option String → String
  | some reason => "Some(" ++ quoted reason ++ ")"
  | none => "None"

/-- The state of a thread between calls, on one line. -/
def Thread.text (t : Thread) (depth : Nat) : String :=
  "Thread \x7b name: " ++ quoted t.name ++ s!", depth: {depth}, steps: {t.steps}, cancelled: " ++
    reasonText t.cancelled ++ " \x7d"

/-- The handle that cancels a thread. -/
def Thread.handleText (t : Thread) : String := "CancelHandle(" ++ reasonText t.cancelled ++ ")"

end Starlark
