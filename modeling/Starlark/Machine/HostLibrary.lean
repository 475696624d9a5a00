import Starlark.Machine.Host

/-!
# A small host

Functions of a host through which a script can look at the machine that runs it and steer it: they
cancel the thread, tell its steps and its calls, freeze, fail, and call back with or without handing
on the errors. They are the code that a thread has unless it is given other code.
-/

set_option autoImplicit false

namespace Starlark

namespace HostCode

/-- The text of the first argument, empty if there is none. -/
def firstText (v : HostView) : String :=
  match v.args with
  | x :: _ => v.heap.str x
  | [] => ""

/-- An active call as a tuple; nothing if there is none. -/
def frameTuple : Option CallFrame → Value
  | none => .null
  | some f =>
    .tuple [.str f.name, .str f.file, .int (Int64.ofNat f.pos.line.toNat),
      .int (Int64.ofNat f.pos.col.toNat)]

/-- Return a value. -/
def give (f : HostView → Value) : HostCode := fun v => .finish (.ok (f v))

/-- Cancel the thread. -/
def cancel : HostCode := fun v =>
  match v.log with
  | [] => .steer (.cancel (firstText v))
  | _ :: _ => .finish (.ok .null)

/-- The name of the calling function. -/
def caller : HostCode := give fun v =>
  match v.stack.reverse[1]? with
  | some f => .str f.name
  | none => .null

/-- The call that is so many calls out from the innermost. -/
def frame : HostCode := give fun v =>
  match v.args with
  | .int n :: _ => if n < 0 then .null else frameTuple v.stack.reverse[n.toInt.toNat]?
  | _ => frameTuple v.stack.reverse[0]?

/-- Freeze all arguments. -/
def freeze : HostCode := fun v =>
  match v.log with
  | [] => .act (.freeze (.tuple v.args))
  | _ :: _ => .finish (.ok .null)

/-- Fail with the text of the first argument. -/
def fail : HostCode := fun v => .finish (.error (.fault (.host (firstText v))))

/-- Call the first argument with the others, and return what `handOn` makes of the outcome. -/
def callBack (handOn : Except Error Value → Except Error Value) : HostCode := fun v =>
  match v.log, v.args with
  | [], f :: rest => .call f rest v.kwargs
  | [], [] => .finish (handOn (.error (.fault (.host "host_call: no function"))))
  | r :: _, _ => .finish (handOn r)

/-- The outcome of a call as a value. -/
def caught : Except Error Value → Except Error Value
  | .ok v => .ok (.tuple [.bool true, v])
  | .error e => .ok (.tuple [.bool false, .str e.message])

/-- The functions, in the order of their names. -/
def library : List HostCode :=
  [cancel,
   give fun v => .int (Int64.ofNat v.steps),
   give fun v => .int (Int64.ofNat v.stack.length),
   give fun v => .str (CallStack.text v.stack),
   caller, frame, freeze, fail, callBack id, callBack caught]

/-- Code for each number. -/
def ofLibrary (i : Nat) : HostCode := library.getD i (give fun _ => .null)

end HostCode

end Starlark
