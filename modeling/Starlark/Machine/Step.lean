import Starlark.Machine.Execute
import Starlark.Machine.Thread

/-!
# The machine

A machine is a heap, a thread, the stack of active calls, and what it does next. `Machine.step` does
one thing: execute an instruction, enter a call, give a function of the host its turn, or hand the
outcome of a call to the one that made it. `Machine.run` does so until the first call has ended.

An error that leaves a call gets the call stack at that point, unless it already has one from a call
further in. However a call ends, the iterators that it opened are closed.
-/

set_option autoImplicit false

namespace Starlark

/-- What a function waits for while it is not the innermost call. -/
inductive Pending where
  /-- The value of a call, to be pushed. -/
  | call
  /-- The end of a module's program, whose variables then replace `count` names. -/
  | load (name : String) (count : Nat) (module : ModuleRef)

/-- An active call. -/
inductive Frame where
  /-- A function, with what it waits for. -/
  | func (a : Activation) (pending : Pending)
  /-- A builtin, with how far it is if it is a function of the host. -/
  | builtin (r : BuiltinRef) (run : HostRun)

/-- What the machine does next. -/
inductive Control where
  /-- Execute the next instruction of the innermost function. -/
  | exec
  /-- Call a value on behalf of the innermost call. -/
  | invoke (f : Value) (args : List Value) (kwargs : Keywords)
  /-- Let the function of the host that is the innermost call have its turn. -/
  | host
  /-- Hand the outcome of a call to the innermost call, which made it. -/
  | deliver (r : Except Error Value)
  /-- Nothing: the first call has ended. -/
  | finished (r : Except Error Value)
  /-- Nothing: evaluation was given up. -/
  | aborted (a : Abort)

/-- A machine; the innermost call is the first of its frames. -/
structure Machine where
  heap : Heap
  thread : Thread
  frames : List Frame
  control : Control

/-! ## Call stacks -/

namespace Heap

/-- How an active call is reported. -/
def callFrame (h : Heap) : Frame → CallFrame
  | .func a _ =>
    let code := h.codeOf a.func
    ⟨code.name, (h.programOf a.func).filename, code.position a.pc⟩
  | .builtin r _ => ⟨(h.builtin r).op.name, "<builtin>", .absent⟩

/-- The active calls, outermost first. -/
def callStack (h : Heap) (frames : List Frame) : CallStack :=
  (frames.map h.callFrame).reverse

/-- Close the iterators that a call has open. -/
def closeFrame (h : Heap) : Frame → Heap
  | .func a _ => a.iters.foldl closeIter h
  | .builtin _ run => run.held.foldl closeIter h

/-- Whether a function frame below runs the same code. -/
def isActive (h : Heap) (f : FuncObj) (frames : List Frame) : Bool :=
  frames.any fun
    | .func a _ => h.runsSame a.func f
    | .builtin _ _ => false

/-- Box the locals that are captured. -/
def boxCells (h : Heap) (locals : Array (Option Value)) :
    List UInt32 → Except Abort (Array (Option Value) × Heap)
  | [] => .ok (locals, h)
  | i :: rest =>
    match locals[i.toNat]? with
    | none => .error .tableIndex
    | some v =>
      let (c, h) := h.newCell v
      boxCells h (locals.setIfInBounds i.toNat (some c)) rest

end Heap

namespace Machine

/-! ## Leaving a call -/

/-- Leave the innermost call with a value. -/
def leave (heap : Heap) (thread : Thread) (frames : List Frame) (v : Value) : Machine :=
  match frames with
  | [] => ⟨heap, thread, [], .finished (.ok v)⟩
  | frame :: rest => ⟨heap.closeFrame frame, thread, rest, .deliver (.ok v)⟩

/-- Leave the innermost call with an error. -/
def fail (heap : Heap) (thread : Thread) (frames : List Frame) (e : Error) : Machine :=
  match frames with
  | [] => ⟨heap, thread, [], .finished (.error e)⟩
  | frame :: rest =>
    let e := e.wrap (heap.callStack frames)
    ⟨heap.closeFrame frame, thread, rest, .deliver (.error e)⟩

/-- Leave the innermost call with an outcome. -/
def finish (heap : Heap) (thread : Thread) (frames : List Frame) : Except Error Value → Machine
  | .ok v => leave heap thread frames v
  | .error e => fail heap thread frames e

/-- Leave the innermost call as an operation ended that had no result. -/
def stop (heap : Heap) (thread : Thread) (frames : List Frame) : Stop → Machine
  | .error e => fail heap thread frames e
  | .abort a => ⟨heap, thread, frames, .aborted a⟩

/-! ## Entering a call -/

/-- Start the function of the innermost frame: check that it is not already active, bind its
arguments and box its captured locals. -/
def enter (heap : Heap) (thread : Thread) (callers : List Frame) (f : FuncObj) (args : List Value)
    (kwargs : Keywords) : Machine :=
  let code := heap.codeOf f
  let unstarted := Frame.func { func := f, locals := #[] } .call
  if !(heap.programOf f).recursion && heap.isActive f callers then
    fail heap thread (unstarted :: callers) (.recursion code.name)
  else
    match bindArguments code f.defaults args kwargs (Bound.empty code.locals.size) with
    | .error e _ => stop heap thread (unstarted :: callers) e
    | .ok _ bound =>
      let (locals, heap) := bound.install heap
      match heap.boxCells locals code.cells with
      | .error a => ⟨heap, thread, unstarted :: callers, .aborted a⟩
      | .ok (locals, heap) =>
        ⟨heap, thread, Frame.func { func := f, locals } .call :: callers, .exec⟩

/-- Run the builtin of the innermost frame; a function of the host gets the turn. -/
def runBuiltin (heap : Heap) (thread : Thread) (callers : List Frame) (r : BuiltinRef)
    (args : List Value) (kwargs : Keywords) : Machine :=
  let b := heap.builtin r
  let frames := .builtin r { args, kwargs } :: callers
  match b.op with
  | .print =>
    match heap.printLine args kwargs with
    | .ok line => leave heap (thread.print line) frames .null
    | .error e => fail heap thread frames e
  | .host _ _ => ⟨heap, thread, frames, .host⟩
  | _ =>
    match Op.callStandard b args kwargs heap with
    | .ok v heap => leave heap thread frames v
    | .error e heap => stop heap thread frames e

/-- Call a value on behalf of the innermost call. No function is behind the end of the heap. -/
def invoke (heap : Heap) (thread : Thread) (frames : List Frame) (f : Value) (args : List Value)
    (kwargs : Keywords) : Machine :=
  match f with
  | .func r =>
    if thread.maxDepth ≤ frames.length then
      ⟨heap, thread, frames, .deliver (.error (.callDepth thread.maxDepth))⟩
    else
      match heap.funcs[r.index]? with
      | some g => enter heap thread frames g args kwargs
      | none => ⟨heap, thread, frames, .deliver (.error (.fault (.notCallable f.kind)))⟩
  | .builtin r =>
    if thread.maxDepth ≤ frames.length then
      ⟨heap, thread, frames, .deliver (.error (.callDepth thread.maxDepth))⟩
    else runBuiltin heap thread frames r args kwargs
  | v => ⟨heap, thread, frames, .deliver (.error (.fault (.notCallable v.kind)))⟩

/-! ## Loading -/

/-- Replace the names on the stack of the innermost function by the members of a loaded module. -/
def bindMembers (heap : Heap) (thread : Thread) (a : Activation) (callers : List Frame)
    (name : String) (count : Nat) (members : Env) : Machine :=
  match Op.replaceNames members name count a.stack heap with
  | .ok st heap => ⟨heap, thread, .func { a with stack := st } .call :: callers, .exec⟩
  | .error e heap => stop heap thread (.func a .call :: callers) e

/-- Load a module for the innermost function. -/
def load (heap : Heap) (thread : Thread) (a : Activation) (callers : List Frame) (name : String)
    (count : Nat) : Machine :=
  match thread.source? name with
  | .error e => fail heap thread (.func a .call :: callers) (.load name e)
  | .ok (.failure message) =>
    fail heap thread (.func a .call :: callers) (.load name (.fault (.host message)))
  | .ok (.members members) => bindMembers heap thread a callers name count members
  | .ok (.program p predeclared) =>
    let (module, heap) := heap.newModule p predeclared
    let (toplevel, heap) := heap.newFunc ⟨module, .toplevel, #[], #[]⟩
    ⟨heap, thread, .func a (.load name count module) :: callers, .invoke toplevel [] []⟩

/-! ## Steps -/

/-- Hand the outcome of a call to the innermost call. -/
def deliver (heap : Heap) (thread : Thread) (frames : List Frame) (r : Except Error Value) :
    Machine :=
  match frames with
  | [] => ⟨heap, thread, [], .finished r⟩
  | .func a .call :: callers =>
    match r with
    | .ok v => ⟨heap, thread, .func { a with stack := v :: a.stack } .call :: callers, .exec⟩
    | .error e => fail heap thread (.func a .call :: callers) e
  | .func a (.load name count module) :: callers =>
    let heap := heap.freezeModule module
    match r with
    | .ok _ => bindMembers heap thread a callers name count (heap.moduleGlobals module)
    | .error e => fail heap thread (.func a .call :: callers) (.load name e)
  | .builtin b run :: callers => ⟨heap, thread, .builtin b (run.note r) :: callers, .host⟩

/-- Let the function of the host that is the innermost call have its turn. -/
def host (heap : Heap) (thread : Thread) (r : BuiltinRef) (run : HostRun) (callers : List Frame) :
    Machine :=
  let frames := .builtin r run :: callers
  match thread.letMove heap (heap.callStack frames) (heap.builtin r) run with
  | .goOn heap thread run => ⟨heap, thread, .builtin r run :: callers, .host⟩
  | .call thread f args kwargs => ⟨heap, thread, frames, .invoke f args kwargs⟩
  | .finish thread r => finish heap thread frames r
  | .abort heap thread run a => ⟨heap, thread, .builtin r run :: callers, .aborted a⟩

/-- Execute the next instruction of the innermost function. It counts as a step, and a cancelled
thread does not get any further. -/
def exec (heap : Heap) (thread : Thread) (a : Activation) (callers : List Frame) : Machine :=
  let thread := thread.tick
  match thread.cancelled with
  | some reason => fail heap thread (.func a .call :: callers) (.cancelled reason)
  | none =>
    let tables := heap.tables a.func
    let a := { a with pc := a.next }
    match fetch tables.code.code a.next with
    | .error e => fail heap thread (.func a .call :: callers) (.fault (.code (.fetch e)))
    | .ok f =>
      match Activation.execute tables f.op (f.arg.getD 0) { a with next := f.next } heap with
      | .error e heap => stop heap thread (.func a .call :: callers) e
      | .ok (.proceed b) heap => ⟨heap, thread, .func b .call :: callers, .exec⟩
      | .ok (.finish v) heap => leave heap thread (.func a .call :: callers) v
      | .ok (.call b f args kwargs) heap =>
        ⟨heap, thread, .func b .call :: callers, .invoke f args kwargs⟩
      | .ok (.load b name count) heap => load heap thread b callers name count

/-- One step. -/
def step : Machine → Machine
  | ⟨heap, thread, frames, .exec⟩ =>
    match frames with
    | .func a _ :: callers => exec heap thread a callers
    | frames => ⟨heap, thread, frames, .finished (.ok .null)⟩
  | ⟨heap, thread, frames, .invoke f args kwargs⟩ => invoke heap thread frames f args kwargs
  | ⟨heap, thread, frames, .host⟩ =>
    match frames with
    | .builtin r run :: callers => host heap thread r run callers
    | frames => ⟨heap, thread, frames, .finished (.ok .null)⟩
  | ⟨heap, thread, frames, .deliver r⟩ => deliver heap thread frames r
  | ⟨heap, thread, frames, .finished r⟩ => ⟨heap, thread, frames, .finished r⟩
  | ⟨heap, thread, frames, .aborted a⟩ => ⟨heap, thread, frames, .aborted a⟩

/-- Whether nothing is left to do. -/
def isDone (m : Machine) : Bool :=
  match m.control with
  | .finished _ | .aborted _ => true
  | _ => false

/-- At most `fuel` steps, up to the end of the first call. -/
def run : Nat → Machine → Machine
  | 0, m => m
  | fuel + 1, m => if m.isDone then m else run fuel m.step

theorem step_of_isDone {m : Machine} (h : m.isDone) : m.step = m := by
  obtain ⟨heap, thread, frames, control⟩ := m
  cases control with
  | exec => cases h
  | invoke => cases h
  | host => cases h
  | deliver => cases h
  | finished => rfl
  | aborted => rfl

theorem run_of_isDone {m : Machine} (h : m.isDone) (fuel : Nat) : run fuel m = m := by
  cases fuel with
  | zero => rfl
  | succ fuel => simp [run, h]

/-- A run can be cut at any point. -/
theorem run_add (m : Machine) (a b : Nat) : run (a + b) m = run b (run a m) := by
  induction a generalizing m with
  | zero => simp [run]
  | succ a ih =>
    rw [Nat.succ_add]
    by_cases h : m.isDone
    · rw [run_of_isDone h, run_of_isDone h, run_of_isDone h]
    · simp [run, h, ih]

theorem run_succ_eq_step (n : Nat) (m : Machine) : run (n + 1) m = (run n m).step := by
  rw [run_add]
  by_cases h : (run n m).isDone
  · rw [run_of_isDone h, step_of_isDone h]
  · simp [run, h]

/-- The machine that starts a call. -/
def start (heap : Heap) (thread : Thread) (f : Value) (args : List Value) (kwargs : Keywords) :
    Machine :=
  ⟨heap, thread, [], .invoke f args kwargs⟩

end Machine

end Starlark
