import Starlark.Machine.Step

/-!
# Pooled frames

A thread keeps the frames of its calls in one pool. A call takes the next frame above the active
ones, a new one if there is none, and works in the buffers that it finds there; when the call ends,
its frame stays in the pool for the next call at that depth. The call stack and the recursion guard
read the active frames.

An engine is a machine that works this way. What it does is what the machine does; how its frames
correspond to those of the machine is in `Starlark.Proofs.Machine.Pooling`.
-/

set_option autoImplicit false

namespace Starlark

/-- A frame of the pool. -/
structure PooledFrame where
  /-- What is called, while the frame is active. -/
  callable : Option Value := none
  /-- The address of the instruction that is being executed. -/
  pc : Nat := 0
  /-- Buffers for the locals and the operand stack of a call. A function takes them while it
  runs. -/
  locals : Array (Option Value) := #[]
  stack : List Value := []

/-- The frames of a thread: those of the active calls, the innermost first, and those above them,
the next one first. -/
structure FramePool where
  active : List PooledFrame := []
  idle : List PooledFrame := []

/-- How a frame is reported. -/
def Heap.pooledFrame? (h : Heap) (frame : PooledFrame) : Option CallFrame :=
  match frame.callable with
  | some (.func r) =>
    (h.funcs[r.index]?).map fun f =>
      let code := h.codeOf f
      ⟨code.name, (h.programOf f).filename, code.position frame.pc⟩
  | some (.builtin r) => some ⟨(h.builtin r).op.name, "<builtin>", .absent⟩
  | _ => none

namespace FramePool

/-- The number of active calls. -/
def depth (p : FramePool) : Nat := p.active.length

/-- Change the innermost frame. -/
def modifyTop (p : FramePool) (f : PooledFrame → PooledFrame) : FramePool :=
  { p with active := p.active.modifyHead f }

/-- Activate the next frame for a call, unless as many as allowed are active. -/
def push (p : FramePool) (limit : Nat) (callable : Value) : Option FramePool :=
  if limit ≤ p.depth then none
  else
    let frame := p.idle.headD {}
    some ⟨{ frame with callable := some callable, pc := 0 } :: p.active, p.idle.tail⟩

/-- Give the innermost frame back. -/
def pop (p : FramePool) : FramePool :=
  match p.active with
  | [] => p
  | frame :: active => ⟨active, { frame with callable := none } :: p.idle⟩

/-- Take the buffers of the innermost frame. -/
def takeBuffers (p : FramePool) : (Array (Option Value) × List Value) × FramePool :=
  let frame := p.active.headD {}
  ((frame.locals, frame.stack), p.modifyTop fun frame => { frame with locals := #[], stack := [] })

/-- Return the buffers to the innermost frame, without their contents. -/
def restoreBuffers (p : FramePool) : FramePool :=
  p.modifyTop fun frame => { frame with locals := #[], stack := [] }

/-- Record where the innermost function is. -/
def setPc (p : FramePool) (pc : Nat) : FramePool := p.modifyTop fun frame => { frame with pc }

/-- What the active calls below the innermost one call. -/
def callers (p : FramePool) : List Value := p.active.tail.filterMap (·.callable)

/-- The active calls, outermost first. -/
def callStack (p : FramePool) (h : Heap) : CallStack := (p.active.filterMap h.pooledFrame?).reverse

/-- The `n`th call counted from the innermost. -/
def callFrame? (p : FramePool) (h : Heap) (n : Nat) : Option CallFrame :=
  p.active[n]?.bind h.pooledFrame?

/-- Whether a call below the innermost one runs the code of a function. -/
def isActive (p : FramePool) (h : Heap) (f : FuncObj) : Bool :=
  p.callers.any fun
    | .func r => (h.funcs[r.index]?).any fun g => h.runsSame g f
    | _ => false

/-- The innermost call is over: a function returns its buffers. -/
def release (p : FramePool) : Frame → FramePool
  | .func _ _ => p.restoreBuffers
  | .builtin _ _ => p

end FramePool

/-- Cut slots off or add unbound ones, up to a size. -/
def resizeSlots (slots : Array (Option Value)) (size : Nat) : Array (Option Value) :=
  slots.take size ++ Array.replicate (size - slots.size) none

/-- A machine with a pool of frames. What its calls have in hand is in `frames`. -/
structure Engine where
  heap : Heap
  thread : Thread
  pool : FramePool
  frames : List Frame
  control : Control

namespace Engine

/-- The machine of an engine. -/
def machine (e : Engine) : Machine := ⟨e.heap, e.thread, e.frames, e.control⟩

/-! ## Leaving a call -/

/-- Leave the innermost call with a value. -/
def leave (heap : Heap) (thread : Thread) (pool : FramePool) (frames : List Frame) (v : Value) :
    Engine :=
  match frames with
  | [] => ⟨heap, thread, pool, [], .finished (.ok v)⟩
  | frame :: rest =>
    ⟨heap.closeFrame frame, thread, (pool.release frame).pop, rest, .deliver (.ok v)⟩

/-- Leave the innermost call with an error. -/
def fail (heap : Heap) (thread : Thread) (pool : FramePool) (frames : List Frame) (e : Error) :
    Engine :=
  match frames with
  | [] => ⟨heap, thread, pool, [], .finished (.error e)⟩
  | frame :: rest =>
    let pool := pool.release frame
    ⟨heap.closeFrame frame, thread, pool.pop, rest, .deliver
        (.error (e.wrap (pool.callStack heap)))⟩

/-- Leave the innermost call with an outcome. -/
def finish (heap : Heap) (thread : Thread) (pool : FramePool) (frames : List Frame) :
    Except Error Value → Engine
  | .ok v => leave heap thread pool frames v
  | .error e => fail heap thread pool frames e

/-- Leave the innermost call as an operation ended that had no result. -/
def stop (heap : Heap) (thread : Thread) (pool : FramePool) (frames : List Frame) : Stop → Engine
  | .error e => fail heap thread pool frames e
  | .abort a => ⟨heap, thread, pool, frames, .aborted a⟩

/-! ## Entering a call -/

/-- Start the function of the innermost frame of the pool. A call that the recursion guard refuses
has not taken its buffers. -/
def enter (heap : Heap) (thread : Thread) (pool : FramePool) (callers : List Frame) (f : FuncObj)
    (args : List Value) (kwargs : Keywords) : Engine :=
  let code := heap.codeOf f
  if !(heap.programOf f).recursion && pool.isActive heap f then
    let e := (Error.recursion code.name).wrap (pool.callStack heap)
    ⟨heap, thread, pool.pop, callers, .deliver (.error e)⟩
  else
    let ((locals, stack), pool) := pool.takeBuffers
    let unstarted := Frame.func { func := f, locals := #[] } .call
    match bindArguments code f.defaults args kwargs
        { slots := resizeSlots locals code.locals.size } with
    | .error e _ => stop heap thread pool (unstarted :: callers) e
    | .ok _ bound =>
      let (locals, heap) := bound.install heap
      match heap.boxCells locals code.cells with
      | .error a => ⟨heap, thread, pool, unstarted :: callers, .aborted a⟩
      | .ok (locals, heap) =>
        ⟨heap, thread, pool, Frame.func { func := f, locals, stack } .call :: callers, .exec⟩

/-- Run the builtin of the innermost frame of the pool. -/
def runBuiltin (heap : Heap) (thread : Thread) (pool : FramePool) (callers : List Frame)
    (r : BuiltinRef) (args : List Value) (kwargs : Keywords) : Engine :=
  let b := heap.builtin r
  let frames := .builtin r { args, kwargs } :: callers
  match b.op with
  | .print =>
    match heap.printLine args kwargs with
    | .ok line => leave heap (thread.print line) pool frames .null
    | .error e => fail heap thread pool frames e
  | .host _ _ => ⟨heap, thread, pool, frames, .host⟩
  | _ =>
    match Op.callStandard b args kwargs heap with
    | .ok v heap => leave heap thread pool frames v
    | .error e heap => stop heap thread pool frames e

/-- Call a value on behalf of the innermost call. -/
def invoke (heap : Heap) (thread : Thread) (pool : FramePool) (frames : List Frame) (f : Value)
    (args : List Value) (kwargs : Keywords) : Engine :=
  match f with
  | .func r =>
    match pool.push thread.maxDepth f, heap.funcs[r.index]? with
    | none, _ => ⟨heap, thread, pool, frames, .deliver (.error (.callDepth thread.maxDepth))⟩
    | some pushed, some g => enter heap thread pushed frames g args kwargs
    | some _, none => ⟨heap, thread, pool, frames, .deliver (.error (.fault (.notCallable f.kind)))⟩
  | .builtin r =>
    match pool.push thread.maxDepth f with
    | none => ⟨heap, thread, pool, frames, .deliver (.error (.callDepth thread.maxDepth))⟩
    | some pushed => runBuiltin heap thread pushed frames r args kwargs
  | v => ⟨heap, thread, pool, frames, .deliver (.error (.fault (.notCallable v.kind)))⟩

/-! ## Loading -/

/-- Replace the names on the stack of the innermost function by the members of a loaded module. -/
def bindMembers (heap : Heap) (thread : Thread) (pool : FramePool) (a : Activation)
    (callers : List Frame) (name : String) (count : Nat) (members : Env) : Engine :=
  match Op.replaceNames members name count a.stack heap with
  | .ok st heap => ⟨heap, thread, pool, .func { a with stack := st } .call :: callers, .exec⟩
  | .error e heap => stop heap thread pool (.func a .call :: callers) e

/-- Load a module for the innermost function. -/
def load (heap : Heap) (thread : Thread) (pool : FramePool) (a : Activation) (callers : List Frame)
    (name : String) (count : Nat) : Engine :=
  match thread.source? name with
  | .error e => fail heap thread pool (.func a .call :: callers) (.load name e)
  | .ok (.failure message) =>
    fail heap thread pool (.func a .call :: callers) (.load name (.fault (.host message)))
  | .ok (.members members) => bindMembers heap thread pool a callers name count members
  | .ok (.program p predeclared) =>
    let (module, heap) := heap.newModule p predeclared
    let (toplevel, heap) := heap.newFunc ⟨module, .toplevel, #[], #[]⟩
    ⟨heap, thread, pool, .func a (.load name count module) :: callers, .invoke toplevel [] []⟩

/-! ## Steps -/

/-- Hand the outcome of a call to the innermost call. -/
def deliver (heap : Heap) (thread : Thread) (pool : FramePool) (frames : List Frame)
    (r : Except Error Value) : Engine :=
  match frames with
  | [] => ⟨heap, thread, pool, [], .finished r⟩
  | .func a .call :: callers =>
    match r with
    | .ok v => ⟨heap, thread, pool, .func { a with stack := v :: a.stack } .call :: callers, .exec⟩
    | .error e => fail heap thread pool (.func a .call :: callers) e
  | .func a (.load name count module) :: callers =>
    let heap := heap.freezeModule module
    match r with
    | .ok _ => bindMembers heap thread pool a callers name count (heap.moduleGlobals module)
    | .error e => fail heap thread pool (.func a .call :: callers) (.load name e)
  | .builtin b run :: callers => ⟨heap, thread, pool, .builtin b (run.note r) :: callers, .host⟩

/-- Let the function of the host that is the innermost call have its turn. -/
def host (heap : Heap) (thread : Thread) (pool : FramePool) (r : BuiltinRef) (run : HostRun)
    (callers : List Frame) : Engine :=
  let frames := .builtin r run :: callers
  match thread.letMove heap (pool.callStack heap) (heap.builtin r) run with
  | .goOn heap thread run => ⟨heap, thread, pool, .builtin r run :: callers, .host⟩
  | .call thread f args kwargs => ⟨heap, thread, pool, frames, .invoke f args kwargs⟩
  | .finish thread r => finish heap thread pool frames r
  | .abort heap thread run a => ⟨heap, thread, pool, .builtin r run :: callers, .aborted a⟩

/-- Execute the next instruction of the innermost function. -/
def exec (heap : Heap) (thread : Thread) (pool : FramePool) (a : Activation)
    (callers : List Frame) :
    Engine :=
  let thread := thread.tick
  match thread.cancelled with
  | some reason => fail heap thread pool (.func a .call :: callers) (.cancelled reason)
  | none =>
    let tables := heap.tables a.func
    let a := { a with pc := a.next }
    let pool := pool.setPc a.next
    match fetch tables.code.code a.next with
    | .error e => fail heap thread pool (.func a .call :: callers) (.fault (.code (.fetch e)))
    | .ok f =>
      match Activation.execute tables f.op (f.arg.getD 0) { a with next := f.next } heap with
      | .error e heap => stop heap thread pool (.func a .call :: callers) e
      | .ok (.proceed b) heap => ⟨heap, thread, pool, .func b .call :: callers, .exec⟩
      | .ok (.finish v) heap => leave heap thread pool (.func a .call :: callers) v
      | .ok (.call b f args kwargs) heap =>
        ⟨heap, thread, pool, .func b .call :: callers, .invoke f args kwargs⟩
      | .ok (.load b name count) heap => load heap thread pool b callers name count

/-- One step. -/
def step : Engine → Engine
  | ⟨heap, thread, pool, frames, .exec⟩ =>
    match frames with
    | .func a _ :: callers => exec heap thread pool a callers
    | frames => ⟨heap, thread, pool, frames, .finished (.ok .null)⟩
  | ⟨heap, thread, pool, frames, .invoke f args kwargs⟩ =>
    invoke heap thread pool frames f args kwargs
  | ⟨heap, thread, pool, frames, .host⟩ =>
    match frames with
    | .builtin r run :: callers => host heap thread pool r run callers
    | frames => ⟨heap, thread, pool, frames, .finished (.ok .null)⟩
  | ⟨heap, thread, pool, frames, .deliver r⟩ => deliver heap thread pool frames r
  | ⟨heap, thread, pool, frames, .finished r⟩ => ⟨heap, thread, pool, frames, .finished r⟩
  | ⟨heap, thread, pool, frames, .aborted a⟩ => ⟨heap, thread, pool, frames, .aborted a⟩

/-- At most `fuel` steps, up to the end of the first call. -/
def run : Nat → Engine → Engine
  | 0, e => e
  | fuel + 1, e => if e.machine.isDone then e else run fuel e.step

/-- The engine that starts a call of a thread with the given pool. -/
def start (heap : Heap) (thread : Thread) (pool : FramePool) (f : Value) (args : List Value)
    (kwargs : Keywords) : Engine :=
  ⟨heap, thread, pool, [], .invoke f args kwargs⟩

end Engine

end Starlark
