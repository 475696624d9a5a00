import Starlark.Machine.HostLibrary

/-!
# Threads

What belongs to one line of evaluation beside its heap and its calls: the step counter and its
limit, the reason of a cancellation, the lines written so far, and what the host lends it, which is
where modules come from, what happens when the limit is reached, and the code of its functions.
-/

set_option autoImplicit false

namespace Starlark

/-- The state of a thread. -/
structure Thread where
  name : String
  /-- The configured step limit. -/
  configSteps : Option Nat := none
  maxDepth : Nat := 1000
  /-- The step limit in force. -/
  limit : Option Nat := none
  steps : Nat := 0
  /-- The first reason for which the thread was cancelled. -/
  cancelled : Option String := none
  /-- Whether printed lines are kept. -/
  records : Bool := true
  /-- The lines written so far. -/
  lines : Array String := #[]
  loader : Option (List (String × ModuleSource)) := none
  onLimit : Option LimitHook := none
  /-- The code of the functions of the host. -/
  host : Nat → HostCode := HostCode.ofLibrary
  /-- How often functions of the host had the turn. -/
  turns : Nat := 0
  deriving Inhabited

namespace Thread

/-- A step limit of zero is none. -/
def limitOf : Option Nat → Option Nat
  | some 0 => none
  | n => n

/-- A new thread. -/
def new (name : String) (maxSteps : Option Nat) (maxDepth : Nat) (records : Bool) : Thread :=
  { name, configSteps := maxSteps, maxDepth, limit := limitOf maxSteps, records }

/-- Cancel a thread; the first reason stays. -/
def cancel (t : Thread) (reason : String) : Thread :=
  match t.cancelled with
  | some _ => t
  | none => { t with cancelled := some reason }

theorem cancel_of_cancelled {t : Thread} {reason : String} (h : t.cancelled = some reason)
    (other : String) : t.cancel other = t := by
  simp [cancel, h]

theorem cancelled_cancel_of_none {t : Thread} (h : t.cancelled = none) (reason : String) :
    (t.cancel reason).cancelled = some reason := by
  simp [cancel, h]

/-- Write a line. -/
def write (t : Thread) (line : String) : Thread := { t with lines := t.lines.push line }

/-- Write a printed message under the thread's name, if printed lines are kept. -/
def print (t : Thread) (message : String) : Thread :=
  if t.records then t.write (t.name ++ ": " ++ message) else t

/-- What happens at an instruction from the step limit on. -/
def atLimit (t : Thread) : Thread :=
  match t.onLimit with
  | none => t.cancel "too many steps"
  | some (.cancel reason) => t.cancel reason
  | some .count => t.write ("max_steps@" ++ toString t.steps)
  | some (.cancelAt n reason) => if n ≤ t.steps then t.cancel reason else t

theorem cancelled_atLimit {t : Thread} {reason : String} (h : t.cancelled = some reason) :
    t.atLimit.cancelled = some reason := by
  unfold atLimit
  split
  · rw [cancel_of_cancelled h, h]
  · rw [cancel_of_cancelled h, h]
  · exact h
  · split
    · rw [cancel_of_cancelled h, h]
    · exact h

/-- Whether the step limit is reached. -/
def limitReached (t : Thread) : Bool :=
  match t.limit with
  | some n => n ≤ t.steps
  | none => false

/-- Count one instruction. It may be executed unless the thread is then cancelled. -/
def tick (t : Thread) : Thread :=
  let t := { t with steps := t.steps + 1 }
  if t.limitReached then t.atLimit else t

theorem cancelled_tick {t : Thread} {reason : String} (h : t.cancelled = some reason) :
    t.tick.cancelled = some reason := by
  simp only [tick]
  split
  · exact cancelled_atLimit h
  · exact h

/-- The source of a module. -/
def source? (t : Thread) (module : String) : Except Error ModuleSource :=
  match t.loader with
  | none => .error (.fault .noLoader)
  | some sources =>
    match sources.find? fun s => s.1 == module with
    | some s => .ok s.2
    | none => .error (.fault .noModule)

/-- Whether the programs that modules come from are in a heap. -/
def areIn (h : Heap) (sources : List (String × ModuleSource)) : Bool :=
  sources.all fun s =>
    match s.2 with
    | .program p _ => p.index < h.programs.size
    | _ => true

/-- What a host does to a thread, which loads only programs that it has. -/
def steer (t : Thread) (h : Heap) : Steering → Thread
  | .cancel reason => t.cancel reason
  | .print message => t.print message
  | .setLimit steps => { t with limit := limitOf (some steps) }
  | .setOnLimit onLimit => { t with onLimit }
  | .setLoader loader => if areIn h (loader.getD []) then { t with loader } else t

/-- A function of the host has the turn once more. -/
def takeTurn (t : Thread) : Thread := { t with turns := t.turns + 1 }

/-- What a function of the host can see. -/
def view (t : Thread) (h : Heap) (stack : CallStack) (receiver : Option Value) (run : HostRun) :
    HostView where
  heap := h
  name := t.name
  configSteps := t.configSteps
  maxDepth := t.maxDepth
  steps := t.steps
  cancelled := t.cancelled
  stack
  receiver
  args := run.args
  kwargs := run.kwargs
  held := run.held
  log := run.log
  turn := t.turns

/-- What the function of the innermost call does when it has the turn. The builtins that are none of
the host never have the turn: they call nothing. -/
def move (t : Thread) (h : Heap) (stack : CallStack) (b : BuiltinObj) (run : HostRun) : HostMove :=
  match b.op with
  | .host _ code => t.host code (t.view h stack b.receiver run)
  | _ => .finish (.ok .null)

end Thread

/-- How a function of the host goes on. -/
inductive HostEffect where
  /-- It keeps the turn. -/
  | goOn (heap : Heap) (thread : Thread) (run : HostRun)
  | call (thread : Thread) (f : Value) (args : List Value) (kwargs : Keywords)
  | finish (thread : Thread) (r : Except Error Value)
  | abort (heap : Heap) (thread : Thread) (run : HostRun) (a : Abort)

/-- Let the function of the innermost call have its turn. -/
def Thread.letMove (t : Thread) (h : Heap) (stack : CallStack) (b : BuiltinObj) (run : HostRun) :
    HostEffect :=
  match t.move h stack b run with
  | .act a =>
    match a.perform (h, run.held) with
    | .ok v (h, held) => .goOn h t.takeTurn ({ run with held }.note (.ok v))
    | .error (.error e) (h, held) => .goOn h t.takeTurn ({ run with held }.note (.error e))
    | .error (.abort x) (h, held) => .abort h t.takeTurn { run with held } x
  | .steer s => .goOn h (t.takeTurn.steer h s) (run.note (.ok .null))
  | .call f args kwargs => .call t.takeTurn f args kwargs
  | .finish r => .finish t.takeTurn r

end Starlark
