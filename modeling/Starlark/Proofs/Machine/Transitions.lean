import Starlark.Proofs.Machine.Acting
import Starlark.Proofs.Operation.Visibility

/-!
# How each function of the machine ends

Each function of the machine has a relation that lists how it can end, with everything that is known
then: entering a function (`Machine.Enters`), running a builtin (`Machine.Runs`), calling a value
(`Machine.Invokes`), loading a module (`Machine.Loads`), handing over an outcome
(`Machine.Delivers`), giving a function of the host its turn (`Machine.Hosts`) and executing an
instruction (`Machine.Executes`); `Machine.Steps` puts them together. The functions are unfolded
here, once each: what holds across every step is proved by cases on these relations.
-/

set_option autoImplicit false

namespace Starlark

namespace Machine

/-! ## Calls -/

/-- The frame of a function before anything is bound. -/
abbrev unstarted (f : FuncObj) : Frame := .func { func := f, locals := #[] } .call

/-- How the binding of arguments ends when a function is called. -/
abbrev binding (heap : Heap) (f : FuncObj) (args : List Value) (kwargs : Keywords) :
    EStateM.Result Stop Bound Unit :=
  bindArguments (heap.codeOf f) f.defaults args kwargs (Bound.empty (heap.codeOf f).locals.size)

/-- How entering a function ends. -/
inductive Enters (heap : Heap) (thread : Thread) (callers : List Frame) (f : FuncObj)
    (args : List Value) (kwargs : Keywords) : Machine → Prop where
  /-- The function is active already, and its program does not allow recursion. -/
  | recurs : (heap.programOf f).recursion = false → heap.isActive f callers = true →
      Enters heap thread callers f args kwargs
        (fail heap thread (unstarted f :: callers) (.recursion (heap.codeOf f).name))
  /-- The arguments do not fit. -/
  | unbound {e : Stop} {b : Bound} :
      (heap.programOf f).recursion = true ∨ heap.isActive f callers = false →
      binding heap f args kwargs = .error e b →
      Enters heap thread callers f args kwargs (stop heap thread (unstarted f :: callers) e)
  /-- A captured local does not exist. -/
  | unboxed {b : Bound} {x : Abort} :
      (heap.programOf f).recursion = true ∨ heap.isActive f callers = false →
      binding heap f args kwargs = .ok () b →
      (b.install heap).2.boxCells (b.install heap).1 (heap.codeOf f).cells = .error x →
      Enters heap thread callers f args kwargs
        ⟨(b.install heap).2, thread, unstarted f :: callers, .aborted x⟩
  | starts {b : Bound} {locals : Array (Option Value)} {heap' : Heap} :
      (heap.programOf f).recursion = true ∨ heap.isActive f callers = false →
      binding heap f args kwargs = .ok () b →
      (b.install heap).2.boxCells (b.install heap).1 (heap.codeOf f).cells = .ok (locals, heap') →
      Enters heap thread callers f args kwargs
        ⟨heap', thread, .func { func := f, locals } .call :: callers, .exec⟩

theorem enters_enter (heap : Heap) (thread : Thread) (callers : List Frame) (f : FuncObj)
    (args : List Value) (kwargs : Keywords) :
    Enters heap thread callers f args kwargs (enter heap thread callers f args kwargs) := by
  unfold enter
  dsimp only
  split
  · rename_i hguard
    rw [Bool.and_eq_true, Bool.not_eq_true'] at hguard
    exact .recurs hguard.1 hguard.2
  · rename_i hguard
    -- what the guard lets through is what the later proofs ask for
    have hpass : (heap.programOf f).recursion = true ∨ heap.isActive f callers = false := by
      simpa [-not_and, not_and_or] using hguard
    split
    · rename_i hbind
      exact .unbound hpass hbind
    · rename_i hbind
      split
      · rename_i hbox
        exact .unboxed hpass hbind hbox
      · rename_i hbox
        exact .starts hpass hbind hbox

/-- The frame of a builtin that has done nothing yet. -/
abbrev builtinFrame (r : BuiltinRef) (args : List Value) (kwargs : Keywords) : Frame :=
  .builtin r { args, kwargs }

/-- How running a builtin ends. -/
inductive Runs (heap : Heap) (thread : Thread) (callers : List Frame) (r : BuiltinRef)
    (args : List Value) (kwargs : Keywords) : Machine → Prop where
  | prints {line : String} : heap.printLine args kwargs = .ok line →
      Runs heap thread callers r args kwargs
        (leave heap (thread.print line) (builtinFrame r args kwargs :: callers) .null)
  | fails {e : Error} : e.isOrdinary →
      Runs heap thread callers r args kwargs
        (fail heap thread (builtinFrame r args kwargs :: callers) e)
  /-- A function of the host gets the turn. -/
  | waits : (heap.builtin r).op.isHost = true → Runs heap thread callers r args kwargs
      ⟨heap, thread, builtinFrame r args kwargs :: callers, .host⟩
  | returns {v : Value} {heap' : Heap} :
      Op.callStandard (heap.builtin r) args kwargs heap = .ok v heap' →
      Runs heap thread callers r args kwargs
        (leave heap' thread (builtinFrame r args kwargs :: callers) v)
  | stops {e : Stop} {heap' : Heap} :
      Op.callStandard (heap.builtin r) args kwargs heap = .error e heap' →
      Runs heap thread callers r args kwargs
        (stop heap' thread (builtinFrame r args kwargs :: callers) e)

theorem runs_runBuiltin (heap : Heap) (thread : Thread) (callers : List Frame) (r : BuiltinRef)
    (args : List Value) (kwargs : Keywords) :
    Runs heap thread callers r args kwargs (runBuiltin heap thread callers r args kwargs) := by
  unfold runBuiltin
  dsimp only
  split
  · cases hline : heap.printLine args kwargs with
    | ok line => exact .prints hline
    | error e => exact .fails (heap.blameless_printLine args kwargs e hline)
  · rename_i hop
    refine .waits ?_
    rw [hop]
    rfl
  · cases hrun : Op.callStandard (heap.builtin r) args kwargs heap with
    | ok v heap' => exact .returns hrun
    | error e heap' => exact .stops hrun

/-- How a call of a value starts. -/
inductive Invokes (heap : Heap) (thread : Thread) (frames : List Frame) (f : Value)
    (args : List Value) (kwargs : Keywords) : Machine → Prop where
  | full : thread.maxDepth ≤ frames.length → Invokes heap thread frames f args kwargs
      ⟨heap, thread, frames, .deliver (.error (.callDepth thread.maxDepth))⟩
  | uncallable : (∀ r g, f = .func r → heap.funcs[r.index]? ≠ some g) → (∀ r, f ≠ .builtin r) →
      Invokes heap thread frames f args kwargs
        ⟨heap, thread, frames, .deliver (.error (.fault (.notCallable f.kind)))⟩
  | enters {r : FuncRef} {g : FuncObj} {m : Machine} : f = .func r →
      frames.length < thread.maxDepth → heap.funcs[r.index]? = some g →
      Enters heap thread frames g args kwargs m → Invokes heap thread frames f args kwargs m
  | runs {r : BuiltinRef} {m : Machine} : f = .builtin r → frames.length < thread.maxDepth →
      Runs heap thread frames r args kwargs m → Invokes heap thread frames f args kwargs m

theorem invokes_invoke (heap : Heap) (thread : Thread) (frames : List Frame) (f : Value)
    (args : List Value) (kwargs : Keywords) :
    Invokes heap thread frames f args kwargs (invoke heap thread frames f args kwargs) := by
  unfold invoke
  split
  · rename_i r
    split
    · rename_i hfull
      exact .full hfull
    · rename_i hroom
      split
      · rename_i g hg
        exact .enters rfl (Nat.lt_of_not_le hroom) hg
            (enters_enter heap thread frames g args kwargs)
      · rename_i hnone
        refine .uncallable ?_ nofun
        rintro _ g ⟨⟩ hg
        exact absurd (hnone.symm.trans hg) nofun
  · split
    · rename_i hfull
      exact .full hfull
    · rename_i r hroom
      exact .runs rfl (Nat.lt_of_not_le hroom) (runs_runBuiltin heap thread frames r args kwargs)
  -- neither a function nor a built-in
  · rename_i hfunc hbuiltin
    exact .uncallable (fun r _ hf => absurd hf (hfunc r)) hbuiltin

/-! ## Loading -/

/-- How the names on the stack of the innermost function are replaced. -/
inductive Binds (heap : Heap) (thread : Thread) (a : Activation) (callers : List Frame)
    (name : String) (count : Nat) (members : Env) : Machine → Prop where
  | binds {st : List Value} {heap' : Heap} :
      Op.replaceNames members name count a.stack heap = .ok st heap' →
      Binds heap thread a callers name count members
        ⟨heap', thread, .func { a with stack := st } .call :: callers, .exec⟩
  | stops {e : Stop} {heap' : Heap} :
      Op.replaceNames members name count a.stack heap = .error e heap' →
      Binds heap thread a callers name count members
        (stop heap' thread (.func a .call :: callers) e)

theorem binds_bindMembers (heap : Heap) (thread : Thread) (a : Activation) (callers : List Frame)
    (name : String) (count : Nat) (members : Env) :
    Binds heap thread a callers name count members
      (bindMembers heap thread a callers name count members) := by
  unfold bindMembers
  split
  · rename_i hrun
    exact .binds hrun
  · rename_i hrun
    exact .stops hrun

/-- How the loading of a module starts. -/
inductive Loads (heap : Heap) (thread : Thread) (a : Activation) (callers : List Frame)
    (name : String) (count : Nat) : Machine → Prop where
  /-- There is no such module, or no loader. -/
  | unavailable {e : Error} : thread.source? name = .error e → e.isOrdinary →
      Loads heap thread a callers name count
        (fail heap thread (.func a .call :: callers) (.load name e))
  | failure {message : String} : thread.source? name = .ok (.failure message) →
      Loads heap thread a callers name count
        (fail heap thread (.func a .call :: callers) (.load name (.fault (.host message))))
  | members {members : Env} {m : Machine} : thread.source? name = .ok (.members members) →
      Binds heap thread a callers name count members m → Loads heap thread a callers name count m
  | program {p : ProgramRef} {predeclared : Env} :
      thread.source? name = .ok (.program p predeclared) →
      Loads heap thread a callers name count
        (let (module, heap) := heap.newModule p predeclared
        let (toplevel, heap) := heap.newFunc ⟨module, .toplevel, #[], #[]⟩
        ⟨heap, thread, .func a (.load name count module) :: callers, .invoke toplevel [] []⟩)

theorem isOrdinary_source? {thread : Thread} {name : String} {e : Error}
    (h : thread.source? name = .error e) :
    e.isOrdinary := by
  unfold Thread.source? at h
  split at h
  · cases h
    rfl
  · split at h
    · cases h
    · cases h
      rfl

theorem loads_load (heap : Heap) (thread : Thread) (a : Activation) (callers : List Frame)
    (name : String) (count : Nat) :
    Loads heap thread a callers name count (load heap thread a callers name count) := by
  unfold load
  split
  · rename_i hsource
    exact .unavailable hsource (isOrdinary_source? hsource)
  · rename_i hsource
    exact .failure hsource
  · rename_i members hsource
    exact .members hsource (binds_bindMembers heap thread a callers name count members)
  · rename_i hsource
    exact .program hsource

/-! ## Outcomes -/

/-- How the outcome of a call is handed to the innermost call. -/
inductive Delivers (heap : Heap) (thread : Thread) : List Frame → Except Error Value →
    Machine → Prop where
  | halts {r : Except Error Value} : Delivers heap thread [] r ⟨heap, thread, [], .finished r⟩
  | pushes {a : Activation} {callers : List Frame} {v : Value} :
      Delivers heap thread (.func a .call :: callers) (.ok v)
        ⟨heap, thread, .func { a with stack := v :: a.stack } .call :: callers, .exec⟩
  | fails {a : Activation} {callers : List Frame} {e : Error} :
      Delivers heap thread (.func a .call :: callers) (.error e)
        (fail heap thread (.func a .call :: callers) e)
  /-- The program of a module has ended. -/
  | loaded {a : Activation} {callers : List Frame} {name : String} {count : Nat}
      {module : ModuleRef}
      {v : Value} {m : Machine} :
      Binds (heap.freezeModule module) thread a callers name count
        ((heap.freezeModule module).moduleGlobals module) m →
      Delivers heap thread (.func a (.load name count module) :: callers) (.ok v) m
  | unloaded {a : Activation} {callers : List Frame} {name : String} {count : Nat}
      {module : ModuleRef}
      {e : Error} :
      Delivers heap thread (.func a (.load name count module) :: callers) (.error e)
        (fail (heap.freezeModule module) thread (.func a .call :: callers) (.load name e))
  /-- A function of the host gets the turn with the outcome. -/
  | answers {b : BuiltinRef} {run : HostRun} {callers : List Frame} {r : Except Error Value} :
      Delivers heap thread (.builtin b run :: callers) r
        ⟨heap, thread, .builtin b (run.note r) :: callers, .host⟩

theorem delivers_deliver (heap : Heap) (thread : Thread) (frames : List Frame)
    (r : Except Error Value) :
    Delivers heap thread frames r (deliver heap thread frames r) := by
  cases frames with
  | nil => exact .halts
  | cons frame callers =>
    cases frame with
    | builtin b run => exact .answers
    | func a pending =>
      cases pending with
      | call =>
        cases r with
        | ok v => exact .pushes
        | error e => exact .fails
      | load name count module =>
        cases r with
        | ok v => exact .loaded (binds_bindMembers _ thread a callers name count _)
        | error e => exact .unloaded

/-! ## Instructions -/

/-- The innermost function has executed an instruction, with a result. -/
structure Executed (heap : Heap) (thread : Thread) (a : Activation) (f : Fetched)
    (result : EStateM.Result Stop Heap Effect) : Prop where
  live : thread.tick.cancelled = none
  fetch : fetch (heap.codeOf a.func).code a.next = .ok f
  result_eq : Activation.execute (heap.tables a.func) f.op (f.arg.getD 0)
    { a with pc := a.next, next := f.next } heap = result

/-- How the execution of an instruction ends. -/
inductive Executes (heap : Heap) (thread : Thread) (a : Activation) (callers : List Frame) :
    Machine → Prop where
  | cancelled {reason : String} : thread.tick.cancelled = some reason →
      Executes heap thread a callers
        (fail heap thread.tick (.func a .call :: callers) (.cancelled reason))
  | unread {e : FetchError} : thread.tick.cancelled = none →
      fetch (heap.codeOf a.func).code a.next = .error e →
      Executes heap thread a callers
        (fail heap thread.tick (.func { a with pc := a.next } .call :: callers)
          (.fault (.code (.fetch e))))
  | stops {f : Fetched} {e : Stop} {heap' : Heap} : Executed heap thread a f (.error e heap') →
      Executes heap thread a callers
        (stop heap' thread.tick (.func { a with pc := a.next } .call :: callers) e)
  | proceeds {f : Fetched} {b : Activation} {heap' : Heap} :
      Executed heap thread a f (.ok (.proceed b) heap') →
      Executes heap thread a callers ⟨heap', thread.tick, .func b .call :: callers, .exec⟩
  | finishes {f : Fetched} {v : Value} {heap' : Heap} :
      Executed heap thread a f (.ok (.finish v) heap') →
      Executes heap thread a callers
        (leave heap' thread.tick (.func { a with pc := a.next } .call :: callers) v)
  | calls {f : Fetched} {b : Activation} {g : Value} {args : List Value} {kwargs : Keywords}
      {heap' : Heap} : Executed heap thread a f (.ok (.call b g args kwargs) heap') →
      Executes heap thread a callers
        ⟨heap', thread.tick, .func b .call :: callers, .invoke g args kwargs⟩
  | loads {f : Fetched} {b : Activation} {name : String} {count : Nat} {heap' : Heap}
      {m : Machine} :
      Executed heap thread a f (.ok (.load b name count) heap') →
      Loads heap' thread.tick b callers name count m → Executes heap thread a callers m

theorem executes_exec (heap : Heap) (thread : Thread) (a : Activation) (callers : List Frame) :
    Executes heap thread a callers (exec heap thread a callers) := by
  unfold exec
  dsimp only
  -- cancelled, unreadable, and then one way for each effect of the instruction
  split
  · rename_i hcancelled
    exact .cancelled hcancelled
  · rename_i hlive
    split
    · rename_i hfetch
      exact .unread hlive hfetch
    · rename_i hfetch
      split
      · rename_i hrun
        exact .stops ⟨hlive, hfetch, hrun⟩
      · rename_i hrun
        exact .proceeds ⟨hlive, hfetch, hrun⟩
      · rename_i hrun
        exact .finishes ⟨hlive, hfetch, hrun⟩
      · rename_i hrun
        exact .calls ⟨hlive, hfetch, hrun⟩
      · rename_i b name count heap' hrun
        exact .loads ⟨hlive, hfetch, hrun⟩ (loads_load heap' thread.tick b callers name count)

/-! ## Functions of the host -/

/-- The function of the host that is the innermost call makes a move. -/
abbrev Moves (heap : Heap) (thread : Thread) (callers : List Frame) (r : BuiltinRef) (run : HostRun)
    (move : HostMove) : Prop :=
  thread.move heap (heap.callStack (.builtin r run :: callers)) (heap.builtin r) run = move

/-- A function of the host has the turn, and this is its move. -/
def Chooses (m : Machine) (move : HostMove) : Prop :=
  m.control = .host ∧ ∃ r run callers, m.frames = .builtin r run :: callers ∧
    Moves m.heap m.thread callers r run move

/-- How the turn of a function of the host ends. -/
inductive Hosts (heap : Heap) (thread : Thread) (callers : List Frame) (r : BuiltinRef)
    (run : HostRun) :
    Machine → Prop where
  | acts {a : HostAct} {v : Value} {heap' : Heap} {held : List Iter} :
      Moves heap thread callers r run (.act a) → a.perform (heap, run.held) = .ok v (heap', held) →
      Hosts heap thread callers r run ⟨heap', thread.takeTurn,
        .builtin r ({ run with held }.note (.ok v)) :: callers, .host⟩
  /-- An act fails, and the function goes on with the error. -/
  | errs {a : HostAct} {e : Error} {heap' : Heap} {held : List Iter} :
      Moves heap thread callers r run (.act a) →
      a.perform (heap, run.held) = .error (.error e) (heap', held) →
      Hosts heap thread callers r run ⟨heap', thread.takeTurn,
        .builtin r ({ run with held }.note (.error e)) :: callers, .host⟩
  | aborts {a : HostAct} {x : Abort} {heap' : Heap} {held : List Iter} :
      Moves heap thread callers r run (.act a) →
      a.perform (heap, run.held) = .error (.abort x) (heap', held) →
      Hosts heap thread callers r run ⟨heap', thread.takeTurn,
        .builtin r { run with held } :: callers, .aborted x⟩
  | steers {s : Steering} : Moves heap thread callers r run (.steer s) →
      Hosts heap thread callers r run ⟨heap, thread.takeTurn.steer heap s,
        .builtin r (run.note (.ok .null)) :: callers, .host⟩
  | calls {f : Value} {args : List Value} {kwargs : Keywords} :
      Moves heap thread callers r run (.call f args kwargs) →
      Hosts heap thread callers r run
        ⟨heap, thread.takeTurn, .builtin r run :: callers, .invoke f args kwargs⟩
  | finishes {o : Except Error Value} : Moves heap thread callers r run (.finish o) →
      Hosts heap thread callers r run (finish heap thread.takeTurn (.builtin r run :: callers) o)

theorem hosts_host (heap : Heap) (thread : Thread) (r : BuiltinRef) (run : HostRun)
    (callers : List Frame) : Hosts heap thread callers r run (host heap thread r run callers) := by
  unfold host
  dsimp only
  unfold Thread.letMove
  cases hmove : thread.move heap (heap.callStack (.builtin r run :: callers))
      (heap.builtin r) run with
  | act a =>
    dsimp only
    cases hrun : a.perform (heap, run.held) with
    | ok v s => exact .acts hmove hrun
    | error e s =>
      cases e with
      | error e => exact .errs hmove hrun
      | abort x => exact .aborts hmove hrun
  | steer s => exact .steers hmove
  | call f args kwargs => exact .calls hmove
  | finish o => exact .finishes hmove

/-! ## Steps -/

/-- What a step does. -/
inductive Steps : Machine → Machine → Prop where
  | executes {heap : Heap} {thread : Thread} {a : Activation} {pending : Pending}
      {callers : List Frame} {m : Machine} : Executes heap thread a callers m →
      Steps ⟨heap, thread, .func a pending :: callers, .exec⟩ m
  | hosts {heap : Heap} {thread : Thread} {r : BuiltinRef} {run : HostRun} {callers : List Frame}
      {m : Machine} : Hosts heap thread callers r run m →
      Steps ⟨heap, thread, .builtin r run :: callers, .host⟩ m
  /-- No function is the innermost call. -/
  | idles {heap : Heap} {thread : Thread} {frames : List Frame} :
      (∀ a pending callers, frames ≠ .func a pending :: callers) →
      Steps ⟨heap, thread, frames, .exec⟩ ⟨heap, thread, frames, .finished (.ok .null)⟩
  /-- No builtin is the innermost call. -/
  | rests {heap : Heap} {thread : Thread} {frames : List Frame} :
      (∀ r run callers, frames ≠ .builtin r run :: callers) →
      Steps ⟨heap, thread, frames, .host⟩ ⟨heap, thread, frames, .finished (.ok .null)⟩
  | invokes {heap : Heap} {thread : Thread} {frames : List Frame} {f : Value} {args : List Value}
      {kwargs : Keywords} {m : Machine} : Invokes heap thread frames f args kwargs m →
      Steps ⟨heap, thread, frames, .invoke f args kwargs⟩ m
  | delivers {heap : Heap} {thread : Thread} {frames : List Frame} {r : Except Error Value}
      {m : Machine} : Delivers heap thread frames r m → Steps ⟨heap, thread, frames, .deliver r⟩ m
  | done {m : Machine} : m.isDone → Steps m m

theorem steps_step (m : Machine) : m.Steps m.step := by
  obtain ⟨heap, thread, frames, control⟩ := m
  -- a control without the frame it needs rests
  cases control with
  | exec =>
    cases frames with
    | nil => exact .idles fun _ _ _ => nofun
    | cons frame callers =>
      cases frame with
      | builtin r run => exact .idles fun _ _ _ => nofun
      | func a pending => exact .executes (executes_exec heap thread a callers)
  | invoke f args kwargs => exact .invokes (invokes_invoke heap thread frames f args kwargs)
  | host =>
    cases frames with
    | nil => exact .rests fun _ _ _ => nofun
    | cons frame callers =>
      cases frame with
      | builtin r run => exact .hosts (hosts_host heap thread r run callers)
      | func a pending => exact .rests fun _ _ _ => nofun
  | deliver r => exact .delivers (delivers_deliver heap thread frames r)
  | finished r => exact .done rfl
  | aborted x => exact .done rfl

/-- A call of what can be called is refused if there is no room. -/
theorem step_of_full {m : Machine} {f : Value} {args : List Value} {kwargs : Keywords}
    (hcall : m.control = .invoke f args kwargs) (hf : (∃ r, f = .func r) ∨ ∃ r, f = .builtin r)
    (hfull : m.thread.maxDepth ≤ m.frames.length) :
    m.step = ⟨m.heap, m.thread, m.frames, .deliver (.error (.callDepth m.thread.maxDepth))⟩ := by
  obtain ⟨heap, thread, frames, control⟩ := m
  cases hcall
  rcases hf with ⟨r, rfl⟩ | ⟨r, rfl⟩
  · exact if_pos hfull
  · exact if_pos hfull

/-- A call of a function enters it if there is room. -/
theorem step_of_room {m : Machine} {r : FuncRef} {args : List Value} {kwargs : Keywords}
    {f : FuncObj}
    (hcall : m.control = .invoke (.func r) args kwargs) (hf : m.heap.funcs[r.index]? = some f)
    (hroom : m.frames.length < m.thread.maxDepth) : m.step = enter m.heap m.thread m.frames f args
    kwargs := by
  obtain ⟨heap, thread, frames, control⟩ := m
  cases hcall
  simp only [step, invoke, if_neg (Nat.not_le.2 hroom), hf]

end Machine

end Starlark
