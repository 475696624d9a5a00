import Starlark.Proofs.Machine.Limits
import Starlark.Proofs.Machine.Recursion

/-!
# Where errors come from

An error that leaves a call gets the calls that are active at that moment, and the calls around it
pass it on as it is: a function at once, and a function of the host when it returns what it got
(`HostCode.IsHonest`). `Machine.Routes` says what a step of a thread without modules does to the
calls, with the errors that it raises and passes on. A function that waits has stopped at the
instruction that made its call (`Machine.Calling`), so that the call stack of an error has the
position of each call (`Machine.error_wrapped_once`).
-/

set_option autoImplicit false

namespace Starlark

/-- Two frames belong to the same call. -/
def Frame.SameCall : Frame → Frame → Prop
  | .func a _, .func b _ => a.func = b.func
  | .builtin r _, .builtin s _ => r = s
  | _, _ => False

theorem Frame.SameCall.refl (frame : Frame) : frame.SameCall frame := by
  cases frame <;> exact rfl

/-- An error that has left a call is not wrapped again. -/
theorem Error.wrap_of_isWrapped {e : Error} (h : e.isWrapped) (stack : CallStack) :
    e.wrap stack = e := by
  cases e with
  | eval s cause => rfl
  | _ => cases h

/-- An error that has left no call is wrapped with the call stack. -/
theorem Error.wrap_of_plain {e : Error} (h : e.isWrapped = false) (stack : CallStack) :
    e.wrap stack = .eval stack e := by
  cases e with
  | eval s cause => cases h
  | _ => rfl

/-! ## What is told of a call -/

/-- What is told of an active call: of a function its name, the file of its program and the position
that it has reached, and of a builtin its name. -/
def Frame.Tells (h : Heap) : Frame → CallFrame → Prop
  | .func a _, c => c.name = (h.codeOf a.func).name ∧ c.file = (h.programOf a.func).filename ∧
      c.pos = (h.codeOf a.func).position a.pc
  | .builtin r _, c => c.name = (h.builtin r).op.name ∧ c.file = "<builtin>" ∧ c.pos = .absent

/-- What the heap tells of a frame is what is to be told. -/
theorem Frame.tells_callFrame (h : Heap) (frame : Frame) : frame.Tells h (h.callFrame frame) := by
  cases frame with
  | func a pending => exact ⟨rfl, rfl, rfl⟩
  | builtin r run => exact ⟨rfl, rfl, rfl⟩

theorem Heap.callFrame_closeAll (h : Heap) (its : List Iter) (frame : Frame) :
    (its.foldl closeIter h).callFrame frame = h.callFrame frame := by
  have hone : ∀ (h : Heap) (it : Iter), (h.closeIter it).callFrame frame = h.callFrame frame := by
    intro h it
    cases it <;> cases frame <;> rfl
  induction its generalizing h with
  | nil => rfl
  | cons it its ih => exact (ih (h.closeIter it)).trans (hone h it)

/-- Closing a frame does not change what is told of the others. -/
theorem Heap.callFrame_closeFrame (h : Heap) (top frame : Frame) :
    (h.closeFrame top).callFrame frame = h.callFrame frame := by
  cases top with
  | func a pending => exact h.callFrame_closeAll a.iters frame
  | builtin r run => exact h.callFrame_closeAll run.held frame

/-- The call stack tells of the active calls, the outermost first. The iterators of a call that ends
are closed meanwhile. -/
theorem Heap.tells_callStack (h : Heap) (top : Frame) (frames : List Frame) :
    List.Forall₂ (Frame.Tells (h.closeFrame top)) frames.reverse (h.callStack frames) := by
  rw [callStack, List.forall₂_reverse_iff, List.forall₂_map_right_iff, List.forall₂_same]
  intro frame _
  rw [← h.callFrame_closeFrame top frame]
  exact frame.tells_callFrame (h.closeFrame top)

/-! ## Honest hosts -/

/-- A function of the host fails with an error of its own, which has left no call, or with one that
came of its moves, and it sets no loader. -/
def HostMove.IsHonest (log : List (Except Error Value)) : HostMove → Prop
  | .finish (.error e) => e.isWrapped = false ∨ .error e ∈ log
  | .steer (.setLoader loader) => loader = none
  | _ => True

/-- A function of the host is honest whenever it has the turn. -/
def HostCode.IsHonest (code : HostCode) : Prop := ∀ v, (code v).IsHonest v.log

/-- All functions of the host are honest. -/
def Thread.IsHonest (t : Thread) : Prop := ∀ i, (t.host i).IsHonest

/-- Functions of an honest host make an honest move each time. -/
theorem Thread.IsHonest.move {t : Thread} (ht : t.IsHonest) (h : Heap) (stack : CallStack)
    (b : BuiltinObj) (run : HostRun) : (t.move h stack b run).IsHonest run.log := by
  unfold Thread.move
  split
  · rename_i code _
    exact ht code (t.view h stack b.receiver run)
  · trivial

/-- An honest host sets no loader. -/
theorem Thread.IsHonest.loader_eq_none {m : Machine} (ht : m.thread.IsHonest)
    {loader : Option (List (String × ModuleSource))}
    (hmove : m.Chooses (.steer (.setLoader loader))) : loader = none := by
  obtain ⟨-, r, run, callers, -, hmove⟩ := hmove
  have hhonest := ht.move m.heap (m.heap.callStack (.builtin r run :: callers))
      (m.heap.builtin r) run
  rw [hmove] at hhonest
  exact hhonest

/-- The functions of the small host are honest. -/
theorem HostCode.isHonest_ofLibrary (i : Nat) : (ofLibrary i).IsHonest := by
  intro v
  have hsmall := isSmall_ofLibrary i v
  generalize ofLibrary i v = move at hsmall ⊢
  cases hsmall with
  | cancels | freezes | calls | gives => trivial
  | fails message => exact .inl rfl
  | @handsOn r hr =>
    cases r with
    | ok x => trivial
    | error e => exact .inr hr
  | @catches r hr =>
    cases r with
    | ok x => trivial
    | error e => trivial

namespace Machine

/-! ## What a step can do to calls and errors -/

/-- A call of the value is a call with the given frame. -/
def Opens (m : Machine) (f : Value) : Frame → Prop
  | .func a _ => ∃ r, f = .func r ∧ m.heap.funcs[r.index]? = some a.func
  | .builtin r _ => f = .builtin r

/-- The next step is the last of a call above the given ones: of the innermost, or of one that the
step itself makes. -/
inductive Ends (m : Machine) (top : Frame) (callers : List Frame) : Prop where
  | active {frame : Frame} (hcontrol : ∀ f args kwargs, m.control ≠ .invoke f args kwargs)
      (hframes : m.frames = frame :: callers) (hsame : frame.SameCall top) : Ends m top callers
  | pushed {f : Value} {args : List Value} {kwargs : Keywords}
      (hcontrol : m.control = .invoke f args kwargs) (hframes : m.frames = callers)
      (hroom : callers.length < m.thread.maxDepth) (hopens : m.Opens f top) : Ends m top callers

/-- What a step does to calls and errors in a thread that cannot load. -/
inductive Routes (m : Machine) : Machine → Prop where
  /-- Nothing is left to do. -/
  | halts {m' : Machine} (hdone : m'.isDone) : Routes m m'
  /-- The innermost function goes on. -/
  | goes {a b : Activation} {callers : List Frame} {h : Heap} {t : Thread}
      (hframes : m.frames = .func a .call :: callers) :
      Routes m ⟨h, t, .func b .call :: callers, .exec⟩
  /-- The innermost function calls. -/
  | calls {a b : Activation} {callers : List Frame} {h : Heap} {t : Thread} {f : Value}
      {args : List Value} {kwargs : Keywords} (hcontrol : m.control = .exec)
      (hframes : m.frames = .func a .call :: callers) (hfunc : b.func = a.func)
      (hpc : b.pc = a.next) :
      Routes m ⟨h, t, .func b .call :: callers, .invoke f args kwargs⟩
  /-- A function starts. -/
  | starts {a : Activation} {h : Heap} {t : Thread} {f : Value} {args : List Value}
      {kwargs : Keywords}
      (hcontrol : m.control = .invoke f args kwargs) :
      Routes m ⟨h, t, .func a .call :: m.frames, .exec⟩
  /-- A function of the host starts. -/
  | waits {r : BuiltinRef} {run : HostRun} {h : Heap} {t : Thread} {f : Value} {args : List Value}
      {kwargs : Keywords} (hcontrol : m.control = .invoke f args kwargs) (hlog : run.log = []) :
      Routes m ⟨h, t, .builtin r run :: m.frames, .host⟩
  /-- A function of the host gets the outcome of a call. -/
  | answers {r : BuiltinRef} {run : HostRun} {callers : List Frame} {o : Except Error Value}
      (hcontrol : m.control = .deliver o) (hframes : m.frames = .builtin r run :: callers) :
      Routes m ⟨m.heap, m.thread, .builtin r (run.note o) :: callers, .host⟩
  /-- A function of the host has its turn and stays active; what comes of it has left no call. -/
  | acts {r : BuiltinRef} {run run' : HostRun} {callers : List Frame} {h : Heap} {t : Thread}
      {c : Control} (hcontrol : m.control = .host) (hframes : m.frames = .builtin r run :: callers)
      (hlog : ∀ e, .error e ∈ run'.log → e.isWrapped → .error e ∈ run.log)
      (hc : c = .host ∨ ∃ f args kwargs, c = .invoke f args kwargs) :
      Routes m ⟨h, t, .builtin r run' :: callers, c⟩
  /-- A call ends with a value. -/
  | returns {top : Frame} {callers : List Frame} {h : Heap} {t : Thread} {v : Value}
      (hends : m.Ends top callers) : Routes m ⟨h, t, callers, .deliver (.ok v)⟩
  /-- A call is refused before it has a frame. -/
  | refuses {f : Value} {args : List Value} {kwargs : Keywords} {e : Error}
      (hcontrol : m.control = .invoke f args kwargs)
      (hrefused : m.thread.maxDepth ≤ m.frames.length ∨ ∀ frame, ¬ m.Opens f frame)
      (hplain : e.isWrapped = false) : Routes m ⟨m.heap, m.thread, m.frames, .deliver (.error e)⟩
  /-- A call fails. -/
  | fails {top : Frame} {callers : List Frame} {h : Heap} {t : Thread} {cause : Error}
      (hends : m.Ends top callers) (hplain : cause.isWrapped = false) :
      Routes m (fail h t (top :: callers) cause)
  /-- A function passes on an error from further in. -/
  | passes {a : Activation} {callers : List Frame} {h : Heap} {t : Thread} {e : Error}
      (hcontrol : m.control = .deliver (.error e)) (hwrapped : e.isWrapped)
      (hframes : m.frames = .func a .call :: callers) :
      Routes m ⟨h, t, callers, .deliver (.error e)⟩
  /-- A function of the host returns an error that it got from a call. -/
  | rethrows {r : BuiltinRef} {run : HostRun} {callers : List Frame} {h : Heap} {t : Thread}
      {e : Error}
      (hcontrol : m.control = .host) (hframes : m.frames = .builtin r run :: callers)
      (hwrapped : e.isWrapped) (hlog : .error e ∈ run.log) :
      Routes m ⟨h, t, callers, .deliver (.error e)⟩

section Functions

variable {heap h : Heap} {thread : Thread} {frames callers : List Frame} {a : Activation}

/-- A call that is left routes its value to the caller. -/
theorem routes_leave {m : Machine} {top : Frame} (hends : m.Ends top callers) (v : Value) :
    m.Routes (leave h thread (top :: callers) v) :=
  .returns hends

/-- A call that stops by itself raises an error. -/
theorem routes_stop {m : Machine} {top : Frame} (hends : m.Ends top callers) {e : Stop}
    (he : e.isWrapped = false) : m.Routes (stop h thread (top :: callers) e) := by
  cases e with
  | error e => exact .fails hends he
  | abort x => exact .halts rfl

/-- The error of a call reaches the function that made the call. -/
theorem routes_passOn {m : Machine} {e : Error} (hcontrol : m.control = .deliver (.error e))
    (hframes : m.frames = .func a .call :: callers) :
    m.Routes (fail h thread (.func a .call :: callers) e) := by
  cases hwrapped : e.isWrapped with
  | false =>
    refine .fails (.active ?_ hframes (.refl _)) hwrapped
    rw [hcontrol]
    exact nofun
  | true =>
    rw [fail, Error.wrap_of_isWrapped hwrapped]
    exact .passes hcontrol hwrapped hframes

/-- A thread without loader cannot load, so the function fails by itself. -/
theorem Loads.routes {m m' : Machine} {b : Activation} {name : String} {count : Nat}
    (h : Loads heap thread b callers name count m') (hends : m.Ends (.func b .call) callers)
    (hloader : thread.loader = none) : m.Routes m' := by
  have hsource : thread.source? name = .error (.fault .noLoader) := by
    rw [Thread.source?, hloader]
  cases h with
  | unavailable | failure => exact .fails hends rfl
  | members hs => cases hsource.symm.trans hs
  | program hs => cases hsource.symm.trans hs

/-- An instruction goes on, calls, leaves the function, or fails by itself. -/
theorem Executes.routes {m : Machine} (h : Executes heap thread a callers m)
    (hloader : thread.loader = none) :
    Routes ⟨heap, thread, .func a .call :: callers, .exec⟩ m := by
  -- wherever the function then stands, the call that ends is this one
  have hends : ∀ b : Activation, b.func = a.func →
      Ends ⟨heap, thread, .func a .call :: callers, .exec⟩ (.func b .call) callers :=
    fun b hb => .active nofun rfl hb.symm
  have hshifts : ∀ {f : Fetched} {result : EStateM.Result Stop Heap Effect},
      Executed heap thread a f result → _ := fun hdone =>
    hdone.shifts (m := ⟨heap, thread, .func a .call :: callers, .exec⟩) rfl rfl
  cases h with
  | cancelled => exact .fails (hends a rfl) rfl
  | unread => exact .fails (hends _ rfl) rfl
  | stops hdone => exact routes_stop (hends { a with pc := a.next } rfl) (hshifts hdone).2.2
  | proceeds => exact .goes rfl
  | finishes => exact routes_leave (hends { a with pc := a.next } rfl) _
  | calls hdone =>
    obtain ⟨-, ⟨hfunc, -, hpc⟩, -⟩ := hshifts hdone
    exact .calls rfl rfl hfunc hpc
  | loads hdone h =>
    obtain ⟨-, ⟨hfunc, -, -⟩, -⟩ := hshifts hdone
    exact h.routes (hends _ hfunc) (thread.persists_tick.loader.trans hloader)

/-- Entering a function starts it, or fails in it. -/
theorem Enters.routes {f : Value} {r : FuncRef} {g : FuncObj} {args : List Value}
    {kwargs : Keywords}
    {m : Machine} (h : Enters heap thread frames g args kwargs m) (hf : f = .func r)
    (hg : heap.funcs[r.index]? = some g) (hroom : frames.length < thread.maxDepth) :
    Routes ⟨heap, thread, frames, .invoke f args kwargs⟩ m := by
  have hends : Ends ⟨heap, thread, frames, .invoke f args kwargs⟩ (unstarted g) frames :=
    .pushed rfl rfl hroom ⟨r, hf, hg⟩
  cases h with
  | recurs => exact .fails hends rfl
  | @unbound e b _ hbind =>
    refine routes_stop hends ?_
    cases e with
    | abort x => rfl
    | error e =>
      obtain ⟨fault, rfl⟩ := faults_bindArguments _ _ _ _ _ _ _ hbind
      rfl
  | unboxed => exact .halts rfl
  | starts => exact .starts rfl

/-- Running a builtin leaves it, or fails in it. -/
theorem Runs.routes {f : Value} {r : BuiltinRef} {args : List Value} {kwargs : Keywords}
    {m : Machine}
    (h : Runs heap thread frames r args kwargs m) (hf : f = .builtin r)
    (hroom : frames.length < thread.maxDepth) :
    Routes ⟨heap, thread, frames, .invoke f args kwargs⟩ m := by
  have hends : Ends ⟨heap, thread, frames, .invoke f args kwargs⟩
      (builtinFrame r args kwargs) frames :=
    .pushed rfl rfl hroom hf
  cases h with
  | prints | returns => exact routes_leave hends _
  | fails he => exact .fails hends (Error.isWrapped_of_isOrdinary he)
  | waits => exact .waits rfl rfl
  | stops hrun =>
    have hstandard := Op.regular_callStandard (heap.builtin r) args kwargs
    exact routes_stop hends (Stop.isWrapped_of_isOrdinary (hstandard.error hrun).2)

/-- A call is entered, run, or refused without a frame. -/
theorem Invokes.routes {f : Value} {args : List Value} {kwargs : Keywords} {m : Machine}
    (h : Invokes heap thread frames f args kwargs m) :
    Routes ⟨heap, thread, frames, .invoke f args kwargs⟩ m := by
  cases h with
  | full hfull => exact .refuses rfl (.inl hfull) rfl
  | uncallable hfunc hbuiltin =>
    refine .refuses rfl (.inr fun frame hopens => ?_) rfl
    cases frame with
    | builtin r run => exact hbuiltin r hopens
    | func b pending =>
      obtain ⟨s, hs, hsome⟩ := hopens
      exact hfunc s b.func hs hsome
  | enters hf hroom hg h => exact h.routes hf hg hroom
  | runs hf hroom h => exact h.routes hf hroom

/-- An outcome is handed to the caller, which goes on, hands on the error, or notes it. -/
theorem Delivers.routes {r : Except Error Value} {m : Machine} (h : Delivers heap thread frames r m)
    (hpending : ∀ a pending below, frames = .func a pending :: below → pending = .call) :
    Routes ⟨heap, thread, frames, .deliver r⟩ m := by
  cases h with
  | halts => exact .halts rfl
  | pushes => exact .goes rfl
  | fails =>
    cases hpending _ _ _ rfl
    exact routes_passOn rfl rfl
  | answers => exact .answers rfl rfl
  | loaded => cases hpending _ _ _ rfl
  | unloaded => cases hpending _ _ _ rfl

/-- A function of an honest host raises errors of its own, or hands on what it received. -/
theorem Hosts.routes {r : BuiltinRef} {run : HostRun} {m : Machine}
    (h : Hosts heap thread callers r run m) (hhonest : thread.IsHonest) :
    Routes ⟨heap, thread, .builtin r run :: callers, .host⟩ m := by
  have hmove := hhonest.move heap (heap.callStack (.builtin r run :: callers)) (heap.builtin r) run
  have hends : Ends ⟨heap, thread, .builtin r run :: callers, .host⟩ (.builtin r run) callers :=
    .active nofun rfl (.refl _)
  cases h with
  | acts =>
    refine .acts rfl rfl (fun e he _ => ?_) (.inl rfl)
    rcases List.mem_cons.1 he with heq | he
    · cases heq
    · exact he
  | errs _ hrun =>
    refine .acts rfl rfl (fun e he hwrapped => ?_) (.inl rfl)
    rcases List.mem_cons.1 he with heq | he
    · cases heq
      have hplain := Error.isWrapped_of_isOrdinary (HostAct.performs_of_error hrun).2
      exact absurd (hplain.symm.trans hwrapped) Bool.false_ne_true
    · exact he
  | aborts => exact .halts rfl
  | steers =>
    refine .acts rfl rfl (fun e he _ => ?_) (.inl rfl)
    rcases List.mem_cons.1 he with heq | he
    · cases heq
    · exact he
  | calls => exact .acts rfl rfl (fun _ he _ => he) (.inr ⟨_, _, _, rfl⟩)
  | @finishes o hfinish =>
    rw [hfinish] at hmove
    cases o with
    | ok v => exact routes_leave hends v
    | error e =>
      -- the function's own error is wrapped here; a wrapped one was given to it by a call and goes
      -- on as it is
      cases hwrapped : e.isWrapped with
      | false => exact .fails hends hwrapped
      | true =>
        have hlog : .error e ∈ run.log :=
          hmove.resolve_left fun hplain => Bool.false_ne_true (hplain.symm.trans hwrapped)
        simp only [finish, fail, Error.wrap_of_isWrapped hwrapped]
        exact .rethrows rfl rfl hwrapped hlog

end Functions

/-- Every step of a machine without modules routes what it has to route. -/
theorem routes_step {m : Machine} (hloader : m.thread.loader = none) (hhonest : m.thread.IsHonest)
    (hpending : m.isDone = false → ∀ a pending below, m.frames = .func a pending :: below →
    pending = .call) :
    m.Routes m.step := by
  have hsteps := steps_step m
  generalize m.step = m' at hsteps ⊢
  cases hsteps with
  | @executes _ _ a pending callers _ h =>
    cases hpending rfl a pending callers rfl
    exact h.routes hloader
  | idles => exact .halts rfl
  | hosts h => exact h.routes hhonest
  | rests => exact .halts rfl
  | invokes h => exact h.routes
  | delivers h => exact h.routes (hpending rfl)
  | done hdone => exact .halts hdone

/-- What is assumed of the thread of a run: it loads nothing, and its host is honest. -/
structure IsPlain (m : Machine) : Prop where
  loader : m.thread.loader = none
  honest : m.thread.IsHonest

/-- Nothing in a run gives its thread a loader or another host. -/
theorem IsPlain.run {m : Machine} (hm : m.IsPlain) (n : Nat) : (m.run n).IsPlain := by
  induction n with
  | zero => exact hm
  | succ n ih =>
    rw [run_succ_eq_step]
    refine ⟨?_, fun i => ?_⟩
    · rcases loader_step (m.run n) with hsame | ⟨loader, hmove, hset⟩
      · exact hsame.trans ih.loader
      · exact hset.trans (ih.honest.loader_eq_none hmove)
    · rw [(next_step _).ticks.host]
      exact ih.honest i

/-! ## Functions that wait -/

/-- At time `n` of a run a function with the given callers waits for a call that it made by the
instruction at its `pc`, and has done so since. -/
def Calling (m₀ : Machine) (n : Nat) (a : Activation) (below : List Frame) : Prop :=
  ∃ t < n, ∃ b, (m₀.run t).control = .exec ∧ (m₀.run t).frames = .func b .call :: below ∧
    b.func = a.func ∧ b.next = a.pc ∧
    (∃ f args kwargs, (m₀.run (t + 1)).control = .invoke f args kwargs) ∧
    (m₀.run (t + 1)).frames = .func a .call :: below ∧
    ∀ i, t < i → i ≤ n → .func a .call :: below <:+ (m₀.run i).frames

/-- A function that waits stays at the instruction that made its call. -/
theorem Calling.succ {m₀ : Machine} {n : Nat} {a : Activation} {below : List Frame}
    (hc : m₀.Calling n a below) (hnext : .func a .call :: below <:+ (m₀.run (n + 1)).frames) :
    m₀.Calling (n + 1) a below := by
  obtain ⟨t, ht, b, hexec, hframes, hfunc, hpc, hinvoke, hmade, hsince⟩ := hc
  refine ⟨t, Nat.lt_succ_of_lt ht, b, hexec, hframes, hfunc, hpc, hinvoke, hmade,
      fun i hti hin => ?_⟩
  rcases Nat.lt_succ_iff_lt_or_eq.1 (Nat.lt_succ_of_le hin) with hlt | rfl
  · exact hsince i hti (Nat.le_of_lt_succ hlt)
  · exact hnext

/-- The functions that wait: all of them when something is called or handed over, and otherwise all
but the innermost. -/
def waiting (m : Machine) : List Frame :=
  match m.control with
  | .exec => m.frames.tail
  | _ => m.frames

theorem waiting_suffix (m : Machine) : m.waiting <:+ m.frames := by
  unfold waiting
  split
  · exact List.tail_suffix _
  · exact List.suffix_refl _

/-- Where a value is called, all active functions wait. -/
theorem waiting_of_invoke {m : Machine} {f : Value} {args : List Value} {kwargs : Keywords}
    (hm : m.control = .invoke f args kwargs) : m.waiting = m.frames := by
  rw [waiting, hm]

/-- Whatever happens, the callers of the innermost call wait. -/
theorem waiting_of_frames {m : Machine} {frame : Frame} {callers : List Frame}
    (hm : m.frames = frame :: callers) : callers <:+ m.waiting := by
  unfold waiting
  rw [hm]
  split
  · exact List.suffix_refl _
  · exact List.suffix_cons _ _

/-- A call that ends leaves its callers waiting. -/
theorem Ends.suffix {m : Machine} {top : Frame} {callers : List Frame} (he : m.Ends top callers) :
    callers <:+ m.waiting := by
  cases he with
  | active _ hframes _ => exact waiting_of_frames hframes
  | pushed hcontrol hframes _ _ =>
    have hwaits : m.waiting = m.frames := waiting_of_invoke hcontrol
    exact (hwaits.trans hframes) ▸ List.suffix_refl _

/-- A step makes no function wait, but for one that calls. -/
theorem Routes.waiting_cases {m m' : Machine} (hm : m.Routes m') (hlive : m'.isDone = false)
    {a : Activation} {pending : Pending} {below : List Frame}
    (hwaits : .func a pending :: below <:+ m'.waiting) :
    .func a pending :: below <:+ m.waiting ∨
    ∃ b, m.control = .exec ∧ m.frames = .func b .call :: below ∧ b.func = a.func ∧ b.next = a.pc ∧
      (∃ f args kwargs, m'.control = .invoke f args kwargs) ∧
      m'.frames = .func a .call :: below := by
  cases hm with
  | halts hdone => exact absurd (hlive.symm.trans hdone) Bool.false_ne_true
  | goes hframes => exact .inl (hwaits.trans (waiting_of_frames hframes))
  | @calls b _ _ _ _ _ _ _ hcontrol hframes hfunc hpc =>
    rcases List.suffix_cons_iff.1 hwaits with heq | hbelow
    · cases heq
      exact .inr ⟨b, hcontrol, hframes, hfunc.symm, hpc.symm, ⟨_, _, _, rfl⟩, rfl⟩
    · exact .inl (hbelow.trans (waiting_of_frames hframes))
  | starts hcontrol =>
    rw [waiting_of_invoke hcontrol]
    exact .inl hwaits
  | waits hcontrol _ =>
    have hframes := hwaits.trans (waiting_suffix _)
    rw [waiting_of_invoke hcontrol]
    rcases List.suffix_cons_iff.1 hframes with heq | hbelow
    · cases heq
    · exact .inl hbelow
  | answers _ hframes | acts _ hframes _ _ =>
    -- the function of the host that is the innermost call is none that waits
    rcases List.suffix_cons_iff.1 (hwaits.trans (waiting_suffix _)) with heq | hbelow
    · cases heq
    · exact .inl (hbelow.trans (waiting_of_frames hframes))
  | returns hends => exact .inl (hwaits.trans hends.suffix)
  | refuses hcontrol _ _ =>
    rw [waiting_of_invoke hcontrol]
    exact .inl hwaits
  | fails hends _ => exact .inl (hwaits.trans hends.suffix)
  | passes _ _ hframes => exact .inl (hwaits.trans (waiting_of_frames hframes))
  | rethrows _ hframes _ _ => exact .inl (hwaits.trans (waiting_of_frames hframes))

/-- A step makes no function wait for a module. -/
theorem Routes.pending_eq {m m' : Machine} (hm : m.Routes m') (hlive : m'.isDone = false)
    (hpending : ∀ a pending below, .func a pending :: below <:+ m.frames → pending = .call)
    {a : Activation} {pending : Pending} {below : List Frame}
    (hframe : .func a pending :: below <:+ m'.frames) : pending = .call := by
  -- only the innermost frame is new
  have hcons : ∀ {frame callers}, m.frames = frame :: callers →
      .func a pending :: below <:+ callers →
      pending = .call :=
    fun hframes hs => hpending a pending below (hframes ▸ hs.trans (List.suffix_cons _ _))
  have hends : ∀ {top callers}, m.Ends top callers → .func a pending :: below <:+ callers →
      pending = .call :=
    fun he hs => hpending a pending below ((hs.trans he.suffix).trans m.waiting_suffix)
  cases hm with
  | halts hdone => exact absurd (hlive.symm.trans hdone) Bool.false_ne_true
  | goes hframes =>
    rcases List.suffix_cons_iff.1 hframe with heq | hbelow
    · cases heq
      rfl
    · exact hcons hframes hbelow
  | calls _ hframes _ _ =>
    rcases List.suffix_cons_iff.1 hframe with heq | hbelow
    · cases heq
      rfl
    · exact hcons hframes hbelow
  | starts =>
    rcases List.suffix_cons_iff.1 hframe with heq | hbelow
    · cases heq
      rfl
    · exact hpending a pending below hbelow
  | waits =>
    rcases List.suffix_cons_iff.1 hframe with heq | hbelow
    · cases heq
    · exact hpending a pending below hbelow
  | answers _ hframes | acts _ hframes _ _ =>
    rcases List.suffix_cons_iff.1 hframe with heq | hbelow
    · cases heq
    · exact hcons hframes hbelow
  | returns he => exact hends he hframe
  | refuses => exact hpending a pending below hframe
  | fails he _ => exact hends he hframe
  | passes _ _ hframes => exact hcons hframes hframe
  | rethrows _ hframes _ _ => exact hcons hframes hframe


/-! ## Functions of the host that wait -/

/-- By time `n` of a run a function of the host with the given callers got an error from a call that
it made, and it has been active since. -/
def Received (m₀ : Machine) (n : Nat) (r : BuiltinRef) (below : List Frame) (e : Error) : Prop :=
  ∃ t < n, (m₀.run t).control = .deliver (.error e) ∧
    (∃ run, (m₀.run t).frames = .builtin r run :: below) ∧
    ∀ i, t ≤ i → i ≤ n → ∃ run, .builtin r run :: below <:+ (m₀.run i).frames

/-- What a function of the host has received stays received while it is active. -/
theorem Received.succ {m₀ : Machine} {n : Nat} {r : BuiltinRef} {below : List Frame} {e : Error}
    (hr : m₀.Received n r below e)
    (hnext : ∃ run, .builtin r run :: below <:+ (m₀.run (n + 1)).frames) :
    m₀.Received (n + 1) r below e := by
  obtain ⟨t, ht, hcontrol, hframes, hsince⟩ := hr
  refine ⟨t, Nat.lt_succ_of_lt ht, hcontrol, hframes, fun i hti hin => ?_⟩
  rcases Nat.lt_succ_iff_lt_or_eq.1 (Nat.lt_succ_of_le hin) with hlt | rfl
  · exact hsince i hti (Nat.le_of_lt_succ hlt)
  · exact hnext

/-- A function of the host that is active after a step has just started, or was active before: then
it is the innermost call and may have got an error, or it is as it was. -/
theorem Routes.builtin_cases {m m' : Machine} (hm : m.Routes m') (hlive : m'.isDone = false)
    {r : BuiltinRef} {run : HostRun} {below : List Frame}
    (hframe : .builtin r run :: below <:+ m'.frames) :
    .builtin r run :: below <:+ m.frames ∨ run.log = [] ∨
    ∃ before, m.frames = .builtin r before :: below ∧
      ∀ e, .error e ∈ run.log → e.isWrapped →
        .error e ∈ before.log ∨ m.control = .deliver (.error e) := by
  have hends : ∀ {top callers}, m.Ends top callers → .builtin r run :: below <:+ callers →
      .builtin r run :: below <:+ m.frames :=
    fun he hs => (hs.trans he.suffix).trans m.waiting_suffix
  -- a frame below the innermost one is not touched by the step
  have hcons : ∀ {frame callers}, m.frames = frame :: callers →
      .builtin r run :: below <:+ callers →
      .builtin r run :: below <:+ m.frames :=
    fun hframes hs => hframes ▸ hs.trans (List.suffix_cons _ _)
  cases hm with
  | halts hdone => exact absurd (hlive.symm.trans hdone) Bool.false_ne_true
  | goes hframes | calls _ hframes _ _ =>
    rcases List.suffix_cons_iff.1 hframe with heq | hbelow
    · cases heq
    · exact .inl (hcons hframes hbelow)
  | starts =>
    rcases List.suffix_cons_iff.1 hframe with heq | hbelow
    · cases heq
    · exact .inl hbelow
  | waits _ hlog =>
    rcases List.suffix_cons_iff.1 hframe with heq | hbelow
    · cases heq
      exact .inr (.inl hlog)
    · exact .inl hbelow
  | @answers _ before _ o hcontrol hframes =>
    rcases List.suffix_cons_iff.1 hframe with heq | hbelow
    · cases heq
      refine .inr (.inr ⟨before, hframes, fun e he _ => ?_⟩)
      rcases List.mem_cons.1 he with rfl | he
      · exact .inr hcontrol
      · exact .inl he
    · exact .inl (hcons hframes hbelow)
  | acts _ hframes hlog _ =>
    rcases List.suffix_cons_iff.1 hframe with heq | hbelow
    · cases heq
      exact .inr (.inr ⟨_, hframes, fun e he hwrapped => .inl (hlog e he hwrapped)⟩)
    · exact .inl (hcons hframes hbelow)
  | returns he => exact .inl (hends he hframe)
  | refuses => exact .inl hframe
  | fails he _ => exact .inl (hends he hframe)
  | passes _ _ hframes => exact .inl (hcons hframes hframe)
  | rethrows _ hframes _ _ => exact .inl (hcons hframes hframe)

/-- At time `n` of a run no function waits for anything but a call, and functions of the host have
got the errors that they know of. -/
structure Orderly (m₀ : Machine) (n : Nat) : Prop where
  pending : ∀ a pending below, .func a pending :: below <:+ (m₀.run n).frames → pending = .call
  calling : ∀ a pending below, .func a pending :: below <:+ (m₀.run n).waiting →
      m₀.Calling n a below
  received : ∀ r run below, .builtin r run :: below <:+ (m₀.run n).frames →
    ∀ e, .error e ∈ run.log → e.isWrapped → m₀.Received n r below e

/-- Order is kept by every step. -/
theorem Orderly.succ {m₀ : Machine} {n : Nat} (ho : m₀.Orderly n)
    (hm : (m₀.run n).Routes (m₀.run (n + 1))) (hlive : (m₀.run (n + 1)).isDone = false) :
    m₀.Orderly (n + 1) := by
  have hpending : ∀ a pending below, .func a pending :: below <:+ (m₀.run (n + 1)).frames →
      pending = .call := fun a pending below hframe => hm.pending_eq hlive ho.pending hframe
  -- a frame that waits now either waited before or has just made its call; likewise for an error
  -- that a host function has received
  refine ⟨hpending, fun a pending below hwaits => ?_, fun r run below hframe e he hwrapped => ?_⟩
  · have hframe := hwaits.trans (waiting_suffix _)
    cases hpending a pending below hframe
    rcases hm.waiting_cases hlive hwaits with hbefore | ⟨b, hexec, hframes, hfunc, hpc,
        hcall, hmade⟩
    · exact (ho.calling a .call below hbefore).succ hframe
    · refine ⟨n, Nat.lt_succ_self n, b, hexec, hframes, hfunc, hpc, hcall, hmade,
        fun i hni hin => ?_⟩
      obtain rfl : i = n + 1 := Nat.le_antisymm hin hni
      exact hframe
  · rcases hm.builtin_cases hlive hframe with hbefore | hnew | ⟨before, hframes, hlog⟩
    · exact (ho.received r run below hbefore e he hwrapped).succ ⟨run, hframe⟩
    · rw [hnew] at he
      exact absurd he List.not_mem_nil
    · have hinner : .builtin r before :: below <:+ (m₀.run n).frames := hframes ▸ List.suffix_refl _
      rcases hlog e he hwrapped with hold | hgot
      · exact (ho.received r before below hinner e hold hwrapped).succ ⟨run, hframe⟩
      · refine ⟨n, Nat.lt_succ_self n, hgot, ⟨before, hframes⟩, fun i hni hin => ?_⟩
        rcases Nat.lt_succ_iff_lt_or_eq.1 (Nat.lt_succ_of_le hin) with hlt | rfl
        · obtain rfl : i = n := Nat.le_antisymm (Nat.le_of_lt_succ hlt) hni
          exact ⟨before, hinner⟩
        · exact ⟨run, hframe⟩

section Runs

variable {m₀ : Machine}

/-- In an orderly run each step routes what it has to route. -/
theorem routes_run (hplain : m₀.IsPlain) {n : Nat} (ho : m₀.Orderly n) :
    (m₀.run n).Routes (m₀.run (n + 1)) := by
  rw [run_succ_eq_step]
  refine routes_step (hplain.run n).loader (hplain.run n).honest fun _ a pending below hframes => ?_
  exact ho.pending a pending below (hframes ▸ List.suffix_refl _)

theorem live_of_succ {n : Nat} (hlive : (m₀.run (n + 1)).isDone = false) :
    (m₀.run n).isDone = false := by
  rw [run_succ_eq_step] at hlive
  by_contra hdone
  rw [step_of_isDone (Bool.of_not_eq_false hdone)] at hlive
  exact hdone hlive

/-- Until the first call ends, functions wait only for calls. -/
theorem orderly_run (hplain : m₀.IsPlain) (hstart : m₀.frames = []) {n : Nat}
    (hlive : (m₀.run n).isDone = false) : m₀.Orderly n := by
  induction n with
  | zero =>
    have hnil : ∀ {frame : Frame} {below : List Frame}, ¬ frame :: below <:+ m₀.frames := by
      intro frame below hs
      rw [hstart] at hs
      exact absurd (List.suffix_nil.1 hs) (List.cons_ne_nil _ _)
    exact ⟨fun a pending below hs => absurd hs hnil,
      fun a pending below hs => absurd (hs.trans (waiting_suffix _)) hnil,
      fun r run below hs => absurd hs hnil⟩
  | succ n ih =>
    have ho := ih (live_of_succ hlive)
    exact ho.succ (routes_run hplain ho) hlive

/-! ## Errors on their way -/

/-- At time `j` of a run the innermost of the given calls fails by itself. Its error has left no
call, and gets a call stack that tells of these calls, the outermost first. -/
structure Raises (m₀ : Machine) (j : Nat) (calls : List Frame) (stack : CallStack) (cause : Error) :
    Prop where
  ends : ∃ top callers, calls = top :: callers ∧ (m₀.run j).Ends top callers
  plain : cause.isWrapped = false
  control : (m₀.run (j + 1)).control = .deliver (.error (.eval stack cause))
  frames : (m₀.run (j + 1)).frames = calls.tail
  stack : List.Forall₂ (Frame.Tells (m₀.run (j + 1)).heap) calls.reverse stack

/-- A call that fails by itself raises its error, with the calls that are active. -/
theorem raises_of_fail {j : Nat} {top : Frame} {callers : List Frame} {h : Heap} {t : Thread}
    {cause : Error} (hends : (m₀.run j).Ends top callers) (hplain : cause.isWrapped = false)
    (hfail : m₀.run (j + 1) = fail h t (top :: callers) cause) :
    m₀.Raises j (top :: callers) (h.callStack (top :: callers)) cause where
  ends := ⟨top, callers, rfl, hends⟩
  plain := hplain
  control := by rw [hfail, fail, Error.wrap_of_plain hplain]
  frames := by rw [hfail, fail, List.tail_cons]
  stack := by
    rw [hfail, fail]
    exact h.tells_callStack top (top :: callers)

/-- An error that is delivered at time `i` of a run is handed on from call to call until time `k`,
and is then delivered again: a function that gets it ends with it at once, and a function of the
host when it returns it. -/
inductive HandsOn (m₀ : Machine) (e : Error) (i : Nat) : Nat → Prop where
  | start (hcontrol : (m₀.run i).control = .deliver (.error e)) : HandsOn m₀ e i i
  | passes {k : Nat} {a : Activation} {callers : List Frame} (hh : HandsOn m₀ e i k)
      (hframes : (m₀.run k).frames = .func a .call :: callers)
      (hpopped : (m₀.run (k + 1)).frames = callers)
      (hcontrol : (m₀.run (k + 1)).control = .deliver (.error e)) : HandsOn m₀ e i (k + 1)
  | returns {k k' : Nat} {r : BuiltinRef} {run : HostRun} {callers : List Frame}
      (hh : HandsOn m₀ e i k)
      (hk : k < k') (hframes : (m₀.run k).frames = .builtin r run :: callers)
      (hactive : ∀ t, k ≤ t → t ≤ k' → ∃ run, .builtin r run :: callers <:+ (m₀.run t).frames)
      (hpopped : (m₀.run (k' + 1)).frames = callers)
      (hcontrol : (m₀.run (k' + 1)).control = .deliver (.error e)) : HandsOn m₀ e i (k' + 1)

section Call

variable (hplain : m₀.IsPlain) (hstart : m₀.frames = []) {n K : Nat} {f : Value} {args : List Value}
  {kwargs : Keywords} (hcall : (m₀.run n).control = .invoke f args kwargs)
  (hfirst : ∀ i, n < i → i < K → (m₀.run n).frames.length < (m₀.run i).frames.length)

include hplain hstart hcall hfirst

/-- An error that has left a call inside another was raised by one of the calls inside, and has been
handed on since. -/
theorem raises_of_isWrapped {k : Nat} (hnk : n < k) (hkK : k ≤ K) {e : Error}
    (hk : (m₀.run k).control = .deliver (.error e)) (he : e.isWrapped) :
    ∃ j stack cause calls, (n ≤ j ∧ j < k) ∧ e = .eval stack cause ∧ m₀.Raises j calls stack cause ∧
      m₀.HandsOn e (j + 1) k := by
  -- by induction on the time: the last step has raised the error or has handed it on
  induction k using Nat.strongRecOn with
  | ind k ih =>
    obtain ⟨k, rfl⟩ := Nat.exists_eq_succ_of_ne_zero (Nat.ne_zero_of_lt hnk)
    have hlive : (m₀.run (k + 1)).isDone = false := by rw [isDone, hk]
    have ho := orderly_run hplain hstart (live_of_succ hlive)
    have hroutes := routes_run hplain ho
    generalize hm' : m₀.run (k + 1) = m' at hk hlive hroutes
    cases hroutes with
    | halts hdone => exact absurd (hlive.symm.trans hdone) Bool.false_ne_true
    | goes | calls | starts | waits | answers | returns => cases hk
    | acts _ _ _ hc =>
      rcases hc with rfl | ⟨g, args, kwargs, rfl⟩
      · cases hk
      · cases hk
    | refuses _ _ hunwrapped =>
      cases hk
      exact absurd (hunwrapped.symm.trans he) Bool.false_ne_true
    | @fails top callers h t cause hends hunwrapped =>
      have hraises := raises_of_fail hends hunwrapped hm'
      rw [fail, Error.wrap_of_plain hunwrapped] at hk
      cases hk
      exact ⟨k, _, cause, _, ⟨Nat.le_of_lt_succ hnk, Nat.lt_succ_self k⟩, rfl, hraises,
        .start hraises.control⟩
    | @passes a callers h t e' hcontrol _ hframes =>
      cases hk
      have hlt : n < k := by
        refine Nat.lt_of_le_of_ne (Nat.le_of_lt_succ hnk) ?_
        rintro rfl
        cases hcall.symm.trans hcontrol
      obtain ⟨j, stack, cause, calls, ⟨hnj, hjk⟩, heq, hraises, hhands⟩ :=
        ih k (Nat.lt_succ_self k) hlt (Nat.le_of_succ_le hkK) hcontrol
      refine ⟨j, stack, cause, calls, ⟨hnj, Nat.lt_succ_of_lt hjk⟩, heq, hraises, ?_⟩
      exact hhands.passes hframes (congrArg Machine.frames hm') (congrArg Machine.control hm')
    | @rethrows r run callers h t e' hcontrol hframes _ hlog =>
      cases hk
      have hinner : .builtin r run :: callers <:+ (m₀.run k).frames := hframes ▸ List.suffix_refl _
      obtain ⟨t', ht', hgot, ⟨run', hframes'⟩, hactive⟩ :=
        ho.received r run callers hinner e hlog he
      have hlt : n < k := by
        refine Nat.lt_of_le_of_ne (Nat.le_of_lt_succ hnk) ?_
        rintro rfl
        cases hcall.symm.trans hcontrol
      -- the function of the host is not active at time `n`, so it got the error later
      have hlater : n < t' := by
        by_contra hle
        obtain ⟨run'', hsuffix⟩ := hactive n (Nat.le_of_not_lt hle) (Nat.le_of_lt hlt)
        have hshort := hsuffix.length_le
        have hdeep := hfirst k hlt hkK
        rw [hframes] at hdeep
        exact absurd hdeep (Nat.not_lt.2 hshort)
      obtain ⟨j, stack, cause, calls, ⟨hnj, hjt⟩, heq, hraises, hhands⟩ :=
        ih t' (Nat.lt_succ_of_lt ht') hlater
            (Nat.le_of_lt (Nat.lt_of_lt_of_le (Nat.lt_succ_of_lt ht') hkK)) hgot
      refine ⟨j, stack, cause, calls, ⟨hnj, ?_⟩, heq, hraises, ?_⟩
      · exact Nat.lt_trans hjt (Nat.lt_succ_of_lt ht')
      · exact hhands.returns ht' hframes' hactive (congrArg Machine.frames hm')
          (congrArg Machine.control hm')

/-- A call that has a frame, or could have one, and fails gives an error that has left a call. -/
theorem isWrapped_of_back {top : Frame} (hopens : (m₀.run n).Opens f top)
    (hroom : (m₀.run n).frames.length < (m₀.run n).thread.maxDepth) (hnK : n < K)
    (hback : (m₀.run K).frames.length ≤ (m₀.run n).frames.length) {e : Error}
    (he : (m₀.run K).control = .deliver (.error e)) : e.isWrapped := by
  obtain ⟨k, rfl⟩ := Nat.exists_eq_succ_of_ne_zero (Nat.ne_zero_of_lt hnK)
  have hlive : (m₀.run (k + 1)).isDone = false := by rw [isDone, he]
  have ho := orderly_run hplain hstart (live_of_succ hlive)
  have hdeep : n = k ∨ (m₀.run n).frames.length < (m₀.run k).frames.length := by
    rcases Nat.lt_succ_iff_lt_or_eq.1 hnK with hlt | heq
    · exact .inr (hfirst k hlt (Nat.lt_succ_self k))
    · exact .inl heq
  have hroutes := routes_run hplain ho
  -- what is left is one step: the one that brings the call back
  generalize hm' : m₀.run (k + 1) = m' at hback he hlive hroutes
  cases hroutes with
  | halts hdone => exact absurd (hlive.symm.trans hdone) Bool.false_ne_true
  | goes | calls | starts | waits | answers | returns => cases he
  | acts _ _ _ hc =>
    rcases hc with rfl | ⟨g, args, kwargs, rfl⟩
    · cases he
    · cases he
  | refuses hcontrol hrefused _ =>
    rcases hdeep with rfl | hdeep
    · cases hcall.symm.trans hcontrol
      rcases hrefused with hfull | hnone
      · exact absurd hroom (Nat.not_lt.2 hfull)
      · exact absurd hopens (hnone top)
    · exact absurd hback (Nat.not_le.2 hdeep)
  | fails _ hunwrapped =>
    rw [fail, Error.wrap_of_plain hunwrapped] at he
    cases he
    rfl
  | passes _ hwrapped _ =>
    cases he
    exact hwrapped
  | rethrows _ _ hwrapped _ =>
    cases he
    exact hwrapped

omit hplain hstart in
/-- What is raised inside a call is raised by calls on top of those that were active before. -/
theorem Raises.calls_eq {j : Nat} (hnj : n ≤ j) (hjK : j < K) {calls : List Frame}
    {stack : CallStack}
    {cause : Error} (hraises : m₀.Raises j calls stack cause) :
    ∃ inner, inner ≠ [] ∧ calls = inner ++ (m₀.run n).frames := by
  obtain ⟨top, callers, rfl, hends⟩ := hraises.ends
  rcases Nat.eq_or_lt_of_le hnj with rfl | hlt
  · cases hends with
    | active hcontrol => exact absurd hcall (hcontrol _ _ _)
    | pushed _ hframes => exact ⟨[top], List.cons_ne_nil _ _, by rw [hframes]; rfl⟩
  · obtain ⟨i, rfl⟩ := Nat.exists_eq_add_of_lt hlt
    have hrun : ∀ i, m₀.run (n + i) = (m₀.run n).run i := fun i => run_add m₀ n i
    -- between the call and its return every state has the call's frames on top of the caller's
    have hdeep : (m₀.run n).frames.length < (m₀.run (n + i + 1)).frames.length := hfirst _ hlt hjK
    have hinside : (m₀.run (n + i + 1)).Inside (m₀.run n).frames := by
      have hcases := inside_or_back_run hcall (k := i + 1) (j := i + 1) (fun l hl hli => ?_)
        (Nat.succ_pos i) (Nat.le_refl _)
      · rw [← hrun] at hcases
        refine hcases.resolve_right fun hback => ?_
        rw [Nat.add_assoc, hback.1] at hdeep
        exact absurd hdeep (Nat.lt_irrefl _)
      · rw [← hrun]
        exact hfirst (n + l) (Nat.lt_add_of_pos_right hl) (by omega)
    obtain ⟨-, pre, hpre, hframes⟩ := hinside
    cases hends with
    | @active frame _ hframe _ =>
      obtain ⟨first, pre, rfl⟩ := List.exists_cons_of_ne_nil hpre
      cases hframe.symm.trans hframes
      exact ⟨top :: pre, List.cons_ne_nil _ _, rfl⟩
    | pushed _ hframe =>
      exact ⟨top :: pre, List.cons_ne_nil _ _, by rw [← hframe, hframes]; rfl⟩

end Call

end Runs

/-- A call with a frame is that of a function or of a builtin. -/
theorem Opens.callable {m : Machine} {f : Value} {top : Frame} (hopens : m.Opens f top) :
    (∃ r, f = .func r) ∨ ∃ r, f = .builtin r := by
  cases top with
  | func a pending =>
    obtain ⟨r, hr, -⟩ := hopens
    exact .inl ⟨r, hr⟩
  | builtin r run => exact .inr ⟨r, hopens⟩

/-- A function that is handed an error ends with it. -/
theorem step_of_error {m : Machine} {e : Error} (he : m.control = .deliver (.error e))
    {a : Activation}
    {callers : List Frame} (hframes : m.frames = .func a .call :: callers) :
    m.step = fail m.heap m.thread m.frames e := by
  obtain ⟨heap, thread, frames, control⟩ := m
  cases he
  cases hframes
  rfl

/-- A function of the host that is handed an error has the turn with it. -/
theorem step_of_answer {m : Machine} {o : Except Error Value} (ho : m.control = .deliver o)
    {r : BuiltinRef} {run : HostRun} {callers : List Frame}
    (hframes : m.frames = .builtin r run :: callers) :
    m.step = ⟨m.heap, m.thread, .builtin r (run.note o) :: callers, .host⟩ := by
  obtain ⟨heap, thread, frames, control⟩ := m
  cases ho
  cases hframes
  rfl

/-- A function of the host returns an error. -/
theorem step_of_finish {m : Machine} (hm : m.control = .host) {r : BuiltinRef} {run : HostRun}
    {callers : List Frame} (hframes : m.frames = .builtin r run :: callers) {e : Error}
    (hmove : Moves m.heap m.thread callers r run (.finish (.error e))) :
    m.step = fail m.heap m.thread.takeTurn m.frames e := by
  obtain ⟨heap, thread, frames, control⟩ := m
  cases hm
  cases hframes
  have hturn : thread.letMove heap (heap.callStack (.builtin r run :: callers))
      (heap.builtin r) run =
      .finish thread.takeTurn (.error e) := by
    unfold Thread.letMove
    rw [hmove]
  simp only [step, host, hturn, finish]

/-- Errors are wrapped once, by the innermost call that fails. Take a run without modules, whose
host is honest.

Take any time at which a value that can be called is called. If there is room and the call fails,
its error tells of a cause that has left no call, of its text, and of a call stack. It was raised by
a call inside this one (or by itself); the call stack tells of the calls that were active then, the
outermost first, where each function that was waiting has the position of the instruction that made
its call; and all calls on its way handed it on unchanged. If there is no room, the caller is handed
the refusal. If it is a function, it ends with that, wrapped with the calls that are active without
the refused one; if it is a function of the host, it has the turn. Whenever a function of the host
returns an error, the error is wrapped with the active calls if it has left no call, and is handed
on unchanged if it has. -/
theorem error_wrapped_once {heap : Heap} {thread : Thread} {f₀ : Value} {args₀ : List Value}
    {kwargs₀ : Keywords} (hloader : thread.loader = none) (hhonest : thread.IsHonest) {n : Nat} :
    let m₀ := start heap thread f₀ args₀ kwargs₀
    let m := m₀.run n
    (∀ f args kwargs top, m.control = .invoke f args kwargs → m.Opens f top →
      (m.frames.length < m.thread.maxDepth → ∀ k e, n < k →
        (m₀.run k).frames.length ≤ m.frames.length →
        (∀ i, n < i → i < k → m.frames.length < (m₀.run i).frames.length) →
        (m₀.run k).control = .deliver (.error e) →
        ∃ j inner stack cause, (n ≤ j ∧ j < k) ∧ inner ≠ [] ∧
          (e.details? = some ⟨cause.message, stack, cause⟩ ∧ cause.isWrapped = false) ∧
          m₀.Raises j (inner ++ m.frames) stack cause ∧ m₀.HandsOn e (j + 1) k ∧
          ∀ a pending below, .func a pending :: below <:+ (inner ++ m.frames).tail →
            m₀.Calling j a below) ∧
      (m.thread.maxDepth ≤ m.frames.length →
        m.step = ⟨m.heap, m.thread, m.frames, .deliver (.error (.callDepth m.thread.maxDepth))⟩ ∧
        (∀ a pending callers, m.frames = .func a pending :: callers →
          ∃ stack, m.step.step = ⟨m.heap.closeFrame (.func a pending), m.thread, callers,
              .deliver (.error (.eval stack (.callDepth m.thread.maxDepth)))⟩ ∧
            List.Forall₂ (Frame.Tells m.step.step.heap) m.frames.reverse stack) ∧
        ∀ r run callers, m.frames = .builtin r run :: callers → m.step.step = ⟨m.heap, m.thread,
          .builtin r (run.note (.error (.callDepth m.thread.maxDepth))) :: callers, .host⟩)) ∧
    ∀ r run callers e, m.control = .host → m.frames = .builtin r run :: callers →
      Moves m.heap m.thread callers r run (.finish (.error e)) →
      m.step.frames = callers ∧
      (e.isWrapped → m.step.control = .deliver (.error e)) ∧
      (e.isWrapped = false → ∃ stack, m.step.control = .deliver (.error (.eval stack e)) ∧
        List.Forall₂ (Frame.Tells m.step.heap) m.frames.reverse stack) := by
  intro m₀ m
  have hplain : m₀.IsPlain := ⟨hloader, hhonest⟩
  refine ⟨fun f args kwargs top hcall hopens =>
      ⟨fun hroom k e hk hback hfirst he => ?_, fun hfull => ?_⟩,
    fun r run callers e hcontrol hframes hmove => ?_⟩
  -- the error that comes back is wrapped, and is traced to the step that wrapped it
  · have hwrapped := isWrapped_of_back hplain rfl hcall hfirst hopens hroom hk hback he
    obtain ⟨j, stack, cause, calls, ⟨hnj, hjk⟩, rfl, hraises, hhands⟩ :=
      raises_of_isWrapped hplain rfl hcall hfirst hk (Nat.le_refl k) he hwrapped
    obtain ⟨inner, hinner, rfl⟩ := hraises.calls_eq hcall hfirst hnj hjk
    refine ⟨j, inner, stack, cause, ⟨hnj, hjk⟩, hinner, ⟨rfl, hraises.plain⟩, hraises, hhands, ?_⟩
    intro a pending below hs
    -- the frames below the one that failed have each made the call above them
    obtain ⟨top', callers, hcalls, hends⟩ := hraises.ends
    have hrunning : (m₀.run j).isDone = false := live_of_succ (by rw [isDone, hraises.control])
    rw [hcalls] at hs
    exact (orderly_run hplain rfl hrunning).calling a pending below (hs.trans hends.suffix)
  · have hlive : m.isDone = false := not_isDone_of_invoke hcall
    have hrefused := step_of_full hcall hopens.callable hfull
    refine ⟨hrefused, fun a pending callers hframes => ?_, fun r run callers hframes => ?_⟩
    · cases (orderly_run hplain rfl hlive).pending a pending callers (hframes ▸ List.suffix_refl _)
      have hfail := step_of_error (congrArg control hrefused)
        ((congrArg Machine.frames hrefused).trans hframes)
      rw [hrefused, hframes] at hfail
      refine ⟨m.heap.callStack m.frames, ?_, ?_⟩
      · rw [hrefused, hframes]
        exact hfail
      · rw [hrefused, hframes, hfail]
        exact m.heap.tells_callStack _ _
    · rw [step_of_answer (congrArg control hrefused)
        ((congrArg Machine.frames hrefused).trans hframes),
        hrefused]
  · have hfail := step_of_finish hcontrol hframes hmove
    rw [hframes] at hfail
    refine ⟨by rw [hfail]; rfl, fun hwrapped => ?_, fun hunwrapped => ?_⟩
    · rw [hfail, fail, Error.wrap_of_isWrapped hwrapped]
    · refine ⟨m.heap.callStack m.frames, ?_, ?_⟩
      · rw [hfail, hframes, fail, Error.wrap_of_plain hunwrapped]
      · rw [hfail, hframes]
        exact m.heap.tells_callStack _ _

/-- A function calls itself. The second call is refused by the recursion guard inside its own frame,
and the first passes the error on; with room for one call only, the first raises the error. A
function of the host that fails by itself is told of in the call stack of its error. -/
theorem error_wrapped_once_selfApplying :
    let start (depth : Nat) := start Session.selfApplying (.new "main" none depth true) (.func ⟨0⟩)
      [.func ⟨0⟩] []
    let failing := Machine.start (Heap.initial.newBuiltin (.host "host_fail" 7) none).2
      (.new "main" none 10 true) (.builtin ⟨10⟩) [] []
    (∃ e j inner stack cause, ((start 10).run 6).control = .deliver (.error e) ∧ j < 6 ∧
      e.details? = some ⟨cause.message, stack, cause⟩ ∧
      (start 10).Raises j (inner ++ []) stack cause ∧ (start 10).HandsOn e (j + 1) 6) ∧
    (∃ stack, ((start 1).run 6).control = .deliver (.error (.eval stack (.callDepth 1)))) ∧
    ∃ stack, (failing.run 1).step.control = .deliver (.error (.eval stack (.fault (.host "")))) ∧
      List.Forall₂ (Frame.Tells (failing.run 1).step.heap) [.builtin ⟨10⟩ {}] stack := by
  intro start failing
  let frame : Frame := .func { func := ⟨⟨0⟩, .toplevel, #[], #[]⟩, locals := #[] } .call
  have hhonest : ∀ depth, (Thread.new "main" none depth true).IsHonest :=
    fun _ => HostCode.isHonest_ofLibrary
  refine ⟨?_, ?_, ?_⟩
  · have hcalls := ((@error_wrapped_once Session.selfApplying (.new "main" none 10 true) (.func ⟨0⟩)
      [.func ⟨0⟩] [] rfl (hhonest 10) 0).1
      (.func ⟨0⟩) [.func ⟨0⟩] [] frame rfl ⟨⟨0⟩, rfl, rfl⟩).1 (by decide)
    -- the outer call is still there at every step until it fails
    have hdeep : ∀ i < 6, 0 < i → 0 < ((start 10).run i).frames.length := by decide +kernel
    obtain ⟨e, he⟩ : ∃ e, ((start 10).run 6).control = .deliver (.error e) := ⟨_, rfl⟩
    obtain ⟨j, inner, stack, cause, ⟨-, hj⟩, -, ⟨heq, -⟩, hraises, hhands, -⟩ :=
      hcalls 6 e (by decide) (by decide +kernel) (fun i hi hik => hdeep i hik hi) he
    exact ⟨e, j, inner, stack, cause, he, hj, heq, hraises, hhands⟩
  · have hrefused :=
      ((@error_wrapped_once Session.selfApplying (.new "main" none 1 true) (.func ⟨0⟩)
        [.func ⟨0⟩] [] rfl (hhonest 1) 4).1
        (.func ⟨0⟩) [.func ⟨0⟩] [] frame rfl ⟨⟨0⟩, rfl, rfl⟩).2 (by decide +kernel)
    obtain ⟨stack, hstep, -⟩ := hrefused.2.1 _ _ _ rfl
    exact ⟨stack, congrArg control hstep⟩
  · have hfails := (@error_wrapped_once (Heap.initial.newBuiltin (.host "host_fail" 7) none).2
      (.new "main" none 10 true) (.builtin ⟨10⟩) [] [] rfl (hhonest 10) 1).2
      ⟨10⟩ {} [] _ rfl rfl rfl
    exact hfails.2.2 rfl

end Machine

end Starlark
