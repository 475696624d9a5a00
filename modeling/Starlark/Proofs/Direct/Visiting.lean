import Starlark.Proofs.Direct.Running

/-!
# Runs from point to point

On a thread without a step limit that nobody has cancelled a run is never cut. So it comes to
whatever it would come to (`Running.Comes.reaches`), and it does not matter when: `Running.Visits`
says that the run is at a point at some time, with a given operand stack, given open iterators and a
given scene. `Running.Visits.execute`, `Running.Visits.cjmp` and `Running.Visits.iterJmp` say where
it goes from there.
-/

set_option autoImplicit false

namespace Starlark

/-! ## Errors -/

/-- The root of an error is the same however many calls it has left. -/
@[simp] theorem Error.root_wrap (e : Error) (stack : CallStack) : (e.wrap stack).root = e.root := by
  cases e <;> rfl

/-! ## Threads that go on -/

/-- A thread that has done a number of steps. -/
def Thread.counted (t : Thread) (steps : Nat) : Thread := { t with steps }

theorem Thread.print_counted (t : Thread) (steps : Nat) (line : String) :
    (t.counted steps).print line = (t.print line).counted steps := by
  unfold Thread.print
  split <;> rename_i hr <;> simp_all [Thread.counted, Thread.write]

/-- Nothing stops a thread. -/
structure Thread.Goes (t : Thread) : Prop where
  limit : t.limit = none
  cancelled : t.cancelled = none

namespace Thread.Goes

variable {t : Thread}

/-- A thread that goes on counts one more step. -/
theorem tick (h : t.Goes) (steps : Nat) : (t.counted steps).tick = t.counted (steps + 1) := by
  simp [Thread.tick, limitReached, Thread.counted, h.limit]

/-- It goes on, however many steps it has counted. -/
theorem counted (h : t.Goes) (steps : Nat) : (t.counted steps).Goes := ⟨h.limit, h.cancelled⟩

/-- What it counts is all that changes. -/
theorem of_ticks (h : t.Goes) {steps : Nat} {t' : Thread} (ht : (t.counted steps).Ticks t') :
    ∃ steps', t' = t.counted steps' := by
  obtain ⟨k, rfl⟩ := ht
  induction k with
  | zero => exact ⟨steps, rfl⟩
  | succ k ih =>
    obtain ⟨steps', heq⟩ := ih
    exact ⟨steps' + 1, by rw [Function.iterate_succ_apply', heq, h.tick]⟩

/-- Printing does not stop a thread. -/
theorem print (h : t.Goes) (line : String) : (t.print line).Goes := by
  unfold Thread.print
  split
  · exact ⟨h.limit, h.cancelled⟩
  · exact h

end Thread.Goes

/-- A scene whose thread has done a number of steps. -/
def Scene.counted (s : Scene) (steps : Nat) : Scene := { s with thread := s.thread.counted steps }

/-- Where an instruction is due, a step does nothing to the thread but count. -/
theorem Machine.goes_step {m : Machine} (hexec : m.control = .exec) (hgoes : m.thread.Goes) :
    m.step.thread.Goes := by
  have hclock : m.clock.Goes := by
    have hclock : m.clock = m.thread.tick := by simp only [clock, hexec]
    rw [hclock]
    exact hgoes.tick m.thread.steps ▸ hgoes.counted _
  have hnext := m.next_step
  generalize m.step = m' at hnext ⊢
  cases hnext with
  | halt => exact hgoes
  | leave => exact hclock
  | resume => exact hclock
  | back hcontrol => cases hexec.symm.trans hcontrol
  | enter hcontrol => cases hexec.symm.trans hcontrol
  | answer _ hcontrol => cases hexec.symm.trans hcontrol
  | turn _ hcontrol => cases hexec.symm.trans hcontrol

/-! ## Runs -/

namespace Running

variable {p : Program} {predeclared : String → Prop} (R : Running p predeclared)

/-- At some time the run is at a point of the graph. -/
def Visits (q : Point) (st : List Value) (its : List Iter) (s : Scene) : Prop :=
  s.thread.Goes ∧ ∃ n steps, R.StandsAt n q st its (s.counted steps)

/-- At some time the function calls a value, and waits at a point. -/
def Asks (f : Value) (args : List Value) (kwargs : Keywords) (q : Point) (st : List Value)
    (its : List Iter) (s : Scene) : Prop :=
  s.thread.Goes ∧ ∃ n steps, R.CallsAt n f args kwargs q st its (s.counted steps)

/-- At some time the run gives up. -/
def Aborts (x : Abort) : Prop := ∃ n, (Machine.run n R.start).control = .aborted x

/-- At some time the function is left, with the given iterators still open. -/
def Ends (r : Except Error Value) (its : List Iter) (s : Scene) : Prop :=
  ∃ n steps r', Machine.run n R.start =
      ⟨its.foldl Heap.closeIter s.heap, s.thread.counted steps, R.callers, .deliver r'⟩ ∧
    r'.mapError Error.root = r.mapError Error.root

variable {R} {q : Point} {st : List Value} {its : List Iter} {s : Scene} {n : Nat}

/-- A run that is not cut comes to what it would come to. -/
theorem Comes.reaches {P : Nat → Prop} (h : R.Comes n st its P)
    (hgoes : (Machine.run n R.start).thread.Goes) : ∃ m, P m := by
  obtain ⟨m, hnm, hbefore, hend⟩ := h
  have hall : ∀ k, n ≤ k → k ≤ m → (Machine.run k R.start).thread.Goes := by
    intro k hnk hkm
    induction k, hnk using Nat.le_induction with
    | base => exact hgoes
    | succ k hnk ih =>
      obtain ⟨t, h, a, hrun, -⟩ := hbefore k hnk hkm
      rw [Machine.run_succ_eq_step]
      exact Machine.goes_step (by rw [hrun]) (ih (Nat.le_of_succ_le hkm))
  rcases hend with ⟨t, ⟨h, a, hrun, -⟩, hcut⟩ | hp
  · have ht := hall m hnm (Nat.le_refl m)
    rw [hrun] at ht
    exact absurd (ht.tick t.steps ▸ ht.cancelled) hcut
  · exact ⟨m, hp⟩

/-- A thread that goes on still does when the function stands somewhere. -/
theorem StandsAt.goes {steps : Nat} (h : R.StandsAt n q st its (s.counted steps))
    (hgoes : s.thread.Goes) :
    (Machine.run n R.start).thread.Goes := by
  obtain ⟨-, -, t, a, hrun, ht, -⟩ := h
  obtain ⟨steps', rfl⟩ := hgoes.of_ticks ht
  rw [hrun]
  exact hgoes.counted steps'

/-- At the end of a block the run is at the start of the next. -/
theorem Visits.ends (h : R.Visits q st its s) {c : BlockId} (hend : R.code.graph.EndsAt q c) :
    R.Visits ⟨c, 0⟩ st its s := by
  obtain ⟨hgoes, n, steps, hstands⟩ := h
  exact ⟨hgoes, n, steps, hstands.ends hend⟩

/-- The innermost frame is left. -/
theorem ends_of_leave {steps : Nat} {a : Activation} {v : Value}
    (hrun : Machine.run n R.start =
      Machine.leave s.heap (s.thread.counted steps) (.func a .call :: R.callers) v) :
    R.Ends (.ok v) a.iters s :=
  ⟨n, steps, .ok v, hrun, rfl⟩

/-- The function fails. -/
theorem ends_of_fail {steps : Nat} {a : Activation} {e e' : Error}
    (hrun : Machine.run n R.start =
      Machine.fail s.heap (s.thread.counted steps) (.func a .call :: R.callers) e')
    (he : e'.root = e.root) :
    R.Ends (.error e) a.iters s := by
  refine ⟨n, steps, _, hrun, ?_⟩
  simp only [Except.mapError, Error.root_wrap, he]

/-- What comes of an instruction. -/
def Follows (R : Running p predeclared) (q : Point) (its : List Iter) (s : Scene) (a : Activation) :
    EStateM.Result Stop Heap Effect → Prop
  | .ok (.proceed b) h =>
    b.func = a.func → b.next = a.next → R.Visits q b.stack b.iters ⟨h, s.thread, b.locals⟩
  | .ok (.finish v) h => R.Ends (.ok v) its { s with heap := h }
  | .ok (.call b f args kwargs) h =>
    b.func = a.func → b.next = a.next →
      R.Asks f args kwargs q b.stack b.iters ⟨h, s.thread, b.locals⟩
  | .ok (.load _ _ _) _ => True
  | .error (.error e) h => R.Ends (.error e) its { s with heap := h }
  | .error (.abort x) _ => R.Aborts x

/-- On a thread that goes on it does not matter when something comes of an instruction. -/
theorem YieldsAt.follows {m steps : Nat} {a : Activation} {result : EStateM.Result Stop Heap Effect}
    (h : R.YieldsAt m q (s.counted steps) a result) (hgoes : s.thread.Goes) :
    R.Follows q a.iters s a result := by
  match result with
  | .ok (.proceed b) heap => exact fun hbf hbn => ⟨hgoes, m, steps, h hbf hbn⟩
  | .ok (.call b f args kwargs) heap => exact fun hbf hbn => ⟨hgoes, m, steps, h hbf hbn⟩
  | .ok (.load b name count) heap => trivial
  | .ok (.finish v) heap =>
    obtain ⟨t, b, hrun, ht, -, hits⟩ := h
    obtain ⟨steps', rfl⟩ := hgoes.of_ticks ht
    exact hits ▸ ends_of_leave (s := { s with heap }) hrun
  | .error (.error e) heap =>
    obtain ⟨t, b, hrun, ht, -, -, hits⟩ := h
    obtain ⟨steps', rfl⟩ := hgoes.of_ticks ht
    exact hits ▸ ends_of_fail (s := { s with heap }) hrun rfl
  | .error (.abort x) heap =>
    obtain ⟨t, b, hrun, -⟩ := h
    exact ⟨m, by rw [hrun]; rfl⟩

/-- An instruction that goes on to the next one is executed. -/
theorem Visits.execute (h : R.Visits q st its s) {op : Opcode} {arg : UInt32}
    (hi : R.code.graph.InsnAt q op arg) (hop : op.isCondJump = false)
    (harg : op.hasArg = false → arg = 0) :
    ∃ a : Activation, a.locals = s.locals ∧ a.stack = st ∧ a.iters = its ∧
      st.length < 2 ^ 31 ∧ R.Follows q.next its s a (a.execute R.tables op arg s.heap) := by
  obtain ⟨hgoes, n, steps, hstands⟩ := h
  obtain ⟨m, a, -, hl, hst, rfl, hlt, hyields⟩ :=
    (hstands.execute hi hop harg).reaches (hstands.goes hgoes)
  exact ⟨a, hl, hst, rfl, hlt, hyields.follows hgoes⟩

/-- A conditional jump takes the top of the stack. -/
theorem Visits.cjmp {v : Value} {t f : BlockId} (h : R.Visits q (v :: st) its s)
    (hbr : R.code.graph.BranchAt q .cjmp t f) :
    R.Visits ⟨if s.heap.truth v then t else f, 0⟩ st its s := by
  obtain ⟨hgoes, n, steps, hstands⟩ := h
  obtain ⟨m, -, hjump⟩ := (hstands.cjmp hbr).reaches (hstands.goes hgoes)
  exact ⟨hgoes, m, steps, hjump⟩

/-- The next element is pushed, or control goes to the end of the loop. -/
theorem Visits.iterJmp {it : Iter} {t f : BlockId} (h : R.Visits q st (it :: its) s)
    (hbr : R.code.graph.BranchAt q .iterJmp t f) :
    match s.heap.nextElem? it with
    | some (v, it') => R.Visits ⟨f, 0⟩ (v :: st) (it' :: its) s
    | none => R.Visits ⟨t, 0⟩ st (it :: its) s := by
  obtain ⟨hgoes, n, steps, hstands⟩ := h
  obtain ⟨m, -, hjump⟩ := (hstands.iterJmp hbr).reaches (hstands.goes hgoes)
  have hheap : (s.counted steps).heap = s.heap := rfl
  rw [hheap] at hjump
  cases hn : s.heap.nextElem? it with
  | none =>
    rw [hn] at hjump
    exact ⟨hgoes, m, steps, hjump⟩
  | some next =>
    rw [hn] at hjump
    exact ⟨hgoes, m, steps, hjump⟩

/-! ## Calls -/

/-- The function waits at a point for the outcome of a call. -/
def Awaits (R : Running p predeclared) (r : Except Error Value) (q : Point) (st : List Value)
    (its : List Iter) (s : Scene) : Prop :=
  s.thread.Goes ∧ ∃ n steps a, Machine.run n R.start =
      ⟨s.heap, s.thread.counted steps, .func a .call :: R.callers, .deliver r⟩ ∧
    a.func = R.func ∧ R.code.layout.Enters R.code.graph R.body.code a.next q ∧
    a.locals = s.locals ∧ a.stack = st ∧ a.iters = its

/-- A value that is awaited is pushed. -/
theorem Awaits.visits {v : Value} (h : R.Awaits (.ok v) q st its s) :
    R.Visits q (v :: st) its s := by
  obtain ⟨hgoes, n, steps, a, hrun, ha, hnext, hl, rfl, rfl⟩ := h
  refine ⟨hgoes, n + 1, steps, a.next, hnext, s.thread.counted steps,
    { a with stack := v :: a.stack }, ?_, .refl _, ha, rfl, hl, rfl, rfl⟩
  rw [Machine.run_succ_eq_step, hrun]
  rfl

/-- An error that is awaited ends the function. -/
theorem Awaits.ends {e e' : Error} (h : R.Awaits (.error e') q st its s) (he : e'.root = e.root) :
    R.Ends (.error e) its s := by
  obtain ⟨-, n, steps, a, hrun, -, -, -, rfl, rfl⟩ := h
  have hfail : Machine.run (n + 1) R.start =
      Machine.fail s.heap (s.thread.counted steps) (.func a .call :: R.callers) e' := by
    rw [Machine.run_succ_eq_step, hrun]
    rfl
  exact ends_of_fail hfail he

/-- A builtin that is neither `print` nor one of the host needs nothing but the heap. -/
theorem runBuiltin_standard {heap : Heap} (thread : Thread) (callers : List Frame) {r : BuiltinRef}
    (args : List Value) (kwargs : Keywords) (hprint : (heap.builtin r).op ≠ .print)
    (hhost : ¬ (heap.builtin r).op.isHost) :
    Machine.runBuiltin heap thread callers r args kwargs =
      match Op.callStandard (heap.builtin r) args kwargs heap with
      | .ok v heap => Machine.leave heap thread (Machine.builtinFrame r args kwargs :: callers) v
      | .error e heap =>
        Machine.stop heap thread (Machine.builtinFrame r args kwargs :: callers) e := by
  cases hop : (heap.builtin r).op
  case print => exact absurd hop hprint
  case host => exact absurd (hop ▸ rfl) hhost
  all_goals
    cases hcalled : Op.callStandard (heap.builtin r) args kwargs heap <;>
      simp only [Machine.runBuiltin, hop, hcalled]

/-- `print` writes a line to the thread. -/
theorem runBuiltin_print {heap : Heap} (thread : Thread) (callers : List Frame) {r : BuiltinRef}
    (args : List Value) (kwargs : Keywords) (hprint : (heap.builtin r).op = .print) :
    Machine.runBuiltin heap thread callers r args kwargs =
      match heap.printLine args kwargs with
      | .ok line => ⟨heap, thread.print line, callers, .deliver (.ok .null)⟩
      | .error e => ⟨heap, thread, callers,
          .deliver (.error
              (e.wrap (heap.callStack (Machine.builtinFrame r args kwargs :: callers))))⟩ := by
  simp only [Machine.runBuiltin, hprint]
  rfl

/-- A run has no outcome, or ends without one as well. The tree is not to blame. -/
def Excuses (R : Running p predeclared) : Loss → Prop
  | .abort x => R.Aborts x
  | .tree => False
  | _ => True

/-- The scene after an answer. -/
def Answers (R : Running p predeclared) (q : Point) (st : List Value) (its : List Iter) :
    EStateM.Result Exit Scene Value → Prop
  | .ok v s => R.Visits q (v :: st) its s
  | .error (.error e) s => R.Ends (.error e) its s
  | .error (.lost why) _ => R.Excuses why
  | .error _ _ => False

/-- What comes of a builtin. -/
theorem answers_builtin {n steps : Nat} {a : Activation} {r : BuiltinRef} {args : List Value}
    {kwargs : Keywords} (hrun : Machine.run n R.start =
      Machine.runBuiltin s.heap (s.thread.counted steps) (.func a .call :: R.callers) r args kwargs)
    (ha : a.func = R.func) (hnext : R.code.layout.Enters R.code.graph R.body.code a.next q)
    (hl : a.locals = s.locals) (hgoes : s.thread.Goes) :
    R.Answers q a.stack a.iters (Eval.callBuiltin (s.heap.builtin r) args kwargs s) := by
  unfold Eval.callBuiltin
  split
  · rename_i hprint
    rw [runBuiltin_print _ _ args kwargs hprint] at hrun
    cases hline : s.heap.printLine args kwargs with
    | ok line =>
      have hprint : Eval.print args kwargs s = .ok .null
          { s with thread := s.thread.print line } := by
        simp only [Eval.print, Eval.op, Op.check, hline, bind, EStateM.bind]
        rfl
      simp only [hline, Thread.print_counted] at hrun
      rw [hprint]
      exact Awaits.visits ⟨hgoes.print line, n, steps, a, hrun, ha, hnext, hl, rfl, rfl⟩
    | error e =>
      have hprint : Eval.print args kwargs s = .error (.error e) s := by
        simp [Eval.print, Eval.op, Op.check, hline, bind, EStateM.bind]
      rw [hline] at hrun
      rw [hprint]
      exact Awaits.ends ⟨hgoes, n, steps, a, hrun, ha, hnext, hl, rfl, rfl⟩ (Error.root_wrap _ _)
  · split
    · trivial
    · rename_i hprint hhost
      -- what the host offers is not evaluated; all others do what they do on their own
      rw [runBuiltin_standard _ _ args kwargs hprint hhost] at hrun
      unfold Eval.op
      cases hcalled : Op.callStandard (s.heap.builtin r) args kwargs s.heap with
      | ok v h =>
        rw [hcalled] at hrun
        exact Awaits.visits (s := { s with heap := h })
          ⟨hgoes, n, steps, a, hrun, ha, hnext, hl, rfl, rfl⟩
      | error e h =>
        rw [hcalled] at hrun
        cases e with
        | error e =>
          exact Awaits.ends (s := { s with heap := h })
            ⟨hgoes, n, steps, a, hrun, ha, hnext, hl, rfl, rfl⟩ (Error.root_wrap _ _)
        | abort x => exact ⟨n, by rw [hrun]; rfl⟩

/-- A call from the outermost function. -/
theorem Asks.answers (hcallers : R.callers = []) {f : Value} {args : List Value} {kwargs : Keywords}
    (h : R.Asks f args kwargs q st its s) : R.Answers q st its (Eval.call f args kwargs s) := by
  obtain ⟨hgoes, n, steps, t, a, hrun, ht, ha, hnext, hl, rfl, rfl⟩ := h
  obtain ⟨steps, rfl⟩ := hgoes.of_ticks ht
  have hstep : Machine.run (n + 1) R.start =
      Machine.invoke s.heap (s.thread.counted steps) (.func a .call :: R.callers) f args
          kwargs := by
    rw [Machine.run_succ_eq_step, hrun]
    rfl
  have hrefused : ∀ {e : Error}, Machine.run (n + 1) R.start =
        ⟨s.heap, s.thread.counted steps, .func a .call :: R.callers, .deliver (.error e)⟩ →
      R.Ends (.error e) a.iters s := fun hd =>
    Awaits.ends ⟨hgoes, n + 1, steps, a, hd, ha, hnext, hl, rfl, rfl⟩ rfl
  -- only a built-in can answer here: a function opens a frame, and anything else is refused
  cases f with
  | func r => trivial
  | builtin r =>
    have hinvoke : Eval.call (.builtin r) args kwargs s =
        if s.thread.maxDepth ≤ 1 then Eval.fail (.callDepth s.thread.maxDepth) s
        else Eval.callBuiltin (s.heap.builtin r) args kwargs s := by
      simp only [Eval.call]
      show (if _ then _ else _ : Eval Value) s = _
      split <;> rfl
    rw [hinvoke]
    by_cases hroom : s.thread.maxDepth ≤ 1
    · rw [if_pos hroom]
      refine hrefused (hstep.trans (if_pos ?_))
      rw [hcallers]
      exact hroom
    · rw [if_neg hroom]
      refine answers_builtin (hstep.trans (if_neg ?_)) ha hnext hl hgoes
      rw [hcallers]
      exact hroom
  | _ => exact hrefused hstep

end Running

end Starlark
