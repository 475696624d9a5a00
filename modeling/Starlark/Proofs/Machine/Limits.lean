import Starlark.Proofs.Machine.Inversion

/-!
# Step limits and cancellation

Every instruction counts a step before it is executed, and one that reaches the limit is not
executed but fails. With a limit in force, and functions of the host that make only so many moves in
each call, every call therefore ends: the steps that are left, the active calls and what the machine
does next are weighed by `Machine.potential`, which each step makes smaller. Once a thread is
cancelled, no instruction is executed on it any more (`Machine.step_of_cancelled`).
-/

set_option autoImplicit false

namespace Starlark

open Relation (ReflTransGen)

/-! ## Counting a step -/

namespace Thread

theorem Persists.write (t : Thread) (line : String) : t.Persists (t.write line) :=
  ⟨rfl, rfl, rfl, rfl, rfl, rfl, fun _ => id⟩

/-- What happens at the limit cancels the thread, writes, or does nothing. -/
theorem persists_atLimit (t : Thread) : t.Persists t.atLimit := by
  unfold atLimit
  split
  · exact .cancel t _
  · exact .cancel t _
  · exact .write t _
  · split
    · exact .cancel t _
    · exact .refl t

/-- A tick counts a step, and may cancel and write lines. -/
theorem persists_tick (t : Thread) : Persists { t with steps := t.steps + 1 } t.tick := by
  unfold tick
  dsimp only
  split
  · exact persists_atLimit _
  · exact .refl _

/-- A thread that was cancelled has a reason. -/
theorem cancelled_cancel_ne_none (t : Thread) (reason : String) :
    (t.cancel reason).cancelled ≠ none := by
  cases hc : t.cancelled with
  | none => simp [cancelled_cancel_of_none hc]
  | some first => simp [cancel_of_cancelled hc, hc]

/-- An instruction gets past the tick below the limit only. -/
theorem steps_lt_of_tick {t : Thread} {n : Nat} (hlimit : t.limit = some n)
    (hhook : t.onLimit = none)
    (hlive : t.tick.cancelled = none) : t.steps + 1 < n := by
  refine Nat.lt_of_not_le fun hle => ?_
  have hreached : limitReached { t with steps := t.steps + 1 } = true := by
    simp [limitReached, hlimit, hle]
  have htick : t.tick = cancel { t with steps := t.steps + 1 } "too many steps" := by
    rw [tick, if_pos hreached]
    simp only [atLimit, hhook]
  rw [htick] at hlive
  exact cancelled_cancel_ne_none _ _ hlive

@[simp] theorem maxDepth_takeTurn (t : Thread) : t.takeTurn.maxDepth = t.maxDepth := rfl

end Thread

/-! ## Functions of the host that end -/

/-- A function of the host that made so many moves in a call makes no more than `bound`, and leaves
the step limit alone. -/
def HostMove.IsModest (bound moves : Nat) : HostMove → Prop
  | .finish _ => True
  | .steer (.setLimit _) | .steer (.setOnLimit _) => False
  | .act _ | .steer _ | .call _ _ _ => moves < bound

/-- A function of the host makes at most `bound` moves in each call. -/
def HostCode.IsModest (bound : Nat) (code : HostCode) : Prop :=
  ∀ v, (code v).IsModest bound v.log.length

/-- All functions of the host are like that. -/
def Thread.IsModest (bound : Nat) (t : Thread) : Prop := ∀ i, (t.host i).IsModest bound

/-- Functions of a modest host make a modest move each time. -/
theorem Thread.IsModest.move {bound : Nat} {t : Thread} (hm : t.IsModest bound) (h : Heap)
    (stack : CallStack) (b : BuiltinObj) (run : HostRun) :
    (t.move h stack b run).IsModest bound run.log.length := by
  unfold Thread.move
  split
  · rename_i code _
    exact hm code (t.view h stack b.receiver run)
  · trivial

/-- Modest steering leaves the limit alone. -/
theorem HostMove.IsModest.steer {bound moves : Nat} {s : Steering}
    (hm : (HostMove.steer s).IsModest bound moves) (t : Thread) (h : Heap) :
    moves < bound ∧ (t.steer h s).limit = t.limit ∧ (t.steer h s).onLimit = t.onLimit := by
  cases s with
  | cancel reason =>
    have hp := Thread.Persists.cancel t reason
    exact ⟨hm, hp.limit, hp.onLimit⟩
  | print message =>
    have hp := Thread.Persists.print t message
    exact ⟨hm, hp.limit, hp.onLimit⟩
  | setLimit steps => exact hm.elim
  | setOnLimit hook => exact hm.elim
  | setLoader loader =>
    refine ⟨hm, ?_⟩
    rw [Thread.steer]
    split
    · exact ⟨rfl, rfl⟩
    · exact ⟨rfl, rfl⟩

/-- The functions of the small host make one move at most. -/
theorem HostCode.isModest_ofLibrary (i : Nat) : (ofLibrary i).IsModest 1 := by
  intro v
  have hsmall := isSmall_ofLibrary i v
  generalize ofLibrary i v = move at hsmall ⊢
  cases hsmall with
  | cancels _ hlog | freezes hlog | calls hlog => simp [HostMove.IsModest, hlog]
  | gives | fails | handsOn | catches => trivial

/-! ## Steps of a limited thread -/

namespace Machine

/-- The next step executes an instruction. -/
def executes (m : Machine) : Bool :=
  match m.control, m.frames with
  | .exec, .func _ _ :: _ => m.thread.tick.cancelled.isNone
  | _, _ => false

/-- What a step leaves of the thread: its code of the host, the bound for its calls and, once there
is one, the reason for which it was cancelled. -/
structure Ticks (m m' : Machine) : Prop where
  host : m'.thread.host = m.thread.host
  maxDepth : m'.thread.maxDepth = m.thread.maxDepth
  cancelled : ∀ reason, m.thread.cancelled = some reason → m'.thread.cancelled = some reason
  steps_le : m.thread.steps ≤ m'.thread.steps
  steps_eq : m.executes = true → m'.thread.steps = m.thread.steps + 1

/-- An instruction is executed where one is due and the thread is not cancelled. -/
theorem executes_iff {m : Machine} : m.executes = true ↔
    m.control = .exec ∧ (∃ a pending callers, m.frames = .func a pending :: callers) ∧
      m.thread.tick.cancelled = none := by
  unfold executes
  split
  · rename_i hc hf
    simp [hc, hf, Option.isNone_iff_eq_none]
  · rename_i hne
    refine iff_of_false Bool.false_ne_true ?_
    rintro ⟨hc, ⟨a, pending, callers, hf⟩, -⟩
    exact hne a pending callers hc hf

theorem clock_of_exec {m : Machine} (hm : m.control = .exec) : m.clock = m.thread.tick := by
  simp only [clock, hm]

/-- Where no instruction is due, nothing is counted. -/
theorem ticks_of_handled {m m' : Machine} {h : Heap} (hm : m.control ≠ .exec)
    (ht : m.thread.Handled h m'.thread) : m.Ticks m' :=
  ⟨ht.host, ht.maxDepth, ht.cancelled, Nat.le_of_eq ht.steps.symm,
    fun hx => absurd (executes_iff.1 hx).1 hm⟩

theorem persists_clock {m : Machine} (hm : m.control ≠ .exec) : m.thread.Persists m.clock := by
  unfold clock
  split
  · rename_i hc
    exact absurd hc hm
  · exact .takeTurn _
  · exact .refl _

/-- A step behind which the thread is as its clock says counts as it should. -/
theorem ticks_of_clock {m m' : Machine} (hm : m'.thread = m.clock) : m.Ticks m' := by
  by_cases hexec : m.control = .exec
  · rw [clock_of_exec hexec] at hm
    obtain ⟨hsteps, -, hdepth, -, -, hhost, hcancelled⟩ := m.thread.persists_tick
    exact ⟨hm ▸ hhost, hm ▸ hdepth, hm ▸ hcancelled, hm ▸ hsteps ▸ Nat.le_succ _, fun _ =>
        hm ▸ hsteps⟩
  · exact ticks_of_handled hexec (hm ▸ (persists_clock hexec).handled m.heap)

/-- Each step of the machine counts at most one step of the thread. -/
theorem Next.ticks {m m' : Machine} (hn : m.Next m') : m.Ticks m' := by
  cases hn with
  | halt _ hidle _ =>
    refine ⟨rfl, rfl, fun _ => id, Nat.le_refl _, fun hx => ?_⟩
    obtain ⟨hexec, ⟨a, pending, callers, hframes⟩, -⟩ := executes_iff.1 hx
    exact absurd hframes (hidle hexec a pending callers)
  | leave => exact ticks_of_clock rfl
  | resume => exact ticks_of_clock rfl
  | back hcontrol _ ht =>
    exact ticks_of_handled (by rw [hcontrol]; exact nofun) (ht.handled m.heap)
  | enter hcontrol =>
    exact ticks_of_handled (by rw [hcontrol]; exact nofun) ((Thread.Persists.refl _).handled m.heap)
  | answer _ hcontrol =>
    exact ticks_of_handled (by rw [hcontrol]; exact nofun) ((Thread.Persists.refl _).handled m.heap)
  | turn _ hcontrol _ ht => exact ticks_of_handled (by rw [hcontrol]; exact nofun) ht

/-- Unless a function of the host has the turn, a step leaves alone what a host sets up. -/
theorem Next.setup_eq {m m' : Machine} (hn : m.Next m') (hm : m.control ≠ .host) :
    m'.thread.limit = m.thread.limit ∧ m'.thread.onLimit = m.thread.onLimit ∧
      m'.thread.loader = m.thread.loader := by
  have hclock : m.clock.limit = m.thread.limit ∧ m.clock.onLimit = m.thread.onLimit ∧
      m.clock.loader = m.thread.loader := by
    by_cases hexec : m.control = .exec
    · have htick := m.thread.persists_tick
      rw [clock_of_exec hexec]
      exact ⟨htick.limit, htick.onLimit, htick.loader⟩
    · have hp := persists_clock hexec
      exact ⟨hp.limit, hp.onLimit, hp.loader⟩
  cases hn with
  | halt => exact ⟨rfl, rfl, rfl⟩
  | leave => exact hclock
  | resume => exact hclock
  | back _ _ ht => exact ⟨ht.limit, ht.onLimit, ht.loader⟩
  | enter => exact ⟨rfl, rfl, rfl⟩
  | answer => exact ⟨rfl, rfl, rfl⟩
  | turn _ hcontrol => exact absurd hcontrol hm

theorem finish_thread (heap : Heap) (thread : Thread) (frame : Frame) (callers : List Frame)
    (o : Except Error Value) : (finish heap thread (frame :: callers) o).thread = thread := by
  cases o with
  | ok v => rfl
  | error e => rfl

/-- What a host sets up stays as it is, unless one of its functions steers the thread. -/
theorem setup_step (m : Machine) :
    (m.step.thread.limit = m.thread.limit ∧ m.step.thread.onLimit = m.thread.onLimit ∧
      m.step.thread.loader = m.thread.loader) ∨
    ∃ s, m.Chooses (.steer s) ∧ m.step.thread = m.thread.takeTurn.steer m.heap s := by
  -- nobody but a host function changes the limits, and it does so by steering
  by_cases hhost : m.control = .host
  · have hsteps := steps_step m
    obtain ⟨heap, thread, frames, control⟩ := m
    cases hhost
    generalize step _ = m' at hsteps ⊢
    cases hsteps with
    | rests => exact .inl ⟨rfl, rfl, rfl⟩
    | done hdone => cases hdone
    | @hosts _ _ r run callers _ h =>
      cases h with
      | acts | errs | aborts | calls => exact .inl ⟨rfl, rfl, rfl⟩
      | @steers s hmove => exact .inr ⟨s, ⟨rfl, r, run, callers, rfl, hmove⟩, rfl⟩
      | finishes =>
        rw [finish_thread]
        exact .inl ⟨rfl, rfl, rfl⟩
  · exact .inl (m.next_step.setup_eq hhost)

/-- Modest functions of the host leave the limit and the hook alone, as every step does. -/
theorem limit_step {m : Machine} {bound : Nat} (hmodest : m.thread.IsModest bound) :
    m.step.thread.limit = m.thread.limit ∧ m.step.thread.onLimit = m.thread.onLimit := by
  rcases m.setup_step with ⟨hlimit, honLimit, -⟩ | ⟨s, ⟨-, r, run, callers, -, hmove⟩, hthread⟩
  · exact ⟨hlimit, honLimit⟩
  · have hsteer := hmodest.move m.heap (m.heap.callStack (.builtin r run :: callers))
      (m.heap.builtin r) run
    rw [hmove] at hsteer
    rw [hthread]
    exact (hsteer.steer m.thread.takeTurn m.heap).2

/-- A step leaves the loader alone, unless a function of the host sets one. -/
theorem loader_step (m : Machine) : m.step.thread.loader = m.thread.loader ∨
    ∃ loader, m.Chooses (.steer (.setLoader loader)) ∧ m.step.thread.loader = loader := by
  rcases m.setup_step with ⟨-, -, hloader⟩ | ⟨s, hmove, hthread⟩
  · exact .inl hloader
  · rw [hthread]
    cases s with
    | cancel reason => exact .inl (Thread.Persists.cancel m.thread.takeTurn reason).loader
    | print message => exact .inl (Thread.Persists.print m.thread.takeTurn message).loader
    | setLimit steps => exact .inl rfl
    | setOnLimit hook => exact .inl rfl
    | setLoader loader =>
      by_cases hin : Thread.areIn m.heap (loader.getD []) = true
      · exact .inr ⟨loader, hmove, by rw [Thread.steer, if_pos hin]⟩
      · exact .inl (by rw [Thread.steer, if_neg hin]; rfl)

/-- The host stays modest. -/
theorem IsModest.step {m : Machine} {bound : Nat} (hmodest : m.thread.IsModest bound) :
    m.step.thread.IsModest bound := by
  intro i
  rw [m.next_step.ticks.host]
  exact hmodest i

end Machine

/-! ## Every call ends -/

/-- What a call costs that has room for so many others, if functions of the host make at most
`bound` moves in it. -/
def callCost (bound : Nat) : Nat → Nat
  | 0 => 3
  | room + 1 => 4 + (bound + 1) * callCost bound room

/-- A call costs its start and its end. -/
theorem three_le_callCost (bound room : Nat) : 3 ≤ callCost bound room := by
  cases room with
  | zero => exact Nat.le_refl 3
  | succ room => exact Nat.le_trans (by decide) (Nat.le_add_right 4 _)

/-- Calls cost more where there is more room for calls in them. -/
theorem callCost_mono (bound : Nat) {room room' : Nat} (h : room ≤ room') :
    callCost bound room ≤ callCost bound room' := by
  induction h with
  | refl => exact Nat.le_refl _
  | step _ ih =>
    rw [callCost, Nat.succ_mul]
    omega

/-- What an active call costs that has room for so many others: a function of the host may still
make the moves that are left to it. -/
def Frame.cost (bound room : Nat) : Frame → Nat
  | .func _ _ => 2
  | .builtin _ run => 2 + (bound - run.log.length) * callCost bound room

/-- A frame costs its end. -/
theorem Frame.two_le_cost (bound room : Nat) (frame : Frame) : 2 ≤ frame.cost bound room := by
  cases frame with
  | func a pending => exact Nat.le_refl 2
  | builtin r run => exact Nat.le_add_right 2 _

/-- A frame costs at most the turns that are left to it. -/
theorem Frame.cost_le (bound room : Nat) (frame : Frame) :
    frame.cost bound room ≤ 2 + bound * callCost bound room := by
  cases frame with
  | func a pending => exact Nat.le_add_right 2 _
  | builtin r run => exact Nat.add_le_add_left (Nat.mul_le_mul_right _ (Nat.sub_le _ _)) 2

/-- What a function of the host may still do in its turn. -/
def HostRun.turnCost (bound room : Nat) (run : HostRun) : Nat :=
  if run.log.length < bound then 1 + callCost bound room else 1

/-- A turn costs at most a call and the turn itself. -/
theorem HostRun.turnCost_le (bound room : Nat) (run : HostRun) :
    run.turnCost bound room ≤ 1 + callCost bound room := by
  unfold turnCost
  split
  · exact Nat.le_refl _
  · exact Nat.le_add_right 1 _

/-- Once a move is done the turn that comes of it is paid for. -/
theorem HostRun.cost_note (bound room : Nat) (r : BuiltinRef) (run run' : HostRun)
    (hlog : run'.log.length = run.log.length + 1) :
    Frame.cost bound room (.builtin r run') + run'.turnCost bound room ≤
      Frame.cost bound room (.builtin r run) + 1 := by
  have hpos := three_le_callCost bound room
  simp only [Frame.cost, turnCost, hlog]
  split
  · rename_i hlt
    have hleft : bound - run.log.length = bound - (run.log.length + 1) + 1 := by omega
    rw [hleft, Nat.succ_mul]
    omega
  · have hle : (bound - (run.log.length + 1)) * callCost bound room ≤
        (bound - run.log.length) * callCost bound room := Nat.mul_le_mul_right _ (by omega)
    omega

namespace Machine

/-- What the active calls cost, if `depth` of them can be active. -/
def framesCost (bound depth : Nat) : List Frame → Nat
  | [] => 0
  | frame :: callers =>
    frame.cost bound (depth - (callers.length + 1)) + framesCost bound depth callers

/-- What is still to be done in the innermost call before the next instruction. -/
def effort (bound : Nat) (m : Machine) : Nat :=
  match m.control with
  | .exec => 1
  | .deliver _ => 2
  | .invoke _ _ _ => callCost bound (m.thread.maxDepth - m.frames.length)
  | .host =>
    match m.frames with
    | .builtin _ run :: _ => run.turnCost bound (m.thread.maxDepth - m.frames.length)
    | _ => 2
  | .finished _ | .aborted _ => 0

section Effort

variable (bound : Nat) (heap : Heap) (thread : Thread) (frames : List Frame)

@[simp] theorem effort_exec : effort bound ⟨heap, thread, frames, .exec⟩ = 1 := rfl

@[simp] theorem effort_deliver (r : Except Error Value) :
    effort bound ⟨heap, thread, frames, .deliver r⟩ = 2 := rfl

@[simp] theorem effort_invoke (f : Value) (args : List Value) (kwargs : Keywords) :
    effort bound ⟨heap, thread, frames, .invoke f args kwargs⟩ =
      callCost bound (thread.maxDepth - frames.length) := rfl

@[simp] theorem effort_host (r : BuiltinRef) (run : HostRun) :
    effort bound ⟨heap, thread, .builtin r run :: frames, .host⟩ =
      run.turnCost bound (thread.maxDepth - (frames.length + 1)) := rfl

@[simp] theorem effort_finished (r : Except Error Value) :
    effort bound ⟨heap, thread, frames, .finished r⟩ = 0 := rfl

@[simp] theorem effort_aborted (x : Abort) :
    effort bound ⟨heap, thread, frames, .aborted x⟩ = 0 := rfl

end Effort

/-- A bound for the steps of a machine whose thread has a step limit. -/
def potential (bound limit : Nat) (m : Machine) : Nat :=
  (1 + callCost bound m.thread.maxDepth) * (limit - m.thread.steps) +
    framesCost bound m.thread.maxDepth m.frames + m.effort bound

/-- Where something is left to do, there is effort left. -/
theorem effort_pos {m : Machine} (hm : m.isDone = false) (bound : Nat) : 0 < m.effort bound := by
  obtain ⟨heap, thread, frames, control⟩ := m
  cases control with
  | exec => exact Nat.one_pos
  | deliver r => exact Nat.two_pos
  | invoke f args kwargs => exact Nat.lt_of_lt_of_le (by decide) (three_le_callCost bound _)
  | host =>
    cases frames with
    | nil => exact Nat.two_pos
    | cons frame callers =>
      cases frame with
      | func a pending => exact Nat.two_pos
      | builtin r run =>
        rw [effort_host, HostRun.turnCost]
        split
        · exact Nat.lt_of_lt_of_le Nat.one_pos (Nat.le_add_right 1 _)
        · exact Nat.one_pos
  | finished r => cases hm
  | aborted x => cases hm

/-- What the steps that are left allow for gets smaller with each instruction, and never larger. -/
theorem Ticks.allowance {m m' : Machine} (ht : m.Ticks m') {limit : Nat}
    (hlimit : m.thread.limit = some limit) (hhook : m.thread.onLimit = none) (cost : Nat) :
    cost * (limit - m'.thread.steps) + (if m.executes then cost else 0) ≤
      cost * (limit - m.thread.steps) := by
  split
  · rename_i hx
    have hsteps := Thread.steps_lt_of_tick hlimit hhook (executes_iff.1 hx).2.2
    rw [← Nat.mul_succ, ht.steps_eq hx]
    exact Nat.mul_le_mul_left _ (by omega)
  · exact Nat.mul_le_mul_left _ (Nat.sub_le_sub_left ht.steps_le limit)

/-- What is done in the turn of a function of the host costs less than the turn. -/
theorem Hosts.cost_lt {heap : Heap} {thread : Thread} {callers : List Frame} {r : BuiltinRef}
    {run : HostRun} {m : Machine} {bound : Nat} (h : Hosts heap thread callers r run m)
    (hmodest : thread.IsModest bound) :
    framesCost bound thread.maxDepth m.frames + m.effort bound <
      framesCost bound thread.maxDepth (.builtin r run :: callers) +
        run.turnCost bound (thread.maxDepth - (callers.length + 1)) := by
  have hmove := hmodest.move heap (heap.callStack (.builtin r run :: callers)) (heap.builtin r) run
  generalize hroom : thread.maxDepth - (callers.length + 1) = room
  have hthree := three_le_callCost bound room
  -- while moves are left, a turn can pay for a call
  have hturn : run.log.length < bound → run.turnCost bound room = 1 + callCost bound room :=
    fun hlt => if_pos hlt
  have hnote : ∀ run' : HostRun, run'.log.length = run.log.length + 1 → run.log.length < bound →
      framesCost bound thread.maxDepth (.builtin r run' :: callers) + run'.turnCost bound room <
        framesCost bound thread.maxDepth (.builtin r run :: callers) + run.turnCost bound room := by
    intro run' hlog hlt
    have hcost := HostRun.cost_note bound room r run run' hlog
    simp only [framesCost, hroom, hturn hlt]
    omega
  cases h with
  | acts hact =>
    rw [hact] at hmove
    simp only [effort_host, Thread.maxDepth_takeTurn, hroom]
    refine hnote _ ?_ hmove
    rfl
  | errs hact =>
    rw [hact] at hmove
    simp only [effort_host, Thread.maxDepth_takeTurn, hroom]
    refine hnote _ ?_ hmove
    rfl
  | aborts hact =>
    rw [hact] at hmove
    simp only [effort_aborted, framesCost, Frame.cost, hturn hmove]
    omega
  | @steers s hsteer =>
    rw [hsteer] at hmove
    have hdepth := (thread.takeTurn.handled_steer heap s).maxDepth
    simp only [effort_host, hdepth, Thread.maxDepth_takeTurn, hroom]
    refine hnote _ ?_ (hmove.steer thread heap).1
    rfl
  | calls hcall =>
    rw [hcall] at hmove
    simp only [effort_invoke, List.length_cons, Thread.maxDepth_takeTurn, hroom, hturn hmove]
    omega
  | @finishes o =>
    have htwo := Frame.two_le_cost bound room (.builtin r run)
    have hone : 0 < run.turnCost bound room := by
      unfold HostRun.turnCost
      split
      · omega
      · exact Nat.one_pos
    have heq : framesCost bound thread.maxDepth
          (finish heap thread.takeTurn (.builtin r run :: callers) o).frames +
        (finish heap thread.takeTurn (.builtin r run :: callers) o).effort bound =
          framesCost bound thread.maxDepth callers + 2 := by
      cases o with
      | ok v => rfl
      | error e => rfl
    rw [heq, framesCost, hroom]
    omega

/-- What a step does costs less than what was to be done, unless an instruction is executed: that
pays for a call. -/
theorem Next.cost_lt {m m' : Machine} (hn : m.Next m') (hhost : m.control ≠ .host)
    (hm : m.isDone = false) (bound : Nat) :
    framesCost bound m.thread.maxDepth m'.frames + m'.effort bound <
      framesCost bound m.thread.maxDepth m.frames + m.effort bound +
        if m.executes then 1 + callCost bound m.thread.maxDepth else 0 := by
  have hpos := effort_pos hm bound
  have hdepth := hn.ticks.maxDepth
  obtain ⟨heap, thread, frames, control⟩ := m
  -- what a step spends is paid by the frame it leaves or resumes, except for an instruction, which
  -- pays with its count
  cases hn with
  | halt hc _ _ =>
    rcases hc with ⟨r, rfl⟩ | ⟨x, rfl⟩
    · simp only [effort_finished]
      omega
    · simp only [effort_aborted]
      omega
  | @leave frame callers h r hframes =>
    dsimp only at hframes ⊢
    have htwo := Frame.two_le_cost bound (thread.maxDepth - (callers.length + 1)) frame
    simp only [hframes, framesCost, effort_deliver] at hpos ⊢
    omega
  | @resume a b pending pending' callers h c hframes _ _ hlive hc =>
    cases hframes
    have hexec :
        control = .exec → executes ⟨heap, thread, .func a pending :: callers, control⟩ = true :=
      fun hexec => executes_iff.2 ⟨hexec, ⟨_, _, _, rfl⟩, by
        rw [← clock_of_exec (m := ⟨heap, thread, .func a pending :: callers, control⟩) hexec]
        exact hlive hexec⟩
    dsimp only at hdepth
    rcases hc with ⟨rfl, hne⟩ | ⟨f, args, kwargs, rfl, hcontrol⟩ | ⟨x, rfl⟩
    · cases control with
      | exec =>
        simp only [framesCost, Frame.cost, effort_exec, if_pos (hexec rfl)]
        omega
      | deliver r =>
        simp only [framesCost, Frame.cost, effort_exec, effort_deliver]
        omega
      | host => exact absurd rfl hhost
      | invoke f args kwargs => exact absurd rfl (hne f args kwargs)
      | finished r => cases hm
      | aborted x => cases hm
    · cases hcontrol
      have hle := callCost_mono bound (Nat.sub_le thread.maxDepth (callers.length + 1))
      simp only [framesCost, Frame.cost, effort_exec, effort_invoke, List.length_cons, hdepth,
        if_pos (hexec rfl)]
      omega
    · simp only [framesCost, Frame.cost, effort_aborted] at hpos ⊢
      omega
  | @back f args kwargs h t r hcontrol =>
    cases hcontrol
    have hthree := three_le_callCost bound (thread.maxDepth - frames.length)
    simp only [effort_deliver, effort_invoke]
    omega
  | @enter f args kwargs frame h c hcontrol _ hframe hc =>
    cases hcontrol
    have hroom : frames.length < thread.maxDepth := hframe.1
    obtain ⟨room, hsub⟩ := Nat.exists_eq_add_of_lt hroom
    have hbefore : thread.maxDepth - frames.length = room + 1 := by omega
    have hafter : thread.maxDepth - (frames.length + 1) = room := by omega
    have hthree := three_le_callCost bound room
    have hframecost := frame.cost_le bound room
    -- the new frame lives in one room less, which the cost of the call has counted already
    have heffort : effort bound ⟨h, thread, frame :: frames, c⟩ ≤ 1 + callCost bound room := by
      cases frame with
      | func a pending =>
        rcases hc with rfl | ⟨x, rfl⟩
        · simp
        · simp
      | builtin r run =>
        rcases hc with rfl | ⟨x, rfl⟩
        · rw [effort_host, hafter]
          exact run.turnCost_le bound room
        · simp
    simp only [framesCost, effort_invoke, hbefore, hafter, callCost, Nat.succ_mul]
    omega
  | @answer r run callers o hframes hcontrol =>
    cases hframes
    cases hcontrol
    have hcost := HostRun.cost_note bound (thread.maxDepth - (callers.length + 1)) r run
        (run.note o) rfl
    simp only [framesCost, effort_deliver, effort_host]
    omega
  | turn _ hcontrol => exact absurd hcontrol hhost

/-- A step makes the potential smaller. -/
theorem potential_step {m : Machine} {bound limit : Nat} (hmodest : m.thread.IsModest bound)
    (hlimit : m.thread.limit = some limit) (hhook : m.thread.onLimit = none)
    (hm : m.isDone = false) : m.step.potential bound limit < m.potential bound limit := by
  have hticks := m.next_step.ticks
  have hallowed := hticks.allowance hlimit hhook (1 + callCost bound m.thread.maxDepth)
  -- the work left falls at each step, but for an instruction, for which the allowance falls
  have hcost : framesCost bound m.thread.maxDepth m.step.frames + m.step.effort bound <
      framesCost bound m.thread.maxDepth m.frames + m.effort bound +
        if m.executes then 1 + callCost bound m.thread.maxDepth else 0 := by
    by_cases hhost : m.control = .host
    · have hsteps := steps_step m
      obtain ⟨heap, thread, frames, control⟩ := m
      cases hhost
      generalize step _ = m' at hsteps ⊢
      cases hsteps with
      | hosts h => exact Nat.lt_of_lt_of_le (h.cost_lt hmodest) (Nat.le_add_right _ _)
      | rests hrest =>
        have hpos := effort_pos hm bound
        simp only [effort_finished]
        omega
      | done hdone => cases hdone
    · exact m.next_step.cost_lt hhost hm bound
  simp only [potential, hticks.maxDepth]
  omega

/-- With a step limit in force every run ends, if the functions of the host are modest. -/
theorem exists_isDone {m : Machine} {bound limit : Nat} (hmodest : m.thread.IsModest bound)
    (hlimit : m.thread.limit = some limit) (hhook : m.thread.onLimit = none) :
    ∃ fuel, (run fuel m).isDone = true := by
  generalize hp : m.potential bound limit = p
  induction p using Nat.strongRecOn generalizing m with
  | ind p ih =>
    cases hm : m.isDone with
    | true => exact ⟨0, hm⟩
    | false =>
      obtain ⟨hlimit', hhook'⟩ := limit_step hmodest
      obtain ⟨fuel, hdone⟩ := ih _ (hp ▸ potential_step hmodest hlimit hhook hm)
        (IsModest.step hmodest) (hlimit'.trans hlimit) (hhook'.trans hhook) rfl
      exact ⟨fuel + 1, by simpa only [run, hm, Bool.false_eq_true, if_false] using hdone⟩

/-! ## Executed instructions -/

/-- The instructions that are executed in the next steps. -/
def executed : Nat → Machine → Nat
  | 0, _ => 0
  | k + 1, m => (if m.executes then 1 else 0) + executed k m.step

/-- If no more instructions were executed than steps counted, then no more will be, and as many as
the limit allows are never reached. -/
theorem executed_le {m : Machine} {moves limit bound n : Nat} (hmodest : m.thread.IsModest moves)
    (hlimit : m.thread.limit = some limit) (hle : limit ≤ bound) (hhook : m.thread.onLimit = none)
    (hsteps : n ≤ m.thread.steps) (hn : n < bound) (k : Nat) :
    n + executed k m ≤ (run k m).thread.steps ∧ n + executed k m < bound := by
  -- on the run, with `n` the instructions executed before it
  induction k generalizing m n with
  | zero => exact ⟨hsteps, hn⟩
  | succ k ih =>
    have hticks := m.next_step.ticks
    have hmodest' := IsModest.step hmodest
    have hlimit' := (limit_step hmodest).1.trans hlimit
    have hhook' := (limit_step hmodest).2.trans hhook
    rw [run_succ, executed, ← Nat.add_assoc]
    cases hx : m.executes with
    | false => exact ih hmodest' hlimit' hhook' (Nat.le_trans hsteps hticks.steps_le) hn
    | true =>
      have hcount := hticks.steps_eq hx
      have hbelow := Thread.steps_lt_of_tick hlimit hhook (executes_iff.1 hx).2.2
      have hsteps' : n + 1 ≤ m.step.thread.steps := by omega
      have hn' : n + 1 < bound := by omega
      exact ih hmodest' hlimit' hhook' hsteps' hn'

/-- A modest host never changes the limit. -/
theorem run_limit {m : Machine} {moves : Nat} (hmodest : m.thread.IsModest moves) (k : Nat) :
    (run k m).thread.limit = m.thread.limit ∧ (run k m).thread.onLimit = m.thread.onLimit ∧
      (run k m).thread.IsModest moves := by
  induction k generalizing m with
  | zero => exact ⟨rfl, rfl, hmodest⟩
  | succ k ih =>
    rw [run_succ]
    obtain ⟨hlimit, hhook⟩ := limit_step hmodest
    obtain ⟨hlimit', hhook', hmodest'⟩ := ih (IsModest.step hmodest)
    exact ⟨hlimit'.trans hlimit, hhook'.trans hhook, hmodest'⟩

end Machine

/-! ## The life of a thread -/

/-- Calls on one thread, one after another and on any heaps, each of which ran for some steps; in
between the host steers the thread, but neither raises its step limit nor sets a hook for it. The
instructions that were executed are counted. -/
inductive Thread.Life (t : Thread) : Nat → Thread → Prop where
  | start : Life t 0 t
  | call {n : Nat} {t' : Thread} (hl : Life t n t') (heap : Heap) (f : Value) (args : List Value)
      (kwargs : Keywords) (k : Nat) :
      Life t (n + Machine.executed k (.start heap t' f args kwargs))
        (Machine.call k heap t' f args kwargs).thread
  | steer {n : Nat} {t' : Thread} (hl : Life t n t') (h : Heap) (s : Steering)
      (hlimit : ∀ limit, t'.limit = some limit → ∃ lower ≤ limit, (t'.steer h s).limit = some lower)
      (hhook : (t'.steer h s).onLimit = none) : Life t n (t'.steer h s)

/-- In the life of a limited thread fewer instructions are counted than the limit says. -/
theorem Thread.Life.limited {t t' : Thread} {n limit moves : Nat} (hl : t.Life n t')
    (hmodest : t.IsModest moves) (hlimit : t.limit = some limit) (hpos : 0 < limit)
    (hhook : t.onLimit = none) :
    n < limit ∧ n ≤ t'.steps ∧ (∃ lower ≤ limit, t'.limit = some lower) ∧ t'.onLimit = none ∧
      t'.IsModest moves := by
  -- on the thread's life; what steers it in between may only lower the limit
  induction hl with
  | start => exact ⟨hpos, Nat.zero_le _, ⟨limit, Nat.le_refl _, hlimit⟩, hhook, hmodest⟩
  | @call n t' _ heap f args kwargs k ih =>
    obtain ⟨hn, hsteps, ⟨lower, hle, hlower⟩, hnone, hmodest'⟩ := ih
    obtain ⟨hrunlimit, hrunhook, hrunmodest⟩ :=
      Machine.run_limit (m := .start heap t' f args kwargs) hmodest' k
    obtain ⟨hcount, hless⟩ :=
      Machine.executed_le (m := .start heap t' f args kwargs) hmodest' hlower hle hnone hsteps hn k
    exact ⟨hless, hcount, ⟨lower, hle, hrunlimit.trans hlower⟩, hrunhook.trans hnone, hrunmodest⟩
  | @steer n t' _ h s hlower hnone ih =>
    obtain ⟨hn, hsteps, ⟨lower, hle, hsome⟩, -, hmodest'⟩ := ih
    obtain ⟨lowest, hle', hsome'⟩ := hlower lower hsome
    have hhandled := t'.handled_steer h s
    refine ⟨hn, hhandled.steps ▸ hsteps, ⟨lowest, Nat.le_trans hle' hle, hsome'⟩, hnone,
        fun i => ?_⟩
    rw [hhandled.host]
    exact hmodest' i

/-! ## Cancelled threads -/

namespace Machine

/-- A machine goes on, or its thread is steered, by whomever. -/
inductive Goes (m : Machine) : Machine → Prop where
  | step : Goes m m.step
  | steer (h : Heap) (s : Steering) : Goes m { m with thread := m.thread.steer h s }

/-- A reason for cancelling stays the first one. -/
theorem cancelled_goes {m m' : Machine} (hg : ReflTransGen Goes m m') {reason : String}
    (hc : m.thread.cancelled = some reason) : m'.thread.cancelled = some reason := by
  induction hg with
  | refl => exact hc
  | tail _ hg ih =>
    cases hg with
    | step => exact (next_step _).ticks.cancelled reason ih
    | steer h s => exact (Thread.handled_steer _ h s).cancelled reason ih

/-- On a cancelled thread an instruction fails with the reason before it is executed. -/
theorem step_of_cancelled {m : Machine} {reason : String} (hc : m.thread.cancelled = some reason)
    (hexec : m.control = .exec) {a : Activation} {pending : Pending} {callers : List Frame}
    (hframes : m.frames = .func a pending :: callers) :
    m.step = fail m.heap m.thread.tick (.func a .call :: callers) (.cancelled reason) := by
  obtain ⟨heap, thread, frames, control⟩ := m
  cases hexec
  cases hframes
  simp only [step, exec, Thread.cancelled_tick hc]

end Machine

/-- Step limits and cancellation. On a thread with a step limit `limit`, whose functions of the host
make only so many moves in a call, every call ends, and less than `limit` instructions are executed
in its whole life. A call ends with a value or an error unless it is given up, because the code is
malformed or because the running index of a slice leaves the integers. On a thread that is cancelled
for a reason, every instruction fails with it and none is executed, whatever the host does to the
thread. -/
theorem Thread.steps_bounded {t t' : Thread} {limit n moves : Nat} (hmodest : t.IsModest moves)
    (hlimit : t.limit = some limit) (hpos : 0 < limit) (hhook : t.onLimit = none)
    (hl : t.Life n t') :
    n ≤ limit - 1 ∧
    (∀ heap f args kwargs, ∃ fuel, ∀ m, m = Machine.call fuel heap t' f args kwargs →
      m.isDone = true ∧ ∀ x, m.control = .aborted x → x ≠ .sliceIndex →
        x = .tableIndex ∨ x = .parameterCount) ∧
    (∀ (m m' : Machine) (reason : String), m.thread.cancelled = some reason →
      ReflTransGen Machine.Goes m m' →
        m'.thread.tick.cancelled = some reason ∧ m'.executes = false ∧
        ∀ a pending callers, m'.control = .exec → m'.frames = .func a pending :: callers →
          m'.step = .fail m'.heap m'.thread.tick (.func a .call :: callers)
              (.cancelled reason)) := by
  obtain ⟨hn, -, ⟨lower, -, hlower⟩, hnone, hmodest'⟩ := hl.limited hmodest hlimit hpos hhook
  refine ⟨Nat.le_pred_of_lt hn, fun heap f args kwargs => ?_, fun m m' reason hc hg => ?_⟩
  · obtain ⟨fuel, hdone⟩ := Machine.exists_isDone (m := .start heap t' f args kwargs) hmodest'
      hlower hnone
    refine ⟨fuel, fun m hm => ⟨hm ▸ hdone, fun x _ hx => ?_⟩⟩
    cases x with
    | tableIndex => exact .inl rfl
    | parameterCount => exact .inr rfl
    | sliceIndex => exact absurd rfl hx
  -- a reason once given stays, and the next instruction is refused with it
  · have hc' := Machine.cancelled_goes hg hc
    have htick := cancelled_tick hc'
    refine ⟨htick, ?_, fun a pending callers hexec hframes =>
      Machine.step_of_cancelled hc' hexec hframes⟩
    refine Bool.eq_false_iff.2 fun hx => ?_
    rw [(Machine.executes_iff.1 hx).2.2] at htick
    cases htick

/-- A heap with a function that jumps to its start forever. -/
def Heap.spinning : Heap where
  programs :=
    #[{ (default : Program) with toplevel :=
      { (default : Code) with code := #[Opcode.jmp.toByte, 0] } }]
  modules := #[⟨⟨0⟩, [], #[]⟩]
  funcs := #[⟨⟨0⟩, .toplevel, #[], #[]⟩]

/-- With a limit of three steps the function that jumps forever is stopped, and the next call on its
thread fails with the same reason. -/
theorem Thread.steps_bounded_spinning :
    let t := Thread.new "main" (some 3) 10 true
    let m := Machine.call 9 .spinning t (.func ⟨0⟩) [] []
    Machine.executed 9 (.start .spinning t (.func ⟨0⟩) [] []) ≤ 2 ∧
      m.thread.tick.cancelled = some "too many steps" := by
  intro t m
  have hlife : t.Life _ m.thread := .call .start .spinning (.func ⟨0⟩) [] [] 9
  have hmodest : t.IsModest 1 := HostCode.isModest_ofLibrary
  obtain ⟨hcount, -, hcancel⟩ := steps_bounded hmodest rfl (by decide) rfl hlife
  have hcancelled : m.thread.cancelled = some "too many steps" := by decide +kernel
  exact ⟨by simpa using hcount, (hcancel m m _ hcancelled ReflTransGen.refl).1⟩

end Starlark
