import Starlark.Proofs.Machine.Balance
import Starlark.Proofs.Machine.Slots
import Starlark.Proofs.Operation.Maps

/-!
# What a step can do

All that functions do to a heap is a sequence of a few alterations (`Heap.Alters`) and of iterators
that are opened, advanced and closed. The iterators of a function form a stack: a step pushes an
iterator, advances the topmost, or closes some from the top (`Heap.Shift`). A function of the host
does what hosts do (`HostAct.Performs`). `Machine.Next` says what a step does to the calls and to
the thread, and `Machine.next_step` that it does nothing else.
-/

set_option autoImplicit false

namespace Starlark

open Relation (ReflTransGen)

/-! ## Alterations -/

/-- One alteration of the heap by a running machine, which makes functions of the given kind. -/
inductive Heap.Alters (New : FuncObj → Prop) (h : Heap) : Heap → Prop where
  | change {h' : Heap} (hc : h.Change h') : Alters New h h'
  | setCell (r : CellRef) (v : Value) : Alters New h (h.setCell r v)
  | setGlobal (r : ModuleRef) (i : Nat) (v : Value) : Alters New h (h.setGlobal r i v)
  | newCell (content : Option Value) : Alters New h (h.newCell content).2
  | newFunc {f : FuncObj} (hf : New f) : Alters New h (h.newFunc f).2
  | newToplevel (p : ProgramRef) (predeclared : Env) :
      Alters New h ((h.newModule p predeclared).2.newFunc
        ⟨(h.newModule p predeclared).1, .toplevel, #[], #[]⟩).2
  | freezeNode (n : Node) : Alters New h (h.freezeNode n)

/-- Alterations one after another. -/
def Heap.Altered (New : FuncObj → Prop) : Heap → Heap → Prop := ReflTransGen (Heap.Alters New)

namespace Heap.Altered

variable {New : FuncObj → Prop} {h h' h'' : Heap}

theorem refl (h : Heap) : h.Altered New h := ReflTransGen.refl

theorem trans (h1 : h.Altered New h') (h2 : h'.Altered New h'') : h.Altered New h'' :=
  ReflTransGen.trans h1 h2

/-- One alteration. -/
theorem single (ha : h.Alters New h') : h.Altered New h' := ReflTransGen.single ha

end Heap.Altered

instance (New : FuncObj → Prop) : Heap.Tolerant (Heap.Altered New) where
  refl := .refl
  trans := .trans
  change hc := .single (.change hc)
  setCell _ r v := .single (.setCell r v)
  setGlobal _ r i v := .single (.setGlobal r i v)

namespace Heap.Altered

variable {New : FuncObj → Prop}

theorem freeze (h : Heap) (v : Value) : h.Altered New (h.freeze v) :=
  Heap.rel_freeze .refl .trans (fun _ n => .single (.freezeNode n)) h v

theorem freezeModule (h : Heap) (r : ModuleRef) : h.Altered New (h.freezeModule r) :=
  Heap.rel_freezeModule .refl .trans (fun _ n => .single (.freezeNode n)) h r

/-- What was bound is installed by making a tuple and a dict. -/
theorem install (h : Heap) {b : Bound} (hb : b.NamesOnce) : h.Altered New (b.install h).2 := by
  unfold Bound.install
  split
  · exact .refl h
  · rename_i i entries hextra
    exact Heap.Tolerant.evolves (h.evolves_newDict (.of_names (hb i entries hextra)))

/-- Captured locals are boxed by making cells. -/
theorem boxCells {cells : List UInt32} {h h' : Heap} {locals locals' : Array (Option Value)}
    (hb : h.boxCells locals cells = .ok (locals', h')) : h.Altered New h' := by
  induction cells generalizing h locals with
  | nil =>
    cases hb
    exact .refl _
  | cons i cells ih =>
    rw [Heap.boxCells] at hb
    split at hb
    · cases hb
    · rename_i v _
      exact (single (.newCell v)).trans (ih hb)

end Heap.Altered

/-! ## Iterators as a stack -/

/-- What a step does with iterators, unless it closes some. -/
inductive Iter.Event where
  | quiet
  /-- An iterator over the value is opened. -/
  | opens (v : Value)
  /-- The topmost iterator gives an element. -/
  | takes (x : Value)

/-- What a step does to the heap and to a stack of live iterators. -/
inductive Heap.Shift (New : FuncObj → Prop) (h : Heap) :
    List Iter → Iter.Event → Heap → List Iter → Prop where
  | close {h' : Heap} (done rest : List Iter) (ha : h.Altered New h') :
      Shift New h (done ++ rest) .quiet (done.foldl Heap.closeIter h') rest
  | push {h' : Heap} {v : Value} {it : Iter} (live : List Iter)
      (ho : h.openIter v = (some it, h')) :
      Shift New h live (.opens v) h' (it :: live)
  | advance {x : Value} {it it' : Iter} (live : List Iter) (hn : h.nextElem? it = some (x, it')) :
      Shift New h (it :: live) (.takes x) h (it' :: live)

/-- Nothing happens to the iterators. -/
theorem Heap.Altered.shift {New : FuncObj → Prop} {h h' : Heap} (ha : h.Altered New h')
    (live : List Iter) : h.Shift New live .quiet h' live :=
  .close [] live ha

/-- Iterators further down do not matter. -/
theorem Heap.Shift.append {New : FuncObj → Prop} {h h' : Heap} {live live' : List Iter}
    {event : Iter.Event} (hs : h.Shift New live event h' live') (held : List Iter) :
    h.Shift New (live ++ held) event h' (live' ++ held) := by
  cases hs with
  | close done rest ha =>
    rw [List.append_assoc]
    exact .close done _ ha
  | push live ho => exact .push _ ho
  | advance live hn => exact .advance _ hn

/-- What an instruction does with iterators. -/
def Opcode.event (op : Opcode) (h : Heap) (stack : List Value) (iters : List Iter) : Iter.Event :=
  match op, stack, iters with
  | .iterPush, x :: _, _ => if x.isIterable then .opens x else .quiet
  | .iterJmp, _, it :: _ =>
    match h.nextElem? it with
    | some (x, _) => .takes x
    | none => .quiet
  | _, _, _ => .quiet

/-- Two opcodes work on iterators by opening or advancing one. -/
theorem Opcode.event_of_ne {op : Opcode} (hop : op ≠ .iterPush ∧ op ≠ .iterJmp) (h : Heap)
    (stack : List Value) (iters : List Iter) : op.event h stack iters = .quiet := by
  unfold event
  split
  · exact absurd rfl hop.1
  · exact absurd rfl hop.2
  · rfl

theorem Opcode.event_iterJmp_nil (h : Heap) (stack : List Value) :
    Opcode.event .iterJmp h stack [] = .quiet := by
  cases stack <;> rfl

theorem Heap.isSome_openIter (h : Heap) (v : Value) : (h.openIter v).1.isSome = v.isIterable := by
  cases v with
  | list r =>
    simp only [openIter]
    split <;> rfl
  | dict r =>
    simp only [openIter]
    split <;> rfl
  | tuple elems => rfl
  | _ => rfl

/-- What an instruction does to the heap and to the iterators of its function. -/
def Activation.Shifts (New : FuncObj → Prop) (event : Iter.Event) (h : Heap) (a : Activation) :
    EStateM.Result Stop Heap Effect → Prop
  | .ok (.proceed b) h' => h.Shift New a.iters event h' b.iters ∧ b.func = a.func ∧ b.pc = a.pc
  | .ok e h' => h.Altered New h' ∧ e.Continues a ∧ event = .quiet
  | .error e h' => h.Altered New h' ∧ event = .quiet ∧ e.isWrapped = false

/-- What an instruction does to the heap and to the iterators, whether it succeeds or fails. -/
theorem Activation.shifts_execute (h : Heap) (op : Opcode) (arg : UInt32) (a : Activation) :
    a.Shifts (fun f => f.module = a.func.module) (op.event h a.stack a.iters) h
      (execute (h.tables a.func) op arg a h) := by
  -- apart from the three opcodes on iterators, nothing is opened, taken or closed
  by_cases hop : op ≠ .iterPush ∧ op ≠ .iterJmp ∧ op ≠ .iterPop
  · have hq : Op.Quiet (Heap.Altered fun f => f.module = a.func.module) (Effect.Continues a)
        (execute (h.tables a.func) op arg a) :=
      quiet_execute (fun _ _ hf => .single (.newFunc hf)) hop
    have hevent := Opcode.event_of_ne ⟨hop.1, hop.2.1⟩ h a.stack a.iters
    rw [hevent]
    cases he : execute (h.tables a.func) op arg a h with
    | error e h' => exact ⟨(hq.error he).1, rfl, (hq.error he).2⟩
    | ok e h' =>
      obtain ⟨haltered, hcont⟩ := hq.ok he
      cases e with
      | proceed b =>
        obtain ⟨hfunc, hiters, hpc⟩ := hcont
        exact ⟨hiters ▸ haltered.shift _, hfunc, hpc⟩
      | finish v => exact ⟨haltered, trivial, rfl⟩
      | call b f args kwargs => exact ⟨haltered, hcont, rfl⟩
      | load b name count => exact ⟨haltered, hcont, rfl⟩
  · rcases iterates_cases hop with rfl | rfl | rfl
    · cases hst : a.stack with
      | nil =>
        simp only [execute, hst]
        exact ⟨.refl h, rfl, rfl⟩
      | cons x st =>
        have hiterable := h.isSome_openIter x
        rw [execute_iterPush hst]
        simp only [Opcode.event, ← hiterable]
        cases ho : h.openIter x with
        | mk it h' =>
          cases it with
          | some it => exact ⟨.push _ ho, rfl, rfl⟩
          -- what cannot be iterated leaves the heap as it was
          | none =>
            cases Heap.openIter_eq_none ho
            exact ⟨.refl h, rfl, rfl⟩
    · cases hit : a.iters with
      | nil =>
        simp only [execute, hit]
        exact ⟨.refl h, Opcode.event_iterJmp_nil h _, rfl⟩
      | cons it iters =>
        rw [execute_iterJmp hit]
        cases hn : h.nextElem? it with
        | none =>
          simp only [Opcode.event, hn]
          exact ⟨(Heap.Altered.refl h).shift _, rfl, rfl⟩
        | some next =>
          simp only [Opcode.event, hn]
          exact ⟨hit ▸ .advance iters hn, rfl, rfl⟩
    · cases hit : a.iters with
      | nil =>
        simp only [execute, hit]
        exact ⟨hit ▸ (Heap.Altered.refl h).shift _, rfl, rfl⟩
      | cons it iters =>
        simp only [execute, hit]
        exact ⟨hit.symm ▸ .close [it] iters (.refl h), rfl, rfl⟩

/-! ## Steps -/

/-- A frame is closed by closing its iterators, one after another. -/
theorem Heap.closeFrame_eq (h : Heap) (frame : Frame) :
    h.closeFrame frame = frame.iters.foldl Heap.closeIter h := by
  cases frame <;> rfl

/-- What the machine does to its thread: it may write lines and cancel. -/
structure Thread.Persists (t t' : Thread) : Prop where
  steps : t'.steps = t.steps
  limit : t'.limit = t.limit
  maxDepth : t'.maxDepth = t.maxDepth
  onLimit : t'.onLimit = t.onLimit
  loader : t'.loader = t.loader
  host : t'.host = t.host
  cancelled : ∀ reason, t.cancelled = some reason → t'.cancelled = some reason

namespace Thread.Persists

theorem refl (t : Thread) : t.Persists t := ⟨rfl, rfl, rfl, rfl, rfl, rfl, fun _ => id⟩

theorem cancel (t : Thread) (reason : String) : t.Persists (t.cancel reason) := by
  unfold Thread.cancel
  split
  · exact .refl t
  · rename_i hnone
    exact ⟨rfl, rfl, rfl, rfl, rfl, rfl, fun r hr => absurd (hnone.symm.trans hr) nofun⟩

theorem print (t : Thread) (message : String) : t.Persists (t.print message) := by
  unfold Thread.print
  split
  · exact ⟨rfl, rfl, rfl, rfl, rfl, rfl, fun _ => id⟩
  · exact .refl t

theorem takeTurn (t : Thread) : t.Persists t.takeTurn := ⟨rfl, rfl, rfl, rfl, rfl, rfl, fun _ => id⟩

end Thread.Persists

/-- What a function of the host does to its thread: it may also change the step limit and where
modules come from, which are programs of the heap. -/
structure Thread.Handled (h : Heap) (t t' : Thread) : Prop where
  steps : t'.steps = t.steps
  maxDepth : t'.maxDepth = t.maxDepth
  host : t'.host = t.host
  loader : t'.loader = t.loader ∨ areIn h (t'.loader.getD []) = true
  cancelled : ∀ reason, t.cancelled = some reason → t'.cancelled = some reason

/-- A thread that persists may as well have been handled. -/
theorem Thread.Persists.handled {t t' : Thread} (hp : t.Persists t') (h : Heap) : t.Handled h t' :=
  ⟨hp.steps, hp.maxDepth, hp.host, .inl hp.loader, hp.cancelled⟩

/-- Steering is how hosts handle threads. -/
theorem Thread.handled_steer (t : Thread) (h : Heap) (s : Steering) :
    t.Handled h (t.steer h s) := by
  cases s with
  | cancel reason => exact (Persists.cancel t reason).handled h
  | print message => exact (Persists.print t message).handled h
  | setLimit steps => exact ⟨rfl, rfl, rfl, .inl rfl, fun _ => id⟩
  | setOnLimit hook => exact ⟨rfl, rfl, rfl, .inl rfl, fun _ => id⟩
  | setLoader loader =>
    by_cases hin : areIn h (loader.getD []) = true
    · rw [steer, if_pos hin]
      exact ⟨rfl, rfl, rfl, .inr hin, fun _ => id⟩
    · rw [steer, if_neg hin]
      exact (Persists.refl t).handled h

/-- It makes no difference that the turn is counted. -/
theorem Thread.Handled.of_takeTurn {t t' : Thread} {h : Heap} (hh : t.takeTurn.Handled h t') :
    t.Handled h t' :=
  ⟨hh.steps, hh.maxDepth, hh.host, hh.loader, hh.cancelled⟩

namespace Machine

/-- The thread once the instruction or the turn of the next step is counted. -/
def clock (m : Machine) : Thread :=
  match m.control with
  | .exec => m.thread.tick
  | .host => m.thread.takeTurn
  | _ => m.thread

/-- What the next step does with the iterators of the innermost function. -/
def event (m : Machine) : Iter.Event :=
  match m.control, m.frames with
  | .exec, .func a _ :: _ =>
    match m.thread.tick.cancelled, fetch (m.heap.codeOf a.func).code a.next with
    | none, .ok f => f.op.event m.heap a.stack a.iters
    | _, _ => .quiet
  | _, _ => .quiet

/-- The innermost function makes functions of its own module. -/
def Makes (m : Machine) (f : FuncObj) : Prop :=
  ∃ a pending callers, m.frames = .func a pending :: callers ∧ f.module = a.func.module

/-- A call of the value `f` may put a frame on top of the active calls: there is room for it, and a
function of a program without recursion is not active. -/
def Admits (m : Machine) (f : Value) (frame : Frame) : Prop :=
  m.frames.length < m.thread.maxDepth ∧
  match frame with
  | .func a pending => pending = .call ∧ a.iters = [] ∧
      (∃ r, f = .func r ∧ m.heap.funcs[r.index]? = some a.func) ∧
      ((m.heap.programOf a.func).recursion = true ∨ m.heap.isActive a.func m.frames = false)
  | .builtin r run => f = .builtin r ∧ run.held = []

/-- The frame of a call has no iterators yet. -/
theorem Admits.iters_eq {m : Machine} {f : Value} {frame : Frame} (h : m.Admits f frame) :
    frame.iters = [] := by
  cases frame with
  | func a pending => exact h.2.2.1
  | builtin r run => exact h.2.2

/-- What a step can do. -/
inductive Next (m : Machine) : Machine → Prop where
  /-- Nothing is left to do. -/
  | halt {c : Control} (hc : (∃ r, c = .finished r) ∨ ∃ x, c = .aborted x)
      (hidle : m.control = .exec → ∀ a pending callers, m.frames ≠ .func a pending :: callers)
      (hevent : m.event = .quiet) : Next m ⟨m.heap, m.thread, m.frames, c⟩
  /-- The innermost call ends, and its outcome is handed to its caller. -/
  | leave {frame : Frame} {callers : List Frame} {h : Heap} {r : Except Error Value}
      (hframes : m.frames = frame :: callers)
      (hcontrol : ∀ f args kwargs, m.control ≠ .invoke f args kwargs)
      (ha : m.heap.Altered m.Makes h) (hevent : m.event = .quiet) :
      Next m ⟨h.closeFrame frame, m.clock, callers, .deliver r⟩
  /-- The innermost function goes on, calls, or gives up. -/
  | resume {a b : Activation} {pending pending' : Pending} {callers : List Frame} {h : Heap}
      {c : Control}
      (hframes : m.frames = .func a pending :: callers) (hfunc : b.func = a.func)
      (hs : m.heap.Shift m.Makes a.iters m.event h b.iters)
      (hlive : m.control = .exec → m.clock.cancelled = none)
      (hcontrol : c = .exec ∧ (∀ f args kwargs, m.control ≠ .invoke f args kwargs) ∨
        (∃ f args kwargs, c = .invoke f args kwargs ∧ m.control = .exec) ∨ ∃ x, c = .aborted x) :
      Next m ⟨h, m.clock, .func b pending' :: callers, c⟩
  /-- A call is refused, or is over at once. -/
  | back {f : Value} {args : List Value} {kwargs : Keywords} {h : Heap} {t : Thread}
      {r : Except Error Value} (hcontrol : m.control = .invoke f args kwargs)
      (ha : m.heap.Altered m.Makes h) (ht : m.thread.Persists t) :
      Next m ⟨h, t, m.frames, .deliver r⟩
  /-- A call is entered. -/
  | enter {f : Value} {args : List Value} {kwargs : Keywords} {frame : Frame} {h : Heap}
      {c : Control}
      (hcontrol : m.control = .invoke f args kwargs) (ha : m.heap.Altered m.Makes h)
      (hframe : m.Admits f frame)
      (hc : match frame with
        | .func _ _ => c = .exec ∨ ∃ x, c = .aborted x
        | .builtin _ _ =>
          c = .host ∨ ∃ x, c = .aborted x) : Next m ⟨h, m.thread, frame :: m.frames, c⟩
  /-- A function of the host gets the turn with the outcome of the call that it made. -/
  | answer {r : BuiltinRef} {run : HostRun} {callers : List Frame} {o : Except Error Value}
      (hframes : m.frames = .builtin r run :: callers) (hcontrol : m.control = .deliver o) :
      Next m ⟨m.heap, m.thread, .builtin r (run.note o) :: callers, .host⟩
  /-- A function of the host has its turn, and stays active. -/
  | turn {r : BuiltinRef} {run run' : HostRun} {callers : List Frame} {h : Heap} {t : Thread}
      {c : Control}
      (hframes : m.frames = .builtin r run :: callers) (hcontrol : m.control = .host)
      (hacts : ∃ a : HostAct, a.Performs (m.heap, run.held) (h, run'.held))
      (ht : m.thread.Handled h t)
      (hc : c = .host ∨ (∃ f args kwargs, c = .invoke f args kwargs) ∨ ∃ x, c = .aborted x) :
      Next m ⟨h, t, .builtin r run' :: callers, c⟩

section Functions

variable {heap h : Heap} {thread : Thread} {frames callers : List Frame} {a : Activation}
  {pending : Pending}

/-- Only instructions do something to iterators. -/
theorem event_of_ne {m : Machine} (hm : m.control ≠ .exec) : m.event = .quiet := by
  unfold event
  split
  · rename_i hc _
    exact absurd hc hm
  · rfl

theorem event_of_invoke {m : Machine} {f : Value} {args : List Value} {kwargs : Keywords}
    (hm : m.control = .invoke f args kwargs) : m.event = .quiet :=
  event_of_ne fun h => by cases hm.symm.trans h

theorem event_of_deliver {m : Machine} {r : Except Error Value} (hm : m.control = .deliver r) :
    m.event = .quiet :=
  event_of_ne fun h => by cases hm.symm.trans h

theorem event_of_host {m : Machine} (hm : m.control = .host) : m.event = .quiet :=
  event_of_ne fun h => by cases hm.symm.trans h

/-- The innermost function ends, wherever it stands. -/
theorem next_leave {m : Machine} (hframes : m.frames = .func a pending :: callers)
    (hcontrol : ∀ f args kwargs, m.control ≠ .invoke f args kwargs) (ha : m.heap.Altered m.Makes h)
    (hevent : m.event = .quiet) {b : Activation} (hiters : b.iters = a.iters)
    (pending' : Pending) (r : Except Error Value) :
    m.Next ⟨h.closeFrame (.func b pending'), m.clock, callers, .deliver r⟩ := by
  have hclose : h.closeFrame (.func b pending') = h.closeFrame (.func a pending) := by
    simp only [Heap.closeFrame, hiters]
  rw [hclose]
  exact .leave hframes hcontrol ha hevent

/-- The innermost function ends or gives up. -/
theorem next_stop {m : Machine} (hframes : m.frames = .func a pending :: callers)
    (hcontrol : ∀ f args kwargs, m.control ≠ .invoke f args kwargs)
    (hlive : m.control = .exec → m.clock.cancelled = none) (ha : m.heap.Altered m.Makes h)
    (hevent : m.event = .quiet) {b : Activation} (hb : b.func = a.func) (hiters : b.iters = a.iters)
    (e : Stop) : m.Next (stop h m.clock (.func b .call :: callers) e) := by
  cases e with
  | error e => exact next_leave hframes hcontrol ha hevent hiters .call _
  | abort x =>
    refine .resume hframes hb ?_ hlive (.inr (.inr ⟨x, rfl⟩))
    rw [hevent, hiters]
    exact ha.shift _

/-- A load that has ended lets its function go on, or fails in it. -/
theorem Binds.next {m m' : Machine} {b : Activation} {name : String} {count : Nat} {members : Env}
    (hbinds : Binds h m.clock b callers name count members m')
    (hframes : m.frames = .func a pending :: callers)
    (hcontrol : ∀ f args kwargs, m.control ≠ .invoke f args kwargs)
    (hlive : m.control = .exec → m.clock.cancelled = none) (ha : m.heap.Altered m.Makes h)
    (hevent : m.event = .quiet) (hb : b.func = a.func) (hiters : b.iters = a.iters) :
    m.Next m' := by
  have hquiet : Op.Quiet (Heap.Altered m.Makes) (fun _ => True)
      (Op.replaceNames members name count b.stack) := quiet_replaceNames members name count b.stack
  cases hbinds with
  | binds hrun =>
    refine .resume hframes hb ?_ hlive (.inl ⟨rfl, hcontrol⟩)
    rw [hevent, hiters]
    exact (ha.trans (hquiet.ok hrun).1).shift _
  | stops hrun =>
    exact next_stop hframes hcontrol hlive (ha.trans (hquiet.error hrun).1) hevent hb hiters _

/-- A load fails, ends, or runs the toplevel of a module. -/
theorem Loads.next {m m' : Machine} {b : Activation} {name : String} {count : Nat}
    (hloads : Loads h m.clock b callers name count m')
    (hframes : m.frames = .func a pending :: callers)
    (hcontrol : m.control = .exec) (hlive : m.clock.cancelled = none)
    (ha : m.heap.Altered m.Makes h) (hevent : m.event = .quiet) (hb : b.func = a.func)
    (hiters : b.iters = a.iters) : m.Next m' := by
  have hne : ∀ f args kwargs, m.control ≠ .invoke f args kwargs := by
    rw [hcontrol]
    exact nofun
  cases hloads with
  | unavailable | failure => exact next_leave hframes hne ha hevent hiters .call _
  | members _ hbinds => exact hbinds.next hframes hne (fun _ => hlive) ha hevent hb hiters
  | @program p predeclared =>
    refine .resume hframes hb ?_ (fun _ => hlive) (.inr (.inl ⟨_, _, _, rfl, hcontrol⟩))
    rw [hevent, hiters]
    exact (ha.trans (.single (.newToplevel p predeclared))).shift _

/-- The functions that an instruction makes are of the module of its function. -/
theorem makes_eq {m : Machine} (hframes : m.frames = .func a pending :: callers) :
    m.Makes = fun f => f.module = a.func.module := by
  funext f
  refine propext ⟨?_, fun hf => ⟨a, pending, callers, hframes, hf⟩⟩
  rintro ⟨b, pending', callers', hb, hf⟩
  cases hframes.symm.trans hb
  exact hf

section Executing

variable {m : Machine} (hframes : m.frames = .func a pending :: callers)
    (hcontrol : m.control = .exec)

include hframes hcontrol

/-- What an instruction that is executed does. -/
theorem Executed.shifts {f : Fetched} {result : EStateM.Result Stop Heap Effect}
    (hdone : Executed m.heap m.thread a f result) :
    Activation.Shifts m.Makes m.event m.heap { a with pc := a.next, next := f.next } result := by
  have hevent : m.event = f.op.event m.heap a.stack a.iters := by
    simp only [event, hcontrol, hframes, hdone.live, hdone.fetch]
  rw [makes_eq hframes, hevent, ← hdone.result_eq]
  exact Activation.shifts_execute m.heap f.op (f.arg.getD 0) { a with pc := a.next, next := f.next }

/-- What an instruction can do. -/
theorem Executes.next {m' : Machine} (h : Executes m.heap m.thread a callers m') : m.Next m' := by
  have hne : ∀ f args kwargs, m.control ≠ .invoke f args kwargs := by
    rw [hcontrol]
    exact nofun
  have hclock : m.clock = m.thread.tick := by
    simp only [clock, hcontrol]
  have hlive : m.thread.tick.cancelled = none → m.control = .exec → m.clock.cancelled = none :=
    fun hlive _ => hclock ▸ hlive
  -- a frame that executes is left, resumed, or stopped at a call
  cases h with
  | cancelled hcancelled =>
    have hevent : m.event = .quiet := by
      simp only [event, hcontrol, hframes, hcancelled]
    exact hclock ▸ next_leave hframes hne (.refl _) hevent rfl .call _
  | unread hlive hfetch =>
    have hevent : m.event = .quiet := by
      simp only [event, hcontrol, hframes, hlive, hfetch]
    exact hclock ▸ next_leave (b := { a with pc := a.next }) hframes hne (.refl _) hevent
        rfl .call _
  | stops hdone =>
    obtain ⟨ha, hevent, -⟩ := hdone.shifts hframes hcontrol
    exact hclock ▸ next_stop (b := { a with pc := a.next }) hframes hne (hlive hdone.live) ha
        hevent rfl rfl _
  | proceeds hdone =>
    obtain ⟨hs, hfunc, -⟩ := hdone.shifts hframes hcontrol
    exact hclock ▸ .resume hframes hfunc hs (hlive hdone.live) (.inl ⟨rfl, hne⟩)
  | finishes hdone =>
    obtain ⟨ha, -, hevent⟩ := hdone.shifts hframes hcontrol
    exact hclock ▸ next_leave (b := { a with pc := a.next }) hframes hne ha hevent rfl .call _
  | calls hdone =>
    obtain ⟨ha, ⟨hfunc, hiters, -⟩, hevent⟩ := hdone.shifts hframes hcontrol
    have hs := ha.shift a.iters
    rw [← hevent] at hs
    exact hclock ▸ .resume hframes hfunc (hiters ▸ hs) (hlive hdone.live)
      (.inr (.inl ⟨_, _, _, rfl, hcontrol⟩))
  | loads hdone h =>
    obtain ⟨ha, ⟨hfunc, hiters, -⟩, hevent⟩ := hdone.shifts hframes hcontrol
    rw [← hclock] at h
    exact h.next hframes hcontrol (hclock ▸ hdone.live) ha hevent hfunc hiters

end Executing

/-- What entering a function can do. -/
theorem Enters.next {f : Value} {r : FuncRef} {g : FuncObj} {args : List Value} {kwargs : Keywords}
    {m : Machine} (h : Enters heap thread frames g args kwargs m) (hf : f = .func r)
    (hg : heap.funcs[r.index]? = some g) (hdepth : frames.length < thread.maxDepth) :
    Next ⟨heap, thread, frames, .invoke f args kwargs⟩ m := by
  have hadmits : (heap.programOf g).recursion = true ∨ heap.isActive g frames = false → ∀ locals,
      Admits ⟨heap, thread, frames, .invoke f args kwargs⟩ f (.func { func := g, locals } .call) :=
    fun hpass locals => ⟨hdepth, rfl, rfl, ⟨r, hf, hg⟩, hpass⟩
  -- refused for recursion, stopped at the arguments, or started with its arguments in place
  cases h with
  | recurs => exact .back rfl (.refl heap) (.refl thread)
  | @unbound e b hpass hbind =>
    cases e with
    | error e => exact .back rfl (.refl heap) (.refl thread)
    | abort x => exact .enter rfl (.refl heap) (hadmits hpass #[]) (.inr ⟨x, rfl⟩)
  | unboxed hpass hbind =>
    exact .enter rfl (.install heap (Bound.namesOnce_of_bindArguments hbind)) (hadmits hpass #[])
      (.inr ⟨_, rfl⟩)
  | starts hpass hbind hbox =>
    exact .enter rfl ((Heap.Altered.install heap (Bound.namesOnce_of_bindArguments hbind)).trans
      (.boxCells hbox)) (hadmits hpass _) (.inl rfl)

/-- What running a builtin can do. -/
theorem Runs.next {f : Value} {r : BuiltinRef} {args : List Value} {kwargs : Keywords} {m : Machine}
    (h : Runs heap thread frames r args kwargs m) (hf : f = .builtin r)
    (hdepth : frames.length < thread.maxDepth) :
    Next ⟨heap, thread, frames, .invoke f args kwargs⟩ m := by
  have hadmits : Admits ⟨heap, thread, frames, .invoke f args kwargs⟩ f
      (builtinFrame r args kwargs) :=
    ⟨hdepth, hf, rfl⟩
  have hstandard := Op.regular_callStandard (heap.builtin r) args kwargs
  -- but for the host's functions a built-in is over in this one step
  cases h with
  | prints => exact .back rfl (.refl heap) (.print thread _)
  | fails => exact .back rfl (.refl heap) (.refl thread)
  | waits => exact .enter rfl (.refl heap) hadmits (.inl rfl)
  | returns hrun => exact .back rfl (Heap.Tolerant.evolves (hstandard.ok hrun)) (.refl thread)
  | @stops e _ hrun =>
    have ha := Heap.Tolerant.evolves
      (K := Heap.Altered (Makes ⟨heap, thread, frames, .invoke f args kwargs⟩))
          (hstandard.error hrun).1
    cases e with
    | error e => exact .back rfl ha (.refl thread)
    | abort x => exact .enter rfl ha hadmits (.inr ⟨x, rfl⟩)

/-- What a call can do. -/
theorem Invokes.next {f : Value} {args : List Value} {kwargs : Keywords} {m : Machine}
    (h : Invokes heap thread frames f args kwargs m) :
    Next ⟨heap, thread, frames, .invoke f args kwargs⟩ m := by
  cases h with
  | full | uncallable => exact .back rfl (.refl heap) (.refl thread)
  | enters hf hdepth hg h => exact h.next hf hg hdepth
  | runs hf hdepth h => exact h.next hf hdepth

/-- What handing over an outcome can do. -/
theorem Delivers.next {r : Except Error Value} {m : Machine} (h : Delivers heap thread frames r m) :
    Next ⟨heap, thread, frames, .deliver r⟩ m := by
  have hevent : event ⟨heap, thread, frames, .deliver r⟩ = .quiet := event_of_ne nofun
  cases h with
  | halts => exact .halt (.inl ⟨r, rfl⟩) nofun hevent
  | pushes =>
    exact .resume rfl rfl (hevent ▸ (Heap.Altered.refl heap).shift _) nofun (.inl ⟨rfl, nofun⟩)
  | fails => exact .leave rfl nofun (.refl heap) hevent
  | answers => exact .answer rfl rfl
  | @loaded a callers name count module v _ hbinds =>
    exact hbinds.next
        (m := ⟨heap, thread, .func a (.load name count module) :: callers, .deliver (.ok v)⟩)
      rfl nofun nofun (.freezeModule heap module) hevent rfl rfl
  | @unloaded a callers name count module e =>
    exact next_leave
        (m := ⟨heap, thread, .func a (.load name count module) :: callers, .deliver (.error e)⟩)
      rfl nofun (.freezeModule heap module) hevent rfl .call _

/-- What a turn of a function of the host can do. -/
theorem Hosts.next {r : BuiltinRef} {run : HostRun} {m : Machine}
    (h : Hosts heap thread callers r run m) :
    Next ⟨heap, thread, .builtin r run :: callers, .host⟩ m := by
  have hturn : thread.Handled heap thread.takeTurn := (Thread.Persists.takeTurn thread).handled heap
  -- an act leaves the thread alone, and steering it leaves the heap
  have hany : ∀ h : Heap, thread.Handled h thread.takeTurn :=
    fun h => (Thread.Persists.takeTurn thread).handled h
  cases h with
  | acts _ hrun => exact .turn rfl rfl ⟨_, HostAct.performs_of_ok hrun⟩ (hany _) (.inl rfl)
  | errs _ hrun => exact .turn rfl rfl ⟨_, (HostAct.performs_of_error hrun).1⟩ (hany _) (.inl rfl)
  | aborts _ hrun =>
    exact .turn rfl rfl ⟨_, (HostAct.performs_of_error hrun).1⟩ (hany _) (.inr (.inr ⟨_, rfl⟩))
  | @steers s =>
    have hsteer := thread.takeTurn.handled_steer heap s
    exact .turn rfl rfl ⟨.close 0, .idle _ _⟩ hsteer.of_takeTurn (.inl rfl)
  | calls => exact .turn rfl rfl ⟨.close 0, .idle _ _⟩ hturn (.inr (.inl ⟨_, _, _, rfl⟩))
  | @finishes o =>
    cases o with
    | ok v => exact .leave rfl nofun (.refl heap) (event_of_ne nofun)
    | error e => exact .leave rfl nofun (.refl heap) (event_of_ne nofun)

end Functions

theorem run_succ (k : Nat) (m : Machine) : run (k + 1) m = run k m.step := by
  by_cases h : m.isDone
  · rw [run_of_isDone h, step_of_isDone h, run_of_isDone h]
  · simp [run, h]

/-- What a step can do. -/
theorem next_step (m : Machine) : m.Next m.step := by
  have hsteps := steps_step m
  generalize m.step = m' at hsteps ⊢
  -- by which of its functions the machine has run
  cases hsteps with
  | executes h => exact h.next rfl rfl
  | @idles heap thread frames hidle =>
    have hevent : event ⟨heap, thread, frames, .exec⟩ = .quiet := by
      unfold event
      split
      · rename_i hframes
        exact absurd hframes (hidle _ _ _)
      · rfl
    exact .halt (.inl ⟨_, rfl⟩) (fun _ => hidle) hevent
  | invokes h => exact h.next
  | hosts h => exact h.next
  | rests => exact .halt (.inl ⟨_, rfl⟩) nofun (event_of_ne nofun)
  | delivers h => exact h.next
  | done hdone =>
    obtain ⟨heap, thread, frames, control⟩ := m
    cases control with
    | finished r => exact .halt (.inl ⟨r, rfl⟩) nofun (event_of_ne nofun)
    | aborted x => exact .halt (.inr ⟨x, rfl⟩) nofun (event_of_ne nofun)
    | _ => cases hdone

/-- What happens to the heap and to the iterators of all active calls: the innermost function works
with its iterators, or a function of the host does. -/
inductive Happens (m : Machine) (h : Heap) : List Iter → Prop where
  | shift {live : List Iter} (hs : m.heap.Shift m.Makes m.iters m.event h live) : Happens m h live
  | act {a : HostAct} {held held' : List Iter} (rest : List Iter)
      (hcontrol : m.control = .host) (hp : a.Performs (m.heap, held) (h, held'))
      (hiters : m.iters = held ++ rest) : Happens m h (held' ++ rest)

/-- What a step does to the heap and to the iterators of all active calls. -/
theorem happens_step (m : Machine) : m.Happens m.step.heap m.step.iters := by
  generalize hm : m.step = m'
  have hnext : m.Next m' := hm ▸ m.next_step
  -- every step but a host function's own is a shift of the iterators by what happened
  cases hnext with
  | halt _ _ hevent =>
    refine .shift ?_
    rw [hevent]
    exact (Heap.Altered.refl _).shift _
  | leave hframes _ ha hevent =>
    refine .shift ?_
    rw [hevent, iters, iters, hframes, Heap.closeFrame_eq]
    exact .close _ _ ha
  | resume hframes _ hs _ _ =>
    refine .shift ?_
    rw [iters, iters, hframes]
    exact hs.append _
  | back hcontrol ha _ =>
    refine .shift ?_
    rw [event_of_invoke hcontrol]
    exact ha.shift _
  | enter hcontrol ha hframe _ =>
    refine .shift ?_
    rw [event_of_invoke hcontrol, iters, iters, List.flatMap_cons, hframe.iters_eq]
    exact ha.shift _
  | answer hframes hcontrol =>
    refine .shift ?_
    rw [event_of_deliver hcontrol, iters, iters, hframes]
    exact (Heap.Altered.refl _).shift _
  | turn hframes hcontrol hacts _ _ =>
    obtain ⟨a, hp⟩ := hacts
    refine .act _ hcontrol hp ?_
    rw [iters, hframes, List.flatMap_cons]
    rfl

end Machine

end Starlark
