import Mathlib.Data.List.Forall2
import Starlark.Machine.Pool
import Starlark.Proofs.Machine.Limits
import Starlark.Proofs.Machine.Recursion

/-!
# Frames from a pool

An engine does step by step what its machine does (`Engine.machine_run`). Its active frames belong
to the active calls, one by one, and its idle frames are blank (`FramePool.Coherent`); every step
keeps that. So a call finds empty buffers, whatever earlier calls at its depth held, and leaves the
frames as it found them (`Engine.call_restores_frames`).
-/

set_option autoImplicit false

namespace Starlark

/-! ## Functions stay where they are -/

/-- Functions keep their references. -/
def Heap.KeepsFuncs (h h' : Heap) : Prop :=
  ∀ (i : Nat) (f : FuncObj), h.funcs[i]? = some f → h'.funcs[i]? = some f

namespace Heap.KeepsFuncs

variable {New : FuncObj → Prop} {h h' h'' : Heap}

theorem refl (h : Heap) : h.KeepsFuncs h := fun _ _ => id

theorem trans (h1 : h.KeepsFuncs h') (h2 : h'.KeepsFuncs h'') : h.KeepsFuncs h'' := fun i f hf =>
  h2 i f (h1 i f hf)

theorem of_eq (heq : h'.funcs = h.funcs) : h.KeepsFuncs h' := fun _ _ hf => heq ▸ hf

theorem newFunc (h : Heap) (f : FuncObj) : h.KeepsFuncs (h.newFunc f).2 := by
  intro i g hg
  have hi : i < h.funcs.size := (Array.getElem?_eq_some_iff.1 hg).1
  exact (Array.getElem?_push_lt hi).trans (Array.getElem?_eq_getElem hi ▸ hg)

/-- What a step alters, it alters beside the functions that are there. -/
theorem of_alters (ha : h.Alters New h') : h.KeepsFuncs h' := by
  cases ha with
  | change hc => cases hc <;> exact of_eq rfl
  | setCell r v => exact of_eq rfl
  | setGlobal r i v => exact of_eq rfl
  | newCell content => exact of_eq rfl
  | newFunc _ => exact newFunc h _
  | newToplevel p predeclared => exact newFunc (h.newModule p predeclared).2 _
  | freezeNode n => cases n <;> exact of_eq rfl

theorem of_altered (ha : h.Altered New h') : h.KeepsFuncs h' := by
  induction ha with
  | refl => exact refl h
  | tail _ ha ih => exact ih.trans (of_alters ha)

theorem of_altered_none (ha : h.Altered (fun _ => False) h') : h.KeepsFuncs h' := of_altered ha

theorem closeIter (h : Heap) (it : Iter) : h.KeepsFuncs (h.closeIter it) := by
  cases it <;> exact of_eq rfl

theorem closeAll (h : Heap) (its : List Iter) : h.KeepsFuncs (its.foldl Heap.closeIter h) := by
  induction its generalizing h with
  | nil => exact refl h
  | cons it its ih => exact (closeIter h it).trans (ih _)

theorem closeFrame (h : Heap) (frame : Frame) : h.KeepsFuncs (h.closeFrame frame) := by
  rw [Heap.closeFrame_eq]
  exact closeAll h _

theorem openIter {v : Value} {it : Option Iter} (ho : h.openIter v = (it, h')) :
    h.KeepsFuncs h' := by
  unfold Heap.openIter at ho
  split at ho
  · split at ho <;> cases ho <;> exact of_eq rfl
  · split at ho <;> cases ho <;> exact of_eq rfl
  · cases ho
    exact refl h
  · cases ho
    exact refl h

/-- Opening, advancing and closing iterators leaves functions alone. -/
theorem of_shift {live live' : List Iter} {event : Iter.Event}
    (hs : h.Shift New live event h' live') : h.KeepsFuncs h' := by
  cases hs with
  | close done rest ha => exact (of_altered ha).trans (closeAll _ done)
  | push live ho => exact openIter ho
  | advance live hn => exact refl h

/-- What a host does leaves functions where they are. -/
theorem of_performs {a : HostAct} {held held' : List Iter} (hp : a.Performs (h, held) (h', held')) :
    h.KeepsFuncs h' := by
  cases hp with
  | idle => exact refl h
  | operate o => exact of_altered_none (Heap.Tolerant.evolves (o.evolves_after h))
  | freeze v => exact of_altered_none (.freeze h v)
  | freezeModule r => exact of_altered_none (.freezeModule h r)
  | newFunc => exact newFunc h _
  | openIter _ ho => exact openIter ho
  | close => exact closeIter h _
  | _ => exact of_eq rfl

/-- A function of the host that stays active leaves functions where they are. -/
theorem of_letMove {t t' : Thread} {stack : CallStack} {b : BuiltinObj} {run run' : HostRun}
    (heffect : t.letMove h stack b run = .goOn h' t' run' ∨
      ∃ x, t.letMove h stack b run = .abort h' t' run' x) : h.KeepsFuncs h' := by
  unfold Thread.letMove at heffect
  -- only an act touches the heap, and no act takes a function away
  cases hmove : t.move h stack b run with
  | act a =>
    have hperforms := HostAct.performs_perform a (h, run.held)
    rw [hmove] at heffect
    dsimp only at heffect
    cases hrun : a.perform (h, run.held) with
    | ok v s =>
      rw [hrun] at hperforms heffect
      rcases heffect with heffect | ⟨x, heffect⟩
      · cases heffect
        exact of_performs hperforms
      · cases heffect
    | error e s =>
      rw [hrun] at hperforms heffect
      cases e with
      | error e =>
        rcases heffect with heffect | ⟨x, heffect⟩
        · cases heffect
          exact of_performs hperforms.1
        · cases heffect
      | abort y =>
        rcases heffect with heffect | ⟨x, heffect⟩
        · cases heffect
        · cases heffect
          exact of_performs hperforms.1
  | steer s =>
    rw [hmove] at heffect
    rcases heffect with heffect | ⟨x, heffect⟩
    · cases heffect
      exact refl h
    · cases heffect
  | call f args kwargs =>
    rw [hmove] at heffect
    rcases heffect with heffect | ⟨x, heffect⟩ <;> cases heffect
  | finish o =>
    rw [hmove] at heffect
    rcases heffect with heffect | ⟨x, heffect⟩ <;> cases heffect

end Heap.KeepsFuncs

/-! ## Frames and calls -/

namespace PooledFrame

/-- A frame that no call uses. -/
structure Blank (frame : PooledFrame) : Prop where
  callable : frame.callable = none
  locals : frame.locals = #[]
  stack : frame.stack = []

/-- Nothing is in the buffers of a frame. -/
def IsEmptied (frame : PooledFrame) : Prop := frame.locals = #[] ∧ frame.stack = []

/-- A frame belongs to an active call, which has taken its buffers. -/
def Tracks (h : Heap) (frame : PooledFrame) : Frame → Prop
  | .func a _ => (∃ r, frame.callable = some (.func r) ∧ h.funcs[r.index]? = some a.func) ∧
      frame.pc = a.pc ∧ frame.IsEmptied
  | .builtin r _ => frame.callable = some (.builtin r) ∧ frame.IsEmptied

variable {h h' : Heap} {frame : PooledFrame} {call : Frame}

/-- A frame that tracks a call has empty buffers. -/
theorem Tracks.isEmptied (ht : frame.Tracks h call) : frame.IsEmptied := by
  cases call with
  | func a pending => exact ht.2.2
  | builtin r run => exact ht.2

/-- A frame tracks its call in every heap with the same functions. -/
theorem Tracks.keep (ht : frame.Tracks h call) (hk : h.KeepsFuncs h') : frame.Tracks h' call := by
  cases call with
  | func a pending =>
    obtain ⟨⟨r, hcallable, hr⟩, hrest⟩ := ht
    exact ⟨⟨r, hcallable, hk _ _ hr⟩, hrest⟩
  | builtin r run => exact ht

/-- A frame is reported as its call is. -/
theorem Tracks.pooledFrame? (ht : frame.Tracks h call) :
    h.pooledFrame? frame = some (h.callFrame call) := by
  cases call with
  | func a pending =>
    obtain ⟨⟨r, hcallable, hr⟩, hpc, -⟩ := ht
    simp only [Heap.pooledFrame?, hcallable, hr, Option.map_some, hpc]
    rfl
  | builtin r run =>
    simp only [Heap.pooledFrame?, ht.1]
    rfl

end PooledFrame

namespace FramePool

/-- The active frames belong to the active calls, and the others are blank. -/
structure Coherent (p : FramePool) (h : Heap) (calls : List Frame) : Prop where
  active : List.Forall₂ (PooledFrame.Tracks h) p.active calls
  idle : ∀ frame ∈ p.idle, frame.Blank

variable {p : FramePool} {h h' : Heap} {call : Frame} {calls : List Frame}

/-- A pool is coherent with its calls in every heap with the same functions. -/
theorem Coherent.keep (hp : p.Coherent h calls) (hk : h.KeepsFuncs h') : p.Coherent h' calls :=
  ⟨hp.active.imp fun _ _ ht => ht.keep hk, hp.idle⟩

/-- As many frames are active as there are calls. -/
theorem Coherent.depth_eq (hp : p.Coherent h calls) : p.depth = calls.length := hp.active.length_eq

/-- The call stack that the pool tells is that of the calls. -/
theorem Coherent.callStack_eq (hp : p.Coherent h calls) : p.callStack h = h.callStack calls := by
  obtain ⟨active, idle⟩ := p
  have hactive : List.Forall₂ (PooledFrame.Tracks h) active calls := hp.active
  rw [callStack, Heap.callStack, List.reverse_inj]
  clear hp
  induction hactive with
  | nil => rfl
  | cons ht _ ih => rw [List.filterMap_cons, ht.pooledFrame?, List.map_cons, ih]

/-- The calls that a frame is asked for are those of the call stack, counted from its end. -/
theorem Coherent.callFrame?_eq (hp : p.Coherent h calls) (n : Nat) :
    p.callFrame? h n = (p.callStack h).reverse[n]? := by
  rw [hp.callStack_eq, Heap.callStack, List.reverse_reverse, List.getElem?_map]
  obtain ⟨active, idle⟩ := p
  have hactive : List.Forall₂ (PooledFrame.Tracks h) active calls := hp.active
  unfold callFrame?
  clear hp
  induction hactive generalizing n with
  | nil => rfl
  | cons ht _ ih =>
    cases n with
    | zero => simp [ht.pooledFrame?]
    | succ n => simpa using ih n

/-- The innermost call is replaced by one that the same frame belongs to. -/
theorem Coherent.replace {call' : Frame} (hp : p.Coherent h (call :: calls))
    (ht : ∀ frame : PooledFrame, frame.Tracks h call → frame.Tracks h call') :
    p.Coherent h (call' :: calls) := by
  obtain ⟨active, idle⟩ := p
  obtain ⟨hactive, hidle⟩ := hp
  cases hactive with
  | cons htop hrest => exact ⟨.cons (ht _ htop) hrest, hidle⟩

/-- Emptied buffers are taken and returned without a change. -/
theorem Coherent.emptied_eq (hp : p.Coherent h (call :: calls)) :
    p.modifyTop (fun frame => { frame with locals := #[], stack := [] }) = p := by
  obtain ⟨active, idle⟩ := p
  cases hp.active with
  | @cons frame _ frames _ htop hrest =>
    obtain ⟨hlocals, hstack⟩ := htop.isEmptied
    rw [modifyTop, List.modifyHead_cons, ← hlocals, ← hstack]

/-- The buffers of the innermost frame are empty when they are taken. -/
theorem Coherent.takeBuffers_eq (hp : p.Coherent h (call :: calls)) :
    p.takeBuffers = ((#[], []), p) := by
  have hsame := hp.emptied_eq
  rw [takeBuffers, hsame]
  obtain ⟨active, idle⟩ := p
  cases hp.active with
  | cons htop _ =>
    obtain ⟨hlocals, hstack⟩ := htop.isEmptied
    rw [List.headD_cons, hlocals, hstack]

/-- Giving back empty buffers changes nothing. -/
theorem Coherent.release_eq (hp : p.Coherent h (call :: calls)) (left : Frame) :
    p.release left = p := by
  cases left with
  | func a pending => exact hp.emptied_eq
  | builtin r run => rfl

/-- The innermost call is over. -/
theorem Coherent.pop (hp : p.Coherent h (call :: calls)) : p.pop.Coherent h calls := by
  obtain ⟨active, idle⟩ := p
  obtain ⟨hactive, hidle⟩ := hp
  cases hactive with
  | cons htop hrest =>
    obtain ⟨hlocals, hstack⟩ := htop.isEmptied
    exact ⟨hrest, List.forall_mem_cons.2 ⟨⟨rfl, hlocals, hstack⟩, hidle⟩⟩

/-- Popping takes the innermost active frame. -/
theorem active_pop (p : FramePool) : p.pop.active = p.active.tail := by
  obtain ⟨active, idle⟩ := p
  cases active <;> rfl

/-- Changing the innermost frame leaves the others. -/
theorem tail_active_modifyTop (p : FramePool) (f : PooledFrame → PooledFrame) :
    (p.modifyTop f).active.tail = p.active.tail := by
  obtain ⟨active, idle⟩ := p
  cases active <;> rfl

/-- The instruction of the innermost function is recorded. -/
theorem Coherent.setPc {a b : Activation} {pending pending' : Pending}
    (hp : p.Coherent h (.func a pending :: calls)) (hfunc : b.func = a.func) :
    (p.setPc b.pc).Coherent h (.func b pending' :: calls) := by
  obtain ⟨active, idle⟩ := p
  obtain ⟨hactive, hidle⟩ := hp
  cases hactive with
  | cons htop hrest =>
    obtain ⟨hcallable, -, hemptied⟩ := htop
    exact ⟨.cons ⟨hfunc ▸ hcallable, rfl, hemptied⟩ hrest, hidle⟩

/-- A pushed frame is above those of the callers, and what is left of the pool is blank. -/
structure Pushed (p' p : FramePool) (h : Heap) (callable : Value) (calls : List Frame) : Prop where
  top : ∃ frame : PooledFrame, p'.active = frame :: p.active ∧ frame.callable = some callable ∧
    frame.pc = 0 ∧ frame.IsEmptied
  rest : List.Forall₂ (PooledFrame.Tracks h) p.active calls
  idle : ∀ frame ∈ p'.idle, frame.Blank

/-- A frame is pushed unless the limit is reached, in the pool as for the calls. -/
theorem Coherent.push (hp : p.Coherent h calls) (limit : Nat) (callable : Value) :
    (limit ≤ calls.length ∧ p.push limit callable = none) ∨
      (¬ limit ≤ calls.length ∧ ∃ p', p.push limit callable = some p' ∧
          p'.Pushed p h callable calls) := by
  unfold FramePool.push
  rw [hp.depth_eq]
  by_cases hlimit : limit ≤ calls.length
  · exact .inl ⟨hlimit, if_pos hlimit⟩
  · refine .inr ⟨hlimit, _, if_neg hlimit, ⟨_, rfl, rfl, rfl, ?_⟩, hp.active, fun frame hf =>
      hp.idle frame (List.mem_of_mem_tail hf)⟩
    cases hidle : p.idle with
    | nil => exact ⟨rfl, rfl⟩
    | cons frame idle =>
      have hblank := hp.idle frame (hidle ▸ List.mem_cons_self)
      exact ⟨hblank.locals, hblank.stack⟩

variable {p' : FramePool} {callable : Value}

/-- A frame that was pushed for a call makes the pool coherent with it. -/
theorem Pushed.coherent (hp : p'.Pushed p h callable calls)
    (ht : ∀ frame : PooledFrame, frame.callable = some callable → frame.pc = 0 → frame.IsEmptied →
      frame.Tracks h call) : p'.Coherent h (call :: calls) := by
  obtain ⟨frame, hactive, hcallable, hpc, hemptied⟩ := hp.top
  refine ⟨?_, hp.idle⟩
  rw [hactive]
  exact .cons (ht frame hcallable hpc hemptied) hp.rest

/-- A push does not exceed the limit. -/
theorem depth_push_le {limit : Nat} (hpush : p.push limit callable = some p') :
    p'.depth ≤ limit := by
  unfold FramePool.push at hpush
  split at hpush
  · cases hpush
  · rename_i hroom
    cases hpush
    exact Nat.lt_of_not_le hroom

/-- A push leaves the active frames below the new one. -/
theorem Pushed.below (hp : p'.Pushed p h callable calls) : p.active <:+ p'.active.tail := by
  obtain ⟨frame, hactive, -⟩ := hp.top
  rw [hactive]
  exact List.suffix_refl _

/-- The guard looks at the calls below the new one. -/
theorem Pushed.isActive_eq (hp : p'.Pushed p h callable calls) (f : FuncObj) :
    p'.isActive h f = h.isActive f calls := by
  obtain ⟨frame, hactive, -⟩ := hp.top
  obtain ⟨active, idle⟩ := p
  have hcallers : p'.callers = active.filterMap (·.callable) := by rw [callers, hactive]; rfl
  have hrest : List.Forall₂ (PooledFrame.Tracks h) active calls := hp.rest
  rw [isActive, hcallers, Heap.isActive]
  clear hcallers hactive hp
  induction hrest with
  | nil => rfl
  | @cons frame call frames calls ht _ ih =>
    rw [List.any_cons, ← ih]
    cases call with
    | func a pending =>
      obtain ⟨⟨r, hcallable, hr⟩, -⟩ := ht
      rw [List.filterMap_cons_some hcallable, List.any_cons]
      simp only [hr, Option.any_some]
    | builtin r run => rw [List.filterMap_cons_some ht.1, List.any_cons, Bool.false_or]

end FramePool

/-! ## Steps -/

namespace Engine

/-- The frames of an engine belong to its calls. -/
def Coherent (e : Engine) : Prop := e.pool.Coherent e.heap e.frames

/-- An engine stands for a machine, and its innermost frames are above the given ones. -/
structure Mirrors (below : List PooledFrame) (e : Engine) (m : Machine) : Prop where
  machine : e.machine = m
  coherent : e.Coherent
  above : below <:+ e.pool.active

variable {heap : Heap} {thread : Thread} {pool : FramePool} {call : Frame} {calls : List Frame}
  {below : List PooledFrame}

/-- An engine with the calls of the machine and a coherent pool mirrors it. -/
theorem mirrors_same {m : Machine} {e : Engine} (hm : e.machine = m) (he : e.Coherent)
    (hb : below <:+ e.pool.active.tail) : e.Mirrors below m :=
  ⟨hm, he, hb.trans (List.tail_suffix _)⟩

/-- Leaving a call pops its frame. -/
theorem mirrors_leave (hp : pool.Coherent heap (call :: calls)) (hb : below <:+ pool.active.tail)
    (v : Value) : (leave heap thread pool (call :: calls) v).Mirrors below
      (Machine.leave heap thread (call :: calls) v) := by
  have hpool : (leave heap thread pool (call :: calls) v).pool = pool.pop := by
    simp only [leave, hp.release_eq]
  refine ⟨rfl, ?_, ?_⟩
  · rw [Coherent, hpool]
    exact hp.pop.keep (.closeFrame heap call)
  · rw [hpool, FramePool.active_pop]
    exact hb

/-- Failing tells the call stack, and pops its frame. -/
theorem mirrors_fail (hp : pool.Coherent heap (call :: calls)) (hb : below <:+ pool.active.tail)
    (e : Error) : (fail heap thread pool (call :: calls) e).Mirrors below
      (Machine.fail heap thread (call :: calls) e) := by
  have hpool : (fail heap thread pool (call :: calls) e).pool = pool.pop := by
    simp only [fail, hp.release_eq]
  refine ⟨?_, ?_, ?_⟩
  · simp only [fail, machine, Machine.fail, hp.release_eq, hp.callStack_eq]
  · rw [Coherent, hpool]
    exact hp.pop.keep (.closeFrame heap call)
  · rw [hpool, FramePool.active_pop]
    exact hb

theorem mirrors_stop (hp : pool.Coherent heap (call :: calls)) (hb : below <:+ pool.active.tail)
    (e : Stop) : (stop heap thread pool (call :: calls) e).Mirrors below
      (Machine.stop heap thread (call :: calls) e) := by
  cases e with
  | error e => exact mirrors_fail hp hb e
  | abort a => exact mirrors_same rfl hp hb

/-- Slots that are made of no slots are unbound. -/
theorem resizeSlots_nil (size : Nat) : resizeSlots #[] size = Array.replicate size none := by
  simp [resizeSlots]

/-- Entering a function takes the buffers of its frame. -/
theorem mirrors_enter {r : FuncRef} {f : FuncObj} {p : FramePool}
    (hp : pool.Pushed p heap (.func r) calls) (hb : below <:+ pool.active.tail)
    (hf : heap.funcs[r.index]? = some f) (args : List Value) (kwargs : Keywords) :
    (enter heap thread pool calls f args kwargs).Mirrors below
      (Machine.enter heap thread calls f args kwargs) := by
  -- the new frame is coherent whatever locals and stack it is given
  have hframe :
      ∀ locals stack, pool.Coherent heap (.func { func := f, locals, stack } .call :: calls) :=
    fun locals stack => hp.coherent fun _ hcallable hpc hemptied =>
        ⟨⟨r, hcallable, hf⟩, hpc, hemptied⟩
  have hunstarted := hframe #[] []
  unfold enter Machine.enter
  dsimp only
  rw [hp.isActive_eq, hunstarted.takeBuffers_eq, resizeSlots_nil]
  by_cases hguard : (!(heap.programOf f).recursion && heap.isActive f calls) = true
  · rw [if_pos hguard, if_pos hguard, hunstarted.callStack_eq]
    exact ⟨rfl, hunstarted.pop, pool.active_pop ▸ hb⟩
  rw [if_neg hguard, if_neg hguard]
  cases hbind : bindArguments (heap.codeOf f) f.defaults args kwargs
      (Bound.empty (heap.codeOf f).locals.size) with
  | error e bound =>
    rw [Bound.empty] at hbind
    simp only [hbind]
    exact mirrors_stop hunstarted hb e
  | ok _ bound =>
    rw [Bound.empty] at hbind
    simp only [hbind]
    have hinstall : heap.KeepsFuncs (bound.install heap).2 :=
      .of_altered_none (.install heap (Bound.namesOnce_of_bindArguments hbind))
    cases hbox : (bound.install heap).2.boxCells (bound.install heap).1 (heap.codeOf f).cells with
    | error x => exact mirrors_same rfl (hunstarted.keep hinstall) hb
    | ok boxed =>
      obtain ⟨locals, heap'⟩ := boxed
      have hboxed : (bound.install heap).2.KeepsFuncs heap' :=
        .of_altered_none (.boxCells hbox)
      exact mirrors_same rfl ((hframe locals []).keep (hinstall.trans hboxed)) hb

/-- Running a builtin leaves its buffers alone. -/
theorem mirrors_runBuiltin {r : BuiltinRef} {p : FramePool}
    (hp : pool.Pushed p heap (.builtin r) calls) (hb : below <:+ pool.active.tail)
    (args : List Value)
    (kwargs : Keywords) : (runBuiltin heap thread pool calls r args kwargs).Mirrors below
      (Machine.runBuiltin heap thread calls r args kwargs) := by
  have hframe : pool.Coherent heap (.builtin r { args, kwargs } :: calls) :=
    hp.coherent fun _ hcallable _ hemptied => ⟨hcallable, hemptied⟩
  unfold runBuiltin Machine.runBuiltin
  dsimp only
  -- printing and the host's functions are the machine's own; all others are one operation of the
  -- heap
  cases hop : (heap.builtin r).op with
  | print =>
    cases heap.printLine args kwargs with
    | ok line => exact mirrors_leave hframe hb _
    | error e => exact mirrors_fail hframe hb e
  | host name code => exact mirrors_same rfl hframe hb
  | _ =>
    have hstandard := Op.regular_callStandard (heap.builtin r) args kwargs
    cases hcalled : Op.callStandard (heap.builtin r) args kwargs heap with
    | ok v heap' =>
      have hk : heap.KeepsFuncs heap' :=
        .of_altered_none (Heap.Tolerant.evolves (hstandard.ok hcalled))
      exact mirrors_leave (hframe.keep hk) hb v
    | error e heap' =>
      have hk : heap.KeepsFuncs heap' :=
        .of_altered_none (Heap.Tolerant.evolves (hstandard.error hcalled).1)
      exact mirrors_stop (hframe.keep hk) hb e

/-- A call leaves all active frames in place. -/
theorem mirrors_invoke (hp : pool.Coherent heap calls) (f : Value) (args : List Value)
    (kwargs : Keywords) :
    (invoke heap thread pool calls f args kwargs).Mirrors pool.active
      (Machine.invoke heap thread calls f args kwargs) := by
  have hrefused : ∀ c, Mirrors pool.active ⟨heap, thread, pool, calls, c⟩
      ⟨heap, thread, calls, c⟩ :=
    fun c => ⟨rfl, hp, List.suffix_refl _⟩
  unfold invoke Machine.invoke
  -- both refuse at the same depth, and a callee of any other kind before a frame is pushed
  cases f with
  | func r =>
    rcases hp.push thread.maxDepth (.func r) with ⟨hlimit, hpush⟩ | ⟨hlimit, pushed, hpush, hpushed⟩
    · simp only [hpush, if_pos hlimit]
      exact hrefused _
    · simp only [hpush, if_neg hlimit]
      cases hf : heap.funcs[r.index]? with
      | none => exact hrefused _
      | some g => exact mirrors_enter hpushed hpushed.below hf args kwargs
  | builtin r =>
    rcases hp.push thread.maxDepth (.builtin r) with ⟨hlimit, hpush⟩ | ⟨hlimit, pushed,
        hpush, hpushed⟩
    · simp only [hpush, if_pos hlimit]
      exact hrefused _
    · simp only [hpush, if_neg hlimit]
      exact mirrors_runBuiltin hpushed hpushed.below args kwargs
  | _ => exact hrefused _

/-- Binding members goes on in the same frame, or pops it. -/
theorem mirrors_bindMembers {a : Activation} (hp : pool.Coherent heap (.func a .call :: calls))
    (hb : below <:+ pool.active.tail) (name : String) (count : Nat) (members : Env) :
    (bindMembers heap thread pool a calls name count members).Mirrors below
      (Machine.bindMembers heap thread a calls name count members) := by
  have hquiet := Machine.quiet_replaceNames (K := Heap.Altered fun _ => False) members name count
    a.stack
  unfold bindMembers Machine.bindMembers
  cases hrun : Op.replaceNames members name count a.stack heap with
  | ok st heap' =>
    exact mirrors_same rfl ((hp.keep (.of_altered (hquiet.ok hrun).1)).replace fun _ ht => ht) hb
  | error e heap' => exact mirrors_stop (hp.keep (.of_altered (hquiet.error hrun).1)) hb e

/-- Loading goes on in the same frame, or pushes one for the toplevel of the module. -/
theorem mirrors_load {a : Activation} (hp : pool.Coherent heap (.func a .call :: calls))
    (hb : below <:+ pool.active.tail) (name : String) (count : Nat) :
    (load heap thread pool a calls name count).Mirrors below
      (Machine.load heap thread a calls name count) := by
  unfold load Machine.load
  cases thread.source? name with
  | error e => exact mirrors_fail hp hb _
  | ok source =>
    cases source with
    | failure message => exact mirrors_fail hp hb _
    | members members => exact mirrors_bindMembers hp hb name count members
    | program p predeclared =>
      have hk : heap.KeepsFuncs ((heap.newModule p predeclared).2.newFunc
          ⟨(heap.newModule p predeclared).1, .toplevel, #[], #[]⟩).2 := .newFunc _ _
      exact mirrors_same rfl ((hp.keep hk).replace fun _ ht => ht) hb

/-- Handing over an outcome pops the frame of a call that it ends. -/
theorem mirrors_deliver (hp : pool.Coherent heap calls) (r : Except Error Value) :
    (deliver heap thread pool calls r).Mirrors pool.active.tail
      (Machine.deliver heap thread calls r) := by
  have hb : pool.active.tail <:+ pool.active.tail := List.suffix_refl _
  unfold deliver Machine.deliver
  -- by the frame that waits and, in a function, by whether it waits for a call or for a module
  cases calls with
  | nil => exact mirrors_same rfl hp hb
  | cons call calls =>
    cases call with
    | builtin b run => exact mirrors_same rfl (hp.replace fun _ ht => ht) hb
    | func a pending =>
      cases pending with
      | call =>
        cases r with
        | ok v => exact mirrors_same rfl (hp.replace fun _ ht => ht) hb
        | error e => exact mirrors_fail hp hb e
      | load name count module =>
        have hk : heap.KeepsFuncs (heap.freezeModule module) :=
          .of_altered_none (.freezeModule heap module)
        have hfrozen : pool.Coherent (heap.freezeModule module) (.func a .call :: calls) :=
          (hp.keep hk).replace fun _ ht => ht
        cases r with
        | ok v => exact mirrors_bindMembers hfrozen hb name count _
        | error e => exact mirrors_fail hfrozen hb _

/-- A function of the host finds the same calls in the pool. -/
theorem mirrors_host {r : BuiltinRef} {run : HostRun}
    (hp : pool.Coherent heap (.builtin r run :: calls)) :
    (host heap thread pool r run calls).Mirrors pool.active.tail
      (Machine.host heap thread r run calls) := by
  have hb : pool.active.tail <:+ pool.active.tail := List.suffix_refl _
  unfold host Machine.host
  dsimp only
  rw [hp.callStack_eq]
  cases heffect : thread.letMove heap (heap.callStack (.builtin r run :: calls))
      (heap.builtin r) run with
  | goOn heap' thread' run' =>
    exact mirrors_same rfl ((hp.keep (.of_letMove (.inl heffect))).replace fun _ ht => ht) hb
  | call thread' f args kwargs => exact mirrors_same rfl hp hb
  | finish thread' o =>
    cases o with
    | ok v => exact mirrors_leave hp hb v
    | error e => exact mirrors_fail hp hb e
  | abort heap' thread' run' x =>
    exact mirrors_same rfl ((hp.keep (.of_letMove (.inr ⟨x, heffect⟩))).replace fun _ ht => ht) hb

/-- An instruction works in the innermost frame. -/
theorem mirrors_exec {a : Activation} {pending : Pending}
    (hp : pool.Coherent heap (.func a pending :: calls)) :
    (exec heap thread pool a calls).Mirrors pool.active.tail
        (Machine.exec heap thread a calls) := by
  have hcall : pool.Coherent heap (.func a .call :: calls) := hp.replace fun _ ht => ht
  -- the pool holds its own copy of the counter, set before the instruction runs
  have hset : ∀ b : Activation, b.func = a.func → b.pc = a.next →
      (pool.setPc a.next).Coherent heap (.func b .call :: calls) := fun b hfunc hpc =>
    hpc ▸ hcall.setPc hfunc
  have htail : (pool.setPc a.next).active.tail = pool.active.tail := by
    rw [FramePool.setPc, FramePool.tail_active_modifyTop]
  have hb : pool.active.tail <:+ (pool.setPc a.next).active.tail := htail ▸ List.suffix_refl _
  unfold exec Machine.exec
  dsimp only
  cases thread.tick.cancelled with
  | some reason => exact mirrors_fail hcall (List.suffix_refl _) _
  | none =>
    dsimp only
    cases fetch (heap.tables a.func).code.code a.next with
    | error e => exact mirrors_fail (hset { a with pc := a.next } rfl rfl) hb _
    | ok f =>
      have hrun := Activation.shifts_execute heap f.op (f.arg.getD 0)
        { a with pc := a.next, next := f.next }
      dsimp only at hrun ⊢
      cases he : Activation.execute (heap.tables a.func) f.op (f.arg.getD 0)
          { a with pc := a.next, next := f.next } heap with
      | error e heap' =>
        rw [he] at hrun
        exact mirrors_stop ((hset { a with pc := a.next } rfl rfl).keep (.of_altered hrun.1)) hb e
      | ok effect heap' =>
        rw [he] at hrun
        cases effect with
        | proceed b =>
          exact mirrors_same rfl ((hset b hrun.2.1 hrun.2.2).keep (.of_shift hrun.1)) hb
        | finish v =>
          exact mirrors_leave ((hset { a with pc := a.next } rfl rfl).keep (.of_altered hrun.1)) hb
              v
        | call b g args kwargs =>
          obtain ⟨haltered, ⟨hfunc, -, hpc⟩, -⟩ := hrun
          exact mirrors_same rfl ((hset b hfunc hpc).keep (.of_altered haltered)) hb
        | load b name count =>
          obtain ⟨haltered, ⟨hfunc, -, hpc⟩, -⟩ := hrun
          exact mirrors_load ((hset b hfunc hpc).keep (.of_altered haltered)) hb name count

/-- An engine does what its machine does, and only its innermost frame changes. -/
theorem mirrors_step {e : Engine} (he : e.Coherent) :
    e.step.Mirrors e.pool.active.tail e.machine.step := by
  have hb : e.pool.active.tail <:+ e.pool.active.tail := List.suffix_refl _
  obtain ⟨heap, thread, pool, calls, control⟩ := e
  -- by the control and, where a frame is needed, by the kind of the innermost one
  cases control with
  | exec =>
    cases calls with
    | nil => exact mirrors_same rfl he hb
    | cons call calls =>
      cases call with
      | builtin r run => exact mirrors_same rfl he hb
      | func a pending => exact mirrors_exec he
  | invoke f args kwargs =>
    have hinvoke : (invoke heap thread pool calls f args kwargs).Mirrors pool.active
        (Machine.invoke heap thread calls f args kwargs) := mirrors_invoke he f args kwargs
    exact ⟨hinvoke.machine, hinvoke.coherent, (List.tail_suffix _).trans hinvoke.above⟩
  | host =>
    cases calls with
    | nil => exact mirrors_same rfl he hb
    | cons call calls =>
      cases call with
      | builtin r run => exact mirrors_host he
      | func a pending => exact mirrors_same rfl he hb
  | deliver r => exact mirrors_deliver he r
  | finished r => exact mirrors_same rfl he hb
  | aborted a => exact mirrors_same rfl he hb

theorem run_succ (n : Nat) (e : Engine) : e.run (n + 1) = e.step.run n := by
  have hdone : e.machine.isDone → e.step = e := by
    obtain ⟨heap, thread, pool, calls, control⟩ := e
    cases control <;> intro h <;> first | rfl | cases h
  have hstays : e.machine.isDone → e.run n = e := by
    intro h
    cases n with
    | zero => rfl
    | succ n => simp [run, h]
  by_cases h : e.machine.isDone
  · rw [hdone h, hstays h]
    simp [run, h]
  · simp [run, h]

theorem run_add (m n : Nat) (e : Engine) : e.run (m + n) = (e.run m).run n := by
  induction m generalizing e with
  | zero => rw [Nat.zero_add]; rfl
  | succ m ih => rw [Nat.succ_add, run_succ, run_succ, ih]

/-- An engine does what its machine does. -/
theorem coherent_run {e : Engine} (he : e.Coherent) (n : Nat) :
    (e.run n).machine = e.machine.run n ∧ (e.run n).Coherent := by
  induction n generalizing e with
  | zero => exact ⟨rfl, he⟩
  | succ n ih =>
    have hstep := mirrors_step he
    rw [run_succ, Machine.run_succ, ← hstep.machine]
    exact ih hstep.coherent

end Engine

/-! ## Depth -/

namespace Machine

/-- No more calls are active than the thread allows. -/
def Roomy (m : Machine) : Prop := m.frames.length ≤ m.thread.maxDepth

/-- No step uses more frames than are allowed. -/
theorem Roomy.next {m m' : Machine} (hm : m.Roomy) (hn : m.Next m') : m'.Roomy := by
  unfold Roomy at *
  rw [hn.ticks.maxDepth]
  cases hn with
  | halt _ _ _ => exact hm
  | leave hframes _ _ _ =>
    rw [hframes, List.length_cons] at hm
    exact Nat.le_of_succ_le hm
  | resume hframes _ _ _ _ =>
    rw [hframes] at hm
    exact hm
  | back _ _ _ => exact hm
  | enter _ _ hframe _ => exact hframe.1
  | answer hframes _ =>
    rw [hframes] at hm
    exact hm
  | turn hframes _ _ _ _ =>
    rw [hframes] at hm
    exact hm

/-- No run uses more frames than are allowed, and their number stays allowed. -/
theorem roomy_run {m : Machine} (hm : m.Roomy) (n : Nat) :
    (m.run n).Roomy ∧ (m.run n).thread.maxDepth = m.thread.maxDepth := by
  induction n generalizing m with
  | zero => exact ⟨hm, rfl⟩
  | succ n ih =>
    rw [run_succ]
    obtain ⟨hroomy, hmax⟩ := ih (hm.next m.next_step)
    exact ⟨hroomy, hmax.trans m.next_step.ticks.maxDepth⟩

/-- A function starts with the slots that its arguments are bound to, its captured ones boxed, and
with an empty operand stack. -/
theorem enter_eq_exec {heap : Heap} {thread : Thread} {callers : List Frame} {f : FuncObj}
    {args : List Value} {kwargs : Keywords}
    (hexec : (enter heap thread callers f args kwargs).control = .exec) :
    ∃ bound locals heap', bindArguments (heap.codeOf f) f.defaults args kwargs
        (Bound.empty (heap.codeOf f).locals.size) = .ok () bound ∧
      (bound.install heap).2.boxCells (bound.install heap).1 (heap.codeOf f).cells =
        .ok (locals, heap') ∧
      enter heap thread callers f args kwargs =
        ⟨heap', thread, .func { func := f, locals } .call :: callers, .exec⟩ := by
  generalize hm : enter heap thread callers f args kwargs = m at hexec ⊢
  have henters : Enters heap thread callers f args kwargs m := hm ▸ enters_enter ..
  cases henters with
  | recurs | unboxed => cases hexec
  | @unbound e => cases e <;> cases hexec
  | starts _ hbind hbox => exact ⟨_, _, _, hbind, hbox, rfl⟩

end Machine

/-! ## Threads -/

/-- The first call has ended. -/
def Control.isFinished : Control → Bool
  | .finished _ => true
  | _ => false

/-- No call is active where a run has finished. -/
theorem Machine.frames_of_isFinished {m : Machine} (hp : m.Poised) (hm : m.control.isFinished) :
    m.frames = [] := by
  cases hc : m.control with
  | finished r => exact frames_of_finished hp hc
  | _ =>
    rw [hc] at hm
    cases hm

namespace Engine

/-- The states of a thread: it has a new pool when it first calls, it goes on step by step, and it
calls again, from any heap, with the pool that the last call left. -/
inductive Reachable : Engine → Prop where
  | first (heap : Heap) (thread : Thread) (f : Value) (args : List Value) (kwargs : Keywords) :
      Reachable (start heap thread {} f args kwargs)
  | again {e : Engine} (he : Reachable e) (hdone : e.control.isFinished)
      (heap : Heap) (thread : Thread) (f : Value) (args : List Value) (kwargs : Keywords) :
      Reachable (start heap thread e.pool f args kwargs)
  | step {e : Engine} (he : Reachable e) : Reachable e.step

/-- What holds in every state of a thread. -/
structure Ordered (e : Engine) : Prop where
  coherent : e.Coherent
  poised : e.machine.Poised
  roomy : e.machine.Roomy

/-- Every state of an engine that can come about is in order. -/
theorem Reachable.ordered {e : Engine} (he : e.Reachable) : e.Ordered := by
  induction he with
  | first heap thread f args kwargs => exact ⟨⟨.nil, nofun⟩, trivial, Nat.zero_le _⟩
  | @again e _ hdone heap thread f args kwargs ih =>
    -- the last call has ended, so no frame is active
    have hframes : e.frames = [] := Machine.frames_of_isFinished ih.poised hdone
    obtain ⟨hactive, hidle⟩ := ih.coherent
    rw [hframes] at hactive
    refine ⟨⟨?_, hidle⟩, trivial, Nat.zero_le _⟩
    have hnil : e.pool.active = [] := List.forall₂_nil_right_iff.1 hactive
    rw [start, hnil]
    exact .nil
  | step _ ih =>
    obtain ⟨hmachine, hcoherent, -⟩ := mirrors_step ih.coherent
    exact ⟨hcoherent, hmachine ▸ Machine.poised_step ih.poised,
      hmachine ▸ ih.roomy.next (Machine.next_step _)⟩

/-- As long as more frames are active than when a call was made, those are in place. -/
theorem above_run {e : Engine} (he : e.Coherent) {f : Value} {args : List Value} {kwargs : Keywords}
    (hcall : e.control = .invoke f args kwargs) {k : Nat} (hk : 0 < k)
    (hfirst : ∀ j, 0 < j → j < k → e.pool.depth < (e.run j).pool.depth) :
    e.pool.active <:+ (e.run k).pool.active := by
  -- each step keeps all frames of the pool but the innermost, which is still one above the caller's
  induction k with
  | zero => exact absurd hk (Nat.lt_irrefl 0)
  | succ k ih =>
    rcases Nat.eq_zero_or_pos k with rfl | hpos
    · rw [run_succ]
      obtain ⟨heap, thread, pool, calls, control⟩ := e
      cases hcall
      exact (mirrors_invoke he f args kwargs).above
    · have hbelow := ih hpos fun j hj hjk => hfirst j hj (Nat.lt_succ_of_lt hjk)
      have hdeep := hfirst k hpos (Nat.lt_succ_self k)
      obtain ⟨pre, hpre⟩ := hbelow
      rw [run_add k 1, run_succ]
      refine List.IsSuffix.trans ?_ (mirrors_step (coherent_run he k).2).above
      rw [FramePool.depth, FramePool.depth, ← hpre, List.length_append] at hdeep
      obtain ⟨frame, pre, rfl⟩ := List.exists_cons_of_ne_nil (l := pre) fun hnil => by
        rw [hnil] at hdeep
        simp at hdeep
      rw [← hpre]
      exact List.suffix_append pre e.pool.active

/-- Calls leave the frames as they found them. Take any state of a thread in which a value is
called: while the call runs, never more frames are active than allowed, not even when another one
has just been pushed; when it comes back, with whatever outcome, the active frames are the same,
with the same callables and instructions, and all others are blank. A function that starts has the
slots that its arguments are bound to, its captured ones boxed, and an empty operand stack. -/
theorem call_restores_frames {e : Engine} (he : e.Reachable) {f : Value} {args : List Value}
    {kwargs : Keywords} (hcall : e.control = .invoke f args kwargs) :
    (∀ n, (e.run n).pool.depth ≤ e.thread.maxDepth ∧
      ∀ v p, (e.run n).pool.push (e.run n).thread.maxDepth v = some p →
        p.depth ≤ e.thread.maxDepth) ∧
    (∀ k, 0 < k → (e.run k).pool.depth ≤ e.pool.depth →
      (∀ j, 0 < j → j < k → e.pool.depth < (e.run j).pool.depth) →
      (∃ r, (e.run k).control = .deliver r) ∧ (e.run k).pool.active = e.pool.active ∧
      ∀ frame ∈ (e.run k).pool.idle, frame.Blank) ∧
    ∀ r g, f = .func r → e.heap.funcs[r.index]? = some g → e.step.control = .exec →
      ∃ bound locals, bindArguments (e.heap.codeOf g) g.defaults args kwargs
          (Bound.empty (e.heap.codeOf g).locals.size) = .ok () bound ∧
        (bound.install e.heap).2.boxCells (bound.install e.heap).1 (e.heap.codeOf g).cells =
          .ok (locals, e.step.heap) ∧
        e.step.frames = .func { func := g, locals, stack := [] } .call :: e.frames := by
  obtain ⟨hcoherent, -, hroomy⟩ := he.ordered
  refine ⟨fun n => ?_, fun k hk hback hfirst => ?_, fun r g hf hg hexec => ?_⟩
  · obtain ⟨hmachine, hrun⟩ := coherent_run hcoherent n
    obtain ⟨hle, hmax⟩ := Machine.roomy_run hroomy n
    rw [← hmachine] at hmax
    rw [Machine.Roomy, ← hmachine, hmax] at hle
    refine ⟨?_, fun v p hpush => ?_⟩
    · rw [hrun.depth_eq]
      exact hle
    · exact Nat.le_trans (FramePool.depth_push_le hpush) (Nat.le_of_eq hmax)
  · have hdepth : ∀ j, (e.run j).pool.depth = (e.machine.run j).frames.length := fun j => by
      obtain ⟨hmachine, hrun⟩ := coherent_run hcoherent j
      rw [hrun.depth_eq, ← hmachine]
      rfl
    have hbase : e.pool.depth = e.machine.frames.length := hcoherent.depth_eq
    obtain ⟨hmachine, hrun⟩ := coherent_run hcoherent k
    have hreturned := Machine.back_run (m := e.machine) hcall hk (hdepth k ▸ hbase ▸ hback)
      fun j hj hjk => hdepth j ▸ hbase ▸ hfirst j hj hjk
    obtain ⟨r, hr⟩ := hreturned.2
    -- the frames of the callers are a suffix of the active ones, and as many as them
    have habove := above_run hcoherent hcall hk hfirst
    refine ⟨⟨r, ?_⟩, ?_, hrun.idle⟩
    · rw [← hmachine] at hr
      exact hr
    · exact (habove.eq_of_length_le hback).symm
  · have hmachine := (mirrors_step hcoherent).machine
    subst hf
    -- a call that starts was not refused
    have hroom : e.frames.length < e.thread.maxDepth := by
      refine Nat.lt_of_not_le fun hfull => ?_
      have hrefused := Machine.step_of_full (m := e.machine) hcall (.inl ⟨r, rfl⟩) hfull
      rw [← hmachine] at hrefused
      rw [show e.step.control = _ from congrArg Machine.control hrefused] at hexec
      cases hexec
    rw [Machine.step_of_room (m := e.machine) hcall hg hroom] at hmachine
    have hstarts : (Machine.enter e.heap e.thread e.frames g args kwargs).control = .exec := by
      rw [← hexec]
      exact congrArg Machine.control hmachine.symm
    obtain ⟨bound, locals, heap, hbind, hbox, henter⟩ := Machine.enter_eq_exec hstarts
    replace hmachine := hmachine.trans henter
    have hheap : e.step.heap = heap := congrArg Machine.heap hmachine
    exact ⟨bound, locals, hbind, hheap ▸ hbox, congrArg Machine.frames hmachine⟩

/-- What can come about can run on. -/
theorem Reachable.run {e : Engine} (he : e.Reachable) (n : Nat) : (e.run n).Reachable := by
  induction n generalizing e with
  | zero => exact he
  | succ n ih =>
    rw [run_succ]
    exact ih he.step

/-- A function is called twice, and each time its call of itself is refused. The second time both
work in the frames that the first time left. -/
theorem call_restores_frames_selfApplying :
    let thread := Thread.new "main" none 10 true
    let start (pool : FramePool) := start Session.selfApplying thread pool (.func ⟨0⟩)
        [.func ⟨0⟩] []
    let first := (start {}).run 7
    let second := start first.pool
    first.pool.idle.length = 2 ∧ (∃ r, (second.run 6).control = .deliver r) ∧
    (second.run 6).pool.active = second.pool.active ∧
    ∀ frame ∈ (second.run 6).pool.idle, frame.Blank := by
  intro thread start first second
  have hfirst : first.Reachable := (Reachable.first _ _ _ _ _).run 7
  have hdone : first.control.isFinished := by decide +kernel
  have hsecond : second.Reachable := .again hfirst hdone _ _ _ _ _
  obtain ⟨-, hback, -⟩ := call_restores_frames hsecond rfl
  have hdeep : ∀ j < 6, 0 < j → second.pool.depth < (second.run j).pool.depth := by decide +kernel
  have hshallow : (second.run 6).pool.depth ≤ second.pool.depth := by decide +kernel
  exact ⟨by decide +kernel, hback 6 (by decide) hshallow fun j hpos hlt => hdeep j hlt hpos⟩

end Engine

end Starlark
