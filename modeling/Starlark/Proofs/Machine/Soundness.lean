import Starlark.Proofs.Machine.Executing
import Starlark.Proofs.Machine.Hosting
import Starlark.Proofs.Machine.Limits

/-!
# Soundness of compiled programs

All active functions of a typed program stand where their stacks are as the types say, or wait for
what brings them there (`Machine.Safe`). Every step of the machine keeps that, whatever other
programs do, and so does all that a host does. Therefore, wherever a function of a compiled program
gets to, its stack is as deep as the layout computed for the point, and it is never blamed for an
error of the code (`SourceFile.stack_sound`).
-/

set_option autoImplicit false

namespace Starlark

open Relation (ReflTransGen)

/-- A machine is about to hand out an error that blames the code, or has given up for it. -/
def Control.isInternal : Control → Bool
  | .deliver (.error e) | .finished (.error e) => e.isInternal
  | .aborted a => Stop.isInternal (.abort a)
  | _ => false

/-- The function that is about to execute an instruction. -/
def Machine.innermost? (m : Machine) : Option Activation :=
  match m.control, m.frames with
  | .exec, .func a _ :: _ => some a
  | _, _ => none

/-- The function whose code makes the next step: the innermost one, or the one that is called. -/
def Machine.actor? (m : Machine) : Option FuncObj :=
  match m.control, m.frames with
  | .exec, .func a _ :: _ | .deliver _, .func a _ :: _ => some a.func
  | .invoke (.func r) _ _, _ => m.heap.funcs[r.index]?
  | _, _ => none

/-- Where there is an innermost activation, its next instruction is due. -/
theorem Machine.innermost?_eq_some {m : Machine} {a : Activation} (ha : m.innermost? = some a) :
    m.control = .exec ∧ ∃ pending callers, m.frames = .func a pending :: callers := by
  unfold innermost? at ha
  split at ha
  · rename_i hcontrol hframes
    cases ha
    exact ⟨hcontrol, _, _, hframes⟩
  · cases ha

/-- An activation whose instruction is due acts. -/
theorem Machine.actor?_of_innermost? {m : Machine} {a : Activation} (ha : m.innermost? = some a) :
    m.control.isInternal = false ∧ m.actor? = some a.func := by
  obtain ⟨heap, thread, frames, control⟩ := m
  obtain ⟨rfl, pending, callers, rfl⟩ := innermost?_eq_some ha
  exact ⟨rfl, rfl⟩

/-! ## Hosts -/

/-- An act makes no function but toplevel functions that capture nothing. -/
def HostAct.IsSober : HostAct → Prop
  | .newFunc f => f.code = .toplevel ∧ f.defaults = #[] ∧ f.freeVars = #[]
  | _ => True

/-- A host that makes functions only of the toplevels of modules, as do its own functions. -/
def HostPolicy.sober : HostPolicy := ⟨HostAct.IsSober, fun t _ _ _ => t.KeepsTo HostAct.IsSober⟩

/-- A thread goes with a heap: it loads programs that the heap has, and its functions of the host
make only toplevel functions. -/
structure Thread.Suits (t : Thread) (h : Heap) : Prop where
  loads : t.LoadsFrom h
  sober : t.KeepsTo HostAct.IsSober

/-- A loader whose programs are in the heap loads from it. -/
theorem Thread.loadsFrom_of_areIn {t : Thread} {h : Heap}
    (hin : areIn h (t.loader.getD []) = true) :
    t.LoadsFrom h := by
  intro name p predeclared hsource
  unfold source? at hsource
  cases hloader : t.loader with
  | none =>
    rw [hloader] at hsource
    cases hsource
  | some sources =>
    rw [hloader] at hsource hin
    dsimp only at hsource
    split at hsource
    · rename_i s hfound
      cases s with
      | mk module source =>
        cases hsource
        have hmem := List.mem_of_find?_eq_some hfound
        simpa using List.all_eq_true.1 hin _ hmem
    · cases hsource

/-- A thread with the same loader loads from every larger heap. -/
theorem Thread.LoadsFrom.of_loader {t t' : Thread} {h h' : Heap} (hl : t.LoadsFrom h)
    (ht : t'.loader = t.loader) (hh : h.programs.size ≤ h'.programs.size) : t'.LoadsFrom h' := by
  intro name p predeclared hp
  refine Nat.lt_of_lt_of_le (hl name p predeclared ?_) hh
  rwa [Thread.source?, ht] at hp

namespace Thread.Suits

variable {t t' : Thread} {h h' : Heap}

/-- A thread goes with every larger heap. -/
theorem extended (hs : t.Suits h) (hh : h.programs.size ≤ h'.programs.size) : t.Suits h' :=
  ⟨hs.loads.of_loader rfl hh, hs.sober⟩

/-- A thread that its host has handled suits the same heaps. -/
theorem handled (hs : t.Suits h) (ht : t.Handled h t') : t'.Suits h where
  loads := by
    rcases ht.loader with hsame | hin
    · exact hs.loads.of_loader hsame (Nat.le_refl _)
    · exact loadsFrom_of_areIn hin
  sober i v a hmove := hs.sober i v a (ht.host ▸ hmove)

theorem persists (hs : t.Suits h) (ht : t.Persists t') : t'.Suits h := hs.handled (ht.handled h)

end Thread.Suits

/-- The functions of the small host make no function. -/
theorem Thread.sober_of_library {t : Thread} (hhost : t.host = HostCode.ofLibrary) :
    t.KeepsTo HostAct.IsSober := by
  intro i v a hmove
  rw [hhost] at hmove
  rw [HostCode.act_ofLibrary hmove]
  trivial

/-- A thread of the small host that loads nothing. -/
theorem Thread.Suits.of_library {t : Thread} (hloader : t.loader = none)
    (hhost : t.host = HostCode.ofLibrary) (h : Heap) : t.Suits h := by
  refine ⟨fun name p predeclared hsource => ?_, sober_of_library hhost⟩
  rw [source?, hloader] at hsource
  cases hsource

/-- What the tick of an instruction does is nothing that the thread's heap has to do with. -/
theorem Thread.Suits.tick {t : Thread} {h : Heap} (hs : t.Suits h) : t.tick.Suits h :=
  Suits.persists (t := { t with steps := t.steps + 1 })
    ⟨hs.loads.of_loader rfl (Nat.le_refl _), hs.sober⟩ t.persists_tick

section Typed

variable {p : Program} {predeclared : String → Prop}

/-- A sober host leaves the heap sound. -/
theorem HostAct.Performs.sound (T : TypedProgram p predeclared) {act : HostAct} {h h' : Heap}
    {held held' : List Iter} (hp : act.Performs (h, held) (h', held')) (hact : act.IsSober)
    (hs : h.Sound p) : h'.Sound p ∧ h.Extends h' := by
  have hgrown : ∀ {h' : Heap}, h.Grows (fun _ => False) h' → h'.Sound p ∧ h.Extends h' :=
    fun hg => ⟨hs.grows_none hg, hg.extends⟩
  -- but for programs, modules and functions an act changes contents only
  cases hp with
  | idle => exact ⟨hs, .refl h⟩
  | operate o => exact hgrown (Heap.Tolerant.evolves (o.evolves_after h))
  | freeze v => exact hgrown (.freeze h v)
  | freezeModule r => exact hgrown (.freezeModule h r)
  | newCell content => exact hgrown (.newCell h content)
  | setCell r v => exact hgrown (Heap.Tolerant.setCell h r v)
  | newProgram q => exact hs.newProgram q
  | newModule env _ hq => exact hs.newModule hq env
  | @newFunc f _ _ hf =>
    obtain ⟨module, code, defaults, freeVars⟩ := f
    obtain ⟨rfl, rfl, rfl⟩ := hact
    exact hs.newToplevel T.toplevel_free hf
  | openIter _ ho => exact hgrown (.openIter ho)
  | advance => exact ⟨hs, .refl h⟩
  | close => exact hgrown (.closeIter h _)

/-- The active calls stand where they should. -/
def TypedProgram.Stands (T : TypedProgram p predeclared) (h : Heap) : Control → List Frame → Prop
  | .exec, .func a _ :: callers => T.Ready h a ∧ ∀ frame ∈ callers, T.Waits h frame
  | .invoke _ _ _, frames | .deliver _, frames | .host, frames => ∀ frame ∈ frames, T.Waits h frame
  | _, _ => True

/-- A machine on a sound heap whose calls stand where they should; nothing that it is about to hand
out blames the code, as long as `Cleared` holds. -/
structure Machine.Safe (T : TypedProgram p predeclared) (Cleared : Prop) (m : Machine) : Prop where
  heap : m.heap.Sound p
  suits : m.thread.Suits m.heap
  stands : T.Stands m.heap m.control m.frames
  innocent : Cleared → m.control.isInternal = false

namespace Machine

variable {T : TypedProgram p predeclared} {Cleared : Prop} {heap heap' : Heap} {thread : Thread}
  {callers frames : List Frame} {a : Activation}

/-- Calls that wait, wait also in a greater heap. -/
theorem waits_extends (h : ∀ frame ∈ frames, T.Waits heap frame) (he : heap.Extends heap') :
    ∀ frame ∈ frames, T.Waits heap' frame :=
  fun frame hf => (h frame hf).extends he

/-- What the callers of a call rely on: the heap is sound and goes with the thread, and they stand
where they should while they wait. -/
structure Settled (T : TypedProgram p predeclared) (heap : Heap) (thread : Thread)
    (callers : List Frame) : Prop where
  sound : heap.Sound p
  suits : thread.Suits heap
  waits : ∀ frame ∈ callers, T.Waits heap frame

/-- Callers stay settled in every sound heap that extends theirs. -/
theorem Settled.extended (hs : Settled T heap thread callers) (hsound : heap'.Sound p)
    (he : heap.Extends heap') : Settled T heap' thread callers :=
  ⟨hsound, hs.suits.extended he.programs, waits_extends hs.waits he⟩

/-- Callers stay settled while the heap grows without new functions. -/
theorem Settled.grown (hs : Settled T heap thread callers)
    (hg : heap.Grows (fun _ => False) heap') :
    Settled T heap' thread callers :=
  hs.extended (hs.sound.grows_none hg) hg.extends

theorem Settled.handled {thread' : Thread} (hs : Settled T heap thread callers)
    (ht : thread.Handled heap thread') : Settled T heap thread' callers :=
  ⟨hs.sound, hs.suits.handled ht, hs.waits⟩

section Leaving

variable {frame : Frame} (hs : Settled T heap thread callers)

include hs

/-- A call may be left with any value. -/
theorem safe_leave (v : Value) : Safe T Cleared (leave heap thread (frame :: callers) v) := by
  have hclosed := hs.grown (.closeFrame heap frame)
  exact ⟨hclosed.sound, hclosed.suits, hclosed.waits, fun _ => rfl⟩

/-- A call may fail with any error that does not blame the code. -/
theorem safe_fail {e : Error} (he : Cleared → e.isInternal = false) :
    Safe T Cleared (fail heap thread (frame :: callers) e) := by
  have hclosed := hs.grown (.closeFrame heap frame)
  exact ⟨hclosed.sound, hclosed.suits, hclosed.waits, fun hi =>
      (Error.isInternal_wrap e _).trans (he hi)⟩

theorem safe_stop {e : Stop} (he : Cleared → e.isInternal = false) :
    Safe T Cleared (stop heap thread (frame :: callers) e) := by
  cases e with
  | error e => exact safe_fail hs he
  | abort a => exact ⟨hs.sound, hs.suits, trivial, he⟩

end Leaving

/-! ## Entering a call -/

/-- The locals of a function of a typed program when it starts. -/
theorem boxes_boxCells {code : Code} (t : TypedCode p predeclared code) (h : Heap)
    {locals : Array (Option Value)} (hsize : locals.size = code.locals.size) :
    ∃ locals' h', h.boxCells locals code.cells = .ok (locals', h') ∧ t.scopes.Boxes h' locals' := by
  have hcovers := t.lowers.covers
  obtain ⟨locals', h', hbox⟩ := h.exists_boxCells fun i hi => hsize ▸ hcovers.cells_lt i hi
  obtain ⟨hsize', -, -, hcells, hdistinct⟩ := Heap.boxCells_fresh hbox
  refine ⟨locals', h', hbox, ?_, fun i hi => ?_, fun i j hi hj =>
    hdistinct i (hcovers.cells i hi) j (hcovers.cells j hj)⟩
  · rw [hsize', hsize, hcovers.locals]
  · obtain ⟨r, hr, -, hlt⟩ := hcells i (hcovers.cells i hi)
    exact ⟨r, hr, hlt⟩

/-- Boxing captured locals adds cells. -/
theorem grows_boxCells {New : FuncObj → Prop} {cells : List UInt32} {h h' : Heap}
    {locals locals' : Array (Option Value)} (hb : h.boxCells locals cells = .ok (locals', h')) :
    h.Grows New h' := by
  induction cells generalizing h locals with
  | nil =>
    cases hb
    exact .refl _
  | cons i cells ih =>
    unfold Heap.boxCells at hb
    split at hb
    · cases hb
    · rename_i v _
      have hcell : h.Grows New (h.newCell v).2 := .newCell h v
      exact hcell.trans (ih hb)

/-- As many slots are installed as there are. -/
theorem size_install {b : Bound} (h : Heap) : (b.install h).1.size = b.slots.size := by
  unfold Bound.install
  split
  · rfl
  · exact Array.size_setIfInBounds

/-- A function that has just been entered. -/
theorem ready_start {f : FuncObj} {locals : Array (Option Value)} (hf : f ∈ heap.funcs)
    (hboxes : heap.programOf f = p → ∀ code (hc : p.code? f.code = some code),
      (T.typed code ⟨_, hc⟩).scopes.Boxes heap locals) :
    T.Ready heap { func := f, locals := locals } := by
  refine ⟨hf, fun hp code hc => ⟨hboxes hp code hc, ?_⟩⟩
  obtain ⟨e, hle, hat⟩ := (T.typed code ⟨_, hc⟩).at_start
  exact ⟨e, hat, hle.describes ⟨.nil, rfl⟩⟩

section Entering

variable {f : FuncObj} {args : List Value} {kwargs : Keywords}

/-- The code of a function of the program. -/
theorem exists_code (hs : heap.Sound p) (hf : f ∈ heap.funcs) (hp : heap.programOf f = p) :
    ∃ code, p.code? f.code = some code ∧ heap.codeOf f = code := by
  obtain ⟨code, hc, -⟩ := hs.made f hf hp
  exact ⟨code, hc, by rw [Heap.codeOf, hp, hc]; rfl⟩

/-- The arguments of a function of the program are bound as its code says. -/
theorem binds_binding (T : TypedProgram p predeclared) (hs : heap.Sound p) (hf : f ∈ heap.funcs)
    (hp : heap.programOf f = p) (args : List Value) (kwargs : Keywords) :
    (heap.codeOf f).Binds (binding heap f args kwargs) := by
  obtain ⟨code, hc, he⟩ := exists_code hs hf hp
  rw [binding, he]
  exact binds_bindArguments (T.typed code ⟨_, hc⟩).lowers.counted f.defaults args kwargs
    Array.size_replicate

/-- Boxing does not fail in a function of the program. -/
theorem boxes_install (hs : heap.Sound p) (hf : f ∈ heap.funcs) (hp : heap.programOf f = p)
    {b : Bound} (hbind : binding heap f args kwargs = .ok () b) {code : Code}
    (hc : p.code? f.code = some code) :
    ∃ locals h', (b.install heap).2.boxCells (b.install heap).1 (heap.codeOf f).cells =
      .ok (locals, h') ∧ (T.typed code ⟨_, hc⟩).scopes.Boxes h' locals := by
  have hsize := binds_binding T hs hf hp args kwargs
  obtain ⟨code', hc', he⟩ := exists_code hs hf hp
  obtain rfl : code = code' := Option.some.inj (hc.symm.trans hc')
  rw [hbind, he] at hsize
  rw [he]
  exact boxes_boxCells _ _ ((size_install heap).trans hsize)

/-- A function of the program starts as its typing says. -/
theorem Enters.safe {m : Machine} (h : Enters heap thread callers f args kwargs m)
    (hs : Settled T heap thread callers) (hf : f ∈ heap.funcs)
    (hi : Cleared → heap.programOf f = p) :
    m.Safe T Cleared := by
  cases h with
  | recurs => exact safe_fail hs fun _ => rfl
  | unbound _ hbind =>
    refine safe_stop hs fun h => ?_
    have hb := binds_binding T hs.sound hf (hi h) args kwargs
    rw [hbind] at hb
    exact hb
  | @unboxed b _ _ hbind hbox =>
    have hinstalled := hs.grown (.install heap b)
    -- if the program is innocent, boxing has succeeded
    refine ⟨hinstalled.sound, hinstalled.suits, trivial, fun h => ?_⟩
    obtain ⟨code, hc, -⟩ := exists_code hs.sound hf (hi h)
    obtain ⟨locals, h', hok, -⟩ := boxes_install (T := T) hs.sound hf (hi h) hbind hc
    cases hok.symm.trans hbox
  | @starts b locals heap' _ hbind hbox =>
    have hinstall : heap.Grows (fun _ => False) (b.install heap).2 := .install heap b
    have hg := hinstall.trans (grows_boxCells hbox)
    have hstarted := hs.grown hg
    refine ⟨hstarted.sound, hstarted.suits, ⟨?_, hstarted.waits⟩, fun _ => rfl⟩
    refine ready_start (hg.extends.mem f hf) fun hp code hc => ?_
    obtain ⟨locals', h', hok, hboxes⟩ :=
      boxes_install (T := T) hs.sound hf (hg.programOf_eq f ▸ hp) hbind hc
    cases hok.symm.trans hbox
    exact hboxes

end Entering

/-! ## Calls -/

/-- A builtin returns, or fails without blaming the code. -/
theorem Runs.safe {r : BuiltinRef} {args : List Value} {kwargs : Keywords} {m : Machine}
    (h : Runs heap thread callers r args kwargs m) (hs : Settled T heap thread callers) :
    m.Safe T Cleared := by
  have hmore : ∀ frame ∈ builtinFrame r args kwargs :: callers, T.Waits heap frame :=
    List.forall_mem_cons.2 ⟨trivial, hs.waits⟩
  have hstandard : Op.Safe (fun _ => False) True (fun _ => True)
      (Op.callStandard (heap.builtin r) args kwargs) heap :=
    .of_regular (Op.regular_callStandard _ args kwargs)
  cases h with
  | prints => exact safe_leave (hs.handled ((Thread.Persists.print thread _).handled heap)) _
  | fails he => exact safe_fail hs fun _ => Error.isInternal_of_isOrdinary he
  | waits => exact ⟨hs.sound, hs.suits, hmore, fun _ => rfl⟩
  | returns hrun => exact safe_leave (hs.grown (hstandard.ok hrun).1) _
  | stops hrun =>
    obtain ⟨hg, he⟩ := hstandard.error hrun
    exact safe_stop (hs.grown hg) fun _ => he trivial

/-- A call is safe if what is called is made of the program. -/
theorem Invokes.safe {f : Value} {args : List Value} {kwargs : Keywords} {m : Machine}
    (h : Invokes heap thread frames f args kwargs m) (hs : Settled T heap thread frames)
    (hi : Cleared → ∀ r g, f = .func r → heap.funcs[r.index]? = some g → heap.programOf g = p) :
    m.Safe T Cleared := by
  cases h with
  | full | uncallable => exact ⟨hs.sound, hs.suits, hs.waits, fun _ => rfl⟩
  | enters hf _ hg h => exact h.safe hs (Array.mem_of_getElem? hg) fun hc => hi hc _ _ hf hg
  | runs _ _ h => exact h.safe hs

/-! ## Loading -/

/-- Members are found for as many names as there are, or a name is not found. -/
theorem safe_loadMembers {New : FuncObj → Prop} {h : Heap} (members : Env) (name : String)
    {names : List Value} (hn : ∀ v ∈ names, ∃ x, v = .str x) :
    Op.Safe New True (fun vs => vs.length = names.length)
        (Op.loadMembers members name names) h := by
  induction names generalizing h with
  | nil => exact .pure rfl
  | cons v rest ih =>
    obtain ⟨⟨x, rfl⟩, hrest⟩ := List.forall_mem_cons.1 hn
    unfold Op.loadMembers
    split
    · exact Op.Safe.bind (ih hrest) fun vs _ _ hvs => .pure (congrArg (· + 1) hvs)
    · exact .fail rfl

/-- A load that has ended goes on with as many members as it had names. -/
theorem Binds.safe {name : String} {count : Nat} {members : Env} {m : Machine}
    (h : Binds heap thread a callers name count members m) (hs : Settled T heap thread callers)
    {module : ModuleRef} (ha : T.Waits heap (.func a (.load name count module)))
    (hi : Cleared → heap.programOf a.func = p) : m.Safe T Cleared := by
  have hsafe : Op.Safe (fun _ => False) Cleared (fun st => T.Ready heap { a with stack := st })
      (Op.replaceNames members name count a.stack) heap := by
    by_cases hp : heap.programOf a.func = p
    · obtain ⟨code, hc, -⟩ := hs.sound.made a.func ha.1 hp
      obtain ⟨hboxes, d, hat, names, st, hst, hlen, hstr, hd⟩ := ha.2 hp code hc
      suffices hbound :
          Op.Safe (fun _ => False) True (fun st => T.Ready heap { a with stack := st })
          (Op.replaceNames members name count a.stack) heap from
        hbound.mono (fun _ => trivial) fun _ => id
      rw [Op.replaceNames, hst, Op.popMany_bind hlen]
      refine Op.Safe.bind (safe_loadMembers members name (by simpa using hstr)) fun vs _ _ hvs => ?_
      refine .pure ⟨ha.1, fun hp code' hc' => ?_⟩
      obtain rfl : code = code' := Option.some.inj (hc.symm.trans hc')
      refine ⟨hboxes, d, hat, hd _ ?_⟩
      rw [List.length_reverse, hvs, List.length_reverse, hlen]
    -- of a function of another program, nothing is known but that the heap grows
    · have hquiet : Op.Quiet (Heap.Grows fun _ => False) (fun _ => True)
          (Op.replaceNames members name count a.stack) :=
        quiet_replaceNames members name count a.stack
      exact (Op.Safe.of_quiet hquiet).mono (fun h => hp (hi h)) fun st _ =>
        ⟨ha.1, fun h => absurd h hp⟩
  cases h with
  | binds hrun =>
    obtain ⟨hg, hr⟩ := hsafe.ok hrun
    have hbound := hs.grown hg
    exact ⟨hbound.sound, hbound.suits, ⟨TypedProgram.Holds.extends hr hg.extends, hbound.waits⟩,
      fun _ => rfl⟩
  | stops hrun =>
    obtain ⟨hg, he⟩ := hsafe.error hrun
    exact safe_stop (hs.grown hg) he

/-- A load is safe, whatever the loader does. -/
theorem Loads.safe {name : String} {count : Nat} {m : Machine}
    (h : Loads heap thread a callers name count m) (hs : Settled T heap thread callers)
    (ha : ∀ module, T.Waits heap (.func a (.load name count module)))
    (hi : Cleared → heap.programOf a.func = p) : m.Safe T Cleared := by
  cases h with
  | @unavailable e _ he =>
    have hinternal : e.isInternal = false := Error.isInternal_of_isOrdinary he
    exact safe_fail hs fun _ => hinternal
  | failure => exact safe_fail hs fun _ => rfl
  | members _ h => exact h.safe hs (ha ⟨0⟩) hi
  | @program q env hsource =>
    -- the toplevel function is made once its module is there
    obtain ⟨hs1, he1⟩ := hs.sound.newModule (hs.suits.loads name q env hsource) env
    have hlt : (heap.newModule q env).1.index < (heap.newModule q env).2.modules.size := by
      simp [Heap.newModule]
    obtain ⟨hs2, he2⟩ := hs1.newToplevel T.toplevel_free hlt
    have he := he1.trans he2
    have hmade := hs.extended hs2 he
    exact ⟨hmade.sound, hmade.suits, List.forall_mem_cons.2 ⟨(ha _).extends he, hmade.waits⟩,
      fun _ => rfl⟩

/-! ## Outcomes and instructions -/

/-- An outcome is handed to a caller that waits for it as its typing says. -/
theorem Delivers.safe {r : Except Error Value} {m : Machine} (h : Delivers heap thread frames r m)
    (hs : Settled T heap thread frames) (hr : Cleared → (Control.deliver r).isInternal = false)
    (hi : Cleared → ∀ a pending callers, frames = .func a pending :: callers →
      heap.programOf a.func = p) : m.Safe T Cleared := by
  have hbelow : ∀ {frame callers}, frames = frame :: callers →
      T.Waits heap frame ∧ Settled T heap thread callers := by
    rintro frame callers rfl
    obtain ⟨hframe, hrest⟩ := List.forall_mem_cons.1 hs.waits
    exact ⟨hframe, hs.sound, hs.suits, hrest⟩
  -- where the value or the failure goes is decided by the frame that waits for it
  cases h with
  | halts =>
    refine ⟨hs.sound, hs.suits, trivial, fun hc => ?_⟩
    have hr := hr hc
    cases r with
    | ok v => rfl
    | error e => exact hr
  | @pushes a callers v =>
    obtain ⟨hframe, hrest⟩ := hbelow rfl
    refine ⟨hs.sound, hs.suits, ⟨⟨hframe.1, fun hp code hc => ?_⟩, hrest.waits⟩, fun _ => rfl⟩
    obtain ⟨hboxes, d, hat, hd⟩ := hframe.2 hp code hc
    exact ⟨hboxes, d, hat, hd v⟩
  | fails => exact safe_fail (hbelow rfl).2 hr
  | answers =>
    obtain ⟨-, hrest⟩ := hbelow rfl
    exact ⟨hs.sound, hs.suits, List.forall_mem_cons.2 ⟨trivial, hrest.waits⟩, fun _ => rfl⟩
  | @loaded a callers name count module v _ h =>
    obtain ⟨hframe, hrest⟩ := hbelow rfl
    have hg : heap.Grows (fun _ => False) (heap.freezeModule module) := .freezeModule heap module
    refine h.safe (hrest.grown hg) (hframe.extends hg.extends) fun hc => ?_
    rw [hg.programOf_eq]
    exact hi hc a _ callers rfl
  | unloaded => exact safe_fail ((hbelow rfl).2.grown (.freezeModule heap _)) hr

/-- An instruction of the program does what its typing says. -/
theorem Executes.safe {m : Machine} (h : Executes heap thread a callers m)
    (hs : Settled T heap thread callers) (ha : T.Ready heap a)
    (hi : Cleared → heap.programOf a.func = p ∧ heap.Supplies predeclared a.func.module) :
    m.Safe T Cleared := by
  have hinsn := TypedProgram.safe_instruction hs.sound ha hi
  replace hs : Settled T heap thread.tick callers := ⟨hs.sound, hs.suits.tick, hs.waits⟩
  have hsafe : ∀ {f : Fetched}, fetch (heap.codeOf a.func).code a.next = .ok f →
      Op.Safe (heap.Offspring p a.func) Cleared (T.Allows heap a.func) (Activation.execute
        (heap.tables a.func) f.op (f.arg.getD 0) { a with pc := a.next, next := f.next }) heap := by
    intro f hfetch
    rw [hfetch] at hinsn
    exact hinsn
  -- what the instruction has done to the heap leaves the frames below as they were typed
  have hafter : ∀ {h : Heap}, heap.Grows (heap.Offspring p a.func) h →
      Settled T h thread.tick callers := fun hg => hs.extended
          (hs.sound.offspring ha.1 hg) hg.extends
  cases h with
  | cancelled => exact safe_fail hs fun _ => rfl
  | unread _ hfetch =>
    rw [hfetch] at hinsn
    exact safe_fail hs fun hc => absurd hc hinsn
  | stops h =>
    obtain ⟨hg, he⟩ := (hsafe h.fetch).error h.result_eq
    exact safe_stop (hafter hg) he
  | proceeds h =>
    obtain ⟨hg, hb⟩ := (hsafe h.fetch).ok h.result_eq
    exact ⟨(hafter hg).sound, (hafter hg).suits,
      ⟨TypedProgram.Holds.extends hb hg.extends, (hafter hg).waits⟩, fun _ => rfl⟩
  | finishes h => exact safe_leave (hafter ((hsafe h.fetch).ok h.result_eq).1) _
  | calls h =>
    obtain ⟨hg, hb⟩ := (hsafe h.fetch).ok h.result_eq
    exact ⟨(hafter hg).sound, (hafter hg).suits,
      List.forall_mem_cons.2 ⟨TypedProgram.Waits.extends hb hg.extends, (hafter hg).waits⟩,
          fun _ => rfl⟩
  | loads h hloads =>
    obtain ⟨hg, hb⟩ := (hsafe h.fetch).ok h.result_eq
    refine hloads.safe (hafter hg) (fun module => (hb.2 module).extends hg.extends) fun hc => ?_
    rw [hb.1, hg.programOf_eq]
    exact (hi hc).1

/-! ## Functions of the host -/

/-- A turn of a function of the host is safe, whatever it does, unless it raises an error that
blames the code. -/
theorem Hosts.safe {r : BuiltinRef} {run : HostRun} {m : Machine}
    (h : Hosts heap thread callers r run m) (hs : Settled T heap thread callers)
    (hi : Cleared → ∀ e, Moves heap thread callers r run (.finish (.error e)) →
    e.isInternal = false) :
    m.Safe T Cleared := by
  have hturn : Settled T heap thread.takeTurn callers :=
    hs.handled ((Thread.Persists.takeTurn thread).handled heap)
  -- an act of the host is one of those it may do, each of which keeps the heap sound
  have hacted : ∀ {act : HostAct} {heap' : Heap} {held' : List Iter},
      Moves heap thread callers r run (.act act) →
      act.Performs (heap, run.held) (heap', held') → Settled T heap' thread.takeTurn callers := by
    intro act heap' held' hact hp
    obtain ⟨hsound, hextends⟩ := hp.sound T (hs.suits.sober.move hact) hs.sound
    exact hturn.extended hsound hextends
  have hmore : ∀ {heap : Heap} {thread : Thread} (run : HostRun), Settled T heap thread callers →
      ∀ frame ∈ Frame.builtin r run :: callers, T.Waits heap frame :=
    fun run hs => List.forall_mem_cons.2 ⟨trivial, hs.waits⟩
  cases h with
  | acts hact hrun =>
    have hdone := hacted hact (HostAct.performs_of_ok hrun)
    exact ⟨hdone.sound, hdone.suits, hmore _ hdone, fun _ => rfl⟩
  | errs hact hrun =>
    have hdone := hacted hact (HostAct.performs_of_error hrun).1
    exact ⟨hdone.sound, hdone.suits, hmore _ hdone, fun _ => rfl⟩
  | aborts hact hrun =>
    obtain ⟨hp, hordinary⟩ := HostAct.performs_of_error hrun
    have hdone := hacted hact hp
    exact ⟨hdone.sound, hdone.suits, trivial, fun _ => Stop.isInternal_of_isOrdinary hordinary⟩
  | @steers s =>
    have hsteered : Settled T heap (thread.takeTurn.steer heap s) callers :=
      hturn.handled (Thread.handled_steer thread.takeTurn heap s)
    exact ⟨hsteered.sound, hsteered.suits, hmore _ hsteered, fun _ => rfl⟩
  | calls => exact ⟨hturn.sound, hturn.suits, hmore _ hturn, fun _ => rfl⟩
  | @finishes o hfinish =>
    cases o with
    | ok v => exact safe_leave hturn v
    | error e => exact safe_fail hturn fun hc => hi hc e hfinish

/-! ## Steps -/

/-- Nothing is left to blame the program for, if it makes the next step; and if a function of the
host has the turn, that does not fail with an error that blames the code. -/
structure Innocent (m : Machine) (p : Program) (predeclared : String → Prop) : Prop where
  control : m.control.isInternal = false
  actor : ∀ g, m.actor? = some g → m.heap.programOf g = p ∧ m.heap.Supplies predeclared g.module
  host : ∀ e, m.Chooses (.finish (.error e)) → e.isInternal = false

/-- Every step leaves the calls where they should stand. -/
theorem safe_step {m : Machine} {P : Prop} (hm : m.Safe T P) :
    m.step.Safe T (m.Innocent p predeclared) := by
  have hsteps := steps_step m
  generalize m.step = m' at hsteps ⊢
  obtain ⟨hs, hl, hstands, -⟩ := hm
  -- by which of its functions the machine has run; what each needs to know is asked of the state
  -- before
  cases hsteps with
  | @executes _ _ a _ _ _ h =>
    exact h.safe ⟨hs, hl, hstands.2⟩ hstands.1 fun hc => hc.actor a.func rfl
  | hosts h =>
    obtain ⟨-, hwaits⟩ := List.forall_mem_cons.1 hstands
    exact h.safe ⟨hs, hl, hwaits⟩ fun hc e hmove => hc.host e ⟨rfl, _, _, _, rfl, hmove⟩
  | rests => exact ⟨hs, hl, trivial, fun _ => rfl⟩
  | idles => exact ⟨hs, hl, trivial, fun _ => rfl⟩
  | invokes h =>
    refine h.safe ⟨hs, hl, hstands⟩ ?_
    rintro hc r g rfl hg
    exact (hc.actor g hg).1
  | delivers h =>
    refine h.safe ⟨hs, hl, hstands⟩ (fun hc => hc.control) ?_
    rintro hc a pending callers rfl
    exact (hc.actor a.func rfl).1
  | done => exact ⟨hs, hl, hstands, fun hc => hc.control⟩

/-- In a safe machine, the function whose instruction is due stands as its typing says. -/
theorem Safe.ready {m : Machine} {P : Prop} (hm : m.Safe T P) {a : Activation}
    (ha : m.innermost? = some a) : T.Ready m.heap a := by
  obtain ⟨heap, thread, frames, control⟩ := m
  obtain ⟨rfl, pending, callers, rfl⟩ := innermost?_eq_some ha
  exact hm.stands.1

/-- A run from a safe start is safe. -/
theorem safe_run {m : Machine} (hm : m.Safe T False) (n : Nat) : (run n m).Safe T False := by
  induction n generalizing m with
  | zero => exact hm
  | succ n ih =>
    unfold run
    split
    · exact hm
    · have hstep := safe_step hm
      exact ih ⟨hstep.heap, hstep.suits, hstep.stands, False.elim⟩

/-- A call on a sound heap starts safely. -/
theorem safe_start (hs : heap.Sound p) (hsuits : thread.Suits heap) (f : Value) (args : List Value)
    (kwargs : Keywords) : (start heap thread f args kwargs).Safe T False :=
  ⟨hs, hsuits, fun _ hf => absurd hf List.not_mem_nil, False.elim⟩

end Machine

/-! ## Sessions -/

variable {T : TypedProgram p predeclared}

/-- All that happens in the session of a sober host leaves the calls where they should stand. -/
theorem Session.Step.safe (T : TypedProgram p predeclared) {s s' : Session}
    (hstep : Step .sober s s')
    (hs : s.machine.Safe T False) : s'.machine.Safe T False := by
  cases hstep with
  | @act m held held' r h a hdone hact hp =>
    obtain ⟨hsound, hextends⟩ := hp.sound T hact hs.heap
    have hstands : T.Stands h m.control m.frames := by
      rw [hdone]
      trivial
    exact ⟨hsound, hs.suits.extended hextends.programs, hstands, False.elim⟩
  | call held hdone hloads hc => exact Machine.safe_start hs.heap ⟨hloads, hc⟩ _ _ _
  | run m held =>
    have hstep := Machine.safe_step hs
    exact ⟨hstep.heap, hstep.suits, hstep.stands, False.elim⟩

/-- Every machine of the session of a sober host is safe. -/
theorem Session.Reachable.safe (T : TypedProgram p predeclared) {s : Session}
    (hs : s.Reachable .sober) :
    s.machine.Safe T False := by
  induction hs with
  | refl =>
    exact ⟨.initial p, .of_library rfl rfl _, trivial, False.elim⟩
  | tail _ hstep ih => exact hstep.safe T ih

end Typed

/-! ## Compiled programs -/

/-- A state of the machine in the session of a sober host. -/
def Machine.Reachable (m : Machine) : Prop := ∃ held, Session.Reachable .sober ⟨m, held⟩

theorem Machine.Reachable.safe {p : Program} {predeclared : String → Prop} {m : Machine}
    (hm : m.Reachable) (T : TypedProgram p predeclared) : m.Safe T False := by
  obtain ⟨held, hreach⟩ := hm
  exact hreach.safe T

/-- A heap that comes about in the session of a sober host. -/
def Heap.Reachable (h : Heap) : Prop := ∃ s : Session, s.Reachable .sober ∧ s.machine.heap = h

/-- Every heap that comes about is sound for every typing of a program. -/
theorem Heap.Reachable.sound {p : Program} {predeclared : String → Prop} {h : Heap}
    (hh : h.Reachable) (T : TypedProgram p predeclared) : h.Sound p := by
  obtain ⟨s, hreach, rfl⟩ := hh
  exact (hreach.safe T).heap

namespace TypedCode

variable {p : Program} {predeclared : String → Prop} {code : Code}

/-- Where an iterator has an element, the stack is one deeper than where it has none. -/
theorem depthOf_iterJmp (t : TypedCode p predeclared code) {b : BlockId} {i : Insn}
    (hb : b ∈ t.layout.order.toList) (hi : i ∈ (t.graph.block b).insns.toList)
    (hop : i.op = .iterJmp) :
    ∃ x y u v, (t.graph.block b).cjmp = some x ∧ (t.graph.block b).jmp = some y ∧
      t.graph.Leads x u ∧ t.graph.Leads y v ∧
      t.layout.depthOf v = t.layout.depthOf u + 1 := by
  obtain ⟨done, rest, hsplit⟩ := List.append_of_mem hi
  have hat := BlockGraph.insnAt_of_split hsplit
  rw [hop] at hat
  obtain ⟨x, y, hbr⟩ : ∃ x y, t.graph.BranchAt ⟨b, done.length⟩ .iterJmp x y := by
    rcases t.annotates.insnAt hat with (hp | hp) | ⟨-, hbr⟩ | ⟨hp, -⟩
    · cases hp
    · cases hp
    · exact hbr
    · cases hp
  have hl := t.leveled
  obtain ⟨u, hu, -⟩ := hl.covering.cjmp_mem hb hbr.cjmp
  obtain ⟨v, hv, -⟩ := hl.covering.jmp_mem hb hbr.jmp
  refine ⟨x, y, u, v, hbr.cjmp, hbr.jmp, hu, hv, ?_⟩
  have hany : (t.graph.block b).insns.toList.any (·.op = .iterJmp) = true :=
    List.any_eq_true.2 ⟨i, hi, by simpa using hop⟩
  -- both successors are as deep as the end of the block, one of them with the next value pushed
  rw [Layout.jmp_depth_eq hl.depths hl.mismatches hb hbr.jmp hv,
    Layout.cjmp_depth_eq hl.depths hl.mismatches hb hbr.cjmp hu, Layout.contDepth, Insn.iterating,
    if_pos hany]

end TypedCode

namespace SourceFile

variable {f : SourceFile} {predeclared : String → Prop} {p : Program}

/-- What a resolved file compiles to has a typing. -/
theorem typedProgram_of_compile (hf : f.WellResolved predeclared) (hp : f.compile = .ok p)
    (haddr : p.Addressable) : Nonempty (TypedProgram p predeclared) := by
  obtain ⟨-, hfree, -⟩ := toplevel_of_compile hp
  have htyped : ∀ code, (∃ id, p.code? id = some code) →
      Nonempty (TypedCode p predeclared code) := by
    rintro code ⟨id, hc⟩
    refine typedCode_of_compile hf hp ?_
    cases id with
    | toplevel =>
      cases hc
      exact .inl rfl
    | nested i => exact .inr (Array.mem_of_getElem? hc)
  exact ⟨⟨haddr, hfree, fun code hc => Classical.choice (htyped code hc)⟩⟩

/-- Wherever a function of the program of a resolved file gets to, in any call that a host makes,
its operand stack is as deep as the layout of its graph computed for the point, which is at most the
recorded maximum, and the number of its open iterators depends on the address alone. A step that
such a function makes does not blame the code, if its module has the predeclared names. -/
theorem stack_sound (hf : f.WellResolved predeclared) (hp : f.compile = .ok p)
    (haddr : p.Addressable) :
    (∀ id code, p.code? id = some code → ∃ (g : BlockGraph) (l : Layout) (iters : Nat → Nat),
      (∃ a, g.layout 0 = .ok l ∧ l.assemble g code.pos = .ok a ∧ a.code = code.code ∧
        a.maxStack = code.maxStack) ∧
      (∀ b ∈ l.order, ∀ i ∈ (g.block b).insns, i.op = .iterJmp → ∃ x y u v,
        (g.block b).cjmp = some x ∧ (g.block b).jmp = some y ∧ g.Leads x u ∧ g.Leads y v ∧
        l.depthOf v = l.depthOf u + 1) ∧
      ∀ (m : Machine) a, m.Reachable → m.innermost? = some a → m.heap.programOf a.func = p →
        a.func.code = id → ∃ b done i rest, b ∈ l.order ∧
          (g.block b).insns.toList = done ++ i :: rest ∧
          Slides code.code a.next (l.pointAddress b done) ∧
          (a.stack.length : Int) = l.depthOf b + Insn.effects done ∧
          a.stack.length ≤ code.maxStack.toNat ∧ a.iters.length = iters a.next) ∧
    ∀ m : Machine, m.Reachable → m.Innocent p predeclared → m.step.control.isInternal = false := by
  obtain ⟨T⟩ := typedProgram_of_compile hf hp haddr
  refine ⟨fun id code hc => ?_, fun m hm hi => (Machine.safe_step (hm.safe T)).innocent hi⟩
  -- the typing of the function gives the depth and the iterators at each of its points
  let t := T.typed code ⟨id, hc⟩
  refine ⟨t.graph, t.layout, t.itersAt, ?_, ?_, ?_⟩
  · obtain ⟨a, ha, hcode, -, hmax⟩ := t.lowers.assemble
    exact ⟨a, t.lowers.layout, ha, hcode, hmax⟩
  · intro b hb i hi hop
    exact t.depthOf_iterJmp (Array.mem_toList_iff.2 hb) (Array.mem_toList_iff.2 hi) hop
  · intro m a hm ha hprogram hid
    subst hid
    obtain ⟨-, d, hat, hd⟩ := ((hm.safe T).ready ha).2 hprogram code hc
    have hiters := hat.iters_eq
    obtain ⟨b, done, i, rest, hslides, hst⟩ := hat
    obtain ⟨hdepth, -, hmax⟩ := hst.depth_eq
    refine ⟨b, done, i, rest, Array.mem_toList_iff.1 hst.placed, hst.insns, hslides, ?_, ?_, ?_⟩
    · rw [hd.length_eq]
      exact hdepth
    · rw [hd.length_eq]
      exact hmax
    · exact hd.2.trans hiters

/-- A program and its module. -/
def moduleHeap (p : Program) : Heap := ((Heap.initial.newProgram p).2.newModule ⟨0⟩ []).2

/-- The module of a program and its toplevel function. -/
def toplevelHeap (p : Program) : Heap :=
  (((Heap.initial.newProgram p).2.newModule ⟨0⟩ []).2.newFunc ⟨⟨0⟩, .toplevel, #[], #[]⟩).2

/-- A session whose host has done nothing yet but make a heap. -/
abbrev hostedHeap (h : Heap) : Session := ⟨{ Session.initial.machine with heap := h }, []⟩

theorem reachable_hosted (p : Program) : Session.Reachable .sober (hostedHeap (moduleHeap p)) := by
  have hprogram : Session.Step .sober Session.initial (hostedHeap (Heap.initial.newProgram p).2) :=
    .act (a := .newProgram p) rfl trivial (.newProgram p _ [])
  have hmodule : Session.Step .sober (hostedHeap (Heap.initial.newProgram p).2)
      (hostedHeap (moduleHeap p)) :=
    .act (a := .newModule ⟨0⟩ []) rfl trivial (.newModule [] [] Nat.zero_lt_one)
  exact (ReflTransGen.single hprogram).tail hmodule

theorem reachable_moduleHeap (p : Program) : (moduleHeap p).Reachable :=
  ⟨_, reachable_hosted p, rfl⟩

/-- A host can make the toplevel function of a module, and call it on any thread that goes with the
heap. -/
theorem reachable_toplevel (p : Program) {thread : Thread}
    (hsuits : thread.Suits (toplevelHeap p)) :
    Session.Reachable .sober ⟨.start (toplevelHeap p) thread (.func ⟨0⟩) [] [], []⟩ := by
  have htoplevel : Session.Step .sober (hostedHeap (moduleHeap p)) (hostedHeap (toplevelHeap p)) :=
    .act (a := .newFunc ⟨⟨0⟩, .toplevel, #[], #[]⟩) rfl ⟨rfl, rfl, rfl⟩
      (.newFunc [] Nat.zero_lt_one)
  exact ((reachable_hosted p).tail htoplevel).tail (.call [] rfl hsuits.loads hsuits.sober)

/-- The toplevel defines a function: it has pushed a value onto its stack, which has room for it. -/
theorem stack_sound_pairs : ∃ p, pairsFile.compile = .ok p ∧
    let m := Machine.call 2 (toplevelHeap p) (.new "main" none 9 true) (.func ⟨0⟩) [] []
    m.Reachable ∧ (∃ a, m.innermost? = some a ∧ a.stack.length = 1) ∧
      1 ≤ p.toplevel.maxStack.toNat ∧ m.step.control.isInternal = false := by
  have hcheck : pairsFile.compile.toOption.any (fun p => decide
      (p.names.size ≤ 2 ∧ p.constants.size ≤ 2 ∧ p.functions.size ≤ 2) &&
      let m := Machine.call 2 (toplevelHeap p) (.new "main" none 9 true) (.func ⟨0⟩) [] []
      m.innermost?.any fun a => decide
        (m.heap.programOf a.func = p ∧ a.func.code = .toplevel ∧ a.stack.length = 1)) = true := by
    decide +kernel
  obtain ⟨p, hp, hq⟩ := exists_ok_of_any hcheck
  obtain ⟨hsizes, hm⟩ := Bool.and_eq_true_iff.1 hq
  obtain ⟨a, ha, hfacts⟩ := (Option.any_eq_true _ _).1 hm
  obtain ⟨hnames, hconstants, hfunctions⟩ := of_decide_eq_true hsizes
  obtain ⟨hprogram, hid, hlength⟩ := of_decide_eq_true hfacts
  have haddr : p.Addressable := ⟨by omega, by omega, by omega⟩
  have hreachable : Machine.Reachable
      (Machine.call 2 (toplevelHeap p) (.new "main" none 9 true) (.func ⟨0⟩) [] []) :=
    ⟨[], (reachable_toplevel p (.of_library rfl rfl _)).run 2⟩
  obtain ⟨hpoints, hsafe⟩ := stack_sound (wellResolved_pairsFile fun _ => False) hp haddr
  obtain ⟨g, l, iters, -, -, hpoint⟩ := hpoints .toplevel p.toplevel rfl
  -- the depth found by running is within what the layout announced
  obtain ⟨b, done, i, rest, -, -, -, -, hmax, -⟩ := hpoint _ a hreachable ha hprogram hid
  refine ⟨p, hp, hreachable, ⟨a, ha, hlength⟩, hlength ▸ hmax, hsafe _ hreachable ?_⟩
  obtain ⟨hcontrol, hactor⟩ := Machine.actor?_of_innermost? ha
  obtain ⟨hexec, -⟩ := Machine.innermost?_eq_some ha
  refine ⟨hcontrol, fun g hg => ?_, fun e hmove => ?_⟩
  · cases hactor.symm.trans hg
    exact ⟨hprogram, fun _ => False.elim⟩
  · cases hexec.symm.trans hmove.1

end SourceFile

end Starlark
