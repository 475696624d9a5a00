import Starlark.Proofs.Machine.Veiling

/-!
# Parts of functions stay inside the machine

Nothing that a script can get at has a cell or a mandatory mark in it, if the host and the programs
that it runs do not bring one in. Every step of a machine keeps that (`Machine.Concealed.step`), and
so does all that happens in the session of a careful host (`HostPolicy.careful`). The operand stacks
have such values only from the instructions that pack a function to the one that makes it
(`internals_concealed`).
-/

set_option autoImplicit false

namespace Starlark

open Relation (ReflTransGen)

/-! ## Functions stay -/

namespace Heap

variable {New : FuncObj → Prop} {h h' : Heap}

theorem Alters.mem_funcs (ha : h.Alters New h') {f : FuncObj} (hf : f ∈ h.funcs) :
    f ∈ h'.funcs := by
  have hkept : h.Grows (fun _ => False) h' → f ∈ h'.funcs := fun hg => hg.extends.mem f hf
  cases ha with
  | change hc => exact hkept (.of_change hc)
  | setCell r v => exact hf
  | setGlobal r i v => exact hf
  | newCell content => exact hf
  | newFunc => exact Array.mem_push_of_mem _ hf
  | newToplevel p predeclared => exact Array.mem_push_of_mem _ hf
  | freezeNode n => exact hkept (.freezeNode h n)

theorem Altered.mem_funcs (ha : h.Altered New h') {f : FuncObj} (hf : f ∈ h.funcs) :
    f ∈ h'.funcs := by
  induction ha with
  | refl => exact hf
  | tail _ ha ih => exact ha.mem_funcs ih

theorem mem_funcs_closeAll {f : FuncObj} (hf : f ∈ h.funcs) (its : List Iter) :
    f ∈ (its.foldl Heap.closeIter h).funcs := by
  induction its generalizing h with
  | nil => exact hf
  | cons it its ih =>
    exact ih ((Grows.closeIter h it : h.Grows (fun _ => False) _).extends.mem f hf)

/-- Programs stay as they are. -/
theorem Alters.programs_eq (ha : h.Alters New h') : h'.programs = h.programs := by
  cases ha with
  | change hc => exact (Grows.of_change hc : h.Grows (fun _ => False) h').programs
  | freezeNode n => exact (Grows.freezeNode h n : h.Grows (fun _ => False) _).programs
  | _ => rfl

theorem Altered.programs_eq (ha : h.Altered New h') : h'.programs = h.programs := by
  induction ha with
  | refl => rfl
  | tail _ ha ih => exact ha.programs_eq.trans ih

theorem programs_closeAll (h : Heap) (its : List Iter) :
    (its.foldl Heap.closeIter h).programs = h.programs := by
  induction its generalizing h with
  | nil => rfl
  | cons it its ih =>
    exact (ih _).trans (Grows.closeIter h it : h.Grows (fun _ => False) _).programs

theorem Shift.programs_eq {live live' : List Iter} {event : Iter.Event}
    (hs : h.Shift New live event h' live') : h'.programs = h.programs := by
  cases hs with
  | close done rest ha => exact (programs_closeAll _ done).trans ha.programs_eq
  | push live ho => exact (Grows.openIter ho : h.Grows (fun _ => False) h').programs
  | advance live hn => rfl

theorem Shift.mem_funcs {live live' : List Iter} {event : Iter.Event}
    (hs : h.Shift New live event h' live') {f : FuncObj} (hf : f ∈ h.funcs) : f ∈ h'.funcs := by
  cases hs with
  | close done rest ha => exact mem_funcs_closeAll (ha.mem_funcs hf) done
  | push live ho => exact (Grows.openIter ho : h.Grows (fun _ => False) h').extends.mem f hf
  | advance live hn => exact hf

end Heap

theorem HostAct.Performs.mem_funcs {a : HostAct} {h h' : Heap} {held held' : List Iter}
    (hp : a.Performs (h, held) (h', held')) {f : FuncObj} (hf : f ∈ h.funcs) : f ∈ h'.funcs := by
  have hkept : h.Grows (fun _ => False) h' → f ∈ h'.funcs := fun hg => hg.extends.mem f hf
  cases hp with
  | operate o => exact hkept (Heap.Tolerant.evolves (o.evolves_after h))
  | freeze v => exact hkept (.freeze h v)
  | freezeModule r => exact hkept (.freezeModule h r)
  | newFunc => exact Array.mem_push_of_mem _ hf
  | openIter _ ho => exact hkept (.openIter ho)
  | close => exact hkept (.closeIter h _)
  | _ => exact hf

/-! ## Steps -/

namespace Heap.Extends

variable {h h' : Heap} (he : h.Extends h')

include he

theorem runs {f : FuncObj} (hf : f ∈ h.funcs)
    {P : ∀ {p : Program} {predeclared : String → Prop} {code : Code},
      TypedCode p predeclared code → Prop} (hr : h.Runs f P) : h'.Runs f P := by
  intro p hp hpo
  rw [he.programOf_eq f hf] at hpo
  exact hr p hp hpo

theorem frame_discreet {frame : Frame} (hframe : frame.Discreet h) : frame.Discreet h' := by
  cases frame with
  | builtin r run => exact hframe
  | func a pending =>
    obtain ⟨hf, ha⟩ := hframe
    refine ⟨he.mem _ hf, ?_⟩
    rw [Heap.codeOf, he.programOf_eq _ hf]
    exact ha

theorem frame_waits {frame : Frame} (hframe : frame.Discreet h) (hw : frame.Waits h) :
    frame.Waits h' := by
  cases frame with
  | builtin r guarded => trivial
  | func a pending => exact he.runs (P := fun t => t.Awaits a pending) hframe.1 hw

/-- The code of the active functions stays. -/
theorem veiled {m : Machine} (hm : m.Veiled h) : m.Veiled h' := by
  obtain ⟨heap, thread, frames, control⟩ := m
  obtain ⟨hd, hc, hframes, hseats⟩ := hm
  have hwaits : ∀ fs : List Frame, (∀ frame ∈ fs, frame.Discreet h) →
      (∀ frame ∈ fs, frame.Waits h) →
      ∀ frame ∈ fs, frame.Waits h' :=
    fun fs hfs hw frame hf => he.frame_waits (hfs frame hf) (hw frame hf)
  refine ⟨hd, hc, fun frame hf => he.frame_discreet (hframes frame hf), ?_⟩
  -- what a frame may hold depends on the code of its function, which stays the same
  cases control with
  | exec =>
    cases frames with
    | nil => trivial
    | cons frame callers =>
      cases frame with
      | builtin r guarded => trivial
      | func a pending =>
        obtain ⟨hframe, hcallers⟩ := List.forall_mem_cons.1 hframes
        exact ⟨he.runs hframe.1 hseats.1, hwaits callers hcallers hseats.2⟩
  | invoke f args kwargs => exact hwaits frames hframes hseats
  | deliver r => exact hwaits frames hframes hseats
  | host => exact hwaits frames hframes hseats
  | finished r => trivial
  | aborted x => trivial

end Heap.Extends

/-- A machine on a heap of programs of resolved files in which nothing can be found that scripts may
not see, with its calls where their types say. -/
structure Machine.Concealed (m : Machine) : Prop where
  safe : ∀ (p : Program) (hp : p.Sourced), m.Safe hp.types False
  programs : ∀ p ∈ m.heap.programs, p.Sourced
  thread : m.thread.IsCareful
  veiled : m.Veiled m.heap

namespace Machine

namespace Concealed

variable {m : Machine}

theorem trusted (hm : m.Concealed) : m.heap.Trusted :=
  ⟨hm.veiled.heap, hm.programs, fun p hp => (hm.safe p hp).heap⟩

theorem keepsCode (hm : m.Concealed) : m.heap.KeepsCode m.step.heap := by
  have hhappens := m.happens_step
  generalize m.step.heap = h, m.step.iters = live at hhappens ⊢
  cases hhappens with
  | act _ _ hp => exact hp.keepsCode
  | shift hs =>
    refine .of_shift hs ?_
    rintro f ⟨a, pending, callers, hframes, hmodule⟩
    rw [hmodule]
    exact hm.trusted.housed _ (hm.veiled.frames (.func a pending) (hframes ▸ List.mem_cons_self)).1

theorem mem_funcs_step (m : Machine) {f : FuncObj} (hf : f ∈ m.heap.funcs) :
    f ∈ m.step.heap.funcs := by
  have hhappens := m.happens_step
  generalize m.step.heap = h, m.step.iters = live at hhappens ⊢
  cases hhappens with
  | act _ _ hp => exact hp.mem_funcs hf
  | shift hs => exact hs.mem_funcs hf

theorem extends_step (hm : m.Concealed) : m.heap.Extends m.step.heap where
  cells := hm.keepsCode.cells_le
  programs := hm.keepsCode.programs_le
  mem _ hf := mem_funcs_step m hf
  programOf_eq f hf :=
    hm.keepsCode.programOf_eq (hm.trusted.housed f hf) (hm.trusted.program_lt hf)

/-- What the innermost function finds on its stack, and what its next instruction leaves there. -/
theorem exec (hm : m.Concealed) {a : Activation} {pending : Pending} {callers : List Frame}
    (hcontrol : m.control = .exec) (hframes : m.frames = .func a pending :: callers) :
    m.step.Veiled m.heap ∧ ∃ f, fetch (m.heap.codeOf a.func).code a.next = .ok f ∧
      (f.op.takes (f.arg.getD 0) ≤ a.stack.length ∧
        (∀ v ∈ a.stack.take (f.op.takes (f.arg.getD 0)), f.op.Accepts v) ∧
        (f.op = .ret → ∀ v ∈ a.stack, v.Visible)) ∧
      m.step.Resumes callers (f.op.Leaves (f.arg.getD 0) a.stack) := by
  have ht := hm.trusted
  have hsafe := fun p hp => (hm.safe p hp).stands
  obtain ⟨heap, thread, frames, control⟩ := m
  subst hcontrol hframes
  obtain ⟨hframe, hcallers⟩ := List.forall_mem_cons.1 hm.veiled.frames
  obtain ⟨hruns, hwait⟩ := hm.veiled.seats
  -- the frame is typed by whichever compiled program its function belongs to
  have hready : ∀ (p : Program) (hp : p.Sourced), hp.types.Ready heap a :=
    fun p hp => (hsafe p hp).1
  obtain ⟨hveiled, hresumes⟩ := (executes_exec heap thread a callers).veiled ht
    hm.thread.discreet
    ⟨ht.discreet, hcallers, hwait⟩ hframe hready hruns
  obtain ⟨f, hfetch, haccepts, -⟩ := ht.instruction hframe.1 hframe.2 hready hruns
  exact ⟨hveiled, f, hfetch, haccepts, hresumes f hfetch⟩

theorem veiled_step (hm : m.Concealed) : m.step.Veiled m.heap := by
  have ht := hm.trusted
  obtain ⟨hd, hcontrol, hframes, hseats⟩ := hm.veiled
  generalize hm' : m.step = m'
  have hsteps : m.Steps m' := hm' ▸ steps_step m
  have hnull : Control.Visible (.finished (.ok .null)) := by
    rintro _ ⟨⟩
    trivial
  cases hsteps with
  | executes => exact hm' ▸ (hm.exec rfl rfl).1
  | hosts hhosts =>
    obtain ⟨hrun, hcallers⟩ := List.forall_mem_cons.1 hframes
    exact hhosts.veiled hm.thread ⟨hd, hcallers, (List.forall_mem_cons.1 hseats).2⟩ hrun
  | idles => exact ⟨hd, hnull, hframes, trivial⟩
  | rests => exact ⟨hd, hnull, hframes, trivial⟩
  | invokes hinvokes => exact hinvokes.veiled ht ⟨hd, hframes, hseats⟩ hcontrol.2.1 hcontrol.2.2
  | delivers hdelivers => exact hdelivers.veiled ⟨hd, hframes, hseats⟩ hcontrol
  | done => exact ⟨hd, hcontrol, hframes, hseats⟩

/-- A careful function of the host that has the turn moves so that scripts may see it. -/
theorem visible_of_chooses (hm : m.Concealed) {move : HostMove} (hmove : m.Chooses move) :
    move.Visible := by
  obtain ⟨-, r, run, callers, hframes, hmove⟩ := hmove
  have hrun : run.Visible := hm.veiled.frames (.builtin r run) (hframes ▸ List.mem_cons_self)
  exact hmove ▸ hm.thread.move hm.veiled.heap _ r hrun

theorem careful_step (hm : m.Concealed) : m.step.thread.IsCareful where
  discreet := by
    rcases m.loader_step with hsame | ⟨loader, hmove, hset⟩
    · exact hm.thread.discreet.of_loader hsame
    · have hloader : Steering.Visible (.setLoader loader) := hm.visible_of_chooses hmove
      exact Thread.discreet_of_loader (hset ▸ hloader)
  careful i := m.next_step.ticks.host ▸ hm.thread.careful i
  sober i v a hmove := hm.thread.sober i v a (m.next_step.ticks.host ▸ hmove)

theorem sourced_step (hm : m.Concealed) : ∀ p ∈ m.step.heap.programs, p.Sourced := by
  -- only a host function can bring in a program, and it brings in visible ones only
  by_cases hhost : m.control = .host
  · have hsteps := steps_step m
    have hchoose := fun move => @visible_of_chooses _ hm move
    have hprograms := hm.programs
    obtain ⟨heap, thread, frames, control⟩ := m
    cases hhost
    generalize step _ = m' at hsteps ⊢
    cases hsteps with
    | rests => exact hprograms
    | done hdone => cases hdone
    | @hosts _ _ r run callers _ h =>
      cases h with
      | acts hact hrun =>
        have ha := hchoose _ ⟨rfl, r, run, callers, rfl, hact⟩
        exact (HostAct.performs_of_ok hrun).sourced ha hprograms
      | errs hact hrun | aborts hact hrun =>
        have ha := hchoose _ ⟨rfl, r, run, callers, rfl, hact⟩
        exact (HostAct.performs_of_error hrun).1.sourced ha hprograms
      | steers | calls => exact hprograms
      | @finishes o =>
        cases o with
        | ok v =>
          exact (Heap.Grows.closeFrame heap _ : heap.Grows (fun _ => False) _).programs ▸ hprograms
        | error e =>
          exact (Heap.Grows.closeFrame heap _ : heap.Grows (fun _ => False) _).programs ▸ hprograms
  · have hhappens := m.happens_step
    generalize m.step.heap = h, m.step.iters = live at hhappens ⊢
    cases hhappens with
    | act _ hcontrol => exact absurd hcontrol hhost
    | shift hs => exact hs.programs_eq ▸ hm.programs

/-- A step brings no part of a function to light. -/
theorem step (hm : m.Concealed) : m.step.Concealed where
  safe p hp := by
    have hsafe := safe_step (hm.safe p hp)
    exact ⟨hsafe.heap, hsafe.suits, hsafe.stands, False.elim⟩
  programs := hm.sourced_step
  thread := hm.careful_step
  veiled := hm.extends_step.veiled hm.veiled_step

end Concealed

end Machine

/-! ## Sessions -/

/-- A host that brings in only programs of resolved files and values that scripts may see. -/
def HostPolicy.careful : HostPolicy where
  acts := HostAct.Visible
  calls t f args kwargs := t.IsCareful ∧ f.Visible ∧ (∀ v ∈ args, v.Visible) ∧ Env.Visible kwargs

theorem Heap.trusted_initial : Heap.initial.Trusted where
  discreet := by
    refine ⟨?_, ?_, ?_, ?_, fun b hb => ?_, ?_, ?_⟩
    case refine_5 =>
      obtain ⟨op, -, rfl⟩ := List.mem_map.1 (List.mem_toArray.1 hb)
      exact nofun
    all_goals exact fun x hx => absurd hx (Array.not_mem_empty x)
  programs p hp := absurd hp (Array.not_mem_empty p)
  sound p _ := .initial p

theorem Session.concealed_initial : initial.machine.Concealed where
  safe p hp := Reachable.safe hp.types .refl
  programs := Heap.trusted_initial.programs
  thread := by
    refine ⟨nofun, HostCode.isCareful_ofLibrary, fun i v a hmove => ?_⟩
    rw [HostCode.act_ofLibrary hmove]
    trivial
  veiled := by
    refine ⟨Heap.trusted_initial.discreet, ?_, fun _ hf => absurd hf List.not_mem_nil, trivial⟩
    rintro _ ⟨⟩
    trivial

/-- All that happens in the session of a careful host keeps parts of functions to themselves. -/
theorem Session.Step.concealed {s s' : Session} (hstep : Step .careful s s')
    (hs : s.machine.Concealed) : s'.machine.Concealed := by
  have hsober : Step .sober s s' :=
    hstep.mono (P := .careful) (Q := .sober) (fun _ => HostAct.Visible.isSober)
        fun _ _ _ _ hc => hc.1.sober
  have hsafe : ∀ (p : Program) (hp : p.Sourced), s'.machine.Safe hp.types False := fun p hp =>
    hsober.safe hp.types (hs.safe p hp)
  cases hstep with
  | @act m held held' r h a hdone ha hp =>
    -- that the heap is only extended is known for any one compiled program
    obtain ⟨q, -, hq⟩ := sourced_pairs
    obtain ⟨-, hextends⟩ := hp.sound hq.types ha.isSober (hs.trusted.sound q hq)
    have hframes : ∀ frame ∈ m.frames, frame.Discreet h := fun frame hf =>
      hextends.frame_discreet (hs.veiled.frames frame hf)
    have hseats : h.Seats m.control m.frames := by
      rw [hdone]
      trivial
    exact ⟨hsafe, hp.sourced ha hs.programs, hs.thread,
      hp.discreet ha hs.veiled.heap, hs.veiled.control, hframes, hseats⟩
  | call held hdone hloads hc =>
    obtain ⟨hthread, hf, hargs, hkwargs⟩ := hc
    have hnone : ∀ {P : Frame → Prop}, ∀ frame ∈ ([] : List Frame), P frame := fun _ hf =>
      absurd hf List.not_mem_nil
    exact ⟨hsafe, hs.programs, hthread, hs.veiled.heap, ⟨hf, hargs, hkwargs⟩, hnone, hnone⟩
  | run m held => exact hs.step

/-- A state of the machine in the session of a careful host. -/
def Machine.Entrusted (m : Machine) : Prop := ∃ held, Session.Reachable .careful ⟨m, held⟩

theorem Machine.Entrusted.concealed {m : Machine} (hm : m.Entrusted) : m.Concealed := by
  obtain ⟨held, hreach⟩ := hm
  have hconcealed : ∀ s : Session, s.Reachable .careful → s.machine.Concealed := by
    intro s hs
    induction hs with
    | refl => exact Session.concealed_initial
    | tail _ hstep ih => exact hstep.concealed ih
  exact hconcealed _ hreach

/-! ## Scripts -/

/-- At every point of the session of a careful host, no cell and no mandatory mark occurs in a
global, a cell, a list or a dict, in a local that is not boxed, or in what is called, given to a
call or handed out by one. On an operand stack they come from the instructions that push a mark, a
local or a free variable; only the making of a tuple takes them, and only the making of a function
takes such a tuple. Nothing of them is left where a function returns, and none is there where one is
entered or gets the values that it waited for. -/
theorem internals_concealed {m : Machine} (hm : m.Entrusted) :
    m.heap.Discreet ∧ m.control.Visible ∧
    (∀ a pending, .func a pending ∈ m.frames → a.Discreet (m.heap.codeOf a.func)) ∧
    (∀ a pending callers, m.control = .exec → m.frames = .func a pending :: callers →
      ∃ f, fetch (m.heap.codeOf a.func).code a.next = .ok f ∧
        f.op.takes (f.arg.getD 0) ≤ a.stack.length ∧
        (∀ v ∈ a.stack.take (f.op.takes (f.arg.getD 0)), f.op.Accepts v) ∧
        (f.op = .ret → ∀ v ∈ a.stack, v.Visible) ∧
        m.step.Resumes callers (f.op.Leaves (f.arg.getD 0) a.stack)) ∧
    (∀ f args kwargs, m.control = .invoke f args kwargs → m.step.Resumes m.frames (· = [])) ∧
    ∀ r a pending callers, m.control = .deliver r → m.frames = .func a pending :: callers →
      m.step.Resumes callers (Machine.Supplied pending.count a.stack) := by
  have hc := hm.concealed
  refine ⟨hc.veiled.heap, hc.veiled.control, fun a pending ha => ?_, ?_, ?_, ?_⟩
  · exact (hc.veiled.frames _ ha).2
  · intro a pending callers hcontrol hframes
    obtain ⟨-, f, hfetch, ⟨htakes, haccepts, hret⟩, hresumes⟩ := hc.exec hcontrol hframes
    exact ⟨f, hfetch, htakes, haccepts, hret, hresumes⟩
  · intro f args kwargs hcontrol
    obtain ⟨heap, thread, frames, control⟩ := m
    subst hcontrol
    -- a call begins on an empty stack and leaves its caller's alone
    exact (Machine.invokes_invoke heap thread frames f args kwargs).resumes
  · intro r a pending callers hcontrol hframes
    obtain ⟨heap, thread, frames, control⟩ := m
    subst hcontrol hframes
    exact (Machine.delivers_deliver heap thread _ r).resumes
      ⟨hc.veiled.heap, hc.veiled.frames, hc.veiled.seats⟩ hc.veiled.control

/-- A careful host can make the heap of a module, and call its toplevel function. -/
theorem reachable_careful {p : Program} (hp : p.Sourced) : Session.Reachable .careful
    ⟨.start (SourceFile.toplevelHeap p) (.new "main" none 9 true) (.func ⟨0⟩) [] [], []⟩ := by
  let session (h : Heap) : Session := ⟨{ Session.initial.machine with heap := h }, []⟩
  let h1 := (Heap.initial.newProgram p).2
  let h2 := (h1.newModule ⟨0⟩ []).2
  have hprogram : Session.Step .careful Session.initial (session h1) :=
    .act (a := .newProgram p) rfl hp (.newProgram p _ [])
  have hmodule : Session.Step .careful (session h1) (session h2) :=
    .act (a := .newModule ⟨0⟩ []) rfl (fun b hb => absurd hb List.not_mem_nil)
      (.newModule [] [] Nat.zero_lt_one)
  have htoplevel : Session.Step .careful (session h2) (session (SourceFile.toplevelHeap p)) :=
    .act (a := .newFunc ⟨⟨0⟩, .toplevel, #[], #[]⟩) rfl ⟨rfl, rfl, rfl⟩
        (.newFunc [] Nat.zero_lt_one)
  have hcareful : (Thread.new "main" none 9 true).IsCareful := by
    refine ⟨nofun, HostCode.isCareful_ofLibrary, fun i v a hmove => ?_⟩
    rw [HostCode.act_ofLibrary hmove]
    trivial
  exact (((ReflTransGen.single hprogram).tail hmodule).tail htoplevel).tail
    (.call [] rfl (fun _ _ _ h => by cases h)
      ⟨hcareful, trivial, fun v hv => absurd hv List.not_mem_nil, fun b hb =>
          absurd hb List.not_mem_nil⟩)

/-- A function is about to return another one: a cell is all that its stack has, and the next
instruction, which takes it, does not return. -/
theorem internals_concealed_pairs : ∃ p, pairsFile.compile = .ok p ∧
    let m := Machine.call 18 (SourceFile.toplevelHeap p) (.new "main" none 9 true) (.func ⟨0⟩) [] []
    m.Entrusted ∧ m.heap.Discreet ∧ ∃ a r, m.innermost? = some a ∧ a.stack = [.cell r] ∧
      ∃ f, fetch (m.heap.codeOf a.func).code a.next = .ok f ∧ f.op ≠ .ret ∧
        ∀ v ∈ a.stack.take (f.op.takes (f.arg.getD 0)), f.op.Accepts v := by
  obtain ⟨p, hp, hsourced⟩ := sourced_pairs
  have hcheck : pairsFile.compile.toOption.any (fun p =>
      let m := Machine.call 18 (SourceFile.toplevelHeap p) (.new "main" none 9 true)
          (.func ⟨0⟩) [] []
      m.innermost?.any fun a => decide (a.stack.map Value.kind = [.cell])) = true := by
    decide +kernel
  obtain ⟨q, hq, hany⟩ := exists_ok_of_any hcheck
  obtain rfl : p = q := Except.ok.inj (hp.symm.trans hq)
  obtain ⟨a, ha, hstack⟩ := (Option.any_eq_true _ _).1 hany
  obtain ⟨v, rest, hst, hkind, hrest⟩ := List.map_eq_cons_iff.1 (of_decide_eq_true hstack)
  obtain rfl := List.map_eq_nil_iff.1 hrest
  obtain ⟨r, rfl⟩ : ∃ r, v = .cell r := by
    cases v <;> cases hkind
    exact ⟨_, rfl⟩
  -- a run from the start of a compiled program, so the theorem is about its state after 18 steps
  have hm : Machine.Entrusted (Machine.call 18 (SourceFile.toplevelHeap p)
      (.new "main" none 9 true) (.func ⟨0⟩) [] []) := ⟨[], (reachable_careful hsourced).run 18⟩
  obtain ⟨hd, -, -, hexec, -⟩ := internals_concealed hm
  obtain ⟨hcontrol, pending, callers, hframes⟩ := Machine.innermost?_eq_some ha
  obtain ⟨f, hfetch, -, haccepts, hret, -⟩ := hexec a pending callers hcontrol hframes
  refine ⟨p, hp, hm, hd, a, r, ha, hst, f, hfetch, fun hf => ?_, haccepts⟩
  exact hret hf (.cell r) (hst ▸ List.mem_singleton_self _)

end Starlark
