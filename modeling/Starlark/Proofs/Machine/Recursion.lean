import Mathlib.Data.List.Basic
import Starlark.Proofs.Machine.Growth
import Starlark.Proofs.Machine.Hosting

/-!
# The recursion guard

A function of a program without recursion is not entered while its code is active. So at every
moment the active functions of such programs run pairwise different code (`Heap.guardedCodes`), and
a call is refused in exactly that case (`Session.recursion_guarded`).
-/

set_option autoImplicit false

namespace Starlark

open Relation (ReflTransGen)

/-! ## Functions and their programs -/

/-- Functions belong to modules of the heap. -/
def Heap.Housed (h : Heap) : Prop := ∀ f ∈ h.funcs, f.module.index < h.modules.size

/-- Programs and cells are added, modules are added and keep their programs, and functions are added
to modules. -/
structure Heap.KeepsCode (h h' : Heap) : Prop where
  cells_le : h.cells.size ≤ h'.cells.size
  programs_le : h.programs.size ≤ h'.programs.size
  programs_eq : ∀ p : ProgramRef, p.index < h.programs.size → h'.program p = h.program p
  modules_le : h.modules.size ≤ h'.modules.size
  program_eq : ∀ r : ModuleRef, r.index < h.modules.size → (h'.module r).program =
      (h.module r).program
  funcs : ∀ f ∈ h'.funcs, f ∈ h.funcs ∨ f.module.index < h'.modules.size

namespace Heap.KeepsCode

variable {New : FuncObj → Prop} {h h' h'' : Heap}

theorem refl (h : Heap) : h.KeepsCode h :=
  ⟨Nat.le_refl _, Nat.le_refl _, fun _ _ => rfl, Nat.le_refl _, fun _ _ => rfl, fun _ => .inl⟩

/-- Two steps that keep the code keep it together. -/
theorem trans (h1 : h.KeepsCode h') (h2 : h'.KeepsCode h'') : h.KeepsCode h'' where
  cells_le := Nat.le_trans h1.cells_le h2.cells_le
  programs_le := Nat.le_trans h1.programs_le h2.programs_le
  programs_eq p hp :=
    (h2.programs_eq p (Nat.lt_of_lt_of_le hp h1.programs_le)).trans (h1.programs_eq p hp)
  modules_le := Nat.le_trans h1.modules_le h2.modules_le
  program_eq r hr :=
    (h2.program_eq r (Nat.lt_of_lt_of_le hr h1.modules_le)).trans (h1.program_eq r hr)
  funcs f hf := by
    rcases h2.funcs f hf with hf | hf
    · exact (h1.funcs f hf).imp_right fun hlt => Nat.lt_of_lt_of_le hlt h2.modules_le
    · exact .inr hf

/-- A heap that grows keeps its code, if new functions are of modules that are there. -/
theorem of_grows (hg : h.Grows New h') (hnew : ∀ f, New f → f.module.index < h.modules.size) :
    h.KeepsCode h' where
  cells_le := hg.cells_size
  programs_le := Nat.le_of_eq (congrArg Array.size hg.programs).symm
  programs_eq p _ := by rw [Heap.program, Heap.program, hg.programs]
  modules_le := Nat.le_of_eq hg.modules_size.symm
  program_eq r _ := hg.program_eq r
  funcs f hf := (hg.funcs_new f hf).imp_right fun hf => hg.modules_size.symm ▸ hnew f hf

/-- No functions are added. -/
theorem of_grows_none (hg : h.Grows (fun _ => False) h') : h.KeepsCode h' := of_grows hg nofun

theorem newProgram (h : Heap) (p : Program) : h.KeepsCode (h.newProgram p).2 where
  cells_le := Nat.le_refl _
  programs_le := by simp [Heap.newProgram]
  programs_eq q hq := by
    simp only [Heap.newProgram, Heap.program, Array.getD_eq_getD_getElem?,
      Array.getElem?_push_lt hq, Array.getElem?_eq_getElem hq]
  modules_le := Nat.le_refl _
  program_eq _ _ := rfl
  funcs _ := .inl

theorem newModule (h : Heap) (p : ProgramRef) (predeclared : Env) :
    h.KeepsCode (h.newModule p predeclared).2 where
  cells_le := Nat.le_refl _
  programs_le := Nat.le_refl _
  programs_eq _ _ := rfl
  modules_le := by simp [Heap.newModule]
  program_eq r hr := by
    simp only [Heap.newModule, Heap.module, Array.getD_eq_getD_getElem?, Array.getElem?_push_lt hr,
      Array.getElem?_eq_getElem hr]
  funcs _ := .inl

theorem newFunc (h : Heap) {f : FuncObj} (hf : f.module.index < h.modules.size) :
    h.KeepsCode (h.newFunc f).2 := by
  have hg : h.Grows (fun g => g = f) (h.newFunc f).2 := .newFunc h rfl
  exact of_grows hg fun g hgf => hgf ▸ hf

theorem of_alters (ha : h.Alters New h') (hnew : ∀ f, New f → f.module.index < h.modules.size) :
    h.KeepsCode h' := by
  cases ha with
  | change hc => exact of_grows_none (.of_change hc)
  | setCell r v => exact of_grows_none (Heap.Tolerant.setCell h r v)
  | setGlobal r i v => exact of_grows_none (.setGlobal h r i v)
  | newCell content => exact of_grows_none (.newCell h content)
  | newFunc hf => exact newFunc h (hnew _ hf)
  | newToplevel p predeclared =>
    refine (newModule h p predeclared).trans (newFunc _ ?_)
    simp [Heap.newModule]
  | freezeNode n => exact of_grows_none (.freezeNode h n)

/-- What a step alters keeps the code, if new functions are of modules that are there. -/
theorem of_altered (ha : h.Altered New h') (hnew : ∀ f, New f → f.module.index < h.modules.size) :
    h.KeepsCode h' := by
  induction ha with
  | refl => exact refl h
  | tail _ ha ih =>
    exact ih.trans (of_alters ha fun f hf => Nat.lt_of_lt_of_le (hnew f hf) ih.modules_le)

theorem closeAll (h : Heap) (its : List Iter) : h.KeepsCode (its.foldl Heap.closeIter h) := by
  induction its generalizing h with
  | nil => exact refl h
  | cons it its ih =>
    exact (of_grows_none (.closeIter h it)).trans (ih _)

/-- What a step does to iterators keeps the code as well. -/
theorem of_shift {live live' : List Iter} {event : Iter.Event}
    (hs : h.Shift New live event h' live')
    (hnew : ∀ f, New f → f.module.index < h.modules.size) : h.KeepsCode h' := by
  cases hs with
  | close done rest ha => exact (of_altered ha hnew).trans (closeAll _ done)
  | push live ho => exact of_grows_none (.openIter ho)
  | advance live hn => exact refl h

/-- Functions stay housed. -/
theorem housed (hk : h.KeepsCode h') (hh : h.Housed) : h'.Housed := fun f hf =>
  (hk.funcs f hf).elim (fun hf => Nat.lt_of_lt_of_le (hh f hf) hk.modules_le) id

/-- A function keeps its program. -/
theorem programOf_eq (hk : h.KeepsCode h') {f : FuncObj} (hf : f.module.index < h.modules.size)
    (hp : (h.module f.module).program.index < h.programs.size) :
    h'.programOf f = h.programOf f := by
  rw [Heap.programOf, Heap.programOf, hk.program_eq _ hf, hk.programs_eq _ hp]

/-- A program without recursion was one from the start: what is no program yet allows none. -/
theorem recursion_eq_false (hk : h.KeepsCode h') {f : FuncObj}
    (hf : f.module.index < h.modules.size)
    (hrec : (h'.programOf f).recursion = false) : (h.programOf f).recursion = false := by
  by_cases hp : (h.module f.module).program.index < h.programs.size
  · rwa [hk.programOf_eq hf hp] at hrec
  · have hnone : h.programOf f = default := by
      rw [Heap.programOf, Heap.program, Array.getD_eq_getD_getElem?,
        Array.getElem?_eq_none (Nat.le_of_not_lt hp), Option.getD_none]
    rw [hnone]
    rfl

end Heap.KeepsCode

/-- What a host does keeps the code, whenever it does it. -/
theorem HostAct.Performs.keepsCode {a : HostAct} {h h' : Heap} {held held' : List Iter}
    (hp : a.Performs (h, held) (h', held')) : h.KeepsCode h' := by
  cases hp with
  | idle => exact .refl h
  | operate o => exact .of_grows_none (Heap.Tolerant.evolves (o.evolves_after h))
  | freeze v => exact .of_grows_none (.freeze h v)
  | freezeModule r => exact .of_grows_none (.freezeModule h r)
  | newCell content => exact .of_grows_none (.newCell h content)
  | setCell r v => exact .of_grows_none (Heap.Tolerant.setCell h r v)
  | newProgram p => exact .newProgram h p
  | newModule predeclared _ hlt => exact .newModule h _ predeclared
  | newFunc _ hf => exact .newFunc h hf
  | openIter _ ho => exact .of_grows_none (.openIter ho)
  | advance => exact .refl h
  | close => exact .of_grows_none (.closeIter h _)

/-! ## Active code -/

/-- The code that an active call runs, if it belongs to a program without recursion. -/
def Heap.guardedCode? (h : Heap) : Frame → Option (ProgramRef × CodeId)
  | .func a _ =>
    if (h.programOf a.func).recursion then none
    else some ((h.module a.func.module).program, a.func.code)
  | .builtin _ _ => none

/-- The code that the active functions of programs without recursion run. -/
def Heap.guardedCodes (h : Heap) (frames : List Frame) : List (ProgramRef × CodeId) :=
  frames.filterMap h.guardedCode?

/-- The functions of active calls belong to modules of the heap. -/
def Frame.IsHoused (h : Heap) : Frame → Prop
  | .func a _ => a.func.module.index < h.modules.size
  | .builtin _ _ => True

/-- Functions belong to modules, and the guarded ones that are active run pairwise different
code. -/
structure Machine.Guarded (m : Machine) : Prop where
  housed : m.heap.Housed
  frames : ∀ frame ∈ m.frames, frame.IsHoused m.heap
  nodup : (m.heap.guardedCodes m.frames).Nodup

/-- Code that is guarded was guarded before. -/
theorem Heap.KeepsCode.guardedCode?_of_some {h h' : Heap} (hk : h.KeepsCode h') {frame : Frame}
    (hf : frame.IsHoused h) {code : ProgramRef × CodeId}
    (hcode : h'.guardedCode? frame = some code) :
    h.guardedCode? frame = some code := by
  cases frame with
  | builtin r run => cases hcode
  | func a pending =>
    simp only [Heap.guardedCode?] at hcode ⊢
    split at hcode
    · cases hcode
    · rename_i hrec
      have hbefore := hk.recursion_eq_false hf (Bool.eq_false_iff.2 hrec)
      rw [hbefore, ← hk.program_eq _ hf]
      exact hcode

/-- The codes that are guarded are the same, or fewer, in a heap that keeps the code. -/
theorem Heap.KeepsCode.guardedCodes_sublist {h h' : Heap} (hk : h.KeepsCode h')
    {frames : List Frame}
    (hf : ∀ frame ∈ frames, frame.IsHoused h) :
    (h'.guardedCodes frames).Sublist (h.guardedCodes frames) := by
  induction frames with
  | nil => exact List.Sublist.refl _
  | cons frame frames ih =>
    obtain ⟨htop, hrest⟩ := List.forall_mem_cons.1 hf
    have hcallers := ih hrest
    simp only [Heap.guardedCodes, List.filterMap_cons] at hcallers ⊢
    cases hcode : h'.guardedCode? frame with
    | some code =>
      rw [hk.guardedCode?_of_some htop hcode]
      exact hcallers.cons_cons code
    | none =>
      cases h.guardedCode? frame with
      | none => exact hcallers
      | some code => exact hcallers.cons code

theorem Heap.KeepsCode.isHoused {h h' : Heap} (hk : h.KeepsCode h') {frame : Frame}
    (hf : frame.IsHoused h) : frame.IsHoused h' := by
  cases frame with
  | func a pending => exact Nat.lt_of_lt_of_le hf hk.modules_le
  | builtin r guarded => trivial

namespace Machine.Guarded

variable {m : Machine}

/-- The heap changes, and the frames are those of before or fewer. -/
theorem keep (hg : m.Guarded) {h : Heap} {t : Thread} {frames : List Frame} {c : Control}
    (hk : m.heap.KeepsCode h) (hsub : frames.Sublist m.frames) : Guarded ⟨h, t, frames, c⟩ := by
  have hframes : ∀ frame ∈ frames, frame.IsHoused m.heap := fun frame hf =>
    hg.frames frame (hsub.subset hf)
  refine ⟨hk.housed hg.housed, fun frame hf => hk.isHoused (hframes frame hf), ?_⟩
  exact hg.nodup.sublist ((hk.guardedCodes_sublist hframes).trans (hsub.filterMap _))

/-- A builtin is active, too. -/
theorem cons_builtin (hg : m.Guarded) (r : BuiltinRef) (run : HostRun) (c : Control) :
    Guarded ⟨m.heap, m.thread, .builtin r run :: m.frames, c⟩ :=
  ⟨hg.housed, List.forall_mem_cons.2 ⟨trivial, hg.frames⟩, hg.nodup⟩

/-- The functions that a step makes are of a module that is there. -/
theorem makes_lt (hg : m.Guarded) (f : FuncObj) (hf : m.Makes f) :
    f.module.index < m.heap.modules.size := by
  obtain ⟨a, pending, callers, hframes, hmodule⟩ := hf
  rw [hmodule]
  exact hg.frames (.func a pending) (hframes ▸ List.mem_cons_self)

/-- A step keeps the code that there is. -/
theorem keepsCode_step (hg : m.Guarded) : m.heap.KeepsCode m.step.heap := by
  have hhappens := m.happens_step
  generalize m.step.heap = h, m.step.iters = live at hhappens ⊢
  cases hhappens with
  | shift hs => exact .of_shift hs hg.makes_lt
  | act _ _ hp => exact hp.keepsCode

/-- The frame of a call that is admitted runs code that is not active. -/
theorem not_mem_guardedCodes {f : Value} {frame : Frame} (ha : m.Admits f frame)
    {code : ProgramRef × CodeId} (hcode : m.heap.guardedCode? frame = some code) :
    code ∉ m.heap.guardedCodes m.frames := by
  -- a guarded frame was let in because no frame below it runs the same code
  cases frame with
  | builtin r guarded => cases hcode
  | func a pending =>
    simp only [Heap.guardedCode?] at hcode
    split at hcode
    · cases hcode
    · rename_i hrec
      cases hcode
      have hidle : m.heap.isActive a.func m.frames = false :=
        ha.2.2.2.2.resolve_left hrec
      rw [Heap.guardedCodes, List.mem_filterMap]
      rintro ⟨other, hmem, hother⟩
      cases other with
      | builtin r guarded => cases hother
      | func b pending' =>
        simp only [Heap.guardedCode?] at hother
        split at hother
        · cases hother
        · simp only [Option.some.injEq, Prod.mk.injEq] at hother
          have hsame : m.heap.isActive a.func m.frames = true :=
            List.any_eq_true.2 ⟨.func b pending', hmem, by simp [Heap.runsSame, hother]⟩
          rw [hidle] at hsame
          cases hsame

/-- The guard holds across every step. -/
theorem next {m' : Machine} (hg : m.Guarded) (hn : m.Next m') : m'.Guarded := by
  -- only a call adds a frame, and the heap never forgets which code a function runs
  cases hn with
  | halt _ _ _ => exact ⟨hg.housed, hg.frames, hg.nodup⟩
  | leave hframes _ ha _ =>
    rw [Heap.closeFrame_eq]
    refine hg.keep ((Heap.KeepsCode.of_altered ha hg.makes_lt).trans (.closeAll _ _)) ?_
    rw [hframes]
    exact List.sublist_cons_self _ _
  | @resume a b pending pending' callers h c hframes hfunc hs _ _ =>
    have hk := Heap.KeepsCode.of_shift hs hg.makes_lt
    have hkeep : Guarded ⟨h, m.clock, .func a pending :: callers, c⟩ :=
      hg.keep hk (hframes ▸ List.Sublist.refl _)
    have hcode : h.guardedCode? (.func b pending') = h.guardedCode? (.func a pending) := by
      simp only [Heap.guardedCode?, hfunc]
    refine ⟨hkeep.housed, List.forall_mem_cons.2 ⟨?_, ?_⟩, ?_⟩
    · have htop := hkeep.frames _ List.mem_cons_self
      simpa only [Frame.IsHoused, hfunc] using htop
    · exact fun frame hf => hkeep.frames frame (List.mem_cons_of_mem _ hf)
    · have hnodup := hkeep.nodup
      simp only [Heap.guardedCodes, List.filterMap_cons, hcode] at hnodup ⊢
      exact hnodup
  | back _ ha _ => exact hg.keep (.of_altered ha hg.makes_lt) (List.Sublist.refl _)
  | @enter f args kwargs frame h c hcontrol ha hframe hc =>
    have hk := Heap.KeepsCode.of_altered ha hg.makes_lt
    have hkeep : Guarded ⟨h, m.thread, m.frames, c⟩ := hg.keep hk (List.Sublist.refl _)
    have hhoused : frame.IsHoused m.heap := by
      cases frame with
      | builtin r guarded => trivial
      | func a pending =>
        obtain ⟨-, -, -, ⟨r, -, hr⟩, -⟩ := hframe
        exact hg.housed a.func (Array.mem_of_getElem? hr)
    refine ⟨hkeep.housed, List.forall_mem_cons.2 ⟨hk.isHoused hhoused, hkeep.frames⟩, ?_⟩
    rw [Heap.guardedCodes, List.filterMap_cons]
    cases hnew : h.guardedCode? frame with
    | none => exact hkeep.nodup
    | some code =>
      refine List.nodup_cons.2 ⟨fun hmem => ?_, hkeep.nodup⟩
      have hbefore := (hk.guardedCodes_sublist hg.frames).subset hmem
      exact not_mem_guardedCodes hframe (hk.guardedCode?_of_some hhoused hnew) hbefore
  | @answer r run callers o hframes _ =>
    have hkeep : Guarded ⟨m.heap, m.thread, callers, .host⟩ :=
      hg.keep (.refl _) (hframes ▸ List.sublist_cons_self _ _)
    exact hkeep.cons_builtin r (run.note o) .host
  | @turn r run run' callers h t c hframes _ hacts _ _ =>
    obtain ⟨a, hp⟩ := hacts
    have hkeep : Guarded ⟨h, t, callers, c⟩ :=
      hg.keep hp.keepsCode (hframes ▸ List.sublist_cons_self _ _)
    exact hkeep.cons_builtin r run' c

end Machine.Guarded

/-! ## Binding -/

/-- Binding fails with a fault, or gives up. -/
def BindM.Faults {α : Type} (m : BindM α) : Prop :=
  ∀ b e b', m b = .error (.error e) b' → ∃ f, e = .fault f

namespace BindM

namespace Faults

variable {α β : Type}

theorem of_ok {m : BindM α} (hm : ∀ b, ∃ a b', m b = .ok a b') : Faults m := by
  intro b e b' he
  obtain ⟨a, b'', hok⟩ := hm b
  rw [hok] at he
  cases he

/-- Steps of binding in sequence fail by faults only. -/
theorem bind {m : BindM α} {f : α → BindM β} (hm : Faults m) (hf : ∀ a, Faults (f a)) :
    Faults (m >>= f) := by
  intro b e b' he
  simp only [Bind.bind, EStateM.bind] at he
  cases hmb : m b with
  | error e' b'' =>
    rw [hmb] at he
    cases he
    exact hm b e b' hmb
  | ok a b'' =>
    rw [hmb] at he
    exact hf a b'' e b' he

theorem pure (a : α) : Faults (pure a : BindM α) := of_ok fun b => ⟨a, b, rfl⟩

theorem fault (f : Fault) : Faults (BindM.fault f : BindM α) := by
  intro b e b' he
  cases he
  exact ⟨f, rfl⟩

theorem modify (f : Bound → Bound) : Faults (modify f : BindM PUnit) := of_ok fun _ => ⟨_, _, rfl⟩

theorem get : Faults (MonadState.get : BindM Bound) := of_ok fun b => ⟨b, b, rfl⟩

theorem isBound (i : Nat) : Faults (BindM.isBound i) := of_ok fun b => ⟨_, b, rfl⟩

theorem require (p : Prop) [Decidable p] (a : Abort) : Faults (BindM.require p a) := by
  unfold BindM.require
  split
  · exact pure ()
  · intro b e b' he
    cases he

/-- Fail in one case and go on otherwise. -/
theorem guarded {p : Prop} [Decidable p] (f : Fault) {k : PUnit → BindM α} (hk : Faults (k ())) :
    Faults (if p then BindM.fault f >>= k else k ()) := by
  split
  · exact bind (fault f) fun _ => hk
  · exact hk

end Faults

/-- Values are put into slots without fail. -/
theorem faults_setSlots (i : Nat) (vs : List Value) : Faults (setSlots i vs) := by
  induction vs generalizing i with
  | nil => exact .pure ()
  | cons v vs ih => exact (Faults.modify _).bind fun _ => ih (i + 1)

/-- Named arguments are refused by faults. -/
theorem faults_keywords (f : String) (params : List String) (kwargs : Keywords) :
    Faults (keywords f params kwargs) := by
  induction kwargs with
  | nil => exact .pure ()
  | cons kv rest ih =>
    obtain ⟨k, v⟩ := kv
    unfold keywords
    split
    · exact (Faults.isBound _).bind fun _ => .guarded _ ((Faults.modify _).bind fun _ => ih)
    · refine Faults.get.bind fun b => ?_
      split
      · exact (Faults.fault _).bind fun _ => ih
      · exact (Faults.modify _).bind fun _ => .guarded _ ih

/-- Defaults are filled in without fail, or the function is malformed. -/
theorem faults_defaults (first : Nat) (values : Array Value) (i : Nat) (params : List String) :
    Faults (defaults first values i params) := by
  induction params generalizing i with
  | nil => exact .pure []
  | cons q rest ih =>
    have hskip : Faults (do return q :: (← defaults first values (i + 1) rest)) :=
      (ih (i + 1)).bind fun _ => .pure _
    unfold defaults
    refine (Faults.isBound i).bind fun bound => ?_
    split
    · exact ih (i + 1)
    · split
      · exact hskip
      · split
        · exact hskip
        · exact hskip
        · exact (Faults.modify _).bind fun _ => ih (i + 1)

end BindM

open BindM in
theorem faults_bindNamed (c : Code) (values : Array Value) (kwargs : Keywords)
    (ordinary taken : Nat) :
    Faults (bindNamed c values kwargs ordinary taken) := by
  unfold bindNamed
  refine (Faults.require _ _).bind fun _ => (faults_keywords _ _ _).bind fun _ => ?_
  split
  · refine (faults_defaults _ _ _ _).bind fun missing => ?_
    split
    · exact .fault _
    · exact .pure ()
  · exact .pure ()

open BindM in
/-- Binding arguments fails by faults of its own, which are no recursion. -/
theorem faults_bindArguments (c : Code) (values : Array Value) (args : List Value)
    (kwargs : Keywords) :
    Faults (bindArguments c values args kwargs) := by
  have hordinary : ∀ size named, Faults (bindOrdinary c values args kwargs size named) := by
    intro size named
    unfold bindOrdinary
    refine (Faults.require _ _).bind fun _ => (Faults.require _ _).bind fun _ => ?_
    refine .guarded _ ((faults_setSlots _ _).bind fun _ => ?_)
    split
    · exact (Faults.require _ _).bind fun _ => (Faults.modify _).bind fun _ =>
        faults_bindNamed c values kwargs _ _
    · exact faults_bindNamed c values kwargs _ _
  unfold bindArguments
  split
  · exact .guarded _ (.pure ())
  · refine Faults.get.bind fun b => ?_
    split
    · exact (Faults.require _ _).bind fun _ => (Faults.modify _).bind fun _ => hordinary _ _
    · exact hordinary _ _

/-! ## The guard -/

/-- An error was raised by the recursion guard. -/
def Error.IsRecursion (e : Error) : Prop := ∃ name, e.root = .recursion name

namespace Machine

/-- A function that is called belongs to a program without recursion, and its code is active. -/
def Recurs (m : Machine) (f : FuncObj) : Prop :=
  (m.heap.programOf f).recursion = false ∧ ∃ a pending, .func a pending ∈ m.frames ∧
    (m.heap.module a.func.module).program = (m.heap.module f.module).program ∧ a.func.code = f.code

/-- A call recurs if the machine finds its code active. -/
theorem recurs_iff {m : Machine} {f : FuncObj} :
    m.Recurs f ↔ (!(m.heap.programOf f).recursion && m.heap.isActive f m.frames) = true := by
  rw [Bool.and_eq_true, Bool.not_eq_true', Recurs, Heap.isActive, List.any_eq_true]
  refine and_congr_right fun _ => ⟨?_, ?_⟩
  · rintro ⟨a, pending, hmem, hprogram, hcode⟩
    exact ⟨.func a pending, hmem, by simp [Heap.runsSame, hprogram, hcode]⟩
  · rintro ⟨frame, hmem, hsame⟩
    cases frame with
    | builtin r guarded => cases hsame
    | func a pending =>
      simp only [Heap.runsSame, Bool.and_eq_true, beq_iff_eq] at hsame
      exact ⟨a, pending, hmem, hsame.1, hsame.2⟩

/-- A call that there is room for is refused before it starts if it recurs, and otherwise not for
that reason. -/
theorem step_invoke {m : Machine} {r : FuncRef} {args : List Value} {kwargs : Keywords}
    {f : FuncObj}
    (hcontrol : m.control = .invoke (.func r) args kwargs) (hf : m.heap.funcs[r.index]? = some f)
    (hroom : m.frames.length < m.thread.maxDepth) :
    (m.Recurs f → ∃ stack, m.step = ⟨m.heap, m.thread, m.frames,
      .deliver (.error (.eval stack (.recursion (m.heap.codeOf f).name)))⟩) ∧
    ((∃ e, m.step.control = .deliver (.error e) ∧ e.IsRecursion) → m.Recurs f) := by
  rw [step_of_room hcontrol hf hroom, recurs_iff]
  unfold enter
  dsimp only
  constructor
  · intro hguard
    rw [if_pos hguard]
    exact ⟨_, rfl⟩
  · rintro ⟨e, he, hrec⟩
    -- no other way that a call can fail is the failure of recursion
    by_contra hguard
    rw [if_neg hguard] at he
    split at he
    · rename_i stop b hbind
      cases stop with
      | abort x => cases he
      | error e' =>
        obtain ⟨fault, rfl⟩ := faults_bindArguments _ _ _ _ _ _ _ hbind
        cases he
        obtain ⟨name, hname⟩ := hrec
        cases hname
    · split at he
      · cases he
      · cases he

end Machine

/-! ## Sessions -/

namespace Session

variable {P : HostPolicy}

/-- The guard holds in every session that can come about. -/
theorem Reachable.guarded {s : Session} (hs : s.Reachable P) : s.machine.Guarded := by
  induction hs with
  | refl => exact ⟨fun _ hf => absurd hf (Array.not_mem_empty _), nofun, List.nodup_nil⟩
  | @tail s s' hreach hstep ih =>
    cases hstep with
    | @act m held held' r h a hdone _ hp =>
      have hnil := Machine.frames_of_finished (Reachable.balanced hreach).poised hdone
      refine ⟨hp.keepsCode.housed ih.housed, ?_, ?_⟩
      · rw [hnil]
        exact nofun
      · rw [hnil]
        exact List.nodup_nil
    | call => exact ⟨ih.housed, nofun, List.nodup_nil⟩
    | run m held => exact ih.next m.next_step

/-- The recursion guard, in every session that can come about, whatever its host does between its
calls and in its functions: the active functions of programs without recursion run pairwise
different code. A call of a function for which there is room is refused by the guard if and only if
it belongs to such a program and its code is active; then nothing of it has happened. -/
theorem recursion_guarded {s : Session} (hs : s.Reachable P) :
    (s.machine.heap.guardedCodes s.machine.frames).Nodup ∧
    ∀ r args kwargs f, s.machine.control = .invoke (.func r) args kwargs →
      s.machine.heap.funcs[r.index]? = some f →
      s.machine.frames.length < s.machine.thread.maxDepth →
      ((∃ e, s.machine.step.control = .deliver (.error e) ∧ e.IsRecursion) ↔ s.machine.Recurs f) ∧
      (s.machine.Recurs f → ∃ e, s.machine.step =
        ⟨s.machine.heap, s.machine.thread, s.machine.frames, .deliver (.error e)⟩) := by
  refine ⟨hs.guarded.nodup, fun r args kwargs f hcontrol hf hroom => ?_⟩
  obtain ⟨hrefuse, hrecurs⟩ := Machine.step_invoke hcontrol hf hroom
  refine ⟨⟨hrecurs, fun hr => ?_⟩, fun hr => ?_⟩
  · obtain ⟨stack, hstep⟩ := hrefuse hr
    rw [hstep]
    exact ⟨_, rfl, _, rfl⟩
  · obtain ⟨stack, hstep⟩ := hrefuse hr
    exact ⟨_, hstep⟩

/-- A heap with a function that runs the toplevel of a program. -/
def offering (p : Program) : Heap :=
  (((Heap.initial.newProgram p).2.newModule ⟨0⟩ []).2.newFunc ⟨⟨0⟩, .toplevel, #[], #[]⟩).2

/-- A host can make the program, its module and the function. -/
theorem reachable_offering (p : Program) :
    Reachable .free ⟨⟨offering p, default, [], .finished (.ok .null)⟩, []⟩ := by
  let session (h : Heap) : Session := ⟨⟨h, default, [], .finished (.ok .null)⟩, []⟩
  have hprogram : Step .free initial (session (Heap.initial.newProgram p).2) :=
    .act rfl trivial (.newProgram _ _ [])
  have hmodule : Step .free (session (Heap.initial.newProgram p).2)
      (session ((Heap.initial.newProgram p).2.newModule ⟨0⟩ []).2) :=
    .act rfl trivial (.newModule [] [] Nat.one_pos)
  have hfunc : Step .free (session ((Heap.initial.newProgram p).2.newModule ⟨0⟩ []).2)
      (session (offering p)) := .act rfl trivial (.newFunc [] Nat.one_pos)
  exact ((ReflTransGen.single hprogram).tail hmodule).tail hfunc

/-- A program without recursion whose function calls its argument with that argument. -/
def selfApplication : Program :=
  { (default : Program) with
    toplevel :=
      { (default : Code) with
        code := #[Opcode.getLocal.toByte, 0, Opcode.getLocal.toByte, 0, Opcode.call.toByte, 128, 2]
        locals := #[default]
        numParams := 1 } }

/-- A heap with the function of that program. -/
def selfApplying : Heap := offering selfApplication

theorem reachable_selfApplying :
    Reachable .free ⟨.start selfApplying (.new "main" none 10 true) (.func ⟨0⟩)
        [.func ⟨0⟩] [], []⟩ :=
  (reachable_offering selfApplication).tail (.call [] rfl (fun _ _ _ h => by cases h) trivial)

/-- A program without recursion whose function calls its first argument with the second one, and
with both arguments behind it. -/
def reentry : Program :=
  { (default : Program) with
    toplevel :=
      { (default : Code) with
        code := #[Opcode.getLocal.toByte, 0, Opcode.getLocal.toByte, 1, Opcode.getLocal.toByte, 0,
          Opcode.getLocal.toByte, 1, Opcode.call.toByte, 128, 6]
        locals := #[default, default]
        numParams := 2 } }

/-- A heap with the function of that program, and with a function of the host. -/
def reentering : Heap := (Operation.newBuiltin (.host "twice" 0) none).after (offering reentry)

/-- Code of a host that calls its first argument with the others, and then once more. -/
def persistentHost : HostCode := fun v =>
  match v.log, v.args with
  | [], f :: args | [_], f :: args => .call f args []
  | _, _ => .finish (.ok .null)

/-- A thread with that host. -/
def persistentThread : Thread :=
  { Thread.new "main" none 10 true with host := fun _ => persistentHost }

theorem reachable_reentering :
    Reachable .free
      ⟨.start reentering persistentThread (.func ⟨0⟩) [.builtin ⟨10⟩, .func ⟨0⟩] [], []⟩ := by
  have hbuiltin : Step .free ⟨⟨offering reentry, default, [], .finished (.ok .null)⟩, []⟩
      ⟨⟨reentering, default, [], .finished (.ok .null)⟩, []⟩ :=
    .act rfl trivial (.operate (.newBuiltin (.host "twice" 0) none) _ [])
  exact ((reachable_offering reentry).tail hbuiltin).tail
    (.call [] rfl (fun _ _ _ h => by cases h) trivial)

/-- The second entry of a function is refused, where the function calls itself, and each time that a
function of the host calls back. -/
theorem recursion_guarded_selfApplying :
    (let m :=
      Machine.run 4 (.start selfApplying (.new "main" none 10 true) (.func ⟨0⟩) [.func ⟨0⟩] [])
      ∃ e, m.step = ⟨m.heap, m.thread, m.frames, .deliver (.error e)⟩) ∧
    ∀ n ∈ [8, 11],
      let m := Machine.run n
        (.start reentering persistentThread (.func ⟨0⟩) [.builtin ⟨10⟩, .func ⟨0⟩] [])
      (∃ run caller, m.frames = [.builtin ⟨10⟩ run, caller]) ∧
      ∃ e, m.step = ⟨m.heap, m.thread, m.frames, .deliver (.error e)⟩ := by
  refine ⟨?_, fun n hn => ?_⟩
  · have hguard := (recursion_guarded (reachable_selfApplying.run 4)).2 ⟨0⟩ [.func ⟨0⟩] []
      ⟨⟨0⟩, .toplevel, #[], #[]⟩ rfl rfl (by decide)
    exact hguard.2 ⟨rfl, _, _, List.mem_cons_self, rfl, rfl⟩
  · have hrefused := fun hcontrol hf hroom hrecurs =>
      ((recursion_guarded (reachable_reentering.run n)).2 ⟨0⟩ [.builtin ⟨10⟩, .func ⟨0⟩] []
        ⟨⟨0⟩, .toplevel, #[], #[]⟩ hcontrol hf hroom).2 hrecurs
    -- at both steps the host function lies between the two calls
    rcases List.mem_pair.1 hn with rfl | rfl
    · exact ⟨⟨_, _, rfl⟩, hrefused rfl rfl (by decide)
        ⟨rfl, _, _, List.mem_cons_of_mem _ List.mem_cons_self, rfl, rfl⟩⟩
    · exact ⟨⟨_, _, rfl⟩, hrefused rfl rfl (by decide)
        ⟨rfl, _, _, List.mem_cons_of_mem _ List.mem_cons_self, rfl, rfl⟩⟩

end Session

end Starlark
