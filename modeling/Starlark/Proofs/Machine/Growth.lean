import Starlark.Proofs.Machine.Balance

/-!
# Code in a heap

What runs adds functions to a heap and stores into module variables, but programs and modules stay
(`Heap.Grows`). In a sound heap all references to programs and modules are valid, and the functions
of a given program have the cells that their code expects (`Heap.Sound`).
-/

set_option autoImplicit false

namespace Starlark

/-- A value is a cell. -/
def Value.IsCell (v : Value) : Prop := ∃ r, v = .cell r

/-- A function has the cells that its code of a program expects. -/
def FuncObj.MadeBy (p : Program) (f : FuncObj) : Prop :=
  ∃ code, p.code? f.code = some code ∧ f.freeVars.size = code.freeVars.size ∧
    ∀ v ∈ f.freeVars, v.IsCell

/-- Programs and modules stay, up to the values of module variables, and functions and cells are
only added. -/
structure Heap.Grows (New : FuncObj → Prop) (h h' : Heap) : Prop where
  cells_size : h.cells.size ≤ h'.cells.size
  programs : h'.programs = h.programs
  modules_size : h'.modules.size = h.modules.size
  program_eq : ∀ r, (h'.module r).program = (h.module r).program
  predeclared_eq : ∀ r, (h'.module r).predeclared = (h.module r).predeclared
  globals_size : ∀ r, (h'.module r).globals.size = (h.module r).globals.size
  funcs_old : ∀ f ∈ h.funcs, f ∈ h'.funcs
  funcs_new : ∀ f ∈ h'.funcs, f ∈ h.funcs ∨ New f

namespace Heap.Grows

variable {New : FuncObj → Prop} {h h' h'' : Heap}

/-- Heaps with the same code. -/
theorem of_eq (hp : h'.programs = h.programs) (hm : h'.modules = h.modules)
    (hf : h'.funcs = h.funcs) (hc : h.cells.size ≤ h'.cells.size) : h.Grows New h' where
  cells_size := hc
  programs := hp
  modules_size := congrArg Array.size hm
  program_eq r := by rw [Heap.module, Heap.module, hm]
  predeclared_eq r := by rw [Heap.module, Heap.module, hm]
  globals_size r := by rw [Heap.module, Heap.module, hm]
  funcs_old f := hf ▸ id
  funcs_new f h := .inl (hf ▸ h)

theorem refl (h : Heap) : h.Grows New h := .of_eq rfl rfl rfl (Nat.le_refl _)

theorem trans (h1 : h.Grows New h') (h2 : h'.Grows New h'') : h.Grows New h'' where
  cells_size := Nat.le_trans h1.cells_size h2.cells_size
  programs := h2.programs.trans h1.programs
  modules_size := h2.modules_size.trans h1.modules_size
  program_eq r := (h2.program_eq r).trans (h1.program_eq r)
  predeclared_eq r := (h2.predeclared_eq r).trans (h1.predeclared_eq r)
  globals_size r := (h2.globals_size r).trans (h1.globals_size r)
  funcs_old f hf := h2.funcs_old f (h1.funcs_old f hf)
  funcs_new f hf := (h2.funcs_new f hf).elim (h1.funcs_new f) .inr

theorem of_change (hc : h.Change h') : h.Grows New h' := by
  cases hc with
  | newList elems => exact .of_eq rfl rfl rfl (Nat.le_refl _)
  | newDict => exact .of_eq rfl rfl rfl (Nat.le_refl _)
  | newBuiltin op receiver => exact .of_eq rfl rfl rfl (Nat.le_refl _)
  | setList r f _ _ => exact .of_eq rfl rfl rfl (Nat.le_refl _)
  | insert r v _ _ _ => exact .of_eq rfl rfl rfl (Nat.le_refl _)

theorem newCell (h : Heap) (content : Option Value) : h.Grows New (h.newCell content).2 :=
  .of_eq rfl rfl rfl (by simp [Heap.newCell])

theorem newFunc (h : Heap) {f : FuncObj} (hf : New f) : h.Grows New (h.newFunc f).2 where
  cells_size := Nat.le_refl _
  programs := rfl
  modules_size := rfl
  program_eq _ := rfl
  predeclared_eq _ := rfl
  globals_size _ := rfl
  funcs_old g hg := Array.mem_push.2 (.inl hg)
  funcs_new g hg := by
    rcases Array.mem_push.1 hg with hg | rfl
    · exact .inl hg
    · exact .inr hf

theorem setGlobal (h : Heap) (r : ModuleRef) (i : Nat) (v : Value) :
    h.Grows New (h.setGlobal r i v) := by
  have hmodule : ∀ s, ∃ gs : Array (Option Value), gs.size = (h.module s).globals.size ∧
      (h.setGlobal r i v).module s = { h.module s with globals := gs } := by
    intro s
    simp only [Heap.setGlobal, Heap.module, Array.getD_eq_getD_getElem?, Array.getElem?_modify]
    split
    · rename_i hs
      cases h.modules[s.index]? with
      | none => exact ⟨_, rfl, rfl⟩
      | some m => exact ⟨m.globals.setIfInBounds i (some v), by simp, rfl⟩
    · exact ⟨_, rfl, rfl⟩
  refine ⟨Nat.le_refl _, rfl, by simp [Heap.setGlobal], fun s => ?_, fun s => ?_, fun s => ?_,
    fun f => id, fun f => .inl⟩
  all_goals
    obtain ⟨gs, hsize, he⟩ := hmodule s
    rw [he]
  exact hsize

theorem openIter {v : Value} {it : Option Iter} (ho : h.openIter v = (it, h')) :
    h.Grows New h' := by
  unfold Heap.openIter at ho
  split at ho
  · split at ho
    · cases ho
      exact .of_eq rfl rfl rfl (Nat.le_refl _)
    · cases ho
      exact .refl h
  · split at ho
    · cases ho
      exact .of_eq rfl rfl rfl (Nat.le_refl _)
    · cases ho
      exact .refl h
  · cases ho
    exact .refl h
  · cases ho
    exact .refl h

theorem closeIter (h : Heap) (it : Iter) : h.Grows New (h.closeIter it) := by
  cases it with
  | list r i => exact .of_eq rfl rfl rfl (Nat.le_refl _)
  | dict r i => exact .of_eq rfl rfl rfl (Nat.le_refl _)
  | tuple rest => exact .refl h

theorem freezeNode (h : Heap) (n : Node) : h.Grows New (h.freezeNode n) := by
  cases n with
  | list r => exact .of_eq rfl rfl rfl (Nat.le_refl _)
  | dict r => exact .of_eq rfl rfl rfl (Nat.le_refl _)
  | cell r => exact .of_eq rfl rfl rfl (Nat.le_of_eq Array.size_modify.symm)
  | func r => exact .refl h
  | builtin r => exact .refl h

theorem freeze (h : Heap) (v : Value) : h.Grows New (h.freeze v) :=
  Heap.rel_freeze .refl .trans freezeNode h v

theorem freezeModule (h : Heap) (r : ModuleRef) : h.Grows New (h.freezeModule r) :=
  Heap.rel_freezeModule .refl .trans freezeNode h r

theorem closeAll (h : Heap) (its : List Iter) : h.Grows New (its.foldl Heap.closeIter h) := by
  induction its generalizing h with
  | nil => exact .refl h
  | cons it its ih => exact (closeIter h it).trans (ih _)

theorem closeFrame (h : Heap) (frame : Frame) : h.Grows New (h.closeFrame frame) := by
  cases frame with
  | builtin r run => exact closeAll h run.held
  | func a pending => exact closeAll h a.iters

theorem install (h : Heap) (b : Bound) : h.Grows New (b.install h).2 := by
  unfold Bound.install
  split
  · exact .refl h
  · exact .of_eq rfl rfl rfl (Nat.le_refl _)

end Heap.Grows

instance (New : FuncObj → Prop) : Heap.Tolerant (Heap.Grows New) where
  refl := .refl
  trans := .trans
  change := .of_change
  setCell _ _ _ := .of_eq rfl rfl rfl (Nat.le_of_eq Array.size_modify.symm)
  setGlobal := .setGlobal

/-! ## Sound heaps -/

/-- Modules have their programs and a slot for each variable, functions have their modules, and
those of the given program have the cells that they expect. -/
structure Heap.Sound (p : Program) (h : Heap) : Prop where
  program_lt : ∀ r : ModuleRef, r.index < h.modules.size →
    (h.module r).program.index < h.programs.size
  globals : ∀ r : ModuleRef, r.index < h.modules.size →
    (h.module r).globals.size = (h.program (h.module r).program).globals.size
  module_lt : ∀ f ∈ h.funcs, f.module.index < h.modules.size
  made : ∀ f ∈ h.funcs, h.programOf f = p → f.MadeBy p

/-- Cells stay, and functions stay and keep their programs. -/
structure Heap.Extends (h h' : Heap) : Prop where
  cells : h.cells.size ≤ h'.cells.size
  programs : h.programs.size ≤ h'.programs.size
  mem : ∀ f ∈ h.funcs, f ∈ h'.funcs
  programOf_eq : ∀ f ∈ h.funcs, h'.programOf f = h.programOf f

namespace Heap

variable {New : FuncObj → Prop} {p : Program} {h h' h'' : Heap}

theorem Extends.refl (h : Heap) : h.Extends h :=
  ⟨Nat.le_refl _, Nat.le_refl _, fun _ => id, fun _ _ => rfl⟩

theorem Extends.trans (h1 : h.Extends h') (h2 : h'.Extends h'') : h.Extends h'' where
  cells := Nat.le_trans h1.cells h2.cells
  programs := Nat.le_trans h1.programs h2.programs
  mem f hf := h2.mem f (h1.mem f hf)
  programOf_eq f hf := (h2.programOf_eq f (h1.mem f hf)).trans (h1.programOf_eq f hf)

theorem Grows.programOf_eq (hg : h.Grows New h') (f : FuncObj) :
    h'.programOf f = h.programOf f := by
  rw [programOf, programOf, program, program, hg.programs, hg.program_eq]

theorem Grows.extends (hg : h.Grows New h') : h.Extends h' where
  cells := hg.cells_size
  programs := Nat.le_of_eq (congrArg Array.size hg.programs).symm
  mem := hg.funcs_old
  programOf_eq f _ := hg.programOf_eq f

namespace Sound

theorem initial (p : Program) : Heap.initial.Sound p where
  program_lt _ hr := absurd hr (Nat.not_lt_zero _)
  globals _ hr := absurd hr (Nat.not_lt_zero _)
  module_lt _ hf := absurd hf (Array.not_mem_empty _)
  made _ hf := absurd hf (Array.not_mem_empty _)

theorem grows (hs : h.Sound p) (hg : h.Grows New h')
    (hnew : ∀ f, New f → f.module.index < h.modules.size ∧ (h.programOf f = p → f.MadeBy p)) :
    h'.Sound p where
  program_lt r hr := by
    rw [hg.program_eq, hg.programs]
    exact hs.program_lt r (hg.modules_size ▸ hr)
  globals r hr := by
    rw [hg.globals_size, hg.program_eq, Heap.program, hg.programs]
    exact hs.globals r (hg.modules_size ▸ hr)
  module_lt f hf := by
    rw [hg.modules_size]
    rcases hg.funcs_new f hf with hf | hf
    · exact hs.module_lt f hf
    · exact (hnew f hf).1
  made f hf := by
    rw [hg.programOf_eq]
    rcases hg.funcs_new f hf with hf | hf
    · exact hs.made f hf
    · exact (hnew f hf).2

/-- No functions are added. -/
theorem grows_none (hs : h.Sound p) (hg : h.Grows (fun _ => False) h') : h'.Sound p :=
  hs.grows hg fun _ => False.elim

theorem newProgram (hs : h.Sound p) (q : Program) :
    (h.newProgram q).2.Sound p ∧ h.Extends (h.newProgram q).2 := by
  have hprogram : ∀ r : ProgramRef, r.index < h.programs.size →
      (h.newProgram q).2.program r = h.program r := by
    intro r hr
    simp only [Heap.newProgram, Heap.program, Array.getD_eq_getD_getElem?]
    rw [Array.getElem?_push_lt hr, Array.getElem?_eq_getElem hr]
  have hprogramOf : ∀ f ∈ h.funcs, (h.newProgram q).2.programOf f = h.programOf f :=
    fun f hf => hprogram _ (hs.program_lt f.module (hs.module_lt f hf))
  have hsize : h.programs.size ≤ (h.newProgram q).2.programs.size := by simp [Heap.newProgram]
  refine ⟨⟨?_, ?_, hs.module_lt, ?_⟩, Nat.le_refl _, hsize, fun _ => id, hprogramOf⟩
  · exact fun r hr => Nat.lt_of_lt_of_le (hs.program_lt r hr) hsize
  · intro r hr
    show (h.module r).globals.size = ((h.newProgram q).2.program (h.module r).program).globals.size
    rw [hprogram _ (hs.program_lt r hr)]
    exact hs.globals r hr
  · intro f hf hp
    exact hs.made f hf (hprogramOf f hf ▸ hp)

theorem newModule (hs : h.Sound p) {q : ProgramRef} (hq : q.index < h.programs.size)
    (predeclared : Env) :
    (h.newModule q predeclared).2.Sound p ∧ h.Extends (h.newModule q predeclared).2 := by
  have hmodule : ∀ r : ModuleRef, r.index < h.modules.size →
      (h.newModule q predeclared).2.module r = h.module r := by
    intro r hr
    simp only [Heap.newModule, Heap.module, Array.getD_eq_getD_getElem?]
    rw [Array.getElem?_push_lt hr, Array.getElem?_eq_getElem hr]
  have hlast : ∀ r : ModuleRef, r.index = h.modules.size →
      (h.newModule q predeclared).2.module r =
        ⟨q, predeclared, Array.replicate (h.program q).globals.size none⟩ := by
    intro r hr
    simp only [Heap.newModule, Heap.module, Array.getD_eq_getD_getElem?, hr]
    rw [Array.getElem?_push_size]
    rfl
  have hsize : (h.newModule q predeclared).2.modules.size = h.modules.size + 1 := by
    simp [Heap.newModule]
  have hprogramOf : ∀ f ∈ h.funcs, (h.newModule q predeclared).2.programOf f = h.programOf f := by
    intro f hf
    rw [programOf, programOf, hmodule _ (hs.module_lt f hf)]
    rfl
  refine ⟨⟨?_, ?_, ?_, ?_⟩, Nat.le_refl _, Nat.le_refl _, fun _ => id, hprogramOf⟩
  · intro r hr
    -- an older module is as it was, and the new one has all its globals unset
    rcases Nat.lt_succ_iff_lt_or_eq.1 (hsize ▸ hr) with hr | hr
    · rw [hmodule r hr]
      exact hs.program_lt r hr
    · rw [hlast r hr]
      exact hq
  · intro r hr
    rcases Nat.lt_succ_iff_lt_or_eq.1 (hsize ▸ hr) with hr | hr
    · rw [hmodule r hr]
      exact hs.globals r hr
    · rw [hlast r hr]
      exact Array.size_replicate
  · intro f hf
    rw [hsize]
    exact Nat.lt_succ_of_lt (hs.module_lt f hf)
  · intro f hf hp
    exact hs.made f hf (hprogramOf f hf ▸ hp)

/-- A toplevel function of a program that captures nothing there. -/
theorem newToplevel (hs : h.Sound p) (hfree : p.toplevel.freeVars.size = 0) {module : ModuleRef}
    (hm : module.index < h.modules.size) :
    (h.newFunc ⟨module, .toplevel, #[], #[]⟩).2.Sound p ∧
      h.Extends (h.newFunc ⟨module, .toplevel, #[], #[]⟩).2 := by
  have hg : h.Grows (fun f => f = ⟨module, .toplevel, #[], #[]⟩)
      (h.newFunc ⟨module, .toplevel, #[], #[]⟩).2 := .newFunc h rfl
  refine ⟨hs.grows hg ?_, hg.extends⟩
  rintro f rfl
  exact ⟨hm, fun _ => ⟨_, rfl, hfree.symm, fun v hv => absurd hv (Array.not_mem_empty v)⟩⟩

end Sound

end Heap

end Starlark
