import Starlark.Proofs.Machine.Seclusion
import Starlark.Proofs.Machine.Recursion
import Starlark.Proofs.Machine.Soundness

/-!
# Calls keep parts of functions apart

`Machine.Veiled` says of a machine that nothing that a script can get at has a cell or a mandatory
mark in it: nothing in its heap, in the locals and iterators of its active calls, and in what it is
about to call with or to hand out. Here that is proved of what each part of the machine leaves
behind: the binding of arguments, entering and leaving a call, loading a module, an instruction, and
the turn of a function of the host, which must not bring in what scripts may not see
(`HostCode.IsCareful`).
-/

set_option autoImplicit false

namespace Starlark

open Relation (ReflTransGen)

/-! ## Binding -/

/-- Scripts may see all that has been bound. -/
structure Bound.Visible (b : Bound) : Prop where
  slots : ∀ v, some v ∈ b.slots → v.Visible
  extra : ∀ i env, b.extra = some (i, env) → env.Visible

/-- Binding moves values about and makes none of its own. -/
theorem Bound.invariant_visible : Bound.Invariant Value.Visible Bound.Visible where
  set i hb hv := by
    refine ⟨fun w hw => ?_, hb.extra⟩
    rcases Array.mem_or_eq_of_mem_setIfInBounds hw with hw | hw
    · exact hb.slots w hw
    · exact Option.some.inj hw ▸ hv
  start _ hb := by
    refine ⟨hb.slots, ?_⟩
    rintro _ _ ⟨⟩
    exact fun b hb => absurd hb List.not_mem_nil
  insert k hb hextra hv := by
    refine ⟨hb.slots, ?_⟩
    rintro _ _ ⟨⟩
    exact (hb.extra _ _ hextra).insert hv k

theorem Bound.visible_empty (size : Nat) : (Bound.empty size).Visible where
  slots v hv := by cases (Array.mem_replicate.1 hv).2
  extra _ _ h := by cases h

/-! ## Heaps -/

namespace Heap.Discreet

variable {h : Heap}

/-- What is bound is put into slots, and the extra arguments into a tuple and a dict. -/
theorem install (hd : h.Discreet) {b : Bound} (hb : b.Visible) :
    (b.install h).2.Discreet ∧ ∀ v, some v ∈ (b.install h).1 → v.Visible := by
  unfold Bound.install
  split
  · exact ⟨hd, hb.slots⟩
  · rename_i i entries hextra
    have hentries := hb.extra i entries hextra
    refine ⟨hd.newDict fun e he => ?_, fun v hv => ?_⟩
    · obtain ⟨x, hx, rfl⟩ := List.mem_map.1 (List.mem_toArray.1 he)
      exact ⟨trivial, hentries x hx⟩
    · rcases Array.mem_or_eq_of_mem_setIfInBounds hv with hv | hv
      · exact hb.slots v hv
      · cases hv
        trivial

/-- Boxing puts what locals have into cells, each once, and leaves the other locals. -/
theorem boxCells {cells : List UInt32} (hnodup : cells.Nodup) {h h' : Heap} (hd : h.Discreet)
    {locals locals' : Array (Option Value)}
    (hlocals : ∀ i ∈ cells, ∀ v, locals[i.toNat]? = some (some v) → v.Visible)
    (hb : h.boxCells locals cells = .ok (locals', h')) :
    h'.Discreet ∧ ∀ j : Nat, (∀ c ∈ cells, c.toNat ≠ j) → locals'[j]? = locals[j]? := by
  -- on the slots to be boxed, each of which holds a visible value until it is
  induction cells generalizing h locals with
  | nil =>
    cases hb
    exact ⟨hd, fun _ _ => rfl⟩
  | cons i cells ih =>
    obtain ⟨hi, hnodup⟩ := List.nodup_cons.1 hnodup
    obtain ⟨hvisible, hlocals⟩ := List.forall_mem_cons.1 hlocals
    unfold Heap.boxCells at hb
    split at hb
    · cases hb
    · rename_i v hv
      have hcell : (h.newCell v).2.Discreet := hd.newCell fun w hw => hvisible w (by rw [hv, hw])
      have hrest : ∀ c ∈ cells, ∀ w, (locals.setIfInBounds i.toNat
          (some (h.newCell v).1))[c.toNat]? = some (some w) → w.Visible := by
        intro c hc w hw
        have hne : i.toNat ≠ c.toNat := fun he => hi (UInt32.toNat_inj.1 he ▸ hc)
        rw [Array.getElem?_setIfInBounds_ne hne] at hw
        exact hlocals c hc w hw
      obtain ⟨hd', hsame⟩ := ih hnodup hcell hrest hb
      refine ⟨hd', fun j hj => ?_⟩
      obtain ⟨hij, hj⟩ := List.forall_mem_cons.1 hj
      rw [hsame j hj, Array.getElem?_setIfInBounds_ne hij]

/-- Freezing marks an object, and leaves what is in it. -/
theorem freezeNode (hd : h.Discreet) (n : Node) : (h.freezeNode n).Discreet := by
  cases n with
  | list r => exact hd.modifyList r fun _ hl => hl
  | dict r => exact hd.modifyDict r fun _ hl => hl
  | cell r => exact hd.modifyCell r fun _ hl => hl
  | func r => exact hd
  | builtin r => exact hd

theorem freeze (hd : h.Discreet) (v : Value) : (h.freeze v).Discreet :=
  Heap.rel_freeze (K := fun h h' => h.Discreet → h'.Discreet) (fun _ => id)
    (fun h1 h2 hd => h2 (h1 hd)) (fun _ n hd => hd.freezeNode n) h v hd

theorem freezeModule (hd : h.Discreet) (r : ModuleRef) : (h.freezeModule r).Discreet :=
  Heap.rel_freezeModule (K := fun h h' => h.Discreet → h'.Discreet) (fun _ => id)
    (fun h1 h2 hd => h2 (h1 hd)) (fun _ n hd => hd.freezeNode n) h r hd

/-- Closing iterators changes counts only. -/
theorem closeFrame (hd : h.Discreet) (frame : Frame) : (h.closeFrame frame).Discreet := by
  rw [Heap.closeFrame_eq]
  generalize frame.iters = its
  induction its generalizing h with
  | nil => exact hd
  | cons it its ih => exact ih (hd.closeIter it)

/-- What a module exports are its globals. -/
theorem moduleGlobals (hd : h.Discreet) (r : ModuleRef) : (h.moduleGlobals r).Visible := by
  refine Env.visible_ofPairs fun b hb => ?_
  obtain ⟨⟨decl, v⟩, hmem, hv⟩ := List.mem_filterMap.1 hb
  obtain ⟨w, rfl, rfl⟩ := Option.map_eq_some_iff.1 hv
  exact hd.global r w (Array.mem_toList_iff.1 (List.of_mem_zip hmem).2)

end Heap.Discreet

/-! ## Programs -/

/-- 32 bits hold the indices of all entries of the tables and of all locals. -/
structure Program.Indexable (p : Program) : Prop extends p.Addressable where
  locals : ∀ id code, p.code? id = some code → code.locals.size ≤ 2 ^ 32

/-- The bounds on all functions, checked for the toplevel and the others. -/
theorem Program.indexable_of_sizes {p : Program} (h : p.names.size ≤ 2 ^ 32 ∧
    p.constants.size ≤ 2 ^ 32 ∧ p.functions.size ≤ 2 ^ 32 ∧ p.toplevel.locals.size ≤ 2 ^ 32 ∧
    ∀ code ∈ p.functions, code.locals.size ≤ 2 ^ 32) : p.Indexable := by
  obtain ⟨hnames, hconstants, hfunctions, htoplevel, hnested⟩ := h
  refine ⟨⟨hnames, hconstants, hfunctions⟩, fun id code hc => ?_⟩
  cases id with
  | toplevel =>
    cases hc
    exact htoplevel
  | nested i => exact hnested code (Array.mem_of_getElem? hc)

/-- The program of a resolved file. -/
def Program.Sourced (p : Program) : Prop :=
  ∃ (f : SourceFile) (predeclared : String → Prop), f.WellResolved predeclared ∧
    f.compile = .ok p ∧ p.Indexable

namespace Program.Sourced

variable {p : Program}

/-- A sourced program has a typing, which is that of the file it comes from. -/
theorem typed (hp : p.Sourced) : ∃ predeclared, Nonempty (TypedProgram p predeclared) := by
  obtain ⟨f, predeclared, hf, hcompile, hsize⟩ := hp
  exact ⟨predeclared, f.typedProgram_of_compile hf hcompile hsize.toAddressable⟩

theorem indexable (hp : p.Sourced) : p.Indexable := by
  obtain ⟨f, predeclared, -, -, hsize⟩ := hp
  exact hsize

/-- The names that a program takes to be predeclared. -/
noncomputable def names (hp : p.Sourced) : String → Prop := hp.typed.choose

/-- The types of a program. -/
noncomputable def types (hp : p.Sourced) : TypedProgram p hp.names := hp.typed.choose_spec.some

end Program.Sourced

/-- The program of two functions is one of a resolved file. -/
theorem sourced_pairs : ∃ p, pairsFile.compile = .ok p ∧ p.Sourced := by
  have hcheck : pairsFile.compile.toOption.any (fun p => decide (p.names.size ≤ 2 ^ 32 ∧
      p.constants.size ≤ 2 ^ 32 ∧ p.functions.size ≤ 2 ^ 32 ∧ p.toplevel.locals.size ≤ 2 ^ 32 ∧
      ∀ code ∈ p.functions, code.locals.size ≤ 2 ^ 32)) = true := by
    decide +kernel
  obtain ⟨p, hp, hq⟩ := exists_ok_of_any hcheck
  obtain ⟨hnames, hconstants, hfunctions, htoplevel, hnested⟩ := of_decide_eq_true hq
  refine ⟨p, hp, pairsFile, fun _ => False, wellResolved_pairsFile _, hp,
    ⟨hnames, hconstants, hfunctions⟩, fun id code hc => ?_⟩
  cases id with
  | toplevel =>
    cases hc
    exact htoplevel
  | nested i => exact hnested code (Array.mem_of_getElem? hc)

/-- Something holds for the typed code of a function. -/
def Heap.Runs (h : Heap) (f : FuncObj)
    (P : ∀ {p : Program} {predeclared : String → Prop} {code : Code},
      TypedCode p predeclared code → Prop) : Prop :=
  ∀ p (hp : p.Sourced), h.programOf f = p → ∀ code (hc : p.code? f.code = some code),
    P (hp.types.typed code ⟨_, hc⟩)

/-- What is proved of typed code holds of the code that a function runs. -/
theorem Heap.Runs.of_typed {h : Heap} {f : FuncObj}
    {P : ∀ {p : Program} {predeclared : String → Prop} {code : Code},
      TypedCode p predeclared code → Prop}
    {p : Program} (hp : p.Sourced) (hpo : h.programOf f = p) {code : Code}
    (hc : p.code? f.code = some code) (hP : P (hp.types.typed code ⟨_, hc⟩)) : h.Runs f P := by
  intro p' hp' hpo' code' hc'
  obtain rfl : p = p' := hpo.symm.trans hpo'
  obtain rfl : code = code' := Option.some.inj (hc.symm.trans hc')
  exact hP

/-- A heap whose programs come from resolved files, in which nothing can be found that scripts may
not see. -/
structure Heap.Trusted (h : Heap) : Prop where
  discreet : h.Discreet
  programs : ∀ p ∈ h.programs, p.Sourced
  sound : ∀ p, p.Sourced → h.Sound p

namespace Heap.Trusted

variable {h : Heap}

theorem housed (ht : h.Trusted) : h.Housed := by
  obtain ⟨p, -, hp⟩ := sourced_pairs
  exact (ht.sound p hp).module_lt

/-- The program of every function is in the heap. -/
theorem program_lt (ht : h.Trusted) {f : FuncObj} (hf : f ∈ h.funcs) :
    (h.module f.module).program.index < h.programs.size := by
  obtain ⟨p, -, hp⟩ := sourced_pairs
  exact (ht.sound p hp).program_lt f.module (ht.housed f hf)

/-- Every function of a trusted heap has a sourced program. -/
theorem sourced (ht : h.Trusted) {f : FuncObj} (hf : f ∈ h.funcs) : (h.programOf f).Sourced := by
  have hlt := ht.program_lt hf
  refine ht.programs _ ?_
  rw [Heap.programOf, Heap.program, Array.getD_eq_getD_getElem?, Array.getElem?_eq_getElem hlt]
  exact Array.getElem_mem hlt

/-- The code of a function of a trusted heap. -/
theorem code (ht : h.Trusted) {f : FuncObj} (hf : f ∈ h.funcs) :
    (h.programOf f).Sourced ∧ (h.programOf f).code? f.code = some (h.codeOf f) := by
  have hp := ht.sourced hf
  obtain ⟨code, hc, -⟩ := (ht.sound _ hp).made f hf rfl
  refine ⟨hp, ?_⟩
  rw [Heap.codeOf, hc]
  rfl

end Heap.Trusted

/-! ## Hosts -/

namespace Operation

/-- Scripts may see all values that an operation is given. -/
def Visible : Operation → Prop
  | .newList elems => ∀ v ∈ elems, v.Visible
  | .newDict => True
  | .newBuiltin _ receiver => ∀ v ∈ receiver, v.Visible
  | .append _ v => v.Visible
  | .extend _ iterable => iterable.Visible
  | .setIndex x y z => x.Visible ∧ y.Visible ∧ z.Visible
  | .insert _ k v => k.Visible ∧ v.Visible
  | .update _ _ => True
  | .inplaceAdd x y | .inplacePipe x y | .binary _ x y => x.Visible ∧ y.Visible
  | .slice x lo hi step => x.Visible ∧ lo.Visible ∧ hi.Visible ∧ step.Visible
  | .attr x _ | .setField x _ => x.Visible
  | .standard _ args kwargs => (∀ v ∈ args, v.Visible) ∧ Env.Visible kwargs

/-- Nor does what an operation gives have a part of a function in it. -/
theorem discreet_run {o : Operation} (ho : o.Visible) : Op.Discreet Value.Visible o.run := by
  have hnull : ∀ {m : Op Unit}, Op.Discreet (fun _ => True) m →
      Op.Discreet Value.Visible (do m; return Value.null) := fun hm => hm.bind fun _ _ =>
          .pure trivial
  -- an operation puts into the heap what it was given, all of which is visible
  cases o with
  | newList elems => exact .newList fun _ _ v hv => ho v (List.mem_toArray.1 hv)
  | newDict =>
    refine Op.Discreet.bind (Q := fun _ => True)
      (.make fun h hd => ⟨hd.newDict fun e he => ?_, trivial⟩) fun _ _ => .pure trivial
    exact absurd he (Array.not_mem_empty e)
  | newBuiltin op receiver => exact .make fun h hd => ⟨hd.newBuiltin op ho, trivial⟩
  | append r v => exact hnull (Op.discreet_append r ho)
  | extend r iterable => exact hnull (Op.discreet_extend r ho)
  | setIndex x y z => exact hnull (Op.discreet_setIndex x ho.2.1 ho.2.2)
  | insert r k v => exact (Op.discreet_insert r ho.1 ho.2).bind fun _ _ => .pure trivial
  | update r other => exact hnull (Op.discreet_update r other)
  | inplaceAdd x y => exact Op.discreet_inplaceAdd ho.1 ho.2
  | inplacePipe x y => exact Op.discreet_inplacePipe x y
  | binary op x y => exact Op.discreet_binary op ho.1 ho.2
  | slice x lo hi step => exact Op.discreet_slice ho.1 lo hi step
  | attr x name => exact Op.discreet_getAttr ho name
  | setField x name => exact hnull (.throw _)
  | standard b args kwargs => exact Op.discreet_callStandard b ho.1 ho.2

/-- A visible operation leaves a discreet heap, whether it succeeds or fails. -/
theorem discreet_after {o : Operation} (ho : o.Visible) {h : Heap} (hd : h.Discreet) :
    (o.after h).Discreet := by
  unfold after
  split
  · rename_i he
    exact ((discreet_run ho).ok hd he).1
  · rename_i he
    exact (discreet_run ho).error hd he

end Operation

namespace HostAct

/-- An act brings in programs of resolved files only and values that scripts may see, and makes no
cells and only toplevel functions. -/
def Visible : HostAct → Prop
  | .operate o => o.Visible
  | .newCell _ => False
  | .setCell _ v | .openIter v => v.Visible
  | .newProgram p => p.Sourced
  | .newModule _ predeclared => predeclared.Visible
  | .newFunc f => f.code = .toplevel ∧ f.defaults = #[] ∧ f.freeVars = #[]
  | .freeze _ | .freezeModule _ | .advance _ | .close _ => True

/-- A visible act makes functions of sourced programs only. -/
theorem Visible.isSober {a : HostAct} (ha : a.Visible) : a.IsSober := by
  cases a with
  | newFunc f => exact ha
  | _ => trivial

namespace Performs

variable {a : HostAct} {h h' : Heap} {held held' : List Iter}

/-- A visible act of a host leaves a discreet heap. -/
theorem discreet (hp : a.Performs (h, held) (h', held')) (ha : a.Visible) (hd : h.Discreet) :
    h'.Discreet := by
  -- a careful host makes no cell of its own, and no function with captured ones
  cases hp with
  | idle => exact hd
  | operate o => exact Operation.discreet_after ha hd
  | freeze v => exact hd.freeze v
  | freezeModule r => exact hd.freezeModule r
  | newCell content => exact ha.elim
  | setCell r v => exact hd.setCell r ha
  | newProgram p =>
    exact ⟨hd.lists, hd.dicts, hd.cells, hd.funcs, hd.builtins, hd.predeclared, hd.globals⟩
  | newModule predeclared => exact hd.newModule _ ha
  | @newFunc f =>
    refine hd.newFunc fun v hv => ?_
    rw [ha.2.1] at hv
    exact absurd hv (Array.not_mem_empty v)
  | @openIter v _ _ _ _ ho =>
    have hopen := (hd.openIter (v := v) ha).1
    rw [ho] at hopen
    exact hopen
  | advance => exact hd
  | close => exact hd.closeIter _

/-- The iterators that a host holds show visible values only. -/
theorem visible (hp : a.Performs (h, held) (h', held')) (ha : a.Visible) (hd : h.Discreet)
    (hheld : ∀ it ∈ held, it.Visible) : ∀ it ∈ held', it.Visible := by
  cases hp with
  | @openIter v _ _ _ it ho =>
    refine List.forall_mem_cons.2 ⟨?_, hheld⟩
    exact (hd.openIter (v := v) ha).2 it (by rw [ho])
  | @advance _ before after it it' x hn =>
    obtain ⟨hbefore, hrest⟩ := List.forall_mem_append.1 hheld
    obtain ⟨hit, hafter⟩ := List.forall_mem_cons.1 hrest
    exact List.forall_mem_append.2
      ⟨hbefore, List.forall_mem_cons.2 ⟨(hd.nextElem? hit hn).2, hafter⟩⟩
  | close before after it =>
    obtain ⟨hbefore, hrest⟩ := List.forall_mem_append.1 hheld
    exact List.forall_mem_append.2 ⟨hbefore, (List.forall_mem_cons.1 hrest).2⟩
  | _ => exact hheld

/-- A visible act of a host adds only sourced programs. -/
theorem sourced (hp : a.Performs (h, held) (h', held')) (ha : a.Visible)
    (hs : ∀ p ∈ h.programs, p.Sourced) : ∀ p ∈ h'.programs, p.Sourced := by
  have hkept : h.Grows (fun _ => False) h' → ∀ p ∈ h'.programs, p.Sourced :=
    fun hg => hg.programs ▸ hs
  cases hp with
  | operate o => exact hkept (Heap.Tolerant.evolves (o.evolves_after h))
  | freeze v => exact hkept (.freeze h v)
  | freezeModule r => exact hkept (.freezeModule h r)
  | newProgram p => exact forall_mem_push hs ha
  | openIter _ ho => exact hkept (.openIter ho)
  | close => exact hkept (.closeIter h _)
  | _ => exact hs

end Performs

/-- Scripts may see what comes of an act. -/
theorem visible_of_ok {a : HostAct} (ha : a.Visible) {h : Heap} (hd : h.Discreet) {held : List Iter}
    (hheld : ∀ it ∈ held, it.Visible) {v : Value} {s : Holding}
    (hrun : a.perform (h, held) = .ok v s) :
    v.Visible := by
  -- what an act returns is a value it was given, one it found in the heap, or none
  cases a with
  | operate o =>
    simp only [perform] at hrun
    split at hrun
    · rename_i ho
      cases hrun
      exact ((Operation.discreet_run ha).ok hd ho).2
    · cases hrun
  | newCell content => exact ha.elim
  | newModule p predeclared =>
    simp only [perform] at hrun
    split at hrun
    · cases hrun
      trivial
    · cases hrun
      trivial
  | newFunc f =>
    simp only [perform] at hrun
    split at hrun
    · cases hrun
      trivial
    · cases hrun
      trivial
  | openIter v =>
    simp only [perform] at hrun
    split at hrun
    · cases hrun
      trivial
    · cases hrun
      trivial
  | advance i =>
    simp only [perform] at hrun
    split at hrun
    · cases hrun
      trivial
    · rename_i it hi
      split at hrun
      · rename_i x it' hn
        cases hrun
        have hx := (hd.nextElem? (hheld it (List.mem_of_getElem? hi)) hn).1
        exact Value.visible_tuple.2 (List.forall_mem_singleton.2 hx)
      · cases hrun
        exact Value.visible_tuple.2 fun x hx => absurd hx List.not_mem_nil
  | close i =>
    simp only [perform] at hrun
    split at hrun
    · cases hrun
      trivial
    · cases hrun
      trivial
  | freeze v | freezeModule r | setCell r v | newProgram p =>
    cases hrun
    trivial

end HostAct

/-- Scripts may see the modules that a source gives, and what is predeclared in them. -/
def ModuleSource.Visible : ModuleSource → Prop
  | .members env | .program _ env => env.Visible
  | .failure _ => True

/-- Scripts may see the modules that a host lends a thread. -/
def Steering.Visible : Steering → Prop
  | .setLoader loader => ∀ s ∈ loader.getD [], s.2.Visible
  | _ => True

/-- Scripts may see all that a function of the host brings in. -/
def HostMove.Visible : HostMove → Prop
  | .act a => a.Visible
  | .steer s => s.Visible
  | .call f args kwargs => f.Visible ∧ (∀ v ∈ args, v.Visible) ∧ Env.Visible kwargs
  | .finish r => ∀ v, r = .ok v → v.Visible

/-- Scripts may see all that a function of the host is given and holds. -/
structure HostRun.Visible (run : HostRun) : Prop where
  args : ∀ v ∈ run.args, v.Visible
  kwargs : Env.Visible run.kwargs
  held : ∀ it ∈ run.held, it.Visible
  log : ∀ v, .ok v ∈ run.log → v.Visible

namespace HostRun.Visible

/-- A function of the host starts with its arguments. -/
theorem start {args : List Value} (hargs : ∀ v ∈ args, v.Visible) {kwargs : Keywords}
    (hkwargs : Env.Visible kwargs) : Visible { args, kwargs } :=
  ⟨hargs, hkwargs, fun _ hit => absurd hit List.not_mem_nil, fun _ hv => absurd hv List.not_mem_nil⟩

/-- A visible outcome may be noted. -/
theorem note {run : HostRun} (hrun : run.Visible) {r : Except Error Value}
    (hr : ∀ v, r = .ok v → v.Visible) : (run.note r).Visible := by
  refine ⟨hrun.args, hrun.kwargs, hrun.held, fun v hv => ?_⟩
  rcases List.mem_cons.1 hv with hv | hv
  · exact hr v hv.symm
  · exact hrun.log v hv

/-- Iterators over visible values may be held. -/
theorem hold {run : HostRun} (hrun : run.Visible) {held : List Iter}
    (hheld : ∀ it ∈ held, it.Visible) :
    Visible { run with held } :=
  ⟨hrun.args, hrun.kwargs, hheld, hrun.log⟩

end HostRun.Visible

/-- Scripts may see all that a function of the host can find. -/
structure HostView.Visible (v : HostView) : Prop where
  heap : v.heap.Discreet
  receiver : ∀ x ∈ v.receiver, x.Visible
  args : ∀ x ∈ v.args, x.Visible
  kwargs : Env.Visible v.kwargs
  held : ∀ it ∈ v.held, it.Visible
  log : ∀ x, .ok x ∈ v.log → x.Visible

/-- A function of the host brings in only what scripts may see as long as it finds nothing else. -/
def HostCode.IsCareful (code : HostCode) : Prop := ∀ v, v.Visible → (code v).Visible

/-- The functions of the small host are careful. -/
theorem HostCode.isCareful_ofLibrary (i : Nat) : (ofLibrary i).IsCareful := by
  intro v hv
  have hsmall := isSmall_ofLibrary i v
  generalize ofLibrary i v = move at hsmall ⊢
  cases hsmall with
  | cancels | freezes => trivial
  | calls _ hargs =>
    obtain ⟨hf, hrest⟩ := List.forall_mem_cons.1 (hargs ▸ hv.args)
    exact ⟨hf, hrest, hv.kwargs⟩
  | gives hx =>
    rintro _ ⟨⟩
    exact hx
  | fails => exact nofun
  | handsOn hr =>
    rintro x rfl
    exact hv.log x hr
  | @catches r hr =>
    cases r with
    | ok x =>
      rintro _ ⟨⟩
      simp [hv.log x hr]
    | error e =>
      rintro _ ⟨⟩
      simp

/-- Scripts may see the modules that a thread lends them. -/
def Thread.Discreet (t : Thread) : Prop :=
  ∀ name source, t.source? name = .ok source → source.Visible

/-- What a thread has of its host: scripts may see the modules, the functions are careful, and those
that they make are toplevel functions. -/
structure Thread.IsCareful (t : Thread) : Prop where
  discreet : t.Discreet
  careful : ∀ i, (t.host i).IsCareful
  sober : t.KeepsTo HostAct.IsSober

namespace Thread

theorem discreet_of_loader {t : Thread} (ht : ∀ s ∈ t.loader.getD [], s.2.Visible) :
    t.Discreet := by
  intro name source hsource
  unfold source? at hsource
  cases hloader : t.loader with
  | none =>
    rw [hloader] at hsource
    cases hsource
  | some sources =>
    rw [hloader] at hsource ht
    dsimp only at hsource
    split at hsource
    · rename_i s hfound
      cases hsource
      exact ht s (List.mem_of_find?_eq_some hfound)
    · cases hsource

theorem Discreet.of_loader {t t' : Thread} (ht : t.Discreet) (hl : t'.loader = t.loader) :
    t'.Discreet := by
  intro name source hsource
  rw [source?, hl] at hsource
  exact ht name source hsource

/-- A careful host moves visibly if it sees a discreet heap and a visible run. -/
theorem IsCareful.move {t : Thread} (ht : t.IsCareful) {h : Heap} (hd : h.Discreet)
    (stack : CallStack)
    (r : BuiltinRef) {run : HostRun} (hrun : run.Visible) :
    (t.move h stack (h.builtin r) run).Visible := by
  unfold Thread.move
  split
  · rename_i code _
    exact ht.careful code _ ⟨hd, hd.builtin r, hrun.args, hrun.kwargs, hrun.held, hrun.log⟩
  · rintro _ ⟨⟩
    trivial

end Thread

/-! ## Machines -/

/-- Scripts may see what a call is made with and what it gives. -/
def Control.Visible : Control → Prop
  | .invoke f args kwargs => f.Visible ∧ (∀ v ∈ args, v.Visible) ∧ Env.Visible kwargs
  | .deliver r | .finished r => ∀ v, r = .ok v → v.Visible
  | .exec | .host | .aborted _ => True

/-- A call keeps parts of functions to its stack and to its cells; a function of the host has
none. -/
def Frame.Discreet (h : Heap) : Frame → Prop
  | .func a _ => a.func ∈ h.funcs ∧ a.Discreet (h.codeOf a.func)
  | .builtin _ run => run.Visible

/-- The number of values that what a function waits for replaces. -/
def Pending.count : Pending → Nat
  | .call => 0
  | .load _ n _ => n

/-- A call can go on once values are there that scripts may see. -/
def Frame.Waits (h : Heap) : Frame → Prop
  | .func a pending => h.Runs a.func fun t => t.Awaits a pending
  | .builtin _ _ => True

/-- The active calls stand where the types of their code allow what is on their stacks. -/
def Heap.Seats (h : Heap) : Control → List Frame → Prop
  | .exec, .func a _ :: callers =>
    (h.Runs a.func fun t => t.Expects a.next a.stack) ∧ ∀ frame ∈ callers, frame.Waits h
  | .invoke _ _ _, frames | .deliver _, frames | .host, frames => ∀ frame ∈ frames, frame.Waits h
  | _, _ => True

/-- Nothing that scripts can get at has a part of a function in it. The code of functions is looked
up in the given heap. -/
structure Machine.Veiled (h : Heap) (m : Machine) : Prop where
  heap : m.heap.Discreet
  control : m.control.Visible
  frames : ∀ frame ∈ m.frames, frame.Discreet h
  seats : h.Seats m.control m.frames

namespace Machine

variable {h heap : Heap} {thread : Thread} {callers frames : List Frame} {frame : Frame}
  {a b : Activation}

/-- If the innermost function goes on, above the given calls, its operand stack has a property. -/
def Resumes (callers : List Frame) (P : List Value → Prop) (m : Machine) : Prop :=
  ∀ b pending, m.frames = .func b pending :: callers → (∀ x, m.control ≠ .aborted x) → P b.stack

/-- Where no more calls are active than the callers, nothing goes on above them. -/
theorem Resumes.of_length_le {P : List Value → Prop} {m : Machine}
    (hm : m.frames.length ≤ callers.length) : m.Resumes callers P := by
  intro b pending hb
  rw [hb, List.length_cons] at hm
  omega

/-- Where the callers are the active calls, nothing goes on above them. -/
theorem Resumes.of_frames {P : List Value → Prop} {m : Machine} (hm : m.frames = callers) :
    m.Resumes callers P :=
  .of_length_le (hm ▸ Nat.le_refl _)

/-- A call that stops does not go on. -/
theorem resumes_stop {P : List Value → Prop} (e : Stop) :
    (stop heap thread (frame :: callers) e).Resumes callers P := by
  cases e with
  | error e => exact .of_frames rfl
  | abort x => exact fun b pending _ hx => absurd rfl (hx x)

/-- The heap and the given calls keep parts of functions to themselves, and the calls can go on once
what they wait for is there. -/
structure Reserved (h heap : Heap) (callers : List Frame) : Prop where
  discreet : heap.Discreet
  frames : ∀ frame ∈ callers, frame.Discreet h
  waits : ∀ frame ∈ callers, frame.Waits h

/-- What is reserved stays so in every discreet heap. -/
theorem Reserved.onto (hr : Reserved h heap callers) {heap' : Heap} (hd : heap'.Discreet) :
    Reserved h heap' callers :=
  ⟨hd, hr.frames, hr.waits⟩

/-! ### Leaving a call -/

section Leaving

variable (hr : Reserved h heap callers)

include hr

/-- A call that is left with a visible value is veiled. -/
theorem veiled_leave {v : Value} (hv : v.Visible) :
    (leave heap thread (frame :: callers) v).Veiled h :=
  ⟨hr.discreet.closeFrame frame, fun _ hw => Except.ok.inj hw ▸ hv, hr.frames, hr.waits⟩

/-- A call that fails hands over an error, which shows nothing. -/
theorem veiled_fail (e : Error) : (fail heap thread (frame :: callers) e).Veiled h :=
  ⟨hr.discreet.closeFrame frame, nofun, hr.frames, hr.waits⟩

/-- A call that stops hands over an error, or ends everything. -/
theorem veiled_stop (hframe : frame.Discreet h) (e : Stop) :
    (stop heap thread (frame :: callers) e).Veiled h := by
  cases e with
  | error e => exact veiled_fail hr e
  | abort x => exact ⟨hr.discreet, trivial, List.forall_mem_cons.2 ⟨hframe, hr.frames⟩, trivial⟩

end Leaving

/-! ### Entering a call -/

/-- A function is entered with visible arguments, in a discreet heap. -/
theorem Enters.veiled {f : FuncObj} {args : List Value} {kwargs : Keywords} {m : Machine}
    (henters : Enters h thread callers f args kwargs m) (ht : h.Trusted) (hr : Reserved h h callers)
    (hf : f ∈ h.funcs) (hargs : ∀ v ∈ args, v.Visible) (hkwargs : Env.Visible kwargs) :
    m.Veiled h := by
  -- a function that has just been entered has nothing on its stack
  have hstarted : ∀ locals : Array (Option Value),
      (∀ i v, (∀ c ∈ (h.codeOf f).cells, c.toNat ≠ i) → locals[i]? = some (some v) → v.Visible) →
      Frame.Discreet h (.func { func := f, locals } .call) := fun locals hlocals =>
    ⟨hf, hlocals, fun v hv => absurd hv List.not_mem_nil, fun it hit => absurd hit List.not_mem_nil⟩
  have hunstarted := hstarted #[] fun i v _ hv => by cases hv
  have hbound : ∀ {b : Bound}, binding h f args kwargs = .ok () b → b.Visible := by
    intro b hbind
    exact (BindM.keeps_bindArguments Bound.invariant_visible _ (ht.discreet.funcs f hf) hargs
      (fun n => Value.visible_tuple.2 fun v hv => hargs v (List.mem_of_mem_drop hv)) hkwargs _
      (Bound.visible_empty _) _ _ hbind).1
  cases henters with
  | recurs => exact veiled_fail hr _
  | unbound => exact veiled_stop hr hunstarted _
  | unboxed _ hbind =>
    obtain ⟨hinstall, -⟩ := ht.discreet.install (hbound hbind)
    exact ⟨hinstall, trivial, List.forall_mem_cons.2 ⟨hunstarted, hr.frames⟩, trivial⟩
  | @starts b locals heap' _ hbind hbox =>
    obtain ⟨hinstall, hslots⟩ := ht.discreet.install (hbound hbind)
    obtain ⟨hp, hc⟩ := ht.code hf
    let t := hp.types.typed _ ⟨_, hc⟩
    obtain ⟨hnodup, -⟩ := t.lowers.covers.cells_only (hp.indexable.locals _ _ hc)
    obtain ⟨hd, hsame⟩ := hinstall.boxCells hnodup
      (fun i _ v hv => hslots v (Array.mem_of_getElem? hv)) hbox
    obtain ⟨e, hle, hat⟩ := t.at_start
    refine ⟨hd, trivial, List.forall_mem_cons.2 ⟨hstarted locals fun i v hi hv => ?_, hr.frames⟩,
      .of_typed hp rfl hc ⟨e, hat, hle.admits .nil⟩, hr.waits⟩
    -- boxing changes the captured slots alone; the others hold what was bound
    rw [hsame i hi] at hv
    exact hslots v (Array.mem_of_getElem? hv)

/-- A function is entered with nothing on its stack. -/
theorem Enters.resumes {f : FuncObj} {args : List Value} {kwargs : Keywords} {m : Machine}
    (henters : Enters h thread callers f args kwargs m) : m.Resumes callers (· = []) := by
  cases henters with
  | recurs => exact .of_frames rfl
  | unbound => exact resumes_stop _
  | unboxed | starts =>
    rintro b pending ⟨⟩ -
    rfl

/-- A builtin is run on visible arguments. -/
theorem Runs.veiled {r : BuiltinRef} {args : List Value} {kwargs : Keywords} {m : Machine}
    (hruns : Runs h thread callers r args kwargs m) (hr : Reserved h h callers)
    (hargs : ∀ v ∈ args, v.Visible) (hkwargs : Env.Visible kwargs) : m.Veiled h := by
  have hself : Frame.Discreet h (builtinFrame r args kwargs) := .start hargs hkwargs
  have hstandard := Op.discreet_callStandard (h.builtin r) hargs hkwargs
  cases hruns with
  | prints => exact veiled_leave hr trivial
  | fails => exact veiled_fail hr _
  | waits =>
    exact ⟨hr.discreet, trivial, List.forall_mem_cons.2 ⟨hself, hr.frames⟩,
      List.forall_mem_cons.2 ⟨trivial, hr.waits⟩⟩
  | returns hrun =>
    obtain ⟨hd, hv⟩ := hstandard.ok hr.discreet hrun
    exact veiled_leave (hr.onto hd) hv
  | stops hrun => exact veiled_stop (hr.onto (hstandard.error hr.discreet hrun)) hself _

/-- A builtin enters no function. -/
theorem Runs.resumes {P : List Value → Prop} {r : BuiltinRef} {args : List Value}
    {kwargs : Keywords}
    {m : Machine} (hruns : Runs h thread callers r args kwargs m) : m.Resumes callers P := by
  cases hruns with
  | prints | fails | returns => exact .of_frames rfl
  | waits => rintro b pending ⟨⟩
  | stops => exact resumes_stop _

/-- A call with visible arguments is veiled, whatever is called. -/
theorem Invokes.veiled {f : Value} {args : List Value} {kwargs : Keywords} {m : Machine}
    (hinvokes : Invokes h thread frames f args kwargs m) (ht : h.Trusted) (hr : Reserved h h frames)
    (hargs : ∀ v ∈ args, v.Visible) (hkwargs : Env.Visible kwargs) : m.Veiled h := by
  cases hinvokes with
  | full | uncallable => exact ⟨hr.discreet, nofun, hr.frames, hr.waits⟩
  | enters _ _ hg henters => exact henters.veiled ht hr (Array.mem_of_getElem? hg) hargs hkwargs
  | runs _ _ hruns => exact hruns.veiled hr hargs hkwargs

/-- A function that a call enters starts with an empty stack. -/
theorem Invokes.resumes {f : Value} {args : List Value} {kwargs : Keywords} {m : Machine}
    (hinvokes : Invokes h thread frames f args kwargs m) : m.Resumes frames (· = []) := by
  cases hinvokes with
  | full | uncallable => exact .of_frames rfl
  | enters _ _ _ henters => exact henters.resumes
  | runs _ _ hruns => exact hruns.resumes

/-! ### Loading -/

/-- Members of a module take the places of their names. -/
theorem discreet_replaceNames {members : Env} (hm : members.Visible) (module : String) (n : Nat)
    (st : List Value) :
    Op.Discreet (fun st' => ∃ vs, st' = vs ++ st.drop n ∧ vs.length = n ∧ ∀ v ∈ vs, v.Visible)
      (Op.replaceNames members module n st) := by
  unfold Op.replaceNames Op.popMany
  split
  · exact fun _ hd => hd
  · rename_i hn
    refine Op.Discreet.bind (.pure rfl) fun r hr => ?_
    subst hr
    refine (Op.discreet_loadMembers hm module _).bind fun vs hvs => .pure ⟨vs.reverse, rfl, ?_, ?_⟩
    · rw [List.length_reverse, hvs.1, List.length_reverse, List.length_take]
      omega
    · exact fun v hv => hvs.2 v (List.mem_reverse.1 hv)

/-- Values that scripts may see are put in place of the top `n` values. -/
def Supplied (n : Nat) (st st' : List Value) : Prop :=
  ∃ vs, st' = vs ++ st.drop n ∧ ∀ v ∈ vs, v.Visible

/-- A load that has ended binds visible members. -/
theorem Binds.veiled {name : String} {count : Nat} {members : Env} {m : Machine}
    (hbinds : Binds heap thread a callers name count members m) (hr : Reserved h heap callers)
    (ha : Frame.Discreet h (.func a .call)) {module : ModuleRef}
    (hawaits : Frame.Waits h (.func a (.load name count module))) (hm : members.Visible) :
    m.Veiled h ∧ m.Resumes callers (Supplied count a.stack) := by
  have hreplace := discreet_replaceNames hm name count a.stack
  cases hbinds with
  | binds hrun =>
    obtain ⟨hd, vs, rfl, hlen, hvs⟩ := hreplace.ok hr.discreet hrun
    constructor
    · refine ⟨hd, trivial, List.forall_mem_cons.2 ⟨⟨ha.1, ha.2.locals, ?_, ha.2.iters⟩, hr.frames⟩,
        fun p hp hpo code hc => hawaits p hp hpo code hc vs hlen hvs, hr.waits⟩
      refine List.forall_mem_append.2 ⟨fun v hv => .inl (.inl (.inl (hvs v hv))), fun v hv => ?_⟩
      exact ha.2.stack v (List.mem_of_mem_drop hv)
    · rintro b pending ⟨⟩ -
      exact ⟨vs, rfl, hvs⟩
  | stops hrun =>
    exact ⟨veiled_stop (hr.onto (hreplace.error hr.discreet hrun)) ha _, resumes_stop _⟩

/-- A load hands over visible members, or runs the program of a module. -/
theorem Loads.veiled {name : String} {count : Nat} {m : Machine}
    (hloads : Loads heap thread a callers name count m) (hr : Reserved h heap callers)
    (hthread : thread.Discreet) (ha : Frame.Discreet h (.func a .call))
    (hawaits : ∀ module, Frame.Waits h (.func a (.load name count module))) :
    m.Veiled h ∧ m.Resumes callers fun st => st = a.stack ∨ Supplied count a.stack st := by
  cases hloads with
  | unavailable | failure => exact ⟨veiled_fail hr _, .of_frames rfl⟩
  | members hsource hbinds =>
    obtain ⟨hveiled, hresumes⟩ := hbinds.veiled hr ha (hawaits ⟨0⟩) (hthread name _ hsource)
    exact ⟨hveiled, fun b pending hb hx => .inr (hresumes b pending hb hx)⟩
  | @program q env hsource =>
    have hmodule := hr.discreet.newModule q (hthread name _ hsource)
    constructor
    · refine ⟨hmodule.newFunc fun v hv => absurd hv (Array.not_mem_empty v), ⟨trivial, ?_, ?_⟩,
        List.forall_mem_cons.2 ⟨ha, hr.frames⟩, List.forall_mem_cons.2 ⟨hawaits _, hr.waits⟩⟩
      · exact fun v hv => absurd hv List.not_mem_nil
      · exact fun b hb => absurd hb List.not_mem_nil
    · rintro b pending ⟨⟩ -
      exact .inl rfl

/-! ### Steps -/

/-- The innermost frame, and what is below it. -/
theorem Reserved.uncons (hr : Reserved h heap (frame :: callers)) :
    frame.Discreet h ∧ frame.Waits h ∧ Reserved h heap callers := by
  obtain ⟨hframe, hframes⟩ := List.forall_mem_cons.1 hr.frames
  obtain ⟨hwait, hwaits⟩ := List.forall_mem_cons.1 hr.waits
  exact ⟨hframe, hwait, hr.discreet, hframes, hwaits⟩

/-- What is handed to a function that waits is put on its stack. -/
theorem Delivers.resumes {r : Except Error Value} {m : Machine} {pending : Pending}
    (hdelivers : Delivers h thread (.func a pending :: callers) r m)
    (hr : Reserved h h (.func a pending :: callers)) (hv : ∀ v, r = .ok v → v.Visible) :
    m.Resumes callers (Supplied pending.count a.stack) := by
  obtain ⟨hframe, hwait, hbelow⟩ := hr.uncons
  cases hdelivers with
  | @pushes _ _ v =>
    rintro b pending ⟨⟩ -
    exact ⟨[v], rfl, List.forall_mem_singleton.2 (hv v rfl)⟩
  | fails | unloaded => exact .of_frames rfl
  | @loaded _ _ _ _ module _ _ hbinds =>
    have hfrozen := hr.discreet.freezeModule module
    exact (hbinds.veiled (hbelow.onto hfrozen) hframe hwait (hfrozen.moduleGlobals module)).2

/-- A visible outcome is handed over. -/
theorem Delivers.veiled {r : Except Error Value} {m : Machine}
    (hdelivers : Delivers h thread frames r m)
    (hr : Reserved h h frames) (hv : ∀ v, r = .ok v → v.Visible) : m.Veiled h := by
  -- the result is visible, and the frame that takes it was waiting for nothing else
  cases hdelivers with
  | halts => exact ⟨hr.discreet, hv, hr.frames, trivial⟩
  | @pushes a callers v =>
    obtain ⟨hframe, hwait, hbelow⟩ := hr.uncons
    refine ⟨hr.discreet, trivial,
      List.forall_mem_cons.2 ⟨⟨hframe.1, hframe.2.locals, ?_, hframe.2.iters⟩, hbelow.frames⟩,
      fun p hp hpo code hc => hwait p hp hpo code hc v (hv v rfl), hbelow.waits⟩
    exact List.forall_mem_cons.2 ⟨.inl (.inl (.inl (hv v rfl))), hframe.2.stack⟩
  | fails => exact veiled_fail hr.uncons.2.2 _
  | @loaded a callers name count module v _ hbinds =>
    obtain ⟨hframe, hwait, hbelow⟩ := hr.uncons
    have hfrozen := hr.discreet.freezeModule module
    exact (hbinds.veiled (hbelow.onto hfrozen) hframe hwait (hfrozen.moduleGlobals module)).1
  | @unloaded _ _ _ _ module =>
    exact veiled_fail (hr.uncons.2.2.onto (hr.discreet.freezeModule module)) _
  | answers =>
    obtain ⟨hframe, -, hbelow⟩ := hr.uncons
    exact ⟨hr.discreet, trivial,
      List.forall_mem_cons.2 ⟨HostRun.Visible.note hframe hv, hbelow.frames⟩,
      List.forall_mem_cons.2 ⟨trivial, hbelow.waits⟩⟩

/-- The turn of a function of a careful host. -/
theorem Hosts.veiled {r : BuiltinRef} {run : HostRun} {m : Machine}
    (hhosts : Hosts heap thread callers r run m) (hthread : thread.IsCareful)
    (hr : Reserved h heap callers) (hrun : run.Visible) : m.Veiled h := by
  have hmove := hthread.move hr.discreet (heap.callStack (.builtin r run :: callers)) r hrun
  -- but for a call and the end, the frame of the host function stays where it is
  have hstays : ∀ {heap : Heap} {thread : Thread} {run : HostRun}, heap.Discreet → run.Visible →
      Veiled h ⟨heap, thread, .builtin r run :: callers, .host⟩ := fun hd hrun =>
    ⟨hd, trivial, List.forall_mem_cons.2 ⟨hrun, hr.frames⟩, List.forall_mem_cons.2
        ⟨trivial, hr.waits⟩⟩
  cases hhosts with
  | acts hact hdone =>
    rw [hact] at hmove
    have hp := HostAct.performs_of_ok hdone
    have hheld := hrun.hold (hp.visible hmove hr.discreet hrun.held)
    refine hstays (hp.discreet hmove hr.discreet) (hheld.note ?_)
    rintro _ ⟨⟩
    exact HostAct.visible_of_ok hmove hr.discreet hrun.held hdone
  | errs hact hdone =>
    rw [hact] at hmove
    have hp := (HostAct.performs_of_error hdone).1
    have hheld := hrun.hold (hp.visible hmove hr.discreet hrun.held)
    exact hstays (hp.discreet hmove hr.discreet) (hheld.note nofun)
  | aborts hact hdone =>
    rw [hact] at hmove
    have hp := (HostAct.performs_of_error hdone).1
    have hheld := hrun.hold (hp.visible hmove hr.discreet hrun.held)
    exact ⟨hp.discreet hmove hr.discreet, trivial, List.forall_mem_cons.2
        ⟨hheld, hr.frames⟩, trivial⟩
  | steers =>
    refine hstays hr.discreet (hrun.note ?_)
    rintro _ ⟨⟩
    trivial
  | calls hcall =>
    rw [hcall] at hmove
    exact ⟨hr.discreet, hmove, List.forall_mem_cons.2 ⟨hrun, hr.frames⟩,
      List.forall_mem_cons.2 ⟨trivial, hr.waits⟩⟩
  | @finishes o hfinish =>
    rw [hfinish] at hmove
    cases o with
    | ok v => exact veiled_leave hr (hmove v rfl)
    | error e => exact veiled_fail hr e

end Machine

/-- The next instruction of a function of a trusted heap. -/
theorem Heap.Trusted.instruction {h : Heap} (ht : h.Trusted) {a : Activation}
    (hf : a.func ∈ h.funcs) (ha : a.Discreet (h.codeOf a.func))
    (hready : ∀ (p : Program) (hp : p.Sourced), hp.types.Ready h a)
    (hruns : h.Runs a.func fun t => t.Expects a.next a.stack) :
    ∃ f, fetch (h.codeOf a.func).code a.next = .ok f ∧
      (f.op.takes (f.arg.getD 0) ≤ a.stack.length ∧
        (∀ v ∈ a.stack.take (f.op.takes (f.arg.getD 0)), f.op.Accepts v) ∧
        (f.op = .ret → ∀ v ∈ a.stack, v.Visible)) ∧
      Op.Discreet (((ht.code hf).1.types.typed _ ⟨_, (ht.code hf).2⟩).Conceals f.op
        (f.arg.getD 0) a) (Activation.execute (h.tables a.func) f.op (f.arg.getD 0)
          { a with pc := a.next, next := f.next }) := by
  -- the function comes from some compiled program, whose typing says what the instruction finds
  obtain ⟨hp, hc⟩ := ht.code hf
  obtain ⟨hboxes, -⟩ := (hready _ hp).2 rfl _ hc
  obtain ⟨d, hat, hd⟩ := hruns _ hp rfl _ hc
  obtain ⟨f, hfetch, hreads⟩ := hat.reads
  obtain ⟨b, done, i, rest, -, hst⟩ := id hat
  refine ⟨f, hfetch, hreads.accepts hd hst.depth_eq.2.1, ?_⟩
  exact TypedCode.discreet_reads hp.types.addressable (hp.indexable.locals _ _ hc)
    (hp.types.serve (ht.sound _ hp) hf rfl hc) hboxes ha hat hd hreads a.next

namespace Machine

variable {h : Heap} {thread : Thread} {callers : List Frame} {a : Activation}

/-- An instruction of a sourced program keeps what it works on apart. -/
theorem Executes.veiled {m : Machine} (hexecutes : Executes h thread a callers m) (ht : h.Trusted)
    (hthread : thread.Discreet) (hr : Reserved h h callers) (ha : Frame.Discreet h (.func a .call))
    (hready : ∀ (p : Program) (hp : p.Sourced), hp.types.Ready h a)
    (hruns : h.Runs a.func fun t => t.Expects a.next a.stack) :
    m.Veiled h ∧ ∀ f, fetch (h.codeOf a.func).code a.next = .ok f →
      m.Resumes callers (f.op.Leaves (f.arg.getD 0) a.stack) := by
  have hpc : ∀ n, Frame.Discreet h (.func { a with pc := n } .call) := fun n =>
    ⟨ha.1, ha.2.locals, ha.2.stack, ha.2.iters⟩
  have hcode := ht.code ha.1
  obtain ⟨f, hfetch, -, hinsn⟩ := ht.instruction ha.1 ha.2 hready hruns
  -- the instruction that is read is the one that the types speak of
  suffices hboth : m.Veiled h ∧ m.Resumes callers (f.op.Leaves (f.arg.getD 0) a.stack) by
    refine ⟨hboth.1, fun f' hf' => ?_⟩
    obtain rfl : f = f' := Except.ok.inj (hfetch.symm.trans hf')
    exact hboth.2
  have hsame : ∀ {f' : Fetched} {result}, Executed h thread a f' result → f' = f :=
    fun hdone => Except.ok.inj (hdone.fetch.symm.trans hfetch)
  cases hexecutes with
  | cancelled => exact ⟨veiled_fail hr _, .of_frames rfl⟩
  | unread _ hunread => cases hfetch.symm.trans hunread
  | stops hdone =>
    obtain rfl := hsame hdone
    have hd := hinsn.error ht.discreet hdone.result_eq
    exact ⟨veiled_stop (hr.onto hd) (hpc _) _, resumes_stop _⟩
  | proceeds hdone =>
    obtain rfl := hsame hdone
    obtain ⟨hd, hfunc, hdisc, hleaves, hexpects⟩ := hinsn.ok ht.discreet hdone.result_eq
    constructor
    · refine ⟨hd, trivial, List.forall_mem_cons.2 ⟨⟨hfunc ▸ ha.1, hfunc ▸ hdisc⟩, hr.frames⟩,
        ?_, hr.waits⟩
      rw [hfunc]
      exact .of_typed hcode.1 rfl hcode.2 hexpects
    · rintro _ _ ⟨⟩ -
      exact hleaves
  | finishes hdone =>
    obtain rfl := hsame hdone
    obtain ⟨hd, hv⟩ := hinsn.ok ht.discreet hdone.result_eq
    exact ⟨veiled_leave (hr.onto hd) hv, .of_frames rfl⟩
  | calls hdone =>
    obtain rfl := hsame hdone
    obtain ⟨hd, hfunc, hdisc, hleaves, hawaits, hg, hargs, hkwargs⟩ :=
      hinsn.ok ht.discreet hdone.result_eq
    constructor
    · refine ⟨hd, ⟨hg, hargs, hkwargs⟩, List.forall_mem_cons.2
        ⟨⟨hfunc ▸ ha.1, hfunc ▸ hdisc⟩, hr.frames⟩,
        List.forall_mem_cons.2 ⟨?_, hr.waits⟩⟩
      rw [Frame.Waits, hfunc]
      exact .of_typed hcode.1 rfl hcode.2 hawaits
    · rintro _ _ ⟨⟩ -
      exact hleaves
  | loads hdone hloads =>
    obtain rfl := hsame hdone
    obtain ⟨hd, hfunc, hdisc, hleaves, hawaits, hdrop⟩ := hinsn.ok ht.discreet hdone.result_eq
    have hthread' : thread.tick.Discreet := by
      intro name source hsource
      rw [Thread.source?, thread.persists_tick.loader] at hsource
      exact hthread name source hsource
    obtain ⟨hveiled, hresumes⟩ := hloads.veiled (hr.onto hd) hthread' ⟨hfunc ▸ ha.1, hfunc ▸ hdisc⟩
      fun module => by
        rw [Frame.Waits, hfunc]
        exact .of_typed hcode.1 rfl hcode.2 (hawaits module)
    refine ⟨hveiled, fun c pending hc hx => ?_⟩
    -- a module with a program leaves the names on the stack; given members have replaced them
    rcases hresumes c pending hc hx with hst | ⟨vs, hst, hvs⟩
    · rw [hst]
      exact hleaves
    · exact ⟨vs, by rw [hst, hdrop], fun v hv => .inl (hvs v hv)⟩

end Machine

end Starlark
