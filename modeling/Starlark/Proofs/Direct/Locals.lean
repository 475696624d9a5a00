import Starlark.Proofs.Direct.Moments
import Starlark.Proofs.Machine.Concealment

/-!
# Variables of an activation

A variable that code can assign to lies in a local slot, in a cell that the activation has in a
local slot, or in the module. An activation of the program of a resolved file has a place for each
of them (`Running.settled_of_reachable`): the slots of captured locals hold cells of the heap, each
of them one of its own. So a store changes the variable that it is meant for
(`Running.held?_stored_self`) and no other (`Running.held?_stored_of_ne`).
-/

set_option autoImplicit false

namespace Starlark

/-- Code has one set of captured locals, whatever its types are. -/
theorem TypedCode.boxes_of_boxes {p : Program} {predeclared predeclared' : String → Prop}
    {code : Code}
    (t : TypedCode p predeclared code) (t' : TypedCode p predeclared' code)
    (hroom : code.locals.size ≤ 2 ^ 32) {h : Heap} {locals : Array (Option Value)}
    (hb : t.scopes.Boxes h locals) : t'.scopes.Boxes h locals := by
  have captured : ∀ i : UInt32, t'.scopes.locals[i.toNat]? = some .cell →
      t.scopes.locals[i.toNat]? = some .cell := fun i hi =>
    (t.lowers.covers.cells_only hroom).2 i (t'.lowers.covers.cells i hi)
  exact ⟨by rw [hb.size, t.lowers.covers.locals, t'.lowers.covers.locals],
    fun i hi => hb.cell i (captured i hi),
    fun i j hi hj => hb.distinct i j (captured i hi) (captured j hj)⟩

/-- A store into a variable of a module. -/
theorem Heap.globals_setGlobal (h : Heap) (r : ModuleRef) (i : Nat) (v : Value) :
    ((h.setGlobal r i v).module r).globals = (h.module r).globals.setIfInBounds i (some v) := by
  simp only [setGlobal, module, Array.getD_eq_getD_getElem?, Array.getElem?_modify, if_true]
  cases h.modules[r.index]? with
  | none => rfl
  | some m => rfl

namespace Running

variable {p : Program} {predeclared : String → Prop} {R : Running p predeclared} {n lo hi : Nat}
  {q q' : Point} {st : List Value} {its : List Iter} {s : Scene} {loops : List Loop}
  {id id' : Ident}

/-- An activation has a place for each variable that its code declares. -/
structure Settled (R : Running p predeclared) (s : Scene) : Prop where
  boxes : R.code.scopes.Boxes s.heap s.locals
  free_size : R.func.freeVars.size = R.code.scopes.free
  free_cell : ∀ v ∈ R.func.freeVars, v.IsCell
  globals_size : (s.heap.module R.func.module).globals.size = R.code.scopes.globals

/-- A function that runs in a reachable machine has places for its variables. -/
theorem settled_of_reachable (hp : p.Sourced) (hreach : R.start.Reachable)
    (h : R.StandsAt n q st its s) : R.Settled s := by
  obtain ⟨pc, -, t, a, hrun, -, ha, -, hl, -⟩ := h
  have hsafe : (Machine.run n R.start).Safe hp.types False :=
    Machine.safe_run (hreach.safe hp.types) n
  have htables := R.tables_eq n
  rw [hrun, ← ha] at htables
  rw [hrun] at hsafe
  have hprogram : s.heap.programOf a.func = p := congrArg Tables.program htables
  have hof : s.heap.codeOf a.func = R.body := congrArg Tables.code htables
  obtain ⟨hmem, hready⟩ := hsafe.stands.1
  obtain ⟨code, hcode, -⟩ := hsafe.heap.made a.func hmem hprogram
  have hbody : code = R.body := by
    rw [Heap.codeOf, hprogram, hcode] at hof
    exact hof
  subst hbody
  have hserve := hp.types.serve hsafe.heap hmem hprogram hcode
  -- the heap has its own types for the code of a program, but both say which locals are captured
  have hboxes := (hready hprogram _ hcode).1
  have hcovers := R.code.lowers.covers
  refine ⟨hl ▸ TypedCode.boxes_of_boxes _ R.code (hp.indexable.locals _ _ hcode) hboxes, ?_, ?_, ?_⟩
  · exact ha ▸ hserve.free_size.trans (hserve.covers.free.trans hcovers.free.symm)
  · exact ha ▸ hserve.free_cell
  · exact ha ▸ hserve.globals.trans (hserve.covers.globals.trans hcovers.globals.symm)

end Running

/-! ## What a variable holds -/

/-- The variable that an identifier stands for, among those that can be assigned to. -/
def Ident.place (id : Ident) : Scope × UInt32 := (id.scope, id.index)

namespace Running

variable {p : Program} {predeclared : String → Prop} {R : Running p predeclared} {n lo hi : Nat}
  {q q' : Point} {st : List Value} {its : List Iter} {s : Scene} {loops : List Loop}
  {id id' : Ident}

/-- What a variable holds that can be assigned to. -/
def held? (R : Running p predeclared) (s : Scene) (id : Ident) : Option Value :=
  match id.scope with
  | .frame => s.locals[id.index.toNat]?.join
  | .cell =>
    match s.locals[id.index.toNat]?.join with
    | some (.cell r) => (s.heap.cell r).content
    | _ => none
  | .global => (s.heap.module R.func.module).globals[id.index.toNat]?.join
  | _ => none

/-- The scene after a store into a variable. -/
def stored (R : Running p predeclared) (s : Scene) (id : Ident) (v : Value) : Scene :=
  match id.scope with
  | .frame => { s with locals := s.locals.setIfInBounds id.index.toNat (some v) }
  | .cell =>
    match s.locals[id.index.toNat]?.join with
    | some (.cell r) => { s with heap := s.heap.setCell r v }
    | _ => s
  | .global => { s with heap := s.heap.setGlobal R.func.module id.index.toNat v }
  | _ => s

theorem thread_stored (s : Scene) (id : Ident) (v : Value) :
    (R.stored s id v).thread = s.thread := by
  unfold stored
  repeat' split
  all_goals rfl

/-- The instruction that stores into a variable. -/
theorem exists_storing (hs : R.Settled s) (hid : R.code.scopes.Assigns .full id) :
    ∃ op : Opcode, Lowering.store id = .arg op id.index ∧ op.isCondJump = false ∧ op.hasArg = true ∧
      ∀ (a : Activation) (v : Value) (st : List Value), a.locals = s.locals → a.stack = v :: st →
        a.execute R.tables op id.index s.heap =
          .ok (.proceed { a with stack := st, locals := (R.stored s id v).locals })
            (R.stored s id v).heap := by
  obtain ⟨hscope, hdeclared⟩ := hid
  have hdeclared := hdeclared rfl
  unfold Lowering.store stored
  -- a plain local, a local kept in a cell, a global: each is stored into by an instruction of its
  -- own
  rcases hscope with hscope | hscope | hscope
  · rw [hscope] at hdeclared ⊢
    have hlt : id.index.toNat < s.locals.size := hs.boxes.size ▸ hdeclared.lt_locals (.inl rfl)
    have hslot : s.locals[id.index.toNat]? = some s.locals[id.index.toNat] :=
      Array.getElem?_eq_getElem hlt
    refine ⟨.setLocal, rfl, rfl, rfl, fun a v st hl hst => ?_⟩
    simp only [Activation.execute, hst, Op.pop_bind, Op.slot, Op.entry, hl, hslot]
    rfl
  · rw [hscope] at hdeclared ⊢
    obtain ⟨r, hr, -⟩ := hs.boxes.cell id.index hdeclared
    refine ⟨.setLocalCell, rfl, rfl, rfl, fun a v st hl hst => ?_⟩
    simp only [Activation.execute, hst, Op.pop_bind, Op.slotCell, Op.slot, Op.entry, hl, hr,
      Option.join_some]
    rw [← hl]
    rfl
  · rw [hscope] at hdeclared ⊢
    have hlt : id.index.toNat < (s.heap.module R.func.module).globals.size :=
      hs.globals_size ▸ hdeclared
    have hslot := Array.getElem?_eq_getElem hlt
    refine ⟨.setGlobal, rfl, rfl, rfl, fun a v st hl hst => ?_⟩
    have hread : (Op.read (fun h => (h.module R.tables.module).globals) : Op _) s.heap =
        .ok (s.heap.module R.func.module).globals s.heap := rfl
    simp only [Activation.execute, hst, Op.pop_bind]
    rw [Starlark.bind_apply, hread]
    simp only [Op.entry, hslot, ← hl]
    rfl

/-- A store is executed. -/
theorem StandsAt.store {v : Value} (h : R.StandsAt n q (v :: st) its s) (hs : R.Settled s)
    (hid : R.code.scopes.Assigns .full id)
    (hat : (Lowering.store id).At p.pool R.code.graph loops q lo q' hi) :
    R.Comes n st its fun m => R.StandsAt m q' st its (R.stored s id v) := by
  obtain ⟨op, hplan, hjump, harg, hexec⟩ := exists_storing hs hid
  rw [hplan] at hat
  obtain ⟨hinsn, rfl, rfl⟩ := hat
  refine ((h.execute hinsn hjump fun hno => absurd (harg.symm.trans hno) (by decide)).below
    (List.suffix_cons v st) (List.suffix_refl its)).mono fun m _ hm => ?_
  obtain ⟨a, ha, hl, hst, rfl, -, hyields⟩ := hm
  rw [hexec a v st hl hst] at hyields
  have hnext := hyields rfl rfl
  rwa [← thread_stored (R := R) s id v] at hnext

/-- A variable holds what was stored into it. -/
theorem held?_stored_self (hs : R.Settled s) (hid : R.code.scopes.Assigns .full id) (v : Value) :
    R.held? (R.stored s id v) id = some v := by
  obtain ⟨hscope, hdeclared⟩ := hid
  have hdeclared := hdeclared rfl
  unfold held? stored
  rcases hscope with hscope | hscope | hscope
  · rw [hscope] at hdeclared ⊢
    have hlt : id.index.toNat < s.locals.size := hs.boxes.size ▸ hdeclared.lt_locals (.inl rfl)
    simp [Array.getElem?_setIfInBounds_self_of_lt hlt]
  · rw [hscope] at hdeclared ⊢
    obtain ⟨r, hr, hlt⟩ := hs.boxes.cell id.index hdeclared
    simp only [hr, Option.join_some, Heap.setCell, Heap.cell_modifyCell_self _ _ hlt]
  · rw [hscope] at hdeclared ⊢
    have hlt : id.index.toNat < (s.heap.module R.func.module).globals.size :=
      hs.globals_size ▸ hdeclared
    simp only [Heap.globals_setGlobal, Array.getElem?_setIfInBounds_self_of_lt hlt,
        Option.join_some]

/-- A store leaves the other variables as they are. -/
theorem held?_stored_of_ne (hs : R.Settled s) (hid : R.code.scopes.Assigns .full id)
    (hid' : R.code.scopes.Assigns .full id') (hne : id.place ≠ id'.place) (v : Value) :
    R.held? (R.stored s id v) id' = R.held? s id' := by
  obtain ⟨hscope, hdeclared⟩ := hid
  obtain ⟨hscope', hdeclared'⟩ := hid'
  have hdeclared := hdeclared rfl
  have hdeclared' := hdeclared' rfl
  unfold Ident.place at hne
  unfold held? stored
  rcases hscope with hscope | hscope | hscope
  · rw [hscope] at hdeclared hne ⊢
    -- a slot that is no cell is not that of another variable
    have hslot : id'.scope = .frame ∨ id'.scope = .cell → id.index.toNat ≠ id'.index.toNat := by
      intro hlocal he
      have he := UInt32.toNat_inj.1 he
      rcases hlocal with hlocal | hlocal
      · exact hne (by rw [hlocal, he])
      · rw [hlocal, ← he] at hdeclared'
        cases hdeclared.symm.trans hdeclared'
    rcases hscope' with hscope' | hscope' | hscope'
    · simp only [hscope', Array.getElem?_setIfInBounds_ne (hslot (.inl hscope'))]
    · simp only [hscope', Array.getElem?_setIfInBounds_ne (hslot (.inr hscope'))]
    · simp only [hscope']
  · rw [hscope] at hdeclared hne ⊢
    obtain ⟨r, hr, -⟩ := hs.boxes.cell id.index hdeclared
    simp only [hr, Option.join_some]
    rcases hscope' with hscope' | hscope' | hscope'
    · simp only [hscope']
    · rw [hscope'] at hdeclared' hne ⊢
      obtain ⟨r', hr', -⟩ := hs.boxes.cell id'.index hdeclared'
      have hcell : r' ≠ r := by
        rintro rfl
        exact hne (by rw [hs.boxes.distinct _ _ hdeclared hdeclared' (hr.trans hr'.symm)])
      simp only [hr', Option.join_some, Heap.setCell, Heap.cell_modifyCell_of_ne _ _ hcell]
    · simp only [hscope']
      rfl
  · rw [hscope] at hdeclared hne ⊢
    rcases hscope' with hscope' | hscope' | hscope'
    · simp only [hscope']
    · simp only [hscope']
      rfl
    · have hindex : id.index.toNat ≠ id'.index.toNat := fun he =>
        hne (by rw [hscope', UInt32.toNat_inj.1 he])
      simp only [hscope', Heap.globals_setGlobal, Array.getElem?_setIfInBounds_ne hindex]

end Running

end Starlark
