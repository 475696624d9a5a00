import Starlark.Proofs.Machine.Binding
import Starlark.Proofs.Machine.Recursion

/-!
# Calls that omit arguments

A call may leave parameters out. If defaults fill all of them, the function is entered and each of
them holds its default, in a cell if it is captured. Otherwise the call fails and names those that
nothing fills (`Machine.step_omitting`).
-/

set_option autoImplicit false

namespace Starlark

/-! ## Boxing -/

namespace Heap

/-- What a local of a function holds: a captured one has it in a cell. -/
def localValue? (h : Heap) (c : Code) (locals : Array (Option Value)) (i : Nat) : Option Value :=
  if ∃ k ∈ c.cells, k.toNat = i then
    match locals[i]? with
    | some (some (.cell r)) => (h.cell r).content
    | _ => none
  else locals[i]?.join

theorem cell_newCell {h : Heap} {r : CellRef} (hr : r.index < h.cells.size)
    (content : Option Value) :
    (h.newCell content).2.cell r = h.cell r := by
  simp [cell, newCell, Array.getElem?_push, hr, Nat.ne_of_lt hr]

/-- Boxing puts what a local holds into a new cell, and leaves the other locals and the other
cells. -/
theorem boxCells_contents {cells : List UInt32} (hnodup : cells.Nodup) {h h' : Heap}
    {locals locals' : Array (Option Value)} (hb : h.boxCells locals cells = .ok (locals', h')) :
    (∀ i : Nat, (∀ k ∈ cells, k.toNat ≠ i) → locals'[i]? = locals[i]?) ∧
      (∀ k ∈ cells, ∃ r, locals'[k.toNat]? = some (some (.cell r)) ∧
        locals[k.toNat]? = some (h'.cell r).content) ∧
      ∀ r : CellRef, r.index < h.cells.size → h'.cell r = h.cell r := by
  -- the slots are distinct, so boxing one leaves those still to be boxed as they were
  induction cells generalizing h locals with
  | nil =>
    cases hb
    exact ⟨fun _ _ => rfl, nofun, fun _ _ => rfl⟩
  | cons k cells ih =>
    obtain ⟨hk, hnodup⟩ := List.nodup_cons.1 hnodup
    have hne : ∀ j ∈ cells, k.toNat ≠ j.toNat := fun j hj he => hk (UInt32.toNat_inj.1 he ▸ hj)
    unfold boxCells at hb
    split at hb
    · cases hb
    rename_i v hv
    obtain ⟨hothers, hboxed, hcells⟩ := @ih hnodup (h.newCell v).2 _ hb
    have hsize : h.cells.size < (h.newCell v).2.cells.size := by simp [newCell]
    refine ⟨fun i hi => ?_, fun j hj => ?_, fun r hr => ?_⟩
    · obtain ⟨hki, hi⟩ := List.forall_mem_cons.1 hi
      rw [hothers i hi, Array.getElem?_setIfInBounds_ne hki]
    · rcases List.mem_cons.1 hj with rfl | hj
      · -- the cell was made here, and the others are boxed behind it
        refine ⟨⟨h.cells.size⟩, ?_, ?_⟩
        · have hlt : j.toNat < locals.size := (Array.getElem?_eq_some_iff.1 hv).1
          rw [hothers j.toNat fun i hi he => hne i hi he.symm,
            Array.getElem?_setIfInBounds_self_of_lt hlt]
        · rw [hv, hcells ⟨h.cells.size⟩ hsize]
          simp [cell, newCell]
      · obtain ⟨r, hr, hcontent⟩ := hboxed j hj
        rw [Array.getElem?_setIfInBounds_ne (hne j hj)] at hcontent
        exact ⟨r, hr, hcontent⟩
    · rw [hcells r (Nat.lt_trans hr hsize), cell_newCell hr]

/-- A local holds what it held before it was boxed. -/
theorem localValue?_boxCells {c : Code} (hnodup : c.cells.Nodup) {h h' : Heap}
    {locals locals' : Array (Option Value)} (hb : h.boxCells locals c.cells = .ok (locals', h'))
    {i : Nat} {v : Value} (hi : locals[i]? = some (some v)) :
    h'.localValue? c locals' i = some v := by
  obtain ⟨hothers, hboxed, -⟩ := boxCells_contents hnodup hb
  unfold localValue?
  split
  · rename_i hcaptured
    obtain ⟨k, hk, rfl⟩ := hcaptured
    obtain ⟨r, hr, hcontent⟩ := hboxed k hk
    rw [hi] at hcontent
    rw [hr]
    exact (Option.some.inj hcontent).symm
  · rename_i hfree
    rw [hothers i fun k hk he => hfree ⟨k, hk, he⟩, hi]
    rfl

end Heap

/-! ## Calls -/

namespace Machine

variable {m : Machine} {r : FuncRef} {g : FuncObj} {c : Code} {args : List Value}
    {kwargs : Keywords}

section

variable (hcontrol : m.control = .invoke (.func r) args kwargs)
    (hg : m.heap.funcs[r.index]? = some g)
  (hroom : m.frames.length < m.thread.maxDepth) (hrecurs : ¬m.Recurs g)
  (hcode : m.heap.codeOf g = c)
  {b : Bound}

include hcontrol hg hroom hrecurs hcode

/-- A call whose arguments are not bound fails. -/
theorem step_of_bind_error {e : Stop} (hbind : bindArguments c g.defaults args kwargs
    (Bound.empty c.locals.size) = .error e b) :
    m.step = stop m.heap m.thread (.func { func := g, locals := #[] } .call :: m.frames) e := by
  rw [recurs_iff] at hrecurs
  rw [step_of_room hcontrol hg hroom, enter]
  dsimp only
  rw [if_neg hrecurs, hcode, hbind]

/-- The body starts once the arguments are bound and the captured locals are boxed. -/
theorem step_of_bind_ok (hbind : bindArguments c g.defaults args kwargs
    (Bound.empty c.locals.size) = .ok () b) {locals : Array (Option Value)} {heap : Heap}
    (hbox : (b.install m.heap).2.boxCells (b.install m.heap).1 c.cells = .ok (locals, heap)) :
    m.step = ⟨heap, m.thread, .func { func := g, locals } .call :: m.frames, .exec⟩ := by
  rw [recurs_iff] at hrecurs
  rw [step_of_room hcontrol hg hroom, enter]
  dsimp only
  rw [if_neg hrecurs, hcode, hbind]
  dsimp only
  rw [hbox]

end

/-- A call whose arguments all have places enters the function if defaults fill the parameters that
it omits; the body starts with these defaults. Otherwise the call fails for exactly those of the
omitted parameters that have none. -/
theorem step_omitting (hcontrol : m.control = .invoke (.func r) args kwargs)
    (hg : m.heap.funcs[r.index]? = some g) (hroom : m.frames.length < m.thread.maxDepth)
    (hrecurs : ¬m.Recurs g) (hcode : m.heap.codeOf g = c) (hc : c.Aligned g.defaults)
    (hnodup : c.cells.Nodup) (hcells : ∀ i ∈ c.cells, i.toNat < c.locals.size)
    (ht : c.Takes args kwargs) {supply : Nat → Option Value}
    (hsupply : BindM.usable (c.ordinary - g.defaults.size) g.defaults = supply) :
    (c.lacking supply args kwargs = [] → ∃ locals heap,
      m.step = ⟨heap, m.thread, .func { func := g, locals } .call :: m.frames, .exec⟩ ∧
      ∀ i, c.Omits args kwargs i → ∃ v, supply i = some v ∧ heap.localValue? c locals i = some v) ∧
    (c.lacking supply args kwargs ≠ [] →
      m.step = fail m.heap m.thread (.func { func := g, locals := #[] } .call :: m.frames)
        (.fault (.missingArguments c.name (c.lacking supply args kwargs)))) := by
  obtain ⟨b, hb, hbind⟩ := bindArguments_of_takes hc ht
  rw [hsupply] at hbind
  refine ⟨fun hnone => ?_, fun hlacking => ?_⟩
  · rw [if_pos hnone] at hbind
    have haccepts : c.Accepts g.defaults args kwargs :=
      (Code.accepts_iff hc).2 ⟨ht, hsupply.symm ▸ hnone⟩
    have hplaced := hb.placed hc haccepts m.heap
    obtain ⟨locals, heap, hbox⟩ := (b.install m.heap).2.exists_boxCells fun i hi =>
      hplaced.size.symm ▸ hcells i hi
    refine ⟨locals, heap, step_of_bind_ok hcontrol hg hroom hrecurs hcode hbind hbox,
        fun i hi => ?_⟩
    obtain ⟨v, hv⟩ := Option.ne_none_iff_exists'.1 ((Code.lacking_eq_nil_iff hc).1 hnone i hi)
    -- nothing has filled the slot before the defaults did
    have hdefault := (hc.usable_eq_some_iff.1 ((congrFun hsupply i).trans hv)).1
    have hslot := hplaced.unfilled i hi.1 hi.2.1 hi.2.2
    rw [hdefault] at hslot
    exact ⟨v, hv, Heap.localValue?_boxCells hnodup hbox hslot⟩
  · rw [if_neg hlacking] at hbind
    exact step_of_bind_error hcontrol hg hroom hrecurs hcode hbind

end Machine

end Starlark
