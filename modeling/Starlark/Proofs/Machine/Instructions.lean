import Starlark.Proofs.Machine.Conformity

/-!
# Instructions on values of known shapes

An instruction that finds on the stack what its type says, cells in the locals that are cells, and
tables of the declared sizes, does not blame the code, and leaves what its type says
(`Activation.safe_execute`).
-/

set_option autoImplicit false

namespace Starlark

/-! ## Tables and locals -/

/-- Operands can point to all entries of the tables. -/
structure Program.Addressable (p : Program) : Prop where
  names : p.names.size ≤ 2 ^ 32
  constants : p.constants.size ≤ 2 ^ 32
  functions : p.functions.size ≤ 2 ^ 32

/-- Locals as declared: those that are cells hold cells of the heap, each of them one of its own. -/
structure Scopes.Boxes (s : Scopes) (h : Heap) (locals : Array (Option Value)) : Prop where
  size : locals.size = s.locals.length
  cell : ∀ i : UInt32, s.locals[i.toNat]? = some .cell →
    ∃ r, locals[i.toNat]? = some (some (.cell r)) ∧ r.index < h.cells.size
  distinct : ∀ i j : UInt32, s.locals[i.toNat]? = some .cell → s.locals[j.toNat]? = some .cell →
    locals[i.toNat]? = locals[j.toNat]? → i = j

/-- Cells stay. -/
theorem Scopes.Boxes.mono {s : Scopes} {h h' : Heap} {locals : Array (Option Value)}
    (hb : s.Boxes h locals) (hle : h.cells.size ≤ h'.cells.size) : s.Boxes h' locals where
  size := hb.size
  cell i hi := by
    obtain ⟨r, hr, hlt⟩ := hb.cell i hi
    exact ⟨r, hr, Nat.lt_of_lt_of_le hlt hle⟩
  distinct := hb.distinct

/-- The tables of a function have what is declared. -/
structure Tables.Serve (t : Tables) (p : Program) (code : Code) (s : Scopes) (h : Heap) : Prop where
  program_eq : t.program = p
  code_eq : t.code = code
  covers : s.Matches p code
  free_size : t.freeVars.size = s.free
  free_cell : ∀ v ∈ t.freeVars, v.IsCell
  globals : (h.module t.module).globals.size = s.globals

namespace Tables.Serve

variable {t : Tables} {p : Program} {code : Code} {s : Scopes} {h : Heap}

/-- The name of a declared local. -/
theorem lt_locals (ht : t.Serve p code s h) {scope : Scope} {i : UInt32} {name : String}
    (hi : s.Declares scope i name) (hscope : scope = .frame ∨ scope = .cell) :
    i.toNat < t.code.locals.size :=
  ht.code_eq ▸ ht.covers.locals ▸ hi.lt_locals hscope

/-- What a function captured under a declared free variable. -/
theorem exists_free (ht : t.Serve p code s h) {i : UInt32} {name : String}
    (hi : s.Declares .free i name) : ∃ r, t.freeVars[i.toNat]? = some (.cell r) := by
  have hlt : i.toNat < t.freeVars.size := ht.free_size ▸ hi
  obtain ⟨r, hr⟩ := ht.free_cell _ (Array.getElem_mem hlt)
  exact ⟨r, (Array.getElem?_eq_getElem hlt).trans (congrArg some hr)⟩

end Tables.Serve

/-- What an instruction leaves, if the stack then is to have the given shape. -/
def Activation.Yields (s : Scopes) (h : Heap) (a : Activation) (e : Shape) : Effect → Prop
  | .proceed b =>
    b.func = a.func ∧ b.next = a.next ∧ s.Boxes h b.locals ∧ e.Describes b.stack b.iters
  | .call b _ _ _ =>
    b.func = a.func ∧ b.next = a.next ∧ s.Boxes h b.locals ∧ ∀ v, e.Describes (v :: b.stack) b.iters
  | .load b _ n =>
    b.func = a.func ∧ b.next = a.next ∧ s.Boxes h b.locals ∧
      ∃ names st, b.stack = names ++ st ∧ names.length = n ∧ (∀ v ∈ names, ∃ x, v = .str x) ∧
        ∀ vs, vs.length = n → e.Describes (vs ++ st) b.iters
  | .finish _ => False

namespace Activation

open Op

variable {t : Tables} {op : Opcode} {arg : UInt32} {p : Program} {code : Code} {s : Scopes}
  {New : FuncObj → Prop} {Supplied : Prop} {a : Activation} {h : Heap} {d e : Shape}

/-- The instructions that push a value which is always there. -/
theorem execute_of_isPush (hop : op.isPush = true) :
    ∃ v : Value, v.Visible ∧ ∀ a, execute t op arg a = pure (push a a.stack v) := by
  cases op with
  | pushNone => exact ⟨.null, trivial, fun _ => rfl⟩
  | pushTrue => exact ⟨.bool true, trivial, fun _ => rfl⟩
  | pushFalse => exact ⟨.bool false, trivial, fun _ => rfl⟩
  | _ => cases hop

/-- The instructions that replace the topmost value. -/
theorem execute_of_isUnary (hop : op.isUnary = true) : ∃ m : Value → Op Value,
    (∀ x, Regular (m x)) ∧
    (∀ x, Discreet Value.Visible (m x)) ∧ ∀ a, execute t op arg a = (do
      let (x, st) ← Op.pop a.stack
      return push a st (← m x)) := by
  have hreg : ∀ u x, Regular (check fun h => h.unary u x) := fun u x =>
    .check fun h => blameless_unary h u x
  have hdisc : ∀ u x, Discreet Value.Visible (check fun h => h.unary u x) := fun u x =>
    .of_reveals fun h _ => reveals_unary h u x
  cases op with
  | uplus => exact ⟨_, hreg .plus, hdisc .plus, fun _ => rfl⟩
  | uminus => exact ⟨_, hreg .minus, hdisc .minus, fun _ => rfl⟩
  | tilde => exact ⟨_, hreg .tilde, hdisc .tilde, fun _ => rfl⟩
  | not => exact ⟨_, hreg .not, hdisc .not, fun _ => rfl⟩
  | _ => cases hop

/-- The instructions that replace the two topmost values. -/
theorem execute_of_isBinary (hop : op.isBinary = true) :
    ∃ m : Value → Value → Op Value, (∀ x y, Regular (m x y)) ∧
      (∀ x y : Value, x.Visible → y.Visible → Discreet Value.Visible (m x y)) ∧
      ∀ a, execute t op arg a = (do
        let (y, x, st) ← Op.pop2 a.stack
        return push a st (← m x y)) := by
  cases op with
  | inplaceAdd =>
    exact ⟨_, regular_inplaceAdd, fun _ _ hx hy => discreet_inplaceAdd hx hy, fun _ => rfl⟩
  | inplacePipe =>
    exact ⟨_, regular_inplacePipe, fun x y _ _ => discreet_inplacePipe x y, fun _ => rfl⟩
  | index =>
    exact ⟨_, fun x y => .check fun h => h.blameless_getIndex x y,
      fun x y hx _ => .of_reveals fun h hd => hd.reveals_getIndex hx y, fun _ => rfl⟩
  | _ =>
    first
    | exact ⟨_, regular_binary _, fun _ _ hx hy => discreet_binary _ hx hy, fun _ => rfl⟩
    | cases hop

/-- The instructions that call take off the stack what the call is made of. -/
theorem execute_of_isCall (hop : op.isCall = true) (a : Activation) :
    execute t op arg a = (do
      let (f, args, kwargs, st) ← takeCall op arg a.stack
      return .call { a with stack := st } f args kwargs) := by
  cases op <;> first | rfl | cases hop

/-- A part of a function is pushed. -/
theorem yields_hold {st : List Value} {o : Held} {v : Value} (hb : s.Boxes h a.locals)
    (hd : d.Describes st a.iters) (hv : o.Describes v) : Yields s h a (d.hold [o]) (push a st v) :=
  ⟨rfl, rfl, hb, Shape.describes_hold_singleton.2 ⟨v, st, rfl, hv, hd⟩⟩

/-- A value is pushed. -/
theorem yields_push {st : List Value} {k : Known} {v : Value} (hb : s.Boxes h a.locals)
    (hd : d.Describes st a.iters) (hv : k.Describes v) : Yields s h a (d.push [k]) (push a st v) :=
  ⟨rfl, rfl, hb, hd.cons hv⟩

/-- An instruction that goes on with another stack. -/
theorem yields_withStack {st : List Value} (hb : s.Boxes h a.locals) (hd : d.Describes st a.iters) :
    Yields s h a d (withStack a st) :=
  ⟨rfl, rfl, hb, hd⟩

/-- The values of a display are popped. -/
theorem popMany_display_bind {β : Type} {n : Nat} {vs : List Value} (hlen : vs.length = n)
    (hn : n < 2 ^ 31) (st : List Value) (f : List Value × List Value → Op β) :
    (popMany (UInt32.ofNat n).toNat (vs ++ st) >>= f) = f (vs.reverse, st) := by
  rw [toNat_ofNat_of_lt hn, popMany_bind hlen]

/-- The cells are on top of the defaults, so they come last in the tuple that is packed of both. -/
theorem describes_pack {os : List Held} {cells : Nat}
    (hcells : os.take cells = List.replicate cells .cell) {vs : List Value}
    (hvs : List.Forall₂ Held.Describes os vs) :
    (Held.pack os.length cells).Describes (.tuple vs.reverse) := by
  have hle := congrArg List.length hcells
  rw [List.length_take, List.length_replicate] at hle
  refine ⟨_, rfl, ?_, by omega, fun x hx => ?_⟩
  · rw [List.length_reverse, hvs.length_eq]
  · rw [List.drop_reverse, List.mem_reverse] at hx
    rw [show vs.length - (os.length - cells) = cells by rw [← hvs.length_eq]; omega] at hx
    have htop := List.forall₂_take cells hvs
    rw [hcells] at htop
    exact forall_mem_of_replicate htop x hx

/-- A function is made of what the stack holds for it, since the typing says how much that is. -/
theorem safe_makeFunc {f : Function} {i : UInt32} {size : Nat} {v : Value} {st : List Value}
    (hp : p.Addressable) (ht : t.program = p)
    (hi : ∃ x, IndexOf p.functions (Function.compiled x f) i)
    (hv : (Held.pack size f.freeCount).Describes v)
    (hnew : ∀ g : FuncObj, g.module = t.module → g.MadeBy p → New g) :
    Safe New Supplied (fun r => r.2 = st) (makeFunc t i (v :: st)) h := by
  obtain ⟨x, hi⟩ := hi
  obtain ⟨elems, rfl, hlen, hle, hcells⟩ := hv
  have hget := hi.getElem?_eq hp.functions
  have hfree : (Function.compiled x f).freeVars.size = f.freeCount := by
    cases f
    simp [Function.compiled, Assembled.toCode, Function.freeCount]
  rw [makeFunc, ht, hget]
  refine Safe.bind (.pure rfl) fun _ _ _ he => ?_
  subst he
  dsimp only
  -- the tuple is at least as long as the cells that are taken off it
  rw [hfree, if_neg (by omega)]
  refine Safe.bind (Safe.make (.newFunc _ (hnew _ rfl ?_))) fun _ _ _ _ => .pure rfl
  refine ⟨_, hget, ?_, ?_⟩
  · simp [hfree, hlen]
    omega
  · intro v hv
    rw [hlen] at hv
    exact hcells v (by simpa using hv)

/-- The slot of a declared local. -/
theorem getElem?_of_declares {scope : Scope} {i : UInt32} {name : String} (hb : s.Boxes h a.locals)
    (hi : s.Declares scope i name) (hscope : scope = .frame ∨ scope = .cell) :
    ∃ v, a.locals[i.toNat]? = some v :=
  ⟨_, Array.getElem?_eq_getElem (hb.size ▸ hi.lt_locals hscope)⟩

/-- Storing into a local that is no cell leaves the cells. -/
theorem boxes_setLocal {i : UInt32} {name : String} (hb : s.Boxes h a.locals)
    (hi : s.Declares .frame i name) (v : Value) :
    s.Boxes h (a.locals.setIfInBounds i.toNat (some v)) := by
  have hsame : ∀ j : UInt32, s.locals[j.toNat]? = some .cell →
      (a.locals.setIfInBounds i.toNat (some v))[j.toNat]? = a.locals[j.toNat]? := by
    intro j hj
    apply Array.getElem?_setIfInBounds_ne
    intro hij
    rw [← hij] at hj
    cases (show s.locals[i.toNat]? = some .frame from hi).symm.trans hj
  refine ⟨by rw [Array.size_setIfInBounds, hb.size], fun j hj => ?_, fun j k hj hk he => ?_⟩
  · rw [hsame j hj]
    exact hb.cell j hj
  · rw [hsame j hj, hsame k hk] at he
    exact hb.distinct j k hj hk he

section Instructions

/-! ## Instructions

Each instruction has one lemma of one shape: on a stack that is described it is safe, and yields a
stack that is. `safe_execute` assembles them. -/

variable (hb : s.Boxes h a.locals)

include hb

/-! ### Moving values -/

theorem safe_dup {k : Known} (hd : (d.push [k]).Describes a.stack a.iters) :
    Safe New Supplied (Yields s h a (d.push [k, k])) (execute t .dup 0 a) h := by
  obtain ⟨v, st, hst, hv, hd⟩ := Shape.describes_push_cons.1 hd
  simp only [execute, hst, pop_bind]
  exact .pure ⟨rfl, rfl, hb, (hd.cons hv).cons hv⟩

theorem safe_dup2 {x y : Known} (hd : (d.push [y, x]).Describes a.stack a.iters) :
    Safe New Supplied (Yields s h a (d.push [y, x, y, x])) (execute t .dup2 0 a) h := by
  obtain ⟨v, st, hst, hv, hd⟩ := Shape.describes_push_cons.1 hd
  obtain ⟨w, st, rfl, hw, hd⟩ := Shape.describes_push_cons.1 hd
  simp only [execute, hst, pop2_bind]
  exact .pure ⟨rfl, rfl, hb, (((hd.cons hw).cons hv).cons hw).cons hv⟩

theorem safe_pop {k : Known} (hd : (d.push [k]).Describes a.stack a.iters) :
    Safe New Supplied (Yields s h a d) (execute t .pop 0 a) h := by
  obtain ⟨v, st, hst, hv, hd⟩ := Shape.describes_push_cons.1 hd
  simp only [execute, hst, pop_bind]
  exact .pure (yields_withStack hb hd)

theorem safe_exch {x y : Known} (hd : (d.push [y, x]).Describes a.stack a.iters) :
    Safe New Supplied (Yields s h a (d.push [x, y])) (execute t .exch 0 a) h := by
  obtain ⟨v, st, hst, hv, hd⟩ := Shape.describes_push_cons.1 hd
  obtain ⟨w, st, rfl, hw, hd⟩ := Shape.describes_push_cons.1 hd
  simp only [execute, hst, pop2_bind]
  exact .pure ⟨rfl, rfl, hb, (hd.cons hv).cons hw⟩

theorem safe_push (hop : op.isPush = true) (hd : d.Describes a.stack a.iters) :
    Safe New Supplied (Yields s h a (d.push [.any])) (execute t op 0 a) h := by
  obtain ⟨v, -, hexec⟩ : ∃ v : Value, v.Visible ∧ ∀ a, execute t op 0 a = pure (push a a.stack v) :=
    execute_of_isPush hop
  rw [hexec]
  exact .pure (yields_push hb hd trivial)

theorem safe_constant {x : Constant} (hx : t.program.constants[arg.toNat]? = some x)
    (hd : d.Describes a.stack a.iters) :
    Safe New Supplied (Yields s h a (d.push [.ofConstant x])) (execute t .constant arg a) h := by
  simp only [execute, entry_bind hx]
  refine .pure (yields_push hb hd ?_)
  cases x with
  | str text => exact ⟨text, rfl⟩
  | _ => trivial

/-! ### Operators -/

theorem safe_unary {k : Known} (hop : op.isUnary = true)
    (hd : (d.push [k]).Describes a.stack a.iters) :
    Safe New Supplied (Yields s h a (d.push [.any])) (execute t op 0 a) h := by
  obtain ⟨v, st, hst, hv, hd⟩ := Shape.describes_push_cons.1 hd
  obtain ⟨m, hreg, -, hexec⟩ := execute_of_isUnary (t := t) hop
  rw [hexec, hst, pop_bind]
  exact Safe.bind (Safe.of_regular (hreg v)) fun _ _ _ _ => .pure (yields_push hb hd trivial)

theorem safe_binary {x y : Known} (hop : op.isBinary = true)
    (hd : (d.push [y, x]).Describes a.stack a.iters) :
    Safe New Supplied (Yields s h a (d.push [.any])) (execute t op 0 a) h := by
  obtain ⟨v, st, hst, hv, hd⟩ := Shape.describes_push_cons.1 hd
  obtain ⟨w, st, rfl, hw, hd⟩ := Shape.describes_push_cons.1 hd
  obtain ⟨m, hreg, -, hexec⟩ := execute_of_isBinary (t := t) hop
  rw [hexec, hst, pop2_bind]
  exact Safe.bind (Safe.of_regular (hreg w v)) fun _ _ _ _ => .pure (yields_push hb hd trivial)

/-- A slice takes the value, its bounds and its step. -/
theorem safe_slice {ks : List Known} (hks : ks.length = 4)
    (hd : (d.push ks).Describes a.stack a.iters) :
    Safe New Supplied (Yields s h a (d.push [.any])) (execute t .slice 0 a) h := by
  obtain ⟨vs, st, hst, hvs, hd⟩ := Shape.describes_push.1 hd
  obtain ⟨step, hi, lo, x, rfl⟩ := List.length_eq_four.1 (hvs.length_eq.symm.trans hks)
  simp only [execute, hst]
  exact Safe.bind (Safe.of_regular (regular_slice x lo hi step)) fun _ _ _ _ =>
    .pure (yields_push hb hd trivial)

/-! ### Containers -/

/-- Assigning to an element takes the container, the index and the value. -/
theorem safe_setIndex {ks : List Known} (hks : ks.length = 3)
    (hd : (d.push ks).Describes a.stack a.iters) :
    Safe New Supplied (Yields s h a d) (execute t .setIndex 0 a) h := by
  obtain ⟨vs, st, hst, hvs, hd⟩ := Shape.describes_push.1 hd
  obtain ⟨z, y, x, rfl⟩ := List.length_eq_three.1 (hvs.length_eq.symm.trans hks)
  simp only [execute, hst]
  exact Safe.bind (Safe.of_regular (regular_setIndex x y z)) fun _ _ _ _ =>
    .pure (yields_withStack hb hd)

theorem safe_makeDict (hd : d.Describes a.stack a.iters) :
    Safe New Supplied (Yields s h a (d.push [.dict])) (execute t .makeDict 0 a) h :=
  Safe.bind (Safe.make (.of_eq rfl rfl rfl (Nat.le_refl _))) fun _ _ _ _ =>
    .pure (yields_push hb hd ⟨_, rfl⟩)

/-- An entry is added to the dict of a display, which stays below it. -/
theorem safe_setDict {k v : Known} (hop : op = .setDict ∨ op = .setDictUniq)
    (hd : (d.push [v, k, .dict]).Describes a.stack a.iters) :
    Safe New Supplied (Yields s h a d) (execute t op 0 a) h := by
  obtain ⟨v, st, hst, hv, hd⟩ := Shape.describes_push_cons.1 hd
  obtain ⟨k, st, rfl, hk, hd⟩ := Shape.describes_push_cons.1 hd
  obtain ⟨_, st, rfl, ⟨r, rfl⟩, hd'⟩ := Shape.describes_push_cons.1 hd
  rcases hop with rfl | rfl
  all_goals
    simp only [execute, hst]
    refine Safe.bind (Safe.of_regular (regular_insert r k v)) fun isNew _ _ _ => ?_
    split
    · refine (Safe.read _).bind fun _ _ _ _ => ?_
      exact Safe.bind (Q := fun _ => False) (.fail rfl) fun _ _ _ hf => hf.elim
    · exact .pure (yields_withStack hb hd')

/-- An element is appended to the list of a comprehension. -/
theorem safe_append {v : Known} (hd : (d.push [v, .list]).Describes a.stack a.iters) :
    Safe New Supplied (Yields s h a d) (execute t .append 0 a) h := by
  obtain ⟨v, st, hst, hv, hd⟩ := Shape.describes_push_cons.1 hd
  obtain ⟨_, st, rfl, ⟨r, rfl⟩, hd'⟩ := Shape.describes_push_cons.1 hd
  simp only [execute, hst]
  exact Safe.bind (Safe.of_regular (regular_append r v)) fun _ _ _ _ =>
    .pure (yields_withStack hb hd')

/-- A list is made of as many values as the operand says. -/
theorem safe_makeList {ks : List Known} (hks : ks.length < 2 ^ 31)
    (hd : (d.push ks).Describes a.stack a.iters) :
    Safe New Supplied (Yields s h a (d.push [.list]))
      (execute t .makeList (UInt32.ofNat ks.length) a) h := by
  obtain ⟨vs, st, hst, hvs, hd⟩ := Shape.describes_push.1 hd
  simp only [execute, hst, popMany_display_bind hvs.length_eq.symm hks]
  exact Safe.bind (Safe.make (.of_eq rfl rfl rfl (Nat.le_refl _))) fun _ _ _ he =>
    .pure (yields_push hb hd ⟨_, he⟩)

theorem safe_makeTuple {ks : List Known} (hks : ks.length < 2 ^ 31)
    (hd : (d.push ks).Describes a.stack a.iters) :
    Safe New Supplied (Yields s h a (d.push [.any]))
      (execute t .makeTuple (UInt32.ofNat ks.length) a) h := by
  obtain ⟨vs, st, hst, hvs, hd⟩ := Shape.describes_push.1 hd
  simp only [execute, hst, popMany_display_bind hvs.length_eq.symm hks]
  exact .pure (yields_push hb hd trivial)

/-! ### Iterators -/

/-- A value is taken, and an iterator over it is opened. -/
theorem safe_iterPush {k : Known} (hd : (d.push [k]).Describes a.stack a.iters) :
    Safe New Supplied (Yields s h a { d with iters := d.iters + 1 })
        (execute t .iterPush 0 a) h := by
  obtain ⟨v, st, hst, hv, hd⟩ := Shape.describes_push_cons.1 hd
  unfold Safe
  rw [execute_iterPush hst]
  cases ho : h.openIter v with
  | mk it h' =>
    cases it with
    | none => exact ⟨.openIter ho, fun _ => rfl⟩
    | some it => exact ⟨.openIter ho, rfl, rfl, hb, hd.1, congrArg (· + 1) hd.2⟩

/-- The innermost iterator is closed. -/
theorem safe_iterPop
    (hd : Shape.Describes { d with iters := d.iters + 1 } a.stack a.iters) :
    Safe New Supplied (Yields s h a d) (execute t .iterPop 0 a) h := by
  cases hits : a.iters with
  | nil =>
    rw [hits] at hd
    cases hd.2
  | cons it its =>
    rw [hits] at hd
    simp only [execute, hits]
    exact Safe.bind (Safe.modify (.closeIter h it)) fun _ _ _ _ =>
      .pure ⟨rfl, rfl, hb, hd.1, Nat.succ.inj hd.2⟩

/-! ### Functions -/

/-- A tuple with parts of a function is held for the making of that function. -/
theorem safe_makePack {os : List Held} {cells : Nat}
    (hcells : os.take cells = List.replicate cells .cell) (hos : os.length < 2 ^ 31)
    (hd : (d.hold os).Describes a.stack a.iters) :
    Safe New Supplied (Yields s h a (d.hold [.pack os.length cells]))
      (execute t .makeTuple (UInt32.ofNat os.length) a) h := by
  obtain ⟨vs, st, hst, hvs, hd⟩ := Shape.describes_hold.1 hd
  simp only [execute, hst, popMany_display_bind hvs.length_eq.symm hos]
  exact .pure (yields_hold hb hd (describes_pack hcells hvs))

/-- A function is made of the pack on top of the stack. -/
theorem safe_makeFunction {f : Function} {size : Nat} (hp : p.Addressable) (ht : t.program = p)
    (hi : ∃ x, IndexOf p.functions (Function.compiled x f) arg)
    (hnew : ∀ g : FuncObj, g.module = t.module → g.MadeBy p → New g)
    (hd : (d.hold [.pack size f.freeCount]).Describes a.stack a.iters) :
    Safe New Supplied (Yields s h a (d.push [.any])) (execute t .makeFunc arg a) h := by
  obtain ⟨v, st, hst, hv, hd⟩ := Shape.describes_hold_singleton.1 hd
  simp only [execute, hst]
  refine Safe.bind (safe_makeFunc hp ht hi hv hnew) fun r _ _ he => ?_
  obtain ⟨f, st'⟩ := r
  cases he
  exact .pure (yields_push hb hd trivial)

/-! ### Loads and calls -/

/-- A load replaces names by the members that they name. -/
theorem safe_load {n : Nat} (hn : n < 2 ^ 31)
    (hd : (d.push (.str :: List.replicate n .str)).Describes a.stack a.iters) :
    Safe New Supplied (Yields s h a (d.push (List.replicate n .any)))
      (execute t .load (UInt32.ofNat n) a) h := by
  obtain ⟨_, st, hst, ⟨module, rfl⟩, hd⟩ := Shape.describes_push_cons.1 hd
  obtain ⟨names, st, rfl, hnames, hd⟩ := Shape.describes_push.1 hd
  have hn : (UInt32.ofNat n).toNat = n := toNat_ofNat_of_lt hn
  simp only [execute, hst, pop_bind]
  refine .pure ⟨rfl, rfl, hb, names, st, rfl, ?_, ?_, fun vs hvs => hd.push_any ?_⟩
  · rw [hn, ← hnames.length_eq, List.length_replicate]
  · exact forall_mem_of_replicate hnames
  · rw [hvs, hn]

/-- A call takes its callee and its arguments, and pushes nothing before it returns. -/
theorem safe_call {f : Known} {ks : List Known} (hop : op.isCall = true)
    (hks : ks.length =
      op.extraArguments + 2 * Opcode.namedCount arg + Opcode.positionalCount arg)
    (hnames : Named (Opcode.namedCount arg) (ks.drop op.extraArguments))
    (hd : (d.push (ks ++ [f])).Describes a.stack a.iters) :
    Safe New Supplied (Yields s h a (d.push [.any])) (execute t op arg a) h := by
  rw [← Shape.push_push] at hd
  obtain ⟨vs, st, hst, hvs, hd⟩ := Shape.describes_push.1 hd
  obtain ⟨v, st, rfl, -, hd⟩ := Shape.describes_push_cons.1 hd
  rw [execute_of_isCall hop, hst]
  refine Safe.bind (safe_takeCall hop hvs hks hnames) fun r _ _ he => ?_
  obtain ⟨g, args, kwargs, st'⟩ := r
  cases he
  exact .pure ⟨rfl, rfl, hb, fun v => hd.cons trivial⟩

/-! ### Variables -/

/-- A local that is not captured is stored into its slot. -/
theorem safe_setLocal {k : Known} (hi : s.Declares .frame arg "")
    (hd : (d.push [k]).Describes a.stack a.iters) :
    Safe New Supplied (Yields s h a d) (execute t .setLocal arg a) h := by
  obtain ⟨v, st, hst, hv, hd⟩ := Shape.describes_push_cons.1 hd
  obtain ⟨x, hx⟩ := getElem?_of_declares hb hi (.inl rfl)
  simp only [execute, hst, pop_bind, slot, entry_bind hx]
  exact .pure ⟨rfl, rfl, boxes_setLocal hb hi v, hd⟩

/-- A captured local is stored into its cell. -/
theorem safe_setLocalCell {k : Known} (hi : s.Declares .cell arg "")
    (hd : (d.push [k]).Describes a.stack a.iters) :
    Safe New Supplied (Yields s h a d) (execute t .setLocalCell arg a) h := by
  obtain ⟨v, st, hst, hv, hd⟩ := Shape.describes_push_cons.1 hd
  obtain ⟨r, hr, -⟩ := hb.cell arg hi
  simp only [execute, hst, pop_bind, slotCell_bind hr]
  exact Safe.bind (Safe.modify (Heap.Tolerant.setCell _ _ _)) fun _ _ _ _ =>
    .pure (yields_withStack hb hd)

theorem safe_setGlobal {k : Known} (hlt : arg.toNat < (h.module t.module).globals.size)
    (hd : (d.push [k]).Describes a.stack a.iters) :
    Safe New Supplied (Yields s h a d) (execute t .setGlobal arg a) h := by
  obtain ⟨v, st, hst, hv, hd⟩ := Shape.describes_push_cons.1 hd
  simp only [execute, hst, pop_bind]
  refine Safe.bind (Safe.read _) fun _ _ _ he => ?_
  rw [he, entry_bind (Array.getElem?_eq_getElem hlt)]
  exact Safe.bind (Safe.modify (.setGlobal _ _ _ _)) fun _ _ _ _ => .pure (yields_withStack hb hd)

theorem safe_getLocal (hi : s.Declares .frame arg "") (hdecl : arg.toNat < t.code.locals.size)
    (hd : d.Describes a.stack a.iters) :
    Safe New Supplied (Yields s h a (d.push [.any])) (execute t .getLocal arg a) h := by
  obtain ⟨x, hx⟩ := getElem?_of_declares hb hi (.inl rfl)
  simp only [execute, slot, entry_bind hx]
  cases x with
  | none =>
    rw [declName_bind hdecl]
    exact .fail rfl
  | some v => exact .pure (yields_push hb hd trivial)

/-- The cell of a captured local is held for the making of a function. -/
theorem safe_getCell (hi : s.Declares .cell arg "") (hd : d.Describes a.stack a.iters) :
    Safe New Supplied (Yields s h a (d.hold [.cell])) (execute t .getLocal arg a) h := by
  obtain ⟨r, hr, -⟩ := hb.cell arg hi
  simp only [execute, slot, entry_bind hr]
  exact .pure (yields_hold hb hd ⟨r, rfl⟩)

/-- The cell of a free variable is held for the making of a function. -/
theorem safe_free {r : CellRef} (hr : t.freeVars[arg.toNat]? = some (.cell r))
    (hd : d.Describes a.stack a.iters) :
    Safe New Supplied (Yields s h a (d.hold [.cell])) (execute t .free arg a) h := by
  simp only [execute, entry_bind hr]
  exact .pure (yields_hold hb hd ⟨r, rfl⟩)

/-- A free variable is read from its cell. -/
theorem safe_freeCell {r : CellRef} (hr : t.freeVars[arg.toNat]? = some (.cell r))
    (hdecl : arg.toNat < t.code.freeVars.size) (hd : d.Describes a.stack a.iters) :
    Safe New Supplied (Yields s h a (d.push [.any])) (execute t .freeCell arg a) h := by
  simp only [execute, entry_bind hr, asCell, pure_bind, declName_bind hdecl]
  exact (safe_cellContent r _).bind fun _ _ _ _ => .pure (yields_push hb hd trivial)

/-- A captured local is read from its cell. -/
theorem safe_localCell (hi : s.Declares .cell arg "") (hdecl : arg.toNat < t.code.locals.size)
    (hd : d.Describes a.stack a.iters) :
    Safe New Supplied (Yields s h a (d.push [.any])) (execute t .localCell arg a) h := by
  obtain ⟨r, hr, -⟩ := hb.cell arg hi
  simp only [execute, slotCell_bind hr, declName_bind hdecl]
  exact (safe_cellContent r _).bind fun _ _ _ _ => .pure (yields_push hb hd trivial)

/-- A global is read, or the program is told that it has no value. -/
theorem safe_getGlobal (hlt : arg.toNat < (h.module t.module).globals.size)
    (hdecl : arg.toNat < t.program.globals.size) (hd : d.Describes a.stack a.iters) :
    Safe New Supplied (Yields s h a (d.push [.any])) (execute t .getGlobal arg a) h := by
  simp only [execute]
  refine Safe.bind (Safe.read _) fun _ _ _ he => ?_
  rw [he, entry_bind (Array.getElem?_eq_getElem hlt)]
  cases (h.module t.module).globals[arg.toNat] with
  | none =>
    rw [declName_bind hdecl]
    exact .fail rfl
  | some v => exact .pure (yields_push hb hd trivial)

/-- A predeclared name is found where the host supplies what is declared. -/
theorem safe_predeclared {name : String} (hname : t.program.names[arg.toNat]? = some name)
    (hsupplied : Supplied → ((h.module t.module).predeclared.lookup? name).isSome = true)
    (hd : d.Describes a.stack a.iters) :
    Safe New Supplied (Yields s h a (d.push [.any])) (execute t .predeclared arg a) h := by
  simp only [execute, entry_bind hname]
  refine Safe.bind (Safe.read _) fun v _ _ hv => ?_
  cases v with
  | some v => exact .pure (yields_push hb hd trivial)
  | none =>
    refine ⟨.refl _, fun hs => ?_⟩
    have hsome := hsupplied hs
    rw [← hv] at hsome
    cases hsome

/-- A name that every program sees is found. -/
theorem safe_universal {name : String} (hname : t.program.names[arg.toNat]? = some name)
    (hfound : (Heap.universalEnv.lookup? name).isSome = true) (hd : d.Describes a.stack a.iters) :
    Safe New Supplied (Yields s h a (d.push [.any])) (execute t .universal arg a) h := by
  obtain ⟨v, hv⟩ := Option.isSome_iff_exists.1 hfound
  simp only [execute, entry_bind hname, hv]
  exact .pure (yields_push hb hd trivial)

/-! ### Fields -/

/-- An attribute is looked up by a name of the program. -/
theorem safe_attr {k : Known} {name : String} (hname : t.program.names[arg.toNat]? = some name)
    (hd : (d.push [k]).Describes a.stack a.iters) :
    Safe New Supplied (Yields s h a (d.push [.any])) (execute t .attr arg a) h := by
  obtain ⟨v, st, hst, hv, hd⟩ := Shape.describes_push_cons.1 hd
  simp only [execute, hst, pop_bind, entry_bind hname]
  exact Safe.bind (Safe.of_regular (regular_getAttr v _)) fun _ _ _ _ =>
    .pure (yields_push hb hd trivial)

theorem safe_setField {x y : Known} {name : String}
    (hname : t.program.names[arg.toNat]? = some name)
    (hd : (d.push [y, x]).Describes a.stack a.iters) :
    Safe New Supplied (Yields s h a d) (execute t .setField arg a) h := by
  obtain ⟨v, st, hst, hv, hd⟩ := Shape.describes_push_cons.1 hd
  obtain ⟨w, st, rfl, hw, hd⟩ := Shape.describes_push_cons.1 hd
  simp only [execute, hst, pop2_bind, entry_bind hname]
  exact Safe.bind (Safe.of_regular (regular_setField w _)) fun _ _ _ _ =>
    .pure (yields_withStack hb hd)

end Instructions

/-- An instruction on a stack of its shape, with tables as declared. -/
theorem safe_execute (hm : Moves .full (.of p.pool) s op arg d e) (hp : p.Addressable)
    (ht : t.Serve p code s h) (hb : s.Boxes h a.locals) (hd : d.Describes a.stack a.iters)
    (hdepth : d.depth < 2 ^ 31)
    (hnew : ∀ g : FuncObj, g.module = t.module → g.MadeBy p → New g)
    (hsupplied : Supplied → ∀ name, s.predeclared name →
      ((h.module t.module).predeclared.lookup? name).isSome = true) :
    Safe New Supplied (Yields s h a e) (execute t op arg a) h := by
  have hname : ∀ {name}, IndexOf p.names name arg → t.program.names[arg.toNat]? = some name :=
    fun hi => ht.program_eq ▸ hi.getElem?_eq hp.names
  -- one lemma for each instruction; an operand is looked up where the typing says it is bound
  cases hm with
  | dup _ _ => exact safe_dup hb hd
  | dup2 _ _ _ => exact safe_dup2 hb hd
  | pop _ _ => exact safe_pop hb hd
  | exch _ _ _ => exact safe_exch hb hd
  | push hop _ => exact safe_push hb hop hd
  | mandatory _ => exact .pure (yields_hold hb hd rfl)
  | constant hi _ =>
    exact safe_constant hb (ht.program_eq ▸ IndexOf.getElem?_eq hi hp.constants) hd
  | unary hop _ _ => exact safe_unary hb hop hd
  | binary hop _ _ _ => exact safe_binary hb hop hd
  | slice _ hks _ => exact safe_slice hb hks hd
  | setIndex _ hks _ => exact safe_setIndex hb hks hd
  | makeDict _ => exact safe_makeDict hb hd
  | setDict hop _ _ _ => exact safe_setDict hb hop hd
  | append _ _ => exact safe_append hb hd
  | makeList _ _ => exact safe_makeList hb (Shape.length_lt_of_push hdepth) hd
  | makeTuple _ _ => exact safe_makeTuple hb (Shape.length_lt_of_push hdepth) hd
  | iterPush _ _ => exact safe_iterPush hb hd
  | iterPop _ => exact safe_iterPop hb hd
  | makePack _ _ hcells _ _ =>
    exact safe_makePack hb hcells (Shape.length_lt_of_hold hdepth) hd
  | makeFunc hi _ _ => exact safe_makeFunction hb hp ht.program_eq hi hnew hd
  | load n _ =>
    have hn := Shape.length_lt_of_push hdepth
    rw [List.length_cons, List.length_replicate] at hn
    exact safe_load hb (Nat.lt_of_succ_lt hn) hd
  | call hop _ _ hks hnames _ => exact safe_call hb hop hks (hnames rfl) hd
  | setLocal hi _ _ => exact safe_setLocal hb (hi rfl) hd
  | setLocalCell hi _ _ => exact safe_setLocalCell hb (hi rfl) hd
  | setGlobal hi _ _ => exact safe_setGlobal hb (ht.globals ▸ hi rfl) hd
  | getLocal hi _ => exact safe_getLocal hb (hi rfl) (ht.lt_locals (hi rfl) (.inl rfl)) hd
  | getCell hi _ => exact safe_getCell hb (hi rfl) hd
  | free hi _ =>
    obtain ⟨r, hr⟩ := ht.exists_free (hi rfl)
    exact safe_free hb hr hd
  | freeCell hi _ =>
    obtain ⟨r, hr⟩ := ht.exists_free (hi rfl)
    exact safe_freeCell hb hr (ht.code_eq ▸ ht.covers.free ▸ hi rfl) hd
  | localCell hi _ => exact safe_localCell hb (hi rfl) (ht.lt_locals (hi rfl) (.inr rfl)) hd
  | getGlobal hi _ =>
    exact safe_getGlobal hb (ht.globals ▸ hi rfl) (ht.program_eq ▸ ht.covers.globals ▸ hi rfl) hd
  | predeclared hi hdecl _ =>
    exact safe_predeclared hb (hname hi) (fun hs => hsupplied hs _ (hdecl rfl)) hd
  | universal hi hdecl _ => exact safe_universal hb (hname hi) (hdecl rfl) hd
  | attr hi _ _ => exact safe_attr hb (hname hi) hd
  | setField hi _ _ _ => exact safe_setField hb (hname hi) hd

end Activation

end Starlark
