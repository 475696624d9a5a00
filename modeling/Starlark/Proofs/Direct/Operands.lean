import Starlark.Proofs.Direct.Performing

/-!
# Instructions and operands

What the instructions of an expression do to the operand stack (`Opcode.Acts`), how variables are
looked up and stored, and how a call takes its arguments from the stack.
-/

set_option autoImplicit false

namespace Starlark

/-- An instruction does an operation with values of the stack, which leaves another stack. -/
inductive Opcode.Acts : Opcode → {α : Type} → List Value → Op α → (α → List Value) → Prop where
  | dup (v : Value) (st : List Value) : Acts .dup (v :: st) (pure ()) fun _ => v :: v :: st
  | dup2 (v w : Value) (st : List Value) :
      Acts .dup2 (w :: v :: st) (pure ()) fun _ => w :: v :: w :: v :: st
  | pop (v : Value) (st : List Value) : Acts .pop (v :: st) (pure ()) fun _ => st
  | exch (v w : Value) (st : List Value) : Acts .exch (w :: v :: st) (pure ()) fun _ => v :: w :: st
  | pushNone (st : List Value) : Acts .pushNone st (pure ()) fun _ => .null :: st
  | unary (o : UnaryOp) (v : Value) (st : List Value) :
      Acts (Build.unaryOpcode o) (v :: st) (Op.check fun h => h.unary o v) (· :: st)
  | binary {op : Opcode} {o : BinOp} (h : op.binOp? = some o) (v w : Value) (st : List Value) :
      Acts op (w :: v :: st) (Op.binary o v w) (· :: st)
  | inplaceAdd (v w : Value) (st : List Value) :
      Acts .inplaceAdd (w :: v :: st) (Op.inplaceAdd v w) (· :: st)
  | inplacePipe (v w : Value) (st : List Value) :
      Acts .inplacePipe (w :: v :: st) (Op.inplacePipe v w) (· :: st)
  | index (v k : Value) (st : List Value) :
      Acts .index (k :: v :: st) (Op.check fun h => h.getIndex v k) (· :: st)
  | slice (v lo hi step : Value) (st : List Value) :
      Acts .slice (step :: hi :: lo :: v :: st) (Op.slice v lo hi step) (· :: st)
  | setIndex (v k w : Value) (st : List Value) :
      Acts .setIndex (w :: k :: v :: st) (Op.setIndex v k w) fun _ => st
  | makeDict (st : List Value) :
      Acts .makeDict st (Op.make fun h => h.newDict #[]) (.dict · :: st)
  | setDict (r : DictRef) (k v : Value) (st : List Value) :
      Acts .setDict (v :: k :: .dict r :: st) (Op.insert r k v) fun _ => st
  | setDictUniq (r : DictRef) (k v : Value) (st : List Value) :
      Acts .setDictUniq (v :: k :: .dict r :: st) (Eval.insertNew r k v) fun _ => st
  | append (r : ListRef) (v : Value) (st : List Value) :
      Acts .append (v :: .list r :: st) (Op.append r v) fun _ => st

namespace Opcode

/-- A binary operator does not jump. -/
theorem isCondJump_of_binOp? {op : Opcode} {o : BinOp} (h : op.binOp? = some o) :
    op.isCondJump = false := by
  cases op <;> first | rfl | cases h

/-- A binary operator takes two values and pushes its result. -/
theorem execute_of_binOp? {op : Opcode} {o : BinOp} (h : op.binOp? = some o) (t : Tables)
    (arg : UInt32) (a : Activation) : a.execute t op arg = (do
      let (y, x, st) ← Op.pop2 a.stack
      return a.push st (← Op.binary o x y)) := by
  cases op <;> first | (cases h; rfl) | cases h

variable {α : Type} {op : Opcode} {st : List Value} {x : Op α} {f : α → List Value}

theorem Acts.isCondJump (h : op.Acts st x f) : op.isCondJump = false := by
  cases h with
  | unary o => cases o <;> rfl
  | binary h => exact isCondJump_of_binOp? h
  | _ => rfl

/-- An instruction that acts does so on the values that lie on the stack. -/
theorem Acts.execute_eq (h : op.Acts st x f) (t : Tables) {a : Activation} (ha : a.stack = st) :
    a.execute t op 0 = (do let r ← x; return .proceed { a with stack := f r }) := by
  cases h with
  | unary o =>
    cases o <;>
    · simp only [Activation.execute, Build.unaryOpcode, ha]
      rfl
  | binary h =>
    rw [execute_of_binOp? h, ha]
    rfl
  | setDictUniq r k v st =>
    simp only [Activation.execute, ha, Eval.insertNew]
    rw [bind_assoc]
    congr
    funext isNew
    cases isNew <;> rfl
  | _ =>
    simp only [Activation.execute, ha]
    rfl

end Opcode

namespace Op

/-- Values that were pushed one after another. -/
theorem popMany_reverse (vs st : List Value) : popMany vs.length (vs.reverse ++ st) =
    pure (vs, st) := by
  rw [popMany_append (List.length_reverse), List.reverse_reverse]

/-- A named argument takes two places. -/
theorem length_alternating (kvs : Keywords) : (alternating kvs).length = 2 * kvs.length := by
  induction kvs with
  | nil => rfl
  | cons kv kvs ih =>
    rw [alternating, List.flatMap_cons, List.length_append, ← alternating, ih, List.length_cons]
    simp only [List.length_cons, List.length_nil]
    omega

/-- Names and values are paired as they were pushed. -/
theorem namedArguments_alternating (kvs : Keywords) :
    namedArguments (alternating kvs) = pure kvs := by
  induction kvs with
  | nil => rfl
  | cons kv kvs ih =>
    have hstep : namedArguments (alternating (kv :: kvs)) =
        (do return (kv.1, kv.2) :: (← namedArguments (alternating kvs))) := rfl
    rw [hstep, ih, pure_bind]

/-- The counted arguments are taken off as they were pushed. -/
theorem takeCounted_eq {arg : UInt32} {positional : List Value} {named : Keywords}
    (hp : Opcode.positionalCount arg = positional.length)
    (hn : Opcode.namedCount arg = named.length) (star kw : Option Value) (f : Value)
    (st : List Value) :
    takeCounted arg star kw ((alternating named).reverse ++ (positional.reverse ++ f :: st)) = (do
      let extra ← extraKeywords kw
      let rest ← extraArguments star
      return (f, positional ++ rest, named ++ extra, st)) := by
  rw [takeCounted, hp, hn, ← length_alternating, popMany_reverse, pure_bind]
  simp only [namedArguments_alternating, popMany_reverse, pure_bind]
  rfl

/-- What a call is made of is taken off as it was pushed. -/
theorem takeCall_eq {arg : UInt32} {positional : List Value} {named : Keywords}
    (hp : Opcode.positionalCount arg = positional.length)
    (hn : Opcode.namedCount arg = named.length) (star kw : Option Value) (f : Value)
    (st : List Value) :
    takeCall (Build.callOpcode star.isSome kw.isSome) arg
      (kw.toList ++
          (star.toList ++ ((alternating named).reverse ++ (positional.reverse ++ f :: st)))) =
      (do
        let extra ← extraKeywords kw
        let rest ← extraArguments star
        return (f, positional ++ rest, named ++ extra, st)) := by
  rw [← takeCounted_eq hp hn]
  cases star <;> cases kw <;> rfl

end Op

namespace Running

variable {p : Program} {predeclared : String → Prop} {R : Running p predeclared} {α : Type}
  {loops : List Loop} {base : Option (List Value)} {its : List Iter} {s : Scene} {q q' : Point}
  {lo hi : Nat} {st : List Value}

/-- An instruction acts as the operation does. -/
theorem Visits.act {op : Opcode} {x : Op α} {f : α → List Value} (hv : R.Visits q st its s)
    (hi : R.code.graph.InsnAt q op 0) (hop : op.Acts st x f) :
    R.Shows loops base its (fun r s => R.Visits q.next (f r) its s) (Eval.op x s) :=
  hv.operate hi hop.isCondJump (fun _ => rfl) fun _ _ ha => hop.execute_eq R.tables ha

/-- An instruction that only moves values. -/
theorem Visits.shift {op : Opcode} {f : Unit → List Value} (hv : R.Visits q st its s)
    (hi : R.code.graph.InsnAt q op 0) (hop : op.Acts st (pure ()) f) :
    R.Visits q.next (f ()) its s := by
  have hshows : R.Shows [] none its (fun r s => R.Visits q.next (f r) its s)
      (Eval.op (pure ()) s) := hv.act hi hop
  exact hshows

/-- A constant is pushed. -/
theorem Visits.const {c : Constant} (hv : R.Visits q st its s)
    (hat : (Plan.const c).At p.pool R.code.graph loops q lo q' hi) :
    R.Visits q' (c.value :: st) its s := by
  obtain ⟨i, hindex, hinsn, rfl, rfl⟩ := hat
  have hc : p.constants[i.toNat]? = some c := hindex.getElem?_eq R.addressable.constants
  have hshows : R.Shows [] none its (fun _ s => R.Visits q.next (c.value :: st) its s)
      (Eval.op (pure ()) s) := by
    refine hv.operate hinsn rfl (fun hno => by cases hno) fun _ a ha => ?_
    simp only [Activation.execute, Op.entry, tables, hc, ha]
    rfl
  exact hshows

/-- The count of a display fits. -/
theorem popMany_display {vs : List Value} (hlt : (vs.reverse ++ st).length < 2 ^ 31) :
    Op.popMany (UInt32.ofNat vs.length).toNat (vs.reverse ++ st) = pure (vs, st) := by
  rw [List.length_append, List.length_reverse] at hlt
  rw [toNat_ofNat_of_lt (by omega), Op.popMany_reverse]

/-- A list is made of the values that were pushed. -/
theorem Visits.makeList {vs : List Value} (hv : R.Visits q (vs.reverse ++ st) its s)
    (hat : (Plan.arg .makeList (UInt32.ofNat vs.length)).At p.pool R.code.graph loops q lo q' hi) :
    R.Shows loops base its (fun v s => R.Visits q' (v :: st) its s)
      (Eval.op (Op.make fun h => h.newList vs.toArray) s) := by
  obtain ⟨hinsn, rfl, rfl⟩ := hat
  refine hv.operate hinsn rfl (fun hno => by cases hno) fun hlt a ha => ?_
  simp only [Activation.execute, ha, popMany_display hlt]
  rfl

/-- A tuple is made of the values that were pushed. -/
theorem Visits.makeTuple {vs : List Value} (hv : R.Visits q (vs.reverse ++ st) its s)
    (hat : (Plan.arg .makeTuple (UInt32.ofNat vs.length)).At p.pool R.code.graph loops q lo q' hi) :
    R.Visits q' (.tuple vs :: st) its s := by
  obtain ⟨hinsn, rfl, rfl⟩ := hat
  have hshows : R.Shows [] none its (fun _ s => R.Visits q.next (.tuple vs :: st) its s)
      (Eval.op (pure ()) s) := by
    refine hv.operate hinsn rfl (fun hno => by cases hno) fun hlt a ha => ?_
    simp only [Activation.execute, ha, popMany_display hlt]
    rfl
  exact hshows

/-- An empty list is made. -/
theorem Visits.emptyList (hv : R.Visits q st its s) (hinsn : R.code.graph.InsnAt q .makeList 0) :
    R.Shows loops base its (fun r s => R.Visits q.next (.list r :: st) its s)
      (Eval.op Eval.emptyList s) := by
  refine hv.operate hinsn rfl (fun hno => by cases hno) fun _ a ha => ?_
  simp only [Activation.execute, ha]
  rfl

/-! ## Unpacking -/

/-- An instruction that is visited is placed. -/
theorem Visits.placed {op : Opcode} {arg : UInt32} (hv : R.Visits q st its s)
    (hinsn : R.code.graph.InsnAt q op arg) : q.block ∈ R.code.layout.order.toList := by
  obtain ⟨-, -, -, pc, henters, -⟩ := hv
  obtain ⟨_, _, _, hplaced, -⟩ := henters.slides hinsn
  exact hplaced

/-- The count of an unpacking fits, since its targets are typed. -/
theorem Visits.unpack {v : Value} {n : Nat} {targets : Plan} {d d' : Shape}
    (hv : R.Visits q (v :: st) its s)
    (hat : (Plan.unpack n targets).At p.pool R.code.graph loops q lo q' hi)
    (htyped : (Plan.unpack n targets).Typed (shapeTyping .full (.of p.pool)) R.code.scopes
    none d d') :
    R.Shows loops base its (fun vs s => vs.length = n ∧ R.Visits q.next (vs ++ st) its s)
      (Eval.op (Op.unpack v n) s) := by
  have hlt : n < 2 ^ 31 := Annotates.unpack_lt (covers_of .full p.pool)
    (measures_shapeTyping .full _) R.code.annotates R.code.leveled
    (R.code.reached (hv.placed hat.1)) hat.1 ⟨loops, none, targets, lo, q', hi, d, d', hat, htyped⟩
  have hshows : R.Shows loops base its (fun vs s => R.Visits q.next (vs ++ st) its s)
      (Eval.op (Op.unpack v n) s) := by
    refine hv.operate hat.1 rfl (fun hno => by cases hno) fun _ a ha => ?_
    simp only [Activation.execute, ha, toNat_ofNat_of_lt hlt]
    rfl
  -- where it succeeds, the values are as many as the targets
  have hsafe : Op.Safe (fun _ => False) False (fun vs => vs.length = n) (Op.unpack v n) s.heap :=
    Op.safe_unpack v n
  unfold Op.Safe at hsafe
  unfold Eval.op at hshows ⊢
  cases hr : Op.unpack v n s.heap with
  | ok vs h =>
    rw [hr] at hsafe hshows
    exact ⟨hsafe.2, hshows⟩
  | error e h =>
    rw [hr] at hshows
    cases e <;> exact hshows

/-! ## Fields -/

/-- An attribute is looked up by its name. -/
theorem Visits.attr {v : Value} {name : String} {i : UInt32} (hv : R.Visits q (v :: st) its s)
    (hinsn : R.code.graph.InsnAt q .attr i) (hindex : IndexOf p.pool.names name i) :
    R.Shows loops base its (fun w s => R.Visits q.next (w :: st) its s)
      (Eval.op (Op.getAttr v name) s) := by
  have hname : p.names[i.toNat]? = some name := hindex.getElem?_eq R.addressable.names
  refine hv.operate hinsn rfl (fun hno => by cases hno) fun _ a ha => ?_
  simp only [Activation.execute, Op.entry, tables, hname, ha]
  rfl

/-- A field is set by its name, or the value has none. -/
theorem Visits.setField {v w : Value} {name : String} {i : UInt32}
    (hv : R.Visits q (w :: v :: st) its s) (hinsn : R.code.graph.InsnAt q .setField i)
    (hindex : IndexOf p.pool.names name i) :
    R.Shows loops base its (fun _ s => R.Visits q.next st its s)
      (Eval.op (Op.setField v name) s) := by
  have hname : p.names[i.toNat]? = some name := hindex.getElem?_eq R.addressable.names
  refine hv.operate hinsn rfl (fun hno => by cases hno) fun _ a ha => ?_
  simp only [Activation.execute, Op.entry, tables, hname, ha]
  rfl

/-! ## Calls -/

/-- What answers a call shows its outcome. -/
theorem Answers.shows {r : EStateM.Result Exit Scene Value} (h : R.Answers q st its r) :
    R.Shows loops base its (fun v s => R.Visits q (v :: st) its s) r := by
  match r with
  | .ok v s => exact h
  | .error (.leave isBreak) s => exact False.elim h
  | .error (.ret v) s => exact False.elim h
  | .error (.error e) s => exact h
  | .error (.lost why) s => exact h

/-- A call whose arguments are taken from the stack and the heap. -/
theorem Visits.invoke (hcallers : R.callers = []) {op : Opcode} {arg : UInt32}
    {x : Op (List Value × Keywords)} {f : Value}
    {below : List Value} (hv : R.Visits q st its s) (hi : R.code.graph.InsnAt q op arg)
    (hop : op.isCondJump = false) (harg : op.hasArg = false → arg = 0)
    (hx : ∀ a : Activation, a.stack = st → a.execute R.tables op arg =
      (do let r ← x; return .call { a with stack := below } f r.1 r.2)) :
    R.Shows loops base its (fun v s => R.Visits q.next (v :: below) its s)
      ((do let r ← Eval.op x; Eval.call f r.1 r.2) s) := by
  obtain ⟨a, hl, hst, rfl, -, hfollows⟩ := hv.execute hi hop harg
  rw [hx a hst, bind_apply] at hfollows
  rw [bind_apply]
  unfold Eval.op
  -- where the arguments cannot be read the call is never made
  cases hr : x s.heap with
  | ok r h =>
    rw [hr] at hfollows
    have hasks := hfollows rfl rfl
    rw [hl] at hasks
    exact (hasks.answers hcallers).shows
  | error e h =>
    rw [hr] at hfollows
    cases e with
    | error e => exact hfollows
    | abort x => exact hfollows

/-! ## Variables -/

end Running

/-- The surroundings of an evaluation are those of a run. -/
structure Surroundings.Around {p : Program} {predeclared : String → Prop} (c : Surroundings)
    (R : Running p predeclared) : Prop where
  module : c.module = R.func.module
  locals : c.locals = R.body.locals
  globals : c.globals = p.globals
  /-- The function has no free variables. -/
  free : R.code.scopes.free = 0
  /-- The function is the outermost call. -/
  callers : R.callers = []

namespace Running

section

variable {p : Program} {predeclared : String → Prop} {R : Running p predeclared} {c : Surroundings}
  {heap : Heap} {thread : Thread} {a : Activation}

theorem echoes_getLocal (hc : c.Around R) {id : Ident} (hid : id.scope = .frame) :
    Echoes ⟨heap, thread, a.locals⟩ a (· :: a.stack) (a.execute R.tables .getLocal id.index heap)
      (Eval.lookup c id ⟨heap, thread, a.locals⟩) := by
  simp only [Activation.execute, Eval.lookup, hid, Op.slot, Eval.slot, Op.entry, Op.declName,
    hc.locals, tables, bind_apply]
  cases a.locals[id.index.toNat]? with
  | none => exact .abort _ _
  | some v =>
    cases v with
    | some v => exact .proceed v ⟨heap, thread, a.locals⟩ rfl
    | none =>
      cases R.body.locals[id.index.toNat]? with
      | none => exact .abort _ _
      | some d => exact .error _ _

theorem echoes_localCell (hc : c.Around R) {id : Ident} (hid : id.scope = .cell) :
    Echoes ⟨heap, thread, a.locals⟩ a (· :: a.stack) (a.execute R.tables .localCell id.index heap)
      (Eval.lookup c id ⟨heap, thread, a.locals⟩) := by
  simp only [Activation.execute, Eval.lookup, hid, Op.slotCell, Eval.slotCell, Op.slot, Eval.slot,
    Op.entry, Op.declName, hc.locals, tables, bind_apply]
  cases a.locals[id.index.toNat]? with
  | none => exact .abort _ _
  | some v =>
    cases v with
    | none => exact .error _ _
    | some v =>
      cases v with
      | cell r =>
        cases R.body.locals[id.index.toNat]? with
        | none => exact .abort _ _
        | some d => exact echoes_op (Op.cellContent r d.name) (· :: a.stack) a heap thread
      | _ => exact .error _ _

theorem echoes_getGlobal (hc : c.Around R) {id : Ident} (hid : id.scope = .global) :
    Echoes ⟨heap, thread, a.locals⟩ a (· :: a.stack) (a.execute R.tables .getGlobal id.index heap)
      (Eval.lookup c id ⟨heap, thread, a.locals⟩) := by
  simp only [Activation.execute, Eval.lookup, hid, Eval.globalSlot, Eval.op, Op.read, Op.entry,
    Op.declName, hc.module, hc.globals, tables, bind_apply]
  cases (heap.module R.func.module).globals[id.index.toNat]? with
  | none => exact .abort _ _
  | some v =>
    cases v with
    | some v => exact .proceed v ⟨heap, thread, a.locals⟩ rfl
    | none =>
      cases p.globals[id.index.toNat]? with
      | none => exact .abort _ _
      | some d => exact .error _ _

theorem echoes_predeclared (hc : c.Around R) {id : Ident} (hid : id.scope = .predeclared)
    {i : UInt32} (hi : IndexOf p.pool.names id.name i) :
    Echoes ⟨heap, thread, a.locals⟩ a (· :: a.stack) (a.execute R.tables .predeclared i heap)
      (Eval.lookup c id ⟨heap, thread, a.locals⟩) := by
  have hname : p.names[i.toNat]? = some id.name := hi.getElem?_eq R.addressable.names
  simp only [Activation.execute, Eval.lookup, hid, Eval.op, Op.read, Op.entry, hc.module, tables,
    hname, bind_apply, pure_apply]
  cases (heap.module R.func.module).predeclared.lookup? id.name with
  | some v => exact .proceed v ⟨heap, thread, a.locals⟩ rfl
  | none => exact .error _ _

theorem echoes_universal {id : Ident} (hid : id.scope = .universal) {i : UInt32}
    (hi : IndexOf p.pool.names id.name i) :
    Echoes ⟨heap, thread, a.locals⟩ a (· :: a.stack) (a.execute R.tables .universal i heap)
      (Eval.lookup c id ⟨heap, thread, a.locals⟩) := by
  have hname : p.names[i.toNat]? = some id.name := hi.getElem?_eq R.addressable.names
  simp only [Activation.execute, Eval.lookup, hid, Op.entry, tables, hname, bind_apply, pure_apply]
  cases Heap.universalEnv.lookup? id.name with
  | some v => exact .proceed v ⟨heap, thread, a.locals⟩ rfl
  | none => exact .error _ _

theorem echoes_setLocal {id : Ident} (hid : id.scope = .frame) {v : Value} {st : List Value}
    (ha : a.stack = v :: st) :
    Echoes ⟨heap, thread, a.locals⟩ a (fun _ => st) (a.execute R.tables .setLocal id.index heap)
      (Eval.store c id v ⟨heap, thread, a.locals⟩) := by
  simp only [Activation.execute, Eval.store, hid, Eval.setSlot, Op.slot, Eval.slot, Op.entry, ha,
    Op.pop, bind_apply]
  cases a.locals[id.index.toNat]? with
  | none => exact .abort _ _
  | some w => exact .proceed () ⟨heap, thread, a.locals.setIfInBounds id.index.toNat (some v)⟩ rfl

theorem echoes_setLocalCell {id : Ident} (hid : id.scope = .cell) {v : Value} {st : List Value}
    (ha : a.stack = v :: st) :
    Echoes ⟨heap, thread, a.locals⟩ a (fun _ => st)
      (a.execute R.tables .setLocalCell id.index heap)
      (Eval.store c id v ⟨heap, thread, a.locals⟩) := by
  simp only [Activation.execute, Eval.store, hid, Op.slotCell, Eval.slotCell, Op.slot, Eval.slot,
    Op.entry, ha, Op.pop, bind_apply]
  cases a.locals[id.index.toNat]? with
  | none => exact .abort _ _
  | some w =>
    cases w with
    | none => exact .error _ _
    | some w =>
      cases w with
      | cell r => exact .proceed () ⟨heap.setCell r v, thread, a.locals⟩ rfl
      | _ => exact .error _ _

theorem echoes_setGlobal (hc : c.Around R) {id : Ident} (hid : id.scope = .global) {v : Value}
    {st : List Value} (ha : a.stack = v :: st) :
    Echoes ⟨heap, thread, a.locals⟩ a (fun _ => st) (a.execute R.tables .setGlobal id.index heap)
      (Eval.store c id v ⟨heap, thread, a.locals⟩) := by
  simp only [Activation.execute, Eval.store, hid, Eval.globalSlot, Eval.op, Op.read, Op.entry,
    hc.module, tables, ha, Op.pop, bind_apply, pure_apply]
  cases (heap.module R.func.module).globals[id.index.toNat]? with
  | none => exact .abort _ _
  | some w =>
    exact .proceed () ⟨heap.setGlobal R.func.module id.index.toNat v, thread, a.locals⟩ rfl

end

end Running

section

variable {p : Program} {predeclared : String → Prop} {R : Running p predeclared} {c : Surroundings}
  {base : Option (List Value)} {st : List Value}

theorem Eval.op_notIn (v w : Value) : Eval.op (Op.binary .notIn v w) = (do
    let b ← Eval.op (Op.binary .isIn v w)
    Eval.op (Op.check fun h => h.unary .not b)) := by
  funext s
  simp only [bind_apply, Eval.op, Op.binary, Op.check]
  cases s.heap.contains w v <;> rfl

/-- The second operand of `and` and `or` is evaluated unless the first is `stopIf`. -/
theorem Plan.Performs.short (stopIf : Bool) {x y : Plan} {m n : Eval Value}
    {k : Value → Bool → Eval Value} (hx : x.Performs R none st m (· :: st))
    (hy : y.Performs R none st n (· :: st)) (hstop : ∀ v, k v stopIf = pure v)
    (hgo : ∀ v, k v (!stopIf) = n) :
    (Plan.short stopIf x y).Performs R none st (do let v ← m; k v (← Eval.truth v)) (· :: st) := by
  rintro loops q lo q' hi its s ⟨_, _, q₁, hat, hdup, hbr, hpop, haty, hend, rfl⟩ hv
  refine (hx hat hv).bind fun v s hv => ?_
  -- the jump tests a copy of the first operand, which stays for the result
  have hv := (hv.shift hdup (.dup v st)).cjmp hbr
  rw [bind_apply, Eval.truth_apply]
  dsimp only
  by_cases htruth : s.heap.truth v = stopIf
  · rw [htruth, hstop]
    rw [htruth] at hv
    cases stopIf <;> exact hv
  · have htruth : s.heap.truth v = !stopIf := by
      cases stopIf <;> simpa using htruth
    rw [htruth, hgo]
    rw [htruth] at hv
    have hv : R.Visits ⟨lo + 1, 0⟩ (v :: st) its s := by
      cases stopIf <;> exact hv
    exact (hy haty (hv.shift hpop (.pop v st))).mono fun w s hv => hv.ends hend

namespace Lowering

theorem performs_lookup (hc : c.Around R) {id : Ident} (hbound : id.scope ≠ .free) :
    (lookup id).Performs R base st (Eval.lookup c id) (· :: st) := by
  -- one instruction for each scope; a free name has none here
  intro loops q lo q' hi its s hat hv
  unfold lookup at hat
  split at hat
  · rename_i hid
    obtain ⟨_, _, ⟨rfl, rfl⟩, hinsn, rfl, rfl⟩ := hat
    refine hv.echo hinsn rfl (fun hno => by cases hno) fun a ha _ => ?_
    subst ha
    exact Running.echoes_getLocal hc hid
  · rename_i hid
    exact absurd hid hbound
  · rename_i hid
    obtain ⟨_, _, ⟨rfl, rfl⟩, hinsn, rfl, rfl⟩ := hat
    refine hv.echo hinsn rfl (fun hno => by cases hno) fun a ha _ => ?_
    subst ha
    exact Running.echoes_localCell hc hid
  · rename_i hid
    obtain ⟨_, _, ⟨rfl, rfl⟩, hinsn, rfl, rfl⟩ := hat
    refine hv.echo hinsn rfl (fun hno => by cases hno) fun a ha _ => ?_
    subst ha
    exact Running.echoes_getGlobal hc hid
  · rename_i hid
    obtain ⟨_, _, ⟨rfl, rfl⟩, i, hindex, hinsn, rfl, rfl⟩ := hat
    refine hv.echo hinsn rfl (fun hno => by cases hno) fun a ha _ => ?_
    subst ha
    exact Running.echoes_predeclared hc hid hindex
  · rename_i hid
    obtain ⟨i, hindex, hinsn, rfl, rfl⟩ := hat
    refine hv.echo hinsn rfl (fun hno => by cases hno) fun a ha _ => ?_
    subst ha
    exact Running.echoes_universal hid hindex

theorem performs_store (hc : c.Around R) (id : Ident) (v : Value) :
    (store id).Performs R base (v :: st) (Eval.store c id v) fun _ => st := by
  intro loops q lo q' hi its s hat hv
  unfold store at hat
  split at hat
  · rename_i hid
    obtain ⟨hinsn, rfl, rfl⟩ := hat
    exact hv.echo hinsn rfl (fun hno => by cases hno) fun a ha _ => Running.echoes_setLocal hid ha
  · rename_i hid
    obtain ⟨hinsn, rfl, rfl⟩ := hat
    exact hv.echo hinsn rfl (fun hno => by cases hno) fun a ha _ =>
        Running.echoes_setLocalCell hid ha
  · rename_i hid
    obtain ⟨hinsn, rfl, rfl⟩ := hat
    exact hv.echo hinsn rfl (fun hno => by cases hno) fun a ha _ =>
        Running.echoes_setGlobal hc hid ha
  · cases hat

/-! ## Operators -/

theorem performs_binaryOp (pos : Position) (o : BinOp) (v w : Value) :
    (binaryOp pos o).Performs R base (w :: v :: st) (Eval.op (Op.binary o v w)) (· :: st) := by
  rintro loops q lo q' hi its s ⟨_, _, ⟨rfl, rfl⟩, hat⟩ hv
  cases o with
  | and => cases hat
  | or => cases hat
  | notIn =>
    obtain ⟨_, _, ⟨hin, rfl, rfl⟩, hnot, rfl, rfl⟩ := hat
    rw [Eval.op_notIn]
    exact (hv.act hin (.binary rfl v w st)).bind fun b s hv => hv.act hnot (.unary .not b st)
  | _ =>
    obtain ⟨hinsn, rfl, rfl⟩ := hat
    exact hv.act hinsn (.binary rfl v w st)

theorem performs_augmentedOp (pos : Position) (o : BinOp) (v w : Value) :
    (augmentedOp pos o).Performs R base (w :: v :: st) (Eval.op (Eval.augmented o v w))
        (· :: st) := by
  cases o with
  | plus =>
    rintro loops q lo q' hi its s ⟨_, _, ⟨rfl, rfl⟩, hinsn, rfl, rfl⟩ hv
    exact hv.act hinsn (.inplaceAdd v w st)
  | pipe =>
    rintro loops q lo q' hi its s ⟨_, _, ⟨rfl, rfl⟩, hinsn, rfl, rfl⟩ hv
    exact hv.act hinsn (.inplacePipe v w st)
  | _ =>
    simp only [augmentedOp, Eval.augmented]
    exact performs_binaryOp pos _ v w

/-! ## Calls -/

theorem performs_callWith (hcallers : R.callers = []) {as : List Arg} (pos : Position)
    {positional : List Value}
    {named : Keywords} {star kw : Option Value} (hp : positional.length = (Arg.counts as).1)
    (hn : named.length = (Arg.counts as).2) (hstar : star.isSome = Arg.anyStar as)
    (hkw : kw.isSome = Arg.anyStarStar as) (f : Value) :
    (callWith as pos).Performs R base
      (kw.toList ++ (star.toList ++
        ((Op.alternating named).reverse ++ (positional.reverse ++ f :: st))))
      (do
        let extra ← Eval.op (Op.extraKeywords kw)
        let rest ← Eval.op (Op.extraArguments star)
        Eval.call f (positional ++ rest) (named ++ extra)) (· :: st) := by
  intro loops q lo q' hi its s hat hv
  unfold callWith at hat
  split at hat
  · cases hat
  · rename_i hfew
    obtain ⟨_, _, ⟨rfl, rfl⟩, hinsn, rfl, rfl⟩ := hat
    obtain ⟨hpc, hnc⟩ := counts_callOperand (show (Arg.counts as).1 ≤ 255 by omega)
      (show (Arg.counts as).2 ≤ 255 by omega)
    rw [← hstar, ← hkw] at hinsn
    obtain ⟨hcall, hplain, hhas⟩ := callOpcode_isCall star.isSome kw.isSome
    -- the evaluation as one operation followed by the call, which is how the instruction does it
    have hargs : (do
        let extra ← Eval.op (Op.extraKeywords kw)
        let rest ← Eval.op (Op.extraArguments star)
        Eval.call f (positional ++ rest) (named ++ extra)) = (do
        let r ← Eval.op (do
          let extra ← Op.extraKeywords kw
          let rest ← Op.extraArguments star
          return (positional ++ rest, named ++ extra))
        Eval.call f r.1 r.2) := by
      simp only [Eval.op_bind, Eval.op_pure, bind_assoc, pure_bind]
    rw [hargs]
    have hjump : (Build.callOpcode star.isSome kw.isSome).isCondJump = false := by
      revert hcall
      cases Build.callOpcode _ _ <;> decide
    refine hv.invoke hcallers hinsn hjump (fun hno => by rw [hhas] at hno; cases hno) fun a ha => ?_
    rw [Activation.execute_of_isCall hcall, ha, Op.takeCall_eq (by omega) (by omega)]
    simp only [bind_assoc, pure_bind]

end Lowering

end

end Starlark
