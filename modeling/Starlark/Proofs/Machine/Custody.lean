import Starlark.Proofs.Machine.Executing

/-!
# Parts of functions on the operand stack

While a function is being made, cells and mandatory marks are on the operand stack, and then a tuple
of them. `Opcode.Accepts` and `Opcode.Gives` say which instructions take such values from the stack
and which put them there: only those that pack the tuple, and the one that makes a function of it.
What an instruction finds on a stack of its shape it accepts (`Moves.accepts`), and the operations
that instructions are made of keep a discreet heap.
-/

set_option autoImplicit false

namespace Starlark

/-! ## Values on the stack -/

/-- What a function is packed of. -/
def Value.IsPart (v : Value) : Prop := v.IsDefault ∨ v.IsCell

/-- The tuple that a function is made of: its defaults and then its cells. -/
def Value.IsPack (v : Value) : Prop :=
  ∃ defaults captured, v = .tuple (defaults ++ captured) ∧ (∀ x ∈ defaults, x.IsDefault) ∧
    ∀ x ∈ captured, x.IsCell

/-- What can be on an operand stack. -/
def Value.IsOperand (v : Value) : Prop := v.IsPart ∨ v.IsPack

namespace Opcode

/-- The number of values that an instruction takes from the operand stack. -/
def takes (op : Opcode) (arg : UInt32) : Nat :=
  match op with
  | .dup | .pop | .uplus | .uminus | .tilde | .not | .iterPush | .ret | .cjmp | .makeFunc
  | .setLocal | .setGlobal | .setLocalCell | .attr | .unpack => 1
  | .dup2 | .exch | .index | .inplaceAdd | .inplacePipe | .append | .setField => 2
  | .setIndex | .setDict | .setDictUniq => 3
  | .slice => 4
  | .makeTuple | .makeList => arg.toNat
  | .load => arg.toNat + 1
  | .call | .callVar | .callKw | .callVarKw =>
    op.extraArguments + 2 * namedCount arg + positionalCount arg + 1
  | op => if op.binOp?.isSome then 2 else 0

/-- What an instruction takes beside values that scripts may see. -/
def Accepts (op : Opcode) (v : Value) : Prop :=
  v.Visible ∨ match op with
    | .makeTuple => v.IsPart
    | .makeFunc => v.IsPack
    | _ => False

/-- What an instruction puts on the stack beside values that scripts may see. -/
def Gives (op : Opcode) (v : Value) : Prop :=
  v.Visible ∨ match op with
    | .mandatory => v = .mandatory
    | .getLocal | .free => v.IsCell
    | .makeTuple => v.IsPack
    | _ => False

/-- An instruction turns one operand stack into another. -/
def Leaves (op : Opcode) (arg : UInt32) (st st' : List Value) : Prop :=
  ∃ pushed, st' = pushed ++ st.drop (op.takes arg) ∧ ∀ v ∈ pushed, op.Gives v

variable {op : Opcode} {arg : UInt32} {st rest : List Value}

theorem takes_of_isPush (h : op.isPush = true) (arg : UInt32) : op.takes arg = 0 := by
  cases op <;> first | rfl | cases h

theorem takes_of_isUnary (h : op.isUnary = true) (arg : UInt32) : op.takes arg = 1 := by
  cases op <;> first | rfl | cases h

theorem takes_of_isBinary (h : op.isBinary = true) (arg : UInt32) : op.takes arg = 2 := by
  cases op <;> first | rfl | cases h

/-- A call takes the callee, the arguments and what is expanded. -/
theorem takes_of_isCall (h : op.isCall = true) (arg : UInt32) :
    op.takes arg = op.extraArguments + 2 * namedCount arg + positionalCount arg + 1 := by
  cases op <;> first | rfl | cases h

/-- The values below those that are taken stay. -/
theorem Leaves.of_append (taken : List Value) (hst : st = taken ++ rest)
    (hn : taken.length = op.takes arg) {pushed : List Value} (hp : ∀ v ∈ pushed, op.Gives v) :
    op.Leaves arg st (pushed ++ rest) :=
  ⟨pushed, by rw [hst, ← hn, List.drop_left], hp⟩

theorem Leaves.pop (taken : List Value) (hst : st = taken ++ rest)
    (hn : taken.length = op.takes arg) : op.Leaves arg st rest :=
  ⟨[], by rw [hst, ← hn, List.drop_left]; rfl, fun _ hv => absurd hv List.not_mem_nil⟩

end Opcode

/-! ## Shapes -/

/-- A value may be at a place of the stack. -/
def Held.Admits : Held → Value → Prop
  | .visible _, v => v.Visible
  | .mandatory, v => v = .mandatory
  | .cell, v => v.IsCell
  | .pack _ cells, v => ∃ defaults captured, v = .tuple (defaults ++ captured) ∧
      captured.length = cells ∧ (∀ x ∈ defaults, x.IsDefault) ∧ ∀ x ∈ captured, x.IsCell

/-- Values may be at the places of the stack. -/
def Shape.Admits (d : Shape) (st : List Value) : Prop := List.Forall₂ Held.Admits d.stack st

/-- A pack is a tuple of parts. -/
theorem Held.Admits.isPack {size cells : Nat} {v : Value} (h : (Held.pack size cells).Admits v) :
    v.IsPack := by
  obtain ⟨defaults, captured, hv, -, hdefaults, hcaptured⟩ := h
  exact ⟨defaults, captured, hv, hdefaults, hcaptured⟩

/-- What is held is an operand of the instructions that make functions. -/
theorem Held.Admits.isOperand {o : Held} {v : Value} (h : o.Admits v) : v.IsOperand := by
  cases o with
  | visible k => exact .inl (.inl (.inl h))
  | mandatory => exact .inl (.inl (.inr h))
  | cell => exact .inl (.inr h)
  | pack size cells => exact .inr h.isPack

/-- What fits admits what was admitted. -/
theorem Held.Fits.admits {o o' : Held} (h : o.Fits o') {v : Value} (hv : o.Admits v) :
    o'.Admits v := by
  rcases h with rfl | ⟨k, rfl, rfl⟩
  · exact hv
  · exact hv

namespace Shape

variable {d e : Shape} {st : List Value}

/-- All values on the stack may be operands. -/
theorem Admits.isOperand (h : d.Admits st) : ∀ v ∈ st, v.IsOperand := by
  unfold Admits at h
  generalize d.stack = os at h
  induction h with
  | nil => exact fun v hv => absurd hv List.not_mem_nil
  | cons hv _ ih => exact List.forall_mem_cons.2 ⟨hv.isOperand, ih⟩

/-- A shape that says less admits as much. -/
theorem Le.admits (h : d.Le e) (hd : d.Admits st) : e.Admits st := by
  have hstack : ∀ {os os' : List Held} {st : List Value}, List.Forall₂ Held.Fits os os' →
      List.Forall₂ Held.Admits os st → List.Forall₂ Held.Admits os' st := by
    intro os os' st ho hst
    induction ho generalizing st with
    | nil => exact hst
    | cons ho _ ih =>
      cases hst with
      | cons hv hst => exact .cons (ho.admits hv) (ih hst)
  exact hstack h.2 hd

/-- What is held lies on top of the rest. -/
theorem admits_hold {os : List Held} : (d.hold os).Admits st ↔
    ∃ vs rest, st = vs ++ rest ∧ List.Forall₂ Held.Admits os vs ∧ d.Admits rest :=
  forall₂_append_iff

theorem admits_hold_singleton {o : Held} : (d.hold [o]).Admits st ↔
    ∃ v rest, st = v :: rest ∧ o.Admits v ∧ d.Admits rest := by
  constructor
  · rintro (_ | ⟨hv, hrest⟩)
    exact ⟨_, _, rfl, hv, hrest⟩
  · rintro ⟨v, rest, rfl, hv, hrest⟩
    exact .cons hv hrest

/-- On top are as many values that scripts may see. -/
theorem admits_push {ks : List Known} : (d.push ks).Admits st ↔
    ∃ vs rest, st = vs ++ rest ∧ vs.length = ks.length ∧ (∀ v ∈ vs, v.Visible) ∧ d.Admits rest := by
  have hvisible : ∀ {ks : List Known} {vs : List Value},
      List.Forall₂ Held.Admits (ks.map .visible) vs ↔ vs.length = ks.length ∧
          ∀ v ∈ vs, v.Visible := by
    intro ks
    -- value by value, as what is pushed is visible whatever is known of it
    induction ks with
    | nil =>
      intro vs
      simp only [List.map_nil, List.forall₂_nil_left_iff, List.length_nil, List.length_eq_zero_iff]
      exact ⟨fun h => ⟨h, h ▸ fun v hv => absurd hv List.not_mem_nil⟩, And.left⟩
    | cons k ks ih =>
      intro vs
      cases vs with
      | nil => simp
      | cons v vs =>
        simp only [List.map_cons, List.forall₂_cons, ih, List.length_cons, Nat.add_right_cancel_iff,
          List.forall_mem_cons, Held.Admits]
        exact and_left_comm
  rw [push, admits_hold]
  simp only [hvisible, and_assoc]

/-- A visible value lies on top of the rest. -/
theorem admits_push_cons {k : Known} {ks : List Known} : (d.push (k :: ks)).Admits st ↔
    ∃ v rest, st = v :: rest ∧ v.Visible ∧ (d.push ks).Admits rest := by
  constructor
  · rintro (_ | ⟨hv, hrest⟩)
    exact ⟨_, _, rfl, hv, hrest⟩
  · rintro ⟨v, rest, rfl, hv, hrest⟩
    exact .cons hv hrest

theorem Admits.cons {k : Known} {v : Value} (h : d.Admits st) (hv : v.Visible) :
    (d.push [k]).Admits (v :: st) :=
  List.Forall₂.cons hv h

/-- Visible values may be pushed. -/
theorem Admits.push {ks : List Known} {vs : List Value} (h : d.Admits st)
    (hn : vs.length = ks.length) (hvs : ∀ v ∈ vs, v.Visible) : (d.push ks).Admits (vs ++ st) :=
  admits_push.2 ⟨vs, st, rfl, hn, hvs, h⟩

end Shape

/-- What stands where a function is packed. -/
theorem isPart_of_pack {os : List Held} {cells : Nat}
    (h : os.take cells = List.replicate cells .cell) (hdefaults : ∀ o ∈ os.drop cells, o.IsDefault)
    {vs : List Value} (hvs : List.Forall₂ Held.Admits os vs) :
    (∀ v ∈ vs.take cells, v.IsCell) ∧ ∀ v ∈ vs.drop cells, v.IsDefault := by
  constructor
  · have hcells := List.forall₂_take cells hvs
    rw [h] at hcells
    exact forall_mem_of_replicate hcells
  -- behind the cells only defaults are packed
  · have hrest := List.forall₂_drop cells hvs
    generalize os.drop cells = os', vs.drop cells = vs' at hrest hdefaults ⊢
    induction hrest with
    | nil => exact fun v hv => absurd hv List.not_mem_nil
    | @cons o v os' vs' hv _ ih =>
      obtain ⟨ho, hos⟩ := List.forall_mem_cons.1 hdefaults
      refine List.forall_mem_cons.2 ⟨?_, ih hos⟩
      cases o with
      | visible k => exact .inl hv
      | mandatory => exact .inr hv
      | cell => exact ho.elim
      | pack size cells => exact ho.elim

/-- The cells are on top of the defaults, so they come last in the tuple that is packed of both. -/
theorem admits_pack {os : List Held} {cells : Nat}
    (h : os.take cells = List.replicate cells .cell) (hdefaults : ∀ o ∈ os.drop cells, o.IsDefault)
    {vs : List Value} (hvs : List.Forall₂ Held.Admits os vs) :
    (Held.pack os.length cells).Admits (.tuple vs.reverse) := by
  obtain ⟨htop, hrest⟩ := isPart_of_pack h hdefaults hvs
  have hsplit : vs.reverse = (vs.drop cells).reverse ++ (vs.take cells).reverse := by
    rw [← List.reverse_append, List.take_append_drop]
  have hlen : (vs.take cells).reverse.length = cells := by
    have hos := congrArg List.length h
    rw [List.length_take, List.length_replicate] at hos
    rw [List.length_reverse, List.length_take, ← hvs.length_eq, hos]
  exact ⟨_, _, congrArg Value.tuple hsplit, hlen, fun x hx => hrest x (List.mem_reverse.1 hx),
    fun x hx => htop x (List.mem_reverse.1 hx)⟩

/-- An instruction finds on the stack what it takes. -/
theorem Moves.accepts {r : Rules} {link : Linkage} {s : Scopes} {op : Opcode} {arg : UInt32}
    {d e : Shape} (hm : Moves r link s op arg d e) {st : List Value} (hd : d.Admits st)
    (hdepth : d.depth < 2 ^ 31) :
    op.takes arg ≤ st.length ∧ ∀ v ∈ st.take (op.takes arg), op.Accepts v := by
  have visible : ∀ (ks : List Known) (base : Shape), (base.push ks).Admits st →
      ks.length = op.takes arg →
      op.takes arg ≤ st.length ∧ ∀ v ∈ st.take (op.takes arg), op.Accepts v := by
    intro ks base hd hn
    obtain ⟨vs, rest, rfl, hlen, hvs, -⟩ := Shape.admits_push.1 hd
    rw [← hn, ← hlen, List.take_left, List.length_append]
    exact ⟨Nat.le_add_right _ _, fun v hv => .inl (hvs v hv)⟩
  have nothing : op.takes arg = 0 →
      op.takes arg ≤ st.length ∧ ∀ v ∈ st.take (op.takes arg), op.Accepts v := by
    intro h0
    rw [h0]
    exact ⟨Nat.zero_le _, fun v hv => absurd hv List.not_mem_nil⟩
  -- either the types give as many visible values, or nothing is taken; packs hold parts of
  -- functions
  cases hm with
  | dup | pop | iterPush | setLocal | setLocalCell | setGlobal | attr | dup2 | exch | setField
  | append => exact visible _ _ hd rfl
  | push hop => exact nothing (Opcode.takes_of_isPush hop _)
  | unary hop => exact visible _ _ hd (Opcode.takes_of_isUnary hop _).symm
  | binary hop => exact visible _ _ hd (Opcode.takes_of_isBinary hop _).symm
  | slice ks hks => exact visible _ _ hd hks
  | setIndex ks hks => exact visible _ _ hd hks
  | setDict hop => rcases hop with rfl | rfl <;> exact visible _ _ hd rfl
  | mandatory | makeDict | iterPop | constant | getLocal | getCell | free | freeCell | localCell
  | getGlobal | predeclared | universal => exact nothing rfl
  | makeList ks base =>
    rw [Shape.depth_push] at hdepth
    exact visible ks _ hd (toNat_ofNat_of_lt (by omega)).symm
  | makeTuple ks base =>
    rw [Shape.depth_push] at hdepth
    exact visible ks _ hd (toNat_ofNat_of_lt (by omega)).symm
  | makePack os cells hcells hdefaults base =>
    rw [Shape.depth_hold] at hdepth
    obtain ⟨vs, rest, rfl, hvs, -⟩ := Shape.admits_hold.1 hd
    have hn : Opcode.makeTuple.takes (UInt32.ofNat os.length) = vs.length :=
      (toNat_ofNat_of_lt (by omega)).trans hvs.length_eq
    rw [hn, List.take_left, List.length_append]
    refine ⟨Nat.le_add_right _ _, fun v hv => .inr ?_⟩
    obtain ⟨htop, hrest⟩ := isPart_of_pack hcells hdefaults hvs
    rw [← List.take_append_drop cells vs, List.mem_append] at hv
    exact hv.elim (fun hv => .inr (htop v hv)) fun hv => .inl (hrest v hv)
  | makeFunc _ size base =>
    obtain ⟨v, rest, rfl, hv, -⟩ := Shape.admits_hold_singleton.1 hd
    exact ⟨by simp [Opcode.takes], List.forall_mem_singleton.2 (.inr hv.isPack)⟩
  | load n base =>
    rw [Shape.depth_push, List.length_cons, List.length_replicate] at hdepth
    refine visible _ _ hd ?_
    simp [Opcode.takes, toNat_ofNat_of_lt (show n < 2 ^ 31 by omega)]
  | call hop f ks hks _ base =>
    refine visible _ _ hd ?_
    rw [Opcode.takes_of_isCall hop, List.length_append, hks, List.length_singleton]

/-! ## Iterators -/

/-- An iterator gives only values that scripts may see. -/
def Iter.Visible : Iter → Prop
  | .tuple rest => ∀ v ∈ rest, v.Visible
  | _ => True

namespace Heap.Discreet

variable {h : Heap}

/-- An iterator over visible values gives visible ones. -/
theorem nextElem? (hd : h.Discreet) {it it' : Iter} {v : Value} (hit : it.Visible)
    (hn : h.nextElem? it = some (v, it')) : v.Visible ∧ it'.Visible := by
  cases it with
  | list r i =>
    obtain ⟨x, hx, hp⟩ := Option.map_eq_some_iff.1 hn
    cases hp
    exact ⟨hd.list r _ (Array.mem_of_getElem? hx), trivial⟩
  | dict r i =>
    obtain ⟨e, he, hp⟩ := Option.map_eq_some_iff.1 hn
    cases hp
    exact ⟨(hd.dict r e (Array.mem_of_getElem? he)).1, trivial⟩
  | tuple rest =>
    cases rest with
    | nil => cases hn
    | cons x rest =>
      cases hn
      exact List.forall_mem_cons.1 hit

/-- A visible value may be iterated over. -/
theorem openIter (hd : h.Discreet) {v : Value} (hv : v.Visible) :
    (h.openIter v).2.Discreet ∧ ∀ it, (h.openIter v).1 = some it → it.Visible := by
  have hnone : Iter.Visible (.tuple []) := fun x hx => absurd hx List.not_mem_nil
  cases v with
  | list r =>
    rw [Heap.openIter]
    split
    · exact ⟨hd.modifyList r fun _ hl => hl, fun it hit => Option.some.inj hit ▸ trivial⟩
    · exact ⟨hd, fun it hit => Option.some.inj hit ▸ hnone⟩
  | dict r =>
    rw [Heap.openIter]
    split
    · exact ⟨hd.modifyDict r fun _ hl => hl, fun it hit => Option.some.inj hit ▸ trivial⟩
    · exact ⟨hd, fun it hit => Option.some.inj hit ▸ hnone⟩
  | tuple elems => exact ⟨hd, fun it hit => Option.some.inj hit ▸ Value.visible_tuple.1 hv⟩
  | _ => exact ⟨hd, fun it hit => by cases hit⟩

theorem closeIter (hd : h.Discreet) (it : Iter) : (h.closeIter it).Discreet := by
  cases it with
  | list r i => exact hd.modifyList r fun _ hl => hl
  | dict r i => exact hd.modifyDict r fun _ hl => hl
  | tuple rest => exact hd

end Heap.Discreet

/-! ## Operations -/

namespace Op

theorem discreet_entry {α : Type} {Q : α → Prop} {table : Array α} {i : Nat}
    (h : ∀ x, table[i]? = some x → Q x) : Discreet Q (entry table i) := by
  unfold entry
  split
  · rename_i x hx
    exact .pure (h x hx)
  · exact .throw _

/-- What is looked up without looking at it. -/
theorem discreet_anyEntry {α : Type} (table : Array α) (i : Nat) :
    Discreet (fun _ => True) (entry table i) :=
  discreet_entry fun _ _ => trivial

theorem discreet_declName (decls : Array Decl) (i : Nat) :
    Discreet (fun _ => True) (declName decls i) :=
  (discreet_anyEntry decls i).bind fun _ _ => .pure trivial

theorem discreet_asCell (v : Value) : Discreet (fun _ => True) (asCell v) := by
  unfold asCell
  split
  · exact .pure trivial
  · exact .throw _

theorem discreet_slotCell (a : Activation) (i : Nat) : Discreet (fun _ => True) (slotCell a i) := by
  refine (discreet_anyEntry a.locals i).bind fun v _ => ?_
  cases v with
  | none => exact .throw _
  | some v => exact discreet_asCell v

theorem discreet_cellContent (r : CellRef) (name : String) :
    Discreet Value.Visible (cellContent r name) := by
  refine Discreet.bind (.read (Q := fun v => ∀ x ∈ v, Value.Visible x) fun _ hd => hd.cell r)
    fun v hv => ?_
  cases v with
  | none => exact .throw _
  | some v => exact .pure (hv v rfl)

/-- Unpacking a visible value gives visible ones. -/
theorem discreet_unpack {v : Value} (hv : v.Visible) (n : Nat) :
    Discreet (fun vs => vs.length = n ∧ ∀ x ∈ vs, x.Visible) (unpack v n) := by
  refine (discreet_drain hv).bind fun elems helems => ?_
  cases elems with
  | none => exact .throw _
  | some elems =>
    dsimp only
    split
    · exact fun _ hd => hd
    · split
      · exact fun _ hd => hd
      · exact .pure ⟨by omega, helems elems rfl⟩

/-! ### Calls -/

/-- Named arguments come from the stack, where they are visible. -/
theorem discreet_namedArguments {vs : List Value} (hvs : ∀ v ∈ vs, v.Visible) :
    Discreet Env.Visible (namedArguments vs) := by
  fun_induction namedArguments vs with
  | case1 k v rest ih =>
    obtain ⟨-, hvs⟩ := List.forall_mem_cons.1 hvs
    obtain ⟨hv, hrest⟩ := List.forall_mem_cons.1 hvs
    exact (ih hrest).bind fun kvs hkvs => .pure (List.forall_mem_cons.2 ⟨hv, hkvs⟩)
  | case2 => exact .throw _
  | case3 => exact .pure fun b hb => absurd hb List.not_mem_nil

/-- The entries of `**kwargs` are visible. -/
theorem discreet_extraKeywords {kw : Option Value} :
    Discreet Env.Visible (extraKeywords kw) := by
  have hdict : ∀ {es : List (Value × Value)}, (∀ e ∈ es, e.1.Visible ∧ e.2.Visible) →
      Discreet Env.Visible (dictKeywords es) := by
    intro es hes
    induction es with
    | nil => exact .pure fun b hb => absurd hb List.not_mem_nil
    | cons e es ih =>
      obtain ⟨k, v⟩ := e
      obtain ⟨he, hrest⟩ := List.forall_mem_cons.1 hes
      cases k with
      | str s => exact (ih hrest).bind fun kvs hkvs => .pure (List.forall_mem_cons.2 ⟨he.2, hkvs⟩)
      | _ => exact .throw _
  cases kw with
  | none => exact .pure fun b hb => absurd hb List.not_mem_nil
  | some v =>
    cases v with
    | dict r => exact (discreet_entries r).bind fun es hes => hdict hes
    | _ => exact .throw _

/-- The elements of `*args` are visible. -/
theorem discreet_extraArguments {star : Option Value} (hstar : ∀ v ∈ star, v.Visible) :
    Discreet (fun vs => ∀ v ∈ vs, v.Visible) (extraArguments star) := by
  cases star with
  | none => exact .pure fun v hv => absurd hv List.not_mem_nil
  | some v =>
    refine (discreet_drain (hstar v rfl)).bind fun elems helems => ?_
    cases elems with
    | none => exact .throw _
    | some elems => exact .pure (helems elems rfl)

/-- The callee and the arguments of a call, and the stack below them. -/
def Taken (st : List Value) : Value × List Value × Keywords × List Value → Prop
  | (f, args, kwargs, rest) =>
    f.Visible ∧ (∀ v ∈ args, v.Visible) ∧ Env.Visible kwargs ∧ rest = st

/-- What a call has counted on the stack is visible. -/
theorem discreet_takeCounted {arg : UInt32} {star kw : Option Value} {f : Value}
    {vs st : List Value}
    (hn : vs.length = 2 * Opcode.namedCount arg + Opcode.positionalCount arg)
    (hvs : ∀ v ∈ vs, v.Visible) (hf : f.Visible) (hstar : ∀ v ∈ star, v.Visible) :
    Discreet (Taken st) (takeCounted arg star kw (vs ++ f :: st)) := by
  obtain ⟨hsplit, hpairs, hpos⟩ := split_counted hn
  unfold takeCounted
  rw [hsplit, List.append_assoc, popMany_bind hpairs]
  refine (discreet_namedArguments fun v hv => ?_).bind fun named hnamed => ?_
  · exact hvs v (List.mem_of_mem_take (List.mem_reverse.1 hv))
  refine discreet_extraKeywords.bind fun extra hextra => ?_
  rw [popMany_bind hpos]
  refine (discreet_extraArguments hstar).bind fun more hmore => ?_
  refine .pure ⟨hf, List.forall_mem_append.2 ⟨fun v hv => ?_, hmore⟩,
    List.forall_mem_append.2 ⟨hnamed, hextra⟩, rfl⟩
  exact hvs v (List.mem_of_mem_drop (List.mem_reverse.1 hv))

/-- What a call is made of is visible. -/
theorem discreet_takeCall {op : Opcode} (hop : op.isCall = true) {arg : UInt32} {f : Value}
    {vs st : List Value}
    (hn : vs.length = op.extraArguments + 2 * Opcode.namedCount arg + Opcode.positionalCount arg)
    (hvs : ∀ v ∈ vs, v.Visible) (hf : f.Visible) :
    Discreet (Taken st) (takeCall op arg (vs ++ f :: st)) := by
  have hnone : ∀ v ∈ (none : Option Value), v.Visible :=
    fun v hv => absurd hv (Option.not_mem_none v)
  have hsome : ∀ {x : Value}, x.Visible → ∀ v ∈ some x, v.Visible := fun hx v hv =>
    Option.some.inj hv ▸ hx
  -- by the extra arguments on top: none, one of the two kinds, or both
  rcases Opcode.isCall_cases hop with rfl | rfl | rfl | rfl
  · simp only [Opcode.extraArguments, Nat.zero_add] at hn
    exact discreet_takeCounted hn hvs hf hnone
  · obtain ⟨x, vs, rfl⟩ := List.exists_cons_of_length_pos (l := vs) (by
      simp only [Opcode.extraArguments] at hn
      omega)
    obtain ⟨hx, hvs⟩ := List.forall_mem_cons.1 hvs
    simp only [Opcode.extraArguments, List.length_cons] at hn
    exact discreet_takeCounted (by omega) hvs hf (hsome hx)
  · obtain ⟨x, vs, rfl⟩ := List.exists_cons_of_length_pos (l := vs) (by
      simp only [Opcode.extraArguments] at hn
      omega)
    obtain ⟨hx, hvs⟩ := List.forall_mem_cons.1 hvs
    simp only [Opcode.extraArguments, List.length_cons] at hn
    exact discreet_takeCounted (by omega) hvs hf hnone
  · obtain ⟨x, vs, rfl⟩ := List.exists_cons_of_length_pos (l := vs) (by
      simp only [Opcode.extraArguments] at hn
      omega)
    obtain ⟨hx, hvs⟩ := List.forall_mem_cons.1 hvs
    obtain ⟨y, vs, rfl⟩ := List.exists_cons_of_length_pos (l := vs) (by
      simp only [Opcode.extraArguments, List.length_cons] at hn
      omega)
    obtain ⟨hy, hvs⟩ := List.forall_mem_cons.1 hvs
    simp only [Opcode.extraArguments, List.length_cons] at hn
    exact discreet_takeCounted (by omega) hvs hf (hsome hy)

/-! ### Functions -/

/-- A function is made of the pack on top, and shows nothing of it. -/
theorem discreet_makeFunc {t : Tables} {p : Program} {f : Function} {i : UInt32} {size : Nat}
    {v : Value} {st : List Value} (hp : p.Addressable) (ht : t.program = p)
    (hi : ∃ x, IndexOf p.functions (Function.compiled x f) i)
    (hv : (Held.pack size f.freeCount).Admits v) :
    Discreet (fun r => r.1.Visible ∧ r.2 = st) (makeFunc t i (v :: st)) := by
  obtain ⟨x, hi⟩ := hi
  obtain ⟨defaults, captured, rfl, hlen, hdefaults, -⟩ := hv
  have hfree : (Function.compiled x f).freeVars.size = captured.length := by
    rw [hlen]
    cases f
    simp [Function.compiled, Assembled.toCode, Function.freeCount]
  rw [makeFunc, ht, hi.getElem?_eq hp.functions]
  dsimp only
  rw [pop_bind]
  dsimp only
  rw [hfree, List.length_append, if_neg (by omega), Nat.add_sub_cancel, List.take_left]
  refine Discreet.bind (.make (Q := Value.Visible) fun h hd => ⟨hd.newFunc fun x hx => ?_, trivial⟩)
    fun g hg => .pure ⟨hg, rfl⟩
  exact hdefaults x (by simpa using hx)

/-- The members that are found are visible. -/
theorem discreet_loadMembers {members : Env} (hm : members.Visible) (module : String)
    (names : List Value) :
    Discreet (fun vs => vs.length = names.length ∧ ∀ v ∈ vs, v.Visible)
      (loadMembers members module names) := by
  induction names with
  | nil => exact .pure ⟨rfl, fun v hv => absurd hv List.not_mem_nil⟩
  | cons name names ih =>
    unfold loadMembers
    split
    · cases ‹_ :: _ = []›
    · rename_i s rest heq
      cases heq
      split
      · rename_i v hv
        exact ih.bind fun vs hvs =>
          .pure ⟨congrArg (· + 1) hvs.1, List.forall_mem_cons.2 ⟨hm.lookup? hv, hvs.2⟩⟩
      · exact .throw _
    · exact .throw _

end Op

end Starlark
