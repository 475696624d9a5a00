import Starlark.Proofs.Lower.Standing
import Starlark.Proofs.Machine.Entering

/-!
# Instructions of typed programs

A function of a typed program stands at an address, and its stack, its iterators and its locals are
as the types say there (`TypedProgram.Holds`). Executing the instruction at the address leads to
such a state again, and does not blame the code (`TypedProgram.safe_instruction`). Functions of
other programs may do what they want; they do not reach into this one.
-/

set_option autoImplicit false

namespace Starlark

/-! ## Functions that stand somewhere -/

/-- A program with typed code. -/
structure TypedProgram (p : Program) (predeclared : String → Prop) where
  addressable : p.Addressable
  toplevel_free : p.toplevel.freeVars.size = 0
  typed : ∀ code, (∃ id, p.code? id = some code) → TypedCode p predeclared code

/-- The names that a module gets are those that are predeclared. -/
def Heap.Supplies (h : Heap) (predeclared : String → Prop) (r : ModuleRef) : Prop :=
  ∀ name, predeclared name → ((h.module r).predeclared.lookup? name).isSome = true

/-- The shape that the stack has once what a function waits for is there. -/
def Pending.Reaches (a : Activation) (d : Shape) : Pending → Prop
  | .call => ∀ v, d.Describes (v :: a.stack) a.iters
  | .load _ n _ => ∃ names st, a.stack = names ++ st ∧ names.length = n ∧
      (∀ v ∈ names, ∃ x, v = .str x) ∧ ∀ vs, vs.length = n → d.Describes (vs ++ st) a.iters

section Typed

variable {p : Program} {predeclared : String → Prop}

/-- A function of a program stands at an address whose shape has a property. Nothing is said of
functions of other programs. -/
def TypedProgram.Holds (T : TypedProgram p predeclared) (h : Heap) (a : Activation)
    (P : Shape → Prop) : Prop :=
  a.func ∈ h.funcs ∧ (h.programOf a.func = p → ∀ code (hc : p.code? a.func.code = some code),
    (T.typed code ⟨_, hc⟩).scopes.Boxes h a.locals ∧ ∃ d, (T.typed code ⟨_, hc⟩).At a.next d ∧ P d)

/-- A function can execute its next instruction. -/
def TypedProgram.Ready (T : TypedProgram p predeclared) (h : Heap) (a : Activation) : Prop :=
  T.Holds h a fun d => d.Describes a.stack a.iters

/-- A call can go on when what it waits for is there. -/
def TypedProgram.Waits (T : TypedProgram p predeclared) (h : Heap) : Frame → Prop
  | .func a pending => T.Holds h a fun d => pending.Reaches a d
  | .builtin _ _ => True

/-- What an instruction asks for leaves its function in order. -/
def TypedProgram.Allows (T : TypedProgram p predeclared) (h : Heap) (f : FuncObj) : Effect → Prop
  | .proceed b => T.Ready h b
  | .finish _ => True
  | .call b _ _ _ => T.Waits h (.func b .call)
  | .load b name n => b.func = f ∧ ∀ module, T.Waits h (.func b (.load name n module))

/-- The functions that a function makes. -/
def Heap.Offspring (h : Heap) (p : Program) (g f : FuncObj) : Prop :=
  f.module = g.module ∧ (h.programOf g = p → f.MadeBy p)

theorem Heap.Sound.offspring {h h' : Heap} {g : FuncObj} (hs : h.Sound p) (hg : g ∈ h.funcs)
    (hgrows : h.Grows (h.Offspring p g) h') : h'.Sound p := by
  refine hs.grows hgrows ?_
  rintro f ⟨hmodule, hmade⟩
  refine ⟨hmodule ▸ hs.module_lt g hg, fun hp => hmade ?_⟩
  rwa [Heap.programOf, hmodule] at hp

theorem TypedProgram.Holds.extends {T : TypedProgram p predeclared} {h h' : Heap} {a : Activation}
    {P : Shape → Prop} (ha : T.Holds h a P) (he : h.Extends h') : T.Holds h' a P := by
  refine ⟨he.mem _ ha.1, fun hp code hc => ?_⟩
  rw [he.programOf_eq _ ha.1] at hp
  obtain ⟨hboxes, hstands⟩ := ha.2 hp code hc
  exact ⟨hboxes.mono he.cells, hstands⟩

theorem TypedProgram.Waits.extends {T : TypedProgram p predeclared} {h h' : Heap} {frame : Frame}
    (hw : T.Waits h frame) (he : h.Extends h') : T.Waits h' frame := by
  cases frame with
  | func a pending => exact Holds.extends hw he
  | builtin r guarded => trivial

/-! ## Typed code -/

/-- What an instruction of typed code asks for. -/
def TypedCode.Allows {code : Code} (t : TypedCode p predeclared code) (h : Heap) (f : FuncObj) :
    Effect → Prop
  | .proceed b => b.func = f ∧ t.scopes.Boxes h b.locals ∧
      ∃ d, t.At b.next d ∧ d.Describes b.stack b.iters
  | .finish _ => True
  | .call b _ _ _ => b.func = f ∧ t.scopes.Boxes h b.locals ∧
      ∃ d, t.At b.next d ∧ Pending.call.Reaches b d
  | .load b name n => b.func = f ∧ t.scopes.Boxes h b.locals ∧
      ∃ d, t.At b.next d ∧ ∀ module, (Pending.load name n module).Reaches b d

/-- What an instruction leaves in order is in order at the next address. -/
theorem Activation.Yields.allows {code : Code} {t : TypedCode p predeclared code} {a : Activation}
    {e e' : Shape} {heap : Heap} {effect : Effect} (h : a.Yields t.scopes heap e effect)
    (hle : e.Le e')
    (hat : t.At a.next e') : t.Allows heap a.func effect := by
  cases effect with
  | proceed b =>
    obtain ⟨hfunc, hnext, hboxes, hd⟩ := h
    exact ⟨hfunc, hboxes, e', hnext ▸ hat, hle.describes hd⟩
  | finish v => trivial
  | call b f args kwargs =>
    obtain ⟨hfunc, hnext, hboxes, hd⟩ := h
    exact ⟨hfunc, hboxes, e', hnext ▸ hat, fun v => hle.describes (hd v)⟩
  | load b name n =>
    obtain ⟨hfunc, hnext, hboxes, names, st, hst, hn, hstr, hd⟩ := h
    exact ⟨hfunc, hboxes, e', hnext ▸ hat, fun _ =>
      ⟨names, st, hst, hn, hstr, fun vs hvs => hle.describes (hd vs hvs)⟩⟩

/-- The instruction that is read at an address, on a stack of its shape. -/
theorem TypedCode.safe_reads {code : Code} {t : TypedCode p predeclared code} {tables : Tables}
    {New : FuncObj → Prop} {Supplied : Prop} {h : Heap} {a : Activation} {d : Shape} {f : Fetched}
    (hp : p.Addressable) (ht : tables.Serve p code t.scopes h) (hb : t.scopes.Boxes h a.locals)
    (hat : t.At a.next d) (hd : d.Describes a.stack a.iters) (hf : t.Reads d f) (pc : Nat)
    (hnew : ∀ g : FuncObj, g.module = tables.module → g.MadeBy p → New g)
    (hsupplied : Supplied → h.Supplies predeclared tables.module) :
    Op.Safe New Supplied (t.Allows h a.func)
      (Activation.execute tables f.op (f.arg.getD 0) { a with pc := pc, next := f.next }) h := by
  obtain ⟨b, done, i, rest, -, hst⟩ := id hat
  have hdepth : d.depth < 2 ^ 31 := hst.depth_eq.2.1
  cases hf with
  | nop hnext => exact .pure ⟨rfl, hb, d, hnext, hd⟩
  | jmp hnext => exact .pure ⟨rfl, hb, d, hnext, hd⟩
  | @plain op arg next e e' _ hmove hle hnext =>
    -- the code predeclares the names that its program does
    have hs : Supplied → ∀ name, t.scopes.predeclared name →
        ((h.module tables.module).predeclared.lookup? name).isSome = true := by
      intro hs name hname
      rw [t.lowers.predeclared_eq] at hname
      exact hsupplied hs name hname
    have hsafe := Activation.safe_execute (a := { a with pc := pc, next := next }) hmove hp ht hb hd
      hdepth hnew hs
    exact hsafe.mono id fun _ hy => hy.allows hle hnext
  | @unpack n next k base e' hn hshape hle hnext =>
    subst hshape
    obtain ⟨v, st, hst, -, hd⟩ := Shape.describes_push_cons.1 hd
    simp only [Activation.execute, hst, Op.pop_bind, Option.getD_some]
    rw [toNat_ofNat_of_lt hn]
    refine Op.Safe.bind (Op.safe_unpack v n) fun vs _ _ hvs => ?_
    exact .pure ⟨rfl, hb, e', hnext, hle.describes (hd.push_any hvs)⟩
  | @cjmp arg next k base x y hshape hx hy hatx haty =>
    subst hshape
    obtain ⟨v, st, hst, -, hd⟩ := Shape.describes_push_cons.1 hd
    simp only [Activation.execute, hst, Op.pop_bind, Option.getD_some]
    refine Op.Safe.bind (Op.Safe.read _) fun b _ _ _ => ?_
    split
    · exact .pure ⟨rfl, hb, x, hatx, hx.describes hd⟩
    · exact .pure ⟨rfl, hb, y, haty, hy.describes hd⟩
  | @iterJmp arg next x y hiters hx hy hatx haty =>
    obtain ⟨it, its, hits⟩ := List.exists_cons_of_length_pos (hd.2 ▸ hiters)
    have hexec : Activation.execute tables .iterJmp arg { a with pc := pc, next := next } h = _ :=
      Activation.execute_iterJmp hits
    unfold Op.Safe
    dsimp only [Option.getD_some]
    rw [hexec]
    cases hnext : h.nextElem? it with
    | none => exact ⟨.refl h, rfl, hb, x, hatx, hx.describes hd⟩
    | some r =>
      obtain ⟨v, it'⟩ := r
      have hlen : (it' :: its).length = d.iters := by
        rw [← hd.2, hits]
        rfl
      exact ⟨.refl h, rfl, hb, y, haty, hy.describes (Shape.Describes.cons ⟨hd.1, hlen⟩ trivial)⟩
  | ret hone =>
    have hlen : a.stack.length = 1 := by rw [← hd.1.length_eq, hone, List.length_singleton]
    obtain ⟨v, hst⟩ := List.length_eq_one_iff.1 hlen
    simp only [Activation.execute, hst, Op.pop_bind]
    exact .pure trivial

/-! ## Other code -/

/-- Whatever an instruction does, it goes on in its function and adds only functions of its
module. -/
theorem Activation.stays_execute {New : FuncObj → Prop} {h : Heap} (t : Tables) (op : Opcode)
    (arg : UInt32) (a : Activation) (hnew : ∀ f : FuncObj, f.module = t.module → New f) :
    Op.Safe New False (Effect.Stays a.func) (execute t op arg a) h := by
  -- three instructions touch iterators, and the rest are quiet
  by_cases hop : op ≠ .iterPush ∧ op ≠ .iterJmp ∧ op ≠ .iterPop
  · have hq : Op.Quiet (Heap.Grows New) (Effect.Continues a) (execute t op arg a) :=
      quiet_execute (fun h f hf => .newFunc h (hnew f hf)) hop
    exact (Op.Safe.of_quiet hq).mono id fun _ he => he.stays
  · rcases iterates_cases hop with rfl | rfl | rfl
    · cases hst : a.stack with
      | nil =>
        simp only [execute, hst]
        exact ⟨.refl h, False.elim⟩
      | cons x st =>
        unfold Op.Safe
        rw [execute_iterPush hst]
        cases ho : h.openIter x with
        | mk it h' =>
          cases it with
          | some it => exact ⟨.openIter ho, rfl⟩
          | none => exact ⟨.openIter ho, False.elim⟩
    · cases hit : a.iters with
      | nil =>
        simp only [execute, hit]
        exact ⟨.refl h, False.elim⟩
      | cons it iters =>
        unfold Op.Safe
        rw [execute_iterJmp hit]
        cases h.nextElem? it with
        | none => exact ⟨.refl h, rfl⟩
        | some next => exact ⟨.refl h, rfl⟩
    · cases hit : a.iters with
      | nil =>
        simp only [execute, hit]
        exact .pure rfl
      | cons it iters =>
        simp only [execute, hit]
        exact Op.Safe.bind (.modify (.closeIter h it)) fun _ _ _ _ => .pure rfl

/-! ## One instruction -/

variable {T : TypedProgram p predeclared}

theorem TypedCode.Allows.of_typed {h : Heap} {code : Code} {f : FuncObj} {effect : Effect}
    (hmem : f ∈ h.funcs) (hc : p.code? f.code = some code)
    (ha : (T.typed code ⟨_, hc⟩).Allows h f effect) : T.Allows h f effect := by
  have hholds : ∀ {b : Activation} {P : Shape → Prop}, b.func = f →
      (T.typed code ⟨_, hc⟩).scopes.Boxes h b.locals →
      (∃ d, (T.typed code ⟨_, hc⟩).At b.next d ∧ P d) → T.Holds h b P := by
    rintro b P rfl hboxes hd
    refine ⟨hmem, fun _ code' hc' => ?_⟩
    obtain rfl : code = code' := Option.some.inj (hc.symm.trans hc')
    exact ⟨hboxes, hd⟩
  cases effect with
  | proceed b => exact hholds ha.1 ha.2.1 ha.2.2
  | finish v => trivial
  | call b g args kwargs => exact hholds ha.1 ha.2.1 ha.2.2
  | load b name n =>
    obtain ⟨hfunc, hboxes, d, hat, hd⟩ := ha
    exact ⟨hfunc, fun module => hholds hfunc hboxes ⟨d, hat, hd module⟩⟩

theorem Effect.Stays.allows {h : Heap} {f : FuncObj} {effect : Effect} (hmem : f ∈ h.funcs)
    (hother : h.programOf f ≠ p) (hs : effect.Stays f) : T.Allows h f effect := by
  have hholds : ∀ {b : Activation} {P : Shape → Prop}, b.func = f → T.Holds h b P := by
    rintro b P rfl
    exact ⟨hmem, fun hp => absurd hp hother⟩
  cases effect with
  | proceed b => exact hholds hs
  | finish v => trivial
  | call b g args kwargs => exact hholds hs
  | load b name n => exact ⟨hs, fun module => hholds hs⟩

/-- The tables of a function of a typed program have what is declared. -/
theorem TypedProgram.serve (T : TypedProgram p predeclared) {h : Heap} {f : FuncObj} {code : Code}
    (hs : h.Sound p) (hf : f ∈ h.funcs) (hp : h.programOf f = p) (hc : p.code? f.code = some code) :
    (h.tables f).Serve p code (T.typed code ⟨_, hc⟩).scopes h := by
  have hcovers := (T.typed code ⟨_, hc⟩).lowers.covers
  obtain ⟨code', hc', hfree, hcells⟩ := hs.made f hf hp
  obtain rfl : code = code' := Option.some.inj (hc.symm.trans hc')
  refine ⟨hp, ?_, hcovers, ?_, hcells, ?_⟩
  · simp [Heap.tables, Heap.codeOf, hp, hc]
  · exact hfree.trans hcovers.free.symm
  · have hglobals := hs.globals f.module (hs.module_lt f hf)
    rw [show h.program (h.module f.module).program = p from hp] at hglobals
    exact hglobals.trans hcovers.globals.symm

/-- The next instruction of a function that stands where it should. -/
theorem TypedProgram.safe_instruction {Supplied : Prop} {h : Heap} {a : Activation} (hs : h.Sound p)
    (ha : T.Ready h a)
    (hsupplied : Supplied → h.programOf a.func = p ∧ h.Supplies predeclared a.func.module) :
    match fetch (h.codeOf a.func).code a.next with
    | .error _ => ¬ Supplied
    | .ok f => Op.Safe (h.Offspring p a.func) Supplied (T.Allows h a.func) (Activation.execute
        (h.tables a.func) f.op (f.arg.getD 0) { a with pc := a.next, next := f.next }) h := by
  obtain ⟨hmem, htyped⟩ := ha
  -- of a function from another program nothing is known but that it stays one
  by_cases hp : h.programOf a.func = p
  · obtain ⟨code, hc, -, -⟩ := hs.made a.func hmem hp
    obtain ⟨hboxes, d, hat, hd⟩ := htyped hp code hc
    have hserve := T.serve hs hmem hp hc
    obtain ⟨f, hfetch, hreads⟩ := hat.reads
    rw [show h.codeOf a.func = code from hserve.code_eq, hfetch]
    have hsafe : Op.Safe (h.Offspring p a.func) Supplied _ _ h :=
      TypedCode.safe_reads T.addressable hserve hboxes hat hd hreads a.next
        (fun g hmodule hmade => ⟨hmodule, fun _ => hmade⟩) (fun hs => (hsupplied hs).2)
    exact hsafe.mono id fun _ ha => ha.of_typed hmem hc
  · split
    · exact fun hs => hp (hsupplied hs).1
    · rename_i f _
      have hsafe : Op.Safe (h.Offspring p a.func) False _ _ h :=
        Activation.stays_execute (h.tables a.func) f.op (f.arg.getD 0)
          { a with pc := a.next, next := f.next } (fun g hmodule => ⟨hmodule, fun h => absurd h hp⟩)
      exact hsafe.mono (fun hs => hp (hsupplied hs).1) fun _ he => he.allows hmem hp

end Typed

end Starlark
