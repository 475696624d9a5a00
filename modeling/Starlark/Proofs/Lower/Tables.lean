import Starlark.Proofs.Lower.Drafting

/-!
# The tables of a compilation

All functions of a file share the tables of names, constants and functions, which are filled while
code is emitted. Whatever is emitted, tables only grow, and no name and no constant is entered twice
(`Plan.extending_emit`). A point of a compilation is a place in a plan (`Plan.Context`). What is in
the tables there is seen if lowering fails at that place: it is part of the tables that the whole
plan leaves behind, also if the place is in a function within the function that is lowered
(`Plan.Context.cut`).
-/

set_option autoImplicit false

namespace Starlark

open Build Builder

namespace Builder

/-- No name and no constant has two entries. -/
structure Distinct (b : Builder) : Prop where
  names : b.names.toList.Nodup
  constants : b.constants.toList.Nodup

/-- Tables have grown, and no entry was made twice. -/
structure Extends (b b' : Builder) : Prop where
  covered : b.Covered b'.pool
  distinct : b.Distinct → b'.Distinct

variable {b b1 b' : Builder}

/-- A builder that only drafts leaves the tables alone. -/
theorem Drafts.extends (h : b.Drafts b') : b.Extends b' where
  covered := by
    rw [pool, h.names, h.constants, h.functions]
    exact .refl b
  distinct := fun hd => ⟨h.names ▸ hd.names, h.constants ▸ hd.constants⟩

namespace Extends

theorem refl (b : Builder) : b.Extends b := ⟨.refl b, id⟩

/-- Tables go on from tables that go on. -/
theorem trans (h : b.Extends b1) (h' : b1.Extends b') : b.Extends b' :=
  ⟨h.covered.trans h'.covered, h'.distinct ∘ h.distinct⟩

end Extends

end Builder

namespace Build

/-- An entry is new, or it is the only one. -/
theorem nodup_intern {α : Type} [BEq α] [LawfulBEq α] {table : Array α} (h : table.toList.Nodup)
    (x : α) : (intern table x).2.toList.Nodup := by
  unfold intern
  split
  · exact h
  · rename_i hnone
    rw [Array.idxOf?_eq_none_iff] at hnone
    rw [Array.toList_push, List.nodup_append]
    refine ⟨h, List.pairwise_singleton _ x, fun y hy z hz heq => hnone ?_⟩
    rw [List.mem_singleton.1 hz] at heq
    exact Array.mem_toList_iff.1 (heq ▸ hy)

/-- The state that is left, also by a lowering program that fails. -/
def stateOf {α : Type} : EStateM.Result CompileError Builder α → Builder
  | .ok _ b | .error _ b => b

/-- A lowering program extends the tables, whether it fails or not. -/
def Extending {α : Type} (m : Build α) : Prop := ∀ b : Builder, b.Extends (stateOf (m b))

namespace Extending

variable {α β : Type}

theorem of_ok {m : Build α} (hm : Extending m) {b b' : Builder} {a : α} (h : m b = .ok a b') :
    b.Extends b' := by
  have hb := hm b
  rwa [h] at hb

theorem pure (a : α) : Extending (pure a : Build α) := fun b => .refl b

theorem throw (e : CompileError) : Extending (throw e : Build α) := fun b => .refl b

/-- Builders in sequence extend the tables. -/
theorem bind {m : Build α} {f : α → Build β} (hm : Extending m) (hf : ∀ a, Extending (f a)) :
    Extending (m >>= f) := by
  intro b
  have hb := hm b
  rw [bind_apply]
  cases hmb : m b with
  | error e b1 => rwa [hmb] at hb
  | ok a b1 =>
    rw [hmb] at hb
    exact hb.trans (hf a b1)

theorem get : Extending (MonadState.get : Build Builder) := fun b => .refl b

/-- A change to blocks only leaves the tables alone. -/
theorem modify {f : Builder → Builder} (h : ∀ b : Builder, b.Drafts (f b)) :
    Extending (modify f : Build PUnit) := fun b => (h b).extends

theorem newBlock : Extending newBlock := fun b => ⟨.refl b, fun h => ⟨h.1, h.2⟩⟩

theorem setBlock (id : BlockId) : Extending (setBlock id) := modify fun _ => ⟨rfl, rfl, rfl, rfl⟩

theorem setPos (pos : Position) : Extending (setPos pos) := modify fun _ => ⟨rfl, rfl, rfl, rfl⟩

theorem addLoad (d : Decl) : Extending (addLoad d) := fun b => ⟨.refl b, fun h => ⟨h.1, h.2⟩⟩

theorem current : Extending current := by
  refine bind get fun b => ?_
  split
  · exact pure _
  · exact throw _

theorem push (op : Opcode) (arg : UInt32) : Extending (push op arg) :=
  bind current fun _ => modify fun _ => ⟨rfl, rfl, rfl, rfl⟩

theorem emit (op : Opcode) : Extending (Build.emit op) := by
  unfold Build.emit
  split
  · exact throw _
  · exact push op 0

theorem emitArg (op : Opcode) (arg : UInt32) : Extending (emitArg op arg) := by
  unfold Build.emitArg
  split
  · exact push op arg
  · exact throw _

theorem jump (id : BlockId) : Extending (jump id) := by
  refine bind current fun cur => ?_
  split
  · exact bind (throw _) fun _ => modify fun _ => ⟨rfl, rfl, rfl, rfl⟩
  · exact modify fun _ => ⟨rfl, rfl, rfl, rfl⟩

theorem condJump (op : Opcode) (t f : BlockId) : Extending (condJump op t f) :=
  bind (emitArg op 0) fun _ => bind current fun _ =>
    bind (modify fun _ => ⟨rfl, rfl, rfl, rfl⟩) fun _ => jump f

theorem innermostLoop : Extending innermostLoop := by
  refine bind get fun b => ?_
  split
  · exact pure _
  · exact throw _

/-- Being inside a loop makes no difference to the tables. -/
theorem inLoop {l : Loop} {body : Build Unit} (h : Extending body) : Extending (inLoop l body) :=
  bind (modify fun _ => ⟨rfl, rfl, rfl, rfl⟩) fun _ =>
    bind h fun _ => modify fun _ => ⟨rfl, rfl, rfl, rfl⟩

/-- The code of a short circuit behind its first operand. -/
theorem shortRest (stopIf : Bool) {second done : BlockId} {body : Build Unit} (h : Extending body) :
    Extending (do
      Build.emit .dup
      if stopIf then Build.condJump .cjmp done second else Build.condJump .cjmp second done
      Build.setBlock second
      Build.emit .pop
      body
      Build.jump done
      Build.setBlock done) := by
  refine bind (emit .dup) fun _ => ?_
  -- the two jumps differ only in which target is which
  have hrest : Extending (do
      Build.setBlock second
      Build.emit .pop
      body
      Build.jump done
      Build.setBlock done) :=
    bind (setBlock second) fun _ => bind (emit .pop) fun _ => bind h fun _ =>
      bind (jump done) fun _ => setBlock done
  cases stopIf with
  | true => exact bind (condJump _ _ _) fun _ => hrest
  | false => exact bind (condJump _ _ _) fun _ => hrest

/-- What a loop does for an element, with the loop around it or not. -/
theorem eachBody (isLoop : Bool) {l : Loop} {body : Build Unit} (h : Extending body) :
    Extending (if isLoop then Build.inLoop l body else body) := by
  split
  · exact inLoop h
  · exact h

/-- The code of a loop behind what it goes over. -/
theorem eachRest {head tail round : BlockId} {pos : Position} {body : Build Unit}
    (h : Extending body) : Extending (do
      Build.setPos pos
      Build.emit .iterPush
      Build.jump head
      Build.setBlock head
      Build.condJump .iterJmp tail round
      Build.setBlock round
      body
      Build.jump head
      Build.setBlock tail
      Build.emit .iterPop) :=
  bind (setPos pos) fun _ => bind (emit .iterPush) fun _ => bind (jump head) fun _ =>
    bind (setBlock head) fun _ => bind (condJump _ _ _) fun _ => bind (setBlock round) fun _ =>
    bind h fun _ => bind (jump head) fun _ => bind (setBlock tail) fun _ => emit .iterPop

theorem nameIndex (name : String) : Extending (nameIndex name) := by
  intro b
  refine ⟨⟨(intern_spec b.names name).2, List.prefix_rfl, List.prefix_rfl⟩, fun hd => ?_⟩
  exact ⟨nodup_intern hd.names name, hd.constants⟩

theorem constantIndex (c : Constant) : Extending (constantIndex c) := by
  intro b
  refine ⟨⟨List.prefix_rfl, (intern_spec b.constants c).2, List.prefix_rfl⟩, fun hd => ?_⟩
  exact ⟨hd.names, nodup_intern hd.constants c⟩

theorem functionIndex (c : Code) : Extending (functionIndex c) := by
  intro b
  refine ⟨⟨List.prefix_rfl, List.prefix_rfl, ?_⟩, fun hd => ⟨hd.names, hd.constants⟩⟩
  change b.functions.toList <+: (b.functions.push c).toList
  rw [Array.toList_push]
  exact List.prefix_append _ _

theorem constant (c : Constant) : Extending (constant c) :=
  bind (constantIndex c) fun i => emitArg .constant i

/-- A function that is finished leaves the tables that its body has filled. -/
theorem finish (b : Builder) (pos : Position) (b1 : Builder) :
    b1.Extends (stateOf (finish b pos b1)) := by
  have hlast : Extending (if b1.current.isSome then (do Build.emit .pushNone; Build.emit .ret)
      else Pure.pure () : Build Unit) := by
    split
    · exact bind (emit _) fun _ => emit _
    · exact pure ()
  have hb := hlast b1
  unfold Build.finish
  split
  · rename_i e b2 hb2
    rwa [hb2] at hb
  · rename_i b2 hb2
    rw [hb2] at hb
    -- the blocks around come back, but the tables are not those from before the function
    split
    · exact hb
    · exact hb.trans (Drafts.extends ⟨rfl, rfl, rfl, rfl⟩)

/-- A function starts with the tables of the code around it and hands them on. -/
theorem assemble (pos : Position) {body : Build Unit} (h : Extending body) :
    Extending (assemble pos body) := by
  intro b
  have hin : b.Extends (inside b pos) := Drafts.extends ⟨rfl, rfl, rfl, rfl⟩
  have hb := hin.trans (h (inside b pos))
  rw [assemble_eq]
  cases hbody : body (inside b pos) with
  | error e b1 => rwa [hbody] at hb
  | ok u b1 =>
    rw [hbody] at hb
    exact hb.trans (finish b pos b1)

end Extending

end Build

/-! ## Plans -/

mutual

/-- Whatever a plan is, emitting it extends the tables. -/
theorem Plan.extending_emit (p : Plan) : Extending p.emit := by
  -- every form runs builders in turn, none of which takes an entry away
  match p with
  | .skip => exact .pure ()
  | .pos pos => exact .setPos pos
  | .load d => exact .addLoad d
  | .fail e => exact .throw e
  | .op o => exact .emit o
  | .arg o n => exact .emitArg o n
  | .const c => exact .constant c
  | .seq p q => exact .bind (Plan.extending_emit p) fun _ => Plan.extending_emit q
  | .unpack n targets => exact .bind (.emitArg _ _) fun _ => Plan.extending_emit targets
  | .name s k => exact .bind (.nameIndex s) fun i => Plan.extending_emit (k i)
  | .func f body k =>
    exact .bind (.assemble f.pos (Plan.extending_emit body)) fun a =>
      .bind (.functionIndex _) fun i => Plan.extending_emit (k i)
  | .either test p q =>
    exact .bind .newBlock fun t => .bind .newBlock fun f => .bind .newBlock fun done =>
      .bind (Test.extending_emit test t f) fun _ => .bind (.setBlock t) fun _ =>
      .bind (Plan.extending_emit p) fun _ => .bind (.jump done) fun _ =>
          .bind (.setBlock f) fun _ =>
      .bind (Plan.extending_emit q) fun _ => .bind (.jump done) fun _ => .setBlock done
  | .guard test p =>
    exact .bind .newBlock fun t => .bind .newBlock fun done =>
      .bind (Test.extending_emit test t done) fun _ => .bind (.setBlock t) fun _ =>
      .bind (Plan.extending_emit p) fun _ => .bind (.jump done) fun _ => .setBlock done
  | .short stopIf p q =>
    exact .bind .newBlock fun done => .bind .newBlock fun second =>
      .bind (Plan.extending_emit p) fun _ => .shortRest stopIf (Plan.extending_emit q)
  | .each isLoop iterable pos vars body =>
    exact .bind .newBlock fun head => .bind .newBlock fun round => .bind .newBlock fun tail =>
      .bind (Plan.extending_emit iterable) fun _ =>
      .eachRest (.bind (Plan.extending_emit vars) fun _ =>
          .eachBody isLoop (Plan.extending_emit body))
  | .whileLoop test body =>
    exact .bind .newBlock fun head => .bind .newBlock fun round => .bind .newBlock fun done =>
      .bind (.jump head) fun _ => .bind (.setBlock head) fun _ =>
      .bind (Test.extending_emit test round done) fun _ => .bind (.setBlock round) fun _ =>
      .bind (.inLoop (Plan.extending_emit body)) fun _ => .bind (.jump head) fun _ => .setBlock done
  | .leave isBreak =>
    exact .bind .innermostLoop fun _ => .bind (.jump _) fun _ => .bind .newBlock fun id =>
      .setBlock id
  | .ret => exact .bind (.emit .ret) fun _ => .bind .newBlock fun id => .setBlock id

/-- Whatever a test is, emitting it extends the tables. -/
theorem Test.extending_emit (x : Test) (t f : BlockId) : Extending (x.emit t f) := by
  match x with
  | .on p => exact .bind (Plan.extending_emit p) fun _ => .condJump _ _ _
  | .not x => exact Test.extending_emit x f t
  | .both p x | .either p x =>
    exact .bind (Plan.extending_emit p) fun _ => .bind .newBlock fun second =>
      .bind (.condJump _ _ _) fun _ => .bind (.setBlock second) fun _ => Test.extending_emit x t f

end

/-! ## Points of a compilation -/

mutual

/-- A plan with a hole: what it is with a plan put there. -/
inductive Plan.Context : (Plan → Plan) → Prop where
  | hole : Plan.Context id
  | seqLeft {C : Plan → Plan} (q : Plan) : Plan.Context C → Plan.Context fun x => .seq (C x) q
  | seqRight {C : Plan → Plan} (p : Plan) : Plan.Context C → Plan.Context fun x => .seq p (C x)
  | name {C : UInt32 → Plan → Plan} (s : String) : (∀ i, Plan.Context (C i)) →
      Plan.Context fun x => .name s fun i => C i x
  | unpack {C : Plan → Plan} (n : Nat) : Plan.Context C → Plan.Context fun x => .unpack n (C x)
  | eitherTest {C : Plan → Test} (p q : Plan) : Test.Context C →
      Plan.Context fun x => .either (C x) p q
  | eitherFirst {C : Plan → Plan} (test : Test) (q : Plan) : Plan.Context C →
      Plan.Context fun x => .either test (C x) q
  | eitherSecond {C : Plan → Plan} (test : Test) (p : Plan) : Plan.Context C →
      Plan.Context fun x => .either test p (C x)
  | guardTest {C : Plan → Test} (p : Plan) : Test.Context C → Plan.Context fun x => .guard (C x) p
  | guardBody {C : Plan → Plan} (test : Test) : Plan.Context C →
      Plan.Context fun x => .guard test (C x)
  | shortFirst {C : Plan → Plan} (stopIf : Bool) (q : Plan) : Plan.Context C →
      Plan.Context fun x => .short stopIf (C x) q
  | shortSecond {C : Plan → Plan} (stopIf : Bool) (p : Plan) : Plan.Context C →
      Plan.Context fun x => .short stopIf p (C x)
  | eachIterable {C : Plan → Plan} (isLoop : Bool) (pos : Position) (vars body : Plan) :
      Plan.Context C → Plan.Context fun x => .each isLoop (C x) pos vars body
  | eachVars {C : Plan → Plan} (isLoop : Bool) (iterable : Plan) (pos : Position) (body : Plan) :
      Plan.Context C → Plan.Context fun x => .each isLoop iterable pos (C x) body
  | eachBody {C : Plan → Plan} (isLoop : Bool) (iterable : Plan) (pos : Position) (vars : Plan) :
      Plan.Context C → Plan.Context fun x => .each isLoop iterable pos vars (C x)
  | whileTest {C : Plan → Test} (body : Plan) : Test.Context C →
      Plan.Context fun x => .whileLoop (C x) body
  | whileBody {C : Plan → Plan} (test : Test) : Plan.Context C →
      Plan.Context fun x => .whileLoop test (C x)
  | funcBody {C : Plan → Plan} (f : Function) (k : UInt32 → Plan) : Plan.Context C →
      Plan.Context fun x => .func f (C x) k
  | funcRest {C : UInt32 → Plan → Plan} (f : Function) (body : Plan) : (∀ i, Plan.Context (C i)) →
      Plan.Context fun x => .func f body fun i => C i x

/-- A test with a hole. -/
inductive Test.Context : (Plan → Test) → Prop where
  | on {C : Plan → Plan} : Plan.Context C → Test.Context fun x => .on (C x)
  | not {C : Plan → Test} : Test.Context C → Test.Context fun x => .not (C x)
  | bothFirst {C : Plan → Plan} (test : Test) : Plan.Context C →
      Test.Context fun x => .both (C x) test
  | bothSecond {C : Plan → Test} (p : Plan) : Test.Context C → Test.Context fun x => .both p (C x)
  | eitherFirst {C : Plan → Plan} (test : Test) : Plan.Context C →
      Test.Context fun x => .either (C x) test
  | eitherSecond {C : Plan → Test} (p : Plan) : Test.Context C →
      Test.Context fun x => .either p (C x)

end

/-- A lowering program does what another one does, up to `next`, where it fails. If the other one
does not fail, its tables have at least what is in the tables behind `next`. -/
def Build.Cut {α : Type} (next : Build Unit) (e : CompileError) (m m' : Build α) : Prop :=
  ∀ b a b', m b = .ok a b' → ∃ x y, m' b = .error e x ∧ next x = .ok () y ∧ y.Covered b'.pool

namespace Build.Cut

variable {α β : Type} {next : Build Unit} {e : CompileError}

/-- At the hole itself. -/
theorem here : Cut next e next (throw e) := fun b _ b' h => ⟨b, b', rfl, h, .refl b'⟩

/-- What comes behind is left out. -/
theorem left {m m' : Build α} {f : α → Build β} (h : Cut next e m m')
    (hf : ∀ a, Extending (f a)) : Cut next e (m >>= f) (m' >>= f) := by
  intro b a b' hm
  obtain ⟨v, b1, h1, h2⟩ := bind_eq_ok.1 hm
  obtain ⟨x, y, hx, hy, hcov⟩ := h b v b1 h1
  exact ⟨x, y, by rw [bind_apply, hx], hy, hcov.trans ((hf v).of_ok h2).covered⟩

/-- What comes before is done. -/
theorem right {m : Build α} {f f' : α → Build β} (h : ∀ a, Cut next e (f a) (f' a)) :
    Cut next e (m >>= f) (m >>= f') := by
  intro b a b' hm
  obtain ⟨v, b1, h1, h2⟩ := bind_eq_ok.1 hm
  obtain ⟨x, y, hx, hy, hcov⟩ := h v b1 a b' h2
  exact ⟨x, y, by rw [bind_apply, h1]; exact hx, hy, hcov⟩

/-- A loop around the hole. -/
theorem inLoop {l : Loop} {m m' : Build Unit} (h : Cut next e m m') :
    Cut next e (inLoop l m) (inLoop l m') :=
  right fun _ => left h fun _ => .modify fun _ => ⟨rfl, rfl, rfl, rfl⟩

/-- A function around the hole. -/
theorem assemble (pos : Position) {m m' : Build Unit} (h : Cut next e m m') :
    Cut next e (assemble pos m) (assemble pos m') := by
  intro b a b' hm
  rw [assemble_eq] at hm ⊢
  cases hbody : m (inside b pos) with
  | error e b1 =>
    rw [hbody] at hm
    cases hm
  | ok u b1 =>
    rw [hbody] at hm
    obtain ⟨x, y, hx, hy, hcov⟩ := h _ _ _ hbody
    have hend := Extending.finish b pos b1
    rw [show finish b pos b1 = .ok a b' from hm] at hend
    exact ⟨x, y, by rw [hx], hy, hcov.trans hend.covered⟩

end Build.Cut

mutual

/-- With a failure in its hole, a plan does what it does with `next` there, up to `next`. Behind the
hole, tables only grow, also those of the functions around it. -/
theorem Plan.Context.cut {C : Plan → Plan} (h : Plan.Context C) (next : Plan) (e : CompileError) :
    Cut next.emit e (C next).emit (C (.fail e)).emit := by
  -- on the way to the hole, what comes before it is the same on both sides; what comes behind
  -- only adds
  match h with
  | .hole => exact .here
  | .seqLeft q h => exact .left (h.cut next e) fun _ => q.extending_emit
  | .seqRight p h => exact .right fun _ => h.cut next e
  | .name s h => exact .right fun i => (h i).cut next e
  | .unpack n h => exact .right fun _ => h.cut next e
  | .eitherTest p q h =>
    exact .right fun t => .right fun f => .right fun done => .left (h.cut next e t f) fun _ =>
      .bind (.setBlock t) fun _ => .bind p.extending_emit fun _ => .bind (.jump done) fun _ =>
      .bind (.setBlock f) fun _ => .bind q.extending_emit fun _ => .bind (.jump done) fun _ =>
      .setBlock done
  | .eitherFirst test q h =>
    exact .right fun t => .right fun f => .right fun done => .right fun _ => .right fun _ =>
      .left (h.cut next e) fun _ => .bind (.jump done) fun _ => .bind (.setBlock f) fun _ =>
      .bind q.extending_emit fun _ => .bind (.jump done) fun _ => .setBlock done
  | .eitherSecond test p h =>
    exact .right fun t => .right fun f => .right fun done => .right fun _ => .right fun _ =>
      .right fun _ => .right fun _ => .right fun _ => .left (h.cut next e) fun _ =>
      .bind (.jump done) fun _ => .setBlock done
  | .guardTest p h =>
    exact .right fun t => .right fun done => .left (h.cut next e t done) fun _ =>
      .bind (.setBlock t) fun _ => .bind p.extending_emit fun _ => .bind (.jump done) fun _ =>
      .setBlock done
  | .guardBody test h =>
    exact .right fun t => .right fun done => .right fun _ => .right fun _ =>
      .left (h.cut next e) fun _ => .bind (.jump done) fun _ => .setBlock done
  | .shortFirst stopIf q h =>
    exact .right fun done => .right fun second => .left (h.cut next e) fun _ =>
      .shortRest stopIf q.extending_emit
  | .shortSecond stopIf p h =>
    refine .right fun done => .right fun second => .right fun _ => .right fun _ => ?_
    cases stopIf <;> exact .right fun _ => .right fun _ => .right fun _ =>
      .left (h.cut next e) fun _ => .bind (.jump done) fun _ => .setBlock done
  | .eachIterable isLoop pos vars body h =>
    exact .right fun head => .right fun round => .right fun tail => .left (h.cut next e) fun _ =>
      .eachRest (.bind vars.extending_emit fun _ => .eachBody isLoop body.extending_emit)
  | .eachVars isLoop iterable pos body h =>
    exact .right fun head => .right fun round => .right fun tail => .right fun _ => .right fun _ =>
      .right fun _ => .right fun _ => .right fun _ => .right fun _ => .right fun _ =>
      .left (.left (h.cut next e) fun _ => .eachBody isLoop body.extending_emit) fun _ =>
      .bind (.jump head) fun _ => .bind (.setBlock tail) fun _ => .emit .iterPop
  | .eachBody isLoop iterable pos vars h =>
    refine .right fun head => .right fun round => .right fun tail => .right fun _ => .right fun _ =>
      .right fun _ => .right fun _ => .right fun _ => .right fun _ => .right fun _ =>
      .left (.right fun _ => ?_) fun _ => .bind (.jump head) fun _ =>
          .bind (.setBlock tail) fun _ =>
      .emit .iterPop
    cases isLoop with
    | true => exact .inLoop (h.cut next e)
    | false => exact h.cut next e
  | .whileTest body h =>
    exact .right fun head => .right fun round => .right fun done => .right fun _ => .right fun _ =>
      .left (h.cut next e round done) fun _ => .bind (.setBlock round) fun _ =>
      .bind (.inLoop body.extending_emit) fun _ => .bind (.jump head) fun _ => .setBlock done
  | .whileBody test h =>
    exact .right fun head => .right fun round => .right fun done => .right fun _ => .right fun _ =>
      .right fun _ => .right fun _ => .left (.inLoop (h.cut next e)) fun _ =>
      .bind (.jump head) fun _ => .setBlock done
  | .funcBody f k h =>
    exact .left (.assemble f.pos (h.cut next e)) fun _ => .bind (.functionIndex _) fun i =>
      (k i).extending_emit
  | .funcRest f body h => exact .right fun _ => .right fun i => (h i).cut next e

/-- A test around the hole. -/
theorem Test.Context.cut {C : Plan → Test} (h : Test.Context C) (next : Plan) (e : CompileError)
    (t f : BlockId) : Cut next.emit e ((C next).emit t f) ((C (.fail e)).emit t f) := by
  match h with
  | .on h => exact .left (h.cut next e) fun _ => .condJump _ _ _
  | .not h => exact h.cut next e f t
  | .bothFirst test h | .eitherFirst test h =>
    exact .left (h.cut next e) fun _ => .bind .newBlock fun second =>
        .bind (.condJump _ _ _) fun _ =>
      .bind (.setBlock second) fun _ => test.extending_emit t f
  | .bothSecond p h | .eitherSecond p h =>
    exact .right fun _ => .right fun second => .right fun _ => .right fun _ => h.cut next e t f

end

end Starlark
