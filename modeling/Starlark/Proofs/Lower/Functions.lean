import Starlark.Proofs.Lower.Drafting
import Starlark.Proofs.Lower.Typing

/-!
# The functions of a program

While a plan is emitted, the table of functions gets the functions that are nested in the plan and
no others (`Plan.adding_emit`). If the plan is typed, so is the body of each of them
(`Plan.compiled_of_holds`).
-/

set_option autoImplicit false

namespace Starlark

mutual

/-- Code is that of a function nested in a plan. -/
def Plan.Holds (pool : Pool) (code : Code) : Plan → Prop
  | .seq p q | .short _ p q => p.Holds pool code ∨ q.Holds pool code
  | .name s k => ∃ i, IndexOf pool.names s i ∧ (k i).Holds pool code
  | .unpack _ targets => targets.Holds pool code
  | .either test p q => test.Holds pool code ∨ p.Holds pool code ∨ q.Holds pool code
  | .guard test p | .whileLoop test p => test.Holds pool code ∨ p.Holds pool code
  | .each _ iterable _ vars body =>
    iterable.Holds pool code ∨ vars.Holds pool code ∨ body.Holds pool code
  | .func f body k =>
    (∃ a, code = f.compiled a ∧ body.Assembled pool f.pos a) ∨ body.Holds pool code ∨
      ∃ i a, IndexOf pool.functions (f.compiled a) i ∧ (k i).Holds pool code
  | .skip | .pos _ | .op _ | .arg _ _ | .const _ | .leave _ | .ret | .load _ | .fail _ => False

/-- Code is that of a function nested in a test. -/
def Test.Holds (pool : Pool) (code : Code) : Test → Prop
  | .on p => p.Holds pool code
  | .not test => test.Holds pool code
  | .both p test | .either p test => p.Holds pool code ∨ test.Holds pool code

end

open Build Builder

/-! ## Tables while code is built -/

/-- Tables only grow, and the functions that are added are of a kind. -/
structure Builder.Adds (b b' : Builder) (H : Pool → Code → Prop) : Prop where
  covered : ∀ pool, b'.Covered pool → b.Covered pool
  functions : ∀ pool, b'.Covered pool → ∀ code ∈ b'.functions, code ∈ b.functions ∨ H pool code

namespace Builder.Adds

variable {b b1 b' : Builder} {H H' : Pool → Code → Prop}

/-- A builder that only drafts adds no functions. -/
theorem of_drafts (h : b.Drafts b') : b.Adds b' H where
  covered := by
    rintro pool ⟨h1, h2, h3⟩
    exact ⟨h.names ▸ h1, h.constants ▸ h2, h.functions ▸ h3⟩
  functions := by
    intro pool _ code hcode
    exact .inl (h.functions ▸ hcode)

/-- Functions that are added in two goes. -/
theorem trans (h : b.Adds b1 H) (h' : b1.Adds b' H) : b.Adds b' H where
  covered := fun pool hcov => h.covered pool (h'.covered pool hcov)
  functions := by
    intro pool hcov code hcode
    rcases h'.functions pool hcov code hcode with hcode | hcode
    · exact h.functions pool (h'.covered pool hcov) code hcode
    · exact .inr hcode

/-- What is known of the functions that are added may be weakened. -/
theorem mono (h : b.Adds b' H) (himp : ∀ pool code, b'.Covered pool → H pool code → H' pool code) :
    b.Adds b' H' where
  covered := h.covered
  functions := by
    intro pool hcov code hcode
    exact (h.functions pool hcov code hcode).imp_right (himp pool code hcov)

end Builder.Adds

/-- A lowering program adds functions of a kind only. -/
def Build.Adding {α : Type} (H : Pool → Code → Prop) (m : Build α) : Prop :=
  ∀ b a b', m b = .ok a b' → b.Adds b' H

namespace Build.Adding

variable {α β : Type} {H H' : Pool → Code → Prop}

theorem of_drafting {m : Build α} (h : Drafting m) : Adding H m :=
  fun b a b' hm => .of_drafts (h b a b' hm)

/-- Builders in sequence add the functions of both. -/
theorem bind {m : Build α} {f : α → Build β} (hm : Adding H m) (hf : ∀ a, Adding H (f a)) :
    Adding H (m >>= f) := by
  intro b a b' h
  obtain ⟨x, b1, h1, h2⟩ := bind_eq_ok.1 h
  exact (hm b x b1 h1).trans (hf x b1 a b' h2)

/-- What comes first leaves the tables as they are. -/
theorem after {m : Build α} {f : α → Build β} (hm : Drafting m) (hf : ∀ a, Adding H (f a)) :
    Adding H (m >>= f) :=
  bind (of_drafting hm) hf

/-- What comes last leaves the tables as they are. -/
theorem before {m : Build α} {f : α → Build β} (hm : Adding H m) (hf : ∀ a, Drafting (f a)) :
    Adding H (m >>= f) :=
  bind hm fun a => of_drafting (hf a)

theorem mono {m : Build α} (h : Adding H m) (himp : ∀ pool code, H pool code → H' pool code) :
    Adding H' m :=
  fun b a b' hm => (h b a b' hm).mono fun pool code _ => himp pool code

theorem inLoop {l : Loop} {body : Build Unit} (h : Adding H body) : Adding H (inLoop l body) :=
  after (.modify fun _ => ⟨rfl, rfl, rfl, rfl⟩) fun _ =>
    before h fun _ => .modify fun _ => ⟨rfl, rfl, rfl, rfl⟩

theorem constant (c : Constant) : Adding H (constant c) := by
  refine before ?_ fun i => .emitArg .constant i
  intro b a b' h
  cases h
  obtain ⟨-, hstart⟩ := intern_spec b.constants c
  exact ⟨fun pool hcov => ⟨hcov.names, hstart.trans hcov.constants, hcov.functions⟩,
    fun pool _ code hcode => .inl hcode⟩

theorem addLoad (d : Decl) : Adding H (addLoad d) := by
  intro b a b' h
  cases h
  exact ⟨fun pool hcov => ⟨hcov.names, hcov.constants, hcov.functions⟩,
    fun pool _ code hcode => .inl hcode⟩

end Build.Adding

/-! ## Plans -/

/-- Assembling the body of a function adds what is nested in it. -/
theorem Builder.Adds.assemble {pos : Position} {body : Plan} {b b' : Builder} {a : Assembled}
    (hbody : Adding (fun pool code => body.Holds pool code) body.emit)
    (h : Build.assemble pos body.emit b = .ok a b') :
    b.Adds b' (fun pool code => body.Holds pool code) ∧
      ∀ pool, b'.Covered pool → body.Assembled pool pos a := by
  obtain ⟨b1, hb, hend, hsame⟩ := drafts_of_assemble h
  constructor
  · have hin := (hbody _ _ _ hb).trans (.of_drafts hsame)
    -- the body starts with the tables of the code around it
    exact ⟨fun pool hcov =>
      have hcov := hin.covered pool hcov
      ⟨hcov.names, hcov.constants, hcov.functions⟩, hin.functions⟩
  · obtain ⟨e, h1⟩ := Plan.realizes body (cursor_inside b pos) hb
    obtain ⟨b2, hfinish, hat⟩ := finish_eq h1
    obtain ⟨rfl, l, hlayout, hcode⟩ := close_eq_ok (hfinish.symm.trans hend)
    intro pool hcov
    obtain ⟨-, q, gbody, gnone, gret⟩ := hat pool ⟨hcov.names, hcov.constants, hcov.functions⟩
    exact ⟨b2.blocks, l, q, gbody, gnone, gret, hlayout, hcode⟩

/-- A plan adds what its functions are compiled to. -/
def Plan.Adding (p : Plan) : Prop := Build.Adding (fun pool code => p.Holds pool code) p.emit

theorem Plan.Adding.name {n : String} {k : UInt32 → Plan} (ih : ∀ i, (k i).Adding) :
    (Plan.name n k).Adding := by
  intro b u b' h
  obtain ⟨i, b1, hi, hk⟩ := bind_eq_ok.1 h
  have hrest := ih i b1 u b' hk
  cases hi
  obtain ⟨hentry, hstart⟩ := intern_spec b.names n
  have hfirst : b.Adds { b with names := (intern b.names n).2 } fun pool code =>
      ∃ i, IndexOf pool.names n i ∧ (k i).Holds pool code :=
    ⟨fun pool hcov => ⟨hstart.trans hcov.names, hcov.constants, hcov.functions⟩,
      fun pool _ code hcode => .inl hcode⟩
  -- the index is right in all tables from here on
  exact hfirst.trans (hrest.mono fun pool code hcov hcode =>
    ⟨_, indexOf_of_start hentry (hrest.covered pool hcov).names, hcode⟩)

/-- The function is added after those of its body. -/
theorem Plan.Adding.func {body : Plan} {k : UInt32 → Plan} (ihb : body.Adding)
    (ihk : ∀ i, (k i).Adding) (f : Function) : (Plan.func f body k).Adding := by
  intro b u b' h
  obtain ⟨a, b1, ha, h⟩ := bind_eq_ok.1 h
  obtain ⟨i, b2, hi, hk⟩ := bind_eq_ok.1 h
  obtain ⟨hbody, hassembled⟩ := Builder.Adds.assemble ihb ha
  have hrest := ihk i b2 u b' hk
  cases hi
  have hlast : (b1.functions.push (f.compiled a))[b1.functions.size]? = some (f.compiled a) := by
    simp
  have hgrow : ∀ pool,
      Covered { b1 with functions := b1.functions.push (f.compiled a) } pool → b1.Covered pool :=
    fun pool hcov =>
      ⟨hcov.names, hcov.constants, List.IsPrefix.trans (by simp) hcov.functions⟩
  have hpush : b1.Adds { b1 with functions := b1.functions.push (f.compiled a) } fun pool code =>
      (Plan.func f body k).Holds pool code := by
    refine ⟨hgrow, fun pool hcov code hcode => ?_⟩
    rcases Array.mem_push.1 hcode with hcode | rfl
    · exact .inl hcode
    · exact .inr (.inl ⟨a, rfl, hassembled pool (hgrow pool hcov)⟩)
  -- first what is nested in the body, then the function itself, then what comes after it
  refine ((hbody.mono fun pool code _ hcode => .inr (.inl hcode)).trans hpush).trans
    (hrest.mono fun pool code hcov hcode => .inr (.inr ⟨_, a, ?_, hcode⟩))
  exact indexOf_of_start hlast (hrest.covered pool hcov).functions

theorem Plan.Adding.short {p q : Plan} (ihp : p.Adding) (ihq : q.Adding) (stopIf : Bool) :
    (Plan.short stopIf p q).Adding := by
  refine .after .newBlock fun done => .after .newBlock fun second =>
    .bind (ihp.mono fun _ _ h => .inl h) fun _ => .after (.emit .dup) fun _ => ?_
  have hrest : Build.Adding (fun pool code => (Plan.short stopIf p q).Holds pool code) (do
      Build.setBlock second
      Build.emit .pop
      q.emit
      Build.jump done
      Build.setBlock done) :=
    .after (.setBlock second) fun _ => .after (.emit .pop) fun _ =>
      .before (ihq.mono fun _ _ h => .inr h) fun _ =>
      .bind (.jump done) fun _ => .setBlock done
  cases stopIf with
  | true => exact .after (.condJump _ _ _) fun _ => hrest
  | false => exact .after (.condJump _ _ _) fun _ => hrest

theorem Plan.Adding.each {iterable vars body : Plan} (ihi : iterable.Adding) (ihv : vars.Adding)
    (ihb : body.Adding) (isLoop : Bool) (pos : Position) :
    (Plan.each isLoop iterable pos vars body).Adding := by
  have hvars := ihv.mono fun _ _ h =>
    show (Plan.each isLoop iterable pos vars body).Holds _ _ from .inr (.inl h)
  have hbody := ihb.mono fun _ _ h =>
    show (Plan.each isLoop iterable pos vars body).Holds _ _ from .inr (.inr h)
  refine .after .newBlock fun head => .after .newBlock fun round => .after .newBlock fun tail =>
    .bind (ihi.mono fun _ _ h => .inl h) fun _ =>
    .after (.setPos pos) fun _ => .after (.emit .iterPush) fun _ => .after (.jump head) fun _ =>
    .after (.setBlock head) fun _ => .after (.condJump _ _ _) fun _ =>
    .after (.setBlock round) fun _ => .before (.bind hvars fun _ => ?_) fun _ =>
    .bind (.jump head) fun _ => .bind (.setBlock tail) fun _ => .emit .iterPop
  cases isLoop with
  | true => exact .inLoop hbody
  | false => exact hbody

mutual

/-- Every plan adds the functions that it holds. -/
theorem Plan.adding_emit (p : Plan) : p.Adding := by
  -- only a nested function adds to the table, so every other form passes on what its parts add
  match p with
  | .skip => exact .of_drafting (.pure ())
  | .pos pos => exact .of_drafting (.setPos pos)
  | .load d => exact .addLoad d
  | .fail e => exact nofun
  | .op o => exact .of_drafting (.emit o)
  | .arg o n => exact .of_drafting (.emitArg o n)
  | .const c => exact .constant c
  | .seq p q =>
    refine .bind ((Plan.adding_emit p).mono ?_) fun _ => (Plan.adding_emit q).mono ?_
    · exact fun _ _ h => .inl h
    · exact fun _ _ h => .inr h
  | .unpack n targets =>
    exact .after (.emitArg _ _) fun _ => (Plan.adding_emit targets).mono fun _ _ h => h
  | .name n k => exact .name fun i => Plan.adding_emit (k i)
  | .func f body k => exact .func (Plan.adding_emit body) (fun i => Plan.adding_emit (k i)) f
  | .either test p q =>
    exact .after .newBlock fun t => .after .newBlock fun f => .after .newBlock fun done =>
      .bind ((Test.adding_emit test t f).mono fun _ _ h => .inl h) fun _ =>
          .after (.setBlock t) fun _ =>
      .bind ((Plan.adding_emit p).mono fun _ _ h => .inr (.inl h)) fun _ =>
      .after (.jump done) fun _ => .after (.setBlock f) fun _ =>
      .before ((Plan.adding_emit q).mono fun _ _ h => .inr (.inr h)) fun _ =>
      .bind (.jump done) fun _ => .setBlock done
  | .guard test p =>
    exact .after .newBlock fun t => .after .newBlock fun done =>
      .bind ((Test.adding_emit test t done).mono fun _ _ h => .inl h) fun _ =>
      .after (.setBlock t) fun _ => .before ((Plan.adding_emit p).mono fun _ _ h => .inr h) fun _ =>
      .bind (.jump done) fun _ => .setBlock done
  | .short stopIf p q => exact .short (Plan.adding_emit p) (Plan.adding_emit q) stopIf
  | .each isLoop iterable pos vars body =>
    exact .each (Plan.adding_emit iterable) (Plan.adding_emit vars)
        (Plan.adding_emit body) isLoop pos
  | .whileLoop test body =>
    exact .after .newBlock fun head => .after .newBlock fun round => .after .newBlock fun done =>
      .after (.jump head) fun _ => .after (.setBlock head) fun _ =>
      .bind ((Test.adding_emit test round done).mono fun _ _ h => .inl h) fun _ =>
      .after (.setBlock round) fun _ =>
      .before (.inLoop ((Plan.adding_emit body).mono fun _ _ h => .inr h)) fun _ =>
      .bind (.jump head) fun _ => .setBlock done
  | .leave isBreak => exact .of_drafting (.leave isBreak)
  | .ret => exact .of_drafting .ret

/-- Every test adds the functions that it holds. -/
theorem Test.adding_emit (x : Test) (t f : BlockId) :
    Adding (fun pool code => x.Holds pool code) (x.emit t f) := by
  match x with
  | .on p => exact .before ((Plan.adding_emit p).mono fun _ _ h => h) fun _ => .condJump _ _ _
  | .not x => exact Test.adding_emit x f t
  | .both p x | .either p x =>
    exact .bind ((Plan.adding_emit p).mono fun _ _ h => .inl h) fun _ =>
      .after .newBlock fun second => .after (.condJump _ _ _) fun _ =>
      .after (.setBlock second) fun _ => (Test.adding_emit x t f).mono fun _ _ h => .inr h

end

/-! ## Typed functions -/

section Typed

variable {C D : Type}

/-- Code is that of a function whose body is typed. -/
def Typing.Compiled (T : Typing C D) (pool : Pool) (c : C) (f : Function) (code : Code) : Prop :=
  T.accepts c f ∧ ∃ (body : Plan) (a : Assembled) (e : D), code = f.compiled a ∧
    body.Assembled pool f.pos a ∧ body.Typed T (T.inner c f) (some []) T.start e ∧
    T.Ends (T.inner c f) e

variable {T : Typing C D} {pool : Pool} {code : Code} {P : C → Prop}

-- both are used by the recursive calls only
set_option linter.unusedSectionVars false

variable (hpool : T.Covers pool) (hP : ∀ c f, P c → P (T.inner c f))

include hpool hP

mutual

/-- The functions nested in a typed plan are typed. -/
theorem Plan.compiled_of_holds (p : Plan) {c : C} {states : Option (List (D × D))} {d d' : D}
    (hc : P c) (ht : p.Typed T c states d d') (h : p.Holds pool code) :
    ∃ c' f, P c' ∧ T.Compiled pool c' f code := by
  match p with
  | .skip | .pos _ | .op _ | .arg _ _ | .const _ | .leave _ | .ret | .load _ | .fail _ =>
    exact h.elim
  | .seq p q =>
    obtain ⟨e, htp, htq⟩ := ht
    rcases h with h | h
    · exact Plan.compiled_of_holds p hc htp h
    · exact Plan.compiled_of_holds q hc htq h
  | .name n k =>
    obtain ⟨i, hi, h⟩ := h
    exact Plan.compiled_of_holds (k i) hc (ht i (hpool.name n i hi)) h
  | .unpack n targets =>
    obtain ⟨e, -, hts⟩ := ht
    exact Plan.compiled_of_holds targets hc hts.typed h
  | .either test p q =>
    obtain ⟨e1, e2, a, b, htx, htp, -, htq, -⟩ := ht
    rcases h with h | h | h
    · exact Test.compiled_of_holds test hc htx h
    · exact Plan.compiled_of_holds p hc htp h
    · exact Plan.compiled_of_holds q hc htq h
  | .guard test p =>
    obtain ⟨e, a, htx, htp, -⟩ := ht
    rcases h with h | h
    · exact Test.compiled_of_holds test hc htx h
    · exact Plan.compiled_of_holds p hc htp h
  | .short stopIf p q =>
    obtain ⟨e, e1, s, s1, a, htp, -, -, -, htq, -⟩ := ht
    rcases h with h | h
    · exact Plan.compiled_of_holds p hc htp h
    · exact Plan.compiled_of_holds q hc htq h
  | .each isLoop iterable pos vars body =>
    obtain ⟨e, e1, head, tail, round, e2, e3, htit, -, -, -, htvars, htbody, -, -⟩ := ht
    rcases h with h | h | h
    · exact Plan.compiled_of_holds iterable hc htit h
    · exact Plan.compiled_of_holds vars hc htvars h
    · cases isLoop with
      | true =>
        obtain ⟨ls, -, htbody⟩ := htbody
        exact Plan.compiled_of_holds body hc htbody h
      | false => exact Plan.compiled_of_holds body hc htbody h
  | .whileLoop test body =>
    obtain ⟨head, round, e, ls, -, -, htx, htbody, -⟩ := ht
    rcases h with h | h
    · exact Test.compiled_of_holds test hc htx h
    · exact Plan.compiled_of_holds body hc htbody h
  | .func f body k =>
    obtain ⟨haccepts, ⟨e, htbody, hends⟩, htk⟩ := ht
    -- the function itself, one inside it, or one behind it
    rcases h with ⟨a, rfl, ha⟩ | h | ⟨i, a, hi, h⟩
    · exact ⟨c, f, hc, haccepts, body, a, e, rfl, ha, htbody, hends⟩
    · exact Plan.compiled_of_holds body (hP c f hc) htbody h
    · exact Plan.compiled_of_holds (k i) hc (htk i (hpool.func f a i hi)) h

/-- A function that a typed test holds is compiled from a typed body. -/
theorem Test.compiled_of_holds (x : Test) {c : C} {d t f : D} (hc : P c) (ht : x.Typed T c d t f)
    (h : x.Holds pool code) : ∃ c' f, P c' ∧ T.Compiled pool c' f code := by
  match x with
  | .on p =>
    obtain ⟨e, htp, -⟩ := ht
    exact Plan.compiled_of_holds p hc htp h
  | .not x => exact Test.compiled_of_holds x hc ht h
  | .both p x | .either p x =>
    obtain ⟨e, s, htp, -, htx⟩ := ht
    rcases h with h | h
    · exact Plan.compiled_of_holds p hc htp h
    · exact Test.compiled_of_holds x hc htx h

end

end Typed

end Starlark
