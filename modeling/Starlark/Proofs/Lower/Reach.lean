import Starlark.Proofs.Lower.Typing
import Mathlib.Data.Int.ModEq

/-!
# Where control comes in a plan

Control that comes to the start of an expression comes to its end, and to each target of an
unpacking in between (`Plan.At.comes`, `Plan.At.comes_each`). On the way the depth of the operand
stack changes by what the typing says, up to the width of an operand. Every block of a plan leads to
code (`Plan.At.leads`), so no cycle consists of empty blocks only: what a loop goes back to starts
with an instruction (`Test.At.first`).
-/

set_option autoImplicit false

namespace Starlark

open BlockGraph (Leads)

namespace BlockGraph

/-- The points that control can come to. -/
inductive Comes (g : BlockGraph) : Point → Prop where
  | entry : Comes g ⟨0, 0⟩
  | next {p : Point} {op : Opcode} {arg : UInt32} :
      Comes g p → g.InsnAt p op arg → Comes g p.next
  | jmp {p : Point} {id : BlockId} :
      Comes g p → (g.block p.block).insns.size = p.index → (g.block p.block).jmp = some id →
        Comes g ⟨id, 0⟩
  | cjmp {p : Point} {id : BlockId} :
      Comes g p → (g.block p.block).insns.size = p.index → (g.block p.block).cjmp = some id →
        Comes g ⟨id, 0⟩

variable {g : BlockGraph} {p : Point} {op : Opcode} {arg : UInt32} {t f id : BlockId}

/-- A block with an instruction is not empty. -/
theorem InsnAt.insns_ne (h : g.InsnAt p op arg) : (g.block p.block).insns ≠ #[] := by
  obtain ⟨pos, h⟩ := h
  intro he
  simp [he] at h

/-- A block with an instruction leads somewhere. -/
theorem InsnAt.led (h : g.InsnAt p op arg) : g.Led p.block := ⟨_, .here h.insns_ne⟩

/-- A block that ends with a jump to a led block is led. -/
theorem EndsAt.led (h : g.EndsAt p id) (hid : g.Led id) : g.Led p.block := by
  by_cases he : (g.block p.block).insns = #[]
  · exact ⟨_, .skip he h.jmp hid.choose_spec⟩
  · exact ⟨_, .here he⟩

/-- Control that comes to the end of a block comes to where it jumps. -/
theorem EndsAt.comes (h : g.EndsAt p id) (hp : g.Comes p) : g.Comes ⟨id, 0⟩ :=
  .jmp hp h.size h.jmp

/-- Control that comes to a branch comes to both sides. -/
theorem BranchAt.comes (h : g.BranchAt p op t f) (hp : g.Comes p) :
    g.Comes ⟨t, 0⟩ ∧ g.Comes ⟨f, 0⟩ :=
  ⟨.cjmp (hp.next h.insn) h.size h.cjmp, .jmp (hp.next h.insn) h.size h.jmp⟩

end BlockGraph

/-! ## Depths -/

/-- A typing says how deep the operand stack is. A count in an operand is known as far as 32 bits
hold it. -/
structure Typing.Measures {C D : Type} (T : Typing C D) (depth : D → Nat) : Prop where
  start : depth T.start = 0
  le : ∀ {d e}, T.le d e → depth d = depth e
  step_modEq : ∀ {c op arg d e}, op.isPlain = true → T.step c op arg d e →
    (depth e : Int) ≡ depth d + op.stackEffect arg [ZMOD 2 ^ 32]
  step_le : ∀ {c op arg d e}, op.isPlain = true → T.step c op arg d e → depth e ≤ depth d + 2
  step_eq : ∀ {c op arg d e}, op.isPlain = true → T.step c op arg d e → depth d < 2 ^ 31 →
    (depth e : Int) = depth d + op.stackEffect arg
  unpack : ∀ {n d e}, T.unpack n d e → depth e + 1 = depth d + n
  drop : ∀ {d e}, T.drop d e → depth d = depth e + 1
  branch : ∀ {op d t f}, op.isCondJump = true → T.branch op d t f →
    (depth t : Int) = depth d + op.stackEffect 0 ∧
      depth f = depth t + if op = .iterJmp then 1 else 0
  ret : ∀ {d}, T.ret d → 0 < depth d

/-- Depths at the points of a graph, up to the width of an operand. -/
structure BlockGraph.Flows (g : BlockGraph) (level : Point → Int) : Prop where
  step : ∀ {p op arg}, g.Comes p → g.InsnAt p op arg → op.isCondJump = false →
    level p.next ≡ level p + op.stackEffect arg [ZMOD 2 ^ 32]
  ends : ∀ {p id}, g.Comes p → g.EndsAt p id → level ⟨id, 0⟩ ≡ level p [ZMOD 2 ^ 32]
  branch : ∀ {p op t f}, g.Comes p → op.isCondJump = true → g.BranchAt p op t f →
    level ⟨t, 0⟩ ≡ level p + op.stackEffect 0 [ZMOD 2 ^ 32] ∧
      level ⟨f, 0⟩ ≡ level p + op.stackEffect 0 + (if op = .iterJmp then 1 else 0) [ZMOD 2 ^ 32]

/-- A plain instruction does not jump. -/
theorem Opcode.isCondJump_of_isPlain {op : Opcode} (h : op.isPlain = true) :
    op.isCondJump = false := by
  cases op <;> first | rfl | cases h

/-- The operand of an unpacking, as a count. -/
theorem Opcode.signedArg_ofNat_modEq (n : Nat) : signedArg (UInt32.ofNat n) ≡ n [ZMOD 2 ^ 32] := by
  have h : signedArg (UInt32.ofNat n) = (BitVec.ofNat 32 n).toInt := rfl
  rw [h, BitVec.toInt_ofNat']
  exact Int.bmod_emod

section

variable {C D : Type} {T : Typing C D} {c : C} {g : BlockGraph} {depth : D → Nat}
  {level : Point → Int} {pool : Pool}

namespace Typing.Measures

variable {op : Opcode} {arg : UInt32} {d e t f : D}

/-- A step changes the depth by its effect, modulo 2^32. -/
theorem steps_modEq (h : T.Measures depth) (hop : op.isPlain = true) (hs : T.Steps c op arg d e) :
    (depth e : Int) ≡ depth d + op.stackEffect arg [ZMOD 2 ^ 32] := by
  obtain ⟨e', hs, hle⟩ := hs
  rw [← h.le hle]
  exact h.step_modEq hop hs

/-- A branch changes the depth by its effect, and a round of a loop has one value more. -/
theorem branches (h : T.Measures depth) (hop : op.isCondJump = true)
    (hb : T.Branches op d t f) :
    (depth t : Int) = depth d + op.stackEffect 0 ∧
      depth f = depth t + if op = .iterJmp then 1 else 0 := by
  obtain ⟨t', f', hb, ht, hf⟩ := hb
  rw [← h.le ht, ← h.le hf]
  exact h.branch hop hb

/-- An unpacking raises the stack as its operand says. -/
theorem unpack_modEq {n : Nat} (h : T.Measures depth) (hu : T.unpack n d e) :
    (depth e : Int) ≡ depth d + Opcode.stackEffect .unpack (UInt32.ofNat n) [ZMOD 2 ^ 32] := by
  have hcount : Opcode.stackEffect .unpack (UInt32.ofNat n) ≡ n - 1 [ZMOD 2 ^ 32] :=
    (Opcode.signedArg_ofNat_modEq n).sub_right 1
  have hdepths := h.unpack hu
  have hraised : (depth e : Int) = depth d + (n - 1) := by omega
  rw [hraised]
  exact (hcount.add_left _).symm

end Typing.Measures

/-! ## First instructions -/

mutual

/-- A plan of an expression starts with an instruction, if it does anything. -/
theorem Plan.At.first (hpool : T.Covers pool) (p : Plan) {loops : List Loop} {s q : Point}
    {lo hi : Nat} {d d' : D} (h : p.At pool g loops s lo q hi) (ht : p.Typed T c none d d') :
    q = s ∧ d = d' ∨ ∃ op arg, g.InsnAt s op arg := by
  -- a plan either begins with an instruction or emits none at all
  match p with
  | .skip | .pos _ | .load _ => exact .inl ⟨h.1, ht⟩
  | .op _ | .arg _ _ => exact .inr ⟨_, _, h.1⟩
  | .const _ =>
    obtain ⟨_, -, hi, -⟩ := h
    exact .inr ⟨_, _, hi⟩
  | .name n k =>
    obtain ⟨i, hn, hk⟩ := h
    exact Plan.At.first hpool (k i) hk (ht i (hpool.name n i hn))
  | .func f body k =>
    obtain ⟨i, a, hf, -, hk⟩ := h
    exact Plan.At.first hpool (k i) hk (ht.2.2 i (hpool.func f a i hf))
  | .unpack _ _ => exact .inr ⟨_, _, h.1⟩
  | .seq p r =>
    obtain ⟨m, mid, hp, hr⟩ := h
    obtain ⟨e, htp, htr⟩ := ht
    rcases Plan.At.first hpool p hp htp with ⟨rfl, rfl⟩ | hi
    · exact Plan.At.first hpool r hr htr
    · exact .inr hi
  | .either test _ _ =>
    obtain ⟨_, _, _, _, hx, -⟩ := h
    obtain ⟨_, _, _, _, htx, -⟩ := ht
    exact .inr (Test.At.first hpool test hx htx)
  | .guard test _ =>
    obtain ⟨_, _, hx, -⟩ := h
    obtain ⟨_, _, htx, -⟩ := ht
    exact .inr (Test.At.first hpool test hx htx)
  | .short _ p _ =>
    obtain ⟨m, _, _, hp, hdup, -⟩ := h
    obtain ⟨_, _, _, _, _, htp, -⟩ := ht
    rcases Plan.At.first hpool p hp htp with ⟨rfl, -⟩ | hi
    · exact .inr ⟨_, _, hdup⟩
    · exact .inr hi
  | .each _ iterable _ _ _ =>
    obtain ⟨m1, _, _, _, _, hit, hpush, -⟩ := h
    obtain ⟨_, _, _, _, _, _, _, htit, -⟩ := ht
    rcases Plan.At.first hpool iterable hit htit with ⟨rfl, -⟩ | hi
    · exact .inr ⟨_, _, hpush⟩
    · exact .inr hi
  | .whileLoop _ _ =>
    obtain ⟨_, _, _, _, hls, -⟩ := ht
    cases hls
  | .leave _ =>
    obtain ⟨_, _, hls, -⟩ := ht
    cases hls
  | .ret => cases ht.1
  | .fail _ => exact h.elim

/-- A test starts with an instruction. -/
theorem Test.At.first (hpool : T.Covers pool) (x : Test) {loops : List Loop} {s : Point}
    {lo hi : Nat} {t f : BlockId} {d dt df : D} (h : x.At pool g loops s lo t f hi)
    (ht : x.Typed T c d dt df) : ∃ op arg, g.InsnAt s op arg := by
  match x with
  | .on p =>
    obtain ⟨m, hp, hb⟩ := h
    obtain ⟨e, htp, -⟩ := ht
    rcases Plan.At.first hpool p hp htp with ⟨rfl, -⟩ | hi
    · exact ⟨_, _, hb.insn⟩
    · exact hi
  | .not x => exact Test.At.first hpool x h ht
  | .both p x | .either p x =>
    obtain ⟨m, mid, hp, hb, -⟩ := h
    obtain ⟨e, st, htp, -⟩ := ht
    rcases Plan.At.first hpool p hp htp with ⟨rfl, -⟩ | hi
    · exact ⟨_, _, hb.insn⟩
    · exact hi

end

/-! ## Every block leads to code -/

mutual

/-- If the block where a plan ends leads to code, and so do those behind its loops, then all its
blocks do. -/
theorem Plan.At.leads (hpool : T.Covers pool) (p : Plan) {loops : List Loop}
    {states : Option (List (D × D))} {s q : Point} {lo hi : Nat} {d d' : D}
    (h : p.At pool g loops s lo q hi) (ht : p.Typed T c states d d')
    (hloops : ∀ l ∈ loops, g.Led l.breakTo ∧ g.Led l.continueTo) (hq : g.Led q.block) :
    g.Led s.block ∧ AllFrom g.Led lo hi := by
  -- from the end of the plan back to its start: the rest leads to code before what comes first does
  match p with
  | .skip | .pos _ | .load _ =>
    obtain ⟨rfl, rfl⟩ := h
    exact ⟨hq, .nil _⟩
  | .op _ | .arg _ _ =>
    obtain ⟨hi, rfl, rfl⟩ := h
    exact ⟨hi.led, .nil _⟩
  | .const _ =>
    obtain ⟨_, -, hi, rfl, rfl⟩ := h
    exact ⟨hi.led, .nil _⟩
  | .name n k =>
    obtain ⟨i, hn, hk⟩ := h
    exact Plan.At.leads hpool (k i) hk (ht i (hpool.name n i hn)) hloops hq
  | .func f body k =>
    obtain ⟨i, a, hf, -, hk⟩ := h
    exact Plan.At.leads hpool (k i) hk (ht.2.2 i (hpool.func f a i hf)) hloops hq
  | .unpack _ targets =>
    obtain ⟨hi, hrest⟩ := h
    obtain ⟨e, -, htargets⟩ := ht
    exact ⟨hi.led, (Plan.At.leads hpool targets hrest htargets.typed hloops hq).2⟩
  | .seq p r =>
    obtain ⟨m, mid, hp, hr⟩ := h
    obtain ⟨e, htp, htr⟩ := ht
    obtain ⟨hm, k2⟩ := Plan.At.leads hpool r hr htr hloops hq
    obtain ⟨hs, k1⟩ := Plan.At.leads hpool p hp htp hloops hm
    exact ⟨hs, k1.append k2⟩
  | .either test p r =>
    obtain ⟨m1, q1, m2, q2, hx, hp, he1, hr, he2, rfl⟩ := h
    obtain ⟨e1, e2, a, b, htx, htp, -, htr, -⟩ := ht
    obtain ⟨_, _, hi⟩ := Test.At.first hpool test hx htx
    have k1 := Test.At.leads hpool test hx htx hloops
    obtain ⟨c2, k2⟩ := Plan.At.leads hpool p hp htp hloops (he1.led hq)
    obtain ⟨c3, k3⟩ := Plan.At.leads hpool r hr htr hloops (he2.led hq)
    exact ⟨hi.led, .cons c2 (.cons c3 (.cons hq (k1.append (k2.append k3))))⟩
  | .guard test p =>
    obtain ⟨m1, q1, hx, hp, he1, rfl⟩ := h
    obtain ⟨e, a, htx, htp, -⟩ := ht
    obtain ⟨_, _, hi⟩ := Test.At.first hpool test hx htx
    have k1 := Test.At.leads hpool test hx htx hloops
    obtain ⟨c2, k2⟩ := Plan.At.leads hpool p hp htp hloops (he1.led hq)
    exact ⟨hi.led, .cons c2 (.cons hq (k1.append k2))⟩
  | .short stopIf p r =>
    obtain ⟨m, mid, q1, hp, hdup, -, hpop, hr, he1, rfl⟩ := h
    obtain ⟨e, e1, st, st1, a, htp, -, -, -, htr, -⟩ := ht
    obtain ⟨c1, k1⟩ := Plan.At.leads hpool p hp htp hloops hdup.led
    obtain ⟨-, k2⟩ := Plan.At.leads hpool r hr htr hloops (he1.led hq)
    exact ⟨c1, .cons hq (.cons hpop.led (k1.append k2))⟩
  | .each isLoop iterable _ vars body =>
    obtain ⟨m1, h1, m2, h2, m3, hit, hpush, -, hbr, hvars, hbody, he2, hpop, rfl⟩ := h
    obtain ⟨e, e1, head, tl, round, e2, e3, htit, -, -, -, htvars, htbody, -, -⟩ := ht
    have hhead : g.Led lo := hbr.insn.led
    have htail : g.Led (lo + 2) := hpop.led
    -- in a loop, the body may also leave to the tail or go back to the head
    obtain ⟨inside, htbody, hin⟩ : ∃ inside, body.Typed T c inside e2 e3 ∧
        ∀ l ∈ (if isLoop then ⟨lo + 2, lo⟩ :: loops else loops),
          g.Led l.breakTo ∧ g.Led l.continueTo := by
      cases isLoop with
      | true =>
        obtain ⟨ls, -, htbody⟩ := htbody
        exact ⟨_, htbody, by simpa using ⟨⟨htail, hhead⟩, hloops⟩⟩
      | false => exact ⟨_, htbody, hloops⟩
    obtain ⟨c1, k1⟩ := Plan.At.leads hpool iterable hit htit hloops hpush.led
    obtain ⟨c3, k3⟩ := Plan.At.leads hpool body hbody htbody hin (he2.led hhead)
    obtain ⟨c2, k2⟩ := Plan.At.leads hpool vars hvars htvars hloops c3
    exact ⟨c1, .cons hhead (.cons c2 (.cons htail (k1.append (k2.append k3))))⟩
  | .whileLoop test body =>
    obtain ⟨m1, q1, he1, hx, hbody, he2, rfl⟩ := h
    obtain ⟨head, round, e, ls, -, -, htx, htbody, -⟩ := ht
    obtain ⟨_, _, hi⟩ := Test.At.first hpool test hx htx
    have hhead : g.Led lo := hi.led
    have k1 := Test.At.leads hpool test hx htx hloops
    obtain ⟨c2, k2⟩ := Plan.At.leads hpool body hbody htbody
      (List.forall_mem_cons.2 ⟨⟨hq, hhead⟩, hloops⟩) (he2.led hhead)
    exact ⟨he1.led hhead, .cons hhead (.cons c2 (.cons hq (k1.append k2)))⟩
  | .leave isBreak =>
    obtain ⟨⟨l, rest, rfl, hend⟩, rfl, rfl⟩ := h
    have hl := hloops l List.mem_cons_self
    refine ⟨hend.led ?_, .cons hq (.nil _)⟩
    cases isBreak with
    | true => exact hl.1
    | false => exact hl.2
  | .ret =>
    obtain ⟨hret, rfl, rfl⟩ := h
    exact ⟨hret.insn.led, .cons hq (.nil _)⟩
  | .fail _ => exact h.elim

/-- The blocks of a typed test lead somewhere. -/
theorem Test.At.leads (hpool : T.Covers pool) (x : Test) {loops : List Loop} {s : Point}
    {lo hi : Nat} {t f : BlockId} {d dt df : D} (h : x.At pool g loops s lo t f hi)
    (ht : x.Typed T c d dt df)
    (hloops : ∀ l ∈ loops, g.Led l.breakTo ∧ g.Led l.continueTo) :
    AllFrom g.Led lo hi := by
  match x with
  | .on p =>
    obtain ⟨m, hp, hb⟩ := h
    obtain ⟨e, htp, -⟩ := ht
    exact (Plan.At.leads hpool p hp htp hloops hb.insn.led).2
  | .not x => exact Test.At.leads hpool x h ht hloops
  | .both p x | .either p x =>
    obtain ⟨m, mid, hp, hb, hx⟩ := h
    obtain ⟨e, st, htp, -, htx⟩ := ht
    obtain ⟨-, k1⟩ := Plan.At.leads hpool p hp htp hloops hb.insn.led
    have k2 := Test.At.leads hpool x hx htx hloops
    obtain ⟨_, _, hi⟩ := Test.At.first hpool x hx htx
    exact k1.append (.cons hi.led k2)

end

/-! ## From the start to the end

The level of a point and the depth there differ by a number that no part of an expression changes,
as far as 32 bits hold it. -/

section Comes

-- the pool is used by the recursive calls only
set_option linter.unusedSectionVars false

variable (hpool : T.Covers pool) (hdepth : T.Measures depth) (hflow : g.Flows level)

include hpool hdepth hflow

omit hpool in
/-- Control goes on behind an instruction, at the level that its step says. -/
theorem comes_insn {s : Point} {op : Opcode} {arg : UInt32} {d d' : D}
    (hi : g.InsnAt s op arg) (hop : op.isPlain = true) (ht : T.Steps c op arg d d')
    (hs : g.Comes s) :
    g.Comes s.next ∧ level s.next - depth d' ≡ level s - depth d [ZMOD 2 ^ 32] := by
  have hlevel := hflow.step hs hi (Opcode.isCondJump_of_isPlain hop)
  have hoff := hlevel.sub (hdepth.steps_modEq hop ht)
  rw [Int.add_sub_add_right] at hoff
  exact ⟨hs.next hi, hoff⟩

omit hpool in
/-- Control goes on behind an unpacking, at the level that its elements say. -/
theorem comes_unpack {s : Point} {n : Nat} {d e : D} (hi : g.InsnAt s .unpack (UInt32.ofNat n))
    (hu : T.unpack n d e) (hs : g.Comes s) :
    g.Comes s.next ∧ level s.next - depth e ≡ level s - depth d [ZMOD 2 ^ 32] := by
  have hoff := (hflow.step hs hi rfl).sub (hdepth.unpack_modEq hu)
  rw [Int.add_sub_add_right] at hoff
  exact ⟨hs.next hi, hoff⟩

omit hpool in
/-- Control goes on behind a block, at the same level. -/
theorem comes_ends {s : Point} {id : BlockId} {d e : D} (he : g.EndsAt s id) (hle : T.le d e)
    (hs : g.Comes s) :
    g.Comes ⟨id, 0⟩ ∧ level ⟨id, 0⟩ - depth e ≡ level s - depth d [ZMOD 2 ^ 32] := by
  rw [← hdepth.le hle]
  exact ⟨he.comes hs, (hflow.ends hs he).sub_right _⟩

omit hpool in
/-- Control goes on at both sides of a branch, each at its level. -/
theorem comes_branch {s : Point} {op : Opcode} {t f : BlockId} {d dt df : D}
    (hb : g.BranchAt s op t f) (hop : op.isCondJump = true) (ht : T.Branches op d dt df)
    (hs : g.Comes s) :
    (g.Comes ⟨t, 0⟩ ∧ level ⟨t, 0⟩ - depth dt ≡ level s - depth d [ZMOD 2 ^ 32]) ∧
      g.Comes ⟨f, 0⟩ ∧ level ⟨f, 0⟩ - depth df ≡ level s - depth d [ZMOD 2 ^ 32] := by
  obtain ⟨hlt, hlf⟩ := hflow.branch hs hop hb
  obtain ⟨hdt, hdf⟩ := hdepth.branches hop ht
  obtain ⟨hct, hcf⟩ := hb.comes hs
  have ht' : level s + op.stackEffect 0 - depth dt = level s - depth d := by omega
  have hf' : level s + op.stackEffect 0 + (if op = .iterJmp then 1 else 0) - depth df =
      level s - depth d := by
    by_cases hiter : op = .iterJmp
    · rw [if_pos hiter] at hdf ⊢
      omega
    · rw [if_neg hiter] at hdf ⊢
      omega
  exact ⟨⟨hct, ht' ▸ hlt.sub_right _⟩, hcf, hf' ▸ hlf.sub_right _⟩

mutual

/-- Control that comes to the start of an expression comes to its end. -/
theorem Plan.At.comes (p : Plan) {loops : List Loop} {s q : Point} {lo hi : Nat} {d d' : D}
    (h : p.At pool g loops s lo q hi) (ht : p.Typed T c none d d') (hs : g.Comes s) :
    g.Comes q ∧ level q - depth d' ≡ level s - depth d [ZMOD 2 ^ 32] := by
  match p with
  | .skip | .pos _ | .load _ =>
    obtain ⟨rfl, rfl⟩ := h
    cases ht
    exact ⟨hs, rfl⟩
  | .op _ | .arg _ _ =>
    obtain ⟨hi, rfl, rfl⟩ := h
    exact comes_insn hdepth hflow hi ht.1 ht.2.2 hs
  | .const x =>
    obtain ⟨i, hx, hi, rfl, rfl⟩ := h
    exact comes_insn hdepth hflow hi rfl (ht i (hpool.const x i hx)) hs
  | .name n k =>
    obtain ⟨i, hn, hk⟩ := h
    exact Plan.At.comes (k i) hk (ht i (hpool.name n i hn)) hs
  | .func f body k =>
    obtain ⟨i, a, hf, -, hk⟩ := h
    exact Plan.At.comes (k i) hk (ht.2.2 i (hpool.func f a i hf)) hs
  | .unpack n targets =>
    obtain ⟨hi, hrest⟩ := h
    obtain ⟨e, hu, htargets⟩ := ht
    obtain ⟨hm, h1⟩ := comes_unpack hdepth hflow hi hu hs
    obtain ⟨hq, h2⟩ := Plan.At.comes targets hrest htargets.typed hm
    exact ⟨hq, h2.trans h1⟩
  | .seq p r =>
    obtain ⟨m, mid, hp, hr⟩ := h
    obtain ⟨e, htp, htr⟩ := ht
    obtain ⟨hm, h1⟩ := Plan.At.comes p hp htp hs
    obtain ⟨hq, h2⟩ := Plan.At.comes r hr htr hm
    exact ⟨hq, h2.trans h1⟩
  | .either test p r =>
    obtain ⟨m1, q1, m2, q2, hx, hp, he1, -, -, rfl⟩ := h
    obtain ⟨e1, e2, a, b, htx, htp, hle, -, -⟩ := ht
    obtain ⟨⟨hc1, h1⟩, -⟩ := Test.At.comes test hx htx hs
    obtain ⟨hc2, h2⟩ := Plan.At.comes p hp htp hc1
    obtain ⟨hc3, h3⟩ := comes_ends hdepth hflow he1 hle hc2
    exact ⟨hc3, h3.trans (h2.trans h1)⟩
  | .guard test p =>
    obtain ⟨m1, q1, hx, -, -, rfl⟩ := h
    obtain ⟨e, a, htx, -⟩ := ht
    exact (Test.At.comes test hx htx hs).2
  | .short stopIf p r =>
    obtain ⟨m, mid, q1, hp, hdup, hbr, -, -, -, rfl⟩ := h
    obtain ⟨e, e1, st, st1, a, htp, htdup, htbr, -⟩ := ht
    obtain ⟨hc1, h1⟩ := Plan.At.comes p hp htp hs
    obtain ⟨hc2, h2⟩ := comes_insn hdepth hflow hdup rfl htdup hc1
    obtain ⟨⟨ht1, kt⟩, hf1, kf⟩ := comes_branch hdepth hflow hbr rfl htbr hc2
    -- the edge that skips the second operand
    cases stopIf with
    | true => exact ⟨ht1, kt.trans (h2.trans h1)⟩
    | false => exact ⟨hf1, kf.trans (h2.trans h1)⟩
  | .each isLoop iterable _ vars body =>
    obtain ⟨m1, h1, m2, h2, m3, hit, hpush, he1, hbr, -, -, -, hpop, rfl⟩ := h
    obtain ⟨e, e1, head, tl, round, e2, e3, htit, htpush, hle1, htbr, -, -, -, htpop⟩ := ht
    obtain ⟨hc1, k1⟩ := Plan.At.comes iterable hit htit hs
    obtain ⟨hc2, k2⟩ := comes_insn hdepth hflow hpush rfl htpush hc1
    obtain ⟨hc3, k3⟩ := comes_ends hdepth hflow he1 hle1 hc2
    obtain ⟨⟨hc4, k4⟩, -⟩ := comes_branch hdepth hflow hbr rfl htbr hc3
    obtain ⟨hc5, k5⟩ := comes_insn hdepth hflow hpop rfl htpop hc4
    exact ⟨hc5, k5.trans (k4.trans (k3.trans (k2.trans k1)))⟩
  | .whileLoop _ _ =>
    obtain ⟨_, _, _, _, hls, -⟩ := ht
    cases hls
  | .leave _ =>
    obtain ⟨_, _, hls, -⟩ := ht
    cases hls
  | .ret => cases ht.1
  | .fail _ => exact h.elim

/-- Control that comes to a test comes to both its ends. -/
theorem Test.At.comes (x : Test) {loops : List Loop} {s : Point} {lo hi : Nat} {t f : BlockId}
    {d dt df : D} (h : x.At pool g loops s lo t f hi) (ht : x.Typed T c d dt df)
    (hs : g.Comes s) :
    (g.Comes ⟨t, 0⟩ ∧ level ⟨t, 0⟩ - depth dt ≡ level s - depth d [ZMOD 2 ^ 32]) ∧
      g.Comes ⟨f, 0⟩ ∧ level ⟨f, 0⟩ - depth df ≡ level s - depth d [ZMOD 2 ^ 32] := by
  -- the difference between level and depth is kept along each way through the test
  match x with
  | .on p =>
    obtain ⟨m, hp, hb⟩ := h
    obtain ⟨e, htp, htb⟩ := ht
    obtain ⟨hm, h1⟩ := Plan.At.comes p hp htp hs
    obtain ⟨⟨hct, kt⟩, hcf, kf⟩ := comes_branch hdepth hflow hb rfl htb hm
    exact ⟨⟨hct, kt.trans h1⟩, hcf, kf.trans h1⟩
  | .not x => exact (Test.At.comes x h ht hs).symm
  | .both p x =>
    obtain ⟨m, mid, hp, hb, hx⟩ := h
    obtain ⟨e, st, htp, htb, htx⟩ := ht
    obtain ⟨hm, h1⟩ := Plan.At.comes p hp htp hs
    obtain ⟨⟨hc, h2⟩, -⟩ := comes_branch hdepth hflow hb rfl htb hm
    obtain ⟨⟨hct, kt⟩, hcf, kf⟩ := Test.At.comes x hx htx hc
    exact ⟨⟨hct, kt.trans (h2.trans h1)⟩, hcf, kf.trans (h2.trans h1)⟩
  | .either p x =>
    obtain ⟨m, mid, hp, hb, hx⟩ := h
    obtain ⟨e, st, htp, htb, htx⟩ := ht
    obtain ⟨hm, h1⟩ := Plan.At.comes p hp htp hs
    obtain ⟨-, hc, h2⟩ := comes_branch hdepth hflow hb rfl htb hm
    obtain ⟨⟨hct, kt⟩, hcf, kf⟩ := Test.At.comes x hx htx hc
    exact ⟨⟨hct, kt.trans (h2.trans h1)⟩, hcf, kf.trans (h2.trans h1)⟩

end

/-- Control comes to each of the targets of an unpacking, one level further down each time. -/
theorem Plan.At.comes_each (p : Plan) (n : Nat) {loops : List Loop} {s q : Point} {lo hi : Nat}
    {d d' : D} (h : p.At pool g loops s lo q hi) (ht : p.TypedEach T c n d d') (hs : g.Comes s) :
    ∀ j < n, ∃ pt op arg, g.Comes pt ∧ g.InsnAt pt op arg ∧
      level pt ≡ level s - j [ZMOD 2 ^ 32] := by
  induction n generalizing p s lo d with
  | zero => exact fun j hj => absurd hj (Nat.not_lt_zero j)
  | succ n ih =>
    cases p with
    | seq p r =>
      obtain ⟨m, mid, hp, hr⟩ := h
      obtain ⟨e, htp, hdrop, htr⟩ := ht
      have h1 := hdepth.drop hdrop
      obtain ⟨hm, h2⟩ := Plan.At.comes hpool hdepth hflow p hp htp hs
      intro j hj
      cases j with
      | zero =>
        rcases Plan.At.first hpool p hp htp with ⟨-, rfl⟩ | ⟨op, arg, hi⟩
        · omega
        · exact ⟨s, op, arg, hs, hi, by simp⟩
      | succ j =>
        obtain ⟨pt, op, arg, hpt, hi, h3⟩ := ih r hr htr hm j (Nat.lt_of_succ_lt_succ hj)
        -- the first part has stored one element, and left the others where they are
        have h4 := h2.add_right (depth e - j : Int)
        have hm' : level m - depth e + (depth e - j : Int) = level m - j := by omega
        have hs' : level s - depth d + (depth e - j : Int) = level s - (j + 1 : Nat) := by omega
        rw [hm', hs'] at h4
        exact ⟨pt, op, arg, hpt, hi, h3.trans h4⟩
    | _ => exact ht.elim

end Comes

end

end Starlark
