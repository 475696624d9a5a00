import Starlark.Proofs.Direct.Evaluation
import Starlark.Proofs.Lower.Standing
import Starlark.Proofs.Machine.Instructions
import Starlark.Proofs.Machine.Inversion

/-!
# Where a run is at a time

A function of a program runs from one point of its graph to the next. At each time the run is at one
place: before an instruction of the function (`Running.StandsAt`), at a call that the function makes
(`Running.CallsAt`), or outside. `Running.StandsAt.execute` and `Running.StandsAt.branch` say when
and where the run goes from there. Jumps on a value and rounds of a loop go where the value or the
iterator says (`Running.StandsAt.cjmp`, `Running.StandsAt.iterJmp`).

The thread may have a step limit, and it may be cancelled. Then the run is cut before an instruction
(`Running.CutAt`), and whatever else would come (`Running.Comes`) does not.
-/

set_option autoImplicit false

namespace Starlark

open BlockGraph (Leads)

/-! ## Points and addresses -/

namespace Layout

/-- Control at an address goes on at a point: it slides to the point, or to the block that the empty
block of the point leads to. -/
def Enters (l : Layout) (g : BlockGraph) (code : Array UInt8) (pc : Nat) (s : Point) : Prop :=
  ∃ b done rest, b ∈ l.order.toList ∧ (g.block b).insns.toList = done ++ rest ∧
    Slides code pc (l.pointAddress b done) ∧
    (s = ⟨b, done.length⟩ ∨ done = [] ∧ s.index = 0 ∧ g.Leads s.block b)

variable {g : BlockGraph} {l : Layout} {code : Array UInt8} {pc : Nat} {s : Point} {op : Opcode}
  {arg : UInt32}

/-- Control slides to the instruction at a point. -/
theorem Enters.slides (h : l.Enters g code pc s) (hi : g.InsnAt s op arg) :
    ∃ done i rest, s.block ∈ l.order.toList ∧ (g.block s.block).insns.toList = done ++ i :: rest ∧
      done.length = s.index ∧ i.op = op ∧ i.arg = arg ∧
      Slides code pc (l.pointAddress s.block done) := by
  obtain ⟨b, done, rest, hb, hinsns, hslides, hpoint⟩ := h
  have hs : s = ⟨b, done.length⟩ := by
    rcases hpoint with hs | ⟨rfl, hindex, hlead⟩
    · exact hs
    · cases hlead with
      | here => cases s; cases hindex; rfl
      | skip he => exact absurd he hi.insns_ne
  subst hs
  obtain ⟨pos, hi⟩ := hi
  rw [← Array.getElem?_toList, hinsns] at hi
  cases rest with
  | nil => simp at hi
  | cons i rest =>
    simp at hi
    exact ⟨done, i, rest, hb, hinsns, rfl, by rw [hi], by rw [hi], hslides⟩

namespace Assembles

variable (h : l.Assembles g 0 code)
include h

/-- At the end of a block control goes on with the next one. -/
theorem enters_end (he : l.Enters g code pc s) {c : BlockId} (hend : g.EndsAt s c) :
    l.Enters g code pc ⟨c, 0⟩ := by
  obtain ⟨b, done, rest, hb, hinsns, hslides, hpoint⟩ := he
  -- the end of a block is reached in it, or, if it is empty, in the block it leads to
  rcases hpoint with rfl | ⟨rfl, hindex, hlead⟩
  · have hrest : rest = [] := by
      have hsize := hend.size
      rw [← Array.length_toList, hinsns, List.length_append] at hsize
      exact List.length_eq_zero_iff.1 (by simp only at hsize; omega)
    subst hrest
    rw [List.append_nil] at hinsns
    obtain ⟨t, hlead, ht⟩ := h.covering.jmp_mem hb hend.jmp
    refine ⟨t, [], _, ht, rfl, ?_, .inr ⟨rfl, rfl, hlead⟩⟩
    rw [← hinsns] at hslides
    exact hslides.trans (h.slides_end hb hend.jmp hlead ht)
  · have hempty : (g.block s.block).insns = #[] := by
      rw [← Array.size_eq_zero_iff, hend.size, hindex]
    cases hlead with
    | here hne => exact absurd hempty hne
    | skip _ hj hlead =>
      cases hend.jmp.symm.trans hj
      exact ⟨b, [], rest, hb, hinsns, hslides, .inr ⟨rfl, rfl, hlead⟩⟩

/-- An instruction that goes on to the next one. -/
theorem fetch_insn {done rest : List Insn} {i : Insn} (hb : s.block ∈ l.order.toList)
    (hinsns : (g.block s.block).insns.toList = done ++ i :: rest) (hs : done.length = s.index)
    (hop : i.op.isCondJump = false) (harg : i.op.hasArg = false → i.arg = 0) :
    ∃ f : Fetched, fetch code (l.pointAddress s.block done) = .ok f ∧ f.op = i.op ∧
      f.arg.getD 0 = i.arg ∧ l.Enters g code f.next s.next := by
  obtain ⟨next, hfetch, hslides, -⟩ := h.fetch_point hb hinsns
  refine ⟨_, hfetch, rfl, ?_, s.block, done ++ [i], rest, hb, by simp [hinsns], hslides, .inl ?_⟩
  · rw [operand?_resolve hop, Emit.operand?]
    split
    · rfl
    · rename_i hno
      exact (harg (by simpa using hno)).symm
  · rw [List.length_append, hs]
    rfl

/-- A conditional jump. -/
theorem fetch_branch {done rest : List Insn} {i : Insn} (hb : s.block ∈ l.order.toList)
    (hinsns : (g.block s.block).insns.toList = done ++ i :: rest) (hs : done.length = s.index)
    (hop : i.op.isCondJump = true) {t f : BlockId} (hbr : g.BranchAt s op t f) :
    ∃ (arg : UInt32) (next : Nat),
      fetch code (l.pointAddress s.block done) = .ok ⟨i.op, some arg, next⟩ ∧
      l.Enters g code arg.toNat ⟨t, 0⟩ ∧ l.Enters g code next ⟨f, 0⟩ := by
  obtain ⟨next, hfetch, hslides, -⟩ := h.fetch_point hb hinsns
  obtain ⟨u, hlead, hu⟩ := h.covering.cjmp_mem hb hbr.cjmp
  obtain ⟨v, hlead', hv⟩ := h.covering.jmp_mem hb hbr.jmp
  obtain ⟨arg, harg, haddr⟩ := h.operand_of_cjmp hop hbr.cjmp hlead hu
  rw [harg] at hfetch
  refine ⟨arg, next, hfetch, ⟨u, [], _, hu, rfl, ?_, .inr ⟨rfl, rfl, hlead⟩⟩,
    ⟨v, [], _, hv, rfl, ?_, .inr ⟨rfl, rfl, hlead'⟩⟩⟩
  · rw [haddr]
    exact .refl _
  -- a branch is the last instruction of its block, so what follows it is the jump to the other side
  · have hrest : rest = [] := by
      have hsize := hbr.size
      rw [← Array.length_toList, hinsns, List.length_append, List.length_cons, hs] at hsize
      exact List.length_eq_zero_iff.1 (by omega)
    have hend : done ++ [i] = (g.block s.block).insns.toList := by rw [hinsns, hrest]
    rw [hend] at hslides
    exact hslides.trans (h.slides_end hb hbr.jmp hlead' hv)

/-- The entry stands at address zero. -/
theorem enters_start : l.Enters g code 0 ⟨0, 0⟩ := by
  refine ⟨0, [], _, h.covering.entry_mem, rfl, ?_, .inl rfl⟩
  rw [Layout.pointAddress_nil, h.address_entry]
  exact .refl _

end Assembles

end Layout

/-! ## Threads that count -/

namespace Thread

/-- A thread that has counted some more instructions. -/
def Ticks (t t' : Thread) : Prop := ∃ k, t' = tick^[k] t

theorem Ticks.refl (t : Thread) : t.Ticks t := ⟨0, rfl⟩

theorem Ticks.tick {t t' : Thread} (h : t.Ticks t') : t.Ticks t'.tick := by
  obtain ⟨k, rfl⟩ := h
  exact ⟨k + 1, (Function.iterate_succ_apply' _ _ _).symm⟩

end Thread

/-! ## Runs at a time -/

/-- A run in which a function of a program is active, with the given callers. -/
structure Running (p : Program) (predeclared : String → Prop) where
  body : Code
  code : TypedCode p predeclared body
  addressable : p.Addressable
  func : FuncObj
  callers : List Frame
  start : Machine
  /-- The function keeps its tables. -/
  tables_eq : ∀ n, (Machine.run n start).heap.tables func = ⟨func.module, p, body, func.freeVars⟩
  /-- The operand stack of the function stays small. -/
  stack_lt : ∀ n h t a, Machine.run n start = ⟨h, t, .func a .call :: callers, .exec⟩ →
    a.func = func → a.stack.length < 2 ^ 31

namespace Running

variable {p : Program} {predeclared : String → Prop} (R : Running p predeclared)

/-- The tables of the function. -/
def tables : Tables := ⟨R.func.module, p, R.body, R.func.freeVars⟩

/-- At a time, the function is to execute what stands at an address. -/
def AddressedAt (n pc : Nat) (st : List Value) (its : List Iter) (s : Scene) : Prop :=
  ∃ t a, Machine.run n R.start = ⟨s.heap, t, .func a .call :: R.callers, .exec⟩ ∧
    s.thread.Ticks t ∧ a.func = R.func ∧ a.next = pc ∧ a.locals = s.locals ∧ a.stack = st ∧
    a.iters = its

/-- At a time, the function is to execute what stands at a point of the graph. -/
def StandsAt (n : Nat) (q : Point) (st : List Value) (its : List Iter) (s : Scene) : Prop :=
  ∃ pc, R.code.layout.Enters R.code.graph R.body.code pc q ∧ R.AddressedAt n pc st its s

/-- At a time, the function calls a value. It will go on at a point. -/
def CallsAt (n : Nat) (f : Value) (args : List Value) (kwargs : Keywords) (q : Point)
    (st : List Value) (its : List Iter) (s : Scene) : Prop :=
  ∃ t a, Machine.run n R.start =
      ⟨s.heap, t, .func a .call :: R.callers, .invoke f args kwargs⟩ ∧
    s.thread.Ticks t ∧ a.func = R.func ∧
    R.code.layout.Enters R.code.graph R.body.code a.next q ∧ a.locals = s.locals ∧ a.stack = st ∧
    a.iters = its

/-- At a time, the function loads a module. It will go on at a point. -/
def LoadsAt (n : Nat) (name : String) (count : Nat) (q : Point) (st : List Value)
    (its : List Iter) (s : Scene) : Prop :=
  ∃ t a, Machine.run n R.start = Machine.load s.heap t a R.callers name count ∧
    s.thread.Ticks t ∧ a.func = R.func ∧
    R.code.layout.Enters R.code.graph R.body.code a.next q ∧ a.locals = s.locals ∧ a.stack = st ∧
    a.iters = its

/-- At a time, the function is left with a value, and with the given iterators still open. -/
def LeavesAt (n : Nat) (v : Value) (its : List Iter) (s : Scene) : Prop :=
  ∃ t a, Machine.run n R.start = Machine.leave s.heap t (.func a .call :: R.callers) v ∧
    s.thread.Ticks t ∧ a.func = R.func ∧ a.iters = its

/-- At a time, the function is left since an instruction had no result. It has a stack below what it
works with, and the given iterators. -/
def FailsAt (n : Nat) (e : Stop) (st : List Value) (its : List Iter) (s : Scene) : Prop :=
  ∃ t a, Machine.run n R.start = Machine.stop s.heap t (.func a .call :: R.callers) e ∧
    s.thread.Ticks t ∧ a.func = R.func ∧ st <:+ a.stack ∧ a.iters = its

/-- At a time, the function is to execute an instruction, with a stack and iterators below what it
works with. -/
def ExecutesAt (n : Nat) (t : Thread) (st : List Value) (its : List Iter) : Prop :=
  ∃ h a, Machine.run n R.start = ⟨h, t, .func a .call :: R.callers, .exec⟩ ∧ a.func = R.func ∧
    st <:+ a.stack ∧ its <:+ a.iters

/-- At a time, the function is to execute an instruction, but the thread is cancelled. -/
def CutAt (n : Nat) (st : List Value) (its : List Iter) : Prop :=
  ∃ t, R.ExecutesAt n t st its ∧ t.tick.cancelled ≠ none

/-- From a time on, the function executes instructions above a stack and iterators until something
holds, or until the run is cut. -/
def Comes (n : Nat) (st : List Value) (its : List Iter) (P : Nat → Prop) : Prop :=
  ∃ m, n ≤ m ∧ (∀ k, n ≤ k → k < m → ∃ t, R.ExecutesAt k t st its) ∧ (R.CutAt m st its ∨ P m)

variable {R} {n : Nat} {q : Point} {st low : List Value} {its inner : List Iter} {s : Scene}

/-- At an address an instruction is to be executed, above any part of the stack. -/
theorem AddressedAt.executes {pc : Nat} (h : R.AddressedAt n pc st its s) (hst : low <:+ st)
    (hits : inner <:+ its) : ∃ t, R.ExecutesAt n t low inner := by
  obtain ⟨t, a, hrun, -, ha, -, -, rfl, rfl⟩ := h
  exact ⟨t, s.heap, a, hrun, ha, hst, hits⟩

/-! ## Coming to a time -/

namespace Comes

variable {P Q : Nat → Prop}

/-- What holds now has come. -/
theorem here (h : P n) : R.Comes n st its P :=
  ⟨n, Nat.le_refl n, fun _ hk hlt => absurd hlt (Nat.not_lt.2 hk), .inr h⟩

/-- A run that is cut comes to anything, since it does not go on. -/
theorem cut (h : R.CutAt n st its) : R.Comes n st its P :=
  ⟨n, Nat.le_refl n, fun _ hk hlt => absurd hlt (Nat.not_lt.2 hk), .inl h⟩

/-- What comes first, and what comes from there on. -/
theorem bind (h : R.Comes n st its P) (hP : ∀ m, n ≤ m → P m → R.Comes m st its Q) :
    R.Comes n st its Q := by
  obtain ⟨m, hm, hbefore, hcut | hp⟩ := h
  · exact ⟨m, hm, hbefore, .inl hcut⟩
  · obtain ⟨m', hm', hbefore', hq⟩ := hP m hm hp
    refine ⟨m', hm.trans hm', fun k hk hlt => ?_, hq⟩
    by_cases hkm : k < m
    · exact hbefore k hk hkm
    · exact hbefore' k (Nat.not_lt.1 hkm) hlt

/-- A weaker claim comes as well. -/
theorem mono (h : R.Comes n st its P) (hP : ∀ m, n ≤ m → P m → Q m) : R.Comes n st its Q :=
  h.bind fun m hm hp => here (hP m hm hp)

/-- One instruction is executed first. -/
theorem next {t : Thread} (h : R.ExecutesAt n t st its) (h' : R.Comes (n + 1) st its P) :
    R.Comes n st its P := by
  obtain ⟨m, hm, hbefore, hp⟩ := h'
  refine ⟨m, by omega, fun k hk hlt => ?_, hp⟩
  by_cases hkn : k = n
  · rw [hkn]
    exact ⟨t, h⟩
  · exact hbefore k (by omega) hlt

/-- What is done above a stack is done above what is below. -/
theorem below {st' : List Value} {its' : List Iter} (h : R.Comes n st' its' P) (hst : st <:+ st')
    (hits : its <:+ its') : R.Comes n st its P := by
  have lower : ∀ {k t}, R.ExecutesAt k t st' its' → R.ExecutesAt k t st its := by
    rintro k t ⟨heap, a, hrun, ha, hst', hits'⟩
    exact ⟨heap, a, hrun, ha, hst.trans hst', hits.trans hits'⟩
  obtain ⟨m, hm, hbefore, hend⟩ := h
  refine ⟨m, hm, fun k hk hlt => ?_, ?_⟩
  · obtain ⟨t, ht⟩ := hbefore k hk hlt
    exact ⟨t, lower ht⟩
  · rcases hend with ⟨t, ht, hcut⟩ | hp
    · exact .inl ⟨t, lower ht, hcut⟩
    · exact .inr hp

end Comes

/-! ## Instructions -/

/-- The next instruction is executed unless the thread is cancelled. -/
theorem run_execute {heap : Heap} {t : Thread} {a : Activation}
    (hrun : Machine.run n R.start = ⟨heap, t, .func a .call :: R.callers, .exec⟩)
    (ha : a.func = R.func) {f : Fetched} (hf : fetch R.body.code a.next = .ok f) :
    R.CutAt n a.stack a.iters ∨ Machine.run (n + 1) R.start =
      match Activation.execute R.tables f.op (f.arg.getD 0)
          { a with pc := a.next, next := f.next } heap with
      | .error e h => Machine.stop h t.tick (.func { a with pc := a.next } .call :: R.callers) e
      | .ok (.proceed b) h => ⟨h, t.tick, .func b .call :: R.callers, .exec⟩
      | .ok (.finish v) h =>
        Machine.leave h t.tick (.func { a with pc := a.next } .call :: R.callers) v
      | .ok (.call b g args kwargs) h =>
        ⟨h, t.tick, .func b .call :: R.callers, .invoke g args kwargs⟩
      | .ok (.load b name count) h => Machine.load h t.tick b R.callers name count := by
  -- a step is counted before it is taken, and a cancellation is seen only there
  cases hcancelled : t.tick.cancelled with
  | some reason =>
    exact .inl ⟨t, ⟨heap, a, hrun, ha, List.suffix_refl _, List.suffix_refl _⟩, by
        simp [hcancelled]⟩
  | none =>
    right
    have htables : heap.tables a.func = R.tables := by
      have := R.tables_eq n
      rw [hrun] at this
      rw [ha]
      exact this
    have hcode : (heap.tables a.func).code.code = R.body.code := by rw [htables]; rfl
    rw [Machine.run_succ_eq_step, hrun]
    simp only [Machine.step, Machine.exec, hcancelled, hcode, hf]
    rewrite [htables]
    rfl

/-- Control slides over filling and jumps. -/
theorem AddressedAt.slides {pc pc' : Nat} (h : R.AddressedAt n pc st its s)
    (hs : Slides R.body.code pc pc') :
    R.Comes n st its fun m => R.AddressedAt m pc' st its s := by
  induction hs generalizing n with
  | refl => exact .here h
  | nop hf _ ih =>
    obtain ⟨t, hexecutes⟩ := h.executes (List.suffix_refl st) (List.suffix_refl its)
    obtain ⟨t, a, hrun, ht, ha, rfl, hl, rfl, rfl⟩ := h
    rcases run_execute hrun ha hf with hcut | hnext
    · exact .cut hcut
    · exact .next hexecutes (ih ⟨t.tick, _, hnext, ht.tick, ha, rfl, hl, rfl, rfl⟩)
  | jmp hf _ ih =>
    obtain ⟨t, hexecutes⟩ := h.executes (List.suffix_refl st) (List.suffix_refl its)
    obtain ⟨t, a, hrun, ht, ha, rfl, hl, rfl, rfl⟩ := h
    rcases run_execute hrun ha hf with hcut | hnext
    · exact .cut hcut
    · exact .next hexecutes (ih ⟨t.tick, _, hnext, ht.tick, ha, rfl, hl, rfl, rfl⟩)

/-- At the end of a block the function stands at the start of the next. -/
theorem StandsAt.ends (h : R.StandsAt n q st its s) {c : BlockId}
    (hend : R.code.graph.EndsAt q c) : R.StandsAt n ⟨c, 0⟩ st its s := by
  obtain ⟨pc, henters, haddressed⟩ := h
  exact ⟨pc, R.code.lowers.assembles.enters_end henters hend, haddressed⟩

theorem FailsAt.below {e : Stop} (h : R.FailsAt n e st its s) (hst : low <:+ st) :
    R.FailsAt n e low its s := by
  obtain ⟨t, a, hrun, ht, ha, hst', hits⟩ := h
  exact ⟨t, a, hrun, ht, ha, hst.trans hst', hits⟩

/-- What comes of an instruction that goes on to the next one. -/
def YieldsAt (R : Running p predeclared) (n : Nat) (q : Point) (s : Scene) (a : Activation) :
    EStateM.Result Stop Heap Effect → Prop
  | .ok (.proceed b) h => b.func = a.func → b.next = a.next →
      R.StandsAt n q b.stack b.iters ⟨h, s.thread, b.locals⟩
  | .ok (.call b f args kwargs) h => b.func = a.func → b.next = a.next →
      R.CallsAt n f args kwargs q b.stack b.iters ⟨h, s.thread, b.locals⟩
  | .ok (.load b name count) h => b.func = a.func → b.next = a.next →
      R.LoadsAt n name count q b.stack b.iters ⟨h, s.thread, b.locals⟩
  | .ok (.finish v) h => R.LeavesAt n v a.iters { s with heap := h }
  | .error e h => R.FailsAt n e a.stack a.iters { s with heap := h }

/-- An instruction that goes on to the next one is executed. -/
theorem StandsAt.execute (h : R.StandsAt n q st its s) {op : Opcode} {arg : UInt32}
    (hi : R.code.graph.InsnAt q op arg) (hop : op.isCondJump = false)
    (harg : op.hasArg = false → arg = 0) :
    R.Comes n st its fun m => ∃ a : Activation, a.func = R.func ∧ a.locals = s.locals ∧
      a.stack = st ∧ a.iters = its ∧ st.length < 2 ^ 31 ∧
      R.YieldsAt m q.next s a (a.execute R.tables op arg s.heap) := by
  obtain ⟨pc, henters, haddressed⟩ := h
  -- jumps may have been placed on the way, so the instruction is reached before it is fetched
  obtain ⟨done, i, rest, hb, hinsns, hlen, rfl, rfl, hslides⟩ := henters.slides hi
  obtain ⟨f, hf, hfop, hfarg, hnext⟩ :=
    R.code.lowers.assembles.fetch_insn hb hinsns hlen hop harg
  refine (haddressed.slides hslides).bind fun m _ hm => ?_
  obtain ⟨t, hexecutes⟩ := hm.executes (List.suffix_refl st) (List.suffix_refl its)
  obtain ⟨t, a, hrun, ht, ha, hpc, hl, rfl, rfl⟩ := hm
  rcases run_execute hrun ha (hpc ▸ hf) with hcut | hexec
  · exact .cut hcut
  rw [hfop, hfarg] at hexec
  refine .next hexecutes (.here ⟨{ a with pc := a.next, next := f.next }, ha, hl, rfl, rfl,
    R.stack_lt _ _ _ _ hrun ha, ?_⟩)
  generalize Activation.execute R.tables i.op i.arg { a with pc := a.next, next := f.next } s.heap =
    result at hexec
  -- where each effect leaves the machine
  match result with
  | .ok (.proceed b) h =>
    intro hbf hbn
    exact ⟨f.next, hnext, t.tick, b, hexec, ht.tick, hbf.trans ha, hbn, rfl, rfl, rfl⟩
  | .ok (.call b g args kwargs) h =>
    intro hbf hbn
    exact ⟨t.tick, b, hexec, ht.tick, hbf.trans ha, hbn ▸ hnext, rfl, rfl, rfl⟩
  | .ok (.finish v) h => exact ⟨t.tick, { a with pc := a.next }, hexec, ht.tick, ha, rfl⟩
  | .ok (.load b name count) h =>
    intro hbf hbn
    exact ⟨t.tick, b, hexec, ht.tick, hbf.trans ha, hbn ▸ hnext, rfl, rfl, rfl⟩
  | .error e h =>
    exact ⟨t.tick, { a with pc := a.next }, hexec, ht.tick, ha, List.suffix_refl _, rfl⟩

/-- A conditional jump is executed. -/
theorem StandsAt.branch (h : R.StandsAt n q st its s) {op : Opcode} {t f : BlockId}
    (hbr : R.code.graph.BranchAt q op t f) (hop : op.isCondJump = true) :
    R.Comes n st its fun m => n < m ∧ ∃ (a : Activation) (arg : UInt32), a.stack = st ∧
      a.iters = its ∧ ∀ b, a.execute R.tables op arg s.heap = .ok (.proceed b) s.heap →
        b.func = a.func → b.locals = a.locals →
        (b.next = arg.toNat → R.StandsAt m ⟨t, 0⟩ b.stack b.iters s) ∧
        (b.next = a.next → R.StandsAt m ⟨f, 0⟩ b.stack b.iters s) := by
  obtain ⟨pc, henters, haddressed⟩ := h
  obtain ⟨done, i, rest, hb, hinsns, hlen, rfl, -, hslides⟩ := henters.slides hbr.insn
  obtain ⟨arg, next, hf, ht, hn⟩ :=
    R.code.lowers.assembles.fetch_branch hb hinsns hlen hop hbr
  refine (haddressed.slides hslides).bind fun m hm haddressed => ?_
  obtain ⟨t, hexecutes⟩ := haddressed.executes (List.suffix_refl st) (List.suffix_refl its)
  obtain ⟨th, a, hrun, hth, ha, hpc, hl, rfl, rfl⟩ := haddressed
  rcases run_execute hrun ha (hpc ▸ hf) with hcut | hexec
  · exact .cut hcut
  refine .next hexecutes
      (.here ⟨by omega, { a with pc := a.next, next := next }, arg, rfl, rfl, ?_⟩)
  -- which side is taken is for the instruction to say
  intro b hb hfunc hlocals
  simp only [Option.getD_some, hb] at hexec
  have hlocals' : b.locals = s.locals := hlocals.trans hl
  exact ⟨fun hnext => ⟨arg.toNat, ht, th.tick, b, hexec, hth.tick, hfunc.trans ha, hnext, hlocals',
      rfl, rfl⟩,
    fun hnext => ⟨next, hn, th.tick, b, hexec, hth.tick, hfunc.trans ha, hnext, hlocals', rfl, rfl⟩⟩

/-- A conditional jump takes the top of the stack. -/
theorem StandsAt.cjmp {v : Value} {t f : BlockId} (h : R.StandsAt n q (v :: st) its s)
    (hbr : R.code.graph.BranchAt q .cjmp t f) :
    R.Comes n (v :: st) its fun m => n < m ∧
      R.StandsAt m ⟨if s.heap.truth v then t else f, 0⟩ st its s := by
  refine (h.branch hbr rfl).mono fun m _ hm => ?_
  obtain ⟨hlt, a, arg, hst, rfl, hnext⟩ := hm
  refine ⟨hlt, ?_⟩
  have hexec := @Activation.execute_cjmp R.tables arg a s.heap v st hst
  cases htruth : s.heap.truth v with
  | true =>
    rw [htruth, if_pos rfl] at hexec
    exact (hnext _ hexec rfl rfl).1 rfl
  | false =>
    rw [htruth, if_neg Bool.false_ne_true] at hexec
    exact (hnext _ hexec rfl rfl).2 rfl

/-- The next element is pushed, or control goes to the end of the loop. -/
theorem StandsAt.iterJmp {it : Iter} {t f : BlockId} (h : R.StandsAt n q st (it :: its) s)
    (hbr : R.code.graph.BranchAt q .iterJmp t f) :
    R.Comes n st (it :: its) fun m => n < m ∧
      match s.heap.nextElem? it with
      | some (v, it') => R.StandsAt m ⟨f, 0⟩ (v :: st) (it' :: its) s
      | none => R.StandsAt m ⟨t, 0⟩ st (it :: its) s := by
  refine (h.branch hbr rfl).mono fun m _ hm => ?_
  obtain ⟨hlt, a, arg, rfl, hits, hnext⟩ := hm
  have hexec := @Activation.execute_iterJmp R.tables arg a s.heap it its hits
  refine ⟨hlt, ?_⟩
  cases hn : s.heap.nextElem? it with
  | none =>
    rw [hn] at hexec
    have hjump := (hnext _ hexec rfl rfl).1 rfl
    rwa [← hits]
  | some next =>
    rw [hn] at hexec
    exact (hnext _ hexec rfl rfl).2 rfl

end Running

end Starlark
