import Starlark.Proofs.Lower.Levels

/-!
# Where control stands in typed code

An address of typed code leads, over `nop`s and jumps, to an instruction of a placed block. There
the types say what is on the operand stack and how many iterators are open (`TypedCode.At`). What is
read at the address is an instruction that has what it needs, and control goes on to addresses with
types again (`TypedCode.At.reads`). The number of open iterators depends on the address alone
(`TypedCode.At.iters_unique`).
-/

set_option autoImplicit false

namespace Starlark

open BlockGraph (Leads)

/-! ## Shapes that say less -/

theorem Held.Fits.trans {a b c : Held} (h : a.Fits b) (h' : b.Fits c) : a.Fits c := by
  rcases h' with rfl | ⟨k, rfl, rfl⟩
  · exact h
  · rcases h with rfl | ⟨k', rfl, -⟩
    · exact .inr ⟨k, rfl, rfl⟩
    · exact .inr ⟨k', rfl, rfl⟩

/-- What says less than what says less. -/
theorem Shape.Le.trans {d e f : Shape} (h : d.Le e) (h' : e.Le f) : d.Le f := by
  have hstack : ∀ {xs ys zs : List Held}, List.Forall₂ Held.Fits xs ys →
      List.Forall₂ Held.Fits ys zs → List.Forall₂ Held.Fits xs zs := by
    intro xs ys zs hxy hyz
    induction hxy generalizing zs with
    | nil => exact hyz
    | cons hk _ ih =>
      cases hyz with
      | cons hk' hrest => exact .cons (hk.trans hk') (ih hrest)
  exact ⟨h.1.trans h'.1, hstack h.2 h'.2⟩

/-! ## Sliding -/

/-- Control slides on. -/
theorem Slides.trans {code : Array UInt8} {a b c : Nat} (h : Slides code a b)
    (h' : Slides code b c) : Slides code a c := by
  induction h with
  | refl => exact h'
  | nop hf _ ih => exact .nop hf (ih h')
  | jmp hf _ ih => exact .jmp hf (ih h')

/-- Sliding ends at the first instruction that does something. -/
theorem Slides.unique {code : Array UInt8} {pc q q' : Nat} {f f' : Fetched} (h : Slides code pc q)
    (h' : Slides code pc q') (hq : fetch code q = .ok f) (hq' : fetch code q' = .ok f')
    (hf : f.op ≠ .nop ∧ f.op ≠ .jmp) (hf' : f'.op ≠ .nop ∧ f'.op ≠ .jmp) : q = q' := by
  -- what is fetched decides the next step of the slide, and neither end is an instruction to slide
  -- over
  induction h with
  | refl =>
    cases h' with
    | refl => rfl
    | nop hn =>
      cases hq.symm.trans hn
      exact absurd rfl hf.1
    | jmp hn =>
      cases hq.symm.trans hn
      exact absurd rfl hf.2
  | nop hn _ ih =>
    cases h' with
    | refl =>
      cases hq'.symm.trans hn
      exact absurd rfl hf'.1
    | nop hn' h' =>
      cases hn.symm.trans hn'
      exact ih h' hq
    | jmp hn' => cases hn.symm.trans hn'
  | jmp hn _ ih =>
    cases h' with
    | refl =>
      cases hq'.symm.trans hn
      exact absurd rfl hf'.2
    | nop hn' => cases hn.symm.trans hn'
    | jmp hn' h' =>
      cases hn.symm.trans hn'
      exact ih h' hq

/-! ## Addresses of points -/

/-- Two prefixes of code that end before an instruction and have the same size are the same. -/
theorem Insn.eq_of_sizes_eq {is xs ys xs' ys' : List Insn} (h : is = xs ++ ys)
    (h' : is = xs' ++ ys')
    (hs : Insn.sizes xs = Insn.sizes xs') : xs = xs' := by
  subst h
  rcases List.append_eq_append_iff.1 h' with ⟨zs, rfl, -⟩ | ⟨zs, rfl, -⟩
  all_goals
    have hz := Insn.length_le_sizes zs
    rw [Insn.sizes_append] at hs
    have hnil : zs = [] := List.length_eq_zero_iff.1 (by omega)
    rw [hnil, List.append_nil]

/-- Instructions of placed blocks have addresses of their own. -/
theorem Layout.Assembles.pointAddress_inj {g : BlockGraph} {entry : BlockId} {l : Layout}
    {code : Array UInt8} (h : l.Assembles g entry code) {b b' : BlockId} {i i' : Insn}
    {done rest done' rest' : List Insn} (hb : b ∈ l.order.toList) (hb' : b' ∈ l.order.toList)
    (hi : (g.block b).insns.toList = done ++ i :: rest)
    (hi' : (g.block b').insns.toList = done' ++ i' :: rest')
    (heq : l.pointAddress b done = l.pointAddress b' done') : b = b' ∧ done = done' := by
  -- a block that stands before another has all its instructions before it
  have hlt : ∀ {b b' : BlockId} {i : Insn} {done rest : List Insn} {pre mid post : List BlockId},
      l.order.toList = pre ++ b :: mid ++ b' :: post →
      (g.block b).insns.toList = done ++ i :: rest → l.pointAddress b done < l.address b' := by
    intro b b' i done rest pre mid post hsplit hi
    have hsplit' : l.order.toList = pre ++ b :: (mid ++ b' :: post) := by simpa using hsplit
    have h1 := h.address_eq pre b _ hsplit'
    have h2 := h.address_eq (pre ++ b :: mid) b' post hsplit
    have h3 := h.length_chunk pre b _ hsplit'
    rw [List.flatMap_append, List.flatMap_cons, List.length_append, List.length_append] at h2
    have hcode : g.codeSize b = Insn.sizes done + i.size + Insn.sizes rest := by
      rw [BlockGraph.codeSize, hi, Insn.sizes_append, Insn.sizes_cons]
      omega
    have hpos := i.size_pos
    rw [pointAddress]
    omega
  have hle : ∀ (b : BlockId) (done : List Insn), l.address b ≤ l.pointAddress b done :=
    fun b done => Nat.le_add_right _ _
  by_cases hbb : b = b'
  · subst hbb
    refine ⟨rfl, Insn.eq_of_sizes_eq hi hi' ?_⟩
    simpa [pointAddress] using heq
  · exfalso
    obtain ⟨pre, post, hsplit⟩ := List.append_of_mem hb
    rw [hsplit, List.mem_append, List.mem_cons] at hb'
    rcases hb' with hmem | he | hmem
    · obtain ⟨p1, p2, rfl⟩ := List.append_of_mem hmem
      have h1 := hlt hsplit hi'
      have h2 := hle b done
      omega
    · exact hbb he.symm
    · obtain ⟨p1, p2, rfl⟩ := List.append_of_mem hmem
      have h1 := hlt (show l.order.toList = pre ++ b :: p1 ++ b' :: p2 by simpa using hsplit) hi
      have h2 := hle b' done'
      omega

/-! ## Open iterators -/

/-- By how much an instruction changes the number of open iterators. -/
def Opcode.iterEffect : Opcode → Int
  | .iterPush => 1
  | .iterPop => -1
  | _ => 0

/-- An instruction opens and closes as many iterators as its effect says. -/
theorem Moves.iters_eq {r : Rules} {link : Linkage} {c : Scopes} {op : Opcode} {arg : UInt32}
    {d e : Shape} (h : Moves r link c op arg d e) : (e.iters : Int) = d.iters + op.iterEffect := by
  have other : ∀ {q : Opcode → Bool}, (∀ op, q op = true → op.iterEffect = 0) → q op = true →
      e.iters = d.iters → (e.iters : Int) = d.iters + op.iterEffect := by
    intro q hq hop he
    rw [hq op hop, he, Int.add_zero]
  cases h with
  | push hop => exact other (by intro op; cases op <;> first | exact fun _ => rfl | nofun) hop rfl
  | unary hop => exact other (by intro op; cases op <;> first | exact fun _ => rfl | nofun) hop rfl
  | binary hop => exact other (by intro op; cases op <;> first | exact fun _ => rfl | nofun) hop rfl
  | call hop => exact other (by intro op; cases op <;> first | exact fun _ => rfl | nofun) hop rfl
  | setDict hop => rcases hop with rfl | rfl <;> simp [Opcode.iterEffect, Shape.push, Shape.hold]
  | iterPush => simp [Opcode.iterEffect, Shape.push, Shape.hold]
  | iterPop => simp [Opcode.iterEffect]
  | _ => simp [Opcode.iterEffect, Shape.push, Shape.hold]

/-- The number of open iterators behind code is the same, whatever else its types say. -/
theorem Chain.iters_eq {r : Rules} {link : Linkage} {c : Scopes} {g : BlockGraph}
    {hook : Point → Nat → Prop} {b n m : Nat} {d e : Shape}
    (h : Chain (shapeTyping r link) c g hook b n d m e) :
    (e.iters : Int) = d.iters +
      ((((g.block b).insns.toList.take m).drop n).map fun i => i.op.iterEffect).sum := by
  have hcons : ∀ {n m op arg}, g.InsnAt ⟨b, n⟩ op arg → n < m →
      ((((g.block b).insns.toList.take m).drop n).map fun i => i.op.iterEffect).sum =
        op.iterEffect +
          ((((g.block b).insns.toList.take m).drop (n + 1)).map fun i => i.op.iterEffect).sum := by
    rintro n m op arg ⟨pos, hi⟩ hlt
    rw [← Array.getElem?_toList] at hi
    have hget : ((g.block b).insns.toList.take m)[n]? = some ⟨op, arg, pos⟩ := by
      rw [List.getElem?_take, if_pos hlt, hi]
    obtain ⟨hn, he⟩ := List.getElem?_eq_some_iff.1 hget
    rw [List.drop_eq_getElem_cons hn, he, List.map_cons, List.sum_cons]
  -- on the chain, as a list of the iterator effects of its instructions
  induction h with
  | refl n d =>
    rw [List.drop_eq_nil_of_le (by rw [List.length_take]; omega)]
    simp
  | @step n m d e f op arg hi hop hs hchain ih =>
    obtain ⟨e', hmove, hle⟩ := hs
    have hmove := Moves.iters_eq hmove
    rw [hcons hi hchain.le, ih, ← hle.1, hmove, Int.add_assoc]
  | @unpack n m k d e f hi hk hs hchain ih =>
    obtain ⟨k', b', rfl, rfl⟩ := hs
    rw [hcons hi hchain.le, ih]
    simp [Opcode.iterEffect, Shape.push, Shape.hold]

/-- An opcode without an operand has none. -/
theorem Moves.arg_eq_zero {r : Rules} {link : Linkage} {c : Scopes} {op : Opcode} {arg : UInt32}
    {d e : Shape} (h : Moves r link c op arg d e) (hop : op.hasArg = false) : arg = 0 := by
  cases h with
  | call hcall =>
    have harg : op.hasArg = true := by
      revert hcall
      cases op <;> decide
    rw [harg] at hop
    cases hop
  | _ => first | rfl | cases hop

/-! ## Typed code -/

/-- The code of a function with the graph that it comes from and the types of its blocks. -/
structure TypedCode (p : Program) (predeclared : String → Prop) (code : Code) where
  scopes : Scopes
  graph : BlockGraph
  layout : Layout
  states : BlockId → Shape
  lowers : Lowers p predeclared code scopes graph layout
  annotates : Annotates (shapeTyping .full (.of p.pool)) scopes graph states
    (SpreadAt (shapeTyping .full (.of p.pool)) scopes p.pool graph)

/-- The functions of the program of a resolved file have typed code. -/
theorem SourceFile.typedCode_of_compile {f : SourceFile} {predeclared : String → Prop} {p : Program}
    (h : f.WellResolved predeclared) (hp : f.compile = .ok p) {code : Code}
    (hcode : code = p.toplevel ∨ code ∈ p.functions) : Nonempty (TypedCode p predeclared code) := by
  obtain ⟨s, g, l, hl⟩ := lowers_of_compile h hp hcode
  obtain ⟨δ, hδ⟩ := hl.typed
  exact ⟨⟨s, g, l, δ, hl, hδ⟩⟩

namespace TypedCode

variable {p : Program} {predeclared : String → Prop} {code : Code}
  (t : TypedCode p predeclared code)

/-- From an instruction of a block to a later one. -/
def Chains (b n : Nat) (d : Shape) (m : Nat) (e : Shape) : Prop :=
  Chain (shapeTyping .full (.of p.pool)) t.scopes t.graph
    (SpreadAt (shapeTyping .full (.of p.pool)) t.scopes p.pool t.graph) b n d m e

/-- From an instruction of a block to the states of other blocks. -/
def Closing (b n : Nat) (d : Shape) : Prop :=
  Closes (shapeTyping .full (.of p.pool)) t.scopes t.graph t.states
    (SpreadAt (shapeTyping .full (.of p.pool)) t.scopes p.pool t.graph) b n d

/-- Control stands before an instruction of a placed block. -/
structure Stands (b : BlockId) (done : List Insn) (i : Insn) (rest : List Insn) (d : Shape) :
    Prop where
  placed : b ∈ t.layout.order.toList
  insns : (t.graph.block b).insns.toList = done ++ i :: rest
  chain : t.Chains b 0 (t.states b) done.length d
  closing : t.Closing b done.length d

/-- An address leads to an instruction before which the stack has the given shape. -/
def At (pc : Nat) (d : Shape) : Prop :=
  ∃ b done i rest, Slides code.code pc (t.layout.pointAddress b done) ∧ t.Stands b done i rest d

/-- What is read at an address, and where control goes on. -/
inductive Reads (d : Shape) : Fetched → Prop where
  | nop {next : Nat} : t.At next d → Reads d ⟨.nop, none, next⟩
  | jmp {arg : UInt32} {next : Nat} : t.At arg.toNat d → Reads d ⟨.jmp, some arg, next⟩
  | plain {op : Opcode} {arg : Option UInt32} {next : Nat} {e e' : Shape} : op.isPlain = true →
      Moves .full (.of p.pool) t.scopes op (arg.getD 0) d e → e.Le e' → t.At next e' →
      Reads d ⟨op, arg, next⟩
  | unpack {n next : Nat} {k : Known} {b e' : Shape} : n < 2 ^ 31 → d = b.push [k] →
      (b.push (List.replicate n .any)).Le e' → t.At next e' →
      Reads d ⟨.unpack, some (UInt32.ofNat n), next⟩
  | cjmp {arg : UInt32} {next : Nat} {k : Known} {b x y : Shape} :
      d = b.push [k] → b.Le x → b.Le y →
      t.At arg.toNat x → t.At next y → Reads d ⟨.cjmp, some arg, next⟩
  | iterJmp {arg : UInt32} {next : Nat} {x y : Shape} : 0 < d.iters → d.Le x →
      (d.push [.any]).Le y → t.At arg.toNat x → t.At next y → Reads d ⟨.iterJmp, some arg, next⟩
  | ret {next : Nat} {k : Known} : d.stack = [.visible k] → Reads d ⟨.ret, none, next⟩

variable {t}

/-- The layout of typed code has levels. -/
theorem leveled (t : TypedCode p predeclared code) : t.layout.Leveled t.graph :=
  BlockGraph.leveled t.lowers.size_pos t.lowers.layout

/-- Blocks that are placed are reached. -/
theorem reached (t : TypedCode p predeclared code) {b : BlockId} (hb : b ∈ t.layout.order.toList) :
    t.graph.Reached 0 b := (t.leveled.covering.mem_order_iff b).1 hb

/-- An empty block leads to states that say less. -/
theorem le_of_leads (t : TypedCode p predeclared code) {b u : BlockId} (h : Leads t.graph b u) :
    (t.states b).Le (t.states u) := by
  induction h with
  | here _ => exact Shape.le_refl _
  | skip he hj _ ih => exact Shape.Le.trans (t.annotates.le_of_empty he hj) ih

/-- At the end of a block control goes on with the block that its successor leads to. -/
theorem at_end {b id : BlockId} (hb : b ∈ t.layout.order.toList)
    (hj : (t.graph.block b).jmp = some id) {pc : Nat} {d : Shape} (hle : d.Le (t.states id))
    (hs : Slides code.code pc (t.layout.pointAddress b (t.graph.block b).insns.toList)) :
    ∃ e, d.Le e ∧ t.At pc e := by
  obtain ⟨u, hlead, hu⟩ := t.leveled.covering.jmp_mem hb hj
  obtain ⟨i, rest, hi⟩ := List.exists_cons_of_ne_nil (Array.toList_eq_nil_iff.not.2 hlead.insns_ne)
  refine ⟨t.states u, hle.trans (t.le_of_leads hlead), u, [], i, rest, ?_, hu, hi, .refl _ _, ?_⟩
  · exact hs.trans (t.lowers.assembles.slides_end hb hj hlead hu)
  · exact t.annotates.closes u hlead.target_lt

/-- At the address of a placed block. -/
theorem at_block {b : BlockId} (hb : b ∈ t.layout.order.toList) (hlt : b < t.graph.size) :
    ∃ e, (t.states b).Le e ∧ t.At (t.layout.address b) e := by
  cases hi : (t.graph.block b).insns.toList with
  | cons i rest =>
    exact ⟨t.states b, Shape.le_refl _, b, [], i, rest, .refl _, hb, hi, .refl _ _,
      t.annotates.closes b hlt⟩
  | nil =>
    have he : (t.graph.block b).insns = #[] := Array.toList_eq_nil_iff.1 hi
    cases t.annotates.closes b hlt with
    | step hi => exact absurd he hi.insns_ne
    | unpack hi => exact absurd he hi.insns_ne
    | branch _ hbr => exact absurd he hbr.insn.insns_ne
    | ret hr => exact absurd he hr.insn.insns_ne
    | ends hend _ hle =>
      refine at_end hb hend.jmp hle ?_
      rw [hi, Layout.pointAddress_nil]
      exact .refl _

/-- A function starts with nothing on the stack and no iterator. -/
theorem at_start (t : TypedCode p predeclared code) : ∃ e, (Shape.mk [] 0).Le e ∧ t.At 0 e := by
  have hat := at_block t.leveled.covering.entry_mem t.lowers.size_pos
  rw [t.annotates.start, t.lowers.assembles.address_entry] at hat
  exact hat

/-- Behind an instruction that goes on to the next one. -/
theorem at_next {b : BlockId} {done rest : List Insn} {i : Insn} {e : Shape} {pc : Nat}
    (hb : b ∈ t.layout.order.toList) (hi : (t.graph.block b).insns.toList = done ++ i :: rest)
    (hs : Slides code.code pc (t.layout.pointAddress b (done ++ [i])))
    (hchain : t.Chains b 0 (t.states b) (done.length + 1) e)
    (hclosing : t.Closing b (done.length + 1) e) : ∃ e', e.Le e' ∧ t.At pc e' := by
  -- either the block goes on or it has come to its end, where only a jump is left
  cases rest with
  | cons j rest =>
    refine ⟨e, Shape.le_refl _, b, done ++ [i], j, rest, hs, hb, by simpa using hi, ?_, ?_⟩
    · rw [List.length_append]
      exact hchain
    · rw [List.length_append]
      exact hclosing
  | nil =>
    have hsize : (t.graph.block b).insns.size = done.length + 1 := by
      rw [← Array.length_toList, hi, List.length_append]
      rfl
    have hnone : ∀ {op arg}, ¬ t.graph.InsnAt ⟨b, done.length + 1⟩ op arg := by
      rintro op arg ⟨pos, hat⟩
      have hlt := (Array.getElem?_eq_some_iff.1 hat).1
      exact absurd hlt (by simp only; omega)
    cases hclosing with
    | step hat => exact absurd hat hnone
    | unpack hat => exact absurd hat hnone
    | branch _ hbr => exact absurd hbr.insn hnone
    | ret hr => exact absurd hr.insn hnone
    | ends hend _ hle =>
      refine at_end hb hend.jmp hle ?_
      rw [hi]
      exact hs

/-- At the address of the block that the successor of a branch leads to. -/
theorem at_target {id u : BlockId} (hlead : Leads t.graph id u) (hu : u ∈ t.layout.order.toList)
    {d : Shape} (hle : d.Le (t.states id)) : ∃ e, d.Le e ∧ t.At (t.layout.address u) e := by
  obtain ⟨e, he, hat⟩ := at_block hu hlead.target_lt
  exact ⟨e, (hle.trans (t.le_of_leads hlead)).trans he, hat⟩

/-- Where control stands there is the instruction. -/
theorem Stands.insnAt {b : BlockId} {done rest : List Insn} {i : Insn} {d : Shape}
    (h : t.Stands b done i rest d) : t.graph.InsnAt ⟨b, done.length⟩ i.op i.arg :=
  BlockGraph.insnAt_of_split h.insns

/-- What is read before an instruction of a placed block. -/
theorem Stands.reads {b : BlockId} {done rest : List Insn} {i : Insn} {d : Shape}
    (h : t.Stands b done i rest d) :
    ∃ f, fetch code.code (t.layout.pointAddress b done) = .ok f ∧ f.op = i.op ∧ t.Reads d f := by
  have ha := t.lowers.assembles
  obtain ⟨next, hfetch, hslides, -⟩ := ha.fetch_point h.placed h.insns
  refine ⟨_, hfetch, rfl, ?_⟩
  -- the rest of the block says what the next instruction is; its operand is the resolved one
  cases h.closing with
  | step hat hop hs hclosing =>
    obtain ⟨rfl, rfl⟩ := hat.unique h.insnAt
    obtain ⟨e, hmove, hle⟩ := hs
    rw [operand?_resolve (Opcode.isCondJump_of_isPlain hop), Emit.operand?]
    have hchain : t.Chains b 0 (t.states b) (done.length + 1) _ :=
      h.chain.trans (.step hat hop ⟨e, hmove, hle⟩ (.refl _ _))
    obtain ⟨e', hle', hnext⟩ := at_next h.placed h.insns hslides hchain hclosing
    refine .plain hop ?_ (hle.trans hle') hnext
    split
    · exact hmove
    · rename_i harg
      rw [Moves.arg_eq_zero hmove (by simpa using harg)] at hmove
      exact hmove
  | @unpack _ n _ e hat hspread hs hclosing =>
    obtain ⟨hop, harg⟩ := hat.unique h.insnAt
    have hlt := Annotates.unpack_lt (covers_of .full p.pool) (measures_shapeTyping .full _)
      t.annotates t.leveled (t.reached h.placed) hat hspread
    obtain ⟨k, base, rfl, rfl⟩ := hs
    have hchain : t.Chains b 0 (t.states b) (done.length + 1) _ :=
      h.chain.trans (.unpack hat hspread ⟨k, base, rfl, rfl⟩ (.refl _ _))
    obtain ⟨e', hle', hnext⟩ := at_next h.placed h.insns hslides hchain hclosing
    rw [operand?_resolve (by rw [← hop]; rfl), Emit.operand?, ← hop, ← harg]
    exact .unpack hlt rfl hle' hnext
  | ends hend =>
    -- a block cannot end where an instruction stands
    obtain ⟨pos, hat⟩ := h.insnAt
    have hlt := (Array.getElem?_eq_some_iff.1 hat).1
    exact absurd hend.size (Nat.ne_of_gt hlt)
  | @branch _ _ op x y hcond hbr _ _ hty =>
    obtain ⟨hop, -⟩ := hbr.insn.unique h.insnAt
    obtain ⟨u, hlead, hu⟩ := t.leveled.covering.cjmp_mem h.placed hbr.cjmp
    obtain ⟨arg, harg, haddr⟩ := ha.operand_of_cjmp (i := i) (by rw [← hop]; exact hcond) hbr.cjmp
      hlead hu
    -- a branch ends its block
    have hrest : rest = [] := by
      have hsize := hbr.size
      rw [← Array.length_toList, h.insns, List.length_append, List.length_cons] at hsize
      exact List.length_eq_zero_iff.1 (by simp only at hsize; omega)
    have hslides' : Slides code.code next
        (t.layout.pointAddress b (t.graph.block b).insns.toList) := by
      rw [h.insns, hrest]
      exact hslides
    rw [harg, ← hop]
    obtain ⟨dx, dy, hty, hx, hy⟩ := hty
    obtain ⟨ex, hx, hatx⟩ := at_target hlead hu hx
    obtain ⟨ey, hy, haty⟩ := at_end h.placed hbr.jmp hy hslides'
    rw [← haddr] at hatx
    rcases hty with ⟨rfl, k, rfl, rfl⟩ | ⟨rfl, hiters, rfl, rfl⟩
    · exact .cjmp rfl hx hy hatx haty
    · exact .iterJmp hiters hx hy hatx haty
  | ret hr hret =>
    obtain ⟨hop, -⟩ := hr.insn.unique h.insnAt
    obtain ⟨k, hret⟩ := hret
    rw [operand?_resolve (by rw [← hop]; rfl), Emit.operand?, ← hop]
    exact .ret hret

/-- What is read at an address of typed code. -/
theorem At.reads {pc : Nat} {d : Shape} (h : t.At pc d) :
    ∃ f, fetch code.code pc = .ok f ∧ t.Reads d f := by
  obtain ⟨b, done, i, rest, hslides, hst⟩ := h
  cases hslides with
  | refl =>
    obtain ⟨f, hf, -, hr⟩ := hst.reads
    exact ⟨f, hf, hr⟩
  | nop hf hs => exact ⟨_, hf, .nop ⟨b, done, i, rest, hs, hst⟩⟩
  | jmp hf hs => exact ⟨_, hf, .jmp ⟨b, done, i, rest, hs, hst⟩⟩

/-- The depth of the stack is what the layout computes for the instruction. -/
theorem Stands.depth_eq {b : BlockId} {done rest : List Insn} {i : Insn} {d : Shape}
    (h : t.Stands b done i rest d) :
    (d.depth : Int) = t.layout.depthOf b + Insn.effects done ∧ d.depth < 2 ^ 31 ∧
      d.depth ≤ code.maxStack.toNat := by
  obtain ⟨heq, hlt⟩ := Annotates.depth_eq (covers_of .full p.pool) (measures_shapeTyping .full _)
    t.annotates t.leveled (t.reached h.placed) h.chain
  -- the layout reckons depths by how many instructions of the block are done
  have hdone : (t.graph.block b).insns.toList.take done.length = done := by
    rw [h.insns, List.take_left]
  have hlen : done.length ≤ (t.graph.block b).insns.size := by
    rw [← Array.length_toList, h.insns, List.length_append]
    omega
  obtain ⟨-, hmost⟩ := t.leveled.range (t.reached h.placed) hlen
  rw [← heq] at hmost
  refine ⟨?_, hlt, ?_⟩
  · rw [heq, Layout.levelAt, hdone]
  · obtain ⟨a, ha, -, -, hmax⟩ := t.lowers.assemble
    have hstack := (Layout.assemble_eq_ok ha).2.2
    have hlt := t.leveled.maxStack_lt
    rw [← hmax, hstack, UInt32.toNat_ofNat', Nat.mod_eq_of_lt (by omega)]
    omega

/-- The address determines where control stands. -/
theorem Stands.unique {pc : Nat} {b b' : BlockId} {done rest done' rest' : List Insn} {i i' : Insn}
    {d d' : Shape} (hs : Slides code.code pc (t.layout.pointAddress b done))
    (hs' : Slides code.code pc (t.layout.pointAddress b' done')) (h : t.Stands b done i rest d)
    (h' : t.Stands b' done' i' rest' d') : b = b' ∧ done = done' := by
  have hshaped := t.lowers.shaped
  have real : ∀ {b : BlockId} {done rest : List Insn} {i : Insn} {d : Shape},
      t.Stands b done i rest d → i.op ≠ .nop ∧ i.op ≠ .jmp := by
    intro b done rest i d h
    have hmem : i ∈ (t.graph.block b).insns.toList := by
      rw [h.insns]
      simp
    have hb : b < t.graph.size := BlockGraph.lt_size_of_insns_ne h.insnAt.insns_ne
    exact ⟨t.lowers.ne_nop hmem, (hshaped b hb).no_jmp i hmem⟩
  obtain ⟨f, hf, hop, -⟩ := h.reads
  obtain ⟨f', hf', hop', -⟩ := h'.reads
  exact t.lowers.assembles.pointAddress_inj h.placed h'.placed h.insns h'.insns
    (hs.unique hs' hf hf' (hop ▸ real h) (hop' ▸ real h'))

/-- The number of open iterators depends on the address alone. -/
theorem At.iters_unique {pc : Nat} {d d' : Shape} (h : t.At pc d) (h' : t.At pc d') :
    d.iters = d'.iters := by
  obtain ⟨b, done, i, rest, hs, hst⟩ := h
  obtain ⟨b', done', i', rest', hs', hst'⟩ := h'
  obtain ⟨rfl, rfl⟩ := hst.unique hs hs' hst'
  have h1 := hst.chain.iters_eq
  have h2 := hst'.chain.iters_eq
  omega

open Classical in
/-- The number of open iterators at an address. -/
noncomputable def itersAt (t : TypedCode p predeclared code) (pc : Nat) : Nat :=
  if h : ∃ d, t.At pc d then h.choose.iters else 0

/-- As many iterators are open as the address says. -/
theorem At.iters_eq {pc : Nat} {d : Shape} (h : t.At pc d) : d.iters = t.itersAt pc := by
  have hex : ∃ d, t.At pc d := ⟨d, h⟩
  rw [itersAt, dif_pos hex]
  exact h.iters_unique hex.choose_spec

end TypedCode

end Starlark
