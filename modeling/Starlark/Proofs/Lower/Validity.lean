import Starlark.Proofs.Flow.Decoding
import Starlark.Proofs.Lower.Functions
import Starlark.Proofs.Lower.Typability

/-!
# Compiled code is valid

Every function of a program that comes from a resolved tree is the code of a typed graph
(`SourceFile.lowers_of_compile`). So its stream is read to the end, its jumps go to the starts of
blocks, and its operands stay within the tables that they index (`SourceFile.compile_valid`).
-/

set_option autoImplicit false

namespace Starlark

open BlockGraph (Leads)

/-! ## Instructions of a typed graph -/

section Typed

variable {C D : Type} {T : Typing C D} {c : C} {g : BlockGraph} {δ : BlockId → D}
  {hook : Point → Nat → Prop}

/-- There is one instruction at a point. -/
theorem BlockGraph.InsnAt.unique {p : Point} {op op' : Opcode} {arg arg' : UInt32}
    (h : g.InsnAt p op arg) (h' : g.InsnAt p op' arg') : op = op' ∧ arg = arg' := by
  obtain ⟨pos, h⟩ := h
  obtain ⟨pos', h'⟩ := h'
  cases h.symm.trans h'
  exact ⟨rfl, rfl⟩

/-- An instruction is within its block. -/
theorem BlockGraph.InsnAt.lt_size {b k : Nat} {op : Opcode} {arg : UInt32}
    (h : g.InsnAt ⟨b, k⟩ op arg) : k < (g.block b).insns.size := by
  obtain ⟨pos, h⟩ := h
  exact (Array.getElem?_eq_some_iff.1 h).1

/-- An instruction is at the point that the ones before it say. -/
theorem BlockGraph.insnAt_of_split {b : BlockId} {i : Insn} {done rest : List Insn}
    (h : (g.block b).insns.toList = done ++ i :: rest) : g.InsnAt ⟨b, done.length⟩ i.op i.arg := by
  refine ⟨i.pos, ?_⟩
  rw [← Array.getElem?_toList, h]
  simp

/-- A plain instruction of a closed block is typed. -/
theorem Closes.steps_at {b n k : Nat} {d : D} {op : Opcode} {arg : UInt32}
    (h : Closes T c g δ hook b n d) (hnk : n ≤ k) (hi : g.InsnAt ⟨b, k⟩ op arg)
    (hop : op.isPlain = true) : ∃ d e, T.Steps c op arg d e := by
  -- along the block from `n`, until the instruction at `k` comes up
  induction h with
  | step hi' _ hs _ ih =>
    rcases Nat.eq_or_lt_of_le hnk with rfl | hlt
    · obtain ⟨rfl, rfl⟩ := hi.unique hi'
      exact ⟨_, _, hs⟩
    · exact ih hlt
  | unpack hi' _ _ _ ih =>
    rcases Nat.eq_or_lt_of_le hnk with rfl | hlt
    · obtain ⟨rfl, -⟩ := hi.unique hi'
      cases hop
    · exact ih hlt
  | ends he _ _ =>
    have hsize := he.size
    have hlt := hi.lt_size
    dsimp only at hsize
    omega
  | @branch n _ _ _ _ hcond hb _ _ _ =>
    have hsize := hb.size
    have hlt := hi.lt_size
    dsimp only at hsize
    obtain rfl : k = n := by omega
    obtain ⟨rfl, -⟩ := hi.unique hb.insn
    cases hcond.symm.trans (Opcode.isCondJump_of_isPlain hop)
  | @ret n _ hr _ =>
    have hsize := hr.size
    have hlt := hi.lt_size
    dsimp only at hsize
    obtain rfl : k = n := by omega
    obtain ⟨rfl, -⟩ := hi.unique hr.insn
    cases hop

/-- The last instruction of a block. -/
theorem BlockGraph.getLast?_insns {b : Nat} {i : Insn}
    (h : (g.block b).insns.toList.getLast? = some i) :
    ∃ k, (g.block b).insns.size = k + 1 ∧ g.InsnAt ⟨b, k⟩ i.op i.arg := by
  obtain ⟨done, hsplit⟩ := List.getLast?_eq_some_iff.1 h
  refine ⟨done.length, ?_, insnAt_of_split hsplit⟩
  rw [← Array.length_toList, hsplit]
  simp

/-- What the end of a typed block says of its last instruction and its successors. -/
theorem Ending.successors {b m : Nat} {e : D} (h : Annotates T c g δ hook)
    (hend : Ending T g δ b m e) :
    (g.block b).cjmp.isSome = (g.block b).insns.toList.getLast?.any (·.op.isCondJump) ∧
      (g.block b).jmp.isNone = (g.block b).insns.toList.getLast?.any (·.op == .ret) := by
  have last : ∀ {op arg}, g.InsnAt ⟨b, m⟩ op arg → (g.block b).insns.size = m + 1 →
      ∃ i, (g.block b).insns.toList.getLast? = some i ∧ i.op = op := by
    rintro op arg ⟨pos, hi⟩ hsize
    refine ⟨⟨op, arg, pos⟩, ?_, rfl⟩
    rw [List.getLast?_eq_getElem?, Array.length_toList, hsize, Array.getElem?_toList]
    exact hi
  cases hend with
  | ends he _ _ =>
    rw [he.cjmp, he.jmp]
    cases hlast : (g.block b).insns.toList.getLast? with
    | none => exact ⟨rfl, rfl⟩
    | some i =>
      obtain ⟨k, hk, hi⟩ := BlockGraph.getLast?_insns hlast
      -- nothing else could have ended a block that ends without a jump of its own
      have hplain : i.op.isPlain = true ∨ i.op = .unpack := by
        rcases h.insnAt hi with hp | ⟨-, t, f, hb⟩ | ⟨-, hr⟩
        · exact hp
        · cases he.cjmp.symm.trans hb.cjmp
        · cases he.jmp.symm.trans hr.jmp
      rw [Option.any_some, Option.any_some]
      generalize i.op = op at hplain
      rcases hplain with hp | rfl
      · rw [Opcode.isCondJump_of_isPlain hp]
        exact ⟨rfl, by cases op <;> first | rfl | cases hp⟩
      · exact ⟨rfl, rfl⟩
  | branch hcond hb _ _ _ =>
    obtain ⟨i, hlast, rfl⟩ := last hb.insn hb.size
    rw [hb.cjmp, hb.jmp, hlast, Option.any_some, Option.any_some, hcond]
    refine ⟨rfl, ?_⟩
    generalize i.op = op at hcond
    cases op <;> first | rfl | cases hcond
  | ret hr _ =>
    obtain ⟨i, hlast, hop⟩ := last hr.insn hr.size
    rw [hr.cjmp, hr.jmp, hlast, Option.any_some, Option.any_some, hop]
    exact ⟨rfl, rfl⟩

/-- Typed graphs have the shape that layouts refine. -/
theorem Annotates.shaped (h : Annotates T c g δ hook) : g.Shaped := by
  intro b hb
  obtain ⟨m, e, -, hend⟩ := h.ending hb
  obtain ⟨hcjmp, hjmp⟩ := hend.successors h
  refine ⟨?_, ?_, hcjmp, hjmp⟩
  · intro i hi
    -- every instruction that the annotation knows is one of its forms
    obtain ⟨done, rest, hsplit⟩ := List.append_of_mem hi
    rintro hop
    have hat := BlockGraph.insnAt_of_split hsplit
    rw [hop] at hat
    rcases h.insnAt hat with (hp | hp) | ⟨hp, -⟩ | ⟨hp, -⟩ <;> cases hp
  · intro i hi
    obtain ⟨done, rest, hsplit⟩ := List.append_of_mem hi
    have hne := List.ne_nil_of_mem hi
    have hall : (g.block b).insns.toList =
        done ++ i ::
            (rest ++ [(g.block b).insns.toList.getLast (by rintro h0; simp [h0] at hi)]) := by
      rw [← List.cons_append, ← List.append_assoc, ← hsplit, List.dropLast_append_getLast]
    rcases h.insnAt (BlockGraph.insnAt_of_split hall) with (hp | hp) | ⟨-, t, f, hbr⟩ | ⟨hp, -⟩
    · exact Opcode.isCondJump_of_isPlain hp
    · rw [hp]
      rfl
    · -- behind a conditional jump there would be nothing
      have hsize := hbr.size
      rw [← Array.length_toList, hall] at hsize
      simp at hsize
    · rw [hp]
      rfl

end Typed

/-! ## Tables -/

/-- The number of entries of the table that the operand of an opcode indexes. -/
def Program.entries? (p : Program) (code : Code) : Opcode → Option Nat
  | .constant => some p.constants.size
  | .attr | .setField | .predeclared | .universal => some p.names.size
  | .makeFunc => some p.functions.size
  | .getLocal | .setLocal | .localCell | .setLocalCell => some code.locals.size
  | .free | .freeCell => some code.freeVars.size
  | .getGlobal | .setGlobal => some p.globals.size
  | _ => none

/-- The tables of a program. -/
def Program.pool (p : Program) : Pool := ⟨p.names, p.constants, p.functions⟩

/-- What is declared in a function agrees with its code. -/
structure Scopes.Matches (s : Scopes) (p : Program) (code : Code) : Prop where
  locals : s.locals.length = code.locals.size
  free : s.free = code.freeVars.size
  globals : s.globals = p.globals.size
  /-- The cells are boxed when the function is entered. -/
  cells : ∀ i : UInt32, s.locals[i.toNat]? = some .cell → i ∈ code.cells
  cells_lt : ∀ i ∈ code.cells, i.toNat < code.locals.size
  /-- Nothing else is boxed, and nothing twice, if 32 bits hold the indices of all locals. -/
  cells_only : code.locals.size ≤ 2 ^ 32 →
    code.cells.Nodup ∧ ∀ i ∈ code.cells, s.locals[i.toNat]? = some .cell

/-- The parameters of a function have slots. -/
structure Code.Counted (c : Code) : Prop where
  slots : c.numParams.toNat ≤ c.locals.size
  kinds : c.numKwonly.toNat + (if c.hasVarargs then 1 else 0) + (if c.hasKwargs then 1 else 0) ≤
    c.numParams.toNat

/-- Captured locals are among the cells. -/
theorem Binding.mem_cells {locals : List Binding} {i : UInt32}
    (h : (locals.map Binding.scope)[i.toNat]? = some .cell) : i ∈ Binding.cells locals := by
  obtain ⟨b, hb, hscope⟩ := Option.map_eq_some_iff.1 (List.getElem?_map .. ▸ h)
  refine List.mem_map.2 ⟨(b, i.toNat), List.mem_filter.2 ⟨?_, by simp [hscope]⟩, by simp⟩
  exact List.mem_zipIdx_iff_getElem?.2 hb

/-- The cells of a function are locals of it. -/
theorem Binding.lt_of_mem_cells {locals : List Binding} {i : UInt32}
    (h : i ∈ Binding.cells locals) :
    i.toNat < locals.length := by
  obtain ⟨⟨b, k⟩, hmem, rfl⟩ := List.mem_map.1 h
  have hb := List.mem_zipIdx_iff_getElem?.1 (List.mem_filter.1 hmem).1
  have hlt := (List.getElem?_eq_some_iff.1 hb).1
  rw [UInt32.toNat_ofNat']
  exact Nat.lt_of_le_of_lt (Nat.mod_le _ _) hlt

/-- The indices of cells are those of different locals, as far as 32 bits hold them. -/
theorem Binding.cells_only {locals : List Binding} (h : locals.length ≤ 2 ^ 32) :
    (Binding.cells locals).Nodup ∧
      ∀ i ∈ Binding.cells locals, (locals.map Binding.scope)[i.toNat]? = some .cell := by
  have hlt : ∀ x ∈ locals.zipIdx, x.2 < 2 ^ 32 ∧ locals[x.2]? = some x.1 := by
    rintro ⟨b, i⟩ hx
    have hb := List.mem_zipIdx_iff_getElem?.1 hx
    exact ⟨Nat.lt_of_lt_of_le (List.getElem?_eq_some_iff.1 hb).1 h, hb⟩
  constructor
  -- the indices are positions, and below the bound none is cut off
  · have hnodup : (locals.zipIdx.map Prod.snd).Pairwise (· ≠ ·) := by
      rw [List.zipIdx_map_snd]
      exact List.nodup_range'
    refine List.pairwise_map.2 (List.Pairwise.imp_of_mem ?_ ((List.pairwise_map.1 hnodup).filter _))
    intro x y hx hy hne hxy
    have hx := (hlt x (List.mem_filter.1 hx).1).1
    have hy := (hlt y (List.mem_filter.1 hy).1).1
    have hi := congrArg UInt32.toNat hxy
    rw [UInt32.toNat_ofNat', UInt32.toNat_ofNat', Nat.mod_eq_of_lt hx, Nat.mod_eq_of_lt hy] at hi
    exact hne hi
  · intro i hi
    obtain ⟨⟨b, k⟩, hmem, rfl⟩ := List.mem_map.1 hi
    obtain ⟨hmem, hscope⟩ := List.mem_filter.1 hmem
    obtain ⟨hk, hb⟩ := hlt _ hmem
    rw [UInt32.toNat_ofNat', Nat.mod_eq_of_lt hk, List.getElem?_map, hb]
    exact congrArg some (eq_of_beq hscope)

/-- Every kind of parameter beside the ordinary ones has slots of its own. -/
theorem Param.kinds_le_slots (params : List Param) (afterStar : Bool) :
    Param.kwonly params afterStar + (if params.any Param.isVarargs then 1 else 0) +
      (if params.any Param.isKwargs then 1 else 0) ≤ Param.slots params := by
  induction params generalizing afterStar with
  | nil => cases afterStar <;> simp [Param.kwonly, Param.slots]
  | cons q rest ih =>
    have hstar := ih true
    have hplain := ih afterStar
    have hslots : Param.slots (q :: rest) =
        (if q.takesSlot then 1 else 0) + Param.slots rest := by
      cases q <;> simp [Param.slots, List.filter_cons, Param.takesSlot, Nat.add_comm]
    rw [hslots, List.any_cons, List.any_cons]
    generalize rest.any Param.isVarargs = varargs at *
    generalize rest.any Param.isKwargs = kwargs at *
    cases varargs <;> cases kwargs <;> cases q <;> cases afterStar <;>
      simp [Param.kwonly, Param.isVarargs, Param.isKwargs, Param.takesSlot] at * <;> omega

/-- An index is within its table. -/
theorem IndexOf.lt_size {α : Type} {table : Array α} {x : α} {i : UInt32} (h : IndexOf table x i) :
    i.toNat < table.size := by
  obtain ⟨k, hk, rfl⟩ := h
  have hlt := (Array.getElem?_eq_some_iff.1 hk).1
  rw [UInt32.toNat_ofNat']
  exact Nat.lt_of_le_of_lt (Nat.mod_le _ _) hlt

/-- An index of 32 bits gives its entry if the table has no more of them. -/
theorem IndexOf.getElem?_eq {α : Type} {table : Array α} {x : α} {i : UInt32}
    (h : IndexOf table x i)
    (hsize : table.size ≤ 2 ^ 32) : table[i.toNat]? = some x := by
  obtain ⟨k, hk, rfl⟩ := h
  have hlt := (Array.getElem?_eq_some_iff.1 hk).1
  rwa [UInt32.toNat_ofNat', Nat.mod_eq_of_lt (by omega)]

/-- A declared local has a slot. -/
theorem Scopes.Declares.lt_locals {s : Scopes} {scope : Scope} {i : UInt32} {name : String}
    (h : s.Declares scope i name) (hscope : scope = .frame ∨ scope = .cell) :
    i.toNat < s.locals.length := by
  have hget : s.locals[i.toNat]? = some scope := by
    rcases hscope with rfl | rfl <;> exact h
  exact (List.getElem?_eq_some_iff.1 hget).1

section Moves

variable {p : Program} {code : Code} {s : Scopes} {op : Opcode} {arg : UInt32} {d e : Shape}

/-- Typed instructions are no filling. -/
theorem Moves.ne_nop {r : Rules} {link : Linkage} (h : Moves r link s op arg d e) : op ≠ .nop := by
  rintro rfl
  cases h with
  | push hop => cases hop
  | unary hop => cases hop
  | binary hop => cases hop
  | setDict hop => rcases hop with hop | hop <;> cases hop
  | call hop => cases hop

/-- The operand of a typed instruction stays within the table that it indexes. -/
theorem Moves.operand_lt (h : Moves .full (.of p.pool) s op arg d e) (hs : s.Matches p code)
    {n : Nat} (hn : p.entries? code op = some n) : arg.toNat < n := by
  have none_of : ∀ {q : Opcode → Bool}, (∀ op, q op = true → p.entries? code op = none) →
      q op = true → arg.toNat < n := by
    intro q hq hop
    rw [hq op hop] at hn
    cases hn
  -- the operand was an index when it was emitted, and the table it points into has only grown
  cases h with
  | push hop => exact none_of (by intro op; cases op <;> first | exact fun _ => rfl | nofun) hop
  | unary hop => exact none_of (by intro op; cases op <;> first | exact fun _ => rfl | nofun) hop
  | binary hop => exact none_of (by intro op; cases op <;> first | exact fun _ => rfl | nofun) hop
  | call hop => exact none_of (by intro op; cases op <;> first | exact fun _ => rfl | nofun) hop
  | setDict hop => rcases hop with rfl | rfl <;> cases hn
  | constant h => cases hn; exact IndexOf.lt_size h
  | predeclared h | universal h | attr h | setField h => cases hn; exact IndexOf.lt_size h
  | makeFunc h =>
    cases hn
    obtain ⟨a, h⟩ := h
    exact IndexOf.lt_size h
  | setLocal h | getLocal h => cases hn; exact hs.locals ▸ (h rfl).lt_locals (.inl rfl)
  | setLocalCell h | getCell h | localCell h =>
    cases hn
    exact hs.locals ▸ (h rfl).lt_locals (.inr rfl)
  | free h | freeCell h => cases hn; exact hs.free ▸ h rfl
  | setGlobal h | getGlobal h => cases hn; exact hs.globals ▸ h rfl
  | _ => cases hn

end Moves

/-! ## The functions of a compiled program -/

/-- A function of a program is the code of a typed graph. -/
structure Lowers (p : Program) (predeclared : String → Prop) (code : Code) (s : Scopes)
    (g : BlockGraph) (l : Layout) : Prop where
  size_pos : 0 < g.size
  layout : g.layout 0 = .ok l
  assemble : ∃ a, l.assemble g code.pos = .ok a ∧ a.code = code.code ∧ a.lines = code.lines ∧
    a.maxStack = code.maxStack
  typed : ∃ δ, Annotates (shapeTyping .full (.of p.pool)) s g δ
    (SpreadAt (shapeTyping .full (.of p.pool)) s p.pool g)
  covers : s.Matches p code
  counted : code.Counted
  predeclared_eq : s.predeclared = predeclared

/-- The body of a function is all of a graph. A body that can end without a return returns
`None`. -/
def Plan.StandsIn (pool : Pool) (body : Plan) (g : BlockGraph) : Prop :=
  ∃ e, body.At pool g [] ⟨0, 0⟩ 1 e g.size ∧ g.InsnAt e .pushNone 0 ∧ g.ReturnAt e.next

/-- An assembled body that is typed has a typed graph, in which it stands. -/
theorem annotated_of_assembled {pool : Pool} {body : Plan} {pos : Position}
    {a : Assembled} {s : Scopes} {e : Shape} (h : body.Assembled pool pos a)
    (ht : body.Typed (shapeTyping .full (.of pool)) s (some []) ⟨[], 0⟩ e)
    (hends : (shapeTyping .full (.of pool)).Ends s e) :
    ∃ g l, (0 < g.size ∧ g.layout 0 = .ok l ∧ l.assemble g pos = .ok a ∧
      ∃ δ, Annotates (shapeTyping .full (.of pool)) s g δ
        (SpreadAt (shapeTyping .full (.of pool)) s pool g)) ∧
      body.StandsIn pool g := by
  obtain ⟨g, l, q, hat, hnone, hret, hlayout, hcode⟩ := h
  exact ⟨g, l, ⟨(Plan.At.range body hat).1, hlayout, hcode, Plan.At.annotated (covers_of .full pool)
    (fun _ _ _ _ _ _ _ _ _ _ hat hty => ⟨_, _, _, _, _, _, _, _, hat, hty⟩) hat hnone
        hret ht hends⟩,
    q, hat, hnone, hret⟩

namespace SourceFile

variable {f : SourceFile} {predeclared : String → Prop} {p : Program}

/-- A compiled file is its assembled body and the functions nested in it. -/
theorem assembled_of_compile (hp : f.compile = .ok p) :
    ∃ a, (Lowering.stmts f.body).Assembled p.pool ⟨1, 1⟩ a ∧
      p.toplevel = a.toCode "<toplevel>" ⟨1, 1⟩ f.body f.locals [] ∧
      p.globals = (f.globals.map Binding.decl).toArray ∧
      ∀ code ∈ p.functions, (Lowering.stmts f.body).Holds p.pool code := by
  obtain ⟨a, b, hb, rfl⟩ := exists_of_compile hp
  obtain ⟨hadds, hassembled⟩ := Builder.Adds.assemble (Plan.adding_emit _) hb
  let pool : Pool := ⟨b.names, b.constants, b.functions⟩
  have hcovered : b.Covered pool := ⟨List.prefix_rfl, List.prefix_rfl, List.prefix_rfl⟩
  refine ⟨a, hassembled pool hcovered, rfl, rfl, fun code hcode => ?_⟩
  exact (hadds.functions pool hcovered code hcode).resolve_left (by simp)

/-- The statements of a well resolved file are typed. -/
theorem stmts_typed (h : f.WellResolved predeclared) (pool : Pool) :
    (Lowering.stmts f.body).Typed (shapeTyping .full (.of pool)) (f.scopes predeclared) (some [])
      ⟨[], 0⟩ ⟨[], 0⟩ :=
  Lowering.stmts_typed f.body h (by intro hloop; cases hloop)

/-- The toplevel of the program of a resolved file is typed, and the plan of the file stands in its
graph. -/
theorem lowers_toplevel (h : f.WellResolved predeclared) (hp : f.compile = .ok p) :
    ∃ g l, Lowers p predeclared p.toplevel (f.scopes predeclared) g l ∧
      (Lowering.stmts f.body).StandsIn p.pool g := by
  obtain ⟨a, hassembled, htop, hglobals, -⟩ := assembled_of_compile hp
  have hends : (shapeTyping .full (.of p.pool)).Ends (f.scopes predeclared) ⟨[], 0⟩ :=
    ⟨_, ⟨_, .push rfl _, Shape.le_refl _⟩, _, rfl⟩
  obtain ⟨g, l, ⟨hsize, hlayout, ha, hδ⟩, hstands⟩ :=
    annotated_of_assembled hassembled (stmts_typed h p.pool) hends
  refine ⟨g, l, ⟨hsize, hlayout, ⟨a, htop ▸ ha, htop ▸ rfl, htop ▸ rfl, htop ▸ rfl⟩, hδ,
    ⟨?_, ?_, ?_, ?_, ?_, ?_⟩, ⟨?_, ?_⟩, rfl⟩, hstands⟩
  · rw [htop]
    simp [scopes, Assembled.toCode]
  · rw [htop]
    rfl
  · simp [scopes, hglobals]
  · rw [htop]
    exact fun i hi => Binding.mem_cells hi
  · rw [htop]
    exact fun i hi => by simpa [Assembled.toCode] using Binding.lt_of_mem_cells hi
  · rw [htop]
    exact fun hsize => Binding.cells_only (by simpa [Assembled.toCode] using hsize)
  · rw [htop]
    exact Nat.zero_le _
  · rw [htop]
    exact Nat.le_refl _

/-- The functions of the program of a resolved file are typed. -/
theorem lowers_of_compile (h : f.WellResolved predeclared) (hp : f.compile = .ok p) {code : Code}
    (hcode : code = p.toplevel ∨ code ∈ p.functions) :
    ∃ s g l, Lowers p predeclared code s g l := by
  rcases hcode with rfl | hcode
  · obtain ⟨g, l, hl, -⟩ := lowers_toplevel h hp
    exact ⟨_, g, l, hl⟩
  · obtain ⟨-, -, -, hglobals, hholds⟩ := assembled_of_compile hp
    let P : Scopes → Prop := fun c =>
      c.globals = f.globals.length ∧ c.predeclared = predeclared
    -- a nested function sees the globals and the predeclared names of its file
    have hinner : ∀ c f, P c → P ((shapeTyping .full (.of p.pool)).inner c f) := by
      rintro c ⟨_, _, _, _, _, _, _, _, _⟩ hc
      exact hc
    have hscopes : P (f.scopes predeclared) := ⟨rfl, rfl⟩
    obtain ⟨c, ⟨name, pos, params, body, locals, freeVars, numKwonly, hasVarargs, hasKwargs⟩, hc,
      hcounted, plan, a', e, rfl, ha', ht, hends⟩ :=
      Plan.compiled_of_holds (covers_of .full p.pool) hinner _ hscopes (stmts_typed h p.pool)
          (hholds code hcode)
    obtain ⟨g, l, ⟨hsize, hlayout, ha, hδ⟩, -⟩ := annotated_of_assembled ha' ht hends
    obtain ⟨hslots, hlocals, hkwonly, rfl, rfl⟩ := hcounted rfl
    have htoNat : (UInt32.ofNat (Param.slots params)).toNat = Param.slots params := by
      rw [UInt32.toNat_ofNat', Nat.mod_eq_of_lt hslots]
    refine ⟨_, g, l, hsize, hlayout, ⟨a', ha, rfl, rfl, rfl⟩, hδ, ⟨?_, ?_, ?_, ?_, ?_, ?_⟩,
      ⟨?_, ?_⟩, hc.2⟩
    · simp [shapeTyping, Scopes.inner, Function.compiled, Assembled.toCode]
    · simp [shapeTyping, Scopes.inner, Function.compiled, Assembled.toCode]
    · simpa [shapeTyping, Scopes.inner, hglobals] using hc.1
    · exact fun i hi => Binding.mem_cells hi
    · exact fun i hi => by
        simpa [Function.compiled, Assembled.toCode] using Binding.lt_of_mem_cells hi
    · exact fun hsize => Binding.cells_only
        (by simpa [Function.compiled, Assembled.toCode] using hsize)
    · show (UInt32.ofNat (Param.slots params)).toNat ≤ _
      rw [htoNat]
      simpa [Function.compiled, Assembled.toCode] using hlocals
    · show UInt32.toNat _ + _ + _ ≤ (UInt32.ofNat (Param.slots params)).toNat
      rw [htoNat]
      simpa [Function.compiled, hkwonly] using Param.kinds_le_slots params false

end SourceFile

/-! ## Validity -/

namespace Lowers

variable {p : Program} {predeclared : String → Prop} {code : Code} {s : Scopes} {g : BlockGraph}
  {l : Layout}

/-- The code of a function is assembled from its layout. -/
theorem assembles (h : Lowers p predeclared code s g l) : l.Assembles g 0 code.code := by
  obtain ⟨a, ha, hcode, -⟩ := h.assemble
  exact hcode ▸ g.assembles h.size_pos h.layout ha

/-- The graph of a function is well shaped. -/
theorem shaped (h : Lowers p predeclared code s g l) : g.Shaped := by
  obtain ⟨δ, hδ⟩ := h.typed
  exact hδ.shaped

/-- What an instruction of the graph of a function can be. -/
theorem insn_cases (h : Lowers p predeclared code s g l) {b k : Nat} {op : Opcode} {arg : UInt32}
    (hi : g.InsnAt ⟨b, k⟩ op arg) :
    (∃ d e, Moves .full (.of p.pool) s op arg d e) ∨ op = .unpack ∨ op.isCondJump = true ∨
      op = .ret := by
  obtain ⟨δ, hδ⟩ := h.typed
  rcases hδ.insnAt hi with (hp | hp) | ⟨hp, -⟩ | ⟨hp, -⟩
  · have hb : b < g.size := BlockGraph.lt_size_of_insns_ne hi.insns_ne
    obtain ⟨d, e', e, hmove, -⟩ := (hδ.closes b hb).steps_at (Nat.zero_le k) hi hp
    exact .inl ⟨d, e, hmove⟩
  · exact .inr (.inl hp)
  · exact .inr (.inr (.inl hp))
  · exact .inr (.inr (.inr hp))

/-- No filling stands in the graph of a function. -/
theorem ne_nop (h : Lowers p predeclared code s g l) {b : BlockId} {i : Insn}
    (hi : i ∈ (g.block b).insns.toList) : i.op ≠ .nop := by
  obtain ⟨done, rest, hsplit⟩ := List.append_of_mem hi
  rcases h.insn_cases (BlockGraph.insnAt_of_split hsplit) with ⟨d, e, hmove⟩ | hop | hop | hop
  · exact hmove.ne_nop
  · rw [hop]
    decide
  · intro hnop
    rw [hnop] at hop
    cases hop
  · rw [hop]
    decide

/-- An operand that indexes a table stays within it. -/
theorem operand_lt (h : Lowers p predeclared code s g l) {b : BlockId} {x : Instruction}
    (hx : x ∈ l.blockInstructions g b) {n : Nat} (hn : p.entries? code x.op = some n) :
    ∃ arg, x.arg = some arg ∧ arg.toNat < n := by
  -- the jump that ends a block points into no table
  rcases Layout.Assembles.mem_blockInstructions hx with ⟨done, i, rest, hsplit, rfl⟩ |
    ⟨addr, -, rfl⟩
  · have hcond : i.op.isCondJump = false := by
      generalize i.op = op at hn
      cases op <;> first | rfl | cases hn
    have harg : i.op.hasArg = true := by
      generalize i.op = op at hn
      cases op <;> first | rfl | cases hn
    refine ⟨i.arg, ?_, ?_⟩
    · rw [operand?_resolve hcond, Emit.operand?, if_pos harg]
    · rcases h.insn_cases (BlockGraph.insnAt_of_split hsplit) with ⟨d, e, hmove⟩ | hop | hop | hop
      · exact hmove.operand_lt h.covers hn
      · rw [hop] at hn
        cases hn
      · rw [hcond] at hop
        cases hop
      · rw [hop] at hn
        cases hn
  · cases hn

end Lowers

/-- Every function of the program of a resolved file is valid: its code is read to the end, as the
instructions of the placed blocks with jumps behind some of them and filling; a jump goes to an
address where the first instruction of a block is read; the last instruction is a return or a jump;
and no operand leaves the table that it indexes. -/
theorem SourceFile.compile_valid {f : SourceFile} {predeclared : String → Prop} {p : Program}
    {code : Code} (h : f.WellResolved predeclared) (hp : f.compile = .ok p)
    (hcode : code = p.toplevel ∨ code ∈ p.functions) :
    ∃ (g : BlockGraph) (l : Layout) (is : Array Instruction),
      (∃ a, g.layout 0 = .ok l ∧ l.assemble g code.pos = .ok a ∧ a.code = code.code) ∧
      instructions code.code = .ok is ∧
      is.toList.filter (fun i => i.op != .nop) = l.order.toList.flatMap (l.blockInstructions g) ∧
      (∀ i ∈ is, i.op.isJump = true → ∃ arg b j, i.arg = some arg ∧ b ∈ l.order ∧
        arg.toNat = l.address b ∧ j ∈ is ∧ j.pc = l.address b ∧
        (g.block b).insns.toList.head?.map Insn.op = some j.op) ∧
      (∃ i, (is.toList.filter fun i => i.op != .nop).getLast? = some i ∧
        (i.op = .ret ∨ i.op = .jmp)) ∧
      ∀ i ∈ is, ∀ n, p.entries? code i.op = some n → ∃ arg, i.arg = some arg ∧ arg.toNat < n := by
  obtain ⟨s, g, l, hlow⟩ := lowers_of_compile h hp hcode
  have ha := hlow.assembles
  obtain ⟨is, his, hfilter⟩ := ha.instructions fun b _ i hi => hlow.ne_nop hi
  -- every instruction but padding stands in a block that the layout placed
  have mem_iff : ∀ i, i ∈ is ∧ i.op ≠ .nop ↔
      ∃ b ∈ l.order.toList, i ∈ l.blockInstructions g b := by
    intro i
    rw [← List.mem_flatMap, ← hfilter, List.mem_filter, Array.mem_toList_iff, bne_iff_ne]
  refine ⟨g, l, is, ?_, his, hfilter, ?_, ?_, ?_⟩
  · obtain ⟨a, hassemble, hbytes, -⟩ := hlow.assemble
    exact ⟨a, hlow.layout, hassemble, hbytes⟩
  · intro i hi hjump
    have hne : i.op ≠ .nop := by
      intro hnop
      rw [hnop] at hjump
      cases hjump
    obtain ⟨b, hb, hib⟩ := (mem_iff i).1 ⟨hi, hne⟩
    obtain ⟨arg, t, harg, ht, hcodet, haddr⟩ := ha.target_of_isJump hlow.shaped hb hib hjump
    obtain ⟨first, rest, hfirst⟩ := List.exists_cons_of_ne_nil
        (Array.toList_eq_nil_iff.not.2 hcodet)
    obtain ⟨j, hj, hpc, hop⟩ := Layout.Assembles.exists_first (l := l) hfirst
    refine ⟨arg, t, j, harg, Array.mem_toList_iff.1 ht, haddr,
        ((mem_iff j).2 ⟨t, ht, hj⟩).1, hpc, ?_⟩
    rw [hfirst, hop]
    rfl
  · rw [hfilter]
    exact ha.getLast?_blocks hlow.shaped
  · intro i hi n hn
    have hne : i.op ≠ .nop := by
      intro hnop
      rw [hnop] at hn
      cases hn
    obtain ⟨b, hb, hib⟩ := (mem_iff i).1 ⟨hi, hne⟩
    exact hlow.operand_lt hib hn

/-- A file with two functions, a loop and a comprehension. -/
theorem SourceFile.compile_valid_pairs : ∃ p, pairsFile.compile = .ok p ∧
    0 < p.functions.size ∧ ∀ code ∈ p.functions, ∃ is, instructions code.code = .ok is ∧
      ∀ i ∈ is, ∀ n, p.entries? code i.op = some n → ∃ arg, i.arg = some arg ∧ arg.toNat < n := by
  have hcheck : pairsFile.compile.toOption.any (fun p => 0 < p.functions.size) = true := by
    decide +kernel
  obtain ⟨p, hp, hsize⟩ := exists_ok_of_any hcheck
  refine ⟨p, hp, of_decide_eq_true hsize, fun code hcode => ?_⟩
  obtain ⟨g, l, is, -, his, -, -, -, hoperands⟩ :=
    compile_valid (wellResolved_pairsFile fun _ => False) hp (.inr hcode)
  exact ⟨is, his, hoperands⟩

end Starlark
