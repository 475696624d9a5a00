import Starlark.Proofs.Flow.Refinement

/-!
# Reading a whole code stream

`instructions` reads the code of a layout to its end. What it finds are the placed instructions in
order, each at its address, the jumps behind blocks and filling (`instructions_of_assembles`). A
jump goes to an address where the first instruction of a block is read (`starts_of_isJump`), and the
last instruction before the filling is a return or a jump (`getLast?_blocks`).
-/

set_option autoImplicit false

namespace Starlark

open BlockGraph (Leads)
open Emit

/-! ## Reading on -/

theorem lt_next_of_readOperand {code : Array UInt8} {left pc weight acc next : Nat} {arg : UInt32}
    (h : readOperand code left pc weight acc = .ok (arg, next)) : pc < next := by
  induction left generalizing pc weight acc with
  | zero => cases h
  | succ left ih =>
    rw [readOperand] at h
    split at h
    · cases h
    · dsimp only at h
      split at h
      · cases h
        exact Nat.lt_succ_self _
      · exact Nat.lt_of_succ_lt (ih h)

/-- Every instruction takes a byte or more. -/
theorem lt_next_of_fetch {code : Array UInt8} {pc : Nat} {f : Fetched}
    (h : fetch code pc = .ok f) : pc < f.next := by
  unfold fetch at h
  split at h
  · cases h
  · split at h
    · cases h
    · split at h
      · split at h
        · cases h
        · rename_i hread
          cases h
          exact Nat.lt_of_succ_lt (lt_next_of_readOperand hread)
      · cases h
        exact Nat.lt_succ_self _

/-- From one address to the other, the instructions are read one after another, and filling between
them. -/
inductive Reads (code : Array UInt8) : Nat → List Instruction → Nat → Prop where
  | nil (pc : Nat) : Reads code pc [] pc
  | nop {pc next q : Nat} {is : List Instruction} :
      fetch code pc = .ok ⟨.nop, none, next⟩ → Reads code next is q → Reads code pc is q
  | cons {pc next q : Nat} {op : Opcode} {arg : Option UInt32} {is : List Instruction} :
      fetch code pc = .ok ⟨op, arg, next⟩ → op ≠ .nop → Reads code next is q →
        Reads code pc (⟨pc, op, arg⟩ :: is) q

namespace Reads

variable {code : Array UInt8} {pc q r : Nat} {is js : List Instruction}

theorem append (h : Reads code pc is q) (h' : Reads code q js r) : Reads code pc (is ++ js) r := by
  induction h with
  | nil _ => exact h'
  | nop hf _ ih => exact .nop hf (ih h')
  | cons hf hop _ ih => exact .cons hf hop (ih h')

theorem le (h : Reads code pc is q) : pc ≤ q := by
  induction h with
  | nil _ => exact Nat.le_refl _
  | nop hf _ ih => exact Nat.le_trans (Nat.le_of_lt (lt_next_of_fetch hf)) ih
  | cons hf _ _ ih => exact Nat.le_trans (Nat.le_of_lt (lt_next_of_fetch hf)) ih

theorem filling {k : Nat} (h : CodeAt code pc (List.replicate k Opcode.nop.toByte)) :
    Reads code pc [] (pc + k) := by
  induction k generalizing pc with
  | zero => exact .nil pc
  | succ k ih =>
    have hrest : CodeAt code (pc + 1) (List.replicate k Opcode.nop.toByte) := by
      rw [List.replicate_succ] at h
      exact h.2
    have hreads := ih hrest
    rw [show pc + 1 + k = pc + (k + 1) by omega] at hreads
    exact .nop (fetch_filling h) hreads

/-- One instruction on the way to the end of the code. -/
theorem instructionsFrom_step {f : Fetched} (hf : fetch code pc = .ok f) (hend : f.next ≤ code.size)
    {fuel : Nat} (hfuel : code.size - pc ≤ fuel) (acc : Array Instruction) :
    ∃ fuel', code.size - f.next ≤ fuel' ∧ instructionsFrom code fuel pc acc =
      instructionsFrom code fuel' f.next (acc.push ⟨pc, f.op, f.arg⟩) := by
  have hlt := lt_next_of_fetch hf
  obtain ⟨fuel, rfl⟩ : ∃ n, fuel = n + 1 := ⟨fuel - 1, by omega⟩
  refine ⟨fuel, by omega, ?_⟩
  rw [instructionsFrom, if_pos (by omega), hf]

theorem instructionsFrom (h : Reads code pc is q) (hq : q = code.size) {fuel : Nat}
    (hfuel : code.size - pc ≤ fuel) (acc : Array Instruction) :
    ∃ all : Array Instruction, Starlark.instructionsFrom code fuel pc acc = .ok (acc ++ all) ∧
      all.toList.filter (fun i => i.op != .nop) = is := by
  -- on the instructions read; padding is read as well and filtered out
  induction h generalizing fuel acc with
  | nil pc =>
    refine ⟨#[], ?_, rfl⟩
    cases fuel with
    | zero => simp [Starlark.instructionsFrom]
    | succ fuel => simp [Starlark.instructionsFrom, hq]
  | @nop pc next q is hf hrest ih =>
    obtain ⟨fuel', hfuel', hstep⟩ := instructionsFrom_step hf (hq ▸ hrest.le) hfuel acc
    obtain ⟨all, hall, hfilter⟩ := ih hq hfuel' (acc.push ⟨pc, .nop, none⟩)
    refine ⟨#[⟨pc, .nop, none⟩] ++ all, ?_, ?_⟩
    · rw [hstep, hall, ← Array.append_singleton, Array.append_assoc]
    · rw [Array.toList_append, List.singleton_append, List.filter_cons_of_neg (by simp), hfilter]
  | @cons pc next q op arg is hf hop hrest ih =>
    obtain ⟨fuel', hfuel', hstep⟩ := instructionsFrom_step hf (hq ▸ hrest.le) hfuel acc
    obtain ⟨all, hall, hfilter⟩ := ih hq hfuel' (acc.push ⟨pc, op, arg⟩)
    refine ⟨#[⟨pc, op, arg⟩] ++ all, ?_, ?_⟩
    · rw [hstep, hall, ← Array.append_singleton, Array.append_assoc]
    · rw [Array.toList_append, List.singleton_append, List.filter_cons_of_pos
        (by simpa using hop), hfilter]

/-- A stream that is read to its end is read by `instructions`. -/
theorem instructions (h : Reads code 0 is code.size) :
    ∃ all, Starlark.instructions code = .ok all ∧
      all.toList.filter (fun i => i.op != .nop) = is := by
  obtain ⟨all, hall, hfilter⟩ := h.instructionsFrom rfl (Nat.le_refl _) #[]
  rw [Array.empty_append] at hall
  exact ⟨all, hall, hfilter⟩

end Reads

/-! ## Placed instructions -/

/-- Instructions one after another as they are read, from an address on. -/
def Insn.listed (pc : Nat) : List Insn → List Instruction
  | [] => []
  | i :: rest => ⟨pc, i.op, operand? i⟩ :: Insn.listed (pc + i.size) rest

theorem Insn.mem_listed {x : Instruction} {is : List Insn} {pc : Nat} (h : x ∈ Insn.listed pc is) :
    ∃ done i rest, is = done ++ i :: rest ∧ x = ⟨pc + Insn.sizes done, i.op, operand? i⟩ := by
  induction is generalizing pc with
  | nil => cases h
  | cons i is ih =>
    rcases List.mem_cons.1 h with rfl | h
    · exact ⟨[], i, is, rfl, by simp⟩
    · obtain ⟨done, j, rest, rfl, rfl⟩ := ih h
      exact ⟨i :: done, j, rest, rfl, by simp [Nat.add_assoc]⟩

theorem Insn.getLast?_listed {is : List Insn} {i : Insn} (h : is.getLast? = some i) (pc : Nat) :
    ∃ x, (Insn.listed pc is).getLast? = some x ∧ x.op = i.op := by
  induction is generalizing pc with
  | nil => cases h
  | cons j is ih =>
    cases is with
    | nil =>
      cases h
      exact ⟨_, rfl, rfl⟩
    | cons k is =>
      rw [List.getLast?_cons_cons] at h
      rw [Insn.listed, Insn.listed, List.getLast?_cons_cons]
      exact ih h (pc + j.size)

/-- The address that the jump behind the code of a block goes to, if there is one. -/
def Layout.jumpAddress? (g : BlockGraph) (l : Layout) (b : BlockId) : Option Nat :=
  match (g.block b).jmp with
  | none => none
  | some c =>
    match g.target c with
    | .error _ => none
    | .ok t =>
      if l.place.getD t none = (l.place.getD b none).map (· + 1) then none else some (l.address t)

/-- The instructions of a placed block as they are read: its code, and the jump behind it if there
is one. -/
def Layout.blockInstructions (g : BlockGraph) (l : Layout) (b : BlockId) : List Instruction :=
  Insn.listed (l.address b) (resolved g l b) ++
    (l.jumpAddress? g b).toList.map fun addr =>
      ⟨l.address b + g.codeSize b, .jmp, some (UInt32.ofNat addr)⟩

theorem Layout.jumpBytes_eq (g : BlockGraph) (l : Layout) (b : BlockId) :
    jumpBytes g l b =
      match l.jumpAddress? g b with
      | none => []
      | some addr => Opcode.jmp.toByte :: operand (UInt32.ofNat addr) 4 := by
  unfold jumpBytes jumpAddress?
  cases (g.block b).jmp with
  | none => rfl
  | some c =>
    cases ht : g.target c with
    | error e => simp only [ht]
    | ok t =>
      simp only [ht]
      split <;> rfl

namespace Layout.Assembles

variable {g : BlockGraph} {entry : BlockId} {l : Layout} {code : Array UInt8} {b : BlockId}

/-- The code of a block is read from any of its points on. -/
theorem reads_insns (h : l.Assembles g entry code) (hb : b ∈ l.order.toList)
    (hnop : ∀ i ∈ (g.block b).insns.toList, i.op ≠ .nop) {done rest : List Insn}
    (hi : (g.block b).insns.toList = done ++ rest) :
    Reads code (l.pointAddress b done)
      (Insn.listed (l.pointAddress b done) (rest.map (resolve (branchAddress g l b))))
      (l.address b + g.codeSize b) := by
  -- on the instructions still to be read, each followed by its own padding
  induction rest generalizing done with
  | nil =>
    rw [List.append_nil] at hi
    rw [← hi]
    exact .nil _
  | cons i rest ih =>
    obtain ⟨hat, hlen⟩ := h.codeAt_insn hb hi
    have hfetch := fetch_insnBytes hat
    have hfill := Reads.filling (codeAt_filling hat)
    have hle : filling (resolve (branchAddress g l b) i) ≤
        (insnBytes (resolve (branchAddress g l b) i)).length := by
      rw [filling, length_insnBytes]
      split <;> omega
    rw [Nat.add_assoc, Nat.sub_add_cancel hle, hlen] at hfill
    have hnext : l.pointAddress b (done ++ [i]) = l.pointAddress b done + i.size := by
      rw [pointAddress_append]
      simp
    have hrest := ih (show _ = (done ++ [i]) ++ rest by simpa using hi)
    rw [hnext] at hrest
    rw [op_resolve, hlen] at hfetch
    have hmem : i ∈ (g.block b).insns.toList := by simp [hi]
    have hreads := Reads.cons hfetch (hnop i hmem) (hfill.append hrest)
    simpa [Insn.listed] using hreads

/-- The bytes of a block are read as its placed instructions. -/
theorem reads_chunk (h : l.Assembles g entry code) (hb : b ∈ l.order.toList)
    (hnop : ∀ i ∈ (g.block b).insns.toList, i.op ≠ .nop) :
    Reads code (l.address b) (l.blockInstructions g b) (l.address b + (chunk g l b).length) := by
  obtain ⟨pre, post, hsplit⟩ := List.append_of_mem hb
  obtain ⟨hcode, -⟩ := h.length_parts hsplit
  have hinsns := h.reads_insns hb hnop (List.nil_append _).symm
  rw [Layout.pointAddress_nil] at hinsns
  refine hinsns.append ?_
  have hat := h.codeAt_chunk hb
  rw [chunk, CodeAt.append_iff, hcode] at hat
  rw [chunk, List.length_append, hcode, ← Nat.add_assoc]
  replace hat := hat.2
  rw [Layout.jumpBytes_eq] at hat ⊢
  -- the jump that ends the block, where the next block does not just follow
  cases haddr : l.jumpAddress? g b with
  | none => exact .nil _
  | some addr =>
    simp only [haddr] at hat
    have hfetch := fetch_operand (by rfl) hat
    simp only [operand, CodeAt, CodeAt.append_iff] at hat
    have hfill := Reads.filling hat.2.2
    simp only [operand, List.length_cons, List.length_append, List.length_replicate]
    refine .cons hfetch (by decide) ?_
    convert hfill using 1
    · omega
    · rfl
    · omega

/-- The code of a layout is read as the instructions of its blocks. -/
theorem reads_chunks (h : l.Assembles g entry code)
    (hnop : ∀ b ∈ l.order.toList, ∀ i ∈ (g.block b).insns.toList, i.op ≠ .nop)
    {pre post : List BlockId} (hsplit : l.order.toList = pre ++ post) :
    Reads code (pre.flatMap (chunk g l)).length (post.flatMap (l.blockInstructions g))
        code.size := by
  induction post generalizing pre with
  | nil =>
    have hlen := congrArg List.length h.bytes
    rw [hsplit, List.append_nil, Array.length_toList] at hlen
    rw [← hlen]
    exact .nil _
  | cons b post ih =>
    have hb : b ∈ l.order.toList := by simp [hsplit]
    have hfirst := h.reads_chunk hb (hnop b hb)
    rw [h.address_eq pre b post hsplit] at hfirst
    have hrest := ih (show _ = (pre ++ [b]) ++ post by simpa using hsplit)
    rw [List.flatMap_append, List.length_append, List.flatMap_singleton] at hrest
    exact hfirst.append hrest

theorem instructions (h : l.Assembles g entry code)
    (hnop : ∀ b ∈ l.order.toList, ∀ i ∈ (g.block b).insns.toList, i.op ≠ .nop) :
    ∃ is, Starlark.instructions code = .ok is ∧
      is.toList.filter (fun i => i.op != .nop) = l.order.toList.flatMap (l.blockInstructions g) :=
  (h.reads_chunks hnop (List.nil_append _).symm).instructions

/-! ## Jumps -/

/-- A placed instruction is one of its block, or the jump behind it. -/
theorem mem_blockInstructions {x : Instruction} (hx : x ∈ l.blockInstructions g b) :
    (∃ done i rest, (g.block b).insns.toList = done ++ i :: rest ∧
      x = ⟨l.pointAddress b done, i.op, operand? (resolve (branchAddress g l b) i)⟩) ∨
    ∃ addr, l.jumpAddress? g b = some addr ∧
      x = ⟨l.address b + g.codeSize b, .jmp, some (UInt32.ofNat addr)⟩ := by
  rcases List.mem_append.1 hx with hx | hx
  · obtain ⟨done', i', rest', hi, rfl⟩ := Insn.mem_listed hx
    obtain ⟨done, rest, hsplit, rfl, hrest⟩ := List.map_eq_append_iff.1 hi
    obtain ⟨i, rest, rfl, rfl, rfl⟩ := List.map_eq_cons_iff.1 hrest
    refine .inl ⟨done, i, rest, hsplit, ?_⟩
    rw [op_resolve, pointAddress]
    congr 2
    exact sizes_map_resolve _ done
  · obtain ⟨addr, haddr, rfl⟩ := List.mem_map.1 hx
    exact .inr ⟨addr, Option.mem_toList.1 haddr, rfl⟩

/-- A block with code is read from its address on. -/
theorem exists_first {i : Insn} {rest : List Insn} (hi : (g.block b).insns.toList = i :: rest) :
    ∃ x ∈ l.blockInstructions g b, x.pc = l.address b ∧ x.op = i.op := by
  refine ⟨⟨l.address b, i.op, operand? (resolve (branchAddress g l b) i)⟩, ?_, rfl, rfl⟩
  rw [blockInstructions, resolved, hi, List.map_cons, Insn.listed, op_resolve]
  simp

theorem jumpAddress?_eq_some {addr : Nat} (h : l.Assembles g entry code) (hb : b ∈ l.order.toList)
    (haddr : l.jumpAddress? g b = some addr) :
    ∃ t ∈ l.order.toList, (g.block t).insns ≠ #[] ∧ addr = l.address t := by
  unfold jumpAddress? at haddr
  cases hj : (g.block b).jmp with
  | none =>
    rw [hj] at haddr
    cases haddr
  | some c =>
    obtain ⟨t, hlead, ht⟩ := h.covering.jmp_mem hb hj
    simp only [hj, BlockGraph.target_eq_ok_iff.2 hlead] at haddr
    split at haddr
    · cases haddr
    · cases haddr
      exact ⟨t, ht, hlead.insns_ne, rfl⟩

/-- A jump goes to the address of a placed block with code. -/
theorem target_of_isJump (h : l.Assembles g entry code) (hshape : g.Shaped)
    (hb : b ∈ l.order.toList) {x : Instruction} (hx : x ∈ l.blockInstructions g b)
    (hop : x.op.isJump = true) :
    ∃ arg t, x.arg = some arg ∧ t ∈ l.order.toList ∧ (g.block t).insns ≠ #[] ∧
      arg.toNat = l.address t := by
  have hshaped := hshape b (h.covering.placing.lt_size b hb)
  rcases mem_blockInstructions hx with ⟨done, i, rest, hi, rfl⟩ | ⟨addr, haddr, rfl⟩
  · have hcond : i.op.isCondJump = true := by
      have hne := hshaped.ne_jmp hi
      simpa [Opcode.isJump, hne] using hop
    obtain ⟨c, hc⟩ := hshaped.exists_cjmp hi hcond
    obtain ⟨t, hlead, ht⟩ := h.covering.cjmp_mem hb hc
    obtain ⟨arg, harg, haddr⟩ := h.operand_of_cjmp hcond hc hlead ht
    exact ⟨arg, t, harg, ht, hlead.insns_ne, haddr⟩
  · obtain ⟨t, ht, hne, rfl⟩ := h.jumpAddress?_eq_some hb haddr
    exact ⟨_, t, rfl, ht, hne, h.toNat_address ht⟩

/-- What is read last is a return or a jump. -/
theorem getLast?_blocks (h : l.Assembles g entry code) (hshape : g.Shaped) :
    ∃ x, (l.order.toList.flatMap (l.blockInstructions g)).getLast? = some x ∧
        (x.op = .ret ∨ x.op = .jmp) := by
  obtain ⟨pre, b, hlast⟩ : ∃ pre b, l.order.toList = pre ++ [b] := by
    have hne := List.ne_nil_of_mem h.covering.entry_mem
    exact ⟨_, _, (List.dropLast_append_getLast hne).symm⟩
  have hb : b ∈ l.order.toList := by simp [hlast]
  have hshaped := hshape b (h.covering.placing.lt_size b hb)
  suffices hend : ∃ x, (l.blockInstructions g b).getLast? = some x ∧ (x.op = .ret ∨ x.op = .jmp) by
    obtain ⟨x, hx, hop⟩ := hend
    refine ⟨x, ?_, hop⟩
    rw [hlast, List.flatMap_append, List.flatMap_singleton, List.getLast?_append, hx]
    rfl
  cases hj : (g.block b).jmp with
  | none =>
    -- no successor: the block ends with a return
    have hret := hshaped.jmp_isNone
    rw [hj, Option.isNone_none, eq_comm, Option.any_eq_true] at hret
    obtain ⟨i, hi, hop⟩ := hret
    have hresolved : (resolved g l b).getLast? = some (resolve (branchAddress g l b) i) := by
      rw [resolved, List.getLast?_map, hi]
      rfl
    obtain ⟨x, hx, hxop⟩ := Insn.getLast?_listed hresolved (l.address b)
    refine ⟨x, ?_, .inl ?_⟩
    · rw [blockInstructions, jumpAddress?, hj]
      simpa using hx
    · rw [hxop, op_resolve]
      exact eq_of_beq hop
  | some c =>
    -- no block follows: there is a jump to the successor
    obtain ⟨t, hlead, -⟩ := h.covering.jmp_mem hb hj
    have hplace := h.covering.placing.place_eq_succ_iff hlast t
    have haddr : l.jumpAddress? g b = some (l.address t) := by
      simp only [jumpAddress?, hj, BlockGraph.target_eq_ok_iff.2 hlead]
      rw [if_neg (by rw [hplace]; exact Option.some_ne_none _ ∘ Eq.symm)]
    refine ⟨⟨l.address b + g.codeSize b, .jmp, some (UInt32.ofNat (l.address t))⟩, ?_, .inr rfl⟩
    rw [blockInstructions, haddr, Option.toList_some, List.map_singleton, List.getLast?_concat]

end Layout.Assembles

end Starlark
