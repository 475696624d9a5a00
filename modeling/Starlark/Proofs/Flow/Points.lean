import Starlark.Proofs.Flow.Emission

/-!
# Points of a block graph and addresses

Every instruction of a placed block stands at an address in the code (`Layout.pointAddress`), where
it is read back with its operand, or with the address of its target if it is a conditional jump
(`fetch_point`). From behind an instruction, and from the end of a block, control slides over `nop`s
and jumps to the address of the point where the graph goes on (`slides_end`).
-/

set_option autoImplicit false

namespace Starlark

open BlockGraph (Leads)
open Emit

/-- From one address, nothing but `nop`s and jumps lie on the way to the other. -/
inductive Slides (code : Array UInt8) : Nat → Nat → Prop where
  | refl (pc : Nat) : Slides code pc pc
  | nop {pc next q : Nat} :
      fetch code pc = .ok ⟨.nop, none, next⟩ → Slides code next q → Slides code pc q
  | jmp {pc next q : Nat} {arg : UInt32} :
      fetch code pc = .ok ⟨.jmp, some arg, next⟩ → Slides code arg.toNat q → Slides code pc q

theorem slides_filling {code : Array UInt8} {pc k : Nat}
    (h : CodeAt code pc (List.replicate k Opcode.nop.toByte)) : Slides code pc (pc + k) := by
  induction k generalizing pc with
  | zero => exact .refl _
  | succ k ih =>
    have hrest : CodeAt code (pc + 1) (List.replicate k Opcode.nop.toByte) := by
      rw [List.replicate_succ] at h
      exact h.2
    have hslides := ih hrest
    rw [show pc + 1 + k = pc + (k + 1) by omega] at hslides
    exact .nop (fetch_filling h) hslides

/-- The address of the point behind the first instructions of a block. -/
def Layout.pointAddress (l : Layout) (b : BlockId) (done : List Insn) : Nat :=
  l.address b + Insn.sizes done

@[simp] theorem Layout.pointAddress_nil (l : Layout) (b : BlockId) :
    l.pointAddress b [] = l.address b := rfl

theorem Layout.pointAddress_append (l : Layout) (b : BlockId) (done more : List Insn) :
    l.pointAddress b (done ++ more) = l.pointAddress b done + Insn.sizes more := by
  rw [pointAddress, pointAddress, Insn.sizes_append, Nat.add_assoc]

namespace Layout.Assembles

variable {g : BlockGraph} {entry : BlockId} {l : Layout} {code : Array UInt8} {b : BlockId}

/-- The chunk of a placed block stands at its address, before the chunk of the next block. -/
theorem codeAt_chunk (h : l.Assembles g entry code) (hb : b ∈ l.order.toList) :
    CodeAt code (l.address b) (chunk g l b) := by
  obtain ⟨pre, post, hsplit⟩ := List.append_of_mem hb
  rw [h.address_eq pre b post hsplit]
  have hcode : code.toList =
      pre.flatMap (chunk g l) ++ chunk g l b ++ post.flatMap (chunk g l) := by
    rw [h.bytes, hsplit]
    simp
  exact CodeAt.of_toList_eq hcode

theorem address_lt (h : l.Assembles g entry code) (hb : b ∈ l.order.toList) :
    l.address b < 2 ^ 32 := by
  obtain ⟨pre, post, hsplit⟩ := List.append_of_mem hb
  have hsize := h.size_lt
  have hlen := congrArg List.length h.bytes
  rw [hsplit, Array.length_toList, List.flatMap_append, List.length_append] at hlen
  rw [h.address_eq pre b post hsplit]
  omega

theorem toNat_address (h : l.Assembles g entry code) (hb : b ∈ l.order.toList) :
    (UInt32.ofNat (l.address b)).toNat = l.address b := by
  rw [UInt32.toNat_ofNat']
  exact Nat.mod_eq_of_lt (h.address_lt hb)

/-- Code and jump of a block have their planned lengths. -/
theorem length_parts (h : l.Assembles g entry code) {pre post : List BlockId}
    (hb : l.order.toList = pre ++ b :: post) :
    ((resolved g l b).flatMap insnBytes).length = g.codeSize b ∧
      (jumpBytes g l b).length = g.jumpSize b post.head? := by
  have hlen := h.length_chunk pre b post hb
  have hcode := sizes_le_length_insnBytes (resolved g l b)
  have hjump := jumpSize_le_length_jumpBytes h.covering hb
  rw [sizes_resolved] at hcode
  rw [chunk, List.length_append] at hlen
  omega

/-- The bytes of an instruction stand at its address and have the planned length. -/
theorem codeAt_insn (h : l.Assembles g entry code) (hb : b ∈ l.order.toList) {i : Insn}
    {done rest : List Insn} (hi : (g.block b).insns.toList = done ++ i :: rest) :
    CodeAt code (l.pointAddress b done) (insnBytes (resolve (branchAddress g l b) i)) ∧
      (insnBytes (resolve (branchAddress g l b) i)).length = i.size := by
  obtain ⟨pre, post, hsplit⟩ := List.append_of_mem hb
  have hlen := (h.length_parts hsplit).1
  have hat := h.codeAt_chunk hb
  rw [chunk, resolved, hi, List.map_append, List.map_cons, List.flatMap_append,
    List.flatMap_cons] at hat
  rw [resolved, BlockGraph.codeSize, hi, List.map_append, List.map_cons, List.flatMap_append,
    List.flatMap_cons, Insn.sizes_append, Insn.sizes_cons, List.length_append,
    List.length_append] at hlen
  -- no instruction takes more than was planned; as the sizes add up, none takes less
  have hsizes : ∀ is : List Insn,
      Insn.sizes is ≤ ((is.map (resolve (branchAddress g l b))).flatMap insnBytes).length := by
    intro is
    have hle := sizes_le_length_insnBytes (is.map (resolve (branchAddress g l b)))
    rwa [sizes_map_resolve] at hle
  have hdone := hsizes done
  have hrest := hsizes rest
  have hone := size_le_length_insnBytes (resolve (branchAddress g l b) i)
  rw [size_resolve] at hone
  rw [CodeAt.append_iff, CodeAt.append_iff, CodeAt.append_iff] at hat
  have hstart : l.pointAddress b done =
      l.address b + ((done.map (resolve (branchAddress g l b))).flatMap insnBytes).length := by
    rw [pointAddress]
    omega
  refine ⟨?_, by omega⟩
  rw [hstart]
  exact hat.1.2.1

/-- The instruction at a point is read back; behind it control slides to the next point. -/
theorem fetch_point (h : l.Assembles g entry code) (hb : b ∈ l.order.toList) {i : Insn}
    {done rest : List Insn} (hi : (g.block b).insns.toList = done ++ i :: rest) :
    ∃ next, fetch code (l.pointAddress b done) =
        .ok ⟨i.op, operand? (resolve (branchAddress g l b) i), next⟩ ∧
      Slides code next (l.pointAddress b (done ++ [i])) ∧
      (i.op.isCondJump = false → next = l.pointAddress b (done ++ [i])) := by
  obtain ⟨hat, hlen⟩ := h.codeAt_insn hb hi
  have hfetch := fetch_insnBytes hat
  have hslides := slides_filling (codeAt_filling hat)
  have hnext : l.pointAddress b (done ++ [i]) = l.pointAddress b done + i.size := by
    rw [pointAddress_append]
    simp
  -- a jump with a short address is followed by padding, over which the machine slides
  have hfill : filling (resolve (branchAddress g l b) i) ≤ i.size := by
    rw [filling, op_resolve]
    split
    · rename_i hc
      rw [Insn.size, if_pos hc]
      omega
    · exact Nat.zero_le _
  rw [op_resolve] at hfetch
  refine ⟨_, hfetch, ?_, ?_⟩
  · rw [hlen] at hslides ⊢
    rwa [Nat.add_assoc, Nat.sub_add_cancel hfill, ← hnext] at hslides
  · intro hc
    rw [hlen, hnext, filling, op_resolve, hc]
    simp

/-- The operand of a conditional jump is the address of the block that its target leads to. -/
theorem operand_of_cjmp (h : l.Assembles g entry code) {i : Insn} {c t : BlockId}
    (hop : i.op.isCondJump = true) (hc : (g.block b).cjmp = some c) (hlead : Leads g c t)
    (ht : t ∈ l.order.toList) :
    ∃ arg : UInt32, operand? (resolve (branchAddress g l b) i) = some arg ∧
      arg.toNat = l.address t := by
  have htarget := BlockGraph.target_eq_ok_iff.2 hlead
  have hbranch : branchAddress g l b = some (l.address t) := by
    simp [branchAddress, hc, htarget, Except.toOption]
  refine ⟨UInt32.ofNat (l.address t), ?_, h.toNat_address ht⟩
  rw [operand?, op_resolve, if_pos (Opcode.hasArg_of_isCondJump hop), hbranch]
  simp [resolve, hop]

/-- Control slides from the end of a block to the block that its successor leads to. -/
theorem slides_end (h : l.Assembles g entry code) (hb : b ∈ l.order.toList) {c t : BlockId}
    (hc : (g.block b).jmp = some c) (hlead : Leads g c t) (ht : t ∈ l.order.toList) :
    Slides code (l.pointAddress b (g.block b).insns.toList) (l.address t) := by
  obtain ⟨pre, post, hsplit⟩ := List.append_of_mem hb
  obtain ⟨hcode, -⟩ := h.length_parts hsplit
  have htarget := BlockGraph.target_eq_ok_iff.2 hlead
  have hplace := h.covering.placing.place_eq_succ_iff hsplit t
  have hend : l.pointAddress b (g.block b).insns.toList = l.address b + g.codeSize b := rfl
  by_cases hnext : post.head? = some t
  · -- the successor follows: its address is that of the end of the block
    obtain ⟨post', rfl⟩ : ∃ post', post = t :: post' := by
      cases post with
      | nil => cases hnext
      | cons u post' =>
        cases hnext
        exact ⟨post', rfl⟩
    have haddr := h.address_eq (pre ++ [b]) t post' (by simpa using hsplit)
    have hlen := h.length_chunk pre b (t :: post') hsplit
    rw [List.flatMap_append, List.length_append, List.flatMap_singleton, hlen,
      ← h.address_eq pre b _ hsplit] at haddr
    have hsize : g.jumpSize b (t :: post').head? = 0 := by
      simp [BlockGraph.jumpSize, hc, htarget, Except.toOption]
    rw [hend, haddr, hsize, Nat.add_zero]
    exact .refl _
  -- the successor lies elsewhere, and a jump to it ends the block
  · have hat := h.codeAt_chunk hb
    rw [chunk, CodeAt.append_iff, hcode] at hat
    have hjump : jumpBytes g l b =
        Opcode.jmp.toByte :: operand (UInt32.ofNat (l.address t)) 4 := by
      rw [← hplace] at hnext
      simp only [jumpBytes, hc, htarget]
      rw [if_neg hnext]
    rw [hjump] at hat
    have hfetch := fetch_operand (by rfl) hat.2
    refine .jmp (hend ▸ hfetch) ?_
    rw [h.toNat_address ht]
    exact .refl _

/-- The entry stands at the start of the code. -/
theorem address_entry (h : l.Assembles g entry code) : l.address entry = 0 := by
  rcases h.covering.entry_first with ⟨-, hw⟩ | hfirst
  · cases hw
  · obtain ⟨post, hpost⟩ : ∃ post, l.order.toList = [] ++ entry :: post := by
      cases ho : l.order.toList with
      | nil => rw [ho] at hfirst; cases hfirst
      | cons b post =>
        rw [ho] at hfirst
        cases hfirst
        exact ⟨post, rfl⟩
    simpa using h.address_eq [] entry post hpost

end Layout.Assembles

end Starlark
