import Starlark.Proofs.Flow.Coverage
import Starlark.Proofs.Flow.Encoding

/-!
# The bytes of a layout

The code of a layout is a chunk of bytes for each placed block, in order
(`toList_code_of_assemble`). No chunk is shorter than was planned for its block. So where the number
of all bytes is the planned one, each chunk, and each instruction in it, has its planned length, and
the address of a block is the number of bytes before its chunk (`Layout.Assembles`).
-/

set_option autoImplicit false

namespace Starlark

open BlockGraph (Leads)

namespace Emit

/-- The address that the conditional jump of a block goes to. -/
def branchAddress (g : BlockGraph) (l : Layout) (b : BlockId) : Option Nat :=
  (g.block b).cjmp.bind fun c => (g.target c).toOption.map l.address

/-- The code of a block with the address of its conditional jump. -/
def resolved (g : BlockGraph) (l : Layout) (b : BlockId) : List Insn :=
  (g.block b).insns.toList.map (resolve (branchAddress g l b))

/-- The bytes of the jump behind the code of a block, if there is one. -/
def jumpBytes (g : BlockGraph) (l : Layout) (b : BlockId) : List UInt8 :=
  match (g.block b).jmp with
  | none => []
  | some c =>
    match g.target c with
    | .error _ => []
    | .ok t =>
      if l.place.getD t none = (l.place.getD b none).map (· + 1) then []
      else Opcode.jmp.toByte :: operand (UInt32.ofNat (l.address t)) 4

/-- The bytes of a block. -/
def chunk (g : BlockGraph) (l : Layout) (b : BlockId) : List UInt8 :=
  (resolved g l b).flatMap insnBytes ++ jumpBytes g l b

@[simp] theorem op_resolve (target : Option Nat) (i : Insn) : (resolve target i).op = i.op := by
  unfold resolve
  split
  · split <;> rfl
  · rfl

theorem resolve_of_not_isCondJump {target : Option Nat} {i : Insn}
    (h : ¬ i.op.isCondJump = true) : resolve target i = i := by
  unfold resolve
  split
  · rw [if_neg h]
  · rfl

@[simp] theorem size_resolve (target : Option Nat) (i : Insn) :
    (resolve target i).size = i.size := by
  by_cases h : i.op.isCondJump = true
  · simp [Insn.size, h]
  · rw [resolve_of_not_isCondJump h]

variable {g : BlockGraph} {l : Layout}

theorem toList_code_insns (is : List Insn) (o : Output) :
    (is.foldl insn o).code.toList = o.code.toList ++ is.flatMap insnBytes := by
  induction is generalizing o with
  | nil => simp
  | cons i is ih =>
    rw [List.foldl_cons, ih, List.flatMap_cons, ← List.append_assoc]
    simp [insn]

/-- What is written behind the code of a block. -/
def ending (g : BlockGraph) (l : Layout) (b : BlockId) (o : Output) : Except CompileError Output :=
  match (g.block b).jmp with
  | none => .ok o
  | some c => do
    let t ← g.target c
    if l.place.getD t none = (l.place.getD b none).map (· + 1) then .ok o
    else .ok (jump o (l.address t))

theorem block_eq_ok {o o' : Output} {b : BlockId} (h : block g l o b = .ok o') :
    ending g l b ((resolved g l b).foldl insn o) = .ok o' := by
  rw [resolved, branchAddress]
  cases hc : (g.block b).cjmp with
  | none =>
    simp only [block, hc] at h
    exact h
  | some c =>
    cases ht : g.target c with
    | error e =>
      simp only [block, hc, ht] at h
      cases h
    | ok t =>
      simp only [block, hc, ht] at h
      rw [Option.bind_some, ht]
      exact h

theorem ending_eq_ok {o o' : Output} {b : BlockId} (h : ending g l b o = .ok o') :
    o'.code.toList = o.code.toList ++ jumpBytes g l b := by
  rw [jumpBytes]
  -- a block that ends in a jump needs none where its successor is placed next
  cases hj : (g.block b).jmp with
  | none =>
    simp only [ending, hj] at h
    cases h
    simp
  | some c =>
    simp only [ending, hj, bind, Except.bind] at h
    cases ht : g.target c with
    | error e => rw [ht] at h; cases h
    | ok t =>
      simp only [ht] at h ⊢
      split at h
      · rename_i hp
        cases h
        rw [if_pos hp, List.append_nil]
      · rename_i hp
        cases h
        rw [if_neg hp]
        simp [jump]

/-- A block adds its chunk. -/
theorem toList_code_block {o o' : Output} {b : BlockId} (h : block g l o b = .ok o') :
    o'.code.toList = o.code.toList ++ chunk g l b := by
  rw [ending_eq_ok (block_eq_ok h), toList_code_insns, chunk, List.append_assoc]

theorem blocks_cons_eq_ok {b : BlockId} {bs : List BlockId} {o o' : Output}
    (h : (b :: bs).foldlM (block g l) o = .ok o') :
    ∃ o1, block g l o b = .ok o1 ∧ bs.foldlM (block g l) o1 = .ok o' := by
  simp only [List.foldlM_cons, bind, Except.bind] at h
  split at h
  · cases h
  · rename_i o1 hb
    exact ⟨o1, hb, h⟩

theorem toList_code_blocks {bs : List BlockId} {o o' : Output}
    (h : bs.foldlM (block g l) o = .ok o') :
    o'.code.toList = o.code.toList ++ bs.flatMap (chunk g l) := by
  induction bs generalizing o with
  | nil =>
    cases h
    simp
  | cons b bs ih =>
    obtain ⟨o1, hb, hbs⟩ := blocks_cons_eq_ok h
    rw [ih hbs, toList_code_block hb, List.flatMap_cons, List.append_assoc]

end Emit

open Emit

/-- What is assembled is what the blocks write, one after another. -/
theorem Layout.blocks_of_assemble {g : BlockGraph} {l : Layout} {start : Position} {a : Assembled}
    (h : l.assemble g start = .ok a) :
    ∃ o, l.order.toList.foldlM (block g l) {} = .ok o ∧ o.code.size = l.size % 2 ^ 32 ∧
      a = ⟨o.code, LineTable.encode start o.rows.toList, UInt32.ofNat l.maxStack.toNat⟩ := by
  simp only [Layout.assemble, bind, Except.bind] at h
  split at h
  · cases h
  rename_i o ho
  split at h
  · rename_i hsize
    cases h
    exact ⟨o, ho, hsize, rfl⟩
  · cases h

theorem Layout.assemble_eq_ok {g : BlockGraph} {l : Layout} {start : Position} {a : Assembled}
    (h : l.assemble g start = .ok a) :
    a.code.toList = l.order.toList.flatMap (chunk g l) ∧ a.code.size = l.size % 2 ^ 32 ∧
      a.maxStack = UInt32.ofNat l.maxStack.toNat := by
  obtain ⟨o, ho, hsize, rfl⟩ := blocks_of_assemble h
  refine ⟨?_, hsize, rfl⟩
  simpa using toList_code_blocks ho

/-! ## Lengths -/

section Lengths

variable {g : BlockGraph} {entry : BlockId} {l : Layout}

theorem sizes_le_length_insnBytes (is : List Insn) :
    Insn.sizes is ≤ (is.flatMap insnBytes).length := by
  induction is with
  | nil => simp
  | cons i is ih =>
    have := size_le_length_insnBytes i
    rw [Insn.sizes_cons, List.flatMap_cons, List.length_append]
    omega

theorem sizes_map_resolve (addr : Option Nat) (is : List Insn) :
    Insn.sizes (is.map (resolve addr)) = Insn.sizes is := by
  induction is with
  | nil => rfl
  | cons i is ih => rw [List.map_cons, Insn.sizes_cons, Insn.sizes_cons, size_resolve, ih]

theorem sizes_resolved (b : BlockId) : Insn.sizes (resolved g l b) = g.codeSize b :=
  sizes_map_resolve _ _

/-- A block is followed by another if that has the next place. -/
theorem Layout.Placing.place_eq_succ_iff {work : List LayoutStep} (h : Placing g l work)
    {pre post : List BlockId} {b : BlockId} (hb : l.order.toList = pre ++ b :: post)
    (t : BlockId) :
    l.place.getD t none = (l.place.getD b none).map (· + 1) ↔ post.head? = some t := by
  have hplace : l.place.getD b none = some pre.length := by
    rw [h.place_eq, hb]
    simp
  rw [hplace, Option.map_some, h.place_eq, hb, List.getElem?_append_right (Nat.le_succ _)]
  simp [List.head?_eq_getElem?]

theorem jumpSize_le_length_jumpBytes (h : Layout.Covering g entry l [])
    {pre post : List BlockId} {b : BlockId} (hb : l.order.toList = pre ++ b :: post) :
    g.jumpSize b post.head? ≤ (jumpBytes g l b).length := by
  rw [BlockGraph.jumpSize, jumpBytes]
  cases hj : (g.block b).jmp with
  | none => exact Nat.zero_le _
  | some c =>
    have hmem : b ∈ l.order.toList := by simp [hb]
    obtain ⟨t, hlead, -⟩ := h.jmp_mem hmem hj
    have ht := BlockGraph.target_eq_ok_iff.2 hlead
    simp only [ht, Except.toOption, h.placing.place_eq_succ_iff hb, eq_comm (a := some t)]
    split
    · exact Nat.zero_le _
    · simp only [operand, List.length_cons, List.length_append, List.length_replicate]
      omega

theorem length_chunk_ge (h : Layout.Covering g entry l []) {pre post : List BlockId}
    {b : BlockId} (hb : l.order.toList = pre ++ b :: post) :
    g.codeSize b + g.jumpSize b post.head? ≤ (chunk g l b).length := by
  have hcode := sizes_le_length_insnBytes (resolved g l b)
  have hjump := jumpSize_le_length_jumpBytes h hb
  rw [sizes_resolved] at hcode
  rw [chunk, List.length_append]
  omega

theorem planned_le_length_chunks (h : Layout.Covering g entry l []) {pre bs post : List BlockId}
    (hb : l.order.toList = pre ++ bs ++ post) :
    g.planned bs post.head? ≤ (bs.flatMap (chunk g l)).length := by
  induction bs generalizing pre with
  | nil => exact Nat.zero_le _
  | cons b bs ih =>
    have hsplit : l.order.toList = pre ++ b :: (bs ++ post) := by simpa using hb
    have hsplit' : l.order.toList = (pre ++ [b]) ++ bs ++ post := by simpa using hb
    have hfirst := length_chunk_ge h hsplit
    have hrest := ih hsplit'
    rw [List.flatMap_cons, List.length_append]
    cases bs with
    | nil =>
      simp only [BlockGraph.planned, List.nil_append] at hfirst ⊢
      omega
    | cons c bs =>
      simp only [List.cons_append, List.head?_cons] at hfirst
      simp only [BlockGraph.planned]
      omega

end Lengths

/-- What is known of the code of a layout. -/
structure Layout.Assembles (g : BlockGraph) (entry : BlockId) (l : Layout)
    (code : Array UInt8) : Prop where
  covering : Covering g entry l []
  bytes : code.toList = l.order.toList.flatMap (chunk g l)
  size_lt : code.size < 2 ^ 32
  /-- The address of a block is the number of bytes before it. -/
  address_eq : ∀ pre b post, l.order.toList = pre ++ b :: post →
    l.address b = (pre.flatMap (chunk g l)).length
  length_chunk : ∀ pre b post, l.order.toList = pre ++ b :: post →
    (chunk g l b).length = g.codeSize b + g.jumpSize b post.head?

/-- The check of the code length suffices for every address to be right. -/
theorem BlockGraph.assembles {g : BlockGraph} {entry : BlockId} {l : Layout} {start : Position}
    {a : Assembled} (hentry : entry < g.size) (hlayout : g.layout entry = .ok l)
    (hcode : l.assemble g start = .ok a) : l.Assembles g entry a.code := by
  have hcover := g.covering_of_layout hentry hlayout
  obtain ⟨hbytes, hsize, -⟩ := Layout.assemble_eq_ok hcode
  have hlen : (l.order.toList.flatMap (chunk g l)).length = l.size % 2 ^ 32 := by
    rw [← hbytes, Array.length_toList, hsize]
  have hplanned : l.size = g.planned l.order.toList none := hcover.placing.size_eq
  have hmod : l.size % 2 ^ 32 ≤ l.size := Nat.mod_le _ _
  -- no block and nothing before it is shorter than planned, and the whole is as long as planned
  have hparts : ∀ pre b post, l.order.toList = pre ++ b :: post →
      g.planned pre (some b) = (pre.flatMap (chunk g l)).length ∧
      g.codeSize b + g.jumpSize b post.head? = (chunk g l b).length := by
    intro pre b post hb
    have hfront : l.order.toList = [] ++ pre ++ b :: post := hb
    have hback : l.order.toList = (pre ++ [b]) ++ post ++ [] := by simpa using hb
    have h1 := planned_le_length_chunks hcover hfront
    have h2 := length_chunk_ge hcover hb
    have h3 := planned_le_length_chunks hcover hback
    have hsplit : g.planned (b :: post) none =
        g.codeSize b + g.jumpSize b post.head? + g.planned post none := by
      cases post with
      | nil => simp [BlockGraph.planned]
      | cons c post => simp [BlockGraph.planned]
    rw [hb, BlockGraph.planned_append_cons, hsplit] at hplanned
    rw [hb, List.flatMap_append, List.flatMap_cons, List.length_append,
      List.length_append] at hlen
    simp only [List.head?_cons, List.head?_nil] at h1 h3
    omega
  refine ⟨hcover, hbytes, ?_, ?_, ?_⟩
  · rw [hsize]
    exact Nat.mod_lt _ (by decide)
  · intro pre b post hb
    rw [hcover.placing.address_eq pre b post hb, (hparts pre b post hb).1]
  · intro pre b post hb
    exact (hparts pre b post hb).2.symm

end Starlark
