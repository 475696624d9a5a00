import Starlark.Proofs.Lower.Plan
import Starlark.Proofs.Flow.Threading

/-!
# Plans in a graph

`Plan.At` says that a plan stands in a graph between two points: where each of its instructions is,
which blocks it has made (those from one number up to another), and how they are joined. Emitting a
plan puts it into the graph that is being built (`Plan.emit_realizes`), and what is emitted later
does not disturb it.

The argument goes backwards: from what a graph has in common with the blocks after an emission
follows what it has in common with the blocks before.
-/

set_option autoImplicit false

namespace Starlark

/-- A place in a graph: before an instruction of a block, or at the end of the block. -/
structure Point where
  block : Nat
  index : Nat
  deriving DecidableEq

/-- The point behind an instruction. -/
def Point.next (p : Point) : Point := ⟨p.block, p.index + 1⟩

namespace BlockGraph

/-- An instruction stands at a point. -/
def InsnAt (g : BlockGraph) (p : Point) (op : Opcode) (arg : UInt32) : Prop :=
  ∃ pos, (g.block p.block).insns[p.index]? = some ⟨op, arg, pos⟩

/-- A block ends at a point, and control goes on with another block. -/
structure EndsAt (g : BlockGraph) (p : Point) (c : BlockId) : Prop where
  size : (g.block p.block).insns.size = p.index
  jmp : (g.block p.block).jmp = some c
  cjmp : (g.block p.block).cjmp = none

/-- A block ends with a conditional jump at a point. -/
structure BranchAt (g : BlockGraph) (p : Point) (op : Opcode) (t f : BlockId) : Prop where
  insn : g.InsnAt p op 0
  size : (g.block p.block).insns.size = p.index + 1
  jmp : (g.block p.block).jmp = some f
  cjmp : (g.block p.block).cjmp = some t

/-- A block ends with a return at a point. -/
structure ReturnAt (g : BlockGraph) (p : Point) : Prop where
  insn : g.InsnAt p .ret 0
  size : (g.block p.block).insns.size = p.index + 1
  jmp : (g.block p.block).jmp = none
  cjmp : (g.block p.block).cjmp = none

end BlockGraph

/-- The tables of a program. -/
structure Pool where
  names : Array String
  constants : Array Constant
  functions : Array Code

/-- An entry of a table has an index, as far as 32 bits hold it. -/
def IndexOf {α : Type} (table : Array α) (x : α) (i : UInt32) : Prop :=
  ∃ k, table[k]? = some x ∧ i = UInt32.ofNat k

mutual

/-- A plan stands in a graph between two points; its blocks are those from `lo` up to `hi`. -/
def Plan.At (pool : Pool) (g : BlockGraph) (loops : List Loop) :
    Plan → (s : Point) → (lo : Nat) → (q : Point) → (hi : Nat) → Prop
  | .skip, s, lo, q, hi => q = s ∧ hi = lo
  | .pos _, s, lo, q, hi => q = s ∧ hi = lo
  | .load _, s, lo, q, hi => q = s ∧ hi = lo
  | .seq p r, s, lo, q, hi => ∃ m mid, p.At pool g loops s lo m mid ∧ r.At pool g loops m mid q hi
  | .op o, s, lo, q, hi => g.InsnAt s o 0 ∧ q = s.next ∧ hi = lo
  | .arg o n, s, lo, q, hi => g.InsnAt s o n ∧ q = s.next ∧ hi = lo
  | .const c, s, lo, q, hi =>
    ∃ i, IndexOf pool.constants c i ∧ g.InsnAt s .constant i ∧ q = s.next ∧ hi = lo
  | .name n k, s, lo, q, hi => ∃ i, IndexOf pool.names n i ∧ (k i).At pool g loops s lo q hi
  | .unpack n targets, s, lo, q, hi =>
    g.InsnAt s .unpack (UInt32.ofNat n) ∧ targets.At pool g loops s.next lo q hi
  | .either test p r, s, lo, q, hi =>
    ∃ m1 q1 m2 q2, test.At pool g loops s (lo + 3) lo (lo + 1) m1 ∧
      p.At pool g loops ⟨lo, 0⟩ m1 q1 m2 ∧ g.EndsAt q1 (lo + 2) ∧
      r.At pool g loops ⟨lo + 1, 0⟩ m2 q2 hi ∧ g.EndsAt q2 (lo + 2) ∧ q = ⟨lo + 2, 0⟩
  | .guard test p, s, lo, q, hi =>
    ∃ m1 q1, test.At pool g loops s (lo + 2) lo (lo + 1) m1 ∧
      p.At pool g loops ⟨lo, 0⟩ m1 q1 hi ∧ g.EndsAt q1 (lo + 1) ∧ q = ⟨lo + 1, 0⟩
  | .short stopIf p r, s, lo, q, hi =>
    ∃ m mid q1, p.At pool g loops s (lo + 2) m mid ∧ g.InsnAt m .dup 0 ∧
      g.BranchAt m.next .cjmp (if stopIf then lo else lo + 1) (if stopIf then lo + 1 else lo) ∧
      g.InsnAt ⟨lo + 1, 0⟩ .pop 0 ∧ r.At pool g loops ⟨lo + 1, 1⟩ mid q1 hi ∧
      g.EndsAt q1 lo ∧ q = ⟨lo, 0⟩
  | .each isLoop iterable _ vars body, s, lo, q, hi =>
    ∃ m1 h1 m2 h2 m3, iterable.At pool g loops s (lo + 3) m1 h1 ∧ g.InsnAt m1 .iterPush 0 ∧
      g.EndsAt m1.next lo ∧ g.BranchAt ⟨lo, 0⟩ .iterJmp (lo + 2) (lo + 1) ∧
      vars.At pool g loops ⟨lo + 1, 0⟩ h1 m2 h2 ∧
      body.At pool g (if isLoop then ⟨lo + 2, lo⟩ :: loops else loops) m2 h2 m3 hi ∧
      g.EndsAt m3 lo ∧ g.InsnAt ⟨lo + 2, 0⟩ .iterPop 0 ∧ q = ⟨lo + 2, 1⟩
  | .whileLoop test body, s, lo, q, hi =>
    ∃ m1 q1, g.EndsAt s lo ∧ test.At pool g loops ⟨lo, 0⟩ (lo + 3) (lo + 1) (lo + 2) m1 ∧
      body.At pool g (⟨lo + 2, lo⟩ :: loops) ⟨lo + 1, 0⟩ m1 q1 hi ∧ g.EndsAt q1 lo ∧
      q = ⟨lo + 2, 0⟩
  | .leave isBreak, s, lo, q, hi =>
    (∃ l rest, loops = l :: rest ∧ g.EndsAt s (if isBreak then l.breakTo else l.continueTo)) ∧
      q = ⟨lo, 0⟩ ∧ hi = lo + 1
  | .ret, s, lo, q, hi => g.ReturnAt s ∧ q = ⟨lo, 0⟩ ∧ hi = lo + 1
  | .func f body k, s, lo, q, hi =>
    ∃ i a, IndexOf pool.functions (f.compiled a) i ∧
      (∃ inner l e, body.At pool inner [] ⟨0, 0⟩ 1 e inner.size ∧ inner.InsnAt e .pushNone 0 ∧
        inner.ReturnAt e.next ∧ inner.layout 0 = .ok l ∧ l.assemble inner f.pos = .ok a) ∧
      (k i).At pool g loops s lo q hi
  | .fail _, _, _, _, _ => False

/-- A test stands in a graph from a point on; it goes to `t` if it is true and to `f` otherwise. -/
def Test.At (pool : Pool) (g : BlockGraph) (loops : List Loop) :
    Test → (s : Point) → (lo : Nat) → (t f : BlockId) → (hi : Nat) → Prop
  | .on p, s, lo, t, f, hi => ∃ m, p.At pool g loops s lo m hi ∧ g.BranchAt m .cjmp t f
  | .not test, s, lo, t, f, hi => test.At pool g loops s lo f t hi
  | .both p test, s, lo, t, f, hi =>
    ∃ m mid, p.At pool g loops s lo m mid ∧ g.BranchAt m .cjmp mid f ∧
      test.At pool g loops ⟨mid, 0⟩ (mid + 1) t f hi
  | .either p test, s, lo, t, f, hi =>
    ∃ m mid, p.At pool g loops s lo m mid ∧ g.BranchAt m .cjmp t mid ∧
      test.At pool g loops ⟨mid, 0⟩ (mid + 1) t f hi

end

/-- A function body stands in a graph of its own and is assembled. -/
def Plan.Assembled (pool : Pool) (body : Plan) (pos : Position) (a : Assembled) : Prop :=
  ∃ g l e, body.At pool g [] ⟨0, 0⟩ 1 e g.size ∧ g.InsnAt e .pushNone 0 ∧ g.ReturnAt e.next ∧
    g.layout 0 = .ok l ∧ l.assemble g pos = .ok a

/-! ## Blocks that are being built -/

namespace Builder

/-- The builder adds to an open block. -/
structure Cursor (b : Builder) (c : BlockId) : Prop where
  current : b.current = some c
  lt_size : c < b.blocks.size
  jmp : (b.blocks.block c).jmp = none
  cjmp : (b.blocks.block c).cjmp = none

/-- The point where the next instruction of a block goes. -/
def endOf (b : Builder) (c : BlockId) : Point := ⟨c, (b.blocks.block c).insns.size⟩

/-- A graph has the blocks that are built, but for some. -/
def Agrees (b : Builder) (others : BlockId → Prop) (g : BlockGraph) : Prop :=
  ∀ id < b.blocks.size, ¬ others id → g.block id = b.blocks.block id

/-- A graph has at least the instructions of a block that is built. -/
def Starts (b : Builder) (c : BlockId) (g : BlockGraph) : Prop :=
  (b.blocks.block c).insns.toList <+: (g.block c).insns.toList

/-- The tables have all entries made so far. -/
structure Covered (b : Builder) (pool : Pool) : Prop where
  names : b.names.toList <+: pool.names.toList
  constants : b.constants.toList <+: pool.constants.toList
  functions : b.functions.toList <+: pool.functions.toList

/-- Nothing but new blocks and one old block is changed, and tables only grow. -/
structure Grows (b : Builder) (c : BlockId) (b' : Builder) : Prop where
  size_le : b.blocks.size ≤ b'.blocks.size
  frame : ∀ id < b.blocks.size, id ≠ c → b'.blocks.block id = b.blocks.block id
  loops : b'.loops = b.loops
  covered : ∀ pool, b'.Covered pool → b.Covered pool

/-- From the cursor `c`, the builder has come to `b'`. It adds to the block `cur` now, and the
blocks `pend` are made but not used yet. Every graph that agrees with what is built satisfies `P`,
and it agrees with what was built before. -/
structure Stage (b : Builder) (c : BlockId) (b' : Builder) (cur : Option BlockId)
    (pend : List BlockId) (P : Pool → BlockGraph → Prop) : Prop where
  grows : b.Grows c b'
  current : b'.current = cur
  cursor : ∀ x, cur = some x → b'.Cursor x ∧ (x = c ∨ b.blocks.size ≤ x) ∧ x ∉ pend
  pending : ∀ t ∈ pend, b.blocks.size ≤ t ∧ t < b'.blocks.size ∧ b'.blocks.block t = {}
  nodup : pend.Nodup
  realized : ∀ (pool : Pool) (others : BlockId → Prop) (g : BlockGraph),
    (∀ id, others id → id < b.blocks.size ∧ id ≠ c) →
    b'.Covered pool → b'.Agrees (fun id => others id ∨ id ∈ pend ∨ cur = some id) g →
    (∀ x, cur = some x → b'.Starts x g) →
    P pool g ∧ b.Agrees (fun id => others id ∨ id = c) g ∧ b.Starts c g

end Builder

/-! ## Stages -/

namespace BlockGraph

variable {g : BlockGraph}

/-- A new block is as empty as it was before it was made. -/
@[simp] theorem block_push_empty (g : BlockGraph) (id : BlockId) :
    BlockGraph.block (Array.push g {}) id = g.block id := by
  simp only [block, Array.getD_eq_getD_getElem?, Array.getElem?_push]
  split
  · rename_i h
    simp [h]
  · rfl

/-- Changing one block leaves the others. -/
theorem block_modify {c : BlockId} (hc : c < g.size) (f : Block → Block) (id : BlockId) :
    BlockGraph.block (Array.modify g c f) id = if id = c then f (g.block c) else g.block id := by
  simp only [block, Array.getD_eq_getD_getElem?, Array.getElem?_modify]
  by_cases h : c = id
  · subst h
    simp [hc]
  · simp [h, Ne.symm h]

end BlockGraph

namespace Builder

variable {b b' b'' : Builder} {c : BlockId} {cur cur' : Option BlockId} {pend : List BlockId}
  {P Q : Pool → BlockGraph → Prop}

theorem Grows.refl (b : Builder) (c : BlockId) : b.Grows c b :=
  ⟨Nat.le_refl _, fun _ _ _ => rfl, rfl, fun _ h => h⟩

/-- A builder that goes on from where another one stopped has done what both did. -/
theorem Grows.trans {x : BlockId} (h : b.Grows c b') (h' : b'.Grows x b'')
    (hx : x = c ∨ b.blocks.size ≤ x) : b.Grows c b'' where
  size_le := Nat.le_trans h.size_le h'.size_le
  frame := by
    intro id hid hne
    have hidx : id ≠ x := by
      rcases hx with rfl | hx
      · exact hne
      · omega
    rw [h'.frame id (Nat.lt_of_lt_of_le hid h.size_le) hidx, h.frame id hid hne]
  loops := by rw [h'.loops, h.loops]
  covered := fun pool hc => h.covered pool (h'.covered pool hc)

namespace Stage

/-- Before anything is emitted. -/
theorem start (h : b.Cursor c) : Stage b c b (some c) [] fun _ _ => True where
  grows := .refl b c
  current := h.current
  cursor := by
    rintro x ⟨⟩
    exact ⟨h, .inl rfl, by simp⟩
  pending := by simp
  nodup := List.nodup_nil
  realized := by
    intro pool others g _ _ hagree hstart
    refine ⟨trivial, fun id hid hne => hagree id hid ?_, hstart c rfl⟩
    simpa [eq_comm] using hne

/-- What is known of the emitted code may be weakened. -/
theorem mono (h : Stage b c b' cur pend P) (hPQ : ∀ pool g, P pool g → Q pool g) :
    Stage b c b' cur pend Q where
  grows := h.grows
  current := h.current
  cursor := h.cursor
  pending := h.pending
  nodup := h.nodup
  realized := by
    intro pool others g he hcov hagree hstart
    obtain ⟨hP, hrest⟩ := h.realized pool others g he hcov hagree hstart
    exact ⟨hPQ pool g hP, hrest⟩

/-- A new block is pending. -/
theorem newBlock (h : Stage b c b' cur pend P) :
    Stage b c { b' with blocks := b'.blocks.push {} } cur (b'.blocks.size :: pend) P where
  grows :=
    { size_le := by
        rw [Array.size_push]
        exact Nat.le_succ_of_le h.grows.size_le
      frame := by
        intro id hid hne
        rw [BlockGraph.block_push_empty]
        exact h.grows.frame id hid hne
      loops := h.grows.loops
      covered := fun pool hc => h.grows.covered pool ⟨hc.names, hc.constants, hc.functions⟩ }
  current := h.current
  cursor := by
    intro x hx
    obtain ⟨hcur, hown, hpend⟩ := h.cursor x hx
    refine ⟨⟨hcur.current, ?_, ?_, ?_⟩, hown, ?_⟩
    · rw [Array.size_push]
      exact Nat.lt_succ_of_lt hcur.lt_size
    · rw [BlockGraph.block_push_empty]
      exact hcur.jmp
    · rw [BlockGraph.block_push_empty]
      exact hcur.cjmp
    · rw [List.mem_cons]
      rintro (rfl | hm)
      · exact Nat.lt_irrefl _ hcur.lt_size
      · exact hpend hm
  pending := by
    intro t ht
    rw [Array.size_push, BlockGraph.block_push_empty]
    rcases List.mem_cons.1 ht with rfl | ht
    · exact ⟨h.grows.size_le, Nat.lt_succ_self _, BlockGraph.block_of_size_le (Nat.le_refl _)⟩
    · obtain ⟨h1, h2, h3⟩ := h.pending t ht
      exact ⟨h1, Nat.lt_succ_of_lt h2, h3⟩
  nodup := by
    refine List.nodup_cons.2 ⟨fun hm => ?_, h.nodup⟩
    exact Nat.lt_irrefl _ (h.pending _ hm).2.1
  realized := by
    intro pool others g he hcov hagree hstart
    refine h.realized pool others g he ⟨hcov.names, hcov.constants, hcov.functions⟩ ?_ ?_
    · intro id hid hne
      have hid' : id < (b'.blocks.push {}).size := by
        rw [Array.size_push]
        exact Nat.lt_succ_of_lt hid
      rw [hagree id hid', BlockGraph.block_push_empty]
      -- a block that was there before is none of the new one
      rintro (h1 | h1 | h1)
      · exact hne (.inl h1)
      · rcases List.mem_cons.1 h1 with rfl | h1
        · exact Nat.lt_irrefl _ hid
        · exact hne (.inr (.inl h1))
      · exact hne (.inr (.inr h1))
    · intro x hx
      have := hstart x hx
      rwa [Starts, BlockGraph.block_push_empty] at this

/-- A pending block is continued with. -/
theorem setBlock {t : BlockId} (h : Stage b c b' cur (t :: pend) P) (hcur : cur = none) :
    Stage b c { b' with current := some t } (some t) pend P where
  grows := ⟨h.grows.size_le, h.grows.frame, h.grows.loops,
    fun pool hc => h.grows.covered pool ⟨hc.names, hc.constants, hc.functions⟩⟩
  current := rfl
  cursor := by
    rintro x ⟨⟩
    obtain ⟨h1, h2, h3⟩ := h.pending t List.mem_cons_self
    refine ⟨⟨rfl, h2, ?_, ?_⟩, .inr h1, (List.nodup_cons.1 h.nodup).1⟩
    · rw [h3]
    · rw [h3]
  pending := fun u hu => h.pending u (List.mem_cons_of_mem _ hu)
  nodup := (List.nodup_cons.1 h.nodup).2
  realized := by
    intro pool others g he hcov hagree _
    refine h.realized pool others g he ⟨hcov.names, hcov.constants, hcov.functions⟩ ?_ ?_
    · intro id hid hne
      refine hagree id hid ?_
      rintro (h1 | h1 | h1)
      · exact hne (.inl h1)
      -- the block begun was pending, so nothing else has agreed on it yet
      · exact hne (.inr (.inl (List.mem_cons_of_mem _ h1)))
      · cases h1
        exact hne (.inr (.inl List.mem_cons_self))
    · rintro x hx
      rw [hcur] at hx
      cases hx

theorem perm {pend' : List BlockId} (h : Stage b c b' cur pend P) (hp : pend.Perm pend') :
    Stage b c b' cur pend' P where
  grows := h.grows
  current := h.current
  cursor := fun x hx => ⟨(h.cursor x hx).1, (h.cursor x hx).2.1,
    fun hm => (h.cursor x hx).2.2 (hp.mem_iff.2 hm)⟩
  pending := fun t ht => h.pending t (hp.mem_iff.2 ht)
  nodup := hp.nodup_iff.1 h.nodup
  realized := by
    intro pool others g he hcov hagree hstart
    refine h.realized pool others g he hcov ?_ hstart
    simpa only [hp.mem_iff] using hagree

/-- What starts from the current block comes next. -/
theorem trans {x : BlockId} (h : Stage b c b' (some x) pend P)
    (h' : Stage b' x b'' cur' [] Q) :
    Stage b c b'' cur' pend fun pool g => P pool g ∧ Q pool g := by
  obtain ⟨hcur, hown, hpend⟩ := h.cursor x rfl
  exact {
    grows := h.grows.trans h'.grows hown
    current := h'.current
    cursor := by
      intro y hy
      obtain ⟨hcur', hown', -⟩ := h'.cursor y hy
      refine ⟨hcur', ?_, ?_⟩
      · rcases hown' with rfl | hown'
        · exact hown
        · exact .inr (Nat.le_trans h.grows.size_le hown')
      · intro hm
        obtain ⟨-, hlt, -⟩ := h.pending y hm
        rcases hown' with rfl | hown'
        · exact hpend hm
        · exact Nat.lt_irrefl _ (Nat.lt_of_lt_of_le hlt hown')
    pending := by
      intro t ht
      obtain ⟨h1, h2, h3⟩ := h.pending t ht
      have hne : t ≠ x := fun e => hpend (e ▸ ht)
      exact ⟨h1, Nat.lt_of_lt_of_le h2 h'.grows.size_le, by rw [h'.grows.frame t h2 hne, h3]⟩
    nodup := h.nodup
    realized := by
      intro pool others g he hcov hagree hstart
      -- the second stage goes first: to it the pending blocks of the first are others'
      obtain ⟨hQ, hagree', hstart'⟩ := h'.realized pool (fun id => others id ∨ id ∈ pend) g (by
        rintro id (hid | hid)
        · obtain ⟨hlt, hne⟩ := he id hid
          refine ⟨Nat.lt_of_lt_of_le hlt h.grows.size_le, ?_⟩
          rintro rfl
          rcases hown with rfl | hown
          · exact hne rfl
          · exact Nat.lt_irrefl _ (Nat.lt_of_lt_of_le hlt hown)
        · exact ⟨(h.pending id hid).2.1, fun e => hpend (e ▸ hid)⟩) hcov (by
        simpa [or_assoc] using hagree) hstart
      obtain ⟨hP, hrest⟩ := h.realized pool others g he (h'.grows.covered pool hcov) (by
        simpa [or_assoc, eq_comm] using hagree') (by
        rintro y ⟨⟩
        exact hstart')
      exact ⟨⟨hP, hQ⟩, hrest⟩ }

end Stage

/-- The end of an empty block is its start. -/
theorem endOf_of_empty {t : BlockId} (h : b.blocks.block t = {}) : b.endOf t = ⟨t, 0⟩ := by
  rw [endOf, h]
  rfl

/-- Only the tables grow. -/
theorem stage_of_tables (hc : b.Cursor c) (hblocks : b'.blocks = b.blocks)
    (hcurrent : b'.current = b.current) (hloops : b'.loops = b.loops)
    (hcov : ∀ pool, b'.Covered pool → b.Covered pool)
    (hP : ∀ pool g, b'.Covered pool → P pool g) : Stage b c b' (some c) [] P where
  grows := ⟨Nat.le_of_eq (by rw [hblocks]), fun id _ _ => by rw [hblocks], hloops, hcov⟩
  current := by rw [hcurrent, hc.current]
  cursor := by
    rintro x ⟨⟩
    exact ⟨⟨hcurrent.trans hc.current, by rw [hblocks]; exact hc.lt_size,
      by rw [hblocks]; exact hc.jmp, by rw [hblocks]; exact hc.cjmp⟩, .inl rfl, by simp⟩
  pending := by simp
  nodup := List.nodup_nil
  realized := by
    intro pool others g _ hcovered hagree hstart
    have hs := hstart c rfl
    rw [Starts, hblocks] at hs
    refine ⟨hP pool g hcovered, fun id hid hne => ?_, hs⟩
    rw [Agrees, hblocks] at hagree
    exact hagree id hid (by simpa [eq_comm] using hne)

/-- The current block becomes `k`, which has its instructions and perhaps more. -/
theorem stage_of_block (hc : b.Cursor c) (k : Block) {cur : Option BlockId}
    (hsize : b'.blocks.size = b.blocks.size)
    (hblock : ∀ id, b'.blocks.block id = if id = c then k else b.blocks.block id)
    (hcurrent : b'.current = cur) (hloops : b'.loops = b.loops)
    (hcov : ∀ pool, b'.Covered pool → b.Covered pool)
    (hinsns : (b.blocks.block c).insns.toList <+: k.insns.toList)
    (hcur : cur = none ∨ cur = some c ∧ k.jmp = none ∧ k.cjmp = none)
    (hP : ∀ pool g, (cur = none → g.block c = k) →
      k.insns.toList <+: (g.block c).insns.toList → P pool g) :
    Stage b c b' cur [] P where
  grows := by
    refine ⟨Nat.le_of_eq hsize.symm, fun id _ hne => ?_, hloops, hcov⟩
    rw [hblock, if_neg hne]
  current := hcurrent
  cursor := by
    rintro x rfl
    rcases hcur with hcur | ⟨hcur, hj, hcj⟩
    · cases hcur
    · cases hcur
      refine ⟨⟨hcurrent, by rw [hsize]; exact hc.lt_size, ?_, ?_⟩, .inl rfl, by simp⟩
      · rw [hblock, if_pos rfl, hj]
      · rw [hblock, if_pos rfl, hcj]
  pending := by simp
  nodup := List.nodup_nil
  realized := by
    intro pool others g he _ hagree hstart
    have hcblock : b'.blocks.block c = k := by rw [hblock, if_pos rfl]
    -- once the block is left, nothing is added to it any more
    have hnone : cur = none → g.block c = k := by
      rintro rfl
      rw [← hcblock]
      refine hagree c (by rw [hsize]; exact hc.lt_size) ?_
      rintro (h1 | h1 | h1)
      · exact (he c h1).2 rfl
      · cases h1
      · cases h1
    have hmore : k.insns.toList <+: (g.block c).insns.toList := by
      rcases hcur with hcur | ⟨hcur, -, -⟩
      · exact (hnone hcur).symm ▸ List.prefix_refl _
      · have hs := hstart c hcur
        rwa [Starts, hcblock] at hs
    refine ⟨hP pool g hnone hmore, fun id hid hne => ?_, hinsns.trans hmore⟩
    have hidc : id ≠ c := fun e => hne (.inr e)
    rw [hagree id (by rw [hsize]; exact hid), hblock, if_neg hidc]
    rintro (h1 | h1 | h1)
    · exact hne (.inl h1)
    · cases h1
    · rcases hcur with hcur | ⟨hcur, -, -⟩
      · rw [hcur] at h1
        cases h1
      · rw [hcur] at h1
        cases h1
        exact hidc rfl

end Builder

namespace Build

open Builder

variable {b b' : Builder} {c : BlockId}

/-- Two builders in sequence succeed if both do. -/
theorem bind_eq_ok {α β : Type} {x : Build α} {f : α → Build β} {v : β} :
    (x >>= f) b = .ok v b' ↔ ∃ a b1, x b = .ok a b1 ∧ f a b1 = .ok v b' := by
  change EStateM.bind x f b = _ ↔ _
  unfold EStateM.bind
  cases x b with
  | ok a b1 => simp
  | error e b1 => simp

/-- A new block is pending. -/
theorem stage_newBlock {b0 : Builder} {cur : Option BlockId} {pend : List BlockId}
    {P : Pool → BlockGraph → Prop} {t : BlockId} (hs : Stage b0 c b cur pend P)
    (h : newBlock b = .ok t b') :
    Stage b0 c b' cur (t :: pend) P ∧ t = b.blocks.size ∧ b'.blocks.size = b.blocks.size + 1 ∧
      (∀ x, b'.endOf x = b.endOf x) ∧ b'.loops = b.loops := by
  cases h
  exact ⟨hs.newBlock, rfl, by simp, fun x => by simp [endOf], rfl⟩

/-- A pending block is continued with; it is empty. -/
theorem stage_setBlock {b0 : Builder} {pend : List BlockId} {P : Pool → BlockGraph → Prop}
    {t : BlockId} (hs : Stage b0 c b none (t :: pend) P) (h : setBlock t b = .ok () b') :
    Stage b0 c b' (some t) pend P ∧ b'.blocks.size = b.blocks.size ∧ b'.endOf t = ⟨t, 0⟩ ∧
      b'.loops = b.loops := by
  cases h
  exact ⟨hs.setBlock rfl, rfl,
    endOf_of_empty (hs.pending t List.mem_cons_self).2.2, rfl⟩

theorem get_bind {α : Type} (k : Builder → Build α) (b : Builder) : (get >>= k) b = k b b := rfl

/-- Where there is a current block, it is found. -/
theorem current_eq (hcur : b.current = some c) : current b = .ok c b := by
  rw [current, get_bind, hcur]
  rfl

theorem current_eq_ok (h : current b = .ok c b') : b' = b ∧ b.current = some c := by
  rw [current, get_bind] at h
  cases hcur : b.current with
  | none =>
    rw [hcur] at h
    cases h
  | some id =>
    rw [hcur] at h
    cases h
    exact ⟨rfl, rfl⟩

/-- Inside a loop the innermost one is found. -/
theorem innermostLoop_eq_ok {l : Loop} (h : innermostLoop b = .ok l b') :
    b' = b ∧ ∃ rest, b.loops = l :: rest := by
  rw [innermostLoop, get_bind] at h
  cases hloops : b.loops with
  | nil =>
    rw [hloops] at h
    cases h
  | cons l' rest =>
    rw [hloops] at h
    cases h
    exact ⟨rfl, rest, rfl⟩

/-- The state after an instruction was added. -/
def pushed (b : Builder) (c : BlockId) (op : Opcode) (arg : UInt32) : Builder :=
  { b with
    blocks := b.blocks.modify c fun k => { k with insns := k.insns.push ⟨op, arg, b.pos⟩ }
    pos := .absent }

/-- An instruction goes to the end of the current block. -/
theorem push_eq (hc : b.Cursor c) (op : Opcode) (arg : UInt32) :
    push op arg b = .ok () (pushed b c op arg) := by
  simp only [push, bind, EStateM.bind, current_eq hc.current]
  rfl

/-- An instruction that was pushed stays where it is, whatever is pushed behind it. -/
theorem insnAt_of_start {k : Block} {i : Insn} {g : BlockGraph}
    (h : (k.insns.push i).toList <+: (g.block c).insns.toList) :
    g.InsnAt ⟨c, k.insns.size⟩ i.op i.arg := by
  refine ⟨i.pos, ?_⟩
  obtain ⟨rest, hrest⟩ := h
  rw [← Array.getElem?_toList, ← hrest]
  simp

/-- An instruction is added to the current block. -/
theorem stage_push (hc : b.Cursor c) (op : Opcode) (arg : UInt32) :
    Stage b c (pushed b c op arg) (some c) [] (fun _ g => g.InsnAt (b.endOf c) op arg) ∧
      (pushed b c op arg).endOf c = (b.endOf c).next := by
  constructor
  · refine stage_of_block hc _ (by simp [pushed])
      (fun id => BlockGraph.block_modify hc.lt_size _ id) hc.current rfl
      (fun pool h => ⟨h.names, h.constants, h.functions⟩) ?_ (.inr ⟨rfl, hc.jmp, hc.cjmp⟩) ?_
    · simp
    · intro pool g _ hmore
      exact insnAt_of_start hmore
  · simp only [endOf, pushed, Point.next, BlockGraph.block_modify hc.lt_size, ↓reduceIte,
      Array.size_push]

/-- An instruction without operand is emitted at the end of the current block. -/
theorem stage_emit (hc : b.Cursor c) {op : Opcode} (h : emit op b = .ok () b') :
    Stage b c b' (some c) [] (fun _ g => g.InsnAt (b.endOf c) op 0) ∧
      b'.endOf c = (b.endOf c).next ∧ b'.blocks.size = b.blocks.size := by
  unfold emit at h
  split at h
  · cases h
  · rw [push_eq hc] at h
    cases h
    exact ⟨(stage_push hc op 0).1, (stage_push hc op 0).2, by simp [pushed]⟩

/-- An instruction with operand is emitted at the end of the current block. -/
theorem stage_emitArg (hc : b.Cursor c) {op : Opcode} {arg : UInt32}
    (h : emitArg op arg b = .ok () b') :
    Stage b c b' (some c) [] (fun _ g => g.InsnAt (b.endOf c) op arg) ∧
      b'.endOf c = (b.endOf c).next ∧ b'.blocks.size = b.blocks.size := by
  unfold emitArg at h
  split at h
  · rw [push_eq hc] at h
    cases h
    exact ⟨(stage_push hc op arg).1, (stage_push hc op arg).2, by simp [pushed]⟩
  · cases h

/-- A jump closes the current block, and does not lead to that block. -/
theorem jump_eq_ok {id : BlockId} (hcur : b.current = some c) (h : jump id b = .ok () b') :
    c ≠ id ∧ b' = { b with
      blocks := b.blocks.modify c fun k => { k with jmp := some id }
      current := none } := by
  simp only [jump, bind_eq_ok, current_eq hcur] at h
  obtain ⟨c', b1, hok, h⟩ := h
  cases hok
  by_cases hid : c = id
  · rw [if_pos hid] at h
    cases h
  · rw [if_neg hid] at h
    cases h
    exact ⟨hid, rfl⟩

/-- The current block ends. -/
theorem stage_jump (hc : b.Cursor c) {id : BlockId} (h : jump id b = .ok () b') :
    Stage b c b' none [] (fun _ g => g.EndsAt (b.endOf c) id) ∧
      b'.blocks.size = b.blocks.size := by
  obtain ⟨-, rfl⟩ := jump_eq_ok hc.current h
  refine ⟨stage_of_block hc _ (by simp) (fun id => BlockGraph.block_modify hc.lt_size _ id) rfl rfl
    (fun pool h => ⟨h.names, h.constants, h.functions⟩) (by simp) (.inl rfl) ?_, by simp⟩
  intro pool g hsame _
  have hblock := hsame rfl
  exact ⟨by rw [endOf, hblock], by rw [endOf, hblock], by rw [endOf, hblock]; exact hc.cjmp⟩

/-- The current block ends with a conditional jump. -/
theorem stage_condJump (hc : b.Cursor c) {op : Opcode} {t f : BlockId}
    (h : condJump op t f b = .ok () b') :
    Stage b c b' none [] (fun _ g => g.BranchAt (b.endOf c) op t f) ∧
      b'.blocks.size = b.blocks.size := by
  simp only [condJump, bind_eq_ok] at h
  obtain ⟨_, b1, hemit, cur, b2, hcur, _, b3, hmod, hjump⟩ := h
  -- the instruction and the block's two ends are written separately, and are one change of the
  -- block
  have hb1 : b1 = pushed b c op 0 := by
    unfold emitArg at hemit
    split at hemit
    · rw [push_eq hc] at hemit
      cases hemit
      rfl
    · cases hemit
  subst hb1
  rw [current_eq ((stage_push hc op 0).1.cursor c rfl).1.current] at hcur
  cases hcur
  cases hmod
  obtain ⟨-, rfl⟩ := jump_eq_ok (c := c) (by exact hc.current) hjump
  have hlt : c < (pushed b c op 0).blocks.size := by simpa [pushed] using hc.lt_size
  let k : Block :=
    ⟨(b.blocks.block c).insns.push ⟨op, 0, b.pos⟩, some f, some t⟩
  refine ⟨stage_of_block hc k (by simp [pushed]) ?_ rfl rfl
    (fun pool h => ⟨h.names, h.constants, h.functions⟩) (by simp [k]) (.inl rfl) ?_,
    by simp [pushed]⟩
  · intro id
    rw [BlockGraph.block_modify (by simpa using hlt), BlockGraph.block_modify hlt,
      BlockGraph.block_modify hlt]
    by_cases hid : id = c
    · simp only [hid, ↓reduceIte, pushed, BlockGraph.block_modify hc.lt_size]
      rfl
    · simp only [hid, ↓reduceIte, pushed, BlockGraph.block_modify hc.lt_size]
  · intro pool g hsame hmore
    have hblock := hsame rfl
    exact ⟨insnAt_of_start hmore, by rw [endOf, hblock]; simp [k], by rw [endOf, hblock],
      by rw [endOf, hblock]⟩

/-- The current block ends with a return; control does not go on. -/
theorem stage_ret (hc : b.Cursor c) (h : emit .ret b = .ok () b') :
    Stage b c { b' with current := none } none [] (fun _ g => g.ReturnAt (b.endOf c)) ∧
      b'.blocks.size = b.blocks.size := by
  rw [emit, if_neg (by decide), push_eq hc] at h
  cases h
  refine ⟨stage_of_block hc _ (by simp [pushed])
    (fun id => BlockGraph.block_modify hc.lt_size _ id) rfl rfl
    (fun pool h => ⟨h.names, h.constants, h.functions⟩) (by simp) (.inl rfl) ?_, by simp [pushed]⟩
  intro pool g hsame hmore
  have hblock := hsame rfl
  exact ⟨insnAt_of_start hmore, by rw [endOf, hblock]; simp,
    by rw [endOf, hblock]; exact hc.jmp, by rw [endOf, hblock]; exact hc.cjmp⟩

/-! ## Tables -/

/-- An entry that is interned is in the table, and the table goes on from the one before. -/
theorem intern_spec {α : Type} [BEq α] [LawfulBEq α] (table : Array α) (x : α) :
    (intern table x).2[(intern table x).1]? = some x ∧
      table.toList <+: (intern table x).2.toList := by
  unfold intern
  split
  · rename_i i hi
    rw [Array.idxOf?_eq_map_finIdxOf?_val, Option.map_eq_some_iff] at hi
    obtain ⟨j, hj, rfl⟩ := hi
    have hx := (Array.finIdxOf?_eq_some_iff.1 hj).1
    exact ⟨by rw [Array.getElem?_eq_getElem j.2]; exact congrArg some hx, List.prefix_refl _⟩
  · simp

/-- An entry stays where it is when the table goes on. -/
theorem indexOf_of_start {α : Type} {table table' : Array α} {k : Nat} {x : α}
    (h : table[k]? = some x) (hp : table.toList <+: table'.toList) :
    IndexOf table' x (UInt32.ofNat k) := by
  refine ⟨k, ?_, rfl⟩
  obtain ⟨rest, hrest⟩ := hp
  have hk : k < table.toList.length := by
    rw [Array.length_toList]
    exact (Array.getElem?_eq_some_iff.1 h).1
  rw [← Array.getElem?_toList, ← hrest, List.getElem?_append_left hk, Array.getElem?_toList, h]

/-- A name that is referred to is in the table of names. -/
theorem stage_nameIndex (hc : b.Cursor c) {n : String} {i : UInt32}
    (h : nameIndex n b = .ok i b') :
    Stage b c b' (some c) [] (fun pool _ => IndexOf pool.names n i) ∧ b'.blocks = b.blocks := by
  cases h
  obtain ⟨hentry, hstart⟩ := intern_spec b.names n
  refine ⟨stage_of_tables hc rfl rfl rfl ?_ ?_, rfl⟩
  · exact fun pool hcov => ⟨hstart.trans hcov.names, hcov.constants, hcov.functions⟩
  · exact fun pool _ hcov => indexOf_of_start hentry hcov.names

/-- A constant that is referred to is in the table of constants. -/
theorem stage_constantIndex (hc : b.Cursor c) {x : Constant} {i : UInt32}
    (h : constantIndex x b = .ok i b') :
    Stage b c b' (some c) [] (fun pool _ => IndexOf pool.constants x i) ∧
      b'.blocks = b.blocks := by
  cases h
  obtain ⟨hentry, hstart⟩ := intern_spec b.constants x
  refine ⟨stage_of_tables hc rfl rfl rfl ?_ ?_, rfl⟩
  · exact fun pool hcov => ⟨hcov.names, hstart.trans hcov.constants, hcov.functions⟩
  · exact fun pool _ hcov => indexOf_of_start hentry hcov.constants

/-- A function that is referred to is in the table of functions. -/
theorem stage_functionIndex (hc : b.Cursor c) {x : Code} {i : UInt32}
    (h : functionIndex x b = .ok i b') :
    Stage b c b' (some c) [] (fun pool _ => IndexOf pool.functions x i) ∧
      b'.blocks = b.blocks := by
  cases h
  refine ⟨stage_of_tables hc rfl rfl rfl ?_ ?_, rfl⟩
  · intro pool hcov
    exact ⟨hcov.names, hcov.constants, List.IsPrefix.trans (by simp) hcov.functions⟩
  · intro pool _ hcov
    have hlast : (b.functions.push x)[b.functions.size]? = some x := by simp
    exact indexOf_of_start hlast hcov.functions

theorem stage_setPos (hc : b.Cursor c) (pos : Position) :
    Stage b c { b with pos } (some c) [] fun _ _ => True :=
  stage_of_tables hc rfl rfl rfl (fun _ h => ⟨h.names, h.constants, h.functions⟩)
    fun _ _ _ => trivial

/-- A loop is innermost while its body is emitted. -/
theorem inLoop_eq_ok {l : Loop} {body : Build Unit} (h : inLoop l body b = .ok () b') :
    ∃ b1, body { b with loops := l :: b.loops } = .ok () b1 ∧
      b' = { b1 with loops := b1.loops.tail } := by
  simp only [inLoop, bind_eq_ok] at h
  obtain ⟨_, b0, h0, _, b1, h1, h2⟩ := h
  cases h0
  cases h2
  exact ⟨b1, h1, rfl⟩

/-- Within a loop, the builder works as outside. -/
theorem stage_inLoop {l : Loop} {cur : Option BlockId} {P : Pool → BlockGraph → Prop}
    (h : Stage { b with loops := l :: b.loops } c b' cur [] P) :
    Stage b c { b' with loops := b'.loops.tail } cur [] P where
  grows := by
    refine ⟨h.grows.size_le, h.grows.frame, by simp [h.grows.loops], fun pool hcov => ?_⟩
    have hcov' := h.grows.covered pool ⟨hcov.names, hcov.constants, hcov.functions⟩
    exact ⟨hcov'.names, hcov'.constants, hcov'.functions⟩
  current := h.current
  cursor := by
    intro x hx
    obtain ⟨hcur, hrest⟩ := h.cursor x hx
    exact ⟨⟨hcur.current, hcur.lt_size, hcur.jmp, hcur.cjmp⟩, hrest⟩
  pending := h.pending
  nodup := h.nodup
  realized := by
    intro pool others g he hcov hagree hstart
    exact h.realized pool others g he ⟨hcov.names, hcov.constants, hcov.functions⟩ hagree hstart

end Build

/-- Wherever a plan is emitted, it stands in every graph that goes on from there. -/
def Plan.Realizes (p : Plan) : Prop :=
  ∀ ⦃b b' : Builder⦄ ⦃c : BlockId⦄, b.Cursor c → p.emit b = .ok () b' →
    ∃ c', Builder.Stage b c b' (some c') [] fun pool g =>
      p.At pool g b.loops (b.endOf c) b.blocks.size (b'.endOf c') b'.blocks.size

/-- Wherever a test is emitted, it stands in every graph that goes on from there. -/
def Test.Realizes (x : Test) : Prop :=
  ∀ ⦃b b' : Builder⦄ ⦃c t f : BlockId⦄, b.Cursor c → x.emit t f b = .ok () b' →
    Builder.Stage b c b' none [] fun pool g =>
      x.At pool g b.loops (b.endOf c) b.blocks.size t f b'.blocks.size

namespace Build

open Builder

variable {b b' : Builder} {c : BlockId}

/-- The body of a loop; the loop is only on the list for the body. -/
theorem stage_loopBody {isLoop : Bool} {l : Loop} {body : Plan}
    (hreal : body.Realizes) (hc : b.Cursor c)
    (h : (if isLoop then inLoop l body.emit else body.emit) b = .ok () b') :
    ∃ c', Stage b c b' (some c') [] fun pool g =>
      body.At pool g (if isLoop then l :: b.loops else b.loops) (b.endOf c) b.blocks.size
        (b'.endOf c') b'.blocks.size := by
  cases isLoop with
  | false => exact hreal hc h
  | true =>
    obtain ⟨b0, hb0, rfl⟩ := inLoop_eq_ok h
    have hcur : Cursor { b with loops := l :: b.loops } c :=
      ⟨hc.current, hc.lt_size, hc.jmp, hc.cjmp⟩
    obtain ⟨c', h'⟩ := hreal hcur hb0
    exact ⟨c', stage_inLoop h'⟩

/-- Which value ends the evaluation only decides where the jump goes to. -/
theorem shortCircuit_eq (x y : Build Unit) (stopIf : Bool) :
    shortCircuit x y stopIf = (do
      let done ← newBlock
      let second ← newBlock
      x
      emit .dup
      condJump .cjmp (if stopIf then done else second) (if stopIf then second else done)
      setBlock second
      emit .pop
      y
      jump done
      setBlock done) := by
  cases stopIf <;> rfl

/-- The builder with which the body of a function starts. -/
def inside (b : Builder) (pos : Position) : Builder :=
  { names := b.names, constants := b.constants, functions := b.functions, loads := b.loads,
    blocks := #[{}], current := some 0, pos }

/-- The builder behind the body of a function, which was `b` before. -/
def outside (b b' : Builder) : Builder :=
  { b' with blocks := b.blocks, current := b.current, loops := b.loops, pos := b.pos }

/-- A function starts in a block of its own. -/
theorem cursor_inside (b : Builder) (pos : Position) : (inside b pos).Cursor 0 :=
  ⟨rfl, Nat.zero_lt_one, rfl, rfl⟩

/-- What `assemble` does behind the body of a function. -/
def finish (b : Builder) (pos : Position) (b1 : Builder) :
    EStateM.Result CompileError Builder Assembled :=
  match (if b1.current.isSome then (do emit .pushNone; emit .ret) else pure () : Build Unit) b1 with
  | .error e b2 => .error e b2
  | .ok () b2 =>
    match do Layout.assemble b2.blocks (← b2.blocks.layout 0) pos with
    | .error e => .error e b2
    | .ok a => .ok a (outside b b2)

theorem bind_apply {α β : Type} (x : Build α) (f : α → Build β) (b : Builder) :
    (x >>= f) b =
      match x b with
      | .ok a b1 => f a b1
      | .error e b1 => .error e b1 := by
  change EStateM.bind x f b = _
  unfold EStateM.bind
  cases x b <;> rfl

theorem get_apply (b : Builder) : (get : Build Builder) b = .ok b b := rfl

/-- A body is emitted into blocks of its own, which are then assembled. -/
theorem assemble_eq (pos : Position) (body : Build Unit) (b : Builder) :
    assemble pos body b =
      match body (inside b pos) with
      | .error e b1 => .error e b1
      | .ok () b1 => finish b pos b1 := by
  -- what follows the last instruction, which both branches of the test below share
  have hend : ∀ b2 : Builder, ((do
      let inner := (← get).blocks
      match do Layout.assemble inner (← inner.layout 0) pos with
      | .error e => throw e
      | .ok assembled =>
        modify fun b' => outside b b'
        return assembled) : Build Assembled) b2 =
      match do Layout.assemble b2.blocks (← b2.blocks.layout 0) pos with
      | .error e => .error e b2
      | .ok a => .ok a (outside b b2) := by
    intro b2
    rw [bind_apply, get_apply]
    simp only
    cases (do Layout.assemble b2.blocks (← b2.blocks.layout 0) pos) <;> rfl
  have hstart : assemble pos body b = (do
      body
      if (← get).current.isSome then
        emit .pushNone
        emit .ret
      let inner := (← get).blocks
      match do Layout.assemble inner (← inner.layout 0) pos with
      | .error e => throw e
      | .ok assembled =>
        modify fun b' => outside b b'
        return assembled : Build Assembled) (inside b pos) := rfl
  rw [hstart, bind_apply]
  cases hb : body (inside b pos) with
  | error e b1 => rfl
  | ok u b1 =>
    simp only [bind_apply, get_apply, finish]
    by_cases hcur : b1.current.isSome = true
    · simp only [hcur, ↓reduceIte]
      rw [bind_apply, bind_apply]
      cases emit .pushNone b1 with
      | error e b2 => rfl
      | ok u b2 =>
        simp only
        rw [bind_apply]
        cases emit .ret b2 with
        | error e b3 => rfl
        | ok u b3 => exact hend b3
    · simp only [hcur, Bool.false_eq_true, ↓reduceIte]
      exact hend b1

/-- What `assemble` does with the graph of a function. -/
def close (b : Builder) (pos : Position) (b1 : Builder) :
    EStateM.Result CompileError Builder Assembled :=
  match do Layout.assemble b1.blocks (← b1.blocks.layout 0) pos with
  | .error e => .error e b1
  | .ok a => .ok a (outside b b1)

/-- A function body stands in the graph that is laid out. -/
theorem finish_eq {pos : Position} {body : Plan} {b1 : Builder} {e : BlockId}
    (h1 : Stage (inside b pos) 0 b1 (some e) [] fun pool g =>
      body.At pool g [] ⟨0, 0⟩ 1 (b1.endOf e) b1.blocks.size) :
    ∃ b2, finish b pos b1 = close b pos b2 ∧ ∀ pool, b2.Covered pool → b.Covered pool ∧
      ∃ q, body.At pool b2.blocks [] ⟨0, 0⟩ 1 q b2.blocks.size ∧ b2.blocks.InsnAt q .pushNone 0 ∧
        b2.blocks.ReturnAt q.next := by
  have hcur := (h1.cursor e rfl).1
  obtain ⟨b2, hnone⟩ : ∃ b2, emit .pushNone b1 = .ok () b2 :=
    ⟨_, by rw [emit, if_neg (by decide), push_eq hcur]⟩
  obtain ⟨h2, e2, z2⟩ := stage_emit hcur hnone
  have s2 := h1.trans h2
  obtain ⟨b3, hret⟩ : ∃ b3, emit .ret b2 = .ok () b3 :=
    ⟨_, by rw [emit, if_neg (by decide), push_eq (s2.cursor _ rfl).1]⟩
  obtain ⟨h3, z3⟩ := stage_ret (s2.cursor _ rfl).1 hret
  have s3 := s2.trans h3
  refine ⟨b3, ?_, fun pool hcov => ?_⟩
  · simp only [finish, hcur.current, Option.isSome_some, ↓reduceIte]
    rw [bind_apply, hnone]
    simp only [hret]
    rfl
  · have hcov' : Covered { b3 with current := none } pool :=
      ⟨hcov.names, hcov.constants, hcov.functions⟩
    have hb := s3.grows.covered pool hcov'
    refine ⟨⟨hb.names, hb.constants, hb.functions⟩, b1.endOf e, ?_⟩
    -- the graph is complete now, so what the stages realise in any larger one holds of it
    obtain ⟨⟨⟨gbody, gnone⟩, gret⟩, -⟩ := s3.realized pool (fun _ => False) b3.blocks (by simp)
      hcov' (fun id _ _ => rfl) (by simp)
    rw [e2] at gret
    rw [← z2, ← z3] at gbody
    exact ⟨gbody, gnone, gret⟩

/-- The blocks of a body are laid out and assembled, and the ones around it are taken up again. -/
theorem close_eq_ok {pos : Position} {b1 : Builder} {a : Assembled}
    (h : close b pos b1 = .ok a b') :
    b' = outside b b1 ∧ ∃ l, b1.blocks.layout 0 = .ok l ∧ l.assemble b1.blocks pos = .ok a := by
  unfold close at h
  cases hlayout : b1.blocks.layout 0 with
  | error e => simp only [hlayout] at h; cases h
  | ok l =>
    cases hcode : Layout.assemble b1.blocks l pos with
    | error e => simp only [hlayout, bind, Except.bind, hcode] at h; cases h
    | ok a' =>
      simp only [hlayout, bind, Except.bind, hcode] at h
      cases h
      exact ⟨rfl, l, rfl, hcode⟩

/-- A function body is assembled from a graph of its own. -/
theorem stage_assemble (hc : b.Cursor c) {pos : Position} {body : Plan} {a : Assembled}
    (hbody : body.Realizes) (h : assemble pos body.emit b = .ok a b') :
    Stage b c b' (some c) [] (fun pool _ => body.Assembled pool pos a) ∧
      b'.blocks = b.blocks := by
  rw [assemble_eq] at h
  cases hb : body.emit (inside b pos) with
  | error e b1 => rw [hb] at h; cases h
  | ok u b1 =>
    rw [hb] at h
    obtain ⟨e, h1⟩ := hbody (cursor_inside b pos) hb
    obtain ⟨b2, hfinish, hat⟩ := finish_eq h1
    obtain ⟨rfl, l, hlayout, hcode⟩ := close_eq_ok (hfinish.symm.trans h)
    refine ⟨stage_of_tables hc rfl rfl rfl ?_ ?_, rfl⟩
    · exact fun pool hcov => (hat pool ⟨hcov.names, hcov.constants, hcov.functions⟩).1
    · intro pool _ hcov
      obtain ⟨-, q, gbody, gnone, gret⟩ := hat pool ⟨hcov.names, hcov.constants, hcov.functions⟩
      exact ⟨b2.blocks, l, q, gbody, gnone, gret, hlayout, hcode⟩

end Build

/-! ## Emitting plans

One lemma for each kind of plan and test; `Plan.realizes` is the induction. A plan is emitted in
stages, and each stage says what later graphs have of it. -/

open Build Builder

-- the equations of the two recursions, which each of the lemmas below rewrites with
attribute [local simp] Plan.emit Test.emit

/-- Where the first plan ends, the second one stands. -/
theorem Plan.Realizes.seq {p q : Plan} (ihp : p.Realizes) (ihq : q.Realizes) :
    (Plan.seq p q).Realizes := by
  intro b b' c hc h
  simp only [Plan.emit, bind_eq_ok] at h
  obtain ⟨_, b1, hp, hq⟩ := h
  obtain ⟨c1, h1⟩ := ihp hc hp
  obtain ⟨c2, h2⟩ := ihq (h1.cursor c1 rfl).1 hq
  refine ⟨c2, (h1.trans h2).mono fun pool g hg => ⟨_, _, hg.1, ?_⟩⟩
  rw [← h1.grows.loops]
  exact hg.2

theorem Plan.realizes_const (x : Constant) : (Plan.const x).Realizes := by
  intro b b' c hc h
  simp only [Plan.emit, constant, bind_eq_ok] at h
  obtain ⟨i, b1, hi, h⟩ := h
  obtain ⟨h1, hb1⟩ := stage_constantIndex hc hi
  obtain ⟨h2, hend, hsize⟩ := stage_emitArg (h1.cursor c rfl).1 h
  refine ⟨c, (h1.trans h2).mono fun _ _ hg => ⟨i, hg.1, ?_, ?_, ?_⟩⟩
  · simpa [endOf, hb1] using hg.2
  · simpa [endOf, hb1] using hend
  · rw [hsize, hb1]

/-- The name is in the table before it is referred to. -/
theorem Plan.Realizes.name {n : String} {k : UInt32 → Plan} (ih : ∀ i, (k i).Realizes) :
    (Plan.name n k).Realizes := by
  intro b b' c hc h
  simp only [Plan.emit, bind_eq_ok] at h
  obtain ⟨i, b1, hi, h⟩ := h
  obtain ⟨h1, hb1⟩ := stage_nameIndex hc hi
  obtain ⟨c2, h2⟩ := ih i (h1.cursor c rfl).1 h
  refine ⟨c2, (h1.trans h2).mono fun pool g hg => ⟨i, hg.1, ?_⟩⟩
  rw [← h1.grows.loops]
  simpa [endOf, hb1] using hg.2

theorem Plan.Realizes.unpack {targets : Plan} (ih : targets.Realizes) (n : Nat) :
    (Plan.unpack n targets).Realizes := by
  intro b b' c hc h
  simp only [Plan.emit, bind_eq_ok] at h
  obtain ⟨_, b1, hi, h⟩ := h
  obtain ⟨h1, hend, hsize⟩ := stage_emitArg hc hi
  obtain ⟨c2, h2⟩ := ih (h1.cursor c rfl).1 h
  refine ⟨c2, (h1.trans h2).mono fun pool g hg => ⟨hg.1, ?_⟩⟩
  rw [← h1.grows.loops, ← hend, ← hsize]
  exact hg.2

/-- Both branches lead to the block behind. -/
theorem Plan.Realizes.either {test : Test} {p q : Plan} (iht : test.Realizes) (ihp : p.Realizes)
    (ihq : q.Realizes) : (Plan.either test p q).Realizes := by
  intro b b' c hc h
  simp only [Plan.emit, choice, bind_eq_ok] at h
  obtain ⟨t, b1, ht, f, b2, hf, done, b3, hd, _, b4, htest, _, b5, hs1, _, b6, hp, _, b7, hj1,
    _, b8, hs2, _, b9, hq, _, b10, hj2, hs3⟩ := h
  obtain ⟨s1, rfl, z1, e1, l1⟩ := stage_newBlock (.start hc) ht
  obtain ⟨s2, rfl, z2, e2, l2⟩ := stage_newBlock s1 hf
  obtain ⟨s3, rfl, z3, e3, l3⟩ := stage_newBlock s2 hd
  have s4 := s3.trans (iht (s3.cursor c rfl).1 htest)
  obtain ⟨s5, z5, e5, l5⟩ := stage_setBlock (s4.perm (List.reverse_perm _).symm) hs1
  obtain ⟨c1, h6⟩ := ihp (s5.cursor _ rfl).1 hp
  have s6 := s5.trans h6
  obtain ⟨h7, z7⟩ := stage_jump (s6.cursor _ rfl).1 hj1
  obtain ⟨s8, z8, e8, l8⟩ := stage_setBlock (s6.trans h7) hs2
  obtain ⟨c2, h9⟩ := ihq (s8.cursor _ rfl).1 hq
  have s9 := s8.trans h9
  obtain ⟨h10, z10⟩ := stage_jump (s9.cursor _ rfl).1 hj2
  obtain ⟨s11, z11, e11, -⟩ := stage_setBlock (s9.trans h10) hs3
  -- what is left is to name each block and each size as the plan's shape does
  refine ⟨_, s11.mono fun pool g hg => ?_⟩
  obtain ⟨⟨⟨⟨⟨-, gtest⟩, gp⟩, gj1⟩, gq⟩, gj2⟩ := hg
  have hloops5 : b5.loops = b.loops := s5.grows.loops
  have hloops8 : b8.loops = b.loops := s8.grows.loops
  have hloops3 : b3.loops = b.loops := s3.grows.loops
  rw [hloops3, e3, e2, e1, z3, z2, z1] at gtest
  rw [hloops5, e5, z5] at gp
  rw [hloops8, e8, z8, z7, z1] at gq
  rw [z2, z1] at gj1 gj2
  rw [e11, z11, z10, z2, z1]
  exact ⟨_, _, _, _, gtest, gp, gj1, gq, gj2, rfl⟩

/-- Control goes on behind, whether the test holds or not. -/
theorem Plan.Realizes.guard {test : Test} {p : Plan} (iht : test.Realizes) (ihp : p.Realizes) :
    (Plan.guard test p).Realizes := by
  intro b b' c hc h
  simp only [Plan.emit, bind_eq_ok] at h
  obtain ⟨t, b1, ht, done, b2, hd, _, b3, htest, _, b4, hs1, _, b5, hp, _, b6, hj, hs2⟩ := h
  obtain ⟨s1, rfl, z1, e1, l1⟩ := stage_newBlock (.start hc) ht
  obtain ⟨s2, rfl, z2, e2, l2⟩ := stage_newBlock s1 hd
  have s3 := s2.trans (iht (s2.cursor c rfl).1 htest)
  obtain ⟨s4, z4, e4, l4⟩ := stage_setBlock (s3.perm (List.reverse_perm _).symm) hs1
  obtain ⟨c1, h5⟩ := ihp (s4.cursor _ rfl).1 hp
  have s5 := s4.trans h5
  obtain ⟨h6, z6⟩ := stage_jump (s5.cursor _ rfl).1 hj
  obtain ⟨s7, z7, e7, -⟩ := stage_setBlock (s5.trans h6) hs2
  refine ⟨_, s7.mono fun pool g hg => ?_⟩
  -- the block behind is the target both of the test and of the jump
  obtain ⟨⟨⟨-, gtest⟩, gp⟩, gj⟩ := hg
  have hloops2 : b2.loops = b.loops := s2.grows.loops
  have hloops4 : b4.loops = b.loops := s4.grows.loops
  rw [hloops2, e2, e1, z2, z1] at gtest
  rw [hloops4, e4, z4] at gp
  rw [z1] at gj
  rw [e7, z7, z6, z1]
  exact ⟨_, _, gtest, gp, gj, rfl⟩

/-- The second operand is skipped, or replaces the first. -/
theorem Plan.Realizes.short {p q : Plan} (ihp : p.Realizes) (ihq : q.Realizes) (stopIf : Bool) :
    (Plan.short stopIf p q).Realizes := by
  intro b b' c hc h
  simp only [Plan.emit, shortCircuit_eq, bind_eq_ok] at h
  obtain ⟨done, b1, hd, second, b2, hsec, _, b3, hp, _, b4, hdup, _, b5, hcj, _, b6, hs1, _, b7,
    hpop, _, b8, hq, _, b9, hj, hs2⟩ := h
  obtain ⟨s1, rfl, z1, e1, l1⟩ := stage_newBlock (.start hc) hd
  obtain ⟨s2, rfl, z2, e2, l2⟩ := stage_newBlock s1 hsec
  obtain ⟨c1, h3⟩ := ihp (s2.cursor c rfl).1 hp
  have s3 := s2.trans h3
  obtain ⟨h4, e4, z4⟩ := stage_emit (s3.cursor _ rfl).1 hdup
  have s4 := s3.trans h4
  -- the second block is named by the size of the graph, as the jump to it is
  rw [z1] at hcj hs1
  obtain ⟨h5, z5⟩ := stage_condJump (s4.cursor _ rfl).1 hcj
  have s5 := s4.trans h5
  rw [z1] at s5
  obtain ⟨s6, z6, e6, l6⟩ := stage_setBlock s5 hs1
  obtain ⟨h7, e7, z7⟩ := stage_emit (s6.cursor _ rfl).1 hpop
  have s7 := s6.trans h7
  obtain ⟨c2, h8⟩ := ihq (s7.cursor _ rfl).1 hq
  have s8 := s7.trans h8
  obtain ⟨h9, z9⟩ := stage_jump (s8.cursor _ rfl).1 hj
  obtain ⟨s10, z10, e10, -⟩ := stage_setBlock (s8.trans h9) hs2
  refine ⟨_, s10.mono fun pool g hg => ?_⟩
  obtain ⟨⟨⟨⟨⟨⟨-, gp⟩, gdup⟩, gbr⟩, gpop⟩, gq⟩, gj⟩ := hg
  have hloops2 : b2.loops = b.loops := s2.grows.loops
  have hloops7 : b7.loops = b.loops := s7.grows.loops
  rw [hloops2, e2, e1, z2, z1] at gp
  rw [e4] at gbr
  rw [e6] at gpop
  rw [hloops7, e7, e6, z7, z6, z5, z4] at gq
  rw [e10, z10, z9]
  exact ⟨_, _, _, gp, gdup, gbr, gpop, gq, gj, rfl⟩

/-- A round leads back to where the next element is asked for. -/
theorem Plan.Realizes.each {iterable vars body : Plan} (ihi : iterable.Realizes)
    (ihv : vars.Realizes) (ihb : body.Realizes) (isLoop : Bool) (pos : Position) :
    (Plan.each isLoop iterable pos vars body).Realizes := by
  intro b b' c hc h
  simp only [Plan.emit, iteration, bind_eq_ok] at h
  obtain ⟨head, b1, hh, round, b2, hr, tail, b3, ht, _, b4, hit, _, b5, hpos, _, b6, hpush, _, b7,
    hj1, _, b8, hs1, _, b9, hcj, _, b10, hs2, _, b11, ⟨_, b12, hvars, hbody⟩, _, b13, hj2, _, b14,
    hs3, hpop⟩ := h
  obtain ⟨s1, rfl, z1, e1, l1⟩ := stage_newBlock (.start hc) hh
  obtain ⟨s2, rfl, z2, e2, l2⟩ := stage_newBlock s1 hr
  obtain ⟨s3, rfl, z3, e3, l3⟩ := stage_newBlock s2 ht
  obtain ⟨c1, h4⟩ := ihi (s3.cursor c rfl).1 hit
  have s4 := s3.trans h4
  have h5 := stage_setPos (s4.cursor _ rfl).1 pos
  cases hpos
  have s5 := s4.trans h5
  obtain ⟨h6, e6, z6⟩ := stage_emit (s5.cursor _ rfl).1 hpush
  have s6 := s5.trans h6
  obtain ⟨h7, z7⟩ := stage_jump (s6.cursor _ rfl).1 hj1
  obtain ⟨s8, z8, e8, l8⟩ := stage_setBlock
    ((s6.trans h7).perm (List.reverse_perm _).symm) hs1
  obtain ⟨h9, z9⟩ := stage_condJump (s8.cursor _ rfl).1 hcj
  obtain ⟨s10, z10, e10, l10⟩ := stage_setBlock (s8.trans h9) hs2
  obtain ⟨c2, h11⟩ := ihv (s10.cursor _ rfl).1 hvars
  have s11 := s10.trans h11
  have hloops12 : b12.loops = b.loops := s11.grows.loops
  -- inside the body a jump may also go to the head or the tail
  obtain ⟨c3, h12⟩ := stage_loopBody ihb (s11.cursor _ rfl).1 hbody
  have s12 := s11.trans h12
  obtain ⟨h13, z13⟩ := stage_jump (s12.cursor _ rfl).1 hj2
  obtain ⟨s14, z14, e14, -⟩ := stage_setBlock (s12.trans h13) hs3
  obtain ⟨h15, e15, z15⟩ := stage_emit (s14.cursor _ rfl).1 hpop
  refine ⟨_, (s14.trans h15).mono fun pool g hg => ?_⟩
  obtain ⟨⟨⟨⟨⟨⟨⟨⟨⟨-, git⟩, -⟩, gpush⟩, gj1⟩, gbr⟩, gvars⟩, gbody⟩, gj2⟩, gpop⟩ := hg
  have hloops3 : b3.loops = b.loops := s3.grows.loops
  have hloops10 : b10.loops = b.loops := s10.grows.loops
  have hend : ∀ x, endOf { b4 with pos := pos } x = b4.endOf x := fun x => rfl
  rw [hloops3, e3, e2, e1, z3, z2, z1] at git
  rw [e6, hend] at gj1
  rw [e8, z2, z1] at gbr
  rw [hloops10, e10, z10, z9, z8, z7, z6, z1] at gvars
  rw [hloops12, z2, z1] at gbody
  rw [e14, z2, z1] at gpop
  rw [e15, e14, z15, z14, z13, z2, z1]
  exact ⟨_, _, _, _, _, git, gpush, gj1, gbr, gvars, gbody, gj2, gpop, rfl⟩

/-- A round leads back to the test. -/
theorem Plan.Realizes.whileLoop {test : Test} {body : Plan} (iht : test.Realizes)
    (ihb : body.Realizes) : (Plan.whileLoop test body).Realizes := by
  intro b b' c hc h
  simp only [Plan.emit, bind_eq_ok] at h
  obtain ⟨head, b1, hh, round, b2, hr, done, b3, hd, _, b4, hj1, _, b5, hs1, _, b6, htest, _, b7,
    hs2, _, b8, hbody, _, b9, hj2, hs3⟩ := h
  obtain ⟨s1, rfl, z1, e1, l1⟩ := stage_newBlock (.start hc) hh
  obtain ⟨s2, rfl, z2, e2, l2⟩ := stage_newBlock s1 hr
  obtain ⟨s3, rfl, z3, e3, l3⟩ := stage_newBlock s2 hd
  obtain ⟨h4, z4⟩ := stage_jump (s3.cursor _ rfl).1 hj1
  obtain ⟨s5, z5, e5, l5⟩ := stage_setBlock
    ((s3.trans h4).perm (List.reverse_perm _).symm) hs1
  have s6 := s5.trans (iht (s5.cursor _ rfl).1 htest)
  obtain ⟨s7, z7, e7, l7⟩ := stage_setBlock s6 hs2
  obtain ⟨c1, h8⟩ := @stage_loopBody _ _ _ true _ _ ihb
    (s7.cursor _ rfl).1 hbody
  have s8 := s7.trans h8
  obtain ⟨h9, z9⟩ := stage_jump (s8.cursor _ rfl).1 hj2
  obtain ⟨s10, z10, e10, -⟩ := stage_setBlock (s8.trans h9) hs3
  refine ⟨_, s10.mono fun pool g hg => ?_⟩
  obtain ⟨⟨⟨⟨-, gj1⟩, gtest⟩, gbody⟩, gj2⟩ := hg
  have hloops5 : b5.loops = b.loops := s5.grows.loops
  have hloops7 : b7.loops = b.loops := s7.grows.loops
  rw [e3, e2, e1] at gj1
  rw [hloops5, e5, z5, z4, z3, z2, z1] at gtest
  -- the body has this loop in scope above those around it
  rw [if_pos rfl, hloops7, e7, z7, z2, z1] at gbody
  rw [e10, z10, z9, z2, z1]
  exact ⟨_, _, gj1, gtest, gbody, gj2, rfl⟩

/-- A loop is left, or its next round begun, and nothing is emitted behind in the same block. -/
theorem Plan.realizes_leave (isBreak : Bool) : (Plan.leave isBreak).Realizes := by
  intro b b' c hc h
  simp only [Plan.emit, bind_eq_ok] at h
  obtain ⟨l, b1, hl, _, b2, hj, id, b3, hn, hs⟩ := h
  obtain ⟨rfl, rest, hloops⟩ := innermostLoop_eq_ok hl
  obtain ⟨h2, z2⟩ := stage_jump hc hj
  obtain ⟨s3, rfl, z3, e3, l3⟩ := stage_newBlock h2 hn
  obtain ⟨s4, z4, e4, -⟩ := stage_setBlock s3 hs
  refine ⟨_, s4.mono fun pool g hg => ?_⟩
  rw [e4, z4, z3, z2]
  exact ⟨⟨l, rest, hloops, hg⟩, rfl, rfl⟩

/-- Nothing is emitted behind a return in the same block. -/
theorem Plan.realizes_ret : Plan.ret.Realizes := by
  intro b b' c hc h
  simp only [Plan.emit, bind_eq_ok] at h
  obtain ⟨_, b1, hret, id, b2, hn, hs⟩ := h
  obtain ⟨h1, z1⟩ := stage_ret hc hret
  cases hn
  cases hs
  have hempty := (h1.newBlock.pending _ List.mem_cons_self).2.2
  refine ⟨_, (h1.newBlock.setBlock rfl).mono fun pool g hg => ⟨hg, ?_, ?_⟩⟩
  · refine (endOf_of_empty hempty).trans ?_
    rw [z1]
  · simp [z1]

/-- The body is assembled on its own, and the function is in the table. -/
theorem Plan.Realizes.func {body : Plan} {k : UInt32 → Plan} (ihb : body.Realizes)
    (ihk : ∀ i, (k i).Realizes) (f : Function) : (Plan.func f body k).Realizes := by
  intro b b' c hc h
  simp only [Plan.emit, bind_eq_ok] at h
  obtain ⟨a, b1, ha, i, b2, hi, hk⟩ := h
  obtain ⟨h1, hb1⟩ := stage_assemble hc ihb ha
  obtain ⟨h2, hb2⟩ := stage_functionIndex (h1.cursor _ rfl).1 hi
  have s2 := h1.trans h2
  obtain ⟨c3, h3⟩ := ihk i (s2.cursor _ rfl).1 hk
  refine ⟨c3, (s2.trans h3).mono fun pool g hg => ?_⟩
  obtain ⟨⟨gbody, gi⟩, gk⟩ := hg
  have hloops : b2.loops = b.loops := s2.grows.loops
  have hend : b2.endOf c = b.endOf c := by rw [endOf, hb2, hb1, endOf]
  rw [hloops, hend, hb2, hb1] at gk
  exact ⟨i, a, gi, gbody, gk⟩

/-- The value is on the stack where the jump is. -/
theorem Test.Realizes.on {p : Plan} (ih : p.Realizes) : (Test.on p).Realizes := by
  intro b b' c t f hc h
  simp only [Test.emit, bind_eq_ok] at h
  obtain ⟨_, b1, hp, hj⟩ := h
  obtain ⟨c1, h1⟩ := ih hc hp
  obtain ⟨h2, z2⟩ := stage_condJump (h1.cursor _ rfl).1 hj
  refine (h1.trans h2).mono fun pool g hg => ?_
  rw [z2]
  exact ⟨_, hg.1, hg.2⟩

/-- The second test stands where the first holds. -/
theorem Test.Realizes.both {p : Plan} {x : Test} (ihp : p.Realizes) (ihx : x.Realizes) :
    (Test.both p x).Realizes := by
  intro b b' c t f hc h
  simp only [Test.emit, bind_eq_ok] at h
  obtain ⟨_, b1, hp, second, b2, hn, _, b3, hj, _, b4, hs, hx⟩ := h
  obtain ⟨c1, h1⟩ := ihp hc hp
  obtain ⟨s2, rfl, z2, e2, l2⟩ := stage_newBlock h1 hn
  obtain ⟨h3, z3⟩ := stage_condJump (s2.cursor _ rfl).1 hj
  obtain ⟨s4, z4, e4, l4⟩ := stage_setBlock (s2.trans h3) hs
  refine (s4.trans (ihx (s4.cursor _ rfl).1 hx)).mono fun pool g hg => ?_
  obtain ⟨⟨gp, gj⟩, gx⟩ := hg
  have hloops : b4.loops = b.loops := s4.grows.loops
  rw [e2] at gj
  rw [hloops, e4, z4, z3, z2] at gx
  exact ⟨_, _, gp, gj, gx⟩

/-- The second test stands where the first fails. -/
theorem Test.Realizes.either {p : Plan} {x : Test} (ihp : p.Realizes) (ihx : x.Realizes) :
    (Test.either p x).Realizes := by
  intro b b' c t f hc h
  simp only [Test.emit, bind_eq_ok] at h
  obtain ⟨_, b1, hp, second, b2, hn, _, b3, hj, _, b4, hs, hx⟩ := h
  obtain ⟨c1, h1⟩ := ihp hc hp
  obtain ⟨s2, rfl, z2, e2, l2⟩ := stage_newBlock h1 hn
  obtain ⟨h3, z3⟩ := stage_condJump (s2.cursor _ rfl).1 hj
  obtain ⟨s4, z4, e4, l4⟩ := stage_setBlock (s2.trans h3) hs
  refine (s4.trans (ihx (s4.cursor _ rfl).1 hx)).mono fun pool g hg => ?_
  obtain ⟨⟨gp, gj⟩, gx⟩ := hg
  have hloops : b4.loops = b.loops := s4.grows.loops
  rw [e2] at gj
  rw [hloops, e4, z4, z3, z2] at gx
  exact ⟨_, _, gp, gj, gx⟩

mutual

/-- A plan that is emitted stands in every graph that goes on from there. -/
theorem Plan.realizes (p : Plan) : p.Realizes := by
  match p with
  | .skip =>
    rintro b _ c hc ⟨⟩
    exact ⟨c, (Stage.start hc).mono fun _ _ _ => ⟨rfl, rfl⟩⟩
  | .pos pos =>
    rintro b _ c hc ⟨⟩
    exact ⟨c, (stage_setPos hc pos).mono fun _ _ _ => ⟨rfl, rfl⟩⟩
  | .load d =>
    rintro b _ c hc ⟨⟩
    exact ⟨c, stage_of_tables hc rfl rfl rfl
      (fun _ h => ⟨h.names, h.constants, h.functions⟩) fun _ _ _ => ⟨rfl, rfl⟩⟩
  | .fail e => exact nofun
  | .op o =>
    intro b b' c hc h
    obtain ⟨h1, hend, hsize⟩ := stage_emit hc h
    exact ⟨c, h1.mono fun _ _ hg => ⟨hg, hend, hsize⟩⟩
  | .arg o n =>
    intro b b' c hc h
    obtain ⟨h1, hend, hsize⟩ := stage_emitArg hc h
    exact ⟨c, h1.mono fun _ _ hg => ⟨hg, hend, hsize⟩⟩
  | .const x => exact Plan.realizes_const x
  | .name _ k => exact .name fun i => Plan.realizes (k i)
  | .unpack n targets => exact .unpack (Plan.realizes targets) n
  | .seq p q => exact .seq (Plan.realizes p) (Plan.realizes q)
  | .either test p q => exact .either (Test.realizes test) (Plan.realizes p) (Plan.realizes q)
  | .guard test p => exact .guard (Test.realizes test) (Plan.realizes p)
  | .short stopIf p q => exact .short (Plan.realizes p) (Plan.realizes q) stopIf
  | .each isLoop iterable pos vars body =>
    exact .each (Plan.realizes iterable) (Plan.realizes vars) (Plan.realizes body) isLoop pos
  | .whileLoop test body => exact .whileLoop (Test.realizes test) (Plan.realizes body)
  | .leave isBreak => exact Plan.realizes_leave isBreak
  | .ret => exact Plan.realizes_ret
  | .func f body k => exact .func (Plan.realizes body) (fun i => Plan.realizes (k i)) f

theorem Test.realizes (x : Test) : x.Realizes := by
  match x with
  | .on p => exact .on (Plan.realizes p)
  | .not x => exact fun _ _ _ _ _ hc h => Test.realizes x hc h
  | .both p x => exact .both (Plan.realizes p) (Test.realizes x)
  | .either p x => exact .either (Plan.realizes p) (Test.realizes x)

end

end Starlark
