import Starlark.Proofs.Flow.Points

/-!
# The code of a layout refines its graph

A graph is executed from block to block (`BlockGraph.Runs`), and a code stream from address to
address (`CodeRuns`); both are given the outcomes of the conditional jumps. `layout_refines` says
that the code visits the instructions of the graph, apart from `nop`s and jumps in between, whatever
the outcomes are.
-/

set_option autoImplicit false

namespace Starlark

open BlockGraph (Leads)
open Emit

/-- An instruction that control has come to. The operand of a jump is an address in a code stream
and nothing in a graph, so it is left out. -/
structure Visited where
  op : Opcode
  arg : Option UInt32
  deriving DecidableEq

def Insn.visited (i : Insn) : Visited := ⟨i.op, if i.op.isJump then none else operand? i⟩

def Fetched.visited (f : Fetched) : Visited := ⟨f.op, if f.op.isJump then none else f.arg⟩

/-- The shape of the blocks that the compiler makes. -/
structure Block.Shaped (k : Block) : Prop where
  /-- Unconditional jumps are edges, not instructions. -/
  no_jmp : ∀ i ∈ k.insns.toList, i.op ≠ .jmp
  /-- A conditional jump ends its block. -/
  cond_last : ∀ i ∈ k.insns.toList.dropLast, i.op.isCondJump = false
  /-- Exactly the blocks that end with a conditional jump have a target for it. -/
  cjmp_isSome : k.cjmp.isSome = k.insns.toList.getLast?.any (·.op.isCondJump)
  /-- Exactly the blocks that end with a return have no successor. -/
  jmp_isNone : k.jmp.isNone = k.insns.toList.getLast?.any (·.op == .ret)

instance (k : Block) : Decidable k.Shaped :=
  decidable_of_iff ((∀ i ∈ k.insns.toList, i.op ≠ .jmp) ∧
      (∀ i ∈ k.insns.toList.dropLast, i.op.isCondJump = false) ∧
      k.cjmp.isSome = k.insns.toList.getLast?.any (·.op.isCondJump) ∧
      k.jmp.isNone = k.insns.toList.getLast?.any (·.op == .ret))
    ⟨fun ⟨h1, h2, h3, h4⟩ => ⟨h1, h2, h3, h4⟩, fun ⟨h1, h2, h3, h4⟩ => ⟨h1, h2, h3, h4⟩⟩

/-- All blocks of a graph have the shape. -/
def BlockGraph.Shaped (g : BlockGraph) : Prop := ∀ b < g.size, (g.block b).Shaped

/-- Executing a graph from a block with the given code left visits the instructions, if the
conditional jumps on the way have the given outcomes. A run may stop anywhere; a return ends it. -/
inductive BlockGraph.Runs (g : BlockGraph) :
    BlockId → List Insn → List Bool → List Visited → Prop where
  | pause (b : BlockId) (is : List Insn) : Runs g b is [] []
  | ret {b : BlockId} {i : Insn} {is : List Insn} :
      i.op = .ret → Runs g b (i :: is) [] [i.visited]
  | step {b : BlockId} {i : Insn} {is : List Insn} {outcomes : List Bool} {v : List Visited} :
      i.op ≠ .ret → i.op.isCondJump = false → Runs g b is outcomes v →
        Runs g b (i :: is) outcomes (i.visited :: v)
  | taken {b c t : BlockId} {i : Insn} {is : List Insn} {outcomes : List Bool}
      {v : List Visited} :
      i.op.isCondJump = true → (g.block b).cjmp = some c → Leads g c t →
        Runs g t (g.block t).insns.toList outcomes v →
          Runs g b (i :: is) (true :: outcomes) (i.visited :: v)
  | passed {b : BlockId} {i : Insn} {is : List Insn} {outcomes : List Bool} {v : List Visited} :
      i.op.isCondJump = true → Runs g b is outcomes v →
        Runs g b (i :: is) (false :: outcomes) (i.visited :: v)
  | goOn {b c t : BlockId} {outcomes : List Bool} {v : List Visited} :
      (g.block b).jmp = some c → Leads g c t → Runs g t (g.block t).insns.toList outcomes v →
        Runs g b [] outcomes v

/-- Executing a code stream from an address visits the instructions, if the conditional jumps on the
way have the given outcomes. -/
inductive CodeRuns (code : Array UInt8) : Nat → List Bool → List Visited → Prop where
  | pause (pc : Nat) : CodeRuns code pc [] []
  | ret {pc : Nat} {f : Fetched} :
      fetch code pc = .ok f → f.op = .ret → CodeRuns code pc [] [f.visited]
  | step {pc : Nat} {f : Fetched} {outcomes : List Bool} {v : List Visited} :
      fetch code pc = .ok f → f.op ≠ .ret → f.op.isJump = false →
        CodeRuns code f.next outcomes v → CodeRuns code pc outcomes (f.visited :: v)
  | jump {pc : Nat} {f : Fetched} {arg : UInt32} {outcomes : List Bool} {v : List Visited} :
      fetch code pc = .ok f → f.op = .jmp → f.arg = some arg →
        CodeRuns code arg.toNat outcomes v → CodeRuns code pc outcomes (f.visited :: v)
  | taken {pc : Nat} {f : Fetched} {arg : UInt32} {outcomes : List Bool} {v : List Visited} :
      fetch code pc = .ok f → f.op.isCondJump = true → f.arg = some arg →
        CodeRuns code arg.toNat outcomes v →
          CodeRuns code pc (true :: outcomes) (f.visited :: v)
  | passed {pc : Nat} {f : Fetched} {outcomes : List Bool} {v : List Visited} :
      fetch code pc = .ok f → f.op.isCondJump = true → CodeRuns code f.next outcomes v →
        CodeRuns code pc (false :: outcomes) (f.visited :: v)

/-- The first list is the second with `nop`s and jumps put in. -/
inductive Padded : List Visited → List Visited → Prop where
  | nil : Padded [] []
  | keep (x : Visited) {w v : List Visited} : Padded w v → Padded (x :: w) (x :: v)
  | pad {x : Visited} {w v : List Visited} : x.op = .nop ∨ x.op = .jmp → Padded w v →
      Padded (x :: w) v

namespace Padded

theorem refl (w : List Visited) : Padded w w := by
  induction w with
  | nil => exact .nil
  | cons x w ih => exact .keep x ih

theorem trans {u v w : List Visited} (h : Padded u v) (h' : Padded v w) : Padded u w := by
  induction h generalizing w with
  | nil => exact h'
  | keep x _ ih =>
    cases h' with
    | keep _ h' => exact .keep x (ih h')
    | pad hx h' => exact .pad hx (ih h')
  | pad hx _ ih => exact .pad hx (ih h')

theorem length_le {w v : List Visited} (h : Padded w v) : v.length ≤ w.length := by
  induction h with
  | nil => exact Nat.le_refl _
  | keep x _ ih => exact Nat.succ_le_succ ih
  | pad _ _ ih => exact Nat.le_succ_of_le ih

end Padded

namespace Slides

variable {code : Array UInt8} {pc q : Nat} {outcomes : List Bool}

/-- What is visited from the end of a slide is visited from its start, behind the slide. -/
theorem codeRuns (h : Slides code pc q) {w : List Visited} (hw : CodeRuns code q outcomes w) :
    ∃ w', CodeRuns code pc outcomes w' ∧ Padded w' w := by
  induction h with
  | refl _ => exact ⟨w, hw, .refl w⟩
  | nop hf _ ih =>
    obtain ⟨w', hruns, hpad⟩ := ih hw
    exact ⟨_, .step hf (by nofun) rfl hruns, .pad (.inl rfl) hpad⟩
  | jmp hf _ ih =>
    obtain ⟨w', hruns, hpad⟩ := ih hw
    exact ⟨_, .jump hf rfl rfl hruns, .pad (.inr rfl) hpad⟩

/-- What is visited from the start of a slide is visited from its end, up to the slide. -/
theorem codeRuns_end (h : Slides code pc q) {w : List Visited} (hw : CodeRuns code pc outcomes w) :
    ∃ w', CodeRuns code q outcomes w' ∧ Padded w w' := by
  -- on the slide; each instruction of it that the run has visited is visited padding
  induction h generalizing w with
  | refl _ => exact ⟨w, hw, .refl w⟩
  | nop hf _ ih =>
    cases hw with
    | pause _ => exact ⟨[], .pause _, .nil⟩
    | ret hf' hop => rw [hf] at hf'; cases hf'; cases hop
    | jump hf' hop _ _ => rw [hf] at hf'; cases hf'; cases hop
    | taken hf' hop _ _ => rw [hf] at hf'; cases hf'; cases hop
    | passed hf' hop _ => rw [hf] at hf'; cases hf'; cases hop
    | step hf' _ _ hrest =>
      rw [hf] at hf'
      cases hf'
      obtain ⟨w', hruns, hpad⟩ := ih hrest
      exact ⟨w', hruns, .pad (.inl rfl) hpad⟩
  | jmp hf _ ih =>
    cases hw with
    | pause _ => exact ⟨[], .pause _, .nil⟩
    | ret hf' hop => rw [hf] at hf'; cases hf'; cases hop
    | step hf' _ hop _ => rw [hf] at hf'; cases hf'; cases hop
    | taken hf' hop _ _ => rw [hf] at hf'; cases hf'; cases hop
    | passed hf' hop _ => rw [hf] at hf'; cases hf'; cases hop
    | jump hf' _ harg hrest =>
      rw [hf] at hf'
      cases hf'
      cases harg
      obtain ⟨w', hruns, hpad⟩ := ih hrest
      exact ⟨w', hruns, .pad (.inr rfl) hpad⟩

end Slides

/-! ## Consequences of the shape -/

namespace Block.Shaped

variable {k : Block} {i : Insn} {done rest : List Insn}

theorem rest_eq_nil (h : k.Shaped) (hi : k.insns.toList = done ++ i :: rest)
    (hop : i.op.isCondJump = true) : rest = [] := by
  by_contra hne
  have hmem : i ∈ k.insns.toList.dropLast := by
    rw [hi, List.dropLast_append_of_ne_nil (by simp), List.dropLast_cons_of_ne_nil hne]
    simp
  rw [h.cond_last i hmem] at hop
  cases hop

theorem exists_cjmp (h : k.Shaped) (hi : k.insns.toList = done ++ i :: rest)
    (hop : i.op.isCondJump = true) : ∃ c, k.cjmp = some c := by
  have hrest := h.rest_eq_nil hi hop
  subst hrest
  have hsome := h.cjmp_isSome
  rw [hi, List.getLast?_concat] at hsome
  rw [Option.any_some, hop] at hsome
  exact Option.isSome_iff_exists.1 hsome

/-- Behind an instruction that is no return, a block goes on or has a successor. -/
theorem exists_jmp (h : k.Shaped) (hi : k.insns.toList = done ++ [i]) (hop : i.op ≠ .ret) :
    ∃ c, k.jmp = some c := by
  have hnone := h.jmp_isNone
  rw [hi, List.getLast?_concat, Option.any_some, beq_eq_false_iff_ne.2 hop] at hnone
  exact Option.isSome_iff_exists.1 (by simpa using hnone)

theorem ne_jmp (h : k.Shaped) (hi : k.insns.toList = done ++ i :: rest) : i.op ≠ .jmp :=
  h.no_jmp i (by rw [hi]; simp)

end Block.Shaped

/-! ## Simulation -/

section Simulation

variable {g : BlockGraph} {entry : BlockId} {l : Layout} {code : Array UInt8}

theorem operand?_resolve {target : Option Nat} {i : Insn} (hop : i.op.isCondJump = false) :
    operand? (resolve target i) = operand? i := by
  rw [resolve_of_not_isCondJump (by simp [hop])]

/-- What is visited at a point of the graph is visited at its address. -/
theorem visited_fetched (i : Insn) (target : Option Nat) (next : Nat) :
    Fetched.visited ⟨i.op, operand? (resolve target i), next⟩ = i.visited := by
  rw [Fetched.visited, Insn.visited]
  by_cases hop : i.op.isCondJump = true
  · simp [Opcode.isJump, hop]
  · rw [operand?_resolve (by simpa using hop)]

/-- The code follows the graph. -/
theorem codeRuns_of_runs (ha : l.Assembles g entry code) (hshape : g.Shaped) {b : BlockId}
    {is : List Insn} {outcomes : List Bool} {v : List Visited} (h : g.Runs b is outcomes v) :
    ∀ done, b ∈ l.order.toList → (g.block b).insns.toList = done ++ is →
      ∃ w, CodeRuns code (l.pointAddress b done) outcomes w ∧ Padded w v := by
  have hshaped : ∀ b ∈ l.order.toList, (g.block b).Shaped :=
    fun b hb => hshape b (ha.covering.placing.lt_size b hb)
  -- `done` is what the run has left behind in the block where it is
  induction h with
  | pause b is =>
    intro done _ _
    exact ⟨[], .pause _, .nil⟩
  | ret hop =>
    intro done hb hi
    obtain ⟨next, hfetch, -, -⟩ := ha.fetch_point hb hi
    refine ⟨_, .ret hfetch hop, ?_⟩
    rw [visited_fetched]
    exact .refl _
  | @step b i is outcomes v hret hcond _ ih =>
    intro done hb hi
    obtain ⟨next, hfetch, -, hnext⟩ := ha.fetch_point hb hi
    obtain ⟨w, hw, hpad⟩ := ih (done ++ [i]) hb (by simpa using hi)
    rw [← hnext hcond] at hw
    have hjump : i.op.isJump = false := by
      simp [Opcode.isJump, hcond, (hshaped b hb).ne_jmp hi]
    refine ⟨_, .step hfetch hret hjump hw, ?_⟩
    rw [visited_fetched]
    exact .keep _ hpad
  | @taken b c t i is outcomes v hcond hc hlead _ ih =>
    intro done hb hi
    obtain ⟨next, hfetch, -, -⟩ := ha.fetch_point hb hi
    obtain ⟨u, hu, ht⟩ := ha.covering.cjmp_mem hb hc
    rw [hu.unique hlead] at ht
    obtain ⟨arg, harg, haddr⟩ := ha.operand_of_cjmp hcond hc hlead ht
    obtain ⟨w, hw, hpad⟩ := ih [] ht (by simp)
    rw [Layout.pointAddress_nil, ← haddr] at hw
    refine ⟨_, .taken hfetch hcond harg hw, ?_⟩
    rw [visited_fetched]
    exact .keep _ hpad
  | @passed b i is outcomes v hcond _ ih =>
    intro done hb hi
    obtain ⟨next, hfetch, hslides, -⟩ := ha.fetch_point hb hi
    obtain ⟨w, hw, hpad⟩ := ih (done ++ [i]) hb (by simpa using hi)
    obtain ⟨w', hw', hpad'⟩ := hslides.codeRuns hw
    refine ⟨_, .passed hfetch hcond hw', ?_⟩
    rw [visited_fetched]
    exact .keep _ (hpad'.trans hpad)
  | @goOn b c t outcomes v hc hlead _ ih =>
    intro done hb hi
    rw [List.append_nil] at hi
    obtain ⟨u, hu, ht⟩ := ha.covering.jmp_mem hb hc
    rw [hu.unique hlead] at ht
    obtain ⟨w, hw, hpad⟩ := ih [] ht (by simp)
    rw [Layout.pointAddress_nil] at hw
    obtain ⟨w', hw', hpad'⟩ := (ha.slides_end hb hc hlead ht).codeRuns hw
    rw [hi] at hw'
    exact ⟨w', hw', hpad'.trans hpad⟩

/-- At a point with code left, the graph follows the code, if it does so wherever less is
visited. -/
theorem runs_of_codeRuns_cons (ha : l.Assembles g entry code) (hshape : g.Shaped) {b : BlockId}
    {i : Insn} {done rest : List Insn} (hb : b ∈ l.order.toList)
    (hi : (g.block b).insns.toList = done ++ i :: rest) {outcomes : List Bool}
    {w : List Visited} (hw : CodeRuns code (l.pointAddress b done) outcomes w)
    (ih : ∀ b' done' rest' outcomes' w', w'.length < w.length → b' ∈ l.order.toList →
      (g.block b').insns.toList = done' ++ rest' → (rest' = [] → ∃ c, (g.block b').jmp = some c) →
      CodeRuns code (l.pointAddress b' done') outcomes' w' →
      ∃ v, g.Runs b' rest' outcomes' v ∧ Padded w' v) :
    ∃ v, g.Runs b (i :: rest) outcomes v ∧ Padded w v := by
  have hshaped := hshape b (ha.covering.placing.lt_size b hb)
  obtain ⟨next, hfetch, hslides, hnext⟩ := ha.fetch_point hb hi
  have hsplit : (g.block b).insns.toList = (done ++ [i]) ++ rest := by simpa using hi
  have hmore : i.op ≠ .ret → rest = [] → ∃ c, (g.block b).jmp = some c := by
    rintro hop rfl
    exact hshaped.exists_jmp hi hop
  -- the bytes at the address decode to `i`, so the code has no other way on than the graph
  cases hw with
  | pause _ => exact ⟨[], .pause _ _, .nil⟩
  | ret hf hop =>
    rw [hfetch] at hf
    cases hf
    refine ⟨_, .ret hop, ?_⟩
    rw [visited_fetched]
    exact .refl _
  | step hf hop hjump hrest =>
    rw [hfetch] at hf
    cases hf
    have hcond : i.op.isCondJump = false := by
      simp only [Opcode.isJump, Bool.or_eq_false_iff] at hjump
      exact hjump.2
    rw [hnext hcond] at hrest
    obtain ⟨v, hv, hpad⟩ := ih b _ rest _ _ (by simp) hb hsplit (hmore hop) hrest
    refine ⟨_, .step hop hcond hv, ?_⟩
    rw [visited_fetched]
    exact .keep _ hpad
  | jump hf hop _ _ =>
    rw [hfetch] at hf
    cases hf
    exact absurd hop (hshaped.ne_jmp hi)
  | taken hf hcond harg hrest =>
    rw [hfetch] at hf
    cases hf
    obtain ⟨c, hc⟩ := hshaped.exists_cjmp hi hcond
    obtain ⟨t, hlead, ht⟩ := ha.covering.cjmp_mem hb hc
    obtain ⟨arg, harg', haddr⟩ := ha.operand_of_cjmp hcond hc hlead ht
    rw [harg'] at harg
    cases harg
    rw [haddr, ← l.pointAddress_nil t] at hrest
    have hne : (g.block t).insns.toList ≠ [] := by simpa using hlead.insns_ne
    obtain ⟨v, hv, hpad⟩ := ih t [] _ _ _ (by simp) ht rfl (fun e => absurd e hne) hrest
    refine ⟨_, .taken hcond hc hlead hv, ?_⟩
    rw [visited_fetched]
    exact .keep _ hpad
  | passed hf hcond hrest =>
    rw [hfetch] at hf
    cases hf
    have hop : i.op ≠ .ret := by
      intro hop
      rw [hop] at hcond
      cases hcond
    obtain ⟨w', hw', hpad'⟩ := hslides.codeRuns_end hrest
    have hlen := hpad'.length_le
    obtain ⟨v, hv, hpad⟩ := ih b _ rest _ _ (by rw [List.length_cons]; omega) hb hsplit
      (hmore hop) hw'
    refine ⟨_, .passed hcond hv, ?_⟩
    rw [visited_fetched]
    exact .keep _ (hpad'.trans hpad)

/-- The graph follows the code. -/
theorem runs_of_codeRuns (ha : l.Assembles g entry code) (hshape : g.Shaped) (n : Nat) :
    ∀ b done rest outcomes w, w.length < n → b ∈ l.order.toList →
      (g.block b).insns.toList = done ++ rest → (rest = [] → ∃ c, (g.block b).jmp = some c) →
      CodeRuns code (l.pointAddress b done) outcomes w →
      ∃ v, g.Runs b rest outcomes v ∧ Padded w v := by
  induction n with
  | zero =>
    intro b done rest outcomes w hn
    cases hn
  | succ n ih =>
    intro b done rest outcomes w hn hb hi hend hw
    cases rest with
    | cons i rest =>
      refine runs_of_codeRuns_cons ha hshape hb hi hw ?_
      intro b' done' rest' outcomes' w' hlt
      exact ih b' done' rest' outcomes' w' (by omega)
    | nil =>
      -- at the end of a block, control first slides to a block with code
      obtain ⟨c, hc⟩ := hend rfl
      obtain ⟨t, hlead, ht⟩ := ha.covering.jmp_mem hb hc
      rw [List.append_nil] at hi
      rw [← hi] at hw
      obtain ⟨w', hw', hpad'⟩ := (ha.slides_end hb hc hlead ht).codeRuns_end hw
      have hlen := hpad'.length_le
      obtain ⟨i, rest, hne⟩ : ∃ i rest, (g.block t).insns.toList = [] ++ i :: rest := by
        have hne : (g.block t).insns.toList ≠ [] := by simpa using hlead.insns_ne
        exact List.exists_cons_of_ne_nil hne
      rw [← l.pointAddress_nil t] at hw'
      obtain ⟨v, hv, hpad⟩ := runs_of_codeRuns_cons ha hshape ht hne hw' fun b' done' rest'
        outcomes' w'' hlt => ih b' done' rest' outcomes' w'' (by omega)
      rw [List.nil_append] at hne
      rw [← hne] at hv
      exact ⟨v, .goOn hc hlead hv, hpad'.trans hpad⟩

end Simulation

/-- Code and graph visit the same instructions for all outcomes of the conditional jumps, apart from
`nop`s and jumps in the code. Exactly the blocks that can be reached from the entry are placed, each
once, and each stands at its address. -/
theorem layout_refines {g : BlockGraph} {entry : BlockId} {l : Layout} {start : Position}
    {a : Assembled} (hentry : entry < g.size) (hshape : g.Shaped)
    (hlayout : g.layout entry = .ok l) (hcode : l.assemble g start = .ok a) :
    (∀ outcomes v, g.Runs entry (g.block entry).insns.toList outcomes v →
      ∃ w, CodeRuns a.code 0 outcomes w ∧ Padded w v) ∧
    (∀ outcomes w, CodeRuns a.code 0 outcomes w →
      ∃ v, g.Runs entry (g.block entry).insns.toList outcomes v ∧ Padded w v) ∧
    l.order.toList.Nodup ∧ (∀ b, b ∈ l.order.toList ↔ g.Reached entry b) ∧
    a.code.toList = l.order.toList.flatMap (chunk g l) ∧
    (∀ pre b post, l.order.toList = pre ++ b :: post →
      l.address b = (pre.flatMap (chunk g l)).length) := by
  have ha := g.assembles hentry hlayout hcode
  have hmem := ha.covering.entry_mem
  have hstart : l.pointAddress entry [] = 0 := ha.address_entry
  refine ⟨?_, ?_, ha.covering.placing.nodup, ha.covering.mem_order_iff, ha.bytes, ha.address_eq⟩
  · intro outcomes v hv
    have hruns := codeRuns_of_runs ha hshape hv [] hmem (by simp)
    rwa [hstart] at hruns
  · intro outcomes w hw
    rw [← hstart] at hw
    refine runs_of_codeRuns ha hshape (w.length + 1) entry [] _ outcomes w (Nat.lt_succ_self _) hmem
      (by simp) ?_ hw
    -- an entry without code is no block that ends with a return
    intro hnil
    have hnone := (hshape entry hentry).jmp_isNone
    rw [hnil] at hnone
    exact Option.isSome_iff_exists.1 (by simpa using hnone)

/-- A loop that ends when its test is true; its other edge leads back through an empty block. -/
def loopGraph : BlockGraph :=
  #[{ insns := #[⟨.pushTrue, 0, .absent⟩, ⟨.cjmp, 0, .absent⟩], jmp := some 1, cjmp := some 2 },
    { jmp := some 0 },
    { insns := #[⟨.pushNone, 0, .absent⟩, ⟨.ret, 0, .absent⟩] }]

theorem layout_refines_loop : ∃ l a, loopGraph.layout 0 = .ok l ∧
    l.assemble loopGraph ⟨1, 1⟩ = .ok a ∧
    (∀ outcomes v, loopGraph.Runs 0 (loopGraph.block 0).insns.toList outcomes v →
      ∃ w, CodeRuns a.code 0 outcomes w ∧ Padded w v) ∧
    (∀ b, b ∈ l.order.toList ↔ loopGraph.Reached 0 b) := by
  have hshape : loopGraph.Shaped := by
    unfold BlockGraph.Shaped
    decide
  obtain ⟨l, a, hl, ha⟩ : ∃ l a, loopGraph.layout 0 = .ok l ∧
      l.assemble loopGraph ⟨1, 1⟩ = .ok a := ⟨_, _, rfl, by cbv⟩
  obtain ⟨hruns, -, -, hplaced, -⟩ := layout_refines (by decide) hshape hl ha
  exact ⟨l, a, hl, ha, hruns, hplaced⟩

end Starlark
