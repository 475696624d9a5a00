import Starlark.Proofs.Flow.Emission

/-!
# Graphs that can be laid out

A graph whose reached blocks lead to code, and whose depths agree along all edges and stay in range
(`BlockGraph.Balanced`), has a layout (`Balanced.layout`). The depths play no part in the order of
the blocks: the layout of the graph with nothing but single bytes for code, which needs no depths,
has the same order and size (`BlockGraph.size_eq_need`). If that size is below `2 ^ 28`, every
address fits into four bytes and the layout is assembled (`Layout.assemble_total`).
-/

set_option autoImplicit false

namespace Starlark

open BlockGraph (Leads Reached)
open Emit

/-- Depths at which the blocks of a graph can be entered. -/
structure BlockGraph.Balanced (g : BlockGraph) (entry : BlockId) (depth : BlockId → Int) :
    Prop where
  entry_depth : depth entry = 0
  jmp_led : ∀ {b c}, g.Reached entry b → (g.block b).jmp = some c → g.Led c
  cjmp_led : ∀ {b c}, g.Reached entry b → (g.block b).cjmp = some c → g.Led c
  nonneg : ∀ {b pre post}, g.Reached entry b → (g.block b).insns.toList = pre ++ post → pre ≠ [] →
    0 ≤ depth b + Insn.effects pre
  lt_limit : ∀ {b pre post}, g.Reached entry b → (g.block b).insns.toList = pre ++ post →
    pre ≠ [] → depth b + Insn.effects pre + Insn.iterating pre < 2 ^ 31
  jmp_depth : ∀ {b c t}, g.Reached entry b → (g.block b).jmp = some c → Leads g c t →
    depth t = depth b + Insn.effects (g.block b).insns.toList +
      Insn.iterating (g.block b).insns.toList
  cjmp_depth : ∀ {b c t}, g.Reached entry b → (g.block b).cjmp = some c → Leads g c t →
    depth t = depth b + Insn.effects (g.block b).insns.toList

namespace Layout

variable {g : BlockGraph} {entry : BlockId} {depth : BlockId → Int} {l l' : Layout}
  {work : List LayoutStep}

theorem code_total {id : BlockId} {is : List Insn} {depth it : Int} (l : Layout)
    (h : ∀ pre post, is = pre ++ post → pre ≠ [] → 0 ≤ depth + Insn.effects pre ∧
      depth + Insn.effects pre + (if pre.any (·.op = .iterJmp) then 1 else it) < 2 ^ 31) :
    ∃ r, code id depth it is l = .ok r := by
  -- on the block; the depth after each of its prefixes is within the limit
  induction is generalizing depth it l with
  | nil => exact ⟨_, rfl⟩
  | cons i is ih =>
    obtain ⟨h1, h2⟩ := h [i] is rfl (by simp)
    simp only [Insn.effects_cons, Insn.effects_nil, add_zero, List.any_cons, List.any_nil,
      Bool.or_false, decide_eq_true_eq] at h1 h2
    simp only [code]
    rw [if_neg (by omega)]
    refine ih _ fun pre post hpre hne => ?_
    obtain ⟨h3, h4⟩ := h (i :: pre) post (by rw [hpre]; rfl) (by simp)
    simp only [Insn.effects_cons, List.any_cons, Bool.or_eq_true, decide_eq_true_eq] at h3 h4
    refine ⟨by omega, ?_⟩
    by_cases hi : i.op = .iterJmp
    · simp only [hi, true_or, if_true] at h4
      simp only [hi, if_true, ite_self]
      omega
    · simp only [hi, false_or] at h4
      simp only [hi, if_false]
      omega

/-- While a balanced graph is laid out, blocks are entered at their depths only. -/
structure Balancing (g : BlockGraph) (entry : BlockId) (depth : BlockId → Int) (l : Layout)
    (work : List LayoutStep) : Prop where
  depth_size : l.depth.size = g.size
  mismatches : l.mismatches = 0
  known : ∀ b d, l.depth.getD b none = some d → d = depth b
  visit : ∀ id, .visit id ∈ work →
    g.Reached entry id ∧ (l.depth.getD id none).isSome = true
  branch : ∀ c d, .branch c d ∈ work → ∃ b, g.Reached entry b ∧ (g.block b).cjmp = some c ∧
    d = depth b + Insn.effects (g.block b).insns.toList

namespace Balancing

theorem of_subset {work' : List LayoutStep} (h : Balancing g entry depth l work)
    (hsub : work' ⊆ work) : Balancing g entry depth l work' where
  depth_size := h.depth_size
  mismatches := h.mismatches
  known := h.known
  visit := fun id hid => h.visit id (hsub hid)
  branch := fun c d hc => h.branch c d (hsub hc)

/-- A block may be entered at its depth. -/
theorem enter (h : Balancing g entry depth l work) {t : BlockId} (ht : t < g.size) :
    Balancing g entry depth (l.enter t (depth t)) work ∧
      ((l.enter t (depth t)).depth.getD t none).isSome = true := by
  have htl : t < l.depth.size := by rw [h.depth_size]; exact ht
  refine ⟨⟨?_, ?_, ?_, ?_, h.branch⟩, isSome_depth_enter htl⟩
  · rw [size_depth_enter, h.depth_size]
  -- a depth that is known is the same, so entering a block never finds a mismatch
  · cases he : l.depth.getD t none with
    | none => simpa only [Layout.enter, he] using h.mismatches
    | some d => simpa only [Layout.enter, he, h.known t d he, if_true] using h.mismatches
  · intro b d hd
    cases he : l.depth.getD t none with
    | none =>
      simp only [Layout.enter, he, Array.getD_eq_getD_getElem?, Array.getElem?_setIfInBounds] at hd
      by_cases hb : t = b
      · subst hb
        simpa [htl, eq_comm] using hd
      · rw [if_neg hb, ← Array.getD_eq_getD_getElem?] at hd
        exact h.known b d hd
    | some e =>
      simp only [Layout.enter, he, h.known t e he, if_true] at hd
      exact h.known b d hd
  · intro id hid
    exact ⟨(h.visit id hid).1, (depthsKept_enter l t (depth t)).isSome (h.visit id hid).2⟩

theorem depthOf_eq (h : Balancing g entry depth l work) {id : BlockId} (hid : .visit id ∈ work) :
    l.depthOf id = depth id := by
  obtain ⟨d, hd⟩ := Option.isSome_iff_exists.1 (h.visit id hid).2
  rw [depthOf, hd]
  exact h.known id d hd

/-- The target of a conditional jump is found, and entered at its depth. -/
theorem of_branch (hg : g.Balanced entry depth) {c : BlockId} {d : Int} {rest : List LayoutStep}
    (h : Balancing g entry depth l (.branch c d :: rest)) :
    ∃ t, g.target c = .ok t ∧ Balancing g entry depth (l.enter t d) (.visit t :: rest) := by
  obtain ⟨b, hb, hc, hd⟩ := h.branch c d List.mem_cons_self
  obtain ⟨t, hlead⟩ := hg.cjmp_led hb hc
  have hdt : d = depth t := by rw [hd, hg.cjmp_depth hb hc hlead]
  subst hdt
  obtain ⟨h', hsome⟩ := h.enter hlead.target_lt
  refine ⟨t, BlockGraph.target_eq_ok_iff.2 hlead, h'.depth_size, h'.mismatches, h'.known, ?_, ?_⟩
  · intro id hid
    rcases List.mem_cons.1 hid with he | hid
    · cases he
      exact ⟨hb.cjmp hc hlead, hsome⟩
    · exact h'.visit id (List.mem_cons_of_mem _ hid)
  · intro c' d' hc'
    rcases List.mem_cons.1 hc' with he | hc'
    · cases he
    · exact h'.branch c' d' (List.mem_cons_of_mem _ hc')

/-- The next block is found. -/
theorem pick_total (hg : g.Balanced entry depth) (h : Balancing g entry depth l work) :
    ∃ l' next, pick g l work = .ok (l', next) ∧
      match next with
      | none => l'.mismatches = 0
      | some (id, rest) => Balancing g entry depth l' (.visit id :: rest) := by
  -- on the worklist; a branch always leads somewhere
  induction work generalizing l with
  | nil => exact ⟨l, none, rfl, h.mismatches⟩
  | cons s rest ih =>
    cases s with
    | visit id =>
      simp only [pick]
      split
      · exact ih (h.of_subset (List.subset_cons_self _ _))
      · exact ⟨l, some (id, rest), rfl, h⟩
    | branch c d =>
      obtain ⟨t, ht, h'⟩ := h.of_branch hg
      simp only [pick, ht, bind, Except.bind]
      split
      · exact ih (h'.of_subset (List.subset_cons_self _ _))
      · exact ⟨_, some (t, rest), rfl, h'⟩

/-- The next block is placed. -/
theorem extend_total (hg : g.Balanced entry depth) {id : BlockId} {rest : List LayoutStep}
    (h : Balancing g entry depth l (.visit id :: rest)) :
    ∃ l' next, extend g l id = .ok (l', next) ∧ Balancing g entry depth l' (next ++ rest) := by
  obtain ⟨hreach, -⟩ := h.visit id List.mem_cons_self
  have hdepth : (l.depth.getD id none).getD 0 = depth id := h.depthOf_eq List.mem_cons_self
  obtain ⟨⟨after, it, l1⟩, hcode⟩ :
      ∃ r, code id (depth id) 0 (g.block id).insns.toList (l.put id) = .ok r := by
    apply code_total
    intro pre post hpre hne
    exact ⟨hg.nonneg hreach hpre hne, hg.lt_limit hreach hpre hne⟩
  obtain ⟨rfl, hit, hl1, -⟩ := code_eq_ok hcode
  have hit : it = Insn.iterating (g.block id).insns.toList := hit
  -- putting the block into place changes no depth; its branch is the only step that it adds
  have hl1 : Balancing g entry depth l1
      (later (g.block id) (depth id + Insn.effects (g.block id).insns.toList) ++ rest) := by
    have hd : l1.depth = l.depth := by rw [hl1]; rfl
    have hm : l1.mismatches = l.mismatches := by rw [hl1]; rfl
    refine ⟨by rw [hd, h.depth_size], by rw [hm, h.mismatches], by rw [hd]; exact h.known, ?_, ?_⟩
    · intro t ht
      rw [hd]
      refine h.visit t (List.mem_cons_of_mem _ ?_)
      rcases List.mem_append.1 ht with ht | ht
      · obtain ⟨c, -, he⟩ := mem_later.1 ht
        cases he
      · exact ht
    · intro c d hc
      rcases List.mem_append.1 hc with hc | hc
      · obtain ⟨t, ht, he⟩ := mem_later.1 hc
        cases he
        exact ⟨id, hreach, ht, rfl⟩
      · exact h.branch c d (List.mem_cons_of_mem _ hc)
  simp only [extend, hdepth, hcode, bind, Except.bind]
  cases hj : (g.block id).jmp with
  | none => exact ⟨_, _, rfl, hl1⟩
  | some c =>
    obtain ⟨t, hlead⟩ := hg.jmp_led hreach hj
    -- the block and its jump agree about the depth, so entering the target is no mismatch
    have hdt : depth id + Insn.effects (g.block id).insns.toList + it = depth t := by
      rw [hit, hg.jmp_depth hreach hj hlead]
    obtain ⟨h', hsome⟩ := hl1.enter hlead.target_lt
    simp only [BlockGraph.target_eq_ok_iff.2 hlead, hdt]
    split
    · exact ⟨_, _, rfl, h'.depth_size, h'.mismatches, h'.known, h'.visit, h'.branch⟩
    · refine ⟨_, _, rfl, h'.depth_size, h'.mismatches, h'.known, ?_, ?_⟩
      · intro u hu
        rcases List.mem_cons.1 hu with he | hu
        · cases he
          exact ⟨hreach.jmp hj hlead, hsome⟩
        · exact h'.visit u hu
      · intro c' d hc
        rcases List.mem_cons.1 hc with he | hc
        · cases he
        · exact h'.branch c' d hc

theorem run_total (hg : g.Balanced entry depth) {rounds : Nat}
    (h : Balancing g entry depth l work) :
    ∃ l', run g rounds l work = .ok l' ∧ l'.mismatches = 0 := by
  induction rounds generalizing l work with
  | zero => exact ⟨l, rfl, h.mismatches⟩
  | succ rounds ih =>
    obtain ⟨l1, next, hpick, h1⟩ := h.pick_total hg
    simp only [run, hpick, bind, Except.bind]
    cases next with
    | none => exact ⟨l1, rfl, h1⟩
    | some p =>
      obtain ⟨id, rest⟩ := p
      obtain ⟨l2, todo, hext, h2⟩ := h1.extend_total hg
      simp only [hext]
      exact ih h2

end Balancing

end Layout

/-- A balanced graph has a layout. -/
theorem BlockGraph.Balanced.layout {g : BlockGraph} {entry : BlockId} {depth : BlockId → Int}
    (hg : g.Balanced entry depth) (hentry : entry < g.size) : ∃ l, g.layout entry = .ok l := by
  have h : Layout.Balancing g entry depth (Layout.empty g.size) [] := by
    refine ⟨by simp [Layout.empty], rfl, fun b d hd => ?_, by simp, by simp⟩
    simp only [Layout.empty, Array.getD_eq_getD_getElem?, Array.getElem?_replicate] at hd
    split at hd <;> cases hd
  obtain ⟨h', hsome⟩ := h.enter hentry
  rw [hg.entry_depth] at h' hsome
  obtain ⟨l, hrun, hm⟩ : ∃ l, Layout.run g (g.size + 1) ((Layout.empty g.size).enter entry 0)
      [.visit entry] = .ok l ∧ l.mismatches = 0 := by
    apply Layout.Balancing.run_total hg
    refine ⟨h'.depth_size, h'.mismatches, h'.known, fun id hid => ?_, by simp⟩
    simp only [List.mem_cons, LayoutStep.visit.injEq, List.not_mem_nil, or_false] at hid
    subst hid
    exact ⟨.entry, hsome⟩
  refine ⟨l, ?_⟩
  simp [BlockGraph.layout, hrun, hm, bind, Except.bind]

/-! ## Bytes -/

namespace Insn

theorem size_pos (i : Insn) : 0 < i.size := by
  unfold size
  split
  · exact Nat.succ_pos _
  · split
    · exact Nat.lt_of_lt_of_le Nat.one_pos (Nat.le_add_right _ _)
    · exact Nat.one_pos

theorem length_le_sizes (is : List Insn) : is.length ≤ sizes is := by
  induction is with
  | nil => exact Nat.le_refl _
  | cons i is ih =>
    have := i.size_pos
    rw [List.length_cons, sizes_cons]
    omega

end Insn

/-- A block with single bytes for code. -/
def Block.flat (k : Block) : Block :=
  { k with insns := Array.replicate (Insn.sizes k.insns.toList) ⟨.nop, 0, .absent⟩ }

theorem Block.insns_flat_eq_empty_iff (k : Block) : k.flat.insns = #[] ↔ k.insns = #[] := by
  have h := Insn.length_le_sizes k.insns.toList
  rw [Array.length_toList] at h
  rw [← Array.size_eq_zero_iff, ← Array.size_eq_zero_iff, Block.flat, Array.size_replicate]
  constructor
  · omega
  · intro he
    rw [Array.size_eq_zero_iff.1 he]
    rfl

namespace BlockGraph

/-- A graph with single bytes for code. -/
def flat (g : BlockGraph) : BlockGraph := g.map Block.flat

/-- The number of bytes of code that a graph needs, entered at its first block. It does not depend
on the depths of the stack. -/
def need (g : BlockGraph) : Nat :=
  match g.flat.layout 0 with
  | .ok l => l.size
  | .error _ => 0

variable {g : BlockGraph} {entry : BlockId}

@[simp] theorem size_flat (g : BlockGraph) : g.flat.size = g.size := Array.size_map

@[simp] theorem block_flat (g : BlockGraph) (b : BlockId) : g.flat.block b = (g.block b).flat := by
  simp only [flat, block, Array.getD_eq_getD_getElem?, Array.getElem?_map]
  cases g[b]? with
  | none => rfl
  | some k => rfl

theorem jmp_flat (g : BlockGraph) (b : BlockId) : (g.flat.block b).jmp = (g.block b).jmp := by
  rw [block_flat]
  rfl

theorem cjmp_flat (g : BlockGraph) (b : BlockId) : (g.flat.block b).cjmp = (g.block b).cjmp := by
  rw [block_flat]
  rfl

theorem leads_flat_iff {b t : BlockId} : Leads g.flat b t ↔ Leads g b t := by
  constructor
  · intro h
    induction h with
    | here hb =>
      rw [block_flat, ne_eq, Block.insns_flat_eq_empty_iff] at hb
      exact .here hb
    | skip hb hj _ ih =>
      rw [block_flat, Block.insns_flat_eq_empty_iff] at hb
      rw [block_flat] at hj
      exact .skip hb hj ih
  · intro h
    induction h with
    | here hb => exact .here (by rwa [block_flat, ne_eq, Block.insns_flat_eq_empty_iff])
    | skip hb hj _ ih =>
      exact .skip (by rwa [block_flat, Block.insns_flat_eq_empty_iff]) (by rwa [block_flat]) ih

theorem reached_flat_iff {b : BlockId} : g.flat.Reached entry b ↔ g.Reached entry b := by
  constructor
  · intro h
    induction h with
    | entry => exact .entry
    | jmp _ hj hl ih => exact ih.jmp (by rwa [block_flat] at hj) (leads_flat_iff.1 hl)
    | cjmp _ hj hl ih => exact ih.cjmp (by rwa [block_flat] at hj) (leads_flat_iff.1 hl)
  · intro h
    induction h with
    | entry => exact .entry
    | jmp _ hj hl ih => exact ih.jmp (by rwa [block_flat]) (leads_flat_iff.2 hl)
    | cjmp _ hj hl ih => exact ih.cjmp (by rwa [block_flat]) (leads_flat_iff.2 hl)

theorem sizes_replicate_nop (n : Nat) :
    Insn.sizes (List.replicate n ⟨.nop, 0, .absent⟩) = n := by
  induction n with
  | zero => rfl
  | succ n ih =>
    rw [List.replicate_succ, Insn.sizes_cons, ih, Nat.add_comm]
    rfl

@[simp] theorem codeSize_flat (b : BlockId) : g.flat.codeSize b = g.codeSize b := by
  rw [codeSize, block_flat, Block.flat, Array.toList_replicate, sizes_replicate_nop, codeSize]

/-- Single bytes do nothing to the stack. -/
theorem effects_flat {b : BlockId} {pre post : List Insn}
    (h : (g.flat.block b).insns.toList = pre ++ post) :
    Insn.effects pre = 0 ∧ Insn.iterating pre = 0 := by
  rw [block_flat, Block.flat, Array.toList_replicate] at h
  have hpre : ∀ i ∈ pre, i = ⟨.nop, 0, .absent⟩ := fun i hi =>
    List.eq_of_mem_replicate (h ▸ List.mem_append_left post hi)
  constructor
  · clear h
    induction pre with
    | nil => rfl
    | cons i pre ih =>
      rw [Insn.effects_cons, ih fun j hj => hpre j (List.mem_cons_of_mem _ hj),
        hpre i List.mem_cons_self]
      rfl
  · rw [Insn.iterating, if_neg]
    simp only [List.any_eq_true, not_exists, not_and, decide_eq_true_eq]
    intro i hi hop
    rw [hpre i hi] at hop
    cases hop

/-- Without depths it is enough that jumps lead to code. -/
theorem balanced_flat
    (hjmp : ∀ {b c}, g.Reached entry b → (g.block b).jmp = some c → g.Led c)
    (hcjmp : ∀ {b c}, g.Reached entry b → (g.block b).cjmp = some c → g.Led c) :
    g.flat.Balanced entry fun _ => 0 where
  entry_depth := rfl
  jmp_led := fun hb hj => by
    obtain ⟨t, ht⟩ := hjmp (reached_flat_iff.1 hb) (by rwa [block_flat] at hj)
    exact ⟨t, leads_flat_iff.2 ht⟩
  cjmp_led := fun hb hj => by
    obtain ⟨t, ht⟩ := hcjmp (reached_flat_iff.1 hb) (by rwa [block_flat] at hj)
    exact ⟨t, leads_flat_iff.2 ht⟩
  -- without its instructions the graph keeps the depth at zero throughout
  nonneg := fun _ h _ => by rw [(effects_flat h).1]; decide
  lt_limit := fun _ h _ => by rw [(effects_flat h).1, (effects_flat h).2]; decide
  jmp_depth := fun {b} _ _ _ _ _ => by
    obtain ⟨h1, h2⟩ := effects_flat (g := g) (b := b) (List.append_nil _).symm
    rw [h1, h2]
    rfl
  cjmp_depth := fun {b} _ _ _ _ _ => by
    rw [(effects_flat (g := g) (b := b) (List.append_nil _).symm).1]
    rfl

end BlockGraph

namespace Layout

variable {g : BlockGraph} {l l' m m' : Layout}

/-- Two layouts that differ in the depths only. -/
structure Alike (l l' : Layout) : Prop where
  order : l.order = l'.order
  place : l.place = l'.place
  addr : l.addr = l'.addr
  size : l.size = l'.size

/-- What is to do, without the depths. -/
def bare : LayoutStep → LayoutStep
  | .visit id => .visit id
  | .branch id _ => .branch id 0

theorem Alike.enter (h : Alike l l') (t t' : BlockId) (d d' : Int) :
    Alike (l.enter t d) (l'.enter t' d') :=
  ⟨by simpa using h.order, by simpa using h.place, by simpa using h.addr, by simpa using h.size⟩

theorem Alike.isPlaced (h : Alike l l') (t : BlockId) : l.isPlaced t = l'.isPlaced t := by
  rw [Layout.isPlaced, Layout.isPlaced, h.place]

theorem alike_pick {work work' : List LayoutStep} {next next' : Option (BlockId × List LayoutStep)}
    (h : Alike l l') (hw : work.map bare = work'.map bare) (hp : pick g l work = .ok (m, next))
    (hp' : pick g.flat l' work' = .ok (m', next')) :
    Alike m m' ∧ next.map (fun p => (p.1, p.2.map bare)) =
      next'.map (fun p => (p.1, p.2.map bare)) := by
  -- both lists are worked off in step; depths differ, but decide nothing
  induction work generalizing l l' work' with
  | nil =>
    rw [List.map_nil, eq_comm, List.map_eq_nil_iff] at hw
    subst hw
    cases hp
    cases hp'
    exact ⟨h, rfl⟩
  | cons s rest ih =>
    cases work' with
    | nil => cases hw
    | cons s' rest' =>
      simp only [List.map_cons, List.cons.injEq] at hw
      obtain ⟨hs, hrest⟩ := hw
      cases s with
      | visit id =>
        cases s' with
        | branch _ _ => cases hs
        | visit id' =>
          cases hs
          simp only [pick, h.isPlaced] at hp hp'
          split at hp
          · rename_i hpl
            rw [if_pos hpl] at hp'
            exact ih h hrest hp hp'
          · rename_i hpl
            rw [if_neg hpl] at hp'
            cases hp
            cases hp'
            exact ⟨h, by simpa using hrest⟩
      | branch c d =>
        cases s' with
        | visit _ => cases hs
        | branch c' d' =>
          cases hs
          simp only [pick, bind, Except.bind] at hp hp'
          split at hp
          · cases hp
          rename_i t ht
          split at hp'
          · cases hp'
          rename_i t' ht'
          -- a block without instructions leads where it led before
          have htt : t = t' := (BlockGraph.target_eq_ok_iff.1 ht).unique
            (BlockGraph.leads_flat_iff.1 (BlockGraph.target_eq_ok_iff.1 ht'))
          subst htt
          have he := h.enter t t d d'
          simp only [he.isPlaced] at hp
          split at hp
          · rename_i hpl
            rw [if_pos hpl] at hp'
            exact ih he hrest hp hp'
          · rename_i hpl
            rw [if_neg hpl] at hp'
            cases hp
            cases hp'
            exact ⟨he, by simpa using hrest⟩

theorem alike_extend {id : BlockId} {next next' : List LayoutStep} (h : Alike l l')
    (he : extend g l id = .ok (m, next)) (he' : extend g.flat l' id = .ok (m', next')) :
    Alike m m' ∧ next.map bare = next'.map bare := by
  obtain ⟨most, -, -, hx⟩ := extend_eq_ok he
  obtain ⟨most', -, -, hx'⟩ := extend_eq_ok he'
  have hplaced : Alike (placed g l id most) (placed g.flat l' id most') :=
    ⟨by simp [placed, put, h.order], by simp [placed, put, h.place, h.order],
      by simp [placed, put, h.addr, h.size], by simp [placed, h.size]⟩
  have hlater : ∀ d d', (later (g.block id) d).map bare =
      (later (g.flat.block id) d').map bare := by
    intro d d'
    simp only [later, BlockGraph.cjmp_flat]
    split <;> rfl
  have hsize : l.size + g.codeSize id + 5 = l'.size + g.flat.codeSize id + 5 := by
    rw [BlockGraph.codeSize_flat, h.size]
  have hsame : ∀ {c c' t t' : BlockId}, (g.block id).jmp = some c →
      (g.flat.block id).jmp = some c' → Leads g c t → Leads g.flat c' t' → t = t' := by
    intro c c' t t' hj hj' ht ht'
    rw [BlockGraph.jmp_flat, hj] at hj'
    cases hj'
    exact ht.unique (BlockGraph.leads_flat_iff.1 ht')
  -- both blocks end the same way, since they have one successor and agree on what is placed
  cases hx with
  | ends hj =>
    rw [← BlockGraph.jmp_flat] at hj
    cases hx' with
    | ends _ => exact ⟨hplaced, hlater _ _⟩
    | jumps hj' _ _ | falls hj' _ _ => rw [hj] at hj'; cases hj'
  | @jumps c t hj ht hp =>
    cases hx' with
    | ends hj' => rw [BlockGraph.jmp_flat, hj] at hj'; cases hj'
    | jumps hj' ht' _ =>
      obtain rfl := hsame hj hj' ht ht'
      have henter := hplaced.enter t t
      exact ⟨⟨(henter _ _).order, (henter _ _).place, (henter _ _).addr, hsize⟩, hlater _ _⟩
    | falls hj' ht' hp' =>
      obtain rfl := hsame hj hj' ht ht'
      rw [hplaced.isPlaced, hp'] at hp
      cases hp
  | @falls c t hj ht hp =>
    cases hx' with
    | ends hj' => rw [BlockGraph.jmp_flat, hj] at hj'; cases hj'
    | jumps hj' ht' hp' =>
      obtain rfl := hsame hj hj' ht ht'
      rw [hplaced.isPlaced, hp'] at hp
      cases hp
    | falls hj' ht' _ =>
      obtain rfl := hsame hj hj' ht ht'
      refine ⟨hplaced.enter t t _ _, ?_⟩
      rw [List.map_cons, List.map_cons, hlater]

theorem alike_run {rounds : Nat} {work work' : List LayoutStep} (h : Alike l l')
    (hw : work.map bare = work'.map bare) (hr : run g rounds l work = .ok m)
    (hr' : run g.flat rounds l' work' = .ok m') : Alike m m' := by
  induction rounds generalizing l l' work work' with
  | zero =>
    cases hr
    cases hr'
    exact h
  | succ rounds ih =>
    obtain hp | ⟨l1, id, rest, l2, todo, hp, hx, hrun⟩ := run_succ_eq_ok hr <;>
      obtain hp' | ⟨l1', id', rest', l2', todo', hp', hx', hrun'⟩ := run_succ_eq_ok hr'
    · exact (alike_pick h hw hp hp').1
    -- one run cannot be at its end before the other
    · cases (alike_pick h hw hp hp').2
    · cases (alike_pick h hw hp hp').2
    · obtain ⟨h1, hn⟩ := alike_pick h hw hp hp'
      simp only [Option.map_some, Option.some.injEq, Prod.mk.injEq] at hn
      obtain ⟨rfl, hrest⟩ := hn
      obtain ⟨h2, ht⟩ := alike_extend h1 hx hx'
      exact ih h2 (by simp [ht, hrest]) hrun hrun'

end Layout

namespace BlockGraph

variable {g : BlockGraph} {entry : BlockId} {l : Layout}

/-- The layout of a graph has the size that the graph needs. -/
theorem size_eq_need {l' : Layout} (h : g.layout 0 = .ok l) (h' : g.flat.layout 0 = .ok l') :
    l.size = g.need := by
  have hr := (layout_eq_ok h).1
  have hr' := (layout_eq_ok h').1
  rw [Layout.initial, size_flat] at hr'
  have hal := Layout.alike_run (l := (Layout.empty g.size).enter 0 0)
      ⟨rfl, rfl, rfl, rfl⟩ rfl hr hr'
  rw [need, h', hal.size]

end BlockGraph

/-! ## Assembling -/

section Assemble

variable {g : BlockGraph} {entry : BlockId} {l : Layout}

theorem length_operand {addr : Nat} (h : addr < 2 ^ 28) :
    (operand (UInt32.ofNat addr) 4).length = 4 := by
  have htoNat : (UInt32.ofNat addr).toNat = addr := UInt32.toNat_ofNat_of_lt' (by
    show addr < 2 ^ 32
    omega)
  have hlen : (Leb128.encode addr).length ≤ 4 := Leb128.length_encode_le_iff.2 (by
    simpa using h)
  simp only [operand, htoNat, List.length_append, List.length_replicate]
  omega

theorem Layout.Covering.address_lt (h : Covering g entry l []) (hsize : l.size < 2 ^ 28)
    {b : BlockId} (hb : b ∈ l.order.toList) : l.address b < 2 ^ 28 := by
  obtain ⟨pre, post, hpre⟩ := List.append_of_mem hb
  have hplanned : l.size = g.planned l.order.toList none := h.placing.size_eq
  rw [hpre, BlockGraph.planned_append_cons] at hplanned
  rw [h.placing.address_eq pre b post hpre]
  omega

/-- The bytes of a placed block are as many as were planned. -/
theorem length_flatMap_eq_sizes {is : List Insn} {f : Insn → List UInt8}
    (h : ∀ i ∈ is, (f i).length = i.size) : (is.flatMap f).length = Insn.sizes is := by
  induction is with
  | nil => rfl
  | cons i is ih =>
    obtain ⟨hi, his⟩ := List.forall_mem_cons.1 h
    rw [List.flatMap_cons, List.length_append, Insn.sizes_cons, hi, ih his]

theorem Layout.Covering.length_chunk (h : Covering g entry l []) (hsize : l.size < 2 ^ 28)
    (hcjmp : ∀ b ∈ l.order.toList, ∀ i ∈ (g.block b).insns.toList, i.op.isCondJump = true →
      ∃ c, (g.block b).cjmp = some c)
    {pre post : List BlockId} {b : BlockId} (hb : l.order.toList = pre ++ b :: post) :
    (chunk g l b).length = g.codeSize b + g.jumpSize b post.head? := by
  have hmem : b ∈ l.order.toList := by simp [hb]
  rw [chunk, List.length_append]
  congr 1
  · have hinsn : ∀ i ∈ (g.block b).insns.toList,
        (insnBytes (resolve (branchAddress g l b) i)).length = i.size := by
      intro i hi
      rw [length_insnBytes, op_resolve, size_resolve]
      split
      · rename_i hop
        obtain ⟨c, hc⟩ := hcjmp b hmem i hi hop
        -- only a conditional jump changes when it is resolved, and its operand is padded to four
        -- bytes
        obtain ⟨t, hlead, ht⟩ := h.cjmp_mem hmem hc
        have hlen := length_operand (h.address_lt hsize ht)
        simp only [branchAddress, hc, Option.bind_some, BlockGraph.target_eq_ok_iff.2 hlead,
          Except.toOption, Option.map_some, resolve, hop, if_true, Insn.size]
        simp only [operand, List.length_append, List.length_replicate] at hlen
        omega
      · rfl
    rw [BlockGraph.codeSize, resolved, List.flatMap_map]
    exact length_flatMap_eq_sizes hinsn
  · rw [jumpBytes, BlockGraph.jumpSize]
    cases hj : (g.block b).jmp with
    | none => rfl
    | some c =>
      obtain ⟨t, hlead, ht⟩ := h.jmp_mem hmem hj
      simp only [BlockGraph.target_eq_ok_iff.2 hlead, Except.toOption,
        h.placing.place_eq_succ_iff hb, eq_comm (a := some t)]
      split
      · rfl
      · rw [List.length_cons, length_operand (h.address_lt hsize ht)]

theorem Layout.Covering.length_chunks (h : Covering g entry l []) (hsize : l.size < 2 ^ 28)
    (hcjmp : ∀ b ∈ l.order.toList, ∀ i ∈ (g.block b).insns.toList, i.op.isCondJump = true →
      ∃ c, (g.block b).cjmp = some c)
    {pre bs : List BlockId} (hb : l.order.toList = pre ++ bs) :
    (bs.flatMap (chunk g l)).length = g.planned bs none := by
  induction bs generalizing pre with
  | nil => rfl
  | cons b bs ih =>
    have hfirst := h.length_chunk hsize hcjmp hb
    have hsplit : l.order.toList = (pre ++ [b]) ++ bs := by simpa using hb
    have hrest := ih hsplit
    rw [List.flatMap_cons, List.length_append, hfirst, hrest]
    cases bs with
    | nil => simp [BlockGraph.planned]
    | cons c bs => simp [BlockGraph.planned]

/-- A placed block can be written. -/
theorem Layout.Covering.block_total (h : Covering g entry l []) {b : BlockId}
    (hb : b ∈ l.order.toList) (o : Output) : ∃ o', block g l o b = .ok o' := by
  -- emission can only fail where a branch leads nowhere, and every branch of a placed block leads
  -- to one that is placed
  have hending : ∀ o, ∃ o', ending g l b o = .ok o' := by
    intro o
    cases hj : (g.block b).jmp with
    | none => exact ⟨o, by simp only [ending, hj]⟩
    | some c =>
      obtain ⟨t, hlead, -⟩ := h.jmp_mem hb hj
      simp only [ending, hj, BlockGraph.target_eq_ok_iff.2 hlead, bind, Except.bind]
      split
      · exact ⟨_, rfl⟩
      · exact ⟨_, rfl⟩
  cases hc : (g.block b).cjmp with
  | none =>
    obtain ⟨o', ho'⟩ := hending (((g.block b).insns.toList.map (resolve none)).foldl insn o)
    refine ⟨o', ?_⟩
    simp only [block, hc]
    exact ho'
  | some c =>
    obtain ⟨t, hlead, -⟩ := h.cjmp_mem hb hc
    obtain ⟨o', ho'⟩ := hending
      (((g.block b).insns.toList.map (resolve (some (l.address t)))).foldl insn o)
    refine ⟨o', ?_⟩
    simp only [block, hc, BlockGraph.target_eq_ok_iff.2 hlead]
    exact ho'

theorem Layout.Covering.blocks_total (h : Covering g entry l []) {bs : List BlockId}
    (hbs : bs ⊆ l.order.toList) (o : Output) : ∃ o', bs.foldlM (block g l) o = .ok o' := by
  induction bs generalizing o with
  | nil => exact ⟨o, rfl⟩
  | cons b bs ih =>
    obtain ⟨o1, ho1⟩ := h.block_total (hbs List.mem_cons_self) o
    rw [List.foldlM_cons, ho1]
    exact ih (fun x hx => hbs (List.mem_cons_of_mem _ hx)) o1

/-- A layout of less than `2 ^ 28` bytes can be assembled. -/
theorem Layout.assemble_total (h : Covering g entry l []) (hsize : l.size < 2 ^ 28)
    (hcjmp : ∀ b ∈ l.order.toList, ∀ i ∈ (g.block b).insns.toList, i.op.isCondJump = true →
      ∃ c, (g.block b).cjmp = some c) (start : Position) :
    ∃ a, l.assemble g start = .ok a := by
  obtain ⟨o, ho⟩ := h.blocks_total (List.Subset.refl _) {}
  have hlen : o.code.size = l.size % 0x100000000 := by
    have hbytes := toList_code_blocks ho
    have hplanned : l.size = g.planned l.order.toList none := h.placing.size_eq
    rw [← Array.length_toList, hbytes, List.length_append,
      h.length_chunks hsize hcjmp (List.nil_append _).symm, ← hplanned, Nat.mod_eq_of_lt (by omega)]
    simp
  refine ⟨⟨o.code, LineTable.encode start o.rows.toList, UInt32.ofNat l.maxStack.toNat⟩, ?_⟩
  simp only [assemble, ho, bind, Except.bind]
  rw [if_pos hlen]

end Assemble

end Starlark
