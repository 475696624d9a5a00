import Starlark.Proofs.Lower.Validity

/-!
# The depths of a layout

A layout computes the depth of the operand stack at every point of the placed blocks
(`Layout.levelAt`). It never exceeds the recorded maximum, and in a typed graph it is the depth that
the types say (`Annotates.depth_eq`): also where counts are taken modulo `2 ^ 32`, since the
elements of an unpacking stand at as many different depths.
-/

set_option autoImplicit false

namespace Starlark

open BlockGraph (Leads)
open Layout (Depths exitDepth contDepth)

/-! ## The range of depths -/

namespace Layout

variable {g : BlockGraph} {l : Layout}

/-- The depth that a layout computes for a point. -/
def levelAt (l : Layout) (g : BlockGraph) (p : Point) : Int :=
  l.depthOf p.block + Insn.effects ((g.block p.block).insns.toList.take p.index)

@[simp] theorem levelAt_start (l : Layout) (g : BlockGraph) (b : Nat) :
    l.levelAt g ⟨b, 0⟩ = l.depthOf b := by
  simp [levelAt]

/-- An instruction changes the level by its effect. -/
theorem levelAt_next {p : Point} {op : Opcode} {arg : UInt32} (h : g.InsnAt p op arg) :
    l.levelAt g p.next = l.levelAt g p + op.stackEffect arg := by
  obtain ⟨pos, h⟩ := h
  rw [← Array.getElem?_toList] at h
  simp only [levelAt, Point.next, List.take_add_one, h, Option.toList, Insn.effects_append,
    Insn.effects_cons, Insn.effects_nil, Insn.stackEffect]
  omega

/-- The depth at the exit is the level behind the last instruction. -/
theorem exitDepth_eq (g : BlockGraph) (l : Layout) (b : Nat) :
    exitDepth g l b = l.levelAt g ⟨b, (g.block b).insns.size⟩ := by
  rw [exitDepth, levelAt, List.take_of_length_le (Nat.le_of_eq Array.length_toList)]

theorem iterating_nonneg (is : List Insn) : 0 ≤ Insn.iterating is := by
  unfold Insn.iterating
  split <;> decide

/-- A depth that is reached within a block, after an instruction at least. -/
theorem levelAt_mem (h : Depths g 0 l []) {b k : Nat} (hb : b ∈ l.order.toList) (hk : 0 < k)
    (hle : k ≤ (g.block b).insns.size) :
    0 ≤ l.levelAt g ⟨b, k⟩ ∧
      l.levelAt g ⟨b, k⟩ + Insn.iterating ((g.block b).insns.toList.take k) ≤ l.maxStack := by
  have hw := h.within b hb
  have hsplit := (List.take_append_drop k (g.block b).insns.toList).symm
  have hne : (g.block b).insns.toList.take k ≠ [] := by
    rw [← List.length_pos_iff, List.length_take, Array.length_toList]
    omega
  exact ⟨hw.nonneg _ _ hsplit hne, hw.le_most _ _ hsplit hne⟩

/-- At the end of a placed block the stack is as deep as the layout allows, also where an iterator
has pushed an element. -/
theorem contDepth_mem (h : Depths g 0 l []) {b : Nat} (hb : b ∈ l.order.toList)
    (hstart : 0 ≤ l.depthOf b ∧ l.depthOf b ≤ l.maxStack) :
    0 ≤ exitDepth g l b ∧ contDepth g l b ≤ l.maxStack := by
  rcases Nat.eq_zero_or_pos (g.block b).insns.size with h0 | hpos
  · have hnil : (g.block b).insns.toList = [] := by
      rw [← List.length_eq_zero_iff, Array.length_toList, h0]
    rw [contDepth, exitDepth, hnil, Insn.effects_nil, Int.add_zero]
    exact ⟨hstart.1, by simpa [Insn.iterating] using hstart.2⟩
  · obtain ⟨h1, h2⟩ := levelAt_mem h hb hpos (Nat.le_refl _)
    rw [← exitDepth_eq] at h1 h2
    rw [List.take_of_length_le (Nat.le_of_eq Array.length_toList)] at h2
    exact ⟨h1, h2⟩

/-- A depth that an edge gives a block. -/
theorem depthOf_eq_of_some {b : Nat} {d : Int} (h : l.depth.getD b none = some d) :
    l.depthOf b = d := by
  rw [depthOf, h]
  rfl

/-- A branch comes in at the depth of the exit. -/
theorem cjmp_depth_eq (h : Depths g 0 l []) (hm : l.mismatches = 0) {b c t : Nat}
    (hb : b ∈ l.order.toList) (hj : (g.block b).cjmp = some c) (hlead : Leads g c t) :
    l.depthOf t = exitDepth g l b := by
  rcases h.cjmp_depth hm b hb c hj with hmem | hall
  · cases hmem
  · exact depthOf_eq_of_some (hall t hlead)

/-- Falling through comes in at the depth of the continuation. -/
theorem jmp_depth_eq (h : Depths g 0 l []) (hm : l.mismatches = 0) {b c t : Nat}
    (hb : b ∈ l.order.toList) (hj : (g.block b).jmp = some c) (hlead : Leads g c t) :
    l.depthOf t = contDepth g l b :=
  depthOf_eq_of_some (h.jmp_depth hm b hb c t hj hlead)

/-- Blocks are entered at depths within the range. -/
theorem depthOf_mem (h : Depths g 0 l []) (hm : l.mismatches = 0) (hcover : Covering g 0 l [])
    (hmax : 0 ≤ l.maxStack) {b : Nat} (hb : g.Reached 0 b) :
    0 ≤ l.depthOf b ∧ l.depthOf b ≤ l.maxStack := by
  induction hb with
  | entry =>
    rw [depthOf_eq_of_some h.entry_depth]
    exact ⟨Int.le_refl _, hmax⟩
  | @jmp b c t hr hj hlead ih =>
    have hb := (hcover.mem_order_iff b).2 hr
    obtain ⟨h1, h2⟩ := contDepth_mem h hb ih
    rw [jmp_depth_eq h hm hb hj hlead]
    exact ⟨Int.add_nonneg h1 (iterating_nonneg _), h2⟩
  | @cjmp b c t hr hj hlead ih =>
    have hb := (hcover.mem_order_iff b).2 hr
    obtain ⟨h1, h2⟩ := contDepth_mem h hb ih
    rw [cjmp_depth_eq h hm hb hj hlead]
    have h3 := iterating_nonneg (g.block b).insns.toList
    rw [contDepth] at h2
    exact ⟨h1, by omega⟩

/-! The greatest depth fits into 32 bits. -/

/-- The deepest stack of a block is a 32-bit number. -/
theorem maxStack_code {id : BlockId} {is : List Insn} {depth it depth' it' : Int} {l l' : Layout}
    (h : code id depth it is l = .ok (depth', it', l'))
    (hl : 0 ≤ l.maxStack ∧ l.maxStack < 2 ^ 31) :
    0 ≤ l'.maxStack ∧ l'.maxStack < 2 ^ 31 := by
  induction is generalizing depth it l with
  | nil =>
    cases h
    exact hl
  | cons i rest ih =>
    simp only [code] at h
    generalize (if i.op = .iterJmp then 1 else it) = now at h
    split at h
    · cases h
    · rename_i hd
      refine ih h ?_
      simp only
      omega

/-- The deepest stack of a step is a 32-bit number. -/
theorem maxStack_extend {l l' : Layout} {id : BlockId} {next : List LayoutStep}
    (h : extend g l id = .ok (l', next)) (hl : 0 ≤ l.maxStack ∧ l.maxStack < 2 ^ 31) :
    0 ≤ l'.maxStack ∧ l'.maxStack < 2 ^ 31 := by
  simp only [extend, bind, Except.bind] at h
  split at h
  · cases h
  rename_i v hcode
  have hv := maxStack_code hcode (show 0 ≤ (l.put id).maxStack ∧ _ from hl)
  split at h
  · cases h
    exact hv
  · split at h
    · cases h
    split at h
    · cases h
      simpa using hv
    · cases h
      simpa using hv

/-- The deepest stack of a layout is a 32-bit number. -/
theorem maxStack_of_layout (hsize : 0 < g.size) (h : g.layout 0 = .ok l) :
    0 ≤ l.maxStack ∧ l.maxStack < 2 ^ 31 := by
  refine Steps.induction (P := fun l _ => 0 ≤ l.maxStack ∧ l.maxStack < 2 ^ 31)
    (g.steps_of_layout hsize h).1 (by simp [initial, empty]) ?_
  intro l work l' work' hl hs
  cases hs with
  | skip _ => exact hl
  | place _ hext => exact maxStack_extend hext hl
  | branch _ => simpa using hl

end Layout

/-- What the depths of a layout say of its blocks. -/
structure Layout.Leveled (g : BlockGraph) (l : Layout) : Prop where
  covering : Covering g 0 l []
  depths : Depths g 0 l []
  mismatches : l.mismatches = 0
  range : ∀ {b k : Nat}, g.Reached 0 b → k ≤ (g.block b).insns.size →
    0 ≤ l.levelAt g ⟨b, k⟩ ∧ l.levelAt g ⟨b, k⟩ ≤ l.maxStack
  maxStack_lt : l.maxStack < 2 ^ 31

open Layout in
/-- Every layout has levels. -/
theorem BlockGraph.leveled {g : BlockGraph} {l : Layout} (hsize : 0 < g.size)
    (h : g.layout 0 = .ok l) : l.Leveled g := by
  have hcover := g.covering_of_layout hsize h
  obtain ⟨hd, hm⟩ := g.depths_of_layout hsize h
  obtain ⟨h0, hmax⟩ := maxStack_of_layout hsize h
  refine ⟨hcover, hd, hm, ?_, hmax⟩
  intro b k hb hk
  rcases Nat.eq_zero_or_pos k with rfl | hpos
  · rw [Layout.levelAt_start]
    exact depthOf_mem hd hm hcover h0 hb
  · obtain ⟨h1, h2⟩ := levelAt_mem hd ((hcover.mem_order_iff b).2 hb) hpos hk
    have h3 := iterating_nonneg ((g.block b).insns.toList.take k)
    exact ⟨h1, by omega⟩

/-! ## Typed depths -/

section Typed

variable {C D : Type} {T : Typing C D} {c : C} {g : BlockGraph} {δ : BlockId → D} {depth : D → Nat}
  {hook : Point → Nat → Prop} {l : Layout}

/-- From an empty block control goes on as if from its successor. -/
theorem Annotates.le_of_empty (h : Annotates T c g δ hook) {b id : Nat}
    (he : (g.block b).insns = #[]) (hj : (g.block b).jmp = some id) : T.le (δ b) (δ id) := by
  cases h.closes b (BlockGraph.lt_size_of_jmp hj) with
  | step hi => exact absurd he hi.insns_ne
  | unpack hi => exact absurd he hi.insns_ne
  | ends hend _ hle =>
    cases hend.jmp.symm.trans hj
    exact hle
  | branch _ hb => exact absurd he hb.insn.insns_ne
  | ret hr => exact absurd he hr.insn.insns_ne

/-- An empty block leads to states of the same depth. -/
theorem Annotates.depth_of_leads (h : Annotates T c g δ hook) (hdepth : T.Measures depth)
    {b t : Nat}
    (hlead : Leads g b t) : depth (δ b) = depth (δ t) := by
  induction hlead with
  | here _ => rfl
  | skip he hj _ ih => exact (hdepth.le (h.le_of_empty he hj)).trans ih

theorem Chain.le {b n m : Nat} {d e : D} (h : Chain T c g hook b n d m e) : n ≤ m := by
  induction h with
  | refl => exact Nat.le_refl _
  | step _ _ _ _ ih => exact Nat.le_of_succ_le ih
  | unpack _ _ _ _ ih => exact Nat.le_of_succ_le ih

/-- The code before the end of a block pushes no element of an iterator. -/
theorem Chain.iterating_eq {b m : Nat} {d e : D} (h : Chain T c g hook b 0 d m e) :
    Insn.iterating ((g.block b).insns.toList.take m) = 0 := by
  refine if_neg ?_
  rw [List.any_eq_true]
  rintro ⟨i, hi, hop⟩
  obtain ⟨k, hk⟩ := List.mem_iff_getElem?.1 hi
  rw [List.getElem?_take] at hk
  split at hk
  · rename_i hkm
    obtain ⟨op, arg, hat, hplain⟩ := h.insnAt (Nat.zero_le k) hkm
    obtain ⟨pos, hpos⟩ := hat
    rw [Array.getElem?_toList, hpos] at hk
    cases hk
    have hop : op = .iterJmp := by simpa using hop
    subst hop
    rcases hplain with hp | hp <;> cases hp
  · cases hk

/-- How a block passes its depth on to a successor. -/
theorem Annotates.successor (h : Annotates T c g δ hook) (hdepth : T.Measures depth)
    (hl : l.Leveled g) {b id t : Nat} (hb : g.Reached 0 b)
    (hj : (g.block b).jmp = some id ∨ (g.block b).cjmp = some id) (hlead : Leads g id t) :
    ∃ m e, ∃ change : Int, Chain T c g hook b 0 (δ b) m e ∧
      (depth (δ t) : Int) = depth e + change ∧ change ≤ 1 ∧
      l.depthOf t = l.levelAt g ⟨b, m⟩ + change := by
  have hmem := (hl.covering.mem_order_iff b).2 hb
  have hlt : b < g.size := by
    rcases hj with hj | hj
    · exact BlockGraph.lt_size_of_jmp hj
    · exact BlockGraph.lt_size_of_insns_ne (h.cjmp_lt hj).2
  obtain ⟨m, e, hchain, hend⟩ := h.ending hlt
  have hsame := h.depth_of_leads hdepth hlead
  refine ⟨m, e, ?_⟩
  cases hend with
  | ends he _ hle =>
    have hsize : (g.block b).insns.size = m := he.size
    rcases hj with hj | hj
    · cases he.jmp.symm.trans hj
      refine ⟨0, hchain, ?_, by decide, ?_⟩
      · rw [← hsame, hdepth.le hle, Int.add_zero]
      · have hit := hchain.iterating_eq
        rw [← hsize, List.take_of_length_le (Nat.le_of_eq Array.length_toList)] at hit
        rw [Layout.jmp_depth_eq hl.depths hl.mismatches hmem hj hlead, contDepth, hit,
          Layout.exitDepth_eq, hsize]
    · cases he.cjmp.symm.trans hj
  | ret hr _ =>
    rcases hj with hj | hj
    · cases hr.jmp.symm.trans hj
    · cases hr.cjmp.symm.trans hj
  | @branch op t' f' hop hbr _ _ hty =>
    have hsize : (g.block b).insns.size = m + 1 := hbr.size
    obtain ⟨h1, h2⟩ := hdepth.branches hop hty
    have hexit : exitDepth g l b = l.levelAt g ⟨b, m⟩ + op.stackEffect 0 := by
      rw [Layout.exitDepth_eq, hsize]
      exact Layout.levelAt_next hbr.insn
    -- a branch takes at most its condition
    have hle : op.stackEffect 0 ≤ 0 := by
      cases op with
      | cjmp => decide
      | iterJmp => decide
      | _ => cases hop
    rcases hj with hj | hj
    · cases hbr.jmp.symm.trans hj
      refine ⟨op.stackEffect 0 + if op = .iterJmp then 1 else 0, hchain, ?_, by split <;> omega, ?_⟩
      · rw [← hsame, h2]
        push_cast
        rw [h1]
        split <;> simp [Int.add_assoc]
      · obtain ⟨pos, hdrop⟩ := hbr.insn.drop_eq
        have hnil : (g.block b).insns.toList.drop (m + 1) = [] :=
          List.drop_eq_nil_of_le (by rw [Array.length_toList, hsize])
        -- no instruction before the last one is an `iterJmp`
        have hit : Insn.iterating (g.block b).insns.toList = if op = .iterJmp then 1 else 0 := by
          rw [← List.take_append_drop m (g.block b).insns.toList, hdrop, hnil]
          have hzero := hchain.iterating_eq
          unfold Insn.iterating at hzero ⊢
          rw [List.any_append]
          split at hzero
          · cases hzero
          · rename_i hfalse
            rw [Bool.not_eq_true] at hfalse
            rw [hfalse]
            simp
        rw [Layout.jmp_depth_eq hl.depths hl.mismatches hmem hj hlead, contDepth, hexit, hit,
          Int.add_assoc]
    · cases hbr.cjmp.symm.trans hj
      refine ⟨op.stackEffect 0, hchain, ?_, by omega, ?_⟩
      · rw [← hsame, h1]
      · rw [Layout.cjmp_depth_eq hl.depths hl.mismatches hmem hj hlead, hexit]

/-- The two depths of a point agree as far as 32 bits hold them. -/
theorem Annotates.levelAt_modEq (h : Annotates T c g δ hook) (hdepth : T.Measures depth)
    (hl : l.Leveled g) {b : Nat} (hb : g.Reached 0 b) (k : Nat) :
    levelAt depth g δ ⟨b, k⟩ ≡ l.levelAt g ⟨b, k⟩ [ZMOD 2 ^ 32] := by
  have hstart : (depth (δ b) : Int) ≡ l.depthOf b [ZMOD 2 ^ 32] := by
    have hnext : ∀ {b id t : Nat}, g.Reached 0 b →
        ((g.block b).jmp = some id ∨ (g.block b).cjmp = some id) → Leads g id t →
        (depth (δ b) : Int) ≡ l.depthOf b [ZMOD 2 ^ 32] →
        (depth (δ t) : Int) ≡ l.depthOf t [ZMOD 2 ^ 32] := by
      intro b id t hr hj hlead ih
      obtain ⟨m, e, change, hchain, h1, -, h2⟩ := h.successor hdepth hl hr hj hlead
      rw [h1, h2]
      exact ((hchain.levelAt_modEq hdepth).symm.trans (ih.add_right _)).add_right change
    induction hb with
    | entry =>
      rw [h.start, hdepth.start, Layout.depthOf_eq_of_some hl.depths.entry_depth]
      rfl
    | jmp hr hj hlead ih => exact hnext hr (.inl hj) hlead ih
    | cjmp hr hj hlead ih => exact hnext hr (.inr hj) hlead ih
  exact hstart.add_right _

end Typed

section Exact

variable {C D : Type} {T : Typing C D} {c : C} {g : BlockGraph} {δ : BlockId → D} {depth : D → Nat}
  {pool : Pool} {l : Layout} (hpool : T.Covers pool) (hdepth : T.Measures depth)
  (h : Annotates T c g δ (SpreadAt T c pool g)) (hl : l.Leveled g)

include hpool hdepth h hl

/-- The count of an unpacking fits, since its elements are stored at different depths. -/
theorem Annotates.unpack_lt {b n k : Nat} (hb : g.Reached 0 b)
    (hi : g.InsnAt ⟨b, n⟩ .unpack (UInt32.ofNat k)) (hk : SpreadAt T c pool g ⟨b, n⟩ k) :
    k < 2 ^ 31 := by
  have hn : n < (g.block b).insns.size := by
    obtain ⟨pos, hpos⟩ := hi
    exact (Array.getElem?_eq_some_iff.1 hpos).1
  have hcomes : g.Comes ⟨b, n⟩ := hb.comes.within (Nat.le_of_lt hn)
  obtain ⟨loops, states, targets, lo, q, hi', d1, d2, ⟨-, hat⟩, e1, -, hty⟩ := hk
  have heach := Plan.At.comes_each hpool hdepth (h.flows hdepth) targets k hat hty (hcomes.next hi)
  obtain ⟨h0, h1⟩ : 0 ≤ l.levelAt g ⟨b, n + 1⟩ ∧ l.levelAt g ⟨b, n + 1⟩ ≤ l.maxStack :=
    hl.range hb hn
  have hlevel : l.levelAt g ⟨b, n + 1⟩ = _ := Layout.levelAt_next hi
  have heffect : Opcode.stackEffect .unpack (UInt32.ofNat k) =
    Opcode.signedArg (UInt32.ofNat k) - 1 := rfl
  have hmod := h.levelAt_modEq hdepth hl hb (n + 1)
  have hmax := hl.maxStack_lt
  obtain ⟨hstart, hstart'⟩ := hl.range hb (Nat.le_of_lt hn)
  -- one element more, and the last would be stored at depth `-1`
  have hle : k ≤ (l.levelAt g ⟨b, n + 1⟩).toNat + 1 := by
    by_contra hlt
    obtain ⟨⟨b', i⟩, op, arg, hpt, hpi, hplevel⟩ :=
      heach ((l.levelAt g ⟨b, n + 1⟩).toNat + 1) (by omega)
    have hcjmp : ∀ b c, (g.block b).cjmp = some c → (g.block b).insns ≠ #[] :=
      fun b c hc => (h.cjmp_lt hc).2
    have hreached := hpt.reached hcjmp hpi
    have hindex : i ≤ (g.block b').insns.size := by
      obtain ⟨pos, hpos⟩ := hpi
      exact Nat.le_of_lt (Array.getElem?_eq_some_iff.1 hpos).1
    obtain ⟨h2, h3⟩ := hl.range hreached hindex
    have hpmod := h.levelAt_modEq hdepth hl hreached i
    have hnext : (Point.mk b n).next = ⟨b, n + 1⟩ := rfl
    rw [hnext] at hplevel
    unfold Int.ModEq at *
    push_cast at *
    omega
  have hsigned : k = 2 ^ 31 → Opcode.signedArg (UInt32.ofNat k) = -2 ^ 31 := by
    rintro rfl
    decide
  by_contra hge
  have hk : k = 2 ^ 31 := by omega
  have hs := hsigned hk
  omega

/-- The depths of a chain are the levels of its points. -/
theorem Chain.depth_eq {b n m : Nat} {d e : D}
    (hchain : Chain T c g (SpreadAt T c pool g) b n d m e)
    (hb : g.Reached 0 b) (hd : (depth d : Int) = l.levelAt g ⟨b, n⟩) (hlt : depth d < 2 ^ 31) :
    (depth e : Int) = l.levelAt g ⟨b, m⟩ ∧ depth e < 2 ^ 31 := by
  have hsize : ∀ {k op arg}, g.InsnAt ⟨b, k⟩ op arg → k + 1 ≤ (g.block b).insns.size := by
    rintro k op arg ⟨pos, hk⟩
    exact (Array.getElem?_eq_some_iff.1 hk).1
  have hmax := hl.maxStack_lt
  -- along the chain, with the typing's depth and the layout's level changing alike
  induction hchain with
  | refl => exact ⟨hd, hlt⟩
  | @step n m d e f op arg hi hop hs _ ih =>
    obtain ⟨e', hstep, hle⟩ := hs
    have hnext : l.levelAt g ⟨b, n + 1⟩ = _ := Layout.levelAt_next hi
    have heq := hdepth.step_eq hop hstep hlt
    rw [hdepth.le hle, hd, ← hnext] at heq
    obtain ⟨-, hmost⟩ := hl.range hb (hsize hi)
    exact ih heq (by omega)
  | @unpack n m k d e f hi hk hs _ ih =>
    have hlt' := Annotates.unpack_lt hpool hdepth h hl hb hi hk
    have hnext : l.levelAt g ⟨b, n + 1⟩ = _ := Layout.levelAt_next hi
    have heffect : Opcode.stackEffect .unpack (UInt32.ofNat k) = k - 1 := by
      show Opcode.signedArg _ - 1 = _
      rw [Opcode.signedArg_ofNat hlt']
    have hcount := hdepth.unpack hs
    obtain ⟨-, hmost⟩ := hl.range hb (hsize hi)
    have heq : (depth e : Int) = l.levelAt g ⟨b, n + 1⟩ := by
      rw [hnext, heffect, ← hd]
      omega
    exact ih heq (by omega)

/-- Within a placed block the depth that the types say is the one that the layout computes. -/
theorem Annotates.depth_eq {b k : Nat} {d : D} (hb : g.Reached 0 b)
    (hchain : Chain T c g (SpreadAt T c pool g) b 0 (δ b) k d) :
    (depth d : Int) = l.levelAt g ⟨b, k⟩ ∧ depth d < 2 ^ 31 := by
  have hmax := hl.maxStack_lt
  have hstart : (depth (δ b) : Int) = l.depthOf b ∧ depth (δ b) < 2 ^ 31 := by
    have hnext : ∀ {b id t : Nat}, g.Reached 0 b → g.Reached 0 t →
        ((g.block b).jmp = some id ∨ (g.block b).cjmp = some id) → Leads g id t →
        (depth (δ b) : Int) = l.depthOf b ∧ depth (δ b) < 2 ^ 31 →
        (depth (δ t) : Int) = l.depthOf t ∧ depth (δ t) < 2 ^ 31 := by
      intro b id t hr hrt hj hlead ih
      obtain ⟨m, e, change, hchain, h1, -, h2⟩ := h.successor hdepth hl hr hj hlead
      obtain ⟨h3, h4⟩ := hchain.depth_eq hpool hdepth h hl hr
        (by rw [Layout.levelAt_start]; exact ih.1) ih.2
      have heq : (depth (δ t) : Int) = l.depthOf t := by rw [h1, h2, h3]
      obtain ⟨-, h5⟩ := hl.range hrt (Nat.zero_le _)
      rw [Layout.levelAt_start] at h5
      exact ⟨heq, by omega⟩
    clear hchain
    -- on how the block is reached; its depth is the one its predecessor ends with
    induction hb with
    | entry =>
      rw [h.start, hdepth.start, Layout.depthOf_eq_of_some hl.depths.entry_depth]
      exact ⟨rfl, by decide⟩
    | jmp hr hj hlead ih => exact hnext hr (hr.jmp hj hlead) (.inl hj) hlead ih
    | cjmp hr hj hlead ih => exact hnext hr (hr.cjmp hj hlead) (.inr hj) hlead ih
  exact hchain.depth_eq hpool hdepth h hl hb (by rw [Layout.levelAt_start]; exact hstart.1) hstart.2

end Exact

end Starlark
