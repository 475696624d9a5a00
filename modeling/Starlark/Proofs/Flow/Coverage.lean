import Starlark.Proofs.Flow.Placement

/-!
# Which blocks are placed, and at which depths

A layout places exactly the blocks that can be reached from the entry along threaded edges
(`mem_order_iff`), and the entry comes first. Each placed block has one depth, and the edges between
placed blocks keep the depths (`Layout.Depths`).
-/

set_option autoImplicit false

namespace Starlark

open BlockGraph (Leads)

/-- The blocks that control can come to from the entry. -/
inductive BlockGraph.Reached (g : BlockGraph) (entry : BlockId) : BlockId → Prop where
  | entry : Reached g entry entry
  | jmp {b c t : BlockId} :
      Reached g entry b → (g.block b).jmp = some c → Leads g c t → Reached g entry t
  | cjmp {b c t : BlockId} :
      Reached g entry b → (g.block b).cjmp = some c → Leads g c t → Reached g entry t

theorem Insn.Within.mono {most most' depth : Int} {is : List Insn}
    (h : Insn.Within most is depth) (hle : most ≤ most') : Insn.Within most' is depth where
  nonneg := h.nonneg
  le_most := fun pre post e hne => Int.le_trans (h.le_most pre post e hne) hle
  lt_limit := h.lt_limit

namespace Layout

variable {g : BlockGraph} {entry : BlockId} {l l' : Layout} {work work' : List LayoutStep}

/-! ## What the placing of a block adds -/

namespace Extended

variable {id : BlockId} {exit cont most : Int} {next : List LayoutStep}

theorem order_eq (h : Extended g l id exit cont most l' next) : l'.order = l.order.push id := by
  cases h <;> simp [placed, put]

theorem mem_order_iff (h : Extended g l id exit cont most l' next) (b : BlockId) :
    b ∈ l'.order.toList ↔ b ∈ l.order.toList ∨ b = id := by
  simp [h.order_eq]

theorem branch_mem_iff (h : Extended g l id exit cont most l' next) {c : BlockId} {d : Int} :
    .branch c d ∈ next ↔ (g.block id).cjmp = some c ∧ d = exit := by
  have hlater : LayoutStep.branch c d ∈ later (g.block id) exit ↔
      (g.block id).cjmp = some c ∧ d = exit := by
    rw [mem_later]
    constructor
    · rintro ⟨c', hc, he⟩
      cases he
      exact ⟨hc, rfl⟩
    · rintro ⟨hc, rfl⟩
      exact ⟨c, hc, rfl⟩
  cases h with
  | ends _ => exact hlater
  | jumps _ _ _ => exact hlater
  | falls _ _ _ => rw [List.mem_cons, hlater]; simp

theorem leads_of_visit_mem (h : Extended g l id exit cont most l' next) {t : BlockId}
    (ht : .visit t ∈ next) : ∃ c, (g.block id).jmp = some c ∧ Leads g c t := by
  have hlater : LayoutStep.visit t ∉ later (g.block id) exit := visit_notMem_later
  cases h with
  | ends _ => exact absurd ht hlater
  | jumps _ _ _ => exact absurd ht hlater
  | falls hj hlead _ =>
    rcases List.mem_cons.1 ht with he | hm
    · cases he
      exact ⟨_, hj, hlead⟩
    · exact absurd hm hlater

/-- The `jmp` successor has a place or is to be placed next. -/
theorem jmp_covered (h : Extended g l id exit cont most l' next) (hp : Placing g l' work')
    {c : BlockId} (hc : (g.block id).jmp = some c) :
    ∃ t, Leads g c t ∧ (t ∈ l'.order.toList ∨ .visit t ∈ next) := by
  cases h with
  | ends hj => rw [hj] at hc; cases hc
  | jumps hj hlead ht =>
    rw [hj] at hc
    cases hc
    refine ⟨_, hlead, .inl ((hp.isPlaced_iff _).1 ?_)⟩
    simpa [isPlaced] using ht
  | falls hj hlead _ =>
    rw [hj] at hc
    cases hc
    exact ⟨_, hlead, .inr List.mem_cons_self⟩

end Extended

/-! ## Reached blocks -/

/-- Placed blocks and blocks to be placed are reached, and no successor of a placed block is
forgotten. -/
structure Covering (g : BlockGraph) (entry : BlockId) (l : Layout) (work : List LayoutStep) :
    Prop where
  placing : Placing g l work
  reached : ∀ b ∈ l.order.toList, g.Reached entry b
  visit_reached : ∀ t, .visit t ∈ work → g.Reached entry t
  branch_cjmp : ∀ c d, .branch c d ∈ work → ∃ b ∈ l.order.toList, (g.block b).cjmp = some c
  jmp_covered : ∀ b ∈ l.order.toList, ∀ c, (g.block b).jmp = some c →
    ∃ t, Leads g c t ∧ (t ∈ l.order.toList ∨ .visit t ∈ work)
  cjmp_covered : ∀ b ∈ l.order.toList, ∀ c, (g.block b).cjmp = some c →
    (∃ d, .branch c d ∈ work) ∨ ∃ t, Leads g c t ∧ (t ∈ l.order.toList ∨ .visit t ∈ work)
  entry_first : (l.order.toList = [] ∧ work = [.visit entry]) ∨ l.order.toList.head? = some entry

namespace Covering

theorem of_skip {id : BlockId} {rest : List LayoutStep}
    (h : Covering g entry l (.visit id :: rest)) (hp : l.isPlaced id = true) :
    Covering g entry l rest := by
  have hid : id ∈ l.order.toList := (h.placing.isPlaced_iff id).1 hp
  -- what the worklist covered through this visit is placed already
  have hdrop : ∀ t, t ∈ l.order.toList ∨ LayoutStep.visit t ∈ LayoutStep.visit id :: rest →
      t ∈ l.order.toList ∨ .visit t ∈ rest := by
    intro t ht
    rcases ht with ht | ht
    · exact .inl ht
    · rcases List.mem_cons.1 ht with he | hm
      · cases he
        exact .inl hid
      · exact .inr hm
  exact {
    placing := h.placing.of_skip hp
    reached := h.reached
    visit_reached := fun t ht => h.visit_reached t (List.mem_cons_of_mem _ ht)
    branch_cjmp := fun c d hm => h.branch_cjmp c d (List.mem_cons_of_mem _ hm)
    jmp_covered := by
      intro b hb c hc
      obtain ⟨t, hlead, ht⟩ := h.jmp_covered b hb c hc
      exact ⟨t, hlead, hdrop t ht⟩
    cjmp_covered := by
      intro b hb c hc
      rcases h.cjmp_covered b hb c hc with ⟨d, hd⟩ | ⟨t, hlead, ht⟩
      · exact .inl ⟨d, by simpa using hd⟩
      · exact .inr ⟨t, hlead, hdrop t ht⟩
    entry_first := by
      rcases h.entry_first with ⟨hnil, -⟩ | hfirst
      · rw [hnil] at hid
        cases hid
      · exact .inr hfirst }

theorem of_branch {c t : BlockId} {depth : Int} {rest : List LayoutStep}
    (h : Covering g entry l (.branch c depth :: rest)) (hlead : Leads g c t) :
    Covering g entry (l.enter t depth) (.visit t :: rest) := by
  -- a branch covers no block itself, so nothing is lost with it
  have hkeep : ∀ u, u ∈ l.order.toList ∨ LayoutStep.visit u ∈ LayoutStep.branch c depth :: rest →
      u ∈ (l.enter t depth).order.toList ∨ .visit u ∈ LayoutStep.visit t :: rest := by
    intro u hu
    rcases hu with hu | hu
    · exact .inl (by simpa using hu)
    · exact .inr (List.mem_cons_of_mem _ (by simpa using hu))
  exact {
    placing := h.placing.of_branch hlead
    reached := by simpa using h.reached
    visit_reached := by
      intro u hu
      rcases List.mem_cons.1 hu with he | hm
      · cases he
        obtain ⟨b, hb, hc⟩ := h.branch_cjmp c depth List.mem_cons_self
        exact .cjmp (h.reached b hb) hc hlead
      · exact h.visit_reached u (List.mem_cons_of_mem _ hm)
    branch_cjmp := by
      intro c' d hm
      rw [order_enter]
      exact h.branch_cjmp c' d (List.mem_cons_of_mem _ (by simpa using hm))
    jmp_covered := by
      intro b hb c' hc
      rw [order_enter] at hb
      obtain ⟨u, hu, hmem⟩ := h.jmp_covered b hb c' hc
      exact ⟨u, hu, hkeep u hmem⟩
    cjmp_covered := by
      intro b hb c' hc
      rw [order_enter] at hb
      rcases h.cjmp_covered b hb c' hc with ⟨d, hd⟩ | ⟨u, hu, hmem⟩
      · rcases List.mem_cons.1 hd with he | hm
        · cases he
          exact .inr ⟨t, hlead, .inr List.mem_cons_self⟩
        · exact .inl ⟨d, List.mem_cons_of_mem _ hm⟩
      · exact .inr ⟨u, hu, hkeep u hmem⟩
    entry_first := by
      rcases h.entry_first with ⟨-, hw⟩ | hfirst
      · cases hw
      · exact .inr (by simpa using hfirst) }

theorem of_place {id : BlockId} {rest next : List LayoutStep}
    (h : Covering g entry l (.visit id :: rest)) (hp : l.isPlaced id = false)
    (hext : extend g l id = .ok (l', next)) : Covering g entry l' (next ++ rest) := by
  have hplacing := h.placing.of_place hp hext
  obtain ⟨most, -, -, he⟩ := extend_eq_ok hext
  have hid : g.Reached entry id := h.visit_reached id List.mem_cons_self
  have hkeep : ∀ t, t ∈ l.order.toList ∨ LayoutStep.visit t ∈ LayoutStep.visit id :: rest →
      t ∈ l'.order.toList ∨ .visit t ∈ next ++ rest := by
    intro t ht
    rw [he.mem_order_iff]
    rcases ht with ht | ht
    · exact .inl (.inl ht)
    · rcases List.mem_cons.1 ht with he | hm
      · cases he
        exact .inl (.inr rfl)
      · exact .inr (List.mem_append_right _ hm)
  -- placed blocks keep what they had; what is new is the block `id` and the steps that it adds
  exact {
    placing := hplacing
    reached := by
      intro b hb
      rcases (he.mem_order_iff b).1 hb with hb | rfl
      · exact h.reached b hb
      · exact hid
    visit_reached := by
      intro t ht
      rcases List.mem_append.1 ht with hm | hm
      · obtain ⟨c, hc, hlead⟩ := he.leads_of_visit_mem hm
        exact .jmp hid hc hlead
      · exact h.visit_reached t (List.mem_cons_of_mem _ hm)
    branch_cjmp := by
      intro c d hm
      rcases List.mem_append.1 hm with hm | hm
      · exact ⟨id, (he.mem_order_iff id).2 (.inr rfl), (he.branch_mem_iff.1 hm).1⟩
      · obtain ⟨b, hb, hc⟩ := h.branch_cjmp c d (List.mem_cons_of_mem _ hm)
        exact ⟨b, (he.mem_order_iff b).2 (.inl hb), hc⟩
    jmp_covered := by
      intro b hb c hc
      rcases (he.mem_order_iff b).1 hb with hb | rfl
      · obtain ⟨t, hlead, ht⟩ := h.jmp_covered b hb c hc
        exact ⟨t, hlead, hkeep t ht⟩
      · obtain ⟨t, hlead, ht⟩ := he.jmp_covered hplacing hc
        exact ⟨t, hlead, ht.imp_right (List.mem_append_left _)⟩
    cjmp_covered := by
      intro b hb c hc
      rcases (he.mem_order_iff b).1 hb with hb | rfl
      · rcases h.cjmp_covered b hb c hc with ⟨d, hd⟩ | ⟨t, hlead, ht⟩
        · exact .inl ⟨d, List.mem_append_right _ (by simpa using hd)⟩
        · exact .inr ⟨t, hlead, hkeep t ht⟩
      · exact .inl ⟨_, List.mem_append_left _ (he.branch_mem_iff.2 ⟨hc, rfl⟩)⟩
    entry_first := by
      right
      rw [he.order_eq, Array.toList_push]
      rcases h.entry_first with ⟨hnil, hw⟩ | hfirst
      · cases hw
        simp [hnil]
      · simp [hfirst] }

theorem of_step (h : Covering g entry l work) (hs : Step g (l, work) (l', work')) :
    Covering g entry l' work' := by
  cases hs with
  | skip hp => exact h.of_skip hp
  | place hp hext => exact h.of_place hp hext
  | branch hlead => exact h.of_branch hlead

end Covering

theorem covering_initial (hentry : entry < g.size) :
    Covering g entry (initial g entry) [.visit entry] where
  placing := placing_initial hentry
  reached := by simp [initial, empty]
  visit_reached := by
    intro t ht
    simp only [List.mem_singleton, LayoutStep.visit.injEq] at ht
    exact ht ▸ .entry
  branch_cjmp := by simp
  jmp_covered := by simp [initial, empty]
  cjmp_covered := by simp [initial, empty]
  entry_first := .inl ⟨by simp [initial, empty], rfl⟩

end Layout

open Layout in
theorem BlockGraph.covering_of_layout {g : BlockGraph} {entry : BlockId} {l : Layout}
    (hentry : entry < g.size) (h : g.layout entry = .ok l) : Covering g entry l [] :=
  Steps.induction (g.steps_of_layout hentry h).1 (covering_initial hentry)
    fun _ _ _ _ hc hstep => hc.of_step hstep

namespace Layout

variable {g : BlockGraph} {entry : BlockId} {l : Layout}

namespace Covering

variable {b c t : BlockId}

theorem jmp_mem (h : Covering g entry l []) (hb : b ∈ l.order.toList)
    (hc : (g.block b).jmp = some c) : ∃ t, Leads g c t ∧ t ∈ l.order.toList := by
  obtain ⟨t, hlead, ht⟩ := h.jmp_covered b hb c hc
  exact ⟨t, hlead, by simpa using ht⟩

theorem cjmp_mem (h : Covering g entry l []) (hb : b ∈ l.order.toList)
    (hc : (g.block b).cjmp = some c) : ∃ t, Leads g c t ∧ t ∈ l.order.toList := by
  rcases h.cjmp_covered b hb c hc with ⟨d, hd⟩ | ⟨t, hlead, ht⟩
  · cases hd
  · exact ⟨t, hlead, by simpa using ht⟩

theorem entry_mem (h : Covering g entry l []) : entry ∈ l.order.toList := by
  rcases h.entry_first with ⟨-, hw⟩ | hfirst
  · cases hw
  · exact List.mem_of_head? hfirst

/-- Exactly the reached blocks are placed. -/
theorem mem_order_iff (h : Covering g entry l []) (b : BlockId) :
    b ∈ l.order.toList ↔ g.Reached entry b := by
  refine ⟨h.reached b, fun hr => ?_⟩
  induction hr with
  | entry => exact h.entry_mem
  | jmp _ hj hlead ih =>
    obtain ⟨t, ht, hmem⟩ := h.jmp_mem ih hj
    rwa [hlead.unique ht]
  | cjmp _ hj hlead ih =>
    obtain ⟨t, ht, hmem⟩ := h.cjmp_mem ih hj
    rwa [hlead.unique ht]

end Covering

/-! ## Depths -/

section Depth

variable {l l' : Layout} {work work' : List LayoutStep}

@[simp] theorem size_depth_enter (l : Layout) (id : BlockId) (d : Int) :
    (l.enter id d).depth.size = l.depth.size := by
  unfold enter; split <;> [simp; split <;> rfl]

/-- The depth of a block stays as it was found first. -/
theorem depth_enter_of_some {id b : BlockId} {d e : Int} (h : l.depth.getD b none = some e) :
    (l.enter id d).depth.getD b none = some e := by
  unfold enter
  split
  · rename_i hnone
    have hne : id ≠ b := by
      rintro rfl
      rw [hnone] at h
      cases h
    simpa [Array.getD_eq_getD_getElem?, Array.getElem?_setIfInBounds, hne] using h
  · split <;> exact h

theorem mismatches_le_enter (l : Layout) (id : BlockId) (d : Int) :
    l.mismatches ≤ (l.enter id d).mismatches := by
  unfold enter
  split
  · exact Nat.le_refl _
  · split
    · exact Nat.le_refl _
    · exact Nat.le_succ _

/-- A block that is entered without a mismatch has the depth at which it is entered. -/
theorem depth_enter_self {id : BlockId} {d : Int} (hid : id < l.depth.size)
    (h : (l.enter id d).mismatches = 0) : (l.enter id d).depth.getD id none = some d := by
  cases he : l.depth.getD id none with
  | none =>
    simp only [enter, he]
    simp [Array.getD_eq_getD_getElem?, hid]
  | some e =>
    simp only [enter, he] at h ⊢
    by_cases hed : e = d
    · rw [if_pos hed, he, hed]
    · rw [if_neg hed] at h
      cases h

theorem isSome_depth_enter {id : BlockId} {d : Int} (hid : id < l.depth.size) :
    ((l.enter id d).depth.getD id none).isSome = true := by
  cases he : l.depth.getD id none with
  | none =>
    simp only [enter, he]
    simp [Array.getD_eq_getD_getElem?, hid]
  | some e => rw [depth_enter_of_some he, Option.isSome_some]

/-- The depth behind the code of a block. -/
def exitDepth (g : BlockGraph) (l : Layout) (b : BlockId) : Int :=
  l.depthOf b + Insn.effects (g.block b).insns.toList

/-- The depth with which a block goes on to its `jmp` successor. -/
def contDepth (g : BlockGraph) (l : Layout) (b : BlockId) : Int :=
  exitDepth g l b + Insn.iterating (g.block b).insns.toList

/-- A later layout knows more depths and no other ones. -/
structure DepthsKept (l l' : Layout) : Prop where
  kept : ∀ b d, l.depth.getD b none = some d → l'.depth.getD b none = some d
  mismatches_le : l.mismatches ≤ l'.mismatches

theorem DepthsKept.depthOf_eq (h : DepthsKept l l') {b : BlockId}
    (hb : (l.depth.getD b none).isSome = true) : l'.depthOf b = l.depthOf b := by
  obtain ⟨d, hd⟩ := Option.isSome_iff_exists.1 hb
  rw [depthOf, depthOf, hd, h.kept b d hd]

theorem DepthsKept.isSome (h : DepthsKept l l') {b : BlockId}
    (hb : (l.depth.getD b none).isSome = true) : (l'.depth.getD b none).isSome = true := by
  obtain ⟨d, hd⟩ := Option.isSome_iff_exists.1 hb
  rw [h.kept b d hd]
  rfl

theorem depthsKept_enter (l : Layout) (id : BlockId) (d : Int) : DepthsKept l (l.enter id d) :=
  ⟨fun _ _ h => depth_enter_of_some h, mismatches_le_enter l id d⟩

/-- Code stays within the depths, and without a mismatch the depths of all edges agree. -/
structure Depths (g : BlockGraph) (entry : BlockId) (l : Layout) (work : List LayoutStep) :
    Prop where
  depth_size : l.depth.size = g.size
  entry_depth : l.depth.getD entry none = some 0
  within : ∀ b ∈ l.order.toList, Insn.Within l.maxStack (g.block b).insns.toList (l.depthOf b)
  known : ∀ b ∈ l.order.toList, (l.depth.getD b none).isSome = true
  visit_known : ∀ t, .visit t ∈ work → (l.depth.getD t none).isSome = true
  jmp_depth : l.mismatches = 0 → ∀ b ∈ l.order.toList, ∀ c t, (g.block b).jmp = some c →
    Leads g c t → l.depth.getD t none = some (contDepth g l b)
  cjmp_depth : l.mismatches = 0 → ∀ b ∈ l.order.toList, ∀ c, (g.block b).cjmp = some c →
    .branch c (exitDepth g l b) ∈ work ∨
      ∀ t, Leads g c t → l.depth.getD t none = some (exitDepth g l b)

/-- The placing of a block keeps the depths, and gives one to the successor. -/
theorem Extended.depths {id : BlockId} {exit cont most : Int} {next : List LayoutStep}
    (h : Extended g l id exit cont most l' next) (hsize : l.depth.size = g.size) :
    DepthsKept l l' ∧ l'.depth.size = l.depth.size ∧ l'.maxStack = most ∧
      (∀ t, .visit t ∈ next → (l'.depth.getD t none).isSome = true) ∧
      (l'.mismatches = 0 → ∀ c t, (g.block id).jmp = some c → Leads g c t →
        l'.depth.getD t none = some cont) := by
  -- only a block whose successor comes next leaves a visit
  have hnext : ∀ t, LayoutStep.visit t ∉ later (g.block id) exit := fun _ => visit_notMem_later
  have hplaced : (placed g l id most).depth = l.depth := rfl
  have hkept : ∀ t, DepthsKept l ((placed g l id most).enter t cont) := by
    intro t
    have hk := depthsKept_enter (placed g l id most) t cont
    exact ⟨hk.kept, hk.mismatches_le⟩
  cases h with
  | ends hj =>
    refine ⟨⟨fun _ _ hd => hd, Nat.le_refl _⟩, rfl, rfl, ?_, ?_⟩
    · exact fun t ht => absurd ht (hnext t)
    · intro _ c t hc
      rw [hj] at hc
      cases hc
  | @jumps c t hj hlead _ =>
    have ht : t < (placed g l id most).depth.size := by rw [hplaced, hsize]; exact hlead.target_lt
    refine ⟨⟨(hkept t).kept, (hkept t).mismatches_le⟩, size_depth_enter _ _ _,
      maxStack_enter _ _ _, ?_, ?_⟩
    · exact fun u hu => absurd hu (hnext u)
    · intro hm c' u hc hu
      rw [hj] at hc
      cases hc
      rw [hu.unique hlead]
      exact depth_enter_self ht hm
  | @falls c t hj hlead _ =>
    have ht : t < (placed g l id most).depth.size := by rw [hplaced, hsize]; exact hlead.target_lt
    refine ⟨hkept t, size_depth_enter _ _ _, maxStack_enter _ _ _, ?_, ?_⟩
    · intro u hu
      rcases List.mem_cons.1 hu with he | hm
      · cases he
        exact isSome_depth_enter ht
      · exact absurd hm (hnext u)
    · intro hm c' u hc hu
      rw [hj] at hc
      cases hc
      rw [hu.unique hlead]
      exact depth_enter_self ht hm

namespace Depths

/-- Without a new block, only what is to do for conditional jumps can get lost. -/
theorem of_kept (h : Depths g entry l work) (hk : DepthsKept l l')
    (hsize : l'.depth.size = l.depth.size) (horder : l'.order = l.order)
    (hmax : l'.maxStack = l.maxStack)
    (hvisit : ∀ t, .visit t ∈ work' → (l'.depth.getD t none).isSome = true)
    (hbranch : l'.mismatches = 0 → ∀ c d, .branch c d ∈ work →
      .branch c d ∈ work' ∨ ∀ t, Leads g c t → l'.depth.getD t none = some d) :
    Depths g entry l' work' := by
  -- mismatches are only ever added, so one that is found stays found
  have hzero : l'.mismatches = 0 → l.mismatches = 0 := by
    intro hm
    have := hk.mismatches_le
    omega
  have hdepth : ∀ b ∈ l.order.toList, l'.depthOf b = l.depthOf b :=
    fun b hb => hk.depthOf_eq (h.known b hb)
  exact {
    depth_size := by rw [hsize, h.depth_size]
    entry_depth := hk.kept _ _ h.entry_depth
    within := by
      intro b hb
      rw [horder] at hb
      rw [hmax, hdepth b hb]
      exact h.within b hb
    known := fun b hb => hk.isSome (h.known b (horder ▸ hb))
    visit_known := hvisit
    jmp_depth := by
      intro hm b hb c t hc hlead
      rw [horder] at hb
      rw [contDepth, exitDepth, hdepth b hb]
      exact hk.kept _ _ (h.jmp_depth (hzero hm) b hb c t hc hlead)
    cjmp_depth := by
      intro hm b hb c hc
      rw [horder] at hb
      rw [exitDepth, hdepth b hb]
      rcases h.cjmp_depth (hzero hm) b hb c hc with hw | ht
      · exact hbranch hm _ _ hw
      · exact .inr fun t hlead => hk.kept _ _ (ht t hlead) }

theorem of_skip {id : BlockId} {rest : List LayoutStep} (h : Depths g entry l (.visit id :: rest)) :
    Depths g entry l rest := by
  refine h.of_kept ⟨fun _ _ hd => hd, Nat.le_refl _⟩ rfl rfl rfl ?_ ?_
  · exact fun t ht => h.visit_known t (List.mem_cons_of_mem _ ht)
  · exact fun _ c d hm => .inl (by simpa using hm)

theorem of_branch {c t : BlockId} {depth : Int} {rest : List LayoutStep}
    (h : Depths g entry l (.branch c depth :: rest)) (hlead : Leads g c t) :
    Depths g entry (l.enter t depth) (.visit t :: rest) := by
  have ht : t < l.depth.size := by rw [h.depth_size]; exact hlead.target_lt
  have hk := depthsKept_enter l t depth
  refine h.of_kept hk (by simp) (by simp) (by simp) ?_ ?_
  · intro u hu
    rcases List.mem_cons.1 hu with he | hm
    · cases he
      exact isSome_depth_enter ht
    · exact hk.isSome (h.visit_known u (List.mem_cons_of_mem _ hm))
  · intro hm c' d hmem
    rcases List.mem_cons.1 hmem with he | hmem
    · cases he
      refine .inr fun u hu => ?_
      rw [hu.unique hlead]
      exact depth_enter_self ht hm
    · exact .inl (List.mem_cons_of_mem _ hmem)

theorem of_place {id : BlockId} {rest next : List LayoutStep}
    (h : Depths g entry l (.visit id :: rest))
    (hext : extend g l id = .ok (l', next)) : Depths g entry l' (next ++ rest) := by
  obtain ⟨most, hmost, hwithin, he⟩ := extend_eq_ok hext
  have hid := h.visit_known id List.mem_cons_self
  obtain ⟨hk, hsize, hmax, hvisit, hjmp⟩ := he.depths h.depth_size
  have hzero : l'.mismatches = 0 → l.mismatches = 0 := by
    intro hm
    have := hk.mismatches_le
    omega
  -- the depths of placed blocks, and of the new one, were known before
  have hdepth : ∀ b ∈ l'.order.toList, l'.depthOf b = l.depthOf b := by
    intro b hb
    rcases (he.mem_order_iff b).1 hb with hb | rfl
    · exact hk.depthOf_eq (h.known b hb)
    · exact hk.depthOf_eq hid
  exact {
    depth_size := by rw [hsize, h.depth_size]
    entry_depth := hk.kept _ _ h.entry_depth
    within := by
      intro b hb
      rw [hdepth b hb, hmax]
      rcases (he.mem_order_iff b).1 hb with hb | rfl
      · exact (h.within b hb).mono hmost
      · exact hwithin
    known := by
      intro b hb
      rcases (he.mem_order_iff b).1 hb with hb | rfl
      · exact hk.isSome (h.known b hb)
      · exact hk.isSome hid
    visit_known := by
      intro t ht
      rcases List.mem_append.1 ht with hm | hm
      · exact hvisit t hm
      · exact hk.isSome (h.visit_known t (List.mem_cons_of_mem _ hm))
    jmp_depth := by
      intro hm b hb c t hc hlead
      rw [contDepth, exitDepth, hdepth b hb]
      rcases (he.mem_order_iff b).1 hb with hb | rfl
      · exact hk.kept _ _ (h.jmp_depth (hzero hm) b hb c t hc hlead)
      · exact hjmp hm c t hc hlead
    cjmp_depth := by
      intro hm b hb c hc
      rw [exitDepth, hdepth b hb]
      rcases (he.mem_order_iff b).1 hb with hb | rfl
      · rcases h.cjmp_depth (hzero hm) b hb c hc with hw | ht
        · exact .inl (List.mem_append_right _ (by simpa [exitDepth] using hw))
        · exact .inr fun t hlead => hk.kept _ _ (ht t hlead)
      · exact .inl (List.mem_append_left _ (he.branch_mem_iff.2 ⟨hc, rfl⟩)) }

theorem of_step (h : Depths g entry l work) (hs : Step g (l, work) (l', work')) :
    Depths g entry l' work' := by
  cases hs with
  | skip _ => exact h.of_skip
  | place _ hext => exact h.of_place hext
  | branch hlead => exact h.of_branch hlead

end Depths

theorem depths_initial (hentry : entry < g.size) :
    Depths g entry (initial g entry) [.visit entry] := by
  have hsize : entry < (empty g.size).depth.size := by simpa [empty] using hentry
  have hnone : (empty g.size).depth.getD entry none = none := by
    simp [empty, Array.getD_eq_getD_getElem?, hentry]
  -- nothing is placed yet, so all there is to show is the depth of the entry
  have hdepth : (initial g entry).depth.getD entry none = some 0 := by
    refine depth_enter_self hsize ?_
    simp only [enter, hnone]
    rfl
  exact {
    depth_size := by simp [initial, empty]
    entry_depth := hdepth
    within := by simp [initial, empty]
    known := by simp [initial, empty]
    visit_known := by
      intro t ht
      simp only [List.mem_singleton, LayoutStep.visit.injEq] at ht
      rw [ht, hdepth, Option.isSome_some]
    jmp_depth := by simp [initial, empty]
    cjmp_depth := by simp [initial, empty] }

end Depth

end Layout

open Layout in
theorem BlockGraph.depths_of_layout {g : BlockGraph} {entry : BlockId} {l : Layout}
    (hentry : entry < g.size) (h : g.layout entry = .ok l) :
    Depths g entry l [] ∧ l.mismatches = 0 := by
  obtain ⟨hsteps, hm⟩ := g.steps_of_layout hentry h
  exact ⟨Steps.induction hsteps (depths_initial hentry) fun _ _ _ _ hd hs => hd.of_step hs, hm⟩

end Starlark
