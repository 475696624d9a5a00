import Starlark.Flow.Layout
import Starlark.Proofs.Flow.Threading
import Mathlib.Logic.Relation

/-!
# Steps of the layout

`Layout.run` is cut into single steps (`Layout.Step`): a block that has a place is passed over, a
block is placed, or the target of a conditional jump is looked up. What a step can do is said once,
by `extend_eq_ok` for the placing of a block; every invariant of the layout is proved for the three
kinds of steps and then holds of a run (`steps_of_run`).

The first invariant, `Layout.Placing`, is about order, places and addresses: the address of a block
is the number of bytes that are planned for the blocks before it.
-/

set_option autoImplicit false

namespace Starlark

open BlockGraph (Leads)

/-- The number of bytes that are planned for instructions. -/
def Insn.sizes : List Insn → Nat
  | [] => 0
  | i :: is => i.size + sizes is

/-- The net change of the operand stack by instructions. -/
def Insn.effects : List Insn → Int
  | [] => 0
  | i :: is => i.stackEffect + effects is

/-- One if an `iterJmp` is among the instructions, whose other edge has one more element. -/
def Insn.iterating (is : List Insn) : Int := if is.any (·.op = .iterJmp) then 1 else 0

namespace Insn

@[simp] theorem sizes_nil : sizes [] = 0 := rfl

@[simp] theorem sizes_cons (i : Insn) (is : List Insn) : sizes (i :: is) = i.size + sizes is := rfl

@[simp] theorem sizes_append (xs ys : List Insn) : sizes (xs ++ ys) = sizes xs + sizes ys := by
  induction xs with
  | nil => simp
  | cons i xs ih => simp [ih, Nat.add_assoc]

@[simp] theorem effects_nil : effects [] = 0 := rfl

@[simp] theorem effects_cons (i : Insn) (is : List Insn) :
    effects (i :: is) = i.stackEffect + effects is := rfl

@[simp] theorem effects_append (xs ys : List Insn) :
    effects (xs ++ ys) = effects xs + effects ys := by
  induction xs with
  | nil => simp
  | cons i xs ih => simp [ih, Int.add_assoc]

end Insn

/-- Run from a depth, the instructions keep the stack at depths from zero up to `most`. -/
structure Insn.Within (most : Int) (is : List Insn) (depth : Int) : Prop where
  nonneg : ∀ pre post, is = pre ++ post → pre ≠ [] → 0 ≤ depth + effects pre
  le_most : ∀ pre post, is = pre ++ post → pre ≠ [] →
    depth + effects pre + iterating pre ≤ most
  lt_limit : ∀ pre post, is = pre ++ post → pre ≠ [] →
    depth + effects pre + iterating pre < 0x80000000

namespace BlockGraph

/-- The number of bytes that are planned for the code of a block. -/
def codeSize (g : BlockGraph) (b : BlockId) : Nat := Insn.sizes (g.block b).insns.toList

/-- The number of bytes that are planned for a jump at the end of a block which is followed by
`next`. -/
def jumpSize (g : BlockGraph) (b : BlockId) (next : Option BlockId) : Nat :=
  match (g.block b).jmp with
  | none => 0
  | some c => if (g.target c).toOption = next then 0 else 5

/-- The number of bytes that are planned for blocks in a row which are followed by `next`. -/
def planned (g : BlockGraph) : List BlockId → (next : Option BlockId) → Nat
  | [], _ => 0
  | [b], next => g.codeSize b + g.jumpSize b next
  | b :: c :: rest, next => g.codeSize b + g.jumpSize b (some c) + planned g (c :: rest) next

variable {g : BlockGraph}

theorem planned_append_cons (pre : List BlockId) (b : BlockId) (post : List BlockId)
    (next : Option BlockId) :
    g.planned (pre ++ b :: post) next = g.planned pre (some b) + g.planned (b :: post) next := by
  induction pre with
  | nil => simp [planned]
  | cons c pre ih =>
    cases pre with
    | nil => simp [planned, Nat.add_assoc]
    | cons d pre =>
      simp only [List.cons_append, planned] at ih ⊢
      rw [ih]
      omega

theorem planned_append_singleton (pre : List BlockId) (b : BlockId) (next : Option BlockId) :
    g.planned (pre ++ [b]) next = g.planned pre (some b) + (g.codeSize b + g.jumpSize b next) :=
  planned_append_cons pre b [] next

end BlockGraph

namespace Layout

/-! ## What the parts of a step do -/

section Enter

variable (l : Layout) (id : BlockId) (depth : Int)

@[simp] theorem order_enter : (l.enter id depth).order = l.order := by
  unfold enter; split <;> [rfl; split <;> rfl]

@[simp] theorem place_enter : (l.enter id depth).place = l.place := by
  unfold enter; split <;> [rfl; split <;> rfl]

@[simp] theorem addr_enter : (l.enter id depth).addr = l.addr := by
  unfold enter; split <;> [rfl; split <;> rfl]

@[simp] theorem size_enter : (l.enter id depth).size = l.size := by
  unfold enter; split <;> [rfl; split <;> rfl]

@[simp] theorem maxStack_enter : (l.enter id depth).maxStack = l.maxStack := by
  unfold enter; split <;> [rfl; split <;> rfl]

@[simp] theorem isPlaced_enter (t : BlockId) : (l.enter id depth).isPlaced t = l.isPlaced t := by
  simp [isPlaced]

end Enter

theorem iterating_cons (i : Insn) (is : List Insn) :
    Insn.iterating (i :: is) = if i.op = .iterJmp then 1 else Insn.iterating is := by
  by_cases h : i.op = .iterJmp
  · simp [Insn.iterating, h]
  · simp [Insn.iterating, h]

/-- What is known once the code of a block has been accounted for. -/
theorem code_eq_ok {id : BlockId} {is : List Insn} {depth it depth' it' : Int} {l l' : Layout}
    (h : code id depth it is l = .ok (depth', it', l')) :
    depth' = depth + Insn.effects is ∧
      it' = (if is.any (·.op = .iterJmp) then 1 else it) ∧
      l' = { l with size := l.size + Insn.sizes is, maxStack := l'.maxStack } ∧
      l.maxStack ≤ l'.maxStack ∧
      ∀ pre post, is = pre ++ post → pre ≠ [] →
        0 ≤ depth + Insn.effects pre ∧
        depth + Insn.effects pre + (if pre.any (·.op = .iterJmp) then 1 else it) ≤ l'.maxStack ∧
        depth + Insn.effects pre + (if pre.any (·.op = .iterJmp) then 1 else it) < 0x80000000 := by
  induction is generalizing depth it l with
  | nil =>
    cases h
    -- the bounds are about non-empty prefixes, of which there are none
    refine ⟨by simp, by simp, by simp, Int.le_refl _, ?_⟩
    intro pre post hpre hne
    simp only [List.nil_eq, List.append_eq_nil_iff] at hpre
    exact absurd hpre.1 hne
  | cons i rest ih =>
    simp only [code] at h
    generalize hnow : (if i.op = .iterJmp then 1 else it) = now at h
    -- an `iterJmp` in front counts for every prefix that it begins
    have hjoin : ∀ is : List Insn, (if is.any (·.op = .iterJmp) then 1 else now) =
        if (i :: is).any (·.op = .iterJmp) then 1 else it := by
      intro is
      rw [← hnow]
      by_cases hi : i.op = .iterJmp <;> simp [hi]
    split at h
    · cases h
    · rename_i hd
      obtain ⟨h1, h2, h3, h4, h5⟩ := ih h
      refine ⟨by rw [h1, Insn.effects_cons]; omega, by rw [h2, hjoin], ?_, ?_, ?_⟩
      · rw [h3]
        simp [Nat.add_assoc]
      · exact Int.le_trans (Int.le_max_left _ _) h4
      · intro pre post hpre hne
        cases pre with
        | nil => exact absurd rfl hne
        | cons j pre =>
          simp only [List.cons_append, List.cons.injEq] at hpre
          obtain ⟨rfl, rfl⟩ := hpre
          rw [← hjoin, Insn.effects_cons]
          cases pre with
          | nil =>
            have hmax := Int.le_trans (Int.le_max_right _ _) h4
            simp only [List.any_nil, Bool.false_eq_true, ↓reduceIte, Insn.effects_nil]
            omega
          | cons k pre =>
            obtain ⟨a1, a2, a3⟩ := h5 (k :: pre) post rfl (by simp)
            omega

/-- What is to do later about the conditional jump of a block that ends at a depth. -/
def later (b : Block) (depth : Int) : List LayoutStep :=
  match b.cjmp with
  | some c => [.branch c depth]
  | none => []

theorem mem_later {b : Block} {d : Int} {s : LayoutStep} :
    s ∈ later b d ↔ ∃ c, b.cjmp = some c ∧ s = .branch c d := by
  unfold later
  cases b.cjmp with
  | none => simp
  | some c => simp

theorem visit_notMem_later {b : Block} {d : Int} {id : BlockId} :
    .visit id ∉ later b d := by
  rw [mem_later]
  rintro ⟨c, -, he⟩
  cases he

/-- The depth at which a block is entered. -/
def depthOf (l : Layout) (id : BlockId) : Int := (l.depth.getD id none).getD 0

/-- A layout after the code of one more block, which brings the stack to the depth `most`. -/
def placed (g : BlockGraph) (l : Layout) (id : BlockId) (most : Int) : Layout :=
  { l.put id with size := l.size + g.codeSize id, maxStack := most }

/-- How the placing of a block can end: without a successor, with a jump to a successor that has a
place, or with a successor that is to be placed next. -/
inductive Extended (g : BlockGraph) (l : Layout) (id : BlockId) (exit cont most : Int) :
    Layout → List LayoutStep → Prop where
  | ends : (g.block id).jmp = none →
      Extended g l id exit cont most (placed g l id most) (later (g.block id) exit)
  | jumps {c t : BlockId} : (g.block id).jmp = some c → Leads g c t →
      (placed g l id most).isPlaced t = true →
      Extended g l id exit cont most
        { (placed g l id most).enter t cont with size := l.size + g.codeSize id + 5 }
        (later (g.block id) exit)
  | falls {c t : BlockId} : (g.block id).jmp = some c → Leads g c t →
      (placed g l id most).isPlaced t = false →
      Extended g l id exit cont most ((placed g l id most).enter t cont)
        (.visit t :: later (g.block id) exit)

theorem extend_eq_ok {g : BlockGraph} {l l' : Layout} {id : BlockId} {next : List LayoutStep}
    (h : extend g l id = .ok (l', next)) :
    let is := (g.block id).insns.toList
    let exit := l.depthOf id + Insn.effects is
    ∃ most : Int, l.maxStack ≤ most ∧ Insn.Within most is (l.depthOf id) ∧
      Extended g l id exit (exit + Insn.iterating is) most l' next := by
  intro is exit
  simp only [extend, bind, Except.bind] at h
  split at h
  · cases h
  rename_i v hcode
  obtain ⟨after, it, l1⟩ := v
  obtain ⟨h1, h2, h3, h4, h5⟩ := code_eq_ok hcode
  have hexit : after = exit := h1
  have hit : it = Insn.iterating is := h2
  have hl1 : l1 = placed g l id l1.maxStack := by
    rw [h3]
    rfl
  rw [hexit, hit] at h
  refine ⟨l1.maxStack, h4, ⟨fun pre post e hne => (h5 pre post e hne).1,
    fun pre post e hne => (h5 pre post e hne).2.1,
    fun pre post e hne => (h5 pre post e hne).2.2⟩, ?_⟩
  simp only at h
  generalize l1.maxStack = most at hl1
  subst hl1
  -- a block ends, jumps back to one that is placed, or falls through into the next
  cases hj : (g.block id).jmp with
  | none =>
    simp only [hj] at h
    cases h
    exact .ends hj
  | some c =>
    simp only [hj] at h
    split at h
    · cases h
    rename_i t ht
    have hlead := BlockGraph.target_eq_ok_iff.1 ht
    split at h
    · rename_i hp
      cases h
      rw [isPlaced_enter] at hp
      have hsize : (placed g l id most).size = l.size + g.codeSize id := rfl
      simp only [size_enter, hsize]
      exact .jumps hj hlead hp
    · rename_i hp
      cases h
      rw [isPlaced_enter, Bool.not_eq_true] at hp
      exact .falls hj hlead hp

/-! ## Steps -/

/-- One step of `run`: on a layout and what is to do. -/
inductive Step (g : BlockGraph) : Layout × List LayoutStep → Layout × List LayoutStep → Prop where
  | skip {l : Layout} {id : BlockId} {rest : List LayoutStep} :
      l.isPlaced id = true → Step g (l, .visit id :: rest) (l, rest)
  | place {l l' : Layout} {id : BlockId} {next rest : List LayoutStep} :
      l.isPlaced id = false → extend g l id = .ok (l', next) →
        Step g (l, .visit id :: rest) (l', next ++ rest)
  | branch {l : Layout} {c t : BlockId} {depth : Int} {rest : List LayoutStep} :
      Leads g c t → Step g (l, .branch c depth :: rest) (l.enter t depth, .visit t :: rest)

/-- Any number of steps. -/
abbrev Steps (g : BlockGraph) : Layout × List LayoutStep → Layout × List LayoutStep → Prop :=
  Relation.ReflTransGen (Step g)

variable {g : BlockGraph}

/-- Picking a block passes over blocks that have a place. -/
theorem steps_of_pick {l l' : Layout} {work : List LayoutStep}
    {next : Option (BlockId × List LayoutStep)} (h : pick g l work = .ok (l', next)) :
    match next with
    | none => Steps g (l, work) (l', [])
    | some (id, rest) =>
      Steps g (l, work) (l', .visit id :: rest) ∧ l'.isPlaced id = false ∧ l'.order = l.order := by
  -- on the worklist, from which every placed block is skipped
  induction work generalizing l with
  | nil =>
    cases h
    exact .refl
  | cons s rest ih =>
    cases s with
    | visit id =>
      simp only [pick] at h
      split at h
      · rename_i hp
        have hrest := ih h
        cases next with
        | none => exact .head (.skip hp) hrest
        | some p => exact ⟨.head (.skip hp) hrest.1, hrest.2⟩
      · rename_i hp
        cases h
        exact ⟨.refl, by simpa using hp, rfl⟩
    | branch c depth =>
      simp only [pick, bind, Except.bind] at h
      split at h
      · cases h
      rename_i t ht
      have hlead := BlockGraph.target_eq_ok_iff.1 ht
      split at h
      · rename_i hp
        have hrest := ih h
        cases next with
        | none => exact .head (.branch hlead) (.head (.skip hp) hrest)
        | some p =>
          obtain ⟨hsteps, hfree, horder⟩ := hrest
          refine ⟨.head (.branch hlead) (.head (.skip hp) hsteps), hfree, ?_⟩
          rw [horder, order_enter]
      · rename_i hp
        cases h
        exact ⟨.single (.branch hlead), by simpa using hp, order_enter ..⟩

/-- A block more has a place after it was put there. -/
theorem size_order_extend {l l' : Layout} {id : BlockId} {next : List LayoutStep}
    (h : extend g l id = .ok (l', next)) : l'.order.size = l.order.size + 1 := by
  obtain ⟨most, -, -, he⟩ := extend_eq_ok h
  cases he <;> simp [placed, put]

/-- A round finds nothing left to do, or places a block and goes on. -/
theorem run_succ_eq_ok {rounds : Nat} {l m : Layout} {work : List LayoutStep}
    (h : run g (rounds + 1) l work = .ok m) :
    pick g l work = .ok (m, none) ∨
      ∃ l1 id rest l2 next, pick g l work = .ok (l1, some (id, rest)) ∧
        extend g l1 id = .ok (l2, next) ∧ run g rounds l2 (next ++ rest) = .ok m := by
  simp only [run, bind, Except.bind] at h
  split at h
  · cases h
  rename_i v hpick
  obtain ⟨l1, picked⟩ := v
  -- either nothing is left to pick or a block is placed and the rest goes on
  cases picked with
  | none =>
    cases h
    exact .inl hpick
  | some p =>
    obtain ⟨id, rest⟩ := p
    simp only at h
    split at h
    · cases h
    rename_i w hext
    exact .inr ⟨l1, id, rest, w.1, w.2, hpick, hext, h⟩

/-- A run does steps until nothing is left to do, or places a block in each round. -/
theorem steps_of_run {rounds : Nat} {l l' : Layout} {work : List LayoutStep}
    (h : run g rounds l work = .ok l') :
    Steps g (l, work) (l', []) ∨
      ∃ rest, Steps g (l, work) (l', rest) ∧ l'.order.size = l.order.size + rounds := by
  induction rounds generalizing l work with
  | zero =>
    cases h
    exact .inr ⟨work, .refl, rfl⟩
  | succ rounds ih =>
    obtain hpick | ⟨l1, id, rest, l2, new, hpick, hext, hrun⟩ := run_succ_eq_ok h
    · exact .inl (steps_of_pick hpick)
    · obtain ⟨hpicked, hfree, horder⟩ := steps_of_pick hpick
      have hsteps : Steps g (l, work) (l2, new ++ rest) := hpicked.tail (.place hfree hext)
      rcases ih hrun with hdone | ⟨rest', hmore, hlen⟩
      · exact .inl (hsteps.trans hdone)
      · refine .inr ⟨rest', hsteps.trans hmore, ?_⟩
        rw [hlen, size_order_extend hext, horder]
        omega

/-! ## Order, places and addresses -/

/-- The block that is to be placed next, right behind the last one. -/
def upcoming (l : Layout) : List LayoutStep → Option BlockId
  | .visit id :: _ => if l.isPlaced id then none else some id
  | _ => none

/-- Nothing but a visit at the front says which block comes next. -/
theorem upcoming_eq_none {l : Layout} {work : List LayoutStep} (h : ∀ id, .visit id ∉ work) :
    upcoming l work = none := by
  cases work with
  | nil => rfl
  | cons s rest =>
    cases s with
    | visit id => exact absurd List.mem_cons_self (h id)
    | branch c depth => rfl

/-- Places are the numbers in the order, and an address is what is planned for the blocks before.
The size counts no jump behind the last block if its successor is to be placed next. -/
structure Placing (g : BlockGraph) (l : Layout) (work : List LayoutStep) : Prop where
  place_size : l.place.size = g.size
  addr_size : l.addr.size = g.size
  nodup : l.order.toList.Nodup
  lt_size : ∀ b ∈ l.order.toList, b < g.size
  place_eq : ∀ b k, l.place.getD b none = some k ↔ l.order.toList[k]? = some b
  size_eq : l.size = g.planned l.order.toList (upcoming l work)
  address_eq : ∀ pre b post, l.order.toList = pre ++ b :: post →
    l.address b = g.planned pre (some b)
  jumped : upcoming l work = none → ∀ pre b c, l.order.toList = pre ++ [b] →
    (g.block b).jmp = some c → ∃ t, Leads g c t ∧ t ∈ l.order.toList
  visits_first : ∀ id, .visit id ∉ work.tail
  visit_lt : ∀ id rest, work = .visit id :: rest → id < g.size

namespace Placing

variable {l l' : Layout} {work work' : List LayoutStep}

theorem isPlaced_iff (h : Placing g l work) (b : BlockId) :
    l.isPlaced b = true ↔ b ∈ l.order.toList := by
  simp only [isPlaced, Option.isSome_iff_exists, h.place_eq, List.mem_iff_getElem?]

theorem isPlaced_eq_false_iff (h : Placing g l work) (b : BlockId) :
    l.isPlaced b = false ↔ b ∉ l.order.toList := by
  rw [← Bool.not_eq_true, h.isPlaced_iff]

/-- If the last block ends with a jump, then another block may follow it. -/
theorem planned_none (h : Placing g l work) (hnone : upcoming l work = none) {t : BlockId}
    (ht : t ∉ l.order.toList) :
    g.planned l.order.toList none = g.planned l.order.toList (some t) := by
  rcases List.eq_nil_or_concat l.order.toList with hnil | ⟨pre, b, hb⟩
  · simp [hnil, BlockGraph.planned]
  · rw [List.concat_eq_append] at hb
    rw [hb, BlockGraph.planned_append_singleton, BlockGraph.planned_append_singleton]
    cases hj : (g.block b).jmp with
    | none => simp [BlockGraph.jumpSize, hj]
    | some c =>
      obtain ⟨u, hlead, hu⟩ := h.jumped hnone pre b c hb hj
      have hut : u ≠ t := fun e => ht (e ▸ hu)
      have htarget := BlockGraph.target_eq_ok_iff.2 hlead
      simp [BlockGraph.jumpSize, hj, htarget, Except.toOption, hut]

theorem of_skip {id : BlockId} {rest : List LayoutStep} (h : Placing g l (.visit id :: rest))
    (hp : l.isPlaced id = true) : Placing g l rest := by
  have hnow : upcoming l (.visit id :: rest) = none := by simp [upcoming, hp]
  have hnext : upcoming l rest = none := upcoming_eq_none h.visits_first
  exact {
    place_size := h.place_size
    addr_size := h.addr_size
    nodup := h.nodup
    lt_size := h.lt_size
    place_eq := h.place_eq
    size_eq := by rw [hnext, ← hnow]; exact h.size_eq
    address_eq := h.address_eq
    jumped := fun _ => h.jumped hnow
    visits_first := fun id hm => h.visits_first id (List.mem_of_mem_tail hm)
    visit_lt := by
      rintro id rest' rfl
      exact absurd List.mem_cons_self (h.visits_first id) }

theorem of_branch {c t : BlockId} {depth : Int} {rest : List LayoutStep}
    (h : Placing g l (.branch c depth :: rest)) (hlead : Leads g c t) :
    Placing g (l.enter t depth) (.visit t :: rest) := by
  -- no block was about to follow, so the jump of the last one has been counted
  have hnow : upcoming l (.branch c depth :: rest) = none := rfl
  exact {
    place_size := by simpa using h.place_size
    addr_size := by simpa using h.addr_size
    nodup := by simpa using h.nodup
    lt_size := by simpa using h.lt_size
    place_eq := by simpa using h.place_eq
    size_eq := by
      rw [size_enter, order_enter, h.size_eq, hnow, upcoming, isPlaced_enter]
      split
      · rfl
      · rename_i hp
        exact h.planned_none hnow ((h.isPlaced_eq_false_iff t).1 (by simpa using hp))
    address_eq := by simpa [address] using h.address_eq
    jumped := fun _ => by simpa using h.jumped hnow
    visits_first := h.visits_first
    visit_lt := by
      rintro id rest' e
      cases e
      exact hlead.target_lt }

/-- The places after one more block. -/
theorem place_put (h : Placing g l work) {id : BlockId} (hid : id < g.size)
    (hfree : id ∉ l.order.toList) (b k : Nat) :
    (l.put id).place.getD b none = some k ↔ (l.put id).order.toList[k]? = some b := by
  have hlt : id < l.place.size := by rw [h.place_size]; exact hid
  have hold := h.place_eq b k
  simp only [put, Array.toList_push, Array.getD_eq_getD_getElem?, Array.getElem?_setIfInBounds,
    List.getElem?_append, Array.length_toList] at hold ⊢
  -- the new block has the place at the end, and every other block keeps its own
  by_cases hb : id = b
  · subst hb
    simp only [hlt, ↓reduceIte, Option.getD_some, Option.some.injEq]
    constructor
    · rintro rfl
      simp
    · intro hk
      split at hk
      · exact absurd (List.mem_of_getElem? hk) hfree
      · rename_i hge
        have hz : k - l.order.size = 0 := by
          by_contra hne
          obtain ⟨j, hj⟩ : ∃ j, k - l.order.size = j + 1 := ⟨k - l.order.size - 1, by omega⟩
          simp [hj] at hk
        omega
  · simp only [hb, ↓reduceIte, hold]
    by_cases hk : k < l.order.size
    · simp [hk]
    · have hnone : l.order.toList[k]? = none := by simp; omega
      rw [hnone]
      simp only [hk, ↓reduceIte, reduceCtorEq, false_iff]
      intro hx
      rcases Nat.eq_zero_or_pos (k - l.order.size) with hz | hz
      · rw [hz, List.getElem?_cons_zero, Option.some.injEq] at hx
        exact hb hx
      · obtain ⟨j, hj⟩ : ∃ j, k - l.order.size = j + 1 := ⟨k - l.order.size - 1, by omega⟩
        simp [hj] at hx

/-- The addresses after one more block. -/
theorem address_put (h : Placing g l work) {id : BlockId} (hid : id < g.size)
    (hfree : id ∉ l.order.toList) (hsize : l.size = g.planned l.order.toList (some id))
    {pre post : List BlockId} {b : BlockId} (hb : (l.put id).order.toList = pre ++ b :: post) :
    (l.put id).address b = g.planned pre (some b) := by
  have hlt : id < l.addr.size := by rw [h.addr_size]; exact hid
  simp only [put, Array.toList_push] at hb
  rcases List.eq_nil_or_concat post with rfl | ⟨post', x, rfl⟩
  · obtain ⟨hpre, hbid⟩ := List.append_inj' hb rfl
    cases hbid
    rw [← hpre, ← hsize]
    simp [put, address, hlt]
  · rw [List.concat_eq_append, ← List.cons_append, ← List.append_assoc] at hb
    obtain ⟨hpre, hx⟩ := List.append_inj' hb rfl
    have hbmem : b ∈ l.order.toList := by rw [hpre]; simp
    have hne : ¬ id = b := fun e => hfree (e ▸ hbmem)
    rw [← h.address_eq pre b post' hpre]
    simp [put, address, hne]

/-- A block that was just put in order has a place, as the blocks before it have. -/
theorem isPlaced_placed (h : Placing g l work) {id : BlockId} (hid : id < g.size)
    (hfree : id ∉ l.order.toList) (most : Int) (b : BlockId) :
    (placed g l id most).isPlaced b = true ↔ b ∈ l.order.toList ++ [id] := by
  have hplace := h.place_put hid hfree b
  simp only [isPlaced, placed, Option.isSome_iff_exists, hplace, ← List.mem_iff_getElem?]
  simp [put]

/-- A layout with one more block in order: its size, the successor of that block and the steps that
are left differ with the way the block ends, and the rest is the same for all of them. -/
theorem of_put (h : Placing g l work) {id : BlockId} (hid : id < g.size)
    (hfree : id ∉ l.order.toList) (hsize : l.size = g.planned l.order.toList (some id))
    (horder : l'.order = l.order.push id) (hplace : l'.place = (l.put id).place)
    (haddr : l'.addr = (l.put id).addr)
    (hsize' : l'.size = g.planned (l.order.toList ++ [id]) (upcoming l' work'))
    (hjumped : upcoming l' work' = none → ∀ c, (g.block id).jmp = some c →
      ∃ t, Leads g c t ∧ t ∈ l.order.toList ++ [id])
    (hvisits : ∀ b, .visit b ∉ work'.tail) (hlt : ∀ b w, work' = .visit b :: w → b < g.size) :
    Placing g l' work' where
  place_size := by simp [hplace, put, h.place_size]
  addr_size := by simp [haddr, put, h.addr_size]
  nodup := by
    rw [horder, Array.toList_push, List.nodup_append]
    refine ⟨h.nodup, by simp, ?_⟩
    intro a ha b hb
    rw [List.mem_singleton] at hb
    rintro rfl
    exact hfree (hb ▸ ha)
  lt_size := by
    intro b hb
    rw [horder, Array.toList_push, List.mem_append, List.mem_singleton] at hb
    rcases hb with hb | rfl
    · exact h.lt_size b hb
    · exact hid
  place_eq := by
    rw [hplace, horder]
    exact h.place_put hid hfree
  size_eq := by rw [horder, Array.toList_push]; exact hsize'
  address_eq := by
    intro pre b post hb
    rw [horder] at hb
    have haddress := h.address_put hid hfree hsize hb
    simpa [address, haddr] using haddress
  jumped := by
    intro hnone pre b c hb hjb
    rw [horder, Array.toList_push] at hb ⊢
    -- only the block just put may have its jump still open
    obtain ⟨-, hlast⟩ := List.append_inj' hb rfl
    cases hlast
    exact hjumped hnone c hjb
  visits_first := hvisits
  visit_lt := hlt

theorem of_place {id : BlockId} {rest next : List LayoutStep}
    (h : Placing g l (.visit id :: rest)) (hp : l.isPlaced id = false)
    (hext : extend g l id = .ok (l', next)) : Placing g l' (next ++ rest) := by
  obtain ⟨most, -, -, hext⟩ := extend_eq_ok hext
  have hid : id < g.size := h.visit_lt id rest rfl
  have hfree : id ∉ l.order.toList := (h.isPlaced_eq_false_iff id).1 hp
  have hsize : l.size = g.planned l.order.toList (some id) := by
    simpa [upcoming, hp] using h.size_eq
  have hnovisit : ∀ (e : Int) (b : BlockId), .visit b ∉ later (g.block id) e ++ rest := by
    intro e b hm
    rcases List.mem_append.1 hm with hm | hm
    · exact visit_notMem_later hm
    · exact h.visits_first b hm
  -- a block whose successor does not come next leaves no visit at all
  have hdone : ∀ (l' : Layout) (e : Int), l'.order = l.order.push id →
      l'.place = (l.put id).place → l'.addr = (l.put id).addr →
      l'.size = g.planned (l.order.toList ++ [id]) none →
      (∀ c, (g.block id).jmp = some c → ∃ t, Leads g c t ∧ t ∈ l.order.toList ++ [id]) →
      Placing g l' (later (g.block id) e ++ rest) := by
    intro l' e horder hplace haddr hsize' hjumped
    rw [← upcoming_eq_none (hnovisit e)] at hsize'
    exact h.of_put hid hfree hsize horder hplace haddr hsize' (fun _ => hjumped)
      (fun b hm => hnovisit e b (List.mem_of_mem_tail hm))
      fun b w hw => absurd (hw ▸ List.mem_cons_self) (hnovisit e b)
  cases hext with
  | ends hj =>
    refine hdone _ _ rfl rfl rfl ?_ ?_
    · rw [BlockGraph.planned_append_singleton, ← hsize]
      simp [placed, BlockGraph.jumpSize, hj]
    · intro c hc
      rw [hj] at hc
      cases hc
  | jumps hj hlead ht =>
    have htarget := BlockGraph.target_eq_ok_iff.2 hlead
    refine hdone _ _ (by simp [placed, put]) (by simp [placed]) (by simp [placed]) ?_ ?_
    · rw [BlockGraph.planned_append_singleton, ← hsize]
      simp [BlockGraph.jumpSize, hj, htarget, Except.toOption, Nat.add_assoc]
    · intro c hc
      rw [hj] at hc
      cases hc
      exact ⟨_, hlead, (h.isPlaced_placed hid hfree most _).1 ht⟩
  | @falls c t hj hlead ht =>
    have htarget := BlockGraph.target_eq_ok_iff.2 hlead
    have hup : ∀ cont e, upcoming ((placed g l id most).enter t cont)
        ((LayoutStep.visit t :: later (g.block id) e) ++ rest) = some t := by
      intro cont e
      simp [upcoming, ht]
    refine h.of_put hid hfree hsize (by simp [placed, put]) (by simp [placed]) (by simp [placed])
      ?_ ?_ (hnovisit _) ?_
    · rw [hup, BlockGraph.planned_append_singleton, ← hsize]
      simp [placed, BlockGraph.jumpSize, hj, htarget, Except.toOption]
    · intro hnone
      rw [hup] at hnone
      cases hnone
    · intro b w hw
      cases hw
      exact hlead.target_lt

theorem of_step (h : Placing g l work) (hs : Step g (l, work) (l', work')) :
    Placing g l' work' := by
  cases hs with
  | skip hp => exact h.of_skip hp
  | place hp hext => exact h.of_place hp hext
  | branch hlead => exact h.of_branch hlead

end Placing

/-- The layout with which `BlockGraph.layout` starts. -/
def initial (g : BlockGraph) (entry : BlockId) : Layout := (empty g.size).enter entry 0

theorem placing_initial {entry : BlockId} (hentry : entry < g.size) :
    Placing g (initial g entry) [.visit entry] where
  place_size := by simp [initial, empty]
  addr_size := by simp [initial, empty]
  nodup := by simp [initial, empty]
  lt_size := by simp [initial, empty]
  place_eq := by
    intro b k
    simp only [initial, empty, place_enter, order_enter, Array.toList_empty, List.getElem?_nil,
      reduceCtorEq, iff_false]
    simp only [Array.getD_eq_getD_getElem?, Array.getElem?_replicate]
    split <;> simp
  size_eq := by simp [initial, empty, BlockGraph.planned]
  address_eq := by simp [initial, empty]
  jumped := by simp [initial, empty]
  visits_first := by simp
  visit_lt := by
    rintro id rest e
    cases e
    exact hentry

/-- What every step keeps, a run keeps. -/
theorem Steps.induction {P : Layout → List LayoutStep → Prop} {l l' : Layout}
    {work work' : List LayoutStep} (hs : Steps g (l, work) (l', work')) (h : P l work)
    (hstep : ∀ l work l' work', P l work → Step g (l, work) (l', work') → P l' work') :
    P l' work' := by
  have key : ∀ s : Layout × List LayoutStep, Steps g (l, work) s → P s.1 s.2 := by
    intro s hs
    induction hs with
    | refl => exact h
    | tail _ hlast ih => exact hstep _ _ _ _ ih hlast
  exact key _ hs

theorem Placing.of_steps {l l' : Layout} {work work' : List LayoutStep} (h : Placing g l work)
    (hs : Steps g (l, work) (l', work')) : Placing g l' work' :=
  Steps.induction hs h fun _ _ _ _ hp hstep => hp.of_step hstep

/-- No more blocks are placed than there are. -/
theorem Placing.size_order_le {l : Layout} {work : List LayoutStep} (h : Placing g l work) :
    l.order.size ≤ g.size := by
  have hsub : l.order.toList ⊆ List.range g.size :=
    fun b hb => List.mem_range.2 (h.lt_size b hb)
  have hle := (h.nodup.subperm hsub).length_le
  rwa [List.length_range, Array.length_toList] at hle

end Layout

/-- A layout is a run in which no block was entered at two depths. -/
theorem BlockGraph.layout_eq_ok {g : BlockGraph} {entry : BlockId} {l : Layout}
    (h : g.layout entry = .ok l) :
    Layout.run g (g.size + 1) (Layout.initial g entry) [.visit entry] = .ok l ∧
      l.mismatches = 0 := by
  simp only [BlockGraph.layout, bind, Except.bind] at h
  split at h
  · cases h
  rename_i l' hrun
  split at h
  · cases h
  · rename_i hm
    cases h
    exact ⟨hrun, Nat.eq_zero_of_not_pos hm⟩

open Layout in
/-- The rounds of a layout suffice: it ends with nothing left to do. -/
theorem BlockGraph.steps_of_layout {g : BlockGraph} {entry : BlockId} {l : Layout}
    (hentry : entry < g.size) (h : g.layout entry = .ok l) :
    Steps g (initial g entry, [.visit entry]) (l, []) ∧ l.mismatches = 0 := by
  obtain ⟨hrun, hm⟩ := layout_eq_ok h
  refine ⟨?_, hm⟩
  rcases steps_of_run hrun with hdone | ⟨rest, hsteps, hsize⟩
  · exact hdone
  · -- more blocks than there are would have been placed
    have hle := ((placing_initial hentry).of_steps hsteps).size_order_le
    omega

end Starlark
