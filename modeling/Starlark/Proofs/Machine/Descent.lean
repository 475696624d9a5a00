import Starlark.Proofs.Machine.Grounding

/-!
# Freezing by descent

The plain way to freeze a value is to go down into what it holds, object by object, and to turn back
at lists, dicts and cells that are frozen already (`Heap.freezeWithin`). Nothing marks the tuples,
functions and builtins that were passed. The descent ends all the same, also where objects hold
themselves through lists, dicts or cells: each object is gone into once, and between two of them lie
functions and builtins only, which are made of what was there before (`Heap.Grounded`).

On a heap on which everything that a frozen object reaches is frozen, the descent and the traversal
with a worklist leave the same heap: the lists, dicts and cells that the value reaches are frozen
besides those that were, and nothing else is different (`Heap.freeze_exact`).
-/

set_option autoImplicit false

namespace Starlark

open Relation (ReflTransGen)

namespace Heap

/-- Freeze a value by going down into what it holds, at most so many levels. Gives nothing if that
is not enough. -/
def freezeWithin : (depth : Nat) → Heap → Value → Option Heap
  | 0, _, _ => none
  | depth + 1, h, v =>
    match v with
    | .list r =>
      if (h.list r).frozen then some h
      else (h.list r).elems.toList.foldlM (freezeWithin depth) (h.freezeNode (.list r))
    | .dict r =>
      if (h.dict r).frozen then some h
      else ((h.dict r).entries.toList.flatMap fun e => [e.1, e.2]).foldlM (freezeWithin depth)
        (h.freezeNode (.dict r))
    | .tuple elems => elems.foldlM (freezeWithin depth) h
    | .func r =>
      ((h.func r).defaults.toList ++ (h.func r).freeVars.toList).foldlM (freezeWithin depth) h
    | .builtin r => (h.builtin r).receiver.toList.foldlM (freezeWithin depth) h
    | .cell r =>
      if (h.cell r).frozen then some h
      else (h.cell r).content.toList.foldlM (freezeWithin depth) (h.freezeNode (.cell r))
    | _ => some h

end Heap

/-! ## Objects and what they hold -/

/-- The value that refers to an object. -/
def Node.value : Node → Value
  | .list r => .list r
  | .dict r => .dict r
  | .cell r => .cell r
  | .func r => .func r
  | .builtin r => .builtin r

theorem Value.nodesOfList_eq_flatMap (vs : List Value) :
    Value.nodesOfList vs = vs.flatMap Value.nodes := by
  induction vs with
  | nil => rfl
  | cons v vs ih => rw [Value.nodesOfList, List.flatMap_cons, ih]

namespace Heap

/-- The values that an object holds. -/
def contents (h : Heap) : Node → List Value
  | .list r => (h.list r).elems.toList
  | .dict r => (h.dict r).entries.toList.flatMap fun e => [e.1, e.2]
  | .cell r => (h.cell r).content.toList
  | .func r => (h.func r).defaults.toList ++ (h.func r).freeVars.toList
  | .builtin r => (h.builtin r).receiver.toList

theorem children_eq (h : Heap) (n : Node) : h.children n = Value.nodesOfList (h.contents n) := by
  rw [Value.nodesOfList_eq_flatMap]
  cases n with
  | list r => exact Value.nodesOfList_eq_flatMap _
  | dict r => simp [children, contents, List.flatMap_assoc]
  | cell r => cases hc : (h.cell r).content <;> simp [children, contents, hc]
  | func r =>
    rw [children, contents, List.flatMap_append, Value.nodesOfList_eq_flatMap,
      Value.nodesOfList_eq_flatMap]
  | builtin r => cases hb : (h.builtin r).receiver <;> simp [children, contents, hb]

theorem mem_children_iff {h : Heap} {m n : Node} :
    n ∈ h.children m ↔ ∃ v ∈ h.contents m, n ∈ v.nodes := by
  rw [children_eq, Value.mem_nodesOfList]

/-- Going down into an object: it is left alone if it is frozen already. -/
theorem freezeWithin_value (depth : Nat) (h : Heap) (n : Node) :
    freezeWithin (depth + 1) h n.value =
      if n.isMutable = true ∧ h.isFixed n = true then some h
      else (h.contents n).foldlM (freezeWithin depth) (h.freezeNode n) := by
  cases n <;> simp [freezeWithin, Node.value, Node.isMutable, isFixed, contents, freezeNode]

end Heap

/-- A value is a tuple, refers to an object, or holds nothing. -/
theorem Value.shape (v : Value) :
    (∃ elems, v = .tuple elems) ∨ (∃ n : Node, v = n.value) ∨
      (v.nodes = [] ∧ ∀ depth h, Heap.freezeWithin (depth + 1) h v = some h) := by
  cases v with
  | tuple elems => exact .inl ⟨elems, rfl⟩
  | list r => exact .inr (.inl ⟨.list r, rfl⟩)
  | dict r => exact .inr (.inl ⟨.dict r, rfl⟩)
  | cell r => exact .inr (.inl ⟨.cell r, rfl⟩)
  | func r => exact .inr (.inl ⟨.func r, rfl⟩)
  | builtin r => exact .inr (.inl ⟨.builtin r, rfl⟩)
  | _ => exact .inr (.inr ⟨rfl, fun _ _ => rfl⟩)

theorem Node.nodes_value (n : Node) : n.value.nodes = [n] := by
  cases n <;> rfl

namespace Heap

variable {h h' : Heap} {v : Value} {depth : Nat}

/-! ## What a descent leaves -/

/-- A heap with all objects thawed. -/
def thawed (h : Heap) : Heap :=
  { h with
    lists := h.lists.map fun l => { l with frozen := false }
    dicts := h.dicts.map fun d => { d with frozen := false }
    cells := h.cells.map fun c => { c with frozen := false } }

/-- A change that `f` forgets is not seen in what `f` makes of a table. -/
theorem map_modify_eq {α β : Type} {f : α → β} {g : α → α} (hfg : ∀ x, f (g x) = f x) (a : Array α)
    (i : Nat) : (a.modify i g).map f = a.map f := by
  apply Array.ext_getElem?
  intro j
  rw [Array.getElem?_map, Array.getElem?_map, Array.getElem?_modify]
  split
  · rw [Option.map_map, Function.comp_def]
    simp only [hfg]
  · rfl

theorem thawed_freezeNode (h : Heap) (n : Node) : (h.freezeNode n).thawed = h.thawed := by
  cases n with
  | list r =>
    simp only [thawed, freezeNode, modifyList]
    rw [map_modify_eq]
    intro _
    rfl
  | dict r =>
    simp only [thawed, freezeNode, modifyDict]
    rw [map_modify_eq]
    intro _
    rfl
  | cell r =>
    simp only [thawed, freezeNode, modifyCell]
    rw [map_modify_eq]
    intro _
    rfl
  | func r => rfl
  | builtin r => rfl

theorem thawed_freeze (h : Heap) (v : Value) : (h.freeze v).thawed = h.thawed :=
  rel_freeze (K := fun h h' => h'.thawed = h.thawed) (fun _ => rfl) (fun h1 h2 => h2.trans h1)
    thawed_freezeNode h v

/-- The objects to which the way from an object leads through functions and builtins only. -/
def Front (h : Heap) : Node → Node → Prop :=
  ReflTransGen fun m n => m.isMutable = false ∧ n ∈ h.children m

/-- Whatever is met first on the ways from an object is frozen. -/
def Covered (h : Heap) (n : Node) : Prop := ∀ m, h.Front n m → h.isFixed m = true

theorem Covered.isFixed {n : Node} (hn : h.Covered n) : h.isFixed n = true := hn n .refl

theorem Covered.hardens {n : Node} (hn : h.Covered n) (hh : h.Hardens h') : h'.Covered n := by
  intro m hm
  have hfront : h'.Front = h.Front := by
    have hchildren : h'.children = h.children := funext hh.children
    rw [Front, Front, hchildren]
  rw [hfront] at hm
  exact hh.fixed m (hn m hm)

/-- A list, dict or cell is met first on the ways from itself. -/
theorem covered_of_isMutable {n : Node} (hmut : n.isMutable = true) (hn : h.isFixed n = true) :
    h.Covered n := by
  intro m hm
  rcases ReflTransGen.cases_head hm with rfl | ⟨c, ⟨hc, -⟩, -⟩
  · exact hn
  · rw [hmut] at hc
    cases hc

theorem covered_of_children {n : Node} (hmut : n.isMutable = false)
    (hn : ∀ c ∈ h.children n, h.Covered c) : h.Covered n := by
  intro m hm
  rcases ReflTransGen.cases_head hm with rfl | ⟨c, ⟨-, hc⟩, hfront⟩
  · exact isFixed_of_immutable hmut
  · exact hn c hc m hfront

theorem Covered.child {n c : Node} (hn : h.Covered n) (hmut : n.isMutable = false)
    (hc : c ∈ h.children n) : h.Covered c := by
  intro m hm
  exact hn m (ReflTransGen.head ⟨hmut, hc⟩ hm)

/-- The objects in `work` are frozen with what they hold, and only that they are frozen is new. Each
object that is newly frozen is reached from one of them, and what it holds is frozen too. -/
structure Sweeps (h : Heap) (work : List Node) (h' : Heap) : Prop where
  thawed : h'.thawed = h.thawed
  hardens : h.Hardens h'
  covered : ∀ n ∈ work, h'.Covered n
  reached : ∀ n, h'.isFixed n = true → h.isFixed n = false → ∃ m ∈ work, h.Reaches m n
  inside : ∀ n, h'.isFixed n = true → h.isFixed n = false → ∀ c ∈ h.children n, h'.Covered c

namespace Sweeps

theorem nil (h : Heap) : h.Sweeps [] h where
  thawed := rfl
  hardens := .refl h
  covered := nofun
  reached n hn hnot := by
    rw [hn] at hnot
    cases hnot
  inside n hn hnot := by
    rw [hn] at hnot
    cases hnot

theorem append {h₁ : Heap} {work more : List Node} (hs : h.Sweeps work h₁)
    (hs₁ : h₁.Sweeps more h') :
    h.Sweeps (work ++ more) h' where
  thawed := hs₁.thawed.trans hs.thawed
  hardens := hs.hardens.trans hs₁.hardens
  covered n hn := by
    rcases List.mem_append.1 hn with hn | hn
    · exact (hs.covered n hn).hardens hs₁.hardens
    · exact hs₁.covered n hn
  reached n hn hnot := by
    -- it was fixed in the first part of the work or in the second
    cases hmid : h₁.isFixed n with
    | true =>
      obtain ⟨m, hm, hr⟩ := hs.reached n hmid hnot
      exact ⟨m, List.mem_append_left _ hm, hr⟩
    | false =>
      obtain ⟨m, hm, hr⟩ := hs₁.reached n hn hmid
      exact ⟨m, List.mem_append_right _ hm, hs.hardens.reaches ▸ hr⟩
  inside n hn hnot c hc := by
    cases hmid : h₁.isFixed n with
    | true => exact (hs.inside n hmid hnot c hc).hardens hs₁.hardens
    | false => exact hs₁.inside n hn hmid c (by rwa [hs.hardens.children])

/-- An object that is frozen already is left alone. -/
theorem skip {n : Node} (hmut : n.isMutable = true) (hn : h.isFixed n = true) : h.Sweeps [n] h :=
  { nil h with
    covered := by
      intro m hm
      rw [List.mem_singleton.1 hm]
      exact covered_of_isMutable hmut hn
    reached := by
      intro m hm hnot
      rw [hm] at hnot
      cases hnot }

end Sweeps

/-! ### Going into one object -/

theorem isFixed_freezeNode_self {n : Node} (hn : h.Has n) : (h.freezeNode n).isFixed n = true := by
  cases hmut : n.isMutable with
  | true =>
    have hvisited : (h.freezeNode n).isVisited (remember [] n) n = true := isVisited_self hn
    rwa [isVisited_of_isMutable hmut] at hvisited
  | false => exact isFixed_of_immutable hmut

/-- Only the object itself is newly frozen. -/
theorem isFixed_freezeNode_cases {n m : Node} (hm : (h.freezeNode n).isFixed m = true) :
    h.isFixed m = true ∨ m = n := by
  cases hmut : m.isMutable with
  | true =>
    have hvisited : (h.freezeNode n).isVisited (remember [] n) m = true := by
      rwa [isVisited_of_isMutable hmut]
    rcases isVisited_cases hvisited with hvis | rfl
    · rw [isVisited_of_isMutable hmut] at hvis
      exact .inl hvis
    · exact .inr rfl
  | false => exact .inl (isFixed_of_immutable hmut)

/-- To sweep what an object holds, after freezing it, is to sweep the object. -/
theorem Sweeps.enter {n : Node} (hn : h.Has n) (hs : (h.freezeNode n).Sweeps (h.children n) h') :
    h.Sweeps [n] h' := by
  have hnode := Hardens.freezeNode h n
  constructor
  · exact hs.thawed.trans (thawed_freezeNode h n)
  · exact hnode.trans hs.hardens
  · intro m hm
    rw [List.mem_singleton.1 hm]
    cases hmut : n.isMutable with
    | true => exact covered_of_isMutable hmut (hs.hardens.fixed n (isFixed_freezeNode_self hn))
    | false =>
      apply covered_of_children hmut
      intro c hc
      rw [hs.hardens.children, hnode.children] at hc
      exact hs.covered c hc
  -- what is newly fixed is the node itself or below one of its children
  · intro m hm hnot
    refine ⟨n, List.mem_singleton_self n, ?_⟩
    cases hmid : (h.freezeNode n).isFixed m with
    | true =>
      rcases isFixed_freezeNode_cases hmid with hm | rfl
      · rw [hm] at hnot
        cases hnot
      · exact .refl
    | false =>
      obtain ⟨c, hc, hr⟩ := hs.reached m hm hmid
      rw [hnode.reaches] at hr
      exact ReflTransGen.head hc hr
  · intro m hm hnot c hc
    cases hmid : (h.freezeNode n).isFixed m with
    | true =>
      rcases isFixed_freezeNode_cases hmid with hm | rfl
      · rw [hm] at hnot
        cases hnot
      · exact hs.covered c hc
    | false => exact hs.inside m hm hmid c (by rwa [hnode.children])

/-- Values one after another. -/
theorem sweeps_foldlM {f : Heap → Value → Option Heap} (hc : h.Closed)
    (hf : ∀ h₁ v h₂, h₁.Closed → h₁.Holds v → f h₁ v = some h₂ → h₁.Sweeps v.nodes h₂)
    {vs : List Value} (hvs : ∀ v ∈ vs, h.Holds v) (hfold : vs.foldlM f h = some h') :
    h.Sweeps (Value.nodesOfList vs) h' := by
  induction vs generalizing h with
  | nil =>
    cases hfold
    exact .nil _
  | cons v vs ih =>
    rw [List.forall_mem_cons] at hvs
    rw [List.foldlM_cons] at hfold
    obtain ⟨h₁, hfirst, hrest⟩ := Option.bind_eq_some_iff.1 hfold
    have hs := hf h v h₁ hc hvs.1 hfirst
    apply hs.append
    apply ih (hc.hardens hs.hardens) ?_ hrest
    intro w hw
    exact (hvs.2 w hw).mono fun n hn => (hs.hardens.has n).2 hn

theorem Closed.contents (hc : h.Closed) {n : Node} : ∀ v ∈ h.contents n, h.Holds v := by
  intro v hv m hm
  exact hc n m (mem_children_iff.2 ⟨v, hv, hm⟩)

/-- A descent that ends sweeps the objects that the value holds. -/
theorem sweeps_freezeWithin (hc : h.Closed) (hv : h.Holds v)
    (hd : freezeWithin depth h v = some h') : h.Sweeps v.nodes h' := by
  -- the fold over what an object holds runs one level deeper, where the hypothesis applies to each
  induction depth generalizing h v h' with
  | zero => cases hd
  | succ depth ih =>
    rcases v.shape with ⟨elems, rfl⟩ | ⟨n, rfl⟩ | ⟨hnodes, hnothing⟩
    · apply sweeps_foldlM hc (fun h₁ v h₂ hc₁ hv₁ hd₁ => ih hc₁ hv₁ hd₁) ?_ hd
      intro w hw n hn
      exact hv n (Value.mem_nodesOfList.2 ⟨w, hw, hn⟩)
    · rw [Node.nodes_value]
      rw [freezeWithin_value] at hd
      split at hd
      · rename_i hfixed
        cases hd
        exact .skip hfixed.1 hfixed.2
      · have hnode := Hardens.freezeNode h n
        apply Sweeps.enter (hv n (by simp [Node.nodes_value]))
        rw [children_eq]
        apply sweeps_foldlM (hc.hardens hnode) (fun h₁ v h₂ hc₁ hv₁ hd₁ => ih hc₁ hv₁ hd₁) ?_ hd
        intro w hw
        exact (hc.contents w hw).mono fun n hn => (hnode.has n).2 hn
    · rw [hnothing] at hd
      cases hd
      rw [hnodes]
      exact .nil h

/-! ## The frozen objects -/

/-- A value reaches an object. -/
def ReachedFrom (h : Heap) (v : Value) (n : Node) : Prop := ∃ m ∈ v.nodes, h.Reaches m n

open Classical in
/-- The heap in which some objects are frozen besides those that are. -/
noncomputable def withFrozen (h : Heap) (also : Node → Prop) : Heap :=
  { h with
    lists := h.lists.mapIdx fun i l => { l with frozen := l.frozen || decide (also (.list ⟨i⟩)) }
    dicts := h.dicts.mapIdx fun i d => { d with frozen := d.frozen || decide (also (.dict ⟨i⟩)) }
    cells := h.cells.mapIdx fun i c => { c with frozen := c.frozen || decide (also (.cell ⟨i⟩)) } }

/-- Tables with the same objects up to `f` are known from what `f` forgets. -/
theorem eq_mapIdx_of_map_eq {α β : Type} {a a' : Array α} {f : α → β} {g : Nat → α → α}
    (hmap : a'.map f = a.map f)
    (hg : ∀ i x x', a[i]? = some x → a'[i]? = some x' → f x' = f x → x' = g i x) :
    a' = a.mapIdx g := by
  apply Array.ext_getElem?
  intro i
  have hi : (a'[i]?).map f = (a[i]?).map f := by
    rw [← Array.getElem?_map, ← Array.getElem?_map, hmap]
  rw [Array.getElem?_mapIdx]
  cases hx : a[i]? with
  | none =>
    rw [hx] at hi
    exact Option.map_eq_none_iff.1 hi
  | some x =>
    rw [hx] at hi
    obtain ⟨x', hx', hsame⟩ := Option.map_eq_some_iff.1 hi
    rw [hx', hg i x x' hx hx' hsame]
    rfl

open Classical in
/-- A heap is known from its contents and its frozen objects. -/
theorem eq_withFrozen {also : Node → Prop} (hthawed : h'.thawed = h.thawed)
    (hfixed : ∀ n, h'.isFixed n = true ↔ h.isFixed n = true ∨ also n) : h' = h.withFrozen also := by
  obtain ⟨lists', dicts', cells', funcs', builtins', programs', modules'⟩ := h'
  obtain ⟨lists, dicts, cells, funcs, builtins, programs, modules⟩ := h
  simp only [thawed, Heap.mk.injEq] at hthawed
  obtain ⟨hlists, hdicts, hcells, rfl, rfl, rfl, rfl⟩ := hthawed
  simp only [withFrozen, Heap.mk.injEq, and_true]
  -- two heaps that agree but for the flags are equal where the flags are
  refine ⟨eq_mapIdx_of_map_eq hlists ?_, eq_mapIdx_of_map_eq hdicts ?_,
    eq_mapIdx_of_map_eq hcells ?_⟩
  · rintro i ⟨elems, frozen, iterating⟩ ⟨elems', frozen', iterating'⟩ hx hx' hsame
    cases hsame
    have hflag : frozen' = (frozen || decide (also (.list ⟨i⟩))) := by
      rw [Bool.eq_iff_iff]
      simpa [isFixed, list, hx, hx'] using hfixed (.list ⟨i⟩)
    rw [hflag]
  · rintro i ⟨entries, frozen, iterating⟩ ⟨entries', frozen', iterating'⟩ hx hx' hsame
    cases hsame
    have hflag : frozen' = (frozen || decide (also (.dict ⟨i⟩))) := by
      rw [Bool.eq_iff_iff]
      simpa [isFixed, dict, hx, hx'] using hfixed (.dict ⟨i⟩)
    rw [hflag]
  · rintro i ⟨content, frozen⟩ ⟨content', frozen'⟩ hx hx' hsame
    cases hsame
    have hflag : frozen' = (frozen || decide (also (.cell ⟨i⟩))) := by
      rw [Bool.eq_iff_iff]
      simpa [isFixed, cell, hx, hx'] using hfixed (.cell ⟨i⟩)
    rw [hflag]

/-- On a sealed heap, a sweep freezes exactly what is reached. -/
theorem Sweeps.isFixed_iff {v : Value} (hs : h.Sweeps v.nodes h') (hsealed : h.Sealed) {n : Node} :
    h'.isFixed n = true ↔ h.isFixed n = true ∨ h.ReachedFrom v n := by
  constructor
  · intro hn
    cases hold : h.isFixed n with
    | true => exact .inl rfl
    | false => exact .inr (hs.reached n hn hold)
  · rintro (hn | ⟨m, hm, hr⟩)
    · exact hs.hardens.fixed n hn
    · -- along the way, objects are covered, or all that they reach was frozen before
      have hway : h'.Covered n ∨ h.Settled n := by
        induction hr with
        | refl => exact .inl (hs.covered m hm)
        | @tail b c _ hchild ih =>
          rcases ih with hcov | hset
          · cases hmut : b.isMutable with
            | false => exact .inl (hcov.child hmut (by rwa [hs.hardens.children]))
            | true =>
              cases hold : h.isFixed b with
              | true => exact .inr fun d hd => hsealed b hmut hold d (ReflTransGen.head hchild hd)
              | false => exact .inl (hs.inside b hcov.isFixed hold c hchild)
          · exact .inr fun d hd => hset d (ReflTransGen.head hchild hd)
      rcases hway with hcov | hset
      · exact hcov.isFixed
      · exact hs.hardens.fixed n (hset n .refl)

/-- What the traversal with a worklist newly freezes is reached from what was to be visited. -/
theorem reached_freezeFrom {rounds : Nat} {seen work : List Node} {n : Node}
    (hn : (freezeFrom rounds h seen work).isFixed n = true) :
    h.isFixed n = true ∨ ∃ m ∈ work, h.Reaches m n := by
  -- on the rounds; a child put on the worklist is reached through its parent
  induction rounds generalizing h seen work with
  | zero => exact .inl hn
  | succ rounds ih =>
    unfold freezeFrom at hn
    split at hn
    · exact .inl hn
    · rename_i first rest hwork
      have hsub : ∀ m ∈ first :: rest, m ∈ work := fun m hm =>
        (List.dropWhile_sublist _).subset (hwork ▸ hm)
      have hfirst := hsub first List.mem_cons_self
      rcases ih hn with hmid | ⟨m, hm, hr⟩
      · rcases isFixed_freezeNode_cases hmid with hold | rfl
        · exact .inl hold
        · exact .inr ⟨n, hfirst, .refl⟩
      · rw [(Hardens.freezeNode h first).reaches] at hr
        rcases List.mem_append.1 hm with hchild | hrest
        · exact .inr ⟨first, hfirst, ReflTransGen.head hchild hr⟩
        · exact .inr ⟨m, hsub m (List.mem_cons_of_mem first hrest), hr⟩

/-- On a sealed heap, freezing a value freezes exactly what it reaches. -/
theorem freeze_eq_withFrozen (hc : h.Closed) (hs : h.Sealed) (hv : h.Holds v) :
    h.freeze v = h.withFrozen (h.ReachedFrom v) := by
  apply eq_withFrozen (thawed_freeze h v)
  intro n
  constructor
  · exact reached_freezeFrom
  · rintro (hn | ⟨m, hm, hr⟩)
    · exact (Hardens.freeze h v).fixed n hn
    · exact isFixed_freeze hs hc hv hm hr

/-! ## The descent ends -/

theorem foldlM_mono {f g : Heap → Value → Option Heap}
    (hfg : ∀ h v h', f h v = some h' → g h v = some h') {vs : List Value}
    (hfold : vs.foldlM f h = some h') : vs.foldlM g h = some h' := by
  induction vs generalizing h with
  | nil => exact hfold
  | cons v vs ih =>
    rw [List.foldlM_cons] at hfold ⊢
    obtain ⟨h₁, hfirst, hrest⟩ := Option.bind_eq_some_iff.1 hfold
    exact Option.bind_eq_some_iff.2 ⟨h₁, hfg h v h₁ hfirst, ih hrest⟩

/-- A descent that ends within a depth ends alike within a greater one. -/
theorem freezeWithin_mono {depth' : Nat} (hle : depth ≤ depth')
    (hd : freezeWithin depth h v = some h') : freezeWithin depth' h v = some h' := by
  induction depth generalizing depth' h v h' with
  | zero => cases hd
  | succ depth ih =>
    obtain ⟨depth', rfl⟩ := Nat.exists_eq_add_of_le' (Nat.lt_of_lt_of_le depth.succ_pos hle)
    have hfg : ∀ h v h', freezeWithin depth h v = some h' → freezeWithin depth' h v = some h' :=
      fun h v h' => ih (Nat.le_of_succ_le_succ hle)
    rcases v.shape with ⟨elems, rfl⟩ | ⟨n, rfl⟩ | ⟨-, hnothing⟩
    · exact foldlM_mono hfg hd
    · rw [freezeWithin_value] at hd ⊢
      split at hd
      · rename_i hfixed
        rwa [if_pos hfixed]
      · rename_i hfixed
        rw [if_neg hfixed]
        exact foldlM_mono hfg hd
    · rw [hnothing] at hd ⊢
      exact hd

/-- Going down into an object comes to an end, however many objects are frozen by then. -/
def Ends (h : Heap) (n : Node) : Prop :=
  ∀ h', h.Hardens h' → ∃ depth h'', freezeWithin depth h' n.value = some h''

theorem Ends.hardens {n : Node} (hn : h.Ends n) (hh : h.Hardens h') : h'.Ends n := by
  intro h₁ hh₁
  exact hn h₁ (hh.trans hh₁)

mutual

theorem ends_value {h : Heap} (v : Value) (hc : h.Closed) (hv : h.Holds v)
    (hn : ∀ n ∈ v.nodes, h.Ends n) : ∃ depth h', freezeWithin depth h v = some h' := by
  have hnode : ∀ n : Node, v = n.value → ∃ depth h', freezeWithin depth h v = some h' := by
    rintro n rfl
    exact hn n (by simp [Node.nodes_value]) h (.refl h)
  cases v with
  | tuple elems =>
    have hvs : ∀ w ∈ elems, h.Holds w := fun w hw n hn =>
      hv n (Value.mem_nodesOfList.2 ⟨w, hw, hn⟩)
    obtain ⟨depth, h', hd⟩ := ends_values elems hc hvs hn
    exact ⟨depth + 1, h', hd⟩
  | list r => exact hnode (.list r) rfl
  | dict r => exact hnode (.dict r) rfl
  | cell r => exact hnode (.cell r) rfl
  | func r => exact hnode (.func r) rfl
  | builtin r => exact hnode (.builtin r) rfl
  | _ => exact ⟨1, h, rfl⟩

theorem ends_values {h : Heap} (vs : List Value) (hc : h.Closed) (hvs : ∀ v ∈ vs, h.Holds v)
    (hn : ∀ n ∈ Value.nodesOfList vs, h.Ends n) :
    ∃ depth h', vs.foldlM (freezeWithin depth) h = some h' := by
  cases vs with
  | nil => exact ⟨0, h, rfl⟩
  | cons v vs =>
    rw [List.forall_mem_cons] at hvs
    rw [Value.nodesOfList, List.forall_mem_append] at hn
    obtain ⟨first, h₁, hfirst⟩ := ends_value v hc hvs.1 hn.1
    have hh := (sweeps_freezeWithin hc hvs.1 hfirst).hardens
    -- what the first value has frozen does not keep the others from coming to an end
    obtain ⟨rest, h₂, hrest⟩ := ends_values vs (hc.hardens hh)
      (fun w hw => (hvs.2 w hw).mono fun n hn => (hh.has n).2 hn)
      (fun n hmem => (hn.2 n hmem).hardens hh)
    refine ⟨max first rest, h₂, ?_⟩
    rw [List.foldlM_cons]
    apply Option.bind_eq_some_iff.2
    exact ⟨h₁, freezeWithin_mono (Nat.le_max_left _ _) hfirst,
      foldlM_mono (fun _ _ _ => freezeWithin_mono (Nat.le_max_right _ _)) hrest⟩

end

theorem remember_of_isMutable {n : Node} (hmut : n.isMutable = true) {seen : List Node} :
    remember seen n = seen := by
  cases n with
  | func r => cases hmut
  | builtin r => cases hmut
  | _ => rfl

theorem card_pending_le {h₀ : Heap} (hh : h.Hardens h') :
    (Marks.pending h₀ h' []).card ≤ (Marks.pending h₀ h []).card := by
  apply Finset.card_le_card
  intro n hn
  simp only [Marks.pending, Finset.mem_filter] at hn ⊢
  refine ⟨hn.1, ?_⟩
  cases hmut : n.isMutable with
  | true =>
    rw [isVisited_of_isMutable hmut] at hn ⊢
    apply Bool.eq_false_iff.2
    intro hfixed
    rw [hh.fixed n hfixed] at hn
    cases hn.2
  | false =>
    cases n with
    | func r => rfl
    | builtin r => rfl
    | _ => cases hmut

/-- Going down into an object comes to an end if it does with what the object holds. -/
theorem ends_of_children {n : Node} (hc : h.Closed)
    (hn : ¬(n.isMutable = true ∧ h.isFixed n = true))
    (hends : ∀ c ∈ h.children n, (h.freezeNode n).Ends c) :
    ∃ depth h', freezeWithin depth h n.value = some h' := by
  have hnode := Hardens.freezeNode h n
  have hholds : ∀ v ∈ h.contents n, (h.freezeNode n).Holds v := by
    intro v hv
    exact (hc.contents v hv).mono fun m hm => (hnode.has m).2 hm
  rw [children_eq] at hends
  obtain ⟨depth, h', hd⟩ := ends_values _ (hc.hardens hnode) hholds hends
  refine ⟨depth + 1, h', ?_⟩
  rw [freezeWithin_value, if_neg hn]
  exact hd

/-- A descent into a list, dict or cell leaves fewer of them to freeze, and one into functions and
builtins goes back to what they were made of. -/
theorem ends_of_card_lt {h₀ : Heap} (hc : h₀.Closed) (hg : h₀.Grounded) {k : Nat} {h : Heap}
    (hh : h₀.Hardens h) (hk : (Marks.pending h₀ h []).card < k) {n : Node} (hn : h₀.Has n) :
    h.Ends n := by
  induction k generalizing h n with
  | zero => exact absurd hk (Nat.not_lt_zero _)
  | succ k ih =>
    -- within one count of objects to freeze, by descent along functions and builtins
    induction n using hg.induction with
    | _ n ihn =>
      intro h₁ hh₁
      have hsince := hh.trans hh₁
      by_cases hfixed : n.isMutable = true ∧ h₁.isFixed n = true
      · refine ⟨1, h₁, ?_⟩
        rw [freezeWithin_value, if_pos hfixed]
      · apply ends_of_children (hc.hardens hsince) hfixed
        intro c hchild
        rw [hsince.children] at hchild
        have hin := hc n c hchild
        have hnode := Hardens.freezeNode h₁ n
        cases hmut : n.isMutable with
        | true =>
          -- one more object is frozen
          have hnew : h₁.isVisited [] n = false := by
            rw [isVisited_of_isMutable hmut]
            exact Bool.eq_false_iff.2 fun hfix => hfixed ⟨hmut, hfix⟩
          have hlt := Marks.card_pending_lt hn ((hsince.has n).2 hn) hnew
          rw [remember_of_isMutable hmut] at hlt
          have hle : (Marks.pending h₀ h₁ []).card ≤ (Marks.pending h₀ h []).card :=
            card_pending_le hh₁
          exact ih (hsince.trans hnode) (by omega) hin
        | false => exact (ihn c ⟨hmut, hchild⟩ hin).hardens (hh₁.trans hnode)

/-- The descent comes to an end. -/
theorem freezeWithin_ends (hc : h.Closed) (hg : h.Grounded) (hv : h.Holds v) :
    ∃ depth h', freezeWithin depth h v = some h' := by
  apply ends_value v hc hv
  intro n hn
  exact ends_of_card_lt hc hg (.refl h) (Nat.lt_succ_self _) (hv n hn)

/-- Freezing is reachability. On a heap on which everything that a frozen object reaches is frozen,
the descent ends with the heap that the traversal with a worklist gives: the lists, dicts and cells
that the value reaches are frozen besides those that were, and nothing else is different. -/
theorem freeze_exact (hc : h.Closed) (hg : h.Grounded) (hs : h.Sealed) (hv : h.Holds v) :
    (∃ depth, ∀ d, depth ≤ d → freezeWithin d h v = some (h.freeze v)) ∧
      h.freeze v = h.withFrozen (h.ReachedFrom v) := by
  have hfreeze := freeze_eq_withFrozen hc hs hv
  refine ⟨?_, hfreeze⟩
  obtain ⟨depth, h', hd⟩ := freezeWithin_ends hc hg hv
  have hsweeps := sweeps_freezeWithin hc hv hd
  have heq : h' = h.freeze v := by
    rw [hfreeze]
    exact eq_withFrozen hsweeps.thawed fun n => hsweeps.isFixed_iff hs
  refine ⟨depth, fun d hle => ?_⟩
  rw [← heq]
  exact freezeWithin_mono hle hd

/-- A function that its own cell holds. -/
def selfish : FuncObj :=
  { module := ⟨0⟩, code := .nested 0, defaults := #[.list ⟨0⟩], freeVars := #[.cell ⟨0⟩] }

/-- A function that is held by its cell and by the list that is its default, beside another list. -/
def entangled : Heap :=
  let h := (((({} : Heap).newList #[]).2.newList #[]).2.newCell none).2
  (Operation.append ⟨0⟩ (.func ⟨0⟩)).after ((h.newFunc selfish).2.setCell ⟨0⟩ (.func ⟨0⟩))

theorem works_entangled : ReflTransGen Works {} entangled := by
  have hfirst : ∀ h : Heap, 0 < h.funcs.size → h.Holds (.func ⟨0⟩) := by
    intro h hpos n hn
    rw [List.mem_singleton.1 hn]
    exact hpos
  have hmade : ∀ v ∈ selfish.defaults.toList ++ selfish.freeVars.toList,
      (((({} : Heap).newList #[]).2.newList #[]).2.newCell none).2.Holds v := by
    intro v hv n hn
    rcases List.mem_append.1 hv with hv | hv
    all_goals
      rw [List.mem_singleton.1 hv] at hn
      rw [List.mem_singleton.1 hn]
    · exact Nat.two_pos
    · exact Nat.one_pos
  have hnothing : ∀ h : Heap, ∀ v ∈ (#[] : Array Value).toList, h.Holds v := nofun
  have hunbound : ∀ h : Heap, ∀ v ∈ (none : Option Value), h.Holds v := nofun
  -- two lists, a cell, a function that holds one of each, which then goes into the cell and the
  -- list
  apply ReflTransGen.head (.newList (hnothing _))
  apply ReflTransGen.head (.newList (hnothing _))
  apply ReflTransGen.head (.newCell (hunbound _))
  apply ReflTransGen.head (.newFunc hmade)
  apply ReflTransGen.head (.setCell ⟨0⟩ (hfirst _ Nat.one_pos))
  exact ReflTransGen.single (.append ⟨0⟩ (hfirst _ Nat.one_pos))

theorem sealed_entangled : entangled.Sealed := by
  -- nothing is frozen
  have hthawed : ∀ m : Node, m.isMutable = true → entangled.isFixed m = false := by
    intro m hmut
    cases m with
    | list r =>
      match r with
      | ⟨0⟩ => rfl
      | ⟨1⟩ => rfl
      | ⟨_ + 2⟩ => rfl
    | dict r => rfl
    | cell r =>
      match r with
      | ⟨0⟩ => rfl
      | ⟨_ + 1⟩ => rfl
    | _ => cases hmut
  intro m hmut hm
  rw [hthawed m hmut] at hm
  cases hm

/-- The function of the tangle freezes its cell and its default, and not the other list. -/
theorem freeze_exact_entangled :
    (∃ depth, ∀ d, depth ≤ d →
      freezeWithin d entangled (.func ⟨0⟩) = some (entangled.freeze (.func ⟨0⟩))) ∧
    entangled.freeze (.func ⟨0⟩) = entangled.withFrozen (entangled.ReachedFrom (.func ⟨0⟩)) ∧
    (entangled.freeze (.func ⟨0⟩)).isFixed (.list ⟨0⟩) = true ∧
    (entangled.freeze (.func ⟨0⟩)).isFixed (.cell ⟨0⟩) = true ∧
    (entangled.freeze (.func ⟨0⟩)).isFixed (.list ⟨1⟩) = false := by
  obtain ⟨hclosed, hgrounded⟩ := grounded_of_works works_entangled
  have hholds : entangled.Holds (.func ⟨0⟩) := by
    intro n hn
    rw [List.mem_singleton.1 hn]
    exact Nat.one_pos
  obtain ⟨hends, hexact⟩ := freeze_exact hclosed hgrounded sealed_entangled hholds
  exact ⟨hends, hexact, rfl, rfl, rfl⟩

end Heap

end Starlark
