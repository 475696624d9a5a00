import Mathlib.Data.Finset.Card
import Mathlib.Data.List.TakeWhile
import Starlark.Proofs.Machine.Stability

/-!
# Deep freezing

Freezing a value visits what it reaches, and stops at what is already frozen. That is enough if the
heap is sealed, which means that whatever a frozen list, dict or cell reaches is frozen
(`Heap.Sealed`): then all that the value reaches is frozen, and the heap is sealed again.
-/

set_option autoImplicit false

namespace Starlark

open Relation (ReflTransGen)

/-! ## Objects -/

/-- An object has contents that can change until it is frozen. -/
def Node.isMutable : Node → Bool
  | .list _ | .dict _ | .cell _ => true
  | .func _ | .builtin _ => false

namespace Heap

/-- An object is in the heap. -/
def Has (h : Heap) : Node → Prop
  | .list r => r.index < h.lists.size
  | .dict r => r.index < h.dicts.size
  | .cell r => r.index < h.cells.size
  | .func r => r.index < h.funcs.size
  | .builtin r => r.index < h.builtins.size

/-- An object is frozen, or has no contents that could change. -/
def isFixed (h : Heap) : Node → Bool
  | .list r => (h.list r).frozen
  | .dict r => (h.dict r).frozen
  | .cell r => (h.cell r).frozen
  | .func _ | .builtin _ => true

/-- An object holds another, directly or through others. -/
def Reaches (h : Heap) : Node → Node → Prop := ReflTransGen fun m n => n ∈ h.children m

/-- All that an object reaches is frozen. -/
def Settled (h : Heap) (n : Node) : Prop := ∀ m, h.Reaches n m → h.isFixed m = true

/-- Whatever a frozen list, dict or cell reaches is frozen. -/
def Sealed (h : Heap) : Prop := ∀ n, n.isMutable = true → h.isFixed n = true → h.Settled n

/-- What objects hold is in the heap. -/
def Closed (h : Heap) : Prop := ∀ m, ∀ n ∈ h.children m, h.Has n

/-- What a value holds is in the heap. -/
def Holds (h : Heap) (v : Value) : Prop := ∀ n ∈ v.nodes, h.Has n

theorem Closed.reaches {h : Heap} (hc : h.Closed) {m n : Node} (hr : h.Reaches m n) (hm : h.Has m) :
    h.Has n := by
  induction hr with
  | refl => exact hm
  | tail _ hn _ => exact hc _ _ hn

theorem cell_modifyCell_cases (h : Heap) (r : CellRef) (f : CellObj → CellObj) (s : CellRef) :
    (h.modifyCell r f).cell s = h.cell s ∨ s = r ∧ (h.modifyCell r f).cell s = f (h.cell s) := by
  by_cases hs : s = r
  · subst hs
    by_cases hlt : s.index < h.cells.size
    · exact .inr ⟨rfl, h.cell_modifyCell_self f hlt⟩
    · have hnone : h.cells[s.index]? = none := Array.getElem?_eq_none (Nat.not_lt.1 hlt)
      exact .inl (by simp [modifyCell, cell, Array.getElem?_modify, hnone])
  · exact .inl (h.cell_modifyCell_of_ne f hs)

end Heap

/-! ## Freezing one object -/

/-- Heaps with the same objects and contents, of which the second has at least the frozen objects of
the first. -/
structure Heap.Hardens (h h' : Heap) : Prop where
  has : ∀ n, h'.Has n ↔ h.Has n
  children : ∀ n, h'.children n = h.children n
  fixed : ∀ n, h.isFixed n = true → h'.isFixed n = true

namespace Heap.Hardens

variable {h h' h'' : Heap}

theorem refl (h : Heap) : h.Hardens h := ⟨fun _ => .rfl, fun _ => rfl, fun _ => id⟩

theorem trans (h1 : h.Hardens h') (h2 : h'.Hardens h'') : h.Hardens h'' where
  has n := (h2.has n).trans (h1.has n)
  children n := (h2.children n).trans (h1.children n)
  fixed n hn := h2.fixed n (h1.fixed n hn)

theorem freezeNode (h : Heap) (n : Node) : h.Hardens (h.freezeNode n) := by
  -- the kinds that hold a flag set it and keep their contents; the others do nothing
  cases n with
  | list r =>
    have hcases := h.list_modifyList_cases r fun l => { l with frozen := true }
    refine ⟨fun m => ?_, fun m => ?_, fun m hm => ?_⟩
    · cases m <;> simp [Has, Heap.freezeNode, modifyList]
    · cases m with
      | list s =>
        rcases hcases s with he | ⟨-, he⟩ <;> simp only [Heap.freezeNode, Heap.children, he]
      | _ => rfl
    · cases m with
      | list s => rcases hcases s with he | ⟨-, he⟩ <;> simp_all only [Heap.freezeNode, isFixed]
      | _ => exact hm
  | dict r =>
    have hcases := h.dict_modifyDict_cases r fun d => { d with frozen := true }
    refine ⟨fun m => ?_, fun m => ?_, fun m hm => ?_⟩
    · cases m <;> simp [Has, Heap.freezeNode, modifyDict]
    · cases m with
      | dict s =>
        rcases hcases s with he | ⟨-, he⟩ <;> simp only [Heap.freezeNode, Heap.children, he]
      | _ => rfl
    · cases m with
      | dict s => rcases hcases s with he | ⟨-, he⟩ <;> simp_all only [Heap.freezeNode, isFixed]
      | _ => exact hm
  | cell r =>
    have hcases := h.cell_modifyCell_cases r fun c => { c with frozen := true }
    refine ⟨fun m => ?_, fun m => ?_, fun m hm => ?_⟩
    · cases m <;> simp [Has, Heap.freezeNode, modifyCell]
    · cases m with
      | cell s =>
        rcases hcases s with he | ⟨-, he⟩ <;> simp only [Heap.freezeNode, Heap.children, he]
      | _ => rfl
    · cases m with
      | cell s => rcases hcases s with he | ⟨-, he⟩ <;> simp_all only [Heap.freezeNode, isFixed]
      | _ => exact hm
  | func r => exact refl h
  | builtin r => exact refl h

theorem freeze (h : Heap) (v : Value) : h.Hardens (h.freeze v) :=
  Heap.rel_freeze refl trans freezeNode h v

theorem reaches (hh : h.Hardens h') : h'.Reaches = h.Reaches := by
  have hchildren : h'.children = h.children := funext hh.children
  rw [Heap.Reaches, Heap.Reaches, hchildren]

end Heap.Hardens

/-! ## Visited objects -/

namespace Heap

variable {h : Heap} {seen : List Node}

theorem isVisited_of_isMutable {n : Node} (hn : n.isMutable = true) :
    h.isVisited seen n = h.isFixed n := by
  cases n with
  | func r => cases hn
  | builtin r => cases hn
  | _ => rfl

theorem isVisited_self {n : Node} (hn : h.Has n) :
    (h.freezeNode n).isVisited (remember seen n) n = true := by
  cases n with
  | list r => simp only [isVisited, freezeNode, h.list_modifyList_self _ hn]
  | dict r => simp only [isVisited, freezeNode, h.dict_modifyDict_self _ hn]
  | cell r => simp only [isVisited, freezeNode, h.cell_modifyCell_self _ hn]
  | func r => simp [isVisited, remember]
  | builtin r => simp [isVisited, remember]

theorem isVisited_mono {n m : Node} (hm : h.isVisited seen m = true) :
    (h.freezeNode n).isVisited (remember seen n) m = true := by
  have hfixed := (Hardens.freezeNode h n).fixed m
  cases m with
  | list r => exact hfixed hm
  | dict r => exact hfixed hm
  | cell r => exact hfixed hm
  | func r => cases n <;> simp_all [isVisited, remember]
  | builtin r => cases n <;> simp_all [isVisited, remember]

/-- Only the object itself is visited. -/
theorem isVisited_cases {n m : Node}
    (hm : (h.freezeNode n).isVisited (remember seen n) m = true) :
    h.isVisited seen m = true ∨ m = n := by
  -- an object that holds a flag is visited through it, any other through the list of those seen
  cases n with
  | list r =>
    cases m with
    | list s =>
      rcases h.list_modifyList_cases r (fun l => { l with frozen := true }) s with he | ⟨rfl, -⟩
      · exact .inl (by simpa only [isVisited, freezeNode, he] using hm)
      · exact .inr rfl
    | _ => exact .inl hm
  | dict r =>
    cases m with
    | dict s =>
      rcases h.dict_modifyDict_cases r (fun d => { d with frozen := true }) s with he | ⟨rfl, -⟩
      · exact .inl (by simpa only [isVisited, freezeNode, he] using hm)
      · exact .inr rfl
    | _ => exact .inl hm
  | cell r =>
    cases m with
    | cell s =>
      rcases h.cell_modifyCell_cases r (fun c => { c with frozen := true }) s with he | ⟨rfl, -⟩
      · exact .inl (by simpa only [isVisited, freezeNode, he] using hm)
      · exact .inr rfl
    | _ => exact .inl hm
  | func r =>
    cases m with
    | func s =>
      simp only [isVisited, remember, List.contains_cons, Bool.or_eq_true, beq_iff_eq] at hm
      exact hm.symm
    | builtin s => exact .inl (by simpa [isVisited, remember] using hm)
    | _ => exact .inl hm
  | builtin r =>
    cases m with
    | builtin s =>
      simp only [isVisited, remember, List.contains_cons, Bool.or_eq_true, beq_iff_eq] at hm
      exact hm.symm
    | func s => exact .inl (by simpa [isVisited, remember] using hm)
    | _ => exact .inl hm

/-- The objects of a heap. -/
def objects (h : Heap) : List Node :=
  (List.range h.lists.size).map (.list ⟨·⟩) ++ (List.range h.dicts.size).map (.dict ⟨·⟩) ++
    (List.range h.cells.size).map (.cell ⟨·⟩) ++ (List.range h.funcs.size).map (.func ⟨·⟩) ++
    (List.range h.builtins.size).map (.builtin ⟨·⟩)

theorem length_objects (h : Heap) : h.objects.length = h.nodeCount := by
  simp only [objects, nodeCount, List.length_append, List.length_map, List.length_range]

theorem mem_objects {n : Node} (hn : h.Has n) : n ∈ h.objects := by
  cases n <;> simp [objects] <;> exact ⟨_, hn, rfl⟩

end Heap

/-! ## The traversal -/

/-- Where freezing `roots` in the heap `h₀` stands: what a visited object holds is visited or to be
visited, unless it was settled from the start. -/
structure Heap.Marks (h₀ : Heap) (roots : List Node) (h : Heap) (seen work : List Node) : Prop where
  hardens : h₀.Hardens h
  roots : ∀ n ∈ roots, h.isVisited seen n = true ∨ h₀.Settled n ∨ n ∈ work
  held : ∀ m, h.isVisited seen m = true → h₀.Settled m ∨
    ∀ n ∈ h₀.children m, h.isVisited seen n = true ∨ h₀.Settled n ∨ n ∈ work
  work : ∀ n ∈ work, h₀.Has n

namespace Heap.Marks

variable {h₀ h : Heap} {roots seen work : List Node}

theorem start (hs : h₀.Sealed) (hroots : ∀ n ∈ roots, h₀.Has n) : h₀.Marks roots h₀ [] roots where
  hardens := .refl h₀
  roots n hn := .inr (.inr hn)
  held m hm := by
    cases hmut : m.isMutable with
    | true => exact .inl (hs m hmut (by rwa [isVisited_of_isMutable hmut] at hm))
    | false =>
      cases m with
      | func r => cases hm
      | builtin r => cases hm
      | _ => cases hmut
  work := hroots

/-- What is still to be visited is behind the objects that are passed over. -/
theorem mem_work {n : Node} (hn : n ∈ work) :
    h.isVisited seen n = true ∨ n ∈ work.dropWhile (h.isVisited seen) := by
  rw [← List.takeWhile_append_dropWhile (p := h.isVisited seen) (l := work)] at hn
  exact (List.mem_append.1 hn).imp_left List.mem_takeWhile_imp

theorem visit (hm : h₀.Marks roots h seen work) (hc : h₀.Closed) {n : Node} {rest : List Node}
    (hwork : work.dropWhile (h.isVisited seen) = n :: rest) :
    h₀.Marks roots (h.freezeNode n) (remember seen n) (h.children n ++ rest) := by
  have hsub : ∀ m ∈ n :: rest, m ∈ work := fun m hmem =>
    (List.dropWhile_sublist _).subset (hwork ▸ hmem)
  have hself : (h.freezeNode n).isVisited (remember seen n) n = true :=
    isVisited_self ((hm.hardens.has n).2 (hm.work n (hsub n List.mem_cons_self)))
  -- what was visited or to be visited still is
  have hkeep : ∀ m, h.isVisited seen m = true ∨ h₀.Settled m ∨ m ∈ work →
      (h.freezeNode n).isVisited (remember seen n) m = true ∨ h₀.Settled m ∨
        m ∈ h.children n ++ rest := by
    rintro m (hvis | hset | hmem)
    · exact .inl (isVisited_mono hvis)
    · exact .inr (.inl hset)
    · rcases mem_work hmem with hvis | hmem
      · exact .inl (isVisited_mono hvis)
      · rw [hwork] at hmem
        rcases List.mem_cons.1 hmem with rfl | hmem
        · exact .inl hself
        · exact .inr (.inr (List.mem_append_right _ hmem))
  refine ⟨hm.hardens.trans (.freezeNode h n), fun m hmem => hkeep m (hm.roots m hmem), ?_, ?_⟩
  · intro m hvis
    rcases isVisited_cases hvis with hvis | rfl
    · exact (hm.held m hvis).imp_right fun hall c hchild => hkeep c (hall c hchild)
    · refine .inr fun c hchild => .inr (.inr (List.mem_append_left _ ?_))
      rwa [hm.hardens.children]
  · intro m hmem
    rcases List.mem_append.1 hmem with hchild | hmem
    · rw [hm.hardens.children] at hchild
      exact hc n m hchild
    · exact hm.work m (hsub m (List.mem_cons_of_mem n hmem))

/-- The objects that are not yet visited. -/
def pending (h₀ h : Heap) (seen : List Node) : Finset Node :=
  h₀.objects.toFinset.filter fun n => h.isVisited seen n = false

theorem card_pending_lt {n : Node} (hn : h₀.Has n) (hh : h.Has n)
    (hnew : h.isVisited seen n = false) :
    (pending h₀ (h.freezeNode n) (remember seen n)).card < (pending h₀ h seen).card := by
  apply Finset.card_lt_card
  rw [Finset.ssubset_iff_of_subset]
  · refine ⟨n, ?_, ?_⟩
    · simp [pending, hnew, mem_objects hn]
    · simp [pending, isVisited_self hh]
  · intro m hm
    simp only [pending, Finset.mem_filter] at hm ⊢
    refine ⟨hm.1, Bool.eq_false_iff.2 fun hvis => ?_⟩
    rw [isVisited_mono hvis] at hm
    cases hm.2

/-- The traversal ends with nothing left to visit. -/
theorem freezeFrom (hm : h₀.Marks roots h seen work) (hc : h₀.Closed) {rounds : Nat}
    (hrounds : (pending h₀ h seen).card < rounds) :
    ∃ seen', h₀.Marks roots (Heap.freezeFrom rounds h seen work) seen' [] := by
  -- on the rounds; each leaves one node fewer to visit, so they never run out
  induction rounds generalizing h seen work with
  | zero => exact absurd hrounds (Nat.not_lt_zero _)
  | succ rounds ih =>
    unfold Heap.freezeFrom
    split
    · rename_i hnil
      have hdone : ∀ n, h.isVisited seen n = true ∨ h₀.Settled n ∨ n ∈ work →
          h.isVisited seen n = true ∨ h₀.Settled n ∨ n ∈ ([] : List Node) := by
        rintro n (hvis | hset | hmem)
        · exact .inl hvis
        · exact .inr (.inl hset)
        · rcases mem_work hmem with hvis | hmem
          · exact .inl hvis
          · rw [hnil] at hmem
            cases hmem
      exact ⟨seen, hm.hardens, fun n hn => hdone n (hm.roots n hn),
        fun m hvis => (hm.held m hvis).imp_right fun hall n hn => hdone n (hall n hn), nofun⟩
    · rename_i n rest hwork
      have hmem : n ∈ work := (List.dropWhile_sublist _).subset (hwork ▸ List.mem_cons_self)
      have hhas := hm.work n hmem
      have hnew : h.isVisited seen n = false := by
        have hhead := List.head?_dropWhile_not (h.isVisited seen) work
        rw [hwork] at hhead
        simpa using hhead
      have hlt := card_pending_lt hhas ((hm.hardens.has n).2 hhas) hnew
      exact ih (hm.visit hc hwork) (Nat.lt_of_lt_of_le hlt (Nat.le_of_lt_succ hrounds))

/-- When the traversal has ended, what a visited or settled object reaches is frozen. -/
theorem isFixed_of_reaches (hm : h₀.Marks roots h seen []) {m n : Node} (hr : h₀.Reaches m n)
    (hmark : h.isVisited seen m = true ∨ h₀.Settled m) : h.isFixed n = true := by
  have hmarked : h.isVisited seen n = true ∨ h₀.Settled n := by
    induction hr with
    | refl => exact hmark
    | @tail b c _ hchild ih =>
      have hsettled : h₀.Settled b → h₀.Settled c := fun hb d hd =>
        hb d (ReflTransGen.head hchild hd)
      rcases ih with hvis | hset
      · rcases hm.held b hvis with hset | hall
        · exact .inr (hsettled hset)
        · rcases hall c hchild with hvis | hset | hmem
          · exact .inl hvis
          · exact .inr hset
          · cases hmem
      · exact .inr (hsettled hset)
  rcases hmarked with hvis | hset
  · cases hmut : n.isMutable with
    | true => rwa [isVisited_of_isMutable hmut] at hvis
    | false =>
      cases n with
      | func r => rfl
      | builtin r => rfl
      | _ => cases hmut
  · exact hm.hardens.fixed n (hset n ReflTransGen.refl)

end Heap.Marks

namespace Heap

variable {h : Heap} {v : Value}

theorem marks_freeze (hs : h.Sealed) (hc : h.Closed) (hv : h.Holds v) :
    ∃ seen, h.Marks v.nodes (h.freeze v) seen [] := by
  have hcard : (Marks.pending h h []).card ≤ h.nodeCount :=
    calc (Marks.pending h h []).card ≤ h.objects.toFinset.card := Finset.card_filter_le _ _
      _ ≤ h.objects.length := List.toFinset_card_le _
      _ = h.nodeCount := h.length_objects
  exact (Marks.start hs hv).freezeFrom hc (Nat.lt_succ_of_le hcard)

/-- Freezing is deep. -/
theorem isFixed_freeze (hs : h.Sealed) (hc : h.Closed) (hv : h.Holds v) {m n : Node}
    (hm : m ∈ v.nodes)
    (hr : h.Reaches m n) : (h.freeze v).isFixed n = true := by
  obtain ⟨seen, hmarks⟩ := marks_freeze hs hc hv
  refine hmarks.isFixed_of_reaches hr ?_
  rcases hmarks.roots m hm with hvis | hset | hmem
  · exact .inl hvis
  · exact .inr hset
  · cases hmem

theorem sealed_freeze (hs : h.Sealed) (hc : h.Closed) (hv : h.Holds v) : (h.freeze v).Sealed := by
  obtain ⟨seen, hmarks⟩ := marks_freeze hs hc hv
  intro m hmut hfixed n hr
  rw [hmarks.hardens.reaches] at hr
  exact hmarks.isFixed_of_reaches hr (.inl (by rwa [isVisited_of_isMutable hmut]))

end Heap

end Starlark
