import Starlark.Proofs.Machine.Freezing

/-!
# Frozen for good

Operations on values neither freeze nor thaw anything, and they leave the contents of frozen lists
and dicts alone (`Heap.Frames`). A store into a cell does not ask whether the cell is frozen. So
lists and dicts that a frozen value reached keep their contents for good, and cells do as long as
nothing stores into them; that is also what a heap needs to stay sealed (`Heap.freeze_permanent`).
-/

set_option autoImplicit false

namespace Starlark

open Relation (ReflTransGen)

/-! ## Contents -/

namespace Heap

/-- The contents of an object are the same in two heaps. -/
def SameContents (h h' : Heap) : Node → Prop
  | .list r => (h'.list r).elems = (h.list r).elems
  | .dict r => (h'.dict r).entries = (h.dict r).entries
  | .cell r => (h'.cell r).content = (h.cell r).content
  | .func r => h'.func r = h.func r
  | .builtin r => h'.builtin r = h.builtin r

theorem SameContents.refl (h : Heap) (n : Node) : h.SameContents h n := by
  cases n <;> rfl

theorem SameContents.trans {h h' h'' : Heap} {n : Node} (h1 : h.SameContents h' n)
    (h2 : h'.SameContents h'' n) : h.SameContents h'' n := by
  cases n <;> exact Eq.trans h2 h1

/-- Objects with the same contents hold the same objects. -/
theorem SameContents.children_eq {h h' : Heap} {n : Node} (hs : h.SameContents h' n) :
    h'.children n = h.children n := by
  cases n with
  | list r => rw [children, children, show (h'.list r).elems = _ from hs]
  | dict r => rw [children, children, show (h'.dict r).entries = _ from hs]
  | cell r => rw [children, children, show (h'.cell r).content = _ from hs]
  | func r => rw [children, children, show h'.func r = _ from hs]
  | builtin r => rw [children, children, show h'.builtin r = _ from hs]

/-- Freezing leaves all contents. -/
theorem sameContents_freezeNode (h : Heap) (n m : Node) : h.SameContents (h.freezeNode n) m := by
  cases n with
  | list r =>
    cases m with
    | list s =>
      rcases h.list_modifyList_cases r (fun l => { l with frozen := true }) s with he | ⟨-, he⟩ <;>
        simp only [SameContents, freezeNode, he]
    | _ => rfl
  | dict r =>
    cases m with
    | dict s =>
      rcases h.dict_modifyDict_cases r (fun d => { d with frozen := true }) s with he | ⟨-, he⟩ <;>
        simp only [SameContents, freezeNode, he]
    | _ => rfl
  | cell r =>
    cases m with
    | cell s =>
      rcases h.cell_modifyCell_cases r (fun c => { c with frozen := true }) s with he | ⟨-, he⟩ <;>
        simp only [SameContents, freezeNode, he]
    | _ => rfl
  | func r => exact .refl h m
  | builtin r => exact .refl h m

/-- Freezing marks objects, and leaves what is in them. -/
theorem sameContents_freeze (h : Heap) (v : Value) (n : Node) : h.SameContents (h.freeze v) n :=
  rel_freeze (K := fun h h' => h.SameContents h' n) (fun h => .refl h n) .trans
    (fun h m => sameContents_freezeNode h m n) h v

end Heap

/-! ## Operations on frozen objects -/

/-- Objects are neither removed nor frozen nor thawed, and frozen ones keep their contents; cells
may be stored into. -/
structure Heap.Frames (h h' : Heap) : Prop where
  has : ∀ n, h.Has n → h'.Has n
  fixed : ∀ n, h'.isFixed n = h.isFixed n
  contents : ∀ n, h.Has n → h.isFixed n = true → (∀ r, n ≠ .cell r) → h.SameContents h' n

/-- Changing a list removes no object. -/
theorem Heap.Has.modifyList {h : Heap} {n : Node} (hn : h.Has n) (r : ListRef)
    (f : ListObj → ListObj) :
    (h.modifyList r f).Has n := by
  cases n with
  | list s => simpa [Has, Heap.modifyList] using hn
  | _ => exact hn

/-- Changing a dict removes no object. -/
theorem Heap.Has.modifyDict {h : Heap} {n : Node} (hn : h.Has n) (r : DictRef)
    (f : DictObj → DictObj) :
    (h.modifyDict r f).Has n := by
  cases n with
  | dict s => simpa [Has, Heap.modifyDict] using hn
  | _ => exact hn

namespace Heap.Frames

variable {h h' h'' : Heap}

theorem refl (h : Heap) : h.Frames h := ⟨fun _ => id, fun _ => rfl, fun n _ _ _ => .refl h n⟩

/-- What is framed by two steps is framed by both. -/
theorem trans (h1 : h.Frames h') (h2 : h'.Frames h'') : h.Frames h'' where
  has n hn := h2.has n (h1.has n hn)
  fixed n := (h2.fixed n).trans (h1.fixed n)
  contents n hn hf hc :=
    (h1.contents n hn hf hc).trans (h2.contents n (h1.has n hn) ((h1.fixed n).trans hf) hc)

/-- A list may be changed unless it is frozen. -/
theorem modifyList (h : Heap) (r : ListRef) {f : ListObj → ListObj}
    (hfrozen : (f (h.list r)).frozen = (h.list r).frozen)
    (helems : (h.list r).frozen = true → (f (h.list r)).elems = (h.list r).elems) :
    h.Frames (h.modifyList r f) := by
  have hcases := h.list_modifyList_cases r f
  refine ⟨fun n hn => hn.modifyList r f, fun n => ?_, fun n _ hfix _ => ?_⟩
  · cases n with
    | list s =>
      rcases hcases s with he | ⟨rfl, he⟩
      · simp only [isFixed, he]
      · simp only [isFixed, he, hfrozen]
    | _ => rfl
  · cases n with
    | list s =>
      rcases hcases s with he | ⟨rfl, he⟩
      · simp only [SameContents, he]
      · simp only [SameContents, he, helems hfix]
    | _ => rfl

/-- A dict may be changed unless it is frozen. -/
theorem modifyDict (h : Heap) (r : DictRef) {f : DictObj → DictObj}
    (hfrozen : (f (h.dict r)).frozen = (h.dict r).frozen)
    (hentries : (h.dict r).frozen = true → (f (h.dict r)).entries = (h.dict r).entries) :
    h.Frames (h.modifyDict r f) := by
  have hcases := h.dict_modifyDict_cases r f
  refine ⟨fun n hn => hn.modifyDict r f, fun n => ?_, fun n _ hfix _ => ?_⟩
  · cases n with
    | dict s =>
      rcases hcases s with he | ⟨rfl, he⟩
      · simp only [isFixed, he]
      · simp only [isFixed, he, hfrozen]
    | _ => rfl
  · cases n with
    | dict s =>
      rcases hcases s with he | ⟨rfl, he⟩
      · simp only [SameContents, he]
      · simp only [SameContents, he, hentries hfix]
    | _ => rfl

/-- A cell may be set, frozen or not: only lists and dicts are framed. -/
theorem setCell (h : Heap) (r : CellRef) (v : Value) : h.Frames (h.setCell r v) := by
  have hcases := h.cell_modifyCell_cases r fun c => { c with content := some v }
  refine ⟨fun n hn => ?_, fun n => ?_, fun n _ _ hcell => ?_⟩
  · cases n with
    | cell s => simpa [Has, Heap.setCell, modifyCell] using hn
    | _ => exact hn
  · cases n with
    | cell s => rcases hcases s with he | ⟨-, he⟩ <;> simp only [isFixed, Heap.setCell, he]
    | _ => rfl
  · cases n with
    | cell s => exact absurd rfl (hcell s)
    | _ => rfl

theorem newList (h : Heap) (elems : Array Value) : h.Frames (h.newList elems).2 := by
  refine ⟨fun n hn => ?_, fun n => ?_, fun n hn _ _ => ?_⟩
  · cases n with
    | list s => simpa [Has, Heap.newList] using Nat.lt_succ_of_lt hn
    | _ => exact hn
  · cases n with
    | list s =>
      rcases Nat.lt_or_ge s.index h.lists.size with hs | hs
      · simp only [isFixed, h.list_newList hs]
      · simp only [isFixed, Heap.newList, Heap.list, Array.getD_eq_getD_getElem?,
          Array.getElem?_push,
          Array.getElem?_eq_none hs]
        split <;> rfl
    | _ => rfl
  · cases n with
    | list s => exact congrArg ListObj.elems (h.list_newList hn elems)
    | _ => rfl

theorem newDict (h : Heap) (entries : Array (Value × Value)) : h.Frames (h.newDict entries).2 := by
  refine ⟨fun n hn => ?_, fun n => ?_, fun n hn _ _ => ?_⟩
  · cases n with
    | dict s => simpa [Has, Heap.newDict] using Nat.lt_succ_of_lt hn
    | _ => exact hn
  · cases n with
    | dict s =>
      rcases Nat.lt_or_ge s.index h.dicts.size with hs | hs
      · simp only [isFixed, h.dict_newDict hs]
      · simp only [isFixed, Heap.newDict, Heap.dict, Array.getD_eq_getD_getElem?,
          Array.getElem?_push,
          Array.getElem?_eq_none hs]
        split <;> rfl
    | _ => rfl
  · cases n with
    | dict s => exact congrArg DictObj.entries (h.dict_newDict hn entries)
    | _ => rfl

theorem newCell (h : Heap) (content : Option Value) : h.Frames (h.newCell content).2 := by
  refine ⟨fun n hn => ?_, fun n => ?_, fun n _ _ hcell => ?_⟩
  · cases n with
    | cell s => simpa [Has, Heap.newCell] using Nat.lt_succ_of_lt hn
    | _ => exact hn
  · cases n with
    | cell s =>
      simp only [isFixed, Heap.newCell, Heap.cell, Array.getD_eq_getD_getElem?, Array.getElem?_push]
      split
      · rename_i hs
        simp only [hs, Array.getElem?_eq_none (Nat.le_refl _)]
        rfl
      · rfl
    | _ => rfl
  · cases n with
    | cell s => exact absurd rfl (hcell s)
    | _ => rfl

theorem newFunc (h : Heap) (f : FuncObj) : h.Frames (h.newFunc f).2 := by
  refine ⟨fun n hn => ?_, fun n => ?_, fun n hn _ _ => ?_⟩
  · cases n with
    | func s => simpa [Has, Heap.newFunc] using Nat.lt_succ_of_lt hn
    | _ => exact hn
  · cases n <;> rfl
  · cases n with
    | func s =>
      have hs : s.index < h.funcs.size := hn
      simp only [SameContents, Heap.newFunc, Heap.func, Array.getD_eq_getD_getElem?,
        Array.getElem?_push_lt hs, Array.getElem?_eq_getElem hs]
    | _ => rfl

theorem newBuiltin (h : Heap) (op : BuiltinOp) (receiver : Option Value) :
    h.Frames (h.newBuiltin op receiver).2 := by
  refine ⟨fun n hn => ?_, fun n => ?_, fun n hn _ _ => ?_⟩
  · cases n with
    | builtin s => simpa [Has, Heap.newBuiltin] using Nat.lt_succ_of_lt hn
    | _ => exact hn
  · cases n <;> rfl
  · cases n with
    | builtin s =>
      have hs : s.index < h.builtins.size := hn
      simp only [SameContents, Heap.newBuiltin, Heap.builtin, Array.getD_eq_getD_getElem?,
        Array.getElem?_push_lt hs, Array.getElem?_eq_getElem hs]
    | _ => rfl

/-- A change does nothing to what is frozen. -/
theorem of_change (hc : h.Change h') : h.Frames h' := by
  cases hc with
  | newList elems => exact newList h elems
  | newDict => exact newDict h #[]
  | newBuiltin op receiver => exact newBuiltin h op receiver
  | setList r f hfrozen _ =>
    refine modifyList h r rfl fun hr => ?_
    rw [hfrozen] at hr
    cases hr
  | insert r v _ hfrozen _ =>
    refine modifyDict h r (DictObj.frozen_insert _ _ v) fun hr => ?_
    rw [hfrozen] at hr
    cases hr

/-- No evolution does anything to what is frozen. -/
theorem of_evolves (he : h.Evolves h') : h.Frames h' := by
  induction he with
  | refl => exact refl h
  | tail _ hc ih => exact ih.trans (of_change hc)

/-- Opening an iterator counts it, and does nothing else. -/
theorem openIter (h : Heap) (v : Value) : h.Frames (h.openIter v).2 := by
  cases v with
  | list r =>
    rw [Heap.openIter]
    split
    · exact modifyList h r rfl fun _ => rfl
    · exact refl h
  | dict r =>
    rw [Heap.openIter]
    split
    · exact modifyDict h r rfl fun _ => rfl
    · exact refl h
  | _ => exact refl h

/-- Closing an iterator counts it off, and does nothing else. -/
theorem closeIter (h : Heap) (it : Iter) : h.Frames (h.closeIter it) := by
  cases it with
  | list r i => exact modifyList h r rfl fun _ => rfl
  | dict r i => exact modifyDict h r rfl fun _ => rfl
  | tuple rest => exact refl h

/-- A heap stays sealed if its frozen cells are not stored into. -/
theorem isSealed (hf : h.Frames h') (hclosed : h.Closed) (hs : h.Sealed)
    (hcells : ∀ r, (h.cell r).frozen = true → (h'.cell r).content = (h.cell r).content) :
    h'.Sealed := by
  intro m hmut hm n hr
  rw [hf.fixed] at hm
  have hhas : h.Has m := by
    cases m with
    | list r => exact h.index_lt_of_frozen_list hm
    | dict r => exact h.index_lt_of_frozen_dict hm
    | cell r =>
      refine Nat.lt_of_not_le fun hle => ?_
      simp only [isFixed, Heap.cell, Array.getD_eq_getD_getElem?, Array.getElem?_eq_none hle] at hm
      cases hm
    | _ => cases hmut
  -- a path in the second heap is one in the first, since all objects on it are frozen
  have hpath : h.Reaches m n := by
    induction hr with
    | refl => exact ReflTransGen.refl
    | @tail b c _ hchild ih =>
      have hb := hs m hmut hm b ih
      have hsame : h.SameContents h' b := by
        cases b with
        | cell r => exact hcells r hb
        | _ => exact hf.contents _ (hclosed.reaches ih hhas) hb fun r he => by cases he
      rw [hsame.children_eq] at hchild
      exact ih.tail hchild
  rw [hf.fixed]
  exact hs m hmut hm n hpath

end Heap.Frames

/-! ## Closed heaps -/

/-- What values hold is what each of them holds. -/
theorem Value.mem_nodesOfList {n : Node} {vs : List Value} :
    n ∈ Value.nodesOfList vs ↔ ∃ v ∈ vs, n ∈ v.nodes := by
  induction vs with
  | nil => simp [Value.nodesOfList]
  | cons v vs ih => simp [Value.nodesOfList, ih]

namespace Heap

variable {h h' : Heap}

/-- A heap with more objects holds what the smaller one held. -/
theorem Holds.mono {v : Value} (hv : h.Holds v) (hhas : ∀ n, h.Has n → h'.Has n) : h'.Holds v :=
  fun n hn => hhas n (hv n hn)

namespace Closed

/-- The elements of a list are held by the heap. -/
theorem holds_elem (hc : h.Closed) {r : ListRef} {v : Value} (hv : v ∈ (h.list r).elems.toList) :
    h.Holds v := fun n hn => hc (.list r) n (Value.mem_nodesOfList.2 ⟨v, hv, hn⟩)

/-- The entries of a dict are held by the heap. -/
theorem holds_entry (hc : h.Closed) {r : DictRef} {e : Value × Value}
    (he : e ∈ (h.dict r).entries.toList) : h.Holds e.1 ∧ h.Holds e.2 := by
  have hmem : ∀ n ∈ e.1.nodes ++ e.2.nodes, h.Has n := fun n hn =>
    hc (.dict r) n (List.mem_flatMap.2 ⟨e, he, hn⟩)
  exact ⟨fun n hn => hmem n (List.mem_append_left _ hn),
    fun n hn => hmem n (List.mem_append_right _ hn)⟩

/-- What a value is iterated over is held where the value is. -/
theorem holds_element (hc : h.Closed) {v x : Value} {elems : List Value} (hv : h.Holds v)
    (he : h.elements? v = some elems) (hx : x ∈ elems) : h.Holds x := by
  cases v with
  | list r =>
    cases he
    exact hc.holds_elem hx
  | tuple vs =>
    cases he
    intro n hn
    refine hv n ?_
    rw [Value.nodes]
    exact Value.mem_nodesOfList.2 ⟨x, hx, hn⟩
  | dict r =>
    cases he
    obtain ⟨e, hmem, rfl⟩ := List.mem_map.1 hx
    exact (hc.holds_entry hmem).1
  | _ => cases he

/-- All contents are in the heap, if the new ones are. -/
theorem of_cases (hc : h.Closed) (hhas : ∀ n, h.Has n → h'.Has n)
    (hnew : ∀ m, h'.children m = h.children m ∨ ∀ n ∈ h'.children m, h'.Has n) : h'.Closed := by
  intro m n hn
  rcases hnew m with he | hall
  · exact hhas n (hc m n (he ▸ hn))
  · exact hall n hn

/-- A closed heap stays closed if a list gets elements that it holds. -/
theorem modifyList (hc : h.Closed) {r : ListRef} {f : ListObj → ListObj}
    (hf : ∀ v ∈ (f (h.list r)).elems.toList, h.Holds v) : (h.modifyList r f).Closed := by
  refine hc.of_cases (fun n hn => hn.modifyList r f) fun m => ?_
  cases m with
  | list s =>
    rcases h.list_modifyList_cases r f s with he | ⟨rfl, he⟩
    · exact .inl (by simp only [children, he])
    · refine .inr fun n hn => ?_
      rw [children, he, Value.mem_nodesOfList] at hn
      obtain ⟨v, hv, hn⟩ := hn
      exact (hf v hv n hn).modifyList s f
  | _ => exact .inl rfl

/-- A closed heap stays closed if a dict gets entries that it holds. -/
theorem modifyDict (hc : h.Closed) {r : DictRef} {f : DictObj → DictObj}
    (hf : ∀ e ∈ (f (h.dict r)).entries.toList, h.Holds e.1 ∧ h.Holds e.2) :
    (h.modifyDict r f).Closed := by
  refine hc.of_cases (fun n hn => hn.modifyDict r f) fun m => ?_
  cases m with
  | dict s =>
    rcases h.dict_modifyDict_cases r f s with he | ⟨rfl, he⟩
    · exact .inl (by simp only [children, he])
    · refine .inr fun n hn => ?_
      rw [children, he, List.mem_flatMap] at hn
      obtain ⟨e, hmem, hn⟩ := hn
      rcases List.mem_append.1 hn with hn | hn
      · exact ((hf e hmem).1 n hn).modifyDict s f
      · exact ((hf e hmem).2 n hn).modifyDict s f
  | _ => exact .inl rfl

/-- A closed heap stays closed if a cell gets a value that it holds. -/
theorem setCell (hc : h.Closed) (r : CellRef) {v : Value} (hv : h.Holds v) :
    (h.setCell r v).Closed := by
  have hhas := (Frames.setCell h r v).has
  refine hc.of_cases hhas fun m => ?_
  cases m with
  | cell s =>
    rcases h.cell_modifyCell_cases r (fun c => { c with content := some v }) s with he | ⟨rfl, he⟩
    · exact .inl (by simp only [children, Heap.setCell, he])
    · refine .inr fun n hn => ?_
      simp only [children, Heap.setCell, he, Option.map_some, Option.getD_some] at hn
      exact hhas n (hv n hn)
  | _ => exact .inl rfl

theorem newList (hc : h.Closed) {elems : Array Value} (helems : ∀ v ∈ elems.toList, h.Holds v) :
    (h.newList elems).2.Closed := by
  have hhas := (Frames.newList h elems).has
  refine hc.of_cases hhas fun m => ?_
  cases m with
  | list s =>
    simp only [children, Heap.newList, Heap.list, Array.getD_eq_getD_getElem?, Array.getElem?_push]
    split
    · refine .inr fun n hn => ?_
      obtain ⟨v, hv, hn⟩ := Value.mem_nodesOfList.1 hn
      exact hhas n (helems v hv n hn)
    · exact .inl rfl
  | _ => exact .inl rfl

theorem newDict (hc : h.Closed) : (h.newDict #[]).2.Closed := by
  refine hc.of_cases (Frames.newDict h #[]).has fun m => ?_
  cases m with
  | dict s =>
    simp only [children, Heap.newDict, Heap.dict, Array.getD_eq_getD_getElem?, Array.getElem?_push]
    split
    · exact .inr fun n hn => absurd hn List.not_mem_nil
    · exact .inl rfl
  | _ => exact .inl rfl

theorem newCell (hc : h.Closed) {content : Option Value} (hv : ∀ v ∈ content, h.Holds v) :
    (h.newCell content).2.Closed := by
  have hhas := (Frames.newCell h content).has
  refine hc.of_cases hhas fun m => ?_
  cases m with
  | cell s =>
    simp only [children, Heap.newCell, Heap.cell, Array.getD_eq_getD_getElem?, Array.getElem?_push]
    split
    · refine .inr fun n hn => ?_
      cases content with
      | none => cases hn
      | some v => exact hhas n (hv v rfl n hn)
    · exact .inl rfl
  | _ => exact .inl rfl

/-- A function may be made of defaults and free variables that the heap holds. -/
theorem newFunc (hc : h.Closed) {f : FuncObj}
    (hf : ∀ v ∈ f.defaults.toList ++ f.freeVars.toList, h.Holds v) : (h.newFunc f).2.Closed := by
  have hhas := (Frames.newFunc h f).has
  refine hc.of_cases hhas fun m => ?_
  cases m with
  | func s =>
    simp only [children, Heap.newFunc, Heap.func, Array.getD_eq_getD_getElem?, Array.getElem?_push]
    split
    · refine .inr fun n hn => ?_
      rcases List.mem_append.1 hn with hn | hn
      all_goals obtain ⟨v, hv, hn⟩ := Value.mem_nodesOfList.1 hn
      · exact hhas n (hf v (List.mem_append_left _ hv) n hn)
      · exact hhas n (hf v (List.mem_append_right _ hv) n hn)
    · exact .inl rfl
  | _ => exact .inl rfl

theorem newBuiltin (hc : h.Closed) (op : BuiltinOp) {receiver : Option Value}
    (hv : ∀ v ∈ receiver, h.Holds v) : (h.newBuiltin op receiver).2.Closed := by
  have hhas := (Frames.newBuiltin h op receiver).has
  refine hc.of_cases hhas fun m => ?_
  cases m with
  | builtin s =>
    simp only [children, Heap.newBuiltin, Heap.builtin, Array.getD_eq_getD_getElem?,
      Array.getElem?_push]
    split
    · refine .inr fun n hn => ?_
      cases receiver with
      | none => cases hn
      | some v => exact hhas n (hv v rfl n hn)
    · exact .inl rfl
  | _ => exact .inl rfl

theorem openIter (hc : h.Closed) (v : Value) : (h.openIter v).2.Closed := by
  cases v with
  | list r =>
    rw [Heap.openIter]
    split
    · exact hc.modifyList fun v hv => hc.holds_elem hv
    · exact hc
  | dict r =>
    rw [Heap.openIter]
    split
    · exact hc.modifyDict fun e he => hc.holds_entry he
    · exact hc
  | _ => exact hc

theorem closeIter (hc : h.Closed) (it : Iter) : (h.closeIter it).Closed := by
  cases it with
  | list r i => exact hc.modifyList fun v hv => hc.holds_elem hv
  | dict r i => exact hc.modifyDict fun e he => hc.holds_entry he
  | tuple rest => exact hc

/-- Marking objects adds none. -/
theorem hardens (hc : h.Closed) (hh : h.Hardens h') : h'.Closed := by
  intro m n hn
  rw [hh.children] at hn
  exact (hh.has n).2 (hc m n hn)

end Closed

end Heap

/-- Started in a closed heap, an operation leads to one, and to a result with a property. -/
def Op.Confined {α : Type} (Q : α → Heap → Prop) (m : Op α) (h : Heap) : Prop :=
  match m h with
  | .ok a h' => h'.Closed ∧ (∀ n, h.Has n → h'.Has n) ∧ Q a h'
  | .error _ h' => h'.Closed

namespace Op

namespace Confined

variable {α β : Type} {Q : α → Heap → Prop} {P : β → Heap → Prop} {h : Heap}

/-- Confined operations in sequence: the second starts in a closed heap with at least the same
objects. -/
theorem bind {m : Op α} {f : α → Op β} (hm : Confined Q m h)
    (hf : ∀ a h', h'.Closed → (∀ n, h.Has n → h'.Has n) → Q a h' → Confined P (f a) h') :
    Confined P (m >>= f) h := by
  unfold Confined at hm ⊢
  simp only [Bind.bind, EStateM.bind]
  -- where the first fails the second never runs, and else it runs in a heap that is closed again
  cases hmh : m h with
  | error e h' =>
    rw [hmh] at hm
    exact hm
  | ok a h' =>
    rw [hmh] at hm
    obtain ⟨hc, hhas, hq⟩ := hm
    have h2 := hf a h' hc hhas hq
    unfold Confined at h2
    cases hfa : f a h' with
    | error e h'' =>
      simp only [hfa] at h2 ⊢
      exact h2
    | ok b h'' =>
      simp only [hfa] at h2 ⊢
      exact ⟨h2.1, fun n hn => h2.2.1 n (hhas n hn), h2.2.2⟩

theorem fail (hc : h.Closed) (e : Error) : Confined Q (Op.fail e : Op α) h := hc

theorem read (hc : h.Closed) (f : Heap → α) : Confined (fun a h' => h' = h ∧ a = f h)
    (Op.read f) h :=
  ⟨hc, fun _ => id, rfl, rfl⟩

/-- A check does nothing to the heap. -/
theorem check (hc : h.Closed) (f : Heap → Except Error α) :
    Confined (fun _ h' => h' = h) (Op.check f) h := by
  unfold Confined Op.check
  split
  · rename_i heq
    split at heq <;> cases heq
    exact ⟨hc, fun _ => id, rfl⟩
  · rename_i heq
    split at heq <;> cases heq
    exact hc

/-- A change of the heap is confined if it leaves a closed heap without removing objects. -/
theorem modify {f : Heap → Heap} (hc : (f h).Closed) (hhas : ∀ n, h.Has n → (f h).Has n) :
    Confined (fun _ _ => True) (modify f : Op PUnit) h := ⟨hc, hhas, trivial⟩

/-- A result is made of that of an operation. -/
theorem give {m : Op α} (hm : Confined Q m h) (f : α → Value) :
    Confined (fun _ _ => True) (m >>= fun a => pure (f a)) h :=
  hm.bind fun _ _ hc' _ _ => ⟨hc', fun _ => id, trivial⟩

end Confined

variable {h : Heap}

theorem confined_append (hc : h.Closed) (r : ListRef) {v : Value} (hv : h.Holds v) :
    Confined (fun _ _ => True) (append r v) h := by
  refine (Confined.check hc _).bind fun _ h' hc' _ heq => ?_
  subst heq
  refine .modify (hc'.modifyList fun x hx => ?_) fun n hn => hn.modifyList r _
  rw [Array.toList_push] at hx
  rcases List.mem_append.1 hx with hx | hx
  · exact hc'.holds_elem hx
  · exact List.mem_singleton.1 hx ▸ hv

/-- A list may be extended with the elements of a value that the heap holds. -/
theorem confined_extend (hc : h.Closed) (r : ListRef) {v : Value} (hv : h.Holds v) :
    Confined (fun _ _ => True) (extend r v) h := by
  refine (Confined.check hc _).bind fun _ h' hc' _ heq => ?_
  subst heq
  have hdrain : Confined (fun elems h'' => h'' = h' ∧ elems = h'.elements? v) (drain v) h' := by
    unfold Confined
    rw [drain_eq]
    exact ⟨hc', fun _ => id, rfl, rfl⟩
  refine hdrain.bind fun elems h'' hc'' _ heq => ?_
  obtain ⟨rfl, helems⟩ := heq
  cases elems with
  | none => exact .fail hc'' _
  | some items =>
    refine .modify (hc''.modifyList fun x hx => ?_) fun n hn => hn.modifyList r _
    have hx : x ∈ ((h''.list r).elems ++ items).toList := hx
    rw [Array.toList_appendList] at hx
    rcases List.mem_append.1 hx with hx | hx
    · exact hc''.holds_elem hx
    · exact hc''.holds_element hv helems.symm hx

theorem confined_insert (hc : h.Closed) (r : DictRef) {k v : Value} (hk : h.Holds k)
    (hv : h.Holds v) :
    Confined (fun _ _ => True) (insert r k v) h := by
  refine (Confined.check hc _).bind fun _ h' _ _ heq => ?_
  subst heq
  refine (Confined.check hc _).bind fun _ h'' _ _ heq => ?_
  subst heq
  refine (Confined.read hc _).bind fun _ h'' hc'' _ heq => ?_
  obtain ⟨rfl, -⟩ := heq
  refine (Confined.modify (hc''.modifyDict fun e he => ?_) fun n hn => hn.modifyDict r _).bind
    fun _ h3 hc3 hhas3 _ => ⟨hc3, fun _ => id, trivial⟩
  -- the checks leave the heap alone; an entry of the new table is an old one, or has the new key or
  -- value
  unfold DictObj.insert at he
  split at he
  · obtain ⟨e', he', hcase⟩ := mem_modify_cases (Array.mem_toList_iff.1 he)
    have hold := hc''.holds_entry (Array.mem_toList_iff.2 he')
    rcases hcase with rfl | rfl
    · exact hold
    · exact ⟨hold.1, hv⟩
  · rw [Array.toList_push] at he
    rcases List.mem_append.1 he with he | he
    · exact hc''.holds_entry he
    · exact List.mem_singleton.1 he ▸ ⟨hk, hv⟩

/-- Entries that the heap holds may be inserted, one after another. -/
theorem confined_insertAll (r : DictRef) {es : List (Value × Value)} {h : Heap} (hc : h.Closed)
    (hes : ∀ e ∈ es, h.Holds e.1 ∧ h.Holds e.2) :
    Confined (fun _ _ => True) (insertAll r es) h := by
  induction es generalizing h with
  | nil => exact ⟨hc, fun _ => id, trivial⟩
  | cons e es ih =>
    obtain ⟨he, hes⟩ := List.forall_mem_cons.1 hes
    refine (confined_insert hc r he.1 he.2).bind fun _ h' hc' hhas _ => ?_
    exact ih hc' fun e he => ⟨(hes e he).1.mono hhas, (hes e he).2.mono hhas⟩

/-- A dict may be united with another one of the heap. -/
theorem confined_update (hc : h.Closed) (r other : DictRef) :
    Confined (fun _ _ => True) (update r other) h := by
  refine (Confined.check hc _).bind fun _ h' hc' _ heq => ?_
  subst heq
  refine (Confined.read hc' _).bind fun es h'' hc'' _ heq => ?_
  obtain ⟨rfl, rfl⟩ := heq
  exact confined_insertAll r hc'' fun e he => hc''.holds_entry he

theorem confined_setIndex (hc : h.Closed) (x : Value) {y z : Value} (hy : h.Holds y)
    (hz : h.Holds z) :
    Confined (fun _ _ => True) (setIndex x y z) h := by
  unfold setIndex
  split
  · rename_i r
    refine (Confined.check hc _).bind fun _ h' hc' _ heq => ?_
    subst heq
    refine (Confined.check hc' _).bind fun i h'' hc'' _ heq => ?_
    subst heq
    refine .modify (hc''.modifyList fun v hv => ?_) fun n hn => hn.modifyList r _
    rcases Array.mem_or_eq_of_mem_setIfInBounds (Array.mem_toList_iff.1 hv) with hv | rfl
    · exact hc''.holds_elem (Array.mem_toList_iff.2 hv)
    · exact hz
  · exact (confined_insert hc _ hy hz).bind fun _ h' hc' _ _ => ⟨hc', fun _ => id, trivial⟩
  · exact .fail hc _

end Op

/-- A confined operation of a host leaves a closed heap, whether it succeeds or fails. -/
theorem Operation.closed_after {o : Operation} {h : Heap} {Q : Value → Heap → Prop}
    (ho : Op.Confined Q o.run h) : (o.after h).Closed := by
  unfold Op.Confined at ho
  unfold after
  split <;> rename_i hrun <;> rw [hrun] at ho
  · exact ho.1
  · exact ho

/-! ## Work on a heap -/

/-- One thing that is done with a heap and with values in it, whether it succeeds or not. -/
inductive Heap.Works (h : Heap) : Heap → Prop where
  | append (r : ListRef) {v : Value} (hv : h.Holds v) : Works h ((Operation.append r v).after h)
  | extend (r : ListRef) {v : Value} (hv : h.Holds v) : Works h ((Operation.extend r v).after h)
  | setIndex (x : Value) {y z : Value} (hy : h.Holds y) (hz : h.Holds z) :
      Works h ((Operation.setIndex x y z).after h)
  | insert (r : DictRef) {k v : Value} (hk : h.Holds k) (hv : h.Holds v) :
      Works h ((Operation.insert r k v).after h)
  | update (r other : DictRef) : Works h ((Operation.update r other).after h)
  | setCell (r : CellRef) {v : Value} (hv : h.Holds v) : Works h (h.setCell r v)
  | openIter (v : Value) : Works h (h.openIter v).2
  | closeIter (it : Iter) : Works h (h.closeIter it)
  | freeze {v : Value} (hv : h.Holds v) : Works h (h.freeze v)
  | newList {elems : Array Value} (helems : ∀ v ∈ elems.toList, h.Holds v) :
      Works h (h.newList elems).2
  | newDict : Works h (h.newDict #[]).2
  | newCell {content : Option Value} (hv : ∀ v ∈ content, h.Holds v) : Works h (h.newCell content).2
  | newFunc {f : FuncObj} (hf : ∀ v ∈ f.defaults.toList ++ f.freeVars.toList, h.Holds v) :
      Works h (h.newFunc f).2
  | newBuiltin (op : BuiltinOp) {receiver : Option Value} (hv : ∀ v ∈ receiver, h.Holds v) :
      Works h (h.newBuiltin op receiver).2

/-- Something is done that leaves the contents of frozen cells. -/
def Heap.WorksCarefully (h h' : Heap) : Prop :=
  h.Works h' ∧ ∀ r, (h.cell r).frozen = true → (h'.cell r).content = (h.cell r).content

namespace Heap.Works

variable {h h' : Heap}

/-- What works on a closed heap leaves it closed. -/
theorem closed (hw : h.Works h') (hc : h.Closed) : h'.Closed := by
  cases hw with
  | append r hv => exact Operation.closed_after ((Op.confined_append hc r hv).give _)
  | extend r hv => exact Operation.closed_after ((Op.confined_extend hc r hv).give _)
  | setIndex x hy hz => exact Operation.closed_after ((Op.confined_setIndex hc x hy hz).give _)
  | insert r hk hv => exact Operation.closed_after ((Op.confined_insert hc r hk hv).give _)
  | update r other => exact Operation.closed_after ((Op.confined_update hc r other).give _)
  | setCell r hv => exact hc.setCell r hv
  | openIter v => exact hc.openIter v
  | closeIter it => exact hc.closeIter it
  | freeze hv => exact hc.hardens (.freeze h _)
  | newList helems => exact hc.newList helems
  | newDict => exact hc.newDict
  | newCell hv => exact hc.newCell hv
  | newFunc hf => exact hc.newFunc hf
  | newBuiltin op hv => exact hc.newBuiltin op hv

/-- Everything but freezing leaves the flags of all objects. -/
theorem frames_or_freeze (hw : h.Works h') :
    h.Frames h' ∨ ∃ v, h.Holds v ∧ h' = h.freeze v := by
  cases hw with
  | setCell r hv => exact .inl (.setCell h r _)
  | openIter v => exact .inl (.openIter h v)
  | closeIter it => exact .inl (.closeIter h it)
  | freeze hv => exact .inr ⟨_, hv, rfl⟩
  | newList helems => exact .inl (.newList h _)
  | newDict => exact .inl (.newDict h _)
  | newCell hv => exact .inl (.newCell h _)
  | newFunc hf => exact .inl (.newFunc h _)
  | newBuiltin op hv => exact .inl (.newBuiltin h op _)
  | _ => exact .inl (.of_evolves (Operation.evolves_after _ h))

/-- What is frozen stays frozen and in the heap, and keeps its contents if it is not a cell. -/
theorem keeps (hw : h.Works h') {n : Node} (hn : h.Has n) (hf : h.isFixed n = true) :
    h'.Has n ∧ h'.isFixed n = true ∧ ((∀ r, n ≠ .cell r) → h.SameContents h' n) := by
  rcases hw.frames_or_freeze with hframe | ⟨v, hv, rfl⟩
  · exact ⟨hframe.has n hn, (hframe.fixed n).trans hf, hframe.contents n hn hf⟩
  · have hh := Hardens.freeze h v
    exact ⟨(hh.has n).2 hn, hh.fixed n hf, fun _ => sameContents_freeze h v n⟩

end Heap.Works

namespace Heap.WorksCarefully

variable {h h' : Heap}

/-- Careful work does nothing to an object that is fixed. -/
theorem keeps (hw : h.WorksCarefully h') {n : Node} (hn : h.Has n) (hf : h.isFixed n = true) :
    h.SameContents h' n := by
  cases n with
  | cell r => exact hw.2 r hf
  | _ => exact (hw.1.keeps hn hf).2.2 nofun

/-- A sealed heap stays sealed under careful work. -/
theorem isSealed (hw : h.WorksCarefully h') (hc : h.Closed) (hs : h.Sealed) : h'.Sealed := by
  rcases hw.1.frames_or_freeze with hframe | ⟨v, hv, rfl⟩
  · exact hframe.isSealed hc hs hw.2
  · exact sealed_freeze hs hc hv

end Heap.WorksCarefully

namespace Heap

/-- All that a frozen value reached is frozen for good. Its lists and dicts keep their contents
whatever is done. If no frozen cell is stored into, then its cells keep theirs as well, and whatever
a frozen object reaches is frozen; but a store into a frozen cell is not refused. -/
theorem freeze_permanent {h : Heap} (hc : h.Closed) (hs : h.Sealed) {v : Value} (hv : h.Holds v) :
    (∀ h', ReflTransGen Works (h.freeze v) h' → ∀ m ∈ v.nodes, ∀ n, h.Reaches m n →
      h'.isFixed n = true ∧ ((∀ r, n ≠ .cell r) → h.SameContents h' n)) ∧
    (∀ h', ReflTransGen WorksCarefully (h.freeze v) h' → h'.Sealed ∧
      ∀ m ∈ v.nodes, ∀ n, h.Reaches m n → h.SameContents h' n) ∧
    ∀ r x, .cell r ∈ v.nodes → ((h.freeze v).cell r).frozen = true ∧
      (((h.freeze v).setCell r x).cell r).content = some x := by
  have hdeep : ∀ m ∈ v.nodes, ∀ n, h.Reaches m n →
      (h.freeze v).Has n ∧ (h.freeze v).isFixed n = true := fun m hm n hr =>
    ⟨((Hardens.freeze h v).has n).2 (hc.reaches hr (hv m hm)), isFixed_freeze hs hc hv hm hr⟩
  refine ⟨fun h' hworks m hm n hr => ?_, fun h' hworks => ?_, fun r x hr => ?_⟩
  -- no operation unfixes an object, and only a cell's content can change while it is fixed
  · have hkeep : h'.Has n ∧ h'.isFixed n = true ∧ ((∀ r, n ≠ .cell r) → h.SameContents h' n) := by
      induction hworks with
      | refl => exact ⟨(hdeep m hm n hr).1, (hdeep m hm n hr).2, fun _ => sameContents_freeze h v n⟩
      | tail _ hw ih =>
        obtain ⟨hn, hf, hsame⟩ := ih
        obtain ⟨hn', hf', hsame'⟩ := hw.keeps hn hf
        exact ⟨hn', hf', fun hcell => (hsame hcell).trans (hsame' hcell)⟩
    exact hkeep.2
  · have hkeep : h'.Closed ∧ h'.Sealed ∧ ∀ m ∈ v.nodes, ∀ n, h.Reaches m n →
        h'.Has n ∧ h'.isFixed n = true ∧ h.SameContents h' n := by
      induction hworks with
      | refl =>
        exact ⟨hc.hardens (.freeze h v), sealed_freeze hs hc hv, fun m hm n hr =>
          ⟨(hdeep m hm n hr).1, (hdeep m hm n hr).2, sameContents_freeze h v n⟩⟩
      | tail _ hw ih =>
        obtain ⟨hc', hs', hall⟩ := ih
        refine ⟨hw.1.closed hc', hw.isSealed hc' hs', fun m hm n hr => ?_⟩
        obtain ⟨hn, hf, hsame⟩ := hall m hm n hr
        obtain ⟨hn', hf', -⟩ := hw.1.keeps hn hf
        exact ⟨hn', hf', hsame.trans (hw.keeps hn hf)⟩
    exact ⟨hkeep.2.1, fun m hm n hr => (hkeep.2.2 m hm n hr).2.2⟩
  -- a frozen cell is stored into all the same
  · obtain ⟨hin, hfrozen⟩ := hdeep _ hr _ ReflTransGen.refl
    refine ⟨hfrozen, ?_⟩
    rw [setCell, cell_modifyCell_self _ _ hin]

/-- A list and a cell that hold each other. -/
def knot :
    Heap := { lists := #[{ elems := #[.cell ⟨0⟩] }], cells := #[{ content := some (.list ⟨0⟩) }] }

theorem closed_knot : knot.Closed := by
  intro m n hn
  -- one list and one cell, each of which holds the other
  cases m with
  | list r =>
    cases hr : r.index with
    | zero =>
      simp only [children, list, knot, hr] at hn
      rw [List.mem_singleton.1 hn]
      exact Nat.one_pos
    | succ i =>
      simp only [children, list, knot, hr] at hn
      cases hn
  | cell r =>
    cases hr : r.index with
    | zero =>
      simp only [children, cell, knot, hr] at hn
      rw [List.mem_singleton.1 hn]
      exact Nat.one_pos
    | succ i =>
      simp only [children, cell, knot, hr] at hn
      cases hn
  | _ => cases hn

theorem sealed_knot : knot.Sealed := by
  -- nothing is frozen
  have hthawed : ∀ m : Node, m.isMutable = true → knot.isFixed m = false := by
    intro m hmut
    cases m with
    | list r => cases hr : r.index <;> simp only [isFixed, list, knot, hr] <;> rfl
    | dict r => rfl
    | cell r => cases hr : r.index <;> simp only [isFixed, cell, knot, hr] <;> rfl
    | _ => cases hmut
  intro m hmut hm
  rw [hthawed m hmut] at hm
  cases hm

/-- The cell of the knot is frozen with the list, which can no longer be appended to. -/
theorem freeze_permanent_knot :
    let h := (Operation.append ⟨0⟩ .null).after (knot.freeze (.list ⟨0⟩))
    h.isFixed (.cell ⟨0⟩) = true ∧ (h.list ⟨0⟩).elems = #[.cell ⟨0⟩] := by
  intro h
  have hv : knot.Holds (.list ⟨0⟩) := fun n hn => List.mem_singleton.1 hn ▸ Nat.one_pos
  have hworks : ReflTransGen Works (knot.freeze (.list ⟨0⟩)) h :=
    ReflTransGen.single (.append ⟨0⟩ nofun)
  have hall := (freeze_permanent closed_knot sealed_knot hv).1 h hworks (.list ⟨0⟩)
    (List.mem_singleton_self _)
  exact ⟨(hall (.cell ⟨0⟩) (ReflTransGen.single (List.mem_singleton_self _))).1,
    (hall (.list ⟨0⟩) ReflTransGen.refl).2 nofun⟩

end Heap

end Starlark
