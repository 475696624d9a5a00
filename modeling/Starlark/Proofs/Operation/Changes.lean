import Starlark.Proofs.Operation.Blame
import Mathlib.Logic.Relation

/-!
# What operations do to the heap

An operation on values makes new lists, dicts and builtins. It changes the elements of lists and
inserts entries into dicts, if these are neither frozen nor being iterated and the keys can be keys
(`Heap.Change`). That is all that any of them does, whether it succeeds or not, and none blames the
code (`Op.Regular`). The iterators that operations open are closed when they end (`Op.drain_eq`).
-/

set_option autoImplicit false

namespace Starlark

open Relation (ReflTransGen)

/-- An element of a changed array was there before, or is the changed one. -/
theorem mem_modify_cases {α : Type} {a : Array α} {i : Nat} {f : α → α} {x : α}
    (hx : x ∈ a.modify i f) : ∃ y ∈ a, x = y ∨ x = f y := by
  obtain ⟨j, hj⟩ := Array.mem_iff_getElem?.1 hx
  rw [Array.getElem?_modify] at hj
  split at hj
  · obtain ⟨y, hy, rfl⟩ := Option.map_eq_some_iff.1 hj
    exact ⟨y, Array.mem_of_getElem? hy, .inr rfl⟩
  · exact ⟨x, Array.mem_of_getElem? hj, .inl rfl⟩

/-! ## Changes -/

/-- A value can be a key if nothing in it is unhashable. -/
theorem Value.checkHashable_eq_ok_iff {k : Value} :
    k.checkHashable = .ok () ↔ k.unhashable? = none := by
  unfold checkHashable
  cases k.unhashable? <;> simp

/-- One change of the heap by an operation on values. -/
inductive Heap.Change (h : Heap) : Heap → Prop where
  | newList (elems : Array Value) : Change h (h.newList elems).2
  | newDict : Change h (h.newDict #[]).2
  | newBuiltin (op : BuiltinOp) (receiver : Option Value) : Change h (h.newBuiltin op receiver).2
  | setList (r : ListRef) (f : Array Value → Array Value) (hfrozen : (h.list r).frozen = false)
      (hiter : (h.list r).iterating = 0) :
      Change h (h.modifyList r fun l => { l with elems := f l.elems })
  | insert (r : DictRef) {k : Value} (v : Value) (hk : k.unhashable? = none)
      (hfrozen : (h.dict r).frozen = false) (hiter : (h.dict r).iterating = 0) :
      Change h (h.modifyDict r fun d => d.insert k v)

/-- Changes one after another. -/
def Heap.Evolves : Heap → Heap → Prop := ReflTransGen Heap.Change

theorem Heap.Evolves.refl (h : Heap) : h.Evolves h := ReflTransGen.refl

theorem Heap.Evolves.trans {h h' h'' : Heap} (h1 : h.Evolves h') (h2 : h'.Evolves h'') :
    h.Evolves h'' := ReflTransGen.trans h1 h2

/-- One change is an evolution. -/
theorem Heap.Change.evolves {h h' : Heap} (hc : h.Change h') : h.Evolves h' :=
  ReflTransGen.single hc

/-! ## Operations -/

/-- An operation changes the heap as operations on values do, and does not blame the code. -/
def Op.Regular {α : Type} (m : Op α) : Prop :=
  ∀ h, match m h with
    | .ok _ h' => h.Evolves h'
    | .error e h' => h.Evolves h' ∧ e.isOrdinary

namespace Op.Regular

variable {α β : Type}

/-- A regular operation that succeeds has changed the heap step by step. -/
theorem ok {m : Op α} (hm : Regular m) {h h' : Heap} {a : α} (he : m h = .ok a h') :
    h.Evolves h' := by
  have hmh := hm h
  rw [he] at hmh
  exact hmh

/-- A regular operation that fails has changed the heap step by step, and does not blame the
code. -/
theorem error {m : Op α} (hm : Regular m) {h h' : Heap} {e : Stop} (he : m h = .error e h') :
    h.Evolves h' ∧ e.isOrdinary := by
  have hmh := hm h
  rw [he] at hmh
  exact hmh

theorem pure (a : α) : Regular (pure a : Op α) := fun h => .refl h

/-- Regular operations in sequence are regular. -/
theorem bind {m : Op α} {f : α → Op β} (hm : Regular m) (hf : ∀ a, Regular (f a)) :
    Regular (m >>= f) := by
  intro h
  simp only [Bind.bind, EStateM.bind]
  cases hmh : m h with
  | error e h' => exact hm.error hmh
  | ok a h' =>
    have h1 := hm.ok hmh
    have h2 := hf a h'
    cases hfa : f a h' with
    | error e h'' =>
      simp only [hfa] at h2 ⊢
      exact ⟨h1.trans h2.1, h2.2⟩
    | ok b h'' =>
      simp only [hfa] at h2 ⊢
      exact h1.trans h2

theorem map {m : Op α} (hm : Regular m) (f : α → β) : Regular (f <$> m) := by
  intro h
  simp only [Functor.map, EStateM.map]
  cases hmh : m h with
  | error e h' => exact hm.error hmh
  | ok a h' => exact hm.ok hmh

theorem ite {p : Prop} [Decidable p] {m n : Op α} (hm : Regular m) (hn : Regular n) :
    Regular (if p then m else n) := by
  split
  · exact hm
  · exact hn

theorem fail {e : Error} (h : e.isOrdinary) : Regular (Op.fail e : Op α) :=
  fun h' => ⟨.refl h', h⟩

theorem fault {f : Fault} (h : (Error.fault f).isOrdinary) : Regular (Op.fault f : Op α) :=
  fail h

/-- Fail in one case and go on otherwise. -/
theorem guarded {p : Prop} [Decidable p] {f : Fault} {k : PUnit → Op α}
    (h : (Error.fault f).isOrdinary) (hk : Regular (k ())) :
    Regular (if p then Op.fault f >>= k else k ()) :=
  ite (bind (fault h) fun _ => hk) hk

theorem abort {a : Abort} (h : (Stop.abort a).isOrdinary) : Regular (Op.abort a : Op α) :=
  fun h' => ⟨.refl h', h⟩

theorem read (f : Heap → α) : Regular (Op.read f) := fun h => .refl h

/-- A check leaves the heap alone, and does not blame the code. -/
theorem check {f : Heap → Except Error α} (hf : ∀ h, Blameless (f h)) : Regular (Op.check f) := by
  intro h
  unfold Op.check
  cases hfh : f h with
  | ok a => exact .refl h
  | error e => exact ⟨.refl h, hf h e hfh⟩

/-- Making an object is regular if that is a single change. -/
theorem make {f : Heap → α × Heap} (hf : ∀ h : Heap, h.Change (f h).2) : Regular (Op.make f) :=
  fun h => (hf h).evolves

end Op.Regular

/-! ## Single objects -/

namespace Heap

variable (h : Heap)

theorem modifyList_modifyList (r : ListRef) (f g : ListObj → ListObj) :
    (h.modifyList r f).modifyList r g = h.modifyList r (g ∘ f) := by
  simp only [modifyList]
  congr 1
  apply Array.ext_getElem?
  intro i
  simp only [Array.getElem?_modify]
  split
  · rw [Option.map_map]
  · rfl

theorem modifyDict_modifyDict (r : DictRef) (f g : DictObj → DictObj) :
    (h.modifyDict r f).modifyDict r g = h.modifyDict r (g ∘ f) := by
  simp only [modifyDict]
  congr 1
  apply Array.ext_getElem?
  intro i
  simp only [Array.getElem?_modify]
  split
  · rw [Option.map_map]
  · rfl

theorem modifyList_id (r : ListRef) : h.modifyList r id = h := by
  have hid : h.lists.modify r.index id = h.lists := by
    apply Array.ext_getElem?
    intro i
    rw [Array.getElem?_modify]
    split <;> simp
  simp only [modifyList, hid]

theorem modifyDict_id (r : DictRef) : h.modifyDict r id = h := by
  have hid : h.dicts.modify r.index id = h.dicts := by
    apply Array.ext_getElem?
    intro i
    rw [Array.getElem?_modify]
    split <;> simp
  simp only [modifyDict, hid]

/-- A reference past the end of the table is to the default list. -/
theorem list_of_size_le {r : ListRef} (hr : h.lists.size ≤ r.index) :
    h.list r = default := by
  simp [list, Array.getElem?_eq_none hr]

/-- A reference past the end of the table is to the default dict. -/
theorem dict_of_size_le {r : DictRef} (hr : h.dicts.size ≤ r.index) :
    h.dict r = default := by
  simp [dict, Array.getElem?_eq_none hr]

/-- Changing one list leaves all others as they are. -/
theorem list_modifyList_cases (r : ListRef) (f : ListObj → ListObj) (s : ListRef) :
    (h.modifyList r f).list s = h.list s ∨ s = r ∧ (h.modifyList r f).list s = f (h.list s) := by
  by_cases hs : s = r
  · subst hs
    by_cases hlt : s.index < h.lists.size
    · exact .inr ⟨rfl, h.list_modifyList_self f hlt⟩
    · have hsize : (h.modifyList s f).lists.size ≤ s.index := by
        simpa [modifyList] using Nat.not_lt.1 hlt
      exact .inl ((list_of_size_le _ hsize).trans (list_of_size_le _ (Nat.not_lt.1 hlt)).symm)
  · exact .inl (h.list_modifyList_of_ne f hs)

/-- Changing one dict leaves all others as they are. -/
theorem dict_modifyDict_cases (r : DictRef) (f : DictObj → DictObj) (s : DictRef) :
    (h.modifyDict r f).dict s = h.dict s ∨ s = r ∧ (h.modifyDict r f).dict s = f (h.dict s) := by
  by_cases hs : s = r
  · subst hs
    by_cases hlt : s.index < h.dicts.size
    · exact .inr ⟨rfl, h.dict_modifyDict_self f hlt⟩
    · have hsize : (h.modifyDict s f).dicts.size ≤ s.index := by
        simpa [modifyDict] using Nat.not_lt.1 hlt
      exact .inl ((dict_of_size_le _ hsize).trans (dict_of_size_le _ (Nat.not_lt.1 hlt)).symm)
  · exact .inl (h.dict_modifyDict_of_ne f hs)

/-- A new list changes none of the others. -/
theorem list_newList {s : ListRef} (hs : s.index < h.lists.size) (elems : Array Value) :
    (h.newList elems).2.list s = h.list s := by
  simp only [newList, list, Array.getD_eq_getD_getElem?, Array.getElem?_push_lt hs,
    Array.getElem?_eq_getElem hs]

/-- A new dict changes none of the others. -/
theorem dict_newDict {s : DictRef} (hs : s.index < h.dicts.size) (entries : Array (Value × Value)) :
    (h.newDict entries).2.dict s = h.dict s := by
  simp only [newDict, dict, Array.getD_eq_getD_getElem?, Array.getElem?_push_lt hs,
    Array.getElem?_eq_getElem hs]

/-- A frozen list is in the table, since the default list is not frozen. -/
theorem index_lt_of_frozen_list {r : ListRef} (hr : (h.list r).frozen = true) :
    r.index < h.lists.size := by
  refine Nat.lt_of_not_le fun hle => ?_
  rw [h.list_of_size_le hle] at hr
  cases hr

/-- A frozen dict is in the table, since the default dict is not frozen. -/
theorem index_lt_of_frozen_dict {r : DictRef} (hr : (h.dict r).frozen = true) :
    r.index < h.dicts.size := by
  refine Nat.lt_of_not_le fun hle => ?_
  rw [h.dict_of_size_le hle] at hr
  cases hr

end Heap

/-! ## Iterators that are closed again -/

namespace Heap

variable (h : Heap)

/-- A list that is locked and unlocked again is as before. -/
theorem unlockList_lockList (r : ListRef) : (h.lockList r).unlockList r = h := by
  rw [lockList, unlockList, modifyList_modifyList]
  exact h.modifyList_id r

/-- A dict that is locked and unlocked again is as before. -/
theorem unlockDict_lockDict (r : DictRef) : (h.lockDict r).unlockDict r = h := by
  rw [lockDict, unlockDict, modifyDict_modifyDict]
  exact h.modifyDict_id r

theorem elems_lockList (r : ListRef) : ((h.lockList r).list r).elems = (h.list r).elems := by
  by_cases hr : r.index < h.lists.size
  · rw [lockList, h.list_modifyList_self _ hr]
  · have hsize : (h.lockList r).lists.size ≤ r.index := by
      simpa [lockList, modifyList] using Nat.not_lt.1 hr
    rw [list_of_size_le _ hsize, list_of_size_le _ (Nat.not_lt.1 hr)]

theorem entries_lockDict (r : DictRef) :
    ((h.lockDict r).dict r).entries = (h.dict r).entries := by
  by_cases hr : r.index < h.dicts.size
  · rw [lockDict, h.dict_modifyDict_self _ hr]
  · have hsize : (h.lockDict r).dicts.size ≤ r.index := by
      simpa [lockDict, modifyDict] using Nat.not_lt.1 hr
    rw [dict_of_size_le _ hsize, dict_of_size_le _ (Nat.not_lt.1 hr)]

end Heap

/-- After an object is made, the rest runs on the heap that has it. -/
theorem Op.make_bind {α β : Type} (f : Heap → α × Heap) (k : α → Op β) (h : Heap) :
    (Op.make f >>= k) h = k (f h).1 (f h).2 := rfl

/-- After a success the rest runs on the heap behind it. -/
theorem Op.bind_of_ok {α β : Type} {m : Op α} {h h' : Heap} {a : α} (hm : m h = .ok a h')
    (f : α → Op β) : (m >>= f) h = f a h' := by
  simp only [bind, EStateM.bind, hm]

/-- After a failure the rest does not run. -/
theorem Op.bind_of_error {α β : Type} {m : Op α} {h h' : Heap} {e : Stop} (hm : m h = .error e h')
    (f : α → Op β) : (m >>= f) h = .error e h' := by
  simp only [bind, EStateM.bind, hm]

/-- Reading all elements of a value through an iterator leaves the heap as it was. -/
theorem Op.drain_eq (v : Value) (h : Heap) : Op.drain v h = .ok (h.elements? v) h := by
  -- draining locks what it iterates over and unlocks it again, so the heap is as before
  cases v with
  | list r =>
    by_cases hr : r.index < h.lists.size
    · have hopen : h.openIter (.list r) = (some (.list r 0), h.lockList r) := if_pos hr
      have hdrain : Op.drain (.list r) h =
          .ok (some ((h.lockList r).remaining (.list r 0))) ((h.lockList r).unlockList r) := by
        rw [drain, make_bind, hopen]
        rfl
      rw [hdrain, h.unlockList_lockList, Heap.remaining, h.elems_lockList]
      rfl
    · have hopen : h.openIter (.list r) = (some (.tuple []), h) := if_neg hr
      have hdrain : Op.drain (.list r) h = .ok (some []) h := by
        rw [drain, make_bind, hopen]
        rfl
      rw [hdrain, Heap.elements?, h.list_of_size_le (Nat.not_lt.1 hr)]
      rfl
  | dict r =>
    by_cases hr : r.index < h.dicts.size
    · have hopen : h.openIter (.dict r) = (some (.dict r 0), h.lockDict r) := if_pos hr
      have hdrain : Op.drain (.dict r) h =
          .ok (some ((h.lockDict r).remaining (.dict r 0))) ((h.lockDict r).unlockDict r) := by
        rw [drain, make_bind, hopen]
        rfl
      rw [hdrain, h.unlockDict_lockDict, Heap.remaining, h.entries_lockDict]
      rfl
    · have hopen : h.openIter (.dict r) = (some (.tuple []), h) := if_neg hr
      have hdrain : Op.drain (.dict r) h = .ok (some []) h := by
        rw [drain, make_bind, hopen]
        rfl
      rw [hdrain, Heap.elements?, h.dict_of_size_le (Nat.not_lt.1 hr)]
      rfl
  | tuple elems => rfl
  | _ => rfl

namespace Op

/-- Draining an iterable locks it, copies it and unlocks it. -/
theorem regular_drain (v : Value) : Regular (drain v) := by
  intro h
  rw [drain_eq]
  exact .refl h

/-! ## Changing lists and dicts -/

theorem regular_checkList (r : ListRef) (verb : String) : Regular (checkList r verb) :=
  .check fun _ => .ite (.error rfl) (.ite (.error rfl) (.ok _))

theorem regular_checkDict (r : DictRef) (verb : String) : Regular (checkDict r verb) :=
  .check fun _ => .ite (.error rfl) (.ite (.error rfl) (.ok _))

/-- What is done behind the check of a list may change it. -/
theorem regular_afterCheckList {α : Type} {r : ListRef} {verb : String} {m : Op α}
    (hm : ∀ h : Heap, (h.list r).frozen = false → (h.list r).iterating = 0 →
      match m h with
      | .ok _ h' => h.Evolves h'
      | .error e h' => h.Evolves h' ∧ e.isOrdinary) :
    Regular (do checkList r verb; m) := by
  intro h
  simp only [bind, EStateM.bind, checkList, check, ListObj.checkMutable]
  cases hfrozen : (h.list r).frozen with
  | true => exact ⟨.refl h, rfl⟩
  | false =>
    by_cases hiter : 0 < (h.list r).iterating
    · simp only [hiter, Bool.false_eq_true, ↓reduceIte]
      exact ⟨.refl h, rfl⟩
    · simp only [hiter, Bool.false_eq_true, ↓reduceIte]
      exact hm h hfrozen (Nat.eq_zero_of_not_pos hiter)

/-- What is done behind the check of a dict may change it. -/
theorem regular_afterCheckDict {α : Type} {r : DictRef} {verb : String} {m : Op α}
    (hm : ∀ h : Heap, (h.dict r).frozen = false → (h.dict r).iterating = 0 →
      match m h with
      | .ok _ h' => h.Evolves h'
      | .error e h' => h.Evolves h' ∧ e.isOrdinary) :
    Regular (do checkDict r verb; m) := by
  intro h
  simp only [bind, EStateM.bind, checkDict, check, DictObj.checkMutable]
  cases hfrozen : (h.dict r).frozen with
  | true => exact ⟨.refl h, rfl⟩
  | false =>
    by_cases hiter : 0 < (h.dict r).iterating
    · simp only [hiter, Bool.false_eq_true, ↓reduceIte]
      exact ⟨.refl h, rfl⟩
    · simp only [hiter, Bool.false_eq_true, ↓reduceIte]
      exact hm h hfrozen (Nat.eq_zero_of_not_pos hiter)

theorem regular_append (r : ListRef) (v : Value) : Regular (append r v) :=
  regular_afterCheckList fun _ hfrozen hiter =>
    (Heap.Change.setList r (fun elems => elems.push v) hfrozen hiter).evolves

/-- Extending drains the iterable first, so a list may be extended by itself. -/
theorem regular_extend (r : ListRef) (iterable : Value) : Regular (extend r iterable) := by
  refine regular_afterCheckList fun h hfrozen hiter => ?_
  simp only [bind, EStateM.bind, drain_eq]
  cases h.elements? iterable with
  | none => exact ⟨.refl h, rfl⟩
  | some items =>
    exact (Heap.Change.setList r (fun elems => elems.appendList items) hfrozen hiter).evolves

theorem regular_insert (r : DictRef) (k v : Value) : Regular (insert r k v) := by
  refine regular_afterCheckDict fun h hfrozen hiter => ?_
  simp only [bind, EStateM.bind, check]
  cases hk : k.checkHashable with
  | error e => exact ⟨.refl h, blameless_checkHashable k e hk⟩
  | ok _ =>
    exact (Heap.Change.insert r v (Value.checkHashable_eq_ok_iff.1 hk) hfrozen hiter).evolves

/-- Entries are inserted one after another, each by a regular operation. -/
theorem regular_insertAll (r : DictRef) (es : List (Value × Value)) : Regular (insertAll r es) := by
  induction es with
  | nil => exact .pure ()
  | cons e es ih => exact (regular_insert r e.1 e.2).bind fun _ => ih

/-- The entries of the other dict are copied first, so a dict may be updated by itself. -/
theorem regular_update (r other : DictRef) : Regular (update r other) :=
  (regular_checkDict r _).bind fun _ => (Regular.read _).bind fun es => regular_insertAll r es

/-! ## Indexing, slicing and attributes -/

theorem regular_setIndex (x y z : Value) : Regular (setIndex x y z) := by
  unfold setIndex
  split
  · refine regular_afterCheckList fun h hfrozen hiter => ?_
    rename_i r
    have hindex : Blameless (do resolveIndex (← indexInt .list y) (h.list r).elems.size) :=
      (blameless_indexInt _ y).bind fun i => blameless_resolveIndex i _
    simp only [bind, EStateM.bind, check] at hindex ⊢
    cases hi : Except.bind (indexInt Kind.list y)
        fun i => resolveIndex i (h.list r).elems.size with
    | error e => exact ⟨.refl h, hindex e hi⟩
    | ok i =>
      exact (Heap.Change.setList r (fun elems => elems.setIfInBounds i z) hfrozen hiter).evolves
  · exact (regular_insert _ y z).bind fun _ => .pure ()
  · exact .fail rfl

/-- Slicing reads, and gives up where an index overflows. -/
theorem regular_sliced {α : Type} (elems : Array α) (lo hi : Option Int64) {step : Int64}
    (hstep : step ≠ 0) : Regular (sliced elems lo hi hstep) := by
  unfold sliced
  split
  · exact .pure _
  · exact .abort rfl

theorem regular_sliceBy (x : Value) (lo hi : Option Int64) {step : Int64} (hstep : step ≠ 0) :
    Regular (sliceBy x lo hi hstep) := by
  unfold sliceBy
  split
  · exact (Regular.read _).bind fun elems => (regular_sliced elems lo hi hstep).bind fun picked =>
      .make fun h => .newList _
  · exact (regular_sliced _ lo hi hstep).bind fun _ => .pure _
  · exact (regular_sliced _ lo hi hstep).bind fun _ => .pure _
  · exact (regular_sliced _ lo hi hstep).bind fun _ => .pure _
  · exact .fail rfl

theorem regular_slice (x lo hi step : Value) : Regular (slice x lo hi step) := by
  refine (Regular.check fun _ => blameless_sliceBound _ step).bind fun s => ?_
  dsimp only
  split
  · exact .fault rfl
  · rename_i hstep
    exact (Regular.check fun _ => blameless_sliceBound _ lo).bind fun lo =>
      (Regular.check fun _ => blameless_sliceBound _ hi).bind fun hi =>
          regular_sliceBy x lo hi hstep

theorem regular_method? (x : Value) (name : String) : Regular (method? x name) := by
  unfold method?
  split
  · exact (Regular.make fun h => .newBuiltin _ _).map _
  · exact .pure _

/-- A method that is asked for is a new builtin with its receiver. -/
theorem regular_getAttr (x : Value) (name : String) : Regular (getAttr x name) := by
  refine (regular_method? x name).bind fun v => ?_
  cases v with
  | none => exact .fault rfl
  | some v => exact .pure v

theorem regular_setField (x : Value) (name : String) : Regular (setField x name) := .fault rfl

/-! ## Operators -/

theorem regular_plus (x y : Value) : Regular (plus x y) := by
  unfold plus
  split
  · exact .check fun _ => blameless_intResult _
  · exact .pure _
  · exact .pure _
  · exact .make fun h => .newList _
  · exact .pure _
  · exact .check fun _ => blameless_floatOp (fun _ _ => .ok _) x y

theorem regular_times (x : Value) (n : Int64) : Regular (times x n) := by
  unfold times
  split
  · exact (Regular.check fun _ => blameless_repeatCount _ n).bind fun _ => .pure _
  · exact (Regular.check fun _ => blameless_repeatCount _ n).bind fun _ => .pure _
  · exact (Regular.read _).bind fun elems =>
      (Regular.check fun _ => blameless_repeatCount _ n).bind fun _ => .make fun h => .newList _
  · exact (Regular.check fun _ => blameless_repeatCount _ n).bind fun _ => .pure _
  · exact .fail rfl

theorem regular_star (x y : Value) : Regular (star x y) := by
  unfold star
  split
  · exact .check fun _ => blameless_intResult _
  all_goals first
    | exact regular_times _ _
    | exact .check fun _ => blameless_floatOp (fun _ _ => .ok _) x y

theorem regular_pipe (x y : Value) : Regular (pipe x y) := by
  unfold pipe
  split
  · exact (Regular.read _).bind fun entries => (Regular.make fun h => .newDict).bind fun r =>
      (regular_insertAll r entries).bind fun _ => .pure _
  · exact .check fun _ => blameless_intOp (fun _ _ => .ok _) x y

/-- Every operator on two values is regular. -/
theorem regular_binary (op : BinOp) (x y : Value) : Regular (binary op x y) := by
  cases op with
  | eq | ne | lt | gt | le | ge => exact .check fun h => (h.blameless_compare _ x y).map _
  | isIn | notIn => exact .check fun h => (h.blameless_contains y x).map _
  | plus => exact regular_plus x y
  | minus => exact .check fun _ => blameless_minus x y
  | star => exact regular_star x y
  | slash => exact .check fun _ => blameless_divide x y
  | slashSlash => exact .check fun _ => blameless_floorDivide x y
  | percent => exact .check fun _ => blameless_modulo x y
  | amp | circumflex => exact .check fun _ => blameless_intOp (fun _ _ => .ok _) x y
  | pipe => exact regular_pipe x y
  | ltLt => exact .check fun _ => blameless_intOp blameless_shiftLeft x y
  | gtGt => exact .check fun _ => blameless_intOp blameless_shiftRight x y
  | and | or => exact .fail rfl

/-- Adding in place extends a list, or is a sum. -/
theorem regular_inplaceAdd (x y : Value) : Regular (inplaceAdd x y) := by
  unfold inplaceAdd
  split
  · split
    · exact (regular_checkList _ _).bind fun _ => (regular_extend _ y).bind fun _ => .pure _
    · exact regular_plus _ y
  · exact regular_plus x y

/-- Uniting in place updates a dict, or is a union. -/
theorem regular_inplacePipe (x y : Value) : Regular (inplacePipe x y) := by
  unfold inplacePipe
  split
  · exact (regular_update _ _).bind fun _ => .pure _
  · exact regular_pipe x y

/-! ## Builtins -/

theorem regular_elementsArgument (b : BuiltinOp) (v : Value) : Regular (elementsArgument b v) := by
  refine (regular_drain v).bind fun elems => ?_
  cases elems with
  | none => exact .fault rfl
  | some elems => exact .pure elems

/-- Pairs are checked and inserted one after another. -/
theorem regular_insertPairs (r : DictRef) (i : Nat) (items : List Value) :
    Regular (insertPairs r i items) := by
  induction items generalizing i with
  | nil => exact .pure ()
  | cons item items ih =>
    refine (regular_elementsArgument .dict item).bind fun elems => ?_
    split
    · exact (regular_insert r _ _).bind fun _ => ih (i + 1)
    · exact .fault rfl

/-- A dict is made of pairs or of another dict, and then of the named arguments. -/
theorem regular_makeDict (args : List Value) (kwargs : Keywords) :
    Regular (makeDict args kwargs) := by
  unfold makeDict
  refine Regular.guarded rfl ?_
  refine (Regular.make fun h => .newDict).bind fun r => ?_
  have hrest : Regular (do
      insertAll r (kwargs.map fun k => (.str k.1, k.2))
      return Value.dict r) := (regular_insertAll r _).bind fun _ => .pure _
  split
  · exact (Regular.read _).bind fun es => (regular_insertAll r es).bind fun _ => hrest
  · exact (regular_elementsArgument .dict _).bind fun es => (regular_insertPairs r 0 es).bind
      fun _ => hrest
  · exact hrest

/-- Every builtin of the standard library is regular. -/
theorem regular_callStandard (b : BuiltinObj) (args : List Value) (kwargs : Keywords) :
    Regular (callStandard b args kwargs) := by
  have hargs : ∀ op least most, Regular (check fun _ => checkArguments op args kwargs least most) :=
    fun op least most => .check fun _ => blameless_checkArguments op args kwargs least most
  have hlist : ∀ op, Regular (check fun _ => listReceiver op b.receiver) :=
    fun op => .check fun _ => blameless_listReceiver op _
  have hdict : ∀ op, Regular (check fun _ => dictReceiver op b.receiver) :=
    fun op => .check fun _ => blameless_dictReceiver op _
  unfold callStandard
  -- every built-in checks its arguments first, and changes something in its last operation only
  cases b.op with
  | bool =>
    refine (hargs _ _ _).bind fun _ => ?_
    split
    · exact (Regular.read _).bind fun _ => .pure _
    · exact .pure _
  | dict => exact regular_makeDict args kwargs
  | len =>
    refine (hargs _ _ _).bind fun _ => (Regular.read _).bind fun n => ?_
    cases n with
    | none => exact .fault rfl
    | some n => exact .pure _
  | list =>
    refine (hargs _ _ _).bind fun _ => ?_
    split
    · exact (regular_elementsArgument _ _).bind fun _ => .make fun h => .newList _
    · exact .make fun h => .newList _
  | range =>
    exact (hargs _ _ _).bind fun _ => (Regular.check fun _ => blameless_rangeBounds args).bind
      fun _ => (Regular.check fun _ => blameless_rangeElements _ _ _).bind fun _ =>
        .make fun h => .newList _
  | repr | str => exact (hargs _ _ _).bind fun _ => (Regular.read _).bind fun _ => .pure _
  | tuple =>
    refine (hargs _ _ _).bind fun _ => ?_
    split
    · exact (regular_elementsArgument _ _).bind fun _ => .pure _
    · exact .pure _
  | type => exact (hargs _ _ _).bind fun _ => .pure _
  | append =>
    exact (hargs _ _ _).bind fun _ => (hlist _).bind fun r => (regular_append r _).bind
      fun _ => .pure _
  | extend =>
    exact (hargs _ _ _).bind fun _ => (hlist _).bind fun r => (regular_extend r _).bind
      fun _ => .pure _
  | get =>
    refine (hargs _ _ _).bind fun _ => (hdict _).bind fun r =>
      (Regular.check fun h => h.blameless_dictGet r _).bind fun v => ?_
    cases v with
    | none => exact .pure _
    | some v => exact .pure _
  | keys | items =>
    exact (hargs _ _ _).bind fun _ => (hdict _).bind fun r => .make fun h => .newList _
  | print => exact (Regular.check fun h => h.blameless_printLine args kwargs).bind fun _ => .pure _
  | _ => exact .pure _

end Op

end Starlark
