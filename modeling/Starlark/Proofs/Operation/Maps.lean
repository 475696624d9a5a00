import Starlark.Data.Freeze
import Starlark.Proofs.Operation.Keys

/-!
# Dicts that stay maps

A key is checked before it is inserted, and it gets an entry of its own only if it is equal to none
of the keys that are there. So every dict of a heap is a map, whatever operations do
(`Heap.HasMaps`), and inserting several entries does not fail half-way: if a dict can be changed at
all, then all entries of a map are inserted into it (`Op.insertAll_eq`). Inserted into an empty dict
they give the map itself (`DictObj.IsMap.insertMany_self`).
-/

set_option autoImplicit false

namespace Starlark

/-! ## Many entries -/

namespace DictObj

/-- Insert entries, in order. -/
def insertMany (d : DictObj) (es : List (Value × Value)) : DictObj :=
  es.foldl (fun d e => d.insert e.1 e.2) d

@[simp]
theorem insertMany_nil (d : DictObj) : d.insertMany [] = d := rfl

theorem insertMany_cons (d : DictObj) (e : Value × Value) (es : List (Value × Value)) :
    d.insertMany (e :: es) = (d.insert e.1 e.2).insertMany es := rfl

section Flags

variable (entries : Array (Value × Value)) (frozen frozen' : Bool) (iterating iterating' : Nat)

/-- Inserting leaves the flags, and it does not look at them. -/
theorem insert_mk (k v : Value) : (DictObj.mk entries frozen iterating).insert k v =
    ⟨((DictObj.mk entries frozen' iterating').insert k v).entries, frozen, iterating⟩ := by
  have hfind : (DictObj.mk entries frozen iterating).find? k =
    (DictObj.mk entries frozen' iterating').find? k := rfl
  rw [insert, insert, hfind]
  split
  · rfl
  · rfl

theorem insertMany_mk (es : List (Value × Value)) :
    (DictObj.mk entries frozen iterating).insertMany es =
      ⟨((DictObj.mk entries frozen' iterating').insertMany es).entries, frozen, iterating⟩ := by
  induction es generalizing entries with
  | nil => rfl
  | cons e es ih =>
    rw [insertMany_cons, insertMany_cons, insert_mk entries frozen frozen' iterating iterating', ih,
      ← insert_mk entries frozen' frozen' iterating' iterating']

end Flags

/-- Entries whose keys are new, and different from one another, come last in their order. -/
theorem insertMany_of_distinct {d : DictObj} {es : List (Value × Value)}
    (h : (d.keys ++ es.map Prod.fst).Pairwise fun x y => sameKey x y = false) :
    d.insertMany es = { d with entries := d.entries ++ es.toArray } := by
  induction es generalizing d with
  | nil => simp
  | cons e es ih =>
    have hnew : d.find? e.1 = none := by
      rw [find?_eq_none_iff]
      intro x hx
      exact (List.pairwise_append.1 h).2.2 x hx e.1 List.mem_cons_self
    have hinsert : d.insert e.1 e.2 = { d with entries := d.entries.push e } := by
      rw [insert, hnew]
    have hrest : ((d.insert e.1 e.2).keys ++ es.map Prod.fst).Pairwise
        fun x y => sameKey x y = false := by
      rw [keys_insert_of_none hnew, List.append_assoc]
      exact h
    rw [insertMany_cons, ih hrest, hinsert]
    simp [← Array.append_singleton, Array.append_assoc]

instance : DecidablePred IsMap := fun d =>
  decidable_of_iff ((∀ x ∈ d.keys, x.unhashable? = none) ∧
      d.keys.Pairwise fun x y => sameKey x y = false)
    ⟨fun h => ⟨h.1, h.2⟩, fun h => ⟨h.hashable, h.distinct⟩⟩

namespace IsMap

variable {d : DictObj}

/-- The keys of a map are hashable. -/
theorem hashable_of_mem (hd : d.IsMap) : ∀ e ∈ d.entries.toList, e.1.unhashable? = none :=
  fun _ he => hd.hashable _ (List.mem_map_of_mem he)

/-- The entries of a map, inserted into an empty dict, stand there as they are in the map. -/
theorem insertMany_self (hd : d.IsMap) {d₀ : DictObj} (hempty : d₀.entries = #[]) :
    d₀.insertMany d.entries.toList = { d₀ with entries := d.entries } := by
  have hkeys : d₀.keys = [] := by
    simp [keys, hempty]
  rw [insertMany_of_distinct]
  · simp [hempty]
  · rw [hkeys]
    exact hd.distinct

/-- Names are different keys. -/
theorem of_names {env : Env} (h : (env.map Prod.fst).Nodup) :
    (DictObj.mk (env.map fun e => (Value.str e.1, e.2)).toArray false 0).IsMap := by
  have hkeys : (DictObj.mk (env.map fun e => (Value.str e.1, e.2)).toArray false 0).keys =
      (env.map Prod.fst).map Value.str := by
    simp [keys]
  constructor
  · rw [hkeys]
    intro x hx
    obtain ⟨n, -, rfl⟩ := List.mem_map.1 hx
    rfl
  · rw [hkeys, List.pairwise_map]
    apply h.imp
    intro m n hne
    rw [Bool.eq_false_iff]
    intro hkey
    have hm : (Value.str m).FloatFree := trivial
    have hn : (Value.str n).FloatFree := trivial
    exact hne (Value.str.inj (eq_of_sameKey hm hn hkey).1)

end IsMap

end DictObj

/-! ## Heaps -/

namespace Heap

variable {h h' : Heap}

/-- Every dict of a heap is a map. -/
def HasMaps (h : Heap) : Prop := ∀ r, (h.dict r).IsMap

namespace HasMaps

/-- Whether a heap has maps says something about the entries of its dicts only. -/
theorem of_entries (hm : h.HasMaps) (hentries : ∀ r, (h'.dict r).entries = (h.dict r).entries) :
    h'.HasMaps := fun r => (hm r).of_entries_eq (hentries r)

theorem of_dicts (hm : h.HasMaps) (hdicts : h'.dicts = h.dicts) : h'.HasMaps := by
  apply hm.of_entries
  intro r
  rw [dict, dict, hdicts]

/-- One dict may be changed in a way that leaves it a map. -/
theorem modifyDict (hm : h.HasMaps) {r : DictRef} {f : DictObj → DictObj}
    (hf : (h.dict r).IsMap → (f (h.dict r)).IsMap) : (h.modifyDict r f).HasMaps := by
  intro s
  rcases h.dict_modifyDict_cases r f s with hsame | ⟨rfl, hchanged⟩
  · rw [hsame]
    exact hm s
  · rw [hchanged]
    exact hf (hm s)

theorem newDict (hm : h.HasMaps) : (h.newDict #[]).2.HasMaps := by
  intro s
  rcases Nat.lt_or_ge s.index h.dicts.size with hs | hs
  · rw [h.dict_newDict hs]
    exact hm s
  · -- behind the old dicts there is the new one or none
    apply DictObj.IsMap.of_entries_empty
    simp only [Heap.newDict, dict, Array.getD_eq_getD_getElem?, Array.getElem?_push,
      Array.getElem?_eq_none hs]
    split
    · rfl
    · rfl

/-- No change of the heap stores a key twice. -/
theorem of_change (hm : h.HasMaps) (hc : h.Change h') : h'.HasMaps := by
  cases hc with
  | newDict => exact hm.newDict
  | insert r v hk _ _ => exact hm.modifyDict fun hd => hd.insert hk v
  | newList elems => exact hm.of_dicts rfl
  | newBuiltin op receiver => exact hm.of_dicts rfl
  | setList r f _ _ => exact hm.of_dicts rfl

/-- However a heap evolves, its dicts stay maps. -/
theorem of_evolves (hm : h.HasMaps) (he : h.Evolves h') : h'.HasMaps := by
  induction he with
  | refl => exact hm
  | tail _ hc ih => exact ih.of_change hc

/-- Counting an iteration leaves the entries. -/
theorem openIter (hm : h.HasMaps) {v : Value} {it : Option Iter} (ho : h.openIter v = (it, h')) :
    h'.HasMaps := by
  unfold Heap.openIter at ho
  split at ho
  · split at ho
    · cases ho
      exact hm.of_dicts rfl
    · cases ho
      exact hm
  · split at ho
    · cases ho
      exact hm.modifyDict fun hd => hd.of_entries_eq rfl
    · cases ho
      exact hm
  · cases ho
    exact hm
  · cases ho
    exact hm

/-- Closing an iterator leaves the entries alone. -/
theorem closeIter (hm : h.HasMaps) (it : Iter) : (h.closeIter it).HasMaps := by
  cases it with
  | list r i => exact hm.of_dicts rfl
  | dict r i => exact hm.modifyDict fun hd => hd.of_entries_eq rfl
  | tuple rest => exact hm

/-- Freezing leaves the entries alone. -/
theorem freezeNode (hm : h.HasMaps) (n : Node) : (h.freezeNode n).HasMaps := by
  cases n with
  | dict r => exact hm.modifyDict fun hd => hd.of_entries_eq rfl
  | list r => exact hm.of_dicts rfl
  | cell r => exact hm.of_dicts rfl
  | func r => exact hm
  | builtin r => exact hm

end HasMaps

end Heap

/-! ## Inserting several entries -/

namespace Op

variable {h : Heap} {r : DictRef} {es : List (Value × Value)}

/-- Entries whose keys can be keys are all inserted into a dict that can be changed. -/
theorem insertAll_eq (hmutable : (h.dict r).frozen = false ∧ (h.dict r).iterating = 0)
    (hes : ∀ e ∈ es, e.1.unhashable? = none) :
    insertAll r es h = .ok () (h.modifyDict r fun d => d.insertMany es) := by
  -- no insertion locks or freezes the dictionary, so the next one is let through as well
  induction es generalizing h with
  | nil =>
    have hid : h.modifyDict r (fun d => d.insertMany []) = h := h.modifyDict_id r
    rw [hid]
    rfl
  | cons e es ih =>
    rw [List.forall_mem_cons] at hes
    have hfirst := (Heap.insert_eq_ok_iff (v := e.2)).2 ⟨hmutable, hes.1, rfl, rfl⟩
    have hmutable' : ((h.modifyDict r fun d => d.insert e.1 e.2).dict r).frozen = false ∧
        ((h.modifyDict r fun d => d.insert e.1 e.2).dict r).iterating = 0 := by
      rcases h.dict_modifyDict_cases r (fun d => d.insert e.1 e.2) r with hsame | ⟨-, hinsert⟩
      · rw [hsame]
        exact hmutable
      · rw [hinsert, DictObj.frozen_insert, DictObj.iterating_insert]
        exact hmutable
    have hrest := ih hmutable' hes.2
    rw [Heap.modifyDict_modifyDict] at hrest
    simp only [insertAll, bind, EStateM.bind, hfirst]
    exact hrest

/-- The entries of another dict are all inserted, or nothing is changed. -/
theorem update_eq {other : DictRef} (hother : (h.dict other).IsMap) :
    update r other h =
      match (h.dict r).checkMutable "apply |= to" with
      | .ok _ => .ok () (h.modifyDict r fun d => d.insertMany (h.dict other).entries.toList)
      | .error e => .error (.error e) h := by
  simp only [update, checkDict, check, read, bind, EStateM.bind]
  cases hcheck : (h.dict r).checkMutable "apply |= to" with
  | error e => rfl
  | ok _ =>
    exact insertAll_eq ((DictObj.checkMutable_eq_ok_iff _).1 hcheck) hother.hashable_of_mem

end Op

namespace Heap

/-- What is done to a new dict at once could have been done before it was made. -/
theorem modifyDict_newDict (h : Heap) {f : DictObj → DictObj}
    {entries entries' : Array (Value × Value)}
    (hf : f { entries } = { entries := entries' }) :
    (h.newDict entries).2.modifyDict (h.newDict entries).1 f = (h.newDict entries').2 := by
  simp only [newDict, modifyDict]
  congr 1
  apply Array.ext_getElem?
  intro i
  rw [Array.getElem?_modify, Array.getElem?_push, Array.getElem?_push]
  by_cases hi : i = h.dicts.size
  · simp [hi, hf]
  · simp [hi, Ne.symm hi]

theorem dict_newDict_self (h : Heap) (entries : Array (Value × Value)) :
    (h.newDict entries).2.dict ⟨h.dicts.size⟩ = { entries } := by
  simp [newDict, dict]

/-- A new dict takes all entries whose keys can be keys. -/
theorem insertAll_newDict (h : Heap) {es : List (Value × Value)}
    (hes : ∀ e ∈ es, e.1.unhashable? = none) :
    Op.insertAll (h.newDict #[]).1 es (h.newDict #[]).2 =
      .ok () (h.newDict ((DictObj.mk #[] false 0).insertMany es).entries).2 := by
  rw [Op.insertAll_eq _ hes, modifyDict_newDict]
  · exact DictObj.insertMany_mk #[] false false 0 0 es
  · have hfresh : (h.newDict #[]).2.dict (h.newDict #[]).1 = { entries := #[] } :=
      h.dict_newDict_self #[]
    rw [hfresh]
    exact ⟨rfl, rfl⟩

/-- A dict with the entries of a map comes about by inserting them into an empty one. -/
theorem evolves_newDict (h : Heap) {entries : Array (Value × Value)}
    (hmap : (DictObj.mk entries false 0).IsMap) : h.Evolves (h.newDict entries).2 := by
  have hrun := h.insertAll_newDict hmap.hashable_of_mem
  rw [hmap.insertMany_self rfl] at hrun
  have hregular := Op.regular_insertAll (h.newDict #[]).1 entries.toList (h.newDict #[]).2
  rw [hrun] at hregular
  exact (Change.newDict (h := h)).evolves.trans hregular

end Heap

end Starlark
