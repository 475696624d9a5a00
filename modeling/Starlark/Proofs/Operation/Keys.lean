import Mathlib.Data.List.Forall2
import Starlark.Proofs.Operation.Changes

/-!
# Dicts as ordered maps

Keys that hold no floats are equal exactly if they are the same and do not go deeper than a
comparison does (`eq_of_sameKey`, `sameKey_self_iff`). So a dict with such keys is a map in order
of insertion (`Heap.insert_ordered`): what was stored under a key is found there, other keys keep
what they have, and a new key comes last. A key that goes deeper is not even equal to itself.
Storing under it always adds an entry, and none of these entries is ever found.
-/

set_option autoImplicit false

namespace Starlark

open Relation (ReflTransGen)

/-! ## Values without floats -/

mutual

/-- A value in which no float occurs, also not inside tuples. -/
def Value.FloatFree : Value → Prop
  | .float _ => False
  | .tuple elems => Value.AllFloatFree elems
  | _ => True

/-- No float occurs in the values of a list. -/
def Value.AllFloatFree : List Value → Prop
  | [] => True
  | v :: rest => v.FloatFree ∧ Value.AllFloatFree rest

end

mutual

/-- The number of levels that a comparison of a value with itself goes down. -/
def Value.levels : Value → Nat
  | .tuple elems => Value.levelsOfList elems + 1
  | _ => 1

/-- The levels of the deepest value of a list. -/
def Value.levelsOfList : List Value → Nat
  | [] => 0
  | v :: rest => max v.levels (Value.levelsOfList rest)

end

namespace Value

/-- Values are free of floats together if each of them is. -/
theorem allFloatFree_iff {vs : List Value} : AllFloatFree vs ↔ ∀ v ∈ vs, v.FloatFree := by
  induction vs with
  | nil => simp [AllFloatFree]
  | cons v vs ih => simp [AllFloatFree, ih]

@[simp] theorem floatFree_tuple {elems : List Value} :
    (Value.tuple elems).FloatFree ↔ ∀ v ∈ elems, v.FloatFree := by
  rw [FloatFree, allFloatFree_iff]

/-- Every value has a level of its own. -/
theorem levels_pos (v : Value) : 0 < v.levels := by
  cases v <;> simp [levels]

/-- The levels of a list of values are those of its deepest value. -/
theorem levelsOfList_le_iff {vs : List Value} {n : Nat} :
    levelsOfList vs ≤ n ↔ ∀ v ∈ vs, v.levels ≤ n := by
  induction vs with
  | nil => simp [levelsOfList]
  | cons v vs ih => rw [levelsOfList, Nat.max_le, ih, List.forall_mem_cons]

/-- A list of values is hashable if each of them is. -/
theorem unhashableIn?_eq_none_iff {vs : List Value} :
    unhashableIn? vs = none ↔ ∀ v ∈ vs, v.unhashable? = none := by
  induction vs with
  | nil => simp [unhashableIn?]
  | cons v vs ih => cases hv : v.unhashable? <;> simp [unhashableIn?, hv, ih]

end Value

/-! ## Equal keys -/

section Sequences

variable {ε α : Type} {eq : α → α → Except ε Bool}

/-- Sequences are equal if they have equal elements at equal places, and as many of them. -/
theorem seqEqual_eq_true_iff {xs ys : List α} :
    seqEqual eq xs ys = .ok true ↔ List.Forall₂ (fun x y => eq x y = .ok true) xs ys := by
  induction xs generalizing ys with
  | nil => cases ys <;> simp [seqEqual]
  | cons x xs ih =>
    cases ys with
    | nil => simp [seqEqual]
    | cons y ys =>
      rw [seqEqual, List.forall₂_cons, ← ih]
      -- a difference or an error ends the comparison here
      cases eq x y with
      | error e => simp [bind, Except.bind]
      | ok b => cases b <;> simp [bind, Except.bind]

/-- Sequences are found equal if they agree place by place. -/
theorem sameLengthEqual_eq_true_iff {xs ys : List α} :
    sameLengthEqual eq xs ys = .ok true ↔ List.Forall₂ (fun x y => eq x y = .ok true) xs ys := by
  rw [← seqEqual_eq_true_iff, sameLengthEqual]
  split
  · exact Iff.rfl
  · rename_i hlen
    constructor
    · intro h
      cases h
    · intro h
      exact absurd (seqEqual_eq_true_iff.1 h).length_eq hlen

end Sequences

/-- Values that hold no others and no floats are equal only if they are the same. -/
theorem Value.eq_of_atomEqual {x y : Value} (hx : x.FloatFree) (hy : y.FloatFree)
    (h : x.atomEqual y = true) : x = y := by
  unfold atomEqual at h
  split at h
  case h_4 => exact hx.elim
  case h_5 => exact hy.elim
  case h_6 => exact hx.elim
  all_goals simp_all

/-- A value that can be a key and is no tuple is equal to itself. -/
theorem Value.atomEqual_self {x : Value} (hx : x.FloatFree) (hhash : x.unhashable? = none)
    (htuple : ∀ elems, x ≠ .tuple elems) : x.atomEqual x = true := by
  cases x with
  | float a => exact hx.elim
  | tuple elems => exact absurd rfl (htuple elems)
  | list r => cases hhash
  | dict r => cases hhash
  | cell r => cases hhash
  | mandatory => cases hhash
  | _ => simp [atomEqual]

/-- Keys that are found equal are the same, and within the levels of the comparison. -/
theorem eq_of_keyEqualAt {n : Nat} {x y : Value} (hx : x.FloatFree) (hy : y.FloatFree)
    (h : keyEqualAt n x y = .ok true) : x = y ∧ x.levels ≤ n := by
  -- on the depth left: comparing ends in an error where it is used up, so equal keys are within it
  induction n generalizing x y with
  | zero => cases h
  | succ n ih =>
    unfold keyEqualAt at h
    split at h
    · rename_i a b
      rw [sameLengthEqual_eq_true_iff] at h
      rw [Value.floatFree_tuple] at hx hy
      have helems : a = b ∧ ∀ x ∈ a, x.levels ≤ n := by
        induction h with
        | nil => exact ⟨rfl, nofun⟩
        | cons hhead _ ihtail =>
          rw [List.forall_mem_cons] at hx hy
          obtain ⟨rfl, hlevels⟩ := ih hx.1 hy.1 hhead
          obtain ⟨rfl, htail⟩ := ihtail hx.2 hy.2
          exact ⟨rfl, List.forall_mem_cons.2 ⟨hlevels, htail⟩⟩
      refine ⟨congrArg Value.tuple helems.1, ?_⟩
      exact Nat.succ_le_succ (Value.levelsOfList_le_iff.2 helems.2)
    · rename_i htuple
      cases Value.eq_of_atomEqual hx hy (Except.ok.inj h)
      refine ⟨rfl, ?_⟩
      cases x with
      | tuple elems => exact (htuple elems elems rfl rfl).elim
      | _ => exact Nat.le_add_left 1 n

/-- A key is equal to itself if the comparison goes down far enough. -/
theorem keyEqualAt_self {n : Nat} {x : Value} (hx : x.FloatFree) (hhash : x.unhashable? = none)
    (hlevels : x.levels ≤ n) : keyEqualAt n x x = .ok true := by
  induction n generalizing x with
  | zero => exact absurd x.levels_pos (Nat.not_lt.2 hlevels)
  | succ n ih =>
    unfold keyEqualAt
    split
    · rename_i a b
      rw [Value.floatFree_tuple] at hx
      rw [sameLengthEqual_eq_true_iff, List.forall₂_same]
      intro v hv
      apply ih (hx v hv)
      · exact Value.unhashableIn?_eq_none_iff.1 hhash v hv
      · exact Value.levelsOfList_le_iff.1 (Nat.le_of_succ_le_succ hlevels) v hv
    · rename_i htuple
      rw [Value.atomEqual_self hx hhash]
      intro elems he
      exact htuple elems elems he he

/-- Keys that are too deep to compare are different, so equality of keys is a comparison that
succeeds. -/
theorem keyEqual_eq_true_iff {x y : Value} :
    keyEqual x y = true ↔ keyEqualAt maxCompareDepth x y = .ok true := by
  unfold keyEqual
  cases keyEqualAt maxCompareDepth x y <;> simp

/-- A dict takes two keys for one if they are equal and hash alike. -/
theorem sameKey_eq_true_iff {x y : Value} :
    sameKey x y = true ↔ keyEqualAt maxCompareDepth x y = .ok true ∧ x.hashItems = y.hashItems := by
  rw [sameKey, Bool.and_eq_true, keyEqual_eq_true_iff, beq_iff_eq]

/-- Equal keys without floats are the same. -/
theorem eq_of_sameKey {x y : Value} (hx : x.FloatFree) (hy : y.FloatFree) (h : sameKey x y = true) :
    x = y ∧ x.levels ≤ maxCompareDepth :=
  eq_of_keyEqualAt hx hy (sameKey_eq_true_iff.1 h).1

/-- A key without floats is equal to itself exactly if a comparison reaches to its ends. -/
theorem sameKey_self_iff {x : Value} (hx : x.FloatFree) (hhash : x.unhashable? = none) :
    sameKey x x = true ↔ x.levels ≤ maxCompareDepth := by
  constructor
  · intro h
    exact (eq_of_sameKey hx hx h).2
  · intro hlevels
    exact sameKey_eq_true_iff.2 ⟨keyEqualAt_self hx hhash hlevels, rfl⟩

/-! ## Entries -/

namespace DictObj

/-- The keys of a dict, in order. -/
def keys (d : DictObj) : List Value := d.entries.toList.map (·.1)

theorem length_keys (d : DictObj) : d.keys.length = d.entries.size := by
  simp [keys]

/-- The place of a key depends on the keys only. -/
theorem find?_eq_findIdx?_keys (d : DictObj) (k : Value) :
    d.find? k = d.keys.findIdx? (sameKey · k) := by
  obtain ⟨⟨es⟩, frozen, iterating⟩ := d
  simp [find?, keys, List.findIdx?_map, Function.comp_def]

/-- What is found under a key is what the place of the key holds. -/
theorem lookup?_eq (d : DictObj) (k : Value) :
    d.lookup? k = (d.find? k).bind fun i => d.entries[i]?.map (·.2) := by
  cases hfind : d.find? k with
  | none =>
    rw [find?, Array.findIdx?_eq_none_iff] at hfind
    rw [lookup?, Array.find?_eq_none.2]
    · rfl
    · intro e he
      exact Bool.eq_false_iff.1 (hfind e he)
  | some i =>
    obtain ⟨hi, hkey, hfirst⟩ := Array.findIdx?_eq_some_iff_getElem.1 hfind
    have he : (d.entries.find? fun e => sameKey e.1 k) = some d.entries[i] := by
      rw [Array.find?_eq_some_iff_getElem]
      refine ⟨hkey, i, hi, rfl, ?_⟩
      intro j hj
      rw [Bool.not_eq_true', Bool.eq_false_iff]
      exact hfirst j hj
    simp [lookup?, he, hi]

/-- What is found was stored for a key that is the same. -/
theorem exists_of_lookup? {d : DictObj} {k w : Value} (h : d.lookup? k = some w) :
    ∃ x, (x, w) ∈ d.entries ∧ sameKey x k = true := by
  obtain ⟨e, he, rfl⟩ := Option.map_eq_some_iff.1 h
  have hkey := Array.find?_some he
  exact ⟨e.1, Array.mem_of_find?_eq_some he, hkey⟩

/-- Nothing is found for a key that has no place. -/
theorem lookup?_eq_none_iff {d : DictObj} {k : Value} : d.lookup? k = none ↔ d.find? k = none := by
  rw [lookup?, find?, Option.map_eq_none_iff, Array.find?_eq_none, Array.findIdx?_eq_none_iff]
  simp

/-- A key has no place if it is none of the keys that are there. -/
theorem find?_eq_none_iff {d : DictObj} {k : Value} :
    d.find? k = none ↔ ∀ x ∈ d.keys, sameKey x k = false := by
  rw [find?_eq_findIdx?_keys, List.findIdx?_eq_none_iff]

/-- The key at the place of a key. -/
theorem getElem?_keys_of_find? {d : DictObj} {k : Value} {i : Nat} (h : d.find? k = some i) :
    ∃ x, d.keys[i]? = some x ∧ sameKey x k = true := by
  rw [find?_eq_findIdx?_keys] at h
  obtain ⟨hi, hkey, -⟩ := List.findIdx?_eq_some_iff_getElem.1 h
  exact ⟨_, List.getElem?_eq_getElem hi, hkey⟩

/-! ### Inserting -/

/-- A key that has a place is not stored again; the first one stays. -/
theorem keys_insert_of_some {d : DictObj} {k v : Value} {i : Nat} (h : d.find? k = some i) :
    (d.insert k v).keys = d.keys := by
  simp only [insert, h, keys, Array.toList_modify]
  apply List.ext_getElem?
  intro j
  simp only [List.getElem?_map, List.getElem?_modify, Option.map_eq_map, Option.map_map]
  congr 1
  funext e
  simp only [Function.comp_apply]
  split <;> rfl

/-- A key that has no place comes last. -/
theorem keys_insert_of_none {d : DictObj} {k v : Value} (h : d.find? k = none) :
    (d.insert k v).keys = d.keys ++ [k] := by
  simp [insert, h, keys]

/-- What was stored under a key is found there, if the key is equal to itself. -/
theorem lookup?_insert_self {d : DictObj} {k : Value} (v : Value) (hself : sameKey k k = true) :
    (d.insert k v).lookup? k = some v := by
  rw [lookup?_eq, find?_eq_findIdx?_keys]
  cases h : d.find? k with
  | some i =>
    obtain ⟨hi, -⟩ := Array.findIdx?_eq_some_iff_getElem.1 h
    rw [keys_insert_of_some h, ← find?_eq_findIdx?_keys, h]
    simp [insert, h, Array.getElem?_modify, hi]
  | none =>
    -- the key is at the end, and nothing before it is equal to it
    rw [keys_insert_of_none h, List.findIdx?_append, ← find?_eq_findIdx?_keys, h]
    simp [insert, h, hself, length_keys]

/-- Under a key that is equal to no key that the inserted one is equal to, nothing changes. -/
theorem lookup?_insert_of_ne {d : DictObj} {k k' : Value} (v : Value) (hne : sameKey k k' = false)
    (hapart : ∀ x ∈ d.keys, sameKey x k = true → sameKey x k' = false) :
    (d.insert k v).lookup? k' = d.lookup? k' := by
  rw [lookup?_eq, lookup?_eq, find?_eq_findIdx?_keys, find?_eq_findIdx?_keys]
  cases h : d.find? k with
  | some i =>
    rw [keys_insert_of_some h]
    cases h' : d.keys.findIdx? (sameKey · k') with
    | none => rfl
    | some j =>
      -- the place of the other key is another one
      have hij : i ≠ j := by
        rintro rfl
        obtain ⟨x, hx, hkey⟩ := getElem?_keys_of_find? h
        obtain ⟨y, hy, hkey'⟩ := getElem?_keys_of_find? ((find?_eq_findIdx?_keys d k').trans h')
        cases hx.symm.trans hy
        rw [hapart x (List.mem_of_getElem? hx) hkey] at hkey'
        cases hkey'
      simp [insert, h, Array.getElem?_modify, hij]
  | none =>
    rw [keys_insert_of_none h, List.findIdx?_append]
    have hlast : [k].findIdx? (sameKey · k') = none := by
      simp [hne]
    rw [hlast, Option.map_none, Option.or_none]
    cases h' : d.keys.findIdx? (sameKey · k') with
    | none => rfl
    | some j =>
      obtain ⟨hj, -⟩ := List.findIdx?_eq_some_iff_getElem.1 h'
      rw [length_keys] at hj
      simp [insert, h, Array.getElem?_push, Nat.ne_of_lt hj]

/-! ### Maps -/

/-- A dict whose keys can be keys, and of whose keys no two are equal. -/
structure IsMap (d : DictObj) : Prop where
  hashable : ∀ x ∈ d.keys, x.unhashable? = none
  distinct : d.keys.Pairwise fun x y => sameKey x y = false

namespace IsMap

variable {d : DictObj} {k : Value}

/-- Whether a dict is a map says something about its keys only. -/
theorem of_keys_eq (hd : d.IsMap) {d' : DictObj} (h : d'.keys = d.keys) : d'.IsMap := by
  constructor
  · rw [h]
    exact hd.hashable
  · rw [h]
    exact hd.distinct

theorem of_entries_eq (hd : d.IsMap) {d' : DictObj} (h : d'.entries = d.entries) : d'.IsMap :=
  hd.of_keys_eq (by rw [keys, keys, h])

theorem of_entries_empty (h : d.entries = #[]) : d.IsMap := by
  have hkeys : d.keys = [] := by
    simp [keys, h]
  constructor <;> simp [hkeys]

/-- A hashable key may be inserted into a map. -/
theorem insert (hd : d.IsMap) (hhash : k.unhashable? = none) (v : Value) :
    (d.insert k v).IsMap := by
  cases h : d.find? k with
  | some i => exact hd.of_keys_eq (keys_insert_of_some h)
  | none =>
    -- the new key stands at the end, and it is equal to none before it
    have hkeys := keys_insert_of_none (v := v) h
    rw [find?_eq_none_iff] at h
    constructor
    · rw [hkeys, List.forall_mem_append]
      exact ⟨hd.hashable, List.forall_mem_singleton.2 hhash⟩
    · rw [hkeys, List.pairwise_append]
      refine ⟨hd.distinct, List.pairwise_singleton _ _, ?_⟩
      intro x hx y hy
      rw [List.mem_singleton.1 hy]
      exact h x hx

end IsMap

/-! ### Keys without floats -/

/-- A dict whose keys can be keys and hold no floats, and of whose keys no two are equal. -/
structure Keyed (d : DictObj) : Prop where
  floatFree : ∀ x ∈ d.keys, x.FloatFree
  hashable : ∀ x ∈ d.keys, x.unhashable? = none
  distinct : d.keys.Pairwise fun x y => sameKey x y = false

namespace Keyed

variable {d : DictObj} {k : Value}

/-- A map whose keys have no floats is keyed. -/
theorem of_isMap (hd : d.IsMap) (hfloat : ∀ x ∈ d.keys, x.FloatFree) : d.Keyed :=
  ⟨hfloat, hd.hashable, hd.distinct⟩

/-- A keyed dict is a map. -/
theorem isMap (hd : d.Keyed) : d.IsMap := ⟨hd.hashable, hd.distinct⟩

theorem of_keys_eq (hd : d.Keyed) {d' : DictObj} (h : d'.keys = d.keys) : d'.Keyed :=
  .of_isMap (hd.isMap.of_keys_eq h) (h ▸ hd.floatFree)

theorem of_entries_empty (h : d.entries = #[]) : d.Keyed :=
  .of_isMap (.of_entries_empty h) (by simp [keys, h])

/-- A key within the levels of a comparison is absent if it has no place. -/
theorem find?_eq_none_iff_not_mem (hd : d.Keyed) (hk : k.FloatFree)
    (hlevels : k.levels ≤ maxCompareDepth) : d.find? k = none ↔ k ∉ d.keys := by
  rw [find?_eq_none_iff]
  constructor
  · intro hall hmem
    have hself := (sameKey_self_iff hk (hd.hashable k hmem)).2 hlevels
    rw [hall k hmem] at hself
    cases hself
  · intro hnot x hx
    rw [Bool.eq_false_iff]
    intro hkey
    obtain ⟨rfl, -⟩ := eq_of_sameKey (hd.floatFree x hx) hk hkey
    exact hnot hx

/-- A key beyond the levels of a comparison has no place. -/
theorem find?_of_deep (hd : d.Keyed) (hk : k.FloatFree) (hdeep : maxCompareDepth < k.levels) :
    d.find? k = none := by
  rw [find?_eq_none_iff]
  intro x hx
  rw [Bool.eq_false_iff]
  intro hkey
  obtain ⟨rfl, hlevels⟩ := eq_of_sameKey (hd.floatFree x hx) hk hkey
  exact Nat.not_lt.2 hlevels hdeep

/-- A hashable key without floats may be inserted into a keyed dict. -/
theorem insert (hd : d.Keyed) (hk : k.FloatFree) (hhash : k.unhashable? = none) (v : Value) :
    (d.insert k v).Keyed := by
  refine .of_isMap (hd.isMap.insert hhash v) ?_
  cases h : d.find? k with
  | some i =>
    rw [keys_insert_of_some h]
    exact hd.floatFree
  | none =>
    rw [keys_insert_of_none h, List.forall_mem_append]
    exact ⟨hd.floatFree, List.forall_mem_singleton.2 hk⟩

end Keyed

end DictObj

/-! ## Dicts in the heap -/

/-- A dict can be changed if it is not frozen and nobody iterates over it. -/
theorem DictObj.checkMutable_eq_ok_iff {d : DictObj} (verb : String) :
    d.checkMutable verb = .ok () ↔ d.frozen = false ∧ d.iterating = 0 := by
  unfold checkMutable
  cases d.frozen <;> simp [Nat.pos_iff_ne_zero]

namespace Heap

variable {h h' : Heap} {r : DictRef} {k v : Value}

/-- A hashable key is looked up without an error. -/
theorem dictGet_of_hashable (hhash : k.unhashable? = none) :
    h.dictGet r k = .ok ((h.dict r).lookup? k) := by
  rw [dictGet, Value.checkHashable_eq_ok_iff.2 hhash]
  rfl

/-- Inserting succeeds exactly for keys and dicts that can be changed, and this is what it does. -/
theorem insert_eq_ok_iff {isNew : Bool} :
    Op.insert r k v h = .ok isNew h' ↔
      ((h.dict r).frozen = false ∧ (h.dict r).iterating = 0) ∧ k.unhashable? = none ∧
        isNew = ((h.dict r).find? k).isNone ∧ h' = h.modifyDict r fun d => d.insert k v := by
  rw [← DictObj.checkMutable_eq_ok_iff "insert into", ← Value.checkHashable_eq_ok_iff]
  simp only [Op.insert, Op.checkDict, Op.check, Op.read, bind, EStateM.bind]
  cases (h.dict r).checkMutable "insert into" with
  | error e => simp
  | ok u =>
    cases k.checkHashable with
    | error e => simp
    | ok u =>
      change EStateM.Result.ok ((h.dict r).find? k).isNone (h.modifyDict r fun d => d.insert k v) =
        .ok isNew h' ↔ _
      simp [eq_comm]

/-! ### Filling a dict -/

/-- One thing that happens while a dict is filled: entries with keys that hold no floats are stored
in it, or something is done that leaves its entries alone. -/
inductive Fills (r : DictRef) (h h' : Heap) : Prop where
  | insert {k v : Value} {isNew : Bool} (hk : k.FloatFree)
      (hinsert : Op.insert r k v h = .ok isNew h')
  | update {other : DictRef} (hkeys : ∀ x ∈ (h.dict other).keys, x.FloatFree)
      (hupdate : Op.update r other h = .ok () h')
  | aside (hsame : (h'.dict r).entries = (h.dict r).entries)

theorem keyed_insert {isNew : Bool} (hd : (h.dict r).Keyed) (hk : k.FloatFree)
    (hinsert : Op.insert r k v h = .ok isNew h') : (h'.dict r).Keyed := by
  obtain ⟨-, hhash, -, rfl⟩ := insert_eq_ok_iff.1 hinsert
  by_cases hr : r.index < h.dicts.size
  · rw [h.dict_modifyDict_self _ hr]
    exact hd.insert hk hhash v
  · -- a reference to nothing stands for an empty dict
    apply DictObj.Keyed.of_entries_empty
    rw [dict_of_size_le _ (by simpa [modifyDict] using hr)]
    rfl

/-- Entries with keys without floats may be inserted, one after another. -/
theorem keyed_insertAll {es : List (Value × Value)} (hd : (h.dict r).Keyed)
    (hes : ∀ e ∈ es, e.1.FloatFree) (hinsert : Op.insertAll r es h = .ok () h') :
    (h'.dict r).Keyed := by
  induction es generalizing h with
  | nil =>
    cases hinsert
    exact hd
  | cons e es ih =>
    rw [List.forall_mem_cons] at hes
    simp only [Op.insertAll, bind, EStateM.bind] at hinsert
    cases hfirst : Op.insert r e.1 e.2 h with
    | error s h₁ =>
      rw [hfirst] at hinsert
      cases hinsert
    | ok isNew h₁ =>
      rw [hfirst] at hinsert
      exact ih (keyed_insert hd hes.1 hfirst) hes.2 hinsert

/-- A dict whose keys have no floats may be united with a keyed one. -/
theorem keyed_update {other : DictRef} (hd : (h.dict r).Keyed)
    (hkeys : ∀ x ∈ (h.dict other).keys, x.FloatFree) (hupdate : Op.update r other h = .ok () h') :
    (h'.dict r).Keyed := by
  simp only [Op.update, Op.checkDict, Op.check, Op.read, bind, EStateM.bind] at hupdate
  split at hupdate
  · rename_i u h₁ hcheck
    have hsame : h₁ = h := by
      split at hcheck <;> cases hcheck
      rfl
    subst hsame
    apply keyed_insertAll hd ?_ hupdate
    intro e he
    exact hkeys e.1 (List.mem_map_of_mem he)
  · cases hupdate

/-- However a keyed dict is filled, it stays keyed. -/
theorem Fills.keyed (hf : h.Fills r h') (hd : (h.dict r).Keyed) : (h'.dict r).Keyed := by
  cases hf with
  | insert hk hinsert => exact keyed_insert hd hk hinsert
  | update hkeys hupdate => exact keyed_update hd hkeys hupdate
  | aside hsame => exact hd.of_keys_eq (by rw [DictObj.keys, DictObj.keys, hsame])

/-- A dict that was filled from empty has different keys. -/
theorem keyed_of_fills {h₀ : Heap} (hempty : (h₀.dict r).entries = #[])
    (hrun : ReflTransGen (Fills r) h₀ h) : (h.dict r).Keyed := by
  induction hrun with
  | refl => exact .of_entries_empty hempty
  | tail _ hf ih => exact hf.keyed ih

/-! ### The order of insertion -/

/-- Other keys keep what they have. -/
theorem dictGet_insert_of_ne {isNew : Bool} (hr : r.index < h.dicts.size) (hd : (h.dict r).Keyed)
    (hk : k.FloatFree) (hinsert : Op.insert r k v h = .ok isNew h') {k' : Value}
    (hk' : k'.FloatFree)
    (hne : k' ≠ k) : h'.dictGet r k' = h.dictGet r k' := by
  obtain ⟨-, -, -, rfl⟩ := insert_eq_ok_iff.1 hinsert
  rw [dictGet, dictGet, h.dict_modifyDict_self _ hr, DictObj.lookup?_insert_of_ne v]
  · rw [Bool.eq_false_iff]
    intro hkey
    exact hne (eq_of_sameKey hk hk' hkey).1.symm
  · -- a key equal to both would be the same as both
    intro x hx hkey
    rw [Bool.eq_false_iff]
    intro hkey'
    obtain ⟨rfl, -⟩ := eq_of_sameKey (hd.floatFree x hx) hk hkey
    exact hne (eq_of_sameKey hk hk' hkey').1.symm

/-- A dict filled from empty with keys that hold no floats is a map in order of insertion. Storing
under a key leaves what other keys have; the key comes last and the dict grows by one if it is new,
and else it keeps its place. If the key is within the levels of a comparison, then it is new exactly
if it was not there, and what was stored is found under it. A deeper key is always taken for a new
one, and nothing is found under it. -/
theorem insert_ordered {h₀ : Heap} (hempty : (h₀.dict r).entries = #[])
    (hrun : ReflTransGen (Fills r) h₀ h) (hr : r.index < h.dicts.size)
    (hmutable : (h.dict r).frozen = false ∧ (h.dict r).iterating = 0) (hk : k.FloatFree)
    (hhash : k.unhashable? = none) (v : Value) :
    ∃ isNew h', Op.insert r k v h = .ok isNew h' ∧
      (∀ k', k'.FloatFree → k' ≠ k → h'.dictGet r k' = h.dictGet r k') ∧
      (h'.dict r).entries.size = (h.dict r).entries.size + (if isNew then 1 else 0) ∧
      (h'.dict r).keys = (h.dict r).keys ++ (if isNew then [k] else []) ∧
      (isNew = true ↔ h.dictGet r k = .ok none) ∧
      (k.levels ≤ maxCompareDepth →
        h'.dictGet r k = .ok (some v) ∧ (isNew = true ↔ k ∉ (h.dict r).keys)) ∧
      (maxCompareDepth < k.levels → isNew = true ∧ h'.dictGet r k = .ok none) := by
  have hd := keyed_of_fills hempty hrun
  have hinsert := (insert_eq_ok_iff (v := v)).2 ⟨hmutable, hhash, rfl, rfl⟩
  refine ⟨_, _, hinsert, fun k' hk' hne => dictGet_insert_of_ne hr hd hk hinsert hk' hne, ?_⟩
  have hd' := keyed_insert hd hk hinsert
  rw [dictGet_of_hashable hhash, dictGet_of_hashable hhash]
  rw [h.dict_modifyDict_self _ hr] at hd' ⊢
  have hkeys : ((h.dict r).insert k v).keys =
      (h.dict r).keys ++ (if ((h.dict r).find? k).isNone then [k] else []) := by
    cases hfind : (h.dict r).find? k with
    | none => exact DictObj.keys_insert_of_none hfind
    | some i => exact (DictObj.keys_insert_of_some hfind).trans (List.append_nil _).symm
  refine ⟨?_, hkeys, ?_, ?_, ?_⟩
  · rw [← DictObj.length_keys, ← DictObj.length_keys, hkeys, List.length_append]
    congr 1
    split <;> rfl
  · rw [Option.isNone_iff_eq_none, Except.ok.injEq, DictObj.lookup?_eq_none_iff]
  · intro hlevels
    rw [DictObj.lookup?_insert_self v ((sameKey_self_iff hk hhash).2 hlevels)]
    rw [← hd.find?_eq_none_iff_not_mem hk hlevels, Option.isNone_iff_eq_none]
    exact ⟨rfl, Iff.rfl⟩
  -- a key beyond the depth of comparison is not even found equal to itself
  · intro hdeep
    rw [hd.find?_of_deep hk hdeep, DictObj.lookup?_eq, hd'.find?_of_deep hk hdeep]
    exact ⟨rfl, rfl⟩

/-- A number inside so many tuples. -/
def boxed : Nat → Value
  | 0 => .int 1
  | n + 1 => .tuple [boxed n]

theorem floatFree_boxed (n : Nat) : (boxed n).FloatFree := by
  induction n with
  | zero => trivial
  | succ n ih => exact ⟨ih, trivial⟩

/-- A dict with one entry, whose key is a number inside ten tuples. -/
def boxedKey : Heap := { dicts := #[{ entries := #[(boxed 10, .null)] }] }

/-- A number inside nine tuples is found again. Inside ten it is not, and it is stored once more. -/
theorem insert_ordered_boxed :
    (∃ h', Op.insert ⟨0⟩ (boxed 9) (.bool true) boxedKey = .ok true h' ∧
      h'.dictGet ⟨0⟩ (boxed 9) = .ok (some (.bool true))) ∧
    ∃ h', Op.insert ⟨0⟩ (boxed 10) (.bool true) boxedKey = .ok true h' ∧
      h'.dictGet ⟨0⟩ (boxed 10) = .ok none ∧ (h'.dict ⟨0⟩).keys = [boxed 10, boxed 10] := by
  have hstore : Op.insert ⟨0⟩ (boxed 10) .null { dicts := #[{ entries := #[] }] } =
      .ok true boxedKey := by
    refine insert_eq_ok_iff.2 ⟨⟨rfl, rfl⟩, rfl, ?_, ?_⟩
    · simp [dict, DictObj.find?]
    · simp [boxedKey, modifyDict, DictObj.insert, DictObj.find?]
  -- the key nested ten deep is in the dictionary already, and goes in a second time
  have hrun : ReflTransGen (Fills ⟨0⟩) { dicts := #[{ entries := #[] }] } boxedKey :=
    ReflTransGen.single (.insert (floatFree_boxed 10) hstore)
  constructor
  · obtain ⟨isNew, h', hinsert, -, -, -, hnew, hfound, -⟩ :=
      insert_ordered rfl hrun Nat.one_pos ⟨rfl, rfl⟩ (floatFree_boxed 9) rfl (.bool true)
    cases hnew.2 rfl
    exact ⟨h', hinsert, (hfound (by decide)).1⟩
  · obtain ⟨isNew, h', hinsert, -, -, hkeys, -, -, hlost⟩ :=
      insert_ordered rfl hrun Nat.one_pos ⟨rfl, rfl⟩ (floatFree_boxed 10) rfl (.bool true)
    obtain ⟨rfl, hget⟩ := hlost (by decide)
    exact ⟨h', hinsert, hget, hkeys⟩

end Heap

end Starlark
