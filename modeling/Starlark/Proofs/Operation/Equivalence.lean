import Mathlib.Data.List.Perm.Subperm
import Starlark.Proofs.Operation.Keys
import Starlark.Proofs.Operation.Visibility

/-!
# Equality as an equivalence

A comparison that finds two values equal has found that they agree level by level (`Heap.AlikeBy`).
Among values without floats that relation is symmetric and transitive at every depth, also where
lists and dicts are shared or hold themselves, and where a list or dict was met again and not looked
into. Dicts are compared in one direction only; that this is enough follows by counting their keys.
So equality is symmetric and transitive, no value differs from itself, and the order of the entries
of dicts has no part in it (`Heap.equal_equivalence`).
-/

set_option autoImplicit false

namespace Starlark

/-! ## Agreement place by place -/

section Lists

variable {α : Type} {R S T : α → α → Prop}

/-- A relation between elements at equal places may be weakened where the elements are known. -/
theorem forall₂_of_mem {xs ys : List α} (h : List.Forall₂ R xs ys)
    (hRS : ∀ x ∈ xs, ∀ y ∈ ys, R x y → S x y) : List.Forall₂ S xs ys := by
  induction h with
  | nil => exact .nil
  | cons hhead _ ih =>
    constructor
    · exact hRS _ List.mem_cons_self _ List.mem_cons_self hhead
    · apply ih
      intro x hx y hy
      exact hRS x (List.mem_cons_of_mem _ hx) y (List.mem_cons_of_mem _ hy)

/-- Two relations between elements at equal places compose where the elements are known. -/
theorem forall₂_trans_of_mem {xs ys zs : List α} (h₁ : List.Forall₂ R xs ys)
    (h₂ : List.Forall₂ S ys zs)
    (hRST : ∀ x ∈ xs, ∀ y ∈ ys, ∀ z ∈ zs, R x y → S y z → T x z) : List.Forall₂ T xs zs := by
  induction h₁ generalizing zs with
  | nil =>
    cases h₂
    exact .nil
  | cons hhead _ ih =>
    cases h₂ with
    | cons hhead₂ htail₂ =>
      constructor
      · exact hRST _ List.mem_cons_self _ List.mem_cons_self _ List.mem_cons_self hhead hhead₂
      · apply ih htail₂
        intro x hx y hy z hz
        exact hRST x (List.mem_cons_of_mem _ hx) y (List.mem_cons_of_mem _ hy) z
          (List.mem_cons_of_mem _ hz)

/-- A sequence is not found different from itself if none of its elements is. -/
theorem seqEqual_self_ne_false {ε : Type} {eq : α → α → Except ε Bool} {xs : List α}
    (h : ∀ x ∈ xs, eq x x ≠ .ok false) : seqEqual eq xs xs ≠ .ok false := by
  induction xs with
  | nil =>
    intro hfalse
    cases hfalse
  | cons x xs ih =>
    rw [List.forall_mem_cons] at h
    rw [seqEqual]
    cases heq : eq x x with
    | error e =>
      intro hfalse
      cases hfalse
    | ok b =>
      cases b with
      | false => exact absurd heq h.1
      | true => exact ih h.2

end Lists

/-! ## Dicts that agree -/

namespace DictObj

/-- A dict whose keys hold no floats and are not equal to one another. -/
structure Apart (d : DictObj) : Prop where
  floatFree : ∀ x ∈ d.keys, x.FloatFree
  distinct : d.keys.Pairwise fun x y => sameKey x y = false

/-- Every entry of the first dict has one in the second with an equal key, and with a value that is
related to its own; and there are as many. -/
def Matches (a b : DictObj) (R : Value → Value → Prop) : Prop :=
  a.entries.size = b.entries.size ∧
    ∀ e ∈ a.entries, e.1.unhashable? = none ∧ ∃ w, b.lookup? e.1 = some w ∧ R e.2 w

theorem mem_keys {d : DictObj} {k w : Value} (h : (k, w) ∈ d.entries) : k ∈ d.keys :=
  List.mem_map_of_mem (Array.mem_toList_iff.2 h)

namespace Apart

variable {d : DictObj} {k w : Value}

/-- No key that is equal to itself has two entries. -/
theorem entry_unique (hd : d.Apart) (hself : sameKey k k = true) {w' : Value}
    (hw : (k, w) ∈ d.entries) (hw' : (k, w') ∈ d.entries) : w = w' := by
  -- of entries at different places the keys are not equal
  have hpairs : d.entries.toList.Pairwise fun e f => e.1 = k ∧ f.1 = k → e.2 = f.2 := by
    apply (List.pairwise_map.1 hd.distinct).imp
    rintro e f hne ⟨rfl, hf⟩
    rw [hf, hself] at hne
    cases hne
  have hall := List.Pairwise.forall_of_forall_of_flip (fun e _ _ => rfl) hpairs
    (hpairs.imp fun h hfe => (h hfe.symm).symm)
  exact hall (Array.mem_toList_iff.2 hw) (Array.mem_toList_iff.2 hw') ⟨rfl, rfl⟩

/-- What is found under a key is what an entry with that key holds. -/
theorem lookup?_eq_some_iff (hd : d.Apart) (hk : k.FloatFree) (hhash : k.unhashable? = none) :
    d.lookup? k = some w ↔ (k, w) ∈ d.entries ∧ k.levels ≤ maxCompareDepth := by
  constructor
  · intro hlookup
    obtain ⟨x, hmem, hkey⟩ := exists_of_lookup? hlookup
    obtain ⟨rfl, hlevels⟩ := eq_of_sameKey (hd.floatFree x (mem_keys hmem)) hk hkey
    exact ⟨hmem, hlevels⟩
  · rintro ⟨hmem, hlevels⟩
    have hself := (sameKey_self_iff hk hhash).2 hlevels
    cases hlookup : d.lookup? k with
    | none =>
      rw [lookup?_eq_none_iff, find?_eq_none_iff] at hlookup
      rw [hlookup k (mem_keys hmem)] at hself
      cases hself
    | some w' =>
      obtain ⟨x, hmem', hkey⟩ := exists_of_lookup? hlookup
      obtain ⟨rfl, -⟩ := eq_of_sameKey (hd.floatFree x (mem_keys hmem')) hk hkey
      rw [hd.entry_unique hself hmem hmem']

/-- The order of the entries does not matter. -/
theorem perm (hd : d.Apart) {d' : DictObj} (hperm : d.entries.toList.Perm d'.entries.toList) :
    d'.Apart := by
  have hkeys : d.keys.Perm d'.keys := hperm.map _
  have hfree : ∀ x ∈ d'.keys, x.FloatFree := fun x hx => hd.floatFree x (hkeys.mem_iff.2 hx)
  refine ⟨hfree, ?_⟩
  -- on keys without floats, to be unequal is symmetric
  have hpairs : d.keys.Pairwise fun x y => x = y → sameKey x x = false := by
    apply hd.distinct.imp
    rintro x y hne rfl
    exact hne
  apply ((hkeys.pairwise_iff fun h he => he ▸ h he.symm).1 hpairs).imp_of_mem
  intro x y hx hy hne
  rw [Bool.eq_false_iff]
  intro hkey
  obtain ⟨rfl, -⟩ := eq_of_sameKey (hfree x hx) (hfree y hy) hkey
  rw [hne rfl] at hkey
  cases hkey

end Apart

variable {a b c : DictObj} {R S T : Value → Value → Prop}

/-- A dict without floats matches another one whose keys are apart if they have equally many entries
and each entry has one with the same key there. -/
theorem matches_iff (ha : ∀ x ∈ a.keys, x.FloatFree) (hb : b.Apart) :
    a.Matches b R ↔ a.entries.size = b.entries.size ∧ ∀ e ∈ a.entries, e.1.unhashable? = none ∧
      e.1.levels ≤ maxCompareDepth ∧ ∃ w, (e.1, w) ∈ b.entries ∧ R e.2 w := by
  apply and_congr_right
  intro _
  apply forall₂_congr
  intro e he
  apply and_congr_right
  intro hhash
  constructor
  · rintro ⟨w, hlookup, hR⟩
    rw [hb.lookup?_eq_some_iff (ha _ (mem_keys he)) hhash] at hlookup
    exact ⟨hlookup.2, w, hlookup.1, hR⟩
  · rintro ⟨hlevels, w, hmem, hR⟩
    exact ⟨w, (hb.lookup?_eq_some_iff (ha _ (mem_keys he)) hhash).2 ⟨hmem, hlevels⟩, hR⟩

/-- Dicts that agree have the same keys: those of the first are different, all of them are in the
second, and there are as many. -/
theorem Matches.keys_perm (hm : a.Matches b R) (ha : a.Apart) (hb : b.Apart) :
    a.keys.Perm b.keys := by
  rw [matches_iff ha.floatFree hb] at hm
  have hnodup : a.keys.Nodup := by
    apply ha.distinct.imp_of_mem
    rintro x y hx - hne rfl
    obtain ⟨e, he, rfl⟩ := List.mem_map.1 hx
    obtain ⟨hhash, hlevels, -⟩ := hm.2 e (Array.mem_toList_iff.1 he)
    rw [(sameKey_self_iff (ha.floatFree _ hx) hhash).2 hlevels] at hne
    cases hne
  have hsubset : a.keys ⊆ b.keys := by
    intro x hx
    obtain ⟨e, he, rfl⟩ := List.mem_map.1 hx
    obtain ⟨-, -, w, hw, -⟩ := hm.2 e (Array.mem_toList_iff.1 he)
    exact mem_keys hw
  apply (hnodup.subperm hsubset).perm_of_length_le
  exact Nat.le_of_eq (by rw [length_keys, length_keys, hm.1])

/-- Dicts whose keys are apart match each other both ways: an injection between finite sets of equal
size is onto. -/
theorem Matches.symm (hm : a.Matches b R) (ha : a.Apart) (hb : b.Apart)
    (hRS : ∀ e ∈ a.entries, ∀ f ∈ b.entries, R e.2 f.2 → S f.2 e.2) : b.Matches a S := by
  have hkeys := hm.keys_perm ha hb
  rw [matches_iff ha.floatFree hb] at hm
  rw [matches_iff hb.floatFree ha]
  refine ⟨hm.1.symm, ?_⟩
  intro f hf
  obtain ⟨e, he, hkey⟩ := List.mem_map.1 (hkeys.mem_iff.2 (mem_keys hf))
  rw [Array.mem_toList_iff] at he
  obtain ⟨hhash, hlevels, w, hw, hR⟩ := hm.2 e he
  -- the entry that was found for `e` is `f`
  have hself := (sameKey_self_iff (ha.floatFree _ (mem_keys he)) hhash).2 hlevels
  have hwf : w = f.2 := hb.entry_unique hself hw (by rw [hkey]; exact hf)
  rw [← hkey]
  exact ⟨hhash, hlevels, e.2, he, hRS e he f hf (hwf ▸ hR)⟩

/-- Dicts match through a third one. -/
theorem Matches.trans (hab : a.Matches b R) (hbc : b.Matches c S) (ha : a.Apart) (hb : b.Apart)
    (hRST : ∀ e ∈ a.entries, ∀ f ∈ b.entries, ∀ g ∈ c.entries, R e.2 f.2 → S f.2 g.2 → T e.2 g.2) :
    a.Matches c T := by
  rw [matches_iff ha.floatFree hb] at hab
  refine ⟨hab.1.trans hbc.1, ?_⟩
  intro e he
  obtain ⟨hhash, -, w, hw, hR⟩ := hab.2 e he
  obtain ⟨-, u, hlookup, hS⟩ := hbc.2 (e.1, w) hw
  obtain ⟨x, hx, -⟩ := exists_of_lookup? hlookup
  exact ⟨hhash, u, hlookup, hRST e he (e.1, w) hw (x, u) hx hR hS⟩

/-- Dicts match whatever the order of their entries is. -/
theorem Matches.perm (hm : a.Matches b R) (ha : a.Apart) (hb : b.Apart) {a' b' : DictObj}
    (hpa : a.entries.toList.Perm a'.entries.toList) (hpb : b.entries.toList.Perm b'.entries.toList)
    (hRS : ∀ e ∈ a.entries, ∀ f ∈ b.entries, R e.2 f.2 → S e.2 f.2) : a'.Matches b' S := by
  rw [matches_iff ha.floatFree hb] at hm
  rw [matches_iff (ha.perm hpa).floatFree (hb.perm hpb)]
  constructor
  · have hsizes := hpa.length_eq.symm.trans (hm.1.trans hpb.length_eq)
    simpa only [Array.length_toList] using hsizes
  · intro e he
    have he : e ∈ a.entries := Array.mem_toList_iff.1 (hpa.mem_iff.2 (Array.mem_toList_iff.2 he))
    obtain ⟨hhash, hlevels, w, hw, hR⟩ := hm.2 e he
    refine ⟨hhash, hlevels, w, ?_, hRS e he (e.1, w) hw hR⟩
    exact Array.mem_toList_iff.1 (hpb.mem_iff.1 (Array.mem_toList_iff.2 hw))

end DictObj

/-! ## One level of a comparison -/

namespace Heap

/-- Two values agree at one level, by a relation of what they hold. -/
inductive AlikeBy (h : Heap) (R : Value → Value → Prop) : Value → Value → Prop where
  | atom {x y : Value} (he : x.atomEqual y = true) : AlikeBy h R x y
  | sameList (r : ListRef) : AlikeBy h R (.list r) (.list r)
  | list {a b : ListRef}
      (helems : List.Forall₂ R (h.list a).elems.toList (h.list b).elems.toList) :
      AlikeBy h R (.list a) (.list b)
  | tuple {a b : List Value} (helems : List.Forall₂ R a b) : AlikeBy h R (.tuple a) (.tuple b)
  | sameDict (r : DictRef) : AlikeBy h R (.dict r) (.dict r)
  | dict {a b : DictRef} (hentries : (h.dict a).Matches (h.dict b) R) :
      AlikeBy h R (.dict a) (.dict b)

variable {h : Heap}

/-- All entries of a dict are in another one if each key is found there with an equal value. -/
theorem entriesEqual_eq_true_iff {eq : Value → Value → Except Error Bool} {b : DictRef}
    {es : List (Value × Value)} :
    h.entriesEqual eq b es = .ok true ↔ ∀ e ∈ es, e.1.unhashable? = none ∧
      ∃ w, (h.dict b).lookup? e.1 = some w ∧ eq e.2 w = .ok true := by
  induction es with
  | nil => simp [entriesEqual]
  | cons e es ih =>
    rw [entriesEqual, List.forall_mem_cons, ← ih]
    cases hhash : e.1.unhashable? with
    | some k => simp [dictGet, Value.checkHashable, hhash, bind, Except.bind]
    | none =>
      rw [dictGet_of_hashable hhash]
      cases (h.dict b).lookup? e.1 with
      | none => simp [bind, Except.bind]
      | some w =>
        cases hw : eq e.2 w with
        | error e => simp [bind, Except.bind, hw]
        | ok same => cases same <;> simp [bind, Except.bind, hw]

/-- Lists are equal if they are the same, or have equal elements. -/
theorem equalAt_list {n : Nat} {a b : ListRef} :
    h.equalAt (n + 1) (.list a) (.list b) = if a = b then .ok true
      else sameLengthEqual (h.equalAt n) (h.list a).elems.toList (h.list b).elems.toList := rfl

/-- Tuples are equal if they have equal elements. -/
theorem equalAt_tuple {n : Nat} {a b : List Value} :
    h.equalAt (n + 1) (.tuple a) (.tuple b) = sameLengthEqual (h.equalAt n) a b := rfl

/-- Dicts are equal if they are the same, or have equally many entries and the entries of one are in
the other. -/
theorem equalAt_dict {n : Nat} {a b : DictRef} :
    h.equalAt (n + 1) (.dict a) (.dict b) = if a = b then .ok true
      else if (h.dict a).entries.size = (h.dict b).entries.size then
        h.entriesEqual (h.equalAt n) b (h.dict a).entries.toList
      else .ok false := rfl

/-- A comparison finds values equal exactly if they agree at one level, and below by the comparison
that is left. -/
theorem equalAt_succ_eq_true_iff {n : Nat} {x y : Value} :
    h.equalAt (n + 1) x y = .ok true ↔ h.AlikeBy (fun x y => h.equalAt n x y = .ok true) x y := by
  constructor
  · intro he
    unfold equalAt at he
    split at he
    · rename_i a b
      split at he
      · rename_i hab
        subst hab
        exact .sameList a
      · exact .list (sameLengthEqual_eq_true_iff.1 he)
    · exact .tuple (sameLengthEqual_eq_true_iff.1 he)
    · rename_i a b
      split at he
      · rename_i hab
        subst hab
        exact .sameDict a
      · split at he
        · rename_i hsize
          refine .dict ⟨hsize, ?_⟩
          intro e hmem
          exact entriesEqual_eq_true_iff.1 he e (Array.mem_toList_iff.2 hmem)
        · cases he
    · exact .atom (Except.ok.inj he)
  · intro ha
    cases ha with
    | atom he =>
      -- values with contents are not equal as values without
      unfold equalAt
      split
      · cases he
      · cases he
      · cases he
      · exact congrArg Except.ok he
    | sameList r => rw [equalAt_list, if_pos rfl]
    | list helems =>
      rw [equalAt_list]
      split
      · rfl
      · exact sameLengthEqual_eq_true_iff.2 helems
    | tuple helems => exact equalAt_tuple.trans (sameLengthEqual_eq_true_iff.2 helems)
    | sameDict r => rw [equalAt_dict, if_pos rfl]
    | dict hentries =>
      rw [equalAt_dict, if_pos hentries.1]
      split
      · rfl
      · apply entriesEqual_eq_true_iff.2
        intro e he
        exact hentries.2 e (Array.mem_toList_iff.1 he)

/-! ## Values without floats and without internals -/

/-- A value is among the contents of another, as far as comparisons look: it is the value itself, or
an element, a key or the value of a key of what is. -/
inductive Contains (h : Heap) (v : Value) : Value → Prop where
  | self : Contains h v v
  | elem {r : ListRef} (hr : Contains h v (.list r)) {w : Value} (hw : w ∈ (h.list r).elems) :
      Contains h v w
  | item {elems : List Value} (ht : Contains h v (.tuple elems)) {w : Value} (hw : w ∈ elems) :
      Contains h v w
  | key {r : DictRef} (hr : Contains h v (.dict r)) {k w : Value}
      (he : (k, w) ∈ (h.dict r).entries) :
      Contains h v k
  | value {r : DictRef} (hr : Contains h v (.dict r)) {k w : Value}
      (he : (k, w) ∈ (h.dict r).entries) : Contains h v w

end Heap

/-- Neither a float nor a value of the machine. -/
def Value.isPlain : Value → Bool
  | .float _ | .cell _ | .mandatory => false
  | _ => true

namespace Heap

variable {h : Heap}

/-- A value with neither floats nor values of the machine among its contents. -/
def Plain (h : Heap) (v : Value) : Prop := ∀ w, h.Contains v w → w.isPlain = true

/-- No two keys of a dict are equal. -/
def DistinctKeys (h : Heap) : Prop :=
  ∀ r, (h.dict r).keys.Pairwise fun x y => sameKey x y = false

/-- What is contained in something contained is contained. -/
theorem Contains.trans {u v w : Value} (huv : h.Contains u v) (hvw : h.Contains v w) :
    h.Contains u w := by
  induction hvw with
  | self => exact huv
  | elem _ hw ih => exact .elem ih hw
  | item _ hw ih => exact .item ih hw
  | key _ he ih => exact .key ih he
  | value _ he ih => exact .value ih he

namespace Plain

/-- What is contained in a plain value is plain. -/
theorem contains {v w : Value} (hv : h.Plain v) (hvw : h.Contains v w) : h.Plain w := by
  intro u hu
  exact hv u (hvw.trans hu)

/-- The elements of a plain list are plain. -/
theorem elem {r : ListRef} (hr : h.Plain (.list r)) : ∀ w ∈ (h.list r).elems.toList, h.Plain w := by
  intro w hw
  exact hr.contains (.elem .self (Array.mem_toList_iff.1 hw))

/-- The elements of a plain tuple are plain. -/
theorem item {elems : List Value} (ht : h.Plain (.tuple elems)) : ∀ w ∈ elems, h.Plain w := by
  intro w hw
  exact ht.contains (.item .self hw)

/-- The values of a plain dict are plain. -/
theorem value {r : DictRef} (hr : h.Plain (.dict r)) : ∀ e ∈ (h.dict r).entries, h.Plain e.2 := by
  intro e he
  exact hr.contains (.value .self he)

mutual

/-- No float occurs in a value that has none among its contents. -/
theorem floatFree : (v : Value) → h.Plain v → v.FloatFree
  | .float _, hv => Bool.noConfusion (hv _ .self)
  | .tuple elems, hv => allFloatFree elems hv.item
  | .null, _ | .bool _, _ | .int _, _ | .str _, _ | .bytes _, _ | .list _, _ | .dict _, _
  | .func _, _ | .builtin _, _ | .cell _, _ | .mandatory, _ => trivial

theorem allFloatFree : (vs : List Value) → (∀ v ∈ vs, h.Plain v) → Value.AllFloatFree vs
  | [], _ => trivial
  | v :: vs, hvs =>
    ⟨floatFree v (hvs v List.mem_cons_self),
      allFloatFree vs fun w hw => hvs w (List.mem_cons_of_mem v hw)⟩

end

/-- The keys of a plain dict are apart. -/
theorem apart {r : DictRef} (hr : h.Plain (.dict r)) (hd : h.DistinctKeys) : (h.dict r).Apart := by
  refine ⟨?_, hd r⟩
  intro x hx
  obtain ⟨e, he, rfl⟩ := List.mem_map.1 hx
  exact floatFree e.1 (hr.contains (.key .self (Array.mem_toList_iff.1 he)))

end Plain

/-- On a heap whose lists and dicts hold no floats and nothing that scripts may not see, every such
value is plain. -/
theorem plain_of_tables (hlists : ∀ l ∈ h.lists, ∀ v ∈ l.elems, v.FloatFree ∧ v.Visible)
    (hdicts : ∀ d ∈ h.dicts, ∀ e ∈ d.entries,
      (e.1.FloatFree ∧ e.1.Visible) ∧ e.2.FloatFree ∧ e.2.Visible)
    {v : Value} (hfree : v.FloatFree) (hvisible : v.Visible) : h.Plain v := by
  intro w hw
  have hboth : w.FloatFree ∧ w.Visible := by
    -- on how the part is reached from the value, through a table at each list and dictionary
    induction hw with
    | self => exact ⟨hfree, hvisible⟩
    | @elem r _ w hw _ =>
      exact of_getD (P := fun l : ListObj => ∀ v ∈ l.elems, v.FloatFree ∧ v.Visible) hlists
        (fun v hv => absurd hv (Array.not_mem_empty v)) r.index w hw
    | item _ hw ih => exact ⟨Value.floatFree_tuple.1 ih.1 _ hw, Value.visible_tuple.1 ih.2 _ hw⟩
    | @key r _ k w he _ =>
      exact (of_getD (P := fun d : DictObj => ∀ e ∈ d.entries,
        (e.1.FloatFree ∧ e.1.Visible) ∧ e.2.FloatFree ∧ e.2.Visible) hdicts
        (fun e he => absurd he (Array.not_mem_empty e)) r.index (k, w) he).1
    | @value r _ k w he _ =>
      exact (of_getD (P := fun d : DictObj => ∀ e ∈ d.entries,
        (e.1.FloatFree ∧ e.1.Visible) ∧ e.2.FloatFree ∧ e.2.Visible) hdicts
        (fun e he => absurd he (Array.not_mem_empty e)) r.index (k, w) he).2
  cases w with
  | float a => exact hboth.1.elim
  | cell r => exact hboth.2.elim
  | mandatory => exact hboth.2.elim
  | _ => rfl

/-! ## Symmetry and transitivity -/

section

variable {R S T : Value → Value → Prop} {x y z : Value}

/-- A relation between parts that can be turned round gives one between wholes that can be. -/
theorem AlikeBy.symm (hd : h.DistinctKeys) (hx : h.Plain x) (hy : h.Plain y) (hxy : h.AlikeBy R x y)
    (hRS : ∀ v w, h.Plain v → h.Plain w → R v w → S w v) : h.AlikeBy S y x := by
  -- dictionaries are turned round entry by entry, which needs their keys to be distinct
  cases hxy with
  | atom he =>
    cases Value.eq_of_atomEqual (Plain.floatFree x hx) (Plain.floatFree y hy) he
    exact .atom he
  | sameList r => exact .sameList r
  | list helems =>
    apply AlikeBy.list
    apply List.Forall₂.flip
    apply forall₂_of_mem helems
    intro v hv w hw
    exact hRS v w (hx.elem v hv) (hy.elem w hw)
  | tuple helems =>
    apply AlikeBy.tuple
    apply List.Forall₂.flip
    apply forall₂_of_mem helems
    intro v hv w hw
    exact hRS v w (hx.item v hv) (hy.item w hw)
  | sameDict r => exact .sameDict r
  | dict hentries =>
    apply AlikeBy.dict
    apply hentries.symm (hx.apart hd) (hy.apart hd)
    intro e he f hf
    exact hRS e.2 f.2 (hx.value e he) (hy.value f hf)

/-- Where one of the two comparisons met the same list or dict and did not look into it, the other
comparison is the one that is asked for. -/
theorem AlikeBy.trans (hd : h.DistinctKeys) (hx : h.Plain x) (hy : h.Plain y) (hz : h.Plain z)
    (hxy : h.AlikeBy R x y) (hyz : h.AlikeBy R y z)
    (hR : ∀ u v w, h.Plain u → h.Plain v → h.Plain w → R u v → R v w → R u w) :
    h.AlikeBy R x z := by
  -- equal atoms are the same value, so only pairs of sequences or of dicts are left
  cases hyz with
  | atom he =>
    cases Value.eq_of_atomEqual (Plain.floatFree y hy) (Plain.floatFree z hz) he
    exact hxy
  | sameList r => exact hxy
  | list helems₂ =>
    cases hxy with
    | atom he =>
      cases Value.eq_of_atomEqual (Plain.floatFree x hx) (Plain.floatFree _ hy) he
      exact .list helems₂
    | sameList r => exact .list helems₂
    | list helems =>
      apply AlikeBy.list
      apply forall₂_trans_of_mem helems helems₂
      intro u hu v hv w hw
      exact hR u v w (hx.elem u hu) (hy.elem v hv) (hz.elem w hw)
  | tuple helems₂ =>
    cases hxy with
    | atom he =>
      cases Value.eq_of_atomEqual (Plain.floatFree x hx) (Plain.floatFree _ hy) he
      exact .tuple helems₂
    | tuple helems =>
      apply AlikeBy.tuple
      apply forall₂_trans_of_mem helems helems₂
      intro u hu v hv w hw
      exact hR u v w (hx.item u hu) (hy.item v hv) (hz.item w hw)
  | sameDict r => exact hxy
  | dict hentries₂ =>
    cases hxy with
    | atom he =>
      cases Value.eq_of_atomEqual (Plain.floatFree x hx) (Plain.floatFree _ hy) he
      exact .dict hentries₂
    | sameDict r => exact .dict hentries₂
    | dict hentries =>
      apply AlikeBy.dict
      apply hentries.trans hentries₂ (hx.apart hd) (hy.apart hd)
      intro e he f hf g hg
      exact hR e.2 f.2 g.2 (hx.value e he) (hy.value f hf) (hz.value g hg)

end

/-- The same lists, and dicts with the same entries in any order. -/
structure Reorders (h h' : Heap) : Prop where
  lists : ∀ r, (h'.list r).elems = (h.list r).elems
  dicts : ∀ r, (h.dict r).entries.toList.Perm (h'.dict r).entries.toList

/-- A relation between parts survives when entries of dicts are put in another order. -/
theorem AlikeBy.reorder {R S : Value → Value → Prop} {x y : Value} {h' : Heap} (hh : h.Reorders h')
    (hd : h.DistinctKeys) (hx : h.Plain x) (hy : h.Plain y) (hxy : h.AlikeBy R x y)
    (hRS : ∀ v w, h.Plain v → h.Plain w → R v w → S v w) : h'.AlikeBy S x y := by
  cases hxy with
  | atom he => exact .atom he
  | sameList r => exact .sameList r
  | list helems =>
    apply AlikeBy.list
    -- only the entries of dictionaries are in another order
    rw [hh.lists, hh.lists]
    apply forall₂_of_mem helems
    intro v hv w hw
    exact hRS v w (hx.elem v hv) (hy.elem w hw)
  | tuple helems =>
    apply AlikeBy.tuple
    apply forall₂_of_mem helems
    intro v hv w hw
    exact hRS v w (hx.item v hv) (hy.item w hw)
  | sameDict r => exact .sameDict r
  | dict hentries =>
    apply AlikeBy.dict
    apply hentries.perm (hx.apart hd) (hy.apart hd) (hh.dicts _) (hh.dicts _)
    intro e he f hf
    exact hRS e.2 f.2 (hx.value e he) (hy.value f hf)

/-! ## Equality -/

section

variable {x y z : Value}

/-- Equality to a depth is symmetric. -/
theorem equalAt_symm (hd : h.DistinctKeys) {n : Nat} (hx : h.Plain x) (hy : h.Plain y)
    (hxy : h.equalAt n x y = .ok true) : h.equalAt n y x = .ok true := by
  induction n generalizing x y with
  | zero => cases hxy
  | succ n ih =>
    rw [equalAt_succ_eq_true_iff] at hxy ⊢
    exact hxy.symm hd hx hy fun v w hv hw => ih hv hw

/-- Equality to a depth is transitive. -/
theorem equalAt_trans (hd : h.DistinctKeys) {n : Nat} (hx : h.Plain x) (hy : h.Plain y)
    (hz : h.Plain z) (hxy : h.equalAt n x y = .ok true) (hyz : h.equalAt n y z = .ok true) :
    h.equalAt n x z = .ok true := by
  induction n generalizing x y z with
  | zero => cases hxy
  | succ n ih =>
    rw [equalAt_succ_eq_true_iff] at hxy hyz ⊢
    exact hxy.trans hd hx hy hz hyz fun u v w hu hv hw => ih hu hv hw

/-- Equality to a depth does not depend on the order of the entries of dicts. -/
theorem equalAt_reorder {h' : Heap} (hh : h.Reorders h') (hd : h.DistinctKeys) {n : Nat}
    (hx : h.Plain x) (hy : h.Plain y) (hxy : h.equalAt n x y = .ok true) :
    h'.equalAt n x y = .ok true := by
  induction n generalizing x y with
  | zero => cases hxy
  | succ n ih =>
    rw [equalAt_succ_eq_true_iff] at hxy ⊢
    exact hxy.reorder hh hd hx hy fun v w hv hw => ih hv hw

/-- No value differs from itself. -/
theorem equalAt_self_ne_false {n : Nat} (hx : h.Plain x) : h.equalAt n x x ≠ .ok false := by
  -- on the depth: where it does not suffice comparing fails, which is not the answer no
  induction n generalizing x with
  | zero => nofun
  | succ n ih =>
    cases x with
    | list r =>
      rw [equalAt_list, if_pos rfl]
      nofun
    | dict r =>
      rw [equalAt_dict, if_pos rfl]
      nofun
    | tuple elems =>
      rw [equalAt_tuple, sameLengthEqual, if_pos rfl]
      apply seqEqual_self_ne_false
      intro v hv
      exact ih (hx.item v hv)
    | float a => cases hx _ .self
    | cell r => cases hx _ .self
    | mandatory => cases hx _ .self
    | _ => simp [equalAt, Value.atomEqual]

/-- Among values with neither floats nor values of the machine in them, on any heap of whose dicts
none has two equal keys, equality is symmetric and transitive where it holds, and no value differs
from itself. In what order the entries of dicts were inserted does not matter to it. -/
theorem equal_equivalence (hd : h.DistinctKeys) (hx : h.Plain x) (hy : h.Plain y) (hz : h.Plain z) :
    (h.equal x y = .ok true ↔ h.equal y x = .ok true) ∧
    (h.equal x y = .ok true → h.equal y z = .ok true → h.equal x z = .ok true) ∧
    h.equal x x ≠ .ok false ∧
    ∀ h', h.Reorders h' → h.equal x y = .ok true → h'.equal x y = .ok true := by
  refine ⟨⟨?_, ?_⟩, ?_, ?_, ?_⟩
  · exact equalAt_symm hd hx hy
  · exact equalAt_symm hd hy hx
  · exact equalAt_trans hd hx hy hz
  · exact equalAt_self_ne_false hx
  · intro h' hh
    exact equalAt_reorder hh hd hx hy

end

/-- Two lists that hold the first of them and a dict, where the second dict has the entries of the
first in another order. -/
def mirrored : Heap :=
  { lists := #[{ elems := #[.list ⟨0⟩, .dict ⟨0⟩] }, { elems := #[.list ⟨0⟩, .dict ⟨1⟩] }]
    dicts := #[{ entries := #[(.int 1, .null), (.int 2, .bool true)] },
      { entries := #[(.int 2, .bool true), (.int 1, .null)] }] }

/-- The lists are equal both ways, and still so when the second dict is filled in the order of the
first. -/
theorem equal_equivalence_mirrored :
    mirrored.equal (.list ⟨0⟩) (.list ⟨1⟩) = .ok true ∧
    mirrored.equal (.list ⟨1⟩) (.list ⟨0⟩) = .ok true ∧
    (mirrored.modifyDict ⟨1⟩ fun d => { d with entries := (mirrored.dict ⟨0⟩).entries }).equal
      (.list ⟨0⟩) (.list ⟨1⟩) = .ok true := by
  have hd : mirrored.DistinctKeys := by
    rintro ⟨_ | _ | n⟩
    · exact List.pairwise_pair.2 (by decide)
    · exact List.pairwise_pair.2 (by decide)
    · exact .nil
  -- the two lists hold dictionaries with the same entries in opposite order
  have hplain : ∀ r, mirrored.Plain (.list r) := by
    intro r
    apply plain_of_tables
    · simp [mirrored, Value.FloatFree]
    · simp only [mirrored, List.mem_toArray, List.mem_cons, List.not_mem_nil, or_false, Prod.forall,
        forall_eq_or_imp, Prod.mk.injEq, forall_eq]
      constructor
      · rintro k w (⟨rfl, rfl⟩ | ⟨rfl, rfl⟩) <;> exact ⟨⟨trivial, trivial⟩, trivial, trivial⟩
      · rintro k w (⟨rfl, rfl⟩ | ⟨rfl, rfl⟩) <;> exact ⟨⟨trivial, trivial⟩, trivial, trivial⟩
    · trivial
    · trivial
  have hequal : mirrored.equal (.list ⟨0⟩) (.list ⟨1⟩) = .ok true := by decide
  have hlaws := equal_equivalence hd (hplain ⟨0⟩) (hplain ⟨1⟩) (hplain ⟨0⟩)
  refine ⟨hequal, hlaws.1.1 hequal, hlaws.2.2.2 _ ⟨fun r => rfl, ?_⟩ hequal⟩
  rintro ⟨_ | _ | n⟩
  · exact .refl _
  · exact .swap _ _ _
  · exact .refl _

end Heap

end Starlark
