import Starlark.Machine.Session
import Starlark.Proofs.Operation.Changes

/-!
# Counted iterators

Each list and dict counts the iterators that are open on it. `Heap.Counts` says that the counters
are right for a list of live iterators: opening an iterator adds it to the list, closing takes it
away, and what operations on values do leaves all counters as they are (`Heap.SameLocks`).
-/

set_option autoImplicit false

namespace Starlark

open Relation (ReflTransGen)

/-! ## Freezing -/

section Freezing

variable {K : Heap → Heap → Prop} (hrefl : ∀ h, K h h)
  (htrans : ∀ {h h' h''}, K h h' → K h' h'' → K h h'')
  (hnode : ∀ (h : Heap) n, K h (h.freezeNode n))

include hrefl htrans hnode

/-- What holds across the freezing of one object holds across the freezing of a value. -/
theorem Heap.rel_freeze (h : Heap) (v : Value) : K h (h.freeze v) := by
  have hfrom : ∀ (rounds : Nat) (h : Heap) (seen work : List Node),
      K h (Heap.freezeFrom rounds h seen work) := by
    intro rounds
    induction rounds with
    | zero => exact fun h _ _ => hrefl h
    | succ rounds ih =>
      intro h seen work
      unfold Heap.freezeFrom
      split
      · exact hrefl h
      · exact htrans (hnode h _) (ih _ _ _)
  exact hfrom _ h [] v.nodes

theorem Heap.rel_freezeModule (h : Heap) (r : ModuleRef) : K h (h.freezeModule r) := by
  unfold Heap.freezeModule
  generalize (h.module r).globals.toList = vs
  induction vs generalizing h with
  | nil => exact hrefl h
  | cons v vs ih =>
    cases v with
    | none => exact ih h
    | some v => exact htrans (rel_freeze hrefl htrans hnode h v) (ih _)

end Freezing

/-! ## Heaps with the same counters -/

/-- Objects may be added, but all counters stay as they are. -/
structure Heap.SameLocks (h h' : Heap) : Prop where
  lists_le : h.lists.size ≤ h'.lists.size
  dicts_le : h.dicts.size ≤ h'.dicts.size
  list : ∀ r, (h'.list r).iterating = (h.list r).iterating
  dict : ∀ r, (h'.dict r).iterating = (h.dict r).iterating

namespace Heap.SameLocks

variable {h h' h'' : Heap}

theorem refl (h : Heap) :
    h.SameLocks h := ⟨Nat.le_refl _, Nat.le_refl _, fun _ => rfl, fun _ => rfl⟩

theorem trans (h1 : h.SameLocks h') (h2 : h'.SameLocks h'') : h.SameLocks h'' where
  lists_le := Nat.le_trans h1.lists_le h2.lists_le
  dicts_le := Nat.le_trans h1.dicts_le h2.dicts_le
  list r := (h2.list r).trans (h1.list r)
  dict r := (h2.dict r).trans (h1.dict r)

/-- Heaps with the same lists and dicts. -/
theorem of_eq (hl : h'.lists = h.lists) (hd : h'.dicts = h.dicts) : h.SameLocks h' where
  lists_le := Nat.le_of_eq (congrArg Array.size hl.symm)
  dicts_le := Nat.le_of_eq (congrArg Array.size hd.symm)
  list r := by rw [Heap.list, Heap.list, hl]
  dict r := by rw [Heap.dict, Heap.dict, hd]

theorem newList (h : Heap) (elems : Array Value) : h.SameLocks (h.newList elems).2 where
  lists_le := by simp [Heap.newList]
  dicts_le := Nat.le_refl _
  list r := by
    simp only [Heap.newList, Heap.list, Array.getD_eq_getD_getElem?, Array.getElem?_push]
    split
    · rename_i hr
      simp only [hr, Array.getElem?_eq_none (Nat.le_refl _)]
      rfl
    · rfl
  dict _ := rfl

theorem newDict (h : Heap) (entries : Array (Value × Value)) :
    h.SameLocks (h.newDict entries).2 where
  lists_le := Nat.le_refl _
  dicts_le := by simp [Heap.newDict]
  list _ := rfl
  dict r := by
    simp only [Heap.newDict, Heap.dict, Array.getD_eq_getD_getElem?, Array.getElem?_push]
    split
    · rename_i hr
      simp only [hr, Array.getElem?_eq_none (Nat.le_refl _)]
      rfl
    · rfl

/-- A change of a list that leaves its counter. -/
theorem modifyList (h : Heap) (r : ListRef) {f : ListObj → ListObj}
    (hf : ∀ l, (f l).iterating = l.iterating) : h.SameLocks (h.modifyList r f) where
  lists_le := by simp [Heap.modifyList]
  dicts_le := Nat.le_refl _
  list s := by
    simp only [Heap.modifyList, Heap.list, Array.getD_eq_getD_getElem?, Array.getElem?_modify]
    split
    · cases h.lists[s.index]? with
      | none => rfl
      | some l => exact hf l
    · rfl
  dict _ := rfl

/-- A change of a dict that leaves its counter. -/
theorem modifyDict (h : Heap) (r : DictRef) {f : DictObj → DictObj}
    (hf : ∀ d, (f d).iterating = d.iterating) : h.SameLocks (h.modifyDict r f) where
  lists_le := Nat.le_refl _
  dicts_le := by simp [Heap.modifyDict]
  list _ := rfl
  dict s := by
    simp only [Heap.modifyDict, Heap.dict, Array.getD_eq_getD_getElem?, Array.getElem?_modify]
    split
    · cases h.dicts[s.index]? with
      | none => rfl
      | some d => exact hf d
    · rfl

theorem of_change (hc : h.Change h') : h.SameLocks h' := by
  cases hc with
  | newList elems => exact .newList h elems
  | newDict => exact .newDict h #[]
  | newBuiltin op receiver => exact .of_eq rfl rfl
  | setList r f _ _ => exact .modifyList h r fun _ => rfl
  | insert r v _ _ _ => exact .modifyDict h r fun d => d.iterating_insert _ v

theorem of_evolves (he : h.Evolves h') : h.SameLocks h' := by
  induction he with
  | refl => exact .refl h
  | tail _ hc ih => exact ih.trans (.of_change hc)

theorem freezeNode (h : Heap) (n : Node) : h.SameLocks (h.freezeNode n) := by
  cases n with
  | list r => exact .modifyList h r fun _ => rfl
  | dict r => exact .modifyDict h r fun _ => rfl
  | cell r => exact .of_eq rfl rfl
  | func r => exact .refl h
  | builtin r => exact .refl h

theorem freeze (h : Heap) (v : Value) : h.SameLocks (h.freeze v) :=
  Heap.rel_freeze .refl .trans freezeNode h v

theorem freezeModule (h : Heap) (r : ModuleRef) : h.SameLocks (h.freezeModule r) :=
  Heap.rel_freezeModule .refl .trans freezeNode h r

end Heap.SameLocks

/-! ## Live iterators -/

/-- An iterator runs over a list. -/
def Iter.isOverList (r : ListRef) : Iter → Bool
  | .list s _ => s == r
  | _ => false

/-- An iterator runs over a dict. -/
def Iter.isOverDict (r : DictRef) : Iter → Bool
  | .dict s _ => s == r
  | _ => false

/-- The object that an iterator runs over exists. -/
def Iter.IsIn (h : Heap) : Iter → Prop
  | .list r _ => r.index < h.lists.size
  | .dict r _ => r.index < h.dicts.size
  | .tuple _ => True

/-- Each list and dict counts the live iterators that run over it. -/
structure Heap.Counts (h : Heap) (live : List Iter) : Prop where
  list : ∀ r, (h.list r).iterating = live.countP (Iter.isOverList r)
  dict : ∀ r, (h.dict r).iterating = live.countP (Iter.isOverDict r)
  isIn : ∀ it ∈ live, it.IsIn h

theorem Iter.IsIn.mono {h h' : Heap} {it : Iter} (hit : it.IsIn h)
    (hl : h.lists.size ≤ h'.lists.size) (hd : h.dicts.size ≤ h'.dicts.size) : it.IsIn h' := by
  cases it with
  | list r i => exact Nat.lt_of_lt_of_le hit hl
  | dict r i => exact Nat.lt_of_lt_of_le hit hd
  | tuple rest => trivial

theorem Heap.openIter_eq_none {h h' : Heap} {v : Value} (ho : h.openIter v = (none, h')) :
    h' = h := by
  unfold openIter at ho
  split at ho
  all_goals first
    | (split at ho <;> cases ho)
    | (cases ho; rfl)
    | cases ho

namespace Heap.Counts

variable {h h' : Heap} {live live' : List Iter} {it it' : Iter}

theorem sameLocks (hc : h.Counts live) (hs : h.SameLocks h') : h'.Counts live where
  list r := (hs.list r).trans (hc.list r)
  dict r := (hs.dict r).trans (hc.dict r)
  isIn it hit := (hc.isIn it hit).mono hs.lists_le hs.dicts_le

theorem perm (hc : h.Counts live) (hp : live.Perm live') : h.Counts live' where
  list r := (hc.list r).trans (hp.countP_eq _)
  dict r := (hc.dict r).trans (hp.countP_eq _)
  isIn it hit := hc.isIn it (hp.mem_iff.2 hit)

/-- An iterator that is opened is counted. -/
theorem openIter (hc : h.Counts live) {v : Value} (ho : h.openIter v = (some it, h')) :
    h'.Counts (it :: live) := by
  -- an iterator over a tuple, or over an object that is not there, is over no list and no
  -- dictionary
  have htuple : ∀ rest, h.Counts (.tuple rest :: live) := by
    intro rest
    refine ⟨fun r => ?_, fun r => ?_, ?_⟩
    · rw [hc.list r, List.countP_cons_of_neg (by simp [Iter.isOverList])]
    · rw [hc.dict r, List.countP_cons_of_neg (by simp [Iter.isOverDict])]
    · exact List.forall_mem_cons.2 ⟨trivial, hc.isIn⟩
  cases v with
  | list r =>
    by_cases hr : r.index < h.lists.size
    · simp only [Heap.openIter, if_pos hr, Prod.mk.injEq, Option.some.injEq] at ho
      obtain ⟨rfl, rfl⟩ := ho
      have hsize : (h.lockList r).lists.size = h.lists.size := by simp [lockList, modifyList]
      refine ⟨fun s => ?_, fun s => ?_, ?_⟩
      · by_cases hs : s = r
        · subst hs
          rw [lockList, h.list_modifyList_self _ hr, List.countP_cons_of_pos
            (by simp [Iter.isOverList]), hc.list s]
        · rw [lockList, h.list_modifyList_of_ne _ hs, hc.list s,
            List.countP_cons_of_neg (by simpa [Iter.isOverList] using Ne.symm hs)]
      · exact (hc.dict s).trans (List.countP_cons_of_neg (by simp [Iter.isOverDict])).symm
      · refine List.forall_mem_cons.2 ⟨Nat.lt_of_lt_of_eq hr hsize.symm, fun it hit => ?_⟩
        exact (hc.isIn it hit).mono (Nat.le_of_eq hsize.symm) (Nat.le_refl _)
    · simp only [Heap.openIter, if_neg hr, Prod.mk.injEq, Option.some.injEq] at ho
      obtain ⟨rfl, rfl⟩ := ho
      exact htuple []
  | dict r =>
    by_cases hr : r.index < h.dicts.size
    · simp only [Heap.openIter, if_pos hr, Prod.mk.injEq, Option.some.injEq] at ho
      obtain ⟨rfl, rfl⟩ := ho
      have hsize : (h.lockDict r).dicts.size = h.dicts.size := by simp [lockDict, modifyDict]
      refine ⟨fun s => ?_, fun s => ?_, ?_⟩
      · exact (hc.list s).trans (List.countP_cons_of_neg (by simp [Iter.isOverList])).symm
      · by_cases hs : s = r
        · subst hs
          rw [lockDict, h.dict_modifyDict_self _ hr, List.countP_cons_of_pos
            (by simp [Iter.isOverDict]), hc.dict s]
        · rw [lockDict, h.dict_modifyDict_of_ne _ hs, hc.dict s,
            List.countP_cons_of_neg (by simpa [Iter.isOverDict] using Ne.symm hs)]
      · refine List.forall_mem_cons.2 ⟨Nat.lt_of_lt_of_eq hr hsize.symm, fun it hit => ?_⟩
        exact (hc.isIn it hit).mono (Nat.le_refl _) (Nat.le_of_eq hsize.symm)
    · simp only [Heap.openIter, if_neg hr, Prod.mk.injEq, Option.some.injEq] at ho
      obtain ⟨rfl, rfl⟩ := ho
      exact htuple []
  | tuple elems =>
    cases ho
    exact htuple elems
  | _ => cases ho

/-- An iterator keeps running over the same object. -/
theorem advance (hc : h.Counts (it :: live)) {v : Value} (hn : h.nextElem? it = some (v, it')) :
    h.Counts (it' :: live) := by
  -- advancing an iterator leaves what it is over as it was
  have hsame : (∀ r, it'.isOverList r = it.isOverList r) ∧
      (∀ r, it'.isOverDict r = it.isOverDict r) ∧
      (it.IsIn h → it'.IsIn h) := by
    cases it with
    | list r i =>
      obtain ⟨e, -, he⟩ := Option.map_eq_some_iff.1 hn
      cases he
      exact ⟨fun _ => rfl, fun _ => rfl, fun hr => hr⟩
    | dict r i =>
      obtain ⟨e, -, he⟩ := Option.map_eq_some_iff.1 hn
      cases he
      exact ⟨fun _ => rfl, fun _ => rfl, fun hr => hr⟩
    | tuple rest =>
      cases rest with
      | nil => cases hn
      | cons x rest =>
        cases hn
        exact ⟨fun _ => rfl, fun _ => rfl, fun hr => hr⟩
  obtain ⟨hl, hd, hin⟩ := hsame
  refine ⟨fun r => ?_, fun r => ?_, ?_⟩
  · rw [hc.list r, List.countP_cons, List.countP_cons, hl]
  · rw [hc.dict r, List.countP_cons, List.countP_cons, hd]
  · obtain ⟨h1, h2⟩ := List.forall_mem_cons.1 hc.isIn
    exact List.forall_mem_cons.2 ⟨hin h1, h2⟩

/-- An iterator that is closed is no longer counted. -/
theorem closeIter (hc : h.Counts (it :: live)) : (h.closeIter it).Counts live := by
  obtain ⟨hit, hlive⟩ := List.forall_mem_cons.1 hc.isIn
  -- the iterator stands first among those counted, so the counter that goes down is above zero
  cases it with
  | list r i =>
    have hr : r.index < h.lists.size := hit
    have hsize : (h.unlockList r).lists.size = h.lists.size := by simp [unlockList, modifyList]
    refine ⟨fun s => ?_, fun s => ?_, fun it hit => ?_⟩
    · by_cases hs : s = r
      · subst hs
        rw [Heap.closeIter, unlockList, h.list_modifyList_self _ hr, hc.list s,
          List.countP_cons_of_pos (by simp [Iter.isOverList])]
        rfl
      · rw [Heap.closeIter, unlockList, h.list_modifyList_of_ne _ hs, hc.list s,
          List.countP_cons_of_neg (by simpa [Iter.isOverList] using Ne.symm hs)]
    · exact (hc.dict s).trans (List.countP_cons_of_neg (by simp [Iter.isOverDict]))
    · exact (hlive it hit).mono (Nat.le_of_eq hsize.symm) (Nat.le_refl _)
  | dict r i =>
    have hr : r.index < h.dicts.size := hit
    have hsize : (h.unlockDict r).dicts.size = h.dicts.size := by simp [unlockDict, modifyDict]
    refine ⟨fun s => ?_, fun s => ?_, fun it hit => ?_⟩
    · exact (hc.list s).trans (List.countP_cons_of_neg (by simp [Iter.isOverList]))
    · by_cases hs : s = r
      · subst hs
        rw [Heap.closeIter, unlockDict, h.dict_modifyDict_self _ hr, hc.dict s,
          List.countP_cons_of_pos (by simp [Iter.isOverDict])]
        rfl
      · rw [Heap.closeIter, unlockDict, h.dict_modifyDict_of_ne _ hs, hc.dict s,
          List.countP_cons_of_neg (by simpa [Iter.isOverDict] using Ne.symm hs)]
    · exact (hlive it hit).mono (Nat.le_refl _) (Nat.le_of_eq hsize.symm)
  | tuple rest =>
    refine ⟨fun s => ?_, fun s => ?_, hlive⟩
    · exact (hc.list s).trans (List.countP_cons_of_neg (by simp [Iter.isOverList]))
    · exact (hc.dict s).trans (List.countP_cons_of_neg (by simp [Iter.isOverDict]))

theorem closeAll {its : List Iter} (hc : h.Counts (its ++ live)) :
    (its.foldl Heap.closeIter h).Counts live := by
  induction its generalizing h with
  | nil => exact hc
  | cons it its ih => exact ih hc.closeIter

/-- The counters are determined by the live iterators. -/
theorem iterating_eq {h h' : Heap} (hc : h.Counts live) (hc' : h'.Counts live) :
    (∀ r, (h'.list r).iterating = (h.list r).iterating) ∧
      ∀ r, (h'.dict r).iterating = (h.dict r).iterating :=
  ⟨fun r => (hc'.list r).trans (hc.list r).symm, fun r => (hc'.dict r).trans (hc.dict r).symm⟩

end Heap.Counts

end Starlark
