import Starlark.Proofs.Machine.Distinctness
import Starlark.Proofs.Operation.InPlace

/-!
# Changes that fail

Whatever changes a list or a dict checks everything before it writes. So when it fails the heap is
as it was before, its flags and counters included (`Session.Reachable.changing_atomic`). What
inserts several entries checks only the dict: that the keys can be keys was checked when they became
keys of another dict (`Heap.HasMaps`).
-/

set_option autoImplicit false

namespace Starlark

/-- If an operation fails on a heap, then it leaves the heap as it is. -/
def Op.Atomic {α : Type} (m : Op α) (h : Heap) : Prop :=
  ∀ ⦃e : Stop⦄ ⦃h' : Heap⦄, m h = .error e h' → h' = h

namespace Op

variable {α β : Type} {h : Heap}

/-! ## Checks, and a change after them -/

theorem Leaves.atomic {m : Op α} (hm : m.Leaves h) : m.Atomic h := by
  intro e h' hrun
  rw [Leaves, hrun] at hm
  exact hm

theorem Atomic.of_ok {m : Op α} {a : α} {h' : Heap} (hrun : m h = .ok a h') : m.Atomic h := by
  intro e h₁ hfail
  rw [hrun] at hfail
  cases hfail

theorem atomic_modify (f : Heap → Heap) : Atomic (modify f : Op Unit) h := by
  have hrun : (modify f : Op Unit) h = .ok () (f h) := rfl
  exact .of_ok hrun

theorem atomic_fail (e : Error) : Atomic (fail e : Op α) h := by
  intro e' h' hrun
  cases hrun
  rfl

/-- What comes after an operation without effects sees the heap that was there before. -/
theorem Leaves.bind {m : Op α} (hm : m.Leaves h) {k : α → Op β} (hk : ∀ a, (k a).Atomic h) :
    Atomic (m >>= k) h := by
  intro e h' hrun
  unfold Leaves at hm
  cases hfirst : m h with
  | error e₁ h₁ =>
    rw [hfirst] at hm
    rw [bind_of_error hfirst] at hrun
    cases hrun
    exact hm
  | ok a h₁ =>
    rw [hfirst] at hm
    rw [bind_of_ok hfirst, hm] at hrun
    exact hk a hrun

theorem Atomic.map {m : Op α} (hm : m.Atomic h) (f : α → β) : Atomic (do return f (← m)) h := by
  intro e h' hrun
  cases hfirst : m h with
  | error e₁ h₁ =>
    rw [bind_of_error hfirst] at hrun
    cases hrun
    exact hm hfirst
  | ok a h₁ =>
    rw [bind_of_ok hfirst] at hrun
    cases hrun

theorem leaves_read (f : Heap → α) : Leaves (read f) h := rfl

theorem leaves_pop2 (stack : List Value) : (pop2 stack).Leaves h := by
  unfold pop2
  split
  · rfl
  · rfl

/-! ## The operations -/

theorem atomic_append (r : ListRef) (v : Value) : (append r v).Atomic h :=
  (leaves_check _ h).bind fun _ => atomic_modify _

theorem atomic_extend (r : ListRef) (iterable : Value) : (extend r iterable).Atomic h := by
  have hdrain : (drain iterable).Leaves h := by
    rw [Leaves, drain_eq]
  refine (leaves_check _ h).bind fun _ => hdrain.bind fun items => ?_
  cases items with
  | none => exact atomic_fail _
  | some items => exact atomic_modify _

theorem atomic_insert (r : DictRef) (k v : Value) : (insert r k v).Atomic h := by
  refine (leaves_check _ h).bind fun _ => (leaves_check _ h).bind fun _ => ?_
  exact (leaves_read _).bind fun _ => (atomic_modify _).map fun _ => _

theorem atomic_setIndex (x y z : Value) : (setIndex x y z).Atomic h := by
  unfold setIndex
  split
  · exact (leaves_check _ h).bind fun _ => (leaves_check _ h).bind fun _ => atomic_modify _
  · exact (atomic_insert _ y z).map _
  · exact atomic_fail _

theorem atomic_update (r : DictRef) {other : DictRef} (hother : (h.dict other).IsMap) :
    (update r other).Atomic h := by
  intro e h' hrun
  rw [update_eq hother] at hrun
  split at hrun
  · cases hrun
  · cases hrun
    rfl

theorem atomic_inplaceAdd (x y : Value) : (inplaceAdd x y).Atomic h := by
  by_cases hxy : (∃ r, x = .list r) ∧ y.isIterable = true
  · obtain ⟨⟨r, rfl⟩, hy⟩ := hxy
    rw [inplaceAdd, if_pos hy]
    exact (leaves_check _ h).bind fun _ => (atomic_extend r y).map fun _ => _
  · obtain ⟨hsame, hleaves⟩ := inplaceAdd_eq_plus (h := h) hxy
    rw [hsame]
    exact hleaves.atomic

theorem atomic_inplacePipe (hm : h.HasMaps) (x y : Value) : (inplacePipe x y).Atomic h := by
  by_cases hxy : (∃ r, x = .dict r) ∧ ∃ s, y = .dict s
  · obtain ⟨⟨r, rfl⟩, ⟨s, rfl⟩⟩ := hxy
    exact (atomic_update r (hm s)).map fun _ => _
  · obtain ⟨hsame, hleaves⟩ := inplacePipe_eq_pipe (h := h) hxy
    rw [hsame]
    exact hleaves.atomic

end Op

/-! ## The instructions -/

namespace Activation

variable {h : Heap} (t : Tables) (arg : UInt32) (a : Activation)

theorem atomic_execute_inplaceAdd : (execute t .inplaceAdd arg a).Atomic h :=
  (Op.leaves_pop2 a.stack).bind fun (y, x, _) =>
    (Op.atomic_inplaceAdd x y).map _

theorem atomic_execute_inplacePipe (hm : h.HasMaps) : (execute t .inplacePipe arg a).Atomic h :=
  (Op.leaves_pop2 a.stack).bind fun (y, x, _) =>
    (Op.atomic_inplacePipe hm x y).map _

end Activation

/-! ## Sessions -/

/-- The operations that change a list or a dict. -/
def Operation.changing : Operation → Bool
  | .append .. | .extend .. | .setIndex .. | .insert .. | .update .. | .inplaceAdd
      .. | .inplacePipe .. => true
  | _ => false

theorem Operation.atomic_run {h : Heap} (hm : h.HasMaps) {o : Operation} (ho : o.changing = true) :
    o.run.Atomic h := by
  cases o with
  | append r v => exact (Op.atomic_append r v).map _
  | extend r iterable => exact (Op.atomic_extend r iterable).map _
  | setIndex x y z => exact (Op.atomic_setIndex x y z).map _
  | insert r k v => exact (Op.atomic_insert r k v).map _
  | update r other => exact (Op.atomic_update r (hm other)).map _
  | inplaceAdd x y => exact Op.atomic_inplaceAdd x y
  | inplacePipe x y => exact Op.atomic_inplacePipe hm x y
  | _ => cases ho

namespace Session

variable {P : HostPolicy}

/-- In every session that can come about, an operation that should change a list or a dict and fails
has changed nothing, and so have the instructions that change their operand in place. Updating a
dict inserts all entries of the other dict, or fails. -/
theorem Reachable.changing_atomic {s : Session} (hs : s.Reachable P) :
    (∀ o : Operation, o.changing = true → ∀ e h', o.run s.machine.heap = .error e h' →
      h' = s.machine.heap) ∧
    (∀ op t arg a, op = Opcode.inplaceAdd ∨ op = Opcode.inplacePipe →
      ∀ e h', Activation.execute t op arg a s.machine.heap = .error e h' → h' = s.machine.heap) ∧
    ∀ r other,
      Op.update r other s.machine.heap = .ok () (s.machine.heap.modifyDict r fun d =>
        d.insertMany (s.machine.heap.dict other).entries.toList) ∨
      ∃ e, Op.update r other s.machine.heap = .error e s.machine.heap := by
  refine ⟨fun o ho e h' => (o.atomic_run hs.hasMaps ho ·), ?_, ?_⟩
  · rintro op t arg a (rfl | rfl) e h' hrun
    · exact Activation.atomic_execute_inplaceAdd t arg a hrun
    · exact Activation.atomic_execute_inplacePipe t arg a hs.hasMaps hrun
  · intro r other
    rw [Op.update_eq (hs.hasMaps other)]
    cases (s.machine.heap.dict r).checkMutable "apply |= to" with
    | ok _ => exact .inl rfl
    | error e => exact .inr ⟨_, rfl⟩

/-- A host with a list and a dict. -/
def twoObjects : Session :=
  { Session.initial with
    machine := { Session.initial.machine with
      heap := Operation.newDict.after ((Operation.newList [.int 1]).after Heap.initial) } }

theorem reachable_twoObjects : twoObjects.Reachable .free :=
  .tail (.single (.act rfl trivial (.operate (.newList [.int 1]) _ _)))
    (.act rfl trivial (.operate .newDict _ _))

theorem changing_atomic_twoObjects : twoObjects.Reachable .free ∧
    ∃ e h', (Operation.insert ⟨0⟩ (.list ⟨0⟩) (.int 2)).run twoObjects.machine.heap = .error e h' ∧
      h' = twoObjects.machine.heap := by
  have hrun : (Operation.insert ⟨0⟩ (.list ⟨0⟩) (.int 2)).run twoObjects.machine.heap =
    .error (.error (.fault (.unhashable .list))) twoObjects.machine.heap := rfl
  obtain ⟨hfails, -⟩ := reachable_twoObjects.changing_atomic
  exact ⟨reachable_twoObjects, _, _, hrun, hfails _ rfl _ _ hrun⟩

end Session

end Starlark
