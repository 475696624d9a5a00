import Mathlib.Order.WellFounded
import Starlark.Proofs.Machine.Permanence

/-!
# What functions and builtins are made of

A function is made with its defaults and its cells, and a builtin with its receiver, and neither is
changed afterwards. So a way that leads from one to the next comes to a list, a dict, a cell or an
end (`Heap.Grounded`): objects hold themselves through lists, dicts and cells only. That is so of
every heap that is worked on from the empty one (`Heap.grounded_of_works`).
-/

set_option autoImplicit false

namespace Starlark

open Relation (ReflTransGen)

/-! ## Operations that leave functions and builtins -/

/-- An operation makes neither functions nor builtins. -/
def Op.Spares {α : Type} (m : Op α) : Prop :=
  ∀ h, match m h with
    | .ok _ h' | .error _ h' => h'.funcs = h.funcs ∧ h'.builtins = h.builtins

namespace Op

namespace Spares

variable {α β : Type}

theorem pure (a : α) : Spares (pure a : Op α) := fun _ => ⟨rfl, rfl⟩

theorem fail (e : Error) : Spares (Op.fail e : Op α) := fun _ => ⟨rfl, rfl⟩

theorem read (f : Heap → α) : Spares (Op.read f) := fun _ => ⟨rfl, rfl⟩

theorem check (f : Heap → Except Error α) : Spares (Op.check f) := by
  intro h
  unfold Op.check
  cases f h with
  | ok a => exact ⟨rfl, rfl⟩
  | error e => exact ⟨rfl, rfl⟩

theorem modify {f : Heap → Heap} (hf : ∀ h, (f h).funcs = h.funcs ∧ (f h).builtins = h.builtins) :
    Spares (modify f : Op PUnit) := hf

theorem bind {m : Op α} {f : α → Op β} (hm : Spares m) (hf : ∀ a, Spares (f a)) :
    Spares (m >>= f) := by
  intro h
  have h1 := hm h
  simp only [Bind.bind, EStateM.bind]
  cases hmh : m h with
  | error e h' =>
    rw [hmh] at h1
    exact h1
  | ok a h' =>
    rw [hmh] at h1
    have h2 := hf a h'
    cases hfa : f a h' with
    | error e h'' =>
      simp only [hfa] at h2 ⊢
      exact ⟨h2.1.trans h1.1, h2.2.trans h1.2⟩
    | ok b h'' =>
      simp only [hfa] at h2 ⊢
      exact ⟨h2.1.trans h1.1, h2.2.trans h1.2⟩

end Spares

theorem spares_append (r : ListRef) (v : Value) : Spares (append r v) :=
  .bind (.check _) fun _ => .modify fun _ => ⟨rfl, rfl⟩

theorem spares_extend (r : ListRef) (v : Value) : Spares (extend r v) := by
  have hdrain : Spares (drain v) := by
    intro h
    rw [drain_eq]
    exact ⟨rfl, rfl⟩
  apply Spares.bind (.check _)
  intro _
  apply hdrain.bind
  intro items
  cases items with
  | none => exact .fail _
  | some items => exact .modify fun _ => ⟨rfl, rfl⟩

theorem spares_insert (r : DictRef) (k v : Value) : Spares (insert r k v) :=
  .bind (.check _) fun _ => .bind (.check _) fun _ => .bind (.read _) fun isNew =>
    .bind (.modify fun _ => ⟨rfl, rfl⟩) fun _ => .pure isNew

theorem spares_insertAll (r : DictRef) (es : List (Value × Value)) : Spares (insertAll r es) := by
  induction es with
  | nil => exact .pure ()
  | cons e es ih => exact (spares_insert r e.1 e.2).bind fun _ => ih

theorem spares_update (r other : DictRef) : Spares (update r other) :=
  .bind (.check _) fun _ => .bind (.read _) fun es => spares_insertAll r es

theorem spares_setIndex (x y z : Value) : Spares (setIndex x y z) := by
  unfold setIndex
  split
  · exact .bind (.check _) fun _ => .bind (.check _) fun _ => .modify fun _ => ⟨rfl, rfl⟩
  · exact (spares_insert _ y z).bind fun _ => .pure ()
  · exact .fail _

end Op

theorem Operation.spares_after (o : Operation) (ho : o.run.Spares) (h : Heap) :
    (o.after h).funcs = h.funcs ∧ (o.after h).builtins = h.builtins := by
  have hrun := ho h
  unfold after
  split <;> rename_i heq <;> rw [heq] at hrun <;> exact hrun

/-! ## Grounded heaps -/

namespace Heap

variable {h h' : Heap}

/-- Functions and builtins are made of what was there before: no way from one of them, through
functions and builtins only, goes on for ever. -/
def Grounded (h : Heap) : Prop :=
  WellFounded fun n m => m.isMutable = false ∧ n ∈ h.children m

theorem isFixed_of_immutable {n : Node} (hmut : n.isMutable = false) : h.isFixed n = true := by
  cases n with
  | func r => rfl
  | builtin r => rfl
  | _ => cases hmut

/-- A heap stays grounded if new functions and builtins are made of objects that were there. -/
theorem Grounded.of_made (hg : h.Grounded) (hc : h.Closed) (hf : h.Frames h')
    (hnew : ∀ n, n.isMutable = false → ¬h.Has n → ∀ c ∈ h'.children n, h.Has c) : h'.Grounded := by
  -- objects that were there lead to such objects only
  have hold : ∀ n, h.Has n → Acc (fun n m => m.isMutable = false ∧ n ∈ h'.children m) n := by
    intro n
    induction n using hg.induction with
    | _ n ih =>
      intro hn
      constructor
      rintro c ⟨hmut, hchild⟩
      have hsame : h.SameContents h' n := by
        apply hf.contents n hn (isFixed_of_immutable hmut)
        rintro r rfl
        cases hmut
      rw [hsame.children_eq] at hchild
      exact ih c ⟨hmut, hchild⟩ (hc n c hchild)
  constructor
  intro n
  by_cases hn : h.Has n
  · exact hold n hn
  · constructor
    rintro c ⟨hmut, hchild⟩
    exact hold c (hnew n hmut hn c hchild)

theorem Grounded.of_children (hg : h.Grounded)
    (hsame : ∀ n, n.isMutable = false → h'.children n = h.children n) : h'.Grounded := by
  apply Subrelation.wf ?_ hg
  rintro n m ⟨hmut, hchild⟩
  exact ⟨hmut, hsame m hmut ▸ hchild⟩

theorem Grounded.of_tables (hg : h.Grounded)
    (hsame : h'.funcs = h.funcs ∧ h'.builtins = h.builtins) : h'.Grounded := by
  apply hg.of_children
  intro n hmut
  cases n with
  | func r => simp only [children, func, hsame.1]
  | builtin r => simp only [children, builtin, hsame.2]
  | _ => cases hmut

theorem tables_openIter (h : Heap) (v : Value) :
    (h.openIter v).2.funcs = h.funcs ∧ (h.openIter v).2.builtins = h.builtins := by
  cases v with
  | list r =>
    rw [openIter]
    split <;> exact ⟨rfl, rfl⟩
  | dict r =>
    rw [openIter]
    split <;> exact ⟨rfl, rfl⟩
  | _ => exact ⟨rfl, rfl⟩

theorem tables_closeIter (h : Heap) (it : Iter) :
    (h.closeIter it).funcs = h.funcs ∧ (h.closeIter it).builtins = h.builtins := by
  cases it <;> exact ⟨rfl, rfl⟩

theorem Grounded.newFunc (hg : h.Grounded) (hc : h.Closed) {f : FuncObj}
    (hf : ∀ v ∈ f.defaults.toList ++ f.freeVars.toList, h.Holds v) : (h.newFunc f).2.Grounded := by
  apply hg.of_made hc (Frames.newFunc h f)
  intro n hmut hn c hchild
  cases n with
  | func s =>
    simp only [children, Heap.newFunc, Heap.func, Array.getD_eq_getD_getElem?,
      Array.getElem?_push] at hchild
    split at hchild
    · rcases List.mem_append.1 hchild with hchild | hchild
      all_goals obtain ⟨v, hv, hmem⟩ := Value.mem_nodesOfList.1 hchild
      · exact hf v (List.mem_append_left _ hv) c hmem
      · exact hf v (List.mem_append_right _ hv) c hmem
    · apply hc (.func s) c
      simpa only [children, Heap.func, Array.getD_eq_getD_getElem?] using hchild
  | builtin s => exact hc (.builtin s) c hchild
  | _ => cases hmut

theorem Grounded.newBuiltin (hg : h.Grounded) (hc : h.Closed) (op : BuiltinOp)
    {receiver : Option Value}
    (hv : ∀ v ∈ receiver, h.Holds v) : (h.newBuiltin op receiver).2.Grounded := by
  apply hg.of_made hc (Frames.newBuiltin h op receiver)
  intro n hmut hn c hchild
  cases n with
  | func s => exact hc (.func s) c hchild
  | builtin s =>
    simp only [children, Heap.newBuiltin, Heap.builtin, Array.getD_eq_getD_getElem?,
      Array.getElem?_push] at hchild
    split at hchild
    · cases receiver with
      | none => cases hchild
      | some v => exact hv v rfl c hchild
    · apply hc (.builtin s) c
      simpa only [children, Heap.builtin, Array.getD_eq_getD_getElem?] using hchild
  | _ => cases hmut

theorem Works.grounded (hw : h.Works h') (hc : h.Closed) (hg : h.Grounded) : h'.Grounded := by
  -- what is done for its effect gives nothing
  have hafter : ∀ {α : Type} {m : Op α} (f : α → Value), m.Spares → ∀ o : Operation,
      o.run = (do return f (← m)) → (o.after h).Grounded := fun f hm o ho =>
    hg.of_tables (o.spares_after (ho ▸ hm.bind fun _ => .pure _) h)
  cases hw with
  | append r hv => exact hafter (fun _ => .null) (Op.spares_append r _) (.append r _) rfl
  | extend r hv => exact hafter (fun _ => .null) (Op.spares_extend r _) (.extend r _) rfl
  | setIndex x hy hz =>
    exact hafter (fun _ => .null) (Op.spares_setIndex x _ _) (.setIndex x _ _) rfl
  | insert r hk hv => exact hafter .bool (Op.spares_insert r _ _) (.insert r _ _) rfl
  | update r other => exact hafter (fun _ => .null) (Op.spares_update r other) (.update r other) rfl
  | openIter v => exact hg.of_tables (tables_openIter h v)
  | closeIter it => exact hg.of_tables (tables_closeIter h it)
  | freeze hv => exact hg.of_children fun n _ => (Hardens.freeze h _).children n
  | newFunc hf => exact hg.newFunc hc hf
  | newBuiltin op hv => exact hg.newBuiltin hc op hv
  | _ => exact hg.of_tables ⟨rfl, rfl⟩

/-- Whatever is done with the empty heap and with values in it, the heap is closed and grounded. -/
theorem grounded_of_works (hw : ReflTransGen Works {} h) : h.Closed ∧ h.Grounded := by
  induction hw with
  | refl =>
    have hempty : ∀ m, ({} : Heap).children m = [] := by
      intro m
      cases m <;> rfl
    constructor
    · intro m n hn
      rw [hempty] at hn
      cases hn
    · constructor
      intro n
      constructor
      rintro c ⟨-, hchild⟩
      rw [hempty] at hchild
      cases hchild
  | tail _ hw ih => exact ⟨hw.closed ih.1, hw.grounded ih.1 ih.2⟩

end Heap

end Starlark
