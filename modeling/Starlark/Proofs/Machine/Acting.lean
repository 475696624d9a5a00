import Starlark.Proofs.Machine.Locks
import Starlark.Proofs.Operation.Visibility

/-!
# What hosts do

A host does the same acts in its functions and between its calls. `HostAct.Performs` lists what each
act can do to the heap and to the iterators that the host holds, so that what holds across every act
is proved by cases on it. Acts leave the counters of lists and dicts right
(`HostAct.Performs.counts`). The functions of the small host make few kinds of moves
(`HostCode.isSmall_ofLibrary`).
-/

set_option autoImplicit false

namespace Starlark

/-! ## Operations -/

namespace Operation

theorem regular_run (o : Operation) : Op.Regular o.run := by
  have hnull : ∀ {m : Op Unit}, Op.Regular m → Op.Regular (do m; return Value.null) :=
    fun hm => hm.bind fun _ => .pure _
  cases o with
  | newList elems => exact .make fun h => .newList _
  | newDict => exact (Op.Regular.make fun h => .newDict).bind fun _ => .pure _
  | newBuiltin op receiver => exact .make fun h => .newBuiltin op receiver
  | append r v => exact hnull (Op.regular_append r v)
  | extend r iterable => exact hnull (Op.regular_extend r iterable)
  | setIndex x y z => exact hnull (Op.regular_setIndex x y z)
  | insert r k v => exact (Op.regular_insert r k v).bind fun _ => .pure _
  | update r other => exact hnull (Op.regular_update r other)
  | inplaceAdd x y => exact Op.regular_inplaceAdd x y
  | inplacePipe x y => exact Op.regular_inplacePipe x y
  | binary op x y => exact Op.regular_binary op x y
  | slice x lo hi step => exact Op.regular_slice x lo hi step
  | attr x name => exact Op.regular_getAttr x name
  | setField x name => exact hnull (Op.regular_setField x name)
  | standard b args kwargs => exact Op.regular_callStandard b args kwargs

theorem after_of_ok {o : Operation} {h h' : Heap} {v : Value} (hrun : o.run h = .ok v h') :
    o.after h = h' := by
  rw [after, hrun]

theorem after_of_error {o : Operation} {h h' : Heap} {e : Stop} (hrun : o.run h = .error e h') :
    o.after h = h' := by
  rw [after, hrun]

theorem evolves_after (o : Operation) (h : Heap) : h.Evolves (o.after h) := by
  have hregular := o.regular_run
  cases hrun : o.run h with
  | ok v h' => exact after_of_ok hrun ▸ hregular.ok hrun
  | error e h' => exact after_of_error hrun ▸ (hregular.error hrun).1

end Operation

/-! ## Acts -/

/-- What an act does to the heap and to the iterators that a host holds. -/
inductive HostAct.Performs : HostAct → Holding → Holding → Prop where
  /-- Nothing happens. -/
  | idle (a : HostAct) (s : Holding) : Performs a s s
  | operate (o : Operation) (h : Heap) (held : List Iter) :
      Performs (.operate o) (h, held) (o.after h, held)
  | freeze (v : Value) (h : Heap) (held : List Iter) :
      Performs (.freeze v) (h, held) (h.freeze v, held)
  | freezeModule (r : ModuleRef) (h : Heap) (held : List Iter) :
      Performs (.freezeModule r) (h, held) (h.freezeModule r, held)
  | newCell (content : Option Value) (h : Heap) (held : List Iter) :
      Performs (.newCell content) (h, held) ((h.newCell content).2, held)
  | setCell (r : CellRef) (v : Value) (h : Heap) (held : List Iter) :
      Performs (.setCell r v) (h, held) (h.setCell r v, held)
  | newProgram (p : Program) (h : Heap) (held : List Iter) :
      Performs (.newProgram p) (h, held) ((h.newProgram p).2, held)
  | newModule {p : ProgramRef} (predeclared : Env) {h : Heap} (held : List Iter)
      (hp : p.index < h.programs.size) :
      Performs (.newModule p predeclared) (h, held) ((h.newModule p predeclared).2, held)
  | newFunc {f : FuncObj} {h : Heap} (held : List Iter) (hf : f.module.index < h.modules.size) :
      Performs (.newFunc f) (h, held) ((h.newFunc f).2, held)
  | openIter {v : Value} {h h' : Heap} (held : List Iter) {it : Iter}
      (ho : h.openIter v = (some it, h')) : Performs (.openIter v) (h, held) (h', it :: held)
  | advance {h : Heap} (before after : List Iter) {it it' : Iter} {x : Value}
      (hn : h.nextElem? it = some (x, it')) :
      Performs (.advance before.length) (h, before ++ it :: after) (h, before ++ it' :: after)
  | close (h : Heap) (before after : List Iter) (it : Iter) :
      Performs (.close before.length) (h, before ++ it :: after) (h.closeIter it, before ++ after)

/-- A member of a list, with what is before and behind it. -/
theorem exists_append_of_getElem? {α : Type} {l : List α} {i : Nat} {x : α} (hi : l[i]? = some x) :
    ∃ before after, l = before ++ x :: after ∧ before.length = i := by
  obtain ⟨hlt, rfl⟩ := List.getElem?_eq_some_iff.1 hi
  refine ⟨l.take i, l.drop (i + 1), ?_, List.length_take_of_le (Nat.le_of_lt hlt)⟩
  rw [List.getElem_cons_drop, List.take_append_drop]

namespace HostAct

theorem performs_advance {h : Heap} {held : List Iter} {i : Nat} {it it' : Iter} {x : Value}
    (hi : held[i]? = some it) (hn : h.nextElem? it = some (x, it')) :
    Performs (.advance i) (h, held) (h, held.set i it') := by
  obtain ⟨before, after, rfl, rfl⟩ := exists_append_of_getElem? hi
  have hset : (before ++ it :: after).set before.length it' = before ++ it' :: after := by simp
  exact hset ▸ .advance before after hn

theorem performs_close {h : Heap} {held : List Iter} {i : Nat} {it : Iter}
    (hi : held[i]? = some it) :
    Performs (.close i) (h, held) (h.closeIter it, held.eraseIdx i) := by
  obtain ⟨before, after, rfl, rfl⟩ := exists_append_of_getElem? hi
  have herase : (before ++ it :: after).eraseIdx before.length = before ++ after := by
    simp [List.eraseIdx_append_of_length_le]
  exact herase ▸ .close h before after it

/-- An act does what is listed, and an error that it ends with is none of the code and has left no
call. -/
theorem performs_perform (a : HostAct) (s : Holding) :
    match a.perform s with
    | .ok _ s' => a.Performs s s'
    | .error e s' => a.Performs s s' ∧ e.isOrdinary := by
  obtain ⟨h, held⟩ := s
  cases a with
  | operate o =>
    have hregular := o.regular_run
    simp only [perform]
    cases hrun : o.run h with
    | ok v h' => exact Operation.after_of_ok hrun ▸ .operate o h held
    | error e h' =>
      exact ⟨Operation.after_of_error hrun ▸ .operate o h held, (hregular.error hrun).2⟩
  | freeze v => exact .freeze v h held
  | freezeModule r => exact .freezeModule r h held
  | newCell content => exact .newCell content h held
  | setCell r v => exact .setCell r v h held
  | newProgram p => exact .newProgram p h held
  | newModule p predeclared =>
    by_cases hp : p.index < h.programs.size
    · simp only [perform, if_pos hp]
      exact .newModule predeclared held hp
    · simp only [perform, if_neg hp]
      exact .idle _ _
  | newFunc f =>
    by_cases hf : f.module.index < h.modules.size
    · simp only [perform, if_pos hf]
      exact .newFunc held hf
    · simp only [perform, if_neg hf]
      exact .idle _ _
  | openIter v =>
    simp only [perform]
    cases ho : h.openIter v with
    | mk found h' =>
      cases found with
      | some it => exact .openIter held ho
      -- what cannot be iterated leaves the heap as it was
      | none => exact Heap.openIter_eq_none ho ▸ .idle _ _
  | advance i =>
    simp only [perform]
    cases hi : held[i]? with
    | none => exact .idle _ _
    | some it =>
      dsimp only
      cases hn : h.nextElem? it with
      | none => exact .idle _ _
      | some next => exact performs_advance hi hn
  | close i =>
    simp only [perform]
    cases hi : held[i]? with
    | none => exact .idle _ _
    | some it => exact performs_close hi

theorem performs_of_ok {a : HostAct} {s s' : Holding} {v : Value} (hrun : a.perform s = .ok v s') :
    a.Performs s s' := by
  have hperforms := a.performs_perform s
  rwa [hrun] at hperforms

theorem performs_of_error {a : HostAct} {s s' : Holding} {e : Stop}
    (hrun : a.perform s = .error e s') :
    a.Performs s s' ∧ e.isOrdinary := by
  have hperforms := a.performs_perform s
  rwa [hrun] at hperforms

namespace Performs

variable {a : HostAct} {h h' : Heap} {held held' : List Iter}

/-- An act leaves other iterators alone. -/
theorem append (hp : a.Performs (h, held) (h', held')) (rest : List Iter) :
    a.Performs (h, held ++ rest) (h', held' ++ rest) := by
  cases hp with
  | idle => exact .idle ..
  | operate => exact .operate ..
  | freeze => exact .freeze ..
  | freezeModule => exact .freezeModule ..
  | newCell => exact .newCell ..
  | setCell => exact .setCell ..
  | newProgram => exact .newProgram ..
  | newModule _ _ hlt => exact .newModule _ _ hlt
  | newFunc _ hf => exact .newFunc _ hf
  | openIter _ ho => exact .openIter _ ho
  | advance _ _ hn =>
    simp only [List.append_assoc, List.cons_append]
    exact .advance _ _ hn
  | close =>
    simp only [List.append_assoc, List.cons_append]
    exact .close ..

/-- An act keeps the counters right. -/
theorem counts (hp : a.Performs (h, held) (h', held')) (hc : h.Counts held) : h'.Counts held' := by
  cases hp with
  | idle => exact hc
  | operate => exact hc.sameLocks (.of_evolves (Operation.evolves_after _ h))
  | freeze => exact hc.sameLocks (.freeze h _)
  | freezeModule => exact hc.sameLocks (.freezeModule h _)
  | newCell => exact hc.sameLocks (.of_eq rfl rfl)
  | setCell => exact hc.sameLocks (.of_eq rfl rfl)
  | newProgram => exact hc.sameLocks (.of_eq rfl rfl)
  | newModule => exact hc.sameLocks (.of_eq rfl rfl)
  | newFunc => exact hc.sameLocks (.of_eq rfl rfl)
  | openIter _ ho => exact hc.openIter ho
  | advance _ _ hn => exact ((hc.perm List.perm_middle).advance hn).perm List.perm_middle.symm
  | close => exact (hc.perm List.perm_middle).closeIter

end Performs

end HostAct

/-! ## The small host -/

/-- What a function of the small host does: it makes one move at most, and then it returns. -/
inductive HostMove.IsSmall (v : HostView) : HostMove → Prop where
  | cancels (reason : String) : v.log = [] → IsSmall v (.steer (.cancel reason))
  | freezes : v.log = [] → IsSmall v (.act (.freeze (.tuple v.args)))
  | calls {f : Value} {rest : List Value} : v.log = [] → v.args = f :: rest →
      IsSmall v (.call f rest v.kwargs)
  | gives {x : Value} : x.Visible → IsSmall v (.finish (.ok x))
  | fails (message : String) : IsSmall v (.finish (.error (.fault (.host message))))
  | handsOn {r : Except Error Value} : r ∈ v.log → IsSmall v (.finish r)
  | catches {r : Except Error Value} : r ∈ v.log → IsSmall v (.finish (HostCode.caught r))

namespace HostCode

theorem isSmall_callBack {v : HostView} {handOn : Except Error Value → Except Error Value}
    (hnone : (HostMove.finish (handOn (.error (.fault (.host "host_call: no function"))))).IsSmall
    v)
    (hhand : ∀ r ∈ v.log, (HostMove.finish (handOn r)).IsSmall v) :
    (callBack handOn v).IsSmall v := by
  unfold callBack
  split
  · rename_i hlog hargs
    exact .calls hlog hargs
  · exact hnone
  · rename_i r rest hlog
    exact hhand r (hlog ▸ List.mem_cons_self)

theorem visible_frameTuple (f : Option CallFrame) : (frameTuple f).Visible := by
  cases f with
  | none => trivial
  | some f => simp [frameTuple]

theorem isSmall_ofLibrary (i : Nat) (v : HostView) : (ofLibrary i v).IsSmall v := by
  have hmem : ∀ code ∈ library, (code v).IsSmall v := by
    intro code hcode
    simp only [library, List.mem_cons, List.not_mem_nil, or_false] at hcode
    -- in the order of the library; only the last two call anything back
    rcases hcode with rfl | rfl | rfl | rfl | rfl | rfl | rfl | rfl | rfl | rfl
    · unfold cancel
      split
      · rename_i hlog
        exact .cancels _ hlog
      · exact .gives trivial
    · exact .gives trivial
    · exact .gives trivial
    · exact .gives trivial
    · refine .gives ?_
      dsimp only
      split
      · trivial
      · trivial
    · refine .gives ?_
      dsimp only
      split
      · split
        · trivial
        · exact visible_frameTuple _
      · exact visible_frameTuple _
    · unfold freeze
      split
      · rename_i hlog
        exact .freezes hlog
      · exact .gives trivial
    · exact .fails _
    · exact isSmall_callBack (.fails _) fun r hr => .handsOn hr
    · exact isSmall_callBack (.gives (by simp)) fun r hr => .catches hr
  unfold ofLibrary
  rw [List.getD_eq_getElem?_getD]
  cases hcode : library[i]? with
  | none => exact .gives trivial
  | some code => exact hmem code (List.mem_of_getElem? hcode)

end HostCode

end Starlark
