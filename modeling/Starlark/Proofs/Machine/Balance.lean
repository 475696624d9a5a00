import Starlark.Proofs.Machine.Locks
import Starlark.Proofs.Machine.Transitions

/-!
# Balanced iteration locks

The live iterators are those of all active calls and those that the host holds between its calls. An
instruction keeps the counters right (`Activation.counts_execute`), and so does every step of the
machine (`Machine.balanced_step`) and thereby every run (`Machine.balanced_run`).
-/

set_option autoImplicit false

namespace Starlark

open Relation (ReflTransGen)

/-! ## Instructions -/

/-- A relation that holds across what instructions do to the heap, apart from new functions and
iterators. -/
class Heap.Tolerant (K : Heap → Heap → Prop) : Prop where
  refl : ∀ h, K h h
  trans : ∀ {h h' h''}, K h h' → K h' h'' → K h h''
  change : ∀ {h h' : Heap}, h.Change h' → K h h'
  setCell : ∀ (h : Heap) r v, K h (h.setCell r v)
  setGlobal : ∀ (h : Heap) r i v, K h (h.setGlobal r i v)

instance : Heap.Tolerant Heap.SameLocks where
  refl := .refl
  trans := .trans
  change := .of_change
  setCell _ _ _ := .of_eq rfl rfl
  setGlobal _ _ _ _ := .of_eq rfl rfl

/-- A tolerant relation holds across every evolution. -/
theorem Heap.Tolerant.evolves {K : Heap → Heap → Prop} [Heap.Tolerant K] {h h' : Heap}
    (he : h.Evolves h') : K h h' := by
  induction he with
  | refl => exact refl h
  | tail _ hc ih => exact trans ih (change hc)

/-- The heaps before and behind an operation are related, its result has a property, and its error
has not left a call. -/
def Op.Quiet {α : Type} (K : Heap → Heap → Prop) (Q : α → Prop) (m : Op α) : Prop :=
  ∀ h, match m h with
    | .ok a h' => K h h' ∧ Q a
    | .error e h' => K h h' ∧ e.isWrapped = false

namespace Op.Quiet

variable {α : Type} {K : Heap → Heap → Prop} {Q : α → Prop} {m : Op α} {h h' : Heap}

/-- A quiet operation that succeeds. -/
theorem ok (hm : Quiet K Q m) {a : α} (he : m h = .ok a h') : K h h' ∧ Q a := by
  have hmh := hm h
  rw [he] at hmh
  exact hmh

/-- A quiet operation that fails, with an error that has left no call. -/
theorem error (hm : Quiet K Q m) {e : Stop} (he : m h = .error e h') :
    K h h' ∧ e.isWrapped = false := by
  have hmh := hm h
  rw [he] at hmh
  exact hmh

end Op.Quiet

theorem Op.pop_bind {β : Type} (v : Value) (st : List Value) (f : Value × List Value → Op β) :
    (Op.pop (v :: st) >>= f) = f (v, st) := rfl

theorem Op.pop2_bind {β : Type} (y x : Value) (st : List Value)
    (f : Value × Value × List Value → Op β) : (Op.pop2 (y :: x :: st) >>= f) = f (y, x, st) := rfl

/-- What lies on the stack is taken off, the topmost value last. -/
theorem Op.popMany_append {n : Nat} {vs : List Value} (hn : vs.length = n) (st : List Value) :
    Op.popMany n (vs ++ st) = pure (vs.reverse, st) := by
  rw [popMany, ← hn, if_neg (by simp), List.take_left, List.drop_left]

theorem Op.popMany_bind {β : Type} {n : Nat} {vs : List Value} (hn : vs.length = n)
    (st : List Value)
    (f : List Value × List Value → Op β) : (Op.popMany n (vs ++ st) >>= f) =
    f (vs.reverse, st) := by
  rw [popMany_append hn, pure_bind]

/-- An entry that is there is read. -/
theorem Op.entry_bind {α β : Type} {table : Array α} {i : Nat} {x : α} (hi : table[i]? = some x)
    (f : α → Op β) : (Op.entry table i >>= f) = f x := by
  rw [entry, hi]
  rfl

theorem Op.declName_bind {β : Type} {decls : Array Decl} {i : Nat} (hi : i < decls.size)
    (f : String → Op β) : (Op.declName decls i >>= f) = f decls[i].name := by
  rw [declName, bind_assoc, entry_bind (Array.getElem?_eq_getElem hi), pure_bind]

/-- A slot with a cell gives the cell. -/
theorem Op.slotCell_bind {β : Type} {a : Activation} {i : Nat} {r : CellRef}
    (hi : a.locals[i]? = some (some (.cell r))) (f : CellRef → Op β) :
    (Op.slotCell a i >>= f) = f r := by
  rw [slotCell, slot, entry_bind hi]
  rfl

/-- The iterators of a function behind an instruction. -/
def Effect.iters (a : Activation) : Effect → List Iter
  | .proceed b | .call b _ _ _ | .load b _ _ => b.iters
  | .finish _ => a.iters

/-- An instruction goes on in the same function with the same iterators, or leaves it. -/
def Effect.Continues (a : Activation) : Effect → Prop
  | .proceed b | .call b _ _ _ | .load b _ _ => b.func = a.func ∧ b.iters = a.iters ∧ b.pc = a.pc
  | .finish _ => True

/-- The function that an instruction leaves or goes on with. -/
def Effect.Stays (f : FuncObj) : Effect → Prop
  | .proceed b | .call b _ _ _ | .load b _ _ => b.func = f
  | .finish _ => True

/-- What continues stays in the function. -/
theorem Effect.Continues.stays {a : Activation} {e : Effect} (h : e.Continues a) :
    e.Stays a.func := by
  cases e with
  | proceed b => exact h.1
  | call b f args kwargs => exact h.1
  | load b name count => exact h.1
  | finish v => trivial

/-- What continues has the iterators that it had. -/
theorem Effect.Continues.iters_eq {a : Activation} {e : Effect} (h : e.Continues a) :
    e.iters a = a.iters := by
  cases e with
  | proceed b => exact h.2.1
  | call b f args kwargs => exact h.2.1
  | load b name count => exact h.2.1
  | finish v => rfl

namespace Op

variable {K : Heap → Heap → Prop} [Heap.Tolerant K]

namespace Quiet

variable {α β : Type} {Q : α → Prop} {P : β → Prop}

theorem pure {a : α} (h : Q a) : Quiet K Q (pure a : Op α) := fun h' => ⟨Heap.Tolerant.refl h', h⟩

theorem throw {e : Stop} (he : e.isWrapped = false) : Quiet K Q (throw e : Op α) := fun h =>
  ⟨Heap.Tolerant.refl h, he⟩

/-- Quiet operations in sequence. -/
theorem bind {m : Op α} {f : α → Op β} (hm : Quiet K Q m) (hf : ∀ a, Quiet K P (f a)) :
    Quiet K P (m >>= f) := by
  intro h
  simp only [Bind.bind, EStateM.bind]
  cases hmh : m h with
  | error e h' => exact hm.error hmh
  | ok a h' =>
    have h1 := hm.ok hmh
    have h2 := hf a h'
    cases hfa : f a h' with
    | error e h'' =>
      simp only [hfa] at h2 ⊢
      exact ⟨Heap.Tolerant.trans h1.1 h2.1, h2.2⟩
    | ok b h'' =>
      simp only [hfa] at h2 ⊢
      exact ⟨Heap.Tolerant.trans h1.1 h2.1, h2.2⟩

/-- Fail in one case and go on otherwise. -/
theorem guarded {p : Prop} [Decidable p] {e : Stop} {k : PUnit → Op α} (he : e.isWrapped = false)
    (hk : Quiet K Q (k ())) :
    Quiet K Q (if p then MonadExcept.throw e >>= k else k ()) := by
  split
  · exact bind (Q := fun _ => True) (throw he) fun _ => hk
  · exact hk

/-- A regular operation is quiet, whatever evolutions may do. -/
theorem of_regular {m : Op α} (hm : Regular m) : Quiet K (fun _ => True) m := by
  intro h
  cases hmh : m h with
  | error e h' =>
    obtain ⟨hevolves, he⟩ := hm.error hmh
    exact ⟨Heap.Tolerant.evolves hevolves, Stop.isWrapped_of_isOrdinary he⟩
  | ok a h' => exact ⟨Heap.Tolerant.evolves (hm.ok hmh), trivial⟩

theorem read (f : Heap → α) : Quiet K (fun _ => True) (Op.read f) := of_regular (.read f)

omit [Heap.Tolerant K] in
theorem modify {f : Heap → Heap} (hf : ∀ h : Heap, K h (f h)) :
    Quiet K (fun _ => True) (modify f : Op PUnit) := fun h => ⟨hf h, trivial⟩

omit [Heap.Tolerant K] in
/-- Making an object is quiet if that is allowed. -/
theorem make {f : Heap → α × Heap} (hf : ∀ h : Heap, K h (f h).2) :
    Quiet K (fun _ => True) (Op.make f) := fun h => ⟨hf h, trivial⟩

end Quiet

theorem quiet_entry {α : Type} (table : Array α) (i : Nat) :
    Quiet K (fun _ => True) (entry table i) := by
  unfold entry
  split
  · exact .pure trivial
  · exact .throw rfl

theorem quiet_pop (st : List Value) : Quiet K (fun _ => True) (pop st) := by
  cases st with
  | nil => exact .throw rfl
  | cons v st => exact .pure trivial

theorem quiet_pop2 (st : List Value) : Quiet K (fun _ => True) (pop2 st) := by
  unfold pop2
  split
  · exact .pure trivial
  · exact .throw rfl

/-- Taking values off the stack needs nothing of the heap. -/
theorem quiet_popMany (n : Nat) (st : List Value) : Quiet K (fun _ => True) (popMany n st) := by
  unfold popMany
  split
  · exact .throw rfl
  · exact .pure trivial

theorem quiet_asCell (v : Value) : Quiet K (fun _ => True) (asCell v) := by
  unfold asCell
  split
  · exact .pure trivial
  · exact .throw rfl

theorem quiet_cellContent (r : CellRef) (name : String) :
    Quiet K (fun _ => True) (cellContent r name) := by
  refine (Quiet.read _).bind fun v => ?_
  cases v with
  | none => exact .throw rfl
  | some v => exact .pure trivial

/-- A slot without a cell blames the code, which is no wrapped error. -/
theorem quiet_slotCell (a : Activation) (i : Nat) : Quiet K (fun _ => True) (slotCell a i) := by
  refine (quiet_entry a.locals i).bind fun v => ?_
  cases v with
  | none => exact .throw rfl
  | some v => exact quiet_asCell v

theorem quiet_declName (decls : Array Decl) (i : Nat) :
    Quiet K (fun _ => True) (declName decls i) :=
  (quiet_entry decls i).bind fun _ => .pure trivial

theorem quiet_namedArguments (vs : List Value) : Quiet K (fun _ => True) (namedArguments vs) := by
  fun_induction namedArguments vs with
  | case1 k v rest ih => exact ih.bind fun _ => .pure trivial
  | case2 => exact .throw rfl
  | case3 => exact .pure trivial

theorem quiet_dictKeywords (es : List (Value × Value)) :
    Quiet K (fun _ => True) (dictKeywords es) := by
  induction es with
  | nil => exact .pure trivial
  | cons e es ih =>
    obtain ⟨k, v⟩ := e
    cases k with
    | str s => exact ih.bind fun _ => .pure trivial
    | _ => exact .throw rfl

/-- The entries of `**kwargs` are read, and their keys checked. -/
theorem quiet_expandKeywords (v : Value) : Quiet K (fun _ => True) (expandKeywords v) := by
  unfold expandKeywords
  split
  · exact (Quiet.read _).bind fun es => quiet_dictKeywords es
  · exact .throw rfl

/-- The elements of `*args` are drained. -/
theorem quiet_expandArguments (v : Value) : Quiet K (fun _ => True) (expandArguments v) := by
  refine (Quiet.of_regular (regular_drain v)).bind fun elems => ?_
  cases elems with
  | none => exact .throw rfl
  | some elems => exact .pure trivial

theorem quiet_popIf (wanted : Prop) [Decidable wanted] (st : List Value) :
    Quiet K (fun _ => True) (popIf wanted st) := by
  unfold popIf
  split
  · exact (quiet_pop st).bind fun _ => .pure trivial
  · exact .pure trivial

/-- What a call takes off the stack is read in order, each part by a quiet operation. -/
theorem quiet_takeCall (op : Opcode) (arg : UInt32) (st : List Value) :
    Quiet K (fun _ => True) (takeCall op arg st) := by
  have hkw : ∀ kw, Quiet K (fun _ => True) (extraKeywords kw) := by
    intro kw
    cases kw with
    | none => exact .pure trivial
    | some v => exact quiet_expandKeywords v
  have hstar : ∀ star, Quiet K (fun _ => True) (extraArguments star) := by
    intro star
    cases star with
    | none => exact .pure trivial
    | some v => exact quiet_expandArguments v
  have hcounted : ∀ star kw st, Quiet K (fun _ => True) (takeCounted arg star kw st) :=
    fun star kw st => (quiet_popMany _ st).bind fun r => (quiet_namedArguments r.1).bind fun _ =>
      (hkw kw).bind fun _ => (quiet_popMany _ r.2).bind fun s => (hstar star).bind fun _ =>
      (quiet_pop s.2).bind fun _ => .pure trivial
  exact (quiet_popIf _ st).bind fun r => (quiet_popIf _ r.2).bind fun s => hcounted s.1 r.1 s.2

/-- Unpacking drains the value and counts. -/
theorem quiet_unpack (v : Value) (n : Nat) : Quiet K (fun _ => True) (unpack v n) := by
  refine (Quiet.of_regular (regular_drain v)).bind fun elems => ?_
  cases elems with
  | none => exact .throw rfl
  | some elems =>
    refine Quiet.guarded rfl ?_
    exact Quiet.guarded rfl (.pure trivial)

/-- A function is made if functions of its module may be made. -/
theorem quiet_makeFunc (t : Tables) (i : UInt32) (st : List Value)
    (hnew : ∀ (h : Heap) (f : FuncObj), f.module = t.module → K h (h.newFunc f).2) :
    Quiet K (fun _ => True) (makeFunc t i st) := by
  unfold makeFunc
  split
  · exact .throw rfl
  · refine (quiet_pop st).bind fun top => ?_
    split
    · refine Quiet.guarded rfl ?_
      exact (Quiet.make fun h => hnew h _ rfl).bind fun _ => .pure trivial
    · exact .throw rfl

end Op

namespace Activation

open Op

variable {t : Tables} {op : Opcode} {arg : UInt32} {a : Activation} {h : Heap} {live : List Iter}

attribute [local simp] execute

section Instructions

variable {K : Heap → Heap → Prop} [Heap.Tolerant K]

theorem quiet_unary (u : UnaryOp) (x : Value) :
    Quiet K (fun _ => True) (check fun h => h.unary u x) :=
  .of_regular (.check fun h => blameless_unary h u x)

/-- A conditional jump takes a value and stays, wherever it goes. -/
theorem quiet_cjmp : Quiet K (Effect.Continues a) (execute t .cjmp arg a) := by
  refine (quiet_pop _).bind fun r => (Quiet.read _).bind fun b => ?_
  cases b with
  | true => exact .pure ⟨rfl, rfl, rfl⟩
  | false => exact .pure ⟨rfl, rfl, rfl⟩

theorem quiet_setIndex : Quiet K (Effect.Continues a) (execute t .setIndex arg a) := by
  simp only [execute]
  split
  · exact (Quiet.of_regular (regular_setIndex _ _ _)).bind fun _ => .pure ⟨rfl, rfl, rfl⟩
  · exact .throw rfl

/-- Of the two instructions that store an entry, one refuses a key that is there already. -/
theorem quiet_setDict (hop : op = .setDict ∨ op = .setDictUniq) :
    Quiet K (Effect.Continues a) (execute t op arg a) := by
  rcases hop with rfl | rfl
  all_goals
    simp only [execute]
    split
    · refine (Quiet.of_regular (regular_insert _ _ _)).bind fun isNew => ?_
      split
      · refine (Quiet.read _).bind fun _ => ?_
        exact Quiet.bind (α := PUnit) (Q := fun _ => True) (.throw rfl) fun _ =>
            .pure ⟨rfl, rfl, rfl⟩
      · exact .pure ⟨rfl, rfl, rfl⟩
    · exact .throw rfl
    · exact .throw rfl

/-- Appending to the list of a comprehension changes it like any other append. -/
theorem quiet_listAppend : Quiet K (Effect.Continues a) (execute t .append arg a) := by
  simp only [execute]
  split
  · exact (Quiet.of_regular (regular_append _ _)).bind fun _ => .pure ⟨rfl, rfl, rfl⟩
  · exact .throw rfl
  · exact .throw rfl

theorem quiet_slice : Quiet K (Effect.Continues a) (execute t .slice arg a) := by
  simp only [execute]
  split
  · exact (Quiet.of_regular (regular_slice _ _ _ _)).bind fun _ => .pure ⟨rfl, rfl, rfl⟩
  · exact .throw rfl

theorem quiet_load : Quiet K (Effect.Continues a) (execute t .load arg a) := by
  refine (quiet_pop _).bind fun r => ?_
  obtain ⟨v, st⟩ := r
  cases v with
  | str s => exact .pure ⟨rfl, rfl, rfl⟩
  | _ => exact .throw rfl

/-- A captured local is written through its cell. -/
theorem quiet_setLocalCell : Quiet K (Effect.Continues a) (execute t .setLocalCell arg a) :=
  (quiet_pop _).bind fun r => (quiet_slotCell a _).bind fun c =>
    (Quiet.modify fun h => Heap.Tolerant.setCell h c r.1).bind fun _ => .pure ⟨rfl, rfl, rfl⟩

/-- A global is written in the module of the function. -/
theorem quiet_setGlobal : Quiet K (Effect.Continues a) (execute t .setGlobal arg a) :=
  (quiet_pop _).bind fun r => (Quiet.read _).bind fun gs => (quiet_entry gs _).bind fun _ =>
    (Quiet.modify fun h => Heap.Tolerant.setGlobal h _ _ r.1).bind fun _ => .pure ⟨rfl, rfl, rfl⟩

/-- Reading a local that has no value is an error of the program. -/
theorem quiet_getLocal : Quiet K (Effect.Continues a) (execute t .getLocal arg a) := by
  refine (quiet_entry _ _).bind fun v => ?_
  cases v with
  | none => exact (quiet_declName _ _).bind fun _ => .throw rfl
  | some v => exact .pure ⟨rfl, rfl, rfl⟩

/-- Reading a global that has no value is an error of the program. -/
theorem quiet_getGlobal : Quiet K (Effect.Continues a) (execute t .getGlobal arg a) := by
  refine (Quiet.read _).bind fun gs => (quiet_entry gs _).bind fun v => ?_
  cases v with
  | none => exact (quiet_declName _ _).bind fun _ => .throw rfl
  | some v => exact .pure ⟨rfl, rfl, rfl⟩

theorem quiet_predeclared : Quiet K (Effect.Continues a) (execute t .predeclared arg a) := by
  refine (quiet_entry _ _).bind fun name => (Quiet.read _).bind fun v => ?_
  cases v with
  | none => exact .throw rfl
  | some v => exact .pure ⟨rfl, rfl, rfl⟩

theorem quiet_universal : Quiet K (Effect.Continues a) (execute t .universal arg a) := by
  refine (quiet_entry _ _).bind fun name => ?_
  split
  · exact .pure ⟨rfl, rfl, rfl⟩
  · exact .throw rfl

/-- Instructions that do not work on iterators leave them as they are. -/
theorem quiet_execute
    (hnew : ∀ (h : Heap) (f : FuncObj), f.module = t.module → K h (h.newFunc f).2)
    (hop : op ≠ .iterPush ∧ op ≠ .iterJmp ∧ op ≠ .iterPop) :
    Quiet K (Effect.Continues a) (execute t op arg a) := by
  -- what an instruction takes from the stack and what it works on; all go on in the same function
  cases op with
  | iterPush => exact absurd rfl hop.1
  | iterJmp => exact absurd rfl hop.2.1
  | iterPop => exact absurd rfl hop.2.2
  | nop | pushNone | pushTrue | pushFalse | mandatory | jmp => exact .pure ⟨rfl, rfl, rfl⟩
  | dup | pop => exact (quiet_pop _).bind fun _ => .pure ⟨rfl, rfl, rfl⟩
  | dup2 | exch => exact (quiet_pop2 _).bind fun _ => .pure ⟨rfl, rfl, rfl⟩
  | ret => exact (quiet_pop _).bind fun r => .pure trivial
  | uplus =>
    exact (quiet_pop _).bind fun r => (quiet_unary .plus r.1).bind fun _ => .pure ⟨rfl, rfl, rfl⟩
  | uminus =>
    exact (quiet_pop _).bind fun r => (quiet_unary .minus r.1).bind fun _ => .pure ⟨rfl, rfl, rfl⟩
  | tilde =>
    exact (quiet_pop _).bind fun r => (quiet_unary .tilde r.1).bind fun _ => .pure ⟨rfl, rfl, rfl⟩
  | not =>
    exact (quiet_pop _).bind fun r => (quiet_unary .not r.1).bind fun _ => .pure ⟨rfl, rfl, rfl⟩
  | inplaceAdd =>
    exact (quiet_pop2 _).bind fun r =>
      (Quiet.of_regular (regular_inplaceAdd r.2.1 r.1)).bind fun _ => .pure ⟨rfl, rfl, rfl⟩
  | inplacePipe =>
    exact (quiet_pop2 _).bind fun r =>
      (Quiet.of_regular (regular_inplacePipe r.2.1 r.1)).bind fun _ => .pure ⟨rfl, rfl, rfl⟩
  | cjmp => exact quiet_cjmp
  | setIndex => exact quiet_setIndex
  | index =>
    exact (quiet_pop2 _).bind fun r =>
      (Quiet.of_regular (.check fun h => h.blameless_getIndex r.2.1 r.1)).bind fun _ =>
          .pure ⟨rfl, rfl, rfl⟩
  | attr =>
    exact (quiet_pop _).bind fun r => (quiet_entry _ _).bind fun name =>
      (Quiet.of_regular (regular_getAttr r.1 name)).bind fun _ => .pure ⟨rfl, rfl, rfl⟩
  | setField =>
    exact (quiet_pop2 _).bind fun r => (quiet_entry _ _).bind fun name =>
      (Quiet.of_regular (regular_setField r.2.1 name)).bind fun _ => .pure ⟨rfl, rfl, rfl⟩
  | makeDict =>
    exact (Quiet.make fun h => Heap.Tolerant.change .newDict).bind fun _ => .pure ⟨rfl, rfl, rfl⟩
  | setDict => exact quiet_setDict (.inl rfl)
  | setDictUniq => exact quiet_setDict (.inr rfl)
  | append => exact quiet_listAppend
  | slice => exact quiet_slice
  | unpack =>
    exact (quiet_pop _).bind fun r => (quiet_unpack r.1 _).bind fun _ => .pure ⟨rfl, rfl, rfl⟩
  | constant | free => exact (quiet_entry _ _).bind fun _ => .pure ⟨rfl, rfl, rfl⟩
  | makeTuple => exact (quiet_popMany _ _).bind fun r => .pure ⟨rfl, rfl, rfl⟩
  | makeList =>
    exact (quiet_popMany _ _).bind fun r =>
      (Quiet.make fun h => Heap.Tolerant.change (.newList _)).bind fun _ => .pure ⟨rfl, rfl, rfl⟩
  | makeFunc => exact (quiet_makeFunc t arg _ hnew).bind fun r => .pure ⟨rfl, rfl, rfl⟩
  | load => exact quiet_load
  | setLocal =>
    exact (quiet_pop _).bind fun r => (quiet_entry _ _).bind fun _ => .pure ⟨rfl, rfl, rfl⟩
  | setLocalCell => exact quiet_setLocalCell
  | setGlobal => exact quiet_setGlobal
  | getLocal => exact quiet_getLocal
  | freeCell =>
    exact (quiet_entry _ _).bind fun v => (quiet_asCell v).bind fun r =>
      (quiet_declName _ _).bind fun name => (quiet_cellContent r name).bind fun _ =>
          .pure ⟨rfl, rfl, rfl⟩
  | localCell =>
    exact (quiet_slotCell a _).bind fun r =>
      (quiet_declName _ _).bind fun name => (quiet_cellContent r name).bind fun _ =>
          .pure ⟨rfl, rfl, rfl⟩
  | getGlobal => exact quiet_getGlobal
  | predeclared => exact quiet_predeclared
  | universal => exact quiet_universal
  | call | callVar | callKw | callVarKw =>
    exact (quiet_takeCall _ arg _).bind fun _ => .pure ⟨rfl, rfl, rfl⟩
  | _ =>
    exact (quiet_pop2 _).bind fun r =>
      (Quiet.of_regular (regular_binary _ r.2.1 r.1)).bind fun _ => .pure ⟨rfl, rfl, rfl⟩

end Instructions

/-- The iterable leaves the stack, and its iterator is opened. -/
theorem execute_iterPush {x : Value} {st : List Value} (hst : a.stack = x :: st) :
    execute t .iterPush arg a h =
      match h.openIter x with
      | (some it, h') => .ok (.proceed { a with stack := st, iters := it :: a.iters }) h'
      | (none, h') => .error (.error (.unsupported x.kind .iteration)) h' := by
  simp only [execute, hst, Op.pop_bind, Op.make_bind]
  cases h.openIter x with
  | mk it h' => cases it <;> rfl

/-- The next element is pushed, or control goes to the end of the loop. -/
theorem execute_iterJmp {it : Iter} {iters : List Iter} (hit : a.iters = it :: iters) :
    execute t .iterJmp arg a h =
      match h.nextElem? it with
      | some (x, it) => .ok (.proceed { a with stack := x :: a.stack, iters := it :: iters }) h
      | none => .ok (.proceed { a with next := arg.toNat }) h := by
  simp only [execute, hit, bind, EStateM.bind, Op.read]
  cases h.nextElem? it <;> rfl

/-- A conditional jump takes the top of the stack. -/
theorem execute_cjmp {v : Value} {st : List Value} (hst : a.stack = v :: st) :
    execute t .cjmp arg a h =
      .ok (.proceed (if h.truth v then { a with stack := st, next := arg.toNat }
        else { a with stack := st })) h := by
  simp only [execute, hst]
  show (if h.truth v = true then pure _ else pure _ : Op Effect) h = _
  split <;> rfl

/-- Only three opcodes work on iterators. -/
theorem iterates_cases {op : Opcode} (hop : ¬(op ≠ .iterPush ∧ op ≠ .iterJmp ∧ op ≠ .iterPop)) :
    op = .iterPush ∨ op = .iterJmp ∨ op = .iterPop := by
  cases op <;> first | exact .inl rfl | exact .inr (.inl rfl) | exact .inr (.inr rfl) |
    exact absurd ⟨nofun, nofun, nofun⟩ hop

/-- An instruction keeps the counters right. -/
theorem counts_execute (t : Tables) (op : Opcode) (arg : UInt32) (a : Activation)
    (hc : h.Counts (a.iters ++ live)) :
    match execute t op arg a h with
    | .ok e h' => h'.Counts (e.iters a ++ live)
    | .error _ h' => h'.Counts (a.iters ++ live) := by
  -- only three opcodes open, advance or close an iterator
  by_cases hop : op ≠ .iterPush ∧ op ≠ .iterJmp ∧ op ≠ .iterPop
  · have hq : Quiet Heap.SameLocks (Effect.Continues a) (execute t op arg a) :=
      quiet_execute (fun _ _ _ => .of_eq rfl rfl) hop
    cases he : execute t op arg a h with
    | error e h' => exact hc.sameLocks (hq.error he).1
    | ok e h' =>
      obtain ⟨hsame, hcont⟩ := hq.ok he
      simp only [hcont.iters_eq]
      exact hc.sameLocks hsame
  · rcases iterates_cases hop with rfl | rfl | rfl
    · cases hst : a.stack with
      | nil =>
        simp only [execute, hst]
        exact hc
      | cons x st =>
        rw [execute_iterPush hst]
        cases ho : h.openIter x with
        | mk it h' =>
          cases it with
          | some it => exact hc.openIter ho
          | none => exact Heap.openIter_eq_none ho ▸ hc
    · cases hit : a.iters with
      | nil =>
        rw [hit] at hc
        simp only [execute, hit]
        exact hc
      | cons it iters =>
        rw [hit] at hc
        rw [execute_iterJmp hit]
        cases hn : h.nextElem? it with
        | none =>
          simp only [Effect.iters, hit]
          exact hc
        | some next => exact hc.advance hn
    · cases hit : a.iters with
      | nil =>
        rw [hit] at hc
        simp only [execute, hit]
        exact hit ▸ hc
      | cons it iters =>
        rw [hit] at hc
        simp only [execute, hit]
        exact hc.closeIter

end Activation

/-! ## Steps -/

/-- The iterators that a call has open. -/
def Frame.iters : Frame → List Iter
  | .func a _ => a.iters
  | .builtin _ run => run.held

namespace Machine

/-- The iterators that all active calls have open. -/
def iters (m : Machine) : List Iter := m.frames.flatMap Frame.iters

/-- The counters are right for the iterators of all active calls and those in `held`. -/
def Balanced (held : List Iter) (m : Machine) : Prop := m.heap.Counts (m.iters ++ held)

variable {heap : Heap} {thread : Thread} {frames callers : List Frame} {held : List Iter}

/-- A frame that is closed has no live iterators any more. -/
theorem counts_closeFrame {frame : Frame} {live : List Iter}
    (hc : heap.Counts (frame.iters ++ live)) :
    (heap.closeFrame frame).Counts live := by
  cases frame with
  | func a pending => exact hc.closeAll
  | builtin r run => exact hc.closeAll

/-- Leaving the innermost call closes its iterators and no others. -/
theorem balanced_leave (hc : heap.Counts (frames.flatMap Frame.iters ++ held)) (v : Value) :
    (leave heap thread frames v).Balanced held := by
  cases frames with
  | nil => exact hc
  | cons frame rest =>
    rw [List.flatMap_cons, List.append_assoc] at hc
    exact counts_closeFrame hc

/-- So does failing. -/
theorem balanced_fail (hc : heap.Counts (frames.flatMap Frame.iters ++ held)) (e : Error) :
    (fail heap thread frames e).Balanced held := by
  cases frames with
  | nil => exact hc
  | cons frame rest =>
    rw [List.flatMap_cons, List.append_assoc] at hc
    exact counts_closeFrame hc

/-- And so does an abort, or failing with an error. -/
theorem balanced_stop (hc : heap.Counts (frames.flatMap Frame.iters ++ held)) (e : Stop) :
    (stop heap thread frames e).Balanced held := by
  cases e with
  | error e => exact balanced_fail hc e
  | abort a => exact hc

/-- Installing what was bound touches no lock. -/
theorem sameLocks_install (b : Bound) (h : Heap) : h.SameLocks (b.install h).2 := by
  unfold Bound.install
  split
  · exact .refl h
  · exact .newDict h _

/-- Boxing captured locals touches no lock. -/
theorem sameLocks_boxCells {cells : List UInt32} {h h' : Heap}
    {locals locals' : Array (Option Value)}
    (hb : h.boxCells locals cells = .ok (locals', h')) : h.SameLocks h' := by
  induction cells generalizing h locals with
  | nil =>
    cases hb
    exact .refl _
  | cons i cells ih =>
    rw [Heap.boxCells] at hb
    split at hb
    · cases hb
    · rename_i v _
      have hnew : h.SameLocks (h.newCell v).2 := .of_eq rfl rfl
      exact hnew.trans (ih hb)

/-- A function that is entered has no iterators of its own yet. -/
theorem Enters.balanced {f : FuncObj} {args : List Value} {kwargs : Keywords} {m : Machine}
    (h : Enters heap thread callers f args kwargs m)
    (hc : heap.Counts (callers.flatMap Frame.iters ++ held)) : m.Balanced held := by
  -- the new call has no iterators yet
  have hframe : heap.Counts ((unstarted f :: callers).flatMap Frame.iters ++ held) := hc
  have hinstall := fun b : Bound => hc.sameLocks (sameLocks_install b heap)
  cases h with
  | recurs => exact balanced_fail hframe _
  | unbound => exact balanced_stop hframe _
  | unboxed => exact hinstall _
  | starts _ _ hbox => exact (hinstall _).sameLocks (sameLocks_boxCells hbox)

theorem balanced_finish (hc : heap.Counts (frames.flatMap Frame.iters ++ held))
    (r : Except Error Value) : (finish heap thread frames r).Balanced held := by
  cases r with
  | ok v => exact balanced_leave hc v
  | error e => exact balanced_fail hc e

/-- A builtin that has run has closed what it opened. -/
theorem Runs.balanced {r : BuiltinRef} {args : List Value} {kwargs : Keywords} {m : Machine}
    (h : Runs heap thread callers r args kwargs m)
    (hc : heap.Counts (callers.flatMap Frame.iters ++ held)) : m.Balanced held := by
  -- a builtin has no iterators of its own yet
  have hframe : ∀ {h : Heap}, h.Counts (callers.flatMap Frame.iters ++ held) →
      h.Counts ((builtinFrame r args kwargs :: callers).flatMap Frame.iters ++ held) := id
  have hstandard := Op.regular_callStandard (heap.builtin r) args kwargs
  cases h with
  | prints => exact balanced_leave (hframe hc) _
  | fails => exact balanced_fail (hframe hc) _
  | waits => exact hframe hc
  | returns hrun => exact balanced_leave (hframe (hc.sameLocks (.of_evolves (hstandard.ok hrun)))) _
  | stops hrun =>
    exact balanced_stop (hframe (hc.sameLocks (.of_evolves (hstandard.error hrun).1))) _

/-- A call opens nothing by itself. -/
theorem Invokes.balanced {f : Value} {args : List Value} {kwargs : Keywords} {m : Machine}
    (h : Invokes heap thread frames f args kwargs m)
    (hc : heap.Counts (frames.flatMap Frame.iters ++ held)) : m.Balanced held := by
  cases h with
  | full | uncallable => exact hc
  | enters _ _ _ h => exact h.balanced hc
  | runs _ _ h => exact h.balanced hc

/-- Members that are found take the places of their names. -/
theorem quiet_replaceNames {K : Heap → Heap → Prop} [Heap.Tolerant K] (members : Env)
    (name : String)
    (count : Nat) (st : List Value) :
    Op.Quiet K (fun _ => True) (Op.replaceNames members name count st) := by
  have hmembers : ∀ names, Op.Quiet K (fun _ => True) (Op.loadMembers members name names) := by
    intro names
    fun_induction Op.loadMembers members name names with
    | case1 => exact .pure trivial
    | case2 _ _ _ _ ih => exact ih.bind fun _ => .pure trivial
    | case3 => exact .throw rfl
    | case4 => exact .throw rfl
  exact (Op.quiet_popMany count st).bind fun r => (hmembers r.1).bind fun _ => .pure trivial

/-- The iterators of a function frame come first. -/
theorem counts_func {b : Activation} {pending : Pending}
    (hc : heap.Counts (b.iters ++ (callers.flatMap Frame.iters ++ held))) :
    heap.Counts ((Frame.func b pending :: callers).flatMap Frame.iters ++ held) := by
  rw [List.flatMap_cons, List.append_assoc]
  exact hc

/-- A load that has ended leaves the iterators of its function alone, or closes them with it. -/
theorem Binds.balanced {a : Activation} {name : String} {count : Nat} {members : Env} {m : Machine}
    (h : Binds heap thread a callers name count members m)
    (hc : heap.Counts (a.iters ++ (callers.flatMap Frame.iters ++ held))) : m.Balanced held := by
  have hquiet : Op.Quiet Heap.SameLocks (fun _ => True)
      (Op.replaceNames members name count a.stack) := quiet_replaceNames members name count a.stack
  cases h with
  | @binds st _ hrun =>
    exact counts_func (b := { a with stack := st }) (hc.sameLocks (hquiet.ok hrun).1)
  | stops hrun => exact balanced_stop (counts_func (hc.sameLocks (hquiet.error hrun).1)) _

/-- A load opens nothing by itself. -/
theorem Loads.balanced {a : Activation} {name : String} {count : Nat} {m : Machine}
    (h : Loads heap thread a callers name count m)
    (hc : heap.Counts (a.iters ++ (callers.flatMap Frame.iters ++ held))) : m.Balanced held := by
  cases h with
  | unavailable | failure => exact balanced_fail (counts_func hc) _
  | members _ h => exact h.balanced hc
  | program => exact (counts_func hc).sameLocks (.of_eq rfl rfl)

/-- An outcome that is handed over closes the iterators of the calls that it ends. -/
theorem Delivers.balanced {r : Except Error Value} {m : Machine}
    (h : Delivers heap thread frames r m)
    (hc : heap.Counts (frames.flatMap Frame.iters ++ held)) : m.Balanced held := by
  cases h with
  | halts | pushes => exact hc
  | answers => exact hc
  | fails => exact balanced_fail hc _
  | @loaded a callers name count module v _ h =>
    have hfrozen := hc.sameLocks (.freezeModule heap module)
    rw [List.flatMap_cons, List.append_assoc] at hfrozen
    exact h.balanced hfrozen
  | @unloaded a callers name count module e =>
    have hframe : (heap.freezeModule module).Counts
        ((Frame.func a .call :: callers).flatMap Frame.iters ++ held) :=
      hc.sameLocks (.freezeModule heap module)
    exact balanced_fail hframe _

/-- An instruction opens, advances and closes iterators on top of those of its function. -/
theorem Executes.balanced {a : Activation} {m : Machine} (h : Executes heap thread a callers m)
    (hc : heap.Counts (a.iters ++ (callers.flatMap Frame.iters ++ held))) : m.Balanced held := by
  -- where the program counter stands is nothing to the iterators
  have hat : ∀ {h : Heap} (n : Nat), h.Counts (a.iters ++ (callers.flatMap Frame.iters ++ held)) →
      h.Counts ((Frame.func { a with pc := n } .call :: callers).flatMap Frame.iters ++ held) :=
    fun n hc => counts_func (b := { a with pc := n }) hc
  have hrun : ∀ {f result}, Executed heap thread a f result → match result with
      | .ok effect h => h.Counts (effect.iters a ++ (callers.flatMap Frame.iters ++ held))
      | .error _ h => h.Counts (a.iters ++ (callers.flatMap Frame.iters ++ held)) := by
    intro f result hdone
    rw [← hdone.result_eq]
    exact Activation.counts_execute (heap.tables a.func) f.op (f.arg.getD 0)
      { a with pc := a.next, next := f.next } hc
  cases h with
  | cancelled => exact balanced_fail (counts_func hc) _
  | unread => exact balanced_fail (hat _ hc) _
  | stops hdone => exact balanced_stop (hat _ (hrun hdone)) _
  | proceeds hdone => exact counts_func (hrun hdone)
  | finishes hdone => exact balanced_leave (hat _ (hrun hdone)) _
  | calls hdone => exact counts_func (hrun hdone)
  | loads hdone h => exact h.balanced (hrun hdone)

/-- What a function of the host does in its turn is counted. -/
theorem Hosts.balanced {r : BuiltinRef} {run : HostRun} {m : Machine}
    (h : Hosts heap thread callers r run m)
    (hc : heap.Counts (run.held ++ (callers.flatMap Frame.iters ++ held))) : m.Balanced held := by
  have hframe :
      ∀ {h : Heap} {run : HostRun}, h.Counts (run.held ++ (callers.flatMap Frame.iters ++ held)) →
      h.Counts ((Frame.builtin r run :: callers).flatMap Frame.iters ++ held) := by
    intro h run hc
    rw [List.flatMap_cons, List.append_assoc]
    exact hc
  cases h with
  | acts _ hrun => exact hframe ((HostAct.performs_of_ok hrun).append _ |>.counts hc)
  | errs _ hrun => exact hframe ((HostAct.performs_of_error hrun).1.append _ |>.counts hc)
  | aborts _ hrun => exact hframe ((HostAct.performs_of_error hrun).1.append _ |>.counts hc)
  | steers | calls => exact hframe hc
  | finishes => exact balanced_finish (hframe hc) _

/-- Every step keeps the counters right. -/
theorem balanced_step {m : Machine} (hb : m.Balanced held) : m.step.Balanced held := by
  have hsteps := steps_step m
  generalize m.step = m' at hsteps ⊢
  cases hsteps with
  | executes h =>
    unfold Balanced iters at hb
    rw [List.flatMap_cons, List.append_assoc] at hb
    exact h.balanced hb
  | hosts h =>
    unfold Balanced iters at hb
    rw [List.flatMap_cons, List.append_assoc] at hb
    exact h.balanced hb
  | idles | rests => exact hb
  | invokes h => exact h.balanced hb
  | delivers h => exact h.balanced hb
  | done => exact hb

/-- Live iterators stay counted throughout a run. -/
theorem balanced_run {m : Machine} (hb : m.Balanced held) (n : Nat) : (run n m).Balanced held := by
  induction n generalizing m with
  | zero => exact hb
  | succ n ih =>
    unfold run
    split
    · exact hb
    · exact ih (balanced_step hb)

end Machine

end Starlark
