import Mathlib.Data.List.Forall2
import Starlark.Proofs.Operation.Changes

/-!
# Values that scripts may see

Cells and the mandatory mark serve the machine. A value that scripts may see has neither of them in
it, not even inside tuples (`Value.Visible`), and a discreet heap keeps them out of everything that
scripts can look into (`Heap.Discreet`). On a discreet heap, an operation on values that scripts may
see leaves a discreet heap, whether it succeeds or not, and gives such values (`Op.Discreet`).
-/

set_option autoImplicit false

namespace Starlark

/-! ## Values -/

mutual

/-- A value in which neither a cell nor the mandatory mark occurs, also not inside tuples. -/
def Value.Visible : Value → Prop
  | .cell _ | .mandatory => False
  | .tuple elems => Value.AllVisible elems
  | _ => True

/-- Scripts may see all values of a list. -/
def Value.AllVisible : List Value → Prop
  | [] => True
  | v :: rest => v.Visible ∧ Value.AllVisible rest

end

/-- Values are visible together if each of them is. -/
theorem Value.allVisible_iff {vs : List Value} : Value.AllVisible vs ↔ ∀ v ∈ vs, v.Visible := by
  induction vs with
  | nil => simp [Value.AllVisible]
  | cons v vs ih => simp [Value.AllVisible, ih]

/-- A tuple shows what its elements show. -/
@[simp] theorem Value.visible_tuple {elems : List Value} :
    (Value.tuple elems).Visible ↔ ∀ v ∈ elems, v.Visible := by
  rw [Value.Visible, Value.allVisible_iff]

@[simp] theorem Value.visible_null : Value.null.Visible := trivial
@[simp] theorem Value.visible_bool (b : Bool) : (Value.bool b).Visible := trivial
@[simp] theorem Value.visible_int (n : Int64) : (Value.int n).Visible := trivial
@[simp] theorem Value.visible_float (x : Float) : (Value.float x).Visible := trivial
@[simp] theorem Value.visible_str (s : String) : (Value.str s).Visible := trivial
@[simp] theorem Value.visible_bytes (b : List UInt8) : (Value.bytes b).Visible := trivial
@[simp] theorem Value.visible_list (r : ListRef) : (Value.list r).Visible := trivial
@[simp] theorem Value.visible_dict (r : DictRef) : (Value.dict r).Visible := trivial
@[simp] theorem Value.visible_func (r : FuncRef) : (Value.func r).Visible := trivial
@[simp] theorem Value.visible_builtin (r : BuiltinRef) : (Value.builtin r).Visible := trivial

/-- Scripts may see all values of an environment, or of keyword arguments. -/
def Env.Visible (env : Env) : Prop := ∀ b ∈ env, b.2.Visible

/-- What is found in a visible environment is visible. -/
theorem Env.Visible.lookup? {env : Env} (h : env.Visible) {name : String} {v : Value}
    (hv : env.lookup? name = some v) : v.Visible := by
  obtain ⟨b, hb, rfl⟩ := Option.map_eq_some_iff.1 hv
  exact h b (List.mem_of_find?_eq_some hb)

/-- A visible value can be bound in a visible environment. -/
theorem Env.Visible.insert {env : Env} (h : env.Visible) {v : Value} (hv : v.Visible)
    (name : String) : (env.insert name v).Visible := by
  induction env with
  | nil => exact List.forall_mem_singleton.2 hv
  | cons b rest ih =>
    obtain ⟨hb, hrest⟩ := List.forall_mem_cons.1 h
    unfold Env.insert
    split
    · exact List.forall_mem_cons.2 ⟨hv, hrest⟩
    · exact List.forall_mem_cons.2 ⟨hb, ih hrest⟩

/-- An environment made of visible values is visible. -/
theorem Env.visible_ofPairs {pairs : List (String × Value)} (h : ∀ b ∈ pairs, b.2.Visible) :
    (Env.ofPairs pairs).Visible := by
  have hfold : ∀ (pairs : List (String × Value)) (env : Env), (∀ b ∈ pairs, b.2.Visible) →
      env.Visible → (pairs.foldl (fun env b => env.insert b.1 b.2) env).Visible := by
    intro pairs
    induction pairs with
    | nil => exact fun _ _ henv => henv
    | cons b pairs ih =>
      intro env hpairs henv
      obtain ⟨hb, hpairs⟩ := List.forall_mem_cons.1 hpairs
      exact ih _ hpairs (henv.insert hb b.1)
  exact hfold pairs [] h fun b hb => absurd hb List.not_mem_nil

/-! ## Heaps -/

/-- What stands for the default of a parameter. -/
def Value.IsDefault (v : Value) : Prop := v.Visible ∨ v = .mandatory

/-- Scripts may see all that they can find in the objects of a heap. The defaults of functions may
be marks, which are never handed out. -/
structure Heap.Discreet (h : Heap) : Prop where
  lists : ∀ l ∈ h.lists, ∀ v ∈ l.elems, v.Visible
  dicts : ∀ d ∈ h.dicts, ∀ e ∈ d.entries, e.1.Visible ∧ e.2.Visible
  cells : ∀ c ∈ h.cells, ∀ v ∈ c.content, v.Visible
  funcs : ∀ f ∈ h.funcs, ∀ v ∈ f.defaults, v.IsDefault
  builtins : ∀ b ∈ h.builtins, ∀ v ∈ b.receiver, v.Visible
  predeclared : ∀ m ∈ h.modules, m.predeclared.Visible
  globals : ∀ m ∈ h.modules, ∀ v, some v ∈ m.globals → v.Visible

/-- What holds of all elements, and is kept by `f`, holds after one of them was changed. -/
theorem forall_mem_modify {α : Type} {P : α → Prop} {a : Array α} (ha : ∀ x ∈ a, P x) {f : α → α}
    (hf : ∀ x, P x → P (f x)) (i : Nat) : ∀ x ∈ a.modify i f, P x := by
  intro x hx
  obtain ⟨y, hy, rfl | rfl⟩ := mem_modify_cases hx
  · exact ha _ hy
  · exact hf y (ha y hy)

theorem forall_mem_push {α : Type} {P : α → Prop} {a : Array α} (ha : ∀ x ∈ a, P x) {y : α}
    (hy : P y) : ∀ x ∈ a.push y, P x := by
  intro x hx
  rcases Array.mem_push.1 hx with hx | rfl
  · exact ha x hx
  · exact hy

/-- An entry of a table, or what stands for one that is missing. -/
theorem of_getD {α : Type} {P : α → Prop} {a : Array α} (ha : ∀ x ∈ a, P x) {y : α} (hy : P y)
    (i : Nat) : P (a.getD i y) := by
  rw [Array.getD_eq_getD_getElem?]
  cases hi : a[i]? with
  | none => exact hy
  | some x => exact ha x (Array.mem_of_getElem? hi)

namespace Heap.Discreet

variable {h : Heap}

/-! ### Looking up -/

/-- The elements of every list of a discreet heap are visible. -/
theorem list (hd : h.Discreet) (r : ListRef) : ∀ v ∈ (h.list r).elems, v.Visible :=
  of_getD (P := fun l : ListObj => ∀ v ∈ l.elems, v.Visible) hd.lists
    (fun v hv => absurd hv (Array.not_mem_empty v)) r.index

/-- The keys and values of every dict of a discreet heap are visible. -/
theorem dict (hd : h.Discreet) (r : DictRef) :
    ∀ e ∈ (h.dict r).entries, e.1.Visible ∧ e.2.Visible :=
  of_getD (P := fun d : DictObj => ∀ e ∈ d.entries, e.1.Visible ∧ e.2.Visible) hd.dicts
    (fun e he => absurd he (Array.not_mem_empty e)) r.index

/-- The content of every cell of a discreet heap is visible. -/
theorem cell (hd : h.Discreet) (r : CellRef) : ∀ v ∈ (h.cell r).content, v.Visible :=
  of_getD (P := fun c : CellObj => ∀ v ∈ c.content, v.Visible) hd.cells
    (fun v hv => absurd hv (Option.not_mem_none v)) r.index

/-- The receiver of every method of a discreet heap is visible. -/
theorem builtin (hd : h.Discreet) (r : BuiltinRef) : ∀ v ∈ (h.builtin r).receiver, v.Visible :=
  of_getD (P := fun b : BuiltinObj => ∀ v ∈ b.receiver, v.Visible) hd.builtins
    (fun v hv => absurd hv (Option.not_mem_none v)) r.index

/-- The predeclared names of every module of a discreet heap have visible values. -/
theorem env (hd : h.Discreet) (r : ModuleRef) : (h.module r).predeclared.Visible :=
  of_getD (P := fun m : ModuleObj => m.predeclared.Visible) hd.predeclared
    (fun _ hb => absurd hb List.not_mem_nil) r.index

/-- The globals of every module of a discreet heap are visible. -/
theorem global (hd : h.Discreet) (r : ModuleRef) : ∀ v, some v ∈ (h.module r).globals → v.Visible :=
  of_getD (P := fun m : ModuleObj => ∀ v, some v ∈ m.globals → v.Visible) hd.globals
    (fun _ hv => absurd hv (Array.not_mem_empty _)) r.index

/-- What a visible value is iterated over is visible. -/
theorem elements? (hd : h.Discreet) {v : Value} (hv : v.Visible) {elems : List Value}
    (he : h.elements? v = some elems) : ∀ x ∈ elems, x.Visible := by
  cases v with
  | list r =>
    cases he
    exact fun x hx => hd.list r x (Array.mem_toList_iff.1 hx)
  | dict r =>
    cases he
    intro x hx
    obtain ⟨e, he, rfl⟩ := List.mem_map.1 hx
    exact (hd.dict r e (Array.mem_toList_iff.1 he)).1
  | tuple xs =>
    cases he
    exact Value.visible_tuple.1 hv
  | _ => cases he

/-! ### Making and changing objects -/

theorem newList (hd : h.Discreet) {elems : Array Value} (helems : ∀ v ∈ elems, v.Visible) :
    (h.newList elems).2.Discreet :=
  { hd with lists := forall_mem_push hd.lists helems }

theorem newDict (hd : h.Discreet) {entries : Array (Value × Value)}
    (hentries : ∀ e ∈ entries, e.1.Visible ∧ e.2.Visible) : (h.newDict entries).2.Discreet :=
  { hd with dicts := forall_mem_push hd.dicts hentries }

theorem newCell (hd : h.Discreet) {content : Option Value} (hv : ∀ v ∈ content, v.Visible) :
    (h.newCell content).2.Discreet :=
  { hd with cells := forall_mem_push hd.cells hv }

/-- A function may keep marks among its defaults, so those are asked for less. -/
theorem newFunc (hd : h.Discreet) {f : FuncObj} (hf : ∀ v ∈ f.defaults, v.IsDefault) :
    (h.newFunc f).2.Discreet :=
  { hd with funcs := forall_mem_push hd.funcs hf }

theorem newBuiltin (hd : h.Discreet) (op : BuiltinOp) {receiver : Option Value}
    (hv : ∀ v ∈ receiver, v.Visible) : (h.newBuiltin op receiver).2.Discreet :=
  { hd with builtins := forall_mem_push hd.builtins hv }

theorem newModule (hd : h.Discreet) (p : ProgramRef) {predeclared : Env}
    (henv : predeclared.Visible) : (h.newModule p predeclared).2.Discreet := by
  refine { hd with
    predeclared := forall_mem_push hd.predeclared henv
    globals := forall_mem_push hd.globals fun v hv => ?_ }
  cases (Array.mem_replicate.1 hv).2

/-- A list may be changed in any way that keeps visible elements visible. -/
theorem modifyList (hd : h.Discreet) (r : ListRef) {f : ListObj → ListObj}
    (hf : ∀ l : ListObj, (∀ v ∈ l.elems, v.Visible) → ∀ v ∈ (f l).elems, v.Visible) :
    (h.modifyList r f).Discreet :=
  { hd with lists := forall_mem_modify hd.lists hf r.index }

/-- A dict may be changed in any way that keeps visible entries visible. -/
theorem modifyDict (hd : h.Discreet) (r : DictRef) {f : DictObj → DictObj}
    (hf : ∀ d : DictObj, (∀ e ∈ d.entries, e.1.Visible ∧ e.2.Visible) →
      ∀ e ∈ (f d).entries, e.1.Visible ∧ e.2.Visible) : (h.modifyDict r f).Discreet :=
  { hd with dicts := forall_mem_modify hd.dicts hf r.index }

/-- A cell may be changed in any way that keeps a visible content visible. -/
theorem modifyCell (hd : h.Discreet) (r : CellRef) {f : CellObj → CellObj}
    (hf : ∀ c : CellObj, (∀ v ∈ c.content, v.Visible) → ∀ v ∈ (f c).content, v.Visible) :
    (h.modifyCell r f).Discreet :=
  { hd with cells := forall_mem_modify hd.cells hf r.index }

theorem setCell (hd : h.Discreet) (r : CellRef) {v : Value} (hv : v.Visible) :
    (h.setCell r v).Discreet :=
  hd.modifyCell r fun _ _ _ hx => Option.some.inj hx ▸ hv

theorem setGlobal (hd : h.Discreet) (r : ModuleRef) (i : Nat) {v : Value} (hv : v.Visible) :
    (h.setGlobal r i v).Discreet := by
  have hcases : ∀ m ∈ (h.setGlobal r i v).modules, ∃ m' ∈ h.modules, m = m' ∨
      m = { m' with globals := m'.globals.setIfInBounds i (some v) } := by
    intro m hm
    simp only [Heap.setGlobal] at hm
    exact mem_modify_cases hm
  refine { hd with predeclared := fun m hm => ?_, globals := fun m hm x hx => ?_ }
  all_goals obtain ⟨m', hm', rfl | rfl⟩ := hcases m hm
  · exact hd.predeclared m hm'
  · exact hd.predeclared m' hm'
  · exact hd.globals m hm' x hx
  · rcases Array.mem_or_eq_of_mem_setIfInBounds hx with hx | hx
    · exact hd.globals m' hm' x hx
    · exact Option.some.inj hx ▸ hv

end Heap.Discreet

/-! ## Computations -/

/-- A computation gives, if anything, a value that scripts may see. -/
def Reveals (x : Except Error Value) : Prop := ∀ v, x = .ok v → v.Visible

namespace Reveals

theorem ok {v : Value} (hv : v.Visible) : Reveals (.ok v) := by
  rintro _ ⟨⟩
  exact hv

theorem error (e : Error) : Reveals (.error e) := nofun

theorem map {α : Type} (x : Except Error α) {f : α → Value} (hf : ∀ a, (f a).Visible) :
    Reveals (x.map f) := by
  cases x with
  | error e => exact .error e
  | ok a => exact .ok (hf a)

end Reveals

theorem reveals_intResult (n : Option Int64) : Reveals (intResult n) := by
  cases n with
  | none => exact .error _
  | some n => exact .ok trivial

theorem reveals_floatOp (op : BinOp) (f : Float → Float → Except Error Float) (x y : Value) :
    Reveals (floatOp op f x y) := by
  unfold floatOp
  split
  · exact .map _ fun _ => trivial
  · exact .error _

/-- An operator on integers reveals what its cases reveal. -/
theorem reveals_intOp (op : BinOp) {f : Int64 → Int64 → Except Error Value}
    (hf : ∀ a b, Reveals (f a b)) (x y : Value) : Reveals (intOp op f x y) := by
  unfold intOp
  split
  · exact hf _ _
  · exact .error _

theorem reveals_minus (x y : Value) : Reveals (minus x y) := by
  unfold minus
  split
  · exact reveals_intResult _
  · exact reveals_floatOp _ _ _ _

theorem reveals_floorDivide (x y : Value) : Reveals (floorDivide x y) := by
  unfold floorDivide
  split
  · split
    · exact .error _
    · exact reveals_intResult _
  · exact reveals_floatOp _ _ _ _

theorem reveals_modulo (x y : Value) : Reveals (modulo x y) := by
  unfold modulo
  split
  · split
    · exact .error _
    · exact .ok trivial
  · exact reveals_floatOp _ _ _ _

theorem reveals_shiftLeft (a b : Int64) : Reveals (shiftLeft a b) := by
  unfold shiftLeft
  split
  · exact .error _
  · exact reveals_intResult _

theorem reveals_shiftRight (a b : Int64) : Reveals (shiftRight a b) := by
  unfold shiftRight
  split
  · exact .error _
  · exact .ok trivial

/-- No unary operator gives a part of a function. -/
theorem reveals_unary (h : Heap) (op : UnaryOp) (x : Value) : Reveals (h.unary op x) := by
  unfold Heap.unary
  split
  · exact .ok trivial
  · exact .ok trivial
  · exact .ok trivial
  · exact reveals_intResult _
  · exact .ok trivial
  · exact .ok trivial
  · exact .error _

/-- An element that is picked by index is one of the elements. -/
theorem mem_of_elementAt {α : Type} {x : Kind} {elems : Array α} {y : Value} {v : α}
    (h : elementAt x elems y = .ok v) : v ∈ elems := by
  unfold elementAt at h
  -- the index may not be a number, or may lie outside
  cases hi : indexInt x y with
  | error e =>
    rw [hi] at h
    cases h
  | ok i =>
    rw [hi] at h
    cases hj : resolveIndex i elems.size with
    | error e =>
      simp only [bind, Except.bind, hj] at h
      cases h
    | ok j =>
      simp only [bind, Except.bind, hj] at h
      split at h
      · rename_i w hw
        cases h
        exact Array.mem_of_getElem? hw
      · cases h

/-- What a dict gives for a key is the value of one of its entries. -/
theorem mem_of_dictGet {h : Heap} {r : DictRef} {k v : Value}
    (hget : h.dictGet r k = .ok (some v)) :
    ∃ e ∈ (h.dict r).entries, e.2 = v := by
  unfold Heap.dictGet at hget
  cases hk : k.checkHashable with
  | error e =>
    rw [hk] at hget
    cases hget
  | ok _ =>
    rw [hk] at hget
    obtain ⟨e, he, hv⟩ := Option.map_eq_some_iff.1 (Except.ok.inj hget)
    exact ⟨e, Array.mem_of_find?_eq_some he, hv⟩

/-- Indexing a visible value gives a visible one. -/
theorem Heap.Discreet.reveals_getIndex {h : Heap} (hd : h.Discreet) {x : Value} (hx : x.Visible)
    (y : Value) : Reveals (h.getIndex x y) := by
  unfold Heap.getIndex
  split
  · exact fun v hv => hd.list _ v (mem_of_elementAt hv)
  · exact fun v hv => Value.visible_tuple.1 hx v (by simpa using mem_of_elementAt hv)
  · exact .map _ fun _ => trivial
  · exact .map _ fun _ => trivial
  · rename_i r
    intro v hv
    cases hget : h.dictGet r y with
    | error e =>
      rw [hget] at hv
      cases hv
    | ok w =>
      rw [hget] at hv
      cases w with
      | none => cases hv
      | some w =>
        cases hv
        obtain ⟨e, he, rfl⟩ := mem_of_dictGet hget
        exact (hd.dict r e he).2
  · exact .error _

/-! ## Operations -/

/-- On a discreet heap, an operation leaves a discreet heap, and its result has a property. -/
def Op.Discreet {α : Type} (Q : α → Prop) (m : Op α) : Prop :=
  ∀ h : Heap, h.Discreet → match m h with
    | .ok a h' => h'.Discreet ∧ Q a
    | .error _ h' => h'.Discreet

namespace Op

namespace Discreet

variable {α β : Type} {Q : α → Prop} {P : β → Prop}

/-- A discreet operation that succeeds leaves a discreet heap, and its result is as claimed. -/
theorem ok {m : Op α} (hm : Discreet Q m) {h h' : Heap} (hd : h.Discreet) {a : α}
    (he : m h = .ok a h') : h'.Discreet ∧ Q a := by
  have hmh := hm h hd
  rw [he] at hmh
  exact hmh

/-- A discreet operation that fails leaves a discreet heap as well. -/
theorem error {m : Op α} (hm : Discreet Q m) {h h' : Heap} (hd : h.Discreet) {e : Stop}
    (he : m h = .error e h') : h'.Discreet := by
  have hmh := hm h hd
  rw [he] at hmh
  exact hmh

theorem pure {a : α} (hq : Q a) : Discreet Q (pure a : Op α) := fun _ hd => ⟨hd, hq⟩

/-- Discreet operations in sequence: the second one may rely on what the first one gives. -/
theorem bind {m : Op α} {f : α → Op β} (hm : Discreet Q m) (hf : ∀ a, Q a → Discreet P (f a)) :
    Discreet P (m >>= f) := by
  intro h hd
  simp only [Bind.bind, EStateM.bind]
  cases hmh : m h with
  | error e h' => exact hm.error hd hmh
  | ok a h' =>
    have h1 := hm.ok hd hmh
    have h2 := hf a h1.2 h' h1.1
    cases hfa : f a h' with
    | error e h'' =>
      simp only [hfa] at h2 ⊢
      exact h2
    | ok b h'' =>
      simp only [hfa] at h2 ⊢
      exact h2

/-- An operation that is discreet with one result claimed is so with a weaker claim. -/
theorem mono {m : Op α} {Q' : α → Prop} (hm : Discreet Q m) (hq : ∀ a, Q a → Q' a) :
    Discreet Q' m := by
  intro h hd
  cases hmh : m h with
  | error e h' => exact hm.error hd hmh
  | ok a h' => exact ⟨(hm.ok hd hmh).1, hq a (hm.ok hd hmh).2⟩

theorem map {m : Op α} (hm : Discreet Q m) {f : α → β} (hf : ∀ a, Q a → P (f a)) :
    Discreet P (f <$> m) := by
  intro h hd
  simp only [Functor.map, EStateM.map]
  cases hmh : m h with
  | error e h' => exact hm.error hd hmh
  | ok a h' => exact ⟨(hm.ok hd hmh).1, hf a (hm.ok hd hmh).2⟩

theorem throw (e : Stop) : Discreet Q (throw e : Op α) := fun _ hd => hd

/-- Fail in one case and go on otherwise. -/
theorem guarded {p : Prop} [Decidable p] {e : Stop} {k : PUnit → Op α} (hk : Discreet Q (k ())) :
    Discreet Q (if p then MonadExcept.throw e >>= k else k ()) := by
  split
  · exact fun _ hd => hd
  · exact hk

/-- What is read from a discreet heap may be claimed with the heap as evidence. -/
theorem read {f : Heap → α} (hf : ∀ h : Heap, h.Discreet → Q (f h)) : Discreet Q (Op.read f) :=
  fun h hd => ⟨hd, hf h hd⟩

theorem check {f : Heap → Except Error α} (hf : ∀ h : Heap, h.Discreet → ∀ a, f h = .ok a → Q a) :
    Discreet Q (Op.check f) := by
  intro h hd
  unfold Op.check
  cases hfh : f h with
  | ok a => exact ⟨hd, hf h hd a hfh⟩
  | error e => exact hd

/-- What is checked without looking at the result. -/
theorem test (f : Heap → Except Error α) : Discreet (fun _ => True) (Op.check f) :=
  check fun _ _ _ _ => trivial

/-- What is read without looking at it. -/
theorem look (f : Heap → α) : Discreet (fun _ => True) (Op.read f) := read fun _ _ => trivial

/-- An operation that makes an object is discreet if the heap it leaves is. -/
theorem make {f : Heap → α × Heap} (hf : ∀ h : Heap, h.Discreet → (f h).2.Discreet ∧ Q (f h).1) :
    Discreet Q (Op.make f) := hf

theorem modify {f : Heap → Heap} (hf : ∀ h : Heap, h.Discreet → (f h).Discreet) :
    Discreet (fun _ => True) (modify f : Op PUnit) := fun h hd => ⟨hf h hd, trivial⟩

/-- A list of visible elements may be made. -/
theorem newList {elems : Heap → Array Value}
    (helems : ∀ h : Heap, h.Discreet → ∀ v ∈ elems h, v.Visible) :
    Discreet Value.Visible (Op.make fun h => h.newList (elems h)) :=
  make fun h hd => ⟨hd.newList (helems h hd), trivial⟩

end Discreet

/-- What is left of an iterator over a visible value is visible. -/
theorem discreet_drain {v : Value} (hv : v.Visible) :
    Discreet (fun r => ∀ elems, r = some elems → ∀ x ∈ elems, x.Visible) (drain v) := by
  intro h hd
  rw [drain_eq]
  exact ⟨hd, fun elems he => hd.elements? hv he⟩

/-! ### Changing lists and dicts -/

theorem discreet_append (r : ListRef) {v : Value} (hv : v.Visible) :
    Discreet (fun _ => True) (append r v) :=
  (Discreet.test _).bind fun _ _ => .modify fun _ hd =>
    hd.modifyList r fun _ hl => forall_mem_push hl hv

/-- Extending reads the elements of a visible value, so they may be appended. -/
theorem discreet_extend (r : ListRef) {v : Value} (hv : v.Visible) :
    Discreet (fun _ => True) (extend r v) := by
  refine (Discreet.test _).bind fun _ _ => (discreet_drain hv).bind fun elems helems => ?_
  cases elems with
  | none => exact .throw _
  | some items =>
    refine .modify fun h hd => hd.modifyList r fun l hl x hx => ?_
    have hx : x ∈ (l.elems ++ items).toList := Array.mem_toList_iff.2 hx
    rw [Array.toList_appendList] at hx
    rcases List.mem_append.1 hx with hx | hx
    · exact hl x (Array.mem_toList_iff.1 hx)
    · exact helems items rfl x hx

theorem discreet_insert (r : DictRef) {k v : Value} (hk : k.Visible) (hv : v.Visible) :
    Discreet (fun _ => True) (insert r k v) := by
  refine (Discreet.test _).bind fun _ _ => (Discreet.test _).bind fun _ _ =>
    (Discreet.look _).bind fun _ _ => ?_
  refine (Discreet.modify fun h hd => hd.modifyDict r fun d hentries => ?_).bind fun _ _ =>
    .pure trivial
  unfold DictObj.insert
  split
  · exact forall_mem_modify (f := fun e => (e.1, v)) hentries (fun e he => ⟨he.1, hv⟩) _
  · exact forall_mem_push hentries ⟨hk, hv⟩

/-- Visible entries may be inserted, one after another. -/
theorem discreet_insertAll (r : DictRef) {es : List (Value × Value)}
    (hes : ∀ e ∈ es, e.1.Visible ∧ e.2.Visible) : Discreet (fun _ => True) (insertAll r es) := by
  induction es with
  | nil => exact .pure trivial
  | cons e es ih =>
    obtain ⟨he, hes⟩ := List.forall_mem_cons.1 hes
    exact (discreet_insert r he.1 he.2).bind fun _ _ => ih hes

/-- The entries of a dict are read. -/
theorem discreet_entries (r : DictRef) :
    Discreet (fun es => ∀ e ∈ es, e.1.Visible ∧ e.2.Visible)
      (read fun h => (h.dict r).entries.toList) :=
  .read fun _ hd e he => hd.dict r e (Array.mem_toList_iff.1 he)

theorem discreet_update (r other : DictRef) : Discreet (fun _ => True) (update r other) :=
  (Discreet.test _).bind fun _ _ => (discreet_entries other).bind fun _ hes =>
    discreet_insertAll r hes

/-! ### Indexing, slicing and attributes -/

theorem discreet_setIndex (x : Value) {y z : Value} (hy : y.Visible) (hz : z.Visible) :
    Discreet (fun _ => True) (setIndex x y z) := by
  unfold setIndex
  split
  · rename_i r
    refine (Discreet.test _).bind fun _ _ => (Discreet.test _).bind fun i _ => ?_
    refine .modify fun h hd => hd.modifyList r fun l hl v hv => ?_
    rcases Array.mem_or_eq_of_mem_setIfInBounds hv with hv | rfl
    · exact hl v hv
    · exact hz
  · exact (discreet_insert _ hy hz).bind fun _ _ => .pure trivial
  · exact .throw _

/-- Everything is found for a list exactly if something is found for each of its elements. -/
theorem mapM_eq_some_iff {α β : Type} {f : α → Option β} {xs : List α} {ys : List β} :
    xs.mapM f = some ys ↔ List.Forall₂ (fun x y => f x = some y) xs ys := by
  induction xs generalizing ys with
  | nil => simp [eq_comm]
  | cons x xs ih =>
    rw [List.mapM_cons, List.forall₂_cons_left_iff]
    simp only [← ih, Option.bind_eq_bind, Option.bind_eq_some_iff, Option.pure_def,
      Option.some.injEq]
    constructor
    · rintro ⟨y, hy, rest, hrest, rfl⟩
      exact ⟨y, rest, hy, hrest, rfl⟩
    · rintro ⟨y, rest, hy, hrest, rfl⟩
      exact ⟨y, hy, rest, hrest, rfl⟩

/-- A slice has elements of what it is a slice of, and no others. -/
theorem mem_of_sliceOf {α : Type} {elems : Array α} {lo hi : Option Int64} {step : Int64}
    {hstep : step ≠ 0} {picked : List α} (h : sliceOf elems lo hi hstep = some picked) :
    ∀ x ∈ picked, x ∈ elems := by
  obtain ⟨places, -, hplaces⟩ := Option.bind_eq_some_iff.1 h
  rw [mapM_eq_some_iff] at hplaces
  clear h
  generalize places.toList = is at hplaces
  induction hplaces with
  | nil => nofun
  | cons hx _ ih => exact List.forall_mem_cons.2 ⟨Array.mem_of_getElem? hx, ih⟩

theorem discreet_sliced {α : Type} (elems : Array α) (lo hi : Option Int64) {step : Int64}
    (hstep : step ≠ 0) :
    Discreet (fun picked => ∀ x ∈ picked, x ∈ elems) (sliced elems lo hi hstep) := by
  unfold sliced
  split
  · rename_i picked hpicked
    exact .pure (mem_of_sliceOf hpicked)
  · exact .throw _

/-- A slice of a visible value is visible. -/
theorem discreet_sliceBy {x : Value} (hx : x.Visible) (lo hi : Option Int64) {step : Int64}
    (hstep : step ≠ 0) : Discreet Value.Visible (sliceBy x lo hi hstep) := by
  unfold sliceBy
  split
  · rename_i r
    refine Discreet.bind (.read (Q := fun es => ∀ v ∈ es, v.Visible) fun h hd => hd.list r)
      fun es hes => (discreet_sliced es lo hi hstep).bind fun picked hpicked =>
        .newList fun h _ v hv => ?_
    exact hes v (hpicked v (by simpa using hv))
  · refine (discreet_sliced _ lo hi hstep).bind fun picked hpicked => .pure ?_
    exact Value.visible_tuple.2 fun v hv => Value.visible_tuple.1 hx v (by simpa using hpicked v hv)
  · exact (discreet_sliced _ lo hi hstep).bind fun _ _ => .pure trivial
  · exact (discreet_sliced _ lo hi hstep).bind fun _ _ => .pure trivial
  · exact .throw _

theorem discreet_slice {x : Value} (hx : x.Visible) (lo hi step : Value) :
    Discreet Value.Visible (slice x lo hi step) := by
  refine (Discreet.test _).bind fun s _ => ?_
  dsimp only
  split
  · exact .throw _
  · rename_i hstep
    exact (Discreet.test _).bind fun lo _ => (Discreet.test _).bind fun hi _ =>
      discreet_sliceBy hx lo hi hstep

/-- A method of a visible value keeps that value, and shows nothing else. -/
theorem discreet_getAttr {x : Value} (hx : x.Visible) (name : String) :
    Discreet Value.Visible (getAttr x name) := by
  have hmethod : Discreet (fun r => ∀ v, r = some v → v.Visible) (method? x name) := by
    unfold method?
    split
    · refine Discreet.map (Discreet.make (Q := Value.Visible) fun h hd =>
        ⟨hd.newBuiltin _ fun v hv => Option.some.inj hv ▸ hx, trivial⟩) fun v hv w hw => ?_
      exact Option.some.inj hw ▸ hv
    · exact .pure nofun
  refine hmethod.bind fun v hv => ?_
  cases v with
  | none => exact .throw _
  | some v => exact .pure (hv v rfl)

/-! ### Operators -/

/-- What is computed without changing the heap. -/
theorem Discreet.of_reveals {f : Heap → Except Error Value}
    (hf : ∀ h : Heap, h.Discreet → Reveals (f h)) : Discreet Value.Visible (Op.check f) :=
  .check fun h hd v hv => hf h hd v hv

/-- The sum of visible values is visible. -/
theorem discreet_plus {x y : Value} (hx : x.Visible) (hy : y.Visible) :
    Discreet Value.Visible (plus x y) := by
  unfold plus
  split
  · exact .of_reveals fun _ _ => reveals_intResult _
  · exact .pure trivial
  · exact .pure trivial
  · refine .newList fun h hd v hv => ?_
    rcases Array.mem_append.1 hv with hv | hv
    · exact hd.list _ v hv
    · exact hd.list _ v hv
  · rename_i a b
    exact .pure (Value.visible_tuple.2 (List.forall_mem_append.2
      ⟨Value.visible_tuple.1 hx, Value.visible_tuple.1 hy⟩))
  · exact .of_reveals fun _ _ => reveals_floatOp _ _ _ _

/-- Repetition adds no elements of its own. -/
theorem mem_repeated {α : Type} {xs : List α} {n : Nat} {x : α} (h : x ∈ repeated xs n) :
    x ∈ xs := by
  unfold repeated at h
  split at h
  · cases h
  · obtain ⟨ys, hys, hx⟩ := List.mem_flatten.1 h
    rwa [(List.mem_replicate.1 hys).2] at hx

theorem discreet_times {x : Value} (hx : x.Visible) (n : Int64) :
    Discreet Value.Visible (times x n) := by
  unfold times
  split
  · exact (Discreet.test _).bind fun _ _ => .pure trivial
  · exact (Discreet.test _).bind fun _ _ => .pure trivial
  · rename_i r
    refine Discreet.bind (.read (Q := fun es => ∀ v ∈ es, v.Visible) fun h hd => hd.list r)
      fun es hes => (Discreet.test _).bind fun n _ => .newList fun h _ v hv => ?_
    exact hes v (by simpa using mem_repeated (List.mem_toArray.1 hv))
  · refine (Discreet.test _).bind fun n _ => .pure (Value.visible_tuple.2 fun v hv => ?_)
    exact Value.visible_tuple.1 hx v (mem_repeated hv)
  · exact .throw _

theorem discreet_star {x y : Value} (hx : x.Visible) (hy : y.Visible) :
    Discreet Value.Visible (star x y) := by
  unfold star
  split
  · exact .of_reveals fun _ _ => reveals_intResult _
  all_goals first
    | exact discreet_times hx _
    | exact discreet_times hy _
    | exact .of_reveals fun _ _ => reveals_floatOp _ _ _ _

theorem discreet_pipe (x y : Value) : Discreet Value.Visible (pipe x y) := by
  unfold pipe
  split
  · refine Discreet.bind (.read (Q := fun es => ∀ e ∈ es, e.1.Visible ∧ e.2.Visible)
      fun h hd e he => ?_) fun entries hentries => ?_
    · rcases List.mem_append.1 he with he | he
      · exact hd.dict _ e (Array.mem_toList_iff.1 he)
      · exact hd.dict _ e (Array.mem_toList_iff.1 he)
    · refine Discreet.bind (.make (Q := fun _ => True) fun h hd =>
        ⟨hd.newDict fun e he => absurd he (Array.not_mem_empty e), trivial⟩) fun r _ => ?_
      exact (discreet_insertAll r hentries).bind fun _ _ => .pure trivial
  · exact .of_reveals fun _ _ => reveals_intOp _ (fun _ _ => .ok (Value.visible_int _)) x y

/-- No operator takes a part of a function out of visible values. -/
theorem discreet_binary (op : BinOp) {x y : Value} (hx : x.Visible) (hy : y.Visible) :
    Discreet Value.Visible (binary op x y) := by
  cases op with
  | eq | ne | lt | gt | le | ge => exact .of_reveals fun _ _ => .map _ fun _ => trivial
  | isIn | notIn => exact .of_reveals fun _ _ => .map _ fun _ => trivial
  | plus => exact discreet_plus hx hy
  | minus => exact .of_reveals fun _ _ => reveals_minus x y
  | star => exact discreet_star hx hy
  | slash => exact .of_reveals fun _ _ => reveals_floatOp _ _ x y
  | slashSlash => exact .of_reveals fun _ _ => reveals_floorDivide x y
  | percent => exact .of_reveals fun _ _ => reveals_modulo x y
  | amp | circumflex =>
    exact .of_reveals fun _ _ => reveals_intOp _ (fun _ _ => .ok (Value.visible_int _)) x y
  | pipe => exact discreet_pipe x y
  | ltLt => exact .of_reveals fun _ _ => reveals_intOp _ reveals_shiftLeft x y
  | gtGt => exact .of_reveals fun _ _ => reveals_intOp _ reveals_shiftRight x y
  | and | or => exact .throw _

theorem discreet_inplaceAdd {x y : Value} (hx : x.Visible) (hy : y.Visible) :
    Discreet Value.Visible (inplaceAdd x y) := by
  unfold inplaceAdd
  split
  · split
    · exact (Discreet.test _).bind fun _ _ => (discreet_extend _ hy).bind fun _ _ => .pure hx
    · exact discreet_plus hx hy
  · exact discreet_plus hx hy

theorem discreet_inplacePipe (x y : Value) : Discreet Value.Visible (inplacePipe x y) := by
  unfold inplacePipe
  split
  · exact (discreet_update _ _).bind fun _ _ => .pure trivial
  · exact discreet_pipe x y

/-! ### Builtins -/

theorem discreet_elementsArgument (b : BuiltinOp) {v : Value} (hv : v.Visible) :
    Discreet (fun elems => ∀ x ∈ elems, x.Visible) (elementsArgument b v) := by
  refine (discreet_drain hv).bind fun elems helems => ?_
  cases elems with
  | none => exact .throw _
  | some elems => exact .pure (helems elems rfl)

/-- The pairs that `dict` gets are taken apart and inserted. -/
theorem discreet_insertPairs (r : DictRef) (i : Nat) {items : List Value}
    (hitems : ∀ v ∈ items, v.Visible) : Discreet (fun _ => True) (insertPairs r i items) := by
  induction items generalizing i with
  | nil => exact .pure trivial
  | cons item items ih =>
    obtain ⟨hitem, hitems⟩ := List.forall_mem_cons.1 hitems
    refine (discreet_elementsArgument .dict hitem).bind fun elems helems => ?_
    split
    · obtain ⟨hk, hv⟩ := List.forall_mem_cons.1 helems
      exact (discreet_insert r hk (List.forall_mem_singleton.1 hv)).bind fun _ _ =>
          ih (i + 1) hitems
    · exact .throw _

theorem discreet_makeDict {args : List Value} (hargs : ∀ v ∈ args, v.Visible) {kwargs : Keywords}
    (hkwargs : Env.Visible kwargs) : Discreet Value.Visible (makeDict args kwargs) := by
  unfold makeDict
  refine Discreet.guarded ?_
  refine Discreet.bind (.make (Q := fun _ => True) fun h hd =>
    ⟨hd.newDict fun e he => absurd he (Array.not_mem_empty e), trivial⟩) fun r _ => ?_
  have hrest : Discreet Value.Visible (do
      insertAll r (kwargs.map fun k => (.str k.1, k.2))
      return Value.dict r) := by
    refine (discreet_insertAll r fun e he => ?_).bind fun _ _ => .pure trivial
    obtain ⟨k, hk, rfl⟩ := List.mem_map.1 he
    exact ⟨trivial, hkwargs k hk⟩
  split
  · exact (discreet_entries _).bind fun _ hes => (discreet_insertAll r hes).bind fun _ _ => hrest
  · obtain ⟨hv, -⟩ := List.forall_mem_cons.1 hargs
    exact (discreet_elementsArgument .dict hv).bind fun _ hes =>
      (discreet_insertPairs r 0 hes).bind fun _ _ => hrest
  · exact hrest

/-- The first argument is visible, or there is none. -/
theorem visible_headD {args : List Value} (hargs : ∀ v ∈ args, v.Visible) :
    (args.headD .null).Visible := by
  cases args with
  | nil => trivial
  | cons v args => exact hargs v List.mem_cons_self

/-- The elements of a range are integers. -/
theorem visible_rangeElements {start stop step : Int64} {elems : List Value}
    (h : rangeElements start stop step = .ok elems) : ∀ v ∈ elems, v.Visible := by
  unfold rangeElements at h
  split at h
  · cases h
  · dsimp only at h
    split at h
    · cases h
    · cases h
      intro v hv
      obtain ⟨i, -, rfl⟩ := List.mem_map.1 hv
      trivial

/-- No builtin of the standard library reveals a part of a function. -/
theorem discreet_callStandard (b : BuiltinObj) {args : List Value} (hargs : ∀ v ∈ args, v.Visible)
    {kwargs : Keywords} (hkwargs : Env.Visible kwargs) :
    Discreet Value.Visible (callStandard b args kwargs) := by
  have hread : ∀ {α : Type} (f : Heap → α), Discreet (fun _ => True) (read f) :=
    fun f => .read fun _ _ => trivial
  unfold callStandard
  -- a built-in hands on what it was given or finds in the receiver, all of which is visible
  cases b.op with
  | bool =>
    refine (Discreet.test _).bind fun _ _ => ?_
    split
    · exact (hread _).bind fun _ _ => .pure trivial
    · exact .pure trivial
  | dict => exact discreet_makeDict hargs hkwargs
  | len =>
    refine (Discreet.test _).bind fun _ _ => (hread _).bind fun n _ => ?_
    cases n with
    | none => exact .throw _
    | some n => exact .pure trivial
  | list =>
    refine (Discreet.test _).bind fun _ _ => ?_
    split
    · refine (discreet_elementsArgument _ (hargs _ List.mem_cons_self)).bind fun elems helems =>
        .newList fun _ _ v hv => helems v (by simpa using hv)
    · exact .newList fun _ _ v hv => absurd hv (Array.not_mem_empty v)
  | range =>
    refine (Discreet.test _).bind fun _ _ => (Discreet.test _).bind fun bounds _ => ?_
    exact Discreet.bind (.check fun _ _ elems he => visible_rangeElements he)
      fun elems helems => .newList fun _ _ v hv => helems v (by simpa using hv)
  | repr | str =>
    exact (Discreet.test _).bind fun _ _ => (hread _).bind fun _ _ => .pure trivial
  | tuple =>
    refine (Discreet.test _).bind fun _ _ => ?_
    split
    · exact (discreet_elementsArgument _ (hargs _ List.mem_cons_self)).bind fun _ helems =>
        .pure (Value.visible_tuple.2 helems)
    · exact .pure (Value.visible_tuple.2 fun v hv => absurd hv List.not_mem_nil)
  | type => exact (Discreet.test _).bind fun _ _ => .pure trivial
  | append =>
    exact (Discreet.test _).bind fun _ _ => (Discreet.test _).bind fun r _ =>
      (discreet_append r (visible_headD hargs)).bind fun _ _ => .pure trivial
  | extend =>
    exact (Discreet.test _).bind fun _ _ => (Discreet.test _).bind fun r _ =>
      (discreet_extend r (visible_headD hargs)).bind fun _ _ => .pure trivial
  | get =>
    refine (Discreet.test _).bind fun _ _ => (Discreet.test _).bind fun r _ => ?_
    refine Discreet.bind (.check (Q := fun v => ∀ w, v = some w → w.Visible) fun h hd v hv => ?_)
      fun v hv => ?_
    · rintro w rfl
      obtain ⟨e, he, rfl⟩ := mem_of_dictGet hv
      exact (hd.dict r e he).2
    · cases v with
      | none => exact .pure (visible_headD fun v hv => hargs v (List.mem_of_mem_tail hv))
      | some v => exact .pure (hv v rfl)
  | keys =>
    refine (Discreet.test _).bind fun _ _ => (Discreet.test _).bind fun r _ =>
      .newList fun h hd v hv => ?_
    obtain ⟨e, he, rfl⟩ := Array.mem_map.1 hv
    exact (hd.dict r e he).1
  | items =>
    refine (Discreet.test _).bind fun _ _ => (Discreet.test _).bind fun r _ =>
      .newList fun h hd v hv => ?_
    obtain ⟨e, he, rfl⟩ := Array.mem_map.1 hv
    exact Value.visible_tuple.2 (by simpa using hd.dict r e he)
  | print => exact (Discreet.test _).bind fun _ _ => .pure trivial
  | _ => exact .pure trivial

end Op

end Starlark
