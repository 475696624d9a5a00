import Starlark.Proofs.Direct.Preservation
import Starlark.Proofs.Lower.Spines

/-!
# Folded sums

What a sum does is said by what its leaves do: the summands that are neither literals nor displays,
and the elements of the displays. A leaf may do anything, such as call a function, so that it has a
`Behaviour`, the results that are possible from a scene.

The code of a sum does what the sum with its neighbouring displays joined does, evaluated strictly
from the left (`Lowering.sum_strict`). That string and bytes literals are joined as well changes
nothing. That displays are joined does: the elements of the second come before the first is added,
and so they can change what it is added to (`SourceFile.folding_growing`).
-/

set_option autoImplicit false

namespace Starlark

open Relation (ReflTransGen)

/-! ## Behaviours -/

/-- The results that are possible from a scene. -/
def Behaviour (α : Type) : Type := Scene → EStateM.Result Exit Scene α → Prop

namespace Behaviour

variable {α β : Type}

/-- An evaluation has one result. -/
def of (m : Eval α) : Behaviour α := fun s r => r = m s

/-- What is possible after a result. -/
inductive After (k : α → Behaviour β) :
    EStateM.Result Exit Scene α → EStateM.Result Exit Scene β → Prop where
  | ok {a : α} {s : Scene} {r : EStateM.Result Exit Scene β} (h : k a s r) : After k (.ok a s) r
  | error (e : Exit) (s : Scene) : After k (.error e s) (.error e s)

instance : Monad Behaviour where
  pure a := of (pure a)
  bind b k := fun s r => ∃ r₀, b s r₀ ∧ After k r₀ r

theorem pure_eq (a : α) : (pure a : Behaviour α) = of (pure a) := rfl

theorem bind_iff {b : Behaviour α} {k : α → Behaviour β} {s : Scene}
    {r : EStateM.Result Exit Scene β} : (b >>= k) s r ↔ ∃ r₀, b s r₀ ∧ After k r₀ r := Iff.rfl

theorem after_pure {r r' : EStateM.Result Exit Scene α} :
    After (pure : α → Behaviour α) r r' ↔ r' = r := by
  constructor
  · rintro (h | _)
    · exact h
    · rfl
  · rintro rfl
    cases r' with
    | ok a s => exact .ok rfl
    | error e s => exact .error e s

protected theorem bind_pure (b : Behaviour α) : b >>= pure = b := by
  funext s r
  simp only [bind_iff, after_pure, exists_eq_right']

protected theorem pure_bind (a : α) (k : α → Behaviour β) : pure a >>= k = k a := by
  funext s r
  refine propext ⟨?_, fun h => ⟨_, rfl, .ok h⟩⟩
  rintro ⟨_, rfl, h⟩
  cases h with
  | ok h => exact h

protected theorem bind_assoc {γ : Type} (b : Behaviour α) (k : α → Behaviour β)
    (l : β → Behaviour γ) : b >>= k >>= l = b >>= fun a => k a >>= l := by
  funext s r
  apply propext
  constructor
  · rintro ⟨r₁, ⟨r₀, hb, hk⟩, hl⟩
    cases hk with
    | ok hk => exact ⟨_, hb, .ok ⟨_, hk, hl⟩⟩
    | error e s =>
      cases hl
      exact ⟨_, hb, .error e s⟩
  · rintro ⟨r₀, hb, hk⟩
    cases hk with
    | ok hk =>
      obtain ⟨r₁, hk, hl⟩ := hk
      exact ⟨r₁, ⟨_, hb, .ok hk⟩, hl⟩
    | error e s => exact ⟨_, ⟨_, hb, .error e s⟩, .error e s⟩

instance : LawfulMonad Behaviour :=
  LawfulMonad.mk' Behaviour Behaviour.bind_pure Behaviour.pure_bind Behaviour.bind_assoc

/-- The behaviour of a sequence. -/
theorem of_bind (m : Eval α) (k : α → Eval β) : of (m >>= k) = of m >>= fun a => of (k a) := by
  funext s r
  refine propext ⟨fun h => ⟨_, rfl, ?_⟩, ?_⟩
  · subst h
    rw [bind_apply]
    cases m s with
    | ok a s => exact .ok rfl
    | error e s => exact .error e s
  · rintro ⟨_, rfl, h⟩
    show r = (m >>= k) s
    rw [bind_apply]
    generalize m s = r₀ at h
    cases h with
    | ok h => exact h
    | error e s => rfl

/-- Expressions one after another. -/
def all (leaf : Expr → Behaviour Value) : List Expr → Behaviour (List Value)
  | [] => return []
  | x :: rest => do
    let v ← leaf x
    let vs ← all leaf rest
    return v :: vs

/-- Values are found from the left. -/
theorem all_append (leaf : Expr → Behaviour Value) (xs ys : List Expr) :
    all leaf (xs ++ ys) = (do
      let us ← all leaf xs
      let vs ← all leaf ys
      return us ++ vs) := by
  induction xs with
  | nil => simp only [List.nil_append, all, pure_bind, bind_pure]
  | cons x xs ih => simp only [List.cons_append, all, ih, bind_assoc, pure_bind]

/-- The sum of two values. -/
def plus (u v : Value) : Behaviour Value := of (Eval.op (Op.binary .plus u v))

end Behaviour

/-! ## What a spine does -/

section

variable (leaf : Expr → Behaviour Value)

/-- What a summand does. -/
def Summand.value : Summand → Behaviour Value
  | .str s => return .str s
  | .bytes b => return .bytes b
  | .list xs => do
    let vs ← Behaviour.all leaf xs
    Behaviour.of (Eval.op (Op.make fun h => h.newList vs.toArray))
  | .tuple xs => do
    let vs ← Behaviour.all leaf xs
    return .tuple vs
  | .other x => leaf x

/-- Further summands are added to a value. -/
def Spine.addTo : Value → List (Position × Summand) → Behaviour Value
  | u, [] => return u
  | u, (_, y) :: rest => do
    let v ← y.value leaf
    let w ← Behaviour.plus u v
    addTo w rest

/-- What a spine does: strictly from the left. -/
def Spine.sum (c : Spine) : Behaviour Value := do
  let u ← c.first.value leaf
  addTo leaf u c.rest

/-- What nested sums do: first the left operand, then the right one, then the addition. -/
def Expr.nested : Expr → Behaviour Value
  | .paren x => x.nested
  | .binary .plus x y _ => do
    let u ← x.nested
    let v ← y.summand.value leaf
    Behaviour.plus u v
  | x => x.summand.value leaf

end

/-- The leaves of a summand. -/
def Summand.leaves : Summand → List Expr
  | .str _ | .bytes _ => []
  | .list xs | .tuple xs => xs
  | .other x => [x]

/-- The leaves of a spine. -/
def Spine.leaves (c : Spine) : List Expr :=
  c.first.leaves ++ c.rest.flatMap fun y => y.2.leaves

namespace Spine

variable {leaf : Expr → Behaviour Value}

/-- A sum may be computed in two goes. -/
theorem addTo_append (u : Value) (rest rest' : List (Position × Summand)) :
    addTo leaf u (rest ++ rest') = addTo leaf u rest >>= fun w => addTo leaf w rest' := by
  induction rest generalizing u with
  | nil => simp only [List.nil_append, addTo, pure_bind]
  | cons y rest ih => simp only [List.cons_append, addTo, ih, bind_assoc]

/-- The spine of an expression is its nested sums. -/
theorem sum_spine (x : Expr) : x.spine.sum leaf = x.nested leaf := by
  match x with
  | .paren x => exact sum_spine x
  | .binary o x y pos =>
    cases o with
    | plus =>
      have hx := sum_spine x
      rw [sum] at hx
      simp only [sum, Expr.spine, addTo_append, ← bind_assoc, hx, Expr.nested, addTo, bind_pure]
    | _ => exact bind_pure _
  | .unary _ _ _ | .literal _ _ | .ident _ | .dict _ | .cond _ _ _ | .index _ _ _ | .slice _ _ _ _ _
  | .dot _ _ _ | .call _ _ _ | .comprehension _ _ | .lambda _ | .list _ | .tuple _ =>
    exact bind_pure _

/-! ## Joining literals -/

/-- The last summand is the only one, or it is added to a value. -/
inductive Onto : (Value → Behaviour Value) → Prop where
  | first : Onto pure
  | further (u : Value) : Onto (Behaviour.plus u)

/-- A text may be joined before it is added, since adding texts is associative. -/
theorem Onto.str_append {k : Value → Behaviour Value} (hk : Onto k) (a b : String) :
    (do let u ← k (.str a); Behaviour.plus u (.str b)) = k (.str (a ++ b)) := by
  cases hk with
  | first => exact pure_bind _ _
  | further u =>
    rw [Behaviour.plus, Behaviour.plus, ← (Adding.further ⟨0, 0⟩ u).str_append, Behaviour.of_bind]
    rfl

/-- Bytes may be joined before they are added. -/
theorem Onto.bytes_append {k : Value → Behaviour Value} (hk : Onto k) (a b : List UInt8) :
    (do let u ← k (.bytes a); Behaviour.plus u (.bytes b)) = k (.bytes (a ++ b)) := by
  cases hk with
  | first => exact pure_bind _ _
  | further u =>
    rw [Behaviour.plus, Behaviour.plus, ← (Adding.further ⟨0, 0⟩ u).bytes_append, Behaviour.of_bind]
    rfl

/-- A spine behind a value. -/
def sumOnto (leaf : Expr → Behaviour Value) (k : Value → Behaviour Value) (c : Spine) :
    Behaviour Value := do
  let v ← c.first.value leaf
  let u ← k v
  addTo leaf u c.rest

/-- A sum onto nothing is the sum. -/
theorem sumOnto_pure (c : Spine) : sumOnto leaf pure c = c.sum leaf := by
  simp only [sumOnto, pure_bind, sum]

/-- The second summand is added to what the first one gives. -/
theorem sumOnto_cons (k : Value → Behaviour Value) (x : Summand) (pos : Position) (c : Spine) :
    sumOnto leaf k ⟨x, (pos, c.first) :: c.rest⟩ = (do
      let v ← x.value leaf
      let u ← k v
      sumOnto leaf (Behaviour.plus u) c) := by
  simp only [sumOnto, addTo]

/-- Further summands with neighbouring displays joined. -/
def joinedRest : List (Position × Summand) → List (Position × Summand)
  | [] => []
  | (pos, y) :: rest =>
    (pos, (joinFrom Summand.joinDisplays? y rest).first) ::
      (joinFrom Summand.joinDisplays? y rest).rest

/-- A summand that is no display stays as it is. -/
theorem joined_of_none {x : Summand} (hx : ∀ y, x.joinDisplays? y = none)
    (rest : List (Position × Summand)) :
    joinFrom Summand.joinDisplays? x rest = ⟨x, joinedRest rest⟩ := by
  cases rest with
  | nil => rfl
  | cons y rest => simp only [joinFrom, hx, joinedRest]

/-- Two literals that are joined, before others. -/
theorem sumOnto_literals {k : Value → Behaviour Value} {x y z : Summand}
    (hx : ∀ w, x.joinDisplays? w = none) (hy : ∀ w, y.joinDisplays? w = none)
    (hz : ∀ w, z.joinDisplays? w = none)
    (hjoin : (do let v ← x.value leaf; let u ← k v; let w ← y.value leaf; Behaviour.plus u w) =
      (z.value leaf >>= k)) (pos : Position) (rest : List (Position × Summand)) :
    sumOnto leaf k (joinFrom Summand.joinDisplays? z rest) =
      sumOnto leaf k (joinFrom Summand.joinDisplays? x ((pos, y) :: rest)) := by
  rw [joined_of_none hz, joined_of_none hx, joinedRest, joined_of_none hy]
  simp only [sumOnto, addTo]
  rw [← bind_assoc, ← hjoin]
  simp only [bind_assoc]

/-- Two literals are joined to one, or two displays. -/
theorem join?_cases {x y z : Summand} (h : x.join? y = some z) :
    (∃ a b, x = .str a ∧ y = .str b ∧ z = .str (a ++ b)) ∨
    (∃ a b, x = .bytes a ∧ y = .bytes b ∧ z = .bytes (a ++ b)) ∨ x.joinDisplays? y = some z := by
  cases x <;> cases y <;> cases h
  · exact .inl ⟨_, _, rfl, rfl, rfl⟩
  · exact .inr (.inl ⟨_, _, rfl, rfl, rfl⟩)
  · exact .inr (.inr rfl)
  · exact .inr (.inr rfl)

/-- What does not join at all does not join as displays. -/
theorem joinDisplays?_of_none {x y : Summand} (h : x.join? y = none) :
    x.joinDisplays? y = none := by
  cases x <;> cases y <;> first | rfl | cases h

/-- That literals are joined beside displays changes nothing. -/
theorem sumOnto_folded {k : Value → Behaviour Value} (hk : Onto k) (x : Summand)
    (rest : List (Position × Summand)) :
    sumOnto leaf k (joinFrom Summand.join? x rest) =
      sumOnto leaf k (joinFrom Summand.joinDisplays? x rest) := by
  -- on the summands; two that join are one literal, or one display, from here on
  induction rest generalizing x k with
  | nil => rfl
  | cons y rest ih =>
    obtain ⟨pos, y⟩ := y
    cases hjoin : x.join? y with
    | none =>
      simp only [joinFrom, hjoin, joinDisplays?_of_none hjoin, sumOnto_cons]
      simp only [ih (.further _)]
    | some z =>
      have hfolded : joinFrom Summand.join? x ((pos, y) :: rest) =
          joinFrom Summand.join? z rest := by
        simp only [joinFrom, hjoin]
      rw [hfolded, ih hk]
      rcases join?_cases hjoin with ⟨a, b, rfl, rfl, rfl⟩ | ⟨a, b, rfl, rfl, rfl⟩ | hdisplays
      · refine sumOnto_literals (fun _ => rfl) (fun _ => rfl) (fun _ => rfl) ?_ pos rest
        simp only [Summand.value, pure_bind, hk.str_append]
      · refine sumOnto_literals (fun _ => rfl) (fun _ => rfl) (fun _ => rfl) ?_ pos rest
        simp only [Summand.value, pure_bind, hk.bytes_append]
      · simp only [joinFrom, hdisplays]

/-- Folding texts and bytes does not change a sum; only the joining of displays may. -/
theorem sum_folded (c : Spine) : c.folded.sum leaf = c.joined.sum leaf := by
  rw [← sumOnto_pure, folded, sumOnto_folded .first, sumOnto_pure, joined]

/-! ## Displays that are not joined -/

/-- Where no displays are next to each other, none are joined. -/
theorem joinFrom_of_apartFrom {x : Summand} {rest : List (Position × Summand)}
    (h : ApartFrom false x rest) : joinFrom Summand.joinDisplays? x rest = ⟨x, rest⟩ := by
  induction rest generalizing x with
  | nil => rfl
  | cons y rest ih =>
    obtain ⟨pos, y⟩ := y
    unfold ApartFrom at h
    split at h
    · rename_i hnone
      simp only [joinFrom, hnone, ih h]
    · exact absurd h.1 Bool.false_ne_true
    · exact h.elim

/-- Tuple displays at the start are added without fail, whether they are joined or not. -/
theorem sum_tuples (xs ys : List Expr) (pos : Position) (rest : List (Position × Summand)) :
    sum leaf ⟨.tuple xs, (pos, .tuple ys) :: rest⟩ = sum leaf ⟨.tuple (xs ++ ys), rest⟩ := by
  have hplus : ∀ us vs : List Value, Behaviour.plus (.tuple us) (.tuple vs) =
      pure (.tuple (us ++ vs)) := fun us vs => rfl
  simp only [sum, addTo, Summand.value, Behaviour.all_append, bind_assoc, pure_bind, hplus]

/-- Where no displays are next to each other, nothing changes. -/
theorem Apart.sum_joined {c : Spine} (h : c.Apart) : c.joined.sum leaf = c.sum leaf := by
  obtain ⟨x, rest⟩ := c
  unfold joined
  unfold Apart at h
  induction rest generalizing x with
  | nil => rfl
  | cons y rest ih =>
    obtain ⟨pos, y⟩ := y
    unfold ApartFrom at h
    split at h
    · rename_i hnone
      simp only [joinFrom, hnone, joinFrom_of_apartFrom h]
    · rename_i zs hsome
      have hih := ih _ h.2
      simp only [joinFrom, hsome]
      cases x <;> cases y <;> cases hsome
      rw [sum_tuples]
      exact hih
    · exact h.elim

end Spine

/-! ## What the code of a spine does -/

variable {p : Program} {predeclared : String → Prop}

namespace Running

/-- A run does one of the things that are possible. -/
def Exhibits {α : Type} (R : Running p predeclared) (loops : List Loop) (its : List Iter)
    (Q : α → Scene → Prop) (possible : EStateM.Result Exit Scene α → Prop) : Prop :=
  ∃ r, possible r ∧ R.Shows loops none its Q r

namespace Exhibits

variable {R : Running p predeclared} {α β : Type} {loops : List Loop} {its : List Iter} {s : Scene}
  {Q : α → Scene → Prop} {P : β → Scene → Prop}

theorem of {m : Eval α} (h : R.Shows loops none its Q (m s)) :
    R.Exhibits loops its Q (Behaviour.of m s) := ⟨m s, rfl, h⟩

/-- What a behaviour exhibits, and what is exhibited from there on. -/
theorem bind {b : Behaviour α} {k : α → Behaviour β} (h : R.Exhibits loops its Q (b s))
    (hk : ∀ a s, Q a s → R.Exhibits loops its P (k a s)) :
    R.Exhibits loops its P ((b >>= k) s) := by
  obtain ⟨r, hb, hr⟩ := h
  cases r with
  | ok a s =>
    obtain ⟨r', hr', hshows⟩ := hk a s hr
    exact ⟨r', ⟨_, hb, .ok hr'⟩, hshows⟩
  | error e s => exact ⟨.error e s, ⟨_, hb, .error e s⟩, by cases e <;> exact hr⟩

end Exhibits

end Running

/-- A run that comes to where a plan stands does there one of the things that are possible. -/
def Plan.Behaves {α : Type} (R : Running p predeclared) (x : Plan) (st : List Value)
    (b : Behaviour α) (f : α → List Value) : Prop :=
  ∀ ⦃loops q lo q' hi its s⦄, x.At p.pool R.code.graph loops q lo q' hi → R.Visits q st its s →
    R.Exhibits loops its (fun a s => R.Visits q' (f a) its s) (b s)

/-- A plan that performs an evaluation behaves as it does. -/
theorem Plan.Performs.behaves {α : Type} {R : Running p predeclared} {x : Plan} {st : List Value}
    {m : Eval α} {f : α → List Value} (h : x.Performs R none st m f) :
    x.Behaves R st (.of m) f :=
  fun _ _ _ _ _ _ _ hat hv => .of (h hat hv)

namespace Lowering

variable {R : Running p predeclared} {leaf : Expr → Behaviour Value}

/-- An expression does what its leaf says. -/
def Fits (R : Running p predeclared) (leaf : Expr → Behaviour Value) (x : Expr) : Prop :=
  ∀ st, (expr x).value.Behaves R st (leaf x) (· :: st)

/-- The elements of a display. -/
theorem exprs_behaves {xs : List Expr} (hxs : ∀ x ∈ xs, Fits R leaf x) {loops : List Loop}
    {q q' : Point}
    {lo hi : Nat} {st : List Value} {its : List Iter} {s : Scene}
    (hat : (exprs xs).At p.pool R.code.graph loops q lo q' hi) (hv : R.Visits q st its s) :
    R.Exhibits loops its (fun vs s => vs.length = xs.length ∧ R.Visits q' (vs.reverse ++ st) its s)
      (Behaviour.all leaf xs s) := by
  induction xs generalizing q lo st s with
  | nil =>
    obtain ⟨rfl, rfl⟩ := hat
    exact .of ⟨rfl, hv⟩
  | cons x xs ih =>
    obtain ⟨_, _, hatx, hatxs⟩ := hat
    refine (hxs x List.mem_cons_self st hatx hv).bind fun v s hv => ?_
    refine (ih (fun y hy => hxs y (List.mem_cons_of_mem x hy)) hatxs hv).bind fun vs s hvs => ?_
    refine .of ⟨by simp [hvs.1], ?_⟩
    simpa using hvs.2

/-- The plan of a summand behaves as its value does. -/
theorem summand_behaves {x : Summand} (hx : ∀ y ∈ x.leaves, Fits R leaf y) (st : List Value) :
    x.plan.Behaves R st (x.value leaf) (· :: st) := by
  -- literals are pushed, displays are built of their elements, and a leaf behaves by assumption
  cases x with
  | str text =>
    intro loops q lo q' hi its s hat hv
    exact .of (hv.const hat)
  | bytes bs =>
    intro loops q lo q' hi its s hat hv
    exact .of (hv.const hat)
  | list xs =>
    rintro loops q lo q' hi its s ⟨_, _, hat, hatm⟩ hv
    refine (exprs_behaves (show ∀ y ∈ xs, Fits R leaf y from hx) hat hv).bind
        fun vs s ⟨hlen, hv⟩ => ?_
    rw [← hlen] at hatm
    exact .of (hv.makeList hatm)
  | tuple xs =>
    rintro loops q lo q' hi its s ⟨_, _, hat, hatm⟩ hv
    refine (exprs_behaves (show ∀ y ∈ xs, Fits R leaf y from hx) hat hv).bind
        fun vs s ⟨hlen, hv⟩ => ?_
    rw [← hlen] at hatm
    exact .of (hv.makeTuple hatm)
  | other x => exact hx x List.mem_cons_self st

/-- Further summands are added to the value on the stack. -/
theorem planRest_behaves {rest : List (Position × Summand)}
    (hrest : ∀ y ∈ rest, ∀ x ∈ y.2.leaves, Fits R leaf x) (u : Value) (st : List Value) :
    (Spine.planRest rest).Behaves R (u :: st) (Spine.addTo leaf u rest) (· :: st) := by
  induction rest generalizing u with
  | nil =>
    rintro loops q lo q' hi its s ⟨rfl, rfl⟩ hv
    exact .of hv
  | cons y rest ih =>
    obtain ⟨pos, y⟩ := y
    rintro loops q lo q' hi its s ⟨_, _, ⟨_, _, hat, hatp⟩, hatr⟩ hv
    refine (summand_behaves (hrest _ List.mem_cons_self) _ hat hv).bind fun v s hv => ?_
    refine (Running.Exhibits.of (performs_addAt (.further pos u) v hatp hv)).bind fun w s hv => ?_
    exact ih (fun y hy => hrest y (List.mem_cons_of_mem _ hy)) w hatr hv

/-- The plan of a sum behaves as the sum does. -/
theorem spine_behaves {c : Spine} (hc : ∀ x ∈ c.leaves, Fits R leaf x) (st : List Value) :
    c.plan.Behaves R st (c.sum leaf) (· :: st) := by
  rintro loops q lo q' hi its s ⟨_, _, hat, hatr⟩ hv
  have hfirst : ∀ x ∈ c.first.leaves, Fits R leaf x := fun x hx => hc x (List.mem_append_left _ hx)
  have hrest : ∀ y ∈ c.rest, ∀ x ∈ y.2.leaves, Fits R leaf x := fun y hy x hx =>
    hc x (List.mem_append_right _ (List.mem_flatMap.2 ⟨y, hy, hx⟩))
  exact (summand_behaves hfirst st hat hv).bind fun u s hv => planRest_behaves hrest u st hatr hv

end Lowering

namespace Spine

/-- Summands that are joined keep their expressions, in order. -/
theorem leaves_join? {x y z : Summand} (h : x.join? y = some z) :
    z.leaves = x.leaves ++ y.leaves := by
  cases x <;> cases y <;> cases h <;> rfl

/-- Joining keeps the leaves. -/
theorem leaves_joinFrom (x : Summand) (rest : List (Position × Summand)) :
    (joinFrom Summand.join? x rest).leaves = (⟨x, rest⟩ : Spine).leaves := by
  induction rest generalizing x with
  | nil => rfl
  | cons y rest ih =>
    obtain ⟨pos, y⟩ := y
    unfold joinFrom
    split
    · rename_i z hz
      rw [ih, leaves, leaves_join? hz, List.append_assoc]
      rfl
    · have hrest := ih y
      simp only [leaves, List.flatMap_cons] at hrest ⊢
      rw [hrest]

end Spine

namespace Lowering

variable {R : Running p predeclared} {leaf : Expr → Behaviour Value}

/-- What is emitted for a sum is the code of its folded spine. It does what the spine does in which
neighbouring displays of one kind are one, strictly from the left. Where there are none, but for
tuples at the start, it does what the nested sums do. -/
theorem sum_strict (x : Expr) (hleaf : ∀ y ∈ x.spine.leaves, Fits R leaf y) (st : List Value) :
    Build.settled (Build.expr x .value) = x.spine.folded.emit ∧
    (expr x).value.Behaves R st (x.spine.joined.sum leaf) (· :: st) ∧
    (x.spine.Apart → x.spine.joined.sum leaf = x.nested leaf) := by
  refine ⟨emit_sum x, ?_, fun hapart => ?_⟩
  · intro loops q lo q' hi its s hat hv
    rw [← Spine.sum_folded]
    refine spine_behaves (fun y hy => ?_) st ((at_sum x).1 hat) hv
    rw [Spine.folded, Spine.leaves_joinFrom] at hy
    exact hleaf y hy
  · rw [hapart.sum_joined, Spine.sum_spine]

end Lowering

/-! ## A sum that joins displays -/

/-- Evaluated leaves make the evaluation of the nested sums. -/
theorem Expr.nested_eval (c : Surroundings) (x : Expr) :
    x.nested (fun y => .of (Eval.expr c y)) = .of (Eval.expr c x) := by
  have hall : ∀ xs, Behaviour.all (fun y => .of (Eval.expr c y)) xs = .of (Eval.exprs c xs) := by
    intro xs
    induction xs with
    | nil => rfl
    | cons x xs ih =>
      simp only [Behaviour.all, ih, Eval.exprs, Behaviour.of_bind, Behaviour.pure_eq]
  have hsummand : ∀ x : Expr, x.summand.value (fun y => .of (Eval.expr c y)) =
      .of (Eval.expr c x) := by
    intro x
    induction x using Expr.summand.induct with
    | case1 x ih => simpa only [Expr.summand, Eval.expr] using ih
    | case2 s pos => rfl
    | case3 b pos => rfl
    | case4 xs => simp only [Expr.summand, Summand.value, hall, Eval.expr, Behaviour.of_bind]
    | case5 xs =>
      simp only [Expr.summand, Summand.value, hall, Eval.expr, Behaviour.of_bind, Behaviour.pure_eq]
    | case6 x => simp only [Expr.summand, Summand.value]
  -- a sum nests to the left, and each of its right operands is a summand of its own
  induction x using Expr.nested.induct with
  | case1 x ih => simpa only [Expr.nested, Eval.expr] using ih
  | case2 x y pos ih =>
    simp only [Expr.nested, ih, hsummand, Eval.expr, Behaviour.of_bind, Behaviour.plus]
  | case3 x hparen hplus =>
    rw [Expr.nested]
    · exact hsummand x
    · exact hparen
    · exact hplus

namespace SourceFile

/-- The sum `x + [2] + [x.append(3)]`. -/
def growing : Expr :=
  let x (col : UInt32) : Expr := .ident ⟨"x", ⟨1, col⟩, .predeclared, 0⟩
  .binary .plus (.binary .plus (x 1) (.list [.literal (.int 2) ⟨1, 6⟩]) ⟨1, 3⟩)
    (.list [.call (.dot (x 12) "append" ⟨1, 13⟩) [.positional (.literal (.int 3) ⟨1, 21⟩)] ⟨1, 20⟩])
    ⟨1, 9⟩

/-- The file of the sum. -/
def growingFile : SourceFile := .ofExpr "growing.star" growing [] false

/-- A module of a program, in which `x` is `[1]`. -/
def growingHeap (p : Program) : Heap :=
  (((Heap.initial.newList #[.int 1]).2.newProgram p).2.newModule ⟨0⟩ [("x", .list ⟨0⟩)]).2

/-- What the sum is given. -/
def growingSurroundings : Surroundings := growingFile.surroundings ⟨0⟩ 0

/-- The scene in which the sum begins. -/
def growingScene (p : Program) : Scene :=
  ⟨((growingHeap p).newFunc ⟨⟨0⟩, .toplevel, #[], #[]⟩).2, .new "main" none 9 true, #[]⟩

/-- The file of the example is well resolved. -/
theorem wellResolved_growingFile : growingFile.WellResolved (· = "x") := by
  simp [SourceFile.WellResolved, SourceFile.scopes, growingFile, growing, SourceFile.ofExpr,
    Resolved.stmts, Resolved.stmt, Resolved.bound, Resolved.expr, Resolved.exprs, Resolved.args,
    Scopes.Uses, Scopes.Declares, Arg.counts, Arg.Ordered]

/-- The variable, the number and the call are evaluated. -/
theorem fits_growing {p : Program} {R : Running p (· = "x")} (hc : growingSurroundings.Around R)
    (hscopes : R.code.scopes = growingFile.scopes (· = "x")) :
    ∀ y ∈ growing.spine.leaves,
      Lowering.Fits R (fun x => .of (Eval.expr growingSurroundings x)) y := by
  have hleaf : ∀ y, Resolved.expr .full (growingFile.scopes (· = "x")) y → Direct.expr y →
      Lowering.Fits R (fun x => .of (Eval.expr growingSurroundings x)) y := fun y hy hd st =>
    ((Lowering.expr_values hc y (hscopes ▸ hy) hd).value st).behaves
  intro y hy
  rcases List.mem_cons.1 hy with rfl | hy
  · exact hleaf _ (by simp [Resolved.expr, Scopes.Uses, Scopes.Declares, SourceFile.scopes])
      (by simp [Direct.expr])
  rcases List.mem_cons.1 hy with rfl | hy
  · exact hleaf _ (by simp [Resolved.expr]) (by simp [Direct.expr])
  · cases List.mem_singleton.1 hy
    exact hleaf _ (by simp [Resolved.expr, Resolved.args, Scopes.Uses, Scopes.Declares,
      SourceFile.scopes, Arg.counts, Arg.Ordered]) (by simp [Direct.expr, Direct.args])

/-- The code of the sum stands in the program of its file, and does what the spine
`x + [2, x.append(3)]` does. -/
theorem sum_strict_growing : ∃ (p : Program) (R : Running p (· = "x")),
    growingFile.compile = .ok p ∧ (Lowering.stmts growingFile.body).StandsIn p.pool R.code.graph ∧
    (Lowering.expr growing).value.Behaves R []
      (growing.spine.joined.sum fun x => .of (Eval.expr growingSurroundings x)) (· :: []) := by
  have hcheck : growingFile.compile.toOption.any (fun p => decide
      (p.names.size ≤ 9 ∧ p.constants.size ≤ 9 ∧ p.functions.size ≤ 9)) = true := by
    decide +kernel
  obtain ⟨p, hp, hq⟩ := exists_ok_of_any hcheck
  obtain ⟨hnames, hconstants, hfunctions⟩ := of_decide_eq_true hq
  have hlist :
      Session.Step .sober Session.initial (hostedHeap (Heap.initial.newList #[.int 1]).2) :=
    .act (a := .operate (.newList [.int 1])) rfl trivial (.operate _ _ _)
  have hprogram : Session.Step .sober (hostedHeap (Heap.initial.newList #[.int 1]).2)
      (hostedHeap ((Heap.initial.newList #[.int 1]).2.newProgram p).2) :=
    .act (a := .newProgram p) rfl trivial (.newProgram p _ _)
  have hown : Session.Step .sober (hostedHeap ((Heap.initial.newList #[.int 1]).2.newProgram p).2)
      (hostedHeap (growingHeap p)) :=
    .act (a := .newModule ⟨0⟩ _) rfl trivial (.newModule _ _ Nat.zero_lt_one)
  -- the list that `x` holds, the program and its module, made one operation at a time
  have hreach :
      (growingHeap p).Reachable := ⟨_, ((ReflTransGen.single hlist).tail hprogram).tail hown, rfl⟩
  have hsuits : (Thread.new "main" none 9 true).Suits (growingHeap p) := .of_library rfl rfl _
  have hmodule : (ModuleRef.mk 0).index < (growingHeap p).modules.size := Nat.zero_lt_one
  obtain ⟨R, hfunc, hnone, hbody, -, hscopes, hstands⟩ := exists_running wellResolved_growingFile hp
    ⟨by omega, by omega, by omega⟩ hreach hsuits hmodule rfl
  have hc : growingSurroundings.Around R := around_surroundings hp hfunc hnone hbody hscopes 0
  exact ⟨p, R, hp, hstands, (Lowering.sum_strict growing (fits_growing hc hscopes) []).2.1⟩

/-- The text of what the sum comes to if it is evaluated. -/
def growingEvaluated (p : Program) : Option String :=
  match Eval.expr growingSurroundings growing (growingScene p) with
  | .ok v s => some (s.heap.repr v)
  | .error _ _ => none

/-- The text of what a run ends with. -/
def resultText? (m : Machine) : Option String :=
  match m.outcome? with
  | some ⟨heap, _, .ok v⟩ => some (heap.repr v)
  | _ => none

/-- Strictly from the left, the sum is `[1, 2, None]`. The code appends before it adds, and comes to
`[1, 3, 2, None]`. -/
theorem folding_growing : ∃ p v s, growingFile.compile = .ok p ∧
    growing.nested (fun x => .of (Eval.expr growingSurroundings x)) (growingScene p) (.ok v s) ∧
    s.heap.repr v = "[1, 2, None]" ∧
    resultText? (.initModule 30 (growingHeap p) (.new "main" none 9 true) ⟨0⟩) =
      some "[1, 3, 2, None]" := by
  have hcheck : growingFile.compile.toOption.any (fun p => decide
      (growingEvaluated p = some "[1, 2, None]" ∧
        resultText? (.initModule 30 (growingHeap p) (.new "main" none 9 true) ⟨0⟩) =
          some "[1, 3, 2, None]")) = true := by
    decide +kernel
  obtain ⟨p, hp, hq⟩ := exists_ok_of_any hcheck
  obtain ⟨heval, hrun⟩ := of_decide_eq_true hq
  unfold growingEvaluated at heval
  split at heval
  · rename_i v s hv
    refine ⟨p, v, s, hp, ?_, Option.some.inj heval, hrun⟩
    rw [Expr.nested_eval]
    exact hv.symm
  · cases heval

end SourceFile

end Starlark
