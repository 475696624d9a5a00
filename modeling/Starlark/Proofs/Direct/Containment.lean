import Starlark.Proofs.Direct.Moments
import Starlark.Proofs.Lower.Typability
import Starlark.Proofs.Machine.Returns

/-!
# What an expression leaves alone

While an expression is evaluated, the operand stack and the iterators below what it works with stay
as they are, also during the calls that it makes (`Running.keeps_expr`). Unless the function is left
with an error, the evaluation can only end with the value on top of that stack.

The type of a plan says how many values each of its instructions finds above any given stack, so the
argument goes by induction on the plan (`Plan.contained`).
-/

set_option autoImplicit false

namespace Starlark

/-! ## Results of operations -/

namespace Op

variable {α β : Type} {Q : α → Prop} {P : β → Prop}

/-- Every result of an operation has a property. -/
def Gives (Q : α → Prop) (m : Op α) : Prop := ∀ h a h', m h = .ok a h' → Q a

namespace Gives

theorem pure {a : α} (h : Q a) : Gives Q (Pure.pure a : Op α) := by
  rintro heap _ _ ⟨⟩
  exact h

/-- Operations in sequence give what the second one gives. -/
theorem bind {m : Op α} {k : α → Op β} (hm : Gives Q m) (hk : ∀ a, Q a → Gives P (k a)) :
    Gives P (m >>= k) := by
  intro heap b heap' hrun
  rw [Starlark.bind_apply] at hrun
  cases hr : m heap with
  | ok a heap'' =>
    rw [hr] at hrun
    exact hk a (hm heap a heap'' hr) _ _ _ hrun
  | error e heap'' =>
    rw [hr] at hrun
    cases hrun

/-- What an operation gives may be claimed more weakly. -/
theorem mono {Q' : α → Prop} {m : Op α} (hm : Gives Q m) (hQ : ∀ a, Q a → Q' a) : Gives Q' m :=
  fun h a h' hr => hQ a (hm h a h' hr)

/-- Nothing is claimed of what an operation gives. -/
theorem any (m : Op α) : Gives (fun _ => True) m := fun _ _ _ _ => trivial

/-- Whatever an operation gives. -/
theorem after {m : Op α} {k : α → Op β} (hk : ∀ a, Gives P (k a)) : Gives P (m >>= k) :=
  (any m).bind fun a _ => hk a

theorem throw (e : Stop) : Gives Q (MonadExcept.throw e : Op α) := by
  rintro heap _ _ ⟨⟩

end Gives

/-- Values are popped from above a stack. -/
theorem gives_popMany {n : Nat} {top : List Value} (hn : n ≤ top.length) (st : List Value) :
    Gives (fun r => r.1.length = n ∧ r.2 = top.drop n ++ st) (popMany n (top ++ st)) := by
  rw [popMany, if_neg (by rw [List.length_append]; omega)]
  refine .pure ⟨?_, List.drop_append_of_le_length hn⟩
  rw [List.length_reverse, List.length_take, List.length_append]
  omega

/-- An optional argument is taken off, if it is there. -/
theorem gives_popIf {wanted : Prop} [Decidable wanted] {n : Nat} (hn : n = if wanted then 1 else 0)
    {top : List Value} (hle : n ≤ top.length) (st : List Value) :
    Gives (fun r => r.2 = top.drop n ++ st) (popIf wanted (top ++ st)) := by
  unfold popIf
  split
  · rename_i hw
    rw [if_pos hw] at hn
    obtain ⟨v, top, rfl⟩ := List.exists_cons_of_length_pos (show 0 < top.length by omega)
    rw [hn]
    exact .pure rfl
  · rename_i hw
    rw [if_neg hw] at hn
    rw [hn]
    exact .pure rfl

/-- The counted arguments and the callee are taken off. -/
theorem gives_takeCounted {arg : UInt32} {top : List Value}
    (htop : top.length = 2 * Opcode.namedCount arg + Opcode.positionalCount arg + 1)
    (star kw : Option Value) (st : List Value) :
    Gives (fun r => r.2.2.2 = st) (takeCounted arg star kw (top ++ st)) := by
  refine (gives_popMany (n := 2 * Opcode.namedCount arg) (by omega) st).bind ?_
  rintro ⟨pairs, _⟩ ⟨-, rfl⟩
  refine .after fun named => .after fun extra => ?_
  refine (gives_popMany (n := Opcode.positionalCount arg)
    (by rw [List.length_drop]; omega) st).bind ?_
  rintro ⟨positional, _⟩ ⟨-, rfl⟩
  refine .after fun rest => ?_
  obtain ⟨f, hf⟩ := List.length_eq_one_iff.1 (show ((top.drop (2 * Opcode.namedCount arg)).drop
    (Opcode.positionalCount arg)).length = 1 by rw [List.length_drop, List.length_drop]; omega)
  rw [hf]
  exact .pure rfl

/-- A call takes the callee and its arguments from above a stack. -/
theorem gives_takeCall {op : Opcode} (hop : op.isCall = true) {arg : UInt32} {top : List Value}
    (htop : top.length =
      op.extraArguments + 2 * Opcode.namedCount arg + Opcode.positionalCount arg + 1)
    (st : List Value) : Gives (fun r => r.2.2.2 = st) (takeCall op arg (top ++ st)) := by
  have take : ∀ {i j : Nat}, i = (if op = .callKw ∨ op = .callVarKw then 1 else 0) →
      j = (if op = .callVar ∨ op = .callVarKw then 1 else 0) → op.extraArguments = i + j →
      Gives (fun r => r.2.2.2 = st) (takeCall op arg (top ++ st)) := by
    intro i j hi hj hextra
    refine (gives_popIf hi (show i ≤ top.length by omega) st).bind ?_
    rintro ⟨kw, _⟩ rfl
    refine (gives_popIf hj (show j ≤ (top.drop i).length by rw [List.length_drop]; omega) st).bind
        ?_
    rintro ⟨star, _⟩ rfl
    exact gives_takeCounted (by rw [List.length_drop, List.length_drop]; omega) star kw st
  rcases Opcode.isCall_cases hop with rfl | rfl | rfl | rfl
  · exact take (i := 0) (j := 0) rfl rfl rfl
  · exact take (i := 0) (j := 1) rfl rfl rfl
  · exact take (i := 1) (j := 0) rfl rfl rfl
  · exact take (i := 1) (j := 1) rfl rfl rfl

/-- There are as many members as names. -/
theorem gives_loadMembers (members : Env) (module : String) (names : List Value) :
    Gives (fun r => r.length = names.length) (loadMembers members module names) := by
  induction names with
  | nil => exact .pure rfl
  | cons v rest ih =>
    cases v with
    | str name =>
      unfold loadMembers
      split
      · exact ih.bind fun r hr => .pure (by rw [List.length_cons, List.length_cons, hr])
      · exact .throw _
    | _ => exact .throw _

/-- Loading replaces names above a stack. -/
theorem gives_replaceNames (members : Env) (module : String) {count : Nat} {top : List Value}
    (hcount : count ≤ top.length) (st : List Value) :
    Gives (fun r => ∃ top', r = top' ++ st ∧ top'.length = top.length)
      (replaceNames members module count (top ++ st)) := by
  refine (gives_popMany hcount st).bind ?_
  rintro ⟨names, _⟩ ⟨hnames, rfl⟩
  refine (gives_loadMembers members module names).bind fun r hr => .pure ?_
  refine ⟨r.reverse ++ top.drop count, (List.append_assoc _ _ _).symm, ?_⟩
  rw [List.length_append, List.length_reverse, List.length_drop, hr, hnames]
  omega

end Op

/-! ## Resting -/

namespace Running

variable {p : Program} {predeclared : String → Prop} (R : Running p predeclared)

/-- At a time, the function is active, with a stack and iterators below what it works with. -/
def RestsAt (n : Nat) (st : List Value) (its : List Iter) : Prop :=
  ∃ above a pending, (Machine.run n R.start).frames = above ++ .func a pending :: R.callers ∧
    a.func = R.func ∧ st <:+ a.stack ∧ its <:+ a.iters

/-- At a time, the function is left with an error. -/
def LeftAt (n : Nat) : Prop :=
  ∃ h t a e, Machine.run n R.start = Machine.fail h t (.func a .call :: R.callers) e ∧
    a.func = R.func

/-- From a time on, the function keeps a stack and iterators below what it works with until
something holds, or until it is left with an error. -/
def Keeps (n : Nat) (st : List Value) (its : List Iter) (P : Nat → Prop) : Prop :=
  ∀ m, n ≤ m → R.RestsAt m st its ∨ ∃ k, n ≤ k ∧ k ≤ m ∧ (P k ∨ R.LeftAt k)

variable {R} {n : Nat} {q : Point} {st : List Value} {its : List Iter} {s : Scene}

namespace Keeps

variable {P Q : Nat → Prop}

theorem here (h : P n) : R.Keeps n st its P :=
  fun _ hm => .inr ⟨n, Nat.le_refl n, hm, .inl h⟩

/-- A run that has left the function keeps the stack, whatever is claimed behind. -/
theorem left (h : R.LeftAt n) : R.Keeps n st its P :=
  fun _ hm => .inr ⟨n, Nat.le_refl n, hm, .inr h⟩

/-- One step of rest comes first. -/
theorem next (h : R.RestsAt n st its) (h' : R.Keeps (n + 1) st its P) : R.Keeps n st its P := by
  intro m hm
  rcases Nat.eq_or_lt_of_le hm with rfl | hlt
  · exact .inl h
  · rcases h' m hlt with hrests | ⟨k, hk, hkm, hend⟩
    · exact .inl hrests
    · exact .inr ⟨k, by omega, hkm, hend⟩

/-- What is kept first and what is kept from there on is kept. -/
theorem bind (h : R.Keeps n st its P) (hP : ∀ m, n ≤ m → P m → R.Keeps m st its Q) :
    R.Keeps n st its Q := by
  intro m hm
  rcases h m hm with hrests | ⟨k, hk, hkm, hp | hleft⟩
  · exact .inl hrests
  · rcases hP k hk hp m hkm with hrests | ⟨j, hj, hjm, hend⟩
    · exact .inl hrests
    · exact .inr ⟨j, hk.trans hj, hjm, hend⟩
  · exact .inr ⟨k, hk, hkm, .inr hleft⟩

/-- A weaker claim is kept as well. -/
theorem mono (h : R.Keeps n st its P) (hP : ∀ m, n ≤ m → P m → Q m) : R.Keeps n st its Q :=
  h.bind fun m hm hp => here (hP m hm hp)

/-- Rounds that keep what is below keep it all the time, since each of them takes some time. -/
theorem rounds {I : Nat → Prop} (h : ∀ n, I n → R.Keeps n st its fun k => Q k ∨ n < k ∧ I k)
    (hn : I n) : R.Keeps n st its Q := by
  intro m hm
  induction hd : m - n using Nat.strong_induction_on generalizing n with
  | _ d ih =>
    rcases h n hn m hm with hrests | ⟨k, hk, hkm, (hq | ⟨hlt, hi⟩) | hleft⟩
    · exact .inl hrests
    · exact .inr ⟨k, hk, hkm, .inl hq⟩
    · rcases ih (m - k) (by omega) hi hkm rfl with hrests | ⟨j, hj, hjm, hend⟩
      · exact .inl hrests
      · exact .inr ⟨j, hk.trans hj, hjm, hend⟩
    · exact .inr ⟨k, hk, hkm, .inr hleft⟩

/-- Nothing happens once evaluation was given up. -/
theorem aborted {x : Abort} (h : R.RestsAt n st its)
    (hx : (Machine.run n R.start).control = .aborted x) : R.Keeps n st its P := by
  intro m hm
  obtain ⟨k, rfl⟩ := Nat.exists_eq_add_of_le hm
  have hdone : (Machine.run n R.start).isDone = true := by simp [Machine.isDone, hx]
  left
  unfold RestsAt at h ⊢
  rwa [Machine.run_add, Machine.run_of_isDone hdone]

/-- An instruction without a result leaves the function, or gives up. -/
theorem stopped {h : Heap} {t : Thread} {a : Activation} {e : Stop}
    (hrun : Machine.run n R.start = Machine.stop h t (.func a .call :: R.callers) e)
    (ha : a.func = R.func) (hst : st <:+ a.stack) (hits : its <:+ a.iters) :
    R.Keeps n st its P := by
  cases e with
  | error e => exact .left ⟨h, t, a, e, hrun, ha⟩
  | abort x => exact .aborted ⟨[], a, .call, by rw [hrun]; rfl, ha, hst, hits⟩ (by rw [hrun]; rfl)

end Keeps

/-! ## Calls -/

/-- What a call does happens above the function that makes it, up to the outcome. -/
theorem keeps_call {P : Nat → Prop} {h : Heap} {t : Thread} {a : Activation} {pending : Pending}
    {f : Value} {args : List Value} {kwargs : Keywords}
    (hrun : Machine.run n R.start = ⟨h, t, .func a pending :: R.callers, .invoke f args kwargs⟩)
    (ha : a.func = R.func) (hst : st <:+ a.stack) (hits : its <:+ a.iters)
    (hdeliver : ∀ m h t r, n < m →
      Machine.run m R.start = Machine.deliver h t (.func a pending :: R.callers) r →
      R.Keeps m st its P) : R.Keeps n st its P := by
  have hrests : ∀ {m} above, (Machine.run m R.start).frames = above ++
      .func a pending :: R.callers →
      R.RestsAt m st its := fun above hm => ⟨above, a, pending, hm, ha, hst, hits⟩
  -- until the outcome is handed back, a further call is active
  have hinside : ∀ j, (Machine.run (n + 1 + j) R.start).Inside (.func a pending :: R.callers) ∨
      ∃ i ≤ j, (Machine.run (n + 1 + i) R.start).Back (.func a pending :: R.callers) := by
    intro j
    induction j with
    | zero =>
      rw [Nat.add_zero, Machine.run_succ_eq_step, hrun]
      rcases @Machine.frames_invoke h t (.func a pending :: R.callers) f args kwargs
          with hin | hback
      · exact .inl hin
      · refine .inr ⟨0, Nat.le_refl 0, ?_⟩
        rw [Nat.add_zero, Machine.run_succ_eq_step, hrun]
        exact hback
    | succ j ih =>
      rcases ih with hin | ⟨i, hi, hback⟩
      · rcases hin.step with hin | hback
        · left
          rwa [← Nat.add_assoc, Machine.run_succ_eq_step]
        · refine .inr ⟨j + 1, Nat.le_refl _, ?_⟩
          rwa [← Nat.add_assoc, Machine.run_succ_eq_step]
      · exact .inr ⟨i, by omega, hback⟩
  intro m hm
  rcases Nat.eq_or_lt_of_le hm with rfl | hlt
  · exact .inl (hrests [] (by rw [hrun]; rfl))
  obtain ⟨j, rfl⟩ := Nat.exists_eq_add_of_le (show n + 1 ≤ m from hlt)
  rcases hinside j with ⟨-, above, -, hframes⟩ | ⟨i, hi, hframes, r, hr⟩
  · exact .inl (hrests above hframes)
  rcases Nat.eq_or_lt_of_le hi with rfl | hij
  · exact .inl (hrests [] hframes)
  have hnext : Machine.run (n + 1 + i + 1) R.start = Machine.deliver
      (Machine.run (n + 1 + i) R.start).heap
      (Machine.run (n + 1 + i) R.start).thread (.func a pending :: R.callers) r := by
    rw [Machine.run_succ_eq_step]
    generalize Machine.run (n + 1 + i) R.start = back at hframes hr
    obtain ⟨heap, thread, frames, control⟩ := back
    cases hframes
    cases hr
    rfl
  rcases hdeliver _ _ _ _ (by omega) hnext (n + 1 + j) (by omega) with hrests | ⟨k, hk, hkm, hend⟩
  · exact .inl hrests
  · exact .inr ⟨k, by omega, hkm, hend⟩

/-! ## Instructions -/

/-- At a time, the function is to execute what stands at a point. Above a stack and iterators there
are as many values and iterators as a shape has. -/
def LiesAt (R : Running p predeclared) (n : Nat) (q : Point) (d : Shape) (st : List Value)
    (its : List Iter) : Prop :=
  ∃ top inner s, R.StandsAt n q (top ++ st) (inner ++ its) s ∧ top.length = d.depth ∧
    inner.length = d.iters

end Running

/-- What an instruction leaves above a stack and iterators, which it keeps. -/
def Effect.Keeps (a : Activation) (e : Shape) (st : List Value) (its : List Iter) : Effect → Prop
  | .proceed b => b.func = a.func ∧ b.next = a.next ∧ ∃ top inner, b.stack = top ++ st ∧
      b.iters = inner ++ its ∧ top.length = e.depth ∧ inner.length = e.iters
  | .call b _ _ _ => b.func = a.func ∧ b.next = a.next ∧ ∃ top inner, b.stack = top ++ st ∧
      b.iters = inner ++ its ∧ top.length + 1 = e.depth ∧ inner.length = e.iters
  | .load b _ count => b.func = a.func ∧ b.next = a.next ∧ ∃ top inner, b.stack = top ++ st ∧
      b.iters = inner ++ its ∧ top.length = e.depth ∧ inner.length = e.iters ∧ count ≤ top.length
  | .finish _ => False

namespace Activation

open Op

variable {t : Tables} {a : Activation} {top st : List Value} {inner its : List Iter}

/-- An instruction that goes on with one more value than it left. -/
theorem keeps_push {e : Shape} {v : Value} (top' : List Value) (hits : a.iters = inner ++ its)
    (htop : top'.length + 1 = e.depth) (hinner : inner.length = e.iters) :
    Effect.Keeps a e st its (push a (top' ++ st) v) :=
  ⟨rfl, rfl, v :: top', inner, rfl, hits, htop, hinner⟩

/-- An instruction that goes on with what it left. -/
theorem keeps_withStack {e : Shape} {top' : List Value} (hits : a.iters = inner ++ its)
    (htop : top'.length = e.depth) (hinner : inner.length = e.iters) :
    Effect.Keeps a e st its (withStack a (top' ++ st)) :=
  ⟨rfl, rfl, top', inner, rfl, hits, htop, hinner⟩

/-- A stack that is deep enough can be split. -/
theorem exists_above {n m : Nat} (h : top.length = n + m) :
    ∃ vs rest, top = vs ++ rest ∧ vs.length = n ∧ rest.length = m :=
  ⟨top.take n, top.drop n, (List.take_append_drop n top).symm,
    by rw [List.length_take]; omega, by rw [List.length_drop]; omega⟩

theorem exists_one_above {m : Nat} (h : top.length = 1 + m) :
    ∃ v rest, top = v :: rest ∧ rest.length = m := by
  obtain ⟨vs, rest, rfl, hvs, hrest⟩ := exists_above h
  obtain ⟨v, rfl⟩ := List.length_eq_one_iff.1 hvs
  exact ⟨v, rest, rfl, hrest⟩

theorem exists_two_above {m : Nat} (h : top.length = 2 + m) :
    ∃ v w rest, top = v :: w :: rest ∧ rest.length = m := by
  obtain ⟨vs, rest, rfl, hvs, hrest⟩ := exists_above h
  obtain ⟨v, w, rfl⟩ := List.length_eq_two.1 hvs
  exact ⟨v, w, rest, rfl, hrest⟩

theorem exists_three_above {m : Nat} (h : top.length = 3 + m) :
    ∃ u v w rest, top = u :: v :: w :: rest ∧ rest.length = m := by
  obtain ⟨vs, rest, rfl, hvs, hrest⟩ := exists_above h
  obtain ⟨u, v, w, rfl⟩ := List.length_eq_three.1 hvs
  exact ⟨u, v, w, rest, rfl, hrest⟩

/-- A display takes its elements. -/
theorem gives_popMany_display {n m : Nat} (htop : top.length = n + m) (hlt : top.length < 2 ^ 31)
    (st : List Value) : ∃ rest, rest.length = m ∧
      Gives (fun r => r.2 = rest ++ st) (popMany (UInt32.ofNat n).toNat (top ++ st)) := by
  refine ⟨top.drop n, by rw [List.length_drop]; omega, ?_⟩
  rw [toNat_ofNat_of_lt (by omega)]
  exact (gives_popMany (by omega) st).mono fun _ hr => hr.2

/-- The pack is taken off. -/
theorem gives_makeFunc (t : Tables) (i : UInt32) (v : Value) (st : List Value) :
    Gives (fun r => r.2 = st) (makeFunc t i (v :: st)) := by
  unfold makeFunc
  split
  · exact .throw _
  · rw [pop_bind]
    split
    · rename_i hpop
      cases hpop
      split
      · exact .bind (.throw _) fun _ => False.elim
      · exact .after fun _ => .pure rfl
    · exact .throw _

section Instructions

variable {op : Opcode} {arg : UInt32} {d : Shape} {k x y : Known} {ks : List Known} {os : List Held}
  (hst : a.stack = top ++ st) (hits : a.iters = inner ++ its)

include hst hits

/-! ### Moving values -/

/-- The instructions take and give what their shapes say, above what is kept. -/
theorem gives_dup (htop : top.length = (d.push [k]).depth) (hinner : inner.length = d.iters) :
    Gives (Effect.Keeps a (d.push [k, k]) st its) (a.execute t .dup arg) := by
  obtain ⟨v, top, rfl, hd⟩ := exists_one_above (htop.trans (Shape.depth_push _ _))
  simp only [execute, hst, List.cons_append, pop_bind]
  exact .pure (keeps_push (v :: top) hits (by simp [hd]; omega) hinner)

theorem gives_dup2 (htop : top.length = (d.push [y, x]).depth) (hinner : inner.length = d.iters) :
    Gives (Effect.Keeps a (d.push [y, x, y, x]) st its) (a.execute t .dup2 arg) := by
  obtain ⟨v, w, top, rfl, hd⟩ := exists_two_above (htop.trans (Shape.depth_push _ _))
  simp only [execute, hst, List.cons_append, pop2_bind]
  exact .pure (keeps_push (w :: v :: w :: top) hits (by simp [hd]; omega) hinner)

theorem gives_pop (htop : top.length = (d.push [k]).depth) (hinner : inner.length = d.iters) :
    Gives (Effect.Keeps a d st its) (a.execute t .pop arg) := by
  obtain ⟨v, top, rfl, hd⟩ := exists_one_above (htop.trans (Shape.depth_push _ _))
  simp only [execute, hst, List.cons_append, pop_bind]
  exact .pure (keeps_withStack hits hd hinner)

theorem gives_exch (htop : top.length = (d.push [y, x]).depth) (hinner : inner.length = d.iters) :
    Gives (Effect.Keeps a (d.push [x, y]) st its) (a.execute t .exch arg) := by
  obtain ⟨v, w, top, rfl, hd⟩ := exists_two_above (htop.trans (Shape.depth_push _ _))
  simp only [execute, hst, List.cons_append, pop2_bind]
  exact .pure (keeps_push (v :: top) hits (by simp [hd]; omega) hinner)

/-- A value on top of what there is. -/
theorem keeps_pushed {o : Held} (htop : top.length = d.depth) (hinner : inner.length = d.iters)
    (v : Value) : Effect.Keeps a (d.hold [o]) st its (push a a.stack v) := by
  rw [hst]
  exact keeps_push _ hits (by rw [htop, Shape.depth_hold, Nat.add_comm]; rfl) hinner

theorem gives_push {o : Held} (hop : op.isPush = true) (htop : top.length = d.depth)
    (hinner : inner.length = d.iters) :
    Gives (Effect.Keeps a (d.hold [o]) st its) (a.execute t op 0) := by
  obtain ⟨v, -, hexec⟩ : ∃ v : Value, v.Visible ∧ ∀ a, execute t op 0 a = pure (push a a.stack v) :=
    execute_of_isPush hop
  rw [hexec]
  exact .pure (keeps_pushed hst hits htop hinner v)

/-! ### Operators and containers -/

theorem gives_unary (hop : op.isUnary = true) (htop : top.length = (d.push [k]).depth)
    (hinner : inner.length = d.iters) :
    Gives (Effect.Keeps a (d.push [.any]) st its) (a.execute t op 0) := by
  obtain ⟨v, top, rfl, hd⟩ := exists_one_above (htop.trans (Shape.depth_push _ _))
  obtain ⟨m, -, -, hexec⟩ := execute_of_isUnary (t := t) hop
  rw [hexec, hst, List.cons_append, pop_bind]
  exact .after fun w => .pure (keeps_push _ hits (by simp [hd]; omega) hinner)

theorem gives_binary (hop : op.isBinary = true) (htop : top.length = (d.push [y, x]).depth)
    (hinner : inner.length = d.iters) :
    Gives (Effect.Keeps a (d.push [.any]) st its) (a.execute t op 0) := by
  obtain ⟨v, w, top, rfl, hd⟩ := exists_two_above (htop.trans (Shape.depth_push _ _))
  obtain ⟨m, -, -, hexec⟩ := execute_of_isBinary (t := t) hop
  rw [hexec, hst, List.cons_append, List.cons_append, pop2_bind]
  exact .after fun w => .pure (keeps_push _ hits (by simp [hd]; omega) hinner)

/-- A slice takes the value, its bounds and its step. -/
theorem gives_slice (hks : ks.length = 4) (htop : top.length = (d.push ks).depth)
    (hinner : inner.length = d.iters) :
    Gives (Effect.Keeps a (d.push [.any]) st its) (a.execute t .slice arg) := by
  obtain ⟨vs, top, rfl, hvs, hd⟩ := exists_above (htop.trans (Shape.depth_push _ _))
  obtain ⟨step, hi, lo, x, rfl⟩ := List.length_eq_four.1 (hvs.trans hks)
  simp only [execute, hst]
  exact .after fun w => .pure (keeps_push _ hits (by simp [hd]; omega) hinner)

theorem gives_setIndex (hks : ks.length = 3) (htop : top.length = (d.push ks).depth)
    (hinner : inner.length = d.iters) :
    Gives (Effect.Keeps a d st its) (a.execute t .setIndex arg) := by
  obtain ⟨vs, top, rfl, hvs, hd⟩ := exists_above (htop.trans (Shape.depth_push _ _))
  obtain ⟨z, y, x, rfl⟩ := List.length_eq_three.1 (hvs.trans hks)
  simp only [execute, hst]
  exact .after fun _ => .pure (keeps_withStack hits hd hinner)

/-- The dict of a display stays below. -/
theorem gives_setDict (hop : op = .setDict ∨ op = .setDictUniq)
    (htop : top.length = (d.push [y, x, k]).depth) (hinner : inner.length = d.iters) :
    Gives (Effect.Keeps a d st its) (a.execute t op arg) := by
  obtain ⟨v, k, x, top, rfl, hd⟩ := exists_three_above (htop.trans (Shape.depth_push _ _))
  have hdone : Effect.Keeps a d st its (withStack a (top ++ st)) := keeps_withStack hits hd hinner
  rcases hop with rfl | rfl
  all_goals
    simp only [execute, hst, List.cons_append]
    cases x with
    | dict r =>
      refine .after fun isNew => ?_
      split
      · exact .after fun _ => .bind (.throw _) fun _ => False.elim
      · exact .pure hdone
    | _ => exact .throw _

theorem gives_append (htop : top.length = (d.push [y, x]).depth) (hinner : inner.length = d.iters) :
    Gives (Effect.Keeps a d st its) (a.execute t .append arg) := by
  obtain ⟨v, x, top, rfl, hd⟩ := exists_two_above (htop.trans (Shape.depth_push _ _))
  simp only [execute, hst, List.cons_append]
  cases x with
  | list r => exact .after fun _ => .pure (keeps_withStack hits hd hinner)
  | _ => exact .throw _

/-- A list takes its elements. -/
theorem gives_makeList {n : Nat} (htop : top.length = n + d.depth) (hinner : inner.length = d.iters)
    (hlt : top.length < 2 ^ 31) :
    Gives (Effect.Keeps a (d.push [k]) st its) (a.execute t .makeList (UInt32.ofNat n)) := by
  obtain ⟨top', hd, hpop⟩ := gives_popMany_display htop hlt st
  simp only [execute, hst]
  refine hpop.bind ?_
  rintro ⟨vs, _⟩ rfl
  exact .after fun r => .pure (keeps_push _ hits (by simp [hd]; omega) hinner)

theorem gives_makeTuple {n : Nat} {o : Held} (htop : top.length = n + d.depth)
    (hinner : inner.length = d.iters) (hlt : top.length < 2 ^ 31) :
    Gives (Effect.Keeps a (d.hold [o]) st its) (a.execute t .makeTuple (UInt32.ofNat n)) := by
  obtain ⟨top', hd, hpop⟩ := gives_popMany_display htop hlt st
  simp only [execute, hst]
  refine hpop.bind ?_
  rintro ⟨vs, _⟩ rfl
  exact .pure (keeps_push _ hits (by simp [hd]; omega) hinner)

/-! ### Iterators -/

/-- An iterator is opened above those that are kept. -/
theorem gives_iterPush (htop : top.length = (d.push [k]).depth) (hinner : inner.length = d.iters) :
    Gives (Effect.Keeps a { d with iters := d.iters + 1 } st its) (a.execute t .iterPush arg) := by
  obtain ⟨v, top, rfl, hd⟩ := exists_one_above (htop.trans (Shape.depth_push _ _))
  simp only [execute, hst, List.cons_append, pop_bind]
  refine .after fun it => ?_
  cases it with
  | none => exact .throw _
  | some it =>
    refine .pure ⟨rfl, rfl, top, it :: inner, rfl, ?_, hd, congrArg (· + 1) hinner⟩
    rw [hits]
    rfl

/-- An iterator above those that are kept is closed. -/
theorem gives_iterPop (htop : top.length = d.depth) (hinner : inner.length = d.iters + 1) :
    Gives (Effect.Keeps a d st its) (a.execute t .iterPop arg) := by
  obtain ⟨it, inner, rfl⟩ := List.exists_cons_of_length_pos (show 0 < inner.length by simp [hinner])
  simp only [execute, hits, List.cons_append]
  exact .after fun _ => .pure ⟨rfl, rfl, top, inner, hst, rfl, htop, Nat.succ.inj hinner⟩

/-! ### Functions, loads and calls -/

/-- The pack is taken off, and the function pushed. -/
theorem gives_makeFunction {o : Held} (htop : top.length = (d.hold [o]).depth)
    (hinner : inner.length = d.iters) :
    Gives (Effect.Keeps a (d.push [k]) st its) (a.execute t .makeFunc arg) := by
  obtain ⟨v, top, rfl, hd⟩ := exists_one_above (htop.trans (Shape.depth_hold _ _))
  simp only [execute, hst, List.cons_append]
  refine (gives_makeFunc t arg v (top ++ st)).bind ?_
  rintro ⟨f, _⟩ rfl
  exact .pure (keeps_push _ hits (by simp [hd]; omega) hinner)

/-- Names are taken off, and as many members pushed. -/
theorem gives_load {n : Nat} (htop : top.length = (d.push (k :: List.replicate n x)).depth)
    (hinner : inner.length = d.iters) :
    Gives (Effect.Keeps a (d.push (List.replicate n y)) st its)
      (a.execute t .load (UInt32.ofNat n)) := by
  have hdepth := htop.trans (Shape.depth_push _ _)
  rw [List.length_cons, List.length_replicate, Nat.add_comm n, Nat.add_assoc] at hdepth
  obtain ⟨v, top, rfl, hd⟩ := exists_one_above hdepth
  simp only [execute, hst, List.cons_append, pop_bind]
  split
  · rename_i hpop
    cases hpop
    have hn : (UInt32.ofNat n).toNat ≤ n := by
      rw [UInt32.toNat_ofNat']
      exact Nat.mod_le _ _
    exact .pure ⟨rfl, rfl, top, inner, rfl, hits, by simp [hd], hinner, by omega⟩
  · exact .throw _

/-- The callee and the arguments are taken off, and the result pushed when it comes. -/
theorem gives_call (hop : op.isCall = true)
    (hks : ks.length =
      op.extraArguments + 2 * Opcode.namedCount arg + Opcode.positionalCount arg)
    (htop : top.length = (d.push (ks ++ [x])).depth) (hinner : inner.length = d.iters) :
    Gives (Effect.Keeps a (d.push [y]) st its) (a.execute t op arg) := by
  obtain ⟨vs, top, rfl, hvs, hd⟩ := exists_above (htop.trans (Shape.depth_push _ _))
  rw [execute_of_isCall hop, hst, List.append_assoc]
  refine (gives_takeCall hop (by rw [hvs, List.length_append, hks]; rfl) (top ++ st)).bind ?_
  rintro ⟨g, args, kwargs, _⟩ rfl
  exact .pure ⟨rfl, rfl, top, inner, rfl, hits, by simp [hd]; omega, hinner⟩

/-! ### Variables and fields -/

theorem gives_setLocal (htop : top.length = (d.push [k]).depth) (hinner : inner.length = d.iters) :
    Gives (Effect.Keeps a d st its) (a.execute t .setLocal arg) := by
  obtain ⟨v, top, rfl, hd⟩ := exists_one_above (htop.trans (Shape.depth_push _ _))
  simp only [execute, hst, List.cons_append, pop_bind]
  exact .after fun _ => .pure ⟨rfl, rfl, top, inner, rfl, hits, hd, hinner⟩

theorem gives_setLocalCell (htop : top.length = (d.push [k]).depth)
    (hinner : inner.length = d.iters) :
    Gives (Effect.Keeps a d st its) (a.execute t .setLocalCell arg) := by
  obtain ⟨v, top, rfl, hd⟩ := exists_one_above (htop.trans (Shape.depth_push _ _))
  simp only [execute, hst, List.cons_append, pop_bind]
  exact .after fun _ => .after fun _ => .pure (keeps_withStack hits hd hinner)

theorem gives_setGlobal (htop : top.length = (d.push [k]).depth) (hinner : inner.length = d.iters) :
    Gives (Effect.Keeps a d st its) (a.execute t .setGlobal arg) := by
  obtain ⟨v, top, rfl, hd⟩ := exists_one_above (htop.trans (Shape.depth_push _ _))
  simp only [execute, hst, List.cons_append, pop_bind]
  exact .after fun _ => .after fun _ => .after fun _ => .pure (keeps_withStack hits hd hinner)

theorem gives_getLocal {o : Held} (htop : top.length = d.depth) (hinner : inner.length = d.iters) :
    Gives (Effect.Keeps a (d.hold [o]) st its) (a.execute t .getLocal arg) := by
  refine .after fun v => ?_
  cases v with
  | none => exact .after fun _ => .throw _
  | some v => exact .pure (keeps_pushed hst hits htop hinner v)

theorem gives_getGlobal {o : Held} (htop : top.length = d.depth) (hinner : inner.length = d.iters) :
    Gives (Effect.Keeps a (d.hold [o]) st its) (a.execute t .getGlobal arg) := by
  refine .after fun vs => .after fun v => ?_
  cases v with
  | none => exact .after fun _ => .throw _
  | some v => exact .pure (keeps_pushed hst hits htop hinner v)

theorem gives_predeclared {o : Held} (htop : top.length = d.depth)
    (hinner : inner.length = d.iters) :
    Gives (Effect.Keeps a (d.hold [o]) st its) (a.execute t .predeclared arg) := by
  refine .after fun name => .after fun v => ?_
  cases v with
  | none => exact .throw _
  | some v => exact .pure (keeps_pushed hst hits htop hinner v)

theorem gives_universal {o : Held} (htop : top.length = d.depth) (hinner : inner.length = d.iters) :
    Gives (Effect.Keeps a (d.hold [o]) st its) (a.execute t .universal arg) := by
  simp only [execute]
  refine .after fun name => ?_
  split
  · exact .pure (keeps_pushed hst hits htop hinner _)
  · exact .throw _

/-- The value is taken off, and its attribute pushed. -/
theorem gives_attr (htop : top.length = (d.push [k]).depth) (hinner : inner.length = d.iters) :
    Gives (Effect.Keeps a (d.push [.any]) st its) (a.execute t .attr arg) := by
  obtain ⟨v, top, rfl, hd⟩ := exists_one_above (htop.trans (Shape.depth_push _ _))
  simp only [execute, hst, List.cons_append, pop_bind]
  exact .after fun _ => .after fun _ => .pure (keeps_push _ hits (by simp [hd]; omega) hinner)

theorem gives_setField (htop : top.length = (d.push [y, x]).depth)
    (hinner : inner.length = d.iters) :
    Gives (Effect.Keeps a d st its) (a.execute t .setField arg) := by
  obtain ⟨v, w, top, rfl, hd⟩ := exists_two_above (htop.trans (Shape.depth_push _ _))
  simp only [execute, hst, List.cons_append, pop2_bind]
  exact .after fun _ => .after fun _ => .pure (keeps_withStack hits hd hinner)

end Instructions

/-- An instruction takes what its type says, and keeps what is below. -/
theorem gives_execute {r : Rules} {link : Linkage} {c : Scopes} {op : Opcode} {arg : UInt32}
    {d e : Shape} (hm : Moves r link c op arg d e) (hst : a.stack = top ++ st)
    (hits : a.iters = inner ++ its) (htop : top.length = d.depth) (hinner : inner.length = d.iters)
    (hlt : top.length < 2 ^ 31) : Gives (Effect.Keeps a e st its) (a.execute t op arg) := by
  have pushed : ∀ {k : Known} {d : Shape} (v : Value), top.length = d.depth →
      inner.length = d.iters → Effect.Keeps a (d.push [k]) st its (push a a.stack v) :=
    fun v hd hi => keeps_pushed hst hits hd hi v
  -- one lemma for each way an instruction moves the stack
  cases hm with
  | dup _ _ => exact gives_dup hst hits htop hinner
  | dup2 _ _ _ => exact gives_dup2 hst hits htop hinner
  | pop _ _ => exact gives_pop hst hits htop hinner
  | exch _ _ _ => exact gives_exch hst hits htop hinner
  | push hop _ => exact gives_push hst hits hop htop hinner
  | mandatory _ => exact .pure (keeps_pushed hst hits htop hinner .mandatory)
  | constant _ _ => exact .after fun x => .pure (pushed _ htop hinner)
  | unary hop _ _ => exact gives_unary hst hits hop htop hinner
  | binary hop _ _ _ => exact gives_binary hst hits hop htop hinner
  | slice _ hks _ => exact gives_slice hst hits hks htop hinner
  | setIndex _ hks _ => exact gives_setIndex hst hits hks htop hinner
  | makeDict _ => exact .after fun r => .pure (pushed _ htop hinner)
  | setDict hop _ _ _ => exact gives_setDict hst hits hop htop hinner
  | append _ _ => exact gives_append hst hits htop hinner
  | makeList _ _ => exact gives_makeList hst hits (htop.trans (Shape.depth_push _ _)) hinner hlt
  | makeTuple _ _ => exact gives_makeTuple hst hits (htop.trans (Shape.depth_push _ _)) hinner hlt
  | makePack _ _ _ _ _ =>
    exact gives_makeTuple hst hits (htop.trans (Shape.depth_hold _ _)) hinner hlt
  | iterPush _ _ => exact gives_iterPush hst hits htop hinner
  | iterPop _ => exact gives_iterPop hst hits htop hinner
  | makeFunc _ _ _ => exact gives_makeFunction hst hits htop hinner
  | load _ _ => exact gives_load hst hits htop hinner
  | call hop _ _ hks _ _ => exact gives_call hst hits hop hks htop hinner
  | setLocal _ _ _ => exact gives_setLocal hst hits htop hinner
  | setLocalCell _ _ _ => exact gives_setLocalCell hst hits htop hinner
  | setGlobal _ _ _ => exact gives_setGlobal hst hits htop hinner
  | getLocal _ _ => exact gives_getLocal hst hits htop hinner
  | getCell _ _ => exact gives_getLocal hst hits htop hinner
  | free _ _ => exact .after fun v => .pure (keeps_pushed hst hits htop hinner v)
  | freeCell _ _ =>
    exact .after fun _ => .after fun _ => .after fun _ => .after fun v =>
      .pure (pushed v htop hinner)
  | localCell _ _ =>
    exact .after fun _ => .after fun _ => .after fun v => .pure (pushed v htop hinner)
  | getGlobal _ _ => exact gives_getGlobal hst hits htop hinner
  | predeclared _ _ _ => exact gives_predeclared hst hits htop hinner
  | universal _ _ _ => exact gives_universal hst hits htop hinner
  | attr _ _ _ => exact gives_attr hst hits htop hinner
  | setField _ _ _ _ => exact gives_setField hst hits htop hinner

end Activation

namespace Running

variable {p : Program} {predeclared : String → Prop} {R : Running p predeclared} {n : Nat}
  {q : Point} {st : List Value} {its : List Iter} {s : Scene} {d e : Shape}

/-- A function that executes an instruction above a stack rests above it. -/
theorem ExecutesAt.rests {t : Thread} (h : R.ExecutesAt n t st its) : R.RestsAt n st its := by
  obtain ⟨heap, a, hrun, ha, hst, hits⟩ := h
  exact ⟨[], a, .call, by rw [hrun]; rfl, ha, hst, hits⟩

/-- A function that is cut is left. -/
theorem CutAt.left (h : R.CutAt n st its) : R.LeftAt (n + 1) := by
  obtain ⟨t, ⟨heap, a, hrun, ha, -⟩, hcancelled⟩ := h
  obtain ⟨reason, hreason⟩ := Option.ne_none_iff_exists'.1 hcancelled
  refine ⟨heap, t.tick, a, .cancelled reason, ?_, ha⟩
  rw [Machine.run_succ_eq_step, hrun]
  simp only [Machine.step, Machine.exec, hreason]

/-- What is executed keeps what it is executed above. -/
theorem Comes.keeps {P : Nat → Prop} (h : R.Comes n st its P) : R.Keeps n st its P := by
  obtain ⟨j, hj, hbefore, hend⟩ := h
  intro m hm
  by_cases hmj : m < j
  · obtain ⟨t, ht⟩ := hbefore m hm hmj
    exact .inl ht.rests
  rcases hend with hcut | hp
  · rcases Nat.eq_or_lt_of_le (Nat.not_lt.1 hmj) with rfl | hlt
    · obtain ⟨t, ht, -⟩ := hcut
      exact .inl ht.rests
    · exact .inr ⟨j + 1, by omega, hlt, .inr hcut.left⟩
  · exact .inr ⟨j, hj, Nat.not_lt.1 hmj, .inl hp⟩

/-- A function that fails leaves the stack, and so keeps it. -/
theorem FailsAt.keeps {P : Nat → Prop} {x : Stop} {st' : List Value} {its' : List Iter}
    (h : R.FailsAt n x st' its' s) (hst : st <:+ st') (hits : its <:+ its') :
    R.Keeps n st its P := by
  obtain ⟨t, a, hrun, -, ha, hst', rfl⟩ := h
  exact .stopped hrun ha (hst.trans hst') hits

/-- A call pushes its value. -/
theorem CallsAt.keeps {f : Value} {args : List Value} {kwargs : Keywords} {top : List Value}
    {inner : List Iter} (h : R.CallsAt n f args kwargs q (top ++ st) (inner ++ its) s)
    (htop : top.length + 1 = e.depth) (hinner : inner.length = e.iters) :
    R.Keeps n st its fun m => R.LiesAt m q e st its := by
  obtain ⟨t, a, hrun, -, ha, hnext, hl, hst, hits⟩ := h
  refine keeps_call hrun ha ⟨top, hst.symm⟩ ⟨inner, hits.symm⟩ fun m heap t r _ hm => ?_
  cases r with
  | ok v =>
    refine .here ⟨v :: top, inner, ⟨heap, t, a.locals⟩, ?_, htop, hinner⟩
    exact ⟨a.next, hnext, t, _, hm, .refl t, ha, rfl, rfl, by rw [hst]; rfl, hits⟩
  | error x => exact .left ⟨heap, t, a, x, hm, ha⟩

/-- The members of a module replace their names. -/
theorem keeps_bindMembers {heap : Heap} {t : Thread} {a : Activation} {name : String} {count : Nat}
    {members : Env} {top : List Value} {inner : List Iter}
    (hrun : Machine.run n R.start = Machine.bindMembers heap t a R.callers name count members)
    (ha : a.func = R.func) (hnext : R.code.layout.Enters R.code.graph R.body.code a.next q)
    (hst : a.stack = top ++ st) (hits : a.iters = inner ++ its) (hcount : count ≤ top.length)
    (htop : top.length = e.depth) (hinner : inner.length = e.iters) :
    R.Keeps n st its fun m => R.LiesAt m q e st its := by
  have hgives := Op.gives_replaceNames members name hcount st
  unfold Machine.bindMembers at hrun
  rw [hst] at hrun
  split at hrun
  · rename_i st' heap' hreplaced
    obtain ⟨top', rfl, hlen⟩ := hgives _ _ _ hreplaced
    refine .here ⟨top', inner, ⟨heap', t, a.locals⟩, ?_, hlen.trans htop, hinner⟩
    exact ⟨a.next, hnext, t, _, hrun, .refl t, ha, rfl, rfl, rfl, hits⟩
  · exact .stopped hrun ha ⟨top, hst.symm⟩ ⟨inner, hits.symm⟩

/-- A function that loads waits above the stack, and goes on with the members. -/
theorem LoadsAt.keeps {name : String} {count : Nat} {top : List Value} {inner : List Iter}
    (h : R.LoadsAt n name count q (top ++ st) (inner ++ its) s) (hcount : count ≤ top.length)
    (htop : top.length = e.depth) (hinner : inner.length = e.iters) :
    R.Keeps n st its fun m => R.LiesAt m q e st its := by
  obtain ⟨t, a, hrun, -, ha, hnext, hl, hst, hits⟩ := h
  unfold Machine.load at hrun
  split at hrun
  · exact .left ⟨_, _, a, _, hrun, ha⟩
  · exact .left ⟨_, _, a, _, hrun, ha⟩
  · exact keeps_bindMembers hrun ha hnext hst hits hcount htop hinner
  · refine keeps_call hrun ha ⟨top, hst.symm⟩ ⟨inner, hits.symm⟩ fun m heap t r _ hm => ?_
    cases r with
    | ok v => exact keeps_bindMembers hm ha hnext hst hits hcount htop hinner
    | error x => exact .left ⟨_, _, a, _, hm, ha⟩

/-- An instruction keeps what is below. -/
theorem LiesAt.move {op : Opcode} {arg : UInt32} (h : R.LiesAt n q d st its)
    (hi : R.code.graph.InsnAt q op arg) (hop : op.isCondJump = false)
    (harg : op.hasArg = false → arg = 0)
    (hm : (shapeTyping .full (.of p.pool)).Steps R.code.scopes op arg d e) :
    R.Keeps n st its fun m => R.LiesAt m q.next e st its := by
  obtain ⟨e', hm, hle⟩ := hm
  obtain ⟨top, inner, s, hstands, htop, hinner⟩ := h
  refine Keeps.bind ((hstands.execute hi hop harg).below (List.suffix_append top st)
    (List.suffix_append inner its)).keeps fun m _ hm' => ?_
  obtain ⟨a, ha, hl, hst, hits, hlt, hyields⟩ := hm'
  have hgives := Activation.gives_execute (t := R.tables) hm hst hits htop hinner
    (by rw [List.length_append] at hlt; omega)
  generalize hresult : a.execute R.tables op arg s.heap = result at hyields
  have hdepth := hle.depth_eq
  have hiters := hle.1
  -- every effect keeps what lies below; only the first leaves the function where it was
  match result with
  | .ok (.proceed b) heap =>
    obtain ⟨hbf, hbn, top', inner', hst', hits', htop', hinner'⟩ := hgives _ _ _ hresult
    have hnext := hyields hbf hbn
    rw [hst', hits'] at hnext
    exact .here ⟨top', inner', _, hnext, htop'.trans hdepth, hinner'.trans hiters⟩
  | .ok (.call b f args kwargs) heap =>
    obtain ⟨hbf, hbn, top', inner', hst', hits', htop', hinner'⟩ := hgives _ _ _ hresult
    have hcalls := hyields hbf hbn
    rw [hst', hits'] at hcalls
    exact hcalls.keeps (htop'.trans hdepth) (hinner'.trans hiters)
  | .ok (.load b name count) heap =>
    obtain ⟨hbf, hbn, top', inner', hst', hits', htop', hinner', hcount⟩ := hgives _ _ _ hresult
    have hloads := hyields hbf hbn
    rw [hst', hits'] at hloads
    exact hloads.keeps hcount (htop'.trans hdepth) (hinner'.trans hiters)
  | .ok (.finish v) heap => exact False.elim (hgives _ _ _ hresult)
  | .error x heap => exact FailsAt.keeps hyields ⟨top, hst.symm⟩ ⟨inner, hits.symm⟩

/-- A shape that says less describes the stack as well. -/
theorem LiesAt.le (h : R.LiesAt n q d st its) (hle : d.Le e) : R.LiesAt n q e st its := by
  obtain ⟨top, inner, s, hstands, htop, hinner⟩ := h
  exact ⟨top, inner, s, hstands, htop.trans hle.depth_eq, hinner.trans hle.1⟩

/-- At the end of a block the function stands at the start of the next. -/
theorem LiesAt.ends (h : R.LiesAt n q d st its) {c : BlockId} (hend : R.code.graph.EndsAt q c) :
    R.LiesAt n ⟨c, 0⟩ d st its := by
  obtain ⟨top, inner, s, hstands, htop, hinner⟩ := h
  exact ⟨top, inner, s, hstands.ends hend, htop, hinner⟩

/-- A conditional jump keeps what is below. It takes some time. -/
theorem LiesAt.branch {op : Opcode} {t f : BlockId} {x y : Shape} (h : R.LiesAt n q d st its)
    (hbr : R.code.graph.BranchAt q op t f)
    (hty : (shapeTyping .full (.of p.pool)).Branches op d x y) :
    R.Keeps n st its fun m => n < m ∧
        (R.LiesAt m ⟨t, 0⟩ x st its ∨ R.LiesAt m ⟨f, 0⟩ y st its) := by
  obtain ⟨x', y', hty, hx, hy⟩ := hty
  obtain ⟨top, inner, s, hstands, htop, hinner⟩ := h
  -- a conditional jump takes one value off; a loop's jump takes an iterator off or pushes its next
  -- value
  rcases hty with ⟨rfl, k, rfl, rfl⟩ | ⟨rfl, hpos, rfl, rfl⟩
  · obtain ⟨v, top, rfl, hd⟩ := Activation.exists_one_above (htop.trans (Shape.depth_push _ _))
    have hjump : R.Comes n (v :: (top ++ st)) (inner ++ its) fun m => n < m ∧
        R.StandsAt m ⟨if s.heap.truth v then t else f, 0⟩ (top ++ st) (inner ++ its) s :=
      hstands.cjmp hbr
    refine (hjump.below (List.suffix_append (v :: top) st)
      (List.suffix_append inner its)).keeps.mono fun m _ hm => ⟨hm.1, ?_⟩
    cases htruth : s.heap.truth v with
    | true =>
      rw [htruth] at hm
      exact .inl (LiesAt.le ⟨top, inner, s, hm.2, hd, hinner⟩ hx)
    | false =>
      rw [htruth] at hm
      exact .inr (LiesAt.le ⟨top, inner, s, hm.2, hd, hinner⟩ hy)
  · obtain ⟨it, inner, rfl⟩ := List.exists_cons_of_length_pos (show 0 < inner.length by omega)
    have hjump : R.Comes n (top ++ st) (it :: (inner ++ its)) _ := hstands.iterJmp hbr
    refine (hjump.below (List.suffix_append top st)
      (List.suffix_append (it :: inner) its)).keeps.mono fun m _ hm => ⟨hm.1, ?_⟩
    cases hn : s.heap.nextElem? it with
    | none =>
      rw [hn] at hm
      exact .inl (LiesAt.le ⟨top, it :: inner, s, hm.2, htop, hinner⟩ hx)
    | some next =>
      rw [hn] at hm
      have hlies : R.LiesAt m ⟨f, 0⟩ (x'.push [.any]) st its := by
        refine ⟨next.1 :: top, next.2 :: inner, s, hm.2, ?_, hinner⟩
        rw [List.length_cons, htop, Shape.depth_push, Nat.add_comm]
        rfl
      exact .inr (hlies.le hy)

/-- Unpacking keeps what is below; its count fits, since its targets are typed. -/
theorem LiesAt.unpack {count lo hi : Nat} {loops : List Loop} {targets : Plan} {q' : Point}
    {d' : Shape} (h : R.LiesAt n q d st its)
    (hat : (Plan.unpack count targets).At p.pool R.code.graph loops q lo q' hi)
    (hty : (Plan.unpack count targets).Typed (shapeTyping .full (.of p.pool))
    R.code.scopes none d d')
    (he : (shapeTyping .full (.of p.pool)).unpack count d e) :
    R.Keeps n st its fun m => R.LiesAt m q.next e st its := by
  obtain ⟨top, inner, s, hstands, htop, hinner⟩ := h
  -- the operand is the count itself, as the depth of the function bounds it
  have hlt : count < 2 ^ 31 := by
    obtain ⟨pc, henters, -⟩ := id hstands
    obtain ⟨_, _, _, hplaced, -⟩ := henters.slides hat.1
    exact Annotates.unpack_lt (covers_of .full p.pool) (measures_shapeTyping .full _)
      R.code.annotates R.code.leveled (R.code.reached hplaced) hat.1
      ⟨loops, none, targets, lo, q', hi, d, d', hat, hty⟩
  obtain ⟨k, b, rfl, rfl⟩ := he
  obtain ⟨v, top, rfl, hd⟩ := Activation.exists_one_above (htop.trans (Shape.depth_push _ _))
  refine Keeps.bind ((hstands.execute hat.1 rfl nofun).below (List.suffix_append (v :: top) st)
    (List.suffix_append inner its)).keeps fun m _ hm => ?_
  obtain ⟨a, ha, hl, hst, hits, -, hyields⟩ := hm
  have hst' : a.stack = v :: (top ++ st) := hst
  have harg : (UInt32.ofNat count).toNat = count := toNat_ofNat_of_lt (by omega)
  rw [show a.execute R.tables .unpack (UInt32.ofNat count) = (do
      return a.withStack ((← Op.unpack v count) ++ (top ++ st))) by
    simp only [Activation.execute, hst', Op.pop_bind, harg], Starlark.bind_apply] at hyields
  -- a value that does not have `count` elements fails instead
  have hsafe : Op.Safe (fun _ => False) False (fun vs => vs.length = count)
      (Op.unpack v count) s.heap :=
    Op.safe_unpack v count
  unfold Op.Safe at hsafe
  cases hr : Op.unpack v count s.heap with
  | ok vs heap =>
    rw [hr] at hyields hsafe
    have hnext := hyields rfl rfl
    refine .here ⟨vs ++ top, inner, ⟨heap, s.thread, a.locals⟩, ?_, ?_, hinner⟩
    · rw [List.append_assoc, ← hits]
      exact hnext
    · rw [List.length_append, hsafe.2, hd, Shape.depth_push, List.length_replicate]
  | error x heap =>
    rw [hr] at hyields
    exact FailsAt.keeps hyields ⟨v :: top, hst.symm⟩ ⟨inner, hits.symm⟩

end Running

/-! ## Plans -/

section

variable {p : Program} {predeclared : String → Prop} {R : Running p predeclared}
  {st : List Value} {its : List Iter}

open Running

mutual

/-- Code of a typed plan keeps what is below. -/
theorem Plan.contained (code : Plan) {n lo hi : Nat} {q q' : Point} {loops : List Loop}
    {d d' : Shape} (hat : code.At p.pool R.code.graph loops q lo q' hi)
    (hty : code.Typed (shapeTyping .full (.of p.pool)) R.code.scopes none d d')
    (h : R.LiesAt n q d st its) : R.Keeps n st its fun m => R.LiesAt m q' d' st its := by
  match code with
  | .skip | .pos _ | .load _ =>
    obtain ⟨rfl, rfl⟩ := hat
    cases hty
    exact .here h
  | .seq a b =>
    obtain ⟨m, mid, hata, hatb⟩ := hat
    obtain ⟨e, ha, hb⟩ := hty
    exact (Plan.contained a hata ha h).bind fun k _ h => Plan.contained b hatb hb h
  | .op o =>
    obtain ⟨hinsn, rfl, rfl⟩ := hat
    obtain ⟨hplain, -, hsteps⟩ := hty
    exact h.move hinsn (Opcode.isCondJump_of_isPlain hplain) (fun _ => rfl) hsteps
  | .arg o i =>
    obtain ⟨hinsn, rfl, rfl⟩ := hat
    obtain ⟨hplain, harg, hsteps⟩ := hty
    exact h.move hinsn (Opcode.isCondJump_of_isPlain hplain)
      (fun hno => by rw [harg] at hno; cases hno) hsteps
  | .const c =>
    obtain ⟨i, hindex, hinsn, rfl, rfl⟩ := hat
    exact h.move hinsn rfl nofun (hty i hindex)
  | .name s k =>
    obtain ⟨i, hindex, hat⟩ := hat
    exact Plan.contained (k i) hat (hty i hindex) h
  | .unpack count targets =>
    obtain ⟨e, he, htargets⟩ := id hty
    exact (h.unpack hat hty he).bind fun k _ h => Plan.contained targets hat.2 htargets.typed h
  | .either test a b =>
    obtain ⟨m1, q1, m2, q2, hatt, hata, henda, hatb, hendb, rfl⟩ := hat
    obtain ⟨e1, e2, x, y, ht, ha, hx, hb, hy⟩ := hty
    refine (Test.contained test hatt ht h).bind fun k _ h => ?_
    rcases h with h | h
    · exact (Plan.contained a hata ha h).mono fun k _ h => (h.ends henda).le hx
    · exact (Plan.contained b hatb hb h).mono fun k _ h => (h.ends hendb).le hy
  | .guard test a =>
    obtain ⟨m1, q1, hatt, hata, hend, rfl⟩ := hat
    obtain ⟨e, x, ht, ha, hx⟩ := hty
    refine (Test.contained test hatt ht h).bind fun k _ h => ?_
    rcases h with h | h
    · exact (Plan.contained a hata ha h).mono fun k _ h => (h.ends hend).le hx
    · exact .here h
  | .short stopIf a b =>
    obtain ⟨m, mid, q1, hata, hdup, hbr, hpop, hatb, hend, rfl⟩ := hat
    obtain ⟨e, e1, x, x1, y, ha, hsdup, hsbr, hspop, hb, hy⟩ := hty
    refine (Plan.contained a hata ha h).bind fun k _ h => ?_
    refine (h.move hdup rfl (fun _ => rfl) hsdup).bind fun k _ h => ?_
    refine (h.branch hbr hsbr).bind fun k _ h => ?_
    have hends : R.LiesAt k ⟨lo, 0⟩ d' st its ∨ R.LiesAt k ⟨lo + 1, 0⟩ x st its := by
      cases stopIf
      · exact h.2.symm
      · exact h.2
    rcases hends with h | h
    · exact .here h
    · refine (h.move hpop rfl (fun _ => rfl) hspop).bind fun k _ h => ?_
      exact (Plan.contained b hatb hb h).mono fun k _ h => (h.ends hend).le hy
  | .each isLoop iterable pos vars body =>
    obtain ⟨m1, h1, m2, h2, m3, hati, hpush, hend, hbr, hatv, hatb, hround, hpop, rfl⟩ := hat
    obtain ⟨e, e1, head, tail, round, e2, e3, hi, hspush, hhead, hsbr, hv, hb, he3, hspop⟩ := hty
    cases isLoop with
    | true =>
      obtain ⟨_, hnone, -⟩ := hb
      cases hnone
    | false =>
      refine (Plan.contained iterable hati hi h).bind fun k _ h => ?_
      refine (h.move hpush rfl (fun _ => rfl) hspush).bind fun k _ h => ?_
      -- a round is what happens between two visits to the head
      refine Keeps.rounds (I := fun k => R.LiesAt k ⟨lo, 0⟩ head st its) (fun k h => ?_)
        ((h.ends hend).le hhead)
      refine (h.branch hbr hsbr).bind fun k1 _ h => ?_
      obtain ⟨hlt, h | h⟩ := h
      · exact (h.move hpop rfl (fun _ => rfl) hspop).mono fun _ _ h => .inl h
      · refine (Plan.contained vars hatv hv h).bind fun k2 hk2 h => ?_
        exact (Plan.contained body hatb hb h).mono fun k3 hk3 h =>
          .inr ⟨by omega, (h.ends hround).le he3⟩
  | .whileLoop test body =>
    obtain ⟨_, _, _, _, hnone, -⟩ := hty
    cases hnone
  | .leave isBreak =>
    obtain ⟨_, _, hnone, -⟩ := hty
    cases hnone
  | .ret => cases hty.1
  | .func f body k =>
    obtain ⟨i, a, hindex, -, hat⟩ := hat
    exact Plan.contained (k i) hat (hty.2.2 i ⟨a, hindex⟩) h
  | .fail e => exact False.elim hat

/-- Code of a typed test keeps what is below. -/
theorem Test.contained (test : Test) {n lo hi : Nat} {q : Point} {t f : BlockId}
    {loops : List Loop} {d x y : Shape}
    (hat : test.At p.pool R.code.graph loops q lo t f hi)
    (hty : test.Typed (shapeTyping .full (.of p.pool)) R.code.scopes d x y)
    (h : R.LiesAt n q d st its) : R.Keeps n st its fun m =>
      R.LiesAt m ⟨t, 0⟩ x st its ∨ R.LiesAt m ⟨f, 0⟩ y st its := by
  -- on the test, whose second half begins in the block between its two jumps
  match test with
  | .on code =>
    obtain ⟨m, hat, hbr⟩ := hat
    obtain ⟨e, hcode, hsbr⟩ := hty
    refine (Plan.contained code hat hcode h).bind fun k _ h => ?_
    exact (h.branch hbr hsbr).mono fun _ _ h => h.2
  | .not test => exact (Test.contained test hat hty h).mono fun _ _ h => h.symm
  | .both code test =>
    obtain ⟨m, mid, hat, hbr, hatt⟩ := hat
    obtain ⟨e, z, hcode, hsbr, htest⟩ := hty
    refine (Plan.contained code hat hcode h).bind fun k _ h => ?_
    refine (h.branch hbr hsbr).bind fun k _ h => ?_
    rcases h.2 with h | h
    · exact Test.contained test hatt htest h
    · exact .here (.inr h)
  | .either code test =>
    obtain ⟨m, mid, hat, hbr, hatt⟩ := hat
    obtain ⟨e, z, hcode, hsbr, htest⟩ := hty
    refine (Plan.contained code hat hcode h).bind fun k _ h => ?_
    refine (h.branch hbr hsbr).bind fun k _ h => ?_
    rcases h.2 with h | h
    · exact .here (.inl h)
    · exact Test.contained test hatt htest h

end

end

namespace Running

variable {p : Program} {predeclared : String → Prop} {R : Running p predeclared} {n : Nat}
  {q q' : Point} {st : List Value} {its : List Iter} {s : Scene}

/-- The evaluation of an expression keeps what is below, until it has left the value on top. -/
theorem keeps_expr {x : Expr} (hx : Resolved.expr .full R.code.scopes x) (hq : R.Holds x q q')
    (h : R.StandsAt n q st its s) :
    R.Keeps n st its fun m => ∃ v s', R.StandsAt m q' (v :: st) its s' := by
  obtain ⟨loops, lo, hi, hat⟩ := hq
  have hgood : (Lowering.expr x).Good .full (.of p.pool) R.code.scopes := Lowering.expr_good x hx
  obtain ⟨k, hty⟩ := hgood.value.value none ⟨[], 0⟩
  have hlies : R.LiesAt n q ⟨[], 0⟩ st its := ⟨[], [], s, h, rfl, rfl⟩
  refine (Plan.contained _ hat hty hlies).mono fun m _ hm => ?_
  obtain ⟨top, inner, s', hstands, htop, hinner⟩ := hm
  obtain ⟨v, rfl⟩ := List.length_eq_one_iff.1 htop
  obtain rfl := List.length_eq_zero_iff.1 hinner
  exact ⟨v, s', hstands⟩

end Running

end Starlark
