import Starlark.Proofs.Direct.Sums

/-!
# Trees

The plan of a tree performs the evaluation of the tree, by induction on the tree.
-/

set_option autoImplicit false

namespace Starlark

variable {p : Program} {predeclared : String → Prop} {R : Running p predeclared} {c : Surroundings}

/-- A function without free variables uses none. -/
theorem Surroundings.Around.scope_ne_free (hc : c.Around R) {id : Ident}
    (h : R.code.scopes.Uses .full id) : id.scope ≠ .free := by
  intro hid
  have hlt := h rfl
  rw [hid] at hlt
  have hlt : id.index.toNat < R.code.scopes.free := hlt
  rw [hc.free] at hlt
  exact Nat.not_lt_zero _ hlt

namespace Lowering

open Lowered

/-! ## Operators -/

section

variable {x y : Lowered} {dx dy : Option Display} {mx my : Eval Value}

/-- A unary operator is evaluated after its operand. -/
theorem values_unary (hx : x.Values R dx mx) (o : UnaryOp) (pos : Position) :
    (plain (x.value ++ .pos pos ++ .op (Build.unaryOpcode o))).Values R none
      (do let v ← mx; Eval.op (Op.check fun h => h.unary o v)) := by
  refine values_plain fun st => ?_
  rintro loops q lo q' hi its s ⟨_, _, ⟨_, _, hat, rfl, rfl⟩, hinsn, rfl, rfl⟩ hv
  exact (hx.value st hat hv).bind fun v s hv => hv.act hinsn (.unary o v st)

/-- A binary operator is evaluated after its operands, from the left. -/
theorem performs_strict (hx : x.Values R dx mx) (hy : y.Values R dy my) (o : BinOp) (pos : Position)
    (st : List Value) : (x.value ++ y.value ++ binaryOp pos o : Plan).Performs R none st
      (do let v ← mx; let w ← my; Eval.op (Op.binary o v w)) (· :: st) := by
  rintro loops q lo q' hi its s ⟨_, _, ⟨_, _, hatx, haty⟩, hat⟩ hv
  refine (hx.value st hatx hv).bind fun v s hv => ?_
  refine (hy.value _ haty hv).bind fun w s hv => ?_
  exact performs_binaryOp pos o v w hat hv

/-- The value of a binary operator; displays are not joined where they are apart. -/
theorem values_binary {x y : Expr} (hx : (expr x).Values R dx (Eval.expr c x))
    (hy : (expr y).Values R y.display? (Eval.expr c y)) (o : BinOp) (pos : Position)
    (hapart : o = .plus → Display.Apart y.display? ((expr x).part none).2.display?) :
    (expr (.binary o x y pos)).Values R none (Eval.expr c (.binary o x y pos)) := by
  -- the two operators that jump have tests of their own, and `not in` is tested through `in`
  cases o with
  | and =>
    have hshort := values_plain fun st => Plan.Performs.short false
      (k := fun v b => if b then Eval.expr c y else return v) (hx.value st) (hy.value st)
      (fun _ => rfl) fun _ => rfl
    exact ⟨hshort.first, hshort.further, fun st => .both (hx.value st) (hy.test st)⟩
  | or =>
    have hshort := values_plain fun st => Plan.Performs.short true
      (k := fun v b => if b then return v else Eval.expr c y) (hx.value st) (hy.value st)
      (fun _ => rfl) fun _ => rfl
    exact ⟨hshort.first, hshort.further, fun st => .either (hx.value st) (hy.test st)⟩
  | plus => exact values_plus hx hy pos (hapart rfl)
  | notIn =>
    have hstrict := values_plain (performs_strict hx hy .notIn pos)
    refine ⟨hstrict.first, hstrict.further, fun st => ?_⟩
    have hisIn := Test.Decides.not (.on (performs_strict hx hy .isIn pos st))
    simp only [expr]
    simpa only [Eval.expr, Eval.op_notIn, bind_assoc, Eval.truth_unary_not, map_bind] using hisIn
  | _ => exact values_plain (performs_strict hx hy _ pos)

end

/-! ## Displays that are pending -/

/-- A summand is a display if its plan ends as one. -/
theorem display?_part_some (x : Expr) (sum : Sum) (pos : Position) {d : Display}
    (h : ((expr x).part (some (sum, pos))).2.display? = some d) : x.display? = some d := by
  match x with
  | .paren x => exact display?_part_some x sum pos h
  | .list elems =>
    cases sum <;> exact h
  | .tuple elems =>
    cases sum <;> exact h
  | .literal (.str s) _ => cases sum <;> cases h
  | .literal (.bytes b) _ => cases sum <;> cases h
  | .binary o x y pos => cases o <;> cases h
  | .unary o x pos => cases o <;> cases h
  | .literal (.int n) _ | .literal (.float bits) _ | .ident _ | .dict _ | .cond _ _ _ | .index _ _ _
  | .slice _ _ _ _ _ | .dot _ _ _ | .call _ _ _ | .comprehension _ _ | .lambda _ => cases h

/-- A display that is pending is the last summand. -/
theorem display?_part_none (x : Expr) {d : Display}
    (h : ((expr x).part none).2.display? = some d) : x.lastDisplay? = some d := by
  match x with
  | .paren x => exact display?_part_none x h
  | .list elems => exact h
  | .tuple elems => exact h
  | .binary o x y pos =>
    cases o with
    | plus => exact display?_part_some y _ pos h
    | _ => cases h
  | .literal (.str s) _ => cases h
  | .literal (.bytes b) _ => cases h
  | .unary o x pos => cases o <;> cases h
  | .literal (.int n) _ | .literal (.float bits) _ | .ident _ | .dict _ | .cond _ _ _ | .index _ _ _
  | .slice _ _ _ _ _ | .dot _ _ _ | .call _ _ _ | .comprehension _ _ | .lambda _ => cases h

/-- The targets of an unpacking are typed. -/
theorem unpack_typed (pos : Position) {xs : List Expr} {r : Rules} {link : Linkage} {s : Scopes}
    (h : Resolved.targets r s xs) :
    (Plan.unpack xs.length (assignAll pos xs)).Typed (shapeTyping r link) s none
      ⟨[.visible .any], 0⟩ ⟨[], 0⟩ :=
  ⟨_, ⟨.any, ⟨[], 0⟩, rfl, rfl⟩, assignAll_typed pos xs h _ List.length_replicate ⟨[], 0⟩⟩

mutual

/-- The plan of an expression leaves its value. -/
theorem expr_values (hc : c.Around R) (x : Expr) (h : Resolved.expr .full R.code.scopes x)
    (hd : Direct.expr x) : (expr x).Values R x.display? (Eval.expr c x) := by
  match x with
  | .paren x =>
    have hx := expr_values hc x h hd
    exact ⟨hx.first, hx.further, fun st => .on (hx.value st)⟩
  | .ident id => exact values_plain fun st => performs_lookup hc (hc.scope_ne_free h)
  | .literal (.str s) _ => exact values_str s
  | .literal (.bytes b) _ => exact values_bytes b
  | .literal (.int n) _ => exact values_plain fun st _ _ _ _ _ _ _ hat hv => hv.const hat
  | .literal (.float bits) _ => exact values_plain fun st _ _ _ _ _ _ _ hat hv => hv.const hat
  | .list elems => exact values_list (exprs_pushes hc elems h hd)
  | .tuple elems => exact values_tuple (exprs_pushes hc elems h hd)
  | .dict items =>
    refine values_plain fun st => ?_
    rintro loops q lo q' hi its s ⟨_, _, ⟨hinsn, rfl, rfl⟩, hat⟩ hv
    refine (hv.act hinsn (.makeDict st)).bind fun r s hv => ?_
    exact (entries_performs hc items h hd r st hat hv).bind fun _ s hv => hv
  | .unary o x pos =>
    have hx := expr_values hc x h hd
    have hplain := values_unary hx o pos
    cases o with
    -- a test of the operand is the other test of the expression
    | not =>
      refine ⟨hplain.first, hplain.further, fun st => ?_⟩
      have htest := Test.Decides.not (hx.test st)
      simp only [expr]
      simpa only [Eval.expr, bind_assoc, Eval.truth_unary_not, map_bind] using htest
    | _ => exact hplain
  | .binary o x y pos =>
    have hy := expr_values hc y h.2 hd.2.1
    refine values_binary (expr_values hc x h.1 hd.1) hy o pos fun ho d hdy hdx => ?_
    exact hd.2.2 ho d (display?_part_none x hdx) hdy
  | .cond t a b =>
    have ht := expr_values hc t h.1 hd.1
    have ha := expr_values hc a h.2.1 hd.2.1
    have hb := expr_values hc b h.2.2 hd.2.2
    refine values_plain fun st => ?_
    have heither := Plan.Performs.either (ht.test st) (ha.value st) (hb.value st)
    rw [bind_assoc] at heither
    exact heither
  | .index x i pos =>
    refine values_plain fun st => ?_
    rintro loops q lo q' hi its s ⟨_, _, ⟨_, _, ⟨_, _, hatx, hati⟩, rfl, rfl⟩, hinsn, rfl, rfl⟩ hv
    refine ((expr_values hc x h.1 hd.1).value st hatx hv).bind fun v s hv => ?_
    refine ((expr_values hc i h.2 hd.2).value _ hati hv).bind fun k s hv => ?_
    exact hv.act hinsn (.index v k st)
  | .slice x lo hi step pos =>
    refine values_plain fun st => ?_
    rintro loops q n q' n' its s ⟨_, _, ⟨_, _, ⟨_, _, ⟨_, _, ⟨_, _, ⟨_, _, ⟨rfl, rfl⟩, hatx⟩, hatl⟩,
      hath⟩, hats⟩, rfl, rfl⟩, hinsn, rfl, rfl⟩ hv
    refine ((expr_values hc x h.1 hd.1).value st hatx hv).bind fun v s hv => ?_
    refine (bound_performs hc lo h.2.1 hd.2.1 _ hatl hv).bind fun l s hv => ?_
    refine (bound_performs hc hi h.2.2.1 hd.2.2.1 _ hath hv).bind fun u s hv => ?_
    refine (bound_performs hc step h.2.2.2 hd.2.2.2 _ hats hv).bind fun w s hv => ?_
    exact hv.act hinsn (.slice v l u w st)
  | .dot x name pos =>
    refine values_plain fun st => ?_
    rintro loops q lo q' hi its s ⟨_, _, hatx, i, hindex, _, _, ⟨rfl, rfl⟩, hinsn, rfl, rfl⟩ hv
    refine ((expr_values hc x h hd).value st hatx hv).bind fun v s hv => ?_
    exact hv.attr hinsn hindex
  | .call f as pos =>
    refine values_plain fun st => ?_
    rintro loops q lo q' hi its s ⟨_, _, ⟨_, _, ⟨_, _, ⟨_, _, hatf, hata⟩, hats⟩, hatk⟩, hat⟩ hv
    refine ((expr_values hc f h.1 hd.1).value st hatf hv).bind fun f s hv => ?_
    refine (plainArgs_shows hc as h.2.1 hd.2 (h.2.2.2.2 rfl) hata hv).bind
      fun plain s ⟨hp, hn, hv⟩ => ?_
    refine (starArg_shows hc as h.2.1 hd.2 hats hv).bind fun star s ⟨hstar, hv⟩ => ?_
    refine (starStarArg_shows hc as h.2.1 hd.2 hatk hv).bind fun kw s ⟨hkw, hv⟩ => ?_
    exact performs_callWith hc.callers pos hp hn hstar hkw f hat hv
  | .comprehension (.elem x) cs =>
    have hx := expr_values hc x h.1 hd.1
    refine values_plain fun st => ?_
    rintro loops q lo q' hi its s ⟨_, _, ⟨hinsn, rfl, rfl⟩, hat⟩ hv
    refine (hv.emptyList hinsn).bind fun r s hv => ?_
    refine (clauses_performs hc cs h.2 hd.2 ?_ hat hv).bind fun _ s hv => hv
    -- what each round appends; the list stays below
    rintro loops q lo q' hi its s ⟨_, _, ⟨_, _, ⟨hdup, rfl, rfl⟩, hatx⟩, happend, rfl, rfl⟩ hv
    refine (hx.value _ hatx (hv.shift hdup (.dup (.list r) st))).bind fun v s hv => ?_
    exact hv.act happend (.append r v _)
  | .comprehension (.entry (.mk k v pos)) cs =>
    have hk := expr_values hc k h.1.1 hd.1.1
    have hw := expr_values hc v h.1.2 hd.1.2
    refine values_plain fun st => ?_
    rintro loops q lo q' hi its s ⟨_, _, ⟨hinsn, rfl, rfl⟩, hat⟩ hv
    refine (hv.act hinsn (.makeDict st)).bind fun r s hv => ?_
    refine (clauses_performs hc cs h.2 hd.2 ?_ hat hv).bind fun _ s hv => hv
    rintro loops q lo q' hi its s ⟨_, _, ⟨_, _, ⟨_, _, ⟨_, _, ⟨hdup, rfl, rfl⟩, hatk⟩, hatv⟩,
      rfl, rfl⟩, hset, rfl, rfl⟩ hv
    refine (hk.value _ hatk (hv.shift hdup (.dup (.dict r) st))).bind fun k s hv => ?_
    refine (hw.value _ hatv hv).bind fun v s hv => ?_
    exact (hv.act hset (.setDict r k v _)).bind fun _ s hv => hv

/-- The plans of expressions leave their values. -/
theorem exprs_pushes (hc : c.Around R) (xs : List Expr) (h : Resolved.exprs .full R.code.scopes xs)
    (hd : Direct.exprs xs) : Pushes R (exprs xs) xs.length (Eval.exprs c xs) := by
  match xs with
  | [] =>
    rintro st loops q lo q' hi its s ⟨rfl, rfl⟩ hv
    exact ⟨rfl, hv⟩
  | x :: rest =>
    rintro st loops q lo q' hi its s ⟨_, _, hat, hatr⟩ hv
    refine ((expr_values hc x h.1 hd.1).value st hat hv).bind fun v s hv => ?_
    refine (exprs_pushes hc rest h.2 hd.2 hatr hv).bind fun vs s ⟨hlen, hv⟩ => ?_
    exact ⟨by simp [hlen], by simpa using hv⟩

/-- The plan of a bound leaves its value, or none. -/
theorem bound_performs (hc : c.Around R) (x : Option Expr)
    (h : Resolved.bound .full R.code.scopes x) (hd : Direct.bound x) (st : List Value) :
    (bound x).Performs R none st (Eval.bound c x) (· :: st) := by
  match x with
  | none =>
    rintro loops q lo q' hi its s ⟨hinsn, rfl, rfl⟩ hv
    exact hv.shift hinsn (.pushNone st)
  | some x => exact (expr_values hc x h hd).value st

/-- The plans of entries put them into the dict on the stack. -/
theorem entries_performs (hc : c.Around R) (es : List Entry)
    (h : Resolved.entries .full R.code.scopes es) (hd : Direct.entries es) (r : DictRef)
    (st : List Value) : (entries es).Performs R none (.dict r :: st) (Eval.entries c r es)
      fun _ => .dict r :: st := by
  match es with
  | [] => exact .skip rfl
  | .mk k v pos :: rest =>
    rintro loops q lo q' hi its s ⟨_, _, ⟨_, _, ⟨_, _, ⟨_, _, ⟨_, _, ⟨hdup, rfl, rfl⟩, hatk⟩, hatv⟩,
      rfl, rfl⟩, hinsn, rfl, rfl⟩, hatr⟩ hv
    have hv := hv.shift hdup (.dup (.dict r) st)
    refine ((expr_values hc k h.1 hd.1).value _ hatk hv).bind fun k s hv => ?_
    refine ((expr_values hc v h.2.1 hd.2.1).value _ hatv hv).bind fun v s hv => ?_
    refine (hv.act hinsn (.setDictUniq r k v _)).bind fun _ s hv => ?_
    exact entries_performs hc rest h.2.2 hd.2.2 r st hatr hv

/-- The positional arguments are on the stack, and above them the names and values of the others. -/
theorem plainArgs_shows (hc : c.Around R) (as : List Arg) (h : Resolved.args .full R.code.scopes as)
    (hd : Direct.args as) (ho : Arg.Ordered as) {st : List Value} {loops : List Loop} {q q' : Point}
    {lo hi : Nat} {its : List Iter} {s : Scene}
    (hat : (plainArgs as).At p.pool R.code.graph loops q lo q' hi) (hv : R.Visits q st its s) :
    R.Shows loops none its (fun r s => r.1.length = (Arg.counts as).1 ∧
      r.2.length = (Arg.counts as).2 ∧
      R.Visits q' ((Op.alternating r.2).reverse ++ (r.1.reverse ++ st)) its s)
      (Eval.plainArgs c as s) := by
  match as with
  | [] =>
    obtain ⟨rfl, rfl⟩ := hat
    exact ⟨rfl, rfl, hv⟩
  | .positional x :: rest =>
    obtain ⟨_, _, hatx, hatr⟩ := hat
    refine ((expr_values hc x h.1 hd.1).value st hatx hv).bind fun v s hv => ?_
    refine (plainArgs_shows hc rest h.2 hd.2 ho hatr hv).bind fun r s ⟨hp, hn, hv⟩ => ?_
    exact ⟨by simp [hp, Arg.counts], hn, by simpa using hv⟩
  | .named name x :: rest =>
    obtain ⟨_, _, ⟨_, _, hatn, hatx⟩, hatr⟩ := hat
    refine ((expr_values hc x h.1 hd.1).value _ hatx (hv.const hatn)).bind fun v s hv => ?_
    refine (plainArgs_shows hc rest h.2 hd.2 (ordered_of_counts ho) hatr hv).bind
      fun r s ⟨hp, hn, hv⟩ => ?_
    -- no positional argument may follow a named one, so the names stay together
    have hnil : r.1 = [] := List.length_eq_zero_iff.1 (hp.trans ho)
    refine ⟨hp, by simp [hn, Arg.counts], ?_⟩
    rw [hnil] at hv ⊢
    simpa [Op.alternating, Constant.value] using hv
  | .star x :: rest => exact plainArgs_shows hc rest h.2 hd.2 ho hat hv
  | .starStar x :: rest => exact plainArgs_shows hc rest h.2 hd.2 ho hat hv

/-- The plan of `*args` leaves its value, if it is there. -/
theorem starArg_shows (hc : c.Around R) (as : List Arg) (h : Resolved.args .full R.code.scopes as)
    (hd : Direct.args as) {st : List Value} {loops : List Loop} {q q' : Point} {lo hi : Nat}
    {its : List Iter} {s : Scene} (hat : (starArg as).At p.pool R.code.graph loops q lo q' hi)
    (hv : R.Visits q st its s) :
    R.Shows loops none its (fun star s => star.isSome = Arg.anyStar as ∧
      R.Visits q' (star.toList ++ st) its s) (Eval.starArg c as s) := by
  match as with
  | [] =>
    obtain ⟨rfl, rfl⟩ := hat
    exact ⟨rfl, hv⟩
  | .star x :: rest =>
    -- only the last starred argument counts, and those before it are not even evaluated
    by_cases hlast : Arg.anyStar rest = true
    · simp only [starArg, if_pos hlast] at hat
      simp only [Eval.starArg, if_pos hlast]
      exact (starArg_shows hc rest h.2 hd.2 hat hv).mono fun star s ⟨hstar, hv⟩ =>
        ⟨hstar.trans hlast, hv⟩
    · simp only [starArg, if_neg hlast] at hat
      simp only [Eval.starArg, if_neg hlast, ← bind_pure_comp]
      exact ((expr_values hc x h.1 hd.1).value st hat hv).bind fun v s hv => ⟨rfl, hv⟩
  | .positional x :: rest => exact starArg_shows hc rest h.2 hd.2 hat hv
  | .named name x :: rest => exact starArg_shows hc rest h.2 hd.2 hat hv
  | .starStar x :: rest => exact starArg_shows hc rest h.2 hd.2 hat hv

/-- The plan of `**kwargs` leaves its value, if it is there. -/
theorem starStarArg_shows (hc : c.Around R) (as : List Arg)
    (h : Resolved.args .full R.code.scopes as) (hd : Direct.args as) {st : List Value}
    {loops : List Loop} {q q' : Point} {lo hi : Nat} {its : List Iter} {s : Scene}
    (hat : (starStarArg as).At p.pool R.code.graph loops q lo q' hi) (hv : R.Visits q st its s) :
    R.Shows loops none its (fun kw s => kw.isSome = Arg.anyStarStar as ∧
      R.Visits q' (kw.toList ++ st) its s) (Eval.starStarArg c as s) := by
  match as with
  | [] =>
    obtain ⟨rfl, rfl⟩ := hat
    exact ⟨rfl, hv⟩
  | .starStar x :: rest =>
    -- likewise, only the last one
    by_cases hlast : Arg.anyStarStar rest = true
    · simp only [starStarArg, if_pos hlast] at hat
      simp only [Eval.starStarArg, if_pos hlast]
      exact (starStarArg_shows hc rest h.2 hd.2 hat hv).mono fun kw s ⟨hkw, hv⟩ =>
        ⟨hkw.trans hlast, hv⟩
    · simp only [starStarArg, if_neg hlast] at hat
      simp only [Eval.starStarArg, if_neg hlast, ← bind_pure_comp]
      exact ((expr_values hc x h.1 hd.1).value st hat hv).bind fun v s hv => ⟨rfl, hv⟩
  | .positional x :: rest => exact starStarArg_shows hc rest h.2 hd.2 hat hv
  | .named name x :: rest => exact starStarArg_shows hc rest h.2 hd.2 hat hv
  | .star x :: rest => exact starStarArg_shows hc rest h.2 hd.2 hat hv

/-- Clauses perform what is inside them as often as they say. -/
theorem clauses_performs (hc : c.Around R) (cs : List Clause)
    (h : Resolved.clauses .full R.code.scopes cs) (hd : Direct.clauses cs) {plan : Plan}
    {m : Eval Unit} {st : List Value} (hplan : plan.Performs R none st m fun _ => st) :
    (clauses cs plan).Performs R none st (Eval.clauses c cs m) fun _ => st := by
  match cs with
  | [] => exact hplan
  | .guard t :: rest =>
    have ht := expr_values hc t h.1 hd.1
    have hguard := Plan.Performs.guard (ht.test st) (clauses_performs hc rest h.2 hd.2 hplan)
    rw [bind_assoc] at hguard
    exact hguard
  | .loop vars iterable pos :: rest =>
    exact .each pos c.rounds ((expr_values hc iterable h.2.1 hd.2.1).value st)
      (fun v => assign_performs hc pos vars h.1 hd.1 v st)
      (clauses_performs hc rest h.2.2 hd.2.2 hplan)

/-- The plan of a target assigns the value on the stack. -/
theorem assign_performs (hc : c.Around R) (pos : Position) (x : Expr)
    (h : Resolved.target .full R.code.scopes x) (hd : Direct.expr x) (v : Value) (st : List Value) :
    (assign pos x).Performs R none (v :: st) (Eval.assign c x v) fun _ => st := by
  match x with
  | .paren x => exact assign_performs hc pos x h hd v st
  | .ident id => exact performs_store hc id v
  | .tuple elems =>
    rintro loops q lo q' hi its s ⟨_, _, ⟨rfl, rfl⟩, hat⟩ hv
    refine (hv.unpack hat (unpack_typed pos h)).bind fun vs s ⟨hlen, hv⟩ => ?_
    exact assignAll_performs hc pos elems h hd vs hlen st hat.2 hv
  | .list elems =>
    rintro loops q lo q' hi its s ⟨_, _, ⟨rfl, rfl⟩, hat⟩ hv
    refine (hv.unpack hat (unpack_typed pos h)).bind fun vs s ⟨hlen, hv⟩ => ?_
    exact assignAll_performs hc pos elems h hd vs hlen st hat.2 hv
  | .index x i lbrack =>
    rintro loops q lo q' hi its s ⟨_, _, ⟨_, _, ⟨_, _, ⟨_, _, ⟨_, _, hatx, hexch, rfl, rfl⟩, hati⟩,
      hexch', rfl, rfl⟩, rfl, rfl⟩, hset, rfl, rfl⟩ hv
    -- the value assigned waits below the object and the index, and is brought up by the exchanges
    refine ((expr_values hc x h.1 hd.1).value _ hatx hv).bind fun a s hv => ?_
    have hv := hv.shift hexch (.exch v a st)
    refine ((expr_values hc i h.2 hd.2).value _ hati hv).bind fun k s hv => ?_
    exact (hv.shift hexch' (.exch v k (a :: st))).act hset (.setIndex a k v st)
  | .dot x name dot =>
    rintro loops q lo q' hi its s ⟨_, _, ⟨_, _, hatx, hexch, rfl, rfl⟩, i, hindex, _, _, ⟨rfl, rfl⟩,
      hset, rfl, rfl⟩ hv
    refine ((expr_values hc x h hd).value _ hatx hv).bind fun a s hv => ?_
    exact (hv.shift hexch (.exch v a st)).setField hset hindex
  | .literal _ _ | .dict _ | .unary _ _ _ | .binary _ _ _ _ | .cond _ _ _ | .slice _ _ _ _ _
  | .call _ _ _ | .comprehension _ _ | .lambda _ => exact False.elim h

/-- The plans of targets assign the values on the stack. -/
theorem assignAll_performs (hc : c.Around R) (pos : Position) (xs : List Expr)
    (h : Resolved.targets .full R.code.scopes xs) (hd : Direct.exprs xs) (vs : List Value)
    (hlen : vs.length = xs.length) (st : List Value) :
    (assignAll pos xs).Performs R none (vs ++ st) (Eval.assignAll c xs vs) fun _ => st := by
  match xs, vs, hlen with
  | [], [], _ => exact .skip rfl
  | x :: rest, v :: vs, hlen =>
    rintro loops q lo q' hi its s ⟨_, _, hatx, hatr⟩ hv
    refine (assign_performs hc pos x h.1 hd.1 v _ hatx hv).bind fun _ s hv => ?_
    exact assignAll_performs hc pos rest h.2 hd.2 vs (Nat.succ.inj hlen) st hatr hv

end

/-- The operator `f` of an augmented assignment is performed between the lookup and the store. -/
theorem place_performs (hc : c.Around R) (x : Expr) (h : Resolved.place .full R.code.scopes x)
    (hd : Direct.expr x) {f : Value → Eval Value} {k : Plan → Plan}
    (hk : ∀ {plan : Plan} {new : Value → Eval Unit} {st below : List Value} (old : Value),
      (∀ v, plan.Performs R none (v :: below) (new v) fun _ => st) →
      (k plan).Performs R none (old :: below) (do new (← f old)) fun _ => st) (st : List Value) :
    (place x k).Performs R none st (Eval.update c x f) fun _ => st := by
  match x with
  | .paren x => exact place_performs hc x h hd hk st
  | .ident id =>
    exact (performs_lookup hc (hc.scope_ne_free h.2)).seq fun old => hk old fun v =>
        performs_store hc id v
  | .index x i lbrack =>
    rintro loops q lo q' hi its s ⟨_, _, ⟨_, _, ⟨_, _, ⟨_, _, ⟨_, _, hatx, hati⟩, hdup, rfl, rfl⟩,
      rfl, rfl⟩, hindex, rfl, rfl⟩, hat⟩ hv
    refine ((expr_values hc x h.1 hd.1).value st hatx hv).bind fun a s hv => ?_
    refine ((expr_values hc i h.2 hd.2).value _ hati hv).bind fun i s hv => ?_
    -- the object and the index are kept for the store that follows
    have hv := hv.shift hdup (.dup2 a i st)
    refine (hv.act hindex (.index a i _)).bind fun old s hv => ?_
    refine hk old (fun v => ?_) hat hv
    rintro loops q lo q' hi its s ⟨_, _, ⟨rfl, rfl⟩, hset, rfl, rfl⟩ hv
    exact hv.act hset (.setIndex a i v st)
  | .dot x name dot =>
    rintro loops q lo q' hi its s ⟨_, _, ⟨_, _, hatx, hdup, rfl, rfl⟩, i, hindex, _, _, ⟨_, _,
      ⟨rfl, rfl⟩, hattr, rfl, rfl⟩, hat⟩ hv
    refine ((expr_values hc x h hd).value st hatx hv).bind fun a s hv => ?_
    -- likewise the object of a field
    have hv := hv.shift hdup (.dup a st)
    refine (hv.attr hattr hindex).bind fun old s hv => ?_
    refine hk old (fun v => ?_) hat hv
    rintro loops q lo q' hi its s ⟨_, _, ⟨rfl, rfl⟩, hset, rfl, rfl⟩ hv
    exact hv.setField hset hindex
  | .literal _ _ | .dict _ | .unary _ _ _ | .binary _ _ _ _ | .cond _ _ _ | .slice _ _ _ _ _
  | .call _ _ _ | .comprehension _ _ | .lambda _ | .list _ | .tuple _ => exact False.elim h

mutual

/-- The plans of statements do what the statements say. -/
theorem stmts_performs (hc : c.Around R) (ss : List Stmt) {inLoop : Bool}
    (h : Resolved.stmts .full R.code.scopes inLoop ss) (hd : Direct.stmts ss) (st : List Value) :
    (stmts ss).Performs R (some st) st (Eval.stmts c ss) fun _ => st := by
  match ss with
  | [] => exact .skip rfl
  | s :: rest =>
    exact (stmt_performs hc s h.1 hd.1 st).seq fun _ => stmts_performs hc rest h.2 hd.2 st

/-- The plan of a statement does what the statement says. -/
theorem stmt_performs (hc : c.Around R) (s : Stmt) {inLoop : Bool}
    (h : Resolved.stmt .full R.code.scopes inLoop s) (hd : Direct.stmt s) (st : List Value) :
    (stmt s).Performs R (some st) st (Eval.stmt c s) fun _ => st := by
  match s with
  | .expr x =>
    cases hx : x.isLiteral with
    | true =>
      match x, hx with
      | .literal v pos, _ => exact .skip rfl
    | false =>
      have hx : stmt (.expr x) = (expr x).value ++ .op .pop := by
        rw [stmt, hx]
        rfl
      rw [hx]
      rintro loops q lo q' hi its s ⟨_, _, hat, hpop, rfl, rfl⟩ hv
      exact ((expr_values hc x h hd).value st hat hv).weaken.bind fun v s hv =>
        hv.shift hpop (.pop v st)
  | .pass => exact .skip rfl
  | .breakLoop => exact .leave true
  | .continueLoop => exact .leave false
  | .ifElse t a b =>
    have ht := expr_values hc t h.1 hd.1
    have heither := Plan.Performs.either (ht.test st) (stmts_performs hc a h.2.1 hd.2.1 st)
      (stmts_performs hc b h.2.2 hd.2.2 st)
    rw [bind_assoc] at heither
    exact heither
  | .assign lhs rhs pos =>
    exact (((expr_values hc rhs h.2 hd.2).value st).seq fun v =>
      assign_performs hc pos lhs h.1 hd.1 v st).weaken
  | .augAssign o lhs rhs pos =>
    refine (place_performs hc lhs h.2.2.1 hd.1 (fun old hstore => ?_) st).weaken
    -- the place has been evaluated and read before the right side
    rintro loops q lo q' hi its s ⟨_, _, ⟨_, _, hatr, hato⟩, hats⟩ hv
    rw [bind_assoc]
    refine ((expr_values hc rhs h.2.2.2 hd.2).value _ hatr hv).bind fun v s hv => ?_
    refine (performs_augmentedOp pos o old v hato hv).bind fun new s hv => ?_
    exact hstore new hats hv
  | .forLoop vars iterable body pos =>
    exact .eachLoop pos c.rounds ((expr_values hc iterable h.2.1 hd.2.1).value st)
      (fun v => assign_performs hc pos vars h.1 hd.1 v st) (stmts_performs hc body h.2.2 hd.2.2 st)
  | .whileLoop t body =>
    exact .whileLoop c.rounds ((expr_values hc t h.1 hd.1).test st)
      (stmts_performs hc body h.2 hd.2 st)
  | .ret result => exact (bound_performs hc result h hd st).weaken.seq fun v => .ret v
  | .define _ _ => exact False.elim hd
  | .load _ _ _ _ _ => exact False.elim hd

end

end Lowering

end Starlark
