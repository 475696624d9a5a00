import Starlark.Proofs.Direct.Outline

/-!
# Conditions

The code for the value of a condition and the code that branches on it evaluate the same parts in
the same order, with the same effects and the same errors. Where the former leaves a value, the
latter goes to the block for the truth of that value.
-/

set_option autoImplicit false

namespace Starlark

/-- How a condition is evaluated: `not`, `and`, `or`, `not in`, parentheses and conditional
expressions from their parts, and everything else as a whole. -/
def Expr.outline : Expr → Outline Value
  | .paren x => x.outline
  | .unary .not x _ => do
    let v ← x.outline
    return .bool (!(← Outline.truth v))
  | .binary .and x y _ => do
    let v ← x.outline
    if ← Outline.truth v then y.outline else return v
  | .binary .or x y _ => do
    let v ← x.outline
    if ← Outline.truth v then return v else y.outline
  | .binary .notIn x y _ => do
    let v ← x.outline
    let w ← y.outline
    let found ← Outline.op (Op.binary .isIn v w)
    return .bool (!(← Outline.truth found))
  | .cond c a b => do
    let v ← c.outline
    if ← Outline.truth v then a.outline else b.outline
  | x => Outline.ask x

/-! ## Deciding -/

/-- Two computations evaluate the same expressions in the same scenes and fail alike. One ends with
whether the value that the other ends with counts as true. -/
structure Progress.DecidedBy (r : Progress Value) (d : Progress Bool) : Prop where
  awaits : ∀ trace x s, (∃ k, d.Reaches trace (.awaiting x s k)) ↔
      ∃ k, r.Reaches trace (.awaiting x s k)
  fails : ∀ trace e s, d.Reaches trace (.failed e s) ↔ r.Reaches trace (.failed e s)
  ends : ∀ trace b s, d.Reaches trace (.done b s) ↔
    ∃ v, r.Reaches trace (.done v s) ∧ s.heap.truth v = b

/-- A value decides by its truth. -/
theorem Progress.decidedBy_truth (r : Progress Value) : r.DecidedBy (r.bind Outline.truth) := by
  -- on the outline, which asks for one value at a time and tests the last of them
  induction r with
  | done v s =>
    refine ⟨fun trace y s' => ?_, fun trace e s' => ?_, fun trace b s' => ?_⟩
    · simp [Progress.bind, Outline.truth, reaches_done]
    · simp [Progress.bind, Outline.truth, reaches_done]
    · simp only [Progress.bind, Outline.truth, reaches_done, done.injEq]
      constructor
      · rintro ⟨rfl, rfl, rfl⟩
        exact ⟨v, ⟨rfl, rfl, rfl⟩, rfl⟩
      · rintro ⟨_, ⟨rfl, rfl, rfl⟩, rfl⟩
        exact ⟨rfl, rfl, rfl⟩
  | failed e s =>
    constructor <;> intros <;> simp [Progress.bind, reaches_failed]
  | awaiting x s k ih =>
    rw [show (awaiting x s k).bind Outline.truth =
      awaiting x s fun v s => (k v s).bind Outline.truth from rfl]
    refine ⟨fun trace y s' => ?_, fun trace e s' => ?_, fun trace b s' => ?_⟩
    · cases trace with
      | nil => simp [reaches_nil]
      | cons e trace => simp only [reaches_awaiting, exists_and_left, (ih _ _).awaits]
    · cases trace with
      | nil => simp [reaches_nil]
      | cons e trace => simp only [reaches_awaiting, (ih _ _).fails]
    · cases trace with
      | nil => simp [reaches_nil]
      | cons e trace => simp only [reaches_awaiting, (ih _ _).ends, and_assoc, exists_and_left]

/-- The code that branches on an expression stands at a point of a graph. -/
def Expr.TestAt (x : Expr) (pool : Pool) (g : BlockGraph) (q : Point) (t f : BlockId) : Prop :=
  ∃ loops lo hi, (Lowering.expr x).test.At pool g loops q lo t f hi

namespace Running

variable {p : Program} {predeclared : String → Prop} (R : Running p predeclared)

/-- The code that branches on an expression stands at a point of the function. -/
def HoldsTest (x : Expr) (q : Point) (t f : BlockId) : Prop := x.TestAt p.pool R.code.graph q t f

/-- The code for the value of an expression evaluates it as an outline says. -/
def Evaluates (x : Expr) (o : Outline Value) : Prop :=
  ∀ n q q' st its s, R.Holds x q q' → R.StandsAt n q st its s →
    R.Tracks its st (fun m v s => R.StandsAt m q' (v :: st) its s) (o s) n

/-- The code that branches on an expression goes where an outline says. -/
def Decides (x : Expr) (o : Outline Bool) : Prop :=
  ∀ n q t f st its s, R.HoldsTest x q t f → R.StandsAt n q st its s →
    R.Tracks its st (fun m b s => R.StandsAt m ⟨if b then t else f, 0⟩ st its s) (o s) n

variable {R} {x y c a b : Expr} {o o' : Outline Value}

/-! ## Branching on a value -/

/-- A conditional jump leaves what is below the value it takes. -/
theorem StandsAt.jumps {n : Nat} {q : Point} {v : Value} {st : List Value} {its : List Iter}
    {s : Scene} {t f : BlockId} (h : R.StandsAt n q (v :: st) its s)
    (hbr : R.code.graph.BranchAt q .cjmp t f) :
    R.Comes n st its fun m => R.StandsAt m ⟨if s.heap.truth v then t else f, 0⟩ st its s :=
  ((h.cjmp hbr).below (List.suffix_cons v st) (List.suffix_refl its)).mono fun _ _ h => h.2

/-- Code for a value with a conditional jump behind it. -/
theorem Evaluates.decides {code : Plan} (h : R.Evaluates x o)
    (htest : (Lowering.expr x).test = .on code)
    (hcode : ∀ loops q lo q' hi, code.At p.pool R.code.graph loops q lo q' hi → R.Holds x q q') :
    R.Decides x (o >>= Outline.truth) := by
  rintro n q t f st its s ⟨loops, lo, hi, hat⟩ hv
  rw [htest] at hat
  obtain ⟨q', hat, hbr⟩ := hat
  refine (h n q q' st its s (hcode _ _ _ _ _ hat) hv).bind fun m v s _ hv => ?_
  exact hv.jumps hbr

/-- The code of an expression that is built plainly is its plan. -/
theorem holds_of_plain {code : Plan} (hx : Lowering.expr x = .plain code) {loops : List Loop}
    {q q' : Point} {lo hi : Nat} (hat : code.At p.pool R.code.graph loops q lo q' hi) :
    R.Holds x q q' := by
  refine ⟨loops, lo, hi, ?_⟩
  rw [hx]
  exact ⟨q', hi, hat, rfl, rfl⟩

/-- An expression that is built plainly decides by the truth of its value. -/
theorem Evaluates.decides_of_plain {code : Plan} (h : R.Evaluates x o)
    (hx : Lowering.expr x = .plain code) : R.Decides x (o >>= Outline.truth) :=
  h.decides (by rw [hx]; rfl) fun _ _ _ _ _ => holds_of_plain hx

/-! ## Parts -/

/-- The value of a negation. -/
theorem Evaluates.not {pos : Position} (h : R.Evaluates x o) :
    R.Evaluates (.unary .not x pos) (do
      let v ← o
      return .bool (!(← Outline.truth v))) := by
  rintro n q q' st its s ⟨loops, lo, hi, hat⟩ hv
  simp only [Lowering.expr] at hat
  obtain ⟨_, _, ⟨m₁, _, ⟨m₂, _, hat, rfl, rfl⟩, hinsn, rfl, rfl⟩, rfl, rfl⟩ := hat
  refine (h n q _ st its s ⟨_, _, _, hat⟩ hv).bind fun m v s _ hv => ?_
  exact hv.act hinsn (.unary .not v st) (List.suffix_cons v st)

/-- A negation decides the other way. -/
theorem Decides.not {pos : Position} {d : Outline Bool} (h : R.Decides x d) :
    R.Decides (.unary .not x pos) (Bool.not <$> d) := by
  rintro n q t f st its s ⟨loops, lo, hi, hat⟩ hv
  rw [← bind_pure_comp]
  refine (h n q f t st its s ⟨loops, lo, hi, hat⟩ hv).bind fun m b s _ hv => ?_
  cases b <;> exact .here hv

/-- The second operand of `and` and `or` is evaluated unless the first is `stopIf`. -/
theorem Evaluates.short (stopIf : Bool) {k : Value → Bool → Outline Value} (hx : R.Evaluates x o)
    (hy : R.Evaluates y o') (hstop : ∀ v, k v stopIf = pure v) (hgo : ∀ v, k v (!stopIf) = o')
    {n : Nat} {q q' : Point} {lo hi : Nat} {loops : List Loop} {st : List Value} {its : List Iter}
    {s : Scene} (hat : (Plan.short stopIf (Lowering.expr x).value (Lowering.expr y).value).At p.pool
      R.code.graph loops q lo q' hi) (hv : R.StandsAt n q st its s) :
    R.Tracks its st (fun m v s => R.StandsAt m q' (v :: st) its s)
      ((do let v ← o; k v (← Outline.truth v)) s) n := by
  obtain ⟨_, _, q₁, hatx, hdup, hbr, hpop, haty, hend, rfl⟩ := hat
  refine (hx n q _ st its s ⟨_, _, _, hatx⟩ hv).bind fun m v s _ hv => ?_
  -- the jump tests a copy, so that the value itself can be the result
  have hjump := ((hv.shift hdup (.dup v st)).bind fun m _ hv => hv.jumps hbr).below
    (List.suffix_cons v st) (List.suffix_refl its)
  refine Tracks.after hjump fun m _ hv => ?_
  rw [Outline.bind_apply]
  show R.Tracks its st _ (k v (s.heap.truth v) s) m
  by_cases htruth : s.heap.truth v = stopIf
  · rw [htruth, hstop]
    rw [htruth] at hv
    cases stopIf <;> exact .here hv
  · -- the value of the first operand was kept for the result, and is dropped now
    have htruth : s.heap.truth v = !stopIf := by
      cases stopIf <;> simpa using htruth
    rw [htruth, hgo]
    rw [htruth] at hv
    have hv : R.StandsAt m ⟨lo + 1, 0⟩ (v :: st) its s := by
      cases stopIf <;> exact hv
    have hpopped := (hv.shift hpop (.pop v st)).below (List.suffix_cons v st) (List.suffix_refl its)
    refine Tracks.after hpopped fun m _ hv => ?_
    exact (hy m _ _ st its s ⟨_, _, _, haty⟩ hv).mono fun m w s _ hv => hv.ends hend

/-- The value of a conjunction. -/
theorem Evaluates.and {pos : Position} (hx : R.Evaluates x o) (hy : R.Evaluates y o') :
    R.Evaluates (.binary .and x y pos) (do
      let v ← o
      if ← Outline.truth v then o' else return v) := by
  rintro n q q' st its s ⟨loops, lo, hi, _, _, hat, rfl, rfl⟩ hv
  exact hx.short (k := fun v b => if b then o' else return v) false hy (fun _ => rfl) (fun _ => rfl)
    hat hv

/-- The value of a disjunction. -/
theorem Evaluates.or {pos : Position} (hx : R.Evaluates x o) (hy : R.Evaluates y o') :
    R.Evaluates (.binary .or x y pos) (do
      let v ← o
      if ← Outline.truth v then return v else o') := by
  rintro n q q' st its s ⟨loops, lo, hi, _, _, hat, rfl, rfl⟩ hv
  exact hx.short (k := fun v b => if b then return v else o') true hy (fun _ => rfl) (fun _ => rfl)
    hat hv

/-- The second operand of `and` and `or` decides unless the first is `stopIf`. -/
theorem Decides.short (stopIf : Bool) {k : Value → Bool → Outline Value} (hx : R.Evaluates x o)
    (hy : R.Decides y (o' >>= Outline.truth)) (hstop : ∀ v, k v stopIf = pure v)
    (hgo : ∀ v, k v (!stopIf) = o') {n : Nat} {q q₁ : Point} {t f mid : BlockId} {st : List Value}
    {its : List Iter} {s : Scene} (hatx : R.Holds x q q₁)
    (hbr : R.code.graph.BranchAt q₁ .cjmp (if stopIf then t else mid) (if stopIf then mid else f))
    (haty : R.HoldsTest y ⟨mid, 0⟩ t f) (hv : R.StandsAt n q st its s) :
    R.Tracks its st (fun m b s => R.StandsAt m ⟨if b then t else f, 0⟩ st its s)
      (((do let v ← o; k v (← Outline.truth v)) >>= Outline.truth) s) n := by
  rw [bind_assoc]
  refine (hx n q q₁ st its s hatx hv).bind fun m v s _ hv => ?_
  refine Tracks.after (hv.jumps hbr) fun m _ hv => ?_
  rw [bind_assoc, Outline.bind_apply]
  show R.Tracks its st _ ((k v (s.heap.truth v) >>= Outline.truth) s) m
  by_cases htruth : s.heap.truth v = stopIf
  · -- the jump has gone where the first operand alone decides to go
    rw [htruth, hstop]
    rw [htruth] at hv
    refine .here ?_
    rw [htruth]
    cases stopIf <;> exact hv
  -- otherwise the second operand decides, from the block in the middle
  · have htruth : s.heap.truth v = !stopIf := by
      cases stopIf <;> simpa using htruth
    rw [htruth, hgo]
    rw [htruth] at hv
    have hv : R.StandsAt m ⟨mid, 0⟩ st its s := by
      cases stopIf <;> exact hv
    exact hy m _ t f st its s haty hv

/-- A conjunction decides by its second operand if the first one is true. -/
theorem Decides.and {pos : Position} (hx : R.Evaluates x o)
    (hy : R.Decides y (o' >>= Outline.truth)) :
    R.Decides (.binary .and x y pos) ((do
      let v ← o
      if ← Outline.truth v then o' else return v) >>= Outline.truth) := by
  rintro n q t f st its s ⟨loops, lo, hi, m₁, mid, hat, hbr, hatt⟩ hv
  exact Decides.short (k := fun v b => if b then o' else return v) false hx hy (fun _ => rfl)
    (fun _ => rfl) ⟨_, _, _, hat⟩ hbr ⟨_, _, _, hatt⟩ hv

/-- A disjunction decides by its second operand if the first one is false. -/
theorem Decides.or {pos : Position} (hx : R.Evaluates x o)
    (hy : R.Decides y (o' >>= Outline.truth)) :
    R.Decides (.binary .or x y pos) ((do
      let v ← o
      if ← Outline.truth v then return v else o') >>= Outline.truth) := by
  rintro n q t f st its s ⟨loops, lo, hi, m₁, mid, hat, hbr, hatt⟩ hv
  exact Decides.short (k := fun v b => if b then return v else o') true hx hy (fun _ => rfl)
    (fun _ => rfl) ⟨_, _, _, hat⟩ hbr ⟨_, _, _, hatt⟩ hv

/-- The value of a membership that is negated. -/
theorem Evaluates.notIn {pos : Position} (hx : R.Evaluates x o) (hy : R.Evaluates y o') :
    R.Evaluates (.binary .notIn x y pos) (do
      let v ← o
      let w ← o'
      let found ← Outline.op (Op.binary .isIn v w)
      return .bool (!(← Outline.truth found))) := by
  rintro n q q' st its s ⟨loops, lo, hi, _, _, ⟨_, _, ⟨_, _, hatx, haty⟩, _, _, ⟨rfl, rfl⟩, _, _,
    ⟨hin, rfl, rfl⟩, hnot, rfl, rfl⟩, rfl, rfl⟩ hv
  refine (hx n q _ st its s ⟨_, _, _, hatx⟩ hv).bind fun m v s _ hv => ?_
  refine Tracks.bind ((hy m _ _ _ its s ⟨_, _, _, haty⟩ hv).below (List.suffix_cons v st))
    fun m w s _ hv => ?_
  have hlow : st <:+ w :: v :: st := ⟨[w, v], rfl⟩
  refine (hv.act hin (.binary rfl v w st) hlow).bind fun m found s _ hv => ?_
  exact hv.act hnot (.unary .not found st) (List.suffix_cons found st)

/-- A membership that is negated decides by its value. -/
theorem Decides.notIn {pos : Position} (hx : R.Evaluates x o) (hy : R.Evaluates y o') :
    R.Decides (.binary .notIn x y pos) ((do
      let v ← o
      let w ← o'
      let found ← Outline.op (Op.binary .isIn v w)
      return .bool (!(← Outline.truth found))) >>= Outline.truth) := by
  rintro n q t f st its s ⟨loops, lo, hi, _, ⟨_, _, ⟨_, _, hatx, haty⟩, _, _, ⟨rfl, rfl⟩, hin, rfl,
    rfl⟩, hbr⟩ hv
  simp only [bind_assoc]
  refine (hx n q _ st its s ⟨_, _, _, hatx⟩ hv).bind fun m v s _ hv => ?_
  refine Tracks.bind ((hy m _ _ _ its s ⟨_, _, _, haty⟩ hv).below (List.suffix_cons v st))
    fun m w s _ hv => ?_
  have hlow : st <:+ w :: v :: st := ⟨[w, v], rfl⟩
  refine (hv.act hin (.binary rfl v w st) hlow).bind fun m found s _ hv => ?_
  refine Tracks.after (hv.jumps hbr) fun m _ hv => .here ?_
  show R.StandsAt m ⟨if !s.heap.truth found then t else f, 0⟩ st its s
  cases htruth : s.heap.truth found <;> simpa [htruth] using hv

/-- The value of a conditional expression. -/
theorem Evaluates.cond {d : Outline Bool} (hc : R.Decides c d) (ha : R.Evaluates a o)
    (hb : R.Evaluates b o') :
    R.Evaluates (.cond c a b) (do if ← d then o else o') := by
  rintro n q q' st its s ⟨loops, lo, hi, _, _, ⟨_, q₁, _, q₂, hatt, hata, henda, hatb, hendb, rfl⟩,
    rfl, rfl⟩ hv
  refine (hc n q _ _ st its s ⟨_, _, _, hatt⟩ hv).bind fun m v s _ hv => ?_
  cases v with
  | true => exact (ha m _ _ st its s ⟨_, _, _, hata⟩ hv).mono fun m v s _ hv => hv.ends henda
  | false => exact (hb m _ _ st its s ⟨_, _, _, hatb⟩ hv).mono fun m v s _ hv => hv.ends hendb

/-! ## Conditions -/

/-- Any expression is evaluated by its own code. -/
theorem evaluates_ask (hx : Resolved.expr .full R.code.scopes x) : R.Evaluates x (Outline.ask x) :=
  fun _ _ _ _ _ _ hq hv => Tracks.ask hx hq hv

/-- An expression that is not evaluated from its parts is branched on by its value. -/
theorem exists_test_on (x : Expr) (hparen : ∀ y, x ≠ .paren y)
    (hnot : ∀ y pos, x ≠ .unary .not y pos)
    (hand : ∀ y z pos, x ≠ .binary .and y z pos) (hor : ∀ y z pos, x ≠ .binary .or y z pos)
    (hnotIn : ∀ y z pos, x ≠ .binary .notIn y z pos) :
    ∃ code, (Lowering.expr x).test = .on code ∧ ∀ loops q lo q' hi,
      code.At p.pool R.code.graph loops q lo q' hi → R.Holds x q q' := by
  have plain : ∀ {code : Plan}, Lowering.expr x = .plain code →
      ∃ code, (Lowering.expr x).test = .on code ∧ ∀ loops q lo q' hi,
        code.At p.pool R.code.graph loops q lo q' hi → R.Holds x q q' :=
    fun hx => ⟨_, by rw [hx]; rfl, fun _ _ _ _ _ => holds_of_plain hx⟩
  -- texts and displays may be joined with others, so that their code is not plain
  cases x with
  | paren y => exact absurd rfl (hparen y)
  | literal value pos =>
    cases value with
    | str text =>
      refine ⟨_, rfl, fun loops q lo q' hi hat => ⟨loops, lo, hi, ?_⟩⟩
      exact ⟨q, lo, ⟨rfl, rfl⟩, q', hi, hat, rfl, rfl⟩
    | bytes bs =>
      refine ⟨_, rfl, fun loops q lo q' hi hat => ⟨loops, lo, hi, ?_⟩⟩
      exact ⟨q, lo, ⟨rfl, rfl⟩, q', hi, hat, rfl, rfl⟩
    | _ => exact plain rfl
  | list elems =>
    refine ⟨_, rfl, fun loops q lo q' hi hat => ⟨loops, lo, hi, ?_⟩⟩
    obtain ⟨m, mid, hatx, hmake⟩ := hat
    exact ⟨m, mid, hatx, q', hi, hmake, rfl, rfl⟩
  | tuple elems =>
    refine ⟨_, rfl, fun loops q lo q' hi hat => ⟨loops, lo, hi, ?_⟩⟩
    obtain ⟨m, mid, hatx, hmake⟩ := hat
    exact ⟨m, mid, hatx, q', hi, hmake, rfl, rfl⟩
  | unary op y pos =>
    cases op with
    | not => exact absurd rfl (hnot y pos)
    | _ => exact plain rfl
  | binary op y z pos =>
    cases op with
    | and => exact absurd rfl (hand y z pos)
    | or => exact absurd rfl (hor y z pos)
    | notIn => exact absurd rfl (hnotIn y z pos)
    | plus => exact ⟨_, rfl, fun loops q lo q' hi hat => ⟨loops, lo, hi, hat⟩⟩
    | _ => exact plain rfl
  | _ => exact plain rfl

/-- A condition is evaluated as outlined, whether its value is wanted or where it leads to. -/
theorem evaluates_and_decides (hx : Resolved.expr .full R.code.scopes x) :
    R.Evaluates x x.outline ∧ R.Decides x (x.outline >>= Outline.truth) := by
  -- both at once: an operator is evaluated through the test of its operand, and a test falls back
  -- on the value
  induction x using Expr.outline.induct with
  | case1 x ih =>
    have hvalue : R.Evaluates (.paren x) (Expr.paren x).outline := (ih hx).1
    exact ⟨hvalue, hvalue.decides rfl fun loops q lo q' hi hat => ⟨loops, lo, hi, hat⟩⟩
  | case2 x pos ih =>
    refine ⟨(ih hx).1.not, ?_⟩
    have hnot : ((Expr.unary .not x pos).outline >>= Outline.truth) =
        Bool.not <$> (x.outline >>= Outline.truth) := by
      simp only [Expr.outline, bind_assoc, pure_bind, Outline.truth_bool, ← bind_pure_comp]
    rw [hnot]
    exact (ih hx).2.not
  | case3 x y pos ihx ihy =>
    obtain ⟨hx, hy⟩ := hx
    exact ⟨(ihx hx).1.and (ihy hy).1, .and (ihx hx).1 (ihy hy).2⟩
  | case4 x y pos ihx ihy =>
    obtain ⟨hx, hy⟩ := hx
    exact ⟨(ihx hx).1.or (ihy hy).1, .or (ihx hx).1 (ihy hy).2⟩
  | case5 x y pos ihx ihy =>
    obtain ⟨hx, hy⟩ := hx
    exact ⟨(ihx hx).1.notIn (ihy hy).1, .notIn (ihx hx).1 (ihy hy).1⟩
  | case6 c a b ihc iha ihb =>
    obtain ⟨hc, ha, hb⟩ := hx
    have hvalue : R.Evaluates (.cond c a b) (Expr.cond c a b).outline := by
      have hcond := Evaluates.cond (ihc hc).2 (iha ha).1 (ihb hb).1
      rwa [bind_assoc] at hcond
    exact ⟨hvalue, hvalue.decides_of_plain rfl⟩
  | case7 x hparen hnot hand hor hnotIn hcond =>
    have hwhole : x.outline = Outline.ask x :=
      Expr.outline.eq_7 x hparen hnot hand hor hnotIn hcond
    -- no form of its own: the expression is asked for whole
    obtain ⟨code, htest, hcode⟩ := exists_test_on (R := R) x hparen hnot hand hor hnotIn
    rw [hwhole]
    exact ⟨evaluates_ask hx, (evaluates_ask hx).decides htest hcode⟩

end Running

/-! ## Emitted code -/

/-- What a builder emits to branch on an expression stands in every graph that goes on from
there. -/
theorem Expr.stage_test (x : Expr) {b b' : Builder} {c t f : BlockId} (hc : b.Cursor c)
    (h : Build.settled (Build.expr x (.branch t f)) b = .ok () b') :
    Builder.Stage b c b' none [] fun pool g => x.TestAt pool g (b.endOf c) t f := by
  rw [Lowering.expr_eq, Lowering.settled_build_branch] at h
  exact (Test.realizes _ hc h).mono fun _ _ hat => ⟨_, _, _, hat⟩

namespace Running

variable {p : Program} {predeclared : String → Prop} {R : Running p predeclared}

/-- The code that branches on a condition does what the code for its value does. Both are what a
builder emits. From any state before them, both evaluate the same parts in the same scenes, and fail
alike. Where one leaves a value on the operand stack, the other goes to the block for its truth with
the stack as it was before. -/
theorem branches_as_evaluated {x : Expr} (hx : Resolved.expr .full R.code.scopes x) :
    (∀ b b' c, b.Cursor c → Build.settled (Build.expr x .value) b = .ok () b' →
      ∃ c', Builder.Stage b c b' (some c') [] fun pool g =>
        x.ValueAt pool g (b.endOf c) (b'.endOf c')) ∧
    (∀ b b' c t f, b.Cursor c → Build.settled (Build.expr x (.branch t f)) b = .ok () b' →
      Builder.Stage b c b' none [] fun pool g => x.TestAt pool g (b.endOf c) t f) ∧
    ∀ n st its s,
      (∀ q q', x.ValueAt p.pool R.code.graph q q' → R.StandsAt n q st its s →
        R.Tracks its st (fun m v s => R.StandsAt m q' (v :: st) its s) (x.outline s) n) ∧
      (∀ q t f, x.TestAt p.pool R.code.graph q t f → R.StandsAt n q st its s →
        R.Tracks its st (fun m b s => R.StandsAt m ⟨if b then t else f, 0⟩ st its s)
          ((x.outline >>= Outline.truth) s) n) ∧
      (x.outline s).DecidedBy ((x.outline >>= Outline.truth) s) := by
  obtain ⟨hvalue, htest⟩ := evaluates_and_decides hx
  exact ⟨fun b b' c => x.stage_value, fun b b' c t f => x.stage_test, fun n st its s =>
    ⟨fun q q' => hvalue n q q' st its s, fun q t f => htest n q t f st its s,
        (x.outline s).decidedBy_truth⟩⟩

end Running

/-! ## A condition that branches and is returned -/

namespace SourceFile

/-- The condition `not (len and len([])) or 1 not in [1]`. -/
def gate : Expr :=
  .binary .or
    (.unary .not
      (.paren (.binary .and (.ident ⟨"len", ⟨1, 9⟩, .universal, 0⟩)
        (.call (.ident ⟨"len", ⟨1, 17⟩, .universal, 0⟩) [.positional (.list [])] ⟨1, 20⟩) ⟨1, 13⟩))
      ⟨1, 4⟩)
    (.binary .notIn (.literal (.int 1) ⟨1, 29⟩) (.list [.literal (.int 1) ⟨1, 39⟩]) ⟨1, 31⟩) ⟨1, 26⟩

/-- A file that branches on the condition, and then returns it. -/
def gateFile : SourceFile where
  filename := "gate.star"
  body := [.ifElse gate [.pass] [], .ret (some gate)]
  locals := []
  globals := []
  recursion := false

/-- The file of the example is well resolved. -/
theorem wellResolved_gateFile : gateFile.WellResolved fun _ => False := by
  simp [SourceFile.WellResolved, SourceFile.scopes, gateFile, gate, Resolved.stmts, Resolved.stmt,
    Resolved.bound, Resolved.expr, Resolved.exprs, Resolved.args, Scopes.Uses, Scopes.Declares,
    Arg.counts, Arg.Ordered]
  decide

/-- The code of the file branches on the condition where the toplevel begins, and it has code for
its value. -/
theorem branches_as_evaluated_gate : ∃ (p : Program) (R : Running p fun _ => False) (q q' : Point)
    (t f : BlockId) (s : Scene), gateFile.compile = .ok p ∧ gate.ValueAt p.pool R.code.graph q q' ∧
      gate.TestAt p.pool R.code.graph ⟨0, 0⟩ t f ∧ R.StandsAt 1 ⟨0, 0⟩ [] [] s ∧
      R.Tracks [] [] (fun m b s => R.StandsAt m ⟨if b then t else f, 0⟩ [] [] s)
        ((gate.outline >>= Outline.truth) s) 1 := by
  have hcheck : gateFile.compile.toOption.any (fun p => decide
      (p.names.size ≤ 9 ∧ p.constants.size ≤ 9 ∧ p.functions.size ≤ 9)) = true := by
    decide +kernel
  obtain ⟨p, hp, hq⟩ := exists_ok_of_any hcheck
  obtain ⟨hnames, hconstants, hfunctions⟩ := of_decide_eq_true hq
  obtain ⟨R, hscopes, hstands, -, hbegins⟩ := exists_beginning wellResolved_gateFile hp
    ⟨by omega, by omega, by omega⟩ rfl (.new "main" none 9 true) rfl rfl (by decide)
  have hgate : Resolved.expr .full R.code.scopes gate := by
    rw [hscopes]
    exact (wellResolved_gateFile.1).1
  obtain ⟨e, ⟨m, lo, ⟨h₁, m₁, h₂, m₂, htest, -⟩, m', lo', ⟨q', lo'', hvalue, -⟩, -⟩, -⟩ := hstands
  have htest : gate.TestAt p.pool R.code.graph ⟨0, 0⟩ _ _ := ⟨_, _, _, htest⟩
  exact ⟨p, R, m, q', _, _, _, hp, ⟨_, _, _, hvalue⟩, htest, hbegins,
    ((Running.branches_as_evaluated hgate).2.2 1 [] [] _).2.1 _ _ _ htest hbegins⟩

end SourceFile

end Starlark
