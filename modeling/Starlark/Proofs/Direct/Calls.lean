import Starlark.Proofs.Direct.Outline
import Starlark.Proofs.Operation.Changes

/-!
# Calls

What a call expression is written with arrives at the callee. The callee and the arguments are
evaluated in order, and the call gets the positional arguments followed by the elements of `*args`,
and the named arguments followed by the entries of `**kwargs`. If there are no such elements or
entries, the call fails and nothing is called.
-/

set_option autoImplicit false

namespace Starlark

/-! ## The parts of a call expression -/

namespace Arg

/-- The expression of an argument. -/
def value : Arg → Expr
  | .positional x | .named _ x | .star x | .starStar x => x

/-- The expression of a positional argument. -/
def positional? : Arg → Option Expr
  | .positional x => some x
  | _ => none

/-- The name and the expression of a named argument. -/
def named? : Arg → Option (String × Expr)
  | .named name x => some (name, x)
  | _ => none

/-- The expression of `*args`. -/
def star? : Arg → Option Expr
  | .star x => some x
  | _ => none

/-- The expression of `**kwargs`. -/
def starStar? : Arg → Option Expr
  | .starStar x => some x
  | _ => none

end Arg

/-- The values of resolved arguments are resolved. -/
theorem Resolved.args_value {r : Rules} {c : Scopes} {as : List Arg}
    (h : Resolved.args r c as) {a : Arg}
    (ha : a ∈ as) : Resolved.expr r c a.value := by
  induction as with
  | nil => cases ha
  | cons b rest ih =>
    have hb : Resolved.expr r c b.value ∧ Resolved.args r c rest := by cases b <;> exact h
    rcases List.mem_cons.1 ha with rfl | ha
    · exact hb.1
    · exact ih hb.2 ha

/-- The last of some arguments is resolved. -/
theorem Resolved.args_last {r : Rules} {c : Scopes} {as : List Arg} (h : Resolved.args r c as)
    (pick : Arg → Option Expr) (hpick : ∀ a x, pick a = some x → a.value = x) :
    ∀ x ∈ (as.filterMap pick).getLast?, Resolved.expr r c x := by
  intro x hx
  obtain ⟨a, ha, hax⟩ := List.mem_filterMap.1 (List.mem_of_getLast? hx)
  exact hpick a x hax ▸ Resolved.args_value h ha

/-- What a call is made of: the callee, the positional and the named arguments, and the values of
`*args` and `**kwargs`, if they are there. -/
structure Called where
  callee : Value
  positional : List Value
  named : Keywords
  star : Option Value
  starStar : Option Value

namespace Outline

/-- Evaluate named expressions from the left. -/
def allNamed : List (String × Expr) → Outline Keywords
  | [] => return []
  | (name, x) :: rest => do
    let v ← ask x
    let vs ← allNamed rest
    return (name, v) :: vs

/-- Evaluate the parts of a call: the callee, the positional arguments, the named ones, `*args`, and
`**kwargs`. Of several `*args` the last one counts, and of several `**kwargs`. -/
def call (f : Expr) (as : List Arg) : Outline Called := do
  let callee ← ask f
  let positional ← all (as.filterMap Arg.positional?)
  let named ← allNamed (as.filterMap Arg.named?)
  let star ← (as.filterMap Arg.star?).getLast?.mapM ask
  let starStar ← (as.filterMap Arg.starStar?).getLast?.mapM ask
  return { callee, positional, named, star, starStar }

end Outline

/-! ## What `*args` and `**kwargs` stand for -/

/-- An entry of a dict whose key is a string. -/
def Keywords.entry? : Value × Value → Option (String × Value)
  | (.str name, v) => some (name, v)
  | _ => none

/-- The entries of a dict, if all of its keys are strings. -/
def Heap.keywords? (h : Heap) : Value → Option Keywords
  | .dict r => (h.dict r).entries.toList.mapM Keywords.entry?
  | _ => none

namespace Op

/-- The entries of a dict are keywords if their keys are texts. -/
theorem dictKeywords_eq (entries : List (Value × Value)) (h : Heap) :
    match entries.mapM Keywords.entry? with
    | some kws => dictKeywords entries h = .ok kws h
    | none => ∃ f, dictKeywords entries h = .error (.fault f) h := by
  -- a first key that is no string fails at once; else the rest decides
  induction entries with
  | nil => rfl
  | cons e rest ih =>
    obtain ⟨k, v⟩ := e
    rw [List.mapM_cons]
    cases k with
    | str name =>
      rw [dictKeywords, Starlark.bind_apply]
      cases hr : rest.mapM Keywords.entry? with
      | none =>
        rw [hr] at ih
        obtain ⟨f, hf⟩ := ih
        rw [hf]
        exact ⟨f, rfl⟩
      | some kws =>
        rw [hr] at ih
        rw [ih]
        rfl
    | _ => exact ⟨_, rfl⟩

/-- The keywords of `**kwargs`, if it is there. -/
theorem extraKeywords_eq (kw : Option Value) (h : Heap) :
    match kw.elim (some []) h.keywords? with
    | some kws => extraKeywords kw h = .ok kws h
    | none => ∃ f, extraKeywords kw h = .error (.fault f) h := by
  cases kw with
  | none => rfl
  | some v =>
    cases v with
    | dict r => exact dictKeywords_eq _ h
    | _ => exact ⟨_, rfl⟩

/-- The arguments of `*args`, if it is there. -/
theorem extraArguments_eq (star : Option Value) (h : Heap) :
    match star.elim (some []) h.elements? with
    | some vs => extraArguments star h = .ok vs h
    | none => ∃ f, extraArguments star h = .error (.fault f) h := by
  cases star with
  | none => rfl
  | some v =>
    rw [Option.elim_some, extraArguments, expandArguments, Starlark.bind_apply, drain_eq]
    cases h.elements? v with
    | none => exact ⟨_, rfl⟩
    | some vs => rfl

/-- What `*args` and `**kwargs` stand for is taken, or there is a fault. -/
theorem extras_eq {α : Type} (star kw : Option Value) (k : List Value → Keywords → α) (h : Heap) :
    match star.elim (some []) h.elements?, kw.elim (some []) h.keywords? with
    | some elements, some entries => (do
        let extra ← extraKeywords kw
        let rest ← extraArguments star
        return k rest extra : Op α) h = .ok (k elements entries) h
    | _, _ => ∃ f, (do
        let extra ← extraKeywords kw
        let rest ← extraArguments star
        return k rest extra : Op α) h = .error (.fault f) h := by
  have hkw := extraKeywords_eq kw h
  have hargs := extraArguments_eq star h
  simp only [Starlark.bind_apply]
  -- the keywords are read first, so they fail first whatever the starred value is
  cases hentries : kw.elim (some []) h.keywords? with
  | none =>
    rw [hentries] at hkw
    obtain ⟨f, hf⟩ := hkw
    rw [hf]
    cases star.elim (some []) h.elements? <;> exact ⟨f, rfl⟩
  | some entries =>
    rw [hentries] at hkw
    rw [hkw]
    cases helements : star.elim (some []) h.elements? with
    | none =>
      rw [helements] at hargs
      obtain ⟨f, hf⟩ := hargs
      exact ⟨f, by simp only [hf]⟩
    | some elements =>
      rw [helements] at hargs
      simp only [hargs]
      rfl

end Op

/-! ## The code of a call -/

namespace Lowering

/-- Of several `*args` the last one counts. -/
theorem starArg_last (as : List Arg) :
    starArg as = (as.filterMap Arg.star?).getLast?.elim .skip (fun x => (expr x).value) ∧
      Arg.anyStar as = (as.filterMap Arg.star?).getLast?.isSome := by
  induction as with
  | nil => exact ⟨rfl, rfl⟩
  | cons a rest ih =>
    cases a with
    | star x =>
      rw [List.filterMap_cons, Arg.star?, List.getLast?_cons]
      refine ⟨?_, rfl⟩
      rw [starArg, ih.1, ih.2]
      cases (rest.filterMap Arg.star?).getLast? <;> rfl
    | _ => exact ih

/-- Of several `**kwargs` the last one counts. -/
theorem starStarArg_last (as : List Arg) :
    starStarArg as = (as.filterMap Arg.starStar?).getLast?.elim .skip (fun x => (expr x).value) ∧
      Arg.anyStarStar as = (as.filterMap Arg.starStar?).getLast?.isSome := by
  induction as with
  | nil => exact ⟨rfl, rfl⟩
  | cons a rest ih =>
    cases a with
    | starStar x =>
      rw [List.filterMap_cons, Arg.starStar?, List.getLast?_cons]
      refine ⟨?_, rfl⟩
      rw [starStarArg, ih.1, ih.2]
      cases (rest.filterMap Arg.starStar?).getLast? <;> rfl
    | _ => exact ih

end Lowering

/-- The counts of arguments count what is evaluated. -/
theorem Arg.counts_eq (as : List Arg) :
    Arg.counts as = ((as.filterMap Arg.positional?).length, (as.filterMap Arg.named?).length) := by
  induction as with
  | nil => rfl
  | cons a rest ih =>
    cases a <;> simp [Arg.counts, ih, List.filterMap_cons, Arg.positional?, Arg.named?]

namespace Running

variable {p : Program} {predeclared : String → Prop} {R : Running p predeclared} {n lo hi : Nat}
  {q q' : Point} {st : List Value} {its : List Iter} {s : Scene} {loops : List Loop} {as : List Arg}

/-- A constant is pushed. -/
theorem StandsAt.const {c : Constant} (h : R.StandsAt n q st its s)
    (hat : (Plan.const c).At p.pool R.code.graph loops q lo q' hi) :
    R.Comes n st its fun m => R.StandsAt m q' (c.value :: st) its s := by
  obtain ⟨i, hindex, hinsn, rfl, rfl⟩ := hat
  have hc : p.constants[i.toNat]? = some c := hindex.getElem?_eq R.addressable.constants
  refine h.pushes hinsn rfl rfl fun a _ hst _ => ?_
  simp only [Activation.execute, Op.entry, tables, hc, ← hst]
  rfl

/-- Behind the positional arguments, names and values come to lie on the stack. -/
theorem tracks_named (hx : Resolved.args .full R.code.scopes as)
    (hnone : as.filterMap Arg.positional? = [])
    (hat : (Lowering.plainArgs as).At p.pool R.code.graph loops q lo q' hi)
    (hv : R.StandsAt n q st its s) :
    R.Tracks its st (fun m named s => named.length = (as.filterMap Arg.named?).length ∧
        R.StandsAt m q' ((Op.alternating named).reverse ++ st) its s)
      (Outline.allNamed (as.filterMap Arg.named?) s) n := by
  -- every named argument leaves its name and its value, so the stack grows by two at each
  induction as generalizing q lo st s n with
  | nil =>
    obtain ⟨rfl, rfl⟩ := hat
    exact .here ⟨rfl, hv⟩
  | cons a rest ih =>
    cases a with
    | positional x => cases hnone
    | named name x =>
      obtain ⟨_, _, ⟨_, _, hatn, hatx⟩, hatr⟩ := hat
      refine Tracks.after (hv.const hatn) fun m _ hv => ?_
      refine Tracks.bind ((Tracks.ask hx.1 ⟨_, _, _, hatx⟩ hv).below (List.suffix_cons _ st))
        fun m v s _ hv => ?_
      refine ((ih hx.2 hnone hatr hv).below ⟨[v, .str name], rfl⟩).bind
          fun m named s _ hv => .here ?_
      obtain ⟨hlen, hv⟩ := hv
      exact ⟨congrArg Nat.succ hlen, by simpa [Op.alternating, Constant.value] using hv⟩
    | star x => exact ih hx.2 hnone hat hv
    | starStar x => exact ih hx.2 hnone hat hv

/-- The positional arguments come to lie on the stack, and above them the names and values of the
others. -/
theorem tracks_plainArgs (hx : Resolved.args .full R.code.scopes as) (ho : Arg.Ordered as)
    (hat : (Lowering.plainArgs as).At p.pool R.code.graph loops q lo q' hi)
    (hv : R.StandsAt n q st its s) :
    R.Tracks its st (fun m r s => r.1.length = (as.filterMap Arg.positional?).length ∧
        r.2.length = (as.filterMap Arg.named?).length ∧
        R.StandsAt m q' ((Op.alternating r.2).reverse ++ (r.1.reverse ++ st)) its s)
      ((do
        let positional ← Outline.all (as.filterMap Arg.positional?)
        let named ← Outline.allNamed (as.filterMap Arg.named?)
        return (positional, named)) s) n := by
  induction as generalizing q lo st s n with
  | nil =>
    obtain ⟨rfl, rfl⟩ := hat
    exact .here ⟨rfl, rfl, hv⟩
  | cons a rest ih =>
    cases a with
    | positional x =>
      obtain ⟨_, _, hatx, hatr⟩ := hat
      have hfirst : (do
          let positional ← Outline.all ((Arg.positional x :: rest).filterMap Arg.positional?)
          let named ← Outline.allNamed ((Arg.positional x :: rest).filterMap Arg.named?)
          return (positional, named)) = (do
          let v ← Outline.ask x
          let r ← (do
            let positional ← Outline.all (rest.filterMap Arg.positional?)
            let named ← Outline.allNamed (rest.filterMap Arg.named?)
            return (positional, named) : Outline (List Value × Keywords))
          return (v :: r.1, r.2)) := by
        simp [List.filterMap_cons, Arg.positional?, Arg.named?, Outline.all]
      rw [hfirst]
      refine (Tracks.ask hx.1 ⟨_, _, _, hatx⟩ hv).bind fun m v s _ hv => ?_
      refine ((ih hx.2 ho hatr hv).below (List.suffix_cons v st)).bind fun m r s _ hv => .here ?_
      obtain ⟨hpositional, hnamed, hv⟩ := hv
      exact ⟨congrArg Nat.succ hpositional, hnamed, by simpa using hv⟩
    | named name x =>
      -- no positional argument stands behind a named one
      have hnone : (Arg.named name x :: rest).filterMap Arg.positional? = [] := by
        have hcount : (Arg.counts rest).1 = 0 := ho
        rw [Arg.counts_eq] at hcount
        exact List.length_eq_zero_iff.1 hcount
      rw [hnone, Outline.all, pure_bind]
      exact (tracks_named hx hnone hat hv).bind fun m named s _ hv => .here ⟨rfl, hv.1, hv.2⟩
    | star x => exact ih hx.2 ho hat hv
    | starStar x => exact ih hx.2 ho hat hv

/-- An argument that may be absent comes to lie on the stack. -/
theorem tracks_last {x? : Option Expr} (hx : ∀ x ∈ x?, Resolved.expr .full R.code.scopes x)
    (hat : (x?.elim .skip (fun x => (Lowering.expr x).value)).At p.pool R.code.graph loops
    q lo q' hi)
    (hv : R.StandsAt n q st its s) :
    R.Tracks its st (fun m v? s => v?.isSome = x?.isSome ∧ R.StandsAt m q' (v?.toList ++ st) its s)
      (x?.mapM Outline.ask s) n := by
  cases x? with
  | none =>
    obtain ⟨rfl, rfl⟩ := hat
    exact .here ⟨rfl, hv⟩
  | some x =>
    have hone : (some x).mapM Outline.ask = (do return some (← Outline.ask x) : Outline _) := rfl
    rw [hone]
    exact (Tracks.ask (hx x rfl) ⟨_, _, _, hat⟩ hv).bind fun m v s _ hv => .here ⟨rfl, hv⟩

/-- At a time, what a call is made of is passed to the callee, or the call fails because there are
no elements of `*args`, or no entries of `**kwargs` whose keys are strings. -/
def PassesAt (R : Running p predeclared) (n : Nat) (c : Called) (q : Point) (st : List Value)
    (its : List Iter) (s : Scene) : Prop :=
  match c.star.elim (some []) s.heap.elements?, c.starStar.elim (some []) s.heap.keywords? with
  | some elements, some entries =>
    R.CallsAt n c.callee (c.positional ++ elements) (c.named ++ entries) q st its s
  | _, _ => ∃ f, R.FailsAt n (.fault f) st its s

/-- A call instruction takes what a call is made of from the stack. -/
theorem StandsAt.call {c : Called} {op : Opcode} {arg : UInt32}
    (h : R.StandsAt n q (c.starStar.toList ++ (c.star.toList ++ ((Op.alternating c.named).reverse ++
      (c.positional.reverse ++ c.callee :: st)))) its s)
    (hop : op = Build.callOpcode c.star.isSome c.starStar.isSome)
    (hpositional : Opcode.positionalCount arg = c.positional.length)
    (hnamed : Opcode.namedCount arg = c.named.length) (hi : R.code.graph.InsnAt q op arg) :
    R.Comes n st its fun m => R.PassesAt m c q.next st its s := by
  have hcall : op.isCall = true ∧ op.isPlain = true ∧ op.hasArg = true := by
    rw [hop]
    exact Lowering.callOpcode_isCall _ _
  obtain ⟨hcall, hplain, hhas⟩ := hcall
  have hlow : st <:+ c.starStar.toList ++ (c.star.toList ++ ((Op.alternating c.named).reverse ++
      (c.positional.reverse ++ c.callee :: st))) :=
    ⟨c.starStar.toList ++ (c.star.toList ++ ((Op.alternating c.named).reverse ++
      (c.positional.reverse ++ [c.callee]))), by simp⟩
  refine ((h.execute hi (Opcode.isCondJump_of_isPlain hplain)
    (fun hno => by rw [hhas] at hno; cases hno)).below hlow (List.suffix_refl its)).mono
    fun m _ hm => ?_
  obtain ⟨a, ha, hl, hst, rfl, -, hyields⟩ := hm
  -- the two counts of the operand take the operands apart as they were pushed
  rw [Activation.execute_of_isCall hcall, hst, hop, Op.takeCall_eq hpositional hnamed] at hyields
  simp only [bind_assoc, pure_bind] at hyields
  have hextras := Op.extras_eq c.star c.starStar
    (fun rest extra => Effect.call { a with stack := st } c.callee (c.positional ++ rest)
      (c.named ++ extra)) s.heap
  -- what is left is reading the extra arguments, where the call may still fail
  unfold PassesAt
  split
  · rename_i elements entries helements hentries
    rw [helements, hentries] at hextras
    rw [hextras] at hyields
    have hcalls := hyields rfl rfl
    rwa [hl] at hcalls
  · rename_i hnone
    split at hextras
    · rename_i elements entries helements hentries
      exact absurd hentries (hnone elements entries helements)
    · obtain ⟨f, hf⟩ := hextras
      rw [hf] at hyields
      exact ⟨f, hyields.below (hst ▸ hlow)⟩

/-- The code of a call expression evaluates the parts of the call and passes them on. -/
theorem tracks_call {f : Expr} {pos : Position}
    (hx : Resolved.expr .full R.code.scopes (.call f as pos))
    (hq : R.Holds (.call f as pos) q q') (hv : R.StandsAt n q st its s) :
    R.Tracks its st (fun m c s => R.PassesAt m c q' st its s) (Outline.call f as s) n := by
  obtain ⟨hf, has, hfewp, hfewn, hordered⟩ := hx
  obtain ⟨loops, lo, hi, _, _, ⟨m₄, _, ⟨m₃, _, ⟨m₂, _, ⟨m₁, _, hatf, hatplain⟩, hatstar⟩, hatkw⟩,
    hatcall⟩, rfl, rfl⟩ := hq
  obtain ⟨hstar, hanyStar⟩ := Lowering.starArg_last as
  obtain ⟨hkw, hanyKw⟩ := Lowering.starStarArg_last as
  rw [hstar] at hatstar
  rw [hkw] at hatkw
  have hparts : Outline.call f as = (do
      let callee ← Outline.ask f
      let r ← (do
        let positional ← Outline.all (as.filterMap Arg.positional?)
        let named ← Outline.allNamed (as.filterMap Arg.named?)
        return (positional, named) : Outline (List Value × Keywords))
      let star ← (as.filterMap Arg.star?).getLast?.mapM Outline.ask
      let starStar ← (as.filterMap Arg.starStar?).getLast?.mapM Outline.ask
      return ⟨callee, r.1, r.2, star, starStar⟩) := by
    simp [Outline.call]
  rw [hparts]
  refine (Tracks.ask hf ⟨_, _, _, hatf⟩ hv).bind fun m callee s _ hv => ?_
  refine Tracks.bind ((tracks_plainArgs has (hordered rfl) hatplain hv).below
    (List.suffix_cons callee st)) fun m r s _ hr => ?_
  obtain ⟨hpositional, hnamed, hv⟩ := hr
  have hplain : st <:+ (Op.alternating r.2).reverse ++ (r.1.reverse ++ callee :: st) :=
    ⟨(Op.alternating r.2).reverse ++ (r.1.reverse ++ [callee]), by simp⟩
  have hstarResolved := Resolved.args_last has Arg.star? fun a x h => by
    cases a <;> cases h
    rfl
  have hkwResolved := Resolved.args_last has Arg.starStar? fun a x h => by
    cases a <;> cases h
    rfl
  refine Tracks.bind ((tracks_last hstarResolved hatstar hv).below hplain) fun m star s _ hr => ?_
  obtain ⟨hstarSome, hv⟩ := hr
  refine Tracks.bind
      ((tracks_last hkwResolved hatkw hv).below (hplain.trans (List.suffix_append _ _)))
    fun m kw s _ hr => ?_
  obtain ⟨hkwSome, hv⟩ := hr
  -- with more arguments of a kind, the counts would not fit into the operand
  unfold Lowering.callWith at hatcall
  rw [if_neg (by omega)] at hatcall
  obtain ⟨_, _, ⟨rfl, rfl⟩, hinsn, rfl, rfl⟩ := hatcall
  obtain ⟨hpc, hnc⟩ := Lowering.counts_callOperand hfewp hfewn
  have hcounts := Arg.counts_eq as
  exact StandsAt.call (c := ⟨callee, r.1, r.2, star, kw⟩) hv
    (by rw [hanyStar, hanyKw, hstarSome, hkwSome]) (by rw [hpc, hcounts, hpositional])
    (by rw [hnc, hcounts, hnamed]) hinsn

/-- What a builder emits for a call expression evaluates the callee, the positional arguments, the
named ones, `*args` and `**kwargs`, each once and in this order. Unless one of these fails, the
callee is then called with the positional arguments followed by the elements of `*args`, and with
the named arguments followed by the entries of `**kwargs`; or the call fails and nothing is called,
since there are no such elements or entries. All the while the operand stack below the callee is
kept, and the value of the call comes to lie on top of it. -/
theorem call_receives_arguments {f : Expr} {as : List Arg} {pos : Position}
    (hx : Resolved.expr .full R.code.scopes (.call f as pos)) :
    (∀ b b' c, b.Cursor c → Build.settled (Build.expr (.call f as pos) .value) b = .ok () b' →
      ∃ c', Builder.Stage b c b' (some c') [] fun pool g =>
        (Expr.call f as pos).ValueAt pool g (b.endOf c) (b'.endOf c')) ∧
    ∀ n q q' st its s, (Expr.call f as pos).ValueAt p.pool R.code.graph q q' →
      R.StandsAt n q st its s →
      R.Tracks its st (fun m c s => R.PassesAt m c q' st its s) (Outline.call f as s) n ∧
      R.Keeps n st its fun m => ∃ v s', R.StandsAt m q' (v :: st) its s' :=
  ⟨fun _ _ _ => (Expr.call f as pos).stage_value, fun _ _ _ _ _ _ hq hv =>
    ⟨tracks_call hx hq hv, keeps_expr hx hq hv⟩⟩

end Running

/-! ## A call with arguments of each kind -/

namespace SourceFile

/-- The call `print("a", sep = "b", *["c"], **{"end": "d"})`. -/
def announce : Expr :=
  let str (s : String) (col : UInt32) : Expr := .literal (.str s) ⟨1, col⟩
  .call (.ident ⟨"print", ⟨1, 1⟩, .universal, 0⟩)
    [.positional (str "a" 7), .named "sep" (str "b" 18), .star (.list [str "c" 25]),
      .starStar (.dict [.mk (str "end" 34) (str "d" 41) ⟨1, 39⟩])] ⟨1, 6⟩

/-- A file that returns what the call does. -/
def announceFile : SourceFile where
  filename := "announce.star"
  body := [.ret (some announce)]
  locals := []
  globals := []
  recursion := false

/-- The file of the example is well resolved. -/
theorem wellResolved_announceFile : announceFile.WellResolved fun _ => False := by
  simp [SourceFile.WellResolved, SourceFile.scopes, announceFile, announce, Resolved.stmts,
      Resolved.stmt,
    Resolved.bound, Resolved.expr, Resolved.exprs, Resolved.entries, Resolved.args, Scopes.Uses,
    Scopes.Declares, Arg.counts, Arg.Ordered]
  decide

/-- The toplevel begins with the code of the call. -/
theorem call_receives_arguments_announce : ∃ (p : Program) (R : Running p fun _ => False)
    (q' : Point)
    (s : Scene), announceFile.compile = .ok p ∧ announce.ValueAt p.pool R.code.graph ⟨0, 0⟩ q' ∧
      R.StandsAt 1 ⟨0, 0⟩ [] [] s ∧ ∃ f as pos, announce = .call f as pos ∧
      R.Tracks [] [] (fun m c s => R.PassesAt m c q' [] [] s) (Outline.call f as s) 1 := by
  have hcheck : announceFile.compile.toOption.any (fun p => decide
      (p.names.size ≤ 9 ∧ p.constants.size ≤ 9 ∧ p.functions.size ≤ 9)) = true := by
    decide +kernel
  obtain ⟨p, hp, hq⟩ := exists_ok_of_any hcheck
  obtain ⟨hnames, hconstants, hfunctions⟩ := of_decide_eq_true hq
  obtain ⟨R, hscopes, hstands, -, hbegins⟩ := exists_beginning wellResolved_announceFile hp
    ⟨by omega, by omega, by omega⟩ rfl (.new "main" none 9 true) rfl rfl (by decide)
  have hresolved : Resolved.expr .full R.code.scopes announce := by
    rw [hscopes]
    exact wellResolved_announceFile.1
  obtain ⟨e, ⟨m, lo, ⟨q', lo', hvalue, -⟩, -⟩, -⟩ := hstands
  have hvalue : announce.ValueAt p.pool R.code.graph ⟨0, 0⟩ q' := ⟨_, _, _, hvalue⟩
  exact ⟨p, R, q', _, hp, hvalue, hbegins, _, _, _, rfl,
    ((Running.call_receives_arguments hresolved).2 1 _ _ [] [] _ hvalue hbegins).1⟩

end SourceFile

end Starlark
