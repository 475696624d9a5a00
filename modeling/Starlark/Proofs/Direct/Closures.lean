import Starlark.Proofs.Direct.Locals
import Starlark.Proofs.Direct.Outline
import Starlark.Proofs.Lower.Signature
import Starlark.Proofs.Machine.Omission
import Starlark.Proofs.Machine.Pooling

/-!
# Closures

A `def` or a `lambda` makes a function of its code, the defaults of its parameters and the cells of
its free variables. The defaults are evaluated when the function is made, and they and the cells are
packed into one tuple, which is divided again by counting. The function has the very cells that the
activation holds in which it is made, and a call that omits parameters finds their own defaults
(`Running.closure_carries`).
-/

set_option autoImplicit false

namespace Starlark

/-- Evaluate the defaults of parameters. -/
def Outline.defaults : List (Ident × Option Expr) → Outline (List (Option Value))
  | [] => return []
  | x :: rest => do
    let d ← x.2.mapM Outline.ask
    let ds ← defaults rest
    return d :: ds

/-- Required parameters have no defaults. -/
theorem Outline.defaults_append_required (ids : List Ident) (rest : List (Ident × Option Expr)) :
    Outline.defaults (ids.map (fun id => (id, none)) ++ rest) = (do
      let ds ← Outline.defaults rest
      return List.replicate ids.length none ++ ds) := by
  induction ids with
  | nil => simp
  | cons id ids ih =>
    simp [Outline.defaults, ih, List.replicate_succ]

/-- No step takes a function away. -/
theorem Machine.keepsFuncs_step (m : Machine) : m.heap.KeepsFuncs m.step.heap := by
  have hhappens := m.happens_step
  generalize m.step.heap = h, m.step.iters = live at hhappens ⊢
  cases hhappens with
  | shift hs => exact .of_shift hs
  | act _ _ hp => exact .of_performs hp

/-- Functions stay where they are, whatever a machine does. -/
theorem Machine.keepsFuncs_run (m : Machine) {n k : Nat} (hle : n ≤ k) :
    (run n m).heap.KeepsFuncs (run k m).heap := by
  induction hle with
  | refl => exact .refl _
  | step _ ih =>
    rw [run_succ_eq_step]
    exact ih.trans (keepsFuncs_step _)

namespace Running

variable {p : Program} {predeclared : String → Prop} {R : Running p predeclared} {n lo hi : Nat}
  {q q' : Point} {st : List Value} {its : List Iter} {s : Scene} {loops : List Loop}

/-! ## Cells -/

/-- The cell that an activation holds for a free variable of a function that it makes. -/
def cellFor (R : Running p predeclared) (locals : Array (Option Value)) (fv : Binding) :
    Option Value :=
  match fv.scope with
  | .cell => locals[fv.index.toNat]?.join
  | .free => R.func.freeVars[fv.index.toNat]?
  | _ => none

/-- What a function captures is a cell of the one around it. -/
theorem exists_cellFor {fv : Binding} (hfv : R.code.scopes.Captures .full fv) (hs : R.Settled s) :
    ∃ c : CellRef, R.cellFor s.locals fv = some (.cell c) := by
  obtain ⟨hscope, hdeclared⟩ := hfv
  have hdeclared := hdeclared rfl
  unfold cellFor
  rcases hscope with hscope | hscope
  · rw [hscope] at hdeclared ⊢
    obtain ⟨c, hc, -⟩ := hs.boxes.cell fv.index hdeclared
    exact ⟨c, by simp [hc]⟩
  · rw [hscope] at hdeclared ⊢
    have hlt : fv.index.toNat < R.func.freeVars.size := hs.free_size ▸ hdeclared
    obtain ⟨c, hc⟩ := hs.free_cell _ (Array.getElem_mem hlt)
    exact ⟨c, by rw [Array.getElem?_eq_getElem hlt, hc]⟩

/-- The activation holds cells for all free variables of a function that it makes. -/
theorem exists_cells (hp : p.Sourced) (hreach : R.start.Reachable) (h : R.StandsAt n q st its s)
    {fvs : List Binding} (hfvs : ∀ fv ∈ fvs, R.code.scopes.Captures .full fv) :
    ∃ cells : List CellRef, List.Forall₂ (fun fv c => R.cellFor s.locals fv = some (.cell c)) fvs
        cells := by
  have hs := settled_of_reachable hp hreach h
  induction fvs with
  | nil => exact ⟨[], .nil⟩
  | cons fv fvs ih =>
    obtain ⟨hfv, hfvs⟩ := List.forall_mem_cons.1 hfvs
    obtain ⟨c, hc⟩ := exists_cellFor hfv hs
    obtain ⟨cs, hcs⟩ := ih hfvs
    exact ⟨c :: cs, .cons hc hcs⟩

/-! ## Making a function -/

/-- The cell of a free variable is pushed. -/
theorem StandsAt.capture {fv : Binding} {v : Value} (h : R.StandsAt n q st its s)
    (hv : R.cellFor s.locals fv = some v)
    (hat : (Lowering.capture fv).At p.pool R.code.graph loops q lo q' hi) :
    R.Comes n st its fun m => R.StandsAt m q' (v :: st) its s := by
  unfold cellFor at hv
  unfold Lowering.capture at hat
  -- a cell of the function itself or one that it was given; nothing else is captured
  cases hscope : fv.scope with
  | free =>
    rw [hscope] at hv hat
    obtain ⟨hinsn, rfl, rfl⟩ := hat
    refine h.pushes hinsn rfl rfl fun a _ hst _ => ?_
    have hentry : R.tables.freeVars[fv.index.toNat]? = some v := hv
    simp only [Activation.execute, Op.entry, hentry, ← hst]
    rfl
  | cell =>
    rw [hscope] at hv hat
    obtain ⟨hinsn, rfl, rfl⟩ := hat
    refine h.pushes hinsn rfl rfl fun a hl hst _ => ?_
    have hslot : s.locals[fv.index.toNat]? = some (some v) := Option.join_eq_some_iff.1 hv
    simp only [Activation.execute, Op.slot, Op.entry, hl, hslot, ← hst]
    rfl
  | frame | global | predeclared | universal =>
    rw [hscope] at hv
    cases hv

/-- The cells of free variables come to lie on the stack in order. -/
theorem StandsAt.captureAll {fvs : List Binding} {vs : List Value} (h : R.StandsAt n q st its s)
    (hvs : List.Forall₂ (fun fv v => R.cellFor s.locals fv = some v) fvs vs)
    (hat : (Lowering.captureAll fvs).At p.pool R.code.graph loops q lo q' hi) :
    R.Comes n st its fun m => R.StandsAt m q' (vs.reverse ++ st) its s := by
  induction hvs generalizing q lo st n with
  | nil =>
    obtain ⟨rfl, rfl⟩ := hat
    exact .here h
  | @cons fv v fvs vs hv _ ih =>
    obtain ⟨_, _, hfirst, hrest⟩ := hat
    refine (h.capture hv hfirst).bind fun m _ hm => ?_
    refine ((ih hm hrest).below (List.suffix_cons v st) (List.suffix_refl its)).mono
        fun m _ hm => ?_
    simpa using hm

/-- The mandatory mark is pushed. -/
theorem StandsAt.mandatory (h : R.StandsAt n q st its s)
    (hinsn : R.code.graph.InsnAt q .mandatory 0) :
    R.Comes n st its fun m => R.StandsAt m q.next (.mandatory :: st) its s := by
  refine (h.execute hinsn rfl fun _ => rfl).mono fun m _ hm => ?_
  obtain ⟨a, ha, hl, rfl, rfl, -, hyields⟩ := hm
  have hnext := hyields rfl rfl
  rwa [hl] at hnext

/-- The defaults of parameters are evaluated in order, and come to lie on the stack with the marks
of those that have none. -/
theorem tracks_defaults {params : List Param} {afterStar : Bool}
    (hx : Resolved.params .full R.code.scopes params)
    (hat : (Lowering.defaults params afterStar).At p.pool R.code.graph loops q lo q' hi)
    (hv : R.StandsAt n q st its s) :
    R.Tracks its st (fun m ds s =>
        ds.map Option.isSome = (Param.packed params afterStar).map (fun x => x.2.isSome) ∧
        R.StandsAt m q' ((ds.map fun d => d.getD .mandatory).reverse ++ st) its s)
      (Outline.defaults (Param.packed params afterStar) s) n := by
  induction params generalizing q lo st s n afterStar with
  | nil =>
    obtain ⟨rfl, rfl⟩ := hat
    exact .here ⟨rfl, hv⟩
  | cons x rest ih =>
    cases x with
    | optional id x =>
      obtain ⟨_, _, hatx, hatr⟩ := hat
      have hfirst : Outline.defaults (Param.packed (.optional id x :: rest) afterStar) = (do
          let v ← Outline.ask x
          let ds ← Outline.defaults (Param.packed rest afterStar)
          return some v :: ds) := by
        simp [Param.packed, Outline.defaults]
      rw [hfirst]
      refine (Tracks.ask hx.1 ⟨_, _, _, hatx⟩ hv).bind fun m v s _ hv => ?_
      refine ((ih hx.2 hatr hv).below (List.suffix_cons v st)).bind fun m ds s _ hv => .here ?_
      exact ⟨congrArg (List.cons _) hv.1, by simpa using hv.2⟩
    | required id =>
      cases afterStar with
      | false =>
        -- in front of the star, a required parameter has no place in the tuple
        exact ih hx hat hv
      | true =>
        obtain ⟨_, _, ⟨hinsn, rfl, rfl⟩, hatr⟩ := hat
        have hfirst : Outline.defaults (Param.packed (.required id :: rest) true) = (do
            let ds ← Outline.defaults (Param.packed rest true)
            return none :: ds) := by
          simp [Param.packed, Outline.defaults]
        rw [hfirst]
        refine Tracks.after (hv.mandatory hinsn) fun m _ hv => ?_
        refine ((ih hx hatr hv).below (List.suffix_cons _ st)).bind fun m ds s _ hv => .here ?_
        exact ⟨congrArg (List.cons _) hv.1, by simpa using hv.2⟩
    | star | varargs | kwargs => exact ih hx hat hv

/-- Values of the stack are packed into a tuple. -/
theorem StandsAt.makeTuple {vs : List Value} (h : R.StandsAt n q (vs.reverse ++ st) its s)
    (hinsn : R.code.graph.InsnAt q .makeTuple (UInt32.ofNat vs.length)) :
    R.Comes n st its fun m => R.StandsAt m q.next (.tuple vs :: st) its s := by
  refine (h.pushes hinsn rfl rfl fun a _ hst hlt => ?_).below (List.suffix_append _ st)
    (List.suffix_refl its)
  simp only [Activation.execute, hst, popMany_display hlt]
  rfl

/-- A tuple is divided into defaults and cells, of which a function is made. -/
theorem StandsAt.makeFunc {i : UInt32} {code : Code} {values cells : List Value}
    (h : R.StandsAt n q (.tuple (values ++ cells) :: st) its s)
    (hinsn : R.code.graph.InsnAt q .makeFunc i) (hcode : p.functions[i.toNat]? = some code)
    (hcells : cells.length = code.freeVars.size) :
    R.Comes n st its fun m => R.StandsAt m q.next (.func ⟨s.heap.funcs.size⟩ :: st) its
      { s with heap := (s.heap.newFunc
        ⟨R.func.module, .nested i, values.toArray, cells.toArray⟩).2 } := by
  refine (h.pushes hinsn rfl rfl fun a _ hst hlt => ?_).below (List.suffix_cons _ st)
    (List.suffix_refl its)
  have hmake : Op.makeFunc R.tables i (.tuple (values ++ cells) :: st) s.heap =
      .ok (.func ⟨s.heap.funcs.size⟩, st) (s.heap.newFunc
        ⟨R.func.module, .nested i, values.toArray, cells.toArray⟩).2 := by
    -- the callee has as many free variables as there are cells, so the tuple is divided where it
    -- was joined
    have hlen : ¬(values ++ cells).length < code.freeVars.size := by
      rw [List.length_append, hcells]
      omega
    have hsplit : (values ++ cells).length - code.freeVars.size = values.length := by
      rw [List.length_append, hcells]
      omega
    have htable : R.tables.program.functions[i.toNat]? = some code := hcode
    rw [Op.makeFunc, htable]
    simp only [Op.pop_bind, hsplit, if_neg hlen, List.take_left, List.drop_left]
    rfl
  simp only [Activation.execute, hst]
  exact Starlark.bind_apply .. ▸ by rw [hmake]; rfl

/-- The values of the defaults are on the stack. The cells are captured, all are packed into a
tuple, and the function is made of it. -/
theorem StandsAt.closes {fvs : List Binding} {values : List Value} {cells : List CellRef}
    {q₁ : Point}
    {i : UInt32} {code : Code} (h : R.StandsAt n q (values.reverse ++ st) its s)
    (hcells : List.Forall₂ (fun fv c => R.cellFor s.locals fv = some (.cell c)) fvs cells)
    (hcapture : (Lowering.captureAll fvs).At p.pool R.code.graph loops q lo q₁ hi)
    (htuple : R.code.graph.InsnAt q₁ .makeTuple (UInt32.ofNat (values.length + fvs.length)))
    (hmake : R.code.graph.InsnAt q₁.next .makeFunc i) (hcode : p.functions[i.toNat]? = some code)
    (hfree : code.freeVars.size = fvs.length) :
    R.Comes n st its fun m => R.StandsAt m q₁.next.next (.func ⟨s.heap.funcs.size⟩ :: st) its
      { s with heap := (s.heap.newFunc
        ⟨R.func.module, .nested i, values.toArray, (cells.map Value.cell).toArray⟩).2 } := by
  have hlength : (cells.map Value.cell).length = fvs.length := by
    rw [List.length_map, hcells.length_eq]
  have hheld : List.Forall₂ (fun fv v => R.cellFor s.locals fv = some v) fvs
      (cells.map Value.cell) :=
    List.forall₂_map_right_iff.2 hcells
  refine ((h.captureAll hheld hcapture).below (List.suffix_append _ st) (List.suffix_refl its)).bind
    fun m _ hv => ?_
  -- defaults and cells are one tuple, of which the instruction takes the two parts
  rw [← List.append_assoc, ← List.reverse_append] at hv
  rw [← hlength, ← List.length_append] at htuple
  refine (hv.makeTuple htuple).bind fun m _ hv => ?_
  exact hv.makeFunc hmake hcode (by rw [hlength, hfree])

end Running

/-- The code that makes a function stands between two points of a graph. -/
def Function.MadeAt (f : Function) (pool : Pool) (g : BlockGraph) (q q' : Point) : Prop :=
  ∃ loops lo hi, (Lowering.function f).At pool g loops q lo q' hi

/-- The value of a `lambda` is the function that is made. -/
theorem Function.valueAt_lambda_iff {f : Function} {pool : Pool} {g : BlockGraph} {q q' : Point} :
    (Expr.lambda f).ValueAt pool g q q' ↔ f.MadeAt pool g q q' := by
  constructor
  · rintro ⟨loops, lo, hi, _, _, hat, rfl, rfl⟩
    exact ⟨loops, lo, _, hat⟩
  · rintro ⟨loops, lo, hi, hat⟩
    exact ⟨loops, lo, hi, _, _, hat, rfl, rfl⟩

/-- The calls of a function whose parameters have the given defaults. Take a call for which there is
room, that does not recur, and whose arguments all have places. If all parameters that it omits have
defaults, the body starts, and each of them holds its own. Otherwise the call fails, and lists
exactly the omitted parameters that have none. -/
def FuncObj.Supplies (g : FuncObj) (p : Program) (c : Code) (r : FuncRef)
    (ds : List (Option Value)) :
    Prop :=
  ∀ (m : Machine) (args : List Value) (kwargs : Keywords), m.heap.funcs[r.index]? = some g →
    m.heap.programOf g = p → m.control = .invoke (.func r) args kwargs →
    m.frames.length < m.thread.maxDepth → ¬m.Recurs g → c.Takes args kwargs →
    (c.lacking (supply ds) args kwargs = [] → ∃ locals heap,
      m.step = ⟨heap, m.thread, .func { func := g, locals } .call :: m.frames, .exec⟩ ∧
      ∀ i, c.Omits args kwargs i →
        ∃ v, supply ds i = some v ∧ heap.localValue? c locals i = some v) ∧
    (c.lacking (supply ds) args kwargs ≠ [] →
      m.step = Machine.fail m.heap m.thread (.func { func := g, locals := #[] } .call :: m.frames)
        (.fault (.missingArguments c.name (c.lacking (supply ds) args kwargs))))

/-- A compiled function supplies its parameters with the defaults that are packed with it. -/
theorem Program.Sourced.supplies {p : Program} (hp : p.Sourced) {f : Function} {σ : Signature}
    (hσ : σ.Declares f) (hf : f.Counted) {a : Assembled} {i : UInt32} {g : FuncObj}
    (hcode : g.code = .nested i) (hi : p.functions[i.toNat]? = some (f.compiled a))
    {ds : List (Option Value)} (hds : ds.length = σ.packed.length)
    (hdefaults : g.defaults = (ds.map fun d => d.getD .mandatory).toArray) (r : FuncRef) :
    g.Supplies p (f.compiled a) r (List.replicate σ.required.length none ++ ds) := by
  intro m args kwargs hg hprogram hcontrol hroom hrecurs ht
  have hfound : p.code? g.code = some (f.compiled a) := by
    rw [hcode]
    exact hi
  have hof : m.heap.codeOf g = f.compiled a := by
    rw [Heap.codeOf, hprogram, hfound]
    rfl
  have hlowers := (hp.types.typed _ ⟨_, hfound⟩).lowers
  -- the defaults were packed in the order of the signature, which is how the step reads them
  have hdesc := hσ.describes_compiled hf a
  have hc := hdesc.aligned hlowers.counted hσ.names hds
  rw [← hdefaults] at hc
  refine Machine.step_omitting hcontrol hg hroom hrecurs hof hc
    (hlowers.covers.cells_only (hp.indexable.locals _ _ hfound)).1 hlowers.covers.cells_lt ht ?_
  rw [hdefaults]
  exact hdesc.usable_eq hds

namespace Running

variable {p : Program} {predeclared : String → Prop} {R : Running p predeclared} {n : Nat}
  {q q' : Point} {st : List Value} {its : List Iter} {s : Scene}

/-- A function has the very cells that an activation holds for free variables. -/
def HoldsCells (R : Running p predeclared) (locals : Array (Option Value)) (fvs : List Binding)
    (g : FuncObj) : Prop :=
  g.freeVars.size = fvs.length ∧ ∀ (k : Nat) (fv : Binding), fvs[k]? = some fv →
    ∃ c : CellRef, R.cellFor locals fv = some (.cell c) ∧ g.freeVars[k]? = some (.cell c)

theorem holdsCells_of_forall₂ {locals : Array (Option Value)} {fvs : List Binding}
    {cells : List CellRef}
    (h : List.Forall₂ (fun fv c => R.cellFor locals fv = some (.cell c)) fvs cells) {g : FuncObj}
    (hg : g.freeVars = (cells.map Value.cell).toArray) : R.HoldsCells locals fvs g := by
  rw [HoldsCells, hg]
  refine ⟨by simp [h.length_eq], fun k fv hk => ?_⟩
  obtain ⟨hlt, rfl⟩ := List.getElem?_eq_some_iff.1 hk
  have hlt' : k < cells.length := h.length_eq ▸ hlt
  exact ⟨cells[k], h.get hlt hlt', by simp [hlt']⟩

/-- At a time a function has been made and lies on the stack. It has the code of `f`, with the
parameters of a signature, and the cells that the activation holds for the free variables. It stays,
and supplies its parameters with the values that their defaults had when it was made. -/
def HasMade (R : Running p predeclared) (f : Function) (σ : Signature) (n : Nat)
    (ds : List (Option Value)) (q : Point) (st : List Value) (its : List Iter) (s : Scene) : Prop :=
  ∃ (r : FuncRef) (g : FuncObj) (a : Assembled) (s' : Scene),
      R.StandsAt n q (.func r :: st) its s' ∧
    ds.map Option.isSome = σ.ordinary.map (fun x => x.2.isSome) ∧
    p.code? g.code = some (f.compiled a) ∧ σ.Describes (f.compiled a) ∧
    R.HoldsCells s.locals f.freeVars g ∧
    (∀ m, n ≤ m → (Machine.run m R.start).heap.funcs[r.index]? = some g ∧
      (Machine.run m R.start).heap.programOf g = p) ∧
    g.Supplies p (f.compiled a) r ds

/-- Closures carry the right defaults and cells. Take a `def` or a `lambda` whose parameters are in
legal order, in any activation of the program of a resolved file. Its code evaluates the defaults in
order and makes a function, whose free variables are the very cells that the activation holds for
them. Whenever the function is called later with arguments that have places, the parameters that the
call omits hold the values that their own defaults had when the function was made, if all of them
have defaults. Otherwise the call fails and lists exactly those that have none. -/
theorem closure_carries {f : Function} {σ : Signature} (hp : p.Sourced) (hreach : R.start.Reachable)
    (hf : Resolved.function .full R.code.scopes f) (hσ : σ.Declares f) :
    (∀ (b b' : Builder) (c : BlockId), b.Cursor c → Build.function f b = .ok () b' →
      ∃ c', Builder.Stage b c b' (some c') [] fun pool g =>
        f.MadeAt pool g (b.endOf c) (b'.endOf c')) ∧
    ∀ n q q' st its s, f.MadeAt p.pool R.code.graph q q' → R.StandsAt n q st its s →
      R.Tracks its st (fun m ds s => R.HasMade f σ m ds q' st its s)
          (Outline.defaults σ.ordinary s) n := by
  constructor
  · intro b b' c hc hb
    rw [Lowering.function_eq] at hb
    obtain ⟨c', hstage⟩ := Plan.realizes _ hc hb
    exact ⟨c', hstage.mono fun _ _ hat => ⟨_, _, _, hat⟩⟩
  intro n q q' st its s hat hv
  obtain ⟨name, pos, params, body, locals, freeVars, numKwonly, hasVarargs, hasKwargs⟩ := f
  obtain ⟨hparams, hfree, hcounted, -⟩ := hf
  have hcounted := hcounted rfl
  have hpacked : Param.packed params false = σ.packed := by
    rw [← σ.packed_params, ← hσ.params]
    rfl
  obtain ⟨loops, lo, hi, _, _, ⟨_, _, ⟨_, _, ⟨_, _, ⟨rfl, rfl⟩, hatd⟩, hatc⟩, hatt⟩, hatf⟩ := hat
  obtain ⟨htuple, rfl, rfl⟩ := hatt
  obtain ⟨i, a, hindex, -, hmake, rfl, rfl⟩ := hatf
  have hi := hindex.getElem?_eq R.addressable.functions
  -- the code evaluates the packed defaults only, but the required parameters in front have none
  rw [Signature.ordinary, Outline.defaults_append_required, ← hpacked]
  refine (tracks_defaults hparams hatd hv).bind fun m ds s _ hdefaults => ?_
  obtain ⟨hdeclared, hv⟩ := hdefaults
  have hlength : ds.length = (Param.packed params false).length := by
    simpa using congrArg List.length hdeclared
  obtain ⟨cells, hcells⟩ := exists_cells hp hreach hv hfree
  let values := ds.map fun d => d.getD .mandatory
  let g : FuncObj := ⟨R.func.module, .nested i, values.toArray, (cells.map Value.cell).toArray⟩
  have hvalues : Param.defaults params false = values.length := by
    rw [List.length_map, hlength, Param.length_packed]
  rw [hvalues] at htuple
  refine Tracks.after
      (hv.closes hcells hatc htuple hmake hi (by simp [Function.compiled, Assembled.toCode]))
    fun m _ hv => .here ?_
  refine ⟨⟨s.heap.funcs.size⟩, g, a, _, hv, ?_, hi, hσ.describes_compiled hcounted a,
    holdsCells_of_forall₂ hcells rfl, fun k hk => ?_, hp.supplies hσ hcounted rfl hi
        (hpacked ▸ hlength) rfl _⟩
  · rw [List.map_append, hdeclared, Signature.ordinary, hpacked]
    simp [Function.comp_def]
  · -- the function stays where it was made, and so does its program
    obtain ⟨-, -, t, b, hrun, -⟩ := hv
    have hmade := Machine.keepsFuncs_run R.start hk s.heap.funcs.size
    rw [hrun] at hmade
    exact ⟨hmade _ Array.getElem?_push_size, congrArg Tables.program (R.tables_eq k)⟩

end Running

/-! ## A function with defaults and a cell -/

namespace SourceFile

/-- The parameters `a, b = 2, *, c, d = 4`. -/
def keeperSignature : Signature where
  required := [⟨"a", ⟨1, 8⟩, .frame, 0⟩]
  optional := [(⟨"b", ⟨1, 11⟩, .frame, 1⟩, .literal (.int 2) ⟨1, 13⟩)]
  starred := some (none, [(⟨"c", ⟨1, 19⟩, .frame, 2⟩, none),
    (⟨"d", ⟨1, 22⟩, .frame, 3⟩, some (.literal (.int 4) ⟨1, 24⟩))])
  kwargs := none

/-- The function `lambda a, b = 2, *, c, d = 4: x`, where `x` is captured. -/
def keeper : Function :=
  .mk "lambda" ⟨1, 1⟩ keeperSignature.params [.ret (some (.ident ⟨"x", ⟨1, 27⟩, .free, 0⟩))]
    [⟨"a", ⟨1, 8⟩, .frame, 0⟩, ⟨"b", ⟨1, 11⟩, .frame, 1⟩, ⟨"c", ⟨1, 19⟩, .frame, 2⟩,
      ⟨"d", ⟨1, 22⟩, .frame, 3⟩]
    [⟨"x", ⟨1, 27⟩, .cell, 0⟩] 2 false false

/-- A file that returns the function. -/
def keeperFile : SourceFile where
  filename := "keeper.star"
  body := [.ret (some (.lambda keeper))]
  locals := [⟨"x", ⟨1, 30⟩, .cell, 0⟩]
  globals := []
  recursion := false

/-- The file of the example is well resolved. -/
theorem wellResolved_keeperFile : keeperFile.WellResolved fun _ => False := by
  simp [SourceFile.WellResolved, SourceFile.scopes, keeperFile, keeper, keeperSignature,
    Signature.params, Param.ofDefault, Resolved.stmts, Resolved.stmt, Resolved.bound, Resolved.expr,
    Resolved.function, Resolved.params, Scopes.Uses, Scopes.Captures, Scopes.Declares,
    Function.Counted, Param.slots, Param.kwonly, Param.isVarargs, Param.isKwargs]
  decide

theorem declares_keeper : keeperSignature.Declares keeper where
  params := rfl
  locals := rfl
  names := by decide

/-- The toplevel begins with the code that makes the function. -/
theorem closure_carries_keeper : ∃ (p : Program) (R : Running p fun _ => False) (q' : Point)
    (s : Scene),
    keeperFile.compile = .ok p ∧ p.Sourced ∧ R.start.Reachable ∧ keeperSignature.Declares keeper ∧
      keeper.MadeAt p.pool R.code.graph ⟨0, 0⟩ q' ∧ R.StandsAt 1 ⟨0, 0⟩ [] [] s ∧
      R.Tracks [] [] (fun m ds s => R.HasMade keeper keeperSignature m ds q' [] [] s)
        (Outline.defaults keeperSignature.ordinary s) 1 := by
  have hcheck : keeperFile.compile.toOption.any (fun p => decide (p.names.size ≤ 2 ^ 32 ∧
      p.constants.size ≤ 2 ^ 32 ∧ p.functions.size ≤ 2 ^ 32 ∧ p.toplevel.locals.size ≤ 2 ^ 32 ∧
      ∀ code ∈ p.functions, code.locals.size ≤ 2 ^ 32)) = true := by
    decide +kernel
  obtain ⟨p, hp, hq⟩ := exists_ok_of_any hcheck
  have hindexable := Program.indexable_of_sizes (of_decide_eq_true hq)
  have hsourced : p.Sourced := ⟨keeperFile, _, wellResolved_keeperFile, hp, hindexable⟩
  obtain ⟨R, hscopes, hstands, hreach, hbegins⟩ := exists_beginning wellResolved_keeperFile hp
    hindexable.toAddressable rfl (.new "main" none 9 true) rfl rfl (by decide)
  have hresolved : Resolved.function .full R.code.scopes keeper := by
    rw [hscopes]
    exact wellResolved_keeperFile.1
  -- the function expression is the first thing in the file's code
  obtain ⟨e, ⟨m, lo, ⟨q', lo', hvalue, -⟩, -⟩, -⟩ := hstands
  have hmade : keeper.MadeAt p.pool R.code.graph ⟨0, 0⟩ q' :=
    Function.valueAt_lambda_iff.1 ⟨_, _, _, hvalue⟩
  exact ⟨p, R, q', _, hp, hsourced, hreach, declares_keeper, hmade, hbegins,
    (Running.closure_carries hsourced hreach hresolved declares_keeper).2 1 _ _ [] [] _
        hmade hbegins⟩

end SourceFile

end Starlark
