import Starlark.Proofs.Direct.Containment
import Starlark.Proofs.Direct.Preservation

/-!
# Outlines

What the code of an expression does can be said without saying what its parts come to: it evaluates
one part after the other, and which part comes next depends on the values that the former ones had.
An `Outline` is such a computation. It awaits the value of an expression, together with the scene
that the evaluation of the expression leaves, and goes on from there.

A run tracks an outline (`Running.Tracks`) if it comes to the code of each expression that the
outline awaits, in the scene in which the outline awaits it, and then to what the outline ends with.
Nothing is asked of the expressions themselves: they may call functions, fail, or not come to an
end. Neither is the thread asked to go on for ever. If it is cancelled, the run is cut there.
-/

set_option autoImplicit false

namespace Starlark

/-! ## Outlines -/

/-- How far a computation has come. -/
inductive Progress (α : Type) where
  | done (a : α) (s : Scene)
  | failed (e : Stop) (s : Scene)
  /-- The value of an expression is awaited, and the scene that its evaluation leaves. -/
  | awaiting (x : Expr) (s : Scene) (k : Value → Scene → Progress α)

namespace Progress

variable {α β γ : Type}

/-- Go on when a computation is done. -/
def bind : Progress α → (α → Scene → Progress β) → Progress β
  | done a s, f => f a s
  | failed e s, _ => failed e s
  | awaiting x s k, f => awaiting x s fun v s => (k v s).bind f

theorem bind_done (r : Progress α) : r.bind done = r := by
  induction r with
  | done a s => rfl
  | failed e s => rfl
  | awaiting x s k ih => simp only [bind, ih]

/-- Computations in sequence may be grouped either way. -/
theorem bind_bind (r : Progress α) (f : α → Scene → Progress β) (g : β → Scene → Progress γ) :
    (r.bind f).bind g = r.bind fun a s => (f a s).bind g := by
  induction r with
  | done a s => rfl
  | failed e s => rfl
  | awaiting x s k ih => simp only [bind, ih]

end Progress

/-- An expression was evaluated in a scene. It had a value and left a scene. -/
structure Evaluation where
  expr : Expr
  before : Scene
  value : Value
  after : Scene

/-- After some evaluations a computation has come so far. -/
inductive Progress.Reaches {α : Type} : Progress α → List Evaluation → Progress α → Prop where
  | here (r : Progress α) : Reaches r [] r
  | next {x : Expr} {s s' : Scene} {v : Value} {k : Value → Scene → Progress α}
      {trace : List Evaluation} {r : Progress α} (h : Reaches (k v s') trace r) :
      Reaches (.awaiting x s k) (⟨x, s, v, s'⟩ :: trace) r

namespace Progress

variable {α : Type} {trace : List Evaluation} {s : Scene}

/-- Without any evaluation a computation has reached itself. -/
theorem reaches_nil {r r' : Progress α} : r.Reaches [] r' ↔ r = r' :=
  ⟨by rintro ⟨⟩; rfl, by rintro rfl; exact .here r⟩

/-- A computation that is done reaches nothing more. -/
theorem reaches_done {a : α} {r : Progress α} : (done a s).Reaches trace r ↔ trace = [] ∧
    done a s = r :=
  ⟨by rintro ⟨⟩; exact ⟨rfl, rfl⟩, by rintro ⟨rfl, rfl⟩; exact .here _⟩

/-- A computation that has failed reaches nothing more. -/
theorem reaches_failed {e : Stop} {r : Progress α} :
    (failed e s).Reaches trace r ↔ trace = [] ∧ failed e s = r :=
  ⟨by rintro ⟨⟩; exact ⟨rfl, rfl⟩, by rintro ⟨rfl, rfl⟩; exact .here _⟩

/-- The next evaluation must be the one that is awaited, in its scene. -/
theorem reaches_awaiting {x : Expr} {k : Value → Scene → Progress α} {r : Progress α}
    {e : Evaluation} :
    (awaiting x s k).Reaches (e :: trace) r ↔
      e.expr = x ∧ e.before = s ∧ (k e.value e.after).Reaches trace r :=
  ⟨by rintro ⟨⟩; exact ⟨rfl, rfl, by assumption⟩, by
    obtain ⟨_, _, v, s'⟩ := e
    rintro ⟨rfl, rfl, h⟩
    exact .next h⟩

end Progress

/-- A computation that leaves the evaluation of expressions open. -/
def Outline (α : Type) := Scene → Progress α

namespace Outline

instance : Monad Outline where
  pure a := fun s => .done a s
  bind o f := fun s => (o s).bind f

variable {α β : Type}

theorem bind_apply (o : Outline α) (f : α → Outline β) (s : Scene) :
    (o >>= f) s = (o s).bind f := rfl

theorem pure_apply (a : α) (s : Scene) : (pure a : Outline α) s = .done a s := rfl

instance : LawfulMonad Outline :=
  LawfulMonad.mk' Outline (fun o => funext fun s => (o s).bind_done) (fun _ _ => rfl)
    fun o f g => funext fun s => (o s).bind_bind f g

/-- Evaluate an expression. -/
def ask (x : Expr) : Outline Value := fun s => .awaiting x s .done

/-- An operation on the heap. -/
def op (m : Op α) : Outline α := fun s =>
  match m s.heap with
  | .ok a h => .done a { s with heap := h }
  | .error e h => .failed e { s with heap := h }

/-- Whether a value counts as true. -/
def truth (v : Value) : Outline Bool := fun s => .done (s.heap.truth v) s

/-- Evaluate expressions from the left. -/
def all : List Expr → Outline (List Value)
  | [] => return []
  | x :: rest => do
    let v ← ask x
    let vs ← all rest
    return v :: vs

theorem truth_bool (b : Bool) : truth (.bool b) = pure b := rfl

end Outline

/-! ## Tracking -/

namespace Running

variable {p : Program} {predeclared : String → Prop} (R : Running p predeclared)

/-- From a time on, a run does what is left of a computation, above an operand stack and iterators
that it leaves as they are. Each expression that is awaited is evaluated by its own code; whenever
that has left a value on the stack, the run goes on with it. -/
def Tracks {α : Type} (its : List Iter) (st : List Value) (Q : Nat → α → Scene → Prop) :
    Progress α → Nat → Prop
  | .done a s, n => R.Comes n st its fun m => Q m a s
  | .failed e s, n => R.Comes n st its fun m => R.FailsAt m e st its s
  | .awaiting x s k, n => R.Comes n st its fun m => ∃ q q' st', R.Holds x q q' ∧ st <:+ st' ∧
      R.StandsAt m q st' its s ∧
      (R.Keeps m st' its fun m' => ∃ v s', R.StandsAt m' q' (v :: st') its s') ∧
      ∀ m' v s', m ≤ m' → R.StandsAt m' q' (v :: st') its s' → Tracks its st Q (k v s') m'

variable {R} {α β : Type} {n : Nat} {q : Point} {st : List Value} {its : List Iter} {s : Scene}

namespace Tracks

variable {Q : Nat → α → Scene → Prop} {P : Nat → β → Scene → Prop}

/-- A run that comes to where it does something does it. -/
theorem after {P : Nat → Prop} {r : Progress α} (h : R.Comes n st its P)
    (hP : ∀ m, n ≤ m → P m → R.Tracks its st Q r m) : R.Tracks its st Q r n := by
  cases r with
  | done a s => exact h.bind hP
  | failed e s => exact h.bind hP
  | awaiting x s k => exact h.bind hP

/-- A run that has done one computation goes on with another. -/
theorem bind {r : Progress α} {f : α → Scene → Progress β} (h : R.Tracks its st Q r n)
    (hf : ∀ m a s, n ≤ m → Q m a s → R.Tracks its st P (f a s) m) :
    R.Tracks its st P (r.bind f) n := by
  induction r generalizing n with
  | done a s => exact after h fun m hm hq => hf m a s hm hq
  | failed e s => exact h
  | awaiting x s k ih =>
    refine Comes.mono h fun m hm hawaits => ?_
    obtain ⟨q, q', st', hx, hst, hstands, hkeeps, hgo⟩ := hawaits
    refine ⟨q, q', st', hx, hst, hstands, hkeeps, fun m' v s' hm' hv => ?_⟩
    exact ih v s' (hgo m' v s' hm' hv) fun m'' a s'' hm'' =>
      hf m'' a s'' ((hm.trans hm').trans hm'')

/-- A weaker claim is tracked as well. -/
theorem mono {Q' : Nat → α → Scene → Prop} {r : Progress α} (h : R.Tracks its st Q r n)
    (hQ : ∀ m a s, n ≤ m → Q m a s → Q' m a s) : R.Tracks its st Q' r n := by
  have hbind := h.bind (f := .done) fun m a s hm hq =>
    show R.Tracks its st Q' (.done a s) m from Comes.here (hQ m a s hm hq)
  rwa [Progress.bind_done] at hbind

/-- What leaves a stack as it is leaves the stack below it as it is. -/
theorem below {st' : List Value} {r : Progress α} (h : R.Tracks its st' Q r n) (hst : st <:+ st') :
    R.Tracks its st Q r n := by
  induction r generalizing n with
  | done a s => exact Comes.below h hst (List.suffix_refl its)
  | failed e s =>
    exact (Comes.below h hst (List.suffix_refl its)).mono fun m _ hfails => hfails.below hst
  | awaiting x s k ih =>
    refine (Comes.below h hst (List.suffix_refl its)).mono fun m _ hawaits => ?_
    obtain ⟨q, q', st'', hx, hst'', hstands, hkeeps, hgo⟩ := hawaits
    exact ⟨q, q', st'', hx, hst.trans hst'', hstands, hkeeps, fun m' v s' hm' hv =>
      ih v s' (hgo m' v s' hm' hv)⟩

/-- The code of an expression evaluates it. -/
theorem ask {x : Expr} {q' : Point} (hx : Resolved.expr .full R.code.scopes x) (hq : R.Holds x q q')
    (hv : R.StandsAt n q st its s) :
    R.Tracks its st (fun m v s => R.StandsAt m q' (v :: st) its s) (Outline.ask x s) n :=
  Comes.here ⟨q, q', st, hq, List.suffix_refl st, hv, keeps_expr hx hq hv,
    fun _ _ _ _ hv => Comes.here hv⟩

end Tracks

/-! ## Instructions -/

/-- An instruction does an operation with values of the stack, above what is below them. -/
theorem StandsAt.act {α : Type} {op : Opcode} {x : Op α} {f : α → List Value}
    (h : R.StandsAt n q st its s) (hi : R.code.graph.InsnAt q op 0) (hop : op.Acts st x f)
    {low : List Value} (hlow : low <:+ st) :
    R.Tracks its low (fun m r s => R.StandsAt m q.next (f r) its s) (Outline.op x s) n := by
  refine Tracks.below (Tracks.after (h.execute hi hop.isCondJump fun _ => rfl) fun m _ hm => ?_)
      hlow
  obtain ⟨a, ha, hl, rfl, rfl, -, hyields⟩ := hm
  rw [hop.execute_eq R.tables rfl, Starlark.bind_apply] at hyields
  unfold Outline.op
  cases hr : x s.heap with
  | ok r heap =>
    rw [hr] at hyields
    have hnext := hyields rfl rfl
    rw [hl] at hnext
    exact .here hnext
  | error e heap =>
    rw [hr] at hyields
    exact .here hyields

/-- An instruction moves values. -/
theorem StandsAt.shift {op : Opcode} {f : Unit → List Value} (h : R.StandsAt n q st its s)
    (hi : R.code.graph.InsnAt q op 0) (hop : op.Acts st (pure ()) f) :
    R.Comes n st its fun m => R.StandsAt m q.next (f ()) its s :=
  h.act hi hop (List.suffix_refl st)

end Running

/-! ## Where a toplevel begins -/

namespace SourceFile

/-- A toplevel whose captured locals are boxed stands before the first point of its body, on any
thread that goes with the heap. -/
theorem exists_loading_beginning {f : SourceFile} {predeclared : String → Prop} {p : Program}
    (hf : f.WellResolved predeclared) (hp : f.compile = .ok p) (haddr : p.Addressable)
    {locals : Array (Option Value)} {heap : Heap}
    (hbox : (toplevelHeap p).boxCells (Array.replicate f.locals.length none)
        (Binding.cells f.locals) =
      .ok (locals, heap)) {thread : Thread} (hsuits : thread.Suits (toplevelHeap p))
    (hroom : thread.maxDepth ≠ 0) :
    ∃ R : Running p predeclared, R.code.scopes = f.scopes predeclared ∧
      (Lowering.stmts f.body).StandsIn p.pool R.code.graph ∧ R.start.Reachable ∧
      R.StandsAt 1 ⟨0, 0⟩ [] [] ⟨heap, thread, locals⟩ := by
  have hmodule : (ModuleRef.mk 0).index < (moduleHeap p).modules.size := Nat.zero_lt_one
  obtain ⟨R, hfunc, hnone, hbody, hstart, hscopes, hstands⟩ :=
    exists_running hf hp haddr (reachable_moduleHeap p) (hsuits.extended (Nat.le_refl _))
        hmodule rfl
  obtain ⟨hparams, -, hlocals, hcells⟩ := toplevel_of_compile hp
  have hcode : (toplevelHeap p).codeOf R.func = p.toplevel := by
    have htables := R.tables_eq 0
    rw [hstart, hbody] at htables
    exact congrArg Tables.code htables
  have hfound : (toplevelHeap p).funcs[(FuncRef.mk 0).index]? = some R.func := by
    rw [hfunc]
    rfl
  -- the first step binds no argument, so it only makes the cells of the locals
  have hfirst := Machine.run_one_toplevel hfound (hcode ▸ hparams) hroom
  rw [hcode, hlocals, hcells, hbox] at hfirst
  have hreachable : R.start.Reachable := ⟨[], hstart ▸ reachable_toplevel p hsuits⟩
  refine ⟨R, hscopes, hstands, hreachable, 0, R.code.lowers.assembles.enters_start, thread,
    { func := R.func, locals }, ?_, .refl _, rfl, rfl, rfl, rfl,
    rfl⟩
  rw [hstart, hnone]
  exact hfirst

/-- A toplevel whose captured locals are boxed stands before the first point of its body. -/
theorem exists_beginning {f : SourceFile} {predeclared : String → Prop} {p : Program}
    (hf : f.WellResolved predeclared) (hp : f.compile = .ok p) (haddr : p.Addressable)
    {locals : Array (Option Value)} {heap : Heap}
    (hbox : (toplevelHeap p).boxCells (Array.replicate f.locals.length none)
        (Binding.cells f.locals) =
      .ok (locals, heap)) (thread : Thread) (hloader : thread.loader = none)
    (hhost : thread.host = HostCode.ofLibrary) (hroom : thread.maxDepth ≠ 0) :
    ∃ R : Running p predeclared, R.code.scopes = f.scopes predeclared ∧
      (Lowering.stmts f.body).StandsIn p.pool R.code.graph ∧ R.start.Reachable ∧
      R.StandsAt 1 ⟨0, 0⟩ [] [] ⟨heap, thread, locals⟩ := by
  exact exists_loading_beginning hf hp haddr hbox (.of_library hloader hhost _) hroom

end SourceFile

end Starlark
