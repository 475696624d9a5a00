import Starlark.Machine.Session
import Starlark.Proofs.Direct.Trees
import Starlark.Proofs.Machine.Recursion
import Starlark.Proofs.Machine.Soundness

/-!
# Compiled files do what they say

Evaluating the body of a file and running the program that it is compiled to have the same outcome
(`SourceFile.compile_preserves`).
-/

set_option autoImplicit false

namespace Starlark

open Relation (ReflTransGen)

/-! ## Machines -/

namespace Machine

/-- The outcome of a run that has ended. -/
def outcome? (m : Machine) : Option Outcome :=
  match m.control with
  | .finished r => some ⟨m.heap, m.thread.lines, r.mapError Error.root⟩
  | _ => none

/-- A run keeps the code that there is. -/
theorem Guarded.run {m : Machine} (hg : m.Guarded) (n : Nat) :
    (run n m).Guarded ∧ m.heap.KeepsCode (run n m).heap := by
  induction n with
  | zero => exact ⟨hg, .refl _⟩
  | succ n ih =>
    rw [Machine.run_succ_eq_step]
    exact ⟨ih.1.next (next_step _), ih.2.trans ih.1.keepsCode_step⟩

/-- A toplevel has no parameters and is entered with its captured locals boxed. -/
theorem enter_toplevel {heap : Heap} {f : FuncObj} (thread : Thread)
    (hparams : (heap.codeOf f).numParams = 0) :
    enter heap thread [] f [] [] =
      match heap.boxCells (Array.replicate (heap.codeOf f).locals.size none)
          (heap.codeOf f).cells with
      | .error a => ⟨heap, thread, [.func { func := f, locals := #[] } .call], .aborted a⟩
      | .ok (locals, heap) => ⟨heap, thread, [.func { func := f, locals } .call], .exec⟩ := by
  have hbind : bindArguments (heap.codeOf f) f.defaults [] []
      (Bound.empty (heap.codeOf f).locals.size) =
        .ok () (Bound.empty (heap.codeOf f).locals.size) := by
    unfold bindArguments
    rw [if_pos hparams]
    rfl
  have hidle : heap.isActive f [] = false := rfl
  unfold enter
  simp only [hidle, Bool.and_false, Bool.false_eq_true, if_false, hbind]
  rfl

/-- The first step of a call of a toplevel. -/
theorem run_one_toplevel {heap : Heap} {thread : Thread} {r : FuncRef} {f : FuncObj}
    (hf : heap.funcs[r.index]? = some f) (hparams : (heap.codeOf f).numParams = 0)
    (hroom : thread.maxDepth ≠ 0) :
    run 1 (start heap thread (.func r) [] []) =
      match heap.boxCells (Array.replicate (heap.codeOf f).locals.size none)
          (heap.codeOf f).cells with
      | .error a => ⟨heap, thread, [.func { func := f, locals := #[] } .call], .aborted a⟩
      | .ok (locals, heap) => ⟨heap, thread, [.func { func := f, locals } .call], .exec⟩ := by
  rw [← enter_toplevel thread hparams]
  have hstep : (start heap thread (.func r) [] []).step =
      invoke heap thread [] (.func r) [] [] := rfl
  rw [run_succ, hstep, invoke, if_neg (by simpa using hroom), hf]
  rfl

/-- A toplevel that is called on a cancelled thread fails. -/
theorem run_cancelled {m : Machine} {n : Nat} {heap : Heap} {thread : Thread} {a : Activation}
    {reason : String} (hrun : run n m = ⟨heap, thread, [.func a .call], .exec⟩) (ha : a.iters = [])
    (hlimit : thread.limit = none) (hcancelled : thread.cancelled = some reason) :
    (run (n + 2) m).outcome? = some ⟨heap, thread.lines, .error (.cancelled reason)⟩ := by
  have hlines : thread.tick.lines = thread.lines := by
    simp [Thread.tick, Thread.limitReached, hlimit]
  have hfail : run (n + 1) m =
      fail heap thread.tick [.func a .call] (.cancelled reason) := by
    rw [Machine.run_succ_eq_step, hrun]
    simp only [step, exec, Thread.cancelled_tick hcancelled]
  rw [Machine.run_succ_eq_step, hfail]
  simp only [fail, Heap.closeFrame, ha, List.foldl_nil, step, deliver, outcome?, hlines,
    Except.mapError, Error.root_wrap]
  rfl

end Machine

/-- From any state that a typed program can be in, a function of it runs. -/
def Machine.Safe.running {p : Program} {predeclared : String → Prop}
    {T : TypedProgram p predeclared}
    {m : Machine} (hsafe : m.Safe T False) (hguarded : m.Guarded) {f : FuncObj}
    (hmodule : f.module.index < m.heap.modules.size) (hprogram : m.heap.programOf f = p)
    {body : Code}
    (hbody : p.code? f.code = some body) (code : TypedCode p predeclared body)
    (callers : List Frame) :
    Running p predeclared :=
  have hown : ∀ n, (run n m).heap.programOf f = p := fun n =>
    ((hguarded.run n).2.programOf_eq hmodule (hsafe.heap.program_lt f.module hmodule)).trans
        hprogram
  { body, code, func := f, callers, start := m
    addressable := T.addressable
    tables_eq := fun n => by
      simp only [Heap.tables, Heap.codeOf, hown n, hbody]
      rfl
    stack_lt := fun n h t a hrun ha => by
      have hready : T.Ready (run n m).heap a :=
        (safe_run hsafe n).ready (show (run n m).innermost? = some a by rw [hrun]; rfl)
      subst ha
      obtain ⟨-, d, ⟨b, done, i, rest, -, hstand⟩, hd⟩ := hready.2 (hown n) body hbody
      rw [hd.length_eq]
      exact hstand.depth_eq.2.1 }

namespace SourceFile

variable {f : SourceFile} {predeclared : String → Prop} {p : Program} {heap : Heap}
  {thread : Thread} {module : ModuleRef}

/-- The toplevel of a program that is run for a module. -/
theorem exists_running (hf : f.WellResolved predeclared) (hp : f.compile = .ok p)
    (haddr : p.Addressable) (hreach : heap.Reachable) (hsuits : thread.Suits heap)
    (hmodule : module.index < heap.modules.size)
    (hprogram : heap.program (heap.module module).program = p) :
    ∃ R : Running p predeclared, R.func = ⟨module, .toplevel, #[], #[]⟩ ∧ R.callers = [] ∧
      R.body = p.toplevel ∧ R.start = .start (heap.newFunc ⟨module, .toplevel, #[], #[]⟩).2 thread
        (.func ⟨heap.funcs.size⟩) [] [] ∧
      R.code.scopes = f.scopes predeclared ∧
      (Lowering.stmts f.body).StandsIn p.pool R.code.graph := by
  obtain ⟨g, l, hlowers, hstands⟩ := lowers_toplevel hf hp
  obtain ⟨δ, hδ⟩ := hlowers.typed
  obtain ⟨T⟩ := typedProgram_of_compile hf hp haddr
  have hsound := ((hreach.sound T).newToplevel T.toplevel_free hmodule).1
  have hsafe : (Machine.start (heap.newFunc ⟨module, .toplevel, #[], #[]⟩).2 thread
      (.func ⟨heap.funcs.size⟩) [] []).Safe T False :=
    Machine.safe_start hsound (hsuits.extended (Nat.le_refl _)) _ _ _
  have hguarded : (Machine.start (heap.newFunc ⟨module, .toplevel, #[], #[]⟩).2 thread
      (.func ⟨heap.funcs.size⟩) [] []).Guarded :=
    ⟨hsound.module_lt, fun _ hmem => absurd hmem List.not_mem_nil, List.nodup_nil⟩
  -- the machine about to call the file's function has no frames, so its run is the file's alone
  exact ⟨hsafe.running hguarded (f := ⟨module, .toplevel, #[], #[]⟩) hmodule hprogram rfl
    ⟨f.scopes predeclared, g, l, δ, hlowers, hδ⟩ [], rfl, rfl, rfl, rfl, rfl, hstands⟩

/-- The surroundings of a file are those of its toplevel. -/
theorem around_surroundings {R : Running p predeclared} (hp : f.compile = .ok p)
    (hfunc : R.func = ⟨module, .toplevel, #[], #[]⟩) (hnone : R.callers = [])
    (hbody : R.body = p.toplevel) (hscopes : R.code.scopes = f.scopes predeclared) (rounds : Nat) :
    (f.surroundings module rounds).Around R := by
  obtain ⟨a, -, htop, hglobals, -⟩ := assembled_of_compile hp
  refine ⟨?_, ?_, hglobals.symm, ?_, hnone⟩
  · rw [hfunc]
    rfl
  · rw [hbody, htop]
    rfl
  · rw [hscopes]
    rfl

/-! ## Outcomes -/

section

variable {R : Running p predeclared} {s : Scene} {r : Except Error Value}

/-- A toplevel that is left ends the run. -/
theorem outcome_of_ends (hcallers : R.callers = []) (h : R.Ends r [] s) :
    ∃ n, (Machine.run n R.start).outcome? = some (s.outcome r) := by
  obtain ⟨n, steps, r', hrun, hr⟩ := h
  refine ⟨n + 1, ?_⟩
  rw [Machine.run_succ_eq_step, hrun, hcallers]
  exact congrArg (fun r => some (Outcome.mk s.heap s.thread.lines r)) hr

/-- A body that is begun ends as its evaluation does. -/
theorem shows_body (hf : f.WellResolved predeclared) (hd : f.Direct)
    (hscopes : R.code.scopes = f.scopes predeclared)
    (hstands : (Lowering.stmts f.body).StandsIn p.pool R.code.graph) {c : Surroundings}
    (hc : c.Around R) (hv : R.Visits ⟨0, 0⟩ [] [] s) :
    R.Shows [] (some []) [] (fun _ s => R.Ends (.ok .null) [] s) (Eval.stmts c f.body s) := by
  obtain ⟨e, hat, hnone, hret⟩ := hstands
  have hresolved : Resolved.stmts .full R.code.scopes false f.body := by
    rw [hscopes]
    exact hf
  have hbody := Lowering.stmts_performs hc f.body hresolved hd [] hat hv
  exact hbody.mono fun _ s hv => (hv.shift hnone (.pushNone [])).ret hret

end

/-- What a run comes to, if evaluation says so. -/
def Agrees (start : Machine) : Except Loss Outcome → Prop
  | .ok o => ∃ n, (Machine.run n start).outcome? = some o
  | .error (.abort a) => ∃ n, (Machine.run n start).control = .aborted a
  | .error .tree => False
  | .error _ => True

/-- The run of a compiled toplevel agrees with its evaluation, whatever the latter comes to. -/
theorem agrees_evaluate (hf : f.WellResolved predeclared) (hd : f.Direct) (hp : f.compile = .ok p)
    (haddr : p.Addressable) (hreach : heap.Reachable)
    (hmodule : module.index < heap.modules.size)
    (hprogram : heap.program (heap.module module).program = p) (hsuits : thread.Suits heap)
    (hlimit : thread.limit = none) (rounds : Nat) :
    Agrees (.start (heap.newFunc ⟨module, .toplevel, #[], #[]⟩).2 thread
      (.func ⟨heap.funcs.size⟩) [] [])
      (f.evaluate rounds (heap.newFunc ⟨module, .toplevel, #[], #[]⟩).2 thread module) := by
  obtain ⟨R, hfunc, hnone, hbody, hstart, hscopes, hstands⟩ :=
    exists_running hf hp haddr hreach hsuits hmodule hprogram
  obtain ⟨hparams, -, hlocals, hcells⟩ := toplevel_of_compile hp
  have hc := around_surroundings hp hfunc hnone hbody hscopes rounds
  rw [← hstart]
  unfold evaluate
  split
  · rename_i hroom
    -- no room: the call is refused and the refusal handed out
    refine ⟨2, ?_⟩
    rw [hstart]
    simp [Machine.run, Machine.start, Machine.isDone, Machine.step, Machine.invoke, hroom,
      Machine.deliver, Machine.outcome?, Except.mapError, Error.root]
  · rename_i hroom
    have hcode : (heap.newFunc ⟨module, .toplevel, #[], #[]⟩).2.codeOf R.func = p.toplevel := by
      have htables := R.tables_eq 0
      rw [hstart, hbody] at htables
      exact congrArg Tables.code htables
    have hlast : (heap.newFunc ⟨module, .toplevel, #[], #[]⟩).2.funcs[heap.funcs.size]? =
        some R.func := by
      rw [hfunc]
      exact Array.getElem?_push_size
    have hfirst := Machine.run_one_toplevel (r := ⟨heap.funcs.size⟩) hlast (hcode ▸ hparams) hroom
    rw [← hstart, hcode, hlocals, hcells] at hfirst
    split
    · rename_i x hbox
      rw [hbox] at hfirst
      exact ⟨1, by rw [hfirst]⟩
    · rename_i locals boxed hbox
      rw [hbox] at hfirst
      split
      · rename_i reason hcancelled
        exact ⟨3, Machine.run_cancelled hfirst rfl hlimit hcancelled⟩
      · rename_i hcancelled
        -- the body starts at the entry of its graph, with nothing on the stack
        have hv : R.Visits ⟨0, 0⟩ [] [] ⟨boxed, thread, locals⟩ :=
          ⟨⟨hlimit, hcancelled⟩, 1, thread.steps, 0, R.code.lowers.assembles.enters_start, thread,
            _, hnone ▸ hfirst, .refl thread, rfl, rfl, rfl, rfl, rfl⟩
        have hshows := shows_body hf hd hscopes hstands hc hv
        generalize Eval.stmts (f.surroundings module rounds) f.body ⟨boxed, thread, locals⟩ = r
          at hshows
        cases r with
        | ok _ s => exact outcome_of_ends hnone hshows
        | error exit s =>
          cases exit with
          | ret v => exact outcome_of_ends hnone hshows
          | error e => exact outcome_of_ends hnone hshows
          | leave isBreak =>
            obtain ⟨_, _, _, hnil, _⟩ := hshows
            cases hnil
          | lost why => cases why <;> exact hshows

/-- Preservation of semantics. Take a resolved file that makes no function, loads nothing, and in
whose sums no two displays of one kind stand next to each other. If the evaluation of its body on
behalf of a module has an outcome, the run of its program for the module, on a thread without a step
limit, ends with that outcome. Evaluation has none only where a loop takes more rounds than are
allowed, where a function or a builtin of the host is called, and where an operation gives up; then
the run gives up as well. -/
theorem compile_preserves (hf : f.WellResolved predeclared) (hd : f.Direct) (hp : f.compile = .ok p)
    (haddr : p.Addressable) (hreach : heap.Reachable)
    (hmodule : module.index < heap.modules.size)
    (hprogram : heap.program (heap.module module).program = p) (hsuits : thread.Suits heap)
    (hlimit : thread.limit = none) (rounds : Nat) :
    let evaluated := f.evaluate rounds (heap.newFunc ⟨module, .toplevel, #[], #[]⟩).2 thread module
    (∀ o, evaluated = .ok o → ∃ fuel, (Machine.initModule fuel heap thread module).outcome? =
        some o) ∧
    (∀ a, evaluated = .error (.abort a) →
      ∃ fuel, (Machine.initModule fuel heap thread module).control = .aborted a) ∧
    evaluated ≠ .error .tree := by
  intro evaluated
  have hagrees := agrees_evaluate hf hd hp haddr hreach hmodule hprogram hsuits hlimit rounds
  refine ⟨fun o ho => ?_, fun a ha => ?_, fun htree => ?_⟩
  · rw [show f.evaluate rounds _ thread module = .ok o from ho] at hagrees
    exact hagrees
  · rw [show f.evaluate rounds _ thread module = .error (.abort a) from ha] at hagrees
    exact hagrees
  · rw [show f.evaluate rounds _ thread module = .error .tree from htree] at hagrees
    exact hagrees

/-- A loop over pairs that skips one, adds up the others and prints their names, and a comprehension
with a guard. -/
def tallyFile : SourceFile :=
  let total (line col : UInt32) : Expr := .ident ⟨"total", ⟨line, col⟩, .global, 0⟩
  let name (line col : UInt32) : Expr := .ident ⟨"name", ⟨line, col⟩, .global, 1⟩
  let n (line col : UInt32) : Expr := .ident ⟨"n", ⟨line, col⟩, .global, 2⟩
  let k (line col : UInt32) : Expr := .ident ⟨"k", ⟨line, col⟩, .frame, 0⟩
  let pair (text : String) (value : Int64) (col : UInt32) : Expr :=
    .tuple [.literal (.str text) ⟨2, col + 1⟩, .literal (.int value) ⟨2, col + 6⟩]
  { filename := "tally.star"
    body :=
      [ .assign (total 1 1) (.literal (.int 0) ⟨1, 9⟩) ⟨1, 7⟩,
        .forLoop (.tuple [name 2 5, n 2 11]) (.list [pair "a" 1 17, pair "b" 2 27, pair "c" 3 37])
          [ .ifElse (.binary .eq (n 3 6) (.literal (.int 2) ⟨3, 11⟩) ⟨3, 8⟩) [.continueLoop] [],
            .augAssign .plus (total 4 3) (n 4 12) ⟨4, 9⟩,
            .expr (.call (.ident ⟨"print", ⟨5, 3⟩, .universal, 0⟩)
              [.positional (.binary .plus (.binary .plus (name 5 9) (.literal (.str "-") ⟨5, 16⟩)
                ⟨5, 14⟩) (.literal (.str ">") ⟨5, 22⟩) ⟨5, 20⟩)] ⟨5, 8⟩) ] ⟨2, 1⟩,
        .ret (some (.comprehension
          (.elem (.binary .star (k 6 9) (.literal (.int 2) ⟨6, 13⟩) ⟨6, 11⟩))
          [.loop (k 6 19) (.list [total 6 25]) ⟨6, 15⟩, .guard (.unary .not (k 6 38) ⟨6, 34⟩)])) ]
    locals := [⟨"k", ⟨6, 19⟩, .frame, 0⟩]
    globals :=
      [⟨"total", ⟨1, 1⟩, .global, 0⟩, ⟨"name", ⟨2, 5⟩, .global, 1⟩, ⟨"n", ⟨2, 11⟩, .global, 2⟩]
    recursion := false }

/-- The file of the example is well resolved. -/
theorem wellResolved_tallyFile (predeclared : String → Prop) :
    tallyFile.WellResolved predeclared := by
  simp [SourceFile.WellResolved, SourceFile.scopes, tallyFile, Resolved.stmts, Resolved.stmt,
    Resolved.expr, Resolved.target, Resolved.targets, Resolved.place, Resolved.args, Resolved.body,
    Resolved.clauses, Resolved.exprs, Resolved.bound, Scopes.Assigns, Scopes.Uses, Scopes.Declares,
    Arg.counts, Arg.Ordered]
  decide

theorem direct_tallyFile : tallyFile.Direct := by
  simp [SourceFile.Direct, tallyFile, Direct.stmts, Direct.stmt, Direct.expr, Direct.exprs,
    Direct.bound, Direct.args, Direct.body, Direct.clauses, Display.Apart, Expr.display?,
    Expr.lastDisplay?]

/-- The file prints two lines and returns a list, whether it is evaluated or run. -/
theorem compile_preserves_tally : ∃ p o, tallyFile.compile = .ok p ∧
    let heap := ((Heap.initial.newProgram p).2.newModule ⟨0⟩ []).2
    let thread := Thread.new "main" none 9 true
    tallyFile.evaluate 4 (heap.newFunc ⟨⟨0⟩, .toplevel, #[], #[]⟩).2 thread ⟨0⟩ = .ok o ∧
      o.lines = #["main: a->", "main: c->"] ∧ o.result.isOk = true ∧
      ∃ fuel, (Machine.initModule fuel heap thread ⟨0⟩).outcome? = some o := by
  have hcheck : tallyFile.compile.toOption.any (fun p => decide
      (p.names.size ≤ 9 ∧ p.constants.size ≤ 9 ∧ p.functions.size ≤ 9) &&
      (tallyFile.evaluate 4 (toplevelHeap p) (.new "main" none 9 true) ⟨0⟩).toOption.any fun o =>
        decide (o.lines = #["main: a->", "main: c->"] ∧ o.result.isOk = true)) = true := by
    decide +kernel
  obtain ⟨p, hp, hq⟩ := exists_ok_of_any hcheck
  obtain ⟨hsizes, ho⟩ := Bool.and_eq_true_iff.1 hq
  obtain ⟨hnames, hconstants, hfunctions⟩ := of_decide_eq_true hsizes
  obtain ⟨o, ho, hfacts⟩ := exists_ok_of_any ho
  obtain ⟨hlines, hresult⟩ := of_decide_eq_true hfacts
  have hsuits : (Thread.new "main" none 9 true).Suits (moduleHeap p) := .of_library rfl rfl _
  have hmodule : (ModuleRef.mk 0).index < (moduleHeap p).modules.size := Nat.zero_lt_one
  have hpreserves := compile_preserves (wellResolved_tallyFile fun _ => False) direct_tallyFile hp
    ⟨by omega, by omega, by omega⟩ (reachable_moduleHeap p) hmodule rfl hsuits rfl 4
  exact ⟨p, o, hp, ho, hlines, hresult, hpreserves.1 o ho⟩

end SourceFile

end Starlark
