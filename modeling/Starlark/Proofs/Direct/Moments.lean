import Starlark.Proofs.Direct.Operands

/-!
# Code for values

The code for the value of an expression stands between two points of a graph (`Expr.ValueAt`), and
so between two points of a function that runs (`Running.Holds`).
-/

set_option autoImplicit false

namespace Starlark

/-- The code for the value of an expression stands between two points of a graph. -/
def Expr.ValueAt (x : Expr) (pool : Pool) (g : BlockGraph) (q q' : Point) : Prop :=
  ∃ loops lo hi, (Lowering.expr x).value.At pool g loops q lo q' hi

/-- What a builder emits for the value of an expression stands in every graph that goes on from
there. -/
theorem Expr.stage_value (x : Expr) {b b' : Builder} {c : BlockId} (hc : b.Cursor c)
    (h : Build.settled (Build.expr x .value) b = .ok () b') :
    ∃ c', Builder.Stage b c b' (some c') [] fun pool g =>
      x.ValueAt pool g (b.endOf c) (b'.endOf c') := by
  rw [Lowering.expr_eq, Lowering.settled_build_value] at h
  obtain ⟨c', hstage⟩ := Plan.realizes _ hc h
  exact ⟨c', hstage.mono fun _ _ hat => ⟨_, _, _, hat⟩⟩

namespace Running

variable {p : Program} {predeclared : String → Prop} (R : Running p predeclared)

/-- The code for the value of an expression stands between two points of the function. -/
def Holds (x : Expr) (q q' : Point) : Prop := x.ValueAt p.pool R.code.graph q q'

variable {R} {n : Nat} {q : Point} {st : List Value} {its : List Iter} {s : Scene}

/-- An instruction that pushes a value is executed. -/
theorem StandsAt.pushes (h : R.StandsAt n q st its s) {op : Opcode} {arg : UInt32}
    (hi : R.code.graph.InsnAt q op arg) (hop : op.isCondJump = false) (harg : op.hasArg = true)
    {v : Value} {rest : List Value} {heap : Heap}
    (hexec : ∀ a : Activation, a.locals = s.locals → a.stack = st → st.length < 2 ^ 31 →
      a.execute R.tables op arg s.heap = .ok (a.push rest v) heap) :
    R.Comes n st its fun m => R.StandsAt m q.next (v :: rest) its { s with heap } := by
  refine (h.execute hi hop fun hno => absurd (harg.symm.trans hno) (by decide)).mono
      fun m _ hm => ?_
  obtain ⟨a, ha, hl, hst, rfl, hlt, hyields⟩ := hm
  rw [hexec a hl hst hlt] at hyields
  have hnext := hyields rfl rfl
  rwa [hl] at hnext

end Running

end Starlark
