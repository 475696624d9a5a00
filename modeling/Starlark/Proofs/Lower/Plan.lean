import Starlark.Lower.Program

/-!
# Plans

A plan is what lowering emits while its control flow still forms a tree: no block has a number yet,
and neither have names, constants and functions an index. `Plan.emit` adds a plan to the code that
is being built.
-/

set_option autoImplicit false

namespace Starlark

mutual

/-- Code whose control flow is a tree. -/
inductive Plan where
  | skip
  | seq (p q : Plan)
  /-- Note the position of the next instruction. -/
  | pos (pos : Position)
  | op (op : Opcode)
  | arg (op : Opcode) (n : UInt32)
  | const (c : Constant)
  /-- What is done with the index of a name. -/
  | name (s : String) (k : UInt32 → Plan)
  /-- Unpack `n` elements and store them into targets. -/
  | unpack (n : Nat) (targets : Plan)
  | either (test : Test) (p q : Plan)
  | guard (test : Test) (p : Plan)
  /-- Do `q` instead, if the value of `p` is not `stopIf`. -/
  | short (stopIf : Bool) (p q : Plan)
  /-- Do `vars` and `body` for each element; `isLoop` if `body` may leave the loop. -/
  | each (isLoop : Bool) (iterable : Plan) (pos : Position) (vars body : Plan)
  | whileLoop (test : Test) (body : Plan)
  | leave (isBreak : Bool)
  | ret
  /-- What is done with the index of a function with the given body. -/
  | func (f : Function) (body : Plan) (k : UInt32 → Plan)
  | load (d : Decl)
  | fail (e : CompileError)

/-- Code that branches. -/
inductive Test where
  | on (p : Plan)
  | not (test : Test)
  | both (p : Plan) (test : Test)
  | either (p : Plan) (test : Test)

end

instance : Append Plan := ⟨Plan.seq⟩

namespace Function

/-- The position of a function. -/
def pos : Function → Position
  | .mk _ pos .. => pos

/-- The compiled function of assembled code. -/
def compiled (a : Assembled) : Function → Code
  | .mk name pos params body locals freeVars numKwonly hasVarargs hasKwargs =>
    { a.toCode name pos body locals freeVars with
      numParams := UInt32.ofNat (Param.slots params), numKwonly, hasVarargs, hasKwargs }

end Function

open Build in
mutual

/-- Add a plan to the code that is being built. -/
def Plan.emit : Plan → Build Unit
  | .skip => return ()
  | .seq p q => do
    p.emit
    q.emit
  | .pos pos => setPos pos
  | .op o => Build.emit o
  | .arg o n => emitArg o n
  | .const c => constant c
  | .name s k => do
    let i ← nameIndex s
    (k i).emit
  | .unpack n targets => do
    emitArg .unpack (UInt32.ofNat n)
    targets.emit
  | .either test p q => choice test.emit p.emit q.emit
  | .guard test p => do
    let t ← newBlock
    let done ← newBlock
    test.emit t done
    setBlock t
    p.emit
    jump done
    setBlock done
  | .short stopIf p q => shortCircuit p.emit q.emit stopIf
  | .each isLoop iterable pos vars body =>
    iteration iterable.emit pos fun head tail => do
      vars.emit
      if isLoop then inLoop ⟨tail, head⟩ body.emit else body.emit
  | .whileLoop test body => do
    let head ← newBlock
    let round ← newBlock
    let done ← newBlock
    jump head
    setBlock head
    test.emit round done
    setBlock round
    inLoop ⟨done, head⟩ body.emit
    jump head
    setBlock done
  | .leave isBreak => do
    let l ← innermostLoop
    jump (if isBreak then l.breakTo else l.continueTo)
    setBlock (← newBlock)
  | .ret => do
    Build.emit .ret
    setBlock (← newBlock)
  | .func f body k => do
    let a ← assemble f.pos body.emit
    let i ← functionIndex (f.compiled a)
    (k i).emit
  | .load d => addLoad d
  | .fail e => throw e

/-- Add a test to the code that is being built; it goes to `t` if it is true and to `f`
otherwise. -/
def Test.emit : Test → (t f : BlockId) → Build Unit
  | .on p, t, f => do
    p.emit
    condJump .cjmp t f
  | .not test, t, f => test.emit f t
  | .both p test, t, f => do
    p.emit
    let second ← newBlock
    condJump .cjmp second f
    setBlock second
    test.emit t f
  | .either p test, t, f => do
    p.emit
    let second ← newBlock
    condJump .cjmp t second
    setBlock second
    test.emit t f

end

@[simp] theorem Plan.emit_append (p q : Plan) : (p ++ q).emit = (do p.emit; q.emit) := rfl

end Starlark
