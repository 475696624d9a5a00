import Starlark.Code.Instruction
import Starlark.Position

/-!
# Block graphs

A function is lowered to basic blocks. A block is straight-line code with at most two successors:
`jmp`, where control goes on, and `cjmp`, where the conditional jump at its end goes to. A jump to
an empty block is a jump to the block that it leads to.
-/

set_option autoImplicit false

namespace Starlark

/-- The number of a block in its graph. -/
abbrev BlockId := Nat

/-- An instruction before it is encoded. -/
structure Insn where
  op : Opcode
  arg : UInt32
  pos : Position
  deriving DecidableEq, Inhabited

/-- The net change of the operand stack. -/
def Insn.stackEffect (i : Insn) : Int := i.op.stackEffect i.arg

/-- The number of bytes of an instruction. A conditional jump has a wide operand. -/
def Insn.size (i : Insn) : Nat :=
  if i.op.isCondJump then 5
  else if i.op.hasArg then 1 + (Leb128.encode i.arg.toNat).length
  else 1

/-- A basic block. -/
structure Block where
  insns : Array Insn := #[]
  jmp : Option BlockId := none
  cjmp : Option BlockId := none
  deriving DecidableEq, Inhabited

/-- The blocks of a function. -/
abbrev BlockGraph := Array Block

/-- Why a tree cannot be compiled. A resolved tree gives no reason. -/
inductive CompileError where
  | afterJump
  | missingOperand (op : Opcode)
  | unwantedOperand (op : Opcode)
  | selfJump
  | loadCount (targets names : Nat)
  | outsideLoop
  | augmentedTarget
  | assignmentTarget
  | unassignable (pos : Position) (name scope : String)
  | notStrict (op : String)
  | tooManyArguments
  | freeScope (name scope : String)
  | emptyBlock (id : BlockId)
  | emptyCycle
  | stackUnderflow (op : Opcode) (id : BlockId)
  | stackMismatch (count : Nat)
  | codeLength (got want : Nat)
  deriving DecidableEq

/-- The text of a compiler error. -/
def CompileError.message (e : CompileError) : String :=
  "internal compiler error: " ++
    match e with
    | .afterJump => "code emitted after unconditional jump"
    | .missingOperand op => "missing operand for " ++ op.mnemonic
    | .unwantedOperand op => "unwanted operand for " ++ op.mnemonic
    | .selfJump => "self-jump"
    | .loadCount targets names => s!"load binds {targets} names from {names}"
    | .outsideLoop => "break or continue outside a loop"
    | .augmentedTarget => "bad augmented assignment target"
    | .assignmentTarget => "bad assignment target"
    | .unassignable pos name scope => pos.text ++ s!": cannot assign to {name} ({scope})"
    | .notStrict op => s!"{op} is not a strict operator"
    | .tooManyArguments => "too many arguments in call"
    | .freeScope name scope => s!"free variable {name} has scope {scope}"
    | .emptyBlock id => s!"empty block {id} has no successor"
    | .emptyCycle => "cycle of empty blocks"
    | .stackUnderflow op id => "stack underflow at " ++ op.mnemonic ++ s!" in block {id}"
    | .stackMismatch count => s!"{count} stack depth mismatch(es)"
    | .codeLength got want => s!"wrong code length ({got} bytes, expected {want})"

namespace BlockGraph

/-- A block; behind the end of the graph all blocks are empty. -/
def block (g : BlockGraph) (id : BlockId) : Block := g.getD id {}

/-- The first block with code from `id` on, at most `fuel` empty blocks away. -/
def targetWithin (g : BlockGraph) : (fuel : Nat) → BlockId → Except CompileError BlockId
  | 0, _ => .error .emptyCycle
  | fuel + 1, id =>
    let b := g.block id
    if b.insns.isEmpty then
      match b.jmp with
      | some next => targetWithin g fuel next
      | none => .error (.emptyBlock id)
    else .ok id

/-- The first block with code from `id` on. A path through more empty blocks than there are never
ends. -/
def target (g : BlockGraph) (id : BlockId) : Except CompileError BlockId :=
  targetWithin g (g.size + 1) id

end BlockGraph

end Starlark
