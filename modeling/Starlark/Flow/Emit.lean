import Starlark.Code.LineTable
import Starlark.Flow.Layout

/-!
# Encoding placed blocks

The blocks of a layout are written one after another. The operand of a conditional jump is the
address of its target, in four bytes; a block whose successor does not follow it ends with a jump.
Every instruction with a position gets a row of the line table.
-/

set_option autoImplicit false

namespace Starlark

/-- The code of a function. -/
structure Assembled where
  code : Array UInt8
  lines : List UInt16
  maxStack : UInt32

namespace Emit

/-- An operand, filled up to at least `width` bytes. The filling decodes as `nop`. -/
def operand (arg : UInt32) (width : Nat) : List UInt8 :=
  let bytes := Leb128.encode arg.toNat
  bytes ++ List.replicate (width - bytes.length) Opcode.nop.toByte

/-- The bytes of an instruction. -/
def insnBytes (i : Insn) : List UInt8 :=
  if i.op.hasArg then i.op.toByte :: operand i.arg (if i.op.isCondJump then 4 else 0)
  else [i.op.toByte]

/-- An instruction of a block whose conditional jump goes to the address `target`. -/
def resolve (target : Option Nat) (i : Insn) : Insn :=
  match target with
  | some addr => if i.op.isCondJump then { i with arg := UInt32.ofNat addr } else i
  | none => i

/-- Bytes and rows so far. -/
structure Output where
  code : Array UInt8 := #[]
  rows : Array Row := #[]

/-- Write an instruction, and a row if it has a position. -/
def insn (o : Output) (i : Insn) : Output :=
  { code := o.code.appendList (insnBytes i)
    rows := if i.pos.isValid then o.rows.push ⟨o.code.size, i.pos.line, i.pos.col⟩ else o.rows }

/-- Write a jump to an address, in four bytes. -/
def jump (o : Output) (addr : Nat) : Output :=
  { o with code := o.code.appendList (Opcode.jmp.toByte :: operand (UInt32.ofNat addr) 4) }

/-- Write a block. -/
def block (g : BlockGraph) (l : Layout) (o : Output) (id : BlockId) :
    Except CompileError Output := do
  let b := g.block id
  let branch ← match b.cjmp with
    | some t => (g.target t).map fun t => some (l.address t)
    | none => .ok none
  let o := (b.insns.toList.map (resolve branch)).foldl insn o
  match b.jmp with
  | none => .ok o
  | some next =>
    let t ← g.target next
    if l.place.getD t none = (l.place.getD id none).map (· + 1) then .ok o
    else .ok (jump o (l.address t))

end Emit

/-- The bytes and the line table of a layout, for a function that starts at `start`. Addresses are
32 bits wide, and so is the number of bytes that the layout counts. -/
def Layout.assemble (g : BlockGraph) (l : Layout) (start : Position) :
    Except CompileError Assembled := do
  let o ← l.order.toList.foldlM (Emit.block g l) {}
  let size := l.size % 0x100000000
  if o.code.size = size then
    .ok ⟨o.code, LineTable.encode start o.rows.toList, UInt32.ofNat l.maxStack.toNat⟩
  else .error (.codeLength o.code.size size)

end Starlark
