import Starlark.Code.Leb128
import Starlark.Code.Opcode

/-!
# Instructions in a code stream

`fetch` reads the instruction at an address; both the machine and `instructions` use it, so a
listing shows exactly what is executed. `instructions` reads a whole stream.
-/

set_option autoImplicit false

namespace Starlark

/-- Why no instruction can be read at an address. -/
inductive FetchError where
  /-- The address lies behind the last byte. -/
  | outOfRange (pc : Nat)
  /-- The byte at the address is no opcode. -/
  | illegal (byte : UInt8) (pc : Nat)
  /-- The operand breaks off, or goes on after five bytes, at the address. -/
  | truncated (pc : Nat)
  deriving DecidableEq

/-- An instruction as read, with the address after it. -/
structure Fetched where
  op : Opcode
  arg : Option UInt32
  next : Nat
  deriving DecidableEq

/-- Read an operand of at most `left` further bytes. `acc` is the value of the bytes before, and the
next byte counts `weight` times. On failure, the address where reading stopped. -/
def readOperand (code : Array UInt8) : (left pc weight acc : Nat) → Except Nat (UInt32 × Nat)
  | 0, pc, _, _ => .error pc
  | left + 1, pc, weight, acc =>
    match code[pc]? with
    | none => .error pc
    | some b =>
      let acc := acc + Leb128.payload b * weight
      if Leb128.isLast b then .ok (UInt32.ofNat acc, pc + 1)
      else readOperand code left (pc + 1) (weight * 128) acc

/-- Read the instruction at an address. -/
def fetch (code : Array UInt8) (pc : Nat) : Except FetchError Fetched :=
  match code[pc]? with
  | none => .error (.outOfRange pc)
  | some byte =>
    match Opcode.ofByte? byte with
    | none => .error (.illegal byte pc)
    | some op =>
      if op.hasArg then
        match readOperand code 5 (pc + 1) 1 0 with
        | .error stop => .error (.truncated stop)
        | .ok (arg, next) => .ok ⟨op, some arg, next⟩
      else .ok ⟨op, none, pc + 1⟩

/-- A decoded instruction with its address. -/
structure Instruction where
  pc : Nat
  op : Opcode
  arg : Option UInt32
  deriving DecidableEq

/-- The instructions from an address on, after those in `acc`. Every instruction takes a byte or
more, so `fuel` bytes hold at most that many. On failure, the address of the bad instruction. -/
def instructionsFrom (code : Array UInt8) :
    (fuel pc : Nat) → (acc : Array Instruction) → Except Nat (Array Instruction)
  | 0, _, acc => .ok acc
  | fuel + 1, pc, acc =>
    if pc < code.size then
      match fetch code pc with
      | .error _ => .error pc
      | .ok f => instructionsFrom code fuel f.next (acc.push ⟨pc, f.op, f.arg⟩)
    else .ok acc

/-- All instructions of a stream, or the address of the first that cannot be read. -/
def instructions (code : Array UInt8) : Except Nat (Array Instruction) :=
  instructionsFrom code code.size 0 #[]

end Starlark
