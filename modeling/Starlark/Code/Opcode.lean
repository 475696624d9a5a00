import Starlark.Syntax.Operator

/-!
# Opcodes

The instruction set of the stack machine. An opcode is one byte; the opcodes from `jmp` on are
followed by an operand. `stackEffect` gives the net change of the operand stack.
-/

set_option autoImplicit false

namespace Starlark

/-- The opcodes, in the order of their bytes. -/
inductive Opcode where
  /-- Nothing; also the padding after a jump operand. -/
  | nop
  /-- `x` to `x x`. -/
  | dup
  /-- `x y` to `x y x y`. -/
  | dup2
  /-- `x` to nothing. -/
  | pop
  /-- `x y` to `y x`. -/
  | exch
  | lt
  | gt
  | ge
  | le
  | eql
  | neq
  | plus
  | minus
  | star
  | slash
  | slashSlash
  | percent
  | amp
  | pipe
  | circumflex
  | ltLt
  | gtGt
  | isIn
  | uplus
  | uminus
  | tilde
  | pushNone
  | pushTrue
  | pushFalse
  /-- Push the mark of a keyword-only parameter without a default. -/
  | mandatory
  /-- Open an iterator over the popped value. -/
  | iterPush
  /-- Close the topmost iterator. -/
  | iterPop
  | not
  /-- Leave the function with the popped value. -/
  | ret
  /-- `a i v` to nothing, with `a[i] = v`. -/
  | setIndex
  /-- `a i` to `a[i]`. -/
  | index
  /-- `d k v` to nothing, with `d[k] = v`. -/
  | setDict
  /-- As `setDict`, but the key must be new. -/
  | setDictUniq
  /-- `l x` to nothing, with `x` appended to `l`. -/
  | append
  /-- `x lo hi step` to `x[lo:hi:step]`. -/
  | slice
  /-- `x y` to `x + y`, extending a list in place. -/
  | inplaceAdd
  /-- `x y` to `x | y`, updating a dict in place. -/
  | inplacePipe
  /-- Push a new dict. -/
  | makeDict
  /-- Go to the operand. -/
  | jmp
  /-- Go to the operand if the popped value is true. -/
  | cjmp
  /-- Push the next element of the topmost iterator, or go to the operand if there is none. -/
  | iterJmp
  /-- Push an entry of the constant table. -/
  | constant
  /-- Pack the top `n` values into a tuple. -/
  | makeTuple
  /-- Pack the top `n` values into a list. -/
  | makeList
  /-- Make a function from a tuple of defaults and cells. -/
  | makeFunc
  /-- `from1 … fromN module` to the members of the module. -/
  | load
  | setLocal
  | setGlobal
  | getLocal
  /-- Push a captured cell. -/
  | free
  /-- Push the content of a captured cell. -/
  | freeCell
  /-- Push the content of the cell in a local slot. -/
  | localCell
  /-- Store into the cell in a local slot. -/
  | setLocalCell
  | getGlobal
  | predeclared
  | universal
  /-- `x` to `x.name`. -/
  | attr
  /-- `x y` to nothing, with `x.name = y`. -/
  | setField
  /-- Replace an iterable by its `n` elements, the first on top. -/
  | unpack
  /-- `f` with positional and named arguments; the operand is `256 * positional + named`. -/
  | call
  /-- As `call`, with `*args` on top. -/
  | callVar
  /-- As `call`, with `**kwargs` on top. -/
  | callKw
  /-- As `call`, with `*args` and then `**kwargs` on top. -/
  | callVarKw
  deriving DecidableEq, Inhabited

namespace Opcode

/-- Every opcode, indexed by its byte. -/
def all : Array Opcode :=
  #[.nop, .dup, .dup2, .pop, .exch, .lt, .gt, .ge, .le, .eql, .neq, .plus, .minus, .star,
    .slash, .slashSlash, .percent, .amp, .pipe, .circumflex, .ltLt, .gtGt, .isIn, .uplus,
    .uminus, .tilde, .pushNone, .pushTrue, .pushFalse, .mandatory, .iterPush, .iterPop, .not,
    .ret, .setIndex, .index, .setDict, .setDictUniq, .append, .slice, .inplaceAdd,
    .inplacePipe, .makeDict, .jmp, .cjmp, .iterJmp, .constant, .makeTuple, .makeList,
    .makeFunc, .load, .setLocal, .setGlobal, .getLocal, .free, .freeCell, .localCell,
    .setLocalCell, .getGlobal, .predeclared, .universal, .attr, .setField, .unpack, .call,
    .callVar, .callKw, .callVarKw]

/-- The byte of an opcode. -/
def toByte (op : Opcode) : UInt8 := UInt8.ofNat op.ctorIdx

/-- The opcode of a byte. -/
def ofByte? (b : UInt8) : Option Opcode := all[b.toNat]?

@[simp]
theorem ofByte?_toByte (op : Opcode) : ofByte? op.toByte = some op := by
  cases op <;> rfl

/-- Whether an operand follows. -/
def hasArg (op : Opcode) : Bool := Opcode.jmp.ctorIdx ≤ op.ctorIdx

/-- Conditional jumps; their operand takes four bytes, so that it can be filled in later. -/
def isCondJump : Opcode → Bool
  | .cjmp | .iterJmp => true
  | _ => false

/-- The opcodes that go to the address in their operand. -/
def isJump (op : Opcode) : Bool := op == .jmp || op.isCondJump

/-- The family of call instructions. -/
def isCall : Opcode → Bool
  | .call | .callVar | .callKw | .callVarKw => true
  | _ => false

/-- The strict binary operator that an opcode applies. -/
def binOp? : Opcode → Option BinOp
  | .lt => some .lt
  | .gt => some .gt
  | .ge => some .ge
  | .le => some .le
  | .eql => some .eq
  | .neq => some .ne
  | .plus => some .plus
  | .minus => some .minus
  | .star => some .star
  | .slash => some .slash
  | .slashSlash => some .slashSlash
  | .percent => some .percent
  | .amp => some .amp
  | .pipe => some .pipe
  | .circumflex => some .circumflex
  | .ltLt => some .ltLt
  | .gtGt => some .gtGt
  | .isIn => some .isIn
  | _ => none

/-- The number of positional arguments in the operand of a call. -/
def positionalCount (arg : UInt32) : Nat := arg.toNat / 256

/-- The number of named arguments in the operand of a call. -/
def namedCount (arg : UInt32) : Nat := arg.toNat % 256

/-- The operand read as a signed count. -/
def signedArg (arg : UInt32) : Int := arg.toInt32.toInt

/-- The net change of the operand stack. For `iterJmp` this is the change on the jump; on the other
edge it pushes one element. -/
def stackEffect (op : Opcode) (arg : UInt32) : Int :=
  match op with
  | .nop | .exch => 0
  | .dup => 1
  | .dup2 => 2
  | .pop => -1
  | .lt | .gt | .ge | .le | .eql | .neq | .plus | .minus | .star | .slash | .slashSlash
  | .percent | .amp | .pipe | .circumflex | .ltLt | .gtGt | .isIn => -1
  | .uplus | .uminus | .tilde | .not => 0
  | .pushNone | .pushTrue | .pushFalse | .mandatory => 1
  | .iterPush => -1
  | .iterPop => 0
  | .ret => -1
  | .setIndex => -3
  | .index => -1
  | .setDict | .setDictUniq => -3
  | .append => -2
  | .slice => -3
  | .inplaceAdd | .inplacePipe => -1
  | .makeDict => 1
  | .jmp => 0
  | .cjmp => -1
  | .iterJmp => 0
  | .constant => 1
  | .makeTuple | .makeList => 1 - signedArg arg
  | .makeFunc => 0
  | .load => -1
  | .setLocal | .setGlobal | .setLocalCell => -1
  | .getLocal | .free | .freeCell | .localCell | .getGlobal | .predeclared | .universal => 1
  | .attr => 0
  | .setField => -2
  | .unpack => signedArg arg - 1
  | .call => -(2 * namedCount arg + positionalCount arg : Int)
  | .callVar | .callKw => -(2 * namedCount arg + positionalCount arg : Int) - 1
  | .callVarKw => -(2 * namedCount arg + positionalCount arg : Int) - 2

/-- The name of an opcode in a listing. -/
def mnemonic : Opcode → String
  | .nop => "NOP"
  | .dup => "DUP"
  | .dup2 => "DUP2"
  | .pop => "POP"
  | .exch => "EXCH"
  | .lt => "LT"
  | .gt => "GT"
  | .ge => "GE"
  | .le => "LE"
  | .eql => "EQL"
  | .neq => "NEQ"
  | .plus => "PLUS"
  | .minus => "MINUS"
  | .star => "STAR"
  | .slash => "SLASH"
  | .slashSlash => "SLASHSLASH"
  | .percent => "PERCENT"
  | .amp => "AMP"
  | .pipe => "PIPE"
  | .circumflex => "CIRCUMFLEX"
  | .ltLt => "LTLT"
  | .gtGt => "GTGT"
  | .isIn => "IN"
  | .uplus => "UPLUS"
  | .uminus => "UMINUS"
  | .tilde => "TILDE"
  | .pushNone => "NONE"
  | .pushTrue => "TRUE"
  | .pushFalse => "FALSE"
  | .mandatory => "MANDATORY"
  | .iterPush => "ITERPUSH"
  | .iterPop => "ITERPOP"
  | .not => "NOT"
  | .ret => "RETURN"
  | .setIndex => "SETINDEX"
  | .index => "INDEX"
  | .setDict => "SETDICT"
  | .setDictUniq => "SETDICTUNIQ"
  | .append => "APPEND"
  | .slice => "SLICE"
  | .inplaceAdd => "INPLACE_ADD"
  | .inplacePipe => "INPLACE_PIPE"
  | .makeDict => "MAKEDICT"
  | .jmp => "JMP"
  | .cjmp => "CJMP"
  | .iterJmp => "ITERJMP"
  | .constant => "CONSTANT"
  | .makeTuple => "MAKETUPLE"
  | .makeList => "MAKELIST"
  | .makeFunc => "MAKEFUNC"
  | .load => "LOAD"
  | .setLocal => "SETLOCAL"
  | .setGlobal => "SETGLOBAL"
  | .getLocal => "LOCAL"
  | .free => "FREE"
  | .freeCell => "FREECELL"
  | .localCell => "LOCALCELL"
  | .setLocalCell => "SETLOCALCELL"
  | .getGlobal => "GLOBAL"
  | .predeclared => "PREDECLARED"
  | .universal => "UNIVERSAL"
  | .attr => "ATTR"
  | .setField => "SETFIELD"
  | .unpack => "UNPACK"
  | .call => "CALL"
  | .callVar => "CALL_VAR"
  | .callKw => "CALL_KW"
  | .callVarKw => "CALL_VAR_KW"

end Opcode

end Starlark
