import Starlark.Code.Program
import Starlark.Flow.Emit
import Starlark.Syntax.Tree

/-!
# Building code

The state in which a tree is lowered: the tables that all functions of a program share, and the
block graph of the function at hand. Tables only grow, and an entry is never made twice, so that an
index stays right. A position that has been noted goes to the next instruction.
-/

set_option autoImplicit false

namespace Starlark

/-- Where the innermost loop ends and where its next round starts. -/
structure Loop where
  breakTo : BlockId
  continueTo : BlockId
  deriving DecidableEq

/-- The state of lowering. -/
structure Builder where
  names : Array String := #[]
  constants : Array Constant := #[]
  functions : Array Code := #[]
  loads : Array Decl := #[]
  blocks : BlockGraph := #[]
  /-- The block that takes instructions; none right after a jump. -/
  current : Option BlockId := none
  /-- The loops around, the innermost first. -/
  loops : List Loop := []
  /-- The position of the next instruction. -/
  pos : Position := .absent

/-- Lowering programs. -/
abbrev Build := EStateM CompileError Builder

namespace Build

/-! ## Tables -/

/-- The index of an entry of a table, which is extended if the entry is new. -/
def intern {α : Type} [BEq α] (table : Array α) (x : α) : Nat × Array α :=
  match table.idxOf? x with
  | some i => (i, table)
  | none => (table.size, table.push x)

/-- The index of a name. -/
def nameIndex (name : String) : Build UInt32 := modifyGet fun b =>
  let (i, names) := intern b.names name
  (UInt32.ofNat i, { b with names })

/-- The index of a constant. -/
def constantIndex (c : Constant) : Build UInt32 := modifyGet fun b =>
  let (i, constants) := intern b.constants c
  (UInt32.ofNat i, { b with constants })

/-- The index of a new function. -/
def functionIndex (c : Code) : Build UInt32 := modifyGet fun b =>
  (UInt32.ofNat b.functions.size, { b with functions := b.functions.push c })

/-- Note that a module is loaded. -/
def addLoad (d : Decl) : Build Unit := modify fun b => { b with loads := b.loads.push d }

/-! ## Blocks -/

/-- A new block. -/
def newBlock : Build BlockId := modifyGet fun b =>
  (b.blocks.size, { b with blocks := b.blocks.push {} })

/-- Continue with a block. -/
def setBlock (id : BlockId) : Build Unit := modify fun b => { b with current := some id }

/-- The block that takes instructions. -/
def current : Build BlockId := do
  match (← get).current with
  | some id => return id
  | none => throw .afterJump

/-- Note the position of the next instruction. -/
def setPos (pos : Position) : Build Unit := modify fun b => { b with pos }

/-- Add an instruction to the current block. -/
def push (op : Opcode) (arg : UInt32) : Build Unit := do
  let id ← current
  modify fun b =>
    let i : Insn := ⟨op, arg, b.pos⟩
    { b with
      blocks := b.blocks.modify id fun k => { k with insns := k.insns.push i }
      pos := .absent }

/-- Add an instruction without an operand. -/
def emit (op : Opcode) : Build Unit :=
  if op.hasArg then throw (.missingOperand op) else push op 0

/-- Add an instruction with an operand. -/
def emitArg (op : Opcode) (arg : UInt32) : Build Unit :=
  if op.hasArg then push op arg else throw (.unwantedOperand op)

/-- End the current block; control goes on with `id`. -/
def jump (id : BlockId) : Build Unit := do
  let cur ← current
  if cur = id then throw .selfJump
  modify fun b =>
    { b with
      blocks := b.blocks.modify cur fun k => { k with jmp := some id }
      current := none }

/-- End the current block with a conditional jump to `t`; otherwise control goes on with `f`. -/
def condJump (op : Opcode) (t f : BlockId) : Build Unit := do
  emitArg op 0
  let cur ← current
  modify fun b =>
    { b with blocks := b.blocks.modify cur fun k => { k with cjmp := some t } }
  jump f

/-! ## Loops -/

/-- The innermost loop. -/
def innermostLoop : Build Loop := do
  match (← get).loops with
  | l :: _ => return l
  | [] => throw .outsideLoop

/-- Lower the body of a loop. -/
def inLoop (l : Loop) (body : Build Unit) : Build Unit := do
  modify fun b => { b with loops := l :: b.loops }
  body
  modify fun b => { b with loops := b.loops.tail }

/-! ## Names and literals -/

/-- Push a constant. -/
def constant (c : Constant) : Build Unit := do
  emitArg .constant (← constantIndex c)

/-- Push a string constant. -/
def string (s : String) : Build Unit := constant (.str s)

/-- Store the top value into a variable. -/
def store (id : Ident) : Build Unit :=
  match id.scope with
  | .frame => emitArg .setLocal id.index
  | .cell => emitArg .setLocalCell id.index
  | .global => emitArg .setGlobal id.index
  | scope => throw (.unassignable id.pos id.name scope.label)

/-- Push the value of a variable. Only universal names are always bound, so only they need no
position. -/
def lookup (id : Ident) : Build Unit := do
  if id.scope ≠ .universal then setPos id.pos
  match id.scope with
  | .frame => emitArg .getLocal id.index
  | .free => emitArg .freeCell id.index
  | .cell => emitArg .localCell id.index
  | .global => emitArg .getGlobal id.index
  | .predeclared => emitArg .predeclared (← nameIndex id.name)
  | .universal => emitArg .universal (← nameIndex id.name)

/-- Push the cell of a free variable of a nested function. -/
def capture (fv : Binding) : Build Unit :=
  match fv.scope with
  | .free => emitArg .free fv.index
  | .cell => emitArg .getLocal fv.index
  | scope => throw (.freeScope fv.name scope.label)

/-- Push the cells of free variables. -/
def captureAll : List Binding → Build Unit
  | [] => return ()
  | fv :: rest => do
    capture fv
    captureAll rest

/-! ## Operators -/

/-- The opcode of a strict operator. `not in` is two opcodes. -/
def opcodeOf : BinOp → Except String Opcode
  | .plus => .ok .plus
  | .minus => .ok .minus
  | .star => .ok .star
  | .slash => .ok .slash
  | .slashSlash => .ok .slashSlash
  | .percent => .ok .percent
  | .amp => .ok .amp
  | .pipe => .ok .pipe
  | .circumflex => .ok .circumflex
  | .ltLt => .ok .ltLt
  | .gtGt => .ok .gtGt
  | .eq => .ok .eql
  | .ne => .ok .neq
  | .lt => .ok .lt
  | .gt => .ok .gt
  | .le => .ok .le
  | .ge => .ok .ge
  | .isIn | .notIn => .ok .isIn
  | .and => .error "And"
  | .or => .error "Or"

/-- Apply a strict binary operator to the top two values. -/
def binaryOp (pos : Position) (op : BinOp) : Build Unit := do
  setPos pos
  match opcodeOf op with
  | .error name => throw (.notStrict name)
  | .ok code =>
    emit code
    if op = .notIn then emit .not

/-- The opcode of a unary operator. -/
def unaryOpcode : UnaryOp → Opcode
  | .minus => .uminus
  | .plus => .uplus
  | .not => .not
  | .tilde => .tilde

/-- Apply the operator of an augmented assignment; `+` and `|` may update in place. -/
def augmentedOp (pos : Position) : BinOp → Build Unit
  | .plus => do
    setPos pos
    emit .inplaceAdd
  | .pipe => do
    setPos pos
    emit .inplacePipe
  | op => binaryOp pos op

/-! ## Functions -/

/-- Lower a function body on a block graph of its own. A body that can end without a return returns
`None`. -/
def assemble (pos : Position) (body : Build Unit) : Build Assembled := do
  let ⟨names, constants, functions, loads, blocks, cur, loops, outerPos⟩ ← get
  set { names, constants, functions, loads, pos : Builder }
  let entry ← newBlock
  setBlock entry
  body
  if (← get).current.isSome then
    emit .pushNone
    emit .ret
  let inner := (← get).blocks
  match do Layout.assemble inner (← inner.layout entry) pos with
  | .error e => throw e
  | .ok assembled =>
    modify fun b => { b with blocks := blocks, current := cur, loops := loops, pos := outerPos }
    return assembled

end Build

/-- A declaration without its scope. -/
def Binding.decl (b : Binding) : Decl := ⟨b.name, b.pos⟩

/-- The locals that hold cells. -/
def Binding.cells (locals : List Binding) : List UInt32 :=
  (locals.zipIdx.filter fun (b, _) => b.scope == .cell).map fun (_, i) => UInt32.ofNat i

/-- The compiled function of assembled code, without its parameters. -/
def Assembled.toCode (a : Assembled) (name : String) (pos : Position) (body : List Stmt)
    (locals freeVars : List Binding) : Code where
  pos := pos
  name := name
  doc := Stmt.docString body
  code := a.code
  lines := a.lines
  locals := (locals.map Binding.decl).toArray
  cells := Binding.cells locals
  freeVars := (freeVars.map Binding.decl).toArray
  maxStack := a.maxStack
  numParams := 0
  numKwonly := 0
  hasVarargs := false
  hasKwargs := false

end Starlark
