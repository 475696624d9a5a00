import Starlark.Lower.Builder

/-!
# Lowering trees

An expression is lowered for what becomes of it (`Use`): its value is wanted on the stack, or it is
the next summand of a sum, or control is to branch on its truth. A sum `a + b + c` is lowered from
the left, and neighbouring literals or displays of one type are joined: they stay pending (`Sum`)
until something follows that cannot be joined to them.

All functions of this module recur on the tree.
-/

set_option autoImplicit false

namespace Starlark

/-- A sum while it is lowered. Either all of it is on the stack, or its last part is pending: the
text of string or bytes literals, or a display whose elements are on the stack. The position is that
of the `+` before the pending part, if it is not the first. -/
inductive Sum where
  | settled
  | str (s : String) (plus : Option Position)
  | bytes (b : List UInt8) (plus : Option Position)
  | list (n : Nat) (plus : Option Position)
  | tuple (n : Nat) (plus : Option Position)

/-- What becomes of an expression. -/
inductive Use where
  /-- It is a value, and the first summand if it is a sum. -/
  | value
  /-- It is a further summand. -/
  | summand (sum : Sum) (plus : Position)
  /-- Control goes to `t` if it is true and to `f` otherwise. -/
  | branch (t f : BlockId)

/-- Where the result of an augmented assignment goes. -/
inductive Place where
  | var (id : Ident)
  | item (pos : Position)
  | field (pos : Position) (name : UInt32)

namespace Build

/-! ## Sums -/

/-- Add the top value to what is below, if there is a `+`. -/
def addAt : Option Position → Build Unit
  | none => return ()
  | some pos => do
    setPos pos
    emit .plus

/-- Bring the pending part of a sum onto the stack. -/
def settle : Sum → Build Unit
  | .settled => return ()
  | .str s plus => do
    string s
    addAt plus
  | .bytes b plus => do
    constant (.bytes b)
    addAt plus
  | .list n plus => do
    emitArg .makeList (UInt32.ofNat n)
    addAt plus
  | .tuple n plus => do
    emitArg .makeTuple (UInt32.ofNat n)
    addAt plus

/-- Lower an expression to its value. -/
def settled (lower : Build Sum) : Build Unit := do
  settle (← lower)

/-- Lower an expression that is joined to nothing, by its plain lowering. -/
def plainly (lower : Build Unit) : Use → Build Sum
  | .value => do
    lower
    return .settled
  | .summand sum plus => do
    settle sum
    lower
    addAt (some plus)
    return .settled
  | .branch t f => do
    lower
    condJump .cjmp t f
    return .settled

/-- Lower a string literal. -/
def strLiteral (s : String) : Use → Build Sum
  | .value => return .str s none
  | .summand (.str before plus) _ => return .str (before ++ s) plus
  | .summand sum plus => do
    settle sum
    return .str s (some plus)
  | .branch t f => plainly (string s) (.branch t f)

/-- Lower a bytes literal. -/
def bytesLiteral (b : List UInt8) : Use → Build Sum
  | .value => return .bytes b none
  | .summand (.bytes before plus) _ => return .bytes (before ++ b) plus
  | .summand sum plus => do
    settle sum
    return .bytes b (some plus)
  | .branch t f => plainly (constant (.bytes b)) (.branch t f)

/-- Lower a list display of `n` elements. -/
def listDisplay (n : Nat) (elems : Build Unit) : Use → Build Sum
  | .value => do
    elems
    return .list n none
  | .summand (.list before plus) _ => do
    elems
    return .list (before + n) plus
  | .summand sum plus => do
    settle sum
    elems
    return .list n (some plus)
  | .branch t f =>
    plainly (do elems; emitArg .makeList (UInt32.ofNat n)) (.branch t f)

/-- Lower a tuple display of `n` elements. -/
def tupleDisplay (n : Nat) (elems : Build Unit) : Use → Build Sum
  | .value => do
    elems
    return .tuple n none
  | .summand (.tuple before plus) _ => do
    elems
    return .tuple (before + n) plus
  | .summand sum plus => do
    settle sum
    elems
    return .tuple n (some plus)
  | .branch t f =>
    plainly (do elems; emitArg .makeTuple (UInt32.ofNat n)) (.branch t f)

/-! ## Control flow -/

/-- Lower a choice between two actions; `test` branches to one of two blocks. -/
def choice (test : BlockId → BlockId → Build Unit) (first second : Build Unit) : Build Unit := do
  let t ← newBlock
  let f ← newBlock
  let done ← newBlock
  test t f
  setBlock t
  first
  jump done
  setBlock f
  second
  jump done
  setBlock done

/-- Lower a loop over the elements of the top value. -/
def iteration (iterable : Build Unit) (pos : Position) (body : (head tail : BlockId) → Build Unit) :
    Build Unit := do
  let head ← newBlock
  let round ← newBlock
  let tail ← newBlock
  iterable
  setPos pos
  emit .iterPush
  jump head
  setBlock head
  condJump .iterJmp tail round
  setBlock round
  body head tail
  jump head
  setBlock tail
  emit .iterPop

/-- Lower `and` or `or` as a value: the first operand decides whether the second is evaluated. -/
def shortCircuit (x y : Build Unit) (stopIf : Bool) : Build Unit := do
  let done ← newBlock
  let second ← newBlock
  x
  emit .dup
  if stopIf then condJump .cjmp done second else condJump .cjmp second done
  setBlock second
  emit .pop
  y
  jump done
  setBlock done

/-- Store the result of an augmented assignment. -/
def storeAt : Place → Build Unit
  | .var id => store id
  | .item pos => do
    setPos pos
    emit .setIndex
  | .field pos name => do
    setPos pos
    emitArg .setField name

/-- Store the values of a load, the last one first. -/
def storeAll : List Ident → Build Unit
  | [] => return ()
  | id :: rest => do
    store id
    storeAll rest

/-- Push strings. -/
def strings : List String → Build Unit
  | [] => return ()
  | s :: rest => do
    string s
    strings rest

/-- The constant of a literal. -/
def literalConstant : Literal → Constant
  | .int n => .int n
  | .float bits => .float bits
  | .str s => .str s
  | .bytes b => .bytes b

/-- The opcode of a call with or without `*args` and `**kwargs`. -/
def callOpcode : (star starStar : Bool) → Opcode
  | false, false => .call
  | true, false => .callVar
  | false, true => .callKw
  | true, true => .callVarKw

end Build

/-- Whether arguments include a `*args`. -/
def Arg.anyStar : List Arg → Bool
  | [] => false
  | .star _ :: _ => true
  | _ :: rest => Arg.anyStar rest

/-- Whether arguments include a `**kwargs`. -/
def Arg.anyStarStar : List Arg → Bool
  | [] => false
  | .starStar _ :: _ => true
  | _ :: rest => Arg.anyStarStar rest

/-- Whether an expression is a literal; as a statement it does nothing. -/
def Expr.isLiteral : Expr → Bool
  | .literal _ _ => true
  | _ => false

namespace Build

mutual

/-- Lower an expression for its use. -/
def expr : Expr → Use → Build Sum
  | .paren x, .branch t f => plainly (settled (expr x .value)) (.branch t f)
  | .paren x, use => expr x use
  | .ident id, use => plainly (lookup id) use
  | .literal (.str s) _, use => strLiteral s use
  | .literal (.bytes b) _, use => bytesLiteral b use
  | .literal value _, use => plainly (constant (literalConstant value)) use
  | .list elems, use => listDisplay elems.length (exprs elems) use
  | .tuple elems, use => tupleDisplay elems.length (exprs elems) use
  | .dict items, use => plainly (do emit .makeDict; entries items) use
  | .unary .not x _, .branch t f => expr x (.branch f t)
  | .unary op x pos, use =>
    plainly (do settled (expr x .value); setPos pos; emit (unaryOpcode op)) use
  | .binary .and x y _, .branch t f => do
    settled (expr x .value)
    let second ← newBlock
    condJump .cjmp second f
    setBlock second
    expr y (.branch t f)
  | .binary .or x y _, .branch t f => do
    settled (expr x .value)
    let second ← newBlock
    condJump .cjmp t second
    setBlock second
    expr y (.branch t f)
  | .binary .notIn x y pos, .branch t f => do
    settled (expr x .value)
    settled (expr y .value)
    binaryOp pos .isIn
    condJump .cjmp f t
    return .settled
  | .binary .plus x y pos, .value => do
    expr y (.summand (← expr x .value) pos)
  | .binary .plus x y pos, use =>
    plainly (do settled (do expr y (.summand (← expr x .value) pos))) use
  | .binary .or x y _, use =>
    plainly (shortCircuit (settled (expr x .value)) (settled (expr y .value)) true) use
  | .binary .and x y _, use =>
    plainly (shortCircuit (settled (expr x .value)) (settled (expr y .value)) false) use
  | .binary op x y pos, use =>
    plainly (do settled (expr x .value); settled (expr y .value); binaryOp pos op) use
  | .cond c a b, use =>
    plainly
      (choice (fun t f => settled (expr c (.branch t f))) (settled (expr a .value))
        (settled (expr b .value))) use
  | .index x i pos, use =>
    plainly
      (do settled (expr x .value); settled (expr i .value); setPos pos; emit .index) use
  | .slice x lo hi step pos, use =>
    plainly
      (do
        setPos pos
        settled (expr x .value)
        bound lo
        bound hi
        bound step
        setPos pos
        emit .slice) use
  | .dot x name pos, use =>
    plainly
      (do
        settled (expr x .value)
        let i ← nameIndex name
        setPos pos
        emitArg .attr i) use
  | .call f args pos, use =>
    plainly
      (do
        settled (expr f .value)
        let (positional, named) ← plainArgs args
        starArg args
        starStarArg args
        if 256 ≤ positional ∨ 256 ≤ named then throw .tooManyArguments
        setPos pos
        emitArg (callOpcode (Arg.anyStar args) (Arg.anyStarStar args))
          (UInt32.ofNat (positional * 256 + named))) use
  | .comprehension body cs, use =>
    plainly
      (do
        match body with
        | .entry _ => emit .makeDict
        | .elem _ => emitArg .makeList 0
        clauses cs (collect body)) use
  | .lambda f, use => plainly (function f) use

/-- Lower expressions to their values, in order. -/
def exprs : List Expr → Build Unit
  | [] => return ()
  | x :: rest => do
    settled (expr x .value)
    exprs rest

/-- Lower a bound of a slice, or a result; an absent one is `None`. -/
def bound : Option Expr → Build Unit
  | none => emit .pushNone
  | some x => settled (expr x .value)

/-- Lower the entries of a dict display. -/
def entries : List Entry → Build Unit
  | [] => return ()
  | .mk k v pos :: rest => do
    emit .dup
    settled (expr k .value)
    settled (expr v .value)
    setPos pos
    emit .setDictUniq
    entries rest

/-- Lower the positional and the named arguments, and count both. -/
def plainArgs : List Arg → Build (Nat × Nat)
  | [] => return (0, 0)
  | .positional x :: rest => do
    settled (expr x .value)
    let (positional, named) ← plainArgs rest
    return (positional + 1, named)
  | .named name x :: rest => do
    string name
    settled (expr x .value)
    let (positional, named) ← plainArgs rest
    return (positional, named + 1)
  | _ :: rest => plainArgs rest

/-- Lower the last `*args`, if there is one. -/
def starArg : List Arg → Build Unit
  | [] => return ()
  | .star x :: rest => if Arg.anyStar rest then starArg rest else settled (expr x .value)
  | _ :: rest => starArg rest

/-- Lower the last `**kwargs`, if there is one. -/
def starStarArg : List Arg → Build Unit
  | [] => return ()
  | .starStar x :: rest =>
    if Arg.anyStarStar rest then starStarArg rest else settled (expr x .value)
  | _ :: rest => starStarArg rest

/-- Lower the clauses of a comprehension around what it collects. -/
def clauses : List Clause → Build Unit → Build Unit
  | [], inner => inner
  | .guard c :: rest, inner => do
    let t ← newBlock
    let done ← newBlock
    settled (expr c (.branch t done))
    setBlock t
    clauses rest inner
    jump done
    setBlock done
  | .loop vars iterable pos :: rest, inner =>
    iteration (settled (expr iterable .value)) pos fun _ _ => do
      assign pos vars
      clauses rest inner

/-- Lower what a comprehension collects; the collection is on the stack. -/
def collect : Body → Build Unit
  | .elem x => do
    emit .dup
    settled (expr x .value)
    emit .append
  | .entry (.mk k v pos) => do
    emit .dup
    settled (expr k .value)
    settled (expr v .value)
    setPos pos
    emit .setDict

/-- Store the top value into a target. -/
def assign (pos : Position) : Expr → Build Unit
  | .paren x => assign pos x
  | .ident id => store id
  | .tuple elems => do
    setPos pos
    emitArg .unpack (UInt32.ofNat elems.length)
    assignAll pos elems
  | .list elems => do
    setPos pos
    emitArg .unpack (UInt32.ofNat elems.length)
    assignAll pos elems
  | .index x i lbrack => do
    settled (expr x .value)
    emit .exch
    settled (expr i .value)
    emit .exch
    setPos lbrack
    emit .setIndex
  | .dot x name dot => do
    settled (expr x .value)
    emit .exch
    let i ← nameIndex name
    setPos dot
    emitArg .setField i
  | _ => throw .assignmentTarget

/-- Store the top values into targets, the top one first. -/
def assignAll (pos : Position) : List Expr → Build Unit
  | [] => return ()
  | x :: rest => do
    assign pos x
    assignAll pos rest

/-- Push the value of a target together with what is needed to store into it. -/
def place : Expr → Build Place
  | .paren x => place x
  | .ident id => do
    lookup id
    return .var id
  | .index x i lbrack => do
    settled (expr x .value)
    settled (expr i .value)
    emit .dup2
    setPos lbrack
    emit .index
    return .item lbrack
  | .dot x name dot => do
    settled (expr x .value)
    emit .dup
    let i ← nameIndex name
    setPos dot
    emitArg .attr i
    return .field dot i
  | _ => throw .augmentedTarget

/-- Push a function: its defaults and captured cells go into a tuple. Between the defaults, the
keyword-only parameters without one are marked. -/
def function : Function → Build Unit
  | .mk name pos params body locals freeVars numKwonly hasVarargs hasKwargs => do
    setPos pos
    let n ← defaults params false
    captureAll freeVars
    emitArg .makeTuple (UInt32.ofNat (n + freeVars.length))
    let assembled ← assemble pos (stmts body)
    let code := assembled.toCode name pos body locals freeVars
    let i ← functionIndex
      { code with numParams := UInt32.ofNat (Param.slots params), numKwonly, hasVarargs, hasKwargs }
    emitArg .makeFunc i

/-- Push the defaults of parameters, and count them. -/
def defaults : List Param → (afterStar : Bool) → Build Nat
  | [], _ => return 0
  | .optional _ x :: rest, afterStar => do
    settled (expr x .value)
    return (← defaults rest afterStar) + 1
  | .required _ :: rest, true => do
    emit .mandatory
    return (← defaults rest true) + 1
  | .required _ :: rest, false => defaults rest false
  | _ :: rest, _ => defaults rest true

/-- Lower statements. -/
def stmts : List Stmt → Build Unit
  | [] => return ()
  | s :: rest => do
    stmt s
    stmts rest

/-- Lower a statement. -/
def stmt : Stmt → Build Unit
  | .expr x =>
    if x.isLiteral then return ()
    else do
      settled (expr x .value)
      emit .pop
  | .pass => return ()
  | .breakLoop => do
    jump (← innermostLoop).breakTo
    setBlock (← newBlock)
  | .continueLoop => do
    jump (← innermostLoop).continueTo
    setBlock (← newBlock)
  | .ifElse c a b =>
    choice (fun t f => settled (expr c (.branch t f))) (stmts a) (stmts b)
  | .assign lhs rhs pos => do
    settled (expr rhs .value)
    assign pos lhs
  | .augAssign op lhs rhs pos => do
    let target ← place lhs
    settled (expr rhs .value)
    augmentedOp pos op
    storeAt target
  | .define id f => do
    function f
    store id
  | .forLoop vars iterable body pos =>
    iteration (settled (expr iterable .value)) pos fun head tail => do
      assign pos vars
      inLoop ⟨tail, head⟩ (stmts body)
  | .whileLoop c body => do
    let head ← newBlock
    let round ← newBlock
    let done ← newBlock
    jump head
    setBlock head
    settled (expr c (.branch round done))
    setBlock round
    inLoop ⟨done, head⟩ (stmts body)
    jump head
    setBlock done
  | .ret result => do
    bound result
    emit .ret
    setBlock (← newBlock)
  | .load pos module modulePos names targets => do
    if names.length ≠ targets.length then throw (.loadCount targets.length names.length)
    strings names
    addLoad ⟨module, modulePos⟩
    string module
    setPos pos
    emitArg .load (UInt32.ofNat names.length)
    storeAll targets.reverse

end

end Build

end Starlark
