import Starlark.Proofs.Lower.Plan

/-!
# Plans of trees

The plan of a tree is a plain function of the tree. Lowering an expression or statements is emitting
their plan (`Lowering.expr_eq`, `Lowering.stmts_eq`), and a program is what is left of the plan of
its file (`SourceFile.exists_of_compile`).
-/

set_option autoImplicit false

namespace Starlark

/-- The plan of an expression: as the first or a further summand, and as a test. -/
structure Lowered where
  part : Option (Sum × Position) → Plan × Sum
  test : Test

namespace Lowering

/-- The plan of `Build.addAt`. -/
def addAt : Option Position → Plan
  | none => .skip
  | some pos => .pos pos ++ .op .plus

/-- The plan of `Build.settle`. -/
def settle : Sum → Plan
  | .settled => .skip
  | .str s plus => .const (.str s) ++ addAt plus
  | .bytes b plus => .const (.bytes b) ++ addAt plus
  | .list n plus => .arg .makeList (UInt32.ofNat n) ++ addAt plus
  | .tuple n plus => .arg .makeTuple (UInt32.ofNat n) ++ addAt plus

/-- A plan and its pending part. -/
def settled (x : Plan × Sum) : Plan := x.1 ++ settle x.2

/-- The plan of `Build.store`. -/
def store (id : Ident) : Plan :=
  match id.scope with
  | .frame => .arg .setLocal id.index
  | .cell => .arg .setLocalCell id.index
  | .global => .arg .setGlobal id.index
  | scope => .fail (.unassignable id.pos id.name scope.label)

/-- The plan of `Build.lookup`. -/
def lookup (id : Ident) : Plan :=
  match id.scope with
  | .frame => .pos id.pos ++ .arg .getLocal id.index
  | .free => .pos id.pos ++ .arg .freeCell id.index
  | .cell => .pos id.pos ++ .arg .localCell id.index
  | .global => .pos id.pos ++ .arg .getGlobal id.index
  | .predeclared => .pos id.pos ++ .name id.name fun i => .arg .predeclared i
  | .universal => .name id.name fun i => .arg .universal i

/-- The plan of `Build.capture`. -/
def capture (fv : Binding) : Plan :=
  match fv.scope with
  | .free => .arg .free fv.index
  | .cell => .arg .getLocal fv.index
  | scope => .fail (.freeScope fv.name scope.label)

/-- The plan of `Build.captureAll`. -/
def captureAll : List Binding → Plan
  | [] => .skip
  | fv :: rest => capture fv ++ captureAll rest

/-- The plan of `Build.binaryOp`. -/
def binaryOp (pos : Position) (op : BinOp) : Plan :=
  .pos pos ++
    match Build.opcodeOf op with
    | .error name => .fail (.notStrict name)
    | .ok code => if op = .notIn then .op code ++ .op .not else .op code

/-- The plan of `Build.augmentedOp`. -/
def augmentedOp (pos : Position) : BinOp → Plan
  | .plus => .pos pos ++ .op .inplaceAdd
  | .pipe => .pos pos ++ .op .inplacePipe
  | op => binaryOp pos op

/-- The plan of `Build.storeAll`. -/
def storeAll : List Ident → Plan
  | [] => .skip
  | id :: rest => store id ++ storeAll rest

/-- The plan of `Build.strings`. -/
def strings : List String → Plan
  | [] => .skip
  | s :: rest => .const (.str s) ++ strings rest

end Lowering

open Lowering

namespace Lowered

/-- The value of an expression. -/
def value (l : Lowered) : Plan := settled (l.part none)

/-- An expression that is joined to nothing. -/
def plain (p : Plan) : Lowered where
  part
    | none => (p, .settled)
    | some (sum, plus) => (settle sum ++ p ++ addAt (some plus), .settled)
  test := .on p

/-- A string literal. -/
def str (s : String) : Lowered where
  part
    | none => (.skip, .str s none)
    | some (.str before plus, _) => (.skip, .str (before ++ s) plus)
    | some (sum, plus) => (settle sum, .str s (some plus))
  test := .on (.const (.str s))

/-- A bytes literal. -/
def bytes (b : List UInt8) : Lowered where
  part
    | none => (.skip, .bytes b none)
    | some (.bytes before plus, _) => (.skip, .bytes (before ++ b) plus)
    | some (sum, plus) => (settle sum, .bytes b (some plus))
  test := .on (.const (.bytes b))

/-- A list display. -/
def list (n : Nat) (elems : Plan) : Lowered where
  part
    | none => (elems, .list n none)
    | some (.list before plus, _) => (elems, .list (before + n) plus)
    | some (sum, plus) => (settle sum ++ elems, .list n (some plus))
  test := .on (elems ++ .arg .makeList (UInt32.ofNat n))

/-- A tuple display. -/
def tuple (n : Nat) (elems : Plan) : Lowered where
  part
    | none => (elems, .tuple n none)
    | some (.tuple before plus, _) => (elems, .tuple (before + n) plus)
    | some (sum, plus) => (settle sum ++ elems, .tuple n (some plus))
  test := .on (elems ++ .arg .makeTuple (UInt32.ofNat n))

/-- A sum. -/
def plus (x y : Lowered) (pos : Position) : Lowered :=
  let first := x.part none
  let second := y.part (some (first.2, pos))
  let sum : Plan × Sum := (first.1 ++ second.1, second.2)
  { part
      | none => sum
      | some part => (plain (settled sum)).part (some part)
    test := .on (settled sum) }

end Lowered

/-- The numbers of positional and of named arguments. -/
def Arg.counts : List Arg → Nat × Nat
  | [] => (0, 0)
  | .positional _ :: rest => ((counts rest).1 + 1, (counts rest).2)
  | .named _ _ :: rest => ((counts rest).1, (counts rest).2 + 1)
  | _ :: rest => counts rest

/-- The number of defaults of parameters, marks included. -/
def Param.defaults : List Param → (afterStar : Bool) → Nat
  | [], _ => 0
  | .optional _ _ :: rest, afterStar => defaults rest afterStar + 1
  | .required _ :: rest, true => defaults rest true + 1
  | .required _ :: rest, false => defaults rest false
  | _ :: rest, _ => defaults rest true

namespace Lowering

/-- The plan of a call behind its arguments. -/
def callWith (args : List Arg) (pos : Position) : Plan :=
  if 256 ≤ (Arg.counts args).1 ∨ 256 ≤ (Arg.counts args).2 then .fail .tooManyArguments
  else
    .pos pos ++ .arg (Build.callOpcode (Arg.anyStar args) (Arg.anyStarStar args))
      (UInt32.ofNat ((Arg.counts args).1 * 256 + (Arg.counts args).2))

mutual

/-- The plan of an expression. -/
def expr : Expr → Lowered
  | .paren x => { part := (expr x).part, test := .on (expr x).value }
  | .ident id => .plain (lookup id)
  | .literal (.str s) _ => .str s
  | .literal (.bytes b) _ => .bytes b
  | .literal value _ => .plain (.const (Build.literalConstant value))
  | .list elems => .list elems.length (exprs elems)
  | .tuple elems => .tuple elems.length (exprs elems)
  | .dict items => .plain (.op .makeDict ++ entries items)
  | .unary op x pos =>
    let l : Lowered := .plain ((expr x).value ++ .pos pos ++ .op (Build.unaryOpcode op))
    match op with
    | .not => { l with test := .not (expr x).test }
    | _ => l
  | .binary .and x y _ =>
    { part := (Lowered.plain (.short false (expr x).value (expr y).value)).part
      test := .both (expr x).value (expr y).test }
  | .binary .or x y _ =>
    { part := (Lowered.plain (.short true (expr x).value (expr y).value)).part
      test := .either (expr x).value (expr y).test }
  | .binary .notIn x y pos =>
    { part := (Lowered.plain ((expr x).value ++ (expr y).value ++ binaryOp pos .notIn)).part
      test := .not (.on ((expr x).value ++ (expr y).value ++ binaryOp pos .isIn)) }
  | .binary .plus x y pos => .plus (expr x) (expr y) pos
  | .binary op x y pos => .plain ((expr x).value ++ (expr y).value ++ binaryOp pos op)
  | .cond c a b => .plain (.either (expr c).test (expr a).value (expr b).value)
  | .index x i pos => .plain ((expr x).value ++ (expr i).value ++ .pos pos ++ .op .index)
  | .slice x lo hi step pos =>
    .plain (.pos pos ++ (expr x).value ++ bound lo ++ bound hi ++ bound step ++ .pos pos ++
      .op .slice)
  | .dot x name pos => .plain ((expr x).value ++ .name name fun i => .pos pos ++ .arg .attr i)
  | .call f args pos =>
    .plain ((expr f).value ++ plainArgs args ++ starArg args ++ starStarArg args ++
      callWith args pos)
  | .comprehension body cs =>
    .plain
      ((match body with
        | .entry _ => .op .makeDict
        | .elem _ => .arg .makeList 0) ++ clauses cs (collect body))
  | .lambda f => .plain (function f)

/-- The plan of expressions in order. -/
def exprs : List Expr → Plan
  | [] => .skip
  | x :: rest => (expr x).value ++ exprs rest

/-- The plan of an expression that may be absent. -/
def bound : Option Expr → Plan
  | none => .op .pushNone
  | some x => (expr x).value

/-- The plan of the entries of a dict display. -/
def entries : List Entry → Plan
  | [] => .skip
  | .mk k v pos :: rest =>
    .op .dup ++ (expr k).value ++ (expr v).value ++ .pos pos ++ .op .setDictUniq ++ entries rest

/-- The plan of the positional and the named arguments. -/
def plainArgs : List Arg → Plan
  | [] => .skip
  | .positional x :: rest => (expr x).value ++ plainArgs rest
  | .named name x :: rest => .const (.str name) ++ (expr x).value ++ plainArgs rest
  | _ :: rest => plainArgs rest

/-- The plan of the last `*args`. -/
def starArg : List Arg → Plan
  | [] => .skip
  | .star x :: rest => if Arg.anyStar rest then starArg rest else (expr x).value
  | _ :: rest => starArg rest

/-- The plan of the last `**kwargs`. -/
def starStarArg : List Arg → Plan
  | [] => .skip
  | .starStar x :: rest => if Arg.anyStarStar rest then starStarArg rest else (expr x).value
  | _ :: rest => starStarArg rest

/-- The plan of the clauses of a comprehension around what it collects. -/
def clauses : List Clause → Plan → Plan
  | [], inner => inner
  | .guard c :: rest, inner => .guard (expr c).test (clauses rest inner)
  | .loop vars iterable pos :: rest, inner =>
    .each false (expr iterable).value pos (assign pos vars) (clauses rest inner)

/-- The plan of what a comprehension collects. -/
def collect : Body → Plan
  | .elem x => .op .dup ++ (expr x).value ++ .op .append
  | .entry (.mk k v pos) =>
    .op .dup ++ (expr k).value ++ (expr v).value ++ .pos pos ++ .op .setDict

/-- The plan of a store into a target. -/
def assign (pos : Position) : Expr → Plan
  | .paren x => assign pos x
  | .ident id => store id
  | .tuple elems => .pos pos ++ .unpack elems.length (assignAll pos elems)
  | .list elems => .pos pos ++ .unpack elems.length (assignAll pos elems)
  | .index x i lbrack =>
    (expr x).value ++ .op .exch ++ (expr i).value ++ .op .exch ++ .pos lbrack ++ .op .setIndex
  | .dot x name dot =>
    (expr x).value ++ .op .exch ++ .name name fun i => .pos dot ++ .arg .setField i
  | _ => .fail .assignmentTarget

/-- The plan of stores into targets. -/
def assignAll (pos : Position) : List Expr → Plan
  | [] => .skip
  | x :: rest => assign pos x ++ assignAll pos rest

/-- The plan of an augmented assignment; `k` gets the plan of the store. -/
def place : Expr → (k : Plan → Plan) → Plan
  | .paren x, k => place x k
  | .ident id, k => lookup id ++ k (store id)
  | .index x i lbrack, k =>
    (expr x).value ++ (expr i).value ++ .op .dup2 ++ .pos lbrack ++ .op .index ++
      k (.pos lbrack ++ .op .setIndex)
  | .dot x name dot, k =>
    (expr x).value ++ .op .dup ++
      .name name fun i => .pos dot ++ .arg .attr i ++ k (.pos dot ++ .arg .setField i)
  | _, _ => .fail .augmentedTarget

/-- The plan of a function. -/
def function : Function → Plan
  | .mk name pos params body locals freeVars numKwonly hasVarargs hasKwargs =>
    .pos pos ++ defaults params false ++ captureAll freeVars ++
      .arg .makeTuple (UInt32.ofNat (Param.defaults params false + freeVars.length)) ++
      .func (.mk name pos params body locals freeVars numKwonly hasVarargs hasKwargs) (stmts body)
        fun i => .arg .makeFunc i

/-- The plan of the defaults of parameters. -/
def defaults : List Param → (afterStar : Bool) → Plan
  | [], _ => .skip
  | .optional _ x :: rest, afterStar => (expr x).value ++ defaults rest afterStar
  | .required _ :: rest, true => .op .mandatory ++ defaults rest true
  | .required _ :: rest, false => defaults rest false
  | _ :: rest, _ => defaults rest true

/-- The plan of statements. -/
def stmts : List Stmt → Plan
  | [] => .skip
  | s :: rest => stmt s ++ stmts rest

/-- The plan of a statement. -/
def stmt : Stmt → Plan
  | .expr x => if x.isLiteral then .skip else (expr x).value ++ .op .pop
  | .pass => .skip
  | .breakLoop => .leave true
  | .continueLoop => .leave false
  | .ifElse c a b => .either (expr c).test (stmts a) (stmts b)
  | .assign lhs rhs pos => (expr rhs).value ++ assign pos lhs
  | .augAssign op lhs rhs pos =>
    place lhs fun store => (expr rhs).value ++ augmentedOp pos op ++ store
  | .define id f => function f ++ store id
  | .forLoop vars iterable body pos =>
    .each true (expr iterable).value pos (assign pos vars) (stmts body)
  | .whileLoop c body => .whileLoop (expr c).test (stmts body)
  | .ret result => bound result ++ .ret
  | .load pos module modulePos names targets =>
    if names.length ≠ targets.length then .fail (.loadCount targets.length names.length)
    else
      strings names ++ .load ⟨module, modulePos⟩ ++ .const (.str module) ++ .pos pos ++
        .arg .load (UInt32.ofNat names.length) ++ storeAll targets.reverse

end

end Lowering

/-! ## Emitting is lowering -/

namespace Lowered

/-- Emit an expression for its use. -/
def build (l : Lowered) : Use → Build Sum
  | .value => do
    (l.part none).1.emit
    return (l.part none).2
  | .summand sum plus => do
    (l.part (some (sum, plus))).1.emit
    return (l.part (some (sum, plus))).2
  | .branch t f => do
    l.test.emit t f
    return .settled

end Lowered

namespace Lowering

@[simp] theorem emit_addAt (pos : Option Position) : (addAt pos).emit = Build.addAt pos := by
  cases pos <;> rfl

@[simp] theorem emit_settle (sum : Sum) : (settle sum).emit = Build.settle sum := by
  cases sum <;> simp [settle, Build.settle, Plan.emit, Build.string]

@[simp] theorem emit_store (id : Ident) : (store id).emit = Build.store id := by
  unfold store Build.store
  cases id.scope <;> rfl

@[simp] theorem emit_lookup (id : Ident) : (lookup id).emit = Build.lookup id := by
  unfold lookup Build.lookup
  cases id.scope <;> simp [Plan.emit]

@[simp] theorem emit_captureAll (fvs : List Binding) :
    (captureAll fvs).emit = Build.captureAll fvs := by
  induction fvs with
  | nil => rfl
  | cons fv rest ih =>
    have hfv : (capture fv).emit = Build.capture fv := by
      unfold capture Build.capture
      cases fv.scope <;> rfl
    simp only [captureAll, Build.captureAll, Plan.emit_append, ih, hfv]

@[simp] theorem emit_binaryOp (pos : Position) (op : BinOp) :
    (binaryOp pos op).emit = Build.binaryOp pos op := by
  cases op <;> simp [binaryOp, Build.binaryOp, Build.opcodeOf, Plan.emit]

@[simp] theorem emit_augmentedOp (pos : Position) (op : BinOp) :
    (augmentedOp pos op).emit = Build.augmentedOp pos op := by
  cases op with
  | plus => rfl
  | pipe => rfl
  | _ => simp only [augmentedOp, Build.augmentedOp, emit_binaryOp]

@[simp] theorem emit_storeAll (ids : List Ident) : (storeAll ids).emit = Build.storeAll ids := by
  induction ids with
  | nil => rfl
  | cons id rest ih => simp only [storeAll, Build.storeAll, Plan.emit_append, ih, emit_store]

@[simp] theorem emit_strings (ss : List String) : (strings ss).emit = Build.strings ss := by
  induction ss with
  | nil => rfl
  | cons s rest ih =>
    simp only [strings, Build.strings, Plan.emit_append, ih, Plan.emit, Build.string]

/-- Building for a value is emitting the plan for the value. -/
@[simp] theorem settled_build_value (l : Lowered) :
    Build.settled (l.build .value) = l.value.emit := by
  simp [Build.settled, Lowered.build, Lowered.value, settled]

/-- Building for a branch is emitting the test. -/
@[simp] theorem settled_build_branch (l : Lowered) (t f : BlockId) :
    Build.settled (l.build (.branch t f)) = l.test.emit t f := by
  simp [Build.settled, Lowered.build, Build.settle]

theorem build_plain (p : Plan) (use : Use) :
    (Lowered.plain p).build use = Build.plainly p.emit use := by
  cases use <;> simp [Lowered.build, Lowered.plain, Build.plainly, Test.emit]

theorem build_str (s : String) (use : Use) :
    (Lowered.str s).build use = Build.strLiteral s use := by
  cases use with
  | value => simp [Lowered.build, Lowered.str, Build.strLiteral, Plan.emit]
  | summand sum plus =>
    cases sum <;> simp [Lowered.build, Lowered.str, Build.strLiteral, Plan.emit]
  | branch t f =>
    simp [Lowered.build, Lowered.str, Build.strLiteral, Build.plainly, Test.emit, Plan.emit,
      Build.string]

theorem build_bytes (b : List UInt8) (use : Use) :
    (Lowered.bytes b).build use = Build.bytesLiteral b use := by
  cases use with
  | value => simp [Lowered.build, Lowered.bytes, Build.bytesLiteral, Plan.emit]
  | summand sum plus =>
    cases sum <;> simp [Lowered.build, Lowered.bytes, Build.bytesLiteral, Plan.emit]
  | branch t f =>
    simp [Lowered.build, Lowered.bytes, Build.bytesLiteral, Build.plainly, Test.emit, Plan.emit]

theorem build_list (n : Nat) (elems : Plan) (use : Use) :
    (Lowered.list n elems).build use = Build.listDisplay n elems.emit use := by
  cases use with
  | value => rfl
  | summand sum plus => cases sum <;> simp [Lowered.build, Lowered.list, Build.listDisplay]
  | branch t f =>
    simp [Lowered.build, Lowered.list, Build.listDisplay, Build.plainly, Test.emit, Plan.emit]

theorem build_tuple (n : Nat) (elems : Plan) (use : Use) :
    (Lowered.tuple n elems).build use = Build.tupleDisplay n elems.emit use := by
  cases use with
  | value => rfl
  | summand sum plus => cases sum <;> simp [Lowered.build, Lowered.tuple, Build.tupleDisplay]
  | branch t f =>
    simp [Lowered.build, Lowered.tuple, Build.tupleDisplay, Build.plainly, Test.emit, Plan.emit]

@[simp] theorem throw_bind {α β : Type} (e : CompileError) (k : α → Build β) :
    (throw e >>= k) = throw e := rfl

/-- Only `not` can be built for a branch. -/
theorem unary_eq (op : UnaryOp) (x : Expr) (pos : Position) (use : Use)
    (hx : ∀ use, Build.expr x use = (expr x).build use) :
    Build.expr (.unary op x pos) use = (expr (.unary op x pos)).build use := by
  have hplain : ((expr x).value ++ .pos pos ++ .op (Build.unaryOpcode op) : Plan).emit =
      (do Build.settled ((expr x).build .value); Build.setPos pos
          Build.emit (Build.unaryOpcode op)) := by
    simp [Plan.emit]
  cases op with
  | not =>
    cases use with
    | branch t f =>
      simp only [Build.expr, hx]
      simp [expr, Lowered.build, Test.emit]
    | _ =>
      simp only [Build.expr, hx, ← hplain]
      exact (build_plain _ _).symm
  | _ =>
    simp only [Build.expr, hx, ← hplain]
    exact (build_plain _ _).symm

/-- `and` and `or` can be built for a branch; sums are put together; other operators take two
values. -/
theorem binary_eq (op : BinOp) (x y : Expr) (pos : Position) (use : Use)
    (hx : ∀ use, Build.expr x use = (expr x).build use)
    (hy : ∀ use, Build.expr y use = (expr y).build use) :
    Build.expr (.binary op x y pos) use = (expr (.binary op x y pos)).build use := by
  have hstrict : ∀ op, ((expr x).value ++ (expr y).value ++ binaryOp pos op : Plan).emit =
      (do Build.settled ((expr x).build .value); Build.settled ((expr y).build .value)
          Build.binaryOp pos op) := by
    intro op
    simp
  -- the two operators that jump, the one that is negated and the one that folds; all others are
  -- strict
  cases op with
  | and =>
    cases use with
    | branch t f =>
      simp only [Build.expr, hx, hy, settled_build_value]
      simp only [expr, Lowered.build, Test.emit, bind_assoc]
    | _ =>
      simp only [Build.expr, hx, hy, settled_build_value]
      exact (build_plain (.short false (expr x).value (expr y).value) _).symm
  | or =>
    cases use with
    | branch t f =>
      simp only [Build.expr, hx, hy, settled_build_value]
      simp only [expr, Lowered.build, Test.emit, bind_assoc]
    | _ =>
      simp only [Build.expr, hx, hy, settled_build_value]
      exact (build_plain (.short true (expr x).value (expr y).value) _).symm
  | notIn =>
    cases use with
    | branch t f =>
      simp only [Build.expr, hx, hy, expr, Lowered.build, Test.emit, bind_assoc, hstrict]
    | _ =>
      simp only [Build.expr, hx, hy, ← hstrict]
      exact (build_plain _ _).symm
  | plus =>
    cases use with
    | value =>
      simp [Build.expr, hx, hy, expr, Lowered.build, Lowered.plus]
    | summand sum plus =>
      simp only [Build.expr, hx, hy, expr]
      rw [show (Lowered.plus (expr x) (expr y) pos).build (.summand sum plus) =
        (Lowered.plain (Lowered.plus (expr x) (expr y) pos).value).build (.summand sum plus)
        from rfl, build_plain]
      simp [Lowered.build, Lowered.plus, Lowered.value, settled, Build.settled]
    | branch t f =>
      simp only [Build.expr, hx, hy, expr]
      rw [show (Lowered.plus (expr x) (expr y) pos).build (.branch t f) =
        (Lowered.plain (Lowered.plus (expr x) (expr y) pos).value).build (.branch t f)
        from rfl, build_plain]
      simp [Lowered.build, Lowered.plus, Lowered.value, settled, Build.settled]
  | _ =>
    simp only [Build.expr, hx, hy, ← hstrict]
    exact (build_plain _ _).symm

mutual

/-- An expression is built as its plan says, for a value and for a branch. -/
theorem expr_eq (x : Expr) (use : Use) : Build.expr x use = (expr x).build use := by
  -- for every use at once, as a condition's operands are used as tests and a sum's as summands
  match x with
  | .paren x =>
    cases use with
    | value =>
      rw [Build.expr, expr_eq x]
      · rfl
      · nofun
    | summand sum plus =>
      rw [Build.expr, expr_eq x]
      · rfl
      · nofun
    | branch t f =>
      rw [Build.expr, expr_eq x, settled_build_value, expr]
      simp [Lowered.build, Build.plainly, Test.emit]
  | .ident id => rw [Build.expr, expr, build_plain, emit_lookup]
  | .literal (.str s) _ => rw [Build.expr, expr, build_str]
  | .literal (.bytes b) _ => rw [Build.expr, expr, build_bytes]
  | .literal (.int n) _ => rw [Build.expr, expr, build_plain] <;> first | rfl | nofun
  | .literal (.float bits) _ => rw [Build.expr, expr, build_plain] <;> first | rfl | nofun
  | .list elems => rw [Build.expr, expr, build_list, exprs_eq]
  | .tuple elems => rw [Build.expr, expr, build_tuple, exprs_eq]
  | .dict items => rw [Build.expr, expr, build_plain, entries_eq]; rfl
  | .unary op x pos => exact unary_eq op x pos use (expr_eq x)
  | .binary op x y pos => exact binary_eq op x y pos use (expr_eq x) (expr_eq y)
  | .cond c a b =>
    rw [Build.expr, expr_eq a, expr_eq b, expr, build_plain]
    simp only [expr_eq c, settled_build_value, settled_build_branch]
    rfl
  | .index x i pos =>
    rw [Build.expr, expr_eq x, expr_eq i, expr, build_plain]
    simp [Plan.emit]
  | .slice x lo hi step pos =>
    rw [Build.expr, expr_eq x, bound_eq lo, bound_eq hi, bound_eq step, expr, build_plain]
    simp [Plan.emit]
  | .dot x name pos =>
    rw [Build.expr, expr_eq x, expr, build_plain]
    simp [Plan.emit]
  | .call f args pos =>
    rw [Build.expr, expr_eq f, plainArgs_eq args, starArg_eq args, starStarArg_eq args, expr,
      build_plain]
    congr 1
    simp only [callWith]
    split <;> simp [Plan.emit, *]
  | .comprehension (.elem x) cs =>
    rw [Build.expr, expr, build_plain, collect_eq (.elem x), clauses_eq cs _ _ rfl]
    rfl
  | .comprehension (.entry e) cs =>
    rw [Build.expr, expr, build_plain, collect_eq (.entry e), clauses_eq cs _ _ rfl]
    rfl
  | .lambda f => rw [Build.expr, expr, build_plain, function_eq]

/-- Expressions are built as their plans say, from the left. -/
theorem exprs_eq (xs : List Expr) : Build.exprs xs = (exprs xs).emit := by
  match xs with
  | [] => rfl
  | x :: rest =>
    rw [Build.exprs, exprs, expr_eq x, exprs_eq rest, settled_build_value]
    rfl

theorem bound_eq (x : Option Expr) : Build.bound x = (bound x).emit := by
  match x with
  | none => rfl
  | some x => rw [Build.bound, bound, expr_eq x, settled_build_value]

/-- The entries of a display are built as their plans say. -/
theorem entries_eq (es : List Entry) : Build.entries es = (entries es).emit := by
  match es with
  | [] => rfl
  | .mk k v pos :: rest =>
    rw [Build.entries, entries, expr_eq k, expr_eq v, entries_eq rest]
    simp [Plan.emit]

/-- Plain arguments are built as their plans say, and counted. -/
theorem plainArgs_eq (args : List Arg) :
    Build.plainArgs args = (do (plainArgs args).emit; return Arg.counts args) := by
  -- starred arguments are left for later, and the counts pass them over
  match args with
  | [] => rfl
  | .positional x :: rest =>
    rw [Build.plainArgs, plainArgs, expr_eq x, plainArgs_eq rest]
    simp [Arg.counts]
  | .named name x :: rest =>
    rw [Build.plainArgs, plainArgs, expr_eq x, plainArgs_eq rest]
    simp [Arg.counts, Plan.emit, Build.string]
  | .star x :: rest =>
    rw [Build.plainArgs, plainArgs, plainArgs_eq rest]
    · rfl
    · nofun
    · nofun
    · nofun
    · nofun
  | .starStar x :: rest =>
    rw [Build.plainArgs, plainArgs, plainArgs_eq rest]
    · rfl
    · nofun
    · nofun
    · nofun
    · nofun

theorem starArg_eq (args : List Arg) : Build.starArg args = (starArg args).emit := by
  match args with
  | [] => rfl
  | .star x :: rest =>
    rw [Build.starArg, starArg, expr_eq x, starArg_eq rest]
    split <;> simp
  | .positional x :: rest => simp only [Build.starArg, starArg, starArg_eq rest]
  | .named name x :: rest => simp only [Build.starArg, starArg, starArg_eq rest]
  | .starStar x :: rest => simp only [Build.starArg, starArg, starArg_eq rest]

theorem starStarArg_eq (args : List Arg) : Build.starStarArg args = (starStarArg args).emit := by
  match args with
  | [] => rfl
  | .starStar x :: rest =>
    rw [Build.starStarArg, starStarArg, expr_eq x, starStarArg_eq rest]
    split <;> simp
  | .positional x :: rest => simp only [Build.starStarArg, starStarArg, starStarArg_eq rest]
  | .named name x :: rest => simp only [Build.starStarArg, starStarArg, starStarArg_eq rest]
  | .star x :: rest => simp only [Build.starStarArg, starStarArg, starStarArg_eq rest]

/-- Clauses are built around whatever is inside them. -/
theorem clauses_eq (cs : List Clause) (inner : Build Unit) (p : Plan) (hp : inner = p.emit) :
    Build.clauses cs inner = (clauses cs p).emit := by
  match cs with
  | [] => rw [Build.clauses, clauses, hp]
  | .guard c :: rest =>
    simp only [Build.clauses, clauses, Plan.emit, expr_eq c, settled_build_branch,
      clauses_eq rest inner p hp]
  | .loop vars iterable pos :: rest =>
    simp only [Build.clauses, clauses, Plan.emit, expr_eq iterable, settled_build_value,
      clauses_eq rest inner p hp, assign_eq pos vars, Bool.false_eq_true, ↓reduceIte]

/-- What a comprehension collects is built as its plan says. -/
theorem collect_eq (body : Body) : Build.collect body = (collect body).emit := by
  match body with
  | .elem x =>
    rw [Build.collect, collect, expr_eq x]
    simp [Plan.emit]
  | .entry (.mk k v pos) =>
    rw [Build.collect, collect, expr_eq k, expr_eq v]
    simp [Plan.emit]

/-- A target is assigned to as its plan says. -/
theorem assign_eq (pos : Position) (x : Expr) : Build.assign pos x = (assign pos x).emit := by
  match x with
  | .paren x => rw [Build.assign, assign, assign_eq pos x]
  | .ident id => rw [Build.assign, assign, emit_store]
  | .tuple elems =>
    rw [Build.assign, assign, assignAll_eq pos elems]
    simp [Plan.emit]
  | .list elems =>
    rw [Build.assign, assign, assignAll_eq pos elems]
    simp [Plan.emit]
  | .index x i lbrack =>
    rw [Build.assign, assign, expr_eq x, expr_eq i]
    simp [Plan.emit]
  | .dot x name dot =>
    rw [Build.assign, assign, expr_eq x]
    simp [Plan.emit]
  | .literal _ _ | .dict _ | .unary _ _ _ | .binary _ _ _ _ | .cond _ _ _ | .slice _ _ _ _ _
  | .call _ _ _ | .comprehension _ _ | .lambda _ => simp only [Build.assign, assign, Plan.emit]

theorem assignAll_eq (pos : Position) (xs : List Expr) :
    Build.assignAll pos xs = (assignAll pos xs).emit := by
  match xs with
  | [] => rfl
  | x :: rest =>
    rw [Build.assignAll, assignAll, assign_eq pos x, assignAll_eq pos rest]
    rfl

/-- A place is built as its plan says, with what comes between evaluation and store. -/
theorem place_eq (x : Expr) (m : Build Unit) (k : Plan → Plan)
    (hk : ∀ p, (k p).emit = (do m; p.emit)) :
    (do let target ← Build.place x; m; Build.storeAt target) = (place x k).emit := by
  match x with
  | .paren x => rw [Build.place, place, place_eq x m k hk]
  | .ident id =>
    rw [Build.place, place]
    simp [hk, Build.storeAt]
  | .index x i lbrack =>
    rw [Build.place, place, expr_eq x, expr_eq i]
    simp [hk, Build.storeAt, Plan.emit]
  | .dot x name dot =>
    rw [Build.place, place, expr_eq x]
    simp [hk, Build.storeAt, Plan.emit]
  | .literal _ _ | .dict _ | .unary _ _ _ | .binary _ _ _ _ | .cond _ _ _ | .slice _ _ _ _ _
  | .call _ _ _ | .comprehension _ _ | .lambda _ | .list _ | .tuple _ =>
    simp only [Build.place, place, Plan.emit]
    rfl

/-- A function is built as its plan says, with its defaults and cells. -/
theorem function_eq (f : Function) : Build.function f = (function f).emit := by
  match f with
  | .mk name pos params body locals freeVars numKwonly hasVarargs hasKwargs =>
    rw [Build.function, function, defaults_eq params, stmts_eq body]
    simp [Plan.emit, Function.pos, Function.compiled]

/-- Defaults are built as their plans say, and counted. -/
theorem defaults_eq (params : List Param) (afterStar : Bool) :
    Build.defaults params afterStar =
      (do (defaults params afterStar).emit; return Param.defaults params afterStar) := by
  match params, afterStar with
  | [], _ => rfl
  | .optional id x :: rest, afterStar =>
    rw [Build.defaults, defaults, expr_eq x, defaults_eq rest]
    simp [Param.defaults]
  | .required id :: rest, true =>
    rw [Build.defaults, defaults, defaults_eq rest]
    simp [Param.defaults, Plan.emit]
  | .required id :: rest, false =>
    rw [Build.defaults, defaults, defaults_eq rest, Param.defaults]
  | .star :: rest, _ => simp only [Build.defaults, defaults, defaults_eq rest, Param.defaults]
  | .varargs _ :: rest, _ => simp only [Build.defaults, defaults, defaults_eq rest, Param.defaults]
  | .kwargs _ :: rest, _ => simp only [Build.defaults, defaults, defaults_eq rest, Param.defaults]

/-- Statements are built as their plans say, in order. -/
theorem stmts_eq (ss : List Stmt) : Build.stmts ss = (stmts ss).emit := by
  match ss with
  | [] => rfl
  | s :: rest =>
    rw [Build.stmts, stmts, stmt_eq s, stmts_eq rest]
    rfl

/-- A statement is built as its plan says. -/
theorem stmt_eq (s : Stmt) : Build.stmt s = (stmt s).emit := by
  -- each statement emits what its plan does, by the equations of its parts
  match s with
  | .expr x =>
    rw [Build.stmt, stmt, expr_eq x]
    split <;> simp [Plan.emit]
  | .pass => rfl
  | .breakLoop => simp [Build.stmt, stmt, Plan.emit]
  | .continueLoop => simp [Build.stmt, stmt, Plan.emit]
  | .ifElse c a b =>
    simp only [Build.stmt, stmt, Plan.emit, expr_eq c, settled_build_branch, stmts_eq a, stmts_eq b]
  | .assign lhs rhs pos =>
    rw [Build.stmt, stmt, expr_eq rhs, assign_eq pos lhs]
    simp
  | .augAssign op lhs rhs pos =>
    rw [Build.stmt, stmt, expr_eq rhs, ← place_eq lhs
      (do (expr rhs).value.emit; Build.augmentedOp pos op)]
    · simp
    · simp
  | .define id f =>
    rw [Build.stmt, stmt, function_eq f]
    simp
  | .forLoop vars iterable body pos =>
    simp only [Build.stmt, stmt, Plan.emit, expr_eq iterable, settled_build_value,
      assign_eq pos vars, stmts_eq body, ↓reduceIte]
  | .whileLoop c body =>
    simp only [Build.stmt, stmt, Plan.emit, expr_eq c, settled_build_branch, stmts_eq body]
  | .ret result =>
    rw [Build.stmt, stmt, bound_eq result]
    simp [Plan.emit]
  | .load pos module modulePos names targets =>
    rw [Build.stmt, stmt]
    split <;> simp [Plan.emit, Build.string, *]

end

end Lowering

/-- A program has the assembled plan of its file, and the tables that are there at its end. -/
theorem SourceFile.exists_of_compile {f : SourceFile} {p : Program} (h : f.compile = .ok p) :
    ∃ a b, Build.assemble ⟨1, 1⟩ (Lowering.stmts f.body).emit {} = .ok a b ∧
      p =
        { filename := f.filename
          names := b.names
          constants := b.constants
          functions := b.functions
          loads := b.loads.toList
          globals := (f.globals.map Binding.decl).toArray
          toplevel := a.toCode "<toplevel>" ⟨1, 1⟩ f.body f.locals []
          recursion := f.recursion } := by
  rw [← Lowering.stmts_eq]
  unfold compile at h
  split at h
  · cases h
  · rename_i a b hb
    cases h
    exact ⟨a, b, hb, rfl⟩

/-- The toplevel takes and captures nothing, and it has the locals of its file. -/
theorem SourceFile.toplevel_of_compile {f : SourceFile} {p : Program} (h : f.compile = .ok p) :
    p.toplevel.numParams = 0 ∧ p.toplevel.freeVars.size = 0 ∧
      p.toplevel.locals.size = f.locals.length ∧ p.toplevel.cells = Binding.cells f.locals := by
  obtain ⟨a, b, -, rfl⟩ := exists_of_compile h
  exact ⟨rfl, rfl, by simp [Assembled.toCode], rfl⟩

end Starlark
