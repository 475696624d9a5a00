import Mathlib.Data.List.Forall2
import Starlark.Proofs.Lower.Drafting

/-!
# What code refers to

Constants, names and functions stand in tables, and code refers to them by index. What the code of a
tree has to refer to is read off the tree (`References.stmts`): of a sum, neighbouring literals of
one type count as one (`Piece.fold`). `Pool.Renders` says that assembled code does so: the
instructions with such an index in the blocks it is made of are those for the references of the
tree, each with the index of an entry that is equal to what is referred to, and functions render
their own bodies. What a lowering program adds to the blocks is followed up to the order of
instructions (`Build.Referring`), since blocks are filled in turns.
-/

set_option autoImplicit false

namespace Starlark

/-- Something that code refers to by an index. -/
inductive Reference where
  | constant (c : Constant)
  /-- A name, for an opcode that takes a name. -/
  | name (op : Opcode) (s : String)
  | function (f : Function)

/-! ## Sums -/

/-- A part of a sum. -/
inductive Piece where
  | str (s : String)
  | bytes (b : List UInt8)
  /-- What is not joined to a literal, with its references. -/
  | other (refs : List Reference)

namespace Piece

/-- A part in front of others; literals of one type are joined. -/
def join : Piece → List Piece → List Piece
  | .str s, .str t :: rest => .str (s ++ t) :: rest
  | .bytes a, .bytes b :: rest => .bytes (a ++ b) :: rest
  | x, rest => x :: rest

/-- The references of a part that stands alone. -/
def references : Piece → List Reference
  | .str s => [.constant (.str s)]
  | .bytes b => [.constant (.bytes b)]
  | .other refs => refs

/-- The references of a sum, with neighbouring literals joined. -/
def fold (ps : List Piece) : List Reference := (ps.foldr join []).flatMap references

/-- The right operand of a sum, which is not taken apart if it is a sum itself. -/
def operand : List Piece → Piece
  | [p] => p
  | ps => .other (fold ps)

theorem join_append_other (p : Piece) (ps : List Piece) (refs : List Reference) (qs : List Piece) :
    join p (ps ++ .other refs :: qs) = join p ps ++ .other refs :: qs := by
  cases ps with
  | nil => cases p <;> rfl
  | cons x ps => cases p <;> cases x <;> rfl

theorem foldr_append_other (ps : List Piece) (refs : List Reference) (qs : List Piece) :
    (ps ++ .other refs :: qs).foldr join [] =
      ps.foldr join [] ++ .other refs :: qs.foldr join [] := by
  induction ps with
  | nil => rfl
  | cons p ps ih => rw [List.cons_append, List.foldr_cons, ih, join_append_other, List.foldr_cons]

/-- What is not a literal comes between those before and those behind it. -/
theorem fold_append_other (ps : List Piece) (refs : List Reference) (qs : List Piece) :
    fold (ps ++ .other refs :: qs) = fold ps ++ refs ++ fold qs := by
  rw [fold, foldr_append_other, List.flatMap_append, List.flatMap_cons, List.append_assoc]
  rfl

/-- Pieces that are no texts are not joined. -/
theorem fold_other (refs : List Reference) (qs : List Piece) :
    fold (.other refs :: qs) = refs ++ fold qs :=
  fold_append_other [] refs qs

theorem fold_singleton_other (refs : List Reference) : fold [.other refs] = refs := by
  rw [fold_other]
  exact List.append_nil refs

/-- Neighbouring texts are joined. -/
theorem fold_str_str (s t : String) (qs : List Piece) :
    fold (.str s :: .str t :: qs) = fold (.str (s ++ t) :: qs) := by
  simp only [fold, List.foldr_cons]
  cases qs.foldr join [] with
  | nil => rfl
  | cons x rest => cases x <;> simp [join, String.append_assoc]

/-- Neighbouring bytes are joined. -/
theorem fold_bytes_bytes (a b : List UInt8) (qs : List Piece) :
    fold (.bytes a :: .bytes b :: qs) = fold (.bytes (a ++ b) :: qs) := by
  simp only [fold, List.foldr_cons]
  cases qs.foldr join [] with
  | nil => rfl
  | cons x rest => cases x <;> simp [join, List.append_assoc]

/-- Bytes and a text are not joined. -/
theorem fold_bytes_str (b : List UInt8) (s : String) (qs : List Piece) :
    fold (.bytes b :: .str s :: qs) = .constant (.bytes b) :: fold (.str s :: qs) := by
  simp only [fold, List.foldr_cons]
  cases qs.foldr join [] with
  | nil => rfl
  | cons x rest => cases x <;> rfl

theorem fold_str_bytes (s : String) (b : List UInt8) (qs : List Piece) :
    fold (.str s :: .bytes b :: qs) = .constant (.str s) :: fold (.bytes b :: qs) := by
  simp only [fold, List.foldr_cons]
  cases qs.foldr join [] with
  | nil => rfl
  | cons x rest => cases x <;> rfl

end Piece

/-! ## The references of trees -/

namespace References

/-- The references of a variable. Only names that are not declared in the file stand in a table. -/
def ident (id : Ident) : List Reference :=
  match id.scope with
  | .predeclared => [.name .predeclared id.name]
  | .universal => [.name .universal id.name]
  | _ => []

/-- The references of the store that ends an augmented assignment. -/
def stored : Expr → List Reference
  | .paren x => stored x
  | .dot _ name _ => [.name .setField name]
  | _ => []

open Piece

mutual

/-- The parts of an expression as a sum; the left operand of a sum is taken apart. -/
def pieces : Expr → List Piece
  | .paren x => pieces x
  | .ident id => [.other (ident id)]
  | .literal (.str s) _ => [.str s]
  | .literal (.bytes b) _ => [.bytes b]
  | .literal value _ => [.other [.constant (Build.literalConstant value)]]
  | .list elems | .tuple elems => [.other (exprs elems)]
  | .dict items => [.other (entries items)]
  | .unary _ x _ => [.other (fold (pieces x))]
  | .binary .plus x y _ => pieces x ++ [operand (pieces y)]
  | .binary _ x y _ | .index x y _ => [.other (fold (pieces x) ++ fold (pieces y))]
  | .cond c a b => [.other (fold (pieces c) ++ fold (pieces a) ++ fold (pieces b))]
  | .slice x lo hi step _ => [.other (fold (pieces x) ++ bound lo ++ bound hi ++ bound step)]
  | .dot x name _ => [.other (fold (pieces x) ++ [.name .attr name])]
  | .call f args _ =>
    [.other (fold (pieces f) ++ plainArgs args ++ starArg args ++ starStarArg args)]
  | .comprehension body cs => [.other (clauses cs ++ collected body)]
  | .lambda f => [.other (function f)]

/-- The references of expressions. -/
def exprs : List Expr → List Reference
  | [] => []
  | x :: rest => fold (pieces x) ++ exprs rest

/-- The references of an expression that may be absent. -/
def bound : Option Expr → List Reference
  | none => []
  | some x => fold (pieces x)

/-- The references of the entries of a dict display. -/
def entries : List Entry → List Reference
  | [] => []
  | .mk k v _ :: rest => fold (pieces k) ++ fold (pieces v) ++ entries rest

/-- The references of the positional and the named arguments. A keyword is a string. -/
def plainArgs : List Arg → List Reference
  | [] => []
  | .positional x :: rest => fold (pieces x) ++ plainArgs rest
  | .named name x :: rest => .constant (.str name) :: (fold (pieces x) ++ plainArgs rest)
  | _ :: rest => plainArgs rest

/-- The references of `*args`. Of several ones only the last is compiled. -/
def starArg : List Arg → List Reference
  | [] => []
  | .star x :: rest => if Arg.anyStar rest then starArg rest else fold (pieces x)
  | _ :: rest => starArg rest

/-- The references of `**kwargs`. Of several ones only the last is compiled. -/
def starStarArg : List Arg → List Reference
  | [] => []
  | .starStar x :: rest => if Arg.anyStarStar rest then starStarArg rest else fold (pieces x)
  | _ :: rest => starStarArg rest

/-- The references of the clauses of a comprehension. -/
def clauses : List Clause → List Reference
  | [] => []
  | .guard c :: rest => fold (pieces c) ++ clauses rest
  | .loop vars iterable _ :: rest => fold (pieces iterable) ++ target vars ++ clauses rest

/-- The references of what a comprehension collects. -/
def collected : Body → List Reference
  | .elem x => fold (pieces x)
  | .entry (.mk k v _) => fold (pieces k) ++ fold (pieces v)

/-- The references of a target. -/
def target : Expr → List Reference
  | .paren x => target x
  | .tuple elems | .list elems => targets elems
  | .index x i _ => fold (pieces x) ++ fold (pieces i)
  | .dot x name _ => fold (pieces x) ++ [.name .setField name]
  | _ => []

/-- The references of targets. -/
def targets : List Expr → List Reference
  | [] => []
  | x :: rest => target x ++ targets rest

/-- The references of the place of an augmented assignment, whose value is taken first. -/
def place : Expr → List Reference
  | .paren x => place x
  | .ident id => ident id
  | .index x i _ => fold (pieces x) ++ fold (pieces i)
  | .dot x name _ => fold (pieces x) ++ [.name .attr name]
  | _ => []

/-- The references of a function, where it is made. Its body has code of its own. -/
def function : Function → List Reference
  | .mk name pos params body locals freeVars numKwonly hasVarargs hasKwargs =>
    defaults params ++
      [.function (.mk name pos params body locals freeVars numKwonly hasVarargs hasKwargs)]

/-- The references of the defaults of parameters. -/
def defaults : List Param → List Reference
  | [] => []
  | .optional _ x :: rest => fold (pieces x) ++ defaults rest
  | _ :: rest => defaults rest

end

mutual

/-- The references of statements. -/
def stmts : List Stmt → List Reference
  | [] => []
  | s :: rest => stmt s ++ stmts rest

/-- The references of a statement. A literal that stands alone makes no code. -/
def stmt : Stmt → List Reference
  | .expr x => if x.isLiteral then [] else fold (pieces x)
  | .pass | .breakLoop | .continueLoop => []
  | .ifElse c a b => fold (pieces c) ++ stmts a ++ stmts b
  | .assign lhs rhs _ => fold (pieces rhs) ++ target lhs
  | .augAssign _ lhs rhs _ => place lhs ++ fold (pieces rhs) ++ stored lhs
  | .define _ f => function f
  | .forLoop vars iterable body _ => fold (pieces iterable) ++ target vars ++ stmts body
  | .whileLoop c body => fold (pieces c) ++ stmts body
  | .ret result => bound result
  | .load _ module _ names _ =>
    names.map (fun name => .constant (.str name)) ++ [.constant (.str module)]

end

end References

/-! ## Code that refers to entries -/

/-- The statements of a function. -/
def Function.body : Function → List Stmt
  | .mk _ _ _ body .. => body

/-- Whether the operand of an opcode is an index into a table of the program. -/
def Opcode.refers : Opcode → Bool
  | .constant | .attr | .setField | .predeclared | .universal | .makeFunc => true
  | _ => false

/-- The instructions of a graph that refer to entries. -/
def BlockGraph.referring (g : BlockGraph) : List Insn :=
  g.toList.flatMap fun k => k.insns.toList.filter (·.op.refers)

open Build in
/-- The blocks that the statements of a function leave, those of the return at its end included. -/
def Build.Leaves (pos : Position) (body : List Stmt) (g : BlockGraph) : Prop :=
  ∃ b b1 b2, Build.stmts body (inside b pos) = .ok () b1 ∧
    (if b1.current.isSome then (do emit .pushNone; emit .ret) else pure () : Build Unit) b1 =
      .ok () b2 ∧ g = b2.blocks

mutual

/-- An instruction has the index of an entry that is equal to what is referred to. -/
inductive Pool.Designates (pool : Pool) : Reference → Insn → Prop where
  | constant {c : Constant} {i : UInt32} {pos : Position} :
      IndexOf pool.constants c i → Designates pool (.constant c) ⟨.constant, i, pos⟩
  | name {op : Opcode} {s : String} {i : UInt32} {pos : Position} :
      IndexOf pool.names s i → Designates pool (.name op s) ⟨op, i, pos⟩
  | function {f : Function} {a : Assembled} {i : UInt32} {pos : Position} :
      IndexOf pool.functions (f.compiled a) i → Renders pool f.pos f.body a →
        Designates pool (.function f) ⟨.makeFunc, i, pos⟩

/-- The code of statements is assembled from the blocks that they leave, whose instructions refer to
what the statements refer to, each of them to its own. -/
inductive Pool.Renders (pool : Pool) : Position → List Stmt → Assembled → Prop where
  | mk {pos : Position} {body : List Stmt} {a : Assembled} {g : BlockGraph} {l : Layout}
      {insns : List Insn} :
      Build.Leaves pos body g → g.layout 0 = .ok l → l.assemble g pos = .ok a →
        insns.Perm g.referring → List.Forall₂ (Designates pool) (References.stmts body) insns →
            Renders pool pos body a

end

end Starlark
