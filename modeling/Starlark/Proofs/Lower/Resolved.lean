import Starlark.Data.Heap
import Starlark.Proofs.Lower.Translation

/-!
# Resolved trees

The rules that a resolver promises of its trees. Some are about the shape of a tree: where a loop
may be left, what can be assigned to, how many arguments a call has. The others are about
declarations: an index points to a declaration of its scope, and the parameters of a function are
the first of its locals.
-/

set_option autoImplicit false

namespace Starlark

/-- Which rules are meant: those about shapes, or also those about declarations. -/
inductive Rules where
  | shape
  | full
  deriving DecidableEq

/-- What is declared where a tree stands: the scopes of the locals of the function around it, the
numbers of its free variables and of the module's variables, and the names that the host
supplies. -/
structure Scopes where
  locals : List Scope
  free : Nat
  globals : Nat
  predeclared : String → Prop

/-- The number of free variables of a function. -/
def Function.freeCount : Function → Nat
  | .mk _ _ _ _ _ freeVars _ _ _ => freeVars.length

namespace Scopes

/-- What is declared within a function. -/
def inner (c : Scopes) : Function → Scopes
  | .mk _ _ _ _ locals freeVars _ _ _ =>
    { c with locals := locals.map Binding.scope, free := freeVars.length }

/-- There is a declaration of the given scope. -/
def Declares (c : Scopes) (scope : Scope) (i : UInt32) (name : String) : Prop :=
  match scope with
  | .frame | .cell => c.locals[i.toNat]? = some scope
  | .free => i.toNat < c.free
  | .global => i.toNat < c.globals
  | .predeclared => c.predeclared name
  | .universal => (Heap.universalEnv.lookup? name).isSome = true

/-- An identifier can be looked up. -/
def Uses (r : Rules) (c : Scopes) (id : Ident) : Prop :=
  r = .full → c.Declares id.scope id.index id.name

/-- An identifier can be assigned to. -/
def Assigns (r : Rules) (c : Scopes) (id : Ident) : Prop :=
  (id.scope = .frame ∨ id.scope = .cell ∨ id.scope = .global) ∧ c.Uses r id

/-- A free variable of a nested function is a cell of the function around it. -/
def Captures (r : Rules) (c : Scopes) (fv : Binding) : Prop :=
  (fv.scope = .cell ∨ fv.scope = .free) ∧ (r = .full → c.Declares fv.scope fv.index fv.name)

end Scopes

/-- No positional argument stands behind a named one. -/
def Arg.Ordered : List Arg → Prop
  | [] => True
  | .named _ _ :: rest => (Arg.counts rest).1 = 0
  | _ :: rest => Arg.Ordered rest

/-- The number of keyword-only parameters. -/
def Param.kwonly : List Param → (afterStar : Bool) → Nat
  | [], _ => 0
  | .required _ :: rest, true | .optional _ _ :: rest, true => kwonly rest true + 1
  | .required _ :: rest, false | .optional _ _ :: rest, false => kwonly rest false
  | _ :: rest, _ => kwonly rest true

/-- Whether a parameter is `*args`. -/
def Param.isVarargs : Param → Bool
  | .varargs _ => true
  | _ => false

/-- Whether a parameter is `**kwargs`. -/
def Param.isKwargs : Param → Bool
  | .kwargs _ => true
  | _ => false

/-- The counts of a function are those of its parameters, and the parameters are the first of its
locals. -/
def Function.Counted : Function → Prop
  | .mk _ _ params _ locals _ numKwonly hasVarargs hasKwargs =>
    Param.slots params < 0x100000000 ∧ Param.slots params ≤ locals.length ∧
      numKwonly.toNat = Param.kwonly params false ∧ hasVarargs = params.any Param.isVarargs ∧
      hasKwargs = params.any Param.isKwargs

namespace Resolved

mutual

/-- The rules for an expression. -/
def expr (r : Rules) (c : Scopes) : Expr → Prop
  | .ident id => c.Uses r id
  | .literal _ _ => True
  | .list elems | .tuple elems => exprs r c elems
  | .dict items => entries r c items
  | .paren x | .unary _ x _ | .dot x _ _ => expr r c x
  | .binary _ x y _ | .index x y _ => expr r c x ∧ expr r c y
  | .cond t a b => expr r c t ∧ expr r c a ∧ expr r c b
  | .slice x lo hi step _ => expr r c x ∧ bound r c lo ∧ bound r c hi ∧ bound r c step
  | .call f as _ =>
    expr r c f ∧ args r c as ∧ (Arg.counts as).1 ≤ 255 ∧ (Arg.counts as).2 ≤ 255 ∧
      (r = .full → Arg.Ordered as)
  | .comprehension b cs => body r c b ∧ clauses r c cs
  | .lambda f => function r c f

def exprs (r : Rules) (c : Scopes) : List Expr → Prop
  | [] => True
  | x :: rest => expr r c x ∧ exprs r c rest

def bound (r : Rules) (c : Scopes) : Option Expr → Prop
  | none => True
  | some x => expr r c x

def entries (r : Rules) (c : Scopes) : List Entry → Prop
  | [] => True
  | .mk k v _ :: rest => expr r c k ∧ expr r c v ∧ entries r c rest

def args (r : Rules) (c : Scopes) : List Arg → Prop
  | [] => True
  | .positional x :: rest | .named _ x :: rest | .star x :: rest | .starStar x :: rest =>
    expr r c x ∧ args r c rest

def body (r : Rules) (c : Scopes) : Body → Prop
  | .elem x => expr r c x
  | .entry (.mk k v _) => expr r c k ∧ expr r c v

def clauses (r : Rules) (c : Scopes) : List Clause → Prop
  | [] => True
  | .loop vars iterable _ :: rest => target r c vars ∧ expr r c iterable ∧ clauses r c rest
  | .guard t :: rest => expr r c t ∧ clauses r c rest

/-- The rules for the target of an assignment. -/
def target (r : Rules) (c : Scopes) : Expr → Prop
  | .paren x => target r c x
  | .ident id => c.Assigns r id
  | .tuple elems | .list elems => targets r c elems
  | .index x i _ => expr r c x ∧ expr r c i
  | .dot x _ _ => expr r c x
  | _ => False

def targets (r : Rules) (c : Scopes) : List Expr → Prop
  | [] => True
  | x :: rest => target r c x ∧ targets r c rest

/-- The rules for the target of an augmented assignment. -/
def place (r : Rules) (c : Scopes) : Expr → Prop
  | .paren x => place r c x
  | .ident id => c.Assigns r id
  | .index x i _ => expr r c x ∧ expr r c i
  | .dot x _ _ => expr r c x
  | _ => False

def function (r : Rules) (c : Scopes) : Function → Prop
  | .mk name pos ps ss locals freeVars numKwonly hasVarargs hasKwargs =>
    params r c ps ∧ (∀ fv ∈ freeVars, c.Captures r fv) ∧
      (r = .full →
        (Function.mk name pos ps ss locals freeVars numKwonly hasVarargs hasKwargs).Counted) ∧
      stmts r { c with locals := locals.map Binding.scope, free := freeVars.length } false ss

/-- The rules for parameters; their defaults belong to the function around. -/
def params (r : Rules) (c : Scopes) : List Param → Prop
  | [] => True
  | .optional _ x :: rest => expr r c x ∧ params r c rest
  | _ :: rest => params r c rest

/-- The rules for statements, within a loop or not. -/
def stmts (r : Rules) (c : Scopes) (inLoop : Bool) : List Stmt → Prop
  | [] => True
  | s :: rest => stmt r c inLoop s ∧ stmts r c inLoop rest

/-- The rules for a statement, within a loop or not. -/
def stmt (r : Rules) (c : Scopes) (inLoop : Bool) : Stmt → Prop
  | .expr x => expr r c x
  | .assign lhs rhs _ => target r c lhs ∧ expr r c rhs
  | .augAssign op lhs rhs _ => op ≠ .and ∧ op ≠ .or ∧ place r c lhs ∧ expr r c rhs
  | .define id f => c.Assigns r id ∧ function r c f
  | .ifElse t a b => expr r c t ∧ stmts r c inLoop a ∧ stmts r c inLoop b
  | .whileLoop t ss => expr r c t ∧ stmts r c true ss
  | .forLoop vars iterable ss _ => target r c vars ∧ expr r c iterable ∧ stmts r c true ss
  | .ret result => bound r c result
  | .pass => True
  | .breakLoop | .continueLoop => inLoop = true
  | .load _ _ _ names ids => names.length = ids.length ∧ ∀ id ∈ ids, c.Assigns r id

end

end Resolved

namespace SourceFile

/-- What the toplevel of a file declares. -/
def scopes (f : SourceFile) (predeclared : String → Prop) : Scopes where
  locals := f.locals.map Binding.scope
  free := 0
  globals := f.globals.length
  predeclared := predeclared

/-- A file keeps the rules about shapes. -/
def WellShaped (f : SourceFile) : Prop :=
  Resolved.stmts .shape (f.scopes fun _ => True) false f.body

/-- A file keeps all rules, if the host supplies the given names. -/
def WellResolved (f : SourceFile) (predeclared : String → Prop) : Prop :=
  Resolved.stmts .full (f.scopes predeclared) false f.body

end SourceFile

/-! ## An example -/

/-- A computation that is seen to give a value of some kind. -/
theorem exists_ok_of_any {ε α : Type} {x : Except ε α} {q : α → Bool}
    (h : x.toOption.any q = true) : ∃ a, x = .ok a ∧ q a = true := by
  cases x with
  | error e => cases h
  | ok a => exact ⟨a, rfl, h⟩

/-- A function that leaves a loop over pairs and returns a function of its own parameter, and a call
of it with a comprehension. -/
def pairsFile : SourceFile where
  filename := "pairs.star"
  body :=
    [ .define ⟨"f", ⟨1, 5⟩, .global, 0⟩
        (.mk "f" ⟨1, 1⟩ [.required ⟨"x", ⟨1, 7⟩, .cell, 0⟩]
          [ .forLoop (.tuple [.ident ⟨"a", ⟨2, 7⟩, .frame, 1⟩, .ident ⟨"b", ⟨2, 10⟩, .frame, 2⟩])
              (.ident ⟨"x", ⟨2, 15⟩, .cell, 0⟩)
              [.ifElse (.ident ⟨"a", ⟨3, 8⟩, .frame, 1⟩) [.breakLoop] []] ⟨2, 3⟩,
            .ret (some (.lambda (.mk "lambda" ⟨4, 10⟩ []
              [.ret (some (.ident ⟨"x", ⟨4, 18⟩, .free, 0⟩))] []
              [⟨"x", ⟨4, 18⟩, .cell, 0⟩] 0 false false))) ]
          [⟨"x", ⟨1, 7⟩, .cell, 0⟩, ⟨"a", ⟨2, 7⟩, .frame, 1⟩, ⟨"b", ⟨2, 10⟩, .frame, 2⟩] []
          0 false false),
      .expr (.call (.ident ⟨"f", ⟨5, 1⟩, .global, 0⟩)
        [.named "x" (.comprehension (.elem (.tuple [.ident ⟨"i", ⟨5, 8⟩, .frame, 0⟩]))
          [.loop (.ident ⟨"i", ⟨5, 14⟩, .frame, 0⟩) (.list []) ⟨5, 10⟩])] ⟨5, 2⟩) ]
  locals := [⟨"i", ⟨5, 14⟩, .frame, 0⟩]
  globals := [⟨"f", ⟨1, 5⟩, .global, 0⟩]
  recursion := false

theorem wellResolved_pairsFile (predeclared : String → Prop) :
    pairsFile.WellResolved predeclared := by
  simp [SourceFile.WellResolved, SourceFile.scopes, pairsFile, Resolved.stmts, Resolved.stmt,
    Resolved.function, Resolved.params, Resolved.expr, Resolved.target, Resolved.targets,
    Resolved.args, Resolved.body, Resolved.clauses, Resolved.exprs, Resolved.bound, Scopes.Assigns,
    Scopes.Uses, Scopes.Captures, Scopes.Declares, Arg.counts, Arg.Ordered, Function.Counted,
    Param.slots, Param.kwonly, Param.isVarargs, Param.isKwargs]
  decide

theorem wellShaped_pairsFile : pairsFile.WellShaped := by
  simp [SourceFile.WellShaped, pairsFile, Resolved.stmts, Resolved.stmt, Resolved.function,
    Resolved.params, Resolved.expr, Resolved.target, Resolved.targets, Resolved.args, Resolved.body,
    Resolved.clauses, Resolved.exprs, Resolved.bound, Scopes.Assigns, Scopes.Uses, Scopes.Captures,
    Arg.counts]

end Starlark
