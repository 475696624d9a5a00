import Starlark.Proofs.Lower.Drafting
import Starlark.Proofs.Lower.Translation

/-!
# The modules that a program loads

A program lists the modules that its file loads. Each `load` statement of the file has exactly one
entry in the list, in whatever function it stands, and there are no others
(`SourceFile.loads_of_compile`). The entries come in the order in which the code is emitted.
-/

set_option autoImplicit false

namespace Starlark

/-! ## The loads of trees -/

namespace Loads

mutual

/-- The modules that the functions in an expression load. -/
def expr : Expr → List Decl
  | .ident _ | .literal _ _ => []
  | .paren x | .unary _ x _ | .dot x _ _ => expr x
  | .list elems | .tuple elems => exprs elems
  | .dict items => entries items
  | .binary _ x y _ | .index x y _ => expr x ++ expr y
  | .cond c a b => expr c ++ expr a ++ expr b
  | .slice x lo hi step _ => expr x ++ bound lo ++ bound hi ++ bound step
  | .call f args _ => expr f ++ plainArgs args ++ starArg args ++ starStarArg args
  | .comprehension body cs => clauses cs ++ collected body
  | .lambda f => function f

/-- The loads of expressions. -/
def exprs : List Expr → List Decl
  | [] => []
  | x :: rest => expr x ++ exprs rest

/-- The loads of an expression that may be absent. -/
def bound : Option Expr → List Decl
  | none => []
  | some x => expr x

/-- The loads of the entries of a dict display. -/
def entries : List Entry → List Decl
  | [] => []
  | .mk k v _ :: rest => expr k ++ expr v ++ entries rest

/-- The loads of the positional and the named arguments. -/
def plainArgs : List Arg → List Decl
  | [] => []
  | .positional x :: rest | .named _ x :: rest => expr x ++ plainArgs rest
  | _ :: rest => plainArgs rest

/-- The loads of `*args`. Of several ones only the last is compiled. -/
def starArg : List Arg → List Decl
  | [] => []
  | .star x :: rest => if Arg.anyStar rest then starArg rest else expr x
  | _ :: rest => starArg rest

/-- The loads of `**kwargs`. Of several ones only the last is compiled. -/
def starStarArg : List Arg → List Decl
  | [] => []
  | .starStar x :: rest => if Arg.anyStarStar rest then starStarArg rest else expr x
  | _ :: rest => starStarArg rest

/-- The loads of the clauses of a comprehension. -/
def clauses : List Clause → List Decl
  | [] => []
  | .guard c :: rest => expr c ++ clauses rest
  | .loop vars iterable _ :: rest => expr iterable ++ expr vars ++ clauses rest

/-- The loads of what a comprehension collects. -/
def collected : Body → List Decl
  | .elem x => expr x
  | .entry (.mk k v _) => expr k ++ expr v

/-- The modules that a function loads, and the functions nested in it. -/
def function : Function → List Decl
  | .mk _ _ params body _ _ _ _ _ => defaults params ++ stmts body

/-- The loads of the defaults of parameters. -/
def defaults : List Param → List Decl
  | [] => []
  | .optional _ x :: rest => expr x ++ defaults rest
  | _ :: rest => defaults rest

/-- The loads of statements. -/
def stmts : List Stmt → List Decl
  | [] => []
  | s :: rest => stmt s ++ stmts rest

/-- The modules that a statement loads, and the functions nested in it. -/
def stmt : Stmt → List Decl
  | .load _ module modulePos _ _ => [⟨module, modulePos⟩]
  | .expr x => expr x
  | .pass | .breakLoop | .continueLoop => []
  | .ifElse c a b => expr c ++ stmts a ++ stmts b
  | .assign lhs rhs _ => expr rhs ++ expr lhs
  | .augAssign _ lhs rhs _ => expr lhs ++ expr rhs
  | .define _ f => function f
  | .forLoop vars iterable body _ => expr iterable ++ expr vars ++ stmts body
  | .whileLoop c body => expr c ++ stmts body
  | .ret result => bound result

end

end Loads

/-! ## Building -/

/-- A lowering program adds the given entries to the list of loads. -/
def Build.Loading {α : Type} (ds : List Decl) (m : Build α) : Prop :=
  ∀ b a b', m b = .ok a b' → b'.loads.toList = b.loads.toList ++ ds

section

open Build Builder

namespace Build.Loading

variable {α β : Type} {ds es : List Decl}

/-- A builder that leaves the list of loads alone adds none. -/
theorem of_loads {m : Build α} (h : ∀ b a b', m b = .ok a b' → b'.loads = b.loads) : Loading [] m :=
  fun b a b' hm => by rw [h b a b' hm, List.append_nil]

/-- A builder that only drafts adds no loads. -/
theorem of_drafting {m : Build α} (h : Drafting m) : Loading [] m :=
  of_loads fun b a b' hm => (h b a b' hm).loads

/-- The loads of two builders in sequence are those of the first and then those of the second. -/
theorem bind {m : Build α} {f : α → Build β} (hm : Loading ds m) (hf : ∀ a, Loading es (f a)) :
    Loading (ds ++ es) (m >>= f) := by
  intro b a b' h
  obtain ⟨x, b1, h1, h2⟩ := bind_eq_ok.1 h
  rw [hf x b1 a b' h2, hm b x b1 h1, List.append_assoc]

/-- What comes first leaves the tables as they are. -/
theorem after {m : Build α} {f : α → Build β} (hm : Drafting m) (hf : ∀ a, Loading es (f a)) :
    Loading es (m >>= f) :=
  bind (of_drafting hm) hf

/-- What comes last leaves the tables as they are. -/
theorem before {m : Build α} {f : α → Build β} (hm : Loading ds m) (hf : ∀ a, Drafting (f a)) :
    Loading ds (m >>= f) :=
  List.append_nil ds ▸ bind hm fun a => of_drafting (hf a)

theorem constant (c : Constant) : Loading [] (constant c) :=
  before (of_loads fun b a b' h => by cases h; rfl) fun i => .emitArg .constant i

theorem nameIndex (name : String) : Loading [] (nameIndex name) :=
  of_loads fun b a b' h => by cases h; rfl

theorem functionIndex (c : Code) : Loading [] (functionIndex c) :=
  of_loads fun b a b' h => by cases h; rfl

/-- Being inside a loop adds no loads. -/
theorem inLoop {l : Loop} {body : Build Unit} (h : Loading ds body) : Loading ds (inLoop l body) :=
  after (.modify fun _ => ⟨rfl, rfl, rfl, rfl⟩) fun _ =>
    before h fun _ => .modify fun _ => ⟨rfl, rfl, rfl, rfl⟩

/-- The list of loads goes through the functions. -/
theorem assemble (pos : Position) {body : Build Unit} (h : Loading ds body) :
    Loading ds (assemble pos body) := by
  intro b a b' ha
  obtain ⟨b1, hb, -, hsame⟩ := drafts_of_assemble ha
  exact (congrArg Array.toList hsame.loads).trans (h (inside b pos) () b1 hb)

end Build.Loading

/-! ## Plans -/

/-- A plan adds the given entries to the list of loads. -/
def Plan.Loads (p : Plan) (ds : List Decl) : Prop := Loading ds p.emit

/-- A test adds the given entries to the list of loads. -/
def Test.Loads (test : Test) (ds : List Decl) : Prop := ∀ t f, Loading ds (test.emit t f)

namespace Plan.Loads

variable {p q r : Plan} {test : Test} {ds es fs : List Decl}

theorem skip : Plan.skip.Loads [] := .of_drafting (.pure ())

theorem pos (pos : Position) : (Plan.pos pos).Loads [] := .of_drafting (.setPos pos)

theorem op (o : Opcode) : (Plan.op o).Loads [] := .of_drafting (.emit o)

theorem arg (o : Opcode) (n : UInt32) : (Plan.arg o n).Loads [] := .of_drafting (.emitArg o n)

theorem const (c : Constant) : (Plan.const c).Loads [] := .constant c

/-- A plan that fails never emits anything, so it may be said to add any loads. -/
theorem fail (e : CompileError) : (Plan.fail e).Loads ds := nofun

/-- The one plan that adds a load. -/
theorem load (d : Decl) : (Plan.load d).Loads [d] := by
  intro b a b' h
  cases h
  exact Array.toList_push ..

theorem append (hp : p.Loads ds) (hq : q.Loads es) : (p ++ q).Loads (ds ++ es) :=
  Loading.bind hp fun _ => hq

/-- What comes first loads nothing. -/
theorem after (hp : p.Loads []) (hq : q.Loads es) : (p ++ q).Loads es := hp.append hq

/-- What comes last loads nothing. -/
theorem before (hp : p.Loads ds) (hq : q.Loads []) : (p ++ q).Loads ds :=
  List.append_nil ds ▸ hp.append hq

theorem name (s : String) {k : UInt32 → Plan} (h : ∀ i, (k i).Loads ds) :
    (Plan.name s k).Loads ds :=
  Loading.bind (.nameIndex s) h

theorem unpack (n : Nat) (h : p.Loads ds) : (Plan.unpack n p).Loads ds :=
  Loading.after (.emitArg _ _) fun _ => h

/-- A test is emitted before its branches. -/
theorem either (ht : test.Loads ds) (hp : p.Loads es) (hq : q.Loads fs) :
    (Plan.either test p q).Loads (ds ++ es ++ fs) :=
  List.append_assoc ds es fs ▸
    Loading.after .newBlock fun t => .after .newBlock fun f => .after .newBlock fun done =>
      .bind (ht t f) fun _ => .after (.setBlock t) fun _ =>
      .bind hp fun _ => .after (.jump done) fun _ => .after (.setBlock f) fun _ =>
      .before hq fun _ => .bind (.jump done) fun _ => .setBlock done

theorem guard (ht : test.Loads ds) (hp : p.Loads es) : (Plan.guard test p).Loads (ds ++ es) :=
  Loading.after .newBlock fun t => .after .newBlock fun done =>
    .bind (ht t done) fun _ => .after (.setBlock t) fun _ =>
    .before hp fun _ => .bind (.jump done) fun _ => .setBlock done

/-- The first operand is emitted before the second. -/
theorem short (stopIf : Bool) (hp : p.Loads ds) (hq : q.Loads es) :
    (Plan.short stopIf p q).Loads (ds ++ es) := by
  refine Loading.after .newBlock fun done => .after .newBlock fun second =>
    .bind hp fun _ => .after (.emit .dup) fun _ => ?_
  have hrest : Loading es (do
      Build.setBlock second
      Build.emit .pop
      q.emit
      Build.jump done
      Build.setBlock done) :=
    .after (.setBlock second) fun _ => .after (.emit .pop) fun _ => .before hq fun _ =>
      .bind (.jump done) fun _ => .setBlock done
  cases stopIf with
  | true => exact .after (.condJump _ _ _) fun _ => hrest
  | false => exact .after (.condJump _ _ _) fun _ => hrest

/-- What is iterated over comes first, then the variables, then the body. -/
theorem each (isLoop : Bool) (pos : Position) (hp : p.Loads ds) (hq : q.Loads es)
    (hr : r.Loads fs) :
    (Plan.each isLoop p pos q r).Loads (ds ++ es ++ fs) := by
  have hround : ∀ l : Loop, Loading (es ++ fs) (do
      q.emit
      if isLoop then inLoop l r.emit else r.emit) := by
    intro l
    refine .bind hq fun _ => ?_
    split
    · exact .inLoop hr
    · exact hr
  rw [List.append_assoc]
  exact Loading.after .newBlock fun head => .after .newBlock fun round =>
      .after .newBlock fun tail =>
    .bind hp fun _ => .after (.setPos pos) fun _ => .after (.emit .iterPush) fun _ =>
    .after (.jump head) fun _ => .after (.setBlock head) fun _ => .after (.condJump _ _ _) fun _ =>
    .after (.setBlock round) fun _ => .before (hround ⟨tail, head⟩) fun _ =>
        .bind (.jump head) fun _ =>
    .bind (.setBlock tail) fun _ => .emit .iterPop

theorem whileLoop (ht : test.Loads ds) (hp : p.Loads es) :
    (Plan.whileLoop test p).Loads (ds ++ es) :=
  Loading.after .newBlock fun head => .after .newBlock fun round => .after .newBlock fun done =>
    .after (.jump head) fun _ => .after (.setBlock head) fun _ =>
    .bind (ht round done) fun _ => .after (.setBlock round) fun _ =>
    .before (.inLoop hp) fun _ => .bind (.jump head) fun _ => .setBlock done

theorem leave (isBreak : Bool) : (Plan.leave isBreak).Loads [] := .of_drafting (.leave isBreak)

theorem ret : Plan.ret.Loads [] := .of_drafting .ret

/-- The loads of a body come where the function is made. -/
theorem func (f : Function) {k : UInt32 → Plan} (hp : p.Loads ds) (hk : ∀ i, (k i).Loads []) :
    (Plan.func f p k).Loads ds :=
  List.append_nil ds ▸ Loading.bind (.assemble f.pos hp) fun _ => .bind (.functionIndex _) hk

end Plan.Loads

namespace Test.Loads

variable {p : Plan} {test : Test} {ds es : List Decl}

theorem on (hp : p.Loads ds) : (Test.on p).Loads ds :=
  fun _ _ => .before hp fun _ => .condJump _ _ _

theorem not (ht : test.Loads ds) : (Test.not test).Loads ds := fun t f => ht f t

theorem both (hp : p.Loads ds) (ht : test.Loads es) : (Test.both p test).Loads (ds ++ es) :=
  fun t f => .bind hp fun _ => .after .newBlock fun second => .after (.condJump _ _ _) fun _ =>
    .after (.setBlock second) fun _ => ht t f

theorem either (hp : p.Loads ds) (ht : test.Loads es) : (Test.either p test).Loads (ds ++ es) :=
  fun t f => .bind hp fun _ => .after .newBlock fun second => .after (.condJump _ _ _) fun _ =>
    .after (.setBlock second) fun _ => ht t f

end Test.Loads

end

/-! ## Trees -/

/-- The plans of an expression add the given entries to the list of loads, whatever it is used
for. -/
structure Lowered.Loads (l : Lowered) (ds : List Decl) : Prop where
  part : ∀ sum, (l.part sum).1.Loads ds
  test : l.test.Loads ds

namespace Lowering

theorem loads_addAt (pos : Option Position) : (addAt pos).Loads [] := by
  cases pos with
  | none => exact .skip
  | some pos => exact .after (.pos pos) (.op _)

theorem loads_settle (sum : Sum) : (settle sum).Loads [] := by
  cases sum with
  | settled => exact .skip
  | str s plus | bytes b plus => exact .after (.const _) (loads_addAt plus)
  | list n plus | tuple n plus => exact .after (.arg _ _) (loads_addAt plus)

theorem loads_store (id : Ident) : (store id).Loads [] := by
  unfold store
  cases id.scope <;> first | exact .arg _ _ | exact .fail _

theorem loads_lookup (id : Ident) : (lookup id).Loads [] := by
  unfold lookup
  cases id.scope with
  | predeclared => exact .after (.pos _) (.name _ fun _ => .arg _ _)
  | universal => exact .name _ fun _ => .arg _ _
  | _ => exact .after (.pos _) (.arg _ _)

theorem loads_captureAll (fvs : List Binding) : (captureAll fvs).Loads [] := by
  induction fvs with
  | nil => exact .skip
  | cons fv rest ih =>
    refine .after ?_ ih
    unfold capture
    cases fv.scope <;> first | exact .arg _ _ | exact .fail _

theorem loads_binaryOp (pos : Position) (op : BinOp) : (binaryOp pos op).Loads [] := by
  refine .after (.pos pos) ?_
  split
  · exact .fail _
  · split
    · exact .after (.op _) (.op _)
    · exact .op _

theorem loads_augmentedOp (pos : Position) (op : BinOp) : (augmentedOp pos op).Loads [] := by
  unfold augmentedOp
  split
  · exact .after (.pos pos) (.op _)
  · exact .after (.pos pos) (.op _)
  · exact loads_binaryOp pos _

theorem loads_storeAll (ids : List Ident) : (storeAll ids).Loads [] := by
  induction ids with
  | nil => exact .skip
  | cons id rest ih => exact .after (loads_store id) ih

theorem loads_strings (ss : List String) : (strings ss).Loads [] := by
  induction ss with
  | nil => exact .skip
  | cons s rest ih => exact .after (.const _) ih

/-- The instruction that calls adds no loads. -/
theorem loads_callWith (args : List Arg) (pos : Position) : (callWith args pos).Loads [] := by
  unfold callWith
  split
  · exact .fail _
  · exact .after (.pos pos) (.arg _ _)

end Lowering

open Lowering

namespace Lowered.Loads

variable {l l' : Lowered} {p : Plan} {ds es : List Decl}

theorem value (h : l.Loads ds) : l.value.Loads ds := (h.part none).before (loads_settle _)

theorem plain (h : p.Loads ds) : (Lowered.plain p).Loads ds where
  part
    | none => h
    | some (sum, _) => .before (.after (loads_settle sum) h) (loads_addAt _)
  test := .on h

theorem str (s : String) : (Lowered.str s).Loads [] := by
  refine ⟨fun sum => ?_, .on (.const _)⟩
  dsimp only [Lowered.str]
  split
  · exact .skip
  · exact .skip
  · exact loads_settle _

theorem bytes (b : List UInt8) : (Lowered.bytes b).Loads [] := by
  refine ⟨fun sum => ?_, .on (.const _)⟩
  dsimp only [Lowered.bytes]
  split
  · exact .skip
  · exact .skip
  · exact loads_settle _

theorem list (n : Nat) (h : p.Loads ds) : (Lowered.list n p).Loads ds := by
  refine ⟨fun sum => ?_, .on (.before h (.arg _ _))⟩
  dsimp only [Lowered.list]
  split
  · exact h
  · exact h
  · exact .after (loads_settle _) h

theorem tuple (n : Nat) (h : p.Loads ds) : (Lowered.tuple n p).Loads ds := by
  refine ⟨fun sum => ?_, .on (.before h (.arg _ _))⟩
  dsimp only [Lowered.tuple]
  split
  · exact h
  · exact h
  · exact .after (loads_settle _) h

/-- The loads of a sum are those of its summands, whether they are joined or not. -/
theorem plus (h : l.Loads ds) (h' : l'.Loads es) (pos : Position) :
    (Lowered.plus l l' pos).Loads (ds ++ es) := by
  have hsum : ((l.part none).1 ++ (l'.part (some ((l.part none).2, pos))).1).Loads (ds ++ es) :=
    (h.part none).append (h'.part _)
  have hsettled := hsum.before (loads_settle (l'.part (some ((l.part none).2, pos))).2)
  exact ⟨fun
    | none => hsum
    | some part => (plain hsettled).part (some part), .on hsettled⟩

end Lowered.Loads

namespace Lowering

mutual

/-- An expression has the entries of the functions in it. -/
theorem loads_expr (x : Expr) : (expr x).Loads (Loads.expr x) := by
  match x with
  | .ident id => exact .plain (loads_lookup id)
  | .literal (.str s) _ => exact .str s
  | .literal (.bytes b) _ => exact .bytes b
  | .literal (.int _) _ | .literal (.float _) _ => exact .plain (.const _)
  | .paren x => exact ⟨(loads_expr x).part, .on (loads_expr x).value⟩
  | .list elems => exact .list _ (loads_exprs elems)
  | .tuple elems => exact .tuple _ (loads_exprs elems)
  | .dict items => exact .plain (.after (.op _) (loads_entries items))
  | .unary op x pos =>
    have hplain : (Lowered.plain ((expr x).value ++ .pos pos ++ .op (Build.unaryOpcode op))).Loads
        (Loads.expr x) := .plain (.before (.before (loads_expr x).value (.pos _)) (.op _))
    cases op with
    | not => exact ⟨hplain.part, .not (loads_expr x).test⟩
    | _ => exact hplain
  | .binary op x y pos =>
    have hx := loads_expr x
    have hy := loads_expr y
    have hstrict : ∀ op, ((expr x).value ++ (expr y).value ++ binaryOp pos op).Loads
        (Loads.expr x ++ Loads.expr y) := fun op =>
      .before (.append hx.value hy.value) (loads_binaryOp pos op)
    -- the operands of `+` may be parts of a sum, which has one constant for several literals
    cases op with
    | and =>
      exact ⟨(Lowered.Loads.plain (.short false hx.value hy.value)).part, .both hx.value hy.test⟩
    | or =>
      exact ⟨(Lowered.Loads.plain (.short true hx.value hy.value)).part, .either hx.value hy.test⟩
    | notIn => exact ⟨(Lowered.Loads.plain (hstrict .notIn)).part, .not (.on (hstrict .isIn))⟩
    | plus => exact .plus hx hy pos
    | _ => exact .plain (hstrict _)
  | .cond c a b =>
    exact .plain (.either (loads_expr c).test (loads_expr a).value (loads_expr b).value)
  | .index x i pos =>
    exact .plain
        (.before (.before (.append (loads_expr x).value (loads_expr i).value) (.pos _)) (.op _))
  | .slice x lo hi step pos =>
    exact .plain (.before (.before (.append (.append (.append (.after (.pos _) (loads_expr x).value)
      (loads_bound lo)) (loads_bound hi)) (loads_bound step)) (.pos _)) (.op _))
  | .dot x name pos =>
    exact .plain (.before (loads_expr x).value (.name _ fun _ => .after (.pos _) (.arg _ _)))
  | .call f args pos =>
    exact .plain (.before (.append (.append (.append (loads_expr f).value (loads_plainArgs args))
      (loads_starArg args)) (loads_starStarArg args)) (loads_callWith args pos))
  | .comprehension body cs =>
    refine .plain (.after ?_ (loads_clauses cs (loads_collect body)))
    cases body with
    | elem x => exact .arg _ _
    | entry e => exact .op _
  | .lambda f => exact .plain (loads_function f)

/-- Expressions are emitted from the left. -/
theorem loads_exprs (xs : List Expr) : (exprs xs).Loads (Loads.exprs xs) := by
  match xs with
  | [] => exact .skip
  | x :: rest => exact .append (loads_expr x).value (loads_exprs rest)

/-- A bound of a slice that is left out adds nothing. -/
theorem loads_bound (x : Option Expr) : (bound x).Loads (Loads.bound x) := by
  match x with
  | none => exact .op _
  | some x => exact (loads_expr x).value

theorem loads_entries (es : List Entry) : (entries es).Loads (Loads.entries es) := by
  match es with
  | [] => exact .skip
  | .mk k v pos :: rest =>
    exact .append
      (.before (.before (.append (.after (.op _) (loads_expr k).value) (loads_expr v).value)
        (.pos _)) (.op _))
      (loads_entries rest)

theorem loads_plainArgs (args : List Arg) : (plainArgs args).Loads (Loads.plainArgs args) := by
  match args with
  | [] => exact .skip
  | .positional x :: rest => exact .append (loads_expr x).value (loads_plainArgs rest)
  | .named name x :: rest =>
    exact .append (.after (.const _) (loads_expr x).value) (loads_plainArgs rest)
  | .star x :: rest | .starStar x :: rest => exact loads_plainArgs rest

theorem loads_starArg (args : List Arg) : (starArg args).Loads (Loads.starArg args) := by
  match args with
  | [] => exact .skip
  | .star x :: rest =>
    unfold starArg Loads.starArg
    split
    · exact loads_starArg rest
    · exact (loads_expr x).value
  | .positional x :: rest | .named name x :: rest | .starStar x :: rest => exact loads_starArg rest

theorem loads_starStarArg (args : List Arg) :
    (starStarArg args).Loads (Loads.starStarArg args) := by
  match args with
  | [] => exact .skip
  | .starStar x :: rest =>
    unfold starStarArg Loads.starStarArg
    split
    · exact loads_starStarArg rest
    · exact (loads_expr x).value
  | .positional x :: rest | .named name x :: rest | .star x :: rest => exact loads_starStarArg rest

/-- Clauses are emitted around what is inside them, so their loads come first. -/
theorem loads_clauses (cs : List Clause) {inner : Plan} {ds : List Decl} (hinner : inner.Loads ds) :
    (clauses cs inner).Loads (Loads.clauses cs ++ ds) := by
  match cs with
  | [] => exact hinner
  | .guard c :: rest =>
    rw [Loads.clauses, List.append_assoc]
    exact .guard (loads_expr c).test (loads_clauses rest hinner)
  | .loop vars iterable pos :: rest =>
    rw [Loads.clauses, List.append_assoc]
    exact .each false pos (loads_expr iterable).value (loads_assign pos vars)
        (loads_clauses rest hinner)

/-- What a comprehension collects comes last. -/
theorem loads_collect (body : Body) : (collect body).Loads (Loads.collected body) := by
  match body with
  | .elem x => exact .before (.after (.op _) (loads_expr x).value) (.op _)
  | .entry (.mk k v pos) =>
    exact .before
      (.before (.append (.after (.op _) (loads_expr k).value) (loads_expr v).value) (.pos _))
      (.op _)

/-- A target is evaluated where it is assigned to. -/
theorem loads_assign (pos : Position) (x : Expr) : (assign pos x).Loads (Loads.expr x) := by
  match x with
  | .paren x => exact loads_assign pos x
  | .ident id => exact loads_store id
  | .tuple elems | .list elems => exact .after (.pos _) (.unpack _ (loads_assignAll pos elems))
  | .index x i lbrack =>
    exact .before
      (.before (.before (.append (.before (loads_expr x).value (.op _)) (loads_expr i).value)
        (.op _)) (.pos _))
      (.op _)
  | .dot x name dot =>
    exact .before (.before (loads_expr x).value (.op _))
        (.name _ fun _ => .after (.pos _) (.arg _ _))
  -- no code is made for what cannot be assigned to, whatever is in it
  | .literal _ _ | .dict _ | .unary _ _ _ | .binary _ _ _ _ | .cond _ _ _ | .slice _ _ _ _ _
  | .call _ _ _ | .comprehension _ _ | .lambda _ => exact .fail _

theorem loads_assignAll (pos : Position) (xs : List Expr) :
    (assignAll pos xs).Loads (Loads.exprs xs) := by
  match xs with
  | [] => exact .skip
  | x :: rest => exact .append (loads_assign pos x) (loads_assignAll pos rest)

/-- The place of an augmented assignment is evaluated before what is done with it. -/
theorem loads_place (x : Expr) {k : Plan → Plan} {ds : List Decl}
    (hk : ∀ p : Plan, p.Loads [] → (k p).Loads ds) : (place x k).Loads (Loads.expr x ++ ds) := by
  match x with
  | .paren x => exact loads_place x hk
  | .ident id => exact .after (loads_lookup id) (hk _ (loads_store id))
  | .index x i lbrack =>
    exact .append
        (.before (.before (.before (.append (loads_expr x).value (loads_expr i).value) (.op _))
      (.pos _)) (.op _)) (hk _ (.after (.pos _) (.op _)))
  | .dot x name dot =>
    exact .append (.before (loads_expr x).value (.op _)) (.name _ fun _ =>
      .after (.after (.pos _) (.arg _ _)) (hk _ (.after (.pos _) (.arg _ _))))
  | .literal _ _ | .dict _ | .unary _ _ _ | .binary _ _ _ _ | .cond _ _ _ | .slice _ _ _ _ _
  | .call _ _ _ | .comprehension _ _ | .lambda _ | .list _ | .tuple _ => exact .fail _

/-- The defaults of a function are emitted before its body. -/
theorem loads_function (f : Function) : (function f).Loads (Loads.function f) := by
  match f with
  | .mk name pos params body locals freeVars numKwonly hasVarargs hasKwargs =>
    -- the defaults belong to the code around the function, which comes before its body
    exact .append (.before (.before (.after (.pos _) (loads_defaults params false))
      (loads_captureAll _)) (.arg _ _)) (.func _ (loads_stmts body) fun _ => .arg _ _)

/-- Defaults are emitted from the left. -/
theorem loads_defaults (params : List Param) (afterStar : Bool) :
    (defaults params afterStar).Loads (Loads.defaults params) := by
  match params, afterStar with
  | [], _ => exact .skip
  | .optional id x :: rest, afterStar =>
    exact .append (loads_expr x).value (loads_defaults rest afterStar)
  | .required id :: rest, true => exact .after (.op _) (loads_defaults rest true)
  | .required id :: rest, false => exact loads_defaults rest false
  | .star :: rest, _ | .varargs _ :: rest, _ | .kwargs _ :: rest, _ =>
    exact loads_defaults rest true

/-- Statements are emitted one after another. -/
theorem loads_stmts (ss : List Stmt) : (stmts ss).Loads (Loads.stmts ss) := by
  match ss with
  | [] => exact .skip
  | s :: rest => exact .append (loads_stmt s) (loads_stmts rest)

/-- The loads of a statement come in the order of its parts. -/
theorem loads_stmt (s : Stmt) : (stmt s).Loads (Loads.stmt s) := by
  -- one statement loads by itself; the others do where a part of them does
  match s with
  | .expr x =>
    unfold stmt
    split
    · rename_i hliteral
      cases x with
      | literal => exact .skip
      | _ => cases hliteral
    · exact .before (loads_expr x).value (.op _)
  | .pass => exact .skip
  | .breakLoop | .continueLoop => exact .leave _
  | .ifElse c a b => exact .either (loads_expr c).test (loads_stmts a) (loads_stmts b)
  | .assign lhs rhs pos => exact .append (loads_expr rhs).value (loads_assign pos lhs)
  | .augAssign op lhs rhs pos =>
    exact loads_place lhs fun p hp =>
      .before (.before (loads_expr rhs).value (loads_augmentedOp pos op)) hp
  | .define id f => exact .before (loads_function f) (loads_store id)
  | .forLoop vars iterable body pos =>
    exact .each true pos (loads_expr iterable).value (loads_assign pos vars) (loads_stmts body)
  | .whileLoop c body => exact .whileLoop (loads_expr c).test (loads_stmts body)
  | .ret result => exact .before (loads_bound result) .ret
  | .load pos module modulePos names targets =>
    unfold stmt
    split
    · exact .fail _
    · exact .before (.before (.before (.before (.after (loads_strings names) (.load _)) (.const _))
        (.pos _)) (.arg _ _)) (loads_storeAll _)

end

end Lowering

/-- A program loads what the `load` statements of its file name, each of them once. -/
theorem SourceFile.loads_of_compile {f : SourceFile} {p : Program} (h : f.compile = .ok p) :
    p.loads = Loads.stmts f.body := by
  obtain ⟨a, b, hb, rfl⟩ := exists_of_compile h
  exact Build.Loading.assemble ⟨1, 1⟩ (Lowering.loads_stmts f.body) {} a b hb

end Starlark
