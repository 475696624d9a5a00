import Starlark.Proofs.Lower.Linking
import Starlark.Proofs.Lower.Tables
import Starlark.Proofs.Lower.Validity

/-!
# Tables that all functions share

The plans of a tree add instructions for what the tree refers to (`Lowering.refers_stmts`). The main
statement `SourceFile.tables_shared` puts it together with what the tables are at each point of a
compilation: nothing has two entries, and every index that is handed out, however deep within
functions, is that of the same entry in the finished program.
-/

set_option autoImplicit false

namespace Starlark

open Build Builder

/-! ## Parts of expressions -/

/-- The literal that is pending in a sum, if there is one. -/
def Sum.pieces : Sum → List Piece
  | .str s _ => [.str s]
  | .bytes b _ => [.bytes b]
  | _ => []

/-- The plans of an expression with the given parts. As the first or a further summand it adds
instructions for all references but those that are pending behind it. -/
structure Lowered.Refers (H : Pool → Prop) (l : Lowered) (ps : List Piece) : Prop where
  nonempty : ps ≠ []
  first : ∃ refs, (l.part none).1.Refers H refs ∧
    ∀ qs, Piece.fold (ps ++ qs) = refs ++ Piece.fold ((l.part none).2.pieces ++ qs)
  further : ∀ sum plus, ∃ refs, (l.part (some (sum, plus))).1.Refers H refs ∧
    ∀ qs, Piece.fold (sum.pieces ++ Piece.operand ps :: qs) =
      refs ++ Piece.fold ((l.part (some (sum, plus))).2.pieces ++ qs)
  test : l.test.Refers H (Piece.fold ps)

namespace Lowering

variable {H : Pool → Prop}

theorem refers_addAt (plus : Option Position) : (addAt plus).Refers H [] := by
  cases plus with
  | none => exact .skip
  | some pos => exact .after (.pos pos) (.op _)

/-- A sum refers to what its pieces refer to once neighbours are joined. -/
theorem refers_settle (sum : Sum) : (settle sum).Refers H (Piece.fold sum.pieces) := by
  cases sum with
  | settled => exact .skip
  | str s plus => exact .before (.const _) (refers_addAt plus)
  | bytes b plus => exact .before (.const _) (refers_addAt plus)
  | list n plus | tuple n plus => exact .after (.arg rfl _) (refers_addAt plus)

theorem refers_store (id : Ident) : (store id).Refers H [] := by
  unfold store
  cases id.scope <;> first | exact .arg rfl _ | exact .fail _

/-- A name that is looked up is referred to, if its scope has no slots. -/
theorem refers_lookup (id : Ident) : (lookup id).Refers H (References.ident id) := by
  unfold lookup References.ident
  cases id.scope with
  | predeclared =>
    exact .after (.pos _) (.name _ fun _ => .reference rfl fun _ _ hH => .name hH.2)
  | universal => exact .name _ fun _ => .reference rfl fun _ _ hH => .name hH.2
  | _ => exact .after (.pos _) (.arg rfl _)

theorem refers_captureAll (fvs : List Binding) : (captureAll fvs).Refers H [] := by
  induction fvs with
  | nil => exact .skip
  | cons fv rest ih =>
    refine .after ?_ ih
    unfold capture
    cases fv.scope <;> first | exact .arg rfl _ | exact .fail _

theorem refers_binaryOp (pos : Position) (op : BinOp) : (binaryOp pos op).Refers H [] := by
  refine .after (.pos pos) ?_
  split
  · exact .fail _
  · split
    · exact .after (.op _) (.op _)
    · exact .op _

theorem refers_augmentedOp (pos : Position) (op : BinOp) : (augmentedOp pos op).Refers H [] := by
  unfold augmentedOp
  split
  · exact .after (.pos pos) (.op _)
  · exact .after (.pos pos) (.op _)
  · exact refers_binaryOp pos _

theorem refers_storeAll (ids : List Ident) : (storeAll ids).Refers H [] := by
  induction ids with
  | nil => exact .skip
  | cons id rest ih => exact .after (refers_store id) ih

theorem refers_strings (ss : List String) :
    (strings ss).Refers H (ss.map fun s => .constant (.str s)) := by
  induction ss with
  | nil => exact .skip
  | cons s rest ih => exact .append (.const _) ih

theorem refers_callWith (args : List Arg) (pos : Position) : (callWith args pos).Refers H [] := by
  unfold callWith
  split
  · exact .fail _
  · refine .after (.pos pos) (.arg ?_ _)
    cases Arg.anyStar args <;> cases Arg.anyStarStar args <;> rfl

end Lowering

open Lowering Piece

namespace Lowered.Refers

variable {H : Pool → Prop} {l l' : Lowered} {p : Plan} {refs : List Reference} {ps qs : List Piece}

/-- A value refers to what its pieces refer to once neighbours are joined. -/
theorem value (h : l.Refers H ps) : l.value.Refers H (fold ps) := by
  obtain ⟨refs, hfirst, hfold⟩ := h.first
  have hall := hfold []
  rw [List.append_nil, List.append_nil] at hall
  rw [hall]
  exact hfirst.append (refers_settle _)

theorem plain (h : p.Refers H refs) : (Lowered.plain p).Refers H [.other refs] where
  nonempty := List.cons_ne_nil _ _
  first := ⟨refs, h, fun qs => fold_other refs qs⟩
  further sum plus :=
    ⟨fold sum.pieces ++ refs, .before (.append (refers_settle sum) h) (refers_addAt _),
      fun qs => fold_append_other _ _ _⟩
  test := by
    rw [fold_singleton_other]
    exact .on h

theorem str (s : String) : (Lowered.str s).Refers H [.str s] where
  nonempty := List.cons_ne_nil _ _
  first := ⟨[], .skip, fun _ => rfl⟩
  further sum plus := by
    have hsettled := refers_settle (H := H) sum
    cases sum with
    | str before _ => exact ⟨[], .skip, fun qs => fold_str_str before s qs⟩
    | bytes b _ => exact ⟨_, hsettled, fun qs => fold_bytes_str b s qs⟩
    | settled | list _ _ | tuple _ _ => exact ⟨_, hsettled, fun _ => rfl⟩
  test := .on (.const _)

theorem bytes (b : List UInt8) : (Lowered.bytes b).Refers H [.bytes b] where
  nonempty := List.cons_ne_nil _ _
  first := ⟨[], .skip, fun _ => rfl⟩
  further sum plus := by
    have hsettled := refers_settle (H := H) sum
    cases sum with
    | bytes before _ => exact ⟨[], .skip, fun qs => fold_bytes_bytes before b qs⟩
    | str s _ => exact ⟨_, hsettled, fun qs => fold_str_bytes s b qs⟩
    | settled | list _ _ | tuple _ _ => exact ⟨_, hsettled, fun _ => rfl⟩
  test := .on (.const _)

theorem list (n : Nat) (h : p.Refers H refs) : (Lowered.list n p).Refers H [.other refs] where
  nonempty := List.cons_ne_nil _ _
  first := ⟨refs, h, fun qs => fold_other refs qs⟩
  further sum plus := by
    have hadded := (refers_settle sum).append h
    cases sum with
    | list _ _ => exact ⟨refs, h, fun qs => fold_other refs qs⟩
    | settled | str _ _ | bytes _ _ | tuple _ _ =>
      exact ⟨_, hadded, fun qs => fold_append_other _ _ _⟩
  test := by
    rw [fold_singleton_other]
    exact .on (.before h (.arg rfl _))

theorem tuple (n : Nat) (h : p.Refers H refs) : (Lowered.tuple n p).Refers H [.other refs] where
  nonempty := List.cons_ne_nil _ _
  first := ⟨refs, h, fun qs => fold_other refs qs⟩
  further sum plus := by
    have hadded := (refers_settle sum).append h
    cases sum with
    | tuple _ _ => exact ⟨refs, h, fun qs => fold_other refs qs⟩
    | settled | str _ _ | bytes _ _ | list _ _ =>
      exact ⟨_, hadded, fun qs => fold_append_other _ _ _⟩
  test := by
    rw [fold_singleton_other]
    exact .on (.before h (.arg rfl _))

/-- The parts of the right operand follow those that are pending behind the left one. -/
theorem plus (h : l.Refers H ps) (h' : l'.Refers H qs) (pos : Position) :
    (Lowered.plus l l' pos).Refers H (ps ++ [operand qs]) := by
  obtain ⟨refs, hfirst, hfold⟩ := h.first
  obtain ⟨refs', hfurther, hfold'⟩ := h'.further (l.part none).2 pos
  have hsum := hfirst.append hfurther
  have hpieces : ∀ rest, fold (ps ++ [operand qs] ++ rest) = (refs ++ refs') ++
      fold ((l'.part (some ((l.part none).2, pos))).2.pieces ++ rest) := by
    intro rest
    rw [List.append_assoc, List.singleton_append, hfold, hfold', List.append_assoc]
  have hall := hpieces []
  rw [List.append_nil, List.append_nil] at hall
  have hsettled := hsum.append (refers_settle (l'.part (some ((l.part none).2, pos))).2)
  rw [← hall] at hsettled
  -- a sum has two parts at least, so as an operand it is a whole
  have hoperand : operand (ps ++ [operand qs]) = .other (fold (ps ++ [operand qs])) := by
    cases hps : ps with
    | nil => exact absurd hps h.nonempty
    | cons p rest => cases rest <;> rfl
  refine ⟨by simp, ⟨_, hsum, hpieces⟩, fun sum plus => ?_, .on hsettled⟩
  rw [hoperand]
  exact (plain hsettled).further sum plus

end Lowered.Refers

/-! ## Trees -/

namespace Lowering

mutual

/-- The plans of an expression add instructions for its parts. -/
theorem refers_expr (x : Expr) {H : Pool → Prop} : (expr x).Refers H (References.pieces x) := by
  match x with
  | .ident id => exact .plain (refers_lookup id)
  | .literal (.str s) _ => exact .str s
  | .literal (.bytes b) _ => exact .bytes b
  | .literal (.int _) _ | .literal (.float _) _ => exact .plain (.const _)
  | .paren x =>
    have hx := refers_expr x (H := H)
    exact ⟨hx.nonempty, hx.first, hx.further, .on hx.value⟩
  | .list elems => exact .list _ (refers_exprs elems)
  | .tuple elems => exact .tuple _ (refers_exprs elems)
  | .dict items => exact .plain (.after (.op _) (refers_entries items))
  | .unary op x pos =>
    have hx := refers_expr x (H := H)
    have hplain := Lowered.Refers.plain (.before (.before hx.value (.pos pos))
      (.op (Build.unaryOpcode op)))
    cases op with
    | not =>
      refine ⟨hplain.nonempty, hplain.first, hplain.further, ?_⟩
      rw [References.pieces, fold_singleton_other]
      exact .not hx.test
    | _ => exact hplain
  | .binary op x y pos =>
    have hx := refers_expr x (H := H)
    have hy := refers_expr y (H := H)
    have hstrict : ∀ op, ((expr x).value ++ (expr y).value ++ binaryOp pos op).Refers H
        (fold (References.pieces x) ++ fold (References.pieces y)) := fun op =>
      .before (.append hx.value hy.value) (refers_binaryOp pos op)
    -- a branch on `and`, `or` and `not in` has a code of its own
    cases op with
    | and =>
      have hplain := Lowered.Refers.plain (.short false hx.value hy.value)
      refine ⟨hplain.nonempty, hplain.first, hplain.further, ?_⟩
      rw [References.pieces, fold_singleton_other]
      · exact .both hx.value hy.test
      · nofun
    | or =>
      have hplain := Lowered.Refers.plain (.short true hx.value hy.value)
      refine ⟨hplain.nonempty, hplain.first, hplain.further, ?_⟩
      rw [References.pieces, fold_singleton_other]
      · exact .either hx.value hy.test
      · nofun
    | notIn =>
      have hplain := Lowered.Refers.plain (hstrict .notIn)
      refine ⟨hplain.nonempty, hplain.first, hplain.further, ?_⟩
      rw [References.pieces, fold_singleton_other]
      · exact .not (.on (hstrict .isIn))
      · nofun
    | plus => exact .plus hx hy pos
    | _ => exact .plain (hstrict _)
  | .cond c a b =>
    exact .plain (.either (refers_expr c).test (refers_expr a).value (refers_expr b).value)
  | .index x i pos =>
    exact .plain (.before (.before (.append (refers_expr x).value (refers_expr i).value) (.pos _))
      (.op _))
  | .slice x lo hi step pos =>
    exact .plain
        (.before (.before (.append (.append (.append (.after (.pos _) (refers_expr x).value)
      (refers_bound lo)) (refers_bound hi)) (refers_bound step)) (.pos _)) (.op _))
  | .dot x name pos =>
    exact .plain (.append (refers_expr x).value (.name _ fun _ =>
      .after (.pos _) (.reference rfl fun _ _ hH => .name hH.2)))
  | .call f args pos =>
    exact .plain (.before (.append (.append (.append (refers_expr f).value (refers_plainArgs args))
      (refers_starArg args)) (refers_starStarArg args)) (refers_callWith args pos))
  | .comprehension body cs =>
    refine .plain (.after ?_ (refers_clauses cs (refers_collect body)))
    cases body with
    | elem x => exact .arg rfl _
    | entry e => exact .op _
  | .lambda f => exact .plain (refers_function f)

/-- Expressions refer to entries from the left. -/
theorem refers_exprs (xs : List Expr) {H : Pool → Prop} :
    (exprs xs).Refers H (References.exprs xs) := by
  match xs with
  | [] => exact .skip
  | x :: rest => exact .append (refers_expr x).value (refers_exprs rest)

theorem refers_bound (x : Option Expr) {H : Pool → Prop} :
    (bound x).Refers H (References.bound x) := by
  match x with
  | none => exact .op _
  | some x => exact (refers_expr x).value

theorem refers_entries (es : List Entry) {H : Pool → Prop} :
    (entries es).Refers H (References.entries es) := by
  match es with
  | [] => exact .skip
  | .mk k v pos :: rest =>
    exact .append (.before (.before (.append (.after (.op _) (refers_expr k).value)
      (refers_expr v).value) (.pos _)) (.op _)) (refers_entries rest)

theorem refers_plainArgs (args : List Arg) {H : Pool → Prop} :
    (plainArgs args).Refers H (References.plainArgs args) := by
  match args with
  | [] => exact .skip
  | .positional x :: rest => exact .append (refers_expr x).value (refers_plainArgs rest)
  | .named name x :: rest =>
    exact .append (.append (.const _) (refers_expr x).value) (refers_plainArgs rest)
  | .star x :: rest | .starStar x :: rest => exact refers_plainArgs rest

theorem refers_starArg (args : List Arg) {H : Pool → Prop} :
    (starArg args).Refers H (References.starArg args) := by
  match args with
  | [] => exact .skip
  | .star x :: rest =>
    unfold starArg References.starArg
    split
    · exact refers_starArg rest
    · exact (refers_expr x).value
  | .positional x :: rest | .named name x :: rest | .starStar x :: rest =>
    exact refers_starArg rest

theorem refers_starStarArg (args : List Arg) {H : Pool → Prop} :
    (starStarArg args).Refers H (References.starStarArg args) := by
  match args with
  | [] => exact .skip
  | .starStar x :: rest =>
    unfold starStarArg References.starStarArg
    split
    · exact refers_starStarArg rest
    · exact (refers_expr x).value
  | .positional x :: rest | .named name x :: rest | .star x :: rest =>
    exact refers_starStarArg rest

/-- Clauses refer to entries before what is inside them. -/
theorem refers_clauses (cs : List Clause) {H : Pool → Prop} {inner : Plan} {refs : List Reference}
    (hinner : inner.Refers H refs) :
    (clauses cs inner).Refers H (References.clauses cs ++ refs) := by
  match cs with
  | [] => exact hinner
  | .guard c :: rest =>
    rw [References.clauses, List.append_assoc]
    exact .guard (refers_expr c).test (refers_clauses rest hinner)
  | .loop vars iterable pos :: rest =>
    rw [References.clauses, List.append_assoc]
    exact .each false pos (refers_expr iterable).value (refers_assign pos vars)
      (refers_clauses rest hinner)

/-- What a comprehension collects refers to entries last. -/
theorem refers_collect (body : Body) {H : Pool → Prop} :
    (collect body).Refers H (References.collected body) := by
  match body with
  | .elem x => exact .before (.after (.op _) (refers_expr x).value) (.op _)
  | .entry (.mk k v pos) =>
    exact .before (.before (.append (.after (.op _) (refers_expr k).value) (refers_expr v).value)
      (.pos _)) (.op _)

/-- A target refers to entries where it is assigned to. -/
theorem refers_assign (pos : Position) (x : Expr) {H : Pool → Prop} :
    (assign pos x).Refers H (References.target x) := by
  match x with
  | .paren x => exact refers_assign pos x
  | .ident id => exact refers_store id
  | .tuple elems | .list elems => exact .after (.pos _) (.unpack _ (refers_assignAll pos elems))
  | .index x i lbrack =>
    exact .before (.before (.before (.append (.before (refers_expr x).value (.op _))
      (refers_expr i).value) (.op _)) (.pos _)) (.op _)
  | .dot x name dot =>
    exact .append (.before (refers_expr x).value (.op _)) (.name _ fun _ =>
      .after (.pos _) (.reference rfl fun _ _ hH => .name hH.2))
  -- no code is made for what cannot be assigned to, whatever is in it
  | .literal _ _ | .dict _ | .unary _ _ _ | .binary _ _ _ _ | .cond _ _ _ | .slice _ _ _ _ _
  | .call _ _ _ | .comprehension _ _ | .lambda _ => exact .fail _

theorem refers_assignAll (pos : Position) (xs : List Expr) {H : Pool → Prop} :
    (assignAll pos xs).Refers H (References.targets xs) := by
  match xs with
  | [] => exact .skip
  | x :: rest => exact .append (refers_assign pos x) (refers_assignAll pos rest)

/-- The index of the name of a field is used twice, before and behind what is done in between. -/
theorem refers_place (x : Expr) {H : Pool → Prop} {k : Plan → Plan} {refs : List Reference}
    (hk : ∀ {H' : Pool → Prop} {p : Plan}, p.Refers H' (References.stored x) →
      (k p).Refers H' (refs ++ References.stored x)) :
    (place x k).Refers H (References.place x ++ (refs ++ References.stored x)) := by
  match x with
  | .paren x => exact refers_place x hk
  | .ident id => exact .append (refers_lookup id) (hk (refers_store id))
  | .index x i lbrack =>
    exact .append (.before (.before (.before (.append (refers_expr x).value (refers_expr i).value)
      (.op _)) (.pos _)) (.op _)) (hk (.after (.pos _) (.op _)))
  | .dot x name dot =>
    rw [References.place, List.append_assoc]
    refine .append (.before (refers_expr x).value (.op _)) (.name _ fun _ => .append ?_ (hk ?_))
    · exact .after (.pos _) (.reference rfl fun _ _ hH => .name hH.2)
    · exact .after (.pos _) (.reference rfl fun _ _ hH => .name hH.2)
  | .literal _ _ | .dict _ | .unary _ _ _ | .binary _ _ _ _ | .cond _ _ _ | .slice _ _ _ _ _
  | .call _ _ _ | .comprehension _ _ | .lambda _ | .list _ | .tuple _ => exact .fail _

/-- A function refers to entries by its defaults, and is an entry itself. -/
theorem refers_function (f : Function) {H : Pool → Prop} :
    (function f).Refers H (References.function f) := by
  match f with
  | .mk name pos params body locals freeVars numKwonly hasVarargs hasKwargs =>
    refine .append (.before (.before (.after (.pos _) (refers_defaults params false))
      (refers_captureAll _)) (.arg rfl _)) (.func (stmts_eq body) (refers_stmts body) fun _ =>
        .reference rfl fun _ _ hH => ?_)
    obtain ⟨-, a, hindex, hrenders⟩ := hH
    exact .function hindex hrenders

/-- Defaults refer to entries from the left. -/
theorem refers_defaults (params : List Param) (afterStar : Bool) {H : Pool → Prop} :
    (defaults params afterStar).Refers H (References.defaults params) := by
  match params, afterStar with
  | [], _ => exact .skip
  | .optional id x :: rest, afterStar =>
    exact .append (refers_expr x).value (refers_defaults rest afterStar)
  | .required id :: rest, true => exact .after (.op _) (refers_defaults rest true)
  | .required id :: rest, false => exact refers_defaults rest false
  | .star :: rest, _ | .varargs _ :: rest, _ | .kwargs _ :: rest, _ =>
    exact refers_defaults rest true

/-- Statements refer to entries in order. -/
theorem refers_stmts (ss : List Stmt) {H : Pool → Prop} :
    (stmts ss).Refers H (References.stmts ss) := by
  match ss with
  | [] => exact .skip
  | s :: rest => exact .append (refers_stmt s) (refers_stmts rest)

/-- A statement refers to entries in the order of its parts. -/
theorem refers_stmt (s : Stmt) {H : Pool → Prop} : (stmt s).Refers H (References.stmt s) := by
  match s with
  | .expr x =>
    unfold stmt References.stmt
    -- an expression statement that is a literal emits nothing and so refers to nothing
    split
    · exact .skip
    · exact .before (refers_expr x).value (.op _)
  | .pass => exact .skip
  | .breakLoop | .continueLoop => exact .leave _
  | .ifElse c a b => exact .either (refers_expr c).test (refers_stmts a) (refers_stmts b)
  | .assign lhs rhs pos => exact .append (refers_expr rhs).value (refers_assign pos lhs)
  | .augAssign op lhs rhs pos =>
    rw [References.stmt, List.append_assoc]
    exact refers_place lhs fun hstored =>
      .append (.before (refers_expr rhs).value (refers_augmentedOp pos op)) hstored
  | .define id f => exact .before (refers_function f) (refers_store id)
  | .forLoop vars iterable body pos =>
    exact .each true pos (refers_expr iterable).value (refers_assign pos vars) (refers_stmts body)
  | .whileLoop c body => exact .whileLoop (refers_expr c).test (refers_stmts body)
  | .ret result => exact .before (refers_bound result) .ret
  | .load pos module modulePos names targets =>
    unfold stmt
    split
    · exact .fail _
    · exact .before
        (.before (.before (.append (.before (refers_strings names) (.load _)) (.const _))
        (.pos _)) (.arg rfl _)) (refers_storeAll _)

end

end Lowering

/-! ## Compilations -/

/-- In front of a part of a plan, the index that is handed out first for the part is that of what it
is asked for in some tables. -/
def Pool.Keeps (pool : Pool) (b : Builder) : Plan → Prop
  | .const c => ∃ i b', constantIndex c b = .ok i b' ∧ IndexOf pool.constants c i
  | .name s _ => ∃ i b', nameIndex s b = .ok i b' ∧ IndexOf pool.names s i
  | .func f body _ => ∃ a b' i b'', assemble f.pos body.emit b = .ok a b' ∧
      functionIndex (f.compiled a) b' = .ok i b'' ∧ IndexOf pool.functions (f.compiled a) i
  | _ => True

/-- An index that is handed out stays right while the rest of the part is emitted and tables
grow. -/
theorem Pool.keeps_of_emit {pool : Pool} {p : Plan} {b b' : Builder} (h : p.emit b = .ok () b')
    (hcov : b'.Covered pool) : pool.Keeps b p := by
  -- what was just interned has its index, and the rest of the plan only adds behind it
  cases p with
  | const c =>
    obtain ⟨i, b1, hi, hemit⟩ := bind_eq_ok.1 h
    have hcov1 := ((Extending.emitArg .constant i).of_ok hemit).covered.trans hcov
    refine ⟨i, b1, hi, ?_⟩
    cases hi
    exact indexOf_of_start (intern_spec b.constants c).1 hcov1.constants
  | name s k =>
    obtain ⟨i, b1, hi, hrest⟩ := bind_eq_ok.1 h
    have hcov1 := ((k i).extending_emit.of_ok hrest).covered.trans hcov
    refine ⟨i, b1, hi, ?_⟩
    cases hi
    exact indexOf_of_start (intern_spec b.names s).1 hcov1.names
  | func f body k =>
    obtain ⟨a, b1, ha, h⟩ := bind_eq_ok.1 h
    obtain ⟨i, b2, hi, hrest⟩ := bind_eq_ok.1 h
    have hcov2 := ((k i).extending_emit.of_ok hrest).covered.trans hcov
    refine ⟨a, b1, i, b2, ha, hi, ?_⟩
    cases hi
    exact indexOf_of_start (by simp) hcov2.functions
  | _ => trivial

namespace SourceFile

/-- **Tables are free of repetitions and shared.** At every point of every compilation, no name and
no constant has two entries. If the compilation succeeds, the tables at the point are the start of
those of the program, and the index that is handed out there is that of the same entry in the
program. In the code of the program, each instruction with such an index is one for a reference of
its tree and has the index of an equal entry, and so it is in the functions that it makes. -/
theorem tables_shared (f : SourceFile) :
    Distinct (stateOf (assemble ⟨1, 1⟩ (Build.stmts f.body) {})) ∧
      (∀ C next e, Plan.Context C → Lowering.stmts f.body = C next →
        Distinct (stateOf (assemble ⟨1, 1⟩ (C (.fail e)).emit {}))) ∧
      ∀ p, f.compile = .ok p →
        p.names.toList.Nodup ∧ p.constants.toList.Nodup ∧
        (∀ C next e, Plan.Context C → Lowering.stmts f.body = C next →
          ∃ b, assemble ⟨1, 1⟩ (C (.fail e)).emit {} = .error e b ∧ b.Covered p.pool ∧
            p.pool.Keeps b next) ∧
        (∃ a, p.toplevel = a.toCode "<toplevel>" ⟨1, 1⟩ f.body f.locals [] ∧
          p.pool.Renders ⟨1, 1⟩ f.body a) ∧
        (p.names.size ≤ 2 ^ 32 → ∀ s i, IndexOf p.names s i → p.names[i.toNat]? = some s) ∧
        (p.constants.size ≤ 2 ^ 32 →
          ∀ c i, IndexOf p.constants c i → p.constants[i.toNat]? = some c) ∧
        (p.functions.size ≤ 2 ^ 32 →
          ∀ c i, IndexOf p.functions c i → p.functions[i.toNat]? = some c) := by
  have hempty : Distinct {} := ⟨List.nodup_nil, List.nodup_nil⟩
  have hdistinct : ∀ q : Plan, Distinct (stateOf (assemble ⟨1, 1⟩ q.emit {})) := fun q =>
    (Extending.assemble ⟨1, 1⟩ q.extending_emit {}).distinct hempty
  refine ⟨Lowering.stmts_eq f.body ▸ hdistinct _, fun C _ e _ _ => hdistinct (C (.fail e)), ?_⟩
  intro p hp
  obtain ⟨a, b, hb, rfl⟩ := exists_of_compile hp
  have hcov := Builder.Covered.refl b
  have hend := hdistinct (Lowering.stmts f.body)
  rw [hb] at hend
  refine ⟨hend.names, hend.constants, ?_, ⟨a, rfl, ?_⟩, fun hsize _ _ h => h.getElem?_eq hsize,
    fun hsize _ _ h => h.getElem?_eq hsize, fun hsize _ _ h => h.getElem?_eq hsize⟩
  · intro C next e hC hbody
    rw [hbody] at hb
    -- compilation stopped at the point, whose tables the rest of it only extends
    obtain ⟨x, y, hx, hy, hxy⟩ := Cut.assemble ⟨1, 1⟩ (hC.cut next e) _ _ _ hb
    have hy' := hxy.trans hcov
    exact ⟨x, hx, (next.extending_emit.of_ok hy).covered.trans hy', Pool.keeps_of_emit hy hy'⟩
  · obtain ⟨-, -, -, hrenders⟩ := (Lowering.refers_stmts f.body).assemble (Lowering.stmts_eq _) hb
    exact hrenders b.pool hcov

/-- A function that makes another one, and a call of it. The inner function, the default of the
outer one and the arguments of the call share their constants. -/
def nestedFile : SourceFile where
  filename := "nested.star"
  body :=
    [ .define ⟨"f", ⟨1, 5⟩, .global, 0⟩
        (.mk "f" ⟨1, 1⟩ [.optional ⟨"x", ⟨1, 7⟩, .frame, 0⟩ (.literal (.int 1) ⟨1, 9⟩)]
          [ .ret (some (.lambda (.mk "lambda" ⟨2, 10⟩ []
              [ .ret (some (.binary .plus
                  (.dot (.ident ⟨"len", ⟨2, 18⟩, .universal, 0⟩) "name" ⟨2, 21⟩)
                  (.paren (.binary .plus (.literal (.str "a") ⟨2, 30⟩) (.literal (.str "b") ⟨2, 36⟩)
                    ⟨2, 34⟩)) ⟨2, 27⟩)) ]
              [] [] 0 false false))) ]
          [⟨"x", ⟨1, 7⟩, .frame, 0⟩] [] 0 false false),
      .expr (.call (.ident ⟨"f", ⟨3, 1⟩, .global, 0⟩)
        [ .positional (.literal (.float 0x3ff0000000000000) ⟨3, 3⟩),
          .named "ab" (.literal (.int 1) ⟨3, 10⟩) ] ⟨3, 2⟩) ]
  locals := []
  globals := [⟨"f", ⟨1, 5⟩, .global, 0⟩]
  recursion := false

/-- The text of the inner function is the keyword of the call behind it, and `1` and `1.0` are two
constants. At the point where the text gets its index, both functions around it are still without
code. -/
theorem tables_shared_nested : ∃ p, nestedFile.compile = .ok p ∧
    p.constants.toList = [.int 1, .str "ab", .float 0x3ff0000000000000] ∧
    p.names.toList = ["len", "name"] ∧ p.constants.toList.Nodup ∧
    (∃ a, p.pool.Renders ⟨1, 1⟩ nestedFile.body a) ∧
    ∃ C e b, Plan.Context C ∧ Lowering.stmts nestedFile.body = C (.const (.str "ab")) ∧
      assemble ⟨1, 1⟩ (C (.fail e)).emit {} = .error e b ∧ b.functions.size = 0 ∧
      ∃ i b', constantIndex (.str "ab") b = .ok i b' ∧ p.constants[i.toNat]? =
          some (.str "ab") := by
  have hcheck : nestedFile.compile.toOption.any (fun p => decide (p.constants.toList =
      [.int 1, .str "ab", .float 0x3ff0000000000000] ∧ p.names.toList = ["len", "name"])) =
          true := by
    decide +kernel
  obtain ⟨p, hp, hq⟩ := exists_ok_of_any hcheck
  obtain ⟨hconstants, hnames⟩ := of_decide_eq_true hq
  obtain ⟨-, hnodup, hpoints, ⟨a, -, hrenders⟩, -, hentry, -⟩ := (tables_shared nestedFile).2.2 p hp
  -- through both functions to the right operand of the sum
  have hcontext : ∃ C, Plan.Context C ∧ Lowering.stmts nestedFile.body = C (.const (.str "ab")) ∧
      (stateOf (assemble ⟨1, 1⟩ (C (.fail .tooManyArguments)).emit {})).functions.size = 0 := by
    refine ⟨_,
        .seqLeft _ (.seqLeft _ (.seqRight _ (.funcBody _ _ (.seqLeft _ (.seqLeft _ (.seqLeft _
      (.seqRight _ (.funcBody _ _ (.seqLeft _ (.seqLeft _ (.seqLeft _ (.seqRight _ (.seqLeft _
      (.seqRight _ (.seqRight _ (.seqLeft _ .hole)))))))))))))))), rfl, ?_⟩
    decide +kernel
  obtain ⟨C, hC, hbody, hfunctions⟩ := hcontext
  obtain ⟨b, hb, -, i, b', hi, hindex⟩ := hpoints C _ .tooManyArguments hC hbody
  rw [hb] at hfunctions
  have hsize : p.constants.size ≤ 2 ^ 32 := by
    rw [← Array.length_toList, hconstants]
    decide
  exact ⟨p, hp, hconstants, hnames, hnodup, ⟨a, hrenders⟩, C, _, b, hC, hbody, hb,
    hfunctions, i, b', hi, hentry hsize _ i hindex⟩

end SourceFile

end Starlark
