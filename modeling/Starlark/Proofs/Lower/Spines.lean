import Starlark.Proofs.Lower.Realize
import Starlark.Proofs.Lower.Translation

/-!
# Spines of sums

The spine of a sum `x + y + z` is its summands from the left. What is emitted for a sum is the code
of another spine, in which literals and displays of one kind that stand next to each other are one
summand: the code of its first summand, and for each further one its code and a `+`
(`Lowering.emit_sum`). The plan of the sum and that of this spine differ only in how their parts are
put together, so that they stand in the same places (`Lowering.at_sum`).
-/

set_option autoImplicit false

namespace Starlark

/-! ## Spines -/

/-- A summand: a literal or a display, which can be joined to its neighbours, or something else. -/
inductive Summand where
  | str (s : String)
  | bytes (b : List UInt8)
  | list (xs : List Expr)
  | tuple (xs : List Expr)
  | other (x : Expr)

/-- The summands of a sum, the further ones with the position of their `+`. -/
structure Spine where
  first : Summand
  rest : List (Position × Summand)

namespace Expr

/-- The summand that an expression is, in parentheses or not. -/
def summand : Expr → Summand
  | .paren x => x.summand
  | .literal (.str s) _ => .str s
  | .literal (.bytes b) _ => .bytes b
  | .list xs => .list xs
  | .tuple xs => .tuple xs
  | x => .other x

/-- The spine of an expression. The left operand of a sum belongs to its spine, in parentheses or
not. -/
def spine : Expr → Spine
  | .paren x => x.spine
  | .binary .plus x y pos => ⟨x.spine.first, x.spine.rest ++ [(pos, y.summand)]⟩
  | x => ⟨x.summand, []⟩

end Expr

namespace Summand

/-- The display that two displays of one kind are joined to. -/
def joinDisplays? : Summand → Summand → Option Summand
  | .list xs, .list ys => some (.list (xs ++ ys))
  | .tuple xs, .tuple ys => some (.tuple (xs ++ ys))
  | _, _ => none

/-- The summand that two literals or displays of one kind are joined to. -/
def join? : Summand → Summand → Option Summand
  | .str a, .str b => some (.str (a ++ b))
  | .bytes a, .bytes b => some (.bytes (a ++ b))
  | x, y => x.joinDisplays? y

/-- Emit the code of a summand. -/
def emit : Summand → Build Unit
  | .str s => Build.string s
  | .bytes b => Build.constant (.bytes b)
  | .list xs => do
    Build.exprs xs
    Build.emitArg .makeList (UInt32.ofNat xs.length)
  | .tuple xs => do
    Build.exprs xs
    Build.emitArg .makeTuple (UInt32.ofNat xs.length)
  | .other x => Build.settled (Build.expr x .value)

/-- The plan of a summand. -/
def plan : Summand → Plan
  | .str s => .const (.str s)
  | .bytes b => .const (.bytes b)
  | .list xs => Lowering.exprs xs ++ .arg .makeList (UInt32.ofNat xs.length)
  | .tuple xs => Lowering.exprs xs ++ .arg .makeTuple (UInt32.ofNat xs.length)
  | .other x => (Lowering.expr x).value

end Summand

namespace Spine

/-- Join neighbours. A summand that comes of it has the `+` of the first. -/
def joinFrom (join? : Summand → Summand → Option Summand) :
    Summand → List (Position × Summand) → Spine
  | x, [] => ⟨x, []⟩
  | x, (pos, y) :: rest =>
    match join? x y with
    | some z => joinFrom join? z rest
    | none => ⟨x, (pos, (joinFrom join? y rest).first) :: (joinFrom join? y rest).rest⟩

/-- The spine with neighbouring displays of one kind joined. -/
def joined (c : Spine) : Spine := joinFrom Summand.joinDisplays? c.first c.rest

/-- The spine with neighbouring literals and displays of one kind joined. -/
def folded (c : Spine) : Spine := joinFrom Summand.join? c.first c.rest

/-- From a summand on, no two displays of one kind stand next to each other. Tuple displays may at
the start, where there is nothing yet that they are added to. -/
def ApartFrom (start : Bool) : Summand → List (Position × Summand) → Prop
  | _, [] => True
  | x, (_, y) :: rest =>
    match x.joinDisplays? y with
    | none => ApartFrom false y rest
    | some (.tuple zs) => start = true ∧ ApartFrom true (.tuple zs) rest
    | some _ => False

/-- No two displays of one kind stand next to each other, but for tuples at the start. -/
def Apart (c : Spine) : Prop := ApartFrom true c.first c.rest

/-- Emit the code of further summands: for each its own and a `+`. -/
def emitRest : List (Position × Summand) → Build Unit
  | [] => return ()
  | (pos, y) :: rest => do
    y.emit
    Build.setPos pos
    Build.emit .plus
    emitRest rest

/-- Emit the code of a spine. -/
def emit (c : Spine) : Build Unit := do
  c.first.emit
  emitRest c.rest

/-- The plan of further summands. -/
def planRest : List (Position × Summand) → Plan
  | [] => .skip
  | (pos, y) :: rest => y.plan ++ Lowering.addAt (some pos) ++ planRest rest

/-- The plan of a spine. -/
def plan (c : Spine) : Plan := c.first.plan ++ planRest c.rest

end Spine

/-! ## The parts of a plan -/

namespace Plan

/-- The parts that a plan does one after another. -/
def parts : Plan → List Plan
  | .skip => []
  | .seq p q => p.parts ++ q.parts
  | p => [p]

@[simp] theorem parts_skip : parts .skip = [] := rfl

@[simp] theorem parts_append (p q : Plan) : (p ++ q).parts = p.parts ++ q.parts := rfl

/-- Emit plans one after another. -/
def emitAll : List Plan → Build Unit
  | [] => return ()
  | p :: rest => do
    p.emit
    emitAll rest

/-- Parts are emitted in order. -/
theorem emitAll_append (ps qs : List Plan) :
    emitAll (ps ++ qs) = (do emitAll ps; emitAll qs) := by
  induction ps with
  | nil => simp only [List.nil_append, emitAll, pure_bind]
  | cons p ps ih => simp only [List.cons_append, emitAll, ih, bind_assoc]

/-- A plan emits its parts. -/
theorem emitAll_parts (p : Plan) : emitAll p.parts = p.emit := by
  match p with
  | .skip => rfl
  | .seq p q =>
    rw [parts, emitAll_append, emitAll_parts p, emitAll_parts q, emit]
  | .pos _ | .op _ | .arg _ _ | .const _ | .name _ _ | .unpack _ _ | .either _ _ _ | .guard _ _
  | .short _ _ _ | .each _ _ _ _ _ | .whileLoop _ _ | .leave _ | .ret | .func _ _ _ | .load
      _ | .fail _ =>
    exact bind_pure_unit

/-- Plans stand in a graph one after another. -/
def AllAt (pool : Pool) (g : BlockGraph) (loops : List Loop) :
    List Plan → (s : Point) → (lo : Nat) → (q : Point) → (hi : Nat) → Prop
  | [], s, lo, q, hi => q = s ∧ hi = lo
  | p :: rest, s, lo, q, hi =>
    ∃ m mid, p.At pool g loops s lo m mid ∧ AllAt pool g loops rest m mid q hi

section

variable {pool : Pool} {g : BlockGraph} {loops : List Loop}

/-- Parts stand one behind the other. -/
theorem allAt_append {ps qs : List Plan} {s q : Point} {lo hi : Nat} :
    AllAt pool g loops (ps ++ qs) s lo q hi ↔
      ∃ m mid, AllAt pool g loops ps s lo m mid ∧ AllAt pool g loops qs m mid q hi := by
  induction ps generalizing s lo with
  | nil =>
    constructor
    · intro h
      exact ⟨s, lo, ⟨rfl, rfl⟩, h⟩
    · rintro ⟨_, _, ⟨rfl, rfl⟩, h⟩
      exact h
  | cons p ps ih =>
    constructor
    · rintro ⟨m, mid, hp, h⟩
      obtain ⟨m', mid', hps, hqs⟩ := ih.1 h
      exact ⟨m', mid', ⟨m, mid, hp, hps⟩, hqs⟩
    · rintro ⟨m', mid', ⟨m, mid, hp, hps⟩, hqs⟩
      exact ⟨m, mid, hp, ih.2 ⟨m', mid', hps, hqs⟩⟩

theorem allAt_singleton {p : Plan} {s q : Point} {lo hi : Nat} :
    AllAt pool g loops [p] s lo q hi ↔ p.At pool g loops s lo q hi := by
  constructor
  · rintro ⟨_, _, h, rfl, rfl⟩
    exact h
  · intro h
    exact ⟨q, hi, h, rfl, rfl⟩

/-- A plan stands where its parts do. -/
theorem allAt_parts (p : Plan) {s q : Point} {lo hi : Nat} :
    AllAt pool g loops p.parts s lo q hi ↔ p.At pool g loops s lo q hi := by
  match p with
  | .skip => exact Iff.rfl
  | .seq p r =>
    rw [parts, allAt_append]
    constructor
    · rintro ⟨m, mid, hp, hr⟩
      exact ⟨m, mid, (allAt_parts p).1 hp, (allAt_parts r).1 hr⟩
    · rintro ⟨m, mid, hp, hr⟩
      exact ⟨m, mid, (allAt_parts p).2 hp, (allAt_parts r).2 hr⟩
  | .pos _ | .op _ | .arg _ _ | .const _ | .name _ _ | .unpack _ _ | .either _ _ _ | .guard _ _
  | .short _ _ _ | .each _ _ _ _ _ | .whileLoop _ _ | .leave _ | .ret | .func _ _ _ | .load
      _ | .fail _ =>
    exact allAt_singleton

end

end Plan

/-! ## Lowering a spine -/

namespace Lowering

/-- The parts of expressions are those of each in turn. -/
theorem parts_exprs_append (xs ys : List Expr) :
    (exprs (xs ++ ys)).parts = (exprs xs).parts ++ (exprs ys).parts := by
  induction xs with
  | nil => rfl
  | cons x xs ih => simp only [List.cons_append, exprs, Plan.parts_append, ih, List.append_assoc]

/-- A part of a plan and what is pending behind it, up to how the part is put together. -/
def Alike (x y : Plan × Sum) : Prop := x.1.parts = y.1.parts ∧ x.2 = y.2

/-- A summand as long as it is the last one, and the `+` before it if it is not the first. -/
def last (plus : Option Position) : Summand → Plan × Sum
  | .str s => (.skip, .str s plus)
  | .bytes b => (.skip, .bytes b plus)
  | .list xs => (exprs xs, .list xs.length plus)
  | .tuple xs => (exprs xs, .tuple xs.length plus)
  | .other x => ((expr x).value ++ addAt plus, .settled)

/-- Once something follows, the last summand is added. -/
theorem parts_settled_last (plus : Option Position) (x : Summand) :
    (settled (last plus x)).parts = (x.plan ++ addAt plus).parts := by
  cases x <;> simp [settled, last, settle, Summand.plan]

/-- A summand is added behind others. -/
def further (sum : Sum) (pos : Position) : Summand → Plan × Sum
  | .str s => (Lowered.str s).part (some (sum, pos))
  | .bytes b => (Lowered.bytes b).part (some (sum, pos))
  | .list xs => (Lowered.list xs.length (exprs xs)).part (some (sum, pos))
  | .tuple xs => (Lowered.tuple xs.length (exprs xs)).part (some (sum, pos))
  | .other x => (Lowered.plain (expr x).value).part (some (sum, pos))

/-- An expression is lowered as the summand that it is. -/
theorem part_some_alike (x : Expr) (sum : Sum) (pos : Position) :
    Alike ((expr x).part (some (sum, pos))) (further sum pos x.summand) := by
  match x with
  | .paren x => exact part_some_alike x sum pos
  | .literal (.str s) _ | .literal (.bytes b) _ | .list xs | .tuple xs => exact ⟨rfl, rfl⟩
  | .binary o x y p => cases o <;> exact ⟨by simp [expr, further, Expr.summand, Lowered.plain,
      Lowered.value, Lowered.plus, settled, settle], rfl⟩
  | .unary o x p => cases o <;> exact ⟨by simp [expr, further, Expr.summand, Lowered.plain,
      Lowered.value, settled, settle], rfl⟩
  | .literal (.int _) _ | .literal (.float _) _ | .ident _ | .dict _ | .cond _ _ _ | .index _ _ _
  | .slice _ _ _ _ _ | .dot _ _ _ | .call _ _ _ | .comprehension _ _ | .lambda _ =>
    exact ⟨by simp [expr, further, Expr.summand, Lowered.plain, Lowered.value, settled,
        settle], rfl⟩

/-- Lower further summands behind those that are lowered already. -/
def summands (x : Plan × Sum) (rest : List (Position × Summand)) : Plan × Sum :=
  rest.foldl (fun x (pos, y) => (x.1 ++ (further x.2 pos y).1, (further x.2 pos y).2)) x

/-- The next summand is added to what there is. -/
theorem summands_cons (x : Plan × Sum) (pos : Position) (y : Summand)
    (rest : List (Position × Summand)) : summands x ((pos, y) :: rest) =
      summands (x.1 ++ (further x.2 pos y).1, (further x.2 pos y).2) rest := rfl

/-- A sum is lowered as its spine. -/
theorem part_none_alike (x : Expr) :
    Alike ((expr x).part none) (summands (last none x.spine.first) x.spine.rest) := by
  -- only a sum goes on to the left; everything else is the first summand
  match x with
  | .paren x => exact part_none_alike x
  | .literal (.str s) _ | .literal (.bytes b) _ | .list xs | .tuple xs => exact ⟨rfl, rfl⟩
  | .binary o x y pos =>
    cases o with
    | plus =>
      obtain ⟨hplan, hsum⟩ := part_none_alike x
      obtain ⟨hplan', hsum'⟩ := part_some_alike y ((expr x).part none).2 pos
      simp only [Expr.spine, summands, List.foldl_append, List.foldl_cons, List.foldl_nil]
      rw [summands] at hplan hsum
      constructor
      · rw [Plan.parts_append, ← hplan, ← hsum, ← hplan']
        rfl
      · rw [← hsum, ← hsum']
        rfl
    | _ => exact ⟨by simp [expr, summands, last, Expr.summand, Expr.spine, Lowered.plain,
        Lowered.value, settled, settle, addAt], rfl⟩
  | .unary o x p => cases o <;> exact ⟨by simp [expr, summands, last, Expr.summand, Expr.spine,
      Lowered.plain, Lowered.value, settled, settle, addAt], rfl⟩
  | .literal (.int _) _ | .literal (.float _) _ | .ident _ | .dict _ | .cond _ _ _ | .index _ _ _
  | .slice _ _ _ _ _ | .dot _ _ _ | .call _ _ _ | .comprehension _ _ | .lambda _ =>
    exact ⟨by simp [expr, summands, last, Expr.summand, Expr.spine, Lowered.plain, Lowered.value,
      settled, settle, addAt], rfl⟩

/-- A summand that is joined to the last one. -/
theorem further_of_some {x y z : Summand} (h : x.join? y = some z) (plus : Option Position)
    (pos : Position) : Alike ((last plus x).1 ++ (further (last plus x).2 pos y).1,
      (further (last plus x).2 pos y).2) (last plus z) := by
  have hdisplays : ∀ xs ys : List Expr,
      (exprs xs ++ exprs ys).parts = (exprs (xs ++ ys)).parts := fun xs ys =>
    (parts_exprs_append xs ys).symm
  cases x <;> cases y <;> cases h
  · exact ⟨rfl, rfl⟩
  · exact ⟨rfl, rfl⟩
  · exact ⟨hdisplays _ _, by simp [further, Lowered.list, last]⟩
  · exact ⟨hdisplays _ _, by simp [further, Lowered.tuple, last]⟩

/-- A summand that is not joined to the last one. -/
theorem further_of_none {x y : Summand} (h : x.join? y = none) (plus : Option Position)
    (pos : Position) : Alike (further (last plus x).2 pos y)
      (settle (last plus x).2 ++ (last (some pos) y).1, (last (some pos) y).2) := by
  cases x <;> cases y <;> first
    | exact ⟨by simp [further, last, Lowered.str, Lowered.bytes, Lowered.list, Lowered.tuple,
        Lowered.plain], rfl⟩
    | cases h

/-- Spines that start alike go on alike. -/
theorem Alike.summands {a b : Plan × Sum} (h : Alike a b) (rest : List (Position × Summand)) :
    Alike (summands a rest) (summands b rest) := by
  induction rest generalizing a b with
  | nil => exact h
  | cons y rest ih =>
    obtain ⟨pos, y⟩ := y
    obtain ⟨hplan, hsum⟩ := h
    rw [summands_cons, summands_cons, hsum]
    exact ih ⟨by rw [Plan.parts_append, Plan.parts_append, hplan], rfl⟩

/-- Spines that are alike settle alike. -/
theorem Alike.settled {a b : Plan × Sum} (h : Alike a b) :
    (settled a).parts = (settled b).parts := by
  rw [Lowering.settled, Lowering.settled, Plan.parts_append, Plan.parts_append, h.1, h.2]

/-- What is lowered behind a plan is the spine in which neighbours are joined. -/
theorem parts_summands (p : Plan) (plus : Option Position) (x : Summand)
    (rest : List (Position × Summand)) :
    (settled (summands (p ++ (last plus x).1, (last plus x).2) rest)).parts =
      p.parts ++ (((Spine.joinFrom Summand.join? x rest).first.plan ++ addAt plus).parts ++
        (Spine.planRest (Spine.joinFrom Summand.join? x rest).rest).parts) := by
  induction rest generalizing p plus x with
  | nil =>
    have hlast := parts_settled_last plus x
    simp only [settled, Plan.parts_append] at hlast
    simp only [summands, List.foldl_nil, settled, Plan.parts_append, Spine.joinFrom, Spine.planRest,
      Plan.parts_skip, List.append_nil, List.append_assoc, hlast]
  | cons y rest ih =>
    obtain ⟨pos, y⟩ := y
    rw [summands_cons]
    -- two displays that join are one summand from here on; otherwise the first of them is settled
    cases hjoin : x.join? y with
    | some z =>
      obtain ⟨hplan, hsum⟩ := further_of_some hjoin plus pos
      have halike : Alike (p ++ (last plus x).1 ++ (further (last plus x).2 pos y).1,
          (further (last plus x).2 pos y).2) (p ++ (last plus z).1, (last plus z).2) := by
        refine ⟨?_, hsum⟩
        simp only [Plan.parts_append, List.append_assoc] at hplan ⊢
        rw [hplan]
      rw [(halike.summands rest).settled, ih p plus z]
      simp only [Spine.joinFrom, hjoin]
    | none =>
      obtain ⟨hplan, hsum⟩ := further_of_none hjoin plus pos
      have hlast := parts_settled_last plus x
      have halike : Alike (p ++ (last plus x).1 ++ (further (last plus x).2 pos y).1,
          (further (last plus x).2 pos y).2)
          (p ++ (x.plan ++ addAt plus) ++ (last (some pos) y).1, (last (some pos) y).2) := by
        refine ⟨?_, hsum⟩
        simp only [settled, Plan.parts_append, List.append_assoc] at hplan hlast ⊢
        rw [hplan, ← List.append_assoc (last plus x).1.parts, hlast]
        simp only [List.append_assoc]
      rw [(halike.summands rest).settled, ih (p ++ (x.plan ++ addAt plus)) (some pos) y]
      simp only [Spine.joinFrom, hjoin, Spine.planRest, Plan.parts_append, List.append_assoc]

/-- The plan of a sum has the parts of the plan of its folded spine. -/
theorem parts_value (x : Expr) : (expr x).value.parts = x.spine.folded.plan.parts := by
  have hsum := parts_summands .skip none x.spine.first x.spine.rest
  have halike : Alike (.skip ++ (last none x.spine.first).1, (last none x.spine.first).2)
      (last none x.spine.first) := ⟨rfl, rfl⟩
  rw [Lowered.value, (part_none_alike x).settled, ← (halike.summands x.spine.rest).settled, hsum]
  simp only [Plan.parts_skip, List.nil_append, Plan.parts_append, addAt, List.append_nil,
    Spine.plan, Spine.folded]

/-- A sum stands where its folded spine stands. -/
theorem at_sum (x : Expr) {pool : Pool} {g : BlockGraph} {loops : List Loop} {s q : Point}
    {lo hi : Nat} : (expr x).value.At pool g loops s lo q hi ↔
      x.spine.folded.plan.At pool g loops s lo q hi := by
  rw [← Plan.allAt_parts, parts_value, Plan.allAt_parts]

/-- The plan of a summand is its code. -/
theorem emit_plan (x : Summand) : x.plan.emit = x.emit := by
  cases x with
  | str s => rfl
  | bytes b => rfl
  | list xs => rw [Summand.plan, Plan.emit_append, ← exprs_eq, Summand.emit, Plan.emit]
  | tuple xs => rw [Summand.plan, Plan.emit_append, ← exprs_eq, Summand.emit, Plan.emit]
  | other x => rw [Summand.plan, Summand.emit, expr_eq, settled_build_value]

theorem emit_planRest (rest : List (Position × Summand)) :
    (Spine.planRest rest).emit = Spine.emitRest rest := by
  induction rest with
  | nil => rfl
  | cons y rest ih =>
    obtain ⟨pos, y⟩ := y
    simp only [Spine.planRest, Plan.emit_append, emit_plan, emit_addAt, Build.addAt, ih, bind_assoc,
      Spine.emitRest]

/-- What is emitted for a sum is the code of its folded spine. -/
theorem emit_sum (x : Expr) : Build.settled (Build.expr x .value) = x.spine.folded.emit := by
  rw [expr_eq, settled_build_value, ← Plan.emitAll_parts, parts_value, Plan.emitAll_parts,
    Spine.plan, Plan.emit_append, emit_plan, emit_planRest, Spine.emit]

end Lowering

end Starlark
