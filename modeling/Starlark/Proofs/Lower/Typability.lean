import Starlark.Proofs.Lower.Emits
import Starlark.Proofs.Lower.Shapes

/-!
# Resolved trees are typed

The plan of a resolved tree is typed by the shapes of the stack: an expression pushes its value,
whatever the stack is, a test leaves the stack as it was, and so does a statement
(`Lowering.expr_typed`, `Lowering.stmts_typed`). So a file that keeps the rules about shapes is
compiled, unless one of its functions needs too many bytes (`compile_total`).
-/

set_option autoImplicit false

namespace Starlark

section

variable {r : Rules} {link : Linkage} {c : Scopes}

/-- A plan replaces the top `m` values by `n` values, whatever they are and wherever it stands. -/
def Plan.Turns (r : Rules) (link : Linkage) (c : Scopes) (p : Plan) (m n : Nat) : Prop :=
  ∀ (loops : Option (List (Shape × Shape))) (d : Shape) (ks : List Known), ks.length = m →
    ∃ ks' : List Known, ks'.length = n ∧
      p.Typed (shapeTyping r link) c loops (d.push ks) (d.push ks')

namespace Plan.Turns

variable {p q : Plan} {m n k : Nat}

theorem skip (m : Nat) : Plan.skip.Turns r link c m m :=
  fun _ _ ks hks => ⟨ks, hks, rfl⟩

theorem pos (pos : Position) (m : Nat) : (Plan.pos pos).Turns r link c m m :=
  fun _ _ ks hks => ⟨ks, hks, rfl⟩

/-- Plans in sequence: the second takes what the first leaves. -/
theorem seq (hp : p.Turns r link c m k) (hq : q.Turns r link c k n) :
    (p ++ q).Turns r link c m n := by
  intro loops d ks hks
  obtain ⟨ks1, h1, hp⟩ := hp loops d ks hks
  obtain ⟨ks2, h2, hq⟩ := hq loops d ks1 h1
  exact ⟨ks2, h2, d.push ks1, hp, hq⟩

/-- What is below is not touched. -/
theorem above (hp : p.Turns r link c m n) (j : Nat) : p.Turns r link c (m + j) (n + j) := by
  intro loops d ks hks
  obtain ⟨ks', hks', hp⟩ := hp loops (d.push (ks.drop m)) (ks.take m) (by simp; omega)
  rw [Shape.push_push, Shape.push_push, List.take_append_drop] at hp
  exact ⟨ks' ++ ks.drop m, by simp [hks']; omega, hp⟩

/-- A plan that pushes one value. -/
theorem value (hp : p.Turns r link c 0 1) (loops : Option (List (Shape × Shape))) (d : Shape) :
    ∃ k, p.Typed (shapeTyping r link) c loops d (d.push [k]) := by
  obtain ⟨ks, hks, hp⟩ := hp loops d [] rfl
  obtain ⟨k, rfl⟩ := List.length_eq_one_iff.1 hks
  exact ⟨k, hp⟩

/-- A plan that leaves the stack as it was. -/
theorem keep (hp : p.Turns r link c 0 0) (loops : Option (List (Shape × Shape))) (d : Shape) :
    p.Typed (shapeTyping r link) c loops d d := by
  obtain ⟨ks, hks, hp⟩ := hp loops d [] rfl
  obtain rfl := List.length_eq_zero_iff.1 hks
  exact hp

/-- A plan that takes one value away. -/
theorem take (hp : p.Turns r link c 1 0) (loops : Option (List (Shape × Shape))) (d : Shape)
    (k : Known) : p.Typed (shapeTyping r link) c loops (d.push [k]) d := by
  obtain ⟨ks, hks, hp⟩ := hp loops d [k] rfl
  obtain rfl := List.length_eq_zero_iff.1 hks
  exact hp

/-- An instruction without operand turns the stack as its move says. -/
theorem op {o : Opcode} (hplain : o.isPlain = true) (harg : o.hasArg = false)
    (h : ∀ (d : Shape) (ks : List Known), ks.length = m →
      ∃ ks', ks'.length = n ∧ Moves r link c o 0 (d.push ks) (d.push ks')) :
    (Plan.op o).Turns r link c m n := by
  intro loops d ks hks
  obtain ⟨ks', hks', hmove⟩ := h d ks hks
  exact ⟨ks', hks', hplain, harg, _, hmove, Shape.le_refl _⟩

/-- An instruction with operand turns the stack as its move says. -/
theorem arg {o : Opcode} {i : UInt32} (hplain : o.isPlain = true) (harg : o.hasArg = true)
    (h : ∀ (d : Shape) (ks : List Known), ks.length = m →
      ∃ ks', ks'.length = n ∧ Moves r link c o i (d.push ks) (d.push ks')) :
    (Plan.arg o i).Turns r link c m n := by
  intro loops d ks hks
  obtain ⟨ks', hks', hmove⟩ := h d ks hks
  exact ⟨ks', hks', hplain, harg, _, hmove, Shape.le_refl _⟩

/-- An instruction that pushes a value. -/
theorem pushArg {o : Opcode} {i : UInt32} {k : Known} (hplain : o.isPlain = true)
    (harg : o.hasArg = true) (h : ∀ d, Moves r link c o i d (d.push [k])) :
    (Plan.arg o i).Turns r link c 0 1 := by
  apply arg hplain harg
  intro d ks hks
  obtain rfl := List.length_eq_zero_iff.1 hks
  exact ⟨[k], rfl, h d⟩

/-- An instruction that stores a value. -/
theorem storeArg {o : Opcode} {i : UInt32} (hplain : o.isPlain = true)
    (harg : o.hasArg = true) (h : ∀ k d, Moves r link c o i (d.push [k]) d) :
    (Plan.arg o i).Turns r link c 1 0 := by
  apply arg hplain harg
  intro d ks hks
  obtain ⟨k, rfl⟩ := List.length_eq_one_iff.1 hks
  exact ⟨[], rfl, h k d⟩

/-- The instructions that push a value which is always there. -/
theorem pushOp {o : Opcode} (h : o.isPush = true) : (Plan.op o).Turns r link c 0 1 := by
  apply op (by cases o <;> first | rfl | cases h) (by cases o <;> first | rfl | cases h)
  intro d ks hks
  obtain rfl := List.length_eq_zero_iff.1 hks
  exact ⟨[.any], rfl, .push h d⟩

/-- The instructions that replace the topmost value. -/
theorem unaryOp {o : Opcode} (h : o.isUnary = true) : (Plan.op o).Turns r link c 1 1 := by
  apply op (by cases o <;> first | rfl | cases h) (by cases o <;> first | rfl | cases h)
  intro d ks hks
  obtain ⟨k, rfl⟩ := List.length_eq_one_iff.1 hks
  exact ⟨[.any], rfl, .unary h k d⟩

/-- The instructions that replace the two topmost values. -/
theorem binaryOp {o : Opcode} (h : o.isBinary = true) : (Plan.op o).Turns r link c 2 1 := by
  apply op (by cases o <;> first | rfl | cases h) (by cases o <;> first | rfl | cases h)
  intro d ks hks
  obtain ⟨y, x, rfl⟩ := List.length_eq_two.1 hks
  exact ⟨[.any], rfl, .binary h x y d⟩

theorem popOp : (Plan.op .pop).Turns r link c 1 0 := by
  apply op rfl rfl
  intro d ks hks
  obtain ⟨k, rfl⟩ := List.length_eq_one_iff.1 hks
  exact ⟨[], rfl, .pop k d⟩

theorem dupOp : (Plan.op .dup).Turns r link c 1 2 := by
  apply op rfl rfl
  intro d ks hks
  obtain ⟨k, rfl⟩ := List.length_eq_one_iff.1 hks
  exact ⟨[k, k], rfl, .dup k d⟩

theorem dup2Op : (Plan.op .dup2).Turns r link c 2 4 := by
  apply op rfl rfl
  intro d ks hks
  obtain ⟨y, x, rfl⟩ := List.length_eq_two.1 hks
  exact ⟨[y, x, y, x], rfl, .dup2 x y d⟩

theorem exchOp : (Plan.op .exch).Turns r link c 2 2 := by
  apply op rfl rfl
  intro d ks hks
  obtain ⟨y, x, rfl⟩ := List.length_eq_two.1 hks
  exact ⟨[x, y], rfl, .exch x y d⟩

/-- Assigning to an element takes the container, the index and the value. -/
theorem setIndexOp : (Plan.op .setIndex).Turns r link c 3 0 :=
  op rfl rfl fun d ks hks => ⟨[], rfl, .setIndex ks hks d⟩

/-- A slice takes the value, its bounds and its step. -/
theorem sliceOp : (Plan.op .slice).Turns r link c 4 1 :=
  op rfl rfl fun d ks hks => ⟨[.any], rfl, .slice ks hks d⟩

/-- A list takes its elements. -/
theorem makeListArg (n : Nat) : (Plan.arg .makeList (UInt32.ofNat n)).Turns r link c n 1 :=
  arg rfl rfl fun d ks hks => ⟨[.list], rfl, hks ▸ .makeList ks d⟩

theorem makeTupleArg (n : Nat) : (Plan.arg .makeTuple (UInt32.ofNat n)).Turns r link c n 1 :=
  arg rfl rfl fun d ks hks => ⟨[.any], rfl, hks ▸ .makeTuple ks d⟩

theorem const (x : Constant) : (Plan.const x).Turns r link c 0 1 := by
  intro loops d ks hks
  obtain rfl := List.length_eq_zero_iff.1 hks
  exact ⟨[.ofConstant x], rfl, fun i hi => ⟨_, .constant hi d, Shape.le_refl _⟩⟩

end Plan.Turns

/-! ## Parts of expressions -/

/-- The number of values below the pending part of a sum. -/
def Sum.below : Option Position → Nat
  | none => 0
  | some _ => 1

/-- The number of values that a pending sum has on the stack. -/
def Sum.height : Sum → Nat
  | .settled => 1
  | .str _ plus | .bytes _ plus => Sum.below plus
  | .list n plus | .tuple n plus => n + Sum.below plus

/-- The plan of an expression pushes its value, and its test leaves the stack as it was. -/
structure Lowered.Good (r : Rules) (link : Linkage) (c : Scopes) (l : Lowered) : Prop where
  first : (l.part none).1.Turns r link c 0 (l.part none).2.height
  further : ∀ sum plus, (l.part (some (sum, plus))).1.Turns r link c sum.height
    (l.part (some (sum, plus))).2.height
  test : ∀ d, l.test.Typed (shapeTyping r link) c d d d

namespace Lowering

/-- A sum takes what is below it, and what is added. -/
theorem turns_addAt (plus : Option Position) :
    (addAt plus).Turns r link c (1 + Sum.below plus) 1 := by
  cases plus with
  | none => exact .skip 1
  | some pos => exact (Plan.Turns.pos pos 2).seq (.binaryOp rfl)

/-- A sum that is settled leaves one value. -/
theorem turns_settle (sum : Sum) : (settle sum).Turns r link c sum.height 1 := by
  have literal : ∀ x plus, (Plan.const x ++ addAt plus).Turns r link c (Sum.below plus) 1 := by
    intro x plus
    have hx : (Plan.const x).Turns r link c 0 1 := .const x
    have hx := hx.above (Sum.below plus)
    rw [Nat.zero_add] at hx
    exact hx.seq (turns_addAt plus)
  cases sum with
  | settled => exact .skip 1
  | str s plus => exact literal (.str s) plus
  | bytes b plus => exact literal (.bytes b) plus
  | list n plus => exact ((Plan.Turns.makeListArg n).above _).seq (turns_addAt plus)
  | tuple n plus => exact ((Plan.Turns.makeTupleArg n).above _).seq (turns_addAt plus)

end Lowering

namespace Lowered

open Lowering

variable {l : Lowered} {p : Plan}

/-- A good expression leaves one value. -/
theorem Good.value (h : l.Good r link c) : l.value.Turns r link c 0 1 :=
  h.first.seq (turns_settle _)

/-- A test of a value. -/
theorem typed_on (hp : p.Turns r link c 0 1) (d : Shape) :
    (Test.on p).Typed (shapeTyping r link) c d d d := by
  obtain ⟨k, hp⟩ := hp.value none d
  exact ⟨_, hp, d, d, .inl ⟨rfl, k, rfl, rfl⟩, Shape.le_refl d, Shape.le_refl d⟩

theorem good_plain (hp : p.Turns r link c 0 1) : (plain p).Good r link c where
  first := hp
  further sum plus := ((turns_settle sum).seq (hp.above 1)).seq (turns_addAt (some plus))
  test := typed_on hp

/-- An expression whose part stays pending, unless it is joined to the part before. -/
theorem good_str (s : String) : (str s).Good r link c where
  first := .skip 0
  further sum plus := by
    cases sum with
    | str before plus' => exact .skip _
    | _ => exact turns_settle _
  test := typed_on (.const _)

theorem good_bytes (b : List UInt8) : (bytes b).Good r link c where
  first := .skip 0
  further sum plus := by
    cases sum with
    | bytes before plus' => exact .skip _
    | _ => exact turns_settle _
  test := typed_on (.const _)

/-- A display of a list takes its elements, unless it is joined with its neighbour. -/
theorem good_list {n : Nat} (hp : p.Turns r link c 0 n) : (list n p).Good r link c where
  first := hp
  further sum plus := by
    cases sum with
    | list before plus' =>
      have h := hp.above (before + Sum.below plus')
      rw [Nat.zero_add, ← Nat.add_assoc, Nat.add_comm n] at h
      exact h
    | _ => exact (turns_settle _).seq (hp.above 1)
  test := typed_on (hp.seq (.makeListArg n))

theorem good_tuple {n : Nat} (hp : p.Turns r link c 0 n) : (tuple n p).Good r link c where
  first := hp
  further sum plus := by
    cases sum with
    | tuple before plus' =>
      have h := hp.above (before + Sum.below plus')
      rw [Nat.zero_add, ← Nat.add_assoc, Nat.add_comm n] at h
      exact h
    | _ => exact (turns_settle _).seq (hp.above 1)
  test := typed_on (hp.seq (.makeTupleArg n))

/-- The sum of two good expressions is good, whether they are joined or not. -/
theorem good_plus {x y : Lowered} (hx : x.Good r link c) (hy : y.Good r link c) (pos : Position) :
    (plus x y pos).Good r link c := by
  have hsum := hx.first.seq (hy.further (x.part none).2 pos)
  have hvalue := hsum.seq (turns_settle _)
  exact ⟨hsum, (good_plain hvalue).further, typed_on hvalue⟩

end Lowered

namespace Lowering

/-! ## Variables and operators -/

/-- A store takes one value. -/
theorem turns_store {id : Ident} (h : c.Assigns r id) : (store id).Turns r link c 1 0 := by
  obtain ⟨hscope, huse⟩ := h
  unfold store
  unfold Scopes.Uses at huse
  rcases hscope with hs | hs | hs <;> rw [hs] at huse ⊢
  · exact .storeArg rfl rfl fun k d => .setLocal huse k d
  · exact .storeArg rfl rfl fun k d => .setLocalCell huse k d
  · exact .storeArg rfl rfl fun k d => .setGlobal huse k d

/-- An instruction that pushes what a name stands for. -/
theorem turns_named {o : Opcode} {s : String} (hplain : o.isPlain = true) (harg : o.hasArg = true)
    (h : ∀ i d, link.name s i → Moves r link c o i d (d.push [.any])) :
    (Plan.name s fun i => .arg o i).Turns r link c 0 1 := by
  intro loops d ks hks
  obtain rfl := List.length_eq_zero_iff.1 hks
  exact ⟨[.any], rfl, fun i hi => ⟨hplain, harg, _, h i d hi, Shape.le_refl _⟩⟩

/-- A lookup leaves one value. -/
theorem turns_lookup {id : Ident} (h : c.Uses r id) : (lookup id).Turns r link c 0 1 := by
  unfold Scopes.Uses at h
  unfold lookup
  cases hs : id.scope <;> rw [hs] at h <;> simp only
  case frame => exact (Plan.Turns.pos _ 0).seq (.pushArg rfl rfl fun d => .getLocal h d)
  case cell => exact (Plan.Turns.pos _ 0).seq (.pushArg rfl rfl fun d => .localCell h d)
  case free => exact (Plan.Turns.pos _ 0).seq (.pushArg rfl rfl fun d => .freeCell h d)
  case global => exact (Plan.Turns.pos _ 0).seq (.pushArg rfl rfl fun d => .getGlobal h d)
  case predeclared =>
    exact (Plan.Turns.pos _ 0).seq (turns_named rfl rfl fun i d hi => .predeclared hi h d)
  case universal => exact turns_named rfl rfl fun i d hi => .universal hi h d

/-- The cells of free variables are pushed. -/
theorem captureAll_typed {fvs : List Binding} (h : ∀ fv ∈ fvs, c.Captures r fv)
    (loops : Option (List (Shape × Shape))) (d : Shape) :
    (captureAll fvs).Typed (shapeTyping r link) c loops d
      (d.hold (List.replicate fvs.length .cell)) := by
  induction fvs generalizing d with
  | nil => rfl
  | cons fv rest ih =>
    obtain ⟨⟨hscope, hdeclared⟩, hrest⟩ := List.forall_mem_cons.1 h
    refine ⟨d.hold [.cell], ?_, ?_⟩
    · unfold capture
      rcases hscope with hs | hs <;> rw [hs] at hdeclared ⊢
      · exact ⟨rfl, rfl, _, .getCell hdeclared d, Shape.le_refl _⟩
      · exact ⟨rfl, rfl, _, .free hdeclared d, Shape.le_refl _⟩
    · have hcells := ih hrest (d.hold [.cell])
      rw [Shape.hold_hold, ← List.replicate_succ'] at hcells
      exact hcells

/-- An operator takes two values and leaves one; `and` and `or` are no operators here. -/
theorem turns_binaryOp {op : BinOp} (pos : Position) (h : op ≠ .and ∧ op ≠ .or) :
    (binaryOp pos op).Turns r link c 2 1 := by
  refine (Plan.Turns.pos pos 2).seq ?_
  cases op with
  | and => exact absurd rfl h.1
  | or => exact absurd rfl h.2
  | notIn => exact Plan.Turns.seq (.binaryOp rfl) (.unaryOp rfl)
  | _ => exact .binaryOp rfl

theorem turns_augmentedOp {op : BinOp} (pos : Position) (h : op ≠ .and ∧ op ≠ .or) :
    (augmentedOp pos op).Turns r link c 2 1 := by
  cases op with
  | plus => exact (Plan.Turns.pos pos 2).seq (.binaryOp rfl)
  | pipe => exact (Plan.Turns.pos pos 2).seq (.binaryOp rfl)
  | _ => exact turns_binaryOp pos h

/-- A list of stores takes as many values. -/
theorem turns_storeAll {ids : List Ident} (h : ∀ id ∈ ids, c.Assigns r id) :
    (storeAll ids).Turns r link c ids.length 0 := by
  induction ids with
  | nil => exact .skip 0
  | cons id rest ih =>
    obtain ⟨hid, hrest⟩ := List.forall_mem_cons.1 h
    have hstore : (store id).Turns r link c 1 0 := turns_store hid
    have hstore := hstore.above rest.length
    rw [Nat.zero_add, Nat.add_comm] at hstore
    exact hstore.seq (ih hrest)

/-- Texts are pushed from the left. -/
theorem strings_typed (ss : List String) (loops : Option (List (Shape × Shape))) (d : Shape) :
    (strings ss).Typed (shapeTyping r link) c loops d
      (d.push (List.replicate ss.length .str)) := by
  induction ss generalizing d with
  | nil => rfl
  | cons s rest ih =>
    refine ⟨d.push [.str], fun i hi => ⟨_, .constant hi d, Shape.le_refl _⟩, ?_⟩
    have hrest := ih (d.push [.str])
    rw [Shape.push_push, ← List.replicate_succ'] at hrest
    exact hrest

/-! ## Calls -/

/-- What comes below named arguments does not matter. -/
theorem named_append {n : Nat} {ks : List Known} (h : Named n ks) (ks' : List Known) :
    Named n (ks ++ ks') := by
  induction n generalizing ks with
  | zero => exact trivial
  | succ n ih =>
    match ks, h with
    | _ :: _ :: _, h => exact ⟨h.1, ih h.2⟩

/-- One more named argument is a name and a value. -/
theorem named_concat {n : Nat} {ks : List Known} (hks : ks.length = 2 * n) (h : Named n ks)
    (k : Known) : Named (n + 1) (ks ++ [k, .str]) := by
  induction n generalizing ks with
  | zero =>
    obtain rfl := List.length_eq_zero_iff.1 hks
    exact ⟨rfl, trivial⟩
  | succ n ih =>
    match ks, hks, h with
    | _ :: _ :: rest, hks, h =>
      refine ⟨h.1, ih ?_ h.2⟩
      simp only [List.length_cons] at hks
      omega

/-- Without positional arguments the order is right. -/
theorem ordered_of_counts {as : List Arg} (h : (Arg.counts as).1 = 0) : Arg.Ordered as := by
  induction as with
  | nil => exact trivial
  | cons a rest ih =>
    cases a with
    | positional x => cases h
    | named name x => exact h
    | star x => exact ih h
    | starStar x => exact ih h

/-- The values that a call takes beside its plain arguments. -/
theorem extraArguments_callOpcode (star starStar : Bool) :
    (Build.callOpcode star starStar).extraArguments = star.toNat + starStar.toNat := by
  cases star <;> cases starStar <;> rfl

/-- What is emitted for a call is a call, and has an operand. -/
theorem callOpcode_isCall (star starStar : Bool) :
    (Build.callOpcode star starStar).isCall = true ∧
      (Build.callOpcode star starStar).isPlain = true ∧
      (Build.callOpcode star starStar).hasArg = true := by
  cases star <;> cases starStar <;> exact ⟨rfl, rfl, rfl⟩

/-- The operand of a call has both counts, since neither exceeds 255. -/
theorem counts_callOperand {positional named : Nat} (hp : positional ≤ 255) (hn : named ≤ 255) :
    Opcode.positionalCount (UInt32.ofNat (positional * 256 + named)) = positional ∧
      Opcode.namedCount (UInt32.ofNat (positional * 256 + named)) = named := by
  have hlt : (UInt32.ofNat (positional * 256 + named)).toNat = positional * 256 + named := by
    rw [UInt32.toNat_ofNat']
    exact Nat.mod_eq_of_lt (by omega)
  unfold Opcode.positionalCount Opcode.namedCount
  rw [hlt]
  omega

/-- A call behind its callee and its arguments. -/
theorem callWith_typed {as : List Arg} (hp : (Arg.counts as).1 ≤ 255) (hn : (Arg.counts as).2 ≤ 255)
    (pos : Position) (loops : Option (List (Shape × Shape))) {extra plain : List Known}
    (hextra : extra.length = (Arg.anyStar as).toNat + (Arg.anyStarStar as).toNat)
    (hplain : plain.length = 2 * (Arg.counts as).2 + (Arg.counts as).1)
    (hnames : r = .full → Named (Arg.counts as).2 plain) (f : Known) (d : Shape) :
    (callWith as pos).Typed (shapeTyping r link) c loops (d.push (extra ++ plain ++ [f]))
      (d.push [.any]) := by
  obtain ⟨hcall, hisPlain, harg⟩ := callOpcode_isCall (Arg.anyStar as) (Arg.anyStarStar as)
  obtain ⟨hpositional, hnamed⟩ := counts_callOperand hp hn
  have hcount := extraArguments_callOpcode (Arg.anyStar as) (Arg.anyStarStar as)
  rw [callWith, if_neg (by omega)]
  refine ⟨_, rfl, hisPlain, harg, _, .call hcall f (extra ++ plain) ?_ ?_ d, Shape.le_refl _⟩
  · rw [List.length_append, hextra, hplain, hcount, hpositional, hnamed]
    omega
  · intro hr
    rw [hcount, ← hextra, List.drop_left, hnamed]
    exact hnames hr

/-! ## Control flow -/

/-- The value of an `and` or `or`. -/
theorem turns_short {p q : Plan} (stopIf : Bool) (hp : p.Turns r link c 0 1)
    (hq : q.Turns r link c 0 1) : (Plan.short stopIf p q).Turns r link c 0 1 := by
  intro loops d ks hks
  obtain rfl := List.length_eq_zero_iff.1 hks
  obtain ⟨k, hp⟩ := hp.value none d
  obtain ⟨k', hq⟩ := hq.value none d
  refine ⟨[.any], rfl, d.push [k], d.push [k, k], d.push [k], d, d.push [k'], hp,
    ⟨_, .dup k d, Shape.le_refl _⟩, ?_, ⟨_, .pop k d, Shape.le_refl _⟩, hq, d.le_push_any k'⟩
  have hbranch : (shapeTyping r link).branch .cjmp (d.push [k, k]) (d.push [k]) (d.push [k]) :=
    .inl ⟨rfl, k, rfl, rfl⟩
  cases stopIf with
  | true => exact ⟨_, _, hbranch, d.le_push_any k, Shape.le_refl _⟩
  | false => exact ⟨_, _, hbranch, Shape.le_refl _, d.le_push_any k⟩

/-- The value of a conditional expression. -/
theorem turns_either {test : Test} {p q : Plan}
    (htest : ∀ d, test.Typed (shapeTyping r link) c d d d) (hp : p.Turns r link c 0 1)
    (hq : q.Turns r link c 0 1) : (Plan.either test p q).Turns r link c 0 1 := by
  intro loops d ks hks
  obtain rfl := List.length_eq_zero_iff.1 hks
  obtain ⟨k, hp⟩ := hp.value loops d
  obtain ⟨k', hq⟩ := hq.value loops d
  exact ⟨[.any], rfl, d, d, _, _, htest d, hp, d.le_push_any k, hq, d.le_push_any k'⟩

/-- An iteration: its variables and its body stand where one more iterator is open. -/
theorem each_typed {isLoop : Bool} {iterable vars body : Plan} (pos : Position)
    (hiterable : iterable.Turns r link c 0 1) (hvars : vars.Turns r link c 1 0)
    (loops : Option (List (Shape × Shape))) (d : Shape)
    (hbody : ∀ head : Shape, head = { d with iters := d.iters + 1 } →
      if isLoop then ∃ ls, loops = some ls ∧
          body.Typed (shapeTyping r link) c (some ((head, head) :: ls)) head head
        else body.Typed (shapeTyping r link) c loops head head) :
    (Plan.each isLoop iterable pos vars body).Typed (shapeTyping r link) c loops d d := by
  obtain ⟨k, hiterable⟩ := hiterable.value none d
  let head : Shape := { d with iters := d.iters + 1 }
  exact ⟨_, head, head, head, head.push [.any], head, head, hiterable,
    ⟨_, .iterPush k d, Shape.le_refl _⟩, Shape.le_refl _,
    ⟨_, _, .inr ⟨rfl, Nat.succ_pos _, rfl, rfl⟩, Shape.le_refl _, Shape.le_refl _⟩,
    hvars.take none head .any, hbody head rfl, Shape.le_refl _,
    ⟨_, .iterPop d, Shape.le_refl _⟩⟩

/-- A plan leaves a stack as it was, however many iterators are open. -/
def KeepsStack (r : Rules) (link : Linkage) (c : Scopes) (p : Plan) (stack : List Held) : Prop :=
  ∀ loops iters, p.Typed (shapeTyping r link) c loops ⟨stack, iters⟩ ⟨stack, iters⟩

/-! ## Trees -/

/-- Unpacking into targets. -/
theorem turns_unpack {n : Nat} {targets : Plan} (pos : Position)
    (h : ∀ ks : List Known, ks.length = n → ∀ d : Shape,
      targets.TypedEach (shapeTyping r link) c n (d.push ks) d) :
    (Plan.pos pos ++ .unpack n targets).Turns r link c 1 0 := by
  intro loops d ks hks
  obtain ⟨k, rfl⟩ := List.length_eq_one_iff.1 hks
  exact ⟨[], rfl, _, rfl, _, ⟨k, d, rfl, rfl⟩, h _ List.length_replicate d⟩

/-- What is known of the collection of a comprehension. -/
def collection : Body → Known
  | .elem _ => .list
  | .entry _ => .dict

/-- Add an entry to the dict on top of the stack. -/
theorem entry_typed {o : Opcode} (ho : o = .setDict ∨ o = .setDictUniq) {k v : Plan}
    (pos : Position)
    (hk : k.Turns r link c 0 1) (hv : v.Turns r link c 0 1) (stack : List Held) :
    KeepsStack r link c (.op .dup ++ k ++ v ++ .pos pos ++ .op o) (.visible .dict :: stack) := by
  intro loops iters
  let d : Shape := ⟨.visible .dict :: stack, iters⟩
  obtain ⟨k1, hk⟩ := hk.value loops (d.push [.dict])
  obtain ⟨k2, hv⟩ := hv.value loops (d.push [k1, .dict])
  refine ⟨d.push [k2, k1, .dict], ⟨_, ⟨_, ⟨_, ⟨rfl, rfl, _, ?_, Shape.le_refl _⟩, hk⟩, hv⟩, rfl⟩,
      ?_⟩
  · exact .dup .dict ⟨stack, iters⟩
  · refine ⟨?_, ?_, _, .setDict ho k1 k2 d, Shape.le_refl _⟩
    · rcases ho with rfl | rfl <;> rfl
    · rcases ho with rfl | rfl <;> rfl

mutual

/-- Resolved expressions are good. -/
theorem expr_good (x : Expr) {c : Scopes} (h : Resolved.expr r c x) : (expr x).Good r link c := by
  match x with
  | .paren x =>
    have hx := expr_good x h
    exact ⟨hx.first, hx.further, Lowered.typed_on hx.value⟩
  | .ident id => exact Lowered.good_plain (turns_lookup h)
  | .literal (.str s) _ => exact Lowered.good_str s
  | .literal (.bytes b) _ => exact Lowered.good_bytes b
  | .literal (.int n) _ => exact Lowered.good_plain (.const _)
  | .literal (.float bits) _ => exact Lowered.good_plain (.const _)
  | .list elems => exact Lowered.good_list (exprs_turns elems h)
  | .tuple elems => exact Lowered.good_tuple (exprs_turns elems h)
  | .dict items =>
    apply Lowered.good_plain
    intro loops d ks hks
    obtain rfl := List.length_eq_zero_iff.1 hks
    exact ⟨[.dict], rfl, _, ⟨rfl, rfl, _, .makeDict d, Shape.le_refl _⟩,
      entries_keep items h d.stack loops d.iters⟩
  | .unary op x pos =>
    have hx := expr_good x h
    have hplain := Lowered.good_plain ((hx.value.seq (.pos pos 1)).seq
      (Plan.Turns.unaryOp (o := Build.unaryOpcode op) (by cases op <;> rfl)))
    cases op with
    | not => exact ⟨hplain.first, hplain.further, fun d => hx.test d⟩
    | _ => exact hplain
  | .binary op x y pos =>
    have hx := expr_good x h.1
    have hy := expr_good y h.2
    have hstrict : ∀ op : BinOp, op ≠ .and ∧ op ≠ .or →
        ((expr x).value ++ (expr y).value ++ binaryOp pos op).Turns r link c 0 1 :=
      fun op hop => (hx.value.seq (hy.value.above 1)).seq (turns_binaryOp pos hop)
    cases op with
    | and =>
      -- as a test, the right side is reached with the stack that the left side found
      have hshort := Lowered.good_plain (turns_short false hx.value hy.value)
      refine ⟨hshort.first, hshort.further, fun d => ?_⟩
      obtain ⟨k, hvalue⟩ := hx.value.value none d
      exact ⟨_, d, hvalue, ⟨d, d, .inl ⟨rfl, k, rfl, rfl⟩, Shape.le_refl d, Shape.le_refl d⟩,
        hy.test d⟩
    | or =>
      have hshort := Lowered.good_plain (turns_short true hx.value hy.value)
      refine ⟨hshort.first, hshort.further, fun d => ?_⟩
      obtain ⟨k, hvalue⟩ := hx.value.value none d
      exact ⟨_, d, hvalue, ⟨d, d, .inl ⟨rfl, k, rfl, rfl⟩, Shape.le_refl d, Shape.le_refl d⟩,
        hy.test d⟩
    | notIn =>
      have hplain := Lowered.good_plain (hstrict .notIn (by decide))
      exact ⟨hplain.first, hplain.further, Lowered.typed_on (hstrict .isIn (by decide))⟩
    | plus => exact Lowered.good_plus hx hy pos
    | _ => exact Lowered.good_plain (hstrict _ (by decide))
  | .cond t a b =>
    exact Lowered.good_plain
      (turns_either (expr_good t h.1).test (expr_good a h.2.1).value (expr_good b h.2.2).value)
  | .index x i pos =>
    have hx := (expr_good x h.1).value
    have hi := (expr_good i h.2).value
    exact Lowered.good_plain (((hx.seq (hi.above 1)).seq (.pos pos 2)).seq (.binaryOp rfl))
  | .slice x lo hi step pos =>
    have hx := (expr_good x h.1).value
    have hlo := (bound_turns lo h.2.1).above 1
    have hhi := (bound_turns hi h.2.2.1).above 2
    have hstep := (bound_turns step h.2.2.2).above 3
    exact Lowered.good_plain
      (((((((Plan.Turns.pos pos 0).seq hx).seq hlo).seq hhi).seq hstep).seq (.pos pos 4)).seq
        .sliceOp)
  | .dot x name pos =>
    apply Lowered.good_plain
    refine (expr_good x h).value.seq ?_
    intro loops d ks hks
    obtain ⟨k, rfl⟩ := List.length_eq_one_iff.1 hks
    exact ⟨[.any], rfl, fun i hi => ⟨_, rfl, rfl, rfl, _, .attr hi k d, Shape.le_refl _⟩⟩
  | .call f as pos =>
    obtain ⟨hf, has, hpositional, hnamed, hordered⟩ := h
    apply Lowered.good_plain
    intro loops d ks hks
    obtain rfl := List.length_eq_zero_iff.1 hks
    obtain ⟨k, hf⟩ := (expr_good f hf).value.value loops d
    obtain ⟨plain, hplain, hnames, hargs⟩ := plainArgs_typed as has loops (d.push [k])
    obtain ⟨star, hstar, hstarArg⟩ := starArg_turns as has loops ((d.push [k]).push plain) [] rfl
    obtain ⟨kw, hkw, hkwArg⟩ :=
      starStarArg_turns as has loops (((d.push [k]).push plain).push star) [] rfl
    refine ⟨[.any], rfl, _, ⟨_, ⟨_, ⟨_, hf, hargs⟩, hstarArg⟩, hkwArg⟩, ?_⟩
    have hcall : (callWith as pos).Typed (shapeTyping r link) c loops
        (d.push (kw ++ star ++ plain ++ [k])) (d.push [.any]) :=
      callWith_typed hpositional hnamed pos loops
        (by rw [List.length_append, hstar, hkw, Nat.add_comm]) hplain
        (fun hr => hnames (hordered hr)) k d
    rw [Shape.push_push, Shape.push_push, Shape.push_push]
    exact hcall
  | .comprehension b cs =>
    apply Lowered.good_plain
    intro loops d ks hks
    obtain rfl := List.length_eq_zero_iff.1 hks
    have hclauses := clauses_keep cs h.2 (collect_keeps b h.1 d.stack) loops d.iters
    refine ⟨[collection b], rfl, _, ?_, hclauses⟩
    cases b with
    | elem x => exact ⟨rfl, rfl, _, .makeList [] d, Shape.le_refl _⟩
    | entry e => exact ⟨rfl, rfl, _, .makeDict d, Shape.le_refl _⟩
  | .lambda f => exact Lowered.good_plain (function_turns f h)

/-- Expressions leave one value each. -/
theorem exprs_turns (xs : List Expr) {c : Scopes} (h : Resolved.exprs r c xs) :
    (exprs xs).Turns r link c 0 xs.length := by
  match xs with
  | [] => exact .skip 0
  | x :: rest =>
    have hrest := (exprs_turns rest h.2).above 1
    exact (expr_good x h.1).value.seq (Nat.zero_add 1 ▸ hrest)

/-- A bound of a slice leaves one value, also if it is left out. -/
theorem bound_turns (x : Option Expr) {c : Scopes} (h : Resolved.bound r c x) :
    (bound x).Turns r link c 0 1 := by
  match x with
  | none => exact .pushOp rfl
  | some x => exact (expr_good x h).value

/-- The entries of a display leave the dict on the stack. -/
theorem entries_keep (es : List Entry) {c : Scopes} (h : Resolved.entries r c es)
    (stack : List Held) : KeepsStack r link c (entries es) (.visible .dict :: stack) := by
  match es with
  | [] => exact fun _ _ => rfl
  | .mk k v pos :: rest =>
    intro loops iters
    have hentry := entry_typed (.inr rfl) pos (expr_good k h.1).value
        (expr_good v h.2.1).value stack
    exact ⟨_, hentry loops iters, entries_keep rest h.2.2 stack loops iters⟩

/-- Plain arguments leave two values if named and one if not. -/
theorem plainArgs_typed (as : List Arg) {c : Scopes} (h : Resolved.args r c as)
    (loops : Option (List (Shape × Shape))) (d : Shape) :
    ∃ ks : List Known, ks.length = 2 * (Arg.counts as).2 + (Arg.counts as).1 ∧
      (Arg.Ordered as → Named (Arg.counts as).2 ks) ∧
      (plainArgs as).Typed (shapeTyping r link) c loops d (d.push ks) := by
  match as with
  | [] => exact ⟨[], rfl, fun _ => trivial, rfl⟩
  | .positional x :: rest =>
    obtain ⟨k, hx⟩ := (expr_good x h.1).value.value loops d
    obtain ⟨ks, hks, hnames, hrest⟩ := plainArgs_typed rest h.2 loops (d.push [k])
    rw [Shape.push_push] at hrest
    refine ⟨ks ++ [k], ?_, fun ho => named_append (hnames ho) [k], _, hx, hrest⟩
    simp only [Arg.counts, List.length_append, List.length_singleton]
    omega
  | .named name x :: rest =>
    obtain ⟨k, hx⟩ := (expr_good x h.1).value.value loops (d.push [.str])
    obtain ⟨ks, hks, hnames, hrest⟩ := plainArgs_typed rest h.2 loops (d.push [k, .str])
    rw [Shape.push_push] at hrest
    refine ⟨ks ++ [k, .str], ?_, ?_, _, ⟨_, ?_, hx⟩, hrest⟩
    · simp only [Arg.counts, List.length_append, List.length_cons, List.length_nil]
      omega
    · intro ho
      -- behind a named argument all are named
      have hnone : (Arg.counts rest).1 = 0 := ho
      exact named_concat (by omega) (hnames (ordered_of_counts hnone)) k
    · exact fun i hi => ⟨_, .constant hi d, Shape.le_refl _⟩
  | .star x :: rest | .starStar x :: rest => exact plainArgs_typed rest h.2 loops d

/-- `*args` leaves one value if it is there. -/
theorem starArg_turns (as : List Arg) {c : Scopes} (h : Resolved.args r c as) :
    (starArg as).Turns r link c 0 (Arg.anyStar as).toNat := by
  match as with
  | [] => exact .skip 0
  | .star x :: rest =>
    have hrest := starArg_turns rest h.2
    unfold starArg
    split
    · rename_i hany
      rw [hany] at hrest
      exact hrest
    · exact (expr_good x h.1).value
  | .positional x :: rest | .named _ x :: rest | .starStar x :: rest =>
    exact starArg_turns rest h.2

/-- `**kwargs` leaves one value if it is there. -/
theorem starStarArg_turns (as : List Arg) {c : Scopes} (h : Resolved.args r c as) :
    (starStarArg as).Turns r link c 0 (Arg.anyStarStar as).toNat := by
  match as with
  | [] => exact .skip 0
  | .starStar x :: rest =>
    have hrest := starStarArg_turns rest h.2
    unfold starStarArg
    split
    · rename_i hany
      rw [hany] at hrest
      exact hrest
    · exact (expr_good x h.1).value
  | .positional x :: rest | .named _ x :: rest | .star x :: rest =>
    exact starStarArg_turns rest h.2

/-- Clauses leave the stack as what is inside them does. -/
theorem clauses_keep (cs : List Clause) {c : Scopes} (h : Resolved.clauses r c cs) {p : Plan}
    {stack : List Held} (hp : KeepsStack r link c p stack) :
    KeepsStack r link c (clauses cs p) stack := by
  match cs with
  | [] => exact hp
  | .guard t :: rest =>
    intro loops iters
    exact ⟨_, _, (expr_good t h.1).test _, clauses_keep rest h.2 hp loops iters, Shape.le_refl _⟩
  | .loop vars iterable pos :: rest =>
    intro loops iters
    apply each_typed pos (expr_good iterable h.2.1).value (assign_turns pos vars h.1)
    rintro _ rfl
    exact clauses_keep rest h.2.2 hp loops (iters + 1)

/-- What a comprehension collects goes into the collection on the stack. -/
theorem collect_keeps (b : Body) {c : Scopes} (h : Resolved.body r c b) (stack : List Held) :
    KeepsStack r link c (collect b) (.visible (collection b) :: stack) := by
  match b with
  | .elem x =>
    intro loops iters
    let d : Shape := ⟨.visible .list :: stack, iters⟩
    obtain ⟨k, hx⟩ := (expr_good x h).value.value loops (d.push [.list])
    exact ⟨_, ⟨_, ⟨rfl, rfl, _, .dup .list ⟨stack, iters⟩, Shape.le_refl _⟩, hx⟩, rfl, rfl, _,
      .append k d, Shape.le_refl _⟩
  | .entry (.mk k v pos) =>
    exact entry_typed (.inl rfl) pos (expr_good k h.1).value (expr_good v h.2).value stack

/-- An assignment takes the value that is assigned. -/
theorem assign_turns (pos : Position) (x : Expr) {c : Scopes} (h : Resolved.target r c x) :
    (assign pos x).Turns r link c 1 0 := by
  match x with
  | .paren x => exact assign_turns pos x h
  | .ident id => exact turns_store h
  | .tuple elems => exact turns_unpack pos fun ks hks d => assignAll_typed pos elems h ks hks d
  | .list elems => exact turns_unpack pos fun ks hks d => assignAll_typed pos elems h ks hks d
  | .index x i lbrack =>
    have hx := (expr_good x h.1).value.above 1
    have hi := (expr_good i h.2).value.above 2
    have hexch : (Plan.op .exch).Turns r link c 3 3 := Plan.Turns.exchOp.above 1
    exact (((((hx.seq .exchOp).seq hi).seq hexch).seq (.pos lbrack 3)).seq .setIndexOp)
  | .dot x name dot =>
    refine (((expr_good x h).value.above 1).seq .exchOp).seq ?_
    intro loops d ks hks
    obtain ⟨y, x, rfl⟩ := List.length_eq_two.1 hks
    exact ⟨[], rfl, fun i hi => ⟨_, rfl, rfl, rfl, _, .setField hi x y d, Shape.le_refl _⟩⟩
  | .literal _ _ | .dict _ | .unary _ _ _ | .binary _ _ _ _ | .cond _ _ _ | .slice _ _ _ _ _
  | .call _ _ _ | .comprehension _ _ | .lambda _ => exact h.elim

/-- Targets take one value each, from the top. -/
theorem assignAll_typed (pos : Position) (xs : List Expr) {c : Scopes} (h : Resolved.targets r c xs)
    (ks : List Known) (hks : ks.length = xs.length) (d : Shape) :
    (assignAll pos xs).TypedEach (shapeTyping r link) c xs.length (d.push ks) d := by
  match xs, ks, hks with
  | [], [], _ => rfl
  | x :: rest, k :: ks, hks =>
    have hx := (assign_turns pos x h.1).take none (d.push ks) k
    refine ⟨d.push ks, ?_, ?_, ?_⟩
    · rw [Shape.push_push] at hx
      exact hx
    · rfl
    · exact assignAll_typed pos rest h.2 ks (Nat.succ.inj hks) d

/-- A place is evaluated, and stored to once its value is there. -/
theorem place_turns (x : Expr) {c : Scopes} (h : Resolved.place r c x) {k : Plan → Plan}
    (hk : ∀ (j : Nat) (q : Plan), q.Turns r link c (j + 1) 0 → (k q).Turns r link c (j + 1) 0) :
    (place x k).Turns r link c 0 0 := by
  match x with
  | .paren x => exact place_turns x h hk
  | .ident id => exact (turns_lookup h.2).seq (hk 0 _ (turns_store h))
  | .index x i lbrack =>
    have hx := (expr_good x h.1).value
    have hi := (expr_good i h.2).value.above 1
    have hindex : (Plan.op .index).Turns r link c 4 3 := (Plan.Turns.binaryOp rfl).above 2
    exact (((((hx.seq hi).seq .dup2Op).seq (.pos lbrack 4)).seq hindex)).seq
      (hk 2 _ ((Plan.Turns.pos lbrack 3).seq .setIndexOp))
  | .dot x name dot =>
    refine ((expr_good x h).value.seq .dupOp).seq ?_
    intro loops d ks hks
    obtain ⟨y, x, rfl⟩ := List.length_eq_two.1 hks
    refine ⟨[], rfl, fun i hi => ?_⟩
    -- the name's index is the same one for the read and for the store
    have hfield : (Plan.pos dot ++ .arg .setField i).Turns r link c 2 0 := by
      refine (Plan.Turns.pos dot 2).seq (.arg rfl rfl fun d ks hks => ?_)
      obtain ⟨y, x, rfl⟩ := List.length_eq_two.1 hks
      exact ⟨[], rfl, .setField hi x y d⟩
    obtain ⟨ks, hks, hrest⟩ := hk 1 _ hfield loops d [.any, x] rfl
    obtain rfl := List.length_eq_zero_iff.1 hks
    exact ⟨d.push [.any, x], ⟨_, rfl, rfl, rfl, _, .attr hi y (d.push [x]), Shape.le_refl _⟩, hrest⟩
  | .literal _ _ | .dict _ | .unary _ _ _ | .binary _ _ _ _ | .cond _ _ _ | .slice _ _ _ _ _
  | .call _ _ _ | .comprehension _ _ | .lambda _ | .list _ | .tuple _ => exact h.elim

/-- A function leaves one value: itself. -/
theorem function_turns (f : Function) {c : Scopes} (h : Resolved.function r c f) :
    (function f).Turns r link c 0 1 := by
  match f with
  | .mk name pos params body locals freeVars numKwonly hasVarargs hasKwargs =>
    obtain ⟨hparams, hfree, hcounted, hbody⟩ := h
    intro loops d ks hks
    obtain rfl := List.length_eq_zero_iff.1 hks
    obtain ⟨ds, hds, hdefault, hdefaults⟩ := defaults_typed params false hparams loops d
    -- the captured cells lie above the defaults, and one tuple packs both
    have hcells : (captureAll freeVars).Typed (shapeTyping r link) c loops (d.hold ds)
        (d.hold (List.replicate freeVars.length .cell ++ ds)) := by
      rw [← Shape.hold_hold]
      exact captureAll_typed hfree loops (d.hold ds)
    have hsize : (List.replicate freeVars.length Held.cell ++ ds).length =
        Param.defaults params false + freeVars.length := by
      rw [List.length_append, List.length_replicate, hds, Nat.add_comm]
    let cells := List.replicate freeVars.length Held.cell
    refine ⟨[.any], rfl, d.hold [.pack (cells ++ ds).length freeVars.length],
        ⟨_, ⟨_, ⟨_, rfl, hdefaults⟩, hcells⟩,
      rfl, rfl, _, ?_, Shape.le_refl _⟩, hcounted, ⟨⟨[], 0⟩, ?_, ?_⟩, ?_⟩
    · rw [← hsize]
      refine .makePack _ freeVars.length (List.take_left' List.length_replicate) ?_ d
      rw [List.drop_left' List.length_replicate]
      exact hdefault
    · exact stmts_typed body hbody nofun
    · exact ⟨_, ⟨_, .push rfl _, Shape.le_refl _⟩, _, rfl⟩
    · exact fun i hi => ⟨rfl, rfl, _, .makeFunc hi _ d, Shape.le_refl _⟩

/-- The defaults of a function are pushed, with a mark for each that is missing. -/
theorem defaults_typed (ps : List Param) (afterStar : Bool) {c : Scopes}
    (h : Resolved.params r c ps) (loops : Option (List (Shape × Shape))) (d : Shape) :
    ∃ os : List Held, os.length = Param.defaults ps afterStar ∧ (∀ o ∈ os, o.IsDefault) ∧
      (defaults ps afterStar).Typed (shapeTyping r link) c loops d (d.hold os) := by
  -- behind a star a required parameter leaves a marker where its default would be
  match ps, afterStar with
  | [], _ => exact ⟨[], rfl, fun _ ho => absurd ho List.not_mem_nil, rfl⟩
  | .optional id x :: rest, afterStar =>
    obtain ⟨k, hx⟩ := (expr_good x h.1).value.value loops d
    obtain ⟨os, hos, hall, hrest⟩ := defaults_typed rest afterStar h.2 loops (d.push [k])
    rw [Shape.push, Shape.hold_hold] at hrest
    refine ⟨os ++ [Held.visible k], by simp [hos, Param.defaults], ?_, _, hx, hrest⟩
    exact List.forall_mem_append.2 ⟨hall, List.forall_mem_singleton.2 trivial⟩
  | .required id :: rest, true =>
    obtain ⟨os, hos, hall, hrest⟩ := defaults_typed rest true h loops (d.hold [.mandatory])
    rw [Shape.hold_hold] at hrest
    refine ⟨os ++ [Held.mandatory], by simp [hos, Param.defaults], ?_, _,
      ⟨rfl, rfl, _, .mandatory d, Shape.le_refl _⟩, hrest⟩
    exact List.forall_mem_append.2 ⟨hall, List.forall_mem_singleton.2 trivial⟩
  | .required id :: rest, false => exact defaults_typed rest false h loops d
  | .star :: rest, _ | .varargs _ :: rest, _ | .kwargs _ :: rest, _ =>
    simp only [defaults, Param.defaults]
    exact defaults_typed rest true h loops d

/-- Statements leave the stack as it was. -/
theorem stmts_typed (ss : List Stmt) {c : Scopes} {inLoop : Bool}
    (h : Resolved.stmts r c inLoop ss) {iters : Nat} {ls : List (Shape × Shape)}
    (hls : inLoop = true → ∃ rest, ls = (⟨[], iters⟩, ⟨[], iters⟩) :: rest) :
    (stmts ss).Typed (shapeTyping r link) c (some ls) ⟨[], iters⟩ ⟨[], iters⟩ := by
  match ss with
  | [] => rfl
  | s :: rest => exact ⟨⟨[], iters⟩, stmt_typed s h.1 hls, stmts_typed rest h.2 hls⟩

/-- Between statements the stack is empty. Where a loop is left or continued, as many iterators are
open as in the loop. -/
theorem stmt_typed (s : Stmt) {c : Scopes} {inLoop : Bool} (h : Resolved.stmt r c inLoop s)
    {iters : Nat} {ls : List (Shape × Shape)}
    (hls : inLoop = true → ∃ rest, ls = (⟨[], iters⟩, ⟨[], iters⟩) :: rest) :
    (stmt s).Typed (shapeTyping r link) c (some ls) ⟨[], iters⟩ ⟨[], iters⟩ := by
  let d : Shape := ⟨[], iters⟩
  -- a statement leaves the stack as deep as it finds it
  match s with
  | .expr x =>
    unfold stmt
    split
    · rfl
    · exact ((expr_good x h).value.seq .popOp).keep (some ls) d
  | .pass => rfl
  | .breakLoop =>
    obtain ⟨rest, rfl⟩ := hls h
    exact ⟨(d, d), rest, rfl, Shape.le_refl d⟩
  | .continueLoop =>
    obtain ⟨rest, rfl⟩ := hls h
    exact ⟨(d, d), rest, rfl, Shape.le_refl d⟩
  | .ifElse t a b =>
    exact ⟨d, d, d, d, (expr_good t h.1).test d, stmts_typed a h.2.1 hls, Shape.le_refl d,
      stmts_typed b h.2.2 hls, Shape.le_refl d⟩
  | .assign lhs rhs pos =>
    exact ((expr_good rhs h.2).value.seq (assign_turns pos lhs h.1)).keep (some ls) d
  | .augAssign op lhs rhs pos =>
    refine (place_turns lhs h.2.2.1 ?_).keep (some ls) d
    intro j q hq
    have hrhs := (expr_good rhs h.2.2.2).value.above (j + 1)
    have hop : (augmentedOp pos op).Turns r link c 2 1 := turns_augmentedOp pos ⟨h.1, h.2.1⟩
    have hop := hop.above j
    rw [Nat.zero_add, Nat.add_comm 1] at hrhs
    rw [Nat.add_comm 2, Nat.add_comm 1] at hop
    exact (hrhs.seq hop).seq hq
  | .define id f =>
    exact ((function_turns f h.2).seq (turns_store h.1)).keep (some ls) d
  | .forLoop vars iterable body pos =>
    apply each_typed pos (expr_good iterable h.2.1).value (assign_turns pos vars h.1)
    rintro head rfl
    exact ⟨ls, rfl, stmts_typed body h.2.2 fun _ => ⟨ls, rfl⟩⟩
  | .whileLoop t body =>
    exact ⟨d, d, d, ls, rfl, Shape.le_refl d, (expr_good t h.1).test d,
      stmts_typed body h.2 fun _ => ⟨ls, rfl⟩, Shape.le_refl d⟩
  | .ret result =>
    obtain ⟨k, hresult⟩ := (bound_turns result h).value (some ls) d
    exact ⟨_, hresult, rfl, k, rfl⟩
  | .load pos module modulePos names targets =>
    have hstore : (storeAll targets.reverse).Turns r link c names.length 0 := by
      rw [h.1, ← List.length_reverse]
      exact turns_storeAll fun id hid => h.2 id (List.mem_reverse.1 hid)
    obtain ⟨ks, hks, hstore⟩ := hstore (some ls) d (List.replicate names.length .any) (by simp)
    obtain rfl := List.length_eq_zero_iff.1 hks
    rw [stmt, if_neg (fun hne => hne h.1)]
    exact ⟨_, ⟨_, ⟨_, ⟨_, ⟨_, strings_typed names (some ls) d, rfl⟩,
      fun i hi => ⟨_, .constant hi _, Shape.le_refl _⟩⟩, rfl⟩, rfl, rfl, _,
      .load names.length d, Shape.le_refl _⟩, hstore⟩

end

end Lowering

end

/-! ## Compiling -/

namespace SourceFile

/-- The state in which compiling a file stops, if it stops with an error: its blocks are those of
the function that could not be compiled. -/
def stuck? (f : SourceFile) : Option Builder :=
  match Build.assemble ⟨1, 1⟩ (Build.stmts f.body) {} with
  | .error _ b => some b
  | .ok _ _ => none

/-- A file that keeps the rules about shapes is compiled, unless one of its functions needs `2 ^ 28`
bytes of code. -/
theorem compile_total (f : SourceFile) (h : f.WellShaped)
    (hneed : ∀ b, f.stuck? = some b → b.blocks.need < 2 ^ 28) : ∃ p, f.compile = .ok p := by
  -- the shape of the file alone makes it type, under rules that look nothing up
  have htyped : (Lowering.stmts f.body).Typed (shapeTyping .shape .free)
      (f.scopes fun _ => True) (some []) ⟨[], 0⟩ ⟨[], 0⟩ := Lowering.stmts_typed f.body h nofun
  have hready : Builder.Ready (Build.inside {} ⟨1, 1⟩) 0 (some ([] : List (Shape × Shape))) :=
    ⟨Build.cursor_inside {} ⟨1, 1⟩, by simp [Build.inside], by rintro _ ⟨⟩; rfl⟩
  have hemits := Plan.emits (covers_free .shape) (measures_shapeTyping .shape .free) _ htyped hready
  have hassembles : Build.Succeeds (Build.assemble ⟨1, 1⟩ (Build.stmts f.body)) {} := by
    rw [Lowering.stmts_eq]
    apply Build.Succeeds.assemble (covers_free .shape) (measures_shapeTyping .shape .free) hemits
      htyped
    exact ⟨_, ⟨_, .push rfl _, Shape.le_refl _⟩, _, rfl⟩
  unfold Build.Succeeds at hassembles
  unfold stuck? at hneed
  unfold compile
  cases hb : Build.assemble ⟨1, 1⟩ (Build.stmts f.body) {} with
  | ok a b => exact ⟨_, rfl⟩
  | error e b =>
    rw [hb] at hassembles hneed
    exact absurd (hneed b rfl) (Nat.not_lt.2 hassembles)

/-- A file with two functions, a loop and a comprehension. -/
theorem compile_total_pairs : pairsFile.WellShaped ∧ ∃ p, pairsFile.compile = .ok p := by
  have hstuck : pairsFile.stuck? = none := Option.isNone_iff_eq_none.1 (by decide +kernel)
  refine ⟨wellShaped_pairsFile, compile_total pairsFile wellShaped_pairsFile ?_⟩
  intro b hb
  rw [hstuck] at hb
  cases hb

end SourceFile

end Starlark
