import Starlark.Proofs.Lower.Reach
import Starlark.Proofs.Lower.Resolved

/-!
# Shapes of the operand stack

What is known of the operand stack and the iterators at a point of a function: which places hold
values that scripts may see, among them strings, lists and dicts, which hold the parts of a function
that is being made, and how many iterators are open. `Moves` says what each instruction needs and
leaves; it is the typing of code that comes from resolved trees (`shapeTyping`).
-/

set_option autoImplicit false

namespace Starlark

/-- What is known of a value that scripts may see. -/
inductive Known where
  | any
  | str
  | list
  | dict
  deriving DecidableEq

/-- What is known of a constant. -/
def Known.ofConstant : Constant → Known
  | .str _ => .str
  | _ => .any

/-- What a place of the operand stack holds: a value that scripts may see, or a part of a function
that is being made. -/
inductive Held where
  | visible (k : Known)
  /-- The mark of a keyword-only parameter without a default. -/
  | mandatory
  | cell
  /-- A tuple of `size` elements, of which the last `cells` are cells and the others defaults. -/
  | pack (size cells : Nat)
  deriving DecidableEq

/-- What can stand for the default of a parameter. -/
def Held.IsDefault : Held → Prop
  | .visible _ | .mandatory => True
  | _ => False

/-- The second says less. -/
def Held.Fits (o o' : Held) : Prop := o = o' ∨ ∃ k, o = .visible k ∧ o' = .visible .any

/-- The operand stack, its top first, and the number of open iterators. -/
structure Shape where
  stack : List Held
  iters : Nat

namespace Shape

/-- The second says less. -/
def Le (d e : Shape) : Prop := d.iters = e.iters ∧ List.Forall₂ Held.Fits d.stack e.stack

/-- Anything on top. -/
def hold (os : List Held) (d : Shape) : Shape := { d with stack := os ++ d.stack }

/-- Values that scripts may see on top. -/
def push (ks : List Known) (d : Shape) : Shape := d.hold (ks.map .visible)

@[simp] theorem push_nil (d : Shape) : d.push [] = d := rfl

/-- What is held in two goes is held together. -/
theorem hold_hold (os os' : List Held) (d : Shape) : (d.hold os).hold os' = d.hold (os' ++ os) := by
  simp [hold]

/-- What is pushed in two goes is pushed together. -/
theorem push_push (ks ks' : List Known) (d : Shape) : (d.push ks).push ks' =
    d.push (ks' ++ ks) := by
  simp [push, hold]

theorem le_refl (d : Shape) : d.Le d :=
  ⟨rfl, List.forall₂_same.2 fun _ _ => .inl rfl⟩

/-- Of a visible value it may be forgotten what is known. -/
theorem le_push_any (k : Known) (d : Shape) : (d.push [k]).Le (d.push [.any]) :=
  ⟨rfl, .cons (.inr ⟨k, rfl, rfl⟩) (d.le_refl).2⟩

end Shape

/-- The operands that stand for names, constants and functions. -/
structure Linkage where
  name : String → UInt32 → Prop
  const : Constant → UInt32 → Prop
  func : Function → UInt32 → Prop

/-- Nothing is known of operands. -/
def Linkage.free : Linkage := ⟨fun _ _ => True, fun _ _ => True, fun _ _ => True⟩

/-- Operands are indices of a pool. -/
def Linkage.of (pool : Pool) : Linkage where
  name s i := IndexOf pool.names s i
  const c i := IndexOf pool.constants c i
  func f i := ∃ a, IndexOf pool.functions (Function.compiled a f) i

/-- The names of `n` named arguments are strings; each stands below its value. -/
def Named : (n : Nat) → List Known → Prop
  | 0, _ => True
  | n + 1, _ :: k :: rest => k = .str ∧ Named n rest
  | _ + 1, _ => False

/-- How many values a call takes beside its plain arguments. -/
def Opcode.extraArguments : Opcode → Nat
  | .callVar | .callKw => 1
  | .callVarKw => 2
  | _ => 0

/-- The opcodes that push a value, whatever there is. -/
def Opcode.isPush : Opcode → Bool
  | .pushNone | .pushTrue | .pushFalse => true
  | _ => false

/-- The opcodes that replace a value by another. -/
def Opcode.isUnary : Opcode → Bool
  | .uplus | .uminus | .tilde | .not => true
  | _ => false

/-- The opcodes that replace two values by another. -/
def Opcode.isBinary : Opcode → Bool
  | .inplaceAdd | .inplacePipe | .index => true
  | op => op.binOp?.isSome

/-- What an instruction needs and leaves. A count in an operand is known as far as 32 bits hold
it. -/
inductive Moves (r : Rules) (link : Linkage) (c : Scopes) :
    Opcode → UInt32 → Shape → Shape → Prop where
  | dup (k : Known) (d : Shape) : Moves r link c .dup 0 (d.push [k]) (d.push [k, k])
  | dup2 (x y : Known) (d : Shape) : Moves r link c .dup2 0 (d.push [y, x]) (d.push [y, x, y, x])
  | pop (k : Known) (d : Shape) : Moves r link c .pop 0 (d.push [k]) d
  | exch (x y : Known) (d : Shape) : Moves r link c .exch 0 (d.push [y, x]) (d.push [x, y])
  | push {op : Opcode} (h : op.isPush = true) (d : Shape) : Moves r link c op 0 d (d.push [.any])
  | mandatory (d : Shape) : Moves r link c .mandatory 0 d (d.hold [.mandatory])
  | unary {op : Opcode} (h : op.isUnary = true) (k : Known) (d : Shape) :
      Moves r link c op 0 (d.push [k]) (d.push [.any])
  | binary {op : Opcode} (h : op.isBinary = true) (x y : Known) (d : Shape) :
      Moves r link c op 0 (d.push [y, x]) (d.push [.any])
  | slice (ks : List Known) (h : ks.length = 4) (d : Shape) :
      Moves r link c .slice 0 (d.push ks) (d.push [.any])
  | setIndex (ks : List Known) (h : ks.length = 3) (d : Shape) :
      Moves r link c .setIndex 0 (d.push ks) d
  | makeDict (d : Shape) : Moves r link c .makeDict 0 d (d.push [.dict])
  | setDict {op : Opcode} (h : op = .setDict ∨ op = .setDictUniq) (k v : Known) (d : Shape) :
      Moves r link c op 0 (d.push [v, k, .dict]) d
  | append (v : Known) (d : Shape) : Moves r link c .append 0 (d.push [v, .list]) d
  | iterPush (k : Known) (d : Shape) :
      Moves r link c .iterPush 0 (d.push [k]) { d with iters := d.iters + 1 }
  | iterPop (d : Shape) : Moves r link c .iterPop 0 { d with iters := d.iters + 1 } d
  | constant {x : Constant} {i : UInt32} (h : link.const x i) (d : Shape) :
      Moves r link c .constant i d (d.push [.ofConstant x])
  | makeList (ks : List Known) (d : Shape) :
      Moves r link c .makeList (UInt32.ofNat ks.length) (d.push ks) (d.push [.list])
  | makeTuple (ks : List Known) (d : Shape) :
      Moves r link c .makeTuple (UInt32.ofNat ks.length) (d.push ks) (d.push [.any])
  | makePack (os : List Held) (cells : Nat) (h : os.take cells = List.replicate cells .cell)
      (hdefaults : ∀ o ∈ os.drop cells, o.IsDefault) (d : Shape) :
      Moves r link c .makeTuple (UInt32.ofNat os.length) (d.hold os)
        (d.hold [.pack os.length cells])
  | makeFunc {f : Function} {i : UInt32} (h : link.func f i) (size : Nat) (d : Shape) :
      Moves r link c .makeFunc i (d.hold [.pack size f.freeCount]) (d.push [.any])
  | load (n : Nat) (d : Shape) :
      Moves r link c .load (UInt32.ofNat n) (d.push (.str :: List.replicate n .str))
        (d.push (List.replicate n .any))
  | setLocal {i : UInt32} (h : r = .full → c.Declares .frame i "") (k : Known) (d : Shape) :
      Moves r link c .setLocal i (d.push [k]) d
  | setLocalCell {i : UInt32} (h : r = .full → c.Declares .cell i "") (k : Known) (d : Shape) :
      Moves r link c .setLocalCell i (d.push [k]) d
  | setGlobal {i : UInt32} (h : r = .full → c.Declares .global i "") (k : Known) (d : Shape) :
      Moves r link c .setGlobal i (d.push [k]) d
  | getLocal {i : UInt32} (h : r = .full → c.Declares .frame i "") (d : Shape) :
      Moves r link c .getLocal i d (d.push [.any])
  | getCell {i : UInt32} (h : r = .full → c.Declares .cell i "") (d : Shape) :
      Moves r link c .getLocal i d (d.hold [.cell])
  | free {i : UInt32} (h : r = .full → c.Declares .free i "") (d : Shape) :
      Moves r link c .free i d (d.hold [.cell])
  | freeCell {i : UInt32} (h : r = .full → c.Declares .free i "") (d : Shape) :
      Moves r link c .freeCell i d (d.push [.any])
  | localCell {i : UInt32} (h : r = .full → c.Declares .cell i "") (d : Shape) :
      Moves r link c .localCell i d (d.push [.any])
  | getGlobal {i : UInt32} (h : r = .full → c.Declares .global i "") (d : Shape) :
      Moves r link c .getGlobal i d (d.push [.any])
  | predeclared {i : UInt32} {s : String} (hs : link.name s i)
      (h : r = .full → c.Declares .predeclared 0 s) (d : Shape) :
      Moves r link c .predeclared i d (d.push [.any])
  | universal {i : UInt32} {s : String} (hs : link.name s i)
      (h : r = .full → c.Declares .universal 0 s) (d : Shape) :
      Moves r link c .universal i d (d.push [.any])
  | attr {i : UInt32} {s : String} (hs : link.name s i) (k : Known) (d : Shape) :
      Moves r link c .attr i (d.push [k]) (d.push [.any])
  | setField {i : UInt32} {s : String} (hs : link.name s i) (x y : Known) (d : Shape) :
      Moves r link c .setField i (d.push [y, x]) d
  | call {op : Opcode} (hop : op.isCall = true) {arg : UInt32} (f : Known) (ks : List Known)
      (hks : ks.length =
        op.extraArguments + 2 * Opcode.namedCount arg + Opcode.positionalCount arg)
      (hnames : r = .full → Named (Opcode.namedCount arg) (ks.drop op.extraArguments))
      (d : Shape) : Moves r link c op arg (d.push (ks ++ [f])) (d.push [.any])

/-- The typing of code that comes from resolved trees. -/
def shapeTyping (r : Rules) (link : Linkage) : Typing Scopes Shape where
  inner := Scopes.inner
  accepts _ f := r = .full → f.Counted
  start := ⟨[], 0⟩
  le := Shape.Le
  step c op arg d e := Moves r link c op arg d e
  unpack n d e := ∃ (k : Known) (b : Shape), d = b.push [k] ∧ e = b.push (List.replicate n .any)
  drop d e := d.stack.length = e.stack.length + 1
  branch op d t f :=
    (op = .cjmp ∧ ∃ k, d = t.push [k] ∧ f = t) ∨
      (op = .iterJmp ∧ 0 < d.iters ∧ t = d ∧ f = d.push [.any])
  ret d := ∃ k, d.stack = [.visible k]
  name := link.name
  const := link.const
  func := link.func

/-- Without tables, shapes ask nothing of them. -/
theorem covers_free (r : Rules) (pool : Pool) : (shapeTyping r .free).Covers pool :=
  ⟨fun _ _ _ => trivial, fun _ _ _ => trivial, fun _ _ _ _ => trivial⟩

/-- Shapes know the entries of the tables. -/
theorem covers_of (r : Rules) (pool : Pool) : (shapeTyping r (.of pool)).Covers pool :=
  ⟨fun _ _ h => h, fun _ _ h => h, fun _ a _ h => ⟨a, h⟩⟩

/-! ## Depths -/

/-- The number of values on the operand stack. -/
def Shape.depth (d : Shape) : Nat := d.stack.length

@[simp] theorem Shape.depth_hold (os : List Held) (d : Shape) :
    (d.hold os).depth = os.length + d.depth := List.length_append

@[simp] theorem Shape.depth_push (ks : List Known) (d : Shape) :
    (d.push ks).depth = ks.length + d.depth := by
  rw [push, depth_hold, List.length_map]

/-- The count in the operand of a display. -/
theorem toNat_ofNat_of_lt {n : Nat} (h : n < 2 ^ 31) : (UInt32.ofNat n).toNat = n :=
  UInt32.toNat_ofNat_of_lt' (Nat.lt_trans h (by decide))

/-- As many parts as are held fit below the bound on the depth. -/
theorem Shape.length_lt_of_hold {os : List Held} {d : Shape} {n : Nat}
    (h : (d.hold os).depth < n) : os.length < n := by
  rw [depth_hold] at h
  omega

theorem Shape.length_lt_of_push {ks : List Known} {d : Shape} {n : Nat}
    (h : (d.push ks).depth < n) : ks.length < n := by
  rw [depth_push] at h
  omega

/-- A shape that says less is as deep. -/
theorem Shape.Le.depth_eq {d e : Shape} (h : d.Le e) : d.depth = e.depth := h.2.length_eq

namespace Opcode

/-- A count below 2^31 is not taken for a negative one. -/
theorem signedArg_ofNat {n : Nat} (h : n < 2 ^ 31) : signedArg (UInt32.ofNat n) = n := by
  have hsigned : signedArg (UInt32.ofNat n) = (BitVec.ofNat 32 n).toInt := rfl
  rw [hsigned, BitVec.toInt_ofNat', Int.bmod_eq_of_le] <;> omega

/-- What pushes a value makes the stack one deeper. -/
theorem stackEffect_of_isPush {op : Opcode} (h : op.isPush = true) (arg : UInt32) :
    op.stackEffect arg = 1 := by
  cases op <;> first | rfl | cases h

/-- What replaces a value leaves the depth. -/
theorem stackEffect_of_isUnary {op : Opcode} (h : op.isUnary = true) (arg : UInt32) :
    op.stackEffect arg = 0 := by
  cases op <;> first | rfl | cases h

/-- What replaces two values by one makes the stack one less deep. -/
theorem stackEffect_of_isBinary {op : Opcode} (h : op.isBinary = true) (arg : UInt32) :
    op.stackEffect arg = -1 := by
  cases op <;> first | rfl | cases h

/-- The four instructions that call. -/
theorem isCall_cases {op : Opcode} (h : op.isCall = true) :
    op = .call ∨ op = .callVar ∨ op = .callKw ∨ op = .callVarKw := by
  revert h
  cases op <;> decide

/-- A call takes off its arguments, and replaces the callee. -/
theorem stackEffect_of_isCall {op : Opcode} (h : op.isCall = true) (arg : UInt32) :
    op.stackEffect arg =
      -(op.extraArguments + 2 * namedCount arg + positionalCount arg : Nat) := by
  rcases isCall_cases h with rfl | rfl | rfl | rfl <;> simp only [stackEffect, extraArguments] <;>
      omega

end Opcode

/-- An instruction changes the depth by its effect, as far as its operand holds the count. -/
theorem Moves.depth_eq {r : Rules} {link : Linkage} {c : Scopes} {op : Opcode} {arg : UInt32}
    {d e : Shape} (h : Moves r link c op arg d e) :
    ∃ change : Int, (e.depth : Int) = d.depth + change ∧ change ≤ 2 ∧
      op.stackEffect arg ≡ change [ZMOD 2 ^ 32] ∧
      (d.depth < 2 ^ 31 → op.stackEffect arg = change) := by
  have known : ∀ change : Int, op.stackEffect arg = change → change ≤ 2 →
      (e.depth : Int) = d.depth + change → ∃ change : Int, (e.depth : Int) = d.depth + change ∧
        change ≤ 2 ∧ op.stackEffect arg ≡ change [ZMOD 2 ^ 32] ∧
        (d.depth < 2 ^ 31 → op.stackEffect arg = change) :=
    fun change heffect hle hdepth => ⟨change, hdepth, hle, heffect ▸ rfl, fun _ => heffect⟩
  -- the count of a display is known modulo `2 ^ 32`
  have counted : ∀ n : Nat, op.stackEffect arg = 1 - Opcode.signedArg (UInt32.ofNat n) →
      n ≤ d.depth → (e.depth : Int) = d.depth + (1 - n) →
      ∃ change : Int, (e.depth : Int) = d.depth + change ∧ change ≤ 2 ∧
        op.stackEffect arg ≡ change [ZMOD 2 ^ 32] ∧
        (d.depth < 2 ^ 31 → op.stackEffect arg = change) := by
    intro n heffect hn hdepth
    refine ⟨1 - n, hdepth, by omega, ?_, ?_⟩
    · rw [heffect]
      exact (Int.ModEq.refl 1).sub (Opcode.signedArg_ofNat_modEq n)
    · intro hlt
      rw [heffect, Opcode.signedArg_ofNat (Nat.lt_of_le_of_lt hn hlt)]
  cases h with
  | push hop => exact known 1 (Opcode.stackEffect_of_isPush hop _) (by decide) (by simp; omega)
  | unary hop => exact known 0 (Opcode.stackEffect_of_isUnary hop _) (by decide) (by simp)
  | binary hop =>
    exact known (-1) (Opcode.stackEffect_of_isBinary hop _) (by decide) (by simp; omega)
  | setDict hop =>
    rcases hop with rfl | rfl <;> exact known (-3) rfl (by decide) (by simp)
  | slice ks hks => exact known (-3) rfl (by decide) (by simp [hks]; omega)
  | setIndex ks hks => exact known (-3) rfl (by decide) (by simp [hks])
  | makeList ks d => exact counted ks.length rfl (by simp) (by simp; omega)
  | makeTuple ks d => exact counted ks.length rfl (by simp) (by simp; omega)
  | makePack os cells _ _ d => exact counted os.length rfl (by simp) (by simp; omega)
  | load n d => exact known (-1) rfl (by decide) (by simp; omega)
  | call hop f ks hks _ d =>
    refine known _ (Opcode.stackEffect_of_isCall hop arg) (by omega) ?_
    simp [hks]
    omega
  | iterPush k d => exact known (-1) rfl (by decide) (by simp [Shape.depth, Shape.push, Shape.hold])
  | iterPop d => exact known 0 rfl (by decide) (by simp [Shape.depth])
  | mandatory | dup | dup2 | makeDict | constant | getLocal | getCell | free | freeCell | localCell
  | getGlobal | predeclared | universal =>
    exact known _ rfl (by simp [Opcode.stackEffect]) (by simp [Opcode.stackEffect]; omega)
  | pop | append | setLocal | setLocalCell | setGlobal | setField =>
    exact known _ rfl (by simp [Opcode.stackEffect]) (by simp [Opcode.stackEffect])
  | exch | makeFunc | attr => exact known 0 rfl (by decide) (by simp)

/-- The depth of a shape is what a typing measures. -/
theorem measures_shapeTyping (r : Rules) (link : Linkage) :
    (shapeTyping r link).Measures Shape.depth where
  start := rfl
  le h := h.depth_eq
  step_modEq := by
    intro c op arg d e _ h
    obtain ⟨change, hdepth, -, hmod, -⟩ := h.depth_eq
    rw [hdepth]
    exact (Int.ModEq.refl _).add hmod.symm
  step_le := by
    intro c op arg d e _ h
    obtain ⟨change, hdepth, hle, -⟩ := h.depth_eq
    omega
  step_eq := by
    intro c op arg d e _ h hlt
    obtain ⟨change, hdepth, -, -, heffect⟩ := h.depth_eq
    rw [heffect hlt, hdepth]
  unpack := by
    rintro n _ _ ⟨k, b, rfl, rfl⟩
    simp only [Shape.depth_push, List.length_cons, List.length_nil, List.length_replicate]
    omega
  drop h := h
  branch := by
    rintro op d t f - (⟨rfl, k, rfl, rfl⟩ | ⟨rfl, -, rfl, rfl⟩)
    · simp [Opcode.stackEffect]
    · simp [Opcode.stackEffect, Nat.add_comm]
  ret := by
    rintro d ⟨k, hd⟩
    rw [Shape.depth, hd]
    exact Nat.one_pos

end Starlark
