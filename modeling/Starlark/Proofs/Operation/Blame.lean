import Starlark.Operation.Library

/-!
# Errors that blame the code

Some errors say that the code that runs is malformed; all others say something about the values that
it works on. No computation on values blames the code, and an error that it raises has not left a
call.
-/

set_option autoImplicit false

namespace Starlark

/-- An error that blames the code, wherever it was raised. -/
def Error.isInternal : Error → Bool
  | .fault (.code _) => true
  | .load _ cause | .eval _ cause => cause.isInternal
  | _ => false

/-- An operation ended in a way that blames the code. -/
def Stop.isInternal : Stop → Bool
  | .error e => e.isInternal
  | .abort .tableIndex | .abort .parameterCount => true
  | .abort .sliceIndex => false

/-- An error is internal however many calls it has left. -/
@[simp] theorem Error.isInternal_wrap (e : Error) (stack : CallStack) :
    (e.wrap stack).isInternal = e.isInternal := by
  cases e <;> rfl

/-- An error that has left a call. -/
def Error.isWrapped : Error → Bool
  | .eval _ _ => true
  | _ => false

/-- An operation ended with an error that has left a call. -/
def Stop.isWrapped : Stop → Bool
  | .error e => e.isWrapped
  | .abort _ => false

/-- An error that computations on values raise themselves. -/
def Error.isOrdinary (e : Error) : Bool := !e.isInternal && !e.isWrapped

/-- An end of an operation on values. -/
def Stop.isOrdinary (e : Stop) : Bool := !e.isInternal && !e.isWrapped

/-- An ordinary error does not blame the code. -/
theorem Error.isInternal_of_isOrdinary {e : Error} (h : e.isOrdinary) : e.isInternal = false := by
  simp only [isOrdinary, Bool.and_eq_true, Bool.not_eq_true'] at h
  exact h.1

/-- What stops an operation in an ordinary way is no internal error. -/
theorem Stop.isInternal_of_isOrdinary {e : Stop} (h : e.isOrdinary) : e.isInternal = false := by
  simp only [isOrdinary, Bool.and_eq_true, Bool.not_eq_true'] at h
  exact h.1

/-- An ordinary error has not left a call yet. -/
theorem Error.isWrapped_of_isOrdinary {e : Error} (h : e.isOrdinary) : e.isWrapped = false := by
  simp only [isOrdinary, Bool.and_eq_true, Bool.not_eq_true'] at h
  exact h.2

/-- What stops an operation in an ordinary way has not left a call yet. -/
theorem Stop.isWrapped_of_isOrdinary {e : Stop} (h : e.isOrdinary) : e.isWrapped = false := by
  simp only [isOrdinary, Bool.and_eq_true, Bool.not_eq_true'] at h
  exact h.2

/-- A computation does not blame the code. -/
def Blameless {α : Type} (x : Except Error α) : Prop := ∀ e, x = .error e → e.isOrdinary

namespace Blameless

variable {α β : Type}

theorem ok (a : α) : Blameless (.ok a : Except Error α) := nofun

theorem error {e : Error} (h : e.isOrdinary) : Blameless (.error e : Except Error α) := by
  rintro _ ⟨⟩
  exact h

/-- Blameless computations in sequence are blameless. -/
theorem bind {x : Except Error α} {f : α → Except Error β} (hx : Blameless x)
    (hf : ∀ a, Blameless (f a)) : Blameless (x >>= f) := by
  intro e h
  cases x with
  | error e' =>
    cases h
    exact hx e rfl
  | ok a => exact hf a e h

theorem map {x : Except Error α} (hx : Blameless x) (f : α → β) : Blameless (x.map f) := by
  intro e h
  cases x with
  | error e' =>
    cases h
    exact hx e rfl
  | ok a => cases h

theorem ite {p : Prop} [Decidable p] {x y : Except Error α} (hx : Blameless x) (hy : Blameless y) :
    Blameless (if p then x else y) := by
  split
  · exact hx
  · exact hy

end Blameless

/-! ## Comparison -/

section Comparison

variable {α : Type}

/-- Comparing elements one by one fails only where a comparison fails. -/
theorem blameless_seqEqual {eq : α → α → Except Error Bool} (h : ∀ x y, Blameless (eq x y))
    (xs ys : List α) : Blameless (seqEqual eq xs ys) := by
  induction xs generalizing ys with
  | nil => cases ys <;> exact .ok _
  | cons x xs ih =>
    cases ys with
    | nil => exact .ok _
    | cons y ys => exact (h x y).bind fun b => .ite (ih ys) (.ok _)

/-- Sequences of different lengths are different before any elements are compared. -/
theorem blameless_sameLengthEqual {eq : α → α → Except Error Bool} (h : ∀ x y, Blameless (eq x y))
    (xs ys : List α) : Blameless (sameLengthEqual eq xs ys) :=
  .ite (blameless_seqEqual h xs ys) (.ok _)

/-- The order of sequences fails only where that of their elements does. -/
theorem blameless_seqOrder {eq : α → α → Except Error Bool}
    {order : α → α → Except Error (Option Ordering)} (heq : ∀ x y, Blameless (eq x y))
    (horder : ∀ x y, Blameless (order x y)) (xs ys : List α) :
    Blameless (seqOrder eq order xs ys) := by
  induction xs generalizing ys with
  | nil => cases ys <;> exact .ok _
  | cons x xs ih =>
    cases ys with
    | nil => exact .ok _
    | cons y ys => exact (heq x y).bind fun b => .ite (ih ys) (horder x y)

theorem blameless_checkHashable (v : Value) : Blameless v.checkHashable := by
  unfold Value.checkHashable
  split
  · exact .error rfl
  · exact .ok _

end Comparison

namespace Heap

variable (h : Heap)

theorem blameless_dictGet (r : DictRef) (k : Value) : Blameless (h.dictGet r k) :=
  (blameless_checkHashable k).bind fun _ => .ok _

/-- Dicts are compared by looking up the keys of one in the other. -/
theorem blameless_entriesEqual {eq : Value → Value → Except Error Bool}
    (heq : ∀ x y, Blameless (eq x y)) (b : DictRef) (es : List (Value × Value)) :
    Blameless (h.entriesEqual eq b es) := by
  induction es with
  | nil => exact .ok _
  | cons e es ih =>
    refine (h.blameless_dictGet b e.1).bind fun w => ?_
    cases w with
    | none => exact .ok _
    | some w => exact (heq e.2 w).bind fun b => .ite ih (.ok _)

/-- Equality fails by going too deep, and in no other way. -/
theorem blameless_equalAt (depth : Nat) (x y : Value) : Blameless (h.equalAt depth x y) := by
  induction depth generalizing x y with
  | zero => exact .error rfl
  | succ depth ih =>
    unfold equalAt
    split
    · exact .ite (.ok _) (blameless_sameLengthEqual ih _ _)
    · exact blameless_sameLengthEqual ih _ _
    · exact .ite (.ok _) (.ite (h.blameless_entriesEqual ih _ _) (.ok _))
    · exact .ok _

theorem blameless_equal (x y : Value) : Blameless (h.equal x y) := h.blameless_equalAt _ x y

/-- Order fails by going too deep, or on values that have none. -/
theorem blameless_orderAt (op : BinOp) (depth : Nat) (x y : Value) :
    Blameless (h.orderAt op depth x y) := by
  induction depth generalizing x y with
  | zero => exact .error rfl
  | succ depth ih =>
    unfold orderAt
    split
    all_goals first
      | exact .ok _
      | exact .error rfl
      | exact blameless_seqOrder (h.blameless_equalAt depth) ih _ _

theorem blameless_compare (op : BinOp) (x y : Value) : Blameless (h.compare op x y) := by
  unfold compare
  split
  · exact h.blameless_equal x y
  · exact (h.blameless_equal x y).map _
  · exact (h.blameless_orderAt _ _ x y).map _
  · exact (h.blameless_orderAt _ _ x y).map _
  · exact (h.blameless_orderAt _ _ x y).map _
  · exact (h.blameless_orderAt _ _ x y).map _
  · exact .error rfl

/-- Membership fails as the comparisons in it do, and on values that contain nothing. -/
theorem blameless_contains (container x : Value) : Blameless (h.contains container x) := by
  have hany : ∀ elems : List Value, Blameless (anyEqual (fun e => h.equal e x) elems) := by
    intro elems
    induction elems with
    | nil => exact .ok _
    | cons e elems ih => exact (h.blameless_equal e x).bind fun b => .ite (.ok _) ih
  unfold contains
  split
  · exact hany _
  · exact hany _
  · exact (h.blameless_dictGet _ x).map _
  · split
    · exact .ok _
    · exact .error rfl
  · split
    · exact .ok _
    · exact .ok _
    · exact .error rfl
  · exact .error rfl

end Heap

/-! ## Arithmetic -/

section Arithmetic

variable {op : BinOp}

theorem blameless_intResult (n : Option Int64) : Blameless (intResult n) := by
  cases n with
  | none => exact .error rfl
  | some n => exact .ok _

theorem blameless_floatOp {f : Float → Float → Except Error Float}
    (hf : ∀ a b, Blameless (f a b)) (x y : Value) : Blameless (floatOp op f x y) := by
  unfold floatOp
  split
  · exact (hf _ _).map _
  · exact .error rfl

/-- An operator on integers fails as its cases do, or on operands of other types. -/
theorem blameless_intOp {f : Int64 → Int64 → Except Error Value}
    (hf : ∀ a b, Blameless (f a b)) (x y : Value) : Blameless (intOp op f x y) := by
  unfold intOp
  split
  · exact hf _ _
  · exact .error rfl

/-- The cases of a difference: two integers, or two numbers of which one is a float. -/
theorem blameless_minus (x y : Value) : Blameless (minus x y) := by
  unfold minus
  split
  · exact blameless_intResult _
  · exact blameless_floatOp (fun _ _ => .ok _) x y

theorem blameless_divide (x y : Value) : Blameless (divide x y) :=
  blameless_floatOp (fun _ _ => .ite (.error rfl) (.ok _)) x y

theorem blameless_floorDivide (x y : Value) : Blameless (floorDivide x y) := by
  unfold floorDivide
  split
  · exact .ite (.error rfl) (blameless_intResult _)
  · exact blameless_floatOp (fun _ _ => .ite (.error rfl) (.ok _)) x y

theorem blameless_modulo (x y : Value) : Blameless (modulo x y) := by
  unfold modulo
  split
  · exact .ite (.error rfl) (.ok _)
  · exact blameless_floatOp (fun _ _ => .ite (.error rfl) (.ok _)) x y

theorem blameless_shiftLeft (a b : Int64) : Blameless (shiftLeft a b) :=
  .ite (.error rfl) (blameless_intResult _)

theorem blameless_shiftRight (a b : Int64) : Blameless (shiftRight a b) :=
  .ite (.error rfl) (.ok _)

theorem blameless_repeatCount (size : Nat) (n : Int64) : Blameless (repeatCount size n) :=
  .ite (.ok _) (.ite (.error rfl) (.ok _))

/-- A unary operator fails on an operand of another type, or by overflow. -/
theorem blameless_unary (h : Heap) (op : UnaryOp) (x : Value) : Blameless (h.unary op x) := by
  unfold Heap.unary
  split
  all_goals first
    | exact .ok _
    | exact blameless_intResult _
    | exact .error rfl

end Arithmetic

/-! ## Indexing and slicing -/

theorem blameless_indexInt (x : Kind) (y : Value) : Blameless (indexInt x y) := by
  unfold indexInt
  split
  · exact .ok _
  · exact .error rfl

/-- An index that is out of range is an error about values. -/
theorem blameless_resolveIndex (i : Int64) (size : Nat) : Blameless (resolveIndex i size) := by
  rw [resolveIndex_eq]
  exact .ite (.error rfl) (.ok _)

theorem blameless_elementAt {α : Type} (x : Kind) (elems : Array α) (y : Value) :
    Blameless (elementAt x elems y) := by
  refine (blameless_indexInt x y).bind fun i => (blameless_resolveIndex i _).bind fun j => ?_
  split
  · exact .ok _
  · exact .error rfl

/-- Indexing fails on values without elements, on other indices, and out of range. -/
theorem Heap.blameless_getIndex (h : Heap) (x y : Value) : Blameless (h.getIndex x y) := by
  unfold getIndex
  split
  · exact blameless_elementAt _ _ y
  · exact blameless_elementAt _ _ y
  · exact (blameless_elementAt _ _ y).map _
  · exact (blameless_elementAt _ _ y).map _
  · refine (h.blameless_dictGet _ y).bind fun v => ?_
    cases v with
    | none => exact .error rfl
    | some v => exact .ok _
  · exact .error rfl

theorem blameless_sliceBound (what : String) (v : Value) : Blameless (sliceBound what v) := by
  unfold sliceBound
  split
  · exact .ok _
  · exact .ok _
  · exact .error rfl

/-! ## Builtins -/

/-- Too few or too many arguments are an error about the arguments. -/
theorem blameless_checkArguments (b : BuiltinOp) (args : List Value) (kwargs : Keywords)
    (least most : Nat) : Blameless (checkArguments b args kwargs least most) :=
  .ite (.error rfl) (.ite (.error rfl) (.ite (.error rfl) (.ok _)))

theorem blameless_intArgument (b : BuiltinOp) (v : Value) : Blameless (intArgument b v) := by
  unfold intArgument
  split
  · exact .ok _
  · exact .error rfl

theorem blameless_listReceiver (b : BuiltinOp) (v : Option Value) :
    Blameless (listReceiver b v) := by
  unfold listReceiver
  split
  · exact .ok _
  · exact .error rfl
  · exact .error rfl

theorem blameless_dictReceiver (b : BuiltinOp) (v : Option Value) :
    Blameless (dictReceiver b v) := by
  unfold dictReceiver
  split
  · exact .ok _
  · exact .error rfl
  · exact .error rfl

theorem blameless_rangeBounds (args : List Value) : Blameless (rangeBounds args) := by
  have int := blameless_intArgument .range
  unfold rangeBounds
  split
  · exact (int _).bind fun _ => .ok _
  · exact (int _).bind fun _ => (int _).bind fun _ => .ok _
  · exact (int _).bind fun _ => (int _).bind fun _ => (int _).bind fun _ => .ok _
  · exact .ok _

/-- A range that is too long is an error about its bounds. -/
theorem blameless_rangeElements (start stop step : Int64) :
    Blameless (rangeElements start stop step) :=
  .ite (.error rfl) (.ite (.error rfl) (.ok _))

theorem Heap.blameless_printLine (h : Heap) (args : List Value) (kwargs : Keywords) :
    Blameless (h.printLine args kwargs) := by
  have hsep : Blameless (printSeparator kwargs) := by
    unfold printSeparator
    split
    · exact .ok _
    · exact .error rfl
    · exact .ok _
  refine hsep.bind fun sep => ?_
  split
  · exact .error rfl
  · exact .ok _

end Starlark
