import Starlark.Data.Text
import Starlark.Number.Word
import Starlark.Operation.Mutation

/-!
# Indexing, slicing and attributes

An index counts from the end when it is negative. Texts are indexed and cut by bytes, and what is
then no longer UTF-8 becomes U+FFFD. The bounds of a slice are clamped to the sequence.
-/

set_option autoImplicit false

namespace Starlark

/-- The largest integer of a script. -/
def maxInt : Int := 0x7fffffffffffffff

/-! ## Indexing -/

/-- The integer of an index into a container of type `x`. -/
def indexInt (x : Kind) : Value → Except Error Int64
  | .int i => .ok i
  | y => .error (.fault (.indexType x y.kind))

/-- The place that an index designates in a sequence of `size` elements. -/
def Word.Arithmetic.resolveIndex {m : Type → Type} [Monad m] (M : Arithmetic m) (i : Int64)
    (size : Nat) : m (Except Error Nat) := do
  let len := Int64.ofNat size
  let j ← (if i < 0 then M.add i len else pure i)
  if j < 0 ∨ len ≤ j then
    let least ← M.neg len
    let most ← M.sub len 1
    return .error (.fault (.indexRange i.toInt least.toInt most.toInt))
  else return .ok j.toNatClampNeg

/-- The place that an index designates in a sequence of `size` elements. -/
def resolveIndex (i : Int64) (size : Nat) : Except Error Nat :=
  Id.run (Word.wrapping.resolveIndex i size)

theorem resolveIndex_eq (i : Int64) (size : Nat) :
    resolveIndex i size =
      let len := Int64.ofNat size
      let j := if i < 0 then i + len else i
      if j < 0 ∨ len ≤ j then .error (.fault (.indexRange i.toInt (-len).toInt (len - 1).toInt))
      else .ok j.toNatClampNeg := by
  unfold resolveIndex Word.Arithmetic.resolveIndex
  by_cases hi : i < 0
  · simp only [if_pos hi]
    rfl
  · simp only [if_neg hi]
    rfl

/-- The element at an index. -/
def elementAt {α : Type} (x : Kind) (elems : Array α) (y : Value) : Except Error α := do
  let i ← indexInt x y
  let j ← resolveIndex i elems.size
  match elems[j]? with
  | some v => .ok v
  | none => .error (.fault (.indexRange i.toInt (-elems.size) (elems.size - 1)))

namespace Heap

/-- Evaluate `x[y]`. -/
def getIndex (h : Heap) (x y : Value) : Except Error Value :=
  match x with
  | .list r => elementAt .list (h.list r).elems y
  | .tuple elems => elementAt .tuple elems.toArray y
  | .str s => (elementAt .str s.toUTF8.data y).map fun b => .str (Utf8.decode [b])
  | .bytes b => (elementAt .bytes b.toArray y).map fun b => .int (Int64.ofNat b.toNat)
  | .dict r => do
    match ← h.dictGet r y with
    | some v => .ok v
    | none => .error (.fault (.missingKey (h.repr y)))
  | x => .error (.unsupported x.kind .indexing)

end Heap

namespace Op

/-- Evaluate `x[y] = z`. -/
def setIndex (x y z : Value) : Op Unit :=
  match x with
  | .list r => do
    checkList r "assign to element of"
    let i ← check fun h => do resolveIndex (← indexInt .list y) (h.list r).elems.size
    modify fun h => h.modifyList r fun l => { l with elems := l.elems.setIfInBounds i z }
  | .dict r => do
    let _ ← insert r y z
  | x => fail (.unsupported x.kind .itemAssignment)

end Op

/-! ## Slicing -/

/-- A bound of a slice; `None` is absent. -/
def sliceBound (what : String) : Value → Except Error (Option Int64)
  | .null => .ok none
  | .int n => .ok (some n)
  | v => .error (.fault (.sliceBound what v.kind))

/-- A bound counted from the end if negative, and clamped. -/
def clampBound (len least most i : Int64) : Option Int64 := do
  let j ← if i < 0 then Word.add? i len else some i
  return max least (min most j)

/-- Where a slice starts and where it stops, the stop excluded. -/
def sliceEnds (len : Int64) (lo hi : Option Int64) (step : Int64) : Option (Int64 × Int64) :=
  if 0 < step then do
    let start ← lo.elim (some 0) (clampBound len 0 len)
    let stop ← hi.elim (some len) (clampBound len 0 len)
    return (start, stop)
  else do
    let last ← Word.sub? len 1
    let start ← lo.elim (some last) (clampBound len (-1) last)
    let stop ← hi.elim (some (-1)) (clampBound len (-1) last)
    return (start, stop)

/-- Whether a place comes before the stop, in the direction of the step. -/
def Before (step stop i : Int64) : Prop := if 0 < step then i < stop else stop < i

instance (step stop i : Int64) : Decidable (Before step stop i) := by
  unfold Before
  infer_instance

/-- How far the stop is away, in the direction of the step. -/
def distance (step stop i : Int64) : Nat :=
  if 0 < step then (stop.toInt - i.toInt).toNat else (i.toInt - stop.toInt).toNat

theorem distance_lt {step stop i j : Int64} (hstep : step ≠ 0) (hi : Before step stop i)
    (hj : Word.add? i step = some j) : distance step stop j < distance step stop i := by
  rw [Word.add?, Word.narrow?_eq_some_iff] at hj
  unfold Before at hi
  unfold distance
  split
  · rename_i hpos
    rw [if_pos hpos, Int64.lt_iff_toInt_lt] at hi
    rw [Int64.lt_iff_toInt_lt, Int64.toInt_zero] at hpos
    omega
  · rename_i hpos
    rw [if_neg hpos, Int64.lt_iff_toInt_lt] at hi
    rw [Int64.lt_iff_toInt_lt, Int64.toInt_zero] at hpos
    rw [Ne, ← Int64.toInt_inj, Int64.toInt_zero] at hstep
    omega

/-- The places from `i` on, step by step up to the stop. The place behind the last one is computed
as well, and it must be a word. -/
def walk {step : Int64} (hstep : step ≠ 0) (stop i : Int64) (places : Array Nat) :
    Option (Array Nat) :=
  if _hi : Before step stop i then
    match _hj : Word.add? i step with
    | none => none
    | some j => walk hstep stop j (places.push i.toNatClampNeg)
  else some places
termination_by distance step stop i
decreasing_by exact distance_lt hstep _hi _hj

/-- The places that a slice selects. -/
def slicePlaces (size : Nat) (lo hi : Option Int64) {step : Int64} (hstep : step ≠ 0) :
    Option (Array Nat) := do
  let (start, stop) ← sliceEnds (Int64.ofNat size) lo hi step
  walk hstep stop start #[]

/-- The elements that a slice selects. -/
def sliceOf {α : Type} (elems : Array α) (lo hi : Option Int64) {step : Int64} (hstep : step ≠ 0) :
    Option (List α) := do
  let places ← slicePlaces elems.size lo hi hstep
  places.toList.mapM fun i => elems[i]?

namespace Op

/-- Select elements, or give up. -/
def sliced {α : Type} (elems : Array α) (lo hi : Option Int64) {step : Int64} (hstep : step ≠ 0) :
    Op (List α) :=
  match sliceOf elems lo hi hstep with
  | some picked => return picked
  | none => abort .sliceIndex

/-- Select elements of a sequence with a step other than zero. -/
def sliceBy (x : Value) (lo hi : Option Int64) {step : Int64} (hstep : step ≠ 0) : Op Value :=
  match x with
  | .list r => do
    let picked ← sliced (← read fun h => (h.list r).elems) lo hi hstep
    make fun h => h.newList picked.toArray
  | .tuple elems => return .tuple (← sliced elems.toArray lo hi hstep)
  | .str s => return .str (Utf8.decode (← sliced s.toUTF8.data lo hi hstep))
  | .bytes b => return .bytes (← sliced b.toArray lo hi hstep)
  | x => fail (.unsupported x.kind .slicing)

/-- Evaluate `x[lo:hi:step]`. -/
def slice (x lo hi step : Value) : Op Value := do
  let step := (← check fun _ => sliceBound "step" step).getD 1
  if hstep : step = 0 then fault .zeroStep
  else
    let lo ← check fun _ => sliceBound "start index" lo
    let hi ← check fun _ => sliceBound "end index" hi
    sliceBy x lo hi hstep

end Op

/-! ## Attributes -/

/-- The method of a type with the given name. -/
def methodOp? : Kind → String → Option BuiltinOp
  | .list, "append" => some .append
  | .list, "extend" => some .extend
  | .dict, "get" => some .get
  | .dict, "keys" => some .keys
  | .dict, "items" => some .items
  | _, _ => none

namespace Op

/-- The method of a value with the given name, bound to it; each time a new one. -/
def method? (x : Value) (name : String) : Op (Option Value) :=
  match methodOp? x.kind name with
  | some op => some <$> make fun h => h.newBuiltin op (some x)
  | none => return none

/-- Evaluate `x.name`; only methods are attributes. -/
def getAttr (x : Value) (name : String) : Op Value := do
  match ← method? x name with
  | some v => return v
  | none => fault (.noAttribute x.kind name)

/-- Evaluate `x.name = y`; no type has fields to assign. -/
def setField (x : Value) (name : String) : Op Unit :=
  fault (.fieldAssignment x.kind name)

end Op

end Starlark
