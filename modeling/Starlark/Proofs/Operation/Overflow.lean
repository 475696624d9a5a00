import Starlark.Proofs.Operation.Integers
import Starlark.Proofs.Operation.Slicing

/-!
# Where integers overflow

What the operators compute on the way to an integer result stays in the words, and so do the places
of indices; arithmetic that gives up instead of wrapping around does the same (`Word.trapping`). The
operators return, as does the assignment to an element; unary operators and indexing only read the
heap and cannot give up in the first place. There are two exceptions. The loop of a slice also
computes the place behind the last one, and `range` multiplies before it adds.
-/

set_option autoImplicit false

namespace Starlark

/-! ## Operations that give up -/

namespace Op

variable {α β : Type}

/-- Run in a heap, the operation gives up. -/
def GivesUp (m : Op α) (h : Heap) : Prop := ∃ a h', m h = .error (.abort a) h'

/-- The operation never gives up: it has a value or fails with an error. -/
def Returns (m : Op α) : Prop := ∀ h, ¬m.GivesUp h

namespace Returns

theorem pure (a : α) : Returns (pure a : Op α) := by
  rintro h ⟨_, _, ⟨⟩⟩

theorem fail (e : Error) : Returns (Op.fail e : Op α) := by
  rintro h ⟨_, _, ⟨⟩⟩

theorem read (f : Heap → α) : Returns (Op.read f) := by
  rintro h ⟨_, _, ⟨⟩⟩

theorem make (f : Heap → α × Heap) : Returns (Op.make f) := by
  rintro h ⟨_, _, ⟨⟩⟩

theorem modify (f : Heap → Heap) : Returns (modify f : Op PUnit) := by
  rintro h ⟨_, _, ⟨⟩⟩

theorem check (f : Heap → Except Error α) : Returns (Op.check f) := by
  rintro h ⟨a, h', hrun⟩
  unfold Op.check at hrun
  split at hrun
  · cases hrun
  · cases hrun

/-- Operations that return do so in sequence. -/
theorem bind {m : Op α} {f : α → Op β} (hm : Returns m) (hf : ∀ a, Returns (f a)) :
    Returns (m >>= f) := by
  rintro h ⟨a, h', hrun⟩
  change EStateM.bind m f h = _ at hrun
  unfold EStateM.bind at hrun
  split at hrun
  · exact hf _ _ ⟨a, h', hrun⟩
  · rename_i e h'' hstop
    cases hrun
    exact hm h ⟨a, _, hstop⟩

end Returns

/-- Reading does not give up, so only what follows can. -/
theorem givesUp_read_bind_iff {f : Heap → α} {k : α → Op β} {h : Heap} :
    GivesUp (read f >>= k) h ↔ GivesUp (k (f h)) h := Iff.rfl

/-- A check does not give up, so only what follows a success can. -/
theorem givesUp_check_bind_iff {f : Heap → Except Error α} {k : α → Op β} {h : Heap} :
    GivesUp (check f >>= k) h ↔ ∃ a, f h = .ok a ∧ GivesUp (k a) h := by
  have hrun : (check f >>= k) h = EStateM.bind (check f) k h := rfl
  rw [GivesUp, hrun, EStateM.bind, check]
  cases f h with
  | ok a =>
    constructor
    · intro hup
      exact ⟨a, rfl, hup⟩
    · rintro ⟨b, hb, hup⟩
      cases hb
      exact hup
  | error e =>
    constructor
    · rintro ⟨b, h', hup⟩
      cases hup
    · rintro ⟨b, hb, -⟩
      cases hb

end Op

/-! ## Operators -/

namespace Op

theorem returns_insert (r : DictRef) (k v : Value) : Returns (insert r k v) :=
  (Returns.check _).bind fun _ => (Returns.check _).bind fun _ => (Returns.read _).bind fun _ =>
    (Returns.modify _).bind fun _ => .pure _

theorem returns_insertAll (r : DictRef) (es : List (Value × Value)) : Returns (insertAll r es) := by
  induction es with
  | nil => exact .pure ()
  | cons e es ih => exact (returns_insert r e.1 e.2).bind fun _ => ih

theorem returns_plus (x y : Value) : Returns (plus x y) := by
  unfold plus
  split
  · exact .check _
  · exact .pure _
  · exact .pure _
  · exact .make _
  · exact .pure _
  · exact .check _

theorem returns_times (x : Value) (n : Int64) : Returns (times x n) := by
  unfold times
  split
  · exact (Returns.check _).bind fun _ => .pure _
  · exact (Returns.check _).bind fun _ => .pure _
  · exact (Returns.read _).bind fun _ => (Returns.check _).bind fun _ => .make _
  · exact (Returns.check _).bind fun _ => .pure _
  · exact .fail _

theorem returns_star (x y : Value) : Returns (star x y) := by
  unfold star
  split
  all_goals first
    | exact returns_times _ _
    | exact .check _

theorem returns_pipe (x y : Value) : Returns (pipe x y) := by
  unfold pipe
  split
  · exact (Returns.read _).bind fun entries => (Returns.make _).bind fun r =>
      (returns_insertAll r entries).bind fun _ => .pure _
  · exact .check _

/-- No operator on two values gives up. -/
theorem returns_binary (op : BinOp) (x y : Value) : Returns (binary op x y) := by
  cases op with
  | plus => exact returns_plus x y
  | star => exact returns_star x y
  | pipe => exact returns_pipe x y
  | and | or => exact .fail _
  | _ => exact .check _

theorem returns_setIndex (x y z : Value) : Returns (setIndex x y z) := by
  unfold setIndex
  split
  · exact (Returns.check _).bind fun _ => (Returns.check _).bind fun _ => .modify _
  · exact (returns_insert _ y z).bind fun _ => .pure _
  · exact .fail _

/-- A range does not give up, since its elements are computed without checks. -/
theorem returns_range (b : BuiltinObj) (args : List Value) (kwargs : Keywords)
    (hb : b.op = .range) : Returns (callStandard b args kwargs) := by
  unfold callStandard
  rw [hb]
  exact (Returns.check _).bind fun _ => (Returns.check _).bind fun _ =>
    (Returns.check _).bind fun _ => .make _

end Op

/-! ## Indices -/

section Indices

variable {i : Int64} {size : Nat}

/-- Resolving an index does not overflow. -/
theorem agrees_resolveIndex (i : Int64) (size : Nat) :
    Word.Agrees (Word.trapping.resolveIndex i size) (Word.wrapping.resolveIndex i size) := by
  unfold Word.Arithmetic.resolveIndex
  apply Word.Agrees.bind
  · split
    · exact Word.agrees_add _ _
    · exact .pure _
  · intro j
    split
    · exact .bind (Word.agrees_neg _) fun _ => .bind (Word.agrees_sub _ _) fun _ => .pure _
    · exact .pure _

/-- An index is counted from the end without an overflow. -/
theorem trapping_resolveIndex (hsize : size ≤ maxInt) :
    Word.trapping.resolveIndex i size = some (resolveIndex i size) := by
  have hlen := toInt_ofNat hsize
  unfold maxInt at hsize
  suffices hsome : ∃ r, Word.trapping.resolveIndex i size = some r by
    obtain ⟨r, hr⟩ := hsome
    rw [hr]
    exact congrArg some (agrees_resolveIndex i size r hr).symm
  obtain ⟨j, hj⟩ : ∃ j, (if i < 0 then Word.trapping.add i (Int64.ofNat size) else pure i) =
      some j := by
    split
    · rename_i hneg
      rw [Int64.lt_iff_toInt_lt, Int64.toInt_zero] at hneg
      have hlo := i.le_toInt
      have hin : Word.inRange (i.toInt + (Int64.ofNat size).toInt) = true := by
        rw [Word.inRange_iff]
        omega
      exact ⟨_, Word.narrow?_of_bmod (Int64.toInt_add _ _) hin⟩
    · exact ⟨i, rfl⟩
  -- the bounds that the error names
  have hneg : Word.trapping.neg (Int64.ofNat size) = some (-Int64.ofNat size) := by
    refine Word.narrow?_of_bmod (Int64.toInt_neg _) ?_
    rw [Word.inRange_iff]
    omega
  have hsub : Word.trapping.sub (Int64.ofNat size) 1 = some (Int64.ofNat size - 1) := by
    refine Word.narrow?_of_bmod (Int64.toInt_sub _ _) ?_
    rw [Word.inRange_iff, Int64.toInt_one]
    omega
  unfold Word.Arithmetic.resolveIndex
  simp only [hj, hneg, hsub, Option.bind_eq_bind, Option.bind_some]
  split
  · exact ⟨_, rfl⟩
  · exact ⟨_, rfl⟩

/-- A place that an index designates is a place of the sequence. -/
theorem resolveIndex_lt (hsize : size ≤ maxInt) {j : Nat} (h : resolveIndex i size = .ok j) :
    j < size := by
  have hlen := toInt_ofNat hsize
  rw [resolveIndex_eq] at h
  dsimp only at h
  generalize (if i < 0 then i + Int64.ofNat size else i) = place at h
  split at h
  · cases h
  · rename_i hin
    rw [not_or, Int64.not_le, Int64.lt_iff_toInt_lt, Int64.lt_iff_toInt_lt, hlen,
      Int64.toInt_zero] at hin
    cases h
    change Int.toNat _ < size
    omega

end Indices

/-! ## Slices -/

section Slices

variable {lo hi : Option Int64} {step : Int64}

/-- The step leads from the last place of a slice of `n` elements out of the integers. -/
def SliceOverflows (n : Nat) (lo hi : Option Int64) (step : Int64) : Prop :=
  ∃ k, sliceCount n lo hi step = k + 1 ∧ maxInt < slicePlace n lo step k + step.toInt

/-- The place behind the last one that is picked is no word if and only if the slice overflows. -/
theorem not_inRange_slicePlace_iff {n : Nat} (hn : n ≤ maxInt) (hstep : step ≠ 0) :
    ¬Word.inRange (slicePlace n lo step (sliceCount n lo hi step)) = true ↔
      SliceOverflows n lo hi step := by
  rw [inRange_slicePlace_iff hn lo hi hstep]
  unfold SliceOverflows
  simp only [not_forall, Int.not_le, exists_prop]

/-- A slice has a bound that is an integer, or none. -/
theorem sliceBound_eq_ok_iff {what : String} {v : Value} {b : Option Int64} :
    sliceBound what v = .ok b ↔ v = .ofBound b := by
  constructor
  · intro h
    cases v
    case null =>
      cases h
      rfl
    case int i =>
      cases h
      rfl
    all_goals cases h
  · rintro rfl
    exact sliceBound_ofBound what b

namespace Op

/-- Picking gives up exactly where the slice overflows. -/
theorem givesUp_sliced_bind_iff {α β : Type} {xs : Array α} (hn : xs.size ≤ maxInt)
    (hstep : step ≠ 0) {k : List α → Op β} (hk : ∀ picked, Returns (k picked)) (h : Heap) :
    GivesUp (sliced xs lo hi hstep >>= k) h ↔ SliceOverflows xs.size lo hi step := by
  rw [← not_inRange_slicePlace_iff hn hstep]
  by_cases hends :
      Word.inRange (slicePlace xs.size lo step (sliceCount xs.size lo hi step)) = true
  · -- what goes on with the elements returns
    rw [sliced_eq xs hn hstep hends, pure_bind]
    exact ⟨fun hup => absurd hup (hk _ h), fun hno => absurd hends hno⟩
  · have hnone : sliced xs lo hi hstep = abort .sliceIndex := by
      rw [sliced, sliceOf_eq xs hn lo hi hstep, if_neg hends]
    rw [hnone]
    exact ⟨fun _ => hends, fun _ => ⟨_, _, rfl⟩⟩

/-- Slicing by a step gives up exactly where the places of a sequence overflow. -/
theorem givesUp_sliceBy_iff {h : Heap} {x : Value}
    (hlen : ∀ n, h.length? x = some n → (n : Int) ≤ maxInt) (hstep : step ≠ 0) :
    GivesUp (sliceBy x lo hi hstep) h ↔
      ∃ n, x.kind ≠ .dict ∧ h.length? x = some n ∧ SliceOverflows n lo hi step := by
  -- a sequence is cut by its length
  have hsequence : ∀ {n : Nat}, x.kind ≠ .dict → h.length? x = some n →
      ((∃ n, x.kind ≠ .dict ∧ h.length? x = some n ∧ SliceOverflows n lo hi step) ↔
        SliceOverflows n lo hi step) := by
    intro n hkind hn
    constructor
    · rintro ⟨m, -, hm, hover⟩
      obtain rfl : n = m := Option.some.inj (hn.symm.trans hm)
      exact hover
    · intro hover
      exact ⟨n, hkind, hn, hover⟩
  cases x
  case list r =>
    have hn : (h.list r).elems.size ≤ maxInt := hlen _ rfl
    rw [hsequence (by rintro ⟨⟩) rfl, sliceBy, givesUp_read_bind_iff]
    exact givesUp_sliced_bind_iff hn hstep (fun _ => .make _) h
  case tuple elems =>
    have hn : elems.toArray.size ≤ maxInt := hlen _ rfl
    rw [hsequence (by rintro ⟨⟩) rfl, sliceBy]
    exact givesUp_sliced_bind_iff hn hstep (fun _ => .pure _) h
  case bytes bytes =>
    have hn : bytes.toArray.size ≤ maxInt := hlen _ rfl
    rw [hsequence (by rintro ⟨⟩) rfl, sliceBy]
    exact givesUp_sliced_bind_iff hn hstep (fun _ => .pure _) h
  case str s =>
    have hn : s.toUTF8.data.size ≤ maxInt := hlen _ rfl
    rw [hsequence (by rintro ⟨⟩) rfl, sliceBy]
    exact givesUp_sliced_bind_iff hn hstep (fun _ => .pure _) h
  case dict r =>
    constructor
    · exact fun hup => absurd hup (Returns.fail _ h)
    · rintro ⟨_, hkind, -⟩
      exact absurd rfl hkind
  all_goals
    constructor
    · exact fun hup => absurd hup (Returns.fail _ h)
    · rintro ⟨_, -, ⟨⟩, -⟩

/-- Slicing gives up exactly where its bounds and its step are such that the places of a sequence
overflow. -/
theorem givesUp_slice_iff {h : Heap} {x lo hi step : Value}
    (hlen : ∀ n, h.length? x = some n → (n : Int) ≤ maxInt) :
    GivesUp (slice x lo hi step) h ↔
      ∃ (n : Nat) (lo' hi' step' : Option Int64), x.kind ≠ .dict ∧ h.length? x = some n ∧
        lo = .ofBound lo' ∧ hi = .ofBound hi' ∧ step = .ofBound step' ∧ step'.getD 1 ≠ 0 ∧
        SliceOverflows n lo' hi' (step'.getD 1) := by
  -- the bounds are read first, each of which may fail, and only the walk over the places can
  -- overflow
  unfold slice
  rw [givesUp_check_bind_iff]
  constructor
  · rintro ⟨step', hstep', hup⟩
    dsimp only at hup
    split at hup
    · exact absurd hup (Returns.fail _ h)
    · rename_i hne
      obtain ⟨lo', hlo', hup⟩ := givesUp_check_bind_iff.1 hup
      obtain ⟨hi', hhi', hup⟩ := givesUp_check_bind_iff.1 hup
      obtain ⟨n, hkind, hn, hover⟩ := (givesUp_sliceBy_iff hlen hne).1 hup
      exact ⟨n, lo', hi', step', hkind, hn, sliceBound_eq_ok_iff.1 hlo',
        sliceBound_eq_ok_iff.1 hhi', sliceBound_eq_ok_iff.1 hstep', hne, hover⟩
  · rintro ⟨n, lo', hi', step', hkind, hn, hlo', hhi', hstep', hne, hover⟩
    refine ⟨step', sliceBound_eq_ok_iff.2 hstep', ?_⟩
    dsimp only
    rw [dif_neg hne, givesUp_check_bind_iff]
    refine ⟨lo', sliceBound_eq_ok_iff.2 hlo', ?_⟩
    rw [givesUp_check_bind_iff]
    refine ⟨hi', sliceBound_eq_ok_iff.2 hhi', ?_⟩
    exact (givesUp_sliceBy_iff hlen hne).2 ⟨n, hkind, hn, hover⟩

end Op

end Slices

/-! ## Ranges -/

/-- An element of a range that is computed without overflow is the same either way. -/
theorem agrees_rangeElement (start step : Int64) (i : Nat) :
    Word.Agrees (Word.trapping.rangeElement start step i)
        (Word.wrapping.rangeElement start step i) := by
  unfold Word.Arithmetic.rangeElement
  exact .bind (Word.agrees_mul _ _) fun _ => Word.agrees_add _ _

/-- An element of a range lies between words. -/
theorem inRange_element {start stop step : Int64} (hstep : step ≠ 0) {i : Nat}
    (hi : i < rangeCount start.toInt stop.toInt step.toInt) :
    Word.inRange (start.toInt + i * step.toInt) = true := by
  have hlo := start.le_toInt
  have hhi := start.toInt_lt
  have hlo' := stop.le_toInt
  have hhi' := stop.toInt_lt
  rw [Word.inRange_iff]
  rcases counted_between (Word.toInt_ne_zero hstep) hi with ⟨-, hplace⟩ | ⟨-, hplace⟩
  · omega
  · omega

/-- An element of a range is computed without an overflow exactly if the product in it is a word. -/
theorem trapping_rangeElement {start stop step : Int64} (hstep : step ≠ 0) {i : Nat}
    (hi : i < rangeCount start.toInt stop.toInt step.toInt) (hi' : i ≤ maxInt) :
    Word.trapping.rangeElement start step i =
      if Word.inRange (i * step.toInt) then
        some (Id.run (Word.wrapping.rangeElement start step i))
      else none := by
  have hfactor := toInt_ofNat hi'
  split
  · rename_i hin
    rw [← hfactor] at hin
    have hmul := Word.toInt_of_bmod (Int64.toInt_mul (Int64.ofNat i) step) hin
    have hproduct : Word.trapping.mul (Int64.ofNat i) step = some (Int64.ofNat i * step) :=
      (Word.narrow?_eq_some_iff _ _).2 hmul
    -- the element itself lies between the bounds, so the product is all that can overflow
    have hsum : Word.inRange (start.toInt + (Int64.ofNat i * step).toInt) = true := by
      rw [hmul, hfactor]
      exact inRange_element hstep hi
    have htrap : Word.trapping.rangeElement start step i = some (start + Int64.ofNat i * step) := by
      rw [Word.Arithmetic.rangeElement, hproduct]
      exact Word.narrow?_of_bmod (Int64.toInt_add _ _) hsum
    rw [htrap, agrees_rangeElement start step i _ htrap]
  · rename_i hout
    have hproduct : Word.trapping.mul (Int64.ofNat i) step = none := by
      refine if_neg ?_
      rwa [hfactor]
    rw [Word.Arithmetic.rangeElement, hproduct]
    rfl

/-! ## All of them -/

/-- The operators, the assignment to an element and `range` always return, and a slice gives up
exactly if it selects something and the step leads from the last place out of the integers. Places
that are indexed or selected are places of the sequence. What is computed on the way to an integer
is the same if arithmetic gives up where it would overflow, except for the product in `range`. -/
theorem overflow_exceptional (h : Heap) (x y z w : Value)
    (hlen : ∀ n, h.length? x = some n → (n : Int) ≤ maxInt) :
    (∀ op, ¬(Op.binary op x y).GivesUp h) ∧
    ¬(Op.setIndex x y z).GivesUp h ∧
    ((Op.slice x y z w).GivesUp h ↔
      ∃ (n : Nat) (lo hi step : Option Int64), x.kind ≠ .dict ∧ h.length? x = some n ∧
        y = .ofBound lo ∧ z = .ofBound hi ∧ w = .ofBound step ∧ step.getD 1 ≠ 0 ∧
        SliceOverflows n lo hi (step.getD 1)) ∧
    (∀ b args kwargs, b.op = .range → ¬(Op.callStandard b args kwargs).GivesUp h) ∧
    (∀ n, h.length? x = some n →
      (∀ i, Word.trapping.resolveIndex i n = some (resolveIndex i n) ∧
        ∀ j, resolveIndex i n = .ok j → j < n) ∧
      ∀ (lo hi : Option Int64) (step : Int64), step ≠ 0 → ∀ k < sliceCount n lo hi step,
        0 ≤ slicePlace n lo step k ∧ slicePlace n lo step k < n) ∧
    (∀ a b : Int64, b ≠ 0 →
      Word.trapping.floorDiv a b = some (Word.floorDiv? a b) ∧
      Word.trapping.floorMod a b = some (Word.floorMod a b)) ∧
    (∀ a b : Int64, 0 ≤ b →
      Word.trapping.shiftLeft a b = some (Word.shiftLeft? a b) ∧
      Word.trapping.shiftRight a b = some (Word.shiftRight a b)) ∧
    (∀ start stop step : Int64, step ≠ 0 →
      rangeCount start.toInt stop.toInt step.toInt ≤ maxRangeLength →
      ∀ i < rangeCount start.toInt stop.toInt step.toInt,
        Word.trapping.rangeElement start step i =
          if Word.inRange (i * step.toInt) then
            some (Id.run (Word.wrapping.rangeElement start step i))
          else none) := by
  refine ⟨fun op => Op.returns_binary op x y h, Op.returns_setIndex x y z h,
      Op.givesUp_slice_iff hlen,
    fun b args kwargs hb => Op.returns_range b args kwargs hb h, ?places, ?division, ?shift, ?range⟩
  case places =>
    intro n hn
    constructor
    · intro i
      exact ⟨trapping_resolveIndex (hlen n hn), fun j => resolveIndex_lt (hlen n hn)⟩
    · intro lo hi step hstep k hk
      exact slicePlace_bounds hstep hk
  case division =>
    intro a b hb
    -- what trapping and checking give are the parts of one and the same division
    obtain ⟨q, r, hqr⟩ := Word.IsFloorDivision.exists (a := a.toInt) (Word.toInt_ne_zero hb)
    obtain ⟨m, hmod, -⟩ := Word.trapping_floorMod hb hqr
    rw [Word.trapping_floorDiv hb hqr, Word.floorDiv?_eq hb hqr, hmod]
    exact ⟨rfl, congrArg some (Word.agrees_floorMod a b m hmod).symm⟩
  case shift =>
    intro a b hb
    obtain ⟨s, hshr, -⟩ := Word.trapping_shiftRight (a := a) hb
    rw [Word.trapping_shiftLeft hb, Word.shiftLeft?_eq hb, hshr]
    exact ⟨rfl, congrArg some (Word.agrees_shiftRight a b s hshr).symm⟩
  case range =>
    intro start stop step hstep hcount i hi
    refine trapping_rangeElement hstep hi ?_
    unfold maxRangeLength at hcount
    unfold maxInt
    omega

/-- Both exceptions happen: the step to the largest integer leads out of the integers from the
second of two elements, and twice `2 ^ 62` is no word. -/
theorem overflow_exceptional_slice :
    (Op.slice (.tuple [.int 1, .int 2]) (.int 1) .null (.int Int64.maxValue)).GivesUp {} ∧
      Word.trapping.rangeElement Int64.minValue 4611686018427387904 2 = none := by
  have hlen : ∀ n, Heap.length? {} (.tuple [.int 1, .int 2]) = some n → (n : Int) ≤ maxInt := by
    rintro n ⟨⟩
    decide
  obtain ⟨-, -, hslice, -, -, -, -, hrange⟩ := overflow_exceptional {} (.tuple [.int 1, .int 2])
    (.int 1) .null (.int Int64.maxValue) hlen
  constructor
  · rw [hslice]
    exact ⟨2, some 1, none, some Int64.maxValue, by
        decide, rfl, rfl, rfl, rfl, by decide, 0, by decide,
      by decide⟩
  · rw [hrange Int64.minValue Int64.maxValue 4611686018427387904 (by decide) (by decide) 2
      (by decide)]
    decide

end Starlark
