import Mathlib.Algebra.Order.Ring.Int
import Mathlib.Tactic.Linarith
import Starlark.Operation.Library

/-!
# Counting by steps

From a start, a step other than zero leads before a stop finitely often, upward or downward. How
often is what `rangeCount` computes by one division.
-/

set_option autoImplicit false

namespace Starlark

/-- Whether `i` lies strictly before `stop`, in the direction of `step`. -/
def Precedes (step i stop : Int) : Prop := if 0 < step then i < stop else stop < i

instance (step i stop : Int) : Decidable (Precedes step i stop) :=
  inferInstanceAs (Decidable (if 0 < step then i < stop else stop < i))

/-- Counting up, what is smaller precedes. -/
theorem precedes_of_pos {step i stop : Int} (hstep : 0 < step) :
    Precedes step i stop ↔ i < stop := by
  rw [Precedes, if_pos hstep]

/-- Counting down, what is greater precedes. -/
theorem precedes_of_neg {step i stop : Int} (hstep : step < 0) :
    Precedes step i stop ↔ stop < i := by
  rw [Precedes, if_neg (by omega)]

/-- In a positive direction: rounding up the quotient counts the multiples below a span. -/
theorem lt_ceil_iff {span step : Int} (hstep : 0 < step) (k : Nat) :
    k < ((span + step - 1) / step).toNat ↔ k * step < span := by
  have hle : (k + 1 : Int) ≤ (span + step - 1) / step ↔ (k + 1) * step ≤ span + step - 1 :=
    Int.le_ediv_iff_mul_le hstep
  have hsplit : (k + 1 : Int) * step = k * step + step := by linarith [add_mul (k : Int) 1 step]
  omega

theorem add_succ_mul (start step : Int) (k : Nat) :
    start + (k + 1 : Nat) * step = start + step + k * step := by
  push_cast
  linarith [add_mul (k : Int) 1 step]

section Count

variable {start stop step : Int}

/-- The count of a range is the number of its elements. -/
theorem lt_rangeCount_iff (hstep : step ≠ 0) (k : Nat) :
    k < rangeCount start stop step ↔ Precedes step (start + k * step) stop := by
  -- the count rounds up, in the direction of the step
  rcases Int.lt_or_gt_of_ne hstep with hneg | hpos
  · have habs : (step.natAbs : Int) = -step := by omega
    have hflip : (k : Int) * -step = -(k * step) := Int.mul_neg _ _
    have hdown : (k : Int) * step ≤ 0 := Int.mul_nonpos_of_nonneg_of_nonpos (by omega) (by omega)
    rw [precedes_of_neg hneg]
    simp only [rangeCount, habs, if_neg (Int.lt_asymm hneg)]
    split
    · omega
    · rw [lt_ceil_iff (by omega), hflip]
      omega
  · have habs : (step.natAbs : Int) = step := by omega
    have hup : 0 ≤ (k : Int) * step := Int.mul_nonneg (by omega) (by omega)
    rw [precedes_of_pos hpos]
    simp only [rangeCount, habs, if_pos hpos]
    split
    · omega
    · rw [lt_ceil_iff hpos]
      omega

/-- What is counted lies between the start and the stop. -/
theorem counted_between (hstep : step ≠ 0) {k : Nat} (hk : k < rangeCount start stop step) :
    0 < step ∧ start ≤ start + k * step ∧ start + k * step < stop ∨
      step < 0 ∧ stop < start + k * step ∧ start + k * step ≤ start := by
  have hprecedes := (lt_rangeCount_iff hstep k).1 hk
  rcases Int.lt_or_gt_of_ne hstep with hneg | hpos
  · right
    have hdown : (k : Int) * step ≤ 0 := Int.mul_nonpos_of_nonneg_of_nonpos (by omega) (by omega)
    rw [precedes_of_neg hneg] at hprecedes
    omega
  · left
    have hup : 0 ≤ (k : Int) * step := Int.mul_nonneg (by omega) (by omega)
    rw [precedes_of_pos hpos] at hprecedes
    omega

/-- Nothing is counted from the stop on. -/
theorem rangeCount_of_not_precedes (hstep : step ≠ 0) (h : ¬Precedes step start stop) :
    rangeCount start stop step = 0 := by
  have hzero : 0 < rangeCount start stop step ↔ Precedes step (start + (0 : Nat) * step) stop :=
    lt_rangeCount_iff hstep 0
  rw [Int.natCast_zero, Int.zero_mul, Int.add_zero] at hzero
  exact Nat.eq_zero_of_not_pos (mt hzero.1 h)

/-- What precedes the stop is counted, and then what follows it. -/
theorem rangeCount_of_precedes (hstep : step ≠ 0) (h : Precedes step start stop) :
    rangeCount start stop step = rangeCount (start + step) stop step + 1 := by
  -- both sides are above the same numbers
  have hlt : ∀ k, k < rangeCount start stop step ↔ k < rangeCount (start + step) stop step + 1 := by
    intro k
    rw [lt_rangeCount_iff hstep]
    cases k with
    | zero => simpa using h
    | succ k =>
      rw [Nat.succ_lt_succ_iff, lt_rangeCount_iff hstep]
      rw [add_succ_mul]
  exact eq_of_forall_lt_iff hlt

end Count

/-! ## The places on the way -/

/-- The places are `start`, `start + step` and so on, as long as they lie before `stop`. -/
structure Progresses {n : Nat} (start stop step : Int) (places : List (Fin n)) : Prop where
  place : ∀ k (hk : k < places.length), ((places[k] : Nat) : Int) = start + k * step
  before : ∀ k < places.length, Precedes step (start + k * step) stop
  stopped : ¬Precedes step (start + places.length * step) stop

namespace Progresses

variable {n : Nat} {start stop step : Int} {places : List (Fin n)}

/-- A progression has as many places as there are steps. -/
theorem length_eq (h : Progresses start stop step places) (hstep : step ≠ 0) :
    places.length = rangeCount start stop step := by
  have hle := mt (lt_rangeCount_iff hstep places.length).1 h.stopped
  by_contra hne
  have hmiss : ¬rangeCount start stop step < rangeCount start stop step := Nat.lt_irrefl _
  rw [lt_rangeCount_iff hstep] at hmiss
  exact hmiss (h.before _ (by omega))

/-- There is one progression from a start to a stop. -/
theorem unique (h : Progresses start stop step places) (hstep : step ≠ 0) {places' : List (Fin n)}
    (h' : Progresses start stop step places') : places = places' := by
  apply List.ext_getElem
  · rw [h.length_eq hstep, h'.length_eq hstep]
  · intro k hk hk'
    have hplace := h.place k hk
    have hplace' := h'.place k hk'
    rw [Fin.ext_iff]
    omega

/-- Upward, the places grow. -/
theorem ascending (h : Progresses start stop step places) (hstep : 0 < step) :
    places.Pairwise (· < ·) := by
  rw [List.pairwise_iff_getElem]
  intro i j hi hj hij
  have hmono : (i : Int) * step < j * step := Int.mul_lt_mul_of_pos_right (by omega) hstep
  have hplace := h.place i hi
  have hplace' := h.place j hj
  rw [Fin.lt_def]
  omega

/-- Downward, the places shrink. -/
theorem descending (h : Progresses start stop step places) (hstep : step < 0) :
    places.Pairwise (· > ·) := by
  rw [List.pairwise_iff_getElem]
  intro i j hi hj hij
  have hmono : (j : Int) * step < i * step := Int.mul_lt_mul_of_neg_right (by omega) hstep
  have hplace := h.place i hi
  have hplace' := h.place j hj
  rw [gt_iff_lt, Fin.lt_def]
  omega

end Progresses

end Starlark
