import Mathlib.Algebra.Order.Ring.Int
import Starlark.Operation.Arithmetic
import Starlark.Proofs.Number.Division

/-!
# Integer operators

The operators on two integers are exact: the result is the mathematical one, and where that is no
word the operator fails and says so.
-/

set_option autoImplicit false

namespace Starlark

/-! ## Outcomes -/

/-- The computation fails with the given text. -/
def FailsWith (text : String) (r : Except Error Value) : Prop :=
  ∃ e, r = .error e ∧ e.message = text

/-- The computation gives the integer `n`. -/
def GivesInt (n : Int) (r : Except Error Value) : Prop :=
  ∃ w : Int64, w.toInt = n ∧ r = .ok (.int w)

/-- The computation gives the integer `n` if that has 64 bits, and overflows otherwise. -/
def Exactly (n : Int) (r : Except Error Value) : Prop :=
  (-2 ^ 63 ≤ n ∧ n < 2 ^ 63 → GivesInt n r) ∧
  (¬(-2 ^ 63 ≤ n ∧ n < 2 ^ 63) → FailsWith "int overflow" r)

/-- The operation does not look at the heap, and its outcome is as described. -/
def Op.Computes (x : Op Value) (P : Except Error Value → Prop) : Prop :=
  ∃ r, x = Op.check (fun _ => r) ∧ P r

/-- An integer that is narrowed is exact, or an overflow. -/
theorem exactly_intResult (n : Int) : Exactly n (intResult (Word.narrow? n)) := by
  constructor
  · intro hn
    have hin : Word.inRange n = true := Word.inRange_iff.2 hn
    have hword : Word.narrow? n = some (Int64.ofInt n) := if_pos hin
    refine ⟨Int64.ofInt n, (Word.narrow?_eq_some_iff _ _).1 hword, ?_⟩
    rw [hword]
    rfl
  · intro hn
    have hnone : Word.narrow? n = none := if_neg (mt Word.inRange_iff.1 hn)
    rw [hnone]
    exact ⟨_, rfl, rfl⟩

/-! ## Floor division -/

/-- There is a floor division by every divisor but zero. -/
theorem Word.IsFloorDivision.exists {a b : Int} (hb : b ≠ 0) : ∃ q r, IsFloorDivision a b q r := by
  obtain ⟨hsame, hdiffer⟩ := of_tdiv (a := a) hb
  by_cases hr : a.tmod b = 0
  · exact ⟨_, _, hsame (.inl hr)⟩
  · by_cases hsigns : a < 0 ↔ b < 0
    · exact ⟨_, _, hsame (.inr hsigns)⟩
    · exact ⟨_, _, hdiffer hr hsigns⟩

section Operators

variable {a b : Int64}

/-- The quotient is exact or overflows, as it does for the least word divided by -1. -/
theorem floorDivide_exact {q r : Int} (hb : b ≠ 0)
    (h : Word.IsFloorDivision a.toInt b.toInt q r) :
    Exactly q (floorDivide (.int a) (.int b)) := by
  rw [floorDivide, if_neg hb, Word.floorDiv?_eq hb h]
  exact exactly_intResult q

/-- The remainder is exact; it never overflows. -/
theorem modulo_exact {q r : Int} (hb : b ≠ 0) (h : Word.IsFloorDivision a.toInt b.toInt q r) :
    GivesInt r (modulo (.int a) (.int b)) := by
  rw [modulo, if_neg hb]
  exact ⟨_, Word.toInt_floorMod hb h, rfl⟩

/-! ## Shifts -/

/-- A left shift is exact or overflows, however far it goes. -/
theorem shiftLeft_exact (hb : 0 ≤ b) :
    Exactly (a.toInt * 2 ^ b.toInt.toNat) (shiftLeft a b) := by
  rw [shiftLeft, if_neg (Int64.not_lt.2 hb), Word.shiftLeft?_eq hb]
  exact exactly_intResult _

/-- A right shift is a floor division by a power of two, however far it goes. -/
theorem shiftRight_exact (hb : 0 ≤ b) :
    GivesInt (a.toInt.fdiv (2 ^ b.toInt.toNat)) (shiftRight a b) := by
  rw [shiftRight, if_neg (Int64.not_lt.2 hb)]
  refine ⟨_, ?_, rfl⟩
  rw [Word.toInt_shiftRight hb, Int.fdiv_eq_ediv_of_nonneg _ (Int.pow_nonneg (by decide))]

end Operators

/-! ## All operators -/

/-- Integer operators are exact or fail. Division is floor division, of which there is just one
result, and a shift multiplies or divides by a power of two, the quotient rounded to the floor. -/
theorem integer_operators_exact (a b : Int64) :
    (Op.binary .plus (.int a) (.int b)).Computes (Exactly (a.toInt + b.toInt)) ∧
    (Op.binary .minus (.int a) (.int b)).Computes (Exactly (a.toInt - b.toInt)) ∧
    (Op.binary .star (.int a) (.int b)).Computes (Exactly (a.toInt * b.toInt)) ∧
    (∀ h : Heap, Exactly (-a.toInt) (h.unary .minus (.int a))) ∧
    (b = 0 →
      (Op.binary .slashSlash (.int a) (.int b)).Computes (FailsWith "integer division by zero") ∧
      (Op.binary .percent (.int a) (.int b)).Computes (FailsWith "integer modulo by zero")) ∧
    (b ≠ 0 → ∃ q r,
      Word.IsFloorDivision a.toInt b.toInt q r ∧
      (∀ q' r', Word.IsFloorDivision a.toInt b.toInt q' r' → q' = q ∧ r' = r) ∧
      (Op.binary .slashSlash (.int a) (.int b)).Computes (Exactly q) ∧
      (Op.binary .percent (.int a) (.int b)).Computes (GivesInt r)) ∧
    (b < 0 →
      (Op.binary .ltLt (.int a) (.int b)).Computes (FailsWith "negative shift count") ∧
      (Op.binary .gtGt (.int a) (.int b)).Computes (FailsWith "negative shift count")) ∧
    (0 ≤ b →
      (Op.binary .ltLt (.int a) (.int b)).Computes (Exactly (a.toInt * 2 ^ b.toInt.toNat)) ∧
      (Op.binary .gtGt (.int a) (.int b)).Computes
        (GivesInt (a.toInt.fdiv (2 ^ b.toInt.toNat)))) := by
  refine ⟨?plus, ?minus, ?star, ?neg, ?zero, ?divide, ?negative, ?shift⟩
  case plus => exact ⟨_, rfl, exactly_intResult _⟩
  case minus => exact ⟨_, rfl, exactly_intResult _⟩
  case star => exact ⟨_, rfl, exactly_intResult _⟩
  case neg =>
    intro h
    exact exactly_intResult _
  case zero =>
    intro hb
    refine ⟨⟨_, rfl, ?_⟩, ⟨_, rfl, ?_⟩⟩
    · rw [floorDivide, if_pos hb]
      exact ⟨_, rfl, rfl⟩
    · rw [modulo, if_pos hb]
      exact ⟨_, rfl, rfl⟩
  -- quotient and remainder are determined by the dividend and the divisor, so both operators give
  -- parts of one division
  case divide =>
    intro hb
    obtain ⟨q, r, hqr⟩ := Word.IsFloorDivision.exists (a := a.toInt) (Word.toInt_ne_zero hb)
    refine ⟨q, r, hqr, ?_, ⟨_, rfl, floorDivide_exact hb hqr⟩, ⟨_, rfl, modulo_exact hb hqr⟩⟩
    intro q' r' h'
    exact hqr.unique h'
  case negative =>
    intro hb
    refine ⟨⟨shiftLeft a b, rfl, ?_⟩, ⟨shiftRight a b, rfl, ?_⟩⟩
    · rw [shiftLeft, if_pos hb]
      exact ⟨_, rfl, rfl⟩
    · rw [shiftRight, if_pos hb]
      exact ⟨_, rfl, rfl⟩
  case shift =>
    intro hb
    exact ⟨⟨_, rfl, shiftLeft_exact hb⟩, ⟨_, rfl, shiftRight_exact hb⟩⟩

/-- The least integer divided by minus one is too large, and nothing remains. -/
theorem integer_operators_exact_least :
    ∃ q r, Word.IsFloorDivision Int64.minValue.toInt (-1 : Int64).toInt q r ∧ q = 2 ^ 63 ∧
      (Op.binary .slashSlash (.int Int64.minValue) (.int (-1))).Computes
        (FailsWith "int overflow") ∧
      (Op.binary .percent (.int Int64.minValue) (.int (-1))).Computes (GivesInt 0) := by
  obtain ⟨-, -, -, -, -, hdivide, -⟩ := integer_operators_exact Int64.minValue (-1)
  obtain ⟨q, r, hqr, hunique, hquotient, hremainder⟩ := hdivide (by decide)
  have hleast : Word.IsFloorDivision Int64.minValue.toInt (-1 : Int64).toInt (2 ^ 63) 0 :=
    ⟨by decide, by decide, .inl rfl⟩
  obtain ⟨rfl, rfl⟩ := hunique _ _ hleast
  obtain ⟨res, hres, hexact⟩ := hquotient
  exact ⟨_, _, hqr, rfl, ⟨res, hres, hexact.2 (by decide)⟩, hremainder⟩

end Starlark
