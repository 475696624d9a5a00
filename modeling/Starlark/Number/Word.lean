/-!
# Arithmetic on 64-bit integers

A checked operation gives the exact result, or nothing if that is no word. Arithmetic that is not
checked (`Arithmetic`) wraps around at the ends of the words, or gives up there; what is computed
with it must see to it that its results are words. Division rounds to the floor and the remainder
has the sign of the divisor.
-/

set_option autoImplicit false

namespace Starlark.Word

/-- The integers of the word range. -/
def inRange (n : Int) : Bool := -0x8000000000000000 ≤ n && n < 0x8000000000000000

/-- The word with the given value, if it is in range. -/
def narrow? (n : Int) : Option Int64 := if inRange n then some (Int64.ofInt n) else none

theorem narrow?_eq_some_iff (n : Int) (w : Int64) : narrow? n = some w ↔ w.toInt = n := by
  constructor
  · intro h
    unfold narrow? at h
    split at h
    · rename_i hr
      simp only [inRange, Bool.and_eq_true, decide_eq_true_eq] at hr
      cases h
      exact Int64.toInt_ofInt_of_le hr.1 hr.2
    · cases h
  · rintro rfl
    have hlo := w.le_toInt
    have hhi := w.toInt_lt
    have hr : inRange w.toInt = true := by
      simp only [inRange, Bool.and_eq_true, decide_eq_true_eq]
      omega
    simp [narrow?, hr]

/-! ## Checked operations -/

/-- Exact sum. -/
def add? (a b : Int64) : Option Int64 := narrow? (a.toInt + b.toInt)

/-- Exact difference. -/
def sub? (a b : Int64) : Option Int64 := narrow? (a.toInt - b.toInt)

/-- Exact product. -/
def mul? (a b : Int64) : Option Int64 := narrow? (a.toInt * b.toInt)

/-- Exact negation. -/
def neg? (a : Int64) : Option Int64 := narrow? (-a.toInt)

/-- The quotient, rounded toward zero; there is none by zero. -/
def div? (a b : Int64) : Option Int64 :=
  if b = 0 then none else narrow? (a.toInt.tdiv b.toInt)

/-- The remainder of division toward zero; there is one where there is a quotient. -/
def rem? (a b : Int64) : Option Int64 := (div? a b).map fun _ => a % b

/-! ## Arithmetic that is not checked -/

/-- The operations of the machine, and what becomes of a result that is no word. -/
structure Arithmetic (m : Type → Type) where
  add : Int64 → Int64 → m Int64
  sub : Int64 → Int64 → m Int64
  mul : Int64 → Int64 → m Int64
  neg : Int64 → m Int64
  rem : Int64 → Int64 → m Int64
  shl : Int64 → Int64 → m Int64
  shr : Int64 → Int64 → m Int64

/-- Results wrap around, and so do the counts of shifts. -/
def wrapping : Arithmetic Id where
  add a b := a + b
  sub a b := a - b
  mul a b := a * b
  neg a := -a
  rem a b := a % b
  shl a n := a <<< n
  shr a n := a >>> n

/-- What is no word is no result, and a shift goes by less than the width of a word. -/
def trapping : Arithmetic Option where
  add := add?
  sub := sub?
  mul := mul?
  neg := neg?
  rem := rem?
  shl a n := if 0 ≤ n ∧ n < 64 then some (a <<< n) else none
  shr a n := if 0 ≤ n ∧ n < 64 then some (a >>> n) else none

namespace Arithmetic

variable {m : Type → Type} [Monad m] (M : Arithmetic m)

/-- The quotient rounded to the floor, if it is a word. The machine rounds toward zero, which is one
too much where the signs differ and something remains. -/
def floorDiv (a b : Int64) : m (Option Int64) :=
  match div? a b with
  | none => return none
  | some q => do
    let r ← M.rem a b
    if r ≠ 0 ∧ ¬(a < 0 ↔ b < 0) then return some (← M.sub q 1) else return some q

/-- The remainder of floor division. That of the machine has the sign of the dividend. -/
def floorMod (a b : Int64) : m Int64 :=
  let r := (rem? a b).getD 0
  if r ≠ 0 ∧ ¬(r < 0 ↔ b < 0) then M.add r b else return r

/-- `a * 2 ^ n`, if it is a word: the shifted word is shifted back to see whether bits were lost. -/
def shiftLeft (a n : Int64) : m (Option Int64) :=
  if a = 0 then return some 0
  else if 64 ≤ n then return none
  else do
    let r ← M.shl a n
    let back ← M.shr r n
    if back ≠ a then return none else return some r

/-- `a / 2 ^ n`, rounded to the floor. -/
def shiftRight (a n : Int64) : m Int64 :=
  if 64 ≤ n then return (if a < 0 then -1 else 0) else M.shr a n

end Arithmetic

/-- Floor quotient by a divisor other than zero. -/
def floorDiv? (a b : Int64) : Option Int64 := Id.run (wrapping.floorDiv a b)

/-- The remainder of floor division; it lies between zero and the divisor. -/
def floorMod (a b : Int64) : Int64 := Id.run (wrapping.floorMod a b)

/-- `a * 2 ^ n` for a count that is not negative. A count of 64 or more is in range only for
zero. -/
def shiftLeft? (a n : Int64) : Option Int64 := Id.run (wrapping.shiftLeft a n)

/-- `a / 2 ^ n`, rounded to the floor, for a count that is not negative. -/
def shiftRight (a n : Int64) : Int64 := Id.run (wrapping.shiftRight a n)

end Starlark.Word
