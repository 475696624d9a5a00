import Mathlib.Algebra.Order.Ring.Int
import Mathlib.Tactic.Linarith
import Mathlib.Tactic.Ring
import Starlark.Number.Word

/-!
# Floor division and shifts of words

The machine divides toward zero and shifts bits out at the ends of a word. What is made of that is
floor division (`IsFloorDivision`, of which there is only one) and multiplication and division by
powers of two, and every result on the way is a word: arithmetic that wraps around and arithmetic
that gives up at a result that is no word come to the same.
-/

set_option autoImplicit false

namespace Starlark.Word

/-! ## Results that are words -/

section Results

variable {a b w : Int64} {n : Int}

/-- The words are the integers from -2^63 to 2^63 - 1. -/
theorem inRange_iff : inRange n = true ↔ -0x8000000000000000 ≤ n ∧ n < 0x8000000000000000 := by
  simp [inRange]

theorem inRange_toInt (w : Int64) : inRange w.toInt = true := by
  rw [inRange_iff]
  exact ⟨w.le_toInt, w.toInt_lt⟩

theorem toInt_ne_zero (h : w ≠ 0) : w.toInt ≠ 0 := by
  rw [Ne, ← Int64.toInt_zero, Int64.toInt_inj]
  exact h

/-- An integer that is no word overflows. -/
theorem narrow?_eq_none_iff : narrow? n = none ↔ inRange n = false := by
  unfold narrow?
  split
  · rename_i h
    simp [h]
  · rename_i h
    simp [h]

/-- What is congruent to a word and in range is that word. -/
theorem toInt_of_bmod (hw : w.toInt = n.bmod (2 ^ 64)) (hn : inRange n = true) : w.toInt = n := by
  rw [inRange_iff] at hn
  rw [hw, Int.bmod_eq_of_le]
  · exact hn.1
  · exact hn.2

/-- What is computed modulo the width of the words is the exact result, if there is one. -/
theorem eq_of_narrow? {r : Int64} (hw : w.toInt = n.bmod (2 ^ 64)) (h : narrow? n = some r) :
    w = r := by
  rw [narrow?_eq_some_iff] at h
  rw [← Int64.toInt_inj, h]
  refine toInt_of_bmod hw ?_
  rw [← h]
  exact inRange_toInt r

/-- A word that is congruent to an integer in range is that integer. -/
theorem narrow?_of_bmod (hw : w.toInt = n.bmod (2 ^ 64)) (hn : inRange n = true) :
    narrow? n = some w :=
  (narrow?_eq_some_iff _ _).2 (toInt_of_bmod hw hn)

end Results

/-! ## Wrapping and trapping -/

/-- What a computation gives that gives up where a result is no word, the other one gives as
well. -/
def Agrees {α : Type} (x : Option α) (y : Id α) : Prop := ∀ r, x = some r → Id.run y = r

namespace Agrees

variable {α β : Type}

theorem pure (r : α) : Agrees (Pure.pure r) (Pure.pure r) := by
  intro r' h
  exact Option.some.inj h

/-- Computations that agree do so in sequence. -/
theorem bind {x : Option α} {y : Id α} {f : α → Option β} {g : α → Id β} (hx : Agrees x y)
    (hf : ∀ r, Agrees (f r) (g r)) : Agrees (x >>= f) (y >>= g) := by
  intro r h
  obtain ⟨s, hs, hr⟩ := Option.bind_eq_some_iff.1 h
  have hy : Id.run y = s := hx s hs
  subst hy
  exact hf _ r hr

end Agrees

section Agreement

variable (a b n : Int64)

/-- Where a sum does not overflow, wrapping around makes no difference. -/
theorem agrees_add : Agrees (trapping.add a b) (wrapping.add a b) :=
  fun _ h => eq_of_narrow? (Int64.toInt_add a b) h

theorem agrees_sub : Agrees (trapping.sub a b) (wrapping.sub a b) :=
  fun _ h => eq_of_narrow? (Int64.toInt_sub a b) h

theorem agrees_mul : Agrees (trapping.mul a b) (wrapping.mul a b) :=
  fun _ h => eq_of_narrow? (Int64.toInt_mul a b) h

theorem agrees_neg : Agrees (trapping.neg a) (wrapping.neg a) :=
  fun _ h => eq_of_narrow? (Int64.toInt_neg a) h

theorem agrees_rem : Agrees (trapping.rem a b) (wrapping.rem a b) := by
  intro r h
  obtain ⟨_, -, hr⟩ := Option.map_eq_some_iff.1 h
  exact hr

theorem agrees_shl : Agrees (trapping.shl a n) (wrapping.shl a n) := by
  intro r h
  exact (Option.some.inj (Option.ite_none_right_eq_some.1 h).2)

theorem agrees_shr : Agrees (trapping.shr a n) (wrapping.shr a n) := by
  intro r h
  exact (Option.some.inj (Option.ite_none_right_eq_some.1 h).2)

/-- A floor division takes one correction, which does not overflow where the division does not. -/
theorem agrees_floorDiv : Agrees (trapping.floorDiv a b) (wrapping.floorDiv a b) := by
  unfold Arithmetic.floorDiv
  split
  · exact .pure _
  · apply Agrees.bind (agrees_rem a b)
    intro r
    split
    · exact .bind (agrees_sub _ _) fun _ => .pure _
    · exact .pure _

/-- A floor remainder takes one correction, which does not overflow. -/
theorem agrees_floorMod : Agrees (trapping.floorMod a b) (wrapping.floorMod a b) := by
  unfold Arithmetic.floorMod
  simp only
  split
  · exact agrees_add _ _
  · exact .pure _

/-- A left shift is checked by shifting back. -/
theorem agrees_shiftLeft : Agrees (trapping.shiftLeft a n) (wrapping.shiftLeft a n) := by
  unfold Arithmetic.shiftLeft
  split
  · exact .pure _
  · split
    · exact .pure _
    · apply Agrees.bind (agrees_shl a n)
      intro r
      apply Agrees.bind (agrees_shr r n)
      intro back
      split
      · exact .pure _
      · exact .pure _

theorem agrees_shiftRight : Agrees (trapping.shiftRight a n) (wrapping.shiftRight a n) := by
  unfold Arithmetic.shiftRight
  split
  · exact .pure _
  · exact agrees_shr a n

end Agreement

/-! ## Floor division -/

/-- A remainder of division toward zero has the sign of the dividend. -/
theorem tmod_neg_iff {a b : Int} (h : a.tmod b ≠ 0) : a.tmod b < 0 ↔ a < 0 := by
  constructor
  · intro hr
    by_contra ha
    exact absurd (Int.tmod_nonneg b (Int.not_lt.1 ha)) (Int.not_le.2 hr)
  · intro ha
    have hneg := Int.tmod_nonneg b (a := -a) (by omega)
    rw [Int.neg_tmod] at hneg
    omega

/-- `q` and `r` are quotient and remainder of `a` by `b`, where the remainder has the sign of
`b`. -/
structure IsFloorDivision (a b q r : Int) : Prop where
  eq : a = q * b + r
  lt : r.natAbs < b.natAbs
  sign : r.sign = 0 ∨ r.sign = b.sign

namespace IsFloorDivision

variable {a b q r q' r' : Int}

/-- The remainder lies between zero and the divisor. -/
theorem bounds (h : IsFloorDivision a b q r) : 0 ≤ r ∧ r < b ∨ b < r ∧ r ≤ 0 := by
  obtain ⟨-, hlt, hsign⟩ := h
  rcases hsign with hzero | hsame
  · rw [Int.sign_eq_zero_iff_zero] at hzero
    omega
  · rcases Int.lt_trichotomy b 0 with hb | hb | hb
    · rw [Int.sign_eq_neg_one_of_neg hb, Int.sign_eq_neg_one_iff_neg] at hsame
      omega
    · omega
    · rw [Int.sign_eq_one_of_pos hb, Int.sign_eq_one_iff_pos] at hsame
      omega

/-- Quotient and remainder are determined. -/
theorem unique (h : IsFloorDivision a b q r) (h' : IsFloorDivision a b q' r') :
    q' = q ∧ r' = r := by
  have hdiff : (q - q') * b = r' - r := by linarith [h.eq, h'.eq, sub_mul q q' b]
  -- both remainders are in one range that is shorter than the divisor
  have hsmall : (r' - r).natAbs < b.natAbs := by
    have hr := h.bounds
    have hr' := h'.bounds
    have hlt := h.lt
    omega
  have hq : q - q' = 0 := by
    by_contra hne
    rw [← hdiff, Int.natAbs_mul] at hsmall
    have hone : 1 ≤ (q - q').natAbs := Int.natAbs_pos.2 hne
    have hle : 1 * b.natAbs ≤ (q - q').natAbs * b.natAbs := Nat.mul_le_mul_right _ hone
    omega
  rw [hq, zero_mul] at hdiff
  omega

/-- Division toward zero is floor division if nothing remains or the signs agree, and one more
otherwise. -/
theorem of_tdiv (hb : b ≠ 0) :
    (a.tmod b = 0 ∨ (a < 0 ↔ b < 0) → IsFloorDivision a b (a.tdiv b) (a.tmod b)) ∧
    (a.tmod b ≠ 0 → ¬(a < 0 ↔ b < 0) → IsFloorDivision a b (a.tdiv b - 1) (a.tmod b + b)) := by
  have heq : a = a.tdiv b * b + a.tmod b := by
    rw [Int.mul_comm]
    exact (Int.mul_tdiv_add_tmod a b).symm
  -- truncation leaves a remainder small enough, with the sign of the dividend
  have hlt : (a.tmod b).natAbs < b.natAbs := by
    rw [Int.natAbs_tmod]
    exact Nat.mod_lt _ (Int.natAbs_pos.2 hb)
  constructor
  · intro hsame
    refine ⟨heq, hlt, ?_⟩
    by_cases hr : a.tmod b = 0
    · left
      rw [hr]
      rfl
    · right
      have hsign := tmod_neg_iff hr
      rcases Int.lt_or_gt_of_ne hr with hneg | hpos
      · rw [Int.sign_eq_neg_one_of_neg hneg, Int.sign_eq_neg_one_of_neg (by omega)]
      · rw [Int.sign_eq_one_of_pos hpos, Int.sign_eq_one_of_pos (by omega)]
  · intro hr hdiffer
    refine ⟨?_, ?_, ?_⟩
    · calc a = a.tdiv b * b + a.tmod b := heq
        _ = (a.tdiv b - 1) * b + (a.tmod b + b) := by ring
    · have hsign := tmod_neg_iff hr
      omega
    · right
      have hsign := tmod_neg_iff hr
      rcases Int.lt_or_gt_of_ne hr with hneg | hpos
      · rw [Int.sign_eq_one_of_pos (a := b) (by omega), Int.sign_eq_one_of_pos (by omega)]
      · rw [Int.sign_eq_neg_one_of_neg (a := b) (by omega), Int.sign_eq_neg_one_of_neg (by omega)]

end IsFloorDivision

/-! ## The division of the machine -/

section Division

variable {a b : Int64} {q r : Int}

/-- A quotient that leaves a remainder is far from the ends of the words. -/
theorem natAbs_tdiv_le (a : Int64) {b : Int} (hb : 2 ≤ b.natAbs) :
    (a.toInt.tdiv b).natAbs ≤ 2 ^ 62 := by
  rw [Int.natAbs_tdiv]
  have hle : a.toInt.natAbs / b.natAbs ≤ a.toInt.natAbs / 2 := Nat.div_le_div_left hb (by decide)
  have hlo := a.le_toInt
  have hhi := a.toInt_lt
  change a.toInt.natAbs / b.natAbs ≤ 2 ^ 62
  omega

/-- Division by 1 or -1 leaves no remainder. -/
theorem two_le_natAbs_of_tmod_ne_zero {a b : Int} (hb : b ≠ 0) (h : a.tmod b ≠ 0) :
    2 ≤ b.natAbs := by
  have hlt : (a.tmod b).natAbs < b.natAbs := by
    rw [Int.natAbs_tmod]
    exact Nat.mod_lt _ (Int.natAbs_pos.2 hb)
  omega

/-- Only a divisor of one or minus one leads out of the words, and then nothing remains. -/
theorem tmod_eq_zero_of_tdiv {b : Int} (hb : b ≠ 0) (h : inRange (a.toInt.tdiv b) = false) :
    a.toInt.tmod b = 0 := by
  by_contra hne
  have hsmall := natAbs_tdiv_le a (two_le_natAbs_of_tmod_ne_zero hb hne)
  have hin : inRange (a.toInt.tdiv b) = true := by
    rw [inRange_iff]
    omega
  rw [h] at hin
  cases hin

/-- Where there is a quotient, there is a remainder. -/
theorem rem?_of_div? {w : Int64} (h : div? a b = some w) : rem? a b = some (a % b) := by
  rw [rem?, h]
  rfl

/-- The quotient of floor division; every result on the way to it is a word. -/
theorem trapping_floorDiv (hb : b ≠ 0) (h : IsFloorDivision a.toInt b.toInt q r) :
    trapping.floorDiv a b = some (narrow? q) := by
  have hb' := toInt_ne_zero hb
  have htdiv := IsFloorDivision.of_tdiv (a := a.toInt) hb'
  have hdiv : div? a b = narrow? (a.toInt.tdiv b.toInt) := if_neg hb
  unfold Arithmetic.floorDiv
  cases hw : div? a b with
  | none =>
    -- then nothing remains, and the quotient that is no word is the right one
    rw [hdiv, narrow?_eq_none_iff] at hw
    have hexact := tmod_eq_zero_of_tdiv hb' hw
    obtain ⟨rfl, -⟩ := (htdiv.1 (.inl hexact)).unique h
    rw [narrow?_eq_none_iff.2 hw]
    rfl
  | some w =>
    have hrem : trapping.rem a b = some (a % b) := rem?_of_div? hw
    rw [hdiv, narrow?_eq_some_iff] at hw
    have hzero : a % b ≠ 0 ↔ a.toInt.tmod b.toInt ≠ 0 := by
      rw [Ne, ← Int64.toInt_inj, Int64.toInt_mod, Int64.toInt_zero]
    have hsigns : (a < 0 ↔ b < 0) ↔ (a.toInt < 0 ↔ b.toInt < 0) := by
      rw [Int64.lt_iff_toInt_lt, Int64.lt_iff_toInt_lt, Int64.toInt_zero]
    simp only [hrem, Option.bind_eq_bind, Option.bind_some]
    split
    · -- a quotient that is corrected is far from the ends of the words
      rename_i hcorrect
      have hne := hzero.1 hcorrect.1
      obtain ⟨rfl, -⟩ := (htdiv.2 hne (mt hsigns.2 hcorrect.2)).unique h
      have hsmall := natAbs_tdiv_le a (two_le_natAbs_of_tmod_ne_zero hb' hne)
      have hin : inRange (w.toInt - (1 : Int64).toInt) = true := by
        rw [inRange_iff, hw, Int64.toInt_one]
        omega
      have hsub := narrow?_of_bmod (Int64.toInt_sub w 1) hin
      change (narrow? (w.toInt - 1)).bind _ = some (narrow? (a.toInt.tdiv b.toInt - 1))
      rw [← hw]
      change narrow? (w.toInt - 1) = some (w - 1) at hsub
      rw [hsub]
      rfl
    · rename_i hcorrect
      have hsame : a.toInt.tmod b.toInt = 0 ∨ (a.toInt < 0 ↔ b.toInt < 0) := by
        rw [← hsigns]
        by_contra hno
        rw [not_or] at hno
        exact hcorrect ⟨hzero.2 hno.1, hno.2⟩
      obtain ⟨rfl, -⟩ := (htdiv.1 hsame).unique h
      rw [(narrow?_eq_some_iff _ _).2 hw]
      rfl

/-- The checked floor division gives the quotient if that is a word. -/
theorem floorDiv?_eq (hb : b ≠ 0) (h : IsFloorDivision a.toInt b.toInt q r) :
    floorDiv? a b = narrow? q :=
  agrees_floorDiv a b _ (trapping_floorDiv hb h)

/-- The remainder of floor division; every result on the way to it is a word. -/
theorem trapping_floorMod (hb : b ≠ 0) (h : IsFloorDivision a.toInt b.toInt q r) :
    ∃ w, trapping.floorMod a b = some w ∧ w.toInt = r := by
  have hb' := toInt_ne_zero hb
  have htdiv := IsFloorDivision.of_tdiv (a := a.toInt) hb'
  unfold Arithmetic.floorMod
  -- where the machine has no remainder nothing remains
  have hrem : ((rem? a b).getD 0).toInt = a.toInt.tmod b.toInt := by
    cases hw : div? a b with
    | some w =>
      rw [rem?_of_div? hw]
      exact Int64.toInt_mod a b
    | none =>
      have hout : inRange (a.toInt.tdiv b.toInt) = false := by
        rwa [div?, if_neg hb, narrow?_eq_none_iff] at hw
      rw [rem?, hw, tmod_eq_zero_of_tdiv hb' hout]
      rfl
  generalize (rem? a b).getD 0 = m at hrem
  have hzero : m ≠ 0 ↔ a.toInt.tmod b.toInt ≠ 0 := by
    rw [Ne, ← Int64.toInt_inj, hrem, Int64.toInt_zero]
  have hsigns : a.toInt.tmod b.toInt ≠ 0 →
      ((m < 0 ↔ b < 0) ↔ (a.toInt < 0 ↔ b.toInt < 0)) := by
    intro hne
    rw [Int64.lt_iff_toInt_lt, Int64.lt_iff_toInt_lt, Int64.toInt_zero, hrem, tmod_neg_iff hne]
  simp only
  split
  · rename_i hcorrect
    have hne := hzero.1 hcorrect.1
    obtain ⟨-, rfl⟩ := (htdiv.2 hne (mt (hsigns hne).2 hcorrect.2)).unique h
    rw [← hrem]
    -- a remainder is smaller than the divisor, and so it is a word
    have hin : inRange (m.toInt + b.toInt) = true := by
      have hbounds := h.bounds
      have hlo := b.le_toInt
      have hhi := b.toInt_lt
      rw [inRange_iff, hrem]
      omega
    have hadd := toInt_of_bmod (Int64.toInt_add m b) hin
    exact ⟨m + b, (narrow?_eq_some_iff _ _).2 hadd, hadd⟩
  · rename_i hcorrect
    have hsame : a.toInt.tmod b.toInt = 0 ∨ (a.toInt < 0 ↔ b.toInt < 0) := by
      by_contra hno
      rw [not_or] at hno
      exact hcorrect ⟨hzero.2 hno.1, mt (hsigns hno.1).1 hno.2⟩
    obtain ⟨-, rfl⟩ := (htdiv.1 hsame).unique h
    exact ⟨m, rfl, hrem⟩

/-- The floor remainder is always a word. -/
theorem toInt_floorMod (hb : b ≠ 0) (h : IsFloorDivision a.toInt b.toInt q r) :
    (floorMod a b).toInt = r := by
  obtain ⟨w, htrap, hw⟩ := trapping_floorMod hb h
  rw [floorMod, agrees_floorMod a b w htrap]
  exact hw

end Division

/-! ## Shifts -/

section Shifts

variable {a n : Int64}

/-- A shift by less than 64 is not reduced. -/
theorem toNat_smod (hn : 0 ≤ n) (hlt : n < 64) : (n.toBitVec.smod 64).toNat = n.toInt.toNat := by
  have hnonneg : 0 ≤ n.toInt := by
    rwa [Int64.le_iff_toInt_le, Int64.toInt_zero] at hn
  have hsmall : n.toInt < 64 := by
    rwa [Int64.lt_iff_toInt_lt] at hlt
  have hmod : (n.toBitVec.smod 64).toInt = n.toInt := by
    rw [BitVec.toInt_smod]
    change Int.fmod n.toInt 64 = n.toInt
    rw [Int.fmod_eq_emod_of_nonneg _ (by decide), Int.emod_eq_of_lt hnonneg hsmall]
  rw [BitVec.toInt_eq_toNat_cond] at hmod
  have hbound := (n.toBitVec.smod 64).isLt
  split at hmod
  · omega
  · omega

theorem toInt_shl (hn : 0 ≤ n) (hlt : n < 64) :
    (a <<< n).toInt = (a.toInt * 2 ^ n.toInt.toNat).bmod (2 ^ 64) := by
  change (a <<< n).toBitVec.toInt = _
  rw [Int64.toBitVec_shiftLeft, BitVec.shiftLeft_eq', toNat_smod hn hlt, BitVec.toInt_shiftLeft,
    Nat.shiftLeft_eq]
  change _ = (a.toBitVec.toInt * _).bmod _
  rw [BitVec.toInt_eq_toNat_bmod a.toBitVec, Int.bmod_mul_bmod]
  push_cast
  rfl

theorem toInt_shr (hn : 0 ≤ n) (hlt : n < 64) :
    (a >>> n).toInt = a.toInt / 2 ^ n.toInt.toNat := by
  change (a >>> n).toBitVec.toInt = _
  rw [Int64.toBitVec_shiftRight, BitVec.sshiftRight', toNat_smod hn hlt, BitVec.toInt_sshiftRight,
    Int.shiftRight_eq_div_pow]
  push_cast
  rfl

/-- Every word but zero leaves the words when it is shifted by their width. -/
theorem not_inRange_mul_two_pow {a : Int} {k : Nat} (ha : a ≠ 0) (hk : 64 ≤ k) :
    inRange (a * 2 ^ k) = false := by
  have hpow : (2 : Int) ^ 64 ≤ 2 ^ k := pow_le_pow_right₀ (by decide) hk
  have hnat : (2 ^ 64 : Nat) ≤ (a * 2 ^ k).natAbs := by
    rw [Int.natAbs_mul]
    calc (2 ^ 64 : Nat) ≤ ((2 : Int) ^ k).natAbs := by omega
      _ ≤ a.natAbs * ((2 : Int) ^ k).natAbs := Nat.le_mul_of_pos_left _ (Int.natAbs_pos.2 ha)
  rw [← Bool.not_eq_true, inRange_iff]
  omega

/-- What is shifted out does not come back. -/
theorem shl_shr_eq_iff (hn : 0 ≤ n) (hlt : n < 64) :
    (a <<< n) >>> n = a ↔ inRange (a.toInt * 2 ^ n.toInt.toNat) = true := by
  have hpos : (0 : Int) < 2 ^ n.toInt.toNat := Int.pow_pos (by decide)
  rw [← Int64.toInt_inj, toInt_shr hn hlt]
  constructor
  · intro hback
    -- the shifted word is a multiple of the power, and so it is the product itself
    have hwidth : (2 : Int) ^ n.toInt.toNat ∣ 2 ^ 64 := by
      rw [Int64.lt_iff_toInt_lt] at hlt
      change n.toInt < 64 at hlt
      exact pow_dvd_pow 2 (by omega)
    have hdvd : (2 : Int) ^ n.toInt.toNat ∣ (a <<< n).toInt := by
      have hsplit := Int.bmod_add_bdiv (a.toInt * 2 ^ n.toInt.toNat) (2 ^ 64)
      rw [toInt_shl hn hlt, ← Int.dvd_add_left (Dvd.dvd.mul_right hwidth _)]
      change _ ∣ Int.bmod _ _ + (2 ^ 64 : Nat) * _
      rw [hsplit]
      exact Int.dvd_mul_left _ _
    rw [← hback, Int.ediv_mul_cancel hdvd]
    exact inRange_toInt _
  · intro hin
    rw [toInt_of_bmod (toInt_shl hn hlt) hin, Int.mul_ediv_cancel _ hpos.ne']

/-- The product with a power of two; the shifts there and back are shorter than a word. -/
theorem trapping_shiftLeft (hn : 0 ≤ n) :
    trapping.shiftLeft a n = some (narrow? (a.toInt * 2 ^ n.toInt.toNat)) := by
  have hnonneg : 0 ≤ n.toInt := by
    rwa [Int64.le_iff_toInt_le, Int64.toInt_zero] at hn
  unfold Arithmetic.shiftLeft
  split
  · rename_i hzero
    rw [hzero, Int64.toInt_zero, zero_mul]
    rfl
  · rename_i hzero
    have hne := toInt_ne_zero hzero
    split
    · rename_i hwide
      rw [Int64.le_iff_toInt_le] at hwide
      change 64 ≤ n.toInt at hwide
      rw [narrow?_eq_none_iff.2 (not_inRange_mul_two_pow hne (by omega))]
      rfl
    · rename_i hwide
      have hlt : n < 64 := Int64.not_le.1 hwide
      have hshl : trapping.shl a n = some (a <<< n) := if_pos ⟨hn, hlt⟩
      have hshr : trapping.shr (a <<< n) n = some ((a <<< n) >>> n) := if_pos ⟨hn, hlt⟩
      simp only [hshl, hshr, Option.bind_eq_bind, Option.bind_some]
      split
      -- shifting back does not give the number again just where bits were lost
      · rename_i hlost
        have hout : inRange (a.toInt * 2 ^ n.toInt.toNat) = false := by
          rw [← Bool.not_eq_true]
          exact mt (shl_shr_eq_iff hn hlt).2 hlost
        rw [narrow?_eq_none_iff.2 hout]
        rfl
      · rename_i hback
        have hin := (shl_shr_eq_iff hn hlt).1 (not_not.1 hback)
        rw [narrow?_of_bmod (toInt_shl hn hlt) hin]
        rfl

/-- The checked shift gives the product with a power of two if that is a word. -/
theorem shiftLeft?_eq (hn : 0 ≤ n) : shiftLeft? a n = narrow? (a.toInt * 2 ^ n.toInt.toNat) :=
  agrees_shiftLeft a n _ (trapping_shiftLeft hn)

/-- A shift by the width of a word or more leaves the sign. -/
theorem ediv_two_pow_of_wide (a : Int64) {k : Nat} (hk : 64 ≤ k) :
    (if a < 0 then (-1 : Int64) else 0).toInt = a.toInt / 2 ^ k := by
  have hpow : (2 : Int) ^ 64 ≤ 2 ^ k := pow_le_pow_right₀ (by decide) hk
  have hlo := a.le_toInt
  have hhi := a.toInt_lt
  split
  · rename_i hneg
    rw [Int64.lt_iff_toInt_lt, Int64.toInt_zero] at hneg
    symm
    have hone : (-1 : Int64).toInt = -1 := by decide
    rw [Int.ediv_eq_iff_of_pos (by omega), hone]
    omega
  · rename_i hneg
    rw [Int64.lt_iff_toInt_lt, Int64.toInt_zero] at hneg
    exact (Int.ediv_eq_zero_of_lt (by omega) (by omega)).symm

/-- The quotient by a power of two, rounded to the floor; the shift is shorter than a word. -/
theorem trapping_shiftRight (hn : 0 ≤ n) :
    ∃ w, trapping.shiftRight a n = some w ∧ w.toInt = a.toInt / 2 ^ n.toInt.toNat := by
  unfold Arithmetic.shiftRight
  split
  · rename_i hwide
    rw [Int64.le_iff_toInt_le] at hwide
    change 64 ≤ n.toInt at hwide
    exact ⟨_, rfl, ediv_two_pow_of_wide a (by omega)⟩
  · rename_i hwide
    have hlt : n < 64 := Int64.not_le.1 hwide
    exact ⟨a >>> n, if_pos ⟨hn, hlt⟩, toInt_shr hn hlt⟩

/-- Shifting right divides by a power of two, to the floor. -/
theorem toInt_shiftRight (hn : 0 ≤ n) : (shiftRight a n).toInt = a.toInt / 2 ^ n.toInt.toNat := by
  obtain ⟨w, htrap, hw⟩ := trapping_shiftRight (a := a) hn
  rw [shiftRight, agrees_shiftRight a n w htrap]
  exact hw

end Shifts

end Starlark.Word
