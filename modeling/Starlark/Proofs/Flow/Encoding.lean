import Starlark.Flow.Emit
import Mathlib.Tactic.Ring

/-!
# Reading back encoded instructions

What `Emit.insnBytes` writes, `fetch` reads: the same opcode and operand, and the address after the
operand (`fetch_insnBytes`). The bytes that fill up a wide operand are read as `nop`s
(`fetch_filling`).
-/

set_option autoImplicit false

namespace Starlark

/-! ## Bytes at an address -/

/-- The code holds the bytes at the address. -/
def CodeAt (code : Array UInt8) : (pc : Nat) → List UInt8 → Prop
  | _, [] => True
  | pc, b :: rest => code[pc]? = some b ∧ CodeAt code (pc + 1) rest

namespace CodeAt

variable {code : Array UInt8}

theorem append_iff {pc : Nat} {xs ys : List UInt8} :
    CodeAt code pc (xs ++ ys) ↔ CodeAt code pc xs ∧ CodeAt code (pc + xs.length) ys := by
  induction xs generalizing pc with
  | nil => simp [CodeAt]
  | cons x xs ih =>
    rw [List.cons_append, CodeAt, CodeAt, ih, List.length_cons,
      show pc + 1 + xs.length = pc + (xs.length + 1) by omega, and_assoc]

/-- A part of the code stands at the number of the bytes before it. -/
theorem of_toList_eq {pre bytes post : List UInt8} (h : code.toList = pre ++ bytes ++ post) :
    CodeAt code pre.length bytes := by
  induction bytes generalizing pre with
  | nil => trivial
  | cons b bytes ih =>
    refine ⟨?_, ?_⟩
    · rw [← Array.getElem?_toList, h]
      simp
    · have h' : code.toList = (pre ++ [b]) ++ bytes ++ post := by simp [h]
      simpa using ih h'

end CodeAt

/-! ## Operands -/

namespace Leb128

theorem length_encode_pos (n : Nat) : 0 < (encode n).length := by
  rw [encode]
  split <;> simp

theorem length_encode_le_iff {n k : Nat} : (encode n).length ≤ k + 1 ↔ n < 128 ^ (k + 1) := by
  induction k generalizing n with
  | zero =>
    rw [encode]
    split
    · simpa
    · have := length_encode_pos (n / 128)
      simp only [List.length_cons]
      omega
  | succ k ih =>
    rw [encode]
    split
    · rename_i h
      have hp : 128 ^ 1 ≤ 128 ^ (k + 1 + 1) := Nat.pow_le_pow_right (by decide) (by omega)
      simp only [List.length_cons, List.length_nil]
      omega
    · rw [List.length_cons, Nat.add_le_add_iff_right, ih,
        Nat.div_lt_iff_lt_mul (by decide), ← Nat.pow_succ]

theorem length_encode_toNat_le (x : UInt32) : (encode x.toNat).length ≤ 5 := by
  have h := x.toNat_lt
  exact length_encode_le_iff.2 (Nat.lt_of_lt_of_le h (by decide))

/-- A number is read back from its bytes. -/
theorem readOperand_encode {code : Array UInt8} {n left pc weight acc : Nat}
    (h : CodeAt code pc (encode n)) (hleft : (encode n).length ≤ left) :
    readOperand code left pc weight acc =
      .ok (UInt32.ofNat (acc + n * weight), pc + (encode n).length) := by
  -- each byte takes seven bits off the operand
  induction n using Nat.strongRecOn generalizing left pc weight acc with
  | ind n ih =>
    obtain ⟨left, rfl⟩ : ∃ k, left = k + 1 :=
      ⟨left - 1, by have := length_encode_pos n; omega⟩
    rw [encode] at h hleft
    rw [encode, readOperand]
    by_cases hn : n < 128
    · simp only [hn, ↓reduceIte, CodeAt, and_true] at h
      have hb : (UInt8.ofNat n).toNat = n := by simp; omega
      have hlast : isLast (UInt8.ofNat n) = true := by
        simp only [isLast, decide_eq_true_eq, UInt8.lt_iff_toNat_lt, hb]
        exact hn
      simp only [h, hlast, payload, hb, hn, ↓reduceIte, Nat.mod_eq_of_lt, List.length_cons,
        List.length_nil]
    · simp only [hn, ↓reduceIte, CodeAt] at h hleft
      have hb : (UInt8.ofNat (n % 128 + 128)).toNat = n % 128 + 128 := by simp; omega
      have hlast : isLast (UInt8.ofNat (n % 128 + 128)) = false := by
        simp only [isLast, decide_eq_false_iff_not, UInt8.lt_iff_toNat_lt, hb]
        have h128 : (128 : UInt8).toNat = 128 := rfl
        omega
      have hpay : payload (UInt8.ofNat (n % 128 + 128)) = n % 128 := by
        simp only [payload, hb]
        omega
      have hrec : readOperand code left (pc + 1) (weight * 128) (acc + n % 128 * weight) = _ :=
        ih (n / 128) (by omega) h.2 (Nat.le_of_succ_le_succ hleft)
      have hval : acc + n % 128 * weight + n / 128 * (weight * 128) = acc + n * weight := by
        conv_rhs => rw [← Nat.mod_add_div n 128]
        ring
      simp only [h.1, hlast, hpay, hn, ↓reduceIte, Bool.false_eq_true, hrec, hval,
        List.length_cons]
      rw [Nat.add_assoc, Nat.add_comm 1]

end Leb128

/-! ## Instructions -/

theorem Opcode.hasArg_of_isCondJump {op : Opcode} (h : op.isCondJump = true) :
    op.hasArg = true := by
  cases op <;> first | rfl | cases h

namespace Emit

/-- The filling behind an operand of at least `width` bytes. -/
def filling (i : Insn) : Nat :=
  if i.op.isCondJump then 4 - (Leb128.encode i.arg.toNat).length else 0

/-- The operand that is read back. -/
def operand? (i : Insn) : Option UInt32 := if i.op.hasArg then some i.arg else none

theorem length_insnBytes (i : Insn) :
    (insnBytes i).length =
      if i.op.isCondJump then 1 + max 4 (Leb128.encode i.arg.toNat).length
      else i.size := by
  by_cases hc : i.op.isCondJump = true
  · have ha := Opcode.hasArg_of_isCondJump hc
    simp only [insnBytes, operand, ha, hc, ↓reduceIte, List.length_cons, List.length_append,
      List.length_replicate]
    omega
  · by_cases ha : i.op.hasArg = true
    · simp only [insnBytes, operand, Insn.size, ha, hc, ↓reduceIte, Bool.false_eq_true,
        List.length_cons, List.length_append, List.length_replicate]
      omega
    · simp [insnBytes, Insn.size, ha, hc]

/-- Only an address of more than four bytes makes an instruction longer than planned. -/
theorem size_le_length_insnBytes (i : Insn) : i.size ≤ (insnBytes i).length := by
  rw [length_insnBytes]
  split
  · rename_i hc
    simp only [Insn.size, hc, ↓reduceIte]
    omega
  · exact Nat.le_refl _

/-- An opcode with an operand is read back, however wide the operand is written. -/
theorem fetch_operand {code : Array UInt8} {pc width : Nat} {op : Opcode} {arg : UInt32}
    (hop : op.hasArg = true) (h : CodeAt code pc (op.toByte :: operand arg width)) :
    fetch code pc = .ok ⟨op, some arg, pc + (1 + (Leb128.encode arg.toNat).length)⟩ := by
  simp only [operand, CodeAt, CodeAt.append_iff] at h
  have hread : readOperand code 5 (pc + 1) 1 0 = _ :=
    Leb128.readOperand_encode h.2.1 (Leb128.length_encode_toNat_le arg)
  simp only [fetch, h.1, Opcode.ofByte?_toByte, hop, ↓reduceIte, hread, Nat.zero_add, Nat.mul_one,
    UInt32.ofNat_toNat, Nat.add_assoc]

theorem fetch_insnBytes {code : Array UInt8} {pc : Nat} {i : Insn}
    (h : CodeAt code pc (insnBytes i)) :
    fetch code pc = .ok ⟨i.op, operand? i, pc + ((insnBytes i).length - filling i)⟩ := by
  by_cases ha : i.op.hasArg = true
  · have hnext : (insnBytes i).length - filling i = 1 + (Leb128.encode i.arg.toNat).length := by
      rw [length_insnBytes, filling]
      split
      · omega
      · rename_i hc
        simp [Insn.size, hc, ha]
    simp only [insnBytes, ha, ↓reduceIte] at h
    rw [fetch_operand ha h, hnext, operand?, if_pos ha]
  · have hc : ¬ i.op.isCondJump = true := fun hc => ha (Opcode.hasArg_of_isCondJump hc)
    simp only [insnBytes, ha, ↓reduceIte, CodeAt, and_true, Bool.false_eq_true] at h
    simp [fetch, h, ha, hc, insnBytes, filling, operand?]

/-- Behind its operand, an instruction is filled up with `nop`s. -/
theorem codeAt_filling {code : Array UInt8} {pc : Nat} {i : Insn}
    (h : CodeAt code pc (insnBytes i)) :
    CodeAt code (pc + ((insnBytes i).length - filling i))
      (List.replicate (filling i) Opcode.nop.toByte) := by
  by_cases hc : i.op.isCondJump = true
  · have ha := Opcode.hasArg_of_isCondJump hc
    have hlen := length_insnBytes i
    simp only [insnBytes, operand, ha, hc, ↓reduceIte, CodeAt, CodeAt.append_iff] at h hlen
    have hpc : pc + ((insnBytes i).length - filling i) =
        pc + 1 + (Leb128.encode i.arg.toNat).length := by
      simp only [length_insnBytes, filling, hc, ↓reduceIte]
      omega
    rw [hpc]
    simpa [filling, hc] using h.2.2
  · simp [filling, hc, CodeAt]

theorem fetch_filling {code : Array UInt8} {pc k : Nat}
    (h : CodeAt code pc (List.replicate (k + 1) Opcode.nop.toByte)) :
    fetch code pc = .ok ⟨.nop, none, pc + 1⟩ := by
  rw [List.replicate_succ] at h
  have hop : Opcode.nop.hasArg = false := rfl
  simp [fetch, h.1, hop]

end Emit

end Starlark
