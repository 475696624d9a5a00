import Starlark.Proofs.Flow.Decoding

/-!
# Streams as tilings

What a listing of a code stream has to be is said by the encoding of instructions alone: an
instruction is the byte of its opcode and, if the opcode has an operand, a base-128 number of at
most five bytes (`Instruction.EncodedAs`). A listing is right if the encodings of its instructions,
one behind the other, are the stream (`Tiles`). Main statements: `instructions` gives the one
listing that tiles the stream (`instructions_eq_ok_iff`), and if there is none, the address behind
the longest part that can be tiled, where an instruction starts that has no encoding
(`instructions_eq_error_iff`). What is listed is what `fetch` reads, and the next address is that of
the next listed instruction (`Tiles.fetch_eq`).
-/

set_option autoImplicit false

namespace Starlark

/-! ## Encodings -/

namespace Leb128

/-- The bytes are one number: each of them but the last announces another one. -/
inductive Whole : List UInt8 → Prop where
  | last {b : UInt8} : isLast b = true → Whole [b]
  | more {b : UInt8} {rest : List UInt8} : isLast b = false → Whole rest → Whole (b :: rest)

/-- The number that bytes write. -/
def value : List UInt8 → Nat
  | [] => 0
  | b :: rest => payload b + 128 * value rest

/-- Bytes that only announce more. -/
def Pending (bytes : List UInt8) : Prop := ∀ b ∈ bytes, isLast b = false

instance (bytes : List UInt8) : Decidable (Pending bytes) :=
  List.decidableBAll (isLast · = false) bytes

end Leb128

/-- The bytes of an instruction. Of the number that an operand is, 32 bits count. -/
inductive Instruction.EncodedAs : Instruction → List UInt8 → Prop where
  | plain {pc : Nat} {op : Opcode} : op.hasArg = false → EncodedAs ⟨pc, op, none⟩ [op.toByte]
  | operand {pc : Nat} {op : Opcode} {digits : List UInt8} :
      op.hasArg = true → Leb128.Whole digits →
      digits.length ≤ 5 →
      EncodedAs ⟨pc, op, some (UInt32.ofNat (Leb128.value digits))⟩ (op.toByte :: digits)

/-- From an address on, the instructions follow one another, and their encodings are the bytes. -/
inductive Tiles : (pc : Nat) → List UInt8 → List Instruction → Prop where
  | nil (pc : Nat) : Tiles pc [] []
  | cons {pc : Nat} {i : Instruction} {bytes rest : List UInt8} {is : List Instruction} :
      i.pc = pc → i.EncodedAs bytes → Tiles (pc + bytes.length) rest is →
      Tiles pc (bytes ++ rest) (i :: is)

/-- What stands at the front of the bytes has no encoding: an opcode that is none, or an operand
that breaks off or goes on behind its fifth byte. -/
inductive Unreadable : List UInt8 → Prop where
  | illegal {b : UInt8} {rest : List UInt8} : Opcode.ofByte? b = none → Unreadable (b :: rest)
  | truncated {op : Opcode} {rest : List UInt8} : op.hasArg = true → Leb128.Pending rest →
      rest.length < 5 → Unreadable (op.toByte :: rest)
  | overlong {op : Opcode} {digits rest : List UInt8} : op.hasArg = true → Leb128.Pending digits →
      digits.length = 5 → Unreadable (op.toByte :: (digits ++ rest))

/-- The address of the first of the instructions that a listing goes on with; the end of the code if
there is none. -/
def Instruction.nextAddress (code : Array UInt8) (rest : List Instruction) : Nat :=
  (rest.head?.map Instruction.pc).getD code.size

theorem Opcode.toByte_of_ofByte? {b : UInt8} {op : Opcode} (h : ofByte? b = some op) :
    op.toByte = b := by
  have hall : ∀ i : Fin all.size, all[i].ctorIdx = i := by decide
  obtain ⟨hlt, rfl⟩ := Array.getElem?_eq_some_iff.1 h
  have hidx : all[b.toNat].ctorIdx = b.toNat := hall ⟨b.toNat, hlt⟩
  rw [toByte, hidx, UInt8.ofNat_toNat]

theorem Instruction.EncodedAs.length_pos {i : Instruction} {bytes : List UInt8}
    (h : i.EncodedAs bytes) : 0 < bytes.length := by
  cases h <;> exact Nat.succ_pos _

/-! ## Reading encodings -/

section Read

variable {code : Array UInt8} {left pc weight acc : Nat} {digits bytes rest : List UInt8}

/-- A whole number is read, whatever bytes it is written in. -/
theorem readOperand_of_whole (weight acc : Nat) (h : Leb128.Whole digits)
    (hat : CodeAt code pc digits)
    (hleft : digits.length ≤ left) : readOperand code left pc weight acc =
      .ok (UInt32.ofNat (acc + Leb128.value digits * weight), pc + digits.length) := by
  induction h generalizing left pc weight acc with
  | last hb =>
    obtain ⟨left, rfl⟩ : ∃ n, left = n + 1 := ⟨left - 1, by simp at hleft; omega⟩
    simp [readOperand, hat.1, hb, Leb128.value]
  | @more b rest hb _ ih =>
    obtain ⟨left, rfl⟩ : ∃ n, left = n + 1 := ⟨left - 1, by simp at hleft; omega⟩
    have hvalue : acc + Leb128.payload b * weight + Leb128.value rest * (weight * 128) =
        acc + Leb128.value (b :: rest) * weight := by
      rw [Leb128.value]
      ring
    rw [readOperand, hat.1]
    simp only [hb, Bool.false_eq_true, ↓reduceIte]
    rw [ih _ _ hat.2 (Nat.le_of_succ_le_succ hleft), hvalue, List.length_cons]
    congr 2
    omega

/-- A number that does not end within the bytes that are allowed is not read. -/
theorem readOperand_of_pending (h : Leb128.Pending digits) (hat : CodeAt code pc digits)
    (hleft : digits.length = left ∨ digits.length < left ∧ code.size = pc + digits.length) :
    ∃ stop, readOperand code left pc weight acc = .error stop := by
  -- no digit is the last one, so reading ends with the digits or with the code
  induction digits generalizing left pc weight acc with
  | nil =>
    cases left with
    | zero => exact ⟨pc, rfl⟩
    | succ left =>
      have hend : code.size ≤ pc := by
        rcases hleft with hleft | ⟨-, hleft⟩
        · cases hleft
        · exact Nat.le_of_eq hleft
      exact ⟨pc, by rw [readOperand, Array.getElem?_eq_none hend]⟩
  | cons b digits ih =>
    obtain ⟨left, rfl⟩ : ∃ n, left = n + 1 := ⟨left - 1, by simp at hleft; omega⟩
    rw [readOperand, hat.1]
    simp only [h b List.mem_cons_self, Bool.false_eq_true, ↓reduceIte]
    refine ih (fun b hb => h b (List.mem_cons_of_mem _ hb)) hat.2 ?_
    simp only [List.length_cons] at hleft
    omega

/-- A number ends within the bytes that are allowed, or it breaks off, or it is too long. -/
theorem whole_or_pending (n : Nat) (bytes : List UInt8) :
    (∃ digits rest, bytes = digits ++ rest ∧ Leb128.Whole digits ∧ digits.length ≤ n) ∨
      (Leb128.Pending bytes ∧ bytes.length < n) ∨
      ∃ digits rest, bytes = digits ++ rest ∧ Leb128.Pending digits ∧ digits.length = n := by
  -- on how many digits may be read; the first decides unless it asks for more
  induction n generalizing bytes with
  | zero => exact .inr (.inr ⟨[], bytes, rfl, by simp [Leb128.Pending], rfl⟩)
  | succ n ih =>
    cases bytes with
    | nil => exact .inr (.inl ⟨by simp [Leb128.Pending], Nat.succ_pos n⟩)
    | cons b bytes =>
      cases hb : Leb128.isLast b with
      | true => exact .inl ⟨[b], bytes, rfl, .last hb, by simp⟩
      | false =>
        have hcons : ∀ {bs}, Leb128.Pending bs → Leb128.Pending (b :: bs) :=
          fun h => List.forall_mem_cons.2 ⟨hb, h⟩
        rcases ih bytes with ⟨digits, rest, rfl, hwhole, hlen⟩ | ⟨hpending, hlen⟩ |
          ⟨digits, rest, rfl, hpending, hlen⟩
        · exact .inl ⟨b :: digits, rest, rfl, .more hb hwhole, Nat.succ_le_succ hlen⟩
        · exact .inr (.inl ⟨hcons hpending, Nat.succ_lt_succ hlen⟩)
        · exact .inr (.inr ⟨b :: digits, rest, rfl, hcons hpending, congrArg (· + 1) hlen⟩)

/-- An encoding is read as the instruction, and reading goes on behind it. -/
theorem Instruction.EncodedAs.fetch_eq {i : Instruction} (h : i.EncodedAs bytes)
    (hat : CodeAt code i.pc bytes) : fetch code i.pc = .ok ⟨i.op, i.arg, i.pc + bytes.length⟩ := by
  cases h with
  | plain hop => simp [fetch, hat.1, hop]
  | operand hop hwhole hlen =>
    have hread := readOperand_of_whole 1 0 hwhole hat.2 hlen
    simp only [fetch, hat.1, Opcode.ofByte?_toByte, hop, ↓reduceIte, hread, Nat.zero_add,
      Nat.mul_one, List.length_cons]
    congr 2
    omega

/-- Where no encoding stands, nothing is read. -/
theorem Unreadable.fetch_eq (h : Unreadable bytes) (hat : CodeAt code pc bytes)
    (hsize : code.size = pc + bytes.length) : ∃ e, fetch code pc = .error e := by
  cases h with
  | @illegal b rest hb => exact ⟨.illegal b pc, by simp [fetch, hat.1, hb]⟩
  | @truncated op rest hop hpending hlen =>
    obtain ⟨stop, hread⟩ : ∃ stop, readOperand code 5 (pc + 1) 1 0 = .error stop :=
      readOperand_of_pending hpending hat.2 (.inr ⟨hlen, by rw [hsize, List.length_cons]; omega⟩)
    exact ⟨.truncated stop, by simp [fetch, hat.1, hop, hread]⟩
  | @overlong op digits rest hop hpending hlen =>
    obtain ⟨stop, hread⟩ : ∃ stop, readOperand code 5 (pc + 1) 1 0 = .error stop :=
      readOperand_of_pending hpending (CodeAt.append_iff.1 hat.2).1 (.inl hlen)
    exact ⟨.truncated stop, by simp [fetch, hat.1, hop, hread]⟩

/-- At the front of bytes stands an encoding, unless they are unreadable. -/
theorem encoded_or_unreadable (pc : Nat) (b : UInt8) (bytes : List UInt8) :
    (∃ i encoding rest, b :: bytes = encoding ++ rest ∧ i.pc = pc ∧
      Instruction.EncodedAs i encoding) ∨ Unreadable (b :: bytes) := by
  cases hb : Opcode.ofByte? b with
  | none => exact .inr (.illegal hb)
  | some op =>
    obtain rfl := Opcode.toByte_of_ofByte? hb
    cases hop : op.hasArg with
    | false => exact .inl ⟨⟨pc, op, none⟩, [op.toByte], bytes, rfl, rfl, .plain hop⟩
    | true =>
      rcases whole_or_pending 5 bytes with ⟨digits, rest, rfl, hwhole, hlen⟩ | ⟨hpending, hlen⟩ |
        ⟨digits, rest, rfl, hpending, hlen⟩
      · exact .inl ⟨⟨pc, op, some (.ofNat (Leb128.value digits))⟩, op.toByte :: digits, rest, rfl,
          rfl, .operand hop hwhole hlen⟩
      · exact .inr (.truncated hop hpending hlen)
      · exact .inr (.overlong hop hpending hlen)

end Read

/-! ## Tilings -/

namespace Tiles

variable {code : Array UInt8} {pc : Nat} {bytes : List UInt8} {is : List Instruction}

/-- As much of the bytes as possible is tiled. -/
theorem exists_maximal (pc : Nat) (bytes : List UInt8) :
    ∃ done rest is, bytes = done ++ rest ∧ Tiles pc done is ∧ (rest = [] ∨ Unreadable rest) := by
  -- on the number of bytes, since an encoding takes several of them
  induction hn : bytes.length using Nat.strongRecOn generalizing pc bytes with
  | ind n ih =>
    cases bytes with
    | nil => exact ⟨[], [], [], rfl, .nil pc, .inl rfl⟩
    | cons b bytes =>
      rcases encoded_or_unreadable pc b bytes with ⟨i, encoding, rest, hsplit, rfl, hi⟩ | h
      · have hlt : rest.length < n := by
          have hpos := hi.length_pos
          rw [← hn, hsplit, List.length_append]
          omega
        obtain ⟨done, rest, is, rfl, htiles, hrest⟩ := ih _ hlt (i.pc + encoding.length) rest rfl
        exact ⟨encoding ++ done, rest, i :: is, by rw [hsplit, List.append_assoc],
          .cons rfl hi htiles, hrest⟩
      · exact ⟨[], b :: bytes, [], rfl, .nil pc, .inr h⟩

/-- The instructions of a tiled part of the code are listed. -/
theorem instructionsFrom_eq (h : Tiles pc bytes is) (hat : CodeAt code pc bytes)
    (hsize : pc + bytes.length ≤ code.size) {fuel : Nat} (hfuel : code.size - pc ≤ fuel)
    (acc : Array Instruction) :
    ∃ fuel', code.size - (pc + bytes.length) ≤ fuel' ∧ instructionsFrom code fuel pc acc =
      instructionsFrom code fuel' (pc + bytes.length) (acc ++ is.toArray) := by
  induction h generalizing fuel acc with
  | nil pc => exact ⟨fuel, hfuel, by simp⟩
  | @cons _ i encoding rest is hpc hi _ ih =>
    subst hpc
    rw [List.length_append] at hsize ⊢
    obtain ⟨hfirst, hrest⟩ := CodeAt.append_iff.1 hat
    -- one unit of fuel for at least one byte, so what is left is enough for the rest
    obtain ⟨fuel', hfuel', hstep⟩ := Reads.instructionsFrom_step (hi.fetch_eq hfirst)
      (show i.pc + encoding.length ≤ code.size by omega) hfuel acc
    obtain ⟨fuel'', hfuel'', hlisted⟩ := ih hrest (by omega) hfuel' (acc.push i)
    refine ⟨fuel'', by omega, ?_⟩
    rw [hstep, hlisted, Nat.add_assoc]
    simp

/-- What is listed is read by `fetch`, and what is read next is the next listed instruction. -/
theorem fetch_eq (h : Tiles pc bytes is) (hat : CodeAt code pc bytes)
    (hsize : code.size = pc + bytes.length) {done rest : List Instruction} {i : Instruction}
    (his : is = done ++ i :: rest) :
    fetch code i.pc = .ok ⟨i.op, i.arg, Instruction.nextAddress code rest⟩ := by
  induction h generalizing done with
  | nil pc => cases done <;> cases his
  | @cons _ j encoding bytes is hpc hj htiles ih =>
    subst hpc
    obtain ⟨hfirst, hrest⟩ := CodeAt.append_iff.1 hat
    rw [List.length_append, ← Nat.add_assoc] at hsize
    cases done with
    | nil =>
      cases his
      rw [hj.fetch_eq hfirst]
      cases htiles with
      | nil => simp [Instruction.nextAddress, hsize]
      | cons hpc => simp [Instruction.nextAddress, hpc]
    | cons k done => exact ih hrest hsize (List.cons.inj his).2

end Tiles

section Listing

variable {code : Array UInt8}

theorem codeAt_of_toList_eq {done rest : List UInt8} (h : code.toList = done ++ rest) :
    CodeAt code 0 done ∧ CodeAt code done.length rest ∧ code.size = done.length + rest.length := by
  have hall : code.toList = [] ++ (done ++ rest) ++ [] := by simpa using h
  have hat : CodeAt code 0 (done ++ rest) := CodeAt.of_toList_eq hall
  have hsize := congrArg List.length h
  rw [Array.length_toList, List.length_append] at hsize
  rw [CodeAt.append_iff, Nat.zero_add] at hat
  exact ⟨hat.1, hat.2, hsize⟩

/-- A stream that is tiled is listed. -/
theorem instructions_of_tiles {is : List Instruction} (h : Tiles 0 code.toList is) :
    instructions code = .ok is.toArray := by
  obtain ⟨hat, -, hsize⟩ := codeAt_of_toList_eq (List.append_nil code.toList).symm
  rw [List.length_nil, Nat.add_zero] at hsize
  obtain ⟨fuel, -, hlisted⟩ := h.instructionsFrom_eq hat (by omega) (Nat.le_refl code.size) #[]
  rw [instructions, hlisted, Nat.zero_add, ← hsize, Array.empty_append]
  cases fuel with
  | zero => rfl
  | succ fuel => rw [instructionsFrom, if_neg (Nat.lt_irrefl _)]

/-- A stream that becomes unreadable is not listed. -/
theorem instructions_of_unreadable {done rest : List UInt8} {is : List Instruction}
    (hcode : code.toList = done ++ rest) (h : Tiles 0 done is) (hrest : Unreadable rest) :
    instructions code = .error done.length := by
  obtain ⟨hdone, hat, hsize⟩ := codeAt_of_toList_eq hcode
  obtain ⟨fuel, hfuel, hlisted⟩ := h.instructionsFrom_eq hdone (by omega)
      (Nat.le_refl code.size) #[]
  obtain ⟨e, hfetch⟩ := hrest.fetch_eq hat hsize
  have hpos : 0 < rest.length := by cases hrest <;> exact Nat.succ_pos _
  rw [Nat.zero_add] at hfuel hlisted
  obtain ⟨fuel, rfl⟩ : ∃ n, fuel = n + 1 := ⟨fuel - 1, by omega⟩
  rw [instructions, hlisted, instructionsFrom, if_pos (by omega), hfetch]

/-- Either the whole stream is tiled, or it becomes unreadable. -/
theorem tiles_or_unreadable (code : Array UInt8) : (∃ is, Tiles 0 code.toList is) ∨
    ∃ done rest is, code.toList = done ++ rest ∧ Tiles 0 done is ∧ Unreadable rest := by
  obtain ⟨done, rest, is, hcode, htiles, rfl | hrest⟩ := Tiles.exists_maximal 0 code.toList
  · rw [List.append_nil] at hcode
    exact .inl ⟨is, hcode ▸ htiles⟩
  · exact .inr ⟨done, rest, is, hcode, htiles, hrest⟩

/-- A listing is what tiles the stream. -/
theorem instructions_eq_ok_iff {is : Array Instruction} :
    instructions code = .ok is ↔ Tiles 0 code.toList is.toList := by
  constructor
  · intro h
    rcases tiles_or_unreadable code with ⟨js, htiles⟩ | ⟨done, rest, js, hcode, htiles, hrest⟩
    · rw [instructions_of_tiles htiles] at h
      cases h
      exact htiles
    · rw [instructions_of_unreadable hcode htiles hrest] at h
      cases h
  · exact instructions_of_tiles

/-- A stream is refused at the address where it becomes unreadable. -/
theorem instructions_eq_error_iff {pc : Nat} :
    instructions code = .error pc ↔
      ∃ done rest is, code.toList = done ++ rest ∧ done.length = pc ∧ Tiles 0 done is ∧
        Unreadable rest := by
  constructor
  · intro h
    rcases tiles_or_unreadable code with ⟨is, htiles⟩ | ⟨done, rest, is, hcode, htiles, hrest⟩
    · rw [instructions_of_tiles htiles] at h
      cases h
    · rw [instructions_of_unreadable hcode htiles hrest] at h
      cases h
      exact ⟨done, rest, is, hcode, rfl, htiles, hrest⟩
  · rintro ⟨done, rest, is, hcode, rfl, htiles, hrest⟩
    exact instructions_of_unreadable hcode htiles hrest

end Listing

end Starlark
