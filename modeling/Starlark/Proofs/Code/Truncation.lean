import Starlark.Proofs.Code.Persistence

/-!
# Persisted programs that were cut short

What a writer puts out is read to its last byte: given only a proper beginning of it, the reader
reports that the input has ended, and finds nothing else to complain about before it gets there.
Readers in sequence keep this, since the first one takes its own bytes and leaves the rest to the
next. Main statement: no proper beginning of a persisted program is read as a program, and the error
says whether the header or the body was cut (`decode_take_encode`).
-/

set_option autoImplicit false

namespace Starlark

namespace Persisted

/-! ## Readers that run out of bytes -/

/-- Every proper beginning of `w` ends too early for `read`. -/
def Starves {β : Type} (read : List UInt8 → Except Malformed β) (w : List UInt8) : Prop :=
  ∀ u v, u ++ v = w → v ≠ [] → read u = .error .endOfInput

theorem Starves.nil {β : Type} {read : List UInt8 → Except Malformed β} : Starves read [] := by
  intro u v huv hv
  exact absurd (List.append_eq_nil_iff.1 huv).2 hv

theorem error_bind {α β : Type} (e : Malformed) (f : α → Except Malformed β) :
    (Except.error e >>= f) = .error e := rfl

/-- What comes after a reader does not matter if the reader itself runs out of bytes. -/
theorem Starves.first {α β : Type} {get : Reader α} {w : List UInt8} (h : Starves get w)
    (f : α × List UInt8 → Except Malformed β) : Starves (fun input => get input >>= f) w := by
  intro u v huv hv
  simp only [h u v huv hv, error_bind]

/-- Two readers in sequence run out of bytes on the beginnings of what both of them read. -/
theorem Starves.bind {α β : Type} {get : Reader α} {f : α × List UInt8 → Except Malformed β}
    {w w' : List UInt8} {a : α} (h : Starves get w)
    (hget : ∀ rest, get (w ++ rest) = .ok (a, rest)) (h' : Starves (fun input => f (a, input)) w') :
    Starves (fun input => get input >>= f) (w ++ w') := by
  intro u v huv hv
  rcases List.append_eq_append_iff.1 huv with ⟨c, hw, hv'⟩ | ⟨c, hu, hw'⟩
  · -- the cut is inside the first part, or just behind it
    rcases eq_or_ne c [] with rfl | hc
    · obtain rfl : w = u := by rw [hw, List.append_nil]
      have hrest : Except.error Malformed.endOfInput = f (a, []) :=
        (h' [] v hv' hv).symm
      have hread := hget []
      rw [List.append_nil] at hread
      simp only [hread, ok_bind, ← hrest]
    · simp only [h u c hw.symm hc, error_bind]
  · simp only [hu, hget, ok_bind]
    exact h' c v hw'.symm hv

/-! ## Numbers, words and texts -/

theorem starves_getNatFrom {top : Nat} (htop : top < 128) {left n : Nat}
    (hn : n < (top + 1) * 128 ^ left) (weight acc : Nat) :
    Starves (getNatFrom top (left + 1) weight acc) (Leb128.encode n) := by
  -- on the bytes the decoder may still read, as it reads one at each turn
  induction left generalizing n weight acc with
  | zero =>
    have hsmall : n < 128 := by omega
    rw [Leb128.encode, if_pos hsmall]
    intro u v huv hv
    obtain ⟨rfl, -⟩ | ⟨-, rfl⟩ := List.append_eq_singleton_iff.1 huv
    · rfl
    · exact absurd rfl hv
  | succ left ih =>
    rw [Leb128.encode]
    intro u v huv hv
    cases u with
    | nil => rfl
    | cons b u =>
      by_cases hsmall : n < 128
      · rw [if_pos hsmall] at huv
        obtain ⟨-, htail⟩ := List.cons.inj huv
        exact absurd (List.append_eq_nil_iff.1 htail).2 hv
      · rw [if_neg hsmall] at huv
        -- a byte of 128 or more goes on, so what is cut lies in the quotient's encoding
        obtain ⟨rfl, htail⟩ := List.cons.inj huv
        have hmore : Leb128.isLast (UInt8.ofNat (n % 128 + 128)) = false := by
          have hbyte : (UInt8.ofNat (n % 128 + 128)).toNat = n % 128 + 128 := by simp; omega
          have h128 : (128 : UInt8).toNat = 128 := rfl
          simp only [Leb128.isLast, decide_eq_false_iff_not, UInt8.lt_iff_toNat_lt, hbyte]
          omega
        have hdiv : n / 128 < (top + 1) * 128 ^ left := by
          rw [Nat.div_lt_iff_lt_mul (by decide), Nat.mul_assoc, ← Nat.pow_succ]
          exact hn
        rw [getNatFrom, hmore]
        exact ih hdiv _ _ u v htail hv

theorem starves_getNat16 {n : Nat} (h : n < 2 ^ 16) : Starves getNat16 (putNat n) := by
  have hn : n < (3 + 1) * 128 ^ 2 := h
  exact starves_getNatFrom (by decide) hn 1 0

theorem starves_getNat32 {n : Nat} (h : n < 2 ^ 32) : Starves getNat32 (putNat n) := by
  have hn : n < (15 + 1) * 128 ^ 4 := h
  exact starves_getNatFrom (by decide) hn 1 0

theorem starves_getNat64 {n : Nat} (h : n < 2 ^ 64) : Starves getNat64 (putNat n) := by
  have hn : n < (1 + 1) * 128 ^ 9 := h
  exact starves_getNatFrom (by decide) hn 1 0

theorem starves_getUInt16 (x : UInt16) : Starves getUInt16 (putNat x.toNat) :=
  (starves_getNat16 x.toNat_lt).first _

theorem starves_getUInt32 (x : UInt32) : Starves getUInt32 (putNat x.toNat) :=
  (starves_getNat32 x.toNat_lt).first _

theorem starves_getBool (b : Bool) : Starves getBool (putBool b) := by
  intro u v huv hv
  obtain ⟨rfl, -⟩ | ⟨-, rfl⟩ := List.append_eq_singleton_iff.1 huv
  · rfl
  · exact absurd rfl hv

theorem starves_getExactly {n : Nat} {bytes : List UInt8} (h : bytes.length = n) :
    Starves (getExactly n) bytes := by
  intro u v huv hv
  have hshort : u.length < n := by
    rw [← h, ← huv, List.length_append]
    exact Nat.lt_add_of_pos_right (List.length_pos_iff.2 hv)
  rw [getExactly, if_neg (Nat.not_le.2 hshort)]

theorem starves_getWord (w : UInt64) : Starves getWord (putWord w) := by
  have hlength : (putWord w).length = 8 := by simp [putWord]
  exact (starves_getExactly hlength).first _

theorem starves_getBytes {b : List UInt8} (h : LengthFits b.length) :
    Starves getBytes (putBytes b) :=
  (starves_getNat64 h).bind (getNat64_putNat h) (starves_getExactly rfl)

theorem starves_getText {s : String} (h : TextFits s) : Starves getText (putText s) := by
  have hlength : LengthFits s.toUTF8.data.toList.length := h
  exact (starves_getBytes hlength).first _

/-! ## Tables -/

section Tables

variable {α : Type} {get : Reader α} {put : α → List UInt8}

theorem getManyFrom_succ (n : Nat) (acc : List α) :
    getManyFrom get (n + 1) acc =
      fun input => get input >>= fun r => getManyFrom get n (r.1 :: acc) r.2 := by
  funext input
  rw [getManyFrom]
  cases get input with
  | error e => rfl
  | ok r => rfl

theorem starves_getManyFrom {xs : List α}
    (hread : ∀ x ∈ xs, ∀ rest, get (put x ++ rest) = .ok (x, rest))
    (h : ∀ x ∈ xs, Starves get (put x)) (acc : List α) :
    Starves (getManyFrom get xs.length acc) (xs.flatMap put) := by
  induction xs generalizing acc with
  | nil => exact Starves.nil
  | cons x xs ih =>
    rw [List.flatMap_cons, List.length_cons, getManyFrom_succ]
    refine (h x List.mem_cons_self).bind (hread x List.mem_cons_self) ?_
    exact ih (fun y hy => hread y (List.mem_cons_of_mem _ hy))
      (fun y hy => h y (List.mem_cons_of_mem _ hy)) (x :: acc)

theorem starves_getList {xs : List α} (hlength : LengthFits xs.length)
    (hread : ∀ x ∈ xs, ∀ rest, get (put x ++ rest) = .ok (x, rest))
    (h : ∀ x ∈ xs, Starves get (put x)) : Starves (getList get) (putList put xs) :=
  (starves_getNat64 hlength).bind (getNat64_putNat hlength) (starves_getManyFrom hread h [])

theorem starves_getList_of_fits {entry : α → Prop}
    (hread : ∀ {x}, entry x → ∀ rest, get (put x ++ rest) = .ok (x, rest))
    (h : ∀ {x}, entry x → Starves get (put x)) {xs : List α} (hxs : TableFits entry xs) :
    Starves (getList get) (putList put xs) :=
  starves_getList hxs.length (fun x hx => hread (hxs.entries x hx))
    (fun x hx => h (hxs.entries x hx))

end Tables

/-! ## Programs -/

theorem starves_getPosition (p : Position) : Starves getPosition (putPosition p) :=
  (starves_getUInt32 p.line).bind (getUInt32_putNat p.line) ((starves_getUInt32 p.col).first _)

theorem starves_getDecl {d : Decl} (h : d.Fits) : Starves getDecl (putDecl d) :=
  (starves_getText h).bind (getText_putText h) ((starves_getPosition d.pos).first _)

theorem starves_getConstant {c : Constant} (h : c.Fits) : Starves getConstant (putConstant c) := by
  have hvariant : ∀ {k : Nat}, k < 4 → k < 2 ^ 32 := fun hk => Nat.lt_of_lt_of_le hk (by decide)
  have hnumber : ∀ {k : Nat}, k < 4 → Starves getNat32 (putNat k) := fun hk =>
    starves_getNat32 (hvariant hk)
  have hread : ∀ {k : Nat}, k < 4 → ∀ rest, getNat32 (putNat k ++ rest) = .ok (k, rest) := fun hk =>
    getNat32_putNat (hvariant hk)
  cases c with
  | int n =>
    refine (hnumber (show 0 < 4 by decide)).bind (hread (by decide)) ?_
    exact (starves_getNat64 (zigzag_lt n)).first _
  | float bits =>
    refine (hnumber (show 1 < 4 by decide)).bind (hread (by decide)) ?_
    exact (starves_getWord bits).first _
  | str s =>
    refine (hnumber (show 2 < 4 by decide)).bind (hread (by decide)) ?_
    exact (starves_getText h).first _
  | bytes b =>
    refine (hnumber (show 3 < 4 by decide)).bind (hread (by decide)) ?_
    exact (starves_getBytes h).first _

/-- The fields of a function are taken in the order in which they were written. -/
theorem starves_getCode {c : Code} (h : c.Fits) : Starves getCode (putCode c) := by
  -- field by field in the order they are written; what is cut off lies in one of them
  have hcode : LengthFits c.code.toList.length := h.code
  simp only [putCode, List.append_assoc]
  refine (starves_getPosition c.pos).bind (getPosition_putPosition c.pos) ?_
  refine (starves_getText h.name).bind (getText_putText h.name) ?_
  refine (starves_getText h.doc).bind (getText_putText h.doc) ?_
  refine (starves_getBytes hcode).bind (getBytes_putBytes hcode) ?_
  refine (starves_getList h.lines (fun x _ => getUInt16_putNat x) fun x _ =>
      starves_getUInt16 x).bind
    (getList_putList h.lines fun x _ => getUInt16_putNat x) ?_
  refine (starves_getList_of_fits getDecl_putDecl starves_getDecl h.locals).bind
    (getList_putList_of_fits getDecl_putDecl h.locals) ?_
  refine (starves_getList h.cells (fun x _ => getUInt32_putNat x) fun x _ =>
      starves_getUInt32 x).bind
    (getList_putList h.cells fun x _ => getUInt32_putNat x) ?_
  refine (starves_getList_of_fits getDecl_putDecl starves_getDecl h.freeVars).bind
    (getList_putList_of_fits getDecl_putDecl h.freeVars) ?_
  refine (starves_getUInt32 c.maxStack).bind (getUInt32_putNat c.maxStack) ?_
  refine (starves_getUInt32 c.numParams).bind (getUInt32_putNat c.numParams) ?_
  refine (starves_getUInt32 c.numKwonly).bind (getUInt32_putNat c.numKwonly) ?_
  refine (starves_getBool c.hasVarargs).bind (getBool_putBool c.hasVarargs) ?_
  exact (starves_getBool c.hasKwargs).first _

/-- The fields of a program are taken in the order in which they were written. -/
theorem starves_getProgram {p : Program} (h : p.Fits) : Starves getProgram (putProgram p) := by
  simp only [putProgram, List.append_assoc]
  refine (starves_getText h.filename).bind (getText_putText h.filename) ?_
  refine (starves_getList_of_fits getText_putText starves_getText h.names).bind
    (getList_putList_of_fits getText_putText h.names) ?_
  refine (starves_getList_of_fits getConstant_putConstant starves_getConstant h.constants).bind
    (getList_putList_of_fits getConstant_putConstant h.constants) ?_
  refine (starves_getList_of_fits getCode_putCode starves_getCode h.functions).bind
    (getList_putList_of_fits getCode_putCode h.functions) ?_
  refine (starves_getList_of_fits getDecl_putDecl starves_getDecl h.loads).bind
    (getList_putList_of_fits getDecl_putDecl h.loads) ?_
  refine (starves_getList_of_fits getDecl_putDecl starves_getDecl h.globals).bind
    (getList_putList_of_fits getDecl_putDecl h.globals) ?_
  refine (starves_getCode h.toplevel).bind (getCode_putCode h.toplevel) ?_
  exact (starves_getBool p.recursion).first _

end Persisted

open Persisted

/-- A persisted program that was cut short is never taken for a program: the error gives the number
of bytes if the header was cut, and says that the input ended if the body was cut. -/
theorem decode_take_encode {p : Program} (h : p.Fits) {k : Nat} (hk : k < p.encode.length) :
    Program.decode (p.encode.take k) =
      if k < 8 then .error (.truncated k) else .error (.malformed .endOfInput) := by
  by_cases hheader : k < 8
  · have hlength : (p.encode.take k).length = k := List.length_take_of_le (Nat.le_of_lt hk)
    rw [if_pos hheader, Program.decode, hlength, if_pos hheader]
  -- the header is whole, and the cut lies in the program behind it
  · obtain ⟨j, rfl⟩ := Nat.exists_eq_add_of_le (Nat.not_lt.1 hheader)
    have hcut : p.encode.take (8 + j) = magic ++ versionBytes ++ (putProgram p).take j := by
      have hsize : (magic ++ versionBytes).length = 8 := rfl
      rw [Program.encode, ← hsize, List.take_length_add_append]
    have hrest : (putProgram p).drop j ≠ [] := by
      have hsize : p.encode.length = 8 + (putProgram p).length := by
        simp [Program.encode, magic, versionBytes]; omega
      have hpos : 0 < ((putProgram p).drop j).length := by
        rw [List.length_drop]
        omega
      exact List.ne_nil_of_length_pos hpos
    have hbody : getProgram ((putProgram p).take j) = .error .endOfInput :=
      starves_getProgram h _ _ (List.take_append_drop j _) hrest
    rw [if_neg hheader, hcut, decode_header_append, hbody]
    rfl

/-- The cut falls behind the seventh byte of the float, in the middle of the table of constants. -/
theorem decode_take_encode_kept : keptProgram.Fits ∧ 42 < keptProgram.encode.length ∧
    Program.decode (keptProgram.encode.take 42) = .error (.malformed .endOfInput) := by
  have hfits : keptProgram.Fits := by decide
  have hlength : 42 < keptProgram.encode.length := by decide +kernel
  exact ⟨hfits, hlength, decode_take_encode hfits hlength⟩

end Starlark
