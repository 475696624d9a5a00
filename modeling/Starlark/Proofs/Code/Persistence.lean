import Starlark.Code.Persisted
import Mathlib.Tactic.Ring

/-!
# Reading back persisted programs

Every reader takes from the front of the bytes what its writer put there, and leaves the rest. This
is shown for numbers, then for texts and tables, and so on along the fields of a program. Main
statement: a persisted program is read back whatever bytes follow it (`decode_encode_append`). The
one thing that is asked of the program is that its lengths can be written (`Program.Fits`).
-/

set_option autoImplicit false

namespace Starlark

/-! ## Programs that can be written -/

/-- Lengths are 64 bits wide. -/
def Persisted.LengthFits (n : Nat) : Prop := n < 2 ^ 64

/-- The length of a table can be written, and so can its entries. -/
structure Persisted.TableFits {α : Type} (entry : α → Prop) (xs : List α) : Prop where
  length : LengthFits xs.length
  entries : ∀ x ∈ xs, entry x

instance (n : Nat) : Decidable (Persisted.LengthFits n) := inferInstanceAs (Decidable (n < 2 ^ 64))

instance {α : Type} (entry : α → Prop) [DecidablePred entry] (xs : List α) :
    Decidable (Persisted.TableFits entry xs) :=
  decidable_of_iff (Persisted.LengthFits xs.length ∧ ∀ x ∈ xs, entry x)
    ⟨fun h => ⟨h.1, h.2⟩, fun h => ⟨h.length, h.entries⟩⟩

open Persisted

/-- The UTF-8 form of a text can be written. -/
def Persisted.TextFits (s : String) : Prop := LengthFits s.utf8ByteSize

instance : DecidablePred TextFits := fun s => inferInstanceAs
    (Decidable (LengthFits s.utf8ByteSize))

/-- The name of a declaration can be written. -/
def Decl.Fits (d : Decl) : Prop := TextFits d.name

instance : DecidablePred Decl.Fits := fun d => inferInstanceAs (Decidable (TextFits d.name))

/-- A constant can be written. -/
def Constant.Fits : Constant → Prop
  | .int _ | .float _ => True
  | .str s => TextFits s
  | .bytes b => LengthFits b.length

instance : DecidablePred Constant.Fits
  | .int _ | .float _ => inferInstanceAs (Decidable True)
  | .str s => inferInstanceAs (Decidable (TextFits s))
  | .bytes b => inferInstanceAs (Decidable (LengthFits b.length))

/-- The lengths in a compiled function can be written. -/
structure Code.Fits (c : Code) : Prop where
  name : TextFits c.name
  doc : TextFits c.doc
  code : LengthFits c.code.size
  lines : LengthFits c.lines.length
  locals : TableFits Decl.Fits c.locals.toList
  cells : LengthFits c.cells.length
  freeVars : TableFits Decl.Fits c.freeVars.toList

instance : DecidablePred Code.Fits := fun c =>
  decidable_of_iff (TextFits c.name ∧ TextFits c.doc ∧ LengthFits c.code.size ∧
      LengthFits c.lines.length ∧ TableFits Decl.Fits c.locals.toList ∧
      LengthFits c.cells.length ∧ TableFits Decl.Fits c.freeVars.toList)
    ⟨fun ⟨h1, h2, h3, h4, h5, h6, h7⟩ => ⟨h1, h2, h3, h4, h5, h6, h7⟩,
      fun ⟨h1, h2, h3, h4, h5, h6, h7⟩ => ⟨h1, h2, h3, h4, h5, h6, h7⟩⟩

/-- The lengths in a program can be written. -/
structure Program.Fits (p : Program) : Prop where
  filename : TextFits p.filename
  names : TableFits TextFits p.names.toList
  constants : TableFits Constant.Fits p.constants.toList
  functions : TableFits Code.Fits p.functions.toList
  loads : TableFits Decl.Fits p.loads
  globals : TableFits Decl.Fits p.globals.toList
  toplevel : p.toplevel.Fits

instance : DecidablePred Program.Fits := fun p =>
  decidable_of_iff (TextFits p.filename ∧ TableFits TextFits p.names.toList ∧
      TableFits Constant.Fits p.constants.toList ∧ TableFits Code.Fits p.functions.toList ∧
      TableFits Decl.Fits p.loads ∧ TableFits Decl.Fits p.globals.toList ∧ p.toplevel.Fits)
    ⟨fun ⟨h1, h2, h3, h4, h5, h6, h7⟩ => ⟨h1, h2, h3, h4, h5, h6, h7⟩,
      fun ⟨h1, h2, h3, h4, h5, h6, h7⟩ => ⟨h1, h2, h3, h4, h5, h6, h7⟩⟩

namespace Persisted

theorem ok_bind {α β : Type} (x : α) (f : α → Except Malformed β) : (Except.ok x >>= f) = f x := rfl

/-! ## Numbers -/

/-- A base-128 number is read back if it fits into the bytes that are read for it. -/
theorem getNatFrom_encode {top : Nat} (htop : top < 128) {left n : Nat}
    (hn : n < (top + 1) * 128 ^ left) (weight acc : Nat) (rest : List UInt8) :
    getNatFrom top (left + 1) weight acc (Leb128.encode n ++ rest) =
      .ok (acc + n * weight, rest) := by
  -- the induction is on the bytes that may still be read; each takes seven bits off the number
  induction left generalizing n weight acc with
  | zero =>
    have hsmall : n < 128 := by omega
    have hbyte : (UInt8.ofNat n).toNat = n := by simp; omega
    have hlast : Leb128.isLast (UInt8.ofNat n) = true := by
      simp only [Leb128.isLast, decide_eq_true_eq, UInt8.lt_iff_toNat_lt, hbyte]
      exact hsmall
    have htopn : ¬ top < n := by omega
    rw [Leb128.encode, if_pos hsmall]
    simp [getNatFrom, hlast, Leb128.payload, hbyte, htopn, Nat.mod_eq_of_lt hsmall]
  | succ left ih =>
    rw [Leb128.encode]
    by_cases hsmall : n < 128
    · have hbyte : (UInt8.ofNat n).toNat = n := by simp; omega
      have hlast : Leb128.isLast (UInt8.ofNat n) = true := by
        simp only [Leb128.isLast, decide_eq_true_eq, UInt8.lt_iff_toNat_lt, hbyte]
        exact hsmall
      simp [getNatFrom, hsmall, hlast, Leb128.payload, hbyte, Nat.mod_eq_of_lt hsmall]
    · have hbyte : (UInt8.ofNat (n % 128 + 128)).toNat = n % 128 + 128 := by simp; omega
      have hmore : Leb128.isLast (UInt8.ofNat (n % 128 + 128)) = false := by
        simp only [Leb128.isLast, decide_eq_false_iff_not, UInt8.lt_iff_toNat_lt, hbyte]
        have h128 : (128 : UInt8).toNat = 128 := rfl
        omega
      have hpayload : Leb128.payload (UInt8.ofNat (n % 128 + 128)) = n % 128 := by
        simp only [Leb128.payload, hbyte]
        omega
      have hdiv : n / 128 < (top + 1) * 128 ^ left := by
        rw [Nat.div_lt_iff_lt_mul (by decide), Nat.mul_assoc, ← Nat.pow_succ]
        exact hn
      have hvalue : acc + n % 128 * weight + n / 128 * (weight * 128) = acc + n * weight := by
        conv_rhs => rw [← Nat.mod_add_div n 128]
        ring
      rw [if_neg hsmall, List.cons_append, getNatFrom, hmore, hpayload]
      simp only [Bool.false_eq_true, ↓reduceIte]
      rw [ih hdiv, hvalue]

theorem getNat16_putNat {n : Nat} (h : n < 2 ^ 16) (rest : List UInt8) :
    getNat16 (putNat n ++ rest) = .ok (n, rest) := by
  have hn : n < (3 + 1) * 128 ^ 2 := h
  have hread := getNatFrom_encode (by decide) hn 1 0 rest
  rwa [Nat.zero_add, Nat.mul_one] at hread

theorem getNat32_putNat {n : Nat} (h : n < 2 ^ 32) (rest : List UInt8) :
    getNat32 (putNat n ++ rest) = .ok (n, rest) := by
  have hn : n < (15 + 1) * 128 ^ 4 := h
  have hread := getNatFrom_encode (by decide) hn 1 0 rest
  rwa [Nat.zero_add, Nat.mul_one] at hread

theorem getNat64_putNat {n : Nat} (h : n < 2 ^ 64) (rest : List UInt8) :
    getNat64 (putNat n ++ rest) = .ok (n, rest) := by
  have hn : n < (1 + 1) * 128 ^ 9 := h
  have hread := getNatFrom_encode (by decide) hn 1 0 rest
  rwa [Nat.zero_add, Nat.mul_one] at hread

theorem getUInt16_putNat (x : UInt16) (rest : List UInt8) :
    getUInt16 (putNat x.toNat ++ rest) = .ok (x, rest) := by
  simp only [getUInt16, getNat16_putNat x.toNat_lt, ok_bind, UInt16.ofNat_toNat]

theorem getUInt32_putNat (x : UInt32) (rest : List UInt8) :
    getUInt32 (putNat x.toNat ++ rest) = .ok (x, rest) := by
  simp only [getUInt32, getNat32_putNat x.toNat_lt, ok_bind, UInt32.ofNat_toNat]

theorem unzigzag_zigzag (n : Int) : unzigzag (zigzag n) = n := by
  unfold unzigzag zigzag
  by_cases h : 0 ≤ n
  · rw [if_pos h]
    omega
  · rw [if_neg h]
    omega

/-- The zigzag order puts the words of 64 bits into the numbers of 64 bits. -/
theorem zigzag_lt (n : Int64) : zigzag n.toInt < 2 ^ 64 := by
  have hlo := n.le_toInt
  have hhi := n.toInt_lt
  unfold zigzag
  split
  · omega
  · omega

theorem getBool_putBool (b : Bool) (rest : List UInt8) :
    getBool (putBool b ++ rest) = .ok (b, rest) := by
  cases b <;> rfl

/-! ## Words, bytes and texts -/

theorem getExactly_append {n : Nat} {bytes : List UInt8} (h : bytes.length = n)
    (rest : List UInt8) : getExactly n (bytes ++ rest) = .ok (bytes, rest) := by
  subst h
  simp [getExactly]

/-- The `k` low bytes of a number, the lowest first, say the number up to a multiple of `256 ^
k`. -/
theorem ofBytesLE_range (w k : Nat) :
    ofBytesLE ((List.range k).map fun i => UInt8.ofNat (w / 256 ^ i)) = w % 256 ^ k := by
  induction k generalizing w with
  | zero => simp [ofBytesLE, Nat.mod_one]
  | succ k ih =>
    have hrest : (List.range k).map (fun i => UInt8.ofNat (w / 256 ^ (i + 1))) =
        (List.range k).map fun i => UInt8.ofNat (w / 256 / 256 ^ i) := by
      apply List.map_congr_left
      intro i _
      rw [Nat.div_div_eq_div_mul, Nat.pow_succ, Nat.mul_comm 256]
    rw [List.range_succ_eq_map, List.map_cons, List.map_map]
    simp only [Function.comp_def, Nat.succ_eq_add_one]
    rw [hrest]
    change (UInt8.ofNat (w / 256 ^ 0)).toNat + 256 * ofBytesLE _ = _
    rw [ih, Nat.pow_succ, Nat.mul_comm (256 ^ k), Nat.mod_mul]
    simp

theorem getWord_putWord (w : UInt64) (rest : List UInt8) :
    getWord (putWord w ++ rest) = .ok (w, rest) := by
  have hlength : (putWord w).length = 8 := by simp [putWord]
  have hvalue : ofBytesLE (putWord w) = w.toNat := by
    calc ofBytesLE (putWord w) = w.toNat % 256 ^ 8 := ofBytesLE_range w.toNat 8
      _ = w.toNat := Nat.mod_eq_of_lt w.toNat_lt
  simp only [getWord, getExactly_append hlength, ok_bind, hvalue, UInt64.ofNat_toNat]

theorem getBytes_putBytes {b : List UInt8} (h : LengthFits b.length) (rest : List UInt8) :
    getBytes (putBytes b ++ rest) = .ok (b, rest) := by
  simp only [getBytes, putBytes, List.append_assoc, getNat64_putNat h, ok_bind,
    getExactly_append rfl]

theorem fromUTF8?_toUTF8 (s : String) :
    String.fromUTF8? ⟨s.toUTF8.data.toList.toArray⟩ = some s := by
  have hbytes : (⟨s.toUTF8.data.toList.toArray⟩ : ByteArray) = s.toByteArray := rfl
  rw [hbytes, String.fromUTF8?, dif_pos s.isValidUTF8]
  rfl

theorem getText_putText {s : String} (h : TextFits s) (rest : List UInt8) :
    getText (putText s ++ rest) = .ok (s, rest) := by
  have hlength : LengthFits s.toUTF8.data.toList.length := h
  simp only [getText, putText, getBytes_putBytes hlength, ok_bind, fromUTF8?_toUTF8]

/-! ## Tables -/

/-- Entries are read one after another, behind those that have been read. -/
theorem getManyFrom_flatMap {α : Type} {get : Reader α} {put : α → List UInt8} {xs : List α}
    (h : ∀ x ∈ xs, ∀ rest, get (put x ++ rest) = .ok (x, rest)) (acc : List α)
    (rest : List UInt8) :
    getManyFrom get xs.length acc (xs.flatMap put ++ rest) = .ok (acc.reverse ++ xs, rest) := by
  induction xs generalizing acc with
  | nil => simp [getManyFrom]
  | cons x xs ih =>
    have hx := h x List.mem_cons_self
    have hxs := ih fun y hy => h y (List.mem_cons_of_mem _ hy)
    rw [List.flatMap_cons, List.append_assoc, List.length_cons, getManyFrom, hx]
    simp only
    rw [hxs, List.reverse_cons, List.append_assoc, List.singleton_append]

theorem getList_putList {α : Type} {get : Reader α} {put : α → List UInt8} {xs : List α}
    (hlength : LengthFits xs.length) (h : ∀ x ∈ xs, ∀ rest, get (put x ++ rest) = .ok (x, rest))
    (rest : List UInt8) : getList get (putList put xs ++ rest) = .ok (xs, rest) := by
  simp only [getList, putList, List.append_assoc, getNat64_putNat hlength, ok_bind,
    getManyFrom_flatMap h, List.reverse_nil, List.nil_append]

/-- A table is read back if the entries that can be written are. -/
theorem getList_putList_of_fits {α : Type} {get : Reader α} {put : α → List UInt8}
    {entry : α → Prop} (h : ∀ {x}, entry x → ∀ rest, get (put x ++ rest) = .ok (x, rest))
    {xs : List α} (hxs : TableFits entry xs) (rest : List UInt8) :
    getList get (putList put xs ++ rest) = .ok (xs, rest) :=
  getList_putList hxs.length (fun x hx => h (hxs.entries x hx)) rest

/-! ## Programs -/

theorem getPosition_putPosition (p : Position) (rest : List UInt8) :
    getPosition (putPosition p ++ rest) = .ok (p, rest) := by
  simp only [getPosition, putPosition, List.append_assoc, getUInt32_putNat, ok_bind]

theorem getDecl_putDecl {d : Decl} (h : d.Fits) (rest : List UInt8) :
    getDecl (putDecl d ++ rest) = .ok (d, rest) := by
  simp only [getDecl, putDecl, List.append_assoc, getText_putText h, getPosition_putPosition,
    ok_bind]

theorem getConstant_putConstant {c : Constant} (h : c.Fits) (rest : List UInt8) :
    getConstant (putConstant c ++ rest) = .ok (c, rest) := by
  have hvariant : ∀ {k : Nat}, k < 4 → ∀ rest, getNat32 (putNat k ++ rest) = .ok (k, rest) :=
    fun hk => getNat32_putNat (Nat.lt_of_lt_of_le hk (by decide))
  cases c with
  | int n =>
    simp only [getConstant, putConstant, List.append_assoc, hvariant (show 0 < 4 by decide),
      getNat64_putNat (zigzag_lt n), ok_bind, unzigzag_zigzag, Int64.ofInt_toInt]
  | float bits =>
    simp only [getConstant, putConstant, List.append_assoc, hvariant (show 1 < 4 by decide),
      getWord_putWord, ok_bind]
  | str s =>
    simp only [getConstant, putConstant, List.append_assoc, hvariant (show 2 < 4 by decide),
      getText_putText h, ok_bind]
  | bytes b =>
    simp only [getConstant, putConstant, List.append_assoc, hvariant (show 3 < 4 by decide),
      getBytes_putBytes h, ok_bind]

theorem getCode_putCode {c : Code} (h : c.Fits) (rest : List UInt8) :
    getCode (putCode c ++ rest) = .ok (c, rest) := by
  have hcode : LengthFits c.code.toList.length := h.code
  have hlines := getList_putList h.lines fun x _ => getUInt16_putNat x
  have hcells := getList_putList h.cells fun x _ => getUInt32_putNat x
  simp only [getCode, putCode, List.append_assoc, getPosition_putPosition, getText_putText h.name,
    getText_putText h.doc, getBytes_putBytes hcode, hlines,
    getList_putList_of_fits getDecl_putDecl h.locals, hcells,
    getList_putList_of_fits getDecl_putDecl h.freeVars, getUInt32_putNat, getBool_putBool, ok_bind,
    Array.toArray_toList]

theorem getProgram_putProgram {p : Program} (h : p.Fits) (rest : List UInt8) :
    getProgram (putProgram p ++ rest) = .ok (p, rest) := by
  simp only [getProgram, putProgram, List.append_assoc, getText_putText h.filename,
    getList_putList_of_fits getText_putText h.names,
    getList_putList_of_fits getConstant_putConstant h.constants,
    getList_putList_of_fits getCode_putCode h.functions,
    getList_putList_of_fits getDecl_putDecl h.loads,
    getList_putList_of_fits getDecl_putDecl h.globals, getCode_putCode h.toplevel, getBool_putBool,
    ok_bind, Array.toArray_toList]

end Persisted

/-- Behind a whole header the outcome is that of the body. -/
theorem decode_header_append (body : List UInt8) :
    Program.decode (magic ++ versionBytes ++ body) =
      ((getProgram body).map Prod.fst).mapError .malformed := by
  have hsize : ¬ (magic ++ versionBytes ++ body).length < 8 := by
    simp [magic, versionBytes]
  have hmagic : (magic ++ versionBytes ++ body).take 4 = magic := rfl
  have hversion : ofBytesLE (((magic ++ versionBytes ++ body).drop 4).take 4) = formatVersion := rfl
  have hbody : (magic ++ versionBytes ++ body).drop 8 = body := rfl
  simp only [Program.decode, hsize, hmagic, hversion, hbody, ↓reduceIte, ne_eq, not_true_eq_false]
  cases getProgram body with
  | error what => rfl
  | ok r => rfl

/-- A persisted program is read back, whatever bytes follow it. -/
theorem decode_encode_append {p : Program} (h : p.Fits) (rest : List UInt8) :
    Program.decode (p.encode ++ rest) = .ok p := by
  have hsplit : p.encode ++ rest = magic ++ versionBytes ++ (putProgram p ++ rest) := by
    simp only [Program.encode, List.append_assoc]
  rw [hsplit, decode_header_append, getProgram_putProgram h]
  rfl

/-- A program with a nested function, constants of every kind and the widest numbers. -/
def keptProgram : Program where
  filename := "ä.star"
  names := #["len", ""]
  constants := #[.int (-0x8000000000000000), .float 0x7FF8000000000001, .str "é", .bytes [255, 0]]
  functions := #[
    { pos := ⟨0xFFFFFFFF, 7⟩, name := "f", doc := "", code := #[26, 33], lines := [0xFFFF, 0]
      locals := #[⟨"x", ⟨2, 3⟩⟩], cells := [0, 0x80000000], freeVars := #[⟨"y", ⟨1, 1⟩⟩]
      maxStack := 300, numParams := 1, numKwonly := 0, hasVarargs := false, hasKwargs := true }]
  loads := [⟨"m", ⟨4, 1⟩⟩]
  globals := #[⟨"y", ⟨1, 1⟩⟩]
  toplevel :=
    { pos := ⟨1, 1⟩, name := "<toplevel>", doc := "", code := #[26, 33], lines := []
      locals := #[], cells := [], freeVars := #[], maxStack := 1, numParams := 0, numKwonly := 0
      hasVarargs := false, hasKwargs := false }
  recursion := true

theorem decode_encode_append_kept : keptProgram.Fits ∧
    Program.decode (keptProgram.encode ++ [0xFF, 0x80]) = .ok keptProgram := by
  have hfits : keptProgram.Fits := by decide
  exact ⟨hfits, decode_encode_append hfits _⟩

end Starlark
