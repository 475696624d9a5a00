import Starlark.Code.Instruction
import Starlark.Code.Program

/-!
# Programs as bytes

A persisted program starts with a tag and a version, then come the fields of the program in order.
Unsigned numbers, lengths and variant numbers are base-128 numbers; a signed number is zigzagged
first; a float is its eight bytes, low byte first; a text is its length and its UTF-8 bytes; a table
is its length and its entries. A writer is a function to bytes and a reader a function from the
unread bytes. Bytes behind the program are ignored.
-/

set_option autoImplicit false

namespace Starlark

/-- What is wrong with the body of a persisted program. -/
inductive Malformed where
  | endOfInput
  | longNumber
  | badText
  | badBool
  | badVariant
  deriving DecidableEq

/-- Why bytes are not a program, or not code. -/
inductive CodecError where
  | truncated (size : Nat)
  | badMagic
  | version (found : Nat)
  | malformed (what : Malformed)
  | badInstruction (pc : Nat)
  deriving DecidableEq

/-- The version of the persisted form. -/
def formatVersion : Nat := 1

/-- The description of a malformed body. -/
def Malformed.message : Malformed → String
  | .endOfInput => "Hit the end of buffer, expected more data"
  | .longNumber => "Found a varint that didn't terminate. Is the usize too big for this platform?"
  | .badText => "Tried to parse invalid utf-8"
  | .badBool => "Found a bool that wasn't 0 or 1"
  | .badVariant => "Serde Deserialization Error"

/-- The text of a codec error. -/
def CodecError.message : CodecError → String
  | .truncated n => s!"bytecode too short ({n} bytes)"
  | .badMagic => "not a compiled program (bad magic)"
  | .version found => s!"bytecode version {found} is not supported (want {formatVersion})"
  | .malformed what => "malformed program: " ++ what.message
  | .badInstruction pc => s!"invalid instruction at pc {pc}"

namespace Persisted

/-! ## Writing -/

/-- A length or an unsigned number. -/
def putNat (n : Nat) : List UInt8 := Leb128.encode n

/-- A signed number; zigzag order is `0, -1, 1, -2, …`. -/
def zigzag (n : Int) : Nat := if 0 ≤ n then 2 * n.toNat else 2 * (-n).toNat - 1

/-- A byte that is zero or one. -/
def putBool (b : Bool) : List UInt8 := [if b then 1 else 0]

/-- Eight bytes, the low one first. -/
def putWord (w : UInt64) : List UInt8 :=
  (List.range 8).map fun i => UInt8.ofNat (w.toNat / Nat.pow 256 i)

/-- The bytes with their length in front. -/
def putBytes (b : List UInt8) : List UInt8 := putNat b.length ++ b

/-- A text as its UTF-8 bytes. -/
def putText (s : String) : List UInt8 := putBytes s.toUTF8.data.toList

/-- A table: its length, then its entries. -/
def putList {α : Type} (put : α → List UInt8) (xs : List α) : List UInt8 :=
  putNat xs.length ++ xs.flatMap put

/-- A position: line and column. -/
def putPosition (p : Position) : List UInt8 := putNat p.line.toNat ++ putNat p.col.toNat

/-- A declaration: name and position. -/
def putDecl (d : Decl) : List UInt8 := putText d.name ++ putPosition d.pos

/-- A constant: its variant number and its value. -/
def putConstant : Constant → List UInt8
  | .int n => putNat 0 ++ putNat (zigzag n.toInt)
  | .float bits => putNat 1 ++ putWord bits
  | .str s => putNat 2 ++ putText s
  | .bytes b => putNat 3 ++ putBytes b

/-- A compiled function, field by field. -/
def putCode (c : Code) : List UInt8 :=
  putPosition c.pos ++ putText c.name ++ putText c.doc ++ putBytes c.code.toList ++
    putList (fun x : UInt16 => putNat x.toNat) c.lines ++ putList putDecl c.locals.toList ++
    putList (fun x : UInt32 => putNat x.toNat) c.cells ++ putList putDecl c.freeVars.toList ++
    putNat c.maxStack.toNat ++ putNat c.numParams.toNat ++ putNat c.numKwonly.toNat ++
    putBool c.hasVarargs ++ putBool c.hasKwargs

/-- The body of a program, field by field. -/
def putProgram (p : Program) : List UInt8 :=
  putText p.filename ++ putList putText p.names.toList ++ putList putConstant p.constants.toList ++
    putList putCode p.functions.toList ++ putList putDecl p.loads ++
    putList putDecl p.globals.toList ++ putCode p.toplevel ++ putBool p.recursion

/-- The tag in front of a persisted program. -/
def magic : List UInt8 := [0x4B, 0x53, 0x54, 0x42]

/-- The version, in four bytes, the low one first. -/
def versionBytes : List UInt8 := [UInt8.ofNat formatVersion, 0, 0, 0]

/-! ## Reading -/

/-- A reader takes a value from the front of the unread bytes. -/
abbrev Reader (α : Type) := List UInt8 → Except Malformed (α × List UInt8)

/-- One byte. -/
def getByte : Reader UInt8
  | [] => .error .endOfInput
  | b :: rest => .ok (b, rest)

/-- A base-128 number of at most `left` further bytes, the last of which may be at most `top`. `acc`
is the value of the bytes before, and the next byte counts `weight` times. -/
def getNatFrom (top : Nat) : (left weight acc : Nat) → Reader Nat
  | 0, _, _, _ => .error .longNumber
  | _ + 1, _, _, [] => .error .endOfInput
  | left + 1, weight, acc, b :: rest =>
    let acc := acc + Leb128.payload b * weight
    if Leb128.isLast b then
      if left = 0 ∧ top < b.toNat then .error .longNumber else .ok (acc, rest)
    else getNatFrom top left (weight * 128) acc rest

/-- A 16-bit number: at most three bytes. -/
def getNat16 : Reader Nat := getNatFrom 3 3 1 0

/-- A 32-bit number: at most five bytes. -/
def getNat32 : Reader Nat := getNatFrom 15 5 1 0

/-- A 64-bit number or a length: at most ten bytes. -/
def getNat64 : Reader Nat := getNatFrom 1 10 1 0

/-- The number of a zigzagged one. -/
def unzigzag (n : Nat) : Int := if n % 2 = 0 then n / 2 else -((n / 2 : Nat) : Int) - 1

/-- A byte that must be zero or one. -/
def getBool : Reader Bool := fun input => do
  let (b, rest) ← getByte input
  if b = 0 then .ok (false, rest) else if b = 1 then .ok (true, rest) else .error .badBool

/-- Exactly `n` bytes. -/
def getExactly (n : Nat) : Reader (List UInt8) := fun input =>
  if n ≤ input.length then .ok (input.splitAt n) else .error .endOfInput

/-- The number whose bytes, the low one first, are given. -/
def ofBytesLE (bytes : List UInt8) : Nat :=
  bytes.foldr (fun b acc => b.toNat + 256 * acc) 0

/-- Eight bytes, the low one first. -/
def getWord : Reader UInt64 := fun input => do
  let (bytes, rest) ← getExactly 8 input
  .ok (UInt64.ofNat (ofBytesLE bytes), rest)

/-- Bytes with their length in front. -/
def getBytes : Reader (List UInt8) := fun input => do
  let (n, rest) ← getNat64 input
  getExactly n rest

/-- A text; its bytes must be UTF-8. -/
def getText : Reader String := fun input => do
  let (bytes, rest) ← getBytes input
  match String.fromUTF8? ⟨bytes.toArray⟩ with
  | some s => .ok (s, rest)
  | none => .error .badText

/-- `n` entries, after those in `acc`, which is in reverse. -/
def getManyFrom {α : Type} (get : Reader α) : (n : Nat) → (acc : List α) → Reader (List α)
  | 0, acc, input => .ok (acc.reverse, input)
  | n + 1, acc, input =>
    match get input with
    | .error e => .error e
    | .ok (x, rest) => getManyFrom get n (x :: acc) rest

/-- A table: its length, then its entries. -/
def getList {α : Type} (get : Reader α) : Reader (List α) := fun input => do
  let (n, rest) ← getNat64 input
  getManyFrom get n [] rest

/-- A 16-bit word. -/
def getUInt16 : Reader UInt16 := fun input => do
  let (n, rest) ← getNat16 input
  .ok (UInt16.ofNat n, rest)

/-- A 32-bit word. -/
def getUInt32 : Reader UInt32 := fun input => do
  let (n, rest) ← getNat32 input
  .ok (UInt32.ofNat n, rest)

/-- A position: line and column. -/
def getPosition : Reader Position := fun input => do
  let (line, input) ← getUInt32 input
  let (col, input) ← getUInt32 input
  .ok (⟨line, col⟩, input)

/-- A declaration: name and position. -/
def getDecl : Reader Decl := fun input => do
  let (name, input) ← getText input
  let (pos, input) ← getPosition input
  .ok (⟨name, pos⟩, input)

/-- A constant: its variant number and its value. -/
def getConstant : Reader Constant := fun input => do
  let (variant, input) ← getNat32 input
  match variant with
  | 0 =>
    let (n, input) ← getNat64 input
    .ok (.int (Int64.ofInt (unzigzag n)), input)
  | 1 =>
    let (bits, input) ← getWord input
    .ok (.float bits, input)
  | 2 =>
    let (s, input) ← getText input
    .ok (.str s, input)
  | 3 =>
    let (b, input) ← getBytes input
    .ok (.bytes b, input)
  | _ => .error .badVariant

/-- A compiled function, field by field. -/
def getCode : Reader Code := fun input => do
  let (pos, input) ← getPosition input
  let (name, input) ← getText input
  let (doc, input) ← getText input
  let (code, input) ← getBytes input
  let (lines, input) ← getList getUInt16 input
  let (locals, input) ← getList getDecl input
  let (cells, input) ← getList getUInt32 input
  let (freeVars, input) ← getList getDecl input
  let (maxStack, input) ← getUInt32 input
  let (numParams, input) ← getUInt32 input
  let (numKwonly, input) ← getUInt32 input
  let (hasVarargs, input) ← getBool input
  let (hasKwargs, input) ← getBool input
  .ok (⟨pos, name, doc, code.toArray, lines, locals.toArray, cells, freeVars.toArray, maxStack,
    numParams, numKwonly, hasVarargs, hasKwargs⟩, input)

/-- The body of a program, field by field. -/
def getProgram : Reader Program := fun input => do
  let (filename, input) ← getText input
  let (names, input) ← getList getText input
  let (constants, input) ← getList getConstant input
  let (functions, input) ← getList getCode input
  let (loads, input) ← getList getDecl input
  let (globals, input) ← getList getDecl input
  let (toplevel, input) ← getCode input
  let (recursion, input) ← getBool input
  .ok (⟨filename, names.toArray, constants.toArray, functions.toArray, loads, globals.toArray,
    toplevel, recursion⟩, input)

end Persisted

namespace Program

open Persisted

/-- The persisted form of a program. -/
def encode (p : Program) : List UInt8 := magic ++ versionBytes ++ putProgram p

/-- Read a persisted program. The length is checked before the tag, and the tag before the
version. -/
def decode (data : List UInt8) : Except CodecError Program :=
  if data.length < 8 then .error (.truncated data.length)
  else if data.take 4 ≠ magic then .error .badMagic
  else
    let found := ofBytesLE ((data.drop 4).take 4)
    if found ≠ formatVersion then .error (.version found)
    else
      match getProgram (data.drop 8) with
      | .error what => .error (.malformed what)
      | .ok (p, _) => .ok p

/-- The key under which the program of a source with the given digest is cached. -/
def cacheKey (digest : String) : String := s!"kestrel-bytecode-v{formatVersion}:" ++ digest

end Program

end Starlark
