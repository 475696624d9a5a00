/-!
# Reading bytes as UTF-8 text

`Utf8.decode` turns any byte sequence into text. Bytes that are well formed give their characters.
Where they are not, each longest piece that could still have begun a character is replaced by one
U+FFFD, and reading goes on with the next byte.
-/

set_option autoImplicit false

namespace Starlark.Utf8

/-- The replacement character. -/
def replacement : Char := '\uFFFD'

/-- A continuation byte within the given bounds. -/
def inRange (lo hi b : UInt8) : Bool := lo ≤ b && b ≤ hi

/-- A byte that may follow inside a character. -/
def isTail (b : UInt8) : Bool := inRange 0x80 0xBF b

/-- The payload of a continuation byte. -/
def payload (b : UInt8) : Nat := b.toNat % 64

/-- The bounds of the second byte after a three-byte lead; they exclude over-long forms and
surrogates. -/
def secondOfThree (a : UInt8) : UInt8 × UInt8 :=
  if a = 0xE0 then (0xA0, 0xBF) else if a = 0xED then (0x80, 0x9F) else (0x80, 0xBF)

/-- The bounds of the second byte after a four-byte lead; they exclude over-long forms and values
above U+10FFFF. -/
def secondOfFour (a : UInt8) : UInt8 × UInt8 :=
  if a = 0xF0 then (0x90, 0xBF) else if a = 0xF4 then (0x80, 0x8F) else (0x80, 0xBF)

/-- The first character of a nonempty byte sequence `a :: rest`, and how many bytes of `rest`
belong to it. -/
def next (a : UInt8) (rest : List UInt8) : Char × Nat :=
  if a < 0x80 then (Char.ofNat a.toNat, 0)
  else if inRange 0xC2 0xDF a then
    match rest with
    | b :: _ =>
      if isTail b then (Char.ofNat (a.toNat % 32 * 64 + payload b), 1) else (replacement, 0)
    | _ => (replacement, 0)
  else if inRange 0xE0 0xEF a then
    match rest with
    | b :: rest =>
      if inRange (secondOfThree a).1 (secondOfThree a).2 b then
        match rest with
        | c :: _ =>
          if isTail c then
            (Char.ofNat ((a.toNat % 16 * 64 + payload b) * 64 + payload c), 2)
          else (replacement, 1)
        | _ => (replacement, 1)
      else (replacement, 0)
    | _ => (replacement, 0)
  else if inRange 0xF0 0xF4 a then
    match rest with
    | b :: rest =>
      if inRange (secondOfFour a).1 (secondOfFour a).2 b then
        match rest with
        | c :: rest =>
          if isTail c then
            match rest with
            | d :: _ =>
              if isTail d then
                (Char.ofNat (((a.toNat % 8 * 64 + payload b) * 64 + payload c) * 64 + payload d), 3)
              else (replacement, 2)
            | _ => (replacement, 2)
          else (replacement, 1)
        | _ => (replacement, 1)
      else (replacement, 0)
    | _ => (replacement, 0)
  else (replacement, 0)

/-- The characters of a byte sequence. -/
def chars : List UInt8 → List Char
  | [] => []
  | a :: rest =>
    let (c, n) := next a rest
    c :: chars (rest.drop n)
termination_by bytes => bytes.length
decreasing_by simp only [List.length_drop, List.length_cons]; omega

/-- The text of a byte sequence, with U+FFFD for what is not UTF-8. -/
def decode (bytes : List UInt8) : String := String.ofList (chars bytes)

end Starlark.Utf8
