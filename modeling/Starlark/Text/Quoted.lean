import Starlark.Text.Unprintable

/-!
# Quoted text

Text between double quotes. Tab, carriage return, line feed, the zero character, the backslash and
the double quote are written with a backslash; a character without a printed form is written by its
code point in lower-case hexadecimal.
-/

set_option autoImplicit false

namespace Starlark

/-- The digits of a number in base 16, lower case. -/
def hexDigits (n : Nat) : String := String.ofList (Nat.toDigits 16 n)

/-- One character inside quotes. -/
def quotedChar (c : Char) : String :=
  if c = '\x00' then "\\0"
  else if c = '\t' then "\\t"
  else if c = '\r' then "\\r"
  else if c = '\n' then "\\n"
  else if c = '\\' then "\\\\"
  else if c = '"' then "\\\""
  else if isUnprintable c then "\\u\x7b" ++ hexDigits c.toNat ++ "\x7d"
  else c.toString

/-- A text between double quotes. -/
def quoted (s : String) : String :=
  "\"" ++ s.foldl (fun out c => out ++ quotedChar c) "" ++ "\""

end Starlark
