/-!
# Source positions

Line and column of a token, both counted from one. Line zero stands for "no position": such a
position is never recorded in a line table, and a call frame that has it belongs to a builtin.
-/

set_option autoImplicit false

namespace Starlark

/-- A line and a column, counted from one; line zero means that there is no position. -/
structure Position where
  line : UInt32
  col : UInt32
  deriving DecidableEq, Inhabited

namespace Position

/-- The absent position. -/
def absent : Position := ⟨0, 0⟩

/-- A position is valid when its line is not zero. -/
def isValid (p : Position) : Bool := p.line != 0

/-- `line:col`. -/
def text (p : Position) : String :=
  toString p.line.toNat ++ ":" ++ toString p.col.toNat

end Position

end Starlark
