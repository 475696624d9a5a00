/-!
# Operators

The binary and unary operators of the language and the symbols they are written with.
-/

set_option autoImplicit false

namespace Starlark

/-- Binary operators. `and` and `or` evaluate their right operand on demand; all others are
strict. -/
inductive BinOp where
  | or
  | and
  | eq
  | ne
  | lt
  | gt
  | le
  | ge
  | isIn
  | notIn
  | plus
  | minus
  | star
  | slash
  | slashSlash
  | percent
  | amp
  | pipe
  | circumflex
  | ltLt
  | gtGt
  deriving DecidableEq, Inhabited

/-- Every binary operator, in order of precedence. -/
def BinOp.all : List BinOp :=
  [.or, .and, .eq, .ne, .lt, .gt, .le, .ge, .isIn, .notIn, .plus, .minus, .star, .slash,
   .slashSlash, .percent, .amp, .pipe, .circumflex, .ltLt, .gtGt]

/-- The spelling of an operator in programs and in error texts. -/
def BinOp.symbol : BinOp → String
  | .or => "or"
  | .and => "and"
  | .eq => "=="
  | .ne => "!="
  | .lt => "<"
  | .gt => ">"
  | .le => "<="
  | .ge => ">="
  | .isIn => "in"
  | .notIn => "not in"
  | .plus => "+"
  | .minus => "-"
  | .star => "*"
  | .slash => "/"
  | .slashSlash => "//"
  | .percent => "%"
  | .amp => "&"
  | .pipe => "|"
  | .circumflex => "^"
  | .ltLt => "<<"
  | .gtGt => ">>"

/-- The operator with the given spelling. -/
def BinOp.ofSymbol? (s : String) : Option BinOp :=
  BinOp.all.find? fun op => op.symbol == s

/-- Unary operators. -/
inductive UnaryOp where
  | plus
  | minus
  | not
  | tilde
  deriving DecidableEq, Inhabited

/-- Every unary operator. -/
def UnaryOp.all : List UnaryOp := [.plus, .minus, .not, .tilde]

/-- The spelling of a unary operator. -/
def UnaryOp.symbol : UnaryOp → String
  | .plus => "+"
  | .minus => "-"
  | .not => "not"
  | .tilde => "~"

/-- The unary operator with the given spelling. -/
def UnaryOp.ofSymbol? (s : String) : Option UnaryOp :=
  UnaryOp.all.find? fun op => op.symbol == s

end Starlark
