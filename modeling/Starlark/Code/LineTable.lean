import Starlark.Position

/-!
# Line tables

A line table records the source positions of instructions. A row is stored relative to the row
before as one or more 16-bit entries: four bits of address, five of line, six of column, and a flag
that more entries of the same row follow. A difference that does not fit is cut off and the rest
goes into the next entry.
-/

set_option autoImplicit false

namespace Starlark

/-- One row: from `pc` on, code comes from `line:col`. -/
structure Row where
  pc : Nat
  line : UInt32
  col : UInt32
  deriving DecidableEq

namespace LineTable

/-- The value nearest to `x` between `lo` and `hi`. -/
def clip (x lo hi : Int) : Int := if x < lo then lo else if hi < x then hi else x

/-- One entry. -/
def pack (dpc : Nat) (dline dcol : Int) (more : Bool) : UInt16 :=
  UInt16.ofNat
    (dpc * 4096 + (dline % 32).toNat * 128 + (dcol % 64).toNat * 2 + (if more then 1 else 0))

/-- The entries of one row, given its differences to the row before. -/
def entries (dpc : Nat) (dline dcol : Int) : List UInt16 :=
  let p := min dpc 15
  let l := clip dline (-16) 15
  let c := clip dcol (-32) 31
  if p = dpc ∧ l = dline ∧ c = dcol then [pack p l c false]
  else pack p l c true :: entries (dpc - p) (dline - l) (dcol - c)
termination_by dpc + dline.natAbs + dcol.natAbs
decreasing_by
  rename_i h
  simp only [p, l, c, clip] at *
  split <;> split <;> omega

/-- The entries of rows in order; `pc`, `line` and `col` are those of the row before. -/
def encodeFrom (pc : Nat) (line col : UInt32) : List Row → List UInt16
  | [] => []
  | row :: rest =>
    entries (row.pc - pc) (row.line.toNat - line.toNat : Int) (row.col.toNat - col.toNat : Int) ++
      encodeFrom row.pc row.line row.col rest

/-- The table of rows in order of address, for a function that starts at `start`. -/
def encode (start : Position) (rows : List Row) : List UInt16 :=
  encodeFrom 0 start.line start.col rows

/-- The number `n` below `2 * half` read as a signed one. -/
def signed (n half : Nat) : Int := if n < half then n else (n : Int) - 2 * half

/-- The rows of a table; `pc`, `line` and `col` are what the entries so far add up to. A line or
column below zero counts as zero. -/
def decodeFrom (pc : Nat) (line col : Int) : List UInt16 → List Row
  | [] => []
  | x :: rest =>
    let pc := pc + x.toNat / 4096
    let line := line + signed (x.toNat / 128 % 32) 16
    let col := col + signed (x.toNat / 2 % 64) 32
    if x.toNat % 2 = 0 then
      ⟨pc, UInt32.ofNat line.toNat, UInt32.ofNat col.toNat⟩ :: decodeFrom pc line col rest
    else decodeFrom pc line col rest

/-- The rows of a table, for a function that starts at `start`. -/
def decode (start : Position) (table : List UInt16) : List Row :=
  decodeFrom 0 start.line.toNat start.col.toNat table

/-- The last row at or before an address; rows are in order of address. -/
def rowAt? (rows : List Row) (pc : Nat) : Option Row :=
  (rows.takeWhile fun row => row.pc ≤ pc).getLast?

end LineTable

end Starlark
