import Starlark.Data.Heap
import Starlark.Decimal.Layout
import Starlark.Text.Quoted
import Starlark.Text.Utf8

/-!
# Values as text

`repr` shows a value as it would be written; `str` does the same but gives a text as it is. Objects
can hold themselves, so beyond 64 levels of nesting `repr` writes three dots.
-/

set_option autoImplicit false

namespace Starlark.Heap

/-- The text of a value that is no text and no container. -/
def leafText (h : Heap) : Value → String
  | .null => "None"
  | .bool true => "True"
  | .bool false => "False"
  | .int n => toString n.toInt
  | .float x => Decimal.plainText x.toBits
  | .str s => s
  | .func r => s!"<function {(h.funcCode r).name}>"
  | .builtin r =>
    let b := h.builtin r
    match b.receiver with
    | some v => s!"<built-in method {b.op.name} of {v.kind.name} value>"
    | none => s!"<built-in function {b.op.name}>"
  | .cell _ => "<cell>"
  | .mandatory => "<mandatory>"
  | _ => ""

/-- Texts, divided by commas. -/
def commaList (parts : List String) : String := ", ".intercalate parts

/-- The text of a value, down to the given number of levels. -/
def reprAt (h : Heap) : Nat → Value → String
  | 0, _ => "..."
  | depth + 1, v =>
    match v with
    | .str s => quoted s
    | .bytes b => "b" ++ quoted (Utf8.decode b)
    | .list r => "[" ++ commaList ((h.list r).elems.toList.map (reprAt h depth)) ++ "]"
    | .tuple [x] => "(" ++ reprAt h depth x ++ ",)"
    | .tuple elems => "(" ++ commaList (elems.map (reprAt h depth)) ++ ")"
    | .dict r =>
      "\x7b" ++
        commaList ((h.dict r).entries.toList.map fun e =>
          reprAt h depth e.1 ++ ": " ++ reprAt h depth e.2) ++
        "\x7d"
    | v => h.leafText v

/-- A value as it would be written. -/
def repr (h : Heap) (v : Value) : String := h.reprAt 65 v

/-- A value as it is printed: a text without quotes. -/
def str (h : Heap) : Value → String
  | .str s => s
  | v => h.repr v

end Starlark.Heap
