import Starlark.Code.Persisted
import Starlark.Decimal.Layout
import Starlark.Text.Quoted
import Starlark.Text.Utf8

/-!
# Listings

The text of a compiled function: a heading with the shape of its activations, then one line for
each instruction, with its address, its operand and what the operand stands for. A jump target is
marked with `►`, and padding is left out.
-/

set_option autoImplicit false

namespace Starlark

namespace Listing

/-- A text filled up with blanks on the right. -/
def padRight (s : String) (width : Nat) : String :=
  s ++ String.ofList (List.replicate (width - s.length) ' ')

/-- A number with zeros in front, four digits wide at least. -/
def address (n : Nat) : String :=
  String.ofList (List.replicate (4 - (toString n).length) '0') ++ toString n

/-- A constant as the comment of a listing line. -/
def constantText : Constant → String
  | .int n => toString n.toInt
  | .float bits => Decimal.listingText bits
  | .str s => quoted s
  | .bytes b => "b" ++ quoted (Utf8.decode b)

/-- The name of an entry of a table of declarations, empty behind its end. -/
def declName (decls : Array Decl) (i : Nat) : String :=
  match decls[i]? with
  | some d => d.name
  | none => ""

/-- What an operand stands for; empty if there is nothing to say. -/
def comment (p : Program) (c : Code) (op : Opcode) (arg : UInt32) : String :=
  let i := arg.toNat
  match op with
  | .constant =>
    match p.constants[i]? with
    | some k => constantText k
    | none => "<bad constant>"
  | .attr | .setField | .predeclared | .universal => (p.names[i]?).getD ""
  | .getLocal | .setLocal | .localCell | .setLocalCell => declName c.locals i
  | .free | .freeCell => declName c.freeVars i
  | .getGlobal | .setGlobal => declName p.globals i
  | .makeFunc =>
    match p.functions[i]? with
    | some f => "func " ++ f.name
    | none => ""
  | .jmp | .cjmp | .iterJmp => "-> " ++ address i
  | .call | .callVar | .callKw | .callVarKw =>
    toString (Opcode.positionalCount arg) ++ " positional, " ++
      toString (Opcode.namedCount arg) ++ " named"
  | _ => ""

/-- The line of one instruction. -/
def line (p : Program) (c : Code) (targets : List Nat) (i : Instruction) : String :=
  "  " ++ address i.pc ++ (if targets.contains i.pc then " ► " else "   ") ++
    padRight i.op.mnemonic 14 ++
    (match i.arg with
    | none => ""
    | some arg =>
      " " ++ padRight (toString arg.toNat) 6 ++
        (let note := comment p c i.op arg
         if note.isEmpty then "" else " ; " ++ note)) ++
    "\n"

/-- The addresses that jumps go to. -/
def jumpTargets (is : List Instruction) : List Nat :=
  is.filterMap fun i => if i.op.isJump then i.arg.map (·.toNat) else none

/-- Names, divided by commas. -/
def nameList (decls : Array Decl) : String :=
  ", ".intercalate (decls.toList.map (·.name))

/-- The lines above the instructions. -/
def heading (p : Program) (c : Code) : String :=
  s!"function {c.name} @ {p.filename}:" ++ c.pos.text ++ "\n" ++
    "  params=" ++ toString c.numParams.toNat ++ " kwonly=" ++ toString c.numKwonly.toNat ++
    " varargs=" ++ toString c.hasVarargs ++ " kwargs=" ++ toString c.hasKwargs ++
    " max_stack=" ++ toString c.maxStack.toNat ++ "\n" ++
    (if c.locals.isEmpty then "" else "  locals: " ++ nameList c.locals ++ "\n") ++
    (if c.cells.isEmpty then ""
     else "  cells: [" ++ ", ".intercalate (c.cells.map fun i => toString i.toNat) ++ "]\n") ++
    (if c.freeVars.isEmpty then "" else "  free: " ++ nameList c.freeVars ++ "\n")

end Listing

open Listing in
/-- The listing of a function of a program. -/
def Program.listing (p : Program) (c : Code) : String :=
  heading p c ++
    match instructions c.code with
    | .error pc => "  <" ++ (CodecError.badInstruction pc).message ++ ">\n"
    | .ok is =>
      let is := is.toList
      let targets := jumpTargets is
      String.join ((is.filter fun i => i.op != .nop).map (line p c targets))

end Starlark
