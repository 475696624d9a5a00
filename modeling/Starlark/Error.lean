import Starlark.Code.Instruction
import Starlark.Data.Value
import Starlark.Position

/-!
# Errors

Each way in which evaluation can fail is a constructor; the wording is in the `message` functions
and nowhere else. An error that leaves a call is wrapped, once, with the call stack at that point.
An `Abort` is no error of a script: malformed code reached outside its own tables, and evaluation
cannot go on.
-/

set_option autoImplicit false

namespace Starlark

/-- Malformed code met while it runs. -/
inductive CodeFault where
  | stackUnderflow
  | fetch (e : FetchError)
  | notCell (got : Kind)
  | unboxedCell
  | noIterator
  | setDictTarget
  | appendTarget
  | noFunction (i : Nat)
  | makeFuncOperand
  | makeFuncShort
  | loadModule
  | loadMember
  | argumentName
  | predeclaredUnset (name : String)
  | universalUnset (name : String)
  deriving DecidableEq

/-- The description of malformed code. -/
def CodeFault.message : CodeFault → String
  | .stackUnderflow => "stack underflow"
  | .fetch (.outOfRange pc) => s!"pc {pc} out of range"
  | .fetch (.illegal byte pc) => "illegal opcode " ++ toString byte.toNat ++ s!" at pc {pc}"
  | .fetch (.truncated pc) => s!"truncated operand at pc {pc}"
  | .notCell got => "expected cell, got " ++ got.name
  | .unboxedCell => "unboxed cell local"
  | .noIterator => "ITERJMP without an iterator"
  | .setDictTarget => "SETDICT on non-dict"
  | .appendTarget => "APPEND on non-list"
  | .noFunction i => s!"no function {i}"
  | .makeFuncOperand => "MAKEFUNC without a tuple"
  | .makeFuncShort => "MAKEFUNC tuple too short"
  | .loadModule => "LOAD without a module name"
  | .loadMember => "LOAD member name is not a string"
  | .argumentName => "named argument without a string name"
  | .predeclaredUnset name => s!"predeclared variable {name} is uninitialized"
  | .universalUnset name => s!"universal variable {name} is undefined"

/-- The two mutable containers. -/
inductive Container where
  | list
  | dict
  deriving DecidableEq

/-- The name of a container type. -/
def Container.name : Container → String
  | .list => "list"
  | .dict => "dict"

/-- Failures reported by an operation on values, by a builtin or by argument binding. -/
inductive Fault where
  -- containers
  | frozen (verb : String) (c : Container)
  | iterating (verb : String) (c : Container)
  | unhashable (x : Kind)
  -- comparison
  | comparisonDepth
  | notComparison (op : BinOp)
  | unordered (op : BinOp) (x y : Kind)
  -- arithmetic
  | intOverflow
  | intDivision
  | intModulo
  | floatDivision
  | floatModulo
  | negativeShift
  | repeatCount
  -- membership, indexing and slicing
  | inString (x : Kind)
  | inBytes (x : Kind)
  | indexType (x y : Kind)
  | indexRange (i least most : Int)
  | missingKey (key : String)
  | sliceBound (what : String) (got : Kind)
  | zeroStep
  | noAttribute (x : Kind) (name : String)
  | fieldAssignment (x : Kind) (name : String)
  | duplicateKey (key : String)
  -- builtins
  | noKeywords (builtin : String)
  | tooFewArguments (builtin : String) (got want : Nat)
  | tooManyArguments (builtin : String) (got want : Nat)
  | wantInt (builtin : String) (got : Kind)
  | wantIterable (builtin : String) (got : Kind)
  | unboundMethod (builtin : String)
  | wrongReceiver (builtin : String) (want : Container)
  | pairLength (i got : Nat)
  | noLength (x : Kind)
  | separatorType (got : Kind)
  | printKeyword (name : String)
  | zeroRangeStep
  | rangeLength (count : Nat)
  -- unpacking and calls
  | notSequence (got : Kind)
  | unpackMany (got want : Nat)
  | unpackFew (got want : Nat)
  | notMapping (got : Kind)
  | keywordType (got : Kind)
  | notIterableArgs (got : Kind)
  | notCallable (got : Kind)
  -- argument binding
  | noParameters (f : String) (given : Nat)
  | tooManyPositional (f : String) (atMost : Bool) (want given : Nat)
  | repeatedArgument (f name : String)
  | unexpectedArgument (f name : String)
  | missingArguments (f : String) (names : List String)
  -- modules
  | noLoader
  | noModule
  | missingMember (name module : String)
  -- code and host
  | code (f : CodeFault)
  | host (text : String)
  deriving DecidableEq

/-- The text of a fault. -/
def Fault.message : Fault → String
  | .frozen verb c => s!"cannot {verb} frozen " ++ c.name
  | .iterating verb c => s!"cannot {verb} " ++ c.name ++ " during iteration"
  | .unhashable x => "unhashable type: " ++ x.name
  | .comparisonDepth => "comparison exceeded maximum recursion depth"
  | .notComparison op => op.symbol ++ " is not a comparison"
  | .unordered op x y => x.name ++ " " ++ op.symbol ++ " " ++ y.name ++ " not implemented"
  | .intOverflow => "int overflow"
  | .intDivision => "integer division by zero"
  | .intModulo => "integer modulo by zero"
  | .floatDivision => "floating-point division by zero"
  | .floatModulo => "floating-point modulo by zero"
  | .negativeShift => "negative shift count"
  | .repeatCount => "excessive repeat count"
  | .inString x => "'in <string>' requires string as left operand, not " ++ x.name
  | .inBytes x => "'in <bytes>' requires bytes or int as left operand, not " ++ x.name
  | .indexType x y => x.name ++ " index: got " ++ y.name ++ ", want int"
  | .indexRange i least most => s!"index {i} out of range [{least}:{most}]"
  | .missingKey key => s!"key {key} not in dict"
  | .sliceBound what got => s!"invalid slice {what}: got " ++ got.name ++ ", want int"
  | .zeroStep => "zero is not a valid slice step"
  | .noAttribute x name => x.name ++ s!" has no .{name} field or method"
  | .fieldAssignment x name => s!"can't assign to .{name} field of " ++ x.name
  | .duplicateKey key => s!"duplicate key: {key}"
  | .noKeywords b => s!"{b}: unexpected keyword arguments"
  | .tooFewArguments b got want => s!"{b}: got {got} arguments, want at least {want}"
  | .tooManyArguments b got want => s!"{b}: got {got} arguments, want at most {want}"
  | .wantInt b got => s!"{b}: got " ++ got.name ++ ", want int"
  | .wantIterable b got => s!"{b}: got " ++ got.name ++ ", want iterable"
  | .unboundMethod b => s!"{b}: unbound method"
  | .wrongReceiver b want => s!"{b}: receiver is not a " ++ want.name
  | .pairLength i got => s!"dict: element #{i} has length {got}, want 2"
  | .noLength x => "len: value of type " ++ x.name ++ " has no len"
  | .separatorType got => "print: for sep, got " ++ got.name ++ ", want string"
  | .printKeyword name => s!"print: unexpected keyword argument {name}"
  | .zeroRangeStep => "range: step argument must not be zero"
  | .rangeLength count => s!"range: too many elements ({count})"
  | .notSequence got => "got " ++ got.name ++ " in sequence assignment"
  | .unpackMany got want => s!"too many values to unpack (got {got}, want {want})"
  | .unpackFew got want => s!"too few values to unpack (got {got}, want {want})"
  | .notMapping got => "argument after ** must be a mapping, not " ++ got.name
  | .keywordType got => "keywords must be strings, not " ++ got.name
  | .notIterableArgs got => "argument after * must be iterable, not " ++ got.name
  | .notCallable got => "invalid call of non-function (" ++ got.name ++ ")"
  | .noParameters f given => s!"function {f} accepts no arguments ({given} given)"
  | .tooManyPositional f atMost want given =>
    s!"function {f} accepts " ++ (if atMost then "at most " else "") ++ toString want ++
      " positional argument" ++ (if want = 1 then "" else "s") ++ s!" ({given} given)"
  | .repeatedArgument f name => s!"function {f} got multiple values for parameter {name}"
  | .unexpectedArgument f name => s!"function {f} got an unexpected keyword argument {name}"
  | .missingArguments f names =>
    s!"function {f} missing " ++ toString names.length ++ " argument" ++
      (if 1 < names.length then "s" else "") ++ " (" ++ ", ".intercalate names ++ ")"
  | .noLoader => "load not implemented by this application"
  | .noModule => "no such module"
  | .missingMember name module => s!"load: name {name} not found in module {module}"
  | .code f => "internal error: " ++ f.message
  | .host text => text

/-- What a type of value may fail to support. -/
inductive Ability where
  | iteration
  | indexing
  | itemAssignment
  | slicing
  deriving DecidableEq

/-- The name of an ability. -/
def Ability.name : Ability → String
  | .iteration => "iteration"
  | .indexing => "indexing"
  | .itemAssignment => "item assignment"
  | .slicing => "slicing"

/-- The variables that can be unbound: those of a function and those of a module. -/
inductive VarKind where
  | function
  | module
  deriving DecidableEq

/-- The name of a kind of variable. -/
def VarKind.name : VarKind → String
  | .function => "local"
  | .module => "global"

/-- One active call. A builtin has no position. -/
structure CallFrame where
  name : String
  file : String
  pos : Position
  deriving DecidableEq

/-- Active calls, outermost first. -/
abbrev CallStack := List CallFrame

/-- Errors of evaluation. -/
inductive Error where
  | fault (f : Fault)
  | binaryOp (op : BinOp) (x y : Kind)
  | unaryOp (op : UnaryOp) (x : Kind)
  | unsupported (x : Kind) (what : Ability)
  | unbound (kind : VarKind) (name : String)
  | recursion (name : String)
  | callDepth (limit : Nat)
  | cancelled (reason : String)
  | load (module : String) (cause : Error)
  /-- An error that left a call, with the calls that were active. -/
  | eval (stack : CallStack) (cause : Error)
  deriving DecidableEq

namespace Error

/-- The text of an error. A call stack does not change it. -/
def message : Error → String
  | .fault f => f.message
  | .binaryOp op x y => "unknown binary op: " ++ x.name ++ " " ++ op.symbol ++ " " ++ y.name
  | .unaryOp op x => "unknown unary op: " ++ op.symbol ++ x.name
  | .unsupported x what => x.name ++ " value does not support " ++ what.name
  | .unbound kind name => kind.name ++ s!" variable {name} referenced before assignment"
  | .recursion name => s!"function {name} called recursively"
  | .callDepth limit => s!"call depth limit exceeded ({limit})"
  | .cancelled reason => s!"computation cancelled: {reason}"
  | .load module cause => s!"cannot load {module}: " ++ cause.message
  | .eval _ cause => cause.message

/-- The error as first raised, without call stacks. -/
def root : Error → Error
  | .eval _ cause => cause.root
  | e => e

/-- Attach a call stack, unless the error has one. -/
def wrap (stack : CallStack) : Error → Error
  | .eval s cause => .eval s cause
  | e => .eval stack e

end Error

/-- What can be asked of an error that left a call. -/
structure EvalError where
  /-- The text that is displayed. -/
  msg : String
  callStack : CallStack
  cause : Error
  deriving DecidableEq

/-- There is one way to make it: the message is the text of the cause. -/
def EvalError.new (cause : Error) (callStack : CallStack) : EvalError :=
  { msg := cause.message, callStack, cause }

/-- What can be asked of an error, if it left a call. Stack and cause determine the message, so an
`Error` has no place for it. -/
def Error.details? : Error → Option EvalError
  | .eval stack cause => some (.new cause stack)
  | _ => none

/-- A frame without a position belongs to a builtin. -/
def CallFrame.isBuiltin (f : CallFrame) : Bool := !f.pos.isValid

/-- The lines of a call stack. -/
def CallStack.text (s : CallStack) : String :=
  String.join (s.map fun f => s!"  {f.file}:" ++ f.pos.text ++ s!": in {f.name}\n")

/-- The calls that led to an error, most recent last. A builtin at the end gets no line: the message
names it instead. -/
def CallStack.backtrace (s : CallStack) (message : String) : String :=
  "Traceback (most recent call last):\n" ++
    match s.getLast? with
    | some f =>
      if f.isBuiltin then CallStack.text s.dropLast ++ s!"Error in {f.name}: {message}"
      else CallStack.text s ++ s!"Error: {message}"
    | none => s!"Error: {message}"

/-- Why evaluation cannot go on at all. -/
inductive Abort where
  /-- An operand points behind the end of a table. -/
  | tableIndex
  /-- The parameter counts of a function exceed its locals. -/
  | parameterCount
  /-- The running index of a slice leaves the integers. -/
  | sliceIndex
  deriving DecidableEq

/-- How an operation ends without a result. -/
inductive Stop where
  | error (e : Error)
  | abort (a : Abort)
  deriving DecidableEq

/-- Stop with a fault. -/
def Stop.fault (f : Fault) : Stop := .error (.fault f)

end Starlark
