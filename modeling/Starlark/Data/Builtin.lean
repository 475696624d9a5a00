/-!
# Names of builtins

The functions of the universe, the methods of lists and dicts, and the functions that a host adds.
-/

set_option autoImplicit false

namespace Starlark

/-- What a builtin does when it is called. -/
inductive BuiltinOp where
  -- the universe
  | bool
  | dict
  | len
  | list
  | print
  | range
  | repr
  | str
  | tuple
  | type
  -- methods
  | append
  | extend
  | get
  | keys
  | items
  /-- A function of the host, with its name; `code` is the number of its code. -/
  | host (name : String) (code : Nat)
  deriving DecidableEq, Inhabited

namespace BuiltinOp

/-- The name of a builtin. -/
def name : BuiltinOp → String
  | .bool => "bool"
  | .dict => "dict"
  | .len => "len"
  | .list => "list"
  | .print => "print"
  | .range => "range"
  | .repr => "repr"
  | .str => "str"
  | .tuple => "tuple"
  | .type => "type"
  | .append => "append"
  | .extend => "extend"
  | .get => "get"
  | .keys => "keys"
  | .items => "items"
  | .host name _ => name

/-- The functions of the universe, in order of their names. -/
def universal : List BuiltinOp :=
  [.bool, .dict, .len, .list, .print, .range, .repr, .str, .tuple, .type]

/-- Whether a builtin is a function of the host. -/
def isHost : BuiltinOp → Bool
  | .host _ _ => true
  | _ => false

/-- The names of the functions that a host has from the start, in the order of their code. -/
def hostNames : List String :=
  ["host_cancel", "host_steps", "host_depth", "host_stack", "host_caller", "host_frame",
   "host_freeze", "host_fail", "host_call", "host_try"]

/-- The function with the given name that a host has from the start. -/
def ofHostName? (s : String) : Option BuiltinOp :=
  (hostNames.findIdx? fun name => name == s).map (.host s)

end BuiltinOp

end Starlark
