import Starlark.Data.Heap

/-!
# Freezing

`Heap.freeze` makes everything that can be reached from a value immutable: through the elements of
lists and tuples, the keys and values of dicts, the contents of cells, the defaults and captured
cells of functions, and the receivers of methods. It stops at what is already frozen.
-/

set_option autoImplicit false

namespace Starlark

/-- An object with identity. -/
inductive Node where
  | list (r : ListRef)
  | dict (r : DictRef)
  | cell (r : CellRef)
  | func (r : FuncRef)
  | builtin (r : BuiltinRef)
  deriving DecidableEq

mutual

/-- The objects that a value holds directly, or inside tuples. -/
def Value.nodes : Value → List Node
  | .list r => [.list r]
  | .dict r => [.dict r]
  | .cell r => [.cell r]
  | .func r => [.func r]
  | .builtin r => [.builtin r]
  | .tuple elems => Value.nodesOfList elems
  | _ => []

/-- The objects that the values of a list hold. -/
def Value.nodesOfList : List Value → List Node
  | [] => []
  | v :: rest => v.nodes ++ Value.nodesOfList rest

end

namespace Heap

/-- The objects that an object holds. -/
def children (h : Heap) : Node → List Node
  | .list r => Value.nodesOfList (h.list r).elems.toList
  | .dict r => (h.dict r).entries.toList.flatMap fun e => e.1.nodes ++ e.2.nodes
  | .cell r => ((h.cell r).content.map Value.nodes).getD []
  | .func r =>
    Value.nodesOfList (h.func r).defaults.toList ++ Value.nodesOfList (h.func r).freeVars.toList
  | .builtin r => ((h.builtin r).receiver.map Value.nodes).getD []

/-- The number of objects that can hold others. -/
def nodeCount (h : Heap) : Nat :=
  h.lists.size + h.dicts.size + h.cells.size + h.funcs.size + h.builtins.size

/-- Whether freezing has been at an object: lists, dicts and cells are marked by being frozen, and
the others are in `seen`. -/
def isVisited (h : Heap) (seen : List Node) : Node → Bool
  | .list r => (h.list r).frozen
  | .dict r => (h.dict r).frozen
  | .cell r => (h.cell r).frozen
  | n => seen.contains n

/-- Freeze one object; functions and builtins have nothing that could change. -/
def freezeNode (h : Heap) : Node → Heap
  | .list r => h.modifyList r fun l => { l with frozen := true }
  | .dict r => h.modifyDict r fun d => { d with frozen := true }
  | .cell r => h.modifyCell r fun c => { c with frozen := true }
  | _ => h

/-- The functions and builtins visited after visiting one more object. -/
def remember (seen : List Node) : Node → List Node
  | .func r => .func r :: seen
  | .builtin r => .builtin r :: seen
  | _ => seen

/-- Freeze the objects in `work` and all that they reach, in at most `rounds` rounds. Each round but
the last visits an object for the first time, so one more than the number of objects suffices. -/
def freezeFrom : (rounds : Nat) → Heap → (seen work : List Node) → Heap
  | 0, h, _, _ => h
  | rounds + 1, h, seen, work =>
    match work.dropWhile (h.isVisited seen) with
    | [] => h
    | n :: rest =>
      let work := h.children n ++ rest
      freezeFrom rounds (h.freezeNode n) (remember seen n) work

/-- Freeze a value and all that it reaches. -/
def freeze (h : Heap) (v : Value) : Heap := freezeFrom (h.nodeCount + 1) h [] v.nodes

/-- Freeze the variables of a module. -/
def freezeModule (h : Heap) (r : ModuleRef) : Heap :=
  (h.module r).globals.toList.foldl
    (fun h v =>
      match v with
      | some v => h.freeze v
      | none => h) h

end Heap

end Starlark
