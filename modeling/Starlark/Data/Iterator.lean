import Starlark.Data.Heap

/-!
# Iteration

Lists, tuples and dicts can be iterated; a dict gives its keys. An open iterator over a list or
dict is counted there until it is closed, and no change is made to a container that has one.
-/

set_option autoImplicit false

namespace Starlark

/-- An open iterator: over a list or dict, with the number of elements already given, or over the
rest of a tuple. -/
inductive Iter where
  | list (r : ListRef) (i : Nat)
  | dict (r : DictRef) (i : Nat)
  | tuple (rest : List Value)
  deriving Inhabited

/-- Whether a value can be iterated. -/
def Value.isIterable : Value → Bool
  | .list _ | .tuple _ | .dict _ => true
  | _ => false

namespace Heap

/-- The elements that iteration gives, in order. -/
def elements? (h : Heap) : Value → Option (List Value)
  | .list r => some (h.list r).elems.toList
  | .tuple elems => some elems
  | .dict r => some ((h.dict r).entries.toList.map (·.1))
  | _ => none

/-- Count an iteration on a list. -/
def lockList (h : Heap) (r : ListRef) : Heap :=
  h.modifyList r fun l => { l with iterating := l.iterating + 1 }

/-- Discount an iteration on a list. -/
def unlockList (h : Heap) (r : ListRef) : Heap :=
  h.modifyList r fun l => { l with iterating := l.iterating - 1 }

/-- Count an iteration on a dict. -/
def lockDict (h : Heap) (r : DictRef) : Heap :=
  h.modifyDict r fun d => { d with iterating := d.iterating + 1 }

/-- Discount an iteration on a dict. -/
def unlockDict (h : Heap) (r : DictRef) : Heap :=
  h.modifyDict r fun d => { d with iterating := d.iterating - 1 }

/-- Open an iterator over a value. A reference behind the end of the heap stands for an empty
container that nothing can change, so its iterator is not counted. -/
def openIter (h : Heap) : Value → Option Iter × Heap
  | .list r =>
    if r.index < h.lists.size then (some (.list r 0), h.lockList r) else (some (.tuple []), h)
  | .dict r =>
    if r.index < h.dicts.size then (some (.dict r 0), h.lockDict r) else (some (.tuple []), h)
  | .tuple elems => (some (.tuple elems), h)
  | _ => (none, h)

/-- The next element of an iterator, and the iterator after it. -/
def nextElem? (h : Heap) : Iter → Option (Value × Iter)
  | .list r i => ((h.list r).elems[i]?).map fun v => (v, .list r (i + 1))
  | .dict r i => ((h.dict r).entries[i]?).map fun e => (e.1, .dict r (i + 1))
  | .tuple (v :: rest) => some (v, .tuple rest)
  | .tuple [] => none

/-- The elements that an iterator has left. -/
def remaining (h : Heap) : Iter → List Value
  | .list r i => (h.list r).elems.toList.drop i
  | .dict r i => ((h.dict r).entries.toList.map (·.1)).drop i
  | .tuple rest => rest

/-- Close an iterator. -/
def closeIter (h : Heap) : Iter → Heap
  | .list r _ => h.unlockList r
  | .dict r _ => h.unlockDict r
  | .tuple _ => h

end Heap

/-- All elements of a value, read through an iterator that is closed again; nothing if the value
cannot be iterated. -/
def Op.drain (v : Value) : Op (Option (List Value)) := do
  match ← make fun h => h.openIter v with
  | none => return none
  | some it =>
    let elems ← read fun h => h.remaining it
    modify fun h => h.closeIter it
    return some elems

end Starlark
