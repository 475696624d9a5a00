import Starlark.Data.Iterator
import Starlark.Operation.Equality

/-!
# Changing lists and dicts

Every change first checks that the container is neither frozen nor being iterated, and only then
looks at its other operands.
-/

set_option autoImplicit false

namespace Starlark

/-- Fails if a list is frozen or being iterated. -/
def ListObj.checkMutable (l : ListObj) (verb : String) : Except Error Unit :=
  if l.frozen then .error (.fault (.frozen verb .list))
  else if 0 < l.iterating then .error (.fault (.iterating verb .list))
  else .ok ()

/-- Fails if a dict is frozen or being iterated. -/
def DictObj.checkMutable (d : DictObj) (verb : String) : Except Error Unit :=
  if d.frozen then .error (.fault (.frozen verb .dict))
  else if 0 < d.iterating then .error (.fault (.iterating verb .dict))
  else .ok ()

namespace Op

/-- Fails if a list is frozen or being iterated. -/
def checkList (r : ListRef) (verb : String) : Op Unit :=
  check fun h => (h.list r).checkMutable verb

/-- Fails if a dict is frozen or being iterated. -/
def checkDict (r : DictRef) (verb : String) : Op Unit :=
  check fun h => (h.dict r).checkMutable verb

/-- Append to a list. -/
def append (r : ListRef) (v : Value) : Op Unit := do
  checkList r "append to"
  modify fun h => h.modifyList r fun l => { l with elems := l.elems.push v }

/-- Append the elements of an iterable to a list, which may be that list itself. -/
def extend (r : ListRef) (iterable : Value) : Op Unit := do
  checkList r "extend"
  match ← drain iterable with
  | none => fail (.unsupported iterable.kind .iteration)
  | some items =>
    modify fun h => h.modifyList r fun l => { l with elems := l.elems.appendList items }

/-- Insert an entry into a dict; says whether the key is new. -/
def insert (r : DictRef) (k v : Value) : Op Bool := do
  checkDict r "insert into"
  check fun _ => k.checkHashable
  let isNew ← read fun h => ((h.dict r).find? k).isNone
  modify fun h => h.modifyDict r fun d => d.insert k v
  return isNew

/-- Insert entries into a dict, in order. -/
def insertAll (r : DictRef) : List (Value × Value) → Op Unit
  | [] => return ()
  | (k, v) :: rest => do
    let _ ← insert r k v
    insertAll r rest

/-- Insert the entries of another dict, which may be that dict itself. -/
def update (r other : DictRef) : Op Unit := do
  checkDict r "apply |= to"
  insertAll r (← read fun h => (h.dict other).entries.toList)

end Op

end Starlark
