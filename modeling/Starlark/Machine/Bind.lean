import Starlark.Data.Heap

/-!
# Argument binding

The arguments of a call are put into the parameter slots of a new activation. The slots come first
among the locals: the ordinary parameters, then the keyword-only ones, then `*args`, then
`**kwargs`. The defaults of a function cover its last ordinary and keyword-only parameters; a
keyword-only parameter without a default has the mandatory mark.

Binding keeps what it bound before it failed.
-/

set_option autoImplicit false

namespace Starlark

/-- Slots while they are being bound: what they hold, and the slot and the entries of `**kwargs`,
whose dict is made at the end. -/
structure Bound where
  slots : Array (Option Value)
  extra : Option (Nat × Env) := none

/-- Binding programs. -/
abbrev BindM := EStateM Stop Bound

namespace Bound

/-- Slots of which none is bound. -/
def empty (size : Nat) : Bound := { slots := Array.replicate size none }

/-- Put the dict of `**kwargs` into its slot. -/
def install (b : Bound) (h : Heap) : Array (Option Value) × Heap :=
  match b.extra with
  | none => (b.slots, h)
  | some (i, entries) =>
    let (r, h) := h.newDict (entries.map fun e => (.str e.1, e.2)).toArray
    (b.slots.setIfInBounds i (some (.dict r)), h)

end Bound

namespace BindM

/-- Fail with a fault. -/
def fault {α : Type} (f : Fault) : BindM α := throw (.fault f)

/-- Give up unless a condition holds. -/
def require (p : Prop) [Decidable p] (a : Abort) : BindM Unit :=
  if p then return () else throw (.abort a)

/-- Bind a slot. -/
def setSlot (i : Nat) (v : Value) : BindM Unit :=
  modify fun b => { b with slots := b.slots.setIfInBounds i (some v) }

/-- Whether a slot is bound. -/
def isBound (i : Nat) : BindM Bool := fun b => .ok ((b.slots.getD i none).isSome) b

/-- Bind values to the slots from `i` on. -/
def setSlots : (i : Nat) → List Value → BindM Unit
  | _, [] => return ()
  | i, v :: rest => do
    setSlot i v
    setSlots (i + 1) rest

/-- Bind keywords: to the parameter of the name, else to `**kwargs`. -/
def keywords (f : String) (params : List String) : Keywords → BindM Unit
  | [] => return ()
  | (k, v) :: rest => do
    match params.idxOf? k with
    | some i =>
      if ← isBound i then fault (.repeatedArgument f k)
      setSlot i v
    | none =>
      match (← get).extra with
      | none => fault (.unexpectedArgument f k)
      | some (i, entries) =>
        modify fun b => { b with extra := some (i, entries.insert k v) }
        if entries.any fun e => e.1 == k then fault (.repeatedArgument f k)
    keywords f params rest

/-- Bind defaults to the unbound slots of `params`, the first of which is slot `i`, where the
defaults start with slot `first`. Gives the names of the parameters that stay unbound. -/
def defaults (first : Nat) (values : Array Value) : (i : Nat) → List String → BindM (List String)
  | _, [] => return []
  | i, p :: rest => do
    if ← isBound i then defaults first values (i + 1) rest
    else if i < first then return p :: (← defaults first values (i + 1) rest)
    else
      match values[i - first]? with
      | some .mandatory | none => return p :: (← defaults first values (i + 1) rest)
      | some v =>
        setSlot i v
        defaults first values (i + 1) rest

end BindM

open BindM in
/-- Bind the keywords of a call and then the defaults to the first `ordinary` slots, of which
`taken` have a positional argument. -/
def bindNamed (c : Code) (values : Array Value) (kwargs : Keywords) (ordinary taken : Nat) :
    BindM Unit := do
  require (ordinary ≤ c.locals.size) .parameterCount
  let params := (c.locals.toList.take ordinary).map (·.name)
  keywords c.name params kwargs
  if taken < ordinary ∨ 0 < c.numKwonly.toNat then
    let missing ← defaults (ordinary - values.size) values taken (params.drop taken)
    if !missing.isEmpty then fault (.missingArguments c.name missing)

open BindM in
/-- Bind the arguments of a call to the first `named` of `size` slots, of which `*args` has the
last. -/
def bindOrdinary (c : Code) (values : Array Value) (args : List Value) (kwargs : Keywords)
    (size named : Nat) : BindM Unit := do
  require (c.hasVarargs → 0 < named) .parameterCount
  let ordinary := named - (if c.hasVarargs then 1 else 0)
  let kwonly := c.numKwonly.toNat
  require (kwonly ≤ ordinary) .parameterCount
  let positional := ordinary - kwonly
  if positional < args.length ∧ !c.hasVarargs then
    fault (.tooManyPositional c.name (kwonly < values.size) positional args.length)
  let taken := min args.length positional
  setSlots 0 (args.take taken)
  if c.hasVarargs then
    require (ordinary < size) .parameterCount
    setSlot ordinary (.tuple (args.drop taken))
  bindNamed c values kwargs ordinary taken

open BindM in
/-- Bind the arguments of a call of compiled code `c` whose function has the given defaults. -/
def bindArguments (c : Code) (values : Array Value) (args : List Value) (kwargs : Keywords) :
    BindM Unit := do
  if c.numParams = 0 then
    if 0 < args.length + kwargs.length then
      fault (.noParameters c.name (args.length + kwargs.length))
    return
  let size := (← get).slots.size
  -- `**kwargs` has the last parameter slot
  let named := c.numParams.toNat - (if c.hasKwargs then 1 else 0)
  if c.hasKwargs then
    require (named < size) .parameterCount
    modify fun b => { b with extra := some (named, []) }
  bindOrdinary c values args kwargs size named

end Starlark
