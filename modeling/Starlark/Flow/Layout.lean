import Starlark.Flow.Block

/-!
# Block order

`BlockGraph.layout` puts the blocks that can be reached from the entry into an order and gives each
its address. A block is followed by its `jmp` successor if that has no place yet, and by a jump
otherwise; its `cjmp` successor comes after all that. On the way the depth of the operand stack is
computed: it must never be negative, and each block must be entered at one depth only.
-/

set_option autoImplicit false

namespace Starlark

/-- Blocks that have been placed, and what is known of the others. -/
structure Layout where
  /-- The placed blocks, in order. -/
  order : Array BlockId := #[]
  /-- For each block its number in the order. -/
  place : Array (Option Nat)
  /-- For each block its address. -/
  addr : Array Nat
  /-- For each block the stack depth at its start. -/
  depth : Array (Option Int)
  /-- The number of bytes so far. -/
  size : Nat := 0
  maxStack : Int := 0
  /-- How often a block was entered at a second depth. -/
  mismatches : Nat := 0

/-- What is left to do. -/
inductive LayoutStep where
  /-- Place a block, unless it has a place. -/
  | visit (id : BlockId)
  /-- Place the target of a conditional jump, entered at the given depth. -/
  | branch (id : BlockId) (depth : Int)

namespace Layout

/-- No block is placed. -/
def empty (n : Nat) : Layout :=
  { place := Array.replicate n none, addr := Array.replicate n 0, depth := Array.replicate n none }

/-- Enter a block at a depth. -/
def enter (l : Layout) (id : BlockId) (depth : Int) : Layout :=
  match l.depth.getD id none with
  | none => { l with depth := l.depth.setIfInBounds id (some depth) }
  | some d => if d = depth then l else { l with mismatches := l.mismatches + 1 }

/-- Whether a block is placed. -/
def isPlaced (l : Layout) (id : BlockId) : Bool := (l.place.getD id none).isSome

/-- The address of a block. -/
def address (l : Layout) (id : BlockId) : Nat := l.addr.getD id 0

/-- Give a block the next place. -/
def put (l : Layout) (id : BlockId) : Layout :=
  { l with
    order := l.order.push id
    place := l.place.setIfInBounds id (some l.order.size)
    addr := l.addr.setIfInBounds id l.size }

/-- Account for the code of a block that is entered at the given depth; `iterating` is one behind an
`iterJmp`, whose other edge has one more element. Gives the depth at its end. Depths are 32 bits
wide, and one that does not fit counts as negative. -/
def code (id : BlockId) : (depth iterating : Int) → List Insn → Layout →
    Except CompileError (Int × Int × Layout)
  | depth, iterating, [], l => .ok (depth, iterating, l)
  | depth, iterating, i :: rest, l =>
    let iterating := if i.op = .iterJmp then 1 else iterating
    let depth := depth + i.stackEffect
    if depth < 0 ∨ 0x80000000 ≤ depth + iterating then .error (.stackUnderflow i.op id)
    else
      code id depth iterating rest
        { l with size := l.size + i.size, maxStack := max l.maxStack (depth + iterating) }

/-- Place a block. Gives the layout and what is then to do first. -/
def extend (g : BlockGraph) (l : Layout) (id : BlockId) :
    Except CompileError (Layout × List LayoutStep) := do
  let b := g.block id
  let (depth, iterating, l) ← code id ((l.depth.getD id none).getD 0) 0 b.insns.toList (l.put id)
  let later := match b.cjmp with
    | some t => [.branch t depth]
    | none => []
  match b.jmp with
  | none => .ok (l, later)
  | some next =>
    let t ← g.target next
    let l := l.enter t (depth + iterating)
    if l.isPlaced t then .ok ({ l with size := l.size + 5 }, later)
    else .ok (l, .visit t :: later)

/-- The next block to place and what is to do after it. Blocks that are to be placed, but have a
place, are passed over. -/
def pick (g : BlockGraph) (l : Layout) :
    List LayoutStep → Except CompileError (Layout × Option (BlockId × List LayoutStep))
  | [] => .ok (l, none)
  | .visit id :: rest => if l.isPlaced id then pick g l rest else .ok (l, some (id, rest))
  | .branch id depth :: rest => do
    let t ← g.target id
    let l := l.enter t depth
    if l.isPlaced t then pick g l rest else .ok (l, some (t, rest))

/-- Do all that is to do, in order, in at most `rounds` rounds. Each round but the last places a
block, so one more than the number of blocks suffices. -/
def run (g : BlockGraph) : (rounds : Nat) → Layout → List LayoutStep → Except CompileError Layout
  | 0, l, _ => .ok l
  | rounds + 1, l, work => do
    match ← pick g l work with
    | (l, none) => .ok l
    | (l, some (id, rest)) =>
      let (l, next) ← extend g l id
      run g rounds l (next ++ rest)

end Layout

/-- The order of the blocks that can be reached from the entry. -/
def BlockGraph.layout (g : BlockGraph) (entry : BlockId) : Except CompileError Layout := do
  let l ← Layout.run g (g.size + 1) ((Layout.empty g.size).enter entry 0) [.visit entry]
  if 0 < l.mismatches then .error (.stackMismatch l.mismatches) else .ok l

end Starlark
