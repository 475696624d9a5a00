import Starlark.Proofs.Lower.Realize

/-!
# Code without new entries

Beside blocks, lowering fills the tables of names, constants, functions and loads. Most of its
programs write to blocks only and leave the tables as they are (`Build.Drafting`). The end of a
function is such a program too: the tables behind a function are those behind its body
(`Build.drafts_of_assemble`).
-/

set_option autoImplicit false

namespace Starlark

/-- The tables so far. -/
def Builder.pool (b : Builder) : Pool := ⟨b.names, b.constants, b.functions⟩

namespace Builder.Covered

theorem refl (b : Builder) : b.Covered b.pool :=
  ⟨List.prefix_rfl, List.prefix_rfl, List.prefix_rfl⟩

/-- What is covered by a pool is covered by a larger one. -/
theorem trans {b b1 : Builder} {pool : Pool} (h : b.Covered b1.pool) (h' : b1.Covered pool) :
    b.Covered pool :=
  ⟨h.names.trans h'.names, h.constants.trans h'.constants, h.functions.trans h'.functions⟩

end Builder.Covered

/-- The tables are the same. -/
structure Builder.Drafts (b b' : Builder) : Prop where
  names : b'.names = b.names
  constants : b'.constants = b.constants
  functions : b'.functions = b.functions
  loads : b'.loads = b.loads

namespace Builder.Drafts

variable {b b1 b' : Builder}

theorem refl (b : Builder) : b.Drafts b := ⟨rfl, rfl, rfl, rfl⟩

theorem trans (h : b.Drafts b1) (h' : b1.Drafts b') : b.Drafts b' where
  names := h'.names.trans h.names
  constants := h'.constants.trans h.constants
  functions := h'.functions.trans h.functions
  loads := h'.loads.trans h.loads

end Builder.Drafts

/-- A lowering program leaves the tables as they are. -/
def Build.Drafting {α : Type} (m : Build α) : Prop :=
  ∀ b a b', m b = .ok a b' → b.Drafts b'

open Build Builder

namespace Build.Drafting

variable {α β : Type}

theorem pure (a : α) : Drafting (pure a : Build α) := by
  intro b a' b' h
  cases h
  exact .refl b

theorem throw (e : CompileError) : Drafting (throw e : Build α) := nofun

/-- Builders in sequence draft. -/
theorem bind {m : Build α} {f : α → Build β} (hm : Drafting m) (hf : ∀ a, Drafting (f a)) :
    Drafting (m >>= f) := by
  intro b a b' h
  obtain ⟨x, b1, h1, h2⟩ := bind_eq_ok.1 h
  exact (hm b x b1 h1).trans (hf x b1 a b' h2)

/-- A change to blocks only is a draft. -/
theorem modify {f : Builder → Builder} (h : ∀ b : Builder, b.Drafts (f b)) :
    Drafting (modify f : Build PUnit) := by
  intro b a b' hm
  cases hm
  exact h b

theorem newBlock : Drafting newBlock := by
  intro b a b' h
  cases h
  exact ⟨rfl, rfl, rfl, rfl⟩

theorem setBlock (id : BlockId) : Drafting (setBlock id) := modify fun _ => ⟨rfl, rfl, rfl, rfl⟩

theorem setPos (pos : Position) : Drafting (setPos pos) := modify fun _ => ⟨rfl, rfl, rfl, rfl⟩

theorem current : Drafting current := by
  intro b c b' h
  obtain ⟨rfl, -⟩ := current_eq_ok h
  exact .refl b'

theorem push (op : Opcode) (arg : UInt32) : Drafting (push op arg) :=
  bind current fun _ => modify fun _ => ⟨rfl, rfl, rfl, rfl⟩

theorem emit (op : Opcode) : Drafting (Build.emit op) := by
  unfold Build.emit
  split
  · exact throw _
  · exact push op 0

theorem emitArg (op : Opcode) (arg : UInt32) : Drafting (emitArg op arg) := by
  unfold Build.emitArg
  split
  · exact push op arg
  · exact throw _

theorem jump (id : BlockId) : Drafting (jump id) := by
  refine bind current fun cur => ?_
  split
  · exact throw _
  · exact modify fun _ => ⟨rfl, rfl, rfl, rfl⟩

theorem condJump (op : Opcode) (t f : BlockId) : Drafting (condJump op t f) :=
  bind (emitArg op 0) fun _ => bind current fun _ =>
    bind (modify fun _ => ⟨rfl, rfl, rfl, rfl⟩) fun _ => jump f

theorem innermostLoop : Drafting innermostLoop := by
  intro b l b' h
  obtain ⟨rfl, -⟩ := innermostLoop_eq_ok h
  exact .refl b'

/-- A jump out of a round of a loop, or to the next one. -/
theorem leave (isBreak : Bool) : Drafting (Plan.leave isBreak).emit :=
  bind innermostLoop fun _ => bind (jump _) fun _ => bind newBlock fun id => setBlock id

theorem ret : Drafting Plan.ret.emit := bind (emit .ret) fun _ => bind newBlock fun id =>
    setBlock id

end Build.Drafting

namespace Build

/-- A function that is finished leaves the tables that its body has filled. -/
theorem drafts_of_finish {b b1 b' : Builder} {pos : Position} {a : Assembled}
    (h : finish b pos b1 = .ok a b') : b1.Drafts b' := by
  have hlast : Drafting (if b1.current.isSome then (do emit .pushNone; emit .ret)
      else pure () : Build Unit) := by
    split
    · exact .bind (.emit _) fun _ => .emit _
    · exact .pure ()
  unfold finish at h
  split at h
  · cases h
  · rename_i b2 hb2
    split at h
    · cases h
    · cases h
      -- the blocks around come back, but the tables are not those from before the function
      obtain ⟨hn, hc, hf, hl⟩ := hlast b1 () b2 hb2
      exact ⟨hn, hc, hf, hl⟩

/-- What a function adds to the tables is what its body adds. -/
theorem drafts_of_assemble {b b' : Builder} {pos : Position} {body : Build Unit} {a : Assembled}
    (h : assemble pos body b = .ok a b') :
    ∃ b1, body (inside b pos) = .ok () b1 ∧ finish b pos b1 = .ok a b' ∧ b1.Drafts b' := by
  rw [assemble_eq] at h
  cases hb : body (inside b pos) with
  | error e b1 =>
    rw [hb] at h
    cases h
  | ok u b1 =>
    rw [hb] at h
    exact ⟨b1, rfl, h, drafts_of_finish h⟩

end Build

end Starlark
