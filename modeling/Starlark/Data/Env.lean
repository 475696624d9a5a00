import Starlark.Data.Value

/-!
# Environments

Names with values, in the order in which the names were first bound. Binding a name again keeps its
place.
-/

set_option autoImplicit false

namespace Starlark

/-- Names with values, in order of first binding. -/
abbrev Env := List (String × Value)

namespace Env

/-- The value of a name. -/
def lookup? (env : Env) (name : String) : Option Value :=
  (env.find? fun b => b.1 == name).map (·.2)

/-- Bind a name; one that is bound keeps its place. -/
def insert : Env → String → Value → Env
  | [], name, v => [(name, v)]
  | (n, w) :: rest, name, v =>
    if n == name then (n, v) :: rest else (n, w) :: insert rest name v

/-- Bind pairs in order. -/
def ofPairs (pairs : List (String × Value)) : Env :=
  pairs.foldl (fun env b => env.insert b.1 b.2) []

@[simp]
theorem lookup?_insert_self (env : Env) (name : String) (v : Value) :
    (env.insert name v).lookup? name = some v := by
  induction env with
  | nil => simp [insert, lookup?]
  | cons b rest ih =>
    by_cases h : b.1 = name
    · simp [insert, lookup?, h]
    · simpa [insert, lookup?, h] using ih

theorem lookup?_insert_of_ne (env : Env) {name other : String} (v : Value) (h : other ≠ name) :
    (env.insert name v).lookup? other = env.lookup? other := by
  induction env with
  | nil => simp [insert, lookup?, h.symm]
  | cons b rest ih =>
    by_cases hb : b.1 = name
    · have hn : ¬ name = other := h.symm
      simp [insert, lookup?, hb, hn]
    · by_cases ho : b.1 = other
      · simp [insert, lookup?, ho, h]
      · simpa [insert, lookup?, hb, ho] using ih

end Env

end Starlark
