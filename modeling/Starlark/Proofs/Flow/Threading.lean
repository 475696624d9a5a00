import Starlark.Flow.Block
import Mathlib.Data.List.Perm.Subperm

/-!
# Threading of jumps

`BlockGraph.Leads` says where control that enters a block first meets code. `BlockGraph.target`
computes exactly this relation (`target_eq_ok_iff`): its bound on the number of empty blocks is
never too small, because a path through empty blocks that comes to code meets no block twice.
-/

set_option autoImplicit false

namespace Starlark

namespace BlockGraph

/-- Control that enters `b` comes first, through empty blocks only, to the code of `t`. -/
inductive Leads (g : BlockGraph) : BlockId → BlockId → Prop where
  | here {b : BlockId} : (g.block b).insns ≠ #[] → Leads g b b
  | skip {b c t : BlockId} :
      (g.block b).insns = #[] → (g.block b).jmp = some c → Leads g c t → Leads g b t

/-- A block leads to code. -/
def Led (g : BlockGraph) (b : BlockId) : Prop := ∃ t, Leads g b t

variable {g : BlockGraph}

/-- Behind the end of the graph all blocks are empty. -/
theorem block_of_size_le {b : BlockId} (h : g.size ≤ b) : g.block b = {} := by
  simp [block, Array.getD, Nat.not_lt.2 h]

theorem lt_size_of_insns_ne {b : BlockId} (h : (g.block b).insns ≠ #[]) : b < g.size := by
  by_contra hb
  rw [block_of_size_le (Nat.not_lt.1 hb)] at h
  exact h rfl

theorem lt_size_of_jmp {b c : BlockId} (h : (g.block b).jmp = some c) : b < g.size := by
  by_contra hb
  rw [block_of_size_le (Nat.not_lt.1 hb)] at h
  cases h

namespace Leads

theorem insns_ne {b t : BlockId} (h : Leads g b t) : (g.block t).insns ≠ #[] := by
  induction h with
  | here hb => exact hb
  | skip _ _ _ ih => exact ih

theorem target_lt {b t : BlockId} (h : Leads g b t) : t < g.size :=
  lt_size_of_insns_ne h.insns_ne

/-- A block leads to one block only. -/
theorem unique {b t u : BlockId} (h : Leads g b t) (h' : Leads g b u) : t = u := by
  induction h with
  | here hb =>
    cases h' with
    | here _ => rfl
    | skip he _ _ => exact absurd he hb
  | skip he hj _ ih =>
    cases h' with
    | here hb => exact absurd he hb
    | skip _ hj' ht =>
      rw [hj] at hj'
      cases hj'
      exact ih ht

end Leads

/-- The empty blocks on the way from `b` to the code of `t`, in order. -/
inductive Passes (g : BlockGraph) : List BlockId → BlockId → BlockId → Prop where
  | here {b : BlockId} : (g.block b).insns ≠ #[] → Passes g [] b b
  | skip {path : List BlockId} {b c t : BlockId} :
      (g.block b).insns = #[] → (g.block b).jmp = some c → Passes g path c t →
        Passes g (b :: path) b t

namespace Passes

theorem of_leads {b t : BlockId} (h : Leads g b t) : ∃ path, Passes g path b t := by
  induction h with
  | here hb => exact ⟨[], .here hb⟩
  | skip he hj _ ih =>
    obtain ⟨path, hp⟩ := ih
    exact ⟨_ :: path, .skip he hj hp⟩

theorem unique {path path' : List BlockId} {b t u : BlockId} (h : Passes g path b t)
    (h' : Passes g path' b u) : path = path' := by
  induction h generalizing path' with
  | here hb =>
    cases h' with
    | here _ => rfl
    | skip he _ _ => exact absurd he hb
  | skip he hj _ ih =>
    cases h' with
    | here hb => exact absurd he hb
    | skip _ hj' ht =>
      rw [hj] at hj'
      cases hj'
      rw [ih ht]

/-- From a block on the way, the rest of the way is shorter. -/
theorem rest_of_mem {path : List BlockId} {b t x : BlockId} (h : Passes g path b t)
    (hx : x ∈ path) : ∃ rest, Passes g rest x t ∧ rest.length ≤ path.length := by
  induction h with
  | here _ => cases hx
  | @skip path b c t he hj hp ih =>
    rcases List.mem_cons.1 hx with rfl | hx
    · exact ⟨_, .skip he hj hp, Nat.le_refl _⟩
    · obtain ⟨rest, hr, hlen⟩ := ih hx
      exact ⟨rest, hr, Nat.le_succ_of_le hlen⟩

theorem nodup {path : List BlockId} {b t : BlockId} (h : Passes g path b t) : path.Nodup := by
  induction h with
  | here _ => exact List.nodup_nil
  | @skip path b c t he hj hp ih =>
    refine List.nodup_cons.2 ⟨fun hb => ?_, ih⟩
    -- a second visit of `b` would make the whole path no longer than its own rest
    obtain ⟨rest, hr, hlen⟩ := hp.rest_of_mem hb
    have hsame := hr.unique (.skip he hj hp)
    rw [hsame, List.length_cons] at hlen
    omega

theorem lt_size {path : List BlockId} {b t : BlockId} (h : Passes g path b t) :
    ∀ x ∈ path, x < g.size := by
  induction h with
  | here _ => intro x hx; cases hx
  | skip _ hj _ ih =>
    intro x hx
    rcases List.mem_cons.1 hx with rfl | hx
    · exact lt_size_of_jmp hj
    · exact ih x hx

theorem length_le {path : List BlockId} {b t : BlockId} (h : Passes g path b t) :
    path.length ≤ g.size := by
  have hsub : path ⊆ List.range g.size := fun x hx => List.mem_range.2 (h.lt_size x hx)
  have hle := (h.nodup.subperm hsub).length_le
  rwa [List.length_range] at hle

theorem targetWithin {path : List BlockId} {b t : BlockId} (h : Passes g path b t) :
    ∀ fuel, path.length < fuel → g.targetWithin fuel b = .ok t := by
  induction h with
  | here hb =>
    intro fuel hf
    obtain ⟨n, rfl⟩ : ∃ n, fuel = n + 1 := ⟨fuel - 1, by omega⟩
    simp [BlockGraph.targetWithin, hb]
  | skip he hj _ ih =>
    intro fuel hf
    obtain ⟨n, rfl⟩ : ∃ n, fuel = n + 1 := ⟨fuel - 1, by omega⟩
    simp only [BlockGraph.targetWithin, he, hj, Array.isEmpty_empty, ↓reduceIte]
    exact ih n (by simpa using hf)

end Passes

theorem leads_of_targetWithin {fuel : Nat} {b t : BlockId}
    (h : g.targetWithin fuel b = .ok t) : Leads g b t := by
  induction fuel generalizing b with
  | zero => cases h
  | succ fuel ih =>
    simp only [targetWithin] at h
    split at h
    · rename_i he
      have he' : (g.block b).insns = #[] := by simpa using he
      split at h
      · rename_i next hj
        exact .skip he' hj (ih h)
      · cases h
    · rename_i he
      cases h
      exact .here (by simpa using he)

/-- `target` computes where a block leads. -/
theorem target_eq_ok_iff {b t : BlockId} : g.target b = .ok t ↔ Leads g b t := by
  constructor
  · exact leads_of_targetWithin
  · intro h
    obtain ⟨path, hp⟩ := Passes.of_leads h
    exact hp.targetWithin _ (Nat.lt_succ_of_le hp.length_le)

end BlockGraph

end Starlark
