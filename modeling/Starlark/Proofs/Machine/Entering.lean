import Starlark.Proofs.Machine.Instructions

/-!
# Entering a function

Binding the arguments of a function whose parameters have slots fails only because of the arguments
(`binds_bindArguments`). Behind it the locals have their number, and boxing puts cells into those
that are captured (`Heap.boxCells_fresh`).
-/

set_option autoImplicit false

namespace Starlark

/-- Binding keeps the number of slots, its result has a property, and it does not blame the code. -/
def BindM.Safe {α : Type} (Q : α → Prop) (m : BindM α) : Prop :=
  ∀ b, match m b with
    | .ok a b' => b'.slots.size = b.slots.size ∧ Q a
    | .error e _ => e.isInternal = false

namespace BindM

namespace Safe

variable {α β : Type} {Q : α → Prop} {P : β → Prop}

theorem pure {a : α} (h : Q a) : Safe Q (pure a : BindM α) := fun _ => ⟨rfl, h⟩

theorem bind {m : BindM α} {f : α → BindM β} (hm : Safe Q m) (hf : ∀ a, Q a → Safe P (f a)) :
    Safe P (m >>= f) := by
  intro b
  have h1 := hm b
  simp only [Bind.bind, EStateM.bind]
  cases hmb : m b with
  | error e b' =>
    rw [hmb] at h1
    exact h1
  | ok a b' =>
    rw [hmb] at h1
    have h2 := hf a h1.2 b'
    cases hfa : f a b' with
    | error e b'' =>
      simp only [hfa] at h2 ⊢
      exact h2
    | ok c b'' =>
      simp only [hfa] at h2 ⊢
      exact ⟨h2.1.trans h1.1, h2.2⟩

theorem fault {f : Fault} (h : (Error.fault f).isInternal = false) :
    Safe Q (BindM.fault f : BindM α) := fun _ => h

theorem modify {f : Bound → Bound} (h : ∀ b, (f b).slots.size = b.slots.size) :
    Safe (fun _ => True) (modify f : BindM PUnit) := fun b => ⟨h b, trivial⟩

/-- Fail in one case and go on otherwise. -/
theorem guarded {p : Prop} [Decidable p] {f : Fault} {k : PUnit → BindM α}
    (h : (Error.fault f).isInternal = false) (hk : Safe Q (k ())) :
    Safe Q (if p then BindM.fault f >>= k else k ()) := by
  split
  · exact bind (Q := fun _ => True) (fault h) fun _ _ => hk
  · exact hk

end Safe

theorem safe_require {p : Prop} [Decidable p] (h : p) (a : Abort) :
    Safe (fun _ => True) (require p a) := by
  rw [require, if_pos h]
  exact .pure trivial

theorem safe_setSlot (i : Nat) (v : Value) : Safe (fun _ => True) (setSlot i v) :=
  .modify fun _ => Array.size_setIfInBounds

theorem safe_isBound (i : Nat) : Safe (fun _ => True) (isBound i) := fun _ => ⟨rfl, trivial⟩

theorem safe_setSlots (i : Nat) (vs : List Value) : Safe (fun _ => True) (setSlots i vs) := by
  induction vs generalizing i with
  | nil => exact .pure trivial
  | cons v vs ih => exact (safe_setSlot i v).bind fun _ _ => ih (i + 1)

theorem safe_keywords (f : String) (params : List String) (kwargs : Keywords) :
    Safe (fun _ => True) (keywords f params kwargs) := by
  induction kwargs with
  | nil => exact .pure trivial
  | cons kv rest ih =>
    obtain ⟨k, v⟩ := kv
    unfold keywords
    split
    · refine (safe_isBound _).bind fun bound _ => Safe.guarded rfl ?_
      exact (safe_setSlot _ v).bind fun _ _ => ih
    · refine Safe.bind (Q := fun _ => True) (fun b => ⟨rfl, trivial⟩) fun b _ => ?_
      split
      · exact Safe.bind (Q := fun _ => True) (.fault rfl) fun _ _ => ih
      · refine (Safe.modify ?_).bind fun _ _ => Safe.guarded rfl ih
        exact fun b => rfl

theorem safe_defaults (first : Nat) (values : Array Value) (i : Nat) (params : List String) :
    Safe (fun _ => True) (defaults first values i params) := by
  induction params generalizing i with
  | nil => exact .pure trivial
  | cons q rest ih =>
    have hskip : Safe (fun _ => True) (do return q :: (← defaults first values (i + 1) rest)) :=
      (ih (i + 1)).bind fun _ _ => .pure trivial
    unfold defaults
    refine (safe_isBound i).bind fun bound _ => ?_
    split
    · exact ih (i + 1)
    · split
      · exact hskip
      · split
        · exact hskip
        · exact hskip
        · exact (safe_setSlot i _).bind fun _ _ => ih (i + 1)

end BindM

open BindM in
theorem safe_bindNamed {c : Code} (values : Array Value) (kwargs : Keywords) {ordinary : Nat}
    (h : ordinary ≤ c.locals.size) (taken : Nat) :
    Safe (fun _ => True) (bindNamed c values kwargs ordinary taken) := by
  unfold bindNamed
  refine (safe_require h _).bind fun _ _ => (safe_keywords _ _ _).bind fun _ _ => ?_
  split
  · refine (safe_defaults _ _ _ _).bind fun missing _ => ?_
    split
    · exact .fault rfl
    · exact .pure trivial
  · exact .pure trivial

open BindM in
theorem safe_bindOrdinary {c : Code} (values : Array Value) (args : List Value) (kwargs : Keywords)
    {named : Nat} (hnamed : named ≤ c.locals.size)
    (hkinds : c.numKwonly.toNat + (if c.hasVarargs then 1 else 0) ≤ named) :
    Safe (fun _ => True) (bindOrdinary c values args kwargs c.locals.size named) := by
  have hvarargs : c.hasVarargs → 0 < named := by
    intro hv
    rw [if_pos hv] at hkinds
    omega
  unfold bindOrdinary
  refine (safe_require hvarargs _).bind fun _ _ => (safe_require (by omega) _).bind fun _ _ => ?_
  refine Safe.guarded rfl ?_
  refine (safe_setSlots _ _).bind fun _ _ => ?_
  split
  · rename_i hv
    rw [if_pos hv]
    have hpos := hvarargs hv
    exact (safe_require (by omega) _).bind fun _ _ => (safe_setSlot _ _).bind fun _ _ =>
      safe_bindNamed values kwargs (by omega) _
  · exact safe_bindNamed values kwargs (by omega) _

/-- The arguments of a call are bound: there is a slot for each local, or the arguments are
wrong. -/
def Code.Binds (c : Code) : EStateM.Result Stop Bound Unit → Prop
  | .ok _ b => b.slots.size = c.locals.size
  | .error e _ => e.isInternal = false

theorem BindM.Safe.binds {c : Code} {m : BindM Unit} (hm : Safe (fun _ => True) m) {b : Bound}
    (hb : b.slots.size = c.locals.size) : c.Binds (m b) := by
  have h1 := hm b
  cases hmb : m b with
  | error e b' =>
    rw [hmb] at h1
    exact h1
  | ok a b' =>
    rw [hmb] at h1
    exact h1.1.trans hb

open BindM in
/-- The arguments of a function whose parameters have slots. -/
theorem binds_bindArguments {c : Code} (hc : c.Counted) (values : Array Value) (args : List Value)
    (kwargs : Keywords) {b : Bound} (hb : b.slots.size = c.locals.size) :
    c.Binds (bindArguments c values args kwargs b) := by
  have hslots := hc.slots
  have hkinds := hc.kinds
  unfold bindArguments
  -- every subtraction and every slot is within bounds by the counts of the function
  by_cases h0 : c.numParams = 0
  · rw [if_pos h0]
    exact Safe.binds (Safe.guarded rfl (.pure trivial)) hb
  · have hpos : 0 < c.numParams.toNat := Nat.pos_of_ne_zero fun h => h0 (UInt32.toNat_inj.1 h)
    have hget : ∀ k : Bound → BindM Unit, (get >>= k) b = k b b := fun k => rfl
    rw [if_neg h0, hget, hb]
    refine Safe.binds ?_ hb
    split
    · rename_i hk
      rw [if_pos hk] at hkinds ⊢
      refine (safe_require (by omega) _).bind fun _ _ => Safe.bind (Safe.modify ?_) fun _ _ =>
        safe_bindOrdinary values args kwargs (by omega) (by omega)
      exact fun _ => rfl
    · rename_i hk
      rw [if_neg hk] at hkinds
      exact safe_bindOrdinary values args kwargs (by omega) (by omega)

/-! ## Boxing -/

namespace Heap

/-- All captured locals that are there can be boxed. -/
theorem exists_boxCells (h : Heap) {locals : Array (Option Value)} {cells : List UInt32}
    (hlt : ∀ i ∈ cells, i.toNat < locals.size) :
    ∃ locals' h', h.boxCells locals cells = .ok (locals', h') := by
  induction cells generalizing h locals with
  | nil => exact ⟨locals, h, rfl⟩
  | cons i cells ih =>
    obtain ⟨hi, hrest⟩ := List.forall_mem_cons.1 hlt
    rw [boxCells, Array.getElem?_eq_getElem hi]
    refine ih _ fun j hj => ?_
    rw [Array.size_setIfInBounds]
    exact hrest j hj

/-- Boxing puts each captured local into a new cell of its own, and leaves the other locals. -/
theorem boxCells_fresh {cells : List UInt32} {h h' : Heap} {locals locals' : Array (Option Value)}
    (hb : h.boxCells locals cells = .ok (locals', h')) :
    locals'.size = locals.size ∧ h.cells.size ≤ h'.cells.size ∧
      (∀ k : Nat, (∀ i ∈ cells, i.toNat ≠ k) → locals'[k]? = locals[k]?) ∧
      (∀ i ∈ cells, ∃ r, locals'[i.toNat]? = some (some (.cell r)) ∧ h.cells.size ≤ r.index ∧
        r.index < h'.cells.size) ∧
      ∀ i ∈ cells, ∀ j ∈ cells, locals'[i.toNat]? = locals'[j.toNat]? → i = j := by
  induction cells generalizing h locals with
  | nil =>
    cases hb
    exact ⟨rfl, Nat.le_refl _, fun _ _ => rfl, nofun, nofun⟩
  | cons i cells ih =>
    rw [boxCells] at hb
    split at hb
    · cases hb
    rename_i v hv
    have hlt : i.toNat < locals.size := (Array.getElem?_eq_some_iff.1 hv).1
    have hnew : (h.newCell v).2.cells.size = h.cells.size + 1 := Array.size_push _
    obtain ⟨hsize, hgrows, hothers, hboxed, hdistinct⟩ := @ih (h.newCell v).2 _ hb
    rw [hnew] at hgrows hboxed
    rw [Array.size_setIfInBounds] at hsize
    -- the cell of a local that is not boxed again is older than those of the others
    have hfirst : i ∉ cells → locals'[i.toNat]? = some (some (.cell ⟨h.cells.size⟩)) := by
      intro hi
      rw [hothers i.toNat fun j hj he => hi (UInt32.toNat_inj.1 he ▸ hj),
        Array.getElem?_setIfInBounds_self_of_lt hlt]
    have hapart : i ∉ cells → ∀ j ∈ cells, locals'[i.toNat]? ≠ locals'[j.toNat]? := by
      intro hi j hj he
      obtain ⟨r, hr, hle, -⟩ := hboxed j hj
      rw [hfirst hi, hr] at he
      cases he
      exact absurd hle (Nat.not_succ_le_self _)
    refine ⟨hsize, by omega, fun k hk => ?_, fun j hj => ?_, fun j hj k hk he => ?_⟩
    · obtain ⟨hik, hk⟩ := List.forall_mem_cons.1 hk
      rw [hothers k hk, Array.getElem?_setIfInBounds_ne hik]
    · by_cases hjc : j ∈ cells
      · obtain ⟨r, hr, hle, hlt⟩ := hboxed j hjc
        exact ⟨r, hr, by omega, hlt⟩
      · obtain rfl : j = i := (List.mem_cons.1 hj).resolve_right hjc
        exact ⟨⟨h.cells.size⟩, hfirst hjc, Nat.le_refl _, hgrows⟩
    · by_cases hjc : j ∈ cells
      · by_cases hkc : k ∈ cells
        · exact hdistinct j hjc k hkc he
        · obtain rfl : k = i := (List.mem_cons.1 hk).resolve_right hkc
          exact absurd he.symm (hapart hkc j hjc)
      · obtain rfl : j = i := (List.mem_cons.1 hj).resolve_right hjc
        rcases List.mem_cons.1 hk with rfl | hkc
        · rfl
        · exact absurd he (hapart hjc k hkc)

end Heap

end Starlark
