import Starlark.Proofs.Lower.Shapes
import Starlark.Proofs.Lower.Validity
import Starlark.Proofs.Machine.Growth
import Starlark.Proofs.Operation.Visibility

/-!
# Operations on values of known shapes

What is known of the values on a stack (`Shape.Describes`), and that the operations that
instructions are made of do not blame the code for values that are as known (`Op.Safe`).
-/

set_option autoImplicit false

namespace Starlark

/-! ## Values and shapes -/

/-- A value is as it is known to be. -/
def Known.Describes : Known → Value → Prop
  | .any, _ => True
  | .str, v => ∃ s, v = .str s
  | .list, v => ∃ r, v = .list r
  | .dict, v => ∃ r, v = .dict r

/-- A value is what a place of the stack holds. -/
def Held.Describes : Held → Value → Prop
  | .visible k, v => k.Describes v
  | .mandatory, v => v = .mandatory
  | .cell, v => v.IsCell
  | .pack size cells, v => ∃ elems, v = .tuple elems ∧ elems.length = size ∧ cells ≤ size ∧
      ∀ x ∈ elems.drop (size - cells), x.IsCell

/-- An operand stack and open iterators are as they are known to be. -/
def Shape.Describes (d : Shape) (st : List Value) (its : List Iter) : Prop :=
  List.Forall₂ Held.Describes d.stack st ∧ its.length = d.iters

theorem Held.Fits.describes {o o' : Held} (h : o.Fits o') {v : Value} (hv : o.Describes v) :
    o'.Describes v := by
  rcases h with rfl | ⟨k, rfl, rfl⟩
  · exact hv
  · trivial

theorem forall_mem_of_replicate {α β : Type} {R : α → β → Prop} {n : Nat} {a : α} {bs : List β}
    (h : List.Forall₂ R (List.replicate n a) bs) : ∀ b ∈ bs, R a b := by
  induction n generalizing bs with
  | zero =>
    cases h
    exact fun b hb => absurd hb List.not_mem_nil
  | succ n ih =>
    cases h with
    | cons hb h => exact List.forall_mem_cons.2 ⟨hb, ih h⟩

theorem forall₂_append_iff {α β : Type} {R : α → β → Prop} {as as' : List α} {bs : List β} :
    List.Forall₂ R (as ++ as') bs ↔
      ∃ vs rest, bs = vs ++ rest ∧ List.Forall₂ R as vs ∧ List.Forall₂ R as' rest := by
  constructor
  · intro h
    have hvs := List.forall₂_take as.length h
    have hrest := List.forall₂_drop as.length h
    rw [List.take_left] at hvs
    rw [List.drop_left] at hrest
    exact ⟨_, _, (List.take_append_drop as.length bs).symm, hvs, hrest⟩
  · rintro ⟨vs, rest, rfl, hvs, hrest⟩
    exact List.rel_append hvs hrest

namespace Shape

variable {d e : Shape} {st : List Value} {its : List Iter}

theorem Le.describes (h : d.Le e) (hd : d.Describes st its) : e.Describes st its := by
  refine ⟨?_, hd.2.trans h.1⟩
  have hstack : ∀ {os os' : List Held} {st : List Value}, List.Forall₂ Held.Fits os os' →
      List.Forall₂ Held.Describes os st → List.Forall₂ Held.Describes os' st := by
    intro os os' st ho hst
    induction ho generalizing st with
    | nil => exact hst
    | cons ho _ ih =>
      cases hst with
      | cons hv hst => exact .cons (ho.describes hv) (ih hst)
  exact hstack h.2 hd.1

theorem Describes.length_eq (h : d.Describes st its) : st.length = d.depth := h.1.length_eq.symm

/-- Anything on top. -/
theorem describes_hold {os : List Held} : (d.hold os).Describes st its ↔
    ∃ vs rest, st = vs ++ rest ∧ List.Forall₂ Held.Describes os vs ∧ d.Describes rest its := by
  constructor
  · rintro ⟨hst, hits⟩
    obtain ⟨vs, rest, hsplit, hvs, hrest⟩ := forall₂_append_iff.1 hst
    exact ⟨vs, rest, hsplit, hvs, hrest, hits⟩
  · rintro ⟨vs, rest, rfl, hvs, hrest, hits⟩
    exact ⟨List.rel_append hvs hrest, hits⟩

/-- Values on top. -/
theorem describes_push {ks : List Known} : (d.push ks).Describes st its ↔
    ∃ vs rest, st = vs ++ rest ∧ List.Forall₂ Known.Describes ks vs ∧ d.Describes rest its := by
  rw [push, describes_hold]
  simp only [List.forall₂_map_left_iff]
  rfl

theorem describes_push_cons {k : Known} {ks : List Known} : (d.push (k :: ks)).Describes st its ↔
    ∃ v rest, st = v :: rest ∧ k.Describes v ∧ (d.push ks).Describes rest its := by
  constructor
  · rintro ⟨hst, hits⟩
    cases hst with
    | cons hv hrest => exact ⟨_, _, rfl, hv, hrest, hits⟩
  · rintro ⟨v, rest, rfl, hv, hrest, hits⟩
    exact ⟨.cons hv hrest, hits⟩

theorem describes_hold_singleton {o : Held} : (d.hold [o]).Describes st its ↔
    ∃ v rest, st = v :: rest ∧ o.Describes v ∧ d.Describes rest its := by
  constructor
  · rintro ⟨hst, hits⟩
    cases hst with
    | cons hv hrest => exact ⟨_, _, rfl, hv, hrest, hits⟩
  · rintro ⟨v, rest, rfl, hv, hrest, hits⟩
    exact ⟨.cons hv hrest, hits⟩

theorem Describes.push {ks : List Known} {vs : List Value} (h : d.Describes st its)
    (hvs : List.Forall₂ Known.Describes ks vs) : (d.push ks).Describes (vs ++ st) its :=
  describes_push.2 ⟨vs, st, rfl, hvs, h⟩

theorem Describes.cons {k : Known} {v : Value} (h : d.Describes st its) (hv : k.Describes v) :
    (d.push [k]).Describes (v :: st) its :=
  h.push (.cons hv .nil)

/-- Nothing is known of values that just have been found. -/
theorem Describes.push_any {n : Nat} {vs : List Value} (h : d.Describes st its)
    (hn : vs.length = n) :
    (d.push (List.replicate n .any)).Describes (vs ++ st) its := by
  refine h.push ?_
  subst hn
  induction vs with
  | nil => exact .nil
  | cons v vs ih => exact .cons trivial ih

end Shape

/-! ## Operations -/

/-- Run on a heap, an operation keeps the code, its result has a property, and if it fails, it does
not blame the code as long as `Supplied` holds. -/
def Op.Safe {α : Type} (New : FuncObj → Prop) (Supplied : Prop) (Q : α → Prop) (m : Op α)
    (h : Heap) :
    Prop :=
  match m h with
  | .ok a h' => h.Grows New h' ∧ Q a
  | .error e h' => h.Grows New h' ∧ (Supplied → e.isInternal = false)

namespace Op

variable {New : FuncObj → Prop} {Supplied : Prop} {h : Heap}

namespace Safe

variable {α β : Type} {Q : α → Prop} {P : β → Prop}

theorem ok {m : Op α} (hm : Safe New Supplied Q m h) {h' : Heap} {a : α} (he : m h = .ok a h') :
    h.Grows New h' ∧ Q a := by
  rw [Safe, he] at hm
  exact hm

theorem error {m : Op α} (hm : Safe New Supplied Q m h) {h' : Heap} {e : Stop}
    (he : m h = .error e h') : h.Grows New h' ∧ (Supplied → e.isInternal = false) := by
  rw [Safe, he] at hm
  exact hm

theorem pure {a : α} (hq : Q a) : Safe New Supplied Q (pure a : Op α) h := ⟨.refl h, hq⟩

theorem bind {m : Op α} {f : α → Op β} (hm : Safe New Supplied Q m h)
    (hf : ∀ a h', h.Grows New h' → Q a → Safe New Supplied P (f a) h') :
    Safe New Supplied P (m >>= f) h := by
  unfold Safe
  simp only [Bind.bind, EStateM.bind]
  cases hmh : m h with
  | error e h' => exact hm.error hmh
  | ok a h' =>
    obtain ⟨hg, ha⟩ := hm.ok hmh
    have h2 := hf a h' hg ha
    cases hfa : f a h' with
    | error e h'' =>
      simp only [hfa]
      exact ⟨hg.trans (h2.error hfa).1, (h2.error hfa).2⟩
    | ok b h'' =>
      simp only [hfa]
      exact ⟨hg.trans (h2.ok hfa).1, (h2.ok hfa).2⟩

theorem mono {m : Op α} {Supplied' : Prop} {Q' : α → Prop} (hm : Safe New Supplied Q m h)
    (hs : Supplied' → Supplied) (hq : ∀ a, Q a → Q' a) : Safe New Supplied' Q' m h := by
  unfold Safe
  cases hmh : m h with
  | error e h' => exact ⟨(hm.error hmh).1, fun h => (hm.error hmh).2 (hs h)⟩
  | ok a h' => exact ⟨(hm.ok hmh).1, hq a (hm.ok hmh).2⟩

theorem of_quiet {m : Op α} (hm : Quiet (Heap.Grows New) Q m) : Safe New False Q m h := by
  unfold Safe
  cases hmh : m h with
  | error e h' => exact ⟨(hm.error hmh).1, False.elim⟩
  | ok a h' => exact hm.ok hmh

theorem of_regular {m : Op α} (hm : Regular m) : Safe New Supplied (fun _ => True) m h := by
  unfold Safe
  cases hmh : m h with
  | error e h' =>
    obtain ⟨hevolves, he⟩ := hm.error hmh
    exact ⟨Heap.Tolerant.evolves hevolves, fun _ => Stop.isInternal_of_isOrdinary he⟩
  | ok a h' => exact ⟨Heap.Tolerant.evolves (hm.ok hmh), trivial⟩

theorem fail {e : Stop} (he : e.isInternal = false) : Safe New Supplied Q (throw e : Op α) h :=
  ⟨.refl h, fun _ => he⟩

/-- Fail in one case and go on otherwise. -/
theorem guarded {p : Prop} [Decidable p] {e : Stop} {k : PUnit → Op α} (he : e.isInternal = false)
    (hk : ¬ p → Safe New Supplied Q (k ()) h) :
    Safe New Supplied Q (if p then MonadExcept.throw e >>= k else k ()) h := by
  split
  · exact ⟨.refl h, fun _ => he⟩
  · rename_i hp
    exact hk hp

theorem read (f : Heap → α) : Safe New Supplied (fun a => a = f h) (Op.read f) h := ⟨.refl h, rfl⟩

theorem modify {f : Heap → Heap} (hf : h.Grows New (f h)) :
    Safe New Supplied (fun _ => True) (modify f : Op PUnit) h := ⟨hf, trivial⟩

theorem make {f : Heap → α × Heap} (hf : h.Grows New (f h).2) :
    Safe New Supplied (fun a => a = (f h).1) (Op.make f) h := ⟨hf, rfl⟩

end Safe

theorem safe_cellContent (r : CellRef) (name : String) :
    Safe New Supplied (fun _ => True) (cellContent r name) h := by
  refine (Safe.read _).bind fun v _ _ _ => ?_
  cases v with
  | none => exact .fail rfl
  | some v => exact .pure trivial

theorem safe_expandKeywords (v : Value) :
    Safe New Supplied (fun _ => True) (expandKeywords v) h := by
  have hdict : ∀ (es : List (Value × Value)) (h : Heap),
      Safe New Supplied (fun _ => True) (dictKeywords es) h := by
    intro es
    induction es with
    | nil => exact fun h => .pure trivial
    | cons e es ih =>
      intro h
      obtain ⟨k, v⟩ := e
      cases k with
      | str s => exact (ih h).bind fun _ _ _ _ => .pure trivial
      | _ => exact .fail rfl
  unfold expandKeywords
  split
  · exact (Safe.read _).bind fun es h' _ _ => hdict es h'
  · exact .fail rfl

theorem safe_expandArguments (v : Value) :
    Safe New Supplied (fun _ => True) (expandArguments v) h := by
  refine (Safe.of_regular (regular_drain v)).bind fun elems _ _ _ => ?_
  cases elems with
  | none => exact .fail rfl
  | some elems => exact .pure trivial

theorem safe_unpack (v : Value) (n : Nat) :
    Safe New Supplied (fun vs => vs.length = n) (unpack v n) h := by
  refine (Safe.of_regular (regular_drain v)).bind fun elems _ _ _ => ?_
  cases elems with
  | none => exact .fail rfl
  | some elems =>
    refine Safe.guarded rfl fun hmany => ?_
    refine Safe.guarded rfl fun hfew => .pure ?_
    omega

/-! ## Calls -/

/-- Names and values in turn. -/
def alternating (kvs : Keywords) : List Value := kvs.flatMap fun (k, v) => [.str k, v]

theorem safe_namedArguments (kvs : Keywords) :
    Safe New Supplied (fun _ => True) (namedArguments (alternating kvs)) h := by
  induction kvs with
  | nil => exact .pure trivial
  | cons kv kvs ih => exact ih.bind fun _ _ _ _ => .pure trivial

/-- Named arguments stand on the stack as names and values in turn. -/
theorem exists_alternating {n : Nat} {ks : List Known} {vs : List Value} (hn : Named n ks)
    (h : List.Forall₂ Known.Describes ks vs) :
    ∃ kvs, (vs.take (2 * n)).reverse = alternating kvs := by
  induction n generalizing ks vs with
  | zero => exact ⟨[], rfl⟩
  | succ n ih =>
    match ks, hn with
    | _ :: k :: rest, hn =>
      obtain ⟨rfl, hn⟩ := hn
      cases h with
      | cons _ h =>
        cases h with
        | cons hs h =>
          obtain ⟨s, rfl⟩ := hs
          rename_i v _ vs
          obtain ⟨kvs, hkvs⟩ := ih hn h
          refine ⟨kvs ++ [(s, v)], ?_⟩
          rw [show 2 * (n + 1) = 2 * n + 1 + 1 by omega, List.take_succ_cons, List.take_succ_cons,
            List.reverse_cons, List.reverse_cons, hkvs, alternating, alternating,
            List.flatMap_append]
          simp

/-- The operands of a call are those of its named and of its positional arguments. -/
theorem split_counted {arg : UInt32} {vs : List Value}
    (hn : vs.length = 2 * Opcode.namedCount arg + Opcode.positionalCount arg) :
    vs = vs.take (2 * Opcode.namedCount arg) ++ vs.drop (2 * Opcode.namedCount arg) ∧
      (vs.take (2 * Opcode.namedCount arg)).length = 2 * Opcode.namedCount arg ∧
      (vs.drop (2 * Opcode.namedCount arg)).length = Opcode.positionalCount arg := by
  refine ⟨(List.take_append_drop _ vs).symm, ?_, ?_⟩
  · rw [List.length_take]
    omega
  · rw [List.length_drop]
    omega

theorem safe_takeCounted {arg : UInt32} {ks : List Known} {f : Value} {vs st : List Value}
    (h1 : List.Forall₂ Known.Describes ks vs)
    (hks : ks.length = 2 * Opcode.namedCount arg + Opcode.positionalCount arg)
    (hnames : Named (Opcode.namedCount arg) ks) (star kw : Option Value) :
    Safe New Supplied (fun r => r.2.2.2 = st) (takeCounted arg star kw (vs ++ f :: st)) h := by
  have hkw : ∀ h : Heap, Safe New Supplied (fun _ => True) (extraKeywords kw) h := by
    intro h
    cases kw with
    | none => exact .pure trivial
    | some v => exact safe_expandKeywords v
  have hstar : ∀ h : Heap, Safe New Supplied (fun _ => True) (extraArguments star) h := by
    intro h
    cases star with
    | none => exact .pure trivial
    | some v => exact safe_expandArguments v
  obtain ⟨kvs, hkvs⟩ := exists_alternating hnames h1
  obtain ⟨hsplit, hpairs, hpos⟩ := split_counted (h1.length_eq.symm.trans hks)
  unfold takeCounted
  rw [hsplit, List.append_assoc, popMany_bind hpairs]
  dsimp only
  rw [hkvs]
  refine (safe_namedArguments kvs).bind fun named _ _ _ => (hkw _).bind fun extra _ _ _ => ?_
  rw [popMany_bind hpos]
  exact (hstar _).bind fun rest _ _ _ => .pure rfl

theorem safe_takeCall {op : Opcode} (hop : op.isCall = true) {arg : UInt32} {ks : List Known}
    {f : Value} {vs st : List Value} (h1 : List.Forall₂ Known.Describes ks vs)
    (hks : ks.length = op.extraArguments + 2 * Opcode.namedCount arg + Opcode.positionalCount arg)
    (hnames : Named (Opcode.namedCount arg) (ks.drop op.extraArguments)) :
    Safe New Supplied (fun r => r.2.2.2 = st) (takeCall op arg (vs ++ f :: st)) h := by
  -- the four calls differ in which of the two extra arguments lie on top
  rcases Opcode.isCall_cases hop with rfl | rfl | rfl | rfl
  · simp only [Opcode.extraArguments, List.drop_zero, Nat.zero_add] at hks hnames
    exact safe_takeCounted h1 hks hnames none none
  · cases h1 with
    | nil => exact absurd hks (by simp [Opcode.extraArguments]; omega)
    | cons _ h1 =>
      simp only [Opcode.extraArguments, List.length_cons] at hks
      simp only [Opcode.extraArguments, List.drop_succ_cons, List.drop_zero] at hnames
      exact safe_takeCounted h1 (by omega) hnames (some _) none
  · cases h1 with
    | nil => exact absurd hks (by simp [Opcode.extraArguments]; omega)
    | cons _ h1 =>
      simp only [Opcode.extraArguments, List.length_cons] at hks
      simp only [Opcode.extraArguments, List.drop_succ_cons, List.drop_zero] at hnames
      exact safe_takeCounted h1 (by omega) hnames none (some _)
  · cases h1 with
    | nil => exact absurd hks (by simp [Opcode.extraArguments]; omega)
    | cons _ h1 =>
      cases h1 with
      | nil => exact absurd hks (by simp [Opcode.extraArguments]; omega)
      | cons _ h1 =>
        simp only [Opcode.extraArguments, List.length_cons] at hks
        simp only [Opcode.extraArguments, List.drop_succ_cons, List.drop_zero] at hnames
        exact safe_takeCounted h1 (by omega) hnames (some _) (some _)

end Op

end Starlark
