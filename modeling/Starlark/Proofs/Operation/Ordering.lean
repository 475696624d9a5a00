import Starlark.Operation.Order
import Starlark.Proofs.Operation.Equivalence

/-!
# The order of values

Sequences are compared place by place for equality, and only the first pair that differs is put in
order, by a comparison of its own (`Lexical`). Among values without floats the two agree at every
depth: where two values are in some order, equality gives an answer too, and it is the one that the
order implies (`Heap.equalAt_of_orderAt`). So turning a comparison around turns its answer around,
equal values are in the same order to every third, and "less" is transitive; whatever stands behind
the first difference has no part in it (`Heap.compare_strict`).
-/

set_option autoImplicit false

namespace Starlark

/-! ## The order of sequences -/

/-- The order of two sequences, of which `E` says where they agree and `O` how they differ. -/
inductive Lexical {α : Type} (E : α → α → Prop) (O : α → α → Ordering → Prop) :
    List α → List α → Ordering → Prop where
  | nil : Lexical E O [] [] .eq
  | shorter (y : α) (ys : List α) : Lexical E O [] (y :: ys) .lt
  | longer (x : α) (xs : List α) : Lexical E O (x :: xs) [] .gt
  | differ {x y : α} {o : Ordering} (ho : O x y o) (xs ys : List α) :
      Lexical E O (x :: xs) (y :: ys) o
  | agree {x y : α} {xs ys : List α} {o : Ordering} (he : E x y) (hrest : Lexical E O xs ys o) :
      Lexical E O (x :: xs) (y :: ys) o

section Sequences

variable {ε α : Type} {eq : α → α → Except ε Bool} {order : α → α → Except ε (Option Ordering)}

/-- Two elements are found to differ, and to be in the order `o`. -/
def Differ (eq : α → α → Except ε Bool) (order : α → α → Except ε (Option Ordering)) (x y : α)
    (o : Ordering) : Prop :=
  eq x y = .ok false ∧ order x y = .ok (some o)

/-- Sequences have an order where they first differ, or by their lengths. -/
theorem seqOrder_eq_some_iff {xs ys : List α} {o : Ordering} :
    seqOrder eq order xs ys = .ok (some o) ↔
      Lexical (fun x y => eq x y = .ok true) (Differ eq order) xs ys o := by
  induction xs generalizing ys with
  | nil =>
    cases ys with
    | nil =>
      constructor
      · rintro ⟨⟩
        exact .nil
      · rintro ⟨⟩
        rfl
    | cons y ys =>
      constructor
      · rintro ⟨⟩
        exact .shorter y ys
      · rintro ⟨⟩
        rfl
  | cons x xs ih =>
    cases ys with
    | nil =>
      constructor
      · rintro ⟨⟩
        exact .longer x xs
      · rintro ⟨⟩
        rfl
    | cons y ys =>
      rw [seqOrder]
      -- the first pair decides, unless its elements are equal
      cases he : eq x y with
      | error e =>
        constructor
        · intro h
          cases h
        · rintro (_ | _ | _ | ⟨⟨hne, -⟩, _, _⟩ | ⟨htrue, -⟩)
          · rw [he] at hne
            cases hne
          · rw [he] at htrue
            cases htrue
      | ok same =>
        cases same with
        | false =>
          constructor
          · intro h
            exact .differ ⟨he, h⟩ xs ys
          · rintro (_ | _ | _ | ⟨⟨-, ho⟩, _, _⟩ | ⟨htrue, -⟩)
            · exact ho
            · rw [he] at htrue
              cases htrue
        | true =>
          constructor
          · intro h
            exact .agree he (ih.1 h)
          · rintro (_ | _ | _ | ⟨⟨hne, -⟩, _, _⟩ | ⟨-, hrest⟩)
            · rw [he] at hne
              cases hne
            · exact ih.2 hrest

/-- Sequences are in some order if the elements are that have to be put in order. -/
theorem seqOrder_ne_none {xs ys : List α} (h : ∀ x ∈ xs, ∀ y ∈ ys, order x y ≠ .ok none) :
    seqOrder eq order xs ys ≠ .ok none := by
  induction xs generalizing ys with
  | nil => cases ys <;> nofun
  | cons x xs ih =>
    cases ys with
    | nil => nofun
    | cons y ys =>
      rw [seqOrder]
      cases eq x y with
      | error e => nofun
      | ok same =>
        cases same with
        | false => exact h x List.mem_cons_self y List.mem_cons_self
        | true =>
          apply ih
          intro v hv w hw
          exact h v (List.mem_cons_of_mem x hv) w (List.mem_cons_of_mem y hw)

end Sequences

namespace Lexical

variable {α : Type} {P : α → Prop} {E : α → α → Prop} {O O' : α → α → Ordering → Prop}
  {xs ys zs : List α} {o : Ordering}

/-- A sequence is level with itself, if no element differs from itself. -/
theorem eq_of_self (h : Lexical E O xs xs o) (hP : ∀ x ∈ xs, P x) (hO : ∀ x o, P x → ¬ O x x o) :
    o = .eq := by
  induction xs with
  | nil =>
    cases h
    rfl
  | cons x xs ih =>
    rw [List.forall_mem_cons] at hP
    cases h with
    | differ ho => exact absurd ho (hO x o hP.1)
    | agree _ hrest => exact ih hrest hP.2

/-- Where sequences are turned round, so is their order. -/
theorem swap (h : Lexical E O xs ys o) (hxs : ∀ x ∈ xs, P x) (hys : ∀ y ∈ ys, P y)
    (hE : ∀ x y, P x → P y → E x y → E y x)
    (hO : ∀ x y o, P x → P y → O x y o → O' y x o.swap) : Lexical E O' ys xs o.swap := by
  induction h with
  | nil => exact .nil
  | shorter y ys => exact .longer y ys
  | longer x xs => exact .shorter x xs
  | differ ho xs ys =>
    exact .differ (hO _ _ _ (hxs _ List.mem_cons_self) (hys _ List.mem_cons_self) ho) ys xs
  | agree he _ ih =>
    rw [List.forall_mem_cons] at hxs hys
    exact .agree (hE _ _ hxs.1 hys.1 he) (ih hxs.2 hys.2)

/-- A sequence may be replaced by one that agrees with it. -/
theorem congr_right (h : Lexical E O xs ys o) (hyz : List.Forall₂ E ys zs)
    (hxs : ∀ x ∈ xs, P x) (hys : ∀ y ∈ ys, P y) (hzs : ∀ z ∈ zs, P z)
    (hE : ∀ x y z, P x → P y → P z → E x y → E y z → E x z)
    (hO : ∀ x y z o, P x → P y → P z → O x y o → E y z → O x z o) : Lexical E O xs zs o := by
  -- the second sequence may be replaced by one equal to it, element by element
  induction h generalizing zs with
  | nil =>
    cases hyz
    exact .nil
  | shorter y ys =>
    cases hyz with
    | cons _ _ => exact .shorter _ _
  | longer x xs =>
    cases hyz
    exact .longer x xs
  | differ ho xs ys =>
    cases hyz with
    | cons hhead _ =>
      exact .differ (hO _ _ _ _ (hxs _ List.mem_cons_self) (hys _ List.mem_cons_self)
        (hzs _ List.mem_cons_self) ho hhead) xs _
  | agree he _ ih =>
    cases hyz with
    | cons hhead htail =>
      rw [List.forall_mem_cons] at hxs hys hzs
      exact .agree (hE _ _ _ hxs.1 hys.1 hzs.1 he hhead) (ih htail hxs.2 hys.2 hzs.2)

/-- The first difference on the way from `xs` to `zs` is the earlier of the two differences. -/
theorem trans (h₁ : Lexical E O xs ys .lt) (h₂ : Lexical E O ys zs .lt)
    (hxs : ∀ x ∈ xs, P x) (hys : ∀ y ∈ ys, P y) (hzs : ∀ z ∈ zs, P z)
    (hE : ∀ x y z, P x → P y → P z → E x y → E y z → E x z)
    (hOE : ∀ x y z o, P x → P y → P z → O x y o → E y z → O x z o)
    (hEO : ∀ x y z o, P x → P y → P z → E x y → O y z o → O x z o)
    (hO : ∀ x y z, P x → P y → P z → O x y .lt → O y z .lt → O x z .lt) :
    Lexical E O xs zs .lt := by
  generalize hless : Ordering.lt = o at h₁
  -- on the first comparison; the second one has come to its end, or differs, at this place, before
  -- it or after it
  induction h₁ generalizing zs with
  | nil => cases hless
  | longer x xs => cases hless
  | shorter y ys =>
    cases h₂ with
    | differ _ _ zs => exact .shorter _ zs
    | agree _ _ => exact .shorter _ _
  | differ ho xs ys =>
    subst hless
    have hx := hxs _ List.mem_cons_self
    have hy := hys _ List.mem_cons_self
    cases h₂ with
    | differ ho₂ _ zs => exact .differ (hO _ _ _ hx hy (hzs _ List.mem_cons_self) ho ho₂) xs zs
    | agree he _ => exact .differ (hOE _ _ _ _ hx hy (hzs _ List.mem_cons_self) ho he) xs _
  | agree he _ ih =>
    have hx := hxs _ List.mem_cons_self
    have hy := hys _ List.mem_cons_self
    cases h₂ with
    | differ ho₂ _ zs =>
      subst hless
      exact .differ (hEO _ _ _ _ hx hy (hzs _ List.mem_cons_self) he ho₂) _ zs
    | agree he₂ hrest =>
      rw [List.forall_mem_cons] at hxs hys hzs
      exact .agree (hE _ _ _ hx hy hzs.1 he he₂) (ih hrest hxs.2 hys.2 hzs.2 hless)

/-- Where sequences are in some order, comparing them for equality gives an answer: they are equal
exactly if they are level. -/
theorem sameLengthEqual {ε : Type} {eq : α → α → Except ε Bool} (h : Lexical E O xs ys o)
    (hxs : ∀ x ∈ xs, P x) (hys : ∀ y ∈ ys, P y) (hE : ∀ x y, E x y → eq x y = .ok true)
    (hO : ∀ x y o, P x → P y → O x y o → eq x y = .ok false ∧ o ≠ .eq) :
    Starlark.sameLengthEqual eq xs ys = .ok (o == .eq) := by
  -- sequences of different lengths are unequal without being compared, and so is their order
  have hboth : (xs.length = ys.length → seqEqual eq xs ys = .ok (o == .eq)) ∧
      (xs.length ≠ ys.length → o ≠ .eq) := by
    induction h with
    | nil => exact ⟨fun _ => rfl, fun hne => absurd rfl hne⟩
    | shorter y ys => exact ⟨nofun, fun _ => nofun⟩
    | longer x xs => exact ⟨nofun, fun _ => nofun⟩
    | @differ x y o ho xs ys =>
      obtain ⟨hne, heq⟩ := hO x y o (hxs _ List.mem_cons_self) (hys _ List.mem_cons_self) ho
      constructor
      · intro _
        rw [seqEqual, hne, beq_eq_false_iff_ne.2 heq]
        rfl
      · exact fun _ => heq
    | agree he _ ih =>
      rw [List.forall_mem_cons] at hxs hys
      obtain ⟨hsame, hdiffer⟩ := ih hxs.2 hys.2
      constructor
      · intro hlen
        rw [seqEqual, hE _ _ he]
        exact hsame (Nat.succ.inj hlen)
      · intro hlen
        apply hdiffer
        intro h
        exact hlen (congrArg Nat.succ h)
  unfold Starlark.sameLengthEqual
  split
  · rename_i hlen
    exact hboth.1 hlen
  · rename_i hlen
    rw [beq_eq_false_iff_ne.2 (hboth.2 hlen)]

end Lexical

/-! ## Values that hold no others -/

/-- The order of bytes is the order of lists of numbers. -/
theorem bytesOrder_eq_compare (a b : List UInt8) : bytesOrder a b = compare a b := by
  induction a generalizing b with
  | nil => cases b <;> rfl
  | cons x xs ih =>
    cases b with
    | nil => rfl
    | cons y ys =>
      rw [bytesOrder, List.compare_cons_cons, ← ih]
      have hcompare : compare x y = if x < y then .lt else if x = y then .eq else .gt := rfl
      rw [hcompare]
      by_cases hlt : x < y
      · simp [hlt]
      · by_cases heq : x = y
        · simp [heq]
        · have hgt : y < x := UInt8.lt_of_le_of_ne (UInt8.not_lt.1 hlt) (Ne.symm heq)
          simp [hlt, heq, hgt]

/-- The order of two values of a type whose values hold no others. -/
inductive Value.AtomOrder : Value → Value → Ordering → Prop where
  | int {a b : Int64} {o : Ordering} (h : compare a.toInt b.toInt = o) :
      AtomOrder (.int a) (.int b) o
  | bool {a b : Bool} {o : Ordering} (h : compare a.toNat b.toNat = o) :
      AtomOrder (.bool a) (.bool b) o
  | str {a b : String} {o : Ordering} (h : compare a b = o) : AtomOrder (.str a) (.str b) o
  | bytes {a b : List UInt8} {o : Ordering} (h : compare a b = o) :
      AtomOrder (.bytes a) (.bytes b) o

namespace Value.AtomOrder

variable {x y z : Value} {o : Ordering}

/-- Where atoms are turned round, so is their order. -/
theorem swap (h : AtomOrder x y o) : AtomOrder y x o.swap := by
  cases h with
  | int h => exact .int (h ▸ Std.OrientedCmp.eq_swap)
  | bool h => exact .bool (h ▸ Std.OrientedCmp.eq_swap)
  | str h => exact .str (h ▸ Std.OrientedCmp.eq_swap)
  | bytes h => exact .bytes (h ▸ Std.OrientedCmp.eq_swap)

/-- The order of atoms is transitive. -/
theorem trans (h₁ : AtomOrder x y .lt) (h₂ : AtomOrder y z .lt) : AtomOrder x z .lt := by
  cases h₁ with
  | int h₁ =>
    cases h₂ with
    | int h₂ => exact .int (Std.TransCmp.lt_trans h₁ h₂)
  | bool h₁ =>
    cases h₂ with
    | bool h₂ => exact .bool (Std.TransCmp.lt_trans h₁ h₂)
  | str h₁ =>
    cases h₂ with
    | str h₂ => exact .str (Std.TransCmp.lt_trans h₁ h₂)
  | bytes h₁ =>
    cases h₂ with
    | bytes h₂ => exact .bytes (Std.TransCmp.lt_trans h₁ h₂)

/-- They are equal exactly if they are level. -/
theorem atomEqual (h : AtomOrder x y o) : x.atomEqual y = (o == .eq) := by
  rw [Bool.eq_iff_iff, beq_iff_eq]
  cases h with
  | int h =>
    rw [← h, Std.LawfulEqCmp.compare_eq_iff_eq, Int64.toInt_inj, Value.atomEqual, beq_iff_eq]
  | @bool a b _ h =>
    rw [← h]
    cases a <;> cases b <;> decide
  | str h => rw [← h, Std.LawfulEqCmp.compare_eq_iff_eq, Value.atomEqual, beq_iff_eq]
  | bytes h => rw [← h, Std.LawfulEqCmp.compare_eq_iff_eq, Value.atomEqual, beq_iff_eq]

end Value.AtomOrder

/-! ## One level of a comparison -/

namespace Heap

/-- Two values are in an order at one level, by what is known of the values that they hold. -/
inductive OrderedBy (h : Heap) (E : Value → Value → Prop) (O : Value → Value → Ordering → Prop) :
    Value → Value → Ordering → Prop where
  | atom {x y : Value} {o : Ordering} (ha : x.AtomOrder y o) : OrderedBy h E O x y o
  | list {a b : ListRef} {o : Ordering}
      (helems : Lexical E O (h.list a).elems.toList (h.list b).elems.toList o) :
      OrderedBy h E O (.list a) (.list b) o
  | tuple {a b : List Value} {o : Ordering} (helems : Lexical E O a b o) :
      OrderedBy h E O (.tuple a) (.tuple b) o

variable {h : Heap} {op op' : BinOp} {n : Nat} {x y z : Value} {o : Ordering}

/-- Values have an order as atoms, or as sequences of elements one level down. -/
theorem orderAt_succ_eq_some_iff (hx : h.Plain x) (hy : h.Plain y) :
    h.orderAt op (n + 1) x y = .ok (some o) ↔
      h.OrderedBy (fun x y => h.equalAt n x y = .ok true)
        (Differ (h.equalAt n) (h.orderAt op n)) x y o := by
  constructor
  · intro ho
    unfold orderAt at ho
    split at ho
    · exact .atom (.int (Option.some.inj (Except.ok.inj ho)))
    -- a plain value holds no float, cell or marker
    · cases hx _ .self
    · cases hy _ .self
    · cases hx _ .self
    · exact .atom (.bool (Option.some.inj (Except.ok.inj ho)))
    · exact .atom (.str (Option.some.inj (Except.ok.inj ho)))
    · rw [bytesOrder_eq_compare] at ho
      exact .atom (.bytes (Option.some.inj (Except.ok.inj ho)))
    · exact .list (seqOrder_eq_some_iff.1 ho)
    · exact .tuple (seqOrder_eq_some_iff.1 ho)
    · cases ho
  · intro ho
    cases ho with
    | atom ha =>
      cases ha with
      | int ha => exact ha ▸ rfl
      | bool ha => exact ha ▸ rfl
      | str ha => exact ha ▸ rfl
      | bytes ha =>
        rw [orderAt, bytesOrder_eq_compare]
        exact ha ▸ rfl
    | list helems => exact seqOrder_eq_some_iff.2 helems
    | tuple helems => exact seqOrder_eq_some_iff.2 helems

/-- Values without floats that can be put in order are in one. -/
theorem orderAt_ne_none (hx : h.Plain x) (hy : h.Plain y) : h.orderAt op n x y ≠ .ok none := by
  -- no answer at all is given for floats only
  induction n generalizing x y with
  | zero => nofun
  | succ n ih =>
    unfold orderAt
    split
    · nofun
    · cases hx _ .self
    · cases hy _ .self
    · cases hx _ .self
    · nofun
    · nofun
    · nofun
    · apply seqOrder_ne_none
      intro v hv w hw
      exact ih (hx.elem v hv) (hy.elem w hw)
    · apply seqOrder_ne_none
      intro v hv w hw
      exact ih (hx.item v hv) (hy.item w hw)
    · nofun

/-! ## Order and equality -/

/-- Where two values are in some order, it is known whether they are equal. -/
theorem equalAt_of_orderAt (hx : h.Plain x) (hy : h.Plain y)
    (ho : h.orderAt op n x y = .ok (some o)) : h.equalAt n x y = .ok (o == .eq) := by
  induction n generalizing x y o with
  | zero => cases ho
  | succ n ih =>
    -- elements that differ are in an order, and not level
    have hdiffer : ∀ v w o, h.Plain v → h.Plain w → Differ (h.equalAt n) (h.orderAt op n) v w o →
        h.equalAt n v w = .ok false ∧ o ≠ .eq := by
      rintro v w o hv hw ⟨hne, ho⟩
      refine ⟨hne, ?_⟩
      rintro rfl
      rw [ih hv hw ho] at hne
      cases hne
    rw [orderAt_succ_eq_some_iff hx hy] at ho
    cases ho with
    | atom ha =>
      rw [← ha.atomEqual]
      cases ha <;> rfl
    | @list a b _ helems =>
      rw [equalAt_list]
      split
      · rename_i hab
        subst hab
        rw [helems.eq_of_self hx.elem fun v o hv hd => equalAt_self_ne_false hv hd.1]
        rfl
      · exact helems.sameLengthEqual hx.elem hy.elem (fun _ _ he => he) hdiffer
    | tuple helems =>
      exact equalAt_tuple.trans (helems.sameLengthEqual hx.item hy.item (fun _ _ he => he) hdiffer)

/-- Elements that are found to differ are those that are in an order and not level. -/
theorem differ_iff (hx : h.Plain x) (hy : h.Plain y) :
    Differ (h.equalAt n) (h.orderAt op n) x y o ↔ h.orderAt op n x y = .ok (some o) ∧ o ≠ .eq := by
  constructor
  · rintro ⟨hne, ho⟩
    refine ⟨ho, ?_⟩
    rintro rfl
    rw [equalAt_of_orderAt hx hy ho] at hne
    cases hne
  · rintro ⟨ho, hne⟩
    refine ⟨?_, ho⟩
    rw [equalAt_of_orderAt hx hy ho, beq_eq_false_iff_ne.2 hne]

/-- Turned around, the comparison gives the order turned around. The operator is named by errors
only. -/
theorem orderAt_swap (hd : h.DistinctKeys) (hx : h.Plain x) (hy : h.Plain y)
    (ho : h.orderAt op n x y = .ok (some o)) : h.orderAt op' n y x = .ok (some o.swap) := by
  -- by the depth: the elements of a sequence are compared one level deeper
  induction n generalizing x y o with
  | zero => cases ho
  | succ n ih =>
    have hequal : ∀ v w, h.Plain v → h.Plain w → h.equalAt n v w = .ok true →
        h.equalAt n w v = .ok true :=
      fun v w hv hw => equalAt_symm hd hv hw
    have hdiffer : ∀ v w o, h.Plain v → h.Plain w → Differ (h.equalAt n) (h.orderAt op n) v w o →
        Differ (h.equalAt n) (h.orderAt op' n) w v o.swap := by
      intro v w o hv hw hvw
      rw [differ_iff hv hw] at hvw
      rw [differ_iff hw hv]
      refine ⟨ih hv hw hvw.1, ?_⟩
      rw [Ne, Ordering.swap_eq_eq]
      exact hvw.2
    rw [orderAt_succ_eq_some_iff hx hy] at ho
    rw [orderAt_succ_eq_some_iff hy hx]
    cases ho with
    | atom ha => exact .atom ha.swap
    | list helems => exact .list (helems.swap hx.elem hy.elem hequal hdiffer)
    | tuple helems => exact .tuple (helems.swap hx.item hy.item hequal hdiffer)

/-- Equal values are in the same order to every third one. -/
theorem orderAt_congr_right (hd : h.DistinctKeys) (hx : h.Plain x) (hy : h.Plain y) (hz : h.Plain z)
    (ho : h.orderAt op n x y = .ok (some o)) (he : h.equalAt n y z = .ok true) :
    h.orderAt op n x z = .ok (some o) := by
  induction n generalizing x y z o with
  | zero => cases ho
  | succ n ih =>
    have hequal : ∀ u v w, h.Plain u → h.Plain v → h.Plain w → h.equalAt n u v = .ok true →
        h.equalAt n v w = .ok true → h.equalAt n u w = .ok true :=
      fun u v w hu hv hw => equalAt_trans hd hu hv hw
    have hdiffer : ∀ u v w o, h.Plain u → h.Plain v → h.Plain w →
        Differ (h.equalAt n) (h.orderAt op n) u v o → h.equalAt n v w = .ok true →
        Differ (h.equalAt n) (h.orderAt op n) u w o := by
      intro u v w o hu hv hw huv he
      rw [differ_iff hu hv] at huv
      rw [differ_iff hu hw]
      exact ⟨ih hu hv hw huv.1 he, huv.2⟩
    rw [orderAt_succ_eq_some_iff hx hy] at ho
    rw [orderAt_succ_eq_some_iff hx hz]
    -- what is equal to a sequence in an order is a sequence of the same kind; dicts are in no order
    rw [equalAt_succ_eq_true_iff] at he
    cases he with
    | atom he =>
      cases Value.eq_of_atomEqual (Plain.floatFree y hy) (Plain.floatFree z hz) he
      exact ho
    | sameList r => exact ho
    | sameDict r => exact ho
    | list helems =>
      cases ho with
      | atom ha => cases ha
      | list hlex => exact .list (hlex.congr_right helems hx.elem hy.elem hz.elem hequal hdiffer)
    | tuple helems =>
      cases ho with
      | atom ha => cases ha
      | tuple hlex => exact .tuple (hlex.congr_right helems hx.item hy.item hz.item hequal hdiffer)
    | dict hentries =>
      cases ho with
      | atom ha => cases ha

/-- A value may be replaced by an equal one on the left. -/
theorem orderAt_congr_left (hd : h.DistinctKeys) (hx : h.Plain x) (hy : h.Plain y) (hz : h.Plain z)
    (he : h.equalAt n x y = .ok true) (ho : h.orderAt op n y z = .ok (some o)) :
    h.orderAt op n x z = .ok (some o) := by
  -- turned around, the equal values are on the right
  have hswap : h.orderAt op n z y = .ok (some o.swap) := orderAt_swap hd hy hz ho
  have hthird := orderAt_congr_right hd hz hy hx hswap (equalAt_symm hd hx hy he)
  have hback : h.orderAt op n x z = .ok (some o.swap.swap) := orderAt_swap hd hz hx hthird
  rwa [Ordering.swap_swap] at hback

/-- The order to a depth is transitive. -/
theorem orderAt_trans (hd : h.DistinctKeys) (hx : h.Plain x) (hy : h.Plain y) (hz : h.Plain z)
    (hxy : h.orderAt op n x y = .ok (some .lt)) (hyz : h.orderAt op n y z = .ok (some .lt)) :
    h.orderAt op n x z = .ok (some .lt) := by
  -- where the second pair of sequences differs before the first, behind it or at the same place is
  -- taken care of by the laws for elements that follow
  induction n generalizing x y z with
  | zero => cases hxy
  | succ n ih =>
    have hequal : ∀ u v w, h.Plain u → h.Plain v → h.Plain w → h.equalAt n u v = .ok true →
        h.equalAt n v w = .ok true → h.equalAt n u w = .ok true :=
      fun u v w hu hv hw => equalAt_trans hd hu hv hw
    have hright : ∀ u v w o, h.Plain u → h.Plain v → h.Plain w →
        Differ (h.equalAt n) (h.orderAt op n) u v o → h.equalAt n v w = .ok true →
        Differ (h.equalAt n) (h.orderAt op n) u w o := by
      intro u v w o hu hv hw huv he
      rw [differ_iff hu hv] at huv
      rw [differ_iff hu hw]
      exact ⟨orderAt_congr_right hd hu hv hw huv.1 he, huv.2⟩
    have hleft : ∀ u v w o, h.Plain u → h.Plain v → h.Plain w → h.equalAt n u v = .ok true →
        Differ (h.equalAt n) (h.orderAt op n) v w o →
        Differ (h.equalAt n) (h.orderAt op n) u w o := by
      intro u v w o hu hv hw he hvw
      rw [differ_iff hv hw] at hvw
      rw [differ_iff hu hw]
      exact ⟨orderAt_congr_left hd hu hv hw he hvw.1, hvw.2⟩
    have hless : ∀ u v w, h.Plain u → h.Plain v → h.Plain w →
        Differ (h.equalAt n) (h.orderAt op n) u v .lt →
        Differ (h.equalAt n) (h.orderAt op n) v w .lt →
        Differ (h.equalAt n) (h.orderAt op n) u w .lt := by
      intro u v w hu hv hw huv hvw
      rw [differ_iff hu hw]
      exact ⟨ih hu hv hw huv.2 hvw.2, nofun⟩
    rw [orderAt_succ_eq_some_iff hx hy] at hxy
    rw [orderAt_succ_eq_some_iff hy hz] at hyz
    rw [orderAt_succ_eq_some_iff hx hz]
    cases hxy with
    | atom ha =>
      cases hyz with
      | atom hb => exact .atom (ha.trans hb)
      | list _ => cases ha
      | tuple _ => cases ha
    | list hab =>
      cases hyz with
      | atom hb => cases hb
      | list hbc => exact .list (hab.trans hbc hx.elem hy.elem hz.elem hequal hright hleft hless)
    | tuple hab =>
      cases hyz with
      | atom hb => cases hb
      | tuple hbc => exact .tuple (hab.trans hbc hx.item hy.item hz.item hequal hright hleft hless)

/-! ## The comparison operators -/

/-- A comparison that gives an answer has found an order. -/
theorem exists_orderAt (hx : h.Plain x) (hy : h.Plain y) {less : Bool}
    (hless : h.compare .lt x y = .ok less) :
    ∃ o, h.orderAt .lt maxCompareDepth x y = .ok (some o) ∧ less = (o == .lt) := by
  unfold Heap.compare at hless
  dsimp only at hless
  cases ho : h.orderAt .lt maxCompareDepth x y with
  | error e =>
    rw [ho] at hless
    cases hless
  | ok found =>
    rw [ho] at hless
    cases found with
    | none => exact absurd ho (orderAt_ne_none hx hy)
    | some o =>
      refine ⟨o, rfl, ?_⟩
      cases hless
      cases o <;> rfl

/-- Among values with neither floats nor values of the machine in them, on any heap of whose dicts
none has two equal keys, wherever `x < y` gives an answer exactly one of `x < y`, `x == y` and `x >
y` holds, `y > x` gives the same answer, and `x <= y` holds exactly if one of `x < y` and `x == y`
does; and "less" is transitive. -/
theorem compare_strict (hd : h.DistinctKeys) (hx : h.Plain x) (hy : h.Plain y) (hz : h.Plain z) :
    (∀ less, h.compare .lt x y = .ok less → ∃ equal greater,
      h.compare .eq x y = .ok equal ∧ h.compare .gt x y = .ok greater ∧
      [less, equal, greater].count true = 1 ∧ h.compare .gt y x = .ok less ∧
      h.compare .le x y = .ok (less || equal)) ∧
    (h.compare .lt x y = .ok true → h.compare .lt y z = .ok true →
      h.compare .lt x z = .ok true) := by
  constructor
  · intro less hless
    obtain ⟨o, ho, rfl⟩ := exists_orderAt hx hy hless
    have hswap : h.orderAt .gt maxCompareDepth y x = .ok (some o.swap) := orderAt_swap hd hx hy ho
    -- the operator only names the failure, so where one succeeds all do, with the same order
    have hop : ∀ op, h.orderAt op maxCompareDepth x y = .ok (some o) := by
      intro op
      have htwice : h.orderAt op maxCompareDepth x y = .ok (some o.swap.swap) :=
        orderAt_swap hd hy hx hswap
      rwa [Ordering.swap_swap] at htwice
    refine ⟨o == .eq, o == .gt, equalAt_of_orderAt hx hy ho, ?_, ?_, ?_, ?_⟩
    · rw [Heap.compare, hop]
      cases o <;> rfl
    · cases o <;> rfl
    · rw [Heap.compare, hswap]
      cases o <;> rfl
    · rw [Heap.compare, hop]
      cases o <;> rfl
  · intro hxy hyz
    obtain ⟨o, ho, hlt⟩ := exists_orderAt hx hy hxy
    obtain ⟨o', ho', hlt'⟩ := exists_orderAt hy hz hyz
    rw [eq_comm, beq_iff_eq] at hlt hlt'
    subst hlt hlt'
    rw [Heap.compare, orderAt_trans hd hx hy hz ho ho']
    rfl

/-- Two lists of one number each. -/
def numbered : Heap := { lists := #[{ elems := #[.int 2] }, { elems := #[.int 3] }] }

/-- Of three tuples the first is less than the second, by their lists and although what stands
behind these is in no order, and the second is less than the third. -/
theorem compare_strict_numbered :
    let x := Value.tuple [.int 1, .list ⟨0⟩, .null]
    let y := Value.tuple [.int 1, .list ⟨1⟩, .str "a"]
    let z := Value.tuple [.int 4, .bool true]
    numbered.compare .lt x y = .ok true ∧ numbered.compare .lt y z = .ok true ∧
      numbered.compare .lt x z = .ok true ∧ numbered.compare .gt y x = .ok true := by
  intro x y z
  have hd : numbered.DistinctKeys := fun r => List.Pairwise.nil
  -- the lists of the heap hold numbers, and there are no dictionaries
  have hplain : ∀ {v : Value}, v.FloatFree → v.Visible → numbered.Plain v := by
    apply plain_of_tables
    · simp [numbered, Value.FloatFree]
    · intro d hd
      cases Array.not_mem_empty d hd
  have hx : numbered.Plain x :=
    hplain ⟨trivial, trivial, trivial, trivial⟩ ⟨trivial, trivial, trivial, trivial⟩
  have hy : numbered.Plain y :=
    hplain ⟨trivial, trivial, trivial, trivial⟩ ⟨trivial, trivial, trivial, trivial⟩
  have hz : numbered.Plain z := hplain ⟨trivial, trivial, trivial⟩ ⟨trivial, trivial, trivial⟩
  have hxy : numbered.compare .lt x y = .ok true := by decide
  have hyz : numbered.compare .lt y z = .ok true := by decide
  have hlaws := compare_strict hd hx hy hz
  obtain ⟨equal, greater, -, -, -, hgt, -⟩ := hlaws.1 true hxy
  exact ⟨hxy, hyz, hlaws.2 hxy hyz, hgt⟩

end Heap

end Starlark
