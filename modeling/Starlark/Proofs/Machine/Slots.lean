import Mathlib.Data.List.Nodup
import Starlark.Machine.Bind

/-!
# The steps of argument binding

What each step leaves in the slots: positional arguments one after another (`BindM.setSlots_eq`),
keywords where there is a place for each (`Bound.Fits`, `BindM.keywords_eq`), and defaults for what
is left (`BindM.defaults_eq`). What every change of a slot keeps, all of binding keeps
(`BindM.keeps_bindArguments`).
-/

set_option autoImplicit false

namespace Starlark

/-! ## Slots -/

namespace Bound

variable {b : Bound} {i j : Nat} {v : Value}

/-- What a slot holds. -/
def held (b : Bound) (i : Nat) : Option Value := b.slots.getD i none

/-- The slots with a value put into one of them. -/
def set (b : Bound) (i : Nat) (v : Value) : Bound :=
  { b with slots := b.slots.setIfInBounds i (some v) }

@[simp]
theorem size_set : (b.set i v).slots.size = b.slots.size := Array.size_setIfInBounds

@[simp]
theorem extra_set : (b.set i v).extra = b.extra := rfl

/-- Setting a slot changes that slot. -/
theorem held_set (hi : i < b.slots.size) : (b.set i v).held j = if j =
    i then some v else b.held j := by
  simp only [held, set, Array.getD_eq_getD_getElem?, Array.getElem?_setIfInBounds]
  by_cases hj : i = j
  · subst hj
    simp [hi]
  · simp [hj, Ne.symm hj]

/-- Nothing is bound at first. -/
@[simp]
theorem held_empty (size i : Nat) : (empty size).held i = none := by
  simp only [held, empty, Array.getD_eq_getD_getElem?, Array.getElem?_replicate]
  split <;> rfl

/-- A slot that there is holds something or nothing. -/
theorem slots_eq_some_held (hi : i < b.slots.size) : b.slots[i]? = some (b.held i) := by
  simp [held, hi]

/-- The names of the slots from `i` on that hold nothing. -/
def lacking (b : Bound) (i : Nat) (names : List String) : List String :=
  ((names.zipIdx i).filter fun x => (b.held x.2).isNone).map Prod.fst

/-- A parameter is lacking if its slot is empty. -/
theorem lacking_cons (b : Bound) (i : Nat) (name : String) (rest : List String) :
    b.lacking i (name :: rest) =
      if (b.held i).isSome then b.lacking (i + 1) rest else name :: b.lacking (i + 1) rest := by
  rw [lacking, List.zipIdx_cons, List.filter_cons]
  cases b.held i <;> rfl

end Bound

/-! ## The steps of binding -/

namespace BindM

variable {b : Bound}

/-- Binding stops with a fault. -/
def Fails {α : Type} (m : BindM α) (b : Bound) : Prop := ∃ f b', m b = .error (.fault f) b'

/-- After a success the rest goes on with what was bound. -/
theorem bind_eq {α β : Type} {m : BindM α} {f : α → BindM β} {a : α} {b' : Bound}
    (hm : m b = .ok a b') : (m >>= f) b = f a b' := by
  simp only [Bind.bind, EStateM.bind, hm]

/-- After a failure nothing more is bound. -/
theorem Fails.bind {α β : Type} {m : BindM α} (hm : Fails m b) (f : α → BindM β) :
    Fails (m >>= f) b := by
  obtain ⟨fault, b', hb⟩ := hm
  refine ⟨fault, b', ?_⟩
  simp only [Bind.bind, EStateM.bind, hb]

/-- A check that passes. -/
theorem require_bind {α : Type} {p : Prop} [Decidable p] (hp : p) (a : Abort) (k : Unit → BindM α) :
    require p a >>= k = k () := by
  rw [require, if_pos hp]
  rfl

/-- Values go into the slots from `i` on, one after another. -/
theorem setSlots_eq {i : Nat} {vs : List Value} (hroom : i + vs.length ≤ b.slots.size) :
    ∃ b', setSlots i vs b = .ok () b' ∧ b'.slots.size = b.slots.size ∧ b'.extra = b.extra ∧
      ∀ j, b'.held j = if i ≤ j then (vs[j - i]?).or (b.held j) else b.held j := by
  -- on the values, each of which goes into the next slot
  induction vs generalizing i b with
  | nil => exact ⟨b, rfl, rfl, rfl, by simp⟩
  | cons v vs ih =>
    rw [List.length_cons] at hroom
    have hstep : setSlots i (v :: vs) b = setSlots (i + 1) vs (b.set i v) := rfl
    obtain ⟨b', hrun, hsize, hextra, hheld⟩ := ih (i := i + 1) (b := b.set i v) (by simp; omega)
    refine ⟨b', hstep.trans hrun, by simpa using hsize, hextra, ?_⟩
    intro j
    rw [hheld, Bound.held_set (by omega)]
    rcases Nat.lt_trichotomy j i with hlt | rfl | hgt
    · rw [if_neg (by omega), if_neg (by omega), if_neg (by omega)]
    · rw [if_neg (by omega), if_pos rfl, if_pos (Nat.le_refl j), Nat.sub_self]
      rfl
    · obtain ⟨d, rfl⟩ := Nat.exists_eq_add_of_lt hgt
      have hsub : i + d + 1 - i = d + 1 := by omega
      have hsub' : i + d + 1 - (i + 1) = d := by omega
      have hne : i + d + 1 ≠ i := by omega
      rw [if_pos (by omega), if_neg hne, if_pos (by omega), hsub, hsub', List.getElem?_cons_succ]

end BindM

/-! ## Keywords -/

/-- A new name comes last. -/
theorem Env.insert_of_new {env : Env} {k : String} (v : Value) (hnew : ∀ e ∈ env, e.1 ≠ k) :
    env.insert k v = env ++ [(k, v)] := by
  induction env with
  | nil => rfl
  | cons e env ih =>
    rw [List.forall_mem_cons] at hnew
    simp [insert, hnew.1, ih hnew.2]

/-- The place of a name is known from the name. -/
theorem idxOf?_eq_some_iff_getElem? {params : List String} (hnames : params.Nodup) {k : String}
    {i : Nat} : params.idxOf? k = some i ↔ params[i]? = some k := by
  rw [List.idxOf?_eq_some_iff, List.getElem?_eq_some_iff]
  constructor
  · rintro ⟨hi, hk, -⟩
    exact ⟨hi, hk⟩
  · rintro ⟨hi, hk⟩
    refine ⟨hi, hk, ?_⟩
    intro j hj hk'
    have hsame := (hnames.getElem_inj_iff).1 (hk'.trans hk.symm)
    omega

namespace Bound

variable {b : Bound} {params : List String} {k : String} {v : Value}

/-- There is a place for a keyword: its parameter is not bound, or `**kwargs` has no such entry. -/
def Open (b : Bound) (params : List String) (k : String) : Prop :=
  match params.idxOf? k with
  | some i => b.held i = none
  | none => ∃ x, b.extra = some x ∧ ∀ e ∈ x.2, e.1 ≠ k

/-- Put a keyword into its place. -/
def put (params : List String) (b : Bound) (kv : String × Value) : Bound :=
  match params.idxOf? kv.1 with
  | some i => b.set i kv.2
  | none => { b with extra := b.extra.map fun x => (x.1, x.2 ++ [kv]) }

/-- A parameter is open as long as its slot is empty. -/
theorem open_named {i : Nat} (hidx : params.idxOf? k = some i) :
    b.Open params k ↔ b.held i = none := by
  rw [Open, hidx]

/-- A name that is no parameter is open if there is `**kwargs` and it was not given before. -/
theorem open_unnamed (hidx : params.idxOf? k = none) :
    b.Open params k ↔ ∃ x, b.extra = some x ∧ ∀ e ∈ x.2, e.1 ≠ k := by
  rw [Open, hidx]

/-- A named argument of a parameter goes to its slot. -/
theorem put_named {i : Nat} (hidx : params.idxOf? k = some i) :
    put params b (k, v) = b.set i v := by
  simp only [put, hidx]

/-- Any other named argument goes to the extra ones. -/
theorem put_unnamed (hidx : params.idxOf? k = none) :
    put params b (k, v) = { b with extra := b.extra.map fun x => (x.1, x.2 ++ [(k, v)]) } := by
  simp only [put, hidx]

@[simp]
theorem size_put {kv : String × Value} : (put params b kv).slots.size = b.slots.size := by
  cases hidx : params.idxOf? kv.1 with
  | some i => rw [put_named hidx, size_set]
  | none => rw [put_unnamed hidx]

/-- Parameters have slots. -/
theorem index_lt {i : Nat} (hroom : params.length ≤ b.slots.size)
    (hidx : params.idxOf? k = some i) :
    i < b.slots.size := by
  obtain ⟨hi, -⟩ := List.idxOf?_eq_some_iff.1 hidx
  exact Nat.lt_of_lt_of_le hi hroom

/-- A keyword takes its place. -/
theorem not_open_put (hroom : params.length ≤ b.slots.size) (hopen : b.Open params k) :
    ¬(put params b (k, v)).Open params k := by
  cases hidx : params.idxOf? k with
  | some i =>
    rw [open_named hidx, put_named hidx, held_set (index_lt hroom hidx), if_pos rfl]
    intro hnone
    cases hnone
  | none =>
    rw [open_unnamed hidx] at hopen
    obtain ⟨x, hextra, -⟩ := hopen
    rw [open_unnamed hidx, put_unnamed hidx]
    rintro ⟨x', heq, hnew⟩
    simp only [hextra, Option.map_some, Option.some.injEq] at heq
    subst heq
    exact hnew (k, v) (by simp) rfl

/-- A keyword takes the place of no other. -/
theorem open_put_iff {k' : String} (hroom : params.length ≤ b.slots.size) (hne : k' ≠ k) :
    (put params b (k, v)).Open params k' ↔ b.Open params k' := by
  -- two keywords go to different slots, and to different entries of the dictionary
  cases hidx' : params.idxOf? k' with
  | some i' =>
    rw [open_named hidx', open_named hidx']
    cases hidx : params.idxOf? k with
    | some i =>
      have hplaces : i' ≠ i := by
        rintro rfl
        obtain ⟨hi, hk, -⟩ := List.idxOf?_eq_some_iff.1 hidx
        obtain ⟨hi', hk', -⟩ := List.idxOf?_eq_some_iff.1 hidx'
        exact hne (hk'.symm.trans hk)
      rw [put_named hidx, held_set (index_lt hroom hidx), if_neg hplaces]
    | none =>
      rw [put_unnamed hidx]
      rfl
  | none =>
    rw [open_unnamed hidx', open_unnamed hidx']
    cases hidx : params.idxOf? k with
    | some i => rw [put_named hidx, extra_set]
    | none =>
      have hlast : k ≠ k' := hne.symm
      rw [put_unnamed hidx]
      cases hextra : b.extra <;> simp [hlast, or_imp, forall_and]

/-- There are places for keywords. -/
def Fits (b : Bound) (params : List String) (kwargs : Keywords) : Prop :=
  (kwargs.map Prod.fst).Nodup ∧ ∀ k ∈ kwargs.map Prod.fst, b.Open params k

/-- Named arguments fit one after another: the first must be open, and the others once it is put. -/
theorem fits_cons_iff {kv : String × Value} {rest : Keywords}
    (hroom : params.length ≤ b.slots.size) :
    b.Fits params (kv :: rest) ↔ b.Open params kv.1 ∧ (put params b kv).Fits params rest := by
  obtain ⟨k, v⟩ := kv
  rw [Fits, Fits, List.map_cons, List.nodup_cons, List.forall_mem_cons]
  constructor
  · rintro ⟨⟨hnew, hnodup⟩, hopen, hrest⟩
    refine ⟨hopen, hnodup, ?_⟩
    intro k' hk'
    have hne : k' ≠ k := fun heq => hnew (heq ▸ hk')
    exact (open_put_iff hroom hne).2 (hrest k' hk')
  · rintro ⟨hopen, hnodup, hrest⟩
    -- a later keyword of the same name would find the place taken
    have hne : ∀ k' ∈ rest.map Prod.fst, k' ≠ k := by
      rintro k' hk' rfl
      exact not_open_put hroom hopen (hrest k' hk')
    refine ⟨⟨fun hk => hne k hk rfl, hnodup⟩, hopen, ?_⟩
    intro k' hk'
    exact (open_put_iff hroom (hne k' hk')).1 (hrest k' hk')

/-! ### What the keywords leave -/

/-- Putting a named argument fills the slot of its parameter, if it has one. -/
theorem held_put (hnames : params.Nodup) (hroom : params.length ≤ b.slots.size) (j : Nat) :
    (put params b (k, v)).held j = if params[j]? = some k then some v else b.held j := by
  cases hidx : params.idxOf? k with
  | some i =>
    have hplace : params[j]? = some k ↔ j = i := by
      rw [← idxOf?_eq_some_iff_getElem? hnames, hidx, Option.some.injEq, eq_comm]
    simp only [put_named hidx, held_set (index_lt hroom hidx), hplace]
  | none =>
    have hplace : params[j]? ≠ some k := by
      intro hj
      exact List.idxOf?_eq_none_iff.1 hidx (List.mem_of_getElem? hj)
    rw [put_unnamed hidx, if_neg hplace]
    rfl

/-- Putting a named argument adds to the extra ones, unless it is a parameter. -/
theorem extra_put : (put params b (k, v)).extra =
    b.extra.map fun x => (x.1, x.2 ++ if k ∈ params then [] else [(k, v)]) := by
  cases hidx : params.idxOf? k with
  | some i =>
    obtain ⟨hi, hk, -⟩ := List.idxOf?_eq_some_iff.1 hidx
    have hmem : k ∈ params := hk ▸ List.getElem_mem hi
    simp [put_named hidx, hmem]
  | none => simp [put_unnamed hidx, List.idxOf?_eq_none_iff.1 hidx]

variable {kwargs : Keywords}

theorem size_putAll : (kwargs.foldl (put params) b).slots.size = b.slots.size := by
  induction kwargs generalizing b with
  | nil => rfl
  | cons kv rest ih => rw [List.foldl_cons, ih, size_put]

/-- A parameter holds the value of its keyword, and what it held if it has none. -/
theorem held_putAll (hnames : params.Nodup) (hroom : params.length ≤ b.slots.size)
    (hkeys : (kwargs.map Prod.fst).Nodup) (j : Nat) :
    (kwargs.foldl (put params) b).held j =
      (params[j]?.bind fun k => kwargs.lookup k).or (b.held j) := by
  induction kwargs generalizing b with
  | nil => simp
  | cons kv rest ih =>
    obtain ⟨k, v⟩ := kv
    rw [List.map_cons, List.nodup_cons] at hkeys
    rw [List.foldl_cons, ih (by simpa using hroom) hkeys.2, held_put hnames hroom]
    cases hj : params[j]? with
    | none => simp
    | some k' =>
      -- the slot has the name of the first keyword, and then of no other, or that of a later one
      by_cases hk : k' = k
      · subst hk
        have hnone : rest.lookup k' = none := by
          rw [List.lookup_eq_none_iff]
          intro e he
          have hne : k' ≠ e.1 := fun heq => hkeys.1 (List.mem_map.2 ⟨e, he, heq.symm⟩)
          simpa using hne
        simp [hnone]
      · have hlookup : List.lookup k' ((k, v) :: rest) = rest.lookup k' := by
          rw [List.lookup_cons, beq_false_of_ne hk]
        simp [hlookup, hk]

/-- The keywords that name no parameter are added in order. -/
theorem extra_putAll : (kwargs.foldl (put params) b).extra =
    b.extra.map fun x => (x.1, x.2 ++ kwargs.filter fun e => e.1 ∉ params) := by
  induction kwargs generalizing b with
  | nil => cases hextra : b.extra <;> simp [hextra]
  | cons kv rest ih =>
    obtain ⟨k, v⟩ := kv
    rw [List.foldl_cons, ih, extra_put, Option.map_map]
    by_cases hk : k ∈ params <;> simp [hk, Function.comp_def]

end Bound

namespace BindM

variable {b : Bound} {f : String} {params : List String}

/-- The step for a named argument that is a parameter. -/
theorem keywords_cons_named {k : String} {v : Value} {rest : Keywords} {i : Nat}
    (hidx : params.idxOf? k = some i) :
    keywords f params ((k, v) :: rest) b =
      if (b.held i).isSome then .error (.fault (.repeatedArgument f k)) b
      else keywords f params rest (b.set i v) := by
  have hbound : isBound i b = .ok (b.held i).isSome b := rfl
  rw [keywords]
  simp only [hidx]
  rw [bind_eq hbound]
  cases (b.held i).isSome <;> rfl

/-- The step for a named argument that is no parameter. -/
theorem keywords_cons_unnamed {k : String} {v : Value} {rest : Keywords}
    (hidx : params.idxOf? k = none) :
    keywords f params ((k, v) :: rest) b =
      match b.extra with
      | none => .error (.fault (.unexpectedArgument f k)) b
      | some (i, entries) =>
        if entries.any fun e => e.1 == k then
          .error (.fault (.repeatedArgument f k)) { b with extra := some (i, entries.insert k v) }
        else keywords f params rest { b with extra := some (i, entries.insert k v) } := by
  have hget : (get : BindM Bound) b = .ok b b := rfl
  rw [keywords]
  simp only [hidx]
  rw [bind_eq hget]
  cases hextra : b.extra with
  | none => rfl
  | some x => cases hany : x.2.any fun e => e.1 == k <;> simp only [hany] <;> rfl

/-- A named argument that is open is put. -/
theorem keywords_cons_of_open {kv : String × Value} {rest : Keywords} (hopen : b.Open params kv.1) :
    keywords f params (kv :: rest) b = keywords f params rest (Bound.put params b kv) := by
  obtain ⟨k, v⟩ := kv
  cases hidx : params.idxOf? k with
  | some i =>
    rw [Bound.open_named hidx] at hopen
    rw [keywords_cons_named hidx, hopen, Bound.put_named hidx]
    rfl
  | none =>
    rw [Bound.open_unnamed hidx] at hopen
    obtain ⟨⟨i, entries⟩, hextra, hnew⟩ := hopen
    have hany : (entries.any fun e => e.1 == k) = false := by simpa using hnew
    rw [Bound.put_unnamed hidx]
    simp only [keywords_cons_unnamed hidx, hextra, hany, Bool.false_eq_true, if_false,
      Env.insert_of_new v hnew, Option.map_some]

/-- A named argument that is not open is refused. -/
theorem fails_keywords_cons {kv : String × Value} {rest : Keywords} (hopen : ¬b.Open params kv.1) :
    Fails (keywords f params (kv :: rest)) b := by
  obtain ⟨k, v⟩ := kv
  cases hidx : params.idxOf? k with
  | some i =>
    rw [Bound.open_named hidx] at hopen
    exact ⟨_, _, (keywords_cons_named hidx).trans (if_pos (Option.isSome_iff_ne_none.2 hopen))⟩
  | none =>
    rw [Bound.open_unnamed hidx] at hopen
    cases hextra : b.extra with
    | none => exact ⟨.unexpectedArgument f k, b, by simp only [keywords_cons_unnamed hidx, hextra]⟩
    | some x =>
      have hany : (x.2.any fun e => e.1 == k) = true := by
        simp only [hextra, Option.some.injEq, exists_eq_left', not_forall] at hopen
        simpa using hopen
      refine ⟨.repeatedArgument f k, { b with extra := some (x.1, x.2.insert k v) }, ?_⟩
      simp only [keywords_cons_unnamed hidx, hextra, hany, if_true]

/-- Named arguments that fit are put, in order. -/
theorem keywords_eq {kwargs : Keywords} (hroom : params.length ≤ b.slots.size)
    (hfits : b.Fits params kwargs) :
    keywords f params kwargs b = .ok () (kwargs.foldl (Bound.put params) b) := by
  induction kwargs generalizing b with
  | nil => rfl
  | cons kv rest ih =>
    obtain ⟨hopen, hrest⟩ := (Bound.fits_cons_iff hroom).1 hfits
    rw [keywords_cons_of_open hopen, List.foldl_cons]
    exact ih (by simpa using hroom) hrest

/-- Named arguments that do not fit are refused. -/
theorem fails_keywords {kwargs : Keywords} (hroom : params.length ≤ b.slots.size)
    (hfits : ¬b.Fits params kwargs) : Fails (keywords f params kwargs) b := by
  induction kwargs generalizing b with
  | nil => exact absurd ⟨List.nodup_nil, nofun⟩ hfits
  | cons kv rest ih =>
    by_cases hopen : b.Open params kv.1
    · have hrest : ¬(Bound.put params b kv).Fits params rest := fun hrest =>
        hfits ((Bound.fits_cons_iff hroom).2 ⟨hopen, hrest⟩)
      obtain ⟨fault, b', hfail⟩ := ih (by simpa using hroom) hrest
      exact ⟨fault, b', (keywords_cons_of_open hopen).trans hfail⟩
    · exact fails_keywords_cons hopen

/-! ## Defaults -/

variable {first : Nat} {values : Array Value}

/-- The default that a slot is bound to, where the defaults start with slot `first`. -/
def usable (first : Nat) (values : Array Value) (i : Nat) : Option Value :=
  if i < first then none
  else
    match values[i - first]? with
    | some .mandatory | none => none
    | some v => some v

/-- The step for a parameter: it is bound already, or has a usable default, or is left. -/
theorem defaults_cons {p : String} {rest : List String} {i : Nat} :
    defaults first values i (p :: rest) b =
      if (b.held i).isSome then defaults first values (i + 1) rest b
      else
        match usable first values i with
        | none => (do return p :: (← defaults first values (i + 1) rest) : BindM (List String)) b
        | some v => defaults first values (i + 1) rest (b.set i v) := by
  have hbound : isBound i b = .ok (b.held i).isSome b := rfl
  rw [defaults, bind_eq hbound]
  unfold usable
  cases (b.held i).isSome with
  | true => rfl
  | false =>
    simp only [Bool.false_eq_true, if_false]
    split
    · rfl
    · cases values[i - first]? with
      | none => rfl
      | some v => cases v <;> rfl

/-- One slot gets its default if it is not bound. -/
theorem defaults_step (first : Nat) (values : Array Value) (p : String)
    (rest : List String) {i : Nat}
    (hi : i < b.slots.size) :
    ∃ b₁ : Bound, b₁.slots.size = b.slots.size ∧ b₁.extra = b.extra ∧
      (∀ j, b₁.held j = (b.held j).or (if j = i then usable first values i else none)) ∧
      defaults first values i (p :: rest) b =
        if (b₁.held i).isSome then defaults first values (i + 1) rest b₁
        else (do return p :: (← defaults first values (i + 1) rest) : BindM (List String)) b₁ := by
  rw [defaults_cons]
  -- a slot that an argument holds keeps it, and any other takes its default if that can be used
  cases hheld : b.held i with
  | some w =>
    refine ⟨b, rfl, rfl, ?_, by simp [hheld]⟩
    intro j
    by_cases hj : j = i
    · rw [hj, hheld, Option.some_or]
    · rw [if_neg hj, Option.or_none]
  | none =>
    cases hown : usable first values i with
    | none => exact ⟨b, rfl, rfl, by simp, by simp [hheld]⟩
    | some v =>
      refine ⟨b.set i v, Bound.size_set, rfl, ?_, by simp [Bound.held_set hi]⟩
      intro j
      rw [Bound.held_set hi]
      by_cases hj : j = i
      · rw [if_pos hj, if_pos hj, hj, hheld, Option.none_or]
      · rw [if_neg hj, if_neg hj, Option.or_none]

/-- The slots that are not bound get their defaults, and the names of those that have none are
given. -/
theorem defaults_eq (first : Nat) (values : Array Value) {i : Nat} {ps : List String}
    (hroom : i + ps.length ≤ b.slots.size) :
    ∃ b', defaults first values i ps b = .ok (b'.lacking i ps) b' ∧ b'.slots.size = b.slots.size ∧
      b'.extra = b.extra ∧ ∀ j, b'.held j =
        (b.held j).or (if i ≤ j ∧ j < i + ps.length then usable first values j else none) := by
  induction ps generalizing i b with
  | nil =>
    refine ⟨b, rfl, rfl, rfl, fun j => ?_⟩
    rw [if_neg (by simp), Option.or_none]
  | cons p rest ih =>
    rw [List.length_cons] at hroom ⊢
    obtain ⟨b₁, hsize₁, hextra₁, hheld₁, hrun₁⟩ :=
      defaults_step first values p rest (show i < b.slots.size by omega)
    obtain ⟨b', hrun, hsize, hextra, hheld⟩ := ih (i := i + 1) (b := b₁) (by omega)
    -- the first slot is settled at once: the others lie behind it
    have hself : b'.held i = b₁.held i := by
      rw [hheld, if_neg (by omega), Option.or_none]
    refine ⟨b', ?_, hsize.trans hsize₁, hextra.trans hextra₁, fun j => ?_⟩
    · rw [hrun₁, Bound.lacking_cons, hself]
      cases (b₁.held i).isSome with
      | true => exact hrun
      | false => exact bind_eq hrun
    · rw [hheld, hheld₁, Option.or_assoc]
      congr 1
      by_cases hj : j = i
      · subst hj
        rw [if_pos rfl, if_neg (by omega), if_pos (by omega), Option.or_none]
      · rw [if_neg hj, Option.none_or]
        congr 1
        simp only [eq_iff_iff]
        omega

end BindM

/-! ## What binding keeps -/

/-- A property of slots that each change of them keeps, if the values have the property `V`. -/
structure Bound.Invariant (V : Value → Prop) (I : Bound → Prop) : Prop where
  set : ∀ {b : Bound} {v : Value} (i : Nat), I b → V v → I (b.set i v)
  start : ∀ {b : Bound} (i : Nat), I b → I { b with extra := some (i, []) }
  insert : ∀ {b : Bound} {i : Nat} {entries : Env} {v : Value} (k : String), I b →
    b.extra = some (i, entries) → V v → I { b with extra := some (i, entries.insert k v) }

/-- Whenever a part of binding is done it has kept a property of the slots, and its result has
one. -/
def BindM.Keeps {α : Type} (I : Bound → Prop) (Q : α → Prop) (m : BindM α) : Prop :=
  ∀ b, I b → ∀ a b', m b = .ok a b' → I b' ∧ Q a

namespace BindM

section Keeping

variable {V : Value → Prop} {I : Bound → Prop} {α β : Type} {Q : α → Prop} {P : β → Prop}

theorem Keeps.pure {a : α} (hq : Q a) : Keeps I Q (pure a : BindM α) := by
  rintro b hb _ _ ⟨⟩
  exact ⟨hb, hq⟩

/-- Steps in sequence keep what each of them keeps. -/
theorem Keeps.bind {m : BindM α} {f : α → BindM β} (hm : Keeps I Q m)
    (hf : ∀ a, Q a → Keeps I P (f a)) : Keeps I P (m >>= f) := by
  intro b hb c b'' h
  simp only [Bind.bind, EStateM.bind] at h
  cases hmb : m b with
  | error e b' =>
    rw [hmb] at h
    cases h
  | ok a b' =>
    rw [hmb] at h
    obtain ⟨hb', ha⟩ := hm b hb a b' hmb
    exact hf a ha b' hb' c b'' h

theorem Keeps.throw (e : Stop) : Keeps I Q (throw e : BindM α) := by
  intro b _ a b' h
  cases h

theorem Keeps.get : Keeps I I (get : BindM Bound) := by
  rintro b hb _ _ ⟨⟩
  exact ⟨hb, hb⟩

/-- A step that changes what is bound keeps what the change keeps. -/
theorem Keeps.modify {f : Bound → Bound} (hf : ∀ b : Bound, I b → I (f b)) :
    Keeps I (fun _ => True) (modify f : BindM PUnit) := by
  rintro b hb _ _ ⟨⟩
  exact ⟨hf b hb, trivial⟩

/-- Fail in one case and go on otherwise. -/
theorem Keeps.guarded {p : Prop} [Decidable p] {f : Fault} {k : PUnit → BindM α}
    (hk : Keeps I Q (k ())) : Keeps I Q (if p then BindM.fault f >>= k else k ()) := by
  split
  · exact Keeps.bind (Q := fun _ => True) (.throw _) fun _ _ => hk
  · exact hk

theorem keeps_require (p : Prop) [Decidable p] (a : Abort) :
    Keeps I (fun _ => True) (require p a) := by
  unfold require
  split
  · exact .pure trivial
  · exact .throw _

theorem keeps_isBound (i : Nat) : Keeps I (fun _ => True) (isBound i) := by
  rintro b hb _ _ ⟨⟩
  exact ⟨hb, trivial⟩

theorem keeps_setSlot (hI : Bound.Invariant V I) (i : Nat) {v : Value} (hv : V v) :
    Keeps I (fun _ => True) (setSlot i v) :=
  .modify fun _ hb => hI.set i hb hv

/-- Values are put into slots one after another. -/
theorem keeps_setSlots (hI : Bound.Invariant V I) (i : Nat) {vs : List Value}
    (hvs : ∀ v ∈ vs, V v) :
    Keeps I (fun _ => True) (setSlots i vs) := by
  induction vs generalizing i with
  | nil => exact .pure trivial
  | cons v vs ih =>
    obtain ⟨hv, hrest⟩ := List.forall_mem_cons.1 hvs
    exact (keeps_setSlot hI i hv).bind fun _ _ => ih (i + 1) hrest

/-- Named arguments are put one after another. -/
theorem keeps_keywords (hI : Bound.Invariant V I) (f : String) (params : List String)
    {kwargs : Keywords} (hkwargs : ∀ kv ∈ kwargs, V kv.2) :
    Keeps I (fun _ => True) (keywords f params kwargs) := by
  -- each keyword fills the slot of its parameter or adds an entry to the dictionary
  induction kwargs with
  | nil => exact .pure trivial
  | cons kv rest ih =>
    obtain ⟨k, v⟩ := kv
    obtain ⟨hv, hrest⟩ := List.forall_mem_cons.1 hkwargs
    cases hidx : params.idxOf? k with
    | some i =>
      simp only [keywords, hidx]
      refine (keeps_isBound _).bind fun bound _ => Keeps.guarded ?_
      exact (keeps_setSlot hI _ hv).bind fun _ _ => ih hrest
    | none =>
      intro b hb a b' hrun
      rw [keywords_cons_unnamed hidx] at hrun
      cases hextra : b.extra with
      | none =>
        rw [hextra] at hrun
        cases hrun
      | some x =>
        simp only [hextra] at hrun
        split at hrun
        · cases hrun
        · exact ih hrest _ (hI.insert k hb hextra hv) a b' hrun

/-- A mark is never bound: the parameter stays without a value. -/
theorem keeps_defaults (hI : Bound.Invariant V I) (first : Nat) {values : Array Value}
    (hvalues : ∀ v ∈ values, V v ∨ v = .mandatory) (i : Nat) (params : List String) :
    Keeps I (fun _ => True) (defaults first values i params) := by
  -- a slot without an argument takes its default, unless that is the marker of a required parameter
  induction params generalizing i with
  | nil => exact .pure trivial
  | cons q rest ih =>
    have hskip : Keeps I (fun _ => True) (do return q :: (← defaults first values (i + 1) rest)) :=
      (ih (i + 1)).bind fun _ _ => .pure trivial
    unfold defaults
    refine (keeps_isBound i).bind fun bound _ => ?_
    split
    · exact ih (i + 1)
    · split
      · exact hskip
      · split
        · exact hskip
        · exact hskip
        · rename_i v hnot hv
          have hvalue : V v := (hvalues v (Array.mem_of_getElem? hv)).resolve_right fun hm =>
            hnot (hm ▸ rfl)
          exact (keeps_setSlot hI i hvalue).bind fun _ _ => ih (i + 1)

/-- Binding the arguments of a call keeps what every change of a slot keeps. -/
theorem keeps_bindArguments (hI : Bound.Invariant V I) (c : Code) {values : Array Value}
    (hvalues : ∀ v ∈ values, V v ∨ v = .mandatory) {args : List Value} (hargs : ∀ v ∈ args, V v)
    (htuple : ∀ n, V (.tuple (args.drop n))) {kwargs : Keywords} (hkwargs : ∀ kv ∈ kwargs, V kv.2) :
    Keeps I (fun _ => True) (bindArguments c values args kwargs) := by
  -- the binding in its two parts, by position and by name, of which the first runs the second
  have hnamed : ∀ ordinary taken,
      Keeps I (fun _ => True) (bindNamed c values kwargs ordinary taken) := by
    intro ordinary taken
    unfold bindNamed
    refine (keeps_require _ _).bind fun _ _ => (keeps_keywords hI _ _ hkwargs).bind fun _ _ => ?_
    split
    · refine (keeps_defaults hI _ hvalues _ _).bind fun missing _ => ?_
      split
      · exact .throw _
      · exact .pure trivial
    · exact .pure trivial
  have hordinary : ∀ size named,
      Keeps I (fun _ => True) (bindOrdinary c values args kwargs size named) := by
    intro size named
    unfold bindOrdinary
    refine (keeps_require _ _).bind fun _ _ => (keeps_require _ _).bind fun _ _ => ?_
    refine Keeps.guarded ?_
    refine (keeps_setSlots hI _ fun v hv => hargs v (List.mem_of_mem_take hv)).bind fun _ _ => ?_
    split
    · exact (keeps_require _ _).bind fun _ _ => (keeps_setSlot hI _ (htuple _)).bind fun _ _ =>
        hnamed _ _
    · exact hnamed _ _
  unfold bindArguments
  split
  · exact Keeps.guarded (.pure trivial)
  · refine Keeps.bind .get fun b _ => ?_
    split
    · exact (keeps_require _ _).bind fun _ _ => (Keeps.modify fun b hb => hI.start _ hb).bind
        fun _ _ => hordinary _ _
    · exact hordinary _ _

end Keeping

end BindM

/-! ## The names of `**kwargs` -/

/-- An environment in which each name occurs once stays one. -/
theorem Env.nodup_insert {env : Env} (h : (env.map Prod.fst).Nodup) (k : String) (v : Value) :
    ((env.insert k v).map Prod.fst).Nodup := by
  -- an insertion brings in no name but its own
  have hmem : ∀ env : Env, ∀ n ∈ (env.insert k v).map Prod.fst, n ∈ env.map Prod.fst ∨ n = k := by
    intro env
    induction env with
    | nil => simp [insert]
    | cons e env ih =>
      intro n hn
      unfold insert at hn
      split at hn
      · exact .inl hn
      · rw [List.map_cons, List.mem_cons] at hn ⊢
        rcases hn with rfl | hn
        · exact .inl (.inl rfl)
        · exact (ih n hn).imp_left .inr
  induction env with
  | nil => simp [insert]
  | cons e env ih =>
    rw [List.map_cons, List.nodup_cons] at h
    unfold insert
    split
    · rw [List.map_cons, List.nodup_cons]
      exact h
    · rename_i hne
      rw [List.map_cons, List.nodup_cons]
      refine ⟨fun hn => ?_, ih h.2⟩
      rcases hmem env _ hn with hold | hnew
      · exact h.1 hold
      · exact hne (beq_iff_eq.2 hnew)

/-- `**kwargs` has an entry for each name only once. -/
def Bound.NamesOnce (b : Bound) : Prop := ∀ i env, b.extra = some (i, env) →
    (env.map Prod.fst).Nodup

theorem Bound.invariant_namesOnce : Bound.Invariant (fun _ => True) Bound.NamesOnce where
  set _ hb _ := hb
  start i _ := by
    rintro _ _ ⟨⟩
    exact List.nodup_nil
  insert k hb hextra _ := by
    rintro _ _ ⟨⟩
    exact Env.nodup_insert (hb _ _ hextra) k _

/-- No name occurs twice among the extra named arguments. -/
theorem Bound.namesOnce_of_bindArguments {c : Code} {values : Array Value} {args : List Value}
    {kwargs : Keywords} {size : Nat} {bound : Bound}
    (hrun : bindArguments c values args kwargs (Bound.empty size) = .ok () bound) :
    bound.NamesOnce := by
  have hkeeps : BindM.Keeps Bound.NamesOnce (fun _ => True) (bindArguments c values args kwargs) :=
    BindM.keeps_bindArguments Bound.invariant_namesOnce c (fun _ _ => .inl trivial)
      (fun _ _ => trivial) (fun _ => trivial) fun _ _ => trivial
  have hempty : (Bound.empty size).NamesOnce := by
    rintro _ _ ⟨⟩
  exact (hkeeps _ hempty _ _ hrun).1

end Starlark
