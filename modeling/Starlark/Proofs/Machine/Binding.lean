import Starlark.Proofs.Machine.Entering
import Starlark.Proofs.Machine.Slots

/-!
# What argument binding does

The parameters of a function are told apart by counting: those that take positional arguments, those
that take keywords only, then `*args` and `**kwargs`; and the defaults belong to the last parameters
before `*args`. Which calls a function accepts is said here parameter by parameter and keyword by
keyword (`Code.Accepts`), and so is where the values of an accepted call end up (`Code.Placed`).
Binding the arguments into empty slots succeeds on the accepted calls, and puts the values there
(`bindArguments_spec`).
-/

set_option autoImplicit false

namespace Starlark

/-! ## Signatures -/

namespace Code

/-- The number of parameters besides `*args` and `**kwargs`. -/
def ordinary (c : Code) : Nat :=
  c.numParams.toNat - (if c.hasKwargs then 1 else 0) - (if c.hasVarargs then 1 else 0)

/-- The number of parameters that take positional arguments. -/
def positional (c : Code) : Nat := c.ordinary - c.numKwonly.toNat

/-- The names of the parameters besides `*args` and `**kwargs`. -/
def paramNames (c : Code) : List String := (c.locals.toList.take c.ordinary).map (·.name)

/-- The default of a parameter: the last default belongs to the last parameter, and so on. -/
def default? (c : Code) (values : Array Value) (p : Nat) : Option Value :=
  if c.ordinary ≤ p + values.size then values[p + values.size - c.ordinary]? else none

/-- A function has slots for its parameters, which have names of their own. It has defaults for its
keyword-only parameters at least, and only these may have the mandatory mark. -/
structure Consistent (c : Code) (values : Array Value) : Prop extends c.Counted where
  names : c.paramNames.Nodup
  covered : c.numKwonly.toNat ≤ values.size
  defaults : values.size ≤ c.ordinary
  mandatory : ∀ p, c.default? values p = some .mandatory → c.positional ≤ p

/-- A function has slots for its parameters, which have names of their own, and it has no more
defaults than parameters. -/
structure Aligned (c : Code) (values : Array Value) : Prop extends c.Counted where
  names : c.paramNames.Nodup
  defaults : values.size ≤ c.ordinary

theorem Consistent.aligned {c : Code} {values : Array Value} (hc : c.Consistent values) :
    c.Aligned values where
  toCounted := hc.toCounted
  names := hc.names
  defaults := hc.defaults

/-- A positional argument fills a parameter. -/
def FilledByPosition (c : Code) (args : List Value) (p : Nat) : Prop :=
  p < args.length ∧ p < c.positional

/-- A keyword fills a parameter. -/
def FilledByKeyword (c : Code) (kwargs : Keywords) (p : Nat) : Prop :=
  ∃ k ∈ kwargs.map Prod.fst, c.paramNames[p]? = some k

/-- No argument of a call fills a parameter. -/
def Omits (c : Code) (args : List Value) (kwargs : Keywords) (p : Nat) : Prop :=
  p < c.ordinary ∧ ¬c.FilledByPosition args p ∧ ¬c.FilledByKeyword kwargs p

instance (c : Code) (args : List Value) (kwargs : Keywords) (p : Nat) :
    Decidable (c.Omits args kwargs p) := by
  unfold Omits FilledByPosition FilledByKeyword
  infer_instance

/-- The names of the parameters that neither an argument nor a default fills, where it is known with
what a parameter is supplied by default. -/
def lacking (c : Code) (supply : Nat → Option Value) (args : List Value) (kwargs : Keywords) :
    List String :=
  (c.paramNames.zipIdx.filter fun x =>
    decide (c.Omits args kwargs x.2) && (supply x.2).isNone).map Prod.fst

/-- All arguments of a call have places: there is room for the positional ones, and a keyword occurs
once and names a parameter without a positional argument, or goes to `**kwargs`. -/
structure Takes (c : Code) (args : List Value) (kwargs : Keywords) : Prop where
  positional : args.length ≤ c.positional ∨ c.hasVarargs = true
  keyword : ∀ k ∈ kwargs.map Prod.fst, (kwargs.map Prod.fst).count k = 1 ∧
    ((∃ p, c.paramNames[p]? = some k ∧ ¬c.FilledByPosition args p) ∨
      (k ∉ c.paramNames ∧ c.hasKwargs = true))

/-- The calls that a function accepts. -/
structure Accepts (c : Code) (values : Array Value) (args : List Value) (kwargs : Keywords) :
    Prop where
  positional : args.length ≤ c.positional ∨ c.hasVarargs = true
  keyword : ∀ k ∈ kwargs.map Prod.fst, (kwargs.map Prod.fst).count k = 1 ∧
    ((∃ p, c.paramNames[p]? = some k ∧ ¬c.FilledByPosition args p) ∨
      (k ∉ c.paramNames ∧ c.hasKwargs = true))
  unfilled : ∀ p < c.ordinary, ¬c.FilledByPosition args p → ¬c.FilledByKeyword kwargs p →
    ∃ v, c.default? values p = some v ∧ v ≠ .mandatory

/-- The keywords of a call that name no parameter, as the entries of a dict. -/
def extraEntries (c : Code) (kwargs : Keywords) : Array (Value × Value) :=
  ((kwargs.filter fun e => e.1 ∉ c.paramNames).map fun e => (Value.str e.1, e.2)).toArray

/-- Where the values of a call are: slots and a heap that had been `h`. -/
structure Placed (c : Code) (values : Array Value) (args : List Value)
    (kwargs : Keywords) (h : Heap)
    (slots : Array (Option Value)) (h' : Heap) : Prop where
  size : slots.size = c.locals.size
  positional : ∀ p v, p < c.positional → args[p]? = some v → slots[p]? = some (some v)
  surplus : c.hasVarargs = true →
    slots[c.ordinary]? = some (some (.tuple (args.drop c.positional)))
  keyword : ∀ (p : Nat) k v, c.paramNames[p]? = some k → (k, v) ∈ kwargs → slots[p]? = some (some v)
  extra : c.hasKwargs = true →
    slots[c.numParams.toNat - 1]? = some (some (.dict (h.newDict (c.extraEntries kwargs)).1)) ∧
      h' = (h.newDict (c.extraEntries kwargs)).2
  unfilled : ∀ p < c.ordinary, ¬c.FilledByPosition args p → ¬c.FilledByKeyword kwargs p →
    slots[p]? = some (c.default? values p)
  others : ∀ i, c.numParams.toNat ≤ i → i < c.locals.size → slots[i]? = some none
  heap : c.hasKwargs = false → h' = h

end Code

/-! ## Binding as a whole -/

namespace Code

variable {c : Code} {values : Array Value} {args : List Value} {kwargs : Keywords}

theorem positional_le (c : Code) : c.positional ≤ c.ordinary := Nat.sub_le _ _

namespace Aligned

/-- The kinds of parameters make up the parameters. -/
theorem kinds_eq (hc : c.Aligned values) :
    c.ordinary + (if c.hasVarargs then 1 else 0) + (if c.hasKwargs then 1 else 0) =
      c.numParams.toNat := by
  have hkinds := hc.kinds
  rw [ordinary]
  omega

theorem ordinary_le (hc : c.Aligned values) : c.ordinary ≤ c.locals.size := by
  have hkinds := hc.kinds_eq
  have hslots := hc.slots
  omega

theorem length_paramNames (hc : c.Aligned values) : c.paramNames.length = c.ordinary := by
  simp [paramNames, hc.ordinary_le]

theorem length_paramNames_le (hc : c.Aligned values) {b : Bound}
    (hsize : b.slots.size = c.locals.size) : c.paramNames.length ≤ b.slots.size := by
  rw [hc.length_paramNames, hsize]
  exact hc.ordinary_le

theorem lt_ordinary (hc : c.Aligned values) {p : Nat} {k : String}
    (hp : c.paramNames[p]? = some k) : p < c.ordinary := by
  rw [← hc.length_paramNames]
  exact (List.getElem?_eq_some_iff.1 hp).1

theorem eq_of_name_eq (hc : c.Aligned values) {p q : Nat} {k : String}
    (hp : c.paramNames[p]? = some k) (hq : c.paramNames[q]? = some k) : p = q := by
  rw [← idxOf?_eq_some_iff_getElem? hc.names] at hp hq
  exact Option.some.inj (hp.symm.trans hq)

/-- The default that a parameter is bound to is its own. -/
theorem usable_eq_some_iff (hc : c.Aligned values) {p : Nat} {v : Value} :
    BindM.usable (c.ordinary - values.size) values p = some v ↔
      c.default? values p = some v ∧ v ≠ .mandatory := by
  have hle := hc.defaults
  unfold BindM.usable default?
  by_cases hp : p < c.ordinary - values.size
  · rw [if_pos hp, if_neg (by omega)]
    simp
  · have hindex : p - (c.ordinary - values.size) = p + values.size - c.ordinary := by omega
    rw [if_neg hp, if_pos (by omega), hindex]
    cases values[p + values.size - c.ordinary]? with
    | none => simp
    | some w => cases w <;> simp <;> rintro rfl <;> simp

end Aligned

end Code

open BindM in
/-- Once the keywords have found their places, binding fails only for parameters that hold
nothing. -/
theorem bindNamed_eq {c : Code} {values : Array Value} {kwargs : Keywords} {taken : Nat} {b : Bound}
    (hc : c.Aligned values) (hsize : b.slots.size = c.locals.size) (htaken : taken ≤ c.ordinary)
    (hfits : b.Fits c.paramNames kwargs) :
    ∃ b', bindNamed c values kwargs c.ordinary taken b =
        (if b'.lacking taken (c.paramNames.drop taken) = [] then .ok () b'
          else .error (.fault (.missingArguments c.name
            (b'.lacking taken (c.paramNames.drop taken)))) b') ∧
      b'.slots.size = c.locals.size ∧
      b'.extra = (kwargs.foldl (Bound.put c.paramNames) b).extra ∧
      ∀ j, b'.held j = ((kwargs.foldl (Bound.put c.paramNames) b).held j).or
        (if taken ≤ j ∧ j < c.ordinary then usable (c.ordinary - values.size) values j else
            none) := by
  have hkeywords := keywords_eq (f := c.name) (hc.length_paramNames_le hsize) hfits
  have hrest : taken + (c.paramNames.drop taken).length = c.ordinary := by
    rw [List.length_drop, hc.length_paramNames]
    omega
  have hroom : c.ordinary ≤ (kwargs.foldl (Bound.put c.paramNames) b).slots.size := by
    rw [Bound.size_putAll, hsize]
    exact hc.ordinary_le
  obtain ⟨b', hrun, hsize', hextra, hheld⟩ :=
    defaults_eq (c.ordinary - values.size) values (hrest.le.trans hroom)
  rw [hrest] at hheld
  refine ⟨b', ?_, hsize'.trans (Bound.size_putAll.trans hsize), hextra, hheld⟩
  rw [bindNamed, require_bind hc.ordinary_le]
  refine (bind_eq hkeywords).trans ?_
  split
  · refine (bind_eq hrun).trans ?_
    cases b'.lacking taken (c.paramNames.drop taken) <;> rfl
  · rename_i hnone
    -- there are no parameters left, and nothing to bind
    have hnil : c.paramNames.drop taken = [] := by
      apply List.drop_eq_nil_of_le
      rw [hc.length_paramNames]
      omega
    rw [hnil] at hrun ⊢
    cases hrun
    rfl

open BindM in
theorem fails_bindNamed {c : Code} {values : Array Value} {kwargs : Keywords} {taken : Nat}
    {b : Bound}
    (hc : c.Aligned values) (hsize : b.slots.size = c.locals.size)
    (hfits : ¬b.Fits c.paramNames kwargs) :
    Fails (bindNamed c values kwargs c.ordinary taken) b := by
  rw [Fails, bindNamed, require_bind hc.ordinary_le]
  exact (fails_keywords (hc.length_paramNames_le hsize) hfits).bind _

namespace Code

/-- What the positional arguments leave in a slot. -/
def byPosition (c : Code) (args : List Value) (j : Nat) : Option Value :=
  if j = c.ordinary ∧ c.hasVarargs = true then some (.tuple (args.drop c.positional))
  else (args.take c.positional)[j]?

theorem byPosition_ordinary {c : Code} {args : List Value} (hv : c.hasVarargs = true) :
    c.byPosition args c.ordinary = some (.tuple (args.drop c.positional)) := if_pos ⟨rfl, hv⟩

end Code

section Ordinary

open BindM

variable {c : Code} {values : Array Value} {args : List Value} {kwargs : Keywords} {b : Bound}

/-- With consistent counts the checks of them pass, and the positional arguments come first. -/
theorem bindOrdinary_start (hc : c.Aligned values) {size named : Nat}
    (hnamed : named = c.numParams.toNat - (if c.hasKwargs then 1 else 0))
    (hsize : size = c.locals.size) :
    bindOrdinary c values args kwargs size named b =
      if c.positional < args.length ∧ (!c.hasVarargs) = true then
        .error (.fault (.tooManyPositional c.name (c.numKwonly.toNat < values.size) c.positional
          args.length)) b
      else
        (setSlots 0 (args.take (min args.length c.positional)) >>= fun _ => do
          if c.hasVarargs then
            setSlot c.ordinary (.tuple (args.drop (min args.length c.positional)))
          bindNamed c values kwargs c.ordinary (min args.length c.positional)) b := by
  have hkinds := hc.kinds
  have hslots := hc.slots
  have hordinary : named - (if c.hasVarargs then 1 else 0) = c.ordinary := hnamed ▸ rfl
  have hpositional : c.ordinary - c.numKwonly.toNat = c.positional := rfl
  have hstar : c.hasVarargs → 0 < named ∧ named - (if c.hasVarargs then 1 else 0) < size := by
    intro hv
    rw [if_pos hv] at hkinds ⊢
    omega
  have hkwonly : c.numKwonly.toNat ≤ named - (if c.hasVarargs then 1 else 0) := by omega
  simp only [bindOrdinary]
  -- the counts of an aligned function never make a subtraction fall below zero
  rw [require_bind fun hv => (hstar hv).1, require_bind hkwonly]
  simp only [hordinary, hpositional]
  split
  · rfl
  · split
    · rename_i hv
      rw [require_bind (hstar hv).2]
    · rfl

/-- The positional arguments find their places. -/
theorem bindOrdinary_eq (hc : c.Aligned values) (kwargs : Keywords) {named : Nat}
    (hnamed : named = c.numParams.toNat - (if c.hasKwargs then 1 else 0))
    (hsize : b.slots.size = c.locals.size) (hempty : ∀ j, b.held j = none)
    (hargs : args.length ≤ c.positional ∨ c.hasVarargs = true) :
    ∃ b', b'.slots.size = c.locals.size ∧ b'.extra = b.extra ∧
      (∀ j, b'.held j = c.byPosition args j) ∧
      bindOrdinary c values args kwargs c.locals.size named b =
        bindNamed c values kwargs c.ordinary (min args.length c.positional) b' := by
  have hle := c.positional_le
  have hordinary := hc.ordinary_le
  have htake : args.take (min args.length c.positional) = args.take c.positional := by
    rw [Nat.min_comm, ← List.take_eq_take_min]
  have hdrop : args.drop (min args.length c.positional) = args.drop c.positional := by
    rcases Nat.le_total args.length c.positional with hshort | hlong
    · rw [Nat.min_eq_left hshort, List.drop_length, List.drop_eq_nil_of_le hshort]
    · rw [Nat.min_eq_right hlong]
  have hroom : 0 + (args.take c.positional).length ≤ b.slots.size := by
    rw [List.length_take, hsize]
    omega
  obtain ⟨b₁, hrun, hsize₁, hextra, hheld⟩ := setSlots_eq hroom
  -- too many arguments are refused only where nothing packs the rest
  have hfew : ¬(c.positional < args.length ∧ (!c.hasVarargs) = true) := by
    rintro ⟨hlt, hv⟩
    rcases hargs with hshort | hstar
    · omega
    · simp [hstar] at hv
  have hfirst : ∀ j, b₁.held j = (args.take c.positional)[j]? := by
    intro j
    rw [hheld, if_pos (Nat.zero_le j), hempty, Option.or_none, Nat.sub_zero]
  rw [bindOrdinary_start hc hnamed rfl, if_neg hfew, htake, hdrop, bind_eq hrun]
  cases hv : c.hasVarargs with
  | false =>
    refine ⟨b₁, hsize₁.trans hsize, hextra, ?_, rfl⟩
    intro j
    rw [hfirst, Code.byPosition, if_neg (by simp [hv])]
  | true =>
    refine ⟨b₁.set c.ordinary (.tuple (args.drop c.positional)),
      Bound.size_set.trans (hsize₁.trans hsize), hextra, ?_, rfl⟩
    have hstar : c.ordinary < b₁.slots.size := by
      have hkinds := hc.kinds_eq
      have hslots := hc.slots
      rw [if_pos hv] at hkinds
      omega
    intro j
    rw [Bound.held_set hstar, Code.byPosition, hv, hfirst]
    simp only [and_true]

theorem fails_bindOrdinary (hc : c.Aligned values) {named : Nat}
    (hnamed : named = c.numParams.toNat - (if c.hasKwargs then 1 else 0))
    (hargs : ¬(args.length ≤ c.positional ∨ c.hasVarargs = true)) :
    Fails (bindOrdinary c values args kwargs c.locals.size named) b := by
  rw [not_or, Nat.not_le, Bool.not_eq_true] at hargs
  have hmany : c.positional < args.length ∧ (!c.hasVarargs) = true := ⟨hargs.1, by simp [hargs.2]⟩
  exact ⟨_, _, (bindOrdinary_start hc hnamed rfl).trans (if_pos hmany)⟩

/-- The slots before any argument is bound. -/
def Code.blank (c : Code) : Bound :=
  { Bound.empty c.locals.size with
    extra := if c.hasKwargs then some (c.numParams.toNat - 1, []) else none }

theorem bindArguments_start (hc : c.Aligned values) (hparams : c.numParams ≠ 0) :
    bindArguments c values args kwargs (Bound.empty c.locals.size) =
      bindOrdinary c values args kwargs c.locals.size
        (c.numParams.toNat - (if c.hasKwargs then 1 else 0)) c.blank := by
  have hslots := hc.slots
  have hpos : 0 < c.numParams.toNat := Nat.pos_of_ne_zero fun h => hparams (UInt32.toNat_inj.1 h)
  have hget : (get : BindM Bound) (Bound.empty c.locals.size) =
      .ok (Bound.empty c.locals.size) (Bound.empty c.locals.size) := rfl
  have hsize : (Bound.empty c.locals.size).slots.size = c.locals.size := by simp [Bound.empty]
  rw [bindArguments, if_neg hparams, bind_eq hget, hsize]
  -- the dictionary of further keywords is the last parameter, begun empty
  cases hk : c.hasKwargs with
  | false => simp [hk, Code.blank, Bound.empty]
  | true =>
    have hroom : c.numParams.toNat - (if true = true then 1 else 0) < c.locals.size := by
      rw [if_pos rfl]
      omega
    simp only [if_true]
    rw [require_bind hroom]
    simp only [Code.blank, hk, if_true]
    rfl

end Ordinary

/-! ## Accepted calls -/

namespace Code

variable {c : Code} {values : Array Value} {args : List Value} {kwargs : Keywords}

/-- What the keywords leave in a slot. -/
def byKeyword (c : Code) (kwargs : Keywords) (j : Nat) : Option Value :=
  c.paramNames[j]?.bind fun k => kwargs.lookup k

theorem not_filledByPosition_iff {p : Nat} :
    ¬c.FilledByPosition args p ↔ min args.length c.positional ≤ p := by
  rw [FilledByPosition]
  omega

theorem byPosition_eq_none_iff {p : Nat} (hp : p < c.ordinary) :
    c.byPosition args p = none ↔ ¬c.FilledByPosition args p := by
  rw [byPosition, if_neg (by omega), List.getElem?_eq_none_iff, List.length_take, Nat.min_comm,
    not_filledByPosition_iff]

theorem byKeyword_eq_none_iff {p : Nat} :
    c.byKeyword kwargs p = none ↔ ¬c.FilledByKeyword kwargs p := by
  rw [byKeyword, FilledByKeyword]
  cases hp : c.paramNames[p]? with
  | none => simp
  | some k =>
    rw [Option.bind_some, List.lookup_eq_none_iff]
    simp only [List.mem_map, Option.some.injEq, exists_eq_right', not_exists, not_and, bne_iff_ne]
    exact ⟨fun h e he heq => h e he heq.symm, fun h e he heq => h e he heq.symm⟩

theorem byKeyword_eq_some {p : Nat} {k : String} {v : Value} (hkeys : (kwargs.map Prod.fst).Nodup)
    (hp : c.paramNames[p]? = some k) (hkv : (k, v) ∈ kwargs) : c.byKeyword kwargs p = some v := by
  rw [byKeyword, hp, Option.bind_some]
  obtain ⟨before, after, rfl⟩ := List.append_of_mem hkv
  rw [List.lookup_eq_some_iff]
  refine ⟨before, after, rfl, ?_⟩
  intro e he
  rw [List.map_append, List.nodup_append] at hkeys
  have hne := hkeys.2.2 e.1 (List.mem_map_of_mem he) k (by simp)
  simpa using hne.symm

/-- The place of a keyword is open if no positional argument has taken it. -/
theorem open_iff (hc : c.Aligned values) {b : Bound} (hheld : ∀ j, b.held j = c.byPosition args j)
    (hextra : b.extra = c.blank.extra) {k : String} :
    b.Open c.paramNames k ↔ (∃ p, c.paramNames[p]? = some k ∧ ¬c.FilledByPosition args p) ∨
      (k ∉ c.paramNames ∧ c.hasKwargs = true) := by
  -- a keyword that names a parameter goes to it, and any other into the dictionary if there is one
  cases hidx : c.paramNames.idxOf? k with
  | some i =>
    have hi := (idxOf?_eq_some_iff_getElem? hc.names).1 hidx
    rw [Bound.open_named hidx, hheld, byPosition_eq_none_iff (hc.lt_ordinary hi)]
    constructor
    · intro hfree
      exact .inl ⟨i, hi, hfree⟩
    · rintro (⟨p, hp, hfree⟩ | ⟨hnone, -⟩)
      · exact hc.eq_of_name_eq hp hi ▸ hfree
      · exact absurd (List.mem_of_getElem? hi) hnone
  | none =>
    have hnone := List.idxOf?_eq_none_iff.1 hidx
    have hextra' : (∃ x, b.extra = some x ∧ ∀ e ∈ x.2, e.1 ≠ k) ↔ c.hasKwargs = true := by
      rw [hextra, blank]
      cases c.hasKwargs <;> simp
    rw [Bound.open_unnamed hidx, hextra']
    constructor
    · intro hk
      exact .inr ⟨hnone, hk⟩
    · rintro (⟨p, hp, -⟩ | ⟨-, hk⟩)
      · exact absurd (List.mem_of_getElem? hp) hnone
      · exact hk

theorem fits_iff (hc : c.Aligned values) (kwargs : Keywords) {b : Bound}
    (hheld : ∀ j, b.held j = c.byPosition args j) (hextra : b.extra = c.blank.extra) :
    b.Fits c.paramNames kwargs ↔ ∀ k ∈ kwargs.map Prod.fst, (kwargs.map Prod.fst).count k = 1 ∧
      ((∃ p, c.paramNames[p]? = some k ∧ ¬c.FilledByPosition args p) ∨
        (k ∉ c.paramNames ∧ c.hasKwargs = true)) := by
  rw [Bound.Fits, List.nodup_iff_count_eq_one]
  simp only [open_iff hc hheld hextra, forall_and]

theorem Accepts.nodup (ha : c.Accepts values args kwargs) : (kwargs.map Prod.fst).Nodup :=
  List.nodup_iff_count_eq_one.2 fun k hk => (ha.keyword k hk).1

/-- No parameter is filled twice. -/
theorem Accepts.not_filledByKeyword (ha : c.Accepts values args kwargs) (hc : c.Aligned values)
    {p : Nat} (hp : c.FilledByPosition args p) : ¬c.FilledByKeyword kwargs p := by
  rintro ⟨k, hk, hname⟩
  rcases (ha.keyword k hk).2 with ⟨q, hq, hfree⟩ | ⟨hnone, -⟩
  · rw [hc.eq_of_name_eq hq hname] at hfree
    exact hfree hp
  · exact hnone (List.mem_of_getElem? hname)

/-- What the slots hold when all arguments are bound. -/
structure Arranged (c : Code) (values : Array Value) (args : List Value) (kwargs : Keywords)
    (b : Bound) : Prop where
  size : b.slots.size = c.locals.size
  extra : b.extra = c.blank.extra.map fun x =>
      (x.1, x.2 ++ kwargs.filter fun e => e.1 ∉ c.paramNames)
  held : ∀ j, b.held j = ((c.byKeyword kwargs j).or (c.byPosition args j)).or
    (if min args.length c.positional ≤ j ∧ j < c.ordinary then
      BindM.usable (c.ordinary - values.size) values j else none)

/-- A parameter holds nothing if neither an argument nor a default fills it. -/
theorem Arranged.held_eq_none_iff {b : Bound} (hb : c.Arranged values args kwargs b) {p : Nat}
    (hp : p < c.ordinary) : b.held p = none ↔
      c.Omits args kwargs p ∧ BindM.usable (c.ordinary - values.size) values p = none := by
  rw [hb.held, Option.or_eq_none_iff, Option.or_eq_none_iff, byKeyword_eq_none_iff,
    byPosition_eq_none_iff hp, Omits]
  constructor
  · rintro ⟨⟨hkw, hpos⟩, hnone⟩
    rw [if_pos ⟨not_filledByPosition_iff.1 hpos, hp⟩] at hnone
    exact ⟨⟨hp, hpos, hkw⟩, hnone⟩
  · rintro ⟨⟨-, hpos, hkw⟩, hnone⟩
    refine ⟨⟨hkw, hpos⟩, ?_⟩
    rw [if_pos ⟨not_filledByPosition_iff.1 hpos, hp⟩]
    exact hnone

/-- The parameters that hold nothing are those that are omitted and have no default. -/
theorem Arranged.lacking_eq {b : Bound} (hb : c.Arranged values args kwargs b)
    (hc : c.Aligned values) :
    b.lacking (min args.length c.positional) (c.paramNames.drop (min args.length c.positional)) =
      c.lacking (BindM.usable (c.ordinary - values.size) values) args kwargs := by
  have hholds : ∀ x ∈ c.paramNames.zipIdx, (b.held x.2).isNone =
      (decide (c.Omits args kwargs x.2) &&
        (BindM.usable (c.ordinary - values.size) values x.2).isNone) := by
    rintro ⟨k, p⟩ hx
    have hp := hc.lt_ordinary (List.mem_zipIdx_iff_getElem?.1 hx)
    rw [Bool.eq_iff_iff, Bool.and_eq_true, decide_eq_true_iff, Option.isNone_iff_eq_none,
      Option.isNone_iff_eq_none]
    exact hb.held_eq_none_iff hp
  -- a positional argument fills the first ones
  have hfirst : ((c.paramNames.take (min args.length c.positional)).zipIdx.filter fun x =>
      (b.held x.2).isNone) = [] := by
    rw [List.filter_eq_nil_iff]
    rintro ⟨k, p⟩ hx hnone
    obtain ⟨hp, -⟩ := List.getElem?_eq_some_iff.1 (List.mem_zipIdx_iff_getElem?.1 hx)
    rw [List.length_take, hc.length_paramNames] at hp
    have homits := ((hb.held_eq_none_iff (by omega)).1 (Option.isNone_iff_eq_none.1 hnone)).1
    exact homits.2.1 ⟨by omega, by omega⟩
  have hlength : 0 + (c.paramNames.take (min args.length c.positional)).length =
      min args.length c.positional := by
    have hle := c.positional_le
    rw [List.length_take, hc.length_paramNames]
    omega
  have hsplit :=
    congrArg List.zipIdx (List.take_append_drop (min args.length c.positional) c.paramNames)
  rw [List.zipIdx_append, hlength] at hsplit
  rw [lacking, ← List.filter_congr hholds, ← hsplit, List.filter_append, hfirst, List.nil_append]
  rfl

theorem lacking_eq_nil_iff (hc : c.Aligned values) {supply : Nat → Option Value} :
    c.lacking supply args kwargs = [] ↔ ∀ p, c.Omits args kwargs p → supply p ≠ none := by
  rw [lacking, List.map_eq_nil_iff, List.filter_eq_nil_iff]
  constructor
  · intro hall p hp hnone
    have hlt : p < c.paramNames.length := hc.length_paramNames ▸ hp.1
    exact hall (c.paramNames[p], p)
      (List.mem_zipIdx_iff_getElem?.2 (List.getElem?_eq_getElem hlt)) (by simp [hp, hnone])
  · rintro hall ⟨k, p⟩ - hx
    obtain ⟨hp, hnone⟩ := Bool.and_eq_true_iff.1 hx
    exact hall p (of_decide_eq_true hp) (Option.isNone_iff_eq_none.1 hnone)

/-- A call is accepted if its arguments have places and defaults fill what it omits. -/
theorem accepts_iff (hc : c.Aligned values) : c.Accepts values args kwargs ↔ c.Takes args kwargs ∧
    c.lacking (BindM.usable (c.ordinary - values.size) values) args kwargs = [] := by
  rw [lacking_eq_nil_iff hc]
  constructor
  · rintro ⟨hpos, hkw, hunfilled⟩
    refine ⟨⟨hpos, hkw⟩, fun p hp hnone => ?_⟩
    obtain ⟨v, hv⟩ := hunfilled p hp.1 hp.2.1 hp.2.2
    rw [hc.usable_eq_some_iff.2 hv] at hnone
    cases hnone
  · rintro ⟨⟨hpos, hkw⟩, hall⟩
    refine ⟨hpos, hkw, fun p hp hfree hnamed => ?_⟩
    obtain ⟨v, hv⟩ := Option.ne_none_iff_exists'.1 (hall p ⟨hp, hfree, hnamed⟩)
    exact ⟨v, hc.usable_eq_some_iff.1 hv⟩

end Code

section Arguments

open BindM

variable {c : Code} {values : Array Value} {args : List Value} {kwargs : Keywords}

/-- A function without parameters has none of any kind. -/
theorem Code.Aligned.of_zero (hc : c.Aligned values) (hparams : c.numParams = 0) :
    c.ordinary = 0 ∧ c.hasVarargs = false ∧ c.hasKwargs = false := by
  have hkinds := hc.kinds_eq
  have hzero : c.numParams.toNat = 0 := by
    rw [hparams]
    rfl
  refine ⟨by omega, Bool.eq_false_iff.2 fun hv => ?_, Bool.eq_false_iff.2 fun hk => ?_⟩
  · rw [if_pos hv] at hkinds
    omega
  · rw [if_pos hk] at hkinds
    omega

/-- A function without parameters takes the call without arguments only. -/
theorem Code.Aligned.takes_iff_of_zero (hc : c.Aligned values) (hparams : c.numParams = 0) :
    c.Takes args kwargs ↔ args = [] ∧ kwargs = [] := by
  obtain ⟨hordinary, hv, hk⟩ := hc.of_zero hparams
  have hpositional : c.positional = 0 := Nat.le_zero.1 (hordinary ▸ c.positional_le)
  have hnames : c.paramNames = [] := by simp [Code.paramNames, hordinary]
  constructor
  · intro ht
    have hargs : args.length = 0 := by
      -- neither kind of argument has a parameter to go to
      rcases ht.positional with hle | hstar
      · omega
      · rw [hv] at hstar
        cases hstar
    refine ⟨List.length_eq_zero_iff.1 hargs, List.eq_nil_iff_forall_not_mem.2 fun kv hkv => ?_⟩
    rcases (ht.keyword kv.1 (List.mem_map_of_mem hkv)).2 with ⟨p, hp, -⟩ | ⟨-, hstar⟩
    · rw [hnames] at hp
      cases hp
    · rw [hk] at hstar
      cases hstar
  · rintro ⟨rfl, rfl⟩
    exact ⟨.inl (Nat.zero_le _), nofun⟩

/-- The arguments that have places are bound. Binding fails for the parameters that neither they nor
defaults fill. -/
theorem bindArguments_of_takes (hc : c.Aligned values) (ht : c.Takes args kwargs) :
    ∃ b, c.Arranged values args kwargs b ∧
      bindArguments c values args kwargs (Bound.empty c.locals.size) =
        if c.lacking (usable (c.ordinary - values.size) values) args kwargs = [] then .ok () b
        else .error (.fault (.missingArguments c.name
          (c.lacking (usable (c.ordinary - values.size) values) args kwargs))) b := by
  -- with no parameter at all the function is entered by a way of its own
  by_cases hparams : c.numParams = 0
  · obtain ⟨rfl, rfl⟩ := (hc.takes_iff_of_zero hparams).1 ht
    obtain ⟨hordinary, hv, hk⟩ := hc.of_zero hparams
    have hnames : c.paramNames = [] := by simp [Code.paramNames, hordinary]
    refine ⟨Bound.empty c.locals.size, ⟨?_, ?_, ?_⟩, ?_⟩
    · simp [Bound.empty]
    · simp [Bound.empty, Code.blank, hk]
    · intro j
      simp [Code.byKeyword, Code.byPosition, hnames, hv, hordinary]
    · rw [bindArguments, if_pos hparams, Code.lacking, hnames]
      rfl
  rw [bindArguments_start hc hparams]
  have hsize : c.blank.slots.size = c.locals.size := by simp [Code.blank, Bound.empty]
  have hempty : ∀ j, c.blank.held j = none := Bound.held_empty c.locals.size
  obtain ⟨b, hsizeb, hextra, hheld, hrun⟩ := bindOrdinary_eq hc kwargs rfl hsize hempty
      ht.positional
  have hkw := (Code.fits_iff hc kwargs hheld hextra).2 ht.keyword
  have htaken : min args.length c.positional ≤ c.ordinary :=
    (Nat.min_le_right _ _).trans c.positional_le
  obtain ⟨b', hrun', hsize', hextra', hheld'⟩ := bindNamed_eq hc hsizeb htaken hkw
  have harranged : c.Arranged values args kwargs b' := by
    refine ⟨hsize', ?_, ?_⟩
    · rw [hextra', Bound.extra_putAll, hextra]
    · intro j
      rw [hheld', Bound.held_putAll hc.names (hc.length_paramNames_le hsizeb) hkw.1, hheld]
      rfl
  rw [harranged.lacking_eq hc] at hrun'
  exact ⟨b', harranged, hrun.trans hrun'⟩

/-- Binding stops with a fault if an argument has no place. -/
theorem fails_bindArguments (hc : c.Aligned values) (ht : ¬c.Takes args kwargs) :
    Fails (bindArguments c values args kwargs) (Bound.empty c.locals.size) := by
  by_cases hparams : c.numParams = 0
  · rw [hc.takes_iff_of_zero hparams] at ht
    have hgiven : 0 < args.length + kwargs.length := by
      rw [Nat.pos_iff_ne_zero, Ne, Nat.add_eq_zero_iff, List.length_eq_zero_iff,
        List.length_eq_zero_iff]
      exact ht
    rw [Fails, bindArguments, if_pos hparams, if_pos hgiven]
    exact ⟨_, _, rfl⟩
  rw [Fails, bindArguments_start hc hparams]
  -- too many positional arguments
  by_cases hpos : args.length ≤ c.positional ∨ c.hasVarargs = true
  case neg => exact fails_bindOrdinary hc rfl hpos
  have hsize : c.blank.slots.size = c.locals.size := by simp [Code.blank, Bound.empty]
  have hempty : ∀ j, c.blank.held j = none := Bound.held_empty c.locals.size
  obtain ⟨b, hsizeb, hextra, hheld, hrun⟩ := bindOrdinary_eq hc kwargs rfl hsize hempty hpos
  rw [hrun]
  -- a keyword without a place
  exact fails_bindNamed hc hsizeb fun hkw =>
    ht ⟨hpos, (Code.fits_iff hc kwargs hheld hextra).1 hkw⟩

/-- Binding succeeds on the accepted calls, and stops with a fault on the others. -/
theorem bindArguments_cases (hc : c.Aligned values) :
    (c.Accepts values args kwargs ∧ ∃ b, c.Arranged values args kwargs b ∧
      bindArguments c values args kwargs (Bound.empty c.locals.size) = .ok () b) ∨
    (¬c.Accepts values args kwargs ∧
      Fails (bindArguments c values args kwargs) (Bound.empty c.locals.size)) := by
  rw [Code.accepts_iff hc]
  by_cases ht : c.Takes args kwargs
  case neg => exact .inr ⟨fun ha => ht ha.1, fails_bindArguments hc ht⟩
  obtain ⟨b, harranged, hrun⟩ := bindArguments_of_takes hc ht
  -- parameters that hold nothing
  by_cases hnone : c.lacking (usable (c.ordinary - values.size) values) args kwargs = []
  case neg => exact .inr ⟨fun ha => hnone ha.2, _, _, hrun.trans (if_neg hnone)⟩
  exact .inl ⟨⟨ht, hnone⟩, b, harranged, hrun.trans (if_pos hnone)⟩

namespace Code.Arranged

variable {b : Bound}

/-- The dict of `**kwargs` is made and put into the last slot of the parameters. -/
theorem install_eq (hb : c.Arranged values args kwargs b) (h : Heap) :
    b.install h =
      if c.hasKwargs then
        (b.slots.setIfInBounds (c.numParams.toNat - 1)
          (some (.dict (h.newDict (c.extraEntries kwargs)).1)),
              (h.newDict (c.extraEntries kwargs)).2)
      else (b.slots, h) := by
  have hextra := hb.extra
  unfold Bound.install
  cases hk : c.hasKwargs with
  | false =>
    simp only [blank, hk, Bool.false_eq_true, if_false, Option.map_none] at hextra
    rw [hextra]
    rfl
  | true =>
    simp only [blank, hk, if_true, Option.map_some, List.nil_append] at hextra
    rw [hextra]
    rfl

/-- The other slots are left. -/
theorem getElem?_install (hb : c.Arranged values args kwargs b) (h : Heap) {i : Nat}
    (hi : i < c.locals.size) (hother : c.hasKwargs = true → i ≠ c.numParams.toNat - 1) :
    (b.install h).1[i]? = some (b.held i) := by
  have hheld := Bound.slots_eq_some_held (hb.size.symm ▸ hi)
  rw [hb.install_eq]
  split
  · rename_i hk
    rw [Array.getElem?_setIfInBounds, if_neg (hother hk).symm, hheld]
  · exact hheld

/-- What a parameter or `*args` holds. -/
theorem held_of_none (hb : c.Arranged values args kwargs b) {j : Nat} {v : Value}
    (hkw : c.byKeyword kwargs j = none) (hpos : c.byPosition args j = some v) :
    b.held j = some v := by
  rw [hb.held, hkw, hpos, Option.none_or, Option.some_or]

/-- When the dict of `**kwargs` has been made, all values are in their places. -/
theorem placed (hb : c.Arranged values args kwargs b) (hc : c.Aligned values)
    (ha : c.Accepts values args kwargs) (h : Heap) :
    c.Placed values args kwargs h (b.install h).1 (b.install h).2 := by
  have hkinds := hc.kinds_eq
  have hslots := hc.slots
  have hle := c.positional_le
  -- a parameter is no slot of `**kwargs`
  have hparam : ∀ p < c.ordinary, (b.install h).1[p]? = some (b.held p) := by
    intro p hp
    apply hb.getElem?_install h (by omega)
    intro hk
    rw [if_pos hk] at hkinds
    omega
  have hbeyond : ∀ j, c.ordinary ≤ j → c.byKeyword kwargs j = none := by
    intro j hj
    rw [byKeyword, List.getElem?_eq_none (by rwa [hc.length_paramNames]), Option.bind_none]
  constructor
  case size =>
    rw [hb.install_eq]
    split <;> simp [hb.size]
  case positional =>
    intro p v hp hv
    have hfilled : c.FilledByPosition args p := ⟨(List.getElem?_eq_some_iff.1 hv).1, hp⟩
    rw [hparam p (by omega)]
    apply congrArg some
    apply hb.held_of_none (byKeyword_eq_none_iff.2 (ha.not_filledByKeyword hc hfilled))
    rw [byPosition, if_neg (by omega), List.getElem?_take_of_lt hp, hv]
  case surplus =>
    intro hv
    rw [if_pos hv] at hkinds
    rw [hb.getElem?_install h (by omega)]
    · exact congrArg some (hb.held_of_none (hbeyond _ (Nat.le_refl _)) (byPosition_ordinary hv))
    · intro hk
      rw [if_pos hk] at hkinds
      omega
  case keyword =>
    intro p k v hp hkv
    rw [hparam p (hc.lt_ordinary hp), hb.held, byKeyword_eq_some ha.nodup hp hkv, Option.some_or,
      Option.some_or]
  case extra =>
    intro hk
    rw [if_pos hk] at hkinds
    rw [hb.install_eq, if_pos hk]
    refine ⟨?_, rfl⟩
    rw [Array.getElem?_setIfInBounds, if_pos rfl, if_pos (by rw [hb.size]; omega)]
  case unfilled =>
    intro p hp hpos hkw
    obtain ⟨v, hv⟩ := ha.unfilled p hp hpos hkw
    rw [hparam p hp, hb.held, byKeyword_eq_none_iff.2 hkw, (byPosition_eq_none_iff hp).2 hpos,
      if_pos ⟨not_filledByPosition_iff.1 hpos, hp⟩, hc.usable_eq_some_iff.2 hv, hv.1,
          Option.none_or,
      Option.none_or]
  case others =>
    intro i hi hlt
    rw [hb.getElem?_install h hlt]
    · have hstar : ¬(i = c.ordinary ∧ c.hasVarargs = true) := by
        rintro ⟨rfl, hv⟩
        rw [if_pos hv] at hkinds
        omega
      have htake : (args.take c.positional)[i]? = none := by
        rw [List.getElem?_eq_none_iff, List.length_take]
        omega
      rw [hb.held, hbeyond i (by omega), byPosition, if_neg hstar, htake, if_neg (by omega)]
      rfl
    · intro hk
      rw [if_pos hk] at hkinds
      omega
  case heap =>
    intro hk
    rw [hb.install_eq, hk]
    rfl

end Code.Arranged

/-- Binding into empty slots succeeds on the calls that the function accepts. Then every value is in
its place, and with it the defaults of the parameters without one. Otherwise binding stops with a
fault. -/
theorem bindArguments_spec (hc : c.Consistent values) (args : List Value) (kwargs : Keywords) :
    ((∃ b, bindArguments c values args kwargs (Bound.empty c.locals.size) = .ok () b) ↔
      c.Accepts values args kwargs) ∧
    (∀ b, bindArguments c values args kwargs (Bound.empty c.locals.size) = .ok () b →
      ∀ h, c.Placed values args kwargs h (b.install h).1 (b.install h).2) ∧
    (¬c.Accepts values args kwargs →
      ∃ f b, bindArguments c values args kwargs (Bound.empty c.locals.size) =
          .error (.fault f) b) := by
  rcases bindArguments_cases hc.aligned with ⟨ha, b, hb, hrun⟩ | ⟨ha, f, b, hrun⟩
  · refine ⟨⟨fun _ => ha, fun _ => ⟨b, hrun⟩⟩, ?_, fun hnot => absurd ha hnot⟩
    intro b' hrun'
    cases hrun.symm.trans hrun'
    exact hb.placed hc.aligned ha
  · refine ⟨⟨?_, fun h => absurd h ha⟩, ?_, fun _ => ⟨f, b, hrun⟩⟩
    · rintro ⟨b', hrun'⟩
      cases hrun.symm.trans hrun'
    · intro b' hrun'
      cases hrun.symm.trans hrun'

end Arguments

/-- The code of `def f(a, b=2, *c, d, e=5, **f)`. -/
def Code.motley : Code :=
  { (default : Code) with
    name := "f"
    locals := #[⟨"a", ⟨1, 7⟩⟩, ⟨"b", ⟨1, 10⟩⟩, ⟨"d", ⟨1, 19⟩⟩, ⟨"e", ⟨1, 22⟩⟩, ⟨"c", ⟨1, 16⟩⟩,
      ⟨"f", ⟨1, 29⟩⟩]
    numParams := 6, numKwonly := 2, hasVarargs := true, hasKwargs := true }

/-- The defaults of `Code.motley`. -/
def Code.motleyDefaults : Array Value := #[.int 2, .mandatory, .int 5]

theorem Code.consistent_motley : motley.Consistent motleyDefaults where
  slots := by decide
  kinds := by decide
  names := by decide
  covered := by decide
  defaults := by decide
  mandatory := by
    intro p hp
    match p with
    | 0 => cases hp
    | 1 => cases hp
    | p + 2 => exact Nat.le_add_left 2 p

/-- In `f(1, 2, 3, 4, d=0, z=9, e=7)` the surplus arguments go to `*c` and `**f`. -/
theorem bindArguments_spec_motley :
    let args := [.int 1, .int 2, .int 3, .int 4]
    let kwargs := [("d", .int 0), ("z", .int 9), ("e", .int 7)]
    Code.motley.Consistent Code.motleyDefaults ∧
      Code.motley.Accepts Code.motleyDefaults args kwargs ∧
      ∃ b, bindArguments Code.motley Code.motleyDefaults args kwargs (Bound.empty 6) = .ok () b ∧
        b.slots = #[some (.int 1), some (.int 2), some (.int 0), some (.int 7),
          some (.tuple [.int 3, .int 4]), none] ∧
        ∀ h, Code.motley.Placed Code.motleyDefaults args kwargs h (b.install h).1
            (b.install h).2 := by
  intro args kwargs
  obtain ⟨haccepts, hplaced, -⟩ := bindArguments_spec Code.consistent_motley args kwargs
  exact ⟨Code.consistent_motley, haccepts.1 ⟨_, rfl⟩, _, rfl, rfl, hplaced _ rfl⟩

/-- A keyword for a parameter that has a positional argument does not go to `**f`: the call
`f(1, a=2, d=3)` is refused, though every keyword is the only one of its name. -/
theorem bindArguments_filled_twice :
    let args := [.int 1]
    let kwargs := [("a", .int 2), ("d", .int 3)]
    Code.motley.Consistent Code.motleyDefaults ∧
      (args.length ≤ Code.motley.positional ∨ Code.motley.hasVarargs = true) ∧
      (∀ k ∈ kwargs.map Prod.fst,
        (∃ p, Code.motley.paramNames[p]? = some k ∧ ¬Code.motley.FilledByPosition args p ∧
          (kwargs.map Prod.fst).count k = 1) ∨
        (Code.motley.hasKwargs = true ∧ (kwargs.map Prod.fst).count k = 1)) ∧
      (∀ p < Code.motley.ordinary, ¬Code.motley.FilledByPosition args p →
        ¬Code.motley.FilledByKeyword kwargs p →
        ∃ v, Code.motley.default? Code.motleyDefaults p = some v ∧ v ≠ .mandatory) ∧
      ∃ b, bindArguments Code.motley Code.motleyDefaults args kwargs (Bound.empty 6) =
        .error (.fault (.repeatedArgument "f" "a")) b := by
  intro args kwargs
  refine ⟨Code.consistent_motley, .inl (by decide), ?_, ?_, _, rfl⟩
  · intro k hk
    have hsole : ∀ k ∈ kwargs.map Prod.fst, (kwargs.map Prod.fst).count k = 1 := by decide
    exact .inr ⟨rfl, hsole k hk⟩
  · intro p hp hpos hkw
    match p with
    | 0 => exact absurd ⟨by decide, by decide⟩ hpos
    | 1 => exact ⟨.int 2, rfl, nofun⟩
    | 2 => exact absurd ⟨"d", by decide, by decide⟩ hkw
    | 3 => exact ⟨.int 5, rfl, nofun⟩
    | p + 4 => exact absurd hp (Nat.not_lt.2 (Nat.le_add_left 4 p))

end Starlark
