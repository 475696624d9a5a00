import Starlark.Proofs.Machine.Binding

/-!
# Parameter lists in legal order

A `Signature` is a parameter list in legal order, told apart by what its parameters take. The code
of a function with such a list counts its parameters as the signature does
(`Signature.Declares.describes_compiled`), and the defaults that are packed with the function belong
to its last parameters, so that each parameter is bound to its own
(`Signature.Describes.usable_eq`).
-/

set_option autoImplicit false

namespace Starlark

/-! ## Functions -/

namespace Function

/-- The name of a function. -/
def name : Function → String
  | .mk name .. => name

/-- The parameters of a function. -/
def params : Function → List Param
  | .mk _ _ params .. => params

/-- The locals of a function. -/
def locals : Function → List Binding
  | .mk _ _ _ _ locals .. => locals

/-- The free variables of a function. -/
def freeVars : Function → List Binding
  | .mk _ _ _ _ _ freeVars .. => freeVars

end Function

/-- A parameter that takes a keyword, with its default if it has one. -/
def Param.ofDefault : Ident × Option Expr → Param
  | (id, none) => .required id
  | (id, some x) => .optional id x

/-- A parameter with or without default takes a slot, and no rest. -/
theorem Param.kind_ofDefault (x : Ident × Option Expr) :
    (ofDefault x).takesSlot = true ∧ (ofDefault x).isVarargs = false ∧
      (ofDefault x).isKwargs = false := by
  obtain ⟨id, _ | d⟩ := x <;> exact ⟨rfl, rfl, rfl⟩

/-- Parameters take slots one after another. -/
theorem Param.slots_append (xs ys : List Param) : slots (xs ++ ys) = slots xs + slots ys := by
  simp [slots]

theorem Param.slots_map {α : Type} {f : α → Param} (hf : ∀ x, (f x).takesSlot = true)
    {xs : List α} :
    slots (xs.map f) = xs.length := by
  rw [slots, List.filter_eq_self.2, List.length_map]
  intro q hq
  obtain ⟨x, -, rfl⟩ := List.mem_map.1 hq
  exact hf x

/-- The parameters that have a place among the packed defaults of a function, with their
defaults. -/
def Param.packed : List Param → (afterStar : Bool) → List (Ident × Option Expr)
  | [], _ => []
  | .optional id x :: rest, afterStar => (id, some x) :: packed rest afterStar
  | .required id :: rest, true => (id, none) :: packed rest true
  | .required _ :: rest, false => packed rest false
  | _ :: rest, _ => packed rest true

/-- As many defaults are packed as are counted. -/
theorem Param.length_packed (params : List Param) (afterStar : Bool) :
    (packed params afterStar).length = defaults params afterStar := by
  induction params generalizing afterStar with
  | nil => rfl
  | cons q rest ih => cases q <;> cases afterStar <;> simp [packed, defaults, ih]

/-- The default that a value stands for: the mandatory mark stands for none. -/
def Value.asDefault : Value → Option Value
  | .mandatory => none
  | v => some v

/-- The default of a parameter, where the values of the defaults are known that the parameters
have. -/
def supply (ds : List (Option Value)) (i : Nat) : Option Value := ds[i]?.join.bind Value.asDefault

/-! ## Signatures -/

/-- A parameter list in legal order: required parameters, then optional ones, then a star, bare or
of `*args`, with the parameters behind it that take keywords only, and at last `**kwargs`. -/
structure Signature where
  required : List Ident
  optional : List (Ident × Expr)
  starred : Option (Option Ident × List (Ident × Option Expr))
  kwargs : Option Ident

namespace Signature

/-- The keyword-only parameters. -/
def keyword (σ : Signature) : List (Ident × Option Expr) := (σ.starred.map Prod.snd).getD []

/-- Whether there is a parameter `*args`. -/
def hasVarargs (σ : Signature) : Bool := (σ.starred.bind Prod.fst).isSome

/-- The parameter list. -/
def params (σ : Signature) : List Param :=
  σ.required.map Param.required ++ (σ.optional.map (fun x => Param.optional x.1 x.2) ++
    ((match σ.starred with
      | none => []
      | some (args, keyword) => args.elim .star .varargs :: keyword.map Param.ofDefault) ++
    (σ.kwargs.map Param.kwargs).toList))

/-- The parameters that have places among the packed defaults. -/
def packed (σ : Signature) : List (Ident × Option Expr) :=
  σ.optional.map (fun x => (x.1, some x.2)) ++ σ.keyword

/-- The parameters besides `*args` and `**kwargs`, with the expressions of their defaults. -/
def ordinary (σ : Signature) : List (Ident × Option Expr) :=
  σ.required.map (fun id => (id, none)) ++ σ.packed

/-- The names of the parameters besides `*args` and `**kwargs`. -/
def names (σ : Signature) : List String := σ.ordinary.map fun x => x.1.name

/-- A function declares the parameters of a signature. The ordinary ones have names of their own,
and are the first of its locals. -/
structure Declares (σ : Signature) (f : Function) : Prop where
  params : f.params = σ.params
  locals : (f.locals.take σ.ordinary.length).map Binding.name = σ.names
  names : σ.names.Nodup

/-- Code has the parameters of a signature. -/
structure Describes (σ : Signature) (c : Code) : Prop where
  ordinary : c.ordinary = σ.ordinary.length
  positional : c.positional = σ.required.length + σ.optional.length
  names : c.paramNames = σ.names
  varargs : c.hasVarargs = σ.hasVarargs
  kwargs : c.hasKwargs = σ.kwargs.isSome

variable (σ : Signature)

/-! ### Counting -/

/-- Ordinary parameters and those for the rest take slots. -/
theorem slots_params : Param.slots σ.params =
    σ.ordinary.length + (if σ.hasVarargs then 1 else 0) + (if σ.kwargs.isSome then 1 else 0) := by
  have hrequired : Param.slots (σ.required.map Param.required) = σ.required.length :=
    Param.slots_map fun _ => rfl
  have hoptional : Param.slots (σ.optional.map fun x => Param.optional x.1 x.2) =
      σ.optional.length :=
    Param.slots_map fun _ => rfl
  have hkeyword : ∀ xs : List (Ident × Option Expr), Param.slots (xs.map Param.ofDefault) =
      xs.length :=
    fun _ => Param.slots_map fun x => (Param.kind_ofDefault x).1
  have hstar : ∀ rest, Param.slots (.star :: rest) = Param.slots rest := fun _ => rfl
  have hvarargs : ∀ id rest, Param.slots (.varargs id :: rest) = Param.slots rest + 1 :=
    fun _ _ => rfl
  have hkwargs : Param.slots (σ.kwargs.map Param.kwargs).toList =
      if σ.kwargs.isSome then 1 else 0 := by
    cases σ.kwargs <;> rfl
  rw [params, Param.slots_append, Param.slots_append, Param.slots_append, hrequired,
      hoptional, hkwargs,
    ordinary, packed, keyword, hasVarargs, List.length_append, List.length_append, List.length_map,
    List.length_map, ← Nat.add_assoc, ← Nat.add_assoc]
  congr 1
  -- no star at all, a bare one, which takes no slot, and one that packs the rest
  obtain _ | ⟨_ | args, keyword⟩ := σ.starred
  · rfl
  · have hpart := (hstar _).trans (hkeyword keyword)
    simp only [Option.elim, Option.map_some, Option.getD_some, Option.bind_some, Option.isSome_none]
    rw [hpart]
    simp [Nat.add_assoc]
  · have hpart := (hvarargs args _).trans (congrArg (· + 1) (hkeyword keyword))
    simp only [Option.elim, Option.map_some, Option.getD_some, Option.bind_some, Option.isSome_some]
    rw [hpart]
    simp [Nat.add_assoc]

/-- Parameters behind `*` are keyword-only. -/
theorem kwonly_params : Param.kwonly σ.params false = σ.keyword.length := by
  have hrequired : ∀ (xs : List Ident) (rest : List Param),
      Param.kwonly (xs.map Param.required ++ rest) false = Param.kwonly rest false := by
    intro xs rest
    induction xs with
    | nil => rfl
    | cons x xs ih => simpa [Param.kwonly] using ih
  have hoptional : ∀ (xs : List (Ident × Expr)) (rest : List Param),
      Param.kwonly (xs.map (fun x => Param.optional x.1 x.2) ++ rest) false =
        Param.kwonly rest false := by
    intro xs rest
    induction xs with
    | nil => rfl
    | cons x xs ih => simpa [Param.kwonly] using ih
  -- the flag says that a star has been passed, and only from there on is a parameter counted
  have hkeyword : ∀ (xs : List (Ident × Option Expr)) (kwargs : Option Ident),
      Param.kwonly (xs.map Param.ofDefault ++ (kwargs.map Param.kwargs).toList) true =
          xs.length := by
    intro xs kwargs
    induction xs with
    | nil => cases kwargs <;> rfl
    | cons x xs ih => obtain ⟨id, _ | d⟩ := x <;> simpa [Param.ofDefault, Param.kwonly] using ih
  rw [params, hrequired, hoptional]
  obtain ⟨required, optional, _ | ⟨_ | args, keyword⟩, kwargs⟩ := σ
  · cases kwargs <;> rfl
  · exact hkeyword keyword kwargs
  · exact hkeyword keyword kwargs

theorem any_isVarargs : σ.params.any Param.isVarargs = σ.hasVarargs := by
  have hkeyword : ∀ xs : List (Ident × Option Expr),
      (xs.map Param.ofDefault).any Param.isVarargs = false := by
    intro xs
    rw [List.any_map, List.any_eq_false]
    exact fun x _ => by simp [(Param.kind_ofDefault x).2.1]
  obtain ⟨required, optional, _ | ⟨_ | args, keyword⟩, _ | kwargs⟩ := σ <;>
    simp [params, hasVarargs, Param.isVarargs, hkeyword]

theorem any_isKwargs : σ.params.any Param.isKwargs = σ.kwargs.isSome := by
  have hkeyword : ∀ xs : List (Ident × Option Expr),
      (xs.map Param.ofDefault).any Param.isKwargs = false := by
    intro xs
    rw [List.any_map, List.any_eq_false]
    exact fun x _ => by simp [(Param.kind_ofDefault x).2.2]
  obtain ⟨required, optional, _ | ⟨_ | args, keyword⟩, _ | kwargs⟩ := σ <;>
    simp [params, Param.isKwargs, hkeyword]

/-- The defaults of a signature are packed in order. -/
theorem packed_params : Param.packed σ.params false = σ.packed := by
  have hrequired : ∀ (xs : List Ident) (rest : List Param),
      Param.packed (xs.map Param.required ++ rest) false = Param.packed rest false := by
    intro xs rest
    induction xs with
    | nil => rfl
    | cons x xs ih => simpa [Param.packed] using ih
  -- a default before the star is packed as one after it is
  have hoptional : ∀ (xs : List (Ident × Expr)) (rest : List Param),
      Param.packed (xs.map (fun x => Param.optional x.1 x.2) ++ rest) false =
        xs.map (fun x => (x.1, some x.2)) ++ Param.packed rest false := by
    intro xs rest
    induction xs with
    | nil => rfl
    | cons x xs ih => simpa [Param.packed] using ih
  have hkeyword : ∀ (xs : List (Ident × Option Expr)) (kwargs : Option Ident),
      Param.packed (xs.map Param.ofDefault ++ (kwargs.map Param.kwargs).toList) true = xs := by
    intro xs kwargs
    induction xs with
    | nil => cases kwargs <;> rfl
    | cons x xs ih => obtain ⟨id, _ | d⟩ := x <;> simpa [Param.ofDefault, Param.packed] using ih
  rw [params, hrequired, hoptional, packed]
  congr 1
  obtain ⟨required, optional, _ | ⟨_ | args, keyword⟩, kwargs⟩ := σ
  · cases kwargs <;> rfl
  · exact hkeyword keyword kwargs
  · exact hkeyword keyword kwargs

/-! ### Compiled functions -/

variable {σ} {f : Function}

/-- The code of a function has the parameters that the function declares. -/
theorem Declares.describes_compiled (hd : σ.Declares f) (hcounted : f.Counted) (a : Assembled) :
    σ.Describes (f.compiled a) := by
  obtain ⟨name, pos, params, body, locals, freeVars, numKwonly, hasVarargs, hasKwargs⟩ := f
  obtain ⟨hparams, hlocals, -⟩ := hd
  obtain ⟨hlt, -, hkwonly, hvarargs, hkwargs⟩ := hcounted
  simp only [Function.params, Function.locals] at hparams hlocals
  subst hparams
  rw [any_isVarargs] at hvarargs
  rw [any_isKwargs] at hkwargs
  rw [kwonly_params] at hkwonly
  subst hvarargs hkwargs
  have hslots : (UInt32.ofNat (Param.slots σ.params)).toNat = Param.slots σ.params := by
    rw [UInt32.toNat_ofNat', Nat.mod_eq_of_lt hlt]
  -- what is not `*args` or `**kwargs` is left of the slots
  have hordinary : ((Function.mk name pos σ.params body locals freeVars numKwonly σ.hasVarargs
      σ.kwargs.isSome).compiled a).ordinary = σ.ordinary.length := by
    show (UInt32.ofNat (Param.slots σ.params)).toNat - (if σ.kwargs.isSome then 1 else 0) -
      (if σ.hasVarargs then 1 else 0) = _
    rw [hslots, slots_params]
    omega
  refine ⟨hordinary, ?_, ?_, rfl, rfl⟩
  · rw [Code.positional, hordinary]
    show _ - numKwonly.toNat = _
    rw [hkwonly, Signature.ordinary, packed, List.length_append, List.length_append,
      List.length_map, List.length_map]
    omega
  · rw [Code.paramNames, hordinary, ← hlocals]
    simp [Function.compiled, Assembled.toCode, Binding.decl, List.map_take, Function.comp_def]

/-! ### Defaults -/

variable {c : Code} {ds : List (Option Value)}

/-- The function has names for its parameters, and no more defaults than parameters. -/
theorem Describes.aligned (hdesc : σ.Describes c) (hcounted : c.Counted) (hnames : σ.names.Nodup)
    (hds : ds.length = σ.packed.length) :
    c.Aligned (ds.map fun d => d.getD .mandatory).toArray where
  toCounted := hcounted
  names := hdesc.names ▸ hnames
  defaults := by
    rw [hdesc.ordinary, Signature.ordinary]
    simp [hds]

/-- A parameter is bound to its own default: those that are packed belong to the last parameters. -/
theorem Describes.usable_eq (hdesc : σ.Describes c) (hds : ds.length = σ.packed.length) :
    BindM.usable (c.ordinary - (ds.map fun d => d.getD .mandatory).toArray.size)
      (ds.map fun d => d.getD .mandatory).toArray =
        supply (List.replicate σ.required.length none ++ ds) := by
  have hfirst : c.ordinary - (ds.map fun d => d.getD .mandatory).toArray.size =
      σ.required.length := by
    rw [hdesc.ordinary, Signature.ordinary]
    simp [hds]
  funext i
  rw [hfirst, BindM.usable, supply]
  by_cases hi : i < σ.required.length
  · rw [if_pos hi, List.getElem?_append_left (by simpa using hi),
      List.getElem?_replicate, if_pos hi]
    rfl
  · -- behind the required parameters, each has its place among the packed values
    rw [if_neg hi, List.getElem?_append_right (by simpa using hi), List.length_replicate]
    simp only [List.getElem?_toArray, List.getElem?_map]
    cases ds[i - σ.required.length]? with
    | none => rfl
    | some d =>
      cases d with
      | none => rfl
      | some v => cases v <;> rfl

end Signature

end Starlark
