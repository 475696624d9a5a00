import Starlark.Proofs.Direct.Operands

/-!
# Sums

A sum is lowered with its last summand pending, so that literals next to each other can be joined.
`Sum.Pending` says what the pending part has on the stack and how the value of the sum is finished
from there; `Lowered.Values` that an expression is computed, as the first or a further summand of a
sum and as a test.

Joining string and bytes literals changes nothing. Joining two displays does: the elements of the
second are evaluated before the first is added. Such sums are left out.
-/

set_option autoImplicit false

namespace Starlark

/-- The display that is pending. -/
def Sum.display? : Sum → Option Display
  | .list _ _ => some .list
  | .tuple _ _ => some .tuple
  | _ => none

/-! ## Pending summands -/

/-- The last summand is the only one, or it is added to the value below it. -/
inductive Adding : Option Position → List Value → (Value → Eval Value) → Prop where
  | first : Adding none [] pure
  | further (pos : Position) (u : Value) :
      Adding (some pos) [u] fun v => Eval.op (Op.binary .plus u v)

/-- A sum has values on the stack, and is finished by an evaluation. -/
inductive Sum.Pending : Sum → List Value → Eval Value → Prop where
  | settled (v : Value) : Pending .settled [v] (pure v)
  | str (text : String) {plus : Option Position} {us : List Value} {k : Value → Eval Value} :
      Adding plus us k → Pending (.str text plus) us (k (.str text))
  | bytes (bs : List UInt8) {plus : Option Position} {us : List Value} {k : Value → Eval Value} :
      Adding plus us k → Pending (.bytes bs plus) us (k (.bytes bs))
  | list (vs : List Value) {plus : Option Position} {us : List Value} {k : Value → Eval Value} :
      Adding plus us k → Pending (.list vs.length plus) (vs.reverse ++ us)
        (Eval.op (Op.make fun h => h.newList vs.toArray) >>= k)
  | tuple (vs : List Value) {plus : Option Position} {us : List Value} {k : Value → Eval Value} :
      Adding plus us k → Pending (.tuple vs.length plus) (vs.reverse ++ us) (k (.tuple vs))

/-- Adding two strings one after the other is adding both at once. -/
theorem Adding.str_append {plus : Option Position} {us : List Value} {k : Value → Eval Value}
    (h : Adding plus us k) (a b : String) :
    (do Eval.op (Op.binary .plus (← k (.str a)) (.str b))) = k (.str (a ++ b)) := by
  cases h with
  | first => rfl
  | further pos u =>
    funext s
    cases u with
    | str c =>
      show EStateM.Result.ok (Value.str (c ++ a ++ b)) s = .ok (Value.str (c ++ (a ++ b))) s
      rw [String.append_assoc]
    | _ => rfl

/-- Bytes may be joined before they are added. -/
theorem Adding.bytes_append {plus : Option Position} {us : List Value} {k : Value → Eval Value}
    (h : Adding plus us k) (a b : List UInt8) :
    (do Eval.op (Op.binary .plus (← k (.bytes a)) (.bytes b))) = k (.bytes (a ++ b)) := by
  cases h with
  | first => rfl
  | further pos u =>
    funext s
    cases u with
    | bytes c =>
      show EStateM.Result.ok (Value.bytes (c ++ a ++ b)) s = .ok (Value.bytes (c ++ (a ++ b))) s
      rw [List.append_assoc]
    | _ => rfl

variable {p : Program} {predeclared : String → Prop} {R : Running p predeclared}
    {us st : List Value}

namespace Lowering

/-- What is on the stack is added to what is below it. -/
theorem performs_addAt {plus : Option Position} {k : Value → Eval Value} (h : Adding plus us k)
    (v : Value) : (addAt plus).Performs R none (v :: (us ++ st)) (k v) (· :: st) := by
  cases h with
  | first => exact .skip rfl
  | further pos u =>
    rintro loops q lo q' hi its s ⟨_, _, ⟨rfl, rfl⟩, hinsn, rfl, rfl⟩ hv
    exact hv.act hinsn (.binary rfl u v st)

/-- A sum that is pending is settled into a value. -/
theorem performs_settle {sum : Sum} {m : Eval Value} (h : sum.Pending us m) :
    (settle sum).Performs R none (us ++ st) m (· :: st) := by
  cases h with
  | settled v => exact .skip rfl
  | str text hadd =>
    rintro loops q lo q' hi its s ⟨_, _, hat, hatp⟩ hv
    exact performs_addAt hadd _ hatp (hv.const hat)
  | bytes bs hadd =>
    rintro loops q lo q' hi its s ⟨_, _, hat, hatp⟩ hv
    exact performs_addAt hadd _ hatp (hv.const hat)
  | list vs hadd =>
    rintro loops q lo q' hi its s ⟨_, _, hat, hatp⟩ hv
    rw [List.append_assoc] at hv
    exact (hv.makeList hat).bind fun v s hv => performs_addAt hadd v hatp hv
  | tuple vs hadd =>
    rintro loops q lo q' hi its s ⟨_, _, hat, hatp⟩ hv
    rw [List.append_assoc] at hv
    exact performs_addAt hadd _ hatp (hv.makeTuple hat)

/-- A run that comes to where a plan stands, with the given values on the stack, does there what an
evaluation does, up to the part that is pending then. -/
def Pends (R : Running p predeclared) (x : Plan × Sum) (us : List Value) (m : Eval Value) : Prop :=
  ∀ ⦃β : Type⦄ ⦃k : Value → Eval β⦄ ⦃P : β → Scene → Prop⦄ ⦃st loops q lo q' hi its s⦄,
    x.1.At p.pool R.code.graph loops q lo q' hi → R.Visits q (us ++ st) its s →
    (∀ us m s, x.2.Pending us m → R.Visits q' (us ++ st) its s →
      R.Shows loops none its P ((m >>= k) s)) →
    R.Shows loops none its P ((m >>= k) s)

variable {x : Plan × Sum} {m : Eval Value}

/-- What is pending is finished. -/
theorem Pends.performs (h : Pends R x [] m) (st : List Value) :
    (settled x).Performs R none st m (· :: st) := by
  rintro loops q lo q' hi its s ⟨_, _, hat, hats⟩ hv
  have hend := h (k := pure) (P := fun v s => R.Visits q' (v :: st) its s) hat hv
    fun us n s hn hv => by
      rw [bind_pure]
      exact performs_settle hn hats hv
  rwa [bind_pure] at hend

/-- Nothing is pending. -/
theorem Pends.of_performs {plan : Plan}
    (h : ∀ st, plan.Performs R none (us ++ st) m (· :: st)) : Pends R (plan, .settled) us m := by
  intro β k P st loops q lo q' hi its s hat hv hk
  refine (h st hat hv).bind fun v s hv => ?_
  have hnext := hk [v] (pure v) s (.settled v) hv
  rwa [pure_bind] at hnext

/-- A sum is finished, and a value is to be added to it. -/
theorem pends_settle {sum sum' : Sum} {w : Value} (hm : sum.Pending us m)
    (hw : ∀ v, sum'.Pending [v] (Eval.op (Op.binary .plus v w))) :
    Pends R (settle sum, sum') us (do Eval.op (Op.binary .plus (← m) (← pure w))) := by
  intro β k P st loops q lo q' hi its s hat hv hk
  simp only [pure_bind, bind_assoc]
  exact (performs_settle hm hat hv).bind fun v s hv => hk [v] _ s (hw v) hv

/-- A run that comes to where a plan stands pushes values that an evaluation gives, as many as are
expected. -/
def Pushes (R : Running p predeclared) (plan : Plan) (n : Nat) (m : Eval (List Value)) : Prop :=
  ∀ ⦃st loops q lo q' hi its s⦄, plan.At p.pool R.code.graph loops q lo q' hi →
    R.Visits q st its s → R.Shows loops none its
      (fun vs s => vs.length = n ∧ R.Visits q' (vs.reverse ++ st) its s) (m s)

end Lowering

open Lowering

namespace Lowered

/-- An expression is computed: as the first or a further summand, and as a test. A further summand
must not be joined to a display. -/
structure Values (R : Running p predeclared) (l : Lowered) (d : Option Display) (m : Eval Value) :
    Prop where
  first : Pends R (l.part none) [] m
  further : ∀ {sum : Sum} {us : List Value} {n : Eval Value} (pos : Position), sum.Pending us n →
    Display.Apart d sum.display? →
    Pends R (l.part (some (sum, pos))) us (do Eval.op (Op.binary .plus (← n) (← m)))
  test : ∀ st, l.test.Decides R st (m >>= Eval.truth)

variable {l : Lowered} {d : Option Display} {m : Eval Value}

theorem Values.value (h : l.Values R d m) (st : List Value) :
    l.value.Performs R none st m (· :: st) :=
  h.first.performs st

/-- An expression without display. -/
theorem values_plain {plan : Plan} (h : ∀ st, plan.Performs R none st m (· :: st)) :
    (plain plan).Values R none m where
  first := .of_performs h
  further := by
    intro sum us n pos hn _
    refine .of_performs fun st => ?_
    rintro loops q lo q' hi its s ⟨_, _, ⟨_, _, hats, hat⟩, hatp⟩ hv
    refine (performs_settle hn hats hv).bind fun v s hv => ?_
    refine (h _ hat hv).bind fun w s hv => ?_
    exact performs_addAt (.further pos v) w hatp hv
  test := fun st => .on (h st)

/-- A text is pending until it is known whether another one follows. -/
theorem values_str (text : String) : (str text).Values R none (pure (.str text)) where
  first := by
    rintro β k P st loops q lo q' hi its s ⟨rfl, rfl⟩ hv hk
    exact hk [] _ s (.str text .first) hv
  further := by
    intro sum us n pos hn _
    have hlast : ∀ v, (Sum.str text (some pos)).Pending [v]
        (Eval.op (Op.binary .plus v (.str text))) :=
      fun v => .str text (.further pos v)
    -- a string before this one is joined with it; any other summand is settled first
    cases hn with
    | str before hadd =>
      rintro β k P st loops q lo q' hi its s ⟨rfl, rfl⟩ hv hk
      simp only [pure_bind]
      rw [hadd.str_append]
      exact hk _ _ s (.str (before ++ text) hadd) hv
    | settled v => exact pends_settle (.settled v) hlast
    | bytes bs hadd => exact pends_settle (.bytes bs hadd) hlast
    | list vs hadd => exact pends_settle (.list vs hadd) hlast
    | tuple vs hadd => exact pends_settle (.tuple vs hadd) hlast
  test := fun _ => .on fun _ _ _ _ _ _ _ hat hv => hv.const hat

/-- Bytes are pending until it is known whether more follow. -/
theorem values_bytes (bs : List UInt8) : (bytes bs).Values R none (pure (.bytes bs)) where
  first := by
    rintro β k P st loops q lo q' hi its s ⟨rfl, rfl⟩ hv hk
    exact hk [] _ s (.bytes bs .first) hv
  further := by
    intro sum us n pos hn _
    have hlast : ∀ v, (Sum.bytes bs (some pos)).Pending [v]
        (Eval.op (Op.binary .plus v (.bytes bs))) :=
      fun v => .bytes bs (.further pos v)
    -- bytes before these are joined with them; any other summand is settled first
    cases hn with
    | bytes before hadd =>
      rintro β k P st loops q lo q' hi its s ⟨rfl, rfl⟩ hv hk
      simp only [pure_bind]
      rw [hadd.bytes_append]
      exact hk _ _ s (.bytes (before ++ bs) hadd) hv
    | settled v => exact pends_settle (.settled v) hlast
    | str text hadd => exact pends_settle (.str text hadd) hlast
    | list vs hadd => exact pends_settle (.list vs hadd) hlast
    | tuple vs hadd => exact pends_settle (.tuple vs hadd) hlast
  test := fun _ => .on fun _ _ _ _ _ _ _ hat hv => hv.const hat

section

variable {plan : Plan} {n : Nat} {elems : Eval (List Value)}

/-- A display of values is made when the pending sum is finished. -/
def Makes (n : Nat) (pending : Option Position → Sum) (make : List Value → Eval Value) : Prop :=
  ∀ ⦃vs plus us k⦄, List.length vs = n → Adding plus us k →
    (pending plus).Pending (vs.reverse ++ us) (make vs >>= k)

variable {pending : Option Position → Sum} {make : List Value → Eval Value}

/-- The elements of a display are on the stack, and the display is pending. -/
theorem pends_first (hplan : Pushes R plan n elems) (hmake : Makes n pending make) :
    Pends R (plan, pending none) [] (elems >>= make) := by
  intro β k P st loops q lo q' hi its s hat hv hk
  rw [bind_assoc]
  refine (hplan hat hv).bind fun vs s ⟨hlen, hv⟩ => ?_
  have hnext := hk _ _ s (hmake hlen .first) (by simpa using hv)
  rwa [bind_pure] at hnext

/-- The elements of a display that is not joined to another. -/
theorem pends_further (hplan : Pushes R plan n elems) (hmake : Makes n pending make) {sum : Sum}
    {m : Eval Value} (hm : sum.Pending us m) (pos : Position) :
    Pends R (settle sum ++ plan, pending (some pos)) us
      (do Eval.op (Op.binary .plus (← m) (← elems >>= make))) := by
  rintro β k P st loops q lo q' hi its s ⟨_, _, hats, hat⟩ hv hk
  simp only [bind_assoc]
  refine (performs_settle hm hats hv).bind fun v s hv => ?_
  refine (hplan hat hv).bind fun vs s ⟨hlen, hv⟩ => ?_
  have hnext := hk _ _ s (hmake hlen (.further pos v)) (by simpa using hv)
  rwa [bind_assoc] at hnext

/-- A list display is pending until it is known whether another one follows. -/
theorem values_list (h : Pushes R plan n elems) :
    (list n plan).Values R (some .list)
      (do let vs ← elems; Eval.op (Op.make fun heap => heap.newList vs.toArray)) where
  first := pends_first h fun vs plus us k hlen hadd => hlen ▸ .list vs hadd
  further := by
    intro sum us m pos hm hapart
    have hmake : Makes n (Sum.list n)
        fun vs => Eval.op (Op.make fun heap => heap.newList vs.toArray) :=
      fun vs plus us k hlen hadd => hlen ▸ .list vs hadd
    cases hm with
    -- two lists side by side would be one display, which is ruled out here
    | list vs hadd => exact absurd rfl (hapart _ rfl)
    | settled v => exact pends_further h hmake (.settled v) pos
    | str text hadd => exact pends_further h hmake (.str text hadd) pos
    | bytes bs hadd => exact pends_further h hmake (.bytes bs hadd) pos
    | tuple vs hadd => exact pends_further h hmake (.tuple vs hadd) pos
  test := by
    refine fun st => .on ?_
    rintro loops q lo q' hi its s ⟨_, _, hat, hatm⟩ hv
    refine (h hat hv).bind fun vs s ⟨hlen, hv⟩ => ?_
    subst hlen
    exact hv.makeList hatm

/-- A tuple display is pending until it is known whether another one follows. -/
theorem values_tuple (h : Pushes R plan n elems) :
    (tuple n plan).Values R (some .tuple) (do let vs ← elems; return .tuple vs) where
  first := pends_first h fun vs plus us k hlen hadd => by
    rw [pure_bind]
    exact hlen ▸ .tuple vs hadd
  further := by
    intro sum us m pos hm hapart
    have hmake : Makes n (Sum.tuple n) fun vs => pure (.tuple vs) := by
      intro vs plus us k hlen hadd
      rw [pure_bind]
      exact hlen ▸ .tuple vs hadd
    cases hm with
    -- likewise two tuples
    | tuple vs hadd => exact absurd rfl (hapart _ rfl)
    | settled v => exact pends_further h hmake (.settled v) pos
    | str text hadd => exact pends_further h hmake (.str text hadd) pos
    | bytes bs hadd => exact pends_further h hmake (.bytes bs hadd) pos
    | list vs hadd => exact pends_further h hmake (.list vs hadd) pos
  test := by
    refine fun st => .on ?_
    rintro loops q lo q' hi its s ⟨_, _, hat, hatm⟩ hv
    refine (h hat hv).bind fun vs s ⟨hlen, hv⟩ => ?_
    subst hlen
    exact hv.makeTuple hatm

end

/-- The summands of a sum are not displays that would be joined. -/
theorem values_plus {x y : Lowered} {dx dy : Option Display} {mx my : Eval Value}
    (hx : x.Values R dx mx) (hy : y.Values R dy my) (pos : Position)
    (hapart : Display.Apart dy (x.part none).2.display?) :
    (plus x y pos).Values R none (do Eval.op (Op.binary .plus (← mx) (← my))) := by
  have hsum : Pends R ((plus x y pos).part none) []
      (do Eval.op (Op.binary .plus (← mx) (← my))) := by
    rintro β k P st loops q lo q' hi its s ⟨_, _, hatx, haty⟩ hv hk
    have hboth := hx.first (k := fun v => do (Eval.op (Op.binary .plus v (← my))) >>= k)
      (P := P) hatx hv fun us n s hn hv => by
        have hnext := hy.further pos hn hapart haty hv hk
        simpa only [bind_assoc] using hnext
    simpa only [bind_assoc] using hboth
  have hvalue := hsum.performs
  exact ⟨hsum, (values_plain hvalue).further, (values_plain hvalue).test⟩

end Lowered

end Starlark
