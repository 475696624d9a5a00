import Mathlib.Data.List.FinRange
import Starlark.Proofs.Number.Division
import Starlark.Proofs.Operation.Progression

/-!
# Slices

A slice starts and stops where its bounds say, once they are counted from the end and clamped
(`sliceEnds_eq`). The loop in between visits one place after the other (`walk_eq`), and all of them
are places of the sequence (`slicePlace_bounds`); it also computes the place behind the last one,
which must be a word. So a slice of a list, a tuple or bytes selects the elements at these places,
in order (`slice_selects`).
-/

set_option autoImplicit false

namespace Starlark

/-! ## The ends of a slice -/

/-- A bound of a slice of `n` elements, counted from the end if it is negative, and clamped. -/
def clamped (n least most i : Int) : Int := max least (min most (if i < 0 then i + n else i))

/-- Where a slice of `n` elements starts: without a bound at the first or the last element. -/
def sliceStart (n : Nat) (lo : Option Int64) (step : Int64) : Int :=
  if 0 < step then lo.elim 0 fun i => clamped n 0 n i.toInt
  else lo.elim (n - 1) fun i => clamped n (-1) (n - 1) i.toInt

/-- Where a slice of `n` elements stops: without a bound behind the last or before the first one. -/
def sliceStop (n : Nat) (hi : Option Int64) (step : Int64) : Int :=
  if 0 < step then hi.elim n fun i => clamped n 0 n i.toInt
  else hi.elim (-1) fun i => clamped n (-1) (n - 1) i.toInt

section Ends

variable {n : Nat}

/-- A length that fits in a word is that word. -/
theorem toInt_ofNat (hn : n ≤ maxInt) : (Int64.ofNat n).toInt = n := by
  apply Int64.toInt_ofNat_of_lt
  rw [maxInt] at hn
  omega

theorem toInt_max (a b : Int64) : (max a b).toInt = max a.toInt b.toInt := by
  change (if a ≤ b then b else a).toInt = _
  split
  · rename_i h
    rw [Int64.le_iff_toInt_le] at h
    omega
  · rename_i h
    rw [Int64.le_iff_toInt_le] at h
    omega

theorem toInt_min (a b : Int64) : (min a b).toInt = min a.toInt b.toInt := by
  change (if a ≤ b then a else b).toInt = _
  split
  · rename_i h
    rw [Int64.le_iff_toInt_le] at h
    omega
  · rename_i h
    rw [Int64.le_iff_toInt_le] at h
    omega

/-- A bound is clamped without overflow, to the exact integer. -/
theorem clampBound_eq (hn : n ≤ maxInt) (least most i : Int64) :
    ∃ w, clampBound (Int64.ofNat n) least most i = some w ∧
      w.toInt = clamped n least.toInt most.toInt i.toInt := by
  have hlen := toInt_ofNat hn
  have hsign : i < 0 ↔ i.toInt < 0 := by
    rw [Int64.lt_iff_toInt_lt, Int64.toInt_zero]
  rw [clampBound, clamped]
  by_cases hneg : i < 0
  · -- counting from the end does not overflow
    have hin : Word.inRange (i.toInt + (Int64.ofNat n).toInt) = true := by
      have hlo := i.le_toInt
      rw [hsign] at hneg
      rw [maxInt] at hn
      rw [Word.inRange_iff, hlen]
      omega
    have hadd := Word.toInt_of_bmod (Int64.toInt_add i (Int64.ofNat n)) hin
    have hword : Word.add? i (Int64.ofNat n) = some (i + Int64.ofNat n) :=
      (Word.narrow?_eq_some_iff _ _).2 hadd
    rw [if_pos hneg, if_pos (hsign.1 hneg), hword]
    refine ⟨_, rfl, ?_⟩
    rw [toInt_max, toInt_min, hadd, hlen]
  · rw [if_neg hneg, if_neg (mt hsign.2 hneg)]
    refine ⟨_, rfl, ?_⟩
    rw [toInt_max, toInt_min]

/-- A bound that is left out has its default; one that is there is clamped. -/
theorem elim_clampBound_eq (hn : n ≤ maxInt) (least most default : Int64) (bound : Option Int64) :
    ∃ w, bound.elim (some default) (clampBound (Int64.ofNat n) least most) = some w ∧
      w.toInt = bound.elim default.toInt fun i => clamped n least.toInt most.toInt i.toInt := by
  cases bound with
  | none => exact ⟨default, rfl, rfl⟩
  | some i => exact clampBound_eq hn least most i

/-- The ends of a slice are computed without overflow, and they are the exact ones. -/
theorem sliceEnds_eq (hn : n ≤ maxInt) (lo hi : Option Int64) (step : Int64) :
    ∃ start stop, sliceEnds (Int64.ofNat n) lo hi step = some (start, stop) ∧
      start.toInt = sliceStart n lo step ∧ stop.toInt = sliceStop n hi step := by
  have hlen := toInt_ofNat hn
  rw [sliceEnds, sliceStart, sliceStop]
  split
  · obtain ⟨start, hstart, hstart'⟩ := elim_clampBound_eq hn 0 (Int64.ofNat n) 0 lo
    obtain ⟨stop, hstop, hstop'⟩ := elim_clampBound_eq hn 0 (Int64.ofNat n) (Int64.ofNat n) hi
    rw [hlen] at hstart' hstop'
    refine ⟨start, stop, ?_, hstart', hstop'⟩
    rw [hstart, hstop]
    rfl
  -- backwards the bounds are clamped to one below, where the last place is computed first
  · have hin : Word.inRange ((Int64.ofNat n).toInt - (1 : Int64).toInt) = true := by
      rw [maxInt] at hn
      rw [Word.inRange_iff, hlen, Int64.toInt_one]
      omega
    have hsub := Word.toInt_of_bmod (Int64.toInt_sub (Int64.ofNat n) 1) hin
    have hlast : Word.sub? (Int64.ofNat n) 1 = some (Int64.ofNat n - 1) :=
      (Word.narrow?_eq_some_iff _ _).2 hsub
    rw [hlen, Int64.toInt_one] at hsub
    obtain ⟨start, hstart, hstart'⟩ :=
      elim_clampBound_eq hn (-1) (Int64.ofNat n - 1) (Int64.ofNat n - 1) lo
    obtain ⟨stop, hstop, hstop'⟩ := elim_clampBound_eq hn (-1) (Int64.ofNat n - 1) (-1) hi
    rw [hsub] at hstart' hstop'
    refine ⟨start, stop, ?_, hstart', hstop'⟩
    simp only [hlast, Option.bind_eq_bind, Option.bind_some, hstart, hstop]
    rfl

/-- A clamped bound is between the least and the most. -/
theorem clamped_bounds {n least most : Int} (h : least ≤ most) (i : Int) :
    least ≤ clamped n least most i ∧ clamped n least most i ≤ most := by
  rw [clamped]
  omega

theorem elim_clamped_bounds {n least most default : Int} (hdefault : least ≤ default)
    (hdefault' : default ≤ most) (bound : Option Int64) :
    least ≤ bound.elim default (fun i => clamped n least most i.toInt) ∧
      bound.elim default (fun i => clamped n least most i.toInt) ≤ most := by
  cases bound with
  | none => exact ⟨hdefault, hdefault'⟩
  | some i => exact clamped_bounds (Int.le_trans hdefault hdefault') i.toInt

/-- A slice moves between the first element and the place behind the last one, or downward between
the last element and the place before the first one. -/
theorem slice_bounds (n : Nat) (lo hi : Option Int64) (step : Int64) :
    (0 < step → (0 ≤ sliceStart n lo step ∧ sliceStart n lo step ≤ n) ∧
      0 ≤ sliceStop n hi step ∧ sliceStop n hi step ≤ n) ∧
    (¬0 < step → (-1 ≤ sliceStart n lo step ∧ sliceStart n lo step ≤ n - 1) ∧
      -1 ≤ sliceStop n hi step ∧ sliceStop n hi step ≤ n - 1) := by
  constructor
  · intro hup
    rw [sliceStart, if_pos hup, sliceStop, if_pos hup]
    exact ⟨elim_clamped_bounds (by omega) (by omega) lo,
      elim_clamped_bounds (by omega) (by omega) hi⟩
  · intro hdown
    rw [sliceStart, if_neg hdown, sliceStop, if_neg hdown]
    exact ⟨elim_clamped_bounds (by omega) (by omega) lo,
      elim_clamped_bounds (by omega) (by omega) hi⟩

end Ends

/-! ## The places of a slice -/

section Places

/-- The place where a slice is after `k` steps. -/
def slicePlace (n : Nat) (lo : Option Int64) (step : Int64) (k : Nat) : Int :=
  sliceStart n lo step + k * step.toInt

/-- How many places a slice selects. -/
def sliceCount (n : Nat) (lo hi : Option Int64) (step : Int64) : Nat :=
  rangeCount (sliceStart n lo step) (sliceStop n hi step) step.toInt

variable {n : Nat} {lo hi : Option Int64} {step : Int64}

/-- A place before the stop is a place of the sequence. -/
theorem slicePlace_bounds (hstep : step ≠ 0) {k : Nat} (hk : k < sliceCount n lo hi step) :
    0 ≤ slicePlace n lo step k ∧ slicePlace n lo step k < n := by
  obtain ⟨hup, hdown⟩ := slice_bounds n lo hi step
  rw [Int64.lt_iff_toInt_lt, Int64.toInt_zero] at hup hdown
  rw [slicePlace]
  rcases counted_between (Word.toInt_ne_zero hstep) hk with ⟨hpos, hplace⟩ | ⟨hneg, hplace⟩
  · have hbounds := hup hpos
    omega
  · have hbounds := hdown (Int.lt_asymm hneg)
    omega

/-- The places that a slice of `n` elements selects, in order. -/
def slicedPlaces (n : Nat) (lo hi : Option Int64) {step : Int64} (hstep : step ≠ 0) :
    List (Fin n) :=
  (List.finRange (sliceCount n lo hi step)).map fun (k : Fin (sliceCount n lo hi step)) =>
    ⟨(slicePlace n lo step k).toNat, by
      have hbounds := slicePlace_bounds hstep k.isLt
      omega⟩

/-- The places of a slice are those that counting by the step from the start meets before the
stop. -/
theorem progresses_slicedPlaces (n : Nat) (lo hi : Option Int64) (hstep : step ≠ 0) :
    Progresses (sliceStart n lo step) (sliceStop n hi step) step.toInt
      (slicedPlaces n lo hi hstep) := by
  have hlength : (slicedPlaces n lo hi hstep).length = sliceCount n lo hi step := by
    simp [slicedPlaces]
  refine ⟨?place, ?before, ?stopped⟩
  case place =>
    intro k hk
    rw [hlength] at hk
    have hbounds := slicePlace_bounds hstep hk
    simp only [slicedPlaces, List.getElem_map, List.getElem_finRange]
    exact Int.toNat_of_nonneg hbounds.1
  case before =>
    intro k hk
    rw [hlength] at hk
    exact (lt_rangeCount_iff (Word.toInt_ne_zero hstep) k).1 hk
  case stopped =>
    rw [hlength]
    exact mt (lt_rangeCount_iff (Word.toInt_ne_zero hstep) _).2 (Nat.lt_irrefl _)

end Places

/-! ## Walking -/

section Walk

variable {step : Int64}

/-- Words are compared as integers, in the direction of the step. -/
theorem before_iff {stop i : Int64} :
    Before step stop i ↔ Precedes step.toInt i.toInt stop.toInt := by
  simp only [Before, Precedes, Int64.lt_iff_toInt_lt, Int64.toInt_zero]

/-- The places from `i` on, step by step. -/
def placesFrom (i step : Int) (count : Nat) : List Nat :=
  (List.range count).map fun k : Nat => (i + k * step).toNat

theorem placesFrom_succ (i step : Int) (count : Nat) :
    placesFrom i step (count + 1) = i.toNat :: placesFrom (i + step) step count := by
  simp only [placesFrom, List.range_succ_eq_map, List.map_cons, List.map_map, Function.comp_def,
    Nat.succ_eq_add_one, add_succ_mul, Int.natCast_zero, Int.zero_mul, Int.add_zero]

/-- The loop of a slice visits the places before the stop, unless the place behind the last one is
no word. -/
theorem walk_eq (hstep : step ≠ 0) (stop i : Int64) (places : Array Nat) :
    walk hstep stop i places =
      let count := rangeCount i.toInt stop.toInt step.toInt
      if Word.inRange (i.toInt + count * step.toInt) then
        some (places ++ (placesFrom i.toInt step.toInt count).toArray)
      else none := by
  have hstep' := Word.toInt_ne_zero hstep
  fun_induction walk hstep stop i places with
  | case1 i places hi hj =>
    -- behind the ends of the words is behind the stop as well, so that there is one more place only
    rw [before_iff] at hi
    rw [Word.add?, Word.narrow?_eq_none_iff] at hj
    have hout := hj
    rw [← Bool.not_eq_true, Word.inRange_iff] at hout
    have hstop : ¬Precedes step.toInt (i.toInt + step.toInt) stop.toInt := by
      have hlo := i.le_toInt
      have hhi := i.toInt_lt
      have hlo' := stop.le_toInt
      have hhi' := stop.toInt_lt
      rw [Precedes]
      split
      · omega
      · omega
    rw [rangeCount_of_precedes hstep' hi, rangeCount_of_not_precedes hstep' hstop]
    simp [hj]
  | case2 i places hi j hj ih =>
    -- the place behind the last one is the same for the rest of the way
    rw [before_iff] at hi
    rw [Word.add?, Word.narrow?_eq_some_iff] at hj
    have hplace : i.toNatClampNeg = i.toInt.toNat := rfl
    rw [ih, hj, rangeCount_of_precedes hstep' hi]
    simp only [add_succ_mul, placesFrom_succ, hplace]
    simp
  | case3 i places hi =>
    rw [before_iff] at hi
    rw [rangeCount_of_not_precedes hstep' hi]
    simp [Word.inRange_toInt, placesFrom]

end Walk

/-! ## The elements of a slice -/

section Elements

variable {α : Type} {n : Nat} {lo hi : Option Int64} {step : Int64}

/-- As many places as the slice counts, step by step, are the places of the slice. -/
theorem placesFrom_eq (hstep : step ≠ 0) :
    placesFrom (sliceStart n lo step) step.toInt (sliceCount n lo hi step) =
      (slicedPlaces n lo hi hstep).map Fin.val := by
  simp only [placesFrom, slicedPlaces, List.map_map, Function.comp_def, slicePlace]
  rw [← List.map_coe_finRange_eq_range, List.map_map]
  rfl

/-- Elements at places in range are there. -/
theorem mapM_getElem? (elems : Array α) (places : List (Fin elems.size)) :
    (places.map Fin.val).mapM (fun i => elems[i]?) = some (places.map fun p => elems[p]) := by
  induction places with
  | nil => rfl
  | cons p places ih =>
    rw [List.map_cons, List.mapM_cons, ih]
    simp

/-- The elements that a slice selects; there are none if the place behind the last one is no
word. -/
theorem sliceOf_eq (elems : Array α) (hn : elems.size ≤ maxInt) (lo hi : Option Int64)
    (hstep : step ≠ 0) :
    sliceOf elems lo hi hstep =
      if Word.inRange (slicePlace elems.size lo step (sliceCount elems.size lo hi step)) then
        some ((slicedPlaces elems.size lo hi hstep).map fun p => elems[p])
      else none := by
  obtain ⟨start, stop, hends, hstart, hstop⟩ := sliceEnds_eq hn lo hi step
  have hplaces : slicePlaces elems.size lo hi hstep =
      if Word.inRange (slicePlace elems.size lo step (sliceCount elems.size lo hi step)) then
        some ((slicedPlaces elems.size lo hi hstep).map Fin.val).toArray
      else none := by
    -- the loop steps once beyond the last place before it stops, and that step may overflow
    rw [slicePlaces, hends]
    change walk hstep stop start #[] = _
    rw [walk_eq, hstart, hstop, ← placesFrom_eq hstep]
    simp only [Array.empty_append]
    rfl
  rw [sliceOf, hplaces]
  split
  · exact mapM_getElem? elems _
  · rfl

/-- The place behind the last one is a word unless the step leads from the last one out of the
words. -/
theorem inRange_slicePlace_iff (hn : n ≤ maxInt) (lo hi : Option Int64) (hstep : step ≠ 0) :
    Word.inRange (slicePlace n lo step (sliceCount n lo hi step)) = true ↔
      ∀ k, sliceCount n lo hi step = k + 1 → slicePlace n lo step k + step.toInt ≤ maxInt := by
  have hlo := step.le_toInt
  rw [maxInt] at *
  rw [Word.inRange_iff]
  cases hcount : sliceCount n lo hi step with
  | zero =>
    -- nothing is selected, and the start is a word
    have hstart : -1 ≤ sliceStart n lo step ∧ sliceStart n lo step ≤ n := by
      obtain ⟨hup, hdown⟩ := slice_bounds n lo hi step
      by_cases hpos : 0 < step
      · have hbounds := hup hpos
        omega
      · have hbounds := hdown hpos
        omega
    rw [slicePlace, Int.natCast_zero, Int.zero_mul, Int.add_zero]
    constructor
    · intro _ k hk
      omega
    · intro _
      omega
  | succ k =>
    -- downward a step from a place of the sequence stays in the words
    have hk : k < sliceCount n lo hi step := by omega
    have hlast := slicePlace_bounds hstep hk
    have hnext : slicePlace n lo step (k + 1) = slicePlace n lo step k + step.toInt := by
      rw [slicePlace, slicePlace, add_succ_mul]
      omega
    rw [hnext]
    constructor
    · rintro ⟨-, hhi⟩ k' hk'
      obtain rfl : k = k' := by omega
      omega
    · intro h
      have hhi := h k rfl
      omega

end Elements

/-! ## Slices of values -/

/-- The elements of a list, a tuple or bytes; those of bytes are integers. -/
def Heap.sequence? (h : Heap) : Value → Option (List Value)
  | .list r => (h.lists[r.index]?).map fun l => l.elems.toList
  | .tuple elems => some elems
  | .bytes bytes => some (bytes.map fun b => .int (Int64.ofNat b.toNat))
  | _ => none

/-- Every sequence keeps its elements. -/
def Heap.KeepsSequences (h h' : Heap) : Prop :=
  ∀ x elems, h.sequence? x = some elems → h'.sequence? x = some elems

/-- The operation gives a value of the kind `kind` with the elements `elems`. -/
def Op.Yields (op : Op Value) (h : Heap) (kind : Kind) (elems : List Value) : Prop :=
  ∃ v h', op h = .ok v h' ∧ v.kind = kind ∧ h'.sequence? v = some elems ∧ h.KeepsSequences h'

/-- The value of a bound; an absent one is `None`. -/
def Value.ofBound (bound : Option Int64) : Value := bound.elim .null .int

/-- A reference to a list of the table is to that list. -/
theorem Heap.list_eq {h : Heap} {r : ListRef} {l : ListObj} (hl : h.lists[r.index]? = some l) :
    h.list r = l := by
  rw [list, Array.getD_eq_getD_getElem?, hl]
  rfl

theorem Heap.KeepsSequences.newList (h : Heap) (elems : Array Value) :
    h.KeepsSequences (h.newList elems).2 := by
  intro x xs hx
  cases x
  case list r =>
    obtain ⟨l, hl, hxs⟩ := Option.map_eq_some_iff.1 hx
    have hr : r.index < h.lists.size := (Array.getElem?_eq_some_iff.1 hl).1
    have hsame : (h.lists.push { elems })[r.index]? = some l := by
      rw [Array.getElem?_push_lt hr, ← hl, Array.getElem?_eq_getElem hr]
    simp only [sequence?, Heap.newList, hsame]
    exact congrArg some hxs
  all_goals exact hx

theorem Op.yields_newList (h : Heap) (elems : Array Value) :
    (Op.make fun h => h.newList elems).Yields h .list elems.toList := by
  refine ⟨.list ⟨h.lists.size⟩, (h.newList elems).2, rfl, rfl, ?_, .newList h elems⟩
  simp [Heap.sequence?, Heap.newList]

theorem Op.check_ok {α : Type} {r : Except Error α} {a : α} (hr : r = .ok a) :
    Op.check (fun _ => r) = pure a := by
  subst hr
  rfl

/-- A bound is read back. -/
theorem sliceBound_ofBound (what : String) (bound : Option Int64) :
    sliceBound what (.ofBound bound) = .ok bound := by
  cases bound with
  | none => rfl
  | some i => rfl

/-- A slice with bounds and a step other than zero is a slice by that step. -/
theorem Op.slice_eq (x : Value) (lo hi : Option Int64) {step : Int64} (hstep : step ≠ 0) :
    Op.slice x (.ofBound lo) (.ofBound hi) (.int step) = Op.sliceBy x lo hi hstep := by
  have hsome : check (fun _ => sliceBound "step" (.int step)) = pure (some step) := check_ok rfl
  unfold slice
  rw [hsome, check_ok (sliceBound_ofBound _ lo),
    check_ok (sliceBound_ofBound _ hi)]
  simp only [pure_bind, Option.getD_some, dif_neg hstep]

section SliceBy

variable {lo hi : Option Int64} {step : Int64}

/-- Where the place behind the last one is a word, the elements at the places of the slice are
picked. -/
theorem Op.sliced_eq {α : Type} (xs : Array α) (hn : xs.size ≤ maxInt) (hstep : step ≠ 0)
    (hends : Word.inRange (slicePlace xs.size lo step (sliceCount xs.size lo hi step)) = true) :
    sliced xs lo hi hstep = pure ((slicedPlaces xs.size lo hi hstep).map fun p => xs[p]) := by
  rw [sliced, sliceOf_eq xs hn lo hi hstep, if_pos hends]

/-- A slice of bytes is a slice of the integers that they are. -/
theorem map_slicedPlaces {α β : Type} (f : α → β) (xs : List α) {n : Nat} (hn : n = xs.length)
    (hstep : step ≠ 0) (g : Fin n → β) (hg : ∀ p, g p = f (xs.get (p.cast hn))) :
    ((slicedPlaces xs.length lo hi hstep).map xs.get).map f =
      (slicedPlaces n lo hi hstep).map g := by
  subst hn
  rw [List.map_map]
  exact List.map_congr_left fun p _ => (hg p).symm

/-- A slice of a sequence is a sequence of the same kind, with the elements at the places of the
slice. -/
theorem Op.sliceBy_yields {h : Heap} {x : Value} {elems : List Value}
    (hx : h.sequence? x = some elems) (hlen : elems.length ≤ maxInt) (hstep : step ≠ 0)
    (hends : Word.inRange
      (slicePlace elems.length lo step (sliceCount elems.length lo hi step)) = true) :
    (sliceBy x lo hi hstep).Yields h x.kind
      ((slicedPlaces elems.length lo hi hstep).map elems.get) := by
  -- lists, tuples and bytes; a string has no sequence of values
  cases x
  case list r =>
    obtain ⟨l, hl, rfl⟩ := Option.map_eq_some_iff.1 hx
    have hrun : sliceBy (.list r) lo hi hstep h =
        make (fun h => h.newList ((slicedPlaces l.elems.size lo hi hstep).map fun p =>
          l.elems[p]).toArray) h := by
      change (sliced (h.list r).elems lo hi hstep >>= fun picked =>
        make fun h => h.newList picked.toArray) h = _
      rw [Heap.list_eq hl, sliced_eq l.elems hlen hstep hends]
      rfl
    unfold Yields
    rw [hrun]
    exact yields_newList h _
  case tuple ys =>
    cases hx
    refine ⟨.tuple ((slicedPlaces elems.length lo hi hstep).map elems.get), h, ?_, rfl, rfl,
      fun _ _ => id⟩
    rw [sliceBy, sliced_eq elems.toArray hlen hstep hends]
    rfl
  case bytes bytes =>
    cases hx
    have hsize : (bytes.map fun b => Value.int (Int64.ofNat b.toNat)).length = bytes.length :=
      List.length_map _
    refine ⟨.bytes ((slicedPlaces bytes.length lo hi hstep).map bytes.get), h, ?_, rfl, ?_,
      fun _ _ => id⟩
    · rw [hsize] at hlen hends
      rw [sliceBy, sliced_eq bytes.toArray hlen hstep hends]
      rfl
    · refine congrArg some (map_slicedPlaces _ bytes hsize hstep _ ?_)
      intro p
      simp
  all_goals cases hx

end SliceBy

/-! ## Cutting and reversing -/

namespace Op.Yields

variable {h : Heap} {kind kind' : Kind} {elems elems' : List Value}

/-- An operation on a sequence may be followed by one on the sequence that it yields. -/
theorem bind {op : Op Value} {f : Value → Op Value} (hop : op.Yields h kind elems)
    (hf : ∀ v h', v.kind = kind → h'.sequence? v = some elems → h.KeepsSequences h' →
      (f v).Yields h' kind' elems') : (op >>= f).Yields h kind' elems' := by
  obtain ⟨v, h', hrun, hkind, helems, hkeeps⟩ := hop
  obtain ⟨w, h'', hrun', hkind', helems', hkeeps'⟩ := hf v h' hkind helems hkeeps
  refine ⟨w, h'', ?_, hkind', helems', fun x xs hx => hkeeps' x xs (hkeeps x xs hx)⟩
  change EStateM.bind op f h = _
  simp only [EStateM.bind, hrun]
  exact hrun'

end Op.Yields

/-- Two sequences of one kind are put one behind the other. -/
theorem Op.plus_yields {h : Heap} {x y : Value} {xs ys : List Value}
    (hx : h.sequence? x = some xs) (hy : h.sequence? y = some ys) (hkind : y.kind = x.kind) :
    (plus x y).Yields h x.kind (xs ++ ys) := by
  -- the kinds agree, so only a list and a list, a tuple and a tuple, and bytes and bytes are left
  cases x
  case list r =>
    cases y
    case list s =>
      obtain ⟨l, hl, rfl⟩ := Option.map_eq_some_iff.1 hx
      obtain ⟨m, hm, rfl⟩ := Option.map_eq_some_iff.1 hy
      have hrun : plus (.list r) (.list s) h =
          make (fun h => h.newList (l.elems ++ m.elems)) h := by
        change EStateM.Result.ok (h.newList ((h.list r).elems ++ (h.list s).elems)).1
          (h.newList ((h.list r).elems ++ (h.list s).elems)).2 = _
        rw [Heap.list_eq hl, Heap.list_eq hm]
        rfl
      unfold Yields
      rw [hrun, ← Array.toList_append]
      exact yields_newList h _
    all_goals cases hkind
  case tuple =>
    cases y
    case tuple =>
      cases hx
      cases hy
      exact ⟨_, h, rfl, rfl, rfl, fun _ _ => id⟩
    all_goals cases hkind
  case bytes =>
    cases y
    case bytes =>
      cases hx
      cases hy
      exact ⟨_, h, rfl, rfl, congrArg some (List.map_append ..), fun _ _ => id⟩
    all_goals cases hkind
  all_goals cases hx

namespace Progresses

variable {elems : List Value} {places : List (Fin elems.length)}

/-- One by one upward. -/
theorem map_get_up {start stop : Nat} (h : Progresses start stop 1 places) (hle : start ≤ stop)
    (hstop : stop ≤ elems.length) :
    places.map elems.get = (elems.take stop).drop start := by
  have hone : (0 : Int) < 1 := by decide
  have hend := mt (precedes_of_pos hone).2 h.stopped
  have hlength : places.length = stop - start := by
    by_contra hne
    have hlast := (precedes_of_pos hone).1 (h.before (places.length - 1) (by omega))
    omega
  apply List.ext_getElem
  · rw [List.length_map, List.length_drop, List.length_take]
    omega
  · intro k hk hk'
    rw [List.length_map] at hk
    have hplace : (places[k] : Nat) = start + k := by
      have hplace := h.place k hk
      omega
    simp only [List.getElem_map, List.get_eq_getElem, List.getElem_drop, List.getElem_take, hplace]

/-- One by one downward, from the last place to the first one. -/
theorem map_get_down (h : Progresses (elems.length - 1) (-1) (-1) places) :
    places.map elems.get = elems.reverse := by
  have hone : (-1 : Int) < 0 := by decide
  have hend := mt (precedes_of_neg hone).2 h.stopped
  have hlength : places.length = elems.length := by
    by_contra hne
    have hlast := (precedes_of_neg hone).1 (h.before (places.length - 1) (by omega))
    omega
  apply List.ext_getElem
  · rw [List.length_map, List.length_reverse, hlength]
  · intro k hk hk'
    rw [List.length_map] at hk
    have hplace : (places[k] : Nat) = elems.length - 1 - k := by
      have hplace := h.place k hk
      omega
    simp only [List.getElem_map, List.get_eq_getElem, List.getElem_reverse, hplace]

end Progresses

section Theorem

variable {h : Heap} {x : Value} {elems : List Value}

/-- A slice with the given bounds and step selects the places from its start on. -/
theorem Op.slice_yields (hx : h.sequence? x = some elems) (hlen : elems.length ≤ maxInt)
    (lo hi : Option Int64) {step : Int64} (hstep : step ≠ 0)
    (hfits : step.toInt ≤ maxInt - elems.length + 1) :
    (slice x (.ofBound lo) (.ofBound hi) (.int step)).Yields h x.kind
      ((slicedPlaces elems.length lo hi hstep).map elems.get) := by
  rw [slice_eq x lo hi hstep]
  refine sliceBy_yields hx hlen hstep ?_
  rw [inRange_slicePlace_iff hlen lo hi hstep]
  intro k hk
  have hk' : k < sliceCount elems.length lo hi step := by omega
  have hlast := slicePlace_bounds hstep hk'
  omega

/-- Without a step a slice goes up one by one. -/
theorem Op.slice_up_yields (hx : h.sequence? x = some elems) (hlen : elems.length ≤ maxInt)
    (lo hi : Option Int64) {start stop : Nat} (hstart : sliceStart elems.length lo 1 = start)
    (hstop : sliceStop elems.length hi 1 = stop) (hle : start ≤ stop)
    (hle' : stop ≤ elems.length) :
    (slice x (.ofBound lo) (.ofBound hi) .null).Yields h x.kind
      ((elems.take stop).drop start) := by
  have hone : (1 : Int64) ≠ 0 := by decide
  have hrun := slice_yields hx hlen lo hi hone (by rw [Int64.toInt_one]; omega)
  have hplaces := progresses_slicedPlaces elems.length lo hi hone
  rw [hstart, hstop] at hplaces
  rw [Progresses.map_get_up hplaces hle hle'] at hrun
  exact hrun

/-- A slice of a sequence gives the elements at its places, which lie in the sequence and go one
way. So a sequence that is cut anywhere is put together again by `+`, and a step of minus one
reverses it. -/
theorem slice_selects (hx : h.sequence? x = some elems) (hlen : elems.length ≤ maxInt) :
    (∀ (lo hi : Option Int64) (step : Int64), step ≠ 0 → step.toInt ≤ maxInt - elems.length →
      ∃ places : List (Fin elems.length),
        Progresses (sliceStart elems.length lo step) (sliceStop elems.length hi step) step.toInt
          places ∧
        (0 < step → places.Pairwise (· < ·)) ∧ (step < 0 → places.Pairwise (· > ·)) ∧
        (Op.slice x (.ofBound lo) (.ofBound hi) (.int step)).Yields h x.kind
          (places.map elems.get)) ∧
    (∀ k : Int64,
      Op.Yields (do Op.plus (← Op.slice x .null (.int k) .null) (← Op.slice x (.int k) .null .null))
        h x.kind elems) ∧
    (Op.slice x .null .null (.int (-1))).Yields h x.kind elems.reverse := by
  refine ⟨?select, ?cut, ?reverse⟩
  case select =>
    intro lo hi step hstep hfits
    have hplaces := progresses_slicedPlaces elems.length lo hi hstep
    refine ⟨_, hplaces, ?_, ?_, Op.slice_yields hx hlen lo hi hstep (by omega)⟩
    · intro hpos
      rw [Int64.lt_iff_toInt_lt, Int64.toInt_zero] at hpos
      exact hplaces.ascending hpos
    · intro hneg
      rw [Int64.lt_iff_toInt_lt, Int64.toInt_zero] at hneg
      exact hplaces.descending hneg
  case cut =>
    intro k
    -- where the sequence is cut
    obtain ⟨c, hc, hcut⟩ : ∃ c : Nat, clamped elems.length 0 elems.length k.toInt = c ∧
        c ≤ elems.length := by
      have hbounds := clamped_bounds (n := elems.length) (Int.natCast_nonneg elems.length) k.toInt
      exact ⟨_, (Int.toNat_of_nonneg hbounds.1).symm, by omega⟩
    have hfirst : sliceStart elems.length none 1 = (0 : Nat) := rfl
    apply Op.Yields.bind (Op.slice_up_yields hx hlen none (some k) hfirst hc (Nat.zero_le c) hcut)
    intro a h' hkind ha hkeeps
    apply Op.Yields.bind (Op.slice_up_yields (hkeeps x elems hx) hlen (some k) none hc rfl hcut
      (Nat.le_refl _))
    intro b h'' hkind' hb hkeeps'
    have hplus := Op.plus_yields (hkeeps' a _ ha) hb (hkind'.trans hkind.symm)
    rw [hkind, List.drop_zero, List.take_length, List.take_append_drop] at hplus
    exact hplus
  case reverse =>
    have hstep : (-1 : Int64) ≠ 0 := by decide
    have hplaces := progresses_slicedPlaces elems.length none none hstep
    have hrun := Op.slice_yields hx hlen none none hstep (by
      change -1 ≤ _
      omega)
    rw [Progresses.map_get_down hplaces] at hrun
    exact hrun

end Theorem

/-- Every other element from behind, where the start is far behind the end. -/
theorem slice_selects_every_other :
    (Op.slice (.tuple [.int 1, .int 2, .int 3, .int 4, .int 5]) (.int Int64.maxValue) .null
      (.int (-2))).Yields {} .tuple [.int 5, .int 3, .int 1] := by
  have hselects := slice_selects (h := {})
    (x := .tuple [.int 1, .int 2, .int 3, .int 4, .int 5]) rfl (by decide)
  obtain ⟨places, hplaces, -, -, hrun⟩ :=
    hselects.1 (some Int64.maxValue) none (-2) (by decide) (by decide)
  have hthree : Progresses 4 (-1) (-2) ([4, 2, 0] : List (Fin 5)) :=
    ⟨by decide, by decide, by decide⟩
  rw [hplaces.unique (by decide) hthree] at hrun
  exact hrun

end Starlark
