import Starlark.Proofs.Operation.Overflow

/-!
# Ranges

`range` lists the integers that a step leads to from a start before it comes to a stop, as far as
there are not too many of them (`range_lists`). All of them lie between the start and the stop, so
that words hold them even where a product on the way to them wraps around.
-/

set_option autoImplicit false

namespace Starlark

/-- An element of a range is computed exactly. -/
theorem toInt_rangeElement {start stop step : Int64} (hstep : step ≠ 0) {i : Nat}
    (hi : i < rangeCount start.toInt stop.toInt step.toInt) :
    (Id.run (Word.wrapping.rangeElement start step i)).toInt = start.toInt + i * step.toInt := by
  apply Word.toInt_of_bmod _ (inRange_element hstep hi)
  -- wrapping around twice is wrapping around once
  have hsum : (start + Int64.ofNat i * step).toInt =
      (start.toInt + (Int64.ofNat i * step).toInt).bmod (2 ^ 64) := Int64.toInt_add _ _
  have hproduct : (Int64.ofNat i * step).toInt = (i * step.toInt : Int).bmod (2 ^ 64) := by
    rw [Int64.toInt_mul, Int64.toInt_ofNat']
    exact Int.bmod_mul_bmod
  rw [hproduct, Int.add_bmod_bmod] at hsum
  exact hsum

/-- The elements of a range are listed exactly if there are not too many of them, and else
counted. -/
theorem rangeElements_eq {start stop step : Int64} (hstep : step ≠ 0) :
    rangeElements start stop step =
      if maxRangeLength < rangeCount start.toInt stop.toInt step.toInt then
        .error (.fault (.rangeLength (rangeCount start.toInt stop.toInt step.toInt)))
      else .ok ((List.range (rangeCount start.toInt stop.toInt step.toInt)).map fun i =>
        .int (Id.run (Word.wrapping.rangeElement start step i))) := by
  unfold rangeElements
  rw [if_neg hstep]

/-- `range` does what `rangeElements` does with its three arguments. -/
theorem Op.callStandard_range {b : BuiltinObj} (hb : b.op = .range) (h : Heap)
    (start stop step : Int64) :
    callStandard b [.int start, .int stop, .int step] [] h =
      match rangeElements start stop step with
      | .ok elems => .ok (h.newList elems.toArray).1 (h.newList elems.toArray).2
      | .error e => .error (.error e) h := by
  unfold callStandard
  simp only [hb]
  cases helems : rangeElements start stop step with
  | ok elems =>
    simp only [checkArguments, rangeBounds, intArgument, Op.check, helems, bind, EStateM.bind,
        Except.bind]
    rfl
  | error e =>
    simp [checkArguments, rangeBounds, intArgument, Op.check, helems, bind, EStateM.bind,
        Except.bind]

/-- `range(start, stop, step)` makes the list of all integers `start + i * step` that lie strictly
before the stop in the direction of the step, in order, if there are at most `2 ^ 24` of them.
Otherwise it fails with their number. It fails with a step of zero. -/
theorem range_lists {b : BuiltinObj} (hb : b.op = .range) (h : Heap) (start stop step : Int64) :
    let result := Op.callStandard b [.int start, .int stop, .int step] [] h
    (step = 0 → result = .error (.fault .zeroRangeStep) h) ∧
    (step ≠ 0 → ∃ n : Nat,
      (∀ i : Nat, i < n ↔ Precedes step.toInt (start.toInt + i * step.toInt) stop.toInt) ∧
      (n ≤ 2 ^ 24 → ∃ words : List Int64,
        words.map Int64.toInt = (List.range n).map (fun i : Nat => start.toInt + i * step.toInt) ∧
        result = .ok (.list ⟨h.lists.size⟩) (h.newList (words.map Value.int).toArray).2) ∧
      (2 ^ 24 < n → result = .error (.fault (.rangeLength n)) h ∧
        (Fault.rangeLength n).message = "range: too many elements (" ++ toString n ++ ")")) := by
  intro result
  have hresult : result = _ := Op.callStandard_range hb h start stop step
  constructor
  · intro hzero
    rw [hresult, rangeElements, if_pos hzero]
    rfl
  · intro hstep
    refine ⟨rangeCount start.toInt stop.toInt step.toInt,
      lt_rangeCount_iff (Word.toInt_ne_zero hstep), fun hle => ?_, fun hlt => ⟨?_, rfl⟩⟩
    · refine ⟨(List.range (rangeCount start.toInt stop.toInt step.toInt)).map fun i =>
        Id.run (Word.wrapping.rangeElement start step i), ?_, ?_⟩
      · rw [List.map_map]
        refine List.map_congr_left fun i hi => ?_
        exact toInt_rangeElement hstep (List.mem_range.1 hi)
      -- the count is taken before any element is computed
      · have hfew : ¬maxRangeLength < rangeCount start.toInt stop.toInt step.toInt :=
          Nat.not_lt.2 hle
        rw [hresult, rangeElements_eq hstep, List.map_map, if_neg hfew]
        rfl
    · have hmany : maxRangeLength < rangeCount start.toInt stop.toInt step.toInt := hlt
      rw [hresult, rangeElements_eq hstep, if_pos hmany]
      rfl

/-- A range over all words in steps of `2 ^ 62`. Twice and three times the step are no words. -/
theorem range_lists_wide : ∃ h', Op.callStandard { op := .range }
      [.int Int64.minValue, .int Int64.maxValue, .int 4611686018427387904] [] {} =
          .ok (.list ⟨0⟩) h' ∧
    (h'.list ⟨0⟩).elems =
      #[.int Int64.minValue, .int (-4611686018427387904), .int 0, .int 4611686018427387904] := by
  obtain ⟨-, hlists⟩ := range_lists (b := { op := .range }) rfl {} Int64.minValue Int64.maxValue
    4611686018427387904
  obtain ⟨n, hn, hok, -⟩ := hlists (by decide)
  -- the count is pinned by the last element and by the one that would follow
  have hfour : n = 4 := by
    have hlast := (hn 3).2 (by decide)
    have hend := mt (hn 4).1 (by decide)
    omega
  subst hfour
  obtain ⟨words, hwords, hresult⟩ := hok (by decide)
  have hlisted : words =
      [Int64.minValue, -4611686018427387904, 0, 4611686018427387904] := by
    apply List.map_injective_iff.2 (fun _ _ => Int64.toInt_inj.1)
    rw [hwords]
    decide
  subst hlisted
  exact ⟨_, hresult, rfl⟩

end Starlark
