import Starlark.Proofs.Lower.Depths

/-!
# Typed plans are emitted

Emitting a typed plan succeeds, unless it comes to a function that needs too many bytes
(`Plan.emits`). No jump goes back to the block that takes instructions: the blocks behind a loop are
never that block, and neither are blocks that are made but not used yet.
-/

set_option autoImplicit false

namespace Starlark

open Build Builder

/-- A lowering program succeeds, or stops at a function that needs too many bytes. -/
def Build.Succeeds {α : Type} (m : Build α) (b : Builder) : Prop :=
  match m b with
  | .ok _ _ => True
  | .error _ b' => 2 ^ 28 ≤ b'.blocks.need

namespace Build.Succeeds

variable {α β : Type} {m : Build α} {f : α → Build β} {b : Builder} {c : BlockId}

/-- Builders in sequence succeed if the second does on what the first leaves. -/
theorem bind (h : Succeeds m b) (hf : ∀ a b', m b = .ok a b' → Succeeds (f a) b') :
    Succeeds (m >>= f) b := by
  unfold Succeeds at h ⊢
  rw [bind_apply]
  cases hm : m b with
  | ok a b' => exact hf a b' hm
  | error e b' =>
    rw [hm] at h
    exact h

/-- An opcode without operand can be emitted without one. -/
theorem emit (hc : b.Cursor c) {op : Opcode} (hop : op.hasArg = false) :
    Succeeds (Build.emit op) b := by
  rw [Succeeds, Build.emit, if_neg (by simp [hop]), push_eq hc]
  trivial

/-- An opcode with operand can be emitted with one. -/
theorem emitArg (hc : b.Cursor c) {op : Opcode} {arg : UInt32} (hop : op.hasArg = true) :
    Succeeds (Build.emitArg op arg) b := by
  rw [Succeeds, Build.emitArg, if_pos hop, push_eq hc]
  trivial

/-- A block may jump to another one, but not to itself. -/
theorem jump (hcur : b.current = some c) {id : BlockId} (hne : id ≠ c) :
    Succeeds (Build.jump id) b := by
  rw [Succeeds, Build.jump, bind_apply, current_eq hcur]
  simp only [if_neg hne.symm]
  trivial

/-- A block may branch, but not fall through to itself. -/
theorem condJump (hc : b.Cursor c) {op : Opcode} {t f : BlockId} (hop : op.hasArg = true)
    (hne : f ≠ c) : Succeeds (Build.condJump op t f) b := by
  refine bind (emitArg hc hop) fun _ b1 h1 => ?_
  obtain ⟨hs, -⟩ := stage_emitArg hc h1
  have hcur := current_eq (hs.cursor c rfl).1.current
  refine bind (by rw [Succeeds, hcur]; trivial) fun cur b2 h2 => ?_
  rw [hcur] at h2
  cases h2
  refine bind trivial fun _ b3 h3 => ?_
  cases h3
  refine jump (c := c) ?_ hne
  exact (hs.cursor c rfl).1.current

end Build.Succeeds

/-- A block is not the one that takes instructions. -/
def Builder.Away (b : Builder) (c id : Nat) : Prop := id ≠ c ∧ id < b.blocks.size

/-- A plan can be added at a block, with the states of the loops around. -/
structure Builder.Ready {D : Type} (b : Builder) (c : BlockId)
    (states : Option (List (D × D))) : Prop where
  cursor : b.Cursor c
  away : ∀ l ∈ b.loops, b.Away c l.breakTo ∧ b.Away c l.continueTo
  count : ∀ ds, states = some ds → b.loops.length = ds.length

namespace Builder

variable {D : Type} {b b' : Builder} {c x : BlockId} {pend : List BlockId}
  {P : Pool → BlockGraph → Prop} {states : Option (List (D × D))}

/-- A block that is elsewhere stays elsewhere. -/
theorem Away.of_stage {id : BlockId} (h : b.Away c id) (hs : Stage b c b' (some x) pend P) :
    b'.Away x id := by
  obtain ⟨-, hown, -⟩ := hs.cursor x rfl
  obtain ⟨hne, hlt⟩ := h
  refine ⟨?_, Nat.lt_of_lt_of_le hlt hs.grows.size_le⟩
  rintro rfl
  rcases hown with rfl | hown
  · exact hne rfl
  · exact Nat.lt_irrefl _ (Nat.lt_of_lt_of_le hlt hown)

/-- A block that is pending is elsewhere. -/
theorem Away.of_pending (hs : Stage b c b' (some x) pend P) {id : BlockId} (hid : id ∈ pend) :
    b'.Away x id :=
  ⟨fun e => (hs.cursor x rfl).2.2 (e ▸ hid), (hs.pending id hid).2.1⟩

theorem Ready.none (h : b.Ready c states) : b.Ready c (none : Option (List (D × D))) :=
  ⟨h.cursor, h.away, nofun⟩

/-- A builder that goes on stays ready. -/
theorem Ready.of_stage (h : b.Ready c states) (hs : Stage b c b' (some x) pend P) :
    b'.Ready x states where
  cursor := (hs.cursor x rfl).1
  away := by
    rw [hs.grows.loops]
    exact fun l hl => ⟨(h.away l hl).1.of_stage hs, (h.away l hl).2.of_stage hs⟩
  count := by
    rw [hs.grows.loops]
    exact h.count

/-- Within a loop. -/
theorem Ready.cons {l : Loop} {d : D × D} {ds : List (D × D)} (h : b.Ready c (some ds))
    (hb : b.Away c l.breakTo) (hc : b.Away c l.continueTo) :
    Ready { b with loops := l :: b.loops } c (some (d :: ds)) where
  cursor := ⟨h.cursor.current, h.cursor.lt_size, h.cursor.jmp, h.cursor.cjmp⟩
  away := List.forall_mem_cons.2 ⟨⟨hb, hc⟩, h.away⟩
  count := by
    rintro _ ⟨⟩
    simp [h.count ds rfl]

end Builder

/-- A loop can be built if its body can. -/
theorem Build.Succeeds.inLoop {l : Loop} {body : Build Unit} {b : Builder}
    (h : Succeeds body { b with loops := l :: b.loops }) : Succeeds (Build.inLoop l body) b := by
  unfold Build.inLoop
  refine .bind trivial fun _ b1 h1 => ?_
  cases h1
  exact .bind h fun _ _ _ => trivial

section

variable {C D : Type} {T : Typing C D} {ctx : C} {depth : D → Nat}

/-- A typed function is assembled, or needs too many bytes. -/
theorem Build.Succeeds.assemble (hpool : ∀ pool, T.Covers pool) (hdepth : T.Measures depth)
    {body : Plan} {d : D} {pos : Position} {b : Builder}
    (hbody : Succeeds body.emit (inside b pos)) (ht : body.Typed T ctx (some []) T.start d)
    (hends : T.Ends ctx d) : Succeeds (Build.assemble pos body.emit) b := by
  unfold Succeeds at hbody ⊢
  rw [assemble_eq]
  cases hb : body.emit (inside b pos) with
  | error e b1 =>
    rw [hb] at hbody
    exact hbody
  | ok u b1 =>
    obtain ⟨e, h1⟩ := Plan.realizes body (cursor_inside b pos) hb
    obtain ⟨b2, hfinish, hat⟩ := finish_eq h1
    simp only [hfinish]
    -- a function that needs too many bytes is refused, and every other one assembles
    rcases Nat.lt_or_ge b2.blocks.need (2 ^ 28) with hneed | hneed
    · obtain ⟨-, q, gbody, gnone, gret⟩ := hat ⟨b2.names, b2.constants, b2.functions⟩
        ⟨List.prefix_rfl, List.prefix_rfl, List.prefix_rfl⟩
      obtain ⟨l, a, hl, ha⟩ := gbody.assembles (hpool _) hdepth gnone gret ht hends hneed pos
      have hok : (do Layout.assemble b2.blocks (← b2.blocks.layout 0) pos) = .ok a := by
        rw [hl]
        exact ha
      rw [close, hok]
      trivial
    · unfold close
      cases (do Layout.assemble b2.blocks (← b2.blocks.layout 0) pos) with
      | ok a => trivial
      | error e => exact hneed

/-! ## Plans

One lemma for each kind of plan and test; `Plan.emits` is the induction. -/

/-- Wherever it can be added, the plan is emitted if it is typed, unless it has a function that
needs too many bytes. -/
def Plan.Emits (T : Typing C D) (p : Plan) : Prop :=
  ∀ ⦃ctx : C⦄ ⦃states : Option (List (D × D))⦄ ⦃b : Builder⦄ ⦃c : BlockId⦄ ⦃d d' : D⦄,
    p.Typed T ctx states d d' → b.Ready c states → Succeeds p.emit b

/-- Wherever it can be added, the test is emitted if it is typed, unless it has a function that
needs too many bytes. -/
def Test.Emits (T : Typing C D) (x : Test) : Prop :=
  ∀ ⦃ctx : C⦄ ⦃b : Builder⦄ ⦃c t f : BlockId⦄ ⦃d dt df : D⦄, x.Typed T ctx d dt df →
    b.Ready c (none : Option (List (D × D))) → b.Away c t → b.Away c f → Succeeds (x.emit t f) b

variable {p q : Plan} {test x : Test} {k : UInt32 → Plan}

theorem Plan.emits_const (x : Constant) : (Plan.const x).Emits T := by
  intro ctx states b c d d' ht h
  refine .bind trivial fun i b1 hi => ?_
  obtain ⟨h1, -⟩ := stage_constantIndex h.cursor hi
  exact .emitArg (h1.cursor c rfl).1 rfl

/-- A name can be referred to. -/
theorem Plan.Emits.name (hpool : ∀ pool, T.Covers pool) (ihk : ∀ i, (k i).Emits T) (n : String) :
    (Plan.name n k).Emits T := by
  intro ctx states b c d d' ht h
  refine .bind trivial fun i b1 hi => ?_
  obtain ⟨h1, hb1⟩ := stage_nameIndex h.cursor hi
  obtain ⟨hindex, -⟩ := h1.realized ⟨b1.names, b1.constants, b1.functions⟩ (fun _ => False)
    b1.blocks (by simp) ⟨List.prefix_rfl, List.prefix_rfl, List.prefix_rfl⟩ (fun _ _ _ => rfl)
    (fun x _ => List.prefix_rfl)
  exact ihk i (ht i ((hpool _).name n i hindex)) (h.of_stage h1)

theorem Plan.Emits.unpack {targets : Plan} (ih : targets.Emits T) (n : Nat) :
    (Plan.unpack n targets).Emits T := by
  intro ctx states b c d d' ht h
  obtain ⟨e, -, htargets⟩ := ht
  refine .bind (.emitArg h.cursor rfl) fun _ b1 hi => ?_
  obtain ⟨h1, -⟩ := stage_emitArg h.cursor hi
  exact ih htargets.typed (h.none.of_stage h1)

/-- The second plan is emitted where the first one ends. -/
theorem Plan.Emits.seq (ihp : p.Emits T) (ihq : q.Emits T) : (Plan.seq p q).Emits T := by
  intro ctx states b c d d' ht h
  obtain ⟨e, htp, htq⟩ := ht
  refine .bind (ihp htp h) fun _ b1 hp => ?_
  obtain ⟨c1, h1⟩ := Plan.realizes p h.cursor hp
  exact ihq htq (h.of_stage h1)

/-- Both branches jump to a block that is new. -/
theorem Plan.Emits.either (iht : test.Emits T) (ihp : p.Emits T) (ihq : q.Emits T) :
    (Plan.either test p q).Emits T := by
  -- the three blocks are pending until each is begun, so no jump is ever made from the block it
  -- leads to
  intro ctx states b c d d' ht h
  obtain ⟨e1, e2, a, b', htx, htp, -, htq, -⟩ := ht
  simp only [Plan.emit, choice]
  refine .bind trivial fun t b1 ht => ?_
  refine .bind trivial fun f b2 hf => ?_
  refine .bind trivial fun done b3 hd => ?_
  obtain ⟨s1, -⟩ := stage_newBlock (.start h.cursor) ht
  obtain ⟨s2, -⟩ := stage_newBlock s1 hf
  obtain ⟨s3, -⟩ := stage_newBlock s2 hd
  refine .bind (iht htx (h.none.of_stage s3) (.of_pending s3 (by simp))
    (.of_pending s3 (by simp))) fun _ b4 htest => ?_
  have s4 := s3.trans (Test.realizes test (s3.cursor c rfl).1 htest)
  refine .bind trivial fun _ b5 hs1 => ?_
  obtain ⟨s5, -⟩ := stage_setBlock (s4.perm (List.reverse_perm _).symm) hs1
  refine .bind (ihp htp (h.of_stage s5)) fun _ b6 hp => ?_
  obtain ⟨c1, h6⟩ := Plan.realizes p (s5.cursor _ rfl).1 hp
  have s6 := s5.trans h6
  refine .bind (.jump (s6.cursor c1 rfl).1.current (Away.of_pending s6 (by simp)).1)
    fun _ b7 hj1 => ?_
  obtain ⟨h7, -⟩ := stage_jump (s6.cursor _ rfl).1 hj1
  refine .bind trivial fun _ b8 hs2 => ?_
  obtain ⟨s8, -⟩ := stage_setBlock (s6.trans h7) hs2
  refine .bind (ihq htq (h.of_stage s8)) fun _ b9 hq => ?_
  obtain ⟨c2, h9⟩ := Plan.realizes q (s8.cursor _ rfl).1 hq
  have s9 := s8.trans h9
  exact .bind (.jump (s9.cursor c2 rfl).1.current (Away.of_pending s9 (by simp)).1)
    fun _ _ _ => trivial

/-- The branch jumps to a block that is new. -/
theorem Plan.Emits.guard (iht : test.Emits T) (ihp : p.Emits T) : (Plan.guard test p).Emits T := by
  intro ctx states b c d d' ht h
  obtain ⟨e, a, htx, htp, -⟩ := ht
  simp only [Plan.emit]
  refine .bind trivial fun t b1 ht => ?_
  refine .bind trivial fun done b2 hd => ?_
  obtain ⟨s1, -⟩ := stage_newBlock (.start h.cursor) ht
  obtain ⟨s2, -⟩ := stage_newBlock s1 hd
  refine .bind (iht htx (h.none.of_stage s2) (.of_pending s2 (by simp))
    (.of_pending s2 (by simp))) fun _ b3 htest => ?_
  have s3 := s2.trans (Test.realizes test (s2.cursor c rfl).1 htest)
  refine .bind trivial fun _ b4 hs1 => ?_
  obtain ⟨s4, -⟩ := stage_setBlock (s3.perm (List.reverse_perm _).symm) hs1
  refine .bind (ihp htp (h.of_stage s4)) fun _ b5 hp => ?_
  obtain ⟨c1, h5⟩ := Plan.realizes p (s4.cursor _ rfl).1 hp
  have s5 := s4.trans h5
  exact .bind (.jump (s5.cursor c1 rfl).1.current (Away.of_pending s5 (by simp)).1)
    fun _ _ _ => trivial

/-- The second operand jumps to a block that is new. -/
theorem Plan.Emits.short (ihp : p.Emits T) (ihq : q.Emits T) (stopIf : Bool) :
    (Plan.short stopIf p q).Emits T := by
  intro ctx states b c d d' ht h
  obtain ⟨e, e1, st, st1, a, htp, -, -, -, htq, -⟩ := ht
  simp only [Plan.emit, shortCircuit_eq]
  refine .bind trivial fun done b1 hd => ?_
  refine .bind trivial fun second b2 hsec => ?_
  obtain ⟨s1, -⟩ := stage_newBlock (.start h.cursor) hd
  obtain ⟨s2, -⟩ := stage_newBlock s1 hsec
  refine .bind (ihp htp (h.none.of_stage s2)) fun _ b3 hp => ?_
  obtain ⟨c1, h3⟩ := Plan.realizes p (s2.cursor c rfl).1 hp
  have s3 := s2.trans h3
  refine .bind (.emit (s3.cursor _ rfl).1 rfl) fun _ b4 hdup => ?_
  obtain ⟨h4, -⟩ := stage_emit (s3.cursor _ rfl).1 hdup
  have s4 := s3.trans h4
  -- both targets of the jump are blocks that nothing has begun
  have haway : ∀ id ∈ [second, done], id ≠ c1 := fun id hid => (Away.of_pending s4 hid).1
  refine .bind (.condJump (s4.cursor _ rfl).1 rfl (haway _ (by cases stopIf <;> simp)))
    fun _ b5 hcj => ?_
  obtain ⟨h5, -⟩ := stage_condJump (s4.cursor _ rfl).1 hcj
  refine .bind trivial fun _ b6 hs1 => ?_
  obtain ⟨s6, -⟩ := stage_setBlock (s4.trans h5) hs1
  refine .bind (.emit (s6.cursor _ rfl).1 rfl) fun _ b7 hpop => ?_
  obtain ⟨h7, -⟩ := stage_emit (s6.cursor _ rfl).1 hpop
  have s7 := s6.trans h7
  refine .bind (ihq htq (h.none.of_stage s7)) fun _ b8 hq => ?_
  obtain ⟨c2, h8⟩ := Plan.realizes q (s7.cursor _ rfl).1 hq
  have s8 := s7.trans h8
  exact .bind (.jump (s8.cursor c2 rfl).1.current (Away.of_pending s8 (by simp)).1)
    fun _ _ _ => trivial

/-- A round jumps back to a block that is not its own. -/
theorem Plan.Emits.each {iterable vars body : Plan} (ihi : iterable.Emits T) (ihv : vars.Emits T)
    (ihb : body.Emits T) (isLoop : Bool) (pos : Position) :
    (Plan.each isLoop iterable pos vars body).Emits T := by
  intro ctx states b c d d' ht h
  obtain ⟨e, e1, head, tl, round, e2, e3, htit, -, -, -, htvars, htbody, -, -⟩ := ht
  simp only [Plan.emit, iteration]
  refine .bind trivial fun hd b1 hh => ?_
  refine .bind trivial fun rd b2 hr => ?_
  refine .bind trivial fun tail b3 htl => ?_
  obtain ⟨s1, -⟩ := stage_newBlock (.start h.cursor) hh
  obtain ⟨s2, -⟩ := stage_newBlock s1 hr
  obtain ⟨s3, -⟩ := stage_newBlock s2 htl
  refine .bind (ihi htit (h.none.of_stage s3)) fun _ b4 hit => ?_
  obtain ⟨c1, h4⟩ := Plan.realizes iterable (s3.cursor c rfl).1 hit
  have s4 := s3.trans h4
  refine .bind trivial fun _ b5 hpos => ?_
  have h5 := stage_setPos (s4.cursor _ rfl).1 pos
  cases hpos
  have s5 := s4.trans h5
  refine .bind (.emit (s5.cursor _ rfl).1 rfl) fun _ b6 hpush => ?_
  obtain ⟨h6, -⟩ := stage_emit (s5.cursor _ rfl).1 hpush
  have s6 := s5.trans h6
  refine .bind (.jump (s6.cursor _ rfl).1.current (Away.of_pending s6 (by simp)).1)
    fun _ b7 hj1 => ?_
  obtain ⟨h7, -⟩ := stage_jump (s6.cursor _ rfl).1 hj1
  refine .bind trivial fun _ b8 hs1 => ?_
  obtain ⟨s8, -⟩ := stage_setBlock ((s6.trans h7).perm (List.reverse_perm _).symm) hs1
  refine .bind (.condJump (s8.cursor _ rfl).1 rfl (Away.of_pending s8 (by simp)).1)
    fun _ b9 hcj => ?_
  obtain ⟨h9, z9⟩ := stage_condJump (s8.cursor _ rfl).1 hcj
  refine .bind trivial fun _ b10 hs2 => ?_
  obtain ⟨s10, z10, -⟩ := stage_setBlock (s8.trans h9) hs2
  -- the head is closed, and the tail is still pending
  have hhead : b10.Away rd hd := by
    refine ⟨fun e => ?_, ?_⟩
    · exact (List.nodup_cons.1 s2.nodup).1 (e ▸ List.mem_cons_self)
    · rw [z10, z9]
      exact (s8.cursor _ rfl).1.lt_size
  have htail : b10.Away rd tail := .of_pending s10 (by simp)
  have hready := h.of_stage s10
  refine .bind (.bind (ihv htvars hready.none) fun _ b12 hvars => ?_)
    fun _ b11 hb => ?_
  · obtain ⟨c2, h11⟩ := Plan.realizes vars (s10.cursor _ rfl).1 hvars
    cases isLoop with
    | false => exact ihb htbody (hready.of_stage h11)
    | true =>
      obtain ⟨ls, rfl, htbody⟩ := htbody
      exact .inLoop (ihb htbody
        ((hready.of_stage h11).cons (htail.of_stage h11) (hhead.of_stage h11)))
  · obtain ⟨_, b12, hvars, hbody⟩ := bind_eq_ok.1 hb
    obtain ⟨c2, h11⟩ := Plan.realizes vars (s10.cursor _ rfl).1 hvars
    obtain ⟨c3, h12⟩ := stage_loopBody (Plan.realizes body) (h11.cursor _ rfl).1 hbody
    have s12 := (s10.trans h11).trans h12
    refine .bind (.jump (s12.cursor c3 rfl).1.current
      ((hhead.of_stage h11).of_stage h12).1) fun _ b14 hj2 => ?_
    obtain ⟨h13, -⟩ := stage_jump (s12.cursor _ rfl).1 hj2
    refine .bind trivial fun _ b15 hs3 => ?_
    obtain ⟨s14, -⟩ := stage_setBlock (s12.trans h13) hs3
    exact .emit (s14.cursor _ rfl).1 rfl

/-- A round jumps back to a block that is not its own. -/
theorem Plan.Emits.whileLoop {body : Plan} (iht : test.Emits T) (ihb : body.Emits T) :
    (Plan.whileLoop test body).Emits T := by
  intro ctx states b c d d' ht h
  obtain ⟨head, round, e, ls, rfl, -, htx, htbody, -⟩ := ht
  simp only [Plan.emit]
  refine .bind trivial fun hd b1 hh => ?_
  refine .bind trivial fun rd b2 hr => ?_
  refine .bind trivial fun done b3 hdn => ?_
  obtain ⟨s1, -⟩ := stage_newBlock (.start h.cursor) hh
  obtain ⟨s2, -⟩ := stage_newBlock s1 hr
  obtain ⟨s3, -⟩ := stage_newBlock s2 hdn
  refine .bind (.jump (s3.cursor _ rfl).1.current (Away.of_pending s3 (by simp)).1)
    fun _ b4 hj1 => ?_
  obtain ⟨h4, -⟩ := stage_jump (s3.cursor _ rfl).1 hj1
  refine .bind trivial fun _ b5 hs1 => ?_
  obtain ⟨s5, -⟩ := stage_setBlock ((s3.trans h4).perm (List.reverse_perm _).symm) hs1
  refine .bind (iht htx (h.none.of_stage s5) (.of_pending s5 (by simp))
    (.of_pending s5 (by simp))) fun _ b6 htest => ?_
  have h6 := Test.realizes test (s5.cursor _ rfl).1 htest
  refine .bind trivial fun _ b7 hs2 => ?_
  obtain ⟨s7, z7, -⟩ := stage_setBlock (s5.trans h6) hs2
  -- the head is not pending any more, so that it is another block is shown by itself
  have hhead : b7.Away rd hd := by
    refine ⟨fun e => ?_, ?_⟩
    · exact (List.nodup_cons.1 s2.nodup).1 (e ▸ List.mem_cons_self)
    · rw [z7]
      exact Nat.lt_of_lt_of_le (s5.cursor _ rfl).1.lt_size h6.grows.size_le
  have hdone : b7.Away rd done := .of_pending s7 (by simp)
  refine .bind (.inLoop (ihb htbody ((h.of_stage s7).cons hdone hhead)))
    fun _ b8 hbody => ?_
  obtain ⟨c1, h8⟩ := @stage_loopBody _ _ _ true _ _ (Plan.realizes body)
    (s7.cursor _ rfl).1 hbody
  have s8 := s7.trans h8
  exact .bind (.jump (s8.cursor c1 rfl).1.current (hhead.of_stage h8).1) fun _ _ _ => trivial

/-- A loop around is left for a block that is not the current one. -/
theorem Plan.emits_leave (isBreak : Bool) : (Plan.leave isBreak).Emits T := by
  intro ctx states b c d d' ht h
  obtain ⟨l, ls, rfl, -⟩ := ht
  have hcount := h.count _ rfl
  cases hl : b.loops with
  | nil => rw [hl] at hcount; cases hcount
  | cons l' rest =>
    have haway := h.away l' (by rw [hl]; exact List.mem_cons_self)
    have hinner : innermostLoop b = .ok l' b := by
      simp only [innermostLoop, bind_apply, get_apply, hl]
      rfl
    refine .bind (by rw [Succeeds, hinner]; trivial) fun l1 b1 h1 => ?_
    rw [hinner] at h1
    cases h1
    refine .bind (.jump h.cursor.current ?_) fun _ _ _ => .bind trivial fun _ _ _ => trivial
    cases isBreak with
    | true => exact haway.1.1
    | false => exact haway.2.1

/-- The body of a typed function can be laid out. -/
theorem Plan.Emits.func (hpool : ∀ pool, T.Covers pool) (hdepth : T.Measures depth) {body : Plan}
    (ihb : body.Emits T) (ihk : ∀ i, (k i).Emits T) (f : Function) :
    (Plan.func f body k).Emits T := by
  intro ctx states b c d d' ht h
  obtain ⟨-, ⟨e, htbody, hends⟩, htk⟩ := ht
  have hready : Ready (inside b f.pos) 0 (some ([] : List (D × D))) :=
    ⟨cursor_inside b f.pos, by simp [inside], by rintro _ ⟨⟩; rfl⟩
  refine .bind (.assemble hpool hdepth (ihb htbody hready) htbody hends)
    fun a b1 ha => ?_
  obtain ⟨h1, -⟩ := stage_assemble h.cursor (Plan.realizes body) ha
  refine .bind trivial fun i b2 hi => ?_
  obtain ⟨h2, -⟩ := stage_functionIndex (h1.cursor _ rfl).1 hi
  obtain ⟨hindex, -⟩ := h2.realized ⟨b2.names, b2.constants, b2.functions⟩ (fun _ => False)
    b2.blocks (by simp) ⟨List.prefix_rfl, List.prefix_rfl, List.prefix_rfl⟩ (fun _ _ _ => rfl)
    (fun x _ => List.prefix_rfl)
  exact ihk i (htk i ((hpool _).func f a i hindex)) (h.of_stage (h1.trans h2))

theorem Test.Emits.on (ihp : p.Emits T) : (Test.on p).Emits T := by
  intro ctx b c t f d dt df ht h hta hfa
  obtain ⟨e, htp, -⟩ := ht
  refine .bind (ihp htp h) fun _ b1 hp => ?_
  obtain ⟨c1, h1⟩ := Plan.realizes p h.cursor hp
  exact .condJump (h1.cursor _ rfl).1 rfl (hfa.of_stage h1).1

theorem Test.Emits.both (ihp : p.Emits T) (ihx : x.Emits T) : (Test.both p x).Emits T := by
  intro ctx b c t f d dt df ht h hta hfa
  obtain ⟨e, st, htp, -, htx⟩ := ht
  refine .bind (ihp htp h) fun _ b1 hp => ?_
  obtain ⟨c1, h1⟩ := Plan.realizes p h.cursor hp
  refine .bind trivial fun second b2 hn => ?_
  obtain ⟨s2, -⟩ := stage_newBlock h1 hn
  refine .bind (.condJump (s2.cursor _ rfl).1 rfl (hfa.of_stage s2).1) fun _ b3 hj => ?_
  obtain ⟨h3, -⟩ := stage_condJump (s2.cursor _ rfl).1 hj
  refine .bind trivial fun _ b4 hs => ?_
  obtain ⟨s4, -⟩ := stage_setBlock (s2.trans h3) hs
  exact ihx htx (h.of_stage s4) (hta.of_stage s4) (hfa.of_stage s4)

theorem Test.Emits.either (ihp : p.Emits T) (ihx : x.Emits T) : (Test.either p x).Emits T := by
  intro ctx b c t f d dt df ht h hta hfa
  obtain ⟨e, st, htp, -, htx⟩ := ht
  refine .bind (ihp htp h) fun _ b1 hp => ?_
  obtain ⟨c1, h1⟩ := Plan.realizes p h.cursor hp
  refine .bind trivial fun second b2 hn => ?_
  obtain ⟨s2, -⟩ := stage_newBlock h1 hn
  refine .bind (.condJump (s2.cursor _ rfl).1 rfl (Away.of_pending s2 (by simp)).1)
    fun _ b3 hj => ?_
  obtain ⟨h3, -⟩ := stage_condJump (s2.cursor _ rfl).1 hj
  refine .bind trivial fun _ b4 hs => ?_
  obtain ⟨s4, -⟩ := stage_setBlock (s2.trans h3) hs
  exact ihx htx (h.of_stage s4) (hta.of_stage s4) (hfa.of_stage s4)

-- both are used by the recursive calls only
set_option linter.unusedSectionVars false

variable (hpool : ∀ pool, T.Covers pool) (hdepth : T.Measures depth)

include hpool hdepth

mutual

/-- A typed plan is emitted, unless it has a function that needs too many bytes. -/
theorem Plan.emits (p : Plan) : p.Emits T := by
  -- a plan that types emits, whatever it is made of; only a failure does not type
  match p with
  | .skip | .pos _ | .load _ => exact fun _ _ _ _ _ _ _ _ => trivial
  | .fail _ => exact fun _ _ _ _ _ _ ht _ => ht.elim
  | .op _ => exact fun _ _ _ _ _ _ ht h => .emit h.cursor ht.2.1
  | .arg _ _ => exact fun _ _ _ _ _ _ ht h => .emitArg h.cursor ht.2.1
  | .const x => exact Plan.emits_const x
  | .name n k => exact .name hpool (fun i => Plan.emits (k i)) n
  | .unpack n targets => exact .unpack (Plan.emits targets) n
  | .seq p q => exact .seq (Plan.emits p) (Plan.emits q)
  | .either test p q => exact .either (Test.emits test) (Plan.emits p) (Plan.emits q)
  | .guard test p => exact .guard (Test.emits test) (Plan.emits p)
  | .short stopIf p q => exact .short (Plan.emits p) (Plan.emits q) stopIf
  | .each isLoop iterable pos vars body =>
    exact .each (Plan.emits iterable) (Plan.emits vars) (Plan.emits body) isLoop pos
  | .whileLoop test body => exact .whileLoop (Test.emits test) (Plan.emits body)
  | .leave isBreak => exact Plan.emits_leave isBreak
  | .ret =>
    exact fun _ _ _ _ _ _ _ h =>
      .bind (.emit h.cursor rfl) fun _ _ _ => .bind trivial fun _ _ _ => trivial
  | .func f body k =>
    exact .func hpool hdepth (Plan.emits body) (fun i => Plan.emits (k i)) f

theorem Test.emits (x : Test) : x.Emits T := by
  match x with
  | .on p => exact .on (Plan.emits p)
  | .not x => exact fun _ _ _ _ _ _ _ _ ht h hta hfa => Test.emits x ht h hfa hta
  | .both p x => exact .both (Plan.emits p) (Test.emits x)
  | .either p x => exact .either (Plan.emits p) (Test.emits x)

end

end

end Starlark
