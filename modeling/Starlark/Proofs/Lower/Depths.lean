import Starlark.Proofs.Flow.Totality
import Starlark.Proofs.Lower.Reach

/-!
# How deep the stack gets

In a typed graph the depth of the stack never exceeds twice the number of instructions that control
can come to. For below the depth of a point every level, or the one next to it, is that of an
instruction (`Spans`): most instructions raise the stack by two levels at most, and an unpacking is
followed by its targets, one on each of the levels that it has added. So a graph of few bytes is
balanced (`Annotates.balanced`).
-/

set_option autoImplicit false

namespace Starlark

open BlockGraph (Leads)

namespace BlockGraph

variable {g : BlockGraph} {p : Point} {b t : Nat}

/-- Where control comes into a block, it came to its start. -/
theorem Comes.start (h : g.Comes p) : g.Comes ⟨p.block, 0⟩ := by
  induction h with
  | entry => exact .entry
  | next _ _ ih => exact ih
  | jmp hp hs hj _ => exact hp.jmp hs hj
  | cjmp hp hs hj _ => exact hp.cjmp hs hj

/-- There is an instruction at every point before the end. -/
theorem insnAt_of_lt {i : Nat} (h : i < (g.block b).insns.size) :
    ∃ op arg, g.InsnAt ⟨b, i⟩ op arg :=
  ⟨_, _, _, Array.getElem?_eq_getElem h⟩

/-- Control that comes to the start of a block comes to all of it. -/
theorem Comes.within {i : Nat} (h : g.Comes ⟨b, 0⟩) (hi : i ≤ (g.block b).insns.size) :
    g.Comes ⟨b, i⟩ := by
  induction i with
  | zero => exact h
  | succ i ih =>
    obtain ⟨op, arg, hat⟩ := insnAt_of_lt (Nat.lt_of_succ_le hi)
    exact (ih (Nat.le_of_succ_le hi)).next hat

/-- Control that comes to an empty block comes to where it leads. -/
theorem Comes.leads (h : Leads g b t) (hb : g.Comes ⟨b, 0⟩) : g.Comes ⟨t, 0⟩ := by
  induction h with
  | here _ => exact hb
  | skip he hj _ ih => exact ih (hb.jmp (by rw [he]; rfl) hj)

/-- Control comes to blocks that are reached. -/
theorem Reached.comes (h : g.Reached 0 b) : g.Comes ⟨b, 0⟩ := by
  induction h with
  | entry => exact .entry
  | jmp _ hj hl ih => exact .leads hl ((ih.within (Nat.le_refl _)).jmp rfl hj)
  | cjmp _ hj hl ih => exact .leads hl ((ih.within (Nat.le_refl _)).cjmp rfl hj)

/-- Where control comes to an instruction, its block is reached. -/
theorem Comes.reached {op : Opcode} {arg : UInt32} (h : g.Comes p)
    (hcjmp : ∀ b c, (g.block b).cjmp = some c → (g.block b).insns ≠ #[])
    (hi : g.InsnAt p op arg) : g.Reached 0 p.block := by
  have hkey : ∀ p, g.Comes p → g.Reached 0 p.block ∨ ∀ t, Leads g p.block t → g.Reached 0 t := by
    intro p hp
    induction hp with
    | entry => exact .inl .entry
    | next _ _ ih => exact ih
    | @jmp p id _ _ hj ih =>
      refine .inr fun t ht => ?_
      by_cases he : (g.block p.block).insns = #[]
      · rcases ih with ih | ih
        · exact ih.jmp hj ht
        · exact ih t (.skip he hj ht)
      · exact (ih.elim (fun ih => ih) fun ih => ih _ (.here he)).jmp hj ht
    | @cjmp p id _ _ hj ih =>
      have he := hcjmp _ _ hj
      exact .inr fun t ht => (ih.elim (fun ih => ih) fun ih => ih _ (.here he)).cjmp hj ht
  exact (hkey p h).elim (fun h => h) fun h => h _ (.here hi.insns_ne)

/-- The instructions from one on. -/
theorem InsnAt.drop_eq {n : Nat} {op : Opcode} {arg : UInt32} (h : g.InsnAt ⟨b, n⟩ op arg) :
    ∃ pos, (g.block b).insns.toList.drop n =
      ⟨op, arg, pos⟩ :: (g.block b).insns.toList.drop (n + 1) := by
  obtain ⟨pos, h⟩ := h
  rw [← Array.getElem?_toList] at h
  obtain ⟨hlt, he⟩ := List.getElem?_eq_some_iff.1 h
  exact ⟨pos, by rw [List.drop_eq_getElem_cons hlt, he]⟩

end BlockGraph

/-- The end of a typed block. -/
inductive Ending {C D : Type} (T : Typing C D) (g : BlockGraph) (δ : BlockId → D) (b n : Nat)
    (d : D) : Prop where
  | ends {id : Nat} : g.EndsAt ⟨b, n⟩ id → id < g.size → T.le d (δ id) → Ending T g δ b n d
  | branch {op : Opcode} {t f : Nat} :
      op.isCondJump = true → g.BranchAt ⟨b, n⟩ op t f → t < g.size → f < g.size →
        T.Branches op d (δ t) (δ f) → Ending T g δ b n d
  | ret : g.ReturnAt ⟨b, n⟩ → T.ret d → Ending T g δ b n d

section

variable {C D : Type} {T : Typing C D} {c : C} {g : BlockGraph} {δ : BlockId → D}
  {hook : Point → Nat → Prop} {depth : D → Nat}

/-- A block that closes has a chain and an ending. -/
theorem Closes.ending {b n : Nat} {d : D} (h : Closes T c g δ hook b n d) :
    ∃ m e, Chain T c g hook b n d m e ∧ Ending T g δ b m e := by
  induction h with
  | step hi hop hs _ ih =>
    obtain ⟨m, e, hchain, hend⟩ := ih
    exact ⟨m, e, .step hi hop hs hchain, hend⟩
  | unpack hi hk hs _ ih =>
    obtain ⟨m, e, hchain, hend⟩ := ih
    exact ⟨m, e, .unpack hi hk hs hchain, hend⟩
  | ends he hid hle => exact ⟨_, _, .refl _ _, .ends he hid hle⟩
  | branch hop hb ht hf hbr => exact ⟨_, _, .refl _ _, .branch hop hb ht hf hbr⟩
  | ret hr ht => exact ⟨_, _, .refl _ _, .ret hr ht⟩

/-! ## Levels -/

/-- The depth at a point, as the instructions before it in its block say. -/
def levelAt (depth : D → Nat) (g : BlockGraph) (δ : BlockId → D) (p : Point) : Int :=
  depth (δ p.block) + Insn.effects ((g.block p.block).insns.toList.take p.index)

/-- An instruction changes the level by its effect. -/
theorem levelAt_next {p : Point} {op : Opcode} {arg : UInt32} (h : g.InsnAt p op arg) :
    levelAt depth g δ p.next = levelAt depth g δ p + op.stackEffect arg := by
  obtain ⟨pos, h⟩ := h
  rw [← Array.getElem?_toList] at h
  simp only [levelAt, Point.next, List.take_add_one, h, Option.toList, Insn.effects_append,
    Insn.effects_cons, Insn.effects_nil, Insn.stackEffect]
  omega

@[simp] theorem levelAt_start (b : Nat) : levelAt depth g δ ⟨b, 0⟩ = depth (δ b) := by
  simp [levelAt]

/-- Along a chain the level and the depth change alike. -/
theorem Chain.levelAt_sub_modEq (hdepth : T.Measures depth) {b n m : Nat} {d e : D}
    (h : Chain T c g hook b n d m e) :
    levelAt depth g δ ⟨b, m⟩ - depth e ≡ levelAt depth g δ ⟨b, n⟩ - depth d [ZMOD 2 ^ 32] := by
  have hkeep : ∀ {n : Nat} {op : Opcode} {arg : UInt32} {d e : D}, g.InsnAt ⟨b, n⟩ op arg →
      (depth e : Int) ≡ depth d + op.stackEffect arg [ZMOD 2 ^ 32] →
      levelAt depth g δ ⟨b, n + 1⟩ - depth e ≡ levelAt depth g δ ⟨b, n⟩ - depth d
          [ZMOD 2 ^ 32] := by
    intro n op arg d e hi hraise
    have hnext : levelAt depth g δ ⟨b, n + 1⟩ = _ := levelAt_next hi
    have hoff := (Int.ModEq.refl (levelAt depth g δ ⟨b, n⟩ + op.stackEffect arg)).sub hraise
    rwa [Int.add_sub_add_right, ← hnext] at hoff
  induction h with
  | refl _ _ => rfl
  | step hi hop hs _ ih => exact ih.trans (hkeep hi (hdepth.steps_modEq hop hs))
  | unpack hi _ hs _ ih => exact ih.trans (hkeep hi (hdepth.unpack_modEq hs))

/-- The level at the end of a block's chain is the depth there. -/
theorem Chain.levelAt_modEq (hdepth : T.Measures depth) {b m : Nat} {e : D}
    (h : Chain T c g hook b 0 (δ b) m e) :
    levelAt depth g δ ⟨b, m⟩ ≡ depth e [ZMOD 2 ^ 32] := by
  have hoff := (h.levelAt_sub_modEq (δ := δ) hdepth).add_right (depth e)
  rwa [levelAt_start, Int.sub_self, Int.zero_add, Int.sub_add_cancel] at hoff

/-- The end of the block where control ends a block. -/
theorem Annotates.ending (h : Annotates T c g δ hook) {b : Nat} (hb : b < g.size) :
    ∃ m e, Chain T c g hook b 0 (δ b) m e ∧ Ending T g δ b m e :=
  (h.closes b hb).ending

/-- Levels that are annotated flow along the code. -/
theorem Annotates.flows (h : Annotates T c g δ hook) (hdepth : T.Measures depth) :
    g.Flows (levelAt depth g δ) where
  step := by
    intro p op arg _ hi _
    rw [levelAt_next hi]
  ends := by
    intro p id _ he
    obtain ⟨m, e, hchain, hend⟩ := h.ending (BlockGraph.lt_size_of_jmp he.jmp)
    have hmod := hchain.levelAt_modEq hdepth
    -- a block ends in one way only, and the annotation knows which
    cases hend with
    | ends he' _ hle =>
      have hid := he.jmp.symm.trans he'.jmp
      have hm : m = p.index := he'.size.symm.trans he.size
      cases hid
      subst hm
      rw [levelAt_start, ← hdepth.le hle]
      exact hmod.symm
    | branch _ hb _ _ _ => cases he.cjmp.symm.trans hb.cjmp
    | ret hr _ => cases he.jmp.symm.trans hr.jmp
  branch := by
    intro p op t f _ hop hb
    obtain ⟨m, e, hchain, hend⟩ := h.ending (BlockGraph.lt_size_of_jmp hb.jmp)
    have hmod := hchain.levelAt_modEq hdepth
    cases hend with
    | ends he _ _ => cases he.cjmp.symm.trans hb.cjmp
    | ret hr _ => cases hr.jmp.symm.trans hb.jmp
    | @branch op' t' f' hop' hb' _ _ hbr =>
      have ht := hb.cjmp.symm.trans hb'.cjmp
      have hf := hb.jmp.symm.trans hb'.jmp
      have hm : m = p.index := Nat.succ.inj (hb'.size.symm.trans hb.size)
      cases ht
      cases hf
      subst hm
      obtain ⟨pos, hi⟩ := hb.insn
      obtain ⟨pos', hi'⟩ := hb'.insn
      have hopeq : op' = op := by
        rw [hi] at hi'
        cases hi'
        rfl
      subst hopeq
      obtain ⟨h1, h2⟩ := hdepth.branches hop' hbr
      rw [levelAt_start, levelAt_start, h2]
      push_cast
      rw [h1]
      exact ⟨(hmod.add_right _).symm, ((hmod.add_right _).add_right _).symm⟩

/-! ## Few levels -/

section Bounds

/-- An instruction that control can come to. -/
def BlockGraph.Live (g : BlockGraph) (p : Point) : Prop :=
  g.Comes p ∧ ∃ op arg, g.InsnAt p op arg

/-- Each level below a depth, or the one below that, is the level of an instruction. -/
def Spans (g : BlockGraph) (level : Point → Int) (depth : Nat) : Prop :=
  ∀ k < depth, ∃ p, g.Live p ∧ (level p ≡ k [ZMOD 2 ^ 32] ∨ level p ≡ k - 1 [ZMOD 2 ^ 32])

variable {level : Point → Int} {N : Nat}
  (hlive : ∀ ps : List Point, ps.Nodup → (∀ p ∈ ps, g.Live p) → ps.length ≤ N)

include hlive

/-- As many different instructions as there are. -/
theorem le_of_live {M : Nat} {R : Nat → Point → Prop} (h : ∀ m < M, ∃ p, g.Live p ∧ R m p)
    (hinj : ∀ m m' p, m < M → m' < M → R m p → R m' p → m = m') : M ≤ N := by
  -- the points chosen for different numbers are different, so there are as many live ones
  have hps : ∀ K ≤ M, ∃ ps : List Point, ps.length = K ∧ ps.Nodup ∧
      ∀ p ∈ ps, g.Live p ∧ ∃ m < K, R m p := by
    intro K hK
    induction K with
    | zero => exact ⟨[], rfl, List.nodup_nil, by simp⟩
    | succ K ih =>
      obtain ⟨ps, hlen, hnodup, hps⟩ := ih (by omega)
      obtain ⟨p, hp, hR⟩ := h K (by omega)
      refine ⟨p :: ps, by simp [hlen], List.nodup_cons.2 ⟨fun hmem => ?_, hnodup⟩, ?_⟩
      · obtain ⟨m, hm, hRm⟩ := (hps p hmem).2
        have := hinj K m p (by omega) (by omega) hR hRm
        omega
      · intro q hq
        rcases List.mem_cons.1 hq with rfl | hq
        · exact ⟨hp, K, Nat.lt_succ_self _, hR⟩
        · obtain ⟨hl, m, hm, hRm⟩ := hps q hq
          exact ⟨hl, m, by omega, hRm⟩
  obtain ⟨ps, hlen, hnodup, hps⟩ := hps M (Nat.le_refl _)
  rw [← hlen]
  exact hlive ps hnodup fun p hp => (hps p hp).1

/-- A span is at most twice as deep as there are live points. -/
theorem Spans.le (hN : N < 2 ^ 31) {d : Nat} (h : Spans g level d) : d ≤ 2 * N := by
  -- every other level has an instruction of its own, as far as 32 bits can tell them apart
  have hle : min ((d + 1) / 2) (2 ^ 31) ≤ N := by
    refine le_of_live hlive (R := fun m p => level p ≡ (2 * m : Nat) [ZMOD 2 ^ 32] ∨
      level p ≡ (2 * m : Nat) - 1 [ZMOD 2 ^ 32]) (fun m hm => h (2 * m) (by omega)) ?_
    intro m m' p hm hm' h1 h2
    unfold Int.ModEq at h1 h2
    omega
  omega

/-- Instructions one on each of consecutive levels. -/
theorem le_of_consecutive (hN : N < 2 ^ 31) {n : Nat} {a : Int}
    (h : ∀ j < n, ∃ p op arg, g.Comes p ∧ g.InsnAt p op arg ∧
      level p ≡ a - j [ZMOD 2 ^ 32]) : n ≤ N := by
  have hle : min n (2 ^ 31) ≤ N := by
    refine le_of_live hlive (R := fun m p => level p ≡ a - m [ZMOD 2 ^ 32]) ?_ ?_
    · intro m hm
      obtain ⟨p, op, arg, hp, hi, hl⟩ := h m (by omega)
      exact ⟨p, ⟨hp, op, arg, hi⟩, hl⟩
    · intro m m' p hm hm' h1 h2
      unfold Int.ModEq at h1 h2
      omega
  omega

end Bounds

/-- An unpacking of a typed plan. -/
def SpreadAt (T : Typing C D) (c : C) (pool : Pool) (g : BlockGraph) (s : Point) (n : Nat) : Prop :=
  ∃ loops states targets lo q hi d d', (Plan.unpack n targets).At pool g loops s lo q hi ∧
    (Plan.unpack n targets).Typed T c states d d'

section Balanced

variable {pool : Pool} {N : Nat} (hpool : T.Covers pool) (hdepth : T.Measures depth)
  (h : Annotates T c g δ (SpreadAt T c pool g))
  (hlive : ∀ ps : List Point, ps.Nodup → (∀ p ∈ ps, g.Live p) → ps.length ≤ N) (hN : N < 2 ^ 28)

theorem Spans.mono {level : Point → Int} {d e : Nat} (hd : Spans g level d) (hle : e ≤ d) :
    Spans g level e := fun k hk => hd k (Nat.lt_of_lt_of_le hk hle)

/-- An instruction raises the stack by two levels at most. -/
theorem Spans.step {level : Point → Int} {p : Point} {d e : Nat} (hd : Spans g level d)
    (hp : g.Live p) (hlevel : (d : Int) = level p) (hle : e ≤ d + 2) : Spans g level e := by
  intro k hk
  rcases Nat.lt_or_ge k d with hkd | hkd
  · exact hd k hkd
  · refine ⟨p, hp, ?_⟩
    rcases (by omega : k = d ∨ k = d + 1) with rfl | rfl
    · exact .inl (by rw [hlevel])
    · exact .inr (by rw [← hlevel]; push_cast; simp)

/-- What is known of a block from an instruction on. -/
structure BlockBounded (depth : D → Nat) (g : BlockGraph) (δ : BlockId → D) (b n : Nat) : Prop where
  range : ∀ i, n < i → i ≤ (g.block b).insns.size →
    0 ≤ levelAt depth g δ ⟨b, i⟩ ∧ levelAt depth g δ ⟨b, i⟩ + 1 < 2 ^ 31
  jmp : ∀ id : Nat, (g.block b).jmp = some id →
    id < g.size ∧ Spans g (levelAt depth g δ) (depth (δ id)) ∧
      (depth (δ id) : Int) = levelAt depth g δ ⟨b, (g.block b).insns.size⟩ +
        Insn.iterating ((g.block b).insns.toList.drop n)
  cjmp : ∀ id : Nat, (g.block b).cjmp = some id →
    id < g.size ∧ Spans g (levelAt depth g δ) (depth (δ id)) ∧
      (depth (δ id) : Int) = levelAt depth g δ ⟨b, (g.block b).insns.size⟩

/-- One more instruction before. -/
theorem BlockBounded.cons {b n : Nat} {op : Opcode} {arg : UInt32}
    (hb : BlockBounded depth g δ b (n + 1)) (hi : g.InsnAt ⟨b, n⟩ op arg) (hop : op ≠ .iterJmp)
    (h0 : 0 ≤ levelAt depth g δ ⟨b, n + 1⟩) (h1 : levelAt depth g δ ⟨b, n + 1⟩ + 1 < 2 ^ 31) :
    BlockBounded depth g δ b n where
  range := by
    intro i hni hi
    rcases (by omega : i = n + 1 ∨ n + 1 < i) with rfl | hlt
    · exact ⟨h0, h1⟩
    · exact hb.range i hlt hi
  jmp := by
    obtain ⟨pos, hdrop⟩ := hi.drop_eq
    intro id hj
    rw [hdrop, Layout.iterating_cons, if_neg hop]
    exact hb.jmp id hj
  cjmp := hb.cjmp

include hpool hdepth h hlive hN

/-- A block that is entered at a depth which its levels span is bounded. -/
theorem Closes.bounded {b n : Nat} {d : D} (hcl : Closes T c g δ (SpreadAt T c pool g) b n d)
    (hc : g.Comes ⟨b, n⟩) (hspan : Spans g (levelAt depth g δ) (depth d))
    (hlevel : (depth d : Int) = levelAt depth g δ ⟨b, n⟩) : BlockBounded depth g δ b n := by
  have hdle : depth d ≤ 2 * N := hspan.le hlive (by omega)
  -- along the block: level and depth stay equal, and the levels so far span the depth
  induction hcl with
  | @step n d e op arg hi hop hs _ ih =>
    obtain ⟨e', hstep, hle⟩ := hs
    have h1 := hdepth.step_eq hop hstep (by omega)
    have h2 := hdepth.step_le hop hstep
    rw [hdepth.le hle] at h1 h2
    have h3 : levelAt depth g δ ⟨b, n + 1⟩ = _ := levelAt_next hi
    have hspan' := hspan.step ⟨hc, op, arg, hi⟩ hlevel h2
    have hdle' := hspan'.le hlive (by omega)
    have hlevel' : (depth e : Int) = levelAt depth g δ ⟨b, n + 1⟩ := by rw [h3, ← hlevel, h1]
    refine (ih (hc.next hi) hspan' hlevel' hdle').cons hi ?_ (by omega) (by omega)
    rintro rfl
    cases hop
  | @unpack n k d e hi hk hs _ ih =>
    obtain ⟨loops, states, targets, lo, q, hi', d1, d2, ⟨-, hat⟩, e1, -, hty⟩ := hk
    have hnext := hc.next hi
    -- each of the unpacked values is stored by an instruction of its own, at a level of its own
    have heach := Plan.At.comes_each hpool hdepth (h.flows hdepth) targets k hat hty hnext
    have hkN : k ≤ N := le_of_consecutive hlive (by omega) heach
    have h1 := hdepth.unpack hs
    have h2 : levelAt depth g δ ⟨b, n + 1⟩ = _ := levelAt_next hi
    have hsigned : Opcode.signedArg (UInt32.ofNat k) = k := by
      have hbv : Opcode.signedArg (UInt32.ofNat k) = (BitVec.ofNat 32 k).toInt := rfl
      rw [hbv, BitVec.toInt_ofNat', Int.bmod_eq_of_le] <;> omega
    have h3 : Opcode.stackEffect .unpack (UInt32.ofNat k) = k - 1 := by
      show Opcode.signedArg _ - 1 = _
      rw [hsigned]
    rw [h3] at h2
    have hlevel' : (depth e : Int) = levelAt depth g δ ⟨b, n + 1⟩ := by rw [h2, ← hlevel]; omega
    have hspan' : Spans g (levelAt depth g δ) (depth e) := by
      intro j hj
      rcases Nat.lt_or_ge j (depth d) with hjd | hjd
      · exact hspan j hjd
      · obtain ⟨p, op, arg, hp, hpi, hpl⟩ := heach (depth e - j) (by omega)
        refine ⟨p, ⟨hp, op, arg, hpi⟩, .inl (hpl.trans ?_)⟩
        show levelAt depth g δ ⟨b, n + 1⟩ - _ ≡ _ [ZMOD 2 ^ 32]
        rw [← hlevel', show ((depth e : Int) - (depth e - j : Nat)) = j by omega]
    have hdle' := hspan'.le hlive (by omega)
    exact (ih hnext hspan' hlevel' hdle').cons hi nofun (by omega) (by omega)
  | @ends n d id he hid hle =>
    have hsize : (g.block b).insns.size = n := he.size
    have hd := hdepth.le hle
    refine ⟨fun i h1 h2 => absurd h2 (by omega), fun id' hj => ?_, fun id' hj => ?_⟩
    · cases he.jmp.symm.trans hj
      refine ⟨hid, hd ▸ hspan, ?_⟩
      rw [hsize, ← hd, hlevel, List.drop_eq_nil_of_le (by rw [Array.length_toList, hsize])]
      simp [Insn.iterating]
    · cases he.cjmp.symm.trans hj
  | @branch n d op t f hop hb ht hf hbr =>
    have hsize : (g.block b).insns.size = n + 1 := hb.size
    -- the successors are as deep as the block is behind its branch; an iterator adds its element
    obtain ⟨h1, h2⟩ := hdepth.branches hop hbr
    have h3 : levelAt depth g δ ⟨b, n + 1⟩ = _ := levelAt_next hb.insn
    have h4 : op.stackEffect 0 ≤ 0 := by
      cases op with
      | cjmp => decide
      | iterJmp => decide
      | _ => cases hop
    have hspan' : Spans g (levelAt depth g δ) (depth (δ f)) := by
      refine hspan.step ⟨hc, op, 0, hb.insn⟩ hlevel ?_
      split at h2 <;> omega
    refine ⟨fun i h5 h6 => ?_, fun id hj => ?_, fun id hj => ?_⟩
    · obtain rfl : i = n + 1 := by omega
      omega
    · cases hb.jmp.symm.trans hj
      refine ⟨hf, hspan', ?_⟩
      obtain ⟨pos, hdrop⟩ := hb.insn.drop_eq
      have hend : (g.block b).insns.toList.drop (n + 1) = [] :=
        List.drop_eq_nil_of_le (by rw [Array.length_toList, hsize])
      rw [hsize, hdrop, hend, Layout.iterating_cons, h3, ← hlevel, h2]
      push_cast
      rw [h1]
      rfl
    · cases hb.cjmp.symm.trans hj
      refine ⟨ht, hspan.mono (by omega), ?_⟩
      rw [hsize, h3, ← hlevel, h1]
  | @ret n d hr ht =>
    have hsize : (g.block b).insns.size = n + 1 := hr.size
    have h1 := hdepth.ret ht
    have h2 : levelAt depth g δ ⟨b, n + 1⟩ = _ := levelAt_next hr.insn
    have h3 : Opcode.stackEffect .ret 0 = -1 := rfl
    refine ⟨fun i h5 h6 => ?_, fun id hj => ?_, fun id hj => ?_⟩
    · obtain rfl : i = n + 1 := by omega
      omega
    · cases hr.jmp.symm.trans hj
    · cases hr.cjmp.symm.trans hj

/-- Control comes to bounded blocks only. -/
theorem Annotates.bounded (hsize : 0 < g.size) {p : Point} (hp : g.Comes p) :
    p.block < g.size ∧ BlockBounded depth g δ p.block 0 := by
  have hkey : ∀ b : Nat, b < g.size → Spans g (levelAt depth g δ) (depth (δ b)) →
      g.Comes ⟨b, 0⟩ → BlockBounded depth g δ b 0 := fun b hb hspan hc =>
    Closes.bounded hpool hdepth h hlive hN (h.closes b hb) hc hspan (levelAt_start b).symm
  induction hp with
  | entry =>
    refine ⟨hsize, hkey 0 hsize (fun k hk => ?_) .entry⟩
    rw [h.start, hdepth.start] at hk
    exact absurd hk (Nat.not_lt_zero k)
  | next _ _ ih => exact ih
  | @jmp p id hc hs hj ih =>
    obtain ⟨hid, hspan, -⟩ := ih.2.jmp id hj
    exact ⟨hid, hkey id hid hspan (hc.jmp hs hj)⟩
  | @cjmp p id hc hs hj ih =>
    obtain ⟨hid, hspan, -⟩ := ih.2.cjmp id hj
    exact ⟨hid, hkey id hid hspan (hc.cjmp hs hj)⟩

/-- Empty blocks do nothing to the stack. -/
theorem Annotates.depth_leads (hsize : 0 < g.size) {b t : Nat} (hlead : Leads g b t)
    (hb : g.Comes ⟨b, 0⟩) : depth (δ t) = depth (δ b) := by
  induction hlead with
  | here _ => rfl
  | @skip b c t he hj _ ih =>
    have hc : g.Comes ⟨c, 0⟩ := hb.jmp (by rw [he]; rfl) hj
    obtain ⟨-, -, hd⟩ := (Annotates.bounded hpool hdepth h hlive hN hsize hb).2.jmp c hj
    rw [ih hc]
    simp only [he] at hd
    simpa [Insn.iterating] using hd

/-- A typed graph of few instructions is balanced, if its blocks lead to code. -/
theorem Annotates.balanced (hsize : 0 < g.size) (hled : ∀ id < g.size, g.Led id) :
    g.Balanced 0 fun b => depth (δ b) := by
  have hb : ∀ {b}, g.Reached 0 b → BlockBounded depth g δ b 0 := fun hr =>
    (Annotates.bounded hpool hdepth h hlive hN hsize hr.comes).2
  have hlevel : ∀ {b pre post}, (g.block b).insns.toList = pre ++ post →
      levelAt depth g δ ⟨b, pre.length⟩ = depth (δ b) + Insn.effects pre := by
    intro b pre post hpre
    simp [levelAt, hpre]
  -- the layout reckons depths in a block from its start, the annotation at each of its points
  have hlast : ∀ b, levelAt depth g δ ⟨b, (g.block b).insns.size⟩ =
      depth (δ b) + Insn.effects (g.block b).insns.toList := by
    intro b
    rw [← Array.length_toList]
    exact hlevel (List.append_nil _).symm
  have hrange : ∀ {b pre post}, g.Reached 0 b → (g.block b).insns.toList = pre ++ post →
      pre ≠ [] → 0 ≤ depth (δ b) + Insn.effects pre ∧
        depth (δ b) + Insn.effects pre + 1 < 2 ^ 31 := by
    intro b pre post hr hpre hne
    rw [← hlevel hpre]
    refine (hb hr).range pre.length (List.length_pos_iff.2 hne) ?_
    rw [← Array.length_toList, hpre, List.length_append]
    exact Nat.le_add_right _ _
  refine ⟨?_, ?_, ?_, ?_, ?_, ?_, ?_⟩
  · simp only [h.start, hdepth.start]
    rfl
  · exact fun hr hj => hled _ ((hb hr).jmp _ hj).1
  · exact fun hr hj => hled _ ((hb hr).cjmp _ hj).1
  · exact fun hr hpre hne => (hrange hr hpre hne).1
  · intro b pre post hr hpre hne
    have := (hrange hr hpre hne).2
    have : Insn.iterating pre ≤ 1 := by unfold Insn.iterating; split <;> decide
    omega
  · intro b c t hr hj hl
    have hc : g.Comes ⟨c, 0⟩ := (hr.comes.within (Nat.le_refl _)).jmp rfl hj
    rw [Annotates.depth_leads hpool hdepth h hlive hN hsize hl hc, ((hb hr).jmp c hj).2.2, hlast]
    simp
  · intro b c t hr hj hl
    have hc : g.Comes ⟨c, 0⟩ := (hr.comes.within (Nat.le_refl _)).cjmp rfl hj
    rw [Annotates.depth_leads hpool hdepth h hlive hN hsize hl hc, ((hb hr).cjmp c hj).2.2, hlast]

end Balanced

/-! ## Typed functions are assembled -/

/-- There is an instruction at every point of a chain. -/
theorem Chain.insnAt {b n m : Nat} {d e : D} (h : Chain T c g hook b n d m e) {k : Nat} (h1 : n ≤ k)
    (h2 : k < m) : ∃ op arg, g.InsnAt ⟨b, k⟩ op arg ∧ (op.isPlain = true ∨ op = .unpack) := by
  induction h with
  | refl _ _ => omega
  | @step n _ _ _ _ op arg hi hop _ _ ih =>
    rcases Nat.eq_or_lt_of_le h1 with rfl | h1
    · exact ⟨op, arg, hi, .inl hop⟩
    · exact ih h1 h2
  | @unpack n _ _ _ _ _ hi _ _ _ ih =>
    rcases Nat.eq_or_lt_of_le h1 with rfl | h1
    · exact ⟨_, _, hi, .inr rfl⟩
    · exact ih h1 h2

/-- Jumps and returns stand at the ends of blocks. -/
theorem Annotates.insnAt (h : Annotates T c g δ hook) {b k : Nat} {op : Opcode} {arg : UInt32}
    (hi : g.InsnAt ⟨b, k⟩ op arg) :
    (op.isPlain = true ∨ op = .unpack) ∨
      (op.isCondJump = true ∧ ∃ t f, g.BranchAt ⟨b, k⟩ op t f) ∨ op = .ret ∧ g.ReturnAt ⟨b, k⟩ := by
  obtain ⟨pos, hget⟩ := hi
  have hk : k < (g.block b).insns.size := (Array.getElem?_eq_some_iff.1 hget).1
  have hb : b < g.size := BlockGraph.lt_size_of_insns_ne (BlockGraph.InsnAt.insns_ne ⟨pos, hget⟩)
  have hsame : ∀ {op' arg'}, g.InsnAt ⟨b, k⟩ op' arg' → op' = op := by
    rintro op' arg' ⟨pos', hget'⟩
    cases hget.symm.trans hget'
    rfl
  obtain ⟨m, e, hchain, hend⟩ := h.ending hb
  -- before the end of the chain all is straight, and what follows it is the block's last
  -- instruction
  rcases Nat.lt_or_ge k m with hkm | hkm
  · obtain ⟨op', arg', hi', hop⟩ := hchain.insnAt (Nat.zero_le k) hkm
    rw [hsame hi'] at hop
    exact .inl hop
  · cases hend with
    | ends he _ _ =>
      have : (g.block b).insns.size = m := he.size
      omega
    | @branch op' t f hop hbr _ _ _ =>
      have : (g.block b).insns.size = m + 1 := hbr.size
      obtain rfl : k = m := by omega
      obtain rfl := hsame hbr.insn
      exact .inr (.inl ⟨hop, t, f, hbr⟩)
    | ret hr _ =>
      have : (g.block b).insns.size = m + 1 := hr.size
      obtain rfl : k = m := by omega
      exact .inr (.inr ⟨(hsame hr.insn).symm, hr⟩)

/-- Jumps lead to blocks that are there. -/
theorem Annotates.jmp_lt (h : Annotates T c g δ hook) {b id : Nat}
    (hj : (g.block b).jmp = some id) : id < g.size := by
  obtain ⟨m, e, -, hend⟩ := h.ending (BlockGraph.lt_size_of_jmp hj)
  cases hend with
  | ends he hid _ =>
    cases he.jmp.symm.trans hj
    exact hid
  | branch _ hb _ hf _ =>
    cases hb.jmp.symm.trans hj
    exact hf
  | ret hr _ => cases hr.jmp.symm.trans hj

/-- Branches lead to blocks that are there, from blocks that are not empty. -/
theorem Annotates.cjmp_lt (h : Annotates T c g δ hook) {b id : Nat}
    (hj : (g.block b).cjmp = some id) : id < g.size ∧ (g.block b).insns ≠ #[] := by
  have hb : b < g.size := by
    by_contra hb
    rw [BlockGraph.block_of_size_le (Nat.not_lt.1 hb)] at hj
    cases hj
  obtain ⟨m, e, -, hend⟩ := h.ending hb
  cases hend with
  | ends he _ _ => cases he.cjmp.symm.trans hj
  | branch _ hbr ht _ _ =>
    cases hbr.cjmp.symm.trans hj
    exact ⟨ht, hbr.insn.insns_ne⟩
  | ret hr _ => cases hr.cjmp.symm.trans hj

/-- The instructions of blocks in a row are at most as many as the bytes. -/
theorem BlockGraph.points_le_planned (g : BlockGraph) (bs : List BlockId) (next : Option BlockId) :
    (bs.flatMap fun b => (List.range (g.block b).insns.size).map (Point.mk b)).length ≤
      g.planned bs next := by
  have hone : ∀ b : Nat, (g.block b).insns.size ≤ g.codeSize b := fun b =>
    Insn.length_le_sizes (g.block b).insns.toList
  induction bs with
  | nil => exact Nat.le_refl _
  | cons b bs ih =>
    have := hone b
    cases bs with
    | nil =>
      simp only [List.flatMap_cons, List.flatMap_nil, List.append_nil, List.length_map,
        List.length_range, planned]
      omega
    | cons c bs =>
      rw [List.flatMap_cons, List.length_append, List.length_map, List.length_range, planned]
      omega

/-- There are no more live points than the code has bytes. -/
theorem BlockGraph.live_le_need (hsize : 0 < g.size) {l : Layout}
    (hcjmp : ∀ b c, (g.block b).cjmp = some c → (g.block b).insns ≠ #[])
    (hflat : g.flat.layout 0 = .ok l) (ps : List Point) (hnodup : ps.Nodup)
    (hps : ∀ p ∈ ps, g.Live p) : ps.length ≤ g.need := by
  have hcover := g.flat.covering_of_layout (by rwa [size_flat]) hflat
  have hplanned : l.size = g.flat.planned l.order.toList none := hcover.placing.size_eq
  have hle := g.flat.points_le_planned l.order.toList none
  rw [← hplanned] at hle
  rw [need, hflat]
  refine Nat.le_trans (List.Subperm.length_le (hnodup.subperm fun p hp => ?_)) hle
  obtain ⟨hc, op, arg, pos, hi⟩ := hps p hp
  refine List.mem_flatMap.2 ⟨p.block, ?_, List.mem_map.2 ⟨p.index, ?_, rfl⟩⟩
  · exact (hcover.mem_order_iff p.block).2 (reached_flat_iff.2 (hc.reached hcjmp ⟨pos, hi⟩))
  · have h1 := (Array.getElem?_eq_some_iff.1 hi).1
    have h2 := Insn.length_le_sizes (g.block p.block).insns.toList
    rw [Array.length_toList] at h2
    rw [List.mem_range, block_flat, Block.flat, Array.size_replicate]
    omega

/-- The graph of a typed function that needs few bytes is laid out and assembled. -/
theorem Plan.At.assembles {pool : Pool} (hpool : T.Covers pool) (hdepth : T.Measures depth)
    {body : Plan} {e : Point} {d : D} (h : body.At pool g [] ⟨0, 0⟩ 1 e g.size)
    (hnone : g.InsnAt e .pushNone 0) (hret : g.ReturnAt e.next)
    (ht : body.Typed T c (some []) T.start d) (hends : T.Ends c d) (hneed : g.need < 2 ^ 28)
    (pos : Position) : ∃ l a, g.layout 0 = .ok l ∧ l.assemble g pos = .ok a := by
  have hsize : 0 < g.size := (Plan.At.range body h).1
  obtain ⟨δ, hδ⟩ : ∃ δ : Nat → D, Annotates T c g δ (SpreadAt T c pool g) :=
    Plan.At.annotated hpool
      (fun _ _ _ _ _ _ _ _ _ _ hat hty => ⟨_, _, _, _, _, _, _, _, hat, hty⟩) h hnone hret ht
      hends
  have hled : ∀ id < g.size, g.Led id := by
    obtain ⟨h0, h1⟩ := Plan.At.leads hpool body h ht (by simp) hnone.led
    intro id hid
    rcases Nat.eq_zero_or_pos id with rfl | hpos
    · exact h0
    · exact h1 id hpos hid
  -- with its instructions dropped the graph lays out whatever the depths are, which already gives
  -- the size and so the bound that the depths need
  have hbalanced : g.flat.Balanced 0 fun _ => 0 := BlockGraph.balanced_flat
    (fun _ hj => hled _ (hδ.jmp_lt hj)) (fun _ hj => hled _ (hδ.cjmp_lt hj).1)
  obtain ⟨l', hflat⟩ := hbalanced.layout (by rwa [BlockGraph.size_flat])
  have hlive := BlockGraph.live_le_need hsize (fun b c hj => (hδ.cjmp_lt hj).2) hflat
  obtain ⟨l, hl⟩ := (hδ.balanced hpool hdepth hlive hneed hsize hled).layout hsize
  have hlsize : l.size < 2 ^ 28 := by rwa [BlockGraph.size_eq_need hl hflat]
  obtain ⟨a, ha⟩ := Layout.assemble_total (g.covering_of_layout hsize hl) hlsize (by
    intro b _ i hi hop
    obtain ⟨k, hk⟩ := List.mem_iff_getElem?.1 hi
    have hat : g.InsnAt ⟨b, k⟩ i.op i.arg := ⟨i.pos, by rw [← Array.getElem?_toList]; exact hk⟩
    rcases hδ.insnAt hat with (hp | hu) | ⟨-, t, f, hbr⟩ | ⟨hr, -⟩
    · cases hop.symm.trans (Opcode.isCondJump_of_isPlain hp)
    · rw [hu] at hop
      cases hop
    · exact ⟨t, hbr.cjmp⟩
    · rw [hr] at hop
      cases hop) pos
  exact ⟨l, a, hl, ha⟩

end

end Starlark
