import Starlark.Proofs.Lower.Realize

/-!
# Typing plans and graphs

A typing gives every instruction a relation between abstract states: depths of the operand stack,
say, or the kinds of the values on it. A plan is typed along its tree (`Plan.Typed`). If it stands
in a graph, then its blocks can be given states such that every instruction and every edge is typed
(`Plan.At.annotate`): each block has one state, whichever way control comes to it.
-/

set_option autoImplicit false

namespace Starlark

/-- Opcodes that go on to the next instruction and stand alone. -/
def Opcode.isPlain (op : Opcode) : Bool := !op.isJump && op != .ret && op != .unpack

/-- Abstract states, and what the instructions of a function do to them. What they do depends on the
function, of which a context is known. -/
structure Typing (C D : Type) where
  /-- The context of a nested function. -/
  inner : C → Function → C
  /-- The functions that may be nested. -/
  accepts : C → Function → Prop
  /-- The state in which a function starts. -/
  start : D
  /-- The second state says less. -/
  le : D → D → Prop
  step : C → Opcode → UInt32 → D → D → Prop
  /-- Unpacking into a number of elements. -/
  unpack : Nat → D → D → Prop
  /-- The second state has one element less. -/
  drop : D → D → Prop
  /-- The state before a conditional jump, and those where it is taken and where it is not. -/
  branch : Opcode → D → D → D → Prop
  ret : D → Prop
  /-- The operands that stand for names, constants and functions. -/
  name : String → UInt32 → Prop
  const : Constant → UInt32 → Prop
  func : Function → UInt32 → Prop

namespace Typing

variable {C D : Type}

/-- An instruction, after which less may be said. -/
def Steps (T : Typing C D) (c : C) (op : Opcode) (arg : UInt32) (d d' : D) : Prop :=
  ∃ e, T.step c op arg d e ∧ T.le e d'

/-- A conditional jump, after which less may be said. -/
def Branches (T : Typing C D) (op : Opcode) (d t f : D) : Prop :=
  ∃ t' f', T.branch op d t' f' ∧ T.le t' t ∧ T.le f' f

/-- A function may end without a return. -/
def Ends (T : Typing C D) (c : C) (d : D) : Prop := ∃ e, T.Steps c .pushNone 0 d e ∧ T.ret e

/-- The operands are indices of a pool. -/
structure Covers (T : Typing C D) (pool : Pool) : Prop where
  name : ∀ s i, IndexOf pool.names s i → T.name s i
  const : ∀ c i, IndexOf pool.constants c i → T.const c i
  func : ∀ f a i, IndexOf pool.functions (Function.compiled a f) i → T.func f i

end Typing

mutual

/-- A plan leads from a state to another. Among statements, `loops` has the states in which the
loops around are left and continued; within an expression there are none. -/
def Plan.Typed {C D : Type} (T : Typing C D) (c : C) (loops : Option (List (D × D))) :
    Plan → (d d' : D) → Prop
  | .skip, d, d' => d = d'
  | .pos _, d, d' => d = d'
  | .load _, d, d' => d = d'
  | .seq p q, d, d' => ∃ e, p.Typed T c loops d e ∧ q.Typed T c loops e d'
  | .op o, d, d' => o.isPlain = true ∧ o.hasArg = false ∧ T.Steps c o 0 d d'
  | .arg o n, d, d' => o.isPlain = true ∧ o.hasArg = true ∧ T.Steps c o n d d'
  | .const x, d, d' => ∀ i, T.const x i → T.Steps c .constant i d d'
  | .name s k, d, d' => ∀ i, T.name s i → (k i).Typed T c loops d d'
  | .unpack n targets, d, d' => ∃ e, T.unpack n d e ∧ targets.TypedEach T c n e d'
  | .either test p q, d, d' =>
    ∃ e1 e2 a b, test.Typed T c d e1 e2 ∧ p.Typed T c loops e1 a ∧ T.le a d' ∧
      q.Typed T c loops e2 b ∧ T.le b d'
  | .guard test p, d, d' =>
    ∃ e a, test.Typed T c d e d' ∧ p.Typed T c loops e a ∧ T.le a d'
  | .short stopIf p q, d, d' =>
    ∃ e e1 s s1 a, p.Typed T c none d e ∧ T.Steps c .dup 0 e e1 ∧
      T.Branches .cjmp e1 (if stopIf then d' else s) (if stopIf then s else d') ∧
      T.Steps c .pop 0 s s1 ∧ q.Typed T c none s1 a ∧ T.le a d'
  | .each isLoop iterable _ vars body, d, d' =>
    ∃ e e1 head tail round e2 e3, iterable.Typed T c none d e ∧ T.Steps c .iterPush 0 e e1 ∧
      T.le e1 head ∧ T.Branches .iterJmp head tail round ∧ vars.Typed T c none round e2 ∧
      (if isLoop then ∃ ls, loops = some ls ∧ body.Typed T c (some ((tail, head) :: ls)) e2 e3
        else body.Typed T c loops e2 e3) ∧
      T.le e3 head ∧ T.Steps c .iterPop 0 tail d'
  | .whileLoop test body, d, d' =>
    ∃ head round e ls, loops = some ls ∧ T.le d head ∧ test.Typed T c head round d' ∧
      body.Typed T c (some ((d', head) :: ls)) round e ∧ T.le e head
  | .leave isBreak, d, _ =>
    ∃ l ls, loops = some (l :: ls) ∧ T.le d (if isBreak then l.1 else l.2)
  | .ret, d, _ => loops.isSome = true ∧ T.ret d
  | .func f body k, d, d' =>
    T.accepts c f ∧
      (∃ e, body.Typed T (T.inner c f) (some []) T.start e ∧ T.Ends (T.inner c f) e) ∧
      ∀ i, T.func f i → (k i).Typed T c loops d d'
  | .fail _, _, _ => False

/-- A plan stores `n` elements, one after another. -/
def Plan.TypedEach {C D : Type} (T : Typing C D) (c : C) : Plan → (n : Nat) → (d d' : D) → Prop
  | .skip, 0, d, d' => d = d'
  | .seq p q, n + 1, d, d' => ∃ e, p.Typed T c none d e ∧ T.drop d e ∧ q.TypedEach T c n e d'
  | _, _, _, _ => False

/-- A test leads from a state to the states where it is true and where it is not. -/
def Test.Typed {C D : Type} (T : Typing C D) (c : C) : Test → (d t f : D) → Prop
  | .on p, d, t, f => ∃ e, p.Typed T c none d e ∧ T.Branches .cjmp e t f
  | .not test, d, t, f => test.Typed T c d f t
  | .both p test, d, t, f =>
    ∃ e s, p.Typed T c none d e ∧ T.Branches .cjmp e s f ∧ test.Typed T c s t f
  | .either p test, d, t, f =>
    ∃ e s, p.Typed T c none d e ∧ T.Branches .cjmp e t s ∧ test.Typed T c s t f

end

/-- What is typed target by target is typed as a whole. -/
theorem Plan.TypedEach.typed {C D : Type} {T : Typing C D} {c : C} {p : Plan} {n : Nat} {d d' : D}
    (h : p.TypedEach T c n d d') : p.Typed T c none d d' := by
  match p, n with
  | .skip, 0 => exact h
  | .seq p q, n + 1 =>
    obtain ⟨e, hp, -, hq⟩ := h
    exact ⟨e, hp, hq.typed⟩

/-! ## Typed blocks -/

section Graph

variable {C D : Type} (T : Typing C D) (c : C) (g : BlockGraph) (δ : BlockId → D)
  (hook : Point → Nat → Prop)

/-- From an instruction of a block to a later one. Unpacking has the property `hook`. -/
inductive Chain (b : Nat) : Nat → D → Nat → D → Prop where
  | refl (n : Nat) (d : D) : Chain b n d n d
  | step {n m : Nat} {d e f : D} {op : Opcode} {arg : UInt32} :
      g.InsnAt ⟨b, n⟩ op arg → op.isPlain = true → T.Steps c op arg d e →
        Chain b (n + 1) e m f → Chain b n d m f
  | unpack {n m k : Nat} {d e f : D} :
      g.InsnAt ⟨b, n⟩ .unpack (UInt32.ofNat k) → hook ⟨b, n⟩ k → T.unpack k d e →
        Chain b (n + 1) e m f → Chain b n d m f

/-- From an instruction of a block to its end, and on to the states of other blocks. -/
inductive Closes (b : Nat) : Nat → D → Prop where
  | step {n : Nat} {d e : D} {op : Opcode} {arg : UInt32} :
      g.InsnAt ⟨b, n⟩ op arg → op.isPlain = true → T.Steps c op arg d e →
        Closes b (n + 1) e → Closes b n d
  | unpack {n k : Nat} {d e : D} :
      g.InsnAt ⟨b, n⟩ .unpack (UInt32.ofNat k) → hook ⟨b, n⟩ k → T.unpack k d e →
        Closes b (n + 1) e → Closes b n d
  | ends {n : Nat} {d : D} {id : Nat} :
      g.EndsAt ⟨b, n⟩ id → id < g.size → T.le d (δ id) → Closes b n d
  | branch {n : Nat} {d : D} {op : Opcode} {t f : Nat} :
      op.isCondJump = true → g.BranchAt ⟨b, n⟩ op t f → t < g.size → f < g.size →
        T.Branches op d (δ t) (δ f) → Closes b n d
  | ret {n : Nat} {d : D} : g.ReturnAt ⟨b, n⟩ → T.ret d → Closes b n d

/-- From a point to another: within a block, or out of one block and into the other. -/
inductive Tracks (s : Point) (d : D) (q : Point) (d' : D) : Prop where
  | inside : s.block = q.block → Chain T c g hook s.block s.index d q.index d' → Tracks s d q d'
  | across : s.block ≠ q.block → Closes T c g δ hook s.block s.index d →
      Chain T c g hook q.block 0 (δ q.block) q.index d' → Tracks s d q d'

end Graph

/-- The states of the blocks of a function. -/
structure Annotates {C D : Type} (T : Typing C D) (c : C) (g : BlockGraph) (δ : BlockId → D)
    (hook : Point → Nat → Prop) : Prop where
  start : δ 0 = T.start
  closes : ∀ id < g.size, Closes T c g δ hook id 0 (δ id)

section

variable {C D : Type} {T : Typing C D} {c : C} {g : BlockGraph} {δ : BlockId → D}
  {hook : Point → Nat → Prop}

/-- Chains of instructions go on from one another. -/
theorem Chain.trans {b n m k : Nat} {d e f : D} (h : Chain T c g hook b n d m e)
    (h' : Chain T c g hook b m e k f) : Chain T c g hook b n d k f := by
  induction h with
  | refl _ _ => exact h'
  | step hi hop hs _ ih => exact .step hi hop hs (ih h')
  | unpack hi hk hs _ ih => exact .unpack hi hk hs (ih h')

/-- A chain that goes on to the end of the block. -/
theorem Chain.closes {b n m : Nat} {d e : D} (h : Chain T c g hook b n d m e)
    (h' : Closes T c g δ hook b m e) : Closes T c g δ hook b n d := by
  induction h with
  | refl _ _ => exact h'
  | step hi hop hs _ ih => exact .step hi hop hs (ih h')
  | unpack hi hk hs _ ih => exact .unpack hi hk hs (ih h')

namespace Tracks

variable {s m q : Point} {d e d' : D}

theorem refl (s : Point) (d : D) : Tracks T c g δ hook s d s d := .inside rfl (.refl _ _)

/-- If a track leads to the end of a block, the block where it starts is closed. -/
theorem closes (h : Tracks T c g δ hook s d q d') (h' : Closes T c g δ hook q.block q.index d') :
    Closes T c g δ hook s.block s.index d := by
  cases h with
  | inside hb hchain =>
    rw [← hb] at h'
    exact hchain.closes h'
  | across _ hcl _ => exact hcl

end Tracks

/-- A block of the graph has a state. -/
def BlockGraph.StateOf (g : BlockGraph) (δ : BlockId → D) (id : Nat) (d : D) : Prop :=
  id < g.size ∧ δ id = d

/-- The states of the loops around are those of their blocks. -/
def LoopsAt (g : BlockGraph) (δ : BlockId → D) (loops : List Loop)
    (states : Option (List (D × D))) : Prop :=
  ∀ ds, states = some ds →
    List.Forall₂ (fun l d => g.StateOf δ l.breakTo d.1 ∧ g.StateOf δ l.continueTo d.2) loops ds

/-- Where no loops are tracked nothing is asked of them. -/
theorem LoopsAt.none (g : BlockGraph) (δ : BlockId → D) (loops : List Loop) :
    LoopsAt g δ loops none := nofun

/-- A loop around the others. -/
theorem LoopsAt.cons {loops : List Loop} {ds : List (D × D)} (h : LoopsAt g δ loops (some ds))
    {l : Loop} {d : D × D} (hb : g.StateOf δ l.breakTo d.1) (hc : g.StateOf δ l.continueTo d.2) :
    LoopsAt g δ (l :: loops) (some (d :: ds)) := by
  rintro _ ⟨⟩
  exact .cons ⟨hb, hc⟩ (h ds rfl)

/-- All blocks from `lo` up to `hi` have a property. -/
def AllFrom (P : Nat → Prop) (lo hi : Nat) : Prop := ∀ id : Nat, lo ≤ id → id < hi → P id

namespace AllFrom

variable {P : Nat → Prop} {lo mid hi : Nat}

theorem nil (n : Nat) : AllFrom P n n := fun _ h1 h2 => absurd h2 (Nat.not_lt.2 h1)

/-- What holds of the blocks of two ranges in a row holds of both. -/
theorem append (h : AllFrom P lo mid) (h' : AllFrom P mid hi) : AllFrom P lo hi := by
  intro id h1 h2
  rcases Nat.lt_or_ge id mid with h3 | h3
  · exact h id h1 h3
  · exact h' id h3 h2

theorem cons (h : P lo) (h' : AllFrom P (lo + 1) hi) : AllFrom P lo hi := by
  intro id h1 h2
  rcases Nat.eq_or_lt_of_le h1 with rfl | h3
  · exact h
  · exact h' id h3 h2

end AllFrom

/-- The blocks from `lo` up to `hi` are closed. -/
def ClosedOn (T : Typing C D) (c : C) (g : BlockGraph) (δ : BlockId → D) (hook : Point → Nat → Prop)
    (lo hi : Nat) : Prop :=
  AllFrom (fun id => Closes T c g δ hook id 0 (δ id)) lo hi

theorem ClosedOn.cons {lo hi : Nat} {d : D} (h : Closes T c g δ hook lo 0 d) (hd : δ lo = d)
    (h' : ClosedOn T c g δ hook (lo + 1) hi) : ClosedOn T c g δ hook lo hi :=
  AllFrom.cons (hd.symm ▸ h) h'

/-- The blocks from `lo` up to `hi` are typed, but for the one where the track ends. -/
structure Typeable (T : Typing C D) (c : C) (g : BlockGraph) (δ : BlockId → D)
    (hook : Point → Nat → Prop) (s : Point) (d : D) (lo : Nat) (q : Point) (d' : D) (hi : Nat) :
    Prop where
  tracks : Tracks T c g δ hook s d q d'
  closes : ∀ id : Nat, lo ≤ id → id < hi → id ≠ q.block → Closes T c g δ hook id 0 (δ id)

namespace Typeable

variable {s m q : Point} {d e d' : D} {lo mid hi : Nat}

theorem refl (s : Point) (d : D) (lo : Nat) : Typeable T c g δ hook s d lo s d lo :=
  ⟨.refl s d, fun _ h1 h2 => absurd h2 (Nat.not_lt.2 h1)⟩

/-- One instruction, typed by its step. -/
theorem single {op : Opcode} {arg : UInt32} (hi : g.InsnAt s op arg)
    (hop : op.isPlain = true) (hs : T.Steps c op arg d d') (lo : Nat) :
    Typeable T c g δ hook s d lo s.next d' lo :=
  ⟨.inside rfl (.step hi hop hs (.refl _ _)), fun _ h1 h2 => absurd h2 (Nat.not_lt.2 h1)⟩

/-- An unpacking, typed by what it gives. -/
theorem spread {k : Nat} (hi : g.InsnAt s .unpack (UInt32.ofNat k)) (hk : hook s k)
    (hs : T.unpack k d d') (lo : Nat) : Typeable T c g δ hook s d lo s.next d' lo :=
  ⟨.inside rfl (.unpack hi hk hs (.refl _ _)), fun _ h1 h2 => absurd h2 (Nat.not_lt.2 h1)⟩

/-- Code behind code, with its own new blocks. -/
theorem trans (h : Typeable T c g δ hook s d lo m e mid)
    (h' : Typeable T c g δ hook m e mid q d' hi) (hs : s.block < lo) (hlo : lo ≤ mid)
    (hq : q.block = m.block ∨ mid ≤ q.block ∧ q.block < hi) :
    Typeable T c g δ hook s d lo q d' hi := by
  refine ⟨?_, ?_⟩
  -- a track either stays in its block or ends it and goes on in another
  · cases h.tracks with
    | inside hb hchain =>
      cases h'.tracks with
      | inside hb' hchain' =>
        rw [← hb] at hchain'
        exact .inside (hb.trans hb') (hchain.trans hchain')
      | across hb' hcl hchain' =>
        rw [← hb] at hb' hcl
        exact .across hb' (hchain.closes hcl) hchain'
    | across hb hcl hchain =>
      cases h'.tracks with
      | inside hb' hchain' =>
        rw [hb'] at hchain hchain'
        exact .across (fun e => hb (e.trans hb'.symm)) hcl (hchain.trans hchain')
      | across hb' hcl' hchain' =>
        refine .across (fun e => ?_) hcl hchain'
        rcases hq with hq | hq
        · exact hb' hq.symm
        · omega
  · intro id h1 h2 hne
    by_cases hid : id < mid
    · by_cases hidm : id = m.block
      · -- the block where the first track ends is closed by the second
        subst hidm
        cases h.tracks with
        | inside hb _ => omega
        | across _ _ hchain =>
          cases h'.tracks with
          | inside hb' _ => exact absurd hb' hne
          | across _ hcl _ => exact hchain.closes hcl
      · exact h.closes id h1 hid hidm
    · exact h'.closes id (Nat.not_lt.1 hid) h2 hne

/-- If the end of the track is closed, all is closed. -/
theorem close (h : Typeable T c g δ hook s d lo q d' hi) (hs : s.block < lo)
    (hq : Closes T c g δ hook q.block q.index d') :
    Closes T c g δ hook s.block s.index d ∧ ClosedOn T c g δ hook lo hi := by
  refine ⟨h.tracks.closes hq, fun id h1 h2 => ?_⟩
  by_cases hid : id = q.block
  · subst hid
    cases h.tracks with
    | inside hb _ => omega
    | across _ _ hchain => exact hchain.closes hq
  · exact h.closes id h1 h2 hid

/-- A track that is closed at its start leads to a block in the middle. -/
theorem of_closed (hs : s.block < lo) (hclosed : Closes T c g δ hook s.block s.index d)
    (hlow : ClosedOn T c g δ hook lo q.block) (hhigh : ClosedOn T c g δ hook (q.block + 1) hi)
    (hlo : lo ≤ q.block) (hchain : Chain T c g hook q.block 0 (δ q.block) q.index d') :
    Typeable T c g δ hook s d lo q d' hi := by
  refine ⟨.across (by omega) hclosed hchain, fun id h1 h2 hne => ?_⟩
  rcases Nat.lt_or_ge id q.block with h3 | h3
  · exact hlow id h1 h3
  · exact hhigh id (by omega) h2

end Typeable

/-! ## Where plans end -/

mutual

/-- A plan ends in the block where it starts or in one of its own. -/
theorem Plan.At.range {pool : Pool} {loops : List Loop} (p : Plan) {s q : Point} {lo hi : Nat}
    (h : p.At pool g loops s lo q hi) :
    lo ≤ hi ∧ (q.block = s.block ∨ lo ≤ q.block ∧ q.block < hi) := by
  -- the blocks of the parts follow one another; a plan with blocks of its own ends in one of them
  match p with
  | .skip | .pos _ | .load _ =>
    obtain ⟨rfl, rfl⟩ := h
    exact ⟨Nat.le_refl _, .inl rfl⟩
  | .op _ | .arg _ _ =>
    obtain ⟨-, rfl, rfl⟩ := h
    exact ⟨Nat.le_refl _, .inl rfl⟩
  | .const _ =>
    obtain ⟨_, -, -, rfl, rfl⟩ := h
    exact ⟨Nat.le_refl _, .inl rfl⟩
  | .name _ k =>
    obtain ⟨i, -, hk⟩ := h
    exact Plan.At.range (k i) hk
  | .func _ _ k =>
    obtain ⟨i, _, -, -, hk⟩ := h
    exact Plan.At.range (k i) hk
  | .unpack _ targets =>
    obtain ⟨-, ht⟩ := h
    simpa [Point.next] using Plan.At.range targets ht
  | .seq p r =>
    obtain ⟨m, mid, hp, hr⟩ := h
    obtain ⟨h1, h2⟩ := Plan.At.range p hp
    obtain ⟨h3, h4⟩ := Plan.At.range r hr
    omega
  | .either test p r =>
    obtain ⟨m1, q1, m2, q2, ht, hp, -, hr, -, rfl⟩ := h
    have h1 := Test.At.range test ht
    have h2 := (Plan.At.range p hp).1
    have h3 := (Plan.At.range r hr).1
    simp only
    omega
  | .guard test p =>
    obtain ⟨m1, q1, ht, hp, -, rfl⟩ := h
    have h1 := Test.At.range test ht
    have h2 := (Plan.At.range p hp).1
    simp only
    omega
  | .short _ p r =>
    obtain ⟨m, mid, q1, hp, -, -, -, hr, -, rfl⟩ := h
    have h1 := (Plan.At.range p hp).1
    have h2 := (Plan.At.range r hr).1
    simp only
    omega
  | .each _ iterable _ vars body =>
    obtain ⟨m1, h1, m2, h2, m3, hit, -, -, -, hvars, hbody, -, -, rfl⟩ := h
    have h3 := (Plan.At.range iterable hit).1
    have h4 := (Plan.At.range vars hvars).1
    have h5 := (Plan.At.range body hbody).1
    simp only
    omega
  | .whileLoop test body =>
    obtain ⟨m1, q1, -, ht, hbody, -, rfl⟩ := h
    have h1 := Test.At.range test ht
    have h2 := (Plan.At.range body hbody).1
    simp only
    omega
  | .leave _ | .ret =>
    obtain ⟨-, rfl, rfl⟩ := h
    exact ⟨Nat.le_succ _, .inr ⟨Nat.le_refl _, Nat.lt_succ_self _⟩⟩
  | .fail _ => exact h.elim

/-- A test takes up the blocks of a range. -/
theorem Test.At.range {pool : Pool} {loops : List Loop} (x : Test) {s : Point} {lo hi : Nat}
    {t f : BlockId} (h : x.At pool g loops s lo t f hi) : lo ≤ hi := by
  match x with
  | .on p =>
    obtain ⟨m, hp, -⟩ := h
    exact (Plan.At.range p hp).1
  | .not x => exact Test.At.range x h
  | .both p x | .either p x =>
    obtain ⟨m, mid, hp, -, hx⟩ := h
    have h1 := (Plan.At.range p hp).1
    have h2 := Test.At.range x hx
    omega

end

/-! ## States for blocks -/

/-- States agree on the blocks from `lo` up to `hi`. -/
def AgreeOn (δ δ0 : Nat → D) (lo hi : Nat) : Prop := ∀ id : Nat, lo ≤ id → id < hi → δ id = δ0 id

/-- States of the blocks below `m`, and states of the others. -/
def splice (m : Nat) (δ1 δ2 : Nat → D) (id : Nat) : D := if id < m then δ1 id else δ2 id

namespace AgreeOn

variable {δ1 δ2 : Nat → D} {m lo hi : Nat} {d : D}

/-- States that agree with a splice agree with its halves. -/
theorem split (h : AgreeOn δ (splice m δ1 δ2) lo hi) (hlo : lo ≤ m) (hhi : m ≤ hi) :
    AgreeOn δ δ1 lo m ∧ AgreeOn δ δ2 m hi := by
  constructor
  · intro id h1 h2
    rw [h id h1 (by omega), splice, if_pos h2]
  · intro id h1 h2
    rw [h id (by omega) h2, splice, if_neg (by omega)]

/-- The first block has a state of its own. -/
theorem first (h : AgreeOn δ (splice (lo + 1) (fun _ => d) δ2) lo hi) (hlt : lo < hi) :
    δ lo = d ∧ AgreeOn δ δ2 (lo + 1) hi := by
  obtain ⟨h1, h2⟩ := h.split (Nat.le_succ lo) hlt
  exact ⟨h1 lo (Nat.le_refl lo) (Nat.lt_succ_self lo), h2⟩

end AgreeOn

section Annotate

variable (T c g hook) (pool : Pool)

/-- Wherever a typed plan stands, its blocks can be given states. -/
def Plan.Annotable (p : Plan) : Prop :=
  ∀ ⦃loops : List Loop⦄ ⦃states : Option (List (D × D))⦄ ⦃s q : Point⦄ ⦃lo hi : Nat⦄ ⦃d d' : D⦄,
    p.At pool g loops s lo q hi → p.Typed T c states d d' → s.block < lo → hi ≤ g.size →
    ∃ δ0 : Nat → D, ∀ δ : Nat → D, AgreeOn δ δ0 lo hi → LoopsAt g δ loops states →
      Typeable T c g δ hook s d lo q d' hi

/-- Wherever a typed test stands, its blocks can be given states. -/
def Test.Annotable (x : Test) : Prop :=
  ∀ ⦃loops : List Loop⦄ ⦃s : Point⦄ ⦃lo hi : Nat⦄ ⦃t f : BlockId⦄ ⦃d dt df : D⦄,
    x.At pool g loops s lo t f hi → x.Typed T c d dt df → s.block < lo → hi ≤ g.size →
    ∃ δ0 : Nat → D, ∀ δ : Nat → D, AgreeOn δ δ0 lo hi → g.StateOf δ t dt → g.StateOf δ f df →
      Closes T c g δ hook s.block s.index d ∧ ClosedOn T c g δ hook lo hi

variable {T c g hook pool} {p r : Plan} {test x : Test}

/-! ### Plans

The blocks that a plan makes itself come first, and then those of its parts, one part after the
other: in that order their states are spliced. -/

theorem Plan.Annotable.unpack {n : Nat} {targets : Plan}
    (hhook : ∀ loops states s lo q hi d d', (Plan.unpack n targets).At pool g loops s lo q hi →
      (Plan.unpack n targets).Typed T c states d d' → hook s n)
    (ih : targets.Annotable T c g hook pool) : (Plan.unpack n targets).Annotable T c g
    hook pool := by
  intro loops states s q lo hi d d' h ht hs hhi
  have hmark := hhook _ _ _ _ _ _ _ _ h ht
  obtain ⟨hi, hrest⟩ := h
  obtain ⟨e, hstep, htargets⟩ := ht
  obtain ⟨δ0, hδ0⟩ := ih hrest htargets.typed hs hhi
  refine ⟨δ0, fun δ hδ _ => ?_⟩
  have hrange := Plan.At.range targets hrest
  exact (Typeable.spread hi hmark hstep lo).trans (hδ0 δ hδ (.none _ _ _)) hs (Nat.le_refl _)
    hrange.2

/-- The states of the second plan go on from those of the first. -/
theorem Plan.Annotable.seq (ihp : p.Annotable T c g hook pool) (ihr : r.Annotable T c g hook pool) :
    (Plan.seq p r).Annotable T c g hook pool := by
  intro loops states s q lo hi d d' h ht hs hhi
  obtain ⟨m, mid, hp, hr⟩ := h
  obtain ⟨e, htp, htr⟩ := ht
  obtain ⟨hr1, hr2⟩ := Plan.At.range p hp
  obtain ⟨hr3, hr4⟩ := Plan.At.range r hr
  obtain ⟨δ1, h1⟩ := ihp hp htp hs (by omega)
  obtain ⟨δ2, h2⟩ := ihr hr htr (by omega) hhi
  refine ⟨splice mid δ1 δ2, fun δ hδ hloops => ?_⟩
  obtain ⟨hδp, hδr⟩ := hδ.split hr1 hr3
  exact (h1 δ hδp hloops).trans (h2 δ hδr hloops) hs hr1 hr4

/-- Both branches end in the same state. -/
theorem Plan.Annotable.either (iht : test.Annotable T c g hook pool)
    (ihp : p.Annotable T c g hook pool) (ihr : r.Annotable T c g hook pool) :
    (Plan.either test p r).Annotable T c g hook pool := by
  intro loops states s q lo hi d d' h ht hs hhi
  obtain ⟨m1, q1, m2, q2, hx, hp, he1, hr, he2, rfl⟩ := h
  obtain ⟨e1, e2, a, b, htx, htp, hle1, htr, hle2⟩ := ht
  have hr1 := Test.At.range test hx
  obtain ⟨hr2, hr3⟩ := Plan.At.range p hp
  obtain ⟨hr4, hr5⟩ := Plan.At.range r hr
  obtain ⟨δ1, h1⟩ := iht hx htx (by omega) (by omega)
  obtain ⟨δ2, h2⟩ := ihp hp htp (by simp only; omega) (by omega)
  obtain ⟨δ3, h3⟩ := ihr hr htr (by simp only; omega) (by omega)
  -- the annotation in the order of the blocks: the three new ones, then those of the parts
  refine ⟨splice (lo + 1) (fun _ => e1) <| splice (lo + 2) (fun _ => e2) <|
    splice (lo + 3) (fun _ => d') <| splice m1 δ1 <| splice m2 δ2 δ3, fun δ hδ hloops => ?_⟩
  obtain ⟨hd1, hδ⟩ := hδ.first (by omega)
  obtain ⟨hd2, hδ⟩ := hδ.first (by omega)
  obtain ⟨hd3, hδ⟩ := hδ.first (by omega)
  obtain ⟨hδx, hδ⟩ := hδ.split hr1 (by omega)
  obtain ⟨hδp, hδr⟩ := hδ.split hr2 hr4
  obtain ⟨c1, cl1⟩ := h1 δ hδx ⟨by omega, hd1⟩ ⟨by omega, hd2⟩
  obtain ⟨c2, cl2⟩ := (h2 δ hδp hloops).close (by simp only; omega)
    (.ends he1 (by omega) (hd3 ▸ hle1))
  obtain ⟨c3, cl3⟩ := (h3 δ hδr hloops).close (by simp only; omega)
    (.ends he2 (by omega) (hd3 ▸ hle2))
  exact .of_closed (by omega) c1 (.cons c2 hd1 (.cons c3 hd2 (.nil _)))
    (cl1.append (cl2.append cl3)) (by simp only; omega) (hd3 ▸ .refl _ _)

/-- The state behind is that in front. -/
theorem Plan.Annotable.guard (iht : test.Annotable T c g hook pool)
    (ihp : p.Annotable T c g hook pool) : (Plan.guard test p).Annotable T c g hook pool := by
  intro loops states s q lo hi d d' h ht hs hhi
  obtain ⟨m1, q1, hx, hp, he1, rfl⟩ := h
  obtain ⟨e, a, htx, htp, hle1⟩ := ht
  have hr1 := Test.At.range test hx
  obtain ⟨hr2, hr3⟩ := Plan.At.range p hp
  obtain ⟨δ1, h1⟩ := iht hx htx (by omega) (by omega)
  obtain ⟨δ2, h2⟩ := ihp hp htp (by simp only; omega) (by omega)
  refine ⟨splice (lo + 1) (fun _ => e) <| splice (lo + 2) (fun _ => d') <| splice m1 δ1 δ2,
    fun δ hδ hloops => ?_⟩
  obtain ⟨hd1, hδ⟩ := hδ.first (by omega)
  obtain ⟨hd2, hδ⟩ := hδ.first (by omega)
  obtain ⟨hδx, hδp⟩ := hδ.split hr1 hr2
  obtain ⟨c1, cl1⟩ := h1 δ hδx ⟨by omega, hd1⟩ ⟨by omega, hd2⟩
  obtain ⟨c2, cl2⟩ := (h2 δ hδp hloops).close (by simp only; omega)
    (.ends he1 (by omega) (hd2 ▸ hle1))
  exact .of_closed (by omega) c1 (.cons c2 hd1 (.nil _)) (cl1.append cl2) (by simp only; omega)
    (hd2 ▸ .refl _ _)

/-- Both ways leave one value. -/
theorem Plan.Annotable.short (ihp : p.Annotable T c g hook pool)
    (ihr : r.Annotable T c g hook pool) (stopIf : Bool) :
    (Plan.short stopIf p r).Annotable T c g hook pool := by
  intro loops states s q lo hi d d' h ht hs hhi
  obtain ⟨m, mid, q1, hp, hdup, hbr, hpop, hr, he1, rfl⟩ := h
  obtain ⟨e, e1, st, st1, a, htp, htdup, htbr, htpop, htr, hle⟩ := ht
  obtain ⟨hr1, hr2⟩ := Plan.At.range p hp
  obtain ⟨hr3, hr4⟩ := Plan.At.range r hr
  obtain ⟨δ1, h1⟩ := ihp hp htp (by omega) (by omega)
  obtain ⟨δ2, h2⟩ := ihr hr htr (by simp only; omega) (by omega)
  -- in the order of the blocks: the end, the second operand's, then those of the parts
  refine ⟨splice (lo + 1) (fun _ => d') <| splice (lo + 2) (fun _ => st) <| splice mid δ1 δ2,
    fun δ hδ _ => ?_⟩
  obtain ⟨hd1, hδ⟩ := hδ.first (by omega)
  obtain ⟨hd2, hδ⟩ := hδ.first (by omega)
  obtain ⟨hδp, hδr⟩ := hδ.split hr1 hr3
  have hbranch : T.Branches .cjmp e1 (δ (if stopIf then lo else lo + 1))
      (δ (if stopIf then lo + 1 else lo)) := by
    cases stopIf with
    | true => simpa [hd1, hd2] using htbr
    | false => simpa [hd1, hd2] using htbr
  obtain ⟨c1, cl1⟩ := (h1 δ hδp (.none _ _ _)).close (by omega) (.step hdup rfl htdup
    (.branch rfl hbr (by split <;> omega) (by split <;> omega) hbranch))
  obtain ⟨c2, cl2⟩ := (h2 δ hδr (.none _ _ _)).close (by simp only; omega)
    (.ends he1 (by omega) (hd1 ▸ hle))
  exact .of_closed (by omega) c1 (.nil _) (.cons (.step hpop rfl htpop c2) hd2 (cl1.append cl2))
    (Nat.le_refl _) (hd1 ▸ .refl _ _)

/-- A round ends in the state in which it began. -/
theorem Plan.Annotable.each {iterable vars body : Plan} (ihi : iterable.Annotable T c g hook pool)
    (ihv : vars.Annotable T c g hook pool) (ihb : body.Annotable T c g hook pool) (isLoop : Bool)
    (pos : Position) : (Plan.each isLoop iterable pos vars body).Annotable T c g hook pool := by
  intro loops states s q lo hi d d' h ht hs hhi
  obtain ⟨m1, h1, m2, h2, m3, hit, hpush, he1, hbr, hvars, hbody, he2, hpop, rfl⟩ := h
  obtain ⟨e, e1, head, tl, round, e2, e3, htit, htpush, hle1, htbr, htvars, htbody, hle2,
    htpop⟩ := ht
  obtain ⟨hr1, hr2⟩ := Plan.At.range iterable hit
  obtain ⟨hr3, hr4⟩ := Plan.At.range vars hvars
  obtain ⟨hr5, hr6⟩ := Plan.At.range body hbody
  simp only at hr4
  obtain ⟨δ1, k1⟩ := ihi hit htit (by omega) (by omega)
  obtain ⟨δ2, k2⟩ := ihv hvars htvars (by simp only; omega) (by omega)
  -- in a comprehension the loops around stay as they are
  obtain ⟨inside, htbody, hin⟩ : ∃ inside, body.Typed T c inside e2 e3 ∧
      ∀ δ : Nat → D, g.StateOf δ lo head → g.StateOf δ (lo + 2) tl → LoopsAt g δ loops states →
        LoopsAt g δ (if isLoop then ⟨lo + 2, lo⟩ :: loops else loops) inside := by
    cases isLoop with
    | true =>
      obtain ⟨ls, rfl, htbody⟩ := htbody
      exact ⟨_, htbody, fun δ hd1 hd3 hloops => hloops.cons hd3 hd1⟩
    | false => exact ⟨_, htbody, fun δ _ _ hloops => hloops⟩
  obtain ⟨δ3, k3⟩ := ihb hbody htbody (by omega) (by omega)
  refine ⟨splice (lo + 1) (fun _ => head) <| splice (lo + 2) (fun _ => round) <|
    splice (lo + 3) (fun _ => tl) <| splice h1 δ1 <| splice h2 δ2 δ3, fun δ hδ hloops => ?_⟩
  obtain ⟨hd1, hδ⟩ := hδ.first (by omega)
  obtain ⟨hd2, hδ⟩ := hδ.first (by omega)
  obtain ⟨hd3, hδ⟩ := hδ.first (by omega)
  obtain ⟨hδi, hδ⟩ := hδ.split hr1 (by omega)
  obtain ⟨hδv, hδb⟩ := hδ.split hr3 hr5
  obtain ⟨c1, cl1⟩ := (k1 δ hδi (.none _ _ _)).close (by omega)
    (.step hpush rfl htpush (.ends he1 (by omega) (hd1 ▸ hle1)))
  have kvars := k2 δ hδv (.none _ _ _)
  have kbody := k3 δ hδb (hin δ ⟨by omega, hd1⟩ ⟨by omega, hd3⟩ hloops)
  obtain ⟨c2, cl2⟩ := (kvars.trans kbody (by simp only; omega) hr3 hr6).close
    (by simp only; omega) (.ends he2 (by omega) (hd1 ▸ hle2))
  have chead : Closes T c g δ hook lo 0 head :=
    .branch rfl hbr (by omega) (by omega) (by rw [hd2, hd3]; exact htbr)
  exact .of_closed (by omega) c1 (.cons chead hd1 (.cons c2 hd2 (.nil _))) (cl1.append cl2)
    (by simp only; omega) (.step hpop rfl (hd3.symm ▸ htpop) (.refl _ _))

/-- A round ends in the state in which it began. -/
theorem Plan.Annotable.whileLoop {body : Plan} (iht : test.Annotable T c g hook pool)
    (ihb : body.Annotable T c g hook pool) :
    (Plan.whileLoop test body).Annotable T c g hook pool := by
  intro loops states s q lo hi d d' h ht hs hhi
  obtain ⟨m1, q1, he1, hx, hbody, he2, rfl⟩ := h
  obtain ⟨head, round, e, ls, rfl, hle1, htx, htbody, hle2⟩ := ht
  have hr1 := Test.At.range test hx
  obtain ⟨hr2, hr3⟩ := Plan.At.range body hbody
  obtain ⟨δ1, k1⟩ := iht hx htx (by simp only; omega) (by omega)
  obtain ⟨δ2, k2⟩ := ihb hbody htbody (by simp only; omega) (by omega)
  refine ⟨splice (lo + 1) (fun _ => head) <| splice (lo + 2) (fun _ => round) <|
    splice (lo + 3) (fun _ => d') <| splice m1 δ1 δ2, fun δ hδ hloops => ?_⟩
  obtain ⟨hd1, hδ⟩ := hδ.first (by omega)
  obtain ⟨hd2, hδ⟩ := hδ.first (by omega)
  obtain ⟨hd3, hδ⟩ := hδ.first (by omega)
  obtain ⟨hδx, hδb⟩ := hδ.split hr1 hr2
  obtain ⟨c1, cl1⟩ := k1 δ hδx ⟨by omega, hd2⟩ ⟨by omega, hd3⟩
  -- inside the body a break leads to the end and a continue to the head
  have hin : LoopsAt g δ (⟨lo + 2, lo⟩ :: loops) (some ((d', head) :: ls)) :=
    hloops.cons ⟨by simp only; omega, hd3⟩ ⟨by simp only; omega, hd1⟩
  obtain ⟨c2, cl2⟩ := (k2 δ hδb hin).close (by simp only; omega)
    (.ends he2 (by omega) (hd1 ▸ hle2))
  exact .of_closed (by omega) (.ends he1 (by omega) (hd1 ▸ hle1))
    (.cons c1 hd1 (.cons c2 hd2 (.nil _))) (cl1.append cl2) (by simp only; omega)
    (hd3 ▸ .refl _ _)

/-- A jump ends the block; the block behind it has any state. -/
theorem Plan.annotable_leave (isBreak : Bool) : (Plan.leave isBreak).Annotable T c g hook pool := by
  intro loops states s q lo hi d d' h ht hs hhi
  obtain ⟨⟨l, rest, rfl, hend⟩, rfl, rfl⟩ := h
  obtain ⟨st, srest, rfl, hle⟩ := ht
  refine ⟨fun _ => d', fun δ hδ hloops => ?_⟩
  cases hloops _ rfl with
  | cons hl _ =>
    have hto : g.StateOf δ (if isBreak then l.breakTo else l.continueTo)
        (if isBreak then st.1 else st.2) := by
      cases isBreak with
      | true => exact hl.1
      | false => exact hl.2
    refine .of_closed hs (.ends hend hto.1 (hto.2 ▸ hle)) (.nil _) (.nil _) (Nat.le_refl _) ?_
    exact hδ lo (Nat.le_refl _) (Nat.lt_succ_self _) ▸ .refl _ _

/-- Behind a return any state will do. -/
theorem Plan.annotable_ret : Plan.ret.Annotable T c g hook pool := by
  intro loops states s q lo hi d d' h ht hs hhi
  obtain ⟨hret, rfl, rfl⟩ := h
  refine ⟨fun _ => d', fun δ hδ _ => ?_⟩
  refine .of_closed hs (.ret hret ht.2) (.nil _) (.nil _) (Nat.le_refl _) ?_
  exact hδ lo (Nat.le_refl _) (Nat.lt_succ_self _) ▸ .refl _ _

/-! ### Tests -/

/-- The jump takes the value. -/
theorem Test.Annotable.on (ih : p.Annotable T c g hook pool) :
    (Test.on p).Annotable T c g hook pool := by
  intro loops s lo hi t f d dt df h ht hs hhi
  obtain ⟨m, hp, hb⟩ := h
  obtain ⟨e, htp, htb⟩ := ht
  obtain ⟨δ0, h0⟩ := ih hp htp hs hhi
  refine ⟨δ0, fun δ hδ hdt hdf => ?_⟩
  obtain ⟨htlt, rfl⟩ := hdt
  obtain ⟨hflt, rfl⟩ := hdf
  exact (h0 δ hδ (.none _ _ _)).close hs (.branch rfl hb htlt hflt htb)

/-- The second part of a test has a block of its own, behind those of the first. -/
theorem Test.annotable_second (ihp : p.Annotable T c g hook pool)
    (ihx : x.Annotable T c g hook pool) {loops : List Loop} {s m : Point} {lo mid hi : Nat}
    {t f : BlockId} {d e st dt df : D} (hp : p.At pool g loops s lo m mid)
    (hx : x.At pool g loops ⟨mid, 0⟩ (mid + 1) t f hi) (htp : p.Typed T c none d e)
    (htx : x.Typed T c st dt df) (hs : s.block < lo) (hhi : hi ≤ g.size) :
    ∃ δ0 : Nat → D, ∀ δ : Nat → D, AgreeOn δ δ0 lo hi → g.StateOf δ t dt → g.StateOf δ f df →
      (g.StateOf δ mid st → Closes T c g δ hook m.block m.index e) →
      Closes T c g δ hook s.block s.index d ∧ ClosedOn T c g δ hook lo hi := by
  obtain ⟨hr1, hr2⟩ := Plan.At.range p hp
  have hr3 := Test.At.range x hx
  obtain ⟨δ1, h1⟩ := ihp hp htp hs (by omega)
  obtain ⟨δ2, h2⟩ := ihx hx htx (by simp only; omega) (by omega)
  refine ⟨splice mid δ1 <| splice (mid + 1) (fun _ => st) δ2, fun δ hδ hdt hdf hm => ?_⟩
  obtain ⟨hδp, hδ⟩ := hδ.split hr1 (by omega)
  obtain ⟨hd, hδx⟩ := hδ.first (by omega)
  obtain ⟨c2, cl2⟩ := h2 δ hδx hdt hdf
  obtain ⟨c1, cl1⟩ := (h1 δ hδp (.none _ _ _)).close hs (hm ⟨by omega, hd⟩)
  exact ⟨c1, cl1.append (ClosedOn.cons c2 hd cl2)⟩

/-- The second test starts where the first holds. -/
theorem Test.Annotable.both (ihp : p.Annotable T c g hook pool)
    (ihx : x.Annotable T c g hook pool) : (Test.both p x).Annotable T c g hook pool := by
  intro loops s lo hi t f d dt df h ht hs hhi
  obtain ⟨m, mid, hp, hb, hx⟩ := h
  obtain ⟨e, st, htp, htb, htx⟩ := ht
  obtain ⟨δ0, h0⟩ := Test.annotable_second ihp ihx hp hx htp htx hs hhi
  refine ⟨δ0, fun δ hδ hdt hdf => h0 δ hδ hdt hdf fun hmid => ?_⟩
  exact .branch rfl hb hmid.1 hdf.1 (by rw [hmid.2, hdf.2]; exact htb)

/-- The second test starts where the first fails. -/
theorem Test.Annotable.either (ihp : p.Annotable T c g hook pool)
    (ihx : x.Annotable T c g hook pool) : (Test.either p x).Annotable T c g hook pool := by
  intro loops s lo hi t f d dt df h ht hs hhi
  obtain ⟨m, mid, hp, hb, hx⟩ := h
  obtain ⟨e, st, htp, htb, htx⟩ := ht
  obtain ⟨δ0, h0⟩ := Test.annotable_second ihp ihx hp hx htp htx hs hhi
  refine ⟨δ0, fun δ hδ hdt hdf => h0 δ hδ hdt hdf fun hmid => ?_⟩
  exact .branch rfl hb hdt.1 hmid.1 (by rw [hmid.2, hdt.2]; exact htb)

/-! ### The induction -/

-- both are used by the recursive calls only
set_option linter.unusedSectionVars false

variable (hpool : T.Covers pool)
  (hhook : ∀ loops states n targets s lo q hi d d',
    (Plan.unpack n targets).At pool g loops s lo q hi →
      (Plan.unpack n targets).Typed T c states d d' → hook s n)

include hpool hhook

mutual

/-- The blocks of a typed plan have states. -/
theorem Plan.At.annotate (p : Plan) : p.Annotable T c g hook pool := by
  -- a plan that makes no block is annotated by any depths at all
  match p with
  | .skip | .pos _ | .load _ =>
    rintro _ _ s _ lo _ d _ ⟨rfl, rfl⟩ ⟨⟩ _ _
    exact ⟨fun _ => d, fun δ _ _ => .refl _ _ _⟩
  | .op _ | .arg _ _ =>
    rintro _ _ s _ lo _ d _ ⟨hi, rfl, rfl⟩ ht _ _
    exact ⟨fun _ => d, fun δ _ _ => .single hi ht.1 ht.2.2 _⟩
  | .const x =>
    rintro _ _ s _ lo _ d _ ⟨i, hx, hi, rfl, rfl⟩ ht _ _
    exact ⟨fun _ => d, fun δ _ _ => .single hi rfl (ht i (hpool.const x i hx)) _⟩
  | .name n k =>
    rintro _ _ s q lo hi d d' ⟨i, hn, hk⟩ ht hs hhi
    exact Plan.At.annotate (k i) hk (ht i (hpool.name n i hn)) hs hhi
  | .func f body k =>
    rintro _ _ s q lo hi d d' ⟨i, a, hf, hbody, hk⟩ ht hs hhi
    exact Plan.At.annotate (k i) hk (ht.2.2 i (hpool.func f a i hf)) hs hhi
  | .unpack n targets =>
    exact .unpack (fun loops states => hhook loops states n targets) (Plan.At.annotate targets)
  | .seq p r => exact .seq (Plan.At.annotate p) (Plan.At.annotate r)
  | .either test p r =>
    exact .either (Test.At.annotate test) (Plan.At.annotate p) (Plan.At.annotate r)
  | .guard test p => exact .guard (Test.At.annotate test) (Plan.At.annotate p)
  | .short stopIf p r => exact .short (Plan.At.annotate p) (Plan.At.annotate r) stopIf
  | .each isLoop iterable pos vars body =>
    exact .each (Plan.At.annotate iterable) (Plan.At.annotate vars)
        (Plan.At.annotate body) isLoop pos
  | .whileLoop test body => exact .whileLoop (Test.At.annotate test) (Plan.At.annotate body)
  | .leave isBreak => exact Plan.annotable_leave isBreak
  | .ret => exact Plan.annotable_ret
  | .fail _ => exact fun _ _ _ _ _ _ _ _ h => h.elim

/-- The blocks of a typed test have states. -/
theorem Test.At.annotate (x : Test) : x.Annotable T c g hook pool := by
  match x with
  | .on p => exact .on (Plan.At.annotate p)
  | .not x =>
    intro loops s lo hi t f d dt df h ht hs hhi
    obtain ⟨δ0, h0⟩ := Test.At.annotate x h ht hs hhi
    exact ⟨δ0, fun δ hδ hdt hdf => h0 δ hδ hdf hdt⟩
  | .both p x => exact .both (Plan.At.annotate p) (Test.At.annotate x)
  | .either p x => exact .either (Plan.At.annotate p) (Test.At.annotate x)

end

/-- The blocks of a typed function have states. -/
theorem Plan.At.annotated {body : Plan} {e : Point} {d : D}
    (h : body.At pool g [] ⟨0, 0⟩ 1 e g.size) (hnone : g.InsnAt e .pushNone 0)
    (hret : g.ReturnAt e.next) (ht : body.Typed T c (some []) T.start d) (hends : T.Ends c d) :
    ∃ δ : Nat → D, Annotates T c g δ hook := by
  obtain ⟨hrange, -⟩ := Plan.At.range body h
  obtain ⟨δ0, h0⟩ := Plan.At.annotate hpool hhook body h ht Nat.zero_lt_one (Nat.le_refl _)
  obtain ⟨d', hpush, hret'⟩ := hends
  obtain ⟨c0, cl0⟩ := (h0 (fun id => if id = 0 then T.start else δ0 id)
    (fun id h1 _ => if_neg (by omega)) (by rintro _ ⟨⟩; exact .nil)).close Nat.zero_lt_one
    (.step hnone rfl hpush (.ret hret hret'))
  refine ⟨fun id => if id = 0 then T.start else δ0 id, if_pos rfl, fun id hid => ?_⟩
  rcases Nat.eq_zero_or_pos id with rfl | hpos
  · exact c0
  · exact cl0 id hpos hid

end Annotate

end

end Starlark
