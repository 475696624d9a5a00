import Starlark.Proofs.Direct.Visiting

/-!
# Plans perform evaluations

A plan performs an evaluation (`Plan.Performs`) if a run that comes to where the plan stands does
what the evaluation does: it comes to the end of the plan with the resulting stack, or leaves the
loop, or ends as the evaluation does. Each way of building a plan goes with a way of building an
evaluation.
-/

set_option autoImplicit false

namespace Starlark

variable {p : Program} {predeclared : String → Prop}

/-! ## Evaluations -/

/-- A sequence, applied to a state. -/
theorem bind_apply {ε σ α β : Type} (m : EStateM ε σ α) (k : α → EStateM ε σ β) (s : σ) :
    (m >>= k) s = match m s with
      | .ok a s => k a s
      | .error e s => .error e s := by
  simp only [bind, EStateM.bind]
  cases m s <;> rfl

theorem pure_apply {ε σ α : Type} (a : α) (s : σ) : (pure a : EStateM ε σ α) s = .ok a s := rfl

namespace Eval

variable {α β : Type}

/-- Operations on the heap in sequence, as evaluations. -/
theorem op_bind (m : Op α) (k : α → Op β) : op (m >>= k) = (do op (k (← op m))) := by
  funext s
  simp only [bind_apply, op]
  cases m s.heap with
  | ok a h => rfl
  | error e h => cases e <;> rfl

@[simp] theorem op_pure (a : α) : op (pure a : Op α) = pure a := rfl

/-- One round of a loop. -/
theorem forElements_succ (body : Value → Eval Bool) (rounds : Nat) (it : Iter) (s : Scene) :
    forElements body (rounds + 1) it s =
      (match s.heap.nextElem? it with
        | none => return ()
        | some (v, it) => do if ← body v then forElements body rounds it : Eval Unit) s := by
  rw [forElements, bind_apply]
  rfl

/-- A loop opens its iterator, and closes it in the end. -/
theorem forEach_apply (rounds : Nat) (v : Value) (body : Value → Eval Bool) (s : Scene) :
    forEach rounds v body s =
      (match (s.heap.openIter v).1 with
        | none => fail (.unsupported v.kind .iteration)
        | some it => closing it (forElements body rounds it) : Eval Unit)
          { s with heap := (s.heap.openIter v).2 } := by
  rw [forEach, bind_apply]
  rfl

end Eval

/-! ## What comes of an evaluation -/

namespace Running

/-- A run does what an evaluation does. Within statements of a loop, `base` is the stack with which
the loop is left; an expression leaves no loop. -/
def Shows {α : Type} (R : Running p predeclared) (loops : List Loop) (base : Option (List Value))
    (its : List Iter) (Q : α → Scene → Prop) : EStateM.Result Exit Scene α → Prop
  | .ok a s => Q a s
  | .error (.leave isBreak) s => ∃ l rest st, loops = l :: rest ∧ base = some st ∧
      R.Visits ⟨if isBreak then l.breakTo else l.continueTo, 0⟩ st its s
  | .error (.ret v) s => R.Ends (.ok v) its s
  | .error (.error e) s => R.Ends (.error e) its s
  | .error (.lost why) _ => R.Excuses why

variable {R : Running p predeclared} {α β : Type} {loops : List Loop} {base : Option (List Value)}
  {its : List Iter} {s : Scene} {q : Point} {st : List Value}

namespace Shows

variable {Q : α → Scene → Prop} {P : β → Scene → Prop}

/-- What an evaluation shows, and what is shown from there on. -/
theorem bind {m : Eval α} {k : α → Eval β} (h : R.Shows loops base its Q (m s))
    (hk : ∀ a s, Q a s → R.Shows loops base its P (k a s)) :
    R.Shows loops base its P ((m >>= k) s) := by
  rw [bind_apply]
  generalize m s = r at h
  match r with
  | .ok a s => exact hk a s h
  | .error (.leave isBreak) s => exact h
  | .error (.ret v) s => exact h
  | .error (.error e) s => exact h
  | .error (.lost why) s => exact h

/-- A weaker claim is shown as well. -/
theorem mono {Q' : α → Scene → Prop} {r : EStateM.Result Exit Scene α}
    (h : R.Shows loops base its Q r) (hQ : ∀ a s, Q a s → Q' a s) :
    R.Shows loops base its Q' r := by
  match r with
  | .ok a s => exact hQ a s h
  | .error (.leave isBreak) s => exact h
  | .error (.ret v) s => exact h
  | .error (.error e) s => exact h
  | .error (.lost why) s => exact h

/-- What leaves no loop can be within any. -/
theorem weaken {r : EStateM.Result Exit Scene α} (h : R.Shows loops none its Q r) :
    R.Shows loops base its Q r := by
  match r with
  | .ok a s => exact h
  | .error (.leave isBreak) s =>
    obtain ⟨_, _, _, _, hnone, _⟩ := h
    cases hnone
  | .error (.ret v) s => exact h
  | .error (.error e) s => exact h
  | .error (.lost why) s => exact h

end Shows

/-! ## Instructions -/

/-- An instruction does to the stack and the locals what an evaluation does. -/
inductive Echoes (s : Scene) (a : Activation) (f : α → List Value) :
    EStateM.Result Stop Heap Effect → EStateM.Result Exit Scene α → Prop where
  | proceed (r : α) (s' : Scene) (ht : s'.thread = s.thread) :
      Echoes s a f (.ok (.proceed { a with stack := f r, locals := s'.locals }) s'.heap) (.ok r s')
  | error (e : Error) (h : Heap) :
      Echoes s a f (.error (.error e) h) (.error (.error e) { s with heap := h })
  | abort (x : Abort) (h : Heap) :
      Echoes s a f (.error (.abort x) h) (.error (.lost (.abort x)) { s with heap := h })

/-- An instruction does to the run what the evaluation does to the scene. -/
theorem Visits.echo (hv : R.Visits q st its s) {op : Opcode} {arg : UInt32}
    (hi : R.code.graph.InsnAt q op arg) (hop : op.isCondJump = false)
    (harg : op.hasArg = false → arg = 0) {m : Eval α} {f : α → List Value}
    (hm : ∀ a : Activation, a.stack = st → st.length < 2 ^ 31 →
      Echoes ⟨s.heap, s.thread, a.locals⟩ a f (a.execute R.tables op arg s.heap)
        (m ⟨s.heap, s.thread, a.locals⟩)) :
    R.Shows loops base its (fun r s => R.Visits q.next (f r) its s) (m s) := by
  obtain ⟨a, hl, hst, rfl, hlt, hfollows⟩ := hv.execute hi hop harg
  have hecho := hm a hst hlt
  rw [hl] at hecho
  generalize a.execute R.tables op arg s.heap = result at hfollows hecho
  generalize m s = r at hecho ⊢
  cases hecho with
  | proceed _ _ ht =>
    have hnext := hfollows rfl rfl
    rwa [← ht] at hnext
  | error e h => exact hfollows
  | abort x h => exact hfollows

/-- An operation on the heap is done the same way by both. -/
theorem echoes_op (x : Op α) (f : α → List Value) (a : Activation) (heap : Heap) (thread : Thread) :
    Echoes ⟨heap, thread, a.locals⟩ a f
      ((do let r ← x; return .proceed { a with stack := f r } : Op Effect) heap)
      (Eval.op x ⟨heap, thread, a.locals⟩) := by
  rw [bind_apply]
  unfold Eval.op
  cases x heap with
  | ok r h => exact .proceed r ⟨h, thread, a.locals⟩ rfl
  | error e h =>
    cases e with
    | error e => exact .error e h
    | abort x => exact .abort x h

/-- An instruction that works on the stack and the heap only. -/
theorem Visits.operate (hv : R.Visits q st its s) {op : Opcode} {arg : UInt32}
    (hi : R.code.graph.InsnAt q op arg) (hop : op.isCondJump = false)
    (harg : op.hasArg = false → arg = 0) {x : Op α} {f : α → List Value}
    (hx : st.length < 2 ^ 31 → ∀ a : Activation, a.stack = st → a.execute R.tables op arg =
      (do let r ← x; return .proceed { a with stack := f r })) :
    R.Shows loops base its (fun r s => R.Visits q.next (f r) its s) (Eval.op x s) := by
  refine hv.echo (m := Eval.op x) (f := f) hi hop harg fun a hst hlt => ?_
  rw [hx hlt a hst]
  exact echoes_op x f a s.heap s.thread

/-- A return ends the function. -/
theorem Visits.ret {v : Value} (hv : R.Visits q (v :: st) its s) (hret : R.code.graph.ReturnAt q) :
    R.Ends (.ok v) its s := by
  obtain ⟨a, -, hst, -, -, hfollows⟩ := hv.execute hret.insn rfl fun _ => rfl
  have hexec : a.execute R.tables .ret 0 s.heap = .ok (.finish v) s.heap := by
    simp only [Activation.execute, hst]
    rfl
  rw [hexec] at hfollows
  exact hfollows

/-! ## Iterators -/

/-- Closing one iterator is closing the other. -/
def SameLock (it it' : Iter) : Prop := ∀ h : Heap, h.closeIter it = h.closeIter it'

/-- An iterator that has advanced locks what it locked before. -/
theorem sameLock_of_nextElem? {h : Heap} {it it' : Iter} {v : Value}
    (hn : h.nextElem? it = some (v, it')) : SameLock it' it := by
  intro h'
  cases it with
  | list r i =>
    obtain ⟨_, -, he⟩ := Option.map_eq_some_iff.1 hn
    cases he
    rfl
  | dict r i =>
    obtain ⟨_, -, he⟩ := Option.map_eq_some_iff.1 hn
    cases he
    rfl
  | tuple rest =>
    cases rest with
    | nil => cases hn
    | cons w rest =>
      cases hn
      rfl

/-- Which of two iterators with the same lock is left open makes no difference. -/
theorem Ends.sameLock {r : Except Error Value} {it it' : Iter} (h : R.Ends r (it :: its) s)
    (hsame : SameLock it it') : R.Ends r (it' :: its) s := by
  obtain ⟨n, steps, r', hrun, hr⟩ := h
  refine ⟨n, steps, r', ?_, hr⟩
  rw [List.foldl_cons, ← hsame]
  exact hrun

/-- Which of two iterators with the same lock is left open makes no difference. -/
theorem Shows.sameLock {Q : α → Scene → Prop} {it it' : Iter} {r : EStateM.Result Exit Scene α}
    (h : R.Shows loops none (it :: its) Q r) (hsame : SameLock it it') :
    R.Shows loops none (it' :: its) Q r := by
  match r with
  | .ok a s => exact h
  | .error (.leave isBreak) s =>
    obtain ⟨_, _, _, _, hnone, _⟩ := h
    cases hnone
  | .error (.ret v) s => exact Ends.sameLock h hsame
  | .error (.error e) s => exact Ends.sameLock h hsame
  | .error (.lost why) s => exact h

/-- An iterator is opened, or the value cannot be iterated over. -/
theorem Visits.iterPush {v : Value} (hv : R.Visits q (v :: st) its s)
    (hi : R.code.graph.InsnAt q .iterPush 0) :
    match s.heap.openIter v with
    | (some it, h) => R.Visits q.next st (it :: its) { s with heap := h }
    | (none, h) => R.Ends (.error (.unsupported v.kind .iteration)) its { s with heap := h } := by
  obtain ⟨a, hl, hst, rfl, -, hfollows⟩ := hv.execute hi rfl fun _ => rfl
  rw [Activation.execute_iterPush hst] at hfollows
  cases ho : s.heap.openIter v with
  | mk it h =>
    rw [ho] at hfollows
    cases it with
    | none => exact hfollows
    | some it =>
      have hnext := hfollows rfl rfl
      rwa [hl] at hnext

/-- The innermost iterator is closed. -/
theorem Visits.iterPop {it : Iter} (hv : R.Visits q st (it :: its) s)
    (hi : R.code.graph.InsnAt q .iterPop 0) :
    R.Visits q.next st its { s with heap := s.heap.closeIter it } := by
  obtain ⟨a, hl, rfl, hits, -, hfollows⟩ := hv.execute hi rfl fun _ => rfl
  have hexec : a.execute R.tables .iterPop 0 s.heap =
      .ok (.proceed { a with iters := its }) (s.heap.closeIter it) := by
    simp only [Activation.execute, hits]
    rfl
  rw [hexec] at hfollows
  have hnext := hfollows rfl rfl
  rwa [hl] at hnext

/-! ## Loops -/

/-- A round of a loop comes to the head of the loop or leaves it. -/
theorem Shows.round {head tail : BlockId} {body : Eval Unit}
    (h : R.Shows (⟨tail, head⟩ :: loops) (some st) its (fun _ s => R.Visits ⟨head, 0⟩ st its s)
      (body s)) :
    R.Shows loops none its (fun again s => R.Visits ⟨if again then head else tail, 0⟩ st its s)
      (Eval.round body s) := by
  unfold Eval.round
  generalize body s = r at h
  -- a round ends by itself, by a break or a continue of this loop, or leaves it altogether
  match r with
  | .ok a s => exact h
  | .error (.leave true) s =>
    obtain ⟨_, _, _, hl, hst, hv⟩ := h
    cases hl
    cases hst
    exact hv
  | .error (.leave false) s =>
    obtain ⟨_, _, _, hl, hst, hv⟩ := h
    cases hl
    cases hst
    exact hv
  | .error (.ret v) s => exact h
  | .error (.error e) s => exact h
  | .error (.lost why) s => exact h

/-- Rounds from the head of a loop while its test is true. -/
theorem shows_repeatWhile {head round tail : BlockId} {test : Eval Bool} {body : Eval Unit}
    (htest : ∀ s, R.Visits ⟨head, 0⟩ st its s → R.Shows loops none its
      (fun go s => R.Visits ⟨if go then round else tail, 0⟩ st its s) (test s))
    (hbody : ∀ s, R.Visits ⟨round, 0⟩ st its s → R.Shows (⟨tail, head⟩ :: loops) (some st) its
      (fun _ s => R.Visits ⟨head, 0⟩ st its s) (body s)) (rounds : Nat) (s : Scene)
    (hv : R.Visits ⟨head, 0⟩ st its s) :
    R.Shows loops none its (fun _ s => R.Visits ⟨tail, 0⟩ st its s)
      (Eval.repeatWhile test body rounds s) := by
  -- on the rounds that the evaluation may still make
  induction rounds generalizing s with
  | zero => trivial
  | succ rounds ih =>
    unfold Eval.repeatWhile
    refine (htest s hv).bind fun go s hv => ?_
    cases go with
    | false => exact hv
    | true =>
      refine (hbody s hv).round.bind fun again s hv => ?_
      cases again with
      | false => exact hv
      | true => exact ih s hv

/-- Rounds from the head of a loop for the elements that its iterator has left. -/
theorem shows_forElements {head round tail : BlockId} {turn : Value → Eval Bool} {it₀ : Iter}
    (hbr : R.code.graph.BranchAt ⟨head, 0⟩ .iterJmp tail round)
    (hturn : ∀ v it s, R.Visits ⟨round, 0⟩ (v :: st) (it :: its) s → R.Shows loops none (it :: its)
      (fun go s => R.Visits ⟨if go then head else tail, 0⟩ st (it :: its) s) (turn v s))
    (rounds : Nat) (it : Iter) (hsame : SameLock it it₀) (s : Scene)
    (hv : R.Visits ⟨head, 0⟩ st (it :: its) s) :
    R.Shows loops none (it₀ :: its)
      (fun _ s => ∃ it, SameLock it it₀ ∧ R.Visits ⟨tail, 0⟩ st (it :: its) s)
      (Eval.forElements turn rounds it s) := by
  -- on the rounds left; the iterator changes from one to the next, and what it locks does not
  induction rounds generalizing s it with
  | zero => trivial
  | succ rounds ih =>
    have hjmp := hv.iterJmp hbr
    rw [Eval.forElements_succ]
    cases hn : s.heap.nextElem? it with
    | none =>
      rw [hn] at hjmp
      exact ⟨it, hsame, hjmp⟩
    | some next =>
      obtain ⟨v, it'⟩ := next
      rw [hn] at hjmp
      have hsame' : SameLock it' it₀ := fun h => (sameLock_of_nextElem? hn h).trans (hsame h)
      refine ((hturn v it' s hjmp).sameLock hsame').bind fun go s hv => ?_
      cases go with
      | false => exact ⟨it', hsame', hv⟩
      | true => exact ih it' hsame' s hv

/-- However the rounds end, the iterator is closed. -/
theorem Shows.closing {tail : BlockId} {it : Iter} {m : Eval Unit}
    (hi : R.code.graph.InsnAt ⟨tail, 0⟩ .iterPop 0)
    (h : R.Shows loops none (it :: its)
      (fun _ s => ∃ it', SameLock it' it ∧ R.Visits ⟨tail, 0⟩ st (it' :: its) s) (m s)) :
    R.Shows loops none its (fun _ s => R.Visits ⟨tail, 1⟩ st its s) (Eval.closing it m s) := by
  unfold Eval.closing
  generalize m s = r at h
  match r with
  | .ok a s =>
    obtain ⟨it', hsame, hv⟩ := h
    have hpop := hv.iterPop hi
    rwa [hsame] at hpop
  | .error (.leave isBreak) s =>
    obtain ⟨_, _, _, _, hnone, _⟩ := h
    cases hnone
  | .error (.ret v) s => exact h
  | .error (.error e) s => exact h
  | .error (.lost why) s => exact h

/-- Rounds for the elements of the value on top of the stack. -/
theorem Visits.forEach {head round tail : BlockId} {v : Value} {turn : Value → Eval Bool}
    (hv : R.Visits q (v :: st) its s) (hpush : R.code.graph.InsnAt q .iterPush 0)
    (hend : R.code.graph.EndsAt q.next head)
    (hbr : R.code.graph.BranchAt ⟨head, 0⟩ .iterJmp tail round)
    (hpop : R.code.graph.InsnAt ⟨tail, 0⟩ .iterPop 0)
    (hturn : ∀ v it s, R.Visits ⟨round, 0⟩ (v :: st) (it :: its) s → R.Shows loops none (it :: its)
      (fun go s => R.Visits ⟨if go then head else tail, 0⟩ st (it :: its) s) (turn v s))
    (rounds : Nat) :
    R.Shows loops none its (fun _ s => R.Visits ⟨tail, 1⟩ st its s)
      (Eval.forEach rounds v turn s) := by
  have hopened := hv.iterPush hpush
  rw [Eval.forEach_apply]
  -- a value that cannot be iterated over fails before the first round
  cases ho : s.heap.openIter v with
  | mk it h =>
    rw [ho] at hopened
    cases it with
    | none => exact hopened
    | some it =>
      exact .closing hpop
          (shows_forElements hbr hturn rounds it (fun _ => rfl) _ (hopened.ends hend))

end Running

/-! ## Plans -/

/-- A run that comes to where a plan stands does there what an evaluation does. -/
def Plan.Performs {α : Type} (R : Running p predeclared) (x : Plan) (base : Option (List Value))
    (st : List Value) (m : Eval α) (f : α → List Value) : Prop :=
  ∀ ⦃loops q lo q' hi its s⦄, x.At p.pool R.code.graph loops q lo q' hi → R.Visits q st its s →
    R.Shows loops base its (fun a s => R.Visits q' (f a) its s) (m s)

/-- A run that comes to where a test stands goes where an evaluation says. -/
def Test.Decides (R : Running p predeclared) (x : Test) (st : List Value) (m : Eval Bool) : Prop :=
  ∀ ⦃loops q lo t f hi its s⦄, x.At p.pool R.code.graph loops q lo t f hi → R.Visits q st its s →
    R.Shows loops none its (fun b s => R.Visits ⟨if b then t else f, 0⟩ st its s) (m s)

variable {R : Running p predeclared} {α β : Type} {base : Option (List Value)} {st : List Value}

namespace Plan.Performs

variable {x y : Plan} {m : Eval α} {n : Eval β} {f : α → List Value}

/-- What leaves no loop can be a statement. -/
theorem weaken (h : x.Performs R none st m f) : x.Performs R base st m f :=
  fun _ _ _ _ _ _ _ hat hv => (h hat hv).weaken

/-- Nothing is performed. -/
theorem skip {a : α} (hf : f a = st) : Plan.skip.Performs R base st (pure a) f := by
  rintro loops q lo q' hi its s ⟨rfl, rfl⟩ hv
  subst hf
  exact hv

/-- What the first plan leaves is where the second one starts. -/
theorem seq {g : β → List Value} {k : β → Eval α} (hx : x.Performs R base st n g)
    (hy : ∀ b, y.Performs R base (g b) (k b) f) : (x ++ y).Performs R base st (n >>= k) f := by
  rintro loops q lo q' hi its s ⟨q₁, mid, hatx, haty⟩ hv
  exact (hx hatx hv).bind fun b s hv => hy b haty hv

/-- The branch that the test decides for is performed. -/
theorem either {test : Test} {t : Eval Bool} {n : Eval α} (ht : test.Decides R st t)
    (hx : x.Performs R base st m f) (hy : y.Performs R base st n f) :
    (Plan.either test x y).Performs R base st (do if ← t then m else n) f := by
  rintro loops q lo q' hi its s ⟨m₁, q₁, m₂, q₂, hat, hatx, hendx, haty, hendy, rfl⟩ hv
  refine (ht hat hv).weaken.bind fun b s hv => ?_
  cases b with
  | true => exact (hx hatx hv).mono fun a s hv => hv.ends hendx
  | false => exact (hy haty hv).mono fun a s hv => hv.ends hendy

/-- The plan is performed if the test holds. -/
theorem guard {test : Test} {t : Eval Bool} {m : Eval Unit} (ht : test.Decides R st t)
    (hx : x.Performs R base st m fun _ => st) :
    (Plan.guard test x).Performs R base st (do if ← t then m) fun _ => st := by
  rintro loops q lo q' hi its s ⟨m₁, q₁, hat, hatx, hendx, rfl⟩ hv
  refine (ht hat hv).weaken.bind fun b s hv => ?_
  cases b with
  | true => exact (hx hatx hv).mono fun a s hv => hv.ends hendx
  | false => exact hv

/-- Statements are done for each element. -/
theorem eachLoop {iterable vars body : Plan} {m : Eval Value} {bind : Value → Eval Unit}
    {n : Eval Unit} (pos : Position) (rounds : Nat)
    (hiterable : iterable.Performs R none st m (· :: st))
    (hvars : ∀ v, vars.Performs R none (v :: st) (bind v) fun _ => st)
    (hbody : body.Performs R (some st) st n fun _ => st) :
    (Plan.each true iterable pos vars body).Performs R base st
      (do Eval.forEach rounds (← m) fun v => do bind v; Eval.round n) fun _ => st := by
  rintro loops q lo q' hi its s ⟨m₁, h₁, m₂, h₂, m₃, hat, hpush, hend, hbr, hatv, hatb,
    hround, hpop, rfl⟩ hv
  refine ((hiterable hat hv).bind fun v s hv => hv.forEach hpush hend hbr hpop ?_ rounds).weaken
  intro v it s hv
  refine (hvars v hatv hv).bind fun _ s hv => ?_
  exact ((hbody hatb hv).mono fun _ s hv => hv.ends hround).round

/-- Something that leaves no loop is done for each element. -/
theorem each {iterable vars body : Plan} {m : Eval Value} {bind : Value → Eval Unit} {n : Eval Unit}
    (pos : Position) (rounds : Nat) (hiterable : iterable.Performs R none st m (· :: st))
    (hvars : ∀ v, vars.Performs R none (v :: st) (bind v) fun _ => st)
    (hbody : body.Performs R none st n fun _ => st) :
    (Plan.each false iterable pos vars body).Performs R base st
      (do Eval.forEach rounds (← m) fun v => do bind v; n; return true) fun _ => st := by
  rintro loops q lo q' hi its s ⟨m₁, h₁, m₂, h₂, m₃, hat, hpush, hend, hbr, hatv, hatb,
    hround, hpop, rfl⟩ hv
  refine ((hiterable hat hv).bind fun v s hv => hv.forEach hpush hend hbr hpop ?_ rounds).weaken
  intro v it s hv
  refine (hvars v hatv hv).bind fun _ s hv => ?_
  exact (hbody hatb hv).bind fun _ s hv => hv.ends hround

/-- The rounds of the loop are those of the evaluation, as many as the evaluation allows. -/
theorem whileLoop {test : Test} {t : Eval Bool} {body : Plan} {m : Eval Unit} (rounds : Nat)
    (ht : test.Decides R st t) (hbody : body.Performs R (some st) st m fun _ => st) :
    (Plan.whileLoop test body).Performs R base st (Eval.repeatWhile t m rounds) fun _ => st := by
  rintro loops q lo q' hi its s ⟨m₁, q₁, hend, hat, hatb, hround, rfl⟩ hv
  refine (Running.shows_repeatWhile (fun s hv => ht hat hv) (fun s hv => ?_) rounds s
    (hv.ends hend)).weaken
  exact (hbody hatb hv).mono fun _ s hv => hv.ends hround

/-- The loop around is left, or its next round begun. -/
theorem leave (isBreak : Bool) :
    (Plan.leave isBreak).Performs R (some st) st (throw (.leave isBreak)) f := by
  rintro loops q lo q' hi its s ⟨⟨l, rest, rfl, hend⟩, rfl, rfl⟩ hv
  exact ⟨l, rest, st, rfl, rfl, hv.ends hend⟩

/-- The function returns. -/
theorem ret (v : Value) : Plan.ret.Performs R base (v :: st) (throw (.ret v)) f := by
  rintro loops q lo q' hi its s ⟨hret, rfl, rfl⟩ hv
  exact hv.ret hret

end Plan.Performs

/-! ## Tests -/

namespace Eval

@[simp] theorem truth_apply (v : Value) (s : Scene) : truth v s = .ok (s.heap.truth v) s := rfl

/-- The truth of a negation is the negated truth. -/
theorem truth_unary_not (v : Value) :
    (do truth (← op (Op.check fun h => h.unary .not v))) = Bool.not <$> truth v := by
  funext s
  rfl

end Eval

namespace Test.Decides

variable {x : Plan} {t : Test} {m n : Eval Value} {b : Eval Bool}

/-- The truth of a value decides. -/
theorem on (hx : x.Performs R none st m (· :: st)) :
    (Test.on x).Decides R st (m >>= Eval.truth) := by
  rintro loops q lo t f hi its s ⟨q', hat, hbr⟩ hv
  exact (hx hat hv).bind fun v s hv => hv.cjmp hbr

/-- A negated test decides the other way. -/
theorem not (ht : t.Decides R st b) : (Test.not t).Decides R st (Bool.not <$> b) := by
  intro loops q lo t f hi its s hat hv
  rw [← bind_pure_comp]
  refine (ht hat hv).bind fun b s hv => ?_
  cases b <;> exact hv

/-- The second value decides if the first one is true. -/
theorem both (hx : x.Performs R none st m (· :: st))
    (ht : t.Decides R st (n >>= Eval.truth)) :
    (Test.both x t).Decides R st
      ((do let v ← m; if ← Eval.truth v then n else return v) >>= Eval.truth) := by
  rintro loops q lo t f hi its s ⟨q', mid, hat, hbr, hatt⟩ hv
  rw [bind_assoc]
  refine (hx hat hv).bind fun v s hv => ?_
  have hv := hv.cjmp hbr
  rw [bind_assoc, bind_apply, Eval.truth_apply]
  cases htruth : s.heap.truth v with
  | true =>
    rw [htruth] at hv
    exact ht hatt hv
  | false =>
    rw [htruth] at hv
    simp only [Bool.false_eq_true, if_false, pure_bind, Eval.truth_apply, htruth]
    exact hv

/-- The second value decides if the first one is false. -/
theorem either (hx : x.Performs R none st m (· :: st))
    (ht : t.Decides R st (n >>= Eval.truth)) :
    (Test.either x t).Decides R st
      ((do let v ← m; if ← Eval.truth v then return v else n) >>= Eval.truth) := by
  rintro loops q lo t f hi its s ⟨q', mid, hat, hbr, hatt⟩ hv
  rw [bind_assoc]
  refine (hx hat hv).bind fun v s hv => ?_
  have hv := hv.cjmp hbr
  rw [bind_assoc, bind_apply, Eval.truth_apply]
  cases htruth : s.heap.truth v with
  | false =>
    rw [htruth] at hv
    exact ht hatt hv
  | true =>
    rw [htruth] at hv
    simp only [if_true, pure_bind, Eval.truth_apply, htruth]
    exact hv

end Test.Decides

end Starlark
