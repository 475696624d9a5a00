import Starlark.Proofs.Machine.Inversion
import Starlark.Proofs.Machine.Returns

/-!
# Sessions

A host keeps a heap with values of its programs. It operates on values, freezes them, iterates over
them, and calls functions; a call runs step by step on the same heap, and functions of the host that
it gets to do the same again. A session is such a host with its machine, and `Session.Step` is one
thing that happens in it. What the host keeps to, if to anything, is a parameter (`HostPolicy`).

Each list and dict counts the iterators that are live in a session, which are those of the active
calls and those that the host holds between its calls (`Session.Reachable.balanced`). A call that
comes back has closed what was opened in it, and nothing else (`iterating_balanced`).
-/

set_option autoImplicit false

namespace Starlark

open Relation (ReflTransGen)

/-! ## Hosts -/

/-- The programs that a thread loads are in the heap. -/
def Thread.LoadsFrom (t : Thread) (h : Heap) : Prop :=
  ∀ name p predeclared, t.source? name = .ok (.program p predeclared) → p.index < h.programs.size

/-- What a host keeps to between its calls, and in what it calls on which threads. -/
structure HostPolicy where
  acts : HostAct → Prop
  calls : Thread → Value → List Value → Keywords → Prop

/-- The functions of the host on a thread do only such acts. -/
def Thread.KeepsTo (acts : HostAct → Prop) (t : Thread) : Prop :=
  ∀ i v a, t.host i v = .act a → acts a

theorem Thread.KeepsTo.move {acts : HostAct → Prop} {t : Thread} (ht : t.KeepsTo acts) {h : Heap}
    {stack : CallStack} {b : BuiltinObj} {run : HostRun} {a : HostAct}
    (hmove : t.move h stack b run = .act a) : acts a := by
  unfold Thread.move at hmove
  split at hmove
  · exact ht _ _ a hmove
  · cases hmove

/-- The functions of the small host do nothing to the heap but freeze their arguments. -/
theorem HostCode.act_ofLibrary {i : Nat} {v : HostView} {a : HostAct}
    (ha : ofLibrary i v = .act a) :
    a = .freeze (.tuple v.args) := by
  have hsmall := isSmall_ofLibrary i v
  rw [ha] at hsmall
  cases hsmall
  rfl

/-- A host that may do anything. -/
def HostPolicy.free : HostPolicy := ⟨fun _ => True, fun _ _ _ _ => True⟩

theorem Heap.counts_initial : initial.Counts [] where
  list _ := rfl
  dict _ := rfl
  isIn _ hit := absurd hit List.not_mem_nil

/-! ## Sessions -/

/-- A machine, and what its host holds. -/
structure Session where
  machine : Machine
  /-- The iterators of the host. -/
  held : List Iter

namespace Session

/-- A session before anything ran. -/
def initial : Session := ⟨⟨Heap.initial, default, [], .finished (.ok .null)⟩, []⟩

/-- The live iterators: those of the active calls, and those of the host. -/
def live (s : Session) : List Iter := s.machine.iters ++ s.held

/-- One thing that happens in a session. While no call is active the host acts or makes one; then
the machine runs, which gives functions of the host their turns. -/
inductive Step (P : HostPolicy) : Session → Session → Prop where
  | act {m : Machine} {held held' : List Iter} {r : Except Error Value} {h : Heap} {a : HostAct}
      (hdone : m.control = .finished r) (ha : P.acts a)
      (hp : a.Performs (m.heap, held) (h, held')) :
      Step P ⟨m, held⟩ ⟨{ m with heap := h }, held'⟩
  | call {m : Machine} (held : List Iter) {r : Except Error Value} (hdone : m.control = .finished r)
      {thread : Thread} (hloads : thread.LoadsFrom m.heap) {f : Value} {args : List Value}
      {kwargs : Keywords} (hc : P.calls thread f args kwargs) :
      Step P ⟨m, held⟩ ⟨.start m.heap thread f args kwargs, held⟩
  | run (m : Machine) (held : List Iter) : Step P ⟨m, held⟩ ⟨m.step, held⟩

/-- The sessions that can come about. -/
def Reachable (P : HostPolicy) (s : Session) : Prop := ReflTransGen (Step P) initial s

variable {P : HostPolicy}

theorem Reachable.run {m : Machine} {held : List Iter} (hs : Reachable P ⟨m, held⟩) (n : Nat) :
    Reachable P ⟨m.run n, held⟩ := by
  induction n generalizing m with
  | zero => exact hs
  | succ n ih =>
    rw [Machine.run_succ]
    exact ih (hs.tail (.run m held))

/-- A host that keeps to more is one that keeps to less. -/
theorem Step.mono {Q : HostPolicy} (hacts : ∀ a, P.acts a → Q.acts a)
    (hcalls : ∀ t f args kwargs, P.calls t f args kwargs → Q.calls t f args kwargs) {s s' : Session}
    (hs : Step P s s') : Step Q s s' := by
  cases hs with
  | act hdone ha hp => exact .act hdone (hacts _ ha) hp
  | call held hdone hloads hc => exact .call held hdone hloads (hcalls _ _ _ _ hc)
  | run m held => exact .run m held

/-- Every list and dict counts its live iterators. -/
structure Balanced (s : Session) : Prop where
  poised : s.machine.Poised
  counts : s.machine.heap.Counts s.live

theorem Balanced.step {s s' : Session} (hb : s.Balanced) (hs : Step P s s') : s'.Balanced := by
  obtain ⟨hp, hc⟩ := hb
  cases hs with
  | @act m held held' r h a hdone _ hperforms =>
    refine ⟨hp, ?_⟩
    have hnil : m.iters = [] := by rw [Machine.iters, Machine.frames_of_finished hp hdone]; rfl
    simp only [live, hnil] at hc
    have hafter : Machine.iters { m with heap := h } = [] := hnil
    rw [live, hafter]
    exact hperforms.counts hc
  | call held hdone =>
    refine ⟨trivial, ?_⟩
    rw [live, Machine.iters, Machine.frames_of_finished hp hdone] at hc
    exact hc
  | run m held => exact ⟨Machine.poised_step hp, Machine.balanced_step hc⟩

theorem Reachable.balanced {s : Session} (hs : s.Reachable P) : s.Balanced := by
  induction hs with
  | refl => exact ⟨rfl, Heap.counts_initial⟩
  | tail _ hstep ih => exact ih.step hstep

end Session

/-! ## Calls of a host -/

theorem Machine.counts_call {h : Heap} {held : List Iter} (hc : h.Counts held) (thread : Thread)
    (f : Value) (args : List Value) (kwargs : Keywords) (n : Nat) :
    (call n h thread f args kwargs).Balanced held :=
  balanced_run (show (start h thread f args kwargs).Balanced held from hc) n

/-- The heap that the first call leaves counts what the host holds. -/
theorem Machine.counts_of_finished {h : Heap} {held : List Iter} (hc : h.Counts held)
    {thread : Thread} {f : Value} {args : List Value} {kwargs : Keywords} {n : Nat}
    {r : Except Error Value} (hr : (call n h thread f args kwargs).control = .finished r) :
    (call n h thread f args kwargs).heap.Counts held := by
  have hb := counts_call hc thread f args kwargs n
  rw [Balanced, iters, frames_of_finished (poised_call h thread f args kwargs n) hr] at hb
  exact hb

/-- What a host holds while no call is active is counted. -/
theorem Session.Reachable.counts_held {P : HostPolicy} {s : Session} (hs : s.Reachable P)
    {r : Except Error Value} (hdone : s.machine.control = .finished r) :
    s.machine.heap.Counts s.held := by
  obtain ⟨hp, hc⟩ := hs.balanced
  rw [live, Machine.iters, Machine.frames_of_finished hp hdone] at hc
  exact hc

/-- At every point of every call, each list and dict counts its live iterators, which are those of
the active calls, functions of the host among them, and those that the host holds meanwhile. When
the call ends, with a value or an error, all counters are as they were at its start, and so they are
when a call that was made meanwhile comes back to its caller. -/
theorem iterating_balanced {P : HostPolicy} {s : Session} (hs : s.Reachable P)
    {r : Except Error Value}
    (hdone : s.machine.control = .finished r) (thread : Thread) (f : Value) (args : List Value)
    (kwargs : Keywords) (n : Nat) :
    let h := s.machine.heap
    let m := Machine.call n h thread f args kwargs
    m.heap.Counts (m.iters ++ s.held) ∧
    (∀ r, m.control = .finished r → m.frames = [] ∧
      (∀ l, (m.heap.list l).iterating = (h.list l).iterating) ∧
      ∀ d, (m.heap.dict d).iterating = (h.dict d).iterating) ∧
    ∀ g args kwargs, m.control = .invoke g args kwargs → ∀ k, 0 < k →
      (Machine.run k m).frames.length ≤ m.frames.length →
      (∀ j, 0 < j → j < k → m.frames.length < (Machine.run j m).frames.length) →
      (Machine.run k m).frames = m.frames ∧ (∃ r, (Machine.run k m).control = .deliver r) ∧
      (∀ l, ((Machine.run k m).heap.list l).iterating = (m.heap.list l).iterating) ∧
      ∀ d, ((Machine.run k m).heap.dict d).iterating = (m.heap.dict d).iterating := by
  intro h m
  have hc : h.Counts s.held := hs.counts_held hdone
  have hb : m.Balanced s.held := Machine.counts_call hc thread f args kwargs n
  refine ⟨hb, ?_, ?_⟩
  · intro r hr
    have hp : m.Poised := Machine.poised_call h thread f args kwargs n
    exact ⟨Machine.frames_of_finished hp hr, hc.iterating_eq (Machine.counts_of_finished hc hr)⟩
  -- once the frames are as before the call, so are their iterators and with them the counters
  · intro g args kwargs hm k hk hback hfirst
    obtain ⟨hframes, hr⟩ := Machine.back_run hm hk hback hfirst
    have hbk := Machine.balanced_run hb k
    rw [Machine.Balanced, Machine.iters, hframes] at hbk
    exact ⟨hframes, hr, hb.iterating_eq hbk⟩

/-- A host that iterates over a list lets one of its functions try to extend it by itself meanwhile.
The call is refused, and afterwards the list counts one iterator, which is that of the host. -/
theorem iterating_balanced_extend :
    let h := ((Heap.initial.newList #[.int 1, .int 2]).2.newBuiltin (.host "host_try" 9) none).2
    let h := (h.newBuiltin .extend (some (.list ⟨0⟩))).2.lockList ⟨0⟩
    let m := Machine.call 6 h (.new "main" none 9 true) (.builtin ⟨10⟩)
        [.builtin ⟨11⟩, .list ⟨0⟩] []
    Session.Reachable .free ⟨{ Session.initial.machine with heap := h }, [.list ⟨0⟩ 0]⟩ ∧
    (∃ r, m.control = .finished r) ∧ (m.heap.list ⟨0⟩).iterating = 1 := by
  intro h0 h m
  let session (h : Heap) (held : List Iter) : Session :=
    ⟨{ Session.initial.machine with heap := h }, held⟩
  let h1 := (Operation.newList [.int 1, .int 2]).after Heap.initial
  let h2 := (Operation.newBuiltin (.host "host_try" 9) none).after h1
  let h3 := (Operation.newBuiltin .extend (some (.list ⟨0⟩))).after h2
  have hlist : Session.Step .free (session Heap.initial []) (session h1 []) :=
    .act rfl trivial (.operate (.newList [.int 1, .int 2]) _ [])
  have htry : Session.Step .free (session h1 []) (session h2 []) :=
    .act rfl trivial (.operate (.newBuiltin (.host "host_try" 9) none) _ [])
  have hextend : Session.Step .free (session h2 []) (session h3 []) :=
    .act rfl trivial (.operate (.newBuiltin .extend (some (.list ⟨0⟩))) _ [])
  have hopen : Session.Step .free (session h3 []) (session h [.list ⟨0⟩ 0]) :=
    .act rfl trivial (.openIter (v := .list ⟨0⟩) [] rfl)
  have hreach : (session h [.list ⟨0⟩ 0]).Reachable .free :=
    (((ReflTransGen.single hlist).tail htry).tail hextend).tail hopen
  -- the list is locked by the host all the while, so the extension is refused and caught
  have hdone : ∃ r, m.control = .finished r := ⟨_, rfl⟩
  obtain ⟨r, hr⟩ := hdone
  obtain ⟨-, hlists, -⟩ := (iterating_balanced hreach rfl (.new "main" none 9 true) (.builtin ⟨10⟩)
    [.builtin ⟨11⟩, .list ⟨0⟩] [] 6).2.1 r hr
  exact ⟨hreach, ⟨r, hr⟩, hlists ⟨0⟩⟩

end Starlark
