import Starlark.Proofs.Machine.Balance

/-!
# Calls that come back

What runs inside a call does not touch the calls below it (`Machine.frames_step`), so when for the
first time no more calls are active than before a call was made, its outcome is handed to the caller
(`Machine.back_run`).
-/

set_option autoImplicit false

namespace Starlark

namespace Machine

variable {heap : Heap} {thread : Thread}

/-! ## Calls that come back -/

/-- A function is executed and a function of the host has the turn only when it is the innermost
call, and nothing is left to do only when no call is active. -/
def Poised (m : Machine) : Prop :=
  match m.control with
  | .exec => ∃ a pending below, m.frames = .func a pending :: below
  | .host => ∃ r run below, m.frames = .builtin r run :: below
  | .finished _ => m.frames = []
  | _ => True

/-- A call above the given ones is active. -/
def Inside (below : List Frame) (m : Machine) : Prop :=
  m.Poised ∧ ∃ pre, pre ≠ [] ∧ m.frames = pre ++ below

/-- The outcome of a call is handed to the given ones. -/
def Back (below : List Frame) (m : Machine) : Prop :=
  m.frames = below ∧ ∃ r, m.control = .deliver r

theorem inside_cons {m : Machine} {frame : Frame} {below : List Frame}
    (h : m.frames = frame :: below) (hp : m.Poised) : m.Inside below :=
  ⟨hp, [frame], List.cons_ne_nil _ _, h⟩

theorem Inside.tail {m : Machine} {frame : Frame} {below : List Frame}
    (h : m.Inside (frame :: below)) : m.Inside below := by
  obtain ⟨hp, pre, -, h⟩ := h
  exact ⟨hp, pre ++ [frame], by simp, by simpa using h⟩

theorem Back.poised {m : Machine} {below : List Frame} (h : m.Back below) : m.Poised := by
  obtain ⟨-, r, hr⟩ := h
  rw [Poised, hr]
  trivial

/-- Frames above the given ones make no difference. -/
theorem inside_of_cons {m : Machine} {frame : Frame} {below : List Frame}
    (h : m.Inside (frame :: below) ∨ m.Back (frame :: below)) : m.Inside below := by
  rcases h with h | h
  · exact h.tail
  · exact inside_cons h.1 h.poised

section Frames

variable {frame : Frame} {below : List Frame}

theorem back_leave (v : Value) : (leave heap thread (frame :: below) v).Back below :=
  ⟨rfl, _, rfl⟩

theorem back_fail (e : Error) : (fail heap thread (frame :: below) e).Back below := ⟨rfl, _, rfl⟩

theorem frames_stop (e : Stop) :
    (stop heap thread (frame :: below) e).Inside below ∨
      (stop heap thread (frame :: below) e).Back below := by
  cases e with
  | error e => exact .inr (back_fail e)
  | abort a => exact .inl (inside_cons rfl trivial)

theorem Enters.inside_or_back {f : FuncObj} {args : List Value} {kwargs : Keywords} {m : Machine}
    (h : Enters heap thread below f args kwargs m) : m.Inside below ∨ m.Back below := by
  cases h with
  | recurs => exact .inr (back_fail _)
  | unbound => exact frames_stop _
  | unboxed => exact .inl (inside_cons rfl trivial)
  | starts => exact .inl (inside_cons rfl ⟨_, _, _, rfl⟩)

theorem back_finish (o : Except Error Value) : (finish heap thread (frame :: below) o).Back
    below := by
  cases o with
  | ok v => exact back_leave v
  | error e => exact back_fail e

theorem Runs.inside_or_back {r : BuiltinRef} {args : List Value} {kwargs : Keywords} {m : Machine}
    (h : Runs heap thread below r args kwargs m) : m.Inside below ∨ m.Back below := by
  cases h with
  | prints | returns => exact .inr (back_leave _)
  | fails => exact .inr (back_fail _)
  | waits => exact .inl (inside_cons rfl ⟨_, _, _, rfl⟩)
  | stops => exact frames_stop _

theorem Invokes.inside_or_back {f : Value} {args : List Value} {kwargs : Keywords} {m : Machine}
    (h : Invokes heap thread below f args kwargs m) : m.Inside below ∨ m.Back below := by
  cases h with
  | full | uncallable => exact .inr ⟨rfl, _, rfl⟩
  | enters _ _ _ h => exact h.inside_or_back
  | runs _ _ h => exact h.inside_or_back

theorem Binds.inside_or_back {a : Activation} {name : String} {count : Nat} {members : Env}
    {m : Machine} (h : Binds heap thread a below name count members m) :
    m.Inside below ∨ m.Back below := by
  cases h with
  | binds => exact .inl (inside_cons rfl ⟨_, _, _, rfl⟩)
  | stops => exact frames_stop _

theorem Loads.inside_or_back {a : Activation} {name : String} {count : Nat} {m : Machine}
    (h : Loads heap thread a below name count m) : m.Inside below ∨ m.Back below := by
  cases h with
  | unavailable | failure => exact .inr (back_fail _)
  | members _ h => exact h.inside_or_back
  | program => exact .inl (inside_cons rfl trivial)

theorem Delivers.inside_or_back {r : Except Error Value} {m : Machine}
    (h : Delivers heap thread (frame :: below) r m) : m.Inside below ∨ m.Back below := by
  cases h with
  | pushes => exact .inl (inside_cons rfl ⟨_, _, _, rfl⟩)
  | fails | unloaded => exact .inr (back_fail _)
  | loaded h => exact h.inside_or_back
  | answers => exact .inl (inside_cons rfl ⟨_, _, _, rfl⟩)

theorem Hosts.inside_or_back {r : BuiltinRef} {run : HostRun} {m : Machine}
    (h : Hosts heap thread below r run m) : m.Inside below ∨ m.Back below := by
  cases h with
  | acts | errs | steers => exact .inl (inside_cons rfl ⟨_, _, _, rfl⟩)
  | aborts | calls => exact .inl (inside_cons rfl trivial)
  | finishes => exact .inr (back_finish _)

theorem Executes.inside_or_back {a : Activation} {m : Machine}
    (h : Executes heap thread a below m) :
    m.Inside below ∨ m.Back below := by
  cases h with
  | cancelled | unread => exact .inr (back_fail _)
  | stops => exact frames_stop _
  | proceeds => exact .inl (inside_cons rfl ⟨_, _, _, rfl⟩)
  | finishes => exact .inr (back_leave _)
  | calls => exact .inl (inside_cons rfl trivial)
  | loads _ h => exact h.inside_or_back

/-- A call that is made is inside or has come back. -/
theorem frames_invoke (f : Value) (args : List Value) (kwargs : Keywords) :
    (invoke heap thread below f args kwargs).Inside below ∨
      (invoke heap thread below f args kwargs).Back below :=
  (invokes_invoke heap thread below f args kwargs).inside_or_back

/-- A step inside a call stays inside or comes back; the calls below are as they were. -/
theorem frames_step {m : Machine} (hp : m.Poised) (hm : m.frames = frame :: below) :
    m.step.Inside below ∨ m.step.Back below := by
  have hsteps := steps_step m
  generalize m.step = m' at hsteps ⊢
  -- a step leaves the frames below the innermost one alone, so it can at most come back to them
  cases hsteps with
  | executes h =>
    cases hm
    exact h.inside_or_back
  | hosts h =>
    cases hm
    exact h.inside_or_back
  | idles hidle =>
    obtain ⟨a, pending, rest, hframes⟩ := hp
    exact absurd hframes (hidle a pending rest)
  | rests hrest =>
    obtain ⟨r, run, rest, hframes⟩ := hp
    exact absurd hframes (hrest r run rest)
  | invokes h =>
    cases hm
    exact .inl (inside_of_cons h.inside_or_back)
  | delivers h =>
    cases hm
    exact h.inside_or_back
  | done => exact .inl (inside_cons hm hp)

end Frames

theorem Inside.step {m : Machine} {below : List Frame} (h : m.Inside below) :
    m.step.Inside below ∨ m.step.Back below := by
  obtain ⟨hp, pre, hpre, hm⟩ := h
  obtain ⟨frame, pre, rfl⟩ := List.exists_cons_of_ne_nil hpre
  rcases frames_step hp (show m.frames = frame :: (pre ++ below) from hm) with
    ⟨hp', new, hnew, hs⟩ | hback
  · exact .inl ⟨hp', new ++ pre, by simp [hnew], by simpa using hs⟩
  · cases pre with
    | nil => exact .inr hback
    | cons f pre => exact .inl ⟨hback.poised, f :: pre, List.cons_ne_nil _ _, hback.1⟩

theorem not_isDone_of_invoke {m : Machine} {f : Value} {args : List Value} {kwargs : Keywords}
    (hm : m.control = .invoke f args kwargs) : m.isDone = false := by
  rw [isDone, hm]

/-- As long as more calls are active than before a call was made, it is one of them or has just come
back. -/
theorem inside_or_back_run {m : Machine} {f : Value} {args : List Value} {kwargs : Keywords}
    (hm : m.control = .invoke f args kwargs) {k : Nat}
    (hfirst : ∀ j, 0 < j → j < k → m.frames.length < (run j m).frames.length) {j : Nat} (hj : 0 < j)
    (hjk : j ≤ k) : (run j m).Inside m.frames ∨ (run j m).Back m.frames := by
  have hstart : m.step.Inside m.frames ∨ m.step.Back m.frames := by
    obtain ⟨heap, thread, frames, control⟩ := m
    cases hm
    exact frames_invoke f args kwargs
  induction j with
  | zero => exact absurd hj (Nat.lt_irrefl 0)
  | succ j ih =>
    rw [run_succ_eq_step]
    rcases Nat.eq_zero_or_pos j with rfl | hpos
    · exact hstart
    · rcases ih hpos (Nat.le_of_succ_le hjk) with hin | ⟨hb, -⟩
      · exact hin.step
      · have hlt := hfirst j hpos hjk
        rw [hb] at hlt
        exact absurd hlt (Nat.lt_irrefl _)

/-- When for the first time no more calls are active than before a call was made, its outcome is
handed to the caller. -/
theorem back_run {m : Machine} {f : Value} {args : List Value} {kwargs : Keywords}
    (hm : m.control = .invoke f args kwargs) {k : Nat} (hk : 0 < k)
    (hback : (run k m).frames.length ≤ m.frames.length)
    (hfirst : ∀ j, 0 < j → j < k → m.frames.length < (run j m).frames.length) :
    (run k m).Back m.frames := by
  -- at `k` none of the calls inside can be active any more
  rcases inside_or_back_run hm hfirst hk (Nat.le_refl k) with ⟨-, pre, hpre, hin⟩ | hb
  · rw [hin, List.length_append] at hback
    have hpos := List.length_pos_iff.2 hpre
    omega
  · exact hb

theorem poised_step {m : Machine} (hp : m.Poised) : m.step.Poised := by
  obtain ⟨heap, thread, frames, control⟩ := m
  -- with a frame on top the step stays inside it or comes back; with none the control says what is
  -- left
  cases frames with
  | cons frame below =>
    rcases frames_step hp rfl with hin | hback
    · exact hin.1
    · exact hback.poised
  | nil =>
    cases control with
    | exec =>
      obtain ⟨a, pending, below, hframes⟩ := hp
      cases hframes
    | invoke f args kwargs =>
      have hframes : (invoke heap thread [] f args kwargs).Inside [] ∨
          (invoke heap thread [] f args kwargs).Back [] := frames_invoke f args kwargs
      rcases hframes with hin | hback
      · exact hin.1
      · exact hback.poised
    | host =>
      obtain ⟨r, run, below, hframes⟩ := hp
      cases hframes
    | deliver r => exact rfl
    | finished r => exact hp
    | aborted a => trivial

theorem poised_run {m : Machine} (hp : m.Poised) (n : Nat) : (run n m).Poised := by
  induction n generalizing m with
  | zero => exact hp
  | succ n ih =>
    unfold run
    split
    · exact hp
    · exact ih (poised_step hp)

theorem poised_call (h : Heap) (thread : Thread) (f : Value) (args : List Value)
    (kwargs : Keywords) (n : Nat) : (call n h thread f args kwargs).Poised :=
  poised_run (show (start h thread f args kwargs).Poised from trivial) n

/-- No call is active once the first has ended. -/
theorem frames_of_finished {m : Machine} (hp : m.Poised) {r : Except Error Value}
    (hr : m.control = .finished r) : m.frames = [] := by
  rw [Poised, hr] at hp
  exact hp

end Machine

end Starlark
