import Starlark.Proofs.Machine.Custody

/-!
# Instructions keep parts of functions apart

An instruction of typed code takes from the operand stack only what it accepts, and puts there only
what it gives. On a discreet heap it leaves a discreet heap, and what it stores, hands out or
returns are values that scripts may see (`TypedCode.discreet_reads`).
-/

set_option autoImplicit false

namespace Starlark

/-! ## What instructions leave -/

/-- Scripts may see what a function has in its locals, those apart that are boxed, and what its
iterators give. Its stack also has parts of functions. -/
structure Activation.Discreet (code : Code) (a : Activation) : Prop where
  locals : ∀ i v, (∀ c ∈ code.cells, c.toNat ≠ i) → a.locals[i]? = some (some v) → v.Visible
  stack : ∀ v ∈ a.stack, v.IsOperand
  iters : ∀ it ∈ a.iters, it.Visible

namespace TypedCode

variable {p : Program} {predeclared : String → Prop} {code : Code}

/-- At an address of typed code there may be the given stack. -/
def Expects (t : TypedCode p predeclared code) (next : Nat) (st : List Value) : Prop :=
  ∃ d, t.At next d ∧ d.Admits st

/-- A function can go on once values are there that scripts may see. -/
def Awaits (t : TypedCode p predeclared code) (a : Activation) : Pending → Prop
  | .call => ∀ v, v.Visible → t.Expects a.next (v :: a.stack)
  | .load _ n _ => ∀ vs, vs.length = n → (∀ v ∈ vs, v.Visible) →
      t.Expects a.next (vs ++ a.stack.drop n)

/-- What an instruction asks for keeps parts of functions apart. -/
def Conceals (t : TypedCode p predeclared code) (op : Opcode) (arg : UInt32) (a : Activation) :
    Effect → Prop
  | .proceed b => b.func = a.func ∧ b.Discreet code ∧ op.Leaves arg a.stack b.stack ∧
      t.Expects b.next b.stack
  | .finish v => v.Visible
  | .call b f args kwargs => b.func = a.func ∧ b.Discreet code ∧ op.Leaves arg a.stack b.stack ∧
      t.Awaits b .call ∧ f.Visible ∧ (∀ v ∈ args, v.Visible) ∧ Env.Visible kwargs
  | .load b name n => b.func = a.func ∧ b.Discreet code ∧ op.Leaves arg a.stack b.stack ∧
      (∀ module, t.Awaits b (.load name n module)) ∧ b.stack.drop n = a.stack.drop (op.takes arg)

end TypedCode

/-- The constants of a program are visible. -/
theorem Constant.visible_value (c : Constant) : c.value.Visible := by
  cases c <;> trivial

/-- The names that every program sees have visible values. -/
theorem Heap.visible_universalEnv : universalEnv.Visible := by
  refine List.forall_mem_append.2 ⟨?_, fun b hb => ?_⟩
  · simp
  · obtain ⟨x, -, rfl⟩ := List.mem_map.1 hb
    trivial

namespace TypedCode

open Op

variable {p : Program} {predeclared : String → Prop} {code : Code}
  {t : TypedCode p predeclared code} {op : Opcode} {arg : UInt32} {a : Activation} {d e : Shape}
  {rest : List Value}

section Leaving

variable (ha : a.Discreet code) (taken : List Value) (hst : a.stack = taken ++ rest)
  (hn : taken.length = op.takes arg) (hnext : ∀ st, e.Admits st → t.Expects a.next st)

include ha hst hn hnext

/-- Something is pushed in place of what was taken. -/
theorem conceals_give (pushed : List Value) (hp : ∀ v ∈ pushed, op.Gives v)
    (hd : e.Admits (pushed ++ rest)) : t.Conceals op arg a (a.withStack (pushed ++ rest)) :=
  ⟨rfl, ⟨ha.locals, hd.isOperand, ha.iters⟩, .of_append taken hst hn hp, hnext _ hd⟩

/-- An instruction that only takes values off the stack conceals. -/
theorem conceals_withStack (hd : e.Admits rest) : t.Conceals op arg a (a.withStack rest) :=
  conceals_give ha taken hst hn hnext [] (fun _ hv => absurd hv List.not_mem_nil) hd

/-- An instruction that gives what it may give conceals. -/
theorem conceals_push {v : Value} (hv : op.Gives v) (hd : e.Admits (v :: rest)) :
    t.Conceals op arg a (a.push rest v) :=
  conceals_give ha taken hst hn hnext [v] (List.forall_mem_singleton.2 hv) hd

end Leaving

/-- A value that scripts may see is pushed in place of what was taken. -/
theorem conceals_visible (ha : a.Discreet code) (taken : List Value) (hst : a.stack = taken ++ rest)
    (hn : taken.length = op.takes arg) {k : Known}
    (hnext : ∀ st, (d.push [k]).Admits st → t.Expects a.next st) (hd : d.Admits rest) {v : Value}
    (hv : v.Visible) : t.Conceals op arg a (a.push rest v) :=
  conceals_push ha taken hst hn hnext (.inl hv) (hd.cons hv)

/-- The content of a local that is declared and is no cell. -/
theorem visible_of_frame {s : Scopes} (hs : s.Matches p code) (hroom : code.locals.size ≤ 2 ^ 32)
    (ha : a.Discreet code) {i : UInt32} {name : String} (hi : s.Declares .frame i name) {v : Value}
    (hv : a.locals[i.toNat]? = some (some v)) : v.Visible := by
  refine ha.locals i.toNat v (fun c hc hci => ?_) hv
  have hcell := (hs.cells_only hroom).2 c hc
  rw [hci] at hcell
  cases (show s.locals[i.toNat]? = some .frame from hi).symm.trans hcell

/-! ## Instructions

Each instruction has one lemma of one shape, `Secludes`. `discreet_execute` assembles them, with the
shapes that the instruction has in typed code. -/

/-- From a stack of the first shape, an instruction keeps parts of functions apart, if a stack of
the second may be at the next address. -/
def Secludes (t : TypedCode p predeclared code) (tables : Tables) (op : Opcode) (arg : UInt32)
    (a : Activation) (d e : Shape) : Prop :=
  d.Admits a.stack → (∀ st, e.Admits st → t.Expects a.next st) →
    Op.Discreet (t.Conceals op arg a) (Activation.execute tables op arg a)

section Instructions

variable {tables : Tables} (ha : a.Discreet code)

include ha

/-! ### Moving values -/

/-- Copies of a visible value are visible. -/
theorem secludes_dup (k : Known) (d : Shape) :
    t.Secludes tables .dup 0 a (d.push [k]) (d.push [k, k]) := by
  intro hd hnext
  obtain ⟨v, st, hst, hv, hd⟩ := Shape.admits_push_cons.1 hd
  simp only [Activation.execute, hst, pop_bind]
  exact .pure (conceals_give ha [v] hst rfl hnext [v, v]
    (by simp [Opcode.Gives, hv]) ((hd.cons hv).cons hv))

theorem secludes_dup2 (x y : Known) (d : Shape) :
    t.Secludes tables .dup2 0 a (d.push [y, x]) (d.push [y, x, y, x]) := by
  intro hd hnext
  obtain ⟨v, st, hst, hv, hd⟩ := Shape.admits_push_cons.1 hd
  obtain ⟨w, st, rfl, hw, hd⟩ := Shape.admits_push_cons.1 hd
  simp only [Activation.execute, hst, pop2_bind]
  exact .pure (conceals_give ha [v, w] hst rfl hnext [v, w, v, w]
    (by simp [Opcode.Gives, hv, hw]) ((((hd.cons hw).cons hv).cons hw).cons hv))

theorem secludes_pop (k : Known) (d : Shape) : t.Secludes tables .pop 0 a (d.push [k]) d := by
  intro hd hnext
  obtain ⟨v, st, hst, hv, hd⟩ := Shape.admits_push_cons.1 hd
  simp only [Activation.execute, hst, pop_bind]
  exact .pure (conceals_withStack ha [v] hst rfl hnext hd)

theorem secludes_exch (x y : Known) (d : Shape) :
    t.Secludes tables .exch 0 a (d.push [y, x]) (d.push [x, y]) := by
  intro hd hnext
  obtain ⟨v, st, hst, hv, hd⟩ := Shape.admits_push_cons.1 hd
  obtain ⟨w, st, rfl, hw, hd⟩ := Shape.admits_push_cons.1 hd
  simp only [Activation.execute, hst, pop2_bind]
  exact .pure (conceals_give ha [v, w] hst rfl hnext [w, v]
    (by simp [Opcode.Gives, hv, hw]) ((hd.cons hv).cons hw))

/-- The instructions for values that are always there push visible ones. -/
theorem secludes_push (hop : op.isPush = true) (d : Shape) :
    t.Secludes tables op 0 a d (d.push [.any]) := by
  intro hd hnext
  obtain ⟨v, hv, hexec⟩ : ∃ v : Value, v.Visible ∧
      ∀ a, Activation.execute tables op 0 a = pure (a.push a.stack v) :=
    Activation.execute_of_isPush hop
  rw [hexec]
  exact .pure (conceals_visible ha [] rfl (Opcode.takes_of_isPush hop 0).symm hnext hd hv)

/-- The mark for a parameter without default is held. -/
theorem secludes_mandatory (d : Shape) :
    t.Secludes tables .mandatory 0 a d (d.hold [.mandatory]) :=
  fun hd hnext => .pure (conceals_push ha [] rfl rfl hnext (.inr rfl)
    (Shape.admits_hold_singleton.2 ⟨_, _, rfl, rfl, hd⟩))

theorem secludes_constant (k : Known) (d : Shape) :
    t.Secludes tables .constant arg a d (d.push [k]) := fun hd hnext =>
  (discreet_anyEntry _ _).bind fun c _ =>
    .pure (conceals_visible ha [] rfl rfl hnext hd c.visible_value)

/-! ### Operators -/

/-- A unary operator works on a visible value, and gives one. -/
theorem secludes_unary (hop : op.isUnary = true) (k : Known) (d : Shape) :
    t.Secludes tables op 0 a (d.push [k]) (d.push [.any]) := by
  intro hd hnext
  obtain ⟨v, st, hst, hv, hd⟩ := Shape.admits_push_cons.1 hd
  obtain ⟨m, -, hm, hexec⟩ := Activation.execute_of_isUnary (t := tables) hop
  rw [hexec, hst, pop_bind]
  exact (hm v).bind fun w hw => .pure
    (conceals_visible ha [v] hst (Opcode.takes_of_isUnary hop 0).symm hnext hd hw)

/-- A binary operator works on visible values, and gives one. -/
theorem secludes_binary (hop : op.isBinary = true) (x y : Known) (d : Shape) :
    t.Secludes tables op 0 a (d.push [y, x]) (d.push [.any]) := by
  intro hd hnext
  obtain ⟨v, st, hst, hv, hd⟩ := Shape.admits_push_cons.1 hd
  obtain ⟨w, st, rfl, hw, hd⟩ := Shape.admits_push_cons.1 hd
  obtain ⟨m, -, hm, hexec⟩ := Activation.execute_of_isBinary (t := tables) hop
  rw [hexec, hst, pop2_bind]
  exact (hm w v hw hv).bind fun u hu => .pure
    (conceals_visible ha [v, w] hst (Opcode.takes_of_isBinary hop 0).symm hnext hd hu)

theorem secludes_slice {ks : List Known} (hks : ks.length = 4) (d : Shape) :
    t.Secludes tables .slice 0 a (d.push ks) (d.push [.any]) := by
  intro hd hnext
  obtain ⟨vs, st, hst, hlen, hvs, hd⟩ := Shape.admits_push.1 hd
  obtain ⟨step, hi, lo, x, rfl⟩ := List.length_eq_four.1 (hlen.trans hks)
  simp only [Activation.execute, hst]
  exact (discreet_slice (hvs x (by simp)) lo hi step).bind fun w hw =>
    .pure (conceals_visible ha _ hst rfl hnext hd hw)

/-! ### Containers -/

theorem secludes_setIndex {ks : List Known} (hks : ks.length = 3) (d : Shape) :
    t.Secludes tables .setIndex 0 a (d.push ks) d := by
  intro hd hnext
  obtain ⟨vs, st, hst, hlen, hvs, hd⟩ := Shape.admits_push.1 hd
  obtain ⟨z, y, x, rfl⟩ := List.length_eq_three.1 (hlen.trans hks)
  simp only [Activation.execute, hst]
  exact (discreet_setIndex x (hvs y (by simp)) (hvs z (by simp))).bind fun _ _ =>
    .pure (conceals_withStack ha _ hst rfl hnext hd)

theorem secludes_makeDict (d : Shape) : t.Secludes tables .makeDict 0 a d (d.push [.dict]) := by
  intro hd hnext
  refine Discreet.bind (.make (Q := fun _ => True) fun h hd =>
    ⟨hd.newDict fun e he => absurd he (Array.not_mem_empty e), trivial⟩) fun r _ => ?_
  exact .pure (conceals_visible ha [] rfl rfl hnext hd trivial)

/-- A visible entry goes into the dict of a display. -/
theorem secludes_setDict (hop : op = .setDict ∨ op = .setDictUniq) (k v : Known) (d : Shape) :
    t.Secludes tables op 0 a (d.push [v, k, .dict]) d := by
  intro hd hnext
  obtain ⟨v, st, hst, hv, hd⟩ := Shape.admits_push_cons.1 hd
  obtain ⟨k, st, rfl, hk, hd⟩ := Shape.admits_push_cons.1 hd
  obtain ⟨x, st, rfl, -, hrest⟩ := Shape.admits_push_cons.1 hd
  rcases hop with rfl | rfl
  all_goals
    simp only [Activation.execute, hst]
    split
    · rename_i heq
      cases heq
      refine (discreet_insert _ hk hv).bind fun isNew _ => ?_
      split
      · exact (Discreet.look _).bind fun _ _ => .throw _
      · exact .pure (conceals_withStack ha [v, k, _] hst rfl hnext hrest)
    · exact .throw _
    · exact .throw _

/-- A visible element goes into the list of a comprehension. -/
theorem secludes_append (v : Known) (d : Shape) :
    t.Secludes tables .append 0 a (d.push [v, .list]) d := by
  intro hd hnext
  obtain ⟨v, st, hst, hv, hd⟩ := Shape.admits_push_cons.1 hd
  obtain ⟨x, st, rfl, -, hrest⟩ := Shape.admits_push_cons.1 hd
  simp only [Activation.execute, hst]
  split
  · rename_i heq
    cases heq
    exact (discreet_append _ hv).bind fun _ _ =>
      .pure (conceals_withStack ha [v, _] hst rfl hnext hrest)
  · exact .throw _
  · exact .throw _

theorem secludes_makeList {ks : List Known} (hks : ks.length < 2 ^ 31) (d : Shape) :
    t.Secludes tables .makeList (UInt32.ofNat ks.length) a (d.push ks) (d.push [.list]) := by
  intro hd hnext
  obtain ⟨vs, st, hst, hlen, hvs, hd⟩ := Shape.admits_push.1 hd
  have hn : vs.length = Opcode.makeList.takes (UInt32.ofNat ks.length) :=
    hlen.trans (toNat_ofNat_of_lt hks).symm
  simp only [Activation.execute, hst, Activation.popMany_display_bind hlen hks]
  refine Discreet.bind (.newList fun _ _ v hv => hvs v (by simpa using hv)) fun w hw => ?_
  exact .pure (conceals_visible ha _ hst hn hnext hd hw)

/-- A tuple of visible values is visible. -/
theorem secludes_makeTuple {ks : List Known} (hks : ks.length < 2 ^ 31) (d : Shape) :
    t.Secludes tables .makeTuple (UInt32.ofNat ks.length) a (d.push ks) (d.push [.any]) := by
  intro hd hnext
  obtain ⟨vs, st, hst, hlen, hvs, hd⟩ := Shape.admits_push.1 hd
  have hn : vs.length = Opcode.makeTuple.takes (UInt32.ofNat ks.length) :=
    hlen.trans (toNat_ofNat_of_lt hks).symm
  simp only [Activation.execute, hst, Activation.popMany_display_bind hlen hks]
  exact .pure (conceals_visible ha _ hst hn hnext hd
    (Value.visible_tuple.2 fun v hv => hvs v (List.mem_reverse.1 hv)))

/-! ### Iterators -/

/-- An iterator over a visible value gives visible ones. -/
theorem secludes_iterPush (k : Known) (d : Shape) :
    t.Secludes tables .iterPush 0 a (d.push [k]) { d with iters := d.iters + 1 } := by
  intro hd hnext h hh
  obtain ⟨v, st, hst, hv, hd⟩ := Shape.admits_push_cons.1 hd
  obtain ⟨hopen, hit⟩ := hh.openIter hv
  rw [Activation.execute_iterPush hst]
  cases ho : h.openIter v with
  | mk it h' =>
    rw [ho] at hopen hit
    cases it with
    | none => exact hopen
    | some it =>
      have hd : Shape.Admits { d with iters := d.iters + 1 } st := hd
      exact ⟨hopen, rfl, ⟨ha.locals, hd.isOperand, List.forall_mem_cons.2 ⟨hit it rfl, ha.iters⟩⟩,
        .pop [v] hst rfl, hnext _ hd⟩

theorem secludes_iterPop (d : Shape) :
    t.Secludes tables .iterPop 0 a { d with iters := d.iters + 1 } d := by
  intro hd hnext
  cases hits : a.iters with
  | nil =>
    simp only [Activation.execute, hits]
    exact .pure ⟨rfl, ha, .pop [] rfl rfl, hnext _ hd⟩
  | cons it its =>
    have hiters := ha.iters
    rw [hits] at hiters
    simp only [Activation.execute, hits]
    refine (Discreet.modify fun h hh => hh.closeIter it).bind fun _ _ => .pure ?_
    exact ⟨rfl, ⟨ha.locals, ha.stack, (List.forall_mem_cons.1 hiters).2⟩,
      .pop [] rfl rfl, hnext _ hd⟩

/-! ### Functions -/

/-- A tuple of parts of a function is a pack, and held. -/
theorem secludes_makePack {os : List Held} {cells : Nat}
    (hcells : os.take cells = List.replicate cells .cell)
    (hdefaults : ∀ o ∈ os.drop cells, o.IsDefault) (hos : os.length < 2 ^ 31) (d : Shape) :
    t.Secludes tables .makeTuple (UInt32.ofNat os.length) a (d.hold os)
      (d.hold [.pack os.length cells]) := by
  intro hd hnext
  obtain ⟨vs, st, hst, hvs, hd⟩ := Shape.admits_hold.1 hd
  have hn : vs.length = Opcode.makeTuple.takes (UInt32.ofNat os.length) :=
    hvs.length_eq.symm.trans (toNat_ofNat_of_lt hos).symm
  simp only [Activation.execute, hst, Activation.popMany_display_bind hvs.length_eq.symm hos]
  have hpack := admits_pack hcells hdefaults hvs
  exact .pure (conceals_push ha _ hst hn hnext (.inr hpack.isPack)
    (Shape.admits_hold_singleton.2 ⟨_, st, rfl, hpack, hd⟩))

/-- The pack disappears in the function. -/
theorem secludes_makeFunc {f : Function} (hp : p.Addressable) (ht : tables.program = p)
    (hi : ∃ x, IndexOf p.functions (Function.compiled x f) arg) (size : Nat) (d : Shape) :
    t.Secludes tables .makeFunc arg a (d.hold [.pack size f.freeCount]) (d.push [.any]) := by
  intro hd hnext
  obtain ⟨v, st, hst, hv, hd⟩ := Shape.admits_hold_singleton.1 hd
  simp only [Activation.execute, hst]
  refine (discreet_makeFunc hp ht hi hv).bind fun r hr => ?_
  obtain ⟨f, st'⟩ := r
  obtain ⟨hf, rfl⟩ := hr
  exact .pure (conceals_visible ha [v] hst rfl hnext hd hf)

/-! ### Loads and calls -/

/-- Members of modules are visible. -/
theorem secludes_load {n : Nat} (hn : n < 2 ^ 31) (d : Shape) :
    t.Secludes tables .load (UInt32.ofNat n) a (d.push (.str :: List.replicate n .str))
      (d.push (List.replicate n .any)) := by
  intro hd hnext
  obtain ⟨module, st, hst, -, hd⟩ := Shape.admits_push_cons.1 hd
  obtain ⟨names, st, rfl, hlen, hnames, hd⟩ := Shape.admits_push.1 hd
  rw [List.length_replicate] at hlen
  have hn : (UInt32.ofNat n).toNat = n := toNat_ofNat_of_lt hn
  have htakes : Opcode.load.takes (UInt32.ofNat n) = n + 1 := congrArg (· + 1) hn
  have hops : ∀ v ∈ names ++ st, v.IsOperand := by
    have hstack := ha.stack
    rw [hst] at hstack
    exact (List.forall_mem_cons.1 hstack).2
  simp only [Activation.execute, hst, pop_bind]
  split
  · rename_i name st' heq
    cases heq
    -- the names stay on the stack while the module loads, and its members then take their place
    refine .pure ⟨rfl, ⟨ha.locals, hops, ha.iters⟩, ?_, fun _ vs hvs hvisible => ?_, ?_⟩
    · exact .of_append (.str name :: names) hst (by rw [htakes, List.length_cons, hlen])
        fun v hv => .inl (hnames v hv)
    · dsimp only
      rw [hn, ← hlen, List.drop_left]
      exact hnext _ (hd.push (by rw [hvs, hn, List.length_replicate]) hvisible)
    · dsimp only
      rw [hst, htakes, hn, List.drop_succ_cons]
  · exact .throw _

/-- What is called, and with what, is visible; so is what will be pushed. -/
theorem secludes_call (hop : op.isCall = true) (f : Known) {ks : List Known}
    (hks : ks.length =
      op.extraArguments + 2 * Opcode.namedCount arg + Opcode.positionalCount arg) (d : Shape) :
    t.Secludes tables op arg a (d.push (ks ++ [f])) (d.push [.any]) := by
  intro hd hnext
  rw [← Shape.push_push] at hd
  obtain ⟨vs, st, hst, hlen, hvs, hd⟩ := Shape.admits_push.1 hd
  obtain ⟨g, st, rfl, hg, hd⟩ := Shape.admits_push_cons.1 hd
  rw [Activation.execute_of_isCall hop, hst]
  refine (discreet_takeCall hop (hlen.trans hks) hvs hg).bind fun r hr => ?_
  obtain ⟨f, args, kwargs, rest⟩ := r
  obtain ⟨hf, hargs, hkwargs, rfl⟩ := hr
  have hleaves : op.Leaves arg a.stack rest := by
    refine .pop (vs ++ [g]) (by simpa using hst) ?_
    rw [Opcode.takes_of_isCall hop, List.length_append, hlen, hks, List.length_singleton]
  exact .pure ⟨rfl, ⟨ha.locals, Shape.Admits.isOperand hd, ha.iters⟩, hleaves,
    fun v hv => hnext _ (Shape.Admits.cons hd hv), hf, hargs, hkwargs⟩

/-! ### Variables -/

/-- A visible value is stored, and no cell is overwritten. -/
theorem secludes_setLocal (k : Known) (d : Shape) :
    t.Secludes tables .setLocal arg a (d.push [k]) d := by
  intro hd hnext
  obtain ⟨v, st, hst, hv, hd⟩ := Shape.admits_push_cons.1 hd
  simp only [Activation.execute, hst, pop_bind]
  refine (discreet_anyEntry a.locals arg.toNat).bind fun _ _ => .pure ?_
  refine ⟨rfl, ⟨fun i w hi hw => ?_, hd.isOperand, ha.iters⟩, .pop [v] hst rfl, hnext _ hd⟩
  rw [Array.getElem?_setIfInBounds] at hw
  split at hw
  · split at hw
    · cases hw
      exact hv
    · cases hw
  · exact ha.locals i w hi hw

/-- A visible value is stored into a cell. -/
theorem secludes_setLocalCell (k : Known) (d : Shape) :
    t.Secludes tables .setLocalCell arg a (d.push [k]) d := by
  intro hd hnext
  obtain ⟨v, st, hst, hv, hd⟩ := Shape.admits_push_cons.1 hd
  simp only [Activation.execute, hst, pop_bind]
  exact (discreet_slotCell a _).bind fun r _ => (Discreet.modify fun h hh => hh.setCell r hv).bind
    fun _ _ => .pure (conceals_withStack ha [v] hst rfl hnext hd)

theorem secludes_setGlobal (k : Known) (d : Shape) :
    t.Secludes tables .setGlobal arg a (d.push [k]) d := by
  intro hd hnext
  obtain ⟨v, st, hst, hv, hd⟩ := Shape.admits_push_cons.1 hd
  simp only [Activation.execute, hst, pop_bind]
  exact (Discreet.look _).bind fun _ _ => (discreet_anyEntry _ _).bind fun _ _ =>
    (Discreet.modify fun h hh => hh.setGlobal _ _ hv).bind
    fun _ _ => .pure (conceals_withStack ha [v] hst rfl hnext hd)

/-- The local that is read is no cell. -/
theorem secludes_getLocal (hs : t.scopes.Matches p code) (hroom : code.locals.size ≤ 2 ^ 32)
    (hi : t.scopes.Declares .frame arg "") (d : Shape) :
    t.Secludes tables .getLocal arg a d (d.push [.any]) := by
  intro hd hnext
  simp only [Activation.execute]
  refine Discreet.bind (discreet_entry (Q := fun v => a.locals[arg.toNat]? = some v)
    fun _ hv => hv) fun v hv => ?_
  cases v with
  | none => exact (discreet_declName _ _).bind fun _ _ => .throw _
  | some v =>
    exact .pure (conceals_visible ha [] rfl rfl hnext hd (visible_of_frame hs hroom ha hi hv))

/-- A local that is boxed is read as the cell it is. -/
theorem secludes_getCell {h : Heap} (hb : t.scopes.Boxes h a.locals)
    (hi : t.scopes.Declares .cell arg "") (d : Shape) :
    t.Secludes tables .getLocal arg a d (d.hold [.cell]) := by
  intro hd hnext
  obtain ⟨r, hr, -⟩ := hb.cell arg hi
  simp only [Activation.execute]
  refine Discreet.bind (discreet_entry (Q := fun v => v = some (.cell r)) fun v hv =>
    Option.some.inj (hv.symm.trans hr)) fun v hv => ?_
  subst hv
  exact .pure (conceals_push ha [] rfl rfl hnext (.inr ⟨r, rfl⟩)
    (Shape.admits_hold_singleton.2 ⟨_, _, rfl, ⟨r, rfl⟩, hd⟩))

/-- The free variables of a function are cells, which are held. -/
theorem secludes_free (hcells : ∀ v ∈ tables.freeVars, v.IsCell) (d : Shape) :
    t.Secludes tables .free arg a d (d.hold [.cell]) := by
  intro hd hnext
  simp only [Activation.execute]
  refine Discreet.bind (discreet_entry (Q := Value.IsCell) fun v hv =>
    hcells v (Array.mem_of_getElem? hv)) fun v hv => ?_
  exact .pure (conceals_push ha [] rfl rfl hnext (.inr hv)
    (Shape.admits_hold_singleton.2 ⟨_, _, rfl, hv, hd⟩))

/-- The content of a cell is visible. -/
theorem secludes_freeCell (d : Shape) : t.Secludes tables .freeCell arg a d (d.push [.any]) := by
  intro hd hnext
  simp only [Activation.execute]
  exact (discreet_anyEntry _ _).bind fun v _ => (discreet_asCell v).bind fun r _ =>
    (discreet_declName _ _).bind fun name _ => (discreet_cellContent r name).bind fun w hw =>
    .pure (conceals_visible ha [] rfl rfl hnext hd hw)

/-- The content of a cell is visible. -/
theorem secludes_localCell (d : Shape) : t.Secludes tables .localCell arg a d (d.push [.any]) := by
  intro hd hnext
  simp only [Activation.execute]
  exact (discreet_slotCell a _).bind fun r _ => (discreet_declName _ _).bind fun name _ =>
    (discreet_cellContent r name).bind fun w hw =>
    .pure (conceals_visible ha [] rfl rfl hnext hd hw)

/-- The globals of a module are visible. -/
theorem secludes_getGlobal (d : Shape) : t.Secludes tables .getGlobal arg a d (d.push [.any]) := by
  intro hd hnext
  simp only [Activation.execute]
  refine Discreet.bind (.read (Q := fun vs => ∀ v, some v ∈ vs → Value.Visible v)
    fun h hh => hh.global tables.module) fun vs hvs => ?_
  refine Discreet.bind (discreet_entry (Q := fun v => v ∈ vs) fun v hv =>
    Array.mem_of_getElem? hv) fun v hv => ?_
  cases v with
  | none => exact (discreet_declName _ _).bind fun _ _ => .throw _
  | some v => exact .pure (conceals_visible ha [] rfl rfl hnext hd (hvs v hv))

theorem secludes_predeclared (d : Shape) :
    t.Secludes tables .predeclared arg a d (d.push [.any]) := by
  intro hd hnext
  simp only [Activation.execute]
  refine (discreet_anyEntry _ _).bind fun name _ => ?_
  refine Discreet.bind (.read (Q := fun v => ∀ x ∈ v, Value.Visible x)
    fun h hh v hv => (hh.env tables.module).lookup? hv) fun v hv => ?_
  cases v with
  | none => exact .throw _
  | some v => exact .pure (conceals_visible ha [] rfl rfl hnext hd (hv v rfl))

theorem secludes_universal (d : Shape) : t.Secludes tables .universal arg a d (d.push [.any]) := by
  intro hd hnext
  simp only [Activation.execute]
  refine (discreet_anyEntry _ _).bind fun name _ => ?_
  split
  · rename_i v hv
    exact .pure (conceals_visible ha [] rfl rfl hnext hd (Heap.visible_universalEnv.lookup? hv))
  · exact .throw _

/-! ### Fields -/

theorem secludes_attr (k : Known) (d : Shape) :
    t.Secludes tables .attr arg a (d.push [k]) (d.push [.any]) := by
  intro hd hnext
  obtain ⟨v, st, hst, hv, hd⟩ := Shape.admits_push_cons.1 hd
  simp only [Activation.execute, hst, pop_bind]
  exact (discreet_anyEntry _ _).bind fun name _ => (discreet_getAttr hv name).bind fun w hw =>
    .pure (conceals_visible ha [v] hst rfl hnext hd hw)

omit ha in
/-- No value has a field that can be set. -/
theorem secludes_setField (x y : Known) (d : Shape) :
    t.Secludes tables .setField arg a (d.push [y, x]) d := by
  intro hd _
  obtain ⟨v, st, hst, hv, hd⟩ := Shape.admits_push_cons.1 hd
  obtain ⟨w, st, rfl, hw, hd⟩ := Shape.admits_push_cons.1 hd
  simp only [Activation.execute, hst, pop2_bind]
  exact (discreet_anyEntry _ _).bind fun name _ => fun _ hh => hh

end Instructions

/-- An instruction on a stack of its shape. -/
theorem discreet_execute {tables : Tables} {h : Heap}
    (hm : Moves .full (.of p.pool) t.scopes op arg d e) (hp : p.Addressable)
    (hroom : code.locals.size ≤ 2 ^ 32) (ht : tables.Serve p code t.scopes h)
    (hb : t.scopes.Boxes h a.locals) (ha : a.Discreet code) (hdepth : d.depth < 2 ^ 31) :
    t.Secludes tables op arg a d e := by
  -- one lemma for each instruction, as for its safety
  cases hm with
  | dup k _ => exact secludes_dup ha k _
  | dup2 x y _ => exact secludes_dup2 ha x y _
  | pop k _ => exact secludes_pop ha k _
  | exch x y _ => exact secludes_exch ha x y _
  | push hop _ => exact secludes_push ha hop _
  | mandatory _ => exact secludes_mandatory ha _
  | constant hi _ => exact secludes_constant ha _ _
  | unary hop k _ => exact secludes_unary ha hop k _
  | binary hop x y _ => exact secludes_binary ha hop x y _
  | slice ks hks _ => exact secludes_slice ha hks _
  | setIndex ks hks _ => exact secludes_setIndex ha hks _
  | makeDict _ => exact secludes_makeDict ha _
  | setDict hop k v _ => exact secludes_setDict ha hop k v _
  | append v _ => exact secludes_append ha v _
  | makeList ks _ => exact secludes_makeList ha (Shape.length_lt_of_push hdepth) _
  | makeTuple ks _ => exact secludes_makeTuple ha (Shape.length_lt_of_push hdepth) _
  | iterPush k _ => exact secludes_iterPush ha k _
  | iterPop _ => exact secludes_iterPop ha _
  | makePack os cells hcells hdefaults _ =>
    exact secludes_makePack ha hcells hdefaults (Shape.length_lt_of_hold hdepth) _
  | makeFunc hi size _ => exact secludes_makeFunc ha hp ht.program_eq hi size _
  | load n _ =>
    have hn := Shape.length_lt_of_push hdepth
    rw [List.length_cons, List.length_replicate] at hn
    exact secludes_load ha (Nat.lt_of_succ_lt hn) _
  | call hop f ks hks hnames _ => exact secludes_call ha hop f hks _
  | setLocal hi k _ => exact secludes_setLocal ha k _
  | setLocalCell hi k _ => exact secludes_setLocalCell ha k _
  | setGlobal hi k _ => exact secludes_setGlobal ha k _
  | getLocal hi _ => exact secludes_getLocal ha ht.covers hroom (hi rfl) _
  | getCell hi _ => exact secludes_getCell ha hb (hi rfl) _
  | free hi _ => exact secludes_free ha ht.free_cell _
  | freeCell hi _ => exact secludes_freeCell ha _
  | localCell hi _ => exact secludes_localCell ha _
  | getGlobal hi _ => exact secludes_getGlobal ha _
  | predeclared hi hdecl _ => exact secludes_predeclared ha _
  | universal hi hdecl _ => exact secludes_universal ha _
  | attr hi k _ => exact secludes_attr ha k _
  | setField hi x y _ => exact secludes_setField x y _

/-! ## Typed code -/

/-- The instruction at an address finds on the stack what it takes. What returns has nothing else on
its stack. -/
theorem Reads.accepts {f : Fetched} (hf : t.Reads d f) {st : List Value} (hd : d.Admits st)
    (hdepth : d.depth < 2 ^ 31) :
    f.op.takes (f.arg.getD 0) ≤ st.length ∧
      (∀ v ∈ st.take (f.op.takes (f.arg.getD 0)), f.op.Accepts v) ∧
      (f.op = .ret → ∀ v ∈ st, v.Visible) := by
  -- what is read is padding, which takes nothing, or one of the graph's instructions
  cases hf with
  | nop _ => exact ⟨Nat.zero_le _, fun v hv => absurd hv List.not_mem_nil, nofun⟩
  | jmp _ => exact ⟨Nat.zero_le _, fun v hv => absurd hv List.not_mem_nil, nofun⟩
  | plain hop hmove _ _ =>
    obtain ⟨hle, haccepts⟩ := hmove.accepts hd hdepth
    refine ⟨hle, haccepts, ?_⟩
    rintro rfl
    cases hop
  | unpack _ hshape _ _ =>
    subst hshape
    obtain ⟨v, rest, rfl, hv, -⟩ := Shape.admits_push_cons.1 hd
    exact ⟨Nat.le_add_left _ _, List.forall_mem_singleton.2 (.inl hv), nofun⟩
  | cjmp hshape _ _ _ _ =>
    subst hshape
    obtain ⟨v, rest, rfl, hv, -⟩ := Shape.admits_push_cons.1 hd
    exact ⟨Nat.le_add_left _ _, List.forall_mem_singleton.2 (.inl hv), nofun⟩
  | iterJmp _ _ _ _ _ => exact ⟨Nat.zero_le _, fun v hv => absurd hv List.not_mem_nil, nofun⟩
  | ret hone =>
    unfold Shape.Admits at hd
    rw [hone] at hd
    cases hd with
    | cons hv hrest =>
      cases hrest
      exact ⟨Nat.le_refl _, List.forall_mem_singleton.2 (.inl hv),
        fun _ => List.forall_mem_singleton.2 hv⟩

/-- The instruction that is read at an address, on a stack of its shape. -/
theorem discreet_reads {tables : Tables} {h : Heap} {f : Fetched} (hp : p.Addressable)
    (hroom : code.locals.size ≤ 2 ^ 32) (ht : tables.Serve p code t.scopes h)
    (hb : t.scopes.Boxes h a.locals) (ha : a.Discreet code) (hat : t.At a.next d)
    (hd : d.Admits a.stack) (hf : t.Reads d f) (pc : Nat) :
    Op.Discreet (t.Conceals f.op (f.arg.getD 0) a) (Activation.execute tables f.op (f.arg.getD 0)
      { a with pc := pc, next := f.next }) := by
  obtain ⟨b, done, i, rest, -, hst⟩ := id hat
  have hdepth : d.depth < 2 ^ 31 := hst.depth_eq.2.1
  cases hf with
  | nop hnext => exact .pure ⟨rfl, ⟨ha.locals, ha.stack, ha.iters⟩, .pop [] rfl rfl, d, hnext, hd⟩
  | jmp hnext => exact .pure ⟨rfl, ⟨ha.locals, ha.stack, ha.iters⟩, .pop [] rfl rfl, d, hnext, hd⟩
  | @plain op arg next e e' _ hmove hle hnext =>
    have hexec : Op.Discreet (t.Conceals op (arg.getD 0) { a with pc := pc, next := next }) _ :=
      discreet_execute hmove hp hroom ht hb ⟨ha.locals, ha.stack, ha.iters⟩ hdepth hd
        fun st hst => ⟨e', hnext, hle.admits hst⟩
    -- what an effect may show does not depend on the addresses in the activation
    exact hexec.mono fun effect heffect => by cases effect <;> exact heffect
  | @unpack n next k base e' hn hshape hle hnext =>
    subst hshape
    obtain ⟨v, st, hst, hv, hd⟩ := Shape.admits_push_cons.1 hd
    simp only [Activation.execute, hst, pop_bind, Option.getD_some]
    rw [toNat_ofNat_of_lt hn]
    refine (discreet_unpack hv n).bind fun vs hvs => .pure ?_
    have hstack : e'.Admits (vs ++ st) :=
      hle.admits (hd.push (hvs.1.trans List.length_replicate.symm) hvs.2)
    exact ⟨rfl, ⟨ha.locals, hstack.isOperand, ha.iters⟩,
      .of_append [v] hst rfl fun v hv => .inl (hvs.2 v hv), e', hnext, hstack⟩
  | @cjmp arg next k base x y hshape hx hy hatx haty =>
    subst hshape
    obtain ⟨v, st, hst, hv, hd⟩ := Shape.admits_push_cons.1 hd
    simp only [Activation.execute, hst, pop_bind, Option.getD_some]
    refine (Discreet.look _).bind fun b _ => ?_
    have hdisc : ∀ n, Activation.Discreet code { a with pc := pc, next := n, stack := st } :=
      fun _ => ⟨ha.locals, Shape.Admits.isOperand hd, ha.iters⟩
    split
    · exact .pure ⟨rfl, hdisc _, .pop [v] hst rfl, x, hatx, hx.admits hd⟩
    · exact .pure ⟨rfl, hdisc _, .pop [v] hst rfl, y, haty, hy.admits hd⟩
  | @iterJmp arg next x y hiters hx hy hatx haty =>
    cases hits : a.iters with
    | nil => exact .throw _
    | cons it its =>
      have hvisible := ha.iters
      rw [hits] at hvisible
      obtain ⟨hit, hits'⟩ := List.forall_mem_cons.1 hvisible
      intro h hh
      have hexec : Activation.execute tables .iterJmp arg
          { a with pc := pc, next := next, iters := it :: its } h = _ :=
        Activation.execute_iterJmp rfl
      dsimp only [Option.getD_some]
      rw [hexec]
      cases hnext : h.nextElem? it with
      | none =>
        exact ⟨hh, rfl, ⟨ha.locals, ha.stack, hvisible⟩, .pop [] rfl rfl, x, hatx, hx.admits hd⟩
      | some r =>
        obtain ⟨v, it'⟩ := r
        -- scripts may see the elements of what they may see
        obtain ⟨hv, hit'⟩ := hh.nextElem? hit hnext
        have hstack : y.Admits (v :: a.stack) := hy.admits (hd.cons hv)
        exact ⟨hh, rfl, ⟨ha.locals, hstack.isOperand, List.forall_mem_cons.2 ⟨hit', hits'⟩⟩,
          .of_append [] rfl rfl (List.forall_mem_singleton.2 (.inl hv)), y, haty, hstack⟩
  | ret hone =>
    unfold Shape.Admits at hd
    rw [hone] at hd
    cases hst : a.stack with
    | nil => exact .throw _
    | cons v st =>
      rw [hst] at hd
      cases hd with
      | cons hv _ => exact .pure hv

end TypedCode

end Starlark
