import Starlark.Proofs.Code.Tiling
import Starlark.Proofs.Direct.Containment

/-!
# Listed instructions are executed

The machine executes what a listing shows. At the address of a listed instruction, a step executes
that instruction with that operand (`Machine.step_eq_carryOut`), and the function, if it goes on at
all, goes on at the next listed address, or at the operand of a jump (`Machine.goesOn_step`). The
main statement `instructions_as_executed` puts it together with what a listing is, and with the
operands that the assembler writes: in any width, they are read back, and what fills them up is read
as `nop`s.
-/

set_option autoImplicit false

namespace Starlark

/-! ## Where a function goes on -/

/-- If a function goes on behind an instruction, then at an address with a property. -/
def Effect.GoesOn (pc : Nat) (P : Nat → Prop) : Effect → Prop
  | .proceed b | .call b _ _ _ | .load b _ _ => b.pc = pc ∧ P b.next
  | .finish _ => True

namespace Activation

open Op

/-- An instruction goes on behind it, or at its operand if it is a jump. -/
theorem gives_goesOn (t : Tables) (op : Opcode) (arg : UInt32) (a : Activation) :
    Gives (Effect.GoesOn a.pc fun next => next = a.next ∨ op.isJump = true ∧ next = arg.toNat)
      (execute t op arg a) := by
  have stays : ∀ {P : Prop}, a.pc = a.pc ∧ (a.next = a.next ∨ P) := ⟨rfl, .inl rfl⟩
  -- only jumps write to `next`; the cases differ in how many parts can fail before
  cases op with
  | nop | pushNone | pushTrue | pushFalse | mandatory => exact .pure stays
  | jmp => exact .pure ⟨rfl, .inr ⟨rfl, rfl⟩⟩
  | ret => exact .after fun _ => .pure trivial
  | cjmp =>
    refine .after fun r => .after fun b => ?_
    cases b with
    | true => exact .pure ⟨rfl, .inr ⟨rfl, rfl⟩⟩
    | false => exact .pure stays
  | iterJmp =>
    simp only [execute]
    split
    · exact .throw _
    · refine .after fun r => ?_
      cases r with
      | none => exact .pure ⟨rfl, .inr ⟨rfl, rfl⟩⟩
      | some r => exact .pure stays
  | iterPush =>
    refine .after fun r => .after fun it => ?_
    cases it with
    | none => exact .throw _
    | some it => exact .pure stays
  | iterPop =>
    simp only [execute]
    split
    · exact .pure stays
    · exact .after fun _ => .pure stays
  | dup | dup2 | pop | exch | makeDict | constant | makeTuple | makeFunc | free | call | callVar
  | callKw | callVarKw => exact .after fun _ => .pure stays
  | uplus | uminus | tilde | not | inplaceAdd | inplacePipe | index | unpack | makeList
  | setLocal => exact .after fun _ => .after fun _ => .pure stays
  | attr | setField | setLocalCell | localCell =>
    exact .after fun _ => .after fun _ => .after fun _ => .pure stays
  | freeCell | setGlobal =>
    exact .after fun _ => .after fun _ => .after fun _ => .after fun _ => .pure stays
  | setIndex | slice =>
    simp only [execute]
    split
    · exact .after fun _ => .pure stays
    · exact .throw _
  | append =>
    simp only [execute]
    split
    · exact .after fun _ => .pure stays
    · exact .throw _
    · exact .throw _
  | setDict | setDictUniq =>
    simp only [execute]
    split
    · refine .after fun isNew => ?_
      split
      · exact .after fun _ => .bind (.throw _) fun _ => False.elim
      · exact .pure stays
    · exact .throw _
    · exact .throw _
  | load =>
    refine .after fun r => ?_
    obtain ⟨v, st⟩ := r
    cases v with
    | str s => exact .pure stays
    | _ => exact .throw _
  | getLocal =>
    refine .after fun v => ?_
    cases v with
    | none => exact .after fun _ => .throw _
    | some v => exact .pure stays
  | getGlobal =>
    refine .after fun gs => .after fun v => ?_
    cases v with
    | none => exact .after fun _ => .throw _
    | some v => exact .pure stays
  | predeclared =>
    refine .after fun name => .after fun v => ?_
    cases v with
    | none => exact .throw _
    | some v => exact .pure stays
  | universal =>
    refine .after fun name => ?_
    split
    · exact .pure stays
    · exact .throw _
  | _ => exact .after fun _ => .after fun _ => .pure stays

end Activation

namespace Machine

/-- What an instruction leads to that was executed in the innermost function. -/
def carryOut (thread : Thread) (a : Activation) (callers : List Frame) :
    EStateM.Result Stop Heap Effect → Machine
  | .error e heap => stop heap thread (.func a .call :: callers) e
  | .ok (.proceed b) heap => ⟨heap, thread, .func b .call :: callers, .exec⟩
  | .ok (.finish v) heap => leave heap thread (.func a .call :: callers) v
  | .ok (.call b f args kwargs) heap =>
    ⟨heap, thread, .func b .call :: callers, .invoke f args kwargs⟩
  | .ok (.load b name count) heap => load heap thread b callers name count

/-- If the function above `callers` goes on, then at an address with a property. -/
def GoesOn (m : Machine) (callers : List Frame) (pc : Nat) (P : Nat → Prop) : Prop :=
  m.isDone = false → ∀ b pending, m.frames = .func b pending :: callers → b.pc = pc ∧ P b.next

section GoesOn

variable {heap : Heap} {thread : Thread} {a b : Activation} {callers : List Frame} {pc : Nat}
  {P : Nat → Prop}

/-- A function that is left does not go on. -/
theorem goesOn_of_left {c : Control} : GoesOn ⟨heap, thread, callers, c⟩ callers pc P :=
  fun _ _ _ h => absurd h.symm (List.cons_ne_self _ _)

theorem goesOn_of_eq {pending : Pending} {c : Control} (h : b.pc = pc ∧ P b.next) :
    GoesOn ⟨heap, thread, .func b pending :: callers, c⟩ callers pc P := by
  rintro - b' pending' heq
  cases heq
  exact h

theorem goesOn_stop (e : Stop) :
    (stop heap thread (.func a .call :: callers) e).GoesOn callers pc P := by
  cases e with
  | error e => exact goesOn_of_left
  | abort r => exact fun h => nomatch h

theorem Binds.goesOn {name : String} {count : Nat} {members : Env} {m : Machine}
    (hbinds : Binds heap thread b callers name count members m) (h : b.pc = pc ∧ P b.next) :
    m.GoesOn callers pc P := by
  cases hbinds with
  | binds => exact goesOn_of_eq h
  | stops => exact goesOn_stop _

theorem Loads.goesOn {name : String} {count : Nat} {m : Machine}
    (hloads : Loads heap thread b callers name count m) (h : b.pc = pc ∧ P b.next) :
    m.GoesOn callers pc P := by
  cases hloads with
  | unavailable | failure => exact goesOn_of_left
  | members _ hbinds => exact hbinds.goesOn h
  | program => exact goesOn_of_eq h

theorem goesOn_carryOut {m : Op Effect} (h : Op.Gives (Effect.GoesOn pc P) m) :
    (carryOut thread a callers (m heap)).GoesOn callers pc P := by
  cases hm : m heap with
  | error e heap' => exact goesOn_stop e
  | ok effect heap' =>
    have heffect := h _ _ _ hm
    cases effect with
    | proceed b => exact goesOn_of_eq heffect
    | finish v => exact goesOn_of_left
    | call b f args kwargs => exact goesOn_of_eq heffect
    | load b name count => exact (loads_load heap' thread b callers name count).goesOn heffect

end GoesOn

section Step

variable {heap : Heap} {thread : Thread} {a : Activation} {pending : Pending} {callers : List Frame}
  {f : Fetched}

/-- The next instruction is the one that is read at the address where the function is. -/
theorem step_eq_carryOut (hthread : thread.tick.cancelled = none)
    (hf : fetch (heap.tables a.func).code.code a.next = .ok f) :
    step ⟨heap, thread, .func a pending :: callers, .exec⟩ =
      carryOut thread.tick { a with pc := a.next } callers
        (Activation.execute (heap.tables a.func) f.op (f.arg.getD 0)
          { a with pc := a.next, next := f.next } heap) := by
  simp only [step, exec, hthread, hf]
  rfl

/-- Behind an instruction, its function goes on at the address that was read, or at the operand of a
jump. -/
theorem goesOn_step (hthread : thread.tick.cancelled = none)
    (hf : fetch (heap.tables a.func).code.code a.next = .ok f) :
    (step ⟨heap, thread, .func a pending :: callers, .exec⟩).GoesOn callers a.next fun next =>
      next = f.next ∨ f.op.isJump = true ∧ next = (f.arg.getD 0).toNat := by
  rw [step_eq_carryOut hthread hf]
  exact goesOn_carryOut (Activation.gives_goesOn _ _ _ _)

end Step

end Machine

/-! ## Listing, executing and writing -/

/-- Behind an operand that is filled up, every byte is read as an instruction that does nothing. -/
theorem Emit.fetch_behind_operand {code : Array UInt8} {arg : UInt32} {width start pc : Nat}
    (hat : CodeAt code start (operand arg width))
    (hfrom : start + (Leb128.encode arg.toNat).length ≤ pc)
    (hto : pc < start + (operand arg width).length) : fetch code pc = .ok ⟨.nop, none, pc + 1⟩ := by
  rw [operand, CodeAt.append_iff] at hat
  obtain ⟨skipped, rfl⟩ := Nat.exists_eq_add_of_le hfrom
  obtain ⟨left, hleft⟩ :
      ∃ left, width - (Leb128.encode arg.toNat).length = skipped + (left + 1) := by
    simp only [operand, List.length_append, List.length_replicate] at hto
    exact ⟨width - (Leb128.encode arg.toNat).length - skipped - 1, by omega⟩
  have hfilling := hat.2
  rw [hleft, ← List.replicate_append_replicate, CodeAt.append_iff,
      List.length_replicate] at hfilling
  exact fetch_filling hfilling.2

/-- **What is listed is executed.** A listing of a stream is the one that tiles it, and if there is
none, the address is given where an instruction starts that has no encoding. At the address of a
listed instruction, the same opcode and operand are read, a function that is there executes them in
its next step, and if it does not jump, it goes on at the next listed address. An operand that is
written in any width is read back, from no more bytes than the number needs, and the bytes behind
them do nothing.
-/
theorem instructions_as_executed (code : Array UInt8) :
    (∀ is, instructions code = .ok is ↔ Tiles 0 code.toList is.toList) ∧
      (∀ pc, instructions code = .error pc ↔
        ∃ done rest is, code.toList = done ++ rest ∧ done.length = pc ∧ Tiles 0 done is ∧
          Unreadable rest) ∧
      (∀ is done i rest, instructions code = .ok is → is.toList = done ++ i :: rest →
        fetch code i.pc = .ok ⟨i.op, i.arg, Instruction.nextAddress code rest⟩ ∧
        ∀ heap thread a pending callers, (heap.codeOf a.func).code = code → a.next = i.pc →
          thread.tick.cancelled = none →
          Machine.step ⟨heap, thread, .func a pending :: callers, .exec⟩ =
            Machine.carryOut thread.tick { a with pc := i.pc } callers
              (Activation.execute (heap.tables a.func) i.op (i.arg.getD 0)
                { a with pc := i.pc, next := Instruction.nextAddress code rest } heap) ∧
          (Machine.step ⟨heap, thread, .func a pending :: callers, .exec⟩).GoesOn callers i.pc
            fun next => next = Instruction.nextAddress code rest ∨
              i.op.isJump = true ∧ next = (i.arg.getD 0).toNat) ∧
      ∀ arg width pre post, code.toList = pre ++ Emit.operand arg width ++ post →
        let size := (Leb128.encode arg.toNat).length
        readOperand code 5 pre.length 1 0 = .ok (arg, pre.length + size) ∧
        (∀ k, size ≤ k + 1 ↔ arg.toNat < 128 ^ (k + 1)) ∧
        (Emit.operand arg width).length = max width size ∧
        ∀ pc, pre.length + size ≤ pc → pc < pre.length + (Emit.operand arg width).length →
          fetch code pc = .ok ⟨.nop, none, pc + 1⟩ := by
  refine ⟨fun is => instructions_eq_ok_iff, fun pc => instructions_eq_error_iff, ?_, ?_⟩
  -- reading forward and executing fetch at the same places
  · intro is done i rest his hsplit
    have htiles := instructions_eq_ok_iff.1 his
    obtain ⟨hat, -, hsize⟩ := codeAt_of_toList_eq (List.append_nil code.toList).symm
    have hfetch := htiles.fetch_eq hat (by rw [hsize, List.length_nil]; omega) hsplit
    refine ⟨hfetch, ?_⟩
    intro heap thread a pending callers hcode hnext hthread
    have hf : fetch (heap.tables a.func).code.code a.next =
        .ok ⟨i.op, i.arg, Instruction.nextAddress code rest⟩ := by
      rw [hnext, ← hfetch, ← hcode]
      rfl
    rw [← hnext]
    exact ⟨Machine.step_eq_carryOut hthread hf, Machine.goesOn_step hthread hf⟩
  · intro arg width pre post hcode
    have hat := CodeAt.of_toList_eq hcode
    have hdigits := (CodeAt.append_iff.1 hat).1
    have hread : readOperand code 5 pre.length 1 0 = .ok (UInt32.ofNat (0 + arg.toNat * 1),
        pre.length + (Leb128.encode arg.toNat).length) :=
      Leb128.readOperand_encode hdigits (Leb128.length_encode_toNat_le arg)
    refine ⟨by simpa using hread, fun k => Leb128.length_encode_le_iff, ?_,
      fun pc => Emit.fetch_behind_operand hat⟩
    simp only [Emit.operand, List.length_append, List.length_replicate]
    omega

/-- A conditional jump over an operand in more bytes than needed and a `nop`. -/
def branching : Array UInt8 :=
  #[Opcode.pushTrue.toByte, Opcode.cjmp.toByte, 0x86, 0x80, 0, Opcode.nop.toByte,
    Opcode.pushNone.toByte, Opcode.ret.toByte]

/-- A heap with a function of that code. -/
def Heap.branching : Heap :=
  (((Heap.initial.newProgram
      { (default : Program) with
        toplevel := { (default : Code) with code := Starlark.branching } }).2.newModule
    ⟨0⟩ []).2.newFunc ⟨⟨0⟩, .toplevel, #[], #[]⟩).2

/-- The jump is listed, and the function that is at its address executes it and is then at one of
the two addresses behind it. Cut off within the operand, the stream is refused there. -/
theorem instructions_as_executed_branching :
    let a : Activation :=
      { func := ⟨⟨0⟩, .toplevel, #[], #[]⟩, next := 1, locals := #[], stack := [.bool true] }
    let rest : List Instruction := [⟨5, .nop, none⟩, ⟨6, .pushNone, none⟩, ⟨7, .ret, none⟩]
    instructions branching = .ok (⟨0, .pushTrue, none⟩ :: ⟨1, .cjmp, some 6⟩ :: rest).toArray ∧
    fetch branching 1 = .ok ⟨.cjmp, some 6, 5⟩ ∧
    (Machine.step ⟨.branching, .new "main" none 10 true, [.func a .call], .exec⟩).GoesOn [] 1
      (fun next => next = 5 ∨ Opcode.cjmp.isJump = true ∧ next = 6) ∧
    instructions (branching.extract 0 4) = .error 1 := by
  intro a rest
  have hlist : instructions branching =
      .ok (⟨0, .pushTrue, none⟩ :: ⟨1, .cjmp, some 6⟩ :: rest).toArray := by decide
  have hjump := (instructions_as_executed branching).2.2.1 _ [⟨0, .pushTrue, none⟩]
    ⟨1, .cjmp, some 6⟩ rest hlist rfl
  refine ⟨hlist, hjump.1,
    (hjump.2 .branching (.new "main" none 10 true) a .call [] rfl rfl rfl).2, ?_⟩
  exact ((instructions_as_executed (branching.extract 0 4)).2.1 1).2
    ⟨[Opcode.pushTrue.toByte], [Opcode.cjmp.toByte, 0x86, 0x80], [⟨0, .pushTrue, none⟩], rfl, rfl,
      .cons rfl (.plain rfl) (.nil 1), .truncated rfl (by decide) (by decide)⟩

end Starlark
