import Starlark.Proofs.Lower.References

/-!
# What lowering adds to refer to entries

The instructions with an index that a lowering program adds are those for some references, each with
the index of an equal entry in all tables that the program's tables grow to (`Build.Referring`).
They are followed up to their order, since blocks are filled in turns. A plan says in which order it
adds what (`Plan.Refers`); an index that is handed out is known to be right in what is done with it
(`Plan.Refers.name`), and the code of a function is rendered when its index is handed out
(`Plan.Refers.func`).
-/

set_option autoImplicit false

namespace Starlark

open Build Builder

/-! ## Graphs that grow -/

namespace BlockGraph

variable {g : BlockGraph} {id : BlockId}

/-- A new block refers to nothing. -/
theorem referring_push_empty (g : BlockGraph) : referring (g.push {}) = g.referring := by
  simp [referring]

/-- Neither jumps nor anything else beside instructions counts. -/
theorem referring_modify {f : Block → Block} (hf : ∀ k, (f k).insns = k.insns) :
    referring (g.modify id f) = g.referring := by
  simp only [referring, Array.toList_modify]
  induction g.toList generalizing id with
  | nil => simp
  | cons k rest ih =>
    cases id with
    | zero => simp [hf]
    | succ id => simp [ih]

/-- An instruction that is added to a block counts if it refers to an entry. -/
theorem referring_modify_push (hid : id < g.size) (i : Insn) :
    (referring (g.modify id fun k => { k with insns := k.insns.push i })).Perm
      (g.referring ++ [i].filter (·.op.refers)) := by
  simp only [referring, Array.toList_modify]
  rw [← Array.length_toList] at hid
  generalize g.toList = blocks at hid ⊢
  induction blocks generalizing id with
  | nil => cases hid
  | cons k rest ih =>
    cases id with
    | zero =>
      simp only [List.modify_zero_cons, List.flatMap_cons, Array.toList_push, List.filter_append,
        List.append_assoc]
      exact List.Perm.append_left _ List.perm_append_comm
    | succ id =>
      simp only [List.modify_succ_cons, List.flatMap_cons, List.append_assoc]
      exact (ih (Nat.lt_of_succ_lt_succ hid)).append_left _

end BlockGraph

/-! ## Building -/

/-- What takes instructions is a block. -/
def Builder.Steady (b : Builder) : Prop := ∀ c, b.current = some c → c < b.blocks.size

/-- Blocks and tables have grown, and the added instructions that refer to entries are those for the
given references, for tables with a property. -/
structure Builder.Links (H : Pool → Prop) (refs : List Reference) (b b' : Builder) : Prop where
  size_le : b.blocks.size ≤ b'.blocks.size
  steady : b'.Steady
  covered : b.Covered b'.pool
  added : ∃ insns, b'.blocks.referring.Perm (b.blocks.referring ++ insns) ∧
    ∀ pool, b'.Covered pool → H pool → List.Forall₂ pool.Designates refs insns

/-- A lowering program adds instructions for the given references, if there are `n` blocks
already. -/
def Build.Referring {α : Type} (H : Pool → Prop) (n : Nat) (refs : List Reference) (m : Build α) :
    Prop :=
  ∀ b a b', m b = .ok a b' → b.Steady → n ≤ b.blocks.size → b.Links H refs b'

namespace Builder.Links

variable {H : Pool → Prop} {refs refs' : List Reference} {b b1 b' : Builder}

/-- The instructions stay as they are. -/
theorem of_same (hsteady : b'.Steady) (hsize : b.blocks.size ≤ b'.blocks.size)
    (hsame : b'.blocks.referring = b.blocks.referring)
    (hcov : b.Covered b'.pool) : b.Links H [] b' where
  size_le := hsize
  steady := hsteady
  covered := hcov
  added := ⟨[], by rw [hsame, List.append_nil], fun _ _ _ => .nil⟩

/-- Links in sequence. -/
theorem trans (h : b.Links H refs b1) (h' : b1.Links H refs' b') :
    b.Links H (refs ++ refs') b' where
  size_le := Nat.le_trans h.size_le h'.size_le
  steady := h'.steady
  covered := h.covered.trans h'.covered
  added := by
    obtain ⟨insns, hperm, hlinks⟩ := h.added
    obtain ⟨insns', hperm', hlinks'⟩ := h'.added
    refine ⟨insns ++ insns', ?_, fun pool hcov hH => ?_⟩
    · rw [← List.append_assoc]
      exact hperm'.trans (hperm.append_right _)
    · exact List.rel_append (hlinks pool (h'.covered.trans hcov) hH) (hlinks' pool hcov hH)

/-- Only tables grow in front, by what the property is about. -/
theorem grown {H' : Pool → Prop} (h : b1.Links H' refs b') (hblocks : b1.blocks = b.blocks)
    (hcov : b.Covered b1.pool) (hH : ∀ pool, b1.Covered pool → H pool → H' pool) :
    b.Links H refs b' where
  size_le := hblocks ▸ h.size_le
  steady := h.steady
  covered := hcov.trans h.covered
  added := by
    obtain ⟨insns, hperm, hlinks⟩ := h.added
    refine ⟨insns, hblocks ▸ hperm, fun pool hcov hpool => hlinks pool hcov ?_⟩
    exact hH pool (h.covered.trans hcov) hpool

end Builder.Links

namespace Build.Referring

variable {α β : Type} {H : Pool → Prop} {n : Nat} {refs refs' : List Reference}

/-- The tables and the instructions stay as they are. -/
theorem of_same {m : Build α} (h : ∀ b a b', m b = .ok a b' → b.Steady → n ≤ b.blocks.size →
    b'.Steady ∧ b.blocks.size ≤ b'.blocks.size ∧ b'.blocks.referring = b.blocks.referring ∧
      b.Covered b'.pool) : Referring H n [] m := by
  intro b a b' hm hsteady hn
  obtain ⟨h1, h2, h3, h4⟩ := h b a b' hm hsteady hn
  exact .of_same h1 h2 h3 h4

theorem pure (a : α) : Referring H n [] (pure a : Build α) := by
  refine of_same fun b a' b' h hsteady _ => ?_
  cases h
  exact ⟨hsteady, Nat.le_refl _, rfl, .refl _⟩

/-- The references of two builders in sequence are those of the first and then those of the
second. -/
theorem bind {m : Build α} {f : α → Build β} (hm : Referring H n refs m)
    (hf : ∀ a, Referring H n refs' (f a)) : Referring H n (refs ++ refs') (m >>= f) := by
  intro b a b' h hsteady hn
  obtain ⟨x, b1, h1, h2⟩ := bind_eq_ok.1 h
  have hfirst := hm b x b1 h1 hsteady hn
  exact hfirst.trans (hf x b1 a b' h2 hfirst.steady (Nat.le_trans hn hfirst.size_le))

/-- What comes first refers to nothing. -/
theorem after {m : Build α} {f : α → Build β} (hm : Referring H n [] m)
    (hf : ∀ a, Referring H n refs (f a)) : Referring H n refs (m >>= f) :=
  bind hm hf

/-- What comes last refers to nothing. -/
theorem before {m : Build α} {f : α → Build β} (hm : Referring H n refs m)
    (hf : ∀ a, Referring H n [] (f a)) : Referring H n refs (m >>= f) :=
  List.append_nil refs ▸ bind hm hf

/-- A new block can be continued with from now on. -/
theorem newBlock {k : BlockId → Build β} (hk : ∀ id, n ≤ id → Referring H (id + 1) refs (k id)) :
    Referring H n refs (newBlock >>= k) := by
  intro b a b' h hsteady hn
  obtain ⟨id, b1, h1, h2⟩ := bind_eq_ok.1 h
  cases h1
  have hsize : b.blocks.size + 1 = (b.blocks.push {}).size := (Array.size_push ..).symm
  -- what is current stays a block, and the new one is a block from now on
  have hsteady1 : Steady { b with blocks := b.blocks.push {} } := fun c hc =>
    hsize ▸ Nat.lt_succ_of_lt (hsteady c hc)
  have hrest := hk b.blocks.size hn _ _ _ h2 hsteady1 (Nat.le_of_eq hsize)
  have hfirst : b.Links H [] { b with blocks := b.blocks.push {} } :=
    .of_same hsteady1 (hsize ▸ Nat.le_succ _) (BlockGraph.referring_push_empty _) (.refl b)
  exact hfirst.trans hrest

/-- Going on in a block that is there adds no references. -/
theorem setBlock {id : Nat} (hid : id < n) : Referring H n [] (setBlock id) := by
  refine of_same fun b a b' h _ hn => ?_
  cases h
  refine ⟨?_, Nat.le_refl _, rfl, .refl b⟩
  rintro c ⟨⟩
  exact Nat.lt_of_lt_of_le hid hn

/-- Only the loops, the position or the loads change. -/
theorem modify {f : Builder → Builder} (hcurrent : ∀ b, (f b).current = b.current)
    (hblocks : ∀ b, (f b).blocks = b.blocks)
    (hcov : ∀ b : Builder, b.Covered (f b).pool) :
    Referring H n [] (modify f : Build PUnit) := by
  refine of_same fun b a b' h hsteady _ => ?_
  cases h
  refine ⟨?_, Nat.le_of_eq (hblocks b ▸ rfl), by rw [hblocks], hcov b⟩
  intro c hc
  rw [hblocks]
  exact hsteady c (hcurrent b ▸ hc)

theorem setPos (pos : Position) : Referring H n [] (setPos pos) :=
  modify (fun _ => rfl) (fun _ => rfl) .refl

theorem addLoad (d : Decl) : Referring H n [] (addLoad d) :=
  modify (fun _ => rfl) (fun _ => rfl) .refl

/-- An instruction is added to the current block. -/
theorem push {op : Opcode} {arg : UInt32}
    (h : ∀ pool pos, H pool →
      List.Forall₂ pool.Designates refs ([⟨op, arg, pos⟩].filter (·.op.refers))) :
    Referring H n refs (push op arg) := by
  intro b a b' hm hsteady _
  obtain ⟨c, b1, h1, h2⟩ := bind_eq_ok.1 hm
  obtain ⟨rfl, hc⟩ := current_eq_ok h1
  cases h2
  refine ⟨Nat.le_of_eq Array.size_modify.symm, ?_, ?_, ?_⟩
  · intro c' hc'
    exact Nat.lt_of_lt_of_eq (hsteady c' hc') Array.size_modify.symm
  · exact .refl _
  · exact ⟨_, BlockGraph.referring_modify_push (hsteady c hc) _, fun pool _ hH => h pool _ hH⟩

/-- An instruction that does not refer to an entry adds no reference. -/
theorem push_plain {op : Opcode} (hop : op.refers = false) (arg : UInt32) :
    Referring H n [] (Build.push op arg) :=
  push fun pool pos _ => by rw [List.filter_singleton, hop]; exact .nil

theorem emit (op : Opcode) : Referring H n [] (Build.emit op) := by
  unfold Build.emit
  split
  · exact nofun
  · rename_i harg
    refine push_plain ?_ 0
    cases op <;> first | rfl | exact absurd rfl harg

theorem emitArg {op : Opcode} (hop : op.refers = false) (arg : UInt32) :
    Referring H n [] (emitArg op arg) := by
  unfold Build.emitArg
  split
  · exact push_plain hop arg
  · exact nofun

/-- An instruction that refers to an entry. -/
theorem reference {op : Opcode} {arg : UInt32} {ref : Reference} (hop : op.refers = true)
    (h : ∀ pool pos, H pool → pool.Designates ref ⟨op, arg, pos⟩) :
    Referring H n [ref] (Build.emitArg op arg) := by
  unfold Build.emitArg
  split
  · refine push fun pool pos hH => ?_
    rw [List.filter_singleton, hop]
    exact .cons (h pool pos hH) .nil
  · exact nofun

theorem jump (id : BlockId) : Referring H n [] (jump id) := by
  refine of_same fun b a b' hm hsteady _ => ?_
  obtain ⟨c, b1, h1, h2⟩ := bind_eq_ok.1 hm
  obtain ⟨rfl, hc⟩ := current_eq_ok h1
  split at h2
  · cases h2
  · cases h2
    refine ⟨nofun, Nat.le_of_eq Array.size_modify.symm, ?_, ?_⟩
    · exact BlockGraph.referring_modify fun _ => rfl
    · exact .refl _

theorem condJump {op : Opcode} (hop : op.refers = false) (t f : BlockId) :
    Referring H n [] (condJump op t f) := by
  refine after (emitArg hop 0) fun _ => ?_
  intro b a b' hm hsteady hn
  obtain ⟨c, b1, h1, h2⟩ := bind_eq_ok.1 hm
  obtain ⟨hb1, hc⟩ := current_eq_ok h1
  subst hb1
  obtain ⟨_, b2, hmodify, hjump⟩ := bind_eq_ok.1 h2
  cases hmodify
  let branch : Block → Block := fun k => { k with cjmp := some t }
  have hsize : b1.blocks.size = (b1.blocks.modify c branch).size := Array.size_modify.symm
  have hsteady2 : Steady { b1 with blocks := b1.blocks.modify c branch } :=
    fun c' hc' => Nat.lt_of_lt_of_eq (hsteady c' hc') hsize
  have hfirst : b1.Links H [] { b1 with blocks := b1.blocks.modify c branch } :=
    .of_same hsteady2 (Nat.le_of_eq hsize) (BlockGraph.referring_modify fun _ => rfl)
      (.refl b1)
  exact hfirst.trans (jump f _ _ _ hjump hsteady2 (Nat.le_trans hn (Nat.le_of_eq hsize)))

theorem innermostLoop : Referring H n [] innermostLoop := by
  refine of_same fun b l b' h hsteady _ => ?_
  obtain ⟨rfl, -⟩ := innermostLoop_eq_ok h
  exact ⟨hsteady, Nat.le_refl _, rfl, .refl _⟩

theorem inLoop {l : Loop} {body : Build Unit} (h : Referring H n refs body) :
    Referring H n refs (inLoop l body) :=
  after (modify (fun _ => rfl) (fun _ => rfl) .refl) fun _ =>
    before h fun _ => modify (fun _ => rfl) (fun _ => rfl) .refl

/-- The code behind the body of a function. -/
theorem finishing (b : Builder) : Referring H n []
    (if b.current.isSome then (do Build.emit .pushNone; Build.emit .ret) else Pure.pure () :
      Build Unit) := by
  split
  · exact after (emit _) fun _ => emit _
  · exact pure ()

end Build.Referring

/-! ## Plans -/

/-- A plan adds instructions for the given references. -/
def Plan.Refers (H : Pool → Prop) (p : Plan) (refs : List Reference) : Prop :=
  ∀ n, Referring H n refs p.emit

/-- A test adds instructions for the given references. -/
def Test.Refers (H : Pool → Prop) (test : Test) (refs : List Reference) : Prop :=
  ∀ n t f, Referring H n refs (test.emit t f)

/-- Assembled code renders what its body refers to. The tables go through, and the blocks around
come back. -/
theorem Plan.Refers.assemble {body : Plan} {ss : List Stmt} {pos : Position} {b b' : Builder}
    {a : Starlark.Assembled} (hss : Build.stmts ss = body.emit)
    (hbody : body.Refers (fun _ => True) (References.stmts ss))
    (h : assemble pos body.emit b = .ok a b') :
    b'.blocks = b.blocks ∧ b'.current = b.current ∧ b.Covered b'.pool ∧
      ∀ pool, b'.Covered pool → pool.Renders pos ss a := by
  obtain ⟨b1, hb, hend, -⟩ := drafts_of_assemble h
  have hsteady : (inside b pos).Steady := by
    rintro c ⟨⟩
    exact Nat.zero_lt_one
  -- the graph starts with an empty block, so it refers to what the body adds
  have hlinks := hbody 0 _ _ _ hb hsteady (Nat.zero_le _)
  unfold finish at hend
  split at hend
  · cases hend
  · rename_i b2 hb2
    have hlast := hlinks.trans
      (Referring.finishing (n := 0) b1 _ _ _ hb2 hlinks.steady (Nat.zero_le _))
    rw [List.append_nil] at hlast
    obtain ⟨rfl, l, hlayout, hcode⟩ := close_eq_ok hend
    have hin : b.Covered (inside b pos).pool := .refl b
    have hcov : b2.Covered (outside b b2).pool := .refl b2
    refine ⟨rfl, rfl, hin.trans (hlast.covered.trans hcov), fun pool hpool => ?_⟩
    obtain ⟨insns, hperm, hdesignates⟩ := hlast.added
    exact .mk ⟨b, b1, b2, hss ▸ hb, hb2, rfl⟩ hlayout hcode hperm.symm
      (hdesignates pool (hcov.trans hpool) trivial)

namespace Plan.Refers

variable {H : Pool → Prop} {p q r : Plan} {test : Test} {ds es fs : List Reference}

theorem skip : Plan.skip.Refers H [] := fun _ => .pure ()

theorem pos (pos : Position) : (Plan.pos pos).Refers H [] := fun _ => .setPos pos

theorem op (o : Opcode) : (Plan.op o).Refers H [] := fun _ => .emit o

theorem arg {o : Opcode} (ho : o.refers = false) (i : UInt32) : (Plan.arg o i).Refers H [] :=
  fun _ => .emitArg ho i

/-- An instruction that refers to an entry adds the reference, if its index is right. -/
theorem reference {o : Opcode} {i : UInt32} {ref : Reference} (ho : o.refers = true)
    (h : ∀ pool pos, H pool → pool.Designates ref ⟨o, i, pos⟩) : (Plan.arg o i).Refers H [ref] :=
  fun _ => .reference ho h

/-- A plan that fails never emits anything, so it may be said to add any references. -/
theorem fail (e : CompileError) : (Plan.fail e).Refers H ds := fun _ => nofun

theorem load (d : Decl) : (Plan.load d).Refers H [] := fun _ => .addLoad d

theorem append (hp : p.Refers H ds) (hq : q.Refers H es) : (p ++ q).Refers H (ds ++ es) :=
  fun n => .bind (hp n) fun _ => hq n

/-- What comes first refers to nothing. -/
theorem after (hp : p.Refers H []) (hq : q.Refers H es) : (p ++ q).Refers H es := hp.append hq

/-- What comes last refers to nothing. -/
theorem before (hp : p.Refers H ds) (hq : q.Refers H []) : (p ++ q).Refers H ds :=
  List.append_nil ds ▸ hp.append hq

/-- The index that is handed out is that of the constant in all tables from there on. -/
theorem const (c : Constant) : (Plan.const c).Refers H [.constant c] := by
  intro n b a b' h hsteady hn
  obtain ⟨i, b1, hi, hemit⟩ := bind_eq_ok.1 h
  cases hi
  obtain ⟨hentry, hstart⟩ := intern_spec b.constants c
  have hrest : Links (fun pool => IndexOf pool.constants c (.ofNat (intern b.constants c).1))
      [.constant c] { b with constants := (intern b.constants c).2 } b' :=
    Referring.reference (n := n) rfl (fun _ _ hindex => .constant hindex) _ _ _ hemit hsteady hn
  exact hrest.grown rfl ⟨List.prefix_rfl, hstart, List.prefix_rfl⟩ fun pool hcov _ =>
    indexOf_of_start hentry hcov.constants

/-- The index that is handed out is that of the name in all tables from there on. -/
theorem name (s : String) {k : UInt32 → Plan}
    (hk : ∀ i, (k i).Refers (fun pool => H pool ∧ IndexOf pool.names s i) ds) :
    (Plan.name s k).Refers H ds := by
  intro n b a b' h hsteady hn
  obtain ⟨i, b1, hi, hrest⟩ := bind_eq_ok.1 h
  cases hi
  obtain ⟨hentry, hstart⟩ := intern_spec b.names s
  have hrest := hk _ n _ _ _ hrest hsteady hn
  exact hrest.grown rfl ⟨hstart, List.prefix_rfl, List.prefix_rfl⟩ fun pool hcov hH =>
    ⟨hH, indexOf_of_start hentry hcov.names⟩

/-- The index that is handed out is that of the function, whose code refers to entries of the same
tables. -/
theorem func {f : Function} {k : UInt32 → Plan} (hss : Build.stmts f.body = p.emit)
    (hp : p.Refers (fun _ => True) (References.stmts f.body))
    (hk : ∀ i, (k i).Refers (fun pool => H pool ∧ ∃ a, IndexOf pool.functions (f.compiled a) i ∧
      pool.Renders f.pos f.body a) ds) :
    (Plan.func f p k).Refers H ds := by
  intro n b u b' h hsteady hn
  obtain ⟨a, b1, ha, h⟩ := bind_eq_ok.1 h
  obtain ⟨i, b2, hi, hrest⟩ := bind_eq_ok.1 h
  obtain ⟨hblocks, hcurrent, hcov, hrenders⟩ := hp.assemble hss ha
  cases hi
  have hsteady1 : b1.Steady := by
    rw [Steady, hblocks, hcurrent]
    exact hsteady
  have hrest := hk _ n _ _ _ hrest hsteady1 (hblocks ▸ hn)
  have hpushed : b1.Covered { b1 with functions := b1.functions.push (f.compiled a) }.pool :=
    ⟨List.prefix_rfl, List.prefix_rfl, by simp [Builder.pool]⟩
  refine hrest.grown hblocks (hcov.trans hpushed) fun pool hpool hH => ⟨hH, a, ?_, ?_⟩
  · exact indexOf_of_start (by simp) hpool.functions
  · exact hrenders pool (hpushed.trans hpool)

theorem unpack (n : Nat) (h : p.Refers H ds) : (Plan.unpack n p).Refers H ds :=
  fun m => Referring.after (.emitArg rfl _) fun _ => h m

/-- A test is emitted before its branches. -/
theorem either (ht : test.Refers H ds) (hp : p.Refers H es) (hq : q.Refers H fs) :
    (Plan.either test p q).Refers H (ds ++ es ++ fs) := by
  rw [List.append_assoc]
  exact fun n => .newBlock fun t _ => .newBlock fun f _ => .newBlock fun done _ =>
    .bind (ht _ t f) fun _ => .after (.setBlock (by omega)) fun _ =>
    .bind (hp _) fun _ => .after (.jump done) fun _ => .after (.setBlock (by omega)) fun _ =>
    .before (hq _) fun _ => .after (.jump done) fun _ => .setBlock (by omega)

theorem guard (ht : test.Refers H ds) (hp : p.Refers H es) :
    (Plan.guard test p).Refers H (ds ++ es) :=
  fun n => .newBlock fun t _ => .newBlock fun done _ =>
    .bind (ht _ t done) fun _ => .after (.setBlock (by omega)) fun _ =>
    .before (hp _) fun _ => .after (.jump done) fun _ => .setBlock (by omega)

/-- The first operand is emitted before the second. -/
theorem short (stopIf : Bool) (hp : p.Refers H ds) (hq : q.Refers H es) :
    (Plan.short stopIf p q).Refers H (ds ++ es) := by
  refine fun n => .newBlock fun done _ => .newBlock fun second _ => .bind (hp _) fun _ =>
    .after (.emit .dup) fun _ => ?_
  cases stopIf <;> exact .after (.condJump rfl _ _) fun _ => .after (.setBlock (by omega)) fun _ =>
    .after (.emit .pop) fun _ => .before (hq _) fun _ => .after (.jump done) fun _ =>
    .setBlock (by omega)

/-- What is iterated over comes first, then the variables, then the body. -/
theorem each (isLoop : Bool) (pos : Position) (hp : p.Refers H ds) (hq : q.Refers H es)
    (hr : r.Refers H fs) : (Plan.each isLoop p pos q r).Refers H (ds ++ es ++ fs) := by
  have hround : ∀ n (l : Loop), Referring H n (es ++ fs) (do
      q.emit
      if isLoop then inLoop l r.emit else r.emit) := by
    intro n l
    refine .bind (hq n) fun _ => ?_
    split
    · exact .inLoop (hr n)
    · exact hr n
  rw [List.append_assoc]
  exact fun n => .newBlock fun head _ => .newBlock fun round _ => .newBlock fun tail _ =>
    .bind (hp _) fun _ => .after (.setPos pos) fun _ => .after (.emit .iterPush) fun _ =>
    .after (.jump head) fun _ => .after (.setBlock (by omega)) fun _ =>
    .after (.condJump rfl _ _) fun _ => .after (.setBlock (by omega)) fun _ =>
    .before (hround _ ⟨tail, head⟩) fun _ => .after (.jump head) fun _ =>
    .after (.setBlock (by omega)) fun _ => .emit .iterPop

theorem whileLoop (ht : test.Refers H ds) (hp : p.Refers H es) :
    (Plan.whileLoop test p).Refers H (ds ++ es) :=
  fun n => .newBlock fun head _ => .newBlock fun round _ => .newBlock fun done _ =>
    .after (.jump head) fun _ => .after (.setBlock (by omega)) fun _ =>
    .bind (ht _ round done) fun _ => .after (.setBlock (by omega)) fun _ =>
    .before (.inLoop (hp _)) fun _ => .after (.jump head) fun _ => .setBlock (by omega)

theorem leave (isBreak : Bool) : (Plan.leave isBreak).Refers H [] :=
  fun _ => Referring.after .innermostLoop fun _ => .after (.jump _) fun _ => .newBlock fun id _ =>
    .setBlock (Nat.lt_succ_self id)

theorem ret : Plan.ret.Refers H [] :=
  fun _ => Referring.after (.emit .ret) fun _ => .newBlock fun id _ =>
      .setBlock (Nat.lt_succ_self id)

end Plan.Refers

namespace Test.Refers

variable {H : Pool → Prop} {p : Plan} {test : Test} {ds es : List Reference}

theorem on (hp : p.Refers H ds) : (Test.on p).Refers H ds :=
  fun n _ _ => .before (hp n) fun _ => .condJump rfl _ _

theorem not (ht : test.Refers H ds) : (Test.not test).Refers H ds := fun n t f => ht n f t

theorem both (hp : p.Refers H ds) (ht : test.Refers H es) :
    (Test.both p test).Refers H (ds ++ es) :=
  fun n t f => .bind (hp n) fun _ => .newBlock fun second _ => .after (.condJump rfl _ _) fun _ =>
    .after (.setBlock (Nat.lt_succ_self second)) fun _ => ht _ t f

theorem either (hp : p.Refers H ds) (ht : test.Refers H es) :
    (Test.either p test).Refers H (ds ++ es) :=
  fun n t f => .bind (hp n) fun _ => .newBlock fun second _ => .after (.condJump rfl _ _) fun _ =>
    .after (.setBlock (Nat.lt_succ_self second)) fun _ => ht _ t f

end Test.Refers

end Starlark
