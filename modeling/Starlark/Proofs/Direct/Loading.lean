import Starlark.Proofs.Direct.Calls
import Starlark.Proofs.Direct.Locals
import Starlark.Proofs.Lower.Loads

/-!
# Loading

A `load` statement binds by position: each of its targets gets the member that is named at the same
place (`Running.load_binds_by_position`). Its code pushes the names of the members from the left,
and the name of the module above them. Loading takes the name of the module and puts the members in
the places of their names. Hence the last member is on top, and the targets are stored from the
right. If a member is missing, the statement fails in front of the first store.
-/

set_option autoImplicit false

namespace Starlark

/-! ## The members of a module -/

/-- The first of some names that has no value. -/
def Env.missing? (env : Env) (names : List String) : Option String :=
  names.find? fun name => (env.lookup? name).isNone

/-- Values are the members of a module with some names, in order. -/
def Env.Finds (env : Env) (names : List String) (vs : List Value) : Prop :=
  List.Forall₂ (fun name v => env.lookup? name = some v) names vs

/-- The members of the given names, or the first name that is missing. -/
theorem Op.loadMembers_eq (members : Env) (module : String) (names : List String) (h : Heap) :
    match members.missing? names with
    | none => ∃ vs, members.Finds names vs ∧
        loadMembers members module (names.map Value.str) h = .ok vs h
    | some name =>
      loadMembers members module (names.map Value.str) h =
          .error (.fault (.missingMember name module)) h := by
  -- the first name without a member is the one the failure gives
  induction names with
  | nil => exact ⟨[], .nil, rfl⟩
  | cons name rest ih =>
    unfold Env.missing? at ih ⊢
    rw [List.find?_cons, List.map_cons, loadMembers]
    cases hname : members.lookup? name with
    | none => rfl
    | some v =>
      simp only [Option.isNone_some]
      split
      · rename_i hnone
        rw [hnone] at ih
        obtain ⟨vs, hvs, hload⟩ := ih
        refine ⟨v :: vs, .cons hname hvs, ?_⟩
        rw [Starlark.bind_apply, hload]
        rfl
      · rename_i missing hsome
        rw [hsome] at ih
        rw [Starlark.bind_apply, ih]

/-- The members of a module take the places of their names, the last one on top. -/
theorem Op.replaceNames_eq (members : Env) (module : String) (names : List String) (st : List Value)
    (h : Heap) :
    match members.missing? names with
    | none => ∃ vs, members.Finds names vs ∧
        replaceNames members module names.length ((names.map Value.str).reverse ++ st) h =
          .ok (vs.reverse ++ st) h
    | some name =>
      replaceNames members module names.length ((names.map Value.str).reverse ++ st) h =
        .error (.fault (.missingMember name module)) h := by
  -- the names lie on the stack last first, so taking them off gives them in order
  have hpop : replaceNames members module names.length ((names.map Value.str).reverse ++ st) = (do
      return (← loadMembers members module (names.map Value.str)).reverse ++ st) := by
    have hlength : names.length = (names.map Value.str).length := by simp
    rw [replaceNames, hlength, popMany_reverse]
    rfl
  have hmembers := loadMembers_eq members module names h
  rw [hpop, Starlark.bind_apply]
  split
  · rename_i hnone
    rw [hnone] at hmembers
    obtain ⟨vs, hvs, hload⟩ := hmembers
    exact ⟨vs, hvs, by rw [hload]; rfl⟩
  · rename_i name hsome
    rw [hsome] at hmembers
    rw [hmembers]

/-- A thread that counts instructions has the same modules. -/
theorem Thread.Ticks.source?_eq {t t' : Thread} (h : t.Ticks t') (module : String) :
    t'.source? module = t.source? module := by
  obtain ⟨k, rfl⟩ := h
  induction k with
  | zero => rfl
  | succ k ih =>
    rw [Function.iterate_succ_apply', ← ih]
    unfold source?
    rw [(persists_tick _).loader]

namespace Running

variable {p : Program} {predeclared : String → Prop} {R : Running p predeclared} {n lo hi : Nat}
  {q q' : Point} {st : List Value} {its : List Iter} {s : Scene} {loops : List Loop}
  {module : String} {names : List String} {targets : List Ident} {members : Env}

/-! ## The names -/

/-- The names of members come to lie on the stack in order. -/
theorem StandsAt.strings (h : R.StandsAt n q st its s)
    (hat : (Lowering.strings names).At p.pool R.code.graph loops q lo q' hi) :
    R.Comes n st its fun m => R.StandsAt m q' ((names.map Value.str).reverse ++ st) its s := by
  induction names generalizing q lo st n with
  | nil =>
    obtain ⟨rfl, rfl⟩ := hat
    exact .here h
  | cons name rest ih =>
    obtain ⟨_, _, hfirst, hrest⟩ := hat
    refine (h.const hfirst).bind fun m _ hm => ?_
    refine ((ih hm hrest).below (List.suffix_cons _ st) (List.suffix_refl its)).mono
        fun m _ hm => ?_
    simpa [Constant.value] using hm

/-- The module is loaded. -/
theorem StandsAt.load {vs : List Value}
    (h : R.StandsAt n q (.str module :: (vs.reverse ++ st)) its s)
    (hinsn : R.code.graph.InsnAt q .load (UInt32.ofNat vs.length)) :
    R.Comes n st its fun m => R.LoadsAt m module vs.length q.next (vs.reverse ++ st) its s := by
  have hlow : st <:+ .str module :: (vs.reverse ++ st) := ⟨.str module :: vs.reverse, by simp⟩
  refine ((h.execute hinsn rfl nofun).below hlow (List.suffix_refl its)).mono fun m _ hm => ?_
  obtain ⟨a, ha, hl, hst, rfl, hlt, hyields⟩ := hm
  have hcount : (UInt32.ofNat vs.length).toNat = vs.length := by
    rw [List.length_cons, List.length_append, List.length_reverse] at hlt
    exact toNat_ofNat_of_lt (by omega)
  simp only [Activation.execute, hst, Op.pop_bind, hcount] at hyields
  have hloads := hyields rfl rfl
  rwa [hl] at hloads

/-! ## The members -/

/-- At a time, the members of a module are to take the places of the topmost names on the stack. -/
def BringsAt (R : Running p predeclared) (n : Nat) (module : String) (count : Nat) (members : Env)
    (q : Point) (st : List Value) (its : List Iter) (s : Scene) : Prop :=
  ∃ t a, Machine.run n R.start = Machine.bindMembers s.heap t a R.callers module count members ∧
    s.thread.Ticks t ∧ a.func = R.func ∧
    R.code.layout.Enters R.code.graph R.body.code a.next q ∧ a.locals = s.locals ∧ a.stack = st ∧
    a.iters = its

/-- A module may be at hand. -/
theorem LoadsAt.brings {count : Nat} (h : R.LoadsAt n module count q st its s)
    (hsource : s.thread.source? module = .ok (.members members)) :
    R.BringsAt n module count members q st its s := by
  obtain ⟨t, a, hrun, ht, h⟩ := h
  refine ⟨t, a, ?_, ht, h⟩
  rw [hrun, Machine.load, ht.source?_eq, hsource]

/-- A module may be a program, whose variables are its members once it is frozen. -/
theorem LoadsAt.keeps_brings {count : Nat} {r : ProgramRef} {env : Env}
    (h : R.LoadsAt n module count q st its s)
    (hsource : s.thread.source? module = .ok (.program r env)) {low : List Value}
    (hlow : low <:+ st) :
    R.Keeps n low its fun m => ∃ (loaded : ModuleRef) (heap : Heap) (t : Thread),
      R.BringsAt m module count ((heap.freezeModule loaded).moduleGlobals loaded) q st its
        ⟨heap.freezeModule loaded, t, s.locals⟩ := by
  obtain ⟨t, a, hrun, ht, ha, hnext, hl, rfl, rfl⟩ := h
  rw [Machine.load, ht.source?_eq, hsource] at hrun
  refine keeps_call hrun ha hlow (List.suffix_refl _) fun m heap t r _ hm => ?_
  cases r with
  | ok v => exact .here ⟨_, heap, t, t, a, hm, .refl t, ha, hnext, hl, rfl, rfl⟩
  | error x => exact .left ⟨_, _, a, _, hm, ha⟩

/-- At a time, a `load` statement fails since a member is missing. The heap and the locals are those
of a scene. -/
def MissesAt (R : Running p predeclared) (n : Nat) (name module : String) (s : Scene) : Prop :=
  ∃ t a, Machine.run n R.start =
      Machine.stop s.heap t (.func a .call :: R.callers) (.fault (.missingMember name module)) ∧
    a.func = R.func ∧ a.locals = s.locals

/-- The members are found, or one is missing. -/
theorem BringsAt.outcome
    (h : R.BringsAt n module names.length members q ((names.map Value.str).reverse ++ st) its s) :
    match members.missing? names with
    | none =>
      ∃ vs t, members.Finds names vs ∧ R.StandsAt n q (vs.reverse ++ st) its ⟨s.heap, t, s.locals⟩
    | some name => R.MissesAt n name module s := by
  obtain ⟨t, a, hrun, ht, ha, hnext, hl, hst, hits⟩ := h
  have hreplaced := Op.replaceNames_eq members module names st s.heap
  rw [Machine.bindMembers, hst] at hrun
  split
  · rename_i hnone
    rw [hnone] at hreplaced
    obtain ⟨vs, hvs, hreplaced⟩ := hreplaced
    rw [hreplaced] at hrun
    exact ⟨vs, t, hvs, a.next, hnext, t, _, hrun, .refl t, ha, rfl, hl, rfl, hits⟩
  · rename_i name hsome
    rw [hsome] at hreplaced
    rw [hreplaced] at hrun
    exact ⟨t, a, hrun, ha, hl⟩

/-! ## The targets -/

/-- Values are stored into variables from the top of the stack on. If the variables are different,
each of them then holds its own value. -/
theorem StandsAt.storeAll (hp : p.Sourced) (hreach : R.start.Reachable) {ids : List Ident}
    {vs : List Value} (h : R.StandsAt n q (vs ++ st) its s) (hlength : vs.length = ids.length)
    (hids : ∀ id ∈ ids, R.code.scopes.Assigns .full id) (hdistinct : (ids.map Ident.place).Nodup)
    (hat : (Lowering.storeAll ids).At p.pool R.code.graph loops q lo q' hi) :
    R.Comes n st its fun m => ∃ s', R.StandsAt m q' st its s' ∧
      List.Forall₂ (fun id v => R.held? s' id = some v) ids vs ∧
      ∀ id, R.code.scopes.Assigns .full id → id.place ∉ ids.map Ident.place →
        R.held? s' id = R.held? s id := by
  -- the values lie in the order of the targets, so each store takes its own
  induction ids generalizing vs q lo s n with
  | nil =>
    obtain rfl := List.length_eq_zero_iff.1 hlength
    obtain ⟨rfl, rfl⟩ := hat
    exact .here ⟨s, h, .nil, fun _ _ _ => rfl⟩
  | cons id ids ih =>
    obtain ⟨v, vs, rfl⟩ := List.exists_cons_of_length_eq_add_one hlength
    obtain ⟨_, _, hfirst, hrest⟩ := hat
    obtain ⟨hid, hids⟩ := List.forall_mem_cons.1 hids
    rw [List.map_cons, List.nodup_cons] at hdistinct
    obtain ⟨hfresh, hdistinct⟩ := hdistinct
    have hs := settled_of_reachable hp hreach h
    refine ((h.store hs hid hfirst).below (List.suffix_append vs st) (List.suffix_refl its)).bind
      fun m _ hm => ?_
    refine (ih hm (Nat.succ.inj hlength) hids hdistinct hrest).mono fun m _ hm => ?_
    obtain ⟨s', hstands, hheld, hothers⟩ := hm
    refine ⟨s', hstands, .cons ?_ hheld, fun id' hid' hne => ?_⟩
    · -- the later stores are into other variables
      rw [hothers id hid hfresh, held?_stored_self hs hid]
    · rw [List.map_cons, List.mem_cons, not_or] at hne
      rw [hothers id' hid' hne.2, held?_stored_of_ne hs hid hid' (Ne.symm hne.1)]

/-- At a time, the members of a module are at hand that a `load` statement names. If all of them are
there, the statement ends with the operand stack as before, and each target holds the member that is
named at its position. Otherwise it fails with the first name that is missing, and no target is
stored into. -/
def BindsAt (R : Running p predeclared) (n : Nat) (module : String) (names : List String)
    (targets : List Ident) (members : Env) (q : Point) (st : List Value) (its : List Iter)
    (s : Scene) :
    Prop :=
  ((∀ name ∈ names, ∃ v, members.lookup? name = some v) →
    R.Comes n st its fun m => ∃ s', R.StandsAt m q st its s' ∧
      ∀ (i : Nat) (name : String) (id : Ident), names[i]? = some name → targets[i]? = some id →
        ∃ v, members.lookup? name = some v ∧ R.held? s' id = some v) ∧
  ∀ name, members.missing? names = some name → R.MissesAt n name module s

/-- The members are stored into the targets. -/
theorem BringsAt.binds (hp : p.Sourced) (hreach : R.start.Reachable)
    (h : R.BringsAt n module names.length members q ((names.map Value.str).reverse ++ st) its s)
    (hlength : names.length = targets.length)
    (hids : ∀ id ∈ targets, R.code.scopes.Assigns .full id)
    (hdistinct : (targets.map Ident.place).Nodup)
    (hat : (Lowering.storeAll targets.reverse).At p.pool R.code.graph loops q lo q' hi) :
    R.BindsAt n module names targets members q' st its s := by
  have houtcome := h.outcome
  constructor
  · intro hfound
    have hnone : members.missing? names = none := by
      refine List.find?_eq_none.2 fun name hname => ?_
      obtain ⟨v, hv⟩ := hfound name hname
      simp [hv]
    rw [hnone] at houtcome
    obtain ⟨vs, t, hvs, hstands⟩ := houtcome
    have hstored := hstands.storeAll hp hreach (by simp [← hvs.length_eq, hlength])
      (fun id hid => hids id (List.mem_reverse.1 hid))
      (by rw [List.map_reverse]; exact List.nodup_reverse.2 hdistinct) hat
    refine hstored.mono fun m _ hm => ?_
    obtain ⟨s', hstands, hheld, -⟩ := hm
    -- the stores go from the right, and so do the values on the stack
    have hheld : List.Forall₂ (fun id v => R.held? s' id = some v) targets vs :=
      List.forall₂_reverse_iff.1 hheld
    refine ⟨s', hstands, fun i name id hname hid => ?_⟩
    obtain ⟨hi, rfl⟩ := List.getElem?_eq_some_iff.1 hname
    obtain ⟨hi', rfl⟩ := List.getElem?_eq_some_iff.1 hid
    have hlt : i < vs.length := hvs.length_eq ▸ hi
    exact ⟨vs[i], hvs.get hi hlt, hheld.get hi' hlt⟩
  · intro name hsome
    rw [hsome] at houtcome
    exact houtcome

end Running

/-- The code of a statement stands between two points of a graph. -/
def Stmt.StandsBetween (x : Stmt) (pool : Pool) (g : BlockGraph) (q q' : Point) : Prop :=
  ∃ loops lo hi, (Lowering.stmt x).At pool g loops q lo q' hi

namespace Running

variable {p : Program} {predeclared : String → Prop} {R : Running p predeclared} {n : Nat}
  {q q' : Point} {st : List Value} {its : List Iter} {s : Scene} {pos modulePos : Position}
  {module : String} {names : List String} {targets : List Ident} {inLoop : Bool}

/-- The code of a `load` statement loads the module, with the names of the members on the stack, and
then stores into the targets. -/
theorem StandsAt.loads (h : R.StandsAt n q st its s) (hlength : names.length = targets.length)
    (hat : (Stmt.load pos module modulePos names targets).StandsBetween p.pool R.code.graph q q') :
    ∃ q₁, (∃ loops lo hi, (Lowering.storeAll targets.reverse).At p.pool R.code.graph loops q₁
      lo q' hi) ∧ R.Comes n st its fun m =>
        R.LoadsAt m module names.length q₁ ((names.map Value.str).reverse ++ st) its s := by
  obtain ⟨loops, lo, hi, hat⟩ := hat
  rw [Lowering.stmt, if_neg (by omega)] at hat
  obtain ⟨_, _, ⟨_, _, ⟨_, _, ⟨_, _, ⟨_, _, hatnames, rfl, rfl⟩, hatmodule⟩, rfl, rfl⟩,
    hinsn, rfl, rfl⟩, hatstores⟩ := hat
  refine ⟨_, ⟨_, _, _, hatstores⟩, ?_⟩
  refine (h.strings hatnames).bind fun m _ hm => ?_
  refine ((hm.const hatmodule).below (List.suffix_append _ st) (List.suffix_refl its)).bind
      fun m _ hm => ?_
  have hlength : names.length = (names.map Value.str).length := by simp
  rw [hlength] at hinsn ⊢
  exact hm.load hinsn

/-- A `load` statement binds by position. Take one with as many targets as names, in any function of
the program of a resolved file, whose targets are different variables. Whatever members the module
is found to have, if all of the names are among them, the statement ends with the operand stack as
before, and each target holds the member that is named at its position; otherwise it fails with the
first name that is missing, and stores into no target. The members may be at hand, or the module is
a program that is run first. A program lists exactly one module for each `load` statement of its
file. -/
theorem load_binds_by_position (hp : p.Sourced) (hreach : R.start.Reachable)
    (hx : Resolved.stmt .full R.code.scopes inLoop (.load pos module modulePos names targets))
    (hdistinct : (targets.map Ident.place).Nodup) :
    (∀ (f : SourceFile) (p : Program), f.compile = .ok p → p.loads = Loads.stmts f.body) ∧
    (∀ (b b' : Builder) (c : BlockId), b.Cursor c →
      Build.stmt (.load pos module modulePos names targets) b = .ok () b' →
      ∃ c', Builder.Stage b c b' (some c') [] fun pool g =>
        (Stmt.load pos module modulePos names targets).StandsBetween pool g (b.endOf c)
          (b'.endOf c')) ∧
    ∀ n q q' st its s,
      (Stmt.load pos module modulePos names targets).StandsBetween p.pool R.code.graph q q' →
      R.StandsAt n q st its s →
      (∀ members, s.thread.source? module = .ok (.members members) →
        R.Comes n st its fun m => R.BindsAt m module names targets members q' st its s) ∧
      ∀ r env, s.thread.source? module = .ok (.program r env) →
        R.Keeps n st its fun m => ∃ (loaded : ModuleRef) (heap : Heap) (t : Thread),
          R.BindsAt m module names targets ((heap.freezeModule loaded).moduleGlobals loaded) q' st
            its ⟨heap.freezeModule loaded, t, s.locals⟩ := by
  obtain ⟨hlength, hids⟩ := hx
  refine ⟨fun _ _ => SourceFile.loads_of_compile, ?_, ?_⟩
  · intro b b' c hc hb
    rw [Lowering.stmt_eq] at hb
    obtain ⟨c', hstage⟩ := Plan.realizes _ hc hb
    exact ⟨c', hstage.mono fun _ _ hat => ⟨_, _, _, hat⟩⟩
  intro n q q' st its s hat hv
  obtain ⟨q₁, ⟨loops, lo, hi, hatstores⟩, hloads⟩ := hv.loads hlength hat
  constructor
  -- members that are there are bound at once
  · intro members hsource
    exact hloads.mono fun m _ hm =>
      (hm.brings hsource).binds hp hreach hlength hids hdistinct hatstores
  -- a program has to run first, and its globals are frozen before they are bound
  · intro r env hsource
    refine hloads.keeps.bind fun m _ hm => ?_
    refine (hm.keeps_brings hsource (List.suffix_append _ st)).mono fun m _ hm => ?_
    obtain ⟨loaded, heap, t, hbrings⟩ := hm
    exact ⟨loaded, heap, t, hbrings.binds hp hreach hlength hids hdistinct hatstores⟩

end Running

/-! ## A file that loads members into variables of each kind -/

namespace SourceFile

/-- The targets are a local, a captured local and a module variable. -/
def importerTargets : List Ident :=
  [⟨"x", ⟨1, 17⟩, .frame, 0⟩, ⟨"y", ⟨1, 22⟩, .cell, 1⟩, ⟨"z", ⟨1, 27⟩, .global, 0⟩]

/-- The statement `load("lib.star", x = "a", y = "b", z = "a")`. -/
def importer : Stmt := .load ⟨1, 1⟩ "lib.star" ⟨1, 6⟩ ["a", "b", "a"] importerTargets

/-- A file with this statement. -/
def importerFile : SourceFile where
  filename := "importer.star"
  body := [importer]
  locals := [⟨"x", ⟨1, 17⟩, .frame, 0⟩, ⟨"y", ⟨1, 22⟩, .cell, 1⟩]
  globals := [⟨"z", ⟨1, 27⟩, .global, 0⟩]
  recursion := false

/-- The members of the module. -/
def libMembers : Env := [("a", .int 1), ("b", .int 2)]

/-- A thread that has the module. -/
def importerThread : Thread :=
  { Thread.new "main" none 9 true with loader := some [("lib.star", .members libMembers)] }

/-- The module of the example is no program. -/
theorem suits_importerThread {h : Heap} : importerThread.Suits h := by
  refine ⟨fun name r env hsource => ?_, Thread.sober_of_library rfl⟩
  simp only [Thread.source?, importerThread, List.find?_cons, List.find?_nil] at hsource
  split at hsource
  · rename_i hfound
    split at hfound
    · cases hfound
      cases hsource
    · cases hfound
  · cases hsource

/-- The file of the example is well resolved. -/
theorem wellResolved_importerFile : importerFile.WellResolved fun _ => False := by
  simp [SourceFile.WellResolved, SourceFile.scopes, importerFile, importer, importerTargets,
    Resolved.stmts, Resolved.stmt, Scopes.Assigns, Scopes.Uses, Scopes.Declares]

/-- The toplevel loads the module and ends with the members in its variables. -/
theorem load_binds_by_position_importer : ∃ (p : Program) (R : Running p fun _ => False)
    (q' : Point)
    (s : Scene), importerFile.compile = .ok p ∧ p.loads = [⟨"lib.star", ⟨1, 6⟩⟩] ∧ p.Sourced ∧
      R.start.Reachable ∧ (importerTargets.map Ident.place).Nodup ∧
      importer.StandsBetween p.pool R.code.graph ⟨0, 0⟩ q' ∧ R.StandsAt 1 ⟨0, 0⟩ [] [] s ∧
      s.thread.source? "lib.star" = .ok (.members libMembers) ∧
      R.Comes 1 [] [] fun m => ∃ s', R.StandsAt m q' [] [] s' ∧
        importerTargets.map (R.held? s') = [some (.int 1), some (.int 2), some (.int 1)] := by
  have hcheck : importerFile.compile.toOption.any (fun p => decide (p.names.size ≤ 2 ^ 32 ∧
      p.constants.size ≤ 2 ^ 32 ∧ p.functions.size ≤ 2 ^ 32 ∧ p.toplevel.locals.size ≤ 2 ^ 32 ∧
      ∀ code ∈ p.functions, code.locals.size ≤ 2 ^ 32)) = true := by
    decide +kernel
  obtain ⟨p, hp, hq⟩ := exists_ok_of_any hcheck
  have hindexable := Program.indexable_of_sizes (of_decide_eq_true hq)
  -- the program is compiled from the file, so everything about compiled programs holds of it
  have hsourced : p.Sourced := ⟨importerFile, _, wellResolved_importerFile, hp, hindexable⟩
  obtain ⟨R, hscopes, hstands, hreach, hbegins⟩ := exists_loading_beginning
    wellResolved_importerFile hp hindexable.toAddressable rfl suits_importerThread (by decide)
  have hresolved : Resolved.stmt .full R.code.scopes false importer := by
    rw [hscopes]
    exact wellResolved_importerFile.1
  have hdistinct : (importerTargets.map Ident.place).Nodup := by decide
  obtain ⟨e, ⟨m, lo, hat, -⟩, -⟩ := hstands
  have hbetween : importer.StandsBetween p.pool R.code.graph ⟨0, 0⟩ m := ⟨_, _, _, hat⟩
  obtain ⟨hloads, -, hruns⟩ := Running.load_binds_by_position hsourced hreach hresolved hdistinct
  refine ⟨p, R, m, _, hp, hloads importerFile p hp, hsourced, hreach, hdistinct, hbetween,
      hbegins, rfl, ?_⟩
  refine ((hruns 1 _ _ [] [] _ hbetween hbegins).1 libMembers rfl).bind fun m _ hbinds => ?_
  refine (hbinds.1 (by simp [libMembers, Env.lookup?])).mono fun m _ hm => ?_
  obtain ⟨s', hstands, hheld⟩ := hm
  -- each target by its position among the names
  obtain ⟨v, hv, hx⟩ := hheld 0 _ _ rfl rfl
  obtain ⟨w, hw, hy⟩ := hheld 1 _ _ rfl rfl
  obtain ⟨u, hu, hz⟩ := hheld 2 _ _ rfl rfl
  cases hv
  cases hw
  cases hu
  refine ⟨s', hstands, ?_⟩
  rw [importerTargets, List.map_cons, List.map_cons, List.map_cons, hx, hy, hz]
  rfl

end SourceFile

end Starlark
