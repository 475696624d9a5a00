import Starlark.Proofs.Machine.Hosting

/-!
# Stable iteration

A list or dict that is frozen or has a live iterator keeps its contents, whatever happens in a
session (`Heap.Spares`): what changes objects checks their flags and counters first, and the
counters are those of the live iterators. Therefore an iterator gives the elements that were there
when it was opened, each once and in order, whatever happens between two of them
(`Session.iteration_stable`).
-/

set_option autoImplicit false

namespace Starlark

open Relation (ReflTransGen)

/-! ## Spared objects -/

/-- Lists and dicts stay frozen, and those that are frozen or have an iterator in `live` keep their
contents. -/
structure Heap.Spares (live : List Iter) (h h' : Heap) : Prop where
  lists : ∀ r, (h.list r).frozen = true → (h'.list r).frozen = true
  dicts : ∀ r, (h.dict r).frozen = true → (h'.dict r).frozen = true
  elems : ∀ r, (h.list r).frozen = true ∨ (∃ it ∈ live, it.isOverList r = true) →
    (h'.list r).elems = (h.list r).elems
  entries : ∀ r, (h.dict r).frozen = true ∨ (∃ it ∈ live, it.isOverDict r = true) →
    (h'.dict r).entries = (h.dict r).entries

namespace Heap.Counts

variable {h : Heap} {live : List Iter}

theorem index_lt_list (hc : h.Counts live) {r : ListRef}
    (hr : (h.list r).frozen = true ∨ ∃ it ∈ live, it.isOverList r = true) :
    r.index < h.lists.size := by
  rcases hr with hr | ⟨it, hit, hr⟩
  · exact h.index_lt_of_frozen_list hr
  · have hin := hc.isIn it hit
    cases it with
    | list s i => exact eq_of_beq hr ▸ hin
    | dict s i => cases hr
    | tuple rest => cases hr

theorem index_lt_dict (hc : h.Counts live) {r : DictRef}
    (hr : (h.dict r).frozen = true ∨ ∃ it ∈ live, it.isOverDict r = true) :
    r.index < h.dicts.size := by
  rcases hr with hr | ⟨it, hit, hr⟩
  · exact h.index_lt_of_frozen_dict hr
  · have hin := hc.isIn it hit
    cases it with
    | list s i => cases hr
    | dict s i => exact eq_of_beq hr ▸ hin
    | tuple rest => cases hr

/-- A list that may be changed is not spared. -/
theorem not_spared_list (hc : h.Counts live) {r : ListRef} (hfrozen : (h.list r).frozen = false)
    (hiter : (h.list r).iterating = 0) :
    ¬ ((h.list r).frozen = true ∨ ∃ it ∈ live, it.isOverList r = true) := by
  rintro (hr | hr)
  · rw [hfrozen] at hr
    cases hr
  · have hpos := List.countP_pos_iff.2 hr
    rw [← hc.list r, hiter] at hpos
    exact Nat.lt_irrefl 0 hpos

/-- A dict that may be changed is not spared. -/
theorem not_spared_dict (hc : h.Counts live) {r : DictRef} (hfrozen : (h.dict r).frozen = false)
    (hiter : (h.dict r).iterating = 0) :
    ¬ ((h.dict r).frozen = true ∨ ∃ it ∈ live, it.isOverDict r = true) := by
  rintro (hr | hr)
  · rw [hfrozen] at hr
    cases hr
  · have hpos := List.countP_pos_iff.2 hr
    rw [← hc.dict r, hiter] at hpos
    exact Nat.lt_irrefl 0 hpos

end Heap.Counts

namespace Heap.Spares

variable {live live' : List Iter} {h h' h'' : Heap} {it : Iter}

theorem trans (h1 : h.Spares live h') (h2 : h'.Spares live h'') : h.Spares live h'' where
  lists r hr := h2.lists r (h1.lists r hr)
  dicts r hr := h2.dicts r (h1.dicts r hr)
  elems r hr := (h2.elems r (hr.imp_left (h1.lists r))).trans (h1.elems r hr)
  entries r hr := (h2.entries r (hr.imp_left (h1.dicts r))).trans (h1.entries r hr)

/-- Heaps with the same lists and dicts. -/
theorem of_eq (hl : h'.lists = h.lists) (hd : h'.dicts = h.dicts) : h.Spares live h' := by
  have hlist : ∀ r, h'.list r = h.list r := fun r => by rw [Heap.list, Heap.list, hl]
  have hdict : ∀ r, h'.dict r = h.dict r := fun r => by rw [Heap.dict, Heap.dict, hd]
  exact ⟨fun r => by rw [hlist]; exact id, fun r => by rw [hdict]; exact id,
    fun r _ => by rw [hlist], fun r _ => by rw [hdict]⟩

theorem refl (h : Heap) : h.Spares live h := of_eq rfl rfl

/-- A list is changed that is not spared, or keeps its elements. -/
theorem modifyList (h : Heap) (r : ListRef) {f : ListObj → ListObj}
    (hf : (h.list r).frozen = true ∨ (∃ it ∈ live, it.isOverList r = true) →
      (f (h.list r)).elems = (h.list r).elems ∧
      ((h.list r).frozen = true → (f (h.list r)).frozen = true)) :
    h.Spares live (h.modifyList r f) where
  lists s hs := by
    rcases h.list_modifyList_cases r f s with he | ⟨rfl, he⟩
    · rwa [he]
    · rw [he]
      exact (hf (.inl hs)).2 hs
  dicts _ := id
  elems s hs := by
    rcases h.list_modifyList_cases r f s with he | ⟨rfl, he⟩
    · rw [he]
    · rw [he]
      exact (hf hs).1
  entries _ _ := rfl

/-- A dict is changed that is not spared, or keeps its entries. -/
theorem modifyDict (h : Heap) (r : DictRef) {f : DictObj → DictObj}
    (hf : (h.dict r).frozen = true ∨ (∃ it ∈ live, it.isOverDict r = true) →
      (f (h.dict r)).entries = (h.dict r).entries ∧
      ((h.dict r).frozen = true → (f (h.dict r)).frozen = true)) :
    h.Spares live (h.modifyDict r f) where
  lists _ := id
  dicts s hs := by
    rcases h.dict_modifyDict_cases r f s with he | ⟨rfl, he⟩
    · rwa [he]
    · rw [he]
      exact (hf (.inl hs)).2 hs
  elems _ _ := rfl
  entries s hs := by
    rcases h.dict_modifyDict_cases r f s with he | ⟨rfl, he⟩
    · rw [he]
    · rw [he]
      exact (hf hs).1

theorem newList (hc : h.Counts live) (elems : Array Value) : h.Spares live (h.newList elems).2 where
  lists r hr := by rwa [h.list_newList (h.index_lt_of_frozen_list hr)]
  dicts _ := id
  elems r hr := by rw [h.list_newList (hc.index_lt_list hr)]
  entries _ _ := rfl

theorem newDict (hc : h.Counts live) (entries : Array (Value × Value)) :
    h.Spares live (h.newDict entries).2 where
  lists _ := id
  dicts r hr := by rwa [h.dict_newDict (h.index_lt_of_frozen_dict hr)]
  elems _ _ := rfl
  entries r hr := by rw [h.dict_newDict (hc.index_lt_dict hr)]

/-- What changes an object checks it first. -/
theorem of_change (hc : h.Counts live) (hchange : h.Change h') : h.Spares live h' := by
  cases hchange with
  | newList elems => exact newList hc elems
  | newDict => exact newDict hc #[]
  | newBuiltin op receiver => exact of_eq rfl rfl
  | setList r f hfrozen hiter =>
    exact modifyList h r fun hr => absurd hr (hc.not_spared_list hfrozen hiter)
  | insert r v _ hfrozen hiter =>
    exact modifyDict h r fun hr => absurd hr (hc.not_spared_dict hfrozen hiter)

theorem of_evolves (hc : h.Counts live) (he : h.Evolves h') : h.Spares live h' := by
  induction he with
  | refl => exact refl h
  | tail he hchange ih => exact ih.trans (of_change (hc.sameLocks (.of_evolves he)) hchange)

theorem freezeNode (h : Heap) (n : Node) : h.Spares live (h.freezeNode n) := by
  cases n with
  | list r => exact modifyList h r fun _ => ⟨rfl, fun _ => rfl⟩
  | dict r => exact modifyDict h r fun _ => ⟨rfl, fun _ => rfl⟩
  | cell r => exact of_eq rfl rfl
  | func r => exact refl h
  | builtin r => exact refl h

theorem freeze (h : Heap) (v : Value) : h.Spares live (h.freeze v) :=
  Heap.rel_freeze refl trans freezeNode h v

theorem freezeModule (h : Heap) (r : ModuleRef) : h.Spares live (h.freezeModule r) :=
  Heap.rel_freezeModule refl trans freezeNode h r

/-- Opening and closing iterators changes counters only. -/
theorem openIter {v : Value} {found : Option Iter} (ho : h.openIter v = (found, h')) :
    h.Spares live h' := by
  cases v with
  | list r =>
    rw [Heap.openIter] at ho
    split at ho <;> cases ho
    · exact modifyList h r fun _ => ⟨rfl, id⟩
    · exact refl h
  | dict r =>
    rw [Heap.openIter] at ho
    split at ho <;> cases ho
    · exact modifyDict h r fun _ => ⟨rfl, id⟩
    · exact refl h
  | _ =>
    cases ho
    exact refl h

theorem closeIter (h : Heap) (it : Iter) : h.Spares live (h.closeIter it) := by
  cases it with
  | list r i => exact modifyList h r fun _ => ⟨rfl, id⟩
  | dict r i => exact modifyDict h r fun _ => ⟨rfl, id⟩
  | tuple rest => exact refl h

theorem closeAll (h : Heap) (done : List Iter) : h.Spares live (done.foldl Heap.closeIter h) := by
  induction done generalizing h with
  | nil => exact refl h
  | cons it done ih => exact (closeIter h it).trans (ih _)

end Heap.Spares

/-! ## Machines and hosts -/

theorem Heap.SameLocks.of_alters {New : FuncObj → Prop} {h h' : Heap} (ha : h.Alters New h') :
    h.SameLocks h' := by
  cases ha with
  | change hc => exact .of_change hc
  | freezeNode n => exact .freezeNode h n
  | _ => exact .of_eq rfl rfl

theorem Heap.SameLocks.of_altered {New : FuncObj → Prop} {h h' : Heap} (ha : h.Altered New h') :
    h.SameLocks h' := by
  induction ha with
  | refl => exact .refl h
  | tail _ ha ih => exact ih.trans (.of_alters ha)

theorem Heap.Spares.of_alters {New : FuncObj → Prop} {h h' : Heap} {live : List Iter}
    (hc : h.Counts live) (ha : h.Alters New h') : h.Spares live h' := by
  cases ha with
  | change hchange => exact .of_change hc hchange
  | freezeNode n => exact .freezeNode h n
  | _ => exact .of_eq rfl rfl

theorem Heap.Spares.of_altered {New : FuncObj → Prop} {h h' : Heap} {live : List Iter}
    (hc : h.Counts live) (ha : h.Altered New h') : h.Spares live h' := by
  induction ha with
  | refl => exact .refl h
  | tail ha hlast ih => exact ih.trans (.of_alters (hc.sameLocks (.of_altered ha)) hlast)

theorem Heap.Shift.spares {New : FuncObj → Prop} {h h' : Heap} {live live' : List Iter}
    {event : Iter.Event} (hs : h.Shift New live event h' live') (hc : h.Counts live) :
    h.Spares live h' := by
  cases hs with
  | close done rest ha => exact (Heap.Spares.of_altered hc ha).trans (.closeAll _ done)
  | push live ho => exact .openIter ho
  | advance live hn => exact .refl h

/-- What a host does spares its iterators and those of others. -/
theorem HostAct.Performs.spares {a : HostAct} {h h' : Heap} {held held' live : List Iter}
    (hp : a.Performs (h, held) (h', held')) (hc : h.Counts live) : h.Spares live h' := by
  cases hp with
  | operate => exact .of_evolves hc (Operation.evolves_after _ h)
  | freeze => exact .freeze h _
  | freezeModule => exact .freezeModule h _
  | openIter _ ho => exact .openIter ho
  | close => exact .closeIter h _
  | _ => exact .of_eq rfl rfl

/-- A step spares what is iterated, also by others. -/
theorem Machine.Balanced.spares {m : Machine} {held : List Iter} (hb : m.Balanced held) :
    m.heap.Spares (m.iters ++ held) m.step.heap := by
  have hhappens := m.happens_step
  generalize m.step.heap = h' at hhappens ⊢
  generalize m.step.iters = live' at hhappens
  cases hhappens with
  | shift hs => exact (hs.append held).spares hb
  | act rest _ hp hiters => exact hp.spares hb

/-- Whatever happens in a session, frozen and iterated objects keep their contents. -/
theorem Session.Balanced.spares {P : HostPolicy} {s s' : Session} (hb : s.Balanced)
    (hs : Step P s s') :
    s.machine.heap.Spares s.live s'.machine.heap := by
  cases hs with
  | act _ _ hp => exact hp.spares hb.counts
  | call => exact .refl _
  | run m held => exact Machine.Balanced.spares hb.counts

/-! ## What an iterator has left -/

namespace Heap

variable {h h' : Heap} {it it' : Iter} {x v : Value}

theorem remaining_openIter (ho : h.openIter v = (some it, h')) :
    h.elements? v = some (h'.remaining it) := by
  -- an iterator just opened has everything before it; over an object that is not there it has
  -- nothing
  cases v with
  | list r =>
    rw [openIter] at ho
    split at ho <;> cases ho
    · simp only [elements?, remaining, elems_lockList, List.drop_zero]
    · rename_i hr
      rw [elements?, h.list_of_size_le (Nat.not_lt.1 hr)]
      rfl
  | dict r =>
    rw [openIter] at ho
    split at ho <;> cases ho
    · simp only [elements?, remaining, entries_lockDict, List.drop_zero]
    · rename_i hr
      rw [elements?, h.dict_of_size_le (Nat.not_lt.1 hr)]
      rfl
  | tuple elems =>
    cases ho
    rfl
  | _ => cases ho

theorem remaining_of_nextElem? (hn : h.nextElem? it = some (x, it')) :
    h.remaining it = x :: h.remaining it' := by
  cases it with
  | list r i =>
    obtain ⟨e, he, heq⟩ := Option.map_eq_some_iff.1 hn
    cases heq
    have hget : (h.list r).elems.toList[i]? = some x := by simpa using he
    exact (List.drop_eq_getElem?_toList_append ..).trans (by rw [hget]; rfl)
  | dict r i =>
    obtain ⟨e, he, heq⟩ := Option.map_eq_some_iff.1 hn
    cases heq
    have hget : ((h.dict r).entries.toList.map (·.1))[i]? = some e.1 := by simp [he]
    exact (List.drop_eq_getElem?_toList_append ..).trans (by rw [hget]; rfl)
  | tuple rest =>
    cases rest with
    | nil => cases hn
    | cons y rest =>
      cases hn
      rfl

/-- An iterator gives the first of the elements that it has left. -/
theorem nextElem?_eq_head? (h : Heap) (it : Iter) :
    (h.nextElem? it).map (·.1) = (h.remaining it).head? := by
  cases it with
  | list r i => simp [nextElem?, remaining, List.head?_drop, Function.comp_def]
  | dict r i => simp [nextElem?, remaining, List.head?_drop, Function.comp_def]
  | tuple rest => cases rest <;> rfl

theorem Spares.remaining {live : List Iter} (hs : h.Spares live h') (hit : it ∈ live) :
    h'.remaining it = h.remaining it := by
  cases it with
  | list r i => rw [Heap.remaining, Heap.remaining, hs.elems r (.inr ⟨_, hit, beq_self_eq_true r⟩)]
  | dict r i =>
    rw [Heap.remaining, Heap.remaining, hs.entries r (.inr ⟨_, hit, beq_self_eq_true r⟩)]
  | tuple rest => rfl

/-- An iterator over `elems` has given `given`, which is where `elems` begins. It goes on with the
element behind that, and ends if there is none. -/
structure IsAt (h : Heap) (it : Iter) (elems given : List Value) : Prop where
  given_eq : given = elems.take given.length
  next_eq : (h.nextElem? it).map (·.1) = elems[given.length]?

theorem isAt_append (h : Heap) (it : Iter) (given : List Value) :
    h.IsAt it (given ++ h.remaining it) given where
  given_eq := List.take_left.symm
  next_eq := by rw [h.nextElem?_eq_head?, List.getElem?_append_right (Nat.le_refl _), Nat.sub_self,
    List.head?_eq_getElem?]

end Heap

/-! ## Iterators of a host -/

namespace Session

/-- A session in which someone else holds an iterator, too. -/
def besides (s : Session) (it : Iter) : Session := ⟨s.machine, s.held ++ [it]⟩

variable {P : HostPolicy}

theorem Step.besides {s s' : Session} (hs : Step P s s') (it : Iter) :
    Step P (s.besides it) (s'.besides it) := by
  cases hs with
  | act hdone ha hp => exact .act hdone ha (hp.append [it])
  | call held hdone hloads hc => exact .call _ hdone hloads hc
  | run m held => exact .run m _

/-- From a session on, things happen and an iterator is asked for elements, in any order. The
elements that it gave are collected. -/
inductive Iterates (P : HostPolicy) (s : Session) (it : Iter) :
    List Value → Session → Iter → Prop where
  | start : Iterates P s it [] s it
  | step {given : List Value} {s' s'' : Session} {it' : Iter} (hi : Iterates P s it given s' it')
      (hs : Step P s' s'') : Iterates P s it given s'' it'
  | next {given : List Value} {s' : Session} {it' it'' : Iter} {x : Value}
      (hi : Iterates P s it given s' it') (hn : s'.machine.heap.nextElem? it' = some (x, it'')) :
      Iterates P s it (given ++ [x]) s' it''

theorem mem_live_besides (s : Session) (it : Iter) : it ∈ (s.besides it).live :=
  List.mem_append_right _ (List.mem_append_right _ (List.mem_singleton_self it))

/-- What an iterator gave and what it has left are what it had at first. -/
theorem Iterates.remaining {s s' : Session} {it it' : Iter} {given : List Value}
    (hb : (s.besides it).Balanced) (hi : Iterates P s it given s' it') :
    (s'.besides it').Balanced ∧
      s.machine.heap.remaining it = given ++ s'.machine.heap.remaining it' := by
  -- what it gives is taken off the front of what remains, and nothing else touches that
  induction hi with
  | start => exact ⟨hb, rfl⟩
  | @step given s' s'' it' _ hs ih =>
    obtain ⟨hb', heq⟩ := ih
    have hsame := (hb'.spares (hs.besides it')).remaining (s'.mem_live_besides it')
    refine ⟨hb'.step (hs.besides it'), heq.trans ?_⟩
    exact congrArg (given ++ ·) hsame.symm
  | @next given s' it' it'' x _ hn ih =>
    obtain ⟨hb', heq⟩ := ih
    have hcounts : s'.machine.heap.Counts (s'.live ++ [it']) := by
      have hc := hb'.counts
      rwa [live, besides, ← List.append_assoc] at hc
    refine ⟨⟨hb'.poised, ?_⟩, ?_⟩
    · have hc := ((hcounts.perm (List.perm_append_singleton it' _)).advance hn).perm
        (List.perm_append_singleton it'' _).symm
      rwa [live, List.append_assoc] at hc
    · rw [heq, Heap.remaining_of_nextElem? hn, List.append_assoc]
      rfl

end Session

/-! ## Iterators of a machine -/

/-- An iterator that is not the last to be closed stays where it is, unless it is the topmost and is
asked for its next element. -/
theorem Heap.Shift.keeps {New : FuncObj → Prop} {h h' : Heap} {live live' above outer : List Iter}
    {event : Iter.Event} {it : Iter} (hs : h.Shift New live event h' live')
    (hlive : live = above ++ it :: outer) (hopen : outer.length < live'.length) :
    (∃ above', live' = above' ++ it :: outer ∧ ∀ x, event = .takes x → above ≠ []) ∨
      ∃ x it', event = .takes x ∧ above = [] ∧ live' = it' :: outer ∧ h.nextElem? it =
        some (x, it') ∧ h' = h := by
  cases hs with
  | close done rest ha =>
    -- the iterator is among those that stay, because they are more than those below it
    have hrest : ∃ above', live' = above' ++ it :: outer := by
      rcases List.append_eq_append_iff.1 hlive with ⟨l, -, hl⟩ | ⟨l, -, hl⟩
      · exact ⟨l, hl⟩
      · have hlen := congrArg List.length hl
        simp only [List.length_cons, List.length_append] at hlen
        have hnil : l = [] := List.eq_nil_of_length_eq_zero (by omega)
        exact ⟨[], by rw [hl, hnil]; rfl⟩
    obtain ⟨above', rfl⟩ := hrest
    exact .inl ⟨above', rfl, nofun⟩
  | push live ho => exact .inl ⟨_ :: above, by rw [hlive]; rfl, nofun⟩
  | @advance x top top' live hn =>
    cases above with
    | nil =>
      cases hlive
      exact .inr ⟨x, top', rfl, rfl, rfl, hn, rfl⟩
    | cons first above =>
      cases hlive
      exact .inl ⟨top' :: above, rfl, fun _ _ => List.cons_ne_nil _ _⟩

theorem Heap.Shift.ne_nil_of_takes {New : FuncObj → Prop} {h h' : Heap} {live live' : List Iter}
    {x : Value} (hs : h.Shift New live (.takes x) h' live') : live ≠ [] := by
  cases hs with
  | advance live hn => exact List.cons_ne_nil _ _

namespace Machine

/-- The elements that the iterator at the given height of the stack gives in the next steps. -/
def given (height : Nat) : Nat → Machine → List Value
  | 0, _ => []
  | k + 1, m =>
    match m.event with
    | .takes x =>
      if m.iters.length = height then x :: given height k m.step else given height k m.step
    | _ => given height k m.step

/-- An active function holds an iterator, with those of `base` below it. -/
def Keeps (m : Machine) (it : Iter) (base : List Iter) : Prop :=
  ∃ pre a pending below inner outer, m.frames = pre ++ .func a pending :: below ∧
    a.iters = inner ++ it :: outer ∧ base = outer ++ below.flatMap Frame.iters

theorem Keeps.iters_eq {m : Machine} {it : Iter} {base : List Iter} (hk : m.Keeps it base) :
    ∃ above, m.iters = above ++ it :: base := by
  obtain ⟨pre, a, pending, below, inner, outer, hframes, hiters, rfl⟩ := hk
  refine ⟨pre.flatMap Frame.iters ++ inner, ?_⟩
  have hframe : Frame.iters (.func a pending) = inner ++ it :: outer := hiters
  rw [iters, hframes, List.flatMap_append, List.flatMap_cons, hframe]
  simp only [List.append_assoc, List.cons_append]

/-- What a step does to an iterator that a function keeps: it stays as it is, or it is the topmost
and gives an element. -/
inductive Attends (m m' : Machine) (it : Iter) (base : List Iter) : Prop where
  | stays (hk : m'.Keeps it base) (htakes : ∀ x, m.event = .takes x →
      m.iters.length ≠ base.length + 1)
  | gives {x : Value} {it' : Iter} (hk : m'.Keeps it' base) (hevent : m.event = .takes x)
      (htop : m.iters.length = base.length + 1) (hn : m.heap.nextElem? it = some (x, it'))
      (hheap : m'.heap = m.heap)

/-- Nothing is taken from iterators. -/
theorem Attends.of_quiet {m m' : Machine} {it : Iter} {base : List Iter} (hk : m'.Keeps it base)
    (hevent : m.event = .quiet) : m.Attends m' it base :=
  .stays hk fun x hx => by rw [hevent] at hx; cases hx

theorem Keeps.attends {m : Machine} {it : Iter} {base : List Iter} (hk : m.Keeps it base)
    (hopen : base.length < m.step.iters.length) : m.Attends m.step it base := by
  have hnext := m.next_step
  obtain ⟨pre, a, pending, below, inner, outer, hframes, hiters, rfl⟩ := hk
  -- frames above that of the function make no difference
  have hunder : ∀ {m' : Machine} (pre' : List Frame), m'.frames = pre' ++ .func a pending :: below →
      m'.Keeps it (outer ++ below.flatMap Frame.iters) :=
    fun pre' h => ⟨pre', a, pending, below, inner, outer, h, hiters, rfl⟩
  generalize m.step = m' at hnext hopen ⊢
  cases hnext with
  | halt _ _ hevent => exact .of_quiet (hunder pre hframes) hevent
  | @leave frame callers h r htop _ _ hevent =>
    cases pre with
    | nil =>
      -- the function itself would have ended
      cases htop.symm.trans hframes
      simp only [iters, List.length_append] at hopen
      omega
    | cons top pre =>
      cases htop.symm.trans hframes
      exact .of_quiet (hunder pre rfl) hevent
  | @resume a' b pending₁ pending' callers h c htop _ hs =>
    cases pre with
    | nil =>
      cases htop.symm.trans hframes
      have hlt : outer.length < b.iters.length := by
        rw [iters, List.flatMap_cons, List.length_append, List.length_append] at hopen
        exact Nat.lt_of_add_lt_add_right hopen
      rcases hs.keeps hiters hlt with ⟨above, hb, hne⟩ | ⟨x, it', hevent, rfl, hb, hn, hheap⟩
      · refine .stays ⟨[], b, pending', below, above, outer, rfl, hb, rfl⟩ fun x hx => ?_
        have hinner := List.length_pos_iff.2 (hne x hx)
        have hframe : Frame.iters (.func a pending) = inner ++ it :: outer := hiters
        rw [iters, hframes, List.nil_append, List.flatMap_cons, hframe]
        simp only [List.length_append, List.length_cons]
        omega
      · refine .gives ⟨[], b, pending', below, [], outer, rfl, hb, rfl⟩ hevent ?_ hn hheap
        have hframe : Frame.iters (.func a pending) = it :: outer := hiters
        rw [iters, hframes, List.nil_append, List.flatMap_cons, hframe]
        simp only [List.length_append, List.length_cons]
        omega
    | cons top pre =>
      cases htop.symm.trans hframes
      refine .stays (hunder (.func b pending' :: pre) rfl) fun x hx => ?_
      rw [hx] at hs
      have htaken := List.length_pos_iff.2 hs.ne_nil_of_takes
      have hframe : Frame.iters (.func a pending) = inner ++ it :: outer := hiters
      rw [iters, hframes, List.cons_append, List.flatMap_cons, List.flatMap_append,
          List.flatMap_cons, hframe]
      simp only [Frame.iters, List.length_append, List.length_cons]
      omega
  | back hcontrol =>
    exact .of_quiet (hunder pre hframes) (event_of_invoke hcontrol)
  | @enter f args kwargs frame h c hcontrol =>
    exact .of_quiet (hunder (frame :: pre) (by rw [List.cons_append, ← hframes]))
      (event_of_invoke hcontrol)
  | @answer r run callers o htop hcontrol =>
    cases pre with
    | nil => cases htop.symm.trans hframes
    | cons top pre =>
      cases htop.symm.trans hframes
      exact .of_quiet (hunder (_ :: pre) rfl) (event_of_deliver hcontrol)
  | @turn r run run' callers h t c htop hcontrol =>
    cases pre with
    | nil => cases htop.symm.trans hframes
    | cons top pre =>
      cases htop.symm.trans hframes
      exact .of_quiet (hunder (_ :: pre) rfl) (event_of_host hcontrol)

theorem given_succ (height k : Nat) (m : Machine) :
    given height (k + 1) m = given height 1 m ++ given height k m.step := by
  simp only [given]
  split
  · split <;> rfl
  · rfl

/-- One step with an iterator that stays open. -/
theorem Keeps.step {m : Machine} {held base : List Iter} {it : Iter} (hb : m.Balanced held)
    (hk : m.Keeps it base) (hopen : base.length < m.step.iters.length) :
    ∃ it', m.step.Keeps it' base ∧
      m.heap.remaining it = given (base.length + 1) 1 m ++ m.step.heap.remaining it' := by
  obtain ⟨above, hiters⟩ := hk.iters_eq
  have hmem : it ∈ m.iters ++ held := by simp [hiters]
  -- the step leaves the iterator where it is or takes its next value
  cases hk.attends hopen with
  | stays hkeeps htakes =>
    refine ⟨it, hkeeps, ?_⟩
    have hnothing : given (base.length + 1) 1 m = [] := by
      simp only [given]
      split
      · rename_i x hevent
        rw [if_neg (htakes x hevent)]
      · rfl
    rw [hnothing, hb.spares.remaining hmem, List.nil_append]
  | @gives x it' hkeeps hevent htop hn hheap =>
    refine ⟨it', hkeeps, ?_⟩
    have hone : given (base.length + 1) 1 m = [x] := by
      simp only [given, hevent, if_pos htop]
    rw [hone, hheap]
    exact Heap.remaining_of_nextElem? hn

/-- What an iterator of an active function gives and what it has left are what it had at first. -/
theorem Keeps.run {m : Machine} {held base : List Iter} {it : Iter} (hb : m.Balanced held)
    (hk : m.Keeps it base) {k : Nat} (hopen : ∀ j ≤ k, base.length <
    (Machine.run j m).iters.length) :
    ∃ it', (Machine.run k m).Keeps it' base ∧
      m.heap.remaining it = given (base.length + 1) k m ++
          (Machine.run k m).heap.remaining it' := by
  induction k generalizing m it with
  | zero => exact ⟨it, hk, rfl⟩
  | succ k ih =>
    have hstep : ∀ j ≤ k, base.length < (Machine.run j m.step).iters.length := by
      intro j hj
      rw [← run_succ]
      exact hopen (j + 1) (Nat.succ_le_succ hj)
    obtain ⟨it', hk', heq⟩ := hk.step hb (hstep 0 (Nat.zero_le k))
    obtain ⟨it'', hk'', heq'⟩ := ih (balanced_step hb) hk' hstep
    refine ⟨it'', by rwa [run_succ], ?_⟩
    rw [heq, heq', given_succ _ k, List.append_assoc, run_succ]

/-- The function that opens an iterator keeps it. -/
theorem of_event_opens {m : Machine} {v : Value} (he : m.event = .opens v) :
    ∃ it, m.heap.openIter v = (some it, m.step.heap) ∧ m.step.Keeps it m.iters := by
  have hnext := m.next_step
  have hne : m.event ≠ .quiet := by rw [he]; exact nofun
  generalize m.step = m' at hnext ⊢
  -- only a frame that goes on can have opened an iterator
  cases hnext with
  | @resume a b _ pending' callers h c hframes hfunc hs =>
    rw [he] at hs
    generalize hbefore : a.iters = live at hs
    generalize hafter : b.iters = live' at hs
    cases hs with
    | push live ho =>
      refine ⟨_, ho, [], b, pending', callers, [], live, rfl, hafter, ?_⟩
      rw [iters, hframes, List.flatMap_cons, Frame.iters, hbefore]
  | halt _ _ hevent => exact absurd hevent hne
  | leave _ _ _ hevent => exact absurd hevent hne
  | back hcontrol => exact absurd (event_of_invoke hcontrol) hne
  | enter hcontrol => exact absurd (event_of_invoke hcontrol) hne
  | answer _ hcontrol => exact absurd (event_of_deliver hcontrol) hne
  | turn _ hcontrol => exact absurd (event_of_host hcontrol) hne

end Machine

/-! ## The result -/

namespace Session

/-- Guarded objects keep their contents and iteration is stable, in every session that can come
about. Whatever happens spares what is frozen or iterated. An iterator that is opened, by whomever,
gives the elements that were there at that moment in their order and then ends, whatever happens
meanwhile; and so does an iterator of a running function, for as long as it is open. -/
theorem iteration_stable {P : HostPolicy} {s : Session} (hs : s.Reachable P) :
    (∀ s', Step P s s' → s.machine.heap.Spares s.live s'.machine.heap) ∧
    (∀ v it h, s.machine.heap.openIter v = (some it, h) →
      ∃ elems, s.machine.heap.elements? v = some elems ∧
        ∀ given s' it', Iterates P ⟨{ s.machine with heap := h }, s.held⟩ it given s' it' →
          s'.machine.heap.IsAt it' elems given) ∧
    (∀ v, s.machine.event = .opens v →
      ∃ elems, s.machine.heap.elements? v = some elems ∧
        ∀ k, (∀ j ≤ k, s.machine.iters.length < (Machine.run j s.machine.step).iters.length) →
          ∃ above it, (Machine.run k s.machine.step).iters = above ++ it :: s.machine.iters ∧
            (Machine.run k s.machine.step).heap.IsAt it elems
              (s.machine.step.given (s.machine.iters.length + 1) k)) := by
  have hb := hs.balanced
  refine ⟨fun s' hstep => hb.spares hstep, fun v it h ho => ?_, fun v he => ?_⟩
  · refine ⟨h.remaining it, Heap.remaining_openIter ho, fun given s' it' hi => ?_⟩
    -- the host's iterator is one of the live ones while it is held
    have hopened : (besides ⟨{ s.machine with heap := h }, s.held⟩ it).Balanced := by
      refine ⟨hb.poised, ?_⟩
      have hc := (hb.counts.openIter ho).perm (List.perm_append_singleton it _).symm
      rwa [live, List.append_assoc] at hc
    have heq := (hi.remaining hopened).2
    dsimp only at heq
    rw [heq]
    exact Heap.isAt_append _ it' given
  -- the machine's own stays in its frame until that is left
  · obtain ⟨it, ho, hkeeps⟩ := Machine.of_event_opens he
    refine ⟨s.machine.step.heap.remaining it, Heap.remaining_openIter ho, fun k hk => ?_⟩
    obtain ⟨it', hkeeps', heq⟩ := hkeeps.run (Machine.balanced_step hb.counts) hk
    obtain ⟨above, hiters⟩ := hkeeps'.iters_eq
    refine ⟨above, it', hiters, ?_⟩
    rw [heq]
    exact Heap.isAt_append _ it' _

/-- A list that is appended to between its two elements: the append is refused, and the second
element is the last. -/
theorem iteration_stable_append :
    let h := (Operation.newList [.int 1, .int 2]).after Heap.initial
    let h' := (Operation.append ⟨0⟩ .null).after (h.openIter (.list ⟨0⟩)).2
    h'.IsAt (.list ⟨0⟩ 2) [.int 1, .int 2] [.int 1, .int 2] := by
  intro h h'
  let session (h : Heap) : Session := ⟨{ initial.machine with heap := h }, []⟩
  have hmade : (session h).Reachable .free :=
    ReflTransGen.single (.act rfl trivial (.operate (.newList [.int 1, .int 2]) _ []))
  obtain ⟨elems, helems, hat⟩ :=
    (iteration_stable hmade).2.1 (.list ⟨0⟩) (.list ⟨0⟩ 0) (h.openIter (.list ⟨0⟩)).2 rfl
  cases helems
  have hfirst : Iterates .free (session (h.openIter (.list ⟨0⟩)).2) (.list ⟨0⟩ 0) [.int 1]
      (session (h.openIter (.list ⟨0⟩)).2) (.list ⟨0⟩ 1) := .next .start rfl
  have happend : Step .free (session (h.openIter (.list ⟨0⟩)).2) (session h') :=
    .act rfl trivial (.operate (.append ⟨0⟩ .null) _ [])
  exact hat _ (session h') _ ((hfirst.step happend).next rfl)

end Session

end Starlark
