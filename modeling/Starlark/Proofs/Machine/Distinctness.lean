import Starlark.Proofs.Machine.Permanence
import Starlark.Proofs.Operation.Equivalence

/-!
# Keys stay apart

A dict gets a new key only when a key is inserted that can be one and that is equal to none of its
keys. So every dict is a map, whatever is done, step by step, from a heap without dicts on
(`Heap.hasMaps_of_works`), and whatever happens in a session (`Session.Reachable.hasMaps`). The laws
of equality and of order ask of a heap only that no dict has two equal keys
(`Heap.distinctKeys_of_works`).
-/

set_option autoImplicit false

namespace Starlark

open Relation (ReflTransGen)

namespace Heap

variable {h h' : Heap}

theorem HasMaps.distinctKeys (hm : h.HasMaps) : h.DistinctKeys := fun r => (hm r).distinct

theorem hasMaps_of_no_dicts (hdicts : h.dicts = #[]) : h.HasMaps := by
  intro r
  apply DictObj.IsMap.of_entries_empty
  rw [dict, hdicts]
  rfl

namespace HasMaps

/-! ## Running machines -/

theorem freeze (hm : h.HasMaps) (v : Value) : (h.freeze v).HasMaps :=
  Heap.rel_freeze (K := fun h h' => h.HasMaps → h'.HasMaps) (fun _ => id)
    (fun h1 h2 hm => h2 (h1 hm)) (fun _ n hm => hm.freezeNode n) h v hm

theorem freezeModule (hm : h.HasMaps) (r : ModuleRef) : (h.freezeModule r).HasMaps :=
  Heap.rel_freezeModule (K := fun h h' => h.HasMaps → h'.HasMaps) (fun _ => id)
    (fun h1 h2 hm => h2 (h1 hm)) (fun _ n hm => hm.freezeNode n) h r hm

theorem closeAll (hm : h.HasMaps) (its : List Iter) : (its.foldl Heap.closeIter h).HasMaps := by
  induction its generalizing h with
  | nil => exact hm
  | cons it its ih => exact ih (hm.closeIter it)

variable {New : FuncObj → Prop}

theorem of_alters (hm : h.HasMaps) (ha : h.Alters New h') : h'.HasMaps := by
  cases ha with
  | change hc => exact hm.of_change hc
  | freezeNode n => exact hm.freezeNode n
  | _ => exact hm.of_dicts rfl

theorem of_altered (hm : h.HasMaps) (ha : h.Altered New h') : h'.HasMaps := by
  induction ha with
  | refl => exact hm
  | tail _ hlast ih => exact ih.of_alters hlast

theorem of_shift (hm : h.HasMaps) {live live' : List Iter} {event : Iter.Event}
    (hs : h.Shift New live event h' live') : h'.HasMaps := by
  cases hs with
  | close done rest ha => exact (hm.of_altered ha).closeAll done
  | push live ho => exact hm.openIter ho
  | advance live hn => exact hm

/-! ## Hosts -/

theorem performs (hm : h.HasMaps) {a : HostAct} {held held' : List Iter}
    (hp : a.Performs (h, held) (h', held')) : h'.HasMaps := by
  cases hp with
  | idle => exact hm
  | operate o => exact hm.of_evolves (Operation.evolves_after _ h)
  | freeze v => exact hm.freeze _
  | freezeModule r => exact hm.freezeModule _
  | openIter _ ho => exact hm.openIter ho
  | advance => exact hm
  | close => exact hm.closeIter _
  | _ => exact hm.of_dicts rfl

end HasMaps

/-! ## Work on a heap -/

theorem Works.hasMaps (hw : h.Works h') (hm : h.HasMaps) : h'.HasMaps := by
  cases hw with
  | openIter v => exact hm.openIter rfl
  | closeIter it => exact hm.closeIter it
  | freeze hv => exact hm.freeze _
  | newDict => exact hm.newDict
  | setCell r hv => exact hm.of_dicts rfl
  | newList helems => exact hm.of_dicts rfl
  | newCell hv => exact hm.of_dicts rfl
  | newFunc hf => exact hm.of_dicts rfl
  | newBuiltin op hv => exact hm.of_dicts rfl
  | _ => exact hm.of_evolves (Operation.evolves_after _ h)

/-- On every heap that comes about from one without dicts every dict is a map. -/
theorem hasMaps_of_works (hdicts : h.dicts = #[]) (hrun : ReflTransGen Works h h') :
    h'.HasMaps := by
  induction hrun with
  | refl => exact hasMaps_of_no_dicts hdicts
  | tail _ hw ih => exact hw.hasMaps ih

/-- On every heap that comes about from one without dicts no dict has two equal keys. -/
theorem distinctKeys_of_works (hdicts : h.dicts = #[]) (hrun : ReflTransGen Works h h') :
    h'.DistinctKeys :=
  (hasMaps_of_works hdicts hrun).distinctKeys

end Heap

/-! ## Sessions -/

namespace Session

variable {P : HostPolicy}

/-- What happens in a session leaves every dict a map. -/
theorem Step.hasMaps {s s' : Session} (hs : Step P s s') (hm : s.machine.heap.HasMaps) :
    s'.machine.heap.HasMaps := by
  cases hs with
  | act _ _ hp => exact hm.performs hp
  | call => exact hm
  | run m held =>
    have hhappens := m.happens_step
    dsimp only at hm ⊢
    generalize m.step.heap = h, m.step.iters = live at hhappens ⊢
    cases hhappens with
    | shift hs => exact hm.of_shift hs
    | act _ _ hp => exact hm.performs hp

/-- In every session that can come about every dict is a map. -/
theorem Reachable.hasMaps {s : Session} (hs : s.Reachable P) : s.machine.heap.HasMaps := by
  induction hs with
  | refl => exact Heap.hasMaps_of_no_dicts rfl
  | tail _ hstep ih => exact hstep.hasMaps ih

end Session

end Starlark
