import TsKvstore.IndexIntegrity
import TsKvstore.Interleavings

/-!
# Iterators are snapshots

An iterator is advanced step by step, and other clients act between the steps. It holds a
read guard all the time, so it yields what it would yield if nothing happened in between:
the items of the storage at its creation. Through an index of a store whose indexes are
sound, these are the rows that lookups find.
-/

namespace TsKvstore

open FiniteMaps Machines RwLocks

variable {S : Schema} {G : Singletons} {ρ : Type} {debug : Bool} {t : S.Name}

section

variable {ι : Type} [DecidableEq ι] {clients : ι → Client S G ρ} {s : LockedStorage S G}
  {refuse : Config (storeActions S G ρ debug) ι (Option ℕ) → ι → Bool}
  {events events' : List (ι × Event (storeActions S G ρ debug) (Option ℕ))}
  {c c₁ c' : Config (storeActions S G ρ debug) ι (Option ℕ)}

/-- The creation of an iterator leaves the state and the guards as they are. -/
theorem newIter_step {i : ι} {h : Option ℕ} {it : IterCall S} {cursor : Cursor it.Bucket}
    (hstep : Step refuse c i (.exec h (.newIter it) cursor) c₁) :
    cursor = it.new c.state.storage ∧ c₁.state = c.state ∧ c₁.guards = c.guards := by
  cases hstep with
  | exec _ _ _ => exact ⟨rfl, rfl, rfl⟩

/-- Until the iterator is dropped, the state does not change and all results are of it. -/
theorem results_of_newIter (hrun : Run refuse (startClients debug clients s) events c) {i : ι}
    {h : Option ℕ} (hguard : ⟨i, h, .read⟩ ∈ c.guards) {it : IterCall S}
    {cursor : Cursor it.Bucket} (hstep : Step refuse c i (.exec h (.newIter it) cursor) c₁)
    (hrun' : Run refuse c₁ events' c') (hkept : (i, .release h) ∉ events') :
    c'.state = c.state ∧
      ∀ step ∈ executed events', (StoreAct.exec debug step.1 c.state).1 = step.2 := by
  obtain ⟨_, hstate, hguards⟩ := newIter_step hstep
  obtain ⟨held, hc⟩ := (hrun.step hstep).guardedBy (.initial s _)
  obtain ⟨_, hread, _⟩ := hrun'.isolated hc (g := ⟨i, h, .read⟩) (hguards ▸ hguard) hkept
  have hisolated := hread rfl
  rw [hstate] at hisolated
  exact hisolated

/-- **Iterators are snapshots.** Whatever clients do while an iterator is alive, it yields
the items of the storage at its creation, in their order, and none is left when it ends. -/
theorem iterators_are_snapshots (hrun : Run refuse (startClients debug clients s) events c)
    {i : ι} {h : Option ℕ} (hguard : ⟨i, h, .read⟩ ∈ c.guards) {it : IterCall S}
    {cursor : Cursor it.Bucket} (hstep : Step refuse c i (.exec h (.newIter it) cursor) c₁)
    (hrun' : Run refuse c₁ events' c') (hkept : (i, .release h) ∉ events')
    {steps : List (Σ a : StoreAct S G ρ, a.Ret)} {items : List it.Item} {ended : Bool}
    (hsteps : steps.Sublist (executed events')) (hiterated : Iterated it cursor steps items ended) :
    c'.state = c.state ∧ items <+: it.all c.state.storage ∧
      (ended = true → items = it.all c.state.storage) := by
  obtain ⟨hstate, hresults⟩ := results_of_newIter hrun hguard hstep hrun' hkept
  obtain ⟨rfl, _, _⟩ := newIter_step hstep
  exact ⟨hstate,
    hiterated.items_of_results fun step hmem => hresults step (hsteps.subset hmem)⟩

/-- **Iterators over an index are complete.** Closures of all clients may unwind, but not in
what a thread does while it is panicking, and the clients let a panic leave its transaction.
No client writes an index table through the table's own handle. While an iterator over an
index is alive, it presents rows that lookups in the index find, each once and under its
indexed field, and no such row is left when it ends. -/
theorem index_iterators_are_complete (hclients : ∀ i, (clients i).LetsUnwind)
    (hs : s.poisoned = true ∨ s.storage.Sound)
    (hrun : Run refuse (startClients debug clients s) events c) {i : ι} {h : Option ℕ}
    (hguard : ⟨i, h, .read⟩ ∈ c.guards) {j : S.Field t}
    {order : IterOrder (S.FieldTy t j) (S.Key t)} {cursor : Cursor (S.FieldTy t j)}
    (hstep : Step refuse c i (.exec h (.newIter (.tableBy t j .keysAndValues order)) cursor) c₁)
    (hrun' : Run refuse c₁ events' c') (hkept : (i, .release h) ∉ events')
    {steps : List (Σ a : StoreAct S G ρ, a.Ret)} {items : List (S.FieldTy t j × S.Value t)}
    {ended : Bool} (hsteps : steps.Sublist (executed events'))
    (hiterated : Iterated (.tableBy t j .keysAndValues order) cursor steps items ended) :
    let base := c'.state.storage.tables t
    (items.map Prod.fst).Nodup ∧
      (∀ q v, (q, v) ∈ items → IndexedOps.get j base q = some v ∧ S.field j v = q) ∧
      (ended = true → ∀ q v, IndexedOps.get j base q = some v → (q, v) ∈ items) := by
  intro base
  obtain ⟨hstate, hresults⟩ := results_of_newIter hrun hguard hstep hrun' hkept
  obtain ⟨held, hc⟩ := startClients_keeps (fun i => (hclients i).protects.keeps) hs hrun
  have hsound : c.state.storage.Sound := (hc.pre_of_exec hstep rfl).2
  obtain ⟨rfl, _, _⟩ := newIter_step hstep
  obtain ⟨hbegins, hall⟩ :=
    hiterated.items_of_results fun step hmem => hresults step (hsteps.subset hmem)
  have hbase : base = c.state.storage.tables t :=
    congrArg (fun s : LockedStorage S G => s.storage.tables t) hstate
  have hagrees : IterationAgrees ρ j order base := by
    rw [hbase]
    exact iterationAgrees_of_sound (hsound t j) order
  have hcollect : (IterCall.new c.state.storage (.tableBy t j .keysAndValues order)).collect
      (IterCall.item c.state.storage (.tableBy t j .keysAndValues order)) =
        IndexedOps.iterCloned j order base := by
    rw [hbase]
    rfl
  rw [hcollect] at hbegins hall
  refine ⟨?_, fun q v hmem => ?_, fun hended q v hget => ?_⟩
  · have hnodup := hagrees.nodup
    rw [hagrees.keys] at hnodup
    exact hnodup.sublist (hbegins.map Prod.fst).sublist
  · have hpresented := hbegins.subset hmem
    exact ⟨(hagrees.mem_iff q v).mp hpresented, hagrees.field q v hpresented⟩
  · rw [hall hended]
    exact (hagrees.mem_iff q v).mpr hget

end

/-! ## An iterator and an insertion -/

/-- A client that advances an iterator twice. -/
def iterateTwice (it : IterCall people) : Client people noSingletons Unit :=
  .newIter 0 it <| .unlessPanic fun cursor =>
    .nextItem 0 it cursor fun _ cursor => .nextItem 0 it cursor fun _ _ => .dropIter 0 .done

/-- One client advances its iterator while the other one inserts a second person. -/
def iterateWhileInserting (it : IterCall people) (i : Bool) : Client people noSingletons Unit :=
  if i then
    .raw false ⟨"p", .table People (.insert (2 : UInt32) (People.person "b@example.com" [98]))⟩
      fun _ => .done
  else iterateTwice it

/-- Before the creation of the iterator. -/
def beforeIteration (it : IterCall people) :=
  runSchedule (fun _ _ => false) [false, false, false]
    (startClients true (iterateWhileInserting it) ⟨false, ownedPeople⟩)

/-- The iterator has been created. -/
def iteratorCreated (it : IterCall people) :=
  runSchedule (fun _ _ => false) [false] (beforeIteration it).2

/-- The insertion is requested between the two steps of the iterator. -/
def stepwiseRun (it : IterCall people) :=
  runSchedule (fun _ _ => false) [false, true, false] (iteratorCreated it).2

/-- The iterator stays alive. -/
theorem stepwiseRun_kept (it : IterCall people) :
    (false, Event.release (some 0)) ∉ (stepwiseRun it).1 := by
  intro h
  rcases List.mem_cons.mp h with h | h
  · cases h
  rcases List.mem_cons.mp h with h | h
  · cases h
  · cases List.mem_singleton.mp h

/-- The steps of the iterator, each at the cursor that the step before has left. -/
theorem executed_stepwiseRun (it : IterCall people) :
    let first := it.next ownedPeople (it.new ownedPeople)
    executed (stepwiseRun it).1 =
      [⟨.nextItem it (it.new ownedPeople), first⟩,
        ⟨.nextItem it first.2, it.next ownedPeople first.2⟩] := rfl

/-- The iterator over the keys. -/
noncomputable def peopleKeys : IterCall people := .table People .keys .arbitrary

/-- The iterator starts before the only person. -/
theorem peopleKeys_new : peopleKeys.new ownedPeople = ⟨[(1 : UInt32)]⟩ := by
  have hrow : Enumerates [((1 : UInt32), People.person "a@example.com" [97])]
      (ownedPeople.tables People).data := (enumerates_empty_iff.mpr rfl).insert rfl _
  have hperm := (IterOrder.arbitrary.enumerates (ownedPeople.tables People).data).perm hrow
  exact congrArg (fun l => Cursor.mk (l.map Prod.fst)) (List.perm_singleton.mp hperm)

/-- The iterator yields the one person of its start, and ends. -/
theorem stepwiseRun_snapshot :
    (stepwiseRun peopleKeys).2.state = (beforeIteration peopleKeys).2.state ∧
      [(1 : UInt32)] <+: peopleKeys.all ownedPeople ∧
      (true = true → [(1 : UInt32)] = peopleKeys.all ownedPeople) := by
  have hiterated : Iterated peopleKeys (peopleKeys.new ownedPeople)
      (executed (stepwiseRun peopleKeys).1) [(1 : UInt32)] true := by
    rw [executed_stepwiseRun, peopleKeys_new]
    exact .item _ _ _ (.ended _ _)
  exact iterators_are_snapshots (run_runSchedule _ _ _) (c := (beforeIteration peopleKeys).2)
    (i := false) (h := some 0) List.mem_cons_self (step_of_fire rfl) (run_runSchedule _ _ _)
    (stepwiseRun_kept peopleKeys) (List.Sublist.refl _) hiterated

/-- The iterator over the index on the first field. -/
noncomputable def peopleByEmail : IterCall people :=
  .tableBy People People.email .keysAndValues .arbitrary

/-- The iterator over the index starts before the only entry. -/
theorem peopleByEmail_new : peopleByEmail.new ownedPeople = ⟨["a@example.com"]⟩ := by
  have hentry : Enumerates [("a@example.com", (1 : UInt32))]
      ((ownedPeople.tables People).indexes.get People.email).data :=
    (enumerates_empty_iff.mpr rfl).insert rfl _
  have hperm := (IterOrder.arbitrary.enumerates
    ((ownedPeople.tables People).indexes.get People.email).data).perm hentry
  exact congrArg (fun l => Cursor.mk (l.map Prod.fst)) (List.perm_singleton.mp hperm)

/-- Neither client writes an index table or unwinds. -/
theorem iterateWhileInserting_letsUnwind (it : IterCall people) (i : Bool) :
    (iterateWhileInserting it i).LetsUnwind := by
  cases i with
  | false =>
    intro result
    cases result with
    | error panic => trivial
    | ok cursor => exact fun _ _ _ _ => trivial
  | true => exact ⟨id, nofun, fun _ => trivial⟩

/-- The indexes of the people are sound. -/
theorem ownedPeople_sound : ownedPeople.Sound :=
  Request.exec_sound (r := ⟨"p", .table People (.insert (1 : UInt32) _)⟩) ⟨trivial, id⟩
    Storage.new_sound

/-- The iterator yields the one person that lookups find. -/
theorem stepwiseRun_complete :
    let base := (stepwiseRun peopleByEmail).2.state.storage.tables People
    let items := [("a@example.com", People.person "a@example.com" [97])]
    (items.map Prod.fst).Nodup ∧
      (∀ q v, (q, v) ∈ items → IndexedOps.get People.email base q = some v ∧
        people.field People.email v = q) ∧
      (true = true → ∀ q v, IndexedOps.get People.email base q = some v → (q, v) ∈ items) := by
  have hiterated : Iterated peopleByEmail (peopleByEmail.new ownedPeople)
      (executed (stepwiseRun peopleByEmail).1)
      [("a@example.com", People.person "a@example.com" [97])] true := by
    rw [executed_stepwiseRun, peopleByEmail_new]
    exact .item _ _ _ (.ended _ _)
  exact index_iterators_are_complete (iterateWhileInserting_letsUnwind peopleByEmail)
    (s := ⟨false, ownedPeople⟩) (Or.inr ownedPeople_sound) (run_runSchedule _ _ _)
    (c := (beforeIteration peopleByEmail).2) (i := false) (h := some 0) List.mem_cons_self
    (step_of_fire rfl) (run_runSchedule _ _ _) (stepwiseRun_kept peopleByEmail)
    (List.Sublist.refl _) hiterated

end TsKvstore
