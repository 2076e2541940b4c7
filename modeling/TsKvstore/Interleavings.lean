import TsKvstore.Poisoning
import TsKvstore.Refinement

/-!
# The requests of concurrent clients

Whatever clients share a store, the requests that are executed in a run, in the order
of their execution, are a sequential run with the same results. So the clients together
use a table as the reference model says. An action depends on the table or the singleton
it is made on and changes nothing else. So clients that use different data get the
results that they get alone.
-/

namespace TsKvstore

open FiniteMaps Machines RwLocks

variable {S : Schema} {G : Singletons} {ρ : Type} {debug : Bool}

/-! ## The requests of a run -/

/-- The request of an action with its result. -/
def StoreAct.request? (step : Σ a : StoreAct S G ρ, a.Ret) :
    Option (Σ r : Request S G ρ, Except Panic r.call.Ret) :=
  match step with
  | ⟨.request r, result⟩ => some ⟨r, result⟩
  | ⟨.isPoisoned, _⟩ | ⟨.poison, _⟩ | ⟨.newIter _, _⟩ | ⟨.nextItem _ _, _⟩ => none

/-- The requests of a run with their results, in the order in which they are executed. -/
def requestsOf {ι : Type} (events : List (ι × Event (storeActions S G ρ debug) (Option ℕ))) :
    List (Σ r : Request S G ρ, Except Panic r.call.Ret) :=
  (executed events).filterMap StoreAct.request?

/-- Executing the listed requests gives the listed results and the last storage. -/
def Leads (debug : Bool) (s : Storage S G)
    (steps : List (Σ r : Request S G ρ, Except Panic r.call.Ret)) (s' : Storage S G) : Prop :=
  results (Request.exec debug) (steps.map Sigma.fst) s = steps ∧
    stateAfter (Request.exec debug) (steps.map Sigma.fst) s = s'

/-- Without requests the storage stays. -/
theorem leads_nil (s : Storage S G) : Leads (ρ := ρ) debug s [] s := ⟨rfl, rfl⟩

/-- Requests are executed one after the other. -/
theorem leads_cons {s s' : Storage S G} {r : Request S G ρ} {result : Except Panic r.call.Ret}
    {steps : List (Σ r : Request S G ρ, Except Panic r.call.Ret)} :
    Leads debug s (⟨r, result⟩ :: steps) s' ↔
      (r.exec debug s).1 = result ∧ Leads debug (r.exec debug s).2 steps s' := by
  unfold Leads
  simp only [List.map_cons, results, stateAfter_cons, List.cons.injEq, Sigma.mk.injEq, heq_eq_eq,
    true_and, and_assoc]

/-- The other actions leave the storage as it is. -/
theorem leads_of_replays {s s' : LockedStorage S G}
    {steps : List (Σ a, (storeActions S G ρ debug).Ret a)} (h : Replays s steps s') :
    Leads debug s.storage (steps.filterMap StoreAct.request?) s'.storage := by
  induction steps generalizing s with
  | nil =>
    obtain rfl : s = s' := h.2
    exact leads_nil s.storage
  | cons step steps ih =>
    obtain ⟨a, result⟩ := step
    obtain ⟨hresult, hrest⟩ := replays_cons.mp h
    cases a with
    | request r => exact leads_cons.mpr ⟨hresult, ih hrest⟩
    | isPoisoned => exact ih hrest
    | poison => exact ih (s := { s with poisoned := true }) hrest
    | newIter it => exact ih hrest
    | nextItem it cursor => exact ih hrest

/-- The requests of a run are a sequential run. -/
theorem leads_requestsOf {ι : Type} [DecidableEq ι]
    {refuse : Config (storeActions S G ρ debug) ι (Option ℕ) → ι → Bool}
    {c c' : Config (storeActions S G ρ debug) ι (Option ℕ)}
    {events : List (ι × Event (storeActions S G ρ debug) (Option ℕ))}
    (hrun : Run refuse c events c') :
    Leads debug c.state.storage (requestsOf events) c'.state.storage :=
  leads_of_replays hrun.replays

/-! ## Tables and singletons are independent -/

/-- A table with its indexes, or a singleton. -/
inductive Datum (S : Schema) (G : Singletons) where
  | table (t : S.Name)
  | singleton (m : G.Marker)

/-- What a call is made on. -/
def StoreCall.datum : StoreCall S G ρ → Datum S G
  | table t _ => .table t
  | tableBy t _ _ => .table t
  | indexTable t _ _ => .table t
  | singleton m _ => .singleton m

/-- What an iterator goes over. -/
def IterCall.datum : IterCall S → Datum S G
  | table t _ _ => .table t
  | tableBy t _ _ _ => .table t
  | indexTable t _ _ _ => .table t

/-- What an action uses of the storage. -/
def StoreAct.datum? : StoreAct S G ρ → Option (Datum S G)
  | isPoisoned | poison => none
  | request r => some r.call.datum
  | newIter it | nextItem it _ => some it.datum

/-- Two storages hold the same in a table or a singleton. -/
def Storage.AgreeOn (s s' : Storage S G) : Datum S G → Prop
  | .table t => s.tables t = s'.tables t
  | .singleton m => s.singletons.lookup (G.typeId m) = s'.singletons.lookup (G.typeId m)

section

variable {m : G.Marker} {singletons singletons' : SingletonMap G}

/-- The ownership comparison looks at the entry of the marker only. -/
theorem SingletonMap.assertOwner_congr
    (hentry : singletons.lookup (G.typeId m) = singletons'.lookup (G.typeId m)) (owner : Owner) :
    singletons.assertOwner debug owner (G.typeId m) =
      singletons'.assertOwner debug owner (G.typeId m) := by
  unfold SingletonMap.assertOwner SingletonMap.getSingletonOwner
  rw [hentry]

/-- The value of a singleton depends on its entry only. -/
theorem SingletonMap.getSingletonValue_congr
    (hentry : singletons.lookup (G.typeId m) = singletons'.lookup (G.typeId m)) :
    singletons.getSingletonValue (G.typeId m) = singletons'.getSingletonValue (G.typeId m) := by
  unfold SingletonMap.getSingletonValue
  rw [hentry]

/-- A call on a singleton leaves the entries of the other markers alone. -/
theorem SingletonCall.exec_lookup_of_ne (owner : Owner) (c : SingletonCall G ρ m) {k : G.TypeId}
    (hk : k ≠ G.typeId m) :
    (c.exec debug owner singletons).2.lookup k = singletons.lookup k := by
  cases c with
  | get => rfl
  | getArc ty harc => rfl
  | with' f => rfl
  | insert value =>
    simp only [SingletonCall.exec, SingletonOpsMut.insert]
    split
    · rfl
    · exact Finmap.lookup_insert_of_ne _ hk
  | mutate hmut f =>
    simp only [SingletonCall.exec, SingletonOpsMut.mutate]
    repeat' split
    all_goals first | rfl | exact Finmap.lookup_insert_of_ne _ hk
  | remove =>
    simp only [SingletonCall.exec, SingletonOpsMut.remove]
    split
    · rfl
    · exact Finmap.lookup_erase_ne hk
  | clear =>
    simp only [SingletonCall.exec, SingletonOpsMut.clear]
    split
    · rfl
    · exact Finmap.lookup_insert_of_ne _ hk

/-- A call on a singleton depends on the entry of its marker only. -/
theorem SingletonCall.exec_congr
    (hentry : singletons.lookup (G.typeId m) = singletons'.lookup (G.typeId m)) (owner : Owner)
    (c : SingletonCall G ρ m) :
    (c.exec debug owner singletons).1 = (c.exec debug owner singletons').1 ∧
      (c.exec debug owner singletons).2.lookup (G.typeId m) =
        (c.exec debug owner singletons').2.lookup (G.typeId m) := by
  have hvalue := SingletonMap.getSingletonValue_congr hentry
  have hassert := @SingletonMap.assertOwner_congr G debug m _ _ hentry owner
  cases c with
  | get => exact ⟨congrArg (mapSingletonValue _) hvalue, hentry⟩
  | getArc ty harc => exact ⟨congrArg (mapSingletonValue _) hvalue, hentry⟩
  | with' f => exact ⟨congrArg (mapSingletonValue _) hvalue, hentry⟩
  | insert value =>
    simp only [SingletonCall.exec, SingletonOpsMut.insert]
    rw [hassert, hvalue]
    split
    · exact ⟨rfl, hentry⟩
    · exact ⟨rfl, by rw [Finmap.lookup_insert, Finmap.lookup_insert]⟩
  | mutate hmut f =>
    simp only [SingletonCall.exec, SingletonOpsMut.mutate]
    rw [hassert, hentry]
    repeat' split
    all_goals
      first
        | exact ⟨rfl, hentry⟩
        | exact ⟨rfl, by rw [Finmap.lookup_insert, Finmap.lookup_insert]⟩
  | remove =>
    simp only [SingletonCall.exec, SingletonOpsMut.remove]
    rw [hassert, hvalue]
    split
    · exact ⟨rfl, hentry⟩
    · exact ⟨rfl, by rw [Finmap.lookup_erase, Finmap.lookup_erase]⟩
  | clear =>
    simp only [SingletonCall.exec, SingletonOpsMut.clear]
    rw [hassert, hvalue]
    split
    · exact ⟨rfl, hentry⟩
    · exact ⟨rfl, by rw [Finmap.lookup_insert, Finmap.lookup_insert]⟩

end

section

variable {d : Datum S G}

/-- A storage agrees with itself. -/
theorem Storage.AgreeOn.refl (s : Storage S G) (d : Datum S G) : s.AgreeOn s d := by
  cases d <;> rfl

/-- Agreement of storages on a table or a singleton is symmetric. -/
theorem Storage.AgreeOn.symm {s s' : Storage S G} (h : s.AgreeOn s' d) : s'.AgreeOn s d := by
  cases d with
  | table t => exact Eq.symm h
  | singleton m => exact Eq.symm h

/-- Agreement of storages on a table or a singleton is transitive. -/
theorem Storage.AgreeOn.trans {s₁ s₂ s₃ : Storage S G} (h : s₁.AgreeOn s₂ d)
    (h' : s₂.AgreeOn s₃ d) : s₁.AgreeOn s₃ d := by
  cases d with
  | table t => exact Eq.trans h h'
  | singleton m => exact Eq.trans h h'

/-- A request changes nothing but what it is made on. -/
theorem Request.exec_agreeOn_of_ne (r : Request S G ρ) (s : Storage S G)
    (hd : r.call.datum ≠ d) : (r.exec debug s).2.AgreeOn s d := by
  obtain ⟨owner, call⟩ := r
  have htables : ∀ t (table : BaseTable S t), Datum.table t ≠ d →
      (s.setTable t table).AgreeOn s d := by
    intro t table ht
    cases d with
    | table t' =>
      have hne : t' ≠ t := fun heq => ht (congrArg Datum.table heq.symm)
      exact s.setTable_tables_of_ne table hne
    | singleton m => rfl
  cases call with
  | table t c => exact htables t _ hd
  | tableBy t i c => exact htables t _ hd
  | indexTable t i c => exact htables t _ hd
  | singleton m c =>
    cases d with
    | table t => rfl
    | singleton m' =>
      have hne : m' ≠ m := fun heq => hd (congrArg Datum.singleton heq.symm)
      exact c.exec_lookup_of_ne owner fun hkey => hne (G.typeId_injective hkey)

/-- A request depends on nothing but what it is made on. -/
theorem Request.exec_congr (r : Request S G ρ) {s s' : Storage S G}
    (hs : s.AgreeOn s' r.call.datum) :
    (r.exec debug s).1 = (r.exec debug s').1 ∧
      (r.exec debug s).2.AgreeOn (r.exec debug s').2 r.call.datum := by
  obtain ⟨owner, call⟩ := r
  cases call with
  | table t c =>
    have htable : s.tables t = s'.tables t := hs
    simp only [Request.exec, StoreCall.exec, StoreCall.datum, Storage.AgreeOn,
      Storage.setTable_tables_self]
    exact ⟨congrArg (fun table => (TabularOps.exec debug owner table c).1) htable,
      congrArg (fun table => (TabularOps.exec debug owner table c).2) htable⟩
  | tableBy t i c =>
    have htable : s.tables t = s'.tables t := hs
    simp only [Request.exec, StoreCall.exec, StoreCall.datum, Storage.AgreeOn,
      Storage.setTable_tables_self]
    exact ⟨congrArg (fun table => (IndexedOps.exec debug i owner table c).1) htable,
      congrArg (fun table => (IndexedOps.exec debug i owner table c).2) htable⟩
  | indexTable t i c =>
    have htable : s.tables t = s'.tables t := hs
    simp only [Request.exec, StoreCall.exec, StoreCall.datum, Storage.AgreeOn,
      Storage.setTable_tables_self]
    exact ⟨congrArg (fun table : BaseTable S t =>
        (TabularOps.exec debug owner (table.indexes.get i) c).1) htable,
      congrArg (fun table : BaseTable S t =>
        { table with
          indexes := table.indexes.set i
            (TabularOps.exec debug owner (table.indexes.get i) c).2 }) htable⟩
  | singleton m c => exact c.exec_congr hs owner

/-- An action changes nothing but what it uses. -/
theorem StoreAct.exec_agreeOn_of_ne (a : StoreAct S G ρ) (s : LockedStorage S G)
    (hd : a.datum? ≠ some d) : (a.exec debug s).2.storage.AgreeOn s.storage d := by
  cases a with
  | request r => exact r.exec_agreeOn_of_ne s.storage fun heq => hd (congrArg some heq)
  | _ => exact .refl s.storage d

/-- An action depends on nothing but what it uses. -/
theorem StoreAct.exec_congr {a : StoreAct S G ρ} (ha : a.datum? = some d)
    {s s' : LockedStorage S G} (hs : s.storage.AgreeOn s'.storage d) :
    (a.exec debug s).1 = (a.exec debug s').1 ∧
      (a.exec debug s).2.storage.AgreeOn (a.exec debug s').2.storage d := by
  cases a with
  | isPoisoned => cases ha
  | poison => cases ha
  | request r =>
    obtain rfl := Option.some.inj ha
    exact r.exec_congr hs
  | newIter it =>
    obtain rfl := Option.some.inj ha
    refine ⟨?_, hs⟩
    cases it with
    | table t kind order =>
      exact congrArg (fun table : BaseTable S t => Cursor.innerIter order table.data) hs
    | tableBy t i kind order =>
      exact congrArg (fun table : BaseTable S t =>
        Cursor.innerIter order (table.indexes.get i).data) hs
    | indexTable t i kind order =>
      exact congrArg (fun table : BaseTable S t =>
        Cursor.innerIter order (table.indexes.get i).data) hs
  | nextItem it cursor =>
    obtain rfl := Option.some.inj ha
    refine ⟨?_, hs⟩
    cases it with
    | table t kind order =>
      exact congrArg (fun table : BaseTable S t =>
        cursor.next (IterCall.tableItem table.data kind)) hs
    | tableBy t i kind order =>
      exact congrArg (fun table : BaseTable S t =>
        cursor.next (IterCall.indexItem (table.indexes.get i).data table.data kind)) hs
    | indexTable t i kind order =>
      exact congrArg (fun table : BaseTable S t =>
        cursor.next (IterCall.tableItem (table.indexes.get i).data kind)) hs

end

/-! ## What clients do -/

/-- Every action of the client on the storage has a property, whatever the owners of its
transactions are. -/
def Client.Performs (P : StoreAct S G ρ → Prop) : Client S G ρ → Prop
  | .done => True
  | .raw _ r next => P (.request r) ∧ ∀ result, (next result).Performs P
  | .newIter _ it next => P (.newIter it) ∧ ∀ result, (next result).Performs P
  | .nextItem _ it cursor next =>
    P (.nextItem it cursor) ∧ ∀ item cursor, (next item cursor).Performs P
  | .dropIter _ next => next.Performs P
  | .beginTransaction _ _ next => ∀ result, (next result).Performs P
  | .tryBeginTransaction _ _ next => ∀ result, (next result).Performs P
  | .call _ c next => (∀ owner, P (.request ⟨owner, c⟩)) ∧ ∀ result, (next result).Performs P
  | .endTransaction _ _ next => next.Performs P
  | .beginRoTransaction _ _ next => ∀ result, (next result).Performs P
  | .tryBeginRoTransaction _ _ next => ∀ result, (next result).Performs P
  | .readCall _ c _ next =>
    (∀ owner, P (.request ⟨owner, c⟩)) ∧ ∀ result, (next result).Performs P
  | .endRoTransaction _ next => next.Performs P

/-- An action that uses the storage has a property. -/
def StoreAct.UsesAs (P : StoreAct S G ρ → Prop) (a : StoreAct S G ρ) : Prop :=
  a.usesStorage = true → P a

section

variable {P : StoreAct S G ρ → Prop}

/-- This says nothing about the actions on the flag. -/
theorem StoreAct.usesAs_of_flag {a : StoreAct S G ρ} (huses : a.usesStorage = false) :
    a.UsesAs P := by
  intro h
  cases huses.symm.trans h

/-- The program of a client does what the client does. -/
theorem Client.Performs.acts {client : Client S G ρ} (hclient : client.Performs P)
    (owners : ℕ → Owner) : (client.prog debug owners).Acts (StoreAct.UsesAs P) := by
  have hflag : ∀ (h : Option ℕ) (a : StoreAct S G ρ) (_ : a.Ret → StoreProg S G ρ debug),
      a.usesStorage = false → a.UsesAs P := fun _ _ _ => StoreAct.usesAs_of_flag
  induction client generalizing owners with
  | done => trivial
  | raw panicking r next ih =>
    obtain ⟨hr, hnext⟩ := hclient
    have hrest := fun result => ih result (hnext result) owners
    refine always_unwrapGuard hflag (hrest _) ⟨fun _ => hr, fun result => ?_⟩
    exact always_releaseRaw hflag _ _ _ (hrest result)
  | newIter h it next ih =>
    obtain ⟨hit, hnext⟩ := hclient
    have hrest := fun result => ih result (hnext result) owners
    exact always_unwrapGuard hflag (hrest _) ⟨fun _ => hit, fun cursor => hrest (.ok cursor)⟩
  | nextItem h it cursor next ih =>
    obtain ⟨hit, hnext⟩ := hclient
    exact ⟨fun _ => hit, fun result => ih _ _ (hnext result.1 result.2) owners⟩
  | dropIter h next ih => exact ih hclient owners
  | beginTransaction h owner next ih =>
    exact always_unwrapGuard hflag (ih _ (hclient _) owners) (ih _ (hclient _) _)
  | tryBeginTransaction h owner next ih =>
    exact always_tryLock hflag (ih _ (hclient _) owners) (ih _ (hclient _) owners)
      (ih _ (hclient _) _)
  | call h c next ih =>
    obtain ⟨hc, hnext⟩ := hclient
    exact ⟨fun _ => hc (owners h), fun result => ih result (hnext result) owners⟩
  | endTransaction h unwinding next ih =>
    cases unwinding with
    | true => exact ⟨nofun, fun _ => ih hclient owners⟩
    | false => exact ih hclient owners
  | beginRoTransaction h owner next ih =>
    exact always_unwrapGuard hflag (ih _ (hclient _) owners) (ih _ (hclient _) _)
  | tryBeginRoTransaction h owner next ih =>
    exact always_tryLock hflag (ih _ (hclient _) owners) (ih _ (hclient _) owners)
      (ih _ (hclient _) _)
  | readCall h c hread next ih =>
    obtain ⟨hc, hnext⟩ := hclient
    exact ⟨fun _ => hc (owners h), fun result => ih result (hnext result) owners⟩
  | endRoTransaction h next ih => exact ih hclient owners

end

section

variable {ι : Type} [DecidableEq ι] {clients : ι → Client S G ρ} {s : LockedStorage S G}
  {refuse : Config (storeActions S G ρ debug) ι (Option ℕ) → ι → Bool}
  {events : List (ι × Event (storeActions S G ρ debug) (Option ℕ))}
  {c : Config (storeActions S G ρ debug) ι (Option ℕ)}

/-- What is executed on the storage is what the clients do. -/
theorem performs_of_run {P : ι → StoreAct S G ρ → Prop}
    (hclients : ∀ i, (clients i).Performs (P i))
    (hrun : Run refuse (startClients debug clients s) events c) :
    ∀ e ∈ events, ∀ step, e.2.action? = some step → StoreAct.UsesAs (P e.1) step.1 := by
  have hthreads : ∀ i, ((startClients debug clients s).threads i).Acts (StoreAct.UsesAs (P i)) :=
    fun i => (hclients i).acts fun _ => ""
  exact hrun.acts hthreads

/-! ## Clients of different data -/

/-- The actions of a client on the storage with their results. -/
def storageActsOf (i : ι) (events : List (ι × Event (storeActions S G ρ debug) (Option ℕ))) :
    List (Σ a, (storeActions S G ρ debug).Ret a) :=
  (executed (events.filter fun e => e.1 = i)).filter fun step => StoreAct.usesStorage step.1

/-- The action uses data of client `i`. -/
def StoreAct.isAt (home : Datum S G → ι) (i : ι) (a : StoreAct S G ρ) : Bool :=
  a.datum?.map home = some i

/-- The actions of a client are those on its tables and singletons. -/
theorem StoreAct.isAt_iff {home : Datum S G → ι} {i : ι} {a : StoreAct S G ρ} :
    a.isAt home i = true ↔ ∃ d, a.datum? = some d ∧ home d = i := by
  simp [StoreAct.isAt]

/-- The actions that use the storage are those on a table or a singleton. -/
theorem StoreAct.usesStorage_iff {a : StoreAct S G ρ} :
    a.usesStorage = true ↔ ∃ d, a.datum? = some d := by
  cases a <;> simp [StoreAct.usesStorage, StoreAct.datum?]

/-- If every client uses its own data only, the actions on the data of a client are its
own. -/
theorem filter_isAt_executed {home : Datum S G → ι}
    (hevents : ∀ e ∈ events, ∀ step, e.2.action? = some step →
      StoreAct.UsesAs (fun a => a.isAt home e.1 = true) step.1) (i : ι) :
    (executed events).filter (fun step => StoreAct.isAt home i step.1) =
      storageActsOf i events := by
  unfold storageActsOf executed
  rw [List.filter_filterMap, List.filter_filterMap, List.filterMap_filter]
  refine List.filterMap_congr fun e he => ?_
  cases haction : e.2.action? with
  | none => simp
  | some step =>
    have hhome := hevents e he step haction
    have hown : StoreAct.isAt home i step.1 = true ↔
        e.1 = i ∧ StoreAct.usesStorage step.1 = true := by
      constructor
      · intro hi
        obtain ⟨d, hd, rfl⟩ := StoreAct.isAt_iff.mp hi
        have huses := StoreAct.usesStorage_iff.mpr ⟨d, hd⟩
        obtain ⟨d', hd', hmine⟩ := StoreAct.isAt_iff.mp (hhome huses)
        cases hd.symm.trans hd'
        exact ⟨hmine.symm, huses⟩
      · rintro ⟨rfl, huses⟩
        exact hhome huses
    simp only [Option.filter_some, hown, decide_eq_true_eq, ite_and]

/-- Two storages hold the same in the data of client `i`. -/
def LockedStorage.AgreeAt (home : Datum S G → ι) (i : ι) (s s' : LockedStorage S G) : Prop :=
  ∀ d, home d = i → s.storage.AgreeOn s'.storage d

/-- An action on the data of client `i` depends on them only. -/
theorem StoreAct.exec_agreeAt {home : Datum S G → ι} {i : ι} {a : StoreAct S G ρ}
    (ha : a.isAt home i = true) {s s' : LockedStorage S G} (hs : s.AgreeAt home i s') :
    (a.exec debug s).1 = (a.exec debug s').1 ∧
      (a.exec debug s).2.AgreeAt home i (a.exec debug s').2 := by
  obtain ⟨d, hd, hhome⟩ := StoreAct.isAt_iff.mp ha
  refine ⟨(StoreAct.exec_congr hd (hs d hhome)).1, fun d' hd' => ?_⟩
  by_cases hsame : a.datum? = some d'
  · exact (StoreAct.exec_congr hsame (hs d' hd')).2
  · have hleft : (a.exec debug s).2.storage.AgreeOn s.storage d' := a.exec_agreeOn_of_ne s hsame
    have hright : (a.exec debug s').2.storage.AgreeOn s'.storage d' :=
      a.exec_agreeOn_of_ne s' hsame
    exact (hleft.trans (hs d' hd')).trans hright.symm

/-- An action on other data changes nothing in them. -/
theorem StoreAct.exec_agreeAt_of_not {home : Datum S G → ι} {i : ι} {a : StoreAct S G ρ}
    (ha : a.isAt home i = false) {s s' : LockedStorage S G} (hs : s.AgreeAt home i s') :
    (a.exec debug s).2.AgreeAt home i s' := by
  intro d hd
  have hother : a.datum? ≠ some d := by
    intro heq
    cases ha.symm.trans (StoreAct.isAt_iff.mpr ⟨d, heq, hd⟩)
  exact (a.exec_agreeOn_of_ne s hother).trans (hs d hd)

/-- **Clients of different data.** If every table and every singleton is used by one
client only, then in every interleaving the executed calls and iterator steps of a client
have the results that they have when only they are executed, and its data end as they do
then. A lock that another client has poisoned refuses the rest. -/
theorem disjoint_clients {home : Datum S G → ι}
    (hclients : ∀ i, (clients i).Performs fun a => a.isAt home i = true)
    (hrun : Run refuse (startClients debug clients s) events c) (i : ι) :
    ∃ alone, Replays s (storageActsOf i events) alone ∧
      ∀ d, home d = i → c.state.storage.AgreeOn alone.storage d := by
  have hsame : s.AgreeAt home i s := fun d _ => .refl s.storage d
  have hown := filter_isAt_executed (performs_of_run hclients hrun) i
  obtain ⟨alone, halone, hagree⟩ := hrun.replays.projection hsame
    (fun a (ha : StoreAct.isAt home i a = true) s s' hs => StoreAct.exec_agreeAt ha hs)
    (fun a ha s s' hs => StoreAct.exec_agreeAt_of_not ha hs)
  exact ⟨alone, hown ▸ halone, hagree⟩

end

/-- A client that inserts a row. -/
def insertRow (owner : Owner) (t : S.Name) (key : S.Key t) (value : S.Value t) : Client S G ρ :=
  .raw false ⟨owner, .table t (.insert key value)⟩ fun _ => .done

/-- A client that inserts a singleton. -/
def insertSingleton (owner : Owner) (m : G.Marker) (value : (G.storage m).ArgValue G) :
    Client S G ρ :=
  .raw false ⟨owner, .singleton m (.insert value)⟩ fun _ => .done

/-- `singleton!(Count(u64))`. -/
def count : Singletons where
  Ty := Empty
  Val := Empty.elim
  Marker := Unit
  TypeId := Unit
  typeId := id
  typeId_injective := Function.injective_id
  storage _ := .u64

/-- One client has the table, and the other one the singleton. -/
def rowOrCount (i : Bool) : Client people count Unit :=
  if i then insertSingleton "counter" () (7 : UInt64)
  else insertRow "owner" People (1 : UInt32) (People.person "a@example.com" [97])

/-- The client of a table or a singleton. -/
def rowOrCountHome : Datum people count → Bool
  | .table _ => false
  | .singleton _ => true

/-- Both clients, one after the other. -/
def rowAndCountRun :=
  runSchedule (fun _ _ => false)
    [false, true, false, false, false, false, true, true, true, true]
    (startClients true rowOrCount ⟨false, Storage.new⟩)

/-- The client of the singleton gets what it gets alone. -/
theorem rowAndCountRun_disjoint :
    ∃ alone, Replays ⟨false, Storage.new⟩ (storageActsOf true rowAndCountRun.1) alone ∧
      ∀ d, rowOrCountHome d = true → rowAndCountRun.2.state.storage.AgreeOn alone.storage d :=
  disjoint_clients (fun i => by cases i <;> exact ⟨rfl, fun _ => trivial⟩)
    (run_runSchedule _ _ _) true

/-! ## Clients and the reference model -/

/-- No closure of the action unwinds, and it writes no index table through the table's own
handle. -/
def StoreAct.Maintained : StoreAct S G ρ → Prop
  | request r => r.Maintained
  | isPoisoned | poison | newIter _ | nextItem _ _ => True

section

variable {ι : Type} [DecidableEq ι] {clients : ι → Client S G ρ}
  {refuse : Config (storeActions S G ρ debug) ι (Option ℕ) → ι → Bool}
  {events : List (ι × Event (storeActions S G ρ debug) (Option ℕ))}
  {c c' : Config (storeActions S G ρ debug) ι (Option ℕ)}

/-- The first requests of a run lead to the storage of some configuration of the run. -/
theorem exists_run_of_prefix (hrun : Run refuse c events c') {pre : List (Request S G ρ)}
    (hpre : pre <+: (requestsOf events).map Sigma.fst) :
    ∃ events' c'', events' <+: events ∧ Run refuse c events' c'' ∧
      stateAfter (Request.exec debug) pre c.state.storage = c''.state.storage := by
  obtain ⟨steps, hsteps, rfl⟩ := List.prefix_map_iff.mp hpre
  obtain ⟨actions, hactions, rfl⟩ := List.prefix_filterMap_iff.mp hsteps
  obtain ⟨events', hbegins, rfl⟩ := List.prefix_filterMap_iff.mp hactions
  obtain ⟨c'', hrun'⟩ := hrun.of_prefix hbegins
  exact ⟨events', c'', hbegins, hrun', (leads_requestsOf hrun').2⟩

/-- **Clients use a table as the reference model says.** Whatever clients share a new
store, without closures that unwind and without writes through the handles of index tables:
if the rows of a table are distinct in all indexed fields whenever a step has been taken,
then the results of all requests, in the order in which they are executed, are those of a
run of the reference model, which ends with the same rows. -/
theorem clients_refine_reference (hclients : ∀ i, (clients i).Performs StoreAct.Maintained)
    (hrun : Run refuse (startClients debug clients ⟨false, Storage.new⟩) events c) (t : S.Name)
    (hdistinct : ∀ events' c', events' <+: events →
      Run refuse (startClients debug clients ⟨false, Storage.new⟩) events' c' →
        ∀ i, (c'.state.storage.tables t).DistinctAt i) :
    RefRun debug t ⟨none, ∅⟩ (requestsOf events) (c.state.storage.tables t).forget := by
  obtain ⟨hresults, hstate⟩ := leads_requestsOf hrun
  have hmaintained : ∀ r ∈ (requestsOf events).map Sigma.fst, r.Maintained := by
    intro r hr
    obtain ⟨⟨r, result⟩, hstep, rfl⟩ := List.mem_map.mp hr
    obtain ⟨⟨a, result'⟩, ha, hrequest⟩ := List.mem_filterMap.mp hstep
    obtain ⟨e, he, haction⟩ := List.mem_filterMap.mp ha
    have hacts := performs_of_run hclients hrun e he _ haction
    cases a with
    | request r' =>
      cases hrequest
      exact hacts rfl
    | _ => cases hrequest
  have hrows : ∀ pre, pre <+: (requestsOf events).map Sigma.fst → ∀ i,
      ((stateAfter (Request.exec debug) pre Storage.new).tables t).DistinctAt i := by
    intro pre hpre
    obtain ⟨events', c', hbegins, hrun', hstorage⟩ := exists_run_of_prefix hrun hpre
    have hsame : stateAfter (Request.exec debug) pre Storage.new = c'.state.storage := hstorage
    rw [hsame]
    exact hdistinct events' c' hbegins hrun'
  have href := refRun_of_distinct (t := t) hmaintained hrows
  have hsame : stateAfter (Request.exec debug) ((requestsOf events).map Sigma.fst) Storage.new =
      c.state.storage := hstate
  have htrace : results (Request.exec debug) ((requestsOf events).map Sigma.fst) Storage.new =
      requestsOf events := hresults
  rwa [hsame, htrace] at href

end

/-- The client that executes a command. -/
def Command.client : Command S G ρ → Client S G ρ
  | raw r => .raw false r fun _ => .done
  | transaction owner calls =>
    .beginTransaction 0 owner <| .unlessPanic fun _ =>
      calls.foldr (fun call rest => .call 0 call fun _ => rest) (.endTransaction 0 false .done)

/-- The client of a maintained command makes maintained requests only. -/
theorem Command.client_performs {command : Command S G ρ}
    (hcommand : ∀ r ∈ command.requests, r.Maintained) :
    command.client.Performs StoreAct.Maintained := by
  cases command with
  | raw r => exact ⟨hcommand r List.mem_cons_self, fun _ => trivial⟩
  | transaction owner calls =>
    have hcalls : ∀ call ∈ calls, (⟨owner, call⟩ : Request S G ρ).Maintained :=
      fun call hcall => hcommand _ (List.mem_map_of_mem hcall)
    intro result
    cases result with
    | error panic => trivial
    | ok _ =>
      change Client.Performs _ (calls.foldr _ _)
      clear hcommand
      induction calls with
      | nil => trivial
      | cons call calls ih =>
        have hcall := hcalls call List.mem_cons_self
        exact ⟨fun _ => hcall, fun _ => ih fun call' hmem => hcalls call' (.tail call hmem)⟩

/-- A client for each command. -/
def clientsOf (commands : List (Command S G ρ)) (i : ℕ) : Client S G ρ :=
  match commands[i]? with
  | some command => command.client
  | none => .done

/-- The clients of the two commands, one after the other. -/
def peopleClientsRun :=
  runSchedule (fun _ _ => false) [0, 1, 0, 0, 0, 0, 1, 1, 1, 1, 1]
    (startClients true (clientsOf peopleRun) ⟨false, Storage.new⟩)

/-- Two clients insert people as the reference model says. -/
theorem peopleClientsRun_refines_reference :
    RefRun true People ⟨none, ∅⟩ (requestsOf peopleClientsRun.1)
      (peopleClientsRun.2.state.storage.tables People).forget := by
  have hrun : Run (fun _ _ => false)
      (startClients true (clientsOf peopleRun) ⟨false, Storage.new⟩)
      peopleClientsRun.1 peopleClientsRun.2 := run_runSchedule _ _ _
  refine clients_refine_reference (fun i => ?_) hrun People fun events' c' hbegins hrun' => ?_
  · unfold clientsOf
    cases hcommand : peopleRun[i]? with
    | none => trivial
    | some command =>
      have hmem : command ∈ peopleRun := List.mem_of_getElem? hcommand
      refine Command.client_performs fun r hr => peopleRun_maintained r ?_
      exact List.mem_flatMap.mpr ⟨command, hmem, hr⟩
  · have hrequests : (requestsOf events').map Sigma.fst <+: requests peopleRun :=
      ((hbegins.filterMap _).filterMap _).map _
    have hstorage := (leads_requestsOf hrun').2
    rw [← hstorage]
    exact peopleRun_distinct _ hrequests

end TsKvstore
