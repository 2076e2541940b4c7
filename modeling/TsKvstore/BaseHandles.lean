import TsKvstore.Interleavings

/-!
# Table handles and the contents of indexes

An index is derived from the rows of its table. The operations through the handle of the
table keep the indexes up to date, but they look for nothing in them. So what has got into
an index, by colliding rows, by closures that have unwound or through the handle of the
index table itself, has no part in what is read and written through the table.
-/

namespace TsKvstore

open FiniteMaps Machines RwLocks

variable {S : Schema} {G : Singletons} {ρ : Type} {debug : Bool} {t : S.Name}

/-! ## Tables with the same rows -/

section

variable {K V I I' : Type} [DecidableEq K] [IndexStorage K V I] [IndexStorage K V I']
  {table : Table K V I} {table' : Table K V I'} {owner : Owner}

/-- What two tables with the same rows and owner have given and left. -/
def SameRows {α : Type} (outcome : Except Panic α × Table K V I)
    (outcome' : Except Panic α × Table K V I') : Prop :=
  outcome.1 = outcome'.1 ∧ outcome.2.forget = outcome'.2.forget

omit [DecidableEq K] [IndexStorage K V I] [IndexStorage K V I'] in
/-- Both outcomes are the same outcome of the reference table. -/
theorem SameRows.of_refines {α : Type} {outcome : Except Panic α × Table K V I}
    {outcome' : Except Panic α × Table K V I'} {expected : Except Panic α × RefTable K V}
    (h : expected = (outcome.1, outcome.2.forget))
    (h' : expected = (outcome'.1, outcome'.2.forget)) : SameRows outcome outcome' :=
  Prod.mk.inj (h.symm.trans h')

omit [IndexStorage K V I] [IndexStorage K V I'] in
/-- `init` depends on the owner only. -/
theorem Table.trySetOwner_sameRows (h : table.forget = table'.forget) :
    SameRows (.ok (table.trySetOwner owner).1, (table.trySetOwner owner).2)
      (.ok (table'.trySetOwner owner).1, (table'.trySetOwner owner).2) := by
  have hinit : RefTable.exec (baseHandle K V) [] true owner table.forget
      (.init : Call K V K V Unit) = _ := Table.trySetOwner_refines _ _
  rw [h] at hinit
  exact SameRows.of_refines hinit (Table.trySetOwner_refines _ _)

/-- `clear` on tables with the same rows. -/
theorem TabularOpsMut.clear_sameRows (h : table.forget = table'.forget) :
    SameRows (clear debug table owner) (clear debug table' owner) := by
  have hclear : RefTable.exec (baseHandle K V) [] debug owner table.forget
      (.clear : Call K V K V Unit) = _ := clear_refines _ _
  rw [h] at hclear
  exact SameRows.of_refines hclear (clear_refines _ _)

/-- `insert` on tables with the same rows. -/
theorem TabularOpsMut.insert_sameRows (h : table.forget = table'.forget) (key : K) (value : V) :
    SameRows (insert debug table key value owner) (insert debug table' key value owner) := by
  have hinsert : RefTable.exec (baseHandle K V) [] debug owner table.forget
      (.insert key value : Call K V K V Unit) = _ := insert_refines _ _ key value
  rw [h] at hinsert
  exact SameRows.of_refines hinsert (insert_refines _ _ key value)

/-- `mutate` on tables with the same rows. -/
theorem TabularOpsMut.mutate_sameRows (h : table.forget = table'.forget) (key : K)
    (f : MutFn V ρ) :
    SameRows (mutate debug table key f owner) (mutate debug table' key f owner) := by
  have hdata : table.data = table'.data := congrArg RefTable.rows h
  cases hrow : table.data.lookup key with
  | none =>
    have hmutate : RefTable.guarded debug table.forget owner _ =
        ((mutate debug table key f owner).1, _) := mutate_refines_none hrow f
    rw [h] at hmutate
    rw [hdata] at hrow
    exact SameRows.of_refines hmutate (mutate_refines_none hrow f)
  | some value =>
    have howner : table.owner = table'.owner := congrArg RefTable.owner h
    have hmutate : RefTable.guarded debug table.forget owner _ =
        ((mutate debug table key f owner).1, _) := mutate_refines hrow f
    rw [h, howner, hdata] at hmutate
    rw [hdata] at hrow
    exact SameRows.of_refines hmutate (mutate_refines hrow f)

/-- `remove` on tables with the same rows. -/
theorem TabularOpsMut.remove_sameRows (h : table.forget = table'.forget) (key : K) :
    SameRows (remove debug table key owner) (remove debug table' key owner) := by
  have hdata : table.data = table'.data := congrArg RefTable.rows h
  cases hrow : table.data.lookup key with
  | none =>
    have hremove : RefTable.guarded debug table.forget owner _ =
        ((remove debug table key owner).1, _) := remove_refines_none hrow
    rw [h] at hremove
    rw [hdata] at hrow
    exact SameRows.of_refines hremove (remove_refines_none hrow)
  | some value =>
    have howner : table.owner = table'.owner := congrArg RefTable.owner h
    have hremove : RefTable.guarded debug table.forget owner _ =
        ((remove debug table key owner).1, _) := remove_refines hrow
    rw [h, howner, hdata] at hremove
    rw [hdata] at hrow
    exact SameRows.of_refines hremove (remove_refines hrow)

/-- `for_each_mut` on tables with the same rows. -/
theorem TabularOpsMut.forEachMut_sameRows (h : table.forget = table'.forget)
    (order rebuild : IterOrder K V) (f : EachMutFn K V ρ) (s : ρ) :
    SameRows (forEachMut debug order rebuild table f s owner)
      (forEachMut debug order rebuild table' f s owner) := by
  have hdata : table.data = table'.data := congrArg RefTable.rows h
  have hloop : RefTable.forEachMut (baseHandle K V) (order.list table.data) debug owner
      table.forget f s = ((forEachMut debug order rebuild table f s owner).1, _) :=
    forEachMut_refines order rebuild f s
  rw [h, hdata] at hloop
  exact SameRows.of_refines hloop (forEachMut_refines order rebuild f s)

/-- A call through a table handle does not depend on the indexes. -/
theorem TabularOps.exec_sameRows (h : table.forget = table'.forget) (c : Call K V K V ρ) :
    SameRows (TabularOps.exec debug owner table c) (TabularOps.exec debug owner table' c) := by
  have hdata : table.data = table'.data := congrArg RefTable.rows h
  cases c with
  | init => exact Table.trySetOwner_sameRows h
  | clear => exact TabularOpsMut.clear_sameRows h
  | insert key value => exact TabularOpsMut.insert_sameRows h key value
  | mutate key f => exact TabularOpsMut.mutate_sameRows h key f
  | remove key => exact TabularOpsMut.remove_sameRows h key
  | forEachMut order rebuild f s => exact TabularOpsMut.forEachMut_sameRows h order rebuild f s
  | len =>
    refine ⟨congrArg Except.ok ?_, h⟩
    unfold TabularOps.len
    rw [hdata]
  | isEmpty =>
    refine ⟨congrArg Except.ok ?_, h⟩
    unfold TabularOps.isEmpty
    rw [hdata]
  | get key =>
    refine ⟨congrArg Except.ok ?_, h⟩
    unfold TabularOps.get
    rw [hdata]
  | with' key f =>
    refine ⟨congrArg Except.ok ?_, h⟩
    unfold TabularOps.with'
    rw [hdata]
  | iterCloned order =>
    refine ⟨congrArg Except.ok ?_, h⟩
    unfold TabularOps.iterCloned
    rw [hdata]
  | iterKeysCloned order =>
    refine ⟨congrArg Except.ok ?_, h⟩
    unfold TabularOps.iterKeysCloned
    rw [hdata]
  | iterValuesCloned order =>
    refine ⟨congrArg Except.ok ?_, h⟩
    unfold TabularOps.iterValuesCloned
    rw [hdata]
  | forEach order f s =>
    refine ⟨congrArg Except.ok ?_, h⟩
    unfold TabularOps.forEach
    rw [hdata]

end

/-- `init`, `insert` and `clear` through an index handle do not depend on the indexes
either. -/
theorem IndexedOps.exec_sameRows {i : S.Field t} {base base' : BaseTable S t} {owner : Owner}
    (h : base.forget = base'.forget)
    {c : Call (S.FieldTy t i) (S.Key t) (S.Key t) (S.Value t) ρ} (hclaims : c.claims = true) :
    SameRows (IndexedOps.exec debug i owner base c) (IndexedOps.exec debug i owner base' c) := by
  cases c with
  | init => exact Table.trySetOwner_sameRows h
  | clear =>
    simp only [IndexedOps.exec, IndexedOpsMut.clear_eq]
    exact TabularOpsMut.clear_sameRows h
  | insert key value =>
    simp only [IndexedOps.exec, IndexedOpsMut.insert_eq]
    exact TabularOpsMut.insert_sameRows h key value
  | _ => cases hclaims

/-! ## Requests -/

/-- The calls on table `t` that find what they act on without an index. -/
def StoreCall.onRows (t : S.Name) : StoreCall S G ρ → Bool
  | table t' _ => decide (t' = t)
  | tableBy t' _ c => decide (t' = t) && c.claims
  | indexTable _ _ _ | singleton _ _ => false

/-- The call changes rows of table `t` that it looks for in an index. -/
def StoreCall.SearchesIndex (t : S.Name) : StoreCall S G ρ → Prop
  | tableBy t' _ c => t' = t ∧ c.isRead = false ∧ c.claims = false
  | table _ _ | indexTable _ _ _ | singleton _ _ => False

/-- The call acts in the same way on storages with the same rows. -/
theorem Request.exec_onRows {r : Request S G ρ} (hr : r.call.onRows t = true) {s s' : Storage S G}
    (h : (s.tables t).forget = (s'.tables t).forget) :
    (r.exec debug s).1 = (r.exec debug s').1 ∧
      ((r.exec debug s).2.tables t).forget = ((r.exec debug s').2.tables t).forget := by
  obtain ⟨owner, call⟩ := r
  cases call with
  | table t' c =>
    obtain rfl := of_decide_eq_true hr
    have hexec : SameRows (TabularOps.exec debug owner (s.tables t') c) _ :=
      TabularOps.exec_sameRows h c
    refine ⟨hexec.1, ?_⟩
    simp only [Request.exec, StoreCall.exec, Storage.setTable_tables_self]
    exact hexec.2
  | tableBy t' i c =>
    obtain ⟨ht, hclaims⟩ := Bool.and_eq_true_iff.mp hr
    obtain rfl := of_decide_eq_true ht
    have hexec : SameRows (IndexedOps.exec debug i owner (s.tables t') c) _ :=
      IndexedOps.exec_sameRows h hclaims
    refine ⟨hexec.1, ?_⟩
    simp only [Request.exec, StoreCall.exec, Storage.setTable_tables_self]
    exact hexec.2
  | indexTable t' i c => cases hr
  | singleton m c => cases hr

/-- The other calls that do not search an index leave the rows as they are. -/
theorem TableStep.forget_eq {r : Request S G ρ} {base base' : BaseTable S t}
    {result : Except Panic r.call.Ret} (hstep : TableStep debug t base r result base')
    (hr : r.call.onRows t = false) (hsearch : ¬ r.call.SearchesIndex t) :
    base'.forget = base.forget := by
  cases hstep with
  | table owner c =>
    have htable : decide (t = t) = false := hr
    rw [decide_eq_true rfl] at htable
    cases htable
  | tableBy owner i c =>
    have hclaims : c.claims = false := by simpa [StoreCall.onRows] using hr
    have hread : c.isRead = true := by simpa [StoreCall.SearchesIndex, hclaims] using hsearch
    rw [IndexedOps.exec_of_isRead hread]
  | indexTable owner i c => rfl
  | other r hother result => rfl

/-! ## Runs -/

section

variable {ι : Type} [DecidableEq ι] {clients : ι → Client S G ρ} {s : LockedStorage S G}
  {refuse : Config (storeActions S G ρ debug) ι (Option ℕ) → ι → Bool}
  {events : List (ι × Event (storeActions S G ρ debug) (Option ℕ))}
  {c : Config (storeActions S G ρ debug) ι (Option ℕ)}

/-- **Indexes do not matter to table handles.** Whatever clients do, closures that unwind and
writes to index tables included, as long as nobody changes rows of a table that it looks for
in an index: the executed calls through the table's handle, with `init`, `insert` and `clear`
through its index handles, on their own and from any storage with the same rows and the same
owner of the table, have the same results and leave the same rows and the same owner. -/
theorem base_handles_ignore_indexes
    (hrun : Run refuse (startClients debug clients s) events c)
    (hsearch : ∀ step ∈ requestsOf events, ¬ step.1.call.SearchesIndex t) {s' : Storage S G}
    (hrows : (s.storage.tables t).forget = (s'.tables t).forget) :
    ∃ s'', Leads debug s' ((requestsOf events).filter fun step => step.1.call.onRows t) s'' ∧
      (c.state.storage.tables t).forget = (s''.tables t).forget := by
  have hrequests : Leads debug s.storage (requestsOf events) c.state.storage :=
    leads_requestsOf hrun
  have hkeep : ∀ r ∈ (requestsOf events).map Sigma.fst, r.call.onRows t = true →
      ∀ s s' : Storage S G, (s.tables t).forget = (s'.tables t).forget →
        (r.exec debug s).1 = (r.exec debug s').1 ∧
          ((r.exec debug s).2.tables t).forget = ((r.exec debug s').2.tables t).forget :=
    fun r _ hr _ _ h => r.exec_onRows hr h
  have hskip : ∀ r ∈ (requestsOf events).map Sigma.fst, r.call.onRows t = false →
      ∀ s s' : Storage S G, (s.tables t).forget = (s'.tables t).forget →
        ((r.exec debug s).2.tables t).forget = (s'.tables t).forget := by
    intro r hr hother s s' h
    obtain ⟨step, hstep, rfl⟩ := List.mem_map.mp hr
    exact ((step.1.tableStep debug s t).forget_eq hother (hsearch step hstep)).trans h
  obtain ⟨hrows', hkept⟩ := stateAfter_projection
    (R := fun s s' : Storage S G => (s.tables t).forget = (s'.tables t).forget)
    ((requestsOf events).map Sigma.fst) hrows hkeep hskip
  rw [hrequests.2] at hrows'
  rw [hrequests.1] at hkept
  rw [List.filter_map] at hrows' hkept
  exact ⟨_, ⟨hkept.symm, rfl⟩, hrows'⟩

end

/-- A request that removes an entry through the handle of an index table. -/
def removeEntry : Request people noSingletons Unit :=
  ⟨"other", .indexTable People People.email (.remove "a@example.com")⟩

/-- One client removes entries of an index, and the other inserts a person and reads it. -/
def readPastIndex (i : Bool) : Client people noSingletons Unit :=
  if i then .raw false removeEntry fun _ => .done
  else
    .raw false ⟨"owner", .table People (.insert (1 : UInt32) (People.person "a@example.com" [97]))⟩
      fun _ => .raw false ⟨"owner", .table People (.get (1 : UInt32))⟩ fun _ => .done

/-- The entry is removed after the insertion and before the read. -/
def readPastIndexRun :=
  runSchedule (fun _ _ => false)
    [false, false, false, false, false, true, true, true, true, true,
      false, false, false, false, false]
    (startClients true readPastIndex ⟨false, Storage.new⟩)

/-- The other client finds the person although the index has lost the entry. -/
theorem readPastIndexRun_rows :
    ∃ s, Leads true (removeEntry.exec true Storage.new).2
        ((requestsOf readPastIndexRun.1).filter fun step => step.1.call.onRows People) s ∧
      (readPastIndexRun.2.state.storage.tables People).forget = (s.tables People).forget := by
  refine base_handles_ignore_indexes (run_runSchedule _ _ _) (fun step hstep => ?_) rfl
  rcases List.mem_cons.mp hstep with rfl | hstep
  · exact id
  rcases List.mem_cons.mp hstep with rfl | hstep
  · exact id
  · obtain rfl := List.mem_singleton.mp hstep
    exact id

end TsKvstore
