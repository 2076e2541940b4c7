import TsKvstore.Ownership

/-!
# Access to an index through its own handle

The table of an index can be accessed directly like a normal table, with an
owner field of its own. Its maintenance by the base table neither reads nor sets
that field, so a caller of the direct handle is held off by the owner of the
index table and not by the owner of the base table.
-/

namespace TsKvstore

open FiniteMaps Machines

variable {S : Schema} {G : Singletons} {ρ : Type} {t : S.Name} {i : S.Field t}

/-! ## The owner field of an index table -/

section

variable {debug : Bool} {owner : Owner} {base : BaseTable S t}

/-- Taking a row out of the indexes keeps their owners. -/
theorem Table.unregister_index_owner (k : S.Key t) :
    ((base.unregister k).get i).owner = (base.indexes.get i).owner := by
  unfold Table.unregister
  cases base.data.lookup k with
  | none => rfl
  | some old =>
    dsimp only
    rw [Indexes.get_onRemove]

/-- `mutate` keeps the owners of the indexes. -/
theorem TabularOpsMut.mutate_index_owner (key : S.Key t) (f : MutFn (S.Value t) ρ) :
    ((mutate debug base key f owner).2.indexes.get i).owner = (base.indexes.get i).owner := by
  rcases base.accepts_or_refuses debug owner with h | ⟨prevOwner, h⟩
  · cases hrow : base.data.lookup key with
    | none => rw [mutate_of_none h f hrow]
    | some value =>
      cases hf : (f value).2 with
      | none =>
        rw [mutate_of_unwind h hrow hf]
        exact base.unregister_index_owner key
      | some result =>
        rw [mutate_of_return h hrow hf, Indexes.get_onInsert]
        exact base.unregister_index_owner key
  · rw [mutate_of_refuses h]

/-- Index maintenance for a call through the table handle leaves the owner of
the index table alone. -/
theorem TabularOps.exec_index_owner (debug : Bool) (owner : Owner) (base : BaseTable S t)
    (i : S.Field t) (c : Call (S.Key t) (S.Value t) (S.Key t) (S.Value t) ρ) :
    ((TabularOps.exec debug owner base c).2.indexes.get i).owner =
      (base.indexes.get i).owner := by
  rcases base.accepts_or_refuses debug owner with h | ⟨prevOwner, h⟩
  · cases c with
    | init =>
      simp only [TabularOps.exec, TabularOpsMut.init, Table.trySetOwner]
      cases base.owner <;> rfl
    | clear =>
      simp only [TabularOps.exec, TabularOpsMut.clear_of_accepts h, Indexes.get_clear]
    | insert key value =>
      simp only [TabularOps.exec, TabularOpsMut.insert_of_accepts h, Indexes.get_onInsert]
      exact base.unregister_index_owner key
    | mutate key f => exact TabularOpsMut.mutate_index_owner key f
    | remove key =>
      simp only [TabularOps.exec]
      cases hrow : base.data.lookup key with
      | none => rw [TabularOpsMut.remove_of_none h hrow]
      | some value => rw [TabularOpsMut.remove_of_some h hrow, Indexes.get_onRemove]
    | forEachMut order rebuild f s =>
      change ((TabularOpsMut.forEachMut debug order rebuild base f s owner).2.indexes.get i).owner =
        _
      rcases hloop : TabularOpsMut.forEachLoop f (order.list base.data) s base.data with
        ⟨_ | s', data⟩
      · rw [TabularOpsMut.forEachMut_of_unwind h hloop]
      · rw [TabularOpsMut.forEachMut_of_return h hloop, Indexes.get_build, Indexes.get_clear]
    | _ => rfl
  · rw [TabularOps.exec_of_refuses h]

/-- New entries for one index keep the owners of all. -/
theorem Indexes.get_set_owner (ix : Indexes S t) (j : S.Field t)
    (data : FiniteMap (S.FieldTy t j) (S.Key t)) :
    ((ix.set j { ix.get j with data }).get i).owner = (ix.get i).owner := by
  by_cases hij : i = j
  · subst hij
    rw [Indexes.get_set_self]
  · rw [Indexes.get_set_of_ne _ _ hij]

/-- `remove` through an index keeps the owners of the indexes. -/
theorem IndexedOpsMut.remove_index_owner {j : S.Field t} (key : S.FieldTy t j) :
    ((remove debug j base key owner).2.indexes.get i).owner = (base.indexes.get i).owner := by
  rcases base.accepts_or_refuses debug owner with h | ⟨prevOwner, h⟩
  · have hentryErased := Indexes.get_set_owner (i := i) base.indexes j
      ((base.indexes.get j).data.erase key)
    cases hentry : (base.indexes.get j).data.lookup key with
    | none => rw [remove_of_none h hentry]
    | some baseKey =>
      cases hrow : base.data.lookup baseKey with
      | none =>
        rw [remove_of_dangling h hentry hrow]
        exact hentryErased
      | some value =>
        rw [remove_of_found h hentry hrow]
        dsimp only
        rw [Indexes.get_onRemove]
        exact hentryErased
  · rw [remove_of_refuses h]

/-- Index maintenance for a call through an index handle leaves the owner of
every index table alone. -/
theorem IndexedOps.exec_index_owner {j : S.Field t}
    (c : Call (S.FieldTy t j) (S.Key t) (S.Key t) (S.Value t) ρ) :
    ((IndexedOps.exec debug j owner base c).2.indexes.get i).owner =
      (base.indexes.get i).owner := by
  rcases base.accepts_or_refuses debug owner with h | ⟨prevOwner, h⟩
  · cases c with
    | init => exact TabularOps.exec_index_owner (ρ := ρ) debug owner base i .init
    | clear =>
      simp only [IndexedOps.exec, IndexedOpsMut.clear_eq]
      exact TabularOps.exec_index_owner (ρ := ρ) debug owner base i .clear
    | insert key value =>
      simp only [IndexedOps.exec, IndexedOpsMut.insert_eq]
      exact TabularOps.exec_index_owner (ρ := ρ) debug owner base i (.insert key value)
    | mutate key f =>
      simp only [IndexedOps.exec]
      cases hentry : (base.indexes.get j).data.lookup key with
      | none => rw [IndexedOpsMut.mutate_of_none f hentry]
      | some baseKey =>
        rw [IndexedOpsMut.mutate_of_some f hentry]
        exact TabularOpsMut.mutate_index_owner baseKey f
    | remove key => exact IndexedOpsMut.remove_index_owner key
    | forEachMut order rebuild f s =>
      change ((IndexedOpsMut.forEachMut debug j order rebuild base f s owner).2.indexes.get
        i).owner = _
      rcases hloop : IndexedOpsMut.forEachLoop f (order.list (base.indexes.get j).data) s base.data
        with ⟨_ | s', data⟩
      · rw [IndexedOpsMut.forEachMut_of_unwind h hloop]
      · rw [IndexedOpsMut.forEachMut_of_return h hloop, Indexes.get_build, Indexes.get_clear]
    | _ => rfl
  · rw [IndexedOps.exec_of_refuses h]

end

/-- The index table of a field in a storage. -/
def Storage.indexTable (s : Storage S G) (t : S.Name) (i : S.Field t) : IndexTable S t i :=
  (s.tables t).indexes.get i

/-- The storage with one index table replaced. -/
def Storage.setIndexTable (s : Storage S G) (t : S.Name) (i : S.Field t)
    (table : IndexTable S t i) : Storage S G :=
  s.setTable t { s.tables t with indexes := (s.tables t).indexes.set i table }

/-- An index table that has been written is read back. -/
@[simp] theorem Storage.indexTable_setIndexTable (s : Storage S G) (t : S.Name) (i : S.Field t)
    (table : IndexTable S t i) : (s.setIndexTable t i table).indexTable t i = table := by
  simp [Storage.indexTable, Storage.setIndexTable]

/-- The last write of an index table counts. -/
theorem Storage.setIndexTable_setIndexTable (s : Storage S G) (t : S.Name) (i : S.Field t)
    (table table' : IndexTable S t i) :
    (s.setIndexTable t i table).setIndexTable t i table' = s.setIndexTable t i table' := by
  simp [Storage.setIndexTable, Storage.setTable, Indexes.set]

/-- Writing an index table back changes nothing. -/
theorem Storage.setIndexTable_self (s : Storage S G) (t : S.Name) (i : S.Field t) :
    s.setIndexTable t i (s.indexTable t i) = s :=
  s.setTable_set_get t i

/-- No request of another handle changes the owner of an index table. -/
theorem TableStep.index_owner {debug : Bool} {base base' : BaseTable S t} {r : Request S G ρ}
    {result : Except Panic r.call.Ret} (hstep : TableStep debug t base r result base')
    (hdirect : ¬ r.call.WritesIndexTable) (i : S.Field t) :
    (base'.indexes.get i).owner = (base.indexes.get i).owner := by
  cases hstep with
  | table owner c => exact TabularOps.exec_index_owner debug owner base i c
  | tableBy owner j c => exact IndexedOps.exec_index_owner c
  | indexTable owner j c =>
    have hread : c.isRead = true := by simpa [StoreCall.WritesIndexTable] using hdirect
    rw [TabularOps.set_exec_of_isRead hread]
  | other r hother result => rfl

/-- A request that writes no index table through its own handle keeps the owners of all index
tables. -/
theorem Request.exec_index_owner (debug : Bool) {r : Request S G ρ} (s : Storage S G)
    (hdirect : ¬ r.call.WritesIndexTable) (t : S.Name) (i : S.Field t) :
    ((r.exec debug s).2.indexTable t i).owner = (s.indexTable t i).owner :=
  (r.tableStep debug s t).index_owner hdirect i

/-! ## Calls through the handle of an index table -/

/-- The requests of an owner through the handle of an index table. -/
def directRequests (G : Singletons) (t : S.Name) (i : S.Field t) (owner : Owner)
    (calls : List (Call (S.FieldTy t i) (S.Key t) (S.FieldTy t i) (S.Key t) ρ)) :
    List (Request S G ρ) :=
  calls.map fun c => ⟨owner, .indexTable t i c⟩

/-- Through its own handle an index table is a normal table, and nothing else
in the storage changes. -/
theorem stateAfter_directRequests (debug : Bool) (owner : Owner) (s : Storage S G) (t : S.Name)
    (i : S.Field t)
    (calls : List (Call (S.FieldTy t i) (S.Key t) (S.FieldTy t i) (S.Key t) ρ)) :
    stateAfter (Request.exec debug) (directRequests G t i owner calls) s =
      s.setIndexTable t i
        (stateAfter (fun c table => TabularOps.exec debug owner table c) calls
          (s.indexTable t i)) := by
  induction calls generalizing s with
  | nil => exact (s.setIndexTable_self t i).symm
  | cons c calls ih =>
    have hstep : stateAfter (Request.exec debug) (directRequests G t i owner (c :: calls)) s =
        stateAfter (Request.exec debug) (directRequests G t i owner calls)
          (s.setIndexTable t i (TabularOps.exec debug owner (s.indexTable t i) c).2) := rfl
    rw [hstep, ih, Storage.indexTable_setIndexTable, Storage.setIndexTable_setIndexTable,
      stateAfter_cons]

/-- A refused owner changes nothing in any number of calls. -/
theorem TabularOps.stateAfter_of_refuses {K V I : Type} [DecidableEq K] [IndexStorage K V I]
    {debug : Bool} {table : Table K V I} {prevOwner owner : Owner}
    (h : table.Refuses debug prevOwner owner) (calls : List (Call K V K V ρ)) :
    stateAfter (fun c table => TabularOps.exec debug owner table c) calls table = table := by
  induction calls with
  | nil => rfl
  | cons c calls ih =>
    rw [stateAfter_cons, TabularOps.exec_of_refuses h]
    exact ih

/-- **Direct access.** With debug assertions on, the calls of `q` through the
handle of an index table change nothing but that table. They change nothing at
all if it has an owner other than `q`, and they can change the entries, if there
are any, unless it has one. No request of another handle sets that owner. -/
theorem index_entries_protected_iff (s : Storage S G) (t : S.Name) (i : S.Field t) (q : Owner) :
    (∀ calls : List (Call (S.FieldTy t i) (S.Key t) (S.FieldTy t i) (S.Key t) ρ),
      ∃ table, stateAfter (Request.exec true) (directRequests G t i q calls) s =
        s.setIndexTable t i table) ∧
    (∀ r, (s.indexTable t i).owner = some r → r ≠ q →
      ∀ calls : List (Call (S.FieldTy t i) (S.Key t) (S.FieldTy t i) (S.Key t) ρ),
        stateAfter (Request.exec true) (directRequests G t i q calls) s = s) ∧
    ((s.indexTable t i).data ≠ ∅ →
      ((∀ calls : List (Call (S.FieldTy t i) (S.Key t) (S.FieldTy t i) (S.Key t) ρ),
          ((stateAfter (Request.exec true) (directRequests G t i q calls) s).indexTable t i).data =
            (s.indexTable t i).data) ↔
        ∃ r, (s.indexTable t i).owner = some r ∧ r ≠ q)) ∧
    ∀ r : Request S G ρ, ¬ r.call.WritesIndexTable →
      ((r.exec true s).2.indexTable t i).owner = (s.indexTable t i).owner := by
  have hprotected : ∀ r, (s.indexTable t i).owner = some r → r ≠ q →
      ∀ calls : List (Call (S.FieldTy t i) (S.Key t) (S.FieldTy t i) (S.Key t) ρ),
        stateAfter (Request.exec true) (directRequests G t i q calls) s = s := by
    intro r howner hne calls
    rw [stateAfter_directRequests, TabularOps.stateAfter_of_refuses ⟨rfl, howner, hne⟩,
      Storage.setIndexTable_self]
  refine ⟨fun calls => ⟨_, stateAfter_directRequests true q s t i calls⟩, hprotected, ?_,
    fun r hdirect => r.exec_index_owner true s hdirect t i⟩
  intro hentries
  constructor
  · intro hsame
    rcases (s.indexTable t i).accepts_or_refuses true q with haccepts | ⟨r, hrefuses⟩
    · have hclear := hsame [.clear]
      rw [stateAfter_directRequests, Storage.indexTable_setIndexTable, stateAfter_cons,
        stateAfter_nil] at hclear
      simp only [TabularOps.exec, TabularOpsMut.clear_of_accepts haccepts] at hclear
      exact absurd hclear.symm hentries
    · exact ⟨r, hrefuses.2.1, hrefuses.2.2⟩
  · rintro ⟨r, howner, hne⟩ calls
    rw [hprotected r howner hne calls]

/-- **The owner of the base table does not protect an index.** A foreign owner
clears the index on the email addresses of a table owned by another. -/
theorem foreign_owner_clears_index :
    ¬ ∀ (commands : List (Command people noSingletons Unit)) (p q : Owner)
      (i : people.Field People)
      (calls : List (Call (people.FieldTy People i) (people.Key People)
        (people.FieldTy People i) (people.Key People) Unit)),
      let s := stateAfter (Request.exec true) (requests commands) Storage.new
      (s.tables People).owner = some p → q ≠ p →
        ((stateAfter (Request.exec true) (directRequests noSingletons People i q calls)
          s).indexTable People i).data = (s.indexTable People i).data := by
  intro hclaim
  have hcleared := hclaim
    [.raw ⟨"p", .table People (.insert (1 : UInt32) (People.person "a@example.com" [97]))⟩]
    "p" "q" People.email [.clear] (by decide) (by decide)
  revert hcleared
  decide

end TsKvstore
