import TsKvstore.OperationSpecs

/-!
# Effects on a table and its indexes

Ten operations of two interfaces change the rows of a table. Those that do not
unwind in a closure have one of five effects on the table, and each effect
keeps every index of the table sound. If the rows it leaves have pairwise
distinct values in an indexed field, it also keeps the index of that field
exact.
-/

namespace TsKvstore

open FiniteMaps

variable {S : Schema} {G : Singletons} {ρ : Type} {t : S.Name}

namespace Table

/-- Every entry of the index of field `i` names a row with that field value. -/
def SoundAt (base : BaseTable S t) (i : S.Field t) : Prop :=
  SoundIndex (S.field i) base.data (base.indexes.get i).data

/-- The index of field `i` is the inverse of the rows. -/
def ExactAt (base : BaseTable S t) (i : S.Field t) : Prop :=
  ExactIndex (S.field i) base.data (base.indexes.get i).data

/-- No two rows hold equal values in field `i`. -/
def DistinctAt (base : BaseTable S t) (i : S.Field t) : Prop :=
  DistinctOn (S.field i) base.data

/-- The row at `k`, if there is one, is the only one with its value in field
`i`. -/
def SoleAt (base : BaseTable S t) (i : S.Field t) (k : S.Key t) : Prop :=
  SoleRow (S.field i) base.data k

/-- The index of field `i` finds the row at `k`, if there is one. -/
def FindsAt (base : BaseTable S t) (i : S.Field t) (k : S.Key t) : Prop :=
  FindsRow (S.field i) base.data (base.indexes.get i).data k

/-- The index of field `i` finds the row `v` at `k`, the only one with its value
in that field. -/
def HoldsAt (base : BaseTable S t) (i : S.Field t) (k : S.Key t) (v : S.Value t) : Prop :=
  HoldsRow (S.field i) base.data (base.indexes.get i).data k v

instance (base : BaseTable S t) (i : S.Field t) : Decidable (base.ExactAt i) :=
  inferInstanceAs (Decidable (ExactIndex _ _ _))

instance (base : BaseTable S t) (i : S.Field t) : Decidable (base.DistinctAt i) :=
  inferInstanceAs (Decidable (DistinctOn _ _))

/-- The entry of the index that is taken out with a row. -/
theorem get_unregister_of_some {base : BaseTable S t} {k : S.Key t} {old : S.Value t}
    (hold : base.data.lookup k = some old) (i : S.Field t) :
    ((base.unregister k).get i).data = (base.indexes.get i).data.erase (S.field i old) := by
  unfold Table.unregister
  rw [hold]
  exact congrArg Table.data (Indexes.get_onRemove _ _ _)

/-- Without a row there is nothing to take out of the indexes. -/
theorem unregister_of_none {base : BaseTable S t} {k : S.Key t}
    (hold : base.data.lookup k = none) : base.unregister k = base.indexes := by
  unfold Table.unregister
  rw [hold]

/-- A sound index without the entry of a row is sound for the other rows. -/
theorem SoundAt.unregister {base : BaseTable S t} {i : S.Field t} (h : base.SoundAt i)
    (k : S.Key t) :
    SoundIndex (S.field i) (base.data.erase k) ((base.unregister k).get i).data := by
  cases hold : base.data.lookup k with
  | none =>
    rw [erase_eq_self hold, unregister_of_none hold]
    exact h
  | some old =>
    rw [get_unregister_of_some hold]
    exact SoundIndex.unregister h hold

/-- An exact index without the entry of a row is exact for the other rows. -/
theorem ExactAt.unregister {base : BaseTable S t} {i : S.Field t} (h : base.ExactAt i)
    (k : S.Key t) :
    ExactIndex (S.field i) (base.data.erase k) ((base.unregister k).get i).data := by
  cases hold : base.data.lookup k with
  | none =>
    rw [erase_eq_self hold, unregister_of_none hold]
    exact h
  | some old =>
    rw [get_unregister_of_some hold]
    exact ExactIndex.unregister h hold

/-- A row that shares its value with no other row stays found without another row. -/
theorem FindsAt.unregister {base : BaseTable S t} {i : S.Field t} {k : S.Key t}
    (h : base.FindsAt i k) (hsole : base.SoleAt i k) (k' : S.Key t) :
    FindsRow (S.field i) (base.data.erase k') ((base.unregister k').get i).data k := by
  cases hold : base.data.lookup k' with
  | none =>
    rw [erase_eq_self hold, unregister_of_none hold]
    exact h
  | some old =>
    rw [get_unregister_of_some hold]
    exact FindsRow.unregister h hsole hold

/-- A row is held without another row only if it was held. -/
theorem HoldsAt.of_unregister {base : BaseTable S t} {i : S.Field t} {k k' : S.Key t}
    {v : S.Value t}
    (h : HoldsRow (S.field i) (base.data.erase k') ((base.unregister k').get i).data k v) :
    base.HoldsAt i k v := by
  cases hold : base.data.lookup k' with
  | none =>
    rw [erase_eq_self hold, unregister_of_none hold] at h
    exact h
  | some old =>
    rw [get_unregister_of_some hold] at h
    exact HoldsRow.of_unregister hold h

end Table

/-- The effects on a table of the operations that do not unwind in a closure.
The rows at the keys `written`, as far as they exist, are written and entered
into the indexes, and no others. -/
inductive TableEffect (written : S.Key t → Prop) (base : BaseTable S t) :
    BaseTable S t → Prop where
  /-- Rows and indexes stay. -/
  | keep (owner : Option Owner) (hwritten : ∀ k, written k → base.data.lookup k = none) :
      TableEffect written base { base with owner }
  /-- One row is written. -/
  | put (owner : Option Owner) (k : S.Key t) (v : S.Value t)
      (hwritten : ∀ k', written k' ↔ k' = k) :
      TableEffect written base
        { owner, data := base.data.insert k v
          indexes := IndexStorage.onInsert (base.unregister k) k v }
  /-- One row is removed. -/
  | delete (k : S.Key t) (old : S.Value t) (hold : base.data.lookup k = some old)
      (hwritten : ∀ k', ¬ written k') :
      TableEffect written base
        { base with
          data := base.data.erase k
          indexes := IndexStorage.onRemove (S.Key t) base.indexes old }
  /-- All rows are removed. -/
  | clear (owner : Option Owner) (hwritten : ∀ k, written k) :
      TableEffect written base
        { owner, data := ∅
          indexes := IndexStorage.clear (S.Key t) (S.Value t) base.indexes }
  /-- The rows change and the indexes are rebuilt from them. -/
  | rebuild (data : FiniteMap (S.Key t) (S.Value t)) (l : List (S.Key t × S.Value t))
      (hl : Enumerates l data) (hwritten : ∀ k, written k) :
      TableEffect written base
        { base with
          data
          indexes :=
            IndexStorage.build (IndexStorage.clear (S.Key t) (S.Value t) base.indexes) l }

namespace TableEffect

variable {written : S.Key t → Prop} {base base' : BaseTable S t} {i : S.Field t}

/-- An operation that changes nothing. -/
theorem refl (hwritten : ∀ k, written k → base.data.lookup k = none) :
    TableEffect written base base :=
  .keep base.owner hwritten

/-- The effect depends on which rows are written. -/
theorem congr {written' : S.Key t → Prop} (h : TableEffect written base base')
    (hiff : ∀ k, written' k ↔ written k) : TableEffect written' base base' := by
  obtain rfl : written' = written := funext fun k => propext (hiff k)
  exact h

/-- Every effect keeps the index of a field sound, whatever rows collide. -/
theorem soundAt (h : TableEffect written base base') (hsound : base.SoundAt i) :
    base'.SoundAt i := by
  unfold Table.SoundAt
  cases h with
  | keep owner => exact hsound
  | put owner k v hwritten =>
    rw [Indexes.get_onInsert]
    exact (hsound.unregister k).register v
  | delete k old hold =>
    rw [Indexes.get_onRemove]
    exact SoundIndex.unregister hsound hold
  | clear owner hwritten =>
    rw [Indexes.get_clear]
    exact exactIndex_empty.sound
  | rebuild data l hl hwritten =>
    rw [Indexes.get_build, Indexes.get_clear]
    exact soundIndex_rebuild hl

/-- Every effect that leaves the rows distinct in a field keeps the index of
that field exact. -/
theorem exactAt (h : TableEffect written base base') (hexact : base.ExactAt i)
    (hdistinct : base'.DistinctAt i) : base'.ExactAt i := by
  unfold Table.ExactAt
  cases h with
  | keep owner => exact hexact
  | put owner k v hwritten =>
    rw [Indexes.get_onInsert]
    exact (hexact.unregister k).register hdistinct
  | delete k old hold =>
    rw [Indexes.get_onRemove]
    exact ExactIndex.unregister hexact hold
  | clear owner hwritten =>
    rw [Indexes.get_clear]
    exact exactIndex_empty
  | rebuild data l hl hwritten =>
    rw [Indexes.get_build, Indexes.get_clear]
    exact exactIndex_rebuild hl hdistinct

/-- A row that shares its field value with no other row, before and after, keeps
its entry. -/
theorem findsAt (h : TableEffect written base base') {k : S.Key t} (hfinds : base.FindsAt i k)
    (hsole : base.SoleAt i k) (hsole' : base'.SoleAt i k) : base'.FindsAt i k := by
  unfold Table.FindsAt
  cases h with
  | keep owner hwritten => exact hfinds
  | put owner k' v hwritten =>
    rw [Indexes.get_onInsert]
    exact (hfinds.unregister hsole k').register hsole'
  | delete k' old hold hwritten =>
    rw [Indexes.get_onRemove]
    exact FindsRow.unregister hfinds hsole hold
  | clear owner hwritten =>
    rw [Indexes.get_clear]
    exact exactIndex_empty.findsRow k
  | rebuild data l hl hwritten =>
    rw [Indexes.get_build, Indexes.get_clear]
    exact findsRow_rebuild hl hsole'

/-- A row that is written while it shares its field value with no other row has
its entry afterwards. -/
theorem findsAt_of_written (h : TableEffect written base base') {k : S.Key t} (hk : written k)
    (hsole' : base'.SoleAt i k) : base'.FindsAt i k := by
  unfold Table.FindsAt
  cases h with
  | keep owner hwritten => exact findsRow_of_none (hwritten k hk)
  | put owner k' v hwritten =>
    obtain rfl := (hwritten k).mp hk
    rw [Indexes.get_onInsert]
    exact findsRow_register_self k v
  | delete k' old hold hwritten => exact absurd hk (hwritten k)
  | clear owner hwritten =>
    rw [Indexes.get_clear]
    exact exactIndex_empty.findsRow k
  | rebuild data l hl hwritten =>
    rw [Indexes.get_build, Indexes.get_clear]
    exact findsRow_rebuild hl hsole'

/-- A row that is not written is held afterwards only if it was held before. -/
theorem holdsAt_of_not_written (h : TableEffect written base base') {k : S.Key t}
    {v : S.Value t} (hk : ¬ written k) (hholds : base'.HoldsAt i k v) : base.HoldsAt i k v := by
  unfold Table.HoldsAt at hholds
  cases h with
  | keep owner hwritten => exact hholds
  | put owner k' v' hwritten =>
    rw [Indexes.get_onInsert] at hholds
    have hne : k ≠ k' := fun heq => hk ((hwritten k).mpr heq)
    exact Table.HoldsAt.of_unregister (hholds.of_register hne)
  | delete k' old hold hwritten =>
    rw [Indexes.get_onRemove] at hholds
    exact HoldsRow.of_unregister hold hholds
  | clear owner hwritten => exact absurd (hwritten k) hk
  | rebuild data l hl hwritten => exact absurd (hwritten k) hk

end TableEffect

/-! ## The effects of the calls -/

/-- The rows that a call writes if its owner is accepted. The row that a key of
the handle stands for is given by `find`. -/
def Call.Written {Q W : Type} [DecidableEq Q] (debug : Bool) (owner : Owner)
    (base : BaseTable S t) (find : Q → Option (S.Key t))
    (c : Call Q W (S.Key t) (S.Value t) ρ) (k : S.Key t) : Prop :=
  base.Accepts debug owner ∧ c.WritesRow find k

variable {debug : Bool} {owner : Owner} {base : BaseTable S t}

/-- The effect of an accepted `mutate` that does not unwind in its closure. -/
theorem TabularOpsMut.mutate_effect {written : S.Key t → Prop} (h : base.Accepts debug owner)
    {key : S.Key t} (hwritten : ∀ k, written k ↔ k = key) {f : MutFn (S.Value t) ρ}
    (hreturns : (mutate debug base key f owner).1 ≠ .error .closure) :
    TableEffect written base (mutate debug base key f owner).2 := by
  cases hrow : base.data.lookup key with
  | none =>
    rw [mutate_of_none h f hrow]
    refine .refl fun k hk => ?_
    rw [(hwritten k).mp hk]
    exact hrow
  | some value =>
    cases hf : (f value).2 with
    | none =>
      rw [mutate_of_unwind h hrow hf] at hreturns
      exact absurd rfl hreturns
    | some result =>
      rw [mutate_of_return h hrow hf]
      exact .put base.owner key (f value).1 hwritten

/-- The effect of an accepted `remove`. -/
theorem TabularOpsMut.remove_effect {written : S.Key t → Prop} (h : base.Accepts debug owner)
    (key : S.Key t) (hwritten : ∀ k, ¬ written k) :
    TableEffect written base (remove debug base key owner).2 := by
  cases hrow : base.data.lookup key with
  | none =>
    rw [remove_of_none h hrow]
    exact .refl fun k hk => absurd hk (hwritten k)
  | some value =>
    rw [remove_of_some h hrow]
    exact .delete key value hrow hwritten

/-- `init` keeps rows and indexes. -/
theorem Table.trySetOwner_effect {written : S.Key t → Prop} (hwritten : ∀ k, ¬ written k) :
    TableEffect written base (base.trySetOwner owner).2 := by
  have hkeep : ∀ k, written k → base.data.lookup k = none := fun k hk => absurd hk (hwritten k)
  unfold Table.trySetOwner
  split
  · exact .refl hkeep
  · exact .keep (some owner) hkeep

/-- A call through a table handle that does not unwind in a closure has one of the five
effects. -/
theorem TabularOps.exec_effect {c : Call (S.Key t) (S.Value t) (S.Key t) (S.Value t) ρ}
    (hreturns : (TabularOps.exec debug owner base c).1 ≠ .error .closure) :
    TableEffect (c.Written debug owner base some) base
      (TabularOps.exec debug owner base c).2 := by
  rcases base.accepts_or_refuses debug owner with h | ⟨prevOwner, h⟩
  · cases c with
    | init => exact Table.trySetOwner_effect fun k hk => hk.2
    | clear =>
      simp only [TabularOps.exec, TabularOpsMut.clear_of_accepts h]
      exact .clear _ fun _ => ⟨h, trivial⟩
    | insert key value =>
      simp only [TabularOps.exec, TabularOpsMut.insert_of_accepts h]
      exact .put _ key value fun k => ⟨fun hk => hk.2.symm, fun hk => ⟨h, hk.symm⟩⟩
    | mutate key f =>
      refine TabularOpsMut.mutate_effect h (fun k => ?_) hreturns
      exact ⟨fun hk => (Option.some.inj hk.2).symm, fun hk => ⟨h, congrArg some hk.symm⟩⟩
    | remove key => exact TabularOpsMut.remove_effect h key fun k hk => hk.2
    | forEachMut order rebuild f s =>
      change (TabularOpsMut.forEachMut debug order rebuild base f s owner).1 ≠ _ at hreturns
      change TableEffect _ base (TabularOpsMut.forEachMut debug order rebuild base f s owner).2
      rcases hloop : TabularOpsMut.forEachLoop f (order.list base.data) s base.data with
        ⟨_ | s', data⟩
      · rw [TabularOpsMut.forEachMut_of_unwind h hloop] at hreturns
        exact absurd rfl hreturns
      · rw [TabularOpsMut.forEachMut_of_return h hloop]
        exact .rebuild data (rebuild.list data) (rebuild.enumerates data) fun _ => ⟨h, trivial⟩
    | _ => exact .refl fun k hk => hk.2.elim
  · rw [TabularOps.exec_of_refuses h]
    exact .refl fun k hk => absurd hk.1 h.not_accepts

/-- A call through an index handle that does not unwind in a closure has one of the five
effects, if the index is sound: the entry that `remove` takes out first then names a
row. -/
theorem IndexedOps.exec_effect {i : S.Field t} (hsound : base.SoundAt i)
    {c : Call (S.FieldTy t i) (S.Key t) (S.Key t) (S.Value t) ρ}
    (hreturns : (IndexedOps.exec debug i owner base c).1 ≠ .error .closure) :
    TableEffect (c.Written debug owner base fun q => (base.indexes.get i).data.lookup q) base
      (IndexedOps.exec debug i owner base c).2 := by
  rcases base.accepts_or_refuses debug owner with h | ⟨prevOwner, h⟩
  · cases c with
    | init => exact Table.trySetOwner_effect fun k hk => hk.2
    | clear =>
      simp only [IndexedOps.exec, IndexedOpsMut.clear_eq, TabularOpsMut.clear_of_accepts h]
      exact .clear _ fun _ => ⟨h, trivial⟩
    | insert key value =>
      simp only [IndexedOps.exec, IndexedOpsMut.insert_eq, TabularOpsMut.insert_of_accepts h]
      exact .put _ key value fun k => ⟨fun hk => hk.2.symm, fun hk => ⟨h, hk.symm⟩⟩
    | mutate key f =>
      simp only [IndexedOps.exec] at hreturns ⊢
      cases hentry : (base.indexes.get i).data.lookup key with
      | none =>
        rw [IndexedOpsMut.mutate_of_none f hentry]
        refine .refl fun k hk => ?_
        have hfound : (base.indexes.get i).data.lookup key = some k := hk.2
        rw [hentry] at hfound
        cases hfound
      | some baseKey =>
        rw [IndexedOpsMut.mutate_of_some f hentry] at hreturns ⊢
        refine TabularOpsMut.mutate_effect h (fun k => ?_) hreturns
        constructor
        · intro hk
          have hfound : (base.indexes.get i).data.lookup key = some k := hk.2
          rw [hentry] at hfound
          exact (Option.some.inj hfound).symm
        · rintro rfl
          exact ⟨h, hentry⟩
    | remove key =>
      simp only [IndexedOps.exec]
      cases hentry : (base.indexes.get i).data.lookup key with
      | none =>
        rw [IndexedOpsMut.remove_of_none h hentry]
        exact .refl fun k hk => hk.2.elim
      | some baseKey =>
        obtain ⟨value, hrow, rfl⟩ := hsound key baseKey hentry
        rw [IndexedOpsMut.remove_of_some h hentry hrow]
        exact TabularOpsMut.remove_effect h baseKey fun k hk => hk.2
    | forEachMut order rebuild f s =>
      change (IndexedOpsMut.forEachMut debug i order rebuild base f s owner).1 ≠ _ at hreturns
      change TableEffect _ base (IndexedOpsMut.forEachMut debug i order rebuild base f s owner).2
      rcases hloop : IndexedOpsMut.forEachLoop f (order.list (base.indexes.get i).data) s base.data
        with ⟨_ | s', data⟩
      · rw [IndexedOpsMut.forEachMut_of_unwind h hloop] at hreturns
        exact absurd rfl hreturns
      · rw [IndexedOpsMut.forEachMut_of_return h hloop]
        exact .rebuild data (rebuild.list data) (rebuild.enumerates data) fun _ => ⟨h, trivial⟩
    | _ => exact .refl fun k hk => hk.2.elim
  · rw [IndexedOps.exec_of_refuses h]
    exact .refl fun k hk => absurd hk.1 h.not_accepts

/-! ## The effects of the requests -/

/-- Every index of every table is sound. -/
def Storage.Sound (s : Storage S G) : Prop := ∀ t i, (s.tables t).SoundAt i

/-- The indexes of a new storage are sound. -/
theorem Storage.new_sound : (Storage.new : Storage S G).Sound :=
  fun _ _ => exactIndex_empty.sound

/-- The rows of table `t` that a request writes. -/
def Request.Written (debug : Bool) (r : Request S G ρ) (s : Storage S G) (t : S.Name)
    (k : S.Key t) : Prop :=
  match r.call with
  | .table t' c => ∃ h : t = t', c.Written debug r.owner (s.tables t') some (h ▸ k)
  | .tableBy t' i c => ∃ h : t = t',
      c.Written debug r.owner (s.tables t')
        (fun q => ((s.tables t').indexes.get i).data.lookup q) (h ▸ k)
  | _ => False

/-- A request writes rows of the table that it is made on. -/
theorem Request.Written.onTable {r : Request S G ρ} {s : Storage S G} {k : S.Key t}
    (h : r.Written debug s t k) : r.call.OnTable t := by
  obtain ⟨owner, call⟩ := r
  cases call with
  | table t' c =>
    obtain ⟨ht, _⟩ := h
    exact ht.symm
  | tableBy t' i c =>
    obtain ⟨ht, _⟩ := h
    exact ht.symm
  | indexTable t' i c => exact h.elim
  | singleton m c => exact h.elim

/-- A request without closures that unwind does not unwind in a closure of the table. -/
theorem TableStep.ne_closure {r : Request S G ρ} {base base' : BaseTable S t}
    {result : Except Panic r.call.Ret} (hstep : TableStep debug t base r result base')
    (hr : r.call.NonPanicking) (ht : r.call.OnTable t) : result ≠ .error .closure := by
  cases hstep with
  | table owner c => exact TabularOps.exec_ne_closure hr
  | tableBy owner i c => exact IndexedOps.exec_ne_closure hr
  | indexTable owner i c => exact ht.elim
  | other r hother result => exact absurd ht hother

/-- A request that writes no index table through its own handle, and that does not unwind
in a closure of the table, has one of the five effects on it. -/
theorem TableStep.effect {r : Request S G ρ} {s : Storage S G} {result : Except Panic r.call.Ret}
    {base : BaseTable S t} (hstep : TableStep debug t (s.tables t) r result base)
    (hreturns : r.call.OnTable t → result ≠ .error .closure)
    (hdirect : ¬ r.call.WritesIndexTable) (hs : s.Sound) :
    TableEffect (r.Written debug s t) (s.tables t) base := by
  cases hstep with
  | table owner c =>
    have heffect : TableEffect (c.Written debug owner (s.tables t) some) (s.tables t)
        (TabularOps.exec debug owner (s.tables t) c).2 :=
      TabularOps.exec_effect (hreturns rfl)
    exact heffect.congr fun k => ⟨fun hk => hk.2, fun hk => ⟨rfl, hk⟩⟩
  | tableBy owner i c =>
    have heffect : TableEffect (c.Written debug owner (s.tables t)
        fun q => ((s.tables t).indexes.get i).data.lookup q) (s.tables t)
        (IndexedOps.exec debug i owner (s.tables t) c).2 :=
      IndexedOps.exec_effect (hs t i) (hreturns rfl)
    exact heffect.congr fun k => ⟨fun hk => hk.2, fun hk => ⟨rfl, hk⟩⟩
  | indexTable owner i c =>
    have hread : c.isRead = true := by simpa [StoreCall.WritesIndexTable] using hdirect
    rw [TabularOps.set_exec_of_isRead hread]
    exact .refl fun k hk => hk.elim
  | other r hother result => exact .refl fun k hk => absurd hk.onTable hother

/-- A maintained request has one of the five effects on each table. -/
theorem Request.exec_effect {r : Request S G ρ} (hr : r.Maintained) {s : Storage S G}
    (hs : s.Sound) (t : S.Name) :
    TableEffect (r.Written debug s t) (s.tables t) ((r.exec debug s).2.tables t) :=
  (r.tableStep debug s t).effect ((r.tableStep debug s t).ne_closure hr.1) hr.2 hs

/-- A maintained request keeps every index sound. -/
theorem Request.exec_sound {r : Request S G ρ} (hr : r.Maintained) {s : Storage S G}
    (hs : s.Sound) : (r.exec debug s).2.Sound :=
  fun t i => (r.exec_effect hr hs t).soundAt (hs t i)

end TsKvstore
