import TsKvstore.Store

/-!
# Specifications of the mutating operations

Each mutating operation has one equation for each outcome: a refused caller, a
missing row, and a row that is found. Through an index handle `init`, `clear`
and `insert` are the operations of the table, and `mutate` is the table's
`mutate` at the base key that the index holds. So a call of an accepted owner returns
or unwinds in its closure, and a call of a refused owner fails if it is one for the
owner. A request acts on a table through one of three kinds of handle, or on other
data.
-/

namespace TsKvstore

open FiniteMaps

namespace Table

variable {K V I : Type} [DecidableEq K] [IndexStorage K V I]

/-- The indexes after the row at `k`, if there is one, has been taken out. -/
def unregister (table : Table K V I) (k : K) : I :=
  match table.data.lookup k with
  | some oldValue => IndexStorage.onRemove K table.indexes oldValue
  | none => table.indexes

end Table

/-- A closure's result as the result of the operation that called it. -/
def closureResult {ρ : Type} (result : Option ρ) : Except Panic (Option ρ) :=
  match result with
  | some result => .ok (some result)
  | none => .error .closure

namespace TabularOpsMut

variable {K V I ρ : Type} [DecidableEq K] [IndexStorage K V I]
  {debug : Bool} {table : Table K V I} {prevOwner owner : Owner}

omit [DecidableEq K] in
/-- `clear` empties the table and its indexes for an accepted caller, who claims it. -/
theorem clear_of_accepts (h : table.Accepts debug owner) :
    clear debug table owner =
      (.ok (),
        { table.claimed owner with
          data := ∅, indexes := IndexStorage.clear K V table.indexes }) := by
  unfold clear
  rw [h.assertOrSetOwner]
  rfl

omit [DecidableEq K] in
/-- `clear` of a refused caller fails. -/
theorem clear_of_refuses (h : table.Refuses debug prevOwner owner) :
    clear debug table owner = (.error (ownershipViolation prevOwner owner), table) := by
  unfold clear
  rw [h.assertOrSetOwner]

/-- `insert` writes the row and its entries for an accepted caller, who claims the table. -/
theorem insert_of_accepts (h : table.Accepts debug owner) (key : K) (value : V) :
    insert debug table key value owner =
      (.ok (table.data.lookup key),
        { table.claimed owner with
          data := table.data.insert key value
          indexes := IndexStorage.onInsert (table.unregister key) key value }) := by
  unfold insert
  rw [h.assertOrSetOwner]
  rfl

/-- `insert` of a refused caller fails. -/
theorem insert_of_refuses (h : table.Refuses debug prevOwner owner) (key : K) (value : V) :
    insert debug table key value owner = (.error (ownershipViolation prevOwner owner), table) := by
  unfold insert
  rw [h.assertOrSetOwner]

/-- `mutate` of a refused caller fails. -/
theorem mutate_of_refuses (h : table.Refuses debug prevOwner owner) (key : K) (f : MutFn V ρ) :
    mutate debug table key f owner = (.error (ownershipViolation prevOwner owner), table) := by
  unfold mutate
  rw [h.assertOwner]

/-- `mutate` of a missing row does nothing. -/
theorem mutate_of_none (h : table.Accepts debug owner) {key : K} (f : MutFn V ρ)
    (hrow : table.data.lookup key = none) : mutate debug table key f owner = (.ok none, table) := by
  unfold mutate
  rw [h.assertOwner]
  dsimp only
  rw [hrow]

/-- The closure returns: the row is taken out of the indexes under its old
value and entered under its new value. -/
theorem mutate_of_return (h : table.Accepts debug owner) {key : K} {f : MutFn V ρ} {value : V}
    {result : ρ} (hrow : table.data.lookup key = some value) (hf : (f value).2 = some result) :
    mutate debug table key f owner =
      (.ok (some result),
        { table with
          data := table.data.insert key (f value).1
          indexes := IndexStorage.onInsert (table.unregister key) key (f value).1 }) := by
  unfold mutate Table.unregister
  rw [h.assertOwner]
  dsimp only
  rw [hrow]
  dsimp only
  rw [← Prod.mk.eta (p := f value), hf]

/-- The closure unwinds: the row keeps what the closure wrote and stays out of
the indexes. -/
theorem mutate_of_unwind (h : table.Accepts debug owner) {key : K} {f : MutFn V ρ} {value : V}
    (hrow : table.data.lookup key = some value) (hf : (f value).2 = none) :
    mutate debug table key f owner =
      (.error .closure,
        { table with
          data := table.data.insert key (f value).1, indexes := table.unregister key }) := by
  unfold mutate Table.unregister
  rw [h.assertOwner]
  dsimp only
  rw [hrow]
  dsimp only
  rw [← Prod.mk.eta (p := f value), hf]

/-- The result and the rows after `mutate` of a row that is found. -/
theorem mutate_row (h : table.Accepts debug owner) {key : K} {value : V}
    (hrow : table.data.lookup key = some value) (f : MutFn V ρ) :
    (mutate debug table key f owner).1 = closureResult (f value).2 ∧
      (mutate debug table key f owner).2.data = table.data.insert key (f value).1 := by
  cases hf : (f value).2 with
  | none =>
    rw [mutate_of_unwind h hrow hf]
    exact ⟨rfl, rfl⟩
  | some result =>
    rw [mutate_of_return h hrow hf]
    exact ⟨rfl, rfl⟩

/-- `remove` of a refused caller fails. -/
theorem remove_of_refuses (h : table.Refuses debug prevOwner owner) (key : K) :
    remove debug table key owner = (.error (ownershipViolation prevOwner owner), table) := by
  unfold remove
  rw [h.assertOwner]

/-- `remove` of a missing row does nothing. -/
theorem remove_of_none (h : table.Accepts debug owner) {key : K}
    (hrow : table.data.lookup key = none) : remove debug table key owner = (.ok none, table) := by
  unfold remove
  rw [h.assertOwner]
  dsimp only
  rw [hrow]

/-- `remove` takes the row and its entries out. -/
theorem remove_of_some (h : table.Accepts debug owner) {key : K} {value : V}
    (hrow : table.data.lookup key = some value) :
    remove debug table key owner =
      (.ok (some value),
        { table with
          data := table.data.erase key
          indexes := IndexStorage.onRemove K table.indexes value }) := by
  unfold remove
  rw [h.assertOwner]
  dsimp only
  rw [hrow]

/-- `for_each_mut` of a refused caller fails. -/
theorem forEachMut_of_refuses (h : table.Refuses debug prevOwner owner)
    (order rebuild : IterOrder K V) (f : EachMutFn K V ρ) (s : ρ) :
    forEachMut debug order rebuild table f s owner =
      (.error (ownershipViolation prevOwner owner), table) := by
  unfold forEachMut
  rw [h.assertOwner]

/-- The closure returns for every row: the indexes are rebuilt. -/
theorem forEachMut_of_return (h : table.Accepts debug owner) {order rebuild : IterOrder K V}
    {f : EachMutFn K V ρ} {s s' : ρ} {data : FiniteMap K V}
    (hloop : forEachLoop f (order.list table.data) s table.data = (some s', data)) :
    forEachMut debug order rebuild table f s owner =
      (.ok s',
        { table with
          data
          indexes :=
            IndexStorage.build (IndexStorage.clear K V table.indexes) (rebuild.list data) }) := by
  unfold forEachMut
  rw [h.assertOwner]
  dsimp only
  rw [hloop]

/-- The closure unwinds at some row: the indexes stay as they were. -/
theorem forEachMut_of_unwind (h : table.Accepts debug owner) {order rebuild : IterOrder K V}
    {f : EachMutFn K V ρ} {s : ρ} {data : FiniteMap K V}
    (hloop : forEachLoop f (order.list table.data) s table.data = (none, data)) :
    forEachMut debug order rebuild table f s owner = (.error .closure, { table with data }) := by
  unfold forEachMut
  rw [h.assertOwner]
  dsimp only
  rw [hloop]

omit [IndexStorage K V I] in
/-- A closure that never unwinds is called for every row. -/
theorem forEachLoop_returns {f : EachMutFn K V ρ} (hf : ∀ s k v, (f s k v).2 ≠ none)
    (l : List (K × V)) (s : ρ) (data : FiniteMap K V) :
    ∃ s' data', forEachLoop f l s data = (some s', data') := by
  induction l generalizing s data with
  | nil => exact ⟨s, data, rfl⟩
  | cons kv rest ih =>
    obtain ⟨s', hs'⟩ := Option.ne_none_iff_exists'.mp (hf s kv.1 kv.2)
    obtain ⟨s'', data', hrest⟩ := ih s' (data.insert kv.1 (f s kv.1 kv.2).1)
    refine ⟨s'', data', ?_⟩
    rw [forEachLoop, ← Prod.mk.eta (p := f s kv.1 kv.2), hs']
    exact hrest

end TabularOpsMut

/-! ## Through an index handle -/

namespace IndexedOpsMut

variable {S : Schema} {t : S.Name} {ρ : Type} {debug : Bool} {base : BaseTable S t}
  {i : S.Field t} {prevOwner owner : Owner}

/-- `clear` through an index is that of the table. -/
theorem clear_eq : clear debug base owner = TabularOpsMut.clear debug base owner := by
  unfold clear TabularOpsMut.clear
  rcases base.assertOrSetOwner debug owner with ⟨_ | _, _⟩ <;> rfl

/-- `insert` through an index is that of the table. -/
theorem insert_eq (key : S.Key t) (value : S.Value t) :
    insert debug base key value owner = TabularOpsMut.insert debug base key value owner := by
  unfold insert TabularOpsMut.insert
  rcases base.assertOrSetOwner debug owner with ⟨_ | _, base'⟩
  · rfl
  · dsimp only
    cases base'.data.lookup key <;> rfl

/-- A key without index entry: the ownership is not compared. -/
theorem mutate_of_none {key : S.FieldTy t i} (f : MutFn (S.Value t) ρ)
    (hentry : (base.indexes.get i).data.lookup key = none) :
    mutate debug i base key f owner = (.ok none, base) := by
  unfold mutate
  rw [hentry]

/-- A key with an index entry: the table's `mutate` at the base key. -/
theorem mutate_of_some {key : S.FieldTy t i} (f : MutFn (S.Value t) ρ) {baseKey : S.Key t}
    (hentry : (base.indexes.get i).data.lookup key = some baseKey) :
    mutate debug i base key f owner = TabularOpsMut.mutate debug base baseKey f owner := by
  unfold mutate TabularOpsMut.mutate
  rw [hentry]
  dsimp only
  cases base.assertOwner debug owner with
  | error p => rfl
  | ok _ =>
    dsimp only
    cases base.data.lookup baseKey with
    | none => rfl
    | some value =>
      dsimp only
      rcases f value with ⟨_, _ | _⟩ <;> rfl

/-- `remove` of a refused caller fails through an index too. -/
theorem remove_of_refuses (h : base.Refuses debug prevOwner owner) (key : S.FieldTy t i) :
    remove debug i base key owner = (.error (ownershipViolation prevOwner owner), base) := by
  unfold remove
  rw [h.assertOwner]

/-- `remove` with a key that the index does not hold does nothing. -/
theorem remove_of_none (h : base.Accepts debug owner) {key : S.FieldTy t i}
    (hentry : (base.indexes.get i).data.lookup key = none) :
    remove debug i base key owner = (.ok none, base) := by
  unfold remove
  rw [h.assertOwner]
  dsimp only
  rw [hentry]

/-- A key whose entry names no row: the entry goes although nothing is found. -/
theorem remove_of_dangling (h : base.Accepts debug owner) {key : S.FieldTy t i}
    {baseKey : S.Key t} (hentry : (base.indexes.get i).data.lookup key = some baseKey)
    (hrow : base.data.lookup baseKey = none) :
    remove debug i base key owner =
      (.ok none,
        { base with
          indexes := base.indexes.set i
            { base.indexes.get i with data := (base.indexes.get i).data.erase key } }) := by
  unfold remove
  rw [h.assertOwner]
  dsimp only
  rw [hentry]
  dsimp only
  rw [hrow]

/-- A key whose entry names a row: first the entry goes, then the row. -/
theorem remove_of_found (h : base.Accepts debug owner) {key : S.FieldTy t i}
    {baseKey : S.Key t} {value : S.Value t}
    (hentry : (base.indexes.get i).data.lookup key = some baseKey)
    (hrow : base.data.lookup baseKey = some value) :
    remove debug i base key owner =
      (.ok (some value),
        { base with
          data := base.data.erase baseKey
          indexes := IndexStorage.onRemove (S.Key t)
            (base.indexes.set i
              { base.indexes.get i with data := (base.indexes.get i).data.erase key })
            value }) := by
  unfold remove
  rw [h.assertOwner]
  dsimp only
  rw [hentry]
  dsimp only
  rw [hrow]

/-- A key whose entry names a row with that field value: the table's `remove`
at the base key, although the entry itself goes first. -/
theorem remove_of_some (h : base.Accepts debug owner) {baseKey : S.Key t} {value : S.Value t}
    (hentry : (base.indexes.get i).data.lookup (S.field i value) = some baseKey)
    (hrow : base.data.lookup baseKey = some value) :
    remove debug i base (S.field i value) owner =
      TabularOpsMut.remove debug base baseKey owner := by
  have hindexes : IndexStorage.onRemove (S.Key t)
      (base.indexes.set i
        { base.indexes.get i with
          data := (base.indexes.get i).data.erase (S.field i value) }) value =
      IndexStorage.onRemove (S.Key t) base.indexes value := by
    ext1 j
    by_cases hj : j = i
    · subst hj
      simp only [Indexes.get_onRemove, Indexes.get_set_self]
      rw [erase_eq_self (Finmap.lookup_erase _ _)]
    · simp only [Indexes.get_onRemove, Indexes.get_set_of_ne _ _ hj]
  rw [TabularOpsMut.remove_of_some h hrow, remove_of_found h hentry hrow, hindexes]

/-- `for_each_mut` of a refused caller fails through an index too. -/
theorem forEachMut_of_refuses (h : base.Refuses debug prevOwner owner)
    (order : IterOrder (S.FieldTy t i) (S.Key t)) (rebuild : IterOrder (S.Key t) (S.Value t))
    (f : EachMutFn (S.FieldTy t i) (S.Value t) ρ) (s : ρ) :
    forEachMut debug i order rebuild base f s owner =
      (.error (ownershipViolation prevOwner owner), base) := by
  unfold forEachMut
  rw [h.assertOwner]

/-- The closure returns for every visited row: the indexes are rebuilt. -/
theorem forEachMut_of_return (h : base.Accepts debug owner)
    {order : IterOrder (S.FieldTy t i) (S.Key t)} {rebuild : IterOrder (S.Key t) (S.Value t)}
    {f : EachMutFn (S.FieldTy t i) (S.Value t) ρ} {s s' : ρ}
    {data : FiniteMap (S.Key t) (S.Value t)}
    (hloop : forEachLoop f (order.list (base.indexes.get i).data) s base.data = (some s', data)) :
    forEachMut debug i order rebuild base f s owner =
      (.ok s',
        { base with
          data
          indexes :=
            IndexStorage.build (IndexStorage.clear (S.Key t) (S.Value t) base.indexes)
              (rebuild.list data) }) := by
  unfold forEachMut
  rw [h.assertOwner]
  dsimp only
  rw [hloop]

/-- The closure unwinds at some row: the indexes stay as they were. -/
theorem forEachMut_of_unwind (h : base.Accepts debug owner)
    {order : IterOrder (S.FieldTy t i) (S.Key t)} {rebuild : IterOrder (S.Key t) (S.Value t)}
    {f : EachMutFn (S.FieldTy t i) (S.Value t) ρ} {s : ρ}
    {data : FiniteMap (S.Key t) (S.Value t)}
    (hloop : forEachLoop f (order.list (base.indexes.get i).data) s base.data = (none, data)) :
    forEachMut debug i order rebuild base f s owner = (.error .closure, { base with data }) := by
  unfold forEachMut
  rw [h.assertOwner]
  dsimp only
  rw [hloop]

/-- A closure that never unwinds is called for every entry with a row. -/
theorem forEachLoop_returns {Q : Type} {f : EachMutFn Q (S.Value t) ρ}
    (hf : ∀ s k v, (f s k v).2 ≠ none) (l : List (Q × S.Key t)) (s : ρ)
    (data : FiniteMap (S.Key t) (S.Value t)) :
    ∃ s' data', forEachLoop f l s data = (some s', data') := by
  induction l generalizing s data with
  | nil => exact ⟨s, data, rfl⟩
  | cons e rest ih =>
    rw [forEachLoop]
    cases hrow : data.lookup e.2 with
    | none => exact ih s data
    | some v =>
      obtain ⟨s', hs'⟩ := Option.ne_none_iff_exists'.mp (hf s e.1 v)
      obtain ⟨s'', data', hrest⟩ := ih s' (data.insert e.2 (f s e.1 v).1)
      refine ⟨s'', data', ?_⟩
      dsimp only
      rw [← Prod.mk.eta (p := f s e.1 v), hs']
      exact hrest

end IndexedOpsMut

/-! ## Calls that change nothing -/

section

variable {K V I ρ : Type} [DecidableEq K] [IndexStorage K V I] {debug : Bool} {owner : Owner}

/-- A read call through a table handle changes nothing. -/
theorem TabularOps.exec_of_isRead {table : Table K V I} {c : Call K V K V ρ}
    (hc : c.isRead = true) : (TabularOps.exec debug owner table c).2 = table := by
  cases c with
  | init | clear | insert _ _ | mutate _ _ | remove _ | forEachMut _ _ _ _ => cases hc
  | _ => rfl

/-- A call of a refused owner through a table handle changes nothing. -/
theorem TabularOps.exec_of_refuses {table : Table K V I} {prevOwner : Owner}
    (h : table.Refuses debug prevOwner owner) (c : Call K V K V ρ) :
    (TabularOps.exec debug owner table c).2 = table := by
  cases c with
  | init =>
    simp only [TabularOps.exec, TabularOpsMut.init, Table.trySetOwner]
    rw [h.2.1]
  | clear => simp only [TabularOps.exec, TabularOpsMut.clear_of_refuses h]
  | insert key value => simp only [TabularOps.exec, TabularOpsMut.insert_of_refuses h]
  | mutate key f => simp only [TabularOps.exec, TabularOpsMut.mutate_of_refuses h]
  | remove key => simp only [TabularOps.exec, TabularOpsMut.remove_of_refuses h]
  | forEachMut order rebuild f s =>
    exact congrArg Prod.snd (TabularOpsMut.forEachMut_of_refuses h order rebuild f s)
  | _ => rfl

variable {S : Schema} {t : S.Name} {i : S.Field t} {base : BaseTable S t}

/-- A read call through an index handle changes nothing. -/
theorem IndexedOps.exec_of_isRead {c : Call (S.FieldTy t i) (S.Key t) (S.Key t) (S.Value t) ρ}
    (hc : c.isRead = true) : (IndexedOps.exec debug i owner base c).2 = base := by
  cases c with
  | init | clear | insert _ _ | mutate _ _ | remove _ | forEachMut _ _ _ _ => cases hc
  | _ => rfl

/-- A call of a refused owner through an index handle changes nothing. -/
theorem IndexedOps.exec_of_refuses {prevOwner : Owner} (h : base.Refuses debug prevOwner owner)
    (c : Call (S.FieldTy t i) (S.Key t) (S.Key t) (S.Value t) ρ) :
    (IndexedOps.exec debug i owner base c).2 = base := by
  cases c with
  | init =>
    simp only [IndexedOps.exec, IndexedOpsMut.init, Table.trySetOwner]
    rw [h.2.1]
  | clear =>
    simp only [IndexedOps.exec, IndexedOpsMut.clear_eq, TabularOpsMut.clear_of_refuses h]
  | insert key value =>
    simp only [IndexedOps.exec, IndexedOpsMut.insert_eq, TabularOpsMut.insert_of_refuses h]
  | mutate key f =>
    simp only [IndexedOps.exec]
    cases hentry : (base.indexes.get i).data.lookup key with
    | none => rw [IndexedOpsMut.mutate_of_none f hentry]
    | some baseKey =>
      rw [IndexedOpsMut.mutate_of_some f hentry, TabularOpsMut.mutate_of_refuses h]
  | remove key => simp only [IndexedOps.exec, IndexedOpsMut.remove_of_refuses h]
  | forEachMut order rebuild f s =>
    exact congrArg Prod.snd (IndexedOpsMut.forEachMut_of_refuses h order rebuild f s)
  | _ => rfl

end

/-- A read call changes nothing. -/
theorem StoreCall.exec_of_isRead {S : Schema} {G : Singletons} {ρ : Type} {debug : Bool}
    {owner : Owner} {s : Storage S G} {call : StoreCall S G ρ} (hcall : call.isRead = true) :
    (call.exec debug owner s).2 = s := by
  cases call with
  | table t c =>
    simp only [StoreCall.exec]
    rw [TabularOps.exec_of_isRead hcall, Storage.setTable_self]
  | tableBy t i c =>
    simp only [StoreCall.exec]
    rw [IndexedOps.exec_of_isRead hcall, Storage.setTable_self]
  | indexTable t i c =>
    simp only [StoreCall.exec]
    rw [TabularOps.exec_of_isRead hcall, Storage.setTable_set_get]
  | singleton m c =>
    cases c with
    | get | getArc _ _ | with' _ => rfl
    | insert _ | mutate _ _ | remove | clear => cases hcall

/-! ## The results of calls -/

section

variable {K V I ρ : Type} [DecidableEq K] [IndexStorage K V I] {debug : Bool}
  {prevOwner owner : Owner}

/-- A call of an accepted owner through a table handle returns, or unwinds in a
closure. -/
theorem TabularOps.result_of_accepts {table : Table K V I} (h : table.Accepts debug owner)
    (c : Call K V K V ρ) :
    (∃ r, (TabularOps.exec debug owner table c).1 = .ok r) ∨
      (TabularOps.exec debug owner table c).1 = .error .closure ∧ ¬ c.NonPanicking := by
  cases c with
  | clear => exact Or.inl ⟨(), congrArg Prod.fst (TabularOpsMut.clear_of_accepts h)⟩
  | insert key value =>
    exact Or.inl ⟨_, congrArg Prod.fst (TabularOpsMut.insert_of_accepts h key value)⟩
  | mutate key f =>
    cases hrow : table.data.lookup key with
    | none => exact Or.inl ⟨none, congrArg Prod.fst (TabularOpsMut.mutate_of_none h f hrow)⟩
    | some value =>
      cases hf : (f value).2 with
      | none =>
        have hresult := TabularOpsMut.mutate_of_unwind h hrow hf
        exact Or.inr ⟨congrArg Prod.fst hresult, fun hc => hc value hf⟩
      | some result =>
        exact Or.inl ⟨some result, congrArg Prod.fst (TabularOpsMut.mutate_of_return h hrow hf)⟩
  | remove key =>
    cases hrow : table.data.lookup key with
    | none => exact Or.inl ⟨none, congrArg Prod.fst (TabularOpsMut.remove_of_none h hrow)⟩
    | some value =>
      exact Or.inl ⟨some value, congrArg Prod.fst (TabularOpsMut.remove_of_some h hrow)⟩
  | forEachMut order rebuild f s =>
    rcases hloop : TabularOpsMut.forEachLoop f (order.list table.data) s table.data with
      ⟨_ | s', data⟩
    · refine Or.inr ⟨congrArg Prod.fst (TabularOpsMut.forEachMut_of_unwind h hloop), fun hc => ?_⟩
      obtain ⟨s', data', hreturns⟩ :=
        TabularOpsMut.forEachLoop_returns hc (order.list table.data) s table.data
      rw [hloop] at hreturns
      cases hreturns
    · exact Or.inl ⟨s', congrArg Prod.fst (TabularOpsMut.forEachMut_of_return h hloop)⟩
  | _ => exact Or.inl ⟨_, rfl⟩

/-- A call of a refused owner through a table handle fails, if it is one for the owner. -/
theorem TabularOps.result_of_refuses {table : Table K V I}
    (h : table.Refuses debug prevOwner owner) (c : Call K V K V ρ) :
    (c.needsOwner = true →
      (TabularOps.exec debug owner table c).1 = .error (ownershipViolation prevOwner owner)) ∧
    (c.needsOwner = false → ∃ r, (TabularOps.exec debug owner table c).1 = .ok r) := by
  cases c with
  | clear => exact ⟨fun _ => congrArg Prod.fst (TabularOpsMut.clear_of_refuses h), nofun⟩
  | insert key value =>
    exact ⟨fun _ => congrArg Prod.fst (TabularOpsMut.insert_of_refuses h key value), nofun⟩
  | mutate key f =>
    exact ⟨fun _ => congrArg Prod.fst (TabularOpsMut.mutate_of_refuses h key f), nofun⟩
  | remove key => exact ⟨fun _ => congrArg Prod.fst (TabularOpsMut.remove_of_refuses h key), nofun⟩
  | forEachMut order rebuild f s =>
    have hresult := TabularOpsMut.forEachMut_of_refuses h order rebuild f s
    exact ⟨fun _ => congrArg Prod.fst hresult, nofun⟩
  | _ => exact ⟨nofun, fun _ => ⟨_, rfl⟩⟩

/-- A call of a refused owner through a table handle does not reach a closure. -/
theorem TabularOps.ne_closure_of_refuses {table : Table K V I}
    (h : table.Refuses debug prevOwner owner) (c : Call K V K V ρ) :
    (TabularOps.exec debug owner table c).1 ≠ .error .closure := by
  cases howner : c.needsOwner with
  | true =>
    rw [(TabularOps.result_of_refuses h c).1 howner]
    nofun
  | false =>
    obtain ⟨r, hr⟩ := (TabularOps.result_of_refuses h c).2 howner
    rw [hr]
    nofun

/-- A call without closures that unwind does not unwind in a closure. -/
theorem TabularOps.exec_ne_closure {table : Table K V I} {c : Call K V K V ρ}
    (hc : c.NonPanicking) : (TabularOps.exec debug owner table c).1 ≠ .error .closure := by
  rcases table.accepts_or_refuses debug owner with h | ⟨prevOwner, h⟩
  · rcases TabularOps.result_of_accepts h c with ⟨r, hr⟩ | ⟨_, hunwinds⟩
    · rw [hr]
      nofun
    · exact absurd hc hunwinds
  · exact TabularOps.ne_closure_of_refuses h c

variable {S : Schema} {t : S.Name} {i : S.Field t} {base : BaseTable S t}

/-- A call of an accepted owner through an index handle returns, or unwinds in a
closure. -/
theorem IndexedOps.result_of_accepts (h : base.Accepts debug owner)
    (c : Call (S.FieldTy t i) (S.Key t) (S.Key t) (S.Value t) ρ) :
    (∃ r, (IndexedOps.exec debug i owner base c).1 = .ok r) ∨
      (IndexedOps.exec debug i owner base c).1 = .error .closure ∧ ¬ c.NonPanicking := by
  cases c with
  | clear =>
    have hresult := IndexedOpsMut.clear_eq.trans (TabularOpsMut.clear_of_accepts h)
    exact Or.inl ⟨(), congrArg Prod.fst hresult⟩
  | insert key value =>
    have hresult :=
      (IndexedOpsMut.insert_eq key value).trans (TabularOpsMut.insert_of_accepts h key value)
    exact Or.inl ⟨_, congrArg Prod.fst hresult⟩
  | mutate key f =>
    cases hentry : (base.indexes.get i).data.lookup key with
    | none => exact Or.inl ⟨none, congrArg Prod.fst (IndexedOpsMut.mutate_of_none f hentry)⟩
    | some baseKey =>
      simp only [IndexedOps.exec, IndexedOpsMut.mutate_of_some f hentry]
      exact TabularOps.result_of_accepts h (.mutate baseKey f)
  | remove key =>
    cases hentry : (base.indexes.get i).data.lookup key with
    | none => exact Or.inl ⟨none, congrArg Prod.fst (IndexedOpsMut.remove_of_none h hentry)⟩
    | some baseKey =>
      cases hrow : base.data.lookup baseKey with
      | none =>
        exact Or.inl ⟨none, congrArg Prod.fst (IndexedOpsMut.remove_of_dangling h hentry hrow)⟩
      | some value =>
        have hresult := IndexedOpsMut.remove_of_found h hentry hrow
        exact Or.inl ⟨some value, congrArg Prod.fst hresult⟩
  | forEachMut order rebuild f s =>
    rcases hloop : IndexedOpsMut.forEachLoop f (order.list (base.indexes.get i).data) s base.data
      with ⟨_ | s', data⟩
    · refine Or.inr ⟨congrArg Prod.fst (IndexedOpsMut.forEachMut_of_unwind h hloop), fun hc => ?_⟩
      obtain ⟨s', data', hreturns⟩ := IndexedOpsMut.forEachLoop_returns hc
        (order.list (base.indexes.get i).data) s base.data
      rw [hloop] at hreturns
      cases hreturns
    · exact Or.inl ⟨s', congrArg Prod.fst (IndexedOpsMut.forEachMut_of_return h hloop)⟩
  | _ => exact Or.inl ⟨_, rfl⟩

/-- `mutate` through an index with a key that the index does not hold returns to every
caller. -/
theorem IndexedOps.result_of_mutatesAbsent (debug : Bool) (owner : Owner)
    {c : Call (S.FieldTy t i) (S.Key t) (S.Key t) (S.Value t) ρ}
    (habsent : c.MutatesAbsent fun q => (base.indexes.get i).data.lookup q) :
    ∃ r, (IndexedOps.exec debug i owner base c).1 = .ok r := by
  cases c with
  | mutate key f => exact ⟨none, congrArg Prod.fst (IndexedOpsMut.mutate_of_none f habsent)⟩
  | _ => exact habsent.elim

/-- Every other call of a refused owner through an index handle fails, if it is one for
the owner. -/
theorem IndexedOps.result_of_refuses (h : base.Refuses debug prevOwner owner)
    {c : Call (S.FieldTy t i) (S.Key t) (S.Key t) (S.Value t) ρ}
    (hfound : ¬ c.MutatesAbsent fun q => (base.indexes.get i).data.lookup q) :
    (c.needsOwner = true →
      (IndexedOps.exec debug i owner base c).1 = .error (ownershipViolation prevOwner owner)) ∧
    (c.needsOwner = false → ∃ r, (IndexedOps.exec debug i owner base c).1 = .ok r) := by
  cases c with
  | clear =>
    have hresult := IndexedOpsMut.clear_eq.trans (TabularOpsMut.clear_of_refuses h)
    exact ⟨fun _ => congrArg Prod.fst hresult, nofun⟩
  | insert key value =>
    have hresult :=
      (IndexedOpsMut.insert_eq key value).trans (TabularOpsMut.insert_of_refuses h key value)
    exact ⟨fun _ => congrArg Prod.fst hresult, nofun⟩
  | mutate key f =>
    obtain ⟨baseKey, hentry⟩ := Option.ne_none_iff_exists'.mp hfound
    have hresult :=
      (IndexedOpsMut.mutate_of_some f hentry).trans (TabularOpsMut.mutate_of_refuses h baseKey f)
    exact ⟨fun _ => congrArg Prod.fst hresult, nofun⟩
  | remove key => exact ⟨fun _ => congrArg Prod.fst (IndexedOpsMut.remove_of_refuses h key), nofun⟩
  | forEachMut order rebuild f s =>
    have hresult := IndexedOpsMut.forEachMut_of_refuses h order rebuild f s
    exact ⟨fun _ => congrArg Prod.fst hresult, nofun⟩
  | _ => exact ⟨nofun, fun _ => ⟨_, rfl⟩⟩

/-- A call of a refused owner through an index handle does not reach a closure. -/
theorem IndexedOps.ne_closure_of_refuses (h : base.Refuses debug prevOwner owner)
    (c : Call (S.FieldTy t i) (S.Key t) (S.Key t) (S.Value t) ρ) :
    (IndexedOps.exec debug i owner base c).1 ≠ .error .closure := by
  by_cases habsent : c.MutatesAbsent fun q => (base.indexes.get i).data.lookup q
  · obtain ⟨r, hr⟩ := IndexedOps.result_of_mutatesAbsent debug owner habsent
    rw [hr]
    nofun
  cases howner : c.needsOwner with
  | true =>
    rw [(IndexedOps.result_of_refuses h habsent).1 howner]
    nofun
  | false =>
    obtain ⟨r, hr⟩ := (IndexedOps.result_of_refuses h habsent).2 howner
    rw [hr]
    nofun

/-- A call without closures that unwind does not unwind in a closure. -/
theorem IndexedOps.exec_ne_closure {c : Call (S.FieldTy t i) (S.Key t) (S.Key t) (S.Value t) ρ}
    (hc : c.NonPanicking) : (IndexedOps.exec debug i owner base c).1 ≠ .error .closure := by
  rcases base.accepts_or_refuses debug owner with h | ⟨prevOwner, h⟩
  · rcases IndexedOps.result_of_accepts h c with ⟨r, hr⟩ | ⟨_, hunwinds⟩
    · rw [hr]
      nofun
    · exact absurd hc hunwinds
  · exact IndexedOps.ne_closure_of_refuses h c

end

/-! ## What a request does to a table -/

section

variable {S : Schema} {G : Singletons} {ρ : Type} {t : S.Name}

/-- Table `t` before and after a request, with the result of the request. -/
inductive TableStep (debug : Bool) (t : S.Name) (base : BaseTable S t) :
    (r : Request S G ρ) → Except Panic r.call.Ret → BaseTable S t → Prop where
  /-- A call through the handle of the table. -/
  | table (owner : Owner) (c : Call (S.Key t) (S.Value t) (S.Key t) (S.Value t) ρ) :
      TableStep debug t base ⟨owner, .table t c⟩ (TabularOps.exec debug owner base c).1
        (TabularOps.exec debug owner base c).2
  /-- A call through the handle of an index. -/
  | tableBy (owner : Owner) (i : S.Field t)
      (c : Call (S.FieldTy t i) (S.Key t) (S.Key t) (S.Value t) ρ) :
      TableStep debug t base ⟨owner, .tableBy t i c⟩ (IndexedOps.exec debug i owner base c).1
        (IndexedOps.exec debug i owner base c).2
  /-- A call through the handle of an index table itself. -/
  | indexTable (owner : Owner) (i : S.Field t)
      (c : Call (S.FieldTy t i) (S.Key t) (S.FieldTy t i) (S.Key t) ρ) :
      TableStep debug t base ⟨owner, .indexTable t i c⟩
        (TabularOps.exec debug owner (base.indexes.get i) c).1
        { base with
          indexes :=
            base.indexes.set i (TabularOps.exec debug owner (base.indexes.get i) c).2 }
  /-- A request on other data. -/
  | other (r : Request S G ρ) (hr : ¬ r.call.OnTable t) (result : Except Panic r.call.Ret) :
      TableStep debug t base r result base

/-- Every request is a step of every table. -/
theorem Request.tableStep (debug : Bool) (r : Request S G ρ) (s : Storage S G) (t : S.Name) :
    TableStep debug t (s.tables t) r (r.exec debug s).1 ((r.exec debug s).2.tables t) := by
  obtain ⟨owner, call⟩ := r
  cases call with
  | table t' c =>
    by_cases ht : t = t'
    · subst ht
      simp only [Request.exec, StoreCall.exec, Storage.setTable_tables_self]
      exact .table owner c
    · have hother : ¬ (StoreCall.table t' c : StoreCall S G ρ).OnTable t := fun h => ht (Eq.symm h)
      simp only [Request.exec, StoreCall.exec, Storage.setTable_tables_of_ne _ _ ht]
      exact .other ⟨owner, .table t' c⟩ hother _
  | tableBy t' i c =>
    by_cases ht : t = t'
    · subst ht
      simp only [Request.exec, StoreCall.exec, Storage.setTable_tables_self]
      exact .tableBy owner i c
    · have hother : ¬ (StoreCall.tableBy t' i c : StoreCall S G ρ).OnTable t :=
        fun h => ht (Eq.symm h)
      simp only [Request.exec, StoreCall.exec, Storage.setTable_tables_of_ne _ _ ht]
      exact .other ⟨owner, .tableBy t' i c⟩ hother _
  | indexTable t' i c =>
    by_cases ht : t = t'
    · subst ht
      simp only [Request.exec, StoreCall.exec, Storage.setTable_tables_self]
      exact .indexTable owner i c
    · have hother : ¬ (StoreCall.indexTable t' i c : StoreCall S G ρ).OnTable t := False.elim
      simp only [Request.exec, StoreCall.exec, Storage.setTable_tables_of_ne _ _ ht]
      exact .other ⟨owner, .indexTable t' i c⟩ hother _
  | singleton m c =>
    have hother : ¬ (StoreCall.singleton m c : StoreCall S G ρ).OnTable t := False.elim
    exact .other ⟨owner, .singleton m c⟩ hother _

/-- An index table that is only read through its own handle stays as it is. -/
theorem TabularOps.set_exec_of_isRead {debug : Bool} {owner : Owner} {base : BaseTable S t}
    {i : S.Field t} {c : Call (S.FieldTy t i) (S.Key t) (S.FieldTy t i) (S.Key t) ρ}
    (hc : c.isRead = true) :
    base.indexes.set i (TabularOps.exec debug owner (base.indexes.get i) c).2 = base.indexes := by
  rw [TabularOps.exec_of_isRead hc, Indexes.set_get]

end

end TsKvstore
