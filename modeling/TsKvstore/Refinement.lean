import TsKvstore.IndexMaintenance
import TsKvstore.Ownership
import TsKvstore.Reference

/-!
# The store refines the reference model

Forgetting its indexes turns a table into a reference table. Each call through a
table handle then gives the result of the reference model, and so does each call
through an index handle whose index is exact, for a scan of the rows in the order
in which the store visited its hash maps. In a run that keeps the rows distinct
the indexes are exact at every call, so the whole run is one of the reference
model.
-/

namespace TsKvstore

open FiniteMaps Machines

variable {S : Schema} {G : Singletons} {ρ : Type} {t : S.Name}

/-- The reference table of a table. -/
def Table.forget {K V I : Type} (table : Table K V I) : RefTable K V := ⟨table.owner, table.data⟩

/-- The outcome of a call is that of the reference model, for some order in
which it scans the rows. -/
def Refines {Q W K V I : Type} [DecidableEq Q] [DecidableEq K] (handle : RefHandle Q K V)
    (debug : Bool) (owner : Owner) (table : Table K V I) (c : Call Q W K V ρ)
    (outcome : Except Panic c.Ret × Table K V I) : Prop :=
  ∃ l, Enumerates l table.data ∧
    RefTable.exec handle l debug owner table.forget c = (outcome.1, outcome.2.forget)

namespace RefTable

section

variable {K V I α : Type} {debug : Bool} {table : Table K V I} {owner : Owner}

/-- The reference table lets an accepted caller write. -/
theorem guarded_of_accepts (h : table.Accepts debug owner)
    (write : Except Panic α × RefTable K V) : guarded debug table.forget owner write = write := by
  unfold guarded Table.forget
  cases howner : table.owner with
  | none => rfl
  | some prevOwner =>
    exact if_neg fun hfail => hfail.2 (h prevOwner howner hfail.1)

/-- The reference table fails a refused caller. -/
theorem guarded_of_refuses {prevOwner : Owner} (h : table.Refuses debug prevOwner owner)
    (write : Except Panic α × RefTable K V) :
    guarded debug table.forget owner write =
      (.error (ownershipViolation prevOwner owner), table.forget) := by
  unfold guarded
  have howner : table.forget.owner = some prevOwner := h.2.1
  rw [howner]
  exact if_pos ⟨h.1, h.2.2⟩

end

/-- A linear search by the key of the table. -/
theorem find_base {K V : Type} [DecidableEq K] {rows : FiniteMap K V} {l : List (K × V)}
    (hl : Enumerates l rows) (k : K) :
    find (baseHandle K V) l k = (rows.lookup k).map fun v => (k, v) := by
  unfold find baseHandle
  cases hrow : rows.lookup k with
  | none =>
    refine hl.find?_eq_none fun k' v' hrow' heq => ?_
    have hk : k' = k := of_decide_eq_true heq
    rw [hk, hrow] at hrow'
    cases hrow'
  | some v =>
    exact hl.find?_eq_some hrow (decide_eq_true rfl) fun k' v' _ heq => of_decide_eq_true heq

section

variable {i : S.Field t} {base : BaseTable S t} {l : List (S.Key t × S.Value t)}

/-- A linear search by an indexed field of a row that the index finds. -/
theorem find_index_some (hexact : base.ExactAt i) (hl : Enumerates l base.data) {k : S.Key t}
    {v : S.Value t} (hrow : base.data.lookup k = some v) :
    find (indexHandle i) l (S.field i v) = some (k, v) := by
  refine hl.find?_eq_some hrow (decide_eq_true rfl) fun k' v' hrow' heq => ?_
  exact hexact.distinctOn k' v' k v hrow' hrow (of_decide_eq_true heq)

/-- A linear search by an indexed field that the index does not hold. -/
theorem find_index_none (hexact : base.ExactAt i) (hl : Enumerates l base.data)
    {q : S.FieldTy t i} (hentry : (base.indexes.get i).data.lookup q = none) :
    find (indexHandle i) l q = none := by
  refine hl.find?_eq_none fun k v hrow heq => ?_
  have hfield : S.field i v = q := of_decide_eq_true heq
  have hfound := hexact.lookup_row hrow
  rw [hfield, hentry] at hfound
  cases hfound

end

end RefTable

/-! ## Calls through a table handle -/

section

variable {K V I : Type} [DecidableEq K] [IndexStorage K V I] {debug : Bool} {owner : Owner}
  {table : Table K V I}

open RefTable

/-- `mutate` of a row that is found. -/
theorem TabularOpsMut.mutate_refines {k : K} {v : V} (hrow : table.data.lookup k = some v)
    (f : MutFn V ρ) :
    guarded debug table.forget owner
        (closureResult (f v).2, ⟨table.owner, table.data.insert k (f v).1⟩) =
      ((mutate debug table k f owner).1, (mutate debug table k f owner).2.forget) := by
  rcases table.accepts_or_refuses debug owner with h | ⟨prevOwner, h⟩
  · obtain ⟨hresult, hdata⟩ := mutate_row h hrow f
    have howner : (mutate debug table k f owner).2.owner = table.owner := mutate_owner table k f
    rw [guarded_of_accepts h]
    unfold Table.forget
    rw [hresult, hdata, howner]
  · rw [guarded_of_refuses h, mutate_of_refuses h]

/-- `mutate` of a missing row. -/
theorem TabularOpsMut.mutate_refines_none {k : K} (hrow : table.data.lookup k = none)
    (f : MutFn V ρ) :
    guarded debug table.forget owner (.ok none, table.forget) =
      ((mutate debug table k f owner).1, (mutate debug table k f owner).2.forget) := by
  rcases table.accepts_or_refuses debug owner with h | ⟨prevOwner, h⟩
  · rw [guarded_of_accepts h, mutate_of_none h f hrow]
  · rw [guarded_of_refuses h, mutate_of_refuses h]

/-- `remove` of a missing row. -/
theorem TabularOpsMut.remove_refines_none {k : K} (hrow : table.data.lookup k = none) :
    guarded debug table.forget owner (.ok none, table.forget) =
      ((remove debug table k owner).1, (remove debug table k owner).2.forget) := by
  rcases table.accepts_or_refuses debug owner with h | ⟨prevOwner, h⟩
  · rw [guarded_of_accepts h, remove_of_none h hrow]
  · rw [guarded_of_refuses h, remove_of_refuses h]

/-- `remove` of a row that is found. -/
theorem TabularOpsMut.remove_refines {k : K} {v : V} (hrow : table.data.lookup k = some v) :
    guarded debug table.forget owner (.ok (some v), ⟨table.owner, table.data.erase k⟩) =
      ((remove debug table k owner).1, (remove debug table k owner).2.forget) := by
  rcases table.accepts_or_refuses debug owner with h | ⟨prevOwner, h⟩
  · rw [guarded_of_accepts h, remove_of_some h hrow]
    rfl
  · rw [guarded_of_refuses h, remove_of_refuses h]

omit [DecidableEq K] [IndexStorage K V I] in
/-- The reference table of a claimed table. -/
theorem Table.forget_claimed (data : FiniteMap K V) (indexes : I) :
    ({ table.claimed owner with data, indexes } : Table K V I).forget =
      ⟨table.owner.or (some owner), data⟩ := by
  unfold Table.forget
  dsimp only
  rw [table.claimed_owner]

omit [IndexStorage K V I] in
/-- `init`, whatever the handle. -/
theorem Table.trySetOwner_refines {Q W : Type} [DecidableEq Q] (handle : RefHandle Q K V)
    (l : List (K × V)) :
    RefTable.exec handle l debug owner table.forget (.init : Call Q W K V ρ) =
      (.ok (table.trySetOwner owner).1, (table.trySetOwner owner).2.forget) := by
  unfold RefTable.exec Table.forget Table.trySetOwner
  cases howner : table.owner with
  | none => rfl
  | some prevOwner =>
    dsimp only
    rw [howner]

/-- `clear`, whatever the handle. -/
theorem TabularOpsMut.clear_refines {Q W : Type} [DecidableEq Q] (handle : RefHandle Q K V)
    (l : List (K × V)) :
    RefTable.exec handle l debug owner table.forget (.clear : Call Q W K V ρ) =
      ((clear debug table owner).1, (clear debug table owner).2.forget) := by
  rcases table.accepts_or_refuses debug owner with h | ⟨prevOwner, h⟩
  · rw [clear_of_accepts h, Table.forget_claimed]
    exact guarded_of_accepts h _
  · rw [clear_of_refuses h]
    exact guarded_of_refuses h _

/-- `insert`, whatever the handle. -/
theorem TabularOpsMut.insert_refines {Q W : Type} [DecidableEq Q] (handle : RefHandle Q K V)
    (l : List (K × V)) (key : K) (value : V) :
    RefTable.exec handle l debug owner table.forget (.insert key value : Call Q W K V ρ) =
      ((insert debug table key value owner).1, (insert debug table key value owner).2.forget) := by
  rcases table.accepts_or_refuses debug owner with h | ⟨prevOwner, h⟩
  · rw [insert_of_accepts h, Table.forget_claimed]
    exact guarded_of_accepts h _
  · rw [insert_of_refuses h]
    exact guarded_of_refuses h _

omit [IndexStorage K V I] in
/-- The loop over the rows is that of the reference model. -/
theorem TabularOpsMut.forEachLoop_eq (f : EachMutFn K V ρ) (l : List (K × V)) (s : ρ)
    (data : FiniteMap K V) :
    TabularOpsMut.forEachLoop f l s data = RefTable.forEachLoop (baseHandle K V) f l s data := by
  induction l generalizing s data with
  | nil => rfl
  | cons kv l ih =>
    obtain ⟨k, v⟩ := kv
    have hkey : (baseHandle K V).keyOf k v = k := rfl
    rw [TabularOpsMut.forEachLoop, RefTable.forEachLoop, hkey]
    rcases f s k v with ⟨v', _ | s'⟩
    · rfl
    · exact ih s' (data.insert k v')

/-- `for_each_mut`, for a scan in the order of the store's own loop. -/
theorem TabularOpsMut.forEachMut_refines (order rebuild : IterOrder K V) (f : EachMutFn K V ρ)
    (s : ρ) :
    RefTable.forEachMut (baseHandle K V) (order.list table.data) debug owner table.forget f s =
      ((forEachMut debug order rebuild table f s owner).1,
        (forEachMut debug order rebuild table f s owner).2.forget) := by
  have hloop : RefTable.forEachLoop (baseHandle K V) f (order.list table.data) s
      table.forget.rows = forEachLoop f (order.list table.data) s table.data :=
    (forEachLoop_eq f _ s table.data).symm
  unfold RefTable.forEachMut
  rw [hloop]
  rcases table.accepts_or_refuses debug owner with h | ⟨prevOwner, h⟩
  · rw [guarded_of_accepts h]
    rcases hdata : forEachLoop f (order.list table.data) s table.data with ⟨_ | s', data⟩
    · rw [forEachMut_of_unwind h hdata]
      rfl
    · rw [forEachMut_of_return h hdata]
      rfl
  · rw [guarded_of_refuses h, forEachMut_of_refuses h]

/-- **Calls through a table handle.** Each gives the outcome of the reference
model, which has no indexes. -/
theorem TabularOps.exec_refines (debug : Bool) (owner : Owner) (table : Table K V I)
    (c : Call K V K V ρ) :
    Refines (baseHandle K V) debug owner table c (TabularOps.exec debug owner table c) := by
  obtain ⟨l, hl⟩ := exists_enumerates table.data
  cases c with
  | init => exact ⟨l, hl, Table.trySetOwner_refines _ l⟩
  | clear => exact ⟨l, hl, TabularOpsMut.clear_refines _ l⟩
  | len => exact ⟨l, hl, rfl⟩
  | isEmpty => exact ⟨l, hl, rfl⟩
  | get key =>
    refine ⟨l, hl, Prod.ext (congrArg Except.ok ?_) rfl⟩
    change (find (baseHandle K V) l key).map Prod.snd = table.data.lookup key
    rw [find_base hl]
    cases table.data.lookup key <;> rfl
  | with' key f =>
    refine ⟨l, hl, Prod.ext (congrArg Except.ok ?_) rfl⟩
    change (find (baseHandle K V) l key).map (fun kv => f kv.2) = TabularOps.with' table key f
    unfold TabularOps.with'
    rw [find_base hl]
    cases table.data.lookup key <;> rfl
  | insert key value => exact ⟨l, hl, TabularOpsMut.insert_refines _ l key value⟩
  | mutate key f =>
    refine ⟨l, hl, ?_⟩
    simp only [RefTable.exec, find_base hl]
    cases hrow : table.data.lookup key with
    | none => exact TabularOpsMut.mutate_refines_none hrow f
    | some v => exact TabularOpsMut.mutate_refines hrow f
  | remove key =>
    refine ⟨l, hl, ?_⟩
    simp only [RefTable.exec, find_base hl]
    cases hrow : table.data.lookup key with
    | none => exact TabularOpsMut.remove_refines_none hrow
    | some v => exact TabularOpsMut.remove_refines hrow
  | iterCloned order =>
    refine ⟨_, order.enumerates table.data, Prod.ext (congrArg Except.ok ?_) rfl⟩
    have hcollect := TableIterator.collect_keysAndValues order table.data
    exact (List.map_id' _).trans hcollect.symm
  | iterKeysCloned order =>
    refine ⟨_, order.enumerates table.data, Prod.ext (congrArg Except.ok ?_) rfl⟩
    exact (TableIterator.collect_keys order table.data).symm
  | iterValuesCloned order =>
    refine ⟨_, order.enumerates table.data, Prod.ext (congrArg Except.ok ?_) rfl⟩
    exact (TableIterator.collect_values order table.data).symm
  | forEach order f s => exact ⟨_, order.enumerates table.data, rfl⟩
  | forEachMut order rebuild f s =>
    exact ⟨_, order.enumerates table.data, TabularOpsMut.forEachMut_refines order rebuild f s⟩

end

/-! ## Calls through an index handle -/

section

variable {debug : Bool} {owner : Owner} {base : BaseTable S t} {i : S.Field t}

open RefTable

/-- The loop over the entries of an index presents each row under its indexed
field, as the loop over the rows does. -/
theorem IndexedOpsMut.forEachLoop_eq (f : EachMutFn (S.FieldTy t i) (S.Value t) ρ)
    {l : List (S.Key t × S.Value t)} (hl : (l.map Prod.fst).Nodup) (s : ρ)
    {data : FiniteMap (S.Key t) (S.Value t)} (hdata : ∀ kv ∈ l, data.lookup kv.1 = some kv.2) :
    IndexedOpsMut.forEachLoop f (l.map fun kv => (S.field i kv.2, kv.1)) s data =
      RefTable.forEachLoop (indexHandle i) f l s data := by
  induction l generalizing s data with
  | nil => rfl
  | cons kv l ih =>
    obtain ⟨k, v⟩ := kv
    obtain ⟨hk, hl⟩ := List.nodup_cons.mp hl
    have hkey : (indexHandle i).keyOf k v = S.field i v := rfl
    have hrow : data.lookup k = some v := hdata (k, v) List.mem_cons_self
    rw [List.map_cons, IndexedOpsMut.forEachLoop, RefTable.forEachLoop, hkey, hrow]
    dsimp only
    rcases f s (S.field i v) v with ⟨v', _ | s'⟩
    · rfl
    · refine ih hl s' fun kv hkv => ?_
      have hne : kv.1 ≠ k := fun heq => hk (List.mem_map.mpr ⟨kv, hkv, heq⟩)
      rw [Finmap.lookup_insert_of_ne _ hne]
      exact hdata kv (List.mem_cons_of_mem _ hkv)

/-- The loop of `for_each` presents each row under its indexed field. -/
theorem IndexedOps.forEachLoop_eq (f : ρ → S.FieldTy t i → S.Value t → ρ)
    {l : List (S.Key t × S.Value t)} (s : ρ) {data : FiniteMap (S.Key t) (S.Value t)}
    (hdata : ∀ kv ∈ l, data.lookup kv.1 = some kv.2) :
    IndexedOps.forEachLoop data f (l.map fun kv => (S.field i kv.2, kv.1)) s =
      l.foldl (fun s kv => f s (S.field i kv.2) kv.2) s := by
  induction l generalizing s with
  | nil => rfl
  | cons kv l ih =>
    have hrow : data.lookup kv.1 = some kv.2 := hdata kv List.mem_cons_self
    rw [List.map_cons, IndexedOps.forEachLoop, hrow, List.foldl_cons]
    exact ih _ fun kv' hkv' => hdata kv' (List.mem_cons_of_mem _ hkv')

/-- `for_each_mut` through an exact index, for a scan in the order of the store's
own loop. -/
theorem IndexedOpsMut.forEachMut_refines (order : IterOrder (S.FieldTy t i) (S.Key t))
    (rebuild : IterOrder (S.Key t) (S.Value t)) (f : EachMutFn (S.FieldTy t i) (S.Value t) ρ)
    (s : ρ) {l : List (S.Key t × S.Value t)} (hl : Enumerates l base.data)
    (horder : order.list (base.indexes.get i).data = l.map fun kv => (S.field i kv.2, kv.1)) :
    RefTable.forEachMut (indexHandle i) l debug owner base.forget f s =
      ((forEachMut debug i order rebuild base f s owner).1,
        (forEachMut debug i order rebuild base f s owner).2.forget) := by
  have hloop : RefTable.forEachLoop (indexHandle i) f l s base.forget.rows =
      forEachLoop f (order.list (base.indexes.get i).data) s base.data := by
    rw [horder]
    exact (forEachLoop_eq f hl.nodup s fun kv hkv => hl.lookup_of_mem hkv).symm
  unfold RefTable.forEachMut
  rw [hloop]
  rcases base.accepts_or_refuses debug owner with h | ⟨prevOwner, h⟩
  · rw [guarded_of_accepts h]
    rcases hdata : forEachLoop f (order.list (base.indexes.get i).data) s base.data with
      ⟨_ | s', data⟩
    · rw [forEachMut_of_unwind h hdata]
      rfl
    · rw [forEachMut_of_return h hdata]
      rfl
  · rw [guarded_of_refuses h, forEachMut_of_refuses h]

/-- Read access through an exact index. -/
theorem IndexedOps.get_eq_find (hexact : base.ExactAt i) {l : List (S.Key t × S.Value t)}
    (hl : Enumerates l base.data) (q : S.FieldTy t i) :
    IndexedOps.get i base q = (find (indexHandle i) l q).map Prod.snd := by
  unfold IndexedOps.get
  cases hentry : (base.indexes.get i).data.lookup q with
  | none => rw [find_index_none hexact hl hentry]; rfl
  | some k =>
    obtain ⟨v, hrow, rfl⟩ := hexact.sound q k hentry
    rw [find_index_some hexact hl hrow]
    exact hrow

/-- `with` through an exact index is a linear search. -/
theorem IndexedOps.with'_eq_find (hexact : base.ExactAt i) {l : List (S.Key t × S.Value t)}
    (hl : Enumerates l base.data) (q : S.FieldTy t i) (f : S.Value t → ρ) :
    IndexedOps.with' i base q f = (find (indexHandle i) l q).map fun kv => f kv.2 := by
  unfold IndexedOps.with'
  cases hentry : (base.indexes.get i).data.lookup q with
  | none => rw [find_index_none hexact hl hentry]; rfl
  | some k =>
    obtain ⟨v, hrow, rfl⟩ := hexact.sound q k hentry
    rw [find_index_some hexact hl hrow]
    dsimp only
    rw [hrow]
    rfl

/-- `remove` under a key that the index does not hold. -/
theorem IndexedOpsMut.remove_refines_none {key : S.FieldTy t i}
    (hentry : (base.indexes.get i).data.lookup key = none) :
    guarded debug base.forget owner (.ok none, base.forget) =
      ((remove debug i base key owner).1, (remove debug i base key owner).2.forget) := by
  rcases base.accepts_or_refuses debug owner with h | ⟨prevOwner, h⟩
  · rw [guarded_of_accepts h, remove_of_none h hentry]
  · rw [guarded_of_refuses h, remove_of_refuses h]

/-- `remove` of the row that the index names. -/
theorem IndexedOpsMut.remove_refines {k : S.Key t} {v : S.Value t}
    (hentry : (base.indexes.get i).data.lookup (S.field i v) = some k)
    (hrow : base.data.lookup k = some v) :
    guarded debug base.forget owner (.ok (some v), ⟨base.owner, base.data.erase k⟩) =
      ((remove debug i base (S.field i v) owner).1,
        (remove debug i base (S.field i v) owner).2.forget) := by
  rcases base.accepts_or_refuses debug owner with h | ⟨prevOwner, h⟩
  · rw [remove_of_some h hentry hrow]
    exact TabularOpsMut.remove_refines hrow
  · rw [guarded_of_refuses h, remove_of_refuses h]

section

variable {order : IterOrder (S.FieldTy t i) (S.Key t)} {l : List (S.Key t × S.Value t)}

/-- An iterator over an exact index visits the rows, each under its indexed field. -/
theorem IndexedOps.collect_eq_map {α : Type} {item : S.FieldTy t i → Option α}
    {g : S.Key t × S.Value t → α}
    (horder : order.list (base.indexes.get i).data = l.map fun kv => (S.field i kv.2, kv.1))
    (hitem : ∀ kv ∈ l, item (S.field i kv.2) = some (g kv)) :
    (Cursor.innerIter order (base.indexes.get i).data).collect item = l.map g := by
  unfold Cursor.collect Cursor.innerIter
  dsimp only
  rw [horder, List.map_map]
  exact Cursor.collectFrom_map hitem

/-- The pairs that an iteration through an exact index presents. -/
theorem IndexedOps.iterCloned_eq (hexact : base.ExactAt i) (hl : Enumerates l base.data)
    (horder : order.list (base.indexes.get i).data = l.map fun kv => (S.field i kv.2, kv.1)) :
    IndexedOps.iterCloned i order base = l.map fun kv => (S.field i kv.2, kv.2) := by
  refine collect_eq_map horder fun kv hkv => ?_
  have hrow : base.data.lookup kv.1 = some kv.2 := hl.lookup_of_mem hkv
  unfold IndexIterator.keysAndValues
  rw [hexact.lookup_row hrow, Option.bind_some, hrow]
  rfl

/-- The keys that an iteration through an exact index presents. -/
theorem IndexedOps.iterKeysCloned_eq (hexact : base.ExactAt i) (hl : Enumerates l base.data)
    (horder : order.list (base.indexes.get i).data = l.map fun kv => (S.field i kv.2, kv.1)) :
    IndexedOps.iterKeysCloned i order base = l.map fun kv => S.field i kv.2 := by
  refine collect_eq_map horder fun kv hkv => ?_
  have hrow : base.data.lookup kv.1 = some kv.2 := hl.lookup_of_mem hkv
  unfold IndexIterator.keys
  rw [hexact.lookup_row hrow]
  rfl

/-- The values that an iteration through an exact index presents. -/
theorem IndexedOps.iterValuesCloned_eq (hexact : base.ExactAt i) (hl : Enumerates l base.data)
    (horder : order.list (base.indexes.get i).data = l.map fun kv => (S.field i kv.2, kv.1)) :
    IndexedOps.iterValuesCloned i order base = l.map Prod.snd := by
  refine collect_eq_map horder fun kv hkv => ?_
  have hrow : base.data.lookup kv.1 = some kv.2 := hl.lookup_of_mem hkv
  unfold IndexIterator.values
  rw [hexact.lookup_row hrow, Option.bind_some, hrow]

end

/-- **Calls through an index handle.** If the index is exact, each gives the
outcome of the reference model. -/
theorem IndexedOps.exec_refines (debug : Bool) (owner : Owner) (hexact : base.ExactAt i)
    (c : Call (S.FieldTy t i) (S.Key t) (S.Key t) (S.Value t) ρ) :
    Refines (indexHandle i) debug owner base c (IndexedOps.exec debug i owner base c) := by
  obtain ⟨l, hl⟩ := exists_enumerates base.data
  cases c with
  | init => exact ⟨l, hl, Table.trySetOwner_refines _ l⟩
  | clear =>
    refine ⟨l, hl, ?_⟩
    simp only [IndexedOps.exec, IndexedOpsMut.clear_eq]
    exact TabularOpsMut.clear_refines _ l
  | len => exact ⟨l, hl, rfl⟩
  | isEmpty => exact ⟨l, hl, rfl⟩
  | get key =>
    exact ⟨l, hl, Prod.ext (congrArg Except.ok (IndexedOps.get_eq_find hexact hl key).symm) rfl⟩
  | with' key f =>
    exact ⟨l, hl, Prod.ext (congrArg Except.ok (IndexedOps.with'_eq_find hexact hl key f).symm) rfl⟩
  | insert key value =>
    refine ⟨l, hl, ?_⟩
    simp only [IndexedOps.exec, IndexedOpsMut.insert_eq]
    exact TabularOpsMut.insert_refines _ l key value
  | mutate key f =>
    refine ⟨l, hl, ?_⟩
    simp only [RefTable.exec, IndexedOps.exec]
    cases hentry : (base.indexes.get i).data.lookup key with
    | none =>
      rw [find_index_none hexact hl hentry, IndexedOpsMut.mutate_of_none f hentry]
      rfl
    | some k =>
      obtain ⟨v, hrow, rfl⟩ := hexact.sound key k hentry
      rw [find_index_some hexact hl hrow, IndexedOpsMut.mutate_of_some f hentry]
      exact TabularOpsMut.mutate_refines hrow f
  | remove key =>
    refine ⟨l, hl, ?_⟩
    simp only [RefTable.exec, IndexedOps.exec]
    cases hentry : (base.indexes.get i).data.lookup key with
    | none =>
      rw [find_index_none hexact hl hentry]
      exact IndexedOpsMut.remove_refines_none hentry
    | some k =>
      obtain ⟨v, hrow, rfl⟩ := hexact.sound key k hentry
      rw [find_index_some hexact hl hrow]
      exact IndexedOpsMut.remove_refines hentry hrow
  | iterCloned order =>
    obtain ⟨l, hl, horder⟩ := ExactIndex.exists_rows hexact (order.enumerates _)
    have hitems := IndexedOps.iterCloned_eq hexact hl horder
    exact ⟨l, hl, Prod.ext (congrArg Except.ok hitems.symm) rfl⟩
  | iterKeysCloned order =>
    obtain ⟨l, hl, horder⟩ := ExactIndex.exists_rows hexact (order.enumerates _)
    have hitems := IndexedOps.iterKeysCloned_eq hexact hl horder
    exact ⟨l, hl, Prod.ext (congrArg Except.ok hitems.symm) rfl⟩
  | iterValuesCloned order =>
    obtain ⟨l, hl, horder⟩ := ExactIndex.exists_rows hexact (order.enumerates _)
    have hitems := IndexedOps.iterValuesCloned_eq hexact hl horder
    exact ⟨l, hl, Prod.ext (congrArg Except.ok hitems.symm) rfl⟩
  | forEach order f s =>
    obtain ⟨l, hl, horder⟩ := ExactIndex.exists_rows hexact (order.enumerates _)
    refine ⟨l, hl, Prod.ext (congrArg Except.ok ?_) rfl⟩
    change _ = IndexedOps.forEachLoop base.data f (order.list (base.indexes.get i).data) s
    rw [horder]
    exact (IndexedOps.forEachLoop_eq f s fun kv hkv => hl.lookup_of_mem hkv).symm
  | forEachMut order rebuild f s =>
    obtain ⟨l, hl, horder⟩ := ExactIndex.exists_rows hexact (order.enumerates _)
    exact ⟨l, hl, IndexedOpsMut.forEachMut_refines order rebuild f s hl horder⟩

end

/-! ## Runs -/

/-- A step of the reference model of table `t`: a request, its result and the
reference table after it. Requests on other data do not concern the table. -/
inductive RefStep (debug : Bool) (t : S.Name) (ref : RefTable (S.Key t) (S.Value t)) :
    (r : Request S G ρ) → Except Panic r.call.Ret → RefTable (S.Key t) (S.Value t) → Prop where
  | table (owner : Owner) (c : Call (S.Key t) (S.Value t) (S.Key t) (S.Value t) ρ)
      (l : List (S.Key t × S.Value t)) (hl : Enumerates l ref.rows) {result : Except Panic c.Ret}
      {ref' : RefTable (S.Key t) (S.Value t)}
      (hexec : RefTable.exec (baseHandle _ _) l debug owner ref c = (result, ref')) :
      RefStep debug t ref ⟨owner, .table t c⟩ result ref'
  | tableBy (owner : Owner) (i : S.Field t)
      (c : Call (S.FieldTy t i) (S.Key t) (S.Key t) (S.Value t) ρ)
      (l : List (S.Key t × S.Value t)) (hl : Enumerates l ref.rows) {result : Except Panic c.Ret}
      {ref' : RefTable (S.Key t) (S.Value t)}
      (hexec : RefTable.exec (indexHandle i) l debug owner ref c = (result, ref')) :
      RefStep debug t ref ⟨owner, .tableBy t i c⟩ result ref'
  | other (r : Request S G ρ) (hr : ¬ r.call.OnTable t) (result : Except Panic r.call.Ret) :
      RefStep debug t ref r result ref

/-- A run of the reference model of table `t` with the results of all
requests. -/
inductive RefRun (debug : Bool) (t : S.Name) (ref : RefTable (S.Key t) (S.Value t)) :
    List (Σ r : Request S G ρ, Except Panic r.call.Ret) → RefTable (S.Key t) (S.Value t) →
      Prop where
  | start : RefRun debug t ref [] ref
  | step {trace : List (Σ r : Request S G ρ, Except Panic r.call.Ret)}
      {ref' ref'' : RefTable (S.Key t) (S.Value t)} {r : Request S G ρ}
      {result : Except Panic r.call.Ret} (hrun : RefRun debug t ref trace ref')
      (hstep : RefStep debug t ref' r result ref'') :
      RefRun debug t ref (trace ++ [⟨r, result⟩]) ref''

/-- A step of a table whose indexes are exact is a step of the reference model,
unless it writes an index table through its own handle. -/
theorem TableStep.refStep {debug : Bool} {base base' : BaseTable S t} {r : Request S G ρ}
    {result : Except Panic r.call.Ret} (hstep : TableStep debug t base r result base')
    (hdirect : ¬ r.call.WritesIndexTable) (hexact : ∀ i, base.ExactAt i) :
    RefStep debug t base.forget r result base'.forget := by
  cases hstep with
  | table owner c =>
    obtain ⟨l, hl, hexec⟩ := TabularOps.exec_refines debug owner base c
    exact .table owner c l hl hexec
  | tableBy owner i c =>
    obtain ⟨l, hl, hexec⟩ := IndexedOps.exec_refines debug owner (hexact i) c
    exact .tableBy owner i c l hl hexec
  | indexTable owner i c =>
    have hread : c.isRead = true := by simpa [StoreCall.WritesIndexTable] using hdirect
    have hother : ¬ (StoreCall.indexTable t i c : StoreCall S G ρ).OnTable t := False.elim
    rw [TabularOps.set_exec_of_isRead hread]
    exact .other ⟨owner, .indexTable t i c⟩ hother _
  | other r hother result => exact .other r hother result

/-- A request on a storage with exact indexes is a step of the reference model. -/
theorem Request.exec_refStep (debug : Bool) {r : Request S G ρ}
    (hdirect : ¬ r.call.WritesIndexTable) {s : Storage S G}
    (hexact : ∀ i, (s.tables t).ExactAt i) :
    RefStep debug t (s.tables t).forget r (r.exec debug s).1
      ((r.exec debug s).2.tables t).forget :=
  (r.tableStep debug s t).refStep hdirect hexact

/-- A run from the empty store whose rows stay distinct is a run of the
reference model. -/
theorem refRun_of_distinct {debug : Bool} {reqs : List (Request S G ρ)}
    (hmaintained : ∀ r ∈ reqs, r.Maintained)
    (hdistinct : ∀ pre, pre <+: reqs → ∀ i,
      ((stateAfter (Request.exec debug) pre Storage.new).tables t).DistinctAt i) :
    RefRun debug t ⟨none, ∅⟩ (results (Request.exec debug) reqs Storage.new)
      ((stateAfter (Request.exec debug) reqs Storage.new).tables t).forget := by
  induction reqs using List.reverseRecOn with
  | nil => exact .start
  | append_singleton reqs r ih =>
    have hbegins : reqs <+: reqs ++ [r] := List.prefix_append reqs [r]
    have hreqs : ∀ r' ∈ reqs, r'.Maintained := fun r' hr' => hmaintained r' (hbegins.subset hr')
    have hdist := fun pre (hpre : pre <+: reqs) => hdistinct pre (hpre.trans hbegins)
    have hexact : ∀ i, ((stateAfter (Request.exec debug) reqs Storage.new).tables t).ExactAt i :=
      fun i => exactAt_stateAfter hreqs Storage.new_sound exactIndex_empty
        (fun pre hpre => hdist pre hpre i) reqs (List.prefix_refl _)
    have hr := hmaintained r (List.mem_append_right reqs List.mem_cons_self)
    rw [results_append, stateAfter_concat]
    exact .step (ih hreqs hdist) (r.exec_refStep debug hr.2 hexact)

/-- The order in which the reference model scans its rows does not matter for
the rows that a call leaves. -/
def ScanOrderFree (ρ : Type) (debug : Bool) (ref : RefTable (S.Key t) (S.Value t)) : Prop :=
  ∀ l l', Enumerates l ref.rows → Enumerates l' ref.rows → ∀ owner,
    (∀ c : Call (S.Key t) (S.Value t) (S.Key t) (S.Value t) ρ, RefTable.LocalCall c →
      (RefTable.exec (baseHandle _ _) l debug owner ref c).2 =
        (RefTable.exec (baseHandle _ _) l' debug owner ref c).2) ∧
    ∀ (i : S.Field t) (c : Call (S.FieldTy t i) (S.Key t) (S.Key t) (S.Value t) ρ),
      RefTable.LocalCall c →
        (RefTable.exec (indexHandle i) l debug owner ref c).2 =
          (RefTable.exec (indexHandle i) l' debug owner ref c).2

/-- **Refinement of the reference model.** From the empty store, if after each
operation the rows of a table are distinct in all indexed fields, the results of
the run and of one more request are those of a run of the reference model, which
ends with the same rows. The order in which the reference model scans its rows
does not matter for the rows it leaves. -/
theorem table_refines_reference (debug : Bool) (commands : List (Command S G ρ))
    (hmaintained : ∀ r ∈ requests commands, r.Maintained) (t : S.Name)
    (hdistinct : ∀ pre, pre <+: requests commands → ∀ i,
      ((stateAfter (Request.exec debug) pre Storage.new).tables t).DistinctAt i)
    (last : Request S G ρ) (hlast : ¬ last.call.WritesIndexTable) :
    RefRun debug t ⟨none, ∅⟩
        (results (Request.exec debug) (requests commands ++ [last]) Storage.new)
        ((stateAfter (Request.exec debug) (requests commands ++ [last]) Storage.new).tables
          t).forget ∧
      ∀ pre, pre <+: requests commands →
        ScanOrderFree ρ debug
          ((stateAfter (Request.exec debug) pre Storage.new).tables t).forget := by
  constructor
  · have hexact : ∀ i, ((stateAfter (Request.exec debug) (requests commands)
        Storage.new).tables t).ExactAt i :=
      fun i => exactAt_stateAfter hmaintained Storage.new_sound exactIndex_empty
        (fun pre hpre => hdistinct pre hpre i) _ (List.prefix_refl _)
    rw [results_append, stateAfter_concat]
    exact .step (refRun_of_distinct hmaintained hdistinct) (last.exec_refStep debug hlast hexact)
  · intro pre hpre l l' hl hl' owner
    refine ⟨fun c hc => RefTable.exec_order (fun _ _ _ _ _ _ hkey => hkey) hl hl' hc,
      fun i c hc => RefTable.exec_order ?_ hl hl' hc⟩
    exact fun k v k' v' hrow hrow' hkey => hdistinct pre hpre i k v k' v' hrow hrow' hkey

/-- A lookup through the index on the email addresses. -/
def emailLookup : Request people noSingletons Unit :=
  ⟨"owner", .tableBy People People.email (.get "c@example.com")⟩

/-- The run of two people, with a lookup at its end, is one of the reference model. -/
theorem peopleRun_refines_reference :
    RefRun true People ⟨none, ∅⟩
        (results (Request.exec true) (requests peopleRun ++ [emailLookup]) Storage.new)
        ((stateAfter (Request.exec true) (requests peopleRun ++ [emailLookup])
          Storage.new).tables People).forget ∧
      ∀ pre, pre <+: requests peopleRun →
        ScanOrderFree Unit true
          ((stateAfter (Request.exec true) pre Storage.new).tables People).forget :=
  table_refines_reference true peopleRun peopleRun_maintained People peopleRun_distinct
    emailLookup (by simp [emailLookup, StoreCall.WritesIndexTable])

end TsKvstore
