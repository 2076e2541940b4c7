import TsKvstore.Iter

/-!
# The operations of the store

The operations of the four traits of `operations.rs` on the storage that a
guard gives access to. An operation that mutates returns its result, or the
panic it unwinds with, together with the table it leaves behind. A closure that
was given `&mut V` leaves a value behind even if it unwinds, in which case it
has no result. The orders in which hash maps are iterated are arguments.
-/

namespace TsKvstore

open FiniteMaps

/-- A closure on `&mut V`: the value it leaves and its result, `none` if it
unwinds. -/
abbrev MutFn (V ρ : Type) := V → V × Option ρ

/-- A closure called for each element, with the variables it captures as a
state, on a key and `&mut V`. -/
abbrev EachMutFn (Q V ρ : Type) := ρ → Q → V → V × Option ρ

variable {K V I ρ : Type} [DecidableEq K]

/-! ## Operations on a table -/

namespace TabularOps

/-- The number of rows. -/
def len (table : Table K V I) : ℕ := table.data.size

/-- Whether there are no rows. -/
def isEmpty (table : Table K V I) : Bool := table.data.size == 0

/-- A row, by cloning the value. -/
def get (table : Table K V I) (key : K) : Option V := table.data.lookup key

/-- Access to a row by reference. -/
def with' (table : Table K V I) (key : K) (f : V → ρ) : Option ρ :=
  match table.data.lookup key with
  | none => none
  | some value => some (f value)

/-- All rows. -/
def iterCloned (order : IterOrder K V) (table : Table K V I) : List (K × V) :=
  (Cursor.innerIter order table.data).collect (TableIterator.keysAndValues table.data)

/-- All keys. -/
def iterKeysCloned (order : IterOrder K V) (table : Table K V I) : List K :=
  (Cursor.innerIter order table.data).collect (TableIterator.keys table.data)

/-- All values. -/
def iterValuesCloned (order : IterOrder K V) (table : Table K V I) : List V :=
  (Cursor.innerIter order table.data).collect (TableIterator.values table.data)

/-- Call `f` on all rows. The result is the captured state of the closure. -/
def forEach (order : IterOrder K V) (table : Table K V I) (f : ρ → K → V → ρ) (s : ρ) : ρ :=
  (order.list table.data).foldl (fun s kv => f s kv.1 kv.2) s

end TabularOps

namespace TabularOpsMut

variable [IndexStorage K V I]

/-- Initialize the table by setting its owner. -/
def init (table : Table K V I) (owner : Owner) : Except Error Unit × Table K V I :=
  table.trySetOwner owner

/-- Remove all rows. -/
def clear (debug : Bool) (table : Table K V I) (owner : Owner) :
    Except Panic Unit × Table K V I :=
  match table.assertOrSetOwner debug owner with
  | (.error p, table) => (.error p, table)
  | (.ok (), table) =>
    (.ok (), { table with data := ∅, indexes := IndexStorage.clear K V table.indexes })

/-- Insert a row. Returns the value it replaces. -/
def insert (debug : Bool) (table : Table K V I) (key : K) (value : V) (owner : Owner) :
    Except Panic (Option V) × Table K V I :=
  match table.assertOrSetOwner debug owner with
  | (.error p, table) => (.error p, table)
  | (.ok (), table) =>
    let indexes := match table.data.lookup key with
      | some oldValue => IndexStorage.onRemove K table.indexes oldValue
      | none => table.indexes
    let indexes := IndexStorage.onInsert indexes key value
    (.ok (table.data.lookup key), { table with data := table.data.insert key value, indexes })

/-- Mutable access to a row. -/
def mutate (debug : Bool) (table : Table K V I) (key : K) (f : MutFn V ρ) (owner : Owner) :
    Except Panic (Option ρ) × Table K V I :=
  match table.assertOwner debug owner with
  | .error p => (.error p, table)
  | .ok () =>
    match table.data.lookup key with
    | none => (.ok none, table)
    | some value =>
      let indexes := IndexStorage.onRemove K table.indexes value
      match f value with
      | (value, none) =>
        (.error .closure, { table with data := table.data.insert key value, indexes })
      | (value, some result) =>
        (.ok (some result),
          { table with
            data := table.data.insert key value
            indexes := IndexStorage.onInsert indexes key value })

/-- Remove a row. Returns its value. -/
def remove (debug : Bool) (table : Table K V I) (key : K) (owner : Owner) :
    Except Panic (Option V) × Table K V I :=
  match table.assertOwner debug owner with
  | .error p => (.error p, table)
  | .ok () =>
    match table.data.lookup key with
    | none => (.ok none, table)
    | some value =>
      (.ok (some value),
        { table with
          data := table.data.erase key
          indexes := IndexStorage.onRemove K table.indexes value })

/-- The loop of `forEachMut` over the rows still to be visited. -/
def forEachLoop (f : EachMutFn K V ρ) :
    List (K × V) → ρ → FiniteMap K V → Option ρ × FiniteMap K V
  | [], s, data => (some s, data)
  | (k, v) :: rest, s, data =>
    match f s k v with
    | (v, none) => (none, data.insert k v)
    | (v, some s) => forEachLoop f rest s (data.insert k v)

/-- Call `f` on all rows with mutable values, then rebuild the indexes. The
result is the captured state of the closure. -/
def forEachMut (debug : Bool) (order rebuild : IterOrder K V) (table : Table K V I)
    (f : EachMutFn K V ρ) (s : ρ) (owner : Owner) : Except Panic ρ × Table K V I :=
  match table.assertOwner debug owner with
  | .error p => (.error p, table)
  | .ok () =>
    match forEachLoop f (order.list table.data) s table.data with
    | (none, data) => (.error .closure, { table with data })
    | (some s, data) =>
      let indexes := IndexStorage.clear K V table.indexes
      (.ok s, { table with data, indexes := IndexStorage.build indexes (rebuild.list data) })

end TabularOpsMut

/-! ## Operations on a table through an index -/

variable {S : Schema} {t : S.Name}

namespace IndexedOps

/-- The number of rows in the base table. -/
def len (base : BaseTable S t) : ℕ := base.data.size

/-- Whether there are no rows in the base table. -/
def isEmpty (base : BaseTable S t) : Bool := base.data.size == 0

/-- A row of the base table, by cloning the value. -/
def get (i : S.Field t) (base : BaseTable S t) (key : S.FieldTy t i) : Option (S.Value t) :=
  match (base.indexes.get i).data.lookup key with
  | none => none
  | some baseKey => base.data.lookup baseKey

/-- Access to a row of the base table by reference. -/
def with' (i : S.Field t) (base : BaseTable S t) (key : S.FieldTy t i) (f : S.Value t → ρ) :
    Option ρ :=
  match (base.indexes.get i).data.lookup key with
  | none => none
  | some baseKey =>
    match base.data.lookup baseKey with
    | none => none
    | some value => some (f value)

/-- All keys of the index with the rows they name. -/
def iterCloned (i : S.Field t) (order : IterOrder (S.FieldTy t i) (S.Key t))
    (base : BaseTable S t) : List (S.FieldTy t i × S.Value t) :=
  let index := (base.indexes.get i).data
  (Cursor.innerIter order index).collect (IndexIterator.keysAndValues index base.data)

/-- All keys of the index. -/
def iterKeysCloned (i : S.Field t) (order : IterOrder (S.FieldTy t i) (S.Key t))
    (base : BaseTable S t) : List (S.FieldTy t i) :=
  let index := (base.indexes.get i).data
  (Cursor.innerIter order index).collect (IndexIterator.keys index)

/-- All rows named by the index. -/
def iterValuesCloned (i : S.Field t) (order : IterOrder (S.FieldTy t i) (S.Key t))
    (base : BaseTable S t) : List (S.Value t) :=
  let index := (base.indexes.get i).data
  (Cursor.innerIter order index).collect (IndexIterator.values index base.data)

/-- The loop of `forEach` over the index entries still to be visited. Entries
without a base row are skipped. -/
def forEachLoop (data : FiniteMap (S.Key t) (S.Value t)) {Q : Type}
    (f : ρ → Q → S.Value t → ρ) : List (Q × S.Key t) → ρ → ρ
  | [], s => s
  | (k, baseKey) :: rest, s =>
    match data.lookup baseKey with
    | none => forEachLoop data f rest s
    | some v => forEachLoop data f rest (f s k v)

/-- Call `f` on all keys of the index with the rows they name. -/
def forEach (i : S.Field t) (order : IterOrder (S.FieldTy t i) (S.Key t)) (base : BaseTable S t)
    (f : ρ → S.FieldTy t i → S.Value t → ρ) (s : ρ) : ρ :=
  forEachLoop base.data f (order.list (base.indexes.get i).data) s

end IndexedOps

namespace IndexedOpsMut

/-- Initialize the base table by setting its owner. -/
def init (base : BaseTable S t) (owner : Owner) : Except Error Unit × BaseTable S t :=
  base.trySetOwner owner

/-- Remove all rows of the base table. -/
def clear (debug : Bool) (base : BaseTable S t) (owner : Owner) :
    Except Panic Unit × BaseTable S t :=
  match base.assertOrSetOwner debug owner with
  | (.error p, base) => (.error p, base)
  | (.ok (), base) =>
    (.ok (),
      { base with data := ∅, indexes := IndexStorage.clear (S.Key t) (S.Value t) base.indexes })

/-- Insert a row under a key of the base table. -/
def insert (debug : Bool) (base : BaseTable S t) (key : S.Key t) (value : S.Value t)
    (owner : Owner) : Except Panic (Option (S.Value t)) × BaseTable S t :=
  match base.assertOrSetOwner debug owner with
  | (.error p, base) => (.error p, base)
  | (.ok (), base) =>
    let indexes := match base.data.lookup key with
      | some oldValue => IndexStorage.onRemove (S.Key t) base.indexes oldValue
      | none => base.indexes
    let indexes := IndexStorage.onInsert indexes key value
    (.ok (base.data.lookup key), { base with data := base.data.insert key value, indexes })

/-- Mutable access to the row that the index names. The lookup in the index
comes before the ownership check. -/
def mutate (debug : Bool) (i : S.Field t) (base : BaseTable S t) (key : S.FieldTy t i)
    (f : MutFn (S.Value t) ρ) (owner : Owner) : Except Panic (Option ρ) × BaseTable S t :=
  match (base.indexes.get i).data.lookup key with
  | none => (.ok none, base)
  | some baseKey =>
    match base.assertOwner debug owner with
    | .error p => (.error p, base)
    | .ok () =>
      match base.data.lookup baseKey with
      | none => (.ok none, base)
      | some value =>
        let indexes := IndexStorage.onRemove (S.Key t) base.indexes value
        match f value with
        | (value, none) =>
          (.error .closure, { base with data := base.data.insert baseKey value, indexes })
        | (value, some result) =>
          (.ok (some result),
            { base with
              data := base.data.insert baseKey value
              indexes := IndexStorage.onInsert indexes baseKey value })

/-- Remove the row that the index names. The index entry goes first. -/
def remove (debug : Bool) (i : S.Field t) (base : BaseTable S t) (key : S.FieldTy t i)
    (owner : Owner) : Except Panic (Option (S.Value t)) × BaseTable S t :=
  match base.assertOwner debug owner with
  | .error p => (.error p, base)
  | .ok () =>
    let index := base.indexes.get i
    match index.data.lookup key with
    | none => (.ok none, base)
    | some baseKey =>
      let base :=
        { base with indexes := base.indexes.set i { index with data := index.data.erase key } }
      match base.data.lookup baseKey with
      | none => (.ok none, base)
      | some value =>
        (.ok (some value),
          { base with
            data := base.data.erase baseKey
            indexes := IndexStorage.onRemove (S.Key t) base.indexes value })

/-- The loop of `forEachMut` over the index entries still to be visited.
Entries without a base row are skipped. -/
def forEachLoop {Q : Type} (f : EachMutFn Q (S.Value t) ρ) :
    List (Q × S.Key t) → ρ → FiniteMap (S.Key t) (S.Value t) →
      Option ρ × FiniteMap (S.Key t) (S.Value t)
  | [], s, data => (some s, data)
  | (k, baseKey) :: rest, s, data =>
    match data.lookup baseKey with
    | none => forEachLoop f rest s data
    | some v =>
      match f s k v with
      | (v, none) => (none, data.insert baseKey v)
      | (v, some s) => forEachLoop f rest s (data.insert baseKey v)

/-- Call `f` on all keys of the index with the rows they name, then rebuild
the indexes from all rows. -/
def forEachMut (debug : Bool) (i : S.Field t) (order : IterOrder (S.FieldTy t i) (S.Key t))
    (rebuild : IterOrder (S.Key t) (S.Value t)) (base : BaseTable S t)
    (f : EachMutFn (S.FieldTy t i) (S.Value t) ρ) (s : ρ) (owner : Owner) :
    Except Panic ρ × BaseTable S t :=
  match base.assertOwner debug owner with
  | .error p => (.error p, base)
  | .ok () =>
    match forEachLoop f (order.list (base.indexes.get i).data) s base.data with
    | (none, data) => (.error .closure, { base with data })
    | (some s, data) =>
      let indexes := IndexStorage.clear (S.Key t) (S.Value t) base.indexes
      (.ok s, { base with data, indexes := IndexStorage.build indexes (rebuild.list data) })

end IndexedOpsMut

end TsKvstore
