import TsKvstore.Lib.Machine
import TsKvstore.Operations
import TsKvstore.Singleton

/-!
# The storage and the calls on it

A call names a handle and an operation with its arguments. There are four kinds
of handle: a table, a table by one of its indexes, the index table itself
(which is a table like any other), and a singleton. Each kind dispatches to the
operations of its trait. A store executes the calls of raw handles and of
transactions with the same functions, on the storage behind the guard.

A run of commands goes on after a raw write that has panicked, although the lock of the
store is poisoned then and a raw call gets no guard any more. Threads with the lock between
them are modelled by `Client`.
-/

namespace TsKvstore

open FiniteMaps

/-- An operation on tabular data with its arguments. Rows are found by keys of
type `Q` in a map to `W`, which is the table's own map or that of an index. -/
inductive Call (Q W K V ρ : Type) [DecidableEq Q] [DecidableEq K] where
  | init
  | clear
  | len
  | isEmpty
  | get (key : Q)
  | with' (key : Q) (f : V → ρ)
  | insert (key : K) (value : V)
  | mutate (key : Q) (f : MutFn V ρ)
  | remove (key : Q)
  | iterCloned (order : IterOrder Q W)
  | iterKeysCloned (order : IterOrder Q W)
  | iterValuesCloned (order : IterOrder Q W)
  | forEach (order : IterOrder Q W) (f : ρ → Q → V → ρ) (s : ρ)
  | forEachMut (order : IterOrder Q W) (rebuild : IterOrder K V) (f : EachMutFn Q V ρ) (s : ρ)

namespace Call

variable {Q W K V ρ : Type} [DecidableEq Q] [DecidableEq K]

/-- The type of an operation's result. -/
def Ret : Call Q W K V ρ → Type
  | init => Except Error Unit
  | clear => Unit
  | len => ℕ
  | isEmpty => Bool
  | get _ => Option V
  | with' _ _ => Option ρ
  | insert _ _ => Option V
  | mutate _ _ => Option ρ
  | remove _ => Option V
  | iterCloned _ => List (Q × V)
  | iterKeysCloned _ => List Q
  | iterValuesCloned _ => List V
  | forEach _ _ _ => ρ
  | forEachMut _ _ _ _ => ρ

/-- The operations that take a read lock. The others take a write lock. -/
def isRead : Call Q W K V ρ → Bool
  | len | isEmpty | get _ | with' _ _ => true
  | iterCloned _ | iterKeysCloned _ | iterValuesCloned _ | forEach _ _ _ => true
  | init | clear | insert _ _ | mutate _ _ | remove _ | forEachMut _ _ _ _ => false

/-- No closure of the operation unwinds. -/
def NonPanicking : Call Q W K V ρ → Prop
  | mutate _ f => ∀ v, (f v).2 ≠ none
  | forEachMut _ _ f _ => ∀ s k v, (f s k v).2 ≠ none
  | _ => True

/-- An accepted operation writes the row at `k`, or builds the indexes of all
rows anew. The key of the row that `key` stands for is `find key`. -/
def WritesRow (find : Q → Option K) (k : K) : Call Q W K V ρ → Prop
  | insert key _ => key = k
  | mutate key _ => find key = some k
  | clear | forEachMut _ _ _ _ => True
  | _ => False

/-- The operations for the owner of a table. `init` is none of them, since it
reports another owner by its result. -/
def needsOwner : Call Q W K V ρ → Bool
  | clear | insert _ _ | mutate _ _ | remove _ | forEachMut _ _ _ _ => true
  | _ => false

/-- The call is `mutate` with a key that is not found. -/
def MutatesAbsent (find : Q → Option K) : Call Q W K V ρ → Prop
  | mutate key _ => find key = none
  | _ => False

/-- The operations that set a missing owner. -/
def claims : Call Q W K V ρ → Bool
  | init | clear | insert _ _ => true
  | _ => false

end Call

section Dispatch

variable {K V I ρ : Type} [DecidableEq K] [IndexStorage K V I]

/-- A call through a table handle. -/
def TabularOps.exec (debug : Bool) (owner : Owner) (table : Table K V I) :
    (c : Call K V K V ρ) → Except Panic c.Ret × Table K V I
  | .init => ((.ok (TabularOpsMut.init table owner).1), (TabularOpsMut.init table owner).2)
  | .clear => TabularOpsMut.clear debug table owner
  | .len => (.ok (TabularOps.len table), table)
  | .isEmpty => (.ok (TabularOps.isEmpty table), table)
  | .get key => (.ok (TabularOps.get table key), table)
  | .with' key f => (.ok (TabularOps.with' table key f), table)
  | .insert key value => TabularOpsMut.insert debug table key value owner
  | .mutate key f => TabularOpsMut.mutate debug table key f owner
  | .remove key => TabularOpsMut.remove debug table key owner
  | .iterCloned order => (.ok (TabularOps.iterCloned order table), table)
  | .iterKeysCloned order => (.ok (TabularOps.iterKeysCloned order table), table)
  | .iterValuesCloned order => (.ok (TabularOps.iterValuesCloned order table), table)
  | .forEach order f s => (.ok (TabularOps.forEach order table f s), table)
  | .forEachMut order rebuild f s =>
    TabularOpsMut.forEachMut debug order rebuild table f s owner

variable {S : Schema} {t : S.Name}

/-- A call through an index handle. -/
def IndexedOps.exec (debug : Bool) (i : S.Field t) (owner : Owner) (base : BaseTable S t) :
    (c : Call (S.FieldTy t i) (S.Key t) (S.Key t) (S.Value t) ρ) →
      Except Panic c.Ret × BaseTable S t
  | .init => ((.ok (IndexedOpsMut.init base owner).1), (IndexedOpsMut.init base owner).2)
  | .clear => IndexedOpsMut.clear debug base owner
  | .len => (.ok (IndexedOps.len base), base)
  | .isEmpty => (.ok (IndexedOps.isEmpty base), base)
  | .get key => (.ok (IndexedOps.get i base key), base)
  | .with' key f => (.ok (IndexedOps.with' i base key f), base)
  | .insert key value => IndexedOpsMut.insert debug base key value owner
  | .mutate key f => IndexedOpsMut.mutate debug i base key f owner
  | .remove key => IndexedOpsMut.remove debug i base key owner
  | .iterCloned order => (.ok (IndexedOps.iterCloned i order base), base)
  | .iterKeysCloned order => (.ok (IndexedOps.iterKeysCloned i order base), base)
  | .iterValuesCloned order => (.ok (IndexedOps.iterValuesCloned i order base), base)
  | .forEach order f s => (.ok (IndexedOps.forEach i order base f s), base)
  | .forEachMut order rebuild f s =>
    IndexedOpsMut.forEachMut debug i order rebuild base f s owner

end Dispatch

/-- An operation on a singleton with its arguments. -/
inductive SingletonCall (G : Singletons) (ρ : Type) (m : G.Marker) where
  | get
  | getArc (ty : G.Ty) (harc : G.storage m = .arc ty)
  | with' (f : (G.storage m).Value G → ρ)
  | insert (value : (G.storage m).ArgValue G)
  | mutate (hmut : (G.storage m).IsMut)
      (f : (G.storage m).Value G → (G.storage m).Value G × Option ρ)
  | remove
  | clear

namespace SingletonCall

variable {G : Singletons} {ρ : Type} {m : G.Marker}

/-- The type of an operation's result. -/
def Ret : SingletonCall G ρ m → Type
  | get => Option ((G.storage m).Value G)
  | getArc ty _ => Option (Shared (G.Val ty))
  | with' _ => Option ρ
  | insert _ => Option ((G.storage m).ArgValue G)
  | mutate _ _ => Option ρ
  | remove => Option ((G.storage m).ArgValue G)
  | clear => Option ((G.storage m).ArgValue G)

/-- The operations that take a read lock. The others take a write lock. -/
def isRead : SingletonCall G ρ m → Bool
  | get | getArc _ _ | with' _ => true
  | insert _ | mutate _ _ | remove | clear => false

/-- A call on a singleton. -/
def exec (debug : Bool) (owner : Owner) (singletons : SingletonMap G) :
    (c : SingletonCall G ρ m) → Except Panic c.Ret × SingletonMap G
  | get => (SingletonOps.get singletons m, singletons)
  | getArc ty _ => (SingletonOps.getArc singletons m ty, singletons)
  | with' f => (SingletonOps.with' singletons m f, singletons)
  | insert value => SingletonOpsMut.insert debug singletons m value owner
  | mutate hmut f => SingletonOpsMut.mutate debug singletons m hmut f owner
  | remove => SingletonOpsMut.remove debug singletons m owner
  | clear => SingletonOpsMut.clear debug singletons m owner

end SingletonCall

/-- Where we store the data. -/
structure Storage (S : Schema) (G : Singletons) where
  /-- The singletons, by the type id of the marker. -/
  singletons : SingletonMap G
  /-- The tables. -/
  tables : (t : S.Name) → BaseTable S t

variable {S : Schema} {G : Singletons} {ρ : Type}

namespace Storage

/-- A new storage with no data. -/
def new : Storage S G where
  singletons := ∅
  tables _ := default

/-- The storage with one table replaced. -/
def setTable (s : Storage S G) (t : S.Name) (table : BaseTable S t) : Storage S G :=
  { s with tables := Function.update s.tables t table }

/-- A table that has been set is read back. -/
@[simp] theorem setTable_tables_self (s : Storage S G) (t : S.Name) (table : BaseTable S t) :
    (s.setTable t table).tables t = table := by simp [setTable]

/-- Setting a table keeps the others. -/
@[simp] theorem setTable_tables_of_ne (s : Storage S G) {t t' : S.Name} (table : BaseTable S t)
    (h : t' ≠ t) : (s.setTable t table).tables t' = s.tables t' := by simp [setTable, h]

/-- Setting a table to what it is changes nothing. -/
@[simp] theorem setTable_self (s : Storage S G) (t : S.Name) : s.setTable t (s.tables t) = s := by
  cases s
  simp [setTable]

/-- The storage after a read of an index table through its own handle. -/
theorem setTable_set_get (s : Storage S G) (t : S.Name) (i : S.Field t) :
    s.setTable t
      { s.tables t with
        indexes := (s.tables t).indexes.set i ((s.tables t).indexes.get i) } = s := by
  rw [Indexes.set_get]
  exact s.setTable_self t

end Storage

/-- A call through some handle of the store. -/
inductive StoreCall (S : Schema) (G : Singletons) (ρ : Type) where
  /-- Through `table::<t>`. -/
  | table (t : S.Name) (c : Call (S.Key t) (S.Value t) (S.Key t) (S.Value t) ρ)
  /-- Through `table_by::<index::t::i>`. -/
  | tableBy (t : S.Name) (i : S.Field t)
      (c : Call (S.FieldTy t i) (S.Key t) (S.Key t) (S.Value t) ρ)
  /-- Through `table::<index::t::i>`, the handle of the index table itself. -/
  | indexTable (t : S.Name) (i : S.Field t)
      (c : Call (S.FieldTy t i) (S.Key t) (S.FieldTy t i) (S.Key t) ρ)
  /-- On a singleton. -/
  | singleton (m : G.Marker) (c : SingletonCall G ρ m)

namespace StoreCall

/-- The type of a call's result. -/
def Ret : StoreCall S G ρ → Type
  | table _ c => c.Ret
  | tableBy _ _ c => c.Ret
  | indexTable _ _ c => c.Ret
  | singleton _ c => c.Ret

/-- The calls that take a read lock. The others take a write lock. -/
def isRead : StoreCall S G ρ → Bool
  | table _ c => c.isRead
  | tableBy _ _ c => c.isRead
  | indexTable _ _ c => c.isRead
  | singleton _ c => c.isRead

/-- No closure of the call unwinds. -/
def NonPanicking : StoreCall S G ρ → Prop
  | table _ c => c.NonPanicking
  | tableBy _ _ c => c.NonPanicking
  | indexTable _ _ c => c.NonPanicking
  | singleton _ _ => True

/-- The calls on table `t` through its own handle and through its indexes. -/
def OnTable (t : S.Name) : StoreCall S G ρ → Prop
  | table t' _ => t' = t
  | tableBy t' _ _ => t' = t
  | _ => False

/-- The call goes through the handle of an index table and takes a write lock. -/
def WritesIndexTable : StoreCall S G ρ → Prop
  | indexTable _ _ c => c.isRead = false
  | _ => False

/-- Execute a call on the storage behind a guard. -/
def exec (debug : Bool) (owner : Owner) (s : Storage S G) :
    (c : StoreCall S G ρ) → Except Panic c.Ret × Storage S G
  | table t c =>
    let r := TabularOps.exec debug owner (s.tables t) c
    (r.1, s.setTable t r.2)
  | tableBy t i c =>
    let r := IndexedOps.exec debug i owner (s.tables t) c
    (r.1, s.setTable t r.2)
  | indexTable t i c =>
    let r := TabularOps.exec debug owner ((s.tables t).indexes.get i) c
    (r.1, s.setTable t { s.tables t with indexes := (s.tables t).indexes.set i r.2 })
  | singleton _ c =>
    let r := c.exec debug owner s.singletons
    (r.1, { s with singletons := r.2 })

end StoreCall

/-- A call with the owner token it is made with. -/
structure Request (S : Schema) (G : Singletons) (ρ : Type) where
  /-- The owner token of the handle or of the transaction. -/
  owner : Owner
  /-- The call. -/
  call : StoreCall S G ρ

namespace Request

/-- No closure of the request unwinds, and it writes no index table through the
table's own handle. -/
def Maintained (r : Request S G ρ) : Prop :=
  r.call.NonPanicking ∧ ¬ r.call.WritesIndexTable

/-- Execute a request. -/
def exec (debug : Bool) (r : Request S G ρ) (s : Storage S G) :
    Except Panic r.call.Ret × Storage S G :=
  r.call.exec debug r.owner s

end Request

/-- What a caller asks of a store: a raw operation, or a transaction. -/
inductive Command (S : Schema) (G : Singletons) (ρ : Type) where
  /-- A raw operation. -/
  | raw (request : Request S G ρ)
  /-- The calls made in a transaction. -/
  | transaction (owner : Owner) (calls : List (StoreCall S G ρ))

/-- The requests of a command. All calls of a transaction carry its owner. -/
def Command.requests : Command S G ρ → List (Request S G ρ)
  | raw request => [request]
  | transaction owner calls => calls.map fun call => ⟨owner, call⟩

/-- The requests of a run, in the order in which the store executes them. -/
def requests (commands : List (Command S G ρ)) : List (Request S G ρ) :=
  commands.flatMap Command.requests

end TsKvstore
