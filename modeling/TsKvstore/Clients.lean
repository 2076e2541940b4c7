import TsKvstore.Lib.RwLock
import TsKvstore.OperationSpecs

/-!
# Clients of a shared store

A store is one storage behind one `RwLock`. Each raw operation takes a guard for
its own duration, an iterator holds a read guard from its creation until it is
dropped, and a transaction holds a write guard, or a read guard if it is
read-only. `unwrap` of a poisoned lock panics, and a panic that begins under a write
guard poisons the lock.
-/

namespace TsKvstore

open FiniteMaps RwLocks

/-! ## Iterators as values -/

/-- The kinds of an iterator. -/
inductive IterKind where
  | keysAndValues
  | keys
  | values

/-- The items of an iterator over keys `Q` and values `V`. -/
def IterKind.Item (Q V : Type) : IterKind → Type
  | keysAndValues => Q × V
  | keys => Q
  | values => V

/-- An iterator of a handle, with the order of the hash map. -/
inductive IterCall (S : Schema) where
  /-- Through `table::<t>`. -/
  | table (t : S.Name) (kind : IterKind) (order : IterOrder (S.Key t) (S.Value t))
  /-- Through `table_by::<index::t::i>`. -/
  | tableBy (t : S.Name) (i : S.Field t) (kind : IterKind)
      (order : IterOrder (S.FieldTy t i) (S.Key t))
  /-- Through `table::<index::t::i>`. -/
  | indexTable (t : S.Name) (i : S.Field t) (kind : IterKind)
      (order : IterOrder (S.FieldTy t i) (S.Key t))

variable {S : Schema} {G : Singletons} {ρ : Type}

namespace IterCall

/-- The keys of the buckets that the iterator visits. -/
def Bucket : IterCall S → Type
  | table t _ _ => S.Key t
  | tableBy t i _ _ => S.FieldTy t i
  | indexTable t i _ _ => S.FieldTy t i

/-- The items that the iterator yields. -/
def Item : IterCall S → Type
  | table t kind _ => kind.Item (S.Key t) (S.Value t)
  | tableBy t i kind _ => kind.Item (S.FieldTy t i) (S.Value t)
  | indexTable t i kind _ => kind.Item (S.FieldTy t i) (S.Key t)

/-- The iterator at its start. -/
def new (s : Storage S G) : (it : IterCall S) → Cursor it.Bucket
  | table t _ order => Cursor.innerIter (Q := S.Key t) order (s.tables t).data
  | tableBy t i _ order =>
    Cursor.innerIter (Q := S.FieldTy t i) order ((s.tables t).indexes.get i).data
  | indexTable t i _ order =>
    Cursor.innerIter (Q := S.FieldTy t i) order ((s.tables t).indexes.get i).data

/-- What an iterator over a table yields at a bucket. -/
def tableItem {Q W : Type} [DecidableEq Q] (data : FiniteMap Q W) :
    (kind : IterKind) → Q → Option (kind.Item Q W)
  | .keysAndValues => TableIterator.keysAndValues data
  | .keys => TableIterator.keys data
  | .values => TableIterator.values data

/-- What an iterator over an index yields at a bucket. -/
def indexItem {Q K V : Type} [DecidableEq Q] [DecidableEq K] (index : FiniteMap Q K)
    (base : FiniteMap K V) : (kind : IterKind) → Q → Option (kind.Item Q V)
  | .keysAndValues => IndexIterator.keysAndValues index base
  | .keys => IndexIterator.keys index
  | .values => IndexIterator.values index base

/-- What the iterator yields at a bucket. -/
def item (s : Storage S G) : (it : IterCall S) → it.Bucket → Option it.Item
  | table t kind _ => tableItem (Q := S.Key t) (s.tables t).data kind
  | tableBy t i kind _ =>
    indexItem (Q := S.FieldTy t i) ((s.tables t).indexes.get i).data (s.tables t).data kind
  | indexTable t i kind _ =>
    tableItem (Q := S.FieldTy t i) ((s.tables t).indexes.get i).data kind

/-- One step of the iterator. -/
def next (s : Storage S G) (it : IterCall S) (cursor : Cursor it.Bucket) :
    Option it.Item × Cursor it.Bucket :=
  cursor.next (it.item s)

end IterCall

/-! ## Actions under a guard -/

/-- The storage and the flag of its lock. -/
structure LockedStorage (S : Schema) (G : Singletons) where
  /-- A writer has unwound while it held its guard. -/
  poisoned : Bool
  /-- The storage. -/
  storage : Storage S G

/-- What a thread does while it holds a guard. -/
inductive StoreAct (S : Schema) (G : Singletons) (ρ : Type) where
  /-- Look at the flag, which decides whether `unwrap` panics. -/
  | isPoisoned
  /-- Set the flag, when a write guard is dropped in a panic. -/
  | poison
  /-- A call. -/
  | request (r : Request S G ρ)
  /-- Create an iterator. -/
  | newIter (it : IterCall S)
  /-- Advance an iterator. -/
  | nextItem (it : IterCall S) (cursor : Cursor it.Bucket)

namespace StoreAct

/-- The type of an action's result. -/
def Ret : StoreAct S G ρ → Type
  | isPoisoned => Bool
  | poison => Unit
  | request r => Except Panic r.call.Ret
  | newIter it => Cursor it.Bucket
  | nextItem it _ => Option it.Item × Cursor it.Bucket

/-- The actions that a read guard allows. -/
def isRead : StoreAct S G ρ → Bool
  | isPoisoned | newIter _ | nextItem _ _ => true
  | poison => false
  | request r => r.call.isRead

/-- Execute an action. -/
def exec (debug : Bool) :
    (a : StoreAct S G ρ) → LockedStorage S G → a.Ret × LockedStorage S G
  | isPoisoned, s => (s.poisoned, s)
  | poison, s => ((), { s with poisoned := true })
  | request r, s =>
    ((r.exec debug s.storage).1, { s with storage := (r.exec debug s.storage).2 })
  | newIter it, s => (it.new s.storage, s)
  | nextItem it cursor, s => (it.next s.storage cursor, s)

end StoreAct

/-- The actions on the storage of a store. -/
def storeActions (S : Schema) (G : Singletons) (ρ : Type) (debug : Bool) :
    Actions (LockedStorage S G) where
  Act := StoreAct S G ρ
  Ret := StoreAct.Ret
  exec := StoreAct.exec debug
  isRead := StoreAct.isRead
  exec_of_isRead a s ha := by
    cases a with
    | isPoisoned | newIter _ | nextItem _ _ => rfl
    | poison => cases ha
    | request r =>
      have hsame : (r.exec debug s.storage).2 = s.storage := StoreCall.exec_of_isRead ha
      simp only [StoreAct.exec, hsame]

/-! ## Iterations -/

section

variable {debug : Bool}

/-- The items of an iterator that is created and runs to its end on one storage. -/
def IterCall.all (s : Storage S G) (it : IterCall S) : List it.Item :=
  (it.new s).collect (it.item s)

/-- Steps of an iterator from a cursor, each at the cursor that the step before has left.
They have yielded the items, and the last one has found the end if `ended` is true. -/
inductive Iterated (it : IterCall S) :
    Cursor it.Bucket → List (Σ a : StoreAct S G ρ, a.Ret) → List it.Item → Bool → Prop
  /-- The iterator is not advanced any more. -/
  | paused (cursor : Cursor it.Bucket) : Iterated it cursor [] [] false
  /-- The iterator has yielded nothing. -/
  | ended (cursor cursor' : Cursor it.Bucket) :
    Iterated it cursor [⟨.nextItem it cursor, (none, cursor')⟩] [] true
  /-- The iterator has yielded an item. -/
  | item (cursor cursor' : Cursor it.Bucket) (x : it.Item)
    {steps : List (Σ a : StoreAct S G ρ, a.Ret)} {items : List it.Item} {ended : Bool}
    (hrest : Iterated it cursor' steps items ended) :
    Iterated it cursor (⟨.nextItem it cursor, (some x, cursor')⟩ :: steps) (x :: items) ended

/-- Steps whose results are those of one storage yield what the iterator collects on it. -/
theorem Iterated.items_of_results {it : IterCall S} {cursor : Cursor it.Bucket}
    {steps : List (Σ a : StoreAct S G ρ, a.Ret)} {items : List it.Item} {ended : Bool}
    (h : Iterated it cursor steps items ended) {s : LockedStorage S G}
    (hsteps : ∀ step ∈ steps, (StoreAct.exec debug step.1 s).1 = step.2) :
    items <+: cursor.collect (it.item s.storage) ∧
      (ended = true → items = cursor.collect (it.item s.storage)) := by
  induction h with
  | paused cursor => exact ⟨List.nil_prefix, nofun⟩
  | ended cursor cursor' =>
    have hnext : cursor.next (it.item s.storage) = (none, cursor') :=
      hsteps _ List.mem_cons_self
    rw [Cursor.collect_eq, hnext]
    exact ⟨List.nil_prefix, fun _ => rfl⟩
  | item cursor cursor' x hrest ih =>
    have hnext : cursor.next (it.item s.storage) = (some x, cursor') :=
      hsteps _ List.mem_cons_self
    obtain ⟨hbegins, hall⟩ := ih fun step hstep => hsteps step (List.mem_cons_of_mem _ hstep)
    rw [Cursor.collect_eq, hnext]
    exact ⟨List.cons_prefix_cons.mpr ⟨rfl, hbegins⟩, fun hended => congrArg _ (hall hended)⟩

end

/-! ## Clients -/

/-- The program of a client. Iterators and transactions are named by numbers,
and what the client does next depends on the results so far. -/
inductive Client (S : Schema) (G : Singletons) (ρ : Type) where
  | done
  /-- A raw operation. The thread may be unwinding from a panic when it takes the guard. -/
  | raw (panicking : Bool) (r : Request S G ρ) (next : Except Panic r.call.Ret → Client S G ρ)
  /-- Create an iterator through a raw handle. -/
  | newIter (h : ℕ) (it : IterCall S) (next : Except Panic (Cursor it.Bucket) → Client S G ρ)
  /-- Advance an iterator. -/
  | nextItem (h : ℕ) (it : IterCall S) (cursor : Cursor it.Bucket)
      (next : Option it.Item → Cursor it.Bucket → Client S G ρ)
  /-- Drop an iterator. -/
  | dropIter (h : ℕ) (next : Client S G ρ)
  /-- `begin_transaction`. -/
  | beginTransaction (h : ℕ) (owner : Owner) (next : Except Panic Unit → Client S G ρ)
  /-- `try_begin_transaction`, which tells whether it has started one. -/
  | tryBeginTransaction (h : ℕ) (owner : Owner) (next : Except Panic Bool → Client S G ρ)
  /-- A call in a transaction. -/
  | call (h : ℕ) (call : StoreCall S G ρ) (next : Except Panic call.Ret → Client S G ρ)
  /-- `commit`, or the end of the scope. It is `unwinding` if a panic leaves the scope and
  the thread was not panicking when the transaction began. -/
  | endTransaction (h : ℕ) (unwinding : Bool) (next : Client S G ρ)
  /-- `begin_ro_transaction`. -/
  | beginRoTransaction (h : ℕ) (owner : Owner) (next : Except Panic Unit → Client S G ρ)
  /-- `try_begin_ro_transaction`. -/
  | tryBeginRoTransaction (h : ℕ) (owner : Owner) (next : Except Panic Bool → Client S G ρ)
  /-- A call in a read-only transaction. -/
  | readCall (h : ℕ) (call : StoreCall S G ρ) (hread : call.isRead = true)
      (next : Except Panic call.Ret → Client S G ρ)
  /-- The end of a read-only transaction. -/
  | endRoTransaction (h : ℕ) (next : Client S G ρ)

/-- The programs of threads that share a store. The guard of a raw operation has
no number. -/
abbrev StoreProg (S : Schema) (G : Singletons) (ρ : Type) (debug : Bool) :=
  Prog (storeActions S G ρ debug) (Option ℕ)

section

variable {debug : Bool}

/-- The actions as actions of the storage of a store. -/
abbrev perform (h : Option ℕ) (a : StoreAct S G ρ) (next : a.Ret → StoreProg S G ρ debug) :
    StoreProg S G ρ debug :=
  .exec (A := storeActions S G ρ debug) h a next

/-- Look at the flag of a lock that has been acquired. The guard in the error of a
poisoned lock is dropped in the panic. -/
def unwrapGuard (h : Option ℕ) (poisoned next : StoreProg S G ρ debug) : StoreProg S G ρ debug :=
  perform h .isPoisoned fun isPoisoned =>
    match isPoisoned with
    | true => .release h poisoned
    | false => next

/-- `read().unwrap()` and `write().unwrap()`. -/
def lockUnwrap (h : Option ℕ) (mode : Mode) (poisoned next : StoreProg S G ρ debug) :
    StoreProg S G ρ debug :=
  .acquire h mode (unwrapGuard h poisoned next)

/-- `try_read()` and `try_write()`. A busy lock is no error. -/
def tryLock (h : Option ℕ) (mode : Mode) (busy poisoned next : StoreProg S G ρ debug) :
    StoreProg S G ρ debug :=
  .tryAcquire h mode fun granted =>
    match granted with
    | true => unwrapGuard h poisoned next
    | false => busy

/-- The guard that a raw operation takes. -/
def StoreCall.mode (call : StoreCall S G ρ) : Mode := if call.isRead then .read else .write

/-- Whether a raw operation poisons the lock: it has panicked under a write guard, and its
thread was not panicking already when it took the guard. -/
def poisonsLock {α : Type} (panicking : Bool) (mode : Mode) : Except Panic α → Bool
  | .error _ => !panicking && decide (mode = .write)
  | .ok _ => false

/-- Only a write guard poisons the lock. -/
theorem mode_of_poisonsLock {α : Type} {panicking : Bool} {mode : Mode} {result : Except Panic α}
    (h : poisonsLock panicking mode result = true) : mode = .write := by
  cases result with
  | ok value => cases h
  | error panic => exact of_decide_eq_true (Bool.and_eq_true_iff.mp h).2

/-- The end of a raw operation. -/
def releaseRaw {α : Type} (panicking : Bool) (mode : Mode) (result : Except Panic α)
    (next : StoreProg S G ρ debug) : StoreProg S G ρ debug :=
  match poisonsLock panicking mode result with
  | true => perform none .poison fun _ => .release none next
  | false => .release none next

namespace Client

/-- The program of a client as a program of its thread. The calls of transaction
`h` carry its owner, which is `owners h`. -/
def prog (debug : Bool) : Client S G ρ → (ℕ → Owner) → StoreProg S G ρ debug
  | done, _ => .done
  | raw panicking r next, owners =>
    lockUnwrap none r.call.mode ((next (.error .poisoned)).prog debug owners) <|
      perform none (.request r) fun result =>
        releaseRaw panicking r.call.mode result ((next result).prog debug owners)
  | newIter h it next, owners =>
    lockUnwrap (some h) .read ((next (.error .poisoned)).prog debug owners) <|
      perform (some h) (.newIter it) fun cursor => (next (.ok cursor)).prog debug owners
  | nextItem h it cursor next, owners =>
    perform (some h) (.nextItem it cursor) fun (item, cursor) =>
      (next item cursor).prog debug owners
  | dropIter h next, owners => .release (some h) (next.prog debug owners)
  | beginTransaction h owner next, owners =>
    lockUnwrap (some h) .write ((next (.error .poisoned)).prog debug owners)
      ((next (.ok ())).prog debug (Function.update owners h owner))
  | tryBeginTransaction h owner next, owners =>
    tryLock (some h) .write ((next (.ok false)).prog debug owners)
      ((next (.error .poisoned)).prog debug owners)
      ((next (.ok true)).prog debug (Function.update owners h owner))
  | call h c next, owners =>
    perform (some h) (.request ⟨owners h, c⟩) fun result => (next result).prog debug owners
  | endTransaction h unwinding next, owners =>
    match unwinding with
    | true => perform (some h) .poison fun _ => .release (some h) (next.prog debug owners)
    | false => .release (some h) (next.prog debug owners)
  | beginRoTransaction h owner next, owners =>
    lockUnwrap (some h) .read ((next (.error .poisoned)).prog debug owners)
      ((next (.ok ())).prog debug (Function.update owners h owner))
  | tryBeginRoTransaction h owner next, owners =>
    tryLock (some h) .read ((next (.ok false)).prog debug owners)
      ((next (.error .poisoned)).prog debug owners)
      ((next (.ok true)).prog debug (Function.update owners h owner))
  | readCall h c _ next, owners =>
    perform (some h) (.request ⟨owners h, c⟩) fun result => (next result).prog debug owners
  | endRoTransaction h next, owners => .release (some h) (next.prog debug owners)

/-- The thread of a client before its first step. -/
def start (debug : Bool) (client : Client S G ρ) : StoreProg S G ρ debug :=
  client.prog debug fun _ => ""

end Client

/-- The clients of a store before their first steps. -/
def startClients {ι : Type} (debug : Bool) (clients : ι → Client S G ρ)
    (s : LockedStorage S G) : Config (storeActions S G ρ debug) ι (Option ℕ) :=
  Config.initial s fun i => (clients i).start debug

end

/-! ## An iteration and an insertion -/

/-- The client is done if the operation has panicked. -/
def Client.unlessPanic {α : Type} (next : α → Client S G ρ) : Except Panic α → Client S G ρ
  | .error _ => .done
  | .ok value => next value

/-- A client that inserts a person. -/
def insertPerson : Client people noSingletons Unit :=
  .raw false
    ⟨"owner", .table People (.insert (1 : UInt32) (People.person "a@example.com" [97]))⟩
    fun _ => .done

/-- A client that looks at the first key of an iteration over the people. -/
noncomputable def iteratePeople : Client people noSingletons Unit :=
  .newIter 0 (.table People .keys .arbitrary) <| .unlessPanic fun cursor =>
    .nextItem 0 _ cursor fun _ _ => .dropIter 0 .done

/-- One client iterates over the people while the other inserts a person. -/
noncomputable def iterateAndInsert (i : Bool) : Client people noSingletons Unit :=
  if i then insertPerson else iteratePeople

/-- The insertion is requested during the iteration and executed after it. -/
noncomputable def iterationRun :=
  runSchedule (fun _ _ => false)
    [false, false, false, false, true, false, true, false, true, true, true, true]
    (startClients true iterateAndInsert ⟨false, Storage.new⟩)

end TsKvstore
