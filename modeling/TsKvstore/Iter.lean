import TsKvstore.Schema

/-!
# Iterators over a table and over an index

An iterator wraps an iterator over the buckets of one hash map and reads the
map behind its guard at every step. The wrapped iterator is a cursor, the keys
of the buckets still to be visited. What a step yields depends on the kind of
the iterator: an index iterator of two kinds also looks the base row up, and
ends early if there is none.
-/

namespace TsKvstore

open FiniteMaps

/-- The state of an iterator over the buckets of a hash map. -/
structure Cursor (Q : Type) where
  /-- The keys of the buckets still to be visited. -/
  inner : List Q

namespace Cursor

variable {Q W α : Type}

/-- `inner_iter`, an iterator at the start of a table's data. -/
def innerIter [DecidableEq Q] (order : IterOrder Q W) (data : FiniteMap Q W) : Cursor Q :=
  ⟨(order.list data).map Prod.fst⟩

/-- `next` of an iterator that yields `item k` at the bucket of `k`. -/
def next (item : Q → Option α) (it : Cursor Q) : Option α × Cursor Q :=
  match it.inner with
  | [] => (none, it)
  | k :: rest => (item k, ⟨rest⟩)

/-- The elements yielded until `next` first returns `None`. -/
def collectFrom (item : Q → Option α) : List Q → List α
  | [] => []
  | k :: rest =>
    match item k with
    | none => []
    | some a => a :: collectFrom item rest

/-- `collect` of an iterator. -/
def collect (item : Q → Option α) (it : Cursor Q) : List α := collectFrom item it.inner

/-- `collect` calls `next` until it returns `None`. -/
theorem collect_eq (item : Q → Option α) (it : Cursor Q) :
    it.collect item =
      match it.next item with
      | (none, _) => []
      | (some a, it') => a :: it'.collect item := by
  obtain ⟨inner⟩ := it
  cases inner with
  | nil => rfl
  | cons k rest =>
    simp only [collect, next, collectFrom]
    cases item k <;> rfl

/-- Iterators that yield the same at every bucket yield the same list. -/
theorem collectFrom_map_congr {β : Type} {item : Q → Option α} {key : β → Q}
    {item' : β → Option α} {l : List β} (h : ∀ b ∈ l, item (key b) = item' b) :
    collectFrom item (l.map key) = collectFrom item' l := by
  induction l with
  | nil => rfl
  | cons b l ih =>
    rw [List.map_cons, collectFrom, collectFrom, h b List.mem_cons_self,
      ih fun b' hb' => h b' (List.mem_cons_of_mem b hb')]

/-- Mapping the items commutes with collecting them. -/
theorem collectFrom_option_map {β : Type} (g : α → β) (item : Q → Option α) (l : List Q) :
    collectFrom (fun k => (item k).map g) l = (collectFrom item l).map g := by
  induction l with
  | nil => rfl
  | cons k rest ih =>
    rw [collectFrom, collectFrom]
    cases item k with
    | none => rfl
    | some a => exact congrArg (g a :: ·) ih

/-- Stopping at the first bucket that yields nothing is skipping all buckets that
yield nothing if and only if no bucket after such a one yields anything. -/
theorem collectFrom_eq_filterMap_iff {item : Q → Option α} {l : List Q} :
    collectFrom item l = l.filterMap item ↔
      l.Pairwise fun k k' => item k = none → item k' = none := by
  induction l with
  | nil => simp [collectFrom]
  | cons k rest ih =>
    rw [collectFrom, List.pairwise_cons]
    cases hk : item k with
    | none =>
      rw [List.filterMap_cons_none hk, eq_comm, List.filterMap_eq_nil_iff]
      constructor
      · intro hnone
        refine ⟨fun k' hk' _ => hnone k' hk', ?_⟩
        exact List.pairwise_of_forall_mem_list fun _ _ k' hk' _ => hnone k' hk'
      · exact fun hgaps k' hk' => hgaps.1 k' hk' rfl
    | some a =>
      rw [List.filterMap_cons_some hk, List.cons.injEq, ih]
      constructor
      · rintro ⟨_, hgaps⟩
        exact ⟨fun _ _ hnone => absurd hnone (Option.some_ne_none a), hgaps⟩
      · exact fun hgaps => ⟨rfl, hgaps.2⟩

/-- An iterator that yields something at every bucket yields everything. -/
theorem collectFrom_map {β : Type} {item : Q → Option α} {key : β → Q} {g : β → α} {l : List β}
    (h : ∀ b ∈ l, item (key b) = some (g b)) : collectFrom item (l.map key) = l.map g := by
  have hgaps : l.Pairwise fun b b' => some (g b) = none → some (g b') = none :=
    List.pairwise_of_forall_mem_list fun b _ _ _ hnone => absurd hnone (Option.some_ne_none _)
  rw [collectFrom_map_congr h, collectFrom_eq_filterMap_iff.mpr hgaps]
  exact congrFun List.filterMap_eq_map l

end Cursor

/-! ## The kinds of `TableIterator` -/

namespace TableIterator

variable {Q W : Type} [DecidableEq Q]

/-- `KeysAndValues`: the bucket itself. -/
def keysAndValues (data : FiniteMap Q W) (k : Q) : Option (Q × W) :=
  (data.lookup k).map fun v => (k, v)

/-- `Keys`: the key of the bucket. -/
def keys (data : FiniteMap Q W) (k : Q) : Option Q := (data.lookup k).map fun _ => k

/-- `Values`: the value of the bucket. -/
def values (data : FiniteMap Q W) (k : Q) : Option W := data.lookup k

variable (order : IterOrder Q W) (data : FiniteMap Q W)

/-- An iterator over keys and values yields every row once. -/
theorem collect_keysAndValues :
    (Cursor.innerIter order data).collect (keysAndValues data) = order.list data := by
  have hitem : ∀ kv ∈ order.list data, keysAndValues data kv.1 = some kv := by
    intro kv hkv
    unfold keysAndValues
    rw [(order.enumerates data).lookup_of_mem hkv]
    rfl
  have hcollect := Cursor.collectFrom_map hitem
  rw [List.map_id'] at hcollect
  exact hcollect

/-- An iterator over keys yields the key of every row once. -/
theorem collect_keys :
    (Cursor.innerIter order data).collect (keys data) = (order.list data).map Prod.fst := by
  have hitem : ∀ kv ∈ order.list data, keys data kv.1 = some kv.1 := by
    intro kv hkv
    unfold keys
    rw [(order.enumerates data).lookup_of_mem hkv]
    rfl
  exact Cursor.collectFrom_map hitem

/-- An iterator over values yields the value of every row once. -/
theorem collect_values :
    (Cursor.innerIter order data).collect (values data) = (order.list data).map Prod.snd := by
  have hitem : ∀ kv ∈ order.list data, values data kv.1 = some kv.2 :=
    fun kv hkv => (order.enumerates data).lookup_of_mem hkv
  exact Cursor.collectFrom_map hitem

end TableIterator

/-! ## The kinds of `IndexIterator` -/

namespace IndexIterator

variable {Q K V : Type} [DecidableEq Q] [DecidableEq K]

/-- `KeysAndValues`: the key of the index bucket and the base row it names. -/
def keysAndValues (index : FiniteMap Q K) (base : FiniteMap K V) (k : Q) : Option (Q × V) :=
  (index.lookup k).bind fun bk => (base.lookup bk).map fun v => (k, v)

/-- `Keys`: the key of the index bucket, without a look at the base table. -/
def keys (index : FiniteMap Q K) (k : Q) : Option Q := (index.lookup k).map fun _ => k

/-- `Values`: the base row that the index bucket names. -/
def values (index : FiniteMap Q K) (base : FiniteMap K V) (k : Q) : Option V :=
  (index.lookup k).bind fun bk => base.lookup bk

end IndexIterator

end TsKvstore
