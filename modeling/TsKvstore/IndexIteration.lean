import TsKvstore.Store

/-!
# Iterators over an index whose entries may name no row

An index table can be written through its own handle, so an index can hold
entries that name no row of the base table. `for_each` skips them. An iterator
ends at the first of them, since `next` returns `None` when the lookup of the
base row fails. The two agree exactly if these entries come last in the order in
which the index is visited.
-/

namespace TsKvstore

open FiniteMaps Machines

variable {S : Schema} {t : S.Name} {ρ : Type}

namespace IndexedOps

/-- The row that an index entry names, under the key of the entry. -/
def entryRow {Q : Type} (data : FiniteMap (S.Key t) (S.Value t)) (e : Q × S.Key t) :
    Option (Q × S.Value t) :=
  (data.lookup e.2).map fun v => (e.1, v)

/-- The pairs that `forEach` passes to its closure, in the order of the calls. -/
def passed (i : S.Field t) (order : IterOrder (S.FieldTy t i) (S.Key t)) (base : BaseTable S t) :
    List (S.FieldTy t i × S.Value t) :=
  forEach i order base (fun pairs k v => pairs ++ [(k, v)]) []

/-- The loop of `forEach` calls its closure on the rows of the entries that name
one. -/
theorem forEachLoop_eq_foldl {Q : Type} (data : FiniteMap (S.Key t) (S.Value t))
    (f : ρ → Q → S.Value t → ρ) (entries : List (Q × S.Key t)) (s : ρ) :
    forEachLoop data f entries s =
      (entries.filterMap (entryRow data)).foldl (fun s kv => f s kv.1 kv.2) s := by
  induction entries generalizing s with
  | nil => rfl
  | cons e rest ih =>
    obtain ⟨k, baseKey⟩ := e
    rw [forEachLoop]
    cases hrow : data.lookup baseKey with
    | none =>
      have hskip : entryRow data (k, baseKey) = none := by simp [entryRow, hrow]
      rw [List.filterMap_cons_none hskip]
      exact ih s
    | some v =>
      have hcall : entryRow data (k, baseKey) = some (k, v) := by simp [entryRow, hrow]
      rw [List.filterMap_cons_some hcall, List.foldl_cons]
      exact ih (f s k v)

section

variable (i : S.Field t) (order : IterOrder (S.FieldTy t i) (S.Key t)) (base : BaseTable S t)

/-- The rows that an iteration passes are those that the entries name. -/
theorem passed_eq :
    passed i order base =
      (order.list (base.indexes.get i).data).filterMap (entryRow base.data) := by
  unfold passed forEach
  rw [forEachLoop_eq_foldl]
  simp [List.foldl_append_eq_append, ← List.flatMap_def]

/-- `forEach` folds its closure over the passed pairs. -/
theorem forEach_eq_foldl (f : ρ → S.FieldTy t i → S.Value t → ρ) (s : ρ) :
    forEach i order base f s = (passed i order base).foldl (fun s kv => f s kv.1 kv.2) s := by
  rw [passed_eq]
  exact forEachLoop_eq_foldl base.data f _ s

/-- An iterator looks the base row of every entry up that it visits. -/
theorem iterCloned_eq_collectFrom :
    iterCloned i order base =
      Cursor.collectFrom (entryRow base.data) (order.list (base.indexes.get i).data) := by
  refine Cursor.collectFrom_map_congr fun e he => ?_
  have hentry : (base.indexes.get i).data.lookup e.1 = some e.2 :=
    (order.enumerates _).lookup_of_mem he
  unfold IndexIterator.keysAndValues
  rw [hentry]
  rfl

/-- The two kinds of iterator that look base rows up end at the same entry. -/
theorem iterValuesCloned_eq_map :
    iterValuesCloned i order base = (iterCloned i order base).map Prod.snd := by
  rw [iterCloned_eq_collectFrom, ← Cursor.collectFrom_option_map]
  refine Cursor.collectFrom_map_congr fun e he => ?_
  have hentry : (base.indexes.get i).data.lookup e.1 = some e.2 :=
    (order.enumerates _).lookup_of_mem he
  unfold IndexIterator.values entryRow
  rw [hentry, Option.map_map]
  exact (Option.map_id' ..).symm

end

end IndexedOps

/-- Among the entries, in the order in which they are visited, no entry that names
a row comes after one that names none. -/
def DanglingLast {Q K V : Type} [DecidableEq K] (data : FiniteMap K V) (entries : List (Q × K)) :
    Prop :=
  entries.Pairwise fun e e' => data.lookup e.2 = none → data.lookup e'.2 = none

/-- An iterator does not get past the first entry that names no row. -/
theorem IndexedOps.iterCloned_eq_passed_iff (i : S.Field t)
    (order : IterOrder (S.FieldTy t i) (S.Key t)) (base : BaseTable S t) :
    iterCloned i order base = passed i order base ↔
      DanglingLast base.data (order.list (base.indexes.get i).data) := by
  rw [iterCloned_eq_collectFrom, passed_eq, Cursor.collectFrom_eq_filterMap_iff]
  simp only [entryRow, Option.map_eq_none_iff]
  rfl

/-- **Iterators and `for_each`.** The iterators over an index yield what `for_each`
passes to its closure if and only if the entries that name no row come last. -/
theorem iterators_agree_iff (i : S.Field t) (order : IterOrder (S.FieldTy t i) (S.Key t))
    (base : BaseTable S t) :
    (IndexedOps.iterCloned i order base = IndexedOps.passed i order base ∧
      IndexedOps.iterValuesCloned i order base =
        (IndexedOps.passed i order base).map Prod.snd ∧
      ∀ kv ∈ IndexedOps.passed i order base,
        kv ∈ IndexedOps.iterCloned i order base ∧
          kv.2 ∈ IndexedOps.iterValuesCloned i order base) ↔
      DanglingLast base.data (order.list (base.indexes.get i).data) := by
  rw [← IndexedOps.iterCloned_eq_passed_iff]
  constructor
  · rintro ⟨hcloned, _⟩
    exact hcloned
  · intro hcloned
    have hvalues := IndexedOps.iterValuesCloned_eq_map i order base
    rw [hcloned] at hvalues ⊢
    refine ⟨rfl, hvalues, fun kv hkv => ⟨hkv, ?_⟩⟩
    rw [hvalues]
    exact List.mem_map.mpr ⟨kv, hkv, rfl⟩

/-- A person is inserted, and then an entry for another key is written through the
handle of the index table on the first field. -/
def danglingRun : List (Command people noSingletons Unit) :=
  [.raw ⟨"owner", .table People (.insert (1 : UInt32) (People.person "a@example.com" [97]))⟩,
   .raw ⟨"owner", .indexTable People People.email (.insert "x@example.com" (7 : UInt32))⟩]

/-- The table after the run. -/
def danglingTable : BaseTable people People :=
  (stateAfter (Request.exec true) (requests danglingRun) Storage.new).tables People

/-- The entries of the index on the first field, the one without a row in front. -/
def danglingEntries : List (people.FieldTy People People.email × people.Key People) :=
  [("x@example.com", (7 : UInt32)), ("a@example.com", (1 : UInt32))]

/-- The list presents all entries of the index. -/
theorem danglingEntries_enumerates :
    Enumerates danglingEntries (danglingTable.indexes.get People.email).data :=
  ((enumerates_empty_iff.mpr rfl).insert rfl _).insert (by decide) _

/-- **An entry without a row ends an iterator.** If the order of the index puts it
first, the iterators yield nothing, and `for_each` passes the row of the person. -/
theorem dangling_entry_ends_iterator :
    ¬ ∀ (commands : List (Command people noSingletons Unit)) (t : people.Name)
      (i : people.Field t) (order : IterOrder (people.FieldTy t i) (people.Key t)),
      let base := (stateAfter (Request.exec true) (requests commands) Storage.new).tables t
      IndexedOps.iterCloned i order base = IndexedOps.passed i order base ∧
        IndexedOps.iterValuesCloned i order base =
          (IndexedOps.passed i order base).map Prod.snd ∧
        ∀ kv ∈ IndexedOps.passed i order base,
          kv ∈ IndexedOps.iterCloned i order base ∧
            kv.2 ∈ IndexedOps.iterValuesCloned i order base := by
  intro hclaim
  have hagree := hclaim danglingRun People People.email (.presenting danglingEntries_enumerates)
  have hlast := (IndexedOps.iterCloned_eq_passed_iff People.email _ danglingTable).mp hagree.1
  rw [IterOrder.presenting_list] at hlast
  revert hlast
  unfold DanglingLast
  decide

end TsKvstore
