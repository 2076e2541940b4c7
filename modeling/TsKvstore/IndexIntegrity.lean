import TsKvstore.IndexIteration
import TsKvstore.IndexMaintenance

/-!
# Iteration through maintained indexes

Indexes that are not written through their own handles have no entries without a row.
So an iteration through such an index runs to the end of the index and agrees with the
lookups in it. How many of the rows it reaches shows in the sizes: an index has as many
entries as there are rows if and only if it finds every row.
-/

namespace TsKvstore

open FiniteMaps Machines

variable {S : Schema} {G : Singletons} {ρ : Type} {t : S.Name} {i : S.Field t}

section

variable {base : BaseTable S t} {order : IterOrder (S.FieldTy t i) (S.Key t)}
  {l : List (S.Key t × S.Value t)}

/-- The rows that a sound index names, in the order of an iteration. -/
structure Visits (base : BaseTable S t) (i : S.Field t)
    (order : IterOrder (S.FieldTy t i) (S.Key t)) (l : List (S.Key t × S.Value t)) : Prop where
  /-- No row is visited twice. -/
  nodup : (l.map Prod.fst).Nodup
  /-- The visited rows are there. -/
  row : ∀ kv ∈ l, base.data.lookup kv.1 = some kv.2
  /-- They are visited under their indexed fields. -/
  entries : order.list (base.indexes.get i).data = l.map fun kv => (S.field i kv.2, kv.1)

/-- An iteration through a sound index visits rows only. -/
theorem exists_visits (hsound : base.SoundAt i) (order : IterOrder (S.FieldTy t i) (S.Key t)) :
    ∃ l, Visits base i order l := by
  obtain ⟨l, hnodup, hl, hentries⟩ := SoundIndex.exists_rows hsound (order.enumerates _)
  exact ⟨l, hnodup, hl, hentries⟩

namespace Visits

/-- The entry of a visited row. -/
theorem entry (h : Visits base i order l) {kv : S.Key t × S.Value t} (hkv : kv ∈ l) :
    (base.indexes.get i).data.lookup (S.field i kv.2) = some kv.1 := by
  have hmem : (S.field i kv.2, kv.1) ∈ order.list (base.indexes.get i).data := by
    rw [h.entries]
    exact List.mem_map.mpr ⟨kv, hkv, rfl⟩
  exact (order.enumerates _).lookup_of_mem hmem

/-- An iterator yields its item at every visited row. -/
theorem collect_eq {α : Type} {item : S.FieldTy t i → Option α} {g : S.Key t × S.Value t → α}
    (h : Visits base i order l) (hitem : ∀ kv ∈ l, item (S.field i kv.2) = some (g kv)) :
    (Cursor.innerIter order (base.indexes.get i).data).collect item = l.map g := by
  unfold Cursor.collect Cursor.innerIter
  dsimp only
  rw [h.entries, List.map_map]
  exact Cursor.collectFrom_map hitem

/-- The pairs that the iteration presents. -/
theorem iterCloned_eq (h : Visits base i order l) :
    IndexedOps.iterCloned i order base = l.map fun kv => (S.field i kv.2, kv.2) := by
  refine h.collect_eq fun kv hkv => ?_
  unfold IndexIterator.keysAndValues
  rw [h.entry hkv, Option.bind_some, h.row kv hkv]
  rfl

/-- The keys that the iteration presents. -/
theorem iterKeysCloned_eq (h : Visits base i order l) :
    IndexedOps.iterKeysCloned i order base = l.map fun kv => S.field i kv.2 := by
  refine h.collect_eq fun kv hkv => ?_
  unfold IndexIterator.keys
  rw [h.entry hkv]
  rfl

/-- The values that the iteration presents. -/
theorem iterValuesCloned_eq (h : Visits base i order l) :
    IndexedOps.iterValuesCloned i order base = l.map Prod.snd := by
  refine h.collect_eq fun kv hkv => ?_
  unfold IndexIterator.values
  rw [h.entry hkv, Option.bind_some, h.row kv hkv]

/-- `forEach` passes the visited rows. -/
theorem passed_eq (h : Visits base i order l) :
    IndexedOps.passed i order base = l.map fun kv => (S.field i kv.2, kv.2) := by
  have hrows : ∀ kv ∈ l,
      IndexedOps.entryRow base.data (S.field i kv.2, kv.1) = some (S.field i kv.2, kv.2) := by
    intro kv hkv
    unfold IndexedOps.entryRow
    rw [h.row kv hkv]
    rfl
  rw [IndexedOps.passed_eq, h.entries, List.filterMap_map]
  exact (List.filterMap_congr hrows).trans (congrFun List.filterMap_eq_map l)

/-- The iteration visits as many rows as the index has entries. -/
theorem length_eq (h : Visits base i order l) :
    l.length = (base.indexes.get i).data.size := by
  have hlength := (order.enumerates (base.indexes.get i).data).length_eq
  rwa [h.entries, List.length_map] at hlength

end Visits

end

/-! ## Iterations and lookups -/

/-- All iterations through an index present what the lookups in it find. -/
structure IterationAgrees (ρ : Type) (i : S.Field t) (order : IterOrder (S.FieldTy t i) (S.Key t))
    (base : BaseTable S t) : Prop where
  /-- No key is presented twice. -/
  nodup : (IndexedOps.iterKeysCloned i order base).Nodup
  /-- The presented rows are those that lookups find. -/
  mem_iff : ∀ q v, (q, v) ∈ IndexedOps.iterCloned i order base ↔
    IndexedOps.get i base q = some v
  /-- A row is presented under its indexed field. -/
  field : ∀ q v, (q, v) ∈ IndexedOps.iterCloned i order base → S.field i v = q
  /-- The keys are those of the pairs. -/
  keys : IndexedOps.iterKeysCloned i order base =
    (IndexedOps.iterCloned i order base).map Prod.fst
  /-- The values are those of the pairs. -/
  values : IndexedOps.iterValuesCloned i order base =
    (IndexedOps.iterCloned i order base).map Prod.snd
  /-- `for_each` calls its closure on the pairs. -/
  forEach : ∀ (f : ρ → S.FieldTy t i → S.Value t → ρ) (s : ρ),
    IndexedOps.forEach i order base f s =
      (IndexedOps.iterCloned i order base).foldl (fun s kv => f s kv.1 kv.2) s

/-- A lookup in a sound index finds the rows that an iteration visits. -/
theorem Visits.mem_iff {base : BaseTable S t} {order : IterOrder (S.FieldTy t i) (S.Key t)}
    {l : List (S.Key t × S.Value t)} (h : Visits base i order l) (q : S.FieldTy t i)
    (v : S.Value t) :
    (q, v) ∈ IndexedOps.iterCloned i order base ↔ IndexedOps.get i base q = some v := by
  rw [h.iterCloned_eq, List.mem_map]
  unfold IndexedOps.get
  constructor
  · rintro ⟨kv, hkv, heq⟩
    cases heq
    rw [h.entry hkv]
    exact h.row kv hkv
  · intro hget
    cases hentry : (base.indexes.get i).data.lookup q with
    | none =>
      rw [hentry] at hget
      cases hget
    | some k =>
      rw [hentry] at hget
      have hmem : (q, k) ∈ order.list (base.indexes.get i).data :=
        ((order.enumerates _).mem_iff q k).mpr hentry
      rw [h.entries] at hmem
      obtain ⟨kv, hkv, heq⟩ := List.mem_map.mp hmem
      cases heq
      have hrow := h.row kv hkv
      cases hget.symm.trans hrow
      exact ⟨kv, hkv, rfl⟩

/-- Iterations through a sound index agree with lookups. -/
theorem iterationAgrees_of_sound {base : BaseTable S t} (hsound : base.SoundAt i)
    (order : IterOrder (S.FieldTy t i) (S.Key t)) : IterationAgrees ρ i order base := by
  obtain ⟨l, h⟩ := exists_visits hsound order
  have hkeys : IndexedOps.iterKeysCloned i order base =
      (IndexedOps.iterCloned i order base).map Prod.fst := by
    rw [h.iterKeysCloned_eq, h.iterCloned_eq, List.map_map]
    rfl
  refine ⟨?_, h.mem_iff, fun q v hmem => ?_, hkeys, ?_, fun f s => ?_⟩
  · have hnodup := (order.enumerates (base.indexes.get i).data).nodup
    rw [h.entries, List.map_map] at hnodup
    rw [h.iterKeysCloned_eq]
    exact hnodup
  · rw [h.iterCloned_eq] at hmem
    obtain ⟨kv, _, heq⟩ := List.mem_map.mp hmem
    cases heq
    rfl
  · rw [h.iterValuesCloned_eq, h.iterCloned_eq, List.map_map]
    rfl
  · rw [IndexedOps.forEach_eq_foldl, h.passed_eq, h.iterCloned_eq]

/-- **Iterations agree with lookups.** After every maintained run, rows may share indexed
values, all iterations through an index present exactly the rows that lookups find in it,
each once and under its indexed field, in whatever order the hash map is visited. -/
theorem iterations_agree_with_lookups (debug : Bool) (commands : List (Command S G ρ))
    (hmaintained : ∀ r ∈ requests commands, r.Maintained) (t : S.Name) (i : S.Field t)
    (order : IterOrder (S.FieldTy t i) (S.Key t)) :
    IterationAgrees ρ i order
      ((stateAfter (Request.exec debug) (requests commands) Storage.new).tables t) :=
  iterationAgrees_of_sound (sound_stateAfter hmaintained Storage.new_sound t i) order

/-- Two people have shared an email address, and iterations still agree with lookups. -/
theorem collidingRun_iterations_agree :
    IterationAgrees Unit People.email .arbitrary
      ((stateAfter (Request.exec true) (requests collidingRun) Storage.new).tables People) :=
  iterations_agree_with_lookups true collidingRun collidingRun_maintained People People.email _

/-! ## The rows that an index reaches -/

/-- An index has at most as many entries as there are rows. It is exact if and only if it
has as many, and if and only if an iteration through it presents all rows. -/
structure SizeDecides (base : BaseTable S t) (i : S.Field t)
    (order : IterOrder (S.FieldTy t i) (S.Key t)) (rows : IterOrder (S.Key t) (S.Value t)) :
    Prop where
  len_le : TabularOps.len (base.indexes.get i) ≤ TabularOps.len base
  exact_iff_len : base.ExactAt i ↔ TabularOps.len (base.indexes.get i) = TabularOps.len base
  exact_iff_perm : base.ExactAt i ↔
    (IndexedOps.iterValuesCloned i order base).Perm (TabularOps.iterValuesCloned rows base)

/-- The size of a sound index tells whether it is exact. -/
theorem sizeDecides_of_sound {base : BaseTable S t} (hsound : base.SoundAt i)
    (order : IterOrder (S.FieldTy t i) (S.Key t)) (rows : IterOrder (S.Key t) (S.Value t)) :
    SizeDecides base i order rows := by
  have hsize := SoundIndex.exact_iff_size hsound
  obtain ⟨l, h⟩ := exists_visits hsound order
  have hvalues : TabularOps.iterValuesCloned rows base = (rows.list base.data).map Prod.snd :=
    TableIterator.collect_values rows base.data
  refine ⟨SoundIndex.size_le hsound, hsize, ?_, fun hperm => ?_⟩
  · intro hexact
    have hall := (enumerates_of_rows h.nodup h.row).2 (h.length_eq.trans (hsize.mp hexact))
    rw [h.iterValuesCloned_eq, hvalues]
    exact (hall.perm (rows.enumerates base.data)).map Prod.snd
  · rw [h.iterValuesCloned_eq, hvalues] at hperm
    have hlength := hperm.length_eq
    rw [List.length_map, List.length_map, h.length_eq, (rows.enumerates _).length_eq] at hlength
    exact hsize.mpr hlength

/-- **The size of an index.** After every maintained run, the lengths of an index table and
of its base table tell whether the index is exact, and if it is, then an iteration through
it presents the values of all rows. -/
theorem index_len_decides (debug : Bool) (commands : List (Command S G ρ))
    (hmaintained : ∀ r ∈ requests commands, r.Maintained) (t : S.Name) (i : S.Field t)
    (order : IterOrder (S.FieldTy t i) (S.Key t)) (rows : IterOrder (S.Key t) (S.Value t)) :
    SizeDecides ((stateAfter (Request.exec debug) (requests commands) Storage.new).tables t) i
      order rows :=
  sizeDecides_of_sound (sound_stateAfter hmaintained Storage.new_sound t i) order rows

/-- The size of the index decides also after two people have shared an email address. -/
theorem collidingRun_len_decides :
    SizeDecides
      ((stateAfter (Request.exec true) (requests collidingRun) Storage.new).tables People)
      People.email .arbitrary .arbitrary :=
  index_len_decides true collidingRun collidingRun_maintained People People.email _ _

end TsKvstore
