import Mathlib.Data.Finmap

/-!
# Finite maps and the orders in which they can be visited

A hash map is, up to the order of its buckets, a finite map. Mathlib's `Finmap`
supplies the map; this file adds the orders. An enumeration lists every entry
of a map exactly once, and an iteration order chooses one enumeration for each
map. A statement that quantifies over iteration orders holds for every order in
which a hash table can present its entries.
-/

namespace FiniteMaps

/-- Finite maps with a fixed value type. -/
abbrev FiniteMap (K V : Type*) := Finmap fun _ : K => V

variable {K V : Type*} [DecidableEq K]

/-- The number of entries. -/
def FiniteMap.size (m : FiniteMap K V) : ℕ := m.entries.card

/-- The list `l` presents every entry of `m` exactly once. -/
structure Enumerates (l : List (K × V)) (m : FiniteMap K V) : Prop where
  /-- No key is presented twice. -/
  nodup : (l.map Prod.fst).Nodup
  /-- The presented entries are those of the map. -/
  mem_iff : ∀ k v, (k, v) ∈ l ↔ m.lookup k = some v

/-- The map holds the entries of an enumeration. -/
theorem Enumerates.lookup_of_mem {l : List (K × V)} {m : FiniteMap K V} (h : Enumerates l m)
    {e : K × V} (he : e ∈ l) : m.lookup e.1 = some e.2 :=
  (h.mem_iff e.1 e.2).mp he

/-- The keys of an enumeration are the keys of the map. -/
theorem Enumerates.mem_keys_iff {l : List (K × V)} {m : FiniteMap K V} (h : Enumerates l m)
    (k : K) : k ∈ l.map Prod.fst ↔ ∃ v, m.lookup k = some v := by
  constructor
  · intro hk
    obtain ⟨⟨k', v⟩, hmem, rfl⟩ := List.mem_map.mp hk
    exact ⟨v, (h.mem_iff k' v).mp hmem⟩
  · rintro ⟨v, hv⟩
    exact List.mem_map.mpr ⟨(k, v), (h.mem_iff k v).mpr hv, rfl⟩

/-- Searching an enumeration finds the entry with a property, if it is the only
one. -/
theorem Enumerates.find?_eq_some {l : List (K × V)} {m : FiniteMap K V} (h : Enumerates l m)
    {p : K × V → Bool} {k : K} {v : V} (hlookup : m.lookup k = some v) (hp : p (k, v) = true)
    (hunique : ∀ k' v', m.lookup k' = some v' → p (k', v') = true → k' = k) :
    l.find? p = some (k, v) := by
  have hfound : (l.find? p).isSome = true :=
    List.find?_isSome.mpr ⟨(k, v), (h.mem_iff k v).mpr hlookup, hp⟩
  obtain ⟨⟨k', v'⟩, hfind⟩ := Option.isSome_iff_exists.mp hfound
  have hlookup' : m.lookup k' = some v' := (h.mem_iff k' v').mp (List.mem_of_find?_eq_some hfind)
  obtain rfl := hunique k' v' hlookup' (List.find?_some hfind)
  rw [hlookup] at hlookup'
  cases hlookup'
  exact hfind

/-- Searching an enumeration finds nothing if no entry has the property. -/
theorem Enumerates.find?_eq_none {l : List (K × V)} {m : FiniteMap K V} (h : Enumerates l m)
    {p : K × V → Bool} (hnone : ∀ k v, m.lookup k = some v → ¬ p (k, v) = true) :
    l.find? p = none := by
  apply List.find?_eq_none.mpr
  rintro ⟨k, v⟩ hmem
  exact hnone k v ((h.mem_iff k v).mp hmem)

/-- The empty list is the only enumeration of the empty map. -/
theorem enumerates_empty_iff {l : List (K × V)} :
    Enumerates l (∅ : FiniteMap K V) ↔ l = [] := by
  constructor
  · intro h
    apply List.eq_nil_iff_forall_not_mem.mpr
    rintro ⟨k, v⟩ hmem
    have hlookup := (h.mem_iff k v).mp hmem
    rw [Finmap.lookup_empty] at hlookup
    cases hlookup
  · rintro rfl
    exact ⟨List.nodup_nil, fun k v => by simp⟩

/-- An enumeration of a map, with a fresh entry in front. -/
theorem Enumerates.insert {l : List (K × V)} {m : FiniteMap K V} (h : Enumerates l m) {k : K}
    (hk : m.lookup k = none) (v : V) : Enumerates ((k, v) :: l) (m.insert k v) := by
  have hfresh : k ∉ l.map Prod.fst := by
    rw [h.mem_keys_iff]
    rintro ⟨v', hv'⟩
    rw [hk] at hv'
    cases hv'
  refine ⟨List.nodup_cons.mpr ⟨hfresh, h.nodup⟩, fun k' v' => ?_⟩
  rw [List.mem_cons, h.mem_iff, Prod.mk.injEq]
  by_cases hne : k' = k
  · subst hne
    simp [hk, eq_comm]
  · simp [Finmap.lookup_insert_of_ne m hne, hne]

/-- Two enumerations of a map present its entries in different orders. -/
theorem Enumerates.perm {l l' : List (K × V)} {m : FiniteMap K V} (h : Enumerates l m)
    (h' : Enumerates l' m) : l.Perm l' := by
  refine (List.perm_ext_iff_of_nodup h.nodup.of_map h'.nodup.of_map).mpr fun e => ?_
  rw [h.mem_iff, h'.mem_iff]

/-- An enumeration is as long as the map. -/
theorem Enumerates.length_eq {l : List (K × V)} {m : FiniteMap K V} (h : Enumerates l m) :
    l.length = m.size := by
  let sigma := fun e : K × V => (⟨e.1, e.2⟩ : Σ _ : K, V)
  have hsigma : Function.Injective sigma := by
    rintro ⟨k, v⟩ ⟨k', v'⟩ heq
    cases heq
    rfl
  have hentries : (l.map sigma : Multiset (Σ _ : K, V)) = m.entries := by
    have hnodup : (l.map sigma).Nodup := h.nodup.of_map.map hsigma
    refine (Multiset.Nodup.ext (Multiset.coe_nodup.mpr hnodup) m.nodup_entries).mpr ?_
    rintro ⟨k, v⟩
    rw [Multiset.mem_coe, List.mem_map, ← Finmap.lookup_eq_some_iff, ← h.mem_iff]
    constructor
    · rintro ⟨e, he, heq⟩
      cases heq
      exact he
    · exact fun hmem => ⟨(k, v), hmem, rfl⟩
  unfold FiniteMap.size
  rw [← hentries, Multiset.coe_card, List.length_map]

/-- Every finite map has an enumeration. -/
theorem exists_enumerates (m : FiniteMap K V) : ∃ l : List (K × V), Enumerates l m := by
  induction m using Finmap.induction_on with
  | H a =>
    refine ⟨a.entries.map fun e => (e.1, e.2), ?_, ?_⟩
    · have hkeys : (a.entries.map fun e => (e.1, e.2)).map Prod.fst = a.keys := by
        simp [AList.keys, List.keys, Function.comp_def]
      rw [hkeys]
      exact a.keys_nodup
    · intro k v
      rw [Finmap.lookup_toFinmap, AList.lookup, ← Option.mem_def, List.mem_dlookup_iff a.nodupKeys]
      simp only [List.mem_map, Prod.mk.injEq]
      constructor
      · rintro ⟨⟨k', v'⟩, hmem, rfl, rfl⟩
        exact hmem
      · intro hmem
        exact ⟨⟨k, v⟩, hmem, rfl, rfl⟩

/-- The map after the listed entries have been written, in the order of the list. -/
def FiniteMap.writeAll (m : FiniteMap K V) (l : List (K × V)) : FiniteMap K V :=
  l.foldl (fun m e => m.insert e.1 e.2) m

/-- A key that is not listed keeps its value. -/
theorem FiniteMap.lookup_writeAll_of_notMem {l : List (K × V)} {k : K} (hk : k ∉ l.map Prod.fst)
    (m : FiniteMap K V) : (m.writeAll l).lookup k = m.lookup k := by
  induction l generalizing m with
  | nil => rfl
  | cons e l ih =>
    rw [List.map_cons, List.mem_cons, not_or] at hk
    exact (ih hk.2 _).trans (Finmap.lookup_insert_of_ne m hk.1)

/-- A key that is listed once has the listed value. -/
theorem FiniteMap.lookup_writeAll_of_mem {l : List (K × V)} (hl : (l.map Prod.fst).Nodup)
    {e : K × V} (he : e ∈ l) (m : FiniteMap K V) : (m.writeAll l).lookup e.1 = some e.2 := by
  induction l generalizing m with
  | nil => exact absurd he List.not_mem_nil
  | cons e' l ih =>
    obtain ⟨hk, hl⟩ := List.nodup_cons.mp hl
    rcases List.mem_cons.mp he with rfl | he
    · exact (lookup_writeAll_of_notMem hk _).trans (Finmap.lookup_insert m)
    · exact ih hl he _

/-- Writing the entries of an enumeration gives the map. -/
theorem Enumerates.writeAll_eq {l : List (K × V)} {m : FiniteMap K V} (h : Enumerates l m) :
    (∅ : FiniteMap K V).writeAll l = m := by
  apply Finmap.ext_lookup
  intro k
  cases hk : m.lookup k with
  | none =>
    have hnot : k ∉ l.map Prod.fst := by
      rw [h.mem_keys_iff]
      rintro ⟨v, hv⟩
      cases hk.symm.trans hv
    rw [FiniteMap.lookup_writeAll_of_notMem hnot, Finmap.lookup_empty]
  | some v => exact FiniteMap.lookup_writeAll_of_mem h.nodup ((h.mem_iff k v).mpr hk) ∅

/-- A choice of one enumeration for every map: the order in which a hash table
presents its entries. -/
structure IterOrder (K V : Type*) [DecidableEq K] where
  /-- The chosen enumeration. -/
  list : FiniteMap K V → List (K × V)
  /-- The choice presents every entry exactly once. -/
  enumerates : ∀ m, Enumerates (list m) m

/-- There are iteration orders. -/
noncomputable def IterOrder.arbitrary : IterOrder K V where
  list m := (exists_enumerates m).choose
  enumerates m := (exists_enumerates m).choose_spec

open Classical in
/-- An iteration order that presents the entries of one map as in a given list. -/
noncomputable def IterOrder.presenting {l : List (K × V)} {m : FiniteMap K V}
    (h : Enumerates l m) : IterOrder K V where
  list m' := if m' = m then l else IterOrder.arbitrary.list m'
  enumerates m' := by
    by_cases hm : m' = m
    · rw [if_pos hm, hm]
      exact h
    · rw [if_neg hm]
      exact IterOrder.arbitrary.enumerates m'

/-- The order presents the given list. -/
@[simp] theorem IterOrder.presenting_list {l : List (K × V)} {m : FiniteMap K V}
    (h : Enumerates l m) : (IterOrder.presenting h).list m = l :=
  if_pos rfl

/-- Every order of the empty map is the empty list. -/
theorem IterOrder.list_empty (order : IterOrder K V) : order.list ∅ = [] :=
  enumerates_empty_iff.mp (order.enumerates ∅)

end FiniteMaps
