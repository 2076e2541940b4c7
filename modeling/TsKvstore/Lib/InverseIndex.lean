import TsKvstore.Lib.FiniteMap

/-!
# Inverse indexes of a finite map

A secondary index over rows `K ⇀ V` with an indexed projection `proj : V → F`
is a map `F ⇀ K`. It is sound if each of its entries names a row with that
projection, and exact if it holds an entry for every row as well. The update
rules below move both notions along the two primitive steps of index
maintenance: unregistering a row before it changes and registering it after.
Between the two steps the index describes the rows without that row.
-/

namespace FiniteMaps

variable {K V F : Type*} [DecidableEq K] [DecidableEq F]

/-- Every entry of the index names a row whose projection is the entry's key. -/
def SoundIndex (proj : V → F) (rows : FiniteMap K V) (ix : FiniteMap F K) : Prop :=
  ∀ f k, ix.lookup f = some k → ∃ v, rows.lookup k = some v ∧ proj v = f

/-- The index is the inverse of the rows under the projection. -/
def ExactIndex (proj : V → F) (rows : FiniteMap K V) (ix : FiniteMap F K) : Prop :=
  ∀ f k, ix.lookup f = some k ↔ ∃ v, rows.lookup k = some v ∧ proj v = f

/-- No two rows agree on the projection. -/
def DistinctOn (proj : V → F) (rows : FiniteMap K V) : Prop :=
  ∀ k₁ v₁ k₂ v₂, rows.lookup k₁ = some v₁ → rows.lookup k₂ = some v₂ →
    proj v₁ = proj v₂ → k₁ = k₂

variable {proj : V → F} {rows : FiniteMap K V} {ix : FiniteMap F K}

/-- An exact index is sound. -/
theorem ExactIndex.sound (h : ExactIndex proj rows ix) : SoundIndex proj rows ix :=
  fun f k hk => (h f k).mp hk

/-- An exact index finds every row under its projection. -/
theorem ExactIndex.lookup_row (h : ExactIndex proj rows ix) {k : K} {v : V}
    (hrow : rows.lookup k = some v) : ix.lookup (proj v) = some k :=
  (h (proj v) k).mpr ⟨v, hrow, rfl⟩

/-- A sound index that finds every row is exact. -/
theorem SoundIndex.exact (h : SoundIndex proj rows ix)
    (hrow : ∀ k v, rows.lookup k = some v → ix.lookup (proj v) = some k) :
    ExactIndex proj rows ix := by
  intro f k
  constructor
  · exact h f k
  · rintro ⟨v, hv, rfl⟩
    exact hrow k v hv

/-- The rows determine their exact index. -/
theorem ExactIndex.unique {ix' : FiniteMap F K} (h : ExactIndex proj rows ix)
    (h' : ExactIndex proj rows ix') : ix = ix' := by
  apply Finmap.ext_lookup
  intro f
  apply Option.ext
  intro k
  rw [h f k, h' f k]

/-- Rows that have an exact index have pairwise distinct projections. -/
theorem ExactIndex.distinctOn (h : ExactIndex proj rows ix) : DistinctOn proj rows := by
  intro k₁ v₁ k₂ v₂ h₁ h₂ heq
  have hfirst := h.lookup_row h₁
  rw [heq, h.lookup_row h₂] at hfirst
  exact (Option.some.inj hfirst).symm

/-- The empty index is exact for the empty map. -/
theorem exactIndex_empty : ExactIndex proj (∅ : FiniteMap K V) (∅ : FiniteMap F K) := by
  intro f k
  simp

/-- The rows other than `k`. -/
theorem lookup_erase_eq_some {k k' : K} {v : V} :
    (rows.erase k).lookup k' = some v ↔ k' ≠ k ∧ rows.lookup k' = some v := by
  by_cases h : k' = k
  · subst h
    simp
  · simp [Finmap.lookup_erase_ne h, h]

/-- The rows after a write at `k`. -/
theorem lookup_insert_eq_some {k k' : K} {v v' : V} :
    (rows.insert k v).lookup k' = some v' ↔
      k' = k ∧ v = v' ∨ k' ≠ k ∧ rows.lookup k' = some v' := by
  by_cases h : k' = k
  · subst h
    simp
  · simp [Finmap.lookup_insert_of_ne rows h, h]

/-- Erasing an absent key changes nothing. -/
theorem erase_eq_self {k : K} (h : rows.lookup k = none) : rows.erase k = rows := by
  apply Finmap.ext_lookup
  intro k'
  by_cases hk : k' = k
  · rw [hk, Finmap.lookup_erase, h]
  · rw [Finmap.lookup_erase_ne hk]

omit [DecidableEq F] in
/-- Dropping a row from distinct rows keeps them distinct. -/
theorem DistinctOn.erase (h : DistinctOn proj rows) (k : K) : DistinctOn proj (rows.erase k) := by
  intro k₁ v₁ k₂ v₂ h₁ h₂
  exact h k₁ v₁ k₂ v₂ (lookup_erase_eq_some.mp h₁).2 (lookup_erase_eq_some.mp h₂).2

omit [DecidableEq F] in
/-- Rows that are distinct under a projection after a map keep that when the map is
applied to them. -/
theorem DistinctOn.map {g : V → V} {rows' : FiniteMap K V}
    (h : DistinctOn (fun v => proj (g v)) rows)
    (hrows : ∀ k, rows'.lookup k = (rows.lookup k).map g) : DistinctOn proj rows' := by
  intro k₁ v₁ k₂ v₂ h₁ h₂ heq
  rw [hrows] at h₁ h₂
  obtain ⟨w₁, hw₁, rfl⟩ := Option.map_eq_some_iff.mp h₁
  obtain ⟨w₂, hw₂, rfl⟩ := Option.map_eq_some_iff.mp h₂
  exact h k₁ w₁ k₂ w₂ hw₁ hw₂ heq

/-- **Unregistering, soundness.** Removing the entry under a row's projection
leaves an index that is sound for the rows without that row. The removed entry
may have named another row with the same projection. -/
theorem SoundIndex.unregister {k : K} {old : V} (h : SoundIndex proj rows ix)
    (hold : rows.lookup k = some old) :
    SoundIndex proj (rows.erase k) (ix.erase (proj old)) := by
  intro f k' hk'
  obtain ⟨hf, hlookup⟩ := lookup_erase_eq_some.mp hk'
  obtain ⟨v, hv, hproj⟩ := h f k' hlookup
  have hne : k' ≠ k := by
    rintro rfl
    rw [hold] at hv
    cases hv
    exact hf hproj.symm
  exact ⟨v, lookup_erase_eq_some.mpr ⟨hne, hv⟩, hproj⟩

/-- **Unregistering, exactness.** From an exact index, removing the entry under
a row's projection removes that row and no other. -/
theorem ExactIndex.unregister {k : K} {old : V} (h : ExactIndex proj rows ix)
    (hold : rows.lookup k = some old) :
    ExactIndex proj (rows.erase k) (ix.erase (proj old)) := by
  apply (h.sound.unregister hold).exact
  intro k' v hv
  obtain ⟨hne, hrow⟩ := lookup_erase_eq_some.mp hv
  have hproj : proj v ≠ proj old := fun heq => hne (h.distinctOn k' v k old hrow hold heq)
  exact lookup_erase_eq_some.mpr ⟨hproj, h.lookup_row hrow⟩

/-- **Registering, soundness.** Writing a row and its index entry together
keeps an index that was sound for the other rows sound. -/
theorem SoundIndex.register {k : K} (h : SoundIndex proj (rows.erase k) ix) (v : V) :
    SoundIndex proj (rows.insert k v) (ix.insert (proj v) k) := by
  intro f k' hk'
  rcases lookup_insert_eq_some.mp hk' with ⟨rfl, rfl⟩ | ⟨_, hlookup⟩
  · exact ⟨v, Finmap.lookup_insert rows, rfl⟩
  · obtain ⟨v', hv', hproj⟩ := h f k' hlookup
    obtain ⟨hne, hrow⟩ := lookup_erase_eq_some.mp hv'
    exact ⟨v', lookup_insert_eq_some.mpr (Or.inr ⟨hne, hrow⟩), hproj⟩

/-- **Registering, exactness.** If the rows are distinct after the write, an
index that was exact for the other rows is exact for all of them. -/
theorem ExactIndex.register {k : K} {v : V} (h : ExactIndex proj (rows.erase k) ix)
    (hdistinct : DistinctOn proj (rows.insert k v)) :
    ExactIndex proj (rows.insert k v) (ix.insert (proj v) k) := by
  apply (h.sound.register v).exact
  intro k' v' hv'
  rcases lookup_insert_eq_some.mp hv' with ⟨rfl, rfl⟩ | ⟨hne, hrow⟩
  · exact Finmap.lookup_insert ix
  · have hproj : proj v' ≠ proj v := fun heq =>
      hne (hdistinct k' v' k v hv' (Finmap.lookup_insert rows) heq)
    rw [Finmap.lookup_insert_of_ne ix hproj]
    exact h.lookup_row (lookup_erase_eq_some.mpr ⟨hne, hrow⟩)

omit [DecidableEq K] [DecidableEq F] in
private theorem exists_rows_of_entries (lookup : K → Option V) {entries : List (F × K)}
    (h : ∀ e ∈ entries, ∃ v, lookup e.2 = some v ∧ proj v = e.1) :
    ∃ l : List (K × V), entries = l.map (fun kv => (proj kv.2, kv.1)) ∧
      ∀ kv ∈ l, lookup kv.1 = some kv.2 := by
  induction entries with
  | nil => exact ⟨[], rfl, fun kv hkv => absurd hkv List.not_mem_nil⟩
  | cons e entries ih =>
    obtain ⟨v, hv, hproj⟩ := h e List.mem_cons_self
    obtain ⟨l, rfl, hl⟩ := ih fun e' he' => h e' (List.mem_cons_of_mem e he')
    refine ⟨(e.2, v) :: l, ?_, fun kv hkv => ?_⟩
    · rw [List.map_cons, hproj]
    · rcases List.mem_cons.mp hkv with rfl | hkv
      · exact hv
      · exact hl kv hkv

/-- An enumeration of a sound index presents rows under their projections, none of them
twice. -/
theorem SoundIndex.exists_rows (h : SoundIndex proj rows ix) {entries : List (F × K)}
    (hentries : Enumerates entries ix) :
    ∃ l : List (K × V), (l.map Prod.fst).Nodup ∧ (∀ kv ∈ l, rows.lookup kv.1 = some kv.2) ∧
      entries = l.map fun kv => (proj kv.2, kv.1) := by
  obtain ⟨l, rfl, hl⟩ := exists_rows_of_entries (fun k => rows.lookup k)
    fun e he => h e.1 e.2 (hentries.lookup_of_mem he)
  refine ⟨l, ?_, hl, rfl⟩
  have hprojs : (l.map fun kv => proj kv.2).Nodup := by
    simpa [List.map_map, Function.comp_def] using hentries.nodup
  refine List.Nodup.map_on ?_ hprojs.of_map
  rintro ⟨k, v⟩ hkv ⟨k', v'⟩ hkv' (rfl : k = k')
  have hv := hl _ hkv
  rw [hl _ hkv'] at hv
  cases hv
  rfl

/-- An enumeration of an exact index presents every row once, under its
projection. -/
theorem ExactIndex.exists_rows (h : ExactIndex proj rows ix) {entries : List (F × K)}
    (hentries : Enumerates entries ix) :
    ∃ l, Enumerates l rows ∧ entries = l.map fun kv => (proj kv.2, kv.1) := by
  obtain ⟨l, hnodup, hl, rfl⟩ := h.sound.exists_rows hentries
  refine ⟨l, ⟨hnodup, fun k v => ⟨hl (k, v), fun hv => ?_⟩⟩, rfl⟩
  have hmem := (hentries.mem_iff (proj v) k).mpr (h.lookup_row hv)
  obtain ⟨⟨k', v'⟩, hkv, heq⟩ := List.mem_map.mp hmem
  obtain rfl : k' = k := congrArg Prod.snd heq
  have hv' := hl _ hkv
  rw [hv] at hv'
  cases hv'
  exact hkv

/-! ## The size of an index -/

omit [DecidableEq F] in
/-- Listed rows are at most all rows, and if they are as many, they are all rows. -/
theorem enumerates_of_rows {l : List (K × V)} (hnodup : (l.map Prod.fst).Nodup)
    (hl : ∀ kv ∈ l, rows.lookup kv.1 = some kv.2) :
    l.length ≤ rows.size ∧ (l.length = rows.size → Enumerates l rows) := by
  obtain ⟨all, hall⟩ := exists_enumerates rows
  have hsubset : l ⊆ all := fun kv hkv => (hall.mem_iff kv.1 kv.2).mpr (hl kv hkv)
  have hsub : l.Subperm all := hnodup.of_map.subperm hsubset
  rw [← hall.length_eq]
  refine ⟨hsub.length_le, fun hlength => ⟨hnodup, fun k v => ?_⟩⟩
  have hperm : l.Perm all := hsub.perm_of_length_le hlength.ge
  rw [hperm.mem_iff, hall.mem_iff]

/-- A sound index has at most as many entries as there are rows. -/
theorem SoundIndex.size_le (h : SoundIndex proj rows ix) : ix.size ≤ rows.size := by
  obtain ⟨entries, hentries⟩ := exists_enumerates ix
  obtain ⟨l, hnodup, hl, rfl⟩ := h.exists_rows hentries
  have hle := (enumerates_of_rows hnodup hl).1
  rwa [← hentries.length_eq, List.length_map]

/-- A sound index is exact if and only if it has as many entries as there are rows. -/
theorem SoundIndex.exact_iff_size (h : SoundIndex proj rows ix) :
    ExactIndex proj rows ix ↔ ix.size = rows.size := by
  obtain ⟨entries, hentries⟩ := exists_enumerates ix
  constructor
  · intro hexact
    obtain ⟨l, hl, rfl⟩ := hexact.exists_rows hentries
    rw [← hentries.length_eq, ← hl.length_eq, List.length_map]
  · intro hsize
    obtain ⟨l, hnodup, hl, rfl⟩ := h.exists_rows hentries
    rw [← hentries.length_eq, List.length_map] at hsize
    have hall := (enumerates_of_rows hnodup hl).2 hsize
    refine h.exact fun k v hrow => ?_
    refine hentries.lookup_of_mem (e := (proj v, k)) (List.mem_map.mpr ⟨(k, v), ?_, rfl⟩)
    exact (hall.mem_iff k v).mpr hrow

/-! ## Single rows under collisions

Rows that share a projection compete for one entry. A row that shares its
projection with no other row keeps its entry, and a row that has lost its entry,
or that shares it with another row, is not found again before it is written.
-/

/-- The row at `k`, if there is one, shares its projection with no other row. -/
def SoleRow (proj : V → F) (rows : FiniteMap K V) (k : K) : Prop :=
  ∀ v, rows.lookup k = some v →
    ∀ k' v', rows.lookup k' = some v' → proj v' = proj v → k' = k

/-- The index finds the row at `k`, if there is one. -/
def FindsRow (proj : V → F) (rows : FiniteMap K V) (ix : FiniteMap F K) (k : K) : Prop :=
  ∀ v, rows.lookup k = some v → ix.lookup (proj v) = some k

/-- The index finds the row `v` at `k`, which shares its projection with no
other row. -/
structure HoldsRow (proj : V → F) (rows : FiniteMap K V) (ix : FiniteMap F K) (k : K) (v : V) :
    Prop where
  row : rows.lookup k = some v
  entry : ix.lookup (proj v) = some k
  sole : ∀ k' v', rows.lookup k' = some v' → proj v' = proj v → k' = k

/-- An exact index finds every row. -/
theorem ExactIndex.findsRow (h : ExactIndex proj rows ix) (k : K) : FindsRow proj rows ix k :=
  fun _ hv => h.lookup_row hv

/-- A missing row has nothing to be found. -/
theorem findsRow_of_none {k : K} (h : rows.lookup k = none) : FindsRow proj rows ix k := by
  intro v hv
  rw [h] at hv
  cases hv

/-- Every row is held by an exact index. -/
theorem ExactIndex.holdsRow (h : ExactIndex proj rows ix) {k : K} {v : V}
    (hrow : rows.lookup k = some v) : HoldsRow proj rows ix k v where
  row := hrow
  entry := h.lookup_row hrow
  sole k' v' hrow' heq := h.distinctOn k' v' k v hrow' hrow heq

/-- A held row shares its projection with no other row. -/
theorem HoldsRow.soleRow {k : K} {v : V} (h : HoldsRow proj rows ix k v) :
    SoleRow proj rows k := by
  intro v' hv' k' v'' hv'' heq
  rw [h.row] at hv'
  cases hv'
  exact h.sole k' v'' hv'' heq

omit [DecidableEq F] in
/-- Distinct rows share their projections with no other row. -/
theorem DistinctOn.soleRow (h : DistinctOn proj rows) (k : K) : SoleRow proj rows k :=
  fun v hv k' v' hv' heq => h k' v' k v hv' hv heq

/-- A found row of distinct rows is held. -/
theorem FindsRow.holdsRow {k : K} {v : V} (h : FindsRow proj rows ix k)
    (hdistinct : DistinctOn proj rows) (hrow : rows.lookup k = some v) :
    HoldsRow proj rows ix k v :=
  ⟨hrow, h v hrow, hdistinct.soleRow k v hrow⟩

/-- A row is found if its projection has its entry. -/
theorem findsRow_of_entry {k : K} {v : V} (hrow : rows.lookup k = some v)
    (hentry : ix.lookup (proj v) = some k) : FindsRow proj rows ix k := by
  intro v' hv'
  rw [hrow] at hv'
  cases hv'
  exact hentry

/-- A sound index of distinct rows has no entry for a row that it does not find. -/
theorem SoundIndex.lookup_of_not_findsRow (h : SoundIndex proj rows ix)
    (hdistinct : DistinctOn proj rows) {k : K} {v : V} (hrow : rows.lookup k = some v)
    (hmissed : ¬ FindsRow proj rows ix k) : ix.lookup (proj v) = none := by
  cases hentry : ix.lookup (proj v) with
  | none => rfl
  | some k' =>
    obtain ⟨v', hv', heq⟩ := h (proj v) k' hentry
    obtain rfl := hdistinct k' v' k v hv' hrow heq
    exact absurd (findsRow_of_entry hrow hentry) hmissed

/-- Unregistering another row keeps the entry of a row that shares it with
none. -/
theorem FindsRow.unregister {k k' : K} {old : V} (h : FindsRow proj rows ix k)
    (hsole : SoleRow proj rows k) (hold : rows.lookup k' = some old) :
    FindsRow proj (rows.erase k') (ix.erase (proj old)) k := by
  intro v hv
  obtain ⟨hne, hrow⟩ := lookup_erase_eq_some.mp hv
  have hproj : proj v ≠ proj old := fun heq => hne (hsole v hrow k' old hold heq.symm).symm
  exact lookup_erase_eq_some.mpr ⟨hproj, h v hrow⟩

/-- Registering a row keeps the entry of a row that shares it with none. -/
theorem FindsRow.register {k k' : K} {v : V} (h : FindsRow proj (rows.erase k') ix k)
    (hsole : SoleRow proj (rows.insert k' v) k) :
    FindsRow proj (rows.insert k' v) (ix.insert (proj v) k') k := by
  intro v' hv'
  rcases lookup_insert_eq_some.mp hv' with ⟨rfl, rfl⟩ | ⟨hne, hrow⟩
  · exact Finmap.lookup_insert ix
  · have hproj : proj v' ≠ proj v := fun heq =>
      hne (hsole v' hv' k' v (Finmap.lookup_insert rows) heq.symm).symm
    rw [Finmap.lookup_insert_of_ne ix hproj]
    exact h v' (lookup_erase_eq_some.mpr ⟨hne, hrow⟩)

/-- A registered row is found. -/
theorem findsRow_register_self (k : K) (v : V) :
    FindsRow proj (rows.insert k v) (ix.insert (proj v) k) k := by
  intro v' hv'
  rw [Finmap.lookup_insert] at hv'
  cases hv'
  exact Finmap.lookup_insert ix

/-- A row is held after another one has been unregistered only if it was held
before. -/
theorem HoldsRow.of_unregister {k k' : K} {v old : V} (hold : rows.lookup k' = some old)
    (h : HoldsRow proj (rows.erase k') (ix.erase (proj old)) k v) :
    HoldsRow proj rows ix k v := by
  obtain ⟨hne, hrow⟩ := lookup_erase_eq_some.mp h.row
  obtain ⟨hproj, hentry⟩ := lookup_erase_eq_some.mp h.entry
  refine ⟨hrow, hentry, fun k'' v'' hrow'' heq => ?_⟩
  by_cases hk : k'' = k'
  · rw [hk, hold] at hrow''
    cases hrow''
    exact absurd heq.symm hproj
  · exact h.sole k'' v'' (lookup_erase_eq_some.mpr ⟨hk, hrow''⟩) heq

/-- A row is held after another one has been registered only if it was held
before. -/
theorem HoldsRow.of_register {k k' : K} {v v' : V} (hne : k ≠ k')
    (h : HoldsRow proj (rows.insert k' v') (ix.insert (proj v') k') k v) :
    HoldsRow proj (rows.erase k') ix k v := by
  have hrow : (rows.erase k').lookup k = some v := by
    rcases lookup_insert_eq_some.mp h.row with ⟨heq, _⟩ | hrow
    · exact absurd heq hne
    · exact lookup_erase_eq_some.mpr hrow
  have hentry : ix.lookup (proj v) = some k := by
    rcases lookup_insert_eq_some.mp h.entry with ⟨_, heq⟩ | ⟨_, hentry⟩
    · exact absurd heq.symm hne
    · exact hentry
  refine ⟨hrow, hentry, fun k'' v'' hrow'' heq => ?_⟩
  exact h.sole k'' v'' (lookup_insert_eq_some.mpr (Or.inr (lookup_erase_eq_some.mp hrow''))) heq

/-! ## Rows that change behind the index -/

/-- An index that is sound for the other rows stays sound when a row is written and not
registered. -/
theorem SoundIndex.insert_unregistered {k : K} (h : SoundIndex proj (rows.erase k) ix) (v : V) :
    SoundIndex proj (rows.insert k v) ix := by
  intro f k' hk'
  obtain ⟨v', hv', hproj⟩ := h f k' hk'
  exact ⟨v', lookup_insert_eq_some.mpr (Or.inr (lookup_erase_eq_some.mp hv')), hproj⟩

/-- A row that is written and not registered is not found. -/
theorem SoundIndex.not_findsRow_unregistered {k : K} (h : SoundIndex proj (rows.erase k) ix)
    (v : V) : ¬ FindsRow proj (rows.insert k v) ix k := by
  intro hfinds
  obtain ⟨v', hv', _⟩ := h _ k (hfinds v (Finmap.lookup_insert rows))
  exact (lookup_erase_eq_some.mp hv').1 rfl

/-- Another row stays found when a row is written and not registered. -/
theorem FindsRow.insert_unregistered {k k' : K} (h : FindsRow proj (rows.erase k') ix k)
    (hne : k ≠ k') (v : V) : FindsRow proj (rows.insert k' v) ix k := by
  intro v' hv'
  rcases lookup_insert_eq_some.mp hv' with ⟨heq, _⟩ | hrow
  · exact absurd heq hne
  · exact h v' (lookup_erase_eq_some.mpr hrow)

/-- Another row is held after a row has been written and not registered only if it was held
among the other rows. -/
theorem HoldsRow.of_insert_unregistered {k k' : K} {v v' : V} (hne : k ≠ k')
    (h : HoldsRow proj (rows.insert k' v') ix k v) : HoldsRow proj (rows.erase k') ix k v := by
  refine ⟨?_, h.entry, fun k'' v'' hrow'' heq => ?_⟩
  · rcases lookup_insert_eq_some.mp h.row with ⟨heq, _⟩ | hrow
    · exact absurd heq hne
    · exact lookup_erase_eq_some.mpr hrow
  · exact h.sole k'' v'' (lookup_insert_eq_some.mpr (Or.inr (lookup_erase_eq_some.mp hrow''))) heq

/-- A sound index is sound for changed rows if and only if the rows that it finds have
kept their projections. -/
theorem SoundIndex.sound_iff_keeps {rows' : FiniteMap K V} (h : SoundIndex proj rows ix) :
    SoundIndex proj rows' ix ↔
      ∀ k v, rows.lookup k = some v → ix.lookup (proj v) = some k →
        ∃ v', rows'.lookup k = some v' ∧ proj v' = proj v := by
  constructor
  · exact fun hsound k v _ hentry => hsound (proj v) k hentry
  · intro hkeeps f k hk
    obtain ⟨v, hv, rfl⟩ := h f k hk
    exact hkeeps k v hv hk

/-- A row that an index finds is found after a change, if the index is sound for the
changed rows. -/
theorem FindsRow.of_sound {rows' : FiniteMap K V} {k : K} (h : FindsRow proj rows ix k)
    (hsound : SoundIndex proj rows' ix) (hold : k ∈ rows' → k ∈ rows) :
    FindsRow proj rows' ix k := by
  intro v' hv'
  obtain ⟨v, hv⟩ := Finmap.mem_iff.mp (hold (Finmap.mem_of_lookup_eq_some hv'))
  obtain ⟨v'', hv'', hproj⟩ := hsound (proj v) k (h v hv)
  rw [hv'] at hv''
  cases hv''
  rw [hproj]
  exact h v hv

/-! ## Deciding the notions on a given map -/

omit [DecidableEq F] in
/-- Distinctness in terms of the listed entries. -/
theorem distinctOn_iff_entries : DistinctOn proj rows ↔
    ∀ e₁ ∈ rows.entries, ∀ e₂ ∈ rows.entries, proj e₁.2 = proj e₂.2 → e₁.1 = e₂.1 := by
  constructor
  · intro h e₁ he₁ e₂ he₂
    exact h e₁.1 e₁.2 e₂.1 e₂.2 (Finmap.lookup_eq_some_iff.mpr he₁)
      (Finmap.lookup_eq_some_iff.mpr he₂)
  · intro h k₁ v₁ k₂ v₂ h₁ h₂
    exact h ⟨k₁, v₁⟩ (Finmap.lookup_eq_some_iff.mp h₁) ⟨k₂, v₂⟩
      (Finmap.lookup_eq_some_iff.mp h₂)

/-- Exactness in terms of the listed entries. -/
theorem exactIndex_iff_entries : ExactIndex proj rows ix ↔
    (∀ e ∈ ix.entries, (rows.lookup e.2).map proj = some e.1) ∧
      ∀ e ∈ rows.entries, ix.lookup (proj e.2) = some e.1 := by
  constructor
  · intro h
    refine ⟨fun e he => ?_, fun e he => h.lookup_row (Finmap.lookup_eq_some_iff.mpr he)⟩
    exact Option.map_eq_some_iff.mpr (h.sound e.1 e.2 (Finmap.lookup_eq_some_iff.mpr he))
  · rintro ⟨hsound, hrow⟩
    apply SoundIndex.exact
    · intro f k hk
      exact Option.map_eq_some_iff.mp (hsound ⟨f, k⟩ (Finmap.lookup_eq_some_iff.mp hk))
    · intro k v hv
      exact hrow ⟨k, v⟩ (Finmap.lookup_eq_some_iff.mp hv)

instance : Decidable (DistinctOn proj rows) := decidable_of_iff _ distinctOn_iff_entries.symm

instance : Decidable (ExactIndex proj rows ix) := decidable_of_iff _ exactIndex_iff_entries.symm

/-! ## Rebuilding an index from an enumeration of the rows -/

/-- Enter every listed row into the index, in the order of the list. -/
def rebuildIndex (proj : V → F) (l : List (K × V)) (ix : FiniteMap F K) : FiniteMap F K :=
  l.foldl (fun ix e => ix.insert (proj e.2) e.1) ix

omit [DecidableEq K] in
/-- An entry of a rebuilt index comes from a listed row, or was there before
and is not the projection of any listed row. -/
theorem lookup_rebuildIndex {l : List (K × V)} {f : F} {k : K}
    (h : (rebuildIndex proj l ix).lookup f = some k) :
    (∃ v, (k, v) ∈ l ∧ proj v = f) ∨ ix.lookup f = some k ∧ ∀ e ∈ l, proj e.2 ≠ f := by
  induction l generalizing ix with
  | nil => exact Or.inr ⟨h, fun e he => absurd he List.not_mem_nil⟩
  | cons e l ih =>
    rcases ih h with ⟨v, hmem, hproj⟩ | ⟨hlookup, hfresh⟩
    · exact Or.inl ⟨v, List.mem_cons_of_mem e hmem, hproj⟩
    · rcases lookup_insert_eq_some.mp hlookup with ⟨rfl, rfl⟩ | ⟨hne, hlookup⟩
      · exact Or.inl ⟨e.2, List.mem_cons_self, rfl⟩
      · refine Or.inr ⟨hlookup, fun e' he' => ?_⟩
        rcases List.mem_cons.mp he' with rfl | he'
        · exact fun heq => hne heq.symm
        · exact hfresh e' he'

omit [DecidableEq K] in
/-- The keys of a rebuilt index are the projections of the listed rows and the
keys that were there before. -/
theorem mem_rebuildIndex {l : List (K × V)} {f : F} :
    f ∈ rebuildIndex proj l ix ↔ (∃ e ∈ l, proj e.2 = f) ∨ f ∈ ix := by
  induction l generalizing ix with
  | nil => simp [rebuildIndex]
  | cons e l ih =>
    have hstep : rebuildIndex proj (e :: l) ix =
        rebuildIndex proj l (ix.insert (proj e.2) e.1) := rfl
    rw [hstep, ih, Finmap.mem_insert]
    constructor
    · rintro (⟨e', he', hproj⟩ | rfl | hmem)
      · exact Or.inl ⟨e', List.mem_cons_of_mem e he', hproj⟩
      · exact Or.inl ⟨e, List.mem_cons_self, rfl⟩
      · exact Or.inr hmem
    · rintro (⟨e', he', hproj⟩ | hmem)
      · rcases List.mem_cons.mp he' with rfl | he'
        · exact Or.inr (Or.inl hproj.symm)
        · exact Or.inl ⟨e', he', hproj⟩
      · exact Or.inr (Or.inr hmem)

/-- **Rebuilding, soundness.** An index rebuilt from scratch is sound whatever
rows collide. -/
theorem soundIndex_rebuild {l : List (K × V)} (hl : Enumerates l rows) :
    SoundIndex proj rows (rebuildIndex proj l ∅) := by
  intro f k hk
  rcases lookup_rebuildIndex hk with ⟨v, hmem, hproj⟩ | ⟨hlookup, _⟩
  · exact ⟨v, (hl.mem_iff k v).mp hmem, hproj⟩
  · rw [Finmap.lookup_empty] at hlookup
    cases hlookup

/-- **Rebuilding, single rows.** An index rebuilt from scratch finds every row
that shares its projection with no other row. -/
theorem findsRow_rebuild {l : List (K × V)} (hl : Enumerates l rows) {k : K}
    (hsole : SoleRow proj rows k) : FindsRow proj rows (rebuildIndex proj l ∅) k := by
  intro v hv
  have hmem : proj v ∈ rebuildIndex proj l ∅ :=
    mem_rebuildIndex.mpr (Or.inl ⟨(k, v), (hl.mem_iff k v).mpr hv, rfl⟩)
  obtain ⟨k', hk'⟩ := Finmap.mem_iff.mp hmem
  obtain ⟨v', hv', hproj⟩ := soundIndex_rebuild hl _ _ hk'
  rw [hk', hsole v hv k' v' hv' hproj]

/-- **Rebuilding, exactness.** An index rebuilt from scratch over distinct rows
is exact, in whatever order the rows were visited. -/
theorem exactIndex_rebuild {l : List (K × V)} (hl : Enumerates l rows)
    (hdistinct : DistinctOn proj rows) : ExactIndex proj rows (rebuildIndex proj l ∅) := by
  apply (soundIndex_rebuild hl).exact
  intro k
  exact findsRow_rebuild hl fun v hv k' v' hv' heq => hdistinct k' v' k v hv' hv heq

end FiniteMaps
