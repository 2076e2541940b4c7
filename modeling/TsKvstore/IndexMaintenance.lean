import TsKvstore.TableEffects

/-!
# Index maintenance over runs

The indexes of a store are sound after every run of maintained requests, and
exact as long as the rows stay distinct in the indexed fields. An operation
through a sound index misses or acts on the row it was asked for.
-/

namespace TsKvstore

open FiniteMaps Machines

variable {S : Schema} {G : Singletons} {ρ : Type} {t : S.Name}

/-- The indexes are sound after every maintained run from a sound storage. -/
theorem sound_stateAfter {debug : Bool} {reqs : List (Request S G ρ)}
    (hreqs : ∀ r ∈ reqs, r.Maintained) {s : Storage S G} (hs : s.Sound) :
    (stateAfter (Request.exec debug) reqs s).Sound :=
  stateAfter_invariant hs fun r hr _ h => r.exec_sound (hreqs r hr) h

/-- An exact index stays exact along a maintained run that keeps the rows
distinct. -/
theorem exactAt_stateAfter {debug : Bool} {reqs : List (Request S G ρ)}
    (hreqs : ∀ r ∈ reqs, r.Maintained) {s : Storage S G} (hs : s.Sound) {i : S.Field t}
    (hexact : (s.tables t).ExactAt i)
    (hdistinct : ∀ pre, pre <+: reqs →
      ((stateAfter (Request.exec debug) pre s).tables t).DistinctAt i) :
    ∀ pre, pre <+: reqs → ((stateAfter (Request.exec debug) pre s).tables t).ExactAt i := by
  intro pre hpre
  refine (stateAfter_invariant_of_visited
    (P := fun s : Storage S G => s.Sound ∧ (s.tables t).ExactAt i)
    (C := fun s : Storage S G => (s.tables t).DistinctAt i) ⟨hs, hexact⟩ ?_ hdistinct pre hpre).2
  rintro r hr s ⟨hs, hexact⟩ hdistinct
  exact ⟨r.exec_sound (hreqs r hr) hs,
    (r.exec_effect (hreqs r hr) hs t).exactAt hexact hdistinct⟩

/-- **Index coherence.** From the empty store, if after each operation no two
rows of a table agree in an indexed field, then after each operation every
index of the table is exactly the inverse of its rows. -/
theorem indexes_exact_of_distinct (debug : Bool) (commands : List (Command S G ρ))
    (hmaintained : ∀ r ∈ requests commands, r.Maintained) (t : S.Name)
    (hdistinct : ∀ pre, pre <+: requests commands → ∀ i,
      ((stateAfter (Request.exec debug) pre Storage.new).tables t).DistinctAt i) :
    ∀ pre, pre <+: requests commands → ∀ i,
      ((stateAfter (Request.exec debug) pre Storage.new).tables t).ExactAt i :=
  fun pre hpre i =>
    exactAt_stateAfter hmaintained Storage.new_sound exactIndex_empty
      (fun pre' hpre' => hdistinct pre' hpre' i) pre hpre

/-- Two people are inserted, and the second is changed in both fields through
the index on the first field. -/
def peopleRun : List (Command people noSingletons Unit) :=
  [.raw ⟨"owner", .table People (.insert (1 : UInt32) (People.person "a@example.com" [97]))⟩,
   .transaction "owner"
    [.table People (.insert (2 : UInt32) (People.person "b@example.com" [98])),
     .tableBy People People.email (.mutate "b@example.com"
       fun _ => (People.person "c@example.com" [99], some ()))]]

/-- The run is maintained. -/
theorem peopleRun_maintained : ∀ r ∈ requests peopleRun, r.Maintained := by
  simp [requests, peopleRun, Command.requests, Request.Maintained, StoreCall.NonPanicking,
    StoreCall.WritesIndexTable, Call.NonPanicking]

/-- At no time two people share a value. -/
theorem peopleRun_distinct : ∀ pre, pre <+: requests peopleRun → ∀ i,
    ((stateAfter (Request.exec true) pre Storage.new).tables People).DistinctAt i := by
  intro pre hpre i
  have hall : ∀ pre ∈ (requests peopleRun).inits, ∀ i ∈ people.fields People,
      ((stateAfter (Request.exec true) pre Storage.new).tables People).DistinctAt i := by decide
  exact hall pre ((List.mem_inits pre _).mpr hpre) i (people.mem_fields People i)

/-- After the run the index on the usernames is exact. -/
theorem peopleRun_indexes_exact :
    ((stateAfter (Request.exec true) (requests peopleRun) Storage.new).tables People).ExactAt
      People.username :=
  indexes_exact_of_distinct true peopleRun peopleRun_maintained People peopleRun_distinct _
    (List.prefix_refl _) People.username

/-- The storage after the run. -/
def peopleStorage : Storage people noSingletons :=
  stateAfter (Request.exec true) (requests peopleRun) Storage.new

/-- Its indexes are exact. -/
theorem peopleStorage_exact : ∀ i, (peopleStorage.tables People).ExactAt i := by
  have hall : ∀ i ∈ people.fields People, (peopleStorage.tables People).ExactAt i := by decide
  exact fun i => hall i (people.mem_fields People i)

/-! ## Lookups through an index -/

/-- The operations on key `q` of an index miss. -/
structure IndexMisses (ρ : Type) (debug : Bool) (owner : Owner) (base : BaseTable S t)
    (i : S.Field t) (q : S.FieldTy t i) : Prop where
  get : IndexedOps.get i base q = none
  with' : ∀ f : S.Value t → ρ, IndexedOps.with' i base q f = none
  mutate : ∀ f : MutFn (S.Value t) ρ, IndexedOpsMut.mutate debug i base q f owner = (.ok none, base)
  remove : base.Accepts debug owner → IndexedOpsMut.remove debug i base q owner = (.ok none, base)
  remove_refused : ∀ prevOwner, base.Refuses debug prevOwner owner →
    IndexedOpsMut.remove debug i base q owner = (.error (ownershipViolation prevOwner owner), base)

/-- The operations on key `q` of an index act on the row `v` at base key `k`,
and on no other row. -/
structure IndexActsOn (ρ : Type) (debug : Bool) (owner : Owner) (base : BaseTable S t)
    (i : S.Field t) (q : S.FieldTy t i) (k : S.Key t) (v : S.Value t) : Prop where
  get : IndexedOps.get i base q = some v
  with' : ∀ f : S.Value t → ρ, IndexedOps.with' i base q f = some (f v)
  mutate : base.Accepts debug owner → ∀ f : MutFn (S.Value t) ρ,
    (IndexedOpsMut.mutate debug i base q f owner).1 = closureResult (f v).2 ∧
      (IndexedOpsMut.mutate debug i base q f owner).2.data = base.data.insert k (f v).1
  remove : base.Accepts debug owner →
    (IndexedOpsMut.remove debug i base q owner).1 = .ok (some v) ∧
      (IndexedOpsMut.remove debug i base q owner).2.data = base.data.erase k
  mutate_refused : ∀ prevOwner, base.Refuses debug prevOwner owner → ∀ f : MutFn (S.Value t) ρ,
    IndexedOpsMut.mutate debug i base q f owner =
      (.error (ownershipViolation prevOwner owner), base)
  remove_refused : ∀ prevOwner, base.Refuses debug prevOwner owner →
    IndexedOpsMut.remove debug i base q owner = (.error (ownershipViolation prevOwner owner), base)

/-- Operations on a key without an entry miss. -/
theorem indexMisses_of_none {debug : Bool} {owner : Owner} {base : BaseTable S t}
    {i : S.Field t} {q : S.FieldTy t i} (hentry : (base.indexes.get i).data.lookup q = none) :
    IndexMisses ρ debug owner base i q where
  get := by
    unfold IndexedOps.get
    rw [hentry]
  with' f := by
    unfold IndexedOps.with'
    rw [hentry]
  mutate f := IndexedOpsMut.mutate_of_none f hentry
  remove h := IndexedOpsMut.remove_of_none h hentry
  remove_refused _ h := IndexedOpsMut.remove_of_refuses h q

/-- Operations on a key with an entry act on the row that the entry names. -/
theorem indexActsOn_of_some {debug : Bool} {owner : Owner} {base : BaseTable S t}
    {i : S.Field t} {k : S.Key t} {v : S.Value t}
    (hentry : (base.indexes.get i).data.lookup (S.field i v) = some k)
    (hrow : base.data.lookup k = some v) :
    IndexActsOn ρ debug owner base i (S.field i v) k v where
  get := by
    unfold IndexedOps.get
    rw [hentry]
    exact hrow
  with' f := by
    unfold IndexedOps.with'
    rw [hentry]
    dsimp only
    rw [hrow]
  mutate h f := by
    rw [IndexedOpsMut.mutate_of_some f hentry]
    exact TabularOpsMut.mutate_row h hrow f
  remove h := by
    rw [IndexedOpsMut.remove_of_some h hentry hrow, TabularOpsMut.remove_of_some h hrow]
    exact ⟨rfl, rfl⟩
  mutate_refused _ h f := by
    rw [IndexedOpsMut.mutate_of_some f hentry]
    exact TabularOpsMut.mutate_of_refuses h k f
  remove_refused _ h := IndexedOpsMut.remove_of_refuses h (S.field i v)

/-- **Index soundness.** From the empty store and whatever rows collide, every
index entry names an existing row whose indexed field is the entry's key. So an
operation through an index misses, or acts on a row with that field value. -/
theorem indexes_sound (debug : Bool) (commands : List (Command S G ρ))
    (hmaintained : ∀ r ∈ requests commands, r.Maintained)
    (pre : List (Request S G ρ)) (hpre : pre <+: requests commands)
    (t : S.Name) (i : S.Field t) :
    let base := (stateAfter (Request.exec debug) pre Storage.new).tables t
    (∀ f k, (base.indexes.get i).data.lookup f = some k →
      ∃ v, base.data.lookup k = some v ∧ S.field i v = f) ∧
    ∀ owner q, IndexMisses ρ debug owner base i q ∨
      ∃ k v, base.data.lookup k = some v ∧ S.field i v = q ∧
        IndexActsOn ρ debug owner base i q k v := by
  intro base
  have hsound : base.SoundAt i :=
    sound_stateAfter (fun r hr => hmaintained r (hpre.subset hr)) Storage.new_sound t i
  refine ⟨hsound, fun owner q => ?_⟩
  cases hentry : (base.indexes.get i).data.lookup q with
  | none => exact Or.inl (indexMisses_of_none hentry)
  | some k =>
    obtain ⟨v, hrow, rfl⟩ := hsound q k hentry
    exact Or.inr ⟨k, v, hrow, rfl, indexActsOn_of_some hentry hrow⟩

/-- Two people share an email address, and the first is removed through the
index, which by then names the second. -/
def collidingRun : List (Command people noSingletons Unit) :=
  [.raw ⟨"owner", .table People (.insert (1 : UInt32) (People.person "a@example.com" [97]))⟩,
   .raw ⟨"owner", .table People (.insert (2 : UInt32) (People.person "a@example.com" [98]))⟩,
   .raw ⟨"owner", .tableBy People People.email (.remove "a@example.com")⟩]

/-- The run is maintained, although its rows collide. -/
theorem collidingRun_maintained : ∀ r ∈ requests collidingRun, r.Maintained := by
  simp [requests, collidingRun, Command.requests, Request.Maintained, StoreCall.NonPanicking,
    StoreCall.WritesIndexTable, Call.NonPanicking]

/-- After the run the index on the usernames is sound. -/
theorem collidingRun_indexes_sound :
    let base := (stateAfter (Request.exec true) (requests collidingRun) Storage.new).tables People
    (∀ f k, (base.indexes.get People.username).data.lookup f = some k →
      ∃ v, base.data.lookup k = some v ∧ people.field People.username v = f) ∧
    ∀ owner q, IndexMisses Unit true owner base People.username q ∨
      ∃ k v, base.data.lookup k = some v ∧ people.field People.username v = q ∧
        IndexActsOn Unit true owner base People.username q k v :=
  indexes_sound true collidingRun collidingRun_maintained _ (List.prefix_refl _) People
    People.username

end TsKvstore
