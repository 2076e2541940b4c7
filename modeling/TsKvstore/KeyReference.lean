import TsKvstore.IndexMaintenance

/-!
# The reference to the base key in `mutate`

Through an index handle, `mutate` looks a base key up and keeps a reference into the
entry that holds it, although the entry belongs to the indexes that it edits next.
Here the reference is modelled as a reference: each use of it looks the entry up again
in the indexes as they are by then, and the call has no outcome once that fails.
The operation `IndexedOpsMut.mutate` is the one that uses a copy of the key.
-/

namespace TsKvstore

open FiniteMaps Machines

variable {S : Schema} {ρ : Type} {t : S.Name}

/-- A reference to a key of table `t`: what it yields while the indexes are as given,
`none` if it dangles. -/
abbrev KeyRef (S : Schema) (t : S.Name) : Type := Indexes S t → Option (S.Key t)

/-- The reference into the entry at `key` of the index of field `i`. -/
def entryRef (i : S.Field t) (key : S.FieldTy t i) : KeyRef S t :=
  fun ix => (ix.get i).data.lookup key

/-- The reference to a copy of a key. -/
def copyRef (k : S.Key t) : KeyRef S t := fun _ => some k

/-- What the uses of a reference have yielded, and the outcome of the call that made
them, `none` if one of them failed. -/
structure Dereferenced (K α : Type) where
  /-- What each use of the reference yielded, in the order of the uses. -/
  derefs : List (Option K)
  /-- The outcome. -/
  outcome : Option α

/-- `on_insert` with a reference to the key, for the fields still to be visited. Each
statement of the macro uses the reference once. -/
def onInsertLoop (ref : KeyRef S t) (value : S.Value t) :
    List (S.Field t) → Indexes S t → Dereferenced (S.Key t) (Indexes S t)
  | [], ix => ⟨[], some ix⟩
  | j :: rest, ix =>
    match ref ix with
    | none => ⟨[none], none⟩
    | some key =>
      let ix := ix.set j { ix.get j with data := (ix.get j).data.insert (S.field j value) key }
      let inserted := onInsertLoop ref value rest ix
      ⟨some key :: inserted.derefs, inserted.outcome⟩

/-- `mutate` through an index handle, with the base key denoted by `refTo baseKey` once
the index has been found to hold `baseKey`. The reference is used by the lookup of the
row and by `on_insert`. -/
def IndexedOpsMut.mutateVia (refTo : S.Key t → KeyRef S t) (debug : Bool) (i : S.Field t)
    (base : BaseTable S t) (key : S.FieldTy t i) (f : MutFn (S.Value t) ρ) (owner : Owner) :
    Dereferenced (S.Key t) (Except Panic (Option ρ) × BaseTable S t) :=
  match (base.indexes.get i).data.lookup key with
  | none => ⟨[], some (.ok none, base)⟩
  | some baseKey =>
    match base.assertOwner debug owner with
    | .error p => ⟨[], some (.error p, base)⟩
    | .ok () =>
      match refTo baseKey base.indexes with
      | none => ⟨[none], none⟩
      | some rowKey =>
        match base.data.lookup rowKey with
        | none => ⟨[some rowKey], some (.ok none, base)⟩
        | some value =>
          let indexes := IndexStorage.onRemove (S.Key t) base.indexes value
          match f value with
          | (value, none) =>
            ⟨[some rowKey],
              some (.error .closure, { base with data := base.data.insert rowKey value, indexes })⟩
          | (value, some result) =>
            let inserted := onInsertLoop (refTo baseKey) value (S.fields t) indexes
            ⟨some rowKey :: inserted.derefs,
              inserted.outcome.map fun indexes =>
                (.ok (some result),
                  { base with data := base.data.insert rowKey value, indexes })⟩

/-- `mutate` through an index handle as it stands in the source, with a reference into
the index entry. -/
def IndexedOpsMut.mutateByReference (debug : Bool) (i : S.Field t) (base : BaseTable S t)
    (key : S.FieldTy t i) (f : MutFn (S.Value t) ρ) (owner : Owner) :
    Dereferenced (S.Key t) (Except Panic (Option ρ) × BaseTable S t) :=
  mutateVia (fun _ => entryRef i key) debug i base key f owner

/-- If every use of the reference yields `k`, `on_insert` enters the row under `k`. -/
theorem onInsertLoop_outcome {ref : KeyRef S t} {value : S.Value t} {k : S.Key t}
    {fields : List (S.Field t)} {ix : Indexes S t}
    (h : ∀ d ∈ (onInsertLoop ref value fields ix).derefs, d = some k) :
    (onInsertLoop ref value fields ix).outcome =
      some (fields.foldl (fun ix j =>
        ix.set j { ix.get j with data := (ix.get j).data.insert (S.field j value) k }) ix) := by
  induction fields generalizing ix with
  | nil => rfl
  | cons j rest ih =>
    rw [onInsertLoop] at h ⊢
    cases href : ref ix with
    | none =>
      rw [href] at h
      exact absurd (h none List.mem_cons_self) (Option.some_ne_none k).symm
    | some key =>
      rw [href] at h
      obtain rfl := Option.some.inj (h (some key) List.mem_cons_self)
      exact ih fun d hd => h d (List.mem_cons_of_mem _ hd)

/-- A reference that yields `k` on all indexes yields `k` at every use. -/
theorem onInsertLoop_derefs {ref : KeyRef S t} {value : S.Value t} {k : S.Key t}
    (href : ∀ ix, ref ix = some k) (fields : List (S.Field t)) (ix : Indexes S t) :
    ∀ d ∈ (onInsertLoop ref value fields ix).derefs, d = some k := by
  induction fields generalizing ix with
  | nil => exact fun d hd => absurd hd List.not_mem_nil
  | cons j rest ih =>
    rw [onInsertLoop, href]
    intro d hd
    rcases List.mem_cons.mp hd with rfl | hd
    · rfl
    · exact ih _ d hd

/-- A reference that dangles when `on_insert` starts fails at its first use, if there is
a field. -/
theorem onInsertLoop_of_dangling {ref : KeyRef S t} {value : S.Value t}
    {fields : List (S.Field t)} {ix : Indexes S t} (hfields : fields ≠ [])
    (href : ref ix = none) : onInsertLoop ref value fields ix = ⟨[none], none⟩ := by
  cases fields with
  | nil => exact absurd rfl hfields
  | cons j rest => rw [onInsertLoop, href]

namespace IndexedOpsMut

section

variable {refTo : S.Key t → KeyRef S t} {debug : Bool} {prevOwner owner : Owner}
  {base : BaseTable S t} {i : S.Field t} {key : S.FieldTy t i} {k rowKey : S.Key t}
  {f : MutFn (S.Value t) ρ} {value : S.Value t} {result : ρ}

/-- The reference of a refused caller is not used. -/
theorem mutateVia_of_refuses (hentry : (base.indexes.get i).data.lookup key = some k)
    (h : base.Refuses debug prevOwner owner) :
    mutateVia refTo debug i base key f owner =
      ⟨[], some (.error (ownershipViolation prevOwner owner), base)⟩ := by
  unfold mutateVia
  rw [hentry]
  dsimp only
  rw [h.assertOwner]

/-- A reference without its entry fails at its first use. -/
theorem mutateVia_of_dangling (hentry : (base.indexes.get i).data.lookup key = some k)
    (h : base.Accepts debug owner) (href : refTo k base.indexes = none) :
    mutateVia refTo debug i base key f owner = ⟨[none], none⟩ := by
  unfold mutateVia
  rw [hentry]
  dsimp only
  rw [h.assertOwner]
  dsimp only
  rw [href]

/-- A reference to a missing row is used once. -/
theorem mutateVia_of_no_row (hentry : (base.indexes.get i).data.lookup key = some k)
    (h : base.Accepts debug owner) (href : refTo k base.indexes = some rowKey)
    (hrow : base.data.lookup rowKey = none) :
    mutateVia refTo debug i base key f owner = ⟨[some rowKey], some (.ok none, base)⟩ := by
  unfold mutateVia
  rw [hentry]
  dsimp only
  rw [h.assertOwner]
  dsimp only
  rw [href]
  dsimp only
  rw [hrow]

/-- The closure unwinds: the reference is used for the lookup of the row only. -/
theorem mutateVia_of_unwind (hentry : (base.indexes.get i).data.lookup key = some k)
    (h : base.Accepts debug owner) (href : refTo k base.indexes = some rowKey)
    (hrow : base.data.lookup rowKey = some value) (hf : (f value).2 = none) :
    mutateVia refTo debug i base key f owner =
      ⟨[some rowKey],
        some (.error .closure,
          { base with
            data := base.data.insert rowKey (f value).1
            indexes := IndexStorage.onRemove (S.Key t) base.indexes value })⟩ := by
  unfold mutateVia
  rw [hentry]
  dsimp only
  rw [h.assertOwner]
  dsimp only
  rw [href]
  dsimp only
  rw [hrow]
  dsimp only
  rw [← Prod.mk.eta (p := f value), hf]

/-- The closure returns: `on_insert` uses the reference once for each field, on indexes
from which the row has been taken out. -/
theorem mutateVia_of_return (hentry : (base.indexes.get i).data.lookup key = some k)
    (h : base.Accepts debug owner) (href : refTo k base.indexes = some rowKey)
    (hrow : base.data.lookup rowKey = some value) (hf : (f value).2 = some result) :
    mutateVia refTo debug i base key f owner =
      let inserted := onInsertLoop (refTo k) (f value).1 (S.fields t)
        (IndexStorage.onRemove (S.Key t) base.indexes value)
      ⟨some rowKey :: inserted.derefs,
        inserted.outcome.map fun indexes =>
          (.ok (some result),
            { base with data := base.data.insert rowKey (f value).1, indexes })⟩ := by
  unfold mutateVia
  rw [hentry]
  dsimp only
  rw [h.assertOwner]
  dsimp only
  rw [href]
  dsimp only
  rw [hrow]
  dsimp only
  rw [← Prod.mk.eta (p := f value), hf]

end

variable {debug : Bool} {owner : Owner} {base : BaseTable S t} {i : S.Field t}
  {key : S.FieldTy t i} {k : S.Key t} {f : MutFn (S.Value t) ρ}

/-- **References that keep the key.** If every use of the reference yields the key that
the index held, the outcome is that of the operation on a copy of the key. -/
theorem mutateVia_outcome {refTo : S.Key t → KeyRef S t}
    (hentry : (base.indexes.get i).data.lookup key = some k)
    (h : ∀ d ∈ (mutateVia refTo debug i base key f owner).derefs, d = some k) :
    (mutateVia refTo debug i base key f owner).outcome =
      some (mutate debug i base key f owner) := by
  rw [mutate_of_some f hentry]
  rcases base.accepts_or_refuses debug owner with haccepts | ⟨prevOwner, hrefuses⟩
  · cases href : refTo k base.indexes with
    | none =>
      rw [mutateVia_of_dangling hentry haccepts href] at h
      cases h none List.mem_cons_self
    | some rowKey =>
      cases hrow : base.data.lookup rowKey with
      | none =>
        rw [mutateVia_of_no_row hentry haccepts href hrow] at h ⊢
        cases h (some rowKey) List.mem_cons_self
        rw [TabularOpsMut.mutate_of_none haccepts f hrow]
      | some value =>
        cases hf : (f value).2 with
        | none =>
          rw [mutateVia_of_unwind hentry haccepts href hrow hf] at h ⊢
          cases h (some rowKey) List.mem_cons_self
          rw [TabularOpsMut.mutate_of_unwind haccepts hrow hf, Table.unregister, hrow]
        | some result =>
          rw [mutateVia_of_return hentry haccepts href hrow hf] at h ⊢
          cases h (some rowKey) List.mem_cons_self
          have hinserted := onInsertLoop_outcome fun d hd => h d (List.mem_cons_of_mem _ hd)
          rw [TabularOpsMut.mutate_of_return haccepts hrow hf, Table.unregister, hrow]
          dsimp only
          rw [hinserted]
          rfl
  · rw [mutateVia_of_refuses hentry hrefuses, TabularOpsMut.mutate_of_refuses hrefuses]

/-- The operation on a copy of the key is `mutate`. -/
theorem mutateVia_copyRef (hentry : (base.indexes.get i).data.lookup key = some k) :
    (mutateVia copyRef debug i base key f owner).outcome =
      some (mutate debug i base key f owner) := by
  refine mutateVia_outcome hentry ?_
  have hcopy : copyRef k base.indexes = some k := rfl
  rcases base.accepts_or_refuses debug owner with haccepts | ⟨prevOwner, hrefuses⟩
  · cases hrow : base.data.lookup k with
    | none => simp [mutateVia_of_no_row hentry haccepts hcopy hrow]
    | some value =>
      cases hf : (f value).2 with
      | none => simp [mutateVia_of_unwind hentry haccepts hcopy hrow hf]
      | some result =>
        rw [mutateVia_of_return hentry haccepts hcopy hrow hf]
        intro d hd
        rcases List.mem_cons.mp hd with rfl | hd
        · rfl
        · exact onInsertLoop_derefs (fun _ => rfl) _ _ d hd
  · simp [mutateVia_of_refuses hentry hrefuses]

/-- After the row has been taken out, the reference into its entry dangles. -/
theorem entryRef_onRemove (ix : Indexes S t) (value : S.Value t) :
    entryRef i (S.field i value) (IndexStorage.onRemove (S.Key t) ix value) = none := by
  unfold entryRef
  rw [Indexes.get_onRemove]
  exact Finmap.lookup_erase _ _

/-- If the closure returns, the reference fails in `on_insert`, for the first field. -/
theorem mutateByReference_of_return {value : S.Value t} {result : ρ}
    (hentry : (base.indexes.get i).data.lookup (S.field i value) = some k)
    (haccepts : base.Accepts debug owner) (hrow : base.data.lookup k = some value)
    (hf : (f value).2 = some result) :
    mutateByReference debug i base (S.field i value) f owner = ⟨[some k, none], none⟩ := by
  unfold mutateByReference
  have hfields : S.fields t ≠ [] := List.ne_nil_of_mem (S.mem_fields t i)
  rw [mutateVia_of_return hentry haccepts hentry hrow hf,
    onInsertLoop_of_dangling hfields (entryRef_onRemove base.indexes value)]
  rfl

end IndexedOpsMut

/-- **The reference to the base key.** Through an index whose entries name rows, for a row
that all indexes find, every use that `mutate` makes of its reference yields the key that the
index held, and all indexes find the row under it after the call, if and only if the caller is
refused. Otherwise the closure unwinds and leaves the row out of the index, or `on_insert`
uses a reference into an entry that `on_remove` has taken out. -/
theorem baseKey_reference_valid_iff (debug : Bool) (owner : Owner) {base : BaseTable S t}
    {i : S.Field t} (hsound : base.SoundAt i) {key : S.FieldTy t i} {k : S.Key t}
    (hentry : (base.indexes.get i).data.lookup key = some k) (hfinds : ∀ j, base.FindsAt j k)
    (f : MutFn (S.Value t) ρ) :
    let run := IndexedOpsMut.mutateByReference debug i base key f owner
    ((∀ d ∈ run.derefs, d = some k) ∧
      ∃ result base' v, run.outcome = some (result, base') ∧ base'.data.lookup k = some v ∧
        ∀ j, (base'.indexes.get j).data.lookup (S.field j v) = some k) ↔
      ∃ prevOwner, base.Refuses debug prevOwner owner := by
  intro run
  obtain ⟨value, hrow, rfl⟩ := hsound key k hentry
  rcases base.accepts_or_refuses debug owner with haccepts | ⟨prevOwner, hrefuses⟩
  · refine iff_of_false ?_ fun ⟨prevOwner, hrefuses⟩ => hrefuses.not_accepts haccepts
    rintro ⟨hderefs, result, base', v, houtcome, hrow', hregistered⟩
    cases hf : (f value).2 with
    | none =>
      have hmutate := IndexedOpsMut.mutateVia_outcome hentry hderefs
      rw [IndexedOpsMut.mutate_of_some f hentry,
        TabularOpsMut.mutate_of_unwind haccepts hrow hf] at hmutate
      cases houtcome.symm.trans hmutate
      have hmissed := (hsound.unregister k).not_findsRow_unregistered (f value).1
      refine hmissed fun v' hv' => ?_
      cases hrow'.symm.trans hv'
      exact hregistered i
    | some result' =>
      have hrun : run = _ := IndexedOpsMut.mutateByReference_of_return hentry haccepts hrow hf
      rw [hrun] at houtcome
      cases houtcome
  · refine iff_of_true ?_ ⟨prevOwner, hrefuses⟩
    have hrun : run = _ := IndexedOpsMut.mutateVia_of_refuses hentry hrefuses
    rw [hrun]
    exact ⟨nofun, _, base, value, rfl, hrow, fun j => hfinds j value hrow⟩

/-- A caller that is refused meets the condition. -/
theorem peopleStorage_reference_valid_iff :
    let base := peopleStorage.tables People
    let untouched : MutFn (people.Value People) Unit := fun person => (person, some ())
    let run :=
      IndexedOpsMut.mutateByReference true People.email base "a@example.com" untouched "intruder"
    ((∀ d ∈ run.derefs, d = some (1 : UInt32)) ∧
      ∃ result base' v, run.outcome = some (result, base') ∧
        base'.data.lookup (1 : UInt32) = some v ∧
        ∀ j, (base'.indexes.get j).data.lookup (people.field j v) = some (1 : UInt32)) ↔
      ∃ prevOwner, base.Refuses true prevOwner "intruder" :=
  baseKey_reference_valid_iff true "intruder" (peopleStorage_exact People.email).sound rfl
    (fun j => (peopleStorage_exact j).findsRow (1 : UInt32)) _

/-- Mutable access to the first person with a closure that leaves the row as it is. -/
def untouchedByReference :
    Dereferenced (people.Key People) (Except Panic (Option Unit) × BaseTable people People) :=
  IndexedOpsMut.mutateByReference true People.email (peopleStorage.tables People)
    (people.field People.email (People.person "a@example.com" [97]))
    (fun person => (person, some ())) "owner"

/-- The reference yields the key at its first use and fails at the second. -/
theorem untouchedByReference_derefs :
    untouchedByReference.derefs = [some (1 : UInt32), none] :=
  congrArg Dereferenced.derefs
    (IndexedOpsMut.mutateByReference_of_return rfl
      (fun _ howner _ => (Option.some.inj howner).symm) rfl rfl)

/-- **The reference dangles.** With a closure that returns, the reference is used after
the entry it points into has been taken out. -/
theorem baseKey_reference_dangles :
    ¬ ∀ (commands : List (Command people noSingletons Unit)),
      (∀ r ∈ requests commands, r.Maintained) → ∀ t : people.Name,
      let base := (stateAfter (Request.exec true) (requests commands) Storage.new).tables t
      (∀ j, base.ExactAt j) → ∀ (owner : Owner) (i : people.Field t) (key : people.FieldTy t i)
        (k : people.Key t), (base.indexes.get i).data.lookup key = some k →
        ∀ f : MutFn (people.Value t) Unit,
          ∀ d ∈ (IndexedOpsMut.mutateByReference true i base key f owner).derefs, d = some k := by
  intro hclaim
  have hderefs : ∀ d ∈ untouchedByReference.derefs, d = some (1 : UInt32) :=
    hclaim peopleRun peopleRun_maintained People peopleStorage_exact "owner" People.email _ _ rfl _
  rw [untouchedByReference_derefs] at hderefs
  cases hderefs none (List.mem_cons_of_mem _ List.mem_cons_self)

end TsKvstore
