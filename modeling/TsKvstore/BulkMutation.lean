import TsKvstore.IndexIteration
import TsKvstore.Refinement

/-!
# Mutation of all rows

`for_each_mut` calls its closure on rows without a look at the indexes and builds
every index anew at the end. So the indexes it leaves are right whatever they held
before, also if the rows were visited through an index that misses some of them. If
the effect of the closure on a row depends on the value of the row alone, neither the
handle nor the order of any iteration can be told from the storage it leaves.
-/

namespace TsKvstore

open FiniteMaps Machines

variable {S : Schema} {G : Singletons} {ρ : Type} {t : S.Name}

/-- The indexes of a table hold the indexed values of its rows, each with a row that
has it, and are the inverse of the rows where these are distinct. -/
structure Table.Repaired (base : BaseTable S t) : Prop where
  mem_iff : ∀ i f, f ∈ (base.indexes.get i).data ↔
    ∃ k v, base.data.lookup k = some v ∧ S.field i v = f
  sound : ∀ i, base.SoundAt i
  exact : ∀ i, base.DistinctAt i → base.ExactAt i

/-- A table with the given rows whose indexes have been built anew. -/
def Table.rebuilt (base : BaseTable S t) (data : FiniteMap (S.Key t) (S.Value t))
    (l : List (S.Key t × S.Value t)) : BaseTable S t :=
  { base with
    data
    indexes := IndexStorage.build (IndexStorage.clear (S.Key t) (S.Value t) base.indexes) l }

/-- Indexes that are built anew are right for the rows. -/
theorem Table.rebuilt_repaired (base : BaseTable S t) {data : FiniteMap (S.Key t) (S.Value t)}
    {l : List (S.Key t × S.Value t)} (hl : Enumerates l data) : (base.rebuilt data l).Repaired where
  mem_iff i f := by
    simp only [Table.rebuilt, Indexes.get_build, Indexes.get_clear, mem_rebuildIndex,
      Finmap.notMem_empty, or_false, Prod.exists, hl.mem_iff]
  sound i := by
    unfold Table.SoundAt Table.rebuilt
    rw [Indexes.get_build, Indexes.get_clear]
    exact soundIndex_rebuild hl
  exact i hdistinct := by
    unfold Table.ExactAt Table.rebuilt
    rw [Indexes.get_build, Indexes.get_clear]
    exact exactIndex_rebuild hl hdistinct

/-- The loop through an index leaves the rows alone that no entry names. -/
theorem IndexedOpsMut.lookup_forEachLoop {Q : Type} (f : EachMutFn Q (S.Value t) ρ)
    {l : List (Q × S.Key t)} {k : S.Key t} (hk : ∀ e ∈ l, e.2 ≠ k) (s : ρ)
    (data : FiniteMap (S.Key t) (S.Value t)) :
    (forEachLoop f l s data).2.lookup k = data.lookup k := by
  induction l generalizing s data with
  | nil => rfl
  | cons e l ih =>
    obtain ⟨q, baseKey⟩ := e
    have hne : k ≠ baseKey := (hk (q, baseKey) List.mem_cons_self).symm
    have hrest : ∀ e ∈ l, e.2 ≠ k := fun e he => hk e (List.mem_cons_of_mem _ he)
    rw [forEachLoop]
    cases hrow : data.lookup baseKey with
    | none => exact ih hrest s data
    | some v =>
      dsimp only
      rcases f s q v with ⟨v', _ | s'⟩
      · exact Finmap.lookup_insert_of_ne data hne
      · exact (ih hrest s' _).trans (Finmap.lookup_insert_of_ne data hne)

/-- **Repair.** From any table, whatever its indexes hold, `for_each_mut` of an
accepted owner with a closure that does not unwind leaves indexes that are right for
its rows. Through an index handle, a row that no entry of the index names keeps its
value and is entered as well. -/
theorem forEachMut_repairs_indexes {debug : Bool} {owner : Owner} {base : BaseTable S t}
    (haccepts : base.Accepts debug owner) :
    (∀ (order rebuild : IterOrder (S.Key t) (S.Value t)) (f : EachMutFn (S.Key t) (S.Value t) ρ)
      (s : ρ), (∀ s k v, (f s k v).2 ≠ none) →
      ∃ s' base',
        TabularOpsMut.forEachMut debug order rebuild base f s owner = (.ok s', base') ∧
          base'.Repaired) ∧
    ∀ (i : S.Field t) (order : IterOrder (S.FieldTy t i) (S.Key t))
      (rebuild : IterOrder (S.Key t) (S.Value t)) (f : EachMutFn (S.FieldTy t i) (S.Value t) ρ)
      (s : ρ), (∀ s q v, (f s q v).2 ≠ none) →
      ∃ s' base',
        IndexedOpsMut.forEachMut debug i order rebuild base f s owner = (.ok s', base') ∧
          base'.Repaired ∧
          ∀ k v, base.data.lookup k = some v →
            (∀ q, (base.indexes.get i).data.lookup q ≠ some k) →
            base'.data.lookup k = some v ∧
              ∀ j, S.field j v ∈ (base'.indexes.get j).data := by
  constructor
  · intro order rebuild f s hf
    obtain ⟨s', data, hloop⟩ :=
      TabularOpsMut.forEachLoop_returns hf (order.list base.data) s base.data
    refine ⟨s', base.rebuilt data (rebuild.list data), ?_, ?_⟩
    · exact TabularOpsMut.forEachMut_of_return haccepts hloop
    · exact base.rebuilt_repaired (rebuild.enumerates data)
  · intro i order rebuild f s hf
    obtain ⟨s', data, hloop⟩ := IndexedOpsMut.forEachLoop_returns hf
      (order.list (base.indexes.get i).data) s base.data
    have hrepaired := base.rebuilt_repaired (rebuild.enumerates data)
    refine ⟨s', base.rebuilt data (rebuild.list data), ?_, hrepaired, ?_⟩
    · exact IndexedOpsMut.forEachMut_of_return haccepts hloop
    · intro k v hrow hunnamed
      have hk : ∀ e ∈ order.list (base.indexes.get i).data, e.2 ≠ k := by
        rintro ⟨q, _⟩ he rfl
        exact hunnamed q ((order.enumerates _).lookup_of_mem he)
      have hkept := IndexedOpsMut.lookup_forEachLoop f hk s base.data
      rw [hloop, hrow] at hkept
      exact ⟨hkept, fun j => (hrepaired.mem_iff j _).mpr ⟨k, v, hkept, rfl⟩⟩

/-- The table of a person and of an entry that names no row is repaired through the
index that holds the entry. -/
theorem danglingTable_repaired :
    ∃ s' base',
      IndexedOpsMut.forEachMut true People.email .arbitrary .arbitrary danglingTable
          (fun s _ person => (person, some s)) () "owner" = (.ok s', base') ∧
        base'.Repaired ∧
        ∀ k v, danglingTable.data.lookup k = some v →
          (∀ q, (danglingTable.indexes.get People.email).data.lookup q ≠ some k) →
          base'.data.lookup k = some v ∧
            ∀ j, people.field j v ∈ (base'.indexes.get j).data :=
  (forEachMut_repairs_indexes fun _ howner _ => (Option.some.inj howner).symm).2 People.email
    .arbitrary .arbitrary (fun s _ person => (person, some s)) ()
    fun _ _ _ => Option.some_ne_none _

/-! ## Handles and iteration orders -/

/-- The call is `for_each_mut` on table `t`, through some handle and in some orders,
with a closure that leaves `g v` in a row that holds `v`. -/
inductive BulkMutates (t : S.Name) (g : S.Value t → S.Value t) : StoreCall S G ρ → Prop where
  /-- Through the handle of the table. -/
  | table (order rebuild : IterOrder (S.Key t) (S.Value t))
      (f : EachMutFn (S.Key t) (S.Value t) ρ) (s : ρ) (hf : ∀ s k v, (f s k v).1 = g v) :
      BulkMutates t g (.table t (.forEachMut order rebuild f s))
  /-- Through the handle of an index. -/
  | tableBy (i : S.Field t) (order : IterOrder (S.FieldTy t i) (S.Key t))
      (rebuild : IterOrder (S.Key t) (S.Value t)) (f : EachMutFn (S.FieldTy t i) (S.Value t) ρ)
      (s : ρ) (hf : ∀ s q v, (f s q v).1 = g v) :
      BulkMutates t g (.tableBy t i (.forEachMut order rebuild f s))

/-- The call returns. -/
def StoreCall.Returns (debug : Bool) (owner : Owner) (s : Storage S G) (call : StoreCall S G ρ) :
    Prop :=
  ∃ r, (call.exec debug owner s).1 = .ok r

/-- Distinct rows determine the indexes that are built from them. -/
theorem Table.rebuilt_unique (base : BaseTable S t) {data : FiniteMap (S.Key t) (S.Value t)}
    (hdistinct : ∀ i, DistinctOn (S.field i) data) {l l' : List (S.Key t × S.Value t)}
    (hl : Enumerates l data) (hl' : Enumerates l' data) :
    base.rebuilt data l = base.rebuilt data l' := by
  have hindexes : IndexStorage.build (IndexStorage.clear (S.Key t) (S.Value t) base.indexes) l =
      IndexStorage.build (IndexStorage.clear (S.Key t) (S.Value t) base.indexes) l' := by
    ext1 i
    have hexact := exactIndex_rebuild hl (hdistinct i)
    have hexact' := exactIndex_rebuild hl' (hdistinct i)
    simp only [Indexes.get_build, Indexes.get_clear, hexact.unique hexact']
  unfold Table.rebuilt
  rw [hindexes]

/-- The second table is the first with `g` applied to every row and the indexes built
anew. -/
def Table.Maps (g : S.Value t → S.Value t) (base base' : BaseTable S t) : Prop :=
  ∃ data l, Enumerates l data ∧ (∀ k, data.lookup k = (base.data.lookup k).map g) ∧
    base' = base.rebuilt data l

/-- If the mapped rows are distinct, they and their indexes are determined. -/
theorem Table.Maps.unique {g : S.Value t → S.Value t} {base base₁ base₂ : BaseTable S t}
    (h₁ : Table.Maps g base base₁) (h₂ : Table.Maps g base base₂)
    (hdistinct : ∀ i, base₁.DistinctAt i) : base₁ = base₂ := by
  obtain ⟨data₁, l₁, hl₁, hdata₁, rfl⟩ := h₁
  obtain ⟨data₂, l₂, hl₂, hdata₂, rfl⟩ := h₂
  have hdata : data₁ = data₂ := by
    apply Finmap.ext_lookup
    intro k
    rw [hdata₁, hdata₂]
  subst hdata
  exact base.rebuilt_unique hdistinct hl₁ hl₂

section

variable {debug : Bool} {owner : Owner} {g : S.Value t → S.Value t} {base : BaseTable S t}

/-- A loop over the rows applies a closure that depends on the row only to each of them. -/
theorem TabularOpsMut.forEachMut_maps (haccepts : base.Accepts debug owner)
    {order rebuild : IterOrder (S.Key t) (S.Value t)} {f : EachMutFn (S.Key t) (S.Value t) ρ}
    (hf : ∀ s k v, (f s k v).1 = g v) {s r : ρ}
    (hreturns : (forEachMut debug order rebuild base f s owner).1 = .ok r) :
    base.Maps g (forEachMut debug order rebuild base f s owner).2 := by
  rcases hloop : forEachLoop f (order.list base.data) s base.data with ⟨_ | s', data⟩
  · rw [forEachMut_of_unwind haccepts hloop] at hreturns
    cases hreturns
  · rw [forEachMut_of_return haccepts hloop]
    rw [forEachLoop_eq] at hloop
    have hdata := RefTable.lookup_forEachLoop hf (order.enumerates base.data) hloop
    exact ⟨data, rebuild.list data, rebuild.enumerates data, hdata, rfl⟩

/-- So does a loop over the entries of an exact index. -/
theorem IndexedOpsMut.forEachMut_maps {i : S.Field t} (hexact : base.ExactAt i)
    (haccepts : base.Accepts debug owner) {order : IterOrder (S.FieldTy t i) (S.Key t)}
    {rebuild : IterOrder (S.Key t) (S.Value t)} {f : EachMutFn (S.FieldTy t i) (S.Value t) ρ}
    (hf : ∀ s q v, (f s q v).1 = g v) {s r : ρ}
    (hreturns : (forEachMut debug i order rebuild base f s owner).1 = .ok r) :
    base.Maps g (forEachMut debug i order rebuild base f s owner).2 := by
  obtain ⟨l, hl, horder⟩ := ExactIndex.exists_rows hexact (order.enumerates _)
  rcases hloop : forEachLoop f (order.list (base.indexes.get i).data) s base.data with
    ⟨_ | s', data⟩
  · rw [forEachMut_of_unwind haccepts hloop] at hreturns
    cases hreturns
  · rw [forEachMut_of_return haccepts hloop]
    rw [horder, forEachLoop_eq f hl.nodup s fun kv hkv => hl.lookup_of_mem hkv] at hloop
    have hdata := RefTable.lookup_forEachLoop hf hl hloop
    exact ⟨data, rebuild.list data, rebuild.enumerates data, hdata, rfl⟩

variable {s : Storage S G} {call : StoreCall S G ρ}

/-- A call that returns has applied `g` to every row and has built the indexes anew. -/
theorem BulkMutates.maps (hcall : BulkMutates t g call) (hexact : ∀ i, (s.tables t).ExactAt i)
    (haccepts : (s.tables t).Accepts debug owner) (hreturns : call.Returns debug owner s) :
    ∃ base', (s.tables t).Maps g base' ∧ (call.exec debug owner s).2 = s.setTable t base' := by
  obtain ⟨r, hr⟩ := hreturns
  cases hcall with
  | table order rebuild f s₀ hf =>
    exact ⟨_, TabularOpsMut.forEachMut_maps haccepts hf hr, rfl⟩
  | tableBy i order rebuild f s₀ hf =>
    exact ⟨_, IndexedOpsMut.forEachMut_maps (hexact i) haccepts hf hr, rfl⟩

/-- A call whose closure does not unwind returns. -/
theorem BulkMutates.returns (hcall : BulkMutates t g call)
    (haccepts : (s.tables t).Accepts debug owner) (hclosure : call.NonPanicking) :
    call.Returns debug owner s := by
  cases hcall with
  | table order rebuild f s₀ hf =>
    rcases TabularOps.result_of_accepts haccepts (.forEachMut order rebuild f s₀) with
      hreturns | ⟨_, hunwinds⟩
    · exact hreturns
    · exact absurd hclosure hunwinds
  | tableBy i order rebuild f s₀ hf =>
    rcases IndexedOps.result_of_accepts haccepts (.forEachMut order rebuild f s₀) with
      hreturns | ⟨_, hunwinds⟩
    · exact hreturns
    · exact absurd hclosure hunwinds

end

/-- **Handle and order independence.** Two calls of `for_each_mut` on a table with exact
indexes, through any handles and in any orders, with closures that leave `g v` in a row
that holds `v`, leave the same storage if the rows they leave are distinct: `g` is
applied to every row, and every index is exact. They return if their closures do not
unwind. -/
theorem forEachMut_handle_independent {ρ₁ ρ₂ : Type} {debug : Bool} {s : Storage S G}
    (hexact : ∀ i, (s.tables t).ExactAt i) {g : S.Value t → S.Value t}
    (hdistinct : ∀ i, DistinctOn (fun v => S.field i (g v)) (s.tables t).data)
    {owner₁ owner₂ : Owner} (haccepts₁ : (s.tables t).Accepts debug owner₁)
    (haccepts₂ : (s.tables t).Accepts debug owner₂) {call₁ : StoreCall S G ρ₁}
    {call₂ : StoreCall S G ρ₂} (hcall₁ : BulkMutates t g call₁) (hcall₂ : BulkMutates t g call₂) :
    (call₁.NonPanicking → call₁.Returns debug owner₁ s) ∧
    (call₂.NonPanicking → call₂.Returns debug owner₂ s) ∧
    (call₁.Returns debug owner₁ s → call₂.Returns debug owner₂ s →
      (call₁.exec debug owner₁ s).2 = (call₂.exec debug owner₂ s).2 ∧
      (∀ k, ((call₁.exec debug owner₁ s).2.tables t).data.lookup k =
        ((s.tables t).data.lookup k).map g) ∧
      ∀ i, ((call₁.exec debug owner₁ s).2.tables t).ExactAt i) := by
  refine ⟨hcall₁.returns haccepts₁, hcall₂.returns haccepts₂, fun hreturns₁ hreturns₂ => ?_⟩
  obtain ⟨base₁, hmaps₁, hbase₁⟩ := hcall₁.maps hexact haccepts₁ hreturns₁
  obtain ⟨base₂, hmaps₂, hbase₂⟩ := hcall₂.maps hexact haccepts₂ hreturns₂
  have hrows : ∀ k, base₁.data.lookup k = ((s.tables t).data.lookup k).map g := by
    obtain ⟨data, l, _, hdata, rfl⟩ := hmaps₁
    exact hdata
  have hdistinct₁ : ∀ i, base₁.DistinctAt i := fun i => (hdistinct i).map hrows
  have hrepaired : base₁.Repaired := by
    obtain ⟨data, l, hl, _, rfl⟩ := hmaps₁
    exact (s.tables t).rebuilt_repaired hl
  rw [hbase₁, hbase₂, Storage.setTable_tables_self]
  refine ⟨?_, hrows, fun i => hrepaired.exact i (hdistinct₁ i)⟩
  rw [hmaps₁.unique hmaps₂ hdistinct₁]

/-- The email addresses of the two people are exchanged. -/
def exchangeEmails (v : people.Value People) : people.Value People :=
  let person : Person := v
  if person.email = "a@example.com" then People.person "c@example.com" person.username
  else People.person "a@example.com" person.username

/-- After the exchange no two people share a value. -/
theorem exchangeEmails_distinct :
    ∀ i, DistinctOn (fun v => people.field i (exchangeEmails v))
      (peopleStorage.tables People).data := by
  have hall : ∀ i ∈ people.fields People,
      DistinctOn (fun v => people.field i (exchangeEmails v))
        (peopleStorage.tables People).data := by decide
  exact fun i => hall i (people.mem_fields People i)

/-- The exchange through the handle of the table. -/
noncomputable def exchangeAll : StoreCall people noSingletons Unit :=
  .table People (.forEachMut .arbitrary .arbitrary
    (fun s _ person => (exchangeEmails person, some s)) ())

/-- The exchange through the handle of the index on the second field. -/
noncomputable def exchangeAllBy : StoreCall people noSingletons Unit :=
  .tableBy People People.username (.forEachMut .arbitrary .arbitrary
    (fun s _ person => (exchangeEmails person, some s)) ())

/-- The exchange leaves the same storage through both handles. -/
theorem exchangeAll_handle_independent :
    (exchangeAll.exec true "owner" peopleStorage).2 =
      (exchangeAllBy.exec true "owner" peopleStorage).2 := by
  have haccepts : (peopleStorage.tables People).Accepts true "owner" :=
    fun _ howner _ => (Option.some.inj howner).symm
  obtain ⟨hreturns, hreturnsBy, hsame⟩ :=
    forEachMut_handle_independent peopleStorage_exact exchangeEmails_distinct haccepts haccepts
      (BulkMutates.table .arbitrary .arbitrary (fun s _ person => (exchangeEmails person, some s))
        () fun _ _ _ => rfl)
      (BulkMutates.tableBy People.username .arbitrary .arbitrary
        (fun s _ person => (exchangeEmails person, some s)) () fun _ _ _ => rfl)
  have hclosure : exchangeAll.NonPanicking := fun s _ _ => Option.some_ne_none s
  have hclosureBy : exchangeAllBy.NonPanicking := fun s _ _ => Option.some_ne_none s
  exact (hsame (hreturns hclosure) (hreturnsBy hclosureBy)).1

end TsKvstore
