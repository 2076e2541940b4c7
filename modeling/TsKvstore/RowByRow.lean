import TsKvstore.BulkMutation
import TsKvstore.IndexHandles
import TsKvstore.Transactions

/-!
# Bulk operations row by row

A bulk operation does what a caller could do row by row. Inserting the rows that an
iteration presents into an empty table gives the table back, with the indexes that
`build` makes. `for_each_mut` does what a loop over `mutate` does, as long as no two rows
share an indexed value in between, and `clear` does what a loop over `remove` does.
-/

namespace TsKvstore

open FiniteMaps Machines

variable {S : Schema} {G : Singletons} {ρ : Type} {t : S.Name} {debug : Bool} {owner : Owner}

/-! ## Filling a table -/

/-- The insertions of the listed rows. -/
def insertions (t : S.Name) (l : List (S.Key t × S.Value t)) : List (StoreCall S G ρ) :=
  l.map fun kv => .table t (.insert kv.1 kv.2)

/-- An insertion that finds no row under its key. -/
def insertedFresh (t : S.Name) (kv : S.Key t × S.Value t) :
    Σ call : StoreCall S G ρ, Except Panic call.Ret :=
  ⟨.table t (.insert kv.1 kv.2), .ok (none : Option (S.Value t))⟩

/-- The listed rows have been written to table `t` and entered into its indexes. The
first of them has claimed a table without an owner. -/
structure FilledBy (owner : Owner) (t : S.Name) (l : List (S.Key t × S.Value t))
    (s s' : Storage S G) : Prop where
  data : (s'.tables t).data = (s.tables t).data.writeAll l
  indexes : ∀ i, ((s'.tables t).indexes.get i).data =
    rebuildIndex (S.field i) l ((s.tables t).indexes.get i).data
  owner_eq : (s'.tables t).owner =
    if l.length = 0 then (s.tables t).owner else (s.tables t).owner.or (some owner)
  indexOwner : ∀ i, ((s'.tables t).indexes.get i).owner = ((s.tables t).indexes.get i).owner
  others : ∀ t', t' ≠ t → s'.tables t' = s.tables t'
  singletons : s'.singletons = s.singletons

/-- A caller who claims a table is accepted by it. -/
theorem Table.Accepts.claimed {K V I : Type} {table : Table K V I}
    (h : table.Accepts debug owner) : (table.claimed owner).Accepts debug owner := by
  intro prevOwner howner hdebug
  have hclaimed : table.owner.getD owner = prevOwner := Option.some.inj howner
  cases htable : table.owner with
  | none =>
    rw [htable] at hclaimed
    exact hclaimed.symm
  | some p =>
    rw [htable] at hclaimed
    obtain rfl : p = prevOwner := hclaimed
    exact h p htable hdebug

/-- The table with a row under a new key. -/
def Table.withRow (base : BaseTable S t) (owner : Owner) (k : S.Key t) (v : S.Value t) :
    BaseTable S t :=
  { base.claimed owner with
    data := base.data.insert k v, indexes := IndexStorage.onInsert base.indexes k v }

/-- An insertion under a new key. -/
theorem exec_insert_fresh {s : Storage S G} (haccepts : (s.tables t).Accepts debug owner)
    {k : S.Key t} (hk : (s.tables t).data.lookup k = none) (v : S.Value t) :
    (StoreCall.table t (.insert k v) : StoreCall S G ρ).exec debug owner s =
      (.ok (none : Option (S.Value t)), s.setTable t ((s.tables t).withRow owner k v)) := by
  have hinsert := TabularOpsMut.insert_of_accepts haccepts k v
  rw [hk, Table.unregister_of_none hk] at hinsert
  exact congrArg (fun r => (r.1, s.setTable t r.2)) hinsert

/-- The listed rows are written after a row under a new key. -/
theorem FilledBy.cons {s s' : Storage S G} {k : S.Key t} {v : S.Value t}
    {l : List (S.Key t × S.Value t)}
    (h : FilledBy owner t l (s.setTable t ((s.tables t).withRow owner k v)) s') :
    FilledBy owner t ((k, v) :: l) s s' where
  data := by
    rw [h.data, Storage.setTable_tables_self]
    rfl
  indexes i := by
    rw [h.indexes, Storage.setTable_tables_self]
    exact congrArg (fun table : IndexTable S t i => rebuildIndex (S.field i) l table.data)
      (Indexes.get_onInsert (s.tables t).indexes k v i)
  owner_eq := by
    have hclaimed : ((s.tables t).withRow owner k v).owner = (s.tables t).owner.or (some owner) :=
      (s.tables t).claimed_owner
    have hfirst : ((k, v) :: l).length ≠ 0 := Nat.succ_ne_zero l.length
    rw [h.owner_eq, Storage.setTable_tables_self, hclaimed, if_neg hfirst, Option.or_assoc]
    exact ite_self _
  indexOwner i := by
    have hinsert := congrArg Table.owner (Indexes.get_onInsert (s.tables t).indexes k v i)
    rw [h.indexOwner, Storage.setTable_tables_self]
    exact hinsert
  others t' ht' := by
    rw [h.others t' ht']
    exact s.setTable_tables_of_ne _ ht'
  singletons := h.singletons

/-- Rows with new keys are inserted one after the other. -/
theorem atCommit_insertions {s : Storage S G} (haccepts : (s.tables t).Accepts debug owner)
    {l : List (S.Key t × S.Value t)} (hnodup : (l.map Prod.fst).Nodup)
    (hfresh : ∀ kv ∈ l, (s.tables t).data.lookup kv.1 = none) :
    results (fun call s => StoreCall.exec (ρ := ρ) debug owner s call) (insertions t l) s =
        l.map (insertedFresh t) ∧
      FilledBy owner t l s (atCommit (ρ := ρ) debug owner (insertions t l) s) := by
  induction l generalizing s with
  | nil => exact ⟨rfl, rfl, fun _ => rfl, rfl, fun _ => rfl, fun _ _ => rfl, rfl⟩
  | cons kv l ih =>
    obtain ⟨k, v⟩ := kv
    obtain ⟨hk, hnodup⟩ := List.nodup_cons.mp hnodup
    have hnone : (s.tables t).data.lookup k = none := hfresh (k, v) List.mem_cons_self
    have hexec := exec_insert_fresh (ρ := ρ) haccepts hnone v
    set next := s.setTable t ((s.tables t).withRow owner k v)
    have hresult := congrArg Prod.fst hexec
    have hstate := congrArg Prod.snd hexec
    have htable : next.tables t = (s.tables t).withRow owner k v :=
      s.setTable_tables_self t _
    have haccepts' : (next.tables t).Accepts debug owner := by
      rw [htable]
      exact haccepts.claimed
    have hfresh' : ∀ kv ∈ l, (next.tables t).data.lookup kv.1 = none := by
      intro kv hkv
      have hne : kv.1 ≠ k := fun heq => hk (List.mem_map.mpr ⟨kv, hkv, heq⟩)
      rw [htable]
      exact (Finmap.lookup_insert_of_ne _ hne).trans (hfresh kv (List.mem_cons_of_mem _ hkv))
    obtain ⟨hresults, hfilled⟩ := ih haccepts' hnodup hfresh'
    have hstep : atCommit (ρ := ρ) debug owner (insertions t ((k, v) :: l)) s =
        atCommit (ρ := ρ) debug owner (insertions t l) next :=
      congrArg (atCommit (ρ := ρ) debug owner (insertions t l)) hstate
    rw [hstep]
    have hrest : results (fun call s => StoreCall.exec (ρ := ρ) debug owner s call)
        (insertions t l)
        ((StoreCall.table t (.insert k v) : StoreCall S G ρ).exec debug owner s).2 =
          l.map (insertedFresh t) := by
      rw [hstate]
      exact hresults
    exact ⟨congrArg₂ List.cons (congrArg (Sigma.mk _) hresult) hrest, hfilled.cons⟩

/-- Table `t` holds the rows of `base`, with indexes that are right for them. It belongs to
the owner that it had, or, if it had none and there are rows, to the caller. The owners of
its index tables, the other tables and the singletons are as they were. -/
structure Reloaded (owner : Owner) (base : BaseTable S t) (s s' : Storage S G) : Prop where
  data : (s'.tables t).data = base.data
  repaired : (s'.tables t).Repaired
  indexes : ∀ i, base.ExactAt i →
    ((s'.tables t).indexes.get i).data = (base.indexes.get i).data
  owner_eq : (s'.tables t).owner =
    if base.data.size = 0 then (s.tables t).owner else (s.tables t).owner.or (some owner)
  indexOwner : ∀ i, ((s'.tables t).indexes.get i).owner = ((s.tables t).indexes.get i).owner
  others : ∀ t', t' ≠ t → s'.tables t' = s.tables t'
  singletons : s'.singletons = s.singletons

/-- **Dump and reload.** Inserting the rows that an iteration over a table presents into
an empty table, one after the other, gives the same rows. Its indexes are right for
these rows, and those that were exact are the same again. The caller becomes the owner of
a table that had none, and nothing else changes. -/
theorem dump_and_reload (s : Storage S G) (order : IterOrder (S.Key t) (S.Value t))
    {s' : Storage S G} (hdata : (s'.tables t).data = ∅)
    (hindexes : ∀ i, ((s'.tables t).indexes.get i).data = ∅)
    (haccepts : (s'.tables t).Accepts debug owner) :
    let items := TabularOps.iterCloned order (s.tables t)
    let reloaded := atCommit (ρ := ρ) debug owner (insertions t items) s'
    results (fun call s => StoreCall.exec (ρ := ρ) debug owner s call) (insertions t items) s' =
        items.map (insertedFresh t) ∧
      Reloaded owner (s.tables t) s' reloaded := by
  have hitems : TabularOps.iterCloned order (s.tables t) = order.list (s.tables t).data :=
    TableIterator.collect_keysAndValues order (s.tables t).data
  have hall := order.enumerates (s.tables t).data
  rw [hitems]
  have hfresh : ∀ kv ∈ order.list (s.tables t).data, (s'.tables t).data.lookup kv.1 = none := by
    intro kv _
    rw [hdata]
    exact Finmap.lookup_empty kv.1
  obtain ⟨hresults, hfilled⟩ := atCommit_insertions (ρ := ρ) haccepts hall.nodup hfresh
  intro items reloaded
  have hrows : (reloaded.tables t).data = (s.tables t).data := by
    rw [hfilled.data, hdata]
    exact hall.writeAll_eq
  have hindex : ∀ i, ((reloaded.tables t).indexes.get i).data =
      rebuildIndex (S.field i) items ∅ := by
    intro i
    rw [hfilled.indexes, hindexes]
  have hrepaired : (reloaded.tables t).Repaired := by
    refine ⟨fun i f => ?_, fun i => ?_, fun i hdistinct => ?_⟩
    · rw [hindex, hrows, mem_rebuildIndex]
      simp only [Finmap.notMem_empty, or_false, Prod.exists]
      exact exists₂_congr fun k v => and_congr_left fun _ => hall.mem_iff k v
    · unfold Table.SoundAt
      rw [hindex, hrows]
      exact soundIndex_rebuild hall
    · unfold Table.DistinctAt at hdistinct
      unfold Table.ExactAt
      rw [hrows] at hdistinct
      rw [hindex, hrows]
      exact exactIndex_rebuild hall hdistinct
  have howner := hfilled.owner_eq
  rw [hall.length_eq] at howner
  refine ⟨hresults, hrows, hrepaired, fun i hexact => ?_, howner, hfilled.indexOwner,
    hfilled.others, hfilled.singletons⟩
  have hdistinct : (reloaded.tables t).DistinctAt i := by
    unfold Table.DistinctAt
    rw [hrows]
    exact ExactIndex.distinctOn hexact
  have hreloaded := hrepaired.exact i hdistinct
  unfold Table.ExactAt at hreloaded hexact
  rw [hrows] at hreloaded
  exact hreloaded.unique hexact

/-- A new store for people. -/
def newPeople : Storage people noSingletons := .new

/-- The people in a new store. -/
theorem people_dump_and_reload :
    let items := TabularOps.iterCloned .arbitrary (peopleStorage.tables People)
    let reloaded := atCommit (ρ := Unit) true "owner" (insertions People items) newPeople
    results (fun call s => StoreCall.exec (ρ := Unit) true "owner" s call)
        (insertions People items) newPeople = items.map (insertedFresh People) ∧
      Reloaded "owner" (peopleStorage.tables People) newPeople reloaded :=
  dump_and_reload peopleStorage .arbitrary rfl (fun _ => rfl) fun _ howner => nomatch howner

/-! ## Loops over `mutate` and over `remove` -/

/-- A loop over `mutate` on the listed keys, with the variables that the closure captures
as a state. -/
def mutateEach {K V I : Type} [DecidableEq K] [IndexStorage K V I] (debug : Bool)
    (owner : Owner) (f : EachMutFn K V ρ) :
    List K → ρ → Table K V I → Except Panic ρ × Table K V I
  | [], s, table => (.ok s, table)
  | key :: keys, s, table =>
    match TabularOpsMut.mutate debug table key (f s key) owner with
    | (.error p, table) => (.error p, table)
    | (.ok none, table) => mutateEach debug owner f keys s table
    | (.ok (some s), table) => mutateEach debug owner f keys s table

/-- A loop over `remove` on the listed keys. -/
def removeEach {K V I : Type} [DecidableEq K] [IndexStorage K V I] (debug : Bool)
    (owner : Owner) (keys : List K) (table : Table K V I) : Table K V I :=
  keys.foldl (fun table key => (TabularOpsMut.remove debug table key owner).2) table

/-- Two tables that agree but in the entries of their indexes. -/
structure SameBut (base base' : BaseTable S t) : Prop where
  owner : base'.owner = base.owner
  indexOwner : ∀ i, (base'.indexes.get i).owner = (base.indexes.get i).owner

/-- Tables that agree with a third one agree. -/
theorem SameBut.trans {base base' base'' : BaseTable S t} (h : SameBut base base')
    (h' : SameBut base' base'') : SameBut base base'' where
  owner := h'.owner.trans h.owner
  indexOwner i := (h'.indexOwner i).trans (h.indexOwner i)

/-- Exact indexes are determined by the rows. -/
theorem SameBut.eq_of_exact {base base' : BaseTable S t} (h : SameBut base base')
    (hdata : base'.data = base.data) (hexact : ∀ i, base.ExactAt i)
    (hexact' : ∀ i, base'.ExactAt i) : base' = base := by
  have hindexes : base'.indexes = base.indexes := by
    ext1 i
    have howner := h.indexOwner i
    have hentries : (base'.indexes.get i).data = (base.indexes.get i).data := by
      have hi := hexact' i
      unfold Table.ExactAt at hi
      rw [hdata] at hi
      exact hi.unique (hexact i)
    generalize base'.indexes.get i = table' at howner hentries
    generalize base.indexes.get i = table at howner hentries
    obtain ⟨owner, data, _⟩ := table
    obtain ⟨owner', data', _⟩ := table'
    cases howner
    cases hentries
    rfl
  obtain ⟨owner, data, indexes⟩ := base
  obtain ⟨owner', data', indexes'⟩ := base'
  cases hdata
  cases hindexes
  cases h.owner
  rfl

/-- The table after a mutation that returns. -/
def Table.mutated (base : BaseTable S t) (k : S.Key t) (v : S.Value t) : BaseTable S t :=
  { base with
    data := base.data.insert k v
    indexes := IndexStorage.onInsert (base.unregister k) k v }

/-- A mutation keeps all owners. -/
theorem Table.sameBut_mutated (base : BaseTable S t) (k : S.Key t) (v : S.Value t) :
    SameBut base (base.mutated k v) where
  owner := rfl
  indexOwner i := by
    have hinsert := congrArg Table.owner (Indexes.get_onInsert (base.unregister k) k v i)
    exact hinsert.trans (Table.unregister_index_owner k)

/-- A mutation that leaves distinct rows keeps an index exact. -/
theorem Table.ExactAt.mutated {base : BaseTable S t} {i : S.Field t} (h : base.ExactAt i)
    {k : S.Key t} {v : S.Value t} (hdistinct : DistinctOn (S.field i) (base.data.insert k v)) :
    (base.mutated k v).ExactAt i := by
  have hindex := congrArg Table.data (Indexes.get_onInsert (base.unregister k) k v i)
  unfold Table.ExactAt
  exact hindex ▸ ExactIndex.register (h.unregister k) hdistinct

/-- The loop over `mutate` leaves the rows that the loop of `forEachMut` leaves, and it
keeps exact indexes exact. -/
theorem mutateEach_eq {f : EachMutFn (S.Key t) (S.Value t) ρ}
    (hf : ∀ s k v, (f s k v).2 ≠ none) {l : List (S.Key t × S.Value t)} {s : ρ}
    {base : BaseTable S t} (haccepts : base.Accepts debug owner)
    (hnodup : (l.map Prod.fst).Nodup) (hrows : ∀ kv ∈ l, base.data.lookup kv.1 = some kv.2)
    (hexact : ∀ i, base.ExactAt i)
    (hdistinct : ∀ pre, pre <+: l → ∀ i,
      DistinctOn (S.field i) (TabularOpsMut.forEachLoop f pre s base.data).2) :
    ∃ s' base', mutateEach debug owner f (l.map Prod.fst) s base = (.ok s', base') ∧
      TabularOpsMut.forEachLoop f l s base.data = (some s', base'.data) ∧
      SameBut base base' ∧ ∀ i, base'.ExactAt i := by
  induction l generalizing s base with
  | nil => exact ⟨s, base, rfl, rfl, ⟨rfl, fun _ => rfl⟩, hexact⟩
  | cons kv l ih =>
    obtain ⟨k, v⟩ := kv
    obtain ⟨hk, hnodup⟩ := List.nodup_cons.mp hnodup
    obtain ⟨s₁, hs₁⟩ := Option.ne_none_iff_exists'.mp (hf s k v)
    have hrow : base.data.lookup k = some v := hrows (k, v) List.mem_cons_self
    have hmutate : TabularOpsMut.mutate debug base k (f s k) owner =
        (.ok (some s₁), base.mutated k (f s k v).1) :=
      TabularOpsMut.mutate_of_return haccepts hrow hs₁
    have hloop : ∀ l', TabularOpsMut.forEachLoop f ((k, v) :: l') s base.data =
        TabularOpsMut.forEachLoop f l' s₁ (base.mutated k (f s k v).1).data := by
      intro l'
      rw [TabularOpsMut.forEachLoop, ← Prod.mk.eta (p := f s k v), hs₁]
      rfl
    have haccepts' : (base.mutated k (f s k v).1).Accepts debug owner := haccepts
    have hfirst := hdistinct [(k, v)] (List.prefix_append [(k, v)] l)
    rw [hloop] at hfirst
    have hrows' : ∀ kv ∈ l, (base.mutated k (f s k v).1).data.lookup kv.1 = some kv.2 := by
      intro kv hkv
      have hne : kv.1 ≠ k := fun heq => hk (List.mem_map.mpr ⟨kv, hkv, heq⟩)
      exact (Finmap.lookup_insert_of_ne _ hne).trans (hrows kv (List.mem_cons_of_mem _ hkv))
    have hdistinct' : ∀ pre, pre <+: l → ∀ i, DistinctOn (S.field i)
        (TabularOpsMut.forEachLoop f pre s₁ (base.mutated k (f s k v).1).data).2 := by
      intro pre hpre i
      have hbegins : (k, v) :: pre <+: (k, v) :: l := List.cons_prefix_cons.mpr ⟨rfl, hpre⟩
      have h := hdistinct _ hbegins i
      rwa [hloop] at h
    obtain ⟨s', base', hmutates, hrest, hsame, hexact'⟩ :=
      ih haccepts' hnodup hrows' (fun i => (hexact i).mutated (hfirst i)) hdistinct'
    refine ⟨s', base', ?_, (hloop l).trans hrest, (base.sameBut_mutated k _).trans hsame, hexact'⟩
    rw [List.map_cons, mutateEach, hmutate]
    exact hmutates

/-- **`for_each_mut` is a loop over `mutate`.** On a table with exact indexes, with a
closure that does not unwind, both give the same result and leave the same table, if the
rows are distinct in all indexed fields after each call of the closure. -/
theorem forEachMut_row_by_row {base : BaseTable S t} (hexact : ∀ i, base.ExactAt i)
    (haccepts : base.Accepts debug owner) (order rebuild : IterOrder (S.Key t) (S.Value t))
    {f : EachMutFn (S.Key t) (S.Value t) ρ} (hf : ∀ s k v, (f s k v).2 ≠ none) (s : ρ)
    (hdistinct : ∀ pre, pre <+: order.list base.data → ∀ i,
      DistinctOn (S.field i) (TabularOpsMut.forEachLoop f pre s base.data).2) :
    TabularOpsMut.forEachMut debug order rebuild base f s owner =
      mutateEach debug owner f (TabularOps.iterKeysCloned order base) s base := by
  have hall := order.enumerates base.data
  have hkeys : TabularOps.iterKeysCloned order base = (order.list base.data).map Prod.fst :=
    TableIterator.collect_keys order base.data
  obtain ⟨s', base', hmutates, hloop, hsame, hexact'⟩ := mutateEach_eq hf haccepts hall.nodup
    (fun kv hkv => hall.lookup_of_mem hkv) hexact hdistinct
  rw [hkeys, hmutates, TabularOpsMut.forEachMut_of_return haccepts hloop]
  have hrebuilt := base.rebuilt_repaired (rebuild.enumerates base'.data)
  have hsame' : SameBut base' (base.rebuilt base'.data (rebuild.list base'.data)) := by
    refine ⟨hsame.owner.symm, fun i => ?_⟩
    have hbuild : (base.rebuilt base'.data (rebuild.list base'.data)).indexes.get i =
        { base.indexes.get i with
          data := rebuildIndex (S.field i) (rebuild.list base'.data) ∅ } := by
      unfold Table.rebuilt
      rw [Indexes.get_build, Indexes.get_clear]
    rw [hbuild]
    exact (hsame.indexOwner i).symm
  have heq := hsame'.eq_of_exact rfl hexact'
    fun i => hrebuilt.exact i (ExactIndex.distinctOn (hexact' i))
  exact congrArg (Prod.mk (Except.ok s')) heq

/-- The two people. -/
def twoRows : List (people.Key People × people.Value People) :=
  [((2 : UInt32), People.person "c@example.com" [99]),
   ((1 : UInt32), People.person "a@example.com" [97])]

/-- These are all rows of the table. -/
theorem twoRows_enumerates : Enumerates twoRows (peopleStorage.tables People).data := by
  have hdata : (peopleStorage.tables People).data =
      (Finmap.insert (1 : UInt32) (People.person "a@example.com" [97])
        (∅ : FiniteMap (people.Key People) (people.Value People))).insert (2 : UInt32)
          (People.person "c@example.com" [99]) := rfl
  rw [hdata]
  exact ((enumerates_empty_iff.mpr rfl).insert rfl _).insert (by decide) _

/-- A closure that makes a username longer and counts its calls. -/
def lengthenUsername : EachMutFn (people.Key People) (people.Value People) ℕ :=
  fun calls _ v =>
    let person : Person := v
    (People.person person.email (0 :: person.username), some (calls + 1))

/-- Both loops make the usernames longer. -/
theorem lengthenUsername_row_by_row :
    TabularOpsMut.forEachMut true (.presenting twoRows_enumerates) .arbitrary
        (peopleStorage.tables People) lengthenUsername 0 "owner" =
      mutateEach true "owner" lengthenUsername
        (TabularOps.iterKeysCloned (.presenting twoRows_enumerates)
          (peopleStorage.tables People)) 0 (peopleStorage.tables People) := by
  refine forEachMut_row_by_row peopleStorage_exact
    (fun _ howner _ => (Option.some.inj howner).symm) _ _
    (fun calls _ _ => Option.some_ne_none (calls + 1)) 0 ?_
  intro pre hpre i
  rw [IterOrder.presenting_list] at hpre
  have hall : ∀ pre ∈ twoRows.inits, ∀ i ∈ people.fields People,
      DistinctOn (people.field i) (TabularOpsMut.forEachLoop lengthenUsername pre 0
        (peopleStorage.tables People).data).2 := by decide
  exact hall pre ((List.mem_inits pre _).mpr hpre) i (people.mem_fields People i)

/-- The table after a removal. -/
def Table.removed (base : BaseTable S t) (k : S.Key t) : BaseTable S t :=
  { base with data := base.data.erase k, indexes := base.unregister k }

/-- The table after a removal of an accepted caller. -/
theorem remove_eq {base : BaseTable S t} (haccepts : base.Accepts debug owner) (k : S.Key t) :
    (TabularOpsMut.remove debug base k owner).2 = base.removed k := by
  cases hrow : base.data.lookup k with
  | none =>
    rw [TabularOpsMut.remove_of_none haccepts hrow]
    unfold Table.removed
    rw [erase_eq_self hrow, Table.unregister_of_none hrow]
  | some value =>
    rw [TabularOpsMut.remove_of_some haccepts hrow]
    unfold Table.removed Table.unregister
    rw [hrow]

/-- The loop over `remove` leaves the other rows, and it keeps sound indexes sound. -/
theorem removeEach_eq (keys : List (S.Key t)) {base : BaseTable S t}
    (haccepts : base.Accepts debug owner) (hsound : ∀ i, base.SoundAt i) :
    (∀ k, (removeEach debug owner keys base).data.lookup k =
        if k ∈ keys then none else base.data.lookup k) ∧
      SameBut base (removeEach debug owner keys base) ∧
      ∀ i, (removeEach debug owner keys base).SoundAt i := by
  induction keys generalizing base with
  | nil => exact ⟨fun _ => rfl, ⟨rfl, fun _ => rfl⟩, hsound⟩
  | cons key keys ih =>
    have hstep : removeEach debug owner (key :: keys) base =
        removeEach debug owner keys (base.removed key) := by
      unfold removeEach
      rw [List.foldl_cons, remove_eq haccepts key]
    have hsame : SameBut base (base.removed key) := ⟨rfl, fun _ => Table.unregister_index_owner key⟩
    have haccepts' : (base.removed key).Accepts debug owner := haccepts
    obtain ⟨hrows, hrest, hsound'⟩ := ih haccepts' fun i => (hsound i).unregister key
    rw [hstep]
    refine ⟨fun k => ?_, hsame.trans hrest, hsound'⟩
    rw [hrows]
    by_cases hk : k = key
    · subst hk
      simp [Table.removed]
    · simp [Table.removed, Finmap.lookup_erase_ne hk, hk]

/-- A sound index of no rows has no entries. -/
theorem Table.SoundAt.exact_of_empty {base : BaseTable S t} {i : S.Field t} (h : base.SoundAt i)
    (hdata : base.data = ∅) : base.ExactAt i := by
  refine SoundIndex.exact h fun k v hrow => ?_
  rw [hdata, Finmap.lookup_empty] at hrow
  cases hrow

/-- **`clear` is a loop over `remove`.** On a table with sound indexes, rows may share
indexed values, both leave the same table, but `clear` also takes a table without an
owner. -/
theorem clear_row_by_row {base : BaseTable S t} (hsound : ∀ i, base.SoundAt i)
    (haccepts : base.Accepts debug owner) (order : IterOrder (S.Key t) (S.Value t)) :
    (TabularOpsMut.clear debug base owner).2 =
      (removeEach debug owner (TabularOps.iterKeysCloned order base) base).claimed owner := by
  have hkeys : TabularOps.iterKeysCloned order base = (order.list base.data).map Prod.fst :=
    TableIterator.collect_keys order base.data
  obtain ⟨hrows, hsame, hsound'⟩ :=
    removeEach_eq (TabularOps.iterKeysCloned order base) haccepts hsound
  set removed := removeEach debug owner (TabularOps.iterKeysCloned order base) base
  have hempty : removed.data = ∅ := by
    apply Finmap.ext_lookup
    intro k
    rw [hrows, hkeys, Finmap.lookup_empty]
    by_cases hk : k ∈ (order.list base.data).map Prod.fst
    · exact if_pos hk
    · rw [if_neg hk]
      have hnone := mt ((order.enumerates base.data).mem_keys_iff k).mpr hk
      exact Option.eq_none_iff_forall_ne_some.mpr fun v hv => hnone ⟨v, hv⟩
  rw [TabularOpsMut.clear_of_accepts haccepts]
  set cleared : BaseTable S t :=
    { base.claimed owner with
      data := ∅, indexes := IndexStorage.clear (S.Key t) (S.Value t) base.indexes }
  have hcleared : ∀ i, cleared.indexes.get i = { base.indexes.get i with data := ∅ } :=
    fun i => Indexes.get_clear base.indexes i
  have hsame' : SameBut (removed.claimed owner) cleared := by
    refine ⟨?_, fun i => ?_⟩
    · exact congrArg (fun o : Option Owner => some (o.getD owner)) hsame.owner.symm
    · rw [hcleared]
      exact (hsame.indexOwner i).symm
  refine hsame'.eq_of_exact hempty.symm (fun i => (hsound' i).exact_of_empty hempty) fun i => ?_
  unfold Table.ExactAt
  rw [hcleared]
  exact exactIndex_empty

/-- `clear` is a loop over `remove` also after two people have shared an email address. -/
theorem collidingRun_clear_row_by_row :
    let base :=
      (stateAfter (Request.exec true) (requests collidingRun) Storage.new).tables People
    (TabularOpsMut.clear true base "owner").2 =
      (removeEach true "owner" (TabularOps.iterKeysCloned .arbitrary base) base).claimed
        "owner" := by
  intro base
  have haccepts : base.Accepts true "owner" :=
    fun _ howner _ => (Option.some.inj (show some "owner" = some _ from howner)).symm
  exact clear_row_by_row (sound_stateAfter collidingRun_maintained Storage.new_sound People)
    haccepts .arbitrary

end TsKvstore
