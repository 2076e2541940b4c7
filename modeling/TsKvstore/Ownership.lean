import TsKvstore.OperationSpecs

/-!
# Ownership of tables

The owner of a table is the owner token of the first `init`, `insert` or `clear`
on it. Before such a call the table is blank, so that the operations which skip
the ownership check of a table without owner find nothing to change. After it,
with debug assertions on, the calls of every other owner change nothing at all.
-/

namespace TsKvstore

open FiniteMaps Machines

variable {S : Schema} {G : Singletons} {ρ : Type} {t : S.Name}

/-! ## The owner after a call -/

section

variable {K V I : Type} [DecidableEq K] [IndexStorage K V I] {debug : Bool} {owner : Owner}

omit [DecidableEq K] [IndexStorage K V I] in
/-- `init` sets a missing owner. -/
theorem Table.trySetOwner_owner (table : Table K V I) :
    (table.trySetOwner owner).2.owner = table.owner.or (some owner) := by
  unfold Table.trySetOwner
  cases howner : table.owner with
  | none => rfl
  | some prevOwner =>
    dsimp only
    rw [howner]
    rfl

omit [DecidableEq K] [IndexStorage K V I] in
/-- A claim sets a missing owner. -/
theorem Table.claimed_owner (table : Table K V I) :
    (table.claimed owner).owner = table.owner.or (some owner) := by
  unfold Table.claimed
  cases table.owner <;> rfl

omit [DecidableEq K] [IndexStorage K V I] in
/-- A table that refuses a caller has an owner. -/
theorem Table.Refuses.owner_or {table : Table K V I} {prevOwner : Owner}
    (h : table.Refuses debug prevOwner owner) : table.owner.or (some owner) = table.owner := by
  rw [h.2.1]
  rfl

/-- `mutate` keeps the owner. -/
theorem TabularOpsMut.mutate_owner (table : Table K V I) (key : K) (f : MutFn V ρ) :
    (mutate debug table key f owner).2.owner = table.owner := by
  rcases table.accepts_or_refuses debug owner with h | ⟨prevOwner, h⟩
  · cases hrow : table.data.lookup key with
    | none => rw [mutate_of_none h f hrow]
    | some value =>
      cases hf : (f value).2 with
      | none => rw [mutate_of_unwind h hrow hf]
      | some result => rw [mutate_of_return h hrow hf]
  · rw [mutate_of_refuses h]

/-- `remove` keeps the owner. -/
theorem TabularOpsMut.remove_owner (table : Table K V I) (key : K) :
    (remove debug table key owner).2.owner = table.owner := by
  rcases table.accepts_or_refuses debug owner with h | ⟨prevOwner, h⟩
  · cases hrow : table.data.lookup key with
    | none => rw [remove_of_none h hrow]
    | some value => rw [remove_of_some h hrow]
  · rw [remove_of_refuses h]

/-- `for_each_mut` keeps the owner. -/
theorem TabularOpsMut.forEachMut_owner (table : Table K V I) (order rebuild : IterOrder K V)
    (f : EachMutFn K V ρ) (s : ρ) :
    (forEachMut debug order rebuild table f s owner).2.owner = table.owner := by
  rcases table.accepts_or_refuses debug owner with h | ⟨prevOwner, h⟩
  · rcases hloop : forEachLoop f (order.list table.data) s table.data with ⟨_ | s', data⟩
    · rw [forEachMut_of_unwind h hloop]
    · rw [forEachMut_of_return h hloop]
  · rw [forEachMut_of_refuses h]

/-- A call through a table handle sets a missing owner if it is an `init`, an
`insert` or a `clear`, and does nothing else to the owner. -/
theorem TabularOps.exec_owner (debug : Bool) (owner : Owner) (table : Table K V I)
    (c : Call K V K V ρ) :
    (TabularOps.exec debug owner table c).2.owner =
      if c.claims then table.owner.or (some owner) else table.owner := by
  cases c with
  | init => exact table.trySetOwner_owner
  | clear =>
    rcases table.accepts_or_refuses debug owner with h | ⟨prevOwner, h⟩
    · simp only [TabularOps.exec, TabularOpsMut.clear_of_accepts h]
      exact table.claimed_owner
    · rw [TabularOps.exec_of_refuses h]
      exact h.owner_or.symm
  | insert key value =>
    rcases table.accepts_or_refuses debug owner with h | ⟨prevOwner, h⟩
    · simp only [TabularOps.exec, TabularOpsMut.insert_of_accepts h]
      exact table.claimed_owner
    · rw [TabularOps.exec_of_refuses h]
      exact h.owner_or.symm
  | mutate key f => exact TabularOpsMut.mutate_owner table key f
  | remove key => exact TabularOpsMut.remove_owner table key
  | forEachMut order rebuild f s => exact TabularOpsMut.forEachMut_owner table order rebuild f s
  | _ => rfl

end

section

variable {debug : Bool} {owner : Owner} {base : BaseTable S t} {i : S.Field t}

/-- `mutate` through an index keeps the owner. -/
theorem IndexedOpsMut.mutate_owner (key : S.FieldTy t i) (f : MutFn (S.Value t) ρ) :
    (mutate debug i base key f owner).2.owner = base.owner := by
  cases hentry : (base.indexes.get i).data.lookup key with
  | none => rw [mutate_of_none f hentry]
  | some baseKey =>
    rw [mutate_of_some f hentry]
    exact TabularOpsMut.mutate_owner base baseKey f

/-- `remove` through an index keeps the owner. -/
theorem IndexedOpsMut.remove_owner (key : S.FieldTy t i) :
    (remove debug i base key owner).2.owner = base.owner := by
  rcases base.accepts_or_refuses debug owner with h | ⟨prevOwner, h⟩
  · cases hentry : (base.indexes.get i).data.lookup key with
    | none => rw [remove_of_none h hentry]
    | some baseKey =>
      cases hrow : base.data.lookup baseKey with
      | none => rw [remove_of_dangling h hentry hrow]
      | some value => rw [remove_of_found h hentry hrow]
  · rw [remove_of_refuses h]

/-- `for_each_mut` through an index keeps the owner. -/
theorem IndexedOpsMut.forEachMut_owner (order : IterOrder (S.FieldTy t i) (S.Key t))
    (rebuild : IterOrder (S.Key t) (S.Value t)) (f : EachMutFn (S.FieldTy t i) (S.Value t) ρ)
    (s : ρ) : (forEachMut debug i order rebuild base f s owner).2.owner = base.owner := by
  rcases base.accepts_or_refuses debug owner with h | ⟨prevOwner, h⟩
  · rcases hloop : forEachLoop f (order.list (base.indexes.get i).data) s base.data with
      ⟨_ | s', data⟩
    · rw [forEachMut_of_unwind h hloop]
    · rw [forEachMut_of_return h hloop]
  · rw [forEachMut_of_refuses h]

/-- A call through an index handle sets a missing owner if it is an `init`, an
`insert` or a `clear`, and does nothing else to the owner. -/
theorem IndexedOps.exec_owner (c : Call (S.FieldTy t i) (S.Key t) (S.Key t) (S.Value t) ρ) :
    (IndexedOps.exec debug i owner base c).2.owner =
      if c.claims then base.owner.or (some owner) else base.owner := by
  cases c with
  | init => exact base.trySetOwner_owner
  | clear =>
    have h := TabularOps.exec_owner (ρ := ρ) debug owner base .clear
    simp only [IndexedOps.exec, IndexedOpsMut.clear_eq]
    exact h
  | insert key value =>
    have h := TabularOps.exec_owner (ρ := ρ) debug owner base (.insert key value)
    simp only [IndexedOps.exec, IndexedOpsMut.insert_eq]
    exact h
  | mutate key f => exact IndexedOpsMut.mutate_owner key f
  | remove key => exact IndexedOpsMut.remove_owner key
  | forEachMut order rebuild f s => exact IndexedOpsMut.forEachMut_owner order rebuild f s
  | _ => rfl

end

/-- The calls that set a missing owner of table `t`. -/
def StoreCall.claims (t : S.Name) : StoreCall S G ρ → Bool
  | table t' c => decide (t' = t) && c.claims
  | tableBy t' _ c => decide (t' = t) && c.claims
  | _ => false

/-- A call that is not on a table does not claim it. -/
theorem StoreCall.claims_of_not_onTable {call : StoreCall S G ρ} (h : ¬ call.OnTable t) :
    call.claims t = false := by
  cases call with
  | table t' c =>
    have ht : ¬ t' = t := h
    simp [StoreCall.claims, ht]
  | tableBy t' i c =>
    have ht : ¬ t' = t := h
    simp [StoreCall.claims, ht]
  | indexTable t' i c => rfl
  | singleton m c => rfl

/-- A request sets a missing owner of a table if it claims it, and does nothing
else to the owner of the table. -/
theorem TableStep.owner_eq {debug : Bool} {base base' : BaseTable S t} {r : Request S G ρ}
    {result : Except Panic r.call.Ret} (hstep : TableStep debug t base r result base') :
    base'.owner = if r.call.claims t then base.owner.or (some r.owner) else base.owner := by
  cases hstep with
  | table owner c =>
    simp only [StoreCall.claims, decide_true, Bool.true_and]
    exact TabularOps.exec_owner debug owner base c
  | tableBy owner i c =>
    simp only [StoreCall.claims, decide_true, Bool.true_and]
    exact IndexedOps.exec_owner c
  | indexTable owner i c => rfl
  | other r hother result =>
    rw [StoreCall.claims_of_not_onTable hother]
    rfl

/-- A request sets a missing owner of the tables that it claims, and no other owner. -/
theorem Request.exec_owner (debug : Bool) (r : Request S G ρ) (s : Storage S G) (t : S.Name) :
    ((r.exec debug s).2.tables t).owner =
      if r.call.claims t then (s.tables t).owner.or (some r.owner) else (s.tables t).owner :=
  (r.tableStep debug s t).owner_eq

/-! ## Blank tables -/

/-- A table without rows whose indexes have no entries. -/
structure Table.Blank (base : BaseTable S t) : Prop where
  /-- There is no row. -/
  rows : base.data = ∅
  /-- There is no index entry. -/
  entries : ∀ i, (base.indexes.get i).data = ∅

section

variable {debug : Bool} {owner : Owner} {base : BaseTable S t} {i : S.Field t}

/-- A blank table has no rows. -/
theorem Table.Blank.lookup_row (h : base.Blank) (k : S.Key t) : base.data.lookup k = none := by
  rw [h.rows]
  rfl

/-- A blank table has no index entries. -/
theorem Table.Blank.lookup_entry (h : base.Blank) (q : S.FieldTy t i) :
    (base.indexes.get i).data.lookup q = none := by
  rw [h.entries i]
  rfl

/-- Rebuilding the indexes of a blank table changes nothing. -/
theorem Table.Blank.rebuild (h : base.Blank) (rebuild : IterOrder (S.Key t) (S.Value t)) :
    IndexStorage.build (IndexStorage.clear (S.Key t) (S.Value t) base.indexes)
      (rebuild.list base.data) = base.indexes := by
  ext1 j
  rw [Indexes.get_build, Indexes.get_clear, h.rows, IterOrder.list_empty]
  have hentries : rebuildIndex (S.field j) [] ∅ = (base.indexes.get j).data := (h.entries j).symm
  rw [hentries]

/-- Calls through a table handle that do not claim a blank table leave it as it
is. -/
theorem TabularOps.exec_of_blank (h : base.Blank)
    {c : Call (S.Key t) (S.Value t) (S.Key t) (S.Value t) ρ} (hc : c.claims = false) :
    (TabularOps.exec debug owner base c).2 = base := by
  rcases base.accepts_or_refuses debug owner with haccepts | ⟨prevOwner, hrefuses⟩
  · cases c with
    | init | clear | insert _ _ => cases hc
    | mutate key f =>
      exact congrArg Prod.snd (TabularOpsMut.mutate_of_none haccepts f (h.lookup_row key))
    | remove key =>
      exact congrArg Prod.snd (TabularOpsMut.remove_of_none haccepts (h.lookup_row key))
    | forEachMut order rebuild f s =>
      have hloop : TabularOpsMut.forEachLoop f (order.list base.data) s base.data =
          (some s, base.data) := by
        rw [h.rows, IterOrder.list_empty]
        rfl
      change (TabularOpsMut.forEachMut debug order rebuild base f s owner).2 = base
      rw [TabularOpsMut.forEachMut_of_return haccepts hloop, h.rebuild rebuild]
    | _ => rfl
  · exact TabularOps.exec_of_refuses hrefuses c

/-- Calls through an index handle that do not claim a blank table leave it as it
is. -/
theorem IndexedOps.exec_of_blank (h : base.Blank)
    {c : Call (S.FieldTy t i) (S.Key t) (S.Key t) (S.Value t) ρ} (hc : c.claims = false) :
    (IndexedOps.exec debug i owner base c).2 = base := by
  rcases base.accepts_or_refuses debug owner with haccepts | ⟨prevOwner, hrefuses⟩
  · cases c with
    | init | clear | insert _ _ => cases hc
    | mutate key f => exact congrArg Prod.snd (IndexedOpsMut.mutate_of_none f (h.lookup_entry key))
    | remove key =>
      exact congrArg Prod.snd (IndexedOpsMut.remove_of_none haccepts (h.lookup_entry key))
    | forEachMut order rebuild f s =>
      have hloop : IndexedOpsMut.forEachLoop f (order.list (base.indexes.get i).data) s base.data =
          (some s, base.data) := by
        rw [h.entries i, IterOrder.list_empty]
        rfl
      change (IndexedOpsMut.forEachMut debug i order rebuild base f s owner).2 = base
      rw [IndexedOpsMut.forEachMut_of_return haccepts hloop, h.rebuild rebuild]
    | _ => rfl
  · exact IndexedOps.exec_of_refuses hrefuses c

end

/-- A request that neither claims a blank table nor writes an index table
through its own handle leaves the table as it is. -/
theorem TableStep.of_blank {debug : Bool} {base base' : BaseTable S t} {r : Request S G ρ}
    {result : Except Panic r.call.Ret} (hstep : TableStep debug t base r result base')
    (h : base.Blank) (hclaims : r.call.claims t = false)
    (hdirect : ¬ r.call.WritesIndexTable) : base' = base := by
  cases hstep with
  | table owner c =>
    have hc : c.claims = false := by simpa [StoreCall.claims] using hclaims
    exact TabularOps.exec_of_blank h hc
  | tableBy owner i c =>
    have hc : c.claims = false := by simpa [StoreCall.claims] using hclaims
    exact IndexedOps.exec_of_blank h hc
  | indexTable owner i c =>
    have hread : c.isRead = true := by simpa [StoreCall.WritesIndexTable] using hdirect
    rw [TabularOps.set_exec_of_isRead hread]
  | other r hother result => rfl

/-- A request that does not claim a blank table leaves it as it is. -/
theorem Request.exec_of_blank {debug : Bool} {r : Request S G ρ} {s : Storage S G}
    (h : (s.tables t).Blank) (hclaims : r.call.claims t = false)
    (hdirect : ¬ r.call.WritesIndexTable) : (r.exec debug s).2.tables t = s.tables t :=
  (r.tableStep debug s t).of_blank h hclaims hdirect

/-! ## The first claim -/

/-- The owner token of the first request that claims a table. -/
def firstClaim (t : S.Name) (reqs : List (Request S G ρ)) : Option Owner :=
  (reqs.find? fun r => r.call.claims t).map Request.owner

/-- The first claim of a run in two parts. -/
theorem firstClaim_append (t : S.Name) (reqs reqs' : List (Request S G ρ)) :
    firstClaim t (reqs ++ reqs') = (firstClaim t reqs).or (firstClaim t reqs') := by
  unfold firstClaim
  rw [List.find?_append]
  cases reqs.find? fun r => r.call.claims t <;> rfl

/-- The owner of a table after a run is the owner of the first claim. -/
theorem owner_stateAfter (debug : Bool) (t : S.Name) (reqs : List (Request S G ρ)) :
    ((stateAfter (Request.exec debug) reqs Storage.new).tables t).owner = firstClaim t reqs := by
  induction reqs using List.reverseRecOn with
  | nil => rfl
  | append_singleton reqs r ih =>
    rw [stateAfter_concat, Request.exec_owner, ih, firstClaim_append]
    cases hclaims : r.call.claims t <;> simp [firstClaim, hclaims]

/-- A table without owner is blank after every run that does not write index
tables through their own handles. -/
theorem blank_stateAfter {debug : Bool} {t : S.Name} {reqs : List (Request S G ρ)}
    (hdirect : ∀ r ∈ reqs, ¬ r.call.WritesIndexTable) (hfirst : firstClaim t reqs = none) :
    ((stateAfter (Request.exec debug) reqs Storage.new).tables t).Blank := by
  induction reqs using List.reverseRecOn with
  | nil => exact ⟨rfl, fun _ => rfl⟩
  | append_singleton reqs r ih =>
    rw [firstClaim_append, Option.or_eq_none_iff] at hfirst
    have hclaims : r.call.claims t = false := by simpa [firstClaim] using hfirst.2
    have hblank := ih (fun r' hr' => hdirect r' (List.mem_append_left _ hr')) hfirst.1
    rw [stateAfter_concat,
      Request.exec_of_blank hblank hclaims (hdirect r (List.mem_append_right _ List.mem_cons_self))]
    exact hblank

/-- The outcome of `init` on a table with the given first claim. -/
def initOutcome (t : S.Name) (first : Option Owner) (owner : Owner) (s : Storage S G) :
    Except Panic (Except Error Unit) × Storage S G :=
  match first with
  | none => (.ok (.ok ()), s.setTable t { s.tables t with owner := some owner })
  | some p => (.ok (.error (.alreadyInit p)), s)

/-- `init` through a table handle and through an index handle. -/
theorem exec_init (debug : Bool) (owner : Owner) (s : Storage S G) (t : S.Name) :
    StoreCall.exec debug owner s (.table t .init : StoreCall S G ρ) =
        initOutcome t (s.tables t).owner owner s ∧
      ∀ i, StoreCall.exec debug owner s (.tableBy t i .init : StoreCall S G ρ) =
        initOutcome t (s.tables t).owner owner s := by
  have hinit : ((.ok (TabularOpsMut.init (s.tables t) owner).1,
      s.setTable t (TabularOpsMut.init (s.tables t) owner).2) :
        Except Panic (Except Error Unit) × Storage S G) =
      initOutcome t (s.tables t).owner owner s := by
    unfold TabularOpsMut.init Table.trySetOwner initOutcome
    cases howner : (s.tables t).owner with
    | none => rfl
    | some p =>
      dsimp only
      rw [Storage.setTable_self]
  exact ⟨hinit, fun _ => hinit⟩

/-- **The first claim owns the table.** After every prefix of a run from the
empty store the owner of a table is the owner of the first `init`, `insert` or
`clear` on it, and stays so. `init` succeeds before the first claim and reports
its owner afterwards. A table without owner is blank, and no other call changes
it. -/
theorem owner_of_first_claim (debug : Bool) (commands : List (Command S G ρ))
    (hdirect : ∀ r ∈ requests commands, ¬ r.call.WritesIndexTable) (t : S.Name)
    (pre : List (Request S G ρ)) (hpre : pre <+: requests commands) :
    let s := stateAfter (Request.exec debug) pre Storage.new
    (s.tables t).owner = firstClaim t pre ∧
    (∀ p, (s.tables t).owner = some p → ∀ post, pre ++ post <+: requests commands →
      ((stateAfter (Request.exec debug) (pre ++ post) Storage.new).tables t).owner = some p) ∧
    (∀ owner,
      StoreCall.exec debug owner s (.table t .init : StoreCall S G ρ) =
          initOutcome t (firstClaim t pre) owner s ∧
        ∀ i, StoreCall.exec debug owner s (.tableBy t i .init : StoreCall S G ρ) =
          initOutcome t (firstClaim t pre) owner s) ∧
    ((s.tables t).owner = none → (s.tables t).Blank ∧
      ∀ r : Request S G ρ, r.call.claims t = false → ¬ r.call.WritesIndexTable →
        (r.exec debug s).2.tables t = s.tables t) := by
  intro s
  have howner : (s.tables t).owner = firstClaim t pre := owner_stateAfter debug t pre
  refine ⟨howner, ?_, ?_, ?_⟩
  · intro p hp post _
    rw [owner_stateAfter, firstClaim_append, ← howner, hp]
    rfl
  · intro owner
    rw [← howner]
    exact exec_init debug owner s t
  · intro hnone
    have hblank : (s.tables t).Blank :=
      blank_stateAfter (fun r hr => hdirect r (hpre.subset hr)) (howner.symm.trans hnone)
    exact ⟨hblank, fun r hclaims hindex => r.exec_of_blank hblank hclaims hindex⟩

/-- A table is created through one of its indexes, and a second owner comes
late. -/
def twoOwners : List (Command people noSingletons Unit) :=
  [.raw ⟨"first", .tableBy People People.email .init⟩,
   .raw ⟨"first", .table People (.insert (1 : UInt32) (People.person "a@example.com" [97]))⟩,
   .raw ⟨"second", .table People .init⟩,
   .raw ⟨"second", .tableBy People People.username .clear⟩]

/-- The run writes no index table through its own handle. -/
theorem twoOwners_direct : ∀ r ∈ requests twoOwners, ¬ r.call.WritesIndexTable := by
  simp [requests, twoOwners, Command.requests, StoreCall.WritesIndexTable]

/-- The first caller who claims the people owns them. -/
theorem twoOwners_first_claim :
    let s := stateAfter (Request.exec true) (requests twoOwners) Storage.new
    (s.tables People).owner = firstClaim People (requests twoOwners) ∧
    (∀ p, (s.tables People).owner = some p → ∀ post,
      requests twoOwners ++ post <+: requests twoOwners →
      ((stateAfter (Request.exec true) (requests twoOwners ++ post) Storage.new).tables
        People).owner = some p) ∧
    (∀ owner,
      StoreCall.exec true owner s (.table People .init : StoreCall people noSingletons Unit) =
          initOutcome People (firstClaim People (requests twoOwners)) owner s ∧
        ∀ i, StoreCall.exec true owner s
            (.tableBy People i .init : StoreCall people noSingletons Unit) =
          initOutcome People (firstClaim People (requests twoOwners)) owner s) ∧
    ((s.tables People).owner = none → (s.tables People).Blank ∧
      ∀ r : Request people noSingletons Unit, r.call.claims People = false →
        ¬ r.call.WritesIndexTable → (r.exec true s).2.tables People = s.tables People) :=
  owner_of_first_claim true twoOwners twoOwners_direct People _ (List.prefix_refl _)

/-! ## Noninterference -/

/-- A request on a table whose owner it fails to match changes nothing. -/
theorem Request.exec_of_refuses {debug : Bool} {r : Request S G ρ} {s : Storage S G}
    {prevOwner : Owner} (ht : r.call.OnTable t)
    (h : (s.tables t).Refuses debug prevOwner r.owner) : (r.exec debug s).2 = s := by
  obtain ⟨owner, call⟩ := r
  simp only [Request.exec]
  cases call with
  | table t' c =>
    obtain rfl : t' = t := ht
    simp only [StoreCall.exec]
    rw [TabularOps.exec_of_refuses h, Storage.setTable_self]
  | tableBy t' i c =>
    obtain rfl : t' = t := ht
    simp only [StoreCall.exec]
    rw [IndexedOps.exec_of_refuses h, Storage.setTable_self]
  | indexTable _ _ _ => exact ht.elim
  | singleton _ _ => exact ht.elim

/-- A table keeps its owner. -/
theorem Request.exec_owner_of_some {debug : Bool} {r : Request S G ρ} {s : Storage S G}
    {p : Owner} (h : (s.tables t).owner = some p) :
    ((r.exec debug s).2.tables t).owner = some p := by
  rw [Request.exec_owner, h]
  cases r.call.claims t <;> rfl

/-- A caller whom a table accepts is accepted after each of its calls. -/
theorem StoreCall.accepts_exec {debug : Bool} {owner : Owner} {s : Storage S G}
    (haccepts : (s.tables t).Accepts debug owner) (call : StoreCall S G ρ) :
    ((call.exec debug owner s).2.tables t).Accepts debug owner := by
  intro prevOwner howner hdebug
  have hafter := (Request.exec_owner debug ⟨owner, call⟩ s t).symm.trans howner
  cases hbefore : (s.tables t).owner with
  | none =>
    rw [hbefore] at hafter
    by_cases hclaims : call.claims t = true
    · rw [if_pos hclaims] at hafter
      exact (Option.some.inj hafter).symm
    · rw [if_neg hclaims] at hafter
      cases hafter
  | some p =>
    have hkept : ((Request.exec debug ⟨owner, call⟩ s).2.tables t).owner = some p :=
      Request.exec_owner_of_some hbefore
    obtain rfl : p = prevOwner := Option.some.inj (hkept.symm.trans howner)
    exact haccepts p hbefore hdebug

/-- **Noninterference.** With debug assertions on, deleting the calls that other
owners make on a table owned by `p` changes neither the final storage nor the
result of any operation of `p`. -/
theorem foreign_calls_deletable (s : Storage S G) (t : S.Name) (p : Owner)
    (howner : (s.tables t).owner = some p) (reqs : List (Request S G ρ))
    (hforeign : ∀ r ∈ reqs, r.owner ≠ p → r.call.OnTable t) :
    let kept := reqs.filter fun r => r.owner = p
    stateAfter (Request.exec true) reqs s = stateAfter (Request.exec true) kept s ∧
      (results (Request.exec true) reqs s).filter (fun result => result.1.owner = p) =
        results (Request.exec true) kept s := by
  refine stateAfter_filter (P := fun s : Storage S G => (s.tables t).owner = some p) howner
    (fun r _ s h => r.exec_owner_of_some h) fun r hr hskip s h => ?_
  have hne : r.owner ≠ p := of_decide_eq_false hskip
  exact r.exec_of_refuses (hforeign r hr hne) ⟨rfl, h, fun heq => hne heq.symm⟩

/-- The storage after the owner of a table has inserted a row. -/
def ownedPeople : Storage people noSingletons :=
  ((⟨"p", .table People (.insert (1 : UInt32) (People.person "a@example.com" [97]))⟩ :
    Request people noSingletons Unit).exec true Storage.new).2

/-- A foreign owner clears the table between two operations of its owner. -/
def intrusion : List (Request people noSingletons Unit) :=
  [⟨"p", .table People (.insert (2 : UInt32) (People.person "b@example.com" [98]))⟩,
   ⟨"q", .tableBy People People.email .clear⟩,
   ⟨"p", .table People .len⟩]

/-- The requests of others are on the people. -/
theorem intrusion_foreign : ∀ r ∈ intrusion, r.owner ≠ "p" → r.call.OnTable People := by
  simp [intrusion, StoreCall.OnTable]

/-- Without the requests of others the storage and the results of `p` are the same. -/
theorem intrusion_deletable :
    let kept := intrusion.filter fun r => r.owner = "p"
    stateAfter (Request.exec true) intrusion ownedPeople =
        stateAfter (Request.exec true) kept ownedPeople ∧
      (results (Request.exec true) intrusion ownedPeople).filter
          (fun result => result.1.owner = "p") =
        results (Request.exec true) kept ownedPeople :=
  foreign_calls_deletable ownedPeople People "p" rfl intrusion intrusion_foreign

end TsKvstore
