import TsKvstore.Interleavings

/-!
# Clients that compete for a table

The clients of a store elect the owner of a table: each may call `init`, or insert or
clear, and the first one becomes the owner. What a client learns of the owner depends on
the call. `init` tells who has won, a failed assertion of a debug build tells whom the
caller is not, and an insertion that a debug build accepts tells the caller that it is the
owner itself. Under every interleaving all clients learn the same owner. In a debug build
the owner then has the table for itself.
-/

namespace TsKvstore

open Machines RwLocks

variable {S : Schema} {G : Singletons} {ρ : Type} {t : S.Name} {debug : Bool} {owner p : Owner}

/-! ## What a result tells about the owner -/

/-- The result of a call by `owner` tells that the owner of the table is `p`. -/
inductive Call.NamesOwner {Q W K V ρ : Type} [DecidableEq Q] [DecidableEq K] (debug : Bool)
    (owner : Owner) : (c : Call Q W K V ρ) → Except Panic c.Ret → Owner → Prop
  /-- `init` has made the caller the owner. -/
  | initialized : NamesOwner debug owner .init (.ok (Except.ok () : Except Error Unit)) owner
  /-- `init` has found an owner. -/
  | alreadyInit (p : Owner) :
    NamesOwner debug owner .init (.ok (Except.error (.alreadyInit p) : Except Error Unit)) p
  /-- A debug build has compared the caller with the owner. -/
  | cleared (hdebug : debug = true) : NamesOwner debug owner .clear (.ok ()) owner
  | inserted (hdebug : debug = true) (key : K) (value : V) (prev : Option V) :
    NamesOwner debug owner (.insert key value) (.ok prev) owner
  /-- The caller is not the owner. -/
  | violation (c : Call Q W K V ρ) (p : Owner) :
    NamesOwner debug owner c (.error (ownershipViolation p owner)) p

/-- The outcome of a request tells that the owner of table `t` is `p`. -/
inductive NamesOwner (debug : Bool) (t : S.Name) (p : Owner) :
    (Σ r : Request S G ρ, Except Panic r.call.Ret) → Prop
  | table (owner : Owner) (c : Call (S.Key t) (S.Value t) (S.Key t) (S.Value t) ρ)
    (result : Except Panic c.Ret) (h : c.NamesOwner debug owner result p) :
    NamesOwner debug t p ⟨⟨owner, .table t c⟩, result⟩
  | tableBy (owner : Owner) (i : S.Field t)
    (c : Call (S.FieldTy t i) (S.Key t) (S.Key t) (S.Value t) ρ) (result : Except Panic c.Ret)
    (h : c.NamesOwner debug owner result p) :
    NamesOwner debug t p ⟨⟨owner, .tableBy t i c⟩, result⟩

/-- The request is an `init` of table `t` that has succeeded. -/
inductive Initializes (t : S.Name) : (Σ r : Request S G ρ, Except Panic r.call.Ret) → Prop
  | table (owner : Owner) :
    Initializes t ⟨⟨owner, .table t .init⟩, .ok (Except.ok () : Except Error Unit)⟩
  | tableBy (owner : Owner) (i : S.Field t) :
    Initializes t ⟨⟨owner, .tableBy t i .init⟩, .ok (Except.ok () : Except Error Unit)⟩

/-- The message of a violation tells the owner. -/
theorem ownershipViolation_inj {p q owner : Owner}
    (h : ownershipViolation p owner = ownershipViolation q owner) : p = q := by
  unfold ownershipViolation ownershipMessage at h
  have hmessage := (Panic.assertion.injEq _ _).mp h
  simp only [String.append_left_inj, String.append_right_inj] at hmessage
  exact hmessage

/-! ## A call tells the owner it leaves -/

section

variable {K V I : Type} [DecidableEq K] {table : Table K V I}

omit [DecidableEq K] in
/-- `init` succeeds on a table without an owner only. -/
theorem Table.trySetOwner_ok (h : (table.trySetOwner owner).1 = .ok ()) : table.owner = none := by
  unfold Table.trySetOwner at h
  cases howner : table.owner with
  | none => rfl
  | some p =>
    rw [howner] at h
    cases h

omit [DecidableEq K] in
/-- A failing `init` tells the owner. -/
theorem Table.trySetOwner_error (h : (table.trySetOwner owner).1 = .error (.alreadyInit p)) :
    table.owner = some p := by
  unfold Table.trySetOwner at h
  cases howner : table.owner with
  | none =>
    rw [howner] at h
    cases h
  | some p' =>
    rw [howner] at h
    cases h
    rfl

omit [DecidableEq K] in
/-- An accepted claim of a debug build leaves the caller as the owner. -/
theorem Table.Accepts.owner_or (h : table.Accepts true owner) :
    table.owner.or (some owner) = some owner := by
  cases howner : table.owner with
  | none => rfl
  | some p => exact congrArg some (h p howner rfl)

variable [IndexStorage K V I]

/-- A failed assertion names the owner. -/
theorem TabularOps.owner_of_violation {c : Call K V K V ρ}
    (h : (TabularOps.exec debug owner table c).1 = .error (ownershipViolation p owner)) :
    table.owner = some p := by
  rcases table.accepts_or_refuses debug owner with haccepts | ⟨p', hrefuses⟩
  · rcases TabularOps.result_of_accepts haccepts c with ⟨r, hr⟩ | ⟨hr, _⟩
    · cases hr.symm.trans h
    · cases hr.symm.trans h
  · cases hc : c.needsOwner with
    | true =>
      have hviolation := (TabularOps.result_of_refuses hrefuses c).1 hc
      rw [ownershipViolation_inj (Except.error.inj (h.symm.trans hviolation))]
      exact hrefuses.2.1
    | false =>
      obtain ⟨r, hr⟩ := (TabularOps.result_of_refuses hrefuses c).2 hc
      cases hr.symm.trans h

/-- A debug build accepts an insertion, and a `clear`, of the owner only. -/
theorem TabularOps.accepts_of_ok {c : Call K V K V ρ} (hc : c.needsOwner = true) {r : c.Ret}
    (h : (TabularOps.exec true owner table c).1 = .ok r) : table.Accepts true owner := by
  rcases table.accepts_or_refuses true owner with haccepts | ⟨p', hrefuses⟩
  · exact haccepts
  · cases ((TabularOps.result_of_refuses hrefuses c).1 hc).symm.trans h

/-- A call through a table handle tells the owner that the table has afterwards. -/
theorem TabularOps.owner_of_namesOwner {c : Call K V K V ρ}
    (h : c.NamesOwner debug owner (TabularOps.exec debug owner table c).1 p) :
    (TabularOps.exec debug owner table c).2.owner = some p := by
  rw [TabularOps.exec_owner]
  generalize hresult : (TabularOps.exec debug owner table c).1 = result at h
  cases h with
  | initialized =>
    rw [Table.trySetOwner_ok (Except.ok.inj hresult)]
    rfl
  | alreadyInit p =>
    rw [Table.trySetOwner_error (Except.ok.inj hresult)]
    rfl
  | cleared hdebug =>
    subst hdebug
    exact (TabularOps.accepts_of_ok rfl hresult).owner_or
  | inserted hdebug key value prev =>
    subst hdebug
    exact (TabularOps.accepts_of_ok rfl hresult).owner_or
  | violation c p =>
    rw [TabularOps.owner_of_violation hresult]
    cases c.claims <;> rfl

end

section

variable {i : S.Field t} {base : BaseTable S t}

/-- A violation through an index handle tells the owner. -/
theorem IndexedOps.owner_of_violation
    {c : Call (S.FieldTy t i) (S.Key t) (S.Key t) (S.Value t) ρ}
    (h : (IndexedOps.exec debug i owner base c).1 = .error (ownershipViolation p owner)) :
    base.owner = some p := by
  have hfound : ¬ c.MutatesAbsent fun q => (base.indexes.get i).data.lookup q := by
    intro habsent
    obtain ⟨r, hr⟩ := IndexedOps.result_of_mutatesAbsent debug owner habsent
    cases hr.symm.trans h
  rcases base.accepts_or_refuses debug owner with haccepts | ⟨p', hrefuses⟩
  · rcases IndexedOps.result_of_accepts haccepts c with ⟨r, hr⟩ | ⟨hr, _⟩
    · cases hr.symm.trans h
    · cases hr.symm.trans h
  · cases hc : c.needsOwner with
    | true =>
      have hviolation := (IndexedOps.result_of_refuses hrefuses hfound).1 hc
      rw [ownershipViolation_inj (Except.error.inj (h.symm.trans hviolation))]
      exact hrefuses.2.1
    | false =>
      obtain ⟨r, hr⟩ := (IndexedOps.result_of_refuses hrefuses hfound).2 hc
      cases hr.symm.trans h

/-- A call through an index handle tells the owner that the table has afterwards. -/
theorem IndexedOps.owner_of_namesOwner
    {c : Call (S.FieldTy t i) (S.Key t) (S.Key t) (S.Value t) ρ}
    (h : c.NamesOwner debug owner (IndexedOps.exec debug i owner base c).1 p) :
    (IndexedOps.exec debug i owner base c).2.owner = some p := by
  rw [IndexedOps.exec_owner]
  generalize hresult : (IndexedOps.exec debug i owner base c).1 = result at h
  cases h with
  | initialized =>
    rw [Table.trySetOwner_ok (Except.ok.inj hresult)]
    rfl
  | alreadyInit p =>
    rw [Table.trySetOwner_error (Except.ok.inj hresult)]
    rfl
  | cleared hdebug =>
    subst hdebug
    have hclear : (TabularOps.exec (ρ := ρ) true owner base .clear).1 = .ok () :=
      (congrArg Prod.fst IndexedOpsMut.clear_eq).symm.trans hresult
    exact (TabularOps.accepts_of_ok rfl hclear).owner_or
  | inserted hdebug key value prev =>
    subst hdebug
    have hinsert : (TabularOps.exec (ρ := ρ) true owner base (.insert key value)).1 = .ok prev :=
      (congrArg Prod.fst (IndexedOpsMut.insert_eq key value)).symm.trans hresult
    exact (TabularOps.accepts_of_ok rfl hinsert).owner_or
  | violation c p =>
    rw [IndexedOps.owner_of_violation hresult]
    cases c.claims <;> rfl

end

/-- What a request tells of the owner is right. -/
theorem Request.owner_of_namesOwner {r : Request S G ρ} {s : Storage S G}
    (h : NamesOwner debug t p ⟨r, (r.exec debug s).1⟩) :
    ((r.exec debug s).2.tables t).owner = some p := by
  obtain ⟨owner, call⟩ := r
  generalize hresult : (Request.exec debug ⟨owner, call⟩ s).1 = result at h
  cases h with
  | table owner c result h =>
    subst hresult
    have howner := TabularOps.owner_of_namesOwner h
    simp only [Request.exec, StoreCall.exec, Storage.setTable_tables_self]
    exact howner
  | tableBy owner i c result h =>
    subst hresult
    have howner := IndexedOps.owner_of_namesOwner h
    simp only [Request.exec, StoreCall.exec, Storage.setTable_tables_self]
    exact howner

/-- An `init` succeeds on a table without owner only. -/
theorem Request.owner_of_initializes {r : Request S G ρ} {s : Storage S G}
    (h : Initializes t ⟨r, (r.exec debug s).1⟩) : (s.tables t).owner = none := by
  obtain ⟨owner, call⟩ := r
  generalize hresult : (Request.exec debug ⟨owner, call⟩ s).1 = result at h
  cases h with
  | table owner => exact Table.trySetOwner_ok (Except.ok.inj hresult)
  | tableBy owner i => exact Table.trySetOwner_ok (Except.ok.inj hresult)

/-! ## The election -/

section

variable {s s' : Storage S G} {steps : List (Σ r : Request S G ρ, Except Panic r.call.Ret)}

/-- The owner that a table has or gets from a list of requests. -/
theorem owner_of_leads (h : Leads debug s steps s') (t : S.Name) :
    (s'.tables t).owner = (s.tables t).owner.or (firstClaim t (steps.map Sigma.fst)) := by
  induction steps generalizing s with
  | nil =>
    obtain rfl : s = s' := h.2
    exact Option.or_none.symm
  | cons step steps ih =>
    obtain ⟨r, result⟩ := step
    rw [ih (leads_cons.mp h).2, Request.exec_owner, List.map_cons, ← List.singleton_append,
      firstClaim_append]
    cases hclaims : r.call.claims t <;> simp [firstClaim, hclaims]

/-- All requests tell of the owner that is elected. -/
theorem owner_of_mem_leads (h : Leads debug s steps s')
    {step : Σ r : Request S G ρ, Except Panic r.call.Ret} (hstep : step ∈ steps)
    (hnames : NamesOwner debug t p step) : (s'.tables t).owner = some p := by
  induction steps generalizing s with
  | nil => exact absurd hstep List.not_mem_nil
  | cons first steps ih =>
    obtain ⟨r, result⟩ := first
    obtain ⟨rfl, hrest⟩ := leads_cons.mp h
    rcases List.mem_cons.mp hstep with rfl | hstep
    · rw [owner_of_leads hrest, Request.owner_of_namesOwner hnames]
      rfl
    · exact ih hrest hstep

/-- No `init` of a table that has an owner succeeds. -/
theorem not_initializes_of_owner (h : Leads debug s steps s')
    (howner : (s.tables t).owner = some p) :
    ∀ step ∈ steps, ¬ Initializes t step := by
  induction steps generalizing s with
  | nil => exact fun step hstep => absurd hstep List.not_mem_nil
  | cons first steps ih =>
    obtain ⟨r, result⟩ := first
    obtain ⟨rfl, hrest⟩ := leads_cons.mp h
    intro step hstep hinit
    rcases List.mem_cons.mp hstep with rfl | hstep
    · cases howner.symm.trans (Request.owner_of_initializes hinit)
    · exact ih hrest (r.exec_owner_of_some howner) step hstep hinit

/-- Once the owner is known, no `init` succeeds any more. -/
theorem pairwise_not_initializes (h : Leads debug s steps s') (t : S.Name) :
    steps.Pairwise fun step later => (∃ p, NamesOwner debug t p step) → ¬ Initializes t later := by
  induction steps generalizing s with
  | nil => exact List.Pairwise.nil
  | cons first steps ih =>
    obtain ⟨r, result⟩ := first
    obtain ⟨rfl, hrest⟩ := leads_cons.mp h
    refine List.pairwise_cons.mpr ⟨?_, ih hrest⟩
    rintro later hlater ⟨p, hnames⟩
    exact not_initializes_of_owner hrest (Request.owner_of_namesOwner hnames) later hlater

end

section

variable {ι : Type} [DecidableEq ι] {clients : ι → Client S G ρ} {s : LockedStorage S G}
  {refuse : Config (storeActions S G ρ debug) ι (Option ℕ) → ι → Bool}
  {events : List (ι × Event (storeActions S G ρ debug) (Option ℕ))}
  {c : Config (storeActions S G ρ debug) ι (Option ℕ)}

/-- **The clients agree on the owner.** Under every interleaving a table ends with the
owner that it had, or that the first claim has given it. This is the owner that every
client learns from its results, and after the first of these results no `init` succeeds. -/
theorem clients_agree_on_owner (hrun : Run refuse (startClients debug clients s) events c)
    (t : S.Name) :
    let steps := requestsOf events
    let elected := (s.storage.tables t).owner.or (firstClaim t (steps.map Sigma.fst))
    (c.state.storage.tables t).owner = elected ∧
      (∀ step ∈ steps, ∀ p, NamesOwner debug t p step → elected = some p) ∧
      steps.Pairwise fun step later =>
        (∃ p, NamesOwner debug t p step) → ¬ Initializes t later := by
  intro steps elected
  have hrequests : Leads debug s.storage steps c.state.storage := leads_requestsOf hrun
  have howner : (c.state.storage.tables t).owner = elected := owner_of_leads hrequests t
  refine ⟨howner, fun step hstep p hnames => ?_, pairwise_not_initializes hrequests t⟩
  exact howner.symm.trans (owner_of_mem_leads hrequests hstep hnames)

end

/-- Two clients that want to own the people. -/
def initPeople (i : Bool) : Client people noSingletons Unit :=
  .raw false ⟨if i then "second" else "first", .table People .init⟩ fun _ => .done

/-- The second client asks first and is served first. -/
def electionRun :=
  runSchedule (fun _ _ => false)
    [true, false, true, true, true, true, false, false, false, false]
    (startClients true initPeople ⟨false, Storage.new⟩)

/-- Both clients learn the owner of the people. -/
theorem electionRun_agree :
    let steps := requestsOf electionRun.1
    let elected := ((Storage.new : Storage people noSingletons).tables People).owner.or
      (firstClaim People (steps.map Sigma.fst))
    (electionRun.2.state.storage.tables People).owner = elected ∧
      (∀ step ∈ steps, ∀ p, NamesOwner true People p step → elected = some p) ∧
      steps.Pairwise fun step later =>
        (∃ p, NamesOwner true People p step) → ¬ Initializes People later := by
  have hrun : Run (fun _ _ => false) (startClients true initPeople ⟨false, Storage.new⟩)
      electionRun.1 electionRun.2 := run_runSchedule _ _ _
  exact clients_agree_on_owner hrun People

/-! ## The table of an owner -/

/-- A request of `p` on table `t`, through any handle of the table and of its indexes. -/
def Request.isBy (p : Owner) (t : S.Name) (r : Request S G ρ) : Bool :=
  match r.call with
  | .table t' _ | .tableBy t' _ _ | .indexTable t' _ _ => decide (r.owner = p ∧ t' = t)
  | .singleton _ _ => false

/-- The requests of an owner on a table. -/
theorem Request.isBy_iff {r : Request S G ρ} :
    r.isBy p t = true ↔ r.owner = p ∧ r.call.datum = .table t := by
  obtain ⟨owner, call⟩ := r
  cases call with
  | singleton m c => exact iff_of_false nofun nofun
  | table _ _ | tableBy _ _ _ | indexTable _ _ _ =>
    simp [Request.isBy, StoreCall.datum]

/-- In a debug build the requests of others leave the table of an owner as it is. -/
theorem Request.agreeOn_of_not_isBy {r : Request S G ρ} {s : Storage S G}
    (howner : (s.tables t).owner = some p) (hr : r.isBy p t = false)
    (hdirect : r.owner ≠ p → r.call.datum = .table t → ¬ r.call.WritesIndexTable) :
    (r.exec true s).2.AgreeOn s (.table t) := by
  by_cases hdatum : r.call.datum = .table t
  · have hne : r.owner ≠ p := by
      intro heq
      have hmine : r.isBy p t = true := Request.isBy_iff.mpr ⟨heq, hdatum⟩
      rw [hr] at hmine
      cases hmine
    have hrefuses : (s.tables t).Refuses true p r.owner := ⟨rfl, howner, hne.symm⟩
    have hread := hdirect hne hdatum
    have htable : r.call.OnTable t → (r.exec true s).2 = s :=
      fun ht => r.exec_of_refuses ht hrefuses
    have hsame : (r.exec true s).2 = s := by
      obtain ⟨owner, call⟩ := r
      cases call with
      | table t' c => exact htable (Datum.table.inj hdatum)
      | tableBy t' i c => exact htable (Datum.table.inj hdatum)
      | indexTable t' i c =>
        have hc : (StoreCall.indexTable t' i c : StoreCall S G ρ).isRead = true := by
          simpa [StoreCall.WritesIndexTable, StoreCall.isRead] using hread
        exact StoreCall.exec_of_isRead hc
      | singleton m c => cases hdatum
    rw [hsame]
    exact .refl s _
  · exact r.exec_agreeOn_of_ne s hdatum

section

variable {ι : Type} [DecidableEq ι] {clients : ι → Client S G ρ} {s : LockedStorage S G}
  {refuse : Config (storeActions S G ρ true) ι (Option ℕ) → ι → Bool}
  {events : List (ι × Event (storeActions S G ρ true) (Option ℕ))}
  {c : Config (storeActions S G ρ true) ι (Option ℕ)}

/-- **Owned tables are private.** In a debug build, under every interleaving, the executed
requests of the owner of a table, on their own and from any storage with the same table,
have the same results and leave the same table, whatever the other owners try. These must
only keep from writing to the index tables, which have owners of their own. If one of them
panics outside a transaction it poisons the lock, and nothing is executed any more. -/
theorem owned_tables_are_private (hrun : Run refuse (startClients true clients s) events c)
    (howner : (s.storage.tables t).owner = some p)
    (hdirect : ∀ step ∈ requestsOf events, step.1.owner ≠ p → step.1.call.datum = .table t →
      ¬ step.1.call.WritesIndexTable)
    {s' : Storage S G} (htable : s.storage.tables t = s'.tables t) :
    ∃ s'', Leads true s' ((requestsOf events).filter fun step => step.1.isBy p t) s'' ∧
      c.state.storage.tables t = s''.tables t := by
  have hrequests : Leads true s.storage (requestsOf events) c.state.storage :=
    leads_requestsOf hrun
  have hkeep : ∀ r ∈ (requestsOf events).map Sigma.fst, r.isBy p t = true →
      ∀ s s' : Storage S G, s.AgreeOn s' (.table t) ∧ (s.tables t).owner = some p →
        (r.exec true s).1 = (r.exec true s').1 ∧
          (r.exec true s).2.AgreeOn (r.exec true s').2 (.table t) ∧
            ((r.exec true s).2.tables t).owner = some p := by
    intro r _ hr s s' ⟨hagree, howner⟩
    have hdatum := (Request.isBy_iff.mp hr).2
    have hcongr : (r.exec true s).1 = (r.exec true s').1 ∧
        (r.exec true s).2.AgreeOn (r.exec true s').2 r.call.datum :=
      r.exec_congr (hdatum ▸ hagree)
    rw [hdatum] at hcongr
    exact ⟨hcongr.1, hcongr.2, r.exec_owner_of_some howner⟩
  have hskip : ∀ r ∈ (requestsOf events).map Sigma.fst, r.isBy p t = false →
      ∀ s s' : Storage S G, s.AgreeOn s' (.table t) ∧ (s.tables t).owner = some p →
        (r.exec true s).2.AgreeOn s' (.table t) ∧
          ((r.exec true s).2.tables t).owner = some p := by
    intro r hmem hr s s' ⟨hagree, howner⟩
    obtain ⟨step, hstep, rfl⟩ := List.mem_map.mp hmem
    have hsame := Request.agreeOn_of_not_isBy howner hr (hdirect step hstep)
    exact ⟨hsame.trans hagree, step.1.exec_owner_of_some howner⟩
  obtain ⟨⟨hlast, _⟩, hresults⟩ := stateAfter_projection
    (R := fun s s' : Storage S G => s.AgreeOn s' (.table t) ∧ (s.tables t).owner = some p)
    ((requestsOf events).map Sigma.fst) ⟨htable, howner⟩ hkeep hskip
  rw [hrequests.2] at hlast
  rw [hrequests.1] at hresults
  rw [List.filter_map] at hlast hresults
  exact ⟨_, ⟨hresults.symm, rfl⟩, hlast⟩

end

/-- The owner of the people inserts one and looks a person up. The other client tries to
clear the people in a transaction, catches the panic and ends the transaction. -/
def insertAndIntrude (i : Bool) : Client people noSingletons Unit :=
  if i then
    .beginTransaction 0 "q" fun _ =>
      .call 0 (.tableBy People People.email .clear) fun _ => .endTransaction 0 false .done
  else
    .raw false ⟨"p", .table People (.insert (2 : UInt32) (People.person "b@example.com" [98]))⟩
      fun _ => .raw false ⟨"p", .table People (.get (1 : UInt32))⟩ fun _ => .done

/-- The intrusion fails between the two calls of the owner. -/
def intrusionRun :=
  runSchedule (fun _ _ => false)
    [false, true, false, false, false, false, false, true, true, true, true, false, false, false,
      false]
    (startClients true insertAndIntrude ⟨false, ownedPeople⟩)

/-- The owner finds the person after the intrusion. -/
theorem intrusionRun_private :
    (requestsOf intrusionRun.1).map (fun step => step.1.owner) = ["p", "q", "p"] ∧
      ∃ s, Leads true ownedPeople
          ((requestsOf intrusionRun.1).filter fun step => step.1.isBy "p" People) s ∧
        intrusionRun.2.state.storage.tables People = s.tables People := by
  have hrun : Run (fun _ _ => false) (startClients true insertAndIntrude ⟨false, ownedPeople⟩)
      intrusionRun.1 intrusionRun.2 := run_runSchedule _ _ _
  have hexecuted : (requestsOf intrusionRun.1).map (fun step => step.1.owner) =
      ["p", "q", "p"] := rfl
  refine ⟨hexecuted, owned_tables_are_private hrun rfl (fun step hstep _ _ => ?_) rfl⟩
  rcases List.mem_cons.mp hstep with rfl | hstep
  · exact id
  rcases List.mem_cons.mp hstep with rfl | hstep
  · exact id
  · obtain rfl := List.mem_singleton.mp hstep
    exact id

end TsKvstore
