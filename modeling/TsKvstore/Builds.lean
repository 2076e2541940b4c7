import TsKvstore.Interleavings
import TsKvstore.Lib.LockSimulation
import TsKvstore.Outcomes

/-!
# Builds with and without debug assertions

The ownership comparisons are debug assertions. They do nothing but panic: a program that
never fails one in a debug build runs in the same way in a release build, where they are
compiled out.
-/

namespace TsKvstore

open FiniteMaps Machines RwLocks

variable {S : Schema} {G : Singletons} {ρ : Type} {t : S.Name}

/-! ## Calls -/

/-- No caller is refused in a release build. -/
theorem Table.accepts_release {K V I : Type} (table : Table K V I) (owner : Owner) :
    table.Accepts false owner :=
  fun _ _ hdebug => nomatch hdebug

section

variable {K V I : Type} [DecidableEq K] [IndexStorage K V I] {owner : Owner}

/-- A call that is accepted in a debug build is the same in a release build. -/
theorem TabularOps.exec_release_of_accepts {table : Table K V I}
    (h : table.Accepts true owner) (c : Call K V K V ρ) :
    TabularOps.exec false owner table c = TabularOps.exec true owner table c := by
  have hrelease := table.accepts_release owner
  cases c with
  | clear =>
    unfold TabularOps.exec TabularOpsMut.clear
    rw [h.assertOrSetOwner, hrelease.assertOrSetOwner]
  | insert key value =>
    unfold TabularOps.exec TabularOpsMut.insert
    rw [h.assertOrSetOwner, hrelease.assertOrSetOwner]
  | mutate key f =>
    unfold TabularOps.exec TabularOpsMut.mutate
    rw [h.assertOwner, hrelease.assertOwner]
  | remove key =>
    unfold TabularOps.exec TabularOpsMut.remove
    rw [h.assertOwner, hrelease.assertOwner]
  | forEachMut order rebuild f s =>
    unfold TabularOps.exec TabularOpsMut.forEachMut
    rw [h.assertOwner, hrelease.assertOwner]
  | _ => rfl

/-- A call through a table handle that fails no assertion is the same in both builds. -/
theorem TabularOps.exec_release {table : Table K V I} {c : Call K V K V ρ}
    (hclean : ¬ Violation (TabularOps.exec true owner table c).1) :
    TabularOps.exec false owner table c = TabularOps.exec true owner table c := by
  rcases table.accepts_or_refuses true owner with h | h
  · exact exec_release_of_accepts h c
  · cases hc : c.needsOwner with
    | true => exact absurd ((TabularOps.violation_iff hc).mpr h) hclean
    | false =>
      cases c with
      | clear | insert _ _ | mutate _ _ | remove _ | forEachMut _ _ _ _ => cases hc
      | _ => rfl

variable {i : S.Field t} {base : BaseTable S t}

/-- A call through an index that is accepted in a debug build is the same in a release
build. -/
theorem IndexedOps.exec_release_of_accepts (h : base.Accepts true owner)
    (c : Call (S.FieldTy t i) (S.Key t) (S.Key t) (S.Value t) ρ) :
    IndexedOps.exec false i owner base c = IndexedOps.exec true i owner base c := by
  have hrelease := base.accepts_release owner
  cases c with
  | clear =>
    unfold IndexedOps.exec IndexedOpsMut.clear
    rw [h.assertOrSetOwner, hrelease.assertOrSetOwner]
  | insert key value =>
    unfold IndexedOps.exec IndexedOpsMut.insert
    rw [h.assertOrSetOwner, hrelease.assertOrSetOwner]
  | mutate key f =>
    unfold IndexedOps.exec IndexedOpsMut.mutate
    rw [h.assertOwner, hrelease.assertOwner]
  | remove key =>
    unfold IndexedOps.exec IndexedOpsMut.remove
    rw [h.assertOwner, hrelease.assertOwner]
  | forEachMut order rebuild f s =>
    unfold IndexedOps.exec IndexedOpsMut.forEachMut
    rw [h.assertOwner, hrelease.assertOwner]
  | _ => rfl

/-- A call through an index handle that fails no assertion is the same in both builds. -/
theorem IndexedOps.exec_release {c : Call (S.FieldTy t i) (S.Key t) (S.Key t) (S.Value t) ρ}
    (hclean : ¬ Violation (IndexedOps.exec true i owner base c).1) :
    IndexedOps.exec false i owner base c = IndexedOps.exec true i owner base c := by
  rcases base.accepts_or_refuses true owner with h | h
  · exact exec_release_of_accepts h c
  · cases hc : c.needsOwner with
    | true =>
      have habsent : c.MutatesAbsent fun q => (base.indexes.get i).data.lookup q :=
        not_not.mp fun hpresent => hclean ((IndexedOps.violation_iff hc).mpr ⟨h, hpresent⟩)
      cases c with
      | mutate key f =>
        have hrelease : IndexedOpsMut.mutate false i base key f owner = (.ok none, base) :=
          IndexedOpsMut.mutate_of_none f habsent
        have hdebug : IndexedOpsMut.mutate true i base key f owner = (.ok none, base) :=
          IndexedOpsMut.mutate_of_none f habsent
        exact hrelease.trans hdebug.symm
      | _ => exact habsent.elim
    | false =>
      cases c with
      | clear | insert _ _ | mutate _ _ | remove _ | forEachMut _ _ _ _ => cases hc
      | _ => rfl

end

section

variable {m : G.Marker} {owner : Owner} {singletons : SingletonMap G}

/-- The comparison of a singleton's owner passes, or it fails with a violation. -/
theorem SingletonMap.assertOwner_cases (debug : Bool) (owner : Owner) (key : G.TypeId)
    (singletons : SingletonMap G) :
    singletons.assertOwner debug owner key = .ok () ∨
      ∃ prevOwner, singletons.assertOwner debug owner key =
        .error (ownershipViolation prevOwner owner) := by
  unfold SingletonMap.assertOwner debugAssertOwner
  cases singletons.getSingletonOwner key with
  | none => exact Or.inl rfl
  | some prevOwner =>
    dsimp only
    split
    · exact Or.inr ⟨prevOwner, rfl⟩
    · exact Or.inl rfl

/-- A release build does not compare the owners of singletons. -/
theorem SingletonMap.assertOwner_release (owner : Owner) (key : G.TypeId)
    (singletons : SingletonMap G) : singletons.assertOwner false owner key = .ok () := by
  unfold SingletonMap.assertOwner debugAssertOwner
  cases singletons.getSingletonOwner key with
  | none => rfl
  | some prevOwner => exact if_neg fun h => nomatch h.1

/-- A call on a singleton that fails no assertion is the same in both builds. -/
theorem SingletonCall.exec_release {c : SingletonCall G ρ m}
    (hclean : ¬ Violation (c.exec true owner singletons).1) :
    c.exec false owner singletons = c.exec true owner singletons := by
  have hrelease := singletons.assertOwner_release owner (G.typeId m)
  rcases SingletonMap.assertOwner_cases true owner (G.typeId m) singletons with h | ⟨p, h⟩
  · cases c with
    | insert value =>
      simp only [SingletonCall.exec, SingletonOpsMut.insert]
      rw [h, hrelease]
    | mutate hmut f =>
      simp only [SingletonCall.exec, SingletonOpsMut.mutate]
      rw [h, hrelease]
    | remove =>
      simp only [SingletonCall.exec, SingletonOpsMut.remove]
      rw [h, hrelease]
    | clear =>
      simp only [SingletonCall.exec, SingletonOpsMut.clear]
      rw [h, hrelease]
    | _ => rfl
  · have hfails : c.isRead = false → Violation (c.exec true owner singletons).1 := by
      intro hc
      refine ⟨p, owner, ?_⟩
      cases c with
      | get | getArc _ _ | with' _ => cases hc
      | insert value =>
        simp only [SingletonCall.exec, SingletonOpsMut.insert, h]
        rfl
      | mutate hmut f =>
        simp only [SingletonCall.exec, SingletonOpsMut.mutate, h]
        rfl
      | remove =>
        simp only [SingletonCall.exec, SingletonOpsMut.remove, h]
        rfl
      | clear =>
        simp only [SingletonCall.exec, SingletonOpsMut.clear, h]
        rfl
    cases c with
    | get | getArc _ _ | with' _ => rfl
    | _ => exact absurd (hfails rfl) hclean

end

/-! ## Runs -/

/-- A request that fails no ownership assertion is the same in a release build. -/
theorem Request.exec_release {r : Request S G ρ} {s : Storage S G}
    (hclean : ¬ Violation (r.exec true s).1) : r.exec false s = r.exec true s := by
  obtain ⟨owner, call⟩ := r
  cases call with
  | table t c =>
    have hexec := TabularOps.exec_release hclean
    exact congrArg (fun r => (r.1, s.setTable t r.2)) hexec
  | tableBy t i c =>
    have hexec := IndexedOps.exec_release hclean
    exact congrArg (fun r => (r.1, s.setTable t r.2)) hexec
  | indexTable t i c =>
    have hexec := TabularOps.exec_release hclean
    exact congrArg (fun r => (r.1, s.setTable t
      { s.tables t with indexes := (s.tables t).indexes.set i r.2 })) hexec
  | singleton m c =>
    have hexec := SingletonCall.exec_release hclean
    exact congrArg (fun r => (r.1, { s with singletons := r.2 })) hexec

/-- The program of a debug build, in a release build. -/
abbrev releaseProg (prog : StoreProg S G ρ true) : StoreProg S G ρ false :=
  @Prog.withExec _ _ (storeActions S G ρ true) (StoreAct.exec false)
    (storeActions S G ρ false).exec_of_isRead prog

/-- The configuration of a debug build, in a release build. -/
abbrev releaseConfig {ι : Type} (c : Config (storeActions S G ρ true) ι (Option ℕ)) :
    Config (storeActions S G ρ false) ι (Option ℕ) :=
  @Config.withExec _ _ _ (storeActions S G ρ true) (StoreAct.exec false)
    (storeActions S G ρ false).exec_of_isRead c

/-- The events of a debug build, in a release build. -/
abbrev releaseEvents {ι : Type}
    (events : List (ι × Event (storeActions S G ρ true) (Option ℕ))) :
    List (ι × Event (storeActions S G ρ false) (Option ℕ)) :=
  @eventsWithExec _ _ _ (storeActions S G ρ true) (StoreAct.exec false)
    (storeActions S G ρ false).exec_of_isRead events

/-! ### Programs -/

/-- The release build unwraps a guard in the same way. -/
theorem releaseProg_unwrapGuard (h : Option ℕ) (poisoned next : StoreProg S G ρ true) :
    releaseProg (unwrapGuard h poisoned next) =
      unwrapGuard h (releaseProg poisoned) (releaseProg next) := by
  refine congrArg (perform h .isPoisoned) (funext fun isPoisoned => ?_)
  cases isPoisoned <;> rfl

/-- The release build waits for the lock in the same way. -/
theorem releaseProg_lockUnwrap (h : Option ℕ) (mode : Mode)
    (poisoned next : StoreProg S G ρ true) :
    releaseProg (lockUnwrap h mode poisoned next) =
      lockUnwrap h mode (releaseProg poisoned) (releaseProg next) :=
  congrArg (Prog.acquire h mode) (releaseProg_unwrapGuard h poisoned next)

/-- The release build tries the lock in the same way. -/
theorem releaseProg_tryLock (h : Option ℕ) (mode : Mode)
    (busy poisoned next : StoreProg S G ρ true) :
    releaseProg (tryLock h mode busy poisoned next) =
      tryLock h mode (releaseProg busy) (releaseProg poisoned) (releaseProg next) := by
  refine congrArg (Prog.tryAcquire h mode) (funext fun granted => ?_)
  cases granted with
  | true => exact releaseProg_unwrapGuard h poisoned next
  | false => rfl

/-- The release build drops the guard of a raw operation in the same way. -/
theorem releaseProg_releaseRaw {α : Type} (panicking : Bool) (mode : Mode)
    (result : Except Panic α) (next : StoreProg S G ρ true) :
    releaseProg (releaseRaw panicking mode result next) =
      releaseRaw panicking mode result (releaseProg next) := by
  unfold releaseRaw
  cases poisonsLock panicking mode result <;> rfl

/-- A client has the same program in both builds. -/
theorem releaseProg_prog (client : Client S G ρ) (owners : ℕ → Owner) :
    releaseProg (client.prog true owners) = client.prog false owners := by
  induction client generalizing owners with
  | done => rfl
  | raw panicking r next ih =>
    unfold Client.prog
    rw [releaseProg_lockUnwrap, ih]
    refine congrArg (lockUnwrap none _ _) (congrArg (perform none _) (funext fun result => ?_))
    exact (releaseProg_releaseRaw _ _ result _).trans (congrArg _ (ih result owners))
  | newIter h it next ih =>
    unfold Client.prog
    rw [releaseProg_lockUnwrap, ih]
    exact congrArg (lockUnwrap (some h) .read _)
      (congrArg (perform (some h) _) (funext fun cursor => ih (.ok cursor) owners))
  | nextItem h it cursor next ih =>
    exact congrArg (perform (some h) (.nextItem it cursor))
      (funext fun result => ih result.1 result.2 owners)
  | dropIter h next ih => exact congrArg (Prog.release (some h)) (ih owners)
  | beginTransaction h owner next ih =>
    unfold Client.prog
    rw [releaseProg_lockUnwrap, ih, ih]
  | tryBeginTransaction h owner next ih =>
    unfold Client.prog
    rw [releaseProg_tryLock, ih, ih, ih]
  | call h c next ih =>
    exact congrArg (perform (some h) (.request ⟨owners h, c⟩))
      (funext fun result => ih result owners)
  | endTransaction h unwinding next ih =>
    cases unwinding with
    | true =>
      exact congrArg (perform (some h) .poison)
        (funext fun _ => congrArg (Prog.release (some h)) (ih owners))
    | false => exact congrArg (Prog.release (some h)) (ih owners)
  | beginRoTransaction h owner next ih =>
    unfold Client.prog
    rw [releaseProg_lockUnwrap, ih, ih]
  | tryBeginRoTransaction h owner next ih =>
    unfold Client.prog
    rw [releaseProg_tryLock, ih, ih, ih]
  | readCall h c hread next ih =>
    exact congrArg (perform (some h) (.request ⟨owners h, c⟩))
      (funext fun result => ih result owners)
  | endRoTransaction h next ih => exact congrArg (Prog.release (some h)) (ih owners)

/-- The action is no request that fails an ownership assertion. -/
def StoreAct.Clean : (Σ a : StoreAct S G ρ, a.Ret) → Prop
  | ⟨.request _, result⟩ => ¬ Violation result
  | ⟨.isPoisoned, _⟩ | ⟨.poison, _⟩ | ⟨.newIter _, _⟩ | ⟨.nextItem _ _, _⟩ => True

/-- An action that fails no assertion is the same in both builds. -/
theorem StoreAct.exec_release {a : StoreAct S G ρ} {s : LockedStorage S G}
    (hclean : StoreAct.Clean ⟨a, (a.exec true s).1⟩) : a.exec false s = a.exec true s := by
  cases a with
  | request r =>
    have hexec : r.exec false s.storage = r.exec true s.storage := Request.exec_release hclean
    exact congrArg (fun r => (r.1, { s with storage := r.2 })) hexec
  | isPoisoned | poison | newIter _ | nextItem _ _ => rfl

section

variable {ι : Type} [DecidableEq ι] {clients : ι → Client S G ρ} {s : LockedStorage S G}

omit [DecidableEq ι] in
/-- Clients start with the same programs in both builds. -/
theorem startClients_release :
    releaseConfig (startClients true clients s) = startClients false clients s := by
  have hthreads : (fun i => Thread.running (releaseProg ((clients i).start true))) =
      fun i => Thread.running ((clients i).start false) :=
    funext fun i => congrArg Thread.running (releaseProg_prog (clients i) _)
  exact congrArg (fun threads => Config.mk s threads []) hthreads

/-- **Release builds.** As long as no ownership assertion of a debug build fails, the
release build does the same: the same steps of the same threads are possible with the same
results, and the storage, the guards and what the threads still do are the same. -/
theorem debug_run_is_release_run
    {refuse : Config (storeActions S G ρ false) ι (Option ℕ) → ι → Bool}
    {events : List (ι × Event (storeActions S G ρ true) (Option ℕ))}
    {c : Config (storeActions S G ρ true) ι (Option ℕ)}
    (hrun : Run (fun c i => refuse (releaseConfig c) i) (startClients true clients s) events c)
    (hclean : ∀ step ∈ requestsOf events, ¬ Violation step.2) :
    Run refuse (startClients false clients s) (releaseEvents events) (releaseConfig c) ∧
      requestsOf (releaseEvents events) = requestsOf events := by
  have hgood : ∀ step ∈ executed events, StoreAct.Clean step := by
    intro step hstep
    obtain ⟨a, result⟩ := step
    cases a with
    | request r => exact hclean ⟨r, result⟩ (List.mem_filterMap.mpr ⟨_, hstep, rfl⟩)
    | isPoisoned | poison | newIter _ | nextItem _ _ => trivial
  have hsame : ∀ (a : StoreAct S G ρ) s, StoreAct.Clean ⟨a, (a.exec true s).1⟩ →
      a.exec false s = a.exec true s := fun _ _ => StoreAct.exec_release
  constructor
  · rw [← startClients_release]
    exact Run.withExec hsame hrun hgood
  · exact congrArg (List.filterMap StoreAct.request?) (executed_eventsWithExec _ _ events)

end

/-- The run of two clients of different data is a run of the release build. -/
theorem rowAndCountRun_release :
    Run (fun _ _ => false) (startClients false rowOrCount ⟨false, Storage.new⟩)
        (releaseEvents rowAndCountRun.1) (releaseConfig rowAndCountRun.2) ∧
      requestsOf (releaseEvents rowAndCountRun.1) = requestsOf rowAndCountRun.1 := by
  refine debug_run_is_release_run (run_runSchedule _ _ _) fun step hstep => ?_
  rcases List.mem_cons.mp hstep with rfl | hstep
  · exact not_violation_ok none
  · obtain rfl := List.mem_singleton.mp hstep
    exact not_violation_ok none

end TsKvstore
