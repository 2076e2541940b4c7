import TsKvstore.Poisoning

/-!
# A panic stops the store

The flag of a poisoned lock is never reset. A raw write that panics, in its closure or in
a failed assertion, holds the write guard until it has set the flag, unless its thread was
panicking when it took the guard. So nothing happens in a store after a panic that begins
under a write guard, and the storage stays as the panic leaves it.
-/

namespace TsKvstore

open RwLocks

variable {S : Schema} {G : Singletons} {ρ : Type} {debug : Bool}

/-! ## A poisoned store -/

/-- Every client keeps what always holds. -/
theorem Client.protects_true (client : Client S G ρ) : client.Protects debug fun _ => True := by
  induction client with
  | done => trivial
  | raw panicking r next ih => exact ⟨fun _ _ => Or.inl trivial, ih⟩
  | call h c next ih => exact ⟨fun _ _ _ => Or.inl trivial, ih⟩
  | _ => assumption

/-- The other actions leave a poisoned lock as it is. -/
theorem StoreAct.exec_of_not_usesStorage {a : StoreAct S G ρ} (huses : a.usesStorage = false)
    {s : LockedStorage S G} (hflag : s.poisoned = true) : (a.exec debug s).2 = s := by
  cases a with
  | isPoisoned => rfl
  | poison =>
    obtain ⟨flag, storage⟩ := s
    exact congrArg (LockedStorage.mk · storage) hflag.symm
  | _ => cases huses

section

variable {ι : Type} [DecidableEq ι] {clients : ι → Client S G ρ} {s : LockedStorage S G}
  {refuse : Config (storeActions S G ρ debug) ι (Option ℕ) → ι → Bool}
  {events : List (ι × Event (storeActions S G ρ debug) (Option ℕ))}
  {c : Config (storeActions S G ρ debug) ι (Option ℕ)}

/-- A step beside a set flag does nothing to the storage. -/
theorem step_of_poisoned (hrun : Run refuse (startClients debug clients s) events c)
    (hflag : c.state.poisoned = true) {i : ι} {e : Event (storeActions S G ρ debug) (Option ℕ)}
    {c' : Config (storeActions S G ρ debug) ι (Option ℕ)} (hstep : Step refuse c i e c') :
    c'.state = c.state ∧ ∀ step, e.action? = some step → StoreAct.usesStorage step.1 = false := by
  obtain ⟨held, hc⟩ := startClients_keeps (fun i => ((clients i).protects_true).keeps)
    (Or.inr trivial) hrun
  have hidle : ∀ step, e.action? = some step → StoreAct.usesStorage step.1 = false := by
    intro step haction
    cases e with
    | exec h a result =>
      cases haction
      refine Bool.eq_false_iff.mpr fun huses => ?_
      cases hflag.symm.trans (hc.pre_of_exec hstep huses).1
    | request _ _ | grant _ _ | busy _ _ | release _ => cases haction
  refine ⟨?_, hidle⟩
  cases hstep with
  | @exec h a _ _ _ _ _ => exact StoreAct.exec_of_not_usesStorage (hidle ⟨a, _⟩ rfl) hflag
  | _ => rfl

/-- **A poisoned store does not change.** Whatever clients share it, once the lock is
poisoned, no call and no step of an iterator is executed any more. -/
theorem poisoned_store_is_frozen (hrun : Run refuse (startClients debug clients s) events c)
    (hflag : c.state.poisoned = true)
    {events' : List (ι × Event (storeActions S G ρ debug) (Option ℕ))}
    {c' : Config (storeActions S G ρ debug) ι (Option ℕ)} (hrun' : Run refuse c events' c') :
    c'.state = c.state ∧ ∀ step ∈ executed events', StoreAct.usesStorage step.1 = false := by
  induction hrun' with
  | start => exact ⟨rfl, fun step hstep => absurd hstep List.not_mem_nil⟩
  | step hrun' hstep ih =>
    obtain ⟨hstate, hexecuted⟩ := ih
    have hflag' := (congrArg LockedStorage.poisoned hstate).trans hflag
    obtain ⟨hsame, hidle⟩ := step_of_poisoned (hrun.append hrun') hflag' hstep
    refine ⟨hsame.trans hstate, fun step hmem => ?_⟩
    rcases mem_executed_concat.mp hmem with hmem | haction
    · exact hexecuted step hmem
    · exact hidle step haction

end

/-- The client that waits for the other one finds the lock poisoned. -/
theorem panicRun_frozen :
    (runSchedule (fun _ _ => false) [true, true, true, true] panicRun.2).2.state =
        panicRun.2.state ∧
      ∀ step ∈ executed (runSchedule (fun _ _ => false) [true, true, true, true] panicRun.2).1,
        StoreAct.usesStorage step.1 = false :=
  poisoned_store_is_frozen (run_runSchedule _ _ _) rfl (run_runSchedule _ _ _)

/-! ## Panics of raw operations -/

/-- The client makes no raw operation while its thread is panicking. -/
def Client.Calm : Client S G ρ → Prop
  | .done => True
  | .raw panicking _ next => panicking = false ∧ ∀ result, (next result).Calm
  | .newIter _ _ next => ∀ result, (next result).Calm
  | .nextItem _ _ _ next => ∀ item cursor, (next item cursor).Calm
  | .dropIter _ next => next.Calm
  | .beginTransaction _ _ next => ∀ result, (next result).Calm
  | .tryBeginTransaction _ _ next => ∀ result, (next result).Calm
  | .call _ _ next => ∀ result, (next result).Calm
  | .endTransaction _ _ next => next.Calm
  | .beginRoTransaction _ _ next => ∀ result, (next result).Calm
  | .tryBeginRoTransaction _ _ next => ∀ result, (next result).Calm
  | .readCall _ _ _ next => ∀ result, (next result).Calm
  | .endRoTransaction _ next => next.Calm

/-- After the panic of a raw write, a thread does nothing but poison the lock and release
its guard. -/
def PoisonsOnPanic : (h : Option ℕ) → (a : StoreAct S G ρ) → (a.Ret → StoreProg S G ρ debug) → Prop
  | none, .request r, next => r.call.isRead = false → ∀ panic, ∃ rest,
    next (.error panic) = perform none .poison fun _ => .release none rest
  | _, _, _ => True

/-- This says nothing about the actions on the flag. -/
theorem poisonsOnPanic_of_flag (h : Option ℕ) (a : StoreAct S G ρ)
    (next : a.Ret → StoreProg S G ρ debug) (huses : StoreAct.usesStorage a = false) :
    PoisonsOnPanic h a next := by
  cases a with
  | isPoisoned | poison => cases h <;> trivial
  | request _ | newIter _ | nextItem _ _ => cases huses

/-- The raw operations of a calm client poison the lock when they panic. The statement is
about the client for which `this` holds, beside other clients. -/
theorem Client.poisonsOnPanic {this : Prop} {client : Client S G ρ} (hcalm : this → client.Calm)
    (owners : ℕ → Owner) :
    (client.prog debug owners).Always fun h a next => this → PoisonsOnPanic h a next := by
  have hflag : ∀ (h : Option ℕ) (a : StoreAct S G ρ) (next : a.Ret → StoreProg S G ρ debug),
      StoreAct.usesStorage a = false → this → PoisonsOnPanic h a next :=
    fun h a next huses _ => poisonsOnPanic_of_flag h a next huses
  induction client generalizing owners with
  | done => trivial
  | raw panicking r next ih =>
    have hnext := fun result => ih result (fun hthis => (hcalm hthis).2 result) owners
    refine always_unwrapGuard hflag (hnext _)
      ⟨fun hthis hwrite panic => ?_, fun result => ?_⟩
    · refine ⟨(next (.error panic)).prog debug owners, ?_⟩
      obtain rfl : panicking = false := (hcalm hthis).1
      unfold StoreCall.mode
      rw [hwrite]
      rfl
    · exact always_releaseRaw hflag _ _ _ (hnext result)
  | newIter h it next ih =>
    have hnext := fun result => ih result (fun hthis => hcalm hthis result) owners
    exact always_unwrapGuard hflag (hnext _) ⟨fun _ => trivial, fun cursor => hnext _⟩
  | nextItem h it cursor next ih =>
    exact ⟨fun _ => trivial, fun result => ih _ _ (fun hthis => hcalm hthis _ _) owners⟩
  | dropIter h next ih => exact ih hcalm owners
  | beginTransaction h owner next ih =>
    have hnext := fun result => ih result (fun hthis => hcalm hthis result)
    exact always_unwrapGuard hflag (hnext _ owners) (hnext _ _)
  | tryBeginTransaction h owner next ih =>
    have hnext := fun result => ih result (fun hthis => hcalm hthis result)
    exact always_tryLock hflag (hnext _ owners) (hnext _ owners) (hnext _ _)
  | call h c next ih =>
    exact ⟨fun _ => trivial, fun result => ih result (fun hthis => hcalm hthis result) owners⟩
  | endTransaction h unwinding next ih =>
    cases unwinding with
    | true => exact ⟨fun _ => trivial, fun _ => ih hcalm owners⟩
    | false => exact ih hcalm owners
  | beginRoTransaction h owner next ih =>
    have hnext := fun result => ih result (fun hthis => hcalm hthis result)
    exact always_unwrapGuard hflag (hnext _ owners) (hnext _ _)
  | tryBeginRoTransaction h owner next ih =>
    have hnext := fun result => ih result (fun hthis => hcalm hthis result)
    exact always_tryLock hflag (hnext _ owners) (hnext _ owners) (hnext _ _)
  | readCall h c hread next ih =>
    exact ⟨fun _ => trivial, fun result => ih result (fun hthis => hcalm hthis result) owners⟩
  | endRoTransaction h next ih => exact ih hcalm owners

section

variable {ι : Type} [DecidableEq ι] {clients : ι → Client S G ρ} {s : LockedStorage S G}
  {refuse : Config (storeActions S G ρ debug) ι (Option ℕ) → ι → Bool}
  {events : List (ι × Event (storeActions S G ρ debug) (Option ℕ))}
  {c c' : Config (storeActions S G ρ debug) ι (Option ℕ)} {i j : ι}

/-- Thread `i` holds the write guard of a raw operation that has panicked. -/
structure Panicking (i : ι) (c : Config (storeActions S G ρ debug) ι (Option ℕ)) : Prop where
  /-- Nobody else holds a guard. -/
  guard : ⟨i, none, .write⟩ ∈ c.guards
  /-- The next step poisons the lock. -/
  thread : ∃ rest, c.threads i = .running (perform none .poison fun _ => .release none rest)

/-- Beside a panic nobody executes anything. The panic ends with the flag set. -/
theorem Panicking.step {held : ι → Option ℕ → Option Mode} (hguarded : c.GuardedBy held)
    (hc : Panicking i c) {e : Event (storeActions S G ρ debug) (Option ℕ)}
    (hstep : Step refuse c j e c') :
    c'.state.storage = c.state.storage ∧
      (∀ step, e.action? = some step → StoreAct.usesStorage step.1 = false) ∧
      (Panicking i c' ∨ c'.state.poisoned = true) := by
  obtain ⟨rest, hthread⟩ := hc.thread
  obtain ⟨t, hlocal, hnext⟩ := hstep.localStep
  by_cases hj : j = i
  · subst hj
    rw [hthread] at hlocal
    cases hlocal
    cases hstep with
    | exec _ _ _ =>
      refine ⟨rfl, fun step haction => ?_, Or.inr rfl⟩
      cases haction
      rfl
  · obtain ⟨hstate, hidle⟩ := hstep.state_of_mem_guards hguarded hc.guard fun heq => absurd heq hj
    refine ⟨congrArg LockedStorage.storage hstate, fun step haction => ?_, Or.inl ⟨?_, rest, ?_⟩⟩
    · cases (hidle rfl).symm.trans haction
    · exact hstep.mem_guards hc.guard fun heq => absurd heq hj
    · rw [hnext, Function.update_of_ne (Ne.symm hj)]
      exact hthread

/-- A raw write that panics leaves its thread panicking. -/
theorem panicking_of_exec (hcalm : (clients i).Calm)
    (hrun : Run refuse (startClients debug clients s) events c)
    {r : Request S G ρ} (hwrite : r.call.isRead = false) {panic : Panic}
    (hstep : Step refuse c i (.exec none (.request r) (.error panic)) c') : Panicking i c' := by
  have hthreads : ∀ j, ((startClients debug clients s).threads j).Always
      fun h a next => j = i → PoisonsOnPanic h a next :=
    fun j => Client.poisonsOnPanic (fun hj => hj ▸ hcalm) fun _ => ""
  have halways : (c.threads i).Always fun h a next => i = i → PoisonsOnPanic h a next :=
    hrun.always (P := fun j h a next => j = i → PoisonsOnPanic h a next) hthreads i
  obtain ⟨t, hlocal, hnext⟩ := hstep.localStep
  obtain ⟨next, hpoisons, rfl⟩ := (hlocal.always halways).2 none (.request r) _ rfl
  obtain ⟨rest, hrest⟩ := hpoisons rfl hwrite panic
  refine ⟨?_, rest, ?_⟩
  · generalize hresult : (Except.error panic : Except Panic r.call.Ret) = result at hstep
    cases hstep with
    | @exec _ _ mode _ _ hheld hmode =>
      obtain rfl : mode = .write :=
        hmode.resolve_right fun hread => by cases hwrite.symm.trans hread
      exact hheld
  · rw [hnext, Function.update_self, hrest]

/-- **A panic stops the store.** When a raw write panics, in its closure or in a failed
assertion, and its thread was not panicking when it took the guard, nothing is executed on
the storage from then on, and it stays as the panic has left it. -/
theorem panicking_write_is_last (hcalm : (clients i).Calm)
    (hrun : Run refuse (startClients debug clients s) events c)
    {r : Request S G ρ} (hwrite : r.call.isRead = false) {panic : Panic}
    (hstep : Step refuse c i (.exec none (.request r) (.error panic)) c')
    {events' : List (ι × Event (storeActions S G ρ debug) (Option ℕ))}
    {c'' : Config (storeActions S G ρ debug) ι (Option ℕ)} (hrun' : Run refuse c' events' c'') :
    c''.state.storage = c'.state.storage ∧
      ∀ step ∈ executed events', StoreAct.usesStorage step.1 = false := by
  have hstart := panicking_of_exec hcalm hrun hwrite hstep
  have hboth : (c''.state.storage = c'.state.storage ∧
      ∀ step ∈ executed events', StoreAct.usesStorage step.1 = false) ∧
        (Panicking i c'' ∨ c''.state.poisoned = true) := by
    induction hrun' with
    | start => exact ⟨⟨rfl, fun step hmem => absurd hmem List.not_mem_nil⟩, Or.inl hstart⟩
    | @step events' d d' j e hrun' hlast ih =>
      obtain ⟨⟨hstorage, hexecuted⟩, hphase⟩ := ih
      have hd : Run refuse (startClients debug clients s) _ d := (hrun.step hstep).append hrun'
      have hone : d'.state.storage = d.state.storage ∧
          (∀ step, e.action? = some step → StoreAct.usesStorage step.1 = false) ∧
            (Panicking i d' ∨ d'.state.poisoned = true) := by
        rcases hphase with hpanicking | hflag
        · obtain ⟨held, hguarded⟩ := hd.guardedBy (.initial s _)
          exact hpanicking.step hguarded hlast
        · obtain ⟨hstate, hidle⟩ := step_of_poisoned hd hflag hlast
          refine ⟨congrArg LockedStorage.storage hstate, hidle, Or.inr ?_⟩
          exact (congrArg LockedStorage.poisoned hstate).trans hflag
      refine ⟨⟨hone.1.trans hstorage, fun step hmem => ?_⟩, hone.2.2⟩
      rcases mem_executed_concat.mp hmem with hmem | haction
      · exact hexecuted step hmem
      · exact hone.2.1 step haction
  exact hboth.1

end

/-- The closure of a raw `mutate` unwinds. -/
def unwindRaw : Request people noSingletons Unit :=
  ⟨"owner", .table People (.mutate (1 : UInt32) fun _ => (People.person "x" [120], none))⟩

/-- One client panics in a raw operation, and the other one waits for the lock. -/
def rawPanicClients (i : Bool) : Client people noSingletons Unit :=
  if i then mutateByEmail else .raw false unwindRaw fun _ => .done

/-- Before the call that panics. -/
def beforeRawPanic :=
  runSchedule (fun _ _ => false) [false, false, true, false]
    (startClients true rawPanicClients ⟨false, peopleStorage⟩)

/-- The call has panicked. -/
def rawPanic := runSchedule (fun _ _ => false) [false] beforeRawPanic.2

/-- The other client gets the lock and finds it poisoned. -/
def afterRawPanic :=
  runSchedule (fun _ _ => false) [true, false, false, true, true, true, true] rawPanic.2

/-- Nothing happens after the panic. -/
theorem rawPanic_is_last :
    afterRawPanic.2.state.storage = rawPanic.2.state.storage ∧
      ∀ step ∈ executed afterRawPanic.1, StoreAct.usesStorage step.1 = false := by
  have hrun : Run (fun _ _ => false) (startClients true rawPanicClients ⟨false, peopleStorage⟩)
      beforeRawPanic.1 beforeRawPanic.2 := run_runSchedule _ _ _
  have hstep : Step (fun _ _ => false) beforeRawPanic.2 false
      (.exec none (.request unwindRaw) (.error .closure)) rawPanic.2 := step_of_fire rfl
  have hcalm : (rawPanicClients false).Calm := ⟨rfl, fun _ => trivial⟩
  exact panicking_write_is_last hcalm hrun rfl hstep (run_runSchedule _ _ _)

end TsKvstore
