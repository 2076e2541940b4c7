import TsKvstore.Deadlock
import TsKvstore.Poisoning

/-!
# Clients that wait for the lock

Raw operations, iterators and the transactions that `begin` starts wait for the lock, and
the `try_` variants do not. Clients that wait only while they have no iterator and no
transaction alive all come to their ends. So do clients that begin their transactions with
`try_begin_transaction` and only read otherwise, also while they have iterators alive. A
client that waits in its own transaction, or for a write guard while an iterator is alive,
waits for ever, and the store stays as it is.
-/

namespace TsKvstore

open FiniteMaps RwLocks

variable {S : Schema} {G : Singletons} {ρ : Type} {debug : Bool}

/-! ## When clients wait -/

/-- The client uses its iterators and transactions while they are alive, ends them before
it is done, and waits for a guard only if that is `allowed` with those that are alive. -/
def Client.WaitsOnly (allowed : Mode → (ℕ → Option Mode) → Prop) :
    Client S G ρ → (ℕ → Option Mode) → Prop
  | .done, alive => ∀ h, alive h = none
  | .raw _ r next, alive =>
    allowed r.call.mode alive ∧ ∀ result, (next result).WaitsOnly allowed alive
  | .newIter h _ next, alive =>
    alive h = none ∧ allowed .read alive ∧ (next (.error .poisoned)).WaitsOnly allowed alive ∧
      ∀ cursor, (next (.ok cursor)).WaitsOnly allowed (Function.update alive h (some .read))
  | .nextItem h _ _ next, alive =>
    alive h = some .read ∧ ∀ item cursor, (next item cursor).WaitsOnly allowed alive
  | .dropIter h next, alive =>
    alive h = some .read ∧ next.WaitsOnly allowed (Function.update alive h none)
  | .beginTransaction h _ next, alive =>
    alive h = none ∧ allowed .write alive ∧ (next (.error .poisoned)).WaitsOnly allowed alive ∧
      (next (.ok ())).WaitsOnly allowed (Function.update alive h (some .write))
  | .tryBeginTransaction h _ next, alive =>
    alive h = none ∧ (next (.ok false)).WaitsOnly allowed alive ∧
      (next (.error .poisoned)).WaitsOnly allowed alive ∧
      (next (.ok true)).WaitsOnly allowed (Function.update alive h (some .write))
  | .call h _ next, alive =>
    alive h = some .write ∧ ∀ result, (next result).WaitsOnly allowed alive
  | .endTransaction h _ next, alive =>
    alive h = some .write ∧ next.WaitsOnly allowed (Function.update alive h none)
  | .beginRoTransaction h _ next, alive =>
    alive h = none ∧ allowed .read alive ∧ (next (.error .poisoned)).WaitsOnly allowed alive ∧
      (next (.ok ())).WaitsOnly allowed (Function.update alive h (some .read))
  | .tryBeginRoTransaction h _ next, alive =>
    alive h = none ∧ (next (.ok false)).WaitsOnly allowed alive ∧
      (next (.error .poisoned)).WaitsOnly allowed alive ∧
      (next (.ok true)).WaitsOnly allowed (Function.update alive h (some .read))
  | .readCall h _ _ next, alive =>
    alive h = some .read ∧ ∀ result, (next result).WaitsOnly allowed alive
  | .endRoTransaction h next, alive =>
    alive h = some .read ∧ next.WaitsOnly allowed (Function.update alive h none)

/-- The client waits for the lock only while it has no iterator and no transaction. -/
def Client.WaitsIdle (client : Client S G ρ) : Prop :=
  client.WaitsOnly (fun _ alive => ∀ h, alive h = none) fun _ => none

/-- The client waits for read guards only, and not in its own transaction. It gets to write
with `try_begin_transaction`. -/
def Client.WritesByTrying (client : Client S G ρ) : Prop :=
  client.WaitsOnly (fun mode alive => mode = .read ∧ ∀ h, alive h ≠ some .write) fun _ => none

/-- The guards of live iterators and transactions. -/
def guardsOf (alive : ℕ → Option Mode) : Option ℕ → Option Mode
  | some h => alive h
  | none => none

/-- Without iterators and transactions there are no guards. -/
theorem guardsOf_idle {alive : ℕ → Option Mode} (hidle : ∀ h, alive h = none) (h : Option ℕ) :
    guardsOf alive h = none := by
  cases h with
  | none => rfl
  | some h => exact hidle h

/-- At the start there are no guards. -/
theorem guardsOf_none : guardsOf (fun _ => none) = fun _ => none :=
  funext (guardsOf_idle fun _ => rfl)

/-- Without transactions that may write there are no write guards. -/
theorem guardsOf_ne_write {alive : ℕ → Option Mode} (hshared : ∀ h, alive h ≠ some .write)
    (h : Option ℕ) : guardsOf alive h ≠ some .write := by
  cases h with
  | none => exact nofun
  | some h => exact hshared h

/-- A new iterator or transaction has its guard. -/
theorem guardsOf_update (alive : ℕ → Option Mode) (h : ℕ) (mode : Option Mode) :
    guardsOf (Function.update alive h mode) =
      Function.update (guardsOf alive) (some h) mode := by
  funext h'
  cases h' with
  | none => exact (Function.update_of_ne (Option.some_ne_none h).symm ..).symm
  | some h' =>
    by_cases heq : h' = h
    · subst heq
      simp [guardsOf]
    · simp [guardsOf, heq]

/-- A client that waits only where it is allowed does not wait in its own transaction, and
unless it is `nested` not with any guard. Nobody waits for a write guard with a guard. -/
def Orderly (nested : Bool) (allowed : Mode → (ℕ → Option Mode) → Prop) : Prop :=
  ∀ mode alive, allowed mode alive →
    (∀ h, alive h ≠ some .write) ∧ (mode = .write ∨ nested = false → ∀ h, alive h = none)

/-- Waiting without a guard is orderly. -/
theorem orderly_idle : Orderly false fun _ alive => ∀ h, alive h = none := by
  intro mode alive hidle
  refine ⟨fun h => ?_, fun _ => hidle⟩
  rw [hidle h]
  exact nofun

/-- Waiting for read guards beside read guards is orderly. -/
theorem orderly_reading :
    Orderly true fun mode alive => mode = .read ∧ ∀ h, alive h ≠ some .write := by
  rintro mode alive ⟨rfl, hshared⟩
  exact ⟨hshared, fun hmode => nomatch hmode⟩

section

variable {nested : Bool} {allowed : Mode → (ℕ → Option Mode) → Prop} {alive : ℕ → Option Mode}
  {h : ℕ} {mode : Mode} {poisoned next : StoreProg S G ρ debug}

/-- The lock of an iterator or a transaction. -/
theorem disciplined_lockUnwrap (hallowed : Orderly nested allowed) (hfresh : alive h = none)
    (hwaits : allowed mode alive) (hpoisoned : poisoned.Disciplined nested (guardsOf alive))
    (hnext : next.Disciplined nested (guardsOf (Function.update alive h (some mode)))) :
    (lockUnwrap (some h) mode poisoned next).Disciplined nested (guardsOf alive) := by
  obtain ⟨hshared, hidle⟩ := hallowed mode alive hwaits
  rw [guardsOf_update] at hnext
  refine ⟨hfresh, guardsOf_ne_write hshared, fun hmode => guardsOf_idle (hidle hmode), ?_⟩
  exact disciplined_unwrapGuard hfresh hpoisoned hnext

/-- Trying the lock under a new handle is disciplined. -/
theorem disciplined_tryLock (hfresh : alive h = none) {busy : StoreProg S G ρ debug}
    (hbusy : busy.Disciplined nested (guardsOf alive))
    (hpoisoned : poisoned.Disciplined nested (guardsOf alive))
    (hnext : next.Disciplined nested (guardsOf (Function.update alive h (some mode)))) :
    (tryLock (some h) mode busy poisoned next).Disciplined nested (guardsOf alive) := by
  rw [guardsOf_update] at hnext
  exact ⟨hfresh, disciplined_unwrapGuard hfresh hpoisoned hnext, hbusy⟩

/-- The end of an iterator or a transaction. -/
theorem disciplined_releaseNamed (halive : alive h = some mode)
    (hnext : next.Disciplined nested (guardsOf (Function.update alive h none))) :
    (Prog.release (some h) next).Disciplined nested (guardsOf alive) := by
  rw [guardsOf_update] at hnext
  refine ⟨?_, hnext⟩
  change alive h ≠ none
  rw [halive]
  exact Option.some_ne_none mode

/-- A client that waits in an orderly way has a disciplined program. -/
theorem Client.WaitsOnly.disciplined (hallowed : Orderly nested allowed)
    {client : Client S G ρ} {alive : ℕ → Option Mode} (hclient : client.WaitsOnly allowed alive)
    (owners : ℕ → Owner) :
    (client.prog debug owners).Disciplined nested (guardsOf alive) := by
  induction client generalizing alive owners with
  | done => exact guardsOf_idle hclient
  | raw panicking r next ih =>
    obtain ⟨hwaits, hnext⟩ := hclient
    obtain ⟨hshared, hidle⟩ := hallowed _ _ hwaits
    have hmode : r.call.mode = .write ∨ r.call.isRead = true := by
      unfold StoreCall.mode
      split
      · exact Or.inr ‹_›
      · exact Or.inl rfl
    refine ⟨rfl, guardsOf_ne_write hshared, fun hmode => guardsOf_idle (hidle hmode), ?_⟩
    refine disciplined_unwrapGuard rfl (ih _ (hnext _) owners) ?_
    exact ⟨⟨r.call.mode, Function.update_self .., hmode⟩,
      fun result => disciplined_releaseRaw rfl (ih result (hnext result) owners)⟩
  | newIter h it next ih =>
    obtain ⟨hfresh, hwaits, hpoisoned, hnext⟩ := hclient
    refine disciplined_lockUnwrap hallowed hfresh hwaits (ih _ hpoisoned owners) ?_
    refine ⟨⟨.read, Function.update_self .., Or.inr rfl⟩, fun cursor => ?_⟩
    exact ih _ (hnext cursor) owners
  | nextItem h it cursor next ih =>
    exact ⟨⟨.read, hclient.1, Or.inr rfl⟩, fun result => ih _ _ (hclient.2 _ _) owners⟩
  | dropIter h next ih => exact disciplined_releaseNamed hclient.1 (ih hclient.2 owners)
  | beginTransaction h owner next ih =>
    obtain ⟨hfresh, hwaits, hpoisoned, hnext⟩ := hclient
    exact disciplined_lockUnwrap hallowed hfresh hwaits (ih _ hpoisoned owners) (ih _ hnext _)
  | tryBeginTransaction h owner next ih =>
    obtain ⟨hfresh, hbusy, hpoisoned, hnext⟩ := hclient
    exact disciplined_tryLock hfresh (ih _ hbusy owners) (ih _ hpoisoned owners) (ih _ hnext _)
  | call h c next ih =>
    exact ⟨⟨.write, hclient.1, Or.inl rfl⟩, fun result => ih result (hclient.2 result) owners⟩
  | endTransaction h unwinding next ih =>
    have hrelease := disciplined_releaseNamed hclient.1 (ih hclient.2 owners)
    cases unwinding with
    | true => exact ⟨⟨.write, hclient.1, Or.inl rfl⟩, fun _ => hrelease⟩
    | false => exact hrelease
  | beginRoTransaction h owner next ih =>
    obtain ⟨hfresh, hwaits, hpoisoned, hnext⟩ := hclient
    exact disciplined_lockUnwrap hallowed hfresh hwaits (ih _ hpoisoned owners) (ih _ hnext _)
  | tryBeginRoTransaction h owner next ih =>
    obtain ⟨hfresh, hbusy, hpoisoned, hnext⟩ := hclient
    exact disciplined_tryLock hfresh (ih _ hbusy owners) (ih _ hpoisoned owners) (ih _ hnext _)
  | readCall h c hread next ih =>
    exact ⟨⟨.read, hclient.1, Or.inr hread⟩, fun result => ih result (hclient.2 result) owners⟩
  | endRoTransaction h next ih => exact disciplined_releaseNamed hclient.1 (ih hclient.2 owners)

/-- A client that waits only where it is allowed to is disciplined. -/
theorem Client.WaitsOnly.start (hallowed : Orderly nested allowed) {client : Client S G ρ}
    (hclient : client.WaitsOnly allowed fun _ => none) :
    (client.start debug).Disciplined nested fun _ => none := by
  rw [← guardsOf_none]
  exact hclient.disciplined hallowed _

end

/-! ## Clients that finish -/

section

variable {nested : Bool} {allowed : Mode → (ℕ → Option Mode) → Prop} {ι : Type} [DecidableEq ι]
  {clients : ι → Client S G ρ} {s : LockedStorage S G}
  {refuse : Config (storeActions S G ρ debug) ι (Option ℕ) → ι → Bool}
  {events : List (ι × Event (storeActions S G ρ debug) (Option ℕ))}
  {c : Config (storeActions S G ρ debug) ι (Option ℕ)}

/-- Orderly clients that cross no requests finish. -/
theorem Client.WaitsOnly.finish (hallowed : Orderly nested allowed)
    (hclients : ∀ i, (clients i).WaitsOnly allowed fun _ => none) (hrefuse : Admissible refuse)
    (huncrossed : Uncrossed refuse (startClients debug clients s) events)
    (hrun : Run refuse (startClients debug clients s) events c) :
    ((∀ i e c', ¬ Step refuse c i e c') → c.Finished) ∧
      (Finite ι → ¬ ∃ run : ℕ → Config (storeActions S G ρ debug) ι (Option ℕ),
        run 0 = c ∧ ∀ n, ∃ i e, Step refuse (run n) i e (run (n + 1))) := by
  constructor
  · intro hstuck
    by_contra hunfinished
    have hprogs : ∀ i, ((clients i).start debug).Disciplined nested fun _ => none :=
      fun i => (hclients i).start hallowed
    exact hrun.not_deadlocked hprogs hrefuse huncrossed ⟨hunfinished, hstuck⟩
  · rintro _ ⟨run, _, hsteps⟩
    exact not_forever refuse run hsteps

/-- **All clients finish.** Clients that wait for the lock only while they have no iterator
and no transaction alive are never stuck, and finitely many of them take finitely many
steps, whatever the lock decides about readers. -/
theorem waitsIdle_clients_finish (hclients : ∀ i, (clients i).WaitsIdle)
    (hrefuse : Admissible refuse)
    (hrun : Run refuse (startClients debug clients s) events c) :
    ((∀ i e c', ¬ Step refuse c i e c') → c.Finished) ∧
      (Finite ι → ¬ ∃ run : ℕ → Config (storeActions S G ρ debug) ι (Option ℕ),
        run 0 = c ∧ ∀ n, ∃ i e, Step refuse (run n) i e (run (n + 1))) := by
  have hprogs : ∀ i, ((clients i).start debug).Disciplined false fun _ => none :=
    fun i => (hclients i).start orderly_idle
  exact Client.WaitsOnly.finish orderly_idle hclients hrefuse
    (uncrossed_of_not_nested hprogs refuse events) hrun

end

/-- A client with one transaction waits idle. -/
theorem insertBoth_waitsIdle {t : S.Name} (owner : Owner) (k k' : S.Key t) (v v' : S.Value t) :
    (insertBoth owner k k' v v' : Client S G ρ).WaitsIdle := by
  have hend : ∀ unwinding, (Client.endTransaction 0 unwinding .done : Client S G ρ).WaitsOnly
      (fun _ alive => ∀ h, alive h = none) (Function.update (fun _ => none) 0 (some .write)) := by
    refine fun unwinding => ⟨Function.update_self .., ?_⟩
    rw [Function.update_idem, Function.update_eq_self]
    exact fun _ => rfl
  refine ⟨rfl, fun _ => rfl, fun _ => rfl, Function.update_self .., fun result => ?_⟩
  cases result with
  | error panic => exact hend true
  | ok old =>
    refine ⟨Function.update_self .., fun result => ?_⟩
    cases result with
    | error panic => exact hend true
    | ok old => exact hend false

/-- Both clients come to their ends. -/
theorem bothRun_finishes :
    ((∀ i e c', ¬ Step (fun _ _ => false) bothRun.2 i e c') → bothRun.2.Finished) ∧
      (Finite Bool → ¬ ∃ run : ℕ → Config (storeActions people noSingletons Unit true) Bool
        (Option ℕ), run 0 = bothRun.2 ∧
          ∀ n, ∃ i e, Step (fun _ _ => false) (run n) i e (run (n + 1))) :=
  waitsIdle_clients_finish (fun _ => insertBoth_waitsIdle "owner" (t := People) _ _ _ _) nofun
    (run_runSchedule _ _ _)

/-! ## Clients that write by trying -/

section

variable {allowed : Mode → (ℕ → Option Mode) → Prop}
  {poisoned next : StoreProg S G ρ debug}

/-- Unwrapping a guard awaits nothing. -/
theorem neverAwaits_unwrapGuard {h : Option ℕ} (hpoisoned : poisoned.NeverAwaits .write)
    (hnext : next.NeverAwaits .write) : (unwrapGuard h poisoned next).NeverAwaits .write := by
  intro isPoisoned
  cases isPoisoned with
  | true => exact hpoisoned
  | false => exact hnext

/-- Trying the lock awaits nothing. -/
theorem neverAwaits_tryLock {h : ℕ} {mode : Mode} {busy : StoreProg S G ρ debug}
    (hbusy : busy.NeverAwaits .write) (hpoisoned : poisoned.NeverAwaits .write)
    (hnext : next.NeverAwaits .write) :
    (tryLock (some h) mode busy poisoned next).NeverAwaits .write := by
  intro granted
  cases granted with
  | true => exact neverAwaits_unwrapGuard hpoisoned hnext
  | false => exact hbusy

/-- The end of a raw operation awaits nothing. -/
theorem neverAwaits_releaseRaw {α : Type} {panicking : Bool} {mode : Mode}
    {result : Except Panic α} (hnext : next.NeverAwaits .write) :
    (releaseRaw panicking mode result next).NeverAwaits .write := by
  unfold releaseRaw
  cases poisonsLock panicking mode result with
  | true => exact fun _ => hnext
  | false => exact hnext

/-- Nobody waits for a write guard if it is not allowed. -/
theorem Client.WaitsOnly.neverAwaits (hallowed : ∀ alive, ¬ allowed .write alive)
    {client : Client S G ρ} {alive : ℕ → Option Mode} (hclient : client.WaitsOnly allowed alive)
    (owners : ℕ → Owner) : (client.prog debug owners).NeverAwaits .write := by
  induction client generalizing alive owners with
  | done => trivial
  | raw panicking r next ih =>
    obtain ⟨hwaits, hnext⟩ := hclient
    refine ⟨fun hmode => hallowed alive (hmode ▸ hwaits), ?_⟩
    refine neverAwaits_unwrapGuard (ih _ (hnext _) owners) fun result => ?_
    exact neverAwaits_releaseRaw (ih result (hnext result) owners)
  | newIter h it next ih =>
    obtain ⟨_, _, hpoisoned, hnext⟩ := hclient
    refine ⟨nofun, neverAwaits_unwrapGuard (ih _ hpoisoned owners) fun cursor => ?_⟩
    exact ih _ (hnext cursor) owners
  | nextItem h it cursor next ih => exact fun result => ih _ _ (hclient.2 _ _) owners
  | dropIter h next ih => exact ih hclient.2 owners
  | beginTransaction h owner next ih => exact absurd hclient.2.1 (hallowed alive)
  | tryBeginTransaction h owner next ih =>
    obtain ⟨_, hbusy, hpoisoned, hnext⟩ := hclient
    exact neverAwaits_tryLock (ih _ hbusy owners) (ih _ hpoisoned owners) (ih _ hnext _)
  | call h c next ih => exact fun result => ih result (hclient.2 result) owners
  | endTransaction h unwinding next ih =>
    cases unwinding with
    | true => exact fun _ => ih hclient.2 owners
    | false => exact ih hclient.2 owners
  | beginRoTransaction h owner next ih =>
    obtain ⟨_, _, hpoisoned, hnext⟩ := hclient
    exact ⟨nofun, neverAwaits_unwrapGuard (ih _ hpoisoned owners) (ih _ hnext _)⟩
  | tryBeginRoTransaction h owner next ih =>
    obtain ⟨_, hbusy, hpoisoned, hnext⟩ := hclient
    exact neverAwaits_tryLock (ih _ hbusy owners) (ih _ hpoisoned owners) (ih _ hnext _)
  | readCall h c hread next ih => exact fun result => ih result (hclient.2 result) owners
  | endRoTransaction h next ih => exact ih hclient.2 owners

end

section

variable {ι : Type} [DecidableEq ι] {clients : ι → Client S G ρ} {s : LockedStorage S G}
  {refuse : Config (storeActions S G ρ debug) ι (Option ℕ) → ι → Bool}
  {events : List (ι × Event (storeActions S G ρ debug) (Option ℕ))}
  {c : Config (storeActions S G ρ debug) ι (Option ℕ)}

/-- **Nested reads are safe beside writers that try.** Clients that begin transactions with
`try_begin_transaction` and otherwise only read, also while their iterators and read-only
transactions are alive, but wait for no guard while a transaction of their own that may write
is open, are never stuck, and finitely many of them take finitely many steps, whatever the
lock decides about readers. -/
theorem writesByTrying_clients_finish (hclients : ∀ i, (clients i).WritesByTrying)
    (hrefuse : Admissible refuse)
    (hrun : Run refuse (startClients debug clients s) events c) :
    ((∀ i e c', ¬ Step refuse c i e c') → c.Finished) ∧
      (Finite ι → ¬ ∃ run : ℕ → Config (storeActions S G ρ debug) ι (Option ℕ),
        run 0 = c ∧ ∀ n, ∃ i e, Step refuse (run n) i e (run (n + 1))) := by
  have hreading : ∀ i, ((startClients debug clients s).threads i).NeverAwaits .write :=
    fun i => (hclients i).neverAwaits (fun _ hwaits => nomatch hwaits.1) _
  exact Client.WaitsOnly.finish orderly_reading hclients hrefuse
    (uncrossed_of_neverAwaits_write hreading refuse events) hrun

end

/-- A client that inserts a person if it gets the write guard at once. -/
def insertIfFree : Client people noSingletons Unit :=
  .tryBeginTransaction 0 "owner" <| .unlessPanic fun begun =>
    match begun with
    | true =>
      .call 0 (.table People (.insert (1 : UInt32) (People.person "a@example.com" [97])))
        fun _ => .endTransaction 0 false .done
    | false => .done

/-- One client reads during its iteration while the other tries to insert a person. -/
noncomputable def readAndTry (i : Bool) : Client people noSingletons Unit :=
  if i then insertIfFree else readInIteration

/-- The one client waits to read only, and the other one does not wait. -/
theorem readAndTry_writesByTrying (i : Bool) : (readAndTry i).WritesByTrying := by
  cases i with
  | false =>
    simp [readAndTry, readInIteration, Client.WritesByTrying, Client.unlessPanic,
      Client.WaitsOnly, StoreCall.mode, StoreCall.isRead, Call.isRead, Function.update_apply]
  | true =>
    simp [readAndTry, insertIfFree, Client.WritesByTrying, Client.unlessPanic,
      Client.WaitsOnly, Function.update_apply]

/-- The second client is refused during the iteration of the first one. -/
noncomputable def readAndTryRun :=
  runSchedule (fun _ _ => false) [false, false, false, true, false, false]
    (startClients true readAndTry ⟨false, Storage.new⟩)

/-- The nested read and the attempt to insert come to their ends. -/
theorem readAndTryRun_finishes :
    ((∀ i e c', ¬ Step (fun _ _ => false) readAndTryRun.2 i e c') → readAndTryRun.2.Finished) ∧
      (Finite Bool → ¬ ∃ run : ℕ → Config (storeActions people noSingletons Unit true) Bool
        (Option ℕ), run 0 = readAndTryRun.2 ∧
          ∀ n, ∃ i e, Step (fun _ _ => false) (run n) i e (run (n + 1))) :=
  writesByTrying_clients_finish readAndTry_writesByTrying nofun (run_runSchedule _ _ _)

/-! ## Clients that wait in their own transactions -/

/-- The mode of the guard that the next operation of a client waits for. -/
def Client.waitsFor : Client S G ρ → Option Mode
  | .raw _ r _ => some r.call.mode
  | .newIter _ _ _ | .beginRoTransaction _ _ _ => some .read
  | .beginTransaction _ _ _ => some .write
  | _ => none

/-- An operation that waits begins with a request. -/
theorem Client.prog_of_waitsFor {client : Client S G ρ} {mode : Mode}
    (hwaits : client.waitsFor = some mode) (owners : ℕ → Owner) :
    ∃ h next, client.prog debug owners = .acquire h mode next := by
  cases client with
  | raw panicking r next =>
    cases hwaits
    exact ⟨_, _, rfl⟩
  | newIter h it next =>
    cases hwaits
    exact ⟨_, _, rfl⟩
  | beginTransaction h owner next =>
    cases hwaits
    exact ⟨_, _, rfl⟩
  | beginRoTransaction h owner next =>
    cases hwaits
    exact ⟨_, _, rfl⟩
  | _ => cases hwaits

section

variable {ι : Type} [DecidableEq ι] {clients : ι → Client S G ρ} {s : LockedStorage S G}
  {refuse : Config (storeActions S G ρ debug) ι (Option ℕ) → ι → Bool}
  {events : List (ι × Event (storeActions S G ρ debug) (Option ℕ))}
  {c : Config (storeActions S G ρ debug) ι (Option ℕ)}

/-- **A client that waits for itself stops the store.** If the next operation of a client
waits for the lock while its own transaction is open, or for a write guard while it has
any guard, then it waits for ever. In no continuation does the store change or do all
clients finish, and while the transaction is open, nobody's calls are executed. -/
theorem self_deadlock (hrun : Run refuse (startClients debug clients s) events c) {i : ι}
    {client : Client S G ρ} {owners : ℕ → Owner}
    (hthread : c.threads i = .running (client.prog debug owners)) {mode : Mode}
    (hwaits : client.waitsFor = some mode) {h : Option ℕ} {mode' : Mode}
    (hguard : ⟨i, h, mode'⟩ ∈ c.guards) (hexcludes : mode' = .write ∨ mode = .write)
    {events' : List (ι × Event (storeActions S G ρ debug) (Option ℕ))}
    {c' : Config (storeActions S G ρ debug) ι (Option ℕ)} (hrun' : Run refuse c events' c') :
    c'.state = c.state ∧ ¬ c'.Finished ∧ ⟨i, h, mode'⟩ ∈ c'.guards ∧
      (∀ e ∈ eventsOf i events', ∃ h mode, e = .request h mode) ∧
      (mode' = .write → executed events' = []) := by
  obtain ⟨held, hc⟩ := hrun.guardedBy (.initial s _)
  obtain ⟨h', next, hprog⟩ := Client.prog_of_waitsFor hwaits owners
  have hblocked : c.Blocked i ⟨i, h, mode'⟩ := by
    refine ⟨hguard, rfl, h', mode, next, hexcludes, Or.inl ?_⟩
    rw [hthread, hprog]
  obtain ⟨hblocked', hstate, hexecuted⟩ := hrun'.blocked hc hblocked
  exact ⟨hstate, hblocked'.not_finished, hblocked'.mem, hrun'.requests_of_blocked hblocked,
    hexecuted⟩

end

/-- A raw operation of a client that is in its own transaction. -/
def rawInTransaction : Client people noSingletons Unit :=
  .raw false ⟨"owner", .table People .len⟩ fun _ => .endTransaction 0 false .done

/-- The first client begins a transaction and then uses a raw handle in it. The second one
inserts a person. -/
def selfDeadlockClients (i : Bool) : Client people noSingletons Unit :=
  if i then insertPerson
  else .beginTransaction 0 "owner" <| .unlessPanic fun _ => rawInTransaction

/-- The first client is about to make the raw operation. -/
def selfDeadlockRun :=
  runSchedule (fun _ _ => false) [false, false, false]
    (startClients true selfDeadlockClients ⟨false, Storage.new⟩)

/-- The client that waits in its own transaction waits for ever. -/
theorem selfDeadlockRun_blocked :
    let last := runSchedule (fun _ _ => false) [true, false, true, false] selfDeadlockRun.2
    last.2.state = selfDeadlockRun.2.state ∧ ¬ last.2.Finished ∧
      ⟨false, some 0, .write⟩ ∈ last.2.guards ∧
      (∀ e ∈ eventsOf false last.1, ∃ h mode, e = .request h mode) ∧
      (Mode.write = .write → executed last.1 = []) :=
  have hthread : selfDeadlockRun.2.threads false =
      .running (rawInTransaction.prog true (Function.update (fun _ => "") 0 "owner")) := rfl
  self_deadlock (run_runSchedule _ _ _) hthread rfl List.mem_cons_self (Or.inl rfl)
    (run_runSchedule _ _ _)

end TsKvstore
