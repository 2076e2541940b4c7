import TsKvstore.Clients
import TsKvstore.Lib.LockProgress

/-!
# Deadlocks of the raw operations

An iterator keeps its read guard until it is dropped, and a raw read takes a read
guard of its own. A thread that reads during an iteration waits for its second
guard if the lock prefers a waiting writer, and the writer waits for the first. This
is the only way in which raw operations deadlock.
-/

namespace TsKvstore

open FiniteMaps RwLocks

variable {S : Schema} {G : Singletons} {ρ : Type}

/-! ## Clients of the raw operations -/

/-- The client uses raw operations and iterators only, drops its iterators before it
is done, and does not write while one of them is alive. If it is not `nested`, it does
not read either while one of them is alive. -/
def Client.IsRaw (nested : Bool) : Client S G ρ → Finset ℕ → Prop
  | .done, alive => alive = ∅
  | .raw _ r next, alive =>
    (r.call.isRead = false ∨ nested = false → alive = ∅) ∧
      ∀ result, (next result).IsRaw nested alive
  | .newIter h _ next, alive =>
    h ∉ alive ∧ (nested = false → alive = ∅) ∧
      (next (.error .poisoned)).IsRaw nested alive ∧
      ∀ cursor, (next (.ok cursor)).IsRaw nested (insert h alive)
  | .nextItem h _ _ next, alive =>
    h ∈ alive ∧ ∀ item cursor, (next item cursor).IsRaw nested alive
  | .dropIter h next, alive => h ∈ alive ∧ next.IsRaw nested (alive.erase h)
  | .beginTransaction _ _ _, _ | .tryBeginTransaction _ _ _, _ | .call _ _ _, _ => False
  | .endTransaction _ _ _, _ | .beginRoTransaction _ _ _, _ => False
  | .tryBeginRoTransaction _ _ _, _ | .readCall _ _ _ _, _ | .endRoTransaction _ _, _ => False

/-- The guards of live iterators. -/
def iterGuards (alive : Finset ℕ) : Option ℕ → Option Mode
  | some h => if h ∈ alive then some .read else none
  | none => none

/-- Without iterators there are no guards. -/
theorem iterGuards_empty : iterGuards ∅ = fun _ => none := by
  funext h
  cases h <;> rfl

/-- A new iterator has a read guard. -/
theorem iterGuards_insert (alive : Finset ℕ) (h : ℕ) :
    iterGuards (insert h alive) = Function.update (iterGuards alive) (some h) (some .read) := by
  funext h'
  cases h' with
  | none => rfl
  | some h' =>
    by_cases heq : h' = h
    · subst heq
      simp [iterGuards]
    · simp [iterGuards, heq]

/-- A dropped iterator has no guard any more. -/
theorem iterGuards_erase (alive : Finset ℕ) (h : ℕ) :
    iterGuards (alive.erase h) = Function.update (iterGuards alive) (some h) none := by
  funext h'
  cases h' with
  | none => rfl
  | some h' =>
    by_cases heq : h' = h
    · subst heq
      simp [iterGuards]
    · simp [iterGuards, heq]

/-- No iterator has a write guard. -/
theorem iterGuards_ne_write (alive : Finset ℕ) (h : Option ℕ) :
    iterGuards alive h ≠ some .write := by
  cases h with
  | none => exact nofun
  | some h =>
    unfold iterGuards
    split <;> simp

section

variable {debug nested : Bool}

/-- `unwrap` of an acquired lock. -/
theorem disciplined_unwrapGuard {h : Option ℕ} {mode : Mode} {held : Option ℕ → Option Mode}
    {poisoned next : StoreProg S G ρ debug} (hfresh : held h = none)
    (hpoisoned : poisoned.Disciplined nested held)
    (hnext : next.Disciplined nested (Function.update held h (some mode))) :
    (unwrapGuard h poisoned next).Disciplined nested
      (Function.update held h (some mode)) := by
  refine ⟨⟨mode, Function.update_self .., Or.inr rfl⟩, fun isPoisoned => ?_⟩
  cases isPoisoned with
  | true => exact disciplined_release hfresh hpoisoned
  | false => exact hnext

/-- The end of a raw operation. -/
theorem disciplined_releaseRaw {α : Type} {panicking : Bool} {mode : Mode}
    {result : Except Panic α} {held : Option ℕ → Option Mode} {next : StoreProg S G ρ debug}
    (hfresh : held none = none)
    (hnext : next.Disciplined nested held) :
    (releaseRaw panicking mode result next).Disciplined nested
      (Function.update held none (some mode)) := by
  have hrelease : (Prog.release none next).Disciplined nested
      (Function.update held none (some mode)) := disciplined_release hfresh hnext
  unfold releaseRaw
  cases hpoisons : poisonsLock panicking mode result with
  | true =>
    exact ⟨⟨mode, Function.update_self .., Or.inl (mode_of_poisonsLock hpoisons)⟩,
      fun _ => hrelease⟩
  | false => exact hrelease

/-- A client of the raw operations has a disciplined program. -/
theorem Client.IsRaw.disciplined {client : Client S G ρ} {alive : Finset ℕ}
    (hraw : client.IsRaw nested alive) (owners : ℕ → Owner) :
    (client.prog debug owners).Disciplined nested (iterGuards alive) := by
  induction client generalizing alive with
  | done =>
    obtain rfl : alive = ∅ := hraw
    rw [iterGuards_empty]
    exact fun _ => rfl
  | raw panicking r next ih =>
    obtain ⟨hwrite, hnext⟩ := hraw
    refine ⟨rfl, iterGuards_ne_write alive, fun hmode => ?_, ?_⟩
    · have hidle : r.call.isRead = false ∨ nested = false := by
        refine hmode.imp_left fun hwriting => ?_
        unfold StoreCall.mode at hwriting
        split at hwriting
        · cases hwriting
        · exact Bool.eq_false_iff.mpr ‹_›
      rw [hwrite hidle, iterGuards_empty]
      exact fun _ => rfl
    · have hallowed : r.call.mode = .write ∨ r.call.isRead = true := by
        unfold StoreCall.mode
        split
        · exact Or.inr ‹_›
        · exact Or.inl rfl
      refine disciplined_unwrapGuard rfl (ih _ (hnext _)) ?_
      exact ⟨⟨r.call.mode, Function.update_self .., hallowed⟩,
        fun result => disciplined_releaseRaw rfl (ih result (hnext result))⟩
  | newIter h it next ih =>
    obtain ⟨hfresh, hnested, hpoisoned, hnext⟩ := hraw
    have hnone : iterGuards alive (some h) = none := if_neg hfresh
    refine ⟨hnone, iterGuards_ne_write alive, fun hmode => ?_, ?_⟩
    · rw [hnested (hmode.resolve_left nofun), iterGuards_empty]
      exact fun _ => rfl
    refine disciplined_unwrapGuard hnone (ih _ hpoisoned) ?_
    refine ⟨⟨.read, Function.update_self .., Or.inr rfl⟩, fun cursor => ?_⟩
    rw [← iterGuards_insert]
    exact ih _ (hnext cursor)
  | nextItem h it cursor next ih =>
    obtain ⟨halive, hnext⟩ := hraw
    exact ⟨⟨.read, if_pos halive, Or.inr rfl⟩, fun result => ih _ _ (hnext _ _)⟩
  | dropIter h next ih =>
    obtain ⟨halive, hnext⟩ := hraw
    refine ⟨by simp [iterGuards, halive], ?_⟩
    rw [← iterGuards_erase]
    exact ih hnext
  | _ => exact hraw.elim

/-- A client of the raw operations starts without iterators. -/
theorem Client.IsRaw.start {client : Client S G ρ} (hraw : client.IsRaw nested ∅) :
    (client.start debug).Disciplined nested fun _ => none := by
  rw [← iterGuards_empty]
  exact hraw.disciplined _

end

/-! ## Deadlock freedom -/

/-- Clients of the raw operations, which may read during their iterations, do not come
to a deadlock in a run in which no step brings such a read together with a write
that has to wait. If clients, finitely many, come to no deadlock in any run, no step
of theirs does. -/
theorem raw_deadlock_freedom {ι : Type} [DecidableEq ι] (debug : Bool)
    (clients : ι → Client S G ρ) (hraw : ∀ i, (clients i).IsRaw true ∅)
    (s : LockedStorage S G) :
    (∀ refuse, Admissible refuse → ∀ events c,
      Run refuse (startClients debug clients s) events c →
      Uncrossed refuse (startClients debug clients s) events → ¬ c.Deadlocked refuse) ∧
    (Finite ι →
      (∀ refuse, Admissible refuse → ∀ events c,
        Run refuse (startClients debug clients s) events c → ¬ c.Deadlocked refuse) →
      ∀ refuse, Admissible refuse → ∀ events,
        Uncrossed refuse (startClients debug clients s) events) := by
  constructor
  · intro refuse hrefuse events c hrun hevents
    exact hrun.not_deadlocked (fun i => (hraw i).start) hrefuse hevents
  · intro _ hfree refuse hrefuse events
    exact uncrossed_of_not_deadlocked hfree hrefuse events

/-- An iteration beside an insertion, without nesting. -/
theorem iterateAndInsert_isRaw (nested : Bool) (i : Bool) :
    (iterateAndInsert i).IsRaw nested ∅ := by
  cases i with
  | false => simp [iterateAndInsert, iteratePeople, Client.unlessPanic, Client.IsRaw]
  | true => simp [iterateAndInsert, insertPerson, Client.IsRaw]

/-- An iteration beside an insertion does not deadlock. -/
theorem iterationRun_not_deadlocked :
    ¬ iterationRun.2.Deadlocked fun _ _ => false :=
  (raw_deadlock_freedom true iterateAndInsert (iterateAndInsert_isRaw true)
    ⟨false, Storage.new⟩).1 (fun _ _ => false) nofun _ _ (run_runSchedule _ _ _)
    (uncrossed_of_not_nested (fun i => (iterateAndInsert_isRaw false i).start) _ _)

/-- A client that reads during an iteration over the people. -/
noncomputable def readInIteration : Client people noSingletons Unit :=
  .newIter 0 (.table People .keys .arbitrary) <| .unlessPanic fun _ =>
    .raw false ⟨"owner", .table People .len⟩ fun _ => .dropIter 0 .done

/-- One client reads during its iteration while the other inserts a person. -/
noncomputable def readAndInsert (i : Bool) : Client people noSingletons Unit :=
  if i then insertPerson else readInIteration

/-- A read in an iteration beside an insertion is nested. -/
theorem readAndInsert_isRaw (i : Bool) : (readAndInsert i).IsRaw true ∅ := by
  cases i with
  | false =>
    simp [readAndInsert, readInIteration, Client.unlessPanic, Client.IsRaw, StoreCall.isRead,
      Call.isRead]
  | true => simp [readAndInsert, insertPerson, Client.IsRaw]

/-- A lock that refuses readers while the second client waits for a write guard. -/
def preferInsert (c : Config (storeActions people noSingletons Unit true) Bool (Option ℕ))
    (_ : Bool) : Bool :=
  match c.threads true with
  | .waiting _ .write _ => true
  | _ => false

/-- The policy refuses a reader only while the other client waits to write. -/
theorem preferInsert_admissible : Admissible preferInsert := by
  intro c i hrefused
  unfold preferInsert at hrefused
  split at hrefused
  · rename_i h next hthread
    exact ⟨true, h, next, hthread⟩
  · cases hrefused

/-- The insertion is requested after the iteration has begun and before the read. -/
theorem read_in_iteration_deadlocks :
    ¬ ∀ clients : Bool → Client people noSingletons Unit, (∀ i, (clients i).IsRaw true ∅) →
      ∀ refuse, Admissible refuse → ∀ events c,
        Run refuse (startClients true clients ⟨false, Storage.new⟩) events c →
          ¬ c.Deadlocked refuse := by
  intro hfree
  refine hfree readAndInsert readAndInsert_isRaw preferInsert preferInsert_admissible _ _
    (run_runSchedule _ [false, false, false, false, true, false] _) ⟨fun hfinished => ?_, ?_⟩
  · cases hfinished true
  · intro i
    refine fire_eq_none_iff.mp ?_
    cases i <;> rfl

end TsKvstore
