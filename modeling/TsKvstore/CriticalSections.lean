import TsKvstore.Interleavings
import TsKvstore.Lib.LockSections

/-!
# The critical sections of the clients

A client does one operation after the other, and each of them belongs to a critical
section: a raw operation is one of its own, an iterator's lasts from its creation to its
drop, and a transaction's from its begin to its end. The sections in which the threads of a
store hold their guards are these. So what the lock says about its sections it says about
raw operations, iterators and transactions.
-/

namespace TsKvstore

open FiniteMaps RwLocks

variable {S : Schema} {G : Singletons} {ρ : Type} {debug : Bool}

/-! ## Operations of a client -/

/-- An operation that a client has done, with its result. -/
inductive ClientOp (S : Schema) (G : Singletons) (ρ : Type) where
  /-- `unwrap` has panicked, since the lock is poisoned. -/
  | refused (h : Option ℕ) (mode : Mode)
  /-- `try_begin_transaction` or `try_begin_ro_transaction` has found the lock busy. -/
  | busy
  /-- A raw operation. -/
  | raw (panicking : Bool) (r : Request S G ρ) (result : Except Panic r.call.Ret)
  /-- The creation of an iterator. -/
  | newIter (h : ℕ) (it : IterCall S) (cursor : Cursor it.Bucket)
  /-- The begin of a transaction, which is read-only if it has a read guard. -/
  | begin (h : ℕ) (mode : Mode)
  /-- A step of an iterator or a call in a transaction. -/
  | use (h : ℕ) (a : StoreAct S G ρ) (result : a.Ret)
  /-- The drop of an iterator or the end of a transaction. -/
  | drop (h : ℕ) (unwinding : Bool)

/-- One operation of a client, and what the client does afterwards. -/
inductive Client.Does :
    Client S G ρ → (ℕ → Owner) → ClientOp S G ρ → Client S G ρ → (ℕ → Owner) → Prop
  | rawRefused (panicking r next owners) :
    Does (.raw panicking r next) owners (.refused none r.call.mode) (next (.error .poisoned)) owners
  | raw (panicking r next owners result) :
    Does (.raw panicking r next) owners (.raw panicking r result) (next result) owners
  | newIterRefused (h it next owners) :
    Does (.newIter h it next) owners (.refused (some h) .read) (next (.error .poisoned)) owners
  | newIter (h it next owners cursor) :
    Does (.newIter h it next) owners (.newIter h it cursor) (next (.ok cursor)) owners
  | nextItem (h it cursor next owners item cursor') :
    Does (.nextItem h it cursor next) owners (.use h (.nextItem it cursor) (item, cursor'))
      (next item cursor') owners
  | dropIter (h next owners) : Does (.dropIter h next) owners (.drop h false) next owners
  | beginRefused (h owner next owners) :
    Does (.beginTransaction h owner next) owners (.refused (some h) .write)
      (next (.error .poisoned)) owners
  | begin (h owner next owners) :
    Does (.beginTransaction h owner next) owners (.begin h .write) (next (.ok ()))
      (Function.update owners h owner)
  | tryBeginBusy (h owner next owners) :
    Does (.tryBeginTransaction h owner next) owners .busy (next (.ok false)) owners
  | tryBeginRefused (h owner next owners) :
    Does (.tryBeginTransaction h owner next) owners (.refused (some h) .write)
      (next (.error .poisoned)) owners
  | tryBegin (h owner next owners) :
    Does (.tryBeginTransaction h owner next) owners (.begin h .write) (next (.ok true))
      (Function.update owners h owner)
  | call (h c next owners result) :
    Does (.call h c next) owners (.use h (.request ⟨owners h, c⟩) result) (next result) owners
  | endTransaction (h unwinding next owners) :
    Does (.endTransaction h unwinding next) owners (.drop h unwinding) next owners
  | beginRoRefused (h owner next owners) :
    Does (.beginRoTransaction h owner next) owners (.refused (some h) .read)
      (next (.error .poisoned)) owners
  | beginRo (h owner next owners) :
    Does (.beginRoTransaction h owner next) owners (.begin h .read) (next (.ok ()))
      (Function.update owners h owner)
  | tryBeginRoBusy (h owner next owners) :
    Does (.tryBeginRoTransaction h owner next) owners .busy (next (.ok false)) owners
  | tryBeginRoRefused (h owner next owners) :
    Does (.tryBeginRoTransaction h owner next) owners (.refused (some h) .read)
      (next (.error .poisoned)) owners
  | tryBeginRo (h owner next owners) :
    Does (.tryBeginRoTransaction h owner next) owners (.begin h .read) (next (.ok true))
      (Function.update owners h owner)
  | readCall (h c hread next owners result) :
    Does (.readCall h c hread next) owners (.use h (.request ⟨owners h, c⟩) result) (next result)
      owners
  | endRoTransaction (h next owners) :
    Does (.endRoTransaction h next) owners (.drop h false) next owners

/-- The client has done the listed operations. What it does next is a client again. -/
inductive Client.Goes (client : Client S G ρ) :
    List (ClientOp S G ρ) → Client S G ρ → (ℕ → Owner) → Prop
  | start : Goes client [] client fun _ => ""
  | step {history : List (ClientOp S G ρ)} {op : ClientOp S G ρ}
      {client' client'' : Client S G ρ} {owners owners' : ℕ → Owner}
      (hgoes : Goes client history client' owners)
      (hdoes : client'.Does owners op client'' owners') :
      Goes client (history ++ [op]) client'' owners'

/-! ## Critical sections -/

section

variable {ι : Type} [DecidableEq ι]

/-- What a raw operation does under its guard. -/
def rawSteps (panicking : Bool) (r : Request S G ρ) (result : Except Panic r.call.Ret) :
    List (Σ a : StoreAct S G ρ, a.Ret) :=
  match poisonsLock panicking r.call.mode result with
  | true => [⟨.isPoisoned, false⟩, ⟨.request r, result⟩, ⟨.poison, ()⟩]
  | false => [⟨.isPoisoned, false⟩, ⟨.request r, result⟩]

/-- The sections of client `i` after one more operation. -/
def ClientOp.record (debug : Bool) (i : ι)
    (sections : List (Section (storeActions S G ρ debug) ι (Option ℕ))) :
    ClientOp S G ρ → List (Section (storeActions S G ρ debug) ι (Option ℕ))
  | refused h mode => sections ++ [⟨⟨i, h, mode⟩, false, [⟨StoreAct.isPoisoned, true⟩]⟩]
  | busy => sections
  | raw panicking r result =>
    sections ++ [⟨⟨i, none, r.call.mode⟩, false, rawSteps panicking r result⟩]
  | newIter h it cursor =>
    sections ++ [⟨⟨i, some h, .read⟩, true,
      [⟨StoreAct.isPoisoned, false⟩, ⟨StoreAct.newIter it, cursor⟩]⟩]
  | begin h mode => sections ++ [⟨⟨i, some h, mode⟩, true, [⟨StoreAct.isPoisoned, false⟩]⟩]
  | use h a result => amend i (some h) (Section.addStep ⟨a, result⟩) sections
  | drop h unwinding =>
    match unwinding with
    | true =>
      amend i (some h) Section.close
        (amend i (some h) (Section.addStep ⟨StoreAct.poison, ()⟩) sections)
    | false => amend i (some h) Section.close sections

/-- The critical sections of client `i`, in the order of their beginnings. -/
def criticalSections (debug : Bool) (i : ι) (history : List (ClientOp S G ρ)) :
    List (Section (storeActions S G ρ debug) ι (Option ℕ)) :=
  history.foldl (ClientOp.record debug i) []

/-- The sections after one more operation. -/
theorem criticalSections_concat (i : ι) (history : List (ClientOp S G ρ)) (op : ClientOp S G ρ) :
    criticalSections debug i (history ++ [op]) =
      op.record debug i (criticalSections debug i history) :=
  List.foldl_append

/-- The thread is at the end of the next operation of the client. -/
def OpEnds (debug : Bool) (i : ι) (client : Client S G ρ) (owners : ℕ → Owner)
    (sections : List (Section (storeActions S G ρ debug) ι (Option ℕ)))
    (prog : StoreProg S G ρ debug)
    (sections' : List (Section (storeActions S G ρ debug) ι (Option ℕ))) : Prop :=
  ∃ op client' owners', client.Does owners op client' owners' ∧
    prog = client'.prog debug owners' ∧ sections' = op.record debug i sections

variable {i : ι} {h : Option ℕ} {mode : Mode}
  {sections : List (Section (storeActions S G ρ debug) ι (Option ℕ))}
  {Ends : StoreProg S G ρ debug →
    List (Section (storeActions S G ρ debug) ι (Option ℕ)) → Prop}
  {poisoned next : StoreProg S G ρ debug}

/-- `unwrap` of a guard that has been granted. -/
theorem completes_unwrapGuard (hfresh : Fresh i h sections)
    (hpoisoned : Ends poisoned
      (sections ++ [⟨⟨i, h, mode⟩, false, [⟨StoreAct.isPoisoned, true⟩]⟩]))
    (hnext : Ends next (sections ++ [⟨⟨i, h, mode⟩, true, [⟨StoreAct.isPoisoned, false⟩]⟩]) ∨
      next.Completes i Ends
        (sections ++ [⟨⟨i, h, mode⟩, true, [⟨StoreAct.isPoisoned, false⟩]⟩])) :
    (unwrapGuard h poisoned next).Completes i Ends
      (record sections i (.grant h mode)) := by
  change (unwrapGuard h poisoned next).Completes i Ends (sections ++ [⟨⟨i, h, mode⟩, true, []⟩])
  refine completes_exec hfresh fun isPoisoned => ?_
  cases isPoisoned with
  | true => exact Or.inr (completes_release hfresh hpoisoned)
  | false => exact hnext

/-- The end of a raw operation. -/
theorem completes_releaseRaw {panicking : Bool} {r : Request S G ρ}
    {result : Except Panic r.call.Ret} (hfresh : Fresh i none sections)
    (hnext : Ends next
      (sections ++ [⟨⟨i, none, r.call.mode⟩, false, rawSteps panicking r result⟩])) :
    (releaseRaw panicking r.call.mode result next).Completes i Ends
      (sections ++ [⟨⟨i, none, r.call.mode⟩, true,
        [⟨StoreAct.isPoisoned, false⟩, ⟨StoreAct.request r, result⟩]⟩]) := by
  unfold rawSteps at hnext
  unfold releaseRaw
  cases hpoisons : poisonsLock panicking r.call.mode result with
  | true =>
    rw [hpoisons] at hnext
    exact completes_exec hfresh fun _ => Or.inr (completes_release hfresh hnext)
  | false =>
    rw [hpoisons] at hnext
    exact completes_release hfresh hnext

/-- The program of a client goes on until its next operation is done. -/
theorem Client.prog_completes {client : Client S G ρ} (hclient : client ≠ .done)
    (owners : ℕ → Owner)
    (sections : List (Section (storeActions S G ρ debug) ι (Option ℕ))) :
    (client.prog debug owners).Completes i (OpEnds debug i client owners sections) sections := by
  cases client with
  | done => exact absurd rfl hclient
  | raw panicking r next =>
    refine fun hfresh => Or.inr (completes_unwrapGuard hfresh ?_ (Or.inr ?_))
    · exact ⟨_, _, _, .rawRefused panicking r next owners, rfl, rfl⟩
    refine completes_exec hfresh fun result => Or.inr (completes_releaseRaw hfresh ?_)
    exact ⟨_, _, _, .raw panicking r next owners result, rfl, rfl⟩
  | newIter h it next =>
    refine fun hfresh => Or.inr (completes_unwrapGuard hfresh ?_ (Or.inr ?_))
    · exact ⟨_, _, _, .newIterRefused h it next owners, rfl, rfl⟩
    refine completes_exec hfresh fun cursor => Or.inl ?_
    exact ⟨_, _, _, .newIter h it next owners cursor, rfl, rfl⟩
  | nextItem h it cursor next =>
    exact fun result => Or.inl
      ⟨_, _, _, .nextItem h it cursor next owners result.1 result.2, rfl, rfl⟩
  | dropIter h next => exact Or.inl ⟨_, _, _, .dropIter h next owners, rfl, rfl⟩
  | beginTransaction h owner next =>
    refine fun hfresh => Or.inr (completes_unwrapGuard hfresh ?_ (Or.inl ?_))
    · exact ⟨_, _, _, .beginRefused h owner next owners, rfl, rfl⟩
    · exact ⟨_, _, _, .begin h owner next owners, rfl, rfl⟩
  | tryBeginTransaction h owner next =>
    refine ⟨fun hfresh => Or.inr (completes_unwrapGuard hfresh ?_ (Or.inl ?_)), Or.inl ?_⟩
    · exact ⟨_, _, _, .tryBeginRefused h owner next owners, rfl, rfl⟩
    · exact ⟨_, _, _, .tryBegin h owner next owners, rfl, rfl⟩
    · exact ⟨_, _, _, .tryBeginBusy h owner next owners, rfl, rfl⟩
  | call h c next =>
    exact fun result => Or.inl ⟨_, _, _, .call h c next owners result, rfl, rfl⟩
  | endTransaction h unwinding next =>
    have hends := Client.Does.endTransaction (ρ := ρ) h unwinding next owners
    cases unwinding with
    | true => exact fun _ => Or.inr (Or.inl ⟨_, _, _, hends, rfl, rfl⟩)
    | false => exact Or.inl ⟨_, _, _, hends, rfl, rfl⟩
  | beginRoTransaction h owner next =>
    refine fun hfresh => Or.inr (completes_unwrapGuard hfresh ?_ (Or.inl ?_))
    · exact ⟨_, _, _, .beginRoRefused h owner next owners, rfl, rfl⟩
    · exact ⟨_, _, _, .beginRo h owner next owners, rfl, rfl⟩
  | tryBeginRoTransaction h owner next =>
    refine ⟨fun hfresh => Or.inr (completes_unwrapGuard hfresh ?_ (Or.inl ?_)), Or.inl ?_⟩
    · exact ⟨_, _, _, .tryBeginRoRefused h owner next owners, rfl, rfl⟩
    · exact ⟨_, _, _, .tryBeginRo h owner next owners, rfl, rfl⟩
    · exact ⟨_, _, _, .tryBeginRoBusy h owner next owners, rfl, rfl⟩
  | readCall h c hread next =>
    exact fun result => Or.inl ⟨_, _, _, .readCall h c hread next owners result, rfl, rfl⟩
  | endRoTransaction h next => exact Or.inl ⟨_, _, _, .endRoTransaction h next owners, rfl, rfl⟩

/-- Where a client is: between two operations, its sections are those of the operations that
it has done. Within an operation they continue these, and whatever its remaining actions
yield, they are those of the operation, too, when it is over. -/
inductive Client.Progress (debug : Bool) (i : ι) (client : Client S G ρ)
    (thread : Thread (storeActions S G ρ debug) (Option ℕ))
    (sections : List (Section (storeActions S G ρ debug) ι (Option ℕ))) : Prop
  | between {history : List (ClientOp S G ρ)} {client' : Client S G ρ} {owners : ℕ → Owner}
      (hgoes : client.Goes history client' owners)
      (hthread : thread = .running (client'.prog debug owners))
      (hsections : sections = criticalSections debug i history)
  | within {history : List (ClientOp S G ρ)} {client' : Client S G ρ} {owners : ℕ → Owner}
      (hgoes : client.Goes history client' owners)
      (hextends : Extends (criticalSections debug i history) sections)
      (hthread : thread.Completes i
        (OpEnds debug i client' owners (criticalSections debug i history)) sections)

/-- A step of a thread within an operation. -/
theorem Client.Progress.step_within {client client' : Client S G ρ} {owners : ℕ → Owner}
    {history : List (ClientOp S G ρ)} (hgoes : client.Goes history client' owners)
    {t t' : Thread (storeActions S G ρ debug) (Option ℕ)}
    (hextends : Extends (criticalSections debug i history) sections)
    (hthread : t.Completes i
      (OpEnds debug i client' owners (criticalSections debug i history)) sections)
    {e : Event (storeActions S G ρ debug) (Option ℕ)} (hstep : LocalStep t e t')
    (hfresh : ∀ h mode, e = .grant h mode → Fresh i h sections) :
    client.Progress debug i t' (record sections i e) := by
  rcases hstep.completes hfresh hthread with ⟨prog, rfl, op, client'', owners', hdoes, rfl, hends⟩ |
    hthread'
  · exact .between (hgoes.step hdoes) rfl (hends.trans (criticalSections_concat i history op).symm)
  · exact .within hgoes (hextends.trans (extends_record sections i e)) hthread'

/-- A step of a thread takes its client further. -/
theorem Client.Progress.step {client : Client S G ρ}
    {t t' : Thread (storeActions S G ρ debug) (Option ℕ)}
    (hclient : client.Progress debug i t sections)
    {e : Event (storeActions S G ρ debug) (Option ℕ)} (hstep : LocalStep t e t')
    (hfresh : ∀ h mode, e = .grant h mode → Fresh i h sections) :
    client.Progress debug i t' (record sections i e) := by
  cases hclient with
  | @between history client' owners hgoes hthread hsections =>
    subst hthread hsections
    have hne : client' ≠ .done := by
      rintro rfl
      cases hstep
    exact step_within (t := .running _) hgoes (.refl _) (client'.prog_completes hne owners _) hstep
      hfresh
  | within hgoes hextends hthread => exact step_within hgoes hextends hthread hstep hfresh

end

/-! ## Serializability -/

section

variable {ι : Type} [DecidableEq ι]

/-- What a section does with the storage. Its calls are a sequential run. Under a read guard
it leaves the state as it is, and an iterator yields the items of this one state. -/
structure IsAtomic (s : LockedStorage S G) (sec : Section (storeActions S G ρ debug) ι (Option ℕ))
    (s' : LockedStorage S G) : Prop where
  /-- No call of another client is executed between the calls of the section. -/
  calls : Leads debug s.storage (sec.steps.filterMap StoreAct.request?) s'.storage
  /-- Under a read guard nothing changes. -/
  reads : sec.guard.mode = .read → s' = s
  /-- The iterator is created and advanced on one storage. -/
  iterates : sec.guard.mode = .read → ∀ (it : IterCall S) (cursor : Cursor it.Bucket),
    ⟨StoreAct.newIter it, cursor⟩ ∈ sec.steps → cursor = it.new s.storage ∧
      ∀ (steps : List (Σ a : StoreAct S G ρ, a.Ret)) (items : List it.Item) (ended : Bool),
        steps.Sublist sec.steps → Iterated it cursor steps items ended →
        items <+: it.all s.storage ∧ (ended = true → items = it.all s.storage)

omit [DecidableEq ι] in
/-- Steps that replay one after the other are atomic. -/
theorem isAtomic_of_replays {s s' : LockedStorage S G}
    {sec : Section (storeActions S G ρ debug) ι (Option ℕ)} (h : Replays s sec.steps s')
    (hreads : sec.guard.mode = .read →
      s' = s ∧ ∀ step ∈ sec.steps, ((storeActions S G ρ debug).exec step.1 s).1 = step.2) :
    IsAtomic s sec s' where
  calls := leads_of_replays h
  reads hmode := (hreads hmode).1
  iterates hmode it cursor hnew := by
    obtain ⟨_, hresults⟩ := hreads hmode
    obtain rfl : it.new s.storage = cursor := hresults _ hnew
    refine ⟨rfl, fun steps items ended hsteps hiterated => ?_⟩
    exact hiterated.items_of_results fun step hstep => hresults step (hsteps.subset hstep)

/-- An order in which the clients could have gone through their critical sections one at a
time, from state `s` to the state of `c`. -/
structure SerialClients (clients : ι → Client S G ρ) (s : LockedStorage S G)
    (events : List (ι × Event (storeActions S G ρ debug) (Option ℕ)))
    (c : Config (storeActions S G ρ debug) ι (Option ℕ))
    (order : List (Section (storeActions S G ρ debug) ι (Option ℕ))) : Prop
    extends SerialOrder s events c.state order where
  /-- The sections of each client are its raw operations, the lifetimes of its iterators and
  its transactions, in the order of its program. -/
  progress : ∀ i, (clients i).Progress debug i (c.threads i) (sectionsBy i order)
  /-- Each of them is done in one piece, after those before it and before those after it. -/
  atomic : ∀ pre sec post, order = pre ++ sec :: post → ∃ m m',
    Replays s (serialSteps pre) m ∧ IsAtomic m sec m' ∧ Replays m' (serialSteps post) c.state

variable {clients : ι → Client S G ρ} {s : LockedStorage S G}
  {refuse : Config (storeActions S G ρ debug) ι (Option ℕ) → ι → Bool}
  {events : List (ι × Event (storeActions S G ρ debug) (Option ℕ))}
  {c : Config (storeActions S G ρ debug) ι (Option ℕ)}

/-- The sections of every client are its critical sections. -/
theorem progress_of_run (hrun : Run refuse (startClients debug clients s) events c) (i : ι) :
    (clients i).Progress debug i (c.threads i) (sectionsBy i (sectionsOf events)) := by
  induction hrun with
  | start => exact .between .start rfl rfl
  | @step events c c' j e hrun hstep ih =>
    obtain ⟨t, hlocal, hthreads⟩ := hstep.localStep
    rw [hthreads, sectionsOf_concat]
    by_cases hj : j = i
    · subst hj
      rw [Function.update_self, sectionsBy_record_self]
      refine ih.step hlocal fun h mode he => ?_
      subst he
      cases hstep with
      | grant _ hgrants =>
        intro sec hsec
        exact hrun.serial.fresh_of_grants hgrants sec (List.mem_filter.mp hsec).1
    · rw [Function.update_of_ne (Ne.symm hj), sectionsBy_record_of_ne hj]
      exact ih

/-- The critical sections of a run, in the order of their grants, are in a serial order. -/
theorem serialClients_of_run (hrun : Run refuse (startClients debug clients s) events c) :
    SerialClients clients s events c (sectionsOf events) where
  toSerialOrder := hrun.serialOrder
  progress := progress_of_run hrun
  atomic pre sec post hsplit := by
    obtain ⟨m, m', hpre, hsec, hpost, hreads⟩ := hrun.serialOrder.section_state pre sec post hsplit
    exact ⟨m, m', hpre, isAtomic_of_replays hsec hreads, hpost⟩

end

/-- **Serializability.** For all clients and every interleaving, the results that the clients
have got and the storage are those of executing their critical sections one at a time: each
raw operation, each iterator from its creation to its drop, and each transaction. -/
theorem store_serializable {ι : Type} [DecidableEq ι] (debug : Bool)
    (clients : ι → Client S G ρ) (s : LockedStorage S G)
    (refuse : Config (storeActions S G ρ debug) ι (Option ℕ) → ι → Bool)
    (events : List (ι × Event (storeActions S G ρ debug) (Option ℕ)))
    (c : Config (storeActions S G ρ debug) ι (Option ℕ))
    (hrun : Run refuse (startClients debug clients s) events c) :
    ∃ order, SerialClients clients s events c order :=
  ⟨sectionsOf events, serialClients_of_run hrun⟩

/-- The insertion comes after the iteration. -/
theorem iterationRun_serializable :
    ∃ order, SerialClients iterateAndInsert ⟨false, Storage.new⟩ iterationRun.1 iterationRun.2
      order :=
  store_serializable true iterateAndInsert ⟨false, Storage.new⟩ (fun _ _ => false) _ _
    (run_runSchedule _ _ _)

/-! ## Real time -/

section

variable {ι : Type} [DecidableEq ι] {clients : ι → Client S G ρ} {s : LockedStorage S G}
  {refuse : Config (storeActions S G ρ debug) ι (Option ℕ) → ι → Bool}
  {events : List (ι × Event (storeActions S G ρ debug) (Option ℕ))}
  {c : Config (storeActions S G ρ debug) ι (Option ℕ)}

/-- **Real-time order.** At every moment of a run, the raw operations, iterations and
transactions begun so far are in a serial order that explains all results. The order only
grows: what begins later comes after what has begun, and what is over stays as it was. -/
theorem store_serializable_in_real_time
    (hrun : Run refuse (startClients debug clients s) events c)
    {events' : List (ι × Event (storeActions S G ρ debug) (Option ℕ))}
    (hbegins : events' <+: events) :
    ∃ c', Run refuse (startClients debug clients s) events' c' ∧
      SerialClients clients s events' c' (sectionsOf events') ∧
      Extends (sectionsOf events') (sectionsOf events) := by
  obtain ⟨c', hrun'⟩ := hrun.of_prefix hbegins
  exact ⟨c', hrun', serialClients_of_run hrun', sectionsOf_extends hbegins⟩

end

/-- The order has the section of the iterator already while it is alive. -/
theorem iterationRun_real_time :
    ∃ c', Run (fun _ _ => false) (startClients true iterateAndInsert ⟨false, Storage.new⟩)
        (iterationRun.1.take 7) c' ∧
      SerialClients iterateAndInsert ⟨false, Storage.new⟩ (iterationRun.1.take 7) c'
        (sectionsOf (iterationRun.1.take 7)) ∧
      Extends (sectionsOf (iterationRun.1.take 7)) (sectionsOf iterationRun.1) :=
  store_serializable_in_real_time (run_runSchedule _ _ _) (List.take_prefix 7 _)

end TsKvstore
