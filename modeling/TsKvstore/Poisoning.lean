import TsKvstore.Clients
import TsKvstore.IndexMaintenance
import TsKvstore.Lib.LockInvariant

/-!
# Consistency and poisoning

A write guard that is dropped in a panic which has begun under it poisons the lock of a
store, and every later `unwrap` of a guard panics. So a storage that such a panic has left
inconsistent is not seen by anyone: an invariant that the clients keep on their own holds
whenever a client gets into the store.
-/

namespace TsKvstore

open FiniteMaps Machines RwLocks

variable {S : Schema} {G : Singletons} {ρ : Type} {debug : Bool}

/-! ## The contract of a store -/

/-- The actions that use the storage behind the lock. -/
def StoreAct.usesStorage : StoreAct S G ρ → Bool
  | isPoisoned | poison => false
  | request _ | newIter _ | nextItem _ _ => true

/-- The storage of a lock that is not poisoned is as `Rest` states it while no write
guard is held, and as `Use` states it when it is used. -/
def storeContract (debug : Bool) (Rest Use : Storage S G → Prop) :
    Contract (storeActions S G ρ debug) where
  inv s := s.poisoned = true ∨ Rest s.storage
  pre a s := StoreAct.usesStorage a = true → s.poisoned = false ∧ Use s.storage

/-- The client on its own keeps the storage as `Rest` states it outside its transactions,
and as `Use` states it when it uses it. -/
def Client.Keeps (debug : Bool) (Rest Use : Storage S G → Prop) (client : Client S G ρ) : Prop :=
  ∀ s, (client.start debug).Keeps (storeContract debug Rest Use) (fun _ => none) s

section

variable {Rest Use Good : Storage S G → Prop} {held : Option ℕ → Option Mode}

/-- `unwrap` of a lock that has been acquired. -/
theorem keeps_unwrapGuard {h : Option ℕ} {mode : Mode} {s : LockedStorage S G}
    {poisoned next : StoreProg S G ρ debug} (hfresh : held h = none)
    (hpoisoned : poisoned.Keeps (storeContract debug Rest Use) held s)
    (hnext : s.poisoned = false →
      next.Keeps (storeContract debug Rest Use) (Function.update held h (some mode)) s) :
    (unwrapGuard h poisoned next).Keeps (storeContract debug Rest Use)
      (Function.update held h (some mode)) s := by
  intro mode' hheld hmode
  refine ⟨nofun, ?_⟩
  obtain ⟨flag, storage⟩ := s
  cases flag with
  | true =>
    refine fun mode'' _ => ⟨fun _ => Or.inl rfl, ?_⟩
    rw [Function.update_idem, ← hfresh, Function.update_eq_self]
    exact hpoisoned
  | false => exact hnext rfl

/-- A thread between two calls of its client: the lock of a storage that it has a guard
for is not poisoned, and the storage is good. -/
structure BetweenCalls (Good : Storage S G → Prop) (held : Option ℕ → Option Mode)
    (s : LockedStorage S G) : Prop where
  /-- No raw operation is under way. -/
  raw : held none = none
  /-- A write guard is the only one. -/
  alone : ∀ h, held h = some .write → ∀ h', h' ≠ h → held h' = none
  /-- The storage behind the guards. -/
  good : ∀ h, held h ≠ none → s.poisoned = false ∧ Good s.storage

namespace BetweenCalls

variable {s s' : LockedStorage S G} {h : Option ℕ}

/-- A client without a transaction is between calls. -/
theorem start (s : LockedStorage S G) : BetweenCalls Good (fun _ => none) s :=
  ⟨rfl, nofun, fun _ hheld => absurd rfl hheld⟩

/-- Without guards the storage may be anything. -/
theorem of_idle (hidle : ∀ h, held h = none) (s : LockedStorage S G) :
    BetweenCalls Good held s := by
  obtain rfl : held = fun _ => none := funext hidle
  exact start s

/-- The storage in which the next guard is granted. -/
theorem of_finds (hb : BetweenCalls Good held s)
    (hfinds : (storeContract (ρ := ρ) debug Rest Use).Finds held s s') :
    BetweenCalls Good held s' := by
  refine ⟨hb.raw, hb.alone, fun h hheld => ?_⟩
  rw [hfinds.2 h hheld]
  exact hb.good h hheld

/-- A guard for a good storage. -/
theorem grant (hb : BetweenCalls Good held s) {h : ℕ} {mode : Mode}
    (hadmits : Admits held (some h) mode) (hflag : s.poisoned = false) (hgood : Good s.storage) :
    BetweenCalls Good (Function.update held (some h) (some mode)) s where
  raw := by
    rw [Function.update_of_ne (Option.some_ne_none h).symm]
    exact hb.raw
  alone h₁ hwrite h₂ hne := by
    by_cases h₁h : h₁ = some h
    · subst h₁h
      rw [Function.update_self] at hwrite
      cases hwrite
      rw [Function.update_of_ne hne]
      exact hadmits h₂
    · rw [Function.update_of_ne h₁h] at hwrite
      cases mode with
      | read => exact absurd hwrite (hadmits.2 h₁)
      | write => cases (hadmits h₁).symm.trans hwrite
  good _ _ := ⟨hflag, hgood⟩

/-- One guard less. -/
theorem release (hb : BetweenCalls Good held s) (h : Option ℕ) :
    BetweenCalls Good (Function.update held h none) s := by
  have hfewer : ∀ h' mode, Function.update held h none h' = some mode → held h' = some mode := by
    intro h' mode hheld
    by_cases hh : h' = h
    · subst hh
      rw [Function.update_self] at hheld
      cases hheld
    · rwa [Function.update_of_ne hh] at hheld
  have hnone : ∀ h', held h' = none → Function.update held h none h' = none := by
    intro h' hheld
    refine Option.eq_none_iff_forall_ne_some.mpr fun mode hsome => ?_
    cases hheld.symm.trans (hfewer h' mode hsome)
  refine ⟨hnone none hb.raw, fun h₁ hwrite h₂ hne => ?_, fun h' hheld => ?_⟩
  · exact hnone h₂ (hb.alone h₁ (hfewer h₁ _ hwrite) h₂ hne)
  · exact hb.good h' fun hheld' => hheld (hnone h' hheld')

/-- Without its write guard a thread has none. -/
theorem idle_of_write (hb : BetweenCalls Good held s) (hwrite : held h = some .write)
    (h' : Option ℕ) : Function.update held h none h' = none := by
  by_cases hh : h' = h
  · subst hh
    exact Function.update_self ..
  · rw [Function.update_of_ne hh]
    exact hb.alone h hwrite h' hh

end BetweenCalls

/-! ## Clients that keep the storage good -/

/-- Each call of the client keeps the storage good, or it panics and the panic leaves the
scope of the guard. A panic in a raw operation always does, and it poisons the lock unless
the thread was panicking before. -/
def Client.Protects (debug : Bool) (Good : Storage S G → Prop) : Client S G ρ → Prop
  | .done => True
  | .raw panicking r next =>
    (∀ s, Good s → Good (r.exec debug s).2 ∨
      panicking = false ∧ ∃ panic, (r.exec debug s).1 = .error panic) ∧
      ∀ result, (next result).Protects debug Good
  | .newIter _ _ next => ∀ result, (next result).Protects debug Good
  | .nextItem _ _ _ next => ∀ item cursor, (next item cursor).Protects debug Good
  | .dropIter _ next => next.Protects debug Good
  | .beginTransaction _ _ next => ∀ result, (next result).Protects debug Good
  | .tryBeginTransaction _ _ next => ∀ result, (next result).Protects debug Good
  | .call h c next =>
    (∀ owner s, Good s → Good (c.exec debug owner s).2 ∨
      ∃ rest, next (c.exec debug owner s).1 = .endTransaction h true rest) ∧
      ∀ result, (next result).Protects debug Good
  | .endTransaction _ _ next => next.Protects debug Good
  | .beginRoTransaction _ _ next => ∀ result, (next result).Protects debug Good
  | .tryBeginRoTransaction _ _ next => ∀ result, (next result).Protects debug Good
  | .readCall _ _ _ next => ∀ result, (next result).Protects debug Good
  | .endRoTransaction _ next => next.Protects debug Good

/-- A guard for a client, once the lock turns out not to be poisoned. -/
theorem BetweenCalls.keeps_lock {s s' : LockedStorage S G} (hb : BetweenCalls Good held s)
    {h : ℕ} {mode : Mode} {poisoned next : StoreProg S G ρ debug}
    (hpoisoned : ∀ held s, BetweenCalls Good held s →
      poisoned.Keeps (storeContract debug Good Good) held s)
    (hnext : ∀ held s, BetweenCalls Good held s →
      next.Keeps (storeContract debug Good Good) held s)
    (hadmits : Admits held (some h) mode)
    (hfinds : (storeContract (ρ := ρ) debug Good Good).Finds held s s') :
    (unwrapGuard (some h) poisoned next).Keeps (storeContract debug Good Good)
      (Function.update held (some h) (some mode)) s' := by
  have hb' := hb.of_finds hfinds
  refine keeps_unwrapGuard hadmits.fresh (hpoisoned held s' hb') fun hflag => ?_
  have hgood : Good s'.storage := hfinds.1.resolve_left (by simp [hflag])
  exact hnext _ s' (hb'.grant hadmits hflag hgood)

/-- The release of a guard for a good storage. -/
theorem BetweenCalls.keeps_release {s : LockedStorage S G} (hb : BetweenCalls Good held s)
    {h : Option ℕ} {next : StoreProg S G ρ debug}
    (hnext : ∀ held s, BetweenCalls Good held s →
      next.Keeps (storeContract debug Good Good) held s) :
    (Prog.release h next).Keeps (storeContract debug Good Good) held s := by
  intro mode hheld
  refine ⟨fun _ => Or.inr (hb.good h ?_).2, hnext _ s (hb.release h)⟩
  rw [hheld]
  exact Option.some_ne_none mode

/-- The release of a write guard in a panic. -/
theorem BetweenCalls.keeps_unwind {s : LockedStorage S G} (hb : BetweenCalls Good held s)
    {h : Option ℕ} {next : StoreProg S G ρ debug}
    (hnext : ∀ held s, BetweenCalls Good held s →
      next.Keeps (storeContract debug Good Good) held s) (s' : LockedStorage S G) :
    (perform h .poison fun _ => .release h next).Keeps (storeContract debug Good Good) held s' := by
  intro mode hheld hmode
  obtain rfl : mode = .write := hmode.resolve_right nofun
  refine ⟨nofun, fun _ _ => ⟨fun _ => Or.inl rfl, ?_⟩⟩
  exact hnext _ _ (.of_idle (hb.idle_of_write hheld) _)

/-- The guard of a raw read is dropped without a look at the flag. -/
theorem releaseRaw_read {α : Type} (panicking : Bool) (result : Except Panic α)
    (next : StoreProg S G ρ debug) :
    releaseRaw panicking .read result next = .release none next := by
  unfold releaseRaw
  cases hpoisons : poisonsLock panicking .read result with
  | true => cases mode_of_poisonsLock hpoisons
  | false => rfl

/-- A raw operation, once its guard is granted. -/
theorem BetweenCalls.keeps_raw {s s' : LockedStorage S G} (hb : BetweenCalls Good held s)
    {panicking : Bool} {r : Request S G ρ}
    {next : Except Panic r.call.Ret → StoreProg S G ρ debug}
    (hr : ∀ s, Good s → Good (r.exec debug s).2 ∨
      panicking = false ∧ ∃ panic, (r.exec debug s).1 = .error panic)
    (hnext : ∀ result held s, BetweenCalls Good held s →
      (next result).Keeps (storeContract debug Good Good) held s)
    (hadmits : Admits held none r.call.mode)
    (hfinds : (storeContract (ρ := ρ) debug Good Good).Finds held s s') :
    (unwrapGuard none (next (.error .poisoned)) <|
      perform none (.request r) fun result =>
        releaseRaw panicking r.call.mode result (next result)).Keeps
        (storeContract debug Good Good) (Function.update held none (some r.call.mode)) s' := by
  have hb' := hb.of_finds hfinds
  have hback : Function.update (Function.update held none (some r.call.mode)) none none = held := by
    rw [Function.update_idem, ← hb.raw, Function.update_eq_self]
  refine keeps_unwrapGuard hb.raw (hnext _ held s' hb') fun hflag mode _ _ => ?_
  have hgood : Good s'.storage := hfinds.1.resolve_left (by simp [hflag])
  refine ⟨fun _ => ⟨hflag, hgood⟩, ?_⟩
  set s'' : LockedStorage S G := { s' with storage := (r.exec debug s'.storage).2 }
  change (releaseRaw panicking r.call.mode (r.exec debug s'.storage).1
    (next (r.exec debug s'.storage).1)).Keeps _ _ s''
  have hrelease : BetweenCalls Good held s'' → Good s''.storage →
      (Prog.release none (next (r.exec debug s'.storage).1)).Keeps (storeContract debug Good Good)
        (Function.update held none (some r.call.mode)) s'' := by
    refine fun hb'' hgood'' mode' _ => ⟨fun _ => Or.inr hgood'', ?_⟩
    rw [hback]
    exact hnext _ held s'' hb''
  cases hread : r.call.isRead with
  | true =>
    have hmode : r.call.mode = .read := if_pos hread
    have hsame : s'' = s' := by
      have hstorage : (r.exec debug s'.storage).2 = s'.storage := StoreCall.exec_of_isRead hread
      simp [s'', hstorage]
    rw [hsame] at hrelease ⊢
    rw [hmode] at hrelease ⊢
    rw [releaseRaw_read]
    exact hrelease hb' hgood
  | false =>
    have hmode : r.call.mode = .write := if_neg (by simp [hread])
    rw [hmode] at hadmits hrelease hback ⊢
    have hidle : ∀ s, BetweenCalls Good held s := .of_idle hadmits
    unfold releaseRaw
    cases hpoisons : poisonsLock panicking .write (r.exec debug s'.storage).1 with
    | true =>
      refine fun _ _ _ => ⟨nofun, fun _ _ => ⟨fun _ => Or.inl rfl, ?_⟩⟩
      rw [hback]
      exact hnext _ held _ (hidle _)
    | false =>
      refine hrelease (hidle s'') ((hr s'.storage hgood).resolve_right ?_)
      rintro ⟨rfl, panic, hresult⟩
      rw [hresult] at hpoisons
      cases hpoisons

/-- A client that lets a panic leave the scope of its write guard. -/
theorem BetweenCalls.keeps_leave {s : LockedStorage S G} (hb : BetweenCalls Good held s)
    {client : Client S G ρ} {owners : ℕ → Owner}
    (hclient : ∀ held s, BetweenCalls Good held s →
      (client.prog debug owners).Keeps (storeContract debug Good Good) held s)
    {h : ℕ} (hend : ∃ rest, client = .endTransaction h true rest) (s' : LockedStorage S G) :
    (client.prog debug owners).Keeps (storeContract debug Good Good) held s' := by
  obtain ⟨rest, rfl⟩ := hend
  -- Had the last call kept the storage good, the client would go on in the same way.
  have hgood := hclient held s hb
  intro mode hheld hmode
  obtain rfl : mode = .write := hmode.resolve_right nofun
  refine ⟨nofun, fun mode' hheld' => ⟨fun _ => Or.inl rfl, ?_⟩⟩
  have hrest := ((hgood .write hheld (Or.inl rfl)).2 mode' hheld').2
  exact hrest.of_idle (hb.idle_of_write hheld) _

/-- The program of a client that keeps the storage good keeps the contract. -/
theorem Client.Protects.keeps_prog {client : Client S G ρ} (hclient : client.Protects debug Good)
    (owners : ℕ → Owner) {s : LockedStorage S G} (hb : BetweenCalls Good held s) :
    (client.prog debug owners).Keeps (storeContract debug Good Good) held s := by
  induction client generalizing owners held s with
  | done => trivial
  | raw panicking r next ih =>
    intro s' hadmits hfinds
    exact hb.keeps_raw hclient.1 (fun result _ _ => ih result (hclient.2 result) owners) hadmits
      hfinds
  | newIter h it next ih =>
    intro s' hadmits hfinds
    have hb' := hb.of_finds hfinds
    refine keeps_unwrapGuard hadmits.fresh (ih _ (hclient _) owners hb') fun hflag mode _ _ => ?_
    have hgood : Good s'.storage := hfinds.1.resolve_left (by simp [hflag])
    exact ⟨fun _ => ⟨hflag, hgood⟩, ih _ (hclient _) owners (hb'.grant hadmits hflag hgood)⟩
  | nextItem h it cursor next ih =>
    intro mode hheld _
    have hheld' : held (some h) ≠ none := by simp [hheld]
    exact ⟨fun _ => hb.good _ hheld', ih _ _ (hclient _ _) owners hb⟩
  | dropIter h next ih => exact hb.keeps_release fun _ _ => ih hclient owners
  | beginTransaction h owner next ih =>
    exact fun s' => hb.keeps_lock (fun _ _ => ih _ (hclient _) owners)
      fun _ _ => ih _ (hclient _) _
  | tryBeginTransaction h owner next ih =>
    refine ⟨fun s' => ?_, ih _ (hclient _) owners hb⟩
    exact hb.keeps_lock (fun _ _ => ih _ (hclient _) owners) fun _ _ => ih _ (hclient _) _
  | call h c next ih =>
    intro mode hheld hmode
    have hheld' : held (some h) ≠ none := by simp [hheld]
    obtain ⟨hflag, hgood⟩ := hb.good _ hheld'
    refine ⟨fun _ => ⟨hflag, hgood⟩, ?_⟩
    rcases hclient.1 (owners h) s.storage hgood with hgood' | hend
    · exact ih _ (hclient.2 _) owners ⟨hb.raw, hb.alone, fun _ _ => ⟨hflag, hgood'⟩⟩
    · exact hb.keeps_leave (fun _ _ => ih _ (hclient.2 _) owners) hend _
  | endTransaction h unwinding next ih =>
    cases unwinding with
    | true => exact hb.keeps_unwind (fun _ _ => ih hclient owners) s
    | false => exact hb.keeps_release fun _ _ => ih hclient owners
  | beginRoTransaction h owner next ih =>
    exact fun s' => hb.keeps_lock (fun _ _ => ih _ (hclient _) owners)
      fun _ _ => ih _ (hclient _) _
  | tryBeginRoTransaction h owner next ih =>
    refine ⟨fun s' => ?_, ih _ (hclient _) owners hb⟩
    exact hb.keeps_lock (fun _ _ => ih _ (hclient _) owners) fun _ _ => ih _ (hclient _) _
  | readCall h c hread next ih =>
    intro mode hheld _
    have hheld' : held (some h) ≠ none := by simp [hheld]
    have hsame : (c.exec debug (owners h) s.storage).2 = s.storage := StoreCall.exec_of_isRead hread
    refine ⟨fun _ => hb.good _ hheld', ih _ (hclient _) owners ⟨hb.raw, hb.alone, fun h' hh => ?_⟩⟩
    change s.poisoned = false ∧ Good (c.exec debug (owners h) s.storage).2
    rw [hsame]
    exact hb.good h' hh
  | endRoTransaction h next ih => exact hb.keeps_release fun _ _ => ih hclient owners

/-- A client whose calls keep the storage good does so on its own. -/
theorem Client.Protects.keeps {client : Client S G ρ} (hclient : client.Protects debug Good) :
    client.Keeps debug Good Good :=
  fun s => hclient.keeps_prog _ (.start s)

end

/-! ## What programs always do -/

section

variable {P : Option ℕ → (a : StoreAct S G ρ) → (a.Ret → StoreProg S G ρ debug) → Prop}
  {h : Option ℕ} {poisoned next : StoreProg S G ρ debug}

/-- What holds before and after a guard is unwrapped always holds. -/
theorem always_unwrapGuard (hflag : ∀ h a next, StoreAct.usesStorage a = false → P h a next)
    (hpoisoned : poisoned.Always P) (hnext : next.Always P) :
    (unwrapGuard h poisoned next).Always P := by
  refine ⟨hflag _ _ _ rfl, fun isPoisoned => ?_⟩
  cases isPoisoned with
  | true => exact hpoisoned
  | false => exact hnext

/-- What holds before and after the lock is tried always holds. -/
theorem always_tryLock (hflag : ∀ h a next, StoreAct.usesStorage a = false → P h a next)
    {mode : Mode} {busy : StoreProg S G ρ debug} (hbusy : busy.Always P)
    (hpoisoned : poisoned.Always P) (hnext : next.Always P) :
    (tryLock h mode busy poisoned next).Always P := by
  intro granted
  cases granted with
  | true => exact always_unwrapGuard hflag hpoisoned hnext
  | false => exact hbusy

/-- What holds after a raw operation always holds. -/
theorem always_releaseRaw (hflag : ∀ h a next, StoreAct.usesStorage a = false → P h a next)
    {α : Type} (panicking : Bool) (mode : Mode) (result : Except Panic α)
    (hnext : next.Always P) : (releaseRaw panicking mode result next).Always P := by
  unfold releaseRaw
  cases poisonsLock panicking mode result with
  | true => exact ⟨hflag _ _ _ rfl, fun _ => hnext⟩
  | false => exact hnext

end

/-! ## Consistency -/

section

variable {ι : Type} [DecidableEq ι] {Rest Use : Storage S G → Prop} {clients : ι → Client S G ρ}
  {s : LockedStorage S G} {refuse : Config (storeActions S G ρ debug) ι (Option ℕ) → ι → Bool}
  {events : List (ι × Event (storeActions S G ρ debug) (Option ℕ))}
  {c : Config (storeActions S G ρ debug) ι (Option ℕ)}

/-- Clients that keep an invariant on their own keep it together. -/
theorem startClients_keeps (hclients : ∀ i, (clients i).Keeps debug Rest Use)
    (hs : s.poisoned = true ∨ Rest s.storage)
    (hrun : Run refuse (startClients debug clients s) events c) :
    ∃ held, c.Keeps (storeContract debug Rest Use) held :=
  hrun.keeps hs fun i => hclients i s

/-- **Consistency.** If each client on its own takes storages with an invariant to
storages with the invariant, however it breaks it inside a transaction, then in every
interleaving whoever is granted a guard finds the invariant or a poisoned lock, and all
that is read under a read guard is read from a storage with the invariant. -/
theorem invariant_when_granted (hclients : ∀ i, (clients i).Keeps debug Rest fun _ => True)
    (hs : s.poisoned = true ∨ Rest s.storage)
    (hrun : Run refuse (startClients debug clients s) events c) (i : ι) (h : Option ℕ) :
    (∀ mode c', Step refuse c i (.grant h mode) c' →
      c.state.poisoned = true ∨ Rest c.state.storage) ∧
    ∀ a result c', Step refuse c i (.exec h a result) c' → ⟨i, h, .read⟩ ∈ c.guards →
      StoreAct.usesStorage a = true → Rest c.state.storage := by
  obtain ⟨held, hc⟩ := startClients_keeps hclients hs hrun
  constructor
  · intro mode c' hstep
    cases hstep with
    | grant _ hgrants => exact (hc.finds hgrants).1
  · intro a result c' hstep hread huses
    have hshared : ∀ g ∈ c.guards, g.mode = .read := by
      intro g hg
      cases hmode : g.mode with
      | read => rfl
      | write =>
        have hsame := hc.guardedBy.exclusive g hg hmode _ hread
        rw [← hsame] at hmode
        cases hmode
    have hflag := (hc.pre_of_exec hstep huses).1
    exact (hc.inv hshared).resolve_left (by simp [hflag])

end

/-- A panic in a transaction leaves its scope. -/
def Client.orUnwind {α : Type} (h : ℕ) (next : α → Client S G ρ) :
    Except Panic α → Client S G ρ
  | .error _ => .endTransaction h true .done
  | .ok value => next value

section

variable {t : S.Name}

/-- A client that inserts two rows in one transaction. -/
def insertBoth (owner : Owner) (k k' : S.Key t) (v v' : S.Value t) : Client S G ρ :=
  .beginTransaction 0 owner <| .unlessPanic fun _ =>
    .call 0 (.table t (.insert k v)) <| .orUnwind 0 fun _ =>
    .call 0 (.table t (.insert k' v')) <| .orUnwind 0 fun _ =>
    .endTransaction 0 false .done

/-- Both rows are there, or neither. -/
def BothOrNeither (k k' : S.Key t) (s : Storage S G) : Prop :=
  (s.tables t).data.lookup k = none ↔ (s.tables t).data.lookup k' = none

/-- A call in a transaction that lets panics leave its scope. -/
theorem keeps_call_orUnwind {Rest : Storage S G → Prop} {held : Option ℕ → Option Mode} {h : ℕ}
    {call : StoreCall S G ρ} {next : call.Ret → Client S G ρ} {owners : ℕ → Owner}
    {s : LockedStorage S G} (hflag : s.poisoned = false)
    (hnext : ∀ value, (call.exec debug (owners h) s.storage).1 = .ok value →
      ((next value).prog debug owners).Keeps (storeContract debug Rest fun _ => True) held
        { s with storage := (call.exec debug (owners h) s.storage).2 }) :
    ((Client.call h call (.orUnwind h next)).prog debug owners).Keeps
      (storeContract debug Rest fun _ => True) held s := by
  refine fun _ _ _ => ⟨fun _ => ⟨hflag, trivial⟩, ?_⟩
  cases hresult : (call.exec debug (owners h) s.storage).1 with
  | error panic =>
    have hend : ∀ s', ((Client.endTransaction (ρ := ρ) h true .done).prog debug owners).Keeps
        (storeContract debug Rest fun _ => True) held s' :=
      fun _ _ _ _ => ⟨nofun, fun _ _ => ⟨fun _ => Or.inl rfl, trivial⟩⟩
    exact hresult ▸ hend _
  | ok value => exact hresult ▸ hnext value hresult

/-- An insertion that returns writes its row. -/
theorem data_of_insert_returns {owner : Owner} {s : Storage S G} {key : S.Key t}
    {value : S.Value t} {old : Option (S.Value t)}
    (hreturns : ((StoreCall.table t (.insert key value) : StoreCall S G ρ).exec debug owner s).1 =
      .ok old) :
    (((StoreCall.table t (.insert key value) : StoreCall S G ρ).exec debug owner s).2.tables t).data
      = (s.tables t).data.insert key value := by
  rcases (s.tables t).accepts_or_refuses debug owner with h | ⟨prevOwner, h⟩
  · simp only [StoreCall.exec, Storage.setTable_tables_self]
    exact congrArg (fun r => r.2.data) (TabularOpsMut.insert_of_accepts h key value)
  · have hpanics := congrArg Prod.fst (TabularOpsMut.insert_of_refuses h key value)
    cases hpanics.symm.trans hreturns

/-- Between the insertions only one of the rows may be there. -/
theorem insertBoth_keeps (owner : Owner) {k k' : S.Key t} (hne : k ≠ k') (v v' : S.Value t) :
    (insertBoth owner k k' v v' : Client S G ρ).Keeps debug (BothOrNeither k k') fun _ => True := by
  intro s s' hadmits hfinds
  refine keeps_unwrapGuard hadmits.fresh trivial fun hflag => ?_
  refine keeps_call_orUnwind hflag fun old hfirst => ?_
  refine keeps_call_orUnwind hflag fun old' hsecond => ?_
  refine fun _ _ => ⟨fun _ => Or.inr ?_, trivial⟩
  unfold BothOrNeither
  rw [data_of_insert_returns hsecond, data_of_insert_returns hfirst]
  refine iff_of_false ?_ ?_
  · rw [Finmap.lookup_insert_of_ne _ hne, Finmap.lookup_insert]
    exact Option.some_ne_none v
  · rw [Finmap.lookup_insert]
    exact Option.some_ne_none v'

end

/-- Two clients insert the same two people, and the second waits for the first. -/
def bothRun :=
  runSchedule (fun _ _ => false) [false, false, false, false, false, true]
    (startClients true (fun _ : Bool => (insertBoth "owner" (t := People) (1 : UInt32) (2 : UInt32)
      (People.person "a@example.com" [97]) (People.person "b@example.com" [98]) :
        Client people noSingletons Unit)) ⟨false, Storage.new⟩)

/-- Nobody gets into the store while one person of the two is missing. -/
theorem bothRun_invariant_when_granted :
    (∀ mode c', Step (fun _ _ => false) bothRun.2 true (.grant (some 0) mode) c' →
      bothRun.2.state.poisoned = true ∨
        BothOrNeither (t := People) (1 : UInt32) (2 : UInt32) bothRun.2.state.storage) ∧
    ∀ a result c', Step (fun _ _ => false) bothRun.2 true (.exec (some 0) a result) c' →
      ⟨true, some 0, .read⟩ ∈ bothRun.2.guards → StoreAct.usesStorage a = true →
        BothOrNeither (t := People) (1 : UInt32) (2 : UInt32) bothRun.2.state.storage :=
  invariant_when_granted (s := ⟨false, Storage.new⟩)
    (fun _ => insertBoth_keeps "owner" (t := People) (by decide : (1 : UInt32) ≠ 2) _ _)
    (Or.inr (iff_of_true rfl rfl)) (run_runSchedule _ _ _) true (some 0)

/-! ## Broken indexes -/

/-- The client writes no index table through its own handle. When a closure unwinds in a
transaction, it lets the panic leave the scope, and while its thread is panicking, the
closures of its raw operations do not unwind. -/
def Client.LetsUnwind : Client S G ρ → Prop
  | .done => True
  | .raw panicking r next =>
    ¬ r.call.WritesIndexTable ∧ (panicking = true → r.call.NonPanicking) ∧
      ∀ result, (next result).LetsUnwind
  | .newIter _ _ next => ∀ result, (next result).LetsUnwind
  | .nextItem _ _ _ next => ∀ item cursor, (next item cursor).LetsUnwind
  | .dropIter _ next => next.LetsUnwind
  | .beginTransaction _ _ next => ∀ result, (next result).LetsUnwind
  | .tryBeginTransaction _ _ next => ∀ result, (next result).LetsUnwind
  | .call h c next =>
    ¬ c.WritesIndexTable ∧ (∃ rest, next (.error .closure) = .endTransaction h true rest) ∧
      ∀ result, (next result).LetsUnwind
  | .endTransaction _ _ next => next.LetsUnwind
  | .beginRoTransaction _ _ next => ∀ result, (next result).LetsUnwind
  | .tryBeginRoTransaction _ _ next => ∀ result, (next result).LetsUnwind
  | .readCall _ _ _ next => ∀ result, (next result).LetsUnwind
  | .endRoTransaction _ next => next.LetsUnwind

/-- A request that does not unwind in a closure keeps every index sound. -/
theorem Request.exec_sound_of_ne {r : Request S G ρ} (hdirect : ¬ r.call.WritesIndexTable)
    {s : Storage S G} (hs : s.Sound) (hreturns : (r.exec debug s).1 ≠ .error .closure) :
    (r.exec debug s).2.Sound :=
  fun t i => ((r.tableStep debug s t).effect (fun _ => hreturns) hdirect hs).soundAt (hs t i)

/-- A closure that unwinds may break an index. -/
theorem Client.LetsUnwind.protects {client : Client S G ρ} (hclient : client.LetsUnwind) :
    client.Protects debug Storage.Sound := by
  induction client with
  | done => trivial
  | raw panicking r next ih =>
    obtain ⟨hdirect, hcalm, hnext⟩ := hclient
    refine ⟨fun s hs => ?_, fun result => ih result (hnext result)⟩
    cases panicking with
    | true => exact Or.inl (Request.exec_sound ⟨hcalm rfl, hdirect⟩ hs)
    | false =>
      by_cases hresult : (r.exec debug s).1 = .error .closure
      · exact Or.inr ⟨rfl, .closure, hresult⟩
      · exact Or.inl (r.exec_sound_of_ne hdirect hs hresult)
  | call h c next ih =>
    refine ⟨fun owner s hs => ?_, fun result => ih result (hclient.2.2 result)⟩
    by_cases hresult : (c.exec debug owner s).1 = .error .closure
    · rw [hresult]
      exact Or.inr hclient.2.1
    · exact Or.inl (Request.exec_sound_of_ne (r := ⟨owner, c⟩) hclient.1 hs hresult)
  | nextItem h it cursor next ih => exact fun item cursor => ih item cursor (hclient item cursor)
  | dropIter h next ih => exact ih hclient
  | endTransaction h unwinding next ih => exact ih hclient
  | endRoTransaction h next ih => exact ih hclient
  | newIter h it next ih => exact fun result => ih result (hclient result)
  | beginTransaction h owner next ih => exact fun result => ih result (hclient result)
  | tryBeginTransaction h owner next ih => exact fun result => ih result (hclient result)
  | beginRoTransaction h owner next ih => exact fun result => ih result (hclient result)
  | tryBeginRoTransaction h owner next ih => exact fun result => ih result (hclient result)
  | readCall h c hread next ih => exact fun result => ih result (hclient result)

section

variable {ι : Type} [DecidableEq ι] {clients : ι → Client S G ρ} {s : LockedStorage S G}
  {refuse : Config (storeActions S G ρ debug) ι (Option ℕ) → ι → Bool}
  {events : List (ι × Event (storeActions S G ρ debug) (Option ℕ))}
  {c : Config (storeActions S G ρ debug) ι (Option ℕ)}

/-- **Poisoning hides broken indexes.** Closures may unwind, but not in what a thread does
while it is panicking, and no client writes an index table through the table's own handle.
If the panic leaves the transaction, then in every interleaving each call and each step of
an iterator is executed on a storage with sound indexes. -/
theorem broken_indexes_stay_hidden (hclients : ∀ i, (clients i).LetsUnwind)
    (hs : s.poisoned = true ∨ s.storage.Sound)
    (hrun : Run refuse (startClients debug clients s) events c) {i : ι} {h : Option ℕ}
    {a : StoreAct S G ρ} {result : a.Ret} {c' : Config (storeActions S G ρ debug) ι (Option ℕ)}
    (hstep : Step refuse c i (.exec h a result) c') (huses : a.usesStorage = true) :
    c.state.poisoned = false ∧ c.state.storage.Sound := by
  obtain ⟨held, hc⟩ := startClients_keeps (fun i => (hclients i).protects.keeps) hs hrun
  exact hc.pre_of_exec hstep huses

end

/-- A client whose closure unwinds in a transaction. -/
def unwindInTransaction : Client people noSingletons Unit :=
  .beginTransaction 0 "owner" <| .unlessPanic fun _ =>
    .call 0 (.table People (.mutate (1 : UInt32) fun person => (person, none))) <|
      .orUnwind 0 fun _ => .endTransaction 0 false .done

/-- A client that changes the second person through the index on the first field. -/
def mutateByEmail : Client people noSingletons Unit :=
  .raw false ⟨"owner", .tableBy People People.email (.mutate "c@example.com"
    fun _ => (People.person "d@example.com" [100], some ()))⟩ fun _ => .done

/-- The first client panics in its transaction. -/
def panicRun :=
  runSchedule (fun _ _ => false) [false, false, false, true, false, false, false]
    (startClients true (fun i : Bool => if i then mutateByEmail else unwindInTransaction)
      ⟨false, peopleStorage⟩)

/-- Both clients let a panic leave its transaction. -/
theorem panicRun_clients_letUnwind (i : Bool) :
    (if i then mutateByEmail else unwindInTransaction).LetsUnwind := by
  cases i with
  | false =>
    refine fun result => ?_
    cases result with
    | error panic => trivial
    | ok value =>
      refine ⟨id, ⟨_, rfl⟩, fun result => ?_⟩
      cases result <;> trivial
  | true => exact ⟨id, nofun, fun _ => trivial⟩

/-- Before the call that panics. -/
theorem panicRun_index_sound :
    let c := (runSchedule (fun _ _ => false) [false, false, false, true]
      (startClients true (fun i : Bool => if i then mutateByEmail else unwindInTransaction)
        ⟨false, peopleStorage⟩)).2
    c.state.poisoned = false ∧ c.state.storage.Sound :=
  broken_indexes_stay_hidden (s := ⟨false, peopleStorage⟩) panicRun_clients_letUnwind
    (Or.inr (sound_stateAfter peopleRun_maintained Storage.new_sound)) (run_runSchedule _ _ _)
    (i := false) (step_of_fire rfl) rfl

end TsKvstore
