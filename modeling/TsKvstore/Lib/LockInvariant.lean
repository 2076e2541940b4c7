import TsKvstore.Lib.LockProgress

/-!
# Invariants behind a read-write lock

A contract states an invariant of the shared state, and for each action what holds of
the state when it is executed. A thread that holds a guard knows the state, since no
other thread changes it. Under a write guard it may break the invariant, and it
restores it before it releases the guard. If the program of every thread keeps the
contract on its own, so do the threads together, in every interleaving.
-/

namespace RwLocks

open Machines

universe u

variable {St : Type u} {ι H : Type*} {A : Actions St}

/-! ## Contracts -/

/-- What programs rely on and have to keep. -/
structure Contract (A : Actions St) where
  /-- What holds of the state while no write guard is held. -/
  inv : St → Prop
  /-- What holds of the state when an action is executed. -/
  pre : A.Act → St → Prop

/-- A thread with the guards `held` can get another one. -/
def Admits (held : H → Option Mode) (h : H) : Mode → Prop
  | .read => held h = none ∧ ∀ h', held h' ≠ some .write
  | .write => ∀ h', held h' = none

/-- A guard is admitted under a new handle only. -/
theorem Admits.fresh {held : H → Option Mode} {h : H} {mode : Mode} (hadmits : Admits held h mode) :
    held h = none := by
  cases mode with
  | read => exact hadmits.1
  | write => exact hadmits h

/-- A thread that holds `held` and has seen the state `s` gets a guard in the state `s'`.
It is a state with the invariant, and the same one if the thread holds a guard. -/
def Contract.Finds (K : Contract A) (held : H → Option Mode) (s s' : St) : Prop :=
  K.inv s' ∧ ∀ h, held h ≠ none → s' = s

variable [DecidableEq H]

/-- A program with the guards `held` keeps a contract from the state `s` on. If it holds
no guard, the state does not matter. -/
def Prog.Keeps (K : Contract A) : Prog A H → (H → Option Mode) → St → Prop
  | .done, _, _ => True
  | .acquire h mode next, held, s =>
    ∀ s', Admits held h mode → K.Finds held s s' →
      next.Keeps K (Function.update held h (some mode)) s'
  | .tryAcquire h mode next, held, s =>
    (∀ s', Admits held h mode → K.Finds held s s' →
      (next true).Keeps K (Function.update held h (some mode)) s') ∧ (next false).Keeps K held s
  | .exec h a next, held, s =>
    ∀ mode, held h = some mode → (mode = .write ∨ A.isRead a = true) →
      K.pre a s ∧ (next (A.exec a s).1).Keeps K held (A.exec a s).2
  | .release h next, held, s =>
    ∀ mode, held h = some mode →
      (mode = .write → K.inv s) ∧ next.Keeps K (Function.update held h none) s

/-- A thread keeps a contract. -/
def Thread.Keeps (K : Contract A) : Thread A H → (H → Option Mode) → St → Prop
  | .running prog, held, s => prog.Keeps K held s
  | .waiting h mode next, held, s => (Prog.acquire h mode next).Keeps K held s

/-- A program without guards does not depend on the state. -/
theorem Prog.Keeps.of_idle {K : Contract A} {prog : Prog A H} {held : H → Option Mode} {s : St}
    (hkeeps : prog.Keeps K held s) (hidle : ∀ h, held h = none) (s' : St) :
    prog.Keeps K held s' := by
  have hfinds : ∀ s'', K.Finds held s' s'' → K.Finds held s s'' :=
    fun s'' hfound => ⟨hfound.1, fun h hheld => absurd (hidle h) hheld⟩
  induction prog with
  | done => trivial
  | acquire h mode next ih => exact fun s'' hadmits hfound => hkeeps s'' hadmits (hfinds s'' hfound)
  | tryAcquire h mode next ih =>
    refine ⟨fun s'' hadmits hfound => ?_, ih false hkeeps.2⟩
    exact hkeeps.1 s'' hadmits (hfinds s'' hfound)
  | exec h a next ih =>
    intro mode hheld
    rw [hidle h] at hheld
    cases hheld
  | release h next ih =>
    intro mode hheld
    rw [hidle h] at hheld
    cases hheld

/-- A thread without guards keeps the contract from every state. -/
theorem Thread.Keeps.of_idle {K : Contract A} {t : Thread A H} {held : H → Option Mode} {s : St}
    (hkeeps : t.Keeps K held s) (hidle : ∀ h, held h = none) (s' : St) : t.Keeps K held s' := by
  cases t with
  | running prog => exact Prog.Keeps.of_idle hkeeps hidle s'
  | waiting h mode next =>
    have hacquire : (Prog.acquire h mode next).Keeps K held s := hkeeps
    exact hacquire.of_idle hidle s'

variable [DecidableEq ι]

/-! ## The guards of the threads -/

/-- The guards that each thread holds, as the lock sees them. A write guard is the only
one. -/
structure Config.GuardedBy (c : Config A ι H) (held : ι → H → Option Mode) : Prop where
  /-- The guards. -/
  guards_iff : ∀ i h mode, ⟨i, h, mode⟩ ∈ c.guards ↔ held i h = some mode
  /-- A write guard excludes every other guard. -/
  exclusive : ∀ g ∈ c.guards, g.mode = .write → ∀ g' ∈ c.guards, g' = g

namespace Config.GuardedBy

variable {c c' : Config A ι H} {held : ι → H → Option Mode}
  {refuse : Config A ι H → ι → Bool}

omit [DecidableEq ι] [DecidableEq H] in
/-- At the start nobody holds a guard. -/
theorem initial (s : St) (progs : ι → Prog A H) :
    (Config.initial s progs).GuardedBy fun _ _ => none where
  guards_iff i h mode := by simp [Config.initial]
  exclusive g hg := absurd hg List.not_mem_nil

/-- The lock gives a thread a guard that goes with those it has. -/
theorem admits (hc : c.GuardedBy held) {i : ι} {h : H} {mode : Mode}
    (hgrants : c.Grants refuse i h mode) : Admits (held i) h mode := by
  cases mode with
  | read =>
    obtain ⟨hfresh, hshared, _⟩ := hgrants
    constructor
    · refine Option.eq_none_iff_forall_ne_some.mpr fun mode hheld => ?_
      have hother := hfresh _ ((hc.guards_iff i h mode).mpr hheld)
      simp [Guard.isOf] at hother
    · intro h' hheld
      cases hshared _ ((hc.guards_iff i h' .write).mpr hheld)
  | write =>
    intro h'
    refine Option.eq_none_iff_forall_ne_some.mpr fun mode hheld => ?_
    have hfree : c.guards = [] := hgrants
    have hg := (hc.guards_iff i h' mode).mpr hheld
    rw [hfree] at hg
    exact absurd hg List.not_mem_nil

omit [DecidableEq ι] [DecidableEq H] in
/-- Beside a writer the other threads hold no guards. -/
theorem idle_of_write (hc : c.GuardedBy held) {i j : ι} {h : H} (hheld : held i h = some .write)
    (hj : j ≠ i) (h' : H) : held j h' = none := by
  refine Option.eq_none_iff_forall_ne_some.mpr fun mode hother => ?_
  have hsame := hc.exclusive _ ((hc.guards_iff i h .write).mpr hheld) rfl _
    ((hc.guards_iff j h' mode).mpr hother)
  exact hj (congrArg Guard.thread hsame)

/-- The guards after a step. -/
theorem step (hc : c.GuardedBy held) {i : ι} {e : Event A H} (hstep : Step refuse c i e c') :
    c'.GuardedBy (Function.update held i (e.heldAfter (held i))) := by
  have hsame : ∀ e : Event A H, e.heldAfter (held i) = held i →
      Function.update held i (e.heldAfter (held i)) = held := by
    intro e he
    rw [he, Function.update_eq_self]
  cases hstep with
  | request _ =>
    rw [hsame _ rfl]
    exact ⟨hc.guards_iff, hc.exclusive⟩
  | busy _ _ =>
    rw [hsame _ rfl]
    exact ⟨hc.guards_iff, hc.exclusive⟩
  | exec _ _ _ =>
    rw [hsame _ rfl]
    exact ⟨hc.guards_iff, hc.exclusive⟩
  | @grant h mode _ _ hgrants =>
    have hfresh : held i h = none := (hc.admits hgrants).fresh
    refine ⟨fun j h' mode' => ?_, ?_⟩
    · rw [List.mem_cons, hc.guards_iff]
      by_cases hj : j = i
      · subst hj
        rw [Function.update_self]
        by_cases hh : h' = h
        · subst hh
          simp [Event.heldAfter, hfresh, eq_comm]
        · simp [Event.heldAfter, hh]
      · simp [hj]
    · cases mode with
      | read =>
        -- The other guards are read guards, too.
        have hshared : ∀ g ∈ (⟨i, h, .read⟩ : Guard ι H) :: c.guards, g.mode = .read :=
          List.forall_mem_cons.mpr ⟨rfl, hgrants.2.1⟩
        intro g hg hmode
        rw [hshared g hg] at hmode
        cases hmode
      | write =>
        have hfree : c.guards = [] := hgrants
        intro g hg _ g' hg'
        rw [hfree] at hg hg'
        rw [List.mem_singleton.mp hg, List.mem_singleton.mp hg']
  | @release h _ _ _ _ =>
    refine ⟨fun j h' mode' => ?_, fun g hg hmode g' hg' => ?_⟩
    · rw [List.mem_filter, hc.guards_iff]
      by_cases hj : j = i
      · subst hj
        rw [Function.update_self]
        by_cases hh : h' = h
        · subst hh
          simp [Event.heldAfter, Guard.isOf]
        · simp [Event.heldAfter, Guard.isOf, hh]
      · simp [Guard.isOf, hj]
    · exact hc.exclusive g (List.mem_filter.mp hg).1 hmode g' (List.mem_filter.mp hg').1

end Config.GuardedBy

/-- The guards of a run are those of its threads. -/
theorem Run.guardedBy {refuse : Config A ι H → ι → Bool} {c c' : Config A ι H}
    {held : ι → H → Option Mode} (hc : c.GuardedBy held) {events : List (ι × Event A H)}
    (hrun : Run refuse c events c') : ∃ held', c'.GuardedBy held' := by
  induction hrun with
  | start => exact ⟨held, hc⟩
  | step _ hstep ih =>
    obtain ⟨held', hc'⟩ := ih
    exact ⟨_, hc'.step hstep⟩

/-! ## The invariant of a run -/

/-- Every thread keeps the contract with the guards that it holds, and without a writer
the state has the invariant. -/
structure Config.Keeps (K : Contract A) (c : Config A ι H) (held : ι → H → Option Mode) :
    Prop where
  /-- The guards. -/
  guardedBy : c.GuardedBy held
  /-- The state. -/
  inv : (∀ g ∈ c.guards, g.mode = .read) → K.inv c.state
  /-- The threads. -/
  threads : ∀ i, (c.threads i).Keeps K (held i) c.state

namespace Config.Keeps

variable {K : Contract A} {c c' : Config A ι H} {held : ι → H → Option Mode}
  {refuse : Config A ι H → ι → Bool} {i : ι}

omit [DecidableEq ι] in
/-- Programs that keep a contract start from its invariant. -/
theorem initial {s : St} {progs : ι → Prog A H} (hs : K.inv s)
    (hprogs : ∀ i, (progs i).Keeps K (fun _ => none) s) :
    (Config.initial s progs).Keeps K fun _ _ => none where
  guardedBy := .initial s progs
  inv _ := hs
  threads := hprogs

/-- A thread gets a guard in a state with the invariant. -/
theorem finds (hc : c.Keeps K held) {h : H} {mode : Mode} (hgrants : c.Grants refuse i h mode) :
    K.Finds (held i) c.state c.state := by
  refine ⟨hc.inv fun g hg => ?_, fun _ _ => rfl⟩
  cases mode with
  | read => exact hgrants.2.1 g hg
  | write =>
    have hfree : c.guards = [] := hgrants
    rw [hfree] at hg
    exact absurd hg List.not_mem_nil

/-- An action is executed in a state as the contract states it. -/
theorem pre_of_exec (hc : c.Keeps K held) {h : H} {a : A.Act} {result : A.Ret a}
    (hstep : Step refuse c i (.exec h a result) c') : K.pre a c.state := by
  cases hstep with
  | @exec _ _ mode _ hlocal hheld hmode =>
    have hthread := hc.threads i
    generalize c.threads i = thread at hlocal hthread
    cases hlocal
    exact (hthread mode ((hc.guardedBy.guards_iff i h mode).mp hheld) hmode).1

/-- The thread that takes a step keeps the contract. -/
theorem thread_step (hc : c.Keeps K held) {e : Event A H} (hstep : Step refuse c i e c') :
    (c'.threads i).Keeps K (e.heldAfter (held i)) c'.state := by
  have hthread := hc.threads i
  cases hstep with
  | request hlocal =>
    dsimp only
    rw [Function.update_self]
    generalize c.threads i = thread at hlocal hthread
    cases hlocal
    exact hthread
  | grant hlocal hgrants =>
    have hadmits := hc.guardedBy.admits hgrants
    have hfinds := hc.finds hgrants
    dsimp only
    rw [Function.update_self]
    generalize c.threads i = thread at hlocal hthread
    cases hlocal with
    | grant h mode next => exact hthread c.state hadmits hfinds
    | tryGrant h mode next => exact hthread.1 c.state hadmits hfinds
  | busy hlocal _ =>
    dsimp only
    rw [Function.update_self]
    generalize c.threads i = thread at hlocal hthread
    cases hlocal
    exact hthread.2
  | @exec h _ mode _ hlocal hheld hmode =>
    dsimp only
    rw [Function.update_self]
    generalize c.threads i = thread at hlocal hthread
    cases hlocal
    exact (hthread mode ((hc.guardedBy.guards_iff i h mode).mp hheld) hmode).2
  | @release h mode _ hlocal hheld =>
    dsimp only
    rw [Function.update_self]
    generalize c.threads i = thread at hlocal hthread
    cases hlocal
    exact (hthread mode ((hc.guardedBy.guards_iff i h mode).mp hheld)).2

/-- A step changes the state only under the write guard of its thread. -/
theorem state_step (hc : c.GuardedBy held) {e : Event A H} (hstep : Step refuse c i e c') :
    c'.state = c.state ∨ ∃ h, held i h = some .write := by
  cases hstep with
  | @exec h a mode _ _ hheld hmode =>
    rcases hmode with rfl | hread
    · exact Or.inr ⟨h, (hc.guards_iff i h .write).mp hheld⟩
    · exact Or.inl (A.exec_of_isRead a c.state hread)
  | _ => exact Or.inl rfl

/-- The invariant holds again when no write guard is held any more. -/
theorem inv_step (hc : c.Keeps K held) {e : Event A H} (hstep : Step refuse c i e c')
    (hshared : ∀ g ∈ c'.guards, g.mode = .read) : K.inv c'.state := by
  have hthread := hc.threads i
  cases hstep with
  | request _ => exact hc.inv hshared
  | busy _ _ => exact hc.inv hshared
  | grant _ _ => exact hc.inv fun g hg => hshared g (List.mem_cons_of_mem _ hg)
  | @exec h a mode _ _ hheld hmode =>
    have hread : A.isRead a = true := by
      refine hmode.resolve_left fun hwrite => ?_
      cases hwrite.symm.trans (hshared _ hheld)
    rw [A.exec_of_isRead a c.state hread]
    exact hc.inv hshared
  | @release h mode _ hlocal hheld =>
    cases mode with
    | read =>
      refine hc.inv fun g hg => ?_
      cases hmode : g.mode with
      | read => rfl
      | write =>
        have hsame := hc.guardedBy.exclusive g hg hmode _ hheld
        rw [← hsame] at hmode
        cases hmode
    | write =>
      generalize c.threads i = thread at hlocal hthread
      cases hlocal
      exact (hthread .write ((hc.guardedBy.guards_iff i h .write).mp hheld)).1 rfl

/-- Every step keeps the contract. -/
theorem step (hc : c.Keeps K held) {e : Event A H} (hstep : Step refuse c i e c') :
    c'.Keeps K (Function.update held i (e.heldAfter (held i))) where
  guardedBy := hc.guardedBy.step hstep
  inv := hc.inv_step hstep
  threads j := by
    by_cases hj : j = i
    · subst hj
      rw [Function.update_self]
      exact hc.thread_step hstep
    · obtain ⟨t, _, hthreads⟩ := hstep.localStep
      rw [hthreads, Function.update_of_ne hj, Function.update_of_ne hj]
      rcases state_step hc.guardedBy hstep with hstate | ⟨h, hheld⟩
      · rw [hstate]
        exact hc.threads j
      · exact (hc.threads j).of_idle (hc.guardedBy.idle_of_write hheld hj) c'.state

end Config.Keeps

/-- **Invariant rule.** Programs that keep a contract on their own keep it together, in
every run. -/
theorem Run.keeps {K : Contract A} {s : St} (hs : K.inv s) {progs : ι → Prog A H}
    (hprogs : ∀ i, (progs i).Keeps K (fun _ => none) s) {refuse : Config A ι H → ι → Bool}
    {events : List (ι × Event A H)} {c : Config A ι H}
    (hrun : Run refuse (Config.initial s progs) events c) : ∃ held, c.Keeps K held := by
  induction hrun with
  | start => exact ⟨_, .initial hs hprogs⟩
  | step _ hstep ih =>
    obtain ⟨held, hc⟩ := ih
    exact ⟨_, hc.step hstep⟩

/-! ## The actions of a run -/

/-- The action of an event with its result. -/
def Event.action? : Event A H → Option (Σ a, A.Ret a)
  | .exec _ a result => some ⟨a, result⟩
  | .request _ _ | .grant _ _ | .busy _ _ | .release _ => none

/-- The actions of a run with their results, in the order in which they are executed. -/
def executed (events : List (ι × Event A H)) : List (Σ a, A.Ret a) :=
  events.filterMap fun e => e.2.action?

omit [DecidableEq ι] [DecidableEq H] in
/-- An action of a run is that of an earlier step or of the last one. -/
theorem mem_executed_concat {events : List (ι × Event A H)} {i : ι} {e : Event A H}
    {step : Σ a, A.Ret a} :
    step ∈ executed (events ++ [(i, e)]) ↔ step ∈ executed events ∨ e.action? = some step := by
  unfold executed
  rw [List.filterMap_append, List.mem_append]
  simp

/-- Every action of the program has a property, under its handle and with the rest of the
program. -/
def Prog.Always (P : (h : H) → (a : A.Act) → (A.Ret a → Prog A H) → Prop) : Prog A H → Prop
  | .done => True
  | .acquire _ _ next => next.Always P
  | .tryAcquire _ _ next => ∀ granted, (next granted).Always P
  | .exec h a next => P h a next ∧ ∀ result, (next result).Always P
  | .release _ next => next.Always P

/-- Every action of the thread has a property. -/
def Thread.Always (P : (h : H) → (a : A.Act) → (A.Ret a → Prog A H) → Prop) : Thread A H → Prop
  | .running prog => prog.Always P
  | .waiting _ _ next => next.Always P

omit [DecidableEq ι] [DecidableEq H] in
/-- A step of a thread leads from what always holds to what always holds. -/
theorem LocalStep.always {P : (h : H) → (a : A.Act) → (A.Ret a → Prog A H) → Prop}
    {t t' : Thread A H} {e : Event A H} (hlocal : LocalStep t e t') (ht : t.Always P) :
    t'.Always P ∧ ∀ h a result, e = .exec h a result →
      ∃ next, P h a next ∧ t' = .running (next result) := by
  cases hlocal with
  | request h mode next => exact ⟨ht, nofun⟩
  | grant h mode next => exact ⟨ht, nofun⟩
  | tryGrant h mode next => exact ⟨ht true, nofun⟩
  | busy h mode next => exact ⟨ht false, nofun⟩
  | exec h a next result =>
    refine ⟨ht.2 result, fun h' a' result' he => ?_⟩
    cases he
    exact ⟨next, ht.1, rfl⟩
  | release h next => exact ⟨ht, nofun⟩

/-- The programs keep their property in a run. -/
theorem Run.always {refuse : Config A ι H → ι → Bool} {c c' : Config A ι H}
    {P : ι → (h : H) → (a : A.Act) → (A.Ret a → Prog A H) → Prop}
    (hthreads : ∀ i, (c.threads i).Always (P i)) {events : List (ι × Event A H)}
    (hrun : Run refuse c events c') : ∀ i, (c'.threads i).Always (P i) := by
  induction hrun with
  | start => exact hthreads
  | @step events d d' i e _ hstep ih =>
    obtain ⟨t, hlocal, hnext⟩ := hstep.localStep
    intro j
    rw [hnext]
    by_cases hj : j = i
    · subst hj
      rw [Function.update_self]
      exact (hlocal.always (ih j)).1
    · rw [Function.update_of_ne hj]
      exact ih j

/-- Every action of the program has a property. -/
def Prog.Acts (P : A.Act → Prop) (prog : Prog A H) : Prop := prog.Always fun _ a _ => P a

/-- Every action of the thread has a property. -/
def Thread.Acts (P : A.Act → Prop) (t : Thread A H) : Prop := t.Always fun _ a _ => P a

/-- The actions of a run are those of the threads' programs. -/
theorem Run.acts {refuse : Config A ι H → ι → Bool} {c c' : Config A ι H}
    {P : ι → A.Act → Prop} (hthreads : ∀ i, (c.threads i).Acts (P i))
    {events : List (ι × Event A H)} (hrun : Run refuse c events c') :
    ∀ e ∈ events, ∀ step, e.2.action? = some step → P e.1 step.1 := by
  induction hrun with
  | start => exact fun e he => absurd he List.not_mem_nil
  | @step events d d' i e hrun hstep ih =>
    have hacts : ∀ i, (d.threads i).Acts (P i) := hrun.always hthreads
    obtain ⟨t, hlocal, _⟩ := hstep.localStep
    intro e' he' step haction
    rcases List.mem_append.mp he' with he' | he'
    · exact ih e' he' step haction
    · obtain rfl := List.mem_singleton.mp he'
      cases e with
      | exec h a result =>
        cases haction
        obtain ⟨_, ha, _⟩ := (hlocal.always (hacts i)).2 h a result rfl
        exact ha
      | request _ _ | grant _ _ | busy _ _ | release _ => cases haction

/-- The first steps of a run are a run. -/
theorem Run.of_prefix {refuse : Config A ι H → ι → Bool} {c c' : Config A ι H}
    {events events' : List (ι × Event A H)} (hrun : Run refuse c events c')
    (hbegins : events' <+: events) : ∃ c'', Run refuse c events' c'' := by
  induction hrun with
  | start =>
    obtain rfl := List.prefix_nil.mp hbegins
    exact ⟨c, .start⟩
  | @step events d d' i e hrun hstep ih =>
    rcases List.prefix_concat_iff.mp hbegins with rfl | hbegins
    · exact ⟨d', .step hrun hstep⟩
    · exact ih hbegins

/-- The actions of a run lead from its first state to its last one. -/
theorem Run.replays {refuse : Config A ι H → ι → Bool} {c c' : Config A ι H}
    {events : List (ι × Event A H)} (hrun : Run refuse c events c') :
    Replays c.state (executed events) c'.state := by
  induction hrun with
  | start => exact replays_nil c.state
  | @step events c' c'' i e _ hstep ih =>
    unfold executed at ih ⊢
    rw [List.filterMap_append]
    refine replays_append.mpr ⟨c'.state, ih, ?_⟩
    cases hstep with
    | exec _ _ _ => exact replays_cons.mpr ⟨rfl, replays_nil _⟩
    | _ => exact replays_nil _

omit [DecidableEq H] [DecidableEq ι] in
/-- **Projection rule** for replayed actions. -/
theorem Replays.projection {R : St → St → Prop} {keep : A.Act → Bool} {s s' s₁ : St}
    {steps : List (Σ a, A.Ret a)} (hsteps : Replays s steps s₁) (hR : R s s')
    (hkeep : ∀ a, keep a = true → ∀ s s', R s s' →
      (A.exec a s).1 = (A.exec a s').1 ∧ R (A.exec a s).2 (A.exec a s').2)
    (hskip : ∀ a, keep a = false → ∀ s s', R s s' → R (A.exec a s).2 s') :
    ∃ s₁', Replays s' (steps.filter fun step => keep step.1) s₁' ∧ R s₁ s₁' := by
  obtain ⟨hresults, rfl⟩ := hsteps
  obtain ⟨hlast, hkept⟩ := stateAfter_projection (steps.map Sigma.fst) hR
    (fun a _ => hkeep a) (fun a _ => hskip a)
  rw [hresults, List.filter_map] at hkept
  rw [List.filter_map] at hlast
  exact ⟨_, ⟨hkept.symm, rfl⟩, hlast⟩

/-! ## Guards that are kept -/

/-- A guard is held until its thread releases it. -/
theorem Step.mem_guards {refuse : Config A ι H → ι → Bool} {c c' : Config A ι H} {i : ι}
    {e : Event A H} (hstep : Step refuse c i e c') {g : Guard ι H} (hg : g ∈ c.guards)
    (hkept : i = g.thread → e ≠ .release g.handle) : g ∈ c'.guards := by
  cases hstep with
  | grant _ _ => exact List.mem_cons_of_mem _ hg
  | @release h _ _ _ _ =>
    refine List.mem_filter.mpr ⟨hg, ?_⟩
    by_cases hthread : g.thread = i
    · have hhandle : g.handle ≠ h := by
        rintro rfl
        exact hkept hthread.symm rfl
      simp [Guard.isOf, hhandle]
    · simp [Guard.isOf, hthread]
  | _ => exact hg

/-- Only the thread of a guard changes the state while the guard is held. Beside a write
guard, only its thread executes actions. -/
theorem Step.state_of_mem_guards {refuse : Config A ι H → ι → Bool} {c c' : Config A ι H}
    {held : ι → H → Option Mode} (hc : c.GuardedBy held) {i : ι} {e : Event A H}
    (hstep : Step refuse c i e c') {g : Guard ι H} (hg : g ∈ c.guards)
    (hidle : i = g.thread → g.mode = .write → e.action? = none) :
    c'.state = c.state ∧ (g.mode = .write → e.action? = none) := by
  cases hstep with
  | @exec h a mode _ _ hheld hmode =>
    have hmine : ∀ g', g' ∈ c.guards → g'.mode = .write → g = g' ∧ ⟨i, h, mode⟩ = g' :=
      fun g' hg' hwrite => ⟨hc.exclusive g' hg' hwrite g hg, hc.exclusive g' hg' hwrite _ hheld⟩
    have hread : g.mode = .read := by
      cases hgmode : g.mode with
      | read => rfl
      | write =>
        obtain ⟨_, hsame⟩ := hmine g hg hgmode
        cases hidle (congrArg Guard.thread hsame) hgmode
    refine ⟨?_, fun hwrite => by rw [hread] at hwrite; cases hwrite⟩
    rcases hmode with rfl | haction
    · obtain ⟨rfl, _⟩ := hmine _ hheld rfl
      cases hread
    · exact A.exec_of_isRead a c.state haction
  | _ => exact ⟨rfl, fun _ => rfl⟩

/-- **Isolation.** While a read guard is held, the state stays as it is, and all results
are those of this state. While a write guard is held, only its thread executes actions. -/
theorem Run.isolated {refuse : Config A ι H → ι → Bool} {c c' : Config A ι H}
    {held : ι → H → Option Mode} (hc : c.GuardedBy held) {g : Guard ι H} (hg : g ∈ c.guards)
    {events : List (ι × Event A H)} (hrun : Run refuse c events c')
    (hkept : (g.thread, .release g.handle) ∉ events) :
    g ∈ c'.guards ∧
      (g.mode = .read → c'.state = c.state ∧
        ∀ step ∈ executed events, (A.exec step.1 c.state).1 = step.2) ∧
      (g.mode = .write → ∀ e ∈ events, e.2.action? ≠ none → e.1 = g.thread) := by
  induction hrun with
  | start =>
    refine ⟨hg, fun _ => ⟨rfl, fun step hstep => ?_⟩, fun _ e he => ?_⟩
    · exact absurd hstep List.not_mem_nil
    · exact absurd he List.not_mem_nil
  | @step events d d' i e hrun hstep ih =>
    obtain ⟨hbefore, hlast⟩ := not_or.mp (mt List.mem_append.mpr hkept)
    obtain ⟨held', hd⟩ := hrun.guardedBy hc
    obtain ⟨hg', hread, hwrite⟩ := ih hbefore
    have hnot : i = g.thread → e ≠ .release g.handle := by
      rintro rfl rfl
      exact hlast List.mem_cons_self
    refine ⟨hstep.mem_guards hg' hnot, fun hmode => ?_, fun hmode => ?_⟩
    · obtain ⟨hstate, hresults⟩ := hread hmode
      have hidle : i = g.thread → g.mode = .write → e.action? = none := by
        intro _ hwrite
        cases hmode.symm.trans hwrite
      have hsame := (hstep.state_of_mem_guards hd hg' hidle).1
      refine ⟨hsame.trans hstate, fun step hmem => ?_⟩
      rcases mem_executed_concat.mp hmem with hmem | haction
      · exact hresults step hmem
      · cases hstep with
        | exec _ _ _ =>
          cases haction
          exact congrArg (fun s => (A.exec _ s).1) hstate.symm
        | _ => cases haction
    · intro e' he' haction
      rcases List.mem_append.mp he' with he' | he'
      · exact hwrite hmode e' he' haction
      · obtain rfl := List.mem_singleton.mp he'
        by_contra hother
        exact haction ((hstep.state_of_mem_guards hd hg' fun hi => absurd hi hother).2 hmode)

/-- A thread waits for a guard while it holds one that excludes it. -/
structure Config.Blocked (c : Config A ι H) (i : ι) (g : Guard ι H) : Prop where
  /-- The guard that it holds. -/
  mem : g ∈ c.guards
  /-- It is its own. -/
  thread : g.thread = i
  /-- It makes, or has made, a request that the guard excludes. -/
  waits : ∃ h mode next, (g.mode = .write ∨ mode = .write) ∧
    (c.threads i = .running (.acquire h mode next) ∨ c.threads i = .waiting h mode next)

namespace Config.Blocked

variable {refuse : Config A ι H → ι → Bool} {c c' : Config A ι H} {i : ι} {g : Guard ι H}

/-- The thread takes no step but the request. -/
theorem request_of_step (hblocked : c.Blocked i g) {e : Event A H}
    (hstep : Step refuse c i e c') : ∃ h mode, e = .request h mode := by
  obtain ⟨h, mode, next, hexcludes, hthread | hthread⟩ := hblocked.waits
  · obtain ⟨t, hlocal, _⟩ := hstep.localStep
    rw [hthread] at hlocal
    cases hlocal
    exact ⟨h, mode, rfl⟩
  · have hfire := fire_of_step hstep
    unfold fire at hfire
    rw [hthread] at hfire
    dsimp only at hfire
    have hrefused : ¬ c.Grants refuse i h mode := by
      intro hgrants
      cases mode with
      | read =>
        have hread := hgrants.2.1 g hblocked.mem
        rcases hexcludes with hwrite | hwrite
        · cases hwrite.symm.trans hread
        · cases hwrite
      | write =>
        have hfree : c.guards = [] := hgrants
        have hmem := hblocked.mem
        rw [hfree] at hmem
        exact absurd hmem List.not_mem_nil
    rw [if_neg hrefused] at hfire
    cases hfire

/-- It stays blocked. -/
theorem step (hblocked : c.Blocked i g) {j : ι} {e : Event A H}
    (hstep : Step refuse c j e c') : c'.Blocked i g where
  mem := by
    refine hstep.mem_guards hblocked.mem ?_
    rintro hj rfl
    rw [hj, hblocked.thread] at hstep
    obtain ⟨h, mode, he⟩ := hblocked.request_of_step hstep
    cases he
  thread := hblocked.thread
  waits := by
    obtain ⟨t, hlocal, hthreads⟩ := hstep.localStep
    obtain ⟨h, mode, next, hexcludes, hthread⟩ := hblocked.waits
    refine ⟨h, mode, next, hexcludes, ?_⟩
    rw [hthreads]
    by_cases hj : j = i
    · subst hj
      rw [Function.update_self]
      obtain ⟨h', mode', rfl⟩ := hblocked.request_of_step hstep
      rcases hthread with hthread | hthread
      · rw [hthread] at hlocal
        cases hlocal
        exact Or.inr rfl
      · rw [hthread] at hlocal
        cases hlocal
    · rw [Function.update_of_ne fun heq => hj heq.symm]
      exact hthread

omit [DecidableEq H] [DecidableEq ι] in
/-- A blocked thread has not finished. -/
theorem not_finished (hblocked : c.Blocked i g) : ¬ c.Finished := by
  intro hfinished
  obtain ⟨h, mode, next, _, hthread | hthread⟩ := hblocked.waits
  · cases (hfinished i).symm.trans hthread
  · cases (hfinished i).symm.trans hthread

end Config.Blocked

/-- **Blocked for good.** A thread that waits while it holds a guard that excludes what it
waits for does so for ever. The state does not change any more, and if it holds a write
guard, no action of any thread is executed. -/
theorem Run.blocked {refuse : Config A ι H → ι → Bool} {c c' : Config A ι H}
    {held : ι → H → Option Mode} (hc : c.GuardedBy held) {i : ι} {g : Guard ι H}
    (hblocked : c.Blocked i g) {events : List (ι × Event A H)} (hrun : Run refuse c events c') :
    c'.Blocked i g ∧ c'.state = c.state ∧ (g.mode = .write → executed events = []) := by
  induction hrun with
  | start => exact ⟨hblocked, rfl, fun _ => rfl⟩
  | @step events d d' j e hrun hstep ih =>
    obtain ⟨held', hd⟩ := hrun.guardedBy hc
    obtain ⟨hblocked', hstate, hexecuted⟩ := ih
    have hidle : j = g.thread → g.mode = .write → e.action? = none := by
      intro hj _
      rw [hj, hblocked.thread] at hstep
      obtain ⟨h, mode, rfl⟩ := hblocked'.request_of_step hstep
      rfl
    obtain ⟨hsame, hnone⟩ := hstep.state_of_mem_guards hd hblocked'.mem hidle
    refine ⟨hblocked'.step hstep, hsame.trans hstate, fun hwrite => ?_⟩
    unfold executed at hexecuted ⊢
    rw [List.filterMap_append, hexecuted hwrite, List.nil_append]
    exact List.filterMap_cons_none (hnone hwrite)

/-- A thread that is blocked makes its request and takes no other step. -/
theorem Run.requests_of_blocked {refuse : Config A ι H → ι → Bool} {c c' : Config A ι H}
    {i : ι} {g : Guard ι H} (hblocked : c.Blocked i g) {events : List (ι × Event A H)}
    (hrun : Run refuse c events c') : ∀ e ∈ eventsOf i events, ∃ h mode, e = .request h mode := by
  suffices h : c'.Blocked i g ∧ ∀ e ∈ eventsOf i events, ∃ h mode, e = .request h mode from h.2
  induction hrun with
  | start => exact ⟨hblocked, fun e he => absurd he List.not_mem_nil⟩
  | @step events d d' j e _ hstep ih =>
    obtain ⟨hblocked', hrequests⟩ := ih
    refine ⟨hblocked'.step hstep, fun e' he' => ?_⟩
    by_cases hj : j = i
    · subst hj
      rw [eventsOf_concat_self] at he'
      rcases List.mem_append.mp he' with he' | he'
      · exact hrequests e' he'
      · obtain rfl := List.mem_singleton.mp he'
        exact hblocked'.request_of_step hstep
    · rw [eventsOf_concat_of_ne hj] at he'
      exact hrequests e' he'

end RwLocks
