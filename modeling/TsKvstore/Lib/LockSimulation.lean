import TsKvstore.Lib.LockInvariant

/-!
# The same programs with other actions

Two versions of a program may execute their actions differently, one of them with checks
for example. As long as all actions of a run have the same result and the same effect in
both versions, the run of one is a run of the other: the guards, the results and the
states are the same at every step.
-/

namespace RwLocks

universe u

variable {St : Type u} {ι H : Type*} {A : Actions St}

/-- The same actions, executed by another function. -/
def Actions.withExec (A : Actions St) (exec : (a : A.Act) → St → A.Ret a × St)
    (hexec : ∀ a s, A.isRead a = true → (exec a s).2 = s) : Actions St where
  Act := A.Act
  Ret := A.Ret
  exec := exec
  isRead := A.isRead
  exec_of_isRead := hexec

section

variable (exec : (a : A.Act) → St → A.Ret a × St)
  (hexec : ∀ a s, A.isRead a = true → (exec a s).2 = s)

/-- A program, with the other function. -/
def Prog.withExec : Prog A H → Prog (A.withExec exec hexec) H
  | .done => .done
  | .acquire h mode next => .acquire h mode next.withExec
  | .tryAcquire h mode next => .tryAcquire h mode fun granted => (next granted).withExec
  | .exec h a next =>
    Prog.exec h (A := A.withExec exec hexec) a fun result => (next result).withExec
  | .release h next => .release h next.withExec

/-- A thread, with the other function. -/
def Thread.withExec : Thread A H → Thread (A.withExec exec hexec) H
  | .running prog => .running (prog.withExec exec hexec)
  | .waiting h mode next => .waiting h mode (next.withExec exec hexec)

/-- An event, with the other function. -/
def Event.withExec : Event A H → Event (A.withExec exec hexec) H
  | .request h mode => .request h mode
  | .grant h mode => .grant h mode
  | .busy h mode => .busy h mode
  | .exec h a result => Event.exec h (A := A.withExec exec hexec) a result
  | .release h => .release h

/-- A configuration, with the other function. -/
def Config.withExec (c : Config A ι H) : Config (A.withExec exec hexec) ι H where
  state := c.state
  threads i := (c.threads i).withExec exec hexec
  guards := c.guards

/-- Events with their threads, with the other function. -/
def eventsWithExec (events : List (ι × Event A H)) : List (ι × Event (A.withExec exec hexec) H) :=
  events.map fun e => (e.1, e.2.withExec exec hexec)

/-- A step of a thread is one of the thread with the actions replaced. -/
theorem LocalStep.withExec {t t' : Thread A H} {e : Event A H} (hlocal : LocalStep t e t') :
    LocalStep (t.withExec exec hexec) (e.withExec exec hexec) (t'.withExec exec hexec) := by
  cases hlocal with
  | request h mode next => exact .request h mode _
  | grant h mode next => exact .grant h mode _
  | tryGrant h mode next => exact .tryGrant h mode fun granted => (next granted).withExec exec hexec
  | busy h mode next => exact .busy h mode fun granted => (next granted).withExec exec hexec
  | exec h a next result =>
    exact LocalStep.exec (A := A.withExec exec hexec) h a
      (fun result => (next result).withExec exec hexec) result
  | release h next => exact .release h _

/-- The same actions are executed. -/
theorem executed_eventsWithExec (events : List (ι × Event A H)) :
    executed (eventsWithExec exec hexec events) = executed events := by
  unfold executed eventsWithExec
  rw [List.filterMap_map]
  refine List.filterMap_congr fun e _ => ?_
  obtain ⟨i, e⟩ := e
  cases e <;> rfl

end

variable {exec : (a : A.Act) → St → A.Ret a × St}
  {hexec : ∀ a s, A.isRead a = true → (exec a s).2 = s} [DecidableEq ι] [DecidableEq H]

omit [DecidableEq H] in
/-- Replacing the actions commutes with the step of a thread. -/
theorem Config.withExec_update (c : Config A ι H) (i : ι) (t : Thread A H) :
    (fun j => (Function.update c.threads i t j).withExec exec hexec) =
      Function.update (fun j => (c.threads j).withExec exec hexec) i
        (t.withExec exec hexec) := by
  funext j
  by_cases hj : j = i
  · subst hj
    rw [Function.update_self, Function.update_self]
  · rw [Function.update_of_ne hj, Function.update_of_ne hj]

/-- The lock refuses the same readers. -/
def refuseBy (refuse : Config (A.withExec exec hexec) ι H → ι → Bool) :
    Config A ι H → ι → Bool :=
  fun c i => refuse (c.withExec exec hexec) i

variable {refuse : Config (A.withExec exec hexec) ι H → ι → Bool}

/-- The same guards are granted with the actions replaced. -/
theorem Config.grants_withExec {c : Config A ι H} {i : ι} {h : H} {mode : Mode} :
    (c.withExec exec hexec).Grants refuse i h mode ↔ c.Grants (refuseBy refuse) i h mode := by
  cases mode <;> exact Iff.rfl

/-- A step in which both functions do the same is a step with the other function. -/
theorem Step.withExec {c c' : Config A ι H} {i : ι} {e : Event A H}
    (hstep : Step (refuseBy refuse) c i e c')
    (hsame : ∀ step, e.action? = some step → exec step.1 c.state = A.exec step.1 c.state) :
    Step refuse (c.withExec exec hexec) i (e.withExec exec hexec) (c'.withExec exec hexec) := by
  unfold Config.withExec
  cases hstep with
  | request hlocal =>
    rw [c.withExec_update]
    exact .request (hlocal.withExec exec hexec)
  | grant hlocal hgrants =>
    rw [c.withExec_update]
    exact .grant (hlocal.withExec exec hexec) (Config.grants_withExec.mpr hgrants)
  | busy hlocal hbusy =>
    rw [c.withExec_update]
    exact .busy (hlocal.withExec exec hexec) (mt Config.grants_withExec.mp hbusy)
  | @exec h a mode t hlocal hheld hmode =>
    rw [c.withExec_update]
    have hexecuted : exec a c.state = A.exec a c.state := hsame ⟨a, _⟩ rfl
    have hlocal' := hlocal.withExec exec hexec
    rw [← hexecuted] at hlocal' ⊢
    exact .exec hlocal' hheld hmode
  | release hlocal hheld =>
    rw [c.withExec_update]
    exact .release (hlocal.withExec exec hexec) hheld

/-- **Simulation.** If the other function does the same with actions that have a good
result, then a run with good results only is a run with the other function. -/
theorem Run.withExec {Good : (Σ a, A.Ret a) → Prop}
    (hsame : ∀ a s, Good ⟨a, (A.exec a s).1⟩ → exec a s = A.exec a s) {c c' : Config A ι H}
    {events : List (ι × Event A H)} (hrun : Run (refuseBy refuse) c events c')
    (hgood : ∀ step ∈ executed events, Good step) :
    Run refuse (c.withExec exec hexec) (eventsWithExec exec hexec events)
      (c'.withExec exec hexec) := by
  induction hrun with
  | start => exact .start
  | @step events d d' i e _ hstep ih =>
    have hbefore := ih fun step hmem => hgood step (mem_executed_concat.mpr (Or.inl hmem))
    have hlast : ∀ step, e.action? = some step → Good step :=
      fun step haction => hgood step (mem_executed_concat.mpr (Or.inr haction))
    have hstep' : Step refuse (d.withExec exec hexec) i (e.withExec exec hexec)
        (d'.withExec exec hexec) := by
      refine hstep.withExec fun step haction => ?_
      cases hstep with
      | exec _ _ _ =>
        cases haction
        exact hsame _ _ (hlast _ rfl)
      | _ => cases haction
    have hevents : eventsWithExec exec hexec (events ++ [(i, e)]) =
        eventsWithExec exec hexec events ++ [(i, e.withExec exec hexec)] := List.map_append
    rw [hevents]
    exact .step hbefore hstep'

end RwLocks
