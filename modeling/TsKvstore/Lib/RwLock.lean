import Mathlib.Data.List.Pairwise
import Mathlib.Logic.Function.Basic
import TsKvstore.Lib.Machine

/-!
# Programs behind a read-write lock

Threads run finite programs on a state that one read-write lock guards. A thread
requests a guard and waits until it is granted, or tries to get one and goes on
without it. It executes actions while it holds the guard and releases it. A write
guard excludes every other guard, read guards exclude write guards only, and the
lock may refuse a reader. A section is what a thread does under one guard. The
results of all actions are those of executing the sections one at a time, in the
order in which their guards were granted.
-/

namespace RwLocks

open Machines

universe u

variable {St : Type u} {ι H : Type*}

/-- Actions on a shared state. -/
structure Actions (St : Type u) where
  /-- The actions. -/
  Act : Type u
  /-- The type of an action's result. -/
  Ret : Act → Type u
  /-- Execute an action. -/
  exec : (a : Act) → St → Ret a × St
  /-- The actions that a read guard allows. -/
  isRead : Act → Bool
  /-- They do not change the state. -/
  exec_of_isRead : ∀ a s, isRead a = true → (exec a s).2 = s

/-- The modes of a guard. -/
inductive Mode where
  | read
  | write
  deriving DecidableEq

/-- A finite program of one thread. Its guards are named by handles. -/
inductive Prog (A : Actions St) (H : Type*) where
  | done
  | acquire (h : H) (mode : Mode) (next : Prog A H)
  | tryAcquire (h : H) (mode : Mode) (next : Bool → Prog A H)
  | exec (h : H) (a : A.Act) (next : A.Ret a → Prog A H)
  | release (h : H) (next : Prog A H)

/-- A thread runs, or waits for a guard. -/
inductive Thread (A : Actions St) (H : Type*) where
  | running (prog : Prog A H)
  | waiting (h : H) (mode : Mode) (next : Prog A H)

/-- A guard that a thread holds. -/
structure Guard (ι H : Type*) where
  /-- The thread. -/
  thread : ι
  /-- Its name for the guard. -/
  handle : H
  /-- The mode. -/
  mode : Mode
  deriving DecidableEq

/-- A configuration of the threads, the state and the lock. -/
structure Config (A : Actions St) (ι H : Type*) where
  /-- The shared state. -/
  state : St
  /-- The threads. -/
  threads : ι → Thread A H
  /-- The guards held. -/
  guards : List (Guard ι H)

/-- What a thread does in a step. -/
inductive Event (A : Actions St) (H : Type*) where
  | request (h : H) (mode : Mode)
  | grant (h : H) (mode : Mode)
  | busy (h : H) (mode : Mode)
  | exec (h : H) (a : A.Act) (result : A.Ret a)
  | release (h : H)

variable {A : Actions St}

/-- A thread on its own: every result is possible. -/
inductive LocalStep : Thread A H → Event A H → Thread A H → Prop where
  | request (h : H) (mode : Mode) (next : Prog A H) :
      LocalStep (.running (.acquire h mode next)) (.request h mode) (.waiting h mode next)
  | grant (h : H) (mode : Mode) (next : Prog A H) :
      LocalStep (.waiting h mode next) (.grant h mode) (.running next)
  | tryGrant (h : H) (mode : Mode) (next : Bool → Prog A H) :
      LocalStep (.running (.tryAcquire h mode next)) (.grant h mode) (.running (next true))
  | busy (h : H) (mode : Mode) (next : Bool → Prog A H) :
      LocalStep (.running (.tryAcquire h mode next)) (.busy h mode) (.running (next false))
  | exec (h : H) (a : A.Act) (next : A.Ret a → Prog A H) (result : A.Ret a) :
      LocalStep (.running (.exec h a next)) (.exec h a result) (.running (next result))
  | release (h : H) (next : Prog A H) :
      LocalStep (.running (.release h next)) (.release h) (.running next)

variable [DecidableEq ι] [DecidableEq H]

/-- The guard of a thread under a handle. -/
def Guard.isOf (g : Guard ι H) (i : ι) (h : H) : Bool := g.thread = i ∧ g.handle = h

/-- The lock can give thread `i` a guard. It refuses readers as `refuse` says. -/
def Config.Grants (refuse : Config A ι H → ι → Bool) (c : Config A ι H) (i : ι) (h : H) :
    Mode → Prop
  | .read =>
    (∀ g ∈ c.guards, g.isOf i h = false) ∧ (∀ g ∈ c.guards, g.mode = .read) ∧
      refuse c i = false
  | .write => c.guards = []

instance (refuse : Config A ι H → ι → Bool) (c : Config A ι H) (i : ι) (h : H) :
    (mode : Mode) → Decidable (c.Grants refuse i h mode)
  | .read => inferInstanceAs (Decidable (_ ∧ _ ∧ _))
  | .write => inferInstanceAs (Decidable (_ = _))

/-- A step of thread `i`. -/
inductive Step (refuse : Config A ι H → ι → Bool) (c : Config A ι H) (i : ι) :
    Event A H → Config A ι H → Prop where
  | request {h : H} {mode : Mode} {t : Thread A H}
      (hlocal : LocalStep (c.threads i) (.request h mode) t) :
      Step refuse c i (.request h mode) { c with threads := Function.update c.threads i t }
  | grant {h : H} {mode : Mode} {t : Thread A H}
      (hlocal : LocalStep (c.threads i) (.grant h mode) t)
      (hgrants : c.Grants refuse i h mode) :
      Step refuse c i (.grant h mode)
        { c with
          threads := Function.update c.threads i t
          guards := ⟨i, h, mode⟩ :: c.guards }
  | busy {h : H} {mode : Mode} {t : Thread A H}
      (hlocal : LocalStep (c.threads i) (.busy h mode) t)
      (hbusy : ¬ c.Grants refuse i h mode) :
      Step refuse c i (.busy h mode) { c with threads := Function.update c.threads i t }
  | exec {h : H} {a : A.Act} {mode : Mode} {t : Thread A H}
      (hlocal : LocalStep (c.threads i) (.exec h a (A.exec a c.state).1) t)
      (hheld : ⟨i, h, mode⟩ ∈ c.guards) (hmode : mode = .write ∨ A.isRead a = true) :
      Step refuse c i (.exec h a (A.exec a c.state).1)
        { c with
          state := (A.exec a c.state).2
          threads := Function.update c.threads i t }
  | release {h : H} {mode : Mode} {t : Thread A H} (hlocal : LocalStep (c.threads i) (.release h) t)
      (hheld : ⟨i, h, mode⟩ ∈ c.guards) :
      Step refuse c i (.release h)
        { c with
          threads := Function.update c.threads i t
          guards := c.guards.filter fun g => !g.isOf i h }

/-- A run with its events, each with its thread. -/
inductive Run (refuse : Config A ι H → ι → Bool) (c : Config A ι H) :
    List (ι × Event A H) → Config A ι H → Prop where
  | start : Run refuse c [] c
  | step {events : List (ι × Event A H)} {c' c'' : Config A ι H} {i : ι} {e : Event A H}
      (hrun : Run refuse c events c') (hstep : Step refuse c' i e c'') :
      Run refuse c (events ++ [(i, e)]) c''

/-- The configuration in which no thread has started. -/
def Config.initial (s : St) (progs : ι → Prog A H) : Config A ι H where
  state := s
  threads i := .running (progs i)
  guards := []

/-! ## Schedules -/

/-- The next step of a thread, if it has one. -/
def fire (refuse : Config A ι H → ι → Bool) (c : Config A ι H) (i : ι) :
    Option (Event A H × Config A ι H) :=
  match c.threads i with
  | .running .done => none
  | .running (.acquire h mode next) =>
    some (.request h mode,
      { c with threads := Function.update c.threads i (.waiting h mode next) })
  | .running (.tryAcquire h mode next) =>
    if c.Grants refuse i h mode then
      some (.grant h mode,
        { c with
          threads := Function.update c.threads i (.running (next true))
          guards := ⟨i, h, mode⟩ :: c.guards })
    else
      some (.busy h mode,
        { c with threads := Function.update c.threads i (.running (next false)) })
  | .running (.exec h a next) =>
    if ∃ g ∈ c.guards, g.isOf i h = true ∧ (g.mode = .write ∨ A.isRead a = true) then
      some (.exec h a (A.exec a c.state).1,
        { c with
          state := (A.exec a c.state).2
          threads := Function.update c.threads i (.running (next (A.exec a c.state).1)) })
    else none
  | .running (.release h next) =>
    if ∃ g ∈ c.guards, g.isOf i h = true then
      some (.release h,
        { c with
          threads := Function.update c.threads i (.running next)
          guards := c.guards.filter fun g => !g.isOf i h })
    else none
  | .waiting h mode next =>
    if c.Grants refuse i h mode then
      some (.grant h mode,
        { c with
          threads := Function.update c.threads i (.running next)
          guards := ⟨i, h, mode⟩ :: c.guards })
    else none

/-- The test for the guard of a thread under a handle. -/
theorem guard_isOf_iff {g : Guard ι H} {i : ι} {h : H} :
    g.isOf i h = true ↔ g.thread = i ∧ g.handle = h :=
  decide_eq_true_iff

/-- The guard of a thread under a handle, but for its mode. -/
theorem eq_of_isOf {g : Guard ι H} {i : ι} {h : H} (hg : g.isOf i h = true) :
    g = ⟨i, h, g.mode⟩ := by
  obtain ⟨thread, handle, mode⟩ := g
  obtain ⟨rfl, rfl⟩ := guard_isOf_iff.mp hg
  rfl

/-- The computed step is a step. -/
theorem step_of_fire {refuse : Config A ι H → ι → Bool} {c c' : Config A ι H} {i : ι}
    {e : Event A H} (hfire : fire refuse c i = some (e, c')) : Step refuse c i e c' := by
  unfold fire at hfire
  split at hfire
  · cases hfire
  · rename_i h mode next hthread
    cases hfire
    exact .request (hthread ▸ .request h mode next)
  · rename_i h mode next hthread
    split at hfire
    · rename_i hgrants
      cases hfire
      exact .grant (hthread ▸ .tryGrant h mode next) hgrants
    · rename_i hbusy
      cases hfire
      exact .busy (hthread ▸ .busy h mode next) hbusy
  · rename_i h a next hthread
    split at hfire
    · rename_i hheld
      cases hfire
      obtain ⟨g, hg, hisOf, hmode⟩ := hheld
      rw [eq_of_isOf hisOf] at hg
      exact .exec (hthread ▸ .exec h a next _) hg hmode
    · cases hfire
  · rename_i h next hthread
    split at hfire
    · rename_i hheld
      cases hfire
      obtain ⟨g, hg, hisOf⟩ := hheld
      rw [eq_of_isOf hisOf] at hg
      exact .release (hthread ▸ .release h next) hg
    · cases hfire
  · rename_i h mode next hthread
    split at hfire
    · rename_i hgrants
      cases hfire
      exact .grant (hthread ▸ .grant h mode next) hgrants
    · cases hfire

/-- Every step is the computed one. -/
theorem fire_of_step {refuse : Config A ι H → ι → Bool} {c c' : Config A ι H} {i : ι}
    {e : Event A H} (hstep : Step refuse c i e c') : fire refuse c i = some (e, c') := by
  unfold fire
  cases hstep with
  | request hlocal =>
    generalize c.threads i = thread at hlocal ⊢
    cases hlocal
    rfl
  | grant hlocal hgrants =>
    generalize c.threads i = thread at hlocal ⊢
    cases hlocal with
    | grant => exact if_pos hgrants
    | tryGrant => exact if_pos hgrants
  | busy hlocal hbusy =>
    generalize c.threads i = thread at hlocal ⊢
    cases hlocal
    exact if_neg hbusy
  | @exec h a mode _ hlocal hheld hmode =>
    generalize c.threads i = thread at hlocal ⊢
    cases hlocal
    exact if_pos ⟨⟨i, h, mode⟩, hheld, guard_isOf_iff.mpr ⟨rfl, rfl⟩, hmode⟩
  | @release h mode _ hlocal hheld =>
    generalize c.threads i = thread at hlocal ⊢
    cases hlocal
    exact if_pos ⟨⟨i, h, mode⟩, hheld, guard_isOf_iff.mpr ⟨rfl, rfl⟩⟩

/-- Let the threads of a schedule take their next steps in turn. A thread that has
none is passed over. -/
def runSchedule (refuse : Config A ι H → ι → Bool) :
    List ι → Config A ι H → List (ι × Event A H) × Config A ι H
  | [], c => ([], c)
  | i :: schedule, c =>
    match fire refuse c i with
    | none => runSchedule refuse schedule c
    | some (e, c') =>
      ((i, e) :: (runSchedule refuse schedule c').1, (runSchedule refuse schedule c').2)

/-- A step before a run is a run. -/
theorem Run.prepend {refuse : Config A ι H → ι → Bool} {c c' c'' : Config A ι H} {i : ι}
    {e : Event A H} {events : List (ι × Event A H)} (hstep : Step refuse c i e c')
    (hrun : Run refuse c' events c'') : Run refuse c ((i, e) :: events) c'' := by
  induction hrun with
  | start =>
    have hone : Run refuse c ([] ++ [(i, e)]) c' := .step .start hstep
    exact hone
  | step _ hlast ih => exact .step ih hlast

/-- A schedule produces a run. -/
theorem run_runSchedule (refuse : Config A ι H → ι → Bool) (schedule : List ι)
    (c : Config A ι H) :
    Run refuse c (runSchedule refuse schedule c).1 (runSchedule refuse schedule c).2 := by
  induction schedule generalizing c with
  | nil => exact .start
  | cons i schedule ih =>
    unfold runSchedule
    split
    · exact ih c
    · rename_i e c' hfire
      exact (ih c').prepend (step_of_fire hfire)

/-! ## The events of a thread -/

/-- The events of one thread. -/
def eventsOf (i : ι) (events : List (ι × Event A H)) : List (Event A H) :=
  (events.filter fun e => e.1 = i).map Prod.snd

omit [DecidableEq H] in
/-- The events of a thread after one of its own. -/
theorem eventsOf_concat_self (i : ι) (events : List (ι × Event A H)) (e : Event A H) :
    eventsOf i (events ++ [(i, e)]) = eventsOf i events ++ [e] := by
  simp [eventsOf, List.filter_append]

omit [DecidableEq H] in
/-- The events of a thread after one of another thread. -/
theorem eventsOf_concat_of_ne {i j : ι} (h : j ≠ i) (events : List (ι × Event A H))
    (e : Event A H) : eventsOf i (events ++ [(j, e)]) = eventsOf i events := by
  simp [eventsOf, List.filter_append, h]

/-- A step is a step of its thread on its own. -/
theorem Step.localStep {refuse : Config A ι H → ι → Bool} {c c' : Config A ι H} {i : ι}
    {e : Event A H} (hstep : Step refuse c i e c') :
    ∃ t, LocalStep (c.threads i) e t ∧ c'.threads = Function.update c.threads i t := by
  cases hstep with
  | request hlocal => exact ⟨_, hlocal, rfl⟩
  | grant hlocal _ => exact ⟨_, hlocal, rfl⟩
  | busy hlocal _ => exact ⟨_, hlocal, rfl⟩
  | exec hlocal _ _ => exact ⟨_, hlocal, rfl⟩
  | release hlocal _ => exact ⟨_, hlocal, rfl⟩

/-! ## Sections -/

/-- What a thread does under one guard, as far as it has come. -/
structure Section (A : Actions St) (ι H : Type*) where
  /-- The guard. -/
  guard : Guard ι H
  /-- The guard has not been released. -/
  isOpen : Bool
  /-- The actions with their results. -/
  steps : List (Σ a, A.Ret a)

/-- The open section of a thread under a handle. -/
def Section.isOf (sec : Section A ι H) (i : ι) (h : H) : Bool := sec.isOpen && sec.guard.isOf i h

/-- The section with one more action. -/
def Section.addStep (step : Σ a, A.Ret a) (sec : Section A ι H) : Section A ι H :=
  { sec with steps := sec.steps ++ [step] }

/-- The section with its guard released. -/
def Section.close (sec : Section A ι H) : Section A ι H := { sec with isOpen := false }

/-- Change the open section of a thread under a handle. -/
def amend (i : ι) (h : H) (f : Section A ι H → Section A ι H) (sections : List (Section A ι H)) :
    List (Section A ι H) :=
  sections.map fun sec => if sec.isOf i h then f sec else sec

/-- The sections after an event. A grant opens a section after all others. -/
def record (sections : List (Section A ι H)) (i : ι) : Event A H → List (Section A ι H)
  | .request _ _ | .busy _ _ => sections
  | .grant h mode => sections ++ [⟨⟨i, h, mode⟩, true, []⟩]
  | .exec h a result => amend i h (Section.addStep ⟨a, result⟩) sections
  | .release h => amend i h Section.close sections

/-- The sections of a run, in the order in which their guards were granted. -/
def sectionsOf (events : List (ι × Event A H)) : List (Section A ι H) :=
  events.foldl (fun sections e => record sections e.1 e.2) []

/-- The sections after one more event. -/
theorem sectionsOf_concat (events : List (ι × Event A H)) (i : ι) (e : Event A H) :
    sectionsOf (events ++ [(i, e)]) = record (sectionsOf events) i e := by
  unfold sectionsOf
  rw [List.foldl_append]
  rfl

/-- The sections of one thread. -/
def sectionsBy (i : ι) (sections : List (Section A ι H)) : List (Section A ι H) :=
  sections.filter fun sec => sec.guard.thread = i

/-- An amendment that keeps the guards, seen by its own thread. -/
theorem sectionsBy_amend_self (i : ι) (h : H) (f : Section A ι H → Section A ι H)
    (hf : ∀ sec, (f sec).guard = sec.guard) (sections : List (Section A ι H)) :
    sectionsBy i (amend i h f sections) = amend i h f (sectionsBy i sections) := by
  unfold sectionsBy amend
  rw [List.filter_map]
  congr 2
  funext sec
  dsimp only [Function.comp_apply]
  split
  · rw [hf]
  · rfl

/-- An amendment that keeps the guards, seen by another thread. -/
theorem sectionsBy_amend_of_ne {i j : ι} (hij : j ≠ i) (h : H)
    (f : Section A ι H → Section A ι H) (hf : ∀ sec, (f sec).guard = sec.guard)
    (sections : List (Section A ι H)) :
    sectionsBy i (amend j h f sections) = sectionsBy i sections := by
  induction sections with
  | nil => rfl
  | cons sec sections ih =>
    have hcons : amend j h f (sec :: sections) =
        (if sec.isOf j h then f sec else sec) :: amend j h f sections := rfl
    unfold sectionsBy at ih ⊢
    rw [hcons, List.filter_cons, List.filter_cons, ih]
    by_cases hsec : sec.isOf j h = true
    · have hthread : sec.guard.thread ≠ i := by
        intro heq
        have hj : sec.guard.thread = j := by
          simp only [Section.isOf, Guard.isOf, Bool.and_eq_true, decide_eq_true_eq] at hsec
          exact hsec.2.1
        exact hij (hj.symm.trans heq)
      rw [if_pos hsec, hf, if_neg (by simp [hthread]), if_neg (by simp [hthread])]
    · rw [if_neg hsec]

/-- An event of a thread, seen by itself. -/
theorem sectionsBy_record_self (i : ι) (sections : List (Section A ι H)) (e : Event A H) :
    sectionsBy i (record sections i e) = record (sectionsBy i sections) i e := by
  cases e with
  | request h mode | busy h mode => rfl
  | grant h mode => simp [record, sectionsBy, List.filter_append]
  | exec h a result =>
    exact sectionsBy_amend_self i h (Section.addStep ⟨a, result⟩) (fun _ => rfl) _
  | release h => exact sectionsBy_amend_self i h Section.close (fun _ => rfl) _

/-- An event of a thread, seen by another one. -/
theorem sectionsBy_record_of_ne {i j : ι} (hij : j ≠ i) (sections : List (Section A ι H))
    (e : Event A H) : sectionsBy i (record sections j e) = sectionsBy i sections := by
  cases e with
  | request h mode | busy h mode => rfl
  | grant h mode => simp [record, sectionsBy, List.filter_append, hij]
  | exec h a result =>
    exact sectionsBy_amend_of_ne hij h (Section.addStep ⟨a, result⟩) (fun _ => rfl) _
  | release h => exact sectionsBy_amend_of_ne hij h Section.close (fun _ => rfl) _

/-- The sections of one thread in a run are those of its own events. -/
theorem sectionsBy_sectionsOf (i : ι) (events : List (ι × Event A H)) :
    sectionsBy i (sectionsOf events) = sectionsOf (events.filter fun e => e.1 = i) := by
  induction events using List.reverseRecOn with
  | nil => rfl
  | append_singleton events e ih =>
    obtain ⟨j, e⟩ := e
    rw [sectionsOf_concat, List.filter_append]
    by_cases hij : j = i
    · subst hij
      have hlast : ([(j, e)] : List (ι × Event A H)).filter (fun e => e.1 = j) = [(j, e)] := by
        simp
      rw [hlast, sectionsOf_concat, ← ih, sectionsBy_record_self]
    · have hlast : ([(j, e)] : List (ι × Event A H)).filter (fun e => e.1 = i) = [] := by
        simp [hij]
      rw [hlast, List.append_nil, ← ih, sectionsBy_record_of_ne hij]

/-! ## Replaying actions -/

/-- Executing the actions of the list from the first state gives the listed
results and the last state. -/
def Replays (s : St) (steps : List (Σ a, A.Ret a)) (s' : St) : Prop :=
  results A.exec (steps.map Sigma.fst) s = steps ∧
    stateAfter A.exec (steps.map Sigma.fst) s = s'

/-- No steps change nothing. -/
theorem replays_nil (s : St) : Replays (A := A) s [] s := ⟨rfl, rfl⟩

/-- Steps are replayed one after the other. -/
theorem replays_cons {s s' : St} {a : A.Act} {result : A.Ret a} {steps : List (Σ a, A.Ret a)} :
    Replays s (⟨a, result⟩ :: steps) s' ↔
      (A.exec a s).1 = result ∧ Replays (A.exec a s).2 steps s' := by
  unfold Replays
  simp only [List.map_cons, results, stateAfter_cons, List.cons.injEq, Sigma.mk.injEq, heq_eq_eq,
    true_and, and_assoc]

/-- Two lists of steps are replayed one after the other. -/
theorem replays_append {s s' : St} {steps steps' : List (Σ a, A.Ret a)} :
    Replays s (steps ++ steps') s' ↔ ∃ m, Replays s steps m ∧ Replays m steps' s' := by
  induction steps generalizing s with
  | nil =>
    constructor
    · intro h
      exact ⟨s, replays_nil s, h⟩
    · rintro ⟨m, ⟨_, rfl⟩, h⟩
      exact h
  | cons step steps ih =>
    obtain ⟨a, result⟩ := step
    simp only [List.cons_append, replays_cons, ih]
    constructor
    · rintro ⟨hresult, m, h, h'⟩
      exact ⟨m, ⟨hresult, h⟩, h'⟩
    · rintro ⟨m, ⟨hresult, h⟩, h'⟩
      exact ⟨hresult, m, h, h'⟩

/-- Read actions give their results in one state and leave it. -/
theorem Replays.of_reads {s s' : St} {steps : List (Σ a, A.Ret a)} (h : Replays s steps s')
    (hreads : ∀ step ∈ steps, A.isRead step.1 = true) :
    s' = s ∧ ∀ step ∈ steps, (A.exec step.1 s).1 = step.2 := by
  induction steps with
  | nil => exact ⟨h.2.symm, fun step hstep => absurd hstep List.not_mem_nil⟩
  | cons step steps ih =>
    obtain ⟨a, result⟩ := step
    obtain ⟨hresult, hrest⟩ := replays_cons.mp h
    rw [A.exec_of_isRead a s (hreads _ List.mem_cons_self)] at hrest
    obtain ⟨hstate, hsteps⟩ :=
      ih hrest fun step hstep => hreads step (List.mem_cons_of_mem _ hstep)
    refine ⟨hstate, fun step hstep => ?_⟩
    rcases List.mem_cons.mp hstep with rfl | hstep
    · exact hresult
    · exact hsteps step hstep

/-- The actions of the sections, one section after the other. -/
def serialSteps (sections : List (Section A ι H)) : List (Σ a, A.Ret a) :=
  sections.flatMap Section.steps

/-! ## Serializability -/

/-- Two sections of which the first was opened first: if it is still open, both
hold read guards, and different ones. -/
def Compatible (sec later : Section A ι H) : Prop :=
  sec.isOpen = true → sec.guard.mode = .read ∧ later.guard.mode = .read ∧
    (later.isOpen = true → sec.guard.isOf later.guard.thread later.guard.handle = false)

/-- The lock keeps the sections of a run in a serial order. -/
structure Serial (s : St) (c : Config A ι H) (sections : List (Section A ι H)) : Prop where
  /-- Executing the sections one at a time gives their results and the state. -/
  replays : Replays s (serialSteps sections) c.state
  /-- The guards held are those of the open sections. -/
  guards_iff : ∀ g, g ∈ c.guards ↔ ∃ sec ∈ sections, sec.isOpen = true ∧ sec.guard = g
  /-- Under a read guard there are read actions only. -/
  reads : ∀ sec ∈ sections, sec.guard.mode = .read →
    ∀ step ∈ sec.steps, A.isRead step.1 = true
  /-- Open sections exclude later ones as the lock says. -/
  compatible : sections.Pairwise Compatible

namespace Serial

variable {s : St} {c : Config A ι H} {sections : List (Section A ι H)}

/-- No sections are a serial order of the start. -/
theorem initial (s : St) (progs : ι → Prog A H) : Serial s (Config.initial s progs) [] where
  replays := replays_nil s
  guards_iff g := by simp [Config.initial]
  reads sec hsec := absurd hsec List.not_mem_nil
  compatible := List.Pairwise.nil

/-- The threads do not matter. -/
theorem withThreads (h : Serial s c sections) (threads : ι → Thread A H) :
    Serial s { c with threads } sections :=
  ⟨h.replays, h.guards_iff, h.reads, h.compatible⟩

/-- A guard that excludes no open section opens a section at the end. -/
theorem grant (h : Serial s c sections) (g : Guard ι H)
    (hlater : ∀ sec ∈ sections, sec.isOpen = true →
      sec.guard.mode = .read ∧ g.mode = .read ∧ sec.guard.isOf g.thread g.handle = false) :
    Serial s { c with guards := g :: c.guards } (sections ++ [⟨g, true, []⟩]) where
  replays := by
    have hsame : serialSteps (sections ++ [⟨g, true, []⟩]) = serialSteps sections := by
      simp [serialSteps]
    rw [hsame]
    exact h.replays
  guards_iff g' := by
    rw [List.mem_cons, h.guards_iff g']
    constructor
    · rintro (rfl | ⟨sec, hsec, hopen, hguard⟩)
      · exact ⟨_, List.mem_append_right _ List.mem_cons_self, rfl, rfl⟩
      · exact ⟨sec, List.mem_append_left _ hsec, hopen, hguard⟩
    · rintro ⟨sec, hsec, hopen, hguard⟩
      rcases List.mem_append.mp hsec with hsec | hsec
      · exact Or.inr ⟨sec, hsec, hopen, hguard⟩
      · obtain rfl := List.mem_singleton.mp hsec
        exact Or.inl hguard.symm
  reads sec hsec hmode step hstep := by
    rcases List.mem_append.mp hsec with hsec | hsec
    · exact h.reads sec hsec hmode step hstep
    · obtain rfl := List.mem_singleton.mp hsec
      exact absurd hstep List.not_mem_nil
  compatible := by
    refine List.pairwise_append.mpr ⟨h.compatible, List.pairwise_singleton _ _, ?_⟩
    intro sec hsec later hlast hopen
    obtain rfl := List.mem_singleton.mp hlast
    obtain ⟨hmode, hread, hother⟩ := hlater sec hsec hopen
    exact ⟨hmode, hread, fun _ => hother⟩

/-- The test for the open section of a thread under a handle. -/
theorem isOf_iff {sec : Section A ι H} {i : ι} {h : H} :
    sec.isOf i h = true ↔ sec.isOpen = true ∧ sec.guard.isOf i h = true :=
  Bool.and_eq_true_iff

omit [DecidableEq ι] [DecidableEq H] in
/-- The steps before, in and after a section. -/
theorem serialSteps_split (pre : List (Section A ι H)) (sec : Section A ι H)
    (post : List (Section A ι H)) :
    serialSteps (pre ++ sec :: post) =
      serialSteps pre ++ (sec.steps ++ serialSteps post) := by
  simp [serialSteps]

/-- The open section of a held guard, between the sections before and after it.
No other open section belongs to the same thread and handle. -/
theorem split (hserial : Serial s c sections) {i : ι} {h : H} {mode : Mode}
    (hheld : ⟨i, h, mode⟩ ∈ c.guards) :
    ∃ pre sec post, sections = pre ++ sec :: post ∧ sec.guard = ⟨i, h, mode⟩ ∧
      sec.isOpen = true ∧
      (∀ other ∈ pre ++ post, other.isOpen = true → other.guard.isOf i h = false) ∧
      ∀ f, amend i h f sections = pre ++ f sec :: post := by
  obtain ⟨sec, hsec, hopen, hguard⟩ := (hserial.guards_iff _).mp hheld
  obtain ⟨pre, post, rfl⟩ := List.append_of_mem hsec
  obtain ⟨_, hpost, hpre⟩ := List.pairwise_append.mp hserial.compatible
  have hothers : ∀ other ∈ pre ++ post, other.isOpen = true → other.guard.isOf i h = false := by
    intro other hother hopen'
    rcases List.mem_append.mp hother with hother | hother
    · have hne := (hpre other hother sec List.mem_cons_self hopen').2.2 hopen
      rw [hguard] at hne
      exact hne
    · have hne := ((List.pairwise_cons.mp hpost).1 other hother hopen).2.2 hopen'
      rw [hguard] at hne
      refine Bool.eq_false_iff.mpr fun hkey => ?_
      obtain ⟨hthread, hhandle⟩ := guard_isOf_iff.mp hkey
      rw [hthread, hhandle] at hne
      simp [Guard.isOf] at hne
  refine ⟨pre, sec, post, rfl, hguard, hopen, hothers, fun f => ?_⟩
  have hown : sec.isOf i h = true := isOf_iff.mpr ⟨hopen, guard_isOf_iff.mpr (by simp [hguard])⟩
  have hsame : ∀ l : List (Section A ι H), (∀ other ∈ l, other ∈ pre ++ post) →
      amend i h f l = l := by
    intro l hl
    unfold amend
    conv_rhs => rw [← List.map_id l]
    refine List.map_congr_left fun other hother => if_neg fun hisOf => ?_
    obtain ⟨hopen', hkey⟩ := isOf_iff.mp hisOf
    rw [hothers other (hl other hother) hopen'] at hkey
    cases hkey
  have happend : amend i h f (pre ++ sec :: post) =
      amend i h f pre ++ (if sec.isOf i h then f sec else sec) :: amend i h f post := by
    simp [amend]
  rw [happend, hsame pre fun _ => List.mem_append_left post,
    hsame post fun _ => List.mem_append_right pre, if_pos hown]

/-- Compatibility only reads the guards and whether they are held. -/
theorem pairwise_replace {pre post : List (Section A ι H)} {sec sec' : Section A ι H}
    (h : (pre ++ sec :: post).Pairwise Compatible) (hguard : sec'.guard = sec.guard)
    (hopen : sec'.isOpen = true → sec.isOpen = true) :
    (pre ++ sec' :: post).Pairwise Compatible := by
  obtain ⟨hpre, hrest, hcross⟩ := List.pairwise_append.mp h
  obtain ⟨hsec, hpost⟩ := List.pairwise_cons.mp hrest
  refine List.pairwise_append.mpr ⟨hpre, List.pairwise_cons.mpr ⟨?_, hpost⟩, ?_⟩
  · intro later hlater hopen'
    rw [hguard]
    exact hsec later hlater (hopen hopen')
  · intro first hfirst later hlater
    rcases List.mem_cons.mp hlater with rfl | hlater
    · intro hopen'
      obtain ⟨hmode, hmode', hother⟩ := hcross first hfirst sec List.mem_cons_self hopen'
      rw [hguard]
      exact ⟨hmode, hmode', fun h => hother (hopen h)⟩
    · exact hcross first hfirst later (List.mem_cons_of_mem _ hlater)

/-- An action under a guard goes into the section of the guard. The later
sections only read, so it could have been executed before them. -/
theorem exec (hserial : Serial s c sections) {i : ι} {h : H} {mode : Mode} {a : A.Act}
    (hheld : ⟨i, h, mode⟩ ∈ c.guards) (hmode : mode = .write ∨ A.isRead a = true) :
    Serial s { c with state := (A.exec a c.state).2 }
      (amend i h (Section.addStep ⟨a, (A.exec a c.state).1⟩) sections) := by
  obtain ⟨pre, sec, post, rfl, hguard, hopen, _, hamend⟩ := hserial.split hheld
  have hlater : ∀ later ∈ post, sec.guard.mode = .read ∧ later.guard.mode = .read := by
    intro later hpost
    have hrest := (List.pairwise_append.mp hserial.compatible).2.1
    obtain ⟨hmode, hmode', _⟩ := (List.pairwise_cons.mp hrest).1 later hpost hopen
    exact ⟨hmode, hmode'⟩
  have hreads : ∀ step ∈ serialSteps post, A.isRead step.1 = true := by
    intro step hstep
    obtain ⟨later, hpost, hstep⟩ := List.mem_flatMap.mp hstep
    exact hserial.reads later (List.mem_append_right _ (List.mem_cons_of_mem _ hpost))
      (hlater later hpost).2 step hstep
  have hreplays := hserial.replays
  rw [serialSteps_split] at hreplays
  obtain ⟨m₁, hpre, hrest⟩ := replays_append.mp hreplays
  obtain ⟨m, hsec, hpost⟩ := replays_append.mp hrest
  obtain ⟨hstate, _⟩ := hpost.of_reads hreads
  rw [hamend]
  refine ⟨?_, fun g => ?_, ?_, pairwise_replace hserial.compatible rfl fun h => h⟩
  · rw [serialSteps_split]
    refine replays_append.mpr ⟨m₁, hpre, replays_append.mpr ⟨(A.exec a m).2, ?_, ?_⟩⟩
    · refine replays_append.mpr ⟨m, hsec, replays_cons.mpr ⟨?_, replays_nil _⟩⟩
      rw [hstate]
    · rcases hmode with rfl | hread
      · have hnil : post = [] := by
          refine List.eq_nil_iff_forall_not_mem.mpr fun later hpost => ?_
          have hwrite := (hlater later hpost).1
          rw [hguard] at hwrite
          cases hwrite
        subst hnil
        rw [hstate]
        exact replays_nil _
      · rw [A.exec_of_isRead a m hread, hstate, A.exec_of_isRead a m hread]
        rw [hstate] at hpost
        exact hpost
  · rw [hserial.guards_iff g]
    simp only [List.mem_append, List.mem_cons, or_and_right, exists_or, exists_eq_left]
    exact Iff.rfl
  · intro other hother hread step hstep
    rcases List.mem_append.mp hother with hother | hother
    · exact hserial.reads other (List.mem_append_left _ hother) hread step hstep
    · rcases List.mem_cons.mp hother with rfl | hother
      · rcases List.mem_append.mp hstep with hstep | hstep
        · exact hserial.reads sec (List.mem_append_right _ List.mem_cons_self) hread step hstep
        · obtain rfl := List.mem_singleton.mp hstep
          have hsecmode : sec.guard.mode = .read := hread
          rw [hguard] at hsecmode
          rcases hmode with rfl | hread
          · cases hsecmode
          · exact hread
      · exact hserial.reads other (List.mem_append_right _ (List.mem_cons_of_mem _ hother)) hread
          step hstep

/-- A released guard closes its section. -/
theorem release (hserial : Serial s c sections) {i : ι} {h : H} {mode : Mode}
    (hheld : ⟨i, h, mode⟩ ∈ c.guards) :
    Serial s { c with guards := c.guards.filter fun g => !g.isOf i h }
      (amend i h Section.close sections) := by
  obtain ⟨pre, sec, post, rfl, hguard, hopen, hothers, hamend⟩ := hserial.split hheld
  rw [hamend]
  refine ⟨?_, fun g => ?_, ?_, pairwise_replace hserial.compatible rfl fun h => nomatch h⟩
  · have hreplays := hserial.replays
    rw [serialSteps_split] at hreplays ⊢
    exact hreplays
  · rw [List.mem_filter, hserial.guards_iff g]
    constructor
    · rintro ⟨⟨other, hother, hopen', rfl⟩, hkey⟩
      rcases List.mem_append.mp hother with hother | hother
      · exact ⟨other, List.mem_append_left _ hother, hopen', rfl⟩
      · rcases List.mem_cons.mp hother with rfl | hother
        · simp [hguard, Guard.isOf] at hkey
        · exact ⟨other, List.mem_append_right _ (List.mem_cons_of_mem _ hother), hopen', rfl⟩
    · rintro ⟨other, hother, hopen', rfl⟩
      have hmem : other ∈ pre ++ post := by
        rcases List.mem_append.mp hother with hother | hother
        · exact List.mem_append_left _ hother
        · rcases List.mem_cons.mp hother with rfl | hother
          · cases hopen'
          · exact List.mem_append_right _ hother
      refine ⟨⟨other, ?_, hopen', rfl⟩, by rw [hothers other hmem hopen']; rfl⟩
      rcases List.mem_append.mp hmem with hother | hother
      · exact List.mem_append_left _ hother
      · exact List.mem_append_right _ (List.mem_cons_of_mem _ hother)
  · intro other hother hread step hstep
    rcases List.mem_append.mp hother with hother | hother
    · exact hserial.reads other (List.mem_append_left _ hother) hread step hstep
    · rcases List.mem_cons.mp hother with rfl | hother
      · exact hserial.reads sec (List.mem_append_right _ List.mem_cons_self) hread step hstep
      · exact hserial.reads other (List.mem_append_right _ (List.mem_cons_of_mem _ hother)) hread
          step hstep

/-- A guard that the lock grants is new to its thread. -/
theorem fresh_of_grants (hserial : Serial s c sections) {refuse : Config A ι H → ι → Bool} {i : ι}
    {h : H} {mode : Mode} (hgrants : c.Grants refuse i h mode) :
    ∀ sec ∈ sections, sec.isOf i h = false := by
  intro sec hsec
  refine Bool.eq_false_iff.mpr fun hown => ?_
  obtain ⟨hopen, hkey⟩ := isOf_iff.mp hown
  have hheld : sec.guard ∈ c.guards := (hserial.guards_iff _).mpr ⟨sec, hsec, hopen, rfl⟩
  cases mode with
  | read =>
    have hother := hgrants.1 _ hheld
    rw [hkey] at hother
    cases hother
  | write =>
    have hfree : c.guards = [] := hgrants
    rw [hfree] at hheld
    exact absurd hheld List.not_mem_nil

/-- Every step keeps the sections in a serial order. -/
theorem step (hserial : Serial s c sections) {refuse : Config A ι H → ι → Bool}
    {c' : Config A ι H} {i : ι} {e : Event A H} (hstep : Step refuse c i e c') :
    Serial s c' (record sections i e) := by
  cases hstep with
  | request _ => exact hserial.withThreads _
  | busy _ _ => exact hserial.withThreads _
  | @grant h mode _ _ hgrants =>
    refine (hserial.grant ⟨i, h, mode⟩ fun sec hsec hopen => ?_).withThreads _
    have hheld : sec.guard ∈ c.guards := (hserial.guards_iff _).mpr ⟨sec, hsec, hopen, rfl⟩
    cases mode with
    | read =>
      obtain ⟨hfresh, hshared, _⟩ := hgrants
      exact ⟨hshared _ hheld, rfl, hfresh _ hheld⟩
    | write =>
      have hfree : c.guards = [] := hgrants
      rw [hfree] at hheld
      exact absurd hheld List.not_mem_nil
  | exec _ hheld hmode => exact (hserial.exec hheld hmode).withThreads _
  | release _ hheld => exact (hserial.release hheld).withThreads _

/-- Each section starts in the state that the sections before it leave. All the
actions of a read section give their results in that one state. -/
theorem section_state (hserial : Serial s c sections) {pre post : List (Section A ι H)}
    {sec : Section A ι H} (hsplit : sections = pre ++ sec :: post) :
    ∃ m m', Replays s (serialSteps pre) m ∧ Replays m sec.steps m' ∧
      Replays m' (serialSteps post) c.state ∧
      (sec.guard.mode = .read → m' = m ∧ ∀ step ∈ sec.steps, (A.exec step.1 m).1 = step.2) := by
  subst hsplit
  have hreplays := hserial.replays
  rw [serialSteps_split] at hreplays
  obtain ⟨m, hpre, hrest⟩ := replays_append.mp hreplays
  obtain ⟨m', hsec, hpost⟩ := replays_append.mp hrest
  refine ⟨m, m', hpre, hsec, hpost, fun hmode => hsec.of_reads fun step hstep => ?_⟩
  exact hserial.reads sec (List.mem_append_right _ List.mem_cons_self) hmode step hstep

end Serial

/-- An order in which the sections of a run from state `s` to state `s'` could have
been executed one at a time. -/
structure SerialOrder (s : St) (events : List (ι × Event A H)) (s' : St)
    (order : List (Section A ι H)) : Prop where
  /-- Each thread has its own sections, in the order of its program. -/
  sectionsBy_eq : ∀ i, sectionsBy i order = sectionsOf (events.filter fun e => e.1 = i)
  /-- Executing section after section gives all results and the last state. -/
  replays : Replays s (serialSteps order) s'
  /-- Each section goes from the state that the sections before it leave to that which
  the sections after it start in. A read section reads that one state. -/
  section_state : ∀ pre sec post, order = pre ++ sec :: post → ∃ m m',
    Replays s (serialSteps pre) m ∧ Replays m sec.steps m' ∧
      Replays m' (serialSteps post) s' ∧
      (sec.guard.mode = .read → m' = m ∧ ∀ step ∈ sec.steps, (A.exec step.1 m).1 = step.2)

/-- The invariant holds in every run of programs. -/
theorem Run.serial {refuse : Config A ι H → ι → Bool} {s : St} {progs : ι → Prog A H}
    {events : List (ι × Event A H)} {c : Config A ι H}
    (hrun : Run refuse (Config.initial s progs) events c) : Serial s c (sectionsOf events) := by
  induction hrun with
  | start => exact Serial.initial s progs
  | step _ hstep ih =>
    rw [sectionsOf_concat]
    exact ih.step hstep

/-- The sections of a run, in the order of their grants, are in a serial order. -/
theorem Run.serialOrder {refuse : Config A ι H → ι → Bool} {s : St} {progs : ι → Prog A H}
    {events : List (ι × Event A H)} {c : Config A ι H}
    (hrun : Run refuse (Config.initial s progs) events c) :
    SerialOrder s events c.state (sectionsOf events) where
  sectionsBy_eq i := sectionsBy_sectionsOf i events
  replays := hrun.serial.replays
  section_state _ _ _ hsplit := hrun.serial.section_state hsplit

/-! ## Real time -/

/-- The section later in the run. If it is closed, it stays as it is. -/
structure Section.Continues (sec sec' : Section A ι H) : Prop where
  /-- The guard is the same. -/
  guard_eq : sec'.guard = sec.guard
  /-- Nothing that has been done is undone. -/
  steps_prefix : sec.steps <+: sec'.steps
  /-- A closed section is complete. -/
  eq_of_closed : sec.isOpen = false → sec' = sec

/-- The sections later in the run. Those that have been opened since come last. -/
def Extends : List (Section A ι H) → List (Section A ι H) → Prop
  | [], _ => True
  | _ :: _, [] => False
  | sec :: sections, sec' :: sections' => sec.Continues sec' ∧ Extends sections sections'

omit [DecidableEq ι] [DecidableEq H] in
/-- A section continues itself. -/
theorem Section.Continues.refl (sec : Section A ι H) : sec.Continues sec :=
  ⟨rfl, List.prefix_refl _, fun _ => rfl⟩

omit [DecidableEq ι] [DecidableEq H] in
/-- A continuation of a continuation is a continuation. -/
theorem Section.Continues.trans {sec₁ sec₂ sec₃ : Section A ι H} (h : sec₁.Continues sec₂)
    (h' : sec₂.Continues sec₃) : sec₁.Continues sec₃ where
  guard_eq := h'.guard_eq.trans h.guard_eq
  steps_prefix := h.steps_prefix.trans h'.steps_prefix
  eq_of_closed hclosed := by
    obtain rfl := h.eq_of_closed hclosed
    exact h'.eq_of_closed hclosed

omit [DecidableEq ι] [DecidableEq H] in
/-- Opening sections after all others. -/
theorem extends_append (sections later : List (Section A ι H)) :
    Extends sections (sections ++ later) := by
  induction sections with
  | nil => trivial
  | cons sec sections ih => exact ⟨.refl sec, ih⟩

omit [DecidableEq ι] [DecidableEq H] in
/-- Sections extend themselves. -/
theorem Extends.refl (sections : List (Section A ι H)) : Extends sections sections := by
  have h := extends_append sections []
  rwa [List.append_nil] at h

omit [DecidableEq ι] [DecidableEq H] in
/-- An extension of an extension is an extension. -/
theorem Extends.trans {sections₁ sections₂ sections₃ : List (Section A ι H)}
    (h : Extends sections₁ sections₂) (h' : Extends sections₂ sections₃) :
    Extends sections₁ sections₃ := by
  induction sections₁ generalizing sections₂ sections₃ with
  | nil => trivial
  | cons sec₁ sections₁ ih =>
    cases sections₂ with
    | nil => exact h.elim
    | cons sec₂ sections₂ =>
      cases sections₃ with
      | nil => exact h'.elim
      | cons sec₃ sections₃ => exact ⟨h.1.trans h'.1, ih h.2 h'.2⟩

/-- An amendment continues the open sections. -/
theorem extends_amend (i : ι) (h : H) {f : Section A ι H → Section A ι H}
    (hf : ∀ sec : Section A ι H, sec.isOpen = true → sec.Continues (f sec))
    (sections : List (Section A ι H)) : Extends sections (amend i h f sections) := by
  induction sections with
  | nil => trivial
  | cons sec sections ih =>
    refine ⟨?_, ih⟩
    by_cases hsec : sec.isOf i h = true
    · have hopen : sec.isOpen = true := by
        simp only [Section.isOf, Bool.and_eq_true] at hsec
        exact hsec.1
      dsimp only
      rw [if_pos hsec]
      exact hf sec hopen
    · dsimp only
      rw [if_neg hsec]
      exact .refl sec

omit [DecidableEq ι] [DecidableEq H] in
/-- An open section continues with a step. -/
theorem Section.continues_addStep {sec : Section A ι H} (hopen : sec.isOpen = true)
    (step : Σ a, A.Ret a) : sec.Continues (sec.addStep step) where
  guard_eq := rfl
  steps_prefix := List.prefix_append sec.steps [step]
  eq_of_closed hclosed := by cases hopen.symm.trans hclosed

omit [DecidableEq ι] [DecidableEq H] in
/-- An open section continues with its end. -/
theorem Section.continues_close {sec : Section A ι H} (hopen : sec.isOpen = true) :
    sec.Continues sec.close where
  guard_eq := rfl
  steps_prefix := List.prefix_refl _
  eq_of_closed hclosed := by cases hopen.symm.trans hclosed

/-- Every event continues the sections. -/
theorem extends_record (sections : List (Section A ι H)) (i : ι) (e : Event A H) :
    Extends sections (record sections i e) := by
  cases e with
  | request h mode => exact .refl sections
  | busy h mode => exact .refl sections
  | grant h mode => exact extends_append sections _
  | exec h a result =>
    exact extends_amend i h (fun sec hopen => sec.continues_addStep hopen ⟨a, result⟩) sections
  | release h => exact extends_amend i h (fun sec hopen => sec.continues_close hopen) sections

/-- The sections of a run are continued by every longer run. -/
theorem sectionsOf_extends {events events' : List (ι × Event A H)} (hbegins : events <+: events') :
    Extends (sectionsOf events) (sectionsOf events') := by
  obtain ⟨post, rfl⟩ := hbegins
  induction post using List.reverseRecOn with
  | nil =>
    rw [List.append_nil]
    exact .refl _
  | append_singleton post e ih =>
    obtain ⟨i, e⟩ := e
    rw [← List.append_assoc, sectionsOf_concat]
    exact ih.trans (extends_record _ i e)

end RwLocks
