import Mathlib.Data.DFinsupp.WellFounded
import TsKvstore.Lib.RwLock

/-!
# Progress behind a read-write lock

A disciplined program uses only guards that it holds, waits for a write guard only
when it holds no guard, and ends without guards. Threads of such programs can block
each other in one way only: one waits for a second read guard, which the lock may
refuse because another waits for a write guard, and that one waits until the first
read guard is released. A run in which no step brings two such requests together
does not get stuck.
-/

namespace RwLocks

universe u

variable {St : Type u} {ι H : Type*} {A : Actions St} [DecidableEq ι] [DecidableEq H]

/-! ## Discipline -/

/-- A program that holds the guards `held` uses guards as the lock wants it. If it is
not `nested`, it waits for guards only when it holds none. -/
def Prog.Disciplined (nested : Bool) : Prog A H → (H → Option Mode) → Prop
  | .done, held => ∀ h, held h = none
  | .acquire h mode next, held =>
    held h = none ∧ (∀ h', held h' ≠ some .write) ∧
      (mode = .write ∨ nested = false → ∀ h', held h' = none) ∧
      next.Disciplined nested (Function.update held h (some mode))
  | .tryAcquire h mode next, held =>
    held h = none ∧ (next true).Disciplined nested (Function.update held h (some mode)) ∧
      (next false).Disciplined nested held
  | .exec h a next, held =>
    (∃ mode, held h = some mode ∧ (mode = .write ∨ A.isRead a = true)) ∧
      ∀ result, (next result).Disciplined nested held
  | .release h next, held =>
    held h ≠ none ∧ next.Disciplined nested (Function.update held h none)

omit [DecidableEq ι] in
/-- A program goes on with the guards it had before it got the guard it releases. -/
theorem disciplined_release {nested : Bool} {held : H → Option Mode} {h : H} {mode : Mode}
    {next : Prog A H} (hfresh : held h = none) (hnext : next.Disciplined nested held) :
    (Prog.release h next).Disciplined nested (Function.update held h (some mode)) := by
  refine ⟨by simp, ?_⟩
  have hback : Function.update (Function.update held h (some mode)) h none = held := by
    rw [Function.update_idem, ← hfresh, Function.update_eq_self]
  rw [hback]
  exact hnext

/-- The discipline of a thread. -/
def Thread.Disciplined (nested : Bool) : Thread A H → (H → Option Mode) → Prop
  | .running prog, held => prog.Disciplined nested held
  | .waiting h mode next, held => (Prog.acquire h mode next).Disciplined nested held

/-- The guards that a thread holds after an event of its own. -/
def Event.heldAfter (held : H → Option Mode) : Event A H → H → Option Mode
  | .grant h mode => Function.update held h (some mode)
  | .release h => Function.update held h none
  | .request _ _ | .busy _ _ | .exec _ _ _ => held

omit [DecidableEq ι] in
/-- A disciplined thread stays disciplined, whatever results it gets. -/
theorem LocalStep.disciplined {nested : Bool} {t t' : Thread A H} {e : Event A H}
    {held : H → Option Mode} (hlocal : LocalStep t e t') (ht : t.Disciplined nested held) :
    t'.Disciplined nested (e.heldAfter held) := by
  cases hlocal with
  | request h mode next => exact ht
  | grant h mode next => exact ht.2.2.2
  | tryGrant h mode next => exact ht.2.1
  | busy h mode next => exact ht.2.2
  | exec h a next result => exact ht.2 result
  | release h next => exact ht.2

omit [DecidableEq ι] in
/-- A disciplined thread gets guards under fresh names. -/
theorem LocalStep.fresh {nested : Bool} {t t' : Thread A H} {h : H} {mode : Mode}
    {held : H → Option Mode} (hlocal : LocalStep t (.grant h mode) t')
    (ht : t.Disciplined nested held) : held h = none := by
  cases hlocal with
  | grant h mode next => exact ht.1
  | tryGrant h mode next => exact ht.1

/-- All threads are disciplined, and the guards are those that they hold. -/
structure Disciplined (nested : Bool) (c : Config A ι H) (held : ι → H → Option Mode) :
    Prop where
  /-- The guards. -/
  guards_iff : ∀ i h mode, ⟨i, h, mode⟩ ∈ c.guards ↔ held i h = some mode
  /-- The threads. -/
  threads : ∀ i, (c.threads i).Disciplined nested (held i)

namespace Disciplined

variable {nested : Bool} {c c' : Config A ι H} {held : ι → H → Option Mode}

omit [DecidableEq ι] in
/-- Disciplined programs start without guards. -/
theorem initial (s : St) {progs : ι → Prog A H}
    (h : ∀ i, (progs i).Disciplined nested fun _ => none) :
    Disciplined nested (Config.initial s progs) fun _ _ => none where
  guards_iff i h mode := by simp [Config.initial]
  threads := h

/-- The guards after a step of a disciplined thread. -/
theorem guards_step (hc : Disciplined nested c held) {refuse : Config A ι H → ι → Bool} {i : ι}
    {e : Event A H} (hstep : Step refuse c i e c') (j : ι) (h : H) (mode : Mode) :
    ⟨j, h, mode⟩ ∈ c'.guards ↔
      Function.update held i (e.heldAfter (held i)) j h = some mode := by
  have hsame : ∀ e : Event A H, e.heldAfter (held i) = held i →
      (⟨j, h, mode⟩ ∈ c.guards ↔
        Function.update held i (e.heldAfter (held i)) j h = some mode) := by
    intro e he
    rw [he, Function.update_eq_self]
    exact hc.guards_iff j h mode
  cases hstep with
  | request _ => exact hsame (.request _ _) rfl
  | busy _ _ => exact hsame (.busy _ _) rfl
  | exec _ _ _ => exact hsame (.exec _ _ _) rfl
  | @grant h₁ mode₁ _ hlocal _ =>
    have hfresh : held i h₁ = none := hlocal.fresh (hc.threads i)
    rw [List.mem_cons, hc.guards_iff]
    by_cases hj : j = i
    · subst hj
      rw [Function.update_self]
      by_cases hh : h = h₁
      · subst hh
        simp [Event.heldAfter, hfresh, eq_comm]
      · simp [Event.heldAfter, hh]
    · simp [hj]
  | @release h₁ _ _ _ _ =>
    rw [List.mem_filter, hc.guards_iff]
    by_cases hj : j = i
    · subst hj
      rw [Function.update_self]
      by_cases hh : h = h₁
      · subst hh
        simp [Event.heldAfter, Guard.isOf]
      · simp [Event.heldAfter, Guard.isOf, hh]
    · simp [Guard.isOf, hj]

/-- Every step keeps the discipline. -/
theorem step (hc : Disciplined nested c held) {refuse : Config A ι H → ι → Bool} {i : ι}
    {e : Event A H} (hstep : Step refuse c i e c') :
    Disciplined nested c' (Function.update held i (e.heldAfter (held i))) where
  guards_iff := hc.guards_step hstep
  threads j := by
    obtain ⟨t, hlocal, hthreads⟩ := hstep.localStep
    rw [hthreads]
    by_cases hj : j = i
    · subst hj
      rw [Function.update_self, Function.update_self]
      exact hlocal.disciplined (hc.threads j)
    · rw [Function.update_of_ne hj, Function.update_of_ne hj]
      exact hc.threads j

/-- Disciplined programs stay disciplined in every run. -/
theorem run {s : St} {progs : ι → Prog A H} {refuse : Config A ι H → ι → Bool}
    {events : List (ι × Event A H)} (h : ∀ i, (progs i).Disciplined nested fun _ => none)
    (hrun : Run refuse (Config.initial s progs) events c) :
    ∃ held, Disciplined nested c held := by
  induction hrun with
  | start => exact ⟨_, initial s h⟩
  | step _ hstep ih =>
    obtain ⟨held, hc⟩ := ih
    exact ⟨_, hc.step hstep⟩

end Disciplined

/-! ## Crossed requests -/

/-- The thread holds a guard. -/
def Config.Holds (c : Config A ι H) (i : ι) : Prop := ∃ g ∈ c.guards, g.thread = i

/-- The thread waits for a guard of the mode. -/
def Config.WaitsFor (c : Config A ι H) (mode : Mode) (i : ι) : Prop :=
  ∃ h next, c.threads i = .waiting h mode next

/-- A thread waits for a second guard while another waits for a write guard. -/
def Config.Crossed (c : Config A ι H) : Prop :=
  (∃ i, c.Holds i ∧ c.WaitsFor .read i) ∧ ∃ j, c.WaitsFor .write j

/-- The event brings a request for a second guard together with one for a write
guard. -/
def Config.Crosses (c : Config A ι H) (i : ι) : Event A H → Prop
  | .request _ .read => c.Holds i ∧ ∃ j, c.WaitsFor .write j
  | .request _ .write => ∃ j, c.Holds j ∧ c.WaitsFor .read j
  | .grant _ _ | .busy _ _ | .exec _ _ _ | .release _ => False

/-- The lock refuses readers only while a writer waits. -/
def Admissible (refuse : Config A ι H → ι → Bool) : Prop :=
  ∀ c i, refuse c i = true → ∃ j, c.WaitsFor .write j

/-- A thread that waits after its step has made a request in the step. -/
theorem Step.request_of_waiting {refuse : Config A ι H → ι → Bool} {c c' : Config A ι H}
    {i : ι} {e : Event A H} (hstep : Step refuse c i e c') {h : H} {mode : Mode}
    {next : Prog A H} (hwaiting : c'.threads i = .waiting h mode next) :
    e = .request h mode := by
  obtain ⟨t, hlocal, hthreads⟩ := hstep.localStep
  rw [hthreads, Function.update_self] at hwaiting
  subst hwaiting
  generalize c.threads i = t at hlocal
  cases hlocal
  rfl

/-- The thread of another step keeps its place. -/
theorem Step.waitsFor_of_ne {refuse : Config A ι H → ι → Bool} {c c' : Config A ι H} {i j : ι}
    {e : Event A H} (hstep : Step refuse c i e c') (hj : j ≠ i) (mode : Mode) :
    c'.WaitsFor mode j ↔ c.WaitsFor mode j := by
  obtain ⟨t, _, hthreads⟩ := hstep.localStep
  unfold Config.WaitsFor
  rw [hthreads, Function.update_of_ne hj]

/-- The other threads keep their guards. -/
theorem Step.holds_of_ne {refuse : Config A ι H → ι → Bool} {c c' : Config A ι H} {i j : ι}
    {e : Event A H} (hstep : Step refuse c i e c') (hj : j ≠ i) : c'.Holds j ↔ c.Holds j := by
  unfold Config.Holds
  cases hstep with
  | request _ => exact Iff.rfl
  | busy _ _ => exact Iff.rfl
  | exec _ _ _ => exact Iff.rfl
  | grant _ _ =>
    constructor
    · rintro ⟨g, hg, hthread⟩
      rcases List.mem_cons.mp hg with rfl | hg
      · exact absurd hthread.symm hj
      · exact ⟨g, hg, hthread⟩
    · rintro ⟨g, hg, hthread⟩
      exact ⟨g, List.mem_cons_of_mem _ hg, hthread⟩
  | release _ _ =>
    constructor
    · rintro ⟨g, hg, hthread⟩
      exact ⟨g, (List.mem_filter.mp hg).1, hthread⟩
    · rintro ⟨g, hg, hthread⟩
      have hother : g.thread ≠ i := by rw [hthread]; exact hj
      exact ⟨g, List.mem_filter.mpr ⟨hg, by simp [Guard.isOf, hother]⟩, hthread⟩

/-- A request leaves the guards alone. -/
theorem Step.guards_of_request {refuse : Config A ι H → ι → Bool} {c c' : Config A ι H} {i : ι}
    {h : H} {mode : Mode} (hstep : Step refuse c i (.request h mode) c') :
    c'.guards = c.guards := by
  cases hstep
  rfl

/-- A step that does not cross requests leaves none crossed. -/
theorem Step.not_crossed {refuse : Config A ι H → ι → Bool} {c c' : Config A ι H} {i : ι}
    {e : Event A H} (hstep : Step refuse c i e c') (hc : ¬ c.Crossed) (he : ¬ c.Crosses i e) :
    ¬ c'.Crossed := by
  rintro ⟨⟨k, hholds, hreads⟩, j, hwrites⟩
  by_cases hk : k = i
  · subst hk
    obtain ⟨h, next, hthread⟩ := hreads
    obtain rfl := hstep.request_of_waiting hthread
    have hj : j ≠ k := by
      rintro rfl
      obtain ⟨h', next', hthread'⟩ := hwrites
      rw [hthread] at hthread'
      cases hthread'
    have hholds' : c.Holds k := by
      unfold Config.Holds at hholds ⊢
      rw [hstep.guards_of_request] at hholds
      exact hholds
    exact he ⟨hholds', j, (hstep.waitsFor_of_ne hj _).mp hwrites⟩
  · have hholds' : c.Holds k := (hstep.holds_of_ne hk).mp hholds
    have hreads' : c.WaitsFor .read k := (hstep.waitsFor_of_ne hk _).mp hreads
    by_cases hj : j = i
    · subst hj
      obtain ⟨h, next, hthread⟩ := hwrites
      obtain rfl := hstep.request_of_waiting hthread
      exact he ⟨k, hholds', hreads'⟩
    · exact hc ⟨⟨k, hholds', hreads'⟩, j, (hstep.waitsFor_of_ne hj _).mp hwrites⟩

/-- No step of the run crosses requests. -/
def Uncrossed (refuse : Config A ι H → ι → Bool) (c : Config A ι H)
    (events : List (ι × Event A H)) : Prop :=
  ∀ pre i e c' c'', pre ++ [(i, e)] <+: events → Run refuse c pre c' → Step refuse c' i e c'' →
    ¬ c'.Crosses i e

/-- A run with uncrossed requests does not cross. -/
theorem Run.not_crossed {refuse : Config A ι H → ι → Bool} {s : St} {progs : ι → Prog A H}
    {events : List (ι × Event A H)} {c : Config A ι H}
    (hrun : Run refuse (Config.initial s progs) events c)
    (hevents : Uncrossed refuse (Config.initial s progs) events) : ¬ c.Crossed := by
  induction hrun with
  | start =>
    rintro ⟨_, j, h, next, hthread⟩
    cases hthread
  | @step events c' c'' i e hrun hstep ih =>
    have hpre : Uncrossed refuse (Config.initial s progs) events :=
      fun pre j e' d d' hbegins => hevents pre j e' d d' (hbegins.trans (List.prefix_append _ _))
    exact hstep.not_crossed (ih hpre) (hevents events i e c' c'' List.prefix_rfl hrun hstep)

/-! ## Progress -/

/-- All threads have come to their ends. -/
def Config.Finished (c : Config A ι H) : Prop := ∀ i, c.threads i = .running .done

/-- A thread is not finished, and no thread has a step. -/
def Config.Deadlocked (refuse : Config A ι H → ι → Bool) (c : Config A ι H) : Prop :=
  ¬ c.Finished ∧ ∀ i e c', ¬ Step refuse c i e c'

/-- Nothing fires exactly if the thread has no step. -/
theorem fire_eq_none_iff {refuse : Config A ι H → ι → Bool} {c : Config A ι H} {i : ι} :
    fire refuse c i = none ↔ ∀ e c', ¬ Step refuse c i e c' := by
  constructor
  · intro hfire e c' hstep
    rw [fire_of_step hstep] at hfire
    cases hfire
  · intro hnone
    refine Option.eq_none_iff_forall_ne_some.mpr ?_
    rintro ⟨e, c'⟩ hfire
    exact hnone e c' (step_of_fire hfire)

namespace Disciplined

variable {nested : Bool} {c : Config A ι H} {held : ι → H → Option Mode}
  {refuse : Config A ι H → ι → Bool}

/-- A running thread has a step until it is finished. -/
theorem fire_running (hc : Disciplined nested c held) {i : ι} {prog : Prog A H}
    (hthread : c.threads i = .running prog) (hprog : prog ≠ .done) :
    fire refuse c i ≠ none := by
  have hdisciplined := hc.threads i
  rw [hthread] at hdisciplined
  unfold fire
  rw [hthread]
  cases prog with
  | done => exact absurd rfl hprog
  | acquire h mode next => exact Option.some_ne_none _
  | tryAcquire h mode next =>
    dsimp only
    split <;> exact Option.some_ne_none _
  | exec h a next =>
    obtain ⟨⟨mode, hheld, hmode⟩, _⟩ := hdisciplined
    have hguard : ⟨i, h, mode⟩ ∈ c.guards := (hc.guards_iff i h mode).mpr hheld
    dsimp only
    rw [if_pos ⟨⟨i, h, mode⟩, hguard, guard_isOf_iff.mpr ⟨rfl, rfl⟩, hmode⟩]
    exact Option.some_ne_none _
  | release h next =>
    obtain ⟨mode, hheld⟩ := Option.ne_none_iff_exists'.mp hdisciplined.1
    have hguard : ⟨i, h, mode⟩ ∈ c.guards := (hc.guards_iff i h mode).mpr hheld
    dsimp only
    rw [if_pos ⟨⟨i, h, mode⟩, hguard, guard_isOf_iff.mpr ⟨rfl, rfl⟩⟩]
    exact Option.some_ne_none _

omit [DecidableEq ι] in
/-- A thread that waits although it holds a guard waits for a read guard. -/
theorem waits_read_of_holds (hc : Disciplined nested c held) {g : Guard ι H} (hg : g ∈ c.guards)
    (hwaits : ∃ mode, c.WaitsFor mode g.thread) :
    g.mode = .read ∧ c.WaitsFor .read g.thread := by
  have hheld : held g.thread g.handle = some g.mode := (hc.guards_iff _ _ _).mp hg
  obtain ⟨mode, h, next, hthread⟩ := hwaits
  have hdisciplined := hc.threads g.thread
  rw [hthread] at hdisciplined
  obtain ⟨_, hnowrite, hwrite, _⟩ := hdisciplined
  constructor
  · cases hmode : g.mode with
    | read => rfl
    | write => exact absurd (hmode ▸ hheld) (hnowrite g.handle)
  · cases mode with
    | read => exact ⟨h, next, hthread⟩
    | write =>
      have hnone := hwrite (Or.inl rfl) g.handle
      rw [hheld] at hnone
      cases hnone

/-- A thread that waits for a read guard gets it if all guards are read guards and
no writer waits. -/
theorem fire_reader (hc : Disciplined nested c held) (hrefuse : Admissible refuse) {i : ι}
    (hwaits : c.WaitsFor .read i) (hshared : ∀ g ∈ c.guards, g.mode = .read)
    (hwriters : ∀ j, ¬ c.WaitsFor .write j) : fire refuse c i ≠ none := by
  obtain ⟨h, next, hthread⟩ := hwaits
  have hdisciplined := hc.threads i
  rw [hthread] at hdisciplined
  have hfresh : ∀ g ∈ c.guards, g.isOf i h = false := by
    intro g hg
    refine Bool.eq_false_iff.mpr fun hisOf => ?_
    rw [eq_of_isOf hisOf] at hg
    have hheld : held i h = some g.mode := (hc.guards_iff i h g.mode).mp hg
    rw [hdisciplined.1] at hheld
    cases hheld
  have hadmitted : refuse c i = false := by
    refine Bool.eq_false_iff.mpr fun hrefused => ?_
    obtain ⟨j, hj⟩ := hrefuse c i hrefused
    exact hwriters j hj
  have hgrants : c.Grants refuse i h .read := ⟨hfresh, hshared, hadmitted⟩
  unfold fire
  rw [hthread]
  dsimp only
  rw [if_pos hgrants]
  exact Option.some_ne_none _

/-- A configuration of disciplined threads without crossed requests is not
deadlocked. -/
theorem not_deadlocked (hc : Disciplined nested c held) (hrefuse : Admissible refuse)
    (hcrossed : ¬ c.Crossed) : ¬ c.Deadlocked refuse := by
  rintro ⟨hunfinished, hnostep⟩
  have hstuck : ∀ i, fire refuse c i = none := fun i => fire_eq_none_iff.mpr (hnostep i)
  have hwaiting : ∀ i, c.threads i ≠ .running .done → ∃ mode, c.WaitsFor mode i := by
    intro i hi
    cases hthread : c.threads i with
    | running prog =>
      have hprog : prog ≠ .done := by
        rintro rfl
        exact hi hthread
      exact absurd (hstuck i) (hc.fire_running hthread hprog)
    | waiting h mode next => exact ⟨mode, h, next, hthread⟩
  have hholder : ∀ g ∈ c.guards, g.mode = .read ∧ c.WaitsFor .read g.thread := by
    intro g hg
    refine hc.waits_read_of_holds hg (hwaiting g.thread fun hdone => ?_)
    have hdisciplined := hc.threads g.thread
    rw [hdone] at hdisciplined
    have hheld : held g.thread g.handle = some g.mode := (hc.guards_iff _ _ _).mp hg
    rw [hdisciplined g.handle] at hheld
    cases hheld
  have hshared : ∀ g ∈ c.guards, g.mode = .read := fun g hg => (hholder g hg).1
  obtain ⟨i, hi⟩ := not_forall.mp hunfinished
  obtain ⟨mode, hwaits⟩ := hwaiting i hi
  by_cases hwriter : ∃ j, c.WaitsFor .write j
  · obtain ⟨j, hj⟩ := hwriter
    cases hguards : c.guards with
    | nil =>
      obtain ⟨h, next, hthread⟩ := hj
      have hfire := hstuck j
      unfold fire at hfire
      rw [hthread] at hfire
      dsimp only at hfire
      rw [if_pos (show c.Grants refuse j h .write from hguards)] at hfire
      cases hfire
    | cons g guards =>
      have hg : g ∈ c.guards := by rw [hguards]; exact List.mem_cons_self
      exact hcrossed ⟨⟨g.thread, ⟨g, hg, rfl⟩, (hholder g hg).2⟩, j, hj⟩
  · have hwriters : ∀ j, ¬ c.WaitsFor .write j := not_exists.mp hwriter
    have hread : c.WaitsFor .read i := by
      cases mode with
      | read => exact hwaits
      | write => exact absurd hwaits (hwriters i)
    exact hc.fire_reader hrefuse hread hshared hwriters (hstuck i)

end Disciplined

/-! ## The end of crossed requests -/

/-- A lock that refuses readers while requests are crossed leaves them crossed. -/
theorem Step.crossed {refuse : Config A ι H → ι → Bool}
    (hrefuse : ∀ c i, c.Crossed → refuse c i = true) {c c' : Config A ι H} {k : ι}
    {e : Event A H} (hstep : Step refuse c k e c') (hc : c.Crossed) : c'.Crossed := by
  have hgrants : ∀ h mode, c.WaitsFor mode k → ¬ c.Grants refuse k h mode := by
    intro h mode hwaits hgrants
    cases mode with
    | read =>
      have hadmitted : refuse c k = false := hgrants.2.2
      rw [hrefuse c k hc] at hadmitted
      cases hadmitted
    | write =>
      obtain ⟨⟨_, ⟨g, hg, _⟩, _⟩, _⟩ := hc
      have hfree : c.guards = [] := hgrants
      rw [hfree] at hg
      exact absurd hg List.not_mem_nil
  have hmoves : ∀ mode, ¬ c.WaitsFor mode k := by
    rintro mode ⟨h, next, hthread⟩
    have hwaits : c.WaitsFor mode k := ⟨h, next, hthread⟩
    have hfire := fire_of_step hstep
    unfold fire at hfire
    rw [hthread] at hfire
    dsimp only at hfire
    rw [if_neg (hgrants h mode hwaits)] at hfire
    cases hfire
  obtain ⟨⟨i, hholds, hreads⟩, j, hwrites⟩ := hc
  have hi : i ≠ k := fun heq => hmoves _ (heq ▸ hreads)
  have hj : j ≠ k := fun heq => hmoves _ (heq ▸ hwrites)
  exact ⟨⟨i, (hstep.holds_of_ne hi).mpr hholds, (hstep.waitsFor_of_ne hi _).mpr hreads⟩,
    j, (hstep.waitsFor_of_ne hj _).mpr hwrites⟩

/-- If readers are refused in crossed configurations, these stay crossed. -/
theorem Run.crossed {refuse : Config A ι H → ι → Bool}
    (hrefuse : ∀ c i, c.Crossed → refuse c i = true) {c c' : Config A ι H}
    {events : List (ι × Event A H)} (hrun : Run refuse c events c') (hc : c.Crossed) :
    c'.Crossed := by
  induction hrun with
  | start => exact hc
  | step _ hstep ih => exact hstep.crossed hrefuse ih

/-- A step that crosses requests leaves them crossed. -/
theorem Step.crossed_of_crosses {refuse : Config A ι H → ι → Bool} {c c' : Config A ι H} {i : ι}
    {e : Event A H} (hstep : Step refuse c i e c') (he : c.Crosses i e) : c'.Crossed := by
  have hmoves : ∀ h mode, e = .request h mode →
      c'.WaitsFor mode i ∧ ∀ mode', ¬ c.WaitsFor mode' i := by
    rintro h mode rfl
    obtain ⟨t, hlocal, hthreads⟩ := hstep.localStep
    unfold Config.WaitsFor
    rw [hthreads, Function.update_self]
    generalize c.threads i = thread at hlocal
    cases hlocal with
    | request h mode next =>
      refine ⟨⟨h, next, rfl⟩, ?_⟩
      rintro mode' ⟨h', next', hthread⟩
      cases hthread
  cases e with
  | request h mode =>
    obtain ⟨hwaits, hrunning⟩ := hmoves h mode rfl
    have hother : ∀ mode' j, c.WaitsFor mode' j → j ≠ i ∧ c'.WaitsFor mode' j := by
      intro mode' j hj
      have hne : j ≠ i := fun heq => hrunning mode' (heq ▸ hj)
      exact ⟨hne, (hstep.waitsFor_of_ne hne mode').mpr hj⟩
    cases mode with
    | read =>
      obtain ⟨⟨g, hg, hthread⟩, j, hwrites⟩ := he
      rw [← hstep.guards_of_request] at hg
      exact ⟨⟨i, ⟨g, hg, hthread⟩, hwaits⟩, j, (hother _ j hwrites).2⟩
    | write =>
      obtain ⟨j, hholds, hreads⟩ := he
      obtain ⟨hne, hreads'⟩ := hother _ j hreads
      exact ⟨⟨j, (hstep.holds_of_ne hne).mpr hholds, hreads'⟩, i, hwaits⟩
  | grant _ _ => exact absurd he id
  | busy _ _ => exact absurd he id
  | exec _ _ _ => exact absurd he id
  | release _ => exact absurd he id

/-- A thread is left with less to do. -/
def Thread.Later (t' t : Thread A H) : Prop := ∃ e, LocalStep t e t'

omit [DecidableEq H] in
/-- A thread takes finitely many steps. -/
theorem wellFounded_later : WellFounded (Thread.Later (A := A) (H := H)) := by
  have hrunning : ∀ prog : Prog A H, Acc Thread.Later (.running prog : Thread A H) := by
    intro prog
    induction prog with
    | done =>
      refine ⟨_, fun t ht => ?_⟩
      obtain ⟨e, hlocal⟩ := ht
      cases hlocal
    | acquire h mode next ih =>
      refine ⟨_, fun t ht => ⟨_, fun t' ht' => ?_⟩⟩
      obtain ⟨e, hlocal⟩ := ht
      cases hlocal
      obtain ⟨e', hlocal'⟩ := ht'
      cases hlocal'
      exact ih
    | tryAcquire h mode next ih =>
      refine ⟨_, fun t ht => ?_⟩
      obtain ⟨e, hlocal⟩ := ht
      cases hlocal with
      | tryGrant => exact ih true
      | busy => exact ih false
    | exec h a next ih =>
      refine ⟨_, fun t ht => ?_⟩
      obtain ⟨e, hlocal⟩ := ht
      cases hlocal with
      | exec _ _ _ result => exact ih result
    | release h next ih =>
      refine ⟨_, fun t ht => ?_⟩
      obtain ⟨e, hlocal⟩ := ht
      cases hlocal
      exact ih
  refine ⟨fun t => ?_⟩
  cases t with
  | running prog => exact hrunning prog
  | waiting h mode next =>
    refine ⟨_, fun t' ht' => ?_⟩
    obtain ⟨e, hlocal⟩ := ht'
    cases hlocal
    exact hrunning next

/-- Finitely many threads take finitely many steps. -/
theorem wellFounded_step [Finite ι] (refuse : Config A ι H → ι → Bool) :
    WellFounded fun c' c : Config A ι H => ∃ i e, Step refuse c i e c' := by
  have hwf : WellFounded (Pi.Lex WellOrderingRel fun {_ : ι} => Thread.Later (A := A) (H := H)) :=
    Pi.Lex.wellFounded _ fun _ => wellFounded_later
  refine Subrelation.wf ?_ (InvImage.wf Config.threads hwf)
  rintro c' c ⟨i, e, hstep⟩
  obtain ⟨t, hlocal, hthreads⟩ := hstep.localStep
  change Pi.Lex WellOrderingRel (fun {_ : ι} => Thread.Later) c'.threads c.threads
  rw [hthreads]
  refine ⟨i, fun j hj => ?_, ?_⟩
  · have hne : j ≠ i := fun heq => irrefl_of WellOrderingRel i (heq ▸ hj)
    exact Function.update_of_ne hne t c.threads
  · rw [Function.update_self]
    exact ⟨e, hlocal⟩

/-- Finitely many threads do not go on for ever. -/
theorem not_forever [Finite ι] (refuse : Config A ι H → ι → Bool) (run : ℕ → Config A ι H) :
    ¬ ∀ n, ∃ i e, Step refuse (run n) i e (run (n + 1)) := by
  intro hsteps
  have hchains := wellFounded_iff_isEmpty_descending_chain.mp (wellFounded_step refuse)
  exact hchains.false ⟨run, hsteps⟩

/-- Finitely many threads come to a configuration without steps. -/
theorem exists_stuck [Finite ι] (refuse : Config A ι H → ι → Bool) (c : Config A ι H) :
    ∃ events c', Run refuse c events c' ∧ ∀ i, fire refuse c' i = none := by
  induction c using (wellFounded_step refuse).induction with
  | _ c ih =>
    by_cases hstuck : ∀ i, fire refuse c i = none
    · exact ⟨[], c, .start, hstuck⟩
    · obtain ⟨i, hi⟩ := not_forall.mp hstuck
      obtain ⟨⟨e, c₁⟩, hfire⟩ := Option.ne_none_iff_exists'.mp hi
      have hstep := step_of_fire hfire
      obtain ⟨events, c', hrun, hstuck'⟩ := ih c₁ ⟨i, e, hstep⟩
      exact ⟨(i, e) :: events, c', hrun.prepend hstep, hstuck'⟩

/-- Runs can be put one after the other. -/
theorem Run.append {refuse : Config A ι H → ι → Bool} {c c' c'' : Config A ι H}
    {events events' : List (ι × Event A H)} (hrun : Run refuse c events c')
    (hrun' : Run refuse c' events' c'') : Run refuse c (events ++ events') c'' := by
  induction hrun' with
  | start =>
    rw [List.append_nil]
    exact hrun
  | step _ hstep ih =>
    rw [← List.append_assoc]
    exact .step ih hstep

/-- A step depends on the lock's answer in its own configuration only. -/
theorem Step.of_refuse_eq {refuse refuse' : Config A ι H → ι → Bool} {c c' : Config A ι H}
    {i : ι} {e : Event A H} (hstep : Step refuse c i e c') (hrefuse : refuse' c i = refuse c i) :
    Step refuse' c i e c' := by
  have hgrants : ∀ h mode, c.Grants refuse' i h mode ↔ c.Grants refuse i h mode := by
    intro h mode
    cases mode with
    | read =>
      unfold Config.Grants
      rw [hrefuse]
    | write => exact Iff.rfl
  cases hstep with
  | request hlocal => exact .request hlocal
  | grant hlocal hgranted => exact .grant hlocal ((hgrants _ _).mpr hgranted)
  | busy hlocal hbusy => exact .busy hlocal fun hgranted => hbusy ((hgrants _ _).mp hgranted)
  | exec hlocal hheld hmode => exact .exec hlocal hheld hmode
  | release hlocal hheld => exact .release hlocal hheld

open Classical in
/-- A lock that moreover refuses readers while requests are crossed. -/
noncomputable def refuseCrossed (refuse : Config A ι H → ι → Bool) :
    Config A ι H → ι → Bool :=
  fun c i => refuse c i || decide c.Crossed

omit [DecidableEq ι] [DecidableEq H] in
/-- In a crossed configuration everybody is refused. -/
theorem refuseCrossed_of_crossed (refuse : Config A ι H → ι → Bool) {c : Config A ι H}
    (hc : c.Crossed) (i : ι) : refuseCrossed refuse c i = true := by
  simp [refuseCrossed, hc]

omit [DecidableEq ι] [DecidableEq H] in
/-- In other configurations the policy decides. -/
theorem refuseCrossed_of_not_crossed (refuse : Config A ι H → ι → Bool) {c : Config A ι H}
    (hc : ¬ c.Crossed) (i : ι) : refuseCrossed refuse c i = refuse c i := by
  simp [refuseCrossed, hc]

omit [DecidableEq ι] [DecidableEq H] in
/-- The policy that refuses in crossed configurations is admissible as well. -/
theorem Admissible.refuseCrossed {refuse : Config A ι H → ι → Bool} (hrefuse : Admissible refuse) :
    Admissible (refuseCrossed refuse) := by
  intro c i hrefused
  by_cases hc : c.Crossed
  · exact hc.2
  · rw [refuseCrossed_of_not_crossed refuse hc] at hrefused
    exact hrefuse c i hrefused

/-- Until requests are crossed, the two locks allow the same runs. -/
theorem Run.refuseCrossed {refuse : Config A ι H → ι → Bool} {c c' : Config A ι H}
    {events : List (ι × Event A H)} (hrun : Run refuse c events c') :
    (∃ events' d, Run (refuseCrossed refuse) c events' d ∧ d.Crossed) ∨
      Run (refuseCrossed refuse) c events c' ∧ ¬ c'.Crossed := by
  induction hrun with
  | start =>
    by_cases hc : c.Crossed
    · exact Or.inl ⟨[], c, .start, hc⟩
    · exact Or.inr ⟨.start, hc⟩
  | @step events d d' i e _ hstep ih =>
    rcases ih with hcrossed | ⟨hrun, hd⟩
    · exact Or.inl hcrossed
    · have hstep' := hstep.of_refuse_eq (refuseCrossed_of_not_crossed refuse hd i)
      by_cases hd' : d'.Crossed
      · exact Or.inl ⟨_, d', .step hrun hstep', hd'⟩
      · exact Or.inr ⟨.step hrun hstep', hd'⟩

omit [DecidableEq ι] [DecidableEq H] in
/-- Crossed requests are not finished. -/
theorem Config.Crossed.not_finished {c : Config A ι H} (hc : c.Crossed) : ¬ c.Finished := by
  intro hfinished
  obtain ⟨_, j, h, next, hthread⟩ := hc
  rw [hfinished j] at hthread
  cases hthread

/-- If some run crosses requests, a lock that may refuse readers then has a deadlock. -/
theorem exists_deadlock [Finite ι] {refuse : Config A ι H → ι → Bool} {c c' : Config A ι H}
    {events : List (ι × Event A H)} (hrun : Run refuse c events c') (hc' : c'.Crossed) :
    ∃ events' d, Run (refuseCrossed refuse) c events' d ∧ d.Deadlocked (refuseCrossed refuse) := by
  have hreached : ∃ events' d, Run (refuseCrossed refuse) c events' d ∧ d.Crossed := by
    rcases hrun.refuseCrossed with hcrossed | ⟨_, hc⟩
    · exact hcrossed
    · exact absurd hc' hc
  obtain ⟨events₁, d, hrun₁, hd⟩ := hreached
  obtain ⟨events₂, d', hrun₂, hstuck⟩ := exists_stuck (refuseCrossed refuse) d
  have hd' : d'.Crossed :=
    hrun₂.crossed (fun c i hc => refuseCrossed_of_crossed refuse hc i) hd
  exact ⟨_, d', hrun₁.append hrun₂, hd'.not_finished, fun i => fire_eq_none_iff.mp (hstuck i)⟩

/-! ## Deadlock freedom -/

/-- Disciplined programs do not come to a deadlock in a run that crosses no
requests. -/
theorem Run.not_deadlocked {s : St} {progs : ι → Prog A H} {nested : Bool}
    (hprogs : ∀ i, (progs i).Disciplined nested fun _ => none)
    {refuse : Config A ι H → ι → Bool} (hrefuse : Admissible refuse)
    {events : List (ι × Event A H)} {c : Config A ι H}
    (hrun : Run refuse (Config.initial s progs) events c)
    (hevents : Uncrossed refuse (Config.initial s progs) events) : ¬ c.Deadlocked refuse := by
  obtain ⟨held, hc⟩ := Disciplined.run hprogs hrun
  exact hc.not_deadlocked hrefuse (hrun.not_crossed hevents)

/-- Programs that wait for guards only when they hold none cross no requests. -/
theorem uncrossed_of_not_nested {s : St} {progs : ι → Prog A H}
    (hprogs : ∀ i, (progs i).Disciplined false fun _ => none)
    (refuse : Config A ι H → ι → Bool) (events : List (ι × Event A H)) :
    Uncrossed refuse (Config.initial s progs) events := by
  intro pre i e c c' _ hrun hstep hcrosses
  obtain ⟨held, hc⟩ := Disciplined.run hprogs hrun
  have hidle : ∀ j, (∀ h, held j h = none) → ¬ c.Holds j := by
    rintro j hnone ⟨⟨_, h, mode⟩, hg, rfl⟩
    have hheld : held _ h = some mode := (hc.guards_iff _ h mode).mp hg
    rw [hnone h] at hheld
    cases hheld
  have hwaiting : ∀ mode j, c.WaitsFor mode j → ¬ c.Holds j := by
    rintro mode j ⟨h, next, hthread⟩
    have hthreads := hc.threads j
    rw [hthread] at hthreads
    exact hidle j (hthreads.2.2.1 (Or.inr rfl))
  have hthreads := hc.threads i
  obtain ⟨t, hlocal, _⟩ := hstep.localStep
  generalize c.threads i = thread at hthreads hlocal
  cases hlocal with
  | request h mode next =>
    have hrequest : ¬ c.Holds i := hidle i (hthreads.2.2.1 (Or.inr rfl))
    cases mode with
    | read => exact hrequest hcrosses.1
    | write =>
      obtain ⟨j, hholds, hreads⟩ := hcrosses
      exact hwaiting .read j hreads hholds
  | _ => exact hcrosses

/-- The program does not wait for a guard of the mode. -/
def Prog.NeverAwaits (mode : Mode) : Prog A H → Prop
  | .done => True
  | .acquire _ mode' next => mode' ≠ mode ∧ next.NeverAwaits mode
  | .tryAcquire _ _ next => ∀ granted, (next granted).NeverAwaits mode
  | .exec _ _ next => ∀ result, (next result).NeverAwaits mode
  | .release _ next => next.NeverAwaits mode

/-- The thread does not wait for a guard of the mode. -/
def Thread.NeverAwaits (mode : Mode) : Thread A H → Prop
  | .running prog => prog.NeverAwaits mode
  | .waiting h mode' next => (Prog.acquire h mode' next).NeverAwaits mode

omit [DecidableEq H] in
/-- A step of a thread that never awaits a mode leads to such a thread. -/
theorem LocalStep.neverAwaits {mode : Mode} {t t' : Thread A H} {e : Event A H}
    (hlocal : LocalStep t e t') (ht : t.NeverAwaits mode) : t'.NeverAwaits mode := by
  cases hlocal with
  | request h mode' next => exact ht
  | grant h mode' next => exact ht.2
  | tryGrant h mode' next => exact ht true
  | busy h mode' next => exact ht false
  | exec h a next result => exact ht result
  | release h next => exact ht

/-- Threads that never await a mode do not come to await it. -/
theorem Run.neverAwaits {mode : Mode} {refuse : Config A ι H → ι → Bool} {c c' : Config A ι H}
    {events : List (ι × Event A H)} (hrun : Run refuse c events c')
    (hc : ∀ i, (c.threads i).NeverAwaits mode) (i : ι) : (c'.threads i).NeverAwaits mode := by
  induction hrun with
  | start => exact hc i
  | @step events d d' j e _ hstep ih =>
    obtain ⟨t, hlocal, hthreads⟩ := hstep.localStep
    rw [hthreads]
    by_cases hi : i = j
    · subst hi
      rw [Function.update_self]
      exact hlocal.neverAwaits ih
    · rw [Function.update_of_ne hi]
      exact ih

/-- Programs that wait for read guards only cross no requests. -/
theorem uncrossed_of_neverAwaits_write {c : Config A ι H}
    (hc : ∀ i, (c.threads i).NeverAwaits .write) (refuse : Config A ι H → ι → Bool)
    (events : List (ι × Event A H)) : Uncrossed refuse c events := by
  intro pre i e d d' _ hrun hstep hcrosses
  have hreading : ∀ j, ¬ d.WaitsFor .write j := by
    rintro j ⟨h, next, hthread⟩
    have hj := hrun.neverAwaits hc j
    rw [hthread] at hj
    exact hj.1 rfl
  have hi := hrun.neverAwaits hc i
  obtain ⟨t, hlocal, _⟩ := hstep.localStep
  generalize d.threads i = thread at hi hlocal
  cases hlocal with
  | request h mode next =>
    cases mode with
    | read =>
      obtain ⟨j, hj⟩ := hcrosses.2
      exact hreading j hj
    | write => exact hi.1 rfl
  | _ => exact hcrosses

/-- If finitely many programs never come to a deadlock, whatever the lock does, then
no run of theirs crosses requests. -/
theorem uncrossed_of_not_deadlocked [Finite ι] {c : Config A ι H}
    (hfree : ∀ refuse, Admissible refuse → ∀ events c',
      Run refuse c events c' → ¬ c'.Deadlocked refuse)
    {refuse : Config A ι H → ι → Bool} (hrefuse : Admissible refuse)
    (events : List (ι × Event A H)) : Uncrossed refuse c events := by
  intro pre i e d d' _ hrun hstep hcrosses
  obtain ⟨events', c', hrun', hdeadlock⟩ :=
    exists_deadlock (hrun.step hstep) (hstep.crossed_of_crosses hcrosses)
  exact hfree _ hrefuse.refuseCrossed events' c' hrun' hdeadlock

end RwLocks
