import TsKvstore.Lib.RwLock

/-!
# The sections of one program

The programs behind a lock often consist of operations, each of which takes several steps.
This module says what the sections of a thread are at the end of the operation that it is
in, whatever its actions yield. If every operation of a program ends with the sections that
a specification gives it, the sections of every run are as specified.
-/

namespace RwLocks

universe u

variable {St : Type u} {ι H : Type*} {A : Actions St} [DecidableEq ι] [DecidableEq H]

/-- The thread has no open section under the handle. -/
def Fresh (i : ι) (h : H) (sections : List (Section A ι H)) : Prop :=
  ∀ sec ∈ sections, sec.isOf i h = false

/-- A change to the section of a new guard. -/
theorem amend_of_fresh {i : ι} {h : H} {sections : List (Section A ι H)}
    (hfresh : Fresh i h sections) (mode : Mode) (steps : List (Σ a, A.Ret a))
    (f : Section A ι H → Section A ι H) :
    amend i h f (sections ++ [⟨⟨i, h, mode⟩, true, steps⟩]) =
      sections ++ [f ⟨⟨i, h, mode⟩, true, steps⟩] := by
  unfold amend
  rw [List.map_append]
  congr 1
  · conv_rhs => rw [← List.map_id sections]
    refine List.map_congr_left fun sec hsec => if_neg ?_
    rw [hfresh sec hsec]
    exact Bool.false_ne_true
  · simp [Section.isOf, Guard.isOf]

/-- A program of thread `i`, whose sections are given, goes on until `Ends` holds of the rest
of the program and the sections, after at least one step and whatever its actions yield. -/
def Prog.Completes (i : ι) (Ends : Prog A H → List (Section A ι H) → Prop) :
    Prog A H → List (Section A ι H) → Prop
  | .done, _ => False
  | .acquire h mode next, sections =>
    Fresh i h sections →
      Ends next (record sections i (.grant h mode)) ∨
        next.Completes i Ends (record sections i (.grant h mode))
  | .tryAcquire h mode next, sections =>
    (Fresh i h sections →
      Ends (next true) (record sections i (.grant h mode)) ∨
        (next true).Completes i Ends (record sections i (.grant h mode))) ∧
      (Ends (next false) sections ∨ (next false).Completes i Ends sections)
  | .exec h a next, sections => ∀ result,
    Ends (next result) (record sections i (.exec h a result)) ∨
      (next result).Completes i Ends (record sections i (.exec h a result))
  | .release h next, sections =>
    Ends next (record sections i (.release h)) ∨
      next.Completes i Ends (record sections i (.release h))

section

variable {i : ι} {h : H} {mode : Mode} {sections : List (Section A ι H)}
  {steps : List (Σ a, A.Ret a)} {Ends : Prog A H → List (Section A ι H) → Prop}

/-- An action under a new guard. -/
theorem completes_exec {a : A.Act} {next : A.Ret a → Prog A H} (hfresh : Fresh i h sections)
    (hnext : ∀ result,
      Ends (next result) (sections ++ [⟨⟨i, h, mode⟩, true, steps ++ [⟨a, result⟩]⟩]) ∨
        (next result).Completes i Ends
          (sections ++ [⟨⟨i, h, mode⟩, true, steps ++ [⟨a, result⟩]⟩])) :
    (Prog.exec h a next).Completes i Ends (sections ++ [⟨⟨i, h, mode⟩, true, steps⟩]) := by
  intro result
  have hexecuted : record (sections ++ [⟨⟨i, h, mode⟩, true, steps⟩]) i (.exec h a result) =
      sections ++ [⟨⟨i, h, mode⟩, true, steps ++ [⟨a, result⟩]⟩] :=
    amend_of_fresh hfresh mode steps _
  rw [hexecuted]
  exact hnext result

/-- The release of a new guard. -/
theorem completes_release {next : Prog A H} (hfresh : Fresh i h sections)
    (hnext : Ends next (sections ++ [⟨⟨i, h, mode⟩, false, steps⟩])) :
    (Prog.release h next).Completes i Ends (sections ++ [⟨⟨i, h, mode⟩, true, steps⟩]) := by
  have hreleased : record (sections ++ [⟨⟨i, h, mode⟩, true, steps⟩]) i (.release h) =
      sections ++ [⟨⟨i, h, mode⟩, false, steps⟩] := amend_of_fresh hfresh mode steps _
  unfold Prog.Completes
  rw [hreleased]
  exact Or.inl hnext

end

/-- A thread goes on until `Ends` holds. -/
def Thread.Completes (i : ι) (Ends : Prog A H → List (Section A ι H) → Prop) :
    Thread A H → List (Section A ι H) → Prop
  | .running prog, sections => prog.Completes i Ends sections
  | .waiting h mode next, sections => (Prog.acquire h mode next).Completes i Ends sections

/-- After a step the thread is where `Ends` holds, or it goes on. -/
theorem LocalStep.completes {i : ι} {Ends : Prog A H → List (Section A ι H) → Prop}
    {t t' : Thread A H} {e : Event A H} (hstep : LocalStep t e t')
    {sections : List (Section A ι H)} (hfresh : ∀ h mode, e = .grant h mode → Fresh i h sections)
    (ht : t.Completes i Ends sections) :
    (∃ prog, t' = .running prog ∧ Ends prog (record sections i e)) ∨
      t'.Completes i Ends (record sections i e) := by
  have hrunning : ∀ {prog : Prog A H} {sections : List (Section A ι H)},
      Ends prog sections ∨ prog.Completes i Ends sections →
        (∃ prog', Thread.running prog = .running prog' ∧ Ends prog' sections) ∨
          (Thread.running prog).Completes i Ends sections :=
    fun h => h.imp_left fun hends => ⟨_, rfl, hends⟩
  cases hstep with
  | request h mode next => exact Or.inr ht
  | grant h mode next => exact hrunning (ht (hfresh h mode rfl))
  | tryGrant h mode next => exact hrunning (ht.1 (hfresh h mode rfl))
  | busy h mode next => exact hrunning ht.2
  | exec h a next result => exact hrunning (ht result)
  | release h next => exact hrunning ht

end RwLocks
