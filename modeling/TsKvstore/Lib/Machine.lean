import Mathlib.Data.List.Basic
import Mathlib.Data.List.Infix

/-!
# Runs of a deterministic machine

A machine executes operations on a state, and each operation has a result whose
type depends on the operation. This file defines the state after a run and the
results of a run, with rules for invariants and for operations that can be deleted.
-/

namespace Machines

variable {Op St : Type*} {Ret : Op → Type*}

/-- The state after the operations, executed from left to right. -/
def stateAfter (exec : (op : Op) → St → Ret op × St) (ops : List Op) (s : St) : St :=
  ops.foldl (fun s op => (exec op s).2) s

/-- The operations with their results, in the order of execution. -/
def results (exec : (op : Op) → St → Ret op × St) : List Op → St → List (Σ op, Ret op)
  | [], _ => []
  | op :: ops, s => ⟨op, (exec op s).1⟩ :: results exec ops (exec op s).2

section

variable {exec : (op : Op) → St → Ret op × St}

/-- No operations change nothing. -/
@[simp] theorem stateAfter_nil (s : St) : stateAfter exec [] s = s := rfl

/-- A run begins with its first operation. -/
@[simp] theorem stateAfter_cons (op : Op) (ops : List Op) (s : St) :
    stateAfter exec (op :: ops) s = stateAfter exec ops (exec op s).2 := rfl

/-- The second part of a run starts where the first one ends. -/
theorem stateAfter_append (ops ops' : List Op) (s : St) :
    stateAfter exec (ops ++ ops') s = stateAfter exec ops' (stateAfter exec ops s) :=
  List.foldl_append

/-- A run ends with its last operation. -/
theorem stateAfter_concat (ops : List Op) (op : Op) (s : St) :
    stateAfter exec (ops ++ [op]) s = (exec op (stateAfter exec ops s)).2 := by
  rw [stateAfter_append]
  rfl

/-- The results of a run in two parts. -/
theorem results_append (ops ops' : List Op) (s : St) :
    results exec (ops ++ ops') s =
      results exec ops s ++ results exec ops' (stateAfter exec ops s) := by
  induction ops generalizing s with
  | nil => rfl
  | cons op ops ih => simp only [List.cons_append, results, ih, stateAfter_cons]

/-- **Invariant rule.** What the operations of a run preserve holds after it. -/
theorem stateAfter_invariant {P : St → Prop} {ops : List Op} {s : St} (h : P s)
    (hstep : ∀ op ∈ ops, ∀ s, P s → P (exec op s).2) : P (stateAfter exec ops s) := by
  induction ops generalizing s with
  | nil => exact h
  | cons op ops ih =>
    exact ih (hstep op List.mem_cons_self s h)
      fun op' hop' => hstep op' (List.mem_cons_of_mem op hop')

/-- **Invariant rule along a run.** What every operation of a run preserves at the
state in which it is executed holds after every prefix of the run. -/
theorem stateAfter_invariant_along {P : St → Prop} {ops : List Op} {s : St} (h : P s)
    (hstep : ∀ pre op, pre ++ [op] <+: ops →
      P (stateAfter exec pre s) → P (exec op (stateAfter exec pre s)).2) :
    ∀ pre, pre <+: ops → P (stateAfter exec pre s) := by
  intro pre
  induction pre using List.reverseRecOn with
  | nil => exact fun _ => h
  | append_singleton pre op ih =>
    intro hpre
    have hbegins : pre <+: ops := (List.prefix_append pre [op]).trans hpre
    rw [stateAfter_concat]
    exact hstep pre op hpre (ih hbegins)

/-- **Invariant rule under a condition on the visited states.** What every
operation preserves when its final state satisfies the condition holds after
every prefix of a run that only visits such states. -/
theorem stateAfter_invariant_of_visited {P C : St → Prop} {ops : List Op} {s : St} (h : P s)
    (hstep : ∀ op ∈ ops, ∀ s, P s → C (exec op s).2 → P (exec op s).2)
    (hvisited : ∀ pre, pre <+: ops → C (stateAfter exec pre s)) :
    ∀ pre, pre <+: ops → P (stateAfter exec pre s) := by
  refine stateAfter_invariant_along h fun pre op hpre hp => ?_
  have hop : op ∈ ops := hpre.subset (List.mem_append_right pre List.mem_cons_self)
  have hc := hvisited (pre ++ [op]) hpre
  rw [stateAfter_concat] at hc
  exact hstep op hop _ hp hc

/-- **Backward rule.** What holds after a run, and held before every operation
after which it holds, holds after every prefix of the run. -/
theorem stateAfter_backward {P : St → Prop} {ops : List Op} {s : St}
    (h : P (stateAfter exec ops s))
    (hstep : ∀ pre op, pre ++ [op] <+: ops →
      P (exec op (stateAfter exec pre s)).2 → P (stateAfter exec pre s)) :
    ∀ pre, pre <+: ops → P (stateAfter exec pre s) := by
  rintro pre ⟨post, rfl⟩
  induction post generalizing pre with
  | nil =>
    rw [List.append_nil] at h
    exact h
  | cons op post ih =>
    have hsplit : pre ++ op :: post = (pre ++ [op]) ++ post := by simp
    rw [hsplit] at h hstep
    have hnext := ih (pre ++ [op]) h hstep
    rw [stateAfter_concat] at hnext
    exact hstep pre op (List.prefix_append _ _) hnext

/-- **Deletion rule.** Under an invariant of a run, the operations that change
nothing can be deleted from it: the final state and the results of the other
operations stay. -/
theorem stateAfter_filter {P : St → Prop} {keep : Op → Bool} {ops : List Op} {s : St} (h : P s)
    (hstep : ∀ op ∈ ops, ∀ s, P s → P (exec op s).2)
    (hskip : ∀ op ∈ ops, keep op = false → ∀ s, P s → (exec op s).2 = s) :
    stateAfter exec ops s = stateAfter exec (ops.filter keep) s ∧
      (results exec ops s).filter (fun r => keep r.1) = results exec (ops.filter keep) s := by
  induction ops generalizing s with
  | nil => exact ⟨rfl, rfl⟩
  | cons op ops ih =>
    have hnext := ih (hstep op List.mem_cons_self s h)
      (fun op' hop' => hstep op' (List.mem_cons_of_mem op hop'))
      (fun op' hop' => hskip op' (List.mem_cons_of_mem op hop'))
    cases hkeep : keep op with
    | true =>
      rw [List.filter_cons_of_pos hkeep, results, results,
        List.filter_cons_of_pos (p := fun r : Σ op, Ret op => keep r.1) hkeep, hnext.2]
      exact ⟨hnext.1, rfl⟩
    | false =>
      have hdrop : ¬ keep op = true := by simp [hkeep]
      rw [hskip op List.mem_cons_self hkeep s h] at hnext
      rw [List.filter_cons_of_neg hdrop, results,
        List.filter_cons_of_neg (p := fun r : Σ op, Ret op => keep r.1) hdrop, stateAfter_cons,
        hskip op List.mem_cons_self hkeep s h]
      exact hnext

/-- **Projection rule.** If the operations to keep give the same results in related
states and lead to related states, and the others stay in the relation on their own,
then the others can be deleted from a run that starts in a related state. -/
theorem stateAfter_projection {R : St → St → Prop} {keep : Op → Bool} (ops : List Op) {s s' : St}
    (hR : R s s')
    (hkeep : ∀ op ∈ ops, keep op = true → ∀ s s', R s s' →
      (exec op s).1 = (exec op s').1 ∧ R (exec op s).2 (exec op s').2)
    (hskip : ∀ op ∈ ops, keep op = false → ∀ s s', R s s' → R (exec op s).2 s') :
    R (stateAfter exec ops s) (stateAfter exec (ops.filter keep) s') ∧
      (results exec ops s).filter (fun r => keep r.1) = results exec (ops.filter keep) s' := by
  induction ops generalizing s s' with
  | nil => exact ⟨hR, rfl⟩
  | cons op ops ih =>
    have hrest := fun {s s' : St} (hR : R s s') => ih hR
      (fun op' hop' => hkeep op' (List.mem_cons_of_mem op hop'))
      (fun op' hop' => hskip op' (List.mem_cons_of_mem op hop'))
    cases hop : keep op with
    | true =>
      obtain ⟨hresult, hnext⟩ := hkeep op List.mem_cons_self hop s s' hR
      rw [List.filter_cons_of_pos hop, results, results,
        List.filter_cons_of_pos (p := fun r : Σ op, Ret op => keep r.1) hop, (hrest hnext).2,
        hresult]
      exact ⟨(hrest hnext).1, rfl⟩
    | false =>
      have hdrop : ¬ keep op = true := by simp [hop]
      rw [List.filter_cons_of_neg hdrop, results,
        List.filter_cons_of_neg (p := fun r : Σ op, Ret op => keep r.1) hdrop]
      exact hrest (hskip op List.mem_cons_self hop s s' hR)

/-- What each operation of a run guarantees of its result. -/
theorem forall_mem_results {P : (Σ op, Ret op) → Prop} {ops : List Op} {s : St}
    (h : ∀ op ∈ ops, ∀ s, P ⟨op, (exec op s).1⟩) : ∀ step ∈ results exec ops s, P step := by
  induction ops generalizing s with
  | nil => exact fun step hstep => absurd hstep List.not_mem_nil
  | cons op ops ih =>
    intro step hstep
    rcases List.mem_cons.mp hstep with rfl | hstep
    · exact h op List.mem_cons_self s
    · exact ih (fun op' hop' => h op' (List.mem_cons_of_mem op hop')) step hstep

/-- **Part rule.** If some steps of a machine are steps of another machine with the same
results, and the other steps leave the state of the other machine as it is, then a run of
the first machine contains a run of the other one. -/
theorem stateAfter_part {Op' St' : Type*} {Ret' : Op' → Type*}
    {exec' : (op : Op') → St' → Ret' op × St'} (R : St → St' → Prop)
    (part : (Σ op, Ret op) → Option (Σ op', Ret' op')) (ops : List Op) {s : St} {s' : St'}
    (hR : R s s')
    (hpart : ∀ op s s' step, R s s' → part ⟨op, (exec op s).1⟩ = some step →
      (exec' step.1 s').1 = step.2 ∧ R (exec op s).2 (exec' step.1 s').2)
    (hother : ∀ op s s', R s s' → part ⟨op, (exec op s).1⟩ = none → R (exec op s).2 s') :
    let steps := (results exec ops s).filterMap part
    results exec' (steps.map Sigma.fst) s' = steps ∧
      R (stateAfter exec ops s) (stateAfter exec' (steps.map Sigma.fst) s') := by
  induction ops generalizing s s' with
  | nil => exact ⟨rfl, hR⟩
  | cons op ops ih =>
    intro steps
    cases hop : part ⟨op, (exec op s).1⟩ with
    | none =>
      have hsteps : steps = (results exec ops (exec op s).2).filterMap part :=
        List.filterMap_cons_none hop
      rw [hsteps]
      exact ih (hother op s s' hR hop)
    | some step =>
      obtain ⟨hresult, hnext⟩ := hpart op s s' step hR hop
      have hsteps : steps = step :: (results exec ops (exec op s).2).filterMap part :=
        List.filterMap_cons_some hop
      obtain ⟨hresults, hlast⟩ := ih hnext
      rw [hsteps, List.map_cons, results, hresult, hresults]
      exact ⟨rfl, hlast⟩

/-- Every run splits at its last operation with a property, or at its start. -/
theorem exists_last (exec : (op : Op) → St → Ret op × St) (W : Op → St → Prop) (ops : List Op)
    (s : St) :
    ∃ pre post, ops = pre ++ post ∧
      (pre = [] ∨ ∃ pre' op, pre = pre' ++ [op] ∧ W op (stateAfter exec pre' s)) ∧
      ∀ post' op, post' ++ [op] <+: post → ¬ W op (stateAfter exec (pre ++ post') s) := by
  induction ops using List.reverseRecOn with
  | nil => exact ⟨[], [], rfl, Or.inl rfl, fun post' op h => by simp at h⟩
  | append_singleton ops op ih =>
    by_cases hop : W op (stateAfter exec ops s)
    · exact ⟨ops ++ [op], [], by simp, Or.inr ⟨ops, op, rfl, hop⟩, fun post' op h => by simp at h⟩
    · obtain ⟨pre, post, rfl, hpre, hpost⟩ := ih
      refine ⟨pre, post ++ [op], by simp, hpre, fun post' op' hbegins => ?_⟩
      rcases List.prefix_concat_iff.mp hbegins with heq | hbegins
      · obtain ⟨rfl, hlast⟩ := List.append_inj' heq rfl
        cases hlast
        exact hop
      · exact hpost post' op' hbegins

/-- The last operation of the run with the property `W` has the property `Q` as well. -/
def LastIs (exec : (op : Op) → St → Ret op × St) (W Q : Op → St → Prop) (s : St)
    (ops : List Op) : Prop :=
  ∃ pre op post, ops = pre ++ op :: post ∧ W op (stateAfter exec pre s) ∧
    Q op (stateAfter exec pre s) ∧
    ∀ post' op', post' ++ [op'] <+: post → ¬ W op' (stateAfter exec (pre ++ op :: post') s)

section

variable {W Q : Op → St → Prop} {s : St} {ops : List Op} {op : Op}

/-- A run that ends with an operation with the property is decided by it. -/
theorem lastIs_concat_of (hop : W op (stateAfter exec ops s)) :
    LastIs exec W Q s (ops ++ [op]) ↔ Q op (stateAfter exec ops s) := by
  constructor
  · rintro ⟨pre, op', post, heq, _, hq, hlast⟩
    induction post using List.reverseRecOn with
    | nil =>
      obtain ⟨rfl, hsame⟩ := List.append_inj' heq rfl
      cases hsame
      exact hq
    | append_singleton post op'' _ =>
      have hsplit : ops ++ [op] = (pre ++ op' :: post) ++ [op''] := by simpa using heq
      obtain ⟨rfl, hsame⟩ := List.append_inj' hsplit rfl
      cases hsame
      exact absurd hop (hlast post op List.prefix_rfl)
  · intro hq
    refine ⟨ops, op, [], rfl, hop, hq, fun post' op' hbegins => ?_⟩
    exact absurd (List.prefix_nil.mp hbegins) (by simp)

/-- An operation without the property decides nothing. -/
theorem lastIs_concat_of_not (hop : ¬ W op (stateAfter exec ops s)) :
    LastIs exec W Q s (ops ++ [op]) ↔ LastIs exec W Q s ops := by
  constructor
  · rintro ⟨pre, op', post, heq, hw, hq, hlast⟩
    induction post using List.reverseRecOn with
    | nil =>
      obtain ⟨rfl, hsame⟩ := List.append_inj' heq rfl
      cases hsame
      exact absurd hw hop
    | append_singleton post op'' _ =>
      have hsplit : ops ++ [op] = (pre ++ op' :: post) ++ [op''] := by simpa using heq
      obtain ⟨rfl, _⟩ := List.append_inj' hsplit rfl
      refine ⟨pre, op', post, rfl, hw, hq, fun post' op₁ hbegins => ?_⟩
      exact hlast post' op₁ (hbegins.trans (List.prefix_append post [op'']))
  · rintro ⟨pre, op', post, rfl, hw, hq, hlast⟩
    refine ⟨pre, op', post ++ [op], by simp, hw, hq, fun post' op₁ hbegins => ?_⟩
    rcases List.prefix_concat_iff.mp hbegins with heq | hbegins
    · obtain ⟨rfl, hsame⟩ := List.append_inj' heq rfl
      cases hsame
      exact hop
    · exact hlast post' op₁ hbegins

end

end

end Machines
