import TsKvstore.IndexMaintenance

/-!
# What the outcome of a write tells

A write fails with an ownership violation or finds its key missing. The violation
tells that another owner holds the table. The converse has one exception: `mutate`
through an index looks the key up before it compares the owner. A `mutate` or
`remove` that returns `None` tells that the key is absent and that nothing has
changed, because every entry of an index in a reachable state names a row.
-/

namespace TsKvstore

open FiniteMaps Machines

variable {S : Schema} {G : Singletons} {ρ : Type} {t : S.Name}

/-! ## Ownership violations -/

/-- A call has failed an ownership assertion. -/
def Violation {α : Type} (result : Except Panic α) : Prop :=
  ∃ prevOwner owner, result = .error (ownershipViolation prevOwner owner)

/-- A result is no violation. -/
@[simp] theorem not_violation_ok {α : Type} (a : α) : ¬ Violation (.ok a : Except Panic α) := by
  rintro ⟨_, _, heq⟩
  cases heq

/-- An unwinding closure is no violation. -/
@[simp] theorem not_violation_closure {α : Type} :
    ¬ Violation (.error .closure : Except Panic α) := by
  rintro ⟨_, _, heq⟩
  cases heq

section

variable {K V I : Type} [DecidableEq K] {debug : Bool} {owner : Owner} {table : Table K V I}

omit [DecidableEq K] in
/-- An operation that passes accepted callers and asserts the owner of refused
ones fails with a violation exactly for a refused caller. -/
theorem Table.violation_iff {α : Type} {result : Except Panic α}
    (haccepts : table.Accepts debug owner → ¬ Violation result)
    (hrefuses : ∀ prevOwner, table.Refuses debug prevOwner owner →
      result = .error (ownershipViolation prevOwner owner)) :
    Violation result ↔ ∃ prevOwner, table.Refuses debug prevOwner owner := by
  constructor
  · intro hviolation
    rcases table.accepts_or_refuses debug owner with h | h
    · exact absurd hviolation (haccepts h)
    · exact h
  · rintro ⟨prevOwner, h⟩
    exact ⟨prevOwner, owner, hrefuses prevOwner h⟩

variable [IndexStorage K V I]

/-- A call for the owner through a table handle fails with a violation exactly for
a refused caller. -/
theorem TabularOps.violation_iff {c : Call K V K V ρ} (hc : c.needsOwner = true) :
    Violation (TabularOps.exec debug owner table c).1 ↔
      ∃ prevOwner, table.Refuses debug prevOwner owner := by
  refine Table.violation_iff (fun h => ?_) fun prevOwner h => ?_
  · rcases TabularOps.result_of_accepts h c with ⟨r, hr⟩ | ⟨hr, _⟩
    · rw [hr]
      exact not_violation_ok r
    · rw [hr]
      exact not_violation_closure
  · exact (TabularOps.result_of_refuses h c).1 hc

end

section

variable {debug : Bool} {owner : Owner} {base : BaseTable S t} {i : S.Field t}

/-- A call for the owner through an index handle fails with a violation exactly
for a refused caller, unless it is `mutate` with a key that the index does not
hold. -/
theorem IndexedOps.violation_iff
    {c : Call (S.FieldTy t i) (S.Key t) (S.Key t) (S.Value t) ρ} (hc : c.needsOwner = true) :
    Violation (IndexedOps.exec debug i owner base c).1 ↔
      (∃ prevOwner, base.Refuses debug prevOwner owner) ∧
        ¬ c.MutatesAbsent fun q => (base.indexes.get i).data.lookup q := by
  by_cases habsent : c.MutatesAbsent fun q => (base.indexes.get i).data.lookup q
  · obtain ⟨r, hr⟩ := IndexedOps.result_of_mutatesAbsent debug owner habsent
    rw [hr]
    exact iff_of_false (not_violation_ok r) fun h => h.2 habsent
  · rw [and_iff_left habsent]
    refine Table.violation_iff (fun h => ?_) fun prevOwner h => ?_
    · rcases IndexedOps.result_of_accepts h c with ⟨r, hr⟩ | ⟨hr, _⟩
      · rw [hr]
        exact not_violation_ok r
      · rw [hr]
        exact not_violation_closure
    · exact (IndexedOps.result_of_refuses h habsent).1 hc

end

/-- The call is one for the owner, on table `t` through its own handle or through
an index. -/
def StoreCall.NeedsOwnerOf (t : S.Name) : StoreCall S G ρ → Prop
  | table t' c => t' = t ∧ c.needsOwner = true
  | tableBy t' _ c => t' = t ∧ c.needsOwner = true
  | _ => False

/-- The call is `mutate` through an index handle, with a key that the index does
not hold. -/
def StoreCall.MutatesAbsent (s : Storage S G) : StoreCall S G ρ → Prop
  | tableBy t i c => c.MutatesAbsent fun q => ((s.tables t).indexes.get i).data.lookup q
  | _ => False

/-- A call for the owner fails with a violation exactly for a refused caller, with
the one exception. -/
theorem StoreCall.violation_iff (debug : Bool) (s : Storage S G) (owner : Owner)
    {call : StoreCall S G ρ} (hcall : call.NeedsOwnerOf t) :
    Violation (call.exec debug owner s).1 ↔
      (∃ prevOwner, (s.tables t).Refuses debug prevOwner owner) ∧ ¬ call.MutatesAbsent s := by
  cases call with
  | table t' c =>
    obtain ⟨rfl, hc⟩ := hcall
    exact (TabularOps.violation_iff hc).trans (and_iff_left id).symm
  | tableBy t' i c =>
    obtain ⟨rfl, hc⟩ := hcall
    exact IndexedOps.violation_iff hc
  | indexTable t' i c => exact hcall.elim
  | singleton m c => exact hcall.elim

/-- **Ownership violations.** A call for the owner fails with a violation exactly
if another owner holds the table. This is so if and only if the caller is accepted
or the call is no `mutate` through an index with a key that the index does not
hold: such a call returns before the owner is compared. -/
theorem violation_exactly_for_foreign_iff (s : Storage S G) (t : S.Name) (owner : Owner)
    (call : StoreCall S G ρ) (hcall : call.NeedsOwnerOf t) :
    ((Violation (call.exec true owner s).1 ↔
        ∃ prevOwner, (s.tables t).owner = some prevOwner ∧ prevOwner ≠ owner) ↔
      (s.tables t).Accepts true owner ∨ ¬ call.MutatesAbsent s) := by
  have hforeign : (∃ prevOwner, (s.tables t).Refuses true prevOwner owner) ↔
      ∃ prevOwner, (s.tables t).owner = some prevOwner ∧ prevOwner ≠ owner := by
    simp only [Table.Refuses, true_and]
  have haccepts : (s.tables t).Accepts true owner ↔
      ¬ ∃ prevOwner, (s.tables t).owner = some prevOwner ∧ prevOwner ≠ owner := by
    simp only [Table.Accepts, true_implies, not_exists, not_and, not_not]
  rw [StoreCall.violation_iff true s owner hcall, hforeign, haccepts]
  constructor
  · intro hexactly
    by_cases h : ∃ prevOwner, (s.tables t).owner = some prevOwner ∧ prevOwner ≠ owner
    · exact Or.inr (hexactly.mpr h).2
    · exact Or.inl h
  · rintro (haccepted | hfound)
    · exact iff_of_false (fun h => haccepted h.1) haccepted
    · exact and_iff_left hfound

/-- The owner of a table inserts a row. -/
def ownedRun : List (Command people noSingletons Unit) :=
  [.raw ⟨"owner", .table People (.insert (1 : UInt32) (People.person "a@example.com" [97]))⟩]

/-- The storage after the run. -/
def ownedStorage : Storage people noSingletons :=
  stateAfter (Request.exec true) (requests ownedRun) Storage.new

/-- Mutable access through the index on the first field, with a key that no row
has. -/
def mutateAbsent : StoreCall people noSingletons Unit :=
  .tableBy People People.email (.mutate "x@example.com" fun person => (person, some ()))

/-- The intruder who looks for a missing key gets no violation. -/
theorem mutateAbsent_violation_exactly_iff :
    ((Violation (mutateAbsent.exec true "intruder" ownedStorage).1 ↔
        ∃ prevOwner, (ownedStorage.tables People).owner = some prevOwner ∧
          prevOwner ≠ "intruder") ↔
      (ownedStorage.tables People).Accepts true "intruder" ∨
        ¬ mutateAbsent.MutatesAbsent ownedStorage) :=
  violation_exactly_for_foreign_iff ownedStorage People "intruder" mutateAbsent ⟨rfl, rfl⟩

/-- **A foreign owner can be overlooked.** With a key that the index does not hold,
`mutate` through the index returns `None` to a caller who does not own the table. -/
theorem foreign_mutate_unnoticed :
    ¬ ∀ (commands : List (Command people noSingletons Unit)) (t : people.Name) (owner : Owner)
      (call : StoreCall people noSingletons Unit), call.NeedsOwnerOf t → call.NonPanicking →
      let s := stateAfter (Request.exec true) (requests commands) Storage.new
      (Violation (call.exec true owner s).1 ↔
        ∃ prevOwner, (s.tables t).owner = some prevOwner ∧ prevOwner ≠ owner) := by
  intro hclaim
  have hclosure : mutateAbsent.NonPanicking := fun _ => Option.some_ne_none ()
  have hexactly := hclaim ownedRun People "intruder" mutateAbsent ⟨rfl, rfl⟩ hclosure
  have hforeign : ∃ prevOwner, (ownedStorage.tables People).owner = some prevOwner ∧
      prevOwner ≠ "intruder" := ⟨"owner", rfl, by decide⟩
  have hreturns : (mutateAbsent.exec true "intruder" ownedStorage).1 = .ok none := rfl
  obtain ⟨prevOwner, owner, hviolation⟩ := hexactly.mpr hforeign
  cases hreturns.symm.trans hviolation

/-! ## Writes that return `None` -/

/-- A mutable access does nothing: it returns `None`, changes nothing and does not
call its closure. The outcome is the same for every closure in its place, also for
one that unwinds as soon as it is called. -/
def DoesNothing {V St : Type} (run : MutFn V ρ → Except Panic (Option ρ) × St) (s : St) : Prop :=
  ∀ f, run f = (.ok none, s)

namespace TabularOpsMut

variable {K V I : Type} [DecidableEq K] [IndexStorage K V I] {debug : Bool} {owner : Owner}
  {table : Table K V I} {key : K}

/-- `mutate` that returns none has found no row and does nothing. -/
theorem mutate_returns_none {f : MutFn V ρ} (h : (mutate debug table key f owner).1 = .ok none) :
    table.data.lookup key = none ∧
      DoesNothing (fun g : MutFn V ρ => mutate debug table key g owner) table := by
  rcases table.accepts_or_refuses debug owner with haccepts | ⟨prevOwner, hrefuses⟩
  · cases hrow : table.data.lookup key with
    | none => exact ⟨rfl, fun g => mutate_of_none haccepts g hrow⟩
    | some value =>
      rw [(mutate_row haccepts hrow f).1] at h
      cases hresult : (f value).2 with
      | none => rw [hresult] at h; cases h
      | some result => rw [hresult] at h; cases h
  · rw [mutate_of_refuses hrefuses] at h
    cases h

/-- `remove` that returns none has found no row and does nothing. -/
theorem remove_returns_none (h : (remove debug table key owner).1 = .ok none) :
    table.data.lookup key = none ∧ (remove debug table key owner).2 = table := by
  rcases table.accepts_or_refuses debug owner with haccepts | ⟨prevOwner, hrefuses⟩
  · cases hrow : table.data.lookup key with
    | none => exact ⟨rfl, congrArg Prod.snd (remove_of_none haccepts hrow)⟩
    | some value =>
      rw [remove_of_some haccepts hrow] at h
      cases h
  · rw [remove_of_refuses hrefuses] at h
    cases h

end TabularOpsMut

namespace IndexedOpsMut

variable {debug : Bool} {owner : Owner} {base : BaseTable S t} {i : S.Field t}
  {key : S.FieldTy t i}

/-- `mutate` through an index that returns none has found no entry and does nothing. -/
theorem mutate_returns_none (hsound : base.SoundAt i) {f : MutFn (S.Value t) ρ}
    (h : (mutate debug i base key f owner).1 = .ok none) :
    (base.indexes.get i).data.lookup key = none ∧
      DoesNothing (fun g : MutFn (S.Value t) ρ => mutate debug i base key g owner) base := by
  cases hentry : (base.indexes.get i).data.lookup key with
  | none => exact ⟨rfl, fun g => mutate_of_none g hentry⟩
  | some baseKey =>
    obtain ⟨value, hrow, _⟩ := hsound key baseKey hentry
    rw [mutate_of_some f hentry] at h
    have habsent := (TabularOpsMut.mutate_returns_none h).1
    rw [hrow] at habsent
    cases habsent

/-- `remove` takes the index entry out before it looks for the row. With a sound
index the row is there. -/
theorem remove_returns_none (hsound : base.SoundAt i)
    (h : (remove debug i base key owner).1 = .ok none) :
    (base.indexes.get i).data.lookup key = none ∧ (remove debug i base key owner).2 = base := by
  rcases base.accepts_or_refuses debug owner with haccepts | ⟨prevOwner, hrefuses⟩
  · cases hentry : (base.indexes.get i).data.lookup key with
    | none => exact ⟨rfl, congrArg Prod.snd (remove_of_none haccepts hentry)⟩
    | some baseKey =>
      obtain ⟨value, hrow, _⟩ := hsound key baseKey hentry
      rw [remove_of_found haccepts hentry hrow] at h
      cases h
  · rw [remove_of_refuses hrefuses] at h
    cases h

end IndexedOpsMut

/-- A table that a call leaves as it was leaves the storage as it was. -/
theorem Storage.setTable_of_eq {s : Storage S G} {table : BaseTable S t}
    (h : table = s.tables t) : s.setTable t table = s := by
  rw [h, Storage.setTable_self]

/-- A mutable access that does nothing to a table does nothing to the storage. -/
theorem DoesNothing.lift {V : Type} {s : Storage S G}
    {run : MutFn V ρ → Except Panic (Option ρ) × BaseTable S t}
    {run' : MutFn V ρ → Except Panic (Option ρ) × Storage S G} (h : DoesNothing run (s.tables t))
    (hrun : ∀ f, run' f = ((run f).1, s.setTable t (run f).2)) : DoesNothing run' s := by
  intro f
  rw [hrun, h f, Storage.setTable_self]

/-- **Writes that return `None`.** After every maintained run from the empty store,
whatever rows collide, a `mutate` or `remove` that returns `None` has not called its
closure and has left the whole storage as it was. It returns `None` only if the rows
do not hold its key, or the index does not, through an index handle. -/
theorem none_changes_nothing (debug : Bool) (commands : List (Command S G ρ))
    (hmaintained : ∀ r ∈ requests commands, r.Maintained)
    (pre : List (Request S G ρ)) (hpre : pre <+: requests commands) (owner : Owner)
    (t : S.Name) :
    let s := stateAfter (Request.exec debug) pre Storage.new
    let exec := fun call : StoreCall S G ρ => call.exec debug owner s
    (∀ key f, (exec (.table t (.mutate key f))).1 = .ok none →
      (s.tables t).data.lookup key = none ∧
        DoesNothing (fun g => exec (.table t (.mutate key g))) s) ∧
    (∀ key, (exec (.table t (.remove key))).1 = .ok none →
      (s.tables t).data.lookup key = none ∧ (exec (.table t (.remove key))).2 = s) ∧
    ∀ i,
      (∀ key f, (exec (.tableBy t i (.mutate key f))).1 = .ok none →
        ((s.tables t).indexes.get i).data.lookup key = none ∧
          DoesNothing (fun g => exec (.tableBy t i (.mutate key g))) s) ∧
      ∀ key, (exec (.tableBy t i (.remove key))).1 = .ok none →
        ((s.tables t).indexes.get i).data.lookup key = none ∧
          (exec (.tableBy t i (.remove key))).2 = s := by
  intro s exec
  have hsound : s.Sound :=
    sound_stateAfter (fun r hr => hmaintained r (hpre.subset hr)) Storage.new_sound
  refine ⟨fun key f h => ?_, fun key h => ?_, fun i => ⟨fun key f h => ?_, fun key h => ?_⟩⟩
  · obtain ⟨habsent, hnothing⟩ := TabularOpsMut.mutate_returns_none h
    exact ⟨habsent, hnothing.lift fun _ => rfl⟩
  · obtain ⟨habsent, hnothing⟩ := TabularOpsMut.remove_returns_none h
    exact ⟨habsent, Storage.setTable_of_eq hnothing⟩
  · obtain ⟨habsent, hnothing⟩ := IndexedOpsMut.mutate_returns_none (hsound t i) h
    exact ⟨habsent, hnothing.lift fun _ => rfl⟩
  · obtain ⟨habsent, hnothing⟩ := IndexedOpsMut.remove_returns_none (hsound t i) h
    exact ⟨habsent, Storage.setTable_of_eq hnothing⟩

/-- A run in which two people share an email address satisfies the conditions. -/
theorem collidingRun_none_changes_nothing :
    let s := stateAfter (Request.exec true) (requests collidingRun) Storage.new
    let exec := fun call : StoreCall people noSingletons Unit => call.exec true "owner" s
    (∀ key f, (exec (.table People (.mutate key f))).1 = .ok none →
      (s.tables People).data.lookup key = none ∧
        DoesNothing (fun g => exec (.table People (.mutate key g))) s) ∧
    (∀ key, (exec (.table People (.remove key))).1 = .ok none →
      (s.tables People).data.lookup key = none ∧ (exec (.table People (.remove key))).2 = s) ∧
    ∀ i,
      (∀ key f, (exec (.tableBy People i (.mutate key f))).1 = .ok none →
        ((s.tables People).indexes.get i).data.lookup key = none ∧
          DoesNothing (fun g => exec (.tableBy People i (.mutate key g))) s) ∧
      ∀ key, (exec (.tableBy People i (.remove key))).1 = .ok none →
        ((s.tables People).indexes.get i).data.lookup key = none ∧
          (exec (.tableBy People i (.remove key))).2 = s :=
  none_changes_nothing true collidingRun collidingRun_maintained _ (List.prefix_refl _) "owner"
    People

end TsKvstore
