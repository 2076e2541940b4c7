import TsKvstore.IndexMaintenance

/-!
# Rows in which a closure has unwound

A closure of `mutate` that unwinds leaves its row out of the indexes. A transaction that
catches the panic goes on with such rows, and so do runs with many of them. The other rows
stay found, and a row is found again once it has been written by a call that returns. So the
rows that the indexes miss are those whose last write has unwound.
-/

namespace TsKvstore

open FiniteMaps Machines

variable {S : Schema} {G : Singletons} {ρ : Type} {t : S.Name} {debug : Bool} {owner : Owner}

/-! ## The effect of a closure that unwinds -/

/-- The row at `k` is written and stays out of the indexes. -/
def Table.Drops (base : BaseTable S t) (k : S.Key t) (base' : BaseTable S t) : Prop :=
  ∃ v, base' = { base with data := base.data.insert k v, indexes := base.unregister k }

namespace Table.Drops

variable {base base' : BaseTable S t} {i : S.Field t} {k k' : S.Key t}

/-- The indexes stay sound. -/
theorem soundAt (h : base.Drops k base') (hsound : base.SoundAt i) : base'.SoundAt i := by
  obtain ⟨v, rfl⟩ := h
  exact (hsound.unregister k).insert_unregistered v

/-- The row is not found. -/
theorem not_findsAt (h : base.Drops k base') (hsound : base.SoundAt i) : ¬ base'.FindsAt i k := by
  obtain ⟨v, rfl⟩ := h
  exact (hsound.unregister k).not_findsRow_unregistered v

/-- The other rows stay found. -/
theorem findsAt (h : base.Drops k base') (hne : k' ≠ k) (hfinds : base.FindsAt i k')
    (hsole : base.SoleAt i k') : base'.FindsAt i k' := by
  obtain ⟨v, rfl⟩ := h
  exact (hfinds.unregister hsole k).insert_unregistered hne v

/-- The other rows are held only if they were held. -/
theorem holdsAt (h : base.Drops k base') (hne : k' ≠ k) {v : S.Value t}
    (hholds : base'.HoldsAt i k' v) : base.HoldsAt i k' v := by
  obtain ⟨v', rfl⟩ := h
  exact Table.HoldsAt.of_unregister (HoldsRow.of_insert_unregistered hne hholds)

end Table.Drops

/-- The closure of `for_each_mut` does not unwind. -/
def Call.LoopsReturn {Q W K V : Type} [DecidableEq Q] [DecidableEq K] :
    Call Q W K V ρ → Prop
  | .forEachMut _ _ f _ => ∀ s q v, (f s q v).2 ≠ none
  | _ => True

/-- The call writes no index table through the table's own handle, and the closure of its
`for_each_mut` does not unwind. That of its `mutate` may. -/
def StoreCall.LoopsReturn : StoreCall S G ρ → Prop
  | table _ c => c.LoopsReturn
  | tableBy _ _ c => c.LoopsReturn
  | indexTable _ _ c => c.isRead = true
  | singleton _ _ => True

section

variable {base : BaseTable S t}

/-- A `mutate` that unwinds in its closure drops the row. -/
theorem TabularOpsMut.mutate_drops {key : S.Key t} {f : MutFn (S.Value t) ρ}
    (hunwinds : (mutate debug base key f owner).1 = .error .closure) :
    base.Accepts debug owner ∧ base.Drops key (mutate debug base key f owner).2 := by
  rcases base.accepts_or_refuses debug owner with haccepts | ⟨prevOwner, hrefuses⟩
  · refine ⟨haccepts, ?_⟩
    cases hrow : base.data.lookup key with
    | none =>
      rw [mutate_of_none haccepts f hrow] at hunwinds
      cases hunwinds
    | some value =>
      cases hf : (f value).2 with
      | none =>
        rw [mutate_of_unwind haccepts hrow hf]
        exact ⟨(f value).1, rfl⟩
      | some result =>
        rw [mutate_of_return haccepts hrow hf] at hunwinds
        cases hunwinds
  · rw [mutate_of_refuses hrefuses] at hunwinds
    cases hunwinds

/-- A call through a table handle that unwinds in a closure drops the row that it writes. -/
theorem TabularOps.exec_drops {c : Call (S.Key t) (S.Value t) (S.Key t) (S.Value t) ρ}
    (hc : c.LoopsReturn) (hunwinds : (TabularOps.exec debug owner base c).1 = .error .closure) :
    ∃ k, (∀ k', c.Written debug owner base some k' ↔ k' = k) ∧
      base.Drops k (TabularOps.exec debug owner base c).2 := by
  cases c with
  | mutate key f =>
    obtain ⟨haccepts, hdrops⟩ := TabularOpsMut.mutate_drops hunwinds
    refine ⟨key, fun k' => ?_, hdrops⟩
    exact ⟨fun hk => (Option.some.inj hk.2).symm, fun hk => ⟨haccepts, congrArg some hk.symm⟩⟩
  | forEachMut order rebuild f s => exact absurd hunwinds (TabularOps.exec_ne_closure hc)
  | _ => exact absurd hunwinds (TabularOps.exec_ne_closure trivial)

/-- A call through an index handle that unwinds in a closure drops the row that it writes. -/
theorem IndexedOps.exec_drops {i : S.Field t}
    {c : Call (S.FieldTy t i) (S.Key t) (S.Key t) (S.Value t) ρ} (hc : c.LoopsReturn)
    (hunwinds : (IndexedOps.exec debug i owner base c).1 = .error .closure) :
    ∃ k, (∀ k', c.Written debug owner base (fun q => (base.indexes.get i).data.lookup q) k' ↔
        k' = k) ∧
      base.Drops k (IndexedOps.exec debug i owner base c).2 := by
  cases c with
  | mutate key f =>
    simp only [IndexedOps.exec] at hunwinds ⊢
    cases hentry : (base.indexes.get i).data.lookup key with
    | none =>
      rw [IndexedOpsMut.mutate_of_none f hentry] at hunwinds
      cases hunwinds
    | some baseKey =>
      rw [IndexedOpsMut.mutate_of_some f hentry] at hunwinds ⊢
      obtain ⟨haccepts, hdrops⟩ := TabularOpsMut.mutate_drops hunwinds
      refine ⟨baseKey, fun k' => ⟨fun hk => ?_, fun hk => ⟨haccepts, ?_⟩⟩, hdrops⟩
      · have hfound : (base.indexes.get i).data.lookup key = some k' := hk.2
        rw [hentry] at hfound
        exact (Option.some.inj hfound).symm
      · exact hentry.trans (congrArg some hk.symm)
  | forEachMut order rebuild f s => exact absurd hunwinds (IndexedOps.exec_ne_closure hc)
  | _ => exact absurd hunwinds (IndexedOps.exec_ne_closure trivial)

end

/-! ## Requests -/

section

variable {r : Request S G ρ} {s : Storage S G}

/-- A request that unwinds in a closure of the table drops the row that it writes. -/
theorem TableStep.drops {result : Except Panic r.call.Ret} {base : BaseTable S t}
    (hstep : TableStep debug t (s.tables t) r result base) (hr : r.call.LoopsReturn)
    (ht : r.call.OnTable t) (hunwinds : result = .error .closure) :
    ∃ k, (∀ k', r.Written debug s t k' ↔ k' = k) ∧ (s.tables t).Drops k base := by
  cases hstep with
  | table owner c =>
    obtain ⟨k, hwritten, hdrops⟩ := TabularOps.exec_drops hr hunwinds
    refine ⟨k, fun k' => ?_, hdrops⟩
    exact ⟨fun hk => (hwritten k').mp hk.2, fun hk => ⟨rfl, (hwritten k').mpr hk⟩⟩
  | tableBy owner i c =>
    obtain ⟨k, hwritten, hdrops⟩ := IndexedOps.exec_drops hr hunwinds
    refine ⟨k, fun k' => ?_, hdrops⟩
    exact ⟨fun hk => (hwritten k').mp hk.2, fun hk => ⟨rfl, (hwritten k').mpr hk⟩⟩
  | indexTable owner i c => exact ht.elim
  | other r hother result => exact absurd ht hother

/-- Such a call writes no index table through the table's own handle. -/
theorem StoreCall.LoopsReturn.not_writesIndexTable {call : StoreCall S G ρ}
    (h : call.LoopsReturn) : ¬ call.WritesIndexTable := by
  cases call with
  | indexTable t i c =>
    intro hwrites
    have hread : c.isRead = true := h
    rw [hwrites] at hread
    cases hread
  | _ => exact not_false

/-- A request has one of the five effects on a table, or drops a row of it. -/
theorem Request.effect_or_drops (debug : Bool) (hr : r.call.LoopsReturn) (hs : s.Sound)
    (t : S.Name) :
    (r.call.OnTable t → (r.exec debug s).1 ≠ .error .closure) ∧
        TableEffect (r.Written debug s t) (s.tables t) ((r.exec debug s).2.tables t) ∨
      (r.exec debug s).1 = .error .closure ∧
        ∃ k, (∀ k', r.Written debug s t k' ↔ k' = k) ∧
          (s.tables t).Drops k ((r.exec debug s).2.tables t) := by
  have hstep := r.tableStep debug s t
  by_cases hunwinds : r.call.OnTable t ∧ (r.exec debug s).1 = .error .closure
  · obtain ⟨ht, hunwinds⟩ := hunwinds
    exact Or.inr ⟨hunwinds, hstep.drops hr ht hunwinds⟩
  · have hreturns : r.call.OnTable t → (r.exec debug s).1 ≠ .error .closure :=
      fun ht heq => hunwinds ⟨ht, heq⟩
    exact Or.inl ⟨hreturns, hstep.effect hreturns hr.not_writesIndexTable hs⟩

/-- A closure of `mutate` that unwinds keeps the indexes sound. -/
theorem Request.exec_sound_of_loopsReturn (hr : r.call.LoopsReturn) (hs : s.Sound) :
    (r.exec debug s).2.Sound := by
  intro t i
  rcases r.effect_or_drops debug hr hs t with ⟨_, heffect⟩ | ⟨_, k, _, hdrops⟩
  · exact heffect.soundAt (hs t i)
  · exact hdrops.soundAt (hs t i)

/-- A written row is found afterwards unless the closure has unwound. -/
theorem Request.findsAt_of_written (hr : r.call.LoopsReturn) (hs : s.Sound) {i : S.Field t}
    {k : S.Key t} (hwritten : r.Written debug s t k)
    (hdistinct : ((r.exec debug s).2.tables t).DistinctAt i) :
    ((r.exec debug s).2.tables t).FindsAt i k ↔ (r.exec debug s).1 ≠ .error .closure := by
  rcases r.effect_or_drops debug hr hs t with ⟨hreturns, heffect⟩ | ⟨hunwinds, k', hk', hdrops⟩
  · have hsole := DistinctOn.soleRow hdistinct k
    exact iff_of_true (heffect.findsAt_of_written hwritten hsole) (hreturns hwritten.onTable)
  · obtain rfl := (hk' k).mp hwritten
    exact iff_of_false (hdrops.not_findsAt (hs t i)) (not_not.mpr hunwinds)

/-- A row that is not written stays found. -/
theorem Request.findsAt_of_not_written (hr : r.call.LoopsReturn) (hs : s.Sound) {i : S.Field t}
    {k : S.Key t} (hwritten : ¬ r.Written debug s t k) (hfinds : (s.tables t).FindsAt i k)
    (hdistinct : (s.tables t).DistinctAt i)
    (hdistinct' : ((r.exec debug s).2.tables t).DistinctAt i) :
    ((r.exec debug s).2.tables t).FindsAt i k := by
  have hsole := DistinctOn.soleRow hdistinct k
  rcases r.effect_or_drops debug hr hs t with ⟨_, heffect⟩ | ⟨_, k', hk', hdrops⟩
  · exact heffect.findsAt hfinds hsole (DistinctOn.soleRow hdistinct' k)
  · exact hdrops.findsAt (fun heq => hwritten ((hk' k).mpr heq)) hfinds hsole

/-- A row that is not written is held only if it was held. -/
theorem Request.holdsAt_of_not_written (hr : r.call.LoopsReturn) (hs : s.Sound) {i : S.Field t}
    {k : S.Key t} {v : S.Value t} (hwritten : ¬ r.Written debug s t k)
    (hholds : ((r.exec debug s).2.tables t).HoldsAt i k v) : (s.tables t).HoldsAt i k v := by
  rcases r.effect_or_drops debug hr hs t with ⟨_, heffect⟩ | ⟨_, k', hk', hdrops⟩
  · exact heffect.holdsAt_of_not_written hwritten hholds
  · exact hdrops.holdsAt (fun heq => hwritten ((hk' k).mpr heq)) hholds

end

/-! ## Runs -/

/-- The last request of the run that writes row `k` has unwound in its closure. -/
def LastWriteUnwound (debug : Bool) (s : Storage S G) (t : S.Name) (k : S.Key t)
    (reqs : List (Request S G ρ)) : Prop :=
  LastIs (Request.exec debug) (fun r s => r.Written debug s t k)
    (fun r s => (r.exec debug s).1 = .error .closure) s reqs

section

variable {s : Storage S G} {reqs : List (Request S G ρ)}

/-- So do all requests of a run. -/
theorem sound_stateAfter_of_loopsReturn (hreqs : ∀ r ∈ reqs, r.call.LoopsReturn)
    (hs : s.Sound) : (stateAfter (Request.exec debug) reqs s).Sound :=
  stateAfter_invariant hs fun r hr _ h => r.exec_sound_of_loopsReturn (hreqs r hr) h

/-- A row of a run whose rows stay distinct is found unless its last write has unwound. -/
theorem findsAt_iff_not_lastWriteUnwound (hreqs : ∀ r ∈ reqs, r.call.LoopsReturn) (hs : s.Sound)
    {i : S.Field t} (hexact : (s.tables t).ExactAt i)
    (hdistinct : ∀ pre, pre <+: reqs →
      ((stateAfter (Request.exec debug) pre s).tables t).DistinctAt i)
    {k : S.Key t} {v : S.Value t} {pre : List (Request S G ρ)} (hpre : pre <+: reqs)
    (hrow : ((stateAfter (Request.exec debug) pre s).tables t).data.lookup k = some v) :
    ((stateAfter (Request.exec debug) pre s).tables t).FindsAt i k ↔
      ¬ LastWriteUnwound debug s t k pre := by
  induction pre using List.reverseRecOn generalizing v with
  | nil =>
    refine iff_of_true (ExactIndex.findsRow hexact k) ?_
    rintro ⟨pre, r, post, heq, _⟩
    simp at heq
  | append_singleton pre r ih =>
    have hbegins : pre <+: reqs := (List.prefix_append pre [r]).trans hpre
    have hr : r.call.LoopsReturn := hreqs r (hpre.subset (by simp))
    have hsound : (stateAfter (Request.exec debug) pre s).Sound :=
      sound_stateAfter_of_loopsReturn (fun r hr => hreqs r (hbegins.subset hr)) hs
    have hbefore := hdistinct pre hbegins
    have hafter := hdistinct (pre ++ [r]) hpre
    rw [stateAfter_concat] at hafter hrow ⊢
    by_cases hwritten : r.Written debug (stateAfter (Request.exec debug) pre s) t k
    · have hlast : LastWriteUnwound debug s t k (pre ++ [r]) ↔ _ := lastIs_concat_of hwritten
      rw [hlast, r.findsAt_of_written hr hsound hwritten hafter]
    · have hlast : LastWriteUnwound debug s t k (pre ++ [r]) ↔ _ := lastIs_concat_of_not hwritten
      rw [hlast]
      constructor
      · intro hfinds
        have hholds := r.holdsAt_of_not_written hr hsound hwritten (hfinds.holdsRow hafter hrow)
        exact (ih hbegins hholds.row).mp (findsRow_of_entry hholds.row hholds.entry)
      · intro hreturned
        refine r.findsAt_of_not_written hr hsound hwritten ?_ hbefore hafter
        intro v' hv'
        exact (ih hbegins hv').mpr hreturned v' hv'

/-- **Which rows are missed.** In a run from exact indexes in which closures of `mutate` may
unwind, and those of `for_each_mut` do not, which writes no index table through the table's
own handle, and whose rows stay distinct in an indexed field, the index of the field is sound
at all times. It has no entry for the rows whose last write has unwound, and it finds all
other rows. -/
theorem missed_rows_have_unwound (hreqs : ∀ r ∈ reqs, r.call.LoopsReturn) (hs : s.Sound)
    {i : S.Field t} (hexact : (s.tables t).ExactAt i)
    (hdistinct : ∀ pre, pre <+: reqs →
      ((stateAfter (Request.exec debug) pre s).tables t).DistinctAt i) :
    ∀ pre, pre <+: reqs →
      let base := (stateAfter (Request.exec debug) pre s).tables t
      base.SoundAt i ∧ ∀ k v, base.data.lookup k = some v →
        (LastWriteUnwound debug s t k pre →
            (base.indexes.get i).data.lookup (S.field i v) = none) ∧
          (¬ LastWriteUnwound debug s t k pre →
            (base.indexes.get i).data.lookup (S.field i v) = some k) := by
  intro pre hpre base
  have hsound : base.SoundAt i :=
    sound_stateAfter_of_loopsReturn (fun r hr => hreqs r (hpre.subset hr)) hs t i
  refine ⟨hsound, fun k v hrow => ?_⟩
  have hfinds := findsAt_iff_not_lastWriteUnwound hreqs hs hexact hdistinct hpre hrow
  constructor
  · intro hunwound
    refine SoundIndex.lookup_of_not_findsRow hsound (hdistinct pre hpre) hrow fun hfound => ?_
    exact hfinds.mp hfound hunwound
  · exact fun hreturned => hfinds.mpr hreturned v hrow

end

/-- Two people are inserted, and a closure unwinds in the first. -/
def unwoundRun : List (Request people noSingletons Unit) :=
  [⟨"owner", .table People (.insert (1 : UInt32) (People.person "a@example.com" [97]))⟩,
   ⟨"owner", .table People (.insert (2 : UInt32) (People.person "b@example.com" [98]))⟩,
   ⟨"owner", .table People (.mutate (1 : UInt32) fun person => (person, none))⟩]

/-- No closure of a `for_each_mut` unwinds in the run. -/
theorem unwoundRun_loopsReturn : ∀ r ∈ unwoundRun, r.call.LoopsReturn := by
  simp [unwoundRun, StoreCall.LoopsReturn, Call.LoopsReturn]

/-- At no time two people share an email address. -/
theorem unwoundRun_distinct : ∀ pre, pre <+: unwoundRun →
    ((stateAfter (Request.exec true) pre Storage.new).tables People).DistinctAt People.email := by
  intro pre hpre
  have hall : ∀ pre ∈ unwoundRun.inits,
      ((stateAfter (Request.exec true) pre Storage.new).tables People).DistinctAt People.email := by
    decide
  exact hall pre ((List.mem_inits pre _).mpr hpre)

/-- The index misses the person whose closure has unwound. -/
theorem unwoundRun_missed :
    let base := (stateAfter (Request.exec true) unwoundRun Storage.new).tables People
    base.SoundAt People.email ∧ ∀ k v, base.data.lookup k = some v →
      (LastWriteUnwound true Storage.new People k unwoundRun →
          (base.indexes.get People.email).data.lookup (people.field People.email v) = none) ∧
        (¬ LastWriteUnwound true Storage.new People k unwoundRun →
          (base.indexes.get People.email).data.lookup (people.field People.email v) = some k) :=
  missed_rows_have_unwound unwoundRun_loopsReturn Storage.new_sound exactIndex_empty
    unwoundRun_distinct _ List.prefix_rfl

end TsKvstore
