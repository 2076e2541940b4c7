import TsKvstore.IndexMaintenance

/-!
# Indexes at the end of a transaction

A transaction holds the write guard from its start to its commit, and its calls
take effect one by one. Every index stays sound through every transaction. Rows
that share an indexed value for a while can cost entries: `on_insert` overwrites
the entry of the other row and `on_remove` deletes it. A lost entry comes back
when its row is written again. So whether an index is exact at commit is decided
by what each row went through since it was last written.
-/

namespace TsKvstore

open FiniteMaps Machines

variable {S : Schema} {G : Singletons} {ρ : Type} {t : S.Name}

/-- The storage at the commit of a transaction with the given calls. -/
def atCommit (debug : Bool) (owner : Owner) (calls : List (StoreCall S G ρ)) (s : Storage S G) :
    Storage S G :=
  stateAfter (fun call s => StoreCall.exec debug owner s call) calls s

/-- The second part of a transaction starts where the first one ends. -/
theorem atCommit_append (debug : Bool) (owner : Owner) (calls calls' : List (StoreCall S G ρ))
    (s : Storage S G) :
    atCommit debug owner (calls ++ calls') s =
      atCommit debug owner calls' (atCommit debug owner calls s) :=
  stateAfter_append calls calls' s

/-- A transaction ends with its last call. -/
theorem atCommit_concat (debug : Bool) (owner : Owner) (calls : List (StoreCall S G ρ))
    (call : StoreCall S G ρ) (s : Storage S G) :
    atCommit debug owner (calls ++ [call]) s =
      (call.exec debug owner (atCommit debug owner calls s)).2 :=
  stateAfter_concat calls call s

/-- No closure of the call unwinds, and it writes no index table through the
table's own handle. -/
def StoreCall.Maintained (call : StoreCall S G ρ) : Prop :=
  call.NonPanicking ∧ ¬ call.WritesIndexTable

/-- The rows of table `t` that a call writes. -/
def StoreCall.Written (debug : Bool) (owner : Owner) (s : Storage S G) (t : S.Name)
    (call : StoreCall S G ρ) (k : S.Key t) : Prop :=
  Request.Written debug ⟨owner, call⟩ s t k

section

variable {s : Storage S G} {calls : List (StoreCall S G ρ)}

/-- The indexes are sound at the commit of a maintained transaction. -/
theorem atCommit_sound (debug : Bool) (owner : Owner) (hcalls : ∀ call ∈ calls, call.Maintained)
    (hs : s.Sound) : (atCommit debug owner calls s).Sound :=
  stateAfter_invariant hs fun call hcall _ h =>
    Request.exec_sound (r := ⟨owner, call⟩) (hcalls call hcall) h

/-- The next call of a maintained transaction has one of the five effects. -/
theorem atCommit_effect (debug : Bool) (owner : Owner) {pre : List (StoreCall S G ρ)}
    {call : StoreCall S G ρ}
    (hpre : pre ++ [call] <+: calls) (hcalls : ∀ call ∈ calls, call.Maintained) (hs : s.Sound)
    (t : S.Name) :
    TableEffect (call.Written debug owner (atCommit debug owner pre s) t)
      ((atCommit debug owner pre s).tables t)
      ((atCommit debug owner (pre ++ [call]) s).tables t) := by
  have hmem : ∀ call' ∈ pre ++ [call], call'.Maintained :=
    fun call' hcall' => hcalls call' (hpre.subset hcall')
  have hsound : (atCommit debug owner pre s).Sound :=
    atCommit_sound debug owner (fun call' hcall' => hmem call' (List.mem_append_left _ hcall')) hs
  have hcall : call.Maintained := hmem call (List.mem_append_right _ List.mem_cons_self)
  rw [atCommit_concat]
  exact Request.exec_effect (r := ⟨owner, call⟩) hcall hsound t

end

/-- The calls are none, or the last of them writes row `k`. -/
def LastWrites (debug : Bool) (owner : Owner) (s : Storage S G) (t : S.Name)
    (calls : List (StoreCall S G ρ)) (k : S.Key t) : Prop :=
  calls = [] ∨ ∃ pre call, calls = pre ++ [call] ∧
    call.Written debug owner (atCommit debug owner pre s) t k

/-- From some point of the transaction on, its start or a call that writes row
`k`, that row is the only one with its value in field `i`. -/
def SoleSinceWritten (debug : Bool) (owner : Owner) (s : Storage S G) (t : S.Name) (i : S.Field t)
    (calls : List (StoreCall S G ρ)) (k : S.Key t) : Prop :=
  ∃ pre post, calls = pre ++ post ∧ LastWrites debug owner s t pre k ∧
    ∀ post', post' <+: post → ((atCommit debug owner (pre ++ post') s).tables t).SoleAt i k

section

variable {debug : Bool} {owner : Owner} {s : Storage S G} {calls : List (StoreCall S G ρ)}
  {i : S.Field t} {k : S.Key t}

/-- The row that the last call writes is found, if it is the only one with its
value. -/
theorem LastWrites.findsAt {pre : List (StoreCall S G ρ)}
    (h : LastWrites debug owner s t pre k) (hpre : pre <+: calls)
    (hcalls : ∀ call ∈ calls, call.Maintained) (hs : s.Sound) (hfinds : (s.tables t).FindsAt i k)
    (hsole : ((atCommit debug owner pre s).tables t).SoleAt i k) :
    ((atCommit debug owner pre s).tables t).FindsAt i k := by
  rcases h with rfl | ⟨pre', call, rfl, hwritten⟩
  · exact hfinds
  · exact (atCommit_effect debug owner hpre hcalls hs t).findsAt_of_written hwritten hsole

/-- A row that has been the only one with its value since it was written is
found at commit. -/
theorem SoleSinceWritten.findsAt (h : SoleSinceWritten debug owner s t i calls k)
    (hcalls : ∀ call ∈ calls, call.Maintained) (hs : s.Sound)
    (hfinds : (s.tables t).FindsAt i k) :
    ((atCommit debug owner calls s).tables t).FindsAt i k := by
  obtain ⟨pre, post, rfl, hwritten, hsole⟩ := h
  have hbegins : ∀ post', post' <+: post →
      ((atCommit debug owner (pre ++ post') s).tables t).FindsAt i k := by
    intro post'
    induction post' using List.reverseRecOn with
    | nil =>
      intro hnil
      have hstart := hsole [] hnil
      rw [List.append_nil] at hstart ⊢
      exact hwritten.findsAt (List.prefix_append pre post) hcalls hs hfinds hstart
    | append_singleton post' call ih =>
      intro hpost
      have hpost' : post' <+: post := (List.prefix_append post' [call]).trans hpost
      have hsole' := hsole (post' ++ [call]) hpost
      have hcall : (pre ++ post') ++ [call] <+: pre ++ post := by
        rw [List.append_assoc]
        exact (List.prefix_append_right_inj pre).mpr hpost
      rw [← List.append_assoc] at hsole' ⊢
      have heffect := atCommit_effect debug owner hcall hcalls hs t
      exact heffect.findsAt (ih hpost') (hsole post' hpost') hsole'
  exact hbegins post (List.prefix_refl post)

/-- A row that is held at commit has been the only one with its value since it
was last written. -/
theorem soleSinceWritten_of_holdsAt (hcalls : ∀ call ∈ calls, call.Maintained) (hs : s.Sound)
    {v : S.Value t} (hholds : ((atCommit debug owner calls s).tables t).HoldsAt i k v) :
    SoleSinceWritten debug owner s t i calls k := by
  obtain ⟨pre, post, rfl, hwritten, hlast⟩ :=
    exists_last (fun call s => StoreCall.exec debug owner s call)
      (fun call s => StoreCall.Written debug owner s t call k) calls s
  refine ⟨pre, post, rfl, hwritten, ?_⟩
  have hbackward : ∀ post', post' <+: post →
      ((atCommit debug owner (pre ++ post') s).tables t).HoldsAt i k v := by
    intro post' hpost'
    rw [atCommit_append] at hholds ⊢
    refine stateAfter_backward (P := fun s : Storage S G => (s.tables t).HoldsAt i k v) hholds ?_
      post' hpost'
    intro post'' call hcall hnext
    have hbegins : (pre ++ post'') ++ [call] <+: pre ++ post := by
      rw [List.append_assoc]
      exact (List.prefix_append_right_inj pre).mpr hcall
    have heffect := atCommit_effect debug owner hbegins hcalls hs t
    rw [atCommit_concat, atCommit_append] at heffect
    have hunwritten := hlast post'' call hcall
    rw [stateAfter_append] at hunwritten
    exact heffect.holdsAt_of_not_written hunwritten hnext
  exact fun post' hpost' => (hbackward post' hpost').soleRow

end

/-- **Indexes at commit.** From a storage with exact indexes, every index is
sound at the commit of every transaction. It is exact if and only if each row at
commit has been the only row with its value in the field of the index since it
was last written, or since the start. -/
theorem indexes_atCommit (debug : Bool) (owner : Owner) (s : Storage S G)
    (hexact : ∀ t i, (s.tables t).ExactAt i) (calls : List (StoreCall S G ρ))
    (hcalls : ∀ call ∈ calls, call.Maintained) (t : S.Name) (i : S.Field t) :
    ((atCommit debug owner calls s).tables t).SoundAt i ∧
      (((atCommit debug owner calls s).tables t).ExactAt i ↔
        ∀ k v, ((atCommit debug owner calls s).tables t).data.lookup k = some v →
          SoleSinceWritten debug owner s t i calls k) := by
  have hs : s.Sound := fun t i => (hexact t i).sound
  have hsound : ((atCommit debug owner calls s).tables t).SoundAt i :=
    atCommit_sound debug owner hcalls hs t i
  refine ⟨hsound, ?_, ?_⟩
  · intro hcommit k v hrow
    exact soleSinceWritten_of_holdsAt hcalls hs (hcommit.holdsRow hrow)
  · intro hsole
    refine SoundIndex.exact hsound fun k v hrow => ?_
    exact (hsole k v hrow).findsAt hcalls hs (ExactIndex.findsRow (hexact t i) k) v hrow

/-- The exchange of the email addresses of two people, one row after the other. -/
def exchange : List (StoreCall people noSingletons Unit) :=
  [.table People (.mutate (1 : UInt32) fun _ => (People.person "b@example.com" [97], some ())),
   .table People (.mutate (2 : UInt32) fun _ => (People.person "a@example.com" [98], some ()))]

/-- The exchange is maintained. -/
theorem exchange_maintained : ∀ call ∈ exchange, call.Maintained := by
  simp [exchange, StoreCall.Maintained, StoreCall.NonPanicking, StoreCall.WritesIndexTable,
    Call.NonPanicking]

/-- The arrival of two people. -/
def arrivals : List (StoreCall people noSingletons Unit) :=
  [.table People (.insert (1 : UInt32) (People.person "a@example.com" [97])),
   .table People (.insert (2 : UInt32) (People.person "b@example.com" [98]))]

/-- A storage with two people. -/
def twoPeople : Storage people noSingletons := atCommit true "owner" arrivals Storage.new

/-- Its indexes are exact. -/
theorem twoPeople_exact : ∀ t i, (twoPeople.tables t).ExactAt i := by
  have hall : ∀ i ∈ people.fields People, (twoPeople.tables People).ExactAt i := by decide
  exact fun t i => hall i (people.mem_fields t i)

/-- After the exchange the index on the email addresses is sound, and not exact if one of the
two has not been alone with its value since it was written. -/
theorem exchange_indexes_atCommit :
    ((atCommit true "owner" exchange twoPeople).tables People).SoundAt People.email ∧
      (((atCommit true "owner" exchange twoPeople).tables People).ExactAt People.email ↔
        ∀ k v, ((atCommit true "owner" exchange twoPeople).tables People).data.lookup k = some v →
          SoleSinceWritten true "owner" twoPeople People People.email exchange k) :=
  indexes_atCommit true "owner" twoPeople twoPeople_exact exchange exchange_maintained People
    People.email

/-- **Distinct rows at both ends are not enough.** After the exchange the rows
are distinct again, but the first person has lost the entry in the index on the
email addresses. -/
theorem exchange_loses_entry :
    ¬ ∀ (debug : Bool) (owner : Owner) (s : Storage people noSingletons),
      (∀ t i, (s.tables t).ExactAt i) →
      ∀ calls : List (StoreCall people noSingletons Unit), (∀ call ∈ calls, call.Maintained) →
        (∀ t i, (s.tables t).DistinctAt i) →
        (∀ t i, ((atCommit debug owner calls s).tables t).DistinctAt i) →
        ∀ t i, ((atCommit debug owner calls s).tables t).ExactAt i := by
  intro hclaim
  have hdistinct : ∀ i ∈ people.fields People,
      ((atCommit true "owner" exchange twoPeople).tables People).DistinctAt i := by decide
  have hlost :
      ¬ ((atCommit true "owner" exchange twoPeople).tables People).ExactAt People.email := by decide
  exact hlost (hclaim true "owner" twoPeople twoPeople_exact exchange exchange_maintained
    (fun t i => (twoPeople_exact t i).distinctOn)
    (fun t i => hdistinct i (people.mem_fields t i)) People People.email)

end TsKvstore
