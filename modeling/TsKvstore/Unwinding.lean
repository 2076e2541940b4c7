import TsKvstore.RowByRow
import TsKvstore.UnwoundRows

/-!
# Closures that unwind inside a transaction

A closure that unwinds in `mutate` or `for_each_mut` cuts the operation short. `mutate`
has taken its row out of the indexes by then and does not enter it again, and
`for_each_mut` has not built the indexes anew. Outside a transaction the lock is
poisoned, but a transaction can be used further. A row that is missed while rows collide
is also missed later, when they are distinct again. So however a transaction goes on, its
indexes stay right if and only if the call that unwound has left them exact.
-/

namespace TsKvstore

open FiniteMaps Machines

variable {S : Schema} {G : Singletons} {ρ : Type} {t : S.Name}

/-- Every index entry names a row with that indexed value, and if the rows are distinct
in all indexed fields, every row is found through every index. -/
structure Table.Coherent (base : BaseTable S t) : Prop where
  sound : ∀ i, base.SoundAt i
  finds : (∀ i, base.DistinctAt i) → ∀ i k, base.FindsAt i k

/-- Exact indexes are coherent. -/
theorem Table.coherent_of_exact {base : BaseTable S t} (hexact : ∀ i, base.ExactAt i) :
    base.Coherent :=
  ⟨fun i => (hexact i).sound, fun _ i => (hexact i).findsRow⟩

/-! ## `mutate` -/

/-- A row that is written after it has been taken out of the indexes, and not entered
again, is missed by every index. -/
theorem Table.Drops.exact_iff {base base' : BaseTable S t} {k : S.Key t}
    (h : base.Drops k base') (hsound : ∀ i, base.SoundAt i) :
    (∀ i, base'.ExactAt i) ↔ IsEmpty (S.Field t) := by
  constructor
  · intro hexact
    refine ⟨fun i => ?_⟩
    have hfinds : base'.FindsAt i k := (hexact i).findsRow k
    exact h.not_findsAt (hsound i) hfinds
  · exact fun hfields i => (hfields.false i).elim

/-! ## `for_each_mut` -/

/-- A call of a closure on a row. -/
structure Visit (K V : Type) where
  /-- The key of the row. -/
  key : K
  /-- Its value before the call. -/
  before : V
  /-- The value that the call leaves in it. -/
  after : V

/-- The row that a call leaves. -/
def Visit.row {K V : Type} (w : Visit K V) : K × V := (w.key, w.after)

/-- The calls that a loop makes on the listed rows, each under the key that it is
presented with, up to the call that unwinds. -/
def visits {Q K V : Type} (f : EachMutFn Q V ρ) : List (Q × K × V) → ρ → List (Visit K V)
  | [], _ => []
  | (q, k, v) :: rest, s =>
    ⟨k, v, (f s q v).1⟩ ::
      match (f s q v).2 with
      | none => []
      | some s => visits f rest s

section

variable {Q K V : Type} (f : EachMutFn Q V ρ)

/-- A loop visits listed rows only. -/
theorem mem_visits {l : List (Q × K × V)} {s : ρ} {w : Visit K V} (hw : w ∈ visits f l s) :
    ∃ q, (q, w.key, w.before) ∈ l := by
  induction l generalizing s with
  | nil => exact absurd hw List.not_mem_nil
  | cons e l ih =>
    obtain ⟨q, k, v⟩ := e
    rw [visits] at hw
    rcases List.mem_cons.mp hw with rfl | hw
    · exact ⟨q, List.mem_cons_self⟩
    · cases hs : (f s q v).2 with
      | none =>
        rw [hs] at hw
        exact absurd hw List.not_mem_nil
      | some s' =>
        rw [hs] at hw
        obtain ⟨q', hq'⟩ := ih hw
        exact ⟨q', List.mem_cons_of_mem _ hq'⟩

/-- A loop visits the rows in the order of the list. -/
theorem visits_keys_sublist (l : List (Q × K × V)) (s : ρ) :
    ((visits f l s).map Visit.key).Sublist (l.map fun e => e.2.1) := by
  induction l generalizing s with
  | nil => exact List.Sublist.refl []
  | cons e l ih =>
    obtain ⟨q, k, v⟩ := e
    rw [visits, List.map_cons, List.map_cons]
    refine List.Sublist.cons_cons k ?_
    cases (f s q v).2 with
    | none => exact List.nil_sublist _
    | some s' => exact ih s'

/-- A loop writes the rows that its calls leave, also if it is cut short. -/
theorem RefTable.forEachLoop_rows [DecidableEq K] (handle : RefHandle Q K V) (l : List (K × V))
    (s : ρ) (rows : FiniteMap K V) :
    (RefTable.forEachLoop handle f l s rows).2 =
      rows.writeAll
        ((visits f (l.map fun kv => (handle.keyOf kv.1 kv.2, kv)) s).map Visit.row) := by
  induction l generalizing s rows with
  | nil => rfl
  | cons kv l ih =>
    obtain ⟨k, v⟩ := kv
    rw [RefTable.forEachLoop, List.map_cons, visits, List.map_cons]
    rcases f s (handle.keyOf k v) v with ⟨v', _ | s'⟩
    · rfl
    · exact ih s' (rows.insert k v')

end

section

variable {K V : Type} [DecidableEq K] {rows : FiniteMap K V} {calls : List (Visit K V)}

omit [DecidableEq K] in
/-- The keys of the rows that the calls leave. -/
theorem map_fst_row (calls : List (Visit K V)) :
    (calls.map Visit.row).map Prod.fst = calls.map Visit.key :=
  List.map_map

/-- A visited row is as its call has left it. -/
theorem lookup_of_visited (hnodup : (calls.map Visit.key).Nodup) {w : Visit K V}
    (hw : w ∈ calls) : (rows.writeAll (calls.map Visit.row)).lookup w.key = some w.after := by
  rw [← map_fst_row] at hnodup
  exact FiniteMap.lookup_writeAll_of_mem hnodup (List.mem_map_of_mem hw) _

/-- The other rows are as they were. -/
theorem lookup_of_not_visited {k : K} (hk : k ∉ calls.map Visit.key) :
    (rows.writeAll (calls.map Visit.row)).lookup k = rows.lookup k := by
  rw [← map_fst_row] at hk
  exact FiniteMap.lookup_writeAll_of_notMem hk _

/-- The calls neither add nor remove rows. -/
theorem mem_writeAll_iff (hnodup : (calls.map Visit.key).Nodup)
    (hrows : ∀ w ∈ calls, rows.lookup w.key = some w.before) (k : K) :
    k ∈ rows.writeAll (calls.map Visit.row) ↔ k ∈ rows := by
  simp only [Finmap.mem_iff]
  by_cases hk : k ∈ calls.map Visit.key
  · obtain ⟨w, hw, rfl⟩ := List.mem_map.mp hk
    exact iff_of_true ⟨w.after, lookup_of_visited hnodup hw⟩ ⟨w.before, hrows w hw⟩
  · rw [lookup_of_not_visited hk]

end

/-- The calls of a loop leave the indexes exact although these are not rebuilt. -/
structure Table.Tolerates (base : BaseTable S t) (calls : List (Visit (S.Key t) (S.Value t))) :
    Prop where
  /-- The calls keep the indexed fields. -/
  keeps : ∀ w ∈ calls, ∀ i, S.field i w.after = S.field i w.before
  /-- All rows were found before. -/
  finds : ∀ i k, base.FindsAt i k

/-- The indexes are exact for the rows that a loop has changed, up to the call that
unwinds, if and only if they tolerate the calls. -/
theorem Table.exact_of_visits_iff {base : BaseTable S t} (hsound : ∀ i, base.SoundAt i)
    {calls : List (Visit (S.Key t) (S.Value t))} (hnodup : (calls.map Visit.key).Nodup)
    (hrows : ∀ w ∈ calls, base.data.lookup w.key = some w.before) :
    (∀ i, ({ base with data := base.data.writeAll (calls.map Visit.row) } :
      BaseTable S t).ExactAt i) ↔ base.Tolerates calls := by
  have hmem := mem_writeAll_iff hnodup hrows
  constructor
  · intro hexact
    have hfinds : ∀ i k, base.FindsAt i k := fun i k =>
      (ExactIndex.findsRow (hexact i) k).of_sound (hsound i) (hmem k).mpr
    refine ⟨fun w hw i => ?_, hfinds⟩
    have hentry := hfinds i w.key w.before (hrows w hw)
    obtain ⟨v', hv', hfield⟩ := (hexact i).sound _ _ hentry
    rw [lookup_of_visited hnodup hw] at hv'
    cases hv'
    exact hfield
  · intro htolerates i
    have hsound' : SoundIndex (S.field i) (base.data.writeAll (calls.map Visit.row))
        (base.indexes.get i).data := by
      rw [(hsound i).sound_iff_keeps]
      intro k v hv _
      by_cases hk : k ∈ calls.map Visit.key
      · obtain ⟨w, hw, rfl⟩ := List.mem_map.mp hk
        rw [hrows w hw] at hv
        cases hv
        exact ⟨w.after, lookup_of_visited hnodup hw, htolerates.keeps w hw i⟩
      · exact ⟨v, (lookup_of_not_visited hk).trans hv, rfl⟩
    refine SoundIndex.exact hsound' fun k => ?_
    exact (htolerates.finds i k).of_sound hsound' (hmem k).mp

/-- The rows that a loop changes through some handle. -/
theorem Table.exact_of_loop_iff {Q : Type} {base : BaseTable S t}
    (hsound : ∀ i, base.SoundAt i) (handle : RefHandle Q (S.Key t) (S.Value t))
    (f : EachMutFn Q (S.Value t) ρ) {l : List (S.Key t × S.Value t)}
    (hl : (l.map Prod.fst).Nodup) (hrows : ∀ kv ∈ l, base.data.lookup kv.1 = some kv.2) (s : ρ) :
    (∀ i, ({ base with data := (RefTable.forEachLoop handle f l s base.data).2 } :
      BaseTable S t).ExactAt i) ↔
      base.Tolerates (visits f (l.map fun kv => (handle.keyOf kv.1 kv.2, kv)) s) := by
  rw [RefTable.forEachLoop_rows]
  refine Table.exact_of_visits_iff hsound ?_ fun w hw => ?_
  · refine (visits_keys_sublist f _ s).nodup ?_
    rw [List.map_map]
    exact hl
  · obtain ⟨q, hmem⟩ := mem_visits f hw
    obtain ⟨kv, hkv, heq⟩ := List.mem_map.mp hmem
    cases heq
    exact hrows _ hkv

section

variable {debug : Bool} {owner : Owner} {base : BaseTable S t}

/-- `for_each_mut` unwinds in its closure only for an accepted caller. -/
theorem TabularOpsMut.forEachMut_exact_iff (hsound : ∀ i, base.SoundAt i)
    {order rebuild : IterOrder (S.Key t) (S.Value t)} {f : EachMutFn (S.Key t) (S.Value t) ρ}
    {s : ρ} (hunwinds : (forEachMut debug order rebuild base f s owner).1 = .error .closure) :
    (∀ i, (forEachMut debug order rebuild base f s owner).2.ExactAt i) ↔
      base.Tolerates (visits f ((order.list base.data).map fun kv => (kv.1, kv)) s) := by
  rcases base.accepts_or_refuses debug owner with haccepts | ⟨prevOwner, hrefuses⟩
  · have horder := order.enumerates base.data
    have hexact := Table.exact_of_loop_iff hsound (baseHandle (S.Key t) (S.Value t)) f
      horder.nodup (fun kv hkv => horder.lookup_of_mem hkv) s
    rw [← forEachLoop_eq] at hexact
    rcases hloop : forEachLoop f (order.list base.data) s base.data with ⟨_ | s', data⟩
    · rw [hloop] at hexact
      rw [forEachMut_of_unwind haccepts hloop]
      exact hexact
    · rw [forEachMut_of_return haccepts hloop] at hunwinds
      cases hunwinds
  · rw [forEachMut_of_refuses hrefuses] at hunwinds
    cases hunwinds

variable {i : S.Field t}

/-- The rows that an index names, each under the key of its entry. -/
def IndexedOps.named (i : S.Field t) (order : IterOrder (S.FieldTy t i) (S.Key t))
    (base : BaseTable S t) : List (S.FieldTy t i × S.Key t × S.Value t) :=
  (order.list (base.indexes.get i).data).filterMap fun e =>
    (base.data.lookup e.2).map fun v => (e.1, e.2, v)

/-- The rows that a sound index names are presented under their indexed field. -/
theorem IndexedOps.named_eq_map {order : IterOrder (S.FieldTy t i) (S.Key t)}
    {l : List (S.Key t × S.Value t)} (hrows : ∀ kv ∈ l, base.data.lookup kv.1 = some kv.2)
    (horder : order.list (base.indexes.get i).data = l.map fun kv => (S.field i kv.2, kv.1)) :
    named i order base = l.map fun kv => (S.field i kv.2, kv) := by
  unfold named
  rw [horder, List.filterMap_map]
  refine List.filterMap_eq_map_iff_forall_eq_some.mpr fun kv hkv => ?_
  simp [hrows kv hkv]

/-- So does `for_each_mut` through an index. -/
theorem IndexedOpsMut.forEachMut_exact_iff (hsound : ∀ i, base.SoundAt i)
    {order : IterOrder (S.FieldTy t i) (S.Key t)} {rebuild : IterOrder (S.Key t) (S.Value t)}
    {f : EachMutFn (S.FieldTy t i) (S.Value t) ρ} {s : ρ}
    (hunwinds : (forEachMut debug i order rebuild base f s owner).1 = .error .closure) :
    (∀ j, (forEachMut debug i order rebuild base f s owner).2.ExactAt j) ↔
      base.Tolerates (visits f (IndexedOps.named i order base) s) := by
  obtain ⟨l, hl, hrows, horder⟩ := SoundIndex.exists_rows (hsound i) (order.enumerates _)
  rcases base.accepts_or_refuses debug owner with haccepts | ⟨prevOwner, hrefuses⟩
  · have hexact := Table.exact_of_loop_iff hsound (indexHandle i) f hl hrows s
    rw [← forEachLoop_eq f hl s hrows, ← horder] at hexact
    rcases hloop : forEachLoop f (order.list (base.indexes.get i).data) s base.data with
      ⟨_ | s', data⟩
    · rw [hloop] at hexact
      rw [forEachMut_of_unwind haccepts hloop, IndexedOps.named_eq_map hrows horder]
      exact hexact
    · rw [forEachMut_of_return haccepts hloop] at hunwinds
      cases hunwinds
  · rw [forEachMut_of_refuses hrefuses] at hunwinds
    cases hunwinds

end

/-! ## Calls inside a transaction -/

/-- The step that an unwinding call has missed is not needed: there is no index, or the
indexes tolerate the calls that `for_each_mut` makes on the rows that the handle
presents. -/
def Call.UnwindsHarmlessly {Q W : Type} [DecidableEq Q] (base : BaseTable S t)
    (rows : IterOrder Q W → List (Q × S.Key t × S.Value t)) :
    Call Q W (S.Key t) (S.Value t) ρ → Prop
  | .mutate _ _ => IsEmpty (S.Field t)
  | .forEachMut order _ f s => base.Tolerates (visits f (rows order) s)
  | _ => True

/-- The call unwinds without harm, if it does. -/
def StoreCall.UnwindsHarmlessly (s : Storage S G) : StoreCall S G ρ → Prop
  | table t c =>
    c.UnwindsHarmlessly (s.tables t) fun order =>
      (order.list (s.tables t).data).map fun kv => (kv.1, kv)
  | tableBy t i c =>
    c.UnwindsHarmlessly (s.tables t) fun order => IndexedOps.named i order (s.tables t)
  | _ => True

section

variable {debug : Bool} {owner : Owner} {base : BaseTable S t}

/-- Only `mutate` and `for_each_mut` unwind in a closure. -/
theorem TabularOps.unwind_exact_iff (hsound : ∀ i, base.SoundAt i)
    {c : Call (S.Key t) (S.Value t) (S.Key t) (S.Value t) ρ}
    (hunwinds : (TabularOps.exec debug owner base c).1 = .error .closure) :
    (∀ i, (TabularOps.exec debug owner base c).2.ExactAt i) ↔
      c.UnwindsHarmlessly base fun order =>
        (order.list base.data).map fun kv => (kv.1, kv) := by
  cases c with
  | mutate key f =>
    obtain ⟨k, _, hdrops⟩ := TabularOps.exec_drops (c := .mutate key f) trivial hunwinds
    exact hdrops.exact_iff hsound
  | forEachMut order rebuild f s => exact TabularOpsMut.forEachMut_exact_iff hsound hunwinds
  | _ => exact absurd hunwinds (TabularOps.exec_ne_closure trivial)

/-- The same calls unwind through an index handle. -/
theorem IndexedOps.unwind_exact_iff (hsound : ∀ i, base.SoundAt i) {i : S.Field t}
    {c : Call (S.FieldTy t i) (S.Key t) (S.Key t) (S.Value t) ρ}
    (hunwinds : (IndexedOps.exec debug i owner base c).1 = .error .closure) :
    (∀ j, (IndexedOps.exec debug i owner base c).2.ExactAt j) ↔
      c.UnwindsHarmlessly base fun order => IndexedOps.named i order base := by
  cases c with
  | mutate key f =>
    obtain ⟨k, _, hdrops⟩ := IndexedOps.exec_drops (c := .mutate key f) trivial hunwinds
    exact hdrops.exact_iff hsound
  | forEachMut order rebuild f s => exact IndexedOpsMut.forEachMut_exact_iff hsound hunwinds
  | _ => exact absurd hunwinds (IndexedOps.exec_ne_closure trivial)

/-- A call on table `t` that unwinds leaves the indexes of the table exact if and only if
it unwinds without harm. -/
theorem StoreCall.unwind_exact_iff {s : Storage S G} (hs : s.Sound) {call : StoreCall S G ρ}
    (hcall : call.OnTable t) (hunwinds : (call.exec debug owner s).1 = .error .closure) :
    (∀ i, ((call.exec debug owner s).2.tables t).ExactAt i) ↔ call.UnwindsHarmlessly s := by
  cases call with
  | table t' c =>
    obtain rfl : t' = t := hcall
    simp only [StoreCall.exec, Storage.setTable_tables_self]
    exact TabularOps.unwind_exact_iff (hs t') hunwinds
  | tableBy t' i c =>
    obtain rfl : t' = t := hcall
    simp only [StoreCall.exec, Storage.setTable_tables_self]
    exact IndexedOps.unwind_exact_iff (hs t') hunwinds
  | indexTable t' i c => exact hcall.elim
  | singleton m c => exact hcall.elim

/-- Only the calls of a caller whom the table accepts unwind in a closure. -/
theorem StoreCall.accepts_of_unwind {s : Storage S G} {call : StoreCall S G ρ}
    (hcall : call.OnTable t) (hunwinds : (call.exec debug owner s).1 = .error .closure) :
    (s.tables t).Accepts debug owner := by
  rcases (s.tables t).accepts_or_refuses debug owner with haccepts | ⟨prevOwner, hrefuses⟩
  · exact haccepts
  cases call with
  | table t' c =>
    obtain rfl : t' = t := hcall
    exact absurd hunwinds (TabularOps.ne_closure_of_refuses hrefuses c)
  | tableBy t' i c =>
    obtain rfl : t' = t := hcall
    exact absurd hunwinds (IndexedOps.ne_closure_of_refuses hrefuses c)
  | indexTable t' i c => exact hcall.elim
  | singleton m c => exact hcall.elim

/-- The call writes no index table through the table's own handle, and it unwinds, if it
does, without harm. -/
def StoreCall.Harmless (debug : Bool) (owner : Owner) (s : Storage S G) (call : StoreCall S G ρ) :
    Prop :=
  ¬ call.WritesIndexTable ∧
    ((call.exec debug owner s).1 = .error .closure → call.UnwindsHarmlessly s)

/-- A harmless call unwinds and leaves the indexes exact, or it has one of the five
effects. -/
theorem StoreCall.Harmless.exact_or_effect {s : Storage S G} {call : StoreCall S G ρ}
    (hcall : call.Harmless debug owner s) (hs : s.Sound) (t : S.Name) :
    (∀ i, ((call.exec debug owner s).2.tables t).ExactAt i) ∨
      TableEffect (call.Written debug owner s t) (s.tables t)
        ((call.exec debug owner s).2.tables t) := by
  by_cases hunwinds : call.OnTable t ∧ (call.exec debug owner s).1 = .error .closure
  · obtain ⟨ht, hunwinds⟩ := hunwinds
    exact Or.inl ((StoreCall.unwind_exact_iff hs ht hunwinds).mpr (hcall.2 hunwinds))
  · have hreturns : call.OnTable t → (call.exec debug owner s).1 ≠ .error .closure :=
      fun ht heq => hunwinds ⟨ht, heq⟩
    exact Or.inr ((Request.tableStep debug ⟨owner, call⟩ s t).effect hreturns hcall.1 hs)

/-- A harmless call keeps the indexes sound. -/
theorem StoreCall.Harmless.exec_sound {s : Storage S G} {call : StoreCall S G ρ}
    (hcall : call.Harmless debug owner s) (hs : s.Sound) : (call.exec debug owner s).2.Sound := by
  intro t i
  rcases hcall.exact_or_effect hs t with hexact | heffect
  · exact (hexact i).sound
  · exact heffect.soundAt (hs t i)

/-- A harmless call that leaves distinct rows keeps the indexes exact. -/
theorem StoreCall.Harmless.exec_exactAt {s : Storage S G} {call : StoreCall S G ρ}
    (hcall : call.Harmless debug owner s) (hs : s.Sound) {t : S.Name}
    (hexact : ∀ i, (s.tables t).ExactAt i)
    (hdistinct : ∀ i, ((call.exec debug owner s).2.tables t).DistinctAt i) (i : S.Field t) :
    ((call.exec debug owner s).2.tables t).ExactAt i := by
  rcases hcall.exact_or_effect hs t with hexact' | heffect
  · exact hexact' i
  · exact heffect.exactAt (hexact i) (hdistinct i)

/-- Every call of a transaction is harmless in the storage in which it is made. -/
def HarmlessCalls (debug : Bool) (owner : Owner) (s : Storage S G)
    (calls : List (StoreCall S G ρ)) : Prop :=
  ∀ pre call, pre ++ [call] <+: calls → call.Harmless debug owner (atCommit debug owner pre s)

/-- No call of a transaction makes distinct rows of table `t` collide. Rows that collide
from the start may become distinct. -/
def KeepsDistinct (debug : Bool) (owner : Owner) (s : Storage S G) (t : S.Name)
    (calls : List (StoreCall S G ρ)) : Prop :=
  ∀ pre call, pre ++ [call] <+: calls →
    (∀ i, ((atCommit debug owner pre s).tables t).DistinctAt i) →
      ∀ i, ((atCommit debug owner (pre ++ [call]) s).tables t).DistinctAt i

variable {s : Storage S G} {calls : List (StoreCall S G ρ)}

/-- Along harmless calls the indexes stay sound. -/
theorem HarmlessCalls.sound (hcalls : HarmlessCalls debug owner s calls) (hs : s.Sound) :
    ∀ pre, pre <+: calls → (atCommit debug owner pre s).Sound :=
  stateAfter_invariant_along hs fun pre call hpre hsound => (hcalls pre call hpre).exec_sound hsound

/-- Along harmless calls that keep the rows distinct the indexes stay exact. -/
theorem HarmlessCalls.exactAt (hcalls : HarmlessCalls debug owner s calls) (hs : s.Sound)
    (hkeeps : KeepsDistinct debug owner s t calls) (hexact : ∀ i, (s.tables t).ExactAt i) :
    ∀ pre, pre <+: calls → ∀ i, ((atCommit debug owner pre s).tables t).ExactAt i := by
  refine stateAfter_invariant_along (P := fun s : Storage S G => ∀ i, (s.tables t).ExactAt i)
    hexact fun pre call hpre hbefore => ?_
  have hbegins : pre <+: calls := (List.prefix_append pre [call]).trans hpre
  have hafter := hkeeps pre call hpre fun i => (hbefore i).distinctOn
  rw [atCommit_concat] at hafter
  exact (hcalls pre call hpre).exec_exactAt (hcalls.sound hs pre hbegins) hbefore hafter

/-! ## Removing all rows but one

A row that an index misses stays missed when the other rows are removed. The rows are
distinct then, as there is only one left.
-/

/-- The removals of the rows under the listed keys. -/
def removals (t : S.Name) (keys : List (S.Key t)) : List (StoreCall S G ρ) :=
  keys.map fun key => .table t (.remove key)

/-- The removals are a loop over `remove`. -/
theorem atCommit_removals (keys : List (S.Key t)) (s : Storage S G) :
    (atCommit (ρ := ρ) debug owner (removals t keys) s).tables t =
      removeEach debug owner keys (s.tables t) := by
  induction keys generalizing s with
  | nil => rfl
  | cons key keys ih =>
    refine (ih _).trans (congrArg (removeEach debug owner keys) ?_)
    exact s.setTable_tables_self t _

/-- Removals unwind in no closure. -/
theorem harmlessCalls_removals (keys : List (S.Key t)) (s : Storage S G) :
    HarmlessCalls (ρ := ρ) debug owner s (removals t keys) := by
  intro pre call hpre
  have hmem : call ∈ removals t keys :=
    hpre.subset (List.mem_append_right pre List.mem_cons_self)
  obtain ⟨key, _, rfl⟩ := List.mem_map.mp hmem
  exact ⟨not_false, fun _ => trivial⟩

/-- Removals do not make rows collide. -/
theorem keepsDistinct_removals (keys : List (S.Key t)) (s : Storage S G) :
    KeepsDistinct (ρ := ρ) debug owner s t (removals t keys) := by
  intro pre call hpre hdistinct i
  have hmem : call ∈ removals t keys :=
    hpre.subset (List.mem_append_right pre List.mem_cons_self)
  obtain ⟨key, _, rfl⟩ := List.mem_map.mp hmem
  rw [atCommit_concat]
  simp only [StoreCall.exec, Storage.setTable_tables_self]
  rcases ((atCommit debug owner pre s).tables t).accepts_or_refuses debug owner with
    haccepts | ⟨prevOwner, hrefuses⟩
  · have hremoved := remove_eq haccepts key
    simp only [TabularOps.exec, hremoved]
    exact DistinctOn.erase (hdistinct i) key
  · rw [TabularOps.exec_of_refuses hrefuses]
    exact hdistinct i

/-- A row is held after removals only if it was held before. -/
theorem holdsAt_of_removeEach {i : S.Field t} {k : S.Key t} {v : S.Value t}
    (keys : List (S.Key t)) {base : BaseTable S t} (haccepts : base.Accepts debug owner)
    (hholds : (removeEach debug owner keys base).HoldsAt i k v) : base.HoldsAt i k v := by
  induction keys generalizing base with
  | nil => exact hholds
  | cons key keys ih =>
    unfold removeEach at hholds
    rw [List.foldl_cons, remove_eq haccepts key] at hholds
    have hremoved : (base.removed key).HoldsAt i k v := ih haccepts hholds
    exact Table.HoldsAt.of_unregister hremoved

/-- All rows but one can be removed. -/
theorem exists_removeEach_others {base : BaseTable S t} (haccepts : base.Accepts debug owner)
    (hsound : ∀ i, base.SoundAt i) (k : S.Key t) :
    ∃ keys, (removeEach debug owner keys base).data.lookup k = base.data.lookup k ∧
      ∀ k' v, (removeEach debug owner keys base).data.lookup k' = some v → k' = k := by
  obtain ⟨l, hl⟩ := exists_enumerates base.data
  set others := (l.map Prod.fst).filter fun key => decide (key ≠ k)
  obtain ⟨hrows, _, _⟩ := removeEach_eq others haccepts hsound
  refine ⟨others, ?_, fun k' v hrow => ?_⟩
  · rw [hrows, if_neg (by simp [others])]
  · by_contra hne
    rw [hrows] at hrow
    by_cases hmem : k' ∈ others
    · rw [if_pos hmem] at hrow
      cases hrow
    · rw [if_neg hmem] at hrow
      have hkey : k' ∈ l.map Prod.fst := (hl.mem_keys_iff k').mpr ⟨v, hrow⟩
      exact hmem (List.mem_filter.mpr ⟨hkey, decide_eq_true hne⟩)

/-- The indexes find a row if they find it once all other rows have been removed. -/
theorem findsAt_of_removeEach {base : BaseTable S t} (haccepts : base.Accepts debug owner)
    (hsound : ∀ i, base.SoundAt i)
    (hfinds : ∀ keys, (∀ i, (removeEach debug owner keys base).DistinctAt i) →
      ∀ i k, (removeEach debug owner keys base).FindsAt i k) (i : S.Field t) (k : S.Key t) :
    base.FindsAt i k := by
  intro v hrow
  obtain ⟨others, hkept, honly⟩ := exists_removeEach_others haccepts hsound k
  have hdistinct : ∀ i, (removeEach debug owner others base).DistinctAt i :=
    fun i k₁ v₁ k₂ v₂ h₁ h₂ _ => (honly k₁ v₁ h₁).trans (honly k₂ v₂ h₂).symm
  have hholds : (removeEach debug owner others base).HoldsAt i k v :=
    FindsRow.holdsRow (hfinds others hdistinct i k) (hdistinct i) (hkept.trans hrow)
  exact (holdsAt_of_removeEach others haccepts hholds).entry

end

/-- **Closures that unwind.** From sound indexes, let the closure of a call on table `t`
unwind in a transaction. However the transaction goes on, as long as later calls that
unwind do so without harm, the indexes stay sound, and if the later calls do not make
distinct rows collide, every row is found whenever the rows are distinct: this holds if and
only if the call has unwound without harm. -/
theorem unwinding_keeps_indexes_iff (debug : Bool) (owner : Owner) {s : Storage S G}
    (hs : s.Sound) {call : StoreCall S G ρ} (hcall : call.OnTable t)
    (hunwinds : (call.exec debug owner s).1 = .error .closure) :
    let s' := (call.exec debug owner s).2
    (∀ rest : List (StoreCall S G ρ), HarmlessCalls debug owner s' rest →
      (∀ i, ((atCommit debug owner rest s').tables t).SoundAt i) ∧
        (KeepsDistinct debug owner s' t rest →
          (∀ i, ((atCommit debug owner rest s').tables t).DistinctAt i) →
            ∀ i k, ((atCommit debug owner rest s').tables t).FindsAt i k)) ↔
      call.UnwindsHarmlessly s := by
  intro s'
  rw [← StoreCall.unwind_exact_iff hs hcall hunwinds]
  constructor
  · intro hgoes
    have hsound : ∀ i, (s'.tables t).SoundAt i :=
      (hgoes [] (harmlessCalls_removals (t := t) [] s')).1
    have haccepts : (s'.tables t).Accepts debug owner :=
      StoreCall.accepts_exec (StoreCall.accepts_of_unwind hcall hunwinds) call
    intro i
    refine SoundIndex.exact (hsound i) (findsAt_of_removeEach haccepts hsound ?_ i)
    intro keys hdistinct
    have hremovals := (hgoes (removals t keys) (harmlessCalls_removals keys s')).2
      (keepsDistinct_removals keys s')
    rw [atCommit_removals] at hremovals
    exact hremovals hdistinct
  · intro hexact rest hrest
    have hdirect : ¬ call.WritesIndexTable := by
      cases call with
      | indexTable t' i c => exact hcall.elim
      | _ => exact not_false
    have hharmless : call.Harmless debug owner s :=
      ⟨hdirect, fun _ => (StoreCall.unwind_exact_iff hs hcall hunwinds).mp hexact⟩
    have hs' : s'.Sound := hharmless.exec_sound hs
    refine ⟨hrest.sound hs' rest (List.prefix_refl rest) t, fun hkeeps _ i k => ?_⟩
    exact (hrest.exactAt hs' hkeeps hexact rest (List.prefix_refl rest) i).findsRow k

/-- A closure that unwinds at once. -/
def unwindOnRow : EachMutFn (people.Key People) (people.Value People) Unit :=
  fun _ _ person => (person, none)

/-- A loop over the people with that closure. -/
noncomputable def unwindInLoop : StoreCall people noSingletons Unit :=
  .table People (.forEachMut (.presenting twoRows_enumerates) .arbitrary unwindOnRow ())

/-- The loop is cut short in a closure. -/
theorem unwindInLoop_unwinds :
    (unwindInLoop.exec true "owner" peopleStorage).1 = .error .closure := by
  have haccepts : (peopleStorage.tables People).Accepts true "owner" :=
    fun _ howner _ => (Option.some.inj howner).symm
  have hloop : TabularOpsMut.forEachLoop unwindOnRow
      ((IterOrder.presenting twoRows_enumerates).list (peopleStorage.tables People).data) ()
      (peopleStorage.tables People).data =
        (none, (peopleStorage.tables People).data.insert (2 : UInt32)
          (People.person "c@example.com" [99])) := by
    rw [IterOrder.presenting_list]
    rfl
  exact congrArg Prod.fst (TabularOpsMut.forEachMut_of_unwind haccepts hloop)

/-- The closure has kept the fields of its row. -/
theorem unwindInLoop_harmless : unwindInLoop.UnwindsHarmlessly peopleStorage := by
  refine ⟨fun w hw i => ?_, fun i k => (peopleStorage_exact i).findsRow k⟩
  simp only [IterOrder.presenting_list] at hw
  rw [List.mem_singleton.mp hw]
  rfl

/-- The people stay found, whatever the transaction does after the loop. -/
theorem unwindInLoop_keeps_indexes :
    let s' := (unwindInLoop.exec true "owner" peopleStorage).2
    ∀ rest : List (StoreCall people noSingletons Unit), HarmlessCalls true "owner" s' rest →
      (∀ i, ((atCommit true "owner" rest s').tables People).SoundAt i) ∧
        (KeepsDistinct true "owner" s' People rest →
          (∀ i, ((atCommit true "owner" rest s').tables People).DistinctAt i) →
            ∀ i k, ((atCommit true "owner" rest s').tables People).FindsAt i k) :=
  (unwinding_keeps_indexes_iff true "owner"
    (sound_stateAfter peopleRun_maintained Storage.new_sound)
    (show unwindInLoop.OnTable People from rfl) unwindInLoop_unwinds).mpr unwindInLoop_harmless

/-- Mutable access to the first person with a closure that unwinds at once. -/
def unwindAtOnce : StoreCall people noSingletons Unit :=
  .table People (.mutate (1 : UInt32) fun person => (person, none))

/-- **A row can get lost.** After a closure of `mutate` has unwound, its row is not found
through an index any more, although it is as it was and the rows are distinct. -/
theorem unwound_row_is_lost :
    ¬ ∀ (commands : List (Command people noSingletons Unit)),
      (∀ r ∈ requests commands, r.Maintained) →
      let s := stateAfter (Request.exec true) (requests commands) Storage.new
      (∀ t, (s.tables t).Coherent) → ∀ (t : people.Name) (owner : Owner)
        (call : StoreCall people noSingletons Unit), call.OnTable t →
        (call.exec true owner s).1 = .error .closure →
        ((call.exec true owner s).2.tables t).Coherent := by
  intro hclaim
  have hcoherent := hclaim peopleRun peopleRun_maintained
    (fun _ => Table.coherent_of_exact peopleStorage_exact) People "owner" unwindAtOnce rfl rfl
  have hdistinct : ∀ i ∈ people.fields People,
      ((unwindAtOnce.exec true "owner" peopleStorage).2.tables People).DistinctAt i := by decide
  have hmissed : (((unwindAtOnce.exec true "owner" peopleStorage).2.tables People).indexes.get
      People.email).data.lookup "a@example.com" = none := by decide
  have hfound := hcoherent.finds (fun i => hdistinct i (people.mem_fields People i)) People.email
    (1 : UInt32) (People.person "a@example.com" [97]) rfl
  cases hmissed.symm.trans hfound

end TsKvstore
