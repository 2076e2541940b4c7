import TsKvstore.OperationSpecs

/-!
# The reference model of an indexed table

What an indexed table is for: one finite map from keys to values, which can also
be accessed as if its keys were the values of an indexed field. The reference
model has no indexes. It scans its rows in some order, and an operation acts on
the row that the scan finds under the key of the handle.
-/

namespace TsKvstore

open FiniteMaps

/-- A map of rows with an owner. -/
structure RefTable (K V : Type) where
  /-- The owner of all rows. -/
  owner : Option Owner
  /-- The rows. -/
  rows : FiniteMap K V

/-- How a handle presents rows. -/
structure RefHandle (Q K V : Type) where
  /-- The key under which a row is presented. -/
  keyOf : K → V → Q
  /-- A mutable access to a missing row is not compared with the owner. -/
  searchesFirst : Bool

variable {S : Schema} {t : S.Name}

/-- The handle of a table presents a row under its key. -/
def baseHandle (K V : Type) : RefHandle K K V where
  keyOf k _ := k
  searchesFirst := false

/-- The handle of an index presents a row under its indexed field. -/
def indexHandle (i : S.Field t) : RefHandle (S.FieldTy t i) (S.Key t) (S.Value t) where
  keyOf _ v := S.field i v
  searchesFirst := true

namespace RefTable

variable {Q W K V ρ : Type} [DecidableEq Q] [DecidableEq K]

/-- The row presented under a key, by a linear search. -/
def find (handle : RefHandle Q K V) (l : List (K × V)) (q : Q) : Option (K × V) :=
  l.find? fun kv => handle.keyOf kv.1 kv.2 = q

/-- A write, which an ownership violation prevents. -/
def guarded {α : Type} (debug : Bool) (ref : RefTable K V) (owner : Owner)
    (write : Except Panic α × RefTable K V) : Except Panic α × RefTable K V :=
  match ref.owner with
  | some prevOwner =>
    if debug = true ∧ prevOwner ≠ owner then (.error (ownershipViolation prevOwner owner), ref)
    else write
  | none => write

/-- Call `f` on the rows of `l`, each under the key it is presented with before
any call, and write what it leaves. -/
def forEachLoop (handle : RefHandle Q K V) (f : EachMutFn Q V ρ) :
    List (K × V) → ρ → FiniteMap K V → Option ρ × FiniteMap K V
  | [], s, rows => (some s, rows)
  | (k, v) :: l, s, rows =>
    match f s (handle.keyOf k v) v with
    | (v, none) => (none, rows.insert k v)
    | (v, some s) => forEachLoop handle f l s (rows.insert k v)

/-- The outcome of the loop. -/
def loopOutcome (ref : RefTable K V) : Option ρ × FiniteMap K V → Except Panic ρ × RefTable K V
  | (none, rows) => (.error .closure, { ref with rows })
  | (some s, rows) => (.ok s, { ref with rows })

/-- Call `f` on all rows with mutable values. -/
def forEachMut (handle : RefHandle Q K V) (l : List (K × V)) (debug : Bool) (owner : Owner)
    (ref : RefTable K V) (f : EachMutFn Q V ρ) (s : ρ) : Except Panic ρ × RefTable K V :=
  guarded debug ref owner (loopOutcome ref (forEachLoop handle f l s ref.rows))

/-- A call on the reference table, whose rows are scanned in the order `l`. -/
def exec (handle : RefHandle Q K V) (l : List (K × V)) (debug : Bool) (owner : Owner)
    (ref : RefTable K V) : (c : Call Q W K V ρ) → Except Panic c.Ret × RefTable K V
  | .init =>
    match ref.owner with
    | some prevOwner => (.ok (.error (.alreadyInit prevOwner)), ref)
    | none => (.ok (.ok ()), { ref with owner := some owner })
  | .clear => guarded debug ref owner (.ok (), ⟨ref.owner.or (some owner), ∅⟩)
  | .len => (.ok ref.rows.size, ref)
  | .isEmpty => (.ok (ref.rows.size == 0), ref)
  | .get q => (.ok ((find handle l q).map Prod.snd), ref)
  | .with' q f => (.ok ((find handle l q).map fun kv => f kv.2), ref)
  | .insert key value =>
    guarded debug ref owner
      (.ok (ref.rows.lookup key), ⟨ref.owner.or (some owner), ref.rows.insert key value⟩)
  | .mutate q f =>
    match find handle l q with
    | some (k, v) =>
      guarded debug ref owner
        (closureResult (f v).2, { ref with rows := ref.rows.insert k (f v).1 })
    | none =>
      if handle.searchesFirst then (.ok none, ref) else guarded debug ref owner (.ok none, ref)
  | .remove q =>
    match find handle l q with
    | some (k, v) => guarded debug ref owner (.ok (some v), { ref with rows := ref.rows.erase k })
    | none => guarded debug ref owner (.ok none, ref)
  | .iterCloned _ => (.ok (l.map fun kv => (handle.keyOf kv.1 kv.2, kv.2)), ref)
  | .iterKeysCloned _ => (.ok (l.map fun kv => handle.keyOf kv.1 kv.2), ref)
  | .iterValuesCloned _ => (.ok (l.map Prod.snd), ref)
  | .forEach _ f s => (.ok (l.foldl (fun s kv => f s (handle.keyOf kv.1 kv.2) kv.2) s), ref)
  | .forEachMut _ _ f s => forEachMut handle l debug owner ref f s

/-! ## The order of a scan does not matter to local closures -/

/-- What the closure leaves in a row depends only on its arguments for that
row, and it never unwinds. -/
def RowLocal (f : EachMutFn Q V ρ) : Prop :=
  (∀ s s' q v, (f s q v).1 = (f s' q v).1) ∧ ∀ s q v, (f s q v).2 ≠ none

omit [DecidableEq Q] in
/-- The loop leaves the rows alone that are not in the list. -/
theorem lookup_forEachLoop_of_notMem (handle : RefHandle Q K V) (f : EachMutFn Q V ρ)
    {l : List (K × V)} {k : K} (hk : k ∉ l.map Prod.fst) (s : ρ) (rows : FiniteMap K V) :
    (forEachLoop handle f l s rows).2.lookup k = rows.lookup k := by
  induction l generalizing s rows with
  | nil => rfl
  | cons kv l ih =>
    obtain ⟨k', v'⟩ := kv
    rw [List.map_cons, List.mem_cons, not_or] at hk
    obtain ⟨hne, hk⟩ := hk
    rw [forEachLoop]
    rcases f s (handle.keyOf k' v') v' with ⟨v, _ | s'⟩
    · exact Finmap.lookup_insert_of_ne rows hne
    · exact (ih hk s' _).trans (Finmap.lookup_insert_of_ne rows hne)

omit [DecidableEq Q] in
/-- A loop that returns leaves in the rows of the list what the closure leaves in
them, if that depends only on its arguments for the row. -/
theorem lookup_forEachLoop_of_mem {handle : RefHandle Q K V} {f : EachMutFn Q V ρ}
    {left : Q → V → V} (hf : ∀ s q v, (f s q v).1 = left q v) {l : List (K × V)}
    (hl : (l.map Prod.fst).Nodup) {s s' : ρ} {rows rows' : FiniteMap K V}
    (hloop : forEachLoop handle f l s rows = (some s', rows')) {k : K} {v : V} (hv : (k, v) ∈ l) :
    rows'.lookup k = some (left (handle.keyOf k v) v) := by
  induction l generalizing s rows with
  | nil => exact absurd hv List.not_mem_nil
  | cons kv l ih =>
    obtain ⟨k', v'⟩ := kv
    obtain ⟨hk', hl⟩ := List.nodup_cons.mp hl
    have hleft := hf s (handle.keyOf k' v') v'
    rw [forEachLoop] at hloop
    rcases hcall : f s (handle.keyOf k' v') v' with ⟨w, _ | s''⟩
    · rw [hcall] at hloop
      cases hloop
    · rw [hcall] at hloop hleft
      dsimp only at hloop hleft
      rcases List.mem_cons.mp hv with heq | hv
      · cases heq
        have hrest := lookup_forEachLoop_of_notMem handle f hk' s'' (rows.insert k w)
        rw [hloop] at hrest
        exact hrest.trans ((Finmap.lookup_insert rows).trans (congrArg some hleft))
      · exact ih hl hloop hv

omit [DecidableEq Q] in
/-- A loop over all rows that returns leaves in every row what the closure leaves
in it. -/
theorem lookup_forEachLoop {handle : RefHandle Q K V} {f : EachMutFn Q V ρ} {left : Q → V → V}
    (hf : ∀ s q v, (f s q v).1 = left q v) {l : List (K × V)} {rows rows' : FiniteMap K V}
    (hl : Enumerates l rows) {s s' : ρ} (hloop : forEachLoop handle f l s rows = (some s', rows'))
    (k : K) :
    rows'.lookup k = (rows.lookup k).map fun v => left (handle.keyOf k v) v := by
  cases hrow : rows.lookup k with
  | none =>
    have hk : k ∉ l.map Prod.fst := by
      rw [hl.mem_keys_iff]
      rintro ⟨v, hv⟩
      rw [hrow] at hv
      cases hv
    have hkeep := lookup_forEachLoop_of_notMem handle f hk s rows
    rw [hloop] at hkeep
    exact hkeep.trans hrow
  | some v => exact lookup_forEachLoop_of_mem hf hl.nodup hloop ((hl.mem_iff k v).mpr hrow)

omit [DecidableEq Q] in
/-- A local closure is called for every row. -/
theorem forEachLoop_returns (handle : RefHandle Q K V) {f : EachMutFn Q V ρ} (hf : RowLocal f)
    (l : List (K × V)) (s : ρ) (rows : FiniteMap K V) :
    ∃ s' rows', forEachLoop handle f l s rows = (some s', rows') := by
  induction l generalizing s rows with
  | nil => exact ⟨s, rows, rfl⟩
  | cons kv l ih =>
    obtain ⟨k, v⟩ := kv
    obtain ⟨s', hs'⟩ := Option.ne_none_iff_exists'.mp (hf.2 s (handle.keyOf k v) v)
    rw [forEachLoop, ← Prod.mk.eta (p := f s (handle.keyOf k v) v), hs']
    exact ih s' _

omit [DecidableEq Q] in
/-- The rows after `for_each_mut` with a local closure do not depend on the
order of the scan. -/
theorem forEachLoop_order {handle : RefHandle Q K V} {f : EachMutFn Q V ρ} (hf : RowLocal f)
    {rows : FiniteMap K V} {l l' : List (K × V)} (hl : Enumerates l rows)
    (hl' : Enumerates l' rows) (s : ρ) :
    (forEachLoop handle f l s rows).2 = (forEachLoop handle f l' s rows).2 := by
  have hleft : ∀ s' q v, (f s' q v).1 = (f s q v).1 := fun s' => hf.1 s' s
  obtain ⟨s₁, rows₁, hloop₁⟩ := forEachLoop_returns handle hf l s rows
  obtain ⟨s₂, rows₂, hloop₂⟩ := forEachLoop_returns handle hf l' s rows
  rw [hloop₁, hloop₂]
  apply Finmap.ext_lookup
  intro k
  rw [lookup_forEachLoop hleft hl hloop₁, lookup_forEachLoop hleft hl' hloop₂]

/-- No two rows are presented under the same key. -/
def Presents (handle : RefHandle Q K V) (rows : FiniteMap K V) : Prop :=
  ∀ k v k' v', rows.lookup k = some v → rows.lookup k' = some v' →
    handle.keyOf k v = handle.keyOf k' v' → k = k'

/-- The row that a search finds does not depend on the order of the scan. -/
theorem find_order {handle : RefHandle Q K V} {rows : FiniteMap K V}
    (hkeys : Presents handle rows) {l l' : List (K × V)} (hl : Enumerates l rows)
    (hl' : Enumerates l' rows) (q : Q) : find handle l q = find handle l' q := by
  unfold find
  by_cases hrow : ∃ k v, rows.lookup k = some v ∧ handle.keyOf k v = q
  · obtain ⟨k, v, hlookup, hkey⟩ := hrow
    have hp : decide (handle.keyOf k v = q) = true := decide_eq_true hkey
    have hunique : ∀ k' v', rows.lookup k' = some v' →
        decide (handle.keyOf k' v' = q) = true → k' = k :=
      fun k' v' hlookup' hkey' =>
        hkeys k' v' k v hlookup' hlookup ((of_decide_eq_true hkey').trans hkey.symm)
    rw [hl.find?_eq_some hlookup hp hunique, hl'.find?_eq_some hlookup hp hunique]
  · have hnone : ∀ k v, rows.lookup k = some v → ¬ decide (handle.keyOf k v = q) = true :=
      fun k v hlookup hkey => hrow ⟨k, v, hlookup, of_decide_eq_true hkey⟩
    rw [hl.find?_eq_none hnone, hl'.find?_eq_none hnone]

/-- The closures of the call are local. -/
def LocalCall : Call Q W K V ρ → Prop
  | .forEachMut _ _ f _ => RowLocal f
  | _ => True

/-- The reference table after a call does not depend on the order in which the
rows were scanned. -/
theorem exec_order {handle : RefHandle Q K V} {debug : Bool} {owner : Owner} {ref : RefTable K V}
    (hkeys : Presents handle ref.rows) {l l' : List (K × V)} (hl : Enumerates l ref.rows)
    (hl' : Enumerates l' ref.rows) {c : Call Q W K V ρ} (hc : LocalCall c) :
    (exec handle l debug owner ref c).2 = (exec handle l' debug owner ref c).2 := by
  cases c with
  | mutate q f =>
    simp only [exec, find_order hkeys hl hl' q]
  | remove q =>
    simp only [exec, find_order hkeys hl hl' q]
  | forEachMut order rebuild f s =>
    change (forEachMut handle l debug owner ref f s).2 =
      (forEachMut handle l' debug owner ref f s).2
    obtain ⟨s₁, rows₁, hloop₁⟩ := forEachLoop_returns handle hc l s ref.rows
    obtain ⟨s₂, rows₂, hloop₂⟩ := forEachLoop_returns handle hc l' s ref.rows
    have hrows : (forEachLoop handle f l s ref.rows).2 = (forEachLoop handle f l' s ref.rows).2 :=
      forEachLoop_order hc hl hl' s
    rw [hloop₁, hloop₂] at hrows
    obtain rfl : rows₁ = rows₂ := hrows
    unfold forEachMut
    rw [hloop₁, hloop₂]
    unfold guarded loopOutcome
    cases ref.owner with
    | none => rfl
    | some prevOwner =>
      dsimp only
      split <;> rfl
  | _ => rfl

end RefTable

end TsKvstore
