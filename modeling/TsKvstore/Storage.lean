import TsKvstore.Lib.FiniteMap

/-!
# Tables and their owners

A table is a hash map with an owner and with the indexes kept for it. Three
helpers decide what a caller may do: `trySetOwner` fails on a table that has an
owner, `assertOrSetOwner` sets a missing owner and otherwise compares, and
`assertOwner` only compares. The comparisons are debug assertions, so they are
present only where `debug` is true.
-/

namespace TsKvstore

open FiniteMaps

/-- A token naming the owner of a singleton or a table. -/
abbrev Owner := String

/-- The errors a store returns. -/
inductive Error where
  /-- The table was already initialized, by the given owner. -/
  | alreadyInit (owner : Owner)
  deriving DecidableEq, Repr

/-- The ways in which a call unwinds. -/
inductive Panic where
  /-- A failed assertion with its message. -/
  | assertion (message : String)
  /-- `unwrap` of the failed downcast of a singleton value. -/
  | downcast
  /-- An `unreachable!` arm. -/
  | unreachable
  /-- `unwrap` of a guard on a poisoned lock. -/
  | poisoned
  /-- The closure given by the caller. -/
  | closure
  deriving DecidableEq, Repr

/-- The message of the ownership assertions. -/
def ownershipMessage (prevOwner owner : Owner) : String :=
  s!"Ownership violation: expected {prevOwner}, found {owner}"

/-- The panic of a failed ownership assertion. -/
def ownershipViolation (prevOwner owner : Owner) : Panic :=
  .assertion (ownershipMessage prevOwner owner)

/-- `debug_assert_eq!` of the recorded owner and the caller's. It is compiled
out of builds without debug assertions. -/
def debugAssertOwner (debug : Bool) (prevOwner owner : Owner) : Except Panic Unit :=
  if debug = true ∧ prevOwner ≠ owner then .error (ownershipViolation prevOwner owner) else .ok ()

/-- Tabular data in the store. -/
structure Table (K V I : Type) where
  /-- Owner of the table. -/
  owner : Option Owner
  /-- The rows. -/
  data : FiniteMap K V
  /-- All indexes of this table, `Unit` if it has none or is itself an index. -/
  indexes : I

namespace Table

variable {K V I : Type}

/-- The default table has no owner, no rows and default indexes. -/
instance [Inhabited I] : Inhabited (Table K V I) where
  default := { owner := none, data := ∅, indexes := default }

/-- Set the owner of a table that has none. -/
def trySetOwner (table : Table K V I) (owner : Owner) : Except Error Unit × Table K V I :=
  match table.owner with
  | some owner => (.error (.alreadyInit owner), table)
  | none => (.ok (), { table with owner := some owner })

/-- Compare the owner, or set it if there is none. -/
def assertOrSetOwner (debug : Bool) (table : Table K V I) (owner : Owner) :
    Except Panic Unit × Table K V I :=
  match table.owner with
  | some prevOwner => (debugAssertOwner debug prevOwner owner, table)
  | none => (.ok (), { table with owner := some owner })

/-- Compare the owner, if there is one. -/
def assertOwner (debug : Bool) (table : Table K V I) (owner : Owner) : Except Panic Unit :=
  match table.owner with
  | some prevOwner => debugAssertOwner debug prevOwner owner
  | none => .ok ()

/-- The caller passes the ownership comparisons of the table. -/
def Accepts (debug : Bool) (table : Table K V I) (owner : Owner) : Prop :=
  ∀ prevOwner, table.owner = some prevOwner → debug = true → prevOwner = owner

/-- The caller fails an ownership comparison against the recorded owner. -/
def Refuses (debug : Bool) (table : Table K V I) (prevOwner owner : Owner) : Prop :=
  debug = true ∧ table.owner = some prevOwner ∧ prevOwner ≠ owner

/-- A caller is accepted, or refused because of the recorded owner. -/
theorem accepts_or_refuses (debug : Bool) (table : Table K V I) (owner : Owner) :
    table.Accepts debug owner ∨ ∃ prevOwner, table.Refuses debug prevOwner owner := by
  by_cases h : table.Accepts debug owner
  · exact Or.inl h
  · unfold Accepts at h
    push Not at h
    obtain ⟨prevOwner, howner, hdebug, hne⟩ := h
    exact Or.inr ⟨prevOwner, hdebug, howner, hne⟩

/-- No caller is accepted and refused. -/
theorem Refuses.not_accepts {debug : Bool} {table : Table K V I} {prevOwner owner : Owner}
    (h : table.Refuses debug prevOwner owner) : ¬ table.Accepts debug owner :=
  fun haccept => h.2.2 (haccept prevOwner h.2.1 h.1)

/-- `assertOwner` passes an accepted caller. -/
theorem Accepts.assertOwner {debug : Bool} {table : Table K V I} {owner : Owner}
    (h : table.Accepts debug owner) : table.assertOwner debug owner = .ok () := by
  unfold Table.assertOwner debugAssertOwner
  cases howner : table.owner with
  | none => rfl
  | some prevOwner =>
    exact if_neg fun hfail => hfail.2 (h prevOwner howner hfail.1)

/-- `assertOwner` panics on a refused caller. -/
theorem Refuses.assertOwner {debug : Bool} {table : Table K V I} {prevOwner owner : Owner}
    (h : table.Refuses debug prevOwner owner) :
    table.assertOwner debug owner = .error (ownershipViolation prevOwner owner) := by
  obtain ⟨hdebug, howner, hne⟩ := h
  unfold Table.assertOwner debugAssertOwner
  rw [howner]
  exact if_pos ⟨hdebug, hne⟩

/-- The table after a caller has passed `assertOrSetOwner`. -/
def claimed (table : Table K V I) (owner : Owner) : Table K V I :=
  { table with owner := some (table.owner.getD owner) }

/-- `assertOrSetOwner` passes an accepted caller, who owns the table afterwards
unless another owner was there already. -/
theorem Accepts.assertOrSetOwner {debug : Bool} {table : Table K V I} {owner : Owner}
    (h : table.Accepts debug owner) :
    table.assertOrSetOwner debug owner = (.ok (), table.claimed owner) := by
  unfold Table.assertOrSetOwner debugAssertOwner claimed
  cases howner : table.owner with
  | none => rfl
  | some prevOwner =>
    have hpass : ¬ (debug = true ∧ prevOwner ≠ owner) :=
      fun hfail => hfail.2 (h prevOwner howner hfail.1)
    dsimp only
    rw [if_neg hpass, Option.getD_some, ← howner]

/-- `assertOrSetOwner` panics on a refused caller and leaves the table as it
was. -/
theorem Refuses.assertOrSetOwner {debug : Bool} {table : Table K V I} {prevOwner owner : Owner}
    (h : table.Refuses debug prevOwner owner) :
    table.assertOrSetOwner debug owner =
      (.error (ownershipViolation prevOwner owner), table) := by
  obtain ⟨hdebug, howner, hne⟩ := h
  unfold Table.assertOrSetOwner debugAssertOwner
  rw [howner]
  dsimp only
  rw [if_pos ⟨hdebug, hne⟩]

end Table

end TsKvstore
