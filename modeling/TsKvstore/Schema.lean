import TsKvstore.Lib.InverseIndex
import TsKvstore.Storage

/-!
# Schemas and index storage

`tables!` declares tables, and for each table a list of indexed fields. The
declaration generates one storage struct for the indexes of a table, with one
index table for each field, and the maintenance operations on it. The macro
repeats one statement for each declared field, which `forFields` models as a
loop over the fields in the order of the declaration.
-/

namespace TsKvstore

open FiniteMaps

/-- Operations on the indexes of a table with keys `K` and values `V`. -/
class IndexStorage (K V I : Type) extends Inhabited I where
  /-- Clear every index. -/
  clear : I → I
  /-- A row has been inserted. -/
  onInsert : I → K → V → I
  /-- A row has been removed. -/
  onRemove : I → V → I
  /-- Enter the rows, in the order in which they are presented. -/
  build : I → List (K × V) → I

/-- A table without indexes has nothing to maintain. -/
instance (K V : Type) : IndexStorage K V Unit where
  clear _ := ()
  onInsert _ _ _ := ()
  onRemove _ _ := ()
  build _ _ := ()

/-- The tables of a store as declared with `tables!`. -/
structure Schema where
  /-- The names of the tables. -/
  Name : Type
  /-- The key type of a table. -/
  Key : Name → Type
  /-- The value type of a table. -/
  Value : Name → Type
  /-- The indexed fields of a table. -/
  Field : Name → Type
  /-- The type of an indexed field. -/
  FieldTy : (t : Name) → Field t → Type
  /-- The projection of a value to an indexed field. -/
  field : {t : Name} → (i : Field t) → Value t → FieldTy t i
  /-- The `index(..)` clauses of a table, in the order of the declaration. -/
  fields : (t : Name) → List (Field t)
  /-- No field is declared twice. -/
  fields_nodup : ∀ t, (fields t).Nodup
  /-- Every field is declared. -/
  mem_fields : ∀ t i, i ∈ fields t
  [decEqName : DecidableEq Name]
  [decEqKey : ∀ t, DecidableEq (Key t)]
  [decEqField : ∀ t, DecidableEq (Field t)]
  [decEqFieldTy : ∀ t i, DecidableEq (FieldTy t i)]

attribute [instance] Schema.decEqName Schema.decEqKey Schema.decEqField Schema.decEqFieldTy

variable {S : Schema}

/-- The table in which the index of field `i` of table `t` is stored. -/
abbrev IndexTable (S : Schema) (t : S.Name) (i : S.Field t) : Type :=
  Table (S.FieldTy t i) (S.Key t) Unit

/-- The generated storage for the indexes of a table. -/
structure Indexes (S : Schema) (t : S.Name) where
  /-- The index table of a field. -/
  get : (i : S.Field t) → IndexTable S t i

namespace Indexes

variable {t : S.Name}

/-- The indexes with the table of one field replaced. -/
def set (ix : Indexes S t) (i : S.Field t) (table : IndexTable S t i) : Indexes S t :=
  ⟨Function.update ix.get i table⟩

/-- An index that has been set is read back. -/
@[simp] theorem get_set_self (ix : Indexes S t) (i : S.Field t) (table : IndexTable S t i) :
    (ix.set i table).get i = table := by simp [set]

/-- Setting an index keeps the others. -/
@[simp] theorem get_set_of_ne (ix : Indexes S t) {i j : S.Field t} (table : IndexTable S t i)
    (h : j ≠ i) : (ix.set i table).get j = ix.get j := by simp [set, h]

/-- The indexes of a table are determined by the single ones. -/
@[ext] theorem ext {ix ix' : Indexes S t} (h : ∀ i, ix.get i = ix'.get i) : ix = ix' := by
  cases ix
  cases ix'
  congr
  funext i
  exact h i

/-- Putting a table back changes nothing. -/
theorem set_get (ix : Indexes S t) (i : S.Field t) : ix.set i (ix.get i) = ix := by
  ext1 j
  by_cases hj : j = i
  · subst hj
    exact get_set_self ix j (ix.get j)
  · exact get_set_of_ne ix (ix.get i) hj

/-- One statement of the macro, repeated for each declared field. -/
def forFields (ix : Indexes S t)
    (stmt : (i : S.Field t) → FiniteMap (S.FieldTy t i) (S.Key t) →
      FiniteMap (S.FieldTy t i) (S.Key t)) : Indexes S t :=
  (S.fields t).foldl
    (fun ix i => ix.set i { ix.get i with data := stmt i (ix.get i).data }) ix

private theorem get_foldl_set (ix : Indexes S t) (l : List (S.Field t)) (hl : l.Nodup)
    (stmt : (i : S.Field t) → FiniteMap (S.FieldTy t i) (S.Key t) →
      FiniteMap (S.FieldTy t i) (S.Key t)) (i : S.Field t) :
    (l.foldl (fun ix i => ix.set i { ix.get i with data := stmt i (ix.get i).data }) ix).get i =
      if i ∈ l then { ix.get i with data := stmt i (ix.get i).data } else ix.get i := by
  induction l generalizing ix with
  | nil => rfl
  | cons j l ih =>
    obtain ⟨hj, hl⟩ := List.nodup_cons.mp hl
    rw [List.foldl_cons, ih _ hl]
    by_cases hij : i = j
    · subst hij
      simp [hj]
    · simp [hij]

/-- The statements of a repetition work on different tables, so each index
table is changed by its own statement only. -/
theorem get_forFields (ix : Indexes S t)
    (stmt : (i : S.Field t) → FiniteMap (S.FieldTy t i) (S.Key t) →
      FiniteMap (S.FieldTy t i) (S.Key t)) (i : S.Field t) :
    (ix.forFields stmt).get i = { ix.get i with data := stmt i (ix.get i).data } := by
  unfold forFields
  rw [get_foldl_set ix (S.fields t) (S.fields_nodup t), if_pos (S.mem_fields t i)]

/-- The generated index maintenance. -/
instance : IndexStorage (S.Key t) (S.Value t) (Indexes S t) where
  default := ⟨fun _ => default⟩
  clear ix := ix.forFields fun _ _ => ∅
  onInsert ix key value := ix.forFields fun i data => data.insert (S.field i value) key
  onRemove ix value := ix.forFields fun i data => data.erase (S.field i value)
  build ix kvs := kvs.foldl
    (fun ix kv => ix.forFields fun i data => data.insert (S.field i kv.2) kv.1) ix

/-- Each index after `clear`. -/
@[simp] theorem get_clear (ix : Indexes S t) (i : S.Field t) :
    (IndexStorage.clear (S.Key t) (S.Value t) ix).get i = { ix.get i with data := ∅ } :=
  get_forFields ix _ i

/-- Each index after `on_insert`. -/
@[simp] theorem get_onInsert (ix : Indexes S t) (key : S.Key t) (value : S.Value t)
    (i : S.Field t) :
    (IndexStorage.onInsert ix key value).get i =
      { ix.get i with data := (ix.get i).data.insert (S.field i value) key } :=
  get_forFields ix _ i

/-- Each index after `on_remove`. -/
@[simp] theorem get_onRemove (ix : Indexes S t) (value : S.Value t) (i : S.Field t) :
    (IndexStorage.onRemove (S.Key t) ix value).get i =
      { ix.get i with data := (ix.get i).data.erase (S.field i value) } :=
  get_forFields ix _ i

/-- `build` enters the presented rows into each index. -/
@[simp] theorem get_build (ix : Indexes S t) (kvs : List (S.Key t × S.Value t)) (i : S.Field t) :
    (IndexStorage.build ix kvs).get i =
      { ix.get i with data := rebuildIndex (S.field i) kvs (ix.get i).data } := by
  induction kvs generalizing ix with
  | nil => rfl
  | cons kv kvs ih =>
    have hstep : IndexStorage.build ix (kv :: kvs) =
        IndexStorage.build (IndexStorage.onInsert ix kv.1 kv.2) kvs := rfl
    rw [hstep, ih, get_onInsert]
    rfl

end Indexes

/-- The rows and the owner of a declared table, with its indexes. -/
abbrev BaseTable (S : Schema) (t : S.Name) : Type :=
  Table (S.Key t) (S.Value t) (Indexes S t)

/-! ## A declared schema -/

/-- The rows of a table with two indexes. -/
structure Person where
  /-- The first indexed field. -/
  email : String
  /-- The second indexed field. -/
  username : List UInt8
  deriving DecidableEq

/-- The indexed fields of `Person`. -/
inductive PersonField where
  | email
  | username
  deriving DecidableEq

/-- `People(u32 => Person; index(email: String); index(username: Vec<u8>))`. -/
def people : Schema where
  Name := Unit
  Key _ := UInt32
  Value _ := Person
  Field _ := PersonField
  FieldTy
    | _, .email => String
    | _, .username => List UInt8
  field
    | .email, person => person.email
    | .username, person => person.username
  fields _ := [.email, .username]
  fields_nodup _ := by decide
  mem_fields _ i := by cases i <;> decide
  decEqName := inferInstance
  decEqKey _ := inferInstanceAs (DecidableEq UInt32)
  decEqField _ := inferInstanceAs (DecidableEq PersonField)
  decEqFieldTy
    | _, .email => inferInstanceAs (DecidableEq String)
    | _, .username => inferInstanceAs (DecidableEq (List UInt8))

/-- The table of `people`. -/
def People : people.Name := ()

namespace People

/-- The index on the first field. -/
def email : people.Field People := PersonField.email

/-- The index on the second field. -/
def username : people.Field People := PersonField.username

/-- A row. -/
def person (email : String) (username : List UInt8) : people.Value People := ⟨email, username⟩

end People

end TsKvstore
