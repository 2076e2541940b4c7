import TsKvstore.Storage

/-!
# Singletons

All singletons share one map from the type ids of their markers to an owner and
an untyped value. A value is stored inline, in a box, behind an `Arc` or behind
a static reference; the last three are `dyn Any`, which carries the type it was
made from and can be cast back to that type only. The declaration of a marker
fixes how its values are stored and read.
-/

namespace TsKvstore

open FiniteMaps

/-- The storage classes of `singleton!`, with the type of the value. -/
inductive StorageClass (Ty : Type) where
  /-- A `u64`, stored inline. -/
  | u64
  /-- A boxed value. -/
  | box (ty : Ty)
  /-- A value behind an `Arc`. -/
  | arc (ty : Ty)
  /-- A value behind a static reference. -/
  | ref (ty : Ty)

/-- A family of singletons declared with `singleton!`. -/
structure Singletons where
  /-- The types of the stored values. -/
  Ty : Type
  /-- The values of a type. -/
  Val : Ty → Type
  /-- The marker types that the declarations generate. -/
  Marker : Type
  /-- The type ids that the language gives to types. -/
  TypeId : Type
  /-- The type id of a marker. -/
  typeId : Marker → TypeId
  /-- Different types have different ids. -/
  typeId_injective : Function.Injective typeId
  /-- The declared storage class. -/
  storage : Marker → StorageClass Ty
  [decEqTy : DecidableEq Ty]
  [decEqTypeId : DecidableEq TypeId]

attribute [instance] Singletons.decEqTy Singletons.decEqTypeId

variable {G : Singletons} {ρ : Type}

/-- `dyn Any`, a value together with its type. -/
abbrev AnyValue (G : Singletons) : Type := Σ ty : G.Ty, G.Val ty

/-- A shared pointer. Its clones have the same address. -/
structure Shared (α : Type) where
  /-- The address of the allocation. -/
  addr : ℕ
  /-- The value behind the pointer. -/
  val : α

/-- `downcast`, which succeeds on a value of that type only. -/
def AnyValue.downcast (ty : G.Ty) (v : AnyValue G) : Option (G.Val ty) :=
  if h : v.1 = ty then some (h ▸ v.2) else none

/-- `downcast` behind a shared pointer. -/
def Shared.downcast (ty : G.Ty) (v : Shared (AnyValue G)) : Option (Shared (G.Val ty)) :=
  (AnyValue.downcast ty v.val).map fun x => ⟨v.addr, x⟩

/-- `unwrap` of a downcast. -/
def unwrapDowncast {α : Type} : Option α → Except Panic α
  | some a => .ok a
  | none => .error .downcast

/-- Internal storage for singleton values. -/
inductive SinValue (G : Singletons) where
  /-- Tombstone value. -/
  | none
  /-- A single, inline `u64`. -/
  | u64 (v : UInt64)
  /-- A boxed value. -/
  | box (v : AnyValue G)
  /-- A shared reference in the store. -/
  | arc (v : Shared (AnyValue G))
  /-- A static reference in the store. -/
  | ref (v : Shared (AnyValue G))

namespace StorageClass

/-- The type of the value. -/
def Value (G : Singletons) : StorageClass G.Ty → Type
  | u64 => UInt64
  | box ty => G.Val ty
  | arc ty => G.Val ty
  | ref ty => G.Val ty

/-- The type used to initialize and access the value. -/
def ArgValue (G : Singletons) : StorageClass G.Ty → Type
  | u64 => UInt64
  | box ty => G.Val ty
  | arc ty => Shared (G.Val ty)
  | ref ty => Shared (G.Val ty)

/-- The classes for which `MutSingleton` is implemented. -/
def IsMut {Ty : Type} : StorageClass Ty → Prop
  | u64 => True
  | box _ => True
  | arc _ => False
  | ref _ => False

/-- Read a stored value by value. -/
def fromValue : (c : StorageClass G.Ty) → SinValue G → Except Panic (c.ArgValue G)
  | u64, value => match value with
    | .u64 v => .ok v
    | _ => .error .unreachable
  | box ty, value => match value with
    | .box v => unwrapDowncast (AnyValue.downcast ty v)
    | _ => .error .unreachable
  | arc ty, value => match value with
    | .arc v => unwrapDowncast (Shared.downcast ty v)
    | _ => .error .unreachable
  | ref ty, value => match value with
    | .ref v => unwrapDowncast (Shared.downcast ty v)
    | _ => .error .unreachable

/-- Read a stored value by reference. -/
def fromValueRef : (c : StorageClass G.Ty) → SinValue G → Except Panic (c.Value G)
  | u64, value => match value with
    | .u64 v => .ok v
    | _ => .error .unreachable
  | box ty, value => match value with
    | .box v => unwrapDowncast (AnyValue.downcast ty v)
    | _ => .error .unreachable
  | arc ty, value => match value with
    | .arc v => unwrapDowncast (AnyValue.downcast ty v.val)
    | _ => .error .unreachable
  | ref ty, value => match value with
    | .ref v => unwrapDowncast (AnyValue.downcast ty v.val)
    | _ => .error .unreachable

/-- Read a stored value by mutable reference: the value, and the stored value
after a write through the reference. -/
def fromValueMut : (c : StorageClass G.Ty) → c.IsMut → SinValue G →
    Except Panic (c.Value G × (c.Value G → SinValue G))
  | u64, _, value => match value with
    | .u64 v => .ok (v, fun v' => .u64 v')
    | _ => .error .unreachable
  | box ty, _, value => match value with
    | .box v => (unwrapDowncast (AnyValue.downcast ty v)).map fun x => (x, fun x' => .box ⟨ty, x'⟩)
    | _ => .error .unreachable

/-- Read a value stored as an `Arc` by cloning the `Arc`. -/
def fromValueArc (ty : G.Ty) (value : SinValue G) : Except Panic (Shared (G.Val ty)) :=
  match value with
  | .arc v => unwrapDowncast (Shared.downcast ty v)
  | _ => .error .unreachable

/-- The stored form of an argument value. -/
def toValue : (c : StorageClass G.Ty) → c.ArgValue G → SinValue G
  | u64, value => .u64 value
  | box ty, value => .box ⟨ty, value⟩
  | arc ty, value => .arc ⟨value.addr, ⟨ty, value.val⟩⟩
  | ref ty, value => .ref ⟨value.addr, ⟨ty, value.val⟩⟩

end StorageClass

/-- The map that holds all singletons. -/
abbrev SingletonMap (G : Singletons) : Type := FiniteMap G.TypeId (Owner × SinValue G)

namespace SingletonMap

/-- A singleton value by its type key. -/
def getSingletonValue (singletons : SingletonMap G) (key : G.TypeId) : Option (SinValue G) :=
  (singletons.lookup key).map Prod.snd

/-- The owner of a singleton by its type key. -/
def getSingletonOwner (singletons : SingletonMap G) (key : G.TypeId) : Option Owner :=
  (singletons.lookup key).map Prod.fst

/-- Compare the owner of a singleton, if there is one. -/
def assertOwner (debug : Bool) (owner : Owner) (key : G.TypeId) (singletons : SingletonMap G) :
    Except Panic Unit :=
  match singletons.getSingletonOwner key with
  | some prevOwner => debugAssertOwner debug prevOwner owner
  | none => .ok ()

end SingletonMap

/-- `map_singleton_value`, which treats a tombstone as a missing value. -/
def mapSingletonValue {α : Type} (f : SinValue G → Except Panic α) :
    Option (SinValue G) → Except Panic (Option α)
  | none => .ok none
  | some .none => .ok none
  | some v => (f v).map some

/-! ## Operations on singletons -/

namespace SingletonOps

/-- A value, by cloning it. -/
def get (singletons : SingletonMap G) (m : G.Marker) :
    Except Panic (Option ((G.storage m).Value G)) :=
  mapSingletonValue (G.storage m).fromValueRef (singletons.getSingletonValue (G.typeId m))

/-- A value stored as an `Arc`, by cloning the `Arc`. -/
def getArc (singletons : SingletonMap G) (m : G.Marker) (ty : G.Ty) :
    Except Panic (Option (Shared (G.Val ty))) :=
  mapSingletonValue (StorageClass.fromValueArc ty) (singletons.getSingletonValue (G.typeId m))

/-- Access to a value by reference. -/
def with' (singletons : SingletonMap G) (m : G.Marker) (f : (G.storage m).Value G → ρ) :
    Except Panic (Option ρ) :=
  mapSingletonValue (fun v => ((G.storage m).fromValueRef v).map f)
    (singletons.getSingletonValue (G.typeId m))

end SingletonOps

namespace SingletonOpsMut

/-- Insert a value. Returns the value it replaces. -/
def insert (debug : Bool) (singletons : SingletonMap G) (m : G.Marker)
    (value : (G.storage m).ArgValue G) (owner : Owner) :
    Except Panic (Option ((G.storage m).ArgValue G)) × SingletonMap G :=
  let key := G.typeId m
  match singletons.assertOwner debug owner key with
  | .error p => (.error p, singletons)
  | .ok () =>
    (mapSingletonValue (G.storage m).fromValue (singletons.getSingletonValue key),
      singletons.insert key (owner, (G.storage m).toValue value))

/-- Mutable access to a value. -/
def mutate (debug : Bool) (singletons : SingletonMap G) (m : G.Marker)
    (hmut : (G.storage m).IsMut) (f : (G.storage m).Value G → (G.storage m).Value G × Option ρ)
    (owner : Owner) : Except Panic (Option ρ) × SingletonMap G :=
  let key := G.typeId m
  match singletons.assertOwner debug owner key with
  | .error p => (.error p, singletons)
  | .ok () =>
    match singletons.lookup key with
    | none => (.ok none, singletons)
    | some (_, .none) => (.ok none, singletons)
    | some (prevOwner, v) =>
      match (G.storage m).fromValueMut hmut v with
      | .error p => (.error p, singletons)
      | .ok (value, write) =>
        match f value with
        | (value, none) => (.error .closure, singletons.insert key (prevOwner, write value))
        | (value, some result) =>
          (.ok (some result), singletons.insert key (prevOwner, write value))

/-- Remove a value with its owner. -/
def remove (debug : Bool) (singletons : SingletonMap G) (m : G.Marker) (owner : Owner) :
    Except Panic (Option ((G.storage m).ArgValue G)) × SingletonMap G :=
  let key := G.typeId m
  match singletons.assertOwner debug owner key with
  | .error p => (.error p, singletons)
  | .ok () =>
    (mapSingletonValue (G.storage m).fromValue (singletons.getSingletonValue key),
      singletons.erase key)

/-- Remove a value while preserving ownership. -/
def clear (debug : Bool) (singletons : SingletonMap G) (m : G.Marker) (owner : Owner) :
    Except Panic (Option ((G.storage m).ArgValue G)) × SingletonMap G :=
  let key := G.typeId m
  match singletons.assertOwner debug owner key with
  | .error p => (.error p, singletons)
  | .ok () =>
    (mapSingletonValue (G.storage m).fromValue (singletons.getSingletonValue key),
      singletons.insert key (owner, .none))

end SingletonOpsMut

/-- A store without singletons. -/
def noSingletons : Singletons where
  Ty := Empty
  Val := Empty.elim
  Marker := Empty
  TypeId := Empty
  typeId := Empty.elim
  typeId_injective m := m.elim
  storage := Empty.elim

end TsKvstore
