import TsKvstore.Store

/-!
# Singletons are independent typed cells

The store keeps all singletons in one untyped map. To its callers each marker is
a cell of its own type, which is absent, a tombstone that only has an owner, or
present with an owner and a value. The map represents the cells at all times, so
no downcast fails and no `unreachable!` arm is reached.
-/

namespace TsKvstore

open FiniteMaps Machines

variable {S : Schema} {G : Singletons} {ρ : Type} {m : G.Marker}

/-! ## Reading back a stored value -/

/-- A value is downcast to its own type. -/
theorem AnyValue.downcast_self (ty : G.Ty) (value : G.Val ty) :
    AnyValue.downcast ty (⟨ty, value⟩ : AnyValue G) = some value := by
  simp [AnyValue.downcast]

/-- A shared value is downcast to its own type. -/
theorem Shared.downcast_self (ty : G.Ty) (value : Shared (G.Val ty)) :
    Shared.downcast ty (⟨value.addr, ⟨ty, value.val⟩⟩ : Shared (AnyValue G)) = some value := by
  simp only [Shared.downcast, AnyValue.downcast_self, Option.map_some]

namespace StorageClass

/-- The value that an argument value gives access to. -/
def deref : (c : StorageClass G.Ty) → c.ArgValue G → c.Value G
  | u64, value => value
  | box _, value => value
  | arc _, value => value.val
  | ref _, value => value.val

/-- The argument value of a class with mutable access. -/
def ofValue : (c : StorageClass G.Ty) → c.IsMut → c.Value G → c.ArgValue G
  | u64, _, value => value
  | box _, _, value => value

/-- The argument value of an `Arc`. -/
def argArc {c : StorageClass G.Ty} {ty : G.Ty} (hc : c = .arc ty) (value : c.ArgValue G) :
    Shared (G.Val ty) :=
  (hc ▸ value : (arc ty).ArgValue G)

variable (c : StorageClass G.Ty)

/-- No value is stored as the empty variant. -/
theorem toValue_ne_none (value : c.ArgValue G) : c.toValue value ≠ .none := by
  cases c <;> exact fun h => nomatch h

/-- A stored value is read back. -/
theorem fromValue_toValue (value : c.ArgValue G) : c.fromValue (c.toValue value) = .ok value := by
  cases c with
  | u64 => rfl
  | box ty => exact congrArg unwrapDowncast (AnyValue.downcast_self ty value)
  | arc ty => exact congrArg unwrapDowncast (Shared.downcast_self ty value)
  | ref ty => exact congrArg unwrapDowncast (Shared.downcast_self ty value)

/-- A stored value is read by reference. -/
theorem fromValueRef_toValue (value : c.ArgValue G) :
    c.fromValueRef (c.toValue value) = .ok (c.deref value) := by
  cases c with
  | u64 => rfl
  | box ty => exact congrArg unwrapDowncast (AnyValue.downcast_self ty value)
  | arc ty => exact congrArg unwrapDowncast (AnyValue.downcast_self ty value.val)
  | ref ty => exact congrArg unwrapDowncast (AnyValue.downcast_self ty value.val)

/-- A stored value is read and written by reference. -/
theorem fromValueMut_toValue (hmut : c.IsMut) (value : c.ArgValue G) :
    c.fromValueMut hmut (c.toValue value) =
      .ok (c.deref value, fun value' => c.toValue (c.ofValue hmut value')) := by
  cases c with
  | u64 => rfl
  | box ty =>
    have hcast : unwrapDowncast (AnyValue.downcast ty ⟨ty, value⟩) = .ok value :=
      congrArg unwrapDowncast (AnyValue.downcast_self ty value)
    unfold fromValueMut toValue
    dsimp only
    rw [hcast]
    rfl
  | arc _ => exact hmut.elim
  | ref _ => exact hmut.elim

/-- A stored shared value is read back. -/
theorem fromValueArc_toValue {ty : G.Ty} (hc : c = .arc ty) (value : c.ArgValue G) :
    fromValueArc ty (c.toValue value) = .ok (argArc hc value) := by
  subst hc
  exact congrArg unwrapDowncast (Shared.downcast_self ty value)

end StorageClass

/-! ## Cells -/

/-- The state of a singleton. -/
inductive Cell (G : Singletons) (m : G.Marker) where
  /-- There is no singleton. -/
  | absent
  /-- The value has been cleared and the owner is kept. -/
  | tombstone (owner : Owner)
  /-- There is a value. -/
  | present (owner : Owner) (value : (G.storage m).ArgValue G)

namespace Cell

/-- The owner of a cell. -/
def owner : Cell G m → Option Owner
  | absent => none
  | tombstone owner => some owner
  | present owner _ => some owner

/-- The value in a cell. -/
def value : Cell G m → Option ((G.storage m).ArgValue G)
  | absent => none
  | tombstone _ => none
  | present _ value => some value

/-- The cell has another owner. -/
def Forbids (cell : Cell G m) (owner : Owner) (prevOwner : Owner) : Prop :=
  cell.owner = some prevOwner ∧ prevOwner ≠ owner

/-- A write by an owner, which an ownership violation prevents. -/
def guarded {α : Type} (cell : Cell G m) (owner : Owner) (write : Except Panic α × Cell G m) :
    Except Panic α × Cell G m :=
  match cell.owner with
  | some prevOwner =>
    if prevOwner = owner then write else (.error (ownershipViolation prevOwner owner), cell)
  | none => write

/-- Mutable access to the value in a cell. -/
def mutate (cell : Cell G m) (hmut : (G.storage m).IsMut)
    (f : (G.storage m).Value G → (G.storage m).Value G × Option ρ) :
    Except Panic (Option ρ) × Cell G m :=
  match cell with
  | present owner value =>
    let (value, result) := f ((G.storage m).deref value)
    (match result with
      | none => .error .closure
      | some result => .ok (some result),
      present owner ((G.storage m).ofValue hmut value))
  | cell => (.ok none, cell)

/-- A call on a cell. -/
def exec (owner : Owner) (cell : Cell G m) :
    (c : SingletonCall G ρ m) → Except Panic c.Ret × Cell G m
  | .get => (.ok (cell.value.map (G.storage m).deref), cell)
  | .getArc _ harc => (.ok (cell.value.map (StorageClass.argArc harc)), cell)
  | .with' f => (.ok (cell.value.map fun value => f ((G.storage m).deref value)), cell)
  | .insert value => cell.guarded owner (.ok cell.value, present owner value)
  | .mutate hmut f => cell.guarded owner (cell.mutate hmut f)
  | .remove => cell.guarded owner (.ok cell.value, absent)
  | .clear => cell.guarded owner (.ok cell.value, tombstone owner)

/-- The entry of a cell in the map of all singletons. -/
def encode : Cell G m → Option (Owner × SinValue G)
  | absent => none
  | tombstone owner => some (owner, .none)
  | present owner value => some (owner, (G.storage m).toValue value)

/-- A cell fails a caller whom it forbids to write. -/
theorem guarded_of_forbids {α : Type} {cell : Cell G m} {owner prevOwner : Owner}
    (h : cell.Forbids owner prevOwner) (write : Except Panic α × Cell G m) :
    cell.guarded owner write = (.error (ownershipViolation prevOwner owner), cell) := by
  unfold guarded
  rw [h.1]
  exact if_neg h.2

/-- A cell lets the other callers write. -/
theorem guarded_of_not_forbids {α : Type} {cell : Cell G m} {owner : Owner}
    (h : ∀ prevOwner, ¬ cell.Forbids owner prevOwner) (write : Except Panic α × Cell G m) :
    cell.guarded owner write = write := by
  unfold guarded
  cases howner : cell.owner with
  | none => rfl
  | some prevOwner => exact if_pos (by_contra fun hne => h prevOwner ⟨howner, hne⟩)

end Cell

/-! ## The map represents the cells -/

/-- The value of an entry is mapped, if it is not the empty variant. -/
theorem mapSingletonValue_of_ne_none {α : Type} (f : SinValue G → Except Panic α) {v : SinValue G}
    (hv : v ≠ .none) : mapSingletonValue f (some v) = (f v).map some := by
  cases v with
  | none => exact absurd rfl hv
  | u64 _ | box _ | arc _ | ref _ => rfl

/-- Reading the entry of a cell gives its value. -/
theorem Cell.map_encode {α : Type} {f : SinValue G → Except Panic α}
    {g : (G.storage m).ArgValue G → α} (h : ∀ v, f ((G.storage m).toValue v) = .ok (g v))
    (cell : Cell G m) :
    mapSingletonValue f (cell.encode.map Prod.snd) = .ok (cell.value.map g) := by
  cases cell with
  | absent => rfl
  | tombstone owner => rfl
  | present owner value =>
    have hread := mapSingletonValue_of_ne_none f ((G.storage m).toValue_ne_none value)
    rw [h value] at hread
    exact hread

/-- The entry of a cell holds its owner. -/
theorem Cell.encode_owner (cell : Cell G m) : cell.encode.map Prod.fst = cell.owner := by
  cases cell <;> rfl

section

variable {singletons : SingletonMap G} {cell : Cell G m} {owner : Owner}

/-- The assertion fails for a caller whom the cell forbids to write. -/
theorem SingletonMap.assertOwner_of_forbids (h : singletons.lookup (G.typeId m) = cell.encode)
    {prevOwner : Owner} (hforbids : cell.Forbids owner prevOwner) :
    singletons.assertOwner true owner (G.typeId m) =
      .error (ownershipViolation prevOwner owner) := by
  unfold SingletonMap.assertOwner SingletonMap.getSingletonOwner debugAssertOwner
  rw [h, cell.encode_owner, hforbids.1]
  exact if_pos ⟨rfl, hforbids.2⟩

/-- The assertion passes the other callers. -/
theorem SingletonMap.assertOwner_of_not_forbids
    (h : singletons.lookup (G.typeId m) = cell.encode)
    (hforbids : ∀ prevOwner, ¬ cell.Forbids owner prevOwner) :
    singletons.assertOwner true owner (G.typeId m) = .ok () := by
  unfold SingletonMap.assertOwner SingletonMap.getSingletonOwner debugAssertOwner
  rw [h, cell.encode_owner]
  cases howner : cell.owner with
  | none => rfl
  | some prevOwner => exact if_neg fun hne => hforbids prevOwner ⟨howner, hne.2⟩

/-- Reading the value of a cell by value. -/
theorem SingletonMap.read_value (h : singletons.lookup (G.typeId m) = cell.encode) :
    mapSingletonValue (G.storage m).fromValue (singletons.getSingletonValue (G.typeId m)) =
      .ok cell.value := by
  unfold SingletonMap.getSingletonValue
  rw [h, cell.map_encode (G.storage m).fromValue_toValue, Option.map_id']

/-- `mutate` of an entry with a value. -/
theorem SingletonOpsMut.mutate_of_value {hmut : (G.storage m).IsMut}
    {f : (G.storage m).Value G → (G.storage m).Value G × Option ρ}
    (hassert : singletons.assertOwner true owner (G.typeId m) = .ok ()) {prevOwner : Owner}
    {v : SinValue G} (hlookup : singletons.lookup (G.typeId m) = some (prevOwner, v))
    (hv : v ≠ .none) {value : (G.storage m).Value G} {write : (G.storage m).Value G → SinValue G}
    (hread : (G.storage m).fromValueMut hmut v = .ok (value, write)) :
    mutate true singletons m hmut f owner =
      (match (f value).2 with
        | none => .error .closure
        | some result => .ok (some result),
        singletons.insert (G.typeId m) (prevOwner, write (f value).1)) := by
  unfold mutate
  dsimp only
  rw [hassert]
  dsimp only
  rw [hlookup]
  cases v with
  | none => exact absurd rfl hv
  | u64 _ | box _ | arc _ | ref _ =>
    dsimp only
    rw [hread]
    dsimp only
    rcases f value with ⟨_, _ | _⟩ <;> rfl

/-- A call on a singleton that represents a cell acts as on the cell, and on no
other entry of the map. -/
structure ActsOnCell (singletons : SingletonMap G) (owner : Owner) (cell : Cell G m)
    (c : SingletonCall G ρ m) : Prop where
  result : (c.exec true owner singletons).1 = (cell.exec owner c).1
  entry : (c.exec true owner singletons).2.lookup (G.typeId m) = (cell.exec owner c).2.encode
  others : ∀ k, k ≠ G.typeId m →
    (c.exec true owner singletons).2.lookup k = singletons.lookup k

/-- A call with the result of the cell that changes its entry only acts on the cell. -/
theorem ActsOnCell.of_eq {c : SingletonCall G ρ m} {result : Except Panic c.Ret}
    {singletons' : SingletonMap G} {cell' : Cell G m}
    (hexec : c.exec true owner singletons = (result, singletons'))
    (hcell : cell.exec owner c = (result, cell'))
    (hentry : singletons'.lookup (G.typeId m) = cell'.encode)
    (hothers : ∀ k, k ≠ G.typeId m → singletons'.lookup k = singletons.lookup k) :
    ActsOnCell singletons owner cell c := by
  constructor
  · rw [hexec, hcell]
  · rw [hexec, hcell]
    exact hentry
  · rw [hexec]
    exact hothers

/-- A write of a forbidden caller fails in the map and in the cell. -/
theorem actsOnCell_of_forbids (h : singletons.lookup (G.typeId m) = cell.encode)
    {prevOwner : Owner} (hforbids : cell.Forbids owner prevOwner) {c : SingletonCall G ρ m}
    (hc : c.isRead = false) :
    c.exec true owner singletons = (.error (ownershipViolation prevOwner owner), singletons) ∧
      ActsOnCell singletons owner cell c := by
  have hassert := SingletonMap.assertOwner_of_forbids h hforbids
  have hexec : c.exec true owner singletons =
      (.error (ownershipViolation prevOwner owner), singletons) := by
    cases c with
    | get | getArc _ _ | with' _ => cases hc
    | insert _ =>
      simp only [SingletonCall.exec, SingletonOpsMut.insert]
      rw [hassert]
      rfl
    | mutate _ _ =>
      simp only [SingletonCall.exec, SingletonOpsMut.mutate]
      rw [hassert]
      rfl
    | remove =>
      simp only [SingletonCall.exec, SingletonOpsMut.remove]
      rw [hassert]
      rfl
    | clear =>
      simp only [SingletonCall.exec, SingletonOpsMut.clear]
      rw [hassert]
      rfl
  have hcell : cell.exec owner c = (.error (ownershipViolation prevOwner owner), cell) := by
    cases c with
    | get | getArc _ _ | with' _ => cases hc
    | insert _ | mutate _ _ | remove | clear => exact Cell.guarded_of_forbids hforbids _
  exact ⟨hexec, .of_eq hexec hcell h fun _ _ => rfl⟩

/-- A read of the map is one of the cell. -/
theorem actsOnCell_of_isRead (h : singletons.lookup (G.typeId m) = cell.encode)
    {c : SingletonCall G ρ m} (hc : c.isRead = true) : ActsOnCell singletons owner cell c := by
  have hvalue : singletons.getSingletonValue (G.typeId m) = cell.encode.map Prod.snd := by
    unfold SingletonMap.getSingletonValue
    rw [h]
  cases c with
  | get =>
    refine ⟨?_, h, fun _ _ => rfl⟩
    change SingletonOps.get singletons m = .ok (cell.value.map (G.storage m).deref)
    unfold SingletonOps.get
    rw [hvalue, cell.map_encode (G.storage m).fromValueRef_toValue]
  | getArc ty harc =>
    refine ⟨?_, h, fun _ _ => rfl⟩
    change SingletonOps.getArc singletons m ty = .ok (cell.value.map (StorageClass.argArc harc))
    unfold SingletonOps.getArc
    rw [hvalue, cell.map_encode ((G.storage m).fromValueArc_toValue harc)]
  | with' f =>
    refine ⟨?_, h, fun _ _ => rfl⟩
    change SingletonOps.with' singletons m f =
      .ok (cell.value.map fun value => f ((G.storage m).deref value))
    unfold SingletonOps.with'
    rw [hvalue, cell.map_encode]
    intro value
    rw [StorageClass.fromValueRef_toValue]
    rfl
  | insert _ | mutate _ _ | remove | clear => cases hc

/-- `mutate` on a missing value. -/
theorem SingletonOpsMut.mutate_of_no_value {hmut : (G.storage m).IsMut}
    {f : (G.storage m).Value G → (G.storage m).Value G × Option ρ}
    (hassert : singletons.assertOwner true owner (G.typeId m) = .ok ())
    (hnone : singletons.lookup (G.typeId m) = none ∨
      ∃ prevOwner, singletons.lookup (G.typeId m) = some (prevOwner, .none)) :
    mutate true singletons m hmut f owner = (.ok none, singletons) := by
  unfold mutate
  dsimp only
  rw [hassert]
  dsimp only
  rcases hnone with hnone | ⟨prevOwner, hnone⟩ <;> rw [hnone]

/-- `mutate` in the map is that of the cell. -/
theorem actsOnCell_mutate (h : singletons.lookup (G.typeId m) = cell.encode)
    (hforbids : ∀ prevOwner, ¬ cell.Forbids owner prevOwner) (hmut : (G.storage m).IsMut)
    (f : (G.storage m).Value G → (G.storage m).Value G × Option ρ) :
    ActsOnCell singletons owner cell (.mutate hmut f) := by
  have hassert := SingletonMap.assertOwner_of_not_forbids h hforbids
  have hcell : cell.exec owner (.mutate hmut f) = cell.mutate hmut f :=
    Cell.guarded_of_not_forbids hforbids _
  cases cell with
  | absent =>
    exact .of_eq (SingletonOpsMut.mutate_of_no_value hassert (Or.inl h)) hcell h fun _ _ => rfl
  | tombstone prevOwner =>
    exact .of_eq (SingletonOpsMut.mutate_of_no_value hassert (Or.inr ⟨prevOwner, h⟩)) hcell h
      fun _ _ => rfl
  | present prevOwner value =>
    exact .of_eq
      (SingletonOpsMut.mutate_of_value hassert h ((G.storage m).toValue_ne_none value)
        ((G.storage m).fromValueMut_toValue hmut value))
      hcell (Finmap.lookup_insert _) fun k hk => Finmap.lookup_insert_of_ne _ hk

/-- A write of another caller in the map is one of the cell. -/
theorem actsOnCell_of_not_forbids (h : singletons.lookup (G.typeId m) = cell.encode)
    (hforbids : ∀ prevOwner, ¬ cell.Forbids owner prevOwner) {c : SingletonCall G ρ m}
    (hc : c.isRead = false) : ActsOnCell singletons owner cell c := by
  have hassert := SingletonMap.assertOwner_of_not_forbids h hforbids
  have hvalue := SingletonMap.read_value h
  cases c with
  | get | getArc _ _ | with' _ => cases hc
  | insert value =>
    have hexec : SingletonOpsMut.insert true singletons m value owner =
        (.ok cell.value, singletons.insert (G.typeId m) (owner, (G.storage m).toValue value)) := by
      unfold SingletonOpsMut.insert
      dsimp only
      rw [hassert, hvalue]
    exact .of_eq hexec (Cell.guarded_of_not_forbids hforbids _) (Finmap.lookup_insert _)
      fun k hk => Finmap.lookup_insert_of_ne _ hk
  | mutate hmut f => exact actsOnCell_mutate h hforbids hmut f
  | remove =>
    have hexec : SingletonOpsMut.remove true singletons m owner =
        (.ok cell.value, singletons.erase (G.typeId m)) := by
      unfold SingletonOpsMut.remove
      dsimp only
      rw [hassert, hvalue]
    exact .of_eq hexec (Cell.guarded_of_not_forbids hforbids _) (Finmap.lookup_erase _ _)
      fun k hk => Finmap.lookup_erase_ne hk
  | clear =>
    have hexec : SingletonOpsMut.clear true singletons m owner =
        (.ok cell.value, singletons.insert (G.typeId m) (owner, .none)) := by
      unfold SingletonOpsMut.clear
      dsimp only
      rw [hassert, hvalue]
    exact .of_eq hexec (Cell.guarded_of_not_forbids hforbids _) (Finmap.lookup_insert _)
      fun k hk => Finmap.lookup_insert_of_ne _ hk

/-- Every call on a singleton acts on its cell. -/
theorem actsOnCell (h : singletons.lookup (G.typeId m) = cell.encode) (owner : Owner)
    (c : SingletonCall G ρ m) : ActsOnCell singletons owner cell c := by
  cases hc : c.isRead with
  | true => exact actsOnCell_of_isRead h hc
  | false =>
    by_cases hforbids : ∃ prevOwner, cell.Forbids owner prevOwner
    · obtain ⟨prevOwner, hforbids⟩ := hforbids
      exact (actsOnCell_of_forbids h hforbids hc).2
    · exact actsOnCell_of_not_forbids h (not_exists.mp hforbids) hc

end

/-! ## Runs -/

/-- Markers are told apart by their type ids. -/
instance : DecidableEq G.Marker := fun m m' =>
  decidable_of_iff (G.typeId m = G.typeId m') G.typeId_injective.eq_iff

/-- A cell for each marker. -/
abbrev Cells (G : Singletons) : Type := (m : G.Marker) → Cell G m

/-- The cells after a request. Only a call on a singleton changes a cell, and it
changes the cell of its marker. -/
def Cells.next (cells : Cells G) (r : Request S G ρ) : Cells G :=
  match r.call with
  | .singleton m c => Function.update cells m ((cells m).exec r.owner c).2
  | _ => cells

/-- The cells after a run from the empty store. -/
def cellsAfter (reqs : List (Request S G ρ)) : Cells G :=
  reqs.foldl Cells.next fun _ => .absent

/-- The entry of each marker in the map is that of its cell. -/
def Represents (singletons : SingletonMap G) (cells : Cells G) : Prop :=
  ∀ m, singletons.lookup (G.typeId m) = (cells m).encode

/-- Requests keep the map a representation of the cells. -/
theorem Represents.exec {s : Storage S G} {cells : Cells G} (h : Represents s.singletons cells)
    (r : Request S G ρ) : Represents (r.exec true s).2.singletons (cells.next r) := by
  obtain ⟨owner, call⟩ := r
  cases call with
  | table _ _ => exact h
  | tableBy _ _ _ => exact h
  | indexTable _ _ _ => exact h
  | singleton m c =>
    have hacts := actsOnCell (h m) owner c
    intro m'
    change (c.exec true owner s.singletons).2.lookup (G.typeId m') =
      (Function.update cells m ((cells m).exec owner c).2 m').encode
    by_cases hm : m' = m
    · subst hm
      rw [Function.update_self]
      exact hacts.entry
    · rw [Function.update_of_ne hm, hacts.others _ fun heq => hm (G.typeId_injective heq)]
      exact h m'

/-- After every run the map holds the entries of the cells. -/
theorem represents_stateAfter (reqs : List (Request S G ρ)) :
    Represents (stateAfter (Request.exec true) reqs Storage.new).singletons (cellsAfter reqs) := by
  induction reqs using List.reverseRecOn with
  | nil => exact fun _ => rfl
  | append_singleton reqs r ih =>
    have hcells : cellsAfter (reqs ++ [r]) = (cellsAfter reqs).next r := by
      unfold cellsAfter
      rw [List.foldl_append]
      rfl
    rw [stateAfter_concat, hcells]
    exact ih.exec r

/-! ## Errors of a call -/

/-- `mutate` of a cell fails in its closure only. -/
theorem Cell.closure_of_mutate {cell : Cell G m} {hmut : (G.storage m).IsMut}
    {f : (G.storage m).Value G → (G.storage m).Value G × Option ρ} {e : Panic}
    (h : (cell.mutate hmut f).1 = .error e) : e = .closure := by
  cases cell with
  | absent => cases h
  | tombstone owner => cases h
  | present owner value =>
    have hresult : (match (f ((G.storage m).deref value)).2 with
        | none => .error .closure
        | some result => .ok (some result) : Except Panic (Option ρ)) = .error e := h
    cases hf : (f ((G.storage m).deref value)).2 with
    | none =>
      rw [hf] at hresult
      cases hresult
      rfl
    | some result =>
      rw [hf] at hresult
      cases hresult

/-- A guarded write fails in its closure or because of the owner. -/
theorem Cell.error_of_guarded {α : Type} {cell : Cell G m} {owner : Owner}
    {write : Except Panic α × Cell G m} (hwrite : ∀ e, write.1 = .error e → e = .closure)
    {e : Panic} (h : (cell.guarded owner write).1 = .error e) :
    e = .closure ∨ ∃ prevOwner, cell.Forbids owner prevOwner ∧
      e = ownershipViolation prevOwner owner := by
  by_cases hforbids : ∃ prevOwner, cell.Forbids owner prevOwner
  · obtain ⟨prevOwner, hforbids⟩ := hforbids
    rw [guarded_of_forbids hforbids] at h
    cases h
    exact Or.inr ⟨prevOwner, hforbids, rfl⟩
  · rw [guarded_of_not_forbids (not_exists.mp hforbids)] at h
    exact Or.inl (hwrite e h)

/-- A call on a cell fails in its closure or with an ownership violation. -/
theorem Cell.error_of_exec {cell : Cell G m} {owner : Owner} {c : SingletonCall G ρ m} {e : Panic}
    (h : (cell.exec owner c).1 = .error e) :
    e = .closure ∨ c.isRead = false ∧ ∃ prevOwner, cell.Forbids owner prevOwner ∧
      e = ownershipViolation prevOwner owner := by
  have hok : ∀ (value : Option ((G.storage m).ArgValue G)) (cell' : Cell G m) (e : Panic),
      ((.ok value, cell') : Except Panic _ × Cell G m).1 = .error e → e = .closure :=
    fun _ _ _ herror => nomatch herror
  cases c with
  | get | getArc _ _ | with' _ => cases h
  | insert value => exact (error_of_guarded (hok _ _) h).imp_right fun hp => ⟨rfl, hp⟩
  | mutate hmut f =>
    exact (error_of_guarded (fun _ => closure_of_mutate) h).imp_right fun hp => ⟨rfl, hp⟩
  | remove => exact (error_of_guarded (hok _ _) h).imp_right fun hp => ⟨rfl, hp⟩
  | clear => exact (error_of_guarded (hok _ _) h).imp_right fun hp => ⟨rfl, hp⟩

/-- **Singletons are independent typed cells.** With debug assertions on, after
every run the map represents the cells, and a call returns what the cell of its
marker returns and changes no other cell. A write fails with an ownership
violation, and changes nothing, if and only if the cell has another owner. No
downcast fails and no `unreachable!` arm is reached. -/
theorem singletons_are_typed_cells (reqs : List (Request S G ρ)) (owner : Owner) (m : G.Marker)
    (c : SingletonCall G ρ m) :
    let s := stateAfter (Request.exec true) reqs Storage.new
    let cells := cellsAfter reqs
    let outcome := c.exec true owner s.singletons
    Represents s.singletons cells ∧
    outcome.1 = ((cells m).exec owner c).1 ∧
    Represents outcome.2 (Function.update cells m ((cells m).exec owner c).2) ∧
    ((∃ p, outcome.1 = .error (ownershipViolation p owner)) ↔
      c.isRead = false ∧ ∃ p, (cells m).Forbids owner p) ∧
    (c.isRead = false → ∀ p, (cells m).Forbids owner p →
      outcome = (.error (ownershipViolation p owner), s.singletons)) ∧
    outcome.1 ≠ .error .downcast ∧ outcome.1 ≠ .error .unreachable := by
  intro s cells outcome
  have hrepresents : Represents s.singletons cells := represents_stateAfter reqs
  have hresult : outcome.1 = ((cells m).exec owner c).1 :=
    (actsOnCell (hrepresents m) owner c).result
  have hviolation : c.isRead = false → ∀ p, (cells m).Forbids owner p →
      outcome = (.error (ownershipViolation p owner), s.singletons) :=
    fun hc p hforbids => (actsOnCell_of_forbids (hrepresents m) hforbids hc).1
  have herror : ∀ e, outcome.1 = .error e → e = .closure ∨ c.isRead = false ∧
      ∃ p, (cells m).Forbids owner p ∧ e = ownershipViolation p owner :=
    fun e he => Cell.error_of_exec (hresult.symm.trans he)
  refine ⟨hrepresents, hresult, hrepresents.exec ⟨owner, .singleton m c⟩, ⟨?_, ?_⟩, hviolation,
    ?_, ?_⟩
  · rintro ⟨p, hp⟩
    rcases herror _ hp with hclosure | ⟨hc, p', hforbids, _⟩
    · cases hclosure
    · exact ⟨hc, p', hforbids⟩
  · rintro ⟨hc, p, hforbids⟩
    exact ⟨p, congrArg Prod.fst (hviolation hc p hforbids)⟩
  · intro hdowncast
    rcases herror _ hdowncast with hclosure | ⟨_, _, _, hviolation⟩
    · cases hclosure
    · cases hviolation
  · intro hunreachable
    rcases herror _ hunreachable with hclosure | ⟨_, _, _, hviolation⟩
    · cases hclosure
    · cases hviolation

end TsKvstore
