import TsKvstore.Builds
import TsKvstore.Interleavings
import TsKvstore.SingletonCells

/-!
# Singletons of a shared store

Clients that share a store also share its map of singletons. The calls on one marker, in
the order in which the store executes them, are a run of one cell of the declared type. A
debug build keeps the owners of the cells apart. A release build compares no owners, and
each write gives the cell to its caller.
-/

namespace TsKvstore

open FiniteMaps Machines RwLocks

variable {S : Schema} {G : Singletons} {ρ : Type} {m : G.Marker}

/-! ## Cells without ownership -/

namespace Cell

/-- A call on a cell in a release build. -/
def execUnchecked (owner : Owner) (cell : Cell G m) :
    (c : SingletonCall G ρ m) → Except Panic c.Ret × Cell G m
  | .get => (.ok (cell.value.map (G.storage m).deref), cell)
  | .getArc _ harc => (.ok (cell.value.map (StorageClass.argArc harc)), cell)
  | .with' f => (.ok (cell.value.map fun value => f ((G.storage m).deref value)), cell)
  | .insert value => (.ok cell.value, present owner value)
  | .mutate hmut f => cell.mutate hmut f
  | .remove => (.ok cell.value, absent)
  | .clear => (.ok cell.value, tombstone owner)

/-- A call on a cell with the owner token it is made with. -/
def step (debug : Bool) (op : Owner × SingletonCall G ρ m) (cell : Cell G m) :
    Except Panic op.2.Ret × Cell G m :=
  match debug with
  | true => cell.exec op.1 op.2
  | false => cell.execUnchecked op.1 op.2

/-- A cell does not forbid anything to its owner. -/
theorem not_forbids_owner (cell : Cell G m) (owner : Owner) :
    ∀ prevOwner, ¬ cell.Forbids (cell.owner.getD owner) prevOwner := by
  rintro prevOwner ⟨howner, hne⟩
  rw [howner] at hne
  exact hne rfl

/-- A call fails in its closure, or in a debug build since the cell has another owner. -/
theorem error_of_step {debug : Bool} {op : Owner × SingletonCall G ρ m} {cell : Cell G m}
    {e : Panic} (h : (cell.step debug op).1 = .error e) :
    e = .closure ∨ debug = true ∧ op.2.isRead = false ∧ ∃ prevOwner, prevOwner ≠ op.1 ∧
      e = ownershipViolation prevOwner op.1 := by
  obtain ⟨owner, c⟩ := op
  cases debug with
  | true =>
    refine (error_of_exec h).imp_right ?_
    rintro ⟨hc, prevOwner, hforbids, he⟩
    exact ⟨rfl, hc, prevOwner, hforbids.2, he⟩
  | false =>
    cases c with
    | mutate hmut f => exact Or.inl (closure_of_mutate h)
    | get | getArc _ _ | with' _ | insert _ | remove | clear => cases h

end Cell

section

variable {singletons : SingletonMap G} {cell : Cell G m}

/-- In a release build `mutate` does what it does for the owner in a debug build. -/
theorem SingletonOpsMut.mutate_release (h : singletons.lookup (G.typeId m) = cell.encode)
    (owner : Owner) (hmut : (G.storage m).IsMut)
    (f : (G.storage m).Value G → (G.storage m).Value G × Option ρ) :
    mutate false singletons m hmut f owner =
      mutate true singletons m hmut f (cell.owner.getD owner) := by
  have hdebug := SingletonMap.assertOwner_of_not_forbids h (cell.not_forbids_owner owner)
  have hrelease := singletons.assertOwner_release owner (G.typeId m)
  unfold mutate
  dsimp only
  rw [hdebug, hrelease]

/-- A call on a singleton that represents a cell is a step of the cell. -/
structure StepsCell (debug : Bool) (singletons : SingletonMap G) (cell : Cell G m)
    (op : Owner × SingletonCall G ρ m) : Prop where
  result : (op.2.exec debug op.1 singletons).1 = (cell.step debug op).1
  entry : (op.2.exec debug op.1 singletons).2.lookup (G.typeId m) = (cell.step debug op).2.encode

/-- A call that has the result of the cell, and leaves its entry, acts on the cell. -/
theorem StepsCell.of_eq {debug : Bool} {op : Owner × SingletonCall G ρ m}
    {result : Except Panic op.2.Ret} {singletons' : SingletonMap G} {cell' : Cell G m}
    (hexec : op.2.exec debug op.1 singletons = (result, singletons'))
    (hcell : cell.step debug op = (result, cell'))
    (hentry : singletons'.lookup (G.typeId m) = cell'.encode) :
    StepsCell debug singletons cell op := by
  constructor
  · rw [hexec, hcell]
  · rw [hexec, hcell]
    exact hentry

/-- `mutate` acts on the cell in a release build. -/
theorem stepsCell_mutate_release (h : singletons.lookup (G.typeId m) = cell.encode)
    (owner : Owner) (hmut : (G.storage m).IsMut)
    (f : (G.storage m).Value G → (G.storage m).Value G × Option ρ) :
    StepsCell false singletons cell (owner, .mutate hmut f) := by
  have hforbids := cell.not_forbids_owner owner
  have hexec : SingletonOpsMut.mutate false singletons m hmut f owner =
      SingletonOpsMut.mutate true singletons m hmut f (cell.owner.getD owner) :=
    SingletonOpsMut.mutate_release h owner hmut f
  have hcell : cell.exec (cell.owner.getD owner) (.mutate hmut f) = cell.mutate hmut f :=
    Cell.guarded_of_not_forbids hforbids _
  have hacts := actsOnCell_mutate h hforbids hmut f
  constructor
  · change (SingletonOpsMut.mutate false singletons m hmut f owner).1 = (cell.mutate hmut f).1
    rw [hexec, ← hcell]
    exact hacts.result
  · change (SingletonOpsMut.mutate false singletons m hmut f owner).2.lookup (G.typeId m) =
      (cell.mutate hmut f).2.encode
    rw [hexec, ← hcell]
    exact hacts.entry

/-- In a release build every call is a step of its cell, whoever makes it. -/
theorem stepsCell_release (h : singletons.lookup (G.typeId m) = cell.encode) (owner : Owner)
    (c : SingletonCall G ρ m) : StepsCell false singletons cell (owner, c) := by
  have hassert := singletons.assertOwner_release owner (G.typeId m)
  have hvalue := SingletonMap.read_value h
  have hread : c.isRead = true → ActsOnCell singletons owner cell c := actsOnCell_of_isRead h
  cases c with
  | get | getArc _ _ | with' _ => exact ⟨(hread rfl).result, h⟩
  | insert value =>
    have hexec : SingletonOpsMut.insert false singletons m value owner =
        (.ok cell.value, singletons.insert (G.typeId m) (owner, (G.storage m).toValue value)) := by
      unfold SingletonOpsMut.insert
      dsimp only
      rw [hassert, hvalue]
    exact .of_eq hexec rfl (Finmap.lookup_insert _)
  | mutate hmut f => exact stepsCell_mutate_release h owner hmut f
  | remove =>
    have hexec : SingletonOpsMut.remove false singletons m owner =
        (.ok cell.value, singletons.erase (G.typeId m)) := by
      unfold SingletonOpsMut.remove
      dsimp only
      rw [hassert, hvalue]
    exact .of_eq hexec rfl (Finmap.lookup_erase _ _)
  | clear =>
    have hexec : SingletonOpsMut.clear false singletons m owner =
        (.ok cell.value, singletons.insert (G.typeId m) (owner, .none)) := by
      unfold SingletonOpsMut.clear
      dsimp only
      rw [hassert, hvalue]
    exact .of_eq hexec rfl (Finmap.lookup_insert _)

/-- In both builds every call is a step of its cell. -/
theorem stepsCell (debug : Bool) (h : singletons.lookup (G.typeId m) = cell.encode)
    (op : Owner × SingletonCall G ρ m) : StepsCell debug singletons cell op := by
  cases debug with
  | true => exact ⟨(actsOnCell h op.1 op.2).result, (actsOnCell h op.1 op.2).entry⟩
  | false => exact stepsCell_release h op.1 op.2

end

/-! ## The calls on one marker -/

/-- The call on the marker that a request is, with its result. -/
def callOn? (m : G.Marker) (step : Σ r : Request S G ρ, Except Panic r.call.Ret) :
    Option (Σ op : Owner × SingletonCall G ρ m, Except Panic op.2.Ret) :=
  match step with
  | ⟨⟨owner, .singleton m' c⟩, result⟩ =>
    if h : m' = m then
      some (h ▸ (⟨(owner, c), result⟩ : Σ op : Owner × SingletonCall G ρ m', Except Panic op.2.Ret))
    else none
  | ⟨⟨_, .table _ _⟩, _⟩ | ⟨⟨_, .tableBy _ _ _⟩, _⟩ | ⟨⟨_, .indexTable _ _ _⟩, _⟩ => none

/-- A request that is a call on the marker is a step of its cell. -/
theorem step_of_callOn? {debug : Bool} {r : Request S G ρ} {s : Storage S G} {cell : Cell G m}
    {call : Σ op : Owner × SingletonCall G ρ m, Except Panic op.2.Ret}
    (hcell : s.singletons.lookup (G.typeId m) = cell.encode)
    (hcall : callOn? m ⟨r, (r.exec debug s).1⟩ = some call) :
    (cell.step debug call.1).1 = call.2 ∧
      (r.exec debug s).2.singletons.lookup (G.typeId m) = (cell.step debug call.1).2.encode := by
  obtain ⟨owner, c⟩ := r
  cases c with
  | table _ _ | tableBy _ _ _ | indexTable _ _ _ => cases hcall
  | singleton m' c =>
    by_cases hm : m' = m
    · subst hm
      obtain rfl := Option.some.inj ((dif_pos rfl).symm.trans hcall)
      have hstep := stepsCell debug hcell (owner, c)
      exact ⟨hstep.result.symm, hstep.entry⟩
    · cases (dif_neg hm).symm.trans hcall

/-- The other requests leave the entry of the marker as it is. -/
theorem lookup_of_callOn?_none {debug : Bool} {r : Request S G ρ} {s : Storage S G}
    (hcall : callOn? m ⟨r, (r.exec debug s).1⟩ = none) :
    (r.exec debug s).2.singletons.lookup (G.typeId m) = s.singletons.lookup (G.typeId m) := by
  obtain ⟨owner, c⟩ := r
  cases c with
  | table _ _ | tableBy _ _ _ | indexTable _ _ _ => rfl
  | singleton m' c =>
    by_cases hm : m' = m
    · cases (dif_pos hm).symm.trans hcall
    · exact c.exec_lookup_of_ne owner fun hkey => hm (G.typeId_injective hkey).symm

section

variable {ι : Type} [DecidableEq ι] {debug : Bool} {clients : ι → Client S G ρ}
  {s : LockedStorage S G} {refuse : Config (storeActions S G ρ debug) ι (Option ℕ) → ι → Bool}
  {events : List (ι × Event (storeActions S G ρ debug) (Option ℕ))}
  {c : Config (storeActions S G ρ debug) ι (Option ℕ)}

/-- **Shared singletons are typed cells.** In both builds, whatever clients share a store,
the calls on a marker are in the order of their execution a run of one cell with the same
results, and the map ends with the entry of this cell. A call fails in its closure, or in
a debug build since the cell has another owner, and for no other reason. -/
theorem shared_singletons_are_typed_cells
    (hrun : Run refuse (startClients debug clients s) events c) {cells : Cells G}
    (hcells : Represents s.storage.singletons cells) (m : G.Marker) :
    let calls := (requestsOf events).filterMap (callOn? m)
    let cell := stateAfter (Cell.step debug) (calls.map Sigma.fst) (cells m)
    results (Cell.step debug) (calls.map Sigma.fst) (cells m) = calls ∧
      c.state.storage.singletons.lookup (G.typeId m) = cell.encode ∧
      ∀ call ∈ calls, ∀ e, call.2 = .error e →
        e = .closure ∨ debug = true ∧ call.1.2.isRead = false ∧ ∃ prevOwner,
          prevOwner ≠ call.1.1 ∧ e = ownershipViolation prevOwner call.1.1 := by
  intro calls cell
  have hrequests : Leads debug s.storage (requestsOf events) c.state.storage :=
    leads_requestsOf hrun
  obtain ⟨hresults, hlast⟩ := stateAfter_part
    (fun (s : Storage S G) (cell : Cell G m) => s.singletons.lookup (G.typeId m) = cell.encode)
    (callOn? m) ((requestsOf events).map Sigma.fst) (hcells m)
    (fun _ _ _ _ hcell hcall => step_of_callOn? hcell hcall)
    (fun _ _ _ hcell hcall => (lookup_of_callOn?_none hcall).trans hcell)
  rw [hrequests.1] at hresults hlast
  rw [hrequests.2] at hlast
  refine ⟨hresults, hlast, fun call hcall e he => ?_⟩
  have hfails : ∀ step ∈ results (Cell.step debug) (calls.map Sigma.fst) (cells m), ∀ e,
      step.2 = .error e → e = .closure ∨ debug = true ∧ step.1.2.isRead = false ∧ ∃ prevOwner,
        prevOwner ≠ step.1.1 ∧ e = ownershipViolation prevOwner step.1.1 :=
    forall_mem_results fun _ _ _ _ => Cell.error_of_step
  rw [hresults] at hfails
  exact hfails call hcall e he

end

/-- The singletons `Count(u64)` and `Name(String as Box)`. -/
def countAndName : Singletons where
  Ty := Unit
  Val _ := String
  Marker := Bool
  TypeId := Bool
  typeId m := m
  typeId_injective _ _ h := h
  storage
    | false => .u64
    | true => .box ()

/-- `Count`. -/
abbrev Count : countAndName.Marker := false

/-- One client inserts a count, and the other counts up with another owner token. -/
def insertAndCount (i : Bool) : Client people countAndName Unit :=
  if i then
    .raw false ⟨"other", .singleton Count (.mutate trivial fun (n : UInt64) => (n + 1, some ()))⟩
      fun _ => .done
  else .raw false ⟨"owner", .singleton Count (.insert (41 : UInt64))⟩ fun _ => .done

/-- In a release build nobody objects. -/
def countRun :=
  runSchedule (fun _ _ => false) [false, false, true, false, false, false, true, true, true, true]
    (startClients false insertAndCount ⟨false, Storage.new⟩)

/-- Both clients use one counter. -/
theorem countRun_typed_cell :
    let calls := (requestsOf countRun.1).filterMap (callOn? Count)
    let cell := stateAfter (Cell.step false) (calls.map Sigma.fst) .absent
    results (Cell.step false) (calls.map Sigma.fst) .absent = calls ∧
      countRun.2.state.storage.singletons.lookup (countAndName.typeId Count) = cell.encode ∧
      ∀ call ∈ calls, ∀ e, call.2 = .error e →
        e = .closure ∨ false = true ∧ call.1.2.isRead = false ∧ ∃ prevOwner,
          prevOwner ≠ call.1.1 ∧ e = ownershipViolation prevOwner call.1.1 := by
  have hrun : Run (fun _ _ => false) (startClients false insertAndCount ⟨false, Storage.new⟩)
      countRun.1 countRun.2 := run_runSchedule _ _ _
  have hempty : Represents (Storage.new : Storage people countAndName).singletons
      (fun _ => .absent) := fun _ => rfl
  exact shared_singletons_are_typed_cells hrun hempty Count

end TsKvstore
