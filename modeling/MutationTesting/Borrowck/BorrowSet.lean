/-
  MutationTesting.Borrowck.BorrowSet

  The borrows of a body, gathered by a visitor (`borrowck/src/borrow_set.rs`): each is
  known by its location and by its index, and a two-phase borrow is activated by the one
  later use of the local that it is assigned to.
-/
import MutationTesting.Borrowck.PlaceExt
import MutationTesting.Borrowck.Values
import MutationTesting.Mir.Visitor
import MutationTesting.Rust.IndexMap

namespace MutationTesting.Borrowck

open MutationTesting.Rust MutationTesting.Mir

inductive TwoPhaseActivation where
  | notTwoPhase
  | notActivated
  | activatedAt (location : Location)
  deriving DecidableEq

structure BorrowData where
  reserveLocation : Location
  activationLocation : TwoPhaseActivation
  kind : BorrowKind
  region : RegionVid
  borrowedPlace : Place
  assignedPlace : Place
  deriving DecidableEq

structure BorrowSet where
  locationMap : IndexMap Location BorrowData
  activationMap : IndexMap Location (List BorrowIndex)
  localMap : IndexMap Local (List BorrowIndex)
  localsStateAtExit : LocalsStateAtExit

namespace BorrowSet

/-- `activations_at_location`. -/
def activationsAtLocation (self : BorrowSet) (location : Location) : List BorrowIndex :=
  (self.activationMap.get location).getD []

/-- `len`. -/
def len (self : BorrowSet) : Nat := self.locationMap.len

/-- `indices`. -/
def indices (self : BorrowSet) : List BorrowIndex := List.range self.len

/-- `iter_enumerated`. -/
def iterEnumerated (self : BorrowSet) : List (BorrowIndex × BorrowData) :=
  self.indices.zip (self.locationMap.entries.map Prod.snd)

/-- `get_index_of`. -/
def getIndexOf (self : BorrowSet) (location : Location) : Option BorrowIndex :=
  self.locationMap.getIndexOf location

/-- `borrow_set[i]`. -/
def get (self : BorrowSet) (i : BorrowIndex) : Res BorrowData :=
  match self.locationMap.getAt i with
  | some data => .ok data
  | none => .error .indexOutOfBounds

end BorrowSet

/-! ## Gathering -/

/-- `GatherBorrows`, but for what it borrows. -/
structure GatherBorrows where
  locationMap : IndexMap Location BorrowData
  activationMap : IndexMap Location (List BorrowIndex)
  localMap : IndexMap Local (List BorrowIndex)
  pendingActivations : IndexMap Local BorrowIndex

/-- `Region::as_var`. -/
def asVar : Region → Res RegionVid
  | .reVar vid => .ok vid
  | _ => .error (.message "expected region to be of kind ReVar")

/-- `Place::as_local`. -/
def asLocal (place : Place) : Option Local :=
  match place.projection with
  | [] => some place.local
  | _ :: _ => none

namespace GatherBorrows

def empty : GatherBorrows := ⟨.empty, .empty, .empty, .empty⟩

/-- `insert_as_pending_if_two_phase`. -/
def insertAsPendingIfTwoPhase (self : GatherBorrows) (assignedPlace : Place) (kind : BorrowKind)
    (borrowIndex : BorrowIndex) : Res GatherBorrows :=
  if allowTwoPhaseBorrow kind = false then .ok self
  else
    match asLocal assignedPlace with
    | none => .error (.message "expected 2-phase borrow to assign to a local")
    | some temp =>
      match self.pendingActivations.get temp with
      | some _ => .error (.message "found already pending activation for temp")
      | none => .ok { self with
        locationMap := self.locationMap.modifyAt borrowIndex fun data =>
          { data with activationLocation := .notActivated }
        pendingActivations := self.pendingActivations.insert temp borrowIndex }

/-- `visit_local`. -/
def visitLocal (location : Location) (self : GatherBorrows) (use : Local × PlaceContext) :
    Res GatherBorrows :=
  let (temp, context) := use
  if context.isUse = false then .ok self
  else
    match self.pendingActivations.get temp with
    | none => .ok self
    | some borrowIndex => do
      let borrowData ← unwrap (self.locationMap.getAt borrowIndex)
      if borrowData.reserveLocation = location ∧ context = .mutatingUse .store then return self
      else
        match borrowData.activationLocation with
        | .activatedAt _ => .error (.message "found two uses for 2-phase borrow temporary")
        | activationLocation => do
          assert (activationLocation = .notActivated)
          return { self with
            activationMap := self.activationMap.entryPush location borrowIndex
            locationMap := self.locationMap.modifyAt borrowIndex fun data =>
              { data with activationLocation := .activatedAt location } }

/-- The checks of `visit_rvalue`. -/
def checkRvalue (self : GatherBorrows) (location : Location) : Rvalue → Res Unit
  | .ref region kind place => do
    let borrowData ← unwrap (self.locationMap.get location)
    assert (borrowData.reserveLocation = location)
    assert (borrowData.kind = kind)
    let vid ← asVar region
    assert (borrowData.region = vid)
    assert (borrowData.borrowedPlace = place)
  | _ => .ok ()

/-- `super_assign`, with `visit_rvalue` for the rvalue. -/
def superAssign (visitor : MirVisitor) (self : GatherBorrows) (assignedPlace : Place)
    (rvalue : Rvalue) (location : Location) : Res GatherBorrows := do
  let self ← (visitor.ofPlace assignedPlace (.mutatingUse .store)).foldlM (visitLocal location) self
  self.checkRvalue location rvalue
  (visitor.ofRvalue rvalue).foldlM (visitLocal location) self

/-- The part of `visit_assign` that records a borrow. -/
def recordBorrow (self : GatherBorrows) (assignedPlace : Place) (region : RegionVid)
    (kind : BorrowKind) (borrowedPlace : Place) (location : Location) : Res GatherBorrows := do
  let borrow : BorrowData := {
    reserveLocation := location
    activationLocation := .notTwoPhase
    kind, region, borrowedPlace, assignedPlace }
  let (idx, locationMap) := self.locationMap.insertFull location borrow
  let self ← { self with locationMap }.insertAsPendingIfTwoPhase assignedPlace kind idx
  return { self with localMap := self.localMap.entryInsert borrowedPlace.local idx }

/-- `visit_assign`. -/
def visitAssign (cx : PlaceCtxt) (localsStateAtExit : LocalsStateAtExit) (visitor : MirVisitor)
    (self : GatherBorrows) (assignedPlace : Place) (rvalue : Rvalue) (location : Location) :
    Res GatherBorrows :=
  match rvalue with
  | .ref region kind borrowedPlace => do
    if ← ignoreBorrow cx borrowedPlace localsStateAtExit then return self
    else
      let vid ← asVar region
      let self ← self.recordBorrow assignedPlace vid kind borrowedPlace location
      self.superAssign visitor assignedPlace rvalue location
  | _ => self.superAssign visitor assignedPlace rvalue location

/-- `visit_statement` and `visit_terminator`. -/
def visit (cx : PlaceCtxt) (localsStateAtExit : LocalsStateAtExit) (visitor : MirVisitor)
    (self : GatherBorrows) (entry : Location × Executed) : Res GatherBorrows :=
  match entry.2 with
  | .statement ⟨_, .assign assignedPlace rvalue⟩ =>
    self.visitAssign cx localsStateAtExit visitor assignedPlace rvalue entry.1
  | .statement ⟨_, kind⟩ => (visitor.ofStatement kind).foldlM (visitLocal entry.1) self
  | .terminator ⟨_, kind⟩ => (visitor.ofTerminator kind).foldlM (visitLocal entry.1) self

end GatherBorrows

/-- `BorrowSet::build`, for the blocks in the order of rustc's preorder traversal. -/
def BorrowSet.build (cx : PlaceCtxt) (localsStateAtExit : LocalsStateAtExit)
    (visitor : MirVisitor) (body : Body) (preorder : List BasicBlock) : Res BorrowSet := do
  let gathered ← preorder.foldlM (fun (self : GatherBorrows) block => do
    let data ← index body.basicBlocks block
    (data.executed block).foldlM (GatherBorrows.visit cx localsStateAtExit visitor) self) .empty
  return {
    locationMap := gathered.locationMap
    activationMap := gathered.activationMap
    localMap := gathered.localMap
    localsStateAtExit }

/-! ## What is gathered -/

/-- The borrow as it was recorded, before any activation. -/
def BorrowData.issued (data : BorrowData) : BorrowData :=
  { data with activationLocation := .notTwoPhase }

/-- The borrow that a statement or terminator makes and that the borrow checker tracks. -/
def trackedBorrow (cx : PlaceCtxt) (localsStateAtExit : LocalsStateAtExit)
    (entry : Location × Executed) : Option BorrowData :=
  match entry.2 with
  | .statement ⟨_, .assign assigned (.ref (.reVar region) kind borrowed)⟩ =>
    match ignoreBorrow cx borrowed localsStateAtExit with
    | .ok false => some ⟨entry.1, .notTwoPhase, kind, region, borrowed, assigned⟩
    | _ => none
  | _ => none

theorem reserveLocation_of_trackedBorrow {cx : PlaceCtxt}
    {localsStateAtExit : LocalsStateAtExit} {entry : Location × Executed} {data : BorrowData}
    (h : trackedBorrow cx localsStateAtExit entry = some data) :
    data.reserveLocation = entry.1 := by
  unfold trackedBorrow at h
  split at h
  · split at h
    · cases h
      rfl
    · cases h
  · cases h

/-- The maps agree on the borrows: a borrow is found by its location and by the local it
    borrows from, a two-phase borrow is one that is activated, and it is so where its
    data say. -/
structure BorrowMaps (locationMap : IndexMap Location BorrowData)
    (activationMap : IndexMap Location (List BorrowIndex))
    (localMap : IndexMap Local (List BorrowIndex)) : Prop where
  keys : locationMap.keys.Nodup
  reserved : ∀ i data, locationMap.getAt i = some data →
    locationMap.keys[i]? = some data.reserveLocation
  twoPhase : ∀ i data, locationMap.getAt i = some data →
    (data.activationLocation = .notTwoPhase ↔ allowTwoPhaseBorrow data.kind = false)
  activations : ∀ location i, i ∈ (activationMap.get location).getD [] ↔
    ∃ data, locationMap.getAt i = some data ∧ data.activationLocation = .activatedAt location
  activationsNodup : ∀ location, ((activationMap.get location).getD []).Nodup
  locals : ∀ l i, i ∈ (localMap.get l).getD [] ↔
    ∃ data, locationMap.getAt i = some data ∧ data.borrowedPlace.local = l
  localsNodup : ∀ l, ((localMap.get l).getD []).Nodup

section BorrowMaps

variable {locationMap : IndexMap Location BorrowData}
  {activationMap : IndexMap Location (List BorrowIndex)}
  {localMap : IndexMap Local (List BorrowIndex)} {i : BorrowIndex} {data : BorrowData}

/-- The data of the borrows after one of them was given an activation. -/
theorem getAt_setActivation (hdata : locationMap.getAt i = some data)
    (activation : TwoPhaseActivation) (j : BorrowIndex) :
    (locationMap.modifyAt i fun data => { data with activationLocation := activation }).getAt j =
      if i = j then some { data with activationLocation := activation }
      else locationMap.getAt j := by
  rw [IndexMap.getAt_modifyAt]
  by_cases h : i = j
  · rw [if_pos h, if_pos h, ← h, hdata, Option.map_some]
  · rw [if_neg h, if_neg h]

/-- A two-phase borrow that is not activated yet can be. -/
theorem BorrowMaps.activate (h : BorrowMaps locationMap activationMap localMap)
    (hdata : locationMap.getAt i = some data) (htwo : allowTwoPhaseBorrow data.kind = true)
    (hactivation : data.activationLocation = .notActivated) (location : Location) :
    BorrowMaps (locationMap.modifyAt i fun data =>
        { data with activationLocation := .activatedAt location })
      (activationMap.entryPush location i) localMap := by
  have hget := getAt_setActivation hdata (.activatedAt location)
  -- it is not among the activated ones so far
  have hfresh : ∀ location', i ∉ (activationMap.get location').getD [] := by
    intro location' hi
    obtain ⟨data', hdata', hactivated⟩ := (h.activations location' i).mp hi
    rw [hdata] at hdata'
    cases hdata'
    rw [hactivation] at hactivated
    cases hactivated
  refine ⟨?_, ?_, ?_, ?_, ?_, ?_, h.localsNodup⟩
  · rw [IndexMap.keys_modifyAt]
    exact h.keys
  · intro j data' hj
    rw [hget] at hj
    rw [IndexMap.keys_modifyAt]
    by_cases hij : i = j
    · rw [if_pos hij] at hj
      cases hj
      exact hij ▸ h.reserved i data hdata
    · rw [if_neg hij] at hj
      exact h.reserved j data' hj
  · intro j data' hj
    rw [hget] at hj
    by_cases hij : i = j
    · rw [if_pos hij] at hj
      cases hj
      simp [htwo]
    · rw [if_neg hij] at hj
      exact h.twoPhase j data' hj
  · intro location' j
    rw [IndexMap.get_entryPush, hget]
    by_cases hij : i = j
    · subst hij
      by_cases hloc : location' = location
      · simp [hloc]
      · have hne : location ≠ location' := fun heq => hloc heq.symm
        simp [hloc, hne, hfresh location']
    · rw [if_neg hij, ← h.activations]
      by_cases hloc : location' = location
      · simp [hloc, Ne.symm hij]
      · simp [hloc]
  · intro location'
    rw [IndexMap.get_entryPush]
    by_cases hloc : location' = location
    · rw [if_pos hloc]
      refine List.nodup_append.mpr ⟨h.activationsNodup location, List.nodup_singleton i, ?_⟩
      rintro j hj k hk rfl
      exact hfresh location (List.mem_singleton.mp hk ▸ hj)
    · rw [if_neg hloc]
      exact h.activationsNodup location'
  · intro l j
    rw [h.locals, hget]
    by_cases hij : i = j
    · subst hij
      simp [hdata]
    · rw [if_neg hij]

/-- A borrow of a new location can be recorded under the next index. -/
theorem BorrowMaps.record (h : BorrowMaps locationMap activationMap localMap)
    (hfresh : data.reserveLocation ∉ locationMap.keys)
    (htwo : data.activationLocation = .notTwoPhase ↔ allowTwoPhaseBorrow data.kind = false)
    (hactivation : ∀ location, data.activationLocation ≠ .activatedAt location) :
    BorrowMaps (locationMap.insert data.reserveLocation data) activationMap
      (localMap.entryInsert data.borrowedPlace.local locationMap.len) := by
  have hget := IndexMap.getAt_insert hfresh data
  have hlt : ∀ {j data'}, locationMap.getAt j = some data' → j ≠ locationMap.len :=
    fun hj => (IndexMap.getAt_lt hj).ne
  have hkeys : (locationMap.insert data.reserveLocation data).keys =
      locationMap.keys ++ [data.reserveLocation] := by
    rw [IndexMap.keys_insert, if_neg hfresh]
  -- the next index is not in use
  have hnone : locationMap.getAt locationMap.len = none := by
    cases hlast : locationMap.getAt locationMap.len with
    | none => rfl
    | some data' => exact absurd rfl (hlt hlast)
  have hunused : locationMap.len ∉ (localMap.get data.borrowedPlace.local).getD [] := by
    intro hmem
    obtain ⟨data', hdata', -⟩ := (h.locals _ _).mp hmem
    rw [hnone] at hdata'
    cases hdata'
  refine ⟨IndexMap.nodup_keys_insert h.keys _ _, ?_, ?_, ?_, h.activationsNodup, ?_, ?_⟩
  · intro j data' hj
    rw [hget] at hj
    rw [hkeys]
    by_cases hlast : j = locationMap.len
    · rw [if_pos hlast] at hj
      cases hj
      rw [hlast, ← IndexMap.keys_length, List.getElem?_concat_length]
    · rw [if_neg hlast] at hj
      rw [List.getElem?_append_left (IndexMap.keys_length locationMap ▸ IndexMap.getAt_lt hj)]
      exact h.reserved j data' hj
  · intro j data' hj
    rw [hget] at hj
    by_cases hlast : j = locationMap.len
    · rw [if_pos hlast] at hj
      cases hj
      exact htwo
    · rw [if_neg hlast] at hj
      exact h.twoPhase j data' hj
  · intro location j
    rw [h.activations, hget]
    by_cases hlast : j = locationMap.len
    · rw [if_pos hlast, hlast, hnone]
      simp [hactivation]
    · rw [if_neg hlast]
  · intro l j
    rw [IndexMap.get_entryInsert, if_neg hunused, hget]
    by_cases hl : l = data.borrowedPlace.local
    · subst hl
      rw [if_pos rfl, List.mem_append, h.locals, List.mem_singleton]
      by_cases hlast : j = locationMap.len
      · simp [hlast]
      · simp [hlast]
    · rw [if_neg hl, h.locals]
      by_cases hlast : j = locationMap.len
      · simp [hlast, hnone, Ne.symm hl]
      · rw [if_neg hlast]
  · intro l
    rw [IndexMap.get_entryInsert, if_neg hunused]
    by_cases hl : l = data.borrowedPlace.local
    · rw [if_pos hl]
      refine List.nodup_append.mpr ⟨h.localsNodup _, List.nodup_singleton _, ?_⟩
      rintro j hj k hk rfl
      exact hunused (List.mem_singleton.mp hk ▸ hj)
    · rw [if_neg hl]
      exact h.localsNodup l

end BorrowMaps

namespace GatherBorrows

/-- What gathering keeps. -/
structure Inv (gathered : GatherBorrows) : Prop where
  maps : BorrowMaps gathered.locationMap gathered.activationMap gathered.localMap
  pending : ∀ temp i, gathered.pendingActivations.get temp = some i →
    ∃ data, gathered.locationMap.getAt i = some data ∧ allowTwoPhaseBorrow data.kind = true

theorem Inv.empty : Inv empty := by
  have hnone : ∀ i, (IndexMap.empty : IndexMap Location BorrowData).getAt i = none := fun i => rfl
  refine ⟨⟨List.nodup_nil, ?_, ?_, ?_, fun _ => List.nodup_nil, ?_, fun _ => List.nodup_nil⟩, ?_⟩
  · intro i data h
    rw [GatherBorrows.empty, hnone] at h
    cases h
  · intro i data h
    rw [GatherBorrows.empty, hnone] at h
    cases h
  · intro location i
    simp [GatherBorrows.empty, hnone]
  · intro l i
    simp [GatherBorrows.empty, hnone]
  · intro temp i h
    cases h

/-- The borrows recorded so far. -/
def issued (self : GatherBorrows) : List BorrowData :=
  self.locationMap.entries.map fun entry => entry.2.issued

theorem getElem?_issued (self : GatherBorrows) (i : Nat) :
    self.issued[i]? = (self.locationMap.getAt i).map BorrowData.issued := by
  rw [issued, List.getElem?_map, IndexMap.getAt, Option.map_map]
  rfl

/-- A use of a local activates at most one borrow, and nothing else changes. -/
theorem visitLocal_inv {self self' : GatherBorrows} (hinv : self.Inv) {location : Location}
    {use : Local × PlaceContext} (h : self.visitLocal location use = .ok self') :
    self'.Inv ∧ self'.issued = self.issued := by
  obtain ⟨temp, context⟩ := use
  unfold visitLocal at h
  dsimp only at h
  by_cases huse : context.isUse = false
  · rw [if_pos huse] at h
    cases h
    exact ⟨hinv, rfl⟩
  rw [if_neg huse] at h
  cases hpending : self.pendingActivations.get temp with
  | none =>
    rw [hpending] at h
    cases h
    exact ⟨hinv, rfl⟩
  | some i =>
    obtain ⟨data, hdata, htwo⟩ := hinv.pending temp i hpending
    rw [hpending] at h
    simp only [hdata, unwrap_some, Res.ok_bind] at h
    by_cases hstore : data.reserveLocation = location ∧ context = .mutatingUse .store
    · rw [if_pos hstore] at h
      cases h
      exact ⟨hinv, rfl⟩
    rw [if_neg hstore] at h
    cases hactivation : data.activationLocation with
    | notTwoPhase =>
      rw [hactivation] at h
      cases h
    | activatedAt other =>
      rw [hactivation] at h
      cases h
    | notActivated =>
      rw [hactivation] at h
      cases h
      have hget := getAt_setActivation hdata (.activatedAt location)
      refine ⟨⟨hinv.maps.activate hdata htwo hactivation location, fun temp' j hj => ?_⟩, ?_⟩
      · obtain ⟨data', hdata', htwo'⟩ := hinv.pending temp' j hj
        dsimp only
        rw [hget]
        by_cases hij : i = j
        · exact ⟨_, if_pos hij, htwo⟩
        · exact ⟨data', (if_neg hij).trans hdata', htwo'⟩
      · refine List.ext_getElem? fun j => ?_
        rw [getElem?_issued, getElem?_issued, hget]
        by_cases hij : i = j
        · rw [if_pos hij, ← hij, hdata]
          rfl
        · rw [if_neg hij]

/-- The borrows recorded so far have the keys as their locations. -/
theorem Inv.keys_eq {self : GatherBorrows} (hinv : self.Inv) :
    self.locationMap.keys = self.issued.map BorrowData.reserveLocation := by
  refine List.ext_getElem? fun i => ?_
  rw [List.getElem?_map, getElem?_issued]
  cases hdata : self.locationMap.getAt i with
  | none =>
    rw [IndexMap.getAt, Option.map_eq_none_iff] at hdata
    rw [IndexMap.keys, List.getElem?_map, hdata]
    rfl
  | some data => exact hinv.maps.reserved i data hdata

/-- What recording a borrow does, by whether it is a two-phase one. -/
theorem recordBorrow_cases {self self' : GatherBorrows} {assigned borrowed : Place}
    {region : RegionVid} {kind : BorrowKind} {location : Location}
    (hfresh : location ∉ self.locationMap.keys)
    (h : self.recordBorrow assigned region kind borrowed location = .ok self') :
    ∃ activation pending, self' = {
        locationMap := self.locationMap.insert location
          ⟨location, activation, kind, region, borrowed, assigned⟩
        activationMap := self.activationMap
        localMap := self.localMap.entryInsert borrowed.local self.locationMap.len
        pendingActivations := pending } ∧
      (allowTwoPhaseBorrow kind = false ∧ activation = .notTwoPhase ∧
          pending = self.pendingActivations ∨
        allowTwoPhaseBorrow kind = true ∧ activation = .notActivated ∧
          ∃ temp, pending = self.pendingActivations.insert temp self.locationMap.len) := by
  unfold recordBorrow at h
  simp only [IndexMap.insertFull_of_notMem hfresh] at h
  obtain ⟨recorded, hrecorded, h⟩ := Res.bind_inv h
  cases h
  unfold insertAsPendingIfTwoPhase at hrecorded
  by_cases htwo : allowTwoPhaseBorrow kind = false
  · rw [if_pos htwo] at hrecorded
    cases hrecorded
    exact ⟨_, _, rfl, .inl ⟨htwo, rfl, rfl⟩⟩
  · rw [if_neg htwo] at hrecorded
    have hallow : allowTwoPhaseBorrow kind = true := by simpa using htwo
    cases htemp : asLocal assigned with
    | none =>
      rw [htemp] at hrecorded
      cases hrecorded
    | some temp =>
      cases hpending : self.pendingActivations.get temp with
      | some _ =>
        simp only [htemp, hpending] at hrecorded
        cases hrecorded
      | none =>
        simp only [htemp, hpending, IndexMap.modifyAt_insert hfresh] at hrecorded
        cases hrecorded
        exact ⟨_, _, rfl, .inr ⟨hallow, rfl, temp, rfl⟩⟩

/-- Recording a borrow adds it last and keeps the invariant. -/
theorem recordBorrow_inv {self self' : GatherBorrows} (hinv : self.Inv)
    {assigned borrowed : Place} {region : RegionVid} {kind : BorrowKind} {location : Location}
    (hfresh : location ∉ self.issued.map BorrowData.reserveLocation)
    (h : self.recordBorrow assigned region kind borrowed location = .ok self') :
    self'.Inv ∧
      self'.issued =
        self.issued ++ [⟨location, .notTwoPhase, kind, region, borrowed, assigned⟩] := by
  rw [← hinv.keys_eq] at hfresh
  obtain ⟨activation, pending, rfl, hcases⟩ := recordBorrow_cases hfresh h
  have hdata := IndexMap.getAt_insert hfresh
    (⟨location, activation, kind, region, borrowed, assigned⟩ : BorrowData)
  refine ⟨⟨?_, fun temp i hi => ?_⟩, ?_⟩
  · refine @BorrowMaps.record _ _ _ ⟨location, activation, kind, region, borrowed, assigned⟩
      hinv.maps hfresh ?_ ?_
    · rcases hcases with ⟨hallow, rfl, -⟩ | ⟨hallow, rfl, -⟩
      · simp [hallow]
      · simp [hallow]
    · rcases hcases with ⟨-, rfl, -⟩ | ⟨-, rfl, -⟩
      · simp
      · simp
  · -- a pending borrow is an earlier one or the new one
    have hearlier : self.pendingActivations.get temp = some i →
        ∃ data, (self.locationMap.insert location
            ⟨location, activation, kind, region, borrowed, assigned⟩).getAt i = some data ∧
          allowTwoPhaseBorrow data.kind = true := by
      intro hi
      obtain ⟨data, hat, htwo⟩ := hinv.pending temp i hi
      exact ⟨data, by rw [hdata, if_neg (IndexMap.getAt_lt hat).ne, hat], htwo⟩
    rcases hcases with ⟨-, -, rfl⟩ | ⟨hallow, -, temp', rfl⟩
    · exact hearlier hi
    · dsimp only at hi
      rw [IndexMap.get_insert] at hi
      by_cases htemp : temp = temp'
      · rw [if_pos htemp] at hi
        cases hi
        exact ⟨_, by rw [hdata, if_pos rfl], hallow⟩
      · rw [if_neg htemp] at hi
        exact hearlier hi
  · rw [issued, IndexMap.insert_of_notMem hfresh, List.map_append]
    rfl

/-! ## One visit -/

theorem foldlM_visitLocal_inv {location : Location} {uses : List (Local × PlaceContext)}
    {self self' : GatherBorrows} (hinv : self.Inv)
    (h : uses.foldlM (visitLocal location) self = .ok self') :
    self'.Inv ∧ self'.issued = self.issued := by
  refine Res.foldlM_induct (fun _ gathered => gathered.Inv ∧ gathered.issued = self.issued)
    (fun seen use rest before after _ hbefore hstep => ?_) ⟨hinv, rfl⟩ h
  obtain ⟨hafter, hissued⟩ := visitLocal_inv hbefore.1 hstep
  exact ⟨hafter, hissued.trans hbefore.2⟩

theorem superAssign_inv {visitor : MirVisitor} {assigned : Place} {rvalue : Rvalue}
    {location : Location} {self self' : GatherBorrows} (hinv : self.Inv)
    (h : self.superAssign visitor assigned rvalue location = .ok self') :
    self'.Inv ∧ self'.issued = self.issued := by
  obtain ⟨visited, hvisited, h⟩ := Res.bind_inv h
  obtain ⟨-, -, h⟩ := Res.bind_inv h
  obtain ⟨hvisitedInv, hissued⟩ := foldlM_visitLocal_inv hinv hvisited
  obtain ⟨hinv', hissued'⟩ := foldlM_visitLocal_inv hvisitedInv h
  exact ⟨hinv', hissued'.trans hissued⟩

/-- A visit records the borrow of its statement, if that is tracked, and no other. -/
theorem visit_inv {cx : PlaceCtxt} {localsStateAtExit : LocalsStateAtExit}
    {visitor : MirVisitor} {entry : Location × Executed} {self self' : GatherBorrows}
    (hinv : self.Inv) (hfresh : entry.1 ∉ self.issued.map BorrowData.reserveLocation)
    (h : self.visit cx localsStateAtExit visitor entry = .ok self') :
    self'.Inv ∧ self'.issued =
      self.issued ++ (trackedBorrow cx localsStateAtExit entry).toList := by
  -- without a borrow there are only uses of locals
  have huses : ∀ {after : GatherBorrows}, after.Inv ∧ after.issued = self.issued →
      trackedBorrow cx localsStateAtExit entry = none →
      after.Inv ∧ after.issued =
        self.issued ++ (trackedBorrow cx localsStateAtExit entry).toList := by
    intro after hafter hnone
    rw [hnone, Option.toList_none, List.append_nil]
    exact hafter
  obtain ⟨location, executed⟩ := entry
  revert h
  fun_cases visit cx localsStateAtExit visitor self ⟨location, executed⟩ with
  | case1 info assigned rvalue hexecuted =>
    dsimp only at hexecuted
    subst hexecuted
    fun_cases visitAssign cx localsStateAtExit visitor self assigned rvalue location with
    | case1 region kind borrowed =>
      intro h
      obtain ⟨ignored, hignored, h⟩ := Res.bind_inv h
      cases ignored with
      | true =>
        cases h
        refine huses ⟨hinv, rfl⟩ ?_
        cases region with
        | reVar vid => simp only [trackedBorrow, hignored]
        | _ => rfl
      | false =>
        rw [if_neg Bool.false_ne_true] at h
        cases region with
        | reVar vid =>
          obtain ⟨_, hvid, h⟩ := Res.bind_inv h
          cases hvid
          obtain ⟨recorded, hrecorded, h⟩ := Res.bind_inv h
          obtain ⟨hrecordedInv, hrecordedIssued⟩ := recordBorrow_inv hinv hfresh hrecorded
          obtain ⟨hinv', hissued'⟩ := superAssign_inv hrecordedInv h
          simp only [trackedBorrow, hignored]
          exact ⟨hinv', hissued'.trans hrecordedIssued⟩
        | _ => cases h
    | case2 rvalue hrvalue =>
      intro h
      refine huses (superAssign_inv hinv h) ?_
      cases rvalue with
      | ref region kind borrowed => exact absurd rfl (hrvalue region kind borrowed)
      | _ => rfl
  | case2 info kind hkind hexecuted =>
    dsimp only at hexecuted
    subst hexecuted
    intro h
    refine huses (foldlM_visitLocal_inv hinv h) ?_
    cases kind with
    | assign assigned rvalue => exact absurd rfl (hkind assigned rvalue)
    | _ => rfl
  | case3 info kind hexecuted =>
    dsimp only at hexecuted
    subst hexecuted
    intro h
    exact huses (foldlM_visitLocal_inv hinv h) rfl

end GatherBorrows

/-! ## The whole body -/

/-- The statements and terminators of the blocks, in the order in which they are visited. -/
def visits (body : Body) (preorder : List BasicBlock) : List (Location × Executed) :=
  preorder.flatMap fun bb => (body.basicBlocks[bb]?).toList.flatMap fun data => data.executed bb

theorem nodup_visits (body : Body) {preorder : List BasicBlock} (h : preorder.Nodup) :
    ((visits body preorder).map Prod.fst).Nodup := by
  rw [visits, List.map_flatMap, List.nodup_flatMap]
  refine ⟨fun bb _ => ?_, h.imp fun {bb bb'} hne => ?_⟩
  · cases body.basicBlocks[bb]? with
    | none => exact List.nodup_nil
    | some data =>
      rw [Option.toList_some, List.flatMap_singleton]
      exact data.nodup_executed bb
  · -- locations of different blocks differ
    have hblock : ∀ {b : BasicBlock} {loc : Location},
        loc ∈ ((body.basicBlocks[b]?).toList.flatMap fun data : BasicBlockData =>
          data.executed b).map Prod.fst → loc.block = b := by
      intro b loc hloc
      obtain ⟨⟨loc', e⟩, hentry, rfl⟩ := List.mem_map.mp hloc
      obtain ⟨data, -, hmem⟩ := List.mem_flatMap.mp hentry
      exact (BasicBlockData.mem_executed.mp hmem).1
    intro loc hloc hloc'
    exact hne ((hblock hloc).symm.trans (hblock hloc'))

/-- Visiting block by block is visiting everything in order. -/
theorem foldlM_visits {cx : PlaceCtxt} {localsStateAtExit : LocalsStateAtExit}
    {visitor : MirVisitor} {body : Body} {preorder : List BasicBlock}
    {self gathered : GatherBorrows}
    (h : preorder.foldlM (fun (self : GatherBorrows) block => do
      let data ← index body.basicBlocks block
      (data.executed block).foldlM (GatherBorrows.visit cx localsStateAtExit visitor) self) self =
        .ok gathered) :
    (visits body preorder).foldlM (GatherBorrows.visit cx localsStateAtExit visitor) self =
      .ok gathered := by
  induction preorder generalizing self with
  | nil => exact h
  | cons bb rest ih =>
    rw [List.foldlM_cons] at h
    obtain ⟨reached, hreached, h⟩ := Res.bind_inv h
    obtain ⟨data, hdata, hreached⟩ := Res.bind_inv hreached
    have hblock : body.basicBlocks[bb]? = some data := index_eq_ok.mp hdata
    rw [visits, List.flatMap_cons, List.foldlM_append, hblock, Option.toList_some,
      List.flatMap_singleton, hreached]
    exact ih h

/-- What is gathered from a body: the tracked borrows in the order of the visit. -/
theorem GatherBorrows.build_inv {cx : PlaceCtxt} {localsStateAtExit : LocalsStateAtExit}
    {visitor : MirVisitor} {body : Body} {preorder : List BasicBlock}
    {gathered : GatherBorrows} (hpreorder : preorder.Nodup)
    (h : (visits body preorder).foldlM (GatherBorrows.visit cx localsStateAtExit visitor) .empty =
      .ok gathered) :
    gathered.Inv ∧
      gathered.issued = (visits body preorder).filterMap (trackedBorrow cx localsStateAtExit) := by
  refine Res.foldlM_induct (fun seen gathered => gathered.Inv ∧
      gathered.issued = seen.filterMap (trackedBorrow cx localsStateAtExit))
    (fun seen entry rest before after hall hbefore hstep => ?_) ⟨Inv.empty, rfl⟩ h
  obtain ⟨hinv, hissued⟩ := hbefore
  have hfresh : entry.1 ∉ before.issued.map BorrowData.reserveLocation := by
    intro hmem
    rw [hissued] at hmem
    obtain ⟨data, hdata, hloc⟩ := List.mem_map.mp hmem
    obtain ⟨entry', hentry', htracked⟩ := List.mem_filterMap.mp hdata
    have hnodup := nodup_visits body hpreorder
    rw [hall, List.map_append, List.map_cons, List.nodup_append] at hnodup
    refine hnodup.2.2 _ (List.mem_map_of_mem hentry') _ List.mem_cons_self ?_
    rw [← hloc, reserveLocation_of_trackedBorrow htracked]
  obtain ⟨hinv', hissued'⟩ := visit_inv hinv hfresh hstep
  refine ⟨hinv', ?_⟩
  rw [hissued', hissued, List.filterMap_append]
  cases htracked : trackedBorrow cx localsStateAtExit entry with
  | none => simp [htracked]
  | some data => simp [htracked]

/-- The borrow set of a body. -/
theorem BorrowSet.gathered_of_build {cx : PlaceCtxt} {localsStateAtExit : LocalsStateAtExit}
    {visitor : MirVisitor} {body : Body} {preorder : List BasicBlock} {set : BorrowSet}
    (hpreorder : preorder.Nodup)
    (h : BorrowSet.build cx localsStateAtExit visitor body preorder = .ok set) :
    BorrowMaps set.locationMap set.activationMap set.localMap ∧
      set.localsStateAtExit = localsStateAtExit ∧
      set.locationMap.entries.map (fun entry => entry.2.issued) =
        (visits body preorder).filterMap (trackedBorrow cx localsStateAtExit) := by
  obtain ⟨gathered, hgathered, h⟩ := Res.bind_inv h
  cases h
  obtain ⟨hinv, hissued⟩ := GatherBorrows.build_inv hpreorder (foldlM_visits hgathered)
  exact ⟨hinv.maps, rfl, hissued⟩

/-- A borrow of the set was made by a statement of a visited block. -/
theorem BorrowSet.made_of_build {cx : PlaceCtxt} {localsStateAtExit : LocalsStateAtExit}
    {visitor : MirVisitor} {body : Body} {preorder : List BasicBlock} {set : BorrowSet}
    (hpreorder : preorder.Nodup)
    (h : BorrowSet.build cx localsStateAtExit visitor body preorder = .ok set)
    {i : BorrowIndex} {data : BorrowData} (hdata : set.locationMap.getAt i = some data) :
    ∃ executed, (data.reserveLocation, executed) ∈ visits body preorder ∧
      trackedBorrow cx localsStateAtExit (data.reserveLocation, executed) = some data.issued := by
  obtain ⟨-, -, hissued⟩ := BorrowSet.gathered_of_build hpreorder h
  have hmem : data.issued ∈ set.locationMap.entries.map fun entry => entry.2.issued := by
    obtain ⟨entry, hentry, rfl⟩ := Option.map_eq_some_iff.mp hdata
    exact List.mem_map.mpr ⟨entry, List.mem_of_getElem? hentry, rfl⟩
  rw [hissued] at hmem
  obtain ⟨⟨location, executed⟩, hvisit, htracked⟩ := List.mem_filterMap.mp hmem
  have hlocation : data.reserveLocation = location := reserveLocation_of_trackedBorrow htracked
  exact ⟨executed, hlocation ▸ hvisit, hlocation ▸ htracked⟩

end MutationTesting.Borrowck
