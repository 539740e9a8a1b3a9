/-
  MutationTesting.Borrowck.Conflict

  Which accesses are reported to conflict with a borrow (`check_access_for_conflict` in
  `borrowck/src/lib.rs`, over `each_borrow_involving_path` and `is_active` in
  `borrowck/src/path_utils.rs`): of the borrows in scope, the first one that the access
  conflicts with and is not compatible with.
-/
import MutationTesting.Borrowck.Borrows

namespace MutationTesting.Borrowck

open MutationTesting.Rust MutationTesting.Mir MutationTesting.Graph Relation

/-! ## Active borrows -/

/-- `Location::dominates`, from the dominators of the blocks. -/
def dominates (dominators : BasicBlock → BasicBlock → Bool) (self other : Location) : Bool :=
  if self.block = other.block then decide (self.statementIndex ≤ other.statementIndex)
  else dominators self.block other.block

/-- `Location::successor_within_block`. -/
def successorWithinBlock (self : Location) : Location :=
  { self with statementIndex := self.statementIndex + 1 }

/-- `is_active`. -/
def isActive (dominators : BasicBlock → BasicBlock → Bool) (borrowData : BorrowData)
    (location : Location) : Bool :=
  match borrowData.activationLocation with
  | .notTwoPhase => true
  | .notActivated => false
  | .activatedAt loc =>
    if dominates dominators loc location then true
    else !dominates dominators (successorWithinBlock borrowData.reserveLocation) location

/-! ## The loop over the borrows -/

inductive Control where
  | continue
  | break
  deriving DecidableEq

/-- The loop of `each_borrow_involving_path`. -/
def eachBorrow {σ : Type} (cx : PlaceCtxt) (access : AccessDepth) (place : Place)
    (borrowSet : BorrowSet) (isCandidate : BorrowIndex → Bool)
    (op : σ → BorrowIndex → BorrowData → Res (Control × σ)) : List BorrowIndex → σ → Res σ
  | [], s => .ok s
  | i :: rest, s =>
    if isCandidate i = false then eachBorrow cx access place borrowSet isCandidate op rest s
    else do
      let borrowed ← borrowSet.get i
      if ← borrowConflictsWithPlace cx borrowed.borrowedPlace borrowed.kind place access .overlap
      then
        match ← op s i borrowed with
        | (.break, s) => return s
        | (.continue, s) => eachBorrow cx access place borrowSet isCandidate op rest s
      else eachBorrow cx access place borrowSet isCandidate op rest s

/-- `each_borrow_involving_path`. -/
def eachBorrowInvolvingPath {σ : Type} (s : σ) (cx : PlaceCtxt) (access : AccessDepth)
    (place : Place) (borrowSet : BorrowSet) (isCandidate : BorrowIndex → Bool)
    (op : σ → BorrowIndex → BorrowData → Res (Control × σ)) : Res σ :=
  match borrowSet.localMap.get place.local with
  | none => .ok s
  | some borrowsForPlaceBase =>
    eachBorrow cx access place borrowSet isCandidate op borrowsForPlaceBase s

/-! ## Reports -/

/-- The report that is made of a borrow. -/
inductive ConflictReport where
  | useWhileMutablyBorrowed (borrow : BorrowIndex)
  | conflictingBorrow (kind : BorrowKind) (borrow : BorrowIndex)
  | borrowedValueDoesNotLiveLongEnough (borrow : BorrowIndex)
  | illegalMutationOfBorrowed (borrow : BorrowIndex)
  | moveOutWhileBorrowed (borrow : BorrowIndex)
  deriving DecidableEq

/-- What `check_access_for_conflict` writes to: whether it has reported an error, the
    places of invalid reservations, and the reports. -/
structure ConflictState where
  errorReported : Bool
  reservationErrorReported : Finset Place
  reports : List ConflictReport

def ConflictState.report (state : ConflictState) (report : ConflictReport) : ConflictState :=
  { state with errorReported := true, reports := state.reports ++ [report] }

/-- The report of a read. -/
def ReadKind.report (i : BorrowIndex) : ReadKind → ConflictReport
  | .copy => .useWhileMutablyBorrowed i
  | .borrow kind => .conflictingBorrow kind i

/-- The report of a write. -/
def WriteKind.report (i : BorrowIndex) : WriteKind → ConflictReport
  | .mutableBorrow kind => .conflictingBorrow kind i
  | .storageDeadOrDrop => .borrowedValueDoesNotLiveLongEnough i
  | .mutate => .illegalMutationOfBorrowed i
  | .move => .moveOutWhileBorrowed i
  | .replace => .illegalMutationOfBorrowed i

/-- What `check_access_for_conflict` does with a borrow that the access conflicts with. -/
def onConflict (dominators : BasicBlock → BasicBlock → Bool) (location : Location)
    (place : Place) (rw : ReadOrWrite) (state : ConflictState) (borrowIndex : BorrowIndex)
    (borrow : BorrowData) : Res (Control × ConflictState) :=
  match rw, borrow.kind with
  | .read _, .shared | .read _, .fake _ | .read (.borrow (.fake .shallow)), .mut _ =>
    .ok (.continue, state)
  | .reservation _, .fake _ | .reservation _, .shared => .ok (.continue, state)
  | .write .move, .fake .shallow => .ok (.continue, state)
  | .read kind, .mut _ =>
    if isActive dominators borrow location then
      .ok (.break, state.report (ReadKind.report borrowIndex kind))
    else do
      assert (allowTwoPhaseBorrow borrow.kind)
      return (.continue, state)
  | .activation kind activating, _ =>
    if activating = borrowIndex then .ok (.continue, state)
    else .ok (.break, state.report (WriteKind.report borrowIndex kind))
  | .reservation kind, _ =>
    .ok (.break, { state.report (WriteKind.report borrowIndex kind) with
      reservationErrorReported := insert place state.reservationErrorReported })
  | .write kind, _ => .ok (.break, state.report (WriteKind.report borrowIndex kind))

/-- `check_access_for_conflict`, for the borrows that are in scope. -/
def checkAccessForConflict (cx : PlaceCtxt) (dominators : BasicBlock → BasicBlock → Bool)
    (borrowSet : BorrowSet) (location : Location) (place : Place) (sd : AccessDepth)
    (rw : ReadOrWrite) (borrowsInScope : Finset BorrowIndex) (state : ConflictState) :
    Res ConflictState :=
  eachBorrowInvolvingPath { state with errorReported := false } cx sd place borrowSet
    (fun i => decide (i ∈ borrowsInScope)) (onConflict dominators location place rw)

/-! ## What is reported -/

/-- The access is not compatible with the borrow. -/
def Incompatible (dominators : BasicBlock → BasicBlock → Bool) (location : Location) :
    ReadOrWrite → BorrowIndex → BorrowData → Prop
  | .read kind, _, data =>
    kind ≠ .borrow (.fake .shallow) ∧ (∃ mutKind, data.kind = .mut mutKind) ∧
      isActive dominators data location = true
  | .reservation _, _, data => ∃ mutKind, data.kind = .mut mutKind
  | .write kind, _, data => kind = .move → data.kind ≠ .fake .shallow
  | .activation _ activating, i, _ => activating ≠ i

/-- A tracked borrow of a place that the access conflicts with. -/
def ConflictsWith (cx : PlaceCtxt) (set : BorrowSet) (place : Place) (sd : AccessDepth)
    (i : BorrowIndex) (data : BorrowData) : Prop :=
  set.locationMap.getAt i = some data ∧
    borrowConflictsWithPlace cx data.borrowedPlace data.kind place sd .overlap = .ok true

/-- The access is reported for one of the borrows: it is in scope, the access conflicts
    with it, and is not compatible with it. -/
def Reportable (cx : PlaceCtxt) (dominators : BasicBlock → BasicBlock → Bool) (set : BorrowSet)
    (location : Location) (place : Place) (sd : AccessDepth) (rw : ReadOrWrite)
    (scope : Finset BorrowIndex) (borrows : List BorrowIndex) : Prop :=
  ∃ i ∈ borrows, i ∈ scope ∧ ∃ data, ConflictsWith cx set place sd i data ∧
    Incompatible dominators location rw i data

/-- One report is made if there is something to report, and nothing else changes
    otherwise. -/
def Reports (state : ConflictState) (result : Res ConflictState) (reportable : Prop) : Prop :=
  reportable ∧ (∃ state' report, result = .ok state' ∧ state'.errorReported = true ∧
      state'.reports = state.reports ++ [report]) ∨
    ¬ reportable ∧ result = .ok state

section Reported

variable {cx : PlaceCtxt} {dominators : BasicBlock → BasicBlock → Bool} {set : BorrowSet}
  {location : Location} {place : Place} {sd : AccessDepth} {rw : ReadOrWrite}
  {scope : Finset BorrowIndex}

/-- A borrow that is not active is two-phase. -/
theorem allowTwoPhase_of_not_isActive (hmaps : BorrowMaps set.locationMap set.activationMap
    set.localMap) {i : BorrowIndex} {data : BorrowData}
    (hdata : set.locationMap.getAt i = some data)
    (hactive : isActive dominators data location = false) :
    allowTwoPhaseBorrow data.kind = true := by
  by_contra hnot
  have hnone := (hmaps.twoPhase i data hdata).mpr (Bool.eq_false_iff.mpr hnot)
  rw [isActive, hnone] at hactive
  cases hactive

/-- A borrow that the access conflicts with ends the loop with one report, unless they
    are compatible. -/
theorem onConflict_cases (hmaps : BorrowMaps set.locationMap set.activationMap set.localMap)
    {i : BorrowIndex} {data : BorrowData} (hdata : set.locationMap.getAt i = some data)
    (state : ConflictState) :
    Incompatible dominators location rw i data ∧ (∃ state' report,
        onConflict dominators location place rw state i data = .ok (.break, state') ∧
        state'.errorReported = true ∧ state'.reports = state.reports ++ [report]) ∨
      ¬ Incompatible dominators location rw i data ∧
        onConflict dominators location place rw state i data = .ok (.continue, state) := by
  fun_cases onConflict dominators location place rw state i data
  case case1 kind hkind => exact .inr ⟨by simp [Incompatible, hkind], rfl⟩
  case case2 kind fakeKind hkind => exact .inr ⟨by simp [Incompatible, hkind], rfl⟩
  case case3 mutKind hkind => exact .inr ⟨fun h => h.1 rfl, rfl⟩
  case case4 kind fakeKind hkind => exact .inr ⟨by simp [Incompatible, hkind], rfl⟩
  case case5 kind hkind => exact .inr ⟨by simp [Incompatible, hkind], rfl⟩
  case case6 hkind => exact .inr ⟨fun h => h rfl hkind, rfl⟩
  case case7 kind mutKind hread hkind hactive =>
    exact .inl ⟨⟨hread, ⟨mutKind, hkind⟩, hactive⟩, _, _, rfl, rfl, rfl⟩
  case case8 kind mutKind hread hkind hactive =>
    -- a reservation that is not activated yet is read over
    have htwo := allowTwoPhase_of_not_isActive hmaps hdata (Bool.eq_false_iff.mpr hactive)
    refine .inr ⟨fun h => hactive h.2.2, ?_⟩
    rw [htwo, assert_true, Res.ok_bind]
    rfl
  case case9 kind => exact .inr ⟨fun h => h rfl, rfl⟩
  case case10 kind activating hne => exact .inl ⟨hne, _, _, rfl, rfl, rfl⟩
  case case11 kind hfake hshared =>
    refine .inl ⟨?_, _, _, rfl, rfl, rfl⟩
    cases hkind : data.kind with
    | shared => exact absurd hkind hshared
    | fake fakeKind => exact absurd hkind (hfake fakeKind)
    | «mut» mutKind => exact ⟨mutKind, hkind⟩
  case case12 kind hmove =>
    exact .inl ⟨fun hkind hshallow => hmove hshallow hkind, _, _, rfl, rfl, rfl⟩

/-- Comparing the access with the borrow returns, if it is in scope. -/
def Comparable (cx : PlaceCtxt) (set : BorrowSet) (place : Place) (sd : AccessDepth)
    (scope : Finset BorrowIndex) (i : BorrowIndex) : Prop :=
  i ∈ scope → ∃ data r, set.locationMap.getAt i = some data ∧
    borrowConflictsWithPlace cx data.borrowedPlace data.kind place sd .overlap = .ok r

theorem reportable_cons {i : BorrowIndex} {rest : List BorrowIndex} :
    Reportable cx dominators set location place sd rw scope (i :: rest) ↔
      (i ∈ scope ∧ ∃ data, ConflictsWith cx set place sd i data ∧
        Incompatible dominators location rw i data) ∨
      Reportable cx dominators set location place sd rw scope rest := by
  simp only [Reportable, List.mem_cons, exists_eq_or_imp]

/-- The loop over some borrows reports one of them that it finds to report, if there
    is any. -/
theorem eachBorrow_reports (hmaps : BorrowMaps set.locationMap set.activationMap set.localMap)
    {borrows : List BorrowIndex} (hborrows : ∀ i ∈ borrows, Comparable cx set place sd scope i)
    (state : ConflictState) :
    Reports state (eachBorrow cx sd place set (fun i => decide (i ∈ scope))
        (onConflict dominators location place rw) borrows state)
      (Reportable cx dominators set location place sd rw scope borrows) := by
  induction borrows with
  | nil => exact .inr ⟨by simp [Reportable], rfl⟩
  | cons i rest ih =>
    have hrest := ih fun j hj => hborrows j (List.mem_cons_of_mem _ hj)
    rw [eachBorrow, reportable_cons]
    by_cases hscope : i ∈ scope
    · obtain ⟨data, conflict, hdata, hconflict⟩ := hborrows i List.mem_cons_self hscope
      have hget : set.get i = .ok data := by rw [BorrowSet.get, hdata]
      rw [if_neg (by simp [hscope]), hget, Res.ok_bind, hconflict, Res.ok_bind]
      cases conflict with
      | true =>
        rw [if_pos rfl]
        rcases @onConflict_cases dominators set location place rw hmaps i data hdata state with
          ⟨hbad, state', report, hrun, herror, hreports⟩ | ⟨hfine, hrun⟩
        · rw [hrun]
          exact .inl ⟨.inl ⟨hscope, data, ⟨hdata, hconflict⟩, hbad⟩, state', report, rfl,
            herror, hreports⟩
        · have hnot : ¬ (i ∈ scope ∧ ∃ data, ConflictsWith cx set place sd i data ∧
              Incompatible dominators location rw i data) := by
            rintro ⟨-, data', ⟨hdata', -⟩, hbad⟩
            rw [hdata] at hdata'
            cases hdata'
            exact hfine hbad
          rw [hrun, or_iff_right hnot]
          exact hrest
      | false =>
        have hnot : ¬ (i ∈ scope ∧ ∃ data, ConflictsWith cx set place sd i data ∧
            Incompatible dominators location rw i data) := by
          rintro ⟨-, data', ⟨hdata', hconflict'⟩, -⟩
          rw [hdata] at hdata'
          cases hdata'
          rw [hconflict] at hconflict'
          cases hconflict'
        rw [if_neg Bool.false_ne_true, or_iff_right hnot]
        exact hrest
    · rw [if_pos (by simp [hscope]), or_iff_right fun h => hscope h.1]
      exact hrest

/-- Only borrows of the accessed local conflict. -/
theorem ConflictsWith.local_eq {i : BorrowIndex} {data : BorrowData}
    (h : ConflictsWith cx set place sd i data) : data.borrowedPlace.local = place.local := by
  by_contra hne
  have hconflict := h.2
  rw [borrowConflictsWithPlace, if_pos hne] at hconflict
  cases hconflict

/-- The check returns, and reports the access if and only if some borrow in scope has lent
    a place that the access conflicts with, and the two are not compatible. -/
theorem checkAccessForConflict_reports
    (hmaps : BorrowMaps set.locationMap set.activationMap set.localMap)
    (hcompare : ∀ i data, set.locationMap.getAt i = some data →
      data.borrowedPlace.local = place.local → Comparable cx set place sd scope i)
    (state : ConflictState) :
    Reports { state with errorReported := false }
      (checkAccessForConflict cx dominators set location place sd rw scope state)
      (∃ i ∈ scope, ∃ data, ConflictsWith cx set place sd i data ∧
        Incompatible dominators location rw i data) := by
  have hlocals := hmaps.locals place.local
  have hreportable : (∃ i ∈ scope, ∃ data, ConflictsWith cx set place sd i data ∧
      Incompatible dominators location rw i data) ↔
        Reportable cx dominators set location place sd rw scope
          ((set.localMap.get place.local).getD []) := by
    constructor
    · rintro ⟨i, hscope, data, hconflict, hbad⟩
      exact ⟨i, (hlocals i).mpr ⟨data, hconflict.1, hconflict.local_eq⟩, hscope, data,
        hconflict, hbad⟩
    · rintro ⟨i, -, hscope, data, hfound⟩
      exact ⟨i, hscope, data, hfound⟩
  rw [hreportable, checkAccessForConflict, eachBorrowInvolvingPath]
  cases hbase : set.localMap.get place.local with
  | none => exact .inr ⟨by simp [Reportable], rfl⟩
  | some borrowsForPlaceBase =>
    refine eachBorrow_reports hmaps (fun i hi => ?_) _
    rw [hbase, Option.getD_some] at hlocals
    obtain ⟨data, hdata, hlocal⟩ := (hlocals i).mp hi
    exact hcompare i data hdata hlocal

end Reported

/-! ## Over the whole body -/

section Body

variable {self : Borrows} {visitor : MirVisitor} {preorder : List BasicBlock}
  {regioncx : RegionInferenceContext} {entry : BasicBlock → Finset BorrowIndex}
  {dominators : BasicBlock → BasicBlock → Bool} {location : Location} {place : Place}
  {sd : AccessDepth} {rw : ReadOrWrite} {scope : Finset BorrowIndex} {i : BorrowIndex}
  {data : BorrowData}

/-- A borrow comes to the location: a walk leads there from where it was made, within its
    region, on which nothing is written that it borrows. -/
def Borrows.ComesTo (self : Borrows) (regioncx : RegionInferenceContext) (location : Location)
    (i : BorrowIndex) (data : BorrowData) : Prop :=
  self.borrowSet.locationMap.getAt i = some data ∧
    TransGen (self.Carries regioncx data.region i) (pointOf data.reserveLocation)
      (pointOf location)

/-- An access at a location is reported if and only if a borrow comes there whose place the
    access conflicts with, and the two are not compatible. -/
theorem checkAccessForConflict_comesTo
    (hcomputed : self.Computed visitor preorder regioncx entry)
    (hlocation : InBody self.body location) (hblock : location.block ∈ preorder)
    (hscope : self.inScope entry location = .ok scope)
    (hcompare : ∀ i data, self.borrowSet.locationMap.getAt i = some data →
      data.borrowedPlace.local = place.local → Comparable self.cx self.borrowSet place sd scope i)
    (state : ConflictState) :
    Reports { state with errorReported := false }
      (checkAccessForConflict self.cx dominators self.borrowSet location place sd rw scope state)
      (∃ i data, self.ComesTo regioncx location i data ∧
        ConflictsWith self.cx self.borrowSet place sd i data ∧
        Incompatible dominators location rw i data) := by
  obtain ⟨hmaps, -, -⟩ := BorrowSet.gathered_of_build hcomputed.nodup hcomputed.build
  have hreports := @checkAccessForConflict_reports self.cx dominators self.borrowSet location
    place sd rw scope hmaps hcompare state
  have hin := Borrows.mem_inScope_iff hcomputed hlocation hblock hscope
  convert hreports using 1
  constructor
  · rintro ⟨i, data, ⟨hdata, hwalk⟩, hconflict, hbad⟩
    exact ⟨i, (hin i).mpr ⟨data, hdata, hwalk⟩, data, hconflict, hbad⟩
  · rintro ⟨i, hi, data, hconflict, hbad⟩
    obtain ⟨data', hdata', hwalk⟩ := (hin i).mp hi
    rw [hconflict.1] at hdata'
    cases hdata'
    exact ⟨i, data, ⟨hconflict.1, hwalk⟩, hconflict, hbad⟩

/-- An access that is not reported touches nothing, in no valuation, that is lent by a
    borrow which comes to its location and which it is not compatible with. -/
theorem not_touches_of_not_reported
    (hcomputed : self.Computed visitor preorder regioncx entry)
    (hlocation : InBody self.body location) (hblock : location.block ∈ preorder)
    (hscope : self.inScope entry location = .ok scope)
    (hcompare : ∀ i data, self.borrowSet.locationMap.getAt i = some data →
      data.borrowedPlace.local = place.local → Comparable self.cx self.borrowSet place sd scope i)
    {state state' : ConflictState}
    (hrun : checkAccessForConflict self.cx dominators self.borrowSet location place sd rw scope
      state = .ok state') (hnone : state'.errorReported = false)
    (hcomes : self.ComesTo regioncx location i data)
    (hbad : Incompatible dominators location rw i data) {v : Valuation} {b a : List Cell}
    (hb : self.cx.Denotes v data.borrowedPlace b) (ha : self.cx.Denotes v place a) :
    ¬ (data.borrowedPlace.local = place.local ∧ Touches sd data.kind a b) := by
  rintro ⟨hlocal, htouches⟩
  have hin := (Borrows.mem_inScope_iff hcomputed hlocation hblock hscope i).mpr ⟨data, hcomes⟩
  obtain ⟨data', r, hdata', hr⟩ := hcompare i data hcomes.1 hlocal hin
  rw [hcomes.1] at hdata'
  cases hdata'
  -- nothing is reportable, so the comparison with this borrow found no conflict
  rcases checkAccessForConflict_comesTo hcomputed hlocation hblock hscope hcompare state with
    ⟨-, state'', report, hrun', herror, -⟩ | ⟨hnot, -⟩
  · rw [hrun] at hrun'
    cases hrun'
    rw [hnone] at herror
    cases herror
  · cases r with
    | true => exact hnot ⟨i, data, hcomes, ⟨hcomes.1, hr⟩, hbad⟩
    | false => exact (borrowConflictsWithPlace_touches hb ha hr).1 rfl ⟨hlocal, htouches⟩

end Body

/-! ## A borrow that is written to -/

namespace Lent

theorem inBody (index : Nat) : InBody (body index) ⟨0, 1⟩ := ⟨Nat.one_pos, Nat.succ_pos 2⟩

/-- The borrow comes to the second statement. -/
theorem comesTo (index : Nat) : (borrows index).ComesTo regioncx ⟨0, 1⟩ 0 data := by
  refine ⟨rfl, .single ⟨.next (Nat.succ_pos 2), ?_, ?_⟩⟩
  · intro row hrow
    cases hrow
    decide
  · -- nothing has borrowed from the local that the borrow is assigned to
    rintro ⟨entry, hentry, place, hplace, killed, hkilled, hmem⟩
    cases hentry
    obtain rfl : place = .from 2 := List.mem_singleton.mp hplace
    cases hkilled
    cases hmem

/-- Whether the components are the same is found out. -/
theorem compare_component (index : Nat) :
    borrowConflictsWithPlace cx (component 0) .shared (component index) (.shallow none) .overlap =
      .ok (decide (0 = index)) := by
  match index with
  | 0 => rfl
  | _ + 1 => rfl

theorem comparable_component (index : Nat) (i : BorrowIndex) (found : BorrowData)
    (h : borrowSet.locationMap.getAt i = some found)
    (_ : found.borrowedPlace.local = (component index).local) :
    Comparable cx borrowSet (component index) (.shallow none) {0} i := by
  obtain ⟨rfl, rfl⟩ := getAt_borrowSet h
  exact fun _ => ⟨data, _, rfl, compare_component index⟩

/-- A block is dominated by itself and by the first block. -/
def dominators (b c : BasicBlock) : Bool := b = 0 || b = c

/-- What the check makes of an access to the component at the second statement. -/
def checkComponent (index : Nat) (rw : ReadOrWrite) : Res ConflictState :=
  checkAccessForConflict cx dominators borrowSet ⟨0, 1⟩ (component index) (.shallow none) rw {0}
    ⟨false, ∅, []⟩

/-- The pair holds two scalars. -/
def valuation : Valuation where
  indexOf _ := 0
  tyAt
    | [] => .tuple (.ty .usize (.ty .usize .nil))
    | _ :: _ => .usize
  lenAt _ := 0
  variantAt _ := 0

theorem denotes_component (index : Nat) :
    cx.Denotes valuation (component index) [cx.fieldCell index (valuation.tyAt [])] :=
  .cons rfl rfl (.nil _ _)

/-- A write to the other component does not touch the one that is borrowed. -/
theorem not_touches_component :
    ¬ Touches (.shallow none) .shared [cx.fieldCell 1 (valuation.tyAt [])]
      [cx.fieldCell 0 (valuation.tyAt [])] := by
  have huntouched := @not_touches_of_not_reported (borrows 1) visitor [0] regioncx (fun _ => ∅)
    dominators ⟨0, 1⟩ (component 1) (.shallow none) (.write .mutate) {0} 0 data (computed 1)
    (inBody 1) List.mem_cons_self rfl (comparable_component 1) ⟨false, ∅, []⟩ ⟨false, ∅, []⟩
    rfl rfl (comesTo 1) nofun valuation _ _ (denotes_component 0) (denotes_component 1)
  exact fun htouches => huntouched ⟨rfl, htouches⟩

end Lent

end MutationTesting.Borrowck
