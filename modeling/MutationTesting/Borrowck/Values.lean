/-
  MutationTesting.Borrowck.Values

  The values of regions (`borrowck/src/region_infer/values.rs`): where each
  region is live, and the points, free regions and placeholders that it must
  outlive.  How rustc numbers the points of a body is a parameter, the fields of
  `DenseLocationMap`.
-/
import MutationTesting.Mir.Syntax
import MutationTesting.Rust.Abort
import MutationTesting.Rust.BitMatrix

namespace MutationTesting.Borrowck

open MutationTesting.Rust MutationTesting.Mir

abbrev PointIndex := Nat
abbrev BorrowIndex := Nat
abbrev ConstraintSccIndex := Nat
abbrev PlaceholderIndex := Nat

/-- The numbering of the points of a body, one for each location. -/
structure DenseLocationMap where
  numPoints : Nat
  entryPoint : BasicBlock → PointIndex
  toBlockStart : PointIndex → PointIndex
  toLocation : PointIndex → Location

/-- `DenseLocationMap::point_from_location`. -/
def DenseLocationMap.pointFromLocation (elements : DenseLocationMap) (location : Location) :
    PointIndex :=
  elements.entryPoint location.block + location.statementIndex

/-- `DenseLocationMap::point_in_range`. -/
def DenseLocationMap.pointInRange (elements : DenseLocationMap) (point : PointIndex) : Bool :=
  decide (point < elements.numPoints)

/-! ## Liveness -/

/-- `LiveLoans`: the loans that flow into each region, and those live at each
    point. -/
structure LiveLoans where
  inflowingLoans : BitMatrix RegionVid
  liveLoans : BitMatrix PointIndex

/-- `LiveLoans::new`. -/
def LiveLoans.new : LiveLoans := ⟨.empty, .empty⟩

structure LivenessValues where
  elements : DenseLocationMap
  liveRegions : Option (Finset RegionVid)
  points : Option (BitMatrix RegionVid)
  loans : Option LiveLoans

/-- The loans flowing into `region` become live at the given points. -/
def LiveLoans.flow (loans : LiveLoans) (region : RegionVid) (points : Finset PointIndex) :
    LiveLoans :=
  match loans.inflowingLoans.row region with
  | none => loans
  | some inflowing =>
    { loans with
      liveLoans := ⟨fun point =>
        if point ∈ points then some (loans.liveLoans.cols point ∪ inflowing)
        else loans.liveLoans.row point⟩ }

namespace LivenessValues

/-- `with_specific_points`. -/
def withSpecificPoints (elements : DenseLocationMap) : LivenessValues :=
  { elements, liveRegions := none, points := some .empty, loans := none }

/-- `without_specific_points`. -/
def withoutSpecificPoints (elements : DenseLocationMap) : LivenessValues :=
  { elements, liveRegions := some ∅, points := none, loans := none }

/-- `self.live_regions.as_mut().unwrap().insert(region)`. -/
def insertLiveRegion (values : LivenessValues) (region : RegionVid) : Res LivenessValues := do
  let liveRegions ← unwrap values.liveRegions
  return { values with liveRegions := some (insert region liveRegions) }

/-- `add_location`. -/
def addLocation (values : LivenessValues) (region : RegionVid) (location : Location) :
    Res LivenessValues := do
  let point := values.elements.pointFromLocation location
  let values ←
    match values.points with
    | some points => pure { values with points := some (points.insert region point).2 }
    | none =>
      if values.elements.pointInRange point then values.insertLiveRegion region else pure values
  return { values with loans := values.loans.map fun loans => loans.flow region {point} }

/-- `add_points`. -/
def addPoints (values : LivenessValues) (region : RegionVid) (points : Finset PointIndex) :
    Res LivenessValues := do
  let values ←
    match values.points with
    | some this => pure { values with points := some (this.unionRow region points).2 }
    | none =>
      if ∃ point ∈ points, values.elements.pointInRange point then values.insertLiveRegion region
      else pure values
  return { values with
    loans := values.loans.map fun loans =>
      if loans.inflowingLoans.cols region = ∅ then loans else loans.flow region points }

/-- `add_all_points`. -/
def addAllPoints (values : LivenessValues) (region : RegionVid) : Res LivenessValues :=
  match values.points with
  | some points =>
    .ok { values with
      points := some (points.insertAllIntoRow values.elements.numPoints region) }
  | none => values.insertLiveRegion region

/-- `is_live_at`. -/
def isLiveAt (values : LivenessValues) (region : RegionVid) (location : Location) : Res Bool :=
  match values.points with
  | some points =>
    .ok ((points.row region).any fun row =>
      decide (values.elements.pointFromLocation location ∈ row))
  | none =>
    .error (.message
      "Should be using LivenessValues::with_specific_points to ask whether live at a location")

/-- `is_loan_live_at`. -/
def isLoanLiveAt (values : LivenessValues) (loan : BorrowIndex) (point : PointIndex) : Res Bool :=
  match values.loans with
  | some loans => .ok (loans.liveLoans.contains point loan)
  | none => .error (.message "Accessing live loans requires `-Zpolonius=next`")

end LivenessValues

theorem LiveLoans.cols_flow (loans : LiveLoans) (region : RegionVid) (points : Finset PointIndex)
    (point : PointIndex) :
    (loans.flow region points).liveLoans.cols point =
      if point ∈ points then loans.liveLoans.cols point ∪ loans.inflowingLoans.cols region
      else loans.liveLoans.cols point := by
  unfold LiveLoans.flow
  cases hrow : loans.inflowingLoans.row region with
  | none => simp [BitMatrix.cols_of_none hrow]
  | some inflowing =>
    rw [BitMatrix.cols_of_some hrow]
    by_cases hpoint : point ∈ points
    · simp [BitMatrix.cols, hpoint]
    · simp [BitMatrix.cols, hpoint]

@[simp] theorem LiveLoans.flow_inflowingLoans (loans : LiveLoans) (region : RegionVid)
    (points : Finset PointIndex) :
    (loans.flow region points).inflowingLoans = loans.inflowingLoans := by
  unfold LiveLoans.flow
  cases loans.inflowingLoans.row region with
  | none => rfl
  | some inflowing => rfl

/-- A call that records where a region is live. -/
inductive LivenessCall where
  | addLocation (region : RegionVid) (location : Location)
  | addPoints (region : RegionVid) (points : Finset PointIndex)
  deriving DecidableEq

namespace LivenessCall

def region : LivenessCall → RegionVid
  | addLocation region _ => region
  | addPoints region _ => region

/-- The points at which the call records its region. -/
def points (elements : DenseLocationMap) : LivenessCall → Finset PointIndex
  | addLocation _ location => {elements.pointFromLocation location}
  | addPoints _ points => points

def apply (values : LivenessValues) : LivenessCall → Res LivenessValues
  | addLocation region location => values.addLocation region location
  | addPoints region points => values.addPoints region points

variable {values values' : LivenessValues} {matrix : BitMatrix RegionVid} {loans : LiveLoans}

/-- One call: its region becomes live at its points, and so do the loans flowing
    into the region. -/
theorem apply_eq (hpoints : values.points = some matrix) (hloans : values.loans = some loans)
    (call : LivenessCall) :
    ∃ matrix' loans', call.apply values =
        .ok { values with points := some matrix', loans := some loans' } ∧
      (∀ region point, point ∈ matrix'.cols region ↔ point ∈ matrix.cols region ∨
        call.region = region ∧ point ∈ call.points values.elements) ∧
      loans'.inflowingLoans = loans.inflowingLoans ∧
      ∀ point loan, loan ∈ loans'.liveLoans.cols point ↔ loan ∈ loans.liveLoans.cols point ∨
        point ∈ call.points values.elements ∧ loan ∈ loans.inflowingLoans.cols call.region := by
  have hwrite : ∀ (region : RegionVid) (set : Finset PointIndex) (region' : RegionVid)
      (point : PointIndex), point ∈ (matrix.write region set).cols region' ↔
        point ∈ matrix.cols region' ∨ region = region' ∧ point ∈ set := by
    intro region set region' point
    rw [BitMatrix.cols_write]
    by_cases h : region' = region
    · simp [h]
    · simp [h, Ne.symm h]
  have hflow : ∀ (region : RegionVid) (set : Finset PointIndex) (point : PointIndex)
      (loan : BorrowIndex), loan ∈ (loans.flow region set).liveLoans.cols point ↔
        loan ∈ loans.liveLoans.cols point ∨
          point ∈ set ∧ loan ∈ loans.inflowingLoans.cols region := by
    intro region set point loan
    rw [LiveLoans.cols_flow]
    by_cases h : point ∈ set
    · simp [h]
    · simp [h]
  cases call with
  | addLocation region location =>
    refine ⟨_, loans.flow region {values.elements.pointFromLocation location}, ?_,
      hwrite region {values.elements.pointFromLocation location},
      LiveLoans.flow_inflowingLoans .., hflow region _⟩
    simp only [apply, LivenessValues.addLocation, hpoints, hloans, BitMatrix.insert, Res.pure_eq,
      Res.ok_bind, Option.map_some]
  | addPoints region points =>
    by_cases hempty : loans.inflowingLoans.cols region = ∅
    · refine ⟨_, loans, ?_, hwrite region points, rfl, ?_⟩
      · simp only [apply, LivenessValues.addPoints, hpoints, hloans, BitMatrix.unionRow,
          Res.pure_eq, Res.ok_bind, Option.map_some, if_pos hempty]
      · intro point loan
        -- no loan flows into the region
        simp [LivenessCall.region, hempty]
    · refine ⟨_, loans.flow region points, ?_, hwrite region points,
        LiveLoans.flow_inflowingLoans .., hflow region points⟩
      simp only [apply, LivenessValues.addPoints, hpoints, hloans, BitMatrix.unionRow, Res.pure_eq,
        Res.ok_bind, Option.map_some, if_neg hempty]

/-- A run of calls: a region is live where it was recorded, and a loan is live
    where a region that it flows into was recorded. -/
theorem foldlM_apply_eq (hpoints : values.points = some matrix)
    (hloans : values.loans = some loans) (calls : List LivenessCall) :
    ∃ matrix' loans', calls.foldlM apply values =
        .ok { values with points := some matrix', loans := some loans' } ∧
      (∀ region point, point ∈ matrix'.cols region ↔ point ∈ matrix.cols region ∨
        ∃ call ∈ calls, call.region = region ∧ point ∈ call.points values.elements) ∧
      loans'.inflowingLoans = loans.inflowingLoans ∧
      ∀ point loan, loan ∈ loans'.liveLoans.cols point ↔ loan ∈ loans.liveLoans.cols point ∨
        ∃ call ∈ calls, point ∈ call.points values.elements ∧
          loan ∈ loans.inflowingLoans.cols call.region := by
  induction calls generalizing values matrix loans with
  | nil =>
    refine ⟨matrix, loans, ?_, by simp, rfl, by simp⟩
    rw [List.foldlM_nil, ← hpoints, ← hloans]
    rfl
  | cons call calls ih =>
    obtain ⟨matrix₁, loans₁, happly, hmatrix₁, hinflow₁, hlive₁⟩ := apply_eq hpoints hloans call
    have hpoints₁ : ({ values with points := some matrix₁, loans := some loans₁ } :
        LivenessValues).points = some matrix₁ := rfl
    obtain ⟨matrix', loans', hrest, hmatrix', hinflow', hlive'⟩ := ih hpoints₁ rfl
    refine ⟨matrix', loans', ?_, ?_, hinflow'.trans hinflow₁, ?_⟩
    · rw [List.foldlM_cons, happly]
      exact hrest
    · intro region point
      rw [hmatrix', hmatrix₁, or_assoc]
      simp only [List.mem_cons, exists_eq_or_imp]
    · intro point loan
      rw [hlive', hlive₁, hinflow₁, or_assoc]
      simp only [List.mem_cons, exists_eq_or_imp]

/-- A loan flows into the first of two regions, which are not live yet. -/
def loanedValues : LivenessValues where
  elements := ⟨4, fun _ => 0, fun _ => 0, Location.mk 0⟩
  liveRegions := none
  points := some .empty
  loans := some ⟨⟨fun region => if region = 0 then some {7} else none⟩, .empty⟩

/-- The loan is live where the first region is, not where the second is. -/
theorem foldlM_apply_loaned :
    ∃ matrix loans, [addLocation 0 ⟨0, 1⟩, addPoints 1 {2, 3}].foldlM apply loanedValues =
        .ok { loanedValues with points := some matrix, loans := some loans } ∧
      3 ∈ matrix.cols 1 ∧ 7 ∈ loans.liveLoans.cols 1 ∧ 7 ∉ loans.liveLoans.cols 2 := by
  obtain ⟨matrix, loans, hrun, hmatrix, -, hlive⟩ := @foldlM_apply_eq loanedValues _ _ rfl rfl
    [addLocation 0 ⟨0, 1⟩, addPoints 1 {2, 3}]
  refine ⟨matrix, loans, hrun, (hmatrix 1 3).mpr ?_, (hlive 1 7).mpr ?_, fun h => ?_⟩
  · exact .inr ⟨addPoints 1 {2, 3}, by simp, rfl, by decide⟩
  · exact .inr ⟨addLocation 0 ⟨0, 1⟩, by simp, by decide, by decide⟩
  · rcases (hlive 2 7).mp h with h | ⟨call, hcall, hpoint, hloan⟩
    · cases h
    · simp only [List.mem_cons, List.not_mem_nil, or_false] at hcall
      rcases hcall with rfl | rfl
      · exact absurd hpoint (by decide)
      · exact absurd hloan (by decide)

end LivenessCall

/-! ## Values of regions -/

/-- `ty::Placeholder<BoundRegion>`. -/
structure PlaceholderRegion where
  «universe» : Nat
  bound : Interned
  deriving DecidableEq

/-- `PlaceholderIndices`: the placeholders in the order of their first insertion. -/
structure PlaceholderIndices where
  indices : List PlaceholderRegion
  nodup : indices.Nodup

namespace PlaceholderIndices

def empty : PlaceholderIndices := ⟨[], List.nodup_nil⟩

/-- `insert`. -/
def insert (self : PlaceholderIndices) (placeholder : PlaceholderRegion) :
    PlaceholderIndex × PlaceholderIndices :=
  if h : placeholder ∈ self.indices then (self.indices.idxOf placeholder, self)
  else
    (self.indices.length, ⟨self.indices ++ [placeholder],
      List.nodup_append.mpr ⟨self.nodup, List.nodup_singleton _, by
        rintro a ha b hb rfl
        exact h (List.mem_singleton.mp hb ▸ ha)⟩⟩)

/-- `lookup_index`. -/
def lookupIndex (self : PlaceholderIndices) (placeholder : PlaceholderRegion) :
    Res PlaceholderIndex :=
  if placeholder ∈ self.indices then .ok (self.indices.idxOf placeholder) else .error .unwrapNone

/-- `lookup_placeholder`. -/
def lookupPlaceholder (self : PlaceholderIndices) (index : PlaceholderIndex) :
    Res PlaceholderRegion :=
  Rust.index self.indices index

end PlaceholderIndices

/-- An element of the value of a region, by its column. -/
inductive ValueElement where
  | point (index : PointIndex)
  | freeRegion (vid : RegionVid)
  | placeholder (index : PlaceholderIndex)
  deriving DecidableEq

structure RegionValues where
  elements : DenseLocationMap
  placeholderIndices : PlaceholderIndices
  points : BitMatrix ConstraintSccIndex
  freeRegions : BitMatrix ConstraintSccIndex
  placeholders : BitMatrix ConstraintSccIndex

namespace RegionValues

/-- `RegionValues::new`. -/
def new (elements : DenseLocationMap) (placeholderIndices : PlaceholderIndices) : RegionValues :=
  { elements, placeholderIndices, points := .empty, freeRegions := .empty, placeholders := .empty }

/-- `add_element` of a location. -/
def addLocation (values : RegionValues) (r : ConstraintSccIndex) (location : Location) :
    Bool × RegionValues :=
  let (changed, points) := values.points.insert r (values.elements.pointFromLocation location)
  (changed, { values with points })

/-- `add_element` of a free region. -/
def addFreeRegion (values : RegionValues) (r : ConstraintSccIndex) (vid : RegionVid) :
    Bool × RegionValues :=
  let (changed, freeRegions) := values.freeRegions.insert r vid
  (changed, { values with freeRegions })

/-- `add_element` of a placeholder. -/
def addPlaceholder (values : RegionValues) (r : ConstraintSccIndex)
    (placeholder : PlaceholderRegion) : Res (Bool × RegionValues) := do
  let index ← values.placeholderIndices.lookupIndex placeholder
  let (changed, placeholders) := values.placeholders.insert r index
  return (changed, { values with placeholders })

/-- `add_all_points`. -/
def addAllPoints (values : RegionValues) (r : ConstraintSccIndex) : RegionValues :=
  { values with points := values.points.insertAllIntoRow values.elements.numPoints r }

/-- `add_region`: all elements of `rFrom` are added to `rTo`. -/
def addRegion (values : RegionValues) (rTo rFrom : ConstraintSccIndex) : Bool × RegionValues :=
  let (points?, points) := values.points.unionRows rFrom rTo
  let (freeRegions?, freeRegions) := values.freeRegions.unionRows rFrom rTo
  let (placeholders?, placeholders) := values.placeholders.unionRows rFrom rTo
  (points? || freeRegions? || placeholders?, { values with points, freeRegions, placeholders })

/-- `first_non_contained_inclusive`. -/
def firstNonContainedInclusive (values : RegionValues) (r : ConstraintSccIndex)
    (block : BasicBlock) (start stop : Nat) : Option Nat := do
  let row ← values.points.row r
  let entry := values.elements.entryPoint block
  let firstUnset ← firstUnsetIn row (entry + start) (entry + stop)
  return firstUnset - entry

/-- `merge_liveness`. -/
def mergeLiveness (values : RegionValues) (target : ConstraintSccIndex) (source : RegionVid)
    (liveness : LivenessValues) : Res RegionValues :=
  match liveness.points with
  | none =>
    .error (.message "LivenessValues must track specific points for use in merge_liveness")
  | some valuePoints =>
    match valuePoints.row source with
    | some set => .ok { values with points := (values.points.unionRow target set).2 }
    | none => .ok values

/-- `contains_points`. -/
def containsPoints (values : RegionValues) (supRegion subRegion : ConstraintSccIndex) : Bool :=
  match values.points.row subRegion with
  | some subRow =>
    match values.points.row supRegion with
    | some supRow => decide (subRow ⊆ supRow)
    | none => decide (subRow = ∅)
  | none => true

/-- `universal_regions_outlived_by`, as a set. -/
def universalRegionsOutlivedBy (values : RegionValues) (r : ConstraintSccIndex) :
    Finset RegionVid :=
  values.freeRegions.cols r

/-- Whether the value of `r` has the element. -/
def Contains (values : RegionValues) (r : ConstraintSccIndex) : ValueElement → Prop
  | .point index => index ∈ values.points.cols r
  | .freeRegion vid => vid ∈ values.freeRegions.cols r
  | .placeholder index => index ∈ values.placeholders.cols r

instance (values : RegionValues) (r : ConstraintSccIndex) :
    DecidablePred (values.Contains r) := fun element =>
  match element with
  | .point index => inferInstanceAs (Decidable (index ∈ values.points.cols r))
  | .freeRegion vid => inferInstanceAs (Decidable (vid ∈ values.freeRegions.cols r))
  | .placeholder index => inferInstanceAs (Decidable (index ∈ values.placeholders.cols r))

@[simp] theorem addRegion_elements (values : RegionValues) (rTo rFrom : ConstraintSccIndex) :
    (values.addRegion rTo rFrom).2.elements = values.elements := rfl

@[simp] theorem addRegion_placeholderIndices (values : RegionValues)
    (rTo rFrom : ConstraintSccIndex) :
    (values.addRegion rTo rFrom).2.placeholderIndices = values.placeholderIndices := rfl

/-- `add_region` adds the value of one region to another, and leaves the others
    alone. -/
theorem contains_addRegion (values : RegionValues) (rTo rFrom r : ConstraintSccIndex)
    (element : ValueElement) :
    (values.addRegion rTo rFrom).2.Contains r element ↔
      values.Contains r element ∨ r = rTo ∧ values.Contains rFrom element := by
  have hcols : ∀ (m : BitMatrix ConstraintSccIndex) (c : Nat),
      c ∈ (m.unionRows rFrom rTo).2.cols r ↔ c ∈ m.cols r ∨ r = rTo ∧ c ∈ m.cols rFrom := by
    intro m c
    rw [BitMatrix.cols_unionRows]
    by_cases hr : r = rTo
    · simp [hr]
    · simp [hr]
  cases element with
  | point index => exact hcols values.points index
  | freeRegion vid => exact hcols values.freeRegions vid
  | placeholder index => exact hcols values.placeholders index

/-- `add_region` reports whether it adds an element. -/
theorem addRegion_changed (values : RegionValues) (rTo rFrom : ConstraintSccIndex) :
    (values.addRegion rTo rFrom).1 = true ↔
      ∃ element, values.Contains rFrom element ∧ ¬ values.Contains rTo element := by
  simp only [addRegion, Bool.or_eq_true, BitMatrix.unionRows_changed, Finset.not_subset]
  constructor
  · rintro ((⟨c, hc⟩ | ⟨c, hc⟩) | ⟨c, hc⟩)
    · exact ⟨.point c, hc⟩
    · exact ⟨.freeRegion c, hc⟩
    · exact ⟨.placeholder c, hc⟩
  · rintro ⟨element, hfrom, hto⟩
    cases element with
    | point index => exact .inl (.inl ⟨index, hfrom, hto⟩)
    | freeRegion vid => exact .inl (.inr ⟨vid, hfrom, hto⟩)
    | placeholder index => exact .inr ⟨index, hfrom, hto⟩

/-- Whether a loan of region `r` survives the location: a region whose row of
    points is not there is never found to end. -/
def Survives (values : RegionValues) (r : ConstraintSccIndex) (location : Location) : Prop :=
  ∀ row, values.points.row r = some row → values.elements.pointFromLocation location ∈ row

instance (values : RegionValues) (r : ConstraintSccIndex) :
    DecidablePred (values.Survives r) := fun location =>
  match h : values.points.row r with
  | none => isTrue fun row hrow => by rw [h] at hrow; cases hrow
  | some set =>
    decidable_of_iff (values.elements.pointFromLocation location ∈ set)
      ⟨fun hmem row hrow => by rw [h] at hrow; cases hrow; exact hmem, fun hall => hall set h⟩

/-- `first_non_contained_inclusive` finds the first statement of the range that
    the region does not survive. -/
theorem firstNonContainedInclusive_eq_some {values : RegionValues} {r : ConstraintSccIndex}
    {block : BasicBlock} {start stop i : Nat} :
    values.firstNonContainedInclusive r block start stop = some i ↔
      start ≤ i ∧ i ≤ stop ∧ ¬ values.Survives r ⟨block, i⟩ ∧
        ∀ j, start ≤ j → j < i → values.Survives r ⟨block, j⟩ := by
  unfold firstNonContainedInclusive Survives DenseLocationMap.pointFromLocation
  cases hrow : values.points.row r with
  | none => simp
  | some set =>
    simp only [Option.bind_some, Option.bind_eq_bind, Option.pure_def, Option.bind_eq_some_iff,
      Option.some.injEq, firstUnsetIn_eq_some, forall_eq']
    constructor
    · rintro ⟨c, ⟨hle, hlt, hc, hbefore⟩, rfl⟩
      have hsame : values.elements.entryPoint block + (c - values.elements.entryPoint block) = c :=
        Nat.add_sub_of_le (by omega)
      refine ⟨by omega, by omega, by rwa [hsame], fun j hj hj' => ?_⟩
      exact hbefore _ (by omega) (by omega)
    · rintro ⟨hle, hlt, hi, hbefore⟩
      refine ⟨values.elements.entryPoint block + i, ⟨by omega, by omega, hi, ?_⟩, by omega⟩
      intro c hc hc'
      have hsame : values.elements.entryPoint block + (c - values.elements.entryPoint block) = c :=
        Nat.add_sub_of_le (by omega)
      rw [← hsame]
      exact hbefore _ (by omega) (by omega)

theorem firstNonContainedInclusive_eq_none {values : RegionValues} {r : ConstraintSccIndex}
    {block : BasicBlock} {start stop : Nat} :
    values.firstNonContainedInclusive r block start stop = none ↔
      ∀ j, start ≤ j → j ≤ stop → values.Survives r ⟨block, j⟩ := by
  unfold firstNonContainedInclusive Survives DenseLocationMap.pointFromLocation
  cases hrow : values.points.row r with
  | none => simp
  | some set =>
    simp only [Option.bind_some, Option.bind_eq_bind, Option.pure_def, Option.some.injEq,
      forall_eq', Option.bind_eq_none_iff, reduceCtorEq, imp_false]
    constructor
    · intro h j hj hj'
      have hnone : firstUnsetIn set (values.elements.entryPoint block + start)
          (values.elements.entryPoint block + stop) = none :=
        Option.eq_none_iff_forall_ne_some.mpr h
      exact firstUnsetIn_eq_none.mp hnone _ (by omega) (by omega)
    · intro h c hc
      obtain ⟨hle, hlt, hunset, -⟩ := firstUnsetIn_eq_some.mp hc
      have hin := h (c - values.elements.entryPoint block) (by omega) (by omega)
      rw [Nat.add_sub_of_le (by omega)] at hin
      exact hunset hin

end RegionValues

end MutationTesting.Borrowck
