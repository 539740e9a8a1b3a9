/-
  MutationTesting.Borrowck.RegionCheck

  The checks on the inferred values of regions (`eval_outlives`,
  `check_universal_regions` and `check_member_constraints` in
  `borrowck/src/region_infer/mod.rs`), and how a relation that is not known is
  propagated to the creator of a closure
  (`borrowck/src/type_check/free_region_relations.rs`).
-/
import MutationTesting.Borrowck.RegionPropagate
import Mathlib.Data.Finset.Sort

namespace MutationTesting.Borrowck

open MutationTesting.Rust MutationTesting.Mir MutationTesting.Graph Relation

/-! ## Elements and errors -/

inductive RegionElement where
  | location (location : Location)
  | rootUniversalRegion (region : RegionVid)
  | placeholderRegion (placeholder : PlaceholderRegion)
  deriving DecidableEq

/-- `locations_outlived_by`. -/
def RegionValues.locationsOutlivedBy (values : RegionValues) (r : ConstraintSccIndex) :
    List Location :=
  (((values.points.cols r).sort (· ≤ ·)).takeWhile values.elements.pointInRange).map
    values.elements.toLocation

/-- `elements_contained_in`. -/
def RegionValues.elementsContainedIn (values : RegionValues) (r : ConstraintSccIndex) :
    Res (List RegionElement) := do
  let placeholders ← ((values.placeholders.cols r).sort (· ≤ ·)).mapM
    values.placeholderIndices.lookupPlaceholder
  return (values.locationsOutlivedBy r).map .location ++
    ((values.universalRegionsOutlivedBy r).sort (· ≤ ·)).map .rootUniversalRegion ++
    placeholders.map .placeholderRegion

/-- `RegionErrorKind`, but for the failed type tests. -/
inductive RegionErrorKind where
  | unexpectedHiddenRegion (span : Interned) (hiddenTy : Ty) (key : Interned)
      (memberRegion : RegionVid)
  | boundUniversalRegionError (longerFr : RegionVid) (errorElement : RegionElement)
      (placeholder : PlaceholderRegion)
  | regionError (frOrigin : NllRegionVariableOrigin) (longerFr shorterFr : RegionVid)
      (isReported : Bool)
  deriving DecidableEq

inductive RegionRelationCheckResult where
  | ok
  | propagated
  | error
  deriving DecidableEq

/-- `ClosureOutlivesRequirement` between regions, but for what it blames. -/
structure ClosureOutlivesRequirement where
  subject : RegionVid
  outlivedFreeRegion : RegionVid
  deriving DecidableEq

/-! ## Bounds that are not local -/

namespace UniversalRegionRelations

/-- `non_local_bounds`, for at most the given number of rounds. -/
def nonLocalBounds (self : UniversalRegionRelations) (relation : TransitiveRelation)
    (rounds : Nat) (fr0 : RegionVid) : Res (List RegionVid) := do
  assert (self.universalRegions.isUniversalRegion fr0)
  drainWorkList
    (fun fr => if self.universalRegions.isLocalFreeRegion fr then relation.parents fr else [])
    (fun fr => if self.universalRegions.isLocalFreeRegion fr then [] else [fr]) rounds [fr0]

/-- `non_local_upper_bounds`. -/
def nonLocalUpperBounds (self : UniversalRegionRelations) (rounds : Nat) (fr : RegionVid) :
    Res (List RegionVid) := do
  let res ← self.nonLocalBounds self.inverseOutlives rounds fr
  if res.isEmpty then .error (.message "can't find an upper bound!?") else return res

/-- `non_local_lower_bound`. -/
def nonLocalLowerBound (self : UniversalRegionRelations) (rounds : Nat) (fr : RegionVid) :
    Res (Option RegionVid) := do
  let lowerBounds ← self.nonLocalBounds self.outlivesRelation rounds fr
  return (self.outlivesRelation.mutualImmediatePostdominator lowerBounds).bind fun postDom =>
    if self.universalRegions.isLocalFreeRegion postDom then none else some postDom

end UniversalRegionRelations

/-! ## The checks -/

namespace RegionInferenceContext

/-- `universe_compatible`. -/
def universeCompatible (self : RegionInferenceContext) (sccB sccA : ConstraintSccIndex) : Bool :=
  let aAnnotation := self.constraintSccs.annotationOf sccA
  let bAnnotation := self.constraintSccs.annotationOf sccB
  let aUniverse := aAnnotation.minUniverse
  if aUniverse.canName bAnnotation.minUniverse then true
  else aUniverse.canName bAnnotation.maxPlaceholderUniverseReached

/-- `eval_outlives`, calling itself at most the given number of times. -/
def evalOutlives (self : RegionInferenceContext) (rounds : Nat)
    (supRegion subRegion : RegionVid) : Res Bool :=
  let subRegionScc := self.constraintSccs.scc subRegion
  let supRegionScc := self.constraintSccs.scc supRegion
  if !self.universeCompatible subRegionScc supRegionScc then
    match rounds with
    | 0 => .error .diverges
    | rounds + 1 => self.evalOutlives rounds supRegion self.universalRegions.frStatic
  else
    let universalOutlives :=
      decide (∀ r1 ∈ self.sccValues.universalRegionsOutlivedBy subRegionScc,
        ∃ r2 ∈ self.sccValues.universalRegionsOutlivedBy supRegionScc,
          self.universalRegionRelations.outlives r2 r1 = true)
    if !universalOutlives then .ok false
    else if self.universalRegions.isUniversalRegion supRegion then .ok true
    else .ok (self.sccValues.containsPoints supRegionScc subRegionScc)

/-- `eval_equal`. -/
def evalEqual (self : RegionInferenceContext) (rounds : Nat) (r1 r2 : RegionVid) : Res Bool := do
  if ← self.evalOutlives rounds r1 r2 then self.evalOutlives rounds r2 r1 else return false

/-- The requirements to propagate, if this is a closure, and the errors so far. -/
abbrev CheckState := Option (List ClosureOutlivesRequirement) × List RegionErrorKind

/-- `try_propagate_universal_region_error`. -/
def tryPropagateUniversalRegionError (self : RegionInferenceContext) (rounds : Nat)
    (longerFr shorterFr : RegionVid)
    (requirements : Option (List ClosureOutlivesRequirement)) :
    Res (RegionRelationCheckResult × Option (List ClosureOutlivesRequirement)) :=
  match requirements with
  | none => .ok (.error, none)
  | some list => do
    match ← self.universalRegionRelations.nonLocalLowerBound rounds longerFr with
    | none => return (.error, some list)
    | some frMinus => do
      let shorterFrPlus ← self.universalRegionRelations.nonLocalUpperBounds rounds shorterFr
      return (.propagated, some (list ++ shorterFrPlus.map fun fr =>
        { subject := frMinus, outlivedFreeRegion := fr }))

/-- `check_universal_region_relation`. -/
def checkUniversalRegionRelation (self : RegionInferenceContext) (rounds : Nat)
    (longerFr shorterFr : RegionVid)
    (requirements : Option (List ClosureOutlivesRequirement)) :
    Res (RegionRelationCheckResult × Option (List ClosureOutlivesRequirement)) :=
  if self.universalRegionRelations.outlives longerFr shorterFr then .ok (.ok, requirements)
  else self.tryPropagateUniversalRegionError rounds longerFr shorterFr requirements

/-- One round of the loop of `check_universal_region` over the regions that the free
    region outlives: whether an error was reported, and the state. -/
def checkShorter (self : RegionInferenceContext) (rounds : Nat) (longerFr : RegionVid)
    (state : Bool × CheckState) (shorterFr : RegionVid) : Res (Bool × CheckState) := do
  let (errorReported, requirements, errors) := state
  let (result, requirements) ←
    self.checkUniversalRegionRelation rounds longerFr shorterFr requirements
  if result = .error then
    return (true, requirements, errors ++
      [.regionError .freeRegion longerFr shorterFr (!errorReported)])
  else return (errorReported, requirements, errors)

/-- `check_universal_region`. -/
def checkUniversalRegion (self : RegionInferenceContext) (rounds : Nat) (longerFr : RegionVid)
    (state : CheckState) : Res CheckState := do
  let longerFrScc := self.constraintSccs.scc longerFr
  assert (self.sccUniverse longerFrScc).isRoot
  let representative := self.sccRepresentative longerFrScc
  if representative ≠ longerFr then
    let (requirements, errors) := state
    let (result, requirements) ←
      self.checkUniversalRegionRelation rounds longerFr representative requirements
    if result = .error then
      return (requirements, errors ++ [.regionError .freeRegion longerFr representative true])
    else return (requirements, errors)
  else
    let (_, state) ← ((self.sccValues.universalRegionsOutlivedBy longerFrScc).sort
      (· ≤ ·)).foldlM (self.checkShorter rounds longerFr) (false, state)
    return state

/-- `check_bound_universal_region`. -/
def checkBoundUniversalRegion (self : RegionInferenceContext) (longerFr : RegionVid)
    (placeholder : PlaceholderRegion) (errors : List RegionErrorKind) :
    Res (List RegionErrorKind) := do
  let longerFrScc := self.constraintSccs.scc longerFr
  let elements ← self.sccValues.elementsContainedIn longerFrScc
  match elements.find? fun element => element ≠ .placeholderRegion placeholder with
  | some errorElement =>
    return errors ++ [.boundUniversalRegionError longerFr errorElement placeholder]
  | none => return errors

/-- One round of the loop of `check_universal_regions`. -/
def checkDefinition (self : RegionInferenceContext) (rounds : Nat) (state : CheckState)
    (entry : RegionDefinition × RegionVid) : Res CheckState := do
  let (frDefinition, fr) := entry
  match frDefinition.origin with
  | .freeRegion => self.checkUniversalRegion rounds fr state
  | .placeholder placeholder =>
    let errors ← self.checkBoundUniversalRegion fr placeholder state.2
    return (state.1, errors)
  | .existential _ => return state

/-- `check_universal_regions`. -/
def checkUniversalRegions (self : RegionInferenceContext) (rounds : Nat) (state : CheckState) :
    Res CheckState :=
  self.definitions.zipIdx.foldlM (self.checkDefinition rounds) state

/-- One round of the loop of `check_member_constraints`. -/
def checkMemberConstraint (self : RegionInferenceContext) (rounds : Nat)
    (errors : List RegionErrorKind) (entry : NllMemberConstraint × NllMemberConstraintIndex) :
    Res (List RegionErrorKind) := do
  let (constraint, i) := entry
  let choiceRegions ← self.memberConstraints.choiceRegionsOf i
  let found ← choiceRegions.findM? fun o => self.evalEqual rounds o constraint.memberRegionVid
  match found with
  | some _ => return errors
  | none => return errors ++ [.unexpectedHiddenRegion constraint.definitionSpan
      constraint.hiddenTy constraint.key constraint.memberRegionVid]

/-- `check_member_constraints`. -/
def checkMemberConstraints (self : RegionInferenceContext) (rounds : Nat)
    (errors : List RegionErrorKind) : Res (List RegionErrorKind) :=
  self.memberConstraints.constraints.zipIdx.foldlM (self.checkMemberConstraint rounds) errors

/-- `solve` without the type tests and the output of Polonius. -/
def solve (self : RegionInferenceContext) (rounds : Nat) (isTypeckChild : Bool) :
    Res (RegionInferenceContext × Option (List ClosureOutlivesRequirement) ×
      List RegionErrorKind) := do
  let self ← self.propagateConstraints
  let (requirements, errors) ← self.checkUniversalRegions rounds
    (if isTypeckChild then some [] else none, [])
  let errors ← if errors.isEmpty then self.checkMemberConstraints rounds errors else pure errors
  let requirements := requirements.getD []
  return (self, if requirements.isEmpty then none else some requirements, errors)

/-! ## When nothing is reported -/

section Check

variable {self : RegionInferenceContext}

theorem checkUniversalRegionRelation_none (rounds : Nat) (longerFr shorterFr : RegionVid) :
    self.checkUniversalRegionRelation rounds longerFr shorterFr none =
      .ok (if self.universalRegionRelations.outlives longerFr shorterFr then .ok else .error,
        none) := by
  unfold checkUniversalRegionRelation
  cases self.universalRegionRelations.outlives longerFr shorterFr with
  | true => rfl
  | false => rfl

/-- The loop over the regions that a free region outlives reports an error for each
    that it is not known to outlive. -/
theorem foldlM_checkShorter (rounds : Nat) (longerFr : RegionVid) (shorter : List RegionVid)
    (errorReported : Bool) (errors : List RegionErrorKind) :
    ∃ reported extra, shorter.foldlM (self.checkShorter rounds longerFr)
        (errorReported, none, errors) = .ok (reported, none, errors ++ extra) ∧
      (extra = [] ↔ ∀ o ∈ shorter, self.universalRegionRelations.outlives longerFr o = true) := by
  induction shorter generalizing errorReported errors with
  | nil => exact ⟨errorReported, [], by rw [List.append_nil]; rfl, by simp⟩
  | cons o shorter ih =>
    rw [List.foldlM_cons, checkShorter]
    simp only [checkUniversalRegionRelation_none, Res.ok_bind]
    cases hknown : self.universalRegionRelations.outlives longerFr o with
    | true =>
      obtain ⟨reported, extra, hloop, hextra⟩ := ih errorReported errors
      refine ⟨reported, extra, hloop, hextra.trans ?_⟩
      simp [hknown]
    | false =>
      obtain ⟨reported, extra, hloop, -⟩ := ih true
        (errors ++ [.regionError .freeRegion longerFr o (!errorReported)])
      refine ⟨reported, .regionError .freeRegion longerFr o (!errorReported) :: extra, ?_, ?_⟩
      · rw [List.append_assoc] at hloop
        exact hloop
      · simp [hknown]

/-- What `check_universal_regions` asks of a region. -/
def Fine (self : RegionInferenceContext) (fr : RegionVid) : NllRegionVariableOrigin → Prop
  | .freeRegion =>
    if self.sccRepresentative (self.constraintSccs.scc fr) = fr then
      ∀ o ∈ self.sccValues.universalRegionsOutlivedBy (self.constraintSccs.scc fr),
        self.universalRegionRelations.outlives fr o = true
    else self.universalRegionRelations.outlives fr
      (self.sccRepresentative (self.constraintSccs.scc fr)) = true
  | .placeholder placeholder => ∀ elements,
    self.sccValues.elementsContainedIn (self.constraintSccs.scc fr) = .ok elements →
      ∀ element ∈ elements, element = .placeholderRegion placeholder
  | .existential _ => True

theorem checkUniversalRegion_spec (rounds : Nat) {fr : RegionVid}
    (hroot : (self.sccUniverse (self.constraintSccs.scc fr)).isRoot = true)
    (errors : List RegionErrorKind) :
    ∃ extra, self.checkUniversalRegion rounds fr (none, errors) = .ok (none, errors ++ extra) ∧
      (extra = [] ↔ self.Fine fr .freeRegion) := by
  unfold checkUniversalRegion Fine
  simp only [hroot, assert_true, Res.ok_bind]
  by_cases hrep : self.sccRepresentative (self.constraintSccs.scc fr) = fr
  · obtain ⟨reported, extra, hloop, hextra⟩ := foldlM_checkShorter rounds fr
      ((self.sccValues.universalRegionsOutlivedBy (self.constraintSccs.scc fr)).sort (· ≤ ·))
      false errors
    refine ⟨extra, ?_, ?_⟩
    · rw [if_neg (not_ne_iff.mpr hrep), hloop]
      rfl
    · rw [if_pos hrep, hextra]
      simp only [Finset.mem_sort]
  · simp only [ne_eq, hrep, not_false_eq_true, if_true, if_false,
      checkUniversalRegionRelation_none, Res.ok_bind]
    cases self.universalRegionRelations.outlives fr
        (self.sccRepresentative (self.constraintSccs.scc fr)) with
    | true => exact ⟨[], by rw [List.append_nil]; rfl, by simp⟩
    | false => exact ⟨_, rfl, by simp⟩

theorem checkBoundUniversalRegion_spec {fr : RegionVid} (placeholder : PlaceholderRegion)
    {elements : List RegionElement}
    (helements : self.sccValues.elementsContainedIn (self.constraintSccs.scc fr) = .ok elements)
    (errors : List RegionErrorKind) :
    ∃ extra, self.checkBoundUniversalRegion fr placeholder errors = .ok (errors ++ extra) ∧
      (extra = [] ↔ self.Fine fr (.placeholder placeholder)) := by
  have hfine : self.Fine fr (.placeholder placeholder) ↔
      ∀ element ∈ elements, element = .placeholderRegion placeholder := by
    unfold Fine
    rw [helements]
    simp
  unfold checkBoundUniversalRegion
  simp only [helements, Res.ok_bind]
  cases hfind : elements.find? fun element => element ≠ .placeholderRegion placeholder with
  | none =>
    refine ⟨[], by rw [List.append_nil]; rfl, ?_⟩
    simpa [hfine] using List.find?_eq_none.mp hfind
  | some element =>
    refine ⟨_, rfl, ?_⟩
    have hne : element ≠ .placeholderRegion placeholder := by simpa using List.find?_some hfind
    rw [hfine]
    exact ⟨nofun, fun h => absurd (h element (List.mem_of_find?_eq_some hfind)) hne⟩

/-- What makes the checks return: the universe of a free region is the root, and the
    placeholders in the values are known. -/
structure Checkable (context : RegionInferenceContext) : Prop where
  root : ∀ r < context.definitions.length,
    (definitionOf context.definitions r).origin = .freeRegion →
      (context.sccUniverse (context.constraintSccs.scc r)).isRoot = true
  elements : ∀ r < context.definitions.length, ∃ elements,
    context.sccValues.elementsContainedIn (context.constraintSccs.scc r) = .ok elements

/-- Without requirements to propagate, `check_universal_regions` reports nothing if
    and only if each region is fine. -/
theorem checkUniversalRegions_spec (hcheckable : self.Checkable) (rounds : Nat)
    (errors : List RegionErrorKind) :
    ∃ extra, self.checkUniversalRegions rounds (none, errors) = .ok (none, errors ++ extra) ∧
      (extra = [] ↔ ∀ r < self.definitions.length,
        self.Fine r (definitionOf self.definitions r).origin) := by
  have hone : ∀ entry ∈ self.definitions.zipIdx, ∀ errors, ∃ extra,
      self.checkDefinition rounds (none, errors) entry = .ok (none, errors ++ extra) ∧
        (extra = [] ↔ self.Fine entry.2 entry.1.origin) := by
    rintro ⟨definition, fr⟩ hentry errors
    obtain ⟨hlt, hdefinition⟩ := List.mem_zipIdx' hentry
    have hof : definitionOf self.definitions fr = definition := by
      rw [definitionOf, List.getElem?_eq_getElem hlt, Option.getD_some, hdefinition]
    unfold checkDefinition
    dsimp only
    cases horigin : definition.origin with
    | freeRegion =>
      exact checkUniversalRegion_spec rounds (hcheckable.root fr hlt (by rw [hof, horigin])) errors
    | placeholder placeholder =>
      obtain ⟨elements, helements⟩ := hcheckable.elements fr hlt
      obtain ⟨extra, hcheck, hextra⟩ := checkBoundUniversalRegion_spec placeholder helements errors
      refine ⟨extra, ?_, hextra⟩
      simp only [hcheck, Res.ok_bind, Res.pure_eq]
    | existential fromForall =>
      exact ⟨[], by rw [List.append_nil]; rfl, by simp [Fine]⟩
  have hrun : ∀ (entries : List (RegionDefinition × RegionVid)) (errors : List RegionErrorKind),
      (∀ entry ∈ entries, entry ∈ self.definitions.zipIdx) → ∃ extra,
        entries.foldlM (self.checkDefinition rounds) (none, errors) = .ok (none, errors ++ extra) ∧
          (extra = [] ↔ ∀ entry ∈ entries, self.Fine entry.2 entry.1.origin) := by
    intro entries
    induction entries with
    | nil => exact fun errors _ => ⟨[], by rw [List.append_nil]; rfl, by simp⟩
    | cons entry entries ih =>
      intro errors hsub
      obtain ⟨extra₁, hstep, hextra₁⟩ := hone entry (hsub entry List.mem_cons_self) errors
      obtain ⟨extra₂, hloop, hextra₂⟩ := ih (errors ++ extra₁) fun e he =>
        hsub e (List.mem_cons_of_mem _ he)
      refine ⟨extra₁ ++ extra₂, ?_, ?_⟩
      · rw [List.foldlM_cons, hstep, Res.ok_bind, hloop, List.append_assoc]
      · rw [List.append_eq_nil_iff, hextra₁, hextra₂, List.forall_mem_cons]
  obtain ⟨extra, hloop, hextra⟩ := hrun self.definitions.zipIdx errors fun _ h => h
  refine ⟨extra, hloop, hextra.trans ⟨fun h r hr => ?_, ?_⟩⟩
  · have hentry : (self.definitions[r], r) ∈ self.definitions.zipIdx :=
      List.mk_mem_zipIdx_iff_getElem?.mpr (List.getElem?_eq_getElem hr)
    rw [definitionOf, List.getElem?_eq_getElem hr, Option.getD_some]
    exact h _ hentry
  · rintro h ⟨definition, fr⟩ hentry
    obtain ⟨hlt, hdefinition⟩ := List.mem_zipIdx' hentry
    have hfr := h fr hlt
    rwa [definitionOf, List.getElem?_eq_getElem hlt, Option.getD_some, ← hdefinition] at hfr

/-- The representative of a component with a free region is a free region. -/
theorem representative_free (hof : self.constraintSccs.Of self.definitions.length self.Edge
    (definitionOf self.definitions)) (hfirst : Merge.FreeFirst (definitionOf self.definitions))
    {fr : RegionVid} (hfr : fr < self.definitions.length)
    (hfree : (definitionOf self.definitions fr).origin = .freeRegion) :
    self.sccRepresentative (self.constraintSccs.scc fr) < self.definitions.length ∧
      self.constraintSccs.scc (self.sccRepresentative (self.constraintSccs.scc fr)) =
        self.constraintSccs.scc fr ∧
      (definitionOf self.definitions
        (self.sccRepresentative (self.constraintSccs.scc fr))).origin = .freeRegion := by
  obtain ⟨hlt, hscc, hmin⟩ := hof.representative hfirst (hof.scc_lt fr hfr)
  refine ⟨hlt, hscc, Merge.rank_eq_zero ?_⟩
  -- no region is preferred over a free one
  have hle := Merge.preference_le_iff.mp (hmin fr hfr rfl)
  rw [hfree] at hle
  rcases hle with hle | ⟨heq, -⟩
  · exact absurd hle (Nat.not_lt_zero _)
  · exact heq

/-- Each region is fine if and only if the free regions outlive no region that they
    are not known to outlive, and the placeholders no other element. -/
theorem fine_iff (hof : self.constraintSccs.Of self.definitions.length self.Edge
    (definitionOf self.definitions)) (hfirst : Merge.FreeFirst (definitionOf self.definitions))
    (htrans : self.universalRegionRelations.Transitive)
    (hown : ∀ r < self.definitions.length,
      (definitionOf self.definitions r).origin = .freeRegion →
        self.sccValues.Contains (self.constraintSccs.scc r) (.freeRegion r)) :
    (∀ r < self.definitions.length, self.Fine r (definitionOf self.definitions r).origin) ↔
      (∀ r < self.definitions.length, (definitionOf self.definitions r).origin = .freeRegion →
        ∀ o, self.sccValues.Contains (self.constraintSccs.scc r) (.freeRegion o) →
          self.universalRegionRelations.outlives r o = true) ∧
      ∀ r < self.definitions.length, ∀ placeholder,
        (definitionOf self.definitions r).origin = .placeholder placeholder →
          self.Fine r (.placeholder placeholder) := by
  constructor
  · intro h
    refine ⟨fun r hr hfree o ho => ?_, fun r hr placeholder horigin => horigin ▸ h r hr⟩
    obtain ⟨hlt, hscc, hrepFree⟩ := representative_free hof hfirst hr hfree
    have hrep := h _ hlt
    rw [hrepFree] at hrep
    unfold Fine at hrep
    dsimp only at hrep
    rw [hscc, if_pos rfl] at hrep
    by_cases hsame : self.sccRepresentative (self.constraintSccs.scc r) = r
    · rw [hsame] at hrep
      exact hrep o ho
    · have hr' := h r hr
      rw [hfree] at hr'
      unfold Fine at hr'
      dsimp only at hr'
      rw [if_neg hsame] at hr'
      exact htrans _ _ _ hr' (hrep o ho)
  · rintro ⟨hfreeAll, hplaceholders⟩ r hr
    cases horigin : (definitionOf self.definitions r).origin with
    | freeRegion =>
      obtain ⟨hlt, hscc, hrepFree⟩ := representative_free hof hfirst hr horigin
      unfold Fine
      dsimp only
      by_cases hsame : self.sccRepresentative (self.constraintSccs.scc r) = r
      · rw [if_pos hsame]
        exact fun o ho => hfreeAll r hr horigin o ho
      · rw [if_neg hsame]
        refine hfreeAll r hr horigin _ ?_
        rw [← hscc]
        have hrep := hown _ hlt hrepFree
        rwa [hscc] at hrep ⊢
    | placeholder placeholder => exact hplaceholders r hr placeholder horigin
    | existential fromForall => exact trivial

end Check

end RegionInferenceContext

/-! ## The elements of a value -/

namespace PlaceholderIndices

theorem lookupPlaceholder_eq {indices : PlaceholderIndices} {i : PlaceholderIndex}
    {placeholder : PlaceholderRegion} :
    indices.lookupPlaceholder i = .ok placeholder ↔ indices.lookupIndex placeholder = .ok i := by
  unfold lookupPlaceholder lookupIndex index
  constructor
  · intro h
    cases hi : indices.indices[i]? with
    | none =>
      rw [hi] at h
      cases h
    | some found =>
      rw [hi] at h
      cases h
      obtain ⟨hlt, hget⟩ := List.getElem?_eq_some_iff.mp hi
      rw [if_pos (List.mem_of_getElem? hi), ← hget, indices.nodup.idxOf_getElem i hlt]
  · intro h
    by_cases hmem : placeholder ∈ indices.indices
    · rw [if_pos hmem] at h
      cases h
      rw [List.getElem?_eq_getElem (List.idxOf_lt_length_of_mem hmem)]
      simp
    · rw [if_neg hmem] at h
      cases h

end PlaceholderIndices

namespace RegionValues

/-- Of a sorted list of points, those in range come first. -/
theorem mem_locationsOutlivedBy {values : RegionValues} {r : ConstraintSccIndex}
    {location : Location} :
    location ∈ values.locationsOutlivedBy r ↔ ∃ p, values.Contains r (.point p) ∧
      p < values.elements.numPoints ∧ values.elements.toLocation p = location := by
  have hsorted : ((values.points.cols r).sort (· ≤ ·)).Pairwise (· ≤ ·) :=
    Finset.pairwise_sort _ _
  have htake : ∀ (ps : List Nat), ps.Pairwise (· ≤ ·) → ∀ p,
      p ∈ ps.takeWhile values.elements.pointInRange ↔
        p ∈ ps ∧ p < values.elements.numPoints := by
    intro ps
    induction ps with
    | nil => simp
    | cons q ps ih =>
      intro hps p
      obtain ⟨hle, hrest⟩ := List.pairwise_cons.mp hps
      rw [List.takeWhile_cons]
      by_cases hq : q < values.elements.numPoints
      · have hin : values.elements.pointInRange q = true := decide_eq_true hq
        rw [if_pos hin, List.mem_cons, List.mem_cons, ih hrest]
        constructor
        · rintro (rfl | ⟨hp, hlt⟩)
          · exact ⟨.inl rfl, hq⟩
          · exact ⟨.inr hp, hlt⟩
        · rintro ⟨rfl | hp, hlt⟩
          · exact .inl rfl
          · exact .inr ⟨hp, hlt⟩
      · rw [if_neg (by simpa [DenseLocationMap.pointInRange] using hq)]
        refine iff_of_false List.not_mem_nil fun h => hq ?_
        rcases List.mem_cons.mp h.1 with rfl | hp
        · exact h.2
        · exact (hle p hp).trans_lt h.2
  simp only [locationsOutlivedBy, List.mem_map, htake _ hsorted, Finset.mem_sort, Contains]
  constructor
  · rintro ⟨p, ⟨hp, hlt⟩, hlocation⟩
    exact ⟨p, hp, hlt, hlocation⟩
  · rintro ⟨p, hp, hlt, hlocation⟩
    exact ⟨p, ⟨hp, hlt⟩, hlocation⟩

/-- The elements of a value are there, where its placeholders are known. -/
theorem elementsContainedIn_isOk {values : RegionValues} {r : ConstraintSccIndex}
    (hknown : ∀ i, values.Contains r (.placeholder i) →
      ∃ placeholder, values.placeholderIndices.lookupPlaceholder i = .ok placeholder) :
    ∃ elements, values.elementsContainedIn r = .ok elements := by
  have hlookups : ∀ i ∈ (values.placeholders.cols r).sort (· ≤ ·), ∃ placeholder,
      values.placeholderIndices.lookupPlaceholder i = .ok placeholder := fun i hi =>
    hknown i ((Finset.mem_sort (· ≤ ·)).mp hi)
  obtain ⟨placeholders, hplaceholders⟩ := Res.mapM_isOk hlookups
  simp only [elementsContainedIn, hplaceholders, Res.ok_bind, Res.pure_eq]
  exact ⟨_, rfl⟩

/-- The elements of a value are all the given placeholder if and only if the value has
    nothing but that and points out of range. -/
theorem forall_elementsContainedIn {values : RegionValues} {r : ConstraintSccIndex}
    {elements : List RegionElement} (h : values.elementsContainedIn r = .ok elements)
    (placeholder : PlaceholderRegion) :
    (∀ element ∈ elements, element = .placeholderRegion placeholder) ↔
      ∀ element, values.Contains r element →
        (∃ p, values.elements.numPoints ≤ p ∧ element = .point p) ∨
          ∃ i, values.placeholderIndices.lookupIndex placeholder = .ok i ∧
            element = .placeholder i := by
  obtain ⟨placeholders, hplaceholders, h⟩ := Res.bind_inv h
  cases h
  simp only [List.mem_append, List.mem_map, mem_locationsOutlivedBy, Finset.mem_sort]
  constructor
  · intro hall element helement
    cases element with
    | point p =>
      by_cases hlt : p < values.elements.numPoints
      · have hbad := hall (.location (values.elements.toLocation p))
          (.inl (.inl ⟨_, ⟨p, helement, hlt, rfl⟩, rfl⟩))
        cases hbad
      · exact .inl ⟨p, Nat.le_of_not_lt hlt, rfl⟩
    | freeRegion vid =>
      have hbad := hall (.rootUniversalRegion vid) (.inl (.inr ⟨vid, helement, rfl⟩))
      cases hbad
    | placeholder i =>
      obtain ⟨found, hfound, hlookup⟩ :=
        Res.exists_mem_of_mapM hplaceholders ((Finset.mem_sort (· ≤ ·)).mpr helement)
      have hsame := hall (.placeholderRegion found) (.inr ⟨found, hfound, rfl⟩)
      cases hsame
      exact .inr ⟨i, PlaceholderIndices.lookupPlaceholder_eq.mp hlookup, rfl⟩
  · rintro hall _ ((⟨_, ⟨p, hp, hlt, rfl⟩, rfl⟩ | ⟨vid, hvid, rfl⟩) | ⟨found, hfound, rfl⟩)
    · rcases hall (.point p) hp with ⟨q, hle, heq⟩ | ⟨i, -, heq⟩
      · cases heq
        exact absurd hlt (Nat.not_lt.mpr hle)
      · cases heq
    · rcases hall (.freeRegion vid) hvid with ⟨q, -, heq⟩ | ⟨i, -, heq⟩
      · cases heq
      · cases heq
    · obtain ⟨i, hi, hlookup⟩ := Res.mem_mapM_inv hplaceholders hfound
      rcases hall (.placeholder i) ((Finset.mem_sort (· ≤ ·)).mp hi) with ⟨q, -, heq⟩ | ⟨j, hj, heq⟩
      · cases heq
      · cases heq
        have hsame := PlaceholderIndices.lookupPlaceholder_eq.mpr hj
        rw [hlookup] at hsame
        cases hsame
        rfl

end RegionValues

/-! ## Solving -/

namespace RegionInferenceContext

section Solve

variable {self : RegionInferenceContext} {toRegionVid : Region → RegionVid}

/-- The free regions are those of the root universe. -/
def FreeAtRoot (definitions : List RegionDefinition) : Prop :=
  ∀ r < definitions.length, (definitionOf definitions r).origin = .freeRegion →
    (definitionOf definitions r).universe = .ROOT

/-- A component with a free region has the root universe. -/
theorem isRoot_of_free (hof : self.constraintSccs.Of self.definitions.length self.Edge
    (definitionOf self.definitions)) (hfirst : Merge.FreeFirst (definitionOf self.definitions))
    (hroot : FreeAtRoot self.definitions) {r : RegionVid} (hr : r < self.definitions.length)
    (hfree : (definitionOf self.definitions r).origin = .freeRegion) :
    (self.sccUniverse (self.constraintSccs.scc r)).isRoot = true := by
  obtain ⟨merge, hmerge, -, hseen⟩ := hof.merged _ (hof.scc_lt r hr)
  have hle := ((Merge.annotationOf_universes hfirst merge _).2.mp (Nat.le_refl _)) r
    ((hseen r).mpr ⟨hr, r, hr, rfl, .refl⟩)
  rw [hmerge, hroot r hr hfree] at hle
  exact decide_eq_true (Nat.le_zero.mp hle)

/-- Without opaque types and outside closures, solving reports nothing if and only if
    the constraints force no free region to outlive another that it is not known to
    outlive, and no placeholder to outlive a free region, another placeholder or a
    point of the body. -/
theorem solve_reports_nothing_iff (hready : self.Ready toRegionVid [])
    (hfirst : Merge.FreeFirst (definitionOf self.definitions))
    (hroot : FreeAtRoot self.definitions)
    {livePoints : BitMatrix RegionVid} (hinit : self.Initial livePoints toRegionVid [])
    (rounds : Nat) :
    ∃ after errors, self.solve rounds false = .ok (after, none, errors) ∧
      (errors = [] ↔
        (∀ r o, r < self.definitions.length →
          (definitionOf self.definitions r).origin = .freeRegion →
          (definitionOf self.definitions o).origin = .freeRegion →
          ReflTransGen self.Edge r o → self.universalRegionRelations.outlives r o = true) ∧
        ∀ r placeholder, r < self.definitions.length →
          (definitionOf self.definitions r).origin = .placeholder placeholder →
          ∀ s, ReflTransGen self.Edge r s → ∀ element, self.Own livePoints s element →
            (∃ p, self.sccValues.elements.numPoints ≤ p ∧ element = .point p) ∨
              ∃ i, self.sccValues.placeholderIndices.lookupIndex placeholder = .ok i ∧
                element = .placeholder i) := by
  obtain ⟨after, hrun, hpropagated, -, hregions⟩ := propagateConstraints_regions hready hfirst
    (fun m hm => absurd hm List.not_mem_nil) hinit
  obtain ⟨after', hrun', hleast⟩ := propagateConstraints_least hready hfirst
    (fun m hm => absurd hm List.not_mem_nil) hinit
  rw [hrun] at hrun'
  cases hrun'
  have hof := hready.components
  -- propagation changes only the values
  have hsccs : after.constraintSccs = self.constraintSccs := by rw [hpropagated.frame]
  have hdefinitions : after.definitions = self.definitions := by rw [hpropagated.frame]
  have hrelations : after.universalRegionRelations = self.universalRegionRelations := by
    rw [hpropagated.frame]
  have hmembers : after.memberConstraints = self.memberConstraints := by rw [hpropagated.frame]
  have hof' : after.constraintSccs.Of after.definitions.length after.Edge
      (definitionOf after.definitions) := by
    rw [hpropagated.frame]
    exact hof
  have hvalues : ∀ r < self.definitions.length, ∀ element,
      after.sccValues.Contains (self.constraintSccs.scc r) element ↔
        ∃ s, ReflTransGen self.Edge r s ∧ self.Own livePoints s element :=
    fun r hr element => hleast r hr (fun m hm => absurd hm List.not_mem_nil) element
  -- the placeholders in the values are those of the definitions
  have hlookup : ∀ r < self.definitions.length, ∀ i,
      after.sccValues.Contains (self.constraintSccs.scc r) (.placeholder i) →
        ∃ placeholder,
          after.sccValues.placeholderIndices.lookupPlaceholder i = .ok placeholder := by
    intro r hr i hi
    obtain ⟨s, -, placeholder, -, hindex⟩ := (hvalues r hr _).mp hi
    rw [hpropagated.indices]
    exact ⟨placeholder, PlaceholderIndices.lookupPlaceholder_eq.mpr hindex⟩
  have hcheckable : after.Checkable := by
    refine ⟨fun r hr hfree => ?_, fun r hr => ?_⟩
    · rw [hdefinitions] at hr hfree
      rw [sccUniverse, hsccs]
      exact isRoot_of_free hof hfirst hroot hr hfree
    · rw [hdefinitions] at hr
      rw [hsccs]
      exact RegionValues.elementsContainedIn_isOk (hlookup r hr)
  obtain ⟨errors, hcheck, herrors⟩ := checkUniversalRegions_spec hcheckable rounds []
  have hown : ∀ r < after.definitions.length,
      (definitionOf after.definitions r).origin = .freeRegion →
        after.sccValues.Contains (after.constraintSccs.scc r) (.freeRegion r) := by
    intro r hr hfree
    rw [hdefinitions] at hr hfree
    rw [hsccs]
    exact (hvalues r hr _).mpr ⟨r, .refl, hfree, rfl⟩
  have htrans : after.universalRegionRelations.Transitive := hrelations ▸ hready.transitive
  have hfirst' : Merge.FreeFirst (definitionOf after.definitions) := hdefinitions ▸ hfirst
  have hfine := fine_iff hof' hfirst' htrans hown
  refine ⟨after, errors, ?_, herrors.trans (hfine.trans (and_congr ?_ ?_))⟩
  · -- without member constraints nothing more is checked
    have hnone : after.memberConstraints.constraints = [] := by
      rw [hmembers]
      exact List.length_eq_zero_iff.mp hinit.members.length
    rw [List.nil_append] at hcheck
    simp only [solve, hrun, Res.ok_bind, Bool.false_eq_true, if_false, hcheck]
    cases errors with
    | nil => simp [checkMemberConstraints, hnone]
    | cons error errors => simp
  · rw [hdefinitions, hsccs, hrelations]
    constructor
    · intro h r o hr hfree ho hpath
      exact h r hr hfree o ((hvalues r hr _).mpr ⟨o, hpath, ho, rfl⟩)
    · intro h r hr hfree o ho
      obtain ⟨s, hpath, hsfree, rfl⟩ := (hvalues r hr _).mp ho
      exact h r _ hr hfree hsfree hpath
  · rw [hdefinitions]
    have hbound : ∀ r < self.definitions.length, ∀ placeholder,
        after.Fine r (.placeholder placeholder) ↔
          ∀ s, ReflTransGen self.Edge r s → ∀ element, self.Own livePoints s element →
            (∃ p, self.sccValues.elements.numPoints ≤ p ∧ element = .point p) ∨
              ∃ i, self.sccValues.placeholderIndices.lookupIndex placeholder = .ok i ∧
                element = .placeholder i := by
      intro r hr placeholder
      obtain ⟨elements, helements⟩ := hcheckable.elements r (by rw [hdefinitions]; exact hr)
      have hall := RegionValues.forall_elementsContainedIn helements placeholder
      rw [hsccs, hpropagated.elements, hpropagated.indices] at hall
      have hfineEq : after.Fine r (.placeholder placeholder) ↔
          ∀ element ∈ elements, element = .placeholderRegion placeholder := by
        unfold Fine
        rw [helements]
        simp
      rw [hfineEq, hall]
      constructor
      · exact fun h s hpath element hs => h element ((hvalues r hr element).mpr ⟨s, hpath, hs⟩)
      · intro h element helement
        obtain ⟨s, hpath, hs⟩ := (hvalues r hr element).mp helement
        exact h s hpath element hs
    constructor
    · exact fun h r placeholder hr horigin =>
        (hbound r hr placeholder).mp (h r hr placeholder horigin)
    · exact fun h r hr placeholder horigin =>
        (hbound r hr placeholder).mpr (h r placeholder hr horigin)

end Solve

end RegionInferenceContext

end MutationTesting.Borrowck
