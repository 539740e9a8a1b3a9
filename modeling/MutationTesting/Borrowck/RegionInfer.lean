/-
  MutationTesting.Borrowck.RegionInfer

  The region inference context and how it starts (`RegionInferenceContext::new`
  and `init_free_and_bound_regions` in `borrowck/src/region_infer/mod.rs`): the
  value of a component begins as what its regions contain on their own.
-/
import MutationTesting.Borrowck.MemberConstraints
import MutationTesting.Borrowck.RegionSccs

namespace MutationTesting.Borrowck

open MutationTesting.Rust MutationTesting.Mir MutationTesting.Graph Relation

/-! ## Universal region relations -/

/-- `TransitiveRelation<RegionVid>`, which is rustc's. -/
structure TransitiveRelation where
  contains : RegionVid → RegionVid → Bool
  parents : RegionVid → List RegionVid
  mutualImmediatePostdominator : List RegionVid → Option RegionVid

/-- What is known of the universal regions. -/
structure UniversalRegionRelations where
  universalRegions : UniversalRegions
  outlivesRelation : TransitiveRelation
  inverseOutlives : TransitiveRelation

/-- `UniversalRegionRelations::outlives`. -/
def UniversalRegionRelations.outlives (self : UniversalRegionRelations) (fr1 fr2 : RegionVid) :
    Bool :=
  self.outlivesRelation.contains fr1 fr2

/-! ## The context -/

/-- `MirTypeckRegionConstraints`, but for what only diagnostics read. -/
structure MirTypeckRegionConstraints where
  placeholderIndices : PlaceholderIndices
  livenessConstraints : LivenessValues
  outlivesConstraints : OutlivesConstraintSet
  memberConstraints : MemberConstraintSet RegionVid

structure AppliedMemberConstraint where
  memberRegionScc : ConstraintSccIndex
  minChoice : RegionVid
  memberConstraintIndex : NllMemberConstraintIndex
  deriving DecidableEq

structure RegionInferenceContext where
  definitions : List RegionDefinition
  livenessConstraints : LivenessValues
  constraints : OutlivesConstraintSet
  constraintGraph : ConstraintGraph
  constraintSccs : ConstraintSccs
  revSccGraph : Option ReverseSccGraph
  memberConstraints : MemberConstraintSet ConstraintSccIndex
  memberConstraintsApplied : List AppliedMemberConstraint
  sccValues : RegionValues
  universalRegionRelations : UniversalRegionRelations

namespace RegionInferenceContext

/-- `universal_regions`. -/
def universalRegions (self : RegionInferenceContext) : UniversalRegions :=
  self.universalRegionRelations.universalRegions

/-- `scc_universe`. -/
def sccUniverse (self : RegionInferenceContext) (scc : ConstraintSccIndex) : UniverseIndex :=
  (self.constraintSccs.annotationOf scc).minUniverse

/-- `scc_representative`. -/
def sccRepresentative (self : RegionInferenceContext) (scc : ConstraintSccIndex) : RegionVid :=
  (self.constraintSccs.annotationOf scc).representative

/-- One round of the loop of `init_free_and_bound_regions`. -/
def initRegion (self : RegionInferenceContext) («variable» : RegionVid) :
    Res RegionInferenceContext := do
  let scc := self.constraintSccs.scc «variable»
  let definition ← index self.definitions «variable»
  match definition.origin with
  | .freeRegion =>
    let livenessConstraints ← self.livenessConstraints.addAllPoints «variable»
    let sccValues := self.sccValues.addAllPoints scc
    return { self with
      livenessConstraints
      sccValues := (sccValues.addFreeRegion scc «variable»).2 }
  | .placeholder placeholder =>
    let (_, sccValues) ← self.sccValues.addPlaceholder scc placeholder
    return { self with sccValues }
  | .existential _ => return self

/-- `init_free_and_bound_regions`. -/
def initFreeAndBoundRegions (self : RegionInferenceContext) : Res RegionInferenceContext :=
  (List.range self.definitions.length).foldlM initRegion self

/-- `regions` of the liveness constraints: the rows of the declared regions. -/
def livenessRegions (livenessConstraints : LivenessValues) (numRegionVars : Nat) :
    Res (List RegionVid) :=
  match livenessConstraints.points with
  | some _ => .ok (List.range numRegionVars)
  | none => .error (.message "use with_specific_points")

/-- `RegionInferenceContext::new`. -/
def new (newAnnotated : NewAnnotated) (varInfos : List RegionVariableInfo)
    (constraints : MirTypeckRegionConstraints)
    (universalRegionRelations : UniversalRegionRelations) (taintedByErrors : Bool)
    (elements : DenseLocationMap) : Res RegionInferenceContext := do
  let (outlivesConstraints, memberConstraints) :=
    if taintedByErrors then (.empty, .empty)
    else (constraints.outlivesConstraints, constraints.memberConstraints)
  let definitions := varInfos.map fun info => .new info.universe info.origin
  let (constraintSccs, outlivesConstraints) ← outlivesConstraints.addOutlivesStatic
    newAnnotated universalRegionRelations.universalRegions.frStatic definitions
  let constraintGraph ← outlivesConstraints.graph definitions.length
  let livenessConstraints := constraints.livenessConstraints
  let regions ← livenessRegions livenessConstraints definitions.length
  let sccValues ← regions.foldlM
    (fun values region =>
      values.mergeLiveness (constraintSccs.scc region) region livenessConstraints)
    (RegionValues.new elements constraints.placeholderIndices)
  let memberConstraints ← memberConstraints.intoMapped constraintSccs.scc
  initFreeAndBoundRegions {
    definitions, livenessConstraints
    constraints := outlivesConstraints
    constraintGraph, constraintSccs
    revSccGraph := none
    memberConstraints
    memberConstraintsApplied := []
    sccValues, universalRegionRelations }

end RegionInferenceContext

/-! ## Initial values -/

namespace RegionValues

/-- What merging liveness adds: the points where the source is live. -/
theorem contains_mergeLiveness {values : RegionValues} {liveness : LivenessValues}
    {points : BitMatrix RegionVid} (hpoints : liveness.points = some points)
    (target : ConstraintSccIndex) (source : RegionVid) :
    ∃ values', values.mergeLiveness target source liveness = .ok values' ∧
      values'.elements = values.elements ∧
      values'.placeholderIndices = values.placeholderIndices ∧
      ∀ a element, values'.Contains a element ↔ values.Contains a element ∨
        a = target ∧ ∃ p ∈ points.cols source, element = .point p := by
  unfold mergeLiveness
  simp only [hpoints]
  cases hrow : points.row source with
  | none => exact ⟨values, rfl, rfl, rfl, by simp [BitMatrix.cols_of_none hrow]⟩
  | some set =>
    refine ⟨_, rfl, rfl, rfl, fun a element => ?_⟩
    rw [BitMatrix.cols_of_some hrow]
    cases element with
    | point p =>
      simp only [Contains, BitMatrix.unionRow, BitMatrix.cols_write, ValueElement.point.injEq]
      by_cases ha : a = target
      · simp [ha]
      · simp [ha]
    | freeRegion vid => simp [Contains]
    | placeholder i => simp [Contains]

theorem contains_addAllPoints (values : RegionValues) (r a : ConstraintSccIndex)
    (element : ValueElement) :
    (values.addAllPoints r).Contains a element ↔ values.Contains a element ∨
      a = r ∧ ∃ p < values.elements.numPoints, element = .point p := by
  cases element with
  | point p =>
    simp only [Contains, addAllPoints, BitMatrix.insertAllIntoRow, BitMatrix.cols_write,
      ValueElement.point.injEq]
    by_cases ha : a = r
    · simp [ha]
    · simp [ha]
  | freeRegion vid => simp [Contains, addAllPoints]
  | placeholder i => simp [Contains, addAllPoints]

theorem contains_addFreeRegion (values : RegionValues) (r a : ConstraintSccIndex)
    (vid : RegionVid) (element : ValueElement) :
    (values.addFreeRegion r vid).2.Contains a element ↔ values.Contains a element ∨
      a = r ∧ element = .freeRegion vid := by
  cases element with
  | point p => simp [Contains, addFreeRegion]
  | freeRegion vid' =>
    simp only [Contains, addFreeRegion, BitMatrix.insert, BitMatrix.cols_write,
      ValueElement.freeRegion.injEq]
    by_cases ha : a = r
    · simp [ha, or_comm]
    · simp [ha]
  | placeholder i => simp [Contains, addFreeRegion]

theorem contains_addPlaceholder {values : RegionValues} {placeholder : PlaceholderRegion}
    {i : PlaceholderIndex} (h : values.placeholderIndices.lookupIndex placeholder = .ok i)
    (r : ConstraintSccIndex) :
    ∃ changed values', values.addPlaceholder r placeholder = .ok (changed, values') ∧
      values'.elements = values.elements ∧
      values'.placeholderIndices = values.placeholderIndices ∧
      ∀ a element, values'.Contains a element ↔ values.Contains a element ∨
        a = r ∧ element = .placeholder i := by
  refine ⟨(values.placeholders.insert r i).1,
    { values with placeholders := (values.placeholders.insert r i).2 }, ?_, rfl, rfl,
    fun a element => ?_⟩
  · rw [addPlaceholder, h]
    rfl
  · cases element with
    | point p => simp [Contains]
    | freeRegion vid => simp [Contains]
    | placeholder i' =>
      simp only [Contains, BitMatrix.insert, BitMatrix.cols_write,
        ValueElement.placeholder.injEq]
      by_cases ha : a = r
      · simp [ha, or_comm]
      · simp [ha]

end RegionValues

/-- What a region of the given definition contains on its own: the points where it is
    live, and for a free region every point and itself, for a placeholder itself. -/
def OwnElement (livePoints : BitMatrix RegionVid) (numPoints : Nat)
    (placeholderIndices : PlaceholderIndices) (definitions : RegionVid → RegionDefinition)
    (r : RegionVid) : ValueElement → Prop
  | .point p => p ∈ livePoints.cols r ∨ (definitions r).origin = .freeRegion ∧ p < numPoints
  | .freeRegion vid => (definitions r).origin = .freeRegion ∧ vid = r
  | .placeholder i => ∃ placeholder, (definitions r).origin = .placeholder placeholder ∧
      placeholderIndices.lookupIndex placeholder = .ok i

namespace RegionInferenceContext

/-- Merging the liveness of all regions gives each component the points where its
    regions are live. -/
theorem foldlM_mergeLiveness {liveness : LivenessValues} {points : BitMatrix RegionVid}
    (hpoints : liveness.points = some points) (scc : RegionVid → ConstraintSccIndex)
    (regions : List RegionVid) (values : RegionValues) :
    ∃ values', regions.foldlM
        (fun values region => values.mergeLiveness (scc region) region liveness) values =
          .ok values' ∧
      values'.elements = values.elements ∧
      values'.placeholderIndices = values.placeholderIndices ∧
      ∀ a element, values'.Contains a element ↔ values.Contains a element ∨
        ∃ r ∈ regions, scc r = a ∧ ∃ p ∈ points.cols r, element = .point p := by
  induction regions generalizing values with
  | nil => exact ⟨values, rfl, rfl, rfl, by simp⟩
  | cons r regions ih =>
    obtain ⟨values₁, hmerge, helements₁, hindices₁, hcontains₁⟩ :=
      @RegionValues.contains_mergeLiveness values liveness points hpoints (scc r) r
    obtain ⟨values', hrest, helements, hindices, hcontains⟩ := ih values₁
    refine ⟨values', ?_, helements.trans helements₁, hindices.trans hindices₁, ?_⟩
    · rw [List.foldlM_cons, hmerge]
      exact hrest
    · intro a element
      rw [hcontains, hcontains₁, or_assoc, @eq_comm _ a]
      simp only [List.mem_cons, exists_eq_or_imp]

/-- Every placeholder among the definitions has an index. -/
def PlaceholdersKnown (placeholderIndices : PlaceholderIndices)
    (definitions : List RegionDefinition) : Prop :=
  ∀ definition ∈ definitions, ∀ placeholder, definition.origin = .placeholder placeholder →
    placeholder ∈ placeholderIndices.indices

/-- One round of `init_free_and_bound_regions` adds to the component of a region what
    the region contains for its origin. -/
theorem initRegion_spec {self : RegionInferenceContext} {points : BitMatrix RegionVid}
    (hpoints : self.livenessConstraints.points = some points)
    (hknown : PlaceholdersKnown self.sccValues.placeholderIndices self.definitions)
    {r : RegionVid} (hr : r < self.definitions.length) :
    ∃ liveness points' values, self.initRegion r =
        .ok { self with livenessConstraints := liveness, sccValues := values } ∧
      liveness.points = some points' ∧
      values.elements = self.sccValues.elements ∧
      values.placeholderIndices = self.sccValues.placeholderIndices ∧
      ∀ a element, values.Contains a element ↔ self.sccValues.Contains a element ∨
        self.constraintSccs.scc r = a ∧
          OwnElement .empty self.sccValues.elements.numPoints
            self.sccValues.placeholderIndices (definitionOf self.definitions) r element := by
  have hdefinition : definitionOf self.definitions r = self.definitions[r] := by
    rw [definitionOf, List.getElem?_eq_getElem hr, Option.getD_some]
  unfold initRegion
  rw [index_of_lt hr, Res.ok_bind]
  cases horigin : self.definitions[r].origin with
  | freeRegion =>
    refine ⟨{ self.livenessConstraints with
      points := some (points.insertAllIntoRow self.livenessConstraints.elements.numPoints r) }, _,
      ((self.sccValues.addAllPoints (self.constraintSccs.scc r)).addFreeRegion
        (self.constraintSccs.scc r) r).2, ?_, rfl, rfl, rfl, ?_⟩
    · simp only [LivenessValues.addAllPoints, hpoints, Res.ok_bind, Res.pure_eq]
    · intro a element
      rw [RegionValues.contains_addFreeRegion, RegionValues.contains_addAllPoints, or_assoc]
      refine or_congr_right ?_
      cases element with
      | point p => simp [OwnElement, hdefinition, horigin, eq_comm]
      | freeRegion vid => simp [OwnElement, hdefinition, horigin, eq_comm]
      | placeholder i => simp [OwnElement, hdefinition, horigin]
  | placeholder placeholder =>
    have hmem : placeholder ∈ self.sccValues.placeholderIndices.indices :=
      hknown _ (List.getElem_mem hr) placeholder horigin
    have hlookup : self.sccValues.placeholderIndices.lookupIndex placeholder =
        .ok (self.sccValues.placeholderIndices.indices.idxOf placeholder) := if_pos hmem
    obtain ⟨changed, values, hadd, helements, hindices, hcontains⟩ :=
      RegionValues.contains_addPlaceholder hlookup (self.constraintSccs.scc r)
    refine ⟨self.livenessConstraints, points, values, ?_, hpoints, helements, hindices, ?_⟩
    · simp only [hadd, Res.ok_bind, Res.pure_eq]
    · intro a element
      rw [hcontains]
      refine or_congr_right ?_
      cases element with
      | point p => simp [OwnElement, hdefinition, horigin]
      | freeRegion vid => simp [OwnElement, hdefinition, horigin]
      | placeholder i =>
        simp [OwnElement, hdefinition, horigin, hlookup, eq_comm]
  | existential fromForall =>
    refine ⟨self.livenessConstraints, points, self.sccValues, rfl, hpoints, rfl, rfl, ?_⟩
    intro a element
    cases element with
    | point p => simp [OwnElement, hdefinition, horigin]
    | freeRegion vid => simp [OwnElement, hdefinition, horigin]
    | placeholder i => simp [OwnElement, hdefinition, horigin]

/-- The loop of `init_free_and_bound_regions`. -/
theorem foldlM_initRegion {rs : List RegionVid} {self : RegionInferenceContext}
    (hrs : ∀ r ∈ rs, r < self.definitions.length) {points : BitMatrix RegionVid}
    (hpoints : self.livenessConstraints.points = some points)
    (hknown : PlaceholdersKnown self.sccValues.placeholderIndices self.definitions) :
    ∃ liveness values, rs.foldlM initRegion self =
        .ok { self with livenessConstraints := liveness, sccValues := values } ∧
      values.elements = self.sccValues.elements ∧
      values.placeholderIndices = self.sccValues.placeholderIndices ∧
      ∀ a element, values.Contains a element ↔ self.sccValues.Contains a element ∨
        ∃ r ∈ rs, self.constraintSccs.scc r = a ∧
          OwnElement .empty self.sccValues.elements.numPoints
            self.sccValues.placeholderIndices (definitionOf self.definitions) r element := by
  induction rs generalizing self points with
  | nil => exact ⟨self.livenessConstraints, self.sccValues, rfl, rfl, rfl, by simp⟩
  | cons r rs ih =>
    obtain ⟨liveness₁, points₁, values₁, hinit, hpoints₁, helements₁, hindices₁, hcontains₁⟩ :=
      initRegion_spec hpoints hknown (hrs r List.mem_cons_self)
    have hrest : ∀ s ∈ rs, s < ({ self with
        livenessConstraints := liveness₁, sccValues := values₁ } :
          RegionInferenceContext).definitions.length :=
      fun s hs => hrs s (List.mem_cons_of_mem _ hs)
    have hknown₁ : PlaceholdersKnown values₁.placeholderIndices self.definitions :=
      hindices₁ ▸ hknown
    obtain ⟨liveness, values, hloop, helements, hindices, hcontains⟩ :=
      ih hrest hpoints₁ hknown₁
    refine ⟨liveness, values, ?_, helements.trans helements₁, hindices.trans hindices₁, ?_⟩
    · rw [List.foldlM_cons, hinit]
      exact hloop
    · intro a element
      have hself := hcontains a element
      dsimp only at hself
      rw [helements₁, hindices₁] at hself
      rw [hself, hcontains₁, or_assoc]
      simp only [List.mem_cons, exists_eq_or_imp]

/-- What a region of the context contains on its own. -/
def Own (self : RegionInferenceContext) (livePoints : BitMatrix RegionVid) (r : RegionVid)
    (element : ValueElement) : Prop :=
  OwnElement livePoints self.sccValues.elements.numPoints self.sccValues.placeholderIndices
    (definitionOf self.definitions) r element

/-- The edges of the region graph of the context. -/
def Edge (self : RegionInferenceContext) : RegionVid → RegionVid → Prop :=
  self.constraints.Edge self.universalRegions.frStatic self.definitions.length

/-- A context before its constraints are propagated. -/
structure Initial (context : RegionInferenceContext) (livePoints : BitMatrix RegionVid)
    (toRegionVid : Region → RegionVid) (ms : List MemberConstraint) : Prop where
  reverse : context.revSccGraph = none
  applied : context.memberConstraintsApplied = []
  members : context.memberConstraints.Holds
    (fun m => context.constraintSccs.scc (toRegionVid m.memberRegion)) toRegionVid ms
  values : ∀ a element, context.sccValues.Contains a element ↔
    ∃ r < context.definitions.length, context.constraintSccs.scc r = a ∧
      context.Own livePoints r element

variable {newAnnotated : NewAnnotated} {varInfos : List RegionVariableInfo}
  {constraints : MirTypeckRegionConstraints} {relations : UniversalRegionRelations}
  {elements : DenseLocationMap}

/-- The definitions of the region variables. -/
def definitionsOf (varInfos : List RegionVariableInfo) : List RegionDefinition :=
  varInfos.map fun info => .new info.universe info.origin

/-- A new context has the components of the constraints after `add_outlives_static`;
    each starts with what its regions contain on their own. -/
theorem new_spec {sccs : ConstraintSccs} {livePoints : BitMatrix RegionVid}
    {toRegionVid : Region → RegionVid} {ms : List MemberConstraint}
    (hset : constraints.outlivesConstraints.Declared (definitionsOf varInfos).length)
    (hstatic : relations.universalRegions.frStatic < (definitionsOf varInfos).length)
    (hfirst : Merge.FreeFirst (definitionOf (definitionsOf varInfos)))
    (hsccs : constraints.outlivesConstraints.computeSccs newAnnotated
      relations.universalRegions.frStatic (definitionsOf varInfos) = .ok sccs)
    (hof : sccs.Of (definitionsOf varInfos).length
      (constraints.outlivesConstraints.Edge relations.universalRegions.frStatic
        (definitionsOf varInfos).length) (definitionOf (definitionsOf varInfos)))
    (hpoints : constraints.livenessConstraints.points = some livePoints)
    (hknown : PlaceholdersKnown constraints.placeholderIndices (definitionsOf varInfos))
    (hmembers : constraints.memberConstraints.Holds (fun m => toRegionVid m.memberRegion)
      toRegionVid ms) :
    ∃ context, new newAnnotated varInfos constraints relations false elements =
        .ok context ∧
      context.definitions = definitionsOf varInfos ∧
      context.universalRegionRelations = relations ∧
      context.sccValues.elements = elements ∧
      context.sccValues.placeholderIndices = constraints.placeholderIndices ∧
      context.Initial livePoints toRegionVid ms ∧
      constraints.outlivesConstraints.addOutlivesStatic newAnnotated
        relations.universalRegions.frStatic (definitionsOf varInfos) =
          .ok (context.constraintSccs, context.constraints) ∧
      ∀ r s, ReflTransGen context.Edge r s ↔
        ReflTransGen (fun sup sub =>
          constraints.outlivesConstraints.Edge relations.universalRegions.frStatic
            (definitionsOf varInfos).length sup sub ∨
          sup < (definitionsOf varInfos).length ∧
            constraints.outlivesConstraints.IllegalUniverse
              relations.universalRegions.frStatic (definitionsOf varInfos) sup ∧
            sub = relations.universalRegions.frStatic) r s := by
  obtain ⟨sccs', set', hadd, -, hset', hreach⟩ :=
    addOutlivesStatic_spec hset hstatic hfirst hsccs hof
  obtain ⟨graph, hgraph, -⟩ := set'.graph_edges hset' relations.universalRegions.frStatic
  obtain ⟨values, hmerge, helements, hindices, hcontains⟩ := foldlM_mergeLiveness hpoints
    sccs'.scc (List.range (definitionsOf varInfos).length)
    (RegionValues.new elements constraints.placeholderIndices)
  obtain ⟨mapped, hmapped, hholds⟩ := hmembers.intoMapped sccs'.scc
  let start : RegionInferenceContext := {
    definitions := definitionsOf varInfos
    livenessConstraints := constraints.livenessConstraints
    constraints := set'
    constraintGraph := graph
    constraintSccs := sccs'
    revSccGraph := none
    memberConstraints := mapped
    memberConstraintsApplied := []
    sccValues := values
    universalRegionRelations := relations }
  have hknown' : PlaceholdersKnown start.sccValues.placeholderIndices start.definitions := by
    rw [hindices]
    exact hknown
  obtain ⟨liveness', values', hinit, helements', hindices', hcontains'⟩ :=
    @foldlM_initRegion (List.range (definitionsOf varInfos).length) start
      (fun r hr => List.mem_range.mp hr) livePoints hpoints hknown'
  refine ⟨{ start with livenessConstraints := liveness', sccValues := values' }, ?_, rfl, rfl,
    helements'.trans helements, hindices'.trans hindices, ⟨rfl, rfl, hholds, ?_⟩, hadd, hreach⟩
  · unfold new
    simp only [Bool.false_eq_true, if_false]
    have hadd' := hadd
    rw [definitionsOf] at hadd' hgraph hmerge hinit
    rw [hadd', Res.ok_bind, hgraph, Res.ok_bind, livenessRegions, hpoints, Res.ok_bind, hmerge,
      Res.ok_bind, hmapped, Res.ok_bind]
    exact hinit
  · intro a element
    have hnew :
        ¬ (RegionValues.new elements constraints.placeholderIndices).Contains a element := by
      cases element with
      | point p => simp [RegionValues.new, RegionValues.Contains]
      | freeRegion vid => simp [RegionValues.new, RegionValues.Contains]
      | placeholder i => simp [RegionValues.new, RegionValues.Contains]
    have hold : ∀ r, OwnElement livePoints values'.elements.numPoints values'.placeholderIndices
        (definitionOf (definitionsOf varInfos)) r element ↔
        (∃ p ∈ livePoints.cols r, element = .point p) ∨
          OwnElement .empty values.elements.numPoints values.placeholderIndices
            (definitionOf (definitionsOf varInfos)) r element := by
      intro r
      rw [helements', hindices']
      cases element with
      | point p => simp [OwnElement, start]
      | freeRegion vid => simp [OwnElement]
      | placeholder i => simp [OwnElement, start]
    rw [hcontains', hcontains]
    simp only [hnew, false_or, Own, hold, List.mem_range, start]
    constructor
    · rintro (⟨r, hr, hscc, hlive⟩ | ⟨r, hr, hscc, hown⟩)
      · exact ⟨r, hr, hscc, .inl hlive⟩
      · exact ⟨r, hr, hscc, .inr hown⟩
    · rintro ⟨r, hr, hscc, hlive | hown⟩
      · exact .inl ⟨r, hr, hscc, hlive⟩
      · exact .inr ⟨r, hr, hscc, hown⟩

end RegionInferenceContext

end MutationTesting.Borrowck
