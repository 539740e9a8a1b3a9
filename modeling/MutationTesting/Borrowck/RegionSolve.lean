/-
  MutationTesting.Borrowck.RegionSolve

  Region inference from its input on: a new context (`RegionInferenceContext::new`) is
  solved, and what is reported is what the constraints of type checking force.
-/
import MutationTesting.Borrowck.RegionCheck

namespace MutationTesting.Borrowck

open MutationTesting.Rust MutationTesting.Mir MutationTesting.Graph Relation

/-- A region must outlive another: a constraint says so, or it is forced out of its
    universe and must outlive `'static`. -/
def OutlivesConstraintSet.Forces (set : OutlivesConstraintSet) (frStatic : RegionVid)
    (definitions : List RegionDefinition) (sup sub : RegionVid) : Prop :=
  set.Edge frStatic definitions.length sup sub ∨
    sup < definitions.length ∧ set.IllegalUniverse frStatic definitions sup ∧ sub = frStatic

/-- What rustc documents of its algorithm, for the two graphs that `add_outlives_static`
    asks for: it finds their components. -/
structure FindsComponents (newAnnotated : NewAnnotated) (set : OutlivesConstraintSet)
    (frStatic : RegionVid) (definitions : List RegionDefinition) : Prop where
  first : ∀ sccs, set.computeSccs newAnnotated frStatic definitions = .ok sccs →
    sccs.Of definitions.length (set.Edge frStatic definitions.length) (definitionOf definitions)
  last : ∀ sccs set', set.addOutlivesStatic newAnnotated frStatic definitions = .ok (sccs, set') →
    sccs.Of definitions.length (set'.Edge frStatic definitions.length) (definitionOf definitions)

namespace RegionInferenceContext

/-- What type checking hands to region inference, for a body without opaque types. -/
structure FromTypeCheck (varInfos : List RegionVariableInfo)
    (constraints : MirTypeckRegionConstraints) (relations : UniversalRegionRelations)
    (livePoints : BitMatrix RegionVid) : Prop where
  declared : constraints.outlivesConstraints.Declared (definitionsOf varInfos).length
  static : relations.universalRegions.frStatic < (definitionsOf varInfos).length
  universals : relations.universalRegions.numUniversals ≤ (definitionsOf varInfos).length
  freeFirst : Merge.FreeFirst (definitionOf (definitionsOf varInfos))
  freeAtRoot : FreeAtRoot (definitionsOf varInfos)
  points : constraints.livenessConstraints.points = some livePoints
  known : PlaceholdersKnown constraints.placeholderIndices (definitionsOf varInfos)
  members : ∃ toRegionVid, constraints.memberConstraints.Holds
    (fun m => toRegionVid m.memberRegion) toRegionVid []
  transitive : relations.Transitive

variable {newAnnotated : NewAnnotated} {varInfos : List RegionVariableInfo}
  {constraints : MirTypeckRegionConstraints} {relations : UniversalRegionRelations}
  {elements : DenseLocationMap} {livePoints : BitMatrix RegionVid}

/-- Region inference returns.  Outside closures it reports nothing if and only if the
    constraints force no free region to outlive another that it is not known to
    outlive, and no placeholder to outlive a free region, another placeholder or a
    point of the body. -/
theorem new_solve_reports_nothing_iff
    (hinput : FromTypeCheck varInfos constraints relations livePoints)
    (hfinds : FindsComponents newAnnotated constraints.outlivesConstraints
      relations.universalRegions.frStatic (definitionsOf varInfos)) (rounds : Nat) :
    ∃ context after errors,
      new newAnnotated varInfos constraints relations false elements = .ok context ∧
      context.solve rounds false = .ok (after, none, errors) ∧
      (errors = [] ↔
        (∀ r o, r < (definitionsOf varInfos).length →
          (definitionOf (definitionsOf varInfos) r).origin = .freeRegion →
          (definitionOf (definitionsOf varInfos) o).origin = .freeRegion →
          ReflTransGen (constraints.outlivesConstraints.Forces
            relations.universalRegions.frStatic (definitionsOf varInfos)) r o →
          relations.outlives r o = true) ∧
        ∀ r placeholder, r < (definitionsOf varInfos).length →
          (definitionOf (definitionsOf varInfos) r).origin = .placeholder placeholder →
          ∀ s, ReflTransGen (constraints.outlivesConstraints.Forces
            relations.universalRegions.frStatic (definitionsOf varInfos)) r s →
          ∀ element, OwnElement livePoints elements.numPoints constraints.placeholderIndices
              (definitionOf (definitionsOf varInfos)) s element →
            (∃ p, elements.numPoints ≤ p ∧ element = .point p) ∨
              ∃ i, constraints.placeholderIndices.lookupIndex placeholder = .ok i ∧
                element = .placeholder i) := by
  obtain ⟨toRegionVid, hmembers⟩ := hinput.members
  obtain ⟨graph, hgraph, -⟩ :=
    constraints.outlivesConstraints.graph_edges hinput.declared relations.universalRegions.frStatic
  have hsccs : constraints.outlivesConstraints.computeSccs newAnnotated
      relations.universalRegions.frStatic (definitionsOf varInfos) =
        .ok (newAnnotated (definitionsOf varInfos).length
          (fun r => graph.outgoingRegions r constraints.outlivesConstraints
            relations.universalRegions.frStatic)
          fun r => .new r (definitionOf (definitionsOf varInfos) r)) := by
    rw [OutlivesConstraintSet.computeSccs, hgraph]
    rfl
  obtain ⟨context, hnew, hdefinitions, hrelations, helements, hindices, hinit, hadd, hreach⟩ :=
    @new_spec newAnnotated varInfos constraints relations elements _ _ toRegionVid []
      hinput.declared hinput.static hinput.freeFirst hsccs (hfinds.first _ hsccs) hinput.points
      hinput.known hmembers
  -- the components are those of the constraints with the ones that were added
  have hready : context.Ready toRegionVid [] := by
    refine ⟨?_, ?_, ?_, hinit.members, ?_⟩
    · have hof := hfinds.last _ _ hadd
      rw [Edge, universalRegions, hdefinitions, hrelations]
      exact hof
    · rw [universalRegions, hrelations, hdefinitions]
      exact hinput.universals
    · intro graph hgraph
      rw [hinit.reverse] at hgraph
      cases hgraph
    · rw [hrelations]
      exact hinput.transitive
  obtain ⟨after, errors, hsolve, herrors⟩ := solve_reports_nothing_iff hready
    (by rw [hdefinitions]; exact hinput.freeFirst) (by rw [hdefinitions]; exact hinput.freeAtRoot)
    hinit rounds
  refine ⟨context, after, errors, hnew, hsolve, herrors.trans ?_⟩
  have hforces : ∀ r s, ReflTransGen context.Edge r s ↔
      ReflTransGen (constraints.outlivesConstraints.Forces relations.universalRegions.frStatic
        (definitionsOf varInfos)) r s := hreach
  simp only [hforces, Own, hdefinitions, hrelations, helements, hindices]

/-! ## Two lifetime parameters -/

section Parameters

/-- `'static` and two lifetime parameters. -/
def parameterInfos : List RegionVariableInfo :=
  [⟨.nll .freeRegion, .ROOT⟩, ⟨.nll .freeRegion, .ROOT⟩, ⟨.nll .freeRegion, .ROOT⟩]

/-- The second parameter must outlive the first. -/
def parameterConstraints (elements : DenseLocationMap) : MirTypeckRegionConstraints where
  placeholderIndices := ⟨[], List.nodup_nil⟩
  livenessConstraints := .withSpecificPoints elements
  outlivesConstraints := lendingConstraints
  memberConstraints := .empty

/-- All three regions are universal; that the second parameter outlives the first is
    known or not. -/
def parameterRelations (known : Bool) : UniversalRegionRelations where
  universalRegions := ⟨0, 1, 1, 3⟩
  outlivesRelation := {
    contains r s := r = 0 || r = s || (known && r = 2 && s = 1)
    parents _ := []
    mutualImmediatePostdominator _ := none }
  inverseOutlives := {
    contains r s := s = 0 || r = s || (known && s = 2 && r = 1)
    parents _ := []
    mutualImmediatePostdominator _ := none }

/-- Each of the three is a component. -/
def parameterNewAnnotated : NewAnnotated := fun _ _ _ =>
  lendingSccs (definitionOf (definitionsOf parameterInfos))

theorem findsComponents_parameter : FindsComponents parameterNewAnnotated lendingConstraints 0
    (definitionsOf parameterInfos) where
  first sccs h := by
    cases h
    exact lendingSccs_of _
  last sccs set' h := by
    -- no component reaches a placeholder, so no constraint is added
    cases h
    exact lendingSccs_of _

theorem transitive_parameter (known : Bool) : (parameterRelations known).Transitive := by
  intro a b c hab hbc
  simp only [UniversalRegionRelations.outlives, parameterRelations, Bool.or_eq_true,
    Bool.and_eq_true, decide_eq_true_eq] at hab hbc ⊢
  rcases hab with (rfl | rfl) | ⟨⟨rfl, rfl⟩, rfl⟩
  · exact .inl (.inl rfl)
  · exact hbc
  · rcases hbc with (hb | rfl) | ⟨⟨-, hb⟩, -⟩
    · cases hb
    · exact .inr ⟨⟨rfl, rfl⟩, rfl⟩
    · cases hb

theorem freeRegion_parameter {definition : RegionDefinition}
    (h : definition ∈ definitionsOf parameterInfos) :
    definition = ⟨.freeRegion, .ROOT, none⟩ := by
  simpa [definitionsOf, parameterInfos, RegionDefinition.new] using h

theorem fromTypeCheck_parameter (elements : DenseLocationMap) (known : Bool) :
    FromTypeCheck parameterInfos (parameterConstraints elements) (parameterRelations known)
      .empty where
  declared := declared_lending le_rfl
  static := Nat.succ_pos 2
  universals := Nat.le_refl 3
  freeFirst r s hr hs := by
    match r, s with
    | _, 0 | _, 1 | _, 2 => exact absurd rfl hs
    | 0, s + 3 => exact Nat.succ_pos _
    | 1, s + 3 => exact Nat.succ_lt_succ (Nat.succ_pos _)
    | 2, s + 3 => exact Nat.succ_lt_succ (Nat.succ_lt_succ (Nat.succ_pos _))
    | r + 3, s + 3 => cases hr
  freeAtRoot r hr _ := by
    rw [definitionOf, List.getElem?_eq_getElem hr, Option.getD_some,
      freeRegion_parameter (List.getElem_mem hr)]
  points := rfl
  known definition hdefinition placeholder horigin := by
    rw [freeRegion_parameter hdefinition] at horigin
    cases horigin
  members := ⟨fun _ => 0, MemberConstraintSet.holds_empty fun _ => 0⟩
  transitive := transitive_parameter known

/-- No region is forced out of its universe. -/
theorem forces_parameter {r s : RegionVid}
    (h : lendingConstraints.Forces 0 (definitionsOf parameterInfos) r s) :
    lendingConstraints.Edge 0 3 r s := by
  rcases h with h | ⟨-, ⟨u, p, -, -, hlt⟩, -⟩
  · exact h
  · have hroot : Merge.placeholderUniverse (definitionOf (definitionsOf parameterInfos)) p = 0 := by
      match p with
      | 0 | 1 | 2 => rfl
      | p + 3 => rfl
    rw [hroot] at hlt
    exact absurd hlt (Nat.not_lt_zero _)

/-- The points of a block with one statement. -/
def parameterElements : DenseLocationMap := ⟨2, fun _ => 0, fun _ => 0, Location.mk 0⟩

/-- That the second parameter must outlive the first is reported, unless it is known. -/
theorem new_solve_reports_parameter :
    (∃ context after, new parameterNewAnnotated parameterInfos
        (parameterConstraints parameterElements) (parameterRelations true) false
          parameterElements = .ok context ∧ context.solve 0 false = .ok (after, none, [])) ∧
      ∃ context after errors, new parameterNewAnnotated parameterInfos
        (parameterConstraints parameterElements) (parameterRelations false) false
          parameterElements = .ok context ∧ context.solve 0 false = .ok (after, none, errors) ∧
        errors ≠ [] := by
  have hrun := fun known => @new_solve_reports_nothing_iff parameterNewAnnotated parameterInfos
    (parameterConstraints parameterElements) (parameterRelations known) parameterElements .empty
    (fromTypeCheck_parameter parameterElements known) findsComponents_parameter 0
  constructor
  · obtain ⟨context, after, errors, hnew, hsolve, herrors⟩ := hrun true
    obtain rfl : errors = [] := by
      refine herrors.mpr ⟨fun r o _ _ _ hpath => ?_, fun r placeholder hr horigin => ?_⟩
      · have hedges := ReflTransGen.mono (fun _ _ => forces_parameter) _ _ hpath
        rcases lendingConstraints_reach.mp hedges with rfl | ⟨-, rfl | ⟨rfl, rfl⟩⟩
        · simp [UniversalRegionRelations.outlives, parameterRelations]
        · rfl
        · rfl
      · rw [definitionOf, List.getElem?_eq_getElem hr, Option.getD_some,
          freeRegion_parameter (List.getElem_mem hr)] at horigin
        cases horigin
    exact ⟨context, after, hnew, hsolve⟩
  · obtain ⟨context, after, errors, hnew, hsolve, herrors⟩ := hrun false
    refine ⟨context, after, errors, hnew, hsolve, fun hnil => ?_⟩
    have hknown := (herrors.mp hnil).1 2 1 (Nat.lt_succ_self 2) rfl rfl
      (.single (.inl (lendingConstraints_edge.mpr ⟨by decide, .inr ⟨rfl, rfl⟩⟩)))
    cases hknown

end Parameters

end RegionInferenceContext

end MutationTesting.Borrowck
