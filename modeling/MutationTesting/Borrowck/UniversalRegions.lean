/-
  MutationTesting.Borrowck.UniversalRegions

  The universal regions of a body, which come first among its region variables
  (`borrowck/src/universal_regions.rs`), and the regions that the constraints force
  to outlive one of them (`borrowck/src/type_check/liveness/mod.rs`).
-/
import MutationTesting.Borrowck.Constraints
import MutationTesting.Graph.Search
import MutationTesting.Rust.WorkList

namespace MutationTesting.Borrowck

open MutationTesting.Rust MutationTesting.Mir MutationTesting.Graph Relation

/-! ## Universal regions -/

inductive RegionClassification where
  | global
  | external
  | «local»
  deriving DecidableEq

/-- `UniversalRegions`: global regions come before external ones, and those before
    local ones. -/
structure UniversalRegions where
  frStatic : RegionVid
  firstExternIndex : Nat
  firstLocalIndex : Nat
  numUniversals : Nat
  deriving DecidableEq

namespace UniversalRegions

/-- `is_universal_region`. -/
def isUniversalRegion (self : UniversalRegions) (r : RegionVid) : Bool :=
  decide (r < self.numUniversals)

/-- `region_classification`. -/
def regionClassification (self : UniversalRegions) (r : RegionVid) : Option RegionClassification :=
  if r < self.firstExternIndex then some .global
  else if self.firstExternIndex ≤ r ∧ r < self.firstLocalIndex then some .external
  else if self.firstLocalIndex ≤ r ∧ r < self.numUniversals then some .local
  else none

/-- `universal_regions_iter`. -/
def universalRegionsIter (self : UniversalRegions) : List RegionVid :=
  List.range self.numUniversals

/-- `is_local_free_region`. -/
def isLocalFreeRegion (self : UniversalRegions) (r : RegionVid) : Bool :=
  decide (self.regionClassification r = some .local)

end UniversalRegions

/-! ## Regions that outlive free regions -/

/-- `regions_that_outlive_free_regions`: the search against the constraints from the
    free regions. -/
def regionsThatOutliveFreeRegions (numRegionVars : Nat) (universalRegions : UniversalRegions)
    (constraintSet : OutlivesConstraintSet) : Res (Finset RegionVid) := do
  let revConstraintGraph ← constraintSet.reverseGraph numRegionVars
  let stack := universalRegions.universalRegionsIter
  let (outlivesFreeRegion, _) ← searchWith
    (fun subRegion _ => do
      let outgoing ← revConstraintGraph.outgoingRegions subRegion constraintSet
        universalRegions.frStatic
      return (outgoing, ()))
    numRegionVars ⟨stack.toFinset, stack⟩ ()
  return outlivesFreeRegion

/-- The regions of a constraint set are declared. -/
def OutlivesConstraintSet.Declared (set : OutlivesConstraintSet) (numRegionVars : Nat) : Prop :=
  ∀ c ∈ set.outlives, c.sup < numRegionVars ∧ c.sub < numRegionVars

/-- The regions that a constraint forces to outlive `r`. -/
def OutlivesConstraintSet.supsOf (set : OutlivesConstraintSet) (r : RegionVid) :
    List RegionVid :=
  (set.outlives.filter fun c => c.sub = r).map OutlivesConstraint.sup

theorem OutlivesConstraintSet.mem_supsOf {set : OutlivesConstraintSet} {sup sub : RegionVid} :
    sup ∈ set.supsOf sub ↔ set.Outlives sup sub := by
  simp only [supsOf, List.mem_map, List.mem_filter, decide_eq_true_eq, Outlives]
  constructor
  · rintro ⟨c, ⟨hc, hsub⟩, hsup⟩
    exact ⟨c, hc, hsup, hsub⟩
  · rintro ⟨c, hc, hsup, hsub⟩
    exact ⟨c, ⟨hc, hsub⟩, hsup⟩

/-- Against their direction, the constraints lead from a region to those that must
    outlive it. -/
theorem ConstraintGraph.outgoingRegions_reverse {set : OutlivesConstraintSet}
    {graph : ConstraintGraph} {n : Nat}
    (h : Linked graph .reverse n set.outlives.length set.outlives.zipIdx) {r : RegionVid}
    (hr : r < n) (staticRegion : RegionVid) :
    graph.outgoingRegions r set staticRegion = .ok (set.supsOf r) := by
  have hreverse : ¬ (r = staticRegion ∧ ConstraintGraphDirection.reverse.isNormal = true) := by
    simp [ConstraintGraphDirection.isNormal]
  obtain ⟨edges, hedges, last, hyields, -⟩ := h.produces hr hreverse
  have hlen := (List.length_filter_le
    (fun c => decide (ConstraintGraphDirection.reverse.startRegion c = r)) set.outlives).trans
    (Nat.le_add_left _ graph.firstConstraints.length)
  rw [ConstraintGraph.outgoingRegions, hedges, Res.ok_bind, hyields.collect_eq hlen, Res.ok_bind,
    h.direction_eq]
  rfl

/-- The search finds exactly the regions that the constraints force to outlive
    some free region. -/
theorem mem_regionsThatOutliveFreeRegions {n : Nat} {universalRegions : UniversalRegions}
    {set : OutlivesConstraintSet} (hset : set.Declared n)
    (huniversals : universalRegions.numUniversals ≤ n) :
    ∃ regions, regionsThatOutliveFreeRegions n universalRegions set = .ok regions ∧
      ∀ r, r ∈ regions ↔ ∃ free, universalRegions.isUniversalRegion free = true ∧
        ReflTransGen set.Outlives r free := by
  obtain ⟨graph, hgraph, hlinked⟩ :=
    ConstraintGraph.new_linked .reverse fun c hc => (hset c hc).2
  have hstack : universalRegions.universalRegionsIter.Nodup := List.nodup_range
  have hroots : ∀ r ∈ universalRegions.universalRegionsIter, r ∈ Finset.range n := fun r hr =>
    Finset.mem_range.mpr ((List.mem_range.mp hr).trans_le huniversals)
  have hexpand : ∀ r ∈ Finset.range n, ∀ _ : Unit, (do
      let outgoing ← graph.outgoingRegions r set universalRegions.frStatic
      return (outgoing, ())) = (Except.ok (set.supsOf r, ()) : Res (List RegionVid × Unit)) := by
    intro r hr _
    rw [ConstraintGraph.outgoingRegions_reverse hlinked (Finset.mem_range.mp hr)]
    rfl
  have hsups : ∀ r ∈ Finset.range n, ∀ s ∈ set.supsOf r, s ∈ Finset.range n := by
    intro r _ s hs
    obtain ⟨c, hc, rfl⟩ := List.mem_map.mp hs
    exact Finset.mem_range.mpr (hset c (List.mem_filter.mp hc).1).1
  obtain ⟨popped, -, hpopped, hsearch⟩ :=
    searchWith_roots hexpand hsups hroots (Finset.card_range n).le ()
  refine ⟨popped.toFinset, ?_, ?_⟩
  · rw [Frontier.pushAll_empty hstack] at hsearch
    rw [regionsThatOutliveFreeRegions, OutlivesConstraintSet.reverseGraph, hgraph, Res.ok_bind]
    dsimp only
    rw [hsearch]
    rfl
  · intro r
    rw [List.mem_toFinset, hpopped]
    -- a path of the search is a chain of constraints, read backwards
    have hswap : Function.swap (Graph.Step set.supsOf) = set.Outlives := by
      funext a b
      exact propext OutlivesConstraintSet.mem_supsOf
    have hpath : ∀ free, ReflTransGen (Graph.Step set.supsOf) free r ↔
        ReflTransGen set.Outlives r free := by
      intro free
      rw [← hswap, reflTransGen_swap]
    simp only [hpath, UniversalRegions.universalRegionsIter, List.mem_range,
      UniversalRegions.isUniversalRegion, decide_eq_true_eq]

/-! ## A region that is lent -/

/-- The region of the borrow outlives the lifetime parameter. -/
def lendingConstraints : OutlivesConstraintSet :=
  OutlivesConstraintSet.empty.push {
    sup := 2
    sub := 1
    locations := .all dummySpan
    span := dummySpan
    category := .other 0
    varianceInfo := defaultVarianceInfo
    fromClosure := false }

theorem outlives_lending {sup sub : RegionVid} :
    lendingConstraints.Outlives sup sub ↔ sup = 2 ∧ sub = 1 := by
  constructor
  · rintro ⟨c, hc, rfl, rfl⟩
    rw [List.mem_singleton.mp hc]
    exact ⟨rfl, rfl⟩
  · rintro ⟨rfl, rfl⟩
    exact ⟨_, List.mem_singleton.mpr rfl, rfl, rfl⟩

theorem declared_lending {n : Nat} (hn : 3 ≤ n) : lendingConstraints.Declared n := by
  intro c hc
  obtain ⟨hsup, hsub⟩ := outlives_lending.mp ⟨c, hc, rfl, rfl⟩
  rw [hsup, hsub]
  exact ⟨hn, Nat.lt_of_lt_of_le (by decide) hn⟩

/-- The region of the borrow outlives the lifetime parameter, another one does not. -/
theorem regionsThatOutlive_lending :
    ∃ regions, regionsThatOutliveFreeRegions 4 ⟨0, 1, 1, 2⟩ lendingConstraints =
        .ok regions ∧ 2 ∈ regions ∧ 3 ∉ regions := by
  obtain ⟨regions, hrun, hmem⟩ := @mem_regionsThatOutliveFreeRegions 4 ⟨0, 1, 1, 2⟩
    lendingConstraints (declared_lending (by decide)) (by decide)
  refine ⟨regions, hrun, (hmem 2).mpr ⟨1, rfl, .single (outlives_lending.mpr ⟨rfl, rfl⟩)⟩, ?_⟩
  intro h
  obtain ⟨free, hfree, hpath⟩ := (hmem 3).mp h
  -- it is not universal, and no constraint is about it
  rcases ReflTransGen.cases_head hpath with rfl | ⟨s, hstep, -⟩
  · cases hfree
  · cases (outlives_lending.mp hstep).1

end MutationTesting.Borrowck
