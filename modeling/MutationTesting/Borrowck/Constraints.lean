/-
  MutationTesting.Borrowck.Constraints

  The set of outlives constraints and its graph
  (`borrowck/src/constraints/mod.rs`, `borrowck/src/constraints/graph.rs`).  The
  constraints that leave a region are a linked list threaded through
  `next_constraints`; out of `'static` the graph has an edge to every region, and a
  constraint of a region with itself is never pushed.
-/
import MutationTesting.Mir.Syntax
import MutationTesting.Rust.LinkedList
import Mathlib.Logic.Relation

namespace MutationTesting.Borrowck

open MutationTesting.Rust MutationTesting.Mir Relation

/-! ## Constraints -/

abbrev OutlivesConstraintIndex := Nat

inductive Locations where
  | all (span : Interned)
  | single (location : Location)
  deriving DecidableEq

/-- `ConstraintCategory`; `other` stands for those that region inference treats
    alike. -/
inductive ConstraintCategory where
  | internal
  | illegalUniverse
  | opaqueType
  | other (category : Interned)
  deriving DecidableEq

structure OutlivesConstraint where
  sup : RegionVid
  sub : RegionVid
  locations : Locations
  span : Interned
  category : ConstraintCategory
  varianceInfo : Interned
  fromClosure : Bool
  deriving DecidableEq

/-- `DUMMY_SP` and `VarianceDiagInfo::default()`. -/
def dummySpan : Interned := 0
def defaultVarianceInfo : Interned := 0

/-- `OutlivesConstraintSet`: no constraint relates a region to itself. -/
structure OutlivesConstraintSet where
  outlives : List OutlivesConstraint
  loopFree : ∀ c ∈ outlives, c.sup ≠ c.sub

namespace OutlivesConstraintSet

def empty : OutlivesConstraintSet := ⟨[], fun _ h => absurd h List.not_mem_nil⟩

/-- `OutlivesConstraintSet::push`. -/
def push (set : OutlivesConstraintSet) (constraint : OutlivesConstraint) :
    OutlivesConstraintSet :=
  if h : constraint.sup = constraint.sub then set
  else
    ⟨set.outlives ++ [constraint], fun c hc =>
      (List.mem_append.mp hc).elim (set.loopFree c)
        fun hc => List.mem_singleton.mp hc ▸ h⟩

/-- `sup: sub` is one of the constraints. -/
def Outlives (set : OutlivesConstraintSet) (sup sub : RegionVid) : Prop :=
  ∃ c ∈ set.outlives, c.sup = sup ∧ c.sub = sub

/-- A constraint that is pushed is kept, unless it is one of a region with itself. -/
theorem outlives_push {set : OutlivesConstraintSet} {constraint : OutlivesConstraint}
    {sup sub : RegionVid} :
    (set.push constraint).Outlives sup sub ↔ set.Outlives sup sub ∨
      sup ≠ sub ∧ constraint.sup = sup ∧ constraint.sub = sub := by
  by_cases h : constraint.sup = constraint.sub
  · rw [push, dif_pos h]
    refine ⟨.inl, ?_⟩
    rintro (hset | ⟨hne, rfl, rfl⟩)
    · exact hset
    · exact absurd h hne
  · rw [push, dif_neg h]
    simp only [Outlives, List.mem_append, List.mem_singleton, or_and_right, exists_or,
      exists_eq_left]
    refine or_congr_right (iff_and_self.mpr ?_)
    rintro ⟨rfl, rfl⟩
    exact h

theorem outlives_foldl_push {constraints : List OutlivesConstraint}
    {set : OutlivesConstraintSet} {sup sub : RegionVid} :
    (constraints.foldl push set).Outlives sup sub ↔ set.Outlives sup sub ∨
      sup ≠ sub ∧ ∃ c ∈ constraints, c.sup = sup ∧ c.sub = sub := by
  induction constraints generalizing set with
  | nil => simp
  | cons c constraints ih =>
    rw [List.foldl_cons, ih, outlives_push]
    simp only [List.mem_cons, exists_eq_or_imp, and_or_left, or_assoc]

/-- Leaving out the constraints of a region with itself changes nothing about what must
    outlive what. -/
theorem pushed_outlives (constraints : List OutlivesConstraint) (a b : RegionVid) :
    ReflTransGen (constraints.foldl push empty).Outlives a b ↔
      ReflTransGen (fun sup sub => ∃ c ∈ constraints, c.sup = sup ∧ c.sub = sub) a b := by
  have hempty : ∀ sup sub, ¬ empty.Outlives sup sub := by
    rintro sup sub ⟨c, hc, -⟩
    cases hc
  constructor
  · refine ReflTransGen.mono (fun sup sub h => ?_) a b
    rcases outlives_foldl_push.mp h with h | h
    · exact absurd h (hempty sup sub)
    · exact h.2
  · intro h
    induction h with
    | refl => exact .refl
    | @tail sup sub _ hstep ih =>
      -- a step from a region to itself leads nowhere, so it may be left out
      by_cases hsame : sup = sub
      · exact hsame ▸ ih
      · exact ih.tail (outlives_foldl_push.mpr (.inr ⟨hsame, hstep⟩))

end OutlivesConstraintSet

/-! ## The graph -/

inductive ConstraintGraphDirection where
  | normal
  | reverse
  deriving DecidableEq

namespace ConstraintGraphDirection

def startRegion : ConstraintGraphDirection → OutlivesConstraint → RegionVid
  | normal, c => c.sup
  | reverse, c => c.sub

def endRegion : ConstraintGraphDirection → OutlivesConstraint → RegionVid
  | normal, c => c.sub
  | reverse, c => c.sup

def isNormal : ConstraintGraphDirection → Bool
  | normal => true
  | reverse => false

end ConstraintGraphDirection

structure ConstraintGraph where
  direction : ConstraintGraphDirection
  firstConstraints : List (Option OutlivesConstraintIndex)
  nextConstraints : List (Option OutlivesConstraintIndex)
  deriving DecidableEq

namespace ConstraintGraph

/-- The constraint with the given index becomes the first of its start region. -/
def link (graph : ConstraintGraph) (entry : OutlivesConstraint × OutlivesConstraintIndex) :
    Res ConstraintGraph := do
  let (constraint, idx) := entry
  let start := graph.direction.startRegion constraint
  let head ← index graph.firstConstraints start
  return { graph with
    firstConstraints := graph.firstConstraints.set start (some idx)
    nextConstraints := graph.nextConstraints.set idx head }

/-- `ConstraintGraph::new`: the constraints are linked from the last to the first. -/
def new (direction : ConstraintGraphDirection) (set : OutlivesConstraintSet)
    (numRegionVars : Nat) : Res ConstraintGraph :=
  set.outlives.zipIdx.reverse.foldlM link
    { direction
      firstConstraints := List.replicate numRegionVars none
      nextConstraints := List.replicate set.outlives.length none }

end ConstraintGraph

/-- `graph`. -/
def OutlivesConstraintSet.graph (set : OutlivesConstraintSet) (numRegionVars : Nat) :
    Res ConstraintGraph :=
  ConstraintGraph.new .normal set numRegionVars

/-- `reverse_graph`. -/
def OutlivesConstraintSet.reverseGraph (set : OutlivesConstraintSet) (numRegionVars : Nat) :
    Res ConstraintGraph :=
  ConstraintGraph.new .reverse set numRegionVars

/-- The iterator over the constraints that leave a region. -/
structure Edges where
  graph : ConstraintGraph
  constraints : OutlivesConstraintSet
  pointer : Option OutlivesConstraintIndex
  nextStaticIdx : Option Nat
  staticRegion : RegionVid

/-- `ConstraintGraph::outgoing_edges`. -/
def ConstraintGraph.outgoingEdges (graph : ConstraintGraph) (regionSup : RegionVid)
    (constraints : OutlivesConstraintSet) (staticRegion : RegionVid) : Res Edges :=
  if regionSup = staticRegion ∧ graph.direction.isNormal = true then
    .ok { graph, constraints, pointer := none, nextStaticIdx := some 0, staticRegion }
  else do
    let first ← index graph.firstConstraints regionSup
    return { graph, constraints, pointer := first, nextStaticIdx := none, staticRegion }

/-- The edge from `'static` to a region. -/
def staticEdge (staticRegion sub : RegionVid) : OutlivesConstraint :=
  { sup := staticRegion
    sub
    locations := .all dummySpan
    span := dummySpan
    category := .internal
    varianceInfo := defaultVarianceInfo
    fromClosure := false }

/-- `Edges::next`. -/
def Edges.next (edges : Edges) : Res (Option OutlivesConstraint × Edges) :=
  match edges.pointer with
  | some p => do
    let pointer ← index edges.graph.nextConstraints p
    let constraint ← index edges.constraints.outlives p
    return (some constraint, { edges with pointer })
  | none =>
    match edges.nextStaticIdx with
    | some idx =>
      if edges.graph.firstConstraints.length = 0 then
        .error (.message "attempt to subtract with overflow")
      else
        let nextStaticIdx :=
          if idx = edges.graph.firstConstraints.length - 1 then none else some (idx + 1)
        .ok (some (staticEdge edges.staticRegion idx), { edges with nextStaticIdx })
    | none => .ok (none, edges)

instance : FallibleIterator Edges OutlivesConstraint := ⟨Edges.next⟩

/-- `RegionGraph::outgoing_regions`, collected. -/
def ConstraintGraph.outgoingRegions (graph : ConstraintGraph) (regionSup : RegionVid)
    (constraints : OutlivesConstraintSet) (staticRegion : RegionVid) : Res (List RegionVid) := do
  let edges ← graph.outgoingEdges regionSup constraints staticRegion
  let outgoing ← collect (graph.firstConstraints.length + constraints.outlives.length) edges
  return outgoing.map graph.direction.endRegion

/-! ## What the graph has -/

section Graph

variable {direction : ConstraintGraphDirection} {set : OutlivesConstraintSet} {n : Nat}

/-- The indices from `first` on of the constraints that start at a region. -/
def indicesFrom (direction : ConstraintGraphDirection) (r : RegionVid)
    (entries : List (OutlivesConstraint × OutlivesConstraintIndex)) :
    List OutlivesConstraintIndex :=
  (entries.filter fun entry => direction.startRegion entry.1 = r).map Prod.snd

/-- After the last constraints are linked, each region has a list of those of
    them that start there. -/
structure Linked (graph : ConstraintGraph) (direction : ConstraintGraphDirection) (n : Nat)
    (length : Nat) (entries : List (OutlivesConstraint × OutlivesConstraintIndex)) : Prop where
  direction_eq : graph.direction = direction
  first : graph.firstConstraints.length = n
  next : graph.nextConstraints.length = length
  lists : LinkedList.Family graph.nextConstraints (fun r => (graph.firstConstraints[r]?).join)
    fun r => indicesFrom direction r entries

theorem Linked.link {graph : ConstraintGraph} {length : Nat}
    {entries : List (OutlivesConstraint × OutlivesConstraintIndex)} {c : OutlivesConstraint}
    {idx : OutlivesConstraintIndex} (h : Linked graph direction n length entries)
    (hstart : direction.startRegion c < n) (hidx : idx < length)
    (hfresh : idx ∉ entries.map Prod.snd) :
    ∃ graph', graph.link (c, idx) = .ok graph' ∧
      Linked graph' direction n length ((c, idx) :: entries) := by
  have hlt : direction.startRegion c < graph.firstConstraints.length := by rwa [h.first]
  refine ⟨{ graph with
    firstConstraints := graph.firstConstraints.set (direction.startRegion c) (some idx)
    nextConstraints := graph.nextConstraints.set idx
      graph.firstConstraints[direction.startRegion c] }, ?_, ?_⟩
  · simp only [ConstraintGraph.link, h.direction_eq, index_of_lt hlt, Res.ok_bind, Res.pure_eq]
  · have hlists := h.lists.link (direction.startRegion c) (i := idx) (by rwa [h.next]) (by
      intro r hmem
      obtain ⟨entry, hentry, rfl⟩ := List.mem_map.mp hmem
      exact hfresh (List.mem_map_of_mem (List.mem_filter.mp hentry).1))
    refine ⟨h.direction_eq, by simp [h.first], by simp [h.next], ?_⟩
    convert hlists using 1
    · rw [List.getElem?_eq_getElem hlt]
      rfl
    · funext r
      by_cases hr : r = direction.startRegion c
      · rw [hr, Function.update_self, List.getElem?_set_self hlt]
        rfl
      · rw [Function.update_of_ne hr, List.getElem?_set_ne (Ne.symm hr)]
    · funext r
      by_cases hr : r = direction.startRegion c
      · rw [hr, Function.update_self, indicesFrom, List.filter_cons_of_pos (by simp)]
        rfl
      · rw [Function.update_of_ne hr, indicesFrom,
          List.filter_cons_of_neg (by simpa using Ne.symm hr)]
        rfl

/-- Building the graph of constraints over the declared regions succeeds, and
    links each constraint at the region where it starts, in order. -/
theorem ConstraintGraph.new_linked (direction : ConstraintGraphDirection)
    (hstart : ∀ c ∈ set.outlives, direction.startRegion c < n) :
    ∃ graph, ConstraintGraph.new direction set n = .ok graph ∧
      Linked graph direction n set.outlives.length set.outlives.zipIdx := by
  -- the constraints are linked from the back
  have hback : ∀ (front back : List (OutlivesConstraint × OutlivesConstraintIndex))
      (graph : ConstraintGraph), set.outlives.zipIdx = front ++ back →
      Linked graph direction n set.outlives.length back →
      ∃ graph', front.reverse.foldlM ConstraintGraph.link graph = .ok graph' ∧
        Linked graph' direction n set.outlives.length set.outlives.zipIdx := by
    intro front
    induction front using List.reverseRecOn with
    | nil =>
      intro back graph hall hgraph
      exact ⟨graph, rfl, by rw [hall]; exact hgraph⟩
    | append_singleton front entry ih =>
      intro back graph hall hgraph
      obtain ⟨c, idx⟩ := entry
      have hmem : (c, idx) ∈ set.outlives.zipIdx := by
        rw [hall]
        simp
      obtain ⟨hidx, hc⟩ := List.mem_zipIdx' hmem
      have hnodup : (set.outlives.zipIdx.map Prod.snd).Nodup := by
        rw [List.zipIdx_map_snd]
        exact List.nodup_range'
      have hfresh : idx ∉ back.map Prod.snd := by
        intro hin
        rw [hall, List.append_assoc, List.map_append, List.singleton_append,
          List.map_cons] at hnodup
        exact (List.nodup_cons.mp (List.nodup_append.mp hnodup).2.1).1 hin
      obtain ⟨graph₁, hlink, hgraph₁⟩ :=
        hgraph.link (hstart c (hc ▸ List.getElem_mem hidx)) hidx hfresh
      obtain ⟨graph', hfold, hgraph'⟩ :=
        ih ((c, idx) :: back) graph₁ (by rw [hall, List.append_assoc]; rfl) hgraph₁
      refine ⟨graph', ?_, hgraph'⟩
      rw [List.reverse_append, List.reverse_singleton, List.singleton_append, List.foldlM_cons,
        hlink]
      exact hfold
  refine hback set.outlives.zipIdx [] _ (List.append_nil _).symm ⟨rfl, by simp, by simp, ?_⟩
  convert LinkedList.Family.empty (List.replicate set.outlives.length none) using 1
  funext r
  rw [List.getElem?_replicate]
  split
  all_goals rfl

/-- The constraints that start at a region are those its list names. -/
theorem map_indicesFrom (direction : ConstraintGraphDirection) (set : OutlivesConstraintSet)
    (r : RegionVid) :
    (indicesFrom direction r set.outlives.zipIdx).map (set.outlives[·]?) =
      (set.outlives.filter fun c => direction.startRegion c = r).map some := by
  have hget : ∀ entry ∈ set.outlives.zipIdx, set.outlives[entry.2]? = some entry.1 := by
    rintro ⟨c, idx⟩ hentry
    exact List.mk_mem_zipIdx_iff_getElem?.mp hentry
  calc (indicesFrom direction r set.outlives.zipIdx).map (set.outlives[·]?)
      = (set.outlives.zipIdx.filter fun entry => direction.startRegion entry.1 = r).map
          fun entry => set.outlives[entry.2]? := by rw [indicesFrom, List.map_map]; rfl
    _ = (set.outlives.zipIdx.filter fun entry => direction.startRegion entry.1 = r).map
          fun entry => some entry.1 :=
        List.map_congr_left fun entry hentry => hget entry (List.mem_filter.mp hentry).1
    _ = (set.outlives.filter fun c => direction.startRegion c = r).map some := by
        conv_rhs => rw [← List.zipIdx_map_fst 0 set.outlives]
        rw [List.filter_map, List.map_map]
        rfl

/-- Out of a region other than `'static`, or against the direction of the
    constraints, lead the constraints that start there, in the order in which
    they were pushed. -/
theorem Linked.produces {graph : ConstraintGraph}
    (h : Linked graph direction n set.outlives.length set.outlives.zipIdx)
    {r staticRegion : RegionVid} (hr : r < n)
    (hstatic : ¬ (r = staticRegion ∧ direction.isNormal = true)) :
    ∃ edges, graph.outgoingEdges r set staticRegion = .ok edges ∧
      Produces edges (set.outlives.filter fun c => direction.startRegion c = r) := by
  have hlt : r < graph.firstConstraints.length := by rwa [h.first]
  have hthreaded := h.lists.threaded r
  rw [List.getElem?_eq_getElem hlt, Option.join_some] at hthreaded
  refine ⟨⟨graph, set, graph.firstConstraints[r], none, staticRegion⟩, ?_, ?_⟩
  · rw [ConstraintGraph.outgoingEdges, h.direction_eq, if_neg hstatic]
    simp only [index_of_lt hlt, Res.ok_bind, Res.pure_eq]
  · -- a cell of the list is a constraint of the set
    have hitems : (indicesFrom direction r set.outlives.zipIdx).map
        (fun p => (set.outlives[p]?).getD (staticEdge staticRegion r)) =
        set.outlives.filter fun c => direction.startRegion c = r := by
      have hmap := congrArg (List.map (Option.getD · (staticEdge staticRegion r)))
        (map_indicesFrom direction set r)
      simpa [Function.comp_def] using hmap
    rw [← hitems]
    refine hthreaded.produces
      (fun pointer => (⟨graph, set, pointer, none, staticRegion⟩ : Edges)) _ rfl ?_
    intro p next hnext
    have hp : p < set.outlives.length := by
      rw [← h.next]
      exact (List.getElem?_eq_some_iff.mp hnext).1
    have hpnext : p < graph.nextConstraints.length := by rwa [h.next]
    have hval : graph.nextConstraints[p] = next := (List.getElem?_eq_some_iff.mp hnext).2
    simp only [FallibleIterator.next, Edges.next, index_of_lt hpnext, index_of_lt hp, Res.ok_bind,
      Res.pure_eq, hval, List.getElem?_eq_getElem hp, Option.getD_some]

/-- Out of `'static` leads an edge to every region, itself included. -/
theorem produces_static {graph : ConstraintGraph} (hn : graph.firstConstraints.length ≠ 0)
    (hdirection : graph.direction = .normal) (set : OutlivesConstraintSet)
    (staticRegion : RegionVid) :
    ∃ edges, graph.outgoingEdges staticRegion set staticRegion = .ok edges ∧
      Produces edges
        ((List.range graph.firstConstraints.length).map (staticEdge staticRegion)) := by
  refine ⟨⟨graph, set, none, some 0, staticRegion⟩, ?_, ?_⟩
  · rw [ConstraintGraph.outgoingEdges, hdirection, if_pos ⟨rfl, rfl⟩]
  · have hspent : Spent (⟨graph, set, none, none, staticRegion⟩ : Edges) :=
      ⟨fun it => it = ⟨graph, set, none, none, staticRegion⟩, rfl,
        fun it hit => ⟨_, by rw [hit]; rfl, rfl⟩⟩
    -- from index `i` on, the rest of the regions is produced
    have hfrom : ∀ (count i : Nat), i + (count + 1) = graph.firstConstraints.length →
        Produces (⟨graph, set, none, some i, staticRegion⟩ : Edges)
          ((List.range' i (count + 1)).map (staticEdge staticRegion)) := by
      intro count
      induction count with
      | zero =>
        intro i hi
        have hlast : i = graph.firstConstraints.length - 1 := by omega
        have hnext : FallibleIterator.next (⟨graph, set, none, some i, staticRegion⟩ : Edges) =
            .ok (some (staticEdge staticRegion i), ⟨graph, set, none, none, staticRegion⟩) := by
          simp only [FallibleIterator.next, Edges.next, if_neg hn, if_pos hlast]
        exact ⟨_, .more hnext (.done rfl), hspent⟩
      | succ count ih =>
        intro i hi
        have hlast : i ≠ graph.firstConstraints.length - 1 := by omega
        have hnext : FallibleIterator.next (⟨graph, set, none, some i, staticRegion⟩ : Edges) =
            .ok (some (staticEdge staticRegion i),
              ⟨graph, set, none, some (i + 1), staticRegion⟩) := by
          simp only [FallibleIterator.next, Edges.next, if_neg hn, if_neg hlast]
        obtain ⟨last, hyields, hlast⟩ := ih (i + 1) (by omega)
        exact ⟨last, .more hnext hyields, hlast⟩
    have hall := hfrom (graph.firstConstraints.length - 1) 0 (by omega)
    rwa [Nat.sub_add_cancel (Nat.pos_of_ne_zero hn), ← List.range_eq_range'] at hall

end Graph

end MutationTesting.Borrowck
