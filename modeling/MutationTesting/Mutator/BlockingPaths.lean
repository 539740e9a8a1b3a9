/-
  MutationTesting.Mutator.BlockingPaths

  What `placesBlocking` searches for, as paths of the borrows graph.  The search
  is a work list of edges, each with the kinds of the edges it was reached
  through; in an acyclic graph the list empties, and a place is found exactly
  if a path of valid edges, blocking as a whole, leads to it.
-/
import MutationTesting.Mutator.Mutations
import MutationTesting.Rust.WorkList

namespace MutationTesting.Pcg

open Relation MutationTesting.Rust MutationTesting.Graph

/-! ## Acyclic borrows graphs -/

/-- `m` blocks `n`: some edge blocks `n` and is blocked by `m`. -/
def BorrowsGraph.Blocks (graph : BorrowsGraph) (n m : BlockedNode) : Prop :=
  ∃ edge ∈ graph.edges, n ∈ edge.blockedNodes ∧
    ∃ node ∈ edge.blockedByNodes, BlockedNode.from node = m

/-- No node blocks itself, directly or through others. -/
def BorrowsGraph.Acyclic (graph : BorrowsGraph) : Prop := Graph.Acyclic graph.Blocks

/-- `edge'` blocks some node that `edge` is blocked by. -/
def BorrowPcgEdge.Adjacent (edge edge' : BorrowPcgEdge) : Prop :=
  ∃ node ∈ edge.blockedByNodes, BlockedNode.from node ∈ edge'.blockedNodes

theorem BorrowsGraph.mem_getEdgesBlocking {graph : BorrowsGraph} {node : BlockedNode}
    {edge : BorrowPcgEdge} :
    edge ∈ graph.getEdgesBlocking node ↔ edge ∈ graph.edges ∧ node ∈ edge.blockedNodes := by
  simp [getEdgesBlocking]

/-- Along a path of edges every node it is blocked by at its end blocks every
    node it blocks at its start. -/
theorem BorrowsGraph.transGen_blocks {graph : BorrowsGraph} {edge last : BorrowPcgEdge}
    {rest : List BorrowPcgEdge} {n : BlockedNode} {node : LocalNode}
    (hedges : ∀ edge' ∈ edge :: rest, edge' ∈ graph.edges)
    (hchain : (edge :: rest).IsChain BorrowPcgEdge.Adjacent) (hn : n ∈ edge.blockedNodes)
    (hlast : last ∈ (edge :: rest).getLast?) (hnode : node ∈ last.blockedByNodes) :
    TransGen graph.Blocks n (BlockedNode.from node) := by
  have hedge : edge ∈ graph.edges := hedges edge List.mem_cons_self
  induction rest generalizing edge n with
  | nil =>
    rw [List.getLast?_singleton, Option.mem_some_iff] at hlast
    subst hlast
    exact .single ⟨edge, hedge, hn, node, hnode, rfl⟩
  | cons edge' rest ih =>
    obtain ⟨⟨shared, hby, hblocked⟩, hrest⟩ := List.isChain_cons_cons.mp hchain
    have hfirst : graph.Blocks n (BlockedNode.from shared) := ⟨edge, hedge, hn, shared, hby, rfl⟩
    have hedges' : ∀ other ∈ edge' :: rest, other ∈ graph.edges :=
      fun other hother => hedges other (List.mem_cons_of_mem _ hother)
    rw [List.getLast?_cons_cons] at hlast
    exact .head hfirst (ih hedges' hrest hblocked hlast (hedges' edge' List.mem_cons_self))

end MutationTesting.Pcg

namespace MutationTesting.Mutator

open Relation MutationTesting.Rust MutationTesting.Mir MutationTesting.Pcg MutationTesting.Graph

/-! ## Paths -/

/-- A path of edges from `place` to `q`: the first edge blocks `place`, each
    blocks a node the one before it is blocked by, every edge is valid, the set
    of their kinds is blocking, and `q` is the current place of a node the last
    edge is blocked by. -/
structure BlockingPath (graph : BorrowsGraph)
    (isBlockingEdge : HashSet BorrowPcgEdgeKind → Bool) (isValidEdge : BorrowPcgEdgeKind → Bool)
    (place q : Pcg.Place) (path : List BorrowPcgEdge) : Prop where
  edges : ∀ edge ∈ path, edge ∈ graph.edges
  valid : ∀ edge ∈ path, isValidEdge edge.kind = true
  head : ∃ edge ∈ path.head?, place.into ∈ edge.blockedNodes
  chain : path.IsChain BorrowPcgEdge.Adjacent
  blocking : isBlockingEdge (HashSet.collect (path.map BorrowPcgEdge.kind)) = true
  last : ∃ edge ∈ path.getLast?, PCGNode.place (MaybeOldPlace.current q) ∈ edge.blockedByNodes

theorem BlockingPath.transGen {graph : BorrowsGraph}
    {isBlockingEdge : HashSet BorrowPcgEdgeKind → Bool} {isValidEdge : BorrowPcgEdgeKind → Bool}
    {place q : Pcg.Place} {path : List BorrowPcgEdge}
    (h : BlockingPath graph isBlockingEdge isValidEdge place q path) :
    TransGen graph.Blocks place.into q.into := by
  obtain ⟨edge, hhead, hplace⟩ := h.head
  obtain ⟨last, hlast, hq⟩ := h.last
  cases path with
  | nil => exact absurd hhead (by simp)
  | cons first rest =>
    rw [List.head?_cons, Option.mem_some_iff] at hhead
    subst hhead
    exact BorrowsGraph.transGen_blocks h.edges h.chain hplace hlast hq

theorem mem_filterMap_current {nodes : List LocalNode} {q : Pcg.Place} :
    q ∈ nodes.filterMap localNodeToCurrentPlace ↔
      PCGNode.place (MaybeOldPlace.current q) ∈ nodes := by
  rw [List.mem_filterMap]
  constructor
  · rintro ⟨node, hnode, hq⟩
    cases node with
    | place maybeOld =>
      cases maybeOld with
      | current place =>
        cases hq
        exact hnode
      | oldPlace place at_ => cases hq
    | regionProjection rp => cases hq
  · intro h
    exact ⟨_, h, rfl⟩

/-! ## The search as a work list -/

section Search

variable (graph : BorrowsGraph) (isBlockingEdge : HashSet BorrowPcgEdgeKind → Bool)
  (isValidEdge : BorrowPcgEdgeKind → Bool)

/-- The tasks of the search: an edge to visit and the kinds seen before it. -/
abbrev Visit := BorrowPcgEdge × HashSet BorrowPcgEdgeKind

/-- The kinds seen once the edge is visited. -/
def Visit.kinds (visit : Visit) : HashSet BorrowPcgEdgeKind := visit.2.insert visit.1.kind

def Visit.children (visit : Visit) : List Visit :=
  (adjacentEdges graph isValidEdge visit.1).map fun edge => (edge, visit.kinds)

def Visit.emit (visit : Visit) : List Pcg.Place :=
  if isBlockingEdge visit.kinds then
    visit.1.blockedByNodes.filterMap localNodeToCurrentPlace
  else []

/-- The loop collects what its work list emits. -/
theorem visitLoop_eq (rounds : Nat) (toVisit : List Visit) (places : HashSet Pcg.Place) :
    visitLoop graph isBlockingEdge isValidEdge rounds toVisit places =
      (drainWorkList (Visit.children graph isValidEdge) (Visit.emit isBlockingEdge)
        rounds toVisit).map places.extend := by
  induction rounds generalizing toVisit places with
  | zero =>
    unfold visitLoop drainWorkList
    cases Vec.pop toVisit <;> rfl
  | succ rounds ih =>
    cases toVisit using List.reverseRecOn with
    | nil => rfl
    | append_singleton toVisit visit =>
      unfold visitLoop
      simp only [Vec.pop_concat, ih, drainWorkList_concat]
      -- the places a visit adds are those it emits
      have hplaces : (if isBlockingEdge visit.kinds = true then
            places.extend (visit.1.blockedByNodes.filterMap localNodeToCurrentPlace)
          else places) = places.extend (visit.emit isBlockingEdge) := by
        unfold Visit.emit
        split <;> rfl
      have hchildren : (adjacentEdges graph isValidEdge visit.1).map
            (fun edge => (edge, visit.2.insert visit.1.kind)) =
          visit.children graph isValidEdge := rfl
      unfold Visit.kinds at hplaces
      rw [hplaces, hchildren]
      cases drainWorkList (Visit.children graph isValidEdge) (Visit.emit isBlockingEdge) rounds
          (toVisit ++ visit.children graph isValidEdge) with
      | error e => rfl
      | ok emitted =>
        have happend : (places.extend (visit.emit isBlockingEdge)).extend emitted =
            places.extend (visit.emit isBlockingEdge ++ emitted) := by
          simp only [HashSet.extend, List.foldl_append]
        exact congrArg Except.ok happend

variable {graph isBlockingEdge isValidEdge}

theorem mem_adjacentEdges {edge edge' : BorrowPcgEdge} :
    edge' ∈ adjacentEdges graph isValidEdge edge ↔
      edge.Adjacent edge' ∧ edge' ∈ graph.edges ∧ isValidEdge edge'.kind = true := by
  simp only [adjacentEdges, List.mem_filter, List.mem_flatMap, List.mem_map,
    BorrowsGraph.mem_getEdgesBlocking, BorrowPcgEdge.Adjacent]
  constructor
  · rintro ⟨⟨_, ⟨node, hnode, rfl⟩, hedge, hblocked⟩, hvalid⟩
    exact ⟨⟨node, hnode, hblocked⟩, hedge, hvalid⟩
  · rintro ⟨⟨node, hnode, hblocked⟩, hedge, hvalid⟩
    exact ⟨⟨_, ⟨node, hnode, rfl⟩, hedge, hblocked⟩, hvalid⟩

/-- The walks of the search are the paths of valid edges of the graph. -/
theorem isChain_adjacentEdges {edge : BorrowPcgEdge} {rest : List BorrowPcgEdge} :
    (edge :: rest).IsChain (Step (adjacentEdges graph isValidEdge)) ↔
      (edge :: rest).IsChain BorrowPcgEdge.Adjacent ∧
        ∀ edge' ∈ rest, edge' ∈ graph.edges ∧ isValidEdge edge'.kind = true := by
  induction rest generalizing edge with
  | nil => simp
  | cons edge' rest ih =>
    rw [List.isChain_cons_cons, List.isChain_cons_cons, ih, List.forall_mem_cons, Step,
      mem_adjacentEdges]
    tauto

/-- A cycle of edges would be a cycle of the nodes they share. -/
theorem acyclic_adjacentEdges (h : graph.Acyclic) :
    Graph.Acyclic (Step (adjacentEdges graph isValidEdge)) := by
  -- every edge reached blocks a node that blocks all that the first edge blocks
  have hreach : ∀ edge edge', TransGen (Step (adjacentEdges graph isValidEdge)) edge edge' →
      edge' ∈ graph.edges ∧ (edge ∈ graph.edges → ∃ m ∈ edge'.blockedNodes,
        ∀ n ∈ edge.blockedNodes, TransGen graph.Blocks n m) := by
    intro edge edge' hpath
    induction hpath with
    | single hstep =>
      obtain ⟨⟨node, hby, hblocked⟩, hmem, -⟩ := mem_adjacentEdges.mp hstep
      refine ⟨hmem, fun hedge => ⟨_, hblocked, fun n hn => ?_⟩⟩
      exact .single ⟨edge, hedge, hn, node, hby, rfl⟩
    | tail _ hstep ih =>
      obtain ⟨⟨node, hby, hblocked⟩, hmem, -⟩ := mem_adjacentEdges.mp hstep
      refine ⟨hmem, fun hedge => ?_⟩
      obtain ⟨m, hm, hall⟩ := ih.2 hedge
      exact ⟨_, hblocked, fun n hn => (hall n hn).tail ⟨_, ih.1, hm, node, hby, rfl⟩⟩
  intro edge hcycle
  obtain ⟨hedge, hblocks⟩ := hreach edge edge hcycle
  obtain ⟨m, hm, hall⟩ := hblocks hedge
  exact h m (hall m hm)

/-- The edges visited on the way from one task to another are a walk, and the
    kinds seen are those of its edges. -/
theorem isChain_of_reaches {first last : Visit}
    (h : ReflTransGen (Step (Visit.children graph isValidEdge)) first last) :
    ∃ rest, (first.1 :: rest).IsChain (Step (adjacentEdges graph isValidEdge)) ∧
      last.1 ∈ (first.1 :: rest).getLast? ∧
      last.kinds = first.2.extend ((first.1 :: rest).map BorrowPcgEdge.kind) := by
  induction h using ReflTransGen.head_induction_on with
  | refl => exact ⟨[], .singleton _, rfl, rfl⟩
  | head hstep _ ih =>
    obtain ⟨edge, hedge, rfl⟩ := List.mem_map.mp hstep
    obtain ⟨rest, hchain, hlast, hkinds⟩ := ih
    refine ⟨edge :: rest, hchain.cons_cons hedge, ?_, hkinds⟩
    rwa [List.getLast?_cons_cons]

theorem reaches_of_isChain {edge : BorrowPcgEdge} {rest : List BorrowPcgEdge}
    (h : (edge :: rest).IsChain (Step (adjacentEdges graph isValidEdge)))
    (kindSet : HashSet BorrowPcgEdgeKind) :
    ∃ last : Visit, ReflTransGen (Step (Visit.children graph isValidEdge)) (edge, kindSet) last ∧
      last.1 ∈ (edge :: rest).getLast? ∧
      last.kinds = kindSet.extend ((edge :: rest).map BorrowPcgEdge.kind) := by
  induction rest generalizing edge kindSet with
  | nil => exact ⟨(edge, kindSet), .refl, rfl, rfl⟩
  | cons edge' rest ih =>
    obtain ⟨hstep, hrest⟩ := List.isChain_cons_cons.mp h
    obtain ⟨last, hreach, hlast, hkinds⟩ := ih hrest (kindSet.insert edge.kind)
    refine ⟨last, hreach.head (List.mem_map.mpr ⟨edge', hstep, rfl⟩), ?_, hkinds⟩
    rwa [List.getLast?_cons_cons]

theorem mem_emit {visit : Visit} {q : Pcg.Place} :
    q ∈ visit.emit isBlockingEdge ↔ isBlockingEdge visit.kinds = true ∧
      PCGNode.place (MaybeOldPlace.current q) ∈ visit.1.blockedByNodes := by
  unfold Visit.emit
  split
  · next hblocking => rw [mem_filterMap_current, iff_true_intro hblocking, true_and]
  · next hblocking => simp [hblocking]

/-- What the search starts with. -/
def startVisits (graph : BorrowsGraph) (isValidEdge : BorrowPcgEdgeKind → Bool)
    (place : Pcg.Place) : List Visit :=
  ((graph.getEdgesBlocking place.into).filter fun edge => isValidEdge edge.kind).map
    fun edge => (edge, HashSet.empty)

theorem mem_startVisits {place : Pcg.Place} {visit : Visit} :
    visit ∈ startVisits graph isValidEdge place ↔
      visit.2 = HashSet.empty ∧ visit.1 ∈ graph.edges ∧
        isValidEdge visit.1.kind = true ∧ place.into ∈ visit.1.blockedNodes := by
  obtain ⟨edge, kindSet⟩ := visit
  simp only [startVisits, List.mem_map, List.mem_filter, BorrowsGraph.mem_getEdgesBlocking,
    Prod.mk.injEq]
  constructor
  · rintro ⟨_, ⟨⟨hedge, hplace⟩, hvalid⟩, rfl, rfl⟩
    exact ⟨rfl, hedge, hvalid, hplace⟩
  · rintro ⟨rfl, hedge, hvalid, hplace⟩
    exact ⟨edge, ⟨⟨hedge, hplace⟩, hvalid⟩, rfl, rfl⟩

/-- The first tasks lead to exactly the places at the ends of blocking paths. -/
theorem emits_startVisits {place q : Pcg.Place} :
    WorkListEmits (Visit.children graph isValidEdge) (Visit.emit isBlockingEdge)
        (startVisits graph isValidEdge place) q ↔
      ∃ path, BlockingPath graph isBlockingEdge isValidEdge place q path := by
  constructor
  · rintro ⟨⟨edge, kindSet⟩, hstart, last, hreach, hq⟩
    obtain ⟨hempty, hedge, hvalid, hplace⟩ := mem_startVisits.mp hstart
    obtain ⟨rest, hchain, hlast, hkinds⟩ := isChain_of_reaches hreach
    obtain ⟨hchain, hrest⟩ := isChain_adjacentEdges.mp hchain
    obtain ⟨hblocking, hq⟩ := mem_emit.mp hq
    simp only at hempty hkinds
    subst hempty
    rw [hkinds] at hblocking
    exact ⟨edge :: rest,
      { edges := List.forall_mem_cons.mpr ⟨hedge, fun edge' h => (hrest edge' h).1⟩
        valid := List.forall_mem_cons.mpr ⟨hvalid, fun edge' h => (hrest edge' h).2⟩
        head := ⟨edge, rfl, hplace⟩
        chain := hchain
        blocking := hblocking
        last := ⟨last.1, hlast, hq⟩ }⟩
  · rintro ⟨path, hpath⟩
    -- the path is walked from its first edge
    obtain ⟨edge, hhead, hplace⟩ := hpath.head
    cases path with
    | nil => exact absurd hhead (by simp)
    | cons first rest =>
      rw [List.head?_cons, Option.mem_some_iff] at hhead
      subst hhead
      obtain ⟨hedge, hedges⟩ := List.forall_mem_cons.mp hpath.edges
      obtain ⟨hvalid, hvalids⟩ := List.forall_mem_cons.mp hpath.valid
      have hchain := isChain_adjacentEdges.mpr
        ⟨hpath.chain, fun edge' h => ⟨hedges edge' h, hvalids edge' h⟩⟩
      obtain ⟨last, hreach, hlast, hkinds⟩ := reaches_of_isChain hchain HashSet.empty
      obtain ⟨last', hlast', hq⟩ := hpath.last
      obtain rfl : last.1 = last' := Option.mem_unique hlast hlast'
      have hblocking : isBlockingEdge last.kinds = true := by
        rw [hkinds]
        exact hpath.blocking
      exact ⟨(first, HashSet.empty), mem_startVisits.mpr ⟨rfl, hedge, hvalid, hplace⟩, last, hreach,
        mem_emit.mpr ⟨hblocking, hq⟩⟩

/-- A task is followed by as many walks as its edge. -/
theorem walkCount_children (depth : Nat) (visit : Visit) :
    walkCount (Visit.children graph isValidEdge) depth visit =
      searchRounds graph isValidEdge depth visit.1 := by
  induction depth generalizing visit with
  | zero => rfl
  | succ depth ih =>
    simp only [walkCount, searchRounds, Visit.children, List.map_map]
    congr 2
    exact List.map_congr_left fun edge _ => ih (edge, visit.kinds)

/-- In an acyclic graph no task is deeper than there are edges. -/
theorem depthLe_children (h : graph.Acyclic) {visit : Visit} (hvisit : visit.1 ∈ graph.edges) :
    DepthLe (Visit.children graph isValidEdge) graph.edges.length visit := by
  have hsucc : ∀ edge, adjacentEdges graph isValidEdge edge ⊆ graph.edges :=
    fun edge edge' hedge' => (mem_adjacentEdges.mp hedge').2.1
  have hdepth := (acyclic_adjacentEdges h).depthLe hsucc hvisit
  intro rest hrest
  have hedges : (visit.1 :: rest.map Prod.fst).IsChain
      (Step (adjacentEdges graph isValidEdge)) := by
    refine List.isChain_map_of_isChain Prod.fst ?_ hrest
    intro first next hstep
    obtain ⟨edge, hedge, rfl⟩ := List.mem_map.mp hstep
    exact hedge
  simpa using hdepth _ hedges

/-- The search is its work list run for as many rounds as there are walks. -/
theorem placesBlocking_eq (place : Pcg.Place) :
    placesBlocking place graph isBlockingEdge isValidEdge =
      (drainWorkList (Visit.children graph isValidEdge) (Visit.emit isBlockingEdge)
        ((startVisits graph isValidEdge place).map
          (walkCount (Visit.children graph isValidEdge) graph.edges.length)).sum
        (startVisits graph isValidEdge place)).map HashSet.empty.extend := by
  have hrounds : (startVisits graph isValidEdge place).map
        (walkCount (Visit.children graph isValidEdge) graph.edges.length) =
      ((graph.getEdgesBlocking place.into).filter fun edge => isValidEdge edge.kind).map
        (searchRounds graph isValidEdge graph.edges.length) := by
    rw [startVisits, List.map_map]
    exact List.map_congr_left fun edge _ => walkCount_children _ (edge, HashSet.empty)
  rw [hrounds, ← visitLoop_eq]
  rfl

/-- Whatever the graph, a search that ends has found exactly the places that
    some blocking path leads to. -/
theorem mem_placesBlocking {place : Pcg.Place} {places : HashSet Pcg.Place}
    (h : placesBlocking place graph isBlockingEdge isValidEdge = .ok places) (q : Pcg.Place) :
    q ∈ places ↔ ∃ path, BlockingPath graph isBlockingEdge isValidEdge place q path := by
  rw [placesBlocking_eq] at h
  cases hdrain : drainWorkList (Visit.children graph isValidEdge) (Visit.emit isBlockingEdge)
      ((startVisits graph isValidEdge place).map
        (walkCount (Visit.children graph isValidEdge) graph.edges.length)).sum
      (startVisits graph isValidEdge place) with
  | error e =>
    rw [hdrain] at h
    cases h
  | ok emitted =>
    rw [hdrain] at h
    cases h
    rw [HashSet.mem_extend, mem_drainWorkList hdrain, emits_startVisits]
    simp

variable (isBlockingEdge isValidEdge) in
/-- On an acyclic graph the search ends. -/
theorem placesBlocking_isOk (h : graph.Acyclic) (place : Pcg.Place) :
    ∃ places, placesBlocking place graph isBlockingEdge isValidEdge = .ok places := by
  have hdepth : ∀ visit ∈ startVisits graph isValidEdge place,
      DepthLe (Visit.children graph isValidEdge) graph.edges.length visit :=
    fun visit hvisit => depthLe_children h (mem_startVisits.mp hvisit).2.1
  obtain ⟨emitted, hok⟩ :=
    drainWorkList_isOk (Visit.emit isBlockingEdge) hdepth (Nat.le_refl _)
  refine ⟨HashSet.empty.extend emitted, ?_⟩
  rw [placesBlocking_eq, hok]
  rfl

end Search

/-- On an acyclic graph the search ends, and what it returns is the set of the
    places that some blocking path leads to. -/
theorem placesBlocking_eq_blockingPaths (place : Pcg.Place) (graph : BorrowsGraph)
    (isBlockingEdge : HashSet BorrowPcgEdgeKind → Bool)
    (isValidEdge : BorrowPcgEdgeKind → Bool) (hacyclic : graph.Acyclic) :
    ∃ places, placesBlocking place graph isBlockingEdge isValidEdge = .ok places ∧
      ∀ q, q ∈ places ↔ ∃ path, BlockingPath graph isBlockingEdge isValidEdge place q path := by
  obtain ⟨places, hok⟩ := placesBlocking_isOk isBlockingEdge isValidEdge hacyclic place
  exact ⟨places, hok, mem_placesBlocking hok⟩

namespace Sample

/-- `x` is mutably borrowed by `r`, which the result `y` of a call holds on to. -/
def heldByCall : BorrowsGraph :=
  ⟨[borrowOfX (.mut .default) r (.reVar 0), ⟨.abstraction 0, [r.into], [.place (.current y)]⟩]⟩

/-- Whatever they are for, an edge from `x` to `r` and one from `r` to `y` make no
    cycle. -/
theorem acyclic_chain (kind kind' : BorrowPcgEdgeKind) :
    BorrowsGraph.Acyclic ⟨[⟨kind, [x.into], [.place (.current r)]⟩,
      ⟨kind', [r.into], [.place (.current y)]⟩]⟩ := by
  refine acyclic_of_rank (fun node => if node = x.into then 2 else if node = r.into then 1 else 0)
    ?_
  rintro n m ⟨edge, hedge, hn, node, hnode, rfl⟩
  simp only [List.mem_cons, List.not_mem_nil, or_false] at hedge
  rcases hedge with rfl | rfl
  · obtain rfl := List.mem_singleton.mp hn
    obtain rfl := List.mem_singleton.mp hnode
    decide
  · obtain rfl := List.mem_singleton.mp hn
    obtain rfl := List.mem_singleton.mp hnode
    decide

theorem heldByCall_acyclic : heldByCall.Acyclic := acyclic_chain _ _

end Sample

/-- Only `y` blocks `x` through a call. -/
theorem placesBlocking_heldByCall :
    ∃ places, placesBlocking Sample.x Sample.heldByCall AbstractExpiryOrder.isBlockingEdge
        (AbstractExpiryOrder.isValidEdge Sample.ctx) = .ok places ∧
      places.elems = [Sample.y] ∧
      ∀ q, q ∈ places ↔ ∃ path, BlockingPath Sample.heldByCall AbstractExpiryOrder.isBlockingEdge
        (AbstractExpiryOrder.isValidEdge Sample.ctx) Sample.x q path := by
  obtain ⟨places, hok, hpaths⟩ := placesBlocking_eq_blockingPaths Sample.x Sample.heldByCall
    AbstractExpiryOrder.isBlockingEdge (AbstractExpiryOrder.isValidEdge Sample.ctx)
    Sample.heldByCall_acyclic
  have hfound : (placesBlocking Sample.x Sample.heldByCall AbstractExpiryOrder.isBlockingEdge
      (AbstractExpiryOrder.isValidEdge Sample.ctx)).map HashSet.elems = .ok [Sample.y] := rfl
  rw [hok] at hfound
  exact ⟨places, hok, Except.ok.inj hfound, hpaths⟩

end MutationTesting.Mutator
