/-
  MutationTesting.Pcg.Basic

  What the tool reads of the place capability graph: the capabilities of places
  and the borrows graph at the evaluation phases of each program point.  The
  analysis itself is the `pcg` crate's; its results are data here, and nothing
  is assumed of them unless a theorem says so.

  An edge of the borrows graph carries its kind, the nodes it blocks and the
  nodes it is blocked by.
-/
import MutationTesting.Mir.Typing
import MutationTesting.Rust.HashSet

namespace MutationTesting.Pcg

open MutationTesting.Rust MutationTesting.Mir

/-- `pcg::utils::place::Place`, a wrapper of rustc's `PlaceRef`. -/
structure Place where
  «local» : Local
  projection : List PlaceElem
  deriving DecidableEq

/-- `PlaceRef::from(place).to_place(tcx)`. -/
def Place.toPlace (place : Place) : Mir.Place := ⟨place.local, place.projection⟩

@[simp] theorem Place.toPlace_local (place : Place) : place.toPlace.local = place.local := rfl

theorem Place.toPlace_injective : Function.Injective Place.toPlace := by
  intro p q h
  cases p
  cases q
  cases h
  rfl

@[simp] theorem Place.toPlace_inj {p q : Place} : p.toPlace = q.toPlace ↔ p = q :=
  Place.toPlace_injective.eq_iff

/-! ## Nodes -/

/-- A place as it is now or as it was at an earlier program point. -/
inductive MaybeOldPlace where
  | current (place : Place)
  | oldPlace (place : Place) (at_ : Interned)
  deriving DecidableEq

def MaybeOldPlace.place : MaybeOldPlace → Place
  | .current place | .oldPlace place _ => place

inductive MaybeRemotePlace where
  | local (place : MaybeOldPlace)
  | remote (l : Local)
  deriving DecidableEq

structure RegionProjection (α : Type) where
  place : α
  index : Nat
  deriving DecidableEq

inductive PCGNode (α : Type) where
  | place (place : α)
  | regionProjection (rp : RegionProjection α)
  deriving DecidableEq

abbrev LocalNode := PCGNode MaybeOldPlace
abbrev BlockedNode := PCGNode MaybeRemotePlace

/-- `BlockedNode::from` a local node. -/
def BlockedNode.from : LocalNode → BlockedNode
  | .place place => .place (.local place)
  | .regionProjection rp => .regionProjection ⟨.local rp.place, rp.index⟩

/-- `Place::into` a blocked node: the place as it is now. -/
def Place.into (place : Place) : BlockedNode := .place (.local (.current place))

/-! ## Edges and graphs -/

structure LocalBorrow where
  blockedPlace : MaybeOldPlace
  assignedPlace : MaybeOldPlace
  kind : BorrowKind
  region : Region
  reserveLocation : Location
  deriving DecidableEq

structure RemoteBorrow where
  l : Local
  assignedPlace : MaybeOldPlace
  deriving DecidableEq

inductive BorrowEdge where
  | local (borrow : LocalBorrow)
  | remote (borrow : RemoteBorrow)
  deriving DecidableEq

/-- `BorrowEdge::kind`: a remote borrow has none. -/
def BorrowEdge.kind : BorrowEdge → Option BorrowKind
  | .local borrow => some borrow.kind
  | .remote _ => none

structure BorrowPcgExpansion where
  base : LocalNode
  expansion : List LocalNode
  deriving DecidableEq

inductive BorrowPcgEdgeKind where
  | borrow (edge : BorrowEdge)
  | borrowPcgExpansion (expansion : BorrowPcgExpansion)
  | abstraction (data : Interned)
  | other (data : Interned)
  deriving DecidableEq

structure BorrowPcgEdge where
  kind : BorrowPcgEdgeKind
  blockedNodes : List BlockedNode
  blockedByNodes : List LocalNode
  deriving DecidableEq

structure BorrowsGraph where
  edges : List BorrowPcgEdge

/-- `get_edges_blocking`: the edges that block `node`. -/
def BorrowsGraph.getEdgesBlocking (graph : BorrowsGraph) (node : BlockedNode) :
    List BorrowPcgEdge :=
  graph.edges.filter fun edge => decide (node ∈ edge.blockedNodes)

/-! ## Analysis results -/

inductive CapabilityKind where
  | read
  | write
  | exclusive
  | shallowExclusive
  deriving DecidableEq

inductive EvalStmtPhase where
  | preOperands
  | postOperands
  | preMain
  | postMain
  deriving DecidableEq

/-- The state of the analysis at one phase of one program point. -/
structure PcgState where
  capabilities : List (Place × CapabilityKind)
  borrowPcg : BorrowsGraph

structure PcgLocation where
  location : Location
  states : EvalStmtPhase → PcgState

@[ext]
structure PcgBasicBlock where
  statements : List PcgLocation

/-- `PcgOutput`: the answer of `get_all_for_bb` for each block, the same on
    every call. -/
structure PcgOutput where
  getAllForBb : BasicBlock → Except Interned (Option PcgBasicBlock)

/-- The context the analysis and the mutations share. -/
structure CompilerCtxt where
  tcx : TyCtxt
  body : Body

end MutationTesting.Pcg
