/-
  MutationTesting.Mutator.Utils

  The helpers the mutations share (`src/mutator/utils.rs`): the current place
  of a graph node, fresh locals and blocks, the places blocked by a local
  borrow, and whether a place belongs to a variable the user named.
-/
import MutationTesting.Pcg.Basic

namespace MutationTesting.Mutator

open MutationTesting.Rust MutationTesting.Mir MutationTesting.Pcg

def maybeOldPlaceToCurrentPlace : MaybeOldPlace → Option Pcg.Place
  | .current place => some place
  | .oldPlace _ _ => none

def localNodeToCurrentPlace : LocalNode → Option Pcg.Place
  | .place maybeOldPlace => maybeOldPlaceToCurrentPlace maybeOldPlace
  | .regionProjection _ => none

/-- The source info of the first local, which every body has. -/
def bogusSourceInfo (body : Body) : Res SourceInfo := do
  let decl ← unwrap body.localDecls.head?
  return decl.sourceInfo

/-- The declaration `freshLocal` pushes: a user variable of type `ty`. -/
def freshLocalDecl (ty : Ty) (sourceInfo : SourceInfo) : LocalDecl :=
  let varBindingForm : VarBindingForm :=
    { bindingMode := .none, optTyInfo := none, optMatchPlace := none, patSpan := sourceInfo.span }
  { LocalDecl.withSourceInfo ty sourceInfo with localInfo := .user (.var varBindingForm) }

/-- Create a fresh local with a bogus source span. -/
def freshLocal (body : Body) (ty : Ty) : Res (Body × Local) := do
  let sourceInfo ← bogusSourceInfo body
  return ({ body with localDecls := body.localDecls ++ [freshLocalDecl ty sourceInfo] },
    body.localDecls.length)

def freshBasicBlock (body : Body) : Body × BasicBlock :=
  ({ body with basicBlocks := body.basicBlocks ++ [BasicBlockData.new none] },
    body.basicBlocks.length)

def isMut : BorrowKind → Bool
  | .mut .default => true
  | _ => false

def isShared : BorrowKind → Bool
  | .shared => true
  | _ => false

/-- The place an edge blocks by a local borrow satisfying `p`, and the region
    of the borrow. -/
def borrowedPlace (p : BorrowKind → Bool) (edge : BorrowPcgEdge) :
    Option (Pcg.Place × Region) :=
  match edge.kind with
  | .borrow borrowEdge =>
    match borrowEdge with
    | .local localBorrow =>
      if borrowEdge.kind.any p then
        match localBorrow.blockedPlace with
        | .current place => some (place, localBorrow.region)
        | _ => none
      else none
    | _ => none
  | _ => none

/-- Every place blocked by a borrow edge satisfying `p`. -/
def borrowedPlaces (graph : BorrowsGraph) (p : BorrowKind → Bool) :
    List (Pcg.Place × Region) :=
  graph.edges.filterMap (borrowedPlace p)

def hasNamedLocal (place : Pcg.Place) (body : Body) : Bool :=
  match body.localDecls[place.local]? with
  | some localDecl => localDecl.isUserVariable
  | none => false

/-! ## Specifications -/

theorem hasNamedLocal_lt {place : Pcg.Place} {body : Body}
    (h : hasNamedLocal place body = true) : place.local < body.localDecls.length := by
  unfold hasNamedLocal at h
  split at h
  · next hget => exact (List.getElem?_eq_some_iff.mp hget).1
  · simp at h

theorem bogusSourceInfo_of_lt {body : Body} {l : Local} (h : l < body.localDecls.length) :
    ∃ sourceInfo, bogusSourceInfo body = .ok sourceInfo := by
  have hne : body.localDecls ≠ [] := by
    rintro hnil
    simp [hnil] at h
  obtain ⟨decl, rest, hcons⟩ := List.exists_cons_of_ne_nil hne
  exact ⟨decl.sourceInfo, by simp [bogusSourceInfo, hcons]⟩

/-- Pushing locals keeps the bogus source info, which is the first local's. -/
theorem bogusSourceInfo_append {body : Body} {sourceInfo : SourceInfo}
    (h : bogusSourceInfo body = .ok sourceInfo) (blocks : List BasicBlockData)
    (fresh : List LocalDecl) :
    bogusSourceInfo ⟨blocks, body.localDecls ++ fresh⟩ = .ok sourceInfo := by
  unfold bogusSourceInfo at h ⊢
  cases hdecls : body.localDecls with
  | nil => simp [hdecls, unwrap] at h
  | cons decl rest => simpa [hdecls] using h

theorem freshLocal_eq {body : Body} {sourceInfo : SourceInfo}
    (h : bogusSourceInfo body = .ok sourceInfo) (ty : Ty) :
    freshLocal body ty = .ok
      (⟨body.basicBlocks, body.localDecls ++ [freshLocalDecl ty sourceInfo]⟩,
        body.localDecls.length) := by
  rw [freshLocal, h]
  rfl

theorem borrowedPlace_eq_some {p : BorrowKind → Bool} {edge : BorrowPcgEdge}
    {place : Pcg.Place} {region : Region} :
    borrowedPlace p edge = some (place, region) ↔
      ∃ borrow : LocalBorrow, edge.kind = .borrow (.local borrow) ∧ p borrow.kind = true ∧
        borrow.blockedPlace = .current place ∧ borrow.region = region := by
  obtain ⟨kind, _, _⟩ := edge
  cases kind with
  | borrow borrowEdge =>
    cases borrowEdge with
    | «local» borrow =>
      obtain ⟨blocked, _, kind, _, _⟩ := borrow
      cases blocked <;> cases hp : p kind <;> simp [borrowedPlace, BorrowEdge.kind, hp]
    | remote _ => simp [borrowedPlace]
  | _ => simp [borrowedPlace]

theorem mem_borrowedPlaces {graph : BorrowsGraph} {p : BorrowKind → Bool}
    {place : Pcg.Place} {region : Region} :
    (place, region) ∈ borrowedPlaces graph p ↔
      ∃ edge ∈ graph.edges, borrowedPlace p edge = some (place, region) := by
  simp [borrowedPlaces]

end MutationTesting.Mutator
