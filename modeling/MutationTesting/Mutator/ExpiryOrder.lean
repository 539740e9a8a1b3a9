/-
  MutationTesting.Mutator.ExpiryOrder

  The two mutations that ask two places to expire in the wrong order
  (`expiry_order.rs`): the search for blocking places, the reborrowing
  statements, and the split of the block between `curr` and `next` into a
  head, a tail and a branch that is never taken.

  Both mutations select their pairs in the same way, by `mutantSequences`, with
  their own predicates on edges.
-/
import MutationTesting.Mutator.Basic
import MutationTesting.Mir.Body
import MutationTesting.Rust.IndexVec
import Mathlib.Algebra.GroupWithZero.Nat

namespace MutationTesting.Mutator

open MutationTesting.Rust MutationTesting.Mir MutationTesting.Pcg

/-! ## Blocking places -/

/-- The edges the search continues with after `edge`: those that block a node
    `edge` is blocked by and that are valid. -/
def adjacentEdges (graph : BorrowsGraph) (isValidEdge : BorrowPcgEdgeKind → Bool)
    (edge : BorrowPcgEdge) : List BorrowPcgEdge :=
  ((edge.blockedByNodes.map BlockedNode.from).flatMap graph.getEdgesBlocking).filter
    fun edge => isValidEdge edge.kind

/-- How many rounds the search spends on `edge` and what follows it, cut off
    below the given depth. -/
def searchRounds (graph : BorrowsGraph) (isValidEdge : BorrowPcgEdgeKind → Bool) :
    Nat → BorrowPcgEdge → Nat
  | 0, _ => 1
  | depth + 1, edge =>
    1 + ((adjacentEdges graph isValidEdge edge).map (searchRounds graph isValidEdge depth)).sum

/-- `while let Some((curr, mut kind_set)) = to_visit.pop()`, for at most the
    given number of rounds. -/
def visitLoop (graph : BorrowsGraph) (isBlockingEdge : HashSet BorrowPcgEdgeKind → Bool)
    (isValidEdge : BorrowPcgEdgeKind → Bool) :
    Nat → List (BorrowPcgEdge × HashSet BorrowPcgEdgeKind) → HashSet Pcg.Place →
      Res (HashSet Pcg.Place)
  | rounds, toVisit, places =>
    match Vec.pop toVisit with
    | none => .ok places
    | some ((curr, kindSet), toVisit) =>
      match rounds with
      | 0 => .error .diverges
      | rounds + 1 =>
        let kindSet := kindSet.insert curr.kind
        let places :=
          if isBlockingEdge kindSet then
            places.extend (curr.blockedByNodes.filterMap localNodeToCurrentPlace)
          else places
        let adjacent := (adjacentEdges graph isValidEdge curr).map fun edge => (edge, kindSet)
        visitLoop graph isBlockingEdge isValidEdge rounds (toVisit ++ adjacent) places

/-- Returns the places for each node that blocks `place` on a path that includes
    at least one edge satisfying `isBlockingEdge` and consisting only of edges
    that satisfy `isValidEdge`.

    There is no visited set.  A path that never repeats an edge is no longer
    than the graph has edges, so the rounds spent on such paths bound every
    search that ends. -/
def placesBlocking (place : Pcg.Place) (graph : BorrowsGraph)
    (isBlockingEdge : HashSet BorrowPcgEdgeKind → Bool)
    (isValidEdge : BorrowPcgEdgeKind → Bool) : Res (HashSet Pcg.Place) :=
  let toVisit := (graph.getEdgesBlocking place.into).filter fun edge => isValidEdge edge.kind
  let rounds := (toVisit.map (searchRounds graph isValidEdge graph.edges.length)).sum
  visitLoop graph isBlockingEdge isValidEdge rounds
    (toVisit.map fun edge => (edge, HashSet.empty)) HashSet.empty

/-! ## Pairs of places -/

/-- The pairs `(p2, p1)` of named places such that `p2` is mutably borrowed and
    `p1` blocks it, under the predicates of one of the two mutations. -/
def mutantSequences (order : HashOrder Pcg.Place)
    (isBlockingEdge : HashSet BorrowPcgEdgeKind → Bool)
    (isValidEdge : BorrowPcgEdgeKind → Bool) (body : Body) (next : PcgLocation) :
    Res (List (Pcg.Place × Pcg.Place)) := do
  let graph := (next.states .postOperands).borrowPcg
  let mutablyBorrowedPlaces := HashSet.collect ((borrowedPlaces graph isMut).map Prod.fst)
  let sequences ← (mutablyBorrowedPlaces.iter order).mapM fun place =>
    if hasNamedLocal place body then do
      let blockingPlaces ← placesBlocking place graph isBlockingEdge isValidEdge
      return ((blockingPlaces.iter order).filter fun blockingPlace =>
        hasNamedLocal blockingPlace body).map fun blockingPlace => (place, blockingPlace)
    else .ok []
  return sequences.flatten

/-- Whether some edge kind of the set is a mutable borrow. -/
def anyMutBorrow (kindSet : HashSet BorrowPcgEdgeKind) : Bool :=
  kindSet.elems.any fun kind =>
    match kind with
    | .borrow borrowEdge => borrowEdge.kind.any isMut
    | _ => false

/-- The mutability of the reference a place of the graph holds, if it holds one;
    a place over an undeclared local has no type. -/
def refMutability (ctx : CompilerCtxt) (place : MaybeOldPlace) : Option Mutability :=
  (place.place.toPlace.ty ctx.tcx ctx.body.localDecls).toOption.bind Ty.refMutability

/-- `BorrowExpiryOrder` identifies a place p1 which blocks another place p2 via a
    mutable borrow and attempts to use p2 before p1. -/
def BorrowExpiryOrder.isBlockingEdge (kindSet : HashSet BorrowPcgEdgeKind) : Bool :=
  anyMutBorrow kindSet

def BorrowExpiryOrder.isValidEdge (ctx : CompilerCtxt) (kind : BorrowPcgEdgeKind) : Bool :=
  match kind with
  | .borrow borrowEdge => borrowEdge.kind.any isMut
  | .borrowPcgExpansion expansion =>
    match expansion.base with
    | .place p => decide (refMutability ctx p = some .mut)
    | .regionProjection rp => decide (refMutability ctx rp.place = some .mut)
  | _ => true

def BorrowExpiryOrder.candidates (order : HashOrder Pcg.Place) (ctx : CompilerCtxt)
    (body : Body) (next : PcgLocation) : Res (List (Pcg.Place × Pcg.Place)) :=
  mutantSequences order isBlockingEdge (isValidEdge ctx) body next

/-- `AbstractExpiryOrder` identifies a place p1 which blocks another place p2 via
    a mutable borrow and through an abstraction edge and attempts to use p2
    before p1. -/
def AbstractExpiryOrder.isBlockingEdge (kindSet : HashSet BorrowPcgEdgeKind) : Bool :=
  (kindSet.elems.any fun kind =>
    match kind with
    | .abstraction _ => true
    | _ => false) && anyMutBorrow kindSet

def AbstractExpiryOrder.isValidEdge (ctx : CompilerCtxt) (kind : BorrowPcgEdgeKind) : Bool :=
  match kind with
  | .borrow borrowEdge => borrowEdge.kind.any isMut
  | .borrowPcgExpansion expansion =>
    match expansion.base with
    | .place p => decide (refMutability ctx p = some .mut)
    | .regionProjection rp => decide (refMutability ctx rp.place = some .mut)
  | _ => true

def AbstractExpiryOrder.candidates (order : HashOrder Pcg.Place) (ctx : CompilerCtxt)
    (body : Body) (next : PcgLocation) : Res (List (Pcg.Place × Pcg.Place)) :=
  mutantSequences order isBlockingEdge (isValidEdge ctx) body next

/-! ## Mutant bodies -/

/-- Given a list of MIR places, produce a list of MIR statements which reborrow
    those places into fresh local variables in the same order. -/
def placesToStatements (tcx : TyCtxt) (body : Body) :
    List Pcg.Place → Res (Body × List Statement)
  | [] => .ok (body, [])
  | place :: places => do
    let mirPlace := place.toPlace
    let region := Region.reVar RegionVid.MAX
    let ty ← mirPlace.ty tcx body.localDecls
    let (body, target) ← freshLocal body (Ty.newMutRef region ty)
    let sourceInfo ← bogusSourceInfo body
    let statement : Statement :=
      { sourceInfo, kind := .assign (Place.from target) (.ref region .shared mirPlace) }
    let (body, statements) ← placesToStatements tcx body places
    return (body, statement :: statements)

/-- Split the block of `curr` before `next` and branch to the mutant sequence. -/
def ExpiryOrder.attempt (ctx : CompilerCtxt) (body : Body) (curr next : Location)
    (candidate : Pcg.Place × Pcg.Place) : Attempt := do
  let (place, blockingPlace) := candidate
  let (mutantBody, mutantSequence) ← placesToStatements ctx.tcx body [place, blockingPlace]
  -- Split the original basic block between `curr` and `next`.
  let bb ← unwrap mutantBody.basicBlocks[curr.block]?
  let (headStatements, tailStatements) ← Vec.drainFrom bb.statements next.statementIndex
  let bbTerminator := bb.terminator
  let mutantBody := mutantBody.setBlock curr.block
    { bb with statements := headStatements, terminator := none }
  let (mutantBody, tailBbIndex) := freshBasicBlock mutantBody
  let tailBb ← unwrap mutantBody.basicBlocks[tailBbIndex]?
  let mutantBody := mutantBody.setBlock tailBbIndex
    { tailBb with statements := tailBb.statements ++ tailStatements, terminator := bbTerminator }
  let bogus ← bogusSourceInfo mutantBody
  -- The mutant block is the branch in which we expire p2 before p1.
  let (mutantBody, mutantBbIndex) := freshBasicBlock mutantBody
  let mutantBb ← unwrap mutantBody.basicBlocks[mutantBbIndex]?
  let mutantBody := mutantBody.setBlock mutantBbIndex
    { mutantBb with statements := mutantSequence, terminator := some ⟨bogus, .unreachable⟩ }
  let startLoc : MutantLocation := ⟨mutantBbIndex, 0⟩
  let endLoc : MutantLocation := ⟨mutantBbIndex, curr.statementIndex⟩
  let bb ← unwrap mutantBody.basicBlocks[curr.block]?
  -- Control always flows to the tail, but the body is checked as if it could go
  -- to the mutant block.
  let mutantBody := mutantBody.setBlock curr.block
    { bb with terminator := some ⟨bogus, .falseEdge tailBbIndex mutantBbIndex⟩ }
  return some
    { body := mutantBody
      range := ⟨startLoc, endLoc⟩
      info := "created mutant expiry sequence " ++ ctx.tcx.debugStatements mutantSequence }

/-! ## Specification -/

/-- The statement that reborrows `place` into `target`. -/
def reborrow (sourceInfo : SourceInfo) (target : Local) (place : Pcg.Place) : Statement :=
  ⟨sourceInfo, .assign (Place.from target) (.ref (.reVar RegionVid.MAX) .shared place.toPlace)⟩

/-- The declaration of the local that a place of type `ty` is reborrowed into. -/
def reborrowDecl (sourceInfo : SourceInfo) (ty : Ty) : LocalDecl :=
  freshLocalDecl (Ty.newMutRef (.reVar RegionVid.MAX) ty) sourceInfo

/-- One round of `placesToStatements`: the place is typed, its target declared,
    and the rest of the list processed in the grown body. -/
theorem placesToStatements_cons {tcx : TyCtxt} {body : Body} {place : Pcg.Place}
    {sourceInfo : SourceInfo} (hsi : bogusSourceInfo body = .ok sourceInfo) {ty : Ty}
    (hty : place.toPlace.ty tcx body.localDecls = .ok ty) (places : List Pcg.Place) :
    placesToStatements tcx body (place :: places) = (do
      let rest ← placesToStatements tcx
        ⟨body.basicBlocks, body.localDecls ++ [reborrowDecl sourceInfo ty]⟩ places
      return (rest.1, reborrow sourceInfo body.localDecls.length place :: rest.2)) := by
  simp only [placesToStatements, hty, Res.ok_bind, freshLocal_eq hsi, bogusSourceInfo_append hsi]
  rfl

theorem placesToStatements_cons_inv {tcx : TyCtxt} {body body' : Body} {place : Pcg.Place}
    {places : List Pcg.Place} {statements : List Statement}
    (h : placesToStatements tcx body (place :: places) = .ok (body', statements)) :
    ∃ ty sourceInfo rest, place.toPlace.ty tcx body.localDecls = .ok ty ∧
      bogusSourceInfo body = .ok sourceInfo ∧
      placesToStatements tcx
        ⟨body.basicBlocks, body.localDecls ++ [reborrowDecl sourceInfo ty]⟩ places =
          .ok (body', rest) ∧
      statements = reborrow sourceInfo body.localDecls.length place :: rest := by
  obtain ⟨ty, hty, -⟩ := Res.bind_inv h
  obtain ⟨sourceInfo, hsi⟩ := bogusSourceInfo_of_lt (Place.lt_of_ty hty)
  rw [placesToStatements_cons hsi hty] at h
  obtain ⟨⟨body'', rest⟩, hrest, h⟩ := Res.bind_inv h
  cases h
  exact ⟨ty, sourceInfo, rest, hty, hsi, hrest, rfl⟩

/-- The declaration of the target of `place`, with the place typed in `localDecls`. -/
def targetDecl (tcx : TyCtxt) (sourceInfo : SourceInfo) (localDecls : List LocalDecl)
    (place : Pcg.Place) : Res LocalDecl := do
  let ty ← place.toPlace.ty tcx localDecls
  return reborrowDecl sourceInfo ty

/-- A declared place has the same type in the grown declarations. -/
theorem targetDecl_stable (tcx : TyCtxt) (sourceInfo : SourceInfo) {localDecls : List LocalDecl}
    {place : Pcg.Place} (h : place.local < localDecls.length) :
    IndexVec.Stable (targetDecl tcx sourceInfo) localDecls place := by
  intro new
  rw [targetDecl, targetDecl, Place.ty_append place.toPlace new h]

theorem targetDecl_of_lt (tcx : TyCtxt) (sourceInfo : SourceInfo) {localDecls : List LocalDecl}
    {place : Pcg.Place} (h : place.local < localDecls.length) :
    ∃ decl, targetDecl tcx sourceInfo localDecls place = .ok decl := by
  rw [targetDecl, Place.ty_of_lt tcx place.toPlace h]
  exact ⟨_, rfl⟩

/-- `placesToStatements` pushes the declaration of one target for each place, and
    borrows the places into the indices it is handed. -/
theorem placesToStatements_eq_pushEach (tcx : TyCtxt) {body : Body} {sourceInfo : SourceInfo}
    (hsi : bogusSourceInfo body = .ok sourceInfo) (places : List Pcg.Place) :
    placesToStatements tcx body places = (do
      let grown ← IndexVec.pushEach (targetDecl tcx sourceInfo) body.localDecls places
      return (⟨body.basicBlocks, grown.1⟩, List.zipWith (reborrow sourceInfo) grown.2 places)) := by
  induction places generalizing body with
  | nil => rfl
  | cons place places ih =>
    rw [IndexVec.pushEach_cons, targetDecl]
    cases hty : place.toPlace.ty tcx body.localDecls with
    | error e =>
      rw [placesToStatements, hty]
      rfl
    | ok ty =>
      -- the declaration that is pushed keeps the bogus source info
      have hgrown := bogusSourceInfo_append hsi body.basicBlocks [reborrowDecl sourceInfo ty]
      rw [placesToStatements_cons hsi hty, ih hgrown]
      simp only [bind_assoc, Res.ok_bind, Res.pure_eq, List.zipWith_cons_cons]

/-- Declared places are reborrowed into the locals after those of the body, each
    declared with the type its place has in the body. -/
theorem placesToStatements_eq (tcx : TyCtxt) {body : Body} {sourceInfo : SourceInfo}
    (hsi : bogusSourceInfo body = .ok sourceInfo) {places : List Pcg.Place}
    (hplaces : ∀ place ∈ places, place.local < body.localDecls.length) :
    ∃ new, List.Forall₂ (fun place decl =>
        targetDecl tcx sourceInfo body.localDecls place = .ok decl) places new ∧
      placesToStatements tcx body places = .ok (⟨body.basicBlocks, body.localDecls ++ new⟩,
        List.zipWith (reborrow sourceInfo) (List.range' body.localDecls.length places.length)
          places) := by
  obtain ⟨new, hnew⟩ := Res.mapM_isOk fun place hplace =>
    targetDecl_of_lt tcx sourceInfo (hplaces place hplace)
  refine ⟨new, Res.forall₂_of_mapM hnew, ?_⟩
  rw [placesToStatements_eq_pushEach tcx hsi, IndexVec.pushEach_eq fun place hplace =>
    targetDecl_stable tcx sourceInfo (hplaces place hplace), hnew]
  rfl

/-- The body with the block of `curr` split before `index`: the head keeps its
    place, the tail and the block of `sequence` are appended. -/
def splitBlocks (blocks : List BasicBlockData) (b : BasicBlock) (bb : BasicBlockData)
    (index : Nat) (sequence : List Statement) (bogus : SourceInfo) : List BasicBlockData :=
  blocks.set b
      { bb with
        statements := bb.statements.take index
        terminator := some ⟨bogus, .falseEdge blocks.length (blocks.length + 1)⟩ } ++
    [{ statements := bb.statements.drop index, terminator := bb.terminator, isCleanup := false },
     { statements := sequence, terminator := some ⟨bogus, .unreachable⟩, isCleanup := false }]

section SplitBlocks

variable (blocks : List BasicBlockData) (b : BasicBlock) (bb : BasicBlockData) (index : Nat)
  (sequence : List Statement) (bogus : SourceInfo)

theorem getElem?_splitBlocks_tail :
    (splitBlocks blocks b bb index sequence bogus)[blocks.length]? =
      some ⟨bb.statements.drop index, bb.terminator, false⟩ := by
  rw [splitBlocks, List.getElem?_append_right (Nat.le_of_eq List.length_set), List.length_set,
    Nat.sub_self]
  rfl

theorem getElem?_splitBlocks_sequence :
    (splitBlocks blocks b bb index sequence bogus)[blocks.length + 1]? =
      some ⟨sequence, some ⟨bogus, .unreachable⟩, false⟩ := by
  have hle : (blocks.set b { bb with
      statements := bb.statements.take index
      terminator := some ⟨bogus, .falseEdge blocks.length (blocks.length + 1)⟩ }).length ≤
      blocks.length + 1 := Nat.le_succ_of_le (Nat.le_of_eq List.length_set)
  rw [splitBlocks, List.getElem?_append_right hle, List.length_set, Nat.add_sub_cancel_left]
  rfl

end SplitBlocks

/-- `mutant` is `body` with its block split between `curr` and `next` and a
    never-taken branch that uses `place` and then `blockingPlace`. -/
structure Split (ctx : CompilerCtxt) (body : Body) (curr next : Location)
    (place blockingPlace : Pcg.Place) (mutant : Mutant) : Prop where
  exists_block : ∃ bb sourceInfo ty blockingTy,
    body.basicBlocks[curr.block]? = some bb ∧
    next.statementIndex ≤ bb.statements.length ∧
    place.toPlace.ty ctx.tcx body.localDecls = .ok ty ∧
    blockingPlace.toPlace.ty ctx.tcx
      (body.localDecls ++ [reborrowDecl sourceInfo ty]) = .ok blockingTy ∧
    mutant.body.localDecls =
      body.localDecls ++ [reborrowDecl sourceInfo ty, reborrowDecl sourceInfo blockingTy] ∧
    mutant.body.basicBlocks = splitBlocks body.basicBlocks curr.block bb next.statementIndex
      [reborrow sourceInfo body.localDecls.length place,
       reborrow sourceInfo (body.localDecls.length + 1) blockingPlace] sourceInfo
  range_eq : mutant.range =
    ⟨⟨body.basicBlocks.length + 1, 0⟩, ⟨body.basicBlocks.length + 1, curr.statementIndex⟩⟩

/-- Overwriting one of the two blocks appended last. -/
theorem set_append_length {α : Type} (xs ys : List α) (x y : α) :
    (xs ++ x :: ys).set xs.length y = xs ++ y :: ys := by
  rw [List.set_append_right _ _ (Nat.le_refl _), Nat.sub_self]
  rfl

theorem set_append_length_succ {α : Type} (xs ys : List α) (x y z : α) :
    (xs ++ x :: y :: ys).set (xs.length + 1) z = xs ++ x :: z :: ys := by
  rw [List.set_append_right _ _ (Nat.le_add_right _ 1), Nat.add_sub_cancel_left]
  rfl

theorem getElem?_append_length_succ {α : Type} (xs ys : List α) (x y : α) :
    (xs ++ x :: y :: ys)[xs.length + 1]? = some y := by
  rw [List.getElem?_append_right (Nat.le_add_right _ 1), Nat.add_sub_cancel_left]
  rfl

/-- With the sequence built and the block found, the attempt goes through and
    the blocks of its mutant are `splitBlocks`. -/
theorem ExpiryOrder.attempt_eq {ctx : CompilerCtxt} {body grown : Body} {curr next : Location}
    {place blockingPlace : Pcg.Place} {sequence : List Statement} {sourceInfo : SourceInfo}
    {bb : BasicBlockData}
    (hseq : placesToStatements ctx.tcx body [place, blockingPlace] = .ok (grown, sequence))
    (hbogus : ∀ blocks, bogusSourceInfo ⟨blocks, grown.localDecls⟩ = .ok sourceInfo)
    (hbb : grown.basicBlocks[curr.block]? = some bb)
    (hle : next.statementIndex ≤ bb.statements.length) :
    ExpiryOrder.attempt ctx body curr next (place, blockingPlace) = .ok (some
      { body := ⟨splitBlocks grown.basicBlocks curr.block bb next.statementIndex sequence
          sourceInfo, grown.localDecls⟩
        range := ⟨⟨grown.basicBlocks.length + 1, 0⟩,
          ⟨grown.basicBlocks.length + 1, curr.statementIndex⟩⟩
        info := "created mutant expiry sequence " ++ ctx.tcx.debugStatements sequence }) := by
  obtain ⟨blocks, decls⟩ := grown
  have hlt : curr.block < blocks.length := (List.getElem?_eq_some_iff.mp hbb).1
  simp only at hbb hbogus
  unfold attempt
  simp only [hseq, Res.ok_bind, hbb, unwrap_some, Vec.drainFrom_of_le hle, freshBasicBlock,
    Body.setBlock, List.length_set, Res.pure_eq, hbogus]
  -- The head, before it gets its terminator, is as long as the original.
  obtain ⟨head, hhead⟩ : ∃ head, head = blocks.set curr.block
    { statements := bb.statements.take next.statementIndex, terminator := none,
      isCleanup := bb.isCleanup } := ⟨_, rfl⟩
  have hlen : head.length = blocks.length := by rw [hhead, List.length_set]
  have hget : head[curr.block]? = some
      { statements := bb.statements.take next.statementIndex, terminator := none,
        isCleanup := bb.isCleanup } := by
    rw [hhead, List.getElem?_set_self hlt]
  rw [← hhead, ← hlen]
  have hlt' : curr.block < head.length := hlen ▸ hlt
  have happ : ∀ rest, (head ++ rest)[curr.block]? = head[curr.block]? :=
    fun rest => List.getElem?_append_left hlt'
  simp only [List.getElem?_concat_length, unwrap_some, Res.ok_bind, set_append_length,
    BasicBlockData.new, List.nil_append, List.append_assoc, List.cons_append, List.length_append,
    List.length_singleton, getElem?_append_length_succ, set_append_length_succ, happ, hget,
    List.set_append_left _ _ hlt']
  rw [splitBlocks, hlen, hhead, List.set_set]

/-- What `placesToStatements` makes of a pair of places. -/
theorem placesToStatements_pair_inv {tcx : TyCtxt} {body grown : Body}
    {place blockingPlace : Pcg.Place} {sequence : List Statement}
    (h : placesToStatements tcx body [place, blockingPlace] = .ok (grown, sequence)) :
    ∃ ty blockingTy sourceInfo, place.toPlace.ty tcx body.localDecls = .ok ty ∧
      blockingPlace.toPlace.ty tcx (body.localDecls ++ [reborrowDecl sourceInfo ty]) =
        .ok blockingTy ∧
      bogusSourceInfo body = .ok sourceInfo ∧
      grown = ⟨body.basicBlocks,
        body.localDecls ++ [reborrowDecl sourceInfo ty, reborrowDecl sourceInfo blockingTy]⟩ ∧
      sequence = [reborrow sourceInfo body.localDecls.length place,
        reborrow sourceInfo (body.localDecls.length + 1) blockingPlace] := by
  obtain ⟨ty, sourceInfo, rest, hty, hsi, hrest, rfl⟩ := placesToStatements_cons_inv h
  obtain ⟨blockingTy, sourceInfo', rest', hbty, hsi', hnil, rfl⟩ :=
    placesToStatements_cons_inv hrest
  have hsame := bogusSourceInfo_append hsi body.basicBlocks [reborrowDecl sourceInfo ty]
  cases hsi'.symm.trans hsame
  cases hnil
  exact ⟨ty, blockingTy, sourceInfo, hty, hbty, hsi, by simp, by simp⟩

/-- A mutant has the blocks of the split and the locals of the sequence. -/
theorem ExpiryOrder.attempt_built {ctx : CompilerCtxt} {body : Body} {curr next : Location}
    {place blockingPlace : Pcg.Place} {mutant : Mutant}
    (h : ExpiryOrder.attempt ctx body curr next (place, blockingPlace) = .ok (some mutant)) :
    ∃ grown sequence sourceInfo bb,
      placesToStatements ctx.tcx body [place, blockingPlace] = .ok (grown, sequence) ∧
      bogusSourceInfo body = .ok sourceInfo ∧
      body.basicBlocks[curr.block]? = some bb ∧
      next.statementIndex ≤ bb.statements.length ∧
      mutant.body = ⟨splitBlocks body.basicBlocks curr.block bb next.statementIndex sequence
        sourceInfo, grown.localDecls⟩ ∧
      mutant.range =
        ⟨⟨body.basicBlocks.length + 1, 0⟩, ⟨body.basicBlocks.length + 1, curr.statementIndex⟩⟩ := by
  obtain ⟨⟨grown, sequence⟩, hseq, -⟩ := Res.bind_inv h
  obtain ⟨ty, blockingTy, sourceInfo, hty, hbty, hsi, rfl, rfl⟩ :=
    placesToStatements_pair_inv hseq
  cases hbb : body.basicBlocks[curr.block]? with
  | none =>
    unfold attempt at h
    simp [hseq, hbb, unwrap] at h
  | some bb =>
    by_cases hle : next.statementIndex ≤ bb.statements.length
    · rw [attempt_eq hseq (fun blocks => bogusSourceInfo_append hsi blocks _) hbb hle] at h
      cases h
      exact ⟨_, _, sourceInfo, bb, hseq, hsi, rfl, hle, rfl, rfl⟩
    · unfold attempt at h
      simp [hseq, hbb, Vec.drainFrom, if_neg hle] at h

/-- All that an attempt of an expiry mutation can return. -/
theorem ExpiryOrder.attempt_inv {ctx : CompilerCtxt} {body : Body} {curr next : Location}
    {place blockingPlace : Pcg.Place} {mutant : Mutant}
    (h : ExpiryOrder.attempt ctx body curr next (place, blockingPlace) = .ok (some mutant)) :
    Split ctx body curr next place blockingPlace mutant := by
  obtain ⟨grown, sequence, sourceInfo, bb, hseq, hsi, hbb, hle, hbody, hrange⟩ := attempt_built h
  obtain ⟨ty, blockingTy, sourceInfo', hty, hbty, hsi', rfl, rfl⟩ :=
    placesToStatements_pair_inv hseq
  cases hsi.symm.trans hsi'
  exact ⟨⟨bb, sourceInfo, ty, blockingTy, hbb, hle, hty, hbty, by rw [hbody], by rw [hbody]⟩,
    hrange⟩

/-- At consecutive locations of the body, declared places are never dropped. -/
theorem ExpiryOrder.attempt_isSome {ctx : CompilerCtxt} {body : Body} {curr next : Location}
    {place blockingPlace : Pcg.Place} (hplace : place.local < body.localDecls.length)
    (hblocking : blockingPlace.local < body.localDecls.length) {bb : BasicBlockData}
    (hbb : body.basicBlocks[curr.block]? = some bb)
    (hle : next.statementIndex ≤ bb.statements.length) :
    ∃ mutant, ExpiryOrder.attempt ctx body curr next (place, blockingPlace) =
      .ok (some mutant) := by
  obtain ⟨sourceInfo, hsi⟩ := bogusSourceInfo_of_lt hplace
  have hplaces : ∀ p ∈ [place, blockingPlace], p.local < body.localDecls.length :=
    List.forall_mem_cons.mpr ⟨hplace, List.forall_mem_singleton.mpr hblocking⟩
  obtain ⟨new, -, hseq⟩ := placesToStatements_eq ctx.tcx hsi hplaces
  exact ⟨_, attempt_eq hseq (fun blocks => bogusSourceInfo_append hsi blocks new) hbb hle⟩

end MutationTesting.Mutator
