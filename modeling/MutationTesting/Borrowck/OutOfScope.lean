/-
  MutationTesting.Borrowck.OutOfScope

  Where borrows go out of scope (`borrowck/src/dataflow.rs`): a search of the blocks from
  the borrow on, which stops at the first point of each block that the region of the borrow
  does not contain.  The loans of Polonius are searched for in the same way, unless the
  region graph leads from the issuing region to one that holds them for ever.
-/
import MutationTesting.Borrowck.BorrowSet
import MutationTesting.Borrowck.RegionPropagate
import MutationTesting.Graph.Blocks

namespace MutationTesting.Borrowck

open MutationTesting.Rust MutationTesting.Mir MutationTesting.Graph Relation

/-- `BasicBlockData::terminator`. -/
def expectTerminator (data : BasicBlockData) : Res Terminator :=
  match data.terminator with
  | some terminator => .ok terminator
  | none => .error (.message "invalid terminator state")

/-- `OutOfScopePrecomputer`, and `PoloniusOutOfScopePrecomputer`, but for what they borrow. -/
structure OutOfScopePrecomputer where
  frontier : Frontier BasicBlock
  outOfScopeAtLocation : IndexMap Location (List BorrowIndex)

namespace OutOfScopePrecomputer

/-- `OutOfScopePrecomputer::new`. -/
def new : OutOfScopePrecomputer := ⟨.empty, .empty⟩

/-! ## The search -/

section Search

variable (body : Body) (killLocation : BasicBlock → Nat → Nat → Res (Option Location))
  (borrowIndex : BorrowIndex)

/-- One round of the loop: the borrow is killed in the block, or its successors are
    pushed. -/
def visitBlock (block : BasicBlock) (outOfScope : IndexMap Location (List BorrowIndex)) :
    Res (List BasicBlock × IndexMap Location (List BorrowIndex)) := do
  let data ← index body.basicBlocks block
  match ← killLocation block 0 data.statements.length with
  | some kill => return ([], outOfScope.entryPush kill borrowIndex)
  | none =>
    let terminator ← expectTerminator data
    return (terminator.kind.successors, outOfScope)

/-- What both precomputers do from the location of a borrow on, where `killLocation`
    finds the first kill in a range of statements of a block. -/
def precompute (self : OutOfScopePrecomputer) (firstLocation : Location) :
    Res OutOfScopePrecomputer := do
  let firstData ← index body.basicBlocks firstLocation.block
  match ← killLocation firstLocation.block firstLocation.statementIndex
      firstData.statements.length with
  | some kill =>
    return { self with
      outOfScopeAtLocation := self.outOfScopeAtLocation.entryPush kill borrowIndex }
  | none =>
    let terminator ← expectTerminator firstData
    let (_, outOfScopeAtLocation) ← searchWith (visitBlock body killLocation borrowIndex)
      body.basicBlocks.length (self.frontier.pushAll terminator.kind.successors)
      self.outOfScopeAtLocation
    return { frontier := .empty, outOfScopeAtLocation }

end Search

end OutOfScopePrecomputer

/-- `first_non_contained_inclusive` of a region. -/
def RegionInferenceContext.firstNonContainedInclusive (self : RegionInferenceContext)
    (r : RegionVid) (block : BasicBlock) (start stop : Nat) : Option Nat :=
  self.sccValues.firstNonContainedInclusive (self.constraintSccs.scc r) block start stop

/-- `precompute_borrows_out_of_scope`. -/
def OutOfScopePrecomputer.precomputeBorrowsOutOfScope (self : OutOfScopePrecomputer)
    (body : Body) (regioncx : RegionInferenceContext) (borrowIndex : BorrowIndex)
    (borrowRegion : RegionVid) (firstLocation : Location) : Res OutOfScopePrecomputer :=
  let killLocation (block : BasicBlock) (lo hi : Nat) : Res (Option Location) :=
    .ok ((regioncx.firstNonContainedInclusive borrowRegion block lo hi).map (Location.mk block))
  self.precompute body killLocation borrowIndex firstLocation

/-- `calculate_borrows_out_of_scope_at_location`. -/
def calculateBorrowsOutOfScopeAtLocation (body : Body) (regioncx : RegionInferenceContext)
    (borrowSet : BorrowSet) : Res (IndexMap Location (List BorrowIndex)) := do
  let prec ← borrowSet.iterEnumerated.foldlM
    (fun (prec : OutOfScopePrecomputer) borrow =>
      prec.precomputeBorrowsOutOfScope body regioncx borrow.1 borrow.2.region
        borrow.2.reserveLocation) .new
  return prec.outOfScopeAtLocation

/-! ## Loans of Polonius -/

namespace RegionInferenceContext

/-- `applied_member_constraints`, a search in what propagation has sorted. -/
def appliedMemberConstraints (self : RegionInferenceContext) (scc : ConstraintSccIndex) :
    List AppliedMemberConstraint :=
  self.memberConstraintsApplied.filter fun applied => applied.memberRegionScc = scc

/-- `is_region_live_at_all_points`. -/
def isRegionLiveAtAllPoints (self : RegionInferenceContext) (region : RegionVid) : Res Bool := do
  let definition ← index self.definitions region
  match definition.origin with
  | .placeholder _ | .freeRegion => return true
  | .existential _ => return false

/-- `is_loan_live_at`. -/
def isLoanLiveAt (self : RegionInferenceContext) (loanIdx : BorrowIndex) (location : Location) :
    Res Bool :=
  self.livenessConstraints.isLoanLiveAt loanIdx
    (self.livenessConstraints.elements.pointFromLocation location)

/-- The body of the first loop of `precompute_loans_out_of_scope`: whether it returns. -/
def escapesInto (self : RegionInferenceContext) (successor : RegionVid) : Res Bool :=
  if (self.appliedMemberConstraints (self.constraintSccs.scc successor)).any fun constraint =>
    self.universalRegions.isUniversalRegion constraint.minChoice then .ok true
  else self.isRegionLiveAtAllPoints successor

/-- The first loop of `precompute_loans_out_of_scope`, over the regions that the issuing
    one leads to. -/
def loanEscapes (self : RegionInferenceContext) (issuingRegion : RegionVid) : Res Bool :=
  searchUntil
    (fun r => self.constraintGraph.outgoingRegions r self.constraints
      self.universalRegions.frStatic)
    self.escapesInto self.definitions.length (Frontier.empty.pushAll [issuingRegion])

/-- `loan_kill_location`, over the statements of the range that are left. -/
def loanKillLocation (self : RegionInferenceContext) (loanIdx : BorrowIndex)
    (loanIssuedAt : Location) (block : BasicBlock) : List Nat → Res (Option Location)
  | [] => .ok none
  | statementIndex :: rest => do
    let location : Location := ⟨block, statementIndex⟩
    if location = loanIssuedAt then self.loanKillLocation loanIdx loanIssuedAt block rest
    else if ← self.isLoanLiveAt loanIdx location then
      self.loanKillLocation loanIdx loanIssuedAt block rest
    else return some location

end RegionInferenceContext

/-- `precompute_loans_out_of_scope`. -/
def OutOfScopePrecomputer.precomputeLoansOutOfScope (self : OutOfScopePrecomputer) (body : Body)
    (regioncx : RegionInferenceContext) (loanIdx : BorrowIndex) (issuingRegion : RegionVid)
    (loanIssuedAt : Location) : Res OutOfScopePrecomputer := do
  if ← regioncx.loanEscapes issuingRegion then return self
  else
    let killLocation (block : BasicBlock) (lo hi : Nat) : Res (Option Location) :=
      regioncx.loanKillLocation loanIdx loanIssuedAt block (List.range' lo (hi + 1 - lo))
    self.precompute body killLocation loanIdx loanIssuedAt

/-- The loans of Polonius out of scope, as `Borrows::new` computes them. -/
def calculateLoansOutOfScopeAtLocation (body : Body) (regioncx : RegionInferenceContext)
    (borrowSet : BorrowSet) : Res (IndexMap Location (List BorrowIndex)) := do
  let prec ← borrowSet.iterEnumerated.foldlM
    (fun (prec : OutOfScopePrecomputer) loan =>
      prec.precomputeLoansOutOfScope body regioncx loan.1 loan.2.region loan.2.reserveLocation)
    .new
  return prec.outOfScopeAtLocation

/-! ## Points of a body -/

/-- The points of a body: the statements of each block, and its terminator. -/
def pointsOf (body : Body) : Blocks BasicBlock where
  last bb := ((body.basicBlocks[bb]?).map fun data => data.statements.length).getD 0
  successors bb := ((body.basicBlocks[bb]?).map BasicBlockData.successors).getD []

/-- The point of a location. -/
def pointOf (location : Location) : BasicBlock × Nat := (location.block, location.statementIndex)

/-- The blocks of the body have terminators, and their targets exist. -/
structure Complete (body : Body) : Prop where
  terminated : ∀ data ∈ body.basicBlocks, data.terminator.isSome
  targets : TargetsExist body

/-- The location is one of the body. -/
def InBody (body : Body) (location : Location) : Prop :=
  location.block < body.basicBlocks.length ∧
    location.statementIndex ≤ (pointsOf body).last location.block

/-- `killLocation` finds the first point of a range that is out of the set. -/
def FindsFirst (killLocation : BasicBlock → Nat → Nat → Res (Option Location))
    (stays : BasicBlock × Nat → Prop) : Prop :=
  ∀ block lo hi, ∃ found : Option Nat,
    killLocation block lo hi = .ok (found.map (Location.mk block)) ∧
    (found = none ↔ ∀ j, lo ≤ j → j ≤ hi → stays (block, j)) ∧
    ∀ i, found = some i ↔
      lo ≤ i ∧ i ≤ hi ∧ ¬ stays (block, i) ∧ ∀ j, lo ≤ j → j < i → stays (block, j)

/-- A block of a complete body, its terminator and its points. -/
theorem Complete.block {body : Body} (hbody : Complete body) {bb : BasicBlock}
    (hbb : bb < body.basicBlocks.length) :
    ∃ data terminator, body.basicBlocks[bb]? = some data ∧
      expectTerminator data = .ok terminator ∧
      terminator.kind.successors = (pointsOf body).successors bb ∧
      data.statements.length = (pointsOf body).last bb ∧
      ∀ target ∈ (pointsOf body).successors bb, target < body.basicBlocks.length := by
  have hdata := List.getElem?_eq_getElem hbb
  have hmem : body.basicBlocks[bb] ∈ body.basicBlocks := List.getElem_mem hbb
  obtain ⟨terminator, hterminator⟩ := Option.isSome_iff_exists.mp (hbody.terminated _ hmem)
  have hsuccessors : (pointsOf body).successors bb = body.basicBlocks[bb].successors := by
    simp only [pointsOf, hdata, Option.map_some, Option.getD_some]
  refine ⟨_, terminator, hdata, ?_, ?_, ?_, fun target htarget => ?_⟩
  · rw [expectTerminator, hterminator]
  · rw [hsuccessors, BasicBlockData.successors, hterminator]
  · simp only [pointsOf, hdata, Option.map_some, Option.getD_some]
  · exact hbody.targets _ hmem target (hsuccessors ▸ htarget)

namespace OutOfScopePrecomputer

variable {body : Body} {killLocation : BasicBlock → Nat → Nat → Res (Option Location)}

/-- One round, where the first kill of each block is known. -/
theorem visitBlock_eq (hbody : Complete body) {found : BasicBlock → Option Nat}
    (hfound : ∀ block, killLocation block 0 ((pointsOf body).last block) =
      .ok ((found block).map (Location.mk block)))
    (borrowIndex : BorrowIndex) (block : BasicBlock) (hblock : block < body.basicBlocks.length)
    (outOfScope : IndexMap Location (List BorrowIndex)) :
    visitBlock body killLocation borrowIndex block outOfScope =
      .ok (if found block = none then (pointsOf body).successors block else [],
        match (found block).map (Location.mk block) with
        | some kill => outOfScope.entryPush kill borrowIndex
        | none => outOfScope) := by
  obtain ⟨data, terminator, hdata, hterminator, hsuccessors, hlength, -⟩ := hbody.block hblock
  unfold visitBlock
  simp only [index_eq_ok.mpr hdata, hlength, hfound, Res.ok_bind]
  cases hkill : found block with
  | some i => rfl
  | none =>
    simp only [Option.map_none, hterminator, Res.ok_bind, hsuccessors]
    rfl

/-- The loop from some blocks: it kills the borrow once in each block that they lead to
    through blocks without a kill, if there is a kill in that block. -/
theorem searchWith_visitBlock (hbody : Complete body) {found : BasicBlock → Option Nat}
    (hfound : ∀ block, killLocation block 0 ((pointsOf body).last block) =
      .ok ((found block).map (Location.mk block)))
    (borrowIndex : BorrowIndex) {roots : List BasicBlock}
    (hroots : ∀ block ∈ roots, block < body.basicBlocks.length)
    (outOfScope : IndexMap Location (List BorrowIndex)) :
    ∃ popped : List BasicBlock, popped.Nodup ∧
      (∀ block, block ∈ popped ↔ ∃ root ∈ roots, ReflTransGen (fun b c =>
        found b = none ∧ c ∈ (pointsOf body).successors b) root block) ∧
      searchWith (visitBlock body killLocation borrowIndex) body.basicBlocks.length
          (Frontier.empty.pushAll roots) outOfScope =
        .ok (popped.toFinset,
          (popped.filterMap fun block => (found block).map (Location.mk block)).foldl
            (fun map kill => map.entryPush kill borrowIndex) outOfScope) := by
  have hrange : ∀ {block}, block ∈ Finset.range body.basicBlocks.length ↔
      block < body.basicBlocks.length := Finset.mem_range
  have hsucc : ∀ v ∈ Finset.range body.basicBlocks.length,
      ∀ u ∈ (if found v = none then (pointsOf body).successors v else []),
        u ∈ Finset.range body.basicBlocks.length := by
    intro v hv u hu
    obtain ⟨-, -, -, -, -, -, htargets⟩ := hbody.block (hrange.mp hv)
    by_cases hkill : found v = none
    · rw [if_pos hkill] at hu
      exact hrange.mpr (htargets u hu)
    · rw [if_neg hkill] at hu
      exact absurd hu List.not_mem_nil
  obtain ⟨popped, hnodup, hpopped, hsearch⟩ := searchWith_roots
    (fun v hv => visitBlock_eq hbody hfound borrowIndex v (hrange.mp hv)) hsucc
    (fun v hv => hrange.mpr (hroots v hv)) (Finset.card_range _).le outOfScope
  refine ⟨popped, hnodup, fun block => ?_, ?_⟩
  · -- the search goes on where there is no kill
    have hstep : Step (fun v => if found v = none then (pointsOf body).successors v else []) =
        fun b c => found b = none ∧ c ∈ (pointsOf body).successors b := by
      funext b c
      by_cases hkill : found b = none
      · simp [Step, hkill]
      · simp [Step, hkill]
    rw [hpopped, hstep]
  · rw [hsearch, List.foldl_filterMap]
    refine congrArg (fun f => Except.ok (popped.toFinset, popped.foldl f outOfScope)) ?_
    funext map block
    cases found block with
    | none => rfl
    | some i => rfl

/-- The kills of a borrow: where the walks from its location leave the set, each once. -/
theorem precompute_spec (hbody : Complete body) {stays : BasicBlock × Nat → Prop}
    (hfinds : FindsFirst killLocation stays) {firstLocation : Location}
    (hfirst : InBody body firstLocation) (borrowIndex : BorrowIndex)
    (outOfScope : IndexMap Location (List BorrowIndex)) :
    ∃ kills : List Location,
      (⟨.empty, outOfScope⟩ : OutOfScopePrecomputer).precompute body killLocation borrowIndex
          firstLocation =
        .ok ⟨.empty, kills.foldl (fun map kill => map.entryPush kill borrowIndex) outOfScope⟩ ∧
      kills.Nodup ∧
      ∀ kill, kill ∈ kills ↔
        (pointsOf body).Leaves stays (pointOf firstLocation) (pointOf kill) := by
  choose found hfound hnone hsome using hfinds
  obtain ⟨firstBlock, lo⟩ := firstLocation
  obtain ⟨hblock, hlo⟩ := hfirst
  dsimp only at hblock hlo
  obtain ⟨data, terminator, hdata, hterminator, hsuccessors, hlength, htargets⟩ :=
    hbody.block hblock
  unfold precompute
  simp only [index_eq_ok.mpr hdata, hlength, hfound, Res.ok_bind, pointOf]
  cases hkill : found firstBlock lo ((pointsOf body).last firstBlock) with
  | some i =>
    obtain ⟨hle, hlast, hout, hbefore⟩ := (hsome _ _ _ i).mp hkill
    refine ⟨[⟨firstBlock, i⟩], rfl, List.nodup_singleton _, fun kill => ?_⟩
    rw [Blocks.leaves_of_within ⟨hle, hlast, hbefore⟩ hout, List.mem_singleton]
    obtain ⟨block, j⟩ := kill
    simp only [Location.mk.injEq]
  | none =>
    have hcrossed : (pointsOf body).Crossed stays firstBlock lo := (hnone _ _ _).mp hkill
    obtain ⟨popped, hnodup, hpopped, hsearch⟩ := searchWith_visitBlock hbody
      (fun block => hfound block 0 _) borrowIndex htargets outOfScope
    -- blocks without a kill are those that are crossed
    have hcross : (fun b c => found b 0 ((pointsOf body).last b) = none ∧
        c ∈ (pointsOf body).successors b) = (pointsOf body).CrossStep stays := by
      funext b c
      exact propext (and_congr_left fun _ => hnone b 0 _)
    rw [hcross] at hpopped
    refine ⟨popped.filterMap fun block =>
      (found block 0 ((pointsOf body).last block)).map (Location.mk block), ?_, ?_, fun kill => ?_⟩
    · simp only [Option.map_none, hterminator, Res.ok_bind, hsuccessors, hsearch]
      rfl
    · refine hnodup.filterMap fun b c kill hb hc => ?_
      obtain ⟨i, -, rfl⟩ := Option.map_eq_some_iff.mp hb
      obtain ⟨j, -, heq⟩ := Option.map_eq_some_iff.mp hc
      exact (Location.mk.inj heq).1.symm
    · obtain ⟨block, j⟩ := kill
      rw [Blocks.leaves_of_crossed hlo hcrossed, ← hpopped, List.mem_filterMap]
      have hkilled : found block 0 ((pointsOf body).last block) = some j ↔
          (pointsOf body).WithinBlock stays block 0 j ∧ ¬ stays (block, j) := by
        rw [hsome, Blocks.WithinBlock]
        tauto
      rw [← hkilled]
      constructor
      · rintro ⟨bb, hbb, hmap⟩
        obtain ⟨i, hi, heq⟩ := Option.map_eq_some_iff.mp hmap
        cases heq
        exact ⟨hbb, hi⟩
      · rintro ⟨hblock, hi⟩
        exact ⟨block, hblock, by rw [hi, Option.map_some]⟩

end OutOfScopePrecomputer

/-! ## All borrows -/

/-- The map has, for each location, the borrows that are killed there, in their order. -/
structure ListsKills (map : IndexMap Location (List BorrowIndex))
    (killed : BorrowIndex → Location → Prop) : Prop where
  keys : map.keys.Nodup
  nonempty : ∀ location, map.get location ≠ some []
  sorted : ∀ location, ((map.get location).getD []).Pairwise (· < ·)
  mem : ∀ location i, i ∈ (map.get location).getD [] ↔ killed i location

theorem ListsKills.empty : ListsKills .empty fun _ _ => False where
  keys := List.nodup_nil
  nonempty _ h := by cases h
  sorted _ := List.Pairwise.nil
  mem _ _ := by simp

/-- A later borrow is killed at one more location. -/
theorem ListsKills.push {map : IndexMap Location (List BorrowIndex)}
    {killed : BorrowIndex → Location → Prop} (h : ListsKills map killed) {kill : Location}
    {borrowIndex : BorrowIndex} (hlast : ∀ i, killed i kill → i < borrowIndex) :
    ListsKills (map.entryPush kill borrowIndex) fun i location =>
      killed i location ∨ i = borrowIndex ∧ location = kill := by
  refine ⟨IndexMap.nodup_keys_insert h.keys _ _, fun location => ?_, fun location => ?_,
    fun location i => ?_⟩
  · rw [IndexMap.entryPush, IndexMap.get_insert]
    by_cases hloc : location = kill
    · rw [if_pos hloc]
      simp
    · rw [if_neg hloc]
      exact h.nonempty location
  · rw [IndexMap.get_entryPush]
    by_cases hloc : location = kill
    · rw [if_pos hloc]
      refine List.pairwise_append.mpr ⟨h.sorted kill, List.pairwise_singleton _ _, ?_⟩
      intro i hi j hj
      rw [List.mem_singleton.mp hj]
      exact hlast i ((h.mem kill i).mp hi)
    · rw [if_neg hloc]
      exact h.sorted location
  · rw [IndexMap.get_entryPush]
    by_cases hloc : location = kill
    · rw [if_pos hloc, List.mem_append, List.mem_singleton, h.mem, hloc]
      simp
    · rw [if_neg hloc, h.mem]
      simp [hloc]

/-- A later borrow is killed at each location of a list. -/
theorem ListsKills.pushAll {kills : List Location} {borrowIndex : BorrowIndex}
    {map : IndexMap Location (List BorrowIndex)} {killed : BorrowIndex → Location → Prop}
    (h : ListsKills map killed) (hkills : kills.Nodup)
    (hlast : ∀ kill ∈ kills, ∀ i, killed i kill → i < borrowIndex) :
    ListsKills (kills.foldl (fun map kill => map.entryPush kill borrowIndex) map)
      fun i location => killed i location ∨ i = borrowIndex ∧ location ∈ kills := by
  induction kills generalizing map killed with
  | nil =>
    simp only [List.foldl_nil, List.not_mem_nil, and_false, or_false]
    exact h
  | cons kill kills ih =>
    obtain ⟨hkill, hkills⟩ := List.nodup_cons.mp hkills
    have hrest := ih (h.push (hlast kill List.mem_cons_self)) hkills ?_
    · rw [List.foldl_cons]
      simp only [List.mem_cons, and_or_left, ← or_assoc]
      exact hrest
    · rintro kill' hkill' i (hi | ⟨-, rfl⟩)
      · exact hlast kill' (List.mem_cons_of_mem _ hkill') i hi
      · exact absurd hkill' hkill

/-- A loop over borrows in their order, each of which it kills where that is asked for. -/
theorem ListsKills.foldlM {kills : BorrowIndex × BorrowData → Location → Prop}
    {step : OutOfScopePrecomputer → BorrowIndex × BorrowData → Res OutOfScopePrecomputer}
    {borrows : List (BorrowIndex × BorrowData)}
    (hstep : ∀ borrow ∈ borrows, ∀ map, ∃ locations : List Location,
      step ⟨.empty, map⟩ borrow =
        .ok ⟨.empty, locations.foldl (fun map kill => map.entryPush kill borrow.1) map⟩ ∧
      locations.Nodup ∧ ∀ kill, kill ∈ locations ↔ kills borrow kill)
    (hsorted : borrows.Pairwise fun borrow later => borrow.1 < later.1)
    {map : IndexMap Location (List BorrowIndex)} {killed : BorrowIndex → Location → Prop}
    (h : ListsKills map killed)
    (hlast : ∀ i location, killed i location → ∀ borrow ∈ borrows, i < borrow.1) :
    ∃ map', borrows.foldlM step ⟨.empty, map⟩ = .ok ⟨.empty, map'⟩ ∧
      ListsKills map' fun i location => killed i location ∨
        ∃ borrow ∈ borrows, borrow.1 = i ∧ kills borrow location := by
  induction borrows generalizing map killed with
  | nil =>
    refine ⟨map, rfl, ?_⟩
    simp only [List.not_mem_nil, false_and, exists_false, or_false]
    exact h
  | cons borrow borrows ih =>
    obtain ⟨hfirst, hsorted⟩ := List.pairwise_cons.mp hsorted
    obtain ⟨locations, heq, hnodup, hmem⟩ := hstep borrow List.mem_cons_self map
    have hpushed := h.pushAll hnodup fun kill _ i hi => hlast i kill hi borrow List.mem_cons_self
    have hlater : ∀ i location, (killed i location ∨ i = borrow.1 ∧ location ∈ locations) →
        ∀ later ∈ borrows, i < later.1 := by
      rintro i location (hi | ⟨rfl, -⟩) later hlater
      · exact hlast i location hi later (List.mem_cons_of_mem _ hlater)
      · exact hfirst later hlater
    obtain ⟨map', hrest, hmap'⟩ := ih
      (fun later hmem => hstep later (List.mem_cons_of_mem _ hmem)) hsorted hpushed hlater
    refine ⟨map', ?_, ?_⟩
    · rw [List.foldlM_cons, heq]
      exact hrest
    · have hsame : (fun i location => killed i location ∨
          ∃ later ∈ borrow :: borrows, later.1 = i ∧ kills later location) =
          fun i location => (killed i location ∨ i = borrow.1 ∧ location ∈ locations) ∨
            ∃ later ∈ borrows, later.1 = i ∧ kills later location := by
        funext i location
        simp only [List.mem_cons, exists_eq_or_imp, hmem, or_assoc, @eq_comm _ i borrow.1]
      rw [hsame]
      exact hmap'

namespace BorrowSet

theorem mem_iterEnumerated {set : BorrowSet} {i : BorrowIndex} {data : BorrowData} :
    (i, data) ∈ set.iterEnumerated ↔ set.locationMap.getAt i = some data := by
  rw [iterEnumerated, IndexMap.getAt, ← List.getElem?_map, List.mem_iff_getElem?]
  simp only [List.getElem?_zip_eq_some, indices, len, IndexMap.len]
  constructor
  · rintro ⟨j, hj, hdata⟩
    obtain ⟨_, rfl⟩ := List.getElem?_eq_some_iff.mp hj
    rw [List.getElem_range]
    exact hdata
  · intro hdata
    refine ⟨i, ?_, hdata⟩
    obtain ⟨hlt, -⟩ := List.getElem?_eq_some_iff.mp hdata
    rw [List.length_map] at hlt
    rw [List.getElem?_range hlt]

theorem iterEnumerated_sorted (set : BorrowSet) :
    set.iterEnumerated.Pairwise fun borrow later => borrow.1 < later.1 := by
  have hfst : set.iterEnumerated.map Prod.fst = List.range set.len := by
    rw [iterEnumerated, List.map_fst_zip, indices]
    rw [indices, List.length_range, List.length_map]
    rfl
  rw [← List.pairwise_map, hfst]
  exact List.pairwise_lt_range

end BorrowSet

/-- The region contains the point, as far as the search for kills sees. -/
def RegionInferenceContext.InRegion (self : RegionInferenceContext) (r : RegionVid)
    (point : BasicBlock × Nat) : Prop :=
  self.sccValues.Survives (self.constraintSccs.scc r) ⟨point.1, point.2⟩

theorem findsFirst_inRegion (regioncx : RegionInferenceContext) (r : RegionVid) :
    FindsFirst (fun block lo hi =>
        .ok ((regioncx.firstNonContainedInclusive r block lo hi).map (Location.mk block)))
      (regioncx.InRegion r) := by
  intro block lo hi
  refine ⟨_, rfl, RegionValues.firstNonContainedInclusive_eq_none, fun i => ?_⟩
  exact RegionValues.firstNonContainedInclusive_eq_some

/-- The locations of the borrows are of the body. -/
def BorrowSet.Located (set : BorrowSet) (body : Body) : Prop :=
  ∀ i data, set.locationMap.getAt i = some data → InBody body data.reserveLocation

/-- A borrow goes out of scope where a walk from it leaves its region. -/
def BorrowSet.LeavesRegion (set : BorrowSet) (body : Body) (regioncx : RegionInferenceContext)
    (i : BorrowIndex) (location : Location) : Prop :=
  ∃ data, set.locationMap.getAt i = some data ∧
    (pointsOf body).Leaves (regioncx.InRegion data.region) (pointOf data.reserveLocation)
      (pointOf location)

/-- The computation ends, and each borrow is killed where it goes out of scope. -/
theorem calculateBorrowsOutOfScope_lists {body : Body} (hbody : Complete body)
    (regioncx : RegionInferenceContext) {set : BorrowSet} (hset : set.Located body) :
    ∃ map, calculateBorrowsOutOfScopeAtLocation body regioncx set = .ok map ∧
      ListsKills map (set.LeavesRegion body regioncx) := by
  let step (prec : OutOfScopePrecomputer) (borrow : BorrowIndex × BorrowData) :
      Res OutOfScopePrecomputer :=
    prec.precomputeBorrowsOutOfScope body regioncx borrow.1 borrow.2.region
      borrow.2.reserveLocation
  let kills (borrow : BorrowIndex × BorrowData) (location : Location) : Prop :=
    (pointsOf body).Leaves (regioncx.InRegion borrow.2.region) (pointOf borrow.2.reserveLocation)
      (pointOf location)
  have hstep : ∀ borrow ∈ set.iterEnumerated, ∀ map, ∃ locations : List Location,
      step ⟨.empty, map⟩ borrow =
        .ok ⟨.empty, locations.foldl (fun map kill => map.entryPush kill borrow.1) map⟩ ∧
      locations.Nodup ∧ ∀ kill, kill ∈ locations ↔ kills borrow kill := by
    intro borrow hborrow map
    exact OutOfScopePrecomputer.precompute_spec hbody
      (findsFirst_inRegion regioncx borrow.2.region)
      (hset borrow.1 borrow.2 (BorrowSet.mem_iterEnumerated.mp hborrow)) borrow.1 map
  obtain ⟨map, hmap, hlists⟩ := ListsKills.foldlM hstep set.iterEnumerated_sorted
    ListsKills.empty (fun _ _ h => h.elim)
  refine ⟨map, ?_, ?_⟩
  · have hloop : set.iterEnumerated.foldlM step .new = .ok ⟨.empty, map⟩ := hmap
    unfold calculateBorrowsOutOfScopeAtLocation
    rw [hloop]
    rfl
  · have hsame : set.LeavesRegion body regioncx = fun i location =>
        False ∨ ∃ borrow ∈ set.iterEnumerated, borrow.1 = i ∧ kills borrow location := by
      funext i location
      simp only [BorrowSet.LeavesRegion, false_or, Prod.exists, BorrowSet.mem_iterEnumerated]
      refine propext ⟨?_, ?_⟩
      · rintro ⟨data, hdata, hleaves⟩
        exact ⟨i, data, hdata, rfl, hleaves⟩
      · rintro ⟨i, data, hdata, rfl, hleaves⟩
        exact ⟨data, hdata, hleaves⟩
    rw [hsame]
    exact hlists

end MutationTesting.Borrowck
