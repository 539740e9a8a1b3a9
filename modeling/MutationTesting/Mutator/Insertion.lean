/-
  MutationTesting.Mutator.Insertion

  The four mutations that insert one statement between `curr` and `next`
  (`mutably_lend_shared.rs`, `read_from_write.rs`, `write_to_shared.rs`,
  `move_from_borrowed.rs`).

  Three of them declare a fresh local and insert a statement about it; their
  `maybe_next` is `insertWithFreshLocal` applied to the type of the local, the
  kind of the statement and a word of the description.  `WriteToShared` declares
  nothing and takes its source info elsewhere, so it has a body of its own.

  `Insertion` says all that an attempt of any of the four can have done.
-/
import MutationTesting.Mutator.Basic
import MutationTesting.Mir.Body

namespace MutationTesting.Mutator

open MutationTesting.Rust MutationTesting.Mir MutationTesting.Pcg

/-! ## The shared `maybe_next` -/

/-- The range holding the one statement inserted after `curr`. -/
def rangeAfter (curr : Location) : MutantRange :=
  let loc : MutantLocation := ⟨curr.block, curr.statementIndex + 1⟩
  ⟨loc, loc⟩

/-- Insert a statement about `place` and a fresh local of type `localTy ty`,
    with `ty` the type of `place`, between `curr` and `next`. -/
def insertWithFreshLocal (localTy : Ty → Ty) (kind : Local → Mir.Place → StatementKind)
    (was : String) (ctx : CompilerCtxt) (body : Body) (curr : Location) (place : Pcg.Place) :
    Attempt := do
  let mirPlace := place.toPlace
  let ty ← mirPlace.ty ctx.tcx body.localDecls
  let (mutantBody, fresh) ← freshLocal body (localTy ty)
  -- Both lookups are `?` in the source: a miss drops the candidate.
  let some bb := mutantBody.basicBlocks[curr.block]? | return none
  let some statement := bb.statements[curr.statementIndex]? | return none
  let new : Statement := { sourceInfo := statement.sourceInfo, kind := kind fresh mirPlace }
  let info := ctx.tcx.debugPlace mirPlace ++ " was " ++ was ++ ", so inserted " ++
    ctx.tcx.debugStatement new
  let statements ← Vec.insert bb.statements (curr.statementIndex + 1) new
  return some
    { body := mutantBody.setBlock curr.block { bb with statements }
      range := rangeAfter curr
      info }

/-! ## Mutably lend shared -/

/-- `MutablyLendShared` creates mutants which mutably borrow a place behind a
    shared borrow. -/
def MutablyLendShared.candidates (body : Body) (curr next : PcgLocation) :
    List (Pcg.Place × Region) :=
  let immutablyLentInCurr := borrowedPlaces (curr.states .postMain).borrowPcg isShared
  let immutablyLentInNext := HashSet.collect
    ((borrowedPlaces (next.states .postOperands).borrowPcg isShared).map Prod.fst)
  (immutablyLentInCurr.filter fun (place, _) => decide (place ∈ immutablyLentInNext)).filter
    fun (place, _) => hasNamedLocal place body

def MutablyLendShared.attempt (ctx : CompilerCtxt) (body : Body) (curr : Location)
    (candidate : Pcg.Place × Region) : Attempt :=
  insertWithFreshLocal (Ty.newMutRef candidate.2)
    (fun fresh lentPlace =>
      .assign (Place.from fresh) (.ref candidate.2 (.mut .default) lentPlace))
    "shared" ctx body curr candidate.1

/-! ## Read from write-only -/

/-- The places of a state with W capability. -/
def writeOnly (state : PcgState) : List Pcg.Place :=
  state.capabilities.filterMap fun (place, ck) =>
    match ck with
    | .write => some place
    | _ => none

/-- `ReadFromWriteOnly` creates mutants which read from places with W
    capability.  Only places that are W at the `PostMain` of `curr` and the
    `PostOperands` of `next` are considered, because a borrow could expire which
    restores E capability at the `PostOperands` phase. -/
def ReadFromWriteOnly.candidates (body : Body) (curr next : PcgLocation) : List Pcg.Place :=
  let writeOnlyInCurr := writeOnly (curr.states .postMain)
  let writeOnlyInNext := writeOnly (next.states .postOperands)
  (writeOnlyInCurr.filter fun place => decide (place ∈ writeOnlyInNext)).filter
    fun place => hasNamedLocal place body

def ReadFromWriteOnly.attempt (ctx : CompilerCtxt) (body : Body) (curr : Location)
    (candidate : Pcg.Place) : Attempt :=
  insertWithFreshLocal (Ty.newMutRef .reErased)
    (fun fresh _ => .fakeRead (.forLet none) (Place.from fresh))
    "write-only" ctx body curr candidate

/-! ## Move from borrowed -/

/-- `MoveFromBorrowed` creates mutants which move out of a place behind a
    mutable borrow. -/
def MoveFromBorrowed.candidates (order : HashOrder Pcg.Place) (body : Body)
    (curr next : PcgLocation) : List Pcg.Place :=
  let lentInCurr := HashSet.collect
    ((borrowedPlaces (curr.states .postMain).borrowPcg isMut).map Prod.fst)
  let lentInNext := HashSet.collect
    ((borrowedPlaces (next.states .postOperands).borrowPcg isMut).map Prod.fst)
  ((lentInCurr.iter order).filter fun place => decide (place ∈ lentInNext)).filter
    fun place => hasNamedLocal place body

def MoveFromBorrowed.attempt (ctx : CompilerCtxt) (body : Body) (curr : Location)
    (candidate : Pcg.Place) : Attempt :=
  insertWithFreshLocal id
    (fun fresh lentPlace => .assign (Place.from fresh) (.use (.move lentPlace)))
    "lent" ctx body curr candidate

/-! ## Write to shared -/

/-- `WriteToShared` creates mutants which write to shared borrows. -/
def WriteToShared.candidates (body : Body) (curr next : PcgLocation) : List Pcg.Place :=
  let sharedInCurr := HashSet.collect
    ((borrowedPlaces (curr.states .postMain).borrowPcg isShared).map Prod.fst)
  let sharedInNext := borrowedPlaces (next.states .postOperands).borrowPcg isShared
  ((sharedInNext.filter fun (place, _) => decide (place ∈ sharedInCurr)).filter
    fun (place, _) => hasNamedLocal place body).map Prod.fst

def WriteToShared.attempt (ctx : CompilerCtxt) (body : Body) (curr : Location)
    (candidate : Pcg.Place) : Attempt := do
  let sharedPlace := candidate.toPlace
  let sourceInfo ← bogusSourceInfo body
  -- Statement which writes to `sharedPlace`
  let newAssign : Statement :=
    { sourceInfo, kind := .assign sharedPlace (.len sharedPlace) }
  let info := ctx.tcx.debugPlace sharedPlace ++ " was shared, so inserted " ++
    ctx.tcx.debugStatement newAssign
  let some bb := body.basicBlocks[curr.block]? | return none
  -- No lookup of the statement at `curr` here: past the end, `insert` panics.
  let statements ← Vec.insert bb.statements (curr.statementIndex + 1) newAssign
  return some
    { body := body.setBlock curr.block { bb with statements }
      range := rangeAfter curr
      info }

/-! ## Specification -/

/-- `mutant` is `body` with the locals `fresh` declared and `new` inserted right
    after the statement at `curr`, and its range is that insertion. -/
structure Insertion (body : Body) (curr : Location) (fresh : List LocalDecl) (new : Statement)
    (mutant : Mutant) : Prop where
  exists_block : ∃ bb, body.basicBlocks[curr.block]? = some bb ∧
    curr.statementIndex < bb.statements.length ∧
    mutant.body.basicBlocks = body.basicBlocks.set curr.block
      { bb with statements := bb.statements.insertIdx (curr.statementIndex + 1) new }
  localDecls_eq : mutant.body.localDecls = body.localDecls ++ fresh
  range_eq : mutant.range = rangeAfter curr

section InsertWithFreshLocal

variable {localTy : Ty → Ty} {kind : Local → Mir.Place → StatementKind} {was : String}
  {ctx : CompilerCtxt} {body : Body} {curr : Location} {place : Pcg.Place}

/-- All that `insertWithFreshLocal` can return. -/
theorem insertWithFreshLocal_inv {mutant : Mutant}
    (h : insertWithFreshLocal localTy kind was ctx body curr place = .ok (some mutant)) :
    ∃ ty sourceInfo statementInfo, place.toPlace.ty ctx.tcx body.localDecls = .ok ty ∧
      bogusSourceInfo body = .ok sourceInfo ∧
      Insertion body curr [freshLocalDecl (localTy ty) sourceInfo]
        ⟨statementInfo, kind body.localDecls.length place.toPlace⟩ mutant := by
  unfold insertWithFreshLocal at h
  obtain ⟨ty, hty, h⟩ := Res.bind_inv h
  obtain ⟨⟨mutantBody, fresh⟩, hfresh, h⟩ := Res.bind_inv h
  unfold freshLocal at hfresh
  obtain ⟨sourceInfo, hsi, hfresh⟩ := Res.bind_inv hfresh
  cases hfresh
  simp only at h
  -- the lookups that may drop the candidate
  cases hbb : body.basicBlocks[curr.block]? with
  | none => simp [hbb] at h
  | some bb =>
    cases hst : bb.statements[curr.statementIndex]? with
    | none => simp [hbb, hst] at h
    | some statement =>
      have hlt : curr.statementIndex < bb.statements.length :=
        (List.getElem?_eq_some_iff.mp hst).1
      simp only [hbb, hst, Vec.insert_of_le _ (Nat.succ_le_of_lt hlt), Res.ok_bind,
        Res.pure_eq] at h
      cases h
      exact ⟨ty, sourceInfo, statement.sourceInfo, hty, hsi, ⟨bb, hbb, hlt, rfl⟩, rfl, rfl⟩

/-- At a statement of the body, a declared place is never dropped. -/
theorem insertWithFreshLocal_isSome (hplace : place.local < body.localDecls.length)
    {bb : BasicBlockData} (hbb : body.basicBlocks[curr.block]? = some bb)
    (hlt : curr.statementIndex < bb.statements.length) :
    ∃ mutant, insertWithFreshLocal localTy kind was ctx body curr place = .ok (some mutant) := by
  obtain ⟨sourceInfo, hsi⟩ := bogusSourceInfo_of_lt hplace
  rw [insertWithFreshLocal, Place.ty_of_lt _ _ (by simpa using hplace), Res.ok_bind,
    freshLocal_eq hsi]
  simp [hbb, hlt, Vec.insert_of_le _ (Nat.succ_le_of_lt hlt)]

end InsertWithFreshLocal

theorem MutablyLendShared.attempt_inv {ctx : CompilerCtxt} {body : Body} {curr : Location}
    {place : Pcg.Place} {region : Region} {mutant : Mutant}
    (h : MutablyLendShared.attempt ctx body curr (place, region) = .ok (some mutant)) :
    ∃ ty sourceInfo statementInfo, place.toPlace.ty ctx.tcx body.localDecls = .ok ty ∧
      bogusSourceInfo body = .ok sourceInfo ∧
      Insertion body curr [freshLocalDecl (Ty.newMutRef region ty) sourceInfo]
        ⟨statementInfo, .assign (Place.from body.localDecls.length)
          (.ref region (.mut .default) place.toPlace)⟩ mutant :=
  insertWithFreshLocal_inv h

theorem mem_writeOnly {state : PcgState} {place : Pcg.Place} :
    place ∈ writeOnly state ↔ (place, CapabilityKind.write) ∈ state.capabilities := by
  simp only [writeOnly, List.mem_filterMap]
  constructor
  · rintro ⟨⟨p, ck⟩, hmem, h⟩
    cases ck <;> simp at h
    obtain rfl := h
    exact hmem
  · intro hmem
    exact ⟨_, hmem, rfl⟩

theorem ReadFromWriteOnly.attempt_inv {ctx : CompilerCtxt} {body : Body} {curr : Location}
    {place : Pcg.Place} {mutant : Mutant}
    (h : ReadFromWriteOnly.attempt ctx body curr place = .ok (some mutant)) :
    ∃ ty sourceInfo statementInfo, place.toPlace.ty ctx.tcx body.localDecls = .ok ty ∧
      bogusSourceInfo body = .ok sourceInfo ∧
      Insertion body curr [freshLocalDecl (Ty.newMutRef .reErased ty) sourceInfo]
        ⟨statementInfo, .fakeRead (.forLet none) (Place.from body.localDecls.length)⟩ mutant :=
  insertWithFreshLocal_inv h

theorem MoveFromBorrowed.attempt_inv {ctx : CompilerCtxt} {body : Body} {curr : Location}
    {place : Pcg.Place} {mutant : Mutant}
    (h : MoveFromBorrowed.attempt ctx body curr place = .ok (some mutant)) :
    ∃ ty sourceInfo statementInfo, place.toPlace.ty ctx.tcx body.localDecls = .ok ty ∧
      bogusSourceInfo body = .ok sourceInfo ∧
      Insertion body curr [freshLocalDecl ty sourceInfo]
        ⟨statementInfo, .assign (Place.from body.localDecls.length)
          (.use (.move place.toPlace))⟩ mutant :=
  insertWithFreshLocal_inv h

/-- All that an attempt of `WriteToShared` can return. -/
theorem WriteToShared.attempt_inv {ctx : CompilerCtxt} {body : Body} {curr : Location}
    {place : Pcg.Place} {mutant : Mutant}
    (h : WriteToShared.attempt ctx body curr place = .ok (some mutant)) :
    ∃ sourceInfo, Insertion body curr []
      ⟨sourceInfo, .assign place.toPlace (.len place.toPlace)⟩ mutant := by
  unfold attempt at h
  obtain ⟨sourceInfo, hsi, h⟩ := Res.bind_inv h
  cases hbb : body.basicBlocks[curr.block]? with
  | none => simp [hbb] at h
  | some bb =>
    by_cases hle : curr.statementIndex + 1 ≤ bb.statements.length
    · simp only [hbb, Vec.insert_of_le _ hle, Res.ok_bind, Res.pure_eq] at h
      cases h
      exact ⟨sourceInfo, ⟨bb, hbb, hle, rfl⟩, by simp, rfl⟩
    · simp only [hbb, Vec.insert_of_not_le _ hle, Res.error_bind] at h
      cases h

theorem WriteToShared.attempt_isSome {ctx : CompilerCtxt} {body : Body} {curr : Location}
    {place : Pcg.Place} (hplace : place.local < body.localDecls.length)
    {bb : BasicBlockData} (hbb : body.basicBlocks[curr.block]? = some bb)
    (hlt : curr.statementIndex < bb.statements.length) :
    ∃ mutant, WriteToShared.attempt ctx body curr place = .ok (some mutant) := by
  obtain ⟨sourceInfo, hsi⟩ := bogusSourceInfo_of_lt hplace
  rw [attempt, hsi]
  simp [hbb, Vec.insert_of_le _ (Nat.succ_le_of_lt hlt)]

end MutationTesting.Mutator
