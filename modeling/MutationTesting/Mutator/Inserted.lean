/-
  MutationTesting.Mutator.Inserted

  The statements a mutation inserts.

  They are read off the two bodies, not off the mutation: `InsertedAt` places a
  run of statements in a block of the mutant body such that the other statements
  of the mutant are those of the original.  `insertedKinds` says what the run is
  for each of the six mutations.
-/
import MutationTesting.Mutator.Mutations

namespace MutationTesting.Mutator

open MutationTesting.Rust MutationTesting.Mir MutationTesting.Pcg

/-- `inserted` stands in block `block` of `mutant` from index `start` on, and is
    what `mutant` has more than `body`. -/
structure InsertedAt (body mutant : Body) (block : BasicBlock) (start : Nat)
    (inserted : List Statement) : Prop where
  exists_block : ∃ bb, mutant.basicBlocks[block]? = some bb ∧
    (bb.statements.drop start).take inserted.length = inserted
  perm : mutant.statements.Perm (body.statements ++ inserted)

/-- What a mutant has more than the original is determined up to order. -/
theorem InsertedAt.perm_of {body mutant : Body} {block block' : BasicBlock} {start start' : Nat}
    {inserted inserted' : List Statement} (h : InsertedAt body mutant block start inserted)
    (h' : InsertedAt body mutant block' start' inserted') : inserted.Perm inserted' :=
  (List.perm_append_left_iff _).mp (h.perm.symm.trans h'.perm)

section Splices

variable {ctx : CompilerCtxt} {body : Body} {curr next : Location} {fresh : List LocalDecl}
  {new : Statement} {place blockingPlace : Pcg.Place} {mutant : Mutant}

theorem Insertion.insertedAt (h : Insertion body curr fresh new mutant) :
    InsertedAt body mutant.body curr.block (curr.statementIndex + 1) [new] := by
  obtain ⟨bb, hbb, hlt, hblocks⟩ := h.exists_block
  have hblock : curr.block < body.basicBlocks.length := (List.getElem?_eq_some_iff.mp hbb).1
  have hlength : (bb.statements.insertIdx (curr.statementIndex + 1) new).length =
      bb.statements.length + 1 := List.length_insertIdx_of_le_length hlt _
  have hvalid : curr.statementIndex + 1 <
      (bb.statements.insertIdx (curr.statementIndex + 1) new).length := by omega
  refine ⟨⟨_, by rw [hblocks, List.getElem?_set_self hblock], ?_⟩, ?_⟩
  · -- the statement right after `curr` is the new one
    rw [List.drop_eq_getElem_cons hvalid, List.getElem_insertIdx_self]
    rfl
  · have hset := flatMap_set_perm hbb
      { bb with statements := bb.statements.insertIdx (curr.statementIndex + 1) new }
    have hins : (bb.statements.insertIdx (curr.statementIndex + 1) new).Perm
        ([new] ++ bb.statements) := List.perm_insertIdx _ _ hlt
    refine (List.perm_append_right_iff bb.statements).mp ?_
    rw [Body.statements, hblocks, List.append_assoc]
    exact hset.trans (hins.append_left _)

/-- The two reborrows are all of the last block and all that was inserted. -/
theorem Split.insertedAt (h : Split ctx body curr next place blockingPlace mutant) :
    ∃ sourceInfo bb, mutant.body.basicBlocks[body.basicBlocks.length + 1]? = some bb ∧
      bb.statements = [reborrow sourceInfo body.localDecls.length place,
        reborrow sourceInfo (body.localDecls.length + 1) blockingPlace] ∧
      InsertedAt body mutant.body (body.basicBlocks.length + 1) 0 bb.statements := by
  obtain ⟨bb, sourceInfo, ty, blockingTy, hbb, hle, -, -, -, hblocks⟩ := h.exists_block
  -- the block of the mutant sequence is the last
  have hget : mutant.body.basicBlocks[body.basicBlocks.length + 1]? = some
      { statements := [reborrow sourceInfo body.localDecls.length place,
          reborrow sourceInfo (body.localDecls.length + 1) blockingPlace]
        terminator := some ⟨sourceInfo, .unreachable⟩
        isCleanup := false } := by
    rw [hblocks, getElem?_splitBlocks_sequence]
  refine ⟨sourceInfo, _, hget, rfl, ⟨_, hget, ?_⟩, ?_⟩
  · rw [List.drop_zero, List.take_length]
  · -- head and tail together have the statements of the block they came from
    have hset := flatMap_set_perm hbb
      { bb with
        statements := bb.statements.take next.statementIndex
        terminator := some ⟨sourceInfo,
          .falseEdge body.basicBlocks.length (body.basicBlocks.length + 1)⟩ }
    have hsplit : bb.statements.Perm (bb.statements.drop next.statementIndex ++
        bb.statements.take next.statementIndex) := by
      conv_lhs => rw [← List.take_append_drop next.statementIndex bb.statements]
      exact List.perm_append_comm
    have hcancel := ((hsplit.symm.append_left _).trans hset)
    rw [← List.append_assoc, List.perm_append_right_iff] at hcancel
    rw [Body.statements, hblocks, splitBlocks, List.flatMap_append]
    simpa [Body.statements] using hcancel.append_right _

end Splices

/-! ## The inserted kinds -/

namespace MutationKind

/-- What a mutation inserts for a candidate in a body with `n` locals. -/
def insertedKinds (n : Local) : (k : MutationKind) → k.Candidate → List StatementKind
  | borrowExpiryOrder, (place, blockingPlace) =>
    [.assign (Place.from n) (.ref (.reVar RegionVid.MAX) .shared place.toPlace),
      .assign (Place.from (n + 1)) (.ref (.reVar RegionVid.MAX) .shared blockingPlace.toPlace)]
  | abstractExpiryOrder, (place, blockingPlace) =>
    [.assign (Place.from n) (.ref (.reVar RegionVid.MAX) .shared place.toPlace),
      .assign (Place.from (n + 1)) (.ref (.reVar RegionVid.MAX) .shared blockingPlace.toPlace)]
  | mutablyLendShared, (place, region) =>
    [.assign (Place.from n) (.ref region (.mut .default) place.toPlace)]
  | readFromWriteOnly, _ => [.fakeRead (.forLet none) (Place.from n)]
  | writeToShared, place => [.assign place.toPlace (.len place.toPlace)]
  | moveFromBorrowed, place => [.assign (Place.from n) (.use (.move place.toPlace))]

/-- Where a mutation inserts its statements: in a block of their own for the expiry orders,
    else after `curr`. -/
def insertedLocation (body : Body) (curr : Location) : MutationKind → Location
  | borrowExpiryOrder | abstractExpiryOrder => ⟨body.basicBlocks.length + 1, 0⟩
  | _ => ⟨curr.block, curr.statementIndex + 1⟩

/-- A mutant has its inserted statements in one place, all with one source info. -/
theorem attempt_insertedAt {ctx : CompilerCtxt} {body : Body} {k : MutationKind}
    {c : k.Candidate} {curr next : Location} {mutant : Mutant}
    (h : k.attempt ctx body curr next c = .ok (some mutant)) :
    ∃ sourceInfo, InsertedAt body mutant.body (k.insertedLocation body curr).block
      (k.insertedLocation body curr).statementIndex
      ((k.insertedKinds body.localDecls.length c).map (Statement.mk sourceInfo)) := by
  cases k with
  | borrowExpiryOrder | abstractExpiryOrder =>
    obtain ⟨place, blockingPlace⟩ := c
    have hsplit : Split ctx body curr next place blockingPlace mutant := ExpiryOrder.attempt_inv h
    obtain ⟨sourceInfo, bb, -, hstmts, hat⟩ := hsplit.insertedAt
    rw [hstmts] at hat
    exact ⟨sourceInfo, hat⟩
  | mutablyLendShared =>
    obtain ⟨ty, sourceInfo, info, -, -, hins⟩ := MutablyLendShared.attempt_inv h
    exact ⟨info, hins.insertedAt⟩
  | readFromWriteOnly =>
    obtain ⟨ty, sourceInfo, info, -, -, hins⟩ := ReadFromWriteOnly.attempt_inv h
    exact ⟨info, hins.insertedAt⟩
  | moveFromBorrowed =>
    obtain ⟨ty, sourceInfo, info, -, -, hins⟩ := MoveFromBorrowed.attempt_inv h
    exact ⟨info, hins.insertedAt⟩
  | writeToShared =>
    obtain ⟨sourceInfo, hins⟩ := WriteToShared.attempt_inv h
    exact ⟨sourceInfo, hins.insertedAt⟩

end MutationKind

end MutationTesting.Mutator
