/-
  MutationTesting.Mutator.Typing

  The inserted statements against the MIR type check of assignments: the type
  under which a fresh local is declared and the type of the rvalue assigned to
  it are chosen in different places.
-/
import MutationTesting.Mutator.Inserted

namespace MutationTesting.Mutator

open MutationTesting.Rust MutationTesting.Mir MutationTesting.Pcg

/-- Every assignment the mutant has more than the original is well typed among
    the mutant's locals. -/
def InsertedWellTyped (tcx : TyCtxt) (body : Body) (mutant : Mutant) : Prop :=
  ∀ block start inserted, InsertedAt body mutant.body block start inserted →
    ∀ stmt ∈ inserted, stmt.kind.wellTyped tcx mutant.body.localDecls = true

/-- One run of inserted statements decides for all of them. -/
theorem insertedWellTyped_iff {tcx : TyCtxt} {body : Body} {mutant : Mutant}
    {block : BasicBlock} {start : Nat} {inserted : List Statement}
    (hat : InsertedAt body mutant.body block start inserted) :
    InsertedWellTyped tcx body mutant ↔
      ∀ stmt ∈ inserted, stmt.kind.wellTyped tcx mutant.body.localDecls = true := by
  constructor
  · intro h
    exact h block start inserted hat
  · intro h block' start' inserted' hat' stmt hstmt
    exact h stmt ((hat'.perm_of hat).mem_iff.mp hstmt)

section Insertion

variable {tcx : TyCtxt} {body : Body} {curr : Location} {fresh : List LocalDecl}
  {new : Statement} {mutant : Mutant}

theorem Insertion.wellTyped_iff (h : Insertion body curr fresh new mutant) :
    InsertedWellTyped tcx body mutant ↔
      new.kind.wellTyped tcx (body.localDecls ++ fresh) = true := by
  rw [insertedWellTyped_iff h.insertedAt, h.localDecls_eq]
  simp

end Insertion

/-- The first reborrow of a split is ill typed: it takes a shared borrow into a
    local declared as a mutable reference. -/
theorem Split.not_wellTyped {ctx : CompilerCtxt} {body : Body} {curr next : Location}
    {place blockingPlace : Pcg.Place} {mutant : Mutant}
    (h : Split ctx body curr next place blockingPlace mutant) :
    ¬ InsertedWellTyped ctx.tcx body mutant := by
  obtain ⟨sourceInfo, bb, -, hstmts, hat⟩ := h.insertedAt
  obtain ⟨-, si, ty, blockingTy, -, -, -, -, hdecls, -⟩ := h.exists_block
  rw [insertedWellTyped_iff hat, hstmts]
  intro hall
  have htarget : (Place.from body.localDecls.length).ty ctx.tcx mutant.body.localDecls =
      .ok (Ty.newMutRef (.reVar RegionVid.MAX) ty) := by
    rw [hdecls]
    exact Place.ty_from_concat
  have hill := not_wellTyped_sharedRef place.toPlace (.reVar RegionVid.MAX) htarget
  have hwell := hall _ List.mem_cons_self
  rw [reborrow, hill] at hwell
  cases hwell

namespace MutationKind

/-- The types on the two sides of a mutation's assignment agree for the candidate. -/
def TypesAgree (tcx : TyCtxt) (body : Body) : (k : MutationKind) → k.Candidate → Prop
  | borrowExpiryOrder, _ => False
  | abstractExpiryOrder, _ => False
  | writeToShared, place => place.toPlace.ty tcx body.localDecls = .ok .usize
  | mutablyLendShared, _ => True
  | readFromWriteOnly, _ => True
  | moveFromBorrowed, _ => True

/-- The statements inserted for a candidate are well typed exactly when the
    mutation is not an expiry order and, for `WriteToShared`, when the place has
    the type of a length. -/
theorem inserted_wellTyped_iff {ctx : CompilerCtxt} {body : Body} {curr next : Location}
    {k : MutationKind} {c : k.Candidate} {mutant : Mutant}
    (hbuilt : k.attempt ctx body curr next c = .ok (some mutant)) :
    InsertedWellTyped ctx.tcx body mutant ↔ k.TypesAgree ctx.tcx body c := by
  cases k with
  | borrowExpiryOrder | abstractExpiryOrder =>
    obtain ⟨place, blockingPlace⟩ := c
    have hsplit : Split ctx body curr next place blockingPlace mutant :=
      ExpiryOrder.attempt_inv hbuilt
    exact iff_of_false hsplit.not_wellTyped not_false
  | mutablyLendShared =>
    obtain ⟨place, region⟩ := c
    obtain ⟨ty, sourceInfo, info, hty, -, hins⟩ := MutablyLendShared.attempt_inv hbuilt
    rw [hins.wellTyped_iff]
    -- the fresh declaration changes no type
    have hplace := (Place.ty_append place.toPlace
      [freshLocalDecl (Ty.newMutRef region ty) sourceInfo] (Place.lt_of_ty hty)).trans hty
    exact iff_of_true (wellTyped_mutRef hplace Place.ty_from_concat) trivial
  | readFromWriteOnly =>
    obtain ⟨ty, sourceInfo, info, -, -, hins⟩ := ReadFromWriteOnly.attempt_inv hbuilt
    rw [hins.wellTyped_iff]
    exact iff_of_true rfl trivial
  | writeToShared =>
    obtain ⟨sourceInfo, hins⟩ := WriteToShared.attempt_inv hbuilt
    -- a length is assigned, whatever the place holds
    rw [hins.wellTyped_iff, wellTyped_len_iff, List.append_nil]
    rfl
  | moveFromBorrowed =>
    obtain ⟨ty, sourceInfo, info, hty, -, hins⟩ := MoveFromBorrowed.attempt_inv hbuilt
    rw [hins.wellTyped_iff]
    have hplace := (Place.ty_append _ [freshLocalDecl ty sourceInfo]
      (Place.lt_of_ty hty)).trans hty
    exact iff_of_true (wellTyped_move hplace Place.ty_from_concat) trivial

/-- The sample's expiry order assigns a shared borrow of `x` to a local declared
    as a mutable reference. -/
theorem not_inserted_wellTyped : ¬ ∀ (order : HashOrder Pcg.Place) (ctx : CompilerCtxt)
    (body : Body) (curr next : PcgLocation) (k : MutationKind) (cs : List k.Candidate)
    (c : k.Candidate) (mutant : Mutant),
    k.candidates order ctx body curr next = .ok cs → c ∈ cs →
    k.attempt ctx body curr.location next.location c = .ok (some mutant) →
    InsertedWellTyped ctx.tcx body mutant := by
  intro h
  obtain ⟨mutant, hbuilt⟩ :=
    attempt_isSome Sample.consecutive Sample.expiry_candidates List.mem_cons_self
  have hsplit := ExpiryOrder.attempt_inv hbuilt
  exact hsplit.not_wellTyped
    (h _ _ _ _ _ _ _ _ _ Sample.expiry_candidates List.mem_cons_self hbuilt)

/-- The sample's move out of `x` is well typed. -/
theorem inserted_wellTyped_move : ∃ mutant,
    moveFromBorrowed.attempt Sample.ctx Sample.body Sample.curr.location Sample.next.location
      Sample.x = .ok (some mutant) ∧
    InsertedWellTyped Sample.tcx Sample.body mutant := by
  obtain ⟨mutant, hbuilt⟩ :=
    attempt_isSome Sample.consecutive Sample.move_candidates List.mem_cons_self
  exact ⟨mutant, hbuilt, (inserted_wellTyped_iff hbuilt).mpr trivial⟩

end MutationKind

end MutationTesting.Mutator
