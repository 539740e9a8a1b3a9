/-
  MutationTesting.Mutator.Conflict

  When the borrow checker reports the access that a mutation was built to make: each
  mutation selects places that are borrowed, and the mutant is rejected for the access if a
  borrow comes to the inserted statement that does not allow it.
-/
import MutationTesting.Borrowck.Conflict
import MutationTesting.Mutator.Access
import MutationTesting.Mutator.Deletion

namespace MutationTesting.Mutator

open MutationTesting.Rust MutationTesting.Mir MutationTesting.Pcg MutationTesting.Borrowck

namespace MutationKind

/-- The access that the mutation makes to a selected place; a read of what is write-only
    makes none. -/
def access : MutationKind → Option (AccessDepth × ReadOrWrite)
  | borrowExpiryOrder | abstractExpiryOrder => some (.deep, .read (.borrow .shared))
  | mutablyLendShared => some (.deep, .write (.mutableBorrow (.mut .default)))
  | readFromWriteOnly => none
  | writeToShared => some (.shallow none, .write .mutate)
  | moveFromBorrowed => some (.deep, .write .move)

/-- The borrow does not allow the access: a shared reborrow is allowed by all but the
    mutable borrows that are active, a mutable borrow and a write by none, and a move by
    those that only a match makes. -/
def Forbids (dominators : BasicBlock → BasicBlock → Bool) (location : Location)
    (data : BorrowData) : MutationKind → Prop
  | borrowExpiryOrder | abstractExpiryOrder =>
    (∃ mutKind, data.kind = .mut mutKind) ∧ isActive dominators data location = true
  | mutablyLendShared | writeToShared => True
  | readFromWriteOnly => False
  | moveFromBorrowed => data.kind ≠ .fake .shallow

variable {k : MutationKind} {depth : AccessDepth} {rw : ReadOrWrite}

theorem incompatible_access (hk : k.access = some (depth, rw))
    (dominators : BasicBlock → BasicBlock → Bool) (location : Location) (i : BorrowIndex)
    (data : BorrowData) :
    Incompatible dominators location rw i data ↔ k.Forbids dominators location data := by
  cases k with
  | borrowExpiryOrder | abstractExpiryOrder =>
    cases hk
    simp [Incompatible, Forbids]
  | mutablyLendShared | writeToShared =>
    cases hk
    simp [Incompatible, Forbids]
  | readFromWriteOnly => cases hk
  | moveFromBorrowed =>
    cases hk
    simp [Incompatible, Forbids]

/-- Each selected place has a statement that makes the access to it. -/
theorem access_insertedKinds (hk : k.access = some (depth, rw)) (m : Local) (c : k.Candidate)
    {n : Nat} {place : Pcg.Place} (hplace : (k.places c)[n]? = some place) :
    ∃ kind, (k.insertedKinds m c)[n]? = some kind ∧
      .accessPlace place.toPlace depth rw ∈ kind.checks := by
  cases k with
  | borrowExpiryOrder | abstractExpiryOrder =>
    cases hk
    obtain ⟨p, q⟩ := c
    rcases n with _ | _ | n
    · cases hplace
      exact ⟨_, rfl, List.mem_cons_self⟩
    · cases hplace
      exact ⟨_, rfl, List.mem_cons_self⟩
    · cases hplace
  | mutablyLendShared =>
    cases hk
    obtain ⟨p, region⟩ := c
    rcases n with _ | n
    · cases hplace
      exact ⟨_, rfl, List.mem_cons_self⟩
    · cases hplace
  | readFromWriteOnly => cases hk
  | writeToShared | moveFromBorrowed =>
    cases hk
    rcases n with _ | n
    · cases hplace
      refine ⟨_, rfl, ?_⟩
      simp [StatementKind.checks, Rvalue.checks, Operand.checks, mutatePlace]
    · cases hplace

end MutationKind

/-- The statements that are inserted stand one after the other. -/
theorem InsertedAt.statementAt {body mutant : Body} {block : BasicBlock} {start : Nat}
    {inserted : List Statement} (h : InsertedAt body mutant block start inserted) {n : Nat}
    {statement : Statement} (hn : inserted[n]? = some statement) :
    mutant.statementAt ⟨block, start + n⟩ = some statement := by
  obtain ⟨bb, hbb, hinserted⟩ := h.exists_block
  have hlt : n < inserted.length := (List.getElem?_eq_some_iff.mp hn).1
  rw [← hinserted, List.getElem?_take_of_lt hlt, List.getElem?_drop] at hn
  rw [Body.statementAt, hbb]
  exact hn

theorem inBody_of_statementAt {body : Body} {location : Location} {statement : Statement}
    (h : body.statementAt location = some statement) : InBody body location := by
  obtain ⟨data, hdata, hstatement⟩ := Option.bind_eq_some_iff.mp h
  refine ⟨(List.getElem?_eq_some_iff.mp hdata).1, ?_⟩
  simp only [pointsOf, hdata, Option.map_some, Option.getD_some]
  exact (List.getElem?_eq_some_iff.mp hstatement).1.le

section Reported

variable {k : MutationKind} {depth : AccessDepth} {rw : ReadOrWrite} {ctx : CompilerCtxt}
  {body : Body} {curr next : Location} {c : k.Candidate} {mutant : Mutant} {n : Nat}
  {place : Pcg.Place} {location : Location}

/-- A mutant makes its mutation's access to each place of the candidate. -/
theorem exists_access (hk : k.access = some (depth, rw))
    (hbuilt : k.attempt ctx body curr next c = .ok (some mutant))
    (hplace : (k.places c)[n]? = some place)
    (hat : location = ⟨(k.insertedLocation body curr).block,
      (k.insertedLocation body curr).statementIndex + n⟩) :
    ∃ statement, mutant.body.statementAt location = some statement ∧
      .accessPlace place.toPlace depth rw ∈ statement.kind.checks := by
  obtain ⟨sourceInfo, hinserted⟩ := MutationKind.attempt_insertedAt hbuilt
  obtain ⟨kind, hkind, hcheck⟩ :=
    MutationKind.access_insertedKinds hk body.localDecls.length c hplace
  refine ⟨⟨sourceInfo, kind⟩, ?_, hcheck⟩
  rw [hat]
  exact hinserted.statementAt (by rw [List.getElem?_map, hkind, Option.map_some])

variable {borrows : Borrows} {visitor : MirVisitor} {preorder : List BasicBlock}
  {regioncx : RegionInferenceContext} {entry : BasicBlock → Finset BorrowIndex}
  {scope : Finset BorrowIndex}

/-- A mutant makes its mutation's access to each place of the candidate, and the borrow
    checker reports it if and only if a borrow comes to the inserted statement that has
    lent a conflicting place and does not allow the access. -/
theorem mutant_access_reported (hk : k.access = some (depth, rw))
    (hbuilt : k.attempt ctx body curr next c = .ok (some mutant))
    (hplace : (k.places c)[n]? = some place)
    (hat : location = ⟨(k.insertedLocation body curr).block,
      (k.insertedLocation body curr).statementIndex + n⟩)
    (hbody : borrows.body = mutant.body)
    (hcomputed : borrows.Computed visitor preorder regioncx entry)
    (hblock : location.block ∈ preorder) (hscope : borrows.inScope entry location = .ok scope)
    (hcompare : ∀ i data, borrows.borrowSet.locationMap.getAt i = some data →
      data.borrowedPlace.local = place.local →
        Comparable borrows.cx borrows.borrowSet place.toPlace depth scope i)
    (dominators : BasicBlock → BasicBlock → Bool) (state : ConflictState) :
    (∃ statement, mutant.body.statementAt location = some statement ∧
        .accessPlace place.toPlace depth rw ∈ statement.kind.checks) ∧
      Reports { state with errorReported := false }
        (checkAccessForConflict borrows.cx dominators borrows.borrowSet location place.toPlace
          depth rw scope state)
        (∃ i data, borrows.ComesTo regioncx location i data ∧
          ConflictsWith borrows.cx borrows.borrowSet place.toPlace depth i data ∧
          k.Forbids dominators location data) := by
  obtain ⟨statement, hstatement, hcheck⟩ := exists_access hk hbuilt hplace hat
  refine ⟨⟨statement, hstatement, hcheck⟩, ?_⟩
  have hreports := @checkAccessForConflict_comesTo borrows visitor preorder regioncx entry
    dominators location place.toPlace depth rw scope hcomputed
    (by rw [hbody]; exact inBody_of_statementAt hstatement) hblock hscope hcompare state
  simpa only [MutationKind.incompatible_access hk] using hreports

/-- The mutant is rejected for a place of its candidate if a borrow that forbids the access
    comes to the inserted statement and has lent that place, a place that it is a part of,
    or, for the deep accesses, a part of it. -/
theorem mutant_rejected (hk : k.access = some (depth, rw))
    (hbuilt : k.attempt ctx body curr next c = .ok (some mutant))
    (hplace : (k.places c)[n]? = some place)
    (hat : location = ⟨(k.insertedLocation body curr).block,
      (k.insertedLocation body curr).statementIndex + n⟩)
    (hbody : borrows.body = mutant.body)
    (hcomputed : borrows.Computed visitor preorder regioncx entry)
    (hblock : location.block ∈ preorder) (hscope : borrows.inScope entry location = .ok scope)
    (hcompare : ∀ i data, borrows.borrowSet.locationMap.getAt i = some data →
      data.borrowedPlace.local = place.local →
        Comparable borrows.cx borrows.borrowSet place.toPlace depth scope i)
    {i : BorrowIndex} {data : BorrowData} (hcomes : borrows.ComesTo regioncx location i data)
    (hlocal : data.borrowedPlace.local = place.local) {decl : LocalDecl}
    (hdecl : borrows.cx.localDecls[data.borrowedPlace.local]? = some decl)
    (hstatic : isRefToStatic decl = false)
    (hends : data.borrowedPlace.projection <+: place.toPlace.projection ∨
      depth = .deep ∧ place.toPlace.projection <+: data.borrowedPlace.projection)
    (hself : ∀ elem ∈ place.toPlace.projection, SelfOverlapping elem)
    (hkind : data.kind ≠ .fake .shallow) {dominators : BasicBlock → BasicBlock → Bool}
    (hforbids : k.Forbids dominators location data) (state : ConflictState) :
    ∃ state' report,
      checkAccessForConflict borrows.cx dominators borrows.borrowSet location place.toPlace depth
        rw scope state = .ok state' ∧
      state'.errorReported = true ∧ state'.reports = state.reports ++ [report] := by
  obtain ⟨statement, hstatement, -⟩ := exists_access hk hbuilt hplace hat
  -- the borrow is tracked, so comparing it does not come across a shared reference
  obtain ⟨executed, -, htracked⟩ :=
    BorrowSet.made_of_build hcomputed.nodup hcomputed.build hcomes.1
  have hconflict : borrowConflictsWithPlace borrows.cx data.borrowedPlace data.kind place.toPlace
      depth .overlap = .ok true :=
    borrowConflictsWithPlace_prefix (Borrows.ignoreBorrow_of_tracked htracked)
      (List.getElem?_eq_some_iff.mp hdecl).1 (notThreadLocal_of_not_static hdecl hstatic) hlocal
      hends hself hkind
  rcases @checkAccessForConflict_comesTo borrows visitor preorder regioncx entry dominators
      location place.toPlace depth rw scope hcomputed
      (by rw [hbody]; exact inBody_of_statementAt hstatement) hblock hscope hcompare state with
    ⟨-, state', report, hrun, herror, hreports⟩ | ⟨hnot, -⟩
  · exact ⟨state', report, hrun, herror, hreports⟩
  · exact absurd ⟨i, data, hcomes, ⟨hcomes.1, hconflict⟩,
      (MutationKind.incompatible_access hk ..).mpr hforbids⟩ hnot

end Reported

/-- The body in which a component is borrowed, without the write. -/
def lentBody : Body := (Lent.body 0).deleteStatement ⟨0, 1⟩

/-- The place of a component. -/
def lentComponent (index : Nat) : Pcg.Place := ⟨1, [.field index .usize]⟩

/-- The mutant that writes to a component after the borrow. -/
def writeToComponent (index : Nat) : Attempt :=
  WriteToShared.attempt ⟨Lent.cx.tcx, lentBody⟩ lentBody ⟨0, 0⟩ (lentComponent index)

/-- The write to the borrowed component is reported, the one to the other component is
    not. -/
theorem mutant_access_reported_lent :
    (∃ mutant state, writeToComponent 0 = .ok (some mutant) ∧
        Lent.checkComponent 0 (.write .mutate) = .ok state ∧ state.errorReported = true) ∧
      ∃ mutant state, writeToComponent 1 = .ok (some mutant) ∧
        Lent.checkComponent 1 (.write .mutate) = .ok state ∧ state.errorReported = false := by
  have hreported := fun index => (@mutant_access_reported .writeToShared (.shallow none)
    (.write .mutate) ⟨Lent.cx.tcx, lentBody⟩ lentBody ⟨0, 0⟩ ⟨0, 1⟩ (lentComponent index) _ 0 _
    ⟨0, 1⟩ (Lent.borrows index) Lent.visitor [0] Lent.regioncx (fun _ => ∅) {0} rfl rfl rfl rfl
    rfl (Lent.computed index) List.mem_cons_self rfl (Lent.comparable_component index)
    Lent.dominators ⟨false, ∅, []⟩).2
  constructor
  · rcases hreported 0 with ⟨-, state, report, hrun, herror, -⟩ | ⟨hnot, -⟩
    · exact ⟨_, state, rfl, hrun, herror⟩
    · exact absurd ⟨0, Lent.data, Lent.comesTo 0, ⟨rfl, rfl⟩, trivial⟩ hnot
  · rcases hreported 1 with ⟨⟨i, found, hcomes, hconflict, -⟩, -⟩ | ⟨-, hrun⟩
    · obtain ⟨-, rfl⟩ := Lent.getAt_borrowSet hcomes.1
      cases hconflict.2
    · exact ⟨_, _, rfl, hrun, rfl⟩

/-- The mutant that writes to the borrowed component is rejected with one report. -/
theorem mutant_rejected_lent :
    ∃ mutant state report, writeToComponent 0 = .ok (some mutant) ∧
      Lent.checkComponent 0 (.write .mutate) = .ok state ∧ state.errorReported = true ∧
        state.reports = [report] := by
  obtain ⟨state, report, hrun, herror, hreports⟩ := @mutant_rejected .writeToShared
    (.shallow none) (.write .mutate) ⟨Lent.cx.tcx, lentBody⟩ lentBody ⟨0, 0⟩ ⟨0, 1⟩
    (lentComponent 0) _ 0 _ ⟨0, 1⟩ (Lent.borrows 0) Lent.visitor [0] Lent.regioncx (fun _ => ∅) {0}
    rfl rfl rfl rfl rfl (Lent.computed 0) List.mem_cons_self rfl (Lent.comparable_component 0) 0
    Lent.data (Lent.comesTo 0) rfl _ rfl rfl (.inl (List.prefix_refl _)) (by simp [lentComponent,
      Pcg.Place.toPlace, SelfOverlapping]) nofun Lent.dominators trivial ⟨false, ∅, []⟩
  exact ⟨_, state, report, rfl, hrun, herror, hreports⟩

end MutationTesting.Mutator
