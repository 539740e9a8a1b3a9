/-
  MutationTesting.Mutator.Access

  The accesses of the inserted statements against the selected places: whether
  each mutation does to the place of its candidate what it was built to do.
-/
import MutationTesting.Mutator.Inserted
import MutationTesting.Mir.Access

namespace MutationTesting.Mutator

open MutationTesting.Rust MutationTesting.Mir MutationTesting.Pcg

/-- All that statements do to places. -/
def accesses (kinds : List StatementKind) : List Check := kinds.flatMap StatementKind.checks

namespace MutationKind

/-- Whether a check is the mutation's access to a place: a mutable borrow, a
    read, a write or a move of it; a use of any kind for the expiry orders. -/
def IsAccess (place : Mir.Place) : MutationKind → Check → Prop
  | borrowExpiryOrder, check => ∃ depth rw, check = .accessPlace place depth rw
  | abstractExpiryOrder, check => ∃ depth rw, check = .accessPlace place depth rw
  | mutablyLendShared, check =>
    ∃ depth kind, check = .accessPlace place depth (.write (.mutableBorrow kind))
  | readFromWriteOnly, check =>
    (∃ depth kind, check = .accessPlace place depth (.read kind)) ∨
      ∃ action, check = .checkIfPathOrSubpathIsMoved action place
  | writeToShared, check => ∃ depth, check = .accessPlace place depth (.write .mutate)
  | moveFromBorrowed, check => ∃ depth, check = .accessPlace place depth (.write .move)

/-- The statement performs the mutation's access on the place. -/
def Performs (k : MutationKind) (place : Pcg.Place) (kind : StatementKind) : Prop :=
  ∃ check ∈ kind.checks, k.IsAccess place.toPlace check

/-- The statements inserted for each candidate that becomes a mutant perform the
    accesses on the candidate's places, in their order, and not on fresh locals
    only; candidates with different places get different accesses. -/
def Exercises (k : MutationKind) (ctx : CompilerCtxt) (body : Body) (curr next : Location)
    (cs : List k.Candidate) : Prop :=
  ∃ inserted : k.Candidate → List StatementKind,
    ∀ c ∈ cs, ∀ mutant, k.attempt ctx body curr next c = .ok (some mutant) →
      (∃ stmts block start, stmts.map Statement.kind = inserted c ∧
        InsertedAt body mutant.body block start stmts) ∧
      List.Forall₂ k.Performs (k.places c) (inserted c) ∧
      (∃ check ∈ accesses (inserted c), check.place.local < body.localDecls.length) ∧
      ∀ c' ∈ cs, ∀ mutant', k.attempt ctx body curr next c' = .ok (some mutant') →
        k.places c ≠ k.places c' → accesses (inserted c) ≠ accesses (inserted c')

/-! ## What the inserted kinds access -/

variable {order : HashOrder Pcg.Place} {ctx : CompilerCtxt} {body : Body}
  {curr next : PcgLocation}

/-- Every mutation but the read performs its access. -/
theorem performs_insertedKinds {k : MutationKind} (hk : k ≠ readFromWriteOnly) (n : Local)
    (c : k.Candidate) : List.Forall₂ k.Performs (k.places c) (k.insertedKinds n c) := by
  cases k with
  | borrowExpiryOrder | abstractExpiryOrder =>
    obtain ⟨place, blockingPlace⟩ := c
    exact .cons ⟨_, List.mem_cons_self, _, _, rfl⟩ (.cons ⟨_, List.mem_cons_self, _, _, rfl⟩ .nil)
  | mutablyLendShared =>
    obtain ⟨place, region⟩ := c
    exact .cons ⟨_, List.mem_cons_self, _, _, rfl⟩ .nil
  | readFromWriteOnly => exact absurd rfl hk
  | writeToShared =>
    -- the write is the last of the checks: the length is read before
    refine .cons ⟨.accessPlace (Pcg.Place.toPlace c) (.shallow none) (.write .mutate), ?_, _, rfl⟩
      .nil
    simp [StatementKind.checks, Rvalue.checks, mutatePlace]
  | moveFromBorrowed =>
    -- the move is the second of the checks
    refine .cons ⟨.accessPlace (Pcg.Place.toPlace c) .deep (.write .move), ?_, _, rfl⟩ .nil
    simp [StatementKind.checks, Rvalue.checks, Operand.checks]

/-- The places accessed on, of the checks that ask for an access at all. -/
def accessedPlaces (checks : List Check) : List Mir.Place :=
  checks.filterMap fun check =>
    match check with
    | .accessPlace place _ _ => some place
    | _ => none

/-- The places of a candidate can be read off the accesses made for it. -/
theorem places_eq_of_accesses_eq {k : MutationKind} (hk : k ≠ readFromWriteOnly) {n : Local}
    {c c' : k.Candidate}
    (h : accesses (k.insertedKinds n c) = accesses (k.insertedKinds n c')) :
    k.places c = k.places c' := by
  -- the accessed places determine the candidate
  have hplaces := congrArg accessedPlaces h
  cases k with
  | borrowExpiryOrder | abstractExpiryOrder =>
    obtain ⟨p, q⟩ := c
    obtain ⟨p', q'⟩ := c'
    obtain ⟨hp, hq⟩ : p.toPlace = p'.toPlace ∧ q.toPlace = q'.toPlace := by
      simpa [accesses, accessedPlaces, insertedKinds, StatementKind.checks,
        Rvalue.checks, mutatePlace] using hplaces
    rw [Pcg.Place.toPlace_inj.mp hp, Pcg.Place.toPlace_inj.mp hq]
  | mutablyLendShared =>
    obtain ⟨p, region⟩ := c
    obtain ⟨p', region'⟩ := c'
    have hp : p.toPlace = p'.toPlace := by
      simpa [accesses, accessedPlaces, insertedKinds, StatementKind.checks, Rvalue.checks,
        mutatePlace] using hplaces
    rw [places, places, Pcg.Place.toPlace_inj.mp hp]
  | readFromWriteOnly => exact absurd rfl hk
  | writeToShared | moveFromBorrowed =>
    have hp : Pcg.Place.toPlace c = Pcg.Place.toPlace c' := by
      simpa [accesses, accessedPlaces, insertedKinds, StatementKind.checks, Rvalue.checks,
        Operand.checks, mutatePlace] using hplaces
    rw [places, places, Pcg.Place.toPlace_inj.mp hp]

theorem isAccess_place {k : MutationKind} {place : Mir.Place} {check : Check}
    (h : k.IsAccess place check) : check.place = place := by
  cases k with
  | borrowExpiryOrder | abstractExpiryOrder | mutablyLendShared =>
    obtain ⟨_, _, rfl⟩ := h
    rfl
  | readFromWriteOnly =>
    rcases h with ⟨_, _, rfl⟩ | ⟨_, rfl⟩
    · rfl
    · rfl
  | writeToShared | moveFromBorrowed =>
    obtain ⟨_, rfl⟩ := h
    rfl

/-- A candidate selects at least one place. -/
theorem exists_places_eq_cons (k : MutationKind) (c : k.Candidate) :
    ∃ place rest, k.places c = place :: rest := by
  cases k with
  | borrowExpiryOrder | abstractExpiryOrder | mutablyLendShared =>
    obtain ⟨place, _⟩ := c
    exact ⟨_, _, rfl⟩
  | _ => exact ⟨_, _, rfl⟩

/-- Statements that perform the accesses of a candidate are not about fresh
    locals only. -/
theorem exists_access_lt {k : MutationKind} {cs : List k.Candidate}
    (hcs : k.candidates order ctx body curr next = .ok cs) {c : k.Candidate} (hc : c ∈ cs)
    {kinds : List StatementKind} (h : List.Forall₂ k.Performs (k.places c) kinds) :
    ∃ check ∈ accesses kinds, check.place.local < body.localDecls.length := by
  obtain ⟨place, rest, hplaces⟩ := k.exists_places_eq_cons c
  have hlt : place.local < body.localDecls.length :=
    places_lt hcs hc (by rw [hplaces]; exact List.mem_cons_self)
  rw [hplaces] at h
  cases h with
  | cons hperforms _ =>
    obtain ⟨check, hcheck, haccess⟩ := hperforms
    refine ⟨check, List.mem_flatMap.mpr ⟨_, List.mem_cons_self, hcheck⟩, ?_⟩
    rw [isAccess_place haccess]
    exact hlt

end MutationKind

theorem ReadFromWriteOnly.mem_candidates {body : Body} {curr next : PcgLocation}
    {place : Pcg.Place} : place ∈ ReadFromWriteOnly.candidates body curr next ↔
      hasNamedLocal place body = true ∧
      (place, CapabilityKind.write) ∈ (curr.states .postMain).capabilities ∧
      (place, CapabilityKind.write) ∈ (next.states .postOperands).capabilities := by
  rw [candidates, List.mem_filter, List.mem_filter, decide_eq_true_iff, mem_writeOnly,
    mem_writeOnly]
  tauto

/-- Whatever run of statements a read inserts, it accesses the fresh local only. -/
theorem ReadFromWriteOnly.access_fresh {ctx : CompilerCtxt} {body : Body} {curr : Location}
    {place : Pcg.Place} {mutant : Mutant}
    (hbuilt : ReadFromWriteOnly.attempt ctx body curr place = .ok (some mutant))
    {block : BasicBlock} {start : Nat} {stmts : List Statement}
    (hat : InsertedAt body mutant.body block start stmts) {check : Check}
    (hcheck : check ∈ accesses (stmts.map Statement.kind)) :
    check.place.local = body.localDecls.length := by
  obtain ⟨ty, si, sourceInfo, -, -, hins⟩ := attempt_inv hbuilt
  have hat' := hins.insertedAt
  have hstmts : stmts = [⟨sourceInfo, .fakeRead (.forLet none)
      (Place.from body.localDecls.length)⟩] := List.perm_singleton.mp (hat.perm_of hat')
  rw [hstmts] at hcheck
  obtain rfl : check = .checkIfPathOrSubpathIsMoved .use (Place.from body.localDecls.length) := by
    simpa [accesses, StatementKind.checks] using hcheck
  rfl

namespace MutationKind

/-- The inserted statements exercise the selected places exactly when the
    mutation is not the read, or no named place stays write-only from `curr` to
    `next` (or `curr` is no statement, and nothing is inserted). -/
theorem exercises_iff {order : HashOrder Pcg.Place} {ctx : CompilerCtxt} {body : Body}
    {curr next : PcgLocation} {k : MutationKind} {cs : List k.Candidate}
    (hcs : k.candidates order ctx body curr next = .ok cs) :
    k.Exercises ctx body curr.location next.location cs ↔
      (k = readFromWriteOnly → IsStatement body curr.location → ∀ place,
        hasNamedLocal place body = true →
        (place, CapabilityKind.write) ∈ (curr.states .postMain).capabilities →
        (place, CapabilityKind.write) ∉ (next.states .postOperands).capabilities) := by
  constructor
  · rintro ⟨inserted, hinserted⟩ rfl hstmt place hnamed hcurr hnext
    have hcs' := hcs
    cases hcs'
    have hc := ReadFromWriteOnly.mem_candidates.mpr ⟨hnamed, hcurr, hnext⟩
    obtain ⟨mutant, hbuilt⟩ := attempt_isSome_of_insertion (k := readFromWriteOnly) rfl hstmt hcs hc
    obtain ⟨⟨stmts, block, start, hkinds, hat⟩, -, ⟨check, hcheck, hlocal⟩, -⟩ :=
      hinserted place hc mutant hbuilt
    rw [← hkinds] at hcheck
    -- the statement accesses the fresh local, which is no place of the body
    exact Nat.ne_of_lt hlocal (ReadFromWriteOnly.access_fresh hbuilt hat hcheck)
  · intro hcond
    refine ⟨k.insertedKinds body.localDecls.length, ?_⟩
    intro c hc mutant hbuilt
    obtain ⟨sourceInfo, hat⟩ := attempt_insertedAt hbuilt
    by_cases hk : k = readFromWriteOnly
    · -- then `curr` is no statement, and there is no mutant
      subst hk
      cases hcs
      obtain ⟨hnamed, hcurr, hnext⟩ := ReadFromWriteOnly.mem_candidates.mp hc
      obtain ⟨ty, si, info, -, -, hins⟩ := ReadFromWriteOnly.attempt_inv hbuilt
      obtain ⟨bb, hbb, hlt, -⟩ := hins.exists_block
      exact absurd hnext (hcond rfl ⟨bb, hbb, hlt⟩ c hnamed hcurr)
    · have hperforms := performs_insertedKinds hk body.localDecls.length c
      refine ⟨⟨_, _, _, by simp [Function.comp_def], hat⟩, hperforms,
        exists_access_lt hcs hc hperforms, ?_⟩
      intro c' hc' mutant' hbuilt' hne heq
      exact hne (places_eq_of_accesses_eq hk heq)

/-- The sample's write-only `y` is not read: the statement inserted for it reads
    a local that the mutation has just declared. -/
theorem not_exercises : ¬ ∀ (order : HashOrder Pcg.Place) (ctx : CompilerCtxt) (body : Body)
    (curr next : PcgLocation) (k : MutationKind) (cs : List k.Candidate),
    k.candidates order ctx body curr next = .ok cs →
    k.Exercises ctx body curr.location next.location cs := by
  intro h
  obtain ⟨inserted, hinserted⟩ := h _ _ _ _ _ _ _ Sample.read_candidates
  obtain ⟨mutant, hbuilt⟩ :=
    attempt_isSome Sample.consecutive Sample.read_candidates List.mem_cons_self
  obtain ⟨⟨stmts, block, start, hkinds, hat⟩, -, ⟨check, hcheck, hlocal⟩, -⟩ :=
    hinserted Sample.y List.mem_cons_self mutant hbuilt
  rw [← hkinds] at hcheck
  exact Nat.ne_of_lt hlocal (ReadFromWriteOnly.access_fresh hbuilt hat hcheck)

/-- The sample's borrow is exercised by both reborrows. -/
theorem exercises_sample : borrowExpiryOrder.Exercises Sample.ctx Sample.body
    Sample.curr.location Sample.next.location [(Sample.x, Sample.r)] := by
  refine (exercises_iff Sample.expiry_candidates).mpr ?_
  intro hk
  cases hk

end MutationKind

end MutationTesting.Mutator
