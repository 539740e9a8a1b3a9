/-
  MutationTesting.Mutator.Range

  The reported range of a mutant against the statements its mutation inserted.

  The inserted statements are determined up to order by the two bodies, so their
  number is, and a range of another length cannot be right.
-/
import MutationTesting.Mutator.Inserted

namespace MutationTesting.Mutator

open MutationTesting.Rust MutationTesting.Mir MutationTesting.Pcg

/-- The range of a mutant is the mutation: both ends are statement indices of
    one block, in order, and the statements from the first to the last are the
    inserted ones. -/
structure RangeIsInserted (body : Body) (mutant : Mutant) : Prop where
  same_block : mutant.range.start.basicBlock = mutant.range.end_.basicBlock
  start_le_end : mutant.range.start.statementIndex ≤ mutant.range.end_.statementIndex
  end_valid : ∃ bb, mutant.body.basicBlocks[mutant.range.end_.basicBlock]? = some bb ∧
    mutant.range.end_.statementIndex < bb.statements.length
  inserted : ∃ inserted : List Statement,
    mutant.range.start.statementIndex + inserted.length =
      mutant.range.end_.statementIndex + 1 ∧
    InsertedAt body mutant.body mutant.range.start.basicBlock
      mutant.range.start.statementIndex inserted

/-! ## Insertions -/

section Insertion

variable {body : Body} {curr : Location} {fresh : List LocalDecl} {new : Statement}
  {mutant : Mutant}

theorem Insertion.rangeIsInserted (h : Insertion body curr fresh new mutant) :
    RangeIsInserted body mutant := by
  have hat := h.insertedAt
  obtain ⟨bb, hbb, hlt, hblocks⟩ := h.exists_block
  have hblock : curr.block < body.basicBlocks.length := (List.getElem?_eq_some_iff.mp hbb).1
  refine ⟨?_, ?_, ?_, ?_⟩
  · rw [h.range_eq]
    rfl
  · rw [h.range_eq]
    exact Nat.le_refl _
  · refine ⟨_, by rw [h.range_eq, hblocks]; exact List.getElem?_set_self hblock, ?_⟩
    rw [h.range_eq]
    show curr.statementIndex + 1 < (bb.statements.insertIdx (curr.statementIndex + 1) new).length
    rw [List.length_insertIdx_of_le_length hlt]
    omega
  · rw [h.range_eq]
    exact ⟨[new], rfl, hat⟩

end Insertion

/-! ## Splits -/

section Split

variable {ctx : CompilerCtxt} {body : Body} {curr next : Location}
  {place blockingPlace : Pcg.Place} {mutant : Mutant}

/-- The end of the range is at the index of `curr`, and two statements were
    inserted at index 0: the range is right when that index happens to be 1. -/
theorem Split.rangeIsInserted_iff (h : Split ctx body curr next place blockingPlace mutant) :
    RangeIsInserted body mutant ↔ curr.statementIndex = 1 := by
  obtain ⟨sourceInfo, bb, hget, hstmts, hat⟩ := h.insertedAt
  have hlen : bb.statements.length = 2 := by rw [hstmts]; rfl
  constructor
  · intro hrange
    obtain ⟨inserted, hlength, hinserted⟩ := hrange.inserted
    -- whatever the range is said to cover, two statements were inserted
    have htwo : inserted.length = 2 := by rw [(hinserted.perm_of hat).length_eq, hlen]
    rw [h.range_eq, htwo] at hlength
    simp only at hlength
    omega
  · intro hone
    refine ⟨?_, ?_, ?_, ?_⟩
    · rw [h.range_eq]
    · rw [h.range_eq]
      exact Nat.zero_le _
    · rw [h.range_eq]
      exact ⟨bb, hget, by rw [hlen]; simp [hone]⟩
    · rw [h.range_eq]
      exact ⟨bb.statements, by rw [hlen]; simp [hone], hat⟩

end Split

/-- The reported range is the mutation: always for the four insertions, and for
    the two expiry orders exactly when `curr` is the second statement of its
    block. -/
theorem MutationKind.range_is_inserted_iff {order : HashOrder Pcg.Place} {ctx : CompilerCtxt}
    {body : Body} {curr next : PcgLocation} {k : MutationKind} {stream : MutantStream}
    {mutant : Mutant} (hstream : k.makeStream order ctx body curr next = .ok stream)
    (hm : Emits stream mutant) :
    RangeIsInserted body mutant ↔ (k.isExpiry = true → curr.location.statementIndex = 1) := by
  obtain ⟨cs, -, c, -, hbuilt⟩ := exists_of_emits hstream hm
  cases hk : k.isExpiry with
  | true =>
    obtain ⟨place, blockingPlace, -, hsplit⟩ := attempt_split hk hbuilt
    simpa using hsplit.rangeIsInserted_iff
  | false =>
    obtain ⟨fresh, new, hins⟩ := attempt_insertion hk hbuilt
    simpa using hins.rangeIsInserted

/-- The sample's borrow is asked to expire at the fourth statement, so the range
    of the mutant runs past the end of its block. -/
theorem MutationKind.range_past_end : ¬ ∀ (k : MutationKind) (order : HashOrder Pcg.Place)
    (ctx : CompilerCtxt) (body : Body) (curr next : PcgLocation) (stream : MutantStream)
    (mutant : Mutant), ConsecutiveIn body curr.location next.location →
    k.makeStream order ctx body curr next = .ok stream → Emits stream mutant →
    RangeIsInserted body mutant := by
  intro h
  obtain ⟨stream, mutant, hstream, hbuilt, it', hyields, -⟩ :=
    produces_of_consecutive Sample.consecutive Sample.expiry_candidates
  have hemits : Emits stream (mutant (Sample.x, Sample.r)) :=
    hyields.mem_iff_emits.mp (by simp)
  have hrange := h _ _ _ _ _ _ _ _ Sample.consecutive hstream hemits
  have hsplit := ExpiryOrder.attempt_inv (hbuilt (Sample.x, Sample.r) (by simp))
  exact absurd (hsplit.rangeIsInserted_iff.mp hrange) (by decide)

/-- The range of the sample's move is that move. -/
theorem MutationKind.range_is_inserted_move : ∃ stream mutant,
    makeStream Sample.order .moveFromBorrowed Sample.ctx Sample.body Sample.curr Sample.next =
      .ok stream ∧ Emits stream mutant ∧ RangeIsInserted Sample.body mutant := by
  obtain ⟨stream, mutant, hstream, -, it', hyields, -⟩ :=
    produces_of_consecutive Sample.consecutive Sample.move_candidates
  have hemits : Emits stream (mutant Sample.x) := hyields.mem_iff_emits.mp (by simp)
  have hrange := (range_is_inserted_iff hstream hemits).mpr (by simp [isExpiry])
  exact ⟨stream, _, hstream, hemits, hrange⟩

end MutationTesting.Mutator
