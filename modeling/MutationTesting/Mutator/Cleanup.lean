/-
  MutationTesting.Mutator.Cleanup

  The split of a block against the cleanup discipline.  The head keeps its flag,
  while the tail and the block of the mutant sequence come from
  `fresh_basic_block`, which knows nothing of the block that is split.
-/
import MutationTesting.Mutator.Mutations
import MutationTesting.Mutator.Analysis
import MutationTesting.Mir.Cleanup

namespace MutationTesting.Mutator

open MutationTesting.Rust MutationTesting.Mir MutationTesting.Pcg

/-- The split body obeys the cleanup discipline, and both appended blocks have
    the flag of the block split. -/
structure PreservesCleanup (body : Body) (bb : BasicBlock) (mutantBody : Body) : Prop where
  discipline : CleanupDiscipline mutantBody
  tail_flag : mutantBody.isCleanup body.basicBlocks.length = body.isCleanup bb
  mutant_flag : mutantBody.isCleanup (body.basicBlocks.length + 1) = body.isCleanup bb

section Split

variable {ctx : CompilerCtxt} {body : Body} {curr next : Location}
  {place blockingPlace : Pcg.Place} {mutant : Mutant}

/-- The flags of a split body. -/
theorem Split.isCleanup (h : Split ctx body curr next place blockingPlace mutant) :
    KeepsCleanup body mutant.body ∧
      mutant.body.isCleanup body.basicBlocks.length = some false ∧
      mutant.body.isCleanup (body.basicBlocks.length + 1) = some false := by
  obtain ⟨bb, sourceInfo, ty, blockingTy, hbb, -, -, -, -, hblocks⟩ := h.exists_block
  refine ⟨?_, ?_, ?_⟩
  · intro b flag hflag
    obtain ⟨data, hdata, rfl⟩ := Option.map_eq_some_iff.mp hflag
    have hlt := (List.getElem?_eq_some_iff.mp hdata).1
    rw [Body.isCleanup, hblocks, splitBlocks, List.getElem?_append_left (by simpa using hlt)]
    by_cases hb : curr.block = b
    · -- the head has the flag of the block it was
      subst hb
      rw [List.getElem?_set_self hlt]
      rw [hbb] at hdata
      cases hdata
      rfl
    · rw [List.getElem?_set_ne hb, hdata]
      rfl
  · rw [Body.isCleanup, hblocks, getElem?_splitBlocks_tail]
    rfl
  · rw [Body.isCleanup, hblocks, getElem?_splitBlocks_sequence]
    rfl

/-- Splitting a block that is not a cleanup block preserves the discipline. -/
theorem Split.cleanupDiscipline (h : Split ctx body curr next place blockingPlace mutant)
    (hbody : CleanupDiscipline body) (hflag : body.isCleanup curr.block = some false) :
    CleanupDiscipline mutant.body := by
  obtain ⟨hkeeps, htail, hmutant⟩ := h.isCleanup
  obtain ⟨bb, sourceInfo, ty, blockingTy, hbb, -, -, -, -, hblocks⟩ := h.exists_block
  have hbbFlag : bb.isCleanup = false := by
    rw [Body.isCleanup, hbb] at hflag
    exact Option.some.inj hflag
  intro block hblock
  rw [hblocks, splitBlocks] at hblock
  rcases List.mem_append.mp hblock with hblock | hblock
  · rcases List.mem_or_eq_of_mem_set hblock with hold | rfl
    · exact hkeeps.checkIsCleanup rfl rfl (hbody block hold)
    · -- the head goes to the two new blocks
      simp only [checkIsCleanup, Bool.and_eq_true, assertIsCleanup_eq_true]
      rw [hbbFlag]
      exact ⟨htail, hmutant⟩
  · rcases List.mem_cons.mp hblock with rfl | hblock
    · -- the tail has the terminator of the block split
      have hold := hbody bb (List.mem_of_getElem? hbb)
      exact KeepsCleanup.checkIsCleanup hkeeps (by rfl) hbbFlag.symm hold
    · obtain rfl := List.mem_singleton.mp hblock
      rfl

end Split

/-- An expiry order preserves the cleanup discipline exactly when the block it
    splits is not a cleanup block. -/
theorem MutationKind.preservesCleanup_iff {ctx : CompilerCtxt} {body : Body}
    {curr next : Location} {k : MutationKind} (hk : k.isExpiry = true)
    (hbody : CleanupDiscipline body) {c : k.Candidate} {mutant : Mutant}
    (hbuilt : k.attempt ctx body curr next c = .ok (some mutant)) :
    PreservesCleanup body curr.block mutant.body ↔ body.isCleanup curr.block = some false := by
  obtain ⟨place, blockingPlace, -, hsplit⟩ := attempt_split hk hbuilt
  obtain ⟨-, htail, hmutant⟩ := hsplit.isCleanup
  constructor
  · intro hpreserves
    rw [← hpreserves.tail_flag]
    exact htail
  · intro hflag
    refine ⟨hsplit.cleanupDiscipline hbody hflag, ?_, ?_⟩
    · rw [htail, hflag]
    · rw [hmutant, hflag]

/-- The sample's cleanup block, split after its assignment, branches to blocks
    that are not cleanup blocks. -/
theorem MutationKind.not_preservesCleanup : ¬ ∀ (order : HashOrder Pcg.Place)
    (ctx : CompilerCtxt) (body : Body) (curr next : PcgLocation) (k : MutationKind)
    (cs : List k.Candidate) (c : k.Candidate) (mutant : Mutant),
    k.isExpiry = true → CleanupDiscipline body →
    ConsecutiveIn body curr.location next.location →
    k.candidates order ctx body curr next = .ok cs → c ∈ cs →
    k.attempt ctx body curr.location next.location c = .ok (some mutant) →
    PreservesCleanup body curr.location.block mutant.body := by
  intro h
  have hpair : ConsecutiveIn Sample.body (Sample.located 1 0).location
      (Sample.located 1 1).location := ⟨⟨_, rfl, by decide⟩, rfl⟩
  have hcs : borrowExpiryOrder.candidates Sample.order Sample.ctx Sample.body
      (Sample.located 1 0) (Sample.located 1 1) = .ok [(Sample.x, Sample.r)] := rfl
  obtain ⟨mutant, hbuilt⟩ := attempt_isSome hpair hcs List.mem_cons_self
  have hpreserves := h _ _ _ _ _ _ _ _ _ rfl (by decide) hpair hcs List.mem_cons_self hbuilt
  obtain ⟨-, htail, -⟩ := (ExpiryOrder.attempt_inv hbuilt).isCleanup
  have hflag := htail.symm.trans hpreserves.tail_flag
  exact absurd hflag (by decide)

/-- Splitting the sample's first block preserves the discipline. -/
theorem MutationKind.preservesCleanup_sample : ∃ mutant,
    borrowExpiryOrder.attempt Sample.ctx Sample.body Sample.curr.location Sample.next.location
      (Sample.x, Sample.r) = .ok (some mutant) ∧
    PreservesCleanup Sample.body 0 mutant.body := by
  obtain ⟨mutant, hbuilt⟩ :=
    attempt_isSome Sample.consecutive Sample.expiry_candidates List.mem_cons_self
  exact ⟨mutant, hbuilt, (preservesCleanup_iff rfl (by decide) hbuilt).mpr rfl⟩

end MutationTesting.Mutator
