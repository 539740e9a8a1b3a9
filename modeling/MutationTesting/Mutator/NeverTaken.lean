/-
  MutationTesting.Mutator.NeverTaken

  What an expiry mutant adds to a body: the block of `curr` is split after
  `curr`, and the head ends in a false edge to the tail whose imaginary target is
  the block of the mutant sequence.  Control never goes there, so the mutant
  executes what the body executes; each position of the split block corresponds
  to one in its head or in its tail.
-/
import MutationTesting.Mutator.Mutations
import MutationTesting.Mir.Control

namespace MutationTesting.Mutator

open MutationTesting.Rust MutationTesting.Mir MutationTesting.Pcg MutationTesting.Graph

/-! ## The added branch -/

/-- The block of `curr` is split after `curr`: the head keeps its place and goes
    to the tail, which is the first block appended. -/
structure BlockSplit (body mutantBody : Body) (curr : Location)
    (block head tail : BasicBlockData) : Prop where
  block_eq : body.basicBlocks[curr.block]? = some block
  index_lt : curr.statementIndex < block.statements.length
  head_eq : mutantBody.basicBlocks[curr.block]? = some head
  tail_eq : mutantBody.basicBlocks[body.basicBlocks.length]? = some tail
  head_statements : head.statements = block.statements.take (curr.statementIndex + 1)
  head_terminator : ∃ sourceInfo, head.terminator =
    some ⟨sourceInfo, .falseEdge body.basicBlocks.length (body.basicBlocks.length + 1)⟩
  append_statements : head.statements ++ tail.statements = block.statements
  tail_terminator : tail.terminator = block.terminator
  other_blocks : ∀ bb, bb ≠ curr.block → bb < body.basicBlocks.length →
    mutantBody.basicBlocks[bb]? = body.basicBlocks[bb]?

/-- The mutant body is the body with one block split and one block added that
    has no successor and is entered by the imaginary edge only. -/
structure AddsNeverTakenBranch (body mutantBody : Body) (curr : Location) : Prop where
  split : ∃ block head tail, BlockSplit body mutantBody curr block head tail
  blocks_length : mutantBody.basicBlocks.length = body.basicBlocks.length + 2
  no_successor : ∃ branch, mutantBody.basicBlocks[body.basicBlocks.length + 1]? = some branch ∧
    branch.successors = []
  entered_from : TargetsExist body → ∀ bb block, mutantBody.basicBlocks[bb]? = some block →
    body.basicBlocks.length + 1 ∈ block.successors → bb = curr.block
  never_taken : TargetsExist body → ∀ block ∈ mutantBody.basicBlocks, ∀ terminator,
    block.terminator = some terminator →
    body.basicBlocks.length + 1 ∉ terminator.kind.realSuccessors
  localDecls : body.localDecls <+: mutantBody.localDecls

section Split

variable {ctx : CompilerCtxt} {body : Body} {curr next : Location}
  {place blockingPlace : Pcg.Place} {mutant : Mutant}

theorem Split.blockSplit (h : Split ctx body curr next place blockingPlace mutant)
    (hpair : ConsecutiveIn body curr next) :
    ∃ block head tail, BlockSplit body mutant.body curr block head tail := by
  obtain ⟨bb, sourceInfo, ty, blockingTy, hbb, -, -, -, -, hblocks⟩ := h.exists_block
  obtain ⟨⟨bb', hbb', hlt⟩, hnext⟩ := hpair
  obtain rfl : bb = bb' := Option.some.inj (hbb.symm.trans hbb')
  have hindex : next.statementIndex = curr.statementIndex + 1 := by rw [hnext]
  have hblock : curr.block < body.basicBlocks.length := (List.getElem?_eq_some_iff.mp hbb).1
  rw [splitBlocks, hindex] at hblocks
  -- the head, with the false edge, and the tail
  refine ⟨bb,
    ⟨bb.statements.take (curr.statementIndex + 1),
      some ⟨sourceInfo, .falseEdge body.basicBlocks.length (body.basicBlocks.length + 1)⟩,
      bb.isCleanup⟩,
    ⟨bb.statements.drop (curr.statementIndex + 1), bb.terminator, false⟩,
    { block_eq := hbb
      index_lt := hlt
      head_eq := ?_
      tail_eq := ?_
      head_statements := rfl
      head_terminator := ⟨sourceInfo, rfl⟩
      append_statements := List.take_append_drop _ _
      tail_terminator := rfl
      other_blocks := ?_ }⟩
  · rw [hblocks, List.getElem?_append_left (by simpa using hblock), List.getElem?_set_self hblock]
  · rw [hblocks, List.getElem?_append_right (by simp)]
    simp
  · intro other hne hother
    rw [hblocks, List.getElem?_append_left (by simpa using hother),
      List.getElem?_set_ne (Ne.symm hne)]

/-- Every block of the mutant has the terminator of a block of the body, or is
    the head, or has no successor. -/
theorem Split.terminator_of_mem (h : Split ctx body curr next place blockingPlace mutant)
    {bb : BasicBlock} {block : BasicBlockData}
    (hblock : mutant.body.basicBlocks[bb]? = some block) :
    (∃ old ∈ body.basicBlocks, block.terminator = old.terminator) ∨
      (bb = curr.block ∧ ∃ sourceInfo, block.terminator =
        some ⟨sourceInfo, .falseEdge body.basicBlocks.length (body.basicBlocks.length + 1)⟩) ∨
      ∃ sourceInfo, block.terminator = some ⟨sourceInfo, .unreachable⟩ := by
  obtain ⟨data, sourceInfo, ty, blockingTy, hdata, -, -, -, -, hblocks⟩ := h.exists_block
  have hcurr : curr.block < body.basicBlocks.length := (List.getElem?_eq_some_iff.mp hdata).1
  rw [hblocks, splitBlocks] at hblock
  by_cases hlt : bb < body.basicBlocks.length
  · rw [List.getElem?_append_left (by simpa using hlt)] at hblock
    by_cases hbb : bb = curr.block
    · subst hbb
      rw [List.getElem?_set_self hlt] at hblock
      cases hblock
      exact .inr (.inl ⟨rfl, sourceInfo, rfl⟩)
    · rw [List.getElem?_set_ne (Ne.symm hbb)] at hblock
      exact .inl ⟨block, List.mem_of_getElem? hblock, rfl⟩
  · rw [List.getElem?_append_right (by simpa using hlt)] at hblock
    rcases List.mem_cons.mp (List.mem_of_getElem? hblock) with rfl | hlast
    -- the tail has the terminator of the block
    · exact .inl ⟨data, List.mem_of_getElem? hdata, rfl⟩
    · obtain rfl := List.mem_singleton.mp hlast
      exact .inr (.inr ⟨sourceInfo, rfl⟩)

theorem Split.addsNeverTakenBranch (h : Split ctx body curr next place blockingPlace mutant)
    (hpair : ConsecutiveIn body curr next) : AddsNeverTakenBranch body mutant.body curr := by
  obtain ⟨data, sourceInfo, ty, blockingTy, hdata, -, -, -, hdecls, hblocks⟩ := h.exists_block
  refine
    { split := h.blockSplit hpair
      blocks_length := ?_
      no_successor := ?_
      entered_from := ?_
      never_taken := ?_
      localDecls := ?_ }
  · rw [hblocks, splitBlocks]
    simp
  · refine ⟨⟨[reborrow sourceInfo body.localDecls.length place,
      reborrow sourceInfo (body.localDecls.length + 1) blockingPlace],
      some ⟨sourceInfo, .unreachable⟩, false⟩, ?_, rfl⟩
    rw [hblocks, getElem?_splitBlocks_sequence]
  · intro htargets bb block hblock htarget
    rcases h.terminator_of_mem hblock with ⟨old, hold, hsame⟩ | ⟨hbb, -⟩ | ⟨_, hunreachable⟩
    · -- an edge of the body leads to a block of the body
      rw [BasicBlockData.successors, hsame] at htarget
      have hlt : body.basicBlocks.length + 1 < body.basicBlocks.length :=
        htargets old hold _ htarget
      omega
    · exact hbb
    · simp [BasicBlockData.successors, hunreachable, TerminatorKind.successors,
        TerminatorKind.realSuccessors] at htarget
  · intro htargets block hblock terminator hterminator htarget
    obtain ⟨bb, hbb⟩ := List.mem_iff_getElem?.mp hblock
    rcases h.terminator_of_mem hbb with ⟨old, hold, hsame⟩ | ⟨-, _, hhead⟩ | ⟨_, hunreachable⟩
    · have hsucc : body.basicBlocks.length + 1 ∈ old.successors := by
        rw [BasicBlockData.successors, ← hsame, hterminator]
        exact terminator.kind.realSuccessors_subset htarget
      have hlt : body.basicBlocks.length + 1 < body.basicBlocks.length :=
        htargets old hold _ hsucc
      omega
    · rw [hhead] at hterminator
      cases hterminator
      have hsame : body.basicBlocks.length + 1 = body.basicBlocks.length :=
        List.mem_singleton.mp htarget
      omega
    · rw [hunreachable] at hterminator
      cases hterminator
      exact absurd htarget List.not_mem_nil
  · rw [hdecls]
    exact List.prefix_append _ _

end Split

/-! ## The same executions -/

/-- The positions of the body and of the mutant that correspond, when block `b`
    is split after its statement `i` into itself and block `n`. -/
inductive SplitAt (b : BasicBlock) (i n : Nat) : Control → Control → Prop
  | left : SplitAt b i n .left .left
  | other {bb : BasicBlock} {k : Nat} (hne : bb ≠ b) (hlt : bb < n) :
      SplitAt b i n (.at ⟨bb, k⟩) (.at ⟨bb, k⟩)
  | head {k : Nat} (hle : k ≤ i + 1) : SplitAt b i n (.at ⟨b, k⟩) (.at ⟨b, k⟩)
  | tail (j : Nat) : SplitAt b i n (.at ⟨b, i + 1 + j⟩) (.at ⟨n, j⟩)

/-- The starts of blocks correspond to themselves. -/
theorem SplitAt.start (b : BasicBlock) (i : Nat) {n : Nat} {bb : BasicBlock} (h : bb < n) :
    SplitAt b i n (.at ⟨bb, 0⟩) (.at ⟨bb, 0⟩) := by
  by_cases hbb : bb = b
  · subst hbb
    exact .head (Nat.zero_le _)
  · exact .other hbb h

theorem SplitAt.of_goesTo {b : BasicBlock} {i n : Nat} {kind : TerminatorKind}
    {control : Control} (h : kind.GoesTo control)
    (htargets : ∀ target ∈ kind.realSuccessors, target < n) : SplitAt b i n control control := by
  cases h with
  | block htarget => exact SplitAt.start b i (htargets _ htarget)
  | leave => exact .left

section Simulation

variable {body mutantBody : Body} {curr : Location} {block head tail : BasicBlockData}

theorem realSuccessors_lt (htargets : TargetsExist body) {bb : BasicBlock}
    {data : BasicBlockData} (hdata : body.basicBlocks[bb]? = some data) {terminator : Terminator}
    (hterminator : data.terminator = some terminator) :
    ∀ target ∈ terminator.kind.realSuccessors, target < body.basicBlocks.length := by
  intro target htarget
  refine htargets data (List.mem_of_getElem? hdata) target ?_
  rw [BasicBlockData.successors, hterminator]
  exact terminator.kind.realSuccessors_subset htarget

theorem BlockSplit.length_head (h : BlockSplit body mutantBody curr block head tail) :
    head.statements.length = curr.statementIndex + 1 := by
  rw [h.head_statements, List.length_take]
  have hlt := h.index_lt
  omega

theorem BlockSplit.length_tail (h : BlockSplit body mutantBody curr block head tail) :
    curr.statementIndex + 1 + tail.statements.length = block.statements.length := by
  rw [← h.append_statements, List.length_append, h.length_head]

/-- The statements up to the split are those of the head. -/
theorem BlockSplit.getElem?_head (h : BlockSplit body mutantBody curr block head tail) {k : Nat}
    (hk : k < curr.statementIndex + 1) : head.statements[k]? = block.statements[k]? := by
  rw [← h.append_statements, List.getElem?_append_left (by rwa [h.length_head])]

/-- The statements after it are those of the tail. -/
theorem BlockSplit.getElem?_tail (h : BlockSplit body mutantBody curr block head tail) (j : Nat) :
    tail.statements[j]? = block.statements[curr.statementIndex + 1 + j]? := by
  rw [← h.append_statements, List.getElem?_append_right (by rw [h.length_head]; omega),
    h.length_head, Nat.add_sub_cancel_left]

/-- At the end of the head control goes on in the tail, and nowhere else. -/
theorem BlockSplit.enter (h : BlockSplit body mutantBody curr block head tail)
    {label : Option Executed} {control : Control} :
    mutantBody.Step {curr.block} (.at ⟨curr.block, curr.statementIndex + 1⟩) label control ↔
      label = none ∧ control = .at ⟨body.basicBlocks.length, 0⟩ := by
  obtain ⟨sourceInfo, hterminator⟩ := h.head_terminator
  constructor
  · intro hstep
    cases hstep with
    | statement hdata hstatement =>
      rw [h.head_eq] at hdata
      cases hdata
      have hlt := (List.getElem?_eq_some_iff.mp hstatement).1
      -- the statements of the head are behind
      rw [h.length_head] at hlt
      omega
    | terminator hdata hend hterm hseen hgoes => exact absurd rfl hseen
    | silent hdata hend hterm hsilent hgoes =>
      rw [h.head_eq] at hdata
      cases hdata
      rw [hterminator] at hterm
      cases hterm
      -- the imaginary target is not gone to
      cases hgoes with
      | block htarget =>
        rw [List.mem_singleton.mp htarget]
        exact ⟨rfl, rfl⟩
      | leave hleaves => exact absurd hleaves (by simp [TerminatorKind.leavesBody,
          TerminatorKind.realSuccessors])
  · rintro ⟨rfl, rfl⟩
    exact .silent h.head_eq h.length_head.symm hterminator rfl (.block List.mem_cons_self)

/-- Away from the split block the two bodies take the same steps. -/
theorem BlockSplit.step_other (h : BlockSplit body mutantBody curr block head tail)
    {bb : BasicBlock} (hne : bb ≠ curr.block) (hlt : bb < body.basicBlocks.length) {k : Nat}
    {label : Option Executed} {control : Control} :
    mutantBody.Step {curr.block} (.at ⟨bb, k⟩) label control ↔
      body.Step ∅ (.at ⟨bb, k⟩) label control := by
  have hsame := h.other_blocks bb hne hlt
  constructor
  · intro hstep
    cases hstep with
    | statement hdata hstatement => exact .statement (hsame ▸ hdata) hstatement
    | terminator hdata hend hterminator _ hgoes =>
      exact .terminator (hsame ▸ hdata) hend hterminator (Set.notMem_empty bb) hgoes
    | silent _ _ _ hsilent => exact absurd hsilent hne
  · intro hstep
    cases hstep with
    | statement hdata hstatement => exact .statement (hsame ▸ hdata) hstatement
    | terminator hdata hend hterminator _ hgoes =>
      exact .terminator (hsame ▸ hdata) hend hterminator hne hgoes
    | silent _ _ _ hsilent => exact absurd hsilent (Set.notMem_empty bb)

/-- In the head the two bodies execute the same statement. -/
theorem BlockSplit.step_head (h : BlockSplit body mutantBody curr block head tail) {k : Nat}
    (hk : k < curr.statementIndex + 1) {label : Option Executed} {control : Control} :
    mutantBody.Step {curr.block} (.at ⟨curr.block, k⟩) label control ↔
      body.Step ∅ (.at ⟨curr.block, k⟩) label control := by
  have hsame := h.getElem?_head hk
  have hlt := h.index_lt
  constructor
  · intro hstep
    cases hstep with
    | statement hdata hstatement =>
      rw [h.head_eq] at hdata
      cases hdata
      exact .statement h.block_eq (hsame ▸ hstatement)
    | terminator _ _ _ hseen => exact absurd rfl hseen
    | silent hdata hend =>
      rw [h.head_eq] at hdata
      cases hdata
      rw [h.length_head] at hend
      omega
  · intro hstep
    cases hstep with
    | statement hdata hstatement =>
      rw [h.block_eq] at hdata
      cases hdata
      exact .statement h.head_eq (hsame ▸ hstatement)
    | terminator hdata hend =>
      rw [h.block_eq] at hdata
      cases hdata
      omega
    | silent _ _ _ hsilent => exact absurd hsilent (Set.notMem_empty _)

theorem BlockSplit.eq_of_step_head (h : BlockSplit body mutantBody curr block head tail) {k : Nat}
    (hk : k < curr.statementIndex + 1) {label : Option Executed} {control : Control}
    (hstep : body.Step ∅ (.at ⟨curr.block, k⟩) label control) :
    control = .at ⟨curr.block, k + 1⟩ := by
  cases hstep with
  | statement => rfl
  | terminator hdata hend =>
    rw [h.block_eq] at hdata
    cases hdata
    have hlt := h.index_lt
    omega
  | silent _ _ _ hsilent => exact absurd hsilent (Set.notMem_empty _)

/-- In the tail the mutant does what the body does in the rest of its block. -/
theorem BlockSplit.step_tail_of_body (h : BlockSplit body mutantBody curr block head tail)
    (htargets : TargetsExist body) {j : Nat} {label : Option Executed} {control : Control}
    (hstep : body.Step ∅ (.at ⟨curr.block, curr.statementIndex + 1 + j⟩) label control) :
    ∃ control', mutantBody.Step {curr.block} (.at ⟨body.basicBlocks.length, j⟩) label control' ∧
      SplitAt curr.block curr.statementIndex body.basicBlocks.length control control' := by
  have hblock : curr.block < body.basicBlocks.length :=
    (List.getElem?_eq_some_iff.mp h.block_eq).1
  cases hstep with
  | statement hdata hstatement =>
    rw [h.block_eq] at hdata
    cases hdata
    rw [← h.getElem?_tail] at hstatement
    exact ⟨_, .statement h.tail_eq hstatement, .tail (j + 1)⟩
  | terminator hdata hend hterminator _ hgoes =>
    rw [h.block_eq] at hdata
    cases hdata
    have hend' : j = tail.statements.length := by
      have hlength := h.length_tail
      omega
    refine ⟨_, .terminator h.tail_eq hend' (h.tail_terminator.trans hterminator)
      (Nat.ne_of_gt hblock) hgoes, ?_⟩
    exact .of_goesTo hgoes (realSuccessors_lt htargets h.block_eq hterminator)
  | silent _ _ _ hsilent => exact absurd hsilent (Set.notMem_empty _)

theorem BlockSplit.step_body_of_tail (h : BlockSplit body mutantBody curr block head tail)
    (htargets : TargetsExist body) {j : Nat} {label : Option Executed} {control : Control}
    (hstep : mutantBody.Step {curr.block} (.at ⟨body.basicBlocks.length, j⟩) label control) :
    ∃ control', body.Step ∅ (.at ⟨curr.block, curr.statementIndex + 1 + j⟩) label control' ∧
      SplitAt curr.block curr.statementIndex body.basicBlocks.length control' control := by
  have hblock : curr.block < body.basicBlocks.length :=
    (List.getElem?_eq_some_iff.mp h.block_eq).1
  cases hstep with
  | statement hdata hstatement =>
    rw [h.tail_eq] at hdata
    cases hdata
    rw [h.getElem?_tail] at hstatement
    exact ⟨_, .statement h.block_eq hstatement, .tail (j + 1)⟩
  | terminator hdata hend hterminator _ hgoes =>
    rw [h.tail_eq] at hdata
    cases hdata
    rw [h.tail_terminator] at hterminator
    refine ⟨_, .terminator h.block_eq (by rw [hend, h.length_tail]) hterminator
      (Set.notMem_empty _) hgoes, ?_⟩
    exact .of_goesTo hgoes (realSuccessors_lt htargets h.block_eq hterminator)
  | silent _ _ _ hsilent => exact absurd hsilent (Nat.ne_of_gt hblock)

/-- A step from another block leads to corresponding positions. -/
theorem BlockSplit.splitAt_of_step (htargets : TargetsExist body) {bb : BasicBlock}
    (hne : bb ≠ curr.block) (hlt : bb < body.basicBlocks.length) {k : Nat}
    {label : Option Executed} {control : Control}
    (hstep : body.Step ∅ (.at ⟨bb, k⟩) label control) :
    SplitAt curr.block curr.statementIndex body.basicBlocks.length control control := by
  cases hstep with
  | statement => exact .other hne hlt
  | terminator hdata _ hterminator _ hgoes =>
    exact .of_goesTo hgoes (realSuccessors_lt htargets hdata hterminator)
  | silent _ _ _ hsilent => exact absurd hsilent (Set.notMem_empty bb)

/-- Within the head there is always a statement to execute. -/
theorem BlockSplit.exists_step_head (h : BlockSplit body mutantBody curr block head tail)
    {k : Nat} (hk : k < curr.statementIndex + 1) :
    ∃ label control, body.Step ∅ (.at ⟨curr.block, k⟩) label control := by
  have hlt : k < block.statements.length := by
    have hindex := h.index_lt
    omega
  exact ⟨_, _, .statement h.block_eq (List.getElem?_eq_getElem hlt)⟩

/-- The mutant answers the steps of the body; where a step leaves the head, it
    enters the tail first. -/
theorem BlockSplit.simulation (h : BlockSplit body mutantBody curr block head tail)
    (htargets : TargetsExist body) :
    Lts.Simulation (body.lts ∅) (mutantBody.lts {curr.block})
      (SplitAt curr.block curr.statementIndex body.basicBlocks.length) where
  step := by
    intro control control₁ label control' hR hstep
    cases hR with
    | left => cases hstep
    | other hne hlt =>
      have hanswer := (h.step_other hne hlt).mpr hstep
      exact ⟨control₁, .of_step hanswer, BlockSplit.splitAt_of_step htargets hne hlt hstep⟩
    | head hle =>
      rcases Nat.lt_or_eq_of_le hle with hk | rfl
      · obtain rfl := h.eq_of_step_head hk hstep
        exact ⟨_, .of_step ((h.step_head hk).mpr hstep), .head hk⟩
      · obtain ⟨control₁', hanswer, hR'⟩ := h.step_tail_of_body htargets (j := 0) hstep
        exact ⟨control₁', .silent (h.enter.mpr ⟨rfl, rfl⟩) (.of_step hanswer), hR'⟩
    | tail j =>
      obtain ⟨control₁', hanswer, hR'⟩ := h.step_tail_of_body htargets hstep
      exact ⟨control₁', .of_step hanswer, hR'⟩
  final := by
    intro control control' hR hfinal
    have htail : ∀ j, (body.lts ∅).Final (.at ⟨curr.block, curr.statementIndex + 1 + j⟩) →
        (mutantBody.lts {curr.block}).Final (.at ⟨body.basicBlocks.length, j⟩) := by
      intro j hfinal label control hstep
      obtain ⟨control', hstep', -⟩ := h.step_body_of_tail htargets hstep
      exact hfinal _ _ hstep'
    cases hR with
    | left => exact ⟨.left, .nil _, by rintro _ _ ⟨⟩⟩
    | other hne hlt =>
      exact ⟨_, .nil _, fun _ _ hstep => hfinal _ _ ((h.step_other hne hlt).mp hstep)⟩
    | head hle =>
      rcases Nat.lt_or_eq_of_le hle with hk | rfl
      · obtain ⟨_, _, hstep⟩ := h.exists_step_head hk
        exact absurd hstep (hfinal _ _)
      · exact ⟨_, .silent (h.enter.mpr ⟨rfl, rfl⟩) (.nil _), htail 0 hfinal⟩
    | tail j => exact ⟨_, .nil _, htail j hfinal⟩

/-- The body answers the steps of the mutant, and waits while it enters the tail. -/
theorem BlockSplit.simulation_symm (h : BlockSplit body mutantBody curr block head tail)
    (htargets : TargetsExist body) :
    Lts.Simulation (mutantBody.lts {curr.block}) (body.lts ∅) fun control' control =>
      SplitAt curr.block curr.statementIndex body.basicBlocks.length control control' where
  step := by
    intro control' control₁' label control hR hstep
    cases hR with
    | left => cases hstep
    | other hne hlt =>
      have hanswer := (h.step_other hne hlt).mp hstep
      exact ⟨control₁', .of_step hanswer, BlockSplit.splitAt_of_step htargets hne hlt hanswer⟩
    | head hle =>
      rcases Nat.lt_or_eq_of_le hle with hk | rfl
      · have hanswer := (h.step_head hk).mp hstep
        obtain rfl := h.eq_of_step_head hk hanswer
        exact ⟨_, .of_step hanswer, .head hk⟩
      · obtain ⟨rfl, rfl⟩ := h.enter.mp hstep
        exact ⟨_, .nil _, .tail 0⟩
    | tail j =>
      obtain ⟨control₁, hanswer, hR'⟩ := h.step_body_of_tail htargets hstep
      exact ⟨control₁, .of_step hanswer, hR'⟩
  final := by
    intro control' control hR hfinal
    cases hR with
    | left => exact ⟨.left, .nil _, by rintro _ _ ⟨⟩⟩
    | other hne hlt =>
      exact ⟨_, .nil _, fun _ _ hstep => hfinal _ _ ((h.step_other hne hlt).mpr hstep)⟩
    | head hle =>
      rcases Nat.lt_or_eq_of_le hle with hk | rfl
      · obtain ⟨_, _, hstep⟩ := h.exists_step_head hk
        exact absurd ((h.step_head hk).mpr hstep) (hfinal _ _)
      · exact absurd (h.enter.mpr ⟨rfl, rfl⟩) (hfinal _ _)
    | tail j =>
      refine ⟨_, .nil _, fun _ _ hstep => ?_⟩
      obtain ⟨_, hstep', -⟩ := h.step_tail_of_body htargets hstep
      exact hfinal _ _ hstep'

end Simulation

/-- After a statement of the body, an attempt at an expiry order returns the body
    with a branch that is never taken, and from every block of the body the
    mutant executes exactly what the body does, the false edge apart. -/
theorem ExpiryOrder.adds_never_taken_branch {ctx : CompilerCtxt} {body : Body}
    {curr next : Location} {place blockingPlace : Pcg.Place} {mutant : Mutant}
    (hpair : ConsecutiveIn body curr next)
    (hbuilt : ExpiryOrder.attempt ctx body curr next (place, blockingPlace) = .ok (some mutant)) :
    AddsNeverTakenBranch body mutant.body curr ∧
      (TargetsExist body → ∀ start < body.basicBlocks.length,
        Lts.SameTraces (body.lts ∅) (.at ⟨start, 0⟩)
          (mutant.body.lts {curr.block}) (.at ⟨start, 0⟩)) := by
  have hsplit := ExpiryOrder.attempt_inv hbuilt
  refine ⟨hsplit.addsNeverTakenBranch hpair, fun htargets start hstart => ?_⟩
  obtain ⟨block, head, tail, h⟩ := hsplit.blockSplit hpair
  exact Lts.sameTraces_of_simulations (h.simulation htargets) (h.simulation_symm htargets)
    (SplitAt.start curr.block curr.statementIndex hstart)

/-- The sample split between its last two assignments. -/
theorem ExpiryOrder.adds_never_taken_branch_sample : ∃ mutant,
    ExpiryOrder.attempt Sample.ctx Sample.body Sample.curr.location Sample.next.location
      (Sample.x, Sample.r) = .ok (some mutant) ∧
    AddsNeverTakenBranch Sample.body mutant.body Sample.curr.location ∧
    Lts.SameTraces (Sample.body.lts ∅) (.at ⟨0, 0⟩) (mutant.body.lts {0}) (.at ⟨0, 0⟩) := by
  obtain ⟨mutant, hbuilt⟩ :=
    MutationKind.attempt_isSome Sample.consecutive Sample.expiry_candidates List.mem_cons_self
  obtain ⟨hadds, htraces⟩ := ExpiryOrder.adds_never_taken_branch Sample.consecutive hbuilt
  have hdiscipline : CleanupDiscipline Sample.body := by decide
  exact ⟨mutant, hbuilt, hadds, htraces hdiscipline.targetsExist 0 (by decide)⟩

end MutationTesting.Mutator
