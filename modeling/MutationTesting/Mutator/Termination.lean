/-
  MutationTesting.Mutator.Termination

  A traversal of finite streams to its end: every call of `next` returns, the
  traversal is itself a finite stream, and the calls of `make_stream` are made
  in the order of blocks and indices, each once the stream before is exhausted.
-/
import MutationTesting.Mutator.Reachable

namespace MutationTesting.Mutator

open MutationTesting.Rust MutationTesting.Mir MutationTesting.Pcg

set_option linter.dupNamespace false

/-! ## The order of the calls -/

/-- `call` is for an earlier block than `call'`, or for an earlier pair of it. -/
def Call.Before (call call' : Call) : Prop :=
  call.block < call'.block ∨ (call.block = call'.block ∧ call.index < call'.index)

/-- The number of blocks taken from the queue. -/
def Mutator.taken {σ : Type} (m : Mutator σ) : Nat :=
  m.body.basicBlocks.length - m.basicBlocks.length

/-- The calls so far are in order, and before the pair the state has come to,
    which is in the block taken last. -/
structure InOrder {σ : Type} (m : Mutator σ) : Prop where
  calls_inOrder : m.calls.Pairwise Call.Before
  queue_le : m.basicBlocks.length ≤ m.body.basicBlocks.length
  taken_pos : m.bbStmts ≠ none → 0 < m.taken
  calls_before : ∀ call ∈ m.calls,
    call.block < m.taken ∧ (Nat.succ call.block = m.taken → call.index < m.stmtIdx)

namespace InOrder

variable {σ : Type} {m : Mutator σ}

theorem init (mutation : Mutation σ) (ctx : CompilerCtxt) (analysis : PcgOutput) (body : Body) :
    InOrder (.new mutation ctx analysis body) where
  calls_inOrder := .nil
  queue_le := by simp [Mutator.new]
  taken_pos h := absurd rfl h
  calls_before call hcall := absurd hcall List.not_mem_nil

theorem withMutants (h : InOrder m) (mutants : Option σ) : InOrder (m.withMutants mutants) :=
  ⟨h.calls_inOrder, h.queue_le, h.taken_pos, h.calls_before⟩

/-- The new call is for the pair the state has come to. -/
theorem startStream (h : InOrder m) {curr next : PcgLocation} (hpair : m.pair = some (curr, next))
    (stream : σ) : InOrder (m.startStream curr next stream) := by
  obtain ⟨stmts, hstmts, -, -⟩ := Mutator.pair_eq_some hpair
  have hpos : 0 < m.taken := h.taken_pos (by rw [hstmts]; exact Option.some_ne_none stmts)
  have hvisiting : Nat.succ m.visiting = m.taken := Nat.succ_pred_eq_of_pos hpos
  refine ⟨?_, h.queue_le, h.taken_pos, ?_⟩
  · rw [Mutator.startStream_calls, List.pairwise_append]
    refine ⟨h.calls_inOrder, List.pairwise_singleton _ _, ?_⟩
    intro call hcall call' hcall'
    obtain rfl := List.mem_singleton.mp hcall'
    -- an earlier call is for an earlier block, or for an earlier index of this one
    obtain ⟨hblock, hindex⟩ := h.calls_before call hcall
    rw [← hvisiting] at hblock hindex
    rcases Nat.lt_or_eq_of_le (Nat.le_of_lt_succ hblock) with hlt | hsame
    · exact .inl hlt
    · exact .inr ⟨hsame, hindex (congrArg Nat.succ hsame)⟩
  · intro call hcall
    rw [Mutator.startStream_calls] at hcall
    rcases List.mem_append.mp hcall with hcall | hcall
    · obtain ⟨hblock, hindex⟩ := h.calls_before call hcall
      exact ⟨hblock, fun hlast => (hindex hlast).trans (Nat.lt_succ_self _)⟩
    · obtain rfl := List.mem_singleton.mp hcall
      exact ⟨hvisiting ▸ Nat.lt_succ_self _, fun _ => Nat.lt_succ_self _⟩

/-- All calls so far are for blocks before the one taken now. -/
theorem takeBlock (h : InOrder m) (hne : m.basicBlocks ≠ []) : InOrder m.takeBlock := by
  have hpos := List.length_pos_of_ne_nil hne
  have hle := h.queue_le
  have htail : m.takeBlock.basicBlocks.length = m.basicBlocks.length - 1 := List.length_tail
  have htaken : m.takeBlock.taken = m.taken + 1 := by
    rw [Mutator.taken, Mutator.taken, htail, Mutator.takeBlock_body]
    omega
  refine ⟨h.calls_inOrder, ?_, fun _ => by omega, ?_⟩
  · rw [htail, Mutator.takeBlock_body]
    omega
  · intro call hcall
    obtain ⟨hblock, -⟩ := h.calls_before call hcall
    rw [htaken]
    refine ⟨hblock.trans (Nat.lt_succ_self _), fun hlast => ?_⟩
    rw [Nat.succ.inj hlast] at hblock
    exact absurd hblock (Nat.lt_irrefl _)

variable [MutantIterator σ]

theorem round (h : InOrder m) {m' : Mutator σ} {mutant : Option Mutant}
    (hne : m.basicBlocks ≠ []) (hround : m.round = .ok (mutant, m')) : InOrder m' := by
  rcases Mutator.round_cases hround with ⟨-, mutants, rfl⟩ |
    ⟨-, curr, next, stream, hpair, -, rfl⟩ | ⟨-, -, mutants, rfl⟩
  · exact h.withMutants mutants
  · exact h.startStream hpair stream
  · exact (h.withMutants mutants).takeBlock hne

theorem of_loopsTo {mutation : Mutation σ} {ctx : CompilerCtxt} {analysis : PcgOutput}
    {body : Body} (hm : (Mutator.new mutation ctx analysis body).LoopsTo m) : InOrder m := by
  induction hm with
  | refl => exact init mutation ctx analysis body
  | round _ hne hround ih => exact ih.round hne hround

end InOrder

/-! ## Finite streams -/

section Finite

variable {σ : Type} [MutantIterator σ] {mutation : Mutation σ} {ctx : CompilerCtxt}
  {analysis : PcgOutput} {body : Body} {m m' : Mutator σ}

/-- Every pair the blocks ask for makes a finite stream. -/
def FiniteStreams (mutation : Mutation σ) (ctx : CompilerCtxt) (analysis : PcgOutput)
    (body : Body) : Prop :=
  ∀ bb < body.basicBlocks.length, ∀ call ∈ owed analysis bb, ∃ stream ms,
    mutation.makeStream ctx body call.curr call.next = .ok stream ∧ Produces stream ms

theorem FiniteStreams.hasStreams (h : FiniteStreams mutation ctx analysis body) :
    ∃ streams, HasStreams mutation ctx body streams
      ((List.range body.basicBlocks.length).flatMap (owed analysis)) := by
  classical
  let streams (curr next : PcgLocation) : List Mutant :=
    if h : ∃ ms stream, mutation.makeStream ctx body curr next = .ok stream ∧ Produces stream ms
    then h.choose else []
  refine ⟨streams, ?_⟩
  intro call hcall
  obtain ⟨bb, hbb, hcall⟩ := List.mem_flatMap.mp hcall
  obtain ⟨stream, ms, hstream, hproduces⟩ := h bb (List.mem_range.mp hbb) call hcall
  have hexists : ∃ ms stream, mutation.makeStream ctx body call.curr call.next = .ok stream ∧
      Produces stream ms := ⟨ms, stream, hstream, hproduces⟩
  have hchosen : streams call.curr call.next = hexists.choose := dif_pos hexists
  rw [hchosen]
  exact hexists.choose_spec

/-- Polling leaves a finite stream, and finds nothing only in an exhausted one. -/
theorem Mutator.poll_of_holds {ms : List Mutant} (hms : Holds m.mutants ms)
    {mutant : Option Mutant} (h : m.poll = .ok (mutant, m')) :
    (∃ ms', Holds m'.mutants ms') ∧
      (mutant = none → ∀ stream, m.mutants = some stream → Spent stream) := by
  rcases poll_cases h with ⟨hs, -, rfl⟩ | ⟨stream, stream', hs, hnext, rfl⟩
  · refine ⟨⟨ms, hms⟩, fun _ stream hstream => ?_⟩
    rw [hs] at hstream
    cases hstream
  · rw [hs] at hms ⊢
    -- what is left of a finite stream is finite
    obtain ⟨ms', hms'⟩ := Produces.of_next hms hnext
    refine ⟨⟨ms', hms'⟩, ?_⟩
    rintro rfl _ hsame
    cases hsame
    exact Produces.spent_of_next hms hnext

namespace Traversing

/-- The stream made for the pair the state has come to is finite. -/
theorem exists_stream (h : Traversing mutation ctx analysis body m)
    (hfinite : FiniteStreams mutation ctx analysis body) {curr next : PcgLocation}
    (hpair : m.pair = some (curr, next)) : ∃ stream ms,
      m.mutation.makeStream m.ctx m.body curr next = .ok stream ∧ Produces stream ms := by
  obtain ⟨hlt, howed⟩ := h.mem_owed_of_pair hpair
  rw [h.mutation_eq, h.ctx_eq, h.body_eq]
  exact hfinite m.visiting hlt _ howed

/-- Whatever a round does, the current stream is finite after it. -/
theorem holds_round (h : Traversing mutation ctx analysis body m)
    (hfinite : FiniteStreams mutation ctx analysis body) {mutant : Option Mutant}
    (hround : m.round = .ok (mutant, m')) {ms : List Mutant} (hms : Mutator.Holds m.mutants ms) :
    ∃ ms', Mutator.Holds m'.mutants ms' := by
  rcases Mutator.round_inv hround with ⟨x, -, hpoll⟩ |
    ⟨-, mutants, hpoll, ⟨curr, next, stream, hpair, hstream, rfl⟩ | ⟨-, rfl⟩⟩
  · exact (Mutator.poll_of_holds hms hpoll).1
  · obtain ⟨stream', ms', hstream', hproduces⟩ := h.exists_stream hfinite hpair
    cases hstream.symm.trans hstream'
    exact ⟨ms', hproduces⟩
  · exact (Mutator.poll_of_holds hms hpoll).1

/-- A round returns: no stream aborts, and the sanity check succeeds. -/
theorem round_isOk (h : Traversing mutation ctx analysis body m)
    (hfinite : FiniteStreams mutation ctx analysis body) (hne : m.basicBlocks ≠ [])
    {ms : List Mutant} (hms : Mutator.Holds m.mutants ms) : ∃ r, m.round = .ok r := by
  cases ms with
  | nil =>
    -- the stream is exhausted, so the round makes the next or takes a block
    cases hpair : m.pair with
    | none =>
      obtain ⟨mutants, -, hround⟩ := Mutator.round_of_pair_none hms hpair hne
      exact ⟨_, hround⟩
    | some pair =>
      obtain ⟨curr, next⟩ := pair
      obtain ⟨stream, -, hstream, -⟩ := h.exists_stream hfinite hpair
      exact ⟨_, Mutator.round_of_pair hms hpair hstream⟩
  | cons mutant ms =>
    -- the stream has a mutant left, which the round returns
    cases hs : m.mutants with
    | none =>
      rw [hs] at hms
      cases hms
    | some stream =>
      rw [hs] at hms
      obtain ⟨last, hyields, -⟩ := hms
      cases hyields with
      | @more _ stream' _ _ _ hnext _ =>
        exact ⟨(some mutant, m.withMutants (some stream')),
          by simp [Mutator.round, Mutator.poll, hs, hnext]⟩

theorem holds_of_loopsTo (hfinite : FiniteStreams mutation ctx analysis body)
    (hm : (Mutator.new mutation ctx analysis body).LoopsTo m) :
    ∃ ms, Mutator.Holds m.mutants ms := by
  induction hm with
  | refl => exact ⟨[], rfl⟩
  | round hm _ hround ih =>
    obtain ⟨ms, hms⟩ := ih
    exact (Traversing.of_loopsTo hm).holds_round hfinite hround hms

end Traversing

/-- A round makes a new stream only when the one before it is exhausted. -/
theorem Mutator.spent_of_new_call {ms : List Mutant} (hms : Holds m.mutants ms)
    {mutant : Option Mutant} (hround : m.round = .ok (mutant, m')) (hcalls : m'.calls ≠ m.calls)
    {stream : σ} (hstream : m.mutants = some stream) : Spent stream := by
  rcases round_inv hround with ⟨x, -, hpoll⟩ | ⟨-, mutants, hpoll, -⟩
  · obtain ⟨mutants, rfl⟩ := poll_inv hpoll
    exact absurd rfl hcalls
  · exact (poll_of_holds hms hpoll).2 rfl stream hstream

theorem Mutator.basicBlocks_of_next_none (h : m.next = .ok (none, m')) : m'.basicBlocks = [] := by
  refine next_induction (P := fun _ r => r.1 = none → r.2.basicBlocks = []) ?_ ?_ ?_ h rfl
  · exact fun m hnil _ => hnil
  · intro m mutant m₁ _ _ hnone
    cases hnone
  · exact fun m m₁ r _ _ ih hnone => ih hnone

/-- A traversal that has returned `None` returns nothing else any more. -/
theorem Mutator.spent_of_yields {ms : List Mutant} (h : Yields m ms m') : Spent m' := by
  induction h with
  | done hnext =>
    have hnil := basicBlocks_of_next_none hnext
    exact ⟨fun m => m.basicBlocks = [], hnil, fun m hm => ⟨m, next_of_nil hm, hm⟩⟩
  | more _ _ ih => exact ih

end Finite

/-! ## The traversal -/

/-- The traversal is sound and comes to an end.  The fields are about every state
    its calls of `next` leave, and about every state of their loops. -/
structure SoundTraversal {σ : Type} [MutantIterator σ] (mutation : Mutation σ)
    (ctx : CompilerCtxt) (analysis : PcgOutput) (body : Body) : Prop where
  produces : ∃ returned, Produces (Mutator.new mutation ctx analysis body) returned
  next_isOk : ∀ m, Reaches (Mutator.new mutation ctx analysis body) m →
    ∃ mutant m', m.next = .ok (mutant, m')
  comes_to_end : ∀ m, Reaches (Mutator.new mutation ctx analysis body) m →
    ∃ left, Produces m left
  round_isOk : ∀ m, (Mutator.new mutation ctx analysis body).LoopsTo m → m.basicBlocks ≠ [] →
    ∃ r, m.round = .ok r
  calls_consecutive : ∀ m, (Mutator.new mutation ctx analysis body).LoopsTo m →
    ∀ call ∈ m.calls, call.block < body.basicBlocks.length ∧ ∃ pcgBb,
      analysis.getAllForBb call.block = .ok (some pcgBb) ∧
      pcgBb.statements[call.index]? = some call.curr ∧
      pcgBb.statements[call.index + 1]? = some call.next
  calls_inOrder : ∀ m, (Mutator.new mutation ctx analysis body).LoopsTo m →
    m.calls.Pairwise Call.Before
  stream_exhausted : ∀ m, (Mutator.new mutation ctx analysis body).LoopsTo m →
    ∀ mutant m', m.round = .ok (mutant, m') → m'.calls ≠ m.calls →
    ∀ stream, m.mutants = some stream → Spent stream

/-- With finite streams every traversal is sound and comes to an end, whatever
    the analysis answers for the blocks. -/
theorem Mutator.soundTraversal {σ : Type} [MutantIterator σ] {mutation : Mutation σ}
    {ctx : CompilerCtxt} {analysis : PcgOutput} {body : Body}
    (hfinite : FiniteStreams mutation ctx analysis body) :
    SoundTraversal mutation ctx analysis body := by
  obtain ⟨streams, hstreams⟩ := hfinite.hasStreams
  obtain ⟨last, hyields, -⟩ := exists_yields_new mutation ctx analysis body rfl
    (fun c hc => hstreams c (mem_flatMap_range_of_le (Nat.sub_le _ _) hc))
  -- the whole traversal is a finite stream, and so is what is left of it
  have hproduces : Produces (new mutation ctx analysis body) _ :=
    ⟨last, hyields, spent_of_yields hyields⟩
  refine
    { produces := ⟨_, hproduces⟩
      next_isOk := ?_
      comes_to_end := fun m hm => hproduces.of_reaches hm
      round_isOk := ?_
      calls_consecutive := ?_
      calls_inOrder := fun m hm => (InOrder.of_loopsTo hm).calls_inOrder
      stream_exhausted := ?_ }
  · intro m hm
    obtain ⟨left, hleft⟩ := hproduces.of_reaches hm
    exact hleft.next_isOk
  · intro m hm hne
    obtain ⟨ms, hms⟩ := Traversing.holds_of_loopsTo hfinite hm
    exact (Traversing.of_loopsTo hm).round_isOk hfinite hne hms
  · intro m hm call hcall
    obtain ⟨hlt, howed, -⟩ := (Traversing.of_loopsTo hm).calls call hcall
    obtain ⟨-, stmts, hstmts, hcurr, hnext⟩ := mem_owed.mp howed
    exact ⟨hlt, ⟨stmts⟩, statementsOf_eq_some.mp hstmts, hcurr, hnext⟩
  · intro m hm mutant m' hround hcalls stream hstream
    obtain ⟨ms, hms⟩ := Traversing.holds_of_loopsTo hfinite hm
    exact spent_of_new_call hms hround hcalls hstream

/-- The moves out of borrowed places of the sample. -/
theorem Mutator.soundTraversal_sample :
    SoundTraversal (MutationKind.moveFromBorrowed.mutation Sample.order) Sample.ctx
      (Sample.analysisOf Sample.body) Sample.body := by
  refine soundTraversal fun bb hbb call hcall => ?_
  have hmem : call ∈ (List.range Sample.body.basicBlocks.length).flatMap
      (owed (Sample.analysisOf Sample.body)) :=
    List.mem_flatMap.mpr ⟨bb, List.mem_range.mpr hbb, hcall⟩
  obtain ⟨stream, hstream, hproduces⟩ := Sample.hasStreams_move Sample.body call hmem
  exact ⟨stream, _, hstream, hproduces⟩

end MutationTesting.Mutator
