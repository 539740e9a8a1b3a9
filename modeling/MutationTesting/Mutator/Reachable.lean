/-
  MutationTesting.Mutator.Reachable

  The invariant of a traversal, in every state its calls of `next` can reach at
  the head of their loop, and what it gives for the splices: a pair handed to
  `make_stream` is two consecutive locations of the body, so no index of
  `maybe_next` misses.
-/
import MutationTesting.Mutator.Completeness

namespace MutationTesting.Mutator

open MutationTesting.Rust MutationTesting.Mir MutationTesting.Pcg

set_option linter.dupNamespace false

/-- The states at the head of the loop, in calls of `next` that have returned and
    in those that have not. -/
inductive Mutator.LoopsTo {σ : Type} [MutantIterator σ] (m : Mutator σ) : Mutator σ → Prop
  | refl : m.LoopsTo m
  | round {m' m'' : Mutator σ} {mutant : Option Mutant} (h : m.LoopsTo m')
      (hne : m'.basicBlocks ≠ []) (hround : m'.round = .ok (mutant, m'')) : m.LoopsTo m''

theorem Mutator.LoopsTo.of_reaches {σ : Type} [MutantIterator σ] {m m' : Mutator σ}
    (h : Reaches m m') : m.LoopsTo m' := by
  refine h.invariant (P := m.LoopsTo) ?_ .refl
  intro it it' mutant hnext hloops
  exact next_invariant (fun hne hround h => .round h hne hround) hnext hloops

/-- The state of a traversal: the queue is a final segment of the blocks, the
    statement list is the answer for the block taken last, and each call was for
    a pair of the answer for its block. -/
structure Traversing {σ : Type} (mutation : Mutation σ) (ctx : CompilerCtxt)
    (analysis : PcgOutput) (body : Body) (m : Mutator σ) : Prop where
  mutation_eq : m.mutation = mutation
  ctx_eq : m.ctx = ctx
  analysis_eq : m.analysis = analysis
  body_eq : m.body = body
  queue : ∃ k ≤ body.basicBlocks.length,
    m.basicBlocks = List.range' k (body.basicBlocks.length - k)
  stmts : ∀ stmts, m.bbStmts = some stmts →
    m.visiting < body.basicBlocks.length ∧ statementsOf analysis m.visiting = some stmts
  calls : ∀ call ∈ m.calls, call.block < body.basicBlocks.length ∧
    call ∈ owed analysis call.block ∧
    ∃ stream, mutation.makeStream ctx body call.curr call.next = .ok stream

namespace Traversing

variable {σ : Type} {mutation : Mutation σ} {ctx : CompilerCtxt} {analysis : PcgOutput}
  {body : Body} {m : Mutator σ}

theorem init : Traversing mutation ctx analysis body (.new mutation ctx analysis body) where
  mutation_eq := rfl
  ctx_eq := rfl
  analysis_eq := rfl
  body_eq := rfl
  queue := ⟨0, Nat.zero_le _, List.range_eq_range'⟩
  stmts := by
    intro stmts hstmts
    cases hstmts
  calls := by
    intro call hcall
    cases hcall

theorem withMutants (h : Traversing mutation ctx analysis body m) (mutants : Option σ) :
    Traversing mutation ctx analysis body (m.withMutants mutants) :=
  ⟨h.mutation_eq, h.ctx_eq, h.analysis_eq, h.body_eq, h.queue, h.stmts, h.calls⟩

/-- The pair the state has come to is owed by the block taken last. -/
theorem mem_owed_of_pair (h : Traversing mutation ctx analysis body m) {curr next : PcgLocation}
    (hpair : m.pair = some (curr, next)) : m.visiting < body.basicBlocks.length ∧
      (⟨m.visiting, m.stmtIdx, curr, next⟩ : Call) ∈ owed analysis m.visiting := by
  obtain ⟨stmts, hstmts, hcurr, hnext⟩ := Mutator.pair_eq_some hpair
  obtain ⟨hlt, hanswer⟩ := h.stmts stmts hstmts
  exact ⟨hlt, mem_owed.mpr ⟨rfl, stmts, hanswer, hcurr, hnext⟩⟩

theorem startStream (h : Traversing mutation ctx analysis body m) {curr next : PcgLocation}
    (hpair : m.pair = some (curr, next)) {stream : σ}
    (hstream : m.mutation.makeStream m.ctx m.body curr next = .ok stream) :
    Traversing mutation ctx analysis body (m.startStream curr next stream) := by
  refine ⟨h.mutation_eq, h.ctx_eq, h.analysis_eq, h.body_eq, h.queue, h.stmts, ?_⟩
  intro call hcall
  rcases List.mem_append.mp hcall with hcall | hcall
  · exact h.calls call hcall
  · obtain rfl := List.mem_singleton.mp hcall
    obtain ⟨hlt, howed⟩ := h.mem_owed_of_pair hpair
    rw [h.mutation_eq, h.ctx_eq, h.body_eq] at hstream
    exact ⟨hlt, howed, stream, hstream⟩

theorem takeBlock (h : Traversing mutation ctx analysis body m) (hne : m.basicBlocks ≠ []) :
    Traversing mutation ctx analysis body m.takeBlock := by
  obtain ⟨k, hk, hqueue⟩ := h.queue
  -- there is a block to take
  have hlt : k < body.basicBlocks.length := by
    rcases Nat.lt_or_ge k body.basicBlocks.length with hlt | hge
    · exact hlt
    · rw [show body.basicBlocks.length - k = 0 by omega] at hqueue
      exact absurd hqueue hne
  obtain ⟨len, hlen⟩ : ∃ len, body.basicBlocks.length - k = len + 1 :=
    ⟨body.basicBlocks.length - k - 1, by omega⟩
  rw [hlen, List.range'_succ] at hqueue
  have hhead : m.currBb = some k := by rw [Mutator.currBb, hqueue, List.head?_cons]
  have htail : m.takeBlock.basicBlocks = List.range' (k + 1) len := by
    rw [Mutator.takeBlock_basicBlocks, hqueue, List.tail_cons]
  -- it is the one that is visited from now on
  have hvisiting : m.takeBlock.visiting = k := by
    have hk' : body.basicBlocks.length - len - 1 = k := by omega
    rw [Mutator.visiting, htail, List.length_range', Mutator.takeBlock_body, h.body_eq]
    exact hk'
  refine ⟨h.mutation_eq, h.ctx_eq, h.analysis_eq, h.body_eq, ⟨k + 1, hlt, ?_⟩, ?_, h.calls⟩
  · rw [htail, show body.basicBlocks.length - (k + 1) = len by omega]
  · intro stmts hstmts
    rw [Mutator.takeBlock_bbStmts, hhead, Option.bind_some, h.analysis_eq] at hstmts
    rw [hvisiting]
    exact ⟨hlt, hstmts⟩

variable [MutantIterator σ]

/-- One round preserves the invariant. -/
theorem round (h : Traversing mutation ctx analysis body m) {m' : Mutator σ}
    {mutant : Option Mutant} (hne : m.basicBlocks ≠ []) (hround : m.round = .ok (mutant, m')) :
    Traversing mutation ctx analysis body m' := by
  rcases Mutator.round_cases hround with ⟨-, mutants, rfl⟩ |
    ⟨-, curr, next, stream, hpair, hstream, rfl⟩ | ⟨-, -, mutants, rfl⟩
  · exact h.withMutants mutants
  · exact h.startStream hpair hstream
  · exact (h.withMutants mutants).takeBlock hne

/-- The invariant holds whenever the loop is entered. -/
theorem of_loopsTo (hm : (Mutator.new mutation ctx analysis body).LoopsTo m) :
    Traversing mutation ctx analysis body m := by
  induction hm with
  | refl => exact init
  | round _ hne hround ih => exact ih.round hne hround

end Traversing

/-- No candidate is dropped and no index panics: for each pair a traversal hands
    out, each mutation's stream returns one mutant per collected candidate, the
    last candidate's first. -/
theorem Mutator.one_mutant_per_candidate {σ : Type} [MutantIterator σ] {mutation : Mutation σ}
    {ctx : CompilerCtxt} {analysis : PcgOutput} {body : Body}
    (hlocates : LocatesBlocks analysis body) {m : Mutator σ}
    (hm : (new mutation ctx analysis body).LoopsTo m) {call : Call} (hcall : call ∈ m.calls)
    {k : MutationKind} {order : HashOrder Pcg.Place} {cs : List k.Candidate}
    (hcs : k.candidates order ctx body call.curr call.next = .ok cs) :
    ∃ stream mutant, k.makeStream order ctx body call.curr call.next = .ok stream ∧
      (∀ c ∈ cs,
        k.attempt ctx body call.curr.location call.next.location c = .ok (some (mutant c))) ∧
      Produces stream (cs.reverse.map mutant) := by
  obtain ⟨hlt, howed, -⟩ := (Traversing.of_loopsTo hm).calls call hcall
  exact MutationKind.produces_of_consecutive (consecutive_of_mem_owed hlocates hlt howed) hcs

namespace Sample

/-- Two shared borrows of `x` wherever the sample is. -/
def shared (block index : Nat) : PcgLocation := point block index sharedBorrows []

end Sample

/-- The sample's traversal asks for the mutants between its last assignment and the
    terminator, and two candidates become two mutants. -/
theorem Mutator.one_mutant_per_candidate_sample : ∃ stream mutant mutant',
    MutationKind.makeStream Sample.order .mutablyLendShared Sample.ctx Sample.body
      (Sample.shared 0 4) (Sample.shared 0 5) = .ok stream ∧
    Produces stream [mutant, mutant'] := by
  have hlocates : LocatesBlocks (Sample.analysisWith Sample.shared Sample.body) Sample.body :=
    Sample.analysisWith_locatesBlocks (fun _ _ => rfl) Sample.body
  have hstreams := MutationKind.hasStreams_of_insertion (k := .mutablyLendShared) Sample.order rfl
    Sample.ctx hlocates
  obtain ⟨e, hy, hcalls⟩ := exists_yields_new
    (MutationKind.mutablyLendShared.mutation Sample.order) Sample.ctx
    (Sample.analysisWith Sample.shared Sample.body) Sample.body rfl
    (fun c hc => hstreams c (mem_flatMap_range_of_le (Nat.sub_le _ _) hc))
  have hcall : (⟨0, 4, Sample.shared 0 4, Sample.shared 0 5⟩ : Call) ∈ e.calls := by
    rw [hcalls]
    exact List.mem_flatMap.mpr ⟨0, by decide, mem_owed.mpr ⟨rfl, _, rfl, rfl, rfl⟩⟩
  have hcs : MutationKind.mutablyLendShared.candidates Sample.order Sample.ctx Sample.body
      (Sample.shared 0 4) (Sample.shared 0 5) =
      .ok [(Sample.x, .reVar 0), (Sample.x, .reVar 1)] := rfl
  obtain ⟨stream, mutant, hstream, -, hproduces⟩ :=
    one_mutant_per_candidate hlocates (.of_reaches hy.reaches) hcall hcs
  exact ⟨stream, _, _, hstream, hproduces⟩

end MutationTesting.Mutator
