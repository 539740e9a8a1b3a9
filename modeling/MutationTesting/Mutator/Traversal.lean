/-
  MutationTesting.Mutator.Traversal

  `Mutator::next` (`src/mutator/mutator_impl.rs`), which walks the blocks of a
  body and the consecutive pairs of PCG locations of each block, and hands out
  the mutants of one stream at a time.

  The work still to be done is spread over four fields: the current stream, the
  statement list, the index into it and the queue of blocks.  `pending` is what
  the last block taken from the queue still owes, `owed` what a block in the
  queue does.  The loop stops as soon as the queue is empty, which it is right
  after its last block has been taken.
-/
import MutationTesting.Mutator.Analysis
import Mathlib.Data.Nat.Basic
import Mathlib.Order.RelClasses
import Mathlib.Tactic.Simps.Basic

namespace MutationTesting.Mutator

open MutationTesting.Rust MutationTesting.Mir MutationTesting.Pcg

set_option linter.dupNamespace false

/-- A `Mutator` generates mutants for a MIR body using a `Mutation`.  The queue
    of blocks has its front at the head of the list. -/
structure Mutator (σ : Type) where
  mutation : Mutation σ
  analysis : PcgOutput
  ctx : CompilerCtxt
  body : Body
  mutants : Option σ
  basicBlocks : List BasicBlock
  bbStmts : Option (List PcgLocation)
  stmtIdx : Nat
  /-- Not in the source: the calls of `make_stream` so far. -/
  calls : List Call

namespace Mutator

variable {σ : Type}

/-- `Mutator::new`. -/
def new (mutation : Mutation σ) (ctx : CompilerCtxt) (analysis : PcgOutput) (body : Body) :
    Mutator σ where
  mutation := mutation
  analysis := analysis
  ctx := ctx
  body := body
  mutants := none
  basicBlocks := List.range body.basicBlocks.length
  bbStmts := none
  stmtIdx := 0
  calls := []

def currBb (m : Mutator σ) : Option BasicBlock := m.basicBlocks.head?

/-- The block taken from the queue last. -/
def visiting (m : Mutator σ) : BasicBlock :=
  m.body.basicBlocks.length - m.basicBlocks.length - 1

/-- The current and the next location, when both are in the statement list. -/
def pair (m : Mutator σ) : Option (PcgLocation × PcgLocation) := do
  let bbStmts ← m.bbStmts
  let curr ← bbStmts[m.stmtIdx]?
  let next ← bbStmts[m.stmtIdx + 1]?
  return (curr, next)

@[simps]
def withMutants (m : Mutator σ) (mutants : Option σ) : Mutator σ := { m with mutants }

/-- The state after a call of `make_stream` has returned `stream`. -/
@[simps]
def startStream (m : Mutator σ) (curr next : PcgLocation) (stream : σ) : Mutator σ :=
  { m with
    mutants := some stream
    stmtIdx := m.stmtIdx + 1
    calls := m.calls ++ [⟨m.visiting, m.stmtIdx, curr, next⟩] }

/-- The state after the front of the queue has been taken. -/
@[simps]
def takeBlock (m : Mutator σ) : Mutator σ :=
  { m with
    stmtIdx := 0
    bbStmts := m.currBb.bind (statementsOf m.analysis)
    basicBlocks := m.basicBlocks.tail }

/-- Make the next stream, or move on to the next block. -/
def advance (m : Mutator σ) : Res (Mutator σ) :=
  match m.pair with
  | some (curr, next) => do
    let stream ← m.mutation.makeStream m.ctx m.body curr next
    return m.startStream curr next stream
  | none => return m.takeBlock

variable [MutantIterator σ]

/-- Ask the current stream, if there is one, for its next mutant. -/
def poll (m : Mutator σ) : Res (Option Mutant × Mutator σ) :=
  match m.mutants with
  | none => .ok (none, m)
  | some stream => do
    let (mutant, stream) ← FallibleIterator.next stream
    return (mutant, m.withMutants (some stream))

/-- One pass through the loop of `next`, with its sanity check. -/
def round (m : Mutator σ) : Res (Option Mutant × Mutator σ) := do
  match ← m.poll with
  | (some mutant, m') => return (some mutant, m')
  | (none, m') =>
    let m'' ← m'.advance
    if m''.basicBlocks.length < m.basicBlocks.length ∨ m.stmtIdx < m''.stmtIdx then
      return (none, m'')
    else .error .assertionFailed

/-! ## One round -/

section Round

omit [MutantIterator σ] in
theorem pair_eq_some {m : Mutator σ} {curr next : PcgLocation}
    (h : m.pair = some (curr, next)) :
    ∃ stmts, m.bbStmts = some stmts ∧ stmts[m.stmtIdx]? = some curr ∧
      stmts[m.stmtIdx + 1]? = some next := by
  simp only [pair, Option.bind_eq_bind, Option.bind_eq_some_iff, Option.pure_def] at h
  obtain ⟨stmts, hstmts, c, hcurr, n, hnext, heq⟩ := h
  cases heq
  exact ⟨stmts, hstmts, hcurr, hnext⟩

omit [MutantIterator σ] in
@[simp] theorem pair_withMutants (m : Mutator σ) (mutants : Option σ) :
    (m.withMutants mutants).pair = m.pair := rfl

omit [MutantIterator σ] in
@[simp] theorem visiting_withMutants (m : Mutator σ) (mutants : Option σ) :
    (m.withMutants mutants).visiting = m.visiting := rfl

omit [MutantIterator σ] in
@[simp] theorem startStream_withMutants (m : Mutator σ) (mutants : Option σ)
    (curr next : PcgLocation) (stream : σ) :
    (m.withMutants mutants).startStream curr next stream = m.startStream curr next stream := rfl

omit [MutantIterator σ] in
theorem withMutants_self {m : Mutator σ} {mutants : Option σ} (h : m.mutants = mutants) :
    m.withMutants mutants = m := by
  subst h
  rfl

/-- All that polling can have done: nothing where there is no stream, or one call
    of the stream. -/
theorem poll_cases {m m' : Mutator σ} {mutant : Option Mutant} (h : m.poll = .ok (mutant, m')) :
    (m.mutants = none ∧ mutant = none ∧ m' = m) ∨
    ∃ stream stream', m.mutants = some stream ∧
      FallibleIterator.next stream = .ok (mutant, stream') ∧
      m' = m.withMutants (some stream') := by
  unfold poll at h
  cases hs : m.mutants with
  | none =>
    rw [hs] at h
    cases h
    exact .inl ⟨rfl, rfl, rfl⟩
  | some stream =>
    simp only [hs] at h
    obtain ⟨⟨mutant', stream'⟩, hnext, h⟩ := Res.bind_inv h
    cases h
    exact .inr ⟨stream, stream', rfl, hnext, rfl⟩

/-- Polling replaces the stream only. -/
theorem poll_inv {m m' : Mutator σ} {mutant : Option Mutant} (h : m.poll = .ok (mutant, m')) :
    ∃ mutants, m' = m.withMutants mutants := by
  rcases poll_cases h with ⟨-, -, rfl⟩ | ⟨stream, stream', -, -, rfl⟩
  · exact ⟨m'.mutants, rfl⟩
  · exact ⟨some stream', rfl⟩

/-- All that a round which returns can have done: returned a mutant of the
    stream, or found the stream at an end and either made the next stream or
    taken a block from the queue. -/
theorem round_inv {m m' : Mutator σ} {mutant : Option Mutant} (h : m.round = .ok (mutant, m')) :
    (∃ x, mutant = some x ∧ m.poll = .ok (some x, m')) ∨
    (mutant = none ∧ ∃ mutants, m.poll = .ok (none, m.withMutants mutants) ∧
      ((∃ curr next stream, m.pair = some (curr, next) ∧
          m.mutation.makeStream m.ctx m.body curr next = .ok stream ∧
          m' = m.startStream curr next stream) ∨
        (m.pair = none ∧ m' = (m.withMutants mutants).takeBlock))) := by
  obtain ⟨⟨polled, m₁⟩, hpoll, h⟩ := Res.bind_inv h
  cases polled with
  | some x =>
    cases h
    exact .inl ⟨x, rfl, hpoll⟩
  | none =>
    obtain ⟨mutants, rfl⟩ := poll_inv hpoll
    obtain ⟨m₂, hadv, h⟩ := Res.bind_inv h
    -- the sanity check, which an abort does not reach
    split at h
    · cases h
      refine .inr ⟨rfl, mutants, hpoll, ?_⟩
      unfold advance at hadv
      rw [pair_withMutants] at hadv
      cases hp : m.pair with
      | none =>
        rw [hp] at hadv
        cases hadv
        exact .inr ⟨rfl, rfl⟩
      | some p =>
        obtain ⟨curr, next⟩ := p
        simp only [hp] at hadv
        obtain ⟨stream, hstream, hadv⟩ := Res.bind_inv hadv
        cases hadv
        exact .inl ⟨curr, next, stream, rfl, hstream, rfl⟩
    · cases h

/-- What a round does to the state. -/
theorem round_cases {m m' : Mutator σ} {mutant : Option Mutant}
    (h : m.round = .ok (mutant, m')) :
    (mutant.isSome ∧ ∃ mutants, m' = m.withMutants mutants) ∨
    (mutant = none ∧ ∃ curr next stream, m.pair = some (curr, next) ∧
      m.mutation.makeStream m.ctx m.body curr next = .ok stream ∧
      m' = m.startStream curr next stream) ∨
    (mutant = none ∧ m.pair = none ∧ ∃ mutants, m' = (m.withMutants mutants).takeBlock) := by
  rcases round_inv h with ⟨x, rfl, hpoll⟩ | ⟨rfl, mutants, -, hstarts | ⟨hpair, htakes⟩⟩
  · exact .inl ⟨rfl, poll_inv hpoll⟩
  · exact .inr (.inl ⟨rfl, hstarts⟩)
  · exact .inr (.inr ⟨rfl, hpair, mutants, htakes⟩)

omit [MutantIterator σ] in
theorem stmtIdx_lt_of_pair {m : Mutator σ} {curr next : PcgLocation}
    (h : m.pair = some (curr, next)) : m.stmtIdx + 1 < (m.bbStmts.getD []).length := by
  obtain ⟨stmts, hstmts, -, hnext⟩ := pair_eq_some h
  rw [hstmts]
  exact (List.getElem?_eq_some_iff.mp hnext).1

/-- A round that returns no mutant takes a block from the queue or moves the
    index towards the end of the statement list. -/
theorem round_decreases {m m' : Mutator σ} (h : m.round = .ok (none, m'))
    (hne : m.basicBlocks ≠ []) :
    Prod.Lex (· < ·) (· < ·)
      (m'.basicBlocks.length, (m'.bbStmts.getD []).length - m'.stmtIdx)
      (m.basicBlocks.length, (m.bbStmts.getD []).length - m.stmtIdx) := by
  rcases round_cases h with ⟨hsome, -⟩ | ⟨-, curr, next, stream, hpair, -, rfl⟩ |
    ⟨-, -, mutants, rfl⟩
  · cases hsome
  · have hlt := stmtIdx_lt_of_pair hpair
    apply Prod.Lex.right
    show (m.bbStmts.getD []).length - (m.stmtIdx + 1) < (m.bbStmts.getD []).length - m.stmtIdx
    omega
  · apply Prod.Lex.left
    have hpos := List.length_pos_of_ne_nil hne
    show m.basicBlocks.tail.length < m.basicBlocks.length
    rw [List.length_tail]
    omega

end Round

/-! ## `next` -/

/-- Return the next mutant that can be generated from this body. -/
def next (m : Mutator σ) : Res (Option Mutant × Mutator σ) :=
  if hne : m.basicBlocks = [] then .ok (none, m)
  else
    match h : m.round with
    | .error e => .error e
    | .ok (some mutant, m') => .ok (some mutant, m')
    | .ok (none, m') =>
      have := round_decreases h hne
      next m'
termination_by (m.basicBlocks.length, (m.bbStmts.getD []).length - m.stmtIdx)
decreasing_by exact this

instance : MutantIterator (Mutator σ) := ⟨next⟩

theorem next_of_nil {m : Mutator σ} (h : m.basicBlocks = []) : m.next = .ok (none, m) := by
  rw [next, dif_pos h]

theorem next_of_round_some {m m' : Mutator σ} {mutant : Mutant} (hne : m.basicBlocks ≠ [])
    (h : m.round = .ok (some mutant, m')) : m.next = .ok (some mutant, m') := by
  rw [next, dif_neg hne]
  split
  all_goals simp_all

theorem next_of_round_none {m m' : Mutator σ} (hne : m.basicBlocks ≠ [])
    (h : m.round = .ok (none, m')) : m.next = m'.next := by
  rw [next, dif_neg hne]
  split
  all_goals simp_all

/-- Induction on the rounds of a call of `next` that returns. -/
theorem next_induction {P : Mutator σ → Option Mutant × Mutator σ → Prop}
    (hnil : ∀ m, m.basicBlocks = [] → P m (none, m))
    (hsome : ∀ m mutant m', m.basicBlocks ≠ [] → m.round = .ok (some mutant, m') →
      P m (some mutant, m'))
    (hnone : ∀ m m₁ r, m.basicBlocks ≠ [] → m.round = .ok (none, m₁) → P m₁ r → P m r)
    {m : Mutator σ} {r : Option Mutant × Mutator σ} (h : m.next = .ok r) : P m r := by
  induction m using next.induct with
  | case1 m hne =>
    rw [next_of_nil hne] at h
    cases h
    exact hnil m hne
  | case2 m hne e hr =>
    rw [next, dif_neg hne] at h
    split at h
    -- a round that aborts does not return
    all_goals simp_all
  | case3 m hne mutant m₁ hr =>
    rw [next_of_round_some hne hr] at h
    cases h
    exact hsome m mutant m₁ hne hr
  | case4 m hne m₁ hr hlt ih =>
    rw [next_of_round_none hne hr] at h
    exact hnone m m₁ r hne hr (ih h)

/-- What every round preserves, `next` preserves. -/
theorem next_invariant {P : Mutator σ → Prop}
    (hround : ∀ {m m' : Mutator σ} {mutant : Option Mutant}, m.basicBlocks ≠ [] →
      m.round = .ok (mutant, m') → P m → P m')
    {m m' : Mutator σ} {mutant : Option Mutant} (h : m.next = .ok (mutant, m')) (hP : P m) :
    P m' := by
  refine next_induction (P := fun m r => P m → P r.2) ?_ ?_ ?_ h hP
  · exact fun m _ hP => hP
  · exact fun m mutant m' hne hr hP => hround hne hr hP
  · exact fun m m₁ r hne hr ih hP => ih (hround hne hr hP)

/-! ## Finite streams -/

section Finite

variable {σ : Type} [FiniteIterator σ Mutant]

/-- Polling a finite stream for a mutant brings it closer to its end. -/
theorem poll_rel {m m' : Mutator σ} {mutant : Mutant} (h : m.poll = .ok (some mutant, m')) :
    ∃ stream stream', m.mutants = some stream ∧ m' = m.withMutants (some stream') ∧
      FiniteIterator.rel stream' stream := by
  rcases poll_cases h with ⟨-, hnone, -⟩ | ⟨stream, stream', hs, hnext, rfl⟩
  · cases hnone
  · exact ⟨stream, stream', hs, rfl, FiniteIterator.next_rel hnext⟩

theorem poll_of_round_some {m m' : Mutator σ} {mutant : Mutant}
    (h : m.round = .ok (some mutant, m')) : m.poll = .ok (some mutant, m') := by
  rcases round_inv h with ⟨x, hx, hpoll⟩ | ⟨hx, -⟩
  · rw [hx, hpoll]
  · cases hx

/-- The blocks and the statements to come, and the current stream. -/
def progress (m : Mutator σ) : (Nat × Nat) × Option σ :=
  ((m.basicBlocks.length, (m.bbStmts.getD []).length - m.stmtIdx), m.mutants)

/-- The order in which a traversal of finite streams comes to its end. -/
def Closer : (Nat × Nat) × Option σ → (Nat × Nat) × Option σ → Prop :=
  Prod.Lex (Prod.Lex (· < ·) (· < ·)) (Option.lt FiniteIterator.rel)

theorem closer_wf : WellFounded (Closer : (Nat × Nat) × Option σ → _ → Prop) :=
  (Nat.lt_wfRel.wf.prod_lex Nat.lt_wfRel.wf).prod_lex (Option.wellFounded_lt FiniteIterator.wf)

theorem next_closer {m m' : Mutator σ} {mutant : Mutant}
    (h : m.next = .ok (some mutant, m')) : Closer m'.progress m.progress := by
  refine next_induction (P := fun m r => r.1.isSome → Closer r.2.progress m.progress)
    ?_ ?_ ?_ h rfl
  · intro m _ hsome
    cases hsome
  · intro m mutant m₁ _ hr _
    obtain ⟨stream, stream', hs, rfl, hrel⟩ := poll_rel (poll_of_round_some hr)
    refine Prod.lex_def.mpr (.inr ⟨rfl, ?_⟩)
    show Option.lt FiniteIterator.rel (some stream') m.mutants
    rw [hs]
    exact hrel
  · intro m m₁ r hne hr ih hsome
    -- whatever the stream is by now, blocks or statements have been used up
    have hround : Prod.Lex (· < ·) (· < ·) m₁.progress.1 m.progress.1 := round_decreases hr hne
    rcases Prod.lex_def.mp (ih hsome) with hfst | ⟨hfst, -⟩
    · exact .left _ _ (IsTrans.trans _ _ _ hfst hround)
    · rw [← hfst] at hround
      exact .left _ _ hround

instance : FiniteIterator (Mutator σ) Mutant where
  rel m' m := Closer m'.progress m.progress
  wf := InvImage.wf progress closer_wf
  next_rel := next_closer

end Finite

end Mutator

end MutationTesting.Mutator
