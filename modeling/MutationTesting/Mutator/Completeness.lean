/-
  MutationTesting.Mutator.Completeness

  What a `Mutator` returns before its first `None`, over a whole run.

  The run is followed from the inside out: the current stream to its end
  (`yields_append`), the pairs of the current block (`yields_block`), the blocks
  of the queue (`exists_yields`).  Each block taken from the queue is walked
  while a later one is still in it, so the last block is never walked.
-/
import MutationTesting.Mutator.Traversal

namespace MutationTesting.Mutator

open MutationTesting.Rust MutationTesting.Mir MutationTesting.Pcg

set_option linter.dupNamespace false

namespace Mutator

variable {σ : Type}

/-- The calls the current statement list still asks for. -/
def pending (m : Mutator σ) : List Call :=
  callsFrom m.visiting m.stmtIdx ((m.bbStmts.getD []).drop m.stmtIdx)

theorem pending_of_pair {m : Mutator σ} {curr next : PcgLocation}
    (h : m.pair = some (curr, next)) :
    m.pending = ⟨m.visiting, m.stmtIdx, curr, next⟩ ::
      callsFrom m.visiting (m.stmtIdx + 1) ((m.bbStmts.getD []).drop (m.stmtIdx + 1)) := by
  obtain ⟨stmts, hstmts, hcurr, hnext⟩ := pair_eq_some h
  obtain ⟨hlt, rfl⟩ := List.getElem?_eq_some_iff.mp hcurr
  obtain ⟨hlt', rfl⟩ := List.getElem?_eq_some_iff.mp hnext
  rw [pending, hstmts, Option.getD_some, List.drop_eq_getElem_cons hlt,
    List.drop_eq_getElem_cons hlt', callsFrom]

theorem pending_of_pair_none {m : Mutator σ} (h : m.pair = none) : m.pending = [] := by
  rw [List.eq_nil_iff_forall_not_mem]
  intro call hcall
  obtain ⟨-, i, -, hcurr, hnext⟩ := mem_callsFrom.mp hcall
  rw [List.getElem?_drop] at hcurr hnext
  cases hstmts : m.bbStmts with
  | none => simp [hstmts] at hcurr
  | some stmts =>
    rw [hstmts, Option.getD_some] at hcurr hnext
    -- both entries at the index exist, because a later pair does
    have hlt := (List.getElem?_eq_some_iff.mp hnext).1
    have hpair : m.pair = some (stmts[m.stmtIdx], stmts[m.stmtIdx + 1]) := by
      simp [pair, hstmts, show m.stmtIdx < stmts.length by omega,
        show m.stmtIdx + 1 < stmts.length by omega]
    rw [h] at hpair
    cases hpair

variable [MutantIterator σ]

/-- The mutants a stream, if there is one, has still to return. -/
def Holds : Option σ → List Mutant → Prop
  | none, ms => ms = []
  | some stream, ms => Produces stream ms

/-! ## One round with an exhausted stream -/

section Round

variable {m : Mutator σ}

theorem poll_of_holds_nil (h : Holds m.mutants []) :
    ∃ mutants, Holds mutants [] ∧ m.poll = .ok (none, m.withMutants mutants) := by
  unfold poll
  cases hs : m.mutants with
  | none => exact ⟨none, rfl, by rw [withMutants_self hs]⟩
  | some stream =>
    rw [hs] at h
    obtain ⟨stream', hnext, hspent⟩ := h.spent.next_eq
    exact ⟨some stream', hspent.produces, by simp [hnext]⟩

/-- The next stream is made in the round in which the last one is exhausted. -/
theorem round_of_pair (h : Holds m.mutants []) {curr next : PcgLocation}
    (hpair : m.pair = some (curr, next)) {stream : σ}
    (hstream : m.mutation.makeStream m.ctx m.body curr next = .ok stream) :
    m.round = .ok (none, m.startStream curr next stream) := by
  obtain ⟨mutants, -, hpoll⟩ := poll_of_holds_nil h
  simp [round, hpoll, advance, hpair, hstream]

/-- With no pair left the next block is taken from the queue. -/
theorem round_of_pair_none (h : Holds m.mutants []) (hpair : m.pair = none)
    (hne : m.basicBlocks ≠ []) :
    ∃ mutants, Holds mutants [] ∧ m.round = .ok (none, (m.withMutants mutants).takeBlock) := by
  obtain ⟨mutants, hmutants, hpoll⟩ := poll_of_holds_nil h
  have hpos := List.length_pos_of_ne_nil hne
  have hlt : m.basicBlocks.length - 1 < m.basicBlocks.length := by omega
  exact ⟨mutants, hmutants, by simp [round, hpoll, advance, hpair, hlt]⟩

end Round

/-! ## Runs -/

/-- The state once further calls have been made for the current statements. -/
@[simps]
def walked (m : Mutator σ) (mutants : Option σ) (stmtIdx : Nat) (calls : List Call) :
    Mutator σ :=
  { m with mutants, stmtIdx, calls := m.calls ++ calls }

/-- The mutants of the current stream come first, whatever comes after. -/
theorem yields_append {m : Mutator σ} {ms rest : List Mutant} {calls : List Call}
    (hne : m.basicBlocks ≠ []) (hms : Holds m.mutants ms)
    (hrest : ∀ mutants, Holds mutants [] →
      ∃ e, Yields (m.withMutants mutants) rest e ∧ e.calls = calls) :
    ∃ e, Yields m (ms ++ rest) e ∧ e.calls = calls := by
  cases hs : m.mutants with
  | none =>
    rw [hs] at hms
    obtain rfl : ms = [] := hms
    simpa [withMutants_self hs] using hrest none rfl
  | some stream =>
    rw [hs] at hms
    obtain ⟨stream', hy, hspent⟩ := hms
    -- along the mutants the stream yields
    induction hy generalizing m with
    | @done stream stream' hnext =>
      simpa [withMutants_self hs] using hrest (some stream) (hspent.of_next hnext).produces
    | @more stream stream₁ _ x xs hnext hy ih =>
      have hround : m.round = .ok (some x, m.withMutants (some stream₁)) := by
        simp [round, poll, hs, hnext]
      obtain ⟨e, hye, hcalls⟩ := ih (m := m.withMutants (some stream₁)) hne hrest rfl hspent
      exact ⟨e, .more (next_of_round_some hne hround) hye, hcalls⟩

/-- Then come the streams of the pairs left in the current statement list. -/
theorem yields_block (rest : List Mutant) (calls : List Call) {m : Mutator σ}
    {ms : List Mutant} {pending : List Call}
    {streams : PcgLocation → PcgLocation → List Mutant} (hne : m.basicBlocks ≠ [])
    (hms : Holds m.mutants ms) (hpending : m.pending = pending)
    (hstreams : HasStreams m.mutation m.ctx m.body streams pending)
    (hrest : ∀ mutants stmtIdx, Holds mutants [] → (m.walked mutants stmtIdx pending).pair = none →
      ∃ e, Yields (m.walked mutants stmtIdx pending) rest e ∧ e.calls = calls) :
    ∃ e, Yields m (ms ++ (pending.flatMap (fun c => streams c.curr c.next) ++ rest)) e ∧
      e.calls = calls := by
  induction pending generalizing m ms with
  | nil =>
    refine yields_append hne hms ?_
    intro mutants hmutants
    -- nothing is pending, so no pair is left
    have hpair : m.pair = none := by
      cases hp : m.pair with
      | none => rfl
      | some p =>
        obtain ⟨curr, next⟩ := p
        rw [pending_of_pair hp] at hpending
        cases hpending
    have hm : m.walked mutants m.stmtIdx [] = m.withMutants mutants := by
      simp [walked, withMutants]
    have hpair' : (m.walked mutants m.stmtIdx []).pair = none := by rw [hm]; exact hpair
    simpa [hm] using hrest mutants m.stmtIdx hmutants hpair'
  | cons call pending ih =>
    refine yields_append hne hms ?_
    intro mutants hmutants
    cases hp : m.pair with
    | none => simp [pending_of_pair_none hp] at hpending
    | some p =>
      obtain ⟨curr, next⟩ := p
      rw [pending_of_pair hp] at hpending
      obtain ⟨rfl, hrestPending⟩ := List.cons.inj hpending
      obtain ⟨stream, hstream, hproduces⟩ := hstreams _ List.mem_cons_self
      -- the stream before is exhausted, and the round makes this one
      have hround := round_of_pair (m := m.withMutants mutants) hmutants hp hstream
      have hwalked : ∀ mutants' stmtIdx, (m.startStream curr next stream).walked mutants' stmtIdx
          pending = m.walked mutants' stmtIdx (⟨m.visiting, m.stmtIdx, curr, next⟩ :: pending) := by
        simp [walked, startStream]
      have hlater : HasStreams m.mutation m.ctx m.body streams pending :=
        fun c hc => hstreams c (List.mem_cons_of_mem _ hc)
      obtain ⟨e, hy, hcalls⟩ := ih (m := m.startStream curr next stream) hne hproduces
        hrestPending hlater (by
          intro mutants' stmtIdx hmutants'
          rw [hwalked]
          exact hrest mutants' stmtIdx hmutants')
      have hnext := next_of_round_none (m := m.withMutants mutants) hne hround
      refine ⟨e, Yields.of_next_eq hnext ?_, hcalls⟩
      simpa [List.flatMap_cons, List.append_assoc] using hy

/-- Then come the blocks in the queue but the last. -/
theorem exists_yields {len k : Nat} {m : Mutator σ} {ms : List Mutant} {ahead : List Call}
    {streams : PcgLocation → PcgLocation → List Mutant}
    (hqueue : m.basicBlocks = List.range' k (len + 1))
    (hlen : k + (len + 1) = m.body.basicBlocks.length) (hms : Holds m.mutants ms)
    (hahead : m.pending ++ (List.range' k len).flatMap (owed m.analysis) = ahead)
    (hstreams : HasStreams m.mutation m.ctx m.body streams ahead) :
    ∃ e, Yields m (ms ++ ahead.flatMap fun c => streams c.curr c.next) e ∧
      e.calls = m.calls ++ ahead := by
  subst hahead
  have hne : m.basicBlocks ≠ [] := by simp [hqueue, List.range'_succ]
  have hpending : HasStreams m.mutation m.ctx m.body streams m.pending :=
    fun c hc => hstreams c (List.mem_append_left _ hc)
  induction len generalizing k m ms with
  | zero =>
    have hblock := yields_block [] (m.calls ++ m.pending) hne hms rfl hpending ?_
    · simpa using hblock
    · intro mutants stmtIdx hmutants hpair
      -- the last block is taken, and the loop ends
      obtain ⟨mutants', -, hround⟩ := round_of_pair_none hmutants hpair hne
      have hnext := next_of_round_none (m := m.walked mutants stmtIdx m.pending) hne hround
      refine ⟨_, .done (hnext.trans (next_of_nil ?_)), ?_⟩
      · simp [hqueue]
      · simp
  | succ len ih =>
    rw [List.range'_succ, List.flatMap_cons] at hstreams ⊢
    obtain ⟨later, hlater⟩ : ∃ later, later =
      owed m.analysis k ++ (List.range' (k + 1) len).flatMap (owed m.analysis) := ⟨_, rfl⟩
    rw [← hlater] at hstreams ⊢
    have hblock := yields_block (later.flatMap fun c => streams c.curr c.next)
      (m.calls ++ (m.pending ++ later)) hne hms rfl hpending ?_
    · simpa [List.flatMap_append] using hblock
    · intro mutants stmtIdx hmutants hpair
      obtain ⟨mutants', hheld, hround⟩ := round_of_pair_none hmutants hpair hne
      let m' := ((m.walked mutants stmtIdx m.pending).withMutants mutants').takeBlock
      -- the block taken is `k`, and it owes what the analysis says
      have hq : m'.basicBlocks = List.range' (k + 1) (len + 1) := by
        simp [m', hqueue, List.range'_succ]
      have hvisiting : m'.visiting = k := by
        have hk : m.body.basicBlocks.length - (len + 1) - 1 = k := by omega
        rw [visiting, hq, List.length_range']
        exact hk
      have hpend : m'.pending = owed m.analysis k := by
        rw [pending, hvisiting]
        simp [m', currBb, hqueue, List.range'_succ, owed]
      have hlater' : later =
          m'.pending ++ (List.range' (k + 1) len).flatMap (owed m'.analysis) := by
        rw [hpend, hlater]
        rfl
      have hblocks : k + 1 + (len + 1) = m'.body.basicBlocks.length := by
        simp only [m', takeBlock_body, withMutants_body, walked_body]
        omega
      have hne' : m'.basicBlocks ≠ [] := by simp [hq, List.range'_succ]
      have hmem : ∀ c ∈ m'.pending, c ∈ later := by
        intro c hc
        rw [hlater']
        exact List.mem_append_left _ hc
      obtain ⟨e, hy, hcalls⟩ := ih (k := k + 1) (m := m') hq hblocks hheld
        (hlater' ▸ fun c hc => hstreams c (List.mem_append_right _ hc)) hne'
        (fun c hc => hstreams c (List.mem_append_right _ (hmem c hc)))
      have hnext := next_of_round_none (m := m.walked mutants stmtIdx m.pending) hne hround
      refine ⟨e, Yields.of_next_eq hnext ?_, ?_⟩
      · rw [hlater']
        exact hy
      · rw [hcalls, ← hlater', ← List.append_assoc]
        rfl

/-- A whole run makes the calls of all blocks but the last, in order, and returns
    their streams. -/
theorem exists_yields_new (mutation : Mutation σ) (ctx : CompilerCtxt) (analysis : PcgOutput)
    (body : Body) {streams : PcgLocation → PcgLocation → List Mutant} {ahead : List Call}
    (hahead : (List.range (body.basicBlocks.length - 1)).flatMap (owed analysis) = ahead)
    (hstreams : HasStreams mutation ctx body streams ahead) :
    ∃ e, Yields (new mutation ctx analysis body) (ahead.flatMap fun c => streams c.curr c.next) e ∧
      e.calls = ahead := by
  cases hlen : body.basicBlocks.length with
  | zero =>
    rw [hlen] at hahead
    subst hahead
    -- without blocks the first call returns `None`
    have hnil : (new mutation ctx analysis body).basicBlocks = [] := by simp [new, hlen]
    exact ⟨_, .done (next_of_nil hnil), rfl⟩
  | succ len =>
    have hpending : (new mutation ctx analysis body).pending = [] := by
      simp [pending, new, callsFrom]
    rw [hlen, Nat.add_sub_cancel, List.range_eq_range'] at hahead
    have hqueue : (new mutation ctx analysis body).basicBlocks = List.range' 0 (len + 1) := by
      rw [← List.range_eq_range', ← hlen]
      rfl
    have hholds : Holds (new mutation ctx analysis body).mutants [] := rfl
    exact exists_yields hqueue (by rw [Nat.zero_add, ← hlen]; rfl) hholds
      (by rw [hpending]; exact hahead) hstreams

/-! ## Completeness -/

/-- Every consecutive pair of statements of every block has been passed to
    `make_stream`, and its mutants are among the returned ones. -/
def Complete (analysis : PcgOutput) (body : Body)
    (streams : PcgLocation → PcgLocation → List Mutant) (returned : List Mutant)
    (m : Mutator σ) : Prop :=
  ∀ bb < body.basicBlocks.length, ∀ pcgBb, analysis.getAllForBb bb = .ok (some pcgBb) →
    ∀ i curr next, pcgBb.statements[i]? = some curr → pcgBb.statements[i + 1]? = some next →
      ⟨bb, i, curr, next⟩ ∈ m.calls ∧ (streams curr next).Sublist returned

end Mutator

/-- A traversal run to its first `None` is complete exactly when the last block
    of the body has no two statements to pair. -/
theorem Mutator.complete_iff {σ : Type} [MutantIterator σ] {mutation : Mutation σ}
    {ctx : CompilerCtxt} {analysis : PcgOutput} {body : Body}
    {streams : PcgLocation → PcgLocation → List Mutant}
    (hstreams : HasStreams mutation ctx body streams
      ((List.range body.basicBlocks.length).flatMap (owed analysis)))
    {returned : List Mutant} {m : Mutator σ}
    (hrun : Yields (new mutation ctx analysis body) returned m) :
    Complete analysis body streams returned m ↔
      ∀ bb, bb + 1 = body.basicBlocks.length → ∀ pcgBb,
        analysis.getAllForBb bb = .ok (some pcgBb) → pcgBb.statements.length < 2 := by
  obtain ⟨e, hy, hcalls⟩ := exists_yields_new mutation ctx analysis body rfl
    (fun c hc => hstreams c (mem_flatMap_range_of_le (Nat.sub_le _ _) hc))
  obtain ⟨rfl, rfl⟩ := hrun.unique hy
  constructor
  · intro hcomplete bb hbb pcgBb hanalysis
    by_contra hlen
    -- the first pair of the last block was never asked for
    have hlen1 : 1 < pcgBb.statements.length := by omega
    have hlen0 : 0 < pcgBb.statements.length := by omega
    have h0 := List.getElem?_eq_getElem hlen0
    have h1 := List.getElem?_eq_getElem hlen1
    obtain ⟨hcall, -⟩ := hcomplete bb (by omega) pcgBb hanalysis 0 _ _ h0 h1
    rw [hcalls] at hcall
    obtain ⟨bb', hbb', howed⟩ := List.mem_flatMap.mp hcall
    have hlt := List.mem_range.mp hbb'
    have heq : bb = bb' := (mem_owed.mp howed).1
    omega
  · intro hlast bb hbb pcgBb hanalysis i curr next hcurr hnext
    have hi := (List.getElem?_eq_some_iff.mp hnext).1
    have hne : bb + 1 ≠ body.basicBlocks.length := by
      intro heq
      have hshort := hlast bb heq pcgBb hanalysis
      omega
    have howed : (⟨bb, i, curr, next⟩ : Call) ∈ owed analysis bb :=
      mem_owed.mpr ⟨rfl, _, statementsOf_eq_some.mpr hanalysis, hcurr, hnext⟩
    have hmem : (⟨bb, i, curr, next⟩ : Call) ∈
        (List.range (body.basicBlocks.length - 1)).flatMap (owed analysis) :=
      List.mem_flatMap.mpr ⟨bb, List.mem_range.mpr (by omega), howed⟩
    refine ⟨by rw [hcalls]; exact hmem, ?_⟩
    rw [List.flatMap_def]
    exact List.sublist_flatten_of_mem (List.mem_map_of_mem hmem)

/-- In a body of one block nothing is traversed, although its statements owe five
    pairs and some of them have mutants. -/
theorem Mutator.not_complete : ¬ ∀ (mutation : Mutation MutantStream) (ctx : CompilerCtxt)
    (analysis : PcgOutput) (body : Body) (streams : PcgLocation → PcgLocation → List Mutant)
    (returned : List Mutant) (m : Mutator MutantStream),
    HasStreams mutation ctx body streams
      ((List.range body.basicBlocks.length).flatMap (owed analysis)) →
    Yields (new mutation ctx analysis body) returned m →
    Complete analysis body streams returned m := by
  intro h
  let body : Body :=
    ⟨[⟨Sample.statements, some ⟨⟨6, 0⟩, .return⟩, false⟩], Sample.localDecls⟩
  have hstreams := Sample.hasStreams_move body
  obtain ⟨e, hy, hcalls⟩ := exists_yields_new
    (MutationKind.moveFromBorrowed.mutation Sample.order) ⟨Sample.tcx, body⟩
    (Sample.analysisOf body) body rfl
    (fun c hc => hstreams c (mem_flatMap_range_of_le (Nat.sub_le _ _) hc))
  obtain ⟨hcall, -⟩ := h _ _ _ body _ _ _ hstreams hy 0 (by decide) _ rfl 3 _ _ rfl rfl
  rw [hcalls] at hcall
  cases hcall

/-- The sample's last block is a mere `return`: its traversal is complete. -/
theorem Mutator.complete_sample : ∃ returned m,
    Yields (new (MutationKind.moveFromBorrowed.mutation Sample.order) Sample.ctx
      (Sample.analysisOf Sample.body) Sample.body) returned m ∧
    Complete (Sample.analysisOf Sample.body) Sample.body
      (MutationKind.moveFromBorrowed.streams Sample.order Sample.ctx Sample.body) returned m := by
  have hstreams := Sample.hasStreams_move Sample.body
  obtain ⟨e, hy, -⟩ := exists_yields_new
    (MutationKind.moveFromBorrowed.mutation Sample.order) Sample.ctx
    (Sample.analysisOf Sample.body) Sample.body rfl
    (fun c hc => hstreams c (mem_flatMap_range_of_le (Nat.sub_le _ _) hc))
  refine ⟨_, e, hy, (complete_iff hstreams hy).mpr ?_⟩
  intro bb hbb pcgBb hanalysis
  obtain rfl : bb = 2 := Nat.succ.inj hbb
  cases hanalysis
  decide

end MutationTesting.Mutator
