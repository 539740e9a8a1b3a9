/-
  MutationTesting.Mutator.Analysis

  The analysis as the traversal uses it: the statements of a block, the pairs of
  consecutive statements they ask `make_stream` for, and the streams made for
  them.  `LocatesBlocks` is all that the pcg crate is relied on for.
-/
import MutationTesting.Mutator.Mutations

namespace MutationTesting.Mutator

open MutationTesting.Rust MutationTesting.Mir MutationTesting.Pcg

/-- The statements `get_all_for_bb` answers with, if it answers with a block. -/
def statementsOf (analysis : PcgOutput) (bb : BasicBlock) : Option (List PcgLocation) :=
  match analysis.getAllForBb bb with
  | .ok (some pcgBb) => some pcgBb.statements
  | _ => none

/-- A pair handed to `make_stream`: entries `index` and `index + 1` of the
    statements of `block`. -/
structure Call where
  block : BasicBlock
  index : Nat
  curr : PcgLocation
  next : PcgLocation

theorem statementsOf_eq_some {analysis : PcgOutput} {bb : BasicBlock} {stmts : List PcgLocation} :
    statementsOf analysis bb = some stmts ↔ analysis.getAllForBb bb = .ok (some ⟨stmts⟩) := by
  unfold statementsOf
  split
  next pcgBb h => simp [h, PcgBasicBlock.ext_iff]
  next h =>
    refine ⟨by simp, fun hsome => absurd hsome (h _)⟩

/-! ## Owed calls -/

/-- The consecutive pairs of a list which starts at `index` of the statements of
    `block`. -/
def callsFrom (block : BasicBlock) : Nat → List PcgLocation → List Call
  | index, curr :: next :: rest =>
    ⟨block, index, curr, next⟩ :: callsFrom block (index + 1) (next :: rest)
  | _, _ => []

/-- The calls the statements of a block ask for. -/
def owed (analysis : PcgOutput) (bb : BasicBlock) : List Call :=
  callsFrom bb 0 ((statementsOf analysis bb).getD [])

theorem mem_callsFrom {block : BasicBlock} {index : Nat} {stmts : List PcgLocation}
    {call : Call} :
    call ∈ callsFrom block index stmts ↔ call.block = block ∧ ∃ i, call.index = index + i ∧
      stmts[i]? = some call.curr ∧ stmts[i + 1]? = some call.next := by
  induction stmts generalizing index with
  | nil => simp [callsFrom]
  | cons curr rest ih =>
    cases rest with
    | nil => simp [callsFrom]
    | cons next rest =>
      rw [callsFrom, List.mem_cons, ih]
      constructor
      -- the first pair, or one of the rest, whose indices are one less there
      · rintro (rfl | ⟨hblock, i, hi, hcurr, hnext⟩)
        · exact ⟨rfl, 0, rfl, rfl, rfl⟩
        · exact ⟨hblock, i + 1, by omega, hcurr, hnext⟩
      · rintro ⟨hblock, i, hi, hcurr, hnext⟩
        cases i with
        | zero =>
          obtain ⟨b, j, c, n⟩ := call
          simp only [List.getElem?_cons_zero, Nat.zero_add, List.getElem?_cons_succ,
            Option.some.injEq] at hblock hi hcurr hnext
          subst hblock hi hcurr hnext
          exact .inl rfl
        | succ i => exact .inr ⟨hblock, i, by omega, hcurr, hnext⟩

theorem mem_owed {analysis : PcgOutput} {bb : BasicBlock} {call : Call} :
    call ∈ owed analysis bb ↔ call.block = bb ∧ ∃ stmts, statementsOf analysis bb = some stmts ∧
      stmts[call.index]? = some call.curr ∧ stmts[call.index + 1]? = some call.next := by
  rw [owed, mem_callsFrom]
  cases hstmts : statementsOf analysis bb with
  | none => simp
  | some stmts => simp

/-- The calls of the first blocks are among the calls of more of them. -/
theorem mem_flatMap_range_of_le {analysis : PcgOutput} {n n' : Nat} (hle : n ≤ n') {call : Call}
    (h : call ∈ (List.range n).flatMap (owed analysis)) :
    call ∈ (List.range n').flatMap (owed analysis) := by
  obtain ⟨bb, hbb, hcall⟩ := List.mem_flatMap.mp h
  have hlt := List.mem_range.mp hbb
  exact List.mem_flatMap.mpr ⟨bb, List.mem_range.mpr (by omega), hcall⟩

/-! ## Locations -/

/-- Entry `k` of the answer for a block has the location `k` of that block, and
    there are no more entries than statements and the terminator. -/
structure LocatesBlocks (analysis : PcgOutput) (body : Body) : Prop where
  location_eq : ∀ bb (pcgBb : PcgBasicBlock) k (loc : PcgLocation),
    analysis.getAllForBb bb = .ok (some pcgBb) →
    pcgBb.statements[k]? = some loc → loc.location = ⟨bb, k⟩
  length_le : ∀ bb (pcgBb : PcgBasicBlock) data,
    analysis.getAllForBb bb = .ok (some pcgBb) →
    body.basicBlocks[bb]? = some data → pcgBb.statements.length ≤ data.statements.length + 1

/-- The pairs a block asks for are consecutive locations of the body. -/
theorem consecutive_of_mem_owed {analysis : PcgOutput} {body : Body}
    (h : LocatesBlocks analysis body) {bb : BasicBlock} (hbb : bb < body.basicBlocks.length)
    {call : Call} (hcall : call ∈ owed analysis bb) :
    ConsecutiveIn body call.curr.location call.next.location := by
  obtain ⟨-, stmts, hstmts, hcurr, hnext⟩ := mem_owed.mp hcall
  have hanalysis := statementsOf_eq_some.mp hstmts
  have hget := List.getElem?_eq_getElem hbb
  have hlen := h.length_le bb _ _ hanalysis hget
  have hlt := (List.getElem?_eq_some_iff.mp hnext).1
  rw [h.location_eq bb _ _ _ hanalysis hcurr, h.location_eq bb _ _ _ hanalysis hnext]
  refine ⟨⟨_, hget, ?_⟩, rfl⟩
  simp only at hlen ⊢
  omega

/-! ## Streams -/

/-- Every call of the list makes a finite stream with the given contents. -/
def HasStreams {σ : Type} [MutantIterator σ] (mutation : Mutation σ) (ctx : CompilerCtxt)
    (body : Body) (streams : PcgLocation → PcgLocation → List Mutant) (calls : List Call) : Prop :=
  ∀ call ∈ calls, ∃ stream, mutation.makeStream ctx body call.curr call.next = .ok stream ∧
    Produces stream (streams call.curr call.next)

namespace MutationKind

/-- The mutants of the stream a mutation makes. -/
def streams (order : HashOrder Pcg.Place) (k : MutationKind) (ctx : CompilerCtxt) (body : Body)
    (curr next : PcgLocation) : List Mutant :=
  match k.makeStream order ctx body curr next with
  | .ok stream => stream.mutants
  | .error _ => []

/-- An insertion mutation makes finite streams for the pairs the blocks ask for. -/
theorem hasStreams_of_insertion (order : HashOrder Pcg.Place) {k : MutationKind}
    (hk : k.isExpiry = false) (ctx : CompilerCtxt) {analysis : PcgOutput} {body : Body}
    (h : LocatesBlocks analysis body) :
    HasStreams (k.mutation order) ctx body (k.streams order ctx body)
      ((List.range body.basicBlocks.length).flatMap (owed analysis)) := by
  intro call hcall
  obtain ⟨bb, hbb, hcall⟩ := List.mem_flatMap.mp hcall
  have hpair := consecutive_of_mem_owed h (List.mem_range.mp hbb) hcall
  obtain ⟨cs, hcs⟩ : ∃ cs, k.candidates order ctx body call.curr call.next = .ok cs := by
    cases k with
    | borrowExpiryOrder | abstractExpiryOrder => cases hk
    | _ => exact ⟨_, rfl⟩
  obtain ⟨stream, mutant, hstream, hbuilt, -⟩ := produces_of_consecutive hpair hcs
  refine ⟨stream, hstream, ?_⟩
  rw [streams, hstream]
  apply MutantStream.produces_mutants
  -- no attempt panics, as each candidate has its mutant
  intro attempt hattempt
  rw [makeStream, hcs] at hstream
  cases hstream
  obtain ⟨c, hc, rfl⟩ := List.mem_map.mp hattempt
  exact ⟨_, hbuilt c hc⟩

end MutationKind

/-! ## The sample's analysis -/

namespace Sample

/-- The program point at `index` of `block`: `x` is borrowed from the fourth
    statement of the first block on. -/
def located (block index : Nat) : PcgLocation :=
  if block = 0 ∧ index < 3 then point block index [] []
  else point block index [borrowOfX (.mut .default) r (.reVar 0)] [y]

/-- An analysis of a body that answers for every block, terminator included. -/
def analysisWith (locate : Nat → Nat → PcgLocation) (body : Body) : PcgOutput where
  getAllForBb bb := .ok (body.basicBlocks[bb]?.map fun data =>
    ⟨(List.range (data.statements.length + 1)).map (locate bb)⟩)

theorem analysisWith_locatesBlocks {locate : Nat → Nat → PcgLocation}
    (hlocate : ∀ block index, (locate block index).location = ⟨block, index⟩) (body : Body) :
    LocatesBlocks (analysisWith locate body) body where
  location_eq bb pcgBb k loc hanalysis hloc := by
    cases hdata : body.basicBlocks[bb]? with
    | none => simp [analysisWith, hdata] at hanalysis
    | some data =>
      simp only [analysisWith, hdata, Option.map_some, Except.ok.injEq,
        Option.some.injEq] at hanalysis
      subst hanalysis
      simp only [List.getElem?_map, Option.map_eq_some_iff] at hloc
      obtain ⟨i, hi, rfl⟩ := hloc
      obtain ⟨hlt, rfl⟩ := List.getElem?_eq_some_iff.mp hi
      rw [List.getElem_range, hlocate]
  length_le bb pcgBb data hanalysis hdata := by
    simp only [analysisWith, hdata, Option.map_some, Except.ok.injEq,
      Option.some.injEq] at hanalysis
    subst hanalysis
    simp

/-- The sample's own. -/
def analysisOf (body : Body) : PcgOutput := analysisWith located body

theorem analysisOf_locatesBlocks (body : Body) : LocatesBlocks (analysisOf body) body := by
  refine analysisWith_locatesBlocks (fun block index => ?_) body
  rw [located]
  split <;> rfl

/-- The moves out of borrowed places that the analysis of a body asks for. -/
theorem hasStreams_move (body : Body) :
    HasStreams (MutationKind.moveFromBorrowed.mutation order) ⟨tcx, body⟩ body
      (MutationKind.moveFromBorrowed.streams order ⟨tcx, body⟩ body)
      ((List.range body.basicBlocks.length).flatMap (owed (analysisOf body))) :=
  MutationKind.hasStreams_of_insertion order rfl _ (analysisOf_locatesBlocks body)

end Sample

end MutationTesting.Mutator
