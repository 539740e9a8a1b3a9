/-
  MutationTesting.Mutator.Distinct

  When the mutants of a stream are pairwise different.

  Two candidates give the same mutant body when they are equal, or, for the
  read, when their places have one type: its statement does not mention the
  place.  Candidates gathered through hash sets are distinct; the others repeat
  as often as the graph has edges for them.
-/
import MutationTesting.Mutator.Mutations

namespace MutationTesting.Mutator

open MutationTesting.Rust MutationTesting.Mir MutationTesting.Pcg

/-- The mutants differ in blocks, statements up to spans, or declarations. -/
def PairwiseDifferent (mutants : List Mutant) : Prop :=
  mutants.Pairwise fun m m' => m.body.eraseSpans ≠ m'.body.eraseSpans

/-! ## Mutants of two candidates -/

/-- Two insertions at one location give the same body exactly when they declare
    the same locals and insert the same statement. -/
theorem Insertion.eraseSpans_eq_iff {body : Body} {curr : Location}
    {fresh fresh' : List LocalDecl} {new new' : Statement} {m m' : Mutant}
    (h : Insertion body curr fresh new m) (h' : Insertion body curr fresh' new' m') :
    m.body.eraseSpans = m'.body.eraseSpans ↔ fresh = fresh' ∧ new.kind = new'.kind := by
  obtain ⟨bb, hbb, hlt, hblocks⟩ := h.exists_block
  obtain ⟨bb', hbb', -, hblocks'⟩ := h'.exists_block
  cases hbb.symm.trans hbb'
  have hblock := (List.getElem?_eq_some_iff.mp hbb).1
  constructor
  · intro heq
    have hdecls := congrArg Body.localDecls heq
    simp only [Body.eraseSpans, h.localDecls_eq, h'.localDecls_eq] at hdecls
    refine ⟨List.append_cancel_left hdecls, ?_⟩
    -- compare the statements of the block inserted into
    have hget := congrArg (fun b : Body => b.basicBlocks[curr.block]?) heq
    simp only [Body.eraseSpans, hblocks, hblocks', List.getElem?_map,
      List.getElem?_set_self hblock, Option.map_some, Option.some.injEq] at hget
    exact (eraseSpan_insertIdx_inj hlt _ _).mp (congrArg BasicBlockData.statements hget)
  · rintro ⟨rfl, hkind⟩
    have hstatements := (eraseSpan_insertIdx_inj hlt new new').mpr hkind
    rw [Body.eraseSpans, Body.eraseSpans, h.localDecls_eq, h'.localDecls_eq, hblocks, hblocks',
      List.map_set, List.map_set]
    simp only [BasicBlockData.eraseSpans]
    rw [hstatements]

/-- Two splits at one location with the same body use the same places. -/
theorem Split.places_eq_of_eraseSpans_eq {ctx : CompilerCtxt} {body : Body}
    {curr next : Location} {p q p' q' : Pcg.Place} {m m' : Mutant}
    (h : Split ctx body curr next p q m) (h' : Split ctx body curr next p' q' m')
    (heq : m.body.eraseSpans = m'.body.eraseSpans) : p = p' ∧ q = q' := by
  obtain ⟨bb, si, ty, blockingTy, -, -, -, -, -, hblocks⟩ := h.exists_block
  obtain ⟨bb', si', ty', blockingTy', -, -, -, -, -, hblocks'⟩ := h'.exists_block
  -- the last block holds the two reborrows
  have hget := congrArg (fun b : Body => b.basicBlocks[body.basicBlocks.length + 1]?) heq
  simp only [Body.eraseSpans, hblocks, hblocks', List.getElem?_map,
    getElem?_splitBlocks_sequence, Option.map_some, Option.some.injEq,
    BasicBlockData.eraseSpans, List.map_cons, List.map_nil] at hget
  simpa [Statement.eraseSpan, reborrow] using congrArg BasicBlockData.statements hget

namespace MutationKind

variable {order : HashOrder Pcg.Place} {ctx : CompilerCtxt} {body : Body}

/-- The candidates for which the mutants are the same. -/
def SameMutant (ctx : CompilerCtxt) (body : Body) : (k : MutationKind) → k.Candidate →
    k.Candidate → Prop
  | readFromWriteOnly, place, place' =>
    place.toPlace.ty ctx.tcx body.localDecls = place'.toPlace.ty ctx.tcx body.localDecls
  | _, c, c' => c = c'

theorem eraseSpans_eq_iff {k : MutationKind} {curr next : Location} {c c' : k.Candidate}
    {m m' : Mutant} (hbuilt : k.attempt ctx body curr next c = .ok (some m))
    (hbuilt' : k.attempt ctx body curr next c' = .ok (some m')) :
    m.body.eraseSpans = m'.body.eraseSpans ↔ k.SameMutant ctx body c c' := by
  cases k with
  | borrowExpiryOrder | abstractExpiryOrder =>
    constructor
    · intro heq
      obtain ⟨p, q⟩ := c
      obtain ⟨p', q'⟩ := c'
      have hsplit : Split ctx body curr next p q m := ExpiryOrder.attempt_inv hbuilt
      have hsplit' : Split ctx body curr next p' q' m' := ExpiryOrder.attempt_inv hbuilt'
      -- both reborrows are in the mutant block
      obtain ⟨rfl, rfl⟩ := hsplit.places_eq_of_eraseSpans_eq hsplit' heq
      rfl
    · rintro rfl
      cases hbuilt.symm.trans hbuilt'
      rfl
  | mutablyLendShared =>
    obtain ⟨p, region⟩ := c
    obtain ⟨p', region'⟩ := c'
    obtain ⟨ty, si, info, hty, hsi, hins⟩ := MutablyLendShared.attempt_inv hbuilt
    obtain ⟨ty', si', info', hty', hsi', hins'⟩ := MutablyLendShared.attempt_inv hbuilt'
    cases hsi.symm.trans hsi'
    rw [hins.eraseSpans_eq_iff hins']
    simp only [StatementKind.assign.injEq, Rvalue.ref.injEq, Pcg.Place.toPlace_inj, true_and]
    constructor
    · rintro ⟨-, rfl, rfl⟩
      rfl
    · intro hc
      cases hc
      cases hty.symm.trans hty'
      exact ⟨rfl, rfl, rfl⟩
  | readFromWriteOnly =>
    obtain ⟨ty, si, info, hty, hsi, hins⟩ := ReadFromWriteOnly.attempt_inv hbuilt
    obtain ⟨ty', si', info', hty', hsi', hins'⟩ := ReadFromWriteOnly.attempt_inv hbuilt'
    cases hsi.symm.trans hsi'
    -- the place itself is not in the mutant, only its type
    rw [hins.eraseSpans_eq_iff hins', SameMutant, hty, hty']
    simp [freshLocalDecl, LocalDecl.withSourceInfo, Ty.newMutRef]
  | writeToShared =>
    obtain ⟨si, hins⟩ := WriteToShared.attempt_inv hbuilt
    obtain ⟨si', hins'⟩ := WriteToShared.attempt_inv hbuilt'
    rw [hins.eraseSpans_eq_iff hins']
    simp [SameMutant]
  | moveFromBorrowed =>
    obtain ⟨ty, si, info, hty, hsi, hins⟩ := MoveFromBorrowed.attempt_inv hbuilt
    obtain ⟨ty', si', info', hty', hsi', hins'⟩ := MoveFromBorrowed.attempt_inv hbuilt'
    cases hsi.symm.trans hsi'
    rw [hins.eraseSpans_eq_iff hins']
    simp only [StatementKind.assign.injEq, Rvalue.use.injEq, Operand.move.injEq,
      Pcg.Place.toPlace_inj, true_and]
    constructor
    · rintro ⟨-, rfl⟩
      rfl
    · intro hc
      cases hc
      cases hty.symm.trans hty'
      exact ⟨rfl, rfl⟩

/-! ## The mutants of a stream -/

variable {curr next : PcgLocation} {k : MutationKind} {cs : List k.Candidate}

/-- The mutants of a stream differ when no two candidates that become mutants
    have the same one. -/
theorem pairwiseDifferent_iff (hcs : k.candidates order ctx body curr next = .ok cs)
    {stream : MutantStream} (hstream : k.makeStream order ctx body curr next = .ok stream)
    {ms : List Mutant} (hms : Produces stream ms) :
    PairwiseDifferent ms ↔ cs.Pairwise fun c c' =>
      ∀ m m', k.attempt ctx body curr.location next.location c = .ok (some m) →
        k.attempt ctx body curr.location next.location c' = .ok (some m') →
        ¬ k.SameMutant ctx body c c' := by
  rw [makeStream, hcs] at hstream
  cases hstream
  rw [← MutantStream.mutants_of_produces hms, PairwiseDifferent, MutantStream.mutants,
    List.pairwise_filterMap, List.pairwise_reverse, MutantStream.new, List.pairwise_map]
  -- only candidates that have become mutants count
  have hbuilt : ∀ (c : k.Candidate) (m : Mutant),
      (k.attempt ctx body curr.location next.location c).toOption.join = some m ↔
        k.attempt ctx body curr.location next.location c = .ok (some m) := by
    intro c m
    cases k.attempt ctx body curr.location next.location c with
    | error e => simp [Except.toOption]
    | ok built => cases built <;> simp [Except.toOption]
  apply List.Pairwise.iff
  intro c c'
  constructor
  · intro h m m' hm hm' hsame
    have hne := h m' ((hbuilt c' m').mpr hm') m ((hbuilt c m).mpr hm)
    exact hne ((eraseSpans_eq_iff hm hm').mpr hsame).symm
  · intro h m' hm' m hm heq
    have hm₁ := (hbuilt c m).mp hm
    have hm₁' := (hbuilt c' m').mp hm'
    exact h m m' hm₁ hm₁' ((eraseSpans_eq_iff hm₁ hm₁').mp heq.symm)

/-- After a statement of the body the candidates alone decide; after none, an
    insertion mutation makes no mutants. -/
theorem pairwiseDifferent_iff_of_insertion (hk : k.isExpiry = false)
    (hcs : k.candidates order ctx body curr next = .ok cs)
    {stream : MutantStream} (hstream : k.makeStream order ctx body curr next = .ok stream)
    {ms : List Mutant} (hms : Produces stream ms) :
    PairwiseDifferent ms ↔
      (IsStatement body curr.location → cs.Pairwise fun c c' => ¬ k.SameMutant ctx body c c') := by
  rw [pairwiseDifferent_iff hcs hstream hms]
  constructor
  · intro h hstmt
    refine List.Pairwise.imp_of_mem ?_ h
    intro c c' hc hc' hdiff
    obtain ⟨m, hm⟩ := attempt_isSome_of_insertion hk hstmt hcs hc
    obtain ⟨m', hm'⟩ := attempt_isSome_of_insertion hk hstmt hcs hc'
    exact hdiff m m' hm hm'
  · intro h
    by_cases hstmt : IsStatement body curr.location
    · exact (h hstmt).imp fun hdiff _ _ _ _ => hdiff
    -- past the statements of the block there are no mutants
    · refine List.pairwise_of_forall ?_
      intro c c' m m' hm
      obtain ⟨fresh, new, hins⟩ := attempt_insertion hk hm
      obtain ⟨bb, hbb, hlt, -⟩ := hins.exists_block
      exact absurd ⟨bb, hbb, hlt⟩ hstmt

end MutationKind

/-! ## Repetitions among the candidates -/

/-- The pairs of an expiry order are collected once each. -/
theorem mutantSequences_nodup {order : HashOrder Pcg.Place}
    {isBlockingEdge : HashSet BorrowPcgEdgeKind → Bool} {isValidEdge : BorrowPcgEdgeKind → Bool}
    {body : Body} {next : PcgLocation} {cs : List (Pcg.Place × Pcg.Place)}
    (h : mutantSequences order isBlockingEdge isValidEdge body next = .ok cs) : cs.Nodup := by
  obtain ⟨sequences, hsequences, h⟩ := Res.bind_inv h
  cases h
  -- each place is asked for once, and each place found for it is another
  refine Res.nodup_flatten_of_mapM Prod.fst hsequences (HashSet.nodup_iter _ _) ?_
  intro place pairs hpairs
  by_cases hnamed : hasNamedLocal place body = true
  · rw [if_pos hnamed] at hpairs
    obtain ⟨blockingPlaces, -, hpairs⟩ := Res.bind_inv hpairs
    cases hpairs
    refine ⟨?_, ?_⟩
    · have hnodup := (HashSet.nodup_iter order blockingPlaces).filter
        fun blockingPlace => hasNamedLocal blockingPlace body
      exact hnodup.map fun q q' hq => (Prod.mk.inj hq).2
    · rintro pair hpair
      obtain ⟨q, -, rfl⟩ := List.mem_map.mp hpair
      rfl
  · rw [if_neg hnamed] at hpairs
    cases hpairs
    exact ⟨List.nodup_nil, by simp⟩

theorem MoveFromBorrowed.candidates_nodup (order : HashOrder Pcg.Place) (body : Body)
    (curr next : PcgLocation) : (candidates order body curr next).Nodup :=
  ((HashSet.nodup_iter order _).filter _).filter _

/-- A place is blocked by some borrow satisfying `p`. -/
def IsBorrowed (graph : BorrowsGraph) (p : BorrowKind → Bool) (place : Pcg.Place) : Prop :=
  ∃ edge ∈ graph.edges, ∃ region, borrowedPlace p edge = some (place, region)

theorem isBorrowed_iff {graph : BorrowsGraph} {p : BorrowKind → Bool} {place : Pcg.Place} :
    place ∈ HashSet.collect ((borrowedPlaces graph p).map Prod.fst) ↔
      IsBorrowed graph p place := by
  rw [HashSet.mem_collect, List.mem_map]
  constructor
  · rintro ⟨⟨q, region⟩, hmem, rfl⟩
    obtain ⟨edge, hedge, hborrowed⟩ := mem_borrowedPlaces.mp hmem
    exact ⟨edge, hedge, region, hborrowed⟩
  · rintro ⟨edge, hedge, region, hborrowed⟩
    exact ⟨(place, region), mem_borrowedPlaces.mpr ⟨edge, hedge, hborrowed⟩, rfl⟩

theorem pairwise_borrowedPlaces {graph : BorrowsGraph} {p : BorrowKind → Bool}
    {R : Pcg.Place × Region → Pcg.Place × Region → Prop} :
    (borrowedPlaces graph p).Pairwise R ↔ graph.edges.Pairwise fun edge edge' =>
      ∀ b, borrowedPlace p edge = some b → ∀ b', borrowedPlace p edge' = some b' → R b b' :=
  List.pairwise_filterMap

namespace MutationKind

/-- No two edges, or capabilities, select candidates with the same mutant: for
    `MutablyLendShared` no two shared borrows of one place and region at `curr`,
    for `WriteToShared` no two shared borrows of one place at `next`, and for
    `ReadFromWriteOnly` no two write-only places of one type, among those that
    the other location and the name of the local let through. -/
def DistinctlySelected (ctx : CompilerCtxt) (body : Body) (curr next : PcgLocation) :
    MutationKind → Prop
  | mutablyLendShared =>
    (curr.states .postMain).borrowPcg.edges.Pairwise fun edge edge' => ∀ place region,
      borrowedPlace isShared edge = some (place, region) →
      borrowedPlace isShared edge' = some (place, region) → hasNamedLocal place body = true →
      ¬ IsBorrowed (next.states .postOperands).borrowPcg isShared place
  | writeToShared =>
    (next.states .postOperands).borrowPcg.edges.Pairwise fun edge edge' =>
      ∀ place region region', borrowedPlace isShared edge = some (place, region) →
      borrowedPlace isShared edge' = some (place, region') → hasNamedLocal place body = true →
      ¬ IsBorrowed (curr.states .postMain).borrowPcg isShared place
  | readFromWriteOnly =>
    (curr.states .postMain).capabilities.Pairwise fun (place, ck) (place', ck') =>
      ck = .write → ck' = .write →
      hasNamedLocal place body = true → hasNamedLocal place' body = true →
      (place, .write) ∈ (next.states .postOperands).capabilities →
      (place', .write) ∈ (next.states .postOperands).capabilities →
      place.toPlace.ty ctx.tcx body.localDecls ≠ place'.toPlace.ty ctx.tcx body.localDecls
  | borrowExpiryOrder | abstractExpiryOrder | moveFromBorrowed => True

variable {ctx : CompilerCtxt} {body : Body} {curr next : PcgLocation}

theorem mutablyLendShared_distinct_iff :
    (MutablyLendShared.candidates body curr next).Pairwise (· ≠ ·) ↔
      mutablyLendShared.DistinctlySelected ctx body curr next := by
  rw [MutablyLendShared.candidates, List.pairwise_filter, List.pairwise_filter,
    pairwise_borrowedPlaces]
  apply List.Pairwise.iff
  intro edge edge'
  simp only [decide_eq_true_iff, isBorrowed_iff]
  constructor
  · intro h place region hedge hedge' hnamed hborrowed
    exact h _ hedge _ hedge' hborrowed hborrowed hnamed hnamed rfl
  · rintro h ⟨place, region⟩ hedge b hedge' hborrowed - hnamed - rfl
    exact h place region hedge hedge' hnamed hborrowed

theorem writeToShared_distinct_iff :
    (WriteToShared.candidates body curr next).Pairwise (· ≠ ·) ↔
      writeToShared.DistinctlySelected ctx body curr next := by
  rw [WriteToShared.candidates, List.pairwise_map, List.pairwise_filter, List.pairwise_filter,
    pairwise_borrowedPlaces]
  apply List.Pairwise.iff
  intro edge edge'
  simp only [decide_eq_true_iff, isBorrowed_iff]
  constructor
  · intro h place region region' hedge hedge' hnamed hborrowed
    exact h _ hedge _ hedge' hborrowed hborrowed hnamed hnamed rfl
  · rintro h ⟨place, region⟩ hedge ⟨place', region'⟩ hedge' hborrowed - hnamed - heq
    obtain rfl : place = place' := heq
    exact h place region region' hedge hedge' hnamed hborrowed

theorem readFromWriteOnly_distinct_iff :
    (ReadFromWriteOnly.candidates body curr next).Pairwise (fun place place' =>
      ¬ readFromWriteOnly.SameMutant ctx body place place') ↔
      readFromWriteOnly.DistinctlySelected ctx body curr next := by
  rw [ReadFromWriteOnly.candidates, List.pairwise_filter, List.pairwise_filter]
  simp only [decide_eq_true_iff, mem_writeOnly]
  rw [writeOnly, List.pairwise_filterMap]
  apply List.Pairwise.iff
  rintro ⟨place, ck⟩ ⟨place', ck'⟩
  constructor
  · rintro h rfl rfl hnamed hnamed' hnext hnext'
    exact h place rfl place' rfl hnext hnext' hnamed hnamed'
  · intro h p hp p' hp' hnext hnext' hnamed hnamed'
    -- only a write capability selects a place
    cases ck <;> cases hp
    cases ck' <;> cases hp'
    exact h rfl rfl hnamed hnamed' hnext hnext'

/-- The mutants of a stream are pairwise different exactly when no two borrow
    edges, or write-only places, select the same mutant (or when `curr` is no
    statement). -/
theorem pairwiseDifferent_iff_distinctlySelected {order : HashOrder Pcg.Place} {k : MutationKind}
    {stream : MutantStream} (hstream : k.makeStream order ctx body curr next = .ok stream)
    {ms : List Mutant} (hms : Produces stream ms) :
    PairwiseDifferent ms ↔
      (IsStatement body curr.location → k.DistinctlySelected ctx body curr next) := by
  obtain ⟨cs, hcs, -⟩ := Res.bind_inv hstream
  cases k with
  | borrowExpiryOrder | abstractExpiryOrder =>
    rw [pairwiseDifferent_iff hcs hstream hms]
    refine iff_of_true ?_ (fun _ => trivial)
    -- the pairs of a stream differ as they are
    exact (mutantSequences_nodup hcs).imp fun hne _ _ _ _ => hne
  | mutablyLendShared =>
    rw [pairwiseDifferent_iff_of_insertion rfl hcs hstream hms]
    cases hcs
    exact imp_congr_right fun _ => mutablyLendShared_distinct_iff
  | readFromWriteOnly =>
    rw [pairwiseDifferent_iff_of_insertion rfl hcs hstream hms]
    cases hcs
    exact imp_congr_right fun _ => readFromWriteOnly_distinct_iff
  | writeToShared =>
    rw [pairwiseDifferent_iff_of_insertion rfl hcs hstream hms]
    cases hcs
    exact imp_congr_right fun _ => writeToShared_distinct_iff
  | moveFromBorrowed =>
    rw [pairwiseDifferent_iff_of_insertion rfl hcs hstream hms]
    cases hcs
    refine iff_of_true (fun _ => ?_) (fun _ => trivial)
    exact MoveFromBorrowed.candidates_nodup order body curr next

end MutationKind

/-! ## Two shared borrows of a place -/

namespace Sample

theorem consecutive_sharedBorrows : ConsecutiveIn body (point 0 3 sharedBorrows []).location
    (point 0 4 sharedBorrows []).location := consecutive

end Sample

namespace MutationKind

/-- The stream of `WriteToShared` writes to `x` twice. -/
theorem not_pairwiseDifferent : ¬ ∀ (k : MutationKind) (order : HashOrder Pcg.Place)
    (ctx : CompilerCtxt) (body : Body) (curr next : PcgLocation) (stream : MutantStream)
    (ms : List Mutant), ConsecutiveIn body curr.location next.location →
    k.makeStream order ctx body curr next = .ok stream → Produces stream ms →
    PairwiseDifferent ms := by
  intro h
  have hcs : writeToShared.candidates Sample.order Sample.ctx Sample.body
      (Sample.point 0 3 Sample.sharedBorrows []) (Sample.point 0 4 Sample.sharedBorrows []) =
      .ok [Sample.x, Sample.x] := rfl
  obtain ⟨stream, mutant, hstream, -, hproduces⟩ :=
    produces_of_consecutive Sample.consecutive_sharedBorrows hcs
  have hdifferent := h _ _ _ _ _ _ _ _ Sample.consecutive_sharedBorrows hstream hproduces
  exact (List.pairwise_cons.mp hdifferent).1 _ List.mem_cons_self rfl

/-- That of `MutablyLendShared` borrows `x` for either region, which makes two mutants. -/
theorem pairwiseDifferent_sharedBorrows : ∃ stream mutant mutant',
    mutablyLendShared.makeStream Sample.order Sample.ctx Sample.body
      (Sample.point 0 3 Sample.sharedBorrows []) (Sample.point 0 4 Sample.sharedBorrows []) =
      .ok stream ∧ Produces stream [mutant, mutant'] ∧ PairwiseDifferent [mutant, mutant'] := by
  have hcs : mutablyLendShared.candidates Sample.order Sample.ctx Sample.body
      (Sample.point 0 3 Sample.sharedBorrows []) (Sample.point 0 4 Sample.sharedBorrows []) =
      .ok [(Sample.x, .reVar 0), (Sample.x, .reVar 1)] := rfl
  obtain ⟨stream, mutant, hstream, -, hproduces⟩ :=
    produces_of_consecutive Sample.consecutive_sharedBorrows hcs
  refine ⟨stream, _, _, hstream, hproduces, ?_⟩
  refine (pairwiseDifferent_iff_distinctlySelected hstream hproduces).mpr fun _ => ?_
  -- the regions of the two edges differ
  refine List.pairwise_pair.mpr fun place region hedge hedge' _ _ => ?_
  cases hedge
  cases hedge'

end MutationKind

end MutationTesting.Mutator
