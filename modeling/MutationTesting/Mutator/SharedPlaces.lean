/-
  MutationTesting.Mutator.SharedPlaces

  The places `WriteToShared` writes to and the places `MutablyLendShared` borrows
  mutably.  The one filters the borrows at `next` by a set built at `curr`, the
  other the borrows at `curr` by a set built at `next`; both attack exactly the
  named places that are shared at both.
-/
import MutationTesting.Mutator.Deletion

namespace MutationTesting.Mutator

open MutationTesting.Rust MutationTesting.Mir MutationTesting.Pcg

/-! ## Attacked places -/

/-- The statement writes to the place. -/
def WritesTo (statement : Statement) (place : Mir.Place) : Prop :=
  ∃ rvalue, statement.kind = .assign place rvalue

/-- The statement borrows the place mutably. -/
def MutablyBorrows (statement : Statement) (place : Mir.Place) : Prop :=
  ∃ target region, statement.kind = .assign target (.ref region (.mut .default) place)

/-- The places that the statements inserted after `curr` by the mutants of a
    stream attack. -/
def Attacked (stream : MutantStream) (curr : Location) (attacks : Statement → Mir.Place → Prop) :
    Set Pcg.Place :=
  {place | ∃ mutant, Emits stream mutant ∧ ∃ new,
    mutant.body.statementAt ⟨curr.block, curr.statementIndex + 1⟩ = some new ∧
    attacks new place.toPlace}

/-- Some local shared borrow of the graph blocks the place as it is now. -/
def SharedIn (graph : BorrowsGraph) (place : Pcg.Place) : Prop :=
  ∃ edge ∈ graph.edges, ∃ borrow : LocalBorrow, edge.kind = .borrow (.local borrow) ∧
    borrow.kind = .shared ∧ borrow.blockedPlace = .current place

/-- The named places that are shared after `curr` and still before `next`. -/
def SharedInBoth (body : Body) (curr next : PcgLocation) : Set Pcg.Place :=
  {place | hasNamedLocal place body = true ∧ SharedIn (curr.states .postMain).borrowPcg place ∧
    SharedIn (next.states .postOperands).borrowPcg place}

theorem isShared_eq_true {kind : BorrowKind} : isShared kind = true ↔ kind = .shared := by
  cases kind <;> simp [isShared]

theorem exists_borrowedPlaces_iff {graph : BorrowsGraph} {place : Pcg.Place} :
    (∃ region, (place, region) ∈ borrowedPlaces graph isShared) ↔ SharedIn graph place := by
  simp only [mem_borrowedPlaces, borrowedPlace_eq_some, isShared_eq_true]
  constructor
  · rintro ⟨region, edge, hedge, borrow, hkind, hshared, hplace, -⟩
    exact ⟨edge, hedge, borrow, hkind, hshared, hplace⟩
  · rintro ⟨edge, hedge, borrow, hkind, hshared, hplace⟩
    exact ⟨borrow.region, edge, hedge, borrow, hkind, hshared, hplace, rfl⟩

theorem mem_collect_borrowedPlaces {graph : BorrowsGraph} {place : Pcg.Place} :
    place ∈ HashSet.collect ((borrowedPlaces graph isShared).map Prod.fst) ↔
      SharedIn graph place := by
  rw [HashSet.mem_collect, List.mem_map, ← exists_borrowedPlaces_iff]
  constructor
  · rintro ⟨⟨_, region⟩, hmem, rfl⟩
    exact ⟨region, hmem⟩
  · rintro ⟨region, hmem⟩
    exact ⟨_, hmem, rfl⟩

/-! ## Selection -/

section Selection

variable {body : Body} {curr next : PcgLocation} {place : Pcg.Place}

theorem MutablyLendShared.exists_candidate_iff :
    (∃ region, (place, region) ∈ MutablyLendShared.candidates body curr next) ↔
      place ∈ SharedInBoth body curr next := by
  simp only [candidates, List.mem_filter, decide_eq_true_eq, mem_collect_borrowedPlaces]
  constructor
  · rintro ⟨region, ⟨hcurr, hnext⟩, hnamed⟩
    exact ⟨hnamed, exists_borrowedPlaces_iff.mp ⟨region, hcurr⟩, hnext⟩
  · rintro ⟨hnamed, hcurr, hnext⟩
    obtain ⟨region, hregion⟩ := exists_borrowedPlaces_iff.mpr hcurr
    exact ⟨region, ⟨hregion, hnext⟩, hnamed⟩

theorem WriteToShared.mem_candidates :
    place ∈ WriteToShared.candidates body curr next ↔ place ∈ SharedInBoth body curr next := by
  simp only [candidates, List.mem_map, List.mem_filter, decide_eq_true_eq,
    mem_collect_borrowedPlaces]
  constructor
  · rintro ⟨⟨_, region⟩, ⟨⟨hnext, hcurr⟩, hnamed⟩, rfl⟩
    exact ⟨hnamed, hcurr, exists_borrowedPlaces_iff.mp ⟨region, hnext⟩⟩
  · rintro ⟨hnamed, hcurr, hnext⟩
    obtain ⟨region, hregion⟩ := exists_borrowedPlaces_iff.mpr hnext
    exact ⟨(place, region), ⟨⟨hregion, hcurr⟩, hnamed⟩, rfl⟩

end Selection

/-! ## Attacks -/

section Attacks

variable {ctx : CompilerCtxt} {body : Body} {curr : Location}

/-- The statement a write mutant inserts writes to its place and to no other. -/
theorem WriteToShared.attack {candidate : Pcg.Place} {mutant : Mutant}
    (h : WriteToShared.attempt ctx body curr candidate = .ok (some mutant)) :
    ∃ new, mutant.body.statementAt ⟨curr.block, curr.statementIndex + 1⟩ = some new ∧
      ∀ place : Pcg.Place, WritesTo new place.toPlace ↔ place = candidate := by
  obtain ⟨sourceInfo, hinsertion⟩ := WriteToShared.attempt_inv h
  refine ⟨_, hinsertion.statementAt_new, fun place => ?_⟩
  constructor
  · rintro ⟨rvalue, hkind⟩
    injection hkind with hplace
    exact (Place.toPlace_inj.mp hplace).symm
  · rintro rfl
    exact ⟨_, rfl⟩

/-- The statement a lending mutant inserts borrows its place and no other. -/
theorem MutablyLendShared.attack {candidate : Pcg.Place × Region} {mutant : Mutant}
    (h : MutablyLendShared.attempt ctx body curr candidate = .ok (some mutant)) :
    ∃ new, mutant.body.statementAt ⟨curr.block, curr.statementIndex + 1⟩ = some new ∧
      ∀ place : Pcg.Place, MutablyBorrows new place.toPlace ↔ place = candidate.1 := by
  obtain ⟨lent, region⟩ := candidate
  obtain ⟨ty, sourceInfo, info, -, -, hinsertion⟩ := MutablyLendShared.attempt_inv h
  refine ⟨_, hinsertion.statementAt_new, fun place => ?_⟩
  constructor
  · rintro ⟨target, region', hkind⟩
    injection hkind with _ hrvalue
    injection hrvalue with _ _ hplace
    exact (Place.toPlace_inj.mp hplace).symm
  · rintro rfl
    exact ⟨_, _, rfl⟩

end Attacks

/-- At consecutive locations a stream attacks the places of its candidates. -/
theorem MutationKind.mem_attacked {order : HashOrder Pcg.Place} {ctx : CompilerCtxt}
    {body : Body} {curr next : PcgLocation} (k : MutationKind) {cs : List k.Candidate}
    (hpair : ConsecutiveIn body curr.location next.location)
    (hcs : k.candidates order ctx body curr next = .ok cs)
    {attacks : Statement → Mir.Place → Prop} (target : k.Candidate → Pcg.Place)
    (hattack : ∀ c mutant, k.attempt ctx body curr.location next.location c = .ok (some mutant) →
      ∃ new, mutant.body.statementAt
          ⟨curr.location.block, curr.location.statementIndex + 1⟩ = some new ∧
        ∀ place : Pcg.Place, attacks new place.toPlace ↔ place = target c) :
    ∃ stream, k.makeStream order ctx body curr next = .ok stream ∧
      ∀ place, place ∈ Attacked stream curr.location attacks ↔ ∃ c ∈ cs, target c = place := by
  obtain ⟨stream, mutant, hstream, hbuilt, it', hyields, -⟩ := produces_of_consecutive hpair hcs
  refine ⟨stream, hstream, fun place => ?_⟩
  -- no candidate is dropped, so each emits its mutant
  have hemits : ∀ m, Emits stream m ↔ ∃ c ∈ cs, mutant c = m := by
    intro m
    rw [← hyields.mem_iff_emits, List.mem_map]
    simp only [List.mem_reverse]
  constructor
  · rintro ⟨m, hm, new, hnew, hattacks⟩
    obtain ⟨c, hc, rfl⟩ := (hemits m).mp hm
    obtain ⟨new', hnew', hiff⟩ := hattack c _ (hbuilt c hc)
    obtain rfl : new = new' := Option.some.inj (hnew.symm.trans hnew')
    exact ⟨c, hc, ((hiff place).mp hattacks).symm⟩
  · rintro ⟨c, hc, rfl⟩
    obtain ⟨new, hnew, hiff⟩ := hattack c _ (hbuilt c hc)
    exact ⟨mutant c, (hemits _).mpr ⟨c, hc, rfl⟩, new, hnew, (hiff _).mpr rfl⟩

/-- At consecutive locations of the body, the places written to by one mutation
    and the places mutably borrowed by the other are the same: the named places
    that are shared at both locations. -/
theorem MutationKind.attack_same_places (order : HashOrder Pcg.Place) (ctx : CompilerCtxt)
    {body : Body} {curr next : PcgLocation}
    (hpair : ConsecutiveIn body curr.location next.location) :
    ∃ writes lends, writeToShared.makeStream order ctx body curr next = .ok writes ∧
      mutablyLendShared.makeStream order ctx body curr next = .ok lends ∧
      Attacked writes curr.location WritesTo = Attacked lends curr.location MutablyBorrows ∧
      Attacked writes curr.location WritesTo = SharedInBoth body curr next := by
  have hwriteCandidates : writeToShared.candidates order ctx body curr next =
      .ok (WriteToShared.candidates body curr next) := rfl
  have hlendCandidates : mutablyLendShared.candidates order ctx body curr next =
      .ok (MutablyLendShared.candidates body curr next) := rfl
  obtain ⟨writes, hwrites, hwritten⟩ := mem_attacked writeToShared hpair hwriteCandidates id
    fun _ _ h => WriteToShared.attack h
  obtain ⟨lends, hlends, hlent⟩ := mem_attacked mutablyLendShared hpair hlendCandidates Prod.fst
    fun _ _ h => MutablyLendShared.attack h
  -- either filter asks for the place at the other location
  have hwriteSet : Attacked writes curr.location WritesTo = SharedInBoth body curr next := by
    ext place
    rw [hwritten, ← WriteToShared.mem_candidates]
    simp
  have hlendSet : Attacked lends curr.location MutablyBorrows = SharedInBoth body curr next := by
    ext place
    rw [hlent, ← MutablyLendShared.exists_candidate_iff]
    simp
  exact ⟨writes, lends, hwrites, hlends, hwriteSet.trans hlendSet.symm, hwriteSet⟩

/-- Two shared borrows of `x` make one attacked place. -/
theorem MutationKind.attack_same_places_sample :
    let edges := [Sample.borrowOfX .shared Sample.r (.reVar 0),
      Sample.borrowOfX .shared Sample.y (.reVar 1)]
    ∃ lends, mutablyLendShared.makeStream Sample.order Sample.ctx Sample.body
        (Sample.point 0 3 edges []) (Sample.point 0 4 edges []) = .ok lends ∧
      Sample.x ∈ Attacked lends ⟨0, 3⟩ MutablyBorrows := by
  intro edges
  have hpair : ConsecutiveIn Sample.body (Sample.point 0 3 edges []).location
      (Sample.point 0 4 edges []).location := Sample.consecutive
  obtain ⟨writes, lends, -, hlends, hsame, hset⟩ :=
    attack_same_places Sample.order Sample.ctx hpair
  have hshared : SharedIn ⟨edges⟩ Sample.x := ⟨_, List.mem_cons_self, _, rfl, rfl, rfl⟩
  refine ⟨lends, hlends, ?_⟩
  show Sample.x ∈ Attacked lends (Sample.point 0 3 edges []).location MutablyBorrows
  rw [← hsame, hset]
  exact ⟨rfl, hshared, hshared⟩

end MutationTesting.Mutator
