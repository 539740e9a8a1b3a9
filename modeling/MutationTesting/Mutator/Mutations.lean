/-
  MutationTesting.Mutator.Mutations

  The six mutations `main` runs, as one family: the candidates each
  `make_stream` collects, the mutant each `maybe_next` builds from one, and the
  stream of both.  What holds of the family is proved by cases on the mutation.
-/
import MutationTesting.Mutator.Insertion
import MutationTesting.Mutator.ExpiryOrder

namespace MutationTesting.Mutator

open MutationTesting.Rust MutationTesting.Mir MutationTesting.Pcg

inductive MutationKind where
  | borrowExpiryOrder
  | abstractExpiryOrder
  | mutablyLendShared
  | readFromWriteOnly
  | writeToShared
  | moveFromBorrowed
  deriving DecidableEq

namespace MutationKind

/-- The mutations of `main`, in its order. -/
def all : List MutationKind :=
  [borrowExpiryOrder, abstractExpiryOrder, mutablyLendShared, readFromWriteOnly, writeToShared,
    moveFromBorrowed]

def name : MutationKind → String
  | borrowExpiryOrder => "borrow-expiry-order"
  | abstractExpiryOrder => "abstract-expiry-order"
  | mutablyLendShared => "mutably-lend-shared"
  | readFromWriteOnly => "read-from-write-only"
  | writeToShared => "write-to-shared"
  | moveFromBorrowed => "move-from-borrowed"

/-- Whether the mutation splits a block instead of inserting a statement. -/
def isExpiry : MutationKind → Bool
  | borrowExpiryOrder | abstractExpiryOrder => true
  | _ => false

/-- The elements of the vector a mutation's `Iter` pops. -/
abbrev Candidate : MutationKind → Type
  | borrowExpiryOrder | abstractExpiryOrder => Pcg.Place × Pcg.Place
  | mutablyLendShared => Pcg.Place × Region
  | readFromWriteOnly | writeToShared | moveFromBorrowed => Pcg.Place

/-- The places a candidate selects, in the order in which they are to be used. -/
def places : (k : MutationKind) → k.Candidate → List Pcg.Place
  | borrowExpiryOrder, (place, blockingPlace) => [place, blockingPlace]
  | abstractExpiryOrder, (place, blockingPlace) => [place, blockingPlace]
  | mutablyLendShared, (place, _) => [place]
  | readFromWriteOnly, place => [place]
  | writeToShared, place => [place]
  | moveFromBorrowed, place => [place]

/-- The candidates `make_stream` collects. -/
def candidates (order : HashOrder Pcg.Place) (ctx : CompilerCtxt) (body : Body)
    (curr next : PcgLocation) : (k : MutationKind) → Res (List k.Candidate)
  | borrowExpiryOrder => BorrowExpiryOrder.candidates order ctx body next
  | abstractExpiryOrder => AbstractExpiryOrder.candidates order ctx body next
  | mutablyLendShared => .ok (MutablyLendShared.candidates body curr next)
  | readFromWriteOnly => .ok (ReadFromWriteOnly.candidates body curr next)
  | writeToShared => .ok (WriteToShared.candidates body curr next)
  | moveFromBorrowed => .ok (MoveFromBorrowed.candidates order body curr next)

/-- The attempt `maybe_next` makes at a popped candidate. -/
def attempt (ctx : CompilerCtxt) (body : Body) (curr next : Location) :
    (k : MutationKind) → k.Candidate → Attempt
  | borrowExpiryOrder => ExpiryOrder.attempt ctx body curr next
  | abstractExpiryOrder => ExpiryOrder.attempt ctx body curr next
  | mutablyLendShared => MutablyLendShared.attempt ctx body curr
  | readFromWriteOnly => ReadFromWriteOnly.attempt ctx body curr
  | writeToShared => WriteToShared.attempt ctx body curr
  | moveFromBorrowed => MoveFromBorrowed.attempt ctx body curr

/-- `make_stream`. -/
def makeStream (order : HashOrder Pcg.Place) (k : MutationKind) (ctx : CompilerCtxt)
    (body : Body) (curr next : PcgLocation) : Res MutantStream := do
  let candidates ← k.candidates order ctx body curr next
  return MutantStream.new ⟨candidates, k.attempt ctx body curr.location next.location⟩

/-- The mutation as the `Mutator` sees it. -/
def mutation (order : HashOrder Pcg.Place) (k : MutationKind) : Mutation MutantStream :=
  ⟨k.makeStream order, k.name⟩

end MutationKind

/-! ## Candidates are named places -/

theorem mutantSequences_named {order : HashOrder Pcg.Place}
    {isBlockingEdge : HashSet BorrowPcgEdgeKind → Bool}
    {isValidEdge : BorrowPcgEdgeKind → Bool} {body : Body} {next : PcgLocation}
    {cs : List (Pcg.Place × Pcg.Place)}
    (h : mutantSequences order isBlockingEdge isValidEdge body next = .ok cs)
    {place blockingPlace : Pcg.Place} (hc : (place, blockingPlace) ∈ cs) :
    hasNamedLocal place body = true ∧ hasNamedLocal blockingPlace body = true := by
  obtain ⟨sequences, hsequences, h⟩ := Res.bind_inv h
  cases h
  obtain ⟨pairs, hpairs, hc⟩ := List.mem_flatten.mp hc
  obtain ⟨p, -, hp⟩ := Res.mem_mapM_inv hsequences hpairs
  -- both places of a pair pass the filter, the one before the search, the other after it
  by_cases hnamed : hasNamedLocal p body = true
  · rw [if_pos hnamed] at hp
    obtain ⟨blockingPlaces, -, hp⟩ := Res.bind_inv hp
    cases hp
    obtain ⟨q, hq, hpq⟩ := List.mem_map.mp hc
    cases hpq
    exact ⟨hnamed, (List.mem_filter.mp hq).2⟩
  · rw [if_neg hnamed] at hp
    cases hp
    simp at hc

namespace MutationKind

variable {order : HashOrder Pcg.Place} {ctx : CompilerCtxt} {body : Body}
  {curr next : PcgLocation}

/-- Every place of every candidate belongs to a variable the user named. -/
theorem places_named {k : MutationKind} {cs : List k.Candidate}
    (h : k.candidates order ctx body curr next = .ok cs) {c : k.Candidate} (hc : c ∈ cs)
    {place : Pcg.Place} (hplace : place ∈ k.places c) : hasNamedLocal place body = true := by
  cases k with
  | borrowExpiryOrder | abstractExpiryOrder =>
    obtain ⟨p, q⟩ := c
    obtain ⟨hp, hq⟩ := mutantSequences_named h hc
    rcases List.mem_cons.mp hplace with rfl | hplace
    · exact hp
    · obtain rfl := List.mem_singleton.mp hplace
      exact hq
  | mutablyLendShared =>
    cases h
    obtain ⟨p, region⟩ := c
    obtain rfl := List.mem_singleton.mp hplace
    exact (List.mem_filter.mp hc).2
  | readFromWriteOnly | moveFromBorrowed =>
    cases h
    obtain rfl := List.mem_singleton.mp hplace
    exact (List.mem_filter.mp hc).2
  | writeToShared =>
    cases h
    obtain rfl := List.mem_singleton.mp hplace
    -- the filter comes before the regions are dropped
    obtain ⟨⟨p, region⟩, hmem, rfl⟩ := List.mem_map.mp hc
    exact (List.mem_filter.mp hmem).2

theorem places_lt {k : MutationKind} {cs : List k.Candidate}
    (h : k.candidates order ctx body curr next = .ok cs) {c : k.Candidate} (hc : c ∈ cs)
    {place : Pcg.Place} (hplace : place ∈ k.places c) : place.local < body.localDecls.length :=
  hasNamedLocal_lt (places_named h hc hplace)

/-! ## What the stream returns -/

/-- Every mutant of a stream comes from a candidate `make_stream` collected. -/
theorem exists_of_emits {k : MutationKind} {stream : MutantStream} {mutant : Mutant}
    (hstream : k.makeStream order ctx body curr next = .ok stream)
    (hm : Emits stream mutant) :
    ∃ cs, k.candidates order ctx body curr next = .ok cs ∧
      ∃ c ∈ cs, k.attempt ctx body curr.location next.location c = .ok (some mutant) := by
  obtain ⟨cs, hcs, h⟩ := Res.bind_inv hstream
  cases h
  exact ⟨cs, hcs, MutantStream.exists_of_emits hm⟩

/-- The mutations other than the expiry orders insert one statement. -/
theorem attempt_insertion {k : MutationKind} (hk : k.isExpiry = false) {c : k.Candidate}
    {loc loc' : Location} {mutant : Mutant}
    (h : k.attempt ctx body loc loc' c = .ok (some mutant)) :
    ∃ fresh new, Insertion body loc fresh new mutant := by
  cases k with
  | borrowExpiryOrder | abstractExpiryOrder => cases hk
  | mutablyLendShared =>
    obtain ⟨ty, sourceInfo, info, -, -, hins⟩ := MutablyLendShared.attempt_inv h
    exact ⟨_, _, hins⟩
  | readFromWriteOnly =>
    obtain ⟨ty, sourceInfo, info, -, -, hins⟩ := ReadFromWriteOnly.attempt_inv h
    exact ⟨_, _, hins⟩
  | moveFromBorrowed =>
    obtain ⟨ty, sourceInfo, info, -, -, hins⟩ := MoveFromBorrowed.attempt_inv h
    exact ⟨_, _, hins⟩
  | writeToShared =>
    obtain ⟨sourceInfo, hins⟩ := WriteToShared.attempt_inv h
    exact ⟨_, _, hins⟩

/-- The expiry orders split the block. -/
theorem attempt_split {k : MutationKind} (hk : k.isExpiry = true) {c : k.Candidate}
    {loc loc' : Location} {mutant : Mutant}
    (h : k.attempt ctx body loc loc' c = .ok (some mutant)) :
    ∃ place blockingPlace, k.places c = [place, blockingPlace] ∧
      Split ctx body loc loc' place blockingPlace mutant := by
  cases k with
  | borrowExpiryOrder | abstractExpiryOrder =>
    obtain ⟨place, blockingPlace⟩ := c
    exact ⟨place, blockingPlace, rfl, ExpiryOrder.attempt_inv h⟩
  | _ => cases hk

end MutationKind

/-! ## Consecutive locations -/

/-- `loc` is a statement of the body. -/
def IsStatement (body : Body) (loc : Location) : Prop :=
  ∃ bb, body.basicBlocks[loc.block]? = some bb ∧ loc.statementIndex < bb.statements.length

/-- `curr` is a statement of the body and `next` the location after it, the
    block's terminator included. -/
structure ConsecutiveIn (body : Body) (curr next : Location) : Prop where
  isStatement : IsStatement body curr
  next_eq : next = ⟨curr.block, curr.statementIndex + 1⟩

/-- After a statement of the body every candidate of an insertion mutation
    becomes a mutant. -/
theorem MutationKind.attempt_isSome_of_insertion {order : HashOrder Pcg.Place}
    {ctx : CompilerCtxt} {body : Body} {curr next : PcgLocation} {k : MutationKind}
    (hk : k.isExpiry = false) {cs : List k.Candidate} (hstmt : IsStatement body curr.location)
    (hcs : k.candidates order ctx body curr next = .ok cs) {c : k.Candidate} (hc : c ∈ cs) :
    ∃ mutant, k.attempt ctx body curr.location next.location c = .ok (some mutant) := by
  -- a named local is declared, so no lookup of its type misses
  have hplaces : ∀ place ∈ k.places c, place.local < body.localDecls.length :=
    fun _ hplace => places_lt hcs hc hplace
  obtain ⟨bb, hbb, hlt⟩ := hstmt
  cases k with
  | borrowExpiryOrder | abstractExpiryOrder => cases hk
  | mutablyLendShared =>
    show ∃ mutant, MutablyLendShared.attempt ctx body curr.location c = .ok (some mutant)
    obtain ⟨place, region⟩ := c
    unfold MutablyLendShared.attempt
    exact insertWithFreshLocal_isSome (hplaces place List.mem_cons_self) hbb hlt
  | readFromWriteOnly =>
    show ∃ mutant, ReadFromWriteOnly.attempt ctx body curr.location c = .ok (some mutant)
    unfold ReadFromWriteOnly.attempt
    exact insertWithFreshLocal_isSome (hplaces c List.mem_cons_self) hbb hlt
  | moveFromBorrowed =>
    show ∃ mutant, MoveFromBorrowed.attempt ctx body curr.location c = .ok (some mutant)
    unfold MoveFromBorrowed.attempt
    exact insertWithFreshLocal_isSome (hplaces c List.mem_cons_self) hbb hlt
  | writeToShared =>
    exact WriteToShared.attempt_isSome (hplaces c List.mem_cons_self) hbb hlt

/-- At consecutive locations every candidate becomes a mutant: no lookup misses
    and nothing panics. -/
theorem MutationKind.attempt_isSome {order : HashOrder Pcg.Place} {ctx : CompilerCtxt}
    {body : Body} {curr next : PcgLocation} {k : MutationKind} {cs : List k.Candidate}
    (hpair : ConsecutiveIn body curr.location next.location)
    (hcs : k.candidates order ctx body curr next = .ok cs) {c : k.Candidate} (hc : c ∈ cs) :
    ∃ mutant, k.attempt ctx body curr.location next.location c = .ok (some mutant) := by
  cases hk : k.isExpiry with
  | false => exact attempt_isSome_of_insertion hk hpair.isStatement hcs hc
  | true =>
    have hplaces : ∀ place ∈ k.places c, place.local < body.localDecls.length :=
      fun _ hplace => places_lt hcs hc hplace
    obtain ⟨⟨bb, hbb, hlt⟩, hnext⟩ := hpair
    -- the split is within the block
    have hle : next.location.statementIndex ≤ bb.statements.length := by
      rw [hnext]
      exact hlt
    cases k with
    | borrowExpiryOrder | abstractExpiryOrder =>
      obtain ⟨place, blockingPlace⟩ := c
      exact ExpiryOrder.attempt_isSome (hplaces place List.mem_cons_self)
        (hplaces blockingPlace (List.mem_cons_of_mem _ List.mem_cons_self)) hbb hle
    | _ => cases hk

/-- At consecutive locations the stream returns one mutant for each candidate,
    the last candidate's first, and is then spent. -/
theorem MutationKind.produces_of_consecutive {order : HashOrder Pcg.Place}
    {ctx : CompilerCtxt} {body : Body} {curr next : PcgLocation} {k : MutationKind}
    {cs : List k.Candidate} (hpair : ConsecutiveIn body curr.location next.location)
    (hcs : k.candidates order ctx body curr next = .ok cs) :
    ∃ stream mutant, k.makeStream order ctx body curr next = .ok stream ∧
      (∀ c ∈ cs, k.attempt ctx body curr.location next.location c = .ok (some (mutant c))) ∧
      Produces stream (cs.reverse.map mutant) := by
  classical
  have hbuilt := fun c hc => attempt_isSome (c := c) hpair hcs hc
  let mutant (c : k.Candidate) : Mutant :=
    if hc : c ∈ cs then (hbuilt c hc).choose else ⟨body, ⟨⟨0, 0⟩, ⟨0, 0⟩⟩, ""⟩
  have hmutant : ∀ c ∈ cs,
      k.attempt ctx body curr.location next.location c = .ok (some (mutant c)) := by
    intro c hc
    simp only [mutant, dif_pos hc]
    exact (hbuilt c hc).choose_spec
  refine ⟨_, mutant, ?_, hmutant, MutantStream.produces_of_attempts hmutant⟩
  rw [makeStream, hcs]
  rfl

/-! ## A sample program point

`fn f() { let y; let mut x = String::new(); let r = &mut x; *r = a(); *r = b(); }`
between its last two assignments, where `x` is mutably borrowed by `r` and `y` is
write-only.  Dropping the old value of `*r` may unwind; the cleanup block then
performs the assignment before it resumes.  The concrete cases here and in later
modules are about this body. -/

namespace Sample

/-- The type of `x`. -/
def string : Ty := .adt 0 .nil

def tcx : TyCtxt where
  projectionTy
    | .ref _ ty _, .deref => ty
    | _, .field _ ty => ty
    | ty, _ => ty
  constTy _ := string
  otherRvalueTy _ _ := string
  debugPlace place := "_" ++ toString place.local
  debugStatement _ := "statement"

def userDecl (ty : Ty) : LocalDecl := freshLocalDecl ty ⟨0, 0⟩

def x : Pcg.Place := ⟨1, []⟩
def r : Pcg.Place := ⟨2, []⟩
def y : Pcg.Place := ⟨3, []⟩

def localDecls : List LocalDecl :=
  [.withSourceInfo (.tuple .nil) ⟨0, 0⟩, userDecl string,
    userDecl (Ty.newMutRef (.reVar 0) string), userDecl string]

def statements : List Statement :=
  [⟨⟨1, 0⟩, .storageLive 3⟩,
    ⟨⟨2, 0⟩, .assign x.toPlace (.use (.constant 0))⟩,
    ⟨⟨3, 0⟩, .assign r.toPlace (.ref (.reVar 0) (.mut .default) x.toPlace)⟩,
    ⟨⟨4, 0⟩, .assign ⟨2, [.deref]⟩ (.use (.constant 1))⟩,
    ⟨⟨5, 0⟩, .assign ⟨2, [.deref]⟩ (.use (.constant 2))⟩]

def cleanupStatements : List Statement :=
  [⟨⟨6, 0⟩, .assign ⟨2, [.deref]⟩ (.use (.constant 3))⟩,
    ⟨⟨6, 0⟩, .storageDead 3⟩]

def body : Body where
  basicBlocks :=
    [⟨statements, some ⟨⟨6, 0⟩, .drop ⟨2, [.deref]⟩ 2 (.cleanup 1) true⟩, false⟩,
      ⟨cleanupStatements, some ⟨⟨6, 0⟩, .unwindResume⟩, true⟩,
      ⟨[], some ⟨⟨7, 0⟩, .return⟩, false⟩]
  localDecls := localDecls

def ctx : CompilerCtxt := ⟨tcx, body⟩

/-- A local borrow of `x`, held by `holder`. -/
def borrowOfX (kind : BorrowKind) (holder : Pcg.Place) (region : Region) : BorrowPcgEdge where
  kind := .borrow (.local ⟨.current x, .current holder, kind, region, ⟨0, 2⟩⟩)
  blockedNodes := [x.into]
  blockedByNodes := [.place (.current holder)]

/-- `x` is shared by two borrows, each with a region of its own. -/
def sharedBorrows : List BorrowPcgEdge :=
  [borrowOfX .shared r (.reVar 0), borrowOfX .shared y (.reVar 1)]

/-- A program point with one state at all its phases. -/
def point (block index : Nat) (edges : List BorrowPcgEdge) (writeOnly : List Pcg.Place) :
    PcgLocation where
  location := ⟨block, index⟩
  states _ := ⟨writeOnly.map fun place => (place, .write), ⟨edges⟩⟩

def curr : PcgLocation := point 0 3 [borrowOfX (.mut .default) r (.reVar 0)] [y]
def next : PcgLocation := point 0 4 [borrowOfX (.mut .default) r (.reVar 0)] [y]

def order : HashOrder Pcg.Place := HashOrder.insertion Pcg.Place

theorem consecutive : ConsecutiveIn body curr.location next.location :=
  ⟨⟨_, rfl, by decide⟩, rfl⟩

/-! The candidates at this point. -/

theorem expiry_candidates :
    MutationKind.borrowExpiryOrder.candidates order ctx body curr next = .ok [(x, r)] := rfl

theorem read_candidates :
    MutationKind.readFromWriteOnly.candidates order ctx body curr next = .ok [y] := rfl

theorem move_candidates :
    MutationKind.moveFromBorrowed.candidates order ctx body curr next = .ok [x] := rfl

end Sample

end MutationTesting.Mutator
