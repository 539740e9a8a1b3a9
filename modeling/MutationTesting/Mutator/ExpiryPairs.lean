/-
  MutationTesting.Mutator.ExpiryPairs

  The pairs the two expiry mutations collect, as relations between places.  A
  pair is collected exactly if its first place is mutably borrowed, both places
  are named and a blocking path leads from the one to the other.  On an acyclic
  graph each relation is a strict partial order, and the pairs of
  `AbstractExpiryOrder` are those of `BorrowExpiryOrder` that some path through
  an abstraction edge witnesses.
-/
import MutationTesting.Mutator.BlockingPaths

namespace MutationTesting.Mutator

open Relation MutationTesting.Rust MutationTesting.Mir MutationTesting.Pcg MutationTesting.Graph

/-! ## Collected pairs -/

section Collected

variable {graph : BorrowsGraph} {isBlockingEdge : HashSet BorrowPcgEdgeKind → Bool}
  {isValidEdge : BorrowPcgEdgeKind → Bool} {body : Body}

/-- What makes `(place, q)` a pair to collect. -/
structure Collects (graph : BorrowsGraph) (isBlockingEdge : HashSet BorrowPcgEdgeKind → Bool)
    (isValidEdge : BorrowPcgEdgeKind → Bool) (body : Body) (place q : Pcg.Place) : Prop where
  borrowed : ∃ region, (place, region) ∈ borrowedPlaces graph isMut
  named : hasNamedLocal place body = true
  blocking_named : hasNamedLocal q body = true
  exists_path : ∃ path, BlockingPath graph isBlockingEdge isValidEdge place q path

/-- `mutantSequences` collects these pairs and no others. -/
theorem mem_mutantSequences {order : HashOrder Pcg.Place} {next : PcgLocation}
    {pairs : List (Pcg.Place × Pcg.Place)}
    (h : mutantSequences order isBlockingEdge isValidEdge body next = .ok pairs)
    (place q : Pcg.Place) :
    (place, q) ∈ pairs ↔ Collects (next.states .postOperands).borrowPcg isBlockingEdge
      isValidEdge body place q := by
  obtain ⟨sequences, hsequences, h⟩ := Res.bind_inv h
  cases h
  rw [List.mem_flatten]
  constructor
  · rintro ⟨sequence, hsequence, hpair⟩
    obtain ⟨place', hplace', hcall⟩ := Res.mem_mapM_inv hsequences hsequence
    split at hcall
    · next hnamed =>
      obtain ⟨places, hplaces, hcall⟩ := Res.bind_inv hcall
      cases hcall
      obtain ⟨q', hq', hsame⟩ := List.mem_map.mp hpair
      cases hsame
      obtain ⟨hfound, hqnamed⟩ := List.mem_filter.mp hq'
      rw [HashSet.mem_iter, mem_placesBlocking hplaces] at hfound
      rw [HashSet.mem_iter, HashSet.mem_collect] at hplace'
      obtain ⟨⟨_, region⟩, hborrowed, rfl⟩ := List.mem_map.mp hplace'
      exact ⟨⟨region, hborrowed⟩, hnamed, hqnamed, hfound⟩
    · cases hcall
      exact absurd hpair List.not_mem_nil
  · rintro ⟨⟨region, hborrowed⟩, hnamed, hqnamed, hpath⟩
    have hplace : place ∈ (HashSet.collect ((borrowedPlaces
        (next.states .postOperands).borrowPcg isMut).map Prod.fst)).iter order := by
      rw [HashSet.mem_iter, HashSet.mem_collect]
      exact List.mem_map.mpr ⟨_, hborrowed, rfl⟩
    -- the search for the place is one of those made
    obtain ⟨sequence, hsequence, hcall⟩ := Res.exists_mem_of_mapM hsequences hplace
    rw [if_pos hnamed] at hcall
    obtain ⟨places, hplaces, hcall⟩ := Res.bind_inv hcall
    cases hcall
    have hfound : q ∈ places.iter order := by
      rw [HashSet.mem_iter, mem_placesBlocking hplaces]
      exact hpath
    exact ⟨_, hsequence, List.mem_map.mpr ⟨q, List.mem_filter.mpr ⟨hfound, hqnamed⟩, rfl⟩⟩

/-- On an acyclic graph every search ends, and so does the collection. -/
theorem mutantSequences_isOk (order : HashOrder Pcg.Place)
    (isBlockingEdge : HashSet BorrowPcgEdgeKind → Bool)
    (isValidEdge : BorrowPcgEdgeKind → Bool) (body : Body) {next : PcgLocation}
    (hacyclic : (next.states .postOperands).borrowPcg.Acyclic) :
    ∃ pairs, mutantSequences order isBlockingEdge isValidEdge body next = .ok pairs := by
  have hcalls : ∀ place ∈ (HashSet.collect ((borrowedPlaces
      (next.states .postOperands).borrowPcg isMut).map Prod.fst)).iter order,
      ∃ sequence, (if hasNamedLocal place body then do
        let blockingPlaces ← placesBlocking place (next.states .postOperands).borrowPcg
          isBlockingEdge isValidEdge
        return ((blockingPlaces.iter order).filter fun blockingPlace =>
          hasNamedLocal blockingPlace body).map fun blockingPlace => (place, blockingPlace)
        else .ok []) = (.ok sequence : Res (List (Pcg.Place × Pcg.Place))) := by
    intro place _
    split
    · obtain ⟨places, hplaces⟩ := placesBlocking_isOk isBlockingEdge isValidEdge hacyclic place
      exact ⟨_, by rw [hplaces]; rfl⟩
    · exact ⟨[], rfl⟩
  -- so the searches end one by one
  obtain ⟨sequences, hsequences⟩ := Res.mapM_isOk hcalls
  exact ⟨sequences.flatten, by rw [mutantSequences, hsequences]; rfl⟩

/-! ## Paths one after the other -/

/-- A larger set of edge kinds blocks at least as much. -/
def Increasing (isBlockingEdge : HashSet BorrowPcgEdgeKind → Bool) : Prop :=
  ∀ s s' : HashSet BorrowPcgEdgeKind, (∀ kind, kind ∈ s → kind ∈ s') →
    isBlockingEdge s = true → isBlockingEdge s' = true

theorem BlockingPath.append (hincreasing : Increasing isBlockingEdge) {p q r : Pcg.Place}
    {path path' : List BorrowPcgEdge}
    (h : BlockingPath graph isBlockingEdge isValidEdge p q path)
    (h' : BlockingPath graph isBlockingEdge isValidEdge q r path') :
    BlockingPath graph isBlockingEdge isValidEdge p r (path ++ path') where
  edges := List.forall_mem_append.mpr ⟨h.edges, h'.edges⟩
  valid := List.forall_mem_append.mpr ⟨h.valid, h'.valid⟩
  head := by
    obtain ⟨edge, hedge, hp⟩ := h.head
    exact ⟨edge, List.mem_head?_append_of_mem_head? hedge, hp⟩
  chain := by
    refine List.isChain_append.mpr ⟨h.chain, h'.chain, fun edge hedge edge' hedge' => ?_⟩
    -- the paths meet at the node of `q` as it is now
    obtain ⟨last, hlast, hq⟩ := h.last
    obtain ⟨first, hfirst, hblocked⟩ := h'.head
    obtain rfl := Option.mem_unique hedge hlast
    obtain rfl := Option.mem_unique hedge' hfirst
    exact ⟨_, hq, hblocked⟩
  blocking := by
    refine hincreasing _ _ ?_ h.blocking
    intro kind hkind
    rw [HashSet.mem_collect] at hkind ⊢
    rw [List.map_append]
    exact List.mem_append_left _ hkind
  last := by
    obtain ⟨edge, hedge, hr⟩ := h'.last
    exact ⟨edge, List.mem_getLast?_append_of_mem_getLast? hedge, hr⟩

/-- Two pairs that meet in a place join to a pair. -/
theorem Collects.trans (hincreasing : Increasing isBlockingEdge) {p q r : Pcg.Place}
    (h : Collects graph isBlockingEdge isValidEdge body p q)
    (h' : Collects graph isBlockingEdge isValidEdge body q r) :
    Collects graph isBlockingEdge isValidEdge body p r := by
  obtain ⟨path, hpath⟩ := h.exists_path
  obtain ⟨path', hpath'⟩ := h'.exists_path
  exact ⟨h.borrowed, h.named, h'.blocking_named, _, hpath.append hincreasing hpath'⟩

theorem Collects.transGen {p q : Pcg.Place}
    (h : Collects graph isBlockingEdge isValidEdge body p q) :
    TransGen graph.Blocks p.into q.into := by
  obtain ⟨path, hpath⟩ := h.exists_path
  exact hpath.transGen

end Collected

/-! ## The strict partial order -/

/-- The relation that relates the places of each pair is irreflexive, asymmetric
    and transitive. -/
structure StrictPartialOrder (pairs : List (Pcg.Place × Pcg.Place)) : Prop where
  irrefl : ∀ p, (p, p) ∉ pairs
  asymm : ∀ p q, (p, q) ∈ pairs → (q, p) ∉ pairs
  trans : ∀ p q r, (p, q) ∈ pairs → (q, r) ∈ pairs → (p, r) ∈ pairs

theorem strictPartialOrder_mutantSequences {order : HashOrder Pcg.Place}
    {isBlockingEdge : HashSet BorrowPcgEdgeKind → Bool}
    {isValidEdge : BorrowPcgEdgeKind → Bool} {body : Body} {next : PcgLocation}
    (hincreasing : Increasing isBlockingEdge)
    (hacyclic : (next.states .postOperands).borrowPcg.Acyclic)
    {pairs : List (Pcg.Place × Pcg.Place)}
    (h : mutantSequences order isBlockingEdge isValidEdge body next = .ok pairs) :
    StrictPartialOrder pairs where
  irrefl p hp := by
    rw [mem_mutantSequences h] at hp
    exact hacyclic _ hp.transGen
  asymm p q hpq hqp := by
    rw [mem_mutantSequences h] at hpq hqp
    exact hacyclic _ (hpq.transGen.trans hqp.transGen)
  trans p q r hpq hqr := by
    rw [mem_mutantSequences h] at hpq hqr ⊢
    exact hpq.trans hincreasing hqr

theorem anyMutBorrow_increasing : Increasing anyMutBorrow := by
  intro s s' hsub h
  obtain ⟨kind, hkind, hmut⟩ := List.any_eq_true.mp h
  exact List.any_eq_true.mpr ⟨kind, hsub kind hkind, hmut⟩

/-- Whether some edge kind of the set is an abstraction. -/
def anyAbstraction (kindSet : HashSet BorrowPcgEdgeKind) : Bool :=
  kindSet.elems.any fun kind =>
    match kind with
    | .abstraction _ => true
    | _ => false

theorem anyAbstraction_increasing : Increasing anyAbstraction := by
  intro s s' hsub h
  obtain ⟨kind, hkind, habstract⟩ := List.any_eq_true.mp h
  exact List.any_eq_true.mpr ⟨kind, hsub kind hkind, habstract⟩

/-- What blocks for `AbstractExpiryOrder` blocks for `BorrowExpiryOrder` and has
    an abstraction in it. -/
theorem AbstractExpiryOrder.isBlockingEdge_iff {kindSet : HashSet BorrowPcgEdgeKind} :
    AbstractExpiryOrder.isBlockingEdge kindSet = true ↔
      anyAbstraction kindSet = true ∧ BorrowExpiryOrder.isBlockingEdge kindSet = true :=
  Bool.and_eq_true_iff

theorem AbstractExpiryOrder.isBlockingEdge_increasing :
    Increasing AbstractExpiryOrder.isBlockingEdge := by
  intro s s' hsub h
  rw [isBlockingEdge_iff] at h ⊢
  exact ⟨anyAbstraction_increasing s s' hsub h.1, anyMutBorrow_increasing s s' hsub h.2⟩

/-- At a program point with an acyclic graph both expiry mutations collect their
    pairs, and each collects a strict partial order: none asks a place to expire
    before itself, no two ask for opposite orders, and blocking is passed on. -/
theorem expiryPairs_strictPartialOrder (order : HashOrder Pcg.Place) (ctx : CompilerCtxt)
    (body : Body) (next : PcgLocation)
    (hacyclic : (next.states .postOperands).borrowPcg.Acyclic) :
    (∃ pairs, BorrowExpiryOrder.candidates order ctx body next = .ok pairs ∧
      StrictPartialOrder pairs) ∧
    ∃ pairs, AbstractExpiryOrder.candidates order ctx body next = .ok pairs ∧
      StrictPartialOrder pairs := by
  constructor
  · obtain ⟨pairs, hpairs⟩ := mutantSequences_isOk order BorrowExpiryOrder.isBlockingEdge
      (BorrowExpiryOrder.isValidEdge ctx) body hacyclic
    exact ⟨pairs, hpairs,
      strictPartialOrder_mutantSequences anyMutBorrow_increasing hacyclic hpairs⟩
  · obtain ⟨pairs, hpairs⟩ := mutantSequences_isOk order AbstractExpiryOrder.isBlockingEdge
      (AbstractExpiryOrder.isValidEdge ctx) body hacyclic
    exact ⟨pairs, hpairs, strictPartialOrder_mutantSequences
      AbstractExpiryOrder.isBlockingEdge_increasing hacyclic hpairs⟩

namespace Sample

/-- `x` is mutably borrowed by `r`, and `r` by `y`. -/
def reborrowed : BorrowsGraph :=
  ⟨[borrowOfX (.mut .default) r (.reVar 0),
    ⟨.borrow (.local ⟨.current r, .current y, .mut .default, .reVar 1, ⟨0, 3⟩⟩), [r.into],
      [.place (.current y)]⟩]⟩

theorem reborrowed_acyclic : reborrowed.Acyclic := acyclic_chain _ _

end Sample

/-- `r` is blocked by `y` and `x` by `r`, and so `x` by `y`. -/
theorem expiryPairs_strictPartialOrder_sample :
    let next := Sample.point 0 4 Sample.reborrowed.edges []
    BorrowExpiryOrder.candidates Sample.order Sample.ctx Sample.body next =
        .ok [(Sample.r, Sample.y), (Sample.x, Sample.y), (Sample.x, Sample.r)] ∧
      StrictPartialOrder [(Sample.r, Sample.y), (Sample.x, Sample.y), (Sample.x, Sample.r)] := by
  intro next
  have hcandidates : BorrowExpiryOrder.candidates Sample.order Sample.ctx Sample.body next =
      .ok [(Sample.r, Sample.y), (Sample.x, Sample.y), (Sample.x, Sample.r)] := rfl
  obtain ⟨⟨pairs, hpairs, hstrict⟩, -⟩ := expiryPairs_strictPartialOrder Sample.order Sample.ctx
    Sample.body next Sample.reborrowed_acyclic
  rw [hcandidates] at hpairs
  cases hpairs
  exact ⟨hcandidates, hstrict⟩

/-! ## The two mutations compared -/

/-- `AbstractExpiryOrder` accepts the same edges as `BorrowExpiryOrder`. -/
theorem isValidEdge_eq (ctx : CompilerCtxt) :
    AbstractExpiryOrder.isValidEdge ctx = BorrowExpiryOrder.isValidEdge ctx := rfl

theorem anyAbstraction_collect {path : List BorrowPcgEdge} :
    anyAbstraction (HashSet.collect (path.map BorrowPcgEdge.kind)) = true ↔
      ∃ edge ∈ path, ∃ data, edge.kind = .abstraction data := by
  rw [anyAbstraction, List.any_eq_true]
  constructor
  · rintro ⟨kind, hkind, habstract⟩
    rw [← HashSet.mem_def, HashSet.mem_collect] at hkind
    obtain ⟨edge, hedge, rfl⟩ := List.mem_map.mp hkind
    cases hkind : edge.kind with
    | abstraction data => exact ⟨edge, hedge, data, hkind⟩
    | _ => simp [hkind] at habstract
  · rintro ⟨edge, hedge, data, hkind⟩
    refine ⟨edge.kind, ?_, by rw [hkind]⟩
    rw [← HashSet.mem_def, HashSet.mem_collect]
    exact List.mem_map_of_mem hedge

/-- The blocking paths of `AbstractExpiryOrder` are those of `BorrowExpiryOrder`
    with an abstraction edge. -/
theorem blockingPath_abstract_iff {graph : BorrowsGraph} {ctx : CompilerCtxt} {p q : Pcg.Place}
    {path : List BorrowPcgEdge} :
    BlockingPath graph AbstractExpiryOrder.isBlockingEdge (AbstractExpiryOrder.isValidEdge ctx)
        p q path ↔
      BlockingPath graph BorrowExpiryOrder.isBlockingEdge (BorrowExpiryOrder.isValidEdge ctx)
        p q path ∧ ∃ edge ∈ path, ∃ data, edge.kind = .abstraction data := by
  rw [isValidEdge_eq, ← anyAbstraction_collect]
  constructor
  · intro h
    obtain ⟨habstract, hblocking⟩ := AbstractExpiryOrder.isBlockingEdge_iff.mp h.blocking
    exact ⟨{ h with blocking := hblocking }, habstract⟩
  · rintro ⟨h, habstract⟩
    exact { h with blocking := AbstractExpiryOrder.isBlockingEdge_iff.mpr ⟨habstract, h.blocking⟩ }

/-- At a program point with an acyclic graph, whatever the iteration orders of
    the two calls, `AbstractExpiryOrder` collects of the pairs that
    `BorrowExpiryOrder` collects exactly those that some of their paths
    witnesses with an abstraction edge. -/
theorem abstractExpiryOrder_refines (order order' : HashOrder Pcg.Place) (ctx : CompilerCtxt)
    (body : Body) (next : PcgLocation)
    (hacyclic : (next.states .postOperands).borrowPcg.Acyclic) :
    ∃ borrowPairs abstractPairs,
      BorrowExpiryOrder.candidates order ctx body next = .ok borrowPairs ∧
      AbstractExpiryOrder.candidates order' ctx body next = .ok abstractPairs ∧
      abstractPairs ⊆ borrowPairs ∧
      ∀ p q, (p, q) ∈ borrowPairs → ((p, q) ∈ abstractPairs ↔
        ∃ path, BlockingPath (next.states .postOperands).borrowPcg
            BorrowExpiryOrder.isBlockingEdge (BorrowExpiryOrder.isValidEdge ctx) p q path ∧
          ∃ edge ∈ path, ∃ data, edge.kind = .abstraction data) := by
  obtain ⟨borrowPairs, hborrow⟩ := mutantSequences_isOk order BorrowExpiryOrder.isBlockingEdge
    (BorrowExpiryOrder.isValidEdge ctx) body hacyclic
  obtain ⟨abstractPairs, habstract⟩ := mutantSequences_isOk order'
    AbstractExpiryOrder.isBlockingEdge (AbstractExpiryOrder.isValidEdge ctx) body hacyclic
  refine ⟨borrowPairs, abstractPairs, hborrow, habstract, ?_, ?_⟩
  · rintro ⟨p, q⟩ hpair
    rw [mem_mutantSequences habstract] at hpair
    rw [mem_mutantSequences hborrow]
    obtain ⟨path, hpath⟩ := hpair.exists_path
    exact { hpair with exists_path := ⟨path, (blockingPath_abstract_iff.mp hpath).1⟩ }
  · intro p q hpair
    rw [mem_mutantSequences hborrow] at hpair
    rw [mem_mutantSequences habstract]
    constructor
    · intro hcollects
      obtain ⟨path, hpath⟩ := hcollects.exists_path
      -- the same path witnesses both
      exact ⟨path, blockingPath_abstract_iff.mp hpath⟩
    · rintro ⟨path, hpath⟩
      exact { hpair with exists_path := ⟨path, blockingPath_abstract_iff.mpr hpath⟩ }

/-- Of the sample's two pairs, `y` blocks `x` through the call. -/
theorem abstractExpiryOrder_refines_sample :
    let next := Sample.point 0 4 Sample.heldByCall.edges [Sample.y]
    ∃ path, BlockingPath (next.states .postOperands).borrowPcg BorrowExpiryOrder.isBlockingEdge
        (BorrowExpiryOrder.isValidEdge Sample.ctx) Sample.x Sample.y path ∧
      ∃ edge ∈ path, ∃ data, edge.kind = .abstraction data := by
  intro next
  obtain ⟨borrowPairs, abstractPairs, hborrow, habstract, -, hiff⟩ := abstractExpiryOrder_refines
    Sample.order Sample.order Sample.ctx Sample.body next Sample.heldByCall_acyclic
  have hborrow' : BorrowExpiryOrder.candidates Sample.order Sample.ctx Sample.body next =
      .ok [(Sample.x, Sample.y), (Sample.x, Sample.r)] := rfl
  have habstract' : AbstractExpiryOrder.candidates Sample.order Sample.ctx Sample.body next =
      .ok [(Sample.x, Sample.y)] := rfl
  rw [hborrow'] at hborrow
  rw [habstract'] at habstract
  cases hborrow
  cases habstract
  exact (hiff Sample.x Sample.y (by simp)).mp (by simp)

end MutationTesting.Mutator
