/-
  MutationTesting.Borrowck.MemberConstraints

  The set of `R0 member of [R1..Rn]` constraints
  (`borrowck/src/member_constraints.rs`).  The constraints on a region are a
  linked list threaded through the vector of constraints; mapping the regions to
  their strongly connected components joins the lists of regions that fall
  together.
-/
import MutationTesting.Mir.Syntax
import MutationTesting.Rust.IndexMap
import MutationTesting.Rust.LinkedList
import MutationTesting.Rust.Tally

namespace MutationTesting.Borrowck

open MutationTesting.Rust MutationTesting.Mir

abbrev NllMemberConstraintIndex := Nat

/-- `rustc_middle::infer::MemberConstraint`. -/
structure MemberConstraint where
  key : Interned
  definitionSpan : Interned
  hiddenTy : Ty
  memberRegion : Region
  choiceRegions : List Region
  deriving DecidableEq

structure NllMemberConstraint where
  nextConstraint : Option NllMemberConstraintIndex
  definitionSpan : Interned
  hiddenTy : Ty
  key : Interned
  memberRegionVid : RegionVid
  startIndex : Nat
  endIndex : Nat
  deriving DecidableEq

structure MemberConstraintSet (ρ : Type) where
  firstConstraints : IndexMap ρ NllMemberConstraintIndex
  constraints : List NllMemberConstraint
  choiceRegions : List RegionVid

/-- `append_list`, following the links from `p` for at most the given number of
    rounds. -/
def appendList (constraints : List NllMemberConstraint) (sourceList : NllMemberConstraintIndex) :
    Nat → NllMemberConstraintIndex → Res (List NllMemberConstraint)
  | rounds, p => do
    let r ← index constraints p
    match r.nextConstraint with
    | some q =>
      match rounds with
      | 0 => .error .diverges
      | rounds + 1 => appendList constraints sourceList rounds q
    | none => return constraints.set p { r with nextConstraint := some sourceList }

namespace MemberConstraintSet

/-- `MemberConstraintSet::default`. -/
def empty : MemberConstraintSet RegionVid := ⟨.empty, [], []⟩

/-- `push_constraint`. -/
def pushConstraint (toRegionVid : Region → RegionVid) (set : MemberConstraintSet RegionVid)
    (m : MemberConstraint) : MemberConstraintSet RegionVid :=
  let memberRegionVid := toRegionVid m.memberRegion
  let nextConstraint := set.firstConstraints.get memberRegionVid
  let startIndex := set.choiceRegions.length
  let endIndex := startIndex + m.choiceRegions.length
  let constraintIndex := set.constraints.length
  { firstConstraints := set.firstConstraints.insert memberRegionVid constraintIndex
    constraints := set.constraints ++ [{
      nextConstraint, memberRegionVid, startIndex, endIndex
      definitionSpan := m.definitionSpan
      hiddenTy := m.hiddenTy
      key := m.key }]
    choiceRegions := set.choiceRegions ++ m.choiceRegions.map toRegionVid }

variable {ρ σ : Type} [DecidableEq ρ] [DecidableEq σ]

/-- One round of the loop of `into_mapped`: the list of a region becomes the front
    of the list of what it is mapped to. -/
def mapEntry (mapFn : ρ → σ)
    (state : IndexMap σ NllMemberConstraintIndex × List NllMemberConstraint)
    (entry : ρ × NllMemberConstraintIndex) :
    Res (IndexMap σ NllMemberConstraintIndex × List NllMemberConstraint) := do
  let (firstConstraints, constraints) := state
  let (r, start) := entry
  let constraints ←
    match firstConstraints.get (mapFn r) with
    | some start' => appendList constraints start' constraints.length start
    | none => pure constraints
  return (firstConstraints.insert (mapFn r) start, constraints)

/-- `into_mapped`. -/
def intoMapped (set : MemberConstraintSet ρ) (mapFn : ρ → σ) : Res (MemberConstraintSet σ) := do
  let (firstConstraints, constraints) ←
    set.firstConstraints.entries.foldlM (mapEntry mapFn) (.empty, set.constraints)
  return { firstConstraints, constraints, choiceRegions := set.choiceRegions }

/-- The iterator of `indices`. -/
structure Indices where
  constraints : List NllMemberConstraint
  next : Option NllMemberConstraintIndex

def Indices.step (indices : Indices) : Res (Option NllMemberConstraintIndex × Indices) :=
  match indices.next with
  | some current => do
    let constraint ← index indices.constraints current
    return (some current, { indices with next := constraint.nextConstraint })
  | none => .ok (none, indices)

instance : FallibleIterator Indices NllMemberConstraintIndex := ⟨Indices.step⟩

/-- `indices`. -/
def indices (set : MemberConstraintSet ρ) (memberRegionVid : ρ) : Indices :=
  ⟨set.constraints, set.firstConstraints.get memberRegionVid⟩

/-- `choice_regions`: a slice, which panics out of bounds. -/
def choiceRegionsOf (set : MemberConstraintSet ρ) (pci : NllMemberConstraintIndex) :
    Res (List RegionVid) := do
  let constraint ← index set.constraints pci
  if constraint.startIndex ≤ constraint.endIndex ∧
      constraint.endIndex ≤ set.choiceRegions.length then
    return (set.choiceRegions.drop constraint.startIndex).take
      (constraint.endIndex - constraint.startIndex)
  else .error .indexOutOfBounds

end MemberConstraintSet

/-! ## The lists of the set -/

/-- The links of the constraints. -/
def memberLinks (constraints : List NllMemberConstraint) :
    List (Option NllMemberConstraintIndex) :=
  constraints.map NllMemberConstraint.nextConstraint

/-- The constraint without its link. -/
def NllMemberConstraint.unlinked (constraint : NllMemberConstraint) : NllMemberConstraint :=
  { constraint with nextConstraint := none }

open LinkedList (Threaded Family)

/-- Appending to a list changes the link of its last constraint only. -/
theorem appendList_spec (sourceList : NllMemberConstraintIndex)
    {constraints : List NllMemberConstraint} {p last : NllMemberConstraintIndex}
    {front : List NllMemberConstraintIndex}
    (h : Threaded (memberLinks constraints) (some p) (front ++ [last])) {rounds : Nat}
    (hrounds : front.length ≤ rounds) :
    ∃ constraints', appendList constraints sourceList rounds p = .ok constraints' ∧
      memberLinks constraints' = (memberLinks constraints).set last (some sourceList) ∧
      constraints'.map NllMemberConstraint.unlinked =
        constraints.map NllMemberConstraint.unlinked := by
  induction front generalizing p rounds with
  | nil =>
    rw [List.nil_append] at h
    cases h with
    | cons hlink rest =>
      cases rest
      obtain ⟨r, hr, hnext⟩ := Option.map_eq_some_iff.mp (List.getElem?_map ▸ hlink)
      obtain ⟨hlt, hget⟩ := List.getElem?_eq_some_iff.mp hr
      refine ⟨constraints.set last { r with nextConstraint := some sourceList }, ?_, ?_, ?_⟩
      · unfold appendList
        rw [index_of_lt hlt, Res.ok_bind, hget, hnext]
        rfl
      · rw [memberLinks, List.map_set]
        rfl
      · have hlt' : last < (constraints.map NllMemberConstraint.unlinked).length := by simpa
        have hsame : ({ r with nextConstraint := some sourceList } : NllMemberConstraint).unlinked =
            (constraints.map NllMemberConstraint.unlinked)[last] := by
          rw [List.getElem_map, hget]
          rfl
        rw [List.map_set, hsame, List.set_getElem_self]
  | cons q front ih =>
    rw [List.cons_append] at h
    cases h with
    | cons hlink rest =>
      obtain ⟨r, hr, hnext⟩ := Option.map_eq_some_iff.mp (List.getElem?_map ▸ hlink)
      obtain ⟨hlt, hget⟩ := List.getElem?_eq_some_iff.mp hr
      cases rounds with
      | zero => exact absurd hrounds (Nat.not_succ_le_zero _)
      | succ rounds =>
        cases hq : r.nextConstraint with
        | none =>
          -- the list goes on, as its last constraint is still to come
          obtain rfl := hnext.symm.trans hq
          have hnil := rest.head_eq_none.mp rfl
          simp at hnil
        | some next =>
          obtain rfl := hnext.symm.trans hq
          obtain ⟨constraints', happend, hlinks, hdata⟩ := ih rest (Nat.le_of_succ_le_succ hrounds)
          refine ⟨constraints', ?_, hlinks, hdata⟩
          unfold appendList
          rw [index_of_lt hlt, Res.ok_bind, hget]
          simp only [hq]
          exact happend

namespace MemberConstraintSet

/-! ## Pushing constraints -/

/-- What a set holds of the constraints pushed onto it. -/
structure Holds {ρ : Type} [DecidableEq ρ] (set : MemberConstraintSet ρ)
    (region : MemberConstraint → ρ) (toRegionVid : Region → RegionVid)
    (ms : List MemberConstraint) : Prop where
  keys : set.firstConstraints.keys.Nodup
  lists : ∃ cells : ρ → List NllMemberConstraintIndex,
    Family (memberLinks set.constraints) (fun r => set.firstConstraints.get r) cells ∧
    ∀ (r : ρ) (i : Nat), i ∈ cells r ↔ ∃ m, ms[i]? = some m ∧ region m = r
  length : set.constraints.length = ms.length
  choices : ∀ (i : Nat) (m : MemberConstraint), ms[i]? = some m →
    set.choiceRegionsOf i = .ok (m.choiceRegions.map toRegionVid)

/-- The choice regions depend on the data of a constraint, not on its link. -/
theorem choiceRegionsOf_congr {ρ σ : Type} {set : MemberConstraintSet ρ}
    {set' : MemberConstraintSet σ}
    (hdata : set'.constraints.map NllMemberConstraint.unlinked =
      set.constraints.map NllMemberConstraint.unlinked)
    (hchoices : set'.choiceRegions = set.choiceRegions) (i : NllMemberConstraintIndex) :
    set'.choiceRegionsOf i = set.choiceRegionsOf i := by
  have hi := congrArg (·[i]?) hdata
  simp only [List.getElem?_map] at hi
  unfold choiceRegionsOf index
  rw [hchoices]
  cases h : set.constraints[i]? with
  | none =>
    rw [h] at hi
    rw [Option.map_eq_none_iff.mp hi]
  | some c =>
    rw [h] at hi
    obtain ⟨c', hc', hsame⟩ := Option.map_eq_some_iff.mp hi
    have hstart := congrArg NllMemberConstraint.startIndex hsame
    have hend := congrArg NllMemberConstraint.endIndex hsame
    simp only [NllMemberConstraint.unlinked] at hstart hend
    rw [hc']
    simp only [Res.ok_bind, hstart, hend]

theorem holds_empty (toRegionVid : Region → RegionVid) :
    empty.Holds (fun m => toRegionVid m.memberRegion) toRegionVid [] where
  keys := List.nodup_nil
  lists := ⟨fun _ => [], Family.empty [], by simp⟩
  length := rfl
  choices := by simp

/-- A pushed constraint becomes the first of its region, and the others stay what
    they are. -/
theorem Holds.push {toRegionVid : Region → RegionVid} {set : MemberConstraintSet RegionVid}
    {ms : List MemberConstraint}
    (h : set.Holds (fun m => toRegionVid m.memberRegion) toRegionVid ms) (m : MemberConstraint) :
    (set.pushConstraint toRegionVid m).Holds (fun m => toRegionVid m.memberRegion) toRegionVid
      (ms ++ [m]) := by
  obtain ⟨cells, hfamily, hcells⟩ := h.lists
  have hlen := h.length
  have hlinks : (memberLinks set.constraints).length = ms.length := by
    rw [memberLinks, List.length_map, hlen]
  constructor
  · exact IndexMap.nodup_keys_insert h.keys _ _
  · have hpushed := hfamily.push (toRegionVid m.memberRegion)
    rw [hlinks] at hpushed
    refine ⟨Function.update cells (toRegionVid m.memberRegion)
      (ms.length :: cells (toRegionVid m.memberRegion)), ?_, ?_⟩
    · convert hpushed using 1
      · simp [pushConstraint, memberLinks]
      · funext r
        simp only [pushConstraint, IndexMap.get_insert, Function.update_apply, hlen]
    · intro r i
      rw [Function.update_apply]
      by_cases hi : i < ms.length
      · -- an old constraint
        have hne : i ≠ ms.length := Nat.ne_of_lt hi
        rw [List.getElem?_append_left hi, ← hcells]
        by_cases hr : r = toRegionVid m.memberRegion
        · simp [hr, hne]
        · simp [hr]
      · have hold : ∀ r', i ∉ cells r' := by
          intro r' hmem
          obtain ⟨m', hm', -⟩ := (hcells r' i).mp hmem
          exact hi (List.getElem?_eq_some_iff.mp hm').1
        by_cases hlast : i = ms.length
        · rw [hlast, List.getElem?_concat_length]
          by_cases hr : r = toRegionVid m.memberRegion
          · simp [hr]
          · simp [hr, hlast ▸ hold r, Ne.symm hr]
        · rw [List.getElem?_eq_none (by simp; omega)]
          by_cases hr : r = toRegionVid m.memberRegion
          · simp [hr, hlast, hold]
          · simp [hr, hold]
  · simp [pushConstraint, hlen]
  · intro i m' hm'
    by_cases hi : i < ms.length
    · -- the choices of an old constraint are a slice of the old vector
      rw [List.getElem?_append_left hi] at hm'
      have hold := h.choices i m' hm'
      unfold choiceRegionsOf at hold ⊢
      obtain ⟨c, hc, hslice⟩ := Res.bind_inv hold
      have hc' : index (set.pushConstraint toRegionVid m).constraints i = .ok c := by
        rw [pushConstraint, index_append_left (hlen ▸ hi), hc]
      rw [hc', Res.ok_bind]
      split at hslice
      · rename_i hbounds
        rw [if_pos ⟨hbounds.1, by simp [pushConstraint]; omega⟩, ← hslice]
        congr 1
        rw [pushConstraint, List.drop_append_of_le_length (by omega),
          List.take_append_of_le_length (by simp; omega)]
      · cases hslice
    · have hlast : i = ms.length := by
        have hlt := (List.getElem?_eq_some_iff.mp hm').1
        simp only [List.length_append, List.length_singleton] at hlt
        omega
      subst hlast
      rw [List.getElem?_concat_length, Option.some.injEq] at hm'
      subst hm'
      unfold choiceRegionsOf
      rw [index_of_lt (by simp [pushConstraint, hlen]), Res.ok_bind]
      simp [pushConstraint, ← hlen]

/-- The set of the constraints pushed one after the other. -/
def ofConstraints (toRegionVid : Region → RegionVid) (ms : List MemberConstraint) :
    MemberConstraintSet RegionVid :=
  ms.foldl (pushConstraint toRegionVid) empty

theorem holds_ofConstraints (toRegionVid : Region → RegionVid) (ms : List MemberConstraint) :
    (ofConstraints toRegionVid ms).Holds (fun m => toRegionVid m.memberRegion) toRegionVid ms := by
  induction ms using List.reverseRecOn with
  | nil => exact holds_empty toRegionVid
  | append_singleton ms m ih =>
    rw [ofConstraints, List.foldl_append]
    exact ih.push m

/-! ## Mapping the regions -/

section IntoMapped

variable {ρ σ : Type} [DecidableEq ρ] [DecidableEq σ] {mapFn : ρ → σ}

/-- The lists half way through `into_mapped`: those of the regions to come are
    what they were, and those of the regions done are joined by what they are
    mapped to. -/
structure Merging (mapFn : ρ → σ) (cells : ρ → List NllMemberConstraintIndex)
    (done : List ρ) (rest : List (ρ × NllMemberConstraintIndex))
    (firstConstraints : IndexMap σ NllMemberConstraintIndex)
    (constraints : List NllMemberConstraint) : Prop where
  keys : firstConstraints.keys.Nodup
  lists : ∃ (heads : ρ ⊕ σ → Option NllMemberConstraintIndex)
    (merged : ρ ⊕ σ → List NllMemberConstraintIndex),
    Family (memberLinks constraints) heads merged ∧
    (∀ entry ∈ rest, heads (.inl entry.1) = some entry.2 ∧ merged (.inl entry.1) = cells entry.1) ∧
    (∀ k, heads (.inr k) = firstConstraints.get k) ∧
    ∀ k i, i ∈ merged (.inr k) ↔ ∃ r ∈ done, mapFn r = k ∧ i ∈ cells r

/-- One region: its list goes in front of the list of what it is mapped to. -/
theorem Merging.step {cells : ρ → List NllMemberConstraintIndex} {done : List ρ}
    {entry : ρ × NllMemberConstraintIndex} {rest : List (ρ × NllMemberConstraintIndex)}
    {firstConstraints : IndexMap σ NllMemberConstraintIndex}
    {constraints : List NllMemberConstraint}
    (h : Merging mapFn cells done (entry :: rest) firstConstraints constraints)
    (hfresh : entry.1 ∉ rest.map Prod.fst) :
    ∃ constraints',
      mapEntry mapFn (firstConstraints, constraints) entry =
        .ok (firstConstraints.insert (mapFn entry.1) entry.2, constraints') ∧
      constraints'.map NllMemberConstraint.unlinked =
        constraints.map NllMemberConstraint.unlinked ∧
      Merging mapFn cells (done ++ [entry.1]) rest
        (firstConstraints.insert (mapFn entry.1) entry.2) constraints' := by
  obtain ⟨r, start⟩ := entry
  obtain ⟨heads, merged, hfamily, hrest, hheads, hmerged⟩ := h.lists
  obtain ⟨hstart, hcells⟩ := hrest (r, start) List.mem_cons_self
  simp only at hfresh hstart hcells ⊢
  -- the list of `r` has a last constraint
  have hne : merged (.inl r) ≠ [] := by
    intro hnil
    have hnone := (hfamily.threaded (.inl r)).head_eq_none.mpr hnil
    rw [hstart] at hnone
    cases hnone
  obtain ⟨front, last, hlast⟩ : ∃ front last, merged (.inl r) = front ++ [last] :=
    ⟨_, _, (List.dropLast_append_getLast hne).symm⟩
  -- either way the two lists are joined
  obtain ⟨constraints', happend, hdata, hfamily'⟩ :
      ∃ constraints', mapEntry mapFn (firstConstraints, constraints) (r, start) =
          .ok (firstConstraints.insert (mapFn r) start, constraints') ∧
        constraints'.map NllMemberConstraint.unlinked =
          constraints.map NllMemberConstraint.unlinked ∧
        Family (memberLinks constraints')
          (Function.update (Function.update heads (.inr (mapFn r)) (heads (.inl r))) (.inl r) none)
          (Function.update (Function.update merged (.inr (mapFn r))
            (merged (.inl r) ++ merged (.inr (mapFn r)))) (.inl r) []) := by
    cases hget : firstConstraints.get (mapFn r) with
    | none =>
      have hnil : merged (.inr (mapFn r)) = [] :=
        (hfamily.threaded (.inr (mapFn r))).head_eq_none.mp ((hheads _).trans hget)
      refine ⟨constraints, ?_, rfl, hfamily.move hnil⟩
      simp only [mapEntry, hget, Res.pure_eq, Res.ok_bind]
    | some start' =>
      have hthreaded := hfamily.threaded (.inl r)
      rw [hstart, hlast] at hthreaded
      have hlen : front.length ≤ constraints.length := by
        have hsub : front ++ [last] ⊆ List.range (memberLinks constraints).length :=
          fun i hi => List.mem_range.mpr (hthreaded.lt_length hi)
        have hle := (hthreaded.nodup.subperm hsub).length_le
        simp only [List.length_append, List.length_singleton, List.length_range, memberLinks,
          List.length_map] at hle
        omega
      obtain ⟨constraints', happend, hlinks, hdata⟩ := appendList_spec start' hthreaded hlen
      refine ⟨constraints', ?_, hdata, ?_⟩
      · simp only [mapEntry, hget, happend, Res.ok_bind, Res.pure_eq]
      · have hdistinct : (Sum.inl r : ρ ⊕ σ) ≠ Sum.inr (mapFn r) := Sum.inl_ne_inr
        have hjoined := hfamily.append hdistinct hlast
        rwa [hheads, hget, ← hlinks] at hjoined
  refine ⟨constraints', happend, hdata, IndexMap.nodup_keys_insert h.keys _ _, _, _, hfamily',
    ?_, ?_, ?_⟩
  · intro entry hentry
    have hentryNe : entry.1 ≠ r := fun heq => hfresh (heq ▸ List.mem_map_of_mem hentry)
    have hold := hrest entry (List.mem_cons_of_mem _ hentry)
    simpa [Function.update_apply, hentryNe] using hold
  · intro k
    rw [IndexMap.get_insert]
    by_cases hk : k = mapFn r
    · simp [hk, hstart]
    · simp [hk, hheads]
  · intro k i
    by_cases hk : k = mapFn r
    · have hmem : i ∈ merged (.inl r) ++ merged (.inr (mapFn r)) ↔
          i ∈ cells r ∨ ∃ r' ∈ done, mapFn r' = mapFn r ∧ i ∈ cells r' := by
        rw [List.mem_append, hcells, hmerged]
      simp only [Function.update_apply, hk, reduceCtorEq, if_false, if_true, hmem, List.mem_append,
        List.mem_singleton]
      constructor
      · rintro (hi | ⟨r', hr', hsame, hi⟩)
        · exact ⟨r, .inr rfl, rfl, hi⟩
        · exact ⟨r', .inl hr', hsame, hi⟩
      · rintro ⟨r', hr' | rfl, hsame, hi⟩
        · exact .inr ⟨r', hr', hsame, hi⟩
        · exact .inl hi
    · simp only [Function.update_apply, reduceCtorEq, if_false, Sum.inr.injEq, hk, hmerged,
        List.mem_append, List.mem_singleton]
      constructor
      · rintro ⟨r', hr', hsame, hi⟩
        exact ⟨r', .inl hr', hsame, hi⟩
      · rintro ⟨r', hr' | rfl, hsame, hi⟩
        · exact ⟨r', hr', hsame, hi⟩
        · exact absurd hsame.symm hk

/-- The loop of `into_mapped` ends with the lists of all regions joined. -/
theorem Merging.run {cells : ρ → List NllMemberConstraintIndex} {done : List ρ}
    {rest : List (ρ × NllMemberConstraintIndex)}
    {firstConstraints : IndexMap σ NllMemberConstraintIndex}
    {constraints : List NllMemberConstraint}
    (h : Merging mapFn cells done rest firstConstraints constraints)
    (hrest : (rest.map Prod.fst).Nodup) :
    ∃ firstConstraints' constraints',
      rest.foldlM (mapEntry mapFn) (firstConstraints, constraints) =
        .ok (firstConstraints', constraints') ∧
      constraints'.map NllMemberConstraint.unlinked =
        constraints.map NllMemberConstraint.unlinked ∧
      Merging mapFn cells (done ++ rest.map Prod.fst) [] firstConstraints' constraints' := by
  induction rest generalizing done firstConstraints constraints with
  | nil => exact ⟨_, _, rfl, rfl, by simpa using h⟩
  | cons entry rest ih =>
    obtain ⟨hfresh, hnodup⟩ := List.nodup_cons.mp hrest
    obtain ⟨constraints₁, hstep, hdata₁, hmerging⟩ := h.step hfresh
    obtain ⟨firsts', constraints', hrun, hdata, hdone⟩ := ih hmerging hnodup
    refine ⟨firsts', constraints', ?_, hdata.trans hdata₁, ?_⟩
    · rw [List.foldlM_cons, hstep]
      exact hrun
    · rwa [List.append_assoc] at hdone

/-- Mapping the regions of a set neither loses nor doubles a constraint. -/
theorem Holds.intoMapped {set : MemberConstraintSet ρ} {region : MemberConstraint → ρ}
    {toRegionVid : Region → RegionVid} {ms : List MemberConstraint}
    (h : set.Holds region toRegionVid ms) (mapFn : ρ → σ) :
    ∃ mapped, set.intoMapped mapFn = .ok mapped ∧
      mapped.Holds (fun m => mapFn (region m)) toRegionVid ms := by
  obtain ⟨cells, hfamily, hcells⟩ := h.lists
  have hstart : Merging mapFn cells [] set.firstConstraints.entries .empty set.constraints := by
    refine ⟨List.nodup_nil, Sum.elim (fun r => set.firstConstraints.get r) fun _ => none,
      Sum.elim cells fun _ => [], ⟨?_, ?_⟩, ?_, fun _ => rfl, by simp⟩
    · rintro (r | k)
      · exact hfamily.threaded r
      · exact .nil
    · rintro (r | k) (r' | k') i hi hi'
      · rw [hfamily.disjoint r r' i hi hi']
      · exact absurd hi' List.not_mem_nil
      · exact absurd hi List.not_mem_nil
      · exact absurd hi List.not_mem_nil
    · rintro ⟨r, start⟩ hentry
      exact ⟨(IndexMap.mem_entries_iff h.keys).mp hentry, rfl⟩
  obtain ⟨firstConstraints, constraints, hrun, hdata, hmerging⟩ := hstart.run h.keys
  refine ⟨⟨firstConstraints, constraints, set.choiceRegions⟩, ?_, hmerging.keys, ?_, ?_, ?_⟩
  · rw [MemberConstraintSet.intoMapped, hrun]
    rfl
  · obtain ⟨heads, merged, hmergedFamily, -, hheads, hmerged⟩ := hmerging.lists
    refine ⟨fun k => merged (.inr k), ⟨?_, ?_⟩, ?_⟩
    · intro k
      have hk := hmergedFamily.threaded (.inr k)
      rwa [hheads] at hk
    · intro k k' i hi hi'
      exact Sum.inr.inj (hmergedFamily.disjoint (.inr k) (.inr k') i hi hi')
    · intro k i
      rw [hmerged]
      constructor
      · rintro ⟨r, -, rfl, hi⟩
        obtain ⟨m, hm, rfl⟩ := (hcells r i).mp hi
        exact ⟨m, hm, rfl⟩
      · rintro ⟨m, hm, rfl⟩
        have hi := (hcells (region m) i).mpr ⟨m, hm, rfl⟩
        -- a region with a constraint is a key of the set
        have hkey : region m ∈ set.firstConstraints.keys := by
          by_contra hnot
          have hnil := (hfamily.threaded (region m)).head_eq_none.mp (IndexMap.get_eq_none.mpr hnot)
          rw [hnil] at hi
          exact absurd hi List.not_mem_nil
        exact ⟨region m, hkey, rfl, hi⟩
  · have hlen := congrArg List.length hdata
    simpa [h.length] using hlen
  · intro i m hm
    have hsame : MemberConstraintSet.choiceRegionsOf
        ⟨firstConstraints, constraints, set.choiceRegions⟩ i = set.choiceRegionsOf i := by
      refine choiceRegionsOf_congr ?_ ?_ i
      · exact hdata
      · rfl
    exact hsame.trans (h.choices i m hm)

/-- The indices of a region list the constraints on it, each once. -/
theorem Holds.produces_indices {set : MemberConstraintSet ρ} {region : MemberConstraint → ρ}
    {toRegionVid : Region → RegionVid} {ms : List MemberConstraint}
    (h : set.Holds region toRegionVid ms) (r : ρ) :
    ∃ is, Produces (set.indices r) is ∧
      Rust.Lists is fun i => ∃ m, ms[i]? = some m ∧ region m = r := by
  obtain ⟨cells, hfamily, hcells⟩ := h.lists
  have hthreaded := hfamily.threaded r
  refine ⟨cells r, ?_, hthreaded.nodup, hcells r⟩
  have hproduces := hthreaded.produces (fun next => (⟨set.constraints, next⟩ : Indices)) id rfl (by
    intro i next hlink
    obtain ⟨c, hc, hnext⟩ := Option.map_eq_some_iff.mp (List.getElem?_map ▸ hlink)
    obtain ⟨hlt, hget⟩ := List.getElem?_eq_some_iff.mp hc
    simp only [FallibleIterator.next, Indices.step, index_of_lt hlt, hget, hnext, Res.ok_bind,
      Res.pure_eq, id])
  rwa [List.map_id] at hproduces

/-- Of the constraints pushed onto a set, mapping it leaves each one on what its
    member region is mapped to, with its own choice regions. -/
theorem intoMapped_ofConstraints (toRegionVid : Region → RegionVid) (mapFn : RegionVid → σ)
    (ms : List MemberConstraint) :
    ∃ mapped, (ofConstraints toRegionVid ms).intoMapped mapFn = .ok mapped ∧
      (∀ k, ∃ is, Produces (mapped.indices k) is ∧
        Rust.Lists is fun i => ∃ m, ms[i]? = some m ∧ mapFn (toRegionVid m.memberRegion) = k) ∧
      ∀ (i : Nat) (m : MemberConstraint), ms[i]? = some m →
        mapped.choiceRegionsOf i = .ok (m.choiceRegions.map toRegionVid) := by
  obtain ⟨mapped, hmapped, hholds⟩ := (holds_ofConstraints toRegionVid ms).intoMapped mapFn
  exact ⟨mapped, hmapped, hholds.produces_indices, hholds.choices⟩

end IntoMapped

end MemberConstraintSet

end MutationTesting.Borrowck
