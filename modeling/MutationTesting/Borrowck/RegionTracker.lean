/-
  MutationTesting.Borrowck.RegionTracker

  The definitions of region variables and the annotations of the strongly
  connected components of the region graph (`RegionTracker` in
  `borrowck/src/region_infer/mod.rs`).  rustc merges the annotations of the
  regions of a component, and of the components that it reaches, in an order of
  its own; `Merge` is such an order, and what is read off the result does not
  depend on it.
-/
import MutationTesting.Borrowck.Constraints
import MutationTesting.Borrowck.Values
import Mathlib.Data.Prod.Lex
import Mathlib.Order.Basic

namespace MutationTesting.Borrowck

open MutationTesting.Rust MutationTesting.Mir Relation

/-! ## Region definitions -/

abbrev UniverseIndex := Nat

/-- `UniverseIndex::ROOT`. -/
def UniverseIndex.ROOT : UniverseIndex := 0

/-- `UniverseIndex::is_root`. -/
def UniverseIndex.isRoot (self : UniverseIndex) : Bool := decide (self = ROOT)

/-- `UniverseIndex::can_name`. -/
def UniverseIndex.canName (self other : UniverseIndex) : Bool := decide (other ≤ self)

/-- `UniverseIndex::cannot_name`. -/
def UniverseIndex.cannotName (self other : UniverseIndex) : Bool := decide (self < other)

inductive NllRegionVariableOrigin where
  | freeRegion
  | placeholder (placeholder : PlaceholderRegion)
  | existential (fromForall : Bool)
  deriving DecidableEq

/-- `RegionVariableOrigin`; `other` stands for the origins of type checking. -/
inductive RegionVariableOrigin where
  | nll (origin : NllRegionVariableOrigin)
  | other (origin : Interned)
  deriving DecidableEq

/-- `RegionVariableInfo`. -/
structure RegionVariableInfo where
  origin : RegionVariableOrigin
  «universe» : UniverseIndex
  deriving DecidableEq

structure RegionDefinition where
  origin : NllRegionVariableOrigin
  «universe» : UniverseIndex
  externalName : Option Region
  deriving DecidableEq

/-- `RegionDefinition::new`. -/
def RegionDefinition.new («universe» : UniverseIndex) (rvOrigin : RegionVariableOrigin) :
    RegionDefinition :=
  let origin :=
    match rvOrigin with
    | .nll origin => origin
    | .other _ => .existential false
  { origin, «universe», externalName := none }

/-! ## Annotations -/

structure RegionTracker where
  maxPlaceholderUniverseReached : UniverseIndex
  minReachableUniverse : UniverseIndex
  representative : RegionVid
  representativeIsPlaceholder : Bool
  representativeIsExistential : Bool
  deriving DecidableEq

namespace RegionTracker

/-- `RegionTracker::new`. -/
def new (rvid : RegionVid) (definition : RegionDefinition) : RegionTracker :=
  let (representativeIsPlaceholder, representativeIsExistential) :=
    match definition.origin with
    | .freeRegion => (false, false)
    | .placeholder _ => (true, false)
    | .existential _ => (false, true)
  { maxPlaceholderUniverseReached :=
      if representativeIsPlaceholder then definition.universe else .ROOT
    minReachableUniverse := definition.universe
    representative := rvid
    representativeIsPlaceholder
    representativeIsExistential }

/-- `min_universe`. -/
def minUniverse (self : RegionTracker) : UniverseIndex := self.minReachableUniverse

/-- `merge_min_max_seen`. -/
def mergeMinMaxSeen (self other : RegionTracker) : RegionTracker :=
  { self with
    maxPlaceholderUniverseReached :=
      max self.maxPlaceholderUniverseReached other.maxPlaceholderUniverseReached
    minReachableUniverse := min self.minReachableUniverse other.minReachableUniverse }

/-- `merge_scc`. -/
def mergeScc (self other : RegionTracker) : RegionTracker :=
  if other.representativeIsPlaceholder && self.representativeIsExistential then
    other.mergeMinMaxSeen self
  else if self.representativeIsPlaceholder && other.representativeIsExistential ||
      decide (self.representative ≤ other.representative) then
    self.mergeMinMaxSeen other
  else other.mergeMinMaxSeen self

/-- `merge_reached`. -/
def mergeReached (self other : RegionTracker) : RegionTracker := self.mergeMinMaxSeen other

/-- `has_incompatible_universes`. -/
def hasIncompatibleUniverses (self : RegionTracker) : Bool :=
  self.minUniverse.cannotName self.maxPlaceholderUniverseReached

end RegionTracker

/-! ## Orders of merging -/

/-- An order in which annotations are merged: of the regions of one component, and
    of regions that it reaches. -/
inductive Merge where
  | region (r : RegionVid)
  | scc (left right : Merge)
  | reached (left right : Merge)

namespace Merge

variable (definitions : RegionVid → RegionDefinition)

/-- The annotation that the merges end with. -/
def annotationOf : Merge → RegionTracker
  | region r => .new r (definitions r)
  | scc left right => left.annotationOf.mergeScc right.annotationOf
  | reached left right => left.annotationOf.mergeReached right.annotationOf

/-- The regions of the component itself. -/
def members : Merge → List RegionVid
  | region r => [r]
  | scc left right => left.members ++ right.members
  | reached left _ => left.members

/-- The regions of the component and those that it reaches. -/
def seen : Merge → List RegionVid
  | region r => [r]
  | scc left right => left.seen ++ right.seen
  | reached left right => left.seen ++ right.seen

/-- Free regions are preferred as representatives over placeholders, and those over
    existential regions. -/
def rank : NllRegionVariableOrigin → Nat
  | .freeRegion => 0
  | .placeholder _ => 1
  | .existential _ => 2

/-- What representatives are chosen by: of two regions of one kind, the one with
    the smaller index. -/
def preference (r : RegionVid) : Nat ×ₗ Nat := toLex (rank (definitions r).origin, r)

/-- The universe of a placeholder, the root universe for other regions. -/
def placeholderUniverse (r : RegionVid) : UniverseIndex :=
  match (definitions r).origin with
  | .placeholder _ => (definitions r).universe
  | _ => .ROOT

variable {definitions}

/-- The free regions are the first region variables. -/
def FreeFirst (definitions : RegionVid → RegionDefinition) : Prop :=
  ∀ r s, (definitions r).origin = .freeRegion → (definitions s).origin ≠ .freeRegion → r < s

@[simp] theorem mergeMinMaxSeen_representative (s t : RegionTracker) :
    (s.mergeMinMaxSeen t).representative = s.representative := rfl

/-- An annotation says of which kind its representative is. -/
def Describes (definitions : RegionVid → RegionDefinition) (t : RegionTracker) : Prop :=
  t.representativeIsPlaceholder = decide (rank (definitions t.representative).origin = 1) ∧
    t.representativeIsExistential = decide (rank (definitions t.representative).origin = 2)

theorem describes_new (r : RegionVid) : Describes definitions (.new r (definitions r)) := by
  unfold Describes RegionTracker.new
  cases (definitions r).origin with
  | freeRegion => exact ⟨rfl, rfl⟩
  | placeholder _ => exact ⟨rfl, rfl⟩
  | existential _ => exact ⟨rfl, rfl⟩

theorem rank_eq_zero {origin : NllRegionVariableOrigin} (h : rank origin = 0) :
    origin = .freeRegion := by
  cases origin with
  | freeRegion => rfl
  | placeholder _ => cases h
  | existential _ => cases h

theorem rank_le_two (origin : NllRegionVariableOrigin) : rank origin ≤ 2 := by
  cases origin with
  | freeRegion => exact Nat.zero_le 2
  | placeholder _ => exact Nat.le_succ 1
  | existential _ => exact Nat.le_refl 2

theorem preference_le_iff {r s : RegionVid} :
    preference definitions r ≤ preference definitions s ↔
      rank (definitions r).origin < rank (definitions s).origin ∨
        rank (definitions r).origin = rank (definitions s).origin ∧ r ≤ s :=
  Prod.Lex.toLex_le_toLex

/-- Merging two annotations of one component keeps the preferred representative,
    and what both have seen. -/
theorem mergeScc_spec (hfirst : FreeFirst definitions) {s t : RegionTracker}
    (hs : Describes definitions s) (ht : Describes definitions t) :
    Describes definitions (s.mergeScc t) ∧
      ((s.mergeScc t).representative = s.representative ∧
          preference definitions s.representative ≤ preference definitions t.representative ∨
        (s.mergeScc t).representative = t.representative ∧
          preference definitions t.representative ≤ preference definitions s.representative) ∧
      (s.mergeScc t).maxPlaceholderUniverseReached =
        max s.maxPlaceholderUniverseReached t.maxPlaceholderUniverseReached ∧
      (s.mergeScc t).minReachableUniverse =
        min s.minReachableUniverse t.minReachableUniverse := by
  -- a region of no preferred kind has the smaller index only if it is of the same kind
  have hsmaller : ∀ r q : Nat, r ≤ q →
      ¬ (rank (definitions r).origin = 2 ∧ rank (definitions q).origin = 1) →
      preference definitions r ≤ preference definitions q := by
    intro r q hrq hkind
    rw [preference_le_iff]
    have hr := rank_le_two (definitions r).origin
    have hq := rank_le_two (definitions q).origin
    by_cases hfree : rank (definitions q).origin = 0 ∧ rank (definitions r).origin ≠ 0
    · have hlt : q < r := hfirst q r (rank_eq_zero hfree.1) fun h => hfree.2 (by rw [h]; rfl)
      exact absurd hrq (Nat.not_le.mpr hlt)
    · rcases Nat.lt_trichotomy (rank (definitions r).origin) (rank (definitions q).origin) with
        h | h | h
      · exact .inl h
      · exact .inr ⟨h, hrq⟩
      · omega
  obtain ⟨hsp, hse⟩ := hs
  obtain ⟨htp, hte⟩ := ht
  unfold RegionTracker.mergeScc
  rw [hsp, hse, htp, hte]
  by_cases hleft : rank (definitions t.representative).origin = 1 ∧
      rank (definitions s.representative).origin = 2
  · rw [if_pos (by simp [hleft])]
    refine ⟨⟨htp, hte⟩, .inr ⟨rfl, preference_le_iff.mpr (.inl ?_)⟩, max_comm _ _, min_comm _ _⟩
    rw [hleft.1, hleft.2]
    exact Nat.lt_succ_self 1
  · rw [if_neg (by simpa using hleft)]
    by_cases hright : rank (definitions s.representative).origin = 1 ∧
        rank (definitions t.representative).origin = 2
    · rw [if_pos (by simp [hright])]
      refine ⟨⟨hsp, hse⟩, .inl ⟨rfl, preference_le_iff.mpr (.inl ?_)⟩, rfl, rfl⟩
      rw [hright.1, hright.2]
      exact Nat.lt_succ_self 1
    · by_cases hle : s.representative ≤ t.representative
      · rw [if_pos (by simp [hle])]
        exact ⟨⟨hsp, hse⟩, .inl ⟨rfl, hsmaller _ _ hle fun h => hleft ⟨h.2, h.1⟩⟩, rfl, rfl⟩
      · rw [if_neg (by simpa [hle] using hright)]
        exact ⟨⟨htp, hte⟩,
          .inr ⟨rfl, hsmaller _ _ (Nat.le_of_not_le hle) fun h => hright ⟨h.2, h.1⟩⟩,
          max_comm _ _, min_comm _ _⟩

/-- Where the free regions come first, every order of merging ends with the
    preferred region of the component as its representative. -/
theorem annotationOf_representative (hfirst : FreeFirst definitions) (merge : Merge) :
    Describes definitions (merge.annotationOf definitions) ∧
      (merge.annotationOf definitions).representative ∈ merge.members ∧
      ∀ r ∈ merge.members,
        preference definitions (merge.annotationOf definitions).representative ≤
          preference definitions r := by
  induction merge with
  | region r =>
    refine ⟨describes_new r, List.mem_singleton.mpr rfl, ?_⟩
    rintro s hs
    rw [List.mem_singleton.mp hs]
    exact le_refl _
  | scc left right ihleft ihright =>
    obtain ⟨hleft, hleftmem, hleftmin⟩ := ihleft
    obtain ⟨hright, hrightmem, hrightmin⟩ := ihright
    obtain ⟨hdescribes, hrep, -, -⟩ := mergeScc_spec hfirst hleft hright
    refine ⟨hdescribes, ?_, ?_⟩
    · rcases hrep with ⟨hrep, -⟩ | ⟨hrep, -⟩
      · exact List.mem_append_left _ (by rwa [annotationOf, hrep])
      · exact List.mem_append_right _ (by rwa [annotationOf, hrep])
    · intro r hr
      rw [annotationOf]
      rcases hrep with ⟨hrep, hle⟩ | ⟨hrep, hle⟩
      all_goals
        rw [hrep]
        rcases List.mem_append.mp hr with hr | hr
      · exact hleftmin r hr
      · exact hle.trans (hrightmin r hr)
      · exact hle.trans (hleftmin r hr)
      · exact hrightmin r hr
  | reached left right ihleft _ => exact ihleft

/-- Every order of merging ends with the largest universe of a placeholder and the
    smallest universe that the component reaches. -/
theorem annotationOf_universes (hfirst : FreeFirst definitions) (merge : Merge)
    (u : UniverseIndex) :
    ((merge.annotationOf definitions).maxPlaceholderUniverseReached ≤ u ↔
        ∀ r ∈ merge.seen, placeholderUniverse definitions r ≤ u) ∧
      (u ≤ (merge.annotationOf definitions).minReachableUniverse ↔
        ∀ r ∈ merge.seen, u ≤ (definitions r).universe) := by
  induction merge with
  | region r =>
    simp only [seen, List.mem_singleton, forall_eq, annotationOf]
    refine ⟨?_, Iff.rfl⟩
    unfold RegionTracker.new placeholderUniverse
    cases (definitions r).origin with
    | freeRegion => exact Iff.rfl
    | placeholder _ => exact Iff.rfl
    | existential _ => exact Iff.rfl
  | scc left right ihleft ihright =>
    obtain ⟨-, -, hmax, hmin⟩ := mergeScc_spec hfirst (annotationOf_representative hfirst left).1
      (annotationOf_representative hfirst right).1
    rw [annotationOf, hmax, hmin, max_le_iff, le_min_iff, ihleft.1, ihright.1, ihleft.2, ihright.2]
    simp only [seen, List.mem_append, or_imp, forall_and, and_self]
  | reached left right ihleft ihright =>
    have hmax : (annotationOf definitions (reached left right)).maxPlaceholderUniverseReached =
        max (left.annotationOf definitions).maxPlaceholderUniverseReached
          (right.annotationOf definitions).maxPlaceholderUniverseReached := rfl
    have hmin : (annotationOf definitions (reached left right)).minReachableUniverse =
        min (left.annotationOf definitions).minReachableUniverse
          (right.annotationOf definitions).minReachableUniverse := rfl
    rw [hmax, hmin, max_le_iff, le_min_iff, ihleft.1, ihright.1, ihleft.2, ihright.2]
    simp only [seen, List.mem_append, or_imp, forall_and, and_self]

/-- The universes of a component are incompatible if it reaches a placeholder that
    some region it reaches cannot name. -/
theorem hasIncompatibleUniverses_annotationOf (hfirst : FreeFirst definitions) (merge : Merge) :
    (merge.annotationOf definitions).hasIncompatibleUniverses = true ↔
      ∃ r ∈ merge.seen, ∃ p ∈ merge.seen,
        (definitions r).universe < placeholderUniverse definitions p := by
  have hmax := (annotationOf_universes hfirst merge
    (merge.annotationOf definitions).minReachableUniverse).1
  rw [RegionTracker.hasIncompatibleUniverses, UniverseIndex.cannotName, decide_eq_true_eq,
    ← Nat.not_le, RegionTracker.minUniverse, hmax]
  have hmin : ∀ p, placeholderUniverse definitions p ≤
      (merge.annotationOf definitions).minReachableUniverse ↔
        ∀ r ∈ merge.seen, placeholderUniverse definitions p ≤ (definitions r).universe :=
    fun p => (annotationOf_universes hfirst merge _).2
  simp only [hmin, not_forall, exists_prop, Nat.not_le]
  constructor
  · rintro ⟨p, hp, r, hr, hlt⟩
    exact ⟨r, hr, p, hp, hlt⟩
  · rintro ⟨r, hr, p, hp, hlt⟩
    exact ⟨p, hp, r, hr, hlt⟩

/-- The annotation of a component does not depend on the order in which rustc merges
    those of its regions and of what it reaches. -/
theorem annotationOf_congr (hfirst : FreeFirst definitions) {merge merge' : Merge}
    (hmembers : ∀ r, r ∈ merge.members ↔ r ∈ merge'.members)
    (hseen : ∀ r, r ∈ merge.seen ↔ r ∈ merge'.seen) :
    merge.annotationOf definitions = merge'.annotationOf definitions := by
  obtain ⟨⟨hplaceholder, hexistential⟩, hmem, hmin⟩ := annotationOf_representative hfirst merge
  obtain ⟨⟨hplaceholder', hexistential'⟩, hmem', hmin'⟩ := annotationOf_representative hfirst merge'
  have hrep : (merge.annotationOf definitions).representative =
      (merge'.annotationOf definitions).representative := by
    have hle := le_antisymm (hmin _ ((hmembers _).mpr hmem')) (hmin' _ ((hmembers _).mp hmem))
    exact congrArg (fun key => (ofLex key).2) hle
  have huniverses := annotationOf_universes hfirst merge
  have huniverses' := annotationOf_universes hfirst merge'
  have hmax : (merge.annotationOf definitions).maxPlaceholderUniverseReached =
      (merge'.annotationOf definitions).maxPlaceholderUniverseReached := by
    refine eq_of_forall_ge_iff fun u => ?_
    rw [(huniverses u).1, (huniverses' u).1]
    exact forall_congr' fun r => imp_congr_left (hseen r)
  have hminimum : (merge.annotationOf definitions).minReachableUniverse =
      (merge'.annotationOf definitions).minReachableUniverse := by
    refine eq_of_forall_le_iff fun u => ?_
    rw [(huniverses u).2, (huniverses' u).2]
    exact forall_congr' fun r => imp_congr_left (hseen r)
  rw [hrep] at hplaceholder hexistential
  cases hs : merge.annotationOf definitions
  cases ht : merge'.annotationOf definitions
  simp only [hs, ht] at *
  simp only [RegionTracker.mk.injEq]
  exact ⟨hmax, hminimum, hrep, hplaceholder.trans hplaceholder'.symm,
    hexistential.trans hexistential'.symm⟩

/-- A free region, a placeholder of universe 1, and existential regions. -/
def mixedDefinitions : RegionVid → RegionDefinition
  | 0 => ⟨.freeRegion, 0, none⟩
  | 1 => ⟨.placeholder ⟨1, 0⟩, 1, none⟩
  | _ => ⟨.existential false, 0, none⟩

theorem freeFirst_mixedDefinitions : FreeFirst mixedDefinitions := by
  intro r s hr hs
  match r, s with
  | 0, 0 => exact absurd rfl hs
  | 0, _ + 1 => exact Nat.succ_pos _
  | 1, _ => cases hr
  | _ + 2, _ => cases hr

/-- Merged from the back or from the front, a component with a free region is
    represented by it. -/
theorem annotationOf_congr_mixed :
    ((scc (scc (region 2) (region 1)) (region 0)).annotationOf mixedDefinitions =
        (scc (region 0) (scc (region 1) (region 2))).annotationOf mixedDefinitions) ∧
      ((scc (region 0) (scc (region 1) (region 2))).annotationOf
        mixedDefinitions).representative = 0 :=
  ⟨annotationOf_congr freeFirst_mixedDefinitions (by simp [members]; tauto)
    (by simp [seen]; tauto), by decide⟩

end Merge

end MutationTesting.Borrowck
