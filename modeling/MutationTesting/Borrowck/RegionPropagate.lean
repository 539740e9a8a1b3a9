/-
  MutationTesting.Borrowck.RegionPropagate

  The propagation of region constraints (`propagate_constraints`,
  `compute_value_for_scc` and `apply_member_constraint` in
  `borrowck/src/region_infer/mod.rs`): each component takes over the values of its
  successors, and then that of the least choice of each of its member
  constraints, where there is one.
-/
import MutationTesting.Borrowck.RegionInfer

namespace MutationTesting.Borrowck

open MutationTesting.Rust MutationTesting.Mir MutationTesting.Graph Relation

/-! ## The least choice -/

namespace UniversalRegionRelations

/-- The choices that compare to all others. -/
def totallyOrderedSubset (relations : UniversalRegionRelations) (choices : List RegionVid) :
    List RegionVid :=
  choices.filter fun r1 =>
    choices.all fun r2 => relations.outlives r1 r2 || relations.outlives r2 r1

/-- The closure of the `reduce` of `apply_member_constraint`. -/
def reduceChoice (relations : UniversalRegionRelations) (r1 r2 : RegionVid) : Res RegionVid :=
  match relations.outlives r1 r2, relations.outlives r2 r1 with
  | true, true => .ok (min r1 r2)
  | true, false => .ok r2
  | false, true => .ok r1
  | false, false => .error (.message "incomparable regions in total order")

/-- The least of the choices that compare to all others. -/
def minChoice (relations : UniversalRegionRelations) (choices : List RegionVid) :
    Res (Option RegionVid) :=
  match relations.totallyOrderedSubset choices with
  | [] => .ok none
  | first :: rest => do
    let choice ← rest.foldlM relations.reduceChoice first
    return some choice

/-- What is known of the universal regions is transitive. -/
def Transitive (relations : UniversalRegionRelations) : Prop :=
  ∀ a b c, relations.outlives a b = true → relations.outlives b c = true →
    relations.outlives a c = true

variable {relations : UniversalRegionRelations}

/-- The smaller of two comparable choices, and of two equal ones the one with the
    smaller index. -/
theorem reduceChoice_spec {r s : RegionVid}
    (hr : relations.outlives r r = true) (hs : relations.outlives s s = true)
    (hcomparable : relations.outlives r s = true ∨ relations.outlives s r = true) :
    ∃ m, relations.reduceChoice r s = .ok m ∧ (m = r ∨ m = s) ∧
      (relations.outlives r m = true ∧ (relations.outlives m r = true → m ≤ r)) ∧
      (relations.outlives s m = true ∧ (relations.outlives m s = true → m ≤ s)) := by
  unfold reduceChoice
  cases hrs : relations.outlives r s with
  | true =>
    cases hsr : relations.outlives s r with
    | true =>
      refine ⟨min r s, rfl, ?_, ?_⟩
      · rcases Nat.le_total r s with h | h
        · exact .inl (Nat.min_eq_left h)
        · exact .inr (Nat.min_eq_right h)
      · rcases Nat.le_total r s with h | h
        · rw [Nat.min_eq_left h]
          exact ⟨⟨hr, fun _ => Nat.le_refl r⟩, hsr, fun _ => h⟩
        · rw [Nat.min_eq_right h]
          exact ⟨⟨hrs, fun _ => h⟩, hs, fun _ => Nat.le_refl s⟩
    | false =>
      refine ⟨s, rfl, .inr rfl, ⟨hrs, fun h => ?_⟩, hs, fun _ => Nat.le_refl s⟩
      rw [hsr] at h
      cases h
  | false =>
    have hsr : relations.outlives s r = true := by
      rcases hcomparable with h | h
      · rw [hrs] at h
        cases h
      · exact h
    rw [hsr]
    refine ⟨r, rfl, .inl rfl, ⟨hr, fun _ => Nat.le_refl r⟩, hsr, fun h => ?_⟩
    rw [hrs] at h
    cases h

/-- Reducing pairwise comparable choices ends with the least of them. -/
theorem foldlM_reduceChoice (htrans : relations.Transitive) {first : RegionVid}
    {rest : List RegionVid}
    (hcomparable : ∀ r ∈ first :: rest, ∀ s ∈ first :: rest,
      relations.outlives r s = true ∨ relations.outlives s r = true) :
    ∃ m, rest.foldlM relations.reduceChoice first = .ok m ∧ m ∈ first :: rest ∧
      ∀ r ∈ first :: rest, relations.outlives r m = true ∧
        (relations.outlives m r = true → m ≤ r) := by
  have hself : ∀ r ∈ first :: rest, relations.outlives r r = true := fun r hr =>
    (hcomparable r hr r hr).elim id id
  induction rest generalizing first with
  | nil =>
    refine ⟨first, rfl, List.mem_cons_self, fun r hr => ?_⟩
    rw [List.mem_singleton.mp hr]
    exact ⟨hself first List.mem_cons_self, fun _ => Nat.le_refl first⟩
  | cons s rest ih =>
    have hs : s ∈ first :: s :: rest := List.mem_cons_of_mem _ List.mem_cons_self
    obtain ⟨m₁, hreduce, hm₁, ⟨hfirst, hfirst'⟩, hsecond, hsecond'⟩ :=
      reduceChoice_spec (hself first List.mem_cons_self) (hself s hs)
        (hcomparable first List.mem_cons_self s hs)
    have hsub : ∀ r ∈ m₁ :: rest, r ∈ first :: s :: rest := by
      intro r hr
      rcases List.mem_cons.mp hr with rfl | hr
      · rcases hm₁ with rfl | rfl
        · exact List.mem_cons_self
        · exact hs
      · exact List.mem_cons_of_mem _ (List.mem_cons_of_mem _ hr)
    obtain ⟨m, hfold, hm, hleast⟩ := ih
      (fun r hr t ht => hcomparable r (hsub r hr) t (hsub t ht))
      fun r hr => hself r (hsub r hr)
    obtain ⟨hm₁m, hm₁m'⟩ := hleast m₁ List.mem_cons_self
    -- what outlives the smaller of two choices outlives the least of all
    have hthrough : ∀ r, relations.outlives r m₁ = true →
        (relations.outlives m₁ r = true → m₁ ≤ r) →
        relations.outlives r m = true ∧ (relations.outlives m r = true → m ≤ r) := by
      intro r hr hr'
      refine ⟨htrans r m₁ m hr hm₁m, fun hmr => ?_⟩
      exact (hm₁m' (htrans m r m₁ hmr hr)).trans (hr' (htrans m₁ m r hm₁m hmr))
    refine ⟨m, ?_, hsub m hm, fun r hr => ?_⟩
    · rw [List.foldlM_cons, hreduce]
      exact hfold
    · rcases List.mem_cons.mp hr with rfl | hr
      · exact hthrough r hfirst hfirst'
      · rcases List.mem_cons.mp hr with rfl | hr
        · exact hthrough r hsecond hsecond'
        · exact hleast r (List.mem_cons_of_mem _ hr)

theorem mem_totallyOrderedSubset {choices : List RegionVid} {r : RegionVid} :
    r ∈ relations.totallyOrderedSubset choices ↔ r ∈ choices ∧
      ∀ s ∈ choices, relations.outlives r s = true ∨ relations.outlives s r = true := by
  simp [totallyOrderedSubset, List.mem_filter]

/-- The least choice is there if some choice compares to all others; it is one of
    those, and all of those outlive it. -/
theorem minChoice_spec (htrans : relations.Transitive) (choices : List RegionVid) :
    ∃ choice?, relations.minChoice choices = .ok choice? ∧
      (choice? = none → relations.totallyOrderedSubset choices = []) ∧
      ∀ m, choice? = some m → m ∈ relations.totallyOrderedSubset choices ∧
        ∀ r ∈ relations.totallyOrderedSubset choices, relations.outlives r m = true ∧
          (relations.outlives m r = true → m ≤ r) := by
  unfold minChoice
  cases hsubset : relations.totallyOrderedSubset choices with
  | nil => exact ⟨none, rfl, fun _ => rfl, nofun⟩
  | cons first rest =>
    have hcomparable : ∀ r ∈ first :: rest, ∀ s ∈ first :: rest,
        relations.outlives r s = true ∨ relations.outlives s r = true := by
      intro r hr s hs
      rw [← hsubset] at hr hs
      exact (mem_totallyOrderedSubset.mp hr).2 s (mem_totallyOrderedSubset.mp hs).1
    obtain ⟨m, hfold, hm, hleast⟩ := foldlM_reduceChoice htrans hcomparable
    refine ⟨some m, ?_, nofun, ?_⟩
    · simp only [hfold, Res.ok_bind, Res.pure_eq]
    · rintro m' heq
      cases heq
      exact ⟨hm, hleast⟩

end UniversalRegionRelations

/-! ## Member constraints and components -/

namespace RegionInferenceContext

/-- `compute_reverse_scc_graph`. -/
def computeReverseSccGraph (self : RegionInferenceContext) : Res RegionInferenceContext :=
  match self.revSccGraph with
  | some _ => .ok self
  | none => do
    let graph ← reverseSccGraph self.constraintSccs self.universalRegions
    return { self with revSccGraph := some graph }

/-- `apply_member_constraint`. -/
def applyMemberConstraint (self : RegionInferenceContext) (scc : ConstraintSccIndex)
    (memberConstraintIndex : NllMemberConstraintIndex) (choiceRegions : List RegionVid) :
    Res RegionInferenceContext := do
  let self ← self.computeReverseSccGraph
  let choiceRegions := choiceRegions.map fun c => self.sccRepresentative (self.constraintSccs.scc c)
  if !(self.sccUniverse scc).isRoot then return self
  else
    let choiceRegions := choiceRegions.filter fun o =>
      decide (∀ lb ∈ self.sccValues.universalRegionsOutlivedBy scc,
        self.universalRegionRelations.outlives o lb = true)
    let revSccGraph ← unwrap self.revSccGraph
    let upperBounds ← revSccGraph.upperBounds scc
    let choiceRegions := upperBounds.foldl
      (fun choiceRegions ub =>
        choiceRegions.filter fun o => self.universalRegionRelations.outlives ub o)
      choiceRegions
    match ← self.universalRegionRelations.minChoice choiceRegions with
    | none => return self
    | some minChoice =>
      let minChoiceScc := self.constraintSccs.scc minChoice
      let (changed, sccValues) := self.sccValues.addRegion scc minChoiceScc
      let self := { self with sccValues }
      if changed then
        return { self with
          memberConstraintsApplied := self.memberConstraintsApplied ++
            [{ memberRegionScc := scc, minChoice, memberConstraintIndex }] }
      else return self

/-- `compute_value_for_scc`. -/
def computeValueForScc (self : RegionInferenceContext) (sccA : ConstraintSccIndex) :
    Res RegionInferenceContext := do
  let self := (self.constraintSccs.successors sccA).foldl
    (fun (self : RegionInferenceContext) sccB =>
      { self with sccValues := (self.sccValues.addRegion sccA sccB).2 }) self
  let indices ← collect self.memberConstraints.constraints.length
    (self.memberConstraints.indices sccA)
  indices.foldlM
    (fun (self : RegionInferenceContext) i => do
      let choiceRegions ← self.memberConstraints.choiceRegionsOf i
      self.applyMemberConstraint sccA i choiceRegions) self

/-- `propagate_constraints`. -/
def propagateConstraints (self : RegionInferenceContext) : Res RegionInferenceContext := do
  let self ← self.constraintSccs.allSccs.foldlM computeValueForScc self
  return { self with
    memberConstraintsApplied := self.memberConstraintsApplied.mergeSort
      fun x y => decide (x.memberRegionScc ≤ y.memberRegionScc) }

/-- What propagation relies on and keeps. -/
structure Ready (context : RegionInferenceContext) (toRegionVid : Region → RegionVid)
    (ms : List MemberConstraint) : Prop where
  components : context.constraintSccs.Of context.definitions.length context.Edge
    (definitionOf context.definitions)
  universals : context.universalRegions.numUniversals ≤ context.definitions.length
  reverse : ∀ graph, context.revSccGraph = some graph →
    reverseSccGraph context.constraintSccs context.universalRegions = .ok graph
  members : context.memberConstraints.Holds
    (fun m => context.constraintSccs.scc (toRegionVid m.memberRegion)) toRegionVid ms
  transitive : context.universalRegionRelations.Transitive

/-- The choices for a member constraint that agree with its lower and upper bounds. -/
def Admissible (self : RegionInferenceContext) (scc : ConstraintSccIndex)
    (choiceRegions : List RegionVid) (o : RegionVid) : Prop :=
  (∃ c ∈ choiceRegions, self.sccRepresentative (self.constraintSccs.scc c) = o) ∧
    (∀ lb ∈ self.sccValues.universalRegionsOutlivedBy scc,
      self.universalRegionRelations.outlives o lb = true) ∧
    ∀ ub, self.universalRegions.isUniversalRegion ub = true →
      ReflTransGen self.constraintSccs.Successor (self.constraintSccs.scc ub) scc →
      self.universalRegionRelations.outlives ub o = true

/-- Of the admissible choices, one that compares to all others and that all of
    those outlive which compare to all others. -/
def LeastChoice (self : RegionInferenceContext) (scc : ConstraintSccIndex)
    (choiceRegions : List RegionVid) (m : RegionVid) : Prop :=
  (self.Admissible scc choiceRegions m ∧ ∀ o, self.Admissible scc choiceRegions o →
      self.universalRegionRelations.outlives m o = true ∨
        self.universalRegionRelations.outlives o m = true) ∧
    ∀ o, (self.Admissible scc choiceRegions o ∧ ∀ o', self.Admissible scc choiceRegions o' →
        self.universalRegionRelations.outlives o o' = true ∨
          self.universalRegionRelations.outlives o' o = true) →
      self.universalRegionRelations.outlives o m = true

theorem mem_foldl_filter {β : Type} {p : β → RegionVid → Bool} (bounds : List β)
    (choices : List RegionVid) (o : RegionVid) :
    o ∈ bounds.foldl (fun choices b => choices.filter (p b)) choices ↔
      o ∈ choices ∧ ∀ b ∈ bounds, p b o = true := by
  induction bounds generalizing choices with
  | nil => simp
  | cons b bounds ih =>
    rw [List.foldl_cons, ih, List.mem_filter, and_assoc]
    simp

/-- An edge from a component to that of an applied choice. -/
def AppliedEdge (self : RegionInferenceContext) (a b : ConstraintSccIndex) : Prop :=
  ∃ x ∈ self.memberConstraintsApplied, x.memberRegionScc = a ∧
    self.constraintSccs.scc x.minChoice = b

/-- How the context changes while the value of one component is computed: only the
    value of that component grows, by values that it has an edge to. -/
structure Grown (scc : ConstraintSccIndex) (before after : RegionInferenceContext) : Prop where
  frame : after = { before with
    revSccGraph := after.revSccGraph
    memberConstraintsApplied := after.memberConstraintsApplied
    sccValues := after.sccValues }
  elements : after.sccValues.elements = before.sccValues.elements
  indices : after.sccValues.placeholderIndices = before.sccValues.placeholderIndices
  applied : ∀ x ∈ before.memberConstraintsApplied, x ∈ after.memberConstraintsApplied
  mono : ∀ a element, before.sccValues.Contains a element → after.sccValues.Contains a element
  others : ∀ a, a ≠ scc → ∀ element,
    after.sccValues.Contains a element → before.sccValues.Contains a element
  justified : ∀ element, after.sccValues.Contains scc element →
    before.sccValues.Contains scc element ∨
      ∃ b, (before.constraintSccs.Successor scc b ∨ after.AppliedEdge scc b) ∧
        before.sccValues.Contains b element

namespace Grown

variable {scc : ConstraintSccIndex} {before mid after : RegionInferenceContext}

theorem constraintSccs (h : Grown scc before after) :
    after.constraintSccs = before.constraintSccs := by
  rw [h.frame]

theorem refl (scc : ConstraintSccIndex) (before : RegionInferenceContext) :
    Grown scc before before :=
  ⟨rfl, rfl, rfl, fun _ h => h, fun _ _ h => h, fun _ _ _ h => h, fun _ h => .inl h⟩

theorem trans (h₁ : Grown scc before mid) (h₂ : Grown scc mid after) : Grown scc before after := by
  refine ⟨?_, h₂.elements.trans h₁.elements, h₂.indices.trans h₁.indices,
    fun x hx => h₂.applied x (h₁.applied x hx),
    fun a e he => h₂.mono a e (h₁.mono a e he),
    fun a ha e he => h₁.others a ha e (h₂.others a ha e he), fun e he => ?_⟩
  · rw [h₂.frame, h₁.frame]
  · -- an edge to a choice that was applied before is still one
    have hedge : ∀ b, mid.AppliedEdge scc b → after.AppliedEdge scc b := by
      rintro b ⟨x, hx, hscc, hb⟩
      exact ⟨x, h₂.applied x hx, hscc, by rw [h₂.constraintSccs]; exact hb⟩
    have hfirst : mid.sccValues.Contains scc e → before.sccValues.Contains scc e ∨
        ∃ b, (before.constraintSccs.Successor scc b ∨ after.AppliedEdge scc b) ∧
          before.sccValues.Contains b e := by
      intro h
      refine (h₁.justified e h).imp_right ?_
      rintro ⟨b, hb, he⟩
      exact ⟨b, hb.imp_right (hedge b), he⟩
    rcases h₂.justified e he with he | ⟨b, hb, he⟩
    · exact hfirst he
    · by_cases hsame : b = scc
      · exact hfirst (hsame ▸ he)
      · rw [h₁.constraintSccs] at hb
        exact .inr ⟨b, hb, h₁.others b hsame e he⟩

theorem ready {toRegionVid : Region → RegionVid} {ms : List MemberConstraint}
    (h : Grown scc before after) (hready : before.Ready toRegionVid ms)
    (hreverse : ∀ graph, after.revSccGraph = some graph →
      reverseSccGraph before.constraintSccs before.universalRegions = .ok graph) :
    after.Ready toRegionVid ms := by
  rw [h.frame]
  exact ⟨hready.components, hready.universals, hreverse, hready.members, hready.transitive⟩

end Grown

variable {self : RegionInferenceContext} {toRegionVid : Region → RegionVid}
  {ms : List MemberConstraint}

/-- Taking over the values of successors. -/
theorem grown_addSuccessors (scc : ConstraintSccIndex) (bs : List ConstraintSccIndex)
    (hbs : ∀ b ∈ bs, self.constraintSccs.Successor scc b) :
    ∃ self', bs.foldl (fun (self : RegionInferenceContext) sccB =>
        { self with sccValues := (self.sccValues.addRegion scc sccB).2 }) self = self' ∧
      Grown scc self self' ∧ self'.revSccGraph = self.revSccGraph ∧
      self'.memberConstraintsApplied = self.memberConstraintsApplied ∧
      ∀ b ∈ bs, ∀ element, self.sccValues.Contains b element →
        self'.sccValues.Contains scc element := by
  induction bs generalizing self with
  | nil => exact ⟨self, rfl, .refl scc self, rfl, rfl, fun b hb => absurd hb List.not_mem_nil⟩
  | cons b bs ih =>
    have hstep : Grown scc self
        { self with sccValues := (self.sccValues.addRegion scc b).2 } := by
      refine ⟨rfl, rfl, rfl, fun _ h => h, fun a e he => ?_, fun a ha e he => ?_, fun e he => ?_⟩
      · exact (RegionValues.contains_addRegion ..).mpr (.inl he)
      · exact ((RegionValues.contains_addRegion ..).mp he).elim id fun h => absurd h.1 ha
      · refine ((RegionValues.contains_addRegion ..).mp he).imp_right fun h => ?_
        exact ⟨b, .inl (hbs b List.mem_cons_self), h.2⟩
    obtain ⟨self', hfold, hgrown, hreverse, happlied, hall⟩ :=
      @ih { self with sccValues := (self.sccValues.addRegion scc b).2 }
        fun c hc => hbs c (List.mem_cons_of_mem _ hc)
    refine ⟨self', hfold, hstep.trans hgrown, hreverse, happlied, fun c hc e he => ?_⟩
    rcases List.mem_cons.mp hc with rfl | hc
    · exact hgrown.mono scc e ((RegionValues.contains_addRegion ..).mpr (.inr ⟨rfl, he⟩))
    · exact hall c hc e (hstep.mono c e he)

/-- Applying a member constraint to a component: the context grows there, and where a
    choice is recorded it is the least one. -/
theorem applyMemberConstraint_spec (hready : self.Ready toRegionVid ms)
    {scc : ConstraintSccIndex} (hscc : scc < self.constraintSccs.numSccs)
    (i : NllMemberConstraintIndex) (choiceRegions : List RegionVid) :
    ∃ self', self.applyMemberConstraint scc i choiceRegions = .ok self' ∧
      Grown scc self self' ∧ self'.Ready toRegionVid ms ∧
      ∀ x ∈ self'.memberConstraintsApplied, x ∈ self.memberConstraintsApplied ∨
        x.memberRegionScc = scc ∧ x.memberConstraintIndex = i ∧
          self.LeastChoice scc choiceRegions x.minChoice := by
  obtain ⟨graph, bounds, hgraph, hbounds, hmem⟩ :=
    mem_upperBounds hready.components hready.universals hscc
  -- the reverse graph is computed at the first call and kept
  have hcompute : self.computeReverseSccGraph = .ok { self with revSccGraph := some graph } := by
    unfold computeReverseSccGraph
    cases hreverse : self.revSccGraph with
    | none => simp only [hgraph, Res.ok_bind, Res.pure_eq]
    | some graph' =>
      have hsame := (hready.reverse graph' hreverse).symm.trans hgraph
      cases hsame
      simp only [← hreverse]
  have hkept : Grown scc self { self with revSccGraph := some graph } :=
    ⟨rfl, rfl, rfl, fun _ h => h, fun _ _ h => h, fun _ _ _ h => h, fun _ h => .inl h⟩
  have hreadyKept : ({ self with revSccGraph := some graph } : RegionInferenceContext).Ready
      toRegionVid ms := hkept.ready hready fun graph' h => by
    cases h
    exact hgraph
  unfold applyMemberConstraint
  rw [hcompute, Res.ok_bind]
  simp only [sccUniverse, sccRepresentative]
  cases hroot : (self.constraintSccs.annotationOf scc).minUniverse.isRoot with
  | false => exact ⟨_, rfl, hkept, hreadyKept, fun x hx => .inl hx⟩
  | true =>
    simp only [Bool.not_true, Bool.false_eq_true, if_false, unwrap, Res.ok_bind, hbounds]
    generalize hchoices : bounds.foldl _ _ = choices
    have hadmissible : ∀ o, o ∈ choices ↔ self.Admissible scc choiceRegions o := by
      intro o
      rw [← hchoices, mem_foldl_filter, List.mem_filter, List.mem_map, decide_eq_true_eq, and_assoc]
      refine and_congr_right fun _ => and_congr_right fun _ => ?_
      simp only [hmem, and_imp]
    obtain ⟨choice?, hchoice, -, hleast⟩ :=
      UniversalRegionRelations.minChoice_spec hready.transitive choices
    rw [hchoice, Res.ok_bind]
    cases choice? with
    | none => exact ⟨_, rfl, hkept, hreadyKept, fun x hx => .inl hx⟩
    | some m =>
      obtain ⟨hm, hmleast⟩ := hleast m rfl
      have hleastChoice : self.LeastChoice scc choiceRegions m := by
        simp only [UniversalRegionRelations.mem_totallyOrderedSubset, hadmissible] at hm hmleast
        exact ⟨hm, fun o ho => (hmleast o ho).1⟩
      obtain ⟨changed, values, hadd⟩ : ∃ changed values,
          self.sccValues.addRegion scc (self.constraintSccs.scc m) = (changed, values) :=
        ⟨_, _, rfl⟩
      have hcontains : ∀ a e, values.Contains a e ↔ self.sccValues.Contains a e ∨
          a = scc ∧ self.sccValues.Contains (self.constraintSccs.scc m) e := by
        intro a e
        have h := RegionValues.contains_addRegion self.sccValues scc (self.constraintSccs.scc m) a e
        rwa [hadd] at h
      have hchanged := RegionValues.addRegion_changed self.sccValues scc (self.constraintSccs.scc m)
      have helements := RegionValues.addRegion_elements self.sccValues scc
        (self.constraintSccs.scc m)
      have hindices := RegionValues.addRegion_placeholderIndices self.sccValues scc
        (self.constraintSccs.scc m)
      rw [hadd] at hchanged helements hindices
      dsimp only
      rw [hadd]
      cases changed with
      | true =>
        refine ⟨_, rfl, ⟨rfl, helements, hindices, fun x hx => List.mem_append_left _ hx,
          fun a e he => (hcontains a e).mpr (.inl he),
          fun a ha e he => ((hcontains a e).mp he).resolve_right fun h => ha h.1, ?_⟩, ?_, ?_⟩
        · intro e he
          refine ((hcontains scc e).mp he).imp_right fun h => ?_
          exact ⟨_, .inr ⟨_, List.mem_append_right _ (List.mem_singleton.mpr rfl), rfl, rfl⟩, h.2⟩
        · exact ⟨hready.components, hready.universals, hreadyKept.reverse, hready.members,
            hready.transitive⟩
        · intro x hx
          refine (List.mem_append.mp hx).imp_right fun hx => ?_
          rw [List.mem_singleton.mp hx]
          exact ⟨rfl, rfl, hleastChoice⟩
      | false =>
        have hnothing : ∀ e, self.sccValues.Contains (self.constraintSccs.scc m) e →
            self.sccValues.Contains scc e := by
          intro e he
          by_contra hnot
          have hfalse := hchanged.mpr ⟨e, he, hnot⟩
          cases hfalse
        refine ⟨_, rfl, ⟨rfl, helements, hindices, fun x hx => hx,
          fun a e he => (hcontains a e).mpr (.inl he),
          fun a ha e he => ((hcontains a e).mp he).resolve_right fun h => ha h.1, ?_⟩, ?_, ?_⟩
        · intro e he
          exact .inl (((hcontains scc e).mp he).elim id fun h => hnothing e h.2)
        · exact ⟨hready.components, hready.universals, hreadyKept.reverse, hready.members,
            hready.transitive⟩
        · exact fun x hx => .inl hx

/-- A recorded choice is the least one for a member constraint on its component. -/
def AppliedBy (self : RegionInferenceContext) (toRegionVid : Region → RegionVid)
    (ms : List MemberConstraint) (x : AppliedMemberConstraint) : Prop :=
  ∃ m, ms[x.memberConstraintIndex]? = some m ∧
    self.constraintSccs.scc (toRegionVid m.memberRegion) = x.memberRegionScc ∧
    (∃ c ∈ m.choiceRegions, self.sccRepresentative (self.constraintSccs.scc (toRegionVid c)) =
      x.minChoice) ∧
    ∀ ub, self.universalRegions.isUniversalRegion ub = true →
      ReflTransGen self.constraintSccs.Successor (self.constraintSccs.scc ub)
        x.memberRegionScc →
      self.universalRegionRelations.outlives ub x.minChoice = true

theorem AppliedBy.of_grown {scc : ConstraintSccIndex} {before after : RegionInferenceContext}
    (h : Grown scc before after) (x : AppliedMemberConstraint) :
    after.AppliedBy toRegionVid ms x ↔ before.AppliedBy toRegionVid ms x := by
  rw [h.frame]
  rfl

/-- Applying the member constraints of a component, one after the other. -/
theorem grown_applyAll (hready : self.Ready toRegionVid ms) {scc : ConstraintSccIndex}
    (hscc : scc < self.constraintSccs.numSccs) {is : List NllMemberConstraintIndex}
    (his : ∀ i ∈ is, ∃ m, ms[i]? = some m ∧
      self.constraintSccs.scc (toRegionVid m.memberRegion) = scc) :
    ∃ self', is.foldlM (fun (self : RegionInferenceContext) i => do
          let choiceRegions ← self.memberConstraints.choiceRegionsOf i
          self.applyMemberConstraint scc i choiceRegions) self = .ok self' ∧
      Grown scc self self' ∧ self'.Ready toRegionVid ms ∧
      ∀ x ∈ self'.memberConstraintsApplied, x ∈ self.memberConstraintsApplied ∨
        self.AppliedBy toRegionVid ms x := by
  induction is generalizing self with
  | nil => exact ⟨self, rfl, .refl scc self, hready, fun x hx => .inl hx⟩
  | cons i is ih =>
    obtain ⟨m, hm, hmember⟩ := his i List.mem_cons_self
    have hchoices := hready.members.choices i m hm
    obtain ⟨mid, hstep, hgrown, hmid, happlied⟩ := applyMemberConstraint_spec hready hscc i
      (m.choiceRegions.map toRegionVid)
    have his' : ∀ j ∈ is, ∃ m, ms[j]? = some m ∧
        mid.constraintSccs.scc (toRegionVid m.memberRegion) = scc := by
      intro j hj
      rw [hgrown.constraintSccs]
      exact his j (List.mem_cons_of_mem _ hj)
    obtain ⟨self', hrun, hgrown', hready', happlied'⟩ :=
      ih hmid (by rw [hgrown.constraintSccs]; exact hscc) his'
    refine ⟨self', ?_, hgrown.trans hgrown', hready', fun x hx => ?_⟩
    · rw [List.foldlM_cons, hchoices, Res.ok_bind, hstep]
      exact hrun
    · rcases happlied' x hx with hx | hx
      · refine (happlied x hx).imp_right ?_
        rintro ⟨hxscc, hxi, ⟨⟨⟨c, hc, hrep⟩, -, hub⟩, -⟩, -⟩
        obtain ⟨choice, hchoice, rfl⟩ := List.mem_map.mp hc
        exact ⟨m, by rw [hxi]; exact hm, hmember.trans hxscc.symm, ⟨choice, hchoice, hrep⟩,
          by rw [hxscc]; exact hub⟩
      · exact .inr ((AppliedBy.of_grown hgrown x).mp hx)

/-- Computing the value of a component: it takes over the values of its successors,
    and then those of the least choices of its member constraints. -/
theorem computeValueForScc_spec (hready : self.Ready toRegionVid ms) {scc : ConstraintSccIndex}
    (hscc : scc < self.constraintSccs.numSccs) :
    ∃ self', self.computeValueForScc scc = .ok self' ∧ Grown scc self self' ∧
      self'.Ready toRegionVid ms ∧
      (∀ b, self.constraintSccs.Successor scc b → ∀ element,
        self.sccValues.Contains b element → self'.sccValues.Contains scc element) ∧
      ∀ x ∈ self'.memberConstraintsApplied, x ∈ self.memberConstraintsApplied ∨
        self.AppliedBy toRegionVid ms x := by
  obtain ⟨mid, hfold, hgrown, hreverse, hsame, hall⟩ := @grown_addSuccessors self scc
    (self.constraintSccs.successors scc) fun b hb => hb
  have hmid : mid.Ready toRegionVid ms := hgrown.ready hready fun graph h =>
    hready.reverse graph (hreverse ▸ h)
  obtain ⟨is, ⟨last, hyields, -⟩, hnodup, his⟩ := hmid.members.produces_indices scc
  -- each constraint is listed once, so as many rounds as there are constraints do
  have hlen : is.length ≤ mid.memberConstraints.constraints.length := by
    have hsub : ∀ i ∈ is, i < mid.memberConstraints.constraints.length := by
      intro i hi
      obtain ⟨m, hm, -⟩ := (his i).mp hi
      rw [hmid.members.length]
      exact (List.getElem?_eq_some_iff.mp hm).1
    exact (hnodup.subperm fun i hi => List.mem_range.mpr (hsub i hi)).length_le.trans_eq
      List.length_range
  obtain ⟨self', hrun, hgrown', hready', happlied⟩ := grown_applyAll hmid
    (by rw [hgrown.constraintSccs]; exact hscc) fun i hi => (his i).mp hi
  refine ⟨self', ?_, hgrown.trans hgrown', hready', ?_, ?_⟩
  · rw [computeValueForScc, hfold, hyields.collect_eq hlen]
    exact hrun
  · exact fun b hb e he => hgrown'.mono scc e (hall b hb e he)
  · intro x hx
    rcases happlied x hx with hx | hx
    · exact .inl (hsame ▸ hx)
    · exact .inr ((AppliedBy.of_grown hgrown x).mp hx)

/-! ## The run -/

/-- The context after the values of the first components are computed. -/
structure Propagated (k : Nat) (start after : RegionInferenceContext)
    (toRegionVid : Region → RegionVid) (ms : List MemberConstraint) : Prop where
  frame : after = { start with
    revSccGraph := after.revSccGraph
    memberConstraintsApplied := after.memberConstraintsApplied
    sccValues := after.sccValues }
  elements : after.sccValues.elements = start.sccValues.elements
  indices : after.sccValues.placeholderIndices = start.sccValues.placeholderIndices
  mono : ∀ a element, start.sccValues.Contains a element → after.sccValues.Contains a element
  closed : ∀ a < k, ∀ b, start.constraintSccs.Successor a b → ∀ element,
    after.sccValues.Contains b element → after.sccValues.Contains a element
  justified : ∀ a element, after.sccValues.Contains a element →
    ∃ b, ReflTransGen (fun a b => start.constraintSccs.Successor a b ∨ after.AppliedEdge a b) a b ∧
      start.sccValues.Contains b element
  applied : ∀ x ∈ after.memberConstraintsApplied, x ∈ start.memberConstraintsApplied ∨
    start.AppliedBy toRegionVid ms x

theorem Propagated.step {k : Nat} {start mid after : RegionInferenceContext}
    (h : Propagated k start mid toRegionVid ms) (hgrown : Grown k mid after)
    (hlt : ∀ a ≤ k, ∀ b, start.constraintSccs.Successor a b → b < a)
    (hsuccessors : ∀ b, mid.constraintSccs.Successor k b → ∀ element,
      mid.sccValues.Contains b element → after.sccValues.Contains k element)
    (happlied : ∀ x ∈ after.memberConstraintsApplied, x ∈ mid.memberConstraintsApplied ∨
      mid.AppliedBy toRegionVid ms x) :
    Propagated (k + 1) start after toRegionVid ms := by
  have hsccs : mid.constraintSccs = start.constraintSccs := by rw [h.frame]
  have happliedBy : ∀ x, mid.AppliedBy toRegionVid ms x ↔ start.AppliedBy toRegionVid ms x := by
    intro x
    rw [h.frame]
    rfl
  refine ⟨?_, hgrown.elements.trans h.elements, hgrown.indices.trans h.indices,
    fun a e he => hgrown.mono a e (h.mono a e he), ?_, ?_, ?_⟩
  · rw [hgrown.frame, h.frame]
  · intro a ha b hb e he
    have hab : b < a := hlt a (Nat.le_of_lt_succ ha) b hb
    rcases Nat.lt_succ_iff_lt_or_eq.mp ha with ha | rfl
    · exact hgrown.mono a e (h.closed a ha b hb e (hgrown.others b (hab.trans ha).ne e he))
    · exact hsuccessors b (hsccs ▸ hb) e (hgrown.others b hab.ne e he)
  · have hmono : ∀ a b,
        ReflTransGen (fun a b => start.constraintSccs.Successor a b ∨ mid.AppliedEdge a b) a b →
        ReflTransGen (fun a b => start.constraintSccs.Successor a b ∨ after.AppliedEdge a b)
          a b := by
      refine fun a b => ReflTransGen.mono (fun a b hab => hab.imp_right ?_) a b
      rintro ⟨x, hx, hscc, hb⟩
      exact ⟨x, hgrown.applied x hx, hscc, by rw [hgrown.constraintSccs]; exact hb⟩
    have hmid : ∀ a e, mid.sccValues.Contains a e →
        ∃ b, ReflTransGen
            (fun a b => start.constraintSccs.Successor a b ∨ after.AppliedEdge a b) a b ∧
          start.sccValues.Contains b e := by
      intro a e he
      obtain ⟨b, hpath, hb⟩ := h.justified a e he
      exact ⟨b, hmono a b hpath, hb⟩
    intro a e he
    by_cases ha : a = k
    · rw [ha] at he ⊢
      rcases hgrown.justified e he with he | ⟨b, hb, he⟩
      · exact hmid k e he
      · obtain ⟨c, hpath, hc⟩ := hmid b e he
        rw [hsccs] at hb
        exact ⟨c, .head hb hpath, hc⟩
    · exact hmid a e (hgrown.others a ha e he)
  · intro x hx
    rcases happlied x hx with hx | hx
    · exact h.applied x hx
    · exact .inr ((happliedBy x).mp hx)

/-- Computing the values of the first components, one after the other. -/
theorem foldlM_computeValueForScc (hready : self.Ready toRegionVid ms) {k : Nat}
    (hk : k ≤ self.constraintSccs.numSccs) :
    ∃ after, (List.range k).foldlM computeValueForScc self = .ok after ∧
      after.Ready toRegionVid ms ∧ Propagated k self after toRegionVid ms := by
  induction k with
  | zero =>
    exact ⟨self, rfl, hready, rfl, rfl, rfl, fun _ _ h => h,
      fun a ha => absurd ha (Nat.not_lt_zero a),
      fun a e he => ⟨a, .refl, he⟩, fun x hx => .inl hx⟩
  | succ k ih =>
    obtain ⟨mid, hrun, hmid, hpropagated⟩ := ih (Nat.le_of_succ_le hk)
    have hsccs : mid.constraintSccs = self.constraintSccs := by rw [hpropagated.frame]
    obtain ⟨after, hstep, hgrown, hafter, hsuccessors, happlied⟩ :=
      computeValueForScc_spec hmid (by rw [hsccs]; exact hk)
    refine ⟨after, ?_, hafter, hpropagated.step hgrown ?_ hsuccessors happlied⟩
    · rw [List.range_succ, List.foldlM_append, hrun, Res.ok_bind, List.foldlM_cons, hstep]
      rfl
    · exact fun a ha b hb => hready.components.successor_lt a (ha.trans_lt hk) b hb

/-- Propagation ends. Each component has what the components it reaches had at
    first, and nothing but that and what it reaches through applied choices. -/
theorem propagateConstraints_spec (hready : self.Ready toRegionVid ms)
    (happlied : self.memberConstraintsApplied = []) :
    ∃ after, self.propagateConstraints = .ok after ∧
      Propagated self.constraintSccs.numSccs self after toRegionVid ms ∧
      (∀ x ∈ after.memberConstraintsApplied, self.AppliedBy toRegionVid ms x) ∧
      ∀ a < self.constraintSccs.numSccs, ∀ b,
        ReflTransGen self.constraintSccs.Successor a b → ∀ element,
          self.sccValues.Contains b element → after.sccValues.Contains a element := by
  obtain ⟨mid, hrun, -, hmid⟩ := foldlM_computeValueForScc hready (Nat.le_refl _)
  have hperm := List.mergeSort_perm mid.memberConstraintsApplied
    fun x y => decide (x.memberRegionScc ≤ y.memberRegionScc)
  have hpropagated : Propagated self.constraintSccs.numSccs self { mid with
      memberConstraintsApplied := mid.memberConstraintsApplied.mergeSort
        fun x y => decide (x.memberRegionScc ≤ y.memberRegionScc) } toRegionVid ms := by
    refine ⟨?_, hmid.elements, hmid.indices, hmid.mono, hmid.closed, ?_, ?_⟩
    · conv_lhs => rw [hmid.frame]
    · intro a e he
      obtain ⟨b, hpath, hb⟩ := hmid.justified a e he
      refine ⟨b, ReflTransGen.mono (fun a b hab => hab.imp_right ?_) a b hpath, hb⟩
      rintro ⟨x, hx, hscc, hchoice⟩
      exact ⟨x, hperm.mem_iff.mpr hx, hscc, hchoice⟩
    · exact fun x hx => hmid.applied x (hperm.mem_iff.mp hx)
  refine ⟨_, ?_, hpropagated, fun x hx => ?_, fun a ha b hpath e he => ?_⟩
  · rw [propagateConstraints, ConstraintSccs.allSccs, hrun]
    rfl
  · refine (hpropagated.applied x hx).resolve_left ?_
    rw [happlied]
    exact List.not_mem_nil
  · induction hpath using ReflTransGen.head_induction_on with
    | refl => exact hpropagated.mono _ e he
    | @head a c hstep _ ih =>
      have hc : c < self.constraintSccs.numSccs :=
        (hready.components.successor_lt a ha c hstep).trans ha
      exact hpropagated.closed a ha c hstep e (ih hc)

/-! ## Regions -/

/-- The regions that the constraints on members mention are declared. -/
def MembersDeclared (toRegionVid : Region → RegionVid) (ms : List MemberConstraint) (n : Nat) :
    Prop :=
  ∀ m ∈ ms, toRegionVid m.memberRegion < n ∧ ∀ c ∈ m.choiceRegions, toRegionVid c < n

/-- An edge from a member region to the choice that was applied for it. -/
def ChoiceEdge (self : RegionInferenceContext) (r s : RegionVid) : Prop :=
  r < self.definitions.length ∧ ∃ x ∈ self.memberConstraintsApplied,
    x.memberRegionScc = self.constraintSccs.scc r ∧ x.minChoice = s

theorem edge_lt {r s : RegionVid} (h : self.Edge r s) :
    r < self.definitions.length ∧ s < self.definitions.length :=
  ⟨h.1, h.2.1⟩

/-- After propagation, the value of a region has what the regions that the
    constraints lead to contain on their own, and nothing but that and what they
    lead to once the applied choices count as constraints. -/
theorem propagateConstraints_regions (hready : self.Ready toRegionVid ms)
    (hfirst : Merge.FreeFirst (definitionOf self.definitions))
    (hms : MembersDeclared toRegionVid ms self.definitions.length)
    {livePoints : BitMatrix RegionVid} (hinit : self.Initial livePoints toRegionVid ms) :
    ∃ after, self.propagateConstraints = .ok after ∧
      Propagated self.constraintSccs.numSccs self after toRegionVid ms ∧
      (∀ x ∈ after.memberConstraintsApplied, self.AppliedBy toRegionVid ms x) ∧
      ∀ r < self.definitions.length, ∀ element,
        ((∃ s, ReflTransGen self.Edge r s ∧ self.Own livePoints s element) →
          after.sccValues.Contains (self.constraintSccs.scc r) element) ∧
        (after.sccValues.Contains (self.constraintSccs.scc r) element →
          ∃ s, ReflTransGen (fun r s => self.Edge r s ∨ after.ChoiceEdge r s) r s ∧
            self.Own livePoints s element) := by
  obtain ⟨after, hrun, hpropagated, happlied, hlower⟩ :=
    propagateConstraints_spec hready hinit.applied
  have hof := hready.components
  have hedge : ∀ r s, self.Edge r s → r < self.definitions.length ∧ s < self.definitions.length :=
    fun r s h => edge_lt h
  have hsccs : after.constraintSccs = self.constraintSccs := by rw [hpropagated.frame]
  have hdefinitions : after.definitions = self.definitions := by rw [hpropagated.frame]
  refine ⟨after, hrun, hpropagated, happlied, fun r hr element => ⟨?_, fun he => ?_⟩⟩
  · rintro ⟨s, hpath, hown⟩
    have hs : s < self.definitions.length := by
      rcases ReflTransGen.cases_tail hpath with rfl | ⟨t, -, hstep⟩
      · exact hr
      · exact (edge_lt hstep).2
    exact hlower _ (hof.scc_lt r hr) _ (hof.reach_scc hedge hpath) element
      ((hinit.values _ element).mpr ⟨s, hs, rfl, hown⟩)
  · obtain ⟨b, hpath, hb⟩ := hpropagated.justified _ element he
    obtain ⟨s, hs, rfl, hown⟩ := (hinit.values b element).mp hb
    refine ⟨s, ?_, hown⟩
    -- regions of one component reach one another
    have hsame : ∀ u v, u < self.definitions.length → v < self.definitions.length →
        self.constraintSccs.scc u = self.constraintSccs.scc v →
        ReflTransGen (fun r s => self.Edge r s ∨ after.ChoiceEdge r s) u v := by
      intro u v hu hv huv
      exact ReflTransGen.mono (fun _ _ h => Or.inl h) _ _ ((hof.scc_eq u hu v hv).mp huv).1
    have hto : ∀ a, ReflTransGen (fun a b => self.constraintSccs.Successor a b ∨
          after.AppliedEdge a b) a (self.constraintSccs.scc s) →
        ∀ u < self.definitions.length, self.constraintSccs.scc u = a →
          ReflTransGen (fun r s => self.Edge r s ∨ after.ChoiceEdge r s) u s := by
      intro a ha
      induction ha using ReflTransGen.head_induction_on with
      | refl => exact fun u hu hscc => hsame u s hu hs hscc
      | @head a c hstep _ ih =>
        rintro u hu rfl
        rcases hstep with hstep | ⟨x, hx, hscc, hc⟩
        · obtain ⟨-, v, w, hvw, hv, hw⟩ :=
            (hof.mem_successors _ (hof.scc_lt u hu) c).mp hstep
          obtain ⟨hvlt, hwlt⟩ := hedge v w hvw
          exact ((hsame u v hu hvlt hv.symm).tail (.inl hvw)).trans (ih w hwlt hw)
        · obtain ⟨m, hm, -, ⟨choice, hchoice, hrep⟩, -⟩ := happlied x hx
          have hlt := (hms m (List.mem_of_getElem? hm)).2 choice hchoice
          have hchoiceLt : x.minChoice < self.definitions.length := by
            rw [← hrep]
            exact (hof.representative hfirst (hof.scc_lt _ hlt)).1
          refine .head (.inr ⟨by rw [hdefinitions]; exact hu, x, hx, ?_, rfl⟩)
            (ih x.minChoice hchoiceLt (by rw [← hsccs]; exact hc))
          rw [hsccs]
          exact hscc
    exact hto _ hpath r hr rfl

/-- Where no member constraint is reached, the value of a region is exactly what the
    regions that the constraints lead to contain on their own: the least solution of
    the constraints. -/
theorem propagateConstraints_least (hready : self.Ready toRegionVid ms)
    (hfirst : Merge.FreeFirst (definitionOf self.definitions))
    (hms : MembersDeclared toRegionVid ms self.definitions.length)
    {livePoints : BitMatrix RegionVid} (hinit : self.Initial livePoints toRegionVid ms) :
    ∃ after, self.propagateConstraints = .ok after ∧
      ∀ r < self.definitions.length,
        (∀ m ∈ ms, ¬ ReflTransGen self.Edge r (toRegionVid m.memberRegion)) →
        ∀ element, after.sccValues.Contains (self.constraintSccs.scc r) element ↔
          ∃ s, ReflTransGen self.Edge r s ∧ self.Own livePoints s element := by
  obtain ⟨after, hrun, hpropagated, happlied, hvalues⟩ :=
    propagateConstraints_regions hready hfirst hms hinit
  refine ⟨after, hrun, fun r hr hnone element => ⟨fun he => ?_, (hvalues r hr element).1⟩⟩
  obtain ⟨s, hpath, hown⟩ := (hvalues r hr element).2 he
  refine ⟨s, ?_, hown⟩
  have hsccs : after.constraintSccs = self.constraintSccs := by rw [hpropagated.frame]
  have hdefinitions : after.definitions = self.definitions := by rw [hpropagated.frame]
  clear hown he
  induction hpath with
  | refl => exact .refl
  | @tail u v _ hstep ih =>
    rcases hstep with hstep | ⟨hu, x, hx, hscc, -⟩
    · exact ih.tail hstep
    · -- a choice was applied only on the component of a member region
      obtain ⟨m, hm, hmember, -⟩ := happlied x hx
      have hmem := List.mem_of_getElem? hm
      rw [hdefinitions] at hu
      have hsame : self.constraintSccs.scc u = self.constraintSccs.scc
          (toRegionVid m.memberRegion) := by rw [hmember, hscc, hsccs]
      exact absurd (ih.trans ((hready.components.scc_eq u hu _ (hms m hmem).1).mp hsame).1)
        (hnone m hmem)

end RegionInferenceContext

end MutationTesting.Borrowck
