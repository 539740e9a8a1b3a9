/-
  MutationTesting.Borrowck.RegionSccs

  The strongly connected components of the region graph: how they are computed,
  the constraints that `add_outlives_static` adds for universes
  (`borrowck/src/constraints/mod.rs`), and the reverse graph with the universal
  regions of each component (`borrowck/src/region_infer/reverse_sccs.rs`).  The
  algorithm that finds the components is rustc's, a parameter; `Of` is what it
  documents of its result.
-/
import MutationTesting.Borrowck.RegionTracker
import MutationTesting.Borrowck.UniversalRegions
import MutationTesting.Rust.Chunks

namespace MutationTesting.Borrowck

open MutationTesting.Rust MutationTesting.Mir MutationTesting.Graph Relation

/-! ## Components -/

/-- `Sccs<RegionVid, ConstraintSccIndex, RegionTracker>`. -/
structure ConstraintSccs where
  numSccs : Nat
  scc : RegionVid → ConstraintSccIndex
  successors : ConstraintSccIndex → List ConstraintSccIndex
  annotationOf : ConstraintSccIndex → RegionTracker

/-- `all_sccs`, in dependency order. -/
def ConstraintSccs.allSccs (sccs : ConstraintSccs) : List ConstraintSccIndex :=
  List.range sccs.numSccs

/-- An edge of the component graph. -/
def ConstraintSccs.Successor (sccs : ConstraintSccs) (a b : ConstraintSccIndex) : Prop :=
  b ∈ sccs.successors a

/-- The components of a graph over the regions below `n`: the regions of a component
    reach one another, the successors of a component come before it, and its
    annotation merges those of its regions and of all that it reaches. -/
structure ConstraintSccs.Of (sccs : ConstraintSccs) (n : Nat)
    (edge : RegionVid → RegionVid → Prop) (definitions : RegionVid → RegionDefinition) :
    Prop where
  scc_lt : ∀ r < n, sccs.scc r < sccs.numSccs
  inhabited : ∀ a < sccs.numSccs, ∃ r < n, sccs.scc r = a
  scc_eq : ∀ r < n, ∀ s < n,
    sccs.scc r = sccs.scc s ↔ ReflTransGen edge r s ∧ ReflTransGen edge s r
  mem_successors : ∀ a < sccs.numSccs, ∀ b,
    b ∈ sccs.successors a ↔ a ≠ b ∧ ∃ r s, edge r s ∧ sccs.scc r = a ∧ sccs.scc s = b
  successor_lt : ∀ a < sccs.numSccs, ∀ b ∈ sccs.successors a, b < a
  merged : ∀ a < sccs.numSccs, ∃ merge : Merge,
    merge.annotationOf definitions = sccs.annotationOf a ∧
      (∀ r, r ∈ merge.members ↔ r < n ∧ sccs.scc r = a) ∧
      ∀ s, s ∈ merge.seen ↔ s < n ∧ ∃ r < n, sccs.scc r = a ∧ ReflTransGen edge r s

/-- `Sccs::new_with_annotation`: from the number of nodes, their successors and the
    annotation of each. -/
abbrev NewAnnotated :=
  Nat → (RegionVid → Res (List RegionVid)) → (RegionVid → RegionTracker) → ConstraintSccs

/-- `definitions[r]`, for a declared region. -/
def definitionOf (definitions : List RegionDefinition) (r : RegionVid) : RegionDefinition :=
  (definitions[r]?).getD ⟨.existential false, .ROOT, none⟩

/-- `compute_sccs`. -/
def OutlivesConstraintSet.computeSccs (newAnnotated : NewAnnotated)
    (set : OutlivesConstraintSet) (staticRegion : RegionVid)
    (definitions : List RegionDefinition) : Res ConstraintSccs := do
  let constraintGraph ← set.graph definitions.length
  return newAnnotated definitions.length
    (fun r => constraintGraph.outgoingRegions r set staticRegion)
    (fun r => .new r (definitionOf definitions r))

/-- The edges of the region graph: the constraints, and `'static` outlives every
    region. -/
def OutlivesConstraintSet.Edge (set : OutlivesConstraintSet) (staticRegion : RegionVid) (n : Nat)
    (sup sub : RegionVid) : Prop :=
  sup < n ∧ sub < n ∧ (set.Outlives sup sub ∨ sup = staticRegion)

/-- The graph that the components are computed of has the edges of the region
    graph. -/
theorem OutlivesConstraintSet.graph_edges {set : OutlivesConstraintSet} {n : Nat}
    (hset : set.Declared n) (staticRegion : RegionVid) :
    ∃ graph, set.graph n = .ok graph ∧ ∀ r < n, ∃ out,
      graph.outgoingRegions r set staticRegion = .ok out ∧
        ∀ s, s ∈ out ↔ set.Edge staticRegion n r s := by
  obtain ⟨graph, hgraph, hlinked⟩ := ConstraintGraph.new_linked .normal fun c hc => (hset c hc).1
  refine ⟨graph, hgraph, fun r hr => ?_⟩
  have hdirection : graph.direction = .normal := hlinked.direction_eq
  have hfirst : graph.firstConstraints.length = n := hlinked.first
  by_cases hstatic : r = staticRegion
  · have hn : graph.firstConstraints.length ≠ 0 := by
      rw [hfirst]
      exact Nat.ne_of_gt (Nat.zero_lt_of_lt hr)
    obtain ⟨edges, hedges, last, hyields, -⟩ := produces_static hn hdirection set staticRegion
    have hlen : ((List.range graph.firstConstraints.length).map (staticEdge staticRegion)).length ≤
        graph.firstConstraints.length + set.outlives.length := by simp
    refine ⟨List.range n, ?_, fun s => ?_⟩
    · rw [ConstraintGraph.outgoingRegions, hstatic, hedges, Res.ok_bind, hyields.collect_eq hlen,
        Res.ok_bind, hdirection, hfirst, List.map_map, Res.pure_eq]
      congr 1
      exact List.map_id _
    · rw [List.mem_range, Edge]
      exact ⟨fun hs => ⟨hr, hs, .inr hstatic⟩, fun h => h.2.1⟩
  · have hnot : ¬ (r = staticRegion ∧ ConstraintGraphDirection.normal.isNormal = true) :=
      fun h => hstatic h.1
    obtain ⟨edges, hedges, last, hyields, -⟩ := hlinked.produces hr hnot
    have hlen := (List.length_filter_le
      (fun c => decide (ConstraintGraphDirection.normal.startRegion c = r)) set.outlives).trans
      (Nat.le_add_left _ graph.firstConstraints.length)
    refine ⟨(set.outlives.filter fun c =>
      ConstraintGraphDirection.normal.startRegion c = r).map
        ConstraintGraphDirection.normal.endRegion, ?_, fun s => ?_⟩
    · rw [ConstraintGraph.outgoingRegions, hedges, Res.ok_bind, hyields.collect_eq hlen,
        Res.ok_bind, hdirection, Res.pure_eq]
    · simp only [List.mem_map, List.mem_filter, Edge, Outlives,
        ConstraintGraphDirection.startRegion, ConstraintGraphDirection.endRegion]
      constructor
      · rintro ⟨c, ⟨hc, hsup⟩, rfl⟩
        exact ⟨hr, (hset c hc).2, .inl ⟨c, hc, of_decide_eq_true hsup, rfl⟩⟩
      · rintro ⟨-, -, ⟨c, hc, hsup, hsub⟩ | hsup⟩
        · exact ⟨c, ⟨hc, decide_eq_true hsup⟩, hsub⟩
        · exact absurd hsup hstatic

section Components

variable {sccs : ConstraintSccs} {n : Nat} {edge : RegionVid → RegionVid → Prop}
  {definitions : RegionVid → RegionDefinition}

/-- A path between regions is one between their components. -/
theorem ConstraintSccs.Of.reach_scc (h : sccs.Of n edge definitions)
    (hedge : ∀ r s, edge r s → r < n ∧ s < n) {r s : RegionVid}
    (hpath : ReflTransGen edge r s) :
    ReflTransGen sccs.Successor (sccs.scc r) (sccs.scc s) := by
  induction hpath with
  | refl => exact .refl
  | @tail s t _ hstep ih =>
    obtain ⟨hs, ht⟩ := hedge _ _ hstep
    by_cases hsame : sccs.scc s = sccs.scc t
    · rwa [← hsame]
    · exact ih.tail ((h.mem_successors _ (h.scc_lt s hs) _).mpr ⟨hsame, s, t, hstep, rfl, rfl⟩)

/-- The representative of a component is one of its regions. -/
theorem ConstraintSccs.Of.representative (h : sccs.Of n edge definitions)
    (hfirst : Merge.FreeFirst definitions) {a : ConstraintSccIndex} (ha : a < sccs.numSccs) :
    (sccs.annotationOf a).representative < n ∧
      sccs.scc (sccs.annotationOf a).representative = a ∧
      ∀ r < n, sccs.scc r = a →
        Merge.preference definitions (sccs.annotationOf a).representative ≤
          Merge.preference definitions r := by
  obtain ⟨merge, hmerge, hmembers, -⟩ := h.merged a ha
  obtain ⟨-, hmem, hmin⟩ := Merge.annotationOf_representative hfirst merge
  rw [hmerge] at hmem hmin
  obtain ⟨hlt, hscc⟩ := (hmembers _).mp hmem
  exact ⟨hlt, hscc, fun r hr hra => hmin r ((hmembers r).mpr ⟨hr, hra⟩)⟩

/-- The universes of a component are incompatible if its regions reach a
    placeholder that some region they reach cannot name. -/
theorem ConstraintSccs.Of.incompatible (h : sccs.Of n edge definitions)
    (hfirst : Merge.FreeFirst definitions) (hedge : ∀ r s, edge r s → r < n ∧ s < n)
    {r : RegionVid} (hr : r < n) :
    (sccs.annotationOf (sccs.scc r)).hasIncompatibleUniverses = true ↔
      ∃ u p, ReflTransGen edge r u ∧ ReflTransGen edge r p ∧
        (definitions u).universe < Merge.placeholderUniverse definitions p := by
  obtain ⟨merge, hmerge, -, hseen⟩ := h.merged _ (h.scc_lt r hr)
  have hlt : ∀ s, ReflTransGen edge r s → s < n := by
    intro s hs
    induction hs with
    | refl => exact hr
    | tail _ hstep _ => exact (hedge _ _ hstep).2
  have hreach : ∀ s, s ∈ merge.seen ↔ ReflTransGen edge r s := by
    intro s
    rw [hseen]
    constructor
    · rintro ⟨-, t, ht, hscc, hpath⟩
      exact ((h.scc_eq r hr t ht).mp hscc.symm).1.trans hpath
    · exact fun hpath => ⟨hlt s hpath, r, hr, rfl, hpath⟩
  rw [← hmerge, Merge.hasIncompatibleUniverses_annotationOf hfirst]
  constructor
  · rintro ⟨u, hu, p, hp, hlt⟩
    exact ⟨u, p, (hreach u).mp hu, (hreach p).mp hp, hlt⟩
  · rintro ⟨u, p, hu, hp, hlt⟩
    exact ⟨u, (hreach u).mpr hu, p, (hreach p).mpr hp, hlt⟩

end Components

/-! ## Universes -/

/-- One round of the loop of `add_outlives_static`: whether a constraint was added so
    far, and the constraints. -/
def addForScc (sccs : ConstraintSccs) (frStatic : RegionVid)
    (state : Bool × OutlivesConstraintSet) (scc : ConstraintSccIndex) :
    Bool × OutlivesConstraintSet :=
  if scc = sccs.scc frStatic then state
  else if (sccs.annotationOf scc).hasIncompatibleUniverses then
    (true, state.2.push {
      sup := (sccs.annotationOf scc).representative
      sub := frStatic
      category := .illegalUniverse
      locations := .all dummySpan
      span := dummySpan
      varianceInfo := defaultVarianceInfo
      fromClosure := false })
  else state

/-- `add_outlives_static`. -/
def OutlivesConstraintSet.addOutlivesStatic (newAnnotated : NewAnnotated)
    (set : OutlivesConstraintSet) (frStatic : RegionVid) (definitions : List RegionDefinition) :
    Res (ConstraintSccs × OutlivesConstraintSet) := do
  let sccs ← set.computeSccs newAnnotated frStatic definitions
  let (addedConstraints, set) := sccs.allSccs.foldl (addForScc sccs frStatic) (false, set)
  if addedConstraints then
    let sccs ← set.computeSccs newAnnotated frStatic definitions
    return (sccs, set)
  else return (sccs, set)

/-- A region is forced out of its universe if it reaches a placeholder that some
    region it reaches cannot name. -/
def OutlivesConstraintSet.IllegalUniverse (set : OutlivesConstraintSet) (frStatic : RegionVid)
    (definitions : List RegionDefinition) (r : RegionVid) : Prop :=
  ∃ u p, ReflTransGen (set.Edge frStatic definitions.length) r u ∧
    ReflTransGen (set.Edge frStatic definitions.length) r p ∧
    (definitionOf definitions u).universe <
      Merge.placeholderUniverse (definitionOf definitions) p

section AddOutlivesStatic

variable {sccs : ConstraintSccs} {set : OutlivesConstraintSet} {frStatic : RegionVid}
  {definitions : List RegionDefinition}

/-- The components that `add_outlives_static` adds a constraint for. -/
def Flagged (sccs : ConstraintSccs) (frStatic : RegionVid) (a : ConstraintSccIndex) : Prop :=
  a ≠ sccs.scc frStatic ∧ (sccs.annotationOf a).hasIncompatibleUniverses = true

/-- The loop adds a constraint from the representative of each flagged component,
    and reports whether there is one. -/
theorem foldl_addForScc {as : List ConstraintSccIndex}
    (hrep : ∀ a ∈ as, Flagged sccs frStatic a →
      (sccs.annotationOf a).representative ≠ frStatic)
    (flag : Bool) (set : OutlivesConstraintSet) :
    (∀ sup sub, (as.foldl (addForScc sccs frStatic) (flag, set)).2.Outlives sup sub ↔
      set.Outlives sup sub ∨ ∃ a ∈ as, Flagged sccs frStatic a ∧
        (sccs.annotationOf a).representative = sup ∧ frStatic = sub) ∧
      ((as.foldl (addForScc sccs frStatic) (flag, set)).1 = true ↔
        flag = true ∨ ∃ a ∈ as, Flagged sccs frStatic a) ∧
      ((∀ a ∈ as, ¬ Flagged sccs frStatic a) →
        (as.foldl (addForScc sccs frStatic) (flag, set)).2 = set) := by
  induction as generalizing flag set with
  | nil => simp
  | cons a as ih =>
    rw [List.foldl_cons]
    have ih := ih fun b hb => hrep b (List.mem_cons_of_mem _ hb)
    by_cases hflagged : Flagged sccs frStatic a
    · have hstep : addForScc sccs frStatic (flag, set) a = (true, set.push {
          sup := (sccs.annotationOf a).representative
          sub := frStatic
          category := .illegalUniverse
          locations := .all dummySpan
          span := dummySpan
          varianceInfo := defaultVarianceInfo
          fromClosure := false }) := by
        rw [addForScc, if_neg hflagged.1, if_pos hflagged.2]
      rw [hstep]
      obtain ⟨houtlives, hflag, -⟩ := ih true (set.push _)
      refine ⟨fun sup sub => ?_, ?_, fun hnone => absurd hflagged (hnone a List.mem_cons_self)⟩
      · rw [houtlives]
        simp only [List.mem_cons, hflagged, true_and, OutlivesConstraintSet.push,
          dif_neg (hrep a List.mem_cons_self hflagged), OutlivesConstraintSet.Outlives,
          List.mem_append, List.not_mem_nil, or_false, or_and_right, exists_or, exists_eq_left,
          or_assoc]
      · rw [hflag]
        simp [hflagged]
    · have hstep : addForScc sccs frStatic (flag, set) a = (flag, set) := by
        unfold Flagged at hflagged
        unfold addForScc
        by_cases hstatic : a = sccs.scc frStatic
        · rw [if_pos hstatic]
        · rw [if_neg hstatic, if_neg fun h => hflagged ⟨hstatic, h⟩]
      rw [hstep]
      obtain ⟨houtlives, hflag, hnone⟩ := ih flag set
      refine ⟨fun sup sub => ?_, ?_, fun h => hnone fun b hb => h b (List.mem_cons_of_mem _ hb)⟩
      · rw [houtlives]
        simp [hflagged]
      · rw [hflag]
        simp [hflagged]

/-- Of the components of the constraints so far, `add_outlives_static` makes exactly
    the regions outlive `'static` that reach a placeholder which some region they
    reach cannot name, and the components that it returns are computed again. -/
theorem addOutlivesStatic_spec {newAnnotated : NewAnnotated}
    (hset : set.Declared definitions.length) (hstatic : frStatic < definitions.length)
    (hfirst : Merge.FreeFirst (definitionOf definitions))
    (hsccs : set.computeSccs newAnnotated frStatic definitions = .ok sccs)
    (hof : sccs.Of definitions.length (set.Edge frStatic definitions.length)
      (definitionOf definitions)) :
    ∃ sccs' set', set.addOutlivesStatic newAnnotated frStatic definitions =
        .ok (sccs', set') ∧
      set'.computeSccs newAnnotated frStatic definitions = .ok sccs' ∧
      set'.Declared definitions.length ∧
      ∀ r s, ReflTransGen (set'.Edge frStatic definitions.length) r s ↔
        ReflTransGen (fun sup sub => set.Edge frStatic definitions.length sup sub ∨
          sup < definitions.length ∧ set.IllegalUniverse frStatic definitions sup ∧
            sub = frStatic) r s := by
  have hedge : ∀ r s, set.Edge frStatic definitions.length r s →
      r < definitions.length ∧ s < definitions.length := fun r s h => ⟨h.1, h.2.1⟩
  have hrep : ∀ a ∈ sccs.allSccs, Flagged sccs frStatic a →
      (sccs.annotationOf a).representative ≠ frStatic := by
    intro a ha hflagged heq
    have hscc := (hof.representative hfirst (List.mem_range.mp ha)).2.1
    rw [heq] at hscc
    exact hflagged.1 hscc.symm
  obtain ⟨houtlives, hflag, hnone⟩ := foldl_addForScc hrep false set
  obtain ⟨flag, set', hresult⟩ : ∃ flag set',
      sccs.allSccs.foldl (addForScc sccs frStatic) (false, set) = (flag, set') := ⟨_, _, rfl⟩
  rw [hresult] at houtlives hflag hnone
  -- a new constraint is one of a region that is forced out of its universe
  have hnew : ∀ sup sub, set'.Outlives sup sub ↔ set.Outlives sup sub ∨
      ∃ a ∈ sccs.allSccs, Flagged sccs frStatic a ∧
        (sccs.annotationOf a).representative = sup ∧ frStatic = sub := houtlives
  have hset' : set'.Declared definitions.length := by
    intro c hc
    rcases (hnew c.sup c.sub).mp ⟨c, hc, rfl, rfl⟩ with ⟨d, hd, hsup, hsub⟩ | ⟨a, ha, -, hsup, hsub⟩
    · rw [← hsup, ← hsub]
      exact hset d hd
    · rw [← hsup, ← hsub]
      exact ⟨(hof.representative hfirst (List.mem_range.mp ha)).1, hstatic⟩
  obtain ⟨sccs', hcompute, hadd⟩ : ∃ sccs',
      set'.computeSccs newAnnotated frStatic definitions = .ok sccs' ∧
      set.addOutlivesStatic newAnnotated frStatic definitions = .ok (sccs', set') := by
    cases flag with
    | true =>
      obtain ⟨graph, hgraph, -⟩ := set'.graph_edges hset' frStatic
      have hcompute : set'.computeSccs newAnnotated frStatic definitions =
          .ok (newAnnotated definitions.length
            (fun r => graph.outgoingRegions r set' frStatic)
            fun r => .new r (definitionOf definitions r)) := by
        rw [OutlivesConstraintSet.computeSccs, hgraph]
        rfl
      refine ⟨_, hcompute, ?_⟩
      rw [OutlivesConstraintSet.addOutlivesStatic, hsccs, Res.ok_bind, hresult]
      simp only [if_true, hcompute, Res.ok_bind, Res.pure_eq]
    | false =>
      have hsame : set' = set := hnone fun a ha hflagged => by
        have htrue := hflag.mpr (.inr ⟨a, ha, hflagged⟩)
        cases htrue
      refine ⟨sccs, by rw [hsame]; exact hsccs, ?_⟩
      rw [OutlivesConstraintSet.addOutlivesStatic, hsccs, Res.ok_bind, hresult]
      rfl
  refine ⟨sccs', set', hadd, hcompute, hset', fun r s => ⟨fun hpath => ?_, fun hpath => ?_⟩⟩
  · refine ReflTransGen.mono (fun sup sub h => ?_) _ _ hpath
    obtain ⟨hsup, hsub, houtlives | hsup'⟩ := h
    · rcases (hnew sup sub).mp houtlives with hold | ⟨a, ha, hflagged, rfl, rfl⟩
      · exact .inl ⟨hsup, hsub, .inl hold⟩
      · have hscc := (hof.representative hfirst (List.mem_range.mp ha)).2.1
        refine .inr ⟨hsup, (hof.incompatible hfirst hedge hsup).mp ?_, rfl⟩
        rw [hscc]
        exact hflagged.2
    · exact .inl ⟨hsup, hsub, .inr hsup'⟩
  · -- the constraints so far are kept
    have hmono : ∀ sup sub, ReflTransGen (set.Edge frStatic definitions.length) sup sub →
        ReflTransGen (set'.Edge frStatic definitions.length) sup sub :=
      fun sup sub => ReflTransGen.mono (fun _ _ h => ⟨h.1, h.2.1, h.2.2.imp_left fun hold =>
        (hnew _ _).mpr (.inl hold)⟩) sup sub
    induction hpath with
    | refl => exact .refl
    | @tail sup sub _ hstep ih =>
      refine ih.trans ?_
      rcases hstep with hold | ⟨hsup, hillegal, rfl⟩
      · exact hmono _ _ (.single hold)
      · by_cases hsame : sccs.scc sup = sccs.scc sub
        · exact hmono _ _ ((hof.scc_eq sup hsup sub hstatic).mp hsame).1
        · have hlt := hof.scc_lt sup hsup
          obtain ⟨hrepLt, hrepScc, -⟩ := hof.representative hfirst hlt
          have hflagged : Flagged sccs sub (sccs.scc sup) :=
            ⟨hsame, (hof.incompatible hfirst hedge hsup).mpr hillegal⟩
          have hto := ((hof.scc_eq sup hsup _ hrepLt).mp hrepScc.symm).1
          exact (hmono _ _ hto).tail ⟨hrepLt, hstatic, .inl ((hnew _ _).mpr
            (.inr ⟨_, List.mem_range.mpr hlt, hflagged, rfl, rfl⟩))⟩

/-- Once the constraints for universes are added, a region that reaches a placeholder
    which some region it reaches cannot name outlives `'static`. -/
theorem reach_static_of_illegalUniverse {set' : OutlivesConstraintSet}
    (hstatic : frStatic < definitions.length)
    (hreach : ∀ r s, ReflTransGen (set'.Edge frStatic definitions.length) r s ↔
      ReflTransGen (fun sup sub => set.Edge frStatic definitions.length sup sub ∨
        sup < definitions.length ∧ set.IllegalUniverse frStatic definitions sup ∧
          sub = frStatic) r s)
    {r : RegionVid} (hr : r < definitions.length)
    (hillegal : set'.IllegalUniverse frStatic definitions r) :
    ReflTransGen (set'.Edge frStatic definitions.length) r frStatic := by
  obtain ⟨u, p, hu, hp, hlt⟩ := hillegal
  -- a path with a constraint that was added leads through `'static`
  have hsplit : ∀ s, ReflTransGen (set'.Edge frStatic definitions.length) r s →
      ReflTransGen (set.Edge frStatic definitions.length) r s ∨
        ReflTransGen (set'.Edge frStatic definitions.length) r frStatic := by
    intro s hs
    have hpath := (hreach r s).mp hs
    clear hs
    induction hpath with
    | refl => exact .inl .refl
    | @tail s t hpath hstep ih =>
      rcases ih with ih | ih
      · rcases hstep with hstep | ⟨-, hbad, rfl⟩
        · exact .inl (ih.tail hstep)
        · have hs : s < definitions.length := by
            rcases ReflTransGen.cases_tail ih with rfl | ⟨v, -, hv⟩
            · exact hr
            · exact hv.2.1
          exact .inr ((hreach r _).mpr (hpath.tail (.inr ⟨hs, hbad, rfl⟩)))
      · exact .inr ih
  rcases hsplit u hu with hu | h
  · rcases hsplit p hp with hp | h
    · exact (hreach r frStatic).mpr (.single (.inr ⟨hr, ⟨u, p, hu, hp, hlt⟩, rfl⟩))
    · exact h
  · exact h

/-- The constraints that are added settle what is asked of universes: they keep what the
    others force, and every region that now reaches a placeholder which some region it
    reaches cannot name outlives `'static`. -/
theorem addOutlivesStatic_settles {newAnnotated : NewAnnotated}
    (hset : set.Declared definitions.length) (hstatic : frStatic < definitions.length)
    (hfirst : Merge.FreeFirst (definitionOf definitions))
    (hsccs : set.computeSccs newAnnotated frStatic definitions = .ok sccs)
    (hof : sccs.Of definitions.length (set.Edge frStatic definitions.length)
      (definitionOf definitions)) :
    ∃ sccs' set', set.addOutlivesStatic newAnnotated frStatic definitions =
        .ok (sccs', set') ∧
      (∀ r s, ReflTransGen (set.Edge frStatic definitions.length) r s →
        ReflTransGen (set'.Edge frStatic definitions.length) r s) ∧
      ∀ r < definitions.length, set'.IllegalUniverse frStatic definitions r →
        ReflTransGen (set'.Edge frStatic definitions.length) r frStatic := by
  obtain ⟨sccs', set', hadd, -, -, hreach⟩ :=
    addOutlivesStatic_spec hset hstatic hfirst hsccs hof
  refine ⟨sccs', set', hadd, fun r s hpath => ?_, fun r hr => ?_⟩
  · exact (hreach r s).mpr (ReflTransGen.mono (fun _ _ => Or.inl) r s hpath)
  · exact reach_static_of_illegalUniverse hstatic hreach hr

end AddOutlivesStatic

/-! ## The reverse graph -/

structure ReverseSccGraph where
  numSccs : Nat
  graph : ConstraintSccIndex → List ConstraintSccIndex
  sccRegions : IndexMap ConstraintSccIndex (Nat × Nat)
  universalRegions : List RegionVid

/-- `Sccs::reverse`. -/
def ConstraintSccs.reverse (sccs : ConstraintSccs) (b : ConstraintSccIndex) :
    List ConstraintSccIndex :=
  sccs.allSccs.filter fun a => b ∈ sccs.successors a

/-- The universal regions with their components, sorted. -/
def pairedSccRegions (sccs : ConstraintSccs) (universalRegions : UniversalRegions) :
    List (ConstraintSccIndex × RegionVid) :=
  (universalRegions.universalRegionsIter.map fun region => (sccs.scc region, region)).mergeSort
    fun p q => decide (toLex p ≤ toLex q)

/-- What `compute_reverse_scc_graph` computes. -/
def reverseSccGraph (sccs : ConstraintSccs) (universalRegions : UniversalRegions) :
    Res ReverseSccGraph := do
  let paired := pairedSccRegions sccs universalRegions
  let sccRegions ← Chunks.rangesOf Prod.fst paired
  return {
    numSccs := sccs.numSccs
    graph := sccs.reverse
    sccRegions
    universalRegions := paired.map Prod.snd }

/-- `upper_bounds`, with a depth-first search of at most one round for each
    component. -/
def ReverseSccGraph.upperBounds (self : ReverseSccGraph) (scc0 : ConstraintSccIndex) :
    Res (List RegionVid) := do
  let reached ← search self.graph self.numSccs (Frontier.empty.pushAll [scc0])
  return (reached.flatMap (Chunks.slice self.sccRegions self.universalRegions)).eraseDups

/-- The range of a component holds its universal regions. -/
theorem mem_slice_reverseSccGraph (sccs : ConstraintSccs) (universalRegions : UniversalRegions) :
    ∃ sccRegions, reverseSccGraph sccs universalRegions = .ok {
        numSccs := sccs.numSccs
        graph := sccs.reverse
        sccRegions
        universalRegions := (pairedSccRegions sccs universalRegions).map Prod.snd } ∧
      ∀ a r, r ∈ Chunks.slice sccRegions
          ((pairedSccRegions sccs universalRegions).map Prod.snd) a ↔
        universalRegions.isUniversalRegion r = true ∧ sccs.scc r = a := by
  have hsorted : (pairedSccRegions sccs universalRegions).Pairwise fun p q => p.1 ≤ q.1 := by
    refine (List.pairwise_mergeSort ?_ ?_ _).imp fun h => ?_
    · intro p q r hpq hqr
      rw [decide_eq_true_eq] at *
      exact hpq.trans hqr
    · intro p q
      rw [Bool.or_eq_true, decide_eq_true_eq, decide_eq_true_eq]
      exact le_total (toLex p) (toLex q)
    · exact (Prod.Lex.toLex_le_toLex.mp (of_decide_eq_true h)).elim le_of_lt fun h => h.1.le
  obtain ⟨sccRegions, hranges, hslices⟩ := Chunks.rangesOf_spec hsorted
  refine ⟨sccRegions, ?_, fun a r => ?_⟩
  · rw [reverseSccGraph, hranges]
    rfl
  · rw [Chunks.slice_map, hslices, List.mem_map]
    simp only [List.mem_filter, decide_eq_true_eq, pairedSccRegions, List.mem_mergeSort,
      List.mem_map, UniversalRegions.universalRegionsIter, List.mem_range,
      UniversalRegions.isUniversalRegion]
    constructor
    · rintro ⟨_, ⟨⟨r, hr, rfl⟩, rfl⟩, rfl⟩
      exact ⟨hr, rfl⟩
    · rintro ⟨hr, rfl⟩
      exact ⟨_, ⟨⟨r, hr, rfl⟩, rfl⟩, rfl⟩

/-- The upper bounds of a component are exactly the universal regions that the
    constraints force to outlive it. -/
theorem mem_upperBounds {sccs : ConstraintSccs} {universalRegions : UniversalRegions} {n : Nat}
    {edge : RegionVid → RegionVid → Prop} {definitions : RegionVid → RegionDefinition}
    (hof : sccs.Of n edge definitions) (huniversals : universalRegions.numUniversals ≤ n)
    {scc0 : ConstraintSccIndex} (hscc0 : scc0 < sccs.numSccs) :
    ∃ reverse bounds, reverseSccGraph sccs universalRegions = .ok reverse ∧
      reverse.upperBounds scc0 = .ok bounds ∧
      ∀ r, r ∈ bounds ↔ universalRegions.isUniversalRegion r = true ∧
        ReflTransGen sccs.Successor (sccs.scc r) scc0 := by
  obtain ⟨sccRegions, hreverse, hslices⟩ := mem_slice_reverseSccGraph sccs universalRegions
  have hsucc : ∀ a ∈ Finset.range sccs.numSccs, ∀ b ∈ sccs.reverse a,
      b ∈ Finset.range sccs.numSccs := fun _ _ b hb =>
    Finset.mem_range.mpr (List.mem_range.mp (List.mem_filter.mp hb).1)
  obtain ⟨hinv, hstack, hvisited⟩ := @Frontier.searching_roots _ _ sccs.reverse [scc0]
  obtain ⟨reached, hsearch⟩ : ∃ reached,
      search sccs.reverse sccs.numSccs (Frontier.empty.pushAll [scc0]) = .ok reached := by
    rw [Frontier.pushAll_empty (List.nodup_singleton scc0)]
    refine search_isOk hsucc ?_ ?_ ?_
    · intro a ha
      rw [List.toFinset_cons, List.toFinset_nil, insert_empty_eq, Finset.mem_singleton] at ha
      exact Finset.mem_range.mpr (ha ▸ hscc0)
    · intro a ha
      exact Finset.mem_range.mpr (List.mem_singleton.mp ha ▸ hscc0)
    · simp only [List.length_singleton, List.toFinset_cons, List.toFinset_nil, insert_empty_eq,
        Finset.card_singleton, Finset.card_range]
      exact (Nat.add_sub_of_le (Nat.one_le_of_lt hscc0)).le
  refine ⟨_, (reached.flatMap (Chunks.slice sccRegions
    ((pairedSccRegions sccs universalRegions).map Prod.snd))).eraseDups, hreverse, ?_, ?_⟩
  · rw [ReverseSccGraph.upperBounds, hsearch]
    rfl
  · intro r
    rw [List.mem_eraseDups, List.mem_flatMap]
    -- the reverse graph leads from a component to those that reach it
    have hpath : ∀ a, a < sccs.numSccs → (ReflTransGen (Graph.Step sccs.reverse) scc0 a ↔
        ReflTransGen sccs.Successor a scc0) := by
      intro a ha
      rw [← reflTransGen_swap]
      constructor
      · refine fun h => ReflTransGen.mono (fun b c hstep => ?_) _ _ h
        have hmem : b ∈ sccs.reverse c := hstep
        have hsuccessor : c ∈ sccs.successors b := of_decide_eq_true (List.mem_filter.mp hmem).2
        exact hsuccessor
      · intro h
        induction h using ReflTransGen.head_induction_on with
        | refl => exact .refl
        | @head b c hstep hrest ih =>
          have hmem : b ∈ sccs.reverse c :=
            List.mem_filter.mpr ⟨List.mem_range.mpr ha, decide_eq_true hstep⟩
          exact .head hmem (ih ((hof.successor_lt b ha c hstep).trans ha))
    constructor
    · rintro ⟨a, ha, hr⟩
      obtain ⟨huniversal, rfl⟩ := (hslices a r).mp hr
      obtain ⟨root, hroot, hreach⟩ := (mem_search hsearch _).mp ha
      rw [List.mem_singleton.mp hroot] at hreach
      have hlt : r < n := (of_decide_eq_true huniversal).trans_le huniversals
      exact ⟨huniversal, (hpath _ (hof.scc_lt r hlt)).mp hreach⟩
    · rintro ⟨huniversal, hreach⟩
      have hlt : r < n := (of_decide_eq_true huniversal).trans_le huniversals
      exact ⟨sccs.scc r, (mem_search hsearch _).mpr ⟨scc0, List.mem_singleton.mpr rfl,
        (hpath _ (hof.scc_lt r hlt)).mpr hreach⟩, (hslices _ r).mpr ⟨huniversal, rfl⟩⟩

/-! ## A region graph -/

section Lending

/-- The component of each region. -/
def lendingScc : RegionVid → ConstraintSccIndex
  | 0 => 2
  | 1 => 0
  | _ => 1

/-- Its components are the single regions. -/
def lendingSccs (definitions : RegionVid → RegionDefinition) : ConstraintSccs where
  numSccs := 3
  scc := lendingScc
  successors
    | 1 => [0]
    | 2 => [0, 1]
    | _ => []
  annotationOf
    | 0 => (Merge.region 1).annotationOf definitions
    | 1 => ((Merge.region 2).reached (.region 1)).annotationOf definitions
    | _ => (((Merge.region 0).reached (.region 1)).reached (.region 2)).annotationOf
      definitions

theorem lendingConstraints_edge {r s : RegionVid} :
    lendingConstraints.Edge 0 3 r s ↔ s < 3 ∧ (r = 0 ∨ r = 2 ∧ s = 1) := by
  rw [OutlivesConstraintSet.Edge, outlives_lending]
  constructor
  · rintro ⟨-, hs, h | rfl⟩
    · exact ⟨hs, .inr h⟩
    · exact ⟨hs, .inl rfl⟩
  · rintro ⟨hs, rfl | ⟨rfl, rfl⟩⟩
    · exact ⟨by decide, hs, .inr rfl⟩
    · exact ⟨by decide, hs, .inl ⟨rfl, rfl⟩⟩

theorem lendingConstraints_reach {r s : RegionVid} :
    ReflTransGen (lendingConstraints.Edge 0 3) r s ↔ r = s ∨ s < 3 ∧ (r = 0 ∨ r = 2 ∧ s = 1) := by
  constructor
  · intro h
    induction h using ReflTransGen.head_induction_on with
    | refl => exact .inl rfl
    | @head r t hstep hrest ih =>
      obtain ⟨ht, rfl | ⟨rfl, rfl⟩⟩ := lendingConstraints_edge.mp hstep
      · rcases ih with rfl | ⟨hs, -⟩
        · exact .inr ⟨ht, .inl rfl⟩
        · exact .inr ⟨hs, .inl rfl⟩
      · rcases ih with rfl | ⟨-, h | ⟨h, -⟩⟩
        · exact .inr ⟨ht, .inr ⟨rfl, rfl⟩⟩
        · cases h
        · cases h
  · rintro (rfl | h)
    · exact .refl
    · exact .single (lendingConstraints_edge.mpr h)

theorem lendingSccs_of (definitions : RegionVid → RegionDefinition) :
    (lendingSccs definitions).Of 3 (lendingConstraints.Edge 0 3) definitions where
  scc_lt r hr := by
    match r with
    | 0 => exact Nat.lt_succ_self 2
    | 1 => exact Nat.succ_pos 2
    | _ + 2 => exact Nat.lt_of_sub_eq_succ rfl
  inhabited a ha := by
    match a with
    | 0 => exact ⟨1, by decide, rfl⟩
    | 1 => exact ⟨2, by decide, rfl⟩
    | 2 => exact ⟨0, by decide, rfl⟩
  scc_eq r hr s hs := by
    rw [lendingConstraints_reach, lendingConstraints_reach]
    match r, s with
    | 0, 0 => simp
    | 0, 1 => simp [lendingSccs, lendingScc]
    | 0, 2 => simp [lendingSccs, lendingScc]
    | 1, 0 => simp [lendingSccs, lendingScc]
    | 1, 1 => simp
    | 1, 2 => simp [lendingSccs, lendingScc]
    | 2, 0 => simp [lendingSccs, lendingScc]
    | 2, 1 => simp [lendingSccs, lendingScc]
    | 2, 2 => simp
  mem_successors a ha b := by
    simp only [lendingConstraints_edge]
    constructor
    · intro hb
      match a with
      | 0 => exact absurd hb List.not_mem_nil
      | 1 =>
        rw [List.mem_singleton.mp hb]
        exact ⟨by decide, 2, 1, ⟨by decide, .inr ⟨rfl, rfl⟩⟩, rfl, rfl⟩
      | 2 =>
        rcases List.mem_cons.mp hb with rfl | hb
        · exact ⟨by decide, 0, 1, ⟨by decide, .inl rfl⟩, rfl, rfl⟩
        · rw [List.mem_singleton.mp hb]
          exact ⟨by decide, 0, 2, ⟨by decide, .inl rfl⟩, rfl, rfl⟩
    · rintro ⟨hne, r, s, ⟨hs, rfl | ⟨rfl, rfl⟩⟩, rfl, rfl⟩
      · match s with
        | 0 => exact absurd rfl hne
        | 1 => exact List.mem_cons_self
        | 2 => exact List.mem_cons_of_mem _ List.mem_cons_self
      · exact List.mem_cons_self
  successor_lt a ha b hb := by
    match a with
    | 0 => exact absurd hb List.not_mem_nil
    | 1 =>
      rw [List.mem_singleton.mp hb]
      exact Nat.one_pos
    | 2 =>
      rcases List.mem_cons.mp hb with rfl | hb
      · exact Nat.two_pos
      · rw [List.mem_singleton.mp hb]
        exact Nat.lt_succ_self 1
  merged a ha := by
    have hscc : (lendingSccs definitions).scc = lendingScc := rfl
    simp only [lendingConstraints_reach, hscc]
    -- the regions below 3 are checked one by one
    have hbelow : ∀ (p q : RegionVid → Prop), (∀ r, p r → r < 3) → (∀ r, q r → r < 3) →
        (p 0 ↔ q 0) → (p 1 ↔ q 1) → (p 2 ↔ q 2) → ∀ r, p r ↔ q r := by
      intro p q hp hq h0 h1 h2 r
      match r with
      | 0 => exact h0
      | 1 => exact h1
      | 2 => exact h2
      | r + 3 => exact ⟨fun h => absurd (hp _ h) (by simp), fun h => absurd (hq _ h) (by simp)⟩
    match a with
    | 0 =>
      refine ⟨.region 1, rfl,
        hbelow _ _ (by simp [Merge.members]) (fun r h => h.1) ?_ ?_ ?_,
        hbelow _ _ (by simp [Merge.seen]) (fun r h => h.1) ?_ ?_ ?_⟩
      all_goals decide
    | 1 =>
      refine ⟨(Merge.region 2).reached (.region 1), rfl,
        hbelow _ _ (by simp [Merge.members]) (fun r h => h.1) ?_ ?_ ?_,
        hbelow _ _ (by simp [Merge.seen]) (fun r h => h.1) ?_ ?_ ?_⟩
      all_goals decide
    | 2 =>
      refine ⟨((Merge.region 0).reached (.region 1)).reached (.region 2), rfl,
        hbelow _ _ (by simp [Merge.members]) (fun r h => h.1) ?_ ?_ ?_,
        hbelow _ _ (by simp [Merge.seen]) (fun r h => h.1) ?_ ?_ ?_⟩
      all_goals decide

/-- The lifetime parameter made a placeholder that the region of the borrow cannot
    name. -/
def boundDefinitions : List RegionDefinition :=
  [⟨.freeRegion, .ROOT, none⟩, ⟨.placeholder ⟨1, 0⟩, 1, none⟩, ⟨.existential false, .ROOT, none⟩]

theorem freeFirst_bound : Merge.FreeFirst (definitionOf boundDefinitions) := by
  intro r s hr hs
  match r, s with
  | 0, 0 => exact absurd rfl hs
  | 0, s + 1 => exact Nat.succ_pos _
  | 1, _ => cases hr
  | 2, _ => cases hr
  | r + 3, _ => cases hr

/-- The components once the region of the borrow outlives `'static`. -/
def boundSccs : ConstraintSccs where
  numSccs := 2
  scc
    | 1 => 0
    | _ => 1
  successors
    | 1 => [0]
    | _ => []
  annotationOf
    | 0 => (Merge.region 1).annotationOf (definitionOf boundDefinitions)
    | _ => (((Merge.region 0).scc (.region 2)).reached (.region 1)).annotationOf
      (definitionOf boundDefinitions)

/-- The components of the two graphs. -/
def boundNewAnnotated : NewAnnotated := fun _ successors _ =>
  match successors 2 with
  | .ok [1] => lendingSccs (definitionOf boundDefinitions)
  | _ => boundSccs

theorem outgoingRegions_lending :
    (⟨.normal, [none, none, some 0], [none]⟩ : ConstraintGraph).outgoingRegions 2
      lendingConstraints 0 = .ok [1] := by
  have hlen : lendingConstraints.outlives.length = 1 := rfl
  simp only [ConstraintGraph.outgoingRegions, ConstraintGraph.outgoingEdges, hlen]
  -- one round for the constraint and one for the end of the list
  unfold collect
  simp only [FallibleIterator.next]
  unfold collect
  rfl

/-- A borrow that outlives a placeholder which it cannot name outlives `'static`. -/
theorem addOutlivesStatic_bound :
    ∃ sccs' set', lendingConstraints.addOutlivesStatic boundNewAnnotated 0 boundDefinitions =
        .ok (sccs', set') ∧
      ReflTransGen (set'.Edge 0 3) 2 0 := by
  have hgraph : lendingConstraints.graph boundDefinitions.length =
      .ok ⟨.normal, [none, none, some 0], [none]⟩ := rfl
  have hsccs : lendingConstraints.computeSccs boundNewAnnotated 0 boundDefinitions =
      .ok (lendingSccs (definitionOf boundDefinitions)) := by
    rw [OutlivesConstraintSet.computeSccs, hgraph, Res.ok_bind, boundNewAnnotated,
      outgoingRegions_lending]
    rfl
  obtain ⟨sccs', set', hadd, hkeeps, hsettled⟩ := addOutlivesStatic_settles
    (declared_lending le_rfl) (by decide) freeFirst_bound hsccs (lendingSccs_of _)
  have hto : ReflTransGen (set'.Edge 0 3) 2 1 :=
    hkeeps 2 1 (.single (lendingConstraints_edge.mpr ⟨by decide, .inr ⟨rfl, rfl⟩⟩))
  exact ⟨sccs', set', hadd, hsettled 2 (by decide) ⟨2, 1, .refl, hto, by decide⟩⟩

end Lending

end MutationTesting.Borrowck
