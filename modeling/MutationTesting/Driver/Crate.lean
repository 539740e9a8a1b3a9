/-
  MutationTesting.Driver.Crate

  A run of the tool on a crate (`run_mutation_tests` in `src/main.rs`): which
  bodies are tested, and the schedule of all of them.
-/
import MutationTesting.Driver.Results
import MutationTesting.Driver.Visualization
import MutationTesting.Driver.Schedule
import MutationTesting.Mutator.Completeness

namespace MutationTesting.Driver

open MutationTesting.Rust MutationTesting.Mir MutationTesting.Pcg MutationTesting.Mutator

inductive DefKind where
  | fn
  | assocFn
  | other

inductive Safety where
  | safe
  | unsafeFn

/-- What the compiler says of one of `body_owners`. -/
structure BodyOwner where
  defId : LocalDefId
  kind : DefKind
  safety : Safety

structure Crate where
  tcx : TyCtxt
  bodyOwners : List BodyOwner
  /-- `BODIES`, as the compilation has filled it. -/
  bodies : HashMap LocalDefId Body

def inCargoCrate (env : Env) : Bool := (env "CARGO_CRATE_NAME").isSome

section

variable {σ : Type} [FiniteIterator σ Mutant] (host : Host) (mutations : List (Mutation σ))
  (tcx : TyCtxt)

/-- The loop over the bodies of the crate. -/
def testOwners : List BodyOwner → HashMap LocalDefId Body → Unwind World Unit
  | [], _ => pure ()
  | owner :: owners, bodyMap =>
    if host.env "PCG_SKIP_FUNCTION" = some (host.defPathStr owner.defId) then
      testOwners owners bodyMap
    else
      match owner.kind with
      | .other => testOwners owners bodyMap
      | .fn | .assocFn =>
        match bodyMap.lookup owner.defId with
        | none => testOwners owners bodyMap
        | some body =>
          match owner.safety with
          | .unsafeFn => testOwners owners (bodyMap.erase owner.defId)
          | .safe => do
            let analysis ← Unwind.ofRes (host.runPcg body none)
            runMutationTestsForBody host mutations ⟨tcx, body⟩ owner.defId body analysis
            testOwners owners (bodyMap.erase owner.defId)

/-- The aggregates are new, and diagnostics are tracked from here on. -/
def World.beginRun (w : World) : World :=
  { w with
    mutatorResults := ∅
    mutantsLog := .empty
    passedBodies := ∅ }.initializeErrorTracking

/-- `run_mutation_tests`. -/
def runMutationTests (crate : Crate) : Unwind World Unit :=
  if inCargoCrate host.env && (host.env "CARGO_PRIMARY_PACKAGE").isNone then pure ()
  else do
    Unwind.modify World.beginRun
    testOwners host mutations crate.tcx crate.bodyOwners crate.bodies
    writeVisualization host
    writeResults host

/-! ## The schedule of a crate -/

/-- The bodies that are tested, in order. -/
def testedBodies : List BodyOwner → HashMap LocalDefId Body → List (LocalDefId × Body)
  | [], _ => []
  | owner :: owners, bodyMap =>
    if host.env "PCG_SKIP_FUNCTION" = some (host.defPathStr owner.defId) then
      testedBodies owners bodyMap
    else
      match owner.kind with
      | .other => testedBodies owners bodyMap
      | .fn | .assocFn =>
        match bodyMap.lookup owner.defId with
        | none => testedBodies owners bodyMap
        | some body =>
          match owner.safety with
          | .unsafeFn => testedBodies owners (bodyMap.erase owner.defId)
          | .safe => (owner.defId, body) :: testedBodies owners (bodyMap.erase owner.defId)

/-- The analysis of a body and all mutations on it. -/
def testSchedule (tested : LocalDefId × Body) : Schedule :=
  match host.runPcg tested.2 none with
  | .error e => ⟨[], some e⟩
  | .ok analysis => bodySchedule mutations ⟨tcx, tested.2⟩ tested.1 tested.2 analysis

def bodiesSchedule (tested : List (LocalDefId × Body)) : Schedule :=
  tested.foldr (fun body s => (testSchedule host mutations tcx body).andThen s) .empty

theorem testSchedule_perform (tested : LocalDefId × Body) :
    (testSchedule host mutations tcx tested).perform host = (do
      let analysis ← Unwind.ofRes (host.runPcg tested.2 none)
      runMutationTestsForBody host mutations ⟨tcx, tested.2⟩ tested.1 tested.2 analysis) := by
  unfold testSchedule
  cases host.runPcg tested.2 none with
  | error e => rfl
  | ok analysis =>
    rw [← runMutationTestsForBody_eq]
    rfl

/-- The loop over the bodies performs their schedule. -/
theorem testOwners_eq (owners : List BodyOwner) (bodyMap : HashMap LocalDefId Body) :
    testOwners host mutations tcx owners bodyMap =
      (bodiesSchedule host mutations tcx (testedBodies host owners bodyMap)).perform host := by
  induction owners generalizing bodyMap with
  | nil => rfl
  | cons owner owners ih =>
    unfold testOwners testedBodies
    split
    · exact ih bodyMap
    · cases owner.kind with
      | other => exact ih bodyMap
      | fn | assocFn =>
        cases bodyMap.lookup owner.defId with
        | none => exact ih bodyMap
        | some body =>
          cases owner.safety with
          | unsafeFn => exact ih _
          | safe =>
            simp only
            rw [bodiesSchedule, List.foldr_cons, Schedule.perform_andThen, testSchedule_perform,
              ih, bind_assoc]
            rfl

theorem testOwners_inv {owners : List BodyOwner} {bodyMap : HashMap LocalDefId Body}
    {w w' : World} (h : testOwners host mutations tcx owners bodyMap w = (.ok (), w')) :
    w' = applySteps host
      (bodiesSchedule host mutations tcx (testedBodies host owners bodyMap)).steps w := by
  rw [testOwners_eq] at h
  exact (Schedule.perform_inv h).2

theorem testOwners_files (owners : List BodyOwner) (bodyMap : HashMap LocalDefId Body)
    (w : World) :
    let w' := (testOwners host mutations tcx owners bodyMap w).2
    w'.resultsDir = w.resultsDir ∧ w'.visualized = w.visualized ∧ w'.created = w.created := by
  rw [testOwners_eq]
  exact Schedule.perform_preserves_files host _ _ _ _ w ⟨rfl, rfl, rfl⟩

/-- A run that returns has done nothing, or has tested all bodies, visualized those
    that passed, and written its results. -/
theorem runMutationTests_inv {crate : Crate} {w w' : World}
    (h : runMutationTests host mutations crate w = (.ok (), w')) :
    w' = w ∨ ∃ w₁ w₂,
      testOwners host mutations crate.tcx crate.bodyOwners crate.bodies w.beginRun =
        (.ok (), w₁) ∧ writeVisualization host w₁ = (.ok (), w₂) ∧
      writeResults host w₂ = (.ok (), w') := by
  unfold runMutationTests at h
  split at h
  · cases h
    exact .inl rfl
  · rw [Unwind.bind_run, Unwind.modify_run] at h
    simp only at h
    rw [Unwind.bind_run] at h
    rcases htest : testOwners host mutations crate.tcx crate.bodyOwners crate.bodies w.beginRun
      with ⟨_ | _, w₁⟩
    · rw [htest] at h
      cases h
    · rw [htest] at h
      simp only at h
      rw [Unwind.bind_run] at h
      rcases hvisual : writeVisualization host w₁ with ⟨_ | _, w₂⟩
      · rw [hvisual] at h
        cases h
      · rw [hvisual] at h
        exact .inr ⟨w₁, w₂, rfl, hvisual, h⟩

/-- The aggregates after a run, in whatever way it ends: those of the tests, or
    none if the package is not tested. -/
theorem runMutationTests_aggregates (crate : Crate) (errCount : Nat) (dir : Directory) :
    let w := (runMutationTests host mutations crate (.start errCount dir)).2
    let w₁ := (testOwners host mutations crate.tcx crate.bodyOwners crate.bodies
      (World.start errCount dir).beginRun).2
    ((inCargoCrate host.env && (host.env "CARGO_PRIMARY_PACKAGE").isNone) = true ∧
      w.mutatorResults = ∅ ∧ w.mutantsLog = .empty) ∨
    (w.mutatorResults = w₁.mutatorResults ∧ w.mutantsLog = w₁.mutantsLog) := by
  intro w w₁
  by_cases hskip : inCargoCrate host.env && (host.env "CARGO_PRIMARY_PACKAGE").isNone
  · have hw : w = World.start errCount dir := by
      simp only [w, runMutationTests]
      rw [if_pos hskip]
      rfl
    rw [hw]
    exact .inl ⟨hskip, rfl, rfl⟩
  · right
    simp only [w, runMutationTests]
    rw [if_neg hskip, Unwind.bind_run, Unwind.modify_run]
    simp only
    rw [Unwind.bind_run]
    -- the tests that panic write nothing, and writing leaves the aggregates alone
    have hwrites := (Unwind.Preserves.bind
      (writeVisualization_preserves_aggregates host w₁.mutatorResults w₁.mutantsLog) fun _ =>
      writeResults_preserves_aggregates host w₁.mutatorResults w₁.mutantsLog) w₁ ⟨rfl, rfl⟩
    rcases htest : testOwners host mutations crate.tcx crate.bodyOwners crate.bodies
      (World.start errCount dir).beginRun with ⟨_ | _, w₂⟩
    · simp only [w₁, htest]
      exact ⟨trivial, trivial⟩
    · simp only [w₁, htest] at hwrites ⊢
      exact hwrites

theorem opened_bodiesSchedule (tested : List (LocalDefId × Body)) :
    Opened [] (bodiesSchedule host mutations tcx tested).steps := by
  induction tested with
  | nil => trivial
  | cons body tested ih =>
    refine Schedule.opened_andThen ?_ ih
    unfold testSchedule
    split
    · trivial
    · exact opened_bodySchedule _ _ _ _ _

/-- The mutants of the bodies that are tested among `owners`. -/
def mutantsOf (crate : Crate) (owners : List BodyOwner) : List Mutant :=
  (bodiesSchedule host mutations crate.tcx (testedBodies host owners crate.bodies)).mutants

end

/-! ## A sample run -/

namespace SampleRun

/-- Moves out of borrowed places are tested. -/
def mutation : Mutation MutantStream := MutationKind.moveFromBorrowed.mutation Sample.order

/-- One function, with the sample body. -/
def crate : Crate where
  tcx := Sample.tcx
  bodyOwners := [⟨0, .fn, .safe⟩]
  bodies := Finmap.singleton 0 Sample.body

/-- Some variables are set, and nothing but the borrow check panics.  The results are in
    `results`. -/
def hostWith (vars : List (String × String)) (check : Nat → Body → CheckRun) : Host where
  env name := vars.lookup name
  runPcg body _ := .ok (Sample.analysisOf body)
  check := check
  panics _ _ := false
  debugDefId defId := toString defId
  defPathStr defId := "f" ++ toString defId
  visDir dir := if dir = "results" then .resultsDir else .elsewhere
  drain bodies := bodies.sortedEntries
  drains_drain bodies := bodies.drains_sortedEntries

/-- The sample's passed bodies can be visualized anywhere. -/
theorem canVisualize (vars : List (String × String)) (check : Nat → Body → CheckRun)
    (passedBodies : HashMap LocalDefId Body) : (hostWith vars check).CanVisualize passedBodies := by
  intro visDir _
  refine ⟨fun _ _ _ => rfl, ?_⟩
  simp only [hostWith]
  split <;> simp

/-- Every borrow check comes to the same. -/
def host (vars : List (String × String)) (run : CheckRun) : Host := hostWith vars fun _ _ => run

/-- The mutants of a body. -/
def mutantsBy (k : MutationKind) (body : Body) : List Mutant :=
  ((List.range (body.basicBlocks.length - 1)).flatMap (owed (Sample.analysisOf body))).flatMap
    fun call => k.streams Sample.order ⟨Sample.tcx, body⟩ body call.curr call.next

theorem drain_mutantsBy {k : MutationKind} (hk : k.isExpiry = false) (body : Body) :
    drain (Mutator.new (k.mutation Sample.order) ⟨Sample.tcx, body⟩ (Sample.analysisOf body)
      body) = (mutantsBy k body, none) := by
  have hstreams := MutationKind.hasStreams_of_insertion Sample.order hk ⟨Sample.tcx, body⟩
    (Sample.analysisOf_locatesBlocks body)
  obtain ⟨e, hy, -⟩ := Mutator.exists_yields_new (k.mutation Sample.order) ⟨Sample.tcx, body⟩
    (Sample.analysisOf body) body rfl
    (fun c hc => hstreams c (mem_flatMap_range_of_le (Nat.sub_le _ _) hc))
  exact hy.drain_eq

def mutants : List Mutant := mutantsBy .moveFromBorrowed Sample.body

theorem drain_mutants : drain (Mutator.new mutation Sample.ctx
    (Sample.analysisOf Sample.body) Sample.body) = (mutants, none) :=
  drain_mutantsBy rfl Sample.body

/-- The steps of the sample run. -/
def steps : List Step := .openEntry mutation.name :: mutants.map (.process mutation.name 0)

theorem bodySchedule_eq :
    bodySchedule [mutation] Sample.ctx 0 Sample.body (Sample.analysisOf Sample.body) =
      ⟨steps, none⟩ := by
  rw [bodySchedule, List.foldr_cons, List.foldr_nil, mutationSchedule, drain_mutants]
  simp [Schedule.andThen, Schedule.empty, steps]

theorem mutants_steps : (⟨steps, none⟩ : Schedule).mutants = mutants := by
  rw [Schedule.mutants, steps, List.filterMap_cons_none rfl, List.filterMap_map]
  exact List.filterMap_some

theorem bodiesSchedule_eq (vars : List (String × String)) (run : CheckRun)
    (hskip : vars.lookup "PCG_SKIP_FUNCTION" = none) :
    bodiesSchedule (host vars run) [mutation] crate.tcx
      (testedBodies (host vars run) crate.bodyOwners crate.bodies) = ⟨steps, none⟩ := by
  have htested : testedBodies (host vars run) crate.bodyOwners crate.bodies =
      [(0, Sample.body)] := by
    have hlookup : crate.bodies.lookup 0 = some Sample.body := Finmap.lookup_singleton_eq
    have henv : (host vars run).env "PCG_SKIP_FUNCTION" = none := hskip
    show testedBodies (host vars run) [⟨0, .fn, .safe⟩] crate.bodies = _
    unfold testedBodies
    simp only [henv, hlookup]
    rfl
  have hbody : testSchedule (host vars run) [mutation] crate.tcx (0, Sample.body) =
      ⟨steps, none⟩ := bodySchedule_eq
  rw [htested, bodiesSchedule, List.foldr_cons, List.foldr_nil, hbody]
  simp [Schedule.andThen, Schedule.empty]

theorem mutantsOf_eq (vars : List (String × String)) (run : CheckRun)
    (hskip : vars.lookup "PCG_SKIP_FUNCTION" = none) :
    mutantsOf (host vars run) [mutation] crate crate.bodyOwners = mutants := by
  rw [mutantsOf, bodiesSchedule_eq vars run hskip, mutants_steps]

/-- The tests return unless `DO_BORROWCK` has an unexpected value. -/
theorem testOwners_run (vars : List (String × String)) (run : CheckRun)
    (hskip : vars.lookup "PCG_SKIP_FUNCTION" = none)
    (hvalid : (host vars run).doBorrowckValid = true) (w : World) :
    testOwners (host vars run) [mutation] crate.tcx crate.bodyOwners crate.bodies w =
      (.ok (), applySteps (host vars run) steps w) := by
  rw [testOwners_eq, bodiesSchedule_eq vars run hskip, Schedule.perform_run hvalid]

end SampleRun

end MutationTesting.Driver
