/-
  MutationTesting.Driver.Counts

  One outcome for each mutant.  `passed` and `failed` are incremented under
  `catch_unwind` and `panicked` after it, so a mutant is counted twice exactly
  when it panics after its verdict.
-/
import MutationTesting.Driver.Crate

namespace MutationTesting.Driver

open MutationTesting.Rust MutationTesting.Mir MutationTesting.Pcg MutationTesting.Mutator

/-- The outcomes counted beyond one for each instance. -/
def MutatorData.surplus (data : MutatorData) : Int :=
  data.passed + data.failed + data.panicked - data.instances

theorem MutatorData.surplus_eq_zero {data : MutatorData} :
    data.surplus = 0 ↔ data.instances = data.passed + data.failed + data.panicked := by
  unfold surplus
  omega

/-- For every mutation the outcomes add up to the instances. -/
def Balanced (results : MutatorResults) : Prop :=
  results.Forall fun data => data.instances = data.passed + data.failed + data.panicked

/-- No instance is without an outcome. -/
def Covered (results : MutatorResults) : Prop :=
  results.Forall fun data => 0 ≤ data.surplus

theorem balanced_orInsert {results : MutatorResults} {name : String} :
    Balanced (results.orInsert name .zero) ↔ Balanced results := by
  unfold Balanced
  exact HashMap.forall_orInsert (by decide)

theorem covered_orInsert {results : MutatorResults} {name : String} :
    Covered (results.orInsert name .zero) ↔ Covered results := by
  unfold Covered
  exact HashMap.forall_orInsert (by decide)

/-- The mutant unwinds after its verdict has been counted. -/
def Host.panicsAfterVerdict (host : Host) (n : Nat) (body : Body) : Bool :=
  let outcome := (host.check n body).outcome
  !host.panics n .tracking && outcome ≠ .panicked &&
    (host.panicsRecording n outcome || host.panicsLogging n || host.panics n .reset)

/-! ## One mutant -/

section Mutant

variable (host : Host) (n : Nat) (body : Body)

theorem course_counts : (host.course true n body).counts =
    (!host.panics n .tracking && (host.check n body).outcome ≠ .panicked) := rfl

theorem course_completes : (host.course true n body).completes =
    ((host.course true n body).counts && !host.panicsAfterVerdict n body) := by
  rw [course_counts, Host.panicsAfterVerdict]
  simp only [Host.course]
  cases host.panics n .tracking <;> cases (host.check n body).outcome <;>
    simp [Bool.and_assoc]

theorem counts_of_panicsAfterVerdict (h : host.panicsAfterVerdict n body = true) :
    (host.course true n body).counts = true := by
  rw [Host.panicsAfterVerdict, Bool.and_eq_true] at h
  exact h.1

/-- A mutant adds one outcome more than it adds instances if it panics after its
    verdict, and as many otherwise. -/
theorem score_surplus (tracking : Bool) (data : MutatorData) :
    ((host.course true n body).score (host.check n body) tracking data).surplus =
      data.surplus + if host.panicsAfterVerdict n body then 1 else 0 := by
  have hcounts := course_counts host n body
  simp only [Course.score, Course.judge, MutatorData.surplus, course_completes]
  cases hlate : host.panicsAfterVerdict n body with
  | true =>
    rw [counts_of_panicsAfterVerdict host n body hlate] at hcounts ⊢
    cases hout : (host.check n body).outcome with
    -- a check that panics has no verdict
    | panicked => simp [hout] at hcounts
    | tainted | passed =>
      simp
      omega
  | false =>
    cases hc : (host.course true n body).counts with
    | false =>
      simp
      omega
    | true =>
      rw [hc] at hcounts
      cases hout : (host.check n body).outcome with
      | panicked => simp [hout] at hcounts
      | tainted | passed =>
        simp
        omega

end Mutant

/-! ## Runs -/

/-- No mutant of the list, the first of which is the `n`-th of the run, panics
    after its verdict. -/
def Host.NoneLate (host : Host) (n : Nat) (mutants : List Mutant) : Prop :=
  ∀ k mutant, mutants[k]? = some mutant → host.panicsAfterVerdict (n + k) mutant.body = false

theorem Host.noneLate_cons {host : Host} {n : Nat} {mutant : Mutant} {mutants : List Mutant} :
    host.NoneLate n (mutant :: mutants) ↔
      host.panicsAfterVerdict n mutant.body = false ∧ host.NoneLate (n + 1) mutants := by
  constructor
  · intro h
    refine ⟨h 0 mutant rfl, fun k mutant' hk => ?_⟩
    rw [Nat.add_assoc, Nat.add_comm 1 k]
    exact h (k + 1) mutant' hk
  · rintro ⟨hfirst, hrest⟩ k mutant' hk
    cases k with
    | zero =>
      obtain rfl := Option.some.inj hk
      exact hfirst
    | succ k =>
      rw [← Nat.add_assoc, Nat.add_right_comm]
      exact hrest k mutant' hk

/-- Processing a mutant keeps the instances covered, and the balance unless the
    mutant panics after its verdict. -/
theorem processed_balanced {host : Host} {name : String} (defId : LocalDefId) (mutant : Mutant)
    {w : World} (hname : name ∈ w.mutatorResults) (hcovered : Covered w.mutatorResults) :
    Covered (w.processed host true name defId mutant).mutatorResults ∧
    (Balanced (w.processed host true name defId mutant).mutatorResults ↔
      Balanced w.mutatorResults ∧ host.panicsAfterVerdict w.mutants mutant.body = false) := by
  obtain ⟨data, hdata⟩ := Finmap.mem_iff.mp hname
  have hnonneg := hcovered name data hdata
  have hscore := score_surplus host w.mutants mutant.body w.tracking data
  have hresults : (w.processed host true name defId mutant).mutatorResults =
      w.mutatorResults.modify name
        ((host.course true w.mutants mutant.body).score (host.check w.mutants mutant.body)
          w.tracking) := rfl
  rw [hresults, Covered, Balanced, HashMap.forall_modify hdata, HashMap.forall_modify hdata,
    ← MutatorData.surplus_eq_zero, hscore]
  refine ⟨⟨?_, fun name' data' _ hlookup => hcovered name' data' hlookup⟩, ?_⟩
  · split <;> omega
  constructor
  · rintro ⟨hself, hothers⟩
    have hnotLate : host.panicsAfterVerdict w.mutants mutant.body = false := by
      by_contra hlate
      rw [if_pos (Bool.not_eq_false _ ▸ hlate)] at hself
      omega
    refine ⟨?_, hnotLate⟩
    intro name' data' hlookup
    by_cases hname' : name' = name
    · rw [hname', hdata] at hlookup
      obtain rfl := Option.some.inj hlookup
      rw [hnotLate] at hself
      exact MutatorData.surplus_eq_zero.mp (by simpa using hself)
    · exact hothers name' data' hname' hlookup
  · rintro ⟨hbalanced, hnotLate⟩
    refine ⟨?_, fun name' data' _ hlookup => hbalanced name' data' hlookup⟩
    have hzero := MutatorData.surplus_eq_zero.mpr (hbalanced name data hdata)
    rw [hnotLate, hzero]
    simp

/-- Over a run the results stay balanced just as long as no mutant panics after
    its verdict. -/
theorem applySteps_balanced {host : Host} (hon : host.doBorrowck = true) {names : List String}
    {steps : List Step} {w : World} (hopened : Opened names steps)
    (hnames : ∀ name ∈ names, name ∈ w.mutatorResults) (hcovered : Covered w.mutatorResults) :
    Balanced (applySteps host steps w).mutatorResults ↔
      Balanced w.mutatorResults ∧ host.NoneLate w.mutants (steps.filterMap Step.mutant?) := by
  induction steps generalizing names w with
  | nil => simp [applySteps, Host.NoneLate]
  | cons step steps ih =>
    rw [applySteps, List.foldl_cons, ← applySteps]
    cases step with
    | openEntry name =>
      have hcovered' : Covered (w.mutatorResults.orInsert name .zero) :=
        covered_orInsert.mpr hcovered
      have hrest := ih (w := Step.apply host (.openEntry name) w) hopened
        (forall_mem_openEntry host hnames) hcovered'
      rw [hrest]
      show Balanced (w.mutatorResults.orInsert name .zero) ∧ _ ↔ _
      rw [balanced_orInsert]
      rfl
    | process name defId mutant =>
      obtain ⟨hname, hopened⟩ := hopened
      obtain ⟨hcovered', hbalanced⟩ := processed_balanced defId mutant (hnames name hname) hcovered
      rw [Step.apply, hon]
      have hrest := ih (w := w.processed host true name defId mutant) hopened
        (fun name' hname' => HashMap.mem_modify.mpr (hnames name' hname')) hcovered'
      rw [hrest, hbalanced, filterMap_mutant_process, Host.noneLate_cons, and_assoc]
      rfl

section Crate

variable {σ : Type} [FiniteIterator σ Mutant] {host : Host} {mutations : List (Mutation σ)}
  {crate : Crate}

theorem testOwners_balanced (hon : envFeatureEnabled host.env "DO_BORROWCK" ≠ .ok (some false))
    {errCount : Nat} {dir : Directory} {owners : List BodyOwner} {w : World}
    (h : testOwners host mutations crate.tcx owners crate.bodies
      (World.start errCount dir).beginRun = (.ok (), w)) :
    Balanced w.mutatorResults ↔ host.NoneLate 0 (mutantsOf host mutations crate owners) := by
  obtain rfl := testOwners_inv host mutations crate.tcx h
  have hopened := opened_bodiesSchedule host mutations crate.tcx
    (testedBodies host owners crate.bodies)
  have hbalanced : Balanced (World.start errCount dir).beginRun.mutatorResults :=
    HashMap.forall_empty _
  have hcovered : Covered (World.start errCount dir).beginRun.mutatorResults :=
    HashMap.forall_empty _
  rw [applySteps_balanced (Host.doBorrowck_eq_true hon) hopened (by simp) hcovered,
    and_iff_right hbalanced]
  rfl

/-- The outcomes add up after each body and in the results file just as long as
    no mutant panics after its verdict has been counted. -/
theorem outcomes_balanced_iff
    (hon : envFeatureEnabled host.env "DO_BORROWCK" ≠ .ok (some false))
    (errCount : Nat) (dir : Directory) :
    ((∀ owners w, owners <+: crate.bodyOwners →
        testOwners host mutations crate.tcx owners crate.bodies
          (World.start errCount dir).beginRun = (.ok (), w) →
        Balanced w.mutatorResults) ∧
      ∀ w path results,
        runMutationTests host mutations crate (.start errCount dir) = (.ok (), w) →
        path ∈ w.created → w.resultsDir.lookup path = some (.mutatorResults results) →
        Balanced results) ↔
    ∀ owners w, owners <+: crate.bodyOwners →
      testOwners host mutations crate.tcx owners crate.bodies
        (World.start errCount dir).beginRun = (.ok (), w) →
      host.NoneLate 0 (mutantsOf host mutations crate owners) := by
  constructor
  · rintro ⟨hbodies, -⟩ owners w howners hrun
    exact (testOwners_balanced hon hrun).mp (hbodies owners w howners hrun)
  · intro hlate
    have hbodies : ∀ owners w, owners <+: crate.bodyOwners →
        testOwners host mutations crate.tcx owners crate.bodies
          (World.start errCount dir).beginRun = (.ok (), w) →
        Balanced w.mutatorResults := by
      intro owners w howners hrun
      exact (testOwners_balanced hon hrun).mpr (hlate owners w howners hrun)
    refine ⟨hbodies, fun w path results hrun hpath hfile => ?_⟩
    rcases runMutationTests_inv host mutations hrun with rfl | ⟨w₁, w₂, htest, hvisual, hwrite⟩
    · cases hpath
    obtain ⟨itemNames, rfl⟩ := writeVisualization_inv hvisual
    have hbalanced := hbodies _ _ (List.prefix_refl _) htest
    have hcreated : (w₁.withFunctions host itemNames).created = [] := by
      have hfiles := testOwners_files host mutations crate.tcx crate.bodyOwners crate.bodies
        (World.start errCount dir).beginRun
      rw [htest] at hfiles
      exact hfiles.2.2
    -- what is written is what the tests have left
    rcases writeResults_inv hwrite with ⟨-, rfl⟩ | ⟨crateName, name, enabled, -, -, -, rfl⟩
    · rw [hcreated] at hpath
      cases hpath
    · obtain rfl := World.results_of_written hcreated hpath hfile
      exact hbalanced

end Crate

/-- With an unexpected value of `PCG_VISUALIZATION` every mutant of the sample passes and
    panics. -/
theorem not_outcomes_balanced : ¬ ∀ (host : Host) (mutations : List (Mutation MutantStream))
    (crate : Crate) (errCount : Nat) (dir : Directory),
    envFeatureEnabled host.env "DO_BORROWCK" ≠ .ok (some false) →
    (∀ owners w, owners <+: crate.bodyOwners →
      testOwners host mutations crate.tcx owners crate.bodies
        (World.start errCount dir).beginRun = (.ok (), w) →
      Balanced w.mutatorResults) ∧
    ∀ w path results,
      runMutationTests host mutations crate (.start errCount dir) = (.ok (), w) →
      path ∈ w.created → w.resultsDir.lookup path = some (.mutatorResults results) →
      Balanced results := by
  intro h
  let host := SampleRun.host [("PCG_VISUALIZATION", "yes")] ⟨[], .passed⟩
  have hon : envFeatureEnabled host.env "DO_BORROWCK" ≠ .ok (some false) := by decide
  have hrun := SampleRun.testOwners_run [("PCG_VISUALIZATION", "yes")] ⟨[], .passed⟩ rfl rfl
    (World.start 0 ∅).beginRun
  have hbalanced := (h host _ _ 0 ∅ hon).1 _ _ (List.prefix_refl _) hrun
  rw [testOwners_balanced hon hrun, SampleRun.mutantsOf_eq _ _ rfl] at hbalanced
  have hlast := hbalanced 0 _ rfl
  cases hlast

/-- With no variable set the sample's failed checks are counted once each. -/
theorem outcomes_balanced_sample :
    (∀ owners w, owners <+: SampleRun.crate.bodyOwners →
      testOwners (SampleRun.host [] ⟨[], .tainted⟩) [SampleRun.mutation] SampleRun.crate.tcx owners
        SampleRun.crate.bodies (World.start 0 ∅).beginRun = (.ok (), w) →
      Balanced w.mutatorResults) ∧
    ∀ w path results,
      runMutationTests (SampleRun.host [] ⟨[], .tainted⟩) [SampleRun.mutation] SampleRun.crate
        (.start 0 ∅) = (.ok (), w) →
      path ∈ w.created → w.resultsDir.lookup path = some (.mutatorResults results) →
      Balanced results := by
  refine (outcomes_balanced_iff (by decide) 0 ∅).mpr ?_
  intro owners w _ _ k mutant _
  rfl

end MutationTesting.Driver
