/-
  MutationTesting.Driver.ToolRun

  What one run of the tool leaves in the results directory.

  Both files of a run have the first name whose log file does not exist.  Before
  that the visualization may have created `functions.json`, which is the file of
  the first results of a crate named `functions`.
-/
import MutationTesting.Driver.Crate

namespace MutationTesting.Driver

open MutationTesting.Rust MutationTesting.Mir MutationTesting.Pcg MutationTesting.Mutator

/-- A run of the tool, but for the results directory. -/
structure ToolRun (σ : Type) [FiniteIterator σ Mutant] where
  host : Host
  mutations : List (Mutation σ)
  crate : Crate
  errCount : Nat

/-- `functions.json` is where a crate named `functions` has its first results. -/
theorem functionsPath_eq : functionsPath = mutatorResultsPath (candidateName "functions" 0) := by
  rw [mutatorResultsPath_eq (isCrateName_of_all (by decide))]
  rfl

/-- It is not a log. -/
theorem mutantsLogPath_ne_functionsPath {crateName : String} (h : IsCrateName crateName)
    (k : Nat) : mutantsLogPath (candidateName crateName k) ≠ functionsPath := by
  rw [functionsPath_eq]
  exact mutantsLogPath_ne_mutatorResultsPath h (isCrateName_of_all (by decide))

/-- Two names that are the first without a log are one. -/
theorem firstName_unique {dir : Directory} {crateName : String} {k l : Nat}
    (hk : mutantsLogPath (candidateName crateName k) ∉ dir)
    (hbefore : ∀ j < k, mutantsLogPath (candidateName crateName j) ∈ dir)
    (hl : mutantsLogPath (candidateName crateName l) ∉ dir)
    (hbefore' : ∀ j < l, mutantsLogPath (candidateName crateName j) ∈ dir) : k = l := by
  rcases Nat.lt_trichotomy k l with hlt | heq | hgt
  · exact absurd (hbefore' k hlt) hk
  · exact heq
  · exact absurd (hbefore l hgt) hl

/-- All files the run has created in the results directory. -/
def World.files (w : World) : List String :=
  (if w.visualized then [functionsPath] else []) ++ w.created

theorem World.mem_files {w : World} {path : String} :
    path ∈ w.files ↔ (w.visualized = true ∧ path = functionsPath) ∨ path ∈ w.created := by
  rw [files, List.mem_append]
  cases w.visualized <;> simp

section

variable {σ : Type} [FiniteIterator σ Mutant]

namespace ToolRun

/-- The state a run leaves, in whatever way it ends. -/
def exec (run : ToolRun σ) (dir : Directory) : World :=
  (runMutationTests run.host run.mutations run.crate (.start run.errCount dir)).2

def schedule (run : ToolRun σ) : Schedule :=
  bodiesSchedule run.host run.mutations run.crate.tcx
    (testedBodies run.host run.crate.bodyOwners run.crate.bodies)

/-- The bodies the tests leave to be visualized, which do not depend on the results
    directory. -/
def passedBodies (run : ToolRun σ) : HashMap LocalDefId Body :=
  (applySteps run.host run.schedule.steps (World.start run.errCount ∅).beginRun).passedBodies

/-- The run tests its package, its tests return, and so does the visualization. -/
structure Completes (run : ToolRun σ) : Prop where
  tests : (inCargoCrate run.host.env && (run.host.env "CARGO_PRIMARY_PACKAGE").isNone) = false
  returns : run.schedule.Returns run.host
  visualizes : run.host.CanVisualize run.passedBodies

/-- The run gets to its results under a name for the crate, and knows whether to log:
    it writes them. -/
structure WritesAs (run : ToolRun σ) (crateName : String) : Prop where
  completes : run.Completes
  crateName_eq : cargoCrateName run.host.env = some crateName
  log_valid : (envFeatureEnabled run.host.env "MUTANTS_LOG").isOk

/-- The run creates `functions.json` in the results directory. -/
structure Visualizes (run : ToolRun σ) : Prop where
  completes : run.Completes
  results : run.host.visualizesResults = true

/-- The crate name, if the run has one, is as names of crates are. -/
def ProperName (run : ToolRun σ) : Prop :=
  ∀ crateName, cargoCrateName run.host.env = some crateName → IsCrateName crateName

theorem WritesAs.unique {run : ToolRun σ} {a b : String} (ha : run.WritesAs a)
    (hb : run.WritesAs b) : a = b :=
  Option.some.inj (ha.crateName_eq.symm.trans hb.crateName_eq)

/-! ## The run up to its results -/

/-- A run that does not complete leaves the directory alone; one that does has only
    visualized before it writes its results. -/
theorem exec_eq (run : ToolRun σ) (dir : Directory) :
    (¬ run.Completes ∧ (run.exec dir).resultsDir = dir ∧ (run.exec dir).visualized = false ∧
      (run.exec dir).created = []) ∨
    ∃ (w₁ : World) (itemNames : List String), run.Completes ∧ w₁.resultsDir = dir ∧
      w₁.visualized = false ∧ w₁.created = [] ∧
      run.exec dir = (writeResults run.host (w₁.withFunctions run.host itemNames)).2 := by
  have hfiles := testOwners_files run.host run.mutations run.crate.tcx run.crate.bodyOwners
    run.crate.bodies (World.start run.errCount dir).beginRun
  have hreturns : (testOwners run.host run.mutations run.crate.tcx run.crate.bodyOwners
      run.crate.bodies (World.start run.errCount dir).beginRun).1 = .ok () ↔
      run.schedule.Returns run.host := by
    rw [testOwners_eq]
    exact Schedule.perform_ok_iff
  unfold exec runMutationTests
  split
  next hskip =>
    refine .inl ⟨fun hcompletes => ?_, rfl, rfl, rfl⟩
    rw [hcompletes.tests] at hskip
    cases hskip
  next htests =>
    rw [Unwind.bind_run, Unwind.modify_run]
    simp only
    rw [Unwind.bind_run]
    rcases hrun : testOwners run.host run.mutations run.crate.tcx run.crate.bodyOwners
      run.crate.bodies (World.start run.errCount dir).beginRun with ⟨e | u, w₁⟩
    · rw [hrun] at hfiles hreturns
      refine .inl ⟨fun hcompletes => ?_, hfiles⟩
      cases hreturns.mpr hcompletes.returns
    · -- which bodies have passed does not depend on the directory
      have hpassed : w₁.passedBodies = run.passedBodies := by
        rw [testOwners_inv run.host run.mutations run.crate.tcx hrun]
        exact applySteps_passedBodies_congr run.host _ rfl rfl
      rw [hrun] at hfiles hreturns
      simp only
      rw [Unwind.bind_run]
      rcases writeVisualization_cases run.host w₁ with
        ⟨hcannot, e, hvisual⟩ | ⟨hcan, itemNames, hvisual⟩
      · rw [hvisual]
        refine .inl ⟨fun hcompletes => hcannot ?_, hfiles⟩
        rw [hpassed]
        exact hcompletes.visualizes
      · rw [hvisual]
        refine .inr ⟨w₁, itemNames, ⟨Bool.not_eq_true _ ▸ htests, hreturns.mp rfl, ?_⟩, hfiles.1,
          hfiles.2.1, hfiles.2.2, rfl⟩
        rw [← hpassed]
        exact hcan

/-! ## The files of a run -/

/-- The directory after the visualization. -/
def visualizedDir (visualized : Bool) (itemNames : List String) (dir : Directory) : Directory :=
  if visualized then dir.insert functionsPath (.functions itemNames.toFinset) else dir

/-- A run visualizes, and then writes under a name for its crate or not at all. -/
theorem exec_cases {run : ToolRun σ} (hproper : run.ProperName) (dir : Directory) :
    ∃ (w₁ : World) (itemNames : List String), (w₁.visualized = true ↔ run.Visualizes) ∧
      w₁.resultsDir = visualizedDir w₁.visualized itemNames dir ∧ w₁.created = [] ∧
      (((∀ crateName, ¬ run.WritesAs crateName) ∧ run.exec dir = w₁) ∨
        ∃ (crateName : String) (k : Nat), run.WritesAs crateName ∧ IsCrateName crateName ∧
          mutantsLogPath (candidateName crateName k) ∉ dir ∧
          (∀ j < k, mutantsLogPath (candidateName crateName j) ∈ dir) ∧
          run.exec dir = w₁.written run.host.keepsLog (candidateName crateName k)) := by
  rcases run.exec_eq dir with ⟨hnot, hdir, hvisual, hcreated⟩ |
    ⟨w₁, itemNames, hcompletes, hdir, hvisual, hcreated, hexec⟩
  · refine ⟨run.exec dir, [], ?_, ?_, hcreated, .inl ⟨fun _ hwrites => hnot hwrites.completes, rfl⟩⟩
    · rw [hvisual]
      exact iff_of_false Bool.false_ne_true fun hvisualizes => hnot hvisualizes.completes
    · rw [hvisual]
      exact hdir
  refine ⟨w₁.withFunctions run.host itemNames, itemNames, ?_, ?_, hcreated, ?_⟩
  · simp only [World.withFunctions, hvisual, Bool.false_or]
    exact ⟨fun hresults => ⟨hcompletes, hresults⟩, fun hvisualizes => hvisualizes.results⟩
  · simp only [World.withFunctions, hvisual, hdir, Bool.false_or, visualizedDir]
  rw [hexec]
  cases hcrateName : cargoCrateName run.host.env with
  | none =>
    left
    constructor
    · intro crateName hwrites
      rw [hwrites.crateName_eq] at hcrateName
      cases hcrateName
    · simp only [writeResults, hcrateName, Unwind.pure_run]
  | some crateName =>
    have hcrate := hproper crateName hcrateName
    cases henv : envFeatureEnabled run.host.env "MUTANTS_LOG" with
    | error e =>
      left
      constructor
      · intro crateName' hwrites
        obtain ⟨enabled, hvalid⟩ := Res.isOk_eq_true.mp hwrites.log_valid
        rw [henv] at hvalid
        cases hvalid
      · rw [writeResults_of_invalid _ henv]
    | ok enabled =>
      obtain ⟨k, hname, hfree, hbefore⟩ :=
        exists_uniqueCrateName (w₁.withFunctions run.host itemNames).resultsDir hcrate
      have hwrites : run.WritesAs crateName :=
        ⟨hcompletes, hcrateName, Res.isOk_eq_true.mpr ⟨enabled, henv⟩⟩
      have hkeeps : enabled.getD false = run.host.keepsLog := by
        rw [Host.keepsLog, henv]
        rcases enabled with _ | _ | _ <;> rfl
      -- the file of the visualization is not one of the logs that are probed for
      have hlogs : ∀ j, mutantsLogPath (candidateName crateName j) ∈
          (w₁.withFunctions run.host itemNames).resultsDir ↔
            mutantsLogPath (candidateName crateName j) ∈ dir := by
        intro j
        simp only [World.withFunctions, hdir]
        split
        · rw [Finmap.mem_insert, or_iff_right (mutantsLogPath_ne_functionsPath hcrate j)]
        · rfl
      refine .inr ⟨crateName, k, hwrites, hcrate, (hlogs k).not.mp hfree,
        fun j hj => (hlogs j).mp (hbefore j hj), ?_⟩
      rw [writeResults_run hcrateName hname henv, hkeeps]

theorem lookup_visualizedDir {visualized : Bool} {path : String}
    (h : ¬ (visualized = true ∧ path = functionsPath)) (itemNames : List String)
    (dir : Directory) : (visualizedDir visualized itemNames dir).lookup path = dir.lookup path := by
  unfold visualizedDir
  cases visualized with
  | false => rfl
  | true =>
    have hpath : path ≠ functionsPath := fun heq => h ⟨rfl, heq⟩
    rw [if_pos rfl, Finmap.lookup_insert_of_ne _ hpath]

theorem mem_visualizedDir {visualized : Bool} {itemNames : List String} {dir : Directory}
    {path : String} : path ∈ visualizedDir visualized itemNames dir ↔
      (visualized = true ∧ path = functionsPath) ∨ path ∈ dir := by
  unfold visualizedDir
  cases visualized with
  | false => simp
  | true => simp

section

variable {run : ToolRun σ} (hproper : run.ProperName) {dir : Directory}

include hproper

theorem visualized_exec_iff : (run.exec dir).visualized = true ↔ run.Visualizes := by
  obtain ⟨w₁, itemNames, hvisual, -, -, hexec⟩ := exec_cases hproper dir
  rw [← hvisual]
  rcases hexec with ⟨-, hexec⟩ | ⟨c, k, -, -, -, -, hexec⟩
  · rw [hexec]
  · rw [hexec]
    rfl

/-- A run leaves files alone that it does not create. -/
theorem lookup_exec {path : String} (h : path ∉ (run.exec dir).files) :
    (run.exec dir).resultsDir.lookup path = dir.lookup path := by
  obtain ⟨w₁, itemNames, -, hdir, hcreated, hexec⟩ := exec_cases hproper dir
  rw [World.mem_files, not_or] at h
  obtain ⟨hfunctions, hnew⟩ := h
  rcases hexec with ⟨-, hexec⟩ | ⟨c, k, -, -, -, -, hexec⟩
  · rw [hexec] at hfunctions ⊢
    rw [hdir, lookup_visualizedDir hfunctions]
  · rw [hexec] at hfunctions hnew ⊢
    rw [World.lookup_written hcreated hnew, hdir]
    exact lookup_visualizedDir hfunctions itemNames dir

theorem mem_exec {path : String} :
    path ∈ (run.exec dir).resultsDir ↔ path ∈ (run.exec dir).files ∨ path ∈ dir := by
  obtain ⟨w₁, itemNames, -, hdir, hcreated, hexec⟩ := exec_cases hproper dir
  rw [World.mem_files, or_assoc, or_left_comm]
  rcases hexec with ⟨-, hexec⟩ | ⟨c, k, -, -, -, -, hexec⟩
  · rw [hexec, hdir, mem_visualizedDir, hcreated]
    simp
  · rw [hexec, World.mem_written hcreated, hdir, mem_visualizedDir]
    rfl

/-- The log and the results of a run have the first name without a log. -/
theorem mem_created_exec_iff {path : String} : path ∈ (run.exec dir).created ↔
    ∃ (crateName : String) (k : Nat), run.WritesAs crateName ∧ IsCrateName crateName ∧
      mutantsLogPath (candidateName crateName k) ∉ dir ∧
      (∀ j < k, mutantsLogPath (candidateName crateName j) ∈ dir) ∧
      (path = mutatorResultsPath (candidateName crateName k) ∨
        (run.host.keepsLog = true ∧ path = mutantsLogPath (candidateName crateName k))) := by
  obtain ⟨w₁, itemNames, -, -, hcreated, hexec⟩ := exec_cases hproper dir
  rcases hexec with ⟨hnot, hexec⟩ | ⟨c, k, hwrites, hc, hfree, hbefore, hexec⟩
  · rw [hexec, hcreated]
    refine iff_of_false List.not_mem_nil ?_
    rintro ⟨crateName, k, hwrites, -⟩
    exact hnot crateName hwrites
  · rw [hexec, World.mem_created_written hcreated]
    constructor
    · exact fun hpath => ⟨c, k, hwrites, hc, hfree, hbefore, hpath⟩
    · rintro ⟨c', k', hwrites', -, hfree', hbefore', hpath⟩
      obtain rfl := hwrites.unique hwrites'
      obtain rfl := firstName_unique hfree hbefore hfree' hbefore'
      exact hpath

/-- The logs of a crate are created by its own runs only. -/
theorem log_mem_exec {crateName : String} (hcrate : IsCrateName crateName)
    (hother : ¬ run.WritesAs crateName) (j : Nat) :
    mutantsLogPath (candidateName crateName j) ∈ (run.exec dir).resultsDir ↔
      mutantsLogPath (candidateName crateName j) ∈ dir := by
  rw [mem_exec hproper, or_iff_right]
  rw [World.mem_files]
  rintro (⟨-, hfunctions⟩ | hlog)
  · exact mutantsLogPath_ne_functionsPath hcrate j hfunctions
  · obtain ⟨c, k, hwrites, hc, -, -, hresults | ⟨-, hlog⟩⟩ := (mem_created_exec_iff hproper).mp hlog
    · exact mutantsLogPath_ne_mutatorResultsPath hcrate hc hresults
    · obtain ⟨rfl, -⟩ := (mutantsLogPath_inj hcrate hc).mp hlog
      exact hother hwrites

/-- The last file a run has created holds its results. -/
theorem lookup_last {path : String} (h : (run.exec dir).created.getLast? = some path) :
    (run.exec dir).resultsDir.lookup path =
      some (.mutatorResults (run.exec dir).mutatorResults) := by
  obtain ⟨w₁, itemNames, -, -, hcreated, hexec⟩ := exec_cases hproper dir
  rcases hexec with ⟨-, hexec⟩ | ⟨c, k, -, -, -, -, hexec⟩
  · rw [hexec, hcreated] at h
    cases h
  · rw [hexec, World.getLast?_created_written] at h
    obtain rfl := Option.some.inj h
    rw [hexec, World.lookup_results_written]

/-- The results go to `functions.json` if the crate is named so and has no log
    yet. -/
theorem functionsPath_mem_created_iff : functionsPath ∈ (run.exec dir).created ↔
    run.WritesAs "functions" ∧ mutantsLogPath (candidateName "functions" 0) ∉ dir := by
  have hfunctions : IsCrateName "functions" := isCrateName_of_all (by decide)
  rw [mem_created_exec_iff hproper]
  constructor
  · rintro ⟨c, k, hwrites, hc, hfree, -, hresults | ⟨-, hlog⟩⟩
    · rw [functionsPath_eq] at hresults
      obtain ⟨rfl, rfl⟩ := (mutatorResultsPath_inj hfunctions hc).mp hresults
      exact ⟨hwrites, hfree⟩
    · exact absurd hlog.symm (mutantsLogPath_ne_functionsPath hc k)
  · rintro ⟨hwrites, hfree⟩
    exact ⟨"functions", 0, hwrites, hfunctions, hfree, by simp, .inl functionsPath_eq⟩

/-- Then they are in the last file created. -/
theorem getLast?_created_of_functionsPath_mem (h : functionsPath ∈ (run.exec dir).created) :
    (run.exec dir).created.getLast? = some functionsPath := by
  obtain ⟨w₁, itemNames, -, -, hcreated, hexec⟩ := exec_cases hproper dir
  rcases hexec with ⟨-, hexec⟩ | ⟨c, k, -, hc, -, -, hexec⟩
  · rw [hexec, hcreated] at h
    cases h
  · rw [hexec, World.mem_created_written hcreated] at h
    rcases h with hresults | ⟨-, hlog⟩
    · rw [hexec, World.getLast?_created_written, hresults]
    · exact absurd hlog.symm (mutantsLogPath_ne_functionsPath hc k)

/-- Otherwise a run that visualizes leaves the names there. -/
theorem lookup_functionsPath (hvisual : run.Visualizes)
    (h : functionsPath ∉ (run.exec dir).created) : ∃ itemNames,
    (run.exec dir).resultsDir.lookup functionsPath = some (.functions itemNames) := by
  obtain ⟨w₁, itemNames, hvisualized, hdir, hcreated, hexec⟩ := exec_cases hproper dir
  have hnames : w₁.resultsDir.lookup functionsPath = some (.functions itemNames.toFinset) := by
    rw [hdir, visualizedDir, if_pos (hvisualized.mpr hvisual), Finmap.lookup_insert]
  rcases hexec with ⟨-, hexec⟩ | ⟨c, k, -, -, -, -, hexec⟩
  · rw [hexec]
    exact ⟨_, hnames⟩
  · rw [hexec] at h ⊢
    rw [World.lookup_written hcreated h]
    exact ⟨_, hnames⟩

end

/-- The results of a run that completes are those of its steps. -/
theorem mutatorResults_exec {run : ToolRun σ} (h : run.Completes) (dir : Directory) :
    (run.exec dir).mutatorResults =
      (applySteps run.host run.schedule.steps
        (World.start run.errCount dir).beginRun).mutatorResults := by
  rcases runMutationTests_aggregates run.host run.mutations run.crate run.errCount dir with
    ⟨hskip, -⟩ | ⟨hresults, -⟩
  · rw [h.tests] at hskip
    cases hskip
  · have hreturns := (Schedule.perform_ok_iff
      (w := (World.start run.errCount dir).beginRun)).mpr h.returns
    have htests : testOwners run.host run.mutations run.crate.tcx run.crate.bodyOwners
        run.crate.bodies (World.start run.errCount dir).beginRun =
        (.ok (), (run.schedule.perform run.host (World.start run.errCount dir).beginRun).2) := by
      rw [testOwners_eq]
      exact Prod.ext hreturns rfl
    have hsteps := testOwners_inv run.host run.mutations run.crate.tcx htests
    rw [exec, hresults, htests]
    exact congrArg World.mutatorResults hsteps

end ToolRun

end

/-! ## Sample runs -/

namespace SampleRun

/-- A run on a crate, with more variables set. -/
def runOn (crateName : String) (vars : List (String × String)) : ToolRun MutantStream where
  host := host (("CARGO_CRATE_NAME", crateName) :: ("CARGO_PRIMARY_PACKAGE", "1") :: vars)
    ⟨[], .passed⟩
  mutations := [mutation]
  crate := crate
  errCount := 0

theorem runOn_properName {crateName : String} (h : IsCrateName crateName)
    (vars : List (String × String)) : (runOn crateName vars).ProperName := by
  intro crateName' hcrate
  obtain rfl : crateName = crateName' := Option.some.inj hcrate
  exact h

theorem runOn_schedule {crateName : String} {vars : List (String × String)}
    (hskip : vars.lookup "PCG_SKIP_FUNCTION" = none) :
    (runOn crateName vars).schedule = ⟨steps, none⟩ := bodiesSchedule_eq _ _ hskip

theorem runOn_returns {crateName : String} {vars : List (String × String)}
    (hskip : vars.lookup "PCG_SKIP_FUNCTION" = none)
    (hvalid : (runOn crateName vars).host.doBorrowckValid = true) :
    (runOn crateName vars).schedule.Returns (runOn crateName vars).host := by
  rw [runOn_schedule hskip]
  exact ⟨rfl, .inl hvalid⟩

theorem runOn_writesAs {crateName : String} {vars : List (String × String)}
    (hreturns : (runOn crateName vars).schedule.Returns (runOn crateName vars).host)
    (hlog : (envFeatureEnabled (runOn crateName vars).host.env "MUTANTS_LOG").isOk = true) :
    (runOn crateName vars).WritesAs crateName :=
  ⟨⟨rfl, hreturns, canVisualize _ _ _⟩, rfl, hlog⟩

end SampleRun

end MutationTesting.Driver
