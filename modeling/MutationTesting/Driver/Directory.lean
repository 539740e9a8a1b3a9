/-
  MutationTesting.Driver.Directory

  Runs of the tool that share a results directory.

  A run reserves the name of its files only by writing a log, so a crate's runs
  have names of their own as long as each but the last keeps its log.  The first
  results of a crate named `functions` share their file with the visualization.
-/
import MutationTesting.Driver.ToolRun

namespace MutationTesting.Driver

open MutationTesting.Rust MutationTesting.Mir MutationTesting.Pcg MutationTesting.Mutator

section

variable {σ : Type} [FiniteIterator σ Mutant]

/-- The states in which the runs end, one after the other in one directory. -/
def history : List (ToolRun σ) → Directory → List World
  | [], _ => []
  | run :: runs, dir => run.exec dir :: history runs (run.exec dir).resultsDir

/-- The directory after all runs. -/
def finalDir (runs : List (ToolRun σ)) (dir : Directory) : Directory :=
  runs.foldl (fun dir run => (run.exec dir).resultsDir) dir

/-- No run writes its log or its results into a file of an earlier run, and what each
    run has written as its results, into the last file it created, is there in the
    end. -/
structure Intact (runs : List (ToolRun σ)) (dir : Directory) : Prop where
  disjoint : (history runs dir).Pairwise fun w w' => w.files.Disjoint w'.created
  present : ∀ w ∈ history runs dir, ∀ path, w.created.getLast? = some path →
    (finalDir runs dir).lookup path = some (.mutatorResults w.mutatorResults)

/-- Each run that is followed by another of its crate keeps its log. -/
def KeepLogs (runs : List (ToolRun σ)) : Prop :=
  runs.Pairwise fun run later => ∀ crateName, run.WritesAs crateName →
    later.WritesAs crateName → run.host.keepsLog = true

theorem keepLogs_cons {run : ToolRun σ} {runs : List (ToolRun σ)} :
    KeepLogs (run :: runs) ↔
      (∀ later ∈ runs, ∀ crateName, run.WritesAs crateName → later.WritesAs crateName →
        run.host.keepsLog = true) ∧ KeepLogs runs :=
  List.pairwise_cons

/-- No run but the first of a crate named `functions` visualizes into the results
    directory, if there is such a run. -/
def FunctionsApart : List (ToolRun σ) → Prop
  | [] => True
  | run :: runs =>
    (run.WritesAs "functions" → ∀ later ∈ runs, ¬ later.Visualizes) ∧
    (¬ run.WritesAs "functions" →
      (run.Visualizes → ∀ later ∈ runs, ¬ later.WritesAs "functions") ∧ FunctionsApart runs)

/-- No run after one as `functions` visualizes into the results directory, unless there
    is a log of the name from the start. -/
def FunctionsStay (runs : List (ToolRun σ)) (dir : Directory) : Prop :=
  mutantsLogPath (candidateName "functions" 0) ∈ dir ∨
    runs.Pairwise fun run later => run.WritesAs "functions" → ¬ later.Visualizes

theorem functionsApart_of_not_writesAs {runs : List (ToolRun σ)}
    (h : ∀ run ∈ runs, ¬ run.WritesAs "functions") : FunctionsApart runs := by
  induction runs with
  | nil => trivial
  | cons run runs ih =>
    obtain ⟨hrun, hruns⟩ := List.forall_mem_cons.mp h
    exact ⟨fun hwrites => absurd hwrites hrun, fun _ => ⟨fun _ => hruns, ih hruns⟩⟩

/-! ## Files that are taken -/

/-- A file that no run creates is the same in the end. -/
theorem lookup_finalDir {runs : List (ToolRun σ)} (hproper : ∀ run ∈ runs, run.ProperName)
    {dir : Directory} {path : String} (h : ∀ w ∈ history runs dir, path ∉ w.files) :
    (finalDir runs dir).lookup path = dir.lookup path := by
  induction runs generalizing dir with
  | nil => rfl
  | cons run runs ih =>
    obtain ⟨hrun, hruns⟩ := List.forall_mem_cons.mp hproper
    obtain ⟨hhead, htail⟩ := List.forall_mem_cons.mp h
    have hrest := ih hruns htail
    rw [finalDir, List.foldl_cons, ← finalDir, hrest, ToolRun.lookup_exec hrun hhead]

/-- As long as no log takes the first free name of a crate, the next run of the
    crate takes it. -/
theorem exists_created_of_writesAs {runs : List (ToolRun σ)}
    (hproper : ∀ run ∈ runs, run.ProperName) (dir : Directory) {crateName : String}
    (hcrate : IsCrateName crateName) {k : Nat}
    (hfree : mutantsLogPath (candidateName crateName k) ∉ dir)
    (hbefore : ∀ j < k, mutantsLogPath (candidateName crateName j) ∈ dir)
    {run : ToolRun σ} (hmem : run ∈ runs) (hwrites : run.WritesAs crateName) :
    ∃ w ∈ history runs dir, mutatorResultsPath (candidateName crateName k) ∈ w.created := by
  induction runs generalizing dir with
  | nil => cases hmem
  | cons head runs ih =>
    obtain ⟨hhead, hruns⟩ := List.forall_mem_cons.mp hproper
    by_cases hown : head.WritesAs crateName
    · -- the run takes the first name that is free
      refine ⟨head.exec dir, List.mem_cons_self, ?_⟩
      rw [ToolRun.mem_created_exec_iff hhead]
      exact ⟨crateName, k, hown, hcrate, hfree, hbefore, .inl rfl⟩
    · have hlater : run ∈ runs := by
        rcases List.mem_cons.mp hmem with rfl | hlater
        · exact absurd hwrites hown
        · exact hlater
      have hlogs : ∀ j, mutantsLogPath (candidateName crateName j) ∈ (head.exec dir).resultsDir ↔
          mutantsLogPath (candidateName crateName j) ∈ dir := ToolRun.log_mem_exec hhead hcrate hown
      obtain ⟨w, hw, hpath⟩ := ih hruns (head.exec dir).resultsDir
        (fun hlog => hfree ((hlogs k).mp hlog)) (fun j hj => (hlogs j).mpr (hbefore j hj)) hlater
      exact ⟨w, List.mem_cons_of_mem _ hw, hpath⟩

/-- A name whose log is there, or whose crate is not run again, is not taken. -/
theorem not_created {runs : List (ToolRun σ)} (hproper : ∀ run ∈ runs, run.ProperName)
    {dir : Directory} {crateName : String} (hcrate : IsCrateName crateName) {k : Nat}
    (h : mutantsLogPath (candidateName crateName k) ∈ dir ∨
      ∀ run ∈ runs, ¬ run.WritesAs crateName) :
    ∀ w ∈ history runs dir, mutatorResultsPath (candidateName crateName k) ∉ w.created ∧
      mutantsLogPath (candidateName crateName k) ∉ w.created := by
  induction runs generalizing dir with
  | nil =>
    intro w hw
    cases hw
  | cons head runs ih =>
    obtain ⟨hhead, hruns⟩ := List.forall_mem_cons.mp hproper
    rw [history, List.forall_mem_cons]
    constructor
    · -- the run would have taken a name that is not free
      have htaken : head.WritesAs crateName → mutantsLogPath (candidateName crateName k) ∉ dir →
          False := by
        intro hwrites hfree
        rcases h with hlog | hnot
        · exact hfree hlog
        · exact hnot head List.mem_cons_self hwrites
      rw [ToolRun.mem_created_exec_iff hhead, ToolRun.mem_created_exec_iff hhead]
      constructor
      · rintro ⟨c, l, hwrites, hc, hfree, -, hresults | ⟨-, hlog⟩⟩
        · obtain ⟨rfl, rfl⟩ := (mutatorResultsPath_inj hcrate hc).mp hresults
          exact htaken hwrites hfree
        · exact mutantsLogPath_ne_mutatorResultsPath hc hcrate hlog.symm
      · rintro ⟨c, l, hwrites, hc, hfree, -, hresults | ⟨-, hlog⟩⟩
        · exact mutantsLogPath_ne_mutatorResultsPath hcrate hc hresults
        · obtain ⟨rfl, rfl⟩ := (mutantsLogPath_inj hcrate hc).mp hlog
          exact htaken hwrites hfree
    · refine ih hruns (h.imp ?_ ?_)
      · intro hlog
        exact (ToolRun.mem_exec hhead).mpr (.inr hlog)
      · intro hnot run hmem
        exact hnot run (List.mem_cons_of_mem _ hmem)

/-- A run whose files are not created again keeps its log, if its crate is run
    again: without a log the next run of the crate would take its name. -/
theorem keepsLog_of_disjoint {run : ToolRun σ} {runs : List (ToolRun σ)}
    (hrun : run.ProperName) (hruns : ∀ run ∈ runs, run.ProperName) {dir : Directory}
    (hdisjoint : ∀ w ∈ history runs (run.exec dir).resultsDir,
      (run.exec dir).created.Disjoint w.created)
    {later : ToolRun σ} (hlater : later ∈ runs) {crateName : String}
    (hwrites : run.WritesAs crateName) (hwrites' : later.WritesAs crateName) :
    run.host.keepsLog = true := by
  have hcrate := hrun crateName hwrites.crateName_eq
  obtain ⟨k, -, hfree, hbefore⟩ := exists_uniqueCrateName dir hcrate
  by_contra hkeeps
  have hresults : mutatorResultsPath (candidateName crateName k) ∈ (run.exec dir).created :=
    (ToolRun.mem_created_exec_iff hrun).mpr
      ⟨crateName, k, hwrites, hcrate, hfree, hbefore, .inl rfl⟩
  have hlogs : ∀ j, mutantsLogPath (candidateName crateName j) ∈ (run.exec dir).resultsDir ↔
      mutantsLogPath (candidateName crateName j) ∈ dir := by
    intro j
    rw [ToolRun.mem_exec hrun, or_iff_right]
    rw [World.mem_files, ToolRun.mem_created_exec_iff hrun]
    rintro (⟨-, hfunctions⟩ | ⟨c, l, -, hc, -, -, hpath | ⟨hlog, -⟩⟩)
    · exact mutantsLogPath_ne_functionsPath hcrate j hfunctions
    · exact mutantsLogPath_ne_mutatorResultsPath hcrate hc hpath
    · exact hkeeps hlog
  obtain ⟨w, hw, hagain⟩ := exists_created_of_writesAs hruns _ hcrate
    (fun hlog => hfree ((hlogs k).mp hlog)) (fun j hj => (hlogs j).mpr (hbefore j hj))
    hlater hwrites'
  exact hdisjoint w hw hresults hagain

/-- The files of a run are not created again if it keeps its log or its crate is
    not run again. -/
theorem disjoint_of_keepsLog {run : ToolRun σ} {runs : List (ToolRun σ)}
    (hrun : run.ProperName) (hruns : ∀ run ∈ runs, run.ProperName) (dir : Directory)
    (hkeeps : ∀ later ∈ runs, ∀ crateName, run.WritesAs crateName →
      later.WritesAs crateName → run.host.keepsLog = true) :
    ∀ w ∈ history runs (run.exec dir).resultsDir, (run.exec dir).created.Disjoint w.created := by
  intro w hw path hpath hagain
  obtain ⟨c, k, hwrites, hcrate, hfree, hbefore, htaken⟩ :=
    (ToolRun.mem_created_exec_iff hrun).mp hpath
  -- the log, or the lack of a later run of the crate, reserves the name
  have hreserved : mutantsLogPath (candidateName c k) ∈ (run.exec dir).resultsDir ∨
      ∀ later ∈ runs, ¬ later.WritesAs c := by
    by_cases hlog : run.host.keepsLog = true
    · left
      rw [ToolRun.mem_exec hrun, World.mem_files, ToolRun.mem_created_exec_iff hrun]
      exact .inl (.inr ⟨c, k, hwrites, hcrate, hfree, hbefore, .inr ⟨hlog, rfl⟩⟩)
    · right
      intro later hlater hwrites'
      exact hlog (hkeeps later hlater c hwrites hwrites')
  obtain ⟨hresults, hlog⟩ := not_created hruns hcrate hreserved w hw
  rcases htaken with rfl | ⟨-, rfl⟩
  · exact hresults hagain
  · exact hlog hagain

/-! ## Results that stay -/

theorem exists_visualized_iff {runs : List (ToolRun σ)} (hproper : ∀ run ∈ runs, run.ProperName)
    {dir : Directory} :
    (∃ w ∈ history runs dir, w.visualized = true) ↔ ∃ run ∈ runs, run.Visualizes := by
  induction runs generalizing dir with
  | nil => simp [history]
  | cons run runs ih =>
    obtain ⟨hrun, hruns⟩ := List.forall_mem_cons.mp hproper
    rw [history, List.exists_mem_cons_iff, List.exists_mem_cons_iff, ih hruns,
      ToolRun.visualized_exec_iff hrun]

/-- The names of a visualization stay until results are written over them. -/
theorem exists_lookup_functions {runs : List (ToolRun σ)}
    (hproper : ∀ run ∈ runs, run.ProperName) {dir : Directory}
    (hcreated : ∀ w ∈ history runs dir, functionsPath ∉ w.created)
    (h : (∃ run ∈ runs, run.Visualizes) ∨
      ∃ itemNames, dir.lookup functionsPath = some (.functions itemNames)) :
    ∃ itemNames, (finalDir runs dir).lookup functionsPath = some (.functions itemNames) := by
  induction runs generalizing dir with
  | nil =>
    rcases h with ⟨run, hrun, -⟩ | hnames
    · cases hrun
    · exact hnames
  | cons run runs ih =>
    obtain ⟨hrun, hruns⟩ := List.forall_mem_cons.mp hproper
    obtain ⟨hhead, htail⟩ := List.forall_mem_cons.mp hcreated
    rw [finalDir, List.foldl_cons, ← finalDir]
    refine ih hruns htail ?_
    by_cases hvisual : run.Visualizes
    · exact .inr (ToolRun.lookup_functionsPath hrun hvisual hhead)
    · rcases h with ⟨later, hlater, hvisual'⟩ | ⟨itemNames, hnames⟩
      · rcases List.mem_cons.mp hlater with rfl | hlater
        · exact absurd hvisual' hvisual
        · exact .inl ⟨later, hlater, hvisual'⟩
      · right
        refine ⟨itemNames, ?_⟩
        rw [ToolRun.lookup_exec hrun, hnames]
        rw [World.mem_files, ToolRun.visualized_exec_iff hrun]
        rintro (⟨hvisual', -⟩ | hagain)
        · exact hvisual hvisual'
        · exact hhead hagain

/-- The results of a run stay if their file is not created again, by writing or by
    visualizing. -/
theorem lookup_last_finalDir {run : ToolRun σ} {runs : List (ToolRun σ)} (hrun : run.ProperName)
    (hruns : ∀ run ∈ runs, run.ProperName) {dir : Directory}
    (hdisjoint : ∀ w ∈ history runs (run.exec dir).resultsDir,
      (run.exec dir).created.Disjoint w.created)
    (hvisual : functionsPath ∈ (run.exec dir).created → ∀ later ∈ runs, ¬ later.Visualizes)
    {path : String} (hlast : (run.exec dir).created.getLast? = some path) :
    (finalDir runs (run.exec dir).resultsDir).lookup path =
      some (.mutatorResults (run.exec dir).mutatorResults) := by
  have hmem := List.mem_of_getLast? hlast
  rw [lookup_finalDir hruns, ToolRun.lookup_last hrun hlast]
  intro w hw hagain
  rcases World.mem_files.mp hagain with ⟨hvisualized, rfl⟩ | hagain
  · obtain ⟨later, hlater, hvisual'⟩ := (exists_visualized_iff hruns).mp ⟨w, hw, hvisualized⟩
    exact hvisual hmem later hlater hvisual'
  · exact hdisjoint w hw hmem hagain

/-- With distinct names, and no visualization after the results of a crate named
    `functions`, the results of all runs stay. -/
theorem results_stay {runs : List (ToolRun σ)} (hproper : ∀ run ∈ runs, run.ProperName)
    {dir : Directory} (hkeeps : KeepLogs runs) (hvisual : FunctionsStay runs dir) :
    (history runs dir).Pairwise (fun w w' => w.created.Disjoint w'.created) ∧
    ∀ w ∈ history runs dir, ∀ path, w.created.getLast? = some path →
      (finalDir runs dir).lookup path = some (.mutatorResults w.mutatorResults) := by
  induction runs generalizing dir with
  | nil =>
    refine ⟨List.Pairwise.nil, ?_⟩
    intro w hw
    cases hw
  | cons run runs ih =>
    obtain ⟨hrun, hruns⟩ := List.forall_mem_cons.mp hproper
    obtain ⟨hhead, hkeeps⟩ := keepLogs_cons.mp hkeeps
    have hdisjoint := disjoint_of_keepsLog hrun hruns dir hhead
    have htail : FunctionsStay runs (run.exec dir).resultsDir := by
      refine hvisual.imp (fun hlog => ?_) fun hpairwise => (List.pairwise_cons.mp hpairwise).2
      exact (ToolRun.mem_exec hrun).mpr (.inr hlog)
    obtain ⟨hdisjoint', hpresent⟩ := ih hruns hkeeps htail
    refine ⟨List.pairwise_cons.mpr ⟨hdisjoint, hdisjoint'⟩, ?_⟩
    rw [history, List.forall_mem_cons]
    refine ⟨fun path hlast => ?_, hpresent⟩
    refine lookup_last_finalDir hrun hruns hdisjoint (fun hfunctions => ?_) hlast
    obtain ⟨hwrites, hfree⟩ := (ToolRun.functionsPath_mem_created_iff hrun).mp hfunctions
    rcases hvisual with hlog | hpairwise
    · exact absurd hlog hfree
    · exact fun later hlater => (List.pairwise_cons.mp hpairwise).1 later hlater hwrites

/-! ## Intact runs -/

theorem intact_cons {run : ToolRun σ} {runs : List (ToolRun σ)} {dir : Directory} :
    Intact (run :: runs) dir ↔
      (∀ w ∈ history runs (run.exec dir).resultsDir, (run.exec dir).files.Disjoint w.created) ∧
      (∀ path, (run.exec dir).created.getLast? = some path →
        (finalDir runs (run.exec dir).resultsDir).lookup path =
          some (.mutatorResults (run.exec dir).mutatorResults)) ∧
      Intact runs (run.exec dir).resultsDir := by
  constructor
  · rintro ⟨hdisjoint, hpresent⟩
    rw [history, List.pairwise_cons] at hdisjoint
    rw [history, List.forall_mem_cons] at hpresent
    exact ⟨hdisjoint.1, hpresent.1, hdisjoint.2, hpresent.2⟩
  · rintro ⟨hhead, hpresent, hdisjoint, htail⟩
    exact ⟨List.pairwise_cons.mpr ⟨hhead, hdisjoint⟩, List.forall_mem_cons.mpr ⟨hpresent, htail⟩⟩

/-- What the runs after it do to the files of a run. -/
theorem head_intact_iff {run : ToolRun σ} {runs : List (ToolRun σ)} (hrun : run.ProperName)
    (hruns : ∀ run ∈ runs, run.ProperName) (dir : Directory) :
    ((∀ w ∈ history runs (run.exec dir).resultsDir, (run.exec dir).files.Disjoint w.created) ∧
      ∀ path, (run.exec dir).created.getLast? = some path →
        (finalDir runs (run.exec dir).resultsDir).lookup path =
          some (.mutatorResults (run.exec dir).mutatorResults)) ↔
    (∀ later ∈ runs, ∀ crateName, run.WritesAs crateName → later.WritesAs crateName →
      run.host.keepsLog = true) ∧
    (mutantsLogPath (candidateName "functions" 0) ∈ dir ∨
      (run.WritesAs "functions" → ∀ later ∈ runs, ¬ later.Visualizes) ∧
      (¬ run.WritesAs "functions" → run.Visualizes →
        ∀ later ∈ runs, ¬ later.WritesAs "functions")) := by
  have hfunctions : IsCrateName "functions" := isCrateName_of_all (by decide)
  constructor
  · rintro ⟨hdisjoint, hpresent⟩
    have hcreated : ∀ w ∈ history runs (run.exec dir).resultsDir,
        (run.exec dir).created.Disjoint w.created := fun w hw path hpath =>
      hdisjoint w hw (World.mem_files.mpr (.inr hpath))
    refine ⟨fun later hlater crateName => keepsLog_of_disjoint hrun hruns hcreated hlater, ?_⟩
    by_cases hlog : mutantsLogPath (candidateName "functions" 0) ∈ dir
    · exact .inl hlog
    refine .inr ⟨fun hwrites later hlater hvisual => ?_,
      fun hother hvisual later hlater hwrites => ?_⟩
    · -- the names would be where the results are to be
      have hmem := (ToolRun.functionsPath_mem_created_iff hrun).mpr ⟨hwrites, hlog⟩
      obtain ⟨itemNames, hnames⟩ := exists_lookup_functions hruns
        (fun w hw hagain => hcreated w hw hmem hagain) (.inl ⟨later, hlater, hvisual⟩)
      rw [hpresent _ (ToolRun.getLast?_created_of_functionsPath_mem hrun hmem)] at hnames
      cases hnames
    · -- the later run would take the first name
      obtain ⟨w, hw, hagain⟩ := exists_created_of_writesAs hruns (run.exec dir).resultsDir
        hfunctions (k := 0) (fun hlog' => hlog ((ToolRun.log_mem_exec hrun hfunctions hother 0).mp
          hlog')) (by simp) hlater hwrites
      rw [← functionsPath_eq] at hagain
      exact hdisjoint w hw (World.mem_files.mpr
        (.inl ⟨(ToolRun.visualized_exec_iff hrun).mpr hvisual, rfl⟩)) hagain
  · rintro ⟨hkeeps, hapart⟩
    have hcreated := disjoint_of_keepsLog hrun hruns dir hkeeps
    constructor
    · intro w hw path hpath hagain
      rcases World.mem_files.mp hpath with ⟨hvisualized, rfl⟩ | hpath
      · have hvisual := (ToolRun.visualized_exec_iff hrun).mp hvisualized
        have hfree : mutantsLogPath (candidateName "functions" 0) ∈ (run.exec dir).resultsDir ∨
            (∀ later ∈ runs, ¬ later.WritesAs "functions") →
            functionsPath ∉ w.created := by
          intro hreserved
          rw [functionsPath_eq]
          exact (not_created hruns hfunctions hreserved w hw).1
        rcases hapart with hlog | ⟨-, hother⟩
        · exact hfree (.inl ((ToolRun.mem_exec hrun).mpr (.inr hlog))) hagain
        by_cases hlog : mutantsLogPath (candidateName "functions" 0) ∈ dir
        · exact hfree (.inl ((ToolRun.mem_exec hrun).mpr (.inr hlog))) hagain
        by_cases hwrites : run.WritesAs "functions"
        · exact hcreated w hw ((ToolRun.functionsPath_mem_created_iff hrun).mpr ⟨hwrites, hlog⟩)
            hagain
        · exact hfree (.inr (hother hwrites hvisual)) hagain
      · exact hcreated w hw hpath hagain
    · intro path hlast
      refine lookup_last_finalDir hrun hruns hcreated (fun hmem => ?_) hlast
      obtain ⟨hwrites, hfree⟩ := (ToolRun.functionsPath_mem_created_iff hrun).mp hmem
      rcases hapart with hlog | ⟨hlater, -⟩
      · exact absurd hlog hfree
      · exact hlater hwrites

/-- No run destroys what another has written just as long as each run that is
    followed by another of its crate keeps its log, and no visualization shares
    `functions.json` with the first results of a crate named so. -/
theorem results_intact_iff {runs : List (ToolRun σ)} (hproper : ∀ run ∈ runs, run.ProperName)
    (dir : Directory) :
    Intact runs dir ↔ KeepLogs runs ∧
      (mutantsLogPath (candidateName "functions" 0) ∈ dir ∨ FunctionsApart runs) := by
  have hfunctions : IsCrateName "functions" := isCrateName_of_all (by decide)
  induction runs generalizing dir with
  | nil =>
    refine iff_of_true ⟨List.Pairwise.nil, ?_⟩ ⟨List.Pairwise.nil, .inr trivial⟩
    intro w hw
    cases hw
  | cons run runs ih =>
    obtain ⟨hrun, hruns⟩ := List.forall_mem_cons.mp hproper
    have htail := ih hruns (run.exec dir).resultsDir
    rw [intact_cons, ← and_assoc, head_intact_iff hrun hruns, keepLogs_cons]
    by_cases hlog : mutantsLogPath (candidateName "functions" 0) ∈ dir
    · have hlog' : mutantsLogPath (candidateName "functions" 0) ∈ (run.exec dir).resultsDir :=
        (ToolRun.mem_exec hrun).mpr (.inr hlog)
      simp only [htail, hlog, hlog', true_or, and_true]
    by_cases hwrites : run.WritesAs "functions"
    · -- the log of the first results, or the lack of more of them, settles the rest
      have hrest : (∀ later ∈ runs, ∀ crateName, run.WritesAs crateName →
          later.WritesAs crateName → run.host.keepsLog = true) →
          mutantsLogPath (candidateName "functions" 0) ∈ (run.exec dir).resultsDir ∨
            FunctionsApart runs := by
        intro hkeeps
        by_cases hlogs : run.host.keepsLog = true
        · left
          rw [ToolRun.mem_exec hrun, World.mem_files, ToolRun.mem_created_exec_iff hrun]
          exact .inl (.inr ⟨"functions", 0, hwrites, hfunctions, hlog, by simp, .inr ⟨hlogs, rfl⟩⟩)
        · exact .inr (functionsApart_of_not_writesAs fun later hlater hwrites' =>
            hlogs (hkeeps later hlater _ hwrites hwrites'))
      simp only [htail, FunctionsApart, hlog, hwrites, false_or, true_imp_iff, not_true_eq_false,
        false_imp_iff, and_true]
      constructor
      · rintro ⟨⟨hkeeps, hlater⟩, hlogs, -⟩
        exact ⟨⟨hkeeps, hlogs⟩, hlater⟩
      · rintro ⟨⟨hkeeps, hlogs⟩, hlater⟩
        exact ⟨⟨hkeeps, hlater⟩, hlogs, hrest hkeeps⟩
    · have hlogs : mutantsLogPath (candidateName "functions" 0) ∈ (run.exec dir).resultsDir ↔
          mutantsLogPath (candidateName "functions" 0) ∈ dir :=
        ToolRun.log_mem_exec hrun hfunctions hwrites 0
      simp only [htail, FunctionsApart, hlog, hlogs, hwrites, false_or, false_imp_iff,
        not_false_eq_true, true_imp_iff, true_and]
      exact and_and_and_comm

end

/-- The second of two runs on a crate, both without a log, overwrites the results
    of the first. -/
theorem not_results_intact : ¬ ∀ (runs : List (ToolRun MutantStream)) (dir : Directory),
    (∀ run ∈ runs, run.ProperName) → Intact runs dir := by
  intro h
  have hproper : (SampleRun.runOn "a" []).ProperName :=
    SampleRun.runOn_properName (isCrateName_of_all (by decide)) []
  have hintact := h [SampleRun.runOn "a" [], SampleRun.runOn "a" []] ∅ (by simp [hproper])
  have hwrites : (SampleRun.runOn "a" []).WritesAs "a" :=
    SampleRun.runOn_writesAs (SampleRun.runOn_returns rfl rfl) rfl
  have hlater : ∀ run ∈ [SampleRun.runOn "a" []], run.ProperName := by simp [hproper]
  have hdisjoint := (intact_cons.mp hintact).1
  have hkeeps := keepsLog_of_disjoint hproper hlater
    (fun w hw path hpath => hdisjoint w hw (World.mem_files.mpr (.inr hpath)))
    (List.mem_singleton.mpr rfl) hwrites hwrites
  cases hkeeps

namespace SampleRun

/-- A crate named `functions` that visualizes into the results directory, and two runs
    on another crate, which keep their logs. -/
def runsWithLogs : List (ToolRun MutantStream) :=
  [runOn "functions" [("PCG_VISUALIZATION_DATA_DIR", "results")],
    runOn "a" [("MUTANTS_LOG", "1")],
    runOn "a" [("MUTANTS_LOG", "true"), ("PCG_VISUALIZATION_DATA_DIR", "target")]]

theorem keepLogs_runsWithLogs : KeepLogs runsWithLogs := by
  have hdistinct : ∀ (vars vars' : List (String × String)) (crateName : String),
      (runOn "functions" vars).WritesAs crateName → ¬ (runOn "a" vars').WritesAs crateName := by
    intro vars vars' crateName hwrites hwrites'
    have hname : "functions" = crateName := Option.some.inj hwrites.crateName_eq
    have hname' : "a" = crateName := Option.some.inj hwrites'.crateName_eq
    exact absurd (hname.trans hname'.symm) (by decide)
  refine keepLogs_cons.mpr ⟨?_, List.pairwise_pair.mpr fun _ _ _ => rfl⟩
  simp only [List.mem_cons, List.not_mem_nil, or_false, forall_eq_or_imp, forall_eq]
  exact ⟨fun c hwrites hwrites' => absurd hwrites' (hdistinct _ _ c hwrites),
    fun c hwrites hwrites' => absurd hwrites' (hdistinct _ _ c hwrites)⟩

theorem functionsApart_runsWithLogs : FunctionsApart runsWithLogs := by
  have hwrites : (runOn "functions" [("PCG_VISUALIZATION_DATA_DIR", "results")]).WritesAs
      "functions" := runOn_writesAs (runOn_returns rfl rfl) rfl
  refine ⟨fun _ => ?_, fun hnot => absurd hwrites hnot⟩
  simp only [List.mem_cons, List.not_mem_nil, or_false, forall_eq_or_imp, forall_eq]
  constructor
  · intro hvisual
    cases hvisual.results
  · intro hvisual
    cases hvisual.results

end SampleRun

/-- Two runs on a crate that keep their logs have files of their own, and a crate named
    `functions` overwrites the names of its own visualization only. -/
theorem results_intact_sample : Intact SampleRun.runsWithLogs ∅ := by
  have hproper : ∀ run ∈ SampleRun.runsWithLogs, run.ProperName := by
    have hnames : IsCrateName "functions" ∧ IsCrateName "a" :=
      ⟨isCrateName_of_all (by decide), isCrateName_of_all (by decide)⟩
    simp [SampleRun.runsWithLogs, SampleRun.runOn_properName, hnames]
  exact (results_intact_iff hproper ∅).mpr
    ⟨SampleRun.keepLogs_runsWithLogs, .inr SampleRun.functionsApart_runsWithLogs⟩

end MutationTesting.Driver
