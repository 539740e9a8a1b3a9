/-
  MutationTesting.Driver.Visualization

  The visualization data (the middle of `run_mutation_tests` in `src/main.rs`).

  If `PCG_VISUALIZATION_DATA_DIR` is set, the passed bodies are analysed once
  more, and their names are written to `functions.json` in that directory, before
  the results are written.  The directory may be the results directory, where a
  crate named `functions` has its results in a file of this name.
-/
import MutationTesting.Driver.Course

namespace MutationTesting.Driver

open MutationTesting.Rust MutationTesting.Mir MutationTesting.Pcg MutationTesting.Mutator

/-- The file with the names of the passed bodies. -/
def functionsPath : String := "functions.json"

/-- The loop over the passed bodies, up to the names it gathers. -/
def visualizeBodies (host : Host) (visDir : String) (passedBodies : HashMap LocalDefId Body) :
    Res (List String) :=
  (host.drain passedBodies).mapM fun passed => do
    let itemName := host.defPathStr passed.1
    let itemDir := s!"{visDir}/{itemName}"
    let _ ← host.runPcg passed.2 (some itemDir)
    return itemName

/-- `File::create` and `write_all` of the names, as far as the results directory
    goes. -/
def writeFunctions (visDir : VisDir) (itemNames : List String) : Unwind World Unit :=
  match visDir with
  | .unwritable => throw (.message "Failed to create JSON file")
  | .elsewhere => pure ()
  | .resultsDir => Unwind.modify fun w =>
      { w with
        resultsDir := w.resultsDir.insert functionsPath (.functions itemNames.toFinset)
        visualized := true }

/-- Visualize the passed bodies, which nothing reads after that. -/
def writeVisualization (host : Host) : Unwind World Unit := do
  match host.env "PCG_VISUALIZATION_DATA_DIR" with
  | none => pure ()
  | some visDir =>
    let w ← Unwind.get
    let itemNames ← Unwind.ofRes (visualizeBodies host visDir w.passedBodies)
    writeFunctions (host.visDir visDir) itemNames

/-! ## Whether it returns -/

namespace Host

/-- If visualization data is asked for, the passed bodies can be analysed and their
    names be written. -/
def CanVisualize (host : Host) (passedBodies : HashMap LocalDefId Body) : Prop :=
  ∀ visDir, host.env "PCG_VISUALIZATION_DATA_DIR" = some visDir →
    (∀ defId body, passedBodies.lookup defId = some body →
      (host.runPcg body (some s!"{visDir}/{host.defPathStr defId}")).isOk) ∧
    host.visDir visDir ≠ .unwritable

/-- The data goes to the results directory. -/
def visualizesResults (host : Host) : Bool :=
  match host.env "PCG_VISUALIZATION_DATA_DIR" with
  | none => false
  | some visDir => host.visDir visDir = .resultsDir

theorem canVisualize_of_env_none {host : Host} (henv : host.env "PCG_VISUALIZATION_DATA_DIR" = none)
    (passedBodies : HashMap LocalDefId Body) : host.CanVisualize passedBodies := by
  intro visDir hvisDir
  rw [henv] at hvisDir
  cases hvisDir

end Host

theorem visualizeBodies_isOk_iff {host : Host} {visDir : String}
    {passedBodies : HashMap LocalDefId Body} :
    (visualizeBodies host visDir passedBodies).isOk = true ↔
      ∀ defId body, passedBodies.lookup defId = some body →
        (host.runPcg body (some s!"{visDir}/{host.defPathStr defId}")).isOk = true := by
  have hdrains := host.drains_drain passedBodies
  constructor
  · intro hok defId body hlookup
    obtain ⟨itemNames, hitemNames⟩ := Res.isOk_eq_true.mp hok
    have hmem := (hdrains.mem_iff (defId, body)).mpr hlookup
    obtain ⟨itemName, -, hitem⟩ := Res.exists_mem_of_mapM hitemNames hmem
    obtain ⟨analysis, hanalysis, -⟩ := Res.bind_inv hitem
    exact Res.isOk_eq_true.mpr ⟨analysis, hanalysis⟩
  · intro hok
    refine Res.isOk_eq_true.mpr (Res.mapM_isOk fun passed hpassed => ?_)
    obtain ⟨analysis, hanalysis⟩ :=
      Res.isOk_eq_true.mp (hok passed.1 passed.2 ((hdrains.mem_iff passed).mp hpassed))
    refine ⟨host.defPathStr passed.1, ?_⟩
    simp only [hanalysis]
    rfl

/-- The state after the names have been written, to the results directory or
    elsewhere. -/
def World.withFunctions (host : Host) (itemNames : List String) (w : World) : World :=
  { w with
    resultsDir :=
      if host.visualizesResults then
        w.resultsDir.insert functionsPath (.functions itemNames.toFinset)
      else w.resultsDir
    visualized := w.visualized || host.visualizesResults }

/-- The visualization panics with nothing written, or writes the names. -/
theorem writeVisualization_cases (host : Host) (w : World) :
    (¬ host.CanVisualize w.passedBodies ∧ ∃ e, writeVisualization host w = (.error e, w)) ∨
    (host.CanVisualize w.passedBodies ∧ ∃ itemNames,
      writeVisualization host w = (.ok (), w.withFunctions host itemNames)) := by
  cases henv : host.env "PCG_VISUALIZATION_DATA_DIR" with
  | none =>
    refine .inr ⟨Host.canVisualize_of_env_none henv _, [], ?_⟩
    simp only [writeVisualization, henv, World.withFunctions, Host.visualizesResults,
      Unwind.pure_run, Bool.false_eq_true, if_false, Bool.or_false]
  | some visDir =>
    have hcan : host.CanVisualize w.passedBodies ↔
        (visualizeBodies host visDir w.passedBodies).isOk = true ∧
          host.visDir visDir ≠ .unwritable := by
      rw [visualizeBodies_isOk_iff]
      constructor
      · exact fun h => h visDir henv
      · intro h visDir' henv'
        obtain rfl := Option.some.inj (henv.symm.trans henv')
        exact h
    rw [hcan]
    simp only [writeVisualization, henv, World.withFunctions, Host.visualizesResults,
      Unwind.bind_run, Unwind.get_run, Unwind.ofRes_run]
    cases visualizeBodies host visDir w.passedBodies with
    | error e => exact .inl ⟨fun h => Bool.false_ne_true h.1, e, rfl⟩
    | ok itemNames =>
      cases host.visDir visDir with
      | unwritable => exact .inl ⟨fun h => h.2 rfl, _, rfl⟩
      | elsewhere => exact .inr ⟨⟨rfl, by simp⟩, itemNames, by simp [writeFunctions]⟩
      | resultsDir => exact .inr ⟨⟨rfl, by simp⟩, itemNames, by simp [writeFunctions]⟩

theorem writeVisualization_inv {host : Host} {w w' : World}
    (h : writeVisualization host w = (.ok (), w')) : ∃ itemNames,
    w' = w.withFunctions host itemNames := by
  rcases writeVisualization_cases host w with ⟨-, e, hrun⟩ | ⟨-, itemNames, hrun⟩
  · rw [hrun] at h
    cases h
  · rw [hrun] at h
    cases h
    exact ⟨itemNames, rfl⟩

/-- Visualizing changes neither of the aggregates. -/
theorem writeVisualization_preserves_aggregates (host : Host) (results : MutatorResults)
    (log : MutantsLog) :
    Unwind.Preserves (fun w => w.mutatorResults = results ∧ w.mutantsLog = log)
      (writeVisualization host) := by
  intro w hw
  rcases writeVisualization_cases host w with ⟨-, e, hrun⟩ | ⟨-, itemNames, hrun⟩
  · rw [hrun]
    exact hw
  · rw [hrun]
    exact hw

end MutationTesting.Driver
