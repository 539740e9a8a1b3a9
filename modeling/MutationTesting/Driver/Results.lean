/-
  MutationTesting.Driver.Results

  The files a run leaves in the results directory (the end of
  `run_mutation_tests` in `src/main.rs`).

  The name of both files is chosen by probing for the log file: the first of
  `krate`, `krate-0`, `krate-1`, .. whose log does not exist.  The paths are
  inside the results directory, so they are file names here.
-/
import MutationTesting.Driver.FileNames
import MutationTesting.Driver.Run
import MutationTesting.Rust.Probe

namespace MutationTesting.Driver

open MutationTesting.Rust MutationTesting.Mir MutationTesting.Pcg MutationTesting.Mutator

/-! ## The name of the files -/

/-- The loop that probes for a log file that does not exist. -/
def probeCrateName (dir : Directory) (crateName : String) :
    (fuel crateNameSuffix : Nat) → (uniqueCrateName : String) → Res String
  | 0, _, _ => .error .diverges
  | fuel + 1, crateNameSuffix, uniqueCrateName =>
    if mutantsLogPath uniqueCrateName ∈ dir then
      probeCrateName dir crateName fuel (crateNameSuffix + 1)
        (crateName ++ "-" ++ toString crateNameSuffix)
    else .ok uniqueCrateName

/-- `unique_crate_name`: no more names can be in use than there are files. -/
def uniqueCrateName (dir : Directory) (crateName : String) : Res String :=
  probeCrateName dir crateName (dir.keys.card + 1) 0 crateName

/-- The name depends on nothing but which files there are. -/
theorem uniqueCrateName_congr {dir dir' : Directory} (h : dir.keys = dir'.keys)
    (crateName : String) : uniqueCrateName dir crateName = uniqueCrateName dir' crateName := by
  have hmem : ∀ path, path ∈ dir ↔ path ∈ dir' := by
    intro path
    rw [← Finmap.mem_keys, h, Finmap.mem_keys]
  have hprobe : ∀ (fuel k : Nat) (name : String),
      probeCrateName dir crateName fuel k name = probeCrateName dir' crateName fuel k name := by
    intro fuel
    induction fuel with
    | zero => exact fun _ _ => rfl
    | succ fuel ih =>
      intro k name
      rw [probeCrateName, probeCrateName, ih]
      simp only [hmem]
  rw [uniqueCrateName, uniqueCrateName, h, hprobe]

/-- Probing goes through the candidate names. -/
theorem probeCrateName_eq (dir : Directory) (crateName : String) (fuel k : Nat) :
    probeCrateName dir crateName fuel k (candidateName crateName k) =
      match firstFree dir.keys (fun k => mutantsLogPath (candidateName crateName k)) fuel k with
      | some k => .ok (candidateName crateName k)
      | none => .error .diverges := by
  induction fuel generalizing k with
  | zero => rfl
  | succ fuel ih =>
    have hnext : crateName ++ "-" ++ toString k = candidateName crateName (k + 1) :=
      String.append_assoc
    rw [probeCrateName, firstFree, hnext, ih]
    simp only [Finmap.mem_keys]
    split <;> rfl

/-- The loop comes to an end, at the first candidate without a log. -/
theorem exists_uniqueCrateName (dir : Directory) {crateName : String}
    (h : IsCrateName crateName) : ∃ k,
    uniqueCrateName dir crateName = .ok (candidateName crateName k) ∧
    mutantsLogPath (candidateName crateName k) ∉ dir ∧
    ∀ j < k, mutantsLogPath (candidateName crateName j) ∈ dir := by
  have hinj : Function.Injective fun k => mutantsLogPath (candidateName crateName k) :=
    fun k l hkl => ((mutantsLogPath_inj h h).mp hkl).2
  obtain ⟨k, hk⟩ := exists_firstFree dir.keys hinj
  obtain ⟨-, -, hfree, hbefore⟩ := firstFree_eq_some.mp hk
  refine ⟨k, ?_, ?_, ?_⟩
  · have hfirst : candidateName crateName 0 = crateName := String.append_empty
    have hprobe := probeCrateName_eq dir crateName (dir.keys.card + 1) 0
    rw [hk, hfirst] at hprobe
    exact hprobe
  · rw [← Finmap.mem_keys]
    exact hfree
  · intro j hj
    rw [← Finmap.mem_keys]
    exact hbefore j (Nat.zero_le _) hj

/-! ## Writing -/

/-- `File::create`, which truncates a file that is there. -/
def createFile (path : String) : Unwind World Unit :=
  Unwind.modify fun w =>
    { w with resultsDir := w.resultsDir.insert path (.text ""), created := w.created ++ [path] }

/-- `write_all` to a new file. -/
def writeAll (path : String) (contents : Contents) : Unwind World Unit :=
  Unwind.modify fun w => { w with resultsDir := w.resultsDir.insert path contents }

/-- `File::create` and `write_all`. -/
def writeFile (path : String) (contents : Contents) : Unwind World Unit := do
  createFile path
  writeAll path contents

def cargoCrateName (env : Env) : Option String := env "CARGO_CRATE_NAME"

/-- Write the mutants log, if it is kept, and the results. -/
def writeResults (host : Host) : Unwind World Unit := do
  match cargoCrateName host.env with
  | none => pure ()
  | some crateName =>
    let w ← Unwind.get
    let name ← Unwind.ofRes (uniqueCrateName w.resultsDir crateName)
    match ← host.feature "MUTANTS_LOG" false with
    | true => writeFile (mutantsLogPath name) (.mutantsLog w.mutantsLog)
    | false => pure ()
    writeFile (mutatorResultsPath name) (.mutatorResults w.mutatorResults)

theorem writeFile_run (path : String) (contents : Contents) (w : World) :
    writeFile path contents w =
      (.ok (), { w with
        resultsDir := w.resultsDir.insert path contents
        created := w.created ++ [path] }) := by
  rw [writeFile, createFile, writeAll, Unwind.bind_run, Unwind.modify_run]
  simp

/-- The state after the files have been written. -/
def World.written (log : Bool) (name : String) (w : World) : World :=
  let logged :=
    if log then w.resultsDir.insert (mutantsLogPath name) (.mutantsLog w.mutantsLog)
    else w.resultsDir
  { w with
    resultsDir := logged.insert (mutatorResultsPath name) (.mutatorResults w.mutatorResults)
    created := w.created ++ (if log then [mutantsLogPath name] else []) ++
      [mutatorResultsPath name] }

theorem World.mem_created_written {log : Bool} {name path : String} {w : World}
    (hcreated : w.created = []) : path ∈ (w.written log name).created ↔
      path = mutatorResultsPath name ∨ (log = true ∧ path = mutantsLogPath name) := by
  simp only [written, hcreated]
  cases log with
  | false => simp
  | true => simp [or_comm]

theorem World.getLast?_created_written (log : Bool) (name : String) (w : World) :
    (w.written log name).created.getLast? = some (mutatorResultsPath name) := by
  simp [written]

theorem World.lookup_results_written (log : Bool) (name : String) (w : World) :
    (w.written log name).resultsDir.lookup (mutatorResultsPath name) =
      some (.mutatorResults (w.written log name).mutatorResults) := by
  simp [written]

/-- Other files than those created are left alone. -/
theorem World.lookup_written {log : Bool} {name path : String} {w : World}
    (hcreated : w.created = []) (h : path ∉ (w.written log name).created) :
    (w.written log name).resultsDir.lookup path = w.resultsDir.lookup path := by
  rw [mem_created_written hcreated, not_or] at h
  simp only [written]
  rw [Finmap.lookup_insert_of_ne _ h.1]
  cases log with
  | false => rfl
  | true =>
    have hlog : path ≠ mutantsLogPath name := fun heq => h.2 ⟨rfl, heq⟩
    rw [if_pos rfl, Finmap.lookup_insert_of_ne _ hlog]

theorem World.mem_written {log : Bool} {name path : String} {w : World}
    (hcreated : w.created = []) : path ∈ (w.written log name).resultsDir ↔
      path ∈ (w.written log name).created ∨ path ∈ w.resultsDir := by
  rw [mem_created_written hcreated]
  simp only [written, Finmap.mem_insert]
  cases log with
  | false => simp
  | true => simp [or_assoc]

/-- What a run that has created no file before writes as results are its results. -/
theorem World.results_of_written {log : Bool} {name path : String} {results : MutatorResults}
    {w : World} (hcreated : w.created = []) (hpath : path ∈ (w.written log name).created)
    (hfile : (w.written log name).resultsDir.lookup path = some (.mutatorResults results)) :
    results = w.mutatorResults := by
  simp only [written] at hpath hfile
  by_cases hresults : path = mutatorResultsPath name
  · rw [hresults, Finmap.lookup_insert] at hfile
    cases hfile
    rfl
  · rw [Finmap.lookup_insert_of_ne _ hresults] at hfile
    rw [hcreated] at hpath
    cases log with
    | false => simp [hresults] at hpath
    | true =>
      have hlog : path = mutantsLogPath name := by simpa [hresults] using hpath
      rw [if_pos rfl, hlog, Finmap.lookup_insert] at hfile
      cases hfile

theorem writeResults_run {host : Host} {crateName name : String} {enabled : Option Bool} {w : World}
    (hcrate : cargoCrateName host.env = some crateName)
    (hname : uniqueCrateName w.resultsDir crateName = .ok name)
    (henv : envFeatureEnabled host.env "MUTANTS_LOG" = .ok enabled) :
    writeResults host w = (.ok (), w.written (enabled.getD false) name) := by
  simp only [writeResults, hcrate, Unwind.bind_run, Unwind.get_run, Unwind.ofRes_run, hname,
    feature_run, henv, Except.map]
  rcases enabled with _ | _ | _
  · exact (writeFile_run _ _ w).trans (by simp [World.written])
  · exact (writeFile_run _ _ w).trans (by simp [World.written])
  · simp only [Option.getD_some, Unwind.bind_run, writeFile_run]
    simp [World.written]

/-- Writing changes neither of the aggregates. -/
theorem writeResults_preserves_aggregates (host : Host) (results : MutatorResults)
    (log : MutantsLog) :
    Unwind.Preserves (fun w => w.mutatorResults = results ∧ w.mutantsLog = log)
      (writeResults host) := by
  have hfile : ∀ path contents, Unwind.Preserves
      (fun w : World => w.mutatorResults = results ∧ w.mutantsLog = log)
      (writeFile path contents) := by
    intro path contents w hw
    rw [writeFile_run]
    exact hw
  unfold writeResults
  split
  · exact .pure ()
  · refine .bind .get fun w => .bind (.ofRes _) fun name => .bind ?_ fun enabled => ?_
    · exact .bind (.ofRes _) fun enabled => .pure _
    · split
      · exact .bind (hfile _ _) fun _ => hfile _ _
      · exact hfile _ _

/-- On an unexpected value of `MUTANTS_LOG` nothing is written. -/
theorem writeResults_of_invalid {host : Host} {e : Abort} (w : World)
    (henv : envFeatureEnabled host.env "MUTANTS_LOG" = .error e) : (writeResults host w).2 = w := by
  cases hcrate : cargoCrateName host.env with
  | none => simp only [writeResults, hcrate, Unwind.pure_run]
  | some crateName =>
    cases hname : uniqueCrateName w.resultsDir crateName with
    | error e =>
      simp only [writeResults, hcrate, Unwind.bind_run, Unwind.get_run, Unwind.ofRes_run, hname]
    | ok name =>
      simp only [writeResults, hcrate, Unwind.bind_run, Unwind.get_run, Unwind.ofRes_run, hname,
        feature_run, henv, Except.map]

/-- A run that has written its results has found a name, and knows whether to log. -/
theorem writeResults_inv {host : Host} {w w' : World} (h : writeResults host w = (.ok (), w')) :
    (cargoCrateName host.env = none ∧ w' = w) ∨
    ∃ crateName name enabled, cargoCrateName host.env = some crateName ∧
      uniqueCrateName w.resultsDir crateName = .ok name ∧
      envFeatureEnabled host.env "MUTANTS_LOG" = .ok enabled ∧
      w' = w.written (enabled.getD false) name := by
  cases hcrate : cargoCrateName host.env with
  | none =>
    simp only [writeResults, hcrate, Unwind.pure_run] at h
    cases h
    exact .inl ⟨rfl, rfl⟩
  | some crateName =>
    cases hname : uniqueCrateName w.resultsDir crateName with
    | error e =>
      simp only [writeResults, hcrate, Unwind.bind_run, Unwind.get_run, Unwind.ofRes_run,
        hname] at h
      cases h
    | ok name =>
      cases henv : envFeatureEnabled host.env "MUTANTS_LOG" with
      | error e =>
        simp only [writeResults, hcrate, Unwind.bind_run, Unwind.get_run, Unwind.ofRes_run,
          hname, feature_run, henv, Except.map] at h
        cases h
      | ok enabled =>
        rw [writeResults_run hcrate hname henv] at h
        cases h
        exact .inr ⟨crateName, name, enabled, rfl, hname, rfl, rfl⟩

end MutationTesting.Driver
