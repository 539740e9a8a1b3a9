/-
  MutationTesting.Driver.Session

  What a run of the tool reads and writes (`src/main.rs`, `src/errors/mod.rs`,
  `src/utils/mod.rs`, `src/lib.rs`).

  A `Host` is all that the tool asks others for: the environment, the pcg
  analysis, the borrow checker and the file system outside the results directory.
  The borrow checker may answer differently each time, so its answers are
  numbered by the mutants of the run.  A `World` is the state that outlives a
  mutant: the diagnostics of the compiler session, the thread-local record of
  error codes, the two aggregates, the passed bodies and the results directory.
-/
import MutationTesting.Mutator.Basic
import MutationTesting.Rust.Tally
import MutationTesting.Rust.Unwind
import Mathlib.Data.Finset.Insert

namespace MutationTesting.Driver

open MutationTesting.Rust MutationTesting.Mir MutationTesting.Pcg MutationTesting.Mutator

/-! ## Environment -/

/-- `std::env::var(name).ok()`. -/
abbrev Env := String → Option String

/-- `env_feature_enabled`. -/
def envFeatureEnabled (env : Env) (feature : String) : Res (Option Bool) :=
  match env feature with
  | none => .ok none
  | some val =>
    if val.isEmpty then .ok none
    else if val = "true" ∨ val = "1" then .ok (some true)
    else if val = "false" ∨ val = "0" then .ok (some false)
    else
      .error (.message (s!"Environment variable {feature} has unexpected value: '{val}'. " ++
        "Expected one of: true, false, 1, 0, or empty string"))

/-! ## The borrow checker -/

abbrev LocalDefId := Nat

/-- A diagnostic: its error code as text, and whether it is an error. -/
structure DiagInner where
  code : Option String
  isError : Bool

/-- How `do_mir_borrowck` ends. -/
inductive CheckOutcome where
  | tainted
  | passed
  | panicked
  deriving DecidableEq

/-- A call of `do_mir_borrowck`: what it emits, in order, and how it ends. -/
structure CheckRun where
  diagnostics : List DiagInner
  outcome : CheckOutcome

def CheckRun.codes (run : CheckRun) : List String := run.diagnostics.filterMap DiagInner.code

def CheckRun.errors (run : CheckRun) : Nat := run.diagnostics.countP DiagInner.isError

/-- The steps of the code under `catch_unwind` that may panic, next to the borrow
    check and `env_feature_enabled`. -/
inductive Point where
  | tracking
  | recording
  | conversion
  | entry
  | logging
  | reset
  deriving DecidableEq

/-- Where the visualization data goes. -/
inductive VisDir where
  | resultsDir
  | elsewhere
  /-- `functions.json` cannot be created there, or not written. -/
  | unwritable
  deriving DecidableEq

structure Host where
  env : Env
  /-- `run_pcg`, with the directory for the data of the item if there is one.
      The data is not among the files of the results directory. -/
  runPcg : Body → Option String → Res PcgOutput
  check : Nat → Body → CheckRun
  panics : Nat → Point → Bool
  /-- `format!("{def_id:?}")`. -/
  debugDefId : LocalDefId → String
  /-- `def_path_str`. -/
  defPathStr : LocalDefId → String
  /-- The directory that `PCG_VISUALIZATION_DATA_DIR` names. -/
  visDir : String → VisDir
  /-- The order in which the passed bodies are drained. -/
  drain : HashMap LocalDefId Body → List (LocalDefId × Body)
  drains_drain : ∀ bodies, HashMap.Drains (drain bodies) bodies

/-! ## Aggregates -/

structure MutatorData where
  instances : Int
  passed : Int
  failed : Int
  panicked : Int
  errorCodes : Finset String
  deriving DecidableEq

/-- The `MutatorData` a mutation starts with. -/
def MutatorData.zero : MutatorData := ⟨0, 0, 0, 0, ∅⟩

/-- The result of running the borrow checker on a mutant. -/
inductive BorrowCheckInfo where
  | noRun
  | passed
  | failed (errorCodes : Finset String)
  deriving DecidableEq

/-- What is recorded about each mutant if `MUTANTS_LOG` is set. -/
structure LogEntry where
  mutationType : String
  borrowCheckInfo : BorrowCheckInfo
  definition : String
  range : MutantRange
  info : String
  deriving DecidableEq

abbrev MutatorResults := HashMap String MutatorData

abbrev MutantsLog := IndexMap String LogEntry

/-- The contents of a file: JSON of one of the aggregates, of a map of each of the
    names to itself, or anything else. -/
inductive Contents where
  | mutatorResults (results : MutatorResults)
  | mutantsLog (log : MutantsLog)
  | functions (itemNames : Finset String)
  | text (text : String)

/-- The files of a directory under their names. -/
abbrev Directory := HashMap String Contents

/-! ## State -/

structure World where
  /-- The error count of the compiler session. -/
  errCount : Nat
  /-- Whether `TRACK_DIAGNOSTIC` holds `track_diagnostic`. -/
  tracking : Bool
  errorCodes : List String
  currentBody : Option LocalDefId
  mutatorResults : MutatorResults
  mutantsLog : MutantsLog
  passedBodies : HashMap LocalDefId Body
  resultsDir : Directory
  /-- Not in the source: the mutants processed so far, which number the answers
      of the host. -/
  mutants : Nat
  /-- Not in the source: the error count at the start of each borrow check. -/
  checkStarts : List Nat
  /-- Not in the source: whether the visualization has created `functions.json` in
      the results directory. -/
  visualized : Bool
  /-- Not in the source: the files created for the log and the results. -/
  created : List String

namespace World

/-- The state in which `run_mutation_tests` is entered. -/
def start (errCount : Nat) (resultsDir : Directory) : World where
  errCount := errCount
  tracking := false
  errorCodes := []
  currentBody := none
  mutatorResults := ∅
  mutantsLog := .empty
  passedBodies := ∅
  resultsDir := resultsDir
  mutants := 0
  checkStarts := []
  visualized := false
  created := []

/-- `track_body_error_codes`. -/
def trackBodyErrorCodes (defId : LocalDefId) (w : World) : World :=
  { w with currentBody := some defId, errorCodes := [] }

/-- `track_diagnostic`, before it reports the diagnostic. -/
def trackDiagnostic (d : DiagInner) (w : World) : World :=
  { w with errorCodes := w.errorCodes ++ d.code.toList }

/-- The compiler emits a diagnostic. -/
def emit (d : DiagInner) (w : World) : World :=
  let w := if w.tracking then w.trackDiagnostic d else w
  if d.isError then { w with errCount := w.errCount + 1 } else w

/-- `initialize_error_tracking`. -/
def initializeErrorTracking (w : World) : World := { w with tracking := true }

/-- `DiagCtxt::reset_err_count`. -/
def resetErrCount (w : World) : World := { w with errCount := 0 }

/-- Write through `mutator_data`, the entry of the current mutation. -/
def withData (name : String) (f : MutatorData → MutatorData) (w : World) : World :=
  { w with mutatorResults := w.mutatorResults.modify name f }

theorem withData_of_id {name : String} {f : MutatorData → MutatorData} (hf : ∀ data, f data = data)
    (w : World) : w.withData name f = w := by
  simp [withData, HashMap.modify_of_id _ _ hf]

end World

end MutationTesting.Driver
