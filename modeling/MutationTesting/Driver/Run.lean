/-
  MutationTesting.Driver.Run

  The loop of the tool over the mutants of a body
  (`run_mutation_tests_for_body` in `src/main.rs`).

  The code under `catch_unwind` is `testMutant`; its first half,
  `borrowckMutant`, runs the borrow checker and counts the verdict, its second
  half, `logMutant`, logs the mutant and resets the error count.  A panic leaves
  every write before it in place.
-/
import MutationTesting.Driver.Session
import MutationTesting.Mutator.Traversal

namespace MutationTesting.Driver

open MutationTesting.Rust MutationTesting.Mir MutationTesting.Pcg MutationTesting.Mutator

namespace Host

/-- A step that panics when the host says so. -/
def step (host : Host) (n : Nat) (point : Point) : Unwind World Unit :=
  if host.panics n point then throw (.message "panicked") else pure ()

/-- `env_feature_enabled(feature).unwrap_or(default)`. -/
def feature (host : Host) (name : String) (default : Bool) : Unwind World Bool := do
  let enabled ← Unwind.ofRes (envFeatureEnabled host.env name)
  return enabled.getD default

end Host

theorem step_run {host : Host} {n : Nat} (point : Point) (w : World) :
    host.step n point w =
      (if host.panics n point then .error (.message "panicked") else .ok (), w) := by
  unfold Host.step
  split <;> rfl

theorem feature_run {host : Host} (feature : String) (default : Bool) (w : World) :
    host.feature feature default w =
      ((envFeatureEnabled host.env feature).map (Option.getD · default), w) := by
  rw [Host.feature, Unwind.bind_run, Unwind.ofRes_run]
  cases envFeatureEnabled host.env feature <;> rfl

/-- `get_registered_errors`. -/
def getRegisteredErrors : Unwind World (List String) := do
  let w ← Unwind.get
  return w.errorCodes

/-- `do_mir_borrowck`: whether the result is `tainted_by_errors`. -/
def doMirBorrowck (host : Host) (n : Nat) (body : Body) : Unwind World Bool := do
  Unwind.modify fun w => { w with checkStarts := w.checkStarts ++ [w.errCount] }
  (host.check n body).diagnostics.forM fun d => Unwind.modify (World.emit d)
  match (host.check n body).outcome with
  | .tainted => return true
  | .passed => return false
  | .panicked => throw (.message "internal compiler error")

/-- The first half of the code under `catch_unwind`. -/
def borrowckMutant (host : Host) (name : String) (defId : LocalDefId) (n : Nat) (body : Body) :
    Unwind World BorrowCheckInfo := do
  host.step n .tracking
  Unwind.modify (World.trackBodyErrorCodes defId)
  match ← doMirBorrowck host n body with
  | true =>
    Unwind.modify (World.withData name fun data => { data with failed := data.failed + 1 })
    let errorCodes ← getRegisteredErrors
    host.step n .recording
    Unwind.modify (World.withData name fun data =>
      { data with errorCodes := data.errorCodes ∪ errorCodes.toFinset })
    return .failed errorCodes.toFinset
  | false =>
    Unwind.modify (World.withData name fun data => { data with passed := data.passed + 1 })
    match ← host.feature "PCG_VISUALIZATION" false with
    | true =>
      host.step n .conversion
      Unwind.modify fun w => { w with passedBodies := w.passedBodies.insert defId body }
    | false => pure ()
    return .passed

/-- The second half of the code under `catch_unwind`. -/
def logMutant (host : Host) (name : String) (defId : LocalDefId) (n : Nat) (mutant : Mutant)
    (borrowCheckInfo : BorrowCheckInfo) : Unwind World Unit := do
  host.step n .entry
  let logEntry : LogEntry :=
    { mutationType := name
      borrowCheckInfo
      definition := host.debugDefId defId
      range := mutant.range
      info := mutant.info }
  match ← host.feature "MUTANTS_LOG" false with
  | true =>
    host.step n .logging
    Unwind.modify fun w =>
      { w with mutantsLog := w.mutantsLog.insert (toString w.mutantsLog.len) logEntry }
  | false => pure ()
  host.step n .reset
  Unwind.modify World.resetErrCount

/-- The code under `catch_unwind`. -/
def testMutant (host : Host) (doBorrowck : Bool) (name : String) (defId : LocalDefId) (n : Nat)
    (mutant : Mutant) : Unwind World Unit := do
  let borrowCheckInfo ←
    match doBorrowck with
    | true => borrowckMutant host name defId n mutant.body
    | false => pure .noRun
  logMutant host name defId n mutant borrowCheckInfo

/-- The body of the `while let` loop over the mutants of a mutation. -/
def processMutant (host : Host) (name : String) (defId : LocalDefId) (mutant : Mutant) :
    Unwind World Unit := do
  let n := (← Unwind.get).mutants
  Unwind.modify fun w => { w with mutants := n + 1 }
  Unwind.modify (World.withData name fun data => { data with instances := data.instances + 1 })
  let doBorrowck ← host.feature "DO_BORROWCK" true
  match ← Unwind.catchUnwind (testMutant host doBorrowck name defId n mutant) with
  | true =>
    Unwind.modify (World.withData name fun data => { data with panicked := data.panicked + 1 })
  | false => pure ()

/-- `mutator_results.entry(mutation.name()).or_insert(..)`. -/
def openEntry (name : String) : Unwind World Unit :=
  Unwind.modify fun w =>
    { w with mutatorResults := w.mutatorResults.orInsert name .zero }

/-- `run_mutation_tests_for_body`. -/
def runMutationTestsForBody {σ : Type} [FiniteIterator σ Mutant] (host : Host)
    (mutations : List (Mutation σ)) (ctx : CompilerCtxt) (defId : LocalDefId) (body : Body)
    (analysis : PcgOutput) : Unwind World Unit :=
  mutations.forM fun mutation => do
    openEntry mutation.name
    whileLet (Mutator.new mutation ctx analysis body) (processMutant host mutation.name defId)

end MutationTesting.Driver
