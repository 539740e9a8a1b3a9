/-
  MutationTesting.Driver.Course

  What processing one mutant comes to.  `Host.course` says how far the code under
  `catch_unwind` gets, read off the environment, the answer of the borrow checker
  and the steps that panic.  `World.processed` is the state it leaves, and
  `processMutant_run` that the code does so.
-/
import MutationTesting.Driver.Run

namespace MutationTesting.Driver

open MutationTesting.Rust MutationTesting.Mir MutationTesting.Pcg MutationTesting.Mutator

/-- How far the code under `catch_unwind` gets with a mutant. -/
structure Course where
  /-- The borrow check starts. -/
  starts : Bool
  /-- Its verdict is counted. -/
  counts : Bool
  /-- The error codes and the passed body are recorded. -/
  records : Bool
  /-- The mutant is logged, or is not to be. -/
  logs : Bool
  /-- The error count is reset, and nothing has panicked. -/
  completes : Bool

namespace Host

variable (host : Host)

/-- A panic between the verdict and the end of `borrowckMutant`. -/
def panicsRecording (n : Nat) : CheckOutcome → Bool
  | .tainted => host.panics n .recording
  | .passed =>
    match envFeatureEnabled host.env "PCG_VISUALIZATION" with
    | .ok enabled => enabled.getD false && host.panics n .conversion
    | .error _ => true
  | .panicked => true

/-- A panic in `logMutant` before the reset. -/
def panicsLogging (n : Nat) : Bool :=
  host.panics n .entry ||
    match envFeatureEnabled host.env "MUTANTS_LOG" with
    | .ok enabled => enabled.getD false && host.panics n .logging
    | .error _ => true

/-- `MUTANTS_LOG` is set. -/
def keepsLog : Bool := envFeatureEnabled host.env "MUTANTS_LOG" = .ok (some true)

/-- `PCG_VISUALIZATION` is set. -/
def keepsPassed : Bool := envFeatureEnabled host.env "PCG_VISUALIZATION" = .ok (some true)

def course (doBorrowck : Bool) (n : Nat) (body : Body) : Course :=
  let outcome := (host.check n body).outcome
  let starts := doBorrowck && !host.panics n .tracking
  let counts := starts && outcome ≠ .panicked
  let records := counts && !host.panicsRecording n outcome
  let logs := (!doBorrowck || records) && !host.panicsLogging n
  { starts, counts, records, logs, completes := logs && !host.panics n .reset }

end Host

/-- The error codes on record after a check that was tracked, or was not. -/
def CheckRun.registered (run : CheckRun) (tracking : Bool) : List String :=
  if tracking then run.codes else []

/-- What the log says of a check. -/
def CheckRun.info (run : CheckRun) (tracking : Bool) : BorrowCheckInfo :=
  match run.outcome with
  | .tainted => .failed (run.registered tracking).toFinset
  | _ => .passed

namespace Course

/-- What a check adds to the counts of its mutation. -/
def judge (c : Course) (run : CheckRun) (tracking : Bool) (data : MutatorData) : MutatorData :=
  { data with
    passed := data.passed + if c.counts ∧ run.outcome = .passed then 1 else 0
    failed := data.failed + if c.counts ∧ run.outcome = .tainted then 1 else 0
    errorCodes :=
      if c.records ∧ run.outcome = .tainted then
        data.errorCodes ∪ (run.registered tracking).toFinset
      else data.errorCodes }

theorem judge_tainted {c : Course} {run : CheckRun} {tracking : Bool} (hcounts : c.counts = true)
    (hout : run.outcome = .tainted) :
    c.judge run tracking = fun data => { data with
      failed := data.failed + 1
      errorCodes := if c.records then data.errorCodes ∪ (run.registered tracking).toFinset
        else data.errorCodes } := by
  funext data
  simp [judge, hcounts, hout]

theorem judge_passed {c : Course} {run : CheckRun} {tracking : Bool} (hcounts : c.counts = true)
    (hout : run.outcome = .passed) :
    c.judge run tracking = fun data => { data with passed := data.passed + 1 } := by
  funext data
  simp [judge, hcounts, hout]

/-- What a mutant adds to the counts of its mutation. -/
def score (c : Course) (run : CheckRun) (tracking : Bool) (data : MutatorData) : MutatorData :=
  { c.judge run tracking data with
    instances := data.instances + 1
    panicked := data.panicked + if c.completes then 0 else 1 }

/-- The score is made in three writes: the mutant is counted, judged, and counted
    again if it has panicked. -/
theorem score_of_completes {c : Course} {run : CheckRun} {tracking : Bool}
    (h : c.completes = true) :
    c.score run tracking =
      c.judge run tracking ∘ fun data => { data with instances := data.instances + 1 } := by
  funext data
  simp [score, judge, h]

theorem score_of_not_completes {c : Course} {run : CheckRun} {tracking : Bool}
    (h : c.completes = false) :
    c.score run tracking = (fun data => { data with panicked := data.panicked + 1 }) ∘
      c.judge run tracking ∘ fun data => { data with instances := data.instances + 1 } := by
  funext data
  simp [score, judge, h]

end Course

namespace World

/-- The state after a borrow check has started and ended. -/
def checked (defId : LocalDefId) (run : CheckRun) (w : World) : World :=
  { w with
    errCount := w.errCount + run.errors
    errorCodes := run.registered w.tracking
    currentBody := some defId
    checkStarts := w.checkStarts ++ [w.errCount] }

/-- The passed bodies with the body of the mutant, if it is kept. -/
def passedWith (host : Host) (defId : LocalDefId) (body : Body) (c : Course) (run : CheckRun)
    (w : World) : HashMap LocalDefId Body :=
  if host.keepsPassed ∧ c.records ∧ run.outcome = .passed then w.passedBodies.insert defId body
  else w.passedBodies

theorem passedWith_of_not_passed {host : Host} {defId : LocalDefId} {body : Body} {c : Course}
    {run : CheckRun} (h : run.outcome ≠ .passed) (w : World) :
    w.passedWith host defId body c run = w.passedBodies :=
  if_neg fun hkept => h hkept.2.2

/-- The state after the first half. -/
def judged (host : Host) (name : String) (defId : LocalDefId) (body : Body) (c : Course)
    (run : CheckRun) (w : World) : World :=
  if c.starts then
    { (w.checked defId run).withData name (c.judge run w.tracking) with
      passedBodies := w.passedWith host defId body c run }
  else w

@[simp] theorem judged_mutantsLog (host : Host) (name : String) (defId : LocalDefId) (body : Body)
    (c : Course) (run : CheckRun) (w : World) :
    (w.judged host name defId body c run).mutantsLog = w.mutantsLog := by
  unfold judged
  split <;> rfl

/-- The log with an entry for the mutant. -/
def logWith (host : Host) (name : String) (defId : LocalDefId) (mutant : Mutant)
    (borrowCheckInfo : BorrowCheckInfo) (w : World) : MutantsLog :=
  if host.keepsLog then
    w.mutantsLog.insert (toString w.mutantsLog.len)
      ⟨name, borrowCheckInfo, host.debugDefId defId, mutant.range, mutant.info⟩
  else w.mutantsLog

/-- The state after a mutant has been processed. -/
def processed (host : Host) (doBorrowck : Bool) (name : String) (defId : LocalDefId)
    (mutant : Mutant) (w : World) : World :=
  let run := host.check w.mutants mutant.body
  let c := host.course doBorrowck w.mutants mutant.body
  let info := if doBorrowck then run.info w.tracking else .noRun
  { w with
    errCount :=
      if c.completes then 0 else if c.starts then w.errCount + run.errors else w.errCount
    errorCodes := if c.starts then run.registered w.tracking else w.errorCodes
    currentBody := if c.starts then some defId else w.currentBody
    mutatorResults := w.mutatorResults.modify name (c.score run w.tracking)
    mutantsLog := if c.logs then w.logWith host name defId mutant info else w.mutantsLog
    passedBodies := w.passedWith host defId mutant.body c run
    mutants := w.mutants + 1
    checkStarts := if c.starts then w.checkStarts ++ [w.errCount] else w.checkStarts }

end World

/-! ## The two halves -/

variable (host : Host) (name : String) (defId : LocalDefId) (n : Nat)

theorem World.emit_eq (d : DiagInner) (w : World) :
    w.emit d = { w with
      errCount := w.errCount + if d.isError then 1 else 0
      errorCodes := if w.tracking then w.errorCodes ++ d.code.toList else w.errorCodes } := by
  obtain ⟨code, isError⟩ := d
  obtain ⟨errCount, tracking, _⟩ := w
  cases tracking <;> cases isError <;> rfl

theorem emit_diagnostics_run (ds : List DiagInner) (w : World) :
    (ds.forM fun d => Unwind.modify (World.emit d)) w =
      (.ok (), { w with
        errCount := w.errCount + ds.countP DiagInner.isError
        errorCodes := if w.tracking then w.errorCodes ++ ds.filterMap DiagInner.code
          else w.errorCodes }) := by
  induction ds generalizing w with
  | nil =>
    rw [List.forM_eq_forM, List.forM_nil, Unwind.pure_run]
    simp
  | cons d ds ih =>
    have hcodes : (d :: ds).filterMap DiagInner.code =
        d.code.toList ++ ds.filterMap DiagInner.code := by
      rw [List.filterMap_cons]
      cases d.code <;> rfl
    rw [List.forM_eq_forM, List.forM_cons, Unwind.bind_run, Unwind.modify_run,
      ← List.forM_eq_forM]
    simp only
    rw [ih, World.emit_eq, hcodes, List.countP_cons]
    simp only [Nat.add_assoc, Nat.add_comm (List.countP _ _)]
    cases w.tracking with
    | false => rfl
    | true => simp

theorem doMirBorrowck_run (body : Body) (w : World) :
    doMirBorrowck host n body w =
      (match (host.check n body).outcome with
        | .tainted => .ok true
        | .passed => .ok false
        | .panicked => .error (.message "internal compiler error"),
      { w with
        errCount := w.errCount + (host.check n body).errors
        errorCodes := w.errorCodes ++ (host.check n body).registered w.tracking
        checkStarts := w.checkStarts ++ [w.errCount] }) := by
  have hcodes : (if w.tracking then w.errorCodes ++ (host.check n body).codes else w.errorCodes) =
      w.errorCodes ++ (host.check n body).registered w.tracking := by
    cases w.tracking <;> simp [CheckRun.registered]
  rw [doMirBorrowck, Unwind.bind_run, Unwind.modify_run]
  simp only
  rw [Unwind.bind_run, emit_diagnostics_run, ← CheckRun.codes, ← CheckRun.errors]
  simp only
  rw [hcodes]
  cases (host.check n body).outcome <;> rfl

/-- The first half returns what the log is to say, unless it has panicked, and
    the verdict stays counted either way. -/
theorem borrowckMutant_run (body : Body) (w : World) : ∃ e,
    borrowckMutant host name defId n body w =
      (if (host.course true n body).records then
          .ok ((host.check n body).info w.tracking)
        else .error e,
      w.judged host name defId body (host.course true n body) (host.check n body)) := by
  unfold World.judged
  -- only a body that passes is kept
  have hdropped : (host.check n body).outcome ≠ .passed →
      w.passedWith host defId body (host.course true n body) (host.check n body) =
        w.passedBodies := fun hout => World.passedWith_of_not_passed hout w
  cases htrack : host.panics n .tracking with
  | true =>
    refine ⟨.message "panicked", ?_⟩
    rw [borrowckMutant, Unwind.bind_run, step_run]
    simp [Host.course, htrack]
  | false =>
    have hstarts : (host.course true n body).starts = true := by simp [Host.course, htrack]
    have hcheck : doMirBorrowck host n body (w.trackBodyErrorCodes defId) =
        (match (host.check n body).outcome with
          | .tainted => .ok true
          | .passed => .ok false
          | .panicked => .error (.message "internal compiler error"),
        w.checked defId (host.check n body)) := by
      rw [doMirBorrowck_run]
      rfl
    rw [borrowckMutant, Unwind.bind_run, step_run, htrack, hstarts, if_pos rfl]
    simp only [Bool.false_eq_true, if_false]
    rw [Unwind.bind_run, Unwind.modify_run]
    simp only
    rw [Unwind.bind_run, hcheck]
    cases hout : (host.check n body).outcome with
    | panicked =>
      refine ⟨.message "internal compiler error", ?_⟩
      -- the check starts, and counts nothing
      rw [hdropped (by simp [hout]), World.withData_of_id]
      · simp [Host.course, hout, World.checked]
      · simp [Host.course, hout, Course.judge]
    | tainted =>
      have hcounts : (host.course true n body).counts = true := by simp [Host.course, htrack, hout]
      have hrecords : (host.course true n body).records = !host.panics n .recording := by
        simp [Host.course, htrack, hout, Host.panicsRecording]
      refine ⟨.message "panicked", ?_⟩
      rw [hdropped (by simp [hout])]
      simp only [getRegisteredErrors, Unwind.bind_run, Unwind.modify_run, Unwind.get_run,
        Unwind.pure_run, step_run, Course.judge_tainted hcounts hout, hrecords]
      cases host.panics n .recording with
      | true => rfl
      | false => simp [CheckRun.info, hout, World.withData, World.checked, Function.comp_def]
    | passed =>
      have hcounts : (host.course true n body).counts = true := by simp [Host.course, htrack, hout]
      have hrecords : (host.course true n body).records = !host.panicsRecording n .passed := by
        simp [Host.course, htrack, hout]
      simp only [Unwind.bind_run, Unwind.modify_run, feature_run,
        Course.judge_passed hcounts hout, hrecords, Host.panicsRecording, World.passedWith,
        Host.keepsPassed, hout]
      -- the verdict is counted before the variable is read
      cases envFeatureEnabled host.env "PCG_VISUALIZATION" with
      | error e => exact ⟨e, rfl⟩
      | ok enabled =>
        refine ⟨.message "panicked", ?_⟩
        rcases enabled with _ | _ | _
        · simp [CheckRun.info, hout, Except.map, World.withData, World.checked]
        · simp [CheckRun.info, hout, Except.map, World.withData, World.checked]
        · simp only [Except.map, Option.getD_some, Unwind.bind_run, step_run]
          cases host.panics n .conversion <;>
            simp [CheckRun.info, hout, World.withData, World.checked]

/-- The last two steps of the second half. -/
theorem reset_run (w : World) :
    (do host.step n .reset; Unwind.modify World.resetErrCount) w =
      (if host.panics n .reset then .error (.message "panicked") else .ok (),
      { w with errCount := if host.panics n .reset then w.errCount else 0 }) := by
  rw [Unwind.bind_run, step_run]
  cases host.panics n .reset <;> rfl

/-- The second half resets the error count if nothing in it panics. -/
theorem logMutant_run (mutant : Mutant) (info : BorrowCheckInfo) (w : World) : ∃ e,
    logMutant host name defId n mutant info w =
      (if host.panicsLogging n || host.panics n .reset then .error e else .ok (),
      { w with
        errCount := if host.panicsLogging n || host.panics n .reset then w.errCount else 0
        mutantsLog :=
          if host.panicsLogging n then w.mutantsLog
          else w.logWith host name defId mutant info }) := by
  by_cases hentry : host.panics n .entry = true
  · refine ⟨.message "panicked", ?_⟩
    rw [logMutant, Unwind.bind_run, step_run, if_pos hentry]
    simp [Host.panicsLogging, hentry]
  obtain ⟨enabled, henv⟩ : ∃ enabled, envFeatureEnabled host.env "MUTANTS_LOG" = enabled :=
    ⟨_, rfl⟩
  simp only [logMutant, Unwind.bind_run, step_run, feature_run, Host.panicsLogging, hentry,
    World.logWith, Host.keepsLog, henv]
  rcases enabled with e | _ | _ | _
  · exact ⟨e, rfl⟩
  -- the log is off, in two ways
  · refine ⟨.message "panicked", (reset_run host n w).trans ?_⟩
    simp
  · refine ⟨.message "panicked", (reset_run host n w).trans ?_⟩
    simp
  · refine ⟨.message "panicked", ?_⟩
    simp only [Except.map, Option.getD_some, Unwind.bind_run, Unwind.modify_run, step_run]
    by_cases hlog : host.panics n .logging = true
    · simp [hlog]
    by_cases hreset : host.panics n .reset = true
    · simp [hlog, hreset]
    · simp [hlog, hreset, World.resetErrCount]

/-! ## The whole -/

theorem testMutant_run (doBorrowck : Bool) (mutant : Mutant) (w : World) : ∃ e,
    testMutant host doBorrowck name defId n mutant w =
      (if (host.course doBorrowck n mutant.body).completes then .ok () else .error e,
      let run := host.check n mutant.body
      let c := host.course doBorrowck n mutant.body
      let info := if doBorrowck then run.info w.tracking else .noRun
      { w.judged host name defId mutant.body c run with
        errCount :=
          if c.completes then 0 else (w.judged host name defId mutant.body c run).errCount
        mutantsLog :=
          if c.logs then w.logWith host name defId mutant info else w.mutantsLog }) := by
  cases doBorrowck with
  | false =>
    -- without a check only the second half can panic
    obtain ⟨e, hlog⟩ := logMutant_run host name defId n mutant .noRun w
    refine ⟨e, ?_⟩
    rw [testMutant, Unwind.bind_run, Unwind.pure_run]
    simp only
    rw [hlog]
    by_cases hlogs : host.panicsLogging n = true
    · simp [Host.course, hlogs, World.judged]
    by_cases hreset : host.panics n .reset = true
    · simp [Host.course, hlogs, hreset, World.judged]
    · simp [Host.course, hlogs, hreset, World.judged]
  | true =>
    obtain ⟨e, hcheck⟩ := borrowckMutant_run host name defId n mutant.body w
    have hlogs : (host.course true n mutant.body).logs =
        ((host.course true n mutant.body).records && !host.panicsLogging n) := rfl
    have hcompletes : (host.course true n mutant.body).completes =
        ((host.course true n mutant.body).logs && !host.panics n .reset) := rfl
    rw [testMutant, Unwind.bind_run, hcheck]
    simp only [hcompletes, hlogs, if_true]
    generalize hjudged : w.judged host name defId mutant.body (host.course true n mutant.body)
      (host.check n mutant.body) = judged
    have hkept : judged.mutantsLog = w.mutantsLog := by rw [← hjudged, World.judged_mutantsLog]
    by_cases hrecords : (host.course true n mutant.body).records = true
    · obtain ⟨e', hlog⟩ := logMutant_run host name defId n mutant
        ((host.check n mutant.body).info w.tracking) judged
      refine ⟨e', ?_⟩
      rw [if_pos hrecords]
      simp only
      rw [hlog, World.logWith, World.logWith, hkept]
      by_cases hlogs : host.panicsLogging n = true
      · simp [hrecords, hlogs]
      by_cases hreset : host.panics n .reset = true
      · simp [hrecords, hlogs, hreset]
      · simp [hrecords, hlogs, hreset]
    · -- an unwound check leaves nothing for the second half
      refine ⟨e, ?_⟩
      rw [if_neg hrecords]
      simp [hrecords, ← hkept]

/-- The first half, field by field: a mutation whose mutant was not judged keeps
    its counts. -/
theorem judged_eq (doBorrowck : Bool) (body : Body) (run : CheckRun) (w : World) :
    let c := host.course doBorrowck n body
    w.judged host name defId body c run = { w with
      errCount := if c.starts then w.errCount + run.errors else w.errCount
      errorCodes := if c.starts then run.registered w.tracking else w.errorCodes
      currentBody := if c.starts then some defId else w.currentBody
      mutatorResults := w.mutatorResults.modify name (c.judge run w.tracking)
      passedBodies := w.passedWith host defId body c run
      checkStarts := if c.starts then w.checkStarts ++ [w.errCount] else w.checkStarts } := by
  intro c
  unfold World.judged
  by_cases hstarts : c.starts = true
  · simp only [hstarts, if_true]
    rfl
  · have hidle : (doBorrowck && !host.panics n .tracking) = false :=
      Bool.not_eq_true _ ▸ hstarts
    have hunjudged : ∀ data, c.judge run w.tracking data = data := by
      intro data
      simp [c, Course.judge, Host.course, hidle]
    have hkept : w.passedWith host defId body c run = w.passedBodies :=
      if_neg (by simp [c, Host.course, hidle])
    simp only [hstarts, Bool.false_eq_true, if_false, HashMap.modify_of_id _ _ hunjudged, hkept]

variable {host name defId}

/-- A mutant is processed as `processed` says, whatever in it panics. -/
theorem processMutant_run {enabled : Option Bool}
    (henv : envFeatureEnabled host.env "DO_BORROWCK" = .ok enabled) (mutant : Mutant) (w : World) :
    processMutant host name defId mutant w =
      (.ok (), w.processed host (enabled.getD true) name defId mutant) := by
  obtain ⟨e, htest⟩ := testMutant_run host name defId w.mutants (enabled.getD true) mutant
    (World.withData name (fun data => { data with instances := data.instances + 1 })
      { w with mutants := w.mutants + 1 })
  simp only [processMutant, Unwind.bind_run, Unwind.get_run, Unwind.modify_run, feature_run, henv,
    Except.map, Unwind.catchUnwind_run, htest, judged_eq]
  cases hcompletes : (host.course (enabled.getD true) w.mutants mutant.body).completes with
  | true =>
    simp only [World.processed, hcompletes, if_true, World.withData, World.logWith,
      Course.score_of_completes hcompletes, ← HashMap.modify_modify]
    rfl
  | false =>
    simp only [World.processed, hcompletes, Bool.false_eq_true, if_false, World.withData,
      World.logWith, Course.score_of_not_completes hcompletes, ← HashMap.modify_modify]
    rfl

/-- On an unexpected value of `DO_BORROWCK` the run ends, outside `catch_unwind`. -/
theorem processMutant_run_error {e : Abort}
    (henv : envFeatureEnabled host.env "DO_BORROWCK" = .error e) (mutant : Mutant) (w : World) :
    processMutant host name defId mutant w =
      (.error e, World.withData name
        (fun data => { data with instances := data.instances + 1 })
        { w with mutants := w.mutants + 1 }) := by
  simp only [processMutant, Unwind.bind_run, Unwind.get_run, Unwind.modify_run, feature_run, henv,
    Except.map]

end MutationTesting.Driver
