/-
  MutationTesting.Driver.Verdict

  The counts of a mutation as a sum over its mutants.

  When all environment variables have expected values and only the borrow check
  panics, a mutant adds to the counts of its mutation what its own check came to,
  its verdict, and nothing of what the run has left behind.
-/
import MutationTesting.Driver.Crate
import MutationTesting.Rust.Tally
import Mathlib.Algebra.Ring.Int.Defs

namespace MutationTesting.Driver

open MutationTesting.Rust MutationTesting.Mir MutationTesting.Pcg MutationTesting.Mutator

/-! ## Sums of counts -/

namespace MutatorData

instance : Zero MutatorData := ⟨.zero⟩

instance : Add MutatorData where
  add a b :=
    { instances := a.instances + b.instances
      passed := a.passed + b.passed
      failed := a.failed + b.failed
      panicked := a.panicked + b.panicked
      errorCodes := a.errorCodes ∪ b.errorCodes }

theorem add_def (a b : MutatorData) :
    a + b = ⟨a.instances + b.instances, a.passed + b.passed, a.failed + b.failed,
      a.panicked + b.panicked, a.errorCodes ∪ b.errorCodes⟩ := rfl

theorem zero_def : (0 : MutatorData) = .zero := rfl

instance : AddCommMonoid MutatorData where
  add_assoc a b c := by simp [add_def, Int.add_assoc, Finset.union_assoc]
  add_comm a b := by
    simp only [add_def]
    rw [Int.add_comm a.instances, Int.add_comm a.passed, Int.add_comm a.failed,
      Int.add_comm a.panicked, Finset.union_comm a.errorCodes]
  zero_add a := by simp [add_def, zero_def, zero]
  add_zero a := by simp [add_def, zero_def, zero]
  nsmul := nsmulRec

/-- A count of a sum is the sum of the counts. -/
theorem count_sum {count : MutatorData → Int} (hzero : count 0 = 0)
    (hadd : ∀ a b, count (a + b) = count a + count b) (datas : List MutatorData) :
    count datas.sum = (datas.map count).sum :=
  map_list_sum (⟨⟨count, hzero⟩, hadd⟩ : MutatorData →+ Int) datas

theorem mem_errorCodes_sum {datas : List MutatorData} {code : String} :
    code ∈ datas.sum.errorCodes ↔ ∃ data ∈ datas, code ∈ data.errorCodes := by
  induction datas with
  | nil => simp [zero_def, zero]
  | cons data datas ih =>
    rw [List.sum_cons, add_def, Finset.mem_union, ih]
    simp

end MutatorData

/-! ## Verdicts -/

/-- What the borrow check of a mutant counts as. -/
def CheckRun.verdict (run : CheckRun) : MutatorData :=
  match run.outcome with
  | .tainted => ⟨1, 0, 1, 0, run.codes.toFinset⟩
  | .passed => ⟨1, 1, 0, 0, ∅⟩
  | .panicked => ⟨1, 0, 0, 1, ∅⟩

/-- What the log says of a mutant whose check returns. -/
def CheckRun.logInfo (run : CheckRun) : BorrowCheckInfo :=
  match run.outcome with
  | .tainted => .failed run.codes.toFinset
  | _ => .passed

namespace Host

/-- What a mutant adds to the counts of its mutation: its verdict, if it is
    checked. -/
def verdict (host : Host) (n : Nat) (body : Body) : MutatorData :=
  if host.doBorrowck then (host.check n body).verdict else ⟨1, 0, 0, 0, ∅⟩

theorem mem_errorCodes_verdict {host : Host} {n : Nat} {body : Body} {code : String} :
    code ∈ (host.verdict n body).errorCodes ↔ host.doBorrowck = true ∧
      (host.check n body).outcome = .tainted ∧ code ∈ (host.check n body).codes := by
  unfold verdict CheckRun.verdict
  cases host.doBorrowck with
  | false => simp
  | true => cases (host.check n body).outcome <;> simp

/-- What the log says of a mutant that does not panic. -/
def logInfo (host : Host) (n : Nat) (body : Body) : BorrowCheckInfo :=
  if host.doBorrowck then (host.check n body).logInfo else .noRun

/-- The borrow check of the mutant panics. -/
def panicsInCheck (host : Host) (n : Nat) (body : Body) : Bool :=
  host.doBorrowck && (host.check n body).outcome = .panicked

/-- All variables that are read have expected values, and nothing but the borrow
    check panics. -/
structure PanicsInCheckOnly (host : Host) : Prop where
  env_valid : ∀ feature ∈ ["DO_BORROWCK", "PCG_VISUALIZATION", "MUTANTS_LOG"],
    (envFeatureEnabled host.env feature).isOk = true
  panics_eq : ∀ n point, host.panics n point = false

namespace PanicsInCheckOnly

variable {host : Host} (h : host.PanicsInCheckOnly)

include h

theorem doBorrowckValid : host.doBorrowckValid = true := h.env_valid _ (by simp)

theorem panicsRecording {outcome : CheckOutcome} (n : Nat) (hout : outcome ≠ .panicked) :
    host.panicsRecording n outcome = false := by
  cases outcome with
  | panicked => exact absurd rfl hout
  | tainted => exact h.panics_eq n .recording
  | passed =>
    have hvalid := h.env_valid "PCG_VISUALIZATION" (by simp)
    rw [Host.panicsRecording, h.panics_eq]
    obtain ⟨enabled, henv⟩ := Res.isOk_eq_true.mp hvalid
    rw [henv]
    exact Bool.and_false _

theorem panicsLogging (n : Nat) : host.panicsLogging n = false := by
  have hvalid := h.env_valid "MUTANTS_LOG" (by simp)
  rw [Host.panicsLogging, h.panics_eq, h.panics_eq]
  obtain ⟨enabled, henv⟩ := Res.isOk_eq_true.mp hvalid
  simp [henv]

/-- A mutant gets as far as its check does. -/
theorem course_eq (n : Nat) (body : Body) : host.course host.doBorrowck n body =
    { starts := host.doBorrowck
      counts := host.doBorrowck && (host.check n body).outcome ≠ .panicked
      records := host.doBorrowck && (host.check n body).outcome ≠ .panicked
      logs := !host.panicsInCheck n body
      completes := !host.panicsInCheck n body } := by
  have htracking := h.panics_eq n .tracking
  have hreset := h.panics_eq n .reset
  have hlogging := h.panicsLogging n
  have hrecording : (host.check n body).outcome ≠ .panicked →
      host.panicsRecording n (host.check n body).outcome = false := h.panicsRecording n
  simp only [Host.course, Host.panicsInCheck, htracking, hreset, hlogging]
  cases hout : (host.check n body).outcome with
  | panicked => cases host.doBorrowck <;> simp
  | tainted | passed =>
    rw [hout] at hrecording
    cases host.doBorrowck <;> simp [hrecording]

/-- A mutant adds its verdict to the counts of its mutation. -/
theorem score_eq (n : Nat) (body : Body) (data : MutatorData) :
    (host.course host.doBorrowck n body).score (host.check n body) true data =
      data + host.verdict n body := by
  simp only [h.course_eq, Course.score, Course.judge, Host.verdict, Host.panicsInCheck,
    CheckRun.verdict, CheckRun.registered, MutatorData.add_def]
  cases hout : (host.check n body).outcome <;> cases host.doBorrowck <;> simp

/-- The effect of a mutant on the two aggregates. -/
theorem processed_eq {name : String} (defId : LocalDefId) (mutant : Mutant) {w : World}
    (htracking : w.tracking = true) (hname : name ∈ w.mutatorResults) :
    (w.processed host host.doBorrowck name defId mutant).mutatorResults =
      w.mutatorResults.add name (host.verdict w.mutants mutant.body) ∧
    (w.processed host host.doBorrowck name defId mutant).mutantsLog =
      if host.panicsInCheck w.mutants mutant.body then w.mutantsLog
      else w.logWith host name defId mutant (host.logInfo w.mutants mutant.body) := by
  constructor
  · rw [← HashMap.modify_eq_add hname]
    simp only [World.processed, htracking]
    congr 1
    funext data
    exact h.score_eq w.mutants mutant.body data
  · have hinfo : (if host.doBorrowck then (host.check w.mutants mutant.body).info w.tracking
        else .noRun) = host.logInfo w.mutants mutant.body := by
      rw [htracking]
      rfl
    simp only [World.processed, h.course_eq, hinfo]
    cases host.panicsInCheck w.mutants mutant.body <;> rfl

end PanicsInCheckOnly

end Host

theorem SampleRun.panicsInCheckOnly {vars : List (String × String)}
    {check : Nat → Body → CheckRun}
    (henv : ["DO_BORROWCK", "PCG_VISUALIZATION", "MUTANTS_LOG"].all
      (fun feature => (envFeatureEnabled (fun name => vars.lookup name) feature).isOk) = true) :
    (hostWith vars check).PanicsInCheckOnly where
  env_valid := List.all_eq_true.mp henv
  panics_eq _ _ := rfl

end MutationTesting.Driver
