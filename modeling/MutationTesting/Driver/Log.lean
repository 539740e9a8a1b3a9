/-
  MutationTesting.Driver.Log

  The log of mutants against the counts of their mutations.

  Both are written under `catch_unwind`, the counts before the log and again
  after the region, so they differ by the mutants that panic.  The log is keyed
  by its own length: it only grows, and a key is never used twice.
-/
import MutationTesting.Driver.Verdict

namespace MutationTesting.Driver

open MutationTesting.Rust MutationTesting.Mir MutationTesting.Pcg MutationTesting.Mutator

/-! ## Entries as counts -/

/-- What an entry of the log adds to the counts. -/
def BorrowCheckInfo.data : BorrowCheckInfo → MutatorData
  | .noRun => ⟨1, 0, 0, 0, ∅⟩
  | .passed => ⟨1, 1, 0, 0, ∅⟩
  | .failed errorCodes => ⟨1, 0, 1, 0, errorCodes⟩

def BorrowCheckInfo.isFailed : BorrowCheckInfo → Bool
  | .failed _ => true
  | _ => false

/-- What entries of the log add up to. -/
def dataOf (entries : List LogEntry) : MutatorData :=
  (entries.map fun entry => entry.borrowCheckInfo.data).sum

/-- The entries of a mutation, in order. -/
def MutantsLog.entriesOf (log : MutantsLog) (name : String) : List LogEntry :=
  (log.entries.map Prod.snd).filter fun entry => entry.mutationType = name

/-- A mutant whose check panics is an instance that is not in the log. -/
theorem Host.verdict_eq (host : Host) (n : Nat) (body : Body) :
    host.verdict n body =
      if host.panicsInCheck n body then ⟨1, 0, 0, 1, ∅⟩ else (host.logInfo n body).data := by
  unfold Host.verdict Host.panicsInCheck Host.logInfo CheckRun.verdict CheckRun.logInfo
  cases host.doBorrowck with
  | false => rfl
  | true => cases (host.check n body).outcome <;> rfl

section Sums

variable (entries : List LogEntry)

theorem dataOf_cons (entry : LogEntry) :
    dataOf (entry :: entries) = entry.borrowCheckInfo.data + dataOf entries := by
  rw [dataOf, List.map_cons, List.sum_cons, ← dataOf]

theorem dataOf_concat (entry : LogEntry) :
    dataOf (entries ++ [entry]) = dataOf entries + entry.borrowCheckInfo.data := by
  rw [dataOf, List.map_append, List.sum_append, ← dataOf]
  simp

/-- The counts of the entries are the numbers of the entries of each kind. -/
theorem dataOf_eq_counts :
    (dataOf entries).instances = entries.length ∧
    (dataOf entries).passed = entries.countP (·.borrowCheckInfo = .passed) ∧
    (dataOf entries).failed = entries.countP (·.borrowCheckInfo.isFailed) ∧
    (dataOf entries).panicked = 0 := by
  induction entries with
  | nil => exact ⟨rfl, rfl, rfl, rfl⟩
  | cons entry entries ih =>
    obtain ⟨hinstances, hpassed, hfailed, hpanicked⟩ := ih
    obtain ⟨_, info, _, _, _⟩ := entry
    rw [dataOf_cons, MutatorData.add_def, hinstances, hpassed, hfailed, hpanicked]
    cases info <;> simp [BorrowCheckInfo.data, BorrowCheckInfo.isFailed, Int.add_comm]

theorem mem_errorCodes_dataOf {code : String} :
    code ∈ (dataOf entries).errorCodes ↔ ∃ entry ∈ entries, ∃ errorCodes,
      entry.borrowCheckInfo = .failed errorCodes ∧ code ∈ errorCodes := by
  rw [dataOf, MutatorData.mem_errorCodes_sum]
  constructor
  · rintro ⟨data, hdata, hcode⟩
    obtain ⟨entry, hentry, rfl⟩ := List.mem_map.mp hdata
    cases hinfo : entry.borrowCheckInfo with
    | noRun | passed =>
      rw [hinfo] at hcode
      exact absurd hcode (Finset.notMem_empty code)
    | failed errorCodes =>
      rw [hinfo] at hcode
      exact ⟨entry, hentry, errorCodes, hinfo, hcode⟩
  · rintro ⟨entry, hentry, errorCodes, hinfo, hcode⟩
    refine ⟨_, List.mem_map.mpr ⟨entry, hentry, rfl⟩, ?_⟩
    rw [hinfo]
    exact hcode

end Sums

/-! ## Agreement -/

/-- The counts of a mutation, if it has an entry, are those of its log entries
    and of some mutants that panicked. -/
def CountsOf (host : Host) (entries : List LogEntry) : Option MutatorData → Prop
  | none => entries = []
  | some data => ∃ panicked : Nat, (host.doBorrowck = false → panicked = 0) ∧
    data = dataOf entries + ⟨panicked, 0, 0, panicked, ∅⟩

namespace CountsOf

variable {host : Host} {entries : List LogEntry} {data : Option MutatorData}

theorem openEntry (h : CountsOf host entries data) :
    CountsOf host entries (some (data.getD 0)) := by
  cases data with
  | some data => exact h
  | none =>
    obtain rfl : entries = [] := h
    exact ⟨0, fun _ => rfl, rfl⟩

theorem panic (h : CountsOf host entries data) (hon : host.doBorrowck = true) :
    CountsOf host entries (some (data.getD 0 + ⟨1, 0, 0, 1, ∅⟩)) := by
  obtain ⟨panicked, -, hdata⟩ := h.openEntry
  refine ⟨panicked + 1, ?_, ?_⟩
  · intro hoff
    rw [hon] at hoff
    cases hoff
  · rw [hdata, add_assoc]
    congr 1

theorem log (h : CountsOf host entries data) (entry : LogEntry) :
    CountsOf host (entries ++ [entry]) (some (data.getD 0 + entry.borrowCheckInfo.data)) := by
  obtain ⟨panicked, hoff, hdata⟩ := h.openEntry
  refine ⟨panicked, hoff, ?_⟩
  rw [hdata, dataOf_concat, add_right_comm]

end CountsOf

/-- The log and the counts agree, up to the mutants whose check panicked. -/
structure Agrees (host : Host) (log : MutantsLog) (results : MutatorResults) : Prop where
  keys : log.entries.map Prod.fst = (List.range log.len).map toString
  noRun : host.doBorrowck = false → ∀ entry ∈ log.entries, entry.2.borrowCheckInfo = .noRun
  counts : ∀ name, CountsOf host (log.entriesOf name) (results.lookup name)

namespace Agrees

variable {host : Host} {log : MutantsLog} {results : MutatorResults}

theorem empty (host : Host) : Agrees host .empty ∅ where
  keys := rfl
  noRun := by
    intro _ entry hentry
    cases hentry
  counts name := rfl

/-- The next key is new, so the entry comes last. -/
theorem insert_entries (h : Agrees host log results) (entry : LogEntry) :
    (log.insert (toString log.len) entry).entries =
      log.entries ++ [(toString log.len, entry)] := by
  have hnew : toString log.len ∉ log.entries.map Prod.fst := by
    rw [h.keys, List.mem_map]
    rintro ⟨k, hk, hkey⟩
    obtain rfl : k = log.len := Nat.repr_injective hkey
    exact absurd (List.mem_range.mp hk) (Nat.lt_irrefl _)
  rw [IndexMap.insert, if_neg hnew]

theorem openEntry (h : Agrees host log results) (name : String) :
    Agrees host log (results.orInsert name .zero) where
  keys := h.keys
  noRun := h.noRun
  counts name' := by
    rw [HashMap.lookup_orInsert]
    by_cases hname : name' = name
    · rw [if_pos hname, hname]
      exact (h.counts name).openEntry
    · rw [if_neg hname]
      exact h.counts name'

/-- A mutant whose check panics is counted and not logged. -/
theorem panic (h : Agrees host log results) (hon : host.doBorrowck = true) (name : String) :
    Agrees host log (results.add name ⟨1, 0, 0, 1, ∅⟩) where
  keys := h.keys
  noRun := h.noRun
  counts name' := by
    rw [HashMap.lookup_add]
    by_cases hname : name' = name
    · rw [if_pos hname, hname]
      exact (h.counts name).panic hon
    · rw [if_neg hname]
      exact h.counts name'

/-- Any other mutant is counted as it is logged. -/
theorem log_entry (h : Agrees host log results) (entry : LogEntry)
    (hnoRun : host.doBorrowck = false → entry.borrowCheckInfo = .noRun) :
    Agrees host (log.insert (toString log.len) entry)
      (results.add entry.mutationType entry.borrowCheckInfo.data) where
  keys := by
    have hlen : (log.insert (toString log.len) entry).len = log.len + 1 := by
      rw [IndexMap.len, h.insert_entries, List.length_append]
      rfl
    rw [hlen, h.insert_entries, List.map_append, h.keys, List.range_succ, List.map_append]
    rfl
  noRun := by
    intro hoff keyed hkeyed
    rw [h.insert_entries] at hkeyed
    rcases List.mem_append.mp hkeyed with hkeyed | hkeyed
    · exact h.noRun hoff keyed hkeyed
    · obtain rfl := List.mem_singleton.mp hkeyed
      exact hnoRun hoff
  counts name := by
    rw [MutantsLog.entriesOf, h.insert_entries, List.map_append, List.filter_append,
      ← MutantsLog.entriesOf, HashMap.lookup_add]
    by_cases hname : name = entry.mutationType
    · rw [if_pos hname, hname]
      have hentry : ([(toString log.len, entry)].map Prod.snd).filter
          (fun e => e.mutationType = entry.mutationType) = [entry] := by simp
      rw [hentry]
      -- the entry and the counts of its mutation grow together
      exact (h.counts _).log entry
    · have hentry : ([(toString log.len, entry)].map Prod.snd).filter
          (fun e => e.mutationType = name) = [] := by simp [Ne.symm hname]
      rw [if_neg hname, hentry, List.append_nil]
      exact h.counts name

end Agrees

/-! ## Runs -/

section Runs

variable {host : Host} (hchecks : host.PanicsInCheckOnly) (hlog : host.keepsLog = true)

include hchecks hlog

/-- A step keeps the agreement, and the entries that are there. -/
theorem Step.apply_agrees {step : Step} {w : World} (hopened : step.OpenedIn w)
    (htracking : w.tracking = true) (h : Agrees host w.mutantsLog w.mutatorResults) :
    Agrees host (step.apply host w).mutantsLog (step.apply host w).mutatorResults ∧
      w.mutantsLog.entries <+: (step.apply host w).mutantsLog.entries := by
  cases step with
  | openEntry name => exact ⟨h.openEntry name, List.prefix_rfl⟩
  | process name defId mutant =>
    obtain ⟨hresults, hentries⟩ := hchecks.processed_eq defId mutant htracking hopened
    rw [Step.apply, hresults, hentries, Host.verdict_eq]
    by_cases hpanics : host.panicsInCheck w.mutants mutant.body = true
    · have hon : host.doBorrowck = true := by
        rw [Host.panicsInCheck, Bool.and_eq_true] at hpanics
        exact hpanics.1
      rw [if_pos hpanics, if_pos hpanics]
      exact ⟨h.panic hon name, List.prefix_rfl⟩
    · rw [if_neg hpanics, if_neg hpanics, World.logWith, if_pos hlog]
      refine ⟨h.log_entry ⟨name, _, _, _, _⟩ ?_, ?_⟩
      · intro hoff
        show host.logInfo w.mutants mutant.body = .noRun
        rw [Host.logInfo, hoff]
        rfl
      · rw [h.insert_entries]
        exact List.prefix_append _ _

/-- So does a run. -/
theorem applySteps_agrees {names : List String} {steps : List Step} (hopened : Opened names steps)
    {w : World} (hnames : ∀ name ∈ names, name ∈ w.mutatorResults) (htracking : w.tracking = true)
    (h : Agrees host w.mutantsLog w.mutatorResults) :
    Agrees host (applySteps host steps w).mutantsLog (applySteps host steps w).mutatorResults ∧
      w.mutantsLog.entries <+: (applySteps host steps w).mutantsLog.entries := by
  have hrun := applySteps_invariant host (P := fun w' => w'.tracking = true ∧
    Agrees host w'.mutantsLog w'.mutatorResults ∧
    w.mutantsLog.entries <+: w'.mutantsLog.entries) ?_ hopened hnames
    ⟨htracking, h, List.prefix_rfl⟩
  · exact hrun.2
  · rintro step w' hopened ⟨htracking, hagrees, hprefix⟩
    obtain ⟨hagrees', hprefix'⟩ := Step.apply_agrees hchecks hlog hopened htracking hagrees
    refine ⟨?_, hagrees', hprefix.trans hprefix'⟩
    rw [Step.apply_tracking]
    exact htracking

end Runs

/-- The log and the summary of a run agree. -/
structure LogAgrees (host : Host) (log : MutantsLog) (results : MutatorResults) : Prop where
  keys : log.entries.map Prod.fst = (List.range log.len).map toString
  instances : ∀ name data, results.lookup name = some data →
    ((log.entriesOf name).length : Int) = data.instances - data.panicked
  passed : ∀ name data, results.lookup name = some data →
    ((log.entriesOf name).countP (·.borrowCheckInfo = .passed) : Int) = data.passed
  failed : ∀ name data, results.lookup name = some data →
    ((log.entriesOf name).countP (·.borrowCheckInfo.isFailed) : Int) = data.failed
  error_codes : ∀ name data code, results.lookup name = some data →
    (code ∈ data.errorCodes ↔ ∃ entry ∈ log.entriesOf name, ∃ errorCodes,
      entry.borrowCheckInfo = .failed errorCodes ∧ code ∈ errorCodes)
  unchecked : host.doBorrowck = false →
    (∀ entry ∈ log.entries, entry.2.borrowCheckInfo = .noRun) ∧
    ∀ name data, results.lookup name = some data →
      data.passed = 0 ∧ data.failed = 0 ∧ data.panicked = 0

theorem Agrees.logAgrees {host : Host} {log : MutantsLog} {results : MutatorResults}
    (h : Agrees host log results) : LogAgrees host log results := by
  have hcounts : ∀ name data, results.lookup name = some data → ∃ panicked : Nat,
      (host.doBorrowck = false → panicked = 0) ∧
      data = dataOf (log.entriesOf name) + ⟨panicked, 0, 0, panicked, ∅⟩ := by
    intro name data hdata
    have hname := h.counts name
    rw [hdata] at hname
    exact hname
  refine ⟨h.keys, ?_, ?_, ?_, ?_, fun hoff => ⟨h.noRun hoff, ?_⟩⟩
  · intro name data hdata
    obtain ⟨panicked, -, rfl⟩ := hcounts name data hdata
    obtain ⟨hinstances, -, -, hpanicked⟩ := dataOf_eq_counts (log.entriesOf name)
    simp only [MutatorData.add_def, hinstances, hpanicked]
    omega
  · intro name data hdata
    obtain ⟨panicked, -, rfl⟩ := hcounts name data hdata
    obtain ⟨-, hpassed, -, -⟩ := dataOf_eq_counts (log.entriesOf name)
    simp only [MutatorData.add_def, hpassed]
    omega
  · intro name data hdata
    obtain ⟨panicked, -, rfl⟩ := hcounts name data hdata
    obtain ⟨-, -, hfailed, -⟩ := dataOf_eq_counts (log.entriesOf name)
    simp only [MutatorData.add_def, hfailed]
    omega
  · intro name data code hdata
    obtain ⟨panicked, -, rfl⟩ := hcounts name data hdata
    rw [MutatorData.add_def, Finset.union_empty]
    exact mem_errorCodes_dataOf _
  · intro name data hdata
    obtain ⟨panicked, hnone, rfl⟩ := hcounts name data hdata
    obtain ⟨-, hpassed, hfailed, hpanicked⟩ := dataOf_eq_counts (log.entriesOf name)
    -- all entries of the mutation are of mutants that were not checked
    have hnoRun : ∀ entry ∈ log.entriesOf name, entry.borrowCheckInfo = .noRun := by
      intro entry hentry
      obtain ⟨hentry, -⟩ := List.mem_filter.mp hentry
      obtain ⟨keyed, hkeyed, rfl⟩ := List.mem_map.mp hentry
      exact h.noRun hoff keyed hkeyed
    have hzero : ∀ p : LogEntry → Bool,
        (∀ entry, entry.borrowCheckInfo = .noRun → p entry = false) →
        (log.entriesOf name).countP p = 0 := by
      intro p hp
      rw [List.countP_eq_zero]
      intro entry hentry
      rw [hp entry (hnoRun entry hentry)]
      exact Bool.false_ne_true
    rw [hzero _ (by intro entry hentry; simp [hentry])] at hpassed
    rw [hzero _ (by intro entry hentry; simp [hentry, BorrowCheckInfo.isFailed])] at hfailed
    simp [MutatorData.add_def, hpassed, hfailed, hpanicked, hnone hoff]

section Crate

variable {σ : Type} [FiniteIterator σ Mutant] {host : Host} {mutations : List (Mutation σ)}
  {crate : Crate}

/-- With the log on, the log and the counts agree after each mutant and in the
    end, and no mutant touches what has been logged before it. -/
theorem log_agrees_with_results (hchecks : host.PanicsInCheckOnly)
    (hlog : envFeatureEnabled host.env "MUTANTS_LOG" = .ok (some true)) (errCount : Nat)
    (dir : Directory) :
    (∀ before middle after, (bodiesSchedule host mutations crate.tcx
        (testedBodies host crate.bodyOwners crate.bodies)).steps = before ++ (middle ++ after) →
      let w := ((before.forM (Step.perform host)) (World.start errCount dir).beginRun).2
      let w' := ((middle.forM (Step.perform host)) w).2
      LogAgrees host w.mutantsLog w.mutatorResults ∧
        w.mutantsLog.entries <+: w'.mutantsLog.entries) ∧
    let w := (runMutationTests host mutations crate (.start errCount dir)).2
    LogAgrees host w.mutantsLog w.mutatorResults := by
  have hkeeps : host.keepsLog = true := by
    rw [Host.keepsLog, hlog]
    rfl
  have hvalid := hchecks.doBorrowckValid
  have hstart : Agrees host (World.start errCount dir).beginRun.mutantsLog
      (World.start errCount dir).beginRun.mutatorResults := Agrees.empty host
  have hopened := opened_bodiesSchedule host mutations crate.tcx
    (testedBodies host crate.bodyOwners crate.bodies)
  constructor
  · intro before middle after hsteps
    rw [hsteps] at hopened
    simp only [steps_run hvalid]
    obtain ⟨hagrees, -⟩ := applySteps_agrees hchecks hkeeps hopened.left (by simp) rfl hstart
    -- from the state in between the rest of the run only appends
    obtain ⟨names, hopened', hnames⟩ := hopened.right host
      (w := (World.start errCount dir).beginRun) (by simp)
    have htracking : (applySteps host before (World.start errCount dir).beginRun).tracking =
        true := by rw [applySteps_tracking]; rfl
    obtain ⟨-, hprefix⟩ :=
      applySteps_agrees hchecks hkeeps hopened'.left hnames htracking hagrees
    exact ⟨hagrees.logAgrees, hprefix⟩
  · intro w
    obtain ⟨hagrees, -⟩ := applySteps_agrees hchecks hkeeps hopened (by simp) rfl hstart
    rcases runMutationTests_aggregates host mutations crate errCount dir with
      ⟨-, hresults, hentries⟩ | ⟨hresults, hentries⟩
    · simp only [w, hresults, hentries]
      exact (Agrees.empty host).logAgrees
    · rw [testOwners_eq, Schedule.perform_run hvalid] at hresults hentries
      simp only [w, hresults, hentries]
      exact hagrees.logAgrees

end Crate

namespace SampleRun

/-- The first check fails, the second passes, the third panics with an error emitted,
    and the others fail. -/
def mixedCheck : Nat → Body → CheckRun
  | 0, _ => ⟨[⟨some "E0505", true⟩, ⟨none, false⟩], .tainted⟩
  | 1, _ => ⟨[], .passed⟩
  | 2, _ => ⟨[⟨some "E0382", true⟩], .panicked⟩
  | _, _ => ⟨[⟨some "E0499", true⟩, ⟨some "E0505", true⟩], .tainted⟩

end SampleRun

/-- The sample's mutants, each of which is checked in another way. -/
theorem log_agrees_sample :
    let host := SampleRun.hostWith [("MUTANTS_LOG", "1")] SampleRun.mixedCheck
    let w := (runMutationTests host [SampleRun.mutation] SampleRun.crate (.start 0 ∅)).2
    LogAgrees host w.mutantsLog w.mutatorResults := by
  intro host
  have hchecks : host.PanicsInCheckOnly := SampleRun.panicsInCheckOnly (by decide)
  exact (log_agrees_with_results hchecks rfl 0 ∅).2

end MutationTesting.Driver
