/-
  MutationTesting.Driver.ErrCount

  The error count of the session over a run.  It is reset in the last statement
  under `catch_unwind`, so the errors of a mutant that unwinds before that stay
  counted: the next check starts with them, or the run ends with them.
-/
import MutationTesting.Driver.Crate

namespace MutationTesting.Driver

open MutationTesting.Rust MutationTesting.Mir MutationTesting.Pcg MutationTesting.Mutator

namespace Host

/-- `DO_BORROWCK` is on, empty or unset. -/
def checksMutants (host : Host) : Bool := host.doBorrowckValid && host.doBorrowck

/-- The borrow check of the `n`-th mutant starts. -/
def startsCheck (host : Host) (n : Nat) : Bool := host.checksMutants && !host.panics n .tracking

/-- The mutant emits an error and unwinds before the error count is reset. -/
def leaks (host : Host) (n : Nat) (body : Body) : Bool :=
  host.startsCheck n && 0 < (host.check n body).errors &&
    (host.panicsRecording n (host.check n body).outcome || host.panicsLogging n ||
      host.panics n .reset)

end Host

/-- The error count was zero at the start of every check. -/
def StartsClean (w : World) : Prop := ∀ count ∈ w.checkStarts, count = 0

/-- Errors left before the mutants of the list, the first of which is the `n`-th
    of the run, meet neither a check nor the end of the run. -/
def Host.Unseen (host : Host) (n : Nat) (mutants : List Mutant) (ended : Option Abort) : Prop :=
  ended ≠ none ∧ ∀ k, k < mutants.length → host.startsCheck (n + k) = false

/-- The errors of every mutant that leaks them remain unseen. -/
def Host.LeaksUnseen (host : Host) (n : Nat) (mutants : List Mutant) (ended : Option Abort) :
    Prop :=
  ∀ k mutant, mutants[k]? = some mutant → host.leaks (n + k) mutant.body = true →
    host.Unseen (n + k + 1) (mutants.drop (k + 1)) ended

theorem Host.unseen_cons {host : Host} {n : Nat} {mutant : Mutant} {mutants : List Mutant}
    {ended : Option Abort} :
    host.Unseen n (mutant :: mutants) ended ↔
      host.startsCheck n = false ∧ host.Unseen (n + 1) mutants ended := by
  constructor
  · rintro ⟨hended, hall⟩
    refine ⟨hall 0 (Nat.succ_pos _), hended, fun k hk => ?_⟩
    rw [Nat.add_assoc, Nat.add_comm 1 k]
    exact hall (k + 1) (Nat.succ_lt_succ hk)
  · rintro ⟨hfirst, hended, hrest⟩
    refine ⟨hended, fun k hk => ?_⟩
    cases k with
    | zero => exact hfirst
    | succ k =>
      rw [← Nat.add_assoc, Nat.add_right_comm]
      exact hrest k (Nat.lt_of_succ_lt_succ hk)

theorem Host.leaksUnseen_cons {host : Host} {n : Nat} {mutant : Mutant} {mutants : List Mutant}
    {ended : Option Abort} :
    host.LeaksUnseen n (mutant :: mutants) ended ↔
      (host.leaks n mutant.body = true → host.Unseen (n + 1) mutants ended) ∧
      host.LeaksUnseen (n + 1) mutants ended := by
  constructor
  · intro h
    refine ⟨fun hleaks => h 0 mutant rfl hleaks, fun k mutant' hk hleaks => ?_⟩
    have hshift : n + 1 + k = n + (k + 1) := by omega
    rw [hshift] at hleaks ⊢
    exact h (k + 1) mutant' hk hleaks
  · rintro ⟨hfirst, hrest⟩ k mutant' hk hleaks
    cases k with
    | zero =>
      obtain rfl := Option.some.inj hk
      exact hfirst hleaks
    | succ k =>
      have hshift : n + (k + 1) = n + 1 + k := by omega
      rw [hshift] at hleaks ⊢
      exact hrest k mutant' hk hleaks

theorem Host.startsCheck_of_leaks {host : Host} {n : Nat} {body : Body}
    (h : host.leaks n body = true) : host.startsCheck n = true := by
  rw [leaks, Bool.and_assoc, Bool.and_eq_true] at h
  exact h.1

/-- Where no check starts nothing leaks. -/
theorem Host.Unseen.leaksUnseen {host : Host} {n : Nat} {mutants : List Mutant}
    {ended : Option Abort} (h : host.Unseen n mutants ended) :
    host.LeaksUnseen n mutants ended := by
  intro k mutant hk hleaks
  have hstarts := h.2 k (List.getElem?_eq_some_iff.mp hk).1
  rw [startsCheck_of_leaks hleaks] at hstarts
  cases hstarts

/-! ## One mutant -/

section Mutant

variable {host : Host} (name : String) (defId : LocalDefId) (mutant : Mutant) (w : World)

theorem course_starts (hvalid : host.doBorrowckValid = true) (n : Nat) (body : Body) :
    (host.course host.doBorrowck n body).starts = host.startsCheck n := by
  rw [Host.startsCheck, Host.checksMutants, hvalid, Bool.true_and]
  rfl

/-- A mutant leaks when its check starts, emits an error and is not completed. -/
theorem leaks_eq (hvalid : host.doBorrowckValid = true) (n : Nat) (body : Body) :
    host.leaks n body = (host.startsCheck n && decide (0 < (host.check n body).errors) &&
      !(host.course host.doBorrowck n body).completes) := by
  unfold Host.leaks
  cases hstarts : host.startsCheck n with
  | false => rfl
  | true =>
    have hon : host.doBorrowck = true := by
      rw [Host.startsCheck, Host.checksMutants, hvalid, Bool.true_and, Bool.and_eq_true] at hstarts
      exact hstarts.1
    have hcourse := course_starts hvalid n body
    rw [hon, hstarts] at hcourse
    have hcompletes : (host.course true n body).completes =
        !(host.panicsRecording n (host.check n body).outcome || host.panicsLogging n ||
          host.panics n .reset) := by
      have htrack : host.panics n .tracking = false := by simpa [Host.course] using hcourse
      -- a panicked check records nothing either
      simp only [Host.course, htrack]
      cases (host.check n body).outcome <;> simp [Host.panicsRecording, Bool.and_assoc]
    rw [hon, hcompletes, Bool.not_not]

theorem processed_checkStarts (hvalid : host.doBorrowckValid = true) :
    (w.processed host host.doBorrowck name defId mutant).checkStarts =
      if host.startsCheck w.mutants then w.checkStarts ++ [w.errCount] else w.checkStarts := by
  rw [← course_starts hvalid w.mutants mutant.body]
  rfl

theorem processed_errCount (hvalid : host.doBorrowckValid = true) :
    (w.processed host host.doBorrowck name defId mutant).errCount =
      if (host.course host.doBorrowck w.mutants mutant.body).completes then 0
      else if host.startsCheck w.mutants then
        w.errCount + (host.check w.mutants mutant.body).errors
      else w.errCount := by
  rw [← course_starts hvalid w.mutants mutant.body]
  rfl

/-- A mutant that leaks no errors leaves none. -/
theorem processed_errCount_of_not_leaks (hvalid : host.doBorrowckValid = true)
    (hquiet : w.errCount = 0) (hleaks : host.leaks w.mutants mutant.body = false) :
    (w.processed host host.doBorrowck name defId mutant).errCount = 0 := by
  rw [leaks_eq hvalid] at hleaks
  rw [processed_errCount name defId mutant w hvalid, hquiet]
  by_cases hcompletes : (host.course host.doBorrowck w.mutants mutant.body).completes = true
  · rw [if_pos hcompletes]
  rw [if_neg hcompletes]
  by_cases hstarts : host.startsCheck w.mutants = true
  · have hnone : (host.check w.mutants mutant.body).errors = 0 := by
      simpa [hstarts, hcompletes] using hleaks
    rw [if_pos hstarts, hnone]
  · rw [if_neg hstarts]

theorem processed_errCount_of_leaks (hvalid : host.doBorrowckValid = true)
    (hleaks : host.leaks w.mutants mutant.body = true) :
    0 < (w.processed host host.doBorrowck name defId mutant).errCount := by
  rw [leaks_eq hvalid, Bool.and_eq_true, Bool.and_eq_true, decide_eq_true_eq,
    Bool.not_eq_true'] at hleaks
  obtain ⟨⟨hstarts, herrors⟩, hcompletes⟩ := hleaks
  rw [processed_errCount name defId mutant w hvalid, hcompletes, hstarts]
  simp only [Bool.false_eq_true, if_false, if_true]
  omega

/-- Without a check there is no reset either. -/
theorem processed_errCount_of_not_starts (hvalid : host.doBorrowckValid = true)
    (hon : host.doBorrowck = true) (hstarts : host.startsCheck w.mutants = false) :
    (w.processed host host.doBorrowck name defId mutant).errCount = w.errCount := by
  have hcourse := course_starts hvalid w.mutants mutant.body
  rw [hon, hstarts] at hcourse
  have hcompletes : (host.course true w.mutants mutant.body).completes = false := by
    have htrack : host.panics w.mutants .tracking = true := by simpa [Host.course] using hcourse
    simp [Host.course, htrack]
  rw [processed_errCount name defId mutant w hvalid, hon, hcompletes, hstarts]
  rfl

end Mutant

/-! ## Runs -/

theorem StartsClean.of_prefix {w w' : World} (h : w.checkStarts <+: w'.checkStarts)
    (hclean : StartsClean w') : StartsClean w :=
  fun count hcount => hclean count (h.subset hcount)

theorem applySteps_checkStarts {host : Host} (hvalid : host.doBorrowckValid = true)
    (steps : List Step) (w : World) :
    w.checkStarts <+: (applySteps host steps w).checkStarts := by
  induction steps generalizing w with
  | nil => exact List.prefix_refl _
  | cons step steps ih =>
    refine List.IsPrefix.trans ?_ (ih (step.apply host w))
    cases step with
    | openEntry name => exact List.prefix_refl _
    | process name defId mutant =>
      rw [Step.apply, processed_checkStarts name defId mutant w hvalid]
      split
      · exact List.prefix_append _ _
      · exact List.prefix_refl _

/-- Errors that are there before a run are seen, unless it ends in a panic before
    any check. -/
theorem applySteps_of_noisy {host : Host} (hvalid : host.doBorrowckValid = true)
    (hon : host.doBorrowck = true) (ended : Option Abort) {steps : List Step} {w : World}
    (hnoisy : 0 < w.errCount) (hclean : StartsClean w) :
    (StartsClean (applySteps host steps w) ∧
      (ended = none → (applySteps host steps w).errCount = 0)) ↔
    host.Unseen w.mutants (steps.filterMap Step.mutant?) ended := by
  induction steps generalizing w with
  | nil =>
    constructor
    · rintro ⟨-, hquiet⟩
      refine ⟨fun hended => ?_, fun k hk => absurd hk (Nat.not_lt_zero _)⟩
      have hzero := hquiet hended
      rw [applySteps_nil] at hzero
      omega
    · rintro ⟨hended, -⟩
      exact ⟨hclean, fun hnone => absurd hnone hended⟩
  | cons step steps ih =>
    cases step with
    | openEntry name => exact ih (w := Step.apply host (.openEntry name) w) hnoisy hclean
    | process name defId mutant =>
      rw [filterMap_mutant_process, Host.unseen_cons, applySteps_cons, Step.apply]
      have hstarts' := processed_checkStarts name defId mutant w hvalid
      cases hstarts : host.startsCheck w.mutants with
      | true =>
        -- the check starts with the errors
        rw [hstarts, if_pos rfl] at hstarts'
        have hmem : w.errCount ∈
            (w.processed host host.doBorrowck name defId mutant).checkStarts := by
          rw [hstarts']
          exact List.mem_append_right _ (List.mem_singleton.mpr rfl)
        constructor
        · rintro ⟨hclean', -⟩
          have hzero := hclean'.of_prefix (applySteps_checkStarts hvalid _ _) _ hmem
          omega
        · rintro ⟨hfalse, -⟩
          cases hfalse
      | false =>
        have herr := processed_errCount_of_not_starts name defId mutant w hvalid hon hstarts
        rw [hstarts, if_neg (by decide)] at hstarts'
        rw [eq_self_iff_true, true_and]
        refine ih ?_ ?_
        · rw [herr]
          exact hnoisy
        · rw [StartsClean, hstarts']
          exact hclean

/-- From a state without errors, none are seen just as long as every leak remains
    unseen. -/
theorem applySteps_of_quiet {host : Host} (hvalid : host.doBorrowckValid = true)
    (ended : Option Abort) (steps : List Step) (w : World)
    (hquiet : w.errCount = 0) (hclean : StartsClean w) :
    (StartsClean (applySteps host steps w) ∧
      (ended = none → (applySteps host steps w).errCount = 0)) ↔
    host.LeaksUnseen w.mutants (steps.filterMap Step.mutant?) ended := by
  induction steps generalizing w with
  | nil =>
    refine iff_of_true ⟨hclean, fun _ => hquiet⟩ ?_
    intro k mutant hk
    cases hk
  | cons step steps ih =>
    cases step with
    | openEntry name => exact ih (Step.apply host (.openEntry name) w) hquiet hclean
    | process name defId mutant =>
      rw [filterMap_mutant_process, Host.leaksUnseen_cons, applySteps_cons, Step.apply]
      -- the check of this mutant starts without errors
      have hclean' : StartsClean (w.processed host host.doBorrowck name defId mutant) := by
        intro count hcount
        rw [processed_checkStarts name defId mutant w hvalid, hquiet] at hcount
        split at hcount
        · rcases List.mem_append.mp hcount with hcount | hcount
          · exact hclean count hcount
          · exact List.mem_singleton.mp hcount
        · exact hclean count hcount
      cases hleaks : host.leaks w.mutants mutant.body with
      | false =>
        have herr := processed_errCount_of_not_leaks name defId mutant w hvalid hquiet hleaks
        rw [ih _ herr hclean']
        simp [World.processed]
      | true =>
        have hnoisy := processed_errCount_of_leaks name defId mutant w hvalid hleaks
        have hon : host.doBorrowck = true := by
          have hstarts := Host.startsCheck_of_leaks hleaks
          rw [Host.startsCheck, Host.checksMutants, Bool.and_eq_true, Bool.and_eq_true] at hstarts
          exact hstarts.1.2
        -- from the first leak on all depends on what comes after it
        rw [applySteps_of_noisy hvalid hon ended hnoisy hclean']
        exact ⟨fun h => ⟨fun _ => h, h.leaksUnseen⟩, fun h => h.1 rfl⟩

/-- On an unexpected value of `DO_BORROWCK` no check starts and no error is
    emitted. -/
theorem perform_preserves_quiet {host : Host} (hvalid : host.doBorrowckValid = false)
    (s : Schedule) :
    Unwind.Preserves (fun w => w.errCount = 0 ∧ StartsClean w) (s.perform host) := by
  refine s.perform_preserves fun step => ?_
  cases step with
  | openEntry name => exact Unwind.Preserves.modify fun w hw => hw
  | process name defId mutant =>
    intro w hw
    obtain ⟨e, henv⟩ := Res.isOk_eq_false.mp hvalid
    rw [Step.perform, processMutant_run_error henv]
    exact hw

section Body

variable {σ : Type} [FiniteIterator σ Mutant]

/-- The state without errors, and without checks on record. -/
def World.quiet (w : World) : World := { w with errCount := 0, checkStarts := [] }

/-- The error count is zero whenever a check starts and when the function returns,
    just as long as the errors of each mutant that unwinds before the reset are
    not seen: no later check starts, and the function does not return. -/
theorem errCount_restored_iff (host : Host) (mutations : List (Mutation σ)) (ctx : CompilerCtxt)
    (defId : LocalDefId) (body : Body) (analysis : PcgOutput) (w : World) :
    (∀ r w', runMutationTestsForBody host mutations ctx defId body analysis w.quiet = (r, w') →
      StartsClean w' ∧ (r = .ok () → w'.errCount = 0)) ↔
    host.LeaksUnseen w.mutants (bodySchedule mutations ctx defId body analysis).mutants
      (bodySchedule mutations ctx defId body analysis).ended := by
  rw [runMutationTestsForBody_eq]
  generalize bodySchedule mutations ctx defId body analysis = s
  have hclean : StartsClean w.quiet := by
    intro count hcount
    cases hcount
  cases hvalid : host.doBorrowckValid with
  | true =>
    have hrun := applySteps_of_quiet hvalid s.ended s.steps w.quiet rfl hclean
    rw [Schedule.perform_run hvalid]
    refine Iff.trans ?_ hrun
    constructor
    · intro h
      obtain ⟨hstarts, hquiet⟩ := h _ _ rfl
      refine ⟨hstarts, fun hended => hquiet ?_⟩
      rw [hended]
    · rintro ⟨hstarts, hquiet⟩ r w' hpair
      cases hpair
      refine ⟨hstarts, fun hok => hquiet ?_⟩
      cases hended : s.ended with
      | none => rfl
      | some e =>
        rw [hended] at hok
        cases hok
  | false =>
    refine iff_of_true ?_ ?_
    · intro r w' hrun
      -- no mutant is checked, so none can leak
      have hpreserved := perform_preserves_quiet hvalid s w.quiet ⟨rfl, hclean⟩
      rw [hrun] at hpreserved
      exact ⟨hpreserved.2, fun _ => hpreserved.1⟩
    · intro k mutant _ hleaks
      have hstarts := Host.startsCheck_of_leaks hleaks
      rw [Host.startsCheck, Host.checksMutants, hvalid] at hstarts
      cases hstarts

end Body

/-- The borrow checker panics on each of the sample's mutants after an error: the
    error count has not been reset when the function returns. -/
theorem not_errCount_restored : ¬ ∀ (host : Host) (mutations : List (Mutation MutantStream))
    (ctx : CompilerCtxt) (defId : LocalDefId) (body : Body) (analysis : PcgOutput) (w : World)
    (r : Res Unit) (w' : World),
    runMutationTestsForBody host mutations ctx defId body analysis w.quiet = (r, w') →
    StartsClean w' ∧ (r = .ok () → w'.errCount = 0) := by
  intro h
  let host := SampleRun.host [] ⟨[⟨some "E0505", true⟩], .panicked⟩
  let w := World.start 0 ∅
  have hrun : runMutationTestsForBody host [SampleRun.mutation] Sample.ctx 0 Sample.body
      (Sample.analysisOf Sample.body) w.quiet =
      (.ok (), applySteps host SampleRun.steps w.quiet) := by
    rw [runMutationTestsForBody_eq, SampleRun.bodySchedule_eq, Schedule.perform_run rfl]
  obtain ⟨hclean, hquiet⟩ := h _ _ _ _ _ _ w _ _ hrun
  have hvalid : host.doBorrowckValid = true := rfl
  have hunseen := (applySteps_of_quiet hvalid none SampleRun.steps w.quiet rfl
    (by intro count hcount; cases hcount)).mp ⟨hclean, fun _ => hquiet rfl⟩
  obtain ⟨hended, -⟩ := hunseen 0 _ rfl rfl
  exact hended rfl

end MutationTesting.Driver
