/-
  MutationTesting.Driver.Schedule

  The loops over mutations and mutants, unrolled.  Which mutants a mutation has
  does not depend on the state of the run, so a run is a list of steps, each of
  which opens an entry of the results or processes a mutant, and the abort that
  cuts the list short if a mutator panics.
-/
import MutationTesting.Driver.Course

namespace MutationTesting.Driver

open MutationTesting.Rust MutationTesting.Mir MutationTesting.Pcg MutationTesting.Mutator

inductive Step where
  | openEntry (name : String)
  | process (name : String) (defId : LocalDefId) (mutant : Mutant)

/-- The steps of a run and the abort after them, if the mutators end in one. -/
structure Schedule where
  steps : List Step
  ended : Option Abort

def Step.perform (host : Host) : Step → Unwind World Unit
  | .openEntry name => Driver.openEntry name
  | .process name defId mutant => processMutant host name defId mutant

/-- The mutant a step processes. -/
def Step.mutant? : Step → Option Mutant
  | .openEntry _ => none
  | .process _ _ mutant => some mutant

theorem filterMap_mutant_process (name : String) (defId : LocalDefId) (mutant : Mutant)
    (steps : List Step) : (Step.process name defId mutant :: steps).filterMap Step.mutant? =
      mutant :: steps.filterMap Step.mutant? := rfl

namespace Schedule

def empty : Schedule := ⟨[], none⟩

/-- One schedule after another, unless the first is cut short. -/
def andThen (s t : Schedule) : Schedule :=
  match s.ended with
  | none => ⟨s.steps ++ t.steps, t.ended⟩
  | some _ => s

def perform (host : Host) (s : Schedule) : Unwind World Unit := do
  s.steps.forM (Step.perform host)
  match s.ended with
  | none => pure ()
  | some e => throw e

/-- The mutants a schedule processes, in order. -/
def mutants (s : Schedule) : List Mutant := s.steps.filterMap Step.mutant?

theorem perform_andThen (host : Host) (s t : Schedule) :
    (s.andThen t).perform host = (s.perform host >>= fun _ => t.perform host) := by
  obtain ⟨steps, ended⟩ := s
  cases ended with
  | none =>
    simp only [andThen, perform, List.forM_eq_forM, List.forM_append, bind_assoc, pure_bind]
  | some e =>
    simp only [andThen, perform, bind_assoc]
    rfl

end Schedule

section Body

variable {σ : Type} [FiniteIterator σ Mutant]

/-- A mutation on a body. -/
def mutationSchedule (mutation : Mutation σ) (ctx : CompilerCtxt) (defId : LocalDefId)
    (body : Body) (analysis : PcgOutput) : Schedule :=
  let drained := drain (Mutator.new mutation ctx analysis body)
  ⟨.openEntry mutation.name :: drained.1.map (.process mutation.name defId), drained.2⟩

/-- All mutations on a body. -/
def bodySchedule (mutations : List (Mutation σ)) (ctx : CompilerCtxt) (defId : LocalDefId)
    (body : Body) (analysis : PcgOutput) : Schedule :=
  mutations.foldr
    (fun mutation s => (mutationSchedule mutation ctx defId body analysis).andThen s) .empty

/-- The loops perform their schedule. -/
theorem runMutationTestsForBody_eq (host : Host) (mutations : List (Mutation σ))
    (ctx : CompilerCtxt) (defId : LocalDefId) (body : Body) (analysis : PcgOutput) :
    runMutationTestsForBody host mutations ctx defId body analysis =
      (bodySchedule mutations ctx defId body analysis).perform host := by
  induction mutations with
  | nil => rfl
  | cons mutation mutations ih =>
    have hmutation : (do
        openEntry mutation.name
        whileLet (Mutator.new mutation ctx analysis body)
          (processMutant host mutation.name defId)) =
        (mutationSchedule mutation ctx defId body analysis).perform host := by
      rw [whileLet_eq_forM]
      simp only [Schedule.perform, mutationSchedule, List.forM_eq_forM, List.forM_cons,
        List.forM_map, bind_assoc]
      rfl
    rw [runMutationTestsForBody, List.forM_eq_forM, List.forM_cons, hmutation, bodySchedule,
      List.foldr_cons, Schedule.perform_andThen, ← bodySchedule, ← ih]
    rfl

end Body

/-! ## Entries -/

/-- Each mutant of the steps has its entry opened before it, or it is among
    `names`. -/
def Opened (names : List String) : List Step → Prop
  | [] => True
  | .openEntry name :: steps => Opened (name :: names) steps
  | .process name _ _ :: steps => name ∈ names ∧ Opened names steps

theorem Opened.mono {names names' : List String} (h : names ⊆ names') {steps : List Step}
    (hopened : Opened names steps) : Opened names' steps := by
  induction steps generalizing names names' with
  | nil => trivial
  | cons step steps ih =>
    cases step with
    | openEntry name => exact ih (List.cons_subset_cons name h) hopened
    | process name defId mutant => exact ⟨h hopened.1, ih h hopened.2⟩

theorem Opened.append {names : List String} {steps steps' : List Step}
    (h : Opened names steps) (h' : Opened names steps') : Opened names (steps ++ steps') := by
  induction steps generalizing names with
  | nil => exact h'
  | cons step steps ih =>
    cases step with
    | openEntry name => exact ih h (h'.mono (List.subset_cons_self name names))
    | process name defId mutant => exact ⟨h.1, ih h.2 h'⟩

theorem Schedule.opened_andThen {names : List String} {s t : Schedule}
    (h : Opened names s.steps) (h' : Opened names t.steps) :
    Opened names (s.andThen t).steps := by
  unfold andThen
  split
  · exact h.append h'
  · exact h

theorem opened_bodySchedule {σ : Type} [FiniteIterator σ Mutant] (mutations : List (Mutation σ))
    (ctx : CompilerCtxt) (defId : LocalDefId) (body : Body) (analysis : PcgOutput) :
    Opened [] (bodySchedule mutations ctx defId body analysis).steps := by
  induction mutations with
  | nil => trivial
  | cons mutation mutations ih =>
    refine Schedule.opened_andThen ?_ ih
    show Opened [mutation.name] _
    generalize (drain (Mutator.new mutation ctx analysis body)).1 = mutants
    induction mutants with
    | nil => trivial
    | cons mutant mutants ih => exact ⟨List.mem_singleton.mpr rfl, ih⟩

/-! ## Runs -/

namespace Host

/-- Whether mutants are borrow checked: `DO_BORROWCK` is on, empty or unset.  On
    an unexpected value no mutant is processed to its end. -/
def doBorrowck (host : Host) : Bool :=
  match envFeatureEnabled host.env "DO_BORROWCK" with
  | .ok enabled => enabled.getD true
  | .error _ => true

/-- `DO_BORROWCK` has an expected value. -/
def doBorrowckValid (host : Host) : Bool :=
  (envFeatureEnabled host.env "DO_BORROWCK").isOk

theorem doBorrowck_eq_true {host : Host}
    (hon : envFeatureEnabled host.env "DO_BORROWCK" ≠ .ok (some false)) :
    host.doBorrowck = true := by
  unfold doBorrowck
  cases henv : envFeatureEnabled host.env "DO_BORROWCK" with
  | error e => rfl
  | ok enabled =>
    rcases enabled with _ | _ | _
    · rfl
    · exact absurd henv hon
    · rfl

end Host

/-- What a step does to the state. -/
def Step.apply (host : Host) : Step → World → World
  | .openEntry name, w => { w with mutatorResults := w.mutatorResults.orInsert name .zero }
  | .process name defId mutant, w => w.processed host host.doBorrowck name defId mutant

/-- What a list of steps does to the state. -/
def applySteps (host : Host) (steps : List Step) (w : World) : World :=
  steps.foldl (fun w step => step.apply host w) w

@[simp] theorem applySteps_nil (host : Host) (w : World) : applySteps host [] w = w := rfl

@[simp] theorem applySteps_cons (host : Host) (step : Step) (steps : List Step) (w : World) :
    applySteps host (step :: steps) w = applySteps host steps (step.apply host w) := rfl

@[simp] theorem Step.apply_tracking (host : Host) (step : Step) (w : World) :
    (step.apply host w).tracking = w.tracking := by
  cases step <;> rfl

@[simp] theorem applySteps_tracking (host : Host) (steps : List Step) (w : World) :
    (applySteps host steps w).tracking = w.tracking := by
  induction steps generalizing w with
  | nil => rfl
  | cons step steps ih => rw [applySteps_cons, ih, Step.apply_tracking]

@[simp] theorem applySteps_resultsDir (host : Host) (steps : List Step) (w : World) :
    (applySteps host steps w).resultsDir = w.resultsDir := by
  induction steps generalizing w with
  | nil => rfl
  | cons step steps ih =>
    rw [applySteps_cons, ih]
    cases step <;> rfl

/-- Which bodies pass depends on the answers of the host only. -/
theorem applySteps_passedBodies_congr (host : Host) (steps : List Step) {w w' : World}
    (hmutants : w.mutants = w'.mutants) (hpassed : w.passedBodies = w'.passedBodies) :
    (applySteps host steps w).passedBodies = (applySteps host steps w').passedBodies := by
  induction steps generalizing w w' with
  | nil => exact hpassed
  | cons step steps ih =>
    rw [applySteps_cons, applySteps_cons]
    cases step with
    | openEntry name => exact ih hmutants hpassed
    | process name defId mutant =>
      refine ih ?_ ?_
      · simp only [Step.apply, World.processed, hmutants]
      · simp only [Step.apply, World.processed, World.passedWith, hmutants, hpassed]

/-- The entry of the mutation a step is for is open. -/
def Step.OpenedIn (w : World) : Step → Prop
  | .openEntry _ => True
  | .process name _ _ => name ∈ w.mutatorResults

theorem Step.mem_apply {host : Host} {step : Step} {w : World} {name : String}
    (h : name ∈ w.mutatorResults) : name ∈ (step.apply host w).mutatorResults := by
  cases step with
  | openEntry name' => exact HashMap.mem_orInsert.mpr (.inr h)
  | process name' defId mutant => exact HashMap.mem_modify.mpr h

theorem mem_applySteps {host : Host} {steps : List Step} {w : World} {name : String}
    (h : name ∈ w.mutatorResults) : name ∈ (applySteps host steps w).mutatorResults := by
  induction steps generalizing w with
  | nil => exact h
  | cons step steps ih => exact ih (Step.mem_apply h)

/-- Opening an entry keeps the other entries open. -/
theorem forall_mem_openEntry (host : Host) {names : List String} {name : String} {w : World}
    (h : ∀ name' ∈ names, name' ∈ w.mutatorResults) :
    ∀ name' ∈ name :: names, name' ∈ ((Step.openEntry name).apply host w).mutatorResults := by
  intro name' hname'
  rcases List.mem_cons.mp hname' with rfl | hname'
  · exact HashMap.mem_orInsert.mpr (.inl rfl)
  · exact Step.mem_apply (h name' hname')

/-- What every step preserves whose entry is open, a run preserves. -/
theorem applySteps_invariant (host : Host) {P : World → Prop}
    (hstep : ∀ step w, Step.OpenedIn w step → P w → P (step.apply host w)) {names : List String}
    {steps : List Step} (hopened : Opened names steps) {w : World}
    (hnames : ∀ name ∈ names, name ∈ w.mutatorResults) (h : P w) :
    P (applySteps host steps w) := by
  induction steps generalizing names w with
  | nil => exact h
  | cons step steps ih =>
    rw [applySteps_cons]
    cases step with
    | openEntry name =>
      exact ih hopened (forall_mem_openEntry host hnames) (hstep _ w trivial h)
    | process name defId mutant =>
      obtain ⟨hname, hopened⟩ := hopened
      exact ih hopened (fun name' hname' => Step.mem_apply (hnames name' hname'))
        (hstep _ w (hnames name hname) h)

theorem Opened.left {names : List String} {steps steps' : List Step}
    (h : Opened names (steps ++ steps')) : Opened names steps := by
  induction steps generalizing names with
  | nil => trivial
  | cons step steps ih =>
    cases step with
    | openEntry name => exact ih h
    | process name defId mutant => exact ⟨h.1, ih h.2⟩

/-- After the first part of a run the entries that the rest needs are open. -/
theorem Opened.right (host : Host) {names : List String} {steps steps' : List Step}
    (h : Opened names (steps ++ steps')) {w : World}
    (hnames : ∀ name ∈ names, name ∈ w.mutatorResults) : ∃ names',
    Opened names' steps' ∧ ∀ name ∈ names', name ∈ (applySteps host steps w).mutatorResults := by
  induction steps generalizing names w with
  | nil => exact ⟨names, h, hnames⟩
  | cons step steps ih =>
    rw [applySteps_cons]
    cases step with
    | openEntry name => exact ih h (forall_mem_openEntry host hnames)
    | process name defId mutant =>
      exact ih h.2 fun name' hname' => Step.mem_apply (hnames name' hname')

theorem Step.perform_run {host : Host} (hvalid : host.doBorrowckValid = true) (step : Step)
    (w : World) : step.perform host w = (.ok (), step.apply host w) := by
  cases step with
  | openEntry name => rfl
  | process name defId mutant =>
    obtain ⟨enabled, henv⟩ := Res.isOk_eq_true.mp hvalid
    rw [Step.perform, processMutant_run henv, Step.apply, Host.doBorrowck, henv]

/-- No panic under `catch_unwind` ends a run. -/
theorem steps_run {host : Host} (hvalid : host.doBorrowckValid = true) (steps : List Step)
    (w : World) : (steps.forM (Step.perform host)) w = (.ok (), applySteps host steps w) := by
  induction steps generalizing w with
  | nil => rfl
  | cons step steps ih =>
    rw [List.forM_eq_forM, List.forM_cons, Unwind.bind_run, Step.perform_run hvalid]
    exact ih _

theorem Schedule.perform_run {host : Host} (hvalid : host.doBorrowckValid = true) (s : Schedule)
    (w : World) :
    s.perform host w =
      (match s.ended with
        | none => .ok ()
        | some e => .error e,
      applySteps host s.steps w) := by
  rw [perform, Unwind.bind_run, steps_run hvalid]
  cases s.ended <;> rfl

/-- On an unexpected value of `DO_BORROWCK` the first mutant ends the run. -/
theorem Step.perform_run_invalid {host : Host} (hvalid : host.doBorrowckValid = false)
    (step : Step) (w : World) :
    (∃ name, step = .openEntry name ∧ step.perform host w = (.ok (), step.apply host w)) ∨
    (∃ e, (step.perform host w).1 = .error e) := by
  cases step with
  | openEntry name => exact .inl ⟨name, rfl, rfl⟩
  | process name defId mutant =>
    obtain ⟨e, henv⟩ := Res.isOk_eq_false.mp hvalid
    refine .inr ⟨e, ?_⟩
    rw [Step.perform, processMutant_run_error henv]

/-- Without mutants the steps are taken all the same. -/
theorem steps_run_invalid {host : Host} (hvalid : host.doBorrowckValid = false)
    (steps : List Step) (w : World) :
    (steps.filterMap Step.mutant? = [] ∧
      (steps.forM (Step.perform host)) w = (.ok (), applySteps host steps w)) ∨
    (∃ e, ((steps.forM (Step.perform host)) w).1 = .error e) := by
  induction steps generalizing w with
  | nil => exact .inl ⟨rfl, rfl⟩
  | cons step steps ih =>
    rw [List.forM_eq_forM, List.forM_cons, Unwind.bind_run]
    rcases Step.perform_run_invalid hvalid step w with ⟨name, rfl, hrun⟩ | ⟨e, herror⟩
    · rw [hrun]
      exact ih _
    · right
      refine ⟨e, ?_⟩
      rcases hrun : step.perform host w with ⟨r, w₁⟩
      rw [hrun] at herror
      simp only at herror
      rw [herror]

theorem steps_run_inv {host : Host} {steps : List Step} {w w' : World}
    (h : (steps.forM (Step.perform host)) w = (.ok (), w')) : w' = applySteps host steps w := by
  cases hvalid : host.doBorrowckValid with
  | true =>
    rw [steps_run hvalid] at h
    cases h
    rfl
  | false =>
    rcases steps_run_invalid hvalid steps w with ⟨-, hrun⟩ | ⟨e, herror⟩
    · rw [hrun] at h
      cases h
      rfl
    · rw [h] at herror
      cases herror

/-- A run that returns has taken the steps of its schedule. -/
theorem Schedule.perform_inv {host : Host} {s : Schedule} {w w' : World}
    (h : s.perform host w = (.ok (), w')) : s.ended = none ∧ w' = applySteps host s.steps w := by
  rw [perform, Unwind.bind_run] at h
  rcases hsteps : (s.steps.forM (Step.perform host)) w with ⟨_ | _, w₁⟩
  · rw [hsteps] at h
    cases h
  · rw [hsteps] at h
    cases hended : s.ended with
    | some e =>
      rw [hended] at h
      cases h
    | none =>
      rw [hended] at h
      cases h
      exact ⟨rfl, steps_run_inv hsteps⟩

/-- Whether a schedule is performed to its end: no mutator panics, and
    `DO_BORROWCK` has an expected value once there is a mutant. -/
def Schedule.Returns (host : Host) (s : Schedule) : Prop :=
  s.ended = none ∧ (host.doBorrowckValid = true ∨ s.mutants = [])

theorem steps_run_of_no_mutants (host : Host) {steps : List Step}
    (h : steps.filterMap Step.mutant? = []) (w : World) :
    ((steps.forM (Step.perform host)) w).1 = .ok () := by
  induction steps generalizing w with
  | nil => rfl
  | cons step steps ih =>
    cases step with
    | openEntry name =>
      rw [List.forM_eq_forM, List.forM_cons]
      exact ih h _
    | process name defId mutant => cases h

theorem no_mutants_of_steps_run {host : Host} (hvalid : host.doBorrowckValid = false)
    {steps : List Step} {w : World} (h : ((steps.forM (Step.perform host)) w).1 = .ok ()) :
    steps.filterMap Step.mutant? = [] := by
  rcases steps_run_invalid hvalid steps w with ⟨hnone, -⟩ | ⟨e, herror⟩
  · exact hnone
  · rw [h] at herror
    cases herror

theorem Schedule.perform_ok_iff {host : Host} {s : Schedule} {w : World} :
    (s.perform host w).1 = .ok () ↔ s.Returns host := by
  have hended : ∀ w : World, ((match s.ended with
      | none => pure ()
      | some e => throw e : Unwind World Unit) w).1 = .ok () ↔ s.ended = none := by
    intro w
    cases s.ended <;> simp
  have hsteps : ((s.steps.forM (Step.perform host)) w).1 = .ok () ↔
      host.doBorrowckValid = true ∨ s.mutants = [] := by
    constructor
    · intro h
      cases hvalid : host.doBorrowckValid with
      | true => exact .inl rfl
      | false => exact .inr (no_mutants_of_steps_run hvalid h)
    · rintro (hvalid | hnone)
      · rw [steps_run hvalid]
      · exact steps_run_of_no_mutants host hnone w
  rw [perform, Unwind.bind_run, Returns, ← hsteps]
  rcases (s.steps.forM (Step.perform host)) w with ⟨_ | _, w₁⟩
  · simp
  · simpa using hended w₁

/-- What every step preserves survives the schedule, however it ends. -/
theorem Schedule.perform_preserves {host : Host} {P : World → Prop} (s : Schedule)
    (hstep : ∀ step, Unwind.Preserves P (Step.perform host step)) :
    Unwind.Preserves P (s.perform host) := by
  refine Unwind.Preserves.bind (Unwind.Preserves.forM fun step _ => hstep step) fun _ => ?_
  cases s.ended with
  | none => exact Unwind.Preserves.pure ()
  | some e => exact Unwind.Preserves.throw e

/-- The tests touch no file. -/
theorem Schedule.perform_preserves_files (host : Host) (s : Schedule) (dir : Directory)
    (visualized : Bool) (created : List String) :
    Unwind.Preserves
      (fun w => w.resultsDir = dir ∧ w.visualized = visualized ∧ w.created = created)
      (s.perform host) := by
  refine s.perform_preserves fun step => ?_
  cases step with
  | openEntry name => exact Unwind.Preserves.modify fun w hw => hw
  | process name defId mutant =>
    intro w hw
    cases henv : envFeatureEnabled host.env "DO_BORROWCK" with
    | ok enabled =>
      rw [Step.perform, processMutant_run henv]
      exact hw
    | error e =>
      rw [Step.perform, processMutant_run_error henv]
      exact hw

end MutationTesting.Driver
