/-
  MutationTesting.Driver.Order

  The order of the tests.

  When the borrow check is a function of the body it is given, a run adds the
  verdict of each mutant to the counts of its mutation, wherever in the run the
  mutant comes.  Testing the mutations or the bodies in another order permutes
  the steps of the run, and sums do not depend on the order.
-/
import MutationTesting.Driver.Log

namespace MutationTesting.Driver

open MutationTesting.Rust MutationTesting.Mir MutationTesting.Pcg MutationTesting.Mutator

/-- The borrow check depends on nothing but the body. -/
def Host.ChecksBody (host : Host) : Prop := ∀ n body, host.check n body = host.check 0 body

/-- What the compiler says of a body owner depends on its id only. -/
def Crate.Coherent (crate : Crate) : Prop :=
  ∀ owner ∈ crate.bodyOwners, ∀ owner' ∈ crate.bodyOwners,
    owner.defId = owner'.defId → owner = owner'

/-! ## Permuted schedules -/

namespace Schedule

variable {ι : Type} {f : ι → Schedule}

/-- Schedules that are not cut short are performed one after the other. -/
theorem foldr_andThen {xs : List ι} (h : ∀ x ∈ xs, (f x).ended = none) :
    xs.foldr (fun x s => (f x).andThen s) .empty = ⟨xs.flatMap fun x => (f x).steps, none⟩ := by
  induction xs with
  | nil => rfl
  | cons x xs ih =>
    obtain ⟨hx, hxs⟩ := List.forall_mem_cons.mp h
    rw [List.foldr_cons, ih hxs, andThen, hx, List.flatMap_cons]

theorem ended_of_foldr {xs : List ι}
    (h : (xs.foldr (fun x s => (f x).andThen s) .empty).ended = none) :
    ∀ x ∈ xs, (f x).ended = none := by
  induction xs with
  | nil => simp
  | cons x xs ih =>
    rw [List.foldr_cons, andThen] at h
    cases hx : (f x).ended with
    | some e =>
      simp [hx] at h
    | none =>
      rw [hx] at h
      exact List.forall_mem_cons.mpr ⟨hx, ih h⟩

/-- `t` has the steps of `s` in some order, and is not cut short if `s` is not. -/
def Permutes (s t : Schedule) : Prop := s.ended = none → t.ended = none ∧ s.steps.Perm t.steps

theorem Permutes.foldr {g : ι → Schedule} {xs ys : List ι} (hperm : xs.Perm ys)
    (h : ∀ x ∈ xs, (f x).Permutes (g x)) :
    Permutes (xs.foldr (fun x s => (f x).andThen s) .empty)
      (ys.foldr (fun y s => (g y).andThen s) .empty) := by
  intro hended
  have hf := ended_of_foldr hended
  have hg : ∀ y ∈ ys, (g y).ended = none := by
    intro y hy
    have hy := hperm.mem_iff.mpr hy
    exact (h y hy (hf y hy)).1
  rw [foldr_andThen hf, foldr_andThen hg]
  exact ⟨rfl, hperm.flatMap fun x hx => (h x hx (hf x hx)).2⟩

end Schedule

section Permuted

variable {σ : Type} [FiniteIterator σ Mutant] (host : Host)
  {mutations mutations' : List (Mutation σ)} (tcx : TyCtxt)

/-- The mutations in another order. -/
theorem testSchedule_permutes (h : mutations.Perm mutations') (tested : LocalDefId × Body) :
    (testSchedule host mutations tcx tested).Permutes
      (testSchedule host mutations' tcx tested) := by
  unfold testSchedule
  cases host.runPcg tested.2 none with
  | error e =>
    intro hended
    cases hended
  | ok analysis => exact Schedule.Permutes.foldr h fun mutation _ hended => ⟨hended, .rfl⟩

/-- The bodies in another order. -/
theorem bodiesSchedule_permutes (h : mutations.Perm mutations')
    {tested tested' : List (LocalDefId × Body)} (htested : tested.Perm tested') :
    (bodiesSchedule host mutations tcx tested).Permutes
      (bodiesSchedule host mutations' tcx tested') :=
  Schedule.Permutes.foldr htested fun body _ => testSchedule_permutes host tcx h body

/-- The body of the owner is taken from the map. -/
def BodyOwner.takes (owner : BodyOwner) : Bool :=
  host.env "PCG_SKIP_FUNCTION" ≠ some (host.defPathStr owner.defId) &&
    match owner.kind with
    | .other => false
    | .fn | .assocFn => true

/-- The body of the owner, if it is to be tested. -/
def BodyOwner.tested (owner : BodyOwner) (bodyMap : HashMap LocalDefId Body) :
    Option (LocalDefId × Body) :=
  match owner.safety with
  | .unsafeFn => none
  | .safe => if owner.takes host then (bodyMap.lookup owner.defId).map (owner.defId, ·) else none

/-- The bodies left after the owner. -/
def BodyOwner.rest (owner : BodyOwner) (bodyMap : HashMap LocalDefId Body) :
    HashMap LocalDefId Body :=
  if owner.takes host then bodyMap.erase owner.defId else bodyMap

theorem erase_of_lookup_none {bodyMap : HashMap LocalDefId Body} {defId : LocalDefId}
    (h : bodyMap.lookup defId = none) : bodyMap.erase defId = bodyMap := by
  apply Finmap.ext_lookup
  intro defId'
  by_cases hdefId : defId' = defId
  · rw [hdefId, Finmap.lookup_erase, h]
  · rw [Finmap.lookup_erase_ne hdefId]

theorem testedBodies_cons (owner : BodyOwner) (owners : List BodyOwner)
    (bodyMap : HashMap LocalDefId Body) :
    testedBodies host (owner :: owners) bodyMap =
      (owner.tested host bodyMap).toList ++ testedBodies host owners (owner.rest host bodyMap) := by
  obtain ⟨defId, kind, safety⟩ := owner
  rw [testedBodies]
  by_cases hskip : host.env "PCG_SKIP_FUNCTION" = some (host.defPathStr defId)
  · cases safety <;> simp [BodyOwner.tested, BodyOwner.rest, BodyOwner.takes, hskip]
  · cases kind with
    | other => cases safety <;> simp [BodyOwner.tested, BodyOwner.rest, BodyOwner.takes, hskip]
    | fn | assocFn =>
      cases hbody : bodyMap.lookup defId with
      | none =>
        cases safety <;> simp [BodyOwner.tested, BodyOwner.rest, BodyOwner.takes, hskip, hbody,
          erase_of_lookup_none hbody]
      | some body =>
        cases safety <;> simp [BodyOwner.tested, BodyOwner.rest, BodyOwner.takes, hskip, hbody]

/-- Owners of different bodies do not get in each other's way. -/
theorem tested_rest_of_ne {owner owner' : BodyOwner} (hne : owner.defId ≠ owner'.defId)
    (bodyMap : HashMap LocalDefId Body) :
    owner.tested host (owner'.rest host bodyMap) = owner.tested host bodyMap := by
  unfold BodyOwner.tested BodyOwner.rest
  by_cases htakes : owner'.takes host = true
  · rw [if_pos htakes, Finmap.lookup_erase_ne hne]
  · rw [if_neg htakes]

theorem rest_comm (owner owner' : BodyOwner) (bodyMap : HashMap LocalDefId Body) :
    owner.rest host (owner'.rest host bodyMap) = owner'.rest host (owner.rest host bodyMap) := by
  unfold BodyOwner.rest
  by_cases htakes : owner.takes host = true
  · by_cases htakes' : owner'.takes host = true
    · rw [if_pos htakes, if_pos htakes', if_pos htakes, if_pos htakes', Finmap.erase_erase]
    · rw [if_neg htakes', if_neg htakes']
  · rw [if_neg htakes, if_neg htakes]

/-- The same bodies are tested, whatever the order of their owners. -/
theorem testedBodies_perm {owners owners' : List BodyOwner} (h : owners.Perm owners')
    (hcoherent : ∀ owner ∈ owners, ∀ owner' ∈ owners,
      owner.defId = owner'.defId → owner = owner')
    (bodyMap : HashMap LocalDefId Body) :
    (testedBodies host owners bodyMap).Perm (testedBodies host owners' bodyMap) := by
  induction h generalizing bodyMap with
  | nil => exact .rfl
  | cons owner h ih =>
    rw [testedBodies_cons, testedBodies_cons]
    refine (ih ?_ _).append_left _
    intro a ha b hb
    exact hcoherent a (List.mem_cons_of_mem _ ha) b (List.mem_cons_of_mem _ hb)
  | swap owner owner' owners =>
    by_cases hid : owner.defId = owner'.defId
    · obtain rfl := hcoherent owner (by simp) owner' (by simp) hid
      exact .rfl
    -- two owners of different bodies do not see what the other takes
    · simp only [testedBodies_cons]
      rw [tested_rest_of_ne host hid, tested_rest_of_ne host (Ne.symm hid), rest_comm,
        ← List.append_assoc, ← List.append_assoc]
      exact List.perm_append_comm.append_right _
  | trans h h' ih ih' =>
    refine (ih hcoherent bodyMap).trans (ih' ?_ bodyMap)
    intro a ha b hb
    exact hcoherent a (h.mem_iff.mpr ha) b (h.mem_iff.mpr hb)

end Permuted

/-! ## The results as a tally -/

/-- What a step adds to the counts, and of which mutation. -/
def Step.amount (host : Host) : Step → String × MutatorData
  | .openEntry name => (name, 0)
  | .process name _ mutant => (name, host.verdict 0 mutant.body)

theorem Host.ChecksBody.verdict_eq {host : Host} (hbody : host.ChecksBody) (n : Nat)
    (body : Body) : host.verdict n body = host.verdict 0 body := by
  rw [Host.verdict, Host.verdict, hbody n body]

section Tally

variable {host : Host} (hchecks : host.PanicsInCheckOnly) (hbody : host.ChecksBody)

include hchecks hbody

theorem Step.apply_add {step : Step} {w : World} (hopened : step.OpenedIn w)
    (htracking : w.tracking = true) :
    (step.apply host w).mutatorResults =
      w.mutatorResults.add (step.amount host).1 (step.amount host).2 := by
  cases step with
  | openEntry name => exact HashMap.orInsert_eq_add w.mutatorResults name
  | process name defId mutant =>
    rw [Step.apply, (hchecks.processed_eq defId mutant htracking hopened).1, hbody.verdict_eq]
    rfl

/-- A run adds up what its steps add. -/
theorem applySteps_tally {names : List String} {steps : List Step} (hopened : Opened names steps)
    {w : World} (hnames : ∀ name ∈ names, name ∈ w.mutatorResults) (htracking : w.tracking = true) :
    (applySteps host steps w).mutatorResults =
      w.mutatorResults.tally (steps.map (Step.amount host)) := by
  induction steps generalizing names w with
  | nil => rfl
  | cons step steps ih =>
    have hsplit : Opened names ([step] ++ steps) := hopened
    obtain ⟨names', hopened', hnames'⟩ := hsplit.right host hnames
    have hstep : step.OpenedIn w := by
      cases step with
      | openEntry name => trivial
      | process name defId mutant => exact hnames name hopened.1
    rw [applySteps_cons, List.map_cons, HashMap.tally_cons,
      ← Step.apply_add hchecks hbody hstep htracking]
    exact ih hopened' hnames' ((Step.apply_tracking host step w).trans htracking)

end Tally

/-! ## Whole runs -/

/-- Whether the results can be written depends on nothing but which files there are. -/
theorem writeResults_ok_of_keys_eq {host : Host} {w w' w₁ : World}
    (hkeys : w₁.resultsDir.keys = w.resultsDir.keys) (h : writeResults host w = (.ok (), w')) :
    (writeResults host w₁).1 = .ok () := by
  rcases writeResults_inv h with
    ⟨hcrate, -⟩ | ⟨crateName, name, enabled, hcrate, hname, henv, -⟩
  · simp only [writeResults, hcrate, Unwind.pure_run]
  · rw [← uniqueCrateName_congr hkeys] at hname
    rw [writeResults_run hcrate hname henv]

/-- The names that are written do not decide which files there are. -/
theorem keys_withFunctions (host : Host) {w w' : World} (hdir : w.resultsDir = w'.resultsDir)
    (itemNames itemNames' : List String) :
    (w.withFunctions host itemNames).resultsDir.keys =
      (w'.withFunctions host itemNames').resultsDir.keys := by
  simp only [World.withFunctions, hdir]
  split
  · ext path
    rw [Finmap.mem_keys, Finmap.mem_keys, Finmap.mem_insert, Finmap.mem_insert]
  · rfl

/-- The files of a run, once its tests have returned. -/
def writeFiles (host : Host) : Unwind World Unit := do
  writeVisualization host
  writeResults host

theorem mutatorResults_writeFiles (host : Host) (w : World) :
    (writeFiles host w).2.mutatorResults = w.mutatorResults :=
  (Unwind.Preserves.bind
    (writeVisualization_preserves_aggregates host w.mutatorResults w.mutantsLog)
    (fun _ => writeResults_preserves_aggregates host w.mutatorResults w.mutantsLog) w
    ⟨rfl, rfl⟩).1

/-- They can be written after other tests if what passed there can be visualized. -/
theorem writeFiles_ok_of_dir_eq {host : Host} {w w₁ w' : World}
    (hdir : w₁.resultsDir = w.resultsDir) (hcan : host.CanVisualize w₁.passedBodies)
    (h : writeFiles host w = (.ok (), w')) : (writeFiles host w₁).1 = .ok () := by
  rw [writeFiles, Unwind.bind_run] at h ⊢
  rcases writeVisualization_cases host w with ⟨-, e, hrun⟩ | ⟨-, itemNames, hrun⟩
  · rw [hrun] at h
    cases h
  rcases writeVisualization_cases host w₁ with ⟨hcannot, -⟩ | ⟨-, itemNames', hrun'⟩
  · exact absurd hcan hcannot
  rw [hrun] at h
  rw [hrun']
  exact writeResults_ok_of_keys_eq (keys_withFunctions host hdir itemNames' itemNames) h

section Crate

variable {σ : Type} [FiniteIterator σ Mutant] {host : Host} {mutations : List (Mutation σ)}
  {crate : Crate}

omit [FiniteIterator σ Mutant] in
/-- A failed mutant is charged with the codes of its own check, whatever the
    state its run is in. -/
theorem processMutant_of_tainted (hchecks : host.PanicsInCheckOnly) {name : String}
    (defId : LocalDefId) (mutant : Mutant) (hon : host.doBorrowck = true) {w : World}
    (hout : (host.check w.mutants mutant.body).outcome = .tainted) (htracking : w.tracking = true)
    {data : MutatorData} (hdata : w.mutatorResults.lookup name = some data) :
    let codes := (host.check w.mutants mutant.body).codes
    ∃ w', processMutant host name defId mutant w = (.ok (), w') ∧
      w'.errorCodes = codes ∧
      w'.mutatorResults.lookup name = some { data with
        instances := data.instances + 1
        failed := data.failed + 1
        errorCodes := data.errorCodes ∪ codes.toFinset } ∧
      w'.mutantsLog =
        w.logWith host name defId mutant (.failed codes.toFinset) := by
  intro codes
  have hname : name ∈ w.mutatorResults := Finmap.mem_iff.mpr ⟨data, hdata⟩
  obtain ⟨hresults, hentries⟩ := hchecks.processed_eq defId mutant htracking hname
  -- a failed check has its verdict, and is logged with its codes
  have hverdict : host.verdict w.mutants mutant.body = ⟨1, 0, 1, 0, codes.toFinset⟩ := by
    rw [Host.verdict, if_pos hon, CheckRun.verdict, hout]
  have hinfo : host.logInfo w.mutants mutant.body = .failed codes.toFinset := by
    rw [Host.logInfo, if_pos hon, CheckRun.logInfo, hout]
  have hpanics : host.panicsInCheck w.mutants mutant.body = false := by
    rw [Host.panicsInCheck, hout]
    simp
  refine ⟨_, Step.perform_run hchecks.doBorrowckValid (.process name defId mutant) w, ?_, ?_, ?_⟩
  · have hstarts : (host.course host.doBorrowck w.mutants mutant.body).starts = true := by
      rw [hchecks.course_eq]
      exact hon
    simp only [Step.apply, World.processed, hstarts, htracking, CheckRun.registered, if_true]
    rfl
  · rw [Step.apply, hresults, HashMap.lookup_add, if_pos rfl, hdata, hverdict,
      Option.getD_some, MutatorData.add_def]
    simp
  · rw [Step.apply, hentries, hpanics, hinfo]
    rfl

/-- The codes recorded for a mutation are those of the checks of its failed
    mutants. -/
theorem mem_errorCodes_applySteps (hchecks : host.PanicsInCheckOnly) (hbody : host.ChecksBody)
    {steps : List Step} (hopened : Opened [] steps) {w : World} (htracking : w.tracking = true)
    (hempty : w.mutatorResults = ∅) {name : String} {data : MutatorData}
    (hdata : (applySteps host steps w).mutatorResults.lookup name = some data) {code : String} :
    code ∈ data.errorCodes ↔ ∃ defId mutant, .process name defId mutant ∈ steps ∧
      host.doBorrowck = true ∧ (host.check 0 mutant.body).outcome = .tainted ∧
      code ∈ (host.check 0 mutant.body).codes := by
  rw [applySteps_tally hchecks hbody hopened (by simp) htracking, hempty,
    HashMap.lookup_tally] at hdata
  split at hdata
  · obtain rfl := Option.some.inj hdata
    rw [Finmap.lookup_empty, Option.getD_none, zero_add, MutatorData.mem_errorCodes_sum]
    simp only [HashMap.mem_valuesAt, List.mem_map]
    constructor
    · rintro ⟨data, ⟨step, hstep, hamount⟩, hcode⟩
      cases step with
      | openEntry name' =>
        cases hamount
        -- opening an entry adds no codes
        exact absurd hcode (Finset.notMem_empty code)
      | process name' defId mutant =>
        cases hamount
        obtain ⟨hon, hout, hcode⟩ := Host.mem_errorCodes_verdict.mp hcode
        exact ⟨defId, mutant, hstep, hon, hout, hcode⟩
    · rintro ⟨defId, mutant, hstep, hon, hout, hcode⟩
      exact ⟨_, ⟨_, hstep, rfl⟩, Host.mem_errorCodes_verdict.mpr ⟨hon, hout, hcode⟩⟩
  · rw [Finmap.lookup_empty] at hdata
    cases hdata

/-- A failed mutant of a run finds its entry open, and is charged with the codes of
    its own check. -/
theorem exists_processMutant_of_tainted (hchecks : host.PanicsInCheckOnly)
    (hbody : host.ChecksBody) {before after : List Step} {name : String} {defId : LocalDefId}
    {mutant : Mutant} (hopened : Opened [] (before ++ .process name defId mutant :: after))
    {w₀ : World} (htracking : w₀.tracking = true) (hon : host.doBorrowck = true)
    (hout : (host.check 0 mutant.body).outcome = .tainted) :
    let codes := (host.check 0 mutant.body).codes
    let w := applySteps host before w₀
    ∃ w' data, processMutant host name defId mutant w = (.ok (), w') ∧
      w'.errorCodes = codes ∧
      w.mutatorResults.lookup name = some data ∧
      w'.mutatorResults.lookup name = some { data with
        instances := data.instances + 1
        failed := data.failed + 1
        errorCodes := data.errorCodes ∪ codes.toFinset } ∧
      w'.mutantsLog = w.logWith host name defId mutant (.failed codes.toFinset) := by
  intro codes w
  obtain ⟨names, hopened', hnames⟩ := hopened.right host (w := w₀) (by simp)
  obtain ⟨data, hdata⟩ := Finmap.mem_iff.mp (hnames name hopened'.1)
  have hsame := hbody w.mutants mutant.body
  have hown := processMutant_of_tainted hchecks defId mutant hon (hsame ▸ hout)
    ((applySteps_tracking host before w₀).trans htracking) hdata
  rw [hsame] at hown
  obtain ⟨w', hrun, hcodes, hresults, hentries⟩ := hown
  exact ⟨w', data, hrun, hcodes, hdata, hresults, hentries⟩

/-- Testing the mutations and the bodies in another order, a run that returns has the
    same results, and it still returns if what passes can be visualized in any case. -/
theorem runMutationTests_perm (hchecks : host.PanicsInCheckOnly) (hbody : host.ChecksBody)
    (hcoherent : crate.Coherent) {mutations' : List (Mutation σ)} {owners' : List BodyOwner}
    (hmutations : mutations.Perm mutations') (howners : crate.bodyOwners.Perm owners')
    {errCount : Nat} {dir : Directory} {w : World}
    (hrun : runMutationTests host mutations crate (.start errCount dir) = (.ok (), w)) :
    let run' := runMutationTests host mutations' { crate with bodyOwners := owners' }
      (.start errCount dir)
    run'.2.mutatorResults = w.mutatorResults ∧
      ((∀ passedBodies, host.CanVisualize passedBodies) → run'.1 = .ok ()) := by
  intro run'
  have hvalid := hchecks.doBorrowckValid
  have hopened := opened_bodiesSchedule host mutations crate.tcx
    (testedBodies host crate.bodyOwners crate.bodies)
  have hopened' := opened_bodiesSchedule host mutations' crate.tcx
    (testedBodies host owners' crate.bodies)
  have hpermutes := bodiesSchedule_permutes host crate.tcx hmutations
    (testedBodies_perm host howners hcoherent crate.bodies)
  simp only [run']
  rw [runMutationTests, ← writeFiles] at hrun ⊢
  split at hrun
  next hskip =>
    rw [if_pos hskip]
    cases hrun
    exact ⟨rfl, fun _ => rfl⟩
  next hskip =>
    rw [if_neg hskip]
    simp only [Unwind.bind_run, Unwind.modify_run, testOwners_eq,
      Schedule.perform_run hvalid] at hrun ⊢
    obtain ⟨schedule, hschedule⟩ : ∃ s, s = bodiesSchedule host mutations crate.tcx
      (testedBodies host crate.bodyOwners crate.bodies) := ⟨_, rfl⟩
    rw [← hschedule] at hrun hpermutes hopened
    cases hended : schedule.ended with
    | some e =>
      rw [hended] at hrun
      cases hrun
    | none =>
      obtain ⟨hended', hsteps⟩ := hpermutes hended
      simp only [hended, hended'] at hrun ⊢
      -- the two runs add up the same amounts
      have hamounts := HashMap.tally_perm (∅ : MutatorResults) (hsteps.map (Step.amount host))
      have hresults := mutatorResults_writeFiles host
        (applySteps host schedule.steps (World.start errCount dir).beginRun)
      rw [hrun] at hresults
      constructor
      · rw [mutatorResults_writeFiles, hresults,
          applySteps_tally hchecks hbody hopened (by simp) rfl,
          applySteps_tally hchecks hbody hopened' (by simp) rfl]
        exact hamounts.symm
      · exact fun hcan => writeFiles_ok_of_dir_eq (by simp) (hcan _) hrun

/-- Each failed mutant is charged with the codes of its own check, and the
    results are the same in whatever order mutations and bodies are tested.  Which
    bodies are left to be visualized does depend on the order. -/
theorem results_independent_of_order (hchecks : host.PanicsInCheckOnly) (hbody : host.ChecksBody)
    (hcoherent : crate.Coherent) (errCount : Nat) (dir : Directory) :
    (∀ before name defId mutant after, (bodiesSchedule host mutations crate.tcx
        (testedBodies host crate.bodyOwners crate.bodies)).steps =
          before ++ .process name defId mutant :: after →
      host.doBorrowck = true → (host.check 0 mutant.body).outcome = .tainted →
      let codes := (host.check 0 mutant.body).codes
      let w := ((before.forM (Step.perform host)) (World.start errCount dir).beginRun).2
      ∃ w' data, processMutant host name defId mutant w = (.ok (), w') ∧
        w'.errorCodes = codes ∧
        w.mutatorResults.lookup name = some data ∧
        w'.mutatorResults.lookup name = some { data with
          instances := data.instances + 1
          failed := data.failed + 1
          errorCodes := data.errorCodes ∪ codes.toFinset } ∧
        w'.mutantsLog = w.logWith host name defId mutant (.failed codes.toFinset)) ∧
    (∀ name data code,
      (runMutationTests host mutations crate (.start errCount dir)).2.mutatorResults.lookup name =
        some data →
      (code ∈ data.errorCodes ↔ ∃ defId mutant, .process name defId mutant ∈
          (bodiesSchedule host mutations crate.tcx
            (testedBodies host crate.bodyOwners crate.bodies)).steps ∧
        host.doBorrowck = true ∧ (host.check 0 mutant.body).outcome = .tainted ∧
        code ∈ (host.check 0 mutant.body).codes)) ∧
    ∀ mutations' owners', mutations.Perm mutations' → crate.bodyOwners.Perm owners' →
      ∀ w, runMutationTests host mutations crate (.start errCount dir) = (.ok (), w) →
      let run' := runMutationTests host mutations' { crate with bodyOwners := owners' }
        (.start errCount dir)
      run'.2.mutatorResults = w.mutatorResults ∧
        ((∀ passedBodies, host.CanVisualize passedBodies) → run'.1 = .ok ()) := by
  have hvalid := hchecks.doBorrowckValid
  have hopened := opened_bodiesSchedule host mutations crate.tcx
    (testedBodies host crate.bodyOwners crate.bodies)
  refine ⟨?_, ?_, ?_⟩
  · intro before name defId mutant after hsteps hon hout codes w
    rw [hsteps] at hopened
    have hw : w = applySteps host before (World.start errCount dir).beginRun := by
      simp only [w, steps_run hvalid]
    rw [hw]
    exact exists_processMutant_of_tainted hchecks hbody hopened rfl hon hout
  · intro name data code hdata
    rcases runMutationTests_aggregates host mutations crate errCount dir with
      ⟨-, hresults, -⟩ | ⟨hresults, -⟩
    · rw [hresults, Finmap.lookup_empty] at hdata
      cases hdata
    · rw [hresults, testOwners_eq, Schedule.perform_run hvalid] at hdata
      exact mem_errorCodes_applySteps hchecks hbody hopened rfl rfl hdata
  · intro mutations' owners' hmutations howners w hrun
    exact runMutationTests_perm hchecks hbody hcoherent hmutations howners hrun

end Crate

namespace SampleRun

/-- The checks of the mutants of a body of three blocks fail in one way, and those of
    other bodies in another. -/
def checkByBlocks (_ : Nat) (body : Body) : CheckRun :=
  if body.basicBlocks.length = 3 then ⟨[⟨some "E0505", true⟩], .tainted⟩
  else ⟨[⟨some "E0382", true⟩, ⟨none, false⟩], .tainted⟩

/-- The sample without its cleanup block. -/
def straightBody : Body where
  basicBlocks := [⟨Sample.statements, some ⟨⟨6, 0⟩, .goto 1⟩, false⟩,
    ⟨[], some ⟨⟨7, 0⟩, .return⟩, false⟩]
  localDecls := Sample.localDecls

def owners : List BodyOwner := [⟨0, .fn, .safe⟩, ⟨1, .assocFn, .safe⟩]

/-- Two functions. -/
def twoBodies : Crate where
  tcx := Sample.tcx
  bodyOwners := owners
  bodies := (Finmap.singleton 0 Sample.body).insert 1 straightBody

def twoMutations : List (Mutation MutantStream) :=
  [MutationKind.moveFromBorrowed.mutation Sample.order,
    MutationKind.readFromWriteOnly.mutation Sample.order]

theorem coherent_twoBodies : twoBodies.Coherent := by
  intro owner howner owner' howner' hid
  simp only [twoBodies, owners, List.mem_cons, List.not_mem_nil, or_false] at howner howner'
  rcases howner with rfl | rfl <;> rcases howner' with rfl | rfl <;>
    first | rfl | exact absurd hid (by decide)

/-- Insertions into bodies with their samples' analysis never panic. -/
theorem ended_bodiesSchedule {vars : List (String × String)} {check : Nat → Body → CheckRun}
    {mutations : List (Mutation MutantStream)}
    (h : ∀ mutation ∈ mutations, ∃ k : MutationKind, k.isExpiry = false ∧
      mutation = k.mutation Sample.order) (tested : List (LocalDefId × Body)) :
    (bodiesSchedule (hostWith vars check) mutations Sample.tcx tested).ended = none := by
  have hmutation : ∀ body : LocalDefId × Body, ∀ mutation ∈ mutations,
      (mutationSchedule mutation ⟨Sample.tcx, body.2⟩ body.1 body.2
        (Sample.analysisOf body.2)).ended = none := by
    intro body mutation hmem
    obtain ⟨k, hk, rfl⟩ := h mutation hmem
    simp only [mutationSchedule, drain_mutantsBy hk]
  have hbody : ∀ body ∈ tested,
      (testSchedule (hostWith vars check) mutations Sample.tcx body).ended = none := by
    intro body _
    show (bodySchedule mutations _ _ _ (Sample.analysisOf body.2)).ended = none
    rw [bodySchedule, Schedule.foldr_andThen (hmutation body)]
  rw [bodiesSchedule, Schedule.foldr_andThen hbody]

theorem codes_checkByBlocks {body : Body} {code : String}
    (h : code ∈ (checkByBlocks 0 body).codes) : code = "E0505" ∨ code = "E0382" := by
  unfold checkByBlocks at h
  split at h
  · exact .inl (List.mem_singleton.mp h)
  · exact .inr (List.mem_singleton.mp h)

/-- With no variable set, a run returns that no mutator ends. -/
theorem exists_run {check : Nat → Body → CheckRun} {mutations : List (Mutation MutantStream)}
    {crate : Crate} (hvalid : (hostWith [] check).doBorrowckValid = true)
    (hended : (bodiesSchedule (hostWith [] check) mutations crate.tcx
      (testedBodies (hostWith [] check) crate.bodyOwners crate.bodies)).ended = none) :
    ∃ w, runMutationTests (hostWith [] check) mutations crate (.start 0 ∅) = (.ok (), w) := by
  have hcargo : (inCargoCrate (hostWith [] check).env &&
      ((hostWith [] check).env "CARGO_PRIMARY_PACKAGE").isNone) = false := rfl
  rw [runMutationTests, hcargo, if_neg Bool.false_ne_true]
  simp only [Unwind.bind_run, Unwind.modify_run, testOwners_eq, Schedule.perform_run hvalid, hended]
  exact ⟨_, rfl⟩

end SampleRun

/-- Two mutations on two bodies, and the same the other way round. -/
theorem results_independent_of_order_sample :
    let host := SampleRun.hostWith [] SampleRun.checkByBlocks
    ∃ w, runMutationTests host SampleRun.twoMutations SampleRun.twoBodies (.start 0 ∅) =
        (.ok (), w) ∧
      (∃ w', runMutationTests host SampleRun.twoMutations.reverse
          { SampleRun.twoBodies with bodyOwners := SampleRun.owners.reverse } (.start 0 ∅) =
          (.ok (), w') ∧ w'.mutatorResults = w.mutatorResults) ∧
      ∀ name data code, w.mutatorResults.lookup name = some data → code ∈ data.errorCodes →
        code = "E0505" ∨ code = "E0382" := by
  intro host
  have hchecks : host.PanicsInCheckOnly := SampleRun.panicsInCheckOnly (by decide)
  have hbody : host.ChecksBody := fun _ _ => rfl
  have hkinds : ∀ mutation ∈ SampleRun.twoMutations, ∃ k : MutationKind, k.isExpiry = false ∧
      mutation = k.mutation Sample.order := by
    simp only [SampleRun.twoMutations, List.mem_cons, List.not_mem_nil, or_false,
      forall_eq_or_imp, forall_eq]
    exact ⟨⟨_, rfl, rfl⟩, ⟨_, rfl, rfl⟩⟩
  have hended : (bodiesSchedule host SampleRun.twoMutations SampleRun.twoBodies.tcx
      (testedBodies host SampleRun.twoBodies.bodyOwners SampleRun.twoBodies.bodies)).ended = none :=
    SampleRun.ended_bodiesSchedule hkinds _
  obtain ⟨w, hrun⟩ := SampleRun.exists_run hchecks.doBorrowckValid hended
  obtain ⟨-, hcodes, hperm⟩ := @results_independent_of_order _ _ host SampleRun.twoMutations
    SampleRun.twoBodies hchecks hbody SampleRun.coherent_twoBodies 0 ∅
  obtain ⟨hresults, hreturns⟩ := hperm _ _ (List.reverse_perm _).symm (List.reverse_perm _).symm w
    hrun
  refine ⟨w, hrun, ⟨_, Prod.ext (hreturns (SampleRun.canVisualize [] _)) rfl, hresults⟩, ?_⟩
  intro name data code hdata hcode
  rw [hrun] at hcodes
  obtain ⟨defId, mutant, -, -, -, hmem⟩ := (hcodes name data code hdata).mp hcode
  exact SampleRun.codes_checkByBlocks hmem

end MutationTesting.Driver
