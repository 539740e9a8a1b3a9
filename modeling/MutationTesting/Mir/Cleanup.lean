/-
  MutationTesting.Mir.Cleanup

  The cleanup discipline of a body: `check_iscleanup` of the MIR type check
  (`borrowck/src/type_check/mod.rs`) for every block.

  The check reads the other blocks through their flags only, so it survives any
  change of the body that keeps the flags of the blocks it asks about.
-/
import MutationTesting.Mir.Syntax

namespace MutationTesting.Mir

/-- `body[bb].is_cleanup`, with nothing for a block that does not exist. -/
def Body.isCleanup (body : Body) (bb : BasicBlock) : Option Bool :=
  body.basicBlocks[bb]?.map (·.isCleanup)

/-- `assert_iscleanup`. -/
def assertIsCleanup (body : Body) (isCleanupPad : Bool) (bb : BasicBlock) : Bool :=
  decide (body.isCleanup bb = some isCleanupPad)

/-- `assert_iscleanup_unwind`. -/
def assertIsCleanupUnwind (body : Body) (isCleanup : Bool) : UnwindAction → Bool
  | .cleanup bb => !isCleanup && assertIsCleanup body true bb
  | .continue => !isCleanup
  | .unreachable | .terminate => true

/-- `check_iscleanup`; a block without a terminator is a compiler bug there. -/
def checkIsCleanup (body : Body) (block : BasicBlockData) : Bool :=
  let isCleanup := block.isCleanup
  match block.terminator with
  | none => false
  | some terminator =>
    match terminator.kind with
    | .goto target => assertIsCleanup body isCleanup target
    | .switchInt _ targets => targets.all (assertIsCleanup body isCleanup)
    | .unwindResume => isCleanup
    | .unwindTerminate => isCleanup
    | .return => !isCleanup
    | .tailCall _ _ => !isCleanup
    | .coroutineDrop => !isCleanup
    | .yield _ resume _ drop =>
      !isCleanup && assertIsCleanup body isCleanup resume &&
        drop.all (assertIsCleanup body isCleanup)
    | .unreachable => true
    | .drop _ target unwind _ | .assert _ _ _ target unwind =>
      assertIsCleanup body isCleanup target && assertIsCleanupUnwind body isCleanup unwind
    | .call _ _ _ target unwind =>
      target.all (assertIsCleanup body isCleanup) && assertIsCleanupUnwind body isCleanup unwind
    | .falseEdge realTarget imaginaryTarget =>
      assertIsCleanup body isCleanup realTarget && assertIsCleanup body isCleanup imaginaryTarget
    | .falseUnwind realTarget unwind =>
      assertIsCleanup body isCleanup realTarget && assertIsCleanupUnwind body isCleanup unwind
    | .inlineAsm _ targets unwind =>
      targets.all (assertIsCleanup body isCleanup) && assertIsCleanupUnwind body isCleanup unwind

/-- Every block of the body passes the check. -/
def CleanupDiscipline (body : Body) : Prop :=
  ∀ block ∈ body.basicBlocks, checkIsCleanup body block = true

instance (body : Body) : Decidable (CleanupDiscipline body) :=
  inferInstanceAs (Decidable (∀ block ∈ body.basicBlocks, checkIsCleanup body block = true))

/-! ## Bodies with the same flags -/

section Keeps

variable {body body' : Body} {isCleanup : Bool}

theorem assertIsCleanup_eq_true {bb : BasicBlock} :
    assertIsCleanup body isCleanup bb = true ↔ body.isCleanup bb = some isCleanup :=
  decide_eq_true_iff

/-- `body'` has the blocks of `body` with their flags, and maybe more. -/
def KeepsCleanup (body body' : Body) : Prop :=
  ∀ bb flag, body.isCleanup bb = some flag → body'.isCleanup bb = some flag

theorem KeepsCleanup.assertIsCleanup (hkeeps : KeepsCleanup body body') {bb : BasicBlock}
    (h : assertIsCleanup body isCleanup bb = true) :
    assertIsCleanup body' isCleanup bb = true :=
  assertIsCleanup_eq_true.mpr (hkeeps bb isCleanup (assertIsCleanup_eq_true.mp h))

theorem KeepsCleanup.assertIsCleanupUnwind (hkeeps : KeepsCleanup body body')
    {unwind : UnwindAction} (h : assertIsCleanupUnwind body isCleanup unwind = true) :
    assertIsCleanupUnwind body' isCleanup unwind = true := by
  cases unwind with
  | cleanup bb =>
    obtain ⟨hflag, hbb⟩ := (Bool.and_eq_true _ _).mp h
    exact (Bool.and_eq_true _ _).mpr ⟨hflag, hkeeps.assertIsCleanup hbb⟩
  | «continue» | unreachable | terminate => exact h

/-- The check carries over to a block with the same terminator and flag. -/
theorem KeepsCleanup.checkIsCleanup (hkeeps : KeepsCleanup body body')
    {block block' : BasicBlockData} (hterminator : block'.terminator = block.terminator)
    (hflag : block'.isCleanup = block.isCleanup) (h : checkIsCleanup body block = true) :
    checkIsCleanup body' block' = true := by
  obtain ⟨_, terminator, isCleanup⟩ := block
  obtain ⟨_, terminator', isCleanup'⟩ := block'
  obtain rfl : terminator' = terminator := hterminator
  obtain rfl : isCleanup' = isCleanup := hflag
  -- the check asks other blocks for their flags in two ways only
  have hone {bb : BasicBlock} (hbb : Mir.assertIsCleanup body isCleanup' bb = true) :
      Mir.assertIsCleanup body' isCleanup' bb = true := hkeeps.assertIsCleanup hbb
  have hunwind {u : UnwindAction} (hu : Mir.assertIsCleanupUnwind body isCleanup' u = true) :
      Mir.assertIsCleanupUnwind body' isCleanup' u = true := hkeeps.assertIsCleanupUnwind hu
  cases terminator' with
  | none => exact h
  | some terminator =>
    obtain ⟨_, kind⟩ := terminator
    cases kind with
    | goto target => exact hone h
    | switchInt discr targets =>
      simp only [Mir.checkIsCleanup, List.all_eq_true] at h ⊢
      exact fun bb hbb => hone (h bb hbb)
    | unwindResume | unwindTerminate | «return» | unreachable | tailCall | coroutineDrop => exact h
    | yield value resume resumeArg drop =>
      simp only [Mir.checkIsCleanup, Bool.and_eq_true, Option.all_eq_true] at h ⊢
      exact ⟨⟨h.1.1, hone h.1.2⟩, fun bb hbb => hone (h.2 bb hbb)⟩
    | drop | assert | falseUnwind =>
      simp only [Mir.checkIsCleanup, Bool.and_eq_true] at h ⊢
      exact ⟨hone h.1, hunwind h.2⟩
    | call func args destination target unwind =>
      simp only [Mir.checkIsCleanup, Bool.and_eq_true, Option.all_eq_true] at h ⊢
      exact ⟨fun bb hbb => hone (h.1 bb hbb), hunwind h.2⟩
    | falseEdge realTarget imaginaryTarget =>
      simp only [Mir.checkIsCleanup, Bool.and_eq_true] at h ⊢
      exact ⟨hone h.1, hone h.2⟩
    | inlineAsm operands targets unwind =>
      simp only [Mir.checkIsCleanup, Bool.and_eq_true, List.all_eq_true] at h ⊢
      exact ⟨fun bb hbb => hone (h.1 bb hbb), hunwind h.2⟩

end Keeps

end MutationTesting.Mir
