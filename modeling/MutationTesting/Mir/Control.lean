/-
  MutationTesting.Mir.Control

  Control flow of a body: the edges out of a terminator, those of them that
  control can take, and the runs of a body as a transition system that emits
  the statements and terminators executed.  The imaginary target of a false
  edge and the unwinding of a false unwind are edges for the borrow checker
  only.
-/
import MutationTesting.Mir.Cleanup
import MutationTesting.Graph.Simulation
import Mathlib.Data.Set.Basic

namespace MutationTesting.Mir

open MutationTesting.Graph

/-! ## Edges -/

def UnwindAction.target : UnwindAction → List BasicBlock
  | .cleanup block => [block]
  | .continue | .unreachable | .terminate => []

/-- Whether unwinding takes control out of the body. -/
def UnwindAction.leavesBody : UnwindAction → Bool
  | .continue | .terminate => true
  | .unreachable | .cleanup _ => false

namespace TerminatorKind

/-- The blocks control can go to. -/
def realSuccessors : TerminatorKind → List BasicBlock
  | goto target => [target]
  | switchInt _ targets => targets
  | unwindResume | unwindTerminate | «return» | unreachable | tailCall _ _ | coroutineDrop => []
  | drop _ target unwind _ => target :: unwind.target
  | call _ _ _ target unwind => target.toList ++ unwind.target
  | assert _ _ _ target unwind => target :: unwind.target
  | yield _ resume _ dropTarget => resume :: dropTarget.toList
  | falseEdge realTarget _ => [realTarget]
  | falseUnwind realTarget _ => [realTarget]
  | inlineAsm _ targets unwind => targets ++ unwind.target

/-- `TerminatorKind::successors`: the blocks the borrow checker takes control to
    go to. -/
def successors : TerminatorKind → List BasicBlock
  | falseEdge realTarget imaginaryTarget => [realTarget, imaginaryTarget]
  | falseUnwind realTarget unwind => realTarget :: unwind.target
  | kind => kind.realSuccessors

/-- Whether control can leave the body, by unwinding or for want of a block to
    go on with. -/
def leavesBody (kind : TerminatorKind) : Bool :=
  kind.realSuccessors.isEmpty ||
    match kind with
    | drop _ _ unwind _ | call _ _ _ _ unwind | assert _ _ _ _ unwind | inlineAsm _ _ unwind =>
      unwind.leavesBody
    | _ => false

theorem realSuccessors_subset (kind : TerminatorKind) :
    kind.realSuccessors ⊆ kind.successors := by
  cases kind with
  | falseEdge | falseUnwind => simp [realSuccessors, successors]
  | _ => exact fun _ h => h

end TerminatorKind

/-- The edges out of a block. -/
def BasicBlockData.successors (block : BasicBlockData) : List BasicBlock :=
  match block.terminator with
  | some terminator => terminator.kind.successors
  | none => []

/-- Every edge of the body leads to a block of it, as the type check requires. -/
def TargetsExist (body : Body) : Prop :=
  ∀ block ∈ body.basicBlocks, ∀ target ∈ block.successors, target < body.basicBlocks.length

instance (body : Body) : Decidable (TargetsExist body) :=
  inferInstanceAs (Decidable (∀ block ∈ body.basicBlocks, ∀ target ∈ block.successors,
    target < body.basicBlocks.length))

theorem lt_of_assertIsCleanup {body : Body} {flag : Bool} {bb : BasicBlock}
    (h : assertIsCleanup body flag bb = true) : bb < body.basicBlocks.length := by
  obtain ⟨block, hblock, -⟩ := Option.map_eq_some_iff.mp (assertIsCleanup_eq_true.mp h)
  exact (List.getElem?_eq_some_iff.mp hblock).1

theorem lt_of_assertIsCleanupUnwind {body : Body} {flag : Bool} {unwind : UnwindAction}
    (h : assertIsCleanupUnwind body flag unwind = true) {bb : BasicBlock}
    (hbb : bb ∈ unwind.target) : bb < body.basicBlocks.length := by
  cases unwind with
  | cleanup block =>
    obtain rfl := List.mem_singleton.mp hbb
    exact lt_of_assertIsCleanup ((Bool.and_eq_true _ _).mp h).2
  | «continue» | unreachable | terminate => exact absurd hbb List.not_mem_nil

/-- The MIR type check asks for the flag of every target, so in a body that
    passes it every target is there. -/
theorem CleanupDiscipline.targetsExist {body : Body} (h : CleanupDiscipline body) :
    TargetsExist body := by
  intro block hblock target htarget
  have hcheck := h block hblock
  obtain ⟨statements, terminator, flag⟩ := block
  cases terminator with
  | none => exact absurd htarget List.not_mem_nil
  | some terminator =>
    obtain ⟨sourceInfo, kind⟩ := terminator
    cases kind with
    | goto =>
      obtain rfl := List.mem_singleton.mp htarget
      exact lt_of_assertIsCleanup hcheck
    | switchInt => exact lt_of_assertIsCleanup (List.all_eq_true.mp hcheck target htarget)
    | unwindResume | unwindTerminate | «return» | unreachable | tailCall | coroutineDrop =>
      exact absurd htarget List.not_mem_nil
    -- the edge that is taken, and the one that unwinds
    | drop | assert | falseUnwind =>
      obtain ⟨hreal, hunwind⟩ := (Bool.and_eq_true _ _).mp hcheck
      rcases List.mem_cons.mp htarget with rfl | htarget
      · exact lt_of_assertIsCleanup hreal
      · exact lt_of_assertIsCleanupUnwind hunwind htarget
    | call =>
      obtain ⟨hreal, hunwind⟩ := (Bool.and_eq_true _ _).mp hcheck
      rcases List.mem_append.mp htarget with htarget | htarget
      · exact lt_of_assertIsCleanup
          ((Option.all_eq_true _ _).mp hreal target (Option.mem_toList.mp htarget))
      · exact lt_of_assertIsCleanupUnwind hunwind htarget
    | yield =>
      obtain ⟨hresume, hdrop⟩ := (Bool.and_eq_true _ _).mp hcheck
      rcases List.mem_cons.mp htarget with rfl | htarget
      · exact lt_of_assertIsCleanup ((Bool.and_eq_true _ _).mp hresume).2
      · exact lt_of_assertIsCleanup
          ((Option.all_eq_true _ _).mp hdrop target (Option.mem_toList.mp htarget))
    -- both edges are checked, also the imaginary one
    | falseEdge =>
      obtain ⟨hreal, himaginary⟩ := (Bool.and_eq_true _ _).mp hcheck
      rcases List.mem_cons.mp htarget with rfl | htarget
      · exact lt_of_assertIsCleanup hreal
      · obtain rfl := List.mem_singleton.mp htarget
        exact lt_of_assertIsCleanup himaginary
    | inlineAsm =>
      obtain ⟨hreal, hunwind⟩ := (Bool.and_eq_true _ _).mp hcheck
      rcases List.mem_append.mp htarget with htarget | htarget
      · exact lt_of_assertIsCleanup (List.all_eq_true.mp hreal target htarget)
      · exact lt_of_assertIsCleanupUnwind hunwind htarget

/-! ## Runs -/

/-- Where control is: before a statement or terminator, or out of the body. -/
inductive Control where
  | «at» (loc : Location)
  | left
  deriving DecidableEq

/-- What a run executes. -/
inductive Executed where
  | statement (statement : Statement)
  | terminator (terminator : Terminator)
  deriving DecidableEq

/-- Control at the end of a block goes to a real successor of its terminator, or
    leaves the body where it can. -/
inductive TerminatorKind.GoesTo (kind : TerminatorKind) : Control → Prop
  | block {target : BasicBlock} (h : target ∈ kind.realSuccessors) :
      GoesTo kind (.at ⟨target, 0⟩)
  | leave (h : kind.leavesBody = true) : GoesTo kind .left

/-- The steps of a body.  The terminators of the blocks in `silent` are executed
    without being seen. -/
inductive Body.Step (body : Body) (silent : Set BasicBlock) :
    Control → Option Executed → Control → Prop
  | statement {bb : BasicBlock} {data : BasicBlockData} {index : Nat} {statement : Statement}
      (hdata : body.basicBlocks[bb]? = some data)
      (hstatement : data.statements[index]? = some statement) :
      Step body silent (.at ⟨bb, index⟩) (some (.statement statement)) (.at ⟨bb, index + 1⟩)
  | terminator {bb : BasicBlock} {data : BasicBlockData} {index : Nat} {terminator : Terminator}
      {control : Control} (hdata : body.basicBlocks[bb]? = some data)
      (hend : index = data.statements.length) (hterminator : data.terminator = some terminator)
      (hseen : bb ∉ silent) (hgoes : terminator.kind.GoesTo control) :
      Step body silent (.at ⟨bb, index⟩) (some (.terminator terminator)) control
  | silent {bb : BasicBlock} {data : BasicBlockData} {index : Nat} {terminator : Terminator}
      {control : Control} (hdata : body.basicBlocks[bb]? = some data)
      (hend : index = data.statements.length) (hterminator : data.terminator = some terminator)
      (hsilent : bb ∈ silent) (hgoes : terminator.kind.GoesTo control) :
      Step body silent (.at ⟨bb, index⟩) none control

/-- The body as a transition system. -/
def Body.lts (body : Body) (silent : Set BasicBlock) : Lts Control Executed :=
  ⟨body.Step silent⟩

end MutationTesting.Mir
