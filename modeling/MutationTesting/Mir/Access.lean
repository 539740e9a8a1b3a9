/-
  MutationTesting.Mir.Access

  What a statement does to places in the eyes of the borrow checker: the calls
  `MirBorrowckCtxt` makes for it in `visit_after_early_statement_effect`
  (`borrowck/src/lib.rs`), in their order.  `access_place` is checked against
  the loans in scope, `check_movable_place` asks whether the place may be moved out
  of at all, and the other two whether it is initialized.
-/
import MutationTesting.Mir.Syntax

namespace MutationTesting.Mir

inductive ArtificialField where
  | arrayLength
  | fakeBorrow
  deriving DecidableEq

inductive AccessDepth where
  | shallow (field : Option ArtificialField)
  | deep
  | drop
  deriving DecidableEq

inductive ReadKind where
  | borrow (kind : BorrowKind)
  | copy
  deriving DecidableEq

inductive WriteKind where
  | storageDeadOrDrop
  | replace
  | mutableBorrow (kind : BorrowKind)
  | mutate
  | move
  deriving DecidableEq

/-- `ReadOrWrite`; an activation is one of the two-phase borrow with the given index. -/
inductive ReadOrWrite where
  | read (kind : ReadKind)
  | write (kind : WriteKind)
  | reservation (kind : WriteKind)
  | activation (kind : WriteKind) (borrowIndex : Nat)
  deriving DecidableEq

inductive InitializationRequiringAction where
  | borrow
  | matchOn
  | use
  deriving DecidableEq

/-- A call of the borrow checker about a place. -/
inductive Check where
  | accessPlace (place : Place) (depth : AccessDepth) (rw : ReadOrWrite)
  | checkIfPathOrSubpathIsMoved (action : InitializationRequiringAction) (place : Place)
  | checkIfAssignedPathIsMoved (place : Place)
  | checkMovablePlace (place : Place)
  deriving DecidableEq

def Check.place : Check → Place
  | accessPlace place _ _ => place
  | checkIfPathOrSubpathIsMoved _ place => place
  | checkIfAssignedPathIsMoved place => place
  | checkMovablePlace place => place

/-- `allow_two_phase_borrow`. -/
def allowTwoPhaseBorrow (kind : BorrowKind) : Bool :=
  decide (kind = .mut .twoPhaseBorrow)

/-- `consume_operand`. -/
def Operand.checks : Operand → List Check
  | .copy place =>
    [.accessPlace place .deep (.read .copy), .checkIfPathOrSubpathIsMoved .use place]
  | .move place =>
    [.checkMovablePlace place, .accessPlace place .deep (.write .move),
      .checkIfPathOrSubpathIsMoved .use place]
  | .constant _ => []

/-- The depth and the kind of access of a borrow. -/
def BorrowKind.access (kind : BorrowKind) : AccessDepth × ReadOrWrite :=
  match kind with
  | .fake .shallow => (.shallow (some .fakeBorrow), .read (.borrow kind))
  | .shared | .fake .deep => (.deep, .read (.borrow kind))
  | .mut _ =>
    if allowTwoPhaseBorrow kind then (.deep, .reservation (.mutableBorrow kind))
    else (.deep, .write (.mutableBorrow kind))

/-- `consume_rvalue`. -/
def Rvalue.checks : Rvalue → List Check
  | .ref _ kind place =>
    [.accessPlace place kind.access.1 kind.access.2,
      .checkIfPathOrSubpathIsMoved (if kind = .fake .shallow then .matchOn else .borrow) place]
  | .rawPtr mutbl place =>
    [.accessPlace place .deep
        (match mutbl with
        | .mut => .write (.mutableBorrow (.mut .default))
        | .not => .read (.borrow .shared)),
      .checkIfPathOrSubpathIsMoved .borrow place]
  | .threadLocalRef _ => []
  | .use operand | .repeat operand _ | .unaryOp _ operand | .cast _ operand _
  | .shallowInitBox operand _ => operand.checks
  | .copyForDeref place =>
    [.accessPlace place .deep (.read .copy), .checkIfPathOrSubpathIsMoved .use place]
  | .len place =>
    [.accessPlace place (.shallow (some .arrayLength)) (.read .copy),
      .checkIfPathOrSubpathIsMoved .use place]
  | .discriminant place =>
    [.accessPlace place (.shallow none) (.read .copy), .checkIfPathOrSubpathIsMoved .use place]
  | .binaryOp _ left right => left.checks ++ right.checks
  | .nullaryOp _ _ => []
  | .aggregate _ operands => operands.flatMap Operand.checks

/-- `mutate_place`. -/
def mutatePlace (place : Place) (depth : AccessDepth) : List Check :=
  [.checkIfAssignedPathIsMoved place, .accessPlace place depth (.write .mutate)]

/-- `visit_after_early_statement_effect`; the kinds of statements it rejects as
    not allowed in this phase of MIR check nothing. -/
def StatementKind.checks : StatementKind → List Check
  | .assign lhs rhs => rhs.checks ++ mutatePlace lhs (.shallow none)
  | .fakeRead _ place => [.checkIfPathOrSubpathIsMoved .use place]
  | .assume operand => operand.checks
  | .storageDead l => [.accessPlace (Place.from l) (.shallow none) (.write .storageDeadOrDrop)]
  | .ascribeUserType .. | .placeMention _ | .coverage _ | .constEvalCounter
  | .backwardIncompatibleDropHint _ | .storageLive _ => []
  | .nop | .retag .. | .deinit _ | .setDiscriminant .. => []

end MutationTesting.Mir
