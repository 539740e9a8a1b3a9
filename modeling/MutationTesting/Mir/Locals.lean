/-
  MutationTesting.Mir.Locals

  The locals a body uses: those of its places, the ones that index into other
  places, and the ones whose storage it marks.  Compiler data behind a handle
  names no local.
-/
import MutationTesting.Mir.Syntax

namespace MutationTesting.Mir

def PlaceElem.locals : PlaceElem → List Local
  | .index ix => [ix]
  | _ => []

def Place.locals (place : Place) : List Local :=
  place.local :: place.projection.flatMap PlaceElem.locals

def Operand.locals : Operand → List Local
  | .copy place | .move place => place.locals
  | .constant _ => []

def Rvalue.locals : Rvalue → List Local
  | .use operand | .repeat operand _ | .cast _ operand _ | .unaryOp _ operand
  | .shallowInitBox operand _ => operand.locals
  | .ref _ _ place | .rawPtr _ place | .len place | .discriminant place
  | .copyForDeref place => place.locals
  | .binaryOp _ left right => left.locals ++ right.locals
  | .aggregate _ operands => operands.flatMap Operand.locals
  | .threadLocalRef _ | .nullaryOp _ _ => []

def StatementKind.locals : StatementKind → List Local
  | .assign place rvalue => place.locals ++ rvalue.locals
  | .fakeRead _ place | .setDiscriminant place _ | .deinit place | .retag _ place
  | .placeMention place | .ascribeUserType place _ _
  | .backwardIncompatibleDropHint place => place.locals
  | .storageLive l | .storageDead l => [l]
  | .assume operand => operand.locals
  | .coverage _ | .constEvalCounter | .nop => []

def InlineAsmOperand.locals : InlineAsmOperand → List Local
  | .input value => value.locals
  | .output place => place.toList.flatMap Place.locals
  | .inOut inValue outPlace => inValue.locals ++ outPlace.toList.flatMap Place.locals
  | .other _ => []

def TerminatorKind.locals : TerminatorKind → List Local
  | .switchInt discr _ => discr.locals
  | .drop place _ _ _ => place.locals
  | .call func args destination _ _ =>
    func.locals ++ args.flatMap Operand.locals ++ destination.locals
  | .tailCall func args => func.locals ++ args.flatMap Operand.locals
  | .assert cond _ msg _ _ => cond.locals ++ msg.flatMap Operand.locals
  | .yield value _ resumeArg _ => value.locals ++ resumeArg.locals
  | .inlineAsm operands _ _ => operands.flatMap InlineAsmOperand.locals
  | .goto _ | .unwindResume | .unwindTerminate | .return | .unreachable | .coroutineDrop
  | .falseEdge _ _ | .falseUnwind _ _ => []

def BasicBlockData.locals (block : BasicBlockData) : List Local :=
  block.statements.flatMap (fun statement => statement.kind.locals) ++
    block.terminator.toList.flatMap fun terminator => terminator.kind.locals

def Body.locals (body : Body) : List Local :=
  body.basicBlocks.flatMap BasicBlockData.locals

/-- Every local the body uses is declared: the type check looks each of them up
    in `local_decls`. -/
def LocalsDeclared (body : Body) : Prop :=
  ∀ l ∈ body.locals, l < body.localDecls.length

instance (body : Body) : Decidable (LocalsDeclared body) :=
  inferInstanceAs (Decidable (∀ l ∈ body.locals, l < body.localDecls.length))

end MutationTesting.Mir
