/-
  MutationTesting.Mir.Syntax

  The part of rustc's MIR that the tool clones, splices and hands to the borrow
  checker: places, rvalues, statements, terminators, blocks, local declarations
  and bodies.  The names and the cases are those of `rustc_middle::mir`, as the
  vendored borrow checker matches on them.

  Compiler data that is only copied (constants, cast kinds, operators, spans)
  is an interned handle.
-/
import Mathlib.Data.List.Basic

namespace MutationTesting.Mir

abbrev Local := Nat
abbrev BasicBlock := Nat
abbrev DefId := Nat
abbrev RegionVid := Nat

/-- A handle to compiler data that is copied and never looked into. -/
abbrev Interned := Nat

/-- `RegionVid::MAX`, the largest value of rustc's index types. -/
def RegionVid.MAX : RegionVid := 0xFFFF_FF00

/-! ## Types -/

inductive Region where
  | reEarlyParam (index : Nat)
  | reLateParam (id : Interned)
  | reStatic
  | reVar (vid : RegionVid)
  | reErased
  deriving DecidableEq

inductive Mutability where
  | not
  | «mut»
  deriving DecidableEq

mutual

/-- `ty::Ty`; `prim` stands for the scalar types other than `usize`, `alias`
    for the types that only the trait system can name. -/
inductive Ty where
  | usize
  | prim (name : Interned)
  | adt (defId : DefId) (args : GenericArgs)
  | closure (defId : DefId) (args : GenericArgs)
  | fnDef (defId : DefId) (args : GenericArgs)
  | alias (defId : DefId) (args : GenericArgs)
  | tuple (args : GenericArgs)
  | array (elem : Ty) (len : Interned)
  | slice (elem : Ty)
  | rawPtr (ty : Ty) (mutbl : Mutability)
  | ref (region : Region) (ty : Ty) (mutbl : Mutability)
  | param (index : Nat)
  deriving DecidableEq

/-- The generic arguments of a type, lifetimes and types in order. -/
inductive GenericArgs where
  | nil
  | lifetime (region : Region) (rest : GenericArgs)
  | ty (ty : Ty) (rest : GenericArgs)
  deriving DecidableEq

end

/-- `Ty::new_mut_ref`. -/
def Ty.newMutRef (region : Region) (ty : Ty) : Ty := .ref region ty .mut

/-- `Ty::ref_mutability`. -/
def Ty.refMutability : Ty → Option Mutability
  | .ref _ _ mutbl => some mutbl
  | _ => none

mutual

/-- The type with every region erased. -/
def Ty.eraseRegions : Ty → Ty
  | .usize => .usize
  | .prim name => .prim name
  | .adt defId args => .adt defId args.eraseRegions
  | .closure defId args => .closure defId args.eraseRegions
  | .fnDef defId args => .fnDef defId args.eraseRegions
  | .alias defId args => .alias defId args.eraseRegions
  | .tuple args => .tuple args.eraseRegions
  | .array elem len => .array elem.eraseRegions len
  | .slice elem => .slice elem.eraseRegions
  | .rawPtr ty mutbl => .rawPtr ty.eraseRegions mutbl
  | .ref _ ty mutbl => .ref .reErased ty.eraseRegions mutbl
  | .param index => .param index

/-- The generic arguments with every region erased. -/
def GenericArgs.eraseRegions : GenericArgs → GenericArgs
  | .nil => .nil
  | .lifetime _ rest => .lifetime .reErased rest.eraseRegions
  | .ty ty rest => .ty ty.eraseRegions rest.eraseRegions

end

/-! ## Places and rvalues -/

inductive PlaceElem where
  | deref
  | field (index : Nat) (ty : Ty)
  | index (ix : Local)
  | constantIndex (offset minLength : Nat) (fromEnd : Bool)
  | subslice (first last : Nat) (fromEnd : Bool)
  | downcast (variant : Nat)
  | opaqueCast (ty : Ty)
  | subtype (ty : Ty)
  deriving DecidableEq

structure Place where
  «local» : Local
  projection : List PlaceElem
  deriving DecidableEq

/-- `Place::from(local)`. -/
def Place.from (l : Local) : Place := ⟨l, []⟩

inductive MutBorrowKind where
  | default
  | twoPhaseBorrow
  | closureCapture
  deriving DecidableEq

inductive FakeBorrowKind where
  | shallow
  | deep
  deriving DecidableEq

inductive BorrowKind where
  | shared
  | fake (kind : FakeBorrowKind)
  | «mut» (kind : MutBorrowKind)
  deriving DecidableEq

inductive Operand where
  | copy (place : Place)
  | move (place : Place)
  | constant (const : Interned)
  deriving DecidableEq

inductive Rvalue where
  | use (operand : Operand)
  | repeat (operand : Operand) (count : Interned)
  | ref (region : Region) (kind : BorrowKind) (place : Place)
  | threadLocalRef (defId : DefId)
  | rawPtr (mutbl : Mutability) (place : Place)
  | len (place : Place)
  | cast (kind : Interned) (operand : Operand) (ty : Ty)
  | binaryOp (op : Interned) (left right : Operand)
  | nullaryOp (op : Interned) (ty : Ty)
  | unaryOp (op : Interned) (operand : Operand)
  | discriminant (place : Place)
  | aggregate (kind : Interned) (operands : List Operand)
  | shallowInitBox (operand : Operand) (ty : Ty)
  | copyForDeref (place : Place)
  deriving DecidableEq

/-! ## Statements -/

structure SourceInfo where
  span : Interned
  scope : Interned
  deriving DecidableEq

inductive FakeReadCause where
  | forMatchGuard
  | forMatchedPlace (closure : Option DefId)
  | forGuardBinding
  | forLet (closure : Option DefId)
  | forIndex
  deriving DecidableEq

inductive StatementKind where
  | assign (place : Place) (rvalue : Rvalue)
  | fakeRead (cause : FakeReadCause) (place : Place)
  | setDiscriminant (place : Place) (variant : Nat)
  | deinit (place : Place)
  | storageLive (l : Local)
  | storageDead (l : Local)
  | retag (kind : Interned) (place : Place)
  | placeMention (place : Place)
  | ascribeUserType (place : Place) (projection variance : Interned)
  | coverage (kind : Interned)
  | assume (operand : Operand)
  | constEvalCounter
  | nop
  | backwardIncompatibleDropHint (place : Place)
  deriving DecidableEq

structure Statement where
  sourceInfo : SourceInfo
  kind : StatementKind
  deriving DecidableEq

/-! ## Terminators -/

inductive UnwindAction where
  | continue
  | unreachable
  | terminate
  | cleanup (block : BasicBlock)
  deriving DecidableEq

inductive InlineAsmOperand where
  | input (value : Operand)
  | output (place : Option Place)
  | inOut (inValue : Operand) (outPlace : Option Place)
  | other (data : Interned)
  deriving DecidableEq

inductive TerminatorKind where
  | goto (target : BasicBlock)
  | switchInt (discr : Operand) (targets : List BasicBlock)
  | unwindResume
  | unwindTerminate
  | return
  | unreachable
  | drop (place : Place) (target : BasicBlock) (unwind : UnwindAction) (replace : Bool)
  | call (func : Operand) (args : List Operand) (destination : Place)
      (target : Option BasicBlock) (unwind : UnwindAction)
  | tailCall (func : Operand) (args : List Operand)
  | assert (cond : Operand) (expected : Bool) (msg : List Operand) (target : BasicBlock)
      (unwind : UnwindAction)
  | yield (value : Operand) (resume : BasicBlock) (resumeArg : Place) (drop : Option BasicBlock)
  | coroutineDrop
  | falseEdge (realTarget imaginaryTarget : BasicBlock)
  | falseUnwind (realTarget : BasicBlock) (unwind : UnwindAction)
  | inlineAsm (operands : List InlineAsmOperand) (targets : List BasicBlock)
      (unwind : UnwindAction)
  deriving DecidableEq

structure Terminator where
  sourceInfo : SourceInfo
  kind : TerminatorKind
  deriving DecidableEq

/-! ## Bodies -/

structure BasicBlockData where
  statements : List Statement
  terminator : Option Terminator
  isCleanup : Bool
  deriving DecidableEq

/-- `BasicBlockData::new`. -/
def BasicBlockData.new (terminator : Option Terminator) : BasicBlockData :=
  { statements := [], terminator, isCleanup := false }

inductive BindingMode where
  | none
  | other (mode : Interned)
  deriving DecidableEq

structure VarBindingForm where
  bindingMode : BindingMode
  optTyInfo : Option Interned
  optMatchPlace : Option Interned
  patSpan : Interned
  deriving DecidableEq

inductive BindingForm where
  | var (form : VarBindingForm)
  | implicitSelf (kind : Interned)
  | refForGuard
  deriving DecidableEq

inductive LocalInfo where
  | user (form : BindingForm)
  | staticRef (defId : DefId)
  | constRef (defId : DefId)
  | aggregateTemp
  | blockTailTemp (info : Interned)
  | ifThenRescopeTemp (info : Interned)
  | derefTemp
  | fakeBorrow
  | boring
  deriving DecidableEq

structure LocalDecl where
  ty : Ty
  mutability : Mutability
  localInfo : LocalInfo
  sourceInfo : SourceInfo
  deriving DecidableEq

/-- `LocalDecl::with_source_info`. -/
def LocalDecl.withSourceInfo (ty : Ty) (sourceInfo : SourceInfo) : LocalDecl :=
  { ty, mutability := .mut, localInfo := .boring, sourceInfo }

/-- `LocalDecl::is_user_variable`. -/
def LocalDecl.isUserVariable (decl : LocalDecl) : Bool :=
  match decl.localInfo with
  | .user (.var _) | .user (.implicitSelf _) | .user .refForGuard => true
  | _ => false

structure Body where
  basicBlocks : List BasicBlockData
  localDecls : List LocalDecl
  deriving DecidableEq

/-- A program point: a statement of a block, or the block's terminator when
    `statementIndex` is the number of its statements. -/
structure Location where
  block : BasicBlock
  statementIndex : Nat
  deriving DecidableEq

end MutationTesting.Mir
