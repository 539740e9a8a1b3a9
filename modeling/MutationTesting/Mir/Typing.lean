/-
  MutationTesting.Mir.Typing

  The types of places, operands and rvalues.  What rustc's type context answers
  about single projections, constants and the rvalues the tool never builds is
  a parameter: the fields of `TyCtxt`.
-/
import MutationTesting.Mir.Syntax
import MutationTesting.Rust.Abort

namespace MutationTesting.Mir

open MutationTesting.Rust

/-- The queries of rustc's type context that the tool relies on, and rustc's
    `Debug` output of the data it prints. -/
structure TyCtxt where
  /-- The type of a projection out of a place of the given type. -/
  projectionTy : Ty → PlaceElem → Ty
  constTy : Interned → Ty
  /-- The type of the rvalues other than `Use`, `Ref` and `Len`. -/
  otherRvalueTy : List LocalDecl → Rvalue → Ty
  debugPlace : Place → String
  debugStatement : Statement → String

/-- `Debug` of a vector of statements. -/
def TyCtxt.debugStatements (tcx : TyCtxt) (statements : List Statement) : String :=
  "[" ++ ", ".intercalate (statements.map tcx.debugStatement) ++ "]"

/-- `Place::ty`; looking up the base local panics when it is not declared. -/
def Place.ty (tcx : TyCtxt) (localDecls : List LocalDecl) (place : Place) : Res Ty := do
  let decl ← index localDecls place.local
  return place.projection.foldl tcx.projectionTy decl.ty

/-- `Operand::ty`. -/
def Operand.ty (tcx : TyCtxt) (localDecls : List LocalDecl) : Operand → Res Ty
  | .copy place | .move place => place.ty tcx localDecls
  | .constant const => .ok (tcx.constTy const)

/-- `BorrowKind::to_mutbl_lossy`. -/
def BorrowKind.toMutblLossy : BorrowKind → Mutability
  | .mut _ => .mut
  | .shared | .fake _ => .not

/-- `Rvalue::ty`. -/
def Rvalue.ty (tcx : TyCtxt) (localDecls : List LocalDecl) : Rvalue → Res Ty
  | .use operand => operand.ty tcx localDecls
  | .ref region kind place => do
    let ty ← place.ty tcx localDecls
    return .ref region ty kind.toMutblLossy
  | .len _ => .ok .usize
  | rvalue => .ok (tcx.otherRvalueTy localDecls rvalue)

/-- `check_stmt`: the two sides of an assignment have one type, up to regions. -/
def StatementKind.wellTyped (tcx : TyCtxt) (localDecls : List LocalDecl) : StatementKind → Bool
  | .assign place rvalue =>
    match place.ty tcx localDecls, rvalue.ty tcx localDecls with
    | .ok placeTy, .ok rvTy => decide (rvTy.eraseRegions = placeTy.eraseRegions)
    | _, _ => false
  | _ => true

/-- A declared base local gives the place a type. -/
theorem Place.ty_of_lt (tcx : TyCtxt) {localDecls : List LocalDecl} (place : Place)
    (h : place.local < localDecls.length) :
    place.ty tcx localDecls =
      .ok (place.projection.foldl tcx.projectionTy (localDecls[place.local]).ty) := by
  rw [Place.ty, index_of_lt h]
  rfl

theorem Place.lt_of_ty {tcx : TyCtxt} {localDecls : List LocalDecl} {place : Place} {ty : Ty}
    (h : place.ty tcx localDecls = .ok ty) : place.local < localDecls.length := by
  by_contra hge
  rw [Place.ty, index, List.getElem?_eq_none (Nat.not_lt.mp hge)] at h
  cases h

/-- Declaring further locals does not change the type of a place. -/
theorem Place.ty_append {tcx : TyCtxt} {localDecls : List LocalDecl} (place : Place)
    (fresh : List LocalDecl) (h : place.local < localDecls.length) :
    place.ty tcx (localDecls ++ fresh) = place.ty tcx localDecls := by
  rw [Place.ty, Place.ty, index_append_left h]

/-- The type of the local declared last. -/
theorem Place.ty_from_concat {tcx : TyCtxt} {localDecls rest : List LocalDecl}
    {decl : LocalDecl} :
    (Place.from localDecls.length).ty tcx (localDecls ++ decl :: rest) = .ok decl.ty := by
  have hlt : (Place.from localDecls.length).local < (localDecls ++ decl :: rest).length := by
    simp [Place.from]
  rw [Place.ty_of_lt tcx _ hlt]
  simp [Place.from]

/-! ## Assignments -/

section WellTyped

variable {tcx : TyCtxt} {localDecls : List LocalDecl} {place : Place} {rvalue : Rvalue}
  {placeTy rvTy : Ty}

theorem wellTyped_assign_iff (hplace : place.ty tcx localDecls = .ok placeTy)
    (hrvalue : rvalue.ty tcx localDecls = .ok rvTy) :
    (StatementKind.assign place rvalue).wellTyped tcx localDecls = true ↔
      rvTy.eraseRegions = placeTy.eraseRegions := by
  simp [StatementKind.wellTyped, hplace, hrvalue]

theorem Rvalue.ty_ref (h : place.ty tcx localDecls = .ok placeTy) (region : Region)
    (kind : BorrowKind) :
    (Rvalue.ref region kind place).ty tcx localDecls =
      .ok (.ref region placeTy kind.toMutblLossy) := by
  rw [Rvalue.ty, h]
  rfl

/-- A mutable borrow fits a local of the reference type it makes. -/
theorem wellTyped_mutRef (hplace : place.ty tcx localDecls = .ok placeTy) {target : Local}
    {region region' : Region} {kind : MutBorrowKind}
    (htarget : (Place.from target).ty tcx localDecls = .ok (.newMutRef region' placeTy)) :
    (StatementKind.assign (.from target) (.ref region (.mut kind) place)).wellTyped tcx
      localDecls = true := by
  rw [wellTyped_assign_iff htarget (Rvalue.ty_ref hplace region (.mut kind))]
  rfl

/-- A shared borrow does not fit a local of a mutable reference type, whatever
    the place borrowed. -/
theorem not_wellTyped_sharedRef (place : Place) (region : Region) {target : Local}
    {region' : Region} {ty : Ty}
    (htarget : (Place.from target).ty tcx localDecls = .ok (.newMutRef region' ty)) :
    (StatementKind.assign (.from target) (.ref region .shared place)).wellTyped tcx
      localDecls = false := by
  cases hplace : place.ty tcx localDecls with
  | error e => simp [StatementKind.wellTyped, htarget, Rvalue.ty, hplace]
  | ok placeTy =>
    rw [← Bool.not_eq_true, wellTyped_assign_iff htarget (Rvalue.ty_ref hplace region .shared)]
    simp [Ty.newMutRef, Ty.eraseRegions, BorrowKind.toMutblLossy]

/-- A move fits a local of the type of the place moved from. -/
theorem wellTyped_move (hplace : place.ty tcx localDecls = .ok placeTy) {target : Local}
    (htarget : (Place.from target).ty tcx localDecls = .ok placeTy) :
    (StatementKind.assign (.from target) (.use (.move place))).wellTyped tcx localDecls = true := by
  rw [wellTyped_assign_iff htarget (by rw [Rvalue.ty, Operand.ty]; exact hplace)]

theorem Ty.eraseRegions_eq_usize {ty : Ty} : ty.eraseRegions = .usize ↔ ty = .usize := by
  cases ty <;> simp [Ty.eraseRegions]

/-- A length fits a place of type `usize` only. -/
theorem wellTyped_len_iff {place' : Place} :
    (StatementKind.assign place (.len place')).wellTyped tcx localDecls = true ↔
      place.ty tcx localDecls = .ok .usize := by
  cases hplace : place.ty tcx localDecls with
  | error e => simp [StatementKind.wellTyped, hplace]
  | ok placeTy =>
    rw [wellTyped_assign_iff hplace rfl, Except.ok.injEq, ← Ty.eraseRegions_eq_usize,
      Ty.eraseRegions]
    exact eq_comm

end WellTyped

end MutationTesting.Mir
