/-
  MutationTesting.Mutator.Reborrows

  What `places_to_statements` makes of a list of places: the places are borrowed
  in the order of the list, each into a local of its own that the body does not
  use.  The locals are declared while the list is drained, so a place is typed in
  a body that has grown since; its type is the one it has in the original.

  An expiry mutant rests on this: its sequence uses one place and then the other,
  and neither reborrow can reach the rest of the body or the other reborrow.
-/
import MutationTesting.Mutator.Mutations
import MutationTesting.Mir.Locals

namespace MutationTesting.Mutator

open MutationTesting.Rust MutationTesting.Mir MutationTesting.Pcg

/-- The locals that the assignments among the statements assign to. -/
def targets (statements : List Statement) : List Local :=
  statements.filterMap fun statement =>
    match statement.kind with
    | .assign place _ => some place.local
    | _ => none

/-- The statements borrow the places in order into fresh locals, and `grown` is
    the body with these locals declared. -/
structure ReborrowsInOrder (tcx : TyCtxt) (body : Body) (places : List Pcg.Place) (grown : Body)
    (statements : List Statement) : Prop where
  basicBlocks_eq : grown.basicBlocks = body.basicBlocks
  localDecls_length : grown.localDecls.length = body.localDecls.length + places.length
  localDecls_take : grown.localDecls.take body.localDecls.length = body.localDecls
  statements_length : statements.length = places.length
  reborrows : ∀ k place, places[k]? = some place → ∃ sourceInfo,
    bogusSourceInfo body = .ok sourceInfo ∧
    statements[k]? = some (reborrow sourceInfo (body.localDecls.length + k) place)
  declares : ∀ k place, places[k]? = some place → ∃ sourceInfo ty,
    bogusSourceInfo body = .ok sourceInfo ∧
    place.toPlace.ty tcx body.localDecls = .ok ty ∧
    place.toPlace.ty tcx (grown.localDecls.take (body.localDecls.length + k)) = .ok ty ∧
    grown.localDecls[body.localDecls.length + k]? = some (reborrowDecl sourceInfo ty)
  targets_length : (targets statements).length = places.length
  targets_nodup : (targets statements).Nodup
  targets_fresh : LocalsDeclared body → ∀ target ∈ targets statements, target ∉ body.locals
  targets_not_in_places : ∀ target ∈ targets statements, ∀ place ∈ places,
    target ∉ place.toPlace.locals

theorem targets_zipWith_reborrow (sourceInfo : SourceInfo) {locals : List Local}
    {places : List Pcg.Place} (h : locals.length = places.length) :
    targets (List.zipWith (reborrow sourceInfo) locals places) = locals := by
  induction locals generalizing places with
  | nil => rfl
  | cons l locals ih =>
    cases places with
    | nil => simp at h
    | cons place places =>
      have hrest := ih (Nat.succ.inj h)
      rw [targets] at hrest ⊢
      rw [List.zipWith_cons_cons, List.filterMap_cons, hrest]
      rfl

/-- The statement for the `k`-th place borrows it into the `k`-th target. -/
theorem getElem?_zipWith_reborrow (sourceInfo : SourceInfo) (start : Local)
    {places : List Pcg.Place} {k : Nat} {place : Pcg.Place} (h : places[k]? = some place) :
    (List.zipWith (reborrow sourceInfo) (List.range' start places.length) places)[k]? =
      some (reborrow sourceInfo (start + k) place) := by
  have hk : k < places.length := (List.getElem?_eq_some_iff.mp h).1
  rw [List.getElem?_zipWith, List.getElem?_range' hk, h, Nat.one_mul]

/-- The `k`-th declaration has the type of the `k`-th place, which is the same
    before and after the first `k` declarations. -/
theorem exists_ty_of_forall₂ {tcx : TyCtxt} {sourceInfo : SourceInfo}
    {localDecls new : List LocalDecl} {places : List Pcg.Place}
    (hnew : List.Forall₂ (fun place decl =>
      targetDecl tcx sourceInfo localDecls place = .ok decl) places new)
    {k : Nat} {place : Pcg.Place} (h : places[k]? = some place)
    (hlt : place.local < localDecls.length) :
    ∃ ty, place.toPlace.ty tcx localDecls = .ok ty ∧
      place.toPlace.ty tcx ((localDecls ++ new).take (localDecls.length + k)) = .ok ty ∧
      (localDecls ++ new)[localDecls.length + k]? = some (reborrowDecl sourceInfo ty) := by
  obtain ⟨hk, rfl⟩ := List.getElem?_eq_some_iff.mp h
  have hk' : k < new.length := hnew.length_eq ▸ hk
  obtain ⟨ty, hty, hdecl⟩ := Res.bind_inv (hnew.get hk hk')
  refine ⟨ty, hty, ?_, ?_⟩
  · rw [List.take_length_add_append, Place.ty_append places[k].toPlace _ hlt]
    exact hty
  · rw [List.getElem?_append_right (Nat.le_add_right _ k), Nat.add_sub_cancel_left,
      List.getElem?_eq_getElem hk']
    exact congrArg some (Except.ok.inj hdecl).symm

section Declared

variable {tcx : TyCtxt} {body : Body} {places : List Pcg.Place}

theorem local_lt_of_locals_lt
    (h : ∀ place ∈ places, ∀ l ∈ place.toPlace.locals, l < body.localDecls.length) :
    ∀ place ∈ places, place.local < body.localDecls.length :=
  fun place hplace => h place hplace place.local List.mem_cons_self

/-- What `placesToStatements` comes to for declared places reborrows in order. -/
theorem ReborrowsInOrder.of_forall₂
    (hplaces : ∀ place ∈ places, ∀ l ∈ place.toPlace.locals, l < body.localDecls.length)
    {sourceInfo : SourceInfo} (hsi : bogusSourceInfo body = .ok sourceInfo)
    {new : List LocalDecl} (hnew : List.Forall₂ (fun place decl =>
      targetDecl tcx sourceInfo body.localDecls place = .ok decl) places new) :
    ReborrowsInOrder tcx body places ⟨body.basicBlocks, body.localDecls ++ new⟩
      (List.zipWith (reborrow sourceInfo) (List.range' body.localDecls.length places.length)
        places) := by
  have hlength : (List.range' body.localDecls.length places.length).length = places.length :=
    List.length_range'
  have htargets := targets_zipWith_reborrow sourceInfo hlength
  refine
    { basicBlocks_eq := rfl
      localDecls_length := by rw [List.length_append, hnew.length_eq]
      localDecls_take := List.take_left
      statements_length := by rw [List.length_zipWith, hlength, Nat.min_self]
      reborrows := ?_
      declares := ?_
      targets_length := by rw [htargets, hlength]
      targets_nodup := by
        rw [htargets]
        exact List.nodup_range'
      targets_fresh := ?_
      targets_not_in_places := ?_ }
  · intro k place hplace
    exact ⟨sourceInfo, hsi, getElem?_zipWith_reborrow sourceInfo _ hplace⟩
  · intro k place hplace
    have hlt := local_lt_of_locals_lt hplaces place (List.mem_of_getElem? hplace)
    obtain ⟨ty, hty, hgrown, hdecl⟩ := exists_ty_of_forall₂ hnew hplace hlt
    exact ⟨sourceInfo, ty, hsi, hty, hgrown, hdecl⟩
  · intro hdeclared target htarget hused
    rw [htargets, List.mem_range'_1] at htarget
    exact absurd (hdeclared target hused) (Nat.not_lt.mpr htarget.1)
  · intro target htarget place hplace hused
    rw [htargets, List.mem_range'_1] at htarget
    exact absurd (hplaces place hplace target hused) (Nat.not_lt.mpr htarget.1)

/-- Places over the locals of the body are reborrowed in order. -/
theorem placesToStatements_reborrows (tcx : TyCtxt) (hreturn : 0 < body.localDecls.length)
    (hplaces : ∀ place ∈ places, ∀ l ∈ place.toPlace.locals, l < body.localDecls.length) :
    ∃ grown statements, placesToStatements tcx body places = .ok (grown, statements) ∧
      ReborrowsInOrder tcx body places grown statements := by
  obtain ⟨sourceInfo, hsi⟩ := bogusSourceInfo_of_lt hreturn
  obtain ⟨new, hnew, hcall⟩ := placesToStatements_eq tcx hsi (local_lt_of_locals_lt hplaces)
  exact ⟨_, _, hcall, .of_forall₂ hplaces hsi hnew⟩

end Declared

/-- The sample's `x`, `r` and once more `x`. -/
theorem placesToStatements_reborrows_sample : ∃ grown statements,
    placesToStatements Sample.tcx Sample.body [Sample.x, Sample.r, Sample.x] =
      .ok (grown, statements) ∧
    ReborrowsInOrder Sample.tcx Sample.body [Sample.x, Sample.r, Sample.x] grown statements :=
  placesToStatements_reborrows Sample.tcx (by decide) (by decide)

/-! ## The sequence of an expiry mutant -/

/-- The block of an expiry mutant that is never taken uses `place` before
    `blockingPlace`, each through a local of its own. -/
theorem ExpiryOrder.attempt_reborrows {ctx : CompilerCtxt} {body : Body} {curr next : Location}
    {place blockingPlace : Pcg.Place} {mutant : Mutant}
    (hplaces : ∀ p ∈ [place, blockingPlace], ∀ l ∈ p.toPlace.locals, l < body.localDecls.length)
    (h : ExpiryOrder.attempt ctx body curr next (place, blockingPlace) = .ok (some mutant)) :
    ∃ block, mutant.body.basicBlocks[body.basicBlocks.length + 1]? = some block ∧
      ReborrowsInOrder ctx.tcx body [place, blockingPlace]
        ⟨body.basicBlocks, mutant.body.localDecls⟩ block.statements := by
  obtain ⟨grown, sequence, sourceInfo, bb, hseq, hsi, -, -, hbody, -⟩ := attempt_built h
  obtain ⟨new, hnew, hcall⟩ := placesToStatements_eq ctx.tcx hsi (local_lt_of_locals_lt hplaces)
  cases hseq.symm.trans hcall
  refine ⟨_, by rw [hbody, getElem?_splitBlocks_sequence], ?_⟩
  rw [hbody]
  exact .of_forall₂ hplaces hsi hnew

/-- The mutant of the sample uses `x` and then `r`. -/
theorem ExpiryOrder.attempt_reborrows_sample : ∃ mutant block,
    ExpiryOrder.attempt Sample.ctx Sample.body Sample.curr.location Sample.next.location
      (Sample.x, Sample.r) = .ok (some mutant) ∧
    mutant.body.basicBlocks[Sample.body.basicBlocks.length + 1]? = some block ∧
    ReborrowsInOrder Sample.ctx.tcx Sample.body [Sample.x, Sample.r]
      ⟨Sample.body.basicBlocks, mutant.body.localDecls⟩ block.statements := by
  obtain ⟨mutant, hbuilt⟩ :=
    MutationKind.attempt_isSome Sample.consecutive Sample.expiry_candidates List.mem_cons_self
  obtain ⟨block, hblock, hreborrows⟩ := ExpiryOrder.attempt_reborrows (by decide) hbuilt
  exact ⟨mutant, block, hbuilt, hblock, hreborrows⟩

end MutationTesting.Mutator
